import RadixDb.Publication.Runs

/-!
# Reading sort runs

A file that was written is read record by record. A record comes back with its row and the key of
its bytes (`readOf`), which for an ordered key need not have the same values: an empty value makes
the file unreadable, and an instant in a leap second is read as another one. **The records that are
read are those that were written, each with its key as it is read** (`reads_written`). Reading what
was read once and written again changes nothing more (`readOf_readOf`).

What proofs need of the two kinds of keys is `Lawful`: keys are compared by their ranks in a linear
order, and have the bytes they were read from.
-/

namespace RadixDb.Runs

open List Except Bytes

/-! ## Keys -/

/-- Keys are compared by ranks, and read from their bytes. -/
structure Lawful {κ P : Type} [LinearOrder P] (K : RunKind κ) (rank : κ → P) : Prop where
  lt_iff : ∀ a b, K.compare a b = .lt ↔ rank a < rank b
  eq_iff : ∀ a b, K.compare a b = .eq ↔ rank a = rank b
  bytes_eq : ∀ a b, rank a = rank b →
    K.bytes a = K.bytes b ∧ K.hasNullComponent a = K.hasNullComponent b
  bytes_pos : ∀ a, 0 < (K.bytes a).length
  bytes_le : ∀ a, (K.bytes a).length ≤ maxIndexKeyBytes
  ofBytes : ∀ {bytes hasNull a}, K.ofBytes bytes hasNull = .ok a → K.bytes a = bytes
  tag_lt : K.tag < 2 ^ 16

/-- The place of an exact key. -/
def exactRank (key : ExactRunKey) : Bytes ×ₗ Bool := toLex (key.1.bytes, key.1.hasNullComponent)

theorem ordCmp_compares (a b : ExactIndexKey) :
    (a.ordCmp b).Compares (toLex (a.bytes, a.hasNullComponent) : Bytes ×ₗ Bool)
      (toLex (b.bytes, b.hasNullComponent)) := by
  have hbytes := Bytes.compareBytes_compares a.bytes b.bytes
  have hnull := cmp_compares a.hasNullComponent b.hasNullComponent
  unfold ExactIndexKey.ordCmp
  cases hcmp : Bytes.compareBytes a.bytes b.bytes with
  | lt => exact Prod.Lex.left _ _ (hbytes.eq_lt.mp hcmp)
  | gt => exact Prod.Lex.left _ _ (hbytes.eq_gt.mp hcmp)
  | eq =>
    have heq := hbytes.eq_eq.mp hcmp
    cases hflag : cmp a.hasNullComponent b.hasNullComponent with
    | lt => exact Prod.Lex.toLex_lt_toLex.mpr (.inr ⟨heq, hnull.eq_lt.mp hflag⟩)
    | eq => exact congrArg toLex (Prod.ext heq (hnull.eq_eq.mp hflag))
    | gt => exact Prod.Lex.toLex_lt_toLex.mpr (.inr ⟨heq.symm, hnull.eq_gt.mp hflag⟩)

theorem lawful_exact : Lawful exactRuns exactRank where
  lt_iff a b := (ordCmp_compares a.1 b.1).eq_lt
  eq_iff a b := (ordCmp_compares a.1 b.1).eq_eq
  bytes_eq a b h := Prod.mk.inj (toLex.injective h)
  bytes_pos a := a.2.1
  bytes_le a := a.2.2
  ofBytes {bytes hasNull a} h := by
    simp only [exactRuns] at h
    split_ifs at h
    cases h
    rfl
  tag_lt := by decide

/-- The place of an ordered key. -/
def orderedRank {json : Json} (columns : List IndexKeyColumn)
    (key : OrderedRunKey json columns) : KeyPlace := keyPlace columns key.1

section

variable {std : LowerExp} {json : Json} {columns : List IndexKeyColumn}

theorem compareTrusted_eq (ho : Ordered columns) (a b : OrderedRunKey json columns) :
    compareOrderedKeysTrusted std a.1 b.1 columns =
      placeCmp (orderedRank columns a) (orderedRank columns b) := by
  have ha := a.2.admitted ho
  have hb := b.2.admitted ho
  have hkeys := compareOrderedKeys_eq std ha hb ho
  simp only [compareOrderedKeys, validateKeyShape_eq ha, validateKeyShape_eq hb, ok_bind,
    compareOrderedComponents_eq std ha hb ho] at hkeys
  simp only [compareOrderedKeysTrusted, compareOrderedComponents_eq std ha hb ho]
  split_ifs at hkeys ⊢ with hne
  · exact ok.inj hkeys
  · exact ok.inj hkeys

theorem lawful_ordered (hne : columns ≠ []) (ho : Ordered columns) :
    Lawful (orderedRuns std json columns) (orderedRank columns) where
  lt_iff a b := by
    show compareOrderedKeysTrusted std a.1 b.1 columns = .lt ↔ _
    rw [compareTrusted_eq ho, placeCmp_eq_lt]
  eq_iff a b := by
    show compareOrderedKeysTrusted std a.1 b.1 columns = .eq ↔ _
    rw [compareTrusted_eq ho, placeCmp_eq_eq]
  bytes_eq a b h := by
    have hbytes : a.1.bytes = b.1.bytes := congrArg (fun p : KeyPlace => (ofLex p).2) h
    have hb : Canonical json columns ⟨a.1.bytes, b.1.values, b.1.hasNullComponent⟩ :=
      hbytes ▸ b.2
    exact ⟨hbytes, hasNull_eq_of_bytes_eq a.2 hb⟩
  bytes_pos a := (length_encode (by simpa using hne) a.2).1
  bytes_le a := (length_encode (by simpa using hne) a.2).2
  ofBytes {bytes hasNull a} h := by
    simp only [orderedRuns] at h
    split at h
    · cases h
    · cases h
      rfl
  tag_lt := show 2 < 2 ^ 16 by decide

end

/-! ## Records as they are read -/

section

variable {κ P : Type} [LinearOrder P] {K : RunKind κ} {rank : κ → P} {crc : Crc}

/-- The key that is read for a key that was written. -/
def readKey (K : RunKind κ) (key : κ) : FormatResult κ := do
  let read ← K.ofBytes (K.bytes key) (K.hasNullComponent key)
  if K.hasNullComponent read ≠ K.hasNullComponent key then
    .error (.invalid "sort-run NULL flag differs from key bytes")
  else .ok read

/-- A key as it is read, if it can be read. -/
def keyAsRead (K : RunKind κ) (key : κ) : κ :=
  match readKey K key with
  | .error _ => key
  | .ok read => read

/-- A record as it is read. -/
def readOf (K : RunKind κ) (r : RunRecord κ) : RunRecord κ := ⟨keyAsRead K r.key, r.rowOrdinal⟩

theorem keyAsRead_bytes (hK : Lawful K rank) (key : κ) :
    K.bytes (keyAsRead K key) = K.bytes key ∧
      K.hasNullComponent (keyAsRead K key) = K.hasNullComponent key := by
  unfold keyAsRead
  cases h : readKey K key with
  | error e => exact ⟨rfl, rfl⟩
  | ok read =>
    obtain ⟨k, hof, h⟩ := ok_of_bind h
    split_ifs at h with hflag
    cases h
    exact ⟨hK.ofBytes hof, not_not.mp hflag⟩

theorem keyAsRead_keyAsRead (hK : Lawful K rank) (key : κ) :
    keyAsRead K (keyAsRead K key) = keyAsRead K key := by
  obtain ⟨hbytes, hflag⟩ := keyAsRead_bytes hK key
  have hkey : readKey K (keyAsRead K key) = readKey K key := by
    rw [readKey, hbytes, hflag]
    rfl
  rw [keyAsRead, hkey]
  unfold keyAsRead
  cases readKey K key <;> rfl

theorem readOf_readOf (hK : Lawful K rank) (r : RunRecord κ) :
    readOf K (readOf K r) = readOf K r := by
  rw [readOf, readOf, keyAsRead_keyAsRead hK]

/-! ## Files -/

/-- The bytes of a record. -/
def recordBytes (K : RunKind κ) (crc : Crc) (r : RunRecord κ) : Bytes :=
  runRecordHeader K crc r ++ K.bytes r.key

theorem writeRunRecord_eq (hK : Lawful K rank) (r : RunRecord κ) :
    writeRunRecord K crc r = .ok (recordBytes K crc r) := by
  have hle := hK.bytes_le r.key
  rw [maxIndexKeyBytes] at hle
  rw [writeRunRecord, if_neg (by omega)]
  rfl

/-- **A file** has a header and the records, one after the other. -/
theorem writeRun_eq (hK : Lawful K rank) (records : List (RunRecord κ)) :
    writeRun K crc records =
      .ok (runHeader K crc records.length ++ records.flatMap (recordBytes K crc)) := by
  have hall : records.mapM (writeRunRecord K crc) = .ok (records.map (recordBytes K crc)) := by
    induction records with
    | nil => rfl
    | cons r records ih =>
      simp [mapM_cons, writeRunRecord_eq hK, ih, ok_bind, pure, Except.pure]
  simp only [writeRun, hall, ok_bind, flatMap_def]

/-- The fields of the header of a record. -/
def recordFields (K : RunKind κ) (crc : Crc) (r : RunRecord κ) : List (ℕ × ℕ) :=
  [(4, (K.bytes r.key).length), (4, (K.hasNullComponent r.key).toNat), (8, r.rowOrdinal),
    (4, (crc (K.bytes r.key)).toNat), (4, 0)]

theorem runRecordHeader_eq (K : RunKind κ) (crc : Crc) (r : RunRecord κ) :
    runRecordHeader K crc r = fields (recordFields K crc r) := by
  rfl

/-- **Reading a record that was written.** -/
theorem nextRecord_written (crc : Crc) (hK : Lawful K rank) {r : RunRecord κ}
    (hrow : r.rowOrdinal < 2 ^ 64) (rest : Bytes) (remaining : ℕ) :
    RunCursor.nextRecord K crc ⟨recordBytes K crc r ++ rest, remaining + 1⟩ =
      (readKey K r.key).map fun key => some (⟨key, r.rowOrdinal⟩, ⟨rest, remaining⟩) := by
  have hpos := hK.bytes_pos r.key
  have hle := hK.bytes_le r.key
  have hlen : (runRecordHeader K crc r).length = runRecordHeaderBytes := by
    rfl
  have htake : (recordBytes K crc r ++ rest).take runRecordHeaderBytes =
      runRecordHeader K crc r := by
    rw [recordBytes, append_assoc, take_left' hlen]
  have hdrop : (recordBytes K crc r ++ rest).drop runRecordHeaderBytes = K.bytes r.key ++ rest := by
    rw [recordBytes, append_assoc, drop_left' hlen]
  have hfield := readWord_record (runRecordHeader_eq K crc r)
  have hflag : (K.hasNullComponent r.key).toNat ≤ 1 := Bool.toNat_le _
  have hmax : maxIndexKeyBytes < 256 ^ 4 := by decide
  have h0 : readWord 4 (runRecordHeader K crc r) 0 = (K.bytes r.key).length :=
    hfield 0 rfl (by omega)
  have h4 : readWord 4 (runRecordHeader K crc r) 4 = (K.hasNullComponent r.key).toNat :=
    hfield 1 rfl (by omega)
  have h8 : readWord 8 (runRecordHeader K crc r) 8 = r.rowOrdinal := hfield 2 rfl hrow
  have h16 : readWord 4 (runRecordHeader K crc r) 16 = (crc (K.bytes r.key)).toNat :=
    hfield 3 rfl (crc (K.bytes r.key)).toNat_lt
  have h20 : readWord 4 (runRecordHeader K crc r) 20 = 0 := hfield 4 rfl (by decide)
  have hone : ((K.hasNullComponent r.key).toNat == 1) = K.hasNullComponent r.key := by
    cases K.hasNullComponent r.key <;> rfl
  have hshape : ¬ ((K.bytes r.key).length = 0 ∨ maxIndexKeyBytes < (K.bytes r.key).length ∨
      1 < (K.hasNullComponent r.key).toNat ∨ False) := by
    rw [or_false]
    omega
  have hkey : (K.bytes r.key ++ rest).take (K.bytes r.key).length = K.bytes r.key :=
    take_left
  simp only [RunCursor.nextRecord, Nat.succ_ne_zero, if_false, htake, hdrop, hlen, lt_irrefl, h0,
    h4, h8, h16, h20, if_neg hshape, hkey, hone, ne_eq, not_true_eq_false, drop_left,
    Nat.add_sub_cancel, readKey, bind, Except.bind]
  cases K.ofBytes (K.bytes r.key) (K.hasNullComponent r.key) with
  | error e => rfl
  | ok key =>
    dsimp only
    split_ifs <;> rfl

/-- What is left of a file that holds the records. -/
def cursorOf (K : RunKind κ) (crc : Crc) (records : List (RunRecord κ)) : RunCursor :=
  ⟨records.flatMap (recordBytes K crc), records.length⟩

/-- **The records that are read** are those that were written, with their keys as they are read. -/
theorem reads_written (hK : Lawful K rank) {records l : List (RunRecord κ)}
    (hrows : ∀ r ∈ records, r.rowOrdinal < 2 ^ 64)
    (h : Reads (RunCursor.nextRecord K crc) (cursorOf K crc records) l) :
    l = records.map (readOf K) := by
  induction records generalizing l with
  | nil =>
    cases h with
    | done => rfl
    | more hnext => cases hnext
  | cons r records ih =>
    have hnext := nextRecord_written crc hK (hrows r mem_cons_self)
      (records.flatMap (recordBytes K crc)) records.length
    cases hkey : readKey K r.key with
    | error e =>
      rw [hkey] at hnext
      cases h with
      | done hdone => exact nomatch hnext.symm.trans hdone
      | more hmore => exact nomatch hnext.symm.trans hmore
    | ok key =>
      rw [hkey] at hnext
      cases h with
      | done hdone => exact nomatch ok.inj (hnext.symm.trans hdone)
      | more hmore hrest =>
        obtain ⟨rfl, rfl⟩ :=
          Prod.mk.inj (Option.some.inj (ok.inj (hnext.symm.trans hmore)))
        rw [ih (fun r hr => hrows r (mem_cons_of_mem _ hr)) hrest, map_cons, readOf, keyAsRead,
          hkey]

/-- The fields of the header of a file. -/
def headerFields (K : RunKind κ) (crc : Crc) (count : ℕ) : List (ℕ × ℕ) :=
  [(8, leNat runMagic), (8, count), (2, K.tag), (2, 0),
    (4, (crc (runMagic ++ leBytes 8 count ++ leBytes 2 K.tag ++ [0, 0])).toNat)]

theorem runHeader_eq (K : RunKind κ) (crc : Crc) (count : ℕ) :
    runHeader K crc count = fields (headerFields K crc count) := by
  have hmagic : leBytes 8 (leNat runMagic) = runMagic := leBytes_leNat runMagic
  have hzero : leBytes 2 0 = [0, 0] := rfl
  simp [runHeader, headerFields, fields, hmagic, hzero]

theorem openRun_written (hK : Lawful K rank) {records : List (RunRecord κ)} (hne : records ≠ [])
    (hcount : records.length < 2 ^ 64) :
    RunCursor.openRun K crc
        (runHeader K crc records.length ++ records.flatMap (recordBytes K crc)) =
      .ok (cursorOf K crc records) := by
  have hlen : (runHeader K crc records.length).length = runHeaderBytes := by
    rfl
  have hfield := readWord_record (runHeader_eq K crc records.length)
  have h8 : readWord 8 (runHeader K crc records.length) 8 = records.length := hfield 1 rfl hcount
  have h16 : readWord 2 (runHeader K crc records.length) 16 = K.tag := hfield 2 rfl hK.tag_lt
  have h18 : readWord 2 (runHeader K crc records.length) 18 = 0 := hfield 3 rfl (by decide)
  have h20 : readWord 4 (runHeader K crc records.length) 20 = _ :=
    hfield 4 rfl (crc (runMagic ++ leBytes 8 records.length ++ leBytes 2 K.tag ++ [0, 0])).toNat_lt
  have hstart : (runHeader K crc records.length).take 20 =
      runMagic ++ leBytes 8 records.length ++ leBytes 2 K.tag ++ [0, 0] := by
    refine take_left' ?_
    rfl
  have hmagic : (runHeader K crc records.length).take 8 = runMagic := by
    simp only [runHeader, append_assoc]
    exact take_left' rfl
  have hpos : records.length ≠ 0 := fun h => hne (length_eq_zero_iff.mp h)
  simp [RunCursor.openRun, take_left' hlen, drop_left' hlen, hlen, hmagic, h8, h16, h18,
    h20, hstart, hpos, cursorOf]

end

end RadixDb.Runs
