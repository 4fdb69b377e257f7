import RadixDb.Db.KeyPasses
import RadixDb.Db.LocalVersions

/-!
# One transaction's keys

`KeysOk` is what holds of the keys of one transaction: **it retains exactly the keys that are
claimed for it** (`owned`), its current keys are claimed for the rows that have them (`current`,
`carried`), and it retains the keys of every version it holds, newest or not (`held`).

A rollback drops the keys that were first claimed after its time and that no restored row has. It
never drops a key of a version that it keeps, because between statements every key of a version was
first claimed no later than the version's statement ended (`first`).

The operations act on one transaction at a time, and what they make of it is proved here; what they
leave of the others is `KeysOk.frame`.
-/

namespace RadixDb

open List Table

variable {V : Type}

/-! ## The invariant -/

section

variable [DecidableEq V] (schema : UniqueSchema V)

/-- The keys of the data can be computed, and the transaction retains them. -/
def HeldData (keys : UniqueKeys V) (data : List V) : Prop :=
  ∃ ks, schema.uniqueKeysForRow data = .ok ks ∧ ∀ k ∈ ks, k ∈ keys.retained

/-- A row that has `k` once the statement under way, if any, is done. -/
def Planned (tx : TransactionVersionStore V) (st : Option (Statement V)) (row : Int)
    (k : UniqueClaimKey V) : Prop :=
  match st with
  | none => LocalKey schema tx row k
  | some x => FinalKey schema tx (x.pending.map (proposedRow x.kind.isDelete)) row k

/-- A statement under way: its rows are distinct and their keys reserved, and its times are later
than what its transaction may roll back to. -/
structure StatementOk (clock : Int) (keys : UniqueKeys V) (tx : TransactionVersionStore V)
    (bs : List Int) (x : Statement V) : Prop where
  active : tx.terminal = false
  distinct : (x.pending.map (·.1)).Nodup
  boundary : x.boundary ∈ bs
  stamp : ∀ timestamp ∈ bs, timestamp < x.stamp
  stamp_le : x.stamp ≤ clock
  held : x.kind.isDelete = false → ∀ p ∈ x.pending, HeldData schema keys p.2

/-- **What holds of one transaction's keys.** -/
structure KeysOk (shared : SharedUniqueClaimMap V) (clock t : Int) (keys : UniqueKeys V)
    (tx : TransactionVersionStore V) (bs : List Int) (st : Option (Statement V)) : Prop where
  owned : ∀ k, k ∈ keys.retained ↔ ∃ row, shared.lookup k = some ⟨t, row⟩
  current : ∀ k row, keys.current.lookup k = some row → shared.lookup k = some ⟨t, row⟩
  carried : tx.terminal = false → ∀ k row, keys.current.lookup k = some row →
    Planned schema tx st row k
  held : ∀ row v, tx.Holds row v → v.1.isDeleted = false → HeldData schema keys v.1.data
  first : ∀ timestamp ∈ bs, ∀ row v, tx.Holds row v → v.1.createTime ≤ timestamp →
    v.1.isDeleted = false → ∀ k, Carries schema v.1.data k →
      ∀ c, keys.retained.lookup k = some c → c ≤ timestamp
  bounds : ∀ timestamp ∈ bs, timestamp ≤ clock
  times : ∀ k c, keys.retained.lookup k = some c → c ≤ clock
  statement : ∀ x, st = some x → StatementOk schema clock keys tx bs x

/-- A transaction's own claims after a reservation, and everyone else's. -/
structure Reserved (rows : List (ProposedRow V)) (tx : TransactionVersionStore V)
    (t claimedAt : Int) (shared : SharedUniqueClaimMap V) (keys : UniqueKeys V)
    (shared' : SharedUniqueClaimMap V) (keys' : UniqueKeys V) : Prop where
  owned : ∀ k, k ∈ keys'.retained ↔ ∃ row, shared'.lookup k = some ⟨t, row⟩
  current : ∀ k row, keys'.current.lookup k = some row → shared'.lookup k = some ⟨t, row⟩
  final : ∀ k row, keys'.current.lookup k = some row → FinalKey schema tx rows row k
  kept : ∀ k c, keys.retained.lookup k = some c → keys'.retained.lookup k = some c
  times : ∀ k c, keys'.retained.lookup k = some c → keys.retained.lookup k = some c ∨ c = claimedAt
  held : ∀ row data, (row, some data) ∈ rows → HeldData schema keys' data
  others : ∀ u, u ≠ t → ∀ k row, shared'.lookup k = some ⟨u, row⟩ ↔ shared.lookup k = some ⟨u, row⟩

variable {schema}
variable {shared shared' : SharedUniqueClaimMap V} {clock clock' t u : Int}
  {keys keys' : UniqueKeys V} {tx tx' : TransactionVersionStore V} {bs : List Int}
  {st : Option (Statement V)} {row : Int} {k : UniqueClaimKey V} {rows : List (ProposedRow V)}

variable {data : List V}

theorem HeldData.mem (h : HeldData schema keys data) (hk : Carries schema data k) :
    k ∈ keys.retained := by
  obtain ⟨ks, hks, hall⟩ := h
  obtain ⟨ks', hks', hmem⟩ := hk
  rw [hks] at hks'
  cases hks'
  exact hall k hmem

theorem HeldData.mono (h : HeldData schema keys data)
    (hsub : ∀ k, k ∈ keys.retained → k ∈ keys'.retained) : HeldData schema keys' data :=
  h.imp fun _ hks => ⟨hks.1, fun k hk => hsub k (hks.2 k hk)⟩

omit [DecidableEq V] in
theorem LocalKey.congr (h : LocalKey schema tx row k)
    (hrow : tx'.getLocalVersion row = tx.getLocalVersion row) : LocalKey schema tx' row k := by
  obtain ⟨v, hv, hlive⟩ := h
  exact ⟨v, hrow.trans hv, hlive⟩

omit [DecidableEq V] in
theorem FinalKey.congr (h : FinalKey schema tx rows row k)
    (hrow : row ∉ rows.map (·.1) → tx'.getLocalVersion row = tx.getLocalVersion row) :
    FinalKey schema tx' rows row k :=
  h.imp_right fun ⟨hno, hk⟩ => ⟨hno, hk.congr (hrow hno)⟩

omit [DecidableEq V] in
theorem Planned.congr (h : Planned schema tx st row k)
    (hrow : tx'.getLocalVersion row = tx.getLocalVersion row) : Planned schema tx' st row k := by
  cases st with
  | none => exact LocalKey.congr h hrow
  | some x => exact FinalKey.congr h fun _ => hrow

/-- What others do does not concern a transaction, as long as they leave its claims alone. -/
theorem KeysOk.frame (h : KeysOk schema shared clock t keys tx bs st)
    (hshared : ∀ k row, shared'.lookup k = some ⟨t, row⟩ ↔ shared.lookup k = some ⟨t, row⟩)
    (hclock : clock ≤ clock') (hl : tx'.localVersions = tx.localVersions)
    (ht : tx'.terminal = tx.terminal) : KeysOk schema shared' clock' t keys tx' bs st where
  owned k := (h.owned k).trans (exists_congr fun row => (hshared k row).symm)
  current k row hk := (hshared k row).mpr (h.current k row hk)
  carried hact k row hk := (h.carried (ht ▸ hact) k row hk).congr
    (TransactionVersionStore.getLocalVersion_congr hl row)
  held row v hv := h.held row v (hv.congr hl)
  first timestamp hts row v hv := h.first timestamp hts row v (hv.congr hl)
  bounds timestamp hts := (h.bounds timestamp hts).trans hclock
  times k c hk := (h.times k c hk).trans hclock
  statement x hx := by
    obtain ⟨h1, h2, h3, h4, h5, h6⟩ := h.statement x hx
    exact ⟨ht.trans h1, h2, h3, h4, h5.trans hclock, h6⟩

theorem KeysOk.reserved (h : KeysOk schema shared clock t keys tx bs none)
    (hact : tx.terminal = false) {attempt : Attempt V} {claimedAt : Int}
    {claims : SharedUniqueClaimMap V × UniqueKeys V}
    (hok : reserveUniqueKeysForRows schema shared keys tx t rows attempt claimedAt = .ok claims) :
    Reserved schema rows tx t claimedAt shared keys claims.1 claims.2 := by
  obtain ⟨changed, rfl, hprog, hown, hkeys⟩ := reserve_spec hok
  have hmem : ∀ k, k ∈ (claimChanges shared keys t claimedAt changed).2.retained ↔
      k ∈ keys.retained ∨ ∃ row, changed.lookup k = some (some row) := by
    intro k
    rw [mem_iff_lookup, lookup_retained_claimChanges, mem_iff_lookup]
    rcases changed.lookup k with _ | _ | row <;> simp
  refine ⟨fun k => ?_, fun k row hk => ?_, fun k row hk => ?_, fun k c hk => ?_,
    fun k c hk => ?_, fun row data hrow => ?_, fun u hu k row => ?_⟩
  · rw [hmem, h.owned, lookup_shared_claimChanges]
    rcases changed.lookup k with _ | _ | row <;> simp
  · rw [lookup_current_claimChanges] at hk
    rw [lookup_shared_claimChanges]
    rcases hc : changed.lookup k with _ | _ | c <;> rw [hc] at hk
    · exact h.current k row hk
    · cases hk
    · cases hk
      rfl
  · -- a key that was not touched is none of the statement's rows'
    rw [lookup_current_claimChanges] at hk
    rcases hc : changed.lookup k with _ | _ | c <;> rw [hc] at hk
    · have hlocal := h.carried hact k row hk
      exact .inr ⟨fun hr => not_mem_of_lookup hc (hprog.given row k ⟨hr, hlocal⟩),
        hlocal⟩
    · cases hk
    · cases hk
      refine (hprog.owner k row hc).imp_right fun ⟨hcur, hnot⟩ => ?_
      have hlocal := h.carried hact k row hcur
      exact ⟨fun hr => hnot ⟨hr, hlocal⟩, hlocal⟩
  · rw [lookup_retained_claimChanges]
    rcases changed.lookup k with _ | _ | row <;> simp [hk]
  · rw [lookup_retained_claimChanges] at hk
    rcases hc : changed.lookup k with _ | _ | row <;> rw [hc] at hk
    · exact .inl hk
    · exact .inl hk
    · cases hr : keys.retained.lookup k with
      | none => exact .inr (by simpa [hr] using hk.symm)
      | some c' => exact .inl (by simpa [hr] using hk)
  · obtain ⟨ks, hks⟩ := hkeys row data hrow
    exact ⟨ks, hks, fun k hk => (hmem k).mpr
      (.inr ⟨row, hprog.taken row k ⟨data, hrow, ks, hks, hk⟩⟩)⟩
  · rw [lookup_shared_claimChanges]
    rcases hc : changed.lookup k with _ | _ | c
    · rfl
    · rfl
    · -- a key the statement takes was nobody's or its own
      constructor
      · intro heq
        cases heq
        exact absurd rfl hu
      · intro ho
        exact absurd (hown k c hc _ ho) hu

/-! ### Writing -/

omit [DecidableEq V] in
theorem data_writtenVersion (t : Int) (data : List V) (isDelete : Bool) (now : Int) :
    (writtenVersion t data isDelete now).1.data = data ∧
      (writtenVersion t data isDelete now).1.createTime = now := by
  unfold writtenVersion
  split <;> exact ⟨rfl, rfl⟩

omit [DecidableEq V] in
theorem isDelete_of_live {t : Int} {isDelete : Bool} {now : Int} (ht : t ≠ 0)
    (h : (writtenVersion t data isDelete now).1.isDeleted = false) : isDelete = false := by
  cases isDelete with
  | false => rfl
  | true => simp [writtenVersion, RowVersion.newDeletedWithTimestamp, RowVersion.isDeleted, ht] at h

omit [DecidableEq V] in
omit [DecidableEq V] in
/-- What a statement proposes for a row, unless it deletes. -/
theorem mem_map_proposedRow {isDelete : Bool} {pending : List (Int × List V)} :
    (row, some data) ∈ pending.map (proposedRow isDelete) ↔
      isDelete = false ∧ (row, data) ∈ pending := by
  cases isDelete <;> simp [proposedRow]

theorem KeysOk.begin (h : KeysOk schema shared clock t keys tx bs none) (hact : tx.terminal = false)
    (x : Statement V) {claimedAt : Int}
    (hres : Reserved schema (x.pending.map (proposedRow x.kind.isDelete)) tx t claimedAt shared keys
      shared' keys') (hdist : (x.pending.map (·.1)).Nodup) (hb : clock ≤ x.boundary)
    (hs : x.boundary < x.stamp) (hc : x.stamp ≤ claimedAt) :
    KeysOk schema shared' claimedAt t keys' tx (x.boundary :: bs) (some x) where
  owned := hres.owned
  current := hres.current
  carried _ := hres.final
  held row v hv hlive := (h.held row v hv hlive).mono fun k hk => by
    obtain ⟨c, hk⟩ := mem_iff_lookup.mp hk
    exact mem_of_lookup (hres.kept k c hk)
  first timestamp hts row v hv htime hlive k hk c hret := by
    -- the keys of a version that was there keep their times
    obtain ⟨c', hc'⟩ := mem_iff_lookup.mp ((h.held row v hv hlive).mem hk)
    cases (hres.kept k c' hc').symm.trans hret
    rcases mem_cons.mp hts with rfl | hts
    · exact (h.times k c hc').trans hb
    · exact h.first timestamp hts row v hv htime hlive k hk c hc'
  bounds := forall_mem_cons.mpr ⟨by omega, fun b hb => by have := h.bounds b hb; omega⟩
  times k c hk := by
    rcases hres.times k c hk with hold | rfl
    · have := h.times k c hold
      omega
    · exact le_rfl
  statement y hy := by
    cases hy
    exact ⟨hact, hdist, mem_cons_self, forall_mem_cons.mpr ⟨hs, fun b hb => by
      have := h.bounds b hb; omega⟩, hc, fun hdel p hp =>
      hres.held p.1 p.2 (mem_map_proposedRow.mpr ⟨hdel, hp⟩)⟩

theorem KeysOk.writeNext (ht : t ≠ 0) {x : Statement V} {rest : List (Int × List V)}
    (h : KeysOk schema shared clock t keys tx bs (some x)) (hx : x.pending = (row, data) :: rest)
    {timestamp : Int} (htime : ∀ b ∈ bs, b < timestamp) (hclock : clock ≤ clock')
    (hl : tx'.localVersions =
      (tx.push row (writtenVersion t data x.kind.isDelete timestamp)).localVersions)
    (hterm : tx'.terminal = tx.terminal) :
    KeysOk schema shared clock' t keys tx' bs (some { x with pending := rest }) := by
  obtain ⟨hact, hdist, hboundary, hstamp, hstamp_le, hheld⟩ := h.statement x rfl
  obtain ⟨hdata, hcre⟩ := data_writtenVersion t data x.kind.isDelete timestamp
  have hnewest := TransactionVersionStore.getLocalVersion_congr hl
  have hnew : row ∉ rest.map (·.1) := by
    rw [hx, map_cons] at hdist
    exact (nodup_cons.mp hdist).1
  have hholds : ∀ y w, tx'.Holds y w →
      tx.Holds y w ∨ (y = row ∧ w = writtenVersion t data x.kind.isDelete timestamp) :=
    fun y w hw => TransactionVersionStore.holds_push _ _ _ (hw.congr hl)
  refine ⟨h.owned, h.current, fun _ k y hk => ?_, fun y w hw hlive => ?_,
    fun b hb y w hw hwb hlive k hk c hc => ?_, fun b hb => (h.bounds b hb).trans hclock,
    fun k c hk => (h.times k c hk).trans hclock, fun z hz => ?_⟩
  · -- the row that is written passes from the plan to the versions
    have hplan : FinalKey schema tx (x.pending.map (proposedRow x.kind.isDelete)) y k :=
      h.carried hact k y hk
    rw [hx] at hplan
    rcases hplan with ⟨d, hmem, hd⟩ | ⟨hno, hlocal⟩
    · rw [map_cons, mem_cons] at hmem
      rcases hmem with heq | hmem
      · have hdel : x.kind.isDelete = false := by
          by_contra hdel
          simp [proposedRow, hdel] at heq
        simp only [proposedRow, hdel, Bool.false_eq_true, if_false, Prod.mk.injEq,
          Option.some.injEq] at heq
        obtain ⟨rfl, rfl⟩ := heq
        refine .inr ⟨by rwa [map_map], writtenVersion t d false timestamp, ?_, rfl,
          hd⟩
        rw [hnewest, TransactionVersionStore.getLocalVersion_push, if_pos rfl, hdel]
      · exact .inl ⟨d, hmem, hd⟩
    · rw [map_cons, map_cons, mem_cons, not_or] at hno
      refine .inr ⟨hno.2, hlocal.congr ?_⟩
      rw [hnewest, TransactionVersionStore.getLocalVersion_push]
      exact if_neg hno.1
  · rcases hholds y w hw with hw | ⟨-, rfl⟩
    · exact h.held y w hw hlive
    · rw [hdata]
      exact hheld (isDelete_of_live ht hlive) (row, data) (by rw [hx]; exact mem_cons_self)
  · rcases hholds y w hw with hw | ⟨-, rfl⟩
    · exact h.first b hb y w hw hwb hlive k hk c hc
    · have := htime b hb
      omega
  · cases hz
    refine ⟨hterm.trans hact, ?_, hboundary, hstamp, hstamp_le.trans hclock, fun hdel p hp =>
      hheld hdel p (by rw [hx]; exact mem_cons_of_mem _ hp)⟩
    rw [hx, map_cons] at hdist
    exact (nodup_cons.mp hdist).2

theorem KeysOk.finish {x : Statement V} (h : KeysOk schema shared clock t keys tx bs (some x))
    (hx : x.pending = []) : KeysOk schema shared clock t keys tx bs none := by
  refine ⟨h.owned, h.current, fun hact k row hk => ?_, h.held, h.first, h.bounds, h.times,
    fun _ hy => (by cases hy)⟩
  have hplan : FinalKey schema tx (x.pending.map (proposedRow x.kind.isDelete)) row k :=
    h.carried hact k row hk
  rw [hx] at hplan
  rcases hplan with ⟨d, hd, -⟩ | ⟨-, hlocal⟩
  · cases hd
  · exact hlocal

theorem KeysOk.boundaries {bs' : List Int} (h : KeysOk schema shared clock t keys tx bs none)
    (hsub : ∀ b ∈ bs', b ∈ bs) : KeysOk schema shared clock t keys tx bs' none :=
  ⟨h.owned, h.current, h.carried, h.held, fun b hb => h.first b (hsub b hb),
    fun b hb => h.bounds b (hsub b hb), h.times, fun _ hy => (by cases hy)⟩

/-! ### Rollback and release -/

theorem restoreKeys_spec : ∀ {ks : List (UniqueClaimKey V)}
    {current current' : Table (UniqueClaimKey V) Int},
    restoreKeys schema row ks current = .ok current' → ∀ k x, current'.lookup k = some x →
      current.lookup k = some x ∨ (x = row ∧ k ∈ ks)
  | [], current, current', hok, k, x, hx => by
    cases hok
    exact .inl hx
  | key :: rest, current, current', hok, k, x, hx => by
    have hrest : restoreKeys schema row rest (current.insert key row) = .ok current' := by
      unfold restoreKeys at hok
      split at hok
      · split at hok
        · cases hok
        · exact hok
      · exact hok
    rcases restoreKeys_spec hrest k x hx with hins | ⟨hrow, hmem⟩
    · rw [lookup_insert_if] at hins
      split at hins
      next heq =>
        cases hins
        exact .inr ⟨rfl, by simp [heq]⟩
      next => exact .inl hins
    · exact .inr ⟨hrow, mem_cons_of_mem _ hmem⟩

/-- A rebuilt view has keys of newest versions only. -/
theorem rebuild_spec : ∀ {rows : List Int} {current current' : Table (UniqueClaimKey V) Int},
    rebuildCurrentUniqueKeys schema tx rows current = .ok current' →
      (∀ k x, current.lookup k = some x → LocalKey schema tx x k) →
      ∀ k x, current'.lookup k = some x → LocalKey schema tx x k
  | [], current, current', hok, hcur, k, x, hx => by
    cases hok
    exact hcur k x hx
  | row :: rest, current, current', hok, hcur, k, x, hx => by
    unfold rebuildCurrentUniqueKeys at hok
    split at hok
    · exact rebuild_spec hok hcur k x hx
    next v hv =>
      split at hok
      · exact rebuild_spec hok hcur k x hx
      next hlive =>
        split at hok
        · cases hok
        next ks hks =>
          split at hok
          · cases hok
          next next hnext =>
            refine rebuild_spec hok (fun k x hx => ?_) k x hx
            rcases restoreKeys_spec hnext k x hx with hold | ⟨rfl, hmem⟩
            · exact hcur k x hold
            · exact ⟨v, hv, by simpa using hlive, ks, hks, hmem⟩

theorem ownedBy_iff {owner : Option UniqueClaimOwner} :
    ownedBy t owner = true ↔ ∃ row, owner = some ⟨t, row⟩ := by
  cases owner with
  | none => simp [ownedBy]
  | some o =>
    obtain ⟨txnId, rowId⟩ := o
    simp [ownedBy]

/-- What a rollback leaves of a transaction's own keys, and of everyone else's. -/
structure KeysRolledBack (keys : UniqueKeys V) (shared : SharedUniqueClaimMap V) (t timestamp : Int)
    (current : Table (UniqueClaimKey V) Int) (shared' : SharedUniqueClaimMap V)
    (keys' : UniqueKeys V) : Prop where
  view : keys'.current = current
  retained : ∀ k c, keys'.retained.lookup k = some c ↔
    keys.retained.lookup k = some c ∧ (current.lookup k = none → c ≤ timestamp)
  owned : ∀ k, k ∈ keys'.retained ↔ ∃ row, shared'.lookup k = some ⟨t, row⟩
  current : ∀ k row, k ∈ keys.retained → current.lookup k = some row →
    shared'.lookup k = some ⟨t, row⟩
  others : ∀ u, u ≠ t → ∀ k row, shared'.lookup k = some ⟨u, row⟩ ↔ shared.lookup k = some ⟨u, row⟩

section

variable (h : KeysOk schema shared clock t keys tx bs st)

include h

theorem KeysOk.rollback_keys (timestamp : Int) {current : Table (UniqueClaimKey V) Int}
    (hok : rebuildCurrentUniqueKeys schema tx' tx'.localVersions.sortedKeys ∅ = .ok current) :
    KeysRolledBack keys shared t timestamp current
      (rollbackUniqueKeysTo schema shared keys tx' t timestamp).1
      (rollbackUniqueKeysTo schema shared keys tx' t timestamp).2 := by
  have hretained : ∀ k c,
      (rollbackUniqueKeysTo schema shared keys tx' t timestamp).2.retained.lookup k = some c ↔
        keys.retained.lookup k = some c ∧ (current.lookup k = none → c ≤ timestamp) := by
    intro k c
    simp only [rollbackUniqueKeysTo, hok, lookup_retain, Option.filter_eq_some_iff]
    refine and_congr_right fun hc => ?_
    have hown : ownedBy t (shared.lookup k) = true :=
      ownedBy_iff.mpr ((h.owned k).mp (mem_of_lookup hc))
    cases hk : current.lookup k with
    | none => simp [releasedBy, hk, hown]
    | some row => simp [releasedBy, hk]
  have hshared : ∀ k, (rollbackUniqueKeysTo schema shared keys tx' t timestamp).1.lookup k =
      (keys.retained.lookup k).elim (shared.lookup k) fun c => (current.lookup k).elim
        (if timestamp < c then none else shared.lookup k) fun row => some ⟨t, row⟩ := by
    intro k
    simp only [rollbackUniqueKeysTo, hok, lookup_merge]
    cases hc : keys.retained.lookup k with
    | none => rfl
    | some c =>
      have hown : ownedBy t (shared.lookup k) = true :=
        ownedBy_iff.mpr ((h.owned k).mp (mem_of_lookup hc))
      cases current.lookup k <;> simp [hown]
  refine ⟨by simp only [rollbackUniqueKeysTo, hok], hretained, fun k => ?_, fun k row hk hrow => ?_,
    fun u hu k row => ?_⟩
  · rw [mem_iff_lookup, hshared]
    simp only [hretained]
    cases hc : keys.retained.lookup k with
    | none =>
      have hno : ¬ ∃ row, shared.lookup k = some ⟨t, row⟩ := fun hex =>
        not_mem_of_lookup hc ((h.owned k).mpr hex)
      simpa using hno
    | some c =>
      obtain ⟨row, hrow⟩ := (h.owned k).mp (mem_of_lookup hc)
      cases hk : current.lookup k with
      | some r => simp
      | none =>
        by_cases hlt : timestamp < c
        · simp [hlt]
        · simp [hlt, hrow, not_lt.mp hlt]
  · obtain ⟨c, hc⟩ := mem_iff_lookup.mp hk
    rw [hshared, hc, hrow]
    rfl
  · rw [hshared]
    cases hc : keys.retained.lookup k with
    | none => rfl
    | some c =>
      -- a retained key is the transaction's before and after
      obtain ⟨r, hr⟩ := (h.owned k).mp (mem_of_lookup hc)
      have hne : ∀ r' : Int, (⟨t, r'⟩ : UniqueClaimOwner) ≠ ⟨u, row⟩ := by
        intro r' heq
        cases heq
        exact hu rfl
      cases hk : current.lookup k with
      | some r' => simp [hr, hne]
      | none =>
        by_cases hlt : timestamp < c
        · simp [hlt, hr, hne]
        · simp [hlt]

/-- **A rollback to a time between statements** keeps the invariant and leaves the other
transactions' claims alone. -/
theorem KeysOk.rollback {timestamp : Int} (hts : timestamp ∈ bs)
    (hholds : ∀ row v, tx'.Holds row v → tx.Holds row v ∧ v.1.createTime ≤ timestamp) :
    KeysOk schema (rollbackUniqueKeysTo schema shared keys tx' t timestamp).1 clock t
        (rollbackUniqueKeysTo schema shared keys tx' t timestamp).2 tx' bs none ∧
      ∀ u, u ≠ t → ∀ k row,
        (rollbackUniqueKeysTo schema shared keys tx' t timestamp).1.lookup k = some ⟨u, row⟩ ↔
          shared.lookup k = some ⟨u, row⟩ := by
  cases hok : rebuildCurrentUniqueKeys schema tx' tx'.localVersions.sortedKeys ∅ with
  | error e =>
    simp only [rollbackUniqueKeysTo, hok]
    refine ⟨⟨h.owned, fun k row hk => ?_, fun _ k row hk => ?_,
      fun row v hv => h.held row v (hholds row v hv).1,
      fun b hb row v hv => h.first b hb row v (hholds row v hv).1, h.bounds, h.times,
      fun _ hx => (by cases hx)⟩, fun _ _ _ _ => trivial⟩
    · simp at hk
    · simp at hk
  | ok current =>
    have hroll := h.rollback_keys timestamp hok
    have hview : ∀ k row, current.lookup k = some row → LocalKey schema tx' row k :=
      rebuild_spec hok fun k x hx => absurd hx (by simp)
    -- what a kept version carries was first claimed before the rollback's time
    have hkept : ∀ row v, tx'.Holds row v → v.1.isDeleted = false → ∀ k,
        Carries schema v.1.data k → ∃ c, keys.retained.lookup k = some c ∧ c ≤ timestamp := by
      intro row v hv hlive k hk
      obtain ⟨hold, htime⟩ := hholds row v hv
      obtain ⟨c, hc⟩ := mem_iff_lookup.mp ((h.held row v hold hlive).mem hk)
      exact ⟨c, hc, h.first timestamp hts row v hold htime hlive k hk c hc⟩
    refine ⟨⟨hroll.owned, fun k row hk => ?_, fun _ k row hk => ?_, fun row v hv hlive => ?_,
      fun b hb row v hv htime hlive k hk c hc =>
        h.first b hb row v (hholds row v hv).1 htime hlive k hk c ((hroll.retained k c).mp hc).1,
      h.bounds, fun k c hk => h.times k c ((hroll.retained k c).mp hk).1,
      fun _ hx => (by cases hx)⟩, hroll.others⟩
    · rw [hroll.view] at hk
      obtain ⟨v, hv, hlive, hcarries⟩ := hview k row hk
      obtain ⟨c, hc, -⟩ := hkept row v
        (TransactionVersionStore.holds_getLocalVersion hv) hlive k hcarries
      exact hroll.current k row (mem_of_lookup hc) hk
    · rw [hroll.view] at hk
      exact hview k row hk
    · obtain ⟨ks, hks, -⟩ := h.held row v (hholds row v hv).1 hlive
      refine ⟨ks, hks, fun k hk => ?_⟩
      obtain ⟨c, hc, hle⟩ := hkept row v hv hlive k ⟨ks, hks, hk⟩
      exact mem_of_lookup ((hroll.retained k c).mpr ⟨hc, fun _ => hle⟩)

/-- A discarded store claims nothing, and the other transactions' claims stay. -/
theorem KeysOk.release :
    KeysOk schema (releaseRetainedUniqueKeys shared keys t).1 clock t .new .closed [] none ∧
      ∀ u, u ≠ t → ∀ k row, (releaseRetainedUniqueKeys shared keys t).1.lookup k = some ⟨u, row⟩ ↔
        shared.lookup k = some ⟨u, row⟩ := by
  have hlook : ∀ k, (releaseRetainedUniqueKeys shared keys t).1.lookup k =
      if k ∈ keys.retained then none else shared.lookup k := by
    intro k
    simp only [releaseRetainedUniqueKeys, lookup_merge]
    cases hc : keys.retained.lookup k with
    | none => simp [not_mem_of_lookup hc]
    | some c =>
      have hmem := mem_of_lookup hc
      simp [hmem, ownedBy_iff.mpr ((h.owned k).mp hmem)]
  have hnone : ∀ row v,
      ¬ (TransactionVersionStore.closed : TransactionVersionStore V).Holds row v :=
    fun row v ⟨vs, hvs, _⟩ => by simp [TransactionVersionStore.closed] at hvs
  refine ⟨⟨fun k => ?_, fun k row hk => ?_, fun hact => (by cases hact),
    fun row v hv => absurd hv (hnone row v), fun b hb => (by cases hb), fun b hb => (by cases hb),
    fun k c hk => ?_, fun _ hx => (by cases hx)⟩, fun u hu k row => ?_⟩
  · rw [hlook]
    by_cases hk : k ∈ keys.retained
    · simp [hk, UniqueKeys.new]
    · rw [if_neg hk]
      simpa [UniqueKeys.new] using fun row hrow => hk ((h.owned k).mpr ⟨row, hrow⟩)
  · simp [UniqueKeys.new] at hk
  · simp [UniqueKeys.new] at hk
  · rw [hlook]
    split
    next hk =>
      obtain ⟨r, hr⟩ := (h.owned k).mp hk
      rw [hr]
      refine iff_of_false (by simp) fun heq => ?_
      cases heq
      exact hu rfl
    next => rfl

end

/-- The start: nothing is written and nothing is claimed. -/
theorem KeysOk.start (clock t : Int) : KeysOk schema ∅ clock t .new .new [] none :=
  ⟨by simp [UniqueKeys.new], by simp [UniqueKeys.new], by simp [UniqueKeys.new],
    fun row v ⟨vs, hvs, _⟩ => by simp [TransactionVersionStore.new] at hvs, by simp, by simp,
    by simp [UniqueKeys.new], by simp⟩

end

end RadixDb
