import RadixDb.Key.Payload

/-!
# Are index keys read back as they were written?

**A key that has been read is written back as the same bytes** (`encode_of_decode`). The other way
the reader is stricter than the writer: it refuses a payload of no bytes, which the writer writes
for an empty text, an empty byte string and an external value without payload, and it reads an
instant in a leap second as an instant in the next second. **Every other key is read as the values
that were written**, with floats made canonical and NULLs of the types of their columns
(`decode_encode_iff`).
-/

namespace RadixDb

open List Bytes Nat Except

/-- A value as it is meant to be read from a key. -/
def Value.inKey (column : DataColumnSpec) : Value → Value
  | .null _ => .null column.dataType.logicalType
  | .float f => .float (canonicalFloat f)
  | v => v

/-- A text, byte string or external value without content. -/
def Value.isEmpty (v : Value) : Bool :=
  match v with
  | .text s => s = ""
  | .extension data =>
    match v.asExternal with
    | some external => external.payload.isEmpty
    | none => data.length ≤ 1
  | _ => false

/-! ## Canonical payloads -/

theorem canonicalFloat_idem (f : F64) : canonicalFloat (canonicalFloat f) = canonicalFloat f := by
  unfold canonicalFloat
  by_cases hnan : f.classify = .nan
  · rw [if_pos hnan]
    exact if_pos (by decide +kernel)
  · rw [if_neg hnan]
    by_cases hzero : f.classify = .finite 0
    · rw [if_pos hzero]
      have hpos : (⟨false, 0⟩ : F64).classify = .finite 0 := by decide +kernel
      rw [if_neg (by rw [hpos]; exact nofun), if_pos hpos]
    · rw [if_neg hzero, if_neg hnan, if_neg hzero]

section

variable {json : Json} {column : DataColumnSpec} {v : Value} {payload : Bytes}

theorem append_stored (h : appendNonNullValue json column v = .ok payload) :
    appendNonNullValue json column v.stored = .ok payload := by
  cases v with
  | timestamp t =>
    obtain ⟨-, -, -, -, ⟨e, -, he, -⟩ | ⟨hbi, -, hlimit⟩⟩ := appendNonNullValue_cases h
    · cases he
    · have hrep := represents_of_append hbi h
      generalize htype : column.dataType.logicalType = type at hrep
      cases hrep with
      | timestamp _ ht =>
        have htotal := dateTimeFromEpochNanos_totalNanos t.totalNanos
        refine appendNonNullValue_eq hbi rfl ?_ rfl ?_ ?_ hlimit
        · rw [htype]
          rfl
        · simp only [validateParameterizedValue, hbi, htype]
        · simp only [htype, Value.stored, nonNullPayload, Value.artifactTemporalNanos,
            DateTime.timestampNanosOpt, htotal, if_pos ht, Value.dataType]
          rfl
  | _ => exact h

/-- A FLOAT column holds floats, and every float can be written. -/
theorem append_float_iff (json : Json)
    (hfloat : column.dataType.logicalType = .float) :
    appendNonNullValue json column v = .ok payload ↔
      ∃ f, v = .float f ∧ payload = leBytes 8 f.toBits.toNat := by
  have hbi : column.dataType.externalTypeRef = none := by
    cases hext : column.dataType.externalTypeRef with
    | none => rfl
    | some e =>
      have hadm := column.dataType.admitted
      rw [hext] at hadm
      cases hadm.1.symm.trans hfloat
  constructor
  · intro h
    have hrep := represents_of_append hbi h
    rw [hfloat] at hrep
    cases hrep with
    | float f => exact ⟨f, rfl, rfl⟩
    | extension _ _ hext _ => cases hext
  · rintro ⟨f, rfl, rfl⟩
    refine appendNonNullValue_eq hbi rfl ?_ rfl ?_ ?_ ?_
    · rw [hfloat]
      rfl
    · simp only [validateParameterizedValue, hbi, hfloat]
    · rw [hfloat]
      rfl
    · rw [length_leBytes]
      decide

theorem appendCanonical_of_ne (hfloat : column.dataType.logicalType ≠ .float) :
    appendCanonicalNonNullBytes json column v = appendNonNullValue json column v := by
  simp only [appendCanonicalNonNullBytes, if_neg hfloat]
  cases appendNonNullValue json column v <;> rfl

theorem appendCanonical_float_iff (hfloat : column.dataType.logicalType = .float) :
    appendCanonicalNonNullBytes json column v = .ok payload ↔
      ∃ f, v = .float f ∧ payload = leBytes 8 (canonicalFloat f).toBits.toNat := by
  constructor
  · intro h
    simp only [appendCanonicalNonNullBytes, if_pos hfloat] at h
    obtain ⟨bytes, ha, h⟩ := ok_of_bind h
    obtain ⟨f, rfl, -⟩ := (append_float_iff json hfloat).mp ha
    cases h
    exact ⟨f, rfl, rfl⟩
  · rintro ⟨f, rfl, rfl⟩
    have ha := (append_float_iff json hfloat).mpr ⟨f, rfl, rfl⟩
    simp only [appendCanonicalNonNullBytes, if_pos hfloat, ok_bind, ha]

section

variable (h : appendCanonicalNonNullBytes json column v = .ok payload)

include h

/-- What comes back from the payload of a value in a key, and that its payload is the same. -/
theorem decode_appendCanonical :
    decodeNonNullValue json column payload = .ok (v.inKey column).stored ∧
      appendCanonicalNonNullBytes json column (v.inKey column).stored = .ok payload := by
  by_cases hfloat : column.dataType.logicalType = .float
  · obtain ⟨f, rfl, rfl⟩ := (appendCanonical_float_iff hfloat).mp h
    have ha := (append_float_iff json hfloat).mpr ⟨canonicalFloat f, rfl, rfl⟩
    refine ⟨decodeNonNullValue_eq ha, (appendCanonical_float_iff hfloat).mpr ?_⟩
    exact ⟨canonicalFloat f, rfl, by rw [canonicalFloat_idem]⟩
  · rw [appendCanonical_of_ne hfloat] at h ⊢
    have hinKey : v.inKey column = v := by
      cases v with
      | null t => exact absurd (appendNonNullValue_cases h).1 nofun
      | float f =>
        -- a float has no column but a FLOAT column
        obtain ⟨-, htype, -, -, ⟨e, -, he, -⟩ | ⟨hbi, -, -⟩⟩ := appendNonNullValue_cases h
        · cases he
        · rw [CatalogDataType.logicalTypeRef, hbi] at htype
          exact absurd (LogicalTypeRef.builtin.inj htype).symm hfloat
      | _ => rfl
    rw [hinKey]
    exact ⟨decodeNonNullValue_eq h, append_stored h⟩

theorem isNull_of_appendCanonical : v.isNull = false := by
  by_cases hfloat : column.dataType.logicalType = .float
  · obtain ⟨f, rfl, -⟩ := (appendCanonical_float_iff hfloat).mp h
    rfl
  · rw [appendCanonical_of_ne hfloat] at h
    exact (appendNonNullValue_cases h).1

/-- The payload has no bytes exactly for an empty value. -/
theorem payload_eq_nil_iff : payload = [] ↔ v.isEmpty = true := by
  by_cases hfloat : column.dataType.logicalType = .float
  · obtain ⟨f, rfl, rfl⟩ := (appendCanonical_float_iff hfloat).mp h
    exact iff_of_false (by rintro ⟨⟩) (by rintro ⟨⟩)
  · rw [appendCanonical_of_ne hfloat] at h
    obtain ⟨-, htype, -, -, ⟨e, -, he, rfl⟩ | ⟨hbi, -, -⟩⟩ := appendNonNullValue_cases h
    · cases v with
      | extension data => simp only [Value.isEmpty, he, List.isEmpty_iff]
      | _ => cases he
    · have hrep := represents_of_append hbi h
      have hext : v.asExternal = none := by
        rw [CatalogDataType.logicalTypeRef, hbi, Value.logicalType] at htype
        split at htype
        · cases htype
        · assumption
      generalize column.dataType.logicalType = type at hrep
      cases hrep with
      | text s =>
        have hempty : Value.textBytes "" = [] := rfl
        rw [← hempty, Value.textBytes_injective.eq_iff]
        simp [Value.isEmpty]
      | extension _ _ _ _ =>
        simp only [Value.ofPayload] at hext ⊢
        simp only [Value.isEmpty, hext, length_cons, decide_eq_true_eq, ← length_eq_zero_iff]
        omega
      | _ => exact iff_of_false (by rintro ⟨⟩) (by rintro ⟨⟩)

end

end

/-! ## Headers and ranges -/

theorem length_componentHeader (tag : UInt8) (type : DataType) (n : ℕ) :
    (componentHeader tag type n).length = componentHeaderBytes := rfl

theorem eq_componentHeader {header : Bytes} {type : DataType}
    (hlen : header.length = componentHeaderBytes) (htype : header.getD 1 0 = type.asU8)
    (hrsv : leNat ((header.drop 2).take 2) = 0) :
    header = componentHeader (header.getD 0 0) type (leNat ((header.drop 4).take 4)) := by
  match header, hlen with
  | [a, b, c, d, e, f, g, h], _ =>
    have hzero : [c, d] = [0, 0] := leNat_inj rfl hrsv
    have hword : leBytes 4 (leNat [e, f, g, h]) = [e, f, g, h] :=
      leBytes_leNat [e, f, g, h]
    obtain rfl : b = type.asU8 := htype
    cases hzero
    change _ = [a, type.asU8, 0, 0] ++ leBytes 4 (leNat [e, f, g, h])
    rw [hword]
    rfl

theorem leNat_componentHeader (tag : UInt8) (type : DataType) {n : ℕ} (h : n < 256 ^ 4) :
    leNat (((componentHeader tag type n).drop 4).take 4) = n := by
  have hword : ((componentHeader tag type n).drop 4).take 4 = leBytes 4 n := rfl
  rw [hword, leNat_leBytes_of_lt h]

theorem getRange_append (start stop : ℕ) (before middle after : Bytes)
    (hstart : start = before.length) (hstop : stop = start + middle.length) :
    getRange (before ++ middle ++ after) start stop = some middle := by
  subst hstop hstart
  simp [getRange]

variable {bytes : Bytes}

theorem getRange_eq_some {range : Bytes} {start stop : ℕ}
    (h : getRange bytes start stop = some range) :
    stop ≤ bytes.length ∧ range.length = stop - start ∧
      bytes.take stop = bytes.take start ++ range := by
  unfold getRange at h
  split_ifs at h with hc
  cases h
  refine ⟨hc.2, ?_, ?_⟩
  · rw [length_take, length_drop]
    omega
  · rw [← take_add, Nat.add_sub_cancel' hc.1]

theorem le_aligned (n : ℕ) : n ≤ aligned n ∧ 4 ∣ aligned n := by
  unfold aligned
  omega

/-! ## One component -/

section

variable {json : Json} {column : DataColumnSpec} {v : Value} {added : Bytes}
  {isNull : Bool} {start : ℕ}

theorem component_cases
    (h : CanonicalKeyState.component json start column v = .ok (added, isNull)) :
    (v.isNull = true ∧ column.nullable = true ∧ isNull = true ∧
        added = componentHeader 0 column.dataType.logicalType 0) ∨
      ∃ payload, appendCanonicalNonNullBytes json column v = .ok payload ∧ isNull = false ∧
        added = componentHeader 1 column.dataType.logicalType payload.length ++ payload ++
          replicate (aligned (start + (8 + payload.length)) - (start + (8 + payload.length))) 0
    := by
  unfold CanonicalKeyState.component at h
  split_ifs at h with hnull hnul
  · cases h
    exact Or.inl ⟨hnull, by simpa using hnul, rfl, rfl⟩
  · obtain ⟨payload, hp, h⟩ := ok_of_bind h
    simp only [length_append, length_componentHeader, componentHeaderBytes] at h
    cases h
    exact Or.inr ⟨payload, hp, rfl, rfl⟩

theorem component_aligned (hstart : 4 ∣ start)
    (h : CanonicalKeyState.component json start column v = .ok (added, isNull)) :
    4 ∣ start + added.length := by
  obtain ⟨-, -, -, rfl⟩ | ⟨payload, -, -, rfl⟩ := component_cases h
  · rw [length_componentHeader, componentHeaderBytes]
    omega
  · have ha := le_aligned (start + (8 + payload.length))
    simp only [length_append, length_componentHeader, componentHeaderBytes, length_replicate]
    omega

/-- The reader at a header: NULL, a payload of at least one byte, or nothing that it accepts. -/
theorem visitComponent_header {before after : Bytes} {tag : UInt8} {n : ℕ}
    (hlen : before.length = start) (hn : n < 256 ^ 4) :
    visitComponent json (before ++ componentHeader tag column.dataType.logicalType n ++ after)
        column start =
      if tag = 0 ∧ n = 0 ∧ column.nullable then
        .ok (.null column.dataType.logicalType, true, start + componentHeaderBytes)
      else if tag = 1 ∧ 0 < n then do
        let (value, cursor) ← visitNonNull json
          (before ++ componentHeader tag column.dataType.logicalType n ++ after) column
          (start + componentHeaderBytes) n
        .ok (value, false, cursor)
      else .error (.invalid "index key component NULL tag/length is invalid") := by
  have hhdr := getRange_append start (start + componentHeaderBytes) before
    (componentHeader tag column.dataType.logicalType n) after hlen.symm rfl
  have htype : (componentHeader tag column.dataType.logicalType n).getD 1 0 =
      column.dataType.logicalType.asU8 := rfl
  have hrsv :
      leNat (((componentHeader tag column.dataType.logicalType n).drop 2).take 2) = 0 := rfl
  have htag : (componentHeader tag column.dataType.logicalType n).getD 0 0 = tag := rfl
  simp only [visitComponent, hhdr, htype, hrsv, htag, leNat_componentHeader tag _ hn, ne_eq,
    not_true_eq_false, or_self, if_false]

/-- The reader at the payload of a value, followed by zeros. -/
theorem visitNonNull_append (before after : Bytes) {payload : Bytes} {pad : ℕ} {value : Value}
    (hlen : before.length = start)
    (hpad : aligned (start + payload.length) = start + payload.length + pad)
    (hdec : decodeNonNullValue json column payload = .ok value)
    (hagain : appendCanonicalNonNullBytes json column value = .ok payload) :
    visitNonNull json (before ++ payload ++ (replicate pad 0 ++ after)) column start
        payload.length =
      .ok (value, start + payload.length + pad) := by
  have hbytes := getRange_append start (start + payload.length) before payload
    (replicate pad 0 ++ after) hlen.symm rfl
  have hzeros := getRange_append (start + payload.length)
    (start + payload.length + pad) (before ++ payload) (replicate pad 0) after
    (by rw [length_append, hlen]) (by rw [length_replicate])
  rw [append_assoc (before ++ payload)] at hzeros
  have hnozero : (replicate pad (0 : UInt8)).any (· != 0) = false := by simp
  simp only [visitNonNull, hbytes, hdec, hagain, hpad, hzeros, hnozero, ok_bind, ne_eq,
    not_true_eq_false, Bool.false_eq_true, if_false]

/-- **One component**: the reader accepts what the writer has added unless the value is empty, and
gives what is stored for the value. -/
theorem visitComponent_iff {before : Bytes} (after : Bytes) (hlen : before.length = start)
    (h : CanonicalKeyState.component json start column v = .ok (added, isNull))
    (hlimit : added.length ≤ maxIndexKeyBytes) (r : Value × Bool × ℕ) :
    visitComponent json (before ++ added ++ after) column start = .ok r ↔
      v.isEmpty = false ∧ r = ((v.inKey column).stored, isNull, start + added.length) := by
  obtain ⟨hnull, hnul, rfl, rfl⟩ | ⟨payload, hp, rfl, rfl⟩ := component_cases h
  · have hvalue : (v.inKey column).stored = .null column.dataType.logicalType ∧
        v.isEmpty = false := by
      cases v with
      | null t => exact ⟨rfl, rfl⟩
      | _ => cases hnull
    rw [visitComponent_header hlen (by decide), if_pos ⟨rfl, rfl, hnul⟩, hvalue.1, hvalue.2]
    simp only [ok.injEq, true_and, length_componentHeader]
    exact eq_comm
  · have hal := (le_aligned (start + (8 + payload.length))).1
    generalize hpad : aligned (start + (8 + payload.length)) - (start + (8 + payload.length)) = pad
      at hlimit ⊢
    have hsmall : payload.length < 256 ^ 4 := by
      have hmax : maxIndexKeyBytes = 1048576 := rfl
      simp only [length_append] at hlimit
      omega
    have hsplit : before ++ (componentHeader 1 column.dataType.logicalType payload.length ++
        payload ++ replicate pad 0) ++ after =
        before ++ componentHeader 1 column.dataType.logicalType payload.length ++
          (payload ++ (replicate pad 0 ++ after)) := by
      simp
    rw [hsplit, visitComponent_header hlen hsmall, if_neg (fun h => absurd h.1 (by decide))]
    by_cases hempty : payload = []
    · have hv := (payload_eq_nil_iff hp).mp hempty
      rw [if_neg (fun h => absurd h.2 (by rw [hempty]; exact lt_irrefl 0)), hv]
      exact iff_of_false nofun fun h => nomatch h.1
    · have hv : v.isEmpty = false := by
        rwa [← Bool.not_eq_true, ← payload_eq_nil_iff hp]
      obtain ⟨hdec, hagain⟩ := decode_appendCanonical hp
      have hvisit := visitNonNull_append
        (before ++ componentHeader 1 column.dataType.logicalType payload.length) after
        (show _ = start + componentHeaderBytes by rw [length_append, hlen]; rfl)
        (show _ = _ + pad by rw [componentHeaderBytes, add_assoc start]; omega) hdec hagain
      rw [append_assoc (before ++ _)] at hvisit
      rw [if_pos ⟨rfl, length_pos_of_ne_nil hempty⟩, hvisit, hv]
      simp only [ok_bind, ok.injEq, true_and, length_append,
        length_componentHeader, length_replicate, ← add_assoc]
      exact eq_comm

end

/-! ## From values to bytes and back -/

section

variable {json : Json}

theorem append_cases {state next : CanonicalKeyState} {column : DataColumnSpec} {v : Value}
    (h : state.append json column v = .ok next) :
    ∃ added isNull,
      CanonicalKeyState.component json state.bytes.length column v = .ok (added, isNull) ∧
      (state.bytes ++ added).length ≤ maxIndexKeyBytes ∧
      next = ⟨state.bytes ++ added, state.hasNullComponent || isNull,
        state.encodedComponents + 1⟩ := by
  obtain ⟨⟨added, isNull⟩, hc, h⟩ := ok_of_bind h
  dsimp only at h
  split_ifs at h with hlimit
  cases h
  exact ⟨added, isNull, hc, not_lt.mp hlimit, rfl⟩

/-- **The whole key**: appending values only adds bytes, and the reader accepts the added bytes
exactly if no value is empty. -/
theorem visitComponents_iff {components : List (DataColumnSpec × Value)}
    {state final : CanonicalKeyState} (hali : 4 ∣ state.bytes.length)
    (h : state.appendAll json components = .ok final) :
    ∃ added hasNull, final = ⟨state.bytes ++ added, state.hasNullComponent || hasNull,
        state.encodedComponents + components.length⟩ ∧
      ∀ after r, visitComponents json (state.bytes ++ added ++ after) (components.map Prod.fst)
          state.bytes.length = .ok r ↔
        (∀ c ∈ components, c.2.isEmpty = false) ∧
          r = (components.map fun c => (c.2.inKey c.1).stored, hasNull,
            (state.bytes ++ added).length) := by
  induction components generalizing state with
  | nil =>
    cases h
    refine ⟨[], false, by simp, fun after r => ?_⟩
    rw [append_nil]
    constructor
    · intro hr
      exact ⟨forall_mem_nil _, (ok.inj hr).symm⟩
    · rintro ⟨-, rfl⟩
      rfl
  | cons c components ih =>
    obtain ⟨next, ha, h⟩ := ok_of_bind h
    obtain ⟨first, isNull, hc, hlimit, rfl⟩ := append_cases ha
    have hnext : 4 ∣ (state.bytes ++ first).length := by
      rw [length_append]
      exact component_aligned hali hc
    obtain ⟨rest, hasNull, rfl, hvisit⟩ := ih hnext h
    refine ⟨first ++ rest, isNull || hasNull, ?_, fun after r => ?_⟩
    · simp only [append_assoc, Bool.or_assoc, length_cons, CanonicalKeyState.mk.injEq, true_and]
      omega
    have hfirst := visitComponent_iff (rest ++ after) rfl hc (by
      rw [length_append] at hlimit
      omega)
    simp only [append_assoc, length_append] at hvisit hfirst ⊢
    simp only [map_cons, visitComponents, bind, Except.bind, forall_mem_cons]
    constructor
    · intro hr
      obtain ⟨one, hone, hr⟩ := ok_of_bind hr
      obtain ⟨hempty, rfl⟩ := (hfirst one).mp hone
      obtain ⟨more, hmore, hr⟩ := ok_of_bind hr
      obtain ⟨hnone, rfl⟩ := (hvisit after more).mp hmore
      cases hr
      exact ⟨⟨hempty, hnone⟩, rfl⟩
    · rintro ⟨⟨hempty, hnone⟩, rfl⟩
      rw [(hfirst _).mpr ⟨hempty, rfl⟩]
      dsimp only
      rw [(hvisit after _).mpr ⟨hnone, rfl⟩]

/-! ## From bytes to values and back -/

variable {column : DataColumnSpec} {bytes : Bytes} {v : Value} {isNull : Bool} {cursor next n : ℕ}

/-- What the reader has seen when it has read a payload. -/
theorem visitNonNull_cases (h : visitNonNull json bytes column cursor n = .ok (v, next)) :
    ∃ payload, payload.length = n ∧ appendCanonicalNonNullBytes json column v = .ok payload ∧
      next = aligned (cursor + n) ∧ next ≤ bytes.length ∧
      bytes.take next =
        bytes.take cursor ++ payload ++ replicate (next - (cursor + n)) 0 := by
  unfold visitNonNull at h
  dsimp only at h
  split at h
  · cases h
  rename_i payload hp
  obtain ⟨-, hlen, htake⟩ := getRange_eq_some hp
  obtain ⟨value, -, h⟩ := ok_of_bind h
  obtain ⟨scratch, hagain, hrest⟩ := ok_of_bind h
  split_ifs at hrest with hcanon
  rw [ne_eq, not_not] at hcanon
  subst hcanon
  split at hrest
  · cases hrest
  rename_i padding hpad
  split_ifs at hrest with hzero
  cases hrest
  obtain ⟨hend, hpadlen, hpadtake⟩ := getRange_eq_some hpad
  have hzeros : padding = replicate (aligned (cursor + n) - (cursor + n)) 0 := by
    refine eq_replicate_iff.mpr ⟨hpadlen, fun b hb => ?_⟩
    simp only [any_eq_true, bne_iff_ne, not_exists, not_and, not_not] at hzero
    exact hzero b hb
  refine ⟨scratch, by omega, hagain, rfl, hend, ?_⟩
  rw [hpadtake, htake, hzeros]

/-- **One component**: what the reader has accepted is what the writer adds for the value. -/
theorem component_of_visit (h : visitComponent json bytes column cursor = .ok (v, isNull, next)) :
    ∃ added, CanonicalKeyState.component json cursor column v = .ok (added, isNull) ∧
      next ≤ bytes.length ∧ bytes.take next = bytes.take cursor ++ added := by
  unfold visitComponent at h
  dsimp only at h
  split at h
  · cases h
  rename_i header hh
  obtain ⟨hend, hlen, htake⟩ := getRange_eq_some hh
  rw [Nat.add_sub_cancel_left] at hlen
  split_ifs at h with hfields hnull hvalue
  · -- NULL
    cases h
    simp only [not_or, ne_eq, not_not] at hfields
    have hhdr := eq_componentHeader hlen hfields.1 hfields.2
    rw [hnull.1, hnull.2.1] at hhdr
    refine ⟨header, ?_, hend, htake⟩
    simp [CanonicalKeyState.component, Value.isNull, hnull.2.2, hhdr]
  · -- a payload
    simp only [not_or, ne_eq, not_not] at hfields
    have hhdr := eq_componentHeader hlen hfields.1 hfields.2
    rw [hvalue.1] at hhdr
    generalize leNat ((header.drop 4).take 4) = length at h hhdr
    obtain ⟨r, hv, h⟩ := ok_of_bind h
    cases h
    obtain ⟨payload, rfl, hp, hnext, hle, hbytes⟩ := visitNonNull_cases hv
    refine ⟨header ++ payload ++
      replicate (r.2 - (cursor + componentHeaderBytes + payload.length)) 0, ?_, hle, ?_⟩
    · simp [CanonicalKeyState.component, isNull_of_appendCanonical hp, hp, ok_bind, ← hhdr, hlen,
        hnext, add_assoc]
    · rw [hbytes, htake]
      simp

/-- **The whole key**: writing the values that were read gives the bytes that were read. -/
theorem appendAll_of_visit {columns : List DataColumnSpec} {values : List Value} {hasNull : Bool}
    {final : ℕ} (state : CanonicalKeyState) (hstate : state.bytes = bytes.take cursor)
    (hcursor : cursor ≤ bytes.length) (hlimit : bytes.length ≤ maxIndexKeyBytes)
    (h : visitComponents json bytes columns cursor = .ok (values, hasNull, final)) :
    values.length = columns.length ∧
      state.appendAll json (columns.zip values) =
        .ok ⟨bytes.take final, state.hasNullComponent || hasNull,
          state.encodedComponents + columns.length⟩ := by
  induction columns generalizing state cursor values hasNull with
  | nil =>
    cases h
    refine ⟨rfl, ?_⟩
    rw [← hstate, Bool.or_false]
    rfl
  | cons column columns ih =>
    obtain ⟨one, hone, h⟩ := ok_of_bind h
    obtain ⟨v, isNull, next⟩ := one
    obtain ⟨more, hmore, h⟩ := ok_of_bind h
    cases h
    obtain ⟨added, hc, hle, htake⟩ := component_of_visit hone
    have hlen : state.bytes.length = cursor := by
      rw [hstate, length_take, min_eq_left hcursor]
    have happ : state.append json column v = .ok ⟨bytes.take next,
        state.hasNullComponent || isNull, state.encodedComponents + 1⟩ := by
      have hfits : ¬ maxIndexKeyBytes < (bytes.take next).length := by
        rw [length_take]
        omega
      simp only [CanonicalKeyState.append, hlen, hc, ok_bind]
      rw [hstate, ← htake, if_neg hfits]
    obtain ⟨hlength, hrest⟩ := ih ⟨bytes.take next, state.hasNullComponent || isNull,
      state.encodedComponents + 1⟩ rfl hle hmore
    refine ⟨by rw [length_cons, hlength, length_cons], ?_⟩
    simp only [zip_cons_cons, CanonicalKeyState.appendAll, happ, ok_bind, hrest,
      Bool.or_assoc, length_cons, ok.injEq, CanonicalKeyState.mk.injEq, true_and]
    omega

end

/-! ## The codec -/

variable {json : Json} {columns : List DataColumnSpec} {hasNull : Bool}

variable {values : List Value} {final state : CanonicalKeyState}

theorem encode_of_decode (h : decodeCanonicalKeySpecs json bytes columns = .ok (values, hasNull)) :
    encodeCanonicalKeySpecs json columns values = .ok (bytes, hasNull) := by
  simp only [decodeCanonicalKeySpecs] at h
  split_ifs at h with hlimit
  simp only [not_or, not_lt] at hlimit
  obtain ⟨r, hv, h⟩ := ok_of_bind h
  split_ifs at h with hend
  rw [ne_eq, not_not] at hend
  cases h
  obtain ⟨hlen, happ⟩ := appendAll_of_visit .new rfl (zero_le _) hlimit.2 hv
  rw [encodeCanonicalKeySpecs, if_neg (not_not.mpr hlen.symm)]
  simp only [ok_bind, happ, CanonicalKeyState.finish]
  simp [CanonicalKeyState.new, hend, take_length]

variable {components : List (DataColumnSpec × Value)}

/-- Every component has a header, and the key stays within its limit. -/
theorem length_appendAll (hstate : state.bytes.length ≤ maxIndexKeyBytes)
    (h : state.appendAll json components = .ok final) :
    final.bytes.length ≤ maxIndexKeyBytes ∧
      state.bytes.length + componentHeaderBytes * components.length ≤ final.bytes.length := by
  induction components generalizing state with
  | nil =>
    cases h
    exact ⟨hstate, le_refl _⟩
  | cons c components ih =>
    obtain ⟨next, ha, h⟩ := ok_of_bind h
    obtain ⟨added, isNull, hc, hlimit, rfl⟩ := append_cases ha
    obtain ⟨hmax, hmin⟩ := ih hlimit h
    have hhdr : componentHeaderBytes ≤ added.length := by
      obtain ⟨-, -, -, rfl⟩ | ⟨payload, -, -, rfl⟩ := component_cases hc
      · exact le_refl _
      · simp only [length_append, length_componentHeader]
        omega
    rw [length_append] at hmin
    rw [length_cons, mul_succ]
    exact ⟨hmax, by omega⟩

theorem appendAll_of_encode
    (h : encodeCanonicalKeySpecs json columns values = .ok (bytes, hasNull)) :
    columns.length = values.length ∧ ∃ final : CanonicalKeyState, final.bytes = bytes ∧
      final.hasNullComponent = hasNull ∧
      CanonicalKeyState.new.appendAll json (columns.zip values) = .ok final := by
  unfold encodeCanonicalKeySpecs at h
  split_ifs at h with hlen
  obtain ⟨final, ha, h⟩ := ok_of_bind h
  unfold CanonicalKeyState.finish at h
  split_ifs at h
  cases h
  exact ⟨not_not.mp hlen, final, rfl, rfl, ha⟩

theorem appendAll_append (l m : List (DataColumnSpec × Value)) (state : CanonicalKeyState) :
    state.appendAll json (l ++ m) =
      (state.appendAll json l).bind fun next => next.appendAll json m := by
  induction l generalizing state with
  | nil => rfl
  | cons c l ih =>
    simp only [cons_append, CanonicalKeyState.appendAll]
    cases state.append json c.1 c.2 with
    | error e => rfl
    | ok next => exact ih next

theorem encodedComponents_appendAll (h : state.appendAll json components = .ok final) :
    final.encodedComponents = state.encodedComponents + components.length := by
  induction components generalizing state with
  | nil =>
    cases h
    rfl
  | cons c components ih =>
    obtain ⟨next, ha, h⟩ := ok_of_bind h
    obtain ⟨added, isNull, -, -, rfl⟩ := append_cases ha
    rw [ih h, length_cons, add_assoc, add_comm 1]

theorem hasNull_appendAll (h : state.appendAll json components = .ok final) :
    final.hasNullComponent = (state.hasNullComponent || components.any (·.2.isNull)) := by
  induction components generalizing state with
  | nil =>
    cases h
    exact (Bool.or_false _).symm
  | cons c components ih =>
    obtain ⟨next, ha, h⟩ := ok_of_bind h
    obtain ⟨added, isNull, hc, -, rfl⟩ := append_cases ha
    have hnull : isNull = c.2.isNull := by
      obtain ⟨hv, -, rfl, -⟩ | ⟨payload, hp, rfl, -⟩ := component_cases hc
      · exact hv.symm
      · exact (isNull_of_appendCanonical hp).symm
    rw [ih h, any_cons, ← hnull, Bool.or_assoc]

/-- The flag of a key says whether it has a NULL. -/
theorem hasNull_encode (h : encodeCanonicalKeySpecs json columns values = .ok (bytes, hasNull)) :
    hasNull = values.any (·.isNull) := by
  obtain ⟨hlen, final, -, rfl, ha⟩ := appendAll_of_encode h
  have hvalues : (columns.zip values).map Prod.snd = values :=
    map_snd_zip (le_of_eq hlen.symm)
  rw [hasNull_appendAll ha]
  conv_rhs => rw [← hvalues, any_map]
  rfl

/-- The first values of a key are a key. -/
theorem encode_take {r : Bytes × Bool} (h : encodeCanonicalKeySpecs json columns values = .ok r)
    (k : ℕ) : ∃ r', encodeCanonicalKeySpecs json (columns.take k) (values.take k) = .ok r' := by
  obtain ⟨hlen, final, -, -, ha⟩ := appendAll_of_encode h
  have hlen' : (columns.take k).length = (values.take k).length := by
    rw [length_take, length_take, hlen]
  rw [← take_append_drop k (columns.zip values), appendAll_append] at ha
  obtain ⟨state, hfirst, ha⟩ := ok_of_bind ha
  have hcount := encodedComponents_appendAll hfirst
  have hzip : (columns.take k).zip (values.take k) = (columns.zip values).take k :=
    take_zipWith.symm
  rw [encodeCanonicalKeySpecs, if_neg (not_not.mpr hlen'), hzip, hfirst]
  refine ⟨(state.bytes, state.hasNullComponent), ?_⟩
  have htotal : state.encodedComponents = (columns.take k).length := by
    rw [hcount, length_take, length_zip, ← hlen, length_take, min_self]
    exact zero_add _
  simp [ok_bind, CanonicalKeyState.finish, htotal]

/-- A key of at least one component is not empty, and within its limit. -/
theorem length_encode (hcols : columns ≠ [])
    (h : encodeCanonicalKeySpecs json columns values = .ok (bytes, hasNull)) :
    0 < bytes.length ∧ bytes.length ≤ maxIndexKeyBytes := by
  obtain ⟨hlen, final, rfl, -, ha⟩ := appendAll_of_encode h
  obtain ⟨hmax, hmin⟩ := length_appendAll (zero_le _) ha
  have hpos : 0 < columns.length := length_pos_of_ne_nil hcols
  rw [length_zip, ← hlen, min_self, componentHeaderBytes] at hmin
  exact ⟨by omega, hmax⟩

theorem Value.inLeapSecond_inKey (column : DataColumnSpec) (v : Value) :
    (v.inKey column).inLeapSecond = v.inLeapSecond := by
  cases v <;> rfl

/-- What the reader makes of a key that was written: the stored values, if none is empty. -/
theorem decode_iff (hcols : columns ≠ [])
    (h : encodeCanonicalKeySpecs json columns values = .ok (bytes, hasNull))
    (r : List Value × Bool) :
    decodeCanonicalKeySpecs json bytes columns = .ok r ↔
      (∀ c ∈ columns.zip values, c.2.isEmpty = false) ∧
        r = ((columns.zip values).map fun c => (c.2.inKey c.1).stored, hasNull) := by
  obtain ⟨hpos, hmax⟩ := length_encode hcols h
  obtain ⟨hlen, final, rfl, rfl, ha⟩ := appendAll_of_encode h
  have hali : 4 ∣ CanonicalKeyState.new.bytes.length := dvd_zero 4
  obtain ⟨added, hasNull, rfl, hvisit⟩ := visitComponents_iff hali ha
  have hvisit := hvisit []
  have hfst : (columns.zip values).map Prod.fst = columns := map_fst_zip (le_of_eq hlen)
  simp only [hfst, CanonicalKeyState.new, nil_append, append_nil, length_nil,
    Bool.false_or] at hvisit hpos hmax ⊢
  have hadm : ¬ (added.isEmpty = true ∨ maxIndexKeyBytes < added.length) := by
    rw [List.isEmpty_iff, ← length_eq_zero_iff]
    omega
  simp only [decodeCanonicalKeySpecs, if_neg hadm, bind, Except.bind]
  constructor
  · intro hr
    obtain ⟨visited, hv, hr⟩ := ok_of_bind hr
    obtain ⟨hempty, rfl⟩ := (hvisit visited).mp hv
    simp only [ne_eq, not_true_eq_false, if_false] at hr
    exact ⟨hempty, (ok.inj hr).symm⟩
  · rintro ⟨hempty, rfl⟩
    rw [(hvisit _).mpr ⟨hempty, rfl⟩]
    simp

theorem forall_zip_iff (hlen : columns.length = values.length) (p : Value → Prop) :
    (∀ c ∈ columns.zip values, p c.2) ↔ ∀ v ∈ values, p v := by
  constructor
  · intro hall v hv
    rw [← map_snd_zip (le_of_eq hlen.symm)] at hv
    obtain ⟨c, hc, rfl⟩ := mem_map.mp hv
    exact hall c hc
  · exact fun hall c hc => hall c.2 (of_mem_zip hc).2

/-- **The codec**: a key that was written is read as its values exactly if no value is empty and no
instant is in a leap second; a key that was read is always written as the same bytes. -/
theorem decode_encode_iff (json : Bytes → Option String) :
    (∀ (columns : List DataColumnSpec) (values : List Value) (bytes : Bytes) (hasNull : Bool),
      columns ≠ [] → encodeCanonicalKeySpecs json columns values = .ok (bytes, hasNull) →
      (decodeCanonicalKeySpecs json bytes columns =
          .ok ((columns.zip values).map fun c => c.2.inKey c.1, hasNull) ↔
        ∀ c ∈ columns.zip values, c.2.isEmpty = false ∧ c.2.inLeapSecond = false)) ∧
    ∀ (bytes : Bytes) (columns : List DataColumnSpec) (values : List Value) (hasNull : Bool),
      decodeCanonicalKeySpecs json bytes columns = .ok (values, hasNull) →
      encodeCanonicalKeySpecs json columns values = .ok (bytes, hasNull) := by
  refine ⟨fun columns values bytes hasNull hcols h => ?_, fun _ _ _ _ h => encode_of_decode h⟩
  have hstored : ∀ c : DataColumnSpec × Value,
      c.2.inKey c.1 = (c.2.inKey c.1).stored ↔ c.2.inLeapSecond = false := by
    intro c
    rw [eq_comm, Value.stored_eq_iff, Value.inLeapSecond_inKey]
  simp only [decode_iff hcols h, Prod.mk.injEq, and_true, map_inj_left, hstored]
  exact forall₂_and.symm

/-- A column of a built-in type without parameters. -/
def scalarColumn (type : DataType) (h : admitsParameters type 0 0) : DataColumnSpec :=
  ⟨⟨type, none, 0, 0, h⟩, false⟩

def integerColumn : DataColumnSpec := scalarColumn .integer ⟨rfl, rfl⟩

def bytesColumn : DataColumnSpec := scalarColumn .bytes ⟨rfl, rfl⟩

def booleanColumn : DataColumnSpec := scalarColumn .boolean ⟨rfl, rfl⟩

def timestampColumn : DataColumnSpec := scalarColumn .timestamp ⟨rfl, rfl⟩

theorem decode_encode_iff_three :
    decodeCanonicalKeySpecs (fun _ => none) [1, 1, 0, 0, 8, 0, 0, 0, 42, 0, 0, 0, 0, 0, 0, 0,
        1, 3, 0, 0, 2, 0, 0, 0, 97, 98, 0, 0, 1, 4, 0, 0, 1, 0, 0, 0, 1, 0, 0, 0]
      [integerColumn, scalarColumn .text rfl, booleanColumn] =
        .ok ([.integer ⟨42, by decide⟩, .text "ab", .boolean true], false) :=
  ((decode_encode_iff fun _ => none).1 [integerColumn, scalarColumn .text rfl, booleanColumn]
    [.integer ⟨42, by decide⟩, .text "ab", .boolean true] _ false nofun rfl).mpr
      (by decide +kernel)

/-- An empty text is written, and not read; an instant in a leap second is read as another. -/
theorem empty_text_is_not_read :
    (encodeCanonicalKeySpecs (fun _ => none) [scalarColumn .text rfl] [.text ""] =
        .ok ([1, 3, 0, 0, 0, 0, 0, 0], false) ∧
      decodeCanonicalKeySpecs (fun _ => none) [1, 3, 0, 0, 0, 0, 0, 0] [scalarColumn .text rfl] =
        .error (.invalid "index key component NULL tag/length is invalid")) ∧
    ∃ bytes,
      encodeCanonicalKeySpecs (fun _ => none) [timestampColumn]
          [.timestamp ⟨59, 10 ^ 9, by decide⟩] = .ok (bytes, false) ∧
      decodeCanonicalKeySpecs (fun _ => none) bytes [timestampColumn] =
        .ok ([.timestamp ⟨60, 0, by decide⟩], false) := by
  refine ⟨⟨rfl, rfl⟩, _, rfl, ?_⟩
  rfl

end RadixDb
