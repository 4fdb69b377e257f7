import RadixDb.Key.RoundTrip
import RadixDb.Value.Column

/-!
# Are keys equal when their values are?

Exact indexes look rows up by the bytes of their keys, so equal bytes should be equal values and the
other way round. Two keys have the same bytes exactly if the same values are stored for all their
columns (`bytes_eq_iff`). **This is the equality of values but for two kinds of pairs**
(`keys_decide_equality_iff`): decimals of one number in different forms, as `1.0` and `1.00`, are
equal and have different keys; an instant in a leap second and the one that it is stored as are
different and have the same key.
-/

namespace RadixDb

open List

/-- Equal decimals that differ in precision or scale. -/
def DecimalForms (std : LowerExp) (a b : Value) : Prop :=
  a.eq std b = true ∧ a ≠ b ∧ a.asDecimalParts.isSome = true ∧ b.asDecimalParts.isSome = true

/-- Different instants that have the same nanoseconds: one of them is in a leap second. -/
def LeapTwins (a b : Value) : Prop :=
  ∃ t u : DateTime, a = .timestamp t ∧ b = .timestamp u ∧ t ≠ u ∧ t.totalNanos = u.totalNanos

/-- The same value is stored for both values. -/
def SameStored (column : DataColumnSpec) (a b : Value) : Prop :=
  (a.inKey column).stored = (b.inKey column).stored

/-! ## Floats -/

theorem classify_canonicalFloat (f : F64) : (canonicalFloat f).classify = f.classify := by
  unfold canonicalFloat
  split_ifs with hnan hzero
  · rw [hnan]
    decide +kernel
  · rw [hzero]
    decide +kernel
  · rfl

/-- Floats have one key exactly if they are equal. -/
theorem canonicalFloat_eq_iff (f g : F64) :
    canonicalFloat f = canonicalFloat g ↔ compareFloats f g = .eq := by
  rw [(compareFloats_compares f g).eq_eq, FloatClass.key_injective.eq_iff]
  constructor
  · intro h
    rw [← classify_canonicalFloat f, h, classify_canonicalFloat]
  · intro h
    unfold canonicalFloat
    rw [← h]
    split_ifs with hnan hzero
    · rfl
    · rfl
    · exact Number.eq_of_classify_eq h hnan hzero

/-! ## Two values of one column -/

section

variable {std : LowerExp} {json : Json} {column : DataColumnSpec} {a b : Value}

/-- The values that a column accepts as part of a key. -/
def Accepted (json : Json) (column : DataColumnSpec) (v : Value) : Prop :=
  v.isNull = true ∨ ∃ payload, appendCanonicalNonNullBytes json column v = .ok payload

theorem accepted_checks (h : Accepted json column a) :
    a.validateShape json = .ok () ∧
      (a.isNull = false → a.logicalType = column.dataType.logicalTypeRef) := by
  rcases h with hnull | ⟨payload, hp⟩
  · cases a with
    | null t => exact ⟨rfl, nofun⟩
    | _ => cases hnull
  · by_cases hfloat : column.dataType.logicalType = .float
    · obtain ⟨f, rfl, -⟩ := (appendCanonical_float_iff hfloat).mp hp
      have ha := (append_float_iff json hfloat).mpr ⟨f, rfl, rfl⟩
      exact ⟨rfl, fun _ => (appendNonNullValue_cases ha).2.1⟩
    · rw [appendCanonical_of_ne hfloat] at hp
      obtain ⟨-, htype, hshape, -⟩ := appendNonNullValue_cases hp
      exact ⟨hshape, fun _ => htype⟩

theorem Value.eq_self (std : LowerExp) (h : a.validateShape json = .ok ()) : a.eq std a = true := by
  obtain ⟨place, hplace⟩ := Value.follows_insert std .null h
  rw [← Value.ordCmp_eq_iff h h]
  exact (hplace a (.inl rfl) a (.inl rfl)).eq_eq.mpr rfl

theorem dataType_of_accepted {x y : Number} (ha : Accepted json column a)
    (hb : Accepted json column b) (hx : a.number = some x) (hy : b.number = some y) :
    x.dataType = y.dataType := by
  have hta := (accepted_checks ha).2 (Value.isNull_of_number hx)
  have htb := (accepted_checks hb).2 (Value.isNull_of_number hy)
  have hplain : ∀ {v : Value} {n : Number}, v.number = some n →
      v.logicalType = .builtin n.dataType := by
    intro v n hn
    have hext : v.asExternal = none := by
      cases v with
      | extension data =>
        obtain ⟨parts, hparts, -⟩ := Option.map_eq_some_iff.mp hn
        unfold Value.asDecimalParts at hparts
        dsimp only at hparts
        split_ifs at hparts with hd
        unfold Value.asExternal
        dsimp only
        rw [if_pos]
        rw [hd.1]
        exact .inl (by decide)
      | _ => rfl
    rw [Value.logicalType, hext, Value.dataType_of_number hn]
  rw [hplain hx] at hta
  rw [hplain hy] at htb
  exact LogicalTypeRef.builtin.inj (hta.trans htb.symm)

/-- Equal values are stored the same, but for decimals in different forms. -/
theorem sameStored_of_eq (ha : Accepted json column a) (hb : Accepted json column b)
    (h : a.eq std b = true) : SameStored column a b ∨ DecimalForms std a b := by
  have hsa := (accepted_checks ha).1
  have hsb := (accepted_checks hb).1
  have hcmp := (Value.ordCmp_eq_iff hsa hsb).mpr h
  rcases Value.eq_of_ordCmp_eq hsa hsb hcmp with ⟨hna, hnb⟩ | ⟨x, y, hx, hy⟩ | rfl
  · cases a with
    | null s =>
      cases b with
      | null t => exact .inl rfl
      | _ => cases hnb
    | _ => cases hna
  · have hkind := dataType_of_accepted ha hb hx hy
    by_cases hab : a = b
    · exact .inl (by rw [hab]; rfl)
    cases a with
    | integer i =>
      cases b with
      | integer j =>
        have hij : cmp i.1 j.1 = .eq := by simpa [Value.eq, compareCanonicalNumeric] using h
        exact absurd (congrArg Value.integer (Subtype.ext (cmp_eq_eq_iff _ _ |>.mp hij))) hab
      | float g => cases hx; cases hy; cases hkind
      | extension data =>
        cases hx
        obtain ⟨parts, -, rfl⟩ := Option.map_eq_some_iff.mp hy
        cases hkind
      | _ => cases hy
    | float f =>
      cases b with
      | float g =>
        have hfg : compareFloats f g = .eq := by simpa [Value.eq, compareCanonicalNumeric] using h
        exact .inl (congrArg Value.float ((canonicalFloat_eq_iff f g).mpr hfg))
      | integer j => cases hx; cases hy; cases hkind
      | extension data =>
        cases hx
        obtain ⟨parts, -, rfl⟩ := Option.map_eq_some_iff.mp hy
        cases hkind
      | _ => cases hy
    | extension data =>
      obtain ⟨parts, hparts, rfl⟩ := Option.map_eq_some_iff.mp hx
      cases b with
      | extension other =>
        obtain ⟨others, hothers, rfl⟩ := Option.map_eq_some_iff.mp hy
        exact .inr ⟨h, hab, by rw [hparts]; rfl, by rw [hothers]; rfl⟩
      | integer j | float g => cases hy; cases hkind
      | _ => cases hy
    | _ => cases hx
  · exact .inl rfl

/-- Only NULLs, floats and instants are not stored as they are. -/
theorem eq_of_stored_self (h : SameStored column a b) (hself : (a.inKey column).stored = a)
    (hnull : a.isNull = false) (hfloat : ∀ f, a ≠ .float f) (htime : ∀ t, a ≠ .timestamp t) :
    a = b := by
  rw [SameStored, hself] at h
  cases b with
  | null t =>
    rw [h] at hnull
    cases hnull
  | float g => exact absurd h (hfloat _)
  | timestamp u => exact absurd h (htime _)
  | _ => exact h

/-- Values that are stored the same are equal, but for leap seconds. -/
theorem eq_of_sameStored (ha : Accepted json column a) (h : SameStored column a b) :
    a.eq std b = true ∨ LeapTwins a b := by
  have hsa := (accepted_checks ha).1
  cases a with
  | null s =>
    cases b with
    | null t => exact .inl rfl
    | _ => cases h
  | float f =>
    cases b with
    | float g =>
      have hfg := (canonicalFloat_eq_iff f g).mp (Value.float.inj h)
      exact .inl (by simp [Value.eq, compareCanonicalNumeric, hfg])
    | _ => cases h
  | timestamp t =>
    cases b with
    | timestamp u =>
      have hnanos : t.totalNanos = u.totalNanos := by
        have hdates := Value.timestamp.inj h
        rw [← dateTimeFromEpochNanos_totalNanos t.totalNanos, hdates,
          dateTimeFromEpochNanos_totalNanos]
      by_cases htu : t = u
      · subst htu
        exact .inl (Value.eq_self std hsa)
      · exact .inr ⟨t, u, rfl, rfl, htu, hnanos⟩
    | _ => cases h
  | _ =>
    obtain rfl := eq_of_stored_self h rfl rfl (by rintro _ ⟨⟩) (by rintro _ ⟨⟩)
    exact .inl (Value.eq_self std hsa)

theorem not_sameStored_of_forms (h : DecimalForms std a b) : ¬ SameStored column a b := by
  obtain ⟨-, hne, ha, hb⟩ := h
  cases a with
  | extension data =>
    cases b with
    | extension other => exact fun hs => hne hs
    | _ => cases hb
  | _ => cases ha

theorem not_eq_of_twins (h : LeapTwins a b) : a.eq std b = false := by
  obtain ⟨t, u, rfl, rfl, htu, -⟩ := h
  simp [Value.eq, compareCanonicalNumeric, Value.asDecimalParts, htu]

end

/-! ## Two keys -/

section

variable {json : Json} {column : DataColumnSpec} {a b : Value}
  {first second : Bytes} {isNull isNull' : Bool} {start : ℕ}

theorem isNull_stored_inKey (column : DataColumnSpec) (v : Value) :
    (v.inKey column).stored.isNull = v.isNull := by
  cases v <;> rfl

/-- Payloads are equal exactly if the same value is stored. -/
theorem payload_eq_iff {p q : Bytes} (ha : appendCanonicalNonNullBytes json column a = .ok p)
    (hb : appendCanonicalNonNullBytes json column b = .ok q) : p = q ↔ SameStored column a b := by
  obtain ⟨hdecodeA, hagainA⟩ := decode_appendCanonical ha
  obtain ⟨hdecodeB, hagainB⟩ := decode_appendCanonical hb
  constructor
  · rintro rfl
    exact Except.ok.inj (hdecodeA.symm.trans hdecodeB)
  · intro hsame
    rw [hsame] at hagainA
    exact Except.ok.inj (hagainA.symm.trans hagainB)

/-- **One component**: no component is the beginning of another one, and components are equal
exactly if the same value is stored. -/
theorem component_eq_iff
    (ha : CanonicalKeyState.component json start column a = .ok (first, isNull))
    (hb : CanonicalKeyState.component json start column b = .ok (second, isNull'))
    (hfirst : first.length ≤ maxIndexKeyBytes) (hsecond : second.length ≤ maxIndexKeyBytes) :
    (first = second ↔ SameStored column a b) ∧
      ∀ rest rest', first ++ rest = second ++ rest' → first = second := by
  have hdiffer : a.isNull ≠ b.isNull → ¬ SameStored column a b := by
    intro hne hs
    have hnull := congrArg Value.isNull hs
    rw [isNull_stored_inKey, isNull_stored_inKey] at hnull
    exact hne hnull
  obtain ⟨hna, -, -, rfl⟩ | ⟨p, hp, -, rfl⟩ := component_cases ha <;>
    obtain ⟨hnb, -, -, rfl⟩ | ⟨q, hq, -, rfl⟩ := component_cases hb
  · -- two NULLs
    refine ⟨iff_of_true rfl ?_, fun _ _ _ => rfl⟩
    cases a with
    | null s =>
      cases b with
      | null t => rfl
      | _ => cases hnb
    | _ => cases hna
  · -- NULL and a value
    exact ⟨iff_of_false (fun h => absurd (head_eq_of_cons_eq h) (by decide))
      (hdiffer (by simp [hna, isNull_of_appendCanonical hq])),
      fun rest rest' h => absurd (head_eq_of_cons_eq h) (by decide)⟩
  · -- a value and NULL
    exact ⟨iff_of_false (fun h => absurd (head_eq_of_cons_eq h) (by decide))
      (hdiffer (by simp [hnb, isNull_of_appendCanonical hp])),
      fun rest rest' h => absurd (head_eq_of_cons_eq h) (by decide)⟩
  · -- two values
    have hmax : maxIndexKeyBytes < 256 ^ 4 := by decide
    simp only [length_append] at hfirst hsecond
    -- equal beginnings have equal headers
    have hpay : ∀ rest rest', componentHeader 1 column.dataType.logicalType p.length ++ p ++
        replicate (aligned (start + (8 + p.length)) - (start + (8 + p.length))) 0 ++ rest =
        componentHeader 1 column.dataType.logicalType q.length ++ q ++
        replicate (aligned (start + (8 + q.length)) - (start + (8 + q.length))) 0 ++ rest' →
        p = q := by
      intro rest rest' h
      simp only [append_assoc] at h
      obtain ⟨hhead, htail⟩ := append_inj h rfl
      have hlen : p.length = q.length := by
        rw [← leNat_componentHeader 1 column.dataType.logicalType (by omega : p.length < 256 ^ 4),
          hhead, leNat_componentHeader 1 column.dataType.logicalType (by omega)]
      exact (append_inj htail hlen).1
    refine ⟨⟨fun h => ?_, fun hs => ?_⟩, fun rest rest' h => ?_⟩
    · exact (payload_eq_iff hp hq).mp (hpay [] [] (by rw [h]))
    · rw [(payload_eq_iff hp hq).mpr hs]
    · rw [hpay rest rest' h]

/-- **The whole key**: two keys that were written after the same bytes are equal exactly if the same
values are stored for all columns. -/
theorem bytes_eq_iff {rows : List (DataColumnSpec × Value × Value)}
    {s t f g : CanonicalKeyState} (hst : s.bytes = t.bytes) (hali : 4 ∣ s.bytes.length)
    (hf : s.appendAll json (rows.map fun r => (r.1, r.2.1)) = .ok f)
    (hg : t.appendAll json (rows.map fun r => (r.1, r.2.2)) = .ok g) :
    f.bytes = g.bytes ↔ ∀ r ∈ rows, SameStored r.1 r.2.1 r.2.2 := by
  induction rows generalizing s t with
  | nil =>
    cases hf
    cases hg
    exact iff_of_true hst (forall_mem_nil _)
  | cons r rows ih =>
    obtain ⟨s', ha, hf⟩ := ok_of_bind hf
    obtain ⟨t', hb, hg⟩ := ok_of_bind hg
    obtain ⟨first, _, hca, hla, rfl⟩ := append_cases ha
    obtain ⟨second, _, hcb, hlb, rfl⟩ := append_cases hb
    rw [← hst] at hcb hlb hg
    rw [length_append] at hla hlb
    have hs' : 4 ∣ (s.bytes ++ first).length := by
      rw [length_append]
      exact component_aligned hali hca
    have ht' : 4 ∣ (s.bytes ++ second).length := by
      rw [length_append]
      exact component_aligned hali hcb
    obtain ⟨hiff, hbegin⟩ := component_eq_iff hca hcb (by omega) (by omega)
    rw [forall_mem_cons, ← hiff]
    constructor
    · intro h
      obtain ⟨rest, _, rfl, -⟩ := visitComponents_iff hs' hf
      obtain ⟨rest', _, rfl, -⟩ := visitComponents_iff ht' hg
      have hfs : first = second := by
        simp only [append_assoc] at h
        exact hbegin rest rest' (append_cancel_left h)
      refine ⟨hfs, (ih ?_ hs' hf hg).mp h⟩
      exact congrArg (s.bytes ++ ·) hfs
    · rintro ⟨hfs, hrest⟩
      exact (ih (congrArg (s.bytes ++ ·) hfs) hs' hf hg).mpr hrest

theorem accepted_of_appendAll {components : List (DataColumnSpec × Value)} {s f : CanonicalKeyState}
    (h : s.appendAll json components = .ok f) : ∀ c ∈ components, Accepted json c.1 c.2 := by
  induction components generalizing s with
  | nil => exact forall_mem_nil _
  | cons c components ih =>
    obtain ⟨next, ha, h⟩ := ok_of_bind h
    obtain ⟨added, _, hc, -⟩ := append_cases ha
    refine forall_mem_cons.mpr ⟨?_, ih h⟩
    obtain ⟨hnull, -⟩ | ⟨payload, hp, -⟩ := component_cases hc
    · exact .inl hnull
    · exact .inr ⟨payload, hp⟩

end

variable {columns : List DataColumnSpec} {as bs : List Value}

theorem map_zip_zip (ha : columns.length = as.length) (hb : columns.length = bs.length) :
    (columns.zip (as.zip bs)).map (fun r => (r.1, r.2.1)) = columns.zip as ∧
      (columns.zip (as.zip bs)).map (fun r => (r.1, r.2.2)) = columns.zip bs ∧
      (columns.zip (as.zip bs)).map Prod.snd = as.zip bs := by
  refine ⟨?_, ?_, map_snd_zip (by rw [length_zip]; omega)⟩
  · conv_rhs => rw [← map_fst_zip (show as.length ≤ bs.length by omega), zip_map_right]
    rfl
  · conv_rhs => rw [← map_snd_zip (show bs.length ≤ as.length by omega), zip_map_right]
    rfl

variable {json : Json}

/-- Keys are equal exactly if the same values are stored for their columns. -/
theorem encode_eq_iff {x y : Bytes} {m n : Bool}
    (ha : encodeCanonicalKeySpecs json columns as = .ok (x, m))
    (hb : encodeCanonicalKeySpecs json columns bs = .ok (y, n)) :
    x = y ↔ ∀ r ∈ columns.zip (as.zip bs), SameStored r.1 r.2.1 r.2.2 := by
  obtain ⟨hlenA, f, rfl, -, hf⟩ := appendAll_of_encode ha
  obtain ⟨hlenB, g, rfl, -, hg⟩ := appendAll_of_encode hb
  obtain ⟨hzipA, hzipB, -⟩ := map_zip_zip hlenA hlenB
  rw [← hzipA] at hf
  rw [← hzipB] at hg
  have hali : 4 ∣ CanonicalKeyState.new.bytes.length := Nat.dvd_zero 4
  exact bytes_eq_iff rfl hali hf hg

theorem hasNull_eq_of_bytes_eq {x : Bytes} {m n : Bool}
    (ha : encodeCanonicalKeySpecs json columns as = .ok (x, m))
    (hb : encodeCanonicalKeySpecs json columns bs = .ok (x, n)) : m = n := by
  have hsame := (encode_eq_iff ha hb).mp rfl
  obtain ⟨hlenA, -⟩ := appendAll_of_encode ha
  obtain ⟨hlenB, -⟩ := appendAll_of_encode hb
  obtain ⟨-, -, hpairs⟩ := map_zip_zip hlenA hlenB
  have hlen : as.length = bs.length := hlenA.symm.trans hlenB
  have has : as.any (·.isNull) = (columns.zip (as.zip bs)).any fun r => r.2.1.isNull := by
    conv_lhs => rw [← map_fst_zip (Nat.le_of_eq hlen), ← hpairs, map_map, any_map]
    rfl
  have hbs : bs.any (·.isNull) = (columns.zip (as.zip bs)).any fun r => r.2.2.isNull := by
    conv_lhs => rw [← map_snd_zip (Nat.le_of_eq hlen.symm), ← hpairs, map_map, any_map]
    rfl
  rw [hasNull_encode ha, hasNull_encode hb, has, hbs, Bool.eq_iff_iff, any_eq_true, any_eq_true]
  refine exists_congr fun r => and_congr_right fun hr => ?_
  have hnull := congrArg Value.isNull (hsame r hr)
  rw [isNull_stored_inKey, isNull_stored_inKey] at hnull
  rw [hnull]

/-- **Keys decide equality** of two lists of values exactly if it is not decided by decimals of
different forms, nor by a leap second: the first have different keys though they are equal, the
second one key though they differ. One component can do this only if the others do not settle the
question, so the two exceptions speak of all components. -/
theorem keys_decide_equality_iff (std : LowerExp)
    {columns : List DataColumnSpec} {as bs : List Value} {x y : Bytes} {m n : Bool}
    (ha : encodeCanonicalKeySpecs json columns as = .ok (x, m))
    (hb : encodeCanonicalKeySpecs json columns bs = .ok (y, n)) :
    (x = y ↔ ∀ p ∈ as.zip bs, p.1.eq std p.2 = true) ↔
      ¬ ((∀ p ∈ as.zip bs, p.1.eq std p.2 = true) ∧
          ∃ p ∈ as.zip bs, DecimalForms std p.1 p.2) ∧
        ¬ ((∀ r ∈ columns.zip (as.zip bs), SameStored r.1 r.2.1 r.2.2) ∧
          ∃ p ∈ as.zip bs, LeapTwins p.1 p.2) := by
  obtain ⟨hlenA, f, rfl, -, hf⟩ := appendAll_of_encode ha
  obtain ⟨hlenB, g, rfl, -, hg⟩ := appendAll_of_encode hb
  obtain ⟨hzipA, hzipB, hpairs⟩ := map_zip_zip hlenA hlenB
  rw [← hzipA] at hf
  rw [← hzipB] at hg
  have hacceptA := accepted_of_appendAll hf
  have hacceptB := accepted_of_appendAll hg
  rw [encode_eq_iff ha hb]
  generalize columns.zip (as.zip bs) = rows at hacceptA hacceptB hpairs ⊢
  rw [← hpairs]
  simp only [List.forall_mem_map] at hacceptA hacceptB ⊢
  simp only [List.mem_map, exists_exists_and_eq_and]
  constructor
  · intro h
    refine ⟨?_, ?_⟩
    · rintro ⟨heq, r, hr, hforms⟩
      exact not_sameStored_of_forms hforms (h.mpr heq r hr)
    · rintro ⟨hsame, r, hr, htwins⟩
      have heq := h.mp hsame r hr
      cases (not_eq_of_twins htwins).symm.trans heq
  · rintro ⟨hforms, htwins⟩
    constructor
    · intro hsame r hr
      refine (eq_of_sameStored (hacceptA r hr) (hsame r hr)).resolve_right fun ht => ?_
      exact htwins ⟨hsame, r, hr, ht⟩
    · intro heq r hr
      have hstored := sameStored_of_eq (hacceptA r hr) (hacceptB r hr) (heq r hr)
      exact hstored.resolve_right fun hd => hforms ⟨heq, r, hr, hd⟩

/-- An INTEGER, a FLOAT and a TEXT column. -/
def mixedColumns : List DataColumnSpec :=
  [integerColumn, scalarColumn .float ⟨Nat.zero_le 1, rfl⟩, scalarColumn .text rfl]

/-- A row of `mixedColumns` with one of the two zeros in it. -/
def zeroRow (negative : Bool) : List Value :=
  [.integer ⟨42, by decide⟩, .float ⟨negative, 0⟩, .text "ab"]

theorem keys_decide_equality_zeros :
    ∃ key, encodeCanonicalKeySpecs (fun _ => none) mixedColumns (zeroRow false) = .ok (key, false) ∧
      encodeCanonicalKeySpecs (fun _ => none) mixedColumns (zeroRow true) = .ok (key, false) ∧
      ∀ p ∈ (zeroRow false).zip (zeroRow true), p.1.eq LowerExp.reference p.2 = true := by
  have hkey : ∀ negative, encodeCanonicalKeySpecs (fun _ => none) mixedColumns (zeroRow negative) =
      .ok ([1, 1, 0, 0, 8, 0, 0, 0, 42, 0, 0, 0, 0, 0, 0, 0, 1, 2, 0, 0, 8, 0, 0, 0,
        0, 0, 0, 0, 0, 0, 0, 0, 1, 3, 0, 0, 2, 0, 0, 0, 97, 98, 0, 0], false) := by
    decide +kernel
  have hiff := keys_decide_equality_iff .reference (hkey false) (hkey true)
  refine ⟨_, hkey false, hkey true, (hiff.mpr ⟨?_, ?_⟩).mp rfl⟩
  · rintro ⟨-, p, hp, hforms⟩
    have hnone : ∀ p ∈ (zeroRow false).zip (zeroRow true), p.1.asDecimalParts = none := by
      decide
    simp [DecimalForms, hnone p hp] at hforms
  · rintro ⟨-, p, hp, t, -, ht, -⟩
    fin_cases hp <;> cases ht

/-- `1.0` and `1.00` are equal and have different keys; an instant in a leap second and the next
second have one key and are different. -/
theorem equal_decimals_have_different_keys :
    (∃ x y, encodeCanonicalKeySpecs (fun _ => none) [scalarColumn .decimal (Or.inl ⟨rfl, rfl⟩)]
          [Value.decimal 10 2 1] = .ok (x, false) ∧
        encodeCanonicalKeySpecs (fun _ => none) [scalarColumn .decimal (Or.inl ⟨rfl, rfl⟩)]
          [Value.decimal 100 3 2] = .ok (y, false) ∧
        x ≠ y ∧
        (Value.decimal 10 2 1).eq LowerExp.reference (Value.decimal 100 3 2) = true) ∧
    ∃ x, encodeCanonicalKeySpecs (fun _ => none) [timestampColumn]
          [.timestamp ⟨59, 10 ^ 9, by decide⟩] = .ok (x, false) ∧
        encodeCanonicalKeySpecs (fun _ => none) [timestampColumn]
          [.timestamp ⟨60, 0, by decide⟩] = .ok (x, false) ∧
        (Value.timestamp ⟨59, 10 ^ 9, by decide⟩).eq LowerExp.reference
          (.timestamp ⟨60, 0, by decide⟩) = false := by
  refine ⟨⟨_, _, rfl, rfl, ?_, ?_⟩, _, rfl, rfl, ?_⟩
  · decide +kernel
  · decide +kernel
  · decide +kernel

end RadixDb
