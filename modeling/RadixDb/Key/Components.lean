import RadixDb.Key.Equality

/-!
# The components of a key on their own

Components start at multiples of four, so the bytes of a component do not depend on those before it
(`component_at_zero`). **Each value of a key is therefore a key of its own, with the bytes that it
has in the whole key, and two keys are equal exactly if these are** (`encode_eq_iff_single`).
-/

namespace RadixDb

open List

section

variable {json : Json} {column : DataColumnSpec} {columns : List DataColumnSpec}
  {v : Value} {values as bs : List Value} {added x y : Bytes} {isNull m n : Bool} {start : ℕ}

theorem component_at_zero (hstart : 4 ∣ start)
    (h : CanonicalKeyState.component json start column v = .ok (added, isNull)) :
    CanonicalKeyState.component json 0 column v = .ok (added, isNull) := by
  obtain ⟨hnull, hnul, rfl, rfl⟩ | ⟨payload, hp, rfl, rfl⟩ := component_cases h
  · rw [CanonicalKeyState.component, if_pos hnull, if_neg (by simpa using hnul)]
  · have hnull := isNull_of_appendCanonical hp
    have hpad : aligned (start + (8 + payload.length)) - (start + (8 + payload.length)) =
        aligned (0 + (8 + payload.length)) - (0 + (8 + payload.length)) := by
      unfold aligned
      omega
    simp [CanonicalKeyState.component, hnull, hp, bind, Except.bind, length_componentHeader,
      componentHeaderBytes, hpad]

theorem encode_single_eq (h : CanonicalKeyState.component json 0 column v = .ok (added, isNull))
    (hle : added.length ≤ maxIndexKeyBytes) :
    encodeCanonicalKeySpecs json [column] [v] = .ok (added, isNull) := by
  have hlimit : ¬ maxIndexKeyBytes < added.length := not_lt.mpr hle
  simp [encodeCanonicalKeySpecs, zip_nil_right, CanonicalKeyState.appendAll,
    CanonicalKeyState.append, CanonicalKeyState.new, h, ok_bind, hlimit, CanonicalKeyState.finish]

theorem components_of_appendAll {components : List (DataColumnSpec × Value)}
    {s f : CanonicalKeyState} (hali : 4 ∣ s.bytes.length)
    (h : s.appendAll json components = .ok f) :
    ∀ c ∈ components, ∃ r, encodeCanonicalKeySpecs json [c.1] [c.2] = .ok r := by
  induction components generalizing s with
  | nil => exact forall_mem_nil _
  | cons c components ih =>
    obtain ⟨next, ha, h⟩ := ok_of_bind h
    obtain ⟨added, isNull, hc, hlimit, rfl⟩ := append_cases ha
    have hnext : 4 ∣ (s.bytes ++ added).length := by
      rw [length_append]
      exact component_aligned hali hc
    rw [length_append] at hlimit
    exact forall_mem_cons.mpr ⟨⟨_, encode_single_eq (component_at_zero hali hc)
      ((Nat.le_add_left _ _).trans hlimit)⟩, ih hnext h⟩

/-- **Each value of a key is a key of its own.** -/
theorem encode_single {r : Bytes × Bool} (h : encodeCanonicalKeySpecs json columns values = .ok r)
    {i : ℕ} (hcol : columns[i]? = some column) (hv : values[i]? = some v) :
    ∃ r, encodeCanonicalKeySpecs json [column] [v] = .ok r := by
  obtain ⟨-, f, -, -, hf⟩ := appendAll_of_encode h
  have hali : 4 ∣ CanonicalKeyState.new.bytes.length := Nat.dvd_zero 4
  exact components_of_appendAll hali hf _
    (mem_of_getElem? (getElem?_zip_some hcol hv))

theorem sameStored_iff_single (ha : encodeCanonicalKeySpecs json [column] [v] = .ok (x, m))
    {w : Value} (hb : encodeCanonicalKeySpecs json [column] [w] = .ok (y, n)) :
    x = y ↔ SameStored column v w := by
  rw [encode_eq_iff ha hb]
  exact forall_mem_singleton

/-- **Two keys are equal exactly if the keys of their values are.** -/
theorem encode_eq_iff_single (ha : encodeCanonicalKeySpecs json columns as = .ok (x, m))
    (hb : encodeCanonicalKeySpecs json columns bs = .ok (y, n)) :
    x = y ↔ ∀ (i : ℕ) column v w k l, columns[i]? = some column → as[i]? = some v →
      bs[i]? = some w → encodeCanonicalKeySpecs json [column] [v] = .ok k →
      encodeCanonicalKeySpecs json [column] [w] = .ok l → k.1 = l.1 := by
  rw [encode_eq_iff ha hb]
  constructor
  · intro hall i column v w k l hcol hv hw hk hl
    have hat := getElem?_zip_some hcol (getElem?_zip_some hv hw)
    exact (sameStored_iff_single hk hl).mpr (hall _ (mem_of_getElem? hat))
  · intro hall r hr
    obtain ⟨i, hi⟩ := mem_iff_getElem?.mp hr
    obtain ⟨hcol, hpair⟩ := getElem?_zip_eq_some.mp hi
    obtain ⟨hv, hw⟩ := getElem?_zip_eq_some.mp hpair
    obtain ⟨k, hk⟩ := encode_single ha hcol hv
    obtain ⟨l, hl⟩ := encode_single hb hcol hw
    exact (sameStored_iff_single hk hl).mp (hall i _ _ _ k l hcol hv hw hk hl)

theorem encode_map {f : DataColumnSpec → Value → Value} {r : Bytes × Bool}
    (hf : ∀ column v start r, CanonicalKeyState.component json start column v = .ok r →
      CanonicalKeyState.component json start column (f column v) = .ok r)
    (h : encodeCanonicalKeySpecs json columns values = .ok r) :
    encodeCanonicalKeySpecs json columns (columns.zipWith f values) = .ok r := by
  have hall : ∀ (columns : List DataColumnSpec) (values : List Value) (s t : CanonicalKeyState),
      s.appendAll json (columns.zip values) = .ok t →
      s.appendAll json (columns.zip (columns.zipWith f values)) = .ok t := by
    intro columns
    induction columns with
    | nil => exact fun values s t h => h
    | cons column columns ih =>
      intro values s t h
      cases values with
      | nil => exact h
      | cons v values =>
        simp only [zip_cons_cons, zipWith_cons_cons, CanonicalKeyState.appendAll, bind,
          Except.bind] at h ⊢
        obtain ⟨next, ha, h⟩ := ok_of_bind h
        obtain ⟨added, isNull, hc, hlimit, rfl⟩ := append_cases ha
        have hsame : s.append json column (f column v) = .ok ⟨s.bytes ++ added,
            s.hasNullComponent || isNull, s.encodedComponents + 1⟩ := by
          simp only [CanonicalKeyState.append, hf _ _ _ _ hc, ok_bind, if_neg (not_lt.mpr hlimit)]
        rw [hsame]
        exact ih values _ _ h
  obtain ⟨hlen, t, hbytes, hnull, ht⟩ := appendAll_of_encode h
  have hcount := encodedComponents_appendAll ht
  have hlen' : columns.length = (columns.zipWith f values).length := by
    rw [length_zipWith, ← hlen, Nat.min_self]
  have htotal : t.encodedComponents = columns.length := by
    rw [hcount, length_zip, ← hlen, Nat.min_self]
    exact Nat.zero_add _
  simp only [encodeCanonicalKeySpecs, if_neg (not_not.mpr hlen'), hall _ _ _ _ ht, bind,
    Except.bind, CanonicalKeyState.finish, htotal, ne_eq, not_true_eq_false, if_false, hbytes,
    hnull]

end

end RadixDb
