import RadixDb.Value.Value

/-!
# The numbers among values

Integers, floats and decimals are compared by value, whatever their types. `Value.number` is the
number that a value is, if it is one, and `compareCanonicalNumeric` compares just these
(`compareCanonicalNumeric_eq`).

Each pair of types has its own comparison. **They all follow one key** (`Number.compare_compares`)
**on floats that are printed exactly or are no 64-bit integers** (`PrintedExactly`): an integer and
a decimal stand where their value is, and a float stands where the number printed for it is.
-/

namespace RadixDb

open F64

/-- A float that is a 64-bit integer is printed as that integer. -/
def PrintedExactly (std : LowerExp) (f : F64) : Prop :=
  ∀ i, InI64 i → f.classify = .finite i → (std.scientific f).value = i

/-- A number, with the type it comes in. A decimal is its unscaled value and its scale. -/
inductive Number where
  | integer (i : ℤ)
  | float (f : F64)
  | decimal (unscaled : ℤ) (scale : ℕ)

def Value.number (v : Value) : Option Number :=
  match v with
  | .integer i => some (.integer i.1)
  | .float f => some (.float f)
  | .extension _ => v.asDecimalParts.map fun p => .decimal p.1 p.2.2
  | _ => none

namespace Number

/-- The numbers that values can be. -/
def Bounded : Number → Prop
  | .integer i => InI64 i
  | .float _ => True
  | .decimal unscaled scale => unscaled.natAbs < 10 ^ 38 ∧ scale ≤ 38

/-- The comparison of each pair of types. -/
def compare (std : LowerExp) : Number → Number → Ordering
  | .integer a, .integer b => cmp a b
  | .float a, .float b => compareFloats a b
  | .integer a, .float b => compareIntegerFloat a b
  | .float a, .integer b => (compareIntegerFloat b a).swap
  | .decimal u s, .decimal v t =>
    (DecimalIdentity.fromParts u s).cmpNumeric (DecimalIdentity.fromParts v t)
  | .decimal u s, .integer b =>
    (DecimalIdentity.fromParts u s).cmpNumeric (DecimalIdentity.fromParts b 0)
  | .integer a, .decimal v t =>
    (DecimalIdentity.fromParts a 0).cmpNumeric (DecimalIdentity.fromParts v t)
  | .decimal u s, .float b => compareDecimalFloat std (DecimalIdentity.fromParts u s) b
  | .float a, .decimal v t =>
    (compareDecimalFloat std (DecimalIdentity.fromParts v t) a).swap

/-- Where a float stands among numbers. -/
def floatKey (std : LowerExp) (f : F64) : NumberKey :=
  match f.classify with
  | .finite _ => toLex (0, (std.scientific f).value)
  | c => c.key

def key (std : LowerExp) : Number → NumberKey
  | .integer i => toLex (0, (i : ℚ))
  | .float f => floatKey std f
  | .decimal unscaled scale => toLex (0, (unscaled / 10 ^ scale : ℚ))

def word (std : LowerExp) : Number → UInt64
  | .integer i => integerHashWord i
  | .float f => floatHashWord f
  | .decimal unscaled scale => decimalHashWord std unscaled scale

end Number

theorem validateDecimalShape_ok {unscaled : ℤ} {precision scale : ℕ}
    (h : validateDecimalShape unscaled precision scale = .ok ()) :
    precision ≤ 38 ∧ scale ≤ precision ∧ unscaled.natAbs < 10 ^ precision := by
  unfold validateDecimalShape at h
  dsimp only at h
  split_ifs at h with h1 h2 h3
  have hp : precision ≤ 38 := h1.2
  refine ⟨hp, by omega, ?_⟩
  exact (Nat.length_toDigits_le_iff (by decide) (by omega)).mp (not_lt.mp h3)

theorem Value.asDecimalParts_bounds {v : Value} {p : ℤ × ℕ × ℕ} (h : v.asDecimalParts = some p) :
    p.1.natAbs < 10 ^ 38 ∧ p.2.2 ≤ 38 := by
  unfold asDecimalParts at h
  split at h
  · split at h
    · dsimp only at h
      split at h
      · next hok =>
        cases h
        obtain ⟨h2, h3, h4⟩ := validateDecimalShape_ok hok
        exact ⟨h4.trans_le (Nat.pow_le_pow_right (by decide) h2), h3.trans h2⟩
      · cases h
    · cases h
  · cases h

theorem Value.number_bounded {v : Value} {n : Number} (h : v.number = some n) : n.Bounded := by
  cases v with
  | integer i => cases h; exact i.2
  | float f => cases h; trivial
  | extension data =>
    obtain ⟨p, hp, rfl⟩ := Option.map_eq_some_iff.mp h
    exact asDecimalParts_bounds hp
  | _ => cases h

/-- Values are compared as numbers if both are numbers. -/
theorem compareCanonicalNumeric_eq (std : LowerExp) (a b : Value) :
    compareCanonicalNumeric std a b =
      a.number.bind fun x => b.number.map fun y => x.compare std y := by
  have hnone : ∀ {v : Value}, (∀ data, v ≠ .extension data) → v.asDecimalParts = none :=
    fun {v} hv => by
      cases v with
      | extension data => exact absurd rfl (hv data)
      | _ => rfl
  cases a with
  | extension left =>
    cases hl : (Value.extension left).asDecimalParts with
    | none =>
      cases b with
      | extension right => simp [compareCanonicalNumeric, Value.number, hl]
      | _ => simp [compareCanonicalNumeric, Value.number, hl, hnone]
    | some p =>
      cases b with
      | extension right =>
        cases hr : (Value.extension right).asDecimalParts with
        | none => simp [compareCanonicalNumeric, Value.number, hl, hr]
        | some q => simp [compareCanonicalNumeric, Value.number, hl, hr, Number.compare]
      | _ => simp [compareCanonicalNumeric, Value.number, hl, hnone, Number.compare]
  | _ =>
    cases b with
    | extension right =>
      cases hr : (Value.extension right).asDecimalParts with
      | none => simp [compareCanonicalNumeric, Value.number, hr, hnone]
      | some q => simp [compareCanonicalNumeric, Value.number, hr, hnone, Number.compare]
    | _ => simp [compareCanonicalNumeric, Value.number, hnone, Number.compare]

namespace Number

variable {std : LowerExp}

theorem small_fromParts {unscaled : ℤ} {scale : ℕ} (h : unscaled.natAbs < 10 ^ 38 ∧ scale ≤ 38) :
    (DecimalIdentity.fromParts unscaled scale).Small :=
  DecimalIdentity.small_new (h.1.trans (by decide)) (by omega) (by omega)

variable {i u : ℤ} {s : ℕ} {a b : Number}

theorem small_fromParts_int (h : InI64 i) : (DecimalIdentity.fromParts i 0).Small := by
  have h1 : -2 ^ 63 ≤ i := h.1
  have h2 : i ≤ 2 ^ 63 - 1 := h.2
  exact small_fromParts ⟨by omega, by decide⟩

/-- Decimals, and integers taken as decimals. -/
theorem cmpNumeric_key {v : ℤ} {t : ℕ} (hu : (DecimalIdentity.fromParts u s).Small)
    (hv : (DecimalIdentity.fromParts v t).Small) :
    ((DecimalIdentity.fromParts u s).cmpNumeric (DecimalIdentity.fromParts v t)).Compares
      (toLex (0, (u / 10 ^ s : ℚ)) : NumberKey) (toLex (0, (v / 10 ^ t : ℚ))) := by
  have h := DecimalIdentity.cmpNumeric_compares hu hv
  rw [DecimalIdentity.value_fromParts, DecimalIdentity.value_fromParts] at h
  exact (compares_right _).mpr h

variable {f : F64}

theorem floatKey_finite (hf : f.IsFinite) :
    floatKey std f = toLex (0, (std.scientific f).value) := by
  rw [floatKey, classify_eq_finite hf]

theorem floatKey_of_ne (hf : ¬ f.IsFinite) : floatKey std f = f.classify.key := by
  unfold floatKey
  cases hc : f.classify with
  | finite q => exact absurd (isFinite_of_classify hc).1 hf
  | _ => rfl

/-- A decimal and a float: as the number printed for it. -/
theorem compareDecimalFloat_compares (std : LowerExp) (hu : (DecimalIdentity.fromParts u s).Small)
    (f : F64) :
    (compareDecimalFloat std (DecimalIdentity.fromParts u s) f).Compares
      (toLex (0, (u / 10 ^ s : ℚ))) (floatKey std f) := by
  unfold compareDecimalFloat
  by_cases hf : f.IsFinite
  · rw [floatKey_finite hf, classify_eq_finite hf, LowerExp.fromFloat_eq hf]
    have h := DecimalIdentity.cmpNumeric_compares hu (LowerExp.small_identity std hf)
    rw [LowerExp.value_identity, DecimalIdentity.value_fromParts] at h
    exact (compares_right _).mpr h
  · rw [floatKey_of_ne hf]
    cases hc : f.classify with
    | finite q => exact absurd (isFinite_of_classify hc).1 hf
    | nan => exact NumberKey.lt_of_rank (by decide)
    | infinite negative => cases negative <;> exact NumberKey.lt_of_rank (by decide)

theorem compares_of_not_finite (hf : ¬ f.IsFinite) {o : Ordering} {p : ℚ} (q : ℚ)
    (h : o.Compares (toLex (0, p) : NumberKey) f.classify.key) :
    o.Compares (toLex (0, q) : NumberKey) f.classify.key := by
  cases hc : f.classify with
  | finite r => exact absurd (isFinite_of_classify hc).1 hf
  | nan =>
    rw [hc] at h
    rw [h.eq_lt.mpr (NumberKey.lt_of_rank (by decide))]
    exact NumberKey.lt_of_rank (by decide)
  | infinite negative =>
    rw [hc] at h
    cases negative with
    | true =>
      rw [h.eq_gt.mpr (NumberKey.lt_of_rank (by decide))]
      exact NumberKey.lt_of_rank (by decide)
    | false =>
      rw [h.eq_lt.mpr (NumberKey.lt_of_rank (by decide))]
      exact NumberKey.lt_of_rank (by decide)

/-- Two floats, as what is printed for them. -/
theorem compareFloats_key (std : LowerExp) (f g : F64) :
    (compareFloats f g).Compares (floatKey std f) (floatKey std g) := by
  have h := compareFloats_compares f g
  by_cases hf : f.IsFinite
  · rw [floatKey_finite hf]
    rw [classify_eq_finite hf] at h
    by_cases hg : g.IsFinite
    · rw [floatKey_finite hg]
      rw [classify_eq_finite hg] at h
      replace h := (compares_right _).mp h
      refine (compares_right _).mpr ?_
      revert h
      cases compareFloats f g with
      | lt => exact fun h => LowerExp.value_lt_value _ hf hg h
      | gt => exact fun h => LowerExp.value_lt_value _ hg hf h
      | eq => exact fun h => LowerExp.value_eq_value _ h
    · rw [floatKey_of_ne hg]
      exact compares_of_not_finite hg _ h
  · rw [floatKey_of_ne hf]
    by_cases hg : g.IsFinite
    · rw [floatKey_finite hg]
      rw [classify_eq_finite hg] at h
      exact Ordering.compares_swap.mp (compares_of_not_finite hf _ (Ordering.compares_swap.mpr h))
    · rwa [floatKey_of_ne hg]

/-- An integer and a float: as the number printed for it, if it is printed exactly. -/
theorem compareIntegerFloat_key (hi : InI64 i) (hf : PrintedExactly std f) :
    (compareIntegerFloat i f).Compares (toLex (0, (i : ℚ))) (floatKey std f) := by
  have h := compareIntegerFloat_compares hi.1 hi.2 f
  by_cases hfin : f.IsFinite
  · rw [floatKey_finite hfin]
    rw [classify_eq_finite hfin] at h
    refine (compares_right _).mpr (LowerExp.compares_value hfin (fun j hj heq => hf j hj ?_) hi
      ((compares_right _).mp h))
    rw [classify_eq_finite hfin, heq]
  · rwa [floatKey_of_ne hfin]

/-- The floats among some numbers are printed exactly. -/
def Exact (std : LowerExp) : Number → Prop
  | .float f => PrintedExactly std f
  | _ => True

/-- **All comparisons of numbers follow one key**, except that of an integer and a float that is not
printed exactly. -/
theorem compare_compares (ha : a.Bounded) (hb : b.Bounded)
    (hx : ∀ i f, a = .integer i ∧ b = .float f ∨ a = .float f ∧ b = .integer i →
      PrintedExactly std f) : (a.compare std b).Compares (a.key std) (b.key std) := by
  cases a with
  | integer i =>
    cases b with
    | integer j =>
      exact (compares_right _).mpr (Int.cast_strictMono.compares.mpr (cmp_compares i j))
    | float g => exact compareIntegerFloat_key ha (hx i g (Or.inl ⟨rfl, rfl⟩))
    | decimal v t =>
      have h := cmpNumeric_key (small_fromParts_int ha) (small_fromParts hb)
      rwa [pow_zero, div_one] at h
  | float f =>
    cases b with
    | integer j =>
      exact Ordering.compares_swap.mpr (compareIntegerFloat_key hb (hx j f (Or.inr ⟨rfl, rfl⟩)))
    | float g => exact compareFloats_key std f g
    | decimal v t =>
      exact Ordering.compares_swap.mpr (compareDecimalFloat_compares std (small_fromParts hb) f)
  | decimal u s =>
    cases b with
    | integer j =>
      have h := cmpNumeric_key (small_fromParts ha) (small_fromParts_int hb)
      rwa [pow_zero, div_one] at h
    | float g => exact compareDecimalFloat_compares std (small_fromParts ha) g
    | decimal v t => exact cmpNumeric_key (small_fromParts ha) (small_fromParts hb)

/-- The place of a number where floats stand at their own value. -/
def exactKey : Number → NumberKey
  | .integer i => toLex (0, (i : ℚ))
  | .float f => f.classify.key
  | .decimal unscaled scale => toLex (0, (unscaled / 10 ^ scale : ℚ))

/-- Without a decimal and a float, the comparisons also follow the values themselves. -/
theorem compare_compares_exact (ha : a.Bounded) (hb : b.Bounded)
    (hx : ∀ u s f, ¬ (a = .decimal u s ∧ b = .float f) ∧ ¬ (a = .float f ∧ b = .decimal u s)) :
    (a.compare std b).Compares a.exactKey b.exactKey := by
  cases a with
  | integer i =>
    cases b with
    | float g => exact compareIntegerFloat_compares ha.1 ha.2 g
    | _ => exact compare_compares ha hb fun i f h => by simp at h
  | float f =>
    cases b with
    | integer j => exact Ordering.compares_swap.mpr (compareIntegerFloat_compares hb.1 hb.2 f)
    | float g => exact compareFloats_compares f g
    | decimal v t => exact absurd ⟨rfl, rfl⟩ (hx v t f).2
  | decimal u s =>
    cases b with
    | float g => exact absurd ⟨rfl, rfl⟩ (hx u s g).1
    | _ => exact compare_compares ha hb fun i f h => by simp at h

/-! ## Words -/

/-- Floats of one class are one float, or the two zeros, or two NaNs. -/
theorem eq_of_classify_eq {f g : F64} (h : f.classify = g.classify)
    (hnan : f.classify ≠ .nan) (hzero : f.classify ≠ .finite 0) : f = g := by
  cases hf : f.classify with
  | nan => exact absurd hf hnan
  | infinite negative =>
    have hbits : ∀ {a : F64}, a.classify = .infinite negative →
        a.negative = negative ∧ (a.magnitude : ℕ) = infinityBits := fun {a} ha => by
      unfold classify at ha
      split_ifs at ha with h1 h2
      cases ha
      exact ⟨rfl, h2⟩
    obtain ⟨h1, h2⟩ := hbits hf
    obtain ⟨h3, h4⟩ := hbits (h ▸ hf)
    rw [F64.mk.injEq]
    exact ⟨h1.trans h3.symm, Fin.ext (h2.trans h4.symm)⟩
  | finite q =>
    obtain ⟨-, hfq⟩ := isFinite_of_classify hf
    obtain ⟨-, hgq⟩ := isFinite_of_classify (h ▸ hf)
    rcases LowerExp.eq_of_toRat_eq (hfq.trans hgq.symm) with rfl | ⟨hmagnitude, -⟩
    · rfl
    · have hq : q = 0 := by
        rw [← hfq, toRat, hmagnitude]
        simp [units]
      rw [hf, hq] at hzero
      exact absurd rfl hzero

theorem floatHashWord_congr {g : F64} (h : floatKey std f = floatKey std g) :
    floatHashWord f = floatHashWord g := by
  have heq : f.classify.key = g.classify.key := by
    have h1 := compareFloats_key std f g
    exact (compareFloats_compares f g).eq_eq.mp (h1.eq_eq.mpr h)
  have hclass : f.classify = g.classify := FloatClass.key_injective heq
  by_cases hnan : f.classify = .nan
  · simp [floatHashWord, ← hclass, hnan, FloatClass.isNan]
  by_cases hzero : f.classify = .finite 0
  · -- both zeros are the integer zero
    rw [floatHashWord_of_int (i := 0) (by decide) (by simpa using hzero),
      floatHashWord_of_int (i := 0) (by decide) (by simpa [← hclass] using hzero)]
  · rw [eq_of_classify_eq hclass hnan hzero]

theorem classify_of_key (hi : InI64 i) (hf : PrintedExactly std f)
    (h : toLex (0, (i : ℚ)) = floatKey std f) : f.classify = .finite i := by
  have heq := (compareIntegerFloat_key hi hf).eq_eq.mpr h
  have hkey := (compareIntegerFloat_compares hi.1 hi.2 f).eq_eq.mp heq
  exact (@FloatClass.key_injective (.finite i) _ hkey).symm

theorem decimalHashWord_of_int (hi : InI64 i) (h : (i : ℚ) = u / 10 ^ s) :
    decimalHashWord std u s = integerHashWord i := by
  have hexact : (DecimalIdentity.fromParts u s).exactI64 = some i :=
    DecimalIdentity.exactI64_eq_some_iff.mpr ⟨hi, by rw [DecimalIdentity.value_fromParts, h]⟩
  unfold decimalHashWord
  dsimp only
  rw [hexact]

theorem decimalHashWord_of_float (hf : PrintedExactly std f)
    (h : toLex (0, (u / 10 ^ s : ℚ)) = floatKey std f) :
    decimalHashWord std u s = floatHashWord f := by
  have hfin : f.IsFinite := by
    by_contra hfin
    rw [floatKey_of_ne hfin] at h
    have hclass := @FloatClass.key_injective (.finite (u / 10 ^ s)) _ h
    exact hfin (isFinite_of_classify hclass.symm).1
  rw [floatKey_finite hfin] at h
  refine decimalHashWord_eq hfin (fun j hj heq => hf j hj ?_) ?_
  · rw [classify_eq_finite hfin, heq]
  · rw [DecimalIdentity.value_fromParts]
    exact congrArg (fun k : NumberKey => (ofLex k).2) h

/-- **Numbers with one key have one word.** -/
theorem word_congr (ha : a.Bounded) (hb : b.Bounded) (hax : a.Exact std)
    (hbx : b.Exact std) (h : a.key std = b.key std) : a.word std = b.word std := by
  have hsnd : ∀ {p q : ℚ}, (toLex (0, p) : NumberKey) = toLex (0, q) → p = q :=
    fun h => congrArg (fun k : NumberKey => (ofLex k).2) h
  cases a with
  | integer i =>
    cases b with
    | integer j => exact congrArg integerHashWord (Int.cast_inj.mp (hsnd h))
    | float g => exact (floatHashWord_of_int ha (classify_of_key ha hbx h)).symm
    | decimal v t => exact (decimalHashWord_of_int ha (hsnd h)).symm
  | float f =>
    cases b with
    | integer j => exact floatHashWord_of_int hb (classify_of_key hb hax h.symm)
    | float g => exact floatHashWord_congr h
    | decimal v t => exact (decimalHashWord_of_float hax h.symm).symm
  | decimal u s =>
    cases b with
    | integer j => exact decimalHashWord_of_int hb (hsnd h).symm
    | float g => exact decimalHashWord_of_float hbx h
    | decimal v t =>
      refine decimalHashWord_congr ?_
      rw [DecimalIdentity.value_fromParts, DecimalIdentity.value_fromParts]
      exact hsnd h

end Number

end RadixDb
