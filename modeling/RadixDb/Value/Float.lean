import RadixDb.Lib.Digits
import RadixDb.Lib.Grid
import RadixDb.Lib.I64

/-!
# Binary floating-point numbers

An `f64` is a sign and 63 further bits. Read as a number, these bits are the index of the float
among the floats of its sign, counted from zero: **the grid of magnitudes is increasing in the
bits** (`units_succ`). All magnitudes are multiples of the smallest one, `2 ^ (-1074)`, so a
magnitude is a natural number of such units, and the value of a float is an exact rational.

Reading a decimal number gives the nearest float (`F64.round`), with ties to the even index and
overflow to an infinity, which has the index after the largest finite float.
-/

namespace RadixDb

open Nat

/-- A 64-bit float: its sign and the bits below the sign. -/
structure F64 where
  negative : Bool
  magnitude : Fin (2 ^ 63)
deriving DecidableEq

instance F64.neZero : NeZero (2 ^ 63) := ⟨by decide⟩

/-- What kind of number a float is. -/
inductive FloatClass where
  | nan
  | infinite (negative : Bool)
  | finite (q : ℚ)
deriving DecidableEq

namespace F64

/-- The bits of an infinity: the largest exponent, and no fraction. -/
def infinityBits : ℕ := 0x7ff * 2 ^ 52

/-- The `n`-th magnitude, in multiples of `2 ^ (-1074)`. Subnormal numbers have no leading one. -/
def units (n : ℕ) : ℕ := if n < 2 ^ 52 then n else (2 ^ 52 + n % 2 ^ 52) * 2 ^ (n / 2 ^ 52 - 1)

/-- How many units make one. -/
def one : ℚ := 2 ^ 1074

def toRat (f : F64) : ℚ :=
  let q := units f.magnitude / one
  if f.negative then -q else q

def classify (f : F64) : FloatClass :=
  if infinityBits < f.magnitude then .nan
  else if f.magnitude = infinityBits then .infinite f.negative
  else .finite f.toRat

def toBits (f : F64) : UInt64 :=
  UInt64.ofNat ((if f.negative then 2 ^ 63 else 0) + f.magnitude)

/-- `-f`, also of a NaN. -/
def neg (f : F64) : F64 := { f with negative := !f.negative }

/-- `f64::NAN`. -/
def nan : F64 := ⟨false, ⟨0x7ff8 * 2 ^ 48, by decide⟩⟩

/-- The index of the last magnitude that is not above `m` units. -/
def lastBelow (m : ℕ) : ℕ :=
  let k := m.log2 - 52
  k * 2 ^ 52 + m / 2 ^ k

/-! ## The grid of magnitudes -/

theorem units_succ (n : ℕ) : units (n + 1) = units n + 2 ^ (n / 2 ^ 52 - 1) := by
  unfold units
  by_cases h : n + 1 < 2 ^ 52
  · rw [if_pos h, if_pos (by omega), div_eq_of_lt (by omega)]
    rfl
  · rw [if_neg h]
    by_cases h' : n < 2 ^ 52
    · obtain rfl : n = 2 ^ 52 - 1 := by omega
      rfl
    · rw [if_neg h']
      by_cases hr : n % 2 ^ 52 + 1 = 2 ^ 52
      · -- the fraction is full: the next magnitude is the first one of the next exponent
        obtain ⟨k, hk⟩ : ∃ k, n / 2 ^ 52 = k + 1 := ⟨n / 2 ^ 52 - 1, by omega⟩
        rw [show (n + 1) % 2 ^ 52 = 0 by omega, show (n + 1) / 2 ^ 52 = k + 2 by omega, hk,
          show n % 2 ^ 52 = 2 ^ 52 - 1 by omega, Nat.add_sub_cancel,
          show k + 2 - 1 = k + 1 from rfl, pow_succ]
        ring
      · rw [show (n + 1) % 2 ^ 52 = n % 2 ^ 52 + 1 by omega,
          show (n + 1) / 2 ^ 52 = n / 2 ^ 52 by omega]
        ring

/-- A step is never much smaller than the magnitude it leads to: floats have 53 significant bits. -/
theorem units_le_step (n : ℕ) : units (n + 1) ≤ 2 ^ 53 * 2 ^ (n / 2 ^ 52 - 1) := by
  rw [units_succ]
  unfold units
  split
  · next h =>
    rw [div_eq_of_lt h]
    omega
  · have hr : 2 ^ 52 + n % 2 ^ 52 + 1 ≤ 2 ^ 53 := by omega
    calc (2 ^ 52 + n % 2 ^ 52) * 2 ^ (n / 2 ^ 52 - 1) + 2 ^ (n / 2 ^ 52 - 1)
        = (2 ^ 52 + n % 2 ^ 52 + 1) * 2 ^ (n / 2 ^ 52 - 1) := by ring
      _ ≤ 2 ^ 53 * 2 ^ (n / 2 ^ 52 - 1) := mul_le_mul_right _ hr

theorem units_strictMono : StrictMono units := strictMono_nat_of_lt_succ fun n => by
  rw [units_succ]
  exact Nat.lt_add_of_pos_right (by positivity)

theorem units_mul_add {k r : ℕ} (hr : 2 ^ 52 ≤ r ∨ k = 0) (hr' : r ≤ 2 ^ 53) :
    units (k * 2 ^ 52 + r) = r * 2 ^ k := by
  unfold units
  by_cases h : k * 2 ^ 52 + r < 2 ^ 52
  · obtain rfl : k = 0 := by omega
    rw [if_pos h]
    ring
  · rw [if_neg h]
    by_cases hfull : r = 2 ^ 53
    · subst hfull
      rw [show (k * 2 ^ 52 + 2 ^ 53) % 2 ^ 52 = 0 by omega,
        show (k * 2 ^ 52 + 2 ^ 53) / 2 ^ 52 - 1 = k + 1 by omega, pow_succ]
      ring
    · rw [show (k * 2 ^ 52 + r) % 2 ^ 52 = r - 2 ^ 52 by omega,
        show (k * 2 ^ 52 + r) / 2 ^ 52 - 1 = k by omega, Nat.add_sub_cancel' (by omega)]

theorem lastBelow_spec (m : ℕ) : units (lastBelow m) ≤ m ∧ m < units (lastBelow m + 1) := by
  have hpos : 0 < 2 ^ (m.log2 - 52) := by positivity
  have hsig : (2 ^ 52 ≤ m / 2 ^ (m.log2 - 52) ∨ m.log2 - 52 = 0) ∧
      m / 2 ^ (m.log2 - 52) < 2 ^ 53 := by
    rcases Nat.eq_zero_or_pos m with rfl | hm
    · exact ⟨.inr rfl, by simp⟩
    have hlt : m < 2 ^ (m.log2 + 1) := lt_log2_self
    rcases lt_or_ge m.log2 53 with h | h
    · refine ⟨?_, ?_⟩
      · exact .inr (by omega)
      · rw [show m.log2 - 52 = 0 by omega, pow_zero, Nat.div_one]
        exact hlt.trans_le (Nat.pow_le_pow_right (by decide) (by omega))
    · have hle : 2 ^ m.log2 ≤ m := log2_self_le hm.ne'
      refine ⟨.inl ?_, ?_⟩
      · rwa [le_div_iff_mul_le hpos, ← pow_add, Nat.add_sub_cancel' (by omega)]
      · rwa [div_lt_iff_lt_mul hpos, ← pow_add, show 53 + (m.log2 - 52) = m.log2 + 1 by omega]
  have hdiv := div_add_mod m (2 ^ (m.log2 - 52))
  unfold lastBelow
  refine ⟨?_, ?_⟩
  · rw [units_mul_add hsig.1 hsig.2.le]
    exact div_mul_le_self m _
  · rw [add_assoc, units_mul_add (hsig.1.imp_left (by omega)) (by omega), add_mul, one_mul,
      mul_comm]
    omega

/-- The magnitudes, as a grid. -/
def grid : Grid ℚ where
  point n := units n
  strictMono _ _ h := cast_lt.mpr (units_strictMono h)
  zero := rfl
  below x := lastBelow ⌊x⌋₊
  point_below hx := (le_floor_iff hx).mp (lastBelow_spec _).1
  lt_point_below hx := (floor_lt hx).mp (lastBelow_spec _).2

/-- The float nearest to a magnitude `q`. -/
def round (negative : Bool) (q : ℚ) : F64 :=
  ⟨negative, ⟨min (grid.nearest (q * one)) infinityBits,
    (min_le_right _ _).trans_lt (by decide)⟩⟩

def IsFinite (f : F64) : Prop := f.magnitude < infinityBits

instance (f : F64) : Decidable f.IsFinite := inferInstanceAs (Decidable (_ < _))

theorem classify_eq_finite {f : F64} (h : f.IsFinite) : f.classify = .finite f.toRat := by
  rw [classify, if_neg (not_lt.mpr (le_of_lt h)), if_neg (Nat.ne_of_lt h)]

theorem isFinite_of_classify {f : F64} {q : ℚ} (h : f.classify = .finite q) :
    f.IsFinite ∧ f.toRat = q := by
  unfold classify at h
  split_ifs at h with h1 h2
  cases h
  exact ⟨lt_of_le_of_ne (not_lt.mp h1) h2, rfl⟩

theorem round_eq_iff {f : F64} (h : f.IsFinite) {q : ℚ} :
    round f.negative q = f ↔ grid.nearest (q * one) = f.magnitude := by
  have hval : (round f.negative q = f) ↔
      min (grid.nearest (q * one)) infinityBits = f.magnitude := by
    rw [round, mk.injEq, Fin.ext_iff]
    simp
  rw [hval]
  unfold IsFinite at h
  omega

/-- `str::parse::<f64>`, on numbers in fixed-point form. -/
def parse (l : List Char) : Option F64 :=
  (Digits.parseFixed l).map fun p => round p.1 (p.2.1 / 10 ^ p.2.2)

end F64

/-! ## Comparing -/

/-- Where a number stands: the infinities are below and above the rationals, NaN is above all. -/
abbrev NumberKey := ℤ ×ₗ ℚ

theorem NumberKey.lt_of_rank {m n : ℤ} {p q : ℚ} (h : m < n) :
    (toLex (m, p) : NumberKey) < toLex (n, q) := Prod.Lex.left _ _ h

namespace FloatClass

def key : FloatClass → NumberKey
  | .infinite true => toLex (-1, 0)
  | .finite q => toLex (0, q)
  | .infinite false => toLex (1, 0)
  | .nan => toLex (2, 0)

def isNan : FloatClass → Bool
  | .nan => true
  | _ => false

def isFinite : FloatClass → Bool
  | .finite _ => true
  | _ => false

/-- `f64::partial_cmp`. -/
def partialCmp : FloatClass → FloatClass → Option Ordering
  | .nan, _ => none
  | _, .nan => none
  | .infinite a, .infinite b => some (cmp b a)
  | .infinite a, .finite _ => some (if a then .lt else .gt)
  | .finite _, .infinite b => some (if b then .gt else .lt)
  | .finite p, .finite q => some (cmp p q)

/-- `float >= bound`. -/
def ge (bound : ℚ) : FloatClass → Bool
  | .nan => false
  | .infinite negative => !negative
  | .finite q => bound ≤ q

/-- `float < bound`. -/
def lt (bound : ℚ) : FloatClass → Bool
  | .nan => false
  | .infinite negative => negative
  | .finite q => q < bound

/-- The integer part, towards zero. -/
def truncate (q : ℚ) : ℤ := if 0 ≤ q then ⌊q⌋ else -⌊-q⌋

/-- `float as i64`, which saturates. -/
def asI64 : FloatClass → ℤ
  | .nan => 0
  | .infinite negative => if negative then I64.minValue else I64.maxValue
  | .finite q => max I64.minValue (min I64.maxValue (truncate q))

/-- `f64::fract` of a finite float. -/
def fract : FloatClass → ℚ
  | .finite q => q - truncate q
  | _ => 0

end FloatClass

def compareFloats (a b : F64) : Ordering :=
  match a.classify.isNan, b.classify.isNan with
  | true, true => .eq
  | true, false => .gt
  | false, true => .lt
  | false, false => (a.classify.partialCmp b.classify).getD .eq

def compareIntegerFloat (integer : ℤ) (float : F64) : Ordering :=
  let c := float.classify
  if c.isNan then .lt
  else if c.ge (2 ^ 63) then .lt
  else if c.lt (-2 ^ 63) then .gt
  else
    match cmp integer c.asI64 with
    | .eq => if c.fract = 0 then .eq else if c.fract < 0 then .gt else .lt
    | ordering => ordering

theorem FloatClass.key_injective : Function.Injective key := by
  intro c d h
  have hrank := congrArg (fun k : NumberKey => (ofLex k).1) h
  have hvalue := congrArg (fun k : NumberKey => (ofLex k).2) h
  rcases c with _ | (_ | _) | p <;> rcases d with _ | (_ | _) | q <;>
    simp [key] at hrank hvalue ⊢
  exact hvalue

theorem compares_right {α β : Type} [Preorder α] [Preorder β] (a : α) {o : Ordering} {x y : β} :
    o.Compares (toLex (a, x)) (toLex (a, y)) ↔ o.Compares x y := by
  cases o <;> simp [Ordering.Compares, Prod.Lex.toLex_lt_toLex]

theorem compareFloats_compares (a b : F64) :
    (compareFloats a b).Compares a.classify.key b.classify.key := by
  unfold compareFloats
  generalize a.classify = x
  generalize b.classify = y
  cases x with
  | nan =>
    cases y with
    | nan => exact rfl
    | infinite b => cases b <;> exact NumberKey.lt_of_rank (by decide)
    | finite q => exact NumberKey.lt_of_rank (by decide)
  | infinite a =>
    cases y with
    | nan => cases a <;> exact NumberKey.lt_of_rank (by decide)
    | infinite b =>
      cases a <;> cases b
      exacts [rfl, NumberKey.lt_of_rank (by decide), NumberKey.lt_of_rank (by decide), rfl]
    | finite q =>
      cases a <;> exact NumberKey.lt_of_rank (by decide)
  | finite p =>
    cases y with
    | nan => exact NumberKey.lt_of_rank (by decide)
    | infinite b => cases b <;> exact NumberKey.lt_of_rank (by decide)
    | finite q => exact (compares_right _).mpr (cmp_compares p q)

theorem FloatClass.truncate_bounds (q : ℚ) :
    (0 ≤ q → (truncate q : ℚ) ≤ q ∧ q < truncate q + 1) ∧
      (q < 0 → q ≤ truncate q ∧ (truncate q : ℚ) - 1 < q) := by
  unfold truncate
  refine ⟨fun h => ?_, fun h => ?_⟩
  · rw [if_pos h]
    exact ⟨Int.floor_le q, Int.lt_floor_add_one q⟩
  · rw [if_neg (not_le.mpr h)]
    have h1 := Int.floor_le (-q)
    have h2 := Int.lt_floor_add_one (-q)
    push_cast
    exact ⟨by linarith, by linarith⟩

theorem FloatClass.asI64_finite {q : ℚ} (hlo : -2 ^ 63 ≤ q) (hhi : q < 2 ^ 63) :
    (finite q).asI64 = truncate q := by
  obtain ⟨hpos, hneg⟩ := truncate_bounds q
  have hle : truncate q ≤ I64.maxValue := by
    rw [I64.maxValue, ← Int.lt_add_one_iff, sub_add_cancel, ← Int.cast_lt (R := ℚ)]
    push_cast
    rcases lt_or_ge q 0 with h | h
    · have := (hneg h).2
      linarith
    · exact (hpos h).1.trans_lt hhi
  have hge : I64.minValue ≤ truncate q := by
    rw [I64.minValue, ← Int.sub_one_lt_iff, ← Int.cast_lt (R := ℚ)]
    push_cast
    rcases lt_or_ge q 0 with h | h
    · have := (hneg h).1
      linarith
    · have := (hpos h).2
      linarith
  rw [asI64, min_eq_right hle, max_eq_right hge]

/-- **An integer and a float are compared exactly.** -/
theorem compareIntegerFloat_compares {i : ℤ} (hlo : I64.minValue ≤ i) (hhi : i ≤ I64.maxValue)
    (f : F64) : (compareIntegerFloat i f).Compares (toLex (0, (i : ℚ))) f.classify.key := by
  unfold compareIntegerFloat
  generalize f.classify = c
  cases c with
  | nan => exact NumberKey.lt_of_rank (by decide)
  | infinite negative =>
    cases negative <;> exact NumberKey.lt_of_rank (by decide)
  | finite q =>
    have hi : (i : ℚ) ≤ 2 ^ 63 - 1 := by exact_mod_cast hhi
    have hi' : -2 ^ 63 ≤ (i : ℚ) := by exact_mod_cast hlo
    refine (compares_right _).mpr ?_
    simp only [FloatClass.isNan, Bool.false_eq_true, if_false, FloatClass.ge, FloatClass.lt,
      decide_eq_true_eq]
    split
    · next h => exact (show (i : ℚ) < q by linarith)
    · next h =>
      split
      · next h' => exact (show q < i by linarith)
      · next h' =>
        rw [FloatClass.asI64_finite (not_lt.mp h') (not_le.mp h)]
        obtain ⟨hpos, hneg⟩ := FloatClass.truncate_bounds q
        have hc := cmp_compares i (FloatClass.truncate q)
        revert hc
        cases cmp i (FloatClass.truncate q) with
        | lt =>
          intro hc
          have hc : (i : ℚ) + 1 ≤ FloatClass.truncate q := by exact_mod_cast hc
          rcases lt_or_ge q 0 with hq | hq
          · exact (show (i : ℚ) < q by linarith [(hneg hq).2])
          · exact (show (i : ℚ) < q by linarith [(hpos hq).1])
        | gt =>
          intro hc
          have hc : (FloatClass.truncate q : ℚ) + 1 ≤ i := by exact_mod_cast hc
          rcases lt_or_ge q 0 with hq | hq
          · exact (show q < i by linarith [(hneg hq).1])
          · exact (show q < i by linarith [(hpos hq).2])
        | eq =>
          intro hc
          have hc : (i : ℚ) = FloatClass.truncate q := by exact_mod_cast hc
          have hfract : (FloatClass.finite q).fract = q - FloatClass.truncate q := rfl
          rcases lt_trichotomy (FloatClass.finite q).fract 0 with hf | hf | hf
          · rw [if_neg hf.ne, if_pos hf]
            exact (show q < i by linarith)
          · rw [if_pos hf]
            exact (show (i : ℚ) = q by linarith)
          · rw [if_neg hf.ne', if_neg hf.not_gt]
            exact (show (i : ℚ) < q by linarith)

end RadixDb
