import RadixDb.Value.Float

/-!
# Floats in decimal

`{:e}` prints a finite float as the shortest decimal number that is read back as the float. That is
what is assumed of the standard library (`LowerExp`); which of several equally short numbers it
takes is left open. That such a printer exists is `LowerExp.reference`, which looks for the fewest
digits that will do.

What is printed is not the value of the float. **It is read back as the float, and reading is
monotone: so printing is strictly monotone** (`LowerExp.value_lt_value`), but an integer may lie
between a float and what is printed for it.
-/

namespace RadixDb

open F64

theorem one_pos : (0 : ℚ) < one := by
  unfold one
  positivity

theorem nearest_mul_mono {x y : ℚ} (hx : 0 ≤ x) (hxy : x ≤ y) :
    grid.nearest (x * one) ≤ grid.nearest (y * one) :=
  Grid.nearest_mono (mul_nonneg hx one_pos.le) (mul_le_mul_of_nonneg_right hxy one_pos.le)

theorem ten_zpow_pos (e : ℤ) : (0 : ℚ) < 10 ^ e := zpow_pos (by norm_num) e

/-- A number lies below the power of ten of its order, and not below the one before. -/
theorem coefficient_bounds {c : ℕ} (h : c ≠ 0) (e : ℤ) :
    (10 : ℚ) ^ ((Nat.toDigits 10 c).length + e - 1) ≤ c * 10 ^ e ∧
      (c * 10 ^ e : ℚ) < 10 ^ ((Nat.toDigits 10 c).length + e) := by
  have hlen := @Nat.length_toDigits_pos 10 c
  have h1 : (10 : ℚ) ^ ((Nat.toDigits 10 c).length - 1) ≤ c := by
    exact_mod_cast Digits.pow_le_of_toDigits h
  have h2 : (c : ℚ) < 10 ^ (Nat.toDigits 10 c).length := by
    exact_mod_cast Digits.lt_pow_toDigits c
  generalize (Nat.toDigits 10 c).length = k at hlen h1 h2 ⊢
  refine ⟨?_, ?_⟩
  · rw [show (k : ℤ) + e - 1 = (k - 1 : ℕ) + e by omega, zpow_add₀ (by norm_num), zpow_natCast]
    exact mul_le_mul_of_nonneg_right h1 (ten_zpow_pos _).le
  · rw [zpow_add₀ (by norm_num), zpow_natCast]
    exact mul_lt_mul_of_pos_right h2 (ten_zpow_pos _)

/-- A decimal number: `coefficient * 10 ^ exponent`, with a sign. -/
structure Scientific where
  negative : Bool
  coefficient : ℕ
  exponent : ℤ

namespace Scientific

def abs (s : Scientific) : ℚ := s.coefficient * 10 ^ s.exponent

def value (s : Scientific) : ℚ := if s.negative then -s.abs else s.abs

/-- One digit, the others after a point, and the exponent of the first digit. -/
def text (s : Scientific) : List Char :=
  let digits := Nat.toDigits 10 s.coefficient
  (if s.negative then ['-'] else []) ++
    (digits.take 1 ++ if digits.drop 1 = [] then [] else '.' :: digits.drop 1) ++
    'e' :: Digits.intText (s.exponent + (digits.drop 1).length)

theorem abs_nonneg (s : Scientific) : 0 ≤ s.abs :=
  mul_nonneg (Nat.cast_nonneg _) (ten_zpow_pos _).le

end Scientific

/-- What `{:e}` prints for finite floats. -/
structure LowerExp where
  scientific : F64 → Scientific
  negative : ∀ f, (scientific f).negative = f.negative
  zero : ∀ f, f.magnitude = 0 → (scientific f).coefficient = 0 ∧ (scientific f).exponent = 0
  parses : ∀ f, f.IsFinite → round f.negative (scientific f).abs = f
  shortest : ∀ f, f.IsFinite → f.magnitude ≠ 0 → ∀ (c : ℕ) (e : ℤ),
    round f.negative (c * 10 ^ e) = f →
      (Nat.toDigits 10 (scientific f).coefficient).length ≤ (Nat.toDigits 10 c).length

/-! ## Decimals near a float -/

section

variable {m : ℕ}

theorem exists_decimal (hm : m ≠ 0) :
    ∃ (c : ℕ) (e : ℤ), c < 10 ^ 20 ∧ grid.nearest (c * 10 ^ e * one) = m := by
  obtain ⟨n, rfl⟩ : ∃ n, m = n + 1 := ⟨m - 1, by omega⟩
  have hunits : 0 < units (n + 1) :=
    (Nat.zero_le _).trans_lt (units_strictMono (Nat.lt_succ_self n))
  -- `q` is the magnitude, and `10 ^ p` its order
  set q : ℚ := units (n + 1) / one with hq
  have hqone : q * one = units (n + 1) := div_mul_cancel₀ _ one_pos.ne'
  have hqpos : 0 < q := div_pos (Nat.cast_pos.mpr hunits) one_pos
  obtain ⟨p, hlo, hhi⟩ := exists_mem_Ico_zpow hqpos (by norm_num : (1 : ℚ) < 10)
  refine ⟨⌊q / 10 ^ (p - 19)⌋₊, p - 19, ?_, ?_⟩
  · rw [Nat.floor_lt (div_nonneg hqpos.le (ten_zpow_pos _).le), div_lt_iff₀ (ten_zpow_pos _)]
    calc q < 10 ^ (p + 1) := hhi
      _ = ((10 ^ 20 : ℕ) : ℚ) * 10 ^ (p - 19) := by
        rw [show p + 1 = 20 + (p - 19) by ring, zpow_add₀ (by norm_num)]
        norm_num
  · -- the floor is less than one unit of the 20th digit away
    set x : ℚ := ⌊q / 10 ^ (p - 19)⌋₊ * 10 ^ (p - 19) with hx
    have hle : x ≤ q := by
      rw [hx, ← le_div_iff₀ (ten_zpow_pos _)]
      exact Nat.floor_le (div_nonneg hqpos.le (ten_zpow_pos _).le)
    have hclose : q - x < 10 ^ (p - 19) := by
      have hfloor := Nat.lt_floor_add_one (q / 10 ^ (p - 19))
      rw [div_lt_iff₀ (ten_zpow_pos _), add_mul, one_mul] at hfloor
      linarith
    have hulp : (10 : ℚ) ^ (p - 19) * 10 ^ 19 ≤ q := by
      rw [← zpow_natCast, ← zpow_add₀ (by norm_num)]
      simpa using hlo
    have hstep : (units (n + 1) : ℚ) ≤ 2 ^ 53 * (units (n + 1) - units n) := by
      have h := units_le_step n
      rw [units_succ] at h ⊢
      have h' : ((units n : ℚ) + 2 ^ (n / 2 ^ 52 - 1)) ≤ 2 ^ 53 * 2 ^ (n / 2 ^ 52 - 1) := by
        exact_mod_cast h
      push_cast
      linarith
    have hxone : x * one ≤ units (n + 1) := hqone ▸ mul_le_mul_of_nonneg_right hle one_pos.le
    have hx0 : 0 ≤ x * one :=
      mul_nonneg (mul_nonneg (Nat.cast_nonneg _) (ten_zpow_pos _).le) one_pos.le
    refine Grid.nearest_eq_of_below hx0 hxone ?_
    show (units (n + 1) : ℚ) - x * one < x * one - units n
    have hgap : ((units (n + 1) : ℚ) - x * one) * 10 ^ 19 < units (n + 1) := by
      nlinarith [one_pos]
    linarith

end

/-! ## What is printed -/

namespace LowerExp

variable {std : LowerExp} {f g : F64}

theorem nearest_abs (std : LowerExp) (hf : f.IsFinite) :
    grid.nearest ((std.scientific f).abs * one) = f.magnitude :=
  (round_eq_iff hf).mp (std.parses f hf)

theorem abs_one_nonneg (std : LowerExp) (f : F64) : 0 ≤ (std.scientific f).abs * one :=
  mul_nonneg (Scientific.abs_nonneg _) one_pos.le

/-- Reading is monotone, so printing is. -/
theorem abs_lt_abs (hf : f.IsFinite) (hg : g.IsFinite) (h : f.magnitude < g.magnitude) :
    (std.scientific f).abs < (std.scientific g).abs := by
  by_contra hle
  rw [not_lt] at hle
  have hmono := nearest_mul_mono (Scientific.abs_nonneg _) hle
  rw [nearest_abs std hf, nearest_abs std hg] at hmono
  exact absurd (Fin.lt_def.mp h) (Nat.not_lt.mpr hmono)

theorem abs_eq_zero (h : f.magnitude = 0) : (std.scientific f).abs = 0 := by
  rw [Scientific.abs, (std.zero f h).1, Nat.cast_zero, zero_mul]

variable (std : LowerExp)

theorem abs_pos (hf : f.IsFinite) (h : f.magnitude ≠ 0) : 0 < (std.scientific f).abs := by
  refine lt_of_le_of_ne (Scientific.abs_nonneg _) fun h0 => h ?_
  have hn := nearest_abs std hf
  rw [← h0, zero_mul] at hn
  have h00 : grid.nearest 0 = 0 := Grid.nearest_point (g := grid) 0
  rw [h00] at hn
  exact Fin.ext hn.symm

theorem value_eq (f : F64) : (std.scientific f).value =
    if f.negative then -(std.scientific f).abs else (std.scientific f).abs := by
  rw [Scientific.value, std.negative]

theorem units_div_lt {m n : ℕ} : (units m / one : ℚ) < units n / one ↔ m < n := by
  rw [div_lt_div_iff_of_pos_right one_pos, Nat.cast_lt, units_strictMono.lt_iff_lt]

theorem units_div_nonneg (m : ℕ) : (0 : ℚ) ≤ units m / one :=
  div_nonneg (Nat.cast_nonneg _) one_pos.le

/-- **Printing is strictly monotone.** -/
theorem value_lt_value (hf : f.IsFinite) (hg : g.IsFinite) (h : f.toRat < g.toRat) :
    (std.scientific f).value < (std.scientific g).value := by
  rw [value_eq, value_eq]
  unfold toRat at h
  have hf0 := units_div_nonneg f.magnitude
  have hg0 := units_div_nonneg g.magnitude
  have hfa := (std.scientific f).abs_nonneg
  have hga := (std.scientific g).abs_nonneg
  cases hfn : f.negative <;> cases hgn : g.negative <;>
    simp only [hfn, hgn, Bool.false_eq_true, if_false, if_true] at h ⊢
  · exact abs_lt_abs hf hg (units_div_lt.mp h)
  · linarith
  · -- one of the two is not zero
    by_cases hz : f.magnitude = 0
    · have hgz : g.magnitude ≠ 0 := fun hgz => by
        rw [hz, hgz] at h
        simp [units] at h
      linarith [abs_pos std hg hgz]
    · linarith [abs_pos std hf hz]
  · rw [neg_lt_neg_iff] at h ⊢
    exact abs_lt_abs hg hf (units_div_lt.mp h)

theorem magnitude_eq_zero {m : ℕ} (h : (units m / one : ℚ) = 0) : m = 0 := by
  rcases Nat.eq_zero_or_pos m with hm | hm
  · exact hm
  · have := units_div_lt.mpr hm
    rw [h] at this
    simp [units] at this

/-- No two floats have one value, but for the two zeros. -/
theorem eq_of_toRat_eq (h : f.toRat = g.toRat) : f = g ∨ f.magnitude = 0 ∧ g.magnitude = 0 := by
  have hf0 := units_div_nonneg f.magnitude
  have hg0 := units_div_nonneg g.magnitude
  obtain ⟨fn, fm⟩ := f
  obtain ⟨gn, gm⟩ := g
  unfold toRat at h
  rcases Bool.eq_or_eq_not fn gn with rfl | rfl
  · left
    have heq : (units fm / one : ℚ) = units gm / one := by
      cases fn <;> simpa using h
    have hm : fm = gm := by
      refine Fin.ext (le_antisymm ?_ ?_) <;>
        exact Nat.not_lt.mp fun hlt => (units_div_lt.mpr hlt).ne' (by rw [heq])
    rw [hm]
  · right
    have hsum : (units fm / one : ℚ) + units gm / one = 0 := by
      cases gn <;>
        simp only [Bool.not_true, Bool.not_false, Bool.false_eq_true, if_true, if_false] at h <;>
        linarith
    exact ⟨Fin.ext (magnitude_eq_zero (by linarith)), Fin.ext (magnitude_eq_zero (by linarith))⟩

theorem value_eq_value (h : f.toRat = g.toRat) :
    (std.scientific f).value = (std.scientific g).value := by
  rcases eq_of_toRat_eq h with rfl | ⟨hf, hg⟩
  · rfl
  · rw [value_eq, value_eq, abs_eq_zero hf, abs_eq_zero hg]
    simp

/-! ### How much is printed -/

theorem coefficient_lt (hf : f.IsFinite) : (std.scientific f).coefficient < 10 ^ 20 := by
  by_cases h : f.magnitude = 0
  · rw [(std.zero f h).1]
    decide
  · obtain ⟨c, e, hc, hnear⟩ := exists_decimal (m := f.magnitude) (fun h0 => h (Fin.ext h0))
    have hlen := std.shortest f hf h c e ((round_eq_iff hf).mpr hnear)
    have hc' := (Nat.length_toDigits_le_iff (by decide : 1 < 10) (by decide : 0 < 20)).mpr hc
    exact (Nat.length_toDigits_le_iff (by decide) (by decide)).mp (hlen.trans hc')

theorem two_pow_le {k : ℕ} (hk : k ≤ 1200) : (2 : ℚ) ^ k ≤ 10 ^ 400 :=
  calc (2 : ℚ) ^ k ≤ 2 ^ (3 * 400) := pow_le_pow_right₀ (by norm_num) hk
    _ = (2 ^ 3) ^ 400 := pow_mul 2 3 400
    _ ≤ 10 ^ 400 := pow_le_pow_left₀ (by norm_num) (by norm_num) 400

theorem units_infinityBits : units infinityBits = 2 ^ 1024 * 2 ^ 1074 := by decide +kernel

theorem abs_le (hf : f.IsFinite) : (std.scientific f).abs ≤ 2 ^ 1024 := by
  have h := Grid.le_half_of_nearest (abs_one_nonneg std f) (nearest_abs std hf)
  have hle : ∀ {n : ℕ}, n ≤ infinityBits → (units n : ℚ) ≤ 2 ^ 1024 * one := fun {n} hn => by
    have := units_strictMono.monotone hn
    rw [units_infinityBits] at this
    unfold one
    exact_mod_cast this
  have h1 : (grid.point f.magnitude : ℚ) ≤ 2 ^ 1024 * one := hle (Nat.le_of_lt hf)
  have h2 : (grid.point (f.magnitude + 1) : ℚ) ≤ 2 ^ 1024 * one := hle (Nat.succ_le_of_lt hf)
  generalize (2 : ℚ) ^ 1024 = bound at h1 h2 ⊢
  exact le_of_mul_le_mul_right (by linarith) one_pos

theorem le_abs (hf : f.IsFinite) (h : f.magnitude ≠ 0) : 1 ≤ 2 ^ 1075 * (std.scientific f).abs := by
  obtain ⟨n, hn⟩ : ∃ n, (f.magnitude : ℕ) = n + 1 :=
    ⟨f.magnitude - 1, by have := Fin.val_ne_of_ne h; simp at this; omega⟩
  have hhalf := Grid.half_le_of_nearest (abs_one_nonneg std f) ((nearest_abs std hf).trans hn)
  have hpos : 1 ≤ units (n + 1) := (Nat.zero_le _).trans_lt (units_strictMono (Nat.lt_succ_self n))
  have h1 : (1 : ℚ) ≤ grid.point (n + 1) := Nat.one_le_cast.mpr hpos
  have h0 : (0 : ℚ) ≤ grid.point n := Nat.cast_nonneg _
  have hone : (2 : ℚ) ^ 1075 = 2 * one := by
    unfold one
    rw [← pow_succ']
  rw [hone]
  linarith

/-- The exponent of the first digit. -/
theorem exponent_bounds (hf : f.IsFinite) :
    -400 ≤ (std.scientific f).exponent +
        (Nat.toDigits 10 (std.scientific f).coefficient).length - 1 ∧
      (std.scientific f).exponent +
        (Nat.toDigits 10 (std.scientific f).coefficient).length - 1 ≤ 400 := by
  by_cases h : f.magnitude = 0
  · rw [(std.zero f h).1, (std.zero f h).2]
    decide
  · have hle := abs_le std hf
    have hge := le_abs std hf h
    have hpos := abs_pos std hf h
    unfold Scientific.abs at hle hge hpos
    generalize (std.scientific f).coefficient = c at hle hge hpos ⊢
    generalize (std.scientific f).exponent = e at hle hge hpos ⊢
    have hc : c ≠ 0 := by
      rintro rfl
      simp at hpos
    obtain ⟨hlo, hhi⟩ := coefficient_bounds hc e
    refine ⟨?_, ?_⟩
    · have h1 : (10 : ℚ) ^ (-400 : ℤ) < 10 ^ ((Nat.toDigits 10 c).length + e) := by
        refine lt_of_le_of_lt ?_ hhi
        rw [show (-400 : ℤ) = -(400 : ℕ) from rfl, zpow_neg, zpow_natCast,
          inv_le_iff_one_le_mul₀' (by positivity)]
        exact hge.trans (mul_le_mul_of_nonneg_right (two_pow_le (by decide)) hpos.le)
      have := (zpow_lt_zpow_iff_right₀ (by norm_num : (1 : ℚ) < 10)).mp h1
      omega
    · have h1 : (10 : ℚ) ^ ((Nat.toDigits 10 c).length + e - 1) ≤ 10 ^ (400 : ℤ) :=
        hlo.trans (hle.trans (two_pow_le (by decide)))
      have := (zpow_le_zpow_iff_right₀ (by norm_num : (1 : ℚ) < 10)).mp h1
      omega

end LowerExp

end RadixDb
