import RadixDb.Value.Rendering

/-!
# Integers that are floats

Integers are compared with floats exactly, and with what is printed for floats when they come as
decimals. The two ways agree on a float unless an integer lies between the float and what is printed
for it. **If one does, the float is itself an integer of 64 bits** (`exists_int_of_between`): up to
`2 ^ 53` every integer is a float, and above it every float is an integer. The one float that might
escape, `2 ^ 63`, is printed as a larger number.

So the ways agree on exactly the floats that are no 64-bit integers or are printed exactly
(`compares_value`).
-/

namespace RadixDb

open F64 Nat

/-- An integer of 64 bits. -/
def InI64 (i : ℤ) : Prop := I64.minValue ≤ i ∧ i ≤ I64.maxValue

instance (i : ℤ) : Decidable (InI64 i) := inferInstanceAs (Decidable (_ ∧ _))

/-! ## Integers on the grid -/

/-- Up to `2 ^ 53` every integer is a float. -/
theorem exists_units_eq {k : ℕ} (hk : k ≤ 2 ^ 53) : ∃ n, units n = k * 2 ^ 1074 := by
  rcases Nat.eq_zero_or_pos k with rfl | hpos
  · refine ⟨0, ?_⟩
    rw [zero_mul]
    rfl
  rcases hk.lt_or_eq with hlt | rfl
  · have hlog : k.log2 ≤ 52 := Nat.lt_succ_iff.mp ((log2_lt hpos.ne').mpr hlt)
    have hle : 2 ^ k.log2 ≤ k := log2_self_le hpos.ne'
    have hlt' : k < 2 ^ (k.log2 + 1) := lt_log2_self
    -- shifted to 53 significant bits
    refine ⟨(1022 + k.log2) * 2 ^ 52 + k * 2 ^ (52 - k.log2), ?_⟩
    rw [units_mul_add, mul_assoc, ← pow_add]
    · congr 2
      omega
    · left
      calc 2 ^ 52 = 2 ^ k.log2 * 2 ^ (52 - k.log2) := by
            rw [← pow_add, Nat.add_sub_cancel' hlog]
        _ ≤ k * 2 ^ (52 - k.log2) := mul_le_mul_right _ hle
    · calc k * 2 ^ (52 - k.log2) ≤ 2 ^ (k.log2 + 1) * 2 ^ (52 - k.log2) :=
            mul_le_mul_right _ hlt'.le
        _ = 2 ^ 53 := by rw [← pow_add, show k.log2 + 1 + (52 - k.log2) = 53 by omega]
  · exact ⟨1074 * 2 ^ 52 + 2 ^ 53, units_mul_add (.inl (by decide)) le_rfl⟩

/-- From `2 ^ 53` on every float is an integer. -/
theorem dvd_units {m : ℕ} (hm : 1076 * 2 ^ 52 ≤ m) : 2 ^ 1074 ∣ units m := by
  unfold units
  rw [if_neg (by omega)]
  exact Dvd.dvd.mul_left (pow_dvd_pow 2 (by omega)) _

theorem units_two_pow_53 : units (1076 * 2 ^ 52) = 2 ^ 53 * 2 ^ 1074 := by
  rw [show 1076 * 2 ^ 52 = 1074 * 2 ^ 52 + 2 ^ 53 by decide,
    units_mul_add (.inl (by decide)) le_rfl]

theorem units_two_pow_63 : units (1086 * 2 ^ 52) = 2 ^ 63 * 2 ^ 1074 := by
  rw [show 1086 * 2 ^ 52 = 1085 * 2 ^ 52 + 2 ^ 52 by decide,
    units_mul_add (.inl le_rfl) (by decide), ← pow_add, ← pow_add]

theorem nearest_natCast {k n : ℕ} (h : units n = k * 2 ^ 1074) :
    grid.nearest ((k : ℚ) * one) = n := by
  have hpoint : (k : ℚ) * one = grid.point n := by
    show _ = (units n : ℚ)
    rw [h, one, cast_mul, cast_pow, cast_ofNat]
  rw [hpoint, Grid.nearest_point]

/-- A float that an integer below `2 ^ 63` is rounded to is an integer. -/
theorem exists_units_of_nearest {k m : ℕ} (hk : k ≤ 2 ^ 63)
    (h : grid.nearest ((k : ℚ) * one) = m) : ∃ j ≤ 2 ^ 63, units m = j * 2 ^ 1074 := by
  rcases le_total k (2 ^ 53) with hle | hge
  · obtain ⟨n, hn⟩ := exists_units_eq hle
    rw [nearest_natCast hn] at h
    exact ⟨k, hk, h ▸ hn⟩
  · have h1 := nearest_mul_mono (cast_nonneg _) (cast_le.mpr hge)
    have h2 := nearest_mul_mono (cast_nonneg _) (cast_le.mpr hk)
    rw [nearest_natCast units_two_pow_53, h] at h1
    rw [nearest_natCast units_two_pow_63, h] at h2
    obtain ⟨j, hj⟩ := dvd_units h1
    refine ⟨j, ?_, hj.trans (mul_comm _ _)⟩
    have hle := units_strictMono.monotone h2
    rw [hj, units_two_pow_63, mul_comm] at hle
    exact le_of_mul_le_mul_right hle (by positivity)

namespace LowerExp

variable {std : LowerExp} {f : F64}

/-- `2 ^ 63` is printed with 16 digits, and the only such number near it is larger. -/
theorem le_abs_two_pow_63 (std : LowerExp) (h : (f.magnitude : ℕ) = 1086 * 2 ^ 52) :
    2 ^ 63 ≤ (std.scientific f).abs := by
  have hf : f.IsFinite := by
    rw [IsFinite, h]
    decide
  have hne : f.magnitude ≠ 0 := fun h0 => by
    rw [h0] at h
    exact absurd h (by decide)
  -- `9.223372036854776e18` is read as `2 ^ 63`
  have hdig := std.shortest f hf hne 9223372036854776 3 ((round_eq_iff hf).mpr (by
    rw [h]
    decide +kernel))
  rw [show (toDigits 10 9223372036854776).length = 16 by decide +kernel,
    length_toDigits_le_iff (by decide) (by decide)] at hdig
  have hhalf := Grid.half_le_of_nearest (n := 1086 * 2 ^ 52 - 1) (abs_one_nonneg std f)
    ((nearest_abs std hf).trans h)
  have hlo : (2 : ℚ) ^ 63 - 512 ≤ (std.scientific f).abs := by
    have hpoints : grid.point (1086 * 2 ^ 52 - 1) + grid.point (1086 * 2 ^ 52 - 1 + 1) =
        2 * ((2 ^ 63 - 512) * one) := by decide +kernel
    exact le_of_mul_le_mul_right (by linarith) one_pos
  by_contra hlt
  rw [not_le] at hlt
  unfold Scientific.abs at hlo hlt
  generalize (std.scientific f).coefficient = c at hdig hlo hlt
  generalize (std.scientific f).exponent = e at hlo hlt
  have hc : (c : ℚ) < 10 ^ 16 := by exact_mod_cast hdig
  have he : 3 ≤ e := by
    by_contra he
    have hpow : (10 : ℚ) ^ e ≤ 10 ^ (2 : ℤ) := zpow_le_zpow_right₀ (by norm_num) (by omega)
    have := mul_le_mul hc.le hpow (ten_zpow_pos e).le (by norm_num)
    linarith
  -- a multiple of 1000
  obtain ⟨d, rfl⟩ : ∃ d : ℕ, e = d + 3 := ⟨(e - 3).toNat, by omega⟩
  have hval : (c : ℚ) * 10 ^ ((d : ℤ) + 3) = ((c * 10 ^ d * 1000 : ℕ) : ℚ) := by
    rw [zpow_add₀ (by norm_num), zpow_natCast]
    push_cast
    ring
  rw [hval] at hlo hlt
  have hlo' : 2 ^ 63 - 512 ≤ c * 10 ^ d * 1000 :=
    cast_le.mp (le_trans (by norm_num) hlo)
  have hlt' : c * 10 ^ d * 1000 < 2 ^ 63 := by exact_mod_cast hlt
  omega

theorem nearest_of_between {k : ℕ} (hf : f.IsFinite)
    (h : (std.scientific f).abs ≤ k ∧ (k : ℚ) ≤ units f.magnitude / one ∨
      (units f.magnitude / one : ℚ) ≤ k ∧ (k : ℚ) ≤ (std.scientific f).abs) :
    grid.nearest ((k : ℚ) * one) = f.magnitude := by
  have hpoint : grid.nearest (units f.magnitude / one * one) = f.magnitude := by
    rw [div_mul_cancel₀ _ one_pos.ne']
    exact Grid.nearest_point (g := grid) _
  have hprint := nearest_abs std hf
  have hk : (0 : ℚ) ≤ k := cast_nonneg k
  rcases h with ⟨h1, h2⟩ | ⟨h1, h2⟩
  · have := nearest_mul_mono (Scientific.abs_nonneg _) h1
    have := nearest_mul_mono hk h2
    omega
  · have := nearest_mul_mono (units_div_nonneg _) h1
    have := nearest_mul_mono hk h2
    omega

/-- **An integer of 64 bits lies between a float and what is printed for it only if the float is
itself such an integer.** -/
theorem exists_int_of_between {i : ℤ} (hi : InI64 i) (hf : f.IsFinite)
    (h : (std.scientific f).value ≤ i ∧ (i : ℚ) ≤ f.toRat ∨
      f.toRat ≤ i ∧ (i : ℚ) ≤ (std.scientific f).value) : ∃ j, InI64 j ∧ f.toRat = j := by
  have h0 := units_div_nonneg f.magnitude
  have hnn := (std.scientific f).abs_nonneg
  have hlo : -2 ^ 63 ≤ i := hi.1
  have hhi : i ≤ 2 ^ 63 - 1 := hi.2
  have hint : ∀ j : ℕ, units f.magnitude = j * 2 ^ 1074 →
      (units f.magnitude / one : ℚ) = j := fun j hj => by
    rw [hj, one, cast_mul, cast_pow, cast_ofNat, mul_div_cancel_right₀]
    positivity
  rw [value_eq] at h
  unfold toRat at h ⊢
  cases hs : f.negative with
  | false =>
    simp only [hs, Bool.false_eq_true, if_false] at h ⊢
    obtain ⟨k, rfl⟩ : ∃ k : ℕ, i = k := Int.eq_ofNat_of_zero_le (by
      have : (0 : ℚ) ≤ i := by rcases h with h | h <;> linarith
      exact_mod_cast this)
    have hnear := nearest_of_between hf h
    obtain ⟨j, hj, hunits⟩ := exists_units_of_nearest (by omega) hnear
    rcases hj.lt_or_eq with hlt | rfl
    · refine ⟨j, ⟨?_, ?_⟩, hint j hunits⟩
      · exact le_trans (by decide) (Int.natCast_nonneg j)
      · show (j : ℤ) ≤ 2 ^ 63 - 1
        omega
    · -- the float is `2 ^ 63`, which no 64-bit integer reaches, and what is printed is larger
      have hmag : (f.magnitude : ℕ) = 1086 * 2 ^ 52 :=
        units_strictMono.injective (hunits.trans units_two_pow_63.symm)
      have habs := le_abs_two_pow_63 std hmag
      have hval := hint _ hunits
      have hk : (k : ℚ) ≤ 2 ^ 63 - 1 := by exact_mod_cast hhi
      push_cast at h
      rcases h with h | h <;> linarith
  | true =>
    simp only [hs, if_true] at h ⊢
    obtain ⟨k, rfl⟩ : ∃ k : ℕ, i = -k := ⟨i.natAbs, by
      have : (i : ℚ) ≤ 0 := by rcases h with h | h <;> linarith
      have : i ≤ 0 := by exact_mod_cast this
      omega⟩
    simp only [Int.cast_neg, Int.cast_natCast, neg_le_neg_iff] at h
    have hnear := nearest_of_between hf
      (h.symm.imp (fun h => ⟨h.2, h.1⟩) fun h => ⟨h.2, h.1⟩)
    obtain ⟨j, hj, hunits⟩ := exists_units_of_nearest (by omega) hnear
    refine ⟨-j, ⟨?_, ?_⟩, ?_⟩
    · show -2 ^ 63 ≤ -(j : ℤ)
      omega
    · show -(j : ℤ) ≤ 2 ^ 63 - 1
      omega
    · rw [hint j hunits, Int.cast_neg, Int.cast_natCast]

/-- **Comparing an integer with a float or with what is printed for it is the same**, if the float
is printed exactly or is no 64-bit integer. -/
theorem compares_value (hf : f.IsFinite)
    (hexact : ∀ j, InI64 j → f.toRat = j → (std.scientific f).value = j) {i : ℤ} (hi : InI64 i)
    {o : Ordering} (h : o.Compares (i : ℚ) f.toRat) :
    o.Compares (i : ℚ) (std.scientific f).value := by
  by_cases hint : ∃ j, InI64 j ∧ f.toRat = j
  · obtain ⟨j, hj, heq⟩ := hint
    rwa [hexact j hj heq, ← heq]
  · cases o with
    | lt =>
      by_contra hle
      exact hint (exists_int_of_between hi hf (.inl ⟨not_lt.mp hle, le_of_lt h⟩))
    | eq => exact absurd ⟨i, hi, Eq.symm h⟩ hint
    | gt =>
      by_contra hle
      exact hint (exists_int_of_between hi hf (.inr ⟨le_of_lt h, not_lt.mp hle⟩))

end LowerExp

end RadixDb
