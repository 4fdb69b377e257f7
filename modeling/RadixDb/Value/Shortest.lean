import RadixDb.Value.Rendering

/-!
# A printer of shortest decimals

`LowerExp.reference` prints a float with the fewest digits that are read back as the float. For each
number of digits it looks at the two decimals of that many digits next to the float, one on either
side. **If any decimal of so many digits is read as the float, one of these two is**
(`tryDigits_isSome`), because reading is monotone; so the first number of digits that succeeds is
the least one.
-/

namespace RadixDb

open F64 Nat

/-- The magnitude of a float. -/
def F64.abs (f : F64) : ℚ := units f.magnitude / one

/-- The number of digits before the point: `10 ^ (order q - 1) ≤ q < 10 ^ order q`. -/
def order (q : ℚ) : ℤ := (Nat.toDigits 10 ⌊q * 10 ^ 400⌋₊).length - 400

/-- Whether a decimal is read as the float. -/
def reads (f : F64) (c : ℕ) (e : ℤ) : Bool :=
  grid.nearest (c * 10 ^ e * one) = f.magnitude

/-- The decimals of `n` digits next to `f`, the nearer one if both are read as `f`. -/
def tryDigits (f : F64) (n : ℕ) : Option (ℕ × ℤ) :=
  let e := order f.abs - n
  let c := ⌊f.abs / 10 ^ e⌋₊
  match reads f c e, reads f (c + 1) e with
  | true, true => if f.abs - c * 10 ^ e ≤ (c + 1) * 10 ^ e - f.abs then some (c, e)
      else some (c + 1, e)
  | true, false => some (c, e)
  | false, true => some (c + 1, e)
  | false, false => none

/-- The first number of digits that will do, and the decimal it gives. -/
def shortestDecimal (f : F64) : ℕ × ℤ :=
  if f.magnitude = 0 then (0, 0)
  else
    let n := ((List.range 20).find? fun k => (tryDigits f (k + 1)).isSome).getD 0 + 1
    let p := (tryDigits f n).getD (0, 0)
    Digits.stripZeros p.1 p.2

section

variable {f : F64} {n : ℕ}

theorem abs_pos_of_ne_zero (h : f.magnitude ≠ 0) : 0 < f.abs := by
  have hpos : 0 < units f.magnitude :=
    (zero_le _).trans_lt (units_strictMono (pos_of_ne_zero fun h0 => h (Fin.ext h0)))
  exact div_pos (cast_pos.mpr hpos) one_pos

theorem le_abs_of_ne_zero (h : f.magnitude ≠ 0) : 1 ≤ f.abs * 10 ^ 400 := by
  have hpos : 1 ≤ units f.magnitude :=
    (zero_le _).trans_lt (units_strictMono (pos_of_ne_zero fun h0 => h (Fin.ext h0)))
  have h1 : (1 : ℚ) ≤ units f.magnitude := one_le_cast.mpr hpos
  have hone : one ≤ 10 ^ 400 := LowerExp.two_pow_le (by decide)
  rw [F64.abs, div_mul_eq_mul_div, le_div_iff₀ one_pos, one_mul]
  exact hone.trans (le_mul_of_one_le_left (by positivity) h1)

theorem order_spec (h : f.magnitude ≠ 0) :
    (10 : ℚ) ^ (order f.abs - 1) ≤ f.abs ∧ f.abs < 10 ^ order f.abs := by
  have hle := le_abs_of_ne_zero h
  have hnn : 0 ≤ f.abs * 10 ^ 400 := zero_le_one.trans hle
  have hfloor : ⌊f.abs * 10 ^ 400⌋₊ ≠ 0 := (floor_pos.mpr hle).ne'
  have h1 := Digits.pow_le_of_toDigits hfloor
  have h2 := Digits.lt_pow_toDigits ⌊f.abs * 10 ^ 400⌋₊
  have hlen := @length_toDigits_pos 10 ⌊f.abs * 10 ^ 400⌋₊
  rw [le_floor_iff hnn] at h1
  rw [floor_lt hnn] at h2
  unfold order
  generalize (toDigits 10 ⌊f.abs * 10 ^ 400⌋₊).length = k at h1 h2 hlen ⊢
  have hsplit : ∀ j : ℕ, (10 : ℚ) ^ ((j : ℤ) - 400) * 10 ^ 400 = 10 ^ j := fun j => by
    rw [← zpow_natCast (10 : ℚ) 400, ← zpow_add₀ (by norm_num), ← zpow_natCast]
    congr 1
    ring
  refine ⟨?_, ?_⟩
  · rw [show (k : ℤ) - 400 - 1 = ((k - 1 : ℕ) : ℤ) - 400 by omega]
    refine le_of_mul_le_mul_right ?_ (by positivity : (0 : ℚ) < 10 ^ 400)
    rw [hsplit]
    exact_mod_cast h1
  · refine lt_of_mul_lt_mul_right ?_ (by positivity : (0 : ℚ) ≤ 10 ^ 400)
    rw [hsplit]
    exact_mod_cast h2

theorem reads_iff {c : ℕ} {e : ℤ} :
    reads f c e = true ↔ grid.nearest (c * 10 ^ e * one) = f.magnitude := by
  simp [reads]

/-- Between a decimal that is read as the float and the float, every decimal is. -/
theorem reads_of_between {c c' : ℕ} {e e' : ℤ} (h : reads f c' e' = true)
    (hb : (c' * 10 ^ e' : ℚ) ≤ c * 10 ^ e ∧ (c * 10 ^ e : ℚ) ≤ f.abs ∨
      f.abs ≤ c * 10 ^ e ∧ (c * 10 ^ e : ℚ) ≤ c' * 10 ^ e') : reads f c e = true := by
  rw [reads_iff] at h ⊢
  have hpoint : grid.nearest (f.abs * one) = f.magnitude := by
    rw [F64.abs, div_mul_cancel₀ _ one_pos.ne']
    exact Grid.nearest_point (g := grid) _
  have hnn : ∀ (c : ℕ) (e : ℤ), (0 : ℚ) ≤ c * 10 ^ e :=
    fun c e => mul_nonneg (cast_nonneg _) (ten_zpow_pos e).le
  rcases hb with ⟨h1, h2⟩ | ⟨h1, h2⟩
  · have := nearest_mul_mono (hnn c' e') h1
    have := nearest_mul_mono (hnn c e) h2
    omega
  · have := nearest_mul_mono (LowerExp.units_div_nonneg f.magnitude) h1
    have := nearest_mul_mono (hnn c e) h2
    rw [← F64.abs] at *
    omega

theorem exists_eq_mul {c : ℕ} {e e' : ℤ} (h : e ≤ e') :
    ∃ k : ℕ, (c * 10 ^ e' : ℚ) = k * 10 ^ e := by
  obtain ⟨d, rfl⟩ : ∃ d : ℕ, e' = d + e := ⟨(e' - e).toNat, by omega⟩
  refine ⟨c * 10 ^ d, ?_⟩
  rw [zpow_add₀ (by norm_num), zpow_natCast]
  push_cast
  ring

/-- **If some decimal of `n` digits is read as the float, one of the two candidates is.** -/
theorem tryDigits_isSome (h0 : f.magnitude ≠ 0) {c' : ℕ} {e' : ℤ} (hn : 0 < n)
    (hc : c' < 10 ^ n) (h : reads f c' e' = true) : (tryDigits f n).isSome = true := by
  obtain ⟨hlo, hhi⟩ := order_spec h0
  have hpos := abs_pos_of_ne_zero h0
  set e := order f.abs - n with he
  set c := ⌊f.abs / 10 ^ e⌋₊ with hcdef
  have hq : 0 ≤ f.abs / 10 ^ e := div_nonneg hpos.le (ten_zpow_pos e).le
  have hbelow : (c * 10 ^ e : ℚ) ≤ f.abs := (le_div_iff₀ (ten_zpow_pos e)).mp (floor_le hq)
  have habove : f.abs < ((c + 1 : ℕ) : ℚ) * 10 ^ e := by
    rw [← div_lt_iff₀ (ten_zpow_pos e)]
    exact_mod_cast lt_floor_add_one (f.abs / 10 ^ e)
  -- `10 ^ (order - 1)` has `n` digits and is not above the float
  have hfirst : (10 : ℚ) ^ (order f.abs - 1) ≤ c * 10 ^ e := by
    have hsplit : (10 : ℚ) ^ (order f.abs - 1) = ((10 ^ (n - 1) : ℕ) : ℚ) * 10 ^ e := by
      rw [cast_pow, cast_ofNat, ← zpow_natCast, ← zpow_add₀ (by norm_num)]
      congr 1
      omega
    rw [hsplit] at hlo ⊢
    refine mul_le_mul_of_nonneg_right (cast_le.mpr ?_) (ten_zpow_pos e).le
    exact (le_floor_iff hq).mpr ((le_div_iff₀ (ten_zpow_pos e)).mpr hlo)
  have hcand : reads f c e = true ∨ reads f (c + 1) e = true := by
    rcases lt_or_ge e' e with hlt | hge
    · -- a finer decimal of `n` digits is below the order of the float
      have hsmall : (c' * 10 ^ e' : ℚ) ≤ 10 ^ (order f.abs - 1) := by
        calc (c' * 10 ^ e' : ℚ) ≤ ((10 ^ n : ℕ) : ℚ) * 10 ^ (e - 1) :=
              mul_le_mul (cast_le.mpr hc.le)
                (zpow_le_zpow_right₀ (by norm_num) (by omega)) (ten_zpow_pos _).le
                (cast_nonneg _)
          _ = 10 ^ (order f.abs - 1) := by
              rw [cast_pow, cast_ofNat, ← zpow_natCast, ← zpow_add₀ (by norm_num)]
              congr 1
              omega
      exact .inl (reads_of_between h (.inl ⟨hsmall.trans hfirst, hbelow⟩))
    · obtain ⟨k, hk⟩ := exists_eq_mul (c := c') hge
      rcases le_or_gt (c' * 10 ^ e' : ℚ) f.abs with hle | hgt
      · refine .inl (reads_of_between h (.inl ⟨?_, hbelow⟩))
        rw [hk] at hle ⊢
        refine mul_le_mul_of_nonneg_right (cast_le.mpr ?_) (ten_zpow_pos e).le
        exact (le_floor_iff hq).mpr ((le_div_iff₀ (ten_zpow_pos e)).mpr hle)
      · refine .inr (reads_of_between h (.inr ⟨habove.le, ?_⟩))
        rw [hk] at hgt ⊢
        refine mul_le_mul_of_nonneg_right (cast_le.mpr ?_) (ten_zpow_pos e).le
        exact (floor_lt hq).mpr ((div_lt_iff₀ (ten_zpow_pos e)).mpr hgt)
  unfold tryDigits
  dsimp only
  rcases hcand with hc | hc <;> rw [hc]
  · cases reads f (c + 1) e
    · rfl
    · dsimp only
      split <;> rfl
  · cases reads f c e
    · rfl
    · dsimp only
      split <;> rfl

theorem tryDigits_spec (h0 : f.magnitude ≠ 0) {p : ℕ × ℤ} (h : tryDigits f n = some p) :
    reads f p.1 p.2 = true ∧ p.1 ≤ 10 ^ n := by
  have hpos := abs_pos_of_ne_zero h0
  have hhi := (order_spec h0).2
  have hc : ⌊f.abs / 10 ^ (order f.abs - n)⌋₊ < 10 ^ n := by
    rw [floor_lt (div_nonneg hpos.le (ten_zpow_pos _).le), div_lt_iff₀ (ten_zpow_pos _)]
    refine hhi.trans_eq ?_
    rw [cast_pow, cast_ofNat, ← zpow_natCast, ← zpow_add₀ (by norm_num)]
    congr 1
    ring
  unfold tryDigits at h
  dsimp only at h
  split at h
  · next h1 h2 =>
    split at h
    · cases h
      exact ⟨h1, hc.le⟩
    · cases h
      exact ⟨h2, hc⟩
  · next h1 _ =>
    cases h
    exact ⟨h1, hc.le⟩
  · next _ h2 =>
    cases h
    exact ⟨h2, hc⟩
  · cases h

/-- The decimal found is read as the float, and no decimal of fewer digits is. -/
theorem shortestDecimal_spec (h0 : f.magnitude ≠ 0) :
    reads f (shortestDecimal f).1 (shortestDecimal f).2 = true ∧
      ∀ c e, reads f c e = true →
        (Nat.toDigits 10 (shortestDecimal f).1).length ≤ (Nat.toDigits 10 c).length := by
  -- a decimal of `k + 1` digits makes the search succeed at `k` or before
  have hsome : ∀ c e, reads f c e = true →
      (tryDigits f ((toDigits 10 c).length - 1 + 1)).isSome = true := fun c e h => by
    have hlen := @length_toDigits_pos 10 c
    rw [Nat.sub_add_cancel hlen]
    exact tryDigits_isSome h0 hlen (Digits.lt_pow_toDigits c) h
  obtain ⟨c, e, hc, hnear⟩ := exists_decimal (m := f.magnitude) fun h => h0 (Fin.ext h)
  have hlen := (length_toDigits_le_iff (by decide : 1 < 10) (by decide : 0 < 20)).mpr hc
  obtain ⟨k, hk⟩ : ∃ k, (List.range 20).find? (fun k => (tryDigits f (k + 1)).isSome) = some k :=
    Option.isSome_iff_exists.mp (List.find?_isSome.mpr
      ⟨_, List.mem_range.mpr (by omega), hsome c e (reads_iff.mpr hnear)⟩)
  obtain ⟨hk1, -, hk2⟩ := List.find?_range_eq_some.mp hk
  obtain ⟨p, hp⟩ := Option.isSome_iff_exists.mp hk1
  obtain ⟨hreads, hle⟩ := tryDigits_spec h0 hp
  have hdef : shortestDecimal f = Digits.stripZeros p.1 p.2 := by
    simp [shortestDecimal, h0, hk, hp]
  rw [hdef]
  refine ⟨?_, fun c e h => ?_⟩
  · rw [reads_iff] at hreads ⊢
    rwa [Digits.stripZeros_value]
  · have hlen := @length_toDigits_pos 10 c
    -- `p.1` has at most `k + 1` digits, and the search failed before
    have hk : k + 1 ≤ (toDigits 10 c).length := by
      by_contra hlt
      have := hk2 ((toDigits 10 c).length - 1) (by omega)
      rw [hsome c e h] at this
      cases this
    refine le_trans ?_ hk
    rw [length_toDigits_le_iff (by decide) (by omega)]
    rcases hle.lt_or_eq with hlt | heq
    · exact (Digits.stripZeros_fst_le _ _).trans_lt hlt
    · have hne : p.1 ≠ 0 := by
        rw [heq]
        positivity
      have hmod := Digits.stripZeros_fst_mod hne p.2
      refine lt_of_le_of_ne ((Digits.stripZeros_fst_le _ _).trans hle) fun hfull => hmod ?_
      rw [hfull, pow_succ, mul_mod_left]

end

/-- A printer of shortest decimals. -/
def LowerExp.reference : LowerExp where
  scientific f := ⟨f.negative, (shortestDecimal f).1, (shortestDecimal f).2⟩
  negative _ := rfl
  zero f h := by simp [shortestDecimal, h]
  parses f hf := by
    rw [round_eq_iff hf]
    by_cases h0 : f.magnitude = 0
    · have h00 : grid.nearest 0 = 0 := Grid.nearest_point (g := grid) 0
      simp [Scientific.abs, shortestDecimal, h0, h00]
    · exact reads_iff.mp (shortestDecimal_spec h0).1
  shortest f hf h0 c e h :=
    (shortestDecimal_spec h0).2 c e (reads_iff.mpr ((round_eq_iff hf).mp h))

end RadixDb
