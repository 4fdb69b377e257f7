import RadixDb.Value.Rendering

/-!
# Decimal numbers

A DECIMAL value and a float that is compared with it are brought to one form, `coefficient *
10 ^ exponent` without trailing zeros (`DecimalIdentity`). **Of every number there is one identity**
(`value_injective`), so numbers are equal if their identities are, and identities are compared digit
by digit (`cmpNumeric_compares`).

A float comes to this form through its text: it is printed, and the text is taken apart again
(`fromFloat`). For every finite float this gives the number that was printed (`fromFloat_eq`).
-/

namespace RadixDb

open Digits Nat List

open F64

/-- A decimal number in normal form. -/
structure DecimalIdentity where
  negative : Bool
  coefficient : ℕ
  exponent : ℤ
  normal : coefficient % 10 ≠ 0 ∨ negative = false ∧ coefficient = 0 ∧ exponent = 0
deriving DecidableEq

/-- `i32::saturating_add`. -/
def saturatingAddI32 (a b : ℤ) : ℤ := max (-2 ^ 31) (min (2 ^ 31 - 1) (a + b))

namespace DecimalIdentity

def new (negative : Bool) (coefficient : ℕ) (exponent : ℤ) : DecimalIdentity :=
  if h : coefficient = 0 then ⟨false, 0, 0, Or.inr ⟨rfl, rfl, rfl⟩⟩
  else
    let p := Digits.stripZeros coefficient exponent
    ⟨negative, p.1, p.2, Or.inl (Digits.stripZeros_fst_mod h exponent)⟩

def fromParts (unscaled : ℤ) (scale : ℕ) : DecimalIdentity :=
  new (unscaled < 0) unscaled.natAbs (-scale)

/-- The text of a float, taken apart. -/
def ofText (rendered : List Char) : Option DecimalIdentity := do
  let (mantissa, exponent) ← Digits.splitOnce 'e' rendered
  let exponent ← Digits.parseSigned (-2 ^ 31) (2 ^ 31 - 1) exponent
  let (negative, mantissa) := Digits.stripMinus mantissa
  let (integer, fraction) := (Digits.splitOnce '.' mantissa).getD (mantissa, [])
  let coefficient ← Digits.parseUnsigned (2 ^ 128) (integer ++ fraction)
  if -2 ^ 31 ≤ exponent - fraction.length then
    some (new negative coefficient (exponent - fraction.length))
  else none

def fromFloat (std : LowerExp) (f : F64) : Option DecimalIdentity :=
  if f.classify.isFinite then ofText (std.scientific f).text else none

def exactI64 (d : DecimalIdentity) : Option ℤ :=
  if d.coefficient = 0 then some 0
  else if d.exponent < 0 then none
  else
    let power := 10 ^ d.exponent.toNat
    let magnitude := d.coefficient * power
    if 2 ^ 128 ≤ power ∨ 2 ^ 128 ≤ magnitude then none
    else if d.negative then
      if magnitude = 2 ^ 63 then some I64.minValue
      else if (magnitude : ℤ) ≤ I64.maxValue then some (-magnitude) else none
    else if (magnitude : ℤ) ≤ I64.maxValue then some magnitude else none

def cmpMagnitude (d other : DecimalIdentity) : Ordering :=
  let leftDigits := toDigits 10 d.coefficient
  let rightDigits := toDigits 10 other.coefficient
  let leftOrder := saturatingAddI32 (min (2 ^ 31 - 1) leftDigits.length) d.exponent
  let rightOrder := saturatingAddI32 (min (2 ^ 31 - 1) rightDigits.length) other.exponent
  match cmp leftOrder rightOrder with
  | .eq =>
    let width := max leftDigits.length rightDigits.length
    Digits.compareDigits width leftDigits rightDigits
  | ordering => ordering

def cmpNumeric (d other : DecimalIdentity) : Ordering :=
  if d = other then .eq
  else
    match decide (d.coefficient = 0), decide (other.coefficient = 0) with
    | true, true => .eq
    | true, false => if other.negative then .gt else .lt
    | false, true => if d.negative then .lt else .gt
    | false, false =>
      match cmp d.negative other.negative with
      | .lt => .gt
      | .gt => .lt
      | .eq => if d.negative then (d.cmpMagnitude other).swap else d.cmpMagnitude other

/-! ## Numbers and their identities -/

def abs (d : DecimalIdentity) : ℚ := d.coefficient * 10 ^ d.exponent

def value (d : DecimalIdentity) : ℚ := if d.negative then -d.abs else d.abs

variable {d other : DecimalIdentity}

theorem value_new (negative : Bool) (c : ℕ) (e : ℤ) :
    (new negative c e).value = if negative then -(c * 10 ^ e : ℚ) else c * 10 ^ e := by
  unfold new
  split
  · next h =>
    subst h
    simp [value, abs]
  · simp only [value, abs, stripZeros_value]

theorem value_fromParts (unscaled : ℤ) (scale : ℕ) :
    (fromParts unscaled scale).value = unscaled / 10 ^ scale := by
  rw [fromParts, value_new, zpow_neg, zpow_natCast, ← div_eq_mul_inv, cast_natAbs]
  by_cases h : unscaled < 0
  · rw [if_pos (decide_eq_true h), abs_of_neg h, Int.cast_neg, neg_div, neg_neg]
  · rw [if_neg (by simpa using h), abs_of_nonneg (not_lt.mp h)]

theorem abs_nonneg (d : DecimalIdentity) : 0 ≤ d.abs :=
  mul_nonneg (cast_nonneg _) (ten_zpow_pos _).le

theorem abs_pos (h : d.coefficient ≠ 0) : 0 < d.abs :=
  mul_pos (cast_pos.mpr (pos_of_ne_zero h)) (ten_zpow_pos _)

theorem value_eq_zero (h : d.coefficient = 0) : d.value = 0 := by
  simp [value, abs, h]

theorem mod_of_ne_zero (h : d.coefficient ≠ 0) : d.coefficient % 10 ≠ 0 :=
  d.normal.elim id fun hz => absurd hz.2.1 h

/-- A coefficient without trailing zeros has the larger coefficient only with the same exponent. -/
theorem exponent_le (h : d.coefficient ≠ 0) (heq : d.abs = other.abs) :
    other.exponent ≤ d.exponent := by
  by_contra hlt
  obtain ⟨k, hk⟩ : ∃ k : ℕ, other.exponent = (k + 1 : ℕ) + d.exponent :=
    ⟨(other.exponent - d.exponent - 1).toNat, by omega⟩
  have hnat : (d.coefficient : ℚ) = (other.coefficient * 10 ^ (k + 1) : ℕ) := by
    unfold abs at heq
    rw [hk, zpow_add₀ (by norm_num), zpow_natCast, ← mul_assoc] at heq
    rw [cast_mul, cast_pow, cast_ofNat]
    exact mul_right_cancel₀ (ten_zpow_pos _).ne' heq
  refine mod_of_ne_zero h ?_
  rw [cast_inj.mp hnat, pow_succ, ← mul_assoc, mul_mod_left]

/-- **Of every number there is one identity.** -/
theorem value_injective (h : d.value = other.value) : d = other := by
  have hzero : ∀ {a : DecimalIdentity}, a.coefficient = 0 →
      a = ⟨false, 0, 0, .inr ⟨rfl, rfl, rfl⟩⟩ := fun {a} ha => by
      obtain ⟨n, c, e, hn⟩ := a
      obtain ⟨h1, h2, h3⟩ := hn.resolve_left (by simp at ha; simp [ha])
      subst h1 h2 h3
      rfl
  have hpos : ∀ {a : DecimalIdentity}, a.value = 0 → a.coefficient = 0 := fun {a} ha => by
    by_contra hc
    have := abs_pos hc
    unfold value at ha
    split at ha <;> linarith
  by_cases hd : d.coefficient = 0
  · have ho : other.coefficient = 0 := hpos (by rw [← h, value_eq_zero hd])
    rw [hzero hd, hzero ho]
  · have ho : other.coefficient ≠ 0 := fun ho => hd (hpos (by rw [h, value_eq_zero ho]))
    have h1 := abs_pos hd
    have h2 := abs_pos ho
    have hsign : d.negative = other.negative ∧ d.abs = other.abs := by
      unfold value at h
      cases hdn : d.negative <;> cases hon : other.negative <;>
        simp only [hdn, hon, Bool.false_eq_true, if_false, if_true] at h
      · exact ⟨rfl, h⟩
      · linarith
      · linarith
      · exact ⟨rfl, neg_injective h⟩
    have hexp : d.exponent = other.exponent :=
      le_antisymm (exponent_le ho hsign.2.symm) (exponent_le hd hsign.2)
    have hcoeff : d.coefficient = other.coefficient := by
      have := hsign.2
      unfold abs at this
      rw [hexp] at this
      exact cast_inj.mp (mul_right_cancel₀ (ten_zpow_pos _).ne' this)
    cases d
    cases other
    simp_all

/-! ## Comparing -/

/-- Small enough that orders of magnitude do not saturate. Every identity of a DECIMAL value or a
float is. -/
structure Small (d : DecimalIdentity) : Prop where
  digits : d.coefficient < 10 ^ 40
  lower : -1000 ≤ d.exponent
  upper : d.exponent ≤ 1000

theorem Small.digits_le (h : d.Small) : (toDigits 10 d.coefficient).length ≤ 40 :=
  (length_toDigits_le_iff (by decide) (by decide)).mpr h.digits

/-- The order of magnitude, where it does not saturate. -/
theorem Small.order_eq (h : d.Small) :
    saturatingAddI32 (min (2 ^ 31 - 1) ((toDigits 10 d.coefficient).length : ℤ)) d.exponent =
      (toDigits 10 d.coefficient).length + d.exponent := by
  have h1 := h.digits_le
  have h2 := h.lower
  have h3 := h.upper
  unfold saturatingAddI32
  omega

theorem abs_lt_of_order_lt (hd : d.coefficient ≠ 0) (ho : other.coefficient ≠ 0)
    (h : (toDigits 10 d.coefficient).length + d.exponent <
      (toDigits 10 other.coefficient).length + other.exponent) : d.abs < other.abs :=
  (coefficient_bounds hd d.exponent).2.trans_le
    ((zpow_le_zpow_right₀ (by norm_num) (by omega)).trans (coefficient_bounds ho other.exponent).1)

theorem compares_scale {o : Ordering} {x y : ℕ} {k : ℚ} (hk : 0 < k) (h : o.Compares x y) :
    o.Compares (x * k) (y * k) :=
  (StrictMono.compares (f := fun n : ℕ => (n : ℚ) * k) fun _ _ hlt =>
    mul_lt_mul_of_pos_right (cast_lt.mpr hlt) hk).mpr h

theorem cmpMagnitude_compares (hd : d.coefficient ≠ 0) (ho : other.coefficient ≠ 0)
    (hds : d.Small) (hos : other.Small) : (d.cmpMagnitude other).Compares d.abs other.abs := by
  unfold cmpMagnitude
  dsimp only
  rw [hds.order_eq, hos.order_eq]
  have hc := cmp_compares ((toDigits 10 d.coefficient).length + d.exponent)
    ((toDigits 10 other.coefficient).length + other.exponent)
  revert hc
  cases cmp ((toDigits 10 d.coefficient).length + d.exponent)
    ((toDigits 10 other.coefficient).length + other.exponent) with
  | lt => exact fun h => abs_lt_of_order_lt hd ho h
  | gt => exact fun h => abs_lt_of_order_lt ho hd h
  | eq =>
    intro h
    -- equal orders: the digits, written to one width, have one scale
    have hdig := compareDigits_compares _ (allDigits_toDigits d.coefficient)
      (allDigits_toDigits other.coefficient) (le_max_left _ _) (le_max_right _ _)
    rw [value_toDigits, value_toDigits] at hdig
    have hdw := le_max_left (toDigits 10 d.coefficient).length
      (toDigits 10 other.coefficient).length
    have how := le_max_right (toDigits 10 d.coefficient).length
      (toDigits 10 other.coefficient).length
    generalize max (toDigits 10 d.coefficient).length
      (toDigits 10 other.coefficient).length = width at hdig hdw how ⊢
    have hscale := compares_scale
      (ten_zpow_pos ((toDigits 10 d.coefficient).length + d.exponent - width)) hdig
    have habs : ∀ a : DecimalIdentity, (toDigits 10 a.coefficient).length ≤ width →
        (toDigits 10 a.coefficient).length + a.exponent =
          (toDigits 10 d.coefficient).length + d.exponent →
        ((a.coefficient * 10 ^ (width - (toDigits 10 a.coefficient).length) : ℕ) : ℚ) *
          10 ^ ((toDigits 10 d.coefficient).length + d.exponent - width) = a.abs :=
      fun a ha heq => by
        rw [← heq, cast_mul, cast_pow, cast_ofNat, mul_assoc, ← zpow_natCast,
          ← zpow_add₀ (by norm_num), abs]
        congr 2
        omega
    rwa [habs d hdw rfl, habs other how (Eq.symm h)] at hscale

/-- **Identities are compared as numbers.** -/
theorem cmpNumeric_compares (hds : d.Small) (hos : other.Small) :
    (d.cmpNumeric other).Compares d.value other.value := by
  unfold cmpNumeric
  split
  · next h => exact congrArg value h
  · by_cases hd : d.coefficient = 0 <;> by_cases ho : other.coefficient = 0 <;>
      simp [hd, ho]
    · exact (value_eq_zero hd).trans (value_eq_zero ho).symm
    · have hpos := abs_pos ho
      rw [value_eq_zero hd, value]
      cases other.negative with
      | true => exact (show -other.abs < 0 by linarith)
      | false => exact hpos
    · have hpos := abs_pos hd
      rw [value_eq_zero ho, value]
      cases d.negative with
      | true => exact (show -d.abs < 0 by linarith)
      | false => exact hpos
    · have hdpos := abs_pos hd
      have hopos := abs_pos ho
      have hmag := cmpMagnitude_compares hd ho hds hos
      unfold value
      cases d.negative <;> cases other.negative
      · exact hmag
      · exact (show -other.abs < d.abs by linarith)
      · exact (show -d.abs < other.abs by linarith)
      · exact Ordering.compares_swap.mpr (StrictAnti.compares (fun _ _ => neg_lt_neg) |>.mpr hmag)

/-! ## The text of a float -/

theorem small_new {negative : Bool} {c : ℕ} {e : ℤ} (hc : c < 10 ^ 40) (hlo : -1000 ≤ e)
    (hhi : e ≤ 900) : (new negative c e).Small := by
  unfold new
  split
  · exact ⟨by decide, by decide, by decide⟩
  · next h =>
    obtain ⟨h1, h2⟩ := stripZeros_snd_bounds c e
    have h2 := h2 h
    refine ⟨(stripZeros_fst_le c e).trans_lt hc, hlo.trans h1, ?_⟩
    have hpow : 10 ^ ((stripZeros c e).2 - e).toNat < 10 ^ 40 :=
      lt_of_le_of_lt (by exact_mod_cast h2) hc
    have := (Nat.pow_lt_pow_iff_right (by decide : 1 < 10)).mp hpow
    dsimp only
    omega

/-- The digits of a printed number, with the point taken out. -/
theorem splitOnce_point {digits : List Char} (h : Digits.AllDigits digits) :
    (Digits.splitOnce '.' (digits.take 1 ++ if digits.drop 1 = [] then [] else
        '.' :: digits.drop 1)).getD
      (digits.take 1 ++ if digits.drop 1 = [] then [] else '.' :: digits.drop 1, []) =
      (digits.take 1, digits.drop 1) := by
  have hnot : '.' ∉ digits.take 1 :=
    Digits.AllDigits.not_mem (fun c hc => h c (mem_of_mem_take hc)) (by decide)
  by_cases hd : digits.drop 1 = []
  · rw [if_pos hd, append_nil, splitOnce_eq_none hnot, hd]
    rfl
  · rw [if_neg hd, splitOnce_append hnot]
    rfl

/-- **The identity of a float is the number that is printed for it.** -/
theorem ofText_text {s : Scientific} (hc : s.coefficient < 2 ^ 128) (hlo : -2 ^ 31 ≤ s.exponent)
    (hhi : s.exponent + (toDigits 10 s.coefficient).length ≤ 2 ^ 31) :
    ofText s.text = some (new s.negative s.coefficient s.exponent) := by
  have hdig := allDigits_toDigits s.coefficient
  have hne : toDigits 10 s.coefficient ≠ [] := toDigits_ne_nil
  have hlen := @length_toDigits_pos 10 s.coefficient
  have hval := value_toDigits s.coefficient
  unfold ofText Scientific.text
  generalize toDigits 10 s.coefficient = digits at hdig hne hlen hval hhi ⊢
  -- the mantissa has no `e` in it
  have hpoint := splitOnce_point hdig
  set mantissa := digits.take 1 ++ if digits.drop 1 = [] then [] else '.' :: digits.drop 1
    with hm
  have hmem : ∀ c ∈ mantissa, c.isDigit = true ∨ c = '.' := by
    intro c hc
    rw [hm, mem_append] at hc
    rcases hc with hc | hc
    · exact .inl (hdig c (mem_of_mem_take hc))
    · split at hc
      · cases hc
      · rcases mem_cons.mp hc with rfl | hc
        · exact .inr rfl
        · exact .inl (hdig c (mem_of_mem_drop hc))
  have he : 'e' ∉ (if s.negative then ['-'] else []) ++ mantissa := by
    rw [mem_append, not_or]
    refine ⟨by split <;> decide, fun hmem' => ?_⟩
    rcases hmem 'e' hmem' with h | h <;> exact absurd h (by decide)
  rw [splitOnce_append he]
  have hexp : parseSigned (-2 ^ 31) (2 ^ 31 - 1)
      (intText (s.exponent + (digits.drop 1).length)) =
      some (s.exponent + (digits.drop 1).length) :=
    parseSigned_intText (by omega) (by rw [length_drop]; omega)
  have hsign : stripMinus ((if s.negative then ['-'] else []) ++ mantissa) =
      (s.negative, mantissa) := by
    cases s.negative with
    | true => rfl
    | false => exact stripMinus_of_not_mem fun hmem' => absurd (hmem '-' hmem') (by decide)
  have hparse : parseUnsigned (2 ^ 128) (digits.take 1 ++ digits.drop 1) =
      some s.coefficient := by
    rw [take_append_drop, parseUnsigned_eq hdig hne (by rw [hval]; exact hc), hval]
  simp only [Option.bind_eq_bind, Option.bind_some, hexp, hsign, hpoint, hparse]
  rw [add_sub_cancel_right, if_pos hlo]

end DecimalIdentity

namespace LowerExp

variable {std : LowerExp} {f : F64}

theorem fromFloat_eq (hf : f.IsFinite) : DecimalIdentity.fromFloat std f =
    some (DecimalIdentity.new f.negative (std.scientific f).coefficient
      (std.scientific f).exponent) := by
  obtain ⟨h1, h2⟩ := exponent_bounds std hf
  have hc := coefficient_lt std hf
  have hlen : (toDigits 10 (std.scientific f).coefficient).length ≤ 20 :=
    (length_toDigits_le_iff (by decide) (by decide)).mpr hc
  rw [DecimalIdentity.fromFloat, classify_eq_finite hf, FloatClass.isFinite, if_pos rfl,
    DecimalIdentity.ofText_text (hc.trans (by decide)) (by omega) (by omega), std.negative]

/-- The identity of a finite float. -/
def identity (std : LowerExp) (f : F64) : DecimalIdentity :=
  .new f.negative (std.scientific f).coefficient (std.scientific f).exponent

theorem value_identity (std : LowerExp) (f : F64) :
    (std.identity f).value = (std.scientific f).value := by
  rw [identity, DecimalIdentity.value_new, value_eq, Scientific.abs]

theorem small_identity (std : LowerExp) (hf : f.IsFinite) : (std.identity f).Small := by
  obtain ⟨h1, h2⟩ := exponent_bounds std hf
  have hc := coefficient_lt std hf
  have hlen : (toDigits 10 (std.scientific f).coefficient).length ≤ 20 :=
    (length_toDigits_le_iff (by decide) (by decide)).mpr hc
  exact DecimalIdentity.small_new (hc.trans (by decide)) (by omega) (by omega)

end LowerExp

end RadixDb
