import Mathlib

/-!
# Decimal text

Numbers are compared and exchanged as text: the decimal digits of a natural number, most significant
first, as `Nat.toDigits 10` writes them. This file has what a program does with such text. It
compares two digit strings from the left, the shorter one followed by zeros (`compareDigits`), it
cuts text at a separator (`splitOnce`), and it reads digits back as a number (`parseUnsigned`,
`parseSigned`).

**Comparing digit strings from the left compares the numbers scaled to a common width**
(`compareDigits_compares`), and reading the digits of a number gives the number back.
-/

set_option autoImplicit false

namespace Digits

open List Nat

/-- The number that a string of digits stands for. -/
abbrev value (l : List Char) : ℕ := ofDigitChars 10 l 0

def AllDigits (l : List Char) : Prop := ∀ c ∈ l, c.isDigit = true

variable (n : ℕ)

theorem allDigits_toDigits : AllDigits (toDigits 10 n) :=
  fun _ hc => isDigit_of_mem_toDigits (by decide) (by decide) hc

theorem value_toDigits : value (toDigits 10 n) = n :=
  ofDigitChars_toDigits (by decide) (by decide)

variable {l : List Char} {m : List Char}

theorem AllDigits.append (hl : AllDigits l) (hm : AllDigits m) : AllDigits (l ++ m) :=
  forall_mem_append.mpr ⟨hl, hm⟩

theorem allDigits_replicate : AllDigits (List.replicate n '0') := fun c hc => by
  rw [eq_of_mem_replicate hc]
  rfl

/-! ## The number a string stands for -/

theorem value_cons (c : Char) (l : List Char) :
    value (c :: l) = (c.toNat - '0'.toNat) * 10 ^ l.length + value l := by
  rw [value, ofDigitChars_cons, ofDigitChars_eq_ofDigitChars_zero]
  ring

theorem value_append (l m : List Char) : value (l ++ m) = value l * 10 ^ m.length + value m := by
  rw [value, ofDigitChars_append, ofDigitChars_eq_ofDigitChars_zero]
  ring

theorem value_replicate_append (l : List Char) : value (List.replicate n '0' ++ l) = value l := by
  rw [value_append, value, ofDigitChars_replicate_zero]
  ring

variable {c : Char}

theorem toNat_of_isDigit (h : c.isDigit = true) :
    '0'.toNat ≤ c.toNat ∧ c.toNat - '0'.toNat ≤ 9 := by
  simp only [Char.isDigit, ge_iff_le, Bool.and_eq_true, decide_eq_true_eq] at h
  have h1 : 48 ≤ c.toNat := h.1
  have h2 : c.toNat ≤ 57 := h.2
  have h0 : '0'.toNat = 48 := rfl
  omega

theorem value_lt (h : AllDigits l) : value l < 10 ^ l.length := by
  induction l with
  | nil => simp [value]
  | cons c l ih =>
    have hc := (toNat_of_isDigit (h c mem_cons_self)).2
    have hl := ih fun d hd => h d (mem_cons_of_mem _ hd)
    rw [value_cons, length_cons, pow_succ]
    nlinarith [mul_le_mul_right (10 ^ l.length) hc]

/-- A positive number of `k` digits lies between `10 ^ (k - 1)` and `10 ^ k`. -/
theorem pow_le_of_toDigits {n : ℕ} (hn : n ≠ 0) : 10 ^ ((toDigits 10 n).length - 1) ≤ n := by
  by_contra hlt
  rw [not_le] at hlt
  rcases lt_or_ge 1 (toDigits 10 n).length with h | h
  · have := (length_toDigits_le_iff (by decide) (by omega)).mpr hlt
    omega
  · rw [show (toDigits 10 n).length - 1 = 0 by omega] at hlt
    omega

theorem lt_pow_toDigits : n < 10 ^ (toDigits 10 n).length :=
  (length_toDigits_le_iff (by decide) length_toDigits_pos).mp le_rfl

/-! ## Trailing zeros -/

/-- The loop that moves trailing zeros of `c` into the exponent. -/
def stripZeros (c : ℕ) (e : ℤ) : ℕ × ℤ :=
  if h : c ≠ 0 ∧ c % 10 = 0 then stripZeros (c / 10) (e + 1) else (c, e)
termination_by c
decreasing_by omega

theorem stripZeros_fst_mod {c : ℕ} (hc : c ≠ 0) (e : ℤ) : (stripZeros c e).1 % 10 ≠ 0 := by
  fun_induction stripZeros c e with
  | case1 c e h ih => exact ih (by omega)
  | case2 c e h => exact fun hmod => h ⟨hc, hmod⟩

theorem stripZeros_fst_le (c : ℕ) (e : ℤ) : (stripZeros c e).1 ≤ c := by
  fun_induction stripZeros c e with
  | case1 c e h ih => exact ih.trans (div_le_self c 10)
  | case2 c e h => exact le_rfl

theorem stripZeros_value (c : ℕ) (e : ℤ) :
    ((stripZeros c e).1 : ℚ) * 10 ^ (stripZeros c e).2 = c * 10 ^ e := by
  fun_induction stripZeros c e with
  | case1 c e h ih =>
    have hc : (c : ℚ) = 10 * (c / 10 : ℕ) := by exact_mod_cast (by omega : c = 10 * (c / 10))
    rw [ih, zpow_add_one₀ (by norm_num : (10 : ℚ) ≠ 0), hc]
    ring
  | case2 c e h => rfl

theorem stripZeros_snd_bounds (c : ℕ) (e : ℤ) :
    e ≤ (stripZeros c e).2 ∧ (c ≠ 0 → (10 : ℤ) ^ ((stripZeros c e).2 - e).toNat ≤ c) := by
  fun_induction stripZeros c e with
  | case1 c e h ih =>
    obtain ⟨h1, h2⟩ := ih
    refine ⟨by omega, fun _ => ?_⟩
    have h2 := h2 (by omega)
    rw [show ((stripZeros (c / 10) (e + 1)).2 - e).toNat =
      ((stripZeros (c / 10) (e + 1)).2 - (e + 1)).toNat + 1 by omega, pow_succ]
    have hc : (c : ℤ) = (c / 10 : ℕ) * 10 := by omega
    rw [hc]
    exact Int.mul_le_mul_of_nonneg_right h2 (by decide)
  | case2 c e h => exact ⟨le_rfl, fun hc => by simp; omega⟩

/-! ## Comparing -/

/-- Two strings compared from the left up to a width; a missing digit is a zero. -/
def compareDigits : ℕ → List Char → List Char → Ordering
  | 0, _, _ => .eq
  | width + 1, left, right =>
    (cmp (left.headD '0').toNat (right.headD '0').toNat).then
      (compareDigits width left.tail right.tail)

/-- The leading digits decide unless they are equal. -/
theorem then_compares {a b w s t : ℕ} {o : Ordering} (ha : '0'.toNat ≤ a) (hb : '0'.toNat ≤ b)
    (hs : s < w) (ht : t < w) (h : o.Compares s t) :
    ((cmp a b).then o).Compares ((a - '0'.toNat) * w + s) ((b - '0'.toNat) * w + t) := by
  have hlt : ∀ {x y u v : ℕ}, x < y → u < w → x * w + u < y * w + v := fun {x y u v} hxy hu => by
    calc x * w + u < x * w + w := by omega
      _ = (x + 1) * w := by ring
      _ ≤ y * w := mul_le_mul_right w hxy
      _ ≤ y * w + v := le_add_right _ _
  have hc := cmp_compares a b
  revert hc
  cases cmp a b with
  | lt =>
    intro hab
    exact hlt (show a - '0'.toNat < b - '0'.toNat by have : a < b := hab; omega) hs
  | gt =>
    intro hab
    exact hlt (show b - '0'.toNat < a - '0'.toNat by have : b < a := hab; omega) ht
  | eq =>
    intro hab
    subst hab
    cases o with
    | lt => exact Nat.add_lt_add_left (show s < t from h) _
    | gt => exact Nat.add_lt_add_left (show t < s from h) _
    | eq => exact congrArg _ (show s = t from h)

theorem scaled_lt (h : AllDigits l) {w : ℕ} (hw : l.length ≤ w) :
    value l * 10 ^ (w - l.length) < 10 ^ w := by
  calc value l * 10 ^ (w - l.length) < 10 ^ l.length * 10 ^ (w - l.length) :=
        mul_lt_mul_of_pos_right (value_lt h) (by positivity)
    _ = 10 ^ w := by rw [← pow_add, Nat.add_sub_cancel' hw]

theorem AllDigits.tail (h : AllDigits l) : AllDigits l.tail :=
  fun c hc => h c (mem_of_mem_tail hc)

theorem AllDigits.zero_le_headD (h : AllDigits l) : '0'.toNat ≤ (l.headD '0').toNat := by
  cases l with
  | nil => exact le_rfl
  | cons c l => exact (toNat_of_isDigit (h c mem_cons_self)).1

theorem scaled_succ {w : ℕ} (hw : l.length ≤ w + 1) :
    value l * 10 ^ (w + 1 - l.length) = ((l.headD '0').toNat - '0'.toNat) * 10 ^ w +
      value l.tail * 10 ^ (w - l.tail.length) := by
  cases l with
  | nil => simp [value]
  | cons c l =>
    have hw : l.length ≤ w := le_of_succ_le_succ hw
    have hpow : 10 ^ w = 10 ^ l.length * 10 ^ (w - l.length) := by
      rw [← pow_add, Nat.add_sub_cancel' hw]
    rw [value_cons, length_cons, Nat.add_sub_add_right, headD_cons, tail_cons, hpow]
    ring

/-- **The comparison is that of the numbers, scaled to the width.** -/
theorem compareDigits_compares (w : ℕ) (hl : AllDigits l) (hm : AllDigits m) (hlw : l.length ≤ w)
    (hmw : m.length ≤ w) :
    (compareDigits w l m).Compares (value l * 10 ^ (w - l.length))
      (value m * 10 ^ (w - m.length)) := by
  induction w generalizing l m with
  | zero =>
    rw [eq_nil_of_length_eq_zero (le_zero.mp hlw), eq_nil_of_length_eq_zero (le_zero.mp hmw)]
    exact rfl
  | succ w ih =>
    have hlt : l.tail.length ≤ w := by rw [length_tail]; omega
    have hmt : m.tail.length ≤ w := by rw [length_tail]; omega
    rw [scaled_succ hlw, scaled_succ hmw]
    exact then_compares hl.zero_le_headD hm.zero_le_headD (scaled_lt hl.tail hlt)
      (scaled_lt hm.tail hmt) (ih hl.tail hm.tail hlt hmt)

/-! ## Reading -/

/-- Text before and after the first separator. -/
def splitOnce (c : Char) : List Char → Option (List Char × List Char)
  | [] => none
  | x :: l => if x = c then some ([], l) else (splitOnce c l).map fun p => (x :: p.1, p.2)

theorem splitOnce_append (h : c ∉ l) (r : List Char) : splitOnce c (l ++ c :: r) = some (l, r) := by
  induction l with
  | nil => simp [splitOnce]
  | cons x l ih =>
    rw [mem_cons, not_or] at h
    simp [splitOnce, Ne.symm h.1, ih h.2]

theorem splitOnce_eq_none (h : c ∉ l) : splitOnce c l = none := by
  induction l with
  | nil => rfl
  | cons x l ih =>
    rw [mem_cons, not_or] at h
    simp [splitOnce, Ne.symm h.1, ih h.2]

theorem AllDigits.not_mem (h : AllDigits l) (hc : c.isDigit = false) : c ∉ l := fun hmem => by
  rw [h c hmem] at hc
  cases hc

/-- A sign, if there is one, and the rest. -/
def splitSign : List Char → Bool × List Char
  | '-' :: l => (true, l)
  | '+' :: l => (false, l)
  | l => (false, l)

theorem splitSign_of_digits (h : AllDigits l) : splitSign l = (false, l) := by
  unfold splitSign
  split
  · exact absurd (h '-' mem_cons_self) (by decide)
  · exact absurd (h '+' mem_cons_self) (by decide)
  · rfl

/-- A leading minus, if there is one, and the rest. -/
def stripMinus : List Char → Bool × List Char
  | '-' :: l => (true, l)
  | l => (false, l)

theorem stripMinus_of_not_mem (h : '-' ∉ l) : stripMinus l = (false, l) := by
  unfold stripMinus
  split
  · exact absurd mem_cons_self h
  · rfl

/-- One or more digits. -/
def parseDigits (l : List Char) : Option ℕ :=
  if l ≠ [] ∧ l.all Char.isDigit = true then some (value l) else none

theorem parseDigits_eq (h : AllDigits l) (hne : l ≠ []) : parseDigits l = some (value l) := by
  rw [parseDigits, if_pos ⟨hne, all_eq_true.mpr h⟩]

/-- A natural number below `limit`, with an optional plus sign. -/
def parseUnsigned (limit : ℕ) (l : List Char) : Option ℕ :=
  match splitSign l with
  | (true, _) => none
  | (false, digits) => (parseDigits digits).filter (· < limit)

theorem parseUnsigned_eq {limit : ℕ} (h : AllDigits l) (hne : l ≠ []) (hlt : value l < limit) :
    parseUnsigned limit l = some (value l) := by
  rw [parseUnsigned, splitSign_of_digits h]
  simp [parseDigits_eq h hne, hlt]

/-- An integer from `lo` to `hi`, with an optional sign. -/
def parseSigned (lo hi : ℤ) (l : List Char) : Option ℤ :=
  let signed := splitSign l
  ((parseDigits signed.2).map fun n : ℕ => if signed.1 then -(n : ℤ) else (n : ℤ)).filter
    fun i => lo ≤ i ∧ i ≤ hi

/-- An integer in decimal. -/
def intText (i : ℤ) : List Char :=
  if i < 0 then '-' :: toDigits 10 i.natAbs else toDigits 10 i.natAbs

theorem splitSign_intText (i : ℤ) :
    splitSign (intText i) = (decide (i < 0), toDigits 10 i.natAbs) := by
  unfold intText
  split
  · next h => simp [splitSign, h]
  · next h => rw [splitSign_of_digits (allDigits_toDigits _), decide_eq_false h]

theorem parseSigned_intText {lo hi i : ℤ} (hlo : lo ≤ i) (hhi : i ≤ hi) :
    parseSigned lo hi (intText i) = some i := by
  have hback : (if decide (i < 0) = true then -(i.natAbs : ℤ) else i.natAbs) = i := by
    by_cases h : i < 0
    · rw [if_pos (decide_eq_true h)]
      omega
    · rw [if_neg (by simpa using h)]
      omega
  rw [parseSigned, splitSign_intText]
  rw [parseDigits_eq (allDigits_toDigits _) toDigits_ne_nil, value_toDigits, Option.map_some,
    hback, Option.filter_some, if_pos (decide_eq_true ⟨hlo, hhi⟩)]

/-- A number in fixed-point form: its sign, its digits as a number, and how many of them stand after
the point. -/
def parseFixed (l : List Char) : Option (Bool × ℕ × ℕ) :=
  let signed := splitSign l
  let parts := (splitOnce '.' signed.2).getD (signed.2, [])
  (parseDigits (parts.1 ++ parts.2)).map fun n => (signed.1, n, parts.2.length)

end Digits
