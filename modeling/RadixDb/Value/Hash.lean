import RadixDb.Lib.Bytes
import RadixDb.Value.Decimal
import RadixDb.Value.Exact

/-!
# Hash words of numbers

Equal numbers of different types must feed one word to the hasher. An integer has a word of its own;
a float that is an integer of 64 bits takes the integer's word, and a decimal takes the word of the
integer or the float that it equals, if there is one.

A decimal is equal to a float if it is the number printed for the float. **The decimal then has the
float's word unless it is an integer and the float is another one** (`decimalHashWord_eq`).
-/

namespace RadixDb

open List Digits Nat

open F64

/-- The 128-bit product, folded. -/
def wymix (a b : UInt64) : UInt64 :=
  UInt64.ofNat (a.toNat * b.toNat) ^^^ UInt64.ofNat (a.toNat * b.toNat / 2 ^ 64)

def wyP1 : UInt64 := 0xa0761d6478bd642f

def wyP2 : UInt64 := 0xe7037ed1a0b428db

/-- `value as u64`. -/
def asU64 (value : ℤ) : UInt64 := UInt64.ofNat (value % 2 ^ 64).toNat

def integerHashWord (value : ℤ) : UInt64 := wymix (1 ^^^ asU64 value) wyP1

def floatHashWord (value : F64) : UInt64 :=
  if value.classify.isNan then wymix (6 ^^^ F64.nan.toBits) wyP1
  else
    let integer := value.classify.asI64
    if compareIntegerFloat integer value = .eq then integerHashWord integer
    else wymix (6 ^^^ value.toBits) wyP1

/-- The words of whole chunks, eight bytes at a time, mixed into `h`. -/
def hashChunks : ℕ → Bytes → UInt64 → UInt64
  | 0, _, h => h
  | chunks + 1, bytes, h =>
    hashChunks chunks (bytes.drop 8) (wymix (h ^^^ UInt64.ofNat (Bytes.leNat (bytes.take 8))) wyP2)

/-- The word of a byte string; `seed` tells texts and extensions apart. -/
def hashBytes (seed : UInt64) (bytes : Bytes) : UInt64 :=
  let len := bytes.length
  let h := hashChunks (len / 8) bytes (wymix (seed ^^^ UInt64.ofNat len) wyP1)
  let tail := bytes.drop (len / 8 * 8)
  if tail = [] then h else wymix (h ^^^ UInt64.ofNat (Bytes.leNat tail)) wyP1

/-- A decimal in fixed-point form. -/
def formatDecimalParts (unscaled : ℤ) (scale : ℕ) : List Char :=
  if scale = 0 then Digits.intText unscaled
  else
    let digits := Nat.toDigits 10 unscaled.natAbs
    let digits := if digits.length ≤ scale then
      List.replicate (scale + 1 - digits.length) '0' ++ digits else digits
    let split := digits.length - scale
    (if unscaled < 0 then ['-'] else []) ++ digits.take split ++ '.' :: digits.drop split

def decimalHashWord (std : LowerExp) (unscaled : ℤ) (scale : ℕ) : UInt64 :=
  let identity := DecimalIdentity.fromParts unscaled scale
  match identity.exactI64 with
  | some integer => integerHashWord integer
  | none =>
    -- the word of the float for which this number is printed
    match (F64.parse (formatDecimalParts unscaled scale)).filter fun float =>
        float.classify.isFinite && DecimalIdentity.fromFloat std float = some identity with
    | some float => floatHashWord float
    | none =>
      let low := UInt64.ofNat identity.coefficient
      let high := UInt64.ofNat (identity.coefficient / 2 ^ 64)
      let sign : UInt64 := if identity.negative then 1 else 0
      let hash := wymix (7 ^^^ low) wyP1
      let hash := wymix (hash ^^^ high) wyP2
      let hash := wymix (hash ^^^ asU64 identity.exponent) wyP1
      wymix (hash ^^^ sign) wyP2

/-! ## Decimals that are integers -/

namespace DecimalIdentity

variable {d : DecimalIdentity} {i : ℤ}

theorem exponent_nonneg (h : d.value = i) : 0 ≤ d.exponent := by
  have hd : d = fromParts i 0 := value_injective (by rw [h, value_fromParts, pow_zero, div_one])
  rw [hd, fromParts, new]
  split
  · exact le_rfl
  · exact (stripZeros_snd_bounds _ _).1

/-- The value of a decimal with a nonnegative exponent, as an integer. -/
theorem value_eq_int (h : 0 ≤ d.exponent) : d.value =
    ((if d.negative then -((d.coefficient * 10 ^ d.exponent.toNat : ℕ) : ℤ)
      else (d.coefficient * 10 ^ d.exponent.toNat : ℕ) : ℤ) : ℚ) := by
  have hpow : (10 : ℚ) ^ d.exponent = (10 ^ d.exponent.toNat : ℕ) := by
    rw [cast_pow, cast_ofNat, ← zpow_natCast, Int.toNat_of_nonneg h]
  rw [value, abs, hpow]
  split
  · push_cast
    rfl
  · push_cast
    rfl

/-- **The decimals that are 64-bit integers are recognised as such.** -/
theorem exactI64_eq_some_iff : d.exactI64 = some i ↔ InI64 i ∧ d.value = i := by
  unfold exactI64
  by_cases hc : d.coefficient = 0
  · rw [if_pos hc, value_eq_zero hc]
    constructor
    · intro h
      cases h
      exact ⟨by decide, rfl⟩
    · rintro ⟨-, h⟩
      rw [show (0 : ℤ) = i by exact_mod_cast h]
  rw [if_neg hc]
  by_cases he : d.exponent < 0
  · rw [if_pos he]
    refine ⟨fun h => (by cases h), fun h => ?_⟩
    exact absurd (exponent_nonneg h.2) (not_le.mpr he)
  rw [if_neg he, value_eq_int (not_lt.mp he), Int.cast_inj]
  have hpos : 0 < d.coefficient * 10 ^ d.exponent.toNat :=
    mul_pos (pos_of_ne_zero hc) (by positivity)
  have hpow : 10 ^ d.exponent.toNat ≤ d.coefficient * 10 ^ d.exponent.toNat :=
    Nat.le_mul_of_pos_left _ (pos_of_ne_zero hc)
  dsimp only
  generalize d.coefficient * 10 ^ d.exponent.toNat = m at hpos hpow ⊢
  unfold InI64 I64.minValue I64.maxValue
  constructor
  · intro h
    split_ifs at h <;> cases h <;> simp_all
    all_goals omega
  · rintro ⟨hi, h⟩
    have hbound : m ≤ 2 ^ 63 := by
      split at h <;> omega
    rw [if_neg (by omega)]
    split at h
    · next hn =>
      rw [if_pos hn]
      by_cases hm : m = 2 ^ 63
      · rw [if_pos hm]
        congr 1
        omega
      · rw [if_neg hm, if_pos (by omega), h]
    · next hn =>
      rw [if_neg hn, if_pos (by omega), h]

end DecimalIdentity

/-! ## Decimals as text -/

variable (unscaled : ℤ) (scale : ℕ)

/-- The digits before and after the point. -/
theorem formatDecimalParts_cases :
    ∃ int frac, AllDigits (int ++ frac) ∧ int ≠ [] ∧ value (int ++ frac) = unscaled.natAbs ∧
      frac.length = scale ∧ formatDecimalParts unscaled scale =
        (if unscaled < 0 then ['-'] else []) ++ (int ++ if scale = 0 then [] else '.' :: frac) := by
  have hdig := allDigits_toDigits unscaled.natAbs
  have hval := value_toDigits unscaled.natAbs
  unfold formatDecimalParts intText
  generalize hd : toDigits 10 unscaled.natAbs = digits at hdig hval ⊢
  split
  · refine ⟨digits, [], by rwa [append_nil], hd ▸ toDigits_ne_nil, by rwa [append_nil],
      by simp [*], ?_⟩
    split <;> simp
  · dsimp only
    -- zeros are put before the digits, so that one stands before the point
    set padded := if digits.length ≤ scale then
      replicate (scale + 1 - digits.length) '0' ++ digits else digits with hpadded
    have hlen : scale < padded.length := by
      rw [hpadded]
      split
      · rw [length_append, length_replicate]
        omega
      · omega
    refine ⟨padded.take (padded.length - scale), padded.drop (padded.length - scale), ?_, ?_, ?_,
      by rw [length_drop]; omega, by rw [append_assoc]⟩
    · rw [take_append_drop, hpadded]
      split
      · exact (allDigits_replicate _).append hdig
      · exact hdig
    · exact ne_nil_of_length_pos (by rw [length_take]; omega)
    · rw [take_append_drop, hpadded]
      split
      · rw [value_replicate_append, hval]
      · exact hval

/-- The text is taken apart again. -/
theorem split_formatDecimalParts :
    ∃ int frac body, AllDigits (int ++ frac) ∧ int ++ frac ≠ [] ∧
      value (int ++ frac) = unscaled.natAbs ∧ frac.length = scale ∧
      splitSign (formatDecimalParts unscaled scale) = (decide (unscaled < 0), body) ∧
      (splitOnce '.' body).getD (body, []) = (int, frac) := by
  obtain ⟨int, frac, hdig, hne, hval, rfl, heq⟩ := formatDecimalParts_cases unscaled scale
  have hint : AllDigits int := fun c hc => hdig c (mem_append_left _ hc)
  refine ⟨int, frac, int ++ if frac.length = 0 then [] else '.' :: frac, hdig,
    append_ne_nil_of_left_ne_nil hne _, hval, rfl, ?_, ?_⟩
  · rw [heq]
    obtain ⟨c, l, rfl⟩ := exists_cons_of_ne_nil hne
    by_cases h : unscaled < 0
    · simp [splitSign, h]
    · have hc := hint c mem_cons_self
      rw [if_neg h, decide_eq_false h, nil_append, cons_append, splitSign]
      · rintro r ⟨⟩
        exact absurd hc (by decide)
      · rintro r ⟨⟩
        exact absurd hc (by decide)
  · split
    · next h =>
      rw [append_nil, splitOnce_eq_none (hint.not_mem (by decide)), eq_nil_of_length_eq_zero h]
      rfl
    · rw [splitOnce_append (hint.not_mem (by decide)), Option.getD_some]

theorem parseFixed_formatDecimalParts :
    parseFixed (formatDecimalParts unscaled scale) =
      some (decide (unscaled < 0), unscaled.natAbs, scale) := by
  obtain ⟨int, frac, body, hdig, hne, hval, rfl, hsign, hparts⟩ :=
    split_formatDecimalParts unscaled scale
  simp only [parseFixed, hsign, hparts, parseDigits_eq hdig hne, hval, Option.map_some]

theorem parse_formatDecimalParts :
    F64.parse (formatDecimalParts unscaled scale) =
      some (round (unscaled < 0) (unscaled.natAbs / 10 ^ scale)) := by
  rw [F64.parse, parseFixed_formatDecimalParts]
  rfl

/-! ## The words of equal numbers -/

section

variable {std : LowerExp} {f g : F64} {i : ℤ}

theorem floatHashWord_of_int (hi : InI64 i) (hf : f.classify = .finite i) :
    floatHashWord f = integerHashWord i := by
  have hcast : f.classify.asI64 = i := by
    have hlo : (-2 ^ 63 : ℚ) ≤ i := by exact_mod_cast hi.1
    have hhi : (i : ℚ) < 2 ^ 63 := by
      have : i < 2 ^ 63 := Int.lt_of_le_sub_one hi.2
      exact_mod_cast this
    rw [hf, FloatClass.asI64_finite hlo hhi, FloatClass.truncate]
    split
    · exact Int.floor_intCast i
    · rw [← Int.cast_neg, Int.floor_intCast, neg_neg]
  have heq : compareIntegerFloat i f = .eq := by
    have hc := compareIntegerFloat_compares hi.1 hi.2 f
    rw [hf] at hc
    exact hc.eq_eq.mpr rfl
  unfold floatHashWord
  rw [hcast, if_pos heq, if_neg (by rw [hf]; exact Bool.false_ne_true)]

theorem div_ten_pow_neg (a : ℤ) (k : ℕ) : (a / 10 ^ k : ℚ) < 0 ↔ a < 0 := by
  rw [div_lt_iff₀ (by positivity), zero_mul, Int.cast_lt_zero]

theorem round_of_value_eq (hf : f.IsFinite) (h0 : f.magnitude ≠ 0) {unscaled : ℤ} {scale : ℕ}
    (h : (unscaled / 10 ^ scale : ℚ) = (std.scientific f).value) :
    round (unscaled < 0) (unscaled.natAbs / 10 ^ scale) = f := by
  have hpos := LowerExp.abs_pos std hf h0
  have hscale : (0 : ℚ) < 10 ^ scale := by positivity
  rw [LowerExp.value_eq] at h
  have hsign : decide (unscaled < 0) = f.negative := by
    rw [Bool.eq_iff_iff, decide_eq_true_eq, ← div_ten_pow_neg unscaled scale, h]
    cases f.negative <;> simp [hpos, hpos.le]
  have habs : (unscaled.natAbs / 10 ^ scale : ℚ) = (std.scientific f).abs := by
    rw [cast_natAbs, Int.cast_abs, ← abs_of_pos hscale, ← abs_div, h]
    split
    · rw [abs_neg, abs_of_pos hpos]
    · rw [abs_of_pos hpos]
  rw [hsign, habs]
  exact std.parses f hf

/-- **A decimal that is the number printed for a float has the float's word**, if the float is
printed exactly or is no 64-bit integer. -/
theorem decimalHashWord_eq (hf : f.IsFinite)
    (hexact : ∀ j, InI64 j → f.toRat = j → (std.scientific f).value = j) {unscaled : ℤ} {scale : ℕ}
    (h : (DecimalIdentity.fromParts unscaled scale).value = (std.scientific f).value) :
    decimalHashWord std unscaled scale = floatHashWord f := by
  unfold decimalHashWord
  dsimp only
  cases hint : (DecimalIdentity.fromParts unscaled scale).exactI64 with
  | some i =>
    -- the number printed is an integer, so the float is that integer
    obtain ⟨hi, hval⟩ := DecimalIdentity.exactI64_eq_some_iff.mp hint
    rw [h] at hval
    have hcmp := LowerExp.compares_value hf hexact hi (cmp_compares (i : ℚ) f.toRat)
    rw [hval] at hcmp
    have hrat : i = f.toRat := (cmp_eq_eq_iff _ _).mp (hcmp.eq_eq.mpr rfl)
    exact (floatHashWord_of_int hi (by rw [classify_eq_finite hf, hrat])).symm
  | none =>
    have h0 : f.magnitude ≠ 0 := fun h0 => by
      have hzero : (DecimalIdentity.fromParts unscaled scale).value = ((0 : ℤ) : ℚ) := by
        rw [h, LowerExp.value_eq, LowerExp.abs_eq_zero h0]
        simp
      rw [DecimalIdentity.exactI64_eq_some_iff.mpr ⟨by decide, hzero⟩] at hint
      cases hint
    have hvalue := h
    rw [DecimalIdentity.value_fromParts] at hvalue
    have hid : DecimalIdentity.fromFloat std f =
        some (DecimalIdentity.fromParts unscaled scale) := by
      rw [LowerExp.fromFloat_eq hf]
      refine congrArg some (DecimalIdentity.value_injective ?_)
      rw [h]
      exact LowerExp.value_identity std f
    rw [parse_formatDecimalParts, round_of_value_eq hf h0 hvalue, Option.filter_some, if_pos]
    rw [hid, classify_eq_finite hf]
    simp [FloatClass.isFinite]

theorem decimalHashWord_congr {u v : ℤ} {s t : ℕ}
    (h : (DecimalIdentity.fromParts u s).value = (DecimalIdentity.fromParts v t).value) :
    decimalHashWord std u s = decimalHashWord std v t := by
  have hid := DecimalIdentity.value_injective h
  rw [DecimalIdentity.value_fromParts, DecimalIdentity.value_fromParts] at h
  have hs : (0 : ℚ) < 10 ^ s := by positivity
  have ht : (0 : ℚ) < 10 ^ t := by positivity
  have hsign : decide (u < 0) = decide (v < 0) := by
    rw [decide_eq_decide, ← div_ten_pow_neg u s, ← div_ten_pow_neg v t, h]
  have habs : (u.natAbs / 10 ^ s : ℚ) = v.natAbs / 10 ^ t := by
    rw [cast_natAbs, cast_natAbs, Int.cast_abs, Int.cast_abs, ← abs_of_pos hs,
      ← abs_of_pos ht, ← abs_div, ← abs_div, h]
  unfold decimalHashWord
  rw [parse_formatDecimalParts, parse_formatDecimalParts, hid, hsign, habs]

end

end RadixDb
