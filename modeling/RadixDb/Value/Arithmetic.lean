import RadixDb.Key.ColumnValue

/-!
# Arithmetic of DECIMAL values

The expression machine adds, subtracts and multiplies DECIMAL values as whole numbers at a common
scale, the larger one for sums and the sum of both for products. **The answer is exact or an error;
there is an error though the result has 38 digits if it has more at that scale, or if an operand
does not fit 128 bits there** (`decimal_exact_iff`). The unary minus of a DECIMAL value is NULL.
-/

namespace RadixDb

inductive ArithmeticOp where
  | add | sub | mul | div | mod
deriving DecidableEq

/-- The digits of a magnitude, as the loop counts them. -/
def countDigits (magnitude : ℕ) : ℕ :=
  if magnitude < 10 then 1 else countDigits (magnitude / 10) + 1

def InI128 (i : ℤ) : Prop := -2 ^ 127 ≤ i ∧ i < 2 ^ 127

instance (i : ℤ) : Decidable (InI128 i) := inferInstanceAs (Decidable (_ ∧ _))

/-- The result of a checked operation. -/
def checkedI128 (i : ℤ) (detail : String) : Except String ℤ :=
  if InI128 i then .ok i else .error detail

def alignDecimal (unscaled : ℤ) (sourceScale targetScale : ℕ) : Except String ℤ := do
  let factor ← checkedI128 (10 ^ (targetScale - sourceScale)) "DECIMAL scale overflow"
  checkedI128 (unscaled * factor) "DECIMAL arithmetic overflow"

def decimalResultPrecision (unscaled : ℤ) (scale : ℕ) : Except String ℕ :=
  let precision := max (max (countDigits unscaled.natAbs) scale) 1
  if 38 < precision then .error "DECIMAL arithmetic exceeds precision 38" else .ok precision

/-- The coefficient and the scale of a result; division is not done here. -/
def combineDecimals (op : ArithmeticOp) (left right : ℤ × ℕ × ℕ) :
    Except String (Option (ℤ × ℕ)) :=
  match op with
  | .add | .sub => do
    let scale := max left.2.2 right.2.2
    let l ← alignDecimal left.1 left.2.2 scale
    let r ← alignDecimal right.1 right.2.2 scale
    let unscaled ← checkedI128 (if op = .add then l + r else l - r) "DECIMAL arithmetic overflow"
    .ok (some (unscaled, scale))
  | .mul =>
    if 255 < left.2.2 + right.2.2 then .error "DECIMAL scale overflow"
    else do
      let unscaled ← checkedI128 (left.1 * right.1) "DECIMAL arithmetic overflow"
      .ok (some (unscaled, left.2.2 + right.2.2))
  | .div | .mod => .ok none

section

-- what a FLOAT or a TEXT is coerced to, and the arithmetic of other values
variable (coerced : Value → Option (ℤ × ℕ × ℕ))
  (rest : ArithmeticOp → Value → Value → Except String Value) (a b : Value) (op : ArithmeticOp)

def decimalOperand (value : Value) : Except String (ℤ × ℕ × ℕ) :=
  let parts := match value.asDecimalParts, value with
    | some parts, _ => some parts
    | none, .integer i =>
      (Value.decimal i.1 (min (Nat.toDigits 10 i.1.natAbs).length 38) 0).asDecimalParts
    | none, _ => coerced value
  parts.elim (.error "DECIMAL arithmetic requires numeric operands") .ok

def decimalArithmeticOp : Except String (Option Value) :=
  if a.asDecimalParts.isNone ∧ b.asDecimalParts.isNone then .ok none
  else if a.isNull ∨ b.isNull then .ok (some (.null .decimal))
  else do
    let left ← decimalOperand coerced a
    let right ← decimalOperand coerced b
    match ← combineDecimals op left right with
    | none => .ok none
    | some (unscaled, scale) =>
      let precision ← decimalResultPrecision unscaled scale
      let result ← Value.tryDecimal unscaled precision scale
      .ok (some result)

def arithmeticOp : Except String Value := do
  match ← decimalArithmeticOp coerced a b op with
  | some result => .ok result
  | none => rest op a b

end

/-- `Op::Neg`. -/
def neg : Value → Value
  | .integer i => if h : InI64 (-i.1) then .integer ⟨-i.1, h⟩ else .null .integer
  | .float f => .float f.neg
  | .null type => .null type
  | _ => .null .null

/-! ## Exact results -/

/-- What an operation stands for. -/
inductive ArithmeticOp.Computes : ArithmeticOp → (ℚ → ℚ → ℚ) → Prop
  | add : Computes .add (· + ·)
  | sub : Computes .sub (· - ·)
  | mul : Computes .mul (· * ·)

/-- The coefficient and the scale of a DECIMAL or INTEGER value. -/
def Value.exactParts : Value → Option (ℤ × ℕ)
  | .integer i => some (i.1, 0)
  | value => value.asDecimalParts.map fun p => (p.1, p.2.2)

/-- A number of at most 38 digits. -/
def Writable (q : ℚ) : Prop :=
  ∃ (k : ℤ) (s : ℕ), s ≤ 38 ∧ k.natAbs < 10 ^ 38 ∧ q = k / 10 ^ s

/-- A DECIMAL value that is the number, or an error because the number has too many digits. -/
def AnswersExactly (q : ℚ) : Except String Value → Prop
  | .ok value => ∃ p, value.asDecimalParts = some p ∧ (p.1 : ℚ) / 10 ^ p.2.2 = q
  | .error _ => ¬ Writable q

/-- A coefficient at the scale of a sum. -/
def scaled (l r p : ℤ × ℕ) : ℤ := p.1 * 10 ^ (max l.2 r.2 - p.2)

/-- The result at the scale at which it is computed. -/
def atScale (op : ArithmeticOp) (l r : ℤ × ℕ) : ℤ × ℕ :=
  match op with
  | .add => (scaled l r l + scaled l r r, max l.2 r.2)
  | .sub => (scaled l r l - scaled l r r, max l.2 r.2)
  | _ => (l.1 * r.1, l.2 + r.2)

/-- There is room for the operands and the result at that scale. -/
structure HasRoom (op : ArithmeticOp) (l r : ℤ × ℕ) : Prop where
  operands : op ≠ .mul → InI128 (scaled l r l) ∧ InI128 (scaled l r r)
  scale : (atScale op l r).2 ≤ 38
  digits : (atScale op l r).1.natAbs < 10 ^ 38

theorem countDigits_le_iff (n k : ℕ) : countDigits n ≤ k + 1 ↔ n < 10 ^ (k + 1) := by
  induction k generalizing n with
  | zero =>
    rw [countDigits]
    split
    · omega
    · have : 0 < countDigits (n / 10) := by
        rw [countDigits]
        split <;> omega
      omega
  | succ k ih =>
    rw [countDigits, pow_succ]
    split
    · have := Nat.one_le_pow (k + 1) 10 (by decide)
      omega
    · rw [Nat.add_le_add_iff_right, ih]
      omega

section

variable {op : ArithmeticOp} {f : ℚ → ℚ → ℚ} {l r : ℤ × ℕ}

theorem atScale_value (hop : op.Computes f) (l r : ℤ × ℕ) :
    ((atScale op l r).1 : ℚ) / 10 ^ (atScale op l r).2 = f (l.1 / 10 ^ l.2) (r.1 / 10 ^ r.2) := by
  have hvalue : ∀ p : ℤ × ℕ, p.2 ≤ max l.2 r.2 →
      (scaled l r p : ℚ) / 10 ^ max l.2 r.2 = p.1 / 10 ^ p.2 := by
    intro p hp
    obtain ⟨d, hd⟩ := Nat.exists_eq_add_of_le hp
    rw [scaled, hd, Nat.add_sub_cancel_left, Int.cast_mul, Int.cast_pow, Int.cast_ofNat, pow_add]
    field_simp
  have hl := hvalue l (le_max_left ..)
  have hr := hvalue r (le_max_right ..)
  cases hop with
  | add => rw [atScale, Int.cast_add, add_div, hl, hr]
  | sub => rw [atScale, Int.cast_sub, sub_div, hl, hr]
  | mul =>
    change ((l.1 * r.1 : ℤ) : ℚ) / 10 ^ (l.2 + r.2) = _
    rw [Int.cast_mul, pow_add, mul_div_mul_comm]

theorem inI128_of_lt {i : ℤ} (h : i.natAbs < 10 ^ 38) : InI128 i := by
  unfold InI128
  omega

theorem checkedI128_bind {α : Type} (i : ℤ) (detail : String) (k : ℤ → Except String α) :
    checkedI128 i detail >>= k = if InI128 i then k i else .error detail := by
  unfold checkedI128
  split <;> rfl

theorem alignDecimal_eq (u : ℤ) {s t : ℕ} (ht : t ≤ 38) : alignDecimal u s t =
    checkedI128 (u * 10 ^ (t - s)) "DECIMAL arithmetic overflow" := by
  have hpow : (10 : ℤ) ^ (t - s) ≤ 10 ^ 38 := pow_le_pow_right₀ (by decide) (by omega)
  have hpos : (0 : ℤ) < 10 ^ (t - s) := by positivity
  rw [alignDecimal, checkedI128_bind, if_pos ⟨by omega, by omega⟩]

theorem combine_eq (hop : op.Computes f) (hl : l.2 ≤ 38) (hr : r.2 ≤ 38) (p q : ℕ) :
    combineDecimals op (l.1, p, l.2) (r.1, q, r.2) =
      if (op ≠ .mul → InI128 (scaled l r l) ∧ InI128 (scaled l r r)) ∧ InI128 (atScale op l r).1
      then .ok (some (atScale op l r)) else .error "DECIMAL arithmetic overflow" := by
  cases hop with
  | mul =>
    have hscale : ¬ 255 < l.2 + r.2 := by omega
    simp [combineDecimals, checkedI128_bind, atScale, hscale]
  | add | sub =>
    simp only [combineDecimals, alignDecimal_eq _ (max_le hl hr), checkedI128_bind, atScale,
      scaled]
    split_ifs <;> simp_all

/-- The precision of a result is found if there are digits for it. -/
theorem decimalResultPrecision_cases (w : ℤ) (s : ℕ) :
    (s ≤ 38 ∧ w.natAbs < 10 ^ 38 ∧ ∃ p, decimalResultPrecision w s = .ok p ∧
        validateDecimalShape w p s = .ok ()) ∨
      ¬ (s ≤ 38 ∧ w.natAbs < 10 ^ 38) ∧ decimalResultPrecision w s =
        .error "DECIMAL arithmetic exceeds precision 38" := by
  set p := max (max (countDigits w.natAbs) s) 1 with hp
  have h38 := countDigits_le_iff w.natAbs 37
  unfold decimalResultPrecision
  dsimp only
  rw [← hp]
  split
  · exact .inr ⟨by omega, rfl⟩
  · refine .inl ⟨by omega, by omega, p, rfl, ?_⟩
    have hw := (countDigits_le_iff w.natAbs (p - 1)).mp (by omega)
    rw [Nat.sub_add_cancel (by omega)] at hw
    exact Value.validateDecimalShape_of_lt (by omega) (by omega) (by omega) hw

theorem decimalOperand_eq (coerced : Value → Option (ℤ × ℕ × ℕ)) {v : Value}
    (h : v.exactParts = some l) :
    (∃ p, decimalOperand coerced v = .ok (l.1, p, l.2)) ∧ l.2 ≤ 38 ∧ v.isNull = false := by
  cases v with
  | integer i =>
    cases h
    have hi := i.2
    have hlen := (Nat.length_toDigits_le_iff (b := 10) (k := 38) (by decide) (by decide)).mpr
      (show i.1.natAbs < 10 ^ 38 by unfold InI64 I64.minValue I64.maxValue at hi; omega)
    have hshape : validateDecimalShape i.1 (Nat.toDigits 10 i.1.natAbs).length 0 = .ok () :=
      Value.validateDecimalShape_of_lt Nat.length_toDigits_pos hlen (Nat.zero_le _)
        (Digits.lt_pow_toDigits i.1.natAbs)
    refine ⟨⟨(Nat.toDigits 10 i.1.natAbs).length, ?_⟩, Nat.zero_le _, rfl⟩
    have hnone : (Value.integer i).asDecimalParts = none := rfl
    simp [decimalOperand, hnone, Nat.min_eq_left hlen, Value.asDecimalParts_decimal hshape]
  | extension data =>
    obtain ⟨p, hp, rfl⟩ := Option.map_eq_some_iff.mp h
    refine ⟨⟨p.2.1, ?_⟩, (Value.asDecimalParts_bounds hp).2, rfl⟩
    simp [decimalOperand, hp]
  | _ => cases h

section

variable (coerced : Value → Option (ℤ × ℕ × ℕ))
  (rest : ArithmeticOp → Value → Value → Except String Value) {a b : Value}
  (ha : a.exactParts = some l) (hb : b.exactParts = some r)
  (hdecimal : a.asDecimalParts.isSome ∨ b.asDecimalParts.isSome) (hop : op.Computes f)

include ha hb hdecimal hop

/-- The result at the computed scale if there is room for it, otherwise an error. -/
theorem arithmeticOp_cases :
    (HasRoom op l r ∧ ∃ v p, arithmeticOp coerced rest a b op = .ok v ∧
        v.asDecimalParts = some ((atScale op l r).1, p, (atScale op l r).2)) ∨
      ¬ HasRoom op l r ∧ ∃ e, arithmeticOp coerced rest a b op = .error e := by
  obtain ⟨⟨p, hl⟩, hls, hln⟩ := decimalOperand_eq coerced ha
  obtain ⟨⟨q, hr⟩, hrs, hrn⟩ := decimalOperand_eq coerced hb
  have hsome : ¬ (a.asDecimalParts.isNone ∧ b.asDecimalParts.isNone) := by
    simpa [← Option.isSome_iff_ne_none, imp_iff_not_or, or_comm] using hdecimal
  have hnull : ¬ (a.isNull = true ∨ b.isNull = true) := by simp [hln, hrn]
  rw [arithmeticOp, decimalArithmeticOp, if_neg hsome, if_neg hnull, hl, hr, ok_bind, ok_bind,
    combine_eq hop hls hrs]
  split
  · next hin =>
    obtain ⟨hs, hw, n, hn, hshape⟩ | ⟨hout, hn⟩ :=
      decimalResultPrecision_cases (atScale op l r).1 (atScale op l r).2
    · refine .inl ⟨⟨hin.1, hs, hw⟩, _, n, ?_, Value.asDecimalParts_decimal hshape⟩
      simp [ok_bind, hn, Value.tryDecimal, hshape]
    · refine .inr ⟨fun h => hout ⟨h.scale, h.digits⟩,
        "DECIMAL arithmetic exceeds precision 38", ?_⟩
      simp only [ok_bind, hn]
      rfl
  · next hout => exact .inr ⟨fun h => hout ⟨h.operands, inI128_of_lt h.digits⟩, _, rfl⟩

/-- **A sum, difference or product with a DECIMAL operand is exact, and an error only without 38
digits, exactly if there is room for it whenever it has 38 digits; the unary minus of a DECIMAL
value never is.** -/
theorem decimal_exact_iff :
    (AnswersExactly (f (l.1 / 10 ^ l.2) (r.1 / 10 ^ r.2)) (arithmeticOp coerced rest a b op) ↔
      (Writable (f (l.1 / 10 ^ l.2) (r.1 / 10 ^ r.2)) → HasRoom op l r)) ∧
    ∀ v p, v.asDecimalParts = some p →
      ¬ AnswersExactly (-(p.1 / 10 ^ p.2.2)) (.ok (neg v)) := by
  refine ⟨?_, fun v p hv => ?_⟩
  · obtain ⟨hfits, v, p, hv, hparts⟩ | ⟨hfits, e, he⟩ :=
      arithmeticOp_cases coerced rest ha hb hdecimal hop
    · rw [hv]
      exact iff_of_true ⟨_, hparts, atScale_value hop l r⟩ fun _ => hfits
    · rw [he]
      exact ⟨fun h hw => absurd hw h, fun h hw => hfits (h hw)⟩
  · cases v with
    | extension data =>
      rintro ⟨q, hq, -⟩
      cases hq
    | _ => cases hv

end

end

theorem exactParts_decimal {u : ℤ} {p s : ℕ} (h : validateDecimalShape u p s = .ok ()) :
    (Value.decimal u p s).exactParts = some (u, s) :=
  congrArg (Option.map fun p : ℤ × ℕ × ℕ => (p.1, p.2.2)) (Value.asDecimalParts_decimal h)

theorem decimal_exact_sum : AnswersExactly (15 / 10 + 2) (arithmeticOp (fun _ => none)
    (fun _ a _ => .ok a) (.decimal 15 2 1) (.integer ⟨2, by decide⟩) .add) := by
  have hshape : validateDecimalShape 15 2 1 = .ok () := by decide
  have h := (decimal_exact_iff (fun _ => none) (fun _ a _ => .ok a) (exactParts_decimal hshape)
    (b := .integer ⟨2, by decide⟩) rfl (.inl (by rw [Value.asDecimalParts_decimal hshape]; rfl))
    .add).1.mpr fun _ => ⟨by decide, by decide, by decide⟩
  simpa using h

/-- 1 with 19 digits after the point. -/
def oneAtScale19 : Value := .decimal (10 ^ 19) 20 19

/-- **1 times 1 is refused if both are written with 19 digits after the point; minus 1 is NULL.** -/
theorem unit_product_refused : Writable ((10 ^ 19 : ℤ) / 10 ^ 19 * ((10 ^ 19 : ℤ) / 10 ^ 19)) ∧
    oneAtScale19.exactParts = some (10 ^ 19, 19) ∧
    (∀ coerced rest, ∃ e, arithmeticOp coerced rest oneAtScale19 oneAtScale19 .mul = .error e) ∧
    neg oneAtScale19 = .null .null := by
  have hshape : validateDecimalShape (10 ^ 19) 20 19 = .ok () := by decide
  have hone := exactParts_decimal hshape
  refine ⟨⟨1, 0, by decide, by decide, by norm_num⟩, hone, ?_, rfl⟩
  intro coerced rest
  obtain ⟨hfits, -⟩ | ⟨-, he⟩ := arithmeticOp_cases coerced rest hone hone
    (.inl (by rw [Value.asDecimalParts_decimal hshape]; rfl)) .mul
  · exact absurd hfits.digits (by decide)
  · exact he

end RadixDb
