import RadixDb.Value.Agreement

/-!
# Is the order of index keys the SQL order?

SQL compares values with `Value.compare`, which refuses NULL, values of different types and values
of types without an order. Indexes keep their keys in the order of `Value.ordCmp`, which never
refuses. **Where SQL compares two values, the two orders agree exactly if the values are not dates
or the bytes of the two dates are ordered as the days are** (`index_order`).

SQL compares dates by their days; index keys are compared byte by byte, and the bytes of a date have
the least significant one first. So in an index day 256 is before day 1, and day 0 before day -1
(`dates_out_of_order`). Decimals are compared as the numbers they are, and read back from their
texts (`decimal_parts_exact`).
-/

namespace RadixDb

open Except Option Bytes

inductive CompareError where
  | nullComparison | incomparableTypes
deriving DecidableEq

def compareDecimalParts (leftUnscaled : ℤ) (leftScale : ℕ) (rightUnscaled : ℤ) (rightScale : ℕ) :
    Ordering :=
  (DecimalIdentity.fromParts leftUnscaled leftScale).cmpNumeric
    (DecimalIdentity.fromParts rightUnscaled rightScale)

namespace Value

def asDateDays : Value → Option ℤ
  | .extension data =>
    if data.head? = some DataType.date.asU8 ∧ data.length = 5 then some (leInt (data.drop 1))
    else none
  | _ => none

/-- The extensions of `compare_same_type`. External values have no order of their own here, and
types that are not listed have equality only. -/
def compareExtensions (a b : Bytes) : Except CompareError Ordering :=
  if a.head? = some externalValueMarker ∨ b.head? = some externalValueMarker then
    .error .incomparableTypes
  else if a.head? ≠ b.head? then .error .incomparableTypes
  else if a.head? = some DataType.uuid.asU8 then
    if a.length = 17 ∧ b.length = 17 then .ok (compareBytes (a.drop 1) (b.drop 1))
    else .error .incomparableTypes
  else if a.head? = some DataType.decimal.asU8 then
    match (Value.extension a).asDecimalParts, (Value.extension b).asDecimalParts with
    | some (leftUnscaled, _, leftScale), some (rightUnscaled, _, rightScale) =>
      .ok (compareDecimalParts leftUnscaled leftScale rightUnscaled rightScale)
    | _, _ => .error .incomparableTypes
  else if a.head? = some DataType.date.asU8 then
    match (Value.extension a).asDateDays, (Value.extension b).asDateDays with
    | some left, some right => .ok (cmp left right)
    | _, _ => .error .incomparableTypes
  else if isTemporalTag a = true then
    match (Value.extension a).artifactTemporalNanos, (Value.extension b).artifactTemporalNanos with
    | some left, some right => .ok (cmp left right)
    | _, _ => .error .incomparableTypes
  else if a.head? = some DataType.bytes.asU8 then
    .ok (compareBytes (a.drop 1) (b.drop 1))
  else if a = b then .ok .eq
  else .error .incomparableTypes

def compareSameType (v other : Value) : Except CompareError Ordering :=
  match v, other with
  | .integer a, .integer b => .ok (cmp a.1 b.1)
  | .float a, .float b => .ok (compareFloats a b)
  | .text a, .text b => .ok (compareBytes (textBytes a) (textBytes b))
  | .boolean a, .boolean b => .ok (cmp a b)
  | .timestamp a, .timestamp b => .ok (a.ordCmp b)
  | .extension a, .extension b => compareExtensions a b
  | _, _ => .error .incomparableTypes

/-- `Value::compare`, the comparison of SQL. -/
def compare (std : LowerExp) (v other : Value) : Except CompareError Ordering :=
  if v.isNull || other.isNull then
    if v.isNull && other.isNull then .ok .eq else .error .nullComparison
  else
    match compareCanonicalNumeric std v other with
    | some ordering => .ok ordering
    | none =>
      if v.dataType = other.dataType then v.compareSameType other else .error .incomparableTypes

/-- If both values are dates, their bytes are ordered as their days are. -/
def DatesInOrder (a b : Value) : Prop :=
  ∀ x y, a.asDateDays = some x → b.asDateDays = some y →
    compareBytes (intBytes 4 x) (intBytes 4 y) = cmp x y

/-! ## Extensions -/

section

variable {a b : Bytes} {o : Ordering}

/-- Extensions of one type that is neither TIME nor TIMESTAMP are compared by their payloads. -/
theorem cmpExtension_payload (hhead : a.head? = b.head?) (h : isTemporalTag a = false) :
    cmpExtension a b = compareBytes (a.drop 1) (b.drop 1) := by
  rw [cmpExtension, if_neg (by simp [h])]
  cases a with
  | nil =>
    cases b with
    | nil => rfl
    | cons t q => cases hhead
  | cons s p =>
    cases b with
    | nil => cases hhead
    | cons t q =>
      cases hhead
      rw [compareBytes, cmp_self_eq_eq, Ordering.eq_then]
      rfl

theorem isTemporalTag_false {t : DataType} (hhead : a.head? = some t.asU8)
    (h : t ≠ .civilTimestamp ∧ t ≠ .time) : isTemporalTag a = false := by
  simp [isTemporalTag, hhead, DataType.fromU8_asU8, h]

theorem asDateDays_eq_some {x : ℤ} (h : (Value.extension a).asDateDays = some x) :
    a.head? = some DataType.date.asU8 ∧ a.drop 1 = intBytes 4 x := by
  unfold asDateDays at h
  dsimp only at h
  split_ifs at h with hd
  refine ⟨hd.1, ?_⟩
  have hlen : (a.drop 1).length = 4 := by rw [List.length_drop, hd.2]
  rw [← some.inj h, ← hlen, intBytes_leInt]

theorem typeDiscriminant_of_head (h : a.head? ≠ some DataType.decimal.asU8) :
    (Value.extension a).typeDiscriminant = 5 := by
  have hnone : (Value.extension a).asDecimalParts = none := if_neg fun hd => h hd.1
  simp [typeDiscriminant, hnone]

/-- If two extensions that are not both decimals can be compared in SQL, they are of one rank, and
index keys compare them the same way except perhaps for dates. -/
theorem compareExtensions_ok (h : compareExtensions a b = .ok o)
    (hnum : ¬ ((Value.extension a).number.isSome ∧ (Value.extension b).number.isSome)) :
    (Value.extension a).typeDiscriminant = (Value.extension b).typeDiscriminant ∧
      (cmpExtension a b = o ↔ DatesInOrder (.extension a) (.extension b)) := by
  unfold compareExtensions at h
  rw [if_neg (fun h1 => by rw [if_pos h1] at h; cases h)] at h
  have hhead : a.head? = b.head? := by
    by_contra h2
    cases (if_pos h2).symm.trans h
  rw [if_neg (not_not.mpr hhead)] at h
  by_cases hdec : a.head? = some DataType.decimal.asU8
  case pos =>
    -- both decimals would have been compared as numbers
    rw [if_neg (by rw [hdec]; decide), if_pos hdec] at h
    split at h
    next ha hb => exact absurd ⟨by simp [number, ha], by simp [number, hb]⟩ hnum
    next => cases h
  have hrank : (Value.extension a).typeDiscriminant = (Value.extension b).typeDiscriminant := by
    rw [typeDiscriminant_of_head hdec, typeDiscriminant_of_head (hhead ▸ hdec)]
  refine ⟨hrank, ?_⟩
  by_cases hdate : a.head? = some DataType.date.asU8
  case pos =>
    rw [if_neg (by rw [hdate]; decide), if_neg hdec, if_pos hdate] at h
    rw [cmpExtension_payload hhead (isTemporalTag_false hdate (by decide))]
    split at h
    next x y ha hb =>
      rw [(asDateDays_eq_some ha).2, (asDateDays_eq_some hb).2, ← ok.inj h]
      constructor
      · intro heq x' y' hx' hy'
        rw [← some.inj (ha.symm.trans hx'), ← some.inj (hb.symm.trans hy'), heq]
      · exact fun hd => hd x y ha hb
    next => cases h
  refine (iff_true_right fun _ _ hx _ => absurd (asDateDays_eq_some hx).1 hdate).mpr ?_
  by_cases htemp : isTemporalTag a = true
  case pos =>
    rw [if_neg (fun hu => by simp [isTemporalTag_false hu (by decide)] at htemp), if_neg hdec,
      if_neg hdate, if_pos htemp] at h
    split at h
    next ha hb =>
      rw [cmpExtension, if_pos ⟨hhead, htemp⟩, ha, hb]
      exact ok.inj h
    next => cases h
  have hpay := cmpExtension_payload hhead (Bool.not_eq_true _ ▸ htemp)
  split_ifs at h with huuid hlen hbytes heq
  · exact hpay.trans (ok.inj h)
  · exact hpay.trans (ok.inj h)
  · rw [hpay, heq, ← ok.inj h]
    exact (compareBytes_compares _ _).eq_eq.mpr rfl

end

/-! ## All values -/

variable {std : LowerExp} {a b : Value} {o : Ordering}

theorem datesInOrder_of_none (h : a.asDateDays = none) : DatesInOrder a b := fun _ _ hx _ => by
  cases h.symm.trans hx

theorem compareSameType_ok (h : a.compareSameType b = .ok o)
    (hnum : ¬ (a.number.isSome ∧ b.number.isSome)) :
    a.typeDiscriminant = b.typeDiscriminant ∧ (a.cmpSameType b = o ↔ DatesInOrder a b) := by
  unfold compareSameType at h
  split at h
  · exact absurd ⟨rfl, rfl⟩ hnum
  · exact absurd ⟨rfl, rfl⟩ hnum
  · exact ⟨rfl, (iff_true_right (datesInOrder_of_none rfl)).mpr (ok.inj h)⟩
  · exact ⟨rfl, (iff_true_right (datesInOrder_of_none rfl)).mpr (ok.inj h)⟩
  · exact ⟨rfl, (iff_true_right (datesInOrder_of_none rfl)).mpr (ok.inj h)⟩
  · exact compareExtensions_ok h hnum
  · cases h

theorem asDateDays_of_number {n : Number} (h : a.number = some n) : a.asDateDays = none := by
  cases a with
  | extension data =>
    obtain ⟨p, hp, -⟩ := map_eq_some_iff.mp h
    refine if_neg fun hdate => ?_
    have hnone : (Value.extension data).asDecimalParts = none :=
      if_neg fun hd => absurd (hdate.1.symm.trans hd.1) (by decide)
    cases hnone.symm.trans hp
  | _ => rfl

/-- **Where SQL compares two values, the orders agree exactly if dates do.** -/
theorem ordCmp_eq_iff_datesInOrder (h : a.compare std b = .ok o) :
    a.ordCmp std b = o ↔ DatesInOrder a b := by
  unfold compare at h
  rcases ordCmp_cases std a b with ⟨ha, hb, heq, -⟩ | ⟨ha, hb, -⟩ | ⟨ha, hb, -⟩ |
    ⟨ha, hb, ⟨x, y, hx, hy, heq, -⟩ | ⟨hnum, hne, -⟩ | ⟨hnum, -, heq⟩⟩
  · rw [ha, hb] at h
    have hdate : a.asDateDays = none := by
      cases a with
      | null s => rfl
      | _ => cases ha
    exact (iff_true_right (datesInOrder_of_none hdate)).mpr (heq.trans (ok.inj h))
  · rw [ha, hb] at h
    cases h
  · rw [ha, hb] at h
    cases h
  · rw [ha, hb, compareCanonicalNumeric_eq, hx, hy] at h
    exact (iff_true_right (datesInOrder_of_none (asDateDays_of_number hx))).mpr
      (heq.trans (ok.inj h))
  all_goals
    simp only [ha, hb, Bool.or_self, Bool.false_eq_true, if_false,
      compareCanonicalNumeric_none std hnum] at h
    split_ifs at h with htype
    have hsame := compareSameType_ok h hnum
  · exact absurd hsame.1 hne
  · rw [heq]
    exact hsame.2

theorem not_numbers_of_date {x : ℤ} (h : a.asDateDays = some x) :
    ¬ (a.number.isSome ∧ b.number.isSome) := by
  rintro ⟨hnum, -⟩
  obtain ⟨n, hn⟩ := isSome_iff_exists.mp hnum
  rw [asDateDays_of_number hn] at h
  cases h

/-- Dates are compared by their days in SQL, and by their bytes in an index. -/
theorem compare_dates (std : LowerExp) {x y : ℤ} (hx : a.asDateDays = some x)
    (hy : b.asDateDays = some y) : a.compare std b = .ok (cmp x y) ∧
      a.ordCmp std b = compareBytes (intBytes 4 x) (intBytes 4 y) := by
  cases a with
  | extension l =>
    cases b with
    | extension r =>
      obtain ⟨hl, hlx⟩ := asDateDays_eq_some hx
      obtain ⟨hr, hry⟩ := asDateDays_eq_some hy
      have hnone := not_numbers_of_date (b := .extension r) hx
      have hrank : (Value.extension l).typeDiscriminant = (Value.extension r).typeDiscriminant := by
        rw [typeDiscriminant_of_head (by rw [hl]; decide),
          typeDiscriminant_of_head (by rw [hr]; decide)]
      have htype : (Value.extension l).dataType = (Value.extension r).dataType := by
        rw [dataType, dataType, hl, hr]
      constructor
      · have hmarker : DataType.date.asU8 ≠ externalValueMarker := by decide
        have huuid : DataType.date.asU8 ≠ DataType.uuid.asU8 := by decide
        have hdecimal : DataType.date.asU8 ≠ DataType.decimal.asU8 := by decide
        simp [compare, isNull, compareCanonicalNumeric_none std hnone, htype, compareSameType,
          compareExtensions, hl, hr, hx, hy, hmarker, huuid, hdecimal]
      · simp only [ordCmp, isNull, compareCanonicalNumeric_none std hnone, hrank, ne_eq,
          not_true_eq_false, if_false, cmpSameType]
        rw [cmpExtension_payload (hl.trans hr.symm) (isTemporalTag_false hl (by decide)), hlx, hry]
    | _ => cases hy
  | _ => cases hx

/-- **The order of index keys is the SQL order exactly as far as dates are in order**: for two
values that SQL compares, and for a list of such values that an ordered tree enumerates. -/
theorem index_order (std : LowerExp) :
    (∀ a b o, a.compare std b = .ok o → (a.ordCmp std b = o ↔ DatesInOrder a b)) ∧
      ∀ l : List Value, (∀ a ∈ l, ∀ b ∈ l, ∃ o, a.compare std b = .ok o) →
        l.Pairwise (fun a b => a.ordCmp std b = .lt) →
        (l.Pairwise (fun a b => a.compare std b = .ok .lt) ↔ l.Pairwise DatesInOrder) := by
  refine ⟨fun a b o => ordCmp_eq_iff_datesInOrder, fun l hl hsorted => ?_⟩
  have hpair : ∀ a ∈ l, ∀ b ∈ l, a.ordCmp std b = .lt →
      (a.compare std b = .ok .lt ↔ DatesInOrder a b) := fun a ha b hb hlt => by
    obtain ⟨o, ho⟩ := hl a ha b hb
    rw [← ordCmp_eq_iff_datesInOrder ho, hlt, ho, ok.injEq, eq_comm]
  constructor
  · intro h
    exact (hsorted.and h).imp_of_mem fun ha hb hab => (hpair _ ha _ hb hab.1).mp hab.2
  · intro h
    exact (hsorted.and h).imp_of_mem fun ha hb hab => (hpair _ ha _ hb hab.1).mpr hab.2

/-- Dates that are before one another in SQL and after one another in an index: day 1 and day 256,
and day -1 and day 0. -/
theorem dates_out_of_order :
    let std := LowerExp.reference
    let day (days : ℤ) : Value := .extension (DataType.date.asU8 :: intBytes 4 days)
    (∀ json, (day 1).validateShape json = .ok () ∧ (day 256).validateShape json = .ok () ∧
      (day (-1)).validateShape json = .ok () ∧ (day 0).validateShape json = .ok ()) ∧
    (day 1).compare std (day 256) = .ok .lt ∧ (day 1).ordCmp std (day 256) = .gt ∧
    (day (-1)).compare std (day 0) = .ok .lt ∧ (day (-1)).ordCmp std (day 0) = .gt := by
  exact ⟨fun json => ⟨rfl, rfl, rfl, rfl⟩, by decide +kernel⟩

end Value

/-! ## Decimals as texts -/

open List Digits

/-- The code points with the property White_Space. -/
def isWhitespace (c : Char) : Bool :=
  let n := c.toNat
  (9 ≤ n ∧ n ≤ 13) ∨ (8192 ≤ n ∧ n ≤ 8202) ∨
    n ∈ [32, 133, 160, 5760, 8232, 8233, 8239, 8287, 12288]

def trim (s : List Char) : List Char :=
  ((s.dropWhile isWhitespace).reverse.dropWhile isWhitespace).reverse

def parseDecimalStr (s : List Char) : Option (ℤ × ℕ × ℕ) := do
  let (negative, body) := splitSign (trim s)
  let (int, frac) := (splitOnce '.' body).getD (body, [])
  -- a second point is not a digit; leading zeros do not change the number
  let magnitude ← parseDigits (int ++ frac)
  let normalized := (int ++ frac).dropWhile (· = '0')
  let precision := max (max normalized.length frac.length) 1
  if maxDecimalPrecision < frac.length ∨ maxDecimalPrecision < precision then none
  else some (if negative then -magnitude else magnitude, precision, frac.length)

theorem trim_formatDecimalParts (unscaled : ℤ) (scale : ℕ) :
    trim (formatDecimalParts unscaled scale) = formatDecimalParts unscaled scale := by
  have hchar : ∀ c ∈ formatDecimalParts unscaled scale, isWhitespace c = false := by
    obtain ⟨int, frac, hdig, -, -, -, heq⟩ := formatDecimalParts_cases unscaled scale
    intro c hc
    have hcases : c = '-' ∨ c = '.' ∨ c ∈ int ++ frac := by
      rw [heq] at hc
      split_ifs at hc <;> simp at hc ⊢ <;> tauto
    rcases hcases with rfl | rfl | hc
    · rfl
    · rfl
    · have h := toNat_of_isDigit (hdig c hc)
      rw [show '0'.toNat = 48 from rfl] at h
      simp [isWhitespace]
      omega
  have hkeep : ∀ {l : List Char}, (∀ c ∈ l, isWhitespace c = false) →
      l.dropWhile isWhitespace = l := by
    rintro (_ | ⟨c, l⟩) h
    · rfl
    · exact dropWhile_cons_of_neg (by simp [h])
  rw [trim, hkeep hchar, hkeep fun c hc => hchar c (mem_reverse.mp hc), reverse_reverse]

/-- Digits without leading zeros are as few as the number has. -/
theorem length_dropWhile_le {l : List Char} (h : AllDigits l) {k : ℕ} (hk : value l < 10 ^ k) :
    (l.dropWhile (· = '0')).length ≤ k := by
  induction l with
  | nil => exact Nat.zero_le _
  | cons c l ih =>
    rw [value_cons] at hk
    by_cases hc : c = '0'
    · rw [dropWhile_cons_of_pos (by simpa using hc)]
      exact ih h.tail (by omega)
    · rw [dropWhile_cons_of_neg (by simpa using hc), length_cons]
      have hdig := (toNat_of_isDigit (h c mem_cons_self)).1
      have hne : c.toNat ≠ '0'.toNat := fun heq => hc (Char.toNat_inj.mp heq)
      have hpos : 1 ≤ c.toNat - '0'.toNat := by omega
      have hle := Nat.le_mul_of_pos_left (10 ^ l.length) hpos
      exact (Nat.pow_lt_pow_iff_right (a := 10) (by decide)).mp (by omega)

/-- **Decimals as numbers and as texts.** -/
theorem decimal_parts_exact {u v : ℤ} {s t : ℕ} (hu : -2 ^ 127 ≤ u ∧ u < 2 ^ 127) (hs : s ≤ 38)
    (hv : -2 ^ 127 ≤ v ∧ v < 2 ^ 127) (ht : t ≤ 38) :
    (compareDecimalParts u s v t).Compares (u / 10 ^ s : ℚ) (v / 10 ^ t) ∧
    (∀ n, (DecimalIdentity.fromParts u s).exactI64 = some n ↔ InI64 n ∧ (u / 10 ^ s : ℚ) = n) ∧
    (u.natAbs < 10 ^ 38 →
      ∃ p, parseDecimalStr (formatDecimalParts u s) = some (u, p, s)) := by
  refine ⟨?_, fun n => ?_, fun hdig => ?_⟩
  · rw [← DecimalIdentity.value_fromParts, ← DecimalIdentity.value_fromParts]
    exact DecimalIdentity.cmpNumeric_compares
      (DecimalIdentity.small_new (by omega) (by omega) (by omega))
      (DecimalIdentity.small_new (by omega) (by omega) (by omega))
  · rw [DecimalIdentity.exactI64_eq_some_iff, DecimalIdentity.value_fromParts]
  · obtain ⟨int, frac, body, hall, hne, hval, rfl, hsign, hparts⟩ := split_formatDecimalParts u s
    have hlen := length_dropWhile_le hall (hval ▸ hdig)
    have hmax : maxDecimalPrecision = 38 := rfl
    refine ⟨max (max ((int ++ frac).dropWhile (· = '0')).length frac.length) 1, ?_⟩
    simp only [parseDecimalStr, trim_formatDecimalParts, hsign, hparts, parseDigits_eq hall hne]
    rw [Option.bind_eq_bind, Option.bind_some, if_neg (by omega), hval]
    congr 2
    simp only [decide_eq_true_eq]
    omega

theorem decimal_parts_exact_half :
    ∃ p, parseDecimalStr (formatDecimalParts 15 1) = some (15, p, 1) :=
  (decimal_parts_exact (v := 0) (t := 0) (by decide) (by decide) (by decide) (by decide)).2.2
    (by decide)

end RadixDb
