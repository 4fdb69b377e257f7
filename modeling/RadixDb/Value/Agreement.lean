import RadixDb.Lib.Agreement
import RadixDb.Value.Numbers
import RadixDb.Value.Shortest

/-!
# Do order, equality and hash words of values agree?

All values have a place in one linear order (`Value.key`): NULL, booleans, numbers, texts, instants,
extensions. Comparison follows it, except perhaps among numbers: an integer is compared with a float
exactly, and a decimal is compared with what is printed for the float. **The three relations agree
exactly if every float that is a 64-bit integer is printed exactly** (`agrees_iff`).

`2 ^ 60` is not. It is printed as `1152921504606847000`, so the integer `1152921504606846976` equals
the float and equals the decimal of the same digits, but the decimal is below the float
(`disagree_two_pow_60`).
-/

namespace RadixDb.Value

open List Bytes Option

/-- The values of a valid shape whose floats are in `F`. -/
def admitted (json : Json) (F : Set F64) : Set Value :=
  {v | v.validateShape json = .ok () ∧ ∀ f, v = .float f → f ∈ F}

/-- The place of an extension that is no number: its type, then nanoseconds or bytes. -/
def extensionKey (data : Bytes) : NumberKey ×ₗ Bytes :=
  if isTemporalTag data then
    toLex (toLex (((data.headD 0).toNat : ℤ), (Bytes.leInt (data.drop 1) : ℚ)), [])
  else toLex (toLex (((data.headD 0).toNat : ℤ), 0), data.drop 1)

/-- The place of a value: its type's rank, and its place in the type. `place` says where numbers
stand. -/
def keyBy (place : Number → NumberKey) (v : Value) : ℕ ×ₗ (NumberKey ×ₗ Bytes) :=
  toLex (v.typeDiscriminant,
    match v.number with
    | some n => toLex (place n, [])
    | none =>
      match v with
      | .boolean b => toLex (toLex ((b.toNat : ℤ), 0), [])
      | .text s => toLex (toLex (0, 0), textBytes s)
      | .timestamp t => toLex (toLex (t.seconds, (t.nanos : ℚ)), [])
      | .extension data => extensionKey data
      | _ => toLex (toLex (0, 0), []))

/-- The place of a value where floats stand at the number printed for them. -/
def key (std : LowerExp) : Value → ℕ ×ₗ (NumberKey ×ₗ Bytes) := keyBy (Number.key std)

/-! ## Extensions -/

section

variable {json : Json}

theorem isTemporalTag_cons {tag : UInt8} {payload : Bytes} :
    isTemporalTag (tag :: payload) = true ↔ DataType.fromU8 tag = some .civilTimestamp ∨
      DataType.fromU8 tag = some .time := by
  rw [isTemporalTag, Bool.or_eq_true]
  exact or_congr decide_eq_true_iff decide_eq_true_iff

/-- An extension of a valid shape has a type, and TIME and TIMESTAMP have eight more bytes. -/
theorem extension_shape {data : Bytes} (h : (Value.extension data).validateShape json = .ok ()) :
    ∃ tag payload, data = tag :: payload ∧ (isTemporalTag data = true → payload.length = 8) := by
  cases data with
  | nil => cases h
  | cons tag payload =>
    refine ⟨tag, payload, rfl, fun htemp => ?_⟩
    unfold validateShape at h
    have hne : tag ≠ externalValueMarker := by
      rintro rfl
      exact absurd (isTemporalTag_cons.mp htemp) (by decide)
    simp only [head?_cons, some.injEq, if_neg hne, bind_some, drop_succ_cons, drop_zero] at h
    by_contra hlen
    rcases isTemporalTag_cons.mp htemp with ht | ht
    all_goals
      simp only [ht, validateExtensionPayload, temporalPayloadNanos, if_neg hlen] at h
      cases h

theorem compares_bytes_key {o : Ordering} {x y : NumberKey} (h : o.Compares x y) :
    o.Compares (toLex (x, []) : NumberKey ×ₗ Bytes) (toLex (y, [])) :=
  (StrictMono.compares (f := fun x => (toLex (x, []) : NumberKey ×ₗ Bytes))
    fun _ _ hlt => Prod.Lex.left _ _ hlt).mpr h

theorem extensionKey_cons (tag : UInt8) (payload : Bytes) :
    ∃ (q : ℚ) (l : Bytes), extensionKey (tag :: payload) =
      toLex (toLex ((tag.toNat : ℤ), q), l) := by
  unfold extensionKey
  split
  exacts [⟨_, _, rfl⟩, ⟨_, _, rfl⟩]

/-- **Extensions are compared by their keys.** -/
theorem cmpExtension_compares {a b : Bytes} (ha : (Value.extension a).validateShape json = .ok ())
    (hb : (Value.extension b).validateShape json = .ok ()) :
    (cmpExtension a b).Compares (extensionKey a) (extensionKey b) := by
  obtain ⟨s, p, rfl, hp⟩ := extension_shape ha
  obtain ⟨t, q, rfl, hq⟩ := extension_shape hb
  -- different types: the first byte decides
  have htags : ∀ {s t : UInt8} (p q : Bytes), s < t →
      extensionKey (s :: p) < extensionKey (t :: q) := by
    intro s t p q hst
    obtain ⟨x, l, hx⟩ := extensionKey_cons s p
    obtain ⟨y, m, hy⟩ := extensionKey_cons t q
    rw [hx, hy]
    exact Prod.Lex.left _ _ (NumberKey.lt_of_rank (Int.ofNat_lt.mpr hst))
  unfold cmpExtension
  rcases lt_trichotomy s t with hst | rfl | hst
  · rw [if_neg (by simp [hst.ne]), (compareBytes_compares (s :: p) (t :: q)).eq_lt.mpr
      (List.Lex.rel hst)]
    exact htags p q hst
  · by_cases htemp : isTemporalTag (s :: p) = true
    · have htemp' : isTemporalTag (s :: q) = true := htemp
      have hnanos : ∀ {r : Bytes}, isTemporalTag (s :: r) = true → r.length = 8 →
          (Value.extension (s :: r)).artifactTemporalNanos = some (leInt r) :=
        fun {r} h1 h2 => by
          simp [artifactTemporalNanos, h1, h2]
      rw [if_pos ⟨rfl, htemp⟩, hnanos htemp (hp htemp), hnanos htemp' (hq htemp')]
      simp only [extensionKey, htemp, htemp', if_true, drop_succ_cons, drop_zero, headD_cons]
      exact compares_bytes_key ((compares_right _).mpr (Int.cast_strictMono.compares.mpr
        (cmp_compares (leInt p) (leInt q))))
    · have htemp' : ¬ isTemporalTag (s :: q) = true := htemp
      rw [if_neg (fun h => htemp h.2)]
      simp only [extensionKey, htemp, htemp', drop_succ_cons, drop_zero,
        headD_cons, Bool.false_eq_true, if_false]
      refine (compares_right _).mpr ((StrictMono.compares (f := fun r : Bytes => s :: r)
        fun _ _ hlt => ?_).mp (compareBytes_compares (s :: p) (s :: q)))
      exact cons_lt_cons_iff.mpr (.inr ⟨rfl, hlt⟩)
  · rw [if_neg (by simp [hst.ne']), (compareBytes_compares (s :: p) (t :: q)).eq_gt.mpr
      (List.Lex.rel hst)]
    exact htags q p hst

theorem extensionKey_inj {a b : Bytes} (ha : (Value.extension a).validateShape json = .ok ())
    (hb : (Value.extension b).validateShape json = .ok ())
    (h : extensionKey a = extensionKey b) : a = b := by
  obtain ⟨s, p, rfl, hp⟩ := extension_shape ha
  obtain ⟨t, q, rfl, hq⟩ := extension_shape hb
  have hst : s = t := by
    obtain ⟨x, l, hx⟩ := extensionKey_cons s p
    obtain ⟨y, m, hy⟩ := extensionKey_cons t q
    rw [hx, hy] at h
    have h : ((s.toNat : ℤ)) = t.toNat :=
      congrArg (fun k : NumberKey ×ₗ Bytes => (ofLex (ofLex k).1).1) h
    exact UInt8.toNat_inj.mp (by exact_mod_cast h)
  subst hst
  congr 1
  by_cases htemp : isTemporalTag (s :: p) = true
  · have htemp' : isTemporalTag (s :: q) = true := htemp
    simp only [extensionKey, htemp, htemp', if_true, drop_succ_cons, drop_zero] at h
    have h : ((leInt p : ℤ) : ℚ) = (leInt q : ℤ) :=
      congrArg (fun k : NumberKey ×ₗ Bytes => (ofLex (ofLex k).1).2) h
    exact leInt_inj ((hp htemp).trans (hq htemp').symm) (Int.cast_inj.mp h)
  · have htemp' : ¬ isTemporalTag (s :: q) = true := htemp
    simp only [extensionKey, htemp, htemp', drop_succ_cons, drop_zero,
      Bool.false_eq_true, if_false] at h
    exact congrArg (fun k : NumberKey ×ₗ Bytes => (ofLex k).2) h

end

/-! ## Decimals -/

section

variable {unscaled : ℤ} {precision scale : ℕ}

theorem validateDecimalShape_of_lt (hp : 1 ≤ precision) (hp' : precision ≤ 38)
    (hs : scale ≤ precision) (hu : unscaled.natAbs < 10 ^ precision) :
    validateDecimalShape unscaled precision scale = .ok () := by
  have hdig : (Nat.toDigits 10 unscaled.natAbs).length ≤ precision :=
    (Nat.length_toDigits_le_iff (by decide) (by omega)).mpr hu
  unfold validateDecimalShape
  rw [if_neg (not_not.mpr ⟨hp, hp'⟩), if_neg (not_lt.mpr hs), if_neg (not_lt.mpr hdig)]

section

variable (h : validateDecimalShape unscaled precision scale = .ok ())

include h

theorem leInt_decimal :
    Bytes.leInt (Bytes.intBytes 16 unscaled) = unscaled ∧
      (UInt8.ofNat precision).toNat = precision ∧ (UInt8.ofNat scale).toNat = scale := by
  obtain ⟨h2, h3, h4⟩ := validateDecimalShape_ok h
  have hu := h4.trans_le (Nat.pow_le_pow_right (by decide) h2)
  refine ⟨leInt_intBytes (by omega) (by omega), ?_, ?_⟩
  · rw [UInt8.toNat_ofNat']
    omega
  · rw [UInt8.toNat_ofNat']
    omega

theorem asDecimalParts_decimal :
    (decimal unscaled precision scale).asDecimalParts = some (unscaled, precision, scale) := by
  obtain ⟨hu, hp, hs⟩ := leInt_decimal h
  simp [decimal, asDecimalParts, hu, hp, hs, h]

theorem number_decimal :
    (decimal unscaled precision scale).number = some (.decimal unscaled scale) := by
  have hparts := asDecimalParts_decimal h
  rw [decimal] at hparts ⊢
  rw [number, hparts]
  rfl

end

theorem validateShape_decimal (json : Json)
    (h : validateDecimalShape unscaled precision scale = .ok ()) :
    (decimal unscaled precision scale).validateShape json = .ok () := by
  obtain ⟨hu, hp, hs⟩ := leInt_decimal h
  have hmarker : DataType.decimal.asU8 ≠ externalValueMarker := by decide
  simp [decimal, validateShape, validateExtensionPayload, DataType.fromU8_asU8, hmarker, hu, hp, hs,
    h]

end

/-! ## All values -/

section

variable {std : LowerExp} {json : Json} {a b : Value}

variable {n : Number} {place : Number → NumberKey}

theorem typeDiscriminant_of_number (h : a.number = some n) : a.typeDiscriminant = 2 := by
  cases a with
  | extension data =>
    obtain ⟨p, hp, -⟩ := map_eq_some_iff.mp h
    simp [typeDiscriminant, hp]
  | integer i | float f => rfl
  | _ => cases h

theorem rank_pos (h : a.isNull = false) : 0 < a.typeDiscriminant := by
  cases a with
  | null s => cases h
  | extension data =>
    rw [typeDiscriminant]
    split <;> decide
  | _ => exact Nat.succ_pos _

theorem number_isSome_iff (v : Value) : v.number.isSome = true ↔ v.typeDiscriminant = 2 := by
  cases v with
  | extension data =>
    cases hp : (Value.extension data).asDecimalParts <;> simp [number, typeDiscriminant, hp]
  | _ => simp [number, typeDiscriminant]

theorem same_type (hna : a.isNull = false) (hn : ¬ (a.number.isSome ∧ b.number.isSome))
    (heq : a.typeDiscriminant = b.typeDiscriminant) :
    (∃ s t, a = .text s ∧ b = .text t) ∨ (∃ x y, a = .boolean x ∧ b = .boolean y) ∨
      (∃ t u, a = .timestamp t ∧ b = .timestamp u) ∨
      ∃ l r, a = .extension l ∧ b = .extension r ∧ a.asDecimalParts = none ∧
        b.asDecimalParts = none := by
  have ha : a.typeDiscriminant ≠ 2 := fun h =>
    hn ⟨(number_isSome_iff a).mpr h, (number_isSome_iff b).mpr (heq ▸ h)⟩
  have hext : ∀ {data : Bytes}, (Value.extension data).typeDiscriminant ≠ 2 →
      (Value.extension data).typeDiscriminant = 5 ∧
        (Value.extension data).asDecimalParts = none := by
    intro data hne
    cases hp : (Value.extension data).asDecimalParts <;> simp_all [typeDiscriminant]
  have hb : b.typeDiscriminant ≠ 2 := heq ▸ ha
  cases a with
  | null s => cases hna
  | integer i | float f => exact absurd rfl ha
  | text s | boolean x | timestamp t =>
    cases b with
    | extension data => cases heq.trans (hext hb).1
    | _ => first | (cases heq; done) | simp
  | extension l =>
    cases b with
    | extension r => exact .inr (.inr (.inr ⟨l, r, rfl, rfl, (hext ha).2, (hext hb).2⟩))
    | _ => cases (hext ha).1.symm.trans heq

theorem textBytes_injective : Function.Injective textBytes := fun _ _ h =>
  String.toByteArray_inj.mp (ByteArray.ext (Array.toList_inj.mp h))

theorem compares_boolean (x y : Bool) : (cmp x y).Compares
    (toLex ((x.toNat : ℤ), (0 : ℚ)) : NumberKey) (toLex ((y.toNat : ℤ), 0)) := by
  cases x <;> cases y
  exacts [rfl, NumberKey.lt_of_rank (by decide), NumberKey.lt_of_rank (by decide), rfl]

theorem compares_timestamp (t u : DateTime) : (t.ordCmp u).Compares
    (toLex (t.seconds, (t.nanos : ℚ)) : NumberKey) (toLex (u.seconds, (u.nanos : ℚ))) := by
  unfold DateTime.ordCmp
  have hs := cmp_compares t.seconds u.seconds
  revert hs
  cases cmp t.seconds u.seconds with
  | lt | gt => exact fun h => NumberKey.lt_of_rank h
  | eq =>
    intro h
    rw [h, Ordering.eq_then]
    exact (compares_right _).mpr (Nat.strictMono_cast.compares.mpr (cmp_compares t.nanos u.nanos))

theorem timestamp_eq {t u : DateTime}
    (h : (toLex (t.seconds, (t.nanos : ℚ)) : NumberKey) = toLex (u.seconds, (u.nanos : ℚ))) :
    t = u := by
  obtain ⟨hs, hn⟩ := Prod.mk.inj (toLex_inj.mp h)
  cases t
  cases u
  cases hs
  cases Nat.cast_injective hn
  rfl

theorem compareCanonicalNumeric_none (std : LowerExp)
    (h : ¬ (a.number.isSome ∧ b.number.isSome)) : compareCanonicalNumeric std a b = none := by
  rw [compareCanonicalNumeric_eq]
  cases hx : a.number with
  | none => rfl
  | some x =>
    cases hy : b.number with
    | none => rfl
    | some y => exact absurd ⟨by rw [hx]; rfl, by rw [hy]; rfl⟩ h

theorem isNull_of_number (h : a.number = some n) : a.isNull = false := by
  cases a with
  | null s => cases h
  | _ => rfl

theorem ordCmp_number {x y : Number} (hx : a.number = some x) (hy : b.number = some y) :
    a.ordCmp std b = x.compare std y := by
  have hnum := compareCanonicalNumeric_eq std a b
  rw [hx, hy] at hnum
  rw [ordCmp, isNull_of_number hx, isNull_of_number hy]
  simp only [hnum]
  rfl

/-- Comparing: NULL is first, then numbers are compared, then types, then values of one type. -/
theorem ordCmp_cases (std : LowerExp) (a b : Value) :
    a.isNull = true ∧ b.isNull = true ∧ a.ordCmp std b = .eq ∧ a.eq std b = true ∨
    a.isNull = true ∧ b.isNull = false ∧ a.ordCmp std b = .lt ∧ a.eq std b = false ∨
    a.isNull = false ∧ b.isNull = true ∧ a.ordCmp std b = .gt ∧ a.eq std b = false ∨
    a.isNull = false ∧ b.isNull = false ∧
      ((∃ x y, a.number = some x ∧ b.number = some y ∧ a.ordCmp std b = x.compare std y ∧
          a.eq std b = (x.compare std y == .eq)) ∨
        ¬ (a.number.isSome ∧ b.number.isSome) ∧ a.typeDiscriminant ≠ b.typeDiscriminant ∧
          a.ordCmp std b = cmp a.typeDiscriminant b.typeDiscriminant ∧ a.eq std b = false ∨
        ¬ (a.number.isSome ∧ b.number.isSome) ∧ a.typeDiscriminant = b.typeDiscriminant ∧
          a.ordCmp std b = a.cmpSameType b) := by
  have hnumeric := compareCanonicalNumeric_eq std a b
  cases hna : a.isNull with
  | true =>
    cases a with
    | null s =>
      cases b with
      | null t => exact .inl ⟨rfl, rfl, rfl, rfl⟩
      | extension r =>
        refine .inr (.inl ⟨rfl, rfl, rfl, ?_⟩)
        unfold Value.eq
        rw [hnumeric]
        rfl
      | _ => exact .inr (.inl ⟨rfl, rfl, rfl, rfl⟩)
    | _ => cases hna
  | false =>
    cases hnb : b.isNull with
    | true =>
      cases b with
      | null t =>
        have hnone : compareCanonicalNumeric std a (.null t) = none := by
          rw [hnumeric]
          cases a.number <;> rfl
        refine .inr (.inr (.inl ⟨rfl, rfl, ?_, ?_⟩))
        · rw [ordCmp, hna]
          rfl
        · unfold Value.eq
          rw [hnone]
          cases a with
          | null s => cases hna
          | _ => rfl
      | _ => cases hnb
    | false =>
      refine .inr (.inr (.inr ⟨rfl, rfl, ?_⟩))
      by_cases hnum : a.number.isSome ∧ b.number.isSome
      · left
        obtain ⟨x, hx⟩ := isSome_iff_exists.mp hnum.1
        obtain ⟨y, hy⟩ := isSome_iff_exists.mp hnum.2
        rw [hx, hy] at hnumeric
        have hnumeric : compareCanonicalNumeric std a b = some (x.compare std y) := hnumeric
        refine ⟨x, y, hx, hy, ordCmp_number hx hy, ?_⟩
        unfold Value.eq
        rw [hnumeric]
      · right
        have hnone := compareCanonicalNumeric_none std hnum
        have hcmp : a.ordCmp std b = if a.typeDiscriminant ≠ b.typeDiscriminant then
            cmp a.typeDiscriminant b.typeDiscriminant else a.cmpSameType b := by
          rw [ordCmp, hna, hnb]
          simp only [hnone]
        by_cases heq : a.typeDiscriminant = b.typeDiscriminant
        · right
          rw [if_neg (not_not.mpr heq)] at hcmp
          exact ⟨hnum, heq, hcmp⟩
        · left
          rw [if_pos heq] at hcmp
          refine ⟨hnum, heq, hcmp, ?_⟩
          unfold Value.eq
          rw [hnone]
          cases a with
          | null s => cases hna
          | extension l =>
            cases b with
            | extension r =>
              refine beq_eq_false_iff_ne.mpr fun hlr => heq ?_
              rw [hlr]
            | _ => rfl
          | _ =>
            -- two values of one constructor would be of one type
            cases b <;> first | rfl | exact absurd rfl heq

theorem exact_of_number (hx : ∀ f, a = .float f → PrintedExactly std f)
    (hn : a.number = some n) : n.Exact std := by
  cases a with
  | float f =>
    cases hn
    exact hx f rfl
  | integer i =>
    cases hn
    trivial
  | extension data =>
    obtain ⟨p, -, rfl⟩ := map_eq_some_iff.mp hn
    trivial
  | _ => cases hn

theorem keyBy_of_number (h : a.number = some n) :
    a.keyBy place = toLex (2, toLex (place n, [])) := by
  unfold keyBy
  rw [typeDiscriminant_of_number h, h]

theorem number_of_ext {data : Bytes} (h : (Value.extension data).asDecimalParts = none) :
    (Value.extension data).number = none := by
  rw [number, h]
  rfl

/-- **Values are compared by their places**, if numbers are. -/
theorem ordCmp_compares (hva : a.validateShape json = .ok ()) (hvb : b.validateShape json = .ok ())
    (hnum : ∀ x y, a.number = some x → b.number = some y →
      (x.compare std y).Compares (place x) (place y)) :
    (a.ordCmp std b).Compares (a.keyBy place) (b.keyBy place) := by
  have hnull : ∀ {v : Value}, v.isNull = true → ∃ s, v = .null s := fun {v} hv => by
    cases v with
    | null s => exact ⟨s, rfl⟩
    | _ => cases hv
  rcases ordCmp_cases std a b with ⟨ha, hb, heq, -⟩ | ⟨ha, hb, heq, -⟩ | ⟨ha, hb, heq, -⟩ |
    ⟨ha, hb, ⟨x, y, hx, hy, heq, -⟩ | ⟨-, hne, heq, -⟩ | ⟨hnone, hrank, heq⟩⟩
  · obtain ⟨s, rfl⟩ := hnull ha
    obtain ⟨t, rfl⟩ := hnull hb
    exact rfl
  · obtain ⟨s, rfl⟩ := hnull ha
    rw [heq]
    exact Prod.Lex.left _ _ (rank_pos hb)
  · obtain ⟨t, rfl⟩ := hnull hb
    rw [heq]
    exact Prod.Lex.left _ _ (rank_pos ha)
  · rw [heq, keyBy_of_number hx, keyBy_of_number hy]
    exact (compares_right _).mpr (compares_bytes_key (hnum x y hx hy))
  · rw [heq]
    have hc := cmp_compares a.typeDiscriminant b.typeDiscriminant
    revert hc
    cases cmp a.typeDiscriminant b.typeDiscriminant with
    | lt | gt => exact fun h => Prod.Lex.left _ _ h
    | eq => exact fun h => absurd h hne
  · rw [heq]
    unfold keyBy
    rw [hrank]
    refine (compares_right _).mpr ?_
    rcases same_type ha hnone hrank with ⟨s, t, rfl, rfl⟩ | ⟨x, y, rfl, rfl⟩ | ⟨t, u, rfl, rfl⟩ |
      ⟨l, r, rfl, rfl, hl, hr⟩
    · exact (compares_right _).mpr (compareBytes_compares _ _)
    · exact compares_bytes_key (compares_boolean x y)
    · exact compares_bytes_key (compares_timestamp t u)
    · rw [number_of_ext hl, number_of_ext hr]
      exact cmpExtension_compares hva hvb

/-- Values of a valid shape compare as equal exactly if they are equal. -/
theorem ordCmp_eq_iff (hva : a.validateShape json = .ok ()) (hvb : b.validateShape json = .ok ()) :
    a.ordCmp std b = .eq ↔ a.eq std b = true := by
  rcases ordCmp_cases std a b with ⟨-, -, heq, he⟩ | ⟨-, -, heq, he⟩ | ⟨-, -, heq, he⟩ |
    ⟨ha, hb, ⟨x, y, hx, hy, heq, he⟩ | ⟨-, hne, heq, he⟩ | ⟨hnum, hrank, heq⟩⟩
  · simp [heq, he]
  · simp [heq, he]
  · simp [heq, he]
  · simp [heq, he]
  · rw [heq, he]
    simp [cmp_eq_eq_iff, hne]
  · rw [heq]
    unfold Value.eq
    rw [compareCanonicalNumeric_none std hnum]
    rcases same_type ha hnum hrank with ⟨s, t, rfl, rfl⟩ | ⟨x, y, rfl, rfl⟩ | ⟨t, u, rfl, rfl⟩ |
      ⟨l, r, rfl, rfl, -, -⟩
    · simp only [cmpSameType, beq_iff_eq]
      rw [(compareBytes_compares _ _).eq_eq, textBytes_injective.eq_iff]
    · simp [cmpSameType, cmp_eq_eq_iff]
    · simp only [cmpSameType, beq_iff_eq]
      rw [(compares_timestamp t u).eq_eq]
      exact ⟨timestamp_eq, fun h => by rw [h]⟩
    · simp only [cmpSameType, beq_iff_eq]
      rw [(cmpExtension_compares hva hvb).eq_eq]
      exact ⟨extensionKey_inj hva hvb, fun h => by rw [h]⟩

theorem hashWord_of_number (h : a.number = some n) : a.hashWord std = n.word std := by
  cases a with
  | integer i | float f => cases h; rfl
  | extension data =>
    obtain ⟨p, hp, rfl⟩ := map_eq_some_iff.mp h
    unfold hashWord
    rw [hp]
    rfl
  | _ => cases h

theorem hashWord_congr (hva : a.validateShape json = .ok ()) (hvb : b.validateShape json = .ok ())
    (hxa : ∀ f, a = .float f → PrintedExactly std f)
    (hxb : ∀ f, b = .float f → PrintedExactly std f) (h : a.key std = b.key std) :
    a.hashWord std = b.hashWord std := by
  obtain ⟨hrank, hplace⟩ := Prod.mk.inj (toLex_inj.mp h)
  cases ha : a.isNull with
  | true =>
    cases a with
    | null s =>
      cases hb : b.isNull with
      | true =>
        cases b with
        | null t => rfl
        | _ => cases hb
      | false => exact absurd hrank (rank_pos hb).ne
    | _ => cases ha
  | false =>
    by_cases hnum : a.number.isSome ∧ b.number.isSome
    · obtain ⟨x, hx⟩ := isSome_iff_exists.mp hnum.1
      obtain ⟨y, hy⟩ := isSome_iff_exists.mp hnum.2
      rw [key, keyBy_of_number hx, keyBy_of_number hy] at h
      have hkey : x.key std = y.key std :=
        congrArg (fun k : ℕ ×ₗ (NumberKey ×ₗ Bytes) => (ofLex (ofLex k).2).1) h
      rw [hashWord_of_number hx, hashWord_of_number hy]
      exact Number.word_congr (number_bounded hx) (number_bounded hy) (exact_of_number hxa hx)
        (exact_of_number hxb hy) hkey
    · rcases same_type ha hnum hrank with ⟨s, t, rfl, rfl⟩ | ⟨x, y, rfl, rfl⟩ |
        ⟨t, u, rfl, rfl⟩ | ⟨l, r, rfl, rfl, hl, hr⟩
      · have hst : textBytes s = textBytes t :=
          congrArg (fun k : NumberKey ×ₗ Bytes => (ofLex k).2) hplace
        rw [textBytes_injective hst]
      · have hxy : ((x.toNat : ℤ)) = y.toNat :=
          congrArg (fun k : NumberKey ×ₗ Bytes => (ofLex (ofLex k).1).1) hplace
        cases x <;> cases y <;> first | rfl | cases hxy
      · rw [timestamp_eq (congrArg (fun k : NumberKey ×ₗ Bytes => (ofLex k).1) hplace)]
      · rw [number_of_ext hl, number_of_ext hr] at hplace
        rw [extensionKey_inj hva hvb hplace]

end

/-! ## The agreement -/

/-- **Order, equality and hash words of values agree exactly if no float is a 64-bit integer that is
printed as another number.** -/
theorem agrees_iff (std : LowerExp) (json : Bytes → Option String) (F : Set F64) :
    Agrees (admitted json F) (ordCmp std) (eq std) (hashWord std) ↔
      ∀ f ∈ F, PrintedExactly std f := by
  constructor
  · intro h f hf i hi hclass
    -- the integer, the float and the decimal of the same value: two pairs of them are equal
    have hshape : validateDecimalShape i 19 0 = .ok () := by
      have hlo : -2 ^ 63 ≤ i := hi.1
      have hhi : i ≤ 2 ^ 63 - 1 := hi.2
      exact validateDecimalShape_of_lt (by decide) (by decide) (by decide) (by omega)
    have hnum : (decimal i 19 0).number = some (.decimal i 0) := number_decimal hshape
    have hsmall := Number.small_fromParts_int hi
    have hfi : ordCmp std (.float f) (.integer ⟨i, hi⟩) = .eq := by
      have hc := compareIntegerFloat_compares hi.1 hi.2 f
      rw [hclass] at hc
      exact (Ordering.compares_swap.mpr hc).eq_eq.mpr rfl
    have hid : ordCmp std (.integer ⟨i, hi⟩) (decimal i 19 0) = .eq := by
      rw [ordCmp_number rfl hnum]
      exact (Number.cmpNumeric_key hsmall hsmall).eq_eq.mpr rfl
    have hfd := h.eq_trans ⟨rfl, fun g hg => by cases hg; exact hf⟩ ⟨rfl, fun g hg => by cases hg⟩
      ⟨validateShape_decimal json hshape, fun g hg => by cases hg⟩ hfi hid
    -- so the third pair is equal, and a decimal is compared with what is printed
    rw [ordCmp_number rfl hnum] at hfd
    have hkey := (Ordering.compares_swap.mpr
      (Number.compareDecimalFloat_compares std hsmall f)).eq_eq.mp hfd
    rw [Number.floatKey_finite (F64.isFinite_of_classify hclass).1, pow_zero, div_one] at hkey
    exact congrArg (fun k : NumberKey => (ofLex k).2) hkey
  · intro h
    exact Agrees.of_key (key std)
      (fun a ha b hb => ordCmp_compares ha.1 hb.1 fun x y hx hy =>
        Number.compare_compares (number_bounded hx) (number_bounded hy) fun i f hmixed => by
          rcases hmixed with ⟨-, rfl⟩ | ⟨rfl, -⟩
          · exact exact_of_number (fun f hf => h f (hb.2 f hf)) hy
          · exact exact_of_number (fun f hf => h f (ha.2 f hf)) hx)
      (fun a ha b hb => ordCmp_eq_iff ha.1 hb.1)
      (fun a ha b hb => hashWord_congr ha.1 hb.1 (fun f hf => h f (ha.2 f hf))
        fun f hf => h f (hb.2 f hf))

/-- `2 ^ 60`, which is printed as `1152921504606847000`. -/
def twoPow60 : F64 := ⟨false, ⟨0x43b0000000000000, by decide⟩⟩

/-- The integer equals the float and the decimal, but the decimal is below the float. A decimal that
equals the float has another hash word. -/
theorem disagree_two_pow_60 :
    let std := LowerExp.reference
    let i : Value := .integer ⟨1152921504606846976, by decide⟩
    let f : Value := .float twoPow60
    let d := decimal 1152921504606846976 19 0
    let e := decimal 1152921504606847000 19 0
    (∀ json, i.validateShape json = .ok () ∧ f.validateShape json = .ok () ∧
      d.validateShape json = .ok () ∧ e.validateShape json = .ok ()) ∧
    i.eq std f = true ∧ i.eq std d = true ∧ d.eq std f = false ∧ d.ordCmp std f = .lt ∧
    e.eq std f = true ∧ e.hashWord std ≠ f.hashWord std := by
  refine ⟨fun json => ⟨rfl, rfl, ?_, ?_⟩, ?_⟩
  · exact validateShape_decimal json (by decide +kernel)
  · exact validateShape_decimal json (by decide +kernel)
  · decide +kernel

end RadixDb.Value
