import RadixDb.Index.OrderedKey
import RadixDb.Key.Equality

/-!
# The order of the keys of an ordered index

A value of a column has a place in a linear order, and a key has the list of the places of its
values, which are ordered lexicographically, and then its bytes. **Comparisons of keys that were
accepted by their columns are never refused, and follow the places** (`compareOrderedKeys_eq`);
so do comparisons to bounds, which look at the first places only (`isBeforeLower_eq`,
`isAfterUpper_eq`). Since the order is lexicographic, a key before another is not after it in the
first places (`take_le_take`): the keys before a lower bound come first and the keys after an upper
bound come last.

A key that is read from its bytes has the places it was written with, but for instants in leap
seconds, which move with the direction of the column (`place_stored`, `place_lt_stored`,
`place_stored_lt`).
-/

namespace RadixDb

open List Except

/-! ## Values of a column -/

abbrev ValuePlace := ℕ ×ₗ (NumberKey ×ₗ Bytes)

/-- The place of a value in SQL: dates by their days, other values as in trees. -/
def Value.sqlPlace (v : Value) : ValuePlace :=
  match v.asDateDays with
  | some days => toLex (0, toLex (toLex (days, 0), []))
  | none => v.keyBy Number.exactKey

namespace Value

variable {std : LowerExp} {json : Json} {type : DataType} {a b : Value}
  {data : Bytes}

theorem ofPayload_of_extension (htype : (Value.extension data).dataType = type) (hne : type ≠ .null)
    (hshape : (Value.extension data).validateShape json = .ok ()) :
    Value.extension data = ofPayload type (data.drop 1) ∧
      validateExtensionPayload json type (data.drop 1) = .ok () := by
  have hhead := head_of_dataType htype hne
  have hmarker : type.asU8 ≠ externalValueMarker := by
    cases type <;> decide
  refine ⟨extension_eq_ofPayload hhead, ?_⟩
  simpa only [validateShape, hhead, Option.some.injEq, hmarker, if_false, Option.bind_some,
    DataType.fromU8_asU8] using hshape

theorem not_extension (htype : (Value.extension data).dataType = type) (hne : type ≠ .null)
    (hshape : (Value.extension data).validateShape json = .ok ()) : type.isExtension = true := by
  have hpay := (ofPayload_of_extension htype hne hshape).2
  cases type <;> first | rfl | cases hpay

theorem number_of_decimal {p : Bytes} (h : validateExtensionPayload json .decimal p = .ok ()) :
    ∃ n, (ofPayload .decimal p).number = some n := by
  simp only [validateExtensionPayload] at h
  split_ifs at h with hlen
  have hparts : (ofPayload .decimal p).asDecimalParts =
      some (Bytes.leInt (p.take 16), (p.getD 16 0).toNat, (p.getD 17 0).toNat) := by
    simp only [ofPayload, asDecimalParts, head?_cons, length_cons, hlen, and_self,
      if_true, drop_one, tail_cons, getD_cons_succ, h]
  refine ⟨.decimal (Bytes.leInt (p.take 16)) (p.getD 17 0).toNat, ?_⟩
  simp only [ofPayload] at hparts ⊢
  rw [number, hparts]
  rfl

theorem exists_compareExtensions {p q : Bytes} (hp : validateExtensionPayload json type p = .ok ())
    (hq : validateExtensionPayload json type q = .ok ()) (htype : isOrderedKeyType type = true)
    (hext : type.isExtension = true) (hdecimal : type ≠ .decimal) :
    ∃ o, compareExtensions (type.asU8 :: p) (type.asU8 :: q) = .ok o := by
  have hnanos : ∀ {r : Bytes}, validateExtensionPayload json type r = .ok () →
      type = .civilTimestamp ∨ type = .time → r.length = 8 := by
    rintro r hr (rfl | rfl)
    all_goals
      simp only [validateExtensionPayload, temporalPayloadNanos]
        at hr
      by_contra hlen
      rw [if_neg hlen] at hr
      cases hr
  have htp := hnanos hp
  have htq := hnanos hq
  cases type with
  | uuid =>
    simp only [validateExtensionPayload] at hp hq
    split_ifs at hp hq with hlp hlq
    simp [compareExtensions, DataType.asU8, externalValueMarker, hlp, hlq]
  | date =>
    simp only [validateExtensionPayload] at hp hq
    split_ifs at hp hq with hlp hlq
    simp [compareExtensions, DataType.asU8, externalValueMarker, asDateDays, hlp, hlq]
  | bytes =>
    simp [compareExtensions, DataType.asU8, externalValueMarker, isTemporalTag, DataType.fromU8]
  | civilTimestamp =>
    simp [compareExtensions, DataType.asU8, externalValueMarker, isTemporalTag, DataType.fromU8,
      artifactTemporalNanos, htp (.inl rfl), htq (.inl rfl)]
  | time =>
    simp [compareExtensions, DataType.asU8, externalValueMarker, isTemporalTag, DataType.fromU8,
      artifactTemporalNanos, htp (.inr rfl), htq (.inr rfl)]
  | decimal => exact absurd rfl hdecimal
  | json => cases htype
  | vector => cases htype
  | _ => cases hext

/-- The types of numbers. -/
def isNumberType (type : DataType) : Prop :=
  type = .integer ∨ type = .float ∨ type = .decimal

section

variable (ha : a ∈ ofColumn json type) (hna : a.isNull = false)

include ha hna

theorem dataType_of_column : a.dataType = type := ha.2.resolve_left (by simp [hna])

theorem number_of_type (htype : isNumberType type) : ∃ n, a.number = some n := by
  have hdata := dataType_of_column ha hna
  cases a with
  | integer i | float f => exact ⟨_, rfl⟩
  | extension data =>
    have hne : type ≠ .null := by
      rintro rfl
      rcases htype with h | h | h <;> cases h
    have hext := not_extension hdata hne ha.1
    rcases htype with rfl | rfl | rfl
    · cases hext
    · cases hext
    · obtain ⟨heq, hshape⟩ := ofPayload_of_extension hdata hne ha.1
      rw [heq]
      exact number_of_decimal hshape
  | null t => cases hna
  | _ =>
    subst hdata
    rcases htype with h | h | h <;> cases h

theorem number_eq_none (htype : ¬ isNumberType type) : a.number = none := by
  have hdata := dataType_of_column ha hna
  cases hn : a.number with
  | none => rfl
  | some n =>
    refine absurd ?_ htype
    rw [← hdata, dataType_of_number hn]
    cases n with
    | integer i => exact .inl rfl
    | float f => exact .inr (.inl rfl)
    | decimal u s => exact .inr (.inr rfl)

theorem asDateDays_eq_none (htype : type ≠ .date) : a.asDateDays = none := by
  have hdata := dataType_of_column ha hna
  cases a with
  | extension data =>
    cases hdays : (Value.extension data).asDateDays with
    | none => rfl
    | some days =>
      refine absurd ?_ htype
      rw [← hdata, dataType, (asDateDays_eq_some hdays).1]
      rfl
  | _ => rfl

end

theorem exists_compare (std : LowerExp) (ha : a ∈ ofColumn json type) (hb : b ∈ ofColumn json type)
    (htype : isOrderedKeyType type = true) (hna : a.isNull = false) (hnb : b.isNull = false) :
    ∃ o, a.compare std b = .ok o := by
  by_cases hnumber : isNumberType type
  · obtain ⟨x, hx⟩ := number_of_type ha hna hnumber
    obtain ⟨y, hy⟩ := number_of_type hb hnb hnumber
    exact ⟨_, compare_of_numbers hx hy⟩
  have hnone : ¬ (a.number.isSome ∧ b.number.isSome) := by
    rw [number_eq_none ha hna hnumber]
    simp
  have hda := dataType_of_column ha hna
  have hdb := dataType_of_column hb hnb
  have hne : type ≠ .null := by
    rintro rfl
    cases htype
  have hsame : a.compare std b = a.compareSameType b := by
    rw [Value.compare, hna, hnb, compareCanonicalNumeric_none std hnone, hda, hdb]
    simp
  rw [hsame]
  cases a with
  | extension p =>
    have hext := not_extension hda hne ha.1
    cases b with
    | extension q =>
      obtain ⟨hp, hpshape⟩ := ofPayload_of_extension hda hne ha.1
      obtain ⟨hq, hqshape⟩ := ofPayload_of_extension hdb hne hb.1
      rw [hp, hq]
      exact exists_compareExtensions hpshape hqshape htype hext fun h => hnumber (.inr (.inr h))
    | null t => cases hnb
    | _ =>
      subst hdb
      cases hext
  | null t => cases hna
  | _ =>
    cases b with
    | extension q =>
      have hext := not_extension hdb hne hb.1
      subst hda
      cases hext
    | null t => cases hnb
    | _ => first | exact ⟨_, rfl⟩ | cases hda.trans hdb.symm

theorem asDateDays_of_date (ha : a ∈ ofColumn json .date) (hna : a.isNull = false) :
    ∃ days, a.asDateDays = some days := by
  have hdata := dataType_of_column ha hna
  cases a with
  | extension data =>
    obtain ⟨heq, hshape⟩ := ofPayload_of_extension hdata (by decide) ha.1
    rw [heq]
    simp only [validateExtensionPayload] at hshape
    split_ifs at hshape with hlen
    have hfive : (DataType.date.asU8 :: data.drop 1).length = 5 := by
      rw [length_cons, hlen]
    exact ⟨Bytes.leInt (data.drop 1), if_pos ⟨rfl, hfive⟩⟩
  | null t => cases hna
  | _ => cases hdata

/-- **SQL compares the values of a column by their places.** -/
theorem compare_eq (std : LowerExp) (ha : a ∈ ofColumn json type) (hb : b ∈ ofColumn json type)
    (htype : isOrderedKeyType type = true) (hna : a.isNull = false) (hnb : b.isNull = false) :
    a.compare std b = .ok (cmp a.sqlPlace b.sqlPlace) := by
  by_cases hdate : type = .date
  · subst hdate
    obtain ⟨x, hx⟩ := asDateDays_of_date ha hna
    obtain ⟨y, hy⟩ := asDateDays_of_date hb hnb
    have hplace : StrictMono fun days : ℤ =>
        (toLex (0, toLex (toLex (days, 0), [])) : ValuePlace) := fun x y hlt =>
      Prod.Lex.right _ (Prod.Lex.left _ _ (Prod.Lex.left _ _ hlt))
    rw [(compare_dates std hx hy).1, sqlPlace, sqlPlace, hx, hy, hplace.cmp_map_eq]
  · obtain ⟨o, ho⟩ := exists_compare std ha hb htype hna hnb
    have hxa := asDateDays_eq_none ha hna hdate
    have hxb := asDateDays_eq_none hb hnb hdate
    have heq := (ordCmp_eq_iff_datesInOrder ho).mpr (datesInOrder_of_none hxa)
    have hplaces : (a.ordCmp std b).Compares (a.keyBy Number.exactKey)
        (b.keyBy Number.exactKey) := by
      refine ordCmp_compares ha.1 hb.1 fun x y hx hy => ?_
      refine Number.compare_compares_exact (number_bounded hx) (number_bounded hy) fun u s f => ?_
      have hkind : x.dataType = y.dataType := by
        rw [← dataType_of_number hx, ← dataType_of_number hy,
          dataType_of_column ha hna, dataType_of_column hb hnb]
      constructor
      · rintro ⟨rfl, rfl⟩
        cases hkind
      · rintro ⟨rfl, rfl⟩
        cases hkind
    rw [ho, ← heq, hplaces.inj (cmp_compares _ _), sqlPlace, sqlPlace, hxa, hxb]

end Value

/-! ## Columns -/

/-- The first part says where NULL stands; of the other two, the one of the column's direction
counts. -/
abbrev ColumnPlace := ℤ ×ₗ (ValuePlace ×ₗ ValuePlaceᵒᵈ)

namespace IndexKeyColumn

def origin : ValuePlace := toLex (0, toLex (toLex (0, 0), []))

/-- The place of a value in a key column. -/
def place (column : IndexKeyColumn) (v : Value) : ColumnPlace :=
  if v.isNull then
    toLex (match column.nullsOrder with | .first => -1 | .last => 1,
      toLex (origin, OrderDual.toDual origin))
  else
    toLex (0, match column.direction with
      | .ascending => toLex (v.sqlPlace, OrderDual.toDual origin)
      | .descending => toLex (origin, OrderDual.toDual v.sqlPlace))

end IndexKeyColumn

section

variable {std : LowerExp} {json : Json} {column : IndexKeyColumn} {a b : Value}

theorem ascending_strictMono :
    StrictMono fun p : ValuePlace =>
      (toLex (0, toLex (p, OrderDual.toDual IndexKeyColumn.origin)) : ColumnPlace) :=
  fun _ _ h => Prod.Lex.right _ (Prod.Lex.left _ _ h)

theorem descending_strictAnti :
    StrictAnti fun p : ValuePlace =>
      (toLex (0, toLex (IndexKeyColumn.origin, OrderDual.toDual p)) : ColumnPlace) :=
  fun _ _ h => Prod.Lex.right _ (Prod.Lex.right _ (OrderDual.toDual_lt_toDual.mpr h))

/-- **A column compares values by their places.** -/
theorem compareComponent_eq (std : LowerExp) (ha : a ∈ Value.ofColumn json column.logicalType)
    (hb : b ∈ Value.ofColumn json column.logicalType)
    (htype : isOrderedKeyType column.logicalType = true) :
    compareComponent std column a b = .ok (cmp (column.place a) (column.place b)) := by
  have hlt : ∀ {i j : ℤ} {p q : ValuePlace ×ₗ ValuePlaceᵒᵈ}, i < j →
      cmp (toLex (i, p) : ColumnPlace) (toLex (j, q)) = .lt ∧
        cmp (toLex (j, q) : ColumnPlace) (toLex (i, p)) = .gt := fun h =>
    ⟨cmp_eq_lt_iff _ _ |>.mpr (Prod.Lex.left _ _ h),
      cmp_eq_gt_iff _ _ |>.mpr (Prod.Lex.left _ _ h)⟩
  have hminus : (-1 : ℤ) < 0 := by decide
  have hplus : (0 : ℤ) < 1 := by decide
  unfold compareComponent IndexKeyColumn.place
  cases hna : a.isNull with
  | true =>
    cases hnb : b.isNull with
    | true => simp
    | false =>
      cases column.nullsOrder with
      | first => simp only [if_true, Bool.false_eq_true, if_false, (hlt hminus).1]
      | last => simp [(hlt hplus).2]
  | false =>
    cases hnb : b.isNull with
    | true =>
      cases column.nullsOrder with
      | first => simp only [if_true, Bool.false_eq_true, if_false, (hlt hminus).2]
      | last => simp [(hlt hplus).1]
    | false =>
      simp only [Value.compare_eq std ha hb htype hna hnb, Bool.false_eq_true, if_false]
      cases column.direction with
      | ascending => simp only [ascending_strictMono.cmp_map_eq]
      | descending => simp only [descending_strictAnti.cmp_map_eq, cmp_swap]

end

/-! ## Keys -/

/-- `cmp` with the order of a `LinearOrder`; lists have other instances of theirs. -/
def placeCmp {α : Type} [LinearOrder α] (x y : α) : Ordering := cmp x y

section

variable {α : Type} [LinearOrder α] {x y : α}

theorem placeCmp_eq_lt : placeCmp x y = .lt ↔ x < y := cmp_eq_lt_iff x y

theorem placeCmp_eq_eq : placeCmp x y = .eq ↔ x = y := cmp_eq_eq_iff x y

theorem placeCmp_self : placeCmp x x = .eq := cmp_self_eq_eq x

theorem placeCmp_eq_gt : placeCmp x y = .gt ↔ y < x := cmp_eq_gt_iff x y

theorem placeCmp_unique {o : Ordering} (h : o.Compares x y) : o = placeCmp x y :=
  h.inj (cmp_compares x y)

end

/-- Values that the columns admit. -/
def Admitted (json : Json) (columns : List IndexKeyColumn)
    (values : List Value) : Prop :=
  Forall₂ (fun column v => v ∈ Value.ofColumn json column.logicalType) columns values

/-- The places of the values of a key, or of a bound. -/
def placesOf (columns : List IndexKeyColumn) (values : List Value) : List ColumnPlace :=
  zipWith IndexKeyColumn.place columns values

abbrev KeyPlace := List ColumnPlace ×ₗ Bytes

def keyPlace (columns : List IndexKeyColumn) (key : OrderedIndexKey) : KeyPlace :=
  toLex (placesOf columns key.values, key.bytes)

/-- All columns are of ordered types. -/
def Ordered (columns : List IndexKeyColumn) : Prop :=
  ∀ column ∈ columns, isOrderedKeyType column.logicalType = true

section

variable {std : LowerExp} {json : Json} {columns : List IndexKeyColumn}
  {lefts rights : List Value} {a b : OrderedIndexKey}

theorem validateOrderedTypes_iff :
    validateOrderedTypes columns = .ok () ↔ columns ≠ [] ∧ Ordered columns := by
  unfold validateOrderedTypes Ordered
  cases columns with
  | nil => simp
  | cons column columns =>
    simp only [isEmpty_cons, Bool.false_eq_true, if_false, ne_eq, reduceCtorEq,
      not_false_eq_true, true_and]
    split_ifs with hany
    · refine iff_of_false nofun fun hall => ?_
      obtain ⟨c, hc, hwrong⟩ := any_eq_true.mp hany
      simp [hall c hc] at hwrong
    · refine iff_of_true rfl fun c hc => ?_
      by_contra hwrong
      exact hany (any_eq_true.mpr ⟨c, hc, by simpa using hwrong⟩)

theorem wrongTypes_of_admitted (h : Admitted json columns lefts) :
    wrongTypes lefts columns = false := by
  unfold wrongTypes
  induction h with
  | nil => rfl
  | cons hv hrest ih =>
    rw [zip_cons_cons, any_cons, ih, Bool.or_false]
    rcases hv.2 with hnull | htype
    · simp [hnull]
    · simp [htype]

/-- A first part of the admitted values is admitted by the first columns. -/
theorem Admitted.take (h : Admitted json columns lefts) (n : ℕ) :
    Admitted json (columns.take n) (lefts.take n) :=
  forall₂_take n h

theorem placeCmp_cons {α : Type} [LinearOrder α] (x y : α) (l m : List α) :
    placeCmp (x :: l) (y :: m) = (cmp x y).then (placeCmp l m) := by
  rcases lt_trichotomy x y with hlt | rfl | hgt
  · rw [(cmp_eq_lt_iff _ _).mpr hlt]
    exact placeCmp_eq_lt.mpr (cons_lt_cons_iff.mpr (.inl hlt))
  · rw [cmp_self_eq_eq, Ordering.eq_then]
    rcases lt_trichotomy l m with h | rfl | h
    · rw [placeCmp_eq_lt.mpr h]
      exact placeCmp_eq_lt.mpr (cons_lt_cons_iff.mpr (.inr ⟨rfl, h⟩))
    · rw [placeCmp_self, placeCmp_self]
    · rw [placeCmp_eq_gt.mpr h]
      exact placeCmp_eq_gt.mpr (cons_lt_cons_iff.mpr (.inr ⟨rfl, h⟩))
  · rw [(cmp_eq_gt_iff _ _).mpr hgt]
    exact placeCmp_eq_gt.mpr (cons_lt_cons_iff.mpr (.inl hgt))

variable (std : LowerExp)

theorem compareColumns_eq (hl : Admitted json columns lefts) (hr : Admitted json columns rights)
    (ho : Ordered columns) :
    compareColumns std lefts rights columns =
      .ok (placeCmp (placesOf columns lefts) (placesOf columns rights)) := by
  induction hl generalizing rights with
  | nil =>
    cases hr
    rfl
  | cons hv hrest ih =>
    rename_i column v columns values
    cases hr with
    | cons hw hrest' =>
      rename_i w values'
      obtain ⟨hone, hmore⟩ := forall_mem_cons.mp ho
      simp only [compareColumns, compareComponent_eq std hv hw hone, ok_bind,
        ih hrest' hmore, placesOf, zipWith_cons_cons, placeCmp_cons]
      cases cmp (column.place v) (column.place w) <;> simp

theorem compareOrderedComponents_eq (hl : Admitted json columns lefts)
    (hr : Admitted json columns rights) (ho : Ordered columns) :
    compareOrderedComponents std lefts rights columns =
      .ok (placeCmp (placesOf columns lefts) (placesOf columns rights)) := by
  have hlen : ¬ (lefts.length ≠ rights.length ∨ lefts.length ≠ columns.length) := by
    rw [← hl.length_eq, ← hr.length_eq]
    simp
  rw [compareOrderedComponents, if_neg hlen, compareColumns_eq std hl hr ho]

theorem validateKeyShape_eq (h : Admitted json columns a.values) :
    validateKeyShape a columns = .ok () := by
  rw [validateKeyShape, if_neg (not_not.mpr h.length_eq.symm), wrongTypes_of_admitted h]
  rfl

/-- **Keys are compared by their places.** -/
theorem compareOrderedKeys_eq (ha : Admitted json columns a.values)
    (hb : Admitted json columns b.values) (ho : Ordered columns) :
    compareOrderedKeys std a b columns =
      .ok (placeCmp (keyPlace columns a) (keyPlace columns b)) := by
  have hbytes := Bytes.compareBytes_compares a.bytes b.bytes
  simp only [compareOrderedKeys, validateKeyShape_eq ha, validateKeyShape_eq hb, ok_bind,
    compareOrderedComponents_eq std ha hb ho]
  rcases lt_trichotomy (placesOf columns a.values) (placesOf columns b.values) with h | h | h
  · have hlt : keyPlace columns a < keyPlace columns b := Prod.Lex.left _ _ h
    rw [placeCmp_eq_lt.mpr h, placeCmp_eq_lt.mpr hlt]
    rfl
  · rw [placeCmp_eq_eq.mpr h]
    simp only [ne_eq, not_true_eq_false, if_false, ok.injEq]
    refine placeCmp_unique ?_
    cases hcmp : Bytes.compareBytes a.bytes b.bytes with
    | lt => exact Prod.Lex.toLex_lt_toLex.mpr (.inr ⟨h, hbytes.eq_lt.mp hcmp⟩)
    | eq => exact congrArg toLex (Prod.ext h (hbytes.eq_eq.mp hcmp))
    | gt => exact Prod.Lex.toLex_lt_toLex.mpr (.inr ⟨h.symm, hbytes.eq_gt.mp hcmp⟩)
  · have hgt : keyPlace columns b < keyPlace columns a := Prod.Lex.left _ _ h
    rw [placeCmp_eq_gt.mpr h, placeCmp_eq_gt.mpr hgt]
    rfl

end

/-! ## Bounds -/

/-- A bound for the first columns, with values that they admit. -/
structure AdmittedBound (json : Json) (columns : List IndexKeyColumn)
    (bound : OrderedIndexBound) : Prop where
  values_ne : bound.key.values ≠ []
  length_le : bound.key.values.length ≤ columns.length
  admitted : Admitted json (columns.take bound.key.values.length) bound.key.values

/-- Is a key with the places before the lower bound? -/
def before (columns : List IndexKeyColumn) (lower : Option OrderedIndexBound)
    (places : List ColumnPlace) : Bool :=
  match lower with
  | none => false
  | some bound =>
    let first := places.take bound.key.values.length
    let edge := placesOf columns bound.key.values
    if bound.inclusive then decide (first < edge) else decide (first ≤ edge)

/-- Is a key with the places after the upper bound? -/
def after (columns : List IndexKeyColumn) (upper : Option OrderedIndexBound)
    (places : List ColumnPlace) : Bool :=
  match upper with
  | none => false
  | some bound =>
    let first := places.take bound.key.values.length
    let edge := placesOf columns bound.key.values
    if bound.inclusive then decide (edge < first) else decide (edge ≤ first)

variable {α : Type} {l : List α} {m : List α} {n : ℕ}

theorem lt_of_take_lt [LinearOrder α] (h : l.take n < m.take n) : l < m := by
  induction n generalizing l m with
  | zero => exact absurd h (lt_irrefl _)
  | succ n ih =>
    cases m with
    | nil => exact absurd h (by simp)
    | cons y m =>
      cases l with
      | nil => exact nil_lt_cons y m
      | cons x l =>
        rcases cons_lt_cons_iff.mp h with hlt | ⟨rfl, hlt⟩
        · exact cons_lt_cons_iff.mpr (.inl hlt)
        · exact cons_lt_cons_iff.mpr (.inr ⟨rfl, ih hlt⟩)

theorem append_singleton_lt [LinearOrder α] {x y : α} : l ++ [x] < l ++ [y] ↔ x < y := by
  induction l with
  | nil => simp [cons_lt_cons_iff]
  | cons z l ih => simp [ih]

/-- Lists with one first part are compared by the place after it. -/
theorem take_succ_lt_iff [LinearOrder α] {x y : α} (h : l.take n = m.take n) (hl : l[n]? = some x)
    (hm : m[n]? = some y) : l.take (n + 1) < m.take (n + 1) ↔ x < y := by
  rw [take_add_one, take_add_one, hl, hm, h]
  exact append_singleton_lt

/-- The first parts of lists are ordered as the lists are, or equal. -/
theorem take_le_take [LinearOrder α] (h : l ≤ m) (n : ℕ) : l.take n ≤ m.take n :=
  not_lt.mp fun hlt => not_lt.mpr h (lt_of_take_lt hlt)

section

variable {std : LowerExp} {json : Json} {columns : List IndexKeyColumn}
  {key : OrderedIndexKey} {p q : List ColumnPlace}

theorem before_of_le {lower : Option OrderedIndexBound} (hle : p ≤ q)
    (h : before columns lower q = true) : before columns lower p = true := by
  cases lower with
  | none => cases h
  | some bound =>
    have htake := take_le_take hle bound.key.values.length
    unfold before at h ⊢
    dsimp only at h ⊢
    split_ifs at h ⊢
    · exact decide_eq_true (lt_of_le_of_lt htake (of_decide_eq_true h))
    · exact decide_eq_true (le_trans htake (of_decide_eq_true h))

theorem after_of_le {upper : Option OrderedIndexBound} (hle : p ≤ q)
    (h : after columns upper p = true) : after columns upper q = true := by
  cases upper with
  | none => cases h
  | some bound =>
    have htake := take_le_take hle bound.key.values.length
    unfold after at h ⊢
    dsimp only at h ⊢
    split_ifs at h ⊢
    · exact decide_eq_true (lt_of_lt_of_le (of_decide_eq_true h) htake)
    · exact decide_eq_true (le_trans (of_decide_eq_true h) htake)

theorem zipWith_take_left {β γ : Type} (f : α → β → γ) (l : List α) (m : List β) :
    zipWith f (l.take m.length) m = zipWith f l m := by
  have htake : (zipWith f l m).take m.length = zipWith f l m :=
    take_of_length_le (by rw [length_zipWith]; exact Nat.min_le_right _ _)
  rw [← htake, take_zipWith, take_length]

theorem placesOf_take (columns : List IndexKeyColumn) (values : List Value) (n : ℕ) :
    placesOf columns (values.take n) = (placesOf columns values).take n := by
  induction columns generalizing values n with
  | nil => simp [placesOf]
  | cons column columns ih =>
    cases values with
    | nil => simp [placesOf]
    | cons v values =>
      cases n with
      | zero => simp [placesOf]
      | succ n => exact congrArg (column.place v :: ·) (ih values n)

variable {bound : OrderedIndexBound}

theorem validateBoundKeyShape_eq (h : AdmittedBound json columns bound) :
    validateBoundKeyShape bound.key columns = .ok () := by
  have hshape : ¬ (bound.key.values.isEmpty = true ∨
      columns.length < bound.key.values.length) := by
    rw [List.isEmpty_iff, not_or, not_lt]
    exact ⟨h.values_ne, h.length_le⟩
  have hzip : bound.key.values.zip columns =
      bound.key.values.zip (columns.take bound.key.values.length) :=
    calc bound.key.values.zip columns
      _ = zipWith (fun c v => (v, c)) columns bound.key.values := zipWith_comm
      _ = zipWith (fun c v => (v, c)) (columns.take bound.key.values.length)
            bound.key.values := (zipWith_take_left _ _ _).symm
      _ = bound.key.values.zip (columns.take bound.key.values.length) := zipWith_comm.symm
  have htypes : wrongTypes bound.key.values columns = false := by
    rw [wrongTypes, hzip]
    exact wrongTypes_of_admitted h.admitted
  rw [validateBoundKeyShape, if_neg hshape, htypes]
  rfl

variable (std : LowerExp)

/-- **A key is compared to a bound by its first places.** -/
theorem compareOrderedKeyToBound_eq (hk : Admitted json columns key.values)
    (hb : AdmittedBound json columns bound) (ho : Ordered columns) :
    compareOrderedKeyToBound std key bound.key columns =
      .ok (placeCmp ((placesOf columns key.values).take bound.key.values.length)
        (placesOf columns bound.key.values)) := by
  have hfirst : Ordered (columns.take bound.key.values.length) := fun c hc =>
    ho c (mem_of_mem_take hc)
  simp only [compareOrderedKeyToBound, validateKeyShape_eq hk, validateBoundKeyShape_eq hb, bind,
    bind, compareOrderedComponents_eq std (hk.take _) hb.admitted hfirst]
  rw [placesOf, placesOf, ← take_zipWith, zipWith_take_left]
  rfl

theorem isBeforeLower_eq (lower : Option OrderedIndexBound) (hk : Admitted json columns key.values)
    (hb : ∀ bound ∈ lower, AdmittedBound json columns bound) (ho : Ordered columns) :
    isBeforeLower std columns lower key =
      .ok (before columns lower (placesOf columns key.values)) := by
  cases lower with
  | none => rfl
  | some bound =>
    simp only [isBeforeLower, compareOrderedKeyToBound_eq std hk (hb bound rfl) ho, bind,
      Except.bind, before]
    generalize (placesOf columns key.values).take bound.key.values.length = first
    generalize placesOf columns bound.key.values = edge
    rcases lt_trichotomy first edge with h | h | h
    · simp [placeCmp_eq_lt.mpr h, h, h.le]
    · rw [h, placeCmp_self]
      cases bound.inclusive <;> simp
    · simp [placeCmp_eq_gt.mpr h, h.not_gt, h]

theorem isAfterUpper_eq (upper : Option OrderedIndexBound) (hk : Admitted json columns key.values)
    (hb : ∀ bound ∈ upper, AdmittedBound json columns bound) (ho : Ordered columns) :
    isAfterUpper std columns upper key =
      .ok (after columns upper (placesOf columns key.values)) := by
  cases upper with
  | none => rfl
  | some bound =>
    simp only [isAfterUpper, compareOrderedKeyToBound_eq std hk (hb bound rfl) ho, bind,
      Except.bind, after]
    generalize (placesOf columns key.values).take bound.key.values.length = first
    generalize placesOf columns bound.key.values = edge
    rcases lt_trichotomy first edge with h | h | h
    · simp [placeCmp_eq_lt.mpr h, h.not_gt, h]
    · rw [h, placeCmp_self]
      cases bound.inclusive <;> simp
    · simp [placeCmp_eq_gt.mpr h, h, h.le]

variable {lower upper : OrderedIndexBound}

/-- **Bounds of one length are compared by their places.** -/
theorem compareOrderedBounds_eq (hl : AdmittedBound json columns lower)
    (hu : AdmittedBound json columns upper)
    (hlen : lower.key.values.length = upper.key.values.length) (ho : Ordered columns) :
    compareOrderedBounds std lower.key upper.key columns =
      .ok (placeCmp (placesOf columns lower.key.values) (placesOf columns upper.key.values)) := by
  have hfirst : Ordered (columns.take lower.key.values.length) := fun c hc =>
    ho c (mem_of_mem_take hc)
  have hadm : Admitted json (columns.take lower.key.values.length) upper.key.values :=
    hlen ▸ hu.admitted
  have hplaces : ∀ values : List Value, values.length = lower.key.values.length →
      placesOf (columns.take lower.key.values.length) values = placesOf columns values := by
    intro values hvalues
    rw [← hvalues]
    exact zipWith_take_left _ _ _
  simp only [compareOrderedBounds, validateBoundKeyShape_eq hl, validateBoundKeyShape_eq hu, bind,
    Except.bind, hlen, ne_eq, not_true_eq_false, if_false]
  rw [← hlen, compareOrderedComponents_eq std hl.admitted hadm hfirst, hplaces _ rfl,
    hplaces _ hlen.symm]

theorem compareOrderedBounds_of_ne (hl : AdmittedBound json columns lower)
    (hu : AdmittedBound json columns upper)
    (hlen : lower.key.values.length ≠ upper.key.values.length) :
    compareOrderedBounds std lower.key upper.key columns =
      .error (.invalid "ordered lower and upper bounds have different prefix lengths") := by
  simp [compareOrderedBounds, validateBoundKeyShape_eq hl, validateBoundKeyShape_eq hu, bind,
    Except.bind, hlen]

/-- Nothing is within bounds that cross. -/
theorem before_or_after (hlen : lower.key.values.length = upper.key.values.length)
    (hcross : placesOf columns upper.key.values < placesOf columns lower.key.values ∨
      (placesOf columns lower.key.values = placesOf columns upper.key.values ∧
        (lower.inclusive = false ∨ upper.inclusive = false))) :
    before columns (some lower) p = true ∨ after columns (some upper) p = true := by
  unfold before after
  dsimp only
  rw [hlen]
  generalize p.take upper.key.values.length = first
  rcases hcross with hlt | ⟨heq, hopen⟩
  · rcases lt_or_ge first (placesOf columns lower.key.values) with h | h
    · left
      split_ifs
      · exact decide_eq_true h
      · exact decide_eq_true h.le
    · right
      split_ifs
      · exact decide_eq_true (lt_of_lt_of_le hlt h)
      · exact decide_eq_true (le_of_lt (lt_of_lt_of_le hlt h))
  · rw [heq]
    rcases lt_trichotomy first (placesOf columns upper.key.values) with h | h | h
    · left
      split_ifs
      · exact decide_eq_true h
      · exact decide_eq_true h.le
    · rw [h]
      rcases hopen with hopen | hopen
      · simp [hopen]
      · simp [hopen]
    · right
      split_ifs
      · exact decide_eq_true h
      · exact decide_eq_true h.le

end

/-! ## What is written and read -/

/-- A key as it is read from its bytes. -/
def OrderedIndexKey.stored (columns : List IndexKeyColumn) (key : OrderedIndexKey) :
    OrderedIndexKey :=
  { key with values :=
      ((columns.map (·.source)).zip key.values).map fun c => (c.2.inKey c.1).stored }

section

variable {json : Json} {columns : List IndexKeyColumn} {key : OrderedIndexKey}
  {column : IndexKeyColumn} {v : Value}

/-- Ordered columns have built-in types, and admit what they accept. -/
theorem ofColumn_of_accepted (htype : isOrderedKeyType column.logicalType = true)
    (h : Accepted json column.source v) : v ∈ Value.ofColumn json column.logicalType := by
  obtain ⟨hshape, hlogical⟩ := accepted_checks h
  refine ⟨hshape, ?_⟩
  cases hnull : v.isNull with
  | true => exact .inl rfl
  | false =>
    right
    have hbi : column.source.dataType.externalTypeRef = none := by
      have hadm := column.source.dataType.admitted
      cases href : column.source.dataType.externalTypeRef with
      | none => rfl
      | some ref =>
        rw [href] at hadm
        rw [IndexKeyColumn.logicalType, hadm.1] at htype
        cases htype
    have htypes := hlogical hnull
    rw [CatalogDataType.logicalTypeRef, hbi, Option.elim_none, Value.logicalType] at htypes
    cases hext : v.asExternal with
    | some external =>
      rw [hext] at htypes
      cases htypes
    | none =>
      rw [hext] at htypes
      exact LogicalTypeRef.builtin.inj htypes

theorem admitted_of_encode (ho : Ordered columns) {values : List Value} {bytes : Bytes}
    {hasNull : Bool}
    (h : encodeCanonicalKeySpecs json (columns.map (·.source)) values = .ok (bytes, hasNull)) :
    Admitted json columns values := by
  obtain ⟨hlen, final, -, -, ha⟩ := appendAll_of_encode h
  rw [length_map] at hlen
  have hacc := accepted_of_appendAll ha
  refine forall₂_iff_zip.mpr ⟨hlen, fun {column v} hmem => ?_⟩
  refine ofColumn_of_accepted (ho column (of_mem_zip hmem).1) (hacc (column.source, v) ?_)
  rw [zip_map_left]
  exact mem_map.mpr ⟨(column, v), hmem, rfl⟩

/-- A place is kept unless the value is an instant in a leap second. -/
theorem place_stored (column : IndexKeyColumn) (h : v.inLeapSecond = false) :
    column.place (v.inKey column.source).stored = column.place v := by
  cases v with
  | timestamp t => exact congrArg column.place ((Value.stored_eq_iff (.timestamp t)).mpr h)
  | float f =>
    have hplace : (Value.float (canonicalFloat f)).sqlPlace = (Value.float f).sqlPlace := by
      have hkey : (Number.float (canonicalFloat f)).exactKey = (Number.float f).exactKey :=
        congrArg FloatClass.key (classify_canonicalFloat f)
      exact congrArg (fun k : NumberKey => (toLex (2, toLex (k, [])) : ValuePlace)) hkey
    simp only [Value.inKey, Value.stored, IndexKeyColumn.place, Value.isNull, hplace]
    rfl
  | _ => rfl

/-- An instant in a leap second is read as an instant in the next second. -/
theorem sqlPlace_lt_stored (column : IndexKeyColumn) (h : v.inLeapSecond = true) :
    v.isNull = false ∧ (v.inKey column.source).stored.isNull = false ∧
      v.sqlPlace < (v.inKey column.source).stored.sqlPlace := by
  cases v with
  | timestamp t =>
    refine ⟨rfl, rfl, Prod.Lex.right _ (Prod.Lex.left _ _ (Prod.Lex.left _ _ ?_))⟩
    have hnanos : 10 ^ 9 ≤ t.nanos := of_decide_eq_true h
    simp only [dateTimeFromEpochNanos, DateTime.totalNanos]
    omega
  | _ => cases h

/-- A key whose bytes are those of its values. -/
def Canonical (json : Json) (columns : List IndexKeyColumn)
    (key : OrderedIndexKey) : Prop :=
  encodeCanonicalKeySpecs json (columns.map (·.source)) key.values =
    .ok (key.bytes, key.hasNullComponent)

section

variable (h : Canonical json columns key)

include h

theorem Canonical.admitted (ho : Ordered columns) :
    Admitted json columns key.values := admitted_of_encode ho h

/-- **Reading a key**: it has its stored values, if none is empty. -/
theorem Canonical.decode_iff (hne : columns ≠ []) (r : List Value × Bool) :
    decodeCanonicalKeySpecs json key.bytes (columns.map (·.source)) = .ok r ↔
      (∀ v ∈ key.values, v.isEmpty = false) ∧
        r = ((key.stored columns).values, key.hasNullComponent) := by
  have hcols : columns.map (·.source) ≠ [] := by
    rwa [ne_eq, map_eq_nil_iff]
  exact (RadixDb.decode_iff hcols h r).trans
    (and_congr (forall_zip_iff (appendAll_of_encode h).1 (·.isEmpty = false)) Iff.rfl)

theorem Canonical.stored (hne : columns ≠ [])
    (hread : ∀ v ∈ key.values, v.isEmpty = false) : Canonical json columns (key.stored columns) :=
  encode_of_decode ((h.decode_iff hne _).mpr ⟨hread, rfl⟩)

theorem Canonical.stored_eq {other : OrderedIndexKey}
    (h' : Canonical json columns other) (hne : columns ≠ [])
    (hread : ∀ v ∈ key.values, v.isEmpty = false) (hread' : ∀ v ∈ other.values, v.isEmpty = false)
    (hbytes : key.bytes = other.bytes) : key.stored columns = other.stored columns := by
  have hkey := (h.decode_iff hne _).mpr ⟨hread, rfl⟩
  have hother := (h'.decode_iff hne _).mpr ⟨hread', rfl⟩
  rw [hbytes] at hkey
  have heq := ok.inj (hkey.symm.trans hother)
  obtain ⟨hvalues, hnull⟩ := Prod.mk.inj heq
  exact OrderedIndexKey.mk.injEq .. ▸ ⟨hbytes, hvalues, hnull⟩

end

theorem placesOf_stored (columns : List IndexKeyColumn) (key : OrderedIndexKey) :
    placesOf columns (key.stored columns).values =
      zipWith (fun column v => column.place (v.inKey column.source).stored) columns
        key.values := by
  obtain ⟨bytes, values, hasNull⟩ := key
  induction columns generalizing values with
  | nil => rfl
  | cons column columns ih =>
    cases values with
    | nil => rfl
    | cons v values => exact congrArg (column.place (v.inKey column.source).stored :: ·) (ih values)

/-- Without leap seconds, a key is read at its place. -/
theorem keyPlace_stored (hleap : ∀ v ∈ key.values, v.inLeapSecond = false) :
    placesOf columns (key.stored columns).values = placesOf columns key.values := by
  rw [placesOf_stored, placesOf]
  refine ext_getElem (by simp) fun i h1 h2 => ?_
  rw [getElem_zipWith, getElem_zipWith]
  exact place_stored _ (hleap _ (getElem_mem _))

/-- In an ascending column, an instant in a leap second is read at a later place. -/
theorem place_lt_stored (hdir : column.direction = .ascending) (h : v.inLeapSecond = true) :
    column.place v < column.place (v.inKey column.source).stored := by
  obtain ⟨hv, hstored, hlt⟩ := sqlPlace_lt_stored column h
  simp only [IndexKeyColumn.place, hv, hstored, hdir, Bool.false_eq_true, if_false]
  exact ascending_strictMono hlt

/-- In a descending column, it is read at an earlier one. -/
theorem place_stored_lt (hdir : column.direction = .descending) (h : v.inLeapSecond = true) :
    column.place (v.inKey column.source).stored < column.place v := by
  obtain ⟨hv, hstored, hlt⟩ := sqlPlace_lt_stored column h
  simp only [IndexKeyColumn.place, hv, hstored, hdir, Bool.false_eq_true, if_false]
  exact descending_strictAnti hlt

/-- How far the first places of a key move when it is read, if they stay in the columns before:
forward in an ascending column and backward in a descending one, by leap seconds only. -/
theorem take_succ_stored (hc : columns[n]? = some column) (hv : key.values[n]? = some v)
    (h : (placesOf columns (key.stored columns).values).take n =
      (placesOf columns key.values).take n) :
    let written := (placesOf columns key.values).take (n + 1)
    let read := (placesOf columns (key.stored columns).values).take (n + 1)
    (column.direction = .ascending → (written < read ↔ v.inLeapSecond = true) ∧ written ≤ read) ∧
      (column.direction = .descending → (read < written ↔ v.inLeapSecond = true) ∧
        read ≤ written) := by
  have hwritten : (placesOf columns key.values)[n]? = some (column.place v) := by
    rw [placesOf, getElem?_zipWith, hc, hv]
  have hread : (placesOf columns (key.stored columns).values)[n]? =
      some (column.place (v.inKey column.source).stored) := by
    rw [placesOf_stored, getElem?_zipWith, hc, hv]
  have hforward := take_succ_lt_iff h.symm hwritten hread
  have hbackward := take_succ_lt_iff h hread hwritten
  intro written read
  constructor
  · intro hdir
    rw [← not_lt, hforward, hbackward]
    cases hleap : v.inLeapSecond with
    | false => simp [place_stored column hleap]
    | true => simp [place_lt_stored hdir hleap, (place_lt_stored hdir hleap).le]
  · intro hdir
    rw [← not_lt, hforward, hbackward]
    cases hleap : v.inLeapSecond with
    | false => simp [place_stored column hleap]
    | true => simp [place_stored_lt hdir hleap, (place_stored_lt hdir hleap).le]

end

end RadixDb
