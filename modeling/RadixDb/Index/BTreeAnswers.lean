import RadixDb.Index.BTreeInvariant

/-!
# Which rows a B-tree index returns

SQL wants the rows whose value compares with the probe as the operator says. NULL compares with
nothing, and neither do values of different types. The index takes its answers out of the order of
its tree, where everything compares with everything: NULL is below all values, types are ranked, and
dates are ordered by their bytes.

**An answer is exact if and only if no stored value is mistaken** (`answers_exact_iff`), which
happens in three ways: SQL does not know the comparison but the order of the tree passes the test of
the operator (`Mistaken`), the value and the probe are dates and their bytes and their days answer
differently, or, for ranges only, the bounds cross for the tree while values lie between them for
SQL (`MistakenInRange`).

So rows that hold NULL are returned by `<`, `<=` and `<>` (`null_is_returned`).
-/

namespace RadixDb

open Option Except List Bytes

/-- What a comparison operator asks of the order of a value and the probe. -/
def Operator.test : Operator → Option (Ordering → Bool)
  | .eq | .inList => some (· == .eq)
  | .ne | .notIn => some (· != .eq)
  | .gt => some (· == .gt)
  | .gte => some (· != .lt)
  | .lt => some (· == .lt)
  | .lte => some (· != .gt)
  | .like | .isNull | .isNotNull => none

def lowerTest (inclusive : Bool) : Ordering → Bool :=
  if inclusive then (· != .lt) else (· == .gt)

def upperTest (inclusive : Bool) : Ordering → Bool :=
  if inclusive then (· != .gt) else (· == .lt)

namespace Value

section

variable (std : LowerExp)

/-- SQL knows how two values compare, and the comparison passes. -/
def Passes (test : Ordering → Bool) (v p : Value) : Prop :=
  ∃ o, v.compare std p = .ok o ∧ test o = true

/-- SQL does not know how two values compare. -/
def Unknown (v p : Value) : Prop := v.isNull = true ∨ ∀ o, v.compare std p ≠ .ok o

/-- Both values are dates, and they are tested differently by their bytes and by their days. -/
def DatesDiffer (test : Ordering → Bool) (v p : Value) : Prop :=
  ∃ x y, v.asDateDays = some x ∧ p.asDateDays = some y ∧
    test (compareBytes (intBytes 4 x) (intBytes 4 y)) ≠ test (cmp x y)

/-- The index answers wrongly for a value. -/
def Mistaken (test : Ordering → Bool) (v p : Value) : Prop :=
  Unknown std v p ∧ test (v.ordCmp std p) = true ∨ DatesDiffer test v p

end

variable {std : LowerExp} {v p : Value}

theorem not_unknown_iff : ¬ Unknown std v p ↔ v.isNull = false ∧ ∃ o, v.compare std p = .ok o := by
  simp [Unknown]

/-- SQL knows how two dates compare. -/
theorem known_of_dates (hv : v.asDateDays.isSome) (hp : p.asDateDays.isSome) :
    ¬ Unknown std v p := by
  obtain ⟨x, hx⟩ := isSome_iff_exists.mp hv
  obtain ⟨y, hy⟩ := isSome_iff_exists.mp hp
  refine not_unknown_iff.mpr ⟨?_, _, (compare_dates std hx hy).1⟩
  cases v with
  | null s => cases hx
  | _ => rfl

/-- **The order of the tree and SQL agree on a value exactly if it is not mistaken.** -/
theorem test_iff_passes (test : Ordering → Bool) :
    (test (v.ordCmp std p) = true ↔ v.isNull = false ∧ Passes std test v p) ↔
      ¬ Mistaken std test v p := by
  by_cases hu : Unknown std v p
  · have hnot : ¬ (v.isNull = false ∧ Passes std test v p) :=
      fun ⟨hn, o, ho, _⟩ => not_unknown_iff.mpr ⟨hn, o, ho⟩ hu
    have hdates : ¬ DatesDiffer test v p := fun ⟨x, y, hx, hy, _⟩ =>
      known_of_dates (by rw [hx]; rfl) (by rw [hy]; rfl) hu
    rw [iff_false_right hnot]
    simp [Mistaken, hu, hdates]
  · obtain ⟨hn, o, ho⟩ := not_unknown_iff.mp hu
    have hpass : v.isNull = false ∧ Passes std test v p ↔ test o = true := by
      constructor
      · rintro ⟨-, o', ho', ht⟩
        rw [ho] at ho'
        rwa [ok.inj ho']
      · exact fun ht => ⟨hn, o, ho, ht⟩
    rw [hpass]
    by_cases hd : DatesInOrder v p
    · -- the two orders agree
      rw [(ordCmp_eq_iff_datesInOrder ho).mpr hd]
      refine iff_of_true Iff.rfl ?_
      rintro (⟨h, -⟩ | ⟨x, y, hx, hy, hne⟩)
      · exact hu h
      · exact hne (by rw [hd x y hx hy])
    · unfold DatesInOrder at hd
      push Not at hd
      obtain ⟨x, y, hx, hy, -⟩ := hd
      obtain ⟨hc, hb⟩ := compare_dates std hx hy
      rw [hb, ← ok.inj (hc.symm.trans ho)]
      have hm : Mistaken std test v p ↔
          test (compareBytes (intBytes 4 x) (intBytes 4 y)) ≠
            test (cmp x y) := by
        constructor
        · rintro (⟨h, -⟩ | ⟨x', y', hx', hy', hne⟩)
          · exact absurd h hu
          · rw [hx] at hx'
            rw [hy] at hy'
            rwa [some.inj hx', some.inj hy']
        · exact fun hne => .inr ⟨x, y, hx, hy, hne⟩
      rw [hm, not_not]
      exact Bool.eq_iff_iff.symm

/-! ## Ranges -/

section

variable (std) (min max : Option Value) (includeMin includeMax : Bool)

/-- The order of the tree has a value between the bounds. -/
def IsBetween (v : Value) : Prop :=
  (∀ a ∈ min, lowerTest includeMin (v.ordCmp std a) = true) ∧
    ∀ b ∈ max, upperTest includeMax (v.ordCmp std b) = true

/-- SQL has a value between the bounds. -/
def PassesBounds (v : Value) : Prop :=
  (∀ a ∈ min, Passes std (lowerTest includeMin) v a) ∧
    ∀ b ∈ max, Passes std (upperTest includeMax) v b

/-- Both bounds are there, and the order of the tree has nothing between them. -/
def Crosses : Prop :=
  ∃ a ∈ min, ∃ b ∈ max, BTreeIndex.crossing std a b includeMin includeMax = true

/-- The index answers wrongly for a value and a range. -/
def MistakenInRange (v : Value) : Prop :=
  ((v.isNull = true ∨ (∃ a ∈ min, Unknown std v a) ∨ ∃ b ∈ max, Unknown std v b) ∧
      ¬ Crosses std min max includeMin includeMax ∧
      IsBetween std min max includeMin includeMax v) ∨
    (v.isNull = false ∧ PassesBounds std min max includeMin includeMax v ∧
      Crosses std min max includeMin includeMax) ∨
    v.asDateDays.isSome ∧ (∀ a ∈ min, a.asDateDays.isSome) ∧ (∀ b ∈ max, b.asDateDays.isSome) ∧
      ¬ (IsBetween std min max includeMin includeMax v ↔
        PassesBounds std min max includeMin includeMax v)

end

variable {json : Json} {min max : Option Value} {includeMin includeMax : Bool}

/-- A bound, if there is one, has the shape of its type. -/
def ValidBound (json : Json) (bound : Option Value) : Prop :=
  ∀ a ∈ bound, a.validateShape json = .ok ()

/-- A date is compared in SQL with dates only. -/
theorem date_of_compare {o : Ordering} (hv : v.asDateDays.isSome) (h : v.compare std p = .ok o) :
    p.asDateDays.isSome := by
  obtain ⟨x, hx⟩ := isSome_iff_exists.mp hv
  cases v with
  | extension l =>
    have hl := (asDateDays_eq_some hx).1
    have hnone := not_numbers_of_date (b := p) hx
    unfold compare at h
    rw [compareCanonicalNumeric_none std hnone] at h
    split_ifs at h with h1 h2 htype
    · simp [isNull] at h2
    · cases p with
      | extension r =>
        have hmarker : DataType.date.asU8 ≠ externalValueMarker := by decide
        have huuid : DataType.date.asU8 ≠ DataType.uuid.asU8 := by decide
        have hdecimal : DataType.date.asU8 ≠ DataType.decimal.asU8 := by decide
        simp only [compareSameType, compareExtensions, hl, hx, some.injEq, hmarker, huuid,
          hdecimal, if_true, if_false] at h
        split_ifs at h
        cases hy : (Value.extension r).asDateDays with
        | none => simp [hy] at h
        | some y => rfl
      | _ => cases h
  | _ => cases hx

theorem not_crosses_of_isBetween (hvalid : v.validateShape json = .ok ())
    (hmin : ValidBound json min) (hmax : ValidBound json max) (hv : v.asDateDays.isSome)
    (hdmin : ∀ a ∈ min, a.asDateDays.isSome) (hdmax : ∀ b ∈ max, b.asDateDays.isSome)
    (h : IsBetween std min max includeMin includeMax v) :
    ¬ Crosses std min max includeMin includeMax := by
  rintro ⟨a, ha, b, hb, hcross⟩
  obtain ⟨place, hc⟩ := BTreeIndex.follows_column std json .date
  have hcol : ∀ {u : Value}, u.validateShape json = .ok () → u.asDateDays.isSome →
      u ∈ ofColumn json .date := fun {u} hu hd => by
    obtain ⟨x, hx⟩ := isSome_iff_exists.mp hd
    cases u with
    | extension data => exact ⟨hu, .inr (by rw [dataType, (asDateDays_eq_some hx).1]; rfl)⟩
    | _ => cases hx
  have hva := hc v (hcol hvalid hv) a (hcol (hmin a ha) (hdmin a ha))
  have hvb := hc v (hcol hvalid hv) b (hcol (hmax b hb) (hdmax b hb))
  have hab := hc a (hcol (hmin a ha) (hdmin a ha)) b (hcol (hmax b hb) (hdmax b hb))
  have hlower := h.1 a ha
  have hupper := h.2 b hb
  unfold BTreeIndex.crossing at hcross
  -- a lies at or before the value and the value at or before b, strictly where a bound is open
  cases hord : a.ordCmp std b <;> cases includeMin <;> cases includeMax <;>
    simp [hord, lowerTest, upperTest, hva.eq_lt, hva.eq_gt, hvb.eq_lt, hvb.eq_gt]
      at hcross hlower hupper <;>
    simp only [hab.eq_gt, hab.eq_eq] at hord <;>
    order

theorem known_iff :
    ¬ (v.isNull = true ∨ (∃ a ∈ min, Unknown std v a) ∨ ∃ b ∈ max, Unknown std v b) ↔
      v.isNull = false ∧ (∀ a ∈ min, ∃ o, v.compare std a = .ok o) ∧
        ∀ b ∈ max, ∃ o, v.compare std b = .ok o := by
  cases hn : v.isNull <;> simp [Unknown, hn]

/-- **The order of the tree and SQL agree on a range exactly if the value is not mistaken.** -/
theorem isBetween_iff_passesBounds (hvalid : v.validateShape json = .ok ())
    (hmin : ValidBound json min) (hmax : ValidBound json max) :
    (¬ Crosses std min max includeMin includeMax ∧ IsBetween std min max includeMin includeMax v ↔
      v.isNull = false ∧ PassesBounds std min max includeMin includeMax v) ↔
      ¬ MistakenInRange std min max includeMin includeMax v := by
  by_cases hu : v.isNull = true ∨ (∃ a ∈ min, Unknown std v a) ∨ ∃ b ∈ max, Unknown std v b
  case pos =>
    have hpasses : ¬ (v.isNull = false ∧ PassesBounds std min max includeMin includeMax v) :=
      fun ⟨hn, hp⟩ => known_iff.mpr ⟨hn, fun a ha => (hp.1 a ha).imp fun _ => And.left,
        fun b hb => (hp.2 b hb).imp fun _ => And.left⟩ hu
    rw [iff_false_right hpasses]
    refine not_congr ⟨fun h => .inl ⟨hu, h⟩, ?_⟩
    rintro (⟨-, h⟩ | ⟨hn, hp, -⟩ | ⟨hv, hda, hdb, -⟩)
    · exact h
    · exact absurd ⟨hn, hp⟩ hpasses
    · have hdate : ∀ {a : Value}, a.asDateDays.isSome →
          v.isNull = false ∧ ∃ o, v.compare std a = .ok o := fun ha =>
        not_unknown_iff.mp (known_of_dates hv ha)
      exact absurd hu (known_iff.mpr
        ⟨(hdate hv).1, fun a ha => (hdate (hda a ha)).2, fun b hb => (hdate (hdb b hb)).2⟩)
  case neg =>
    obtain ⟨hn, hcmp, hcmp'⟩ := known_iff.mp hu
    rw [and_iff_right hn]
    by_cases hd : v.asDateDays.isSome
    · -- dates: the bounds do not cross if the value is between them
      have hda : ∀ a ∈ min, a.asDateDays.isSome := fun a ha =>
        (hcmp a ha).elim fun o ho => date_of_compare hd ho
      have hdb : ∀ b ∈ max, b.asDateDays.isSome := fun b hb =>
        (hcmp' b hb).elim fun o ho => date_of_compare hd ho
      have hcrosses : IsBetween std min max includeMin includeMax v →
          ¬ Crosses std min max includeMin includeMax :=
        not_crosses_of_isBetween hvalid hmin hmax hd hda hdb
      rw [and_iff_right_of_imp hcrosses]
      constructor
      · rintro h (⟨hu', -⟩ | ⟨-, hp, hcross⟩ | ⟨-, -, -, hne⟩)
        · exact hu hu'
        · exact hcrosses (h.mpr hp) hcross
        · exact hne h
      · intro h
        by_contra hne
        exact h (.inr (.inr ⟨hd, hda, hdb, hne⟩))
    · -- other values: the two orders agree
      have hpass : ∀ {a : Value} (test : Ordering → Bool), (∃ o, v.compare std a = .ok o) →
          (test (v.ordCmp std a) = true ↔ Passes std test v a) := fun {a} test ⟨o, ho⟩ => by
        rw [(ordCmp_eq_iff_datesInOrder ho).mpr (datesInOrder_of_none (by simpa using hd))]
        simp [Passes, ho]
      have hiff : IsBetween std min max includeMin includeMax v ↔
          PassesBounds std min max includeMin includeMax v :=
        and_congr (forall₂_congr fun a ha => hpass _ (hcmp a ha))
          (forall₂_congr fun b hb => hpass _ (hcmp' b hb))
      rw [hiff]
      constructor
      · rintro h (⟨hu', -⟩ | ⟨-, hp, hcross⟩ | ⟨hv, -⟩)
        · exact hu hu'
        · exact (h.mpr hp).1 hcross
        · exact hd hv
      · intro h
        exact ⟨fun hp => hp.2, fun hp => ⟨fun hcross => h (.inr (.inl ⟨hn, hp, hcross⟩)), hp⟩⟩

end Value

namespace BTreeIndex

open Value

/-! ## Rows -/

section

variable {std : LowerExp} {json : Json} {type : DataType} {s : BTreeIndex}
  {t : Rows}

/-- The rows of some entries of the tree, selected by their values. -/
def Selects (s : BTreeIndex) (sel : Value → Prop) (rows : List ℤ) : Prop :=
  ∃ entries : List (Value × List ℤ), rows = rowIds entries ∧ entries.Sublist s.sortedValues ∧
    ∀ e ∈ s.sortedValues, e ∈ entries ↔ sel e.1

variable {sel : Value → Prop} {rows : List ℤ}

theorem Selects.congr {sel' : Value → Prop} (h : Selects s sel rows)
    (hsel : ∀ w, sel w ↔ sel' w) : Selects s sel' rows :=
  (funext fun w => propext (hsel w)) ▸ h

section

variable (h : Ok std (ofColumn json type) s t)

include h

theorem rows_of_selects (hrows : Selects s sel rows) :
    rows.Nodup ∧ ∀ r, r ∈ rows ↔ ∃ w, s.rowToValue.lookup r = some w ∧ sel w := by
  obtain ⟨entries, rfl, hsub, hsel⟩ := hrows
  constructor
  · refine nodup_flatMap.mpr
      ⟨fun e he => (h.linked.rows e (hsub.subset he)).2.imp ne_of_lt, ?_⟩
    -- a row is in the rows of one value only
    refine (h.linked.sorted.sublist hsub).imp_of_mem fun {d e} hd he hlt r hrd hre => ?_
    have hrd' := (h.linked.link r d.1).mpr ⟨d.2, hsub.subset hd, hrd⟩
    have hre' := (h.linked.link r e.1).mpr ⟨e.2, hsub.subset he, hre⟩
    obtain ⟨place, hc⟩ := follows_column std json type
    rw [← some.inj (hrd'.symm.trans hre'),
      ordCmp_self hc (h.linked.column d (hsub.subset hd))] at hlt
    cases hlt
  · intro r
    rw [rowIds, mem_flatMap]
    constructor
    · rintro ⟨e, he, hr⟩
      have hmem := hsub.subset he
      exact ⟨e.1, (h.linked.link r e.1).mpr ⟨e.2, hmem, hr⟩, (hsel e hmem).mp he⟩
    · rintro ⟨w, hw, hs⟩
      obtain ⟨rows, hmem, hr⟩ := (h.linked.link r w).mp hw
      exact ⟨(w, rows), (hsel _ hmem).mpr hs, hr⟩

/-- What does not tell equal values apart holds of the stored value of a row if it holds of the
value the row was given. -/
theorem exists_value_iff
    (hsel : ∀ v ∈ ofColumn json type, ∀ w ∈ ofColumn json type, v.ordCmp std w = .eq →
      (sel v ↔ sel w)) (r : ℤ) :
    (∃ w, s.rowToValue.lookup r = some w ∧ sel w) ↔ ∃ v, t r = some v ∧ sel v := by
  have hr := h.holds r
  cases hback : s.rowToValue.lookup r <;> cases ht : t r <;> rw [hback, ht] at hr
  case some.some w v =>
    obtain ⟨hv, heq⟩ := rel_some_some.mp hr
    obtain ⟨rows, hmem, -⟩ := (h.linked.link r w).mp hback
    simp [hsel v hv w (h.linked.column _ hmem) heq]
  all_goals cases hr

variable {min max : Option Value}

theorem selects_range (hmin : ValidBound json min) (hmax : ValidBound json max)
    (includeMin includeMax : Bool) :
    Selects s (IsBetween std min max includeMin includeMax)
      (rowIds (OrderedMap.range (ordCmp std) s.sortedValues
        (min.elim .unbounded (boundOf · includeMin))
        (max.elim .unbounded (boundOf · includeMax)))) := by
  refine ⟨_, rfl, OrderedMap.range_sublist _ _ _, fun e he => ?_⟩
  have hplaced : ∀ {bound : Option Value} {inclusive : Bool}, ValidBound json bound →
      (bound.elim .unbounded (boundOf · inclusive)).Placed (ℕ ×ₗ (NumberKey ×ₗ Bytes)) (ordCmp std)
        (ofColumn json type) := by
    intro bound inclusive hbound k hk
    cases bound with
    | none => simp at hk
    | some a =>
      have hak : a = k := by
        cases inclusive <;> simpa [boundOf] using hk
      exact follows_insert std type (hak ▸ hbound a rfl)
  have hswap : ∀ {a : Value}, a.validateShape json = .ok () →
      a.ordCmp std e.1 = (e.1.ordCmp std a).swap := fun {a} ha => by
    obtain ⟨place, hc⟩ := follows_insert std type ha
    exact hc.swap (.inr (h.linked.column e he)) (.inl rfl)
  rw [OrderedMap.mem_range h.linked.sorted h.linked.column (hplaced hmin) (hplaced hmax),
    and_iff_right he]
  refine and_congr ?_ ?_
  · cases min with
    | none => simp [OrderedMap.Bound.AdmitsAbove]
    | some a =>
      have ha := hswap (hmin a rfl)
      cases includeMin <;> cases hord : e.1.ordCmp std a <;>
        simp [boundOf, OrderedMap.Bound.AdmitsAbove, lowerTest, ha, hord]
  · cases max with
    | none => simp [OrderedMap.Bound.AdmitsBelow]
    | some b =>
      have hb := hswap (hmax b rfl)
      cases includeMax <;> cases hord : e.1.ordCmp std b <;>
        simp [boundOf, OrderedMap.Bound.AdmitsBelow, upperTest, hb, hord]

/-- The entries that an operator selects are those whose key passes its test in the tree's order. -/
theorem findWithOp_select {p : Value} (hp : p.validateShape json = .ok ()) {op : Operator}
    {test : Ordering → Bool} (htest : op.test = some test) :
    Selects s (fun w => test (w.ordCmp std p) = true) (s.findWithOp std op p) := by
  obtain ⟨place, hc⟩ := follows_insert std type hp
  have hcol : ∀ e ∈ s.sortedValues, e.1 ∈ insert p (ofColumn json type) :=
    fun e he => .inr (h.linked.column e he)
  have hnone : ValidBound json none := fun _ => nofun
  have hsome : ValidBound json (some p) := fun a ha => by cases ha; exact hp
  have hequal : Selects s (fun w => (w.ordCmp std p == .eq) = true)
      (rowIds (OrderedMap.getKeyValue (ordCmp std) p s.sortedValues).toList) := by
    refine ⟨_, rfl, ?_, fun e he => ?_⟩
    · cases hfind : OrderedMap.getKeyValue (ordCmp std) p s.sortedValues with
      | none => exact nil_sublist _
      | some e =>
        exact singleton_sublist.mpr
          ((OrderedMap.getKeyValue_eq_some h.linked.sorted hc (.inl rfl) hcol).mp hfind).1
    · dsimp only
      rw [mem_toList, OrderedMap.getKeyValue_eq_some h.linked.sorted hc (.inl rfl) hcol,
        and_iff_right he, hc.swap (hcol e he) (.inl rfl), beq_iff_eq]
      cases e.1.ordCmp std p <;> decide
  have hother : Selects s (fun w => (w.ordCmp std p != .eq) = true)
      (rowIds (s.sortedValues.filter fun e => !e.1.eq std p)) := by
    refine ⟨_, rfl, filter_sublist, fun e he => ?_⟩
    dsimp only
    rw [mem_filter, and_iff_right he, Bool.not_eq_true', bne_iff_ne, Ne,
      ordCmp_eq_iff (h.linked.column e he).1 hp, Bool.not_eq_true]
  cases op <;> cases htest
  case eq.refl | inList.refl => exact hequal
  case ne.refl | notIn.refl => exact hother
  case lt.refl =>
    exact (selects_range h hnone hsome true false).congr fun w => by simp [IsBetween, upperTest]
  case lte.refl =>
    exact (selects_range h hnone hsome true true).congr fun w => by simp [IsBetween, upperTest]
  case gt.refl =>
    exact (selects_range h hsome hnone false true).congr fun w => by simp [IsBetween, lowerTest]
  case gte.refl =>
    exact (selects_range h hsome hnone true true).congr fun w => by simp [IsBetween, lowerTest]

/-- A range of the index: the rows of the entries within the bounds, unless these cross. -/
theorem getRowIdsInRange_select (hmin : ValidBound json min) (hmax : ValidBound json max)
    (includeMin includeMax : Bool) :
    ∃ rows,
      s.getRowIdsInRangeInto std min.toList max.toList includeMin includeMax [] = .ok rows ∧
      (∀ a b, min = some a → max = some b →
        s.findRange std [a] [b] includeMin includeMax = .ok (rows.map .ofRow)) ∧
      Selects s (fun w => ¬ Crosses std min max includeMin includeMax ∧
        IsBetween std min max includeMin includeMax w) rows := by
  have hopen : s.checkClosed = .ok () := by rw [checkClosed, h.isOpen]; rfl
  have hhead : ∀ o : Option Value, o.toList.head? = o := fun o => by cases o <;> rfl
  have hempty : crossingBounds std min max includeMin includeMax = true ↔
      Crosses std min max includeMin includeMax := by
    cases min <;> cases max <;> simp [crossingBounds, Crosses]
  simp only [getRowIdsInRangeInto, hopen, bind, Except.bind, hhead, nil_append]
  by_cases hcross : Crosses std min max includeMin includeMax
  · refine ⟨[], by rw [if_pos (hempty.mpr hcross)], fun a b ha hb => ?_, [], rfl,
      nil_sublist _, fun e _ => iff_of_false not_mem_nil fun he => he.1 hcross⟩
    subst ha
    subst hb
    have hab : crossing std a b includeMin includeMax = true := hempty.mpr hcross
    simp only [findRange, hopen, bind]
    rw [if_pos hab]
    rfl
  · refine ⟨_, by rw [if_neg (fun he => hcross (hempty.mp he))], fun a b ha hb => ?_, ?_⟩
    · subst ha
      subst hb
      have hab : ¬ crossing std a b includeMin includeMax = true :=
        fun he => hcross (hempty.mp he)
      simp only [findRange, hopen, bind]
      rw [if_neg hab]
      rfl
    · exact (selects_range h hmin hmax includeMin includeMax).congr fun w => by simp [hcross]

end

theorem rows_exact_iff {want mistaken : Value → Prop}
    (h : ∀ r, r ∈ rows ↔ ∃ v, t r = some v ∧ sel v)
    (hm : ∀ r v, t r = some v → ((sel v ↔ want v) ↔ ¬ mistaken v)) :
    (∀ r, r ∈ rows ↔ ∃ v, t r = some v ∧ want v) ↔ ∀ r v, t r = some v → ¬ mistaken v := by
  constructor
  · intro hexact r v hv
    refine (hm r v hv).mp ?_
    have hr := (h r).symm.trans (hexact r)
    simpa [hv] using hr
  · intro hnone r
    rw [h r]
    refine exists_congr fun v => and_congr_right fun hv => ?_
    exact (hm r v hv).mpr (hnone r v hv)

/-- **The answers of an index are exact if and only if no stored value is mistaken**, at every
moment of every run, for every comparison operator and probe, and for every range. -/
theorem answers_exact_iff (std : LowerExp) (json : Bytes → Option String) (type : DataType)
    (name columnName : String) (unique : Bool) (ops : List Command)
    (hops : ∀ c ∈ ops, ∀ v ∈ c.values, v ∈ ofColumn json type) (m : ℕ) :
    let x := Run.after (step std) (new name columnName unique, fun _ => none) ops m
    (∀ op test p, op.test = some test → p.validateShape json = .ok () →
      ∃ rows : List ℤ, x.1.findWithOperator std op [p] = .ok (rows.map .ofRow) ∧ rows.Nodup ∧
        ((∀ r, r ∈ rows ↔ ∃ v, x.2 r = some v ∧ v.isNull = false ∧ Passes std test v p) ↔
          ∀ r v, x.2 r = some v → ¬ Mistaken std test v p)) ∧
    ∀ (min max : Option Value) (includeMin includeMax : Bool),
      (∀ a ∈ min, a.validateShape json = .ok ()) → (∀ b ∈ max, b.validateShape json = .ok ()) →
      ∃ rows : List ℤ,
        x.1.getRowIdsInRangeInto std min.toList max.toList includeMin includeMax [] = .ok rows ∧
        (∀ a b, min = some a → max = some b →
          x.1.findRange std [a] [b] includeMin includeMax = .ok (rows.map .ofRow)) ∧ rows.Nodup ∧
        ((∀ r, r ∈ rows ↔ ∃ v, x.2 r = some v ∧ v.isNull = false ∧
            PassesBounds std min max includeMin includeMax v) ↔
          ∀ r v, x.2 r = some v → ¬ MistakenInRange std min max includeMin includeMax v) := by
  intro x
  have h : Ok std (ofColumn json type) x.1 x.2 := ok_after hops m
  have hvalue : ∀ r v, x.2 r = some v → v ∈ ofColumn json type := fun r v hv => by
    have hr := h.holds r
    rw [hv] at hr
    generalize x.1.rowToValue.lookup r = back at hr
    cases hr with
    | some hw => exact hw.1
  constructor
  · intro op test p htest hp
    obtain ⟨hnodup, hrows⟩ := rows_of_selects h (findWithOp_select h hp htest)
    refine ⟨_, ?_, hnodup, ?_⟩
    · simp only [findWithOperator, checkClosed, h.isOpen, bind]
      rfl
    · refine rows_exact_iff (fun r => (hrows r).trans (exists_value_iff h ?_ r))
        fun r v hv => test_iff_passes test
      intro v hv w hw heq
      rw [ordCmp_congr hv hw hp heq]
  · intro min max includeMin includeMax hmin hmax
    obtain ⟨rows, hget, hfind, hsel⟩ :=
      getRowIdsInRange_select h hmin hmax includeMin includeMax
    obtain ⟨hnodup, hrows⟩ := rows_of_selects h hsel
    refine ⟨rows, hget, hfind, hnodup, ?_⟩
    refine rows_exact_iff (fun r => (hrows r).trans (exists_value_iff h ?_ r))
      fun r v hv => isBetween_iff_passesBounds (hvalue r v hv).1 hmin hmax
    intro v hv w hw heq
    refine and_congr_right fun _ => and_congr (forall₂_congr fun a ha => ?_)
      (forall₂_congr fun b hb => ?_)
    · rw [ordCmp_congr hv hw (hmin a ha) heq]
    · rw [ordCmp_congr hv hw (hmax b hb) heq]

/-- Row 1 holds NULL, row 2 holds 5. -/
def nullAndFive : List Command :=
  [.add [.null .integer] 1, .add [.integer ⟨5, by decide⟩] 2]

/-- With a row that holds NULL, `=` is exact if no value is mistaken. -/
theorem answers_exact_iff_nullAndFive :
    (∀ c ∈ nullAndFive, ∀ v ∈ c.values, v ∈ ofColumn (fun _ => none) .integer) ∧
    let std := LowerExp.reference
    let x := Run.after (step std) (new "idx" "c" false, fun _ => none) nullAndFive 2
    let p : Value := .integer ⟨5, by decide⟩
    ∃ rows : List ℤ, x.1.findWithOperator std .eq [p] = .ok (rows.map .ofRow) ∧ rows.Nodup ∧
      ((∀ r, r ∈ rows ↔ ∃ v, x.2 r = some v ∧ v.isNull = false ∧ Passes std (· == .eq) v p) ↔
        ∀ r v, x.2 r = some v → ¬ Mistaken std (· == .eq) v p) := by
  have hops : ∀ c ∈ nullAndFive, ∀ v ∈ c.values, v ∈ ofColumn (fun _ => none) .integer :=
    forall_mem_cons.mpr ⟨forall_mem_singleton.mpr ⟨rfl, .inl rfl⟩,
      forall_mem_singleton.mpr (forall_mem_singleton.mpr ⟨rfl, .inr rfl⟩)⟩
  exact ⟨hops, (answers_exact_iff LowerExp.reference (fun _ => none) .integer "idx" "c" false
    nullAndFive hops 2).1 .eq _ _ rfl rfl⟩

/-- The row that holds NULL is returned by `<`, `<=`, `<>` and by a range without lower bound; and
of two dates the later one is returned as being before a day that it is after. -/
theorem null_is_returned :
    let std := LowerExp.reference
    let x := Run.after (step std) (new "idx" "c" false, fun _ => none) nullAndFive 2
    let seven : Value := .integer ⟨7, by decide⟩
    let day (days : ℤ) : Value := .extension (DataType.date.asU8 :: intBytes 4 days)
    let y := Run.after (step std) (new "idx" "d" false, fun _ => none)
      [.add [day 1] 1, .add [day 256] 2] 2
    x.2 1 = some (.null .integer) ∧
    x.1.findWithOperator std .lt [seven] = .ok [.ofRow 1, .ofRow 2] ∧
    x.1.findWithOperator std .lte [seven] = .ok [.ofRow 1, .ofRow 2] ∧
    x.1.findWithOperator std .ne [seven] = .ok [.ofRow 1, .ofRow 2] ∧
    x.1.getRowIdsInRangeInto std [] [seven] true true [] = .ok [1, 2] ∧
    y.1.findWithOperator std .lt [day 200] = .ok [.ofRow 2, .ofRow 1] ∧
    (day 256).compare std (day 200) = .ok .gt := by
  refine ⟨rfl, rfl, rfl, rfl, rfl, rfl, rfl⟩

end

end BTreeIndex

end RadixDb
