import RadixDb.Index.OrderedBuilt

/-!
# Ranges over a key prefix

`scanOrdered` asks an index artifact for the rows in a range. The columns of the range are the first
key columns of an ordered accelerator, which `acceleratorForColumns` looks for; the bounds have a
value for each of them. NULL is never in a range of SQL, so keys with a NULL are left out, if there
is a bound.

The flag by which they are left out speaks of all key columns, and the range only of the first ones.
**A range is answered by exactly its rows if and only if no row in the range has a NULL in any key
column** (`scanOrdered_exact_iff`): a row in the range with a NULL in a later column is lost
(`row_with_null_is_lost`). Without bounds nothing is left out.
-/

namespace RadixDb.RangeAdapter

open List IndexPage OrderedPage OrderedScan

/-! ## The adapter -/

/-- What is stored for an accelerator; of exact ones only the key columns count here. -/
inductive AcceleratorBody where
  | exact
  | ordered (binding : OrderedBinding) (pages : List IndexPageSpec)

structure IndexAccelerator where
  columnIds : List ℕ
  body : AcceleratorBody

/-- An index artifact, with the ids of the columns of its data. -/
structure ArtifactIndexSource where
  dataColumnIds : List ℕ
  accelerators : List IndexAccelerator

def supportedShape (accelerator : IndexAccelerator) (columnIds : List ℕ) (equality : Bool) : Bool :=
  match accelerator.body with
  | .exact => equality && accelerator.columnIds.length == columnIds.length
  | .ordered _ _ =>
    !columnIds.isEmpty && decide (columnIds.length ≤ accelerator.columnIds.length)

def acceleratorForColumns (source : ArtifactIndexSource) (columnOrdinals : List ℕ)
    (equality : Bool) : Option IndexAccelerator := do
  let columnIds ← columnOrdinals.mapM fun ordinal => source.dataColumnIds[ordinal]?
  source.accelerators.find? fun accelerator =>
    supportedShape accelerator columnIds equality &&
      (accelerator.columnIds.zip columnIds).all fun c => c.1 == c.2

/-- The values of a bound, and whether it is inclusive. -/
abbrev RangeBound := List Value × Bool

def makeBound (json : Json) (columns : List IndexKeyColumn) :
    Option RangeBound → FormatResult (Option OrderedIndexBound)
  | none => .ok none
  | some (values, inclusive) => do
    let key ← OrderedIndexKey.fromValues json columns values
    .ok (some ⟨key, inclusive⟩)

/-- `scan_ordered`: nothing if no accelerator fits. -/
def scanOrdered (crc : Crc) (std : LowerExp) (json : Json)
    (sizes : DecodeSizes) (source : ArtifactIndexSource) (columnOrdinals : List ℕ)
    (lower upper : Option RangeBound) (ascending : Bool) (limit : ℕ) :
    FormatResult (Option (List ℕ)) :=
  if columnOrdinals.isEmpty || lower.any (·.1.length != columnOrdinals.length) ||
      upper.any (·.1.length != columnOrdinals.length) then .ok none
  else
    match acceleratorForColumns source columnOrdinals false with
    | none => .ok none
    | some ⟨_, .exact⟩ => .error (.invalid "logical accelerator is not ordered")
    | some ⟨_, .ordered binding pages⟩ => do
      let boundColumns := binding.columns.take columnOrdinals.length
      let lower ← makeBound json boundColumns lower
      let upper ← makeBound json boundColumns upper
      let direction := if ascending then .forward else .reverse
      let rows ← scanOrderedNonNullIndexFromSource crc std json sizes binding pages lower upper
        direction 0 limit
      .ok (some rows)

/-! ## Rows of the source -/

/-- The entries index the rows of the source: each row is in one entry, of its key, and the key of
an entry is that of one of its rows. -/
structure Indexes (json : Json) (columns : List IndexKeyColumn)
    (rows : List (List Value)) (entries : List (PostingEntry OrderedIndexKey)) : Prop where
  of_row : ∀ r values, rows[r]? = some values → ∃ e ∈ entries, r ∈ e.rowOrdinals ∧
    Canonical json columns ⟨e.key.bytes, values, e.key.hasNullComponent⟩
  of_entry : ∀ e ∈ entries, ∀ r ∈ e.rowOrdinals, ∃ values, rows[r]? = some values ∧
    Canonical json columns ⟨e.key.bytes, values, e.key.hasNullComponent⟩
  key_of_row : ∀ e ∈ entries, ∃ r ∈ e.rowOrdinals, rows[r]? = some e.key.values
  once : (entries.flatMap (·.rowOrdinals)).Nodup

/-- Is a key with the places within the bounds? -/
def WithinBounds (columns : List IndexKeyColumn) (lower upper : Option RangeBound)
    (places : List ColumnPlace) : Prop :=
  (∀ b ∈ lower, if b.2 then placesOf columns b.1 ≤ places.take b.1.length
    else placesOf columns b.1 < places.take b.1.length) ∧
  ∀ b ∈ upper, if b.2 then places.take b.1.length ≤ placesOf columns b.1
    else places.take b.1.length < placesOf columns b.1

/-- Is a row in the range over the first `count` columns? -/
def InRange (columns : List IndexKeyColumn) (count : ℕ) (lower upper : Option RangeBound)
    (values : List Value) : Prop :=
  (∀ v ∈ values.take count, v.isNull = false) ∧
    WithinBounds columns lower upper (placesOf columns values)

/-- A bound for the first `count` columns without a NULL. -/
structure BoundOk (json : Json) (columns : List IndexKeyColumn) (count : ℕ)
    (bound : RangeBound) : Prop where
  length_eq : bound.1.length = count
  not_null : ∀ v ∈ bound.1, v.isNull = false
  accepted : ∃ key, OrderedIndexKey.fromValues json (columns.take count) bound.1 = .ok key

/-- No row makes a difference between what is asked for and what is scanned: with a bound, no row in
the range has a NULL in a later column, and without one, no row has a NULL in the columns of the
range. -/
def NoNullMatters (columns : List IndexKeyColumn) (count : ℕ) (lower upper : Option RangeBound)
    (rows : List (List Value)) : Prop :=
  if lower.isNone && upper.isNone then
    ∀ values ∈ rows, ∀ v ∈ values.take count, v.isNull = false
  else
    ∀ values ∈ rows, InRange columns count lower upper values → ∀ v ∈ values, v.isNull = false

section

variable {json : Json} {columns : List IndexKeyColumn} {rows : List (List Value)}
  {entries : List (PostingEntry OrderedIndexKey)}

theorem Indexes.canonical (h : Indexes json columns rows entries) :
    ∀ e ∈ entries, Canonical json columns e.key ∧ e.key.values ∈ rows := by
  intro e he
  obtain ⟨r, hr, hrow⟩ := h.key_of_row e he
  obtain ⟨values, hvalues, hcanon⟩ := h.of_entry e he r hr
  cases hrow.symm.trans hvalues
  exact ⟨hcanon, mem_of_getElem? hrow⟩

theorem Indexes.length_le (h : Indexes json columns rows entries) :
    (entries.flatMap (·.rowOrdinals)).length ≤ rows.length := by
  have hsub : entries.flatMap (·.rowOrdinals) ⊆ range rows.length := by
    intro r hr
    obtain ⟨e, he, hr⟩ := mem_flatMap.mp hr
    obtain ⟨values, hvalues, -⟩ := h.of_entry e he r hr
    exact mem_range.mpr (List.getElem?_eq_some_iff.mp hvalues).1
  simpa using (h.once.subperm hsub).length_le

variable {key : OrderedIndexKey}

theorem placesOf_row {values : List Value} (hne : columns ≠ []) (hk : Canonical json columns key)
    (hv : Canonical json columns ⟨key.bytes, values, key.hasNullComponent⟩)
    (hkey : ∀ v ∈ key.values, v.isEmpty = false ∧ v.inLeapSecond = false)
    (hvalues : ∀ v ∈ values, v.isEmpty = false ∧ v.inLeapSecond = false) :
    placesOf columns key.values = placesOf columns values := by
  let other : OrderedIndexKey := ⟨key.bytes, values, key.hasNullComponent⟩
  have hother : placesOf columns (other.stored columns).values = placesOf columns values :=
    keyPlace_stored fun v h => (hvalues v h).2
  have hstored : key.stored columns = other.stored columns :=
    hk.stored_eq hv hne (fun v h => (hkey v h).1) (fun v h => (hvalues v h).1) rfl
  rw [← keyPlace_stored fun v h => (hkey v h).2, hstored, hother]

variable {lower upper : Option OrderedIndexBound}

theorem within_iff {excluded : OrderedIndexKey → Bool} :
    within columns lower upper excluded key = true ↔ excluded key = false ∧
      WithinBounds columns (lower.map fun b => (b.key.values, b.inclusive))
        (upper.map fun b => (b.key.values, b.inclusive)) (placesOf columns key.values) := by
  have hlower : before columns lower (placesOf columns key.values) = false ↔
      ∀ b ∈ lower.map fun b => (b.key.values, b.inclusive),
        if b.2 then placesOf columns b.1 ≤ (placesOf columns key.values).take b.1.length
        else placesOf columns b.1 < (placesOf columns key.values).take b.1.length := by
    cases lower with
    | none => simp [before]
    | some b => cases hb : b.inclusive <;> simp [before, hb]
  have hupper : after columns upper (placesOf columns key.values) = false ↔
      ∀ b ∈ upper.map fun b => (b.key.values, b.inclusive),
        if b.2 then (placesOf columns key.values).take b.1.length ≤ placesOf columns b.1
        else (placesOf columns key.values).take b.1.length < placesOf columns b.1 := by
    cases upper with
    | none => simp [after]
    | some b => cases hb : b.inclusive <;> simp [after, hb]
  rw [within, Bool.and_eq_true, Bool.and_eq_true, Bool.not_eq_true', Bool.not_eq_true',
    Bool.not_eq_true', hlower, hupper, WithinBounds, and_assoc]

/-- **The rows of a scan** are the rows whose values pass its tests. -/
theorem Indexes.mem_rowsOf_iff (h : Indexes json columns rows entries) (hne : columns ≠ [])
    (hvalues : ∀ values ∈ rows, ∀ v ∈ values, v.isEmpty = false ∧ v.inLeapSecond = false)
    {excludesNull : Bool} {r : ℕ} :
    r ∈ rowsOf (within columns lower upper fun key => excludesNull && key.hasNullComponent)
        entries ↔
      ∃ values, rows[r]? = some values ∧
        (excludesNull = true → ∀ v ∈ values, v.isNull = false) ∧
        WithinBounds columns (lower.map fun b => (b.key.values, b.inclusive))
          (upper.map fun b => (b.key.values, b.inclusive)) (placesOf columns values) := by
  -- an entry and any of its rows have the same places and the same flag
  have htest : ∀ e ∈ entries, ∀ values, values ∈ rows →
      Canonical json columns ⟨e.key.bytes, values, e.key.hasNullComponent⟩ →
      (within columns lower upper (fun key => excludesNull && key.hasNullComponent) e.key = true ↔
        (excludesNull = true → ∀ v ∈ values, v.isNull = false) ∧
        WithinBounds columns (lower.map fun b => (b.key.values, b.inclusive))
          (upper.map fun b => (b.key.values, b.inclusive)) (placesOf columns values)) := by
    intro e he values hmem hcanon
    obtain ⟨hkey, hkeymem⟩ := h.canonical e he
    have hflag : e.key.hasNullComponent = values.any (·.isNull) := hasNull_encode hcanon
    rw [within_iff, placesOf_row hne hkey hcanon (hvalues _ hkeymem) (hvalues _ hmem), hflag]
    cases excludesNull <;> simp
  constructor
  · intro hr
    obtain ⟨e, he, hr⟩ := mem_flatMap.mp hr
    obtain ⟨he, hkeep⟩ := mem_filter.mp he
    obtain ⟨values, hrow, hcanon⟩ := h.of_entry e he r hr
    exact ⟨values, hrow, (htest e he values (mem_of_getElem? hrow) hcanon).mp hkeep⟩
  · rintro ⟨values, hrow, hpass⟩
    obtain ⟨e, he, hr, hcanon⟩ := h.of_row r values hrow
    refine mem_flatMap.mpr ⟨e, mem_filter.mpr ⟨he, ?_⟩, hr⟩
    exact (htest e he values (mem_of_getElem? hrow) hcanon).mpr hpass

end

/-! ## Bounds -/

variable {columns : List IndexKeyColumn}

/-- What is known of the bounds of a scan. -/
structure MadeFrom (json : Json) (columns : List IndexKeyColumn) (count : ℕ)
    (range : Option RangeBound) (bound : Option OrderedIndexBound) : Prop where
  same : range = bound.map fun b => (b.key.values, b.inclusive)
  isBound : ∀ b ∈ bound, IsBound json columns b ∧ b.key.values.length = count ∧
    b.key.hasNullComponent = false

theorem exists_bound {json : Json} {count : ℕ} {range : Option RangeBound}
    (h : ∀ b ∈ range, BoundOk json columns count b) :
    ∃ bound, makeBound json (columns.take count) range = .ok bound ∧
      MadeFrom json columns count range bound := by
  cases range with
  | none => exact ⟨none, rfl, rfl, nofun⟩
  | some b =>
    obtain ⟨values, inclusive⟩ := b
    obtain ⟨hlen, hnull, key, hkey⟩ := h (values, inclusive) rfl
    obtain ⟨-, -, hmade⟩ := ok_of_bind hkey
    obtain ⟨r, hcanon, hmade⟩ := ok_of_bind hmade
    cases hmade
    refine ⟨some ⟨⟨r.1, values, r.2⟩, inclusive⟩, ?_, rfl, ?_⟩
    · simp only [makeBound, hkey, ok_bind]
    · intro b hb
      cases hb
      refine ⟨⟨count, hkey⟩, hlen, ?_⟩
      · rw [hasNull_encode hcanon, any_eq_false]
        intro v hv
        rw [hnull v hv]
        exact Bool.false_ne_true

/-! ## Ranges -/

section

variable {json : Json} {columns : List IndexKeyColumn} {count : ℕ}
  {lower upper : Option RangeBound} {lowerBound upperBound : Option OrderedIndexBound}

/-- Keys with a NULL are left out exactly if there is a bound. -/
theorem MadeFrom.excludesNull_eq (hl : MadeFrom json columns count lower lowerBound)
    (hu : MadeFrom json columns count upper upperBound) :
    excludesNull lowerBound upperBound true = !(lower.isNone && upper.isNone) := by
  have hnull : ((boundsOf lowerBound upperBound).all fun b => !b.key.hasNullComponent) = true := by
    simp only [all_eq_true, Bool.not_eq_true']
    exact forall_mem_append.mpr ⟨fun b hb => (hl.isBound b (Option.mem_toList.mp hb)).2.2,
      fun b hb => (hu.isBound b (Option.mem_toList.mp hb)).2.2⟩
  rw [excludesNull, hnull, hl.same, hu.same]
  cases lowerBound <;> cases upperBound <;> rfl

/-- What is asked for and what is scanned, for rows whose values say in which they are. -/
theorem exact_iff_noNullMatters {rows : List (List Value)} {result : List ℕ}
    (hresult : ∀ r, r ∈ result ↔ ∃ values, rows[r]? = some values ∧
      ((!(lower.isNone && upper.isNone)) = true → ∀ v ∈ values, v.isNull = false) ∧
      WithinBounds columns lower upper (placesOf columns values)) :
    (∀ r, r ∈ result ↔
      ∃ values, rows[r]? = some values ∧ InRange columns count lower upper values) ↔
    NoNullMatters columns count lower upper rows := by
  unfold NoNullMatters
  cases hbds : lower.isNone && upper.isNone with
  | true =>
    -- without bounds every row is scanned
    rw [Bool.and_eq_true, Option.isNone_iff_eq_none, Option.isNone_iff_eq_none] at hbds
    obtain ⟨rfl, rfl⟩ := hbds
    have hwithin : ∀ values, WithinBounds columns none none (placesOf columns values) :=
      fun values => ⟨nofun, nofun⟩
    constructor
    · intro h values hmem
      obtain ⟨r, hr⟩ := mem_iff_getElem?.mp hmem
      obtain ⟨values', hr', hrange⟩ := (h r).mp ((hresult r).mpr ⟨values, hr, nofun, hwithin _⟩)
      rw [hr] at hr'
      cases hr'
      exact hrange.1
    · intro h r
      rw [hresult]
      constructor
      · rintro ⟨values, hr, -, hin⟩
        exact ⟨values, hr, h values (mem_of_getElem? hr), hin⟩
      · rintro ⟨values, hr, hrange⟩
        exact ⟨values, hr, nofun, hrange.2⟩
  | false =>
    rw [hbds] at hresult
    constructor
    · intro h values hmem hrange
      obtain ⟨r, hr⟩ := mem_iff_getElem?.mp hmem
      obtain ⟨values', hr', hnull, -⟩ := (hresult r).mp ((h r).mpr ⟨values, hr, hrange⟩)
      rw [hr] at hr'
      cases hr'
      exact hnull rfl
    · intro h r
      rw [hresult]
      constructor
      · rintro ⟨values, hr, hnull, hin⟩
        exact ⟨values, hr, fun v hv => hnull rfl v (mem_of_mem_take hv), hin⟩
      · rintro ⟨values, hr, hrange⟩
        exact ⟨values, hr, fun _ => h values (mem_of_getElem? hr) hrange, hrange.2⟩

end

/-- **Ranges over a key prefix.** A range over an index that can be read is answered by exactly its
rows if and only if no row with a NULL makes a difference. -/
theorem scanOrdered_exact_iff (crc : Bytes → UInt32) (std : LowerExp)
    (json : Bytes → Option String) (sizes : DecodeSizes) (source : ArtifactIndexSource)
    (columnOrdinals columnIds : List ℕ) (lower upper : Option RangeBound) (ascending : Bool)
    (limit : ℕ) (binding : OrderedBinding) (pages : List IndexPageSpec) (codec : IndexPageCodec)
    (limits : PageBuildLimits) (rows : List (List Value))
    (entries : List (PostingEntry OrderedIndexKey)) (hordinals : columnOrdinals ≠ [])
    (hfound : acceleratorForColumns source columnOrdinals false =
      some ⟨columnIds, .ordered binding pages⟩)
    (hsource : binding.sourceRowCount ≤ 2 ^ 64)
    (hbuild : visitOrderedIndexPagesFromSorted crc std entries binding.columns binding.unique
      binding.sourceRowCount codec limits = .ok pages)
    (hindexes : Indexes json binding.columns rows entries)
    (hvalues : ∀ values ∈ rows, ∀ v ∈ values, v.isEmpty = false ∧ v.inLeapSecond = false)
    (hmemory : ∀ page ∈ pages, WithinMemory sizes binding page)
    (hlower : ∀ b ∈ lower, BoundOk json binding.columns columnOrdinals.length b)
    (hupper : ∀ b ∈ upper, BoundOk json binding.columns columnOrdinals.length b)
    (hlimit : rows.length ≤ limit) :
    ∃ result, scanOrdered crc std json sizes source columnOrdinals lower upper ascending limit =
        .ok (some result) ∧ result.Nodup ∧
      ((∀ r, r ∈ result ↔ ∃ values, rows[r]? = some values ∧
          InRange binding.columns columnOrdinals.length lower upper values) ↔
        NoNullMatters binding.columns columnOrdinals.length lower upper rows) := by
  obtain ⟨l, hl, hmadel⟩ := exists_bound hlower
  obtain ⟨u, hu, hmadeu⟩ := exists_bound hupper
  have hgiven : Given json binding entries :=
    ⟨hsource, fun e he => (hindexes.canonical e he).1⟩
  have hkeys : ∀ e ∈ entries, ∀ v ∈ e.key.values, v.isEmpty = false ∧ v.inLeapSecond = false :=
    fun e he => hvalues _ (hindexes.canonical e he).2
  have hbds : ∀ b ∈ boundsOf l u, IsBound json binding.columns b :=
    forall_mem_append.mpr ⟨fun b hb => (hmadel.isBound b (Option.mem_toList.mp hb)).1,
      fun b hb => (hmadeu.isBound b (Option.mem_toList.mp hb)).1⟩
  have hsame : SamePrefix l u := fun x hx y hy =>
    (hmadel.isBound x hx).2.1.trans (hmadeu.isBound y hy).2.1.symm
  let direction : IndexScanDirection := if ascending then .forward else .reverse
  let found := rowsOf (within binding.columns l u
    fun key => excludesNull l u true && key.hasNullComponent) entries
  have hsub : found.Sublist (entries.flatMap (·.rowOrdinals)) := filter_sublist.flatMap _
  have hscan : scanOrderedNonNullIndexFromSource crc std json sizes binding pages l u direction 0
      limit = .ok (directed direction found) := by
    have hall : (directed direction found).length ≤ limit := by
      refine le_trans ?_ (hindexes.length_le.trans hlimit)
      cases direction with
      | forward => exact hsub.length_le
      | reverse => exact (length_reverse).trans_le hsub.length_le
    rw [scanOrderedNonNullIndexFromSource, scan_of_readable hgiven hbuild hkeys hmemory hbds
      hsame, drop_zero, take_of_length_le hall]
  have hmem : ∀ r, r ∈ directed direction found ↔ r ∈ found := by
    intro r
    cases direction with
    | forward => exact Iff.rfl
    | reverse => exact mem_reverse
  have hnodup : (directed direction found).Nodup := by
    cases direction with
    | forward => exact hindexes.once.sublist hsub
    | reverse => exact nodup_reverse.mpr (hindexes.once.sublist hsub)
  refine ⟨directed direction found, ?_, hnodup, exact_iff_noNullMatters fun r => ?_⟩
  · have hempty : columnOrdinals.isEmpty = false := isEmpty_eq_false_iff.mpr hordinals
    have hlens : ∀ range : Option RangeBound,
        (∀ b ∈ range, BoundOk json binding.columns columnOrdinals.length b) →
        range.any (·.1.length != columnOrdinals.length) = false := by
      intro range hrange
      cases range with
      | none => rfl
      | some b =>
        rw [Option.any_some, (hrange b rfl).length_eq]
        exact bne_self_eq_false _
    simp only [scanOrdered, hempty, hlens lower hlower, hlens upper hupper, Bool.or_self,
      Bool.false_eq_true, if_false, hfound, hl, hu, bind, Except.bind]
    rw [hscan]
  · rw [hmem, hindexes.mem_rowsOf_iff binding.columns_ne hvalues, hmadel.excludesNull_eq hmadeu,
      ← hmadel.same, ← hmadeu.same]

/-! ## A small index -/

/-- An ascending boolean column with NULL. -/
def nullableBoolean : IndexKeyColumn := ⟨⟨booleanColumn.dataType, true⟩, .ascending, .first⟩

/-- An index on two boolean columns, with two rows. -/
def pairBinding : OrderedBinding := ⟨[nullableBoolean, nullableBoolean], false, 2, rfl⟩

/-- An artifact with the index on its columns 0 and 1. -/
def pairSource (pages : List IndexPageSpec) : ArtifactIndexSource :=
  ⟨[7, 8], [⟨[7, 8], .ordered pairBinding pages⟩]⟩

/-- The entries of the rows (false, true) and (true, true). -/
def fullEntries : List (PostingEntry OrderedIndexKey) :=
  [⟨⟨[1, 4, 0, 0, 1, 0, 0, 0, 0, 0, 0, 0, 1, 4, 0, 0, 1, 0, 0, 0, 1, 0, 0, 0],
      [.boolean false, .boolean true], false⟩, [0], .complete⟩,
    ⟨⟨[1, 4, 0, 0, 1, 0, 0, 0, 1, 0, 0, 0, 1, 4, 0, 0, 1, 0, 0, 0, 1, 0, 0, 0],
      [.boolean true, .boolean true], false⟩, [1], .complete⟩]

/-- The entries of the rows (false, NULL) and (true, NULL). -/
def nullEntries : List (PostingEntry OrderedIndexKey) :=
  [⟨⟨[1, 4, 0, 0, 1, 0, 0, 0, 0, 0, 0, 0, 0, 4, 0, 0, 0, 0, 0, 0],
      [.boolean false, .null .boolean], true⟩, [0], .complete⟩,
    ⟨⟨[1, 4, 0, 0, 1, 0, 0, 0, 1, 0, 0, 0, 0, 4, 0, 0, 0, 0, 0, 0],
      [.boolean true, .null .boolean], true⟩, [1], .complete⟩]

/-- Two rows in the order of the index. -/
theorem indexes_two {a b : PostingEntry OrderedIndexKey} (ha : a.rowOrdinals = [0])
    (hb : b.rowOrdinals = [1]) (hkeyA : Canonical (fun _ => none) columns a.key)
    (hkeyB : Canonical (fun _ => none) columns b.key) :
    Indexes (fun _ => none) columns ([a, b].map (·.key.values)) [a, b] := by
  refine ⟨fun r values hr => ?_, ?_, ?_, ?_⟩
  · match r, hr with
    | 0, rfl => exact ⟨a, mem_cons_self, ha ▸ mem_singleton_self 0, hkeyA⟩
    | 1, rfl => exact ⟨b, mem_pair.mpr (.inr rfl), hb ▸ mem_singleton_self 1, hkeyB⟩
  · simp only [forall_mem_cons, ha, hb]
    exact ⟨⟨⟨_, rfl, hkeyA⟩, nofun⟩, ⟨⟨_, rfl, hkeyB⟩, nofun⟩, nofun⟩
  · simp only [forall_mem_cons, ha, hb]
    exact ⟨⟨0, mem_singleton_self 0, rfl⟩, ⟨1, mem_singleton_self 1, rfl⟩, nofun⟩
  · simp [ha, hb]

theorem scanOrdered_exact_iff_two :
    ∃ pages, visitOrderedIndexPagesFromSorted (fun _ => 0) .reference fullEntries
        pairBinding.columns false 2 .none sampleLimits = .ok pages ∧
      ∃ result, scanOrdered (fun _ => 0) .reference (fun _ => none) ⟨64, 64, 32⟩
          (pairSource pages) [0] (some ([.boolean true], true)) none true 2 = .ok (some result) ∧
        ∀ r, r ∈ result ↔ ∃ values, (fullEntries.map (·.key.values))[r]? = some values ∧
          InRange pairBinding.columns 1 (some ([.boolean true], true)) none values := by
  refine ⟨_, rfl, ?_⟩
  obtain ⟨result, hresult, -, hexact⟩ := scanOrdered_exact_iff (fun _ => 0) .reference
    (fun _ => none) ⟨64, 64, 32⟩ (pairSource _) [0] [7, 8] (some ([.boolean true], true)) none true
    2 pairBinding _ .none sampleLimits (fullEntries.map (·.key.values)) fullEntries nofun rfl
    (by decide) rfl (indexes_two rfl rfl rfl rfl) (by decide)
    (forall_mem_cons.mpr ⟨rfl, forall_mem_singleton.mpr rfl⟩)
    (fun b hb => by cases hb; exact ⟨rfl, by decide, _, rfl⟩) nofun (by decide)
  have hnull : ∀ values ∈ fullEntries.map (·.key.values), ∀ v ∈ values, v.isNull = false := by
    decide
  exact ⟨result, hresult, hexact.mpr fun values hmem _ => hnull values hmem⟩

/-- The row (true, NULL) has true in the first column, and the range from true over the first column
does not find it. -/
theorem row_with_null_is_lost :
    Indexes (fun _ => none) pairBinding.columns (nullEntries.map (·.key.values)) nullEntries ∧
    (nullEntries.map (·.key.values))[1]? = some [.boolean true, .null .boolean] ∧
    InRange pairBinding.columns 1 (some ([.boolean true], true)) none
      [.boolean true, .null .boolean] ∧
    ∃ pages, visitOrderedIndexPagesFromSorted (fun _ => 0) .reference nullEntries
        pairBinding.columns false 2 .none sampleLimits = .ok pages ∧
      scanOrdered (fun _ => 0) .reference (fun _ => none) ⟨64, 64, 32⟩ (pairSource pages) [0]
        (some ([.boolean true], true)) none true 2 = .ok (some []) := by
  refine ⟨indexes_two rfl rfl rfl rfl, rfl, ⟨by decide, fun b hb => ?_, nofun⟩, _, rfl, rfl⟩
  cases hb
  exact le_refl _

end RadixDb.RangeAdapter
