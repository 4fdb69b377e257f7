import RadixDb.Data.ColumnRoundTrip
import RadixDb.Key.Components
import RadixDb.Publication.Artifact

/-!
# The columns and the records of an artifact

A block is written only if all its rows, each with its own copy of its value, are within the budget
(`expandedBytes_le_of_admitted`), so the limit on expanded dictionaries is never met when the block
is read. **The columns of an artifact that was written are read, with the values as they are
stored** (`read_of_written`).

An index gets a record for each row, in order, with the key of its values. Rows are given to it as
they are written, or as they are read; a value has the same key either way. So the keys of the
records are those of the columns that are read (`Indexed`), for both ways of building.
-/

namespace RadixDb

open List Except

open Bytes Column

/-! ## The budget -/

section

variable {json : Json} {column : DataColumnSpec} {v : Value} {values : List Value}
  {budget : PublicationBuildBudget} {encoding : DataValueEncoding}

section

variable (hbuiltin : column.dataType.externalTypeRef = none)

include hbuiltin

theorem cellLength_le {n : ℕ} (htype : isDictionaryType column.dataType.logicalType = true)
    (h : variableBytes json column v = .ok n) : cellLength json column v ≤ n := by
  unfold cellLength
  cases hcell : variableCell json column v with
  | error e => exact Nat.zero_le n
  | ok cell =>
    refine Nat.le_of_eq ?_
    unfold variableCell at hcell
    unfold variableBytes at h
    cases hnull : v.isNull with
    | true =>
      rw [hnull, if_pos rfl] at h hcell
      cases h
      cases hcell
      rfl
    | false =>
      simp only [hnull, Bool.false_eq_true, if_false, hbuiltin, appendColumnNonNullBytes,
        appendNonNullRepresentation] at h hcell
      obtain ⟨bytes, hbytes, hlimit⟩ := ok_of_bind hcell
      split_ifs at hlimit
      cases hlimit
      generalize column.dataType.logicalType = type at htype h hbytes
      cases type with
      | text | json | bytes =>
        simp only [nonNullPayload] at hbytes
        split at hbytes
        · rename_i payload hpay
          cases hbytes
          simp only [hpay] at h
          cases h
          rfl
        · cases hbytes
      | _ => cases htype

theorem expandedBytes_le {n : ℕ} (htype : isDictionaryType column.dataType.logicalType = true)
    (h : encodedVariableBytes json column values = .ok n) :
    expandedBytes json column values ≤ n := by
  obtain ⟨lengths, hlens, hsum⟩ := ok_of_bind h
  cases hsum
  have hall := forall₂_of_mapM hlens
  refine Forall₂.sum_le_sum ?_
  exact forall₂_map_left_iff.mpr (hall.imp fun _ _ hv => cellLength_le hbuiltin htype hv)

/-- **A block that may have a dictionary is admitted only if its expanded rows are well within the
limit of the reader.** -/
theorem expandedBytes_le_of_admitted (hencoding : encoding ≠ .plain)
    (h : budget.admitColumnBlock json column values encoding = .ok ()) :
    expandedBytes json column values ≤ maxLogicalBytesPerBlock := by
  obtain ⟨payload, hpay, h⟩ := ok_of_bind h
  dsimp only at h
  generalize (if (fixedWidth column.dataType.logicalType column.dataType.parameter1).isSome = true
    then 0 else (values.length + 1) * 4) = offsets at h
  split_ifs at h with hdict hresid
  have htype : isDictionaryType column.dataType.logicalType = true := by
    simpa [hencoding] using hdict
  have hwidth : fixedWidth column.dataType.logicalType column.dataType.parameter1 = none := by
    generalize column.dataType.logicalType = type at htype
    cases type with
    | text | json | bytes => rfl
    | _ => cases htype
  rw [columnPayloadBytes, hwidth] at hpay
  have hle := expandedBytes_le hbuiltin htype hpay
  have hbounded := budget.bounded
  have hthree : payload * 3 ≤ residentBytes encoding values.length payload
      (32 + validityBytes values.length + offsets + payload) := by
    unfold residentBytes
    cases encoding with
    | plain => exact absurd rfl hencoding
    | dictionary | adaptive =>
      dsimp only
      omega
  unfold PublicationBuildBudget.dataBlockBytes at hresid
  simp only [maxFanoutResidentBytes] at hbounded
  simp only [maxLogicalBytesPerBlock]
  omega

end

end

/-! ## Reading what was written -/

section

variable {json : Json} {lz4 : Lz4} {column : DataColumnSpec} {values : List Value}
  {budget : PublicationBuildBudget} {plans : List ColumnPlan} {encoding : DataValueEncoding}
  {codec : DataPhysicalCodec}

/-- What was chosen is one of the two encodings, and a dictionary only if it was asked for. -/
theorem chooseColumn_cases {chosen : EncodedColumn}
    (h : chooseColumn json lz4 column values encoding codec = .ok chosen) :
    ∃ e, (e ≠ .plain → encoding ≠ .plain) ∧
      encodeColumn json lz4 column values codec e = .ok chosen := by
  unfold chooseColumn at h
  split_ifs at h with hadaptive htype
  · obtain ⟨dictionary, hdict, h⟩ := ok_of_bind h
    obtain ⟨plain, hplain, h⟩ := ok_of_bind h
    have hne : encoding ≠ .plain := hadaptive ▸ nofun
    have hchosen := ok.inj h
    split_ifs at hchosen
    · exact ⟨.dictionary, fun _ => hne, hchosen ▸ hdict⟩
    · exact ⟨.plain, fun _ => hne, hchosen ▸ hplain⟩
  · exact ⟨encoding, id, h⟩

/-- **A block that was admitted and written is read.** -/
theorem decode_of_block (hlz4 : lz4.Lossless) {block : DataBlockRef} {stored : Bytes}
    {group : DataRowGroup} (hrows : group.rowCount = values.length)
    (hadm : budget.admitColumnBlock json column values encoding = .ok ())
    (h : columnBlock json lz4 column values encoding codec = .ok (block, stored)) :
    decodeColumnPayload json lz4 column group block stored =
      .ok (values.map (asRead column)) := by
  obtain ⟨chosen, hchosen, h⟩ := ok_of_bind h
  obtain ⟨-, -, h⟩ := ok_of_bind h
  cases h
  obtain ⟨e, he, henc⟩ := chooseColumn_cases hchosen
  obtain ⟨r, hpay, henc⟩ := ok_of_bind henc
  cases henc
  refine (decodeColumnPayload_encode (fun _ => hlz4) hrows hpay).1 fun hlong => ?_
  -- only a dictionary has a limit on its expanded rows
  cases e with
  | plain | adaptive => exact hlong
  | dictionary =>
    obtain ⟨-, ⟨hplain, -⟩ | ⟨-, -, hdict⟩⟩ := encodeColumnPayload_cases hpay
    · cases hplain
    · unfold encodeDictionary at hdict
      split_ifs at hdict with hext
      have hbuiltin := Option.not_isSome_iff_eq_none.mp hext
      have hle := expandedBytes_le_of_admitted hbuiltin (he nofun) hadm
      exact absurd hlong.2 (not_lt.mpr hle)

variable {ordinal : ℕ} {rows : List (List Value)}

theorem columnOf_values (hwidth : ∀ row ∈ rows, ordinal < row.length) :
    Forall₂ (fun row v => row[ordinal]? = some v) rows (columnOf rows ordinal) := by
  induction rows with
  | nil => exact .nil
  | cons row rows ih =>
    obtain ⟨hrow, hrows⟩ := forall_mem_cons.mp hwidth
    have hvalue : row[ordinal]? = some row[ordinal] := getElem?_eq_getElem hrow
    rw [columnOf, filterMap_cons_some (f := fun row => row[ordinal]?) hvalue]
    exact .cons hvalue (ih hrows)

/-- **The columns of a group that was written are read.** -/
theorem read_of_written (hlz4 : lz4.Lossless) {blocks : List (DataBlockRef × Bytes)}
    (h : writeEncodedRowGroup json lz4 budget plans rows = .ok blocks) {group : DataGroup}
    (hrows : group.rowGroup.rowCount = rows.length) (hblocks : group.blocks = blocks)
    {column : DataColumnSpec} (hcol : (plans.map (·.column))[ordinal]? = some column) :
    readDataColumnFromSource json lz4 (plans.map (·.column)) group ordinal =
      .ok ((columnOf rows ordinal).map (asRead column)) := by
  unfold writeEncodedRowGroup at h
  dsimp only at h
  split_ifs at h with hbuffers
  obtain ⟨_, hadm, h⟩ := ok_of_bind h
  have hadm := forM_eq_ok_iff.mp hadm
  have hwritten := forall₂_of_mapM h
  rw [getElem?_map, Option.map_eq_some_iff] at hcol
  obtain ⟨plan, hplan, rfl⟩ := hcol
  obtain ⟨hlt, -⟩ := List.getElem?_eq_some_iff.mp hplan
  have hvalues : (plans.zip ((range plans.length).map (columnOf rows)))[ordinal]? =
      some (plan, columnOf rows ordinal) := by
    rw [getElem?_zip_eq_some, getElem?_map, getElem?_range hlt]
    exact ⟨hplan, rfl⟩
  have hlength : (columnOf rows ordinal).length = rows.length := by
    have hall := (not_or.mp hbuffers).2
    rw [Bool.not_eq_true, any_eq_false] at hall
    have hmem : columnOf rows ordinal ∈ (range plans.length).map (columnOf rows) :=
      mem_map_of_mem (mem_range.mpr hlt)
    simpa using hall _ hmem
  have hmem := mem_of_getElem? hvalues
  obtain ⟨block, hblock, hcolumnBlock⟩ := hwritten.exists_right hvalues
  have hread : group.blocks[ordinal]? = some block := hblocks ▸ hblock
  have hcols : (plans.map (·.column))[ordinal]? = some plan.column := by
    rw [getElem?_map, hplan]
    rfl
  rw [readDataColumnFromSource, hcols, hread]
  exact decode_of_block hlz4 (hrows.trans hlength.symm) (hadm _ hmem) hcolumnBlock

end

namespace Runs

/-! ## The records of an index -/

/-- The record of a row: its key is the one of the values. -/
structure RecordOf (json : Json) (keys : List (ℕ × DataColumnSpec))
    (values : List Value) (rowOrdinal : ℕ) (record : RunRecord ExactRunKey) : Prop where
  row : record.rowOrdinal = rowOrdinal
  key : encodeCanonicalKeySpecs json (keys.map Prod.snd) values =
    .ok (record.key.1.bytes, record.key.1.hasNullComponent)

/-- The values of a row of columns. -/
def RowAt (cols : List (List Value)) (i : ℕ) (values : List Value) : Prop :=
  Forall₂ (fun col v => col[i]? = some v) cols values

/-- The records of rows from an ordinal on, with the values in the columns of the key. -/
def Recorded (json : Json) (keys : List (ℕ × DataColumnSpec))
    (rows : List (List Value)) (first : ℕ) (records : List (RunRecord ExactRunKey)) : Prop :=
  Forall₂ (fun row record => ∃ values,
    Forall₂ (fun key v => row.1[key.1]? = some v) keys values ∧
      RecordOf json keys values row.2 record) (rows.zipIdx first) records

/-- The columns of the key are read, and there is a record for each row of them. -/
def GroupIndexed (json : Json) (lz4 : Lz4) (columns : List DataColumnSpec)
    (keys : List (ℕ × DataColumnSpec)) (group : DataGroup)
    (records : List (RunRecord ExactRunKey)) : Prop :=
  ∃ cols, Forall₂ (fun key col =>
      readDataColumnFromSource json lz4 columns group key.1 = .ok col ∧
        col.length = group.rowGroup.rowCount) keys cols ∧
    Forall₂ (fun i record => ∃ values, RowAt cols i values ∧
        RecordOf json keys values (group.firstRowOrdinal + i) record)
      (range group.rowGroup.rowCount) records

/-- **The records of an index are those of the columns as they are read.** -/
def Indexed (json : Json) (lz4 : Lz4) (columns : List DataColumnSpec)
    (keys : List (ℕ × DataColumnSpec)) (groups : List DataGroup)
    (records : List (RunRecord ExactRunKey)) : Prop :=
  ∃ parts, records = parts.flatten ∧
    Forall₂ (GroupIndexed json lz4 columns keys) groups parts

section

variable {json : Json} {lz4 : Lz4} {crc : Crc} {spec : BuildSpec}
  {keys : List (ℕ × DataColumnSpec)} {builder builder' : IndexRunBuilder ExactRunKey}

theorem pushAll_append (records more : List (RunRecord ExactRunKey)) :
    builder.pushAll exactRuns crc spec (records ++ more) =
      builder.pushAll exactRuns crc spec records >>= fun next =>
        next.pushAll exactRuns crc spec more := by
  induction records generalizing builder with
  | nil => rfl
  | cons record records ih =>
    simp only [cons_append, IndexRunBuilder.pushAll, bind_assoc]
    exact bind_congr fun next => ih

theorem pushEncoded_cases {encoded : Bytes × Bool} {row : ℕ}
    (h : pushEncoded crc spec builder encoded row = .ok builder') :
    ∃ key : ExactRunKey, key.1 = ⟨encoded.1, encoded.2⟩ ∧
      builder.pushAll exactRuns crc spec [⟨key, row⟩] = .ok builder' := by
  obtain ⟨key, hkey, hpush⟩ := ok_of_bind h
  simp only [exactRuns] at hkey
  split_ifs at hkey
  cases hkey
  refine ⟨_, rfl, bind_eq_ok.mpr ⟨builder', hpush, rfl⟩⟩

variable {row : List Value} {first : ℕ} {rows : List (List Value)} {columns : List DataColumnSpec}
  {records : List (RunRecord ExactRunKey)}

theorem appendProjected_eq {s t : CanonicalKeyState} (h : appendProjected json row s keys = .ok t) :
    ∃ values, Forall₂ (fun key v => row[key.1]? = some v) keys values ∧
      s.appendAll json ((keys.map Prod.snd).zip values) = .ok t := by
  induction keys generalizing s with
  | nil =>
    cases h
    exact ⟨[], .nil, rfl⟩
  | cons key keys ih =>
    rw [appendProjected] at h
    split at h
    · cases h
    · rename_i value hvalue
      obtain ⟨next, hnext, h⟩ := ok_of_bind h
      obtain ⟨values, hvalues, happ⟩ := ih h
      exact ⟨value :: values, .cons hvalue hvalues, bind_eq_ok.mpr ⟨next, hnext, happ⟩⟩

theorem encodeProjected_eq {r : Bytes × Bool}
    (h : encodeCanonicalProjectedKeySpecs json keys row = .ok r) :
    ∃ values, Forall₂ (fun key v => row[key.1]? = some v) keys values ∧
      encodeCanonicalKeySpecs json (keys.map Prod.snd) values = .ok r := by
  obtain ⟨t, ht, hfinish⟩ := ok_of_bind h
  obtain ⟨values, hvalues, happ⟩ := appendProjected_eq ht
  refine ⟨values, hvalues, ?_⟩
  rwa [encodeCanonicalKeySpecs, length_map, if_neg (not_not.mpr hvalues.length_eq), happ]

/-- **Rows that were visited while they were written.** -/
theorem visitRows_records (h : visitRows json crc spec keys builder rows first = .ok builder') :
    ∃ records, builder.pushAll exactRuns crc spec records = .ok builder' ∧
      Recorded json keys rows first records := by
  induction rows generalizing builder first with
  | nil =>
    cases h
    exact ⟨[], rfl, .nil⟩
  | cons row rows ih =>
    obtain ⟨next, hvisit, h⟩ := ok_of_bind h
    obtain ⟨encoded, henc, hpush⟩ := ok_of_bind hvisit
    obtain ⟨values, hvalues, hkey⟩ := encodeProjected_eq henc
    obtain ⟨key, hkeyOf, hpush⟩ := pushEncoded_cases hpush
    obtain ⟨records, hall, hrecs⟩ := ih h
    refine ⟨⟨key, first⟩ :: records, ?_, .cons ⟨values, hvalues, rfl, ?_⟩ hrecs⟩
    · rwa [← singleton_append, pushAll_append, hpush]
    · rw [hkey, hkeyOf]

theorem visitProjectedRows_records {columns : List (Option (List Value))} {cols : List (List Value)}
    (hcols : Forall₂ (fun key col => columns[key.1]?.join = some col) keys cols)
    {count relative : ℕ}
    (h : visitProjectedRows json crc spec keys columns first count relative builder =
      .ok builder') :
    ∃ records, builder.pushAll exactRuns crc spec records = .ok builder' ∧
      Forall₂ (fun i record => ∃ values, RowAt cols i values ∧
        RecordOf json keys values (first + i) record) (range' relative count) records := by
  induction count generalizing builder relative with
  | zero =>
    cases h
    exact ⟨[], rfl, .nil⟩
  | succ count ih =>
    obtain ⟨next, hvisit, h⟩ := ok_of_bind h
    obtain ⟨values, hvalues, hvisit⟩ := ok_of_bind hvisit
    obtain ⟨encoded, hkey, hpush⟩ := ok_of_bind hvisit
    obtain ⟨key, hkeyOf, hpush⟩ := pushEncoded_cases hpush
    obtain ⟨records, hall, hrecs⟩ := ih h
    have hrow : RowAt cols relative values := by
      have hvalues := forall₂_of_mapM hvalues
      refine forall₂_iff_get.mpr ⟨hcols.length_eq.symm.trans hvalues.length_eq, ?_⟩
      intro i hi hi'
      have hik : i < keys.length := hvalues.length_eq ▸ hi'
      have hcol := (forall₂_iff_get.mp hcols).2 i hik hi
      have hvalue := (forall₂_iff_get.mp hvalues).2 i hik hi'
      rw [hcol, Option.bind_some] at hvalue
      split at hvalue
      · rename_i v hv
        cases hvalue
        exact hv
      · cases hvalue
    refine ⟨⟨key, first + relative⟩ :: records, ?_, .cons ⟨values, hrow, rfl, ?_⟩ hrecs⟩
    · rwa [← singleton_append, pushAll_append, hpush]
    · rw [hkey, hkeyOf]

theorem projectColumns_reads {group : DataGroup}
    {projected : List (Option (List Value))} (hkeys : ∀ key ∈ keys, key.1 < columns.length)
    (h : projectColumns json keys lz4 columns group = .ok projected) :
    ∃ cols, Forall₂ (fun key col => projected[key.1]?.join = some col) keys cols ∧
      Forall₂ (fun key col => readDataColumnFromSource json lz4 columns group key.1 = .ok col ∧
        col.length = group.rowGroup.rowCount) keys cols := by
  have hall := forall₂_of_mapM h
  have hcols : ∀ key ∈ keys, ∃ col, projected[key.1]?.join = some col ∧
      readDataColumnFromSource json lz4 columns group key.1 = .ok col ∧
        col.length = group.rowGroup.rowCount := by
    intro key hmem
    obtain ⟨read, hread, hcol⟩ := hall.exists_right (getElem?_range (hkeys key hmem))
    have hneeded : keys.any (·.1 == key.1) = true :=
      any_eq_true.mpr ⟨key, hmem, beq_self_eq_true _⟩
    rw [if_pos hneeded] at hcol
    obtain ⟨col, hdec, hcol⟩ := ok_of_bind hcol
    by_cases hlength : col.length = group.rowGroup.rowCount
    · cases (if_neg (not_not.mpr hlength)).symm.trans hcol
      exact ⟨col, by rw [hread]; rfl, hdec, hlength⟩
    · rw [if_pos hlength, refuse] at hcol
      cases hcol
  obtain ⟨cols, hcols⟩ := exists_forall₂ hcols
  exact ⟨cols, hcols.imp fun _ _ h => h.1, hcols.imp fun _ _ h => h.2⟩

variable {groups : List DataGroup}

/-- **An index that was built from the columns.** -/
theorem rebuildGroups_indexed (hkeys : ∀ key ∈ keys, key.1 < columns.length)
    (h : rebuildGroups json crc spec keys lz4 columns groups builder = .ok builder') :
    ∃ records, builder.pushAll exactRuns crc spec records = .ok builder' ∧
      Indexed json lz4 columns keys groups records := by
  induction groups generalizing builder with
  | nil =>
    cases h
    exact ⟨[], rfl, [], rfl, .nil⟩
  | cons group groups ih =>
    obtain ⟨projected, hprojected, h⟩ := ok_of_bind h
    obtain ⟨next, hvisit, h⟩ := ok_of_bind h
    obtain ⟨cols, hcols, hreads⟩ := projectColumns_reads hkeys hprojected
    obtain ⟨part, hpart, hrecs⟩ :=
      visitProjectedRows_records hcols (Checked.ofExcept_eq_ok.mp hvisit)
    obtain ⟨_, hall, parts, rfl, hparts⟩ := ih h
    rw [← range_eq_range'] at hrecs
    refine ⟨part ++ parts.flatten, ?_, part :: parts, rfl, .cons ⟨cols, hreads, hrecs⟩ hparts⟩
    rwa [pushAll_append, hpart]

theorem component_asRead (column : DataColumnSpec) (v : Value) (start : ℕ) (r : Bytes × Bool)
    (h : CanonicalKeyState.component json start column v = .ok r) :
    CanonicalKeyState.component json start column (asRead column v) = .ok r := by
  unfold asRead
  cases hnull : v.isNull with
  | true =>
    simp only [CanonicalKeyState.component, hnull, if_true] at h
    simpa only [CanonicalKeyState.component, if_true, columnNull, Value.isNull] using h
  | false =>
    simp only [CanonicalKeyState.component, hnull, Bool.false_eq_true, if_false] at h ⊢
    obtain ⟨payload, hpay, h⟩ := ok_of_bind h
    have hstored : v.stored.isNull = false := by
      cases v with
      | null type => cases hnull
      | _ => rfl
    have hagain : appendCanonicalNonNullBytes json column v.stored = .ok payload := by
      obtain ⟨bytes, happ, hcanon⟩ := ok_of_bind hpay
      refine bind_eq_ok.mpr ⟨bytes, append_stored happ, ?_⟩
      split_ifs at hcanon ⊢ with hfloat
      · cases v with
        | float f => exact hcanon
        | _ => cases hcanon
      · exact hcanon
    rw [if_neg (by rw [hstored]; exact Bool.false_ne_true)]
    exact bind_eq_ok.mpr ⟨payload, hagain, h⟩

/-- The values of a row in the columns of the key, as they are read. -/
theorem rowAt_asRead {i : ℕ} {values : List Value}
    (hrow : rows[i]? = some row) (hwidth : ∀ row ∈ rows, ∀ key ∈ keys, key.1 < row.length)
    (hvalues : Forall₂ (fun key v => row[key.1]? = some v) keys values) :
    RowAt (keys.map fun key => (columnOf rows key.1).map (asRead key.2)) i
      ((keys.map Prod.snd).zipWith asRead values) := by
  induction hvalues with
  | nil => exact .nil
  | @cons key v keys values hv _ ih =>
    refine .cons ?_ (ih fun row hmem => (forall_mem_cons.mp (hwidth row hmem)).2)
    have hkey : ∀ row ∈ rows, key.1 < row.length := fun row hmem =>
      hwidth row hmem key mem_cons_self
    obtain ⟨v', hv', heq⟩ := (columnOf_values hkey).exists_right hrow
    cases hv.symm.trans heq
    rw [getElem?_map, hv']
    rfl

variable {budget : PublicationBuildBudget} {plans : List ColumnPlan}

theorem groupIndexed_of_written (hlz4 : lz4.Lossless) {blocks : List (DataBlockRef × Bytes)}
    (hwritten : writeEncodedRowGroup json lz4 budget plans rows = .ok blocks)
    (hcount : 0 < rows.length ∧ rows.length ≤ maxRowsPerGroup)
    (hkeys : ∀ key ∈ keys, (plans.map (·.column))[key.1]? = some key.2)
    (hwidth : ∀ row ∈ rows, row.length = plans.length)
    (hrecs : Recorded json keys rows first records) :
    GroupIndexed json lz4 (plans.map (·.column)) keys ⟨first, ⟨rows.length, hcount⟩, blocks⟩
      records := by
  have hinside : ∀ row ∈ rows, ∀ key ∈ keys, key.1 < row.length := by
    intro row hmem key hkey
    obtain ⟨hlt, -⟩ := List.getElem?_eq_some_iff.mp (hkeys key hkey)
    rw [length_map] at hlt
    exact hwidth row hmem ▸ hlt
  refine ⟨keys.map fun key => (columnOf rows key.1).map (asRead key.2), ?_, ?_⟩
  · rw [forall₂_map_right_iff, forall₂_same]
    intro key hkey
    refine ⟨read_of_written hlz4 hwritten rfl rfl (hkeys key hkey), ?_⟩
    rw [length_map]
    exact (columnOf_values fun row hmem => hinside row hmem key hkey).length_eq.symm
  · refine forall₂_iff_get.mpr ⟨?_, fun i hi hi' => ?_⟩
    · rw [length_range, ← Forall₂.length_eq hrecs, length_zipIdx]
    · have hrows : i < rows.length := by simpa using hi
      have hrow : (rows.zipIdx first)[i]? = some (rows[i], first + i) := by
        rw [getElem?_zipIdx, getElem?_eq_getElem hrows]
        rfl
      obtain ⟨record, hrecord, values, hvalues, hof⟩ := Forall₂.exists_right hrecs hrow
      obtain ⟨_, hget⟩ := List.getElem?_eq_some_iff.mp hrecord
      rw [get_eq_getElem, get_eq_getElem, hget, getElem_range]
      refine ⟨_, rowAt_asRead (getElem?_eq_getElem hrows) hinside hvalues, hof.row, ?_⟩
      exact encode_map component_asRead hof.key

/-- **An index that was built while the artifact was written.** -/
theorem writeRowGroups_indexed (hlz4 : lz4.Lossless)
    (hkeys : ∀ key ∈ keys, (plans.map (·.column))[key.1]? = some key.2)
    {rows : List (List (List Value))}
    (hwidth : ∀ group ∈ rows, ∀ row ∈ group, row.length = plans.length)
    (hwritten : writeRowGroups json lz4 budget plans rows first = .ok groups)
    (hrecs : Recorded json keys rows.flatten first records) :
    Indexed json lz4 (plans.map (·.column)) keys groups records := by
  induction rows generalizing first groups records with
  | nil =>
    cases hwritten
    cases hrecs
    exact ⟨[], rfl, .nil⟩
  | cons group rows ih =>
    obtain ⟨blocks, hblocks, hwritten⟩ := ok_of_bind hwritten
    split_ifs at hwritten with hcount
    obtain ⟨rest, hrest, hwritten⟩ := ok_of_bind hwritten
    cases hwritten
    obtain ⟨hgroup, hrows⟩ := forall_mem_cons.mp hwidth
    rw [Recorded, flatten_cons, zipIdx_append] at hrecs
    have hlength : group.length = (group.zipIdx first).length := length_zipIdx.symm
    have hhead := forall₂_take group.length hrecs
    have htail := forall₂_drop group.length hrecs
    rw [take_left' hlength.symm] at hhead
    rw [drop_left' hlength.symm] at htail
    obtain ⟨parts, hflat, hparts⟩ := ih hrows hrest htail
    refine ⟨records.take group.length :: parts, ?_, .cons ?_ hparts⟩
    · rw [flatten_cons, ← hflat, take_append_drop]
    · exact groupIndexed_of_written hlz4 hblocks hcount hkeys hgroup hhead

end

end Runs

end RadixDb
