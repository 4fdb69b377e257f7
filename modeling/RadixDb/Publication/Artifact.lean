import RadixDb.Data.Column
import RadixDb.Index.ExactIndex
import RadixDb.Publication.Runs

/-!
# Writing an artifact and its exact indexes

Rows are written in groups. A group has a block for each column (`writeEncodedRowGroup`), and a
group is written only if the memory that its blocks may take is within the budget of the build
(`admitColumnBlock`). While rows are written, each goes to the builders of the indexes (`visit`). An
index can also be built later, from the columns of the artifact (`rebuildGroups`).

The planner that decides where a group ends is left open: rows come in groups. So are the blocks of
row ids, statistics and Bloom filters, which no index reads. Columns are identified by their place.
-/

namespace RadixDb

open Bytes

def maxStoredBytesPerBlock : ℕ := 256 * 1024 * 1024

def maxCompressionRatio : ℕ := 1024

def maxFanoutResidentBytes : ℕ := 1024 * 1024 * 1024

/-! ## Artifacts -/

/-- A row group of an artifact: the number of its first row and the blocks of its columns. -/
structure DataGroup where
  firstRowOrdinal : ℕ
  rowGroup : DataRowGroup
  blocks : List (DataBlockRef × Bytes)

/-- What `decode_row_groups` checks of the rows: their numbers have no gaps. -/
def validateRowGroups : List DataGroup → ℕ → FormatResult ℕ
  | [], expectedFirstRow => .ok expectedFirstRow
  | group :: groups, expectedFirstRow =>
    if group.firstRowOrdinal ≠ expectedFirstRow then
      .error (.invalid "row-group row ordinals are not contiguous")
    else if 2 ^ 64 ≤ expectedFirstRow + group.rowGroup.rowCount then
      .error (.invalid "row-group row count sum overflows")
    else validateRowGroups groups (expectedFirstRow + group.rowGroup.rowCount)

structure DataArtifact where
  columns : List DataColumnSpec
  groups : List DataGroup
  rowCount : ℕ
  contiguous : validateRowGroups groups 0 = .ok rowCount

variable (json : Json)

def readDataColumnFromSource (lz4 : Lz4)
    (columns : List DataColumnSpec) (group : DataGroup) (columnOrdinal : ℕ) :
    Reading (List Value) :=
  match columns[columnOrdinal]? with
  | none => refuse "column ordinal is out of range"
  | some column =>
    match group.blocks[columnOrdinal]? with
    | none => refuse "row group has no requested block"
    | some (block, stored) => Column.decodeColumnPayload json lz4 column group.rowGroup block stored

/-! ## Blocks -/

def validateBlockLengths (codec : DataPhysicalCodec) (storedLength logicalLength : ℕ) :
    FormatResult Unit :=
  if storedLength = 0 ∨ logicalLength = 0 then .error (.invalid "block range cannot be empty")
  else if maxStoredBytesPerBlock < storedLength then
    .error (.limit "stored block bytes" storedLength maxStoredBytesPerBlock)
  else if maxLogicalBytesPerBlock < logicalLength then
    .error (.limit "logical block bytes" logicalLength maxLogicalBytesPerBlock)
  else if codec = .none ∧ logicalLength ≠ storedLength then
    .error (.invalid "uncompressed block lengths differ")
  else if codec = .lz4 ∧ storedLength * maxCompressionRatio < logicalLength then
    .error (.limit "block compression ratio" logicalLength (storedLength * maxCompressionRatio))
  else .ok ()

def DataLayout.tag : DataLayout → ℕ
  | .rowIdsDelta => 1
  | .plainValues => 2
  | .dictionaryValues => 3
  | .bloom => 4

/-- A payload, and the bytes that are stored for it. -/
structure EncodedColumn where
  layout : DataLayout
  logical : Bytes
  stored : Bytes

/-- Is the first smaller when it is stored, then in itself, then by its layout? -/
def EncodedColumn.ranksBefore (a b : EncodedColumn) : Prop :=
  a.stored.length < b.stored.length ∨ a.stored.length = b.stored.length ∧
    (a.logical.length < b.logical.length ∨ a.logical.length = b.logical.length ∧
      a.layout.tag < b.layout.tag)

instance (a b : EncodedColumn) : Decidable (a.ranksBefore b) :=
  inferInstanceAs (Decidable (_ ∨ _))

section

variable (lz4 : Lz4)

def encodeColumn (column : DataColumnSpec) (values : List Value) (codec : DataPhysicalCodec)
    (encoding : DataValueEncoding) : FormatResult EncodedColumn := do
  let (layout, logical) ← Column.encodeColumnPayload json column values encoding
  .ok ⟨layout, logical, encodePhysical lz4 logical codec⟩

/-- With an adaptive encoding, the smaller of the two that there are. -/
def chooseColumn (column : DataColumnSpec) (values : List Value) (encoding : DataValueEncoding)
    (codec : DataPhysicalCodec) : FormatResult EncodedColumn :=
  if encoding = .adaptive then
    if !Column.isDictionaryType column.dataType.logicalType then
      .error (.invalid "adaptive encoding is allowed only for variable-width dictionary types")
    else do
      let dictionary ← encodeColumn json lz4 column values codec .dictionary
      let plain ← encodeColumn json lz4 column values codec .plain
      .ok (if dictionary.ranksBefore plain then dictionary else plain)
  else encodeColumn json lz4 column values codec encoding

/-- `DataBlockSpec::column`: what the directory says of the block, and its bytes. -/
def columnBlock (column : DataColumnSpec) (values : List Value) (encoding : DataValueEncoding)
    (codec : DataPhysicalCodec) : FormatResult (DataBlockRef × Bytes) := do
  let chosen ← chooseColumn json lz4 column values encoding codec
  validateBlockLengths codec chosen.stored.length chosen.logical.length
  .ok (⟨codec, chosen.layout, chosen.logical.length, values.length⟩, chosen.stored)

end

/-! ## The budget of a build -/

/-- The memory of a build, of which blocks of data have a share. -/
structure PublicationBuildBudget where
  residentByteBudget : ℕ
  bounded : residentByteBudget ≤ maxFanoutResidentBytes

def PublicationBuildBudget.dataBlockBytes (budget : PublicationBuildBudget) : ℕ :=
  budget.residentByteBudget * 3 / 8

/-- How many bytes a value of variable length is written with. -/
def variableBytes (column : DataColumnSpec) (value : Value) : FormatResult ℕ :=
  if value.isNull then .ok 0
  else
    match column.dataType.externalTypeRef with
    | some ref =>
      match value.asExternal with
      | none => .error (.invalid "column value type differs from catalog type")
      | some external =>
        if external.typeRef = ref then .ok external.payload.length
        else .error (.invalid "column value type differs from catalog type")
    | none =>
      let bytes := match column.dataType.logicalType with
        | .text => value.asStr json
        | .json => value.asJson json
        | .bytes => value.asBytesValue
        | _ => none
      match bytes with
      | some bytes => .ok bytes.length
      | none => .error (.invalid "column value type differs from catalog type")

def encodedVariableBytes (column : DataColumnSpec) (values : List Value) : FormatResult ℕ := do
  let lengths ← values.mapM (variableBytes json column)
  .ok lengths.sum

/-- The bytes of the values of a column, if each row has its own. -/
def columnPayloadBytes (column : DataColumnSpec) (values : List Value) : FormatResult ℕ :=
  match Column.fixedWidth column.dataType.logicalType column.dataType.parameter1 with
  | some width => .ok (values.length * width)
  | none => encodedVariableBytes json column values

/-- The memory that a block of a column may take while it is made. -/
def residentBytes (encoding : DataValueEncoding) (count payload plainLogical : ℕ) : ℕ :=
  let validity := Column.validityBytes count
  let dictionaryLogical := 40 + validity + (count + 1) * 4 + payload + count * 4
  match encoding with
  | .plain => plainLogical * 2
  | .dictionary => dictionaryLogical * 4 + count * 128
  | .adaptive => payload * 3 + count * 128 + (plainLogical - payload) +
      (dictionaryLogical - payload)

def PublicationBuildBudget.admitColumnBlock (budget : PublicationBuildBudget)
    (json : Json) (column : DataColumnSpec) (values : List Value)
    (encoding : DataValueEncoding) : FormatResult Unit := do
  let count := values.length
  let type := column.dataType.logicalType
  let payload ← columnPayloadBytes json column values
  let offsets :=
    if (Column.fixedWidth type column.dataType.parameter1).isSome then 0 else (count + 1) * 4
  let plainLogical := 32 + Column.validityBytes count + offsets + payload
  if encoding ≠ .plain ∧ !Column.isDictionaryType type then
    .error (.invalid "dictionary encoding is not allowed for this type")
  else
    let resident := residentBytes encoding count payload plainLogical
    if budget.dataBlockBytes < resident then
      .error (.limit "column block resident bytes" resident budget.dataBlockBytes)
    else .ok ()

/-! ## Row groups -/

/-- A column and how its blocks are written. -/
structure ColumnPlan where
  column : DataColumnSpec
  valueEncoding : DataValueEncoding
  physicalCodec : DataPhysicalCodec

/-- The values that rows have in a column. -/
def columnOf (rows : List (List Value)) (columnOrdinal : ℕ) : List Value :=
  rows.filterMap (·[columnOrdinal]?)

section

variable (lz4 : Lz4) (budget : PublicationBuildBudget)
  (plans : List ColumnPlan)

/-- The blocks of a group of rows. -/
def writeEncodedRowGroup (rows : List (List Value)) : FormatResult (List (DataBlockRef × Bytes)) :=
  let columns := (List.range plans.length).map (columnOf rows)
  if rows.isEmpty ∨ columns.any (·.length != rows.length) then
    .error (.invalid "fanout row-group buffers are inconsistent")
  else do
    (plans.zip columns).forM fun (plan, values) =>
      budget.admitColumnBlock json plan.column values plan.valueEncoding
    (plans.zip columns).mapM fun (plan, values) =>
      columnBlock json lz4 plan.column values plan.valueEncoding plan.physicalCodec

/-- Groups of rows one after the other, of which the first row is `first`. -/
def writeRowGroups : List (List (List Value)) → ℕ → FormatResult (List DataGroup)
  | [], _ => .ok []
  | rows :: rest, first => do
    let blocks ← writeEncodedRowGroup json lz4 budget plans rows
    if h : 0 < rows.length ∧ rows.length ≤ maxRowsPerGroup then do
      let groups ← writeRowGroups rest (first + rows.length)
      .ok (⟨first, ⟨rows.length, h⟩, blocks⟩ :: groups)
    else .error (.limit "rows per group" rows.length maxRowsPerGroup)

end

/-! ## Building an exact index -/

/-- A column of a key, and the type that the catalog has for it. -/
structure ExactKeyColumn where
  columnId : ℕ
  logicalType : DataType
deriving DecidableEq

def maxKeyColumns : ℕ := 64

structure ExactLookupDefinition where
  keyColumns : List ExactKeyColumn
  unique : Bool
  nonempty : keyColumns ≠ []
  few : keyColumns.length ≤ maxKeyColumns
  distinct : (keyColumns.map (·.columnId)).Nodup

namespace Runs

/-- Where the columns of a key are. -/
def sourceKeys (columns : List DataColumnSpec) (keyColumns : List ExactKeyColumn) :
    FormatResult (List (ℕ × DataColumnSpec)) :=
  keyColumns.mapM fun key =>
    match columns[key.columnId]? with
    | none => .error (.invalid "accelerator key column is absent")
    | some column => .ok (key.columnId, column)

section

variable (crc : Crc) (spec : BuildSpec)
  (keys : List (ℕ × DataColumnSpec))

def appendProjected (values : List Value) :
    CanonicalKeyState → List (ℕ × DataColumnSpec) → FormatResult CanonicalKeyState
  | state, [] => .ok state
  | state, (sourceOrdinal, column) :: keys =>
    match values[sourceOrdinal]? with
    | none => .error (.invalid "source row is narrower than index key")
    | some value => do
      let state ← state.append json column value
      appendProjected values state keys

def encodeCanonicalProjectedKeySpecs (values : List Value) : FormatResult (Bytes × Bool) := do
  let state ← appendProjected json values .new keys
  state.finish keys.length

variable (builder : IndexRunBuilder ExactRunKey)

/-- Push the key that was encoded. -/
def pushEncoded (encoded : Bytes × Bool)
    (rowOrdinal : ℕ) : FormatResult (IndexRunBuilder ExactRunKey) := do
  let key ← exactRuns.ofBytes encoded.1 encoded.2
  builder.pushKey exactRuns crc spec key rowOrdinal

/-- A row while it is written. -/
def visit (values : List Value) (rowOrdinal : ℕ) : FormatResult (IndexRunBuilder ExactRunKey) := do
  let encoded ← encodeCanonicalProjectedKeySpecs json keys values
  pushEncoded crc spec builder encoded rowOrdinal

/-- Rows one after the other, of which the first is `first`. -/
def visitRows : IndexRunBuilder ExactRunKey → List (List Value) → ℕ →
    FormatResult (IndexRunBuilder ExactRunKey)
  | builder, [], _ => .ok builder
  | builder, values :: rows, first => do
    let builder ← visit json crc spec keys builder values first
    visitRows builder rows (first + 1)

/-- A row of columns that were read. -/
def visitProjected (columns : List (Option (List Value))) (relativeRow rowOrdinal : ℕ) :
    FormatResult (IndexRunBuilder ExactRunKey) := do
  let keyValues ← keys.mapM fun (key : ℕ × DataColumnSpec) =>
    match columns[key.1]?.join.bind (·[relativeRow]?) with
    | some value => .ok value
    | none => .error (.invalid "rebuild projection is missing an index key")
  let encoded ← encodeCanonicalKeySpecs json (keys.map Prod.snd) keyValues
  pushEncoded crc spec builder encoded rowOrdinal

/-- The rows of a group from `relative` on. -/
def visitProjectedRows (columns : List (Option (List Value))) (firstRowOrdinal : ℕ) :
    ℕ → ℕ → IndexRunBuilder ExactRunKey → FormatResult (IndexRunBuilder ExactRunKey)
  | 0, _, builder => .ok builder
  | count + 1, relative, builder => do
    let builder ← visitProjected json crc spec keys builder columns relative
      (firstRowOrdinal + relative)
    visitProjectedRows columns firstRowOrdinal count (relative + 1) builder

variable (lz4 : Lz4)

/-- Read the columns of a group that the key needs. -/
def projectColumns (columns : List DataColumnSpec) (group : DataGroup) :
    Reading (List (Option (List Value))) :=
  (List.range columns.length).mapM fun ordinal =>
    if keys.any (·.1 == ordinal) then do
      let values ← readDataColumnFromSource json lz4 columns group ordinal
      if values.length ≠ group.rowGroup.rowCount then
        refuse "rebuild column length differs from source row group"
      else .ok (some values)
    else .ok none

/-- Build from the groups of an artifact. -/
def rebuildGroups (columns : List DataColumnSpec) :
    List DataGroup → IndexRunBuilder ExactRunKey → Reading (IndexRunBuilder ExactRunKey)
  | [], builder => .ok builder
  | group :: groups, builder => do
    let projected ← projectColumns json keys lz4 columns group
    let builder ← Checked.ofExcept (visitProjectedRows json crc spec keys projected
      group.firstRowOrdinal group.rowGroup.rowCount 0 builder)
    rebuildGroups columns groups builder

end

/-- A posting of the builder as an entry of the page writer. -/
def exactEntry (group : PostingEntry ExactRunKey) : PostingEntry ExactIndexKey :=
  ⟨group.key.1, group.rowOrdinals, group.fragmentState⟩

/-- The builder's records are written to pages. -/
def WritesPages (crc : Crc) (spec : BuildSpec) (sourceRowCount : ℕ)
    (codec : IndexPageCodec) (builder : IndexRunBuilder ExactRunKey) (pages : List IndexPageSpec) :
    Prop :=
  ∃ prepared groups, builder.prepare exactRuns crc spec = .ok prepared ∧
    prepared.Streams exactRuns crc spec.maximumFragmentRows groups ∧
    ExactIndex.visitExactIndexPagesFromSorted crc (groups.map exactEntry) spec.unique
      sourceRowCount codec spec.pageLimits = .ok pages

end Runs

end RadixDb
