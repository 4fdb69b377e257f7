import RadixDb.Publication.Artifact

/-!
# Looking up rows with or without an index

`visitExactIndexOrScan` visits the rows of an artifact that have given values in the columns of a
key. It asks the exact index if there is one; if there is none, if it is not bound to the artifact
and the definition, or if the lookup fails, the columns of the key are read and compared
(`scanExactData`), row group after row group, and a rebuild of the index may be requested.

The rows that the visitor is called with are a list here. The queue of rebuild requests is a
parameter: what it answers to a reason.
-/

namespace RadixDb.ExactAccess

open ExactIndex

/-- Why an index cannot be used. The source keeps the text of the error. -/
inductive UnavailableIndexReason where
  | missing
  | invalid (error : FormatError)
  | crossReferenceMismatch (detail : String)

inductive ExactFallbackReason where
  | unavailable (reason : UnavailableIndexReason)
  | rebuilding

inductive RebuildRequestStatus where
  | enqueued
  | alreadyPending
  | atCapacity

inductive ExactLookupPath where
  | accelerator
  | dataScan

structure ScanCounts where
  matchedRows : ℕ
  rowGroups : ℕ
  columnBlocks : ℕ

structure ExactLookupReport where
  path : ExactLookupPath
  matchedRows : ℕ
  scannedRowGroups : ℕ
  scannedColumnBlocks : ℕ
  fallbackReason : Option ExactFallbackReason
  rebuildStatus : Option RebuildRequestStatus

/-- An exact accelerator of an index artifact, and the number of rows that the header of the
artifact says its data has. -/
structure ExactAccelerator where
  keyColumns : List ExactKeyColumn
  unique : Bool
  indexedItemCount : ℕ
  sourceRowCount : ℕ
  pages : List IndexPageSpec

inductive IndexAccessState (δ : Type) where
  | available (accelerator : ExactAccelerator) (memo : ValidatedExactPages δ)
  | unavailable (reason : UnavailableIndexReason)
  | rebuilding

def resolveSourceColumns (columns : List DataColumnSpec) (keyColumns : List ExactKeyColumn) :
    FormatResult (List (ℕ × DataColumnSpec)) :=
  if keyColumns.isEmpty then .error (.invalid "index key descriptor is empty")
  else keyColumns.mapM fun key =>
    match columns[key.columnId]? with
    | none => .error (.invalid "index key column is absent from source data")
    | some source =>
      if source.dataType.logicalType ≠ key.logicalType then
        .error (.invalid "index key type differs from source data")
      else .ok (key.columnId, source)

def validateAvailableBinding (accelerator : ExactAccelerator) (data : DataArtifact)
    (definition : ExactLookupDefinition) : Except UnavailableIndexReason Unit :=
  if accelerator.sourceRowCount ≠ data.rowCount then
    .error (.crossReferenceMismatch "available index is bound to different source data")
  else if accelerator.unique ≠ definition.unique ∨
      accelerator.keyColumns ≠ definition.keyColumns then
    .error (.crossReferenceMismatch "available exact accelerator differs from catalog definition")
  else .ok ()

section

variable (json : Json)

/-! ## Scanning -/

/-- What is left of the candidates after their values were compared with the target. -/
def compareValues (unique : Bool) (column : DataColumnSpec) (target : Bytes) :
    List Bool → List Value → FormatResult (List Bool)
  | candidate :: candidates, value :: values => do
    let candidate ←
      if !candidate then .ok false
      else do
        let (encoded, hasNull) ← encodeCanonicalKeySpecs json [column] [value]
        .ok !((unique && hasNull) || encoded != target)
    let candidates ← compareValues unique column target candidates values
    .ok (candidate :: candidates)
  | candidates, _ => .ok candidates

variable (lz4 : Lz4)

/-- Compare the columns of the key one after the other, until there is no candidate; also the number
of blocks that were read. -/
def compareColumns (unique : Bool) (columns : List DataColumnSpec) (group : DataGroup) :
    List ((ℕ × DataColumnSpec) × Bytes) → List Bool → ℕ → Reading (List Bool × ℕ)
  | [], candidates, blocks => .ok (candidates, blocks)
  | ((ordinal, column), target) :: rest, candidates, blocks => do
    let values ← readDataColumnFromSource json lz4 columns group ordinal
    if values.length ≠ candidates.length then
      refuse "fallback column row count differs from row group"
    else do
      let candidates ← Checked.ofExcept (compareValues json unique column target candidates values)
      if !candidates.any id then .ok (candidates, blocks + 1)
      else compareColumns unique columns group rest candidates (blocks + 1)

/-- The rows of the candidates. -/
def candidateRows (firstRowOrdinal : ℕ) (candidates : List Bool) : List ℕ :=
  (candidates.zipIdx.filter Prod.fst).map fun candidate => firstRowOrdinal + candidate.2

def scanGroups (unique : Bool) (columns : List DataColumnSpec)
    (targets : List ((ℕ × DataColumnSpec) × Bytes)) :
    List DataGroup → List ℕ × ScanCounts → Reading (List ℕ × ScanCounts)
  | [], scanned => .ok scanned
  | group :: groups, (visited, counts) => do
    let (candidates, blocks) ← compareColumns json lz4 unique columns group targets
      (List.replicate group.rowGroup.rowCount true) counts.columnBlocks
    let rows := candidateRows group.firstRowOrdinal candidates
    scanGroups unique columns targets groups
      (visited ++ rows, ⟨counts.matchedRows + rows.length, counts.rowGroups + 1, blocks⟩)

def scanExactData (data : DataArtifact) (definition : ExactLookupDefinition) (values : List Value)
    (sourceColumns : List (ℕ × DataColumnSpec)) (targetHasNull : Bool) :
    Reading (List ℕ × ScanCounts) :=
  if definition.unique && targetHasNull then .ok ([], ⟨0, 0, 0⟩)
  else do
    let targets ← Checked.ofExcept ((sourceColumns.zip values).mapM fun (source, value) => do
      let (bytes, _) ← encodeCanonicalKeySpecs json [source.2] [value]
      .ok bytes)
    scanGroups json lz4 definition.unique data.columns (sourceColumns.zip targets) data.groups
      ([], ⟨0, 0, 0⟩)

/-! ## The index or the data -/

/-- A scan, and what is reported of it. -/
def scanWith (data : DataArtifact) (definition : ExactLookupDefinition) (values : List Value)
    (sourceColumns : List (ℕ × DataColumnSpec)) (targetHasNull : Bool)
    (reason : ExactFallbackReason) (status : Option RebuildRequestStatus) :
    Reading (List ℕ × ExactLookupReport) := do
  let (visited, counts) ← scanExactData json lz4 data definition values sourceColumns targetHasNull
  .ok (visited,
    ⟨.dataScan, counts.matchedRows, counts.rowGroups, counts.columnBlocks, some reason, status⟩)

/-- The columns and the counts that the pages of an accelerator are read with. -/
def ExactAccelerator.binding (accelerator : ExactAccelerator)
    (sourceColumns : List (ℕ × DataColumnSpec)) : ExactBinding :=
  ⟨sourceColumns.map Prod.snd, accelerator.unique, accelerator.indexedItemCount,
    accelerator.sourceRowCount⟩

variable {δ : Type} [DecidableEq δ] (crc : Crc) (digest : Bytes → δ)
  (pageEntrySize : ℕ) (requestRebuild : UnavailableIndexReason → RebuildRequestStatus)

/-- The rows that an accelerator has for the values, or why it cannot be used. -/
def lookupAvailable (accelerator : ExactAccelerator) (memo : ValidatedExactPages δ)
    (data : DataArtifact) (definition : ExactLookupDefinition)
    (sourceColumns : List (ℕ × DataColumnSpec)) (values : List Value) :
    Except UnavailableIndexReason (Option (List ℕ)) := do
  validateAvailableBinding accelerator data definition
  match (lookupExactIndexFromSource crc digest json pageEntrySize
      (accelerator.binding sourceColumns) accelerator.pages values memo).1 with
  | .ok rows => .ok rows
  | .error error => .error (.invalid error)

/-- `visit_exact_index_or_scan`: the rows that are visited, and the report. -/
def visitExactIndexOrScan (data : DataArtifact) (definition : ExactLookupDefinition)
    (values : List Value) (state : IndexAccessState δ) : Reading (List ℕ × ExactLookupReport) := do
  let sourceColumns ← Checked.ofExcept (resolveSourceColumns data.columns definition.keyColumns)
  let (_, targetHasNull) ← Checked.ofExcept
    (encodeCanonicalKeySpecs json (sourceColumns.map Prod.snd) values)
  match state with
  | .available accelerator memo =>
    match lookupAvailable json crc digest pageEntrySize accelerator memo data definition
        sourceColumns values with
    | .ok rows =>
      let rows := rows.getD []
      .ok (rows, ⟨.accelerator, rows.length, 0, 0, none, none⟩)
    | .error reason =>
      scanWith json lz4 data definition values sourceColumns targetHasNull (.unavailable reason)
        (some (requestRebuild reason))
  | .unavailable reason =>
    scanWith json lz4 data definition values sourceColumns targetHasNull (.unavailable reason)
      (some (requestRebuild reason))
  | .rebuilding =>
    scanWith json lz4 data definition values sourceColumns targetHasNull .rebuilding none

end

/-! ## Accelerators of an artifact -/

section

variable (json : Json) (lz4 : Lz4) (crc : Crc)

/-- What an accelerator is if the builder has its records: its key is the one of the definition. -/
structure Describes (spec : Runs.BuildSpec) (keys : List (ℕ × DataColumnSpec))
    (codec : IndexPageCodec) (builder : Runs.IndexRunBuilder Runs.ExactRunKey) (data : DataArtifact)
    (definition : ExactLookupDefinition) (accelerator : ExactAccelerator) : Prop where
  keys_of : Runs.sourceKeys data.columns definition.keyColumns = .ok keys
  unique : spec.unique = definition.unique
  nullable : spec.anyNullable = keys.any (·.2.nullable)
  key_columns : accelerator.keyColumns = definition.keyColumns
  same_unique : accelerator.unique = definition.unique
  items : accelerator.indexedItemCount = builder.indexedItemCount
  source_rows : accelerator.sourceRowCount = data.rowCount
  pages : Runs.WritesPages crc spec data.rowCount codec builder accelerator.pages

/-- **The two ways an accelerator is built**: while the artifact is written, from the rows that are
written, or later, from its columns. -/
inductive BuiltFrom (data : DataArtifact) (definition : ExactLookupDefinition)
    (accelerator : ExactAccelerator) : Prop where
  | fanOut (plans : List ColumnPlan) (budget : PublicationBuildBudget)
      (rows : List (List (List Value))) (spec : Runs.BuildSpec) (spilled : ℕ)
      (keys : List (ℕ × DataColumnSpec)) (codec : IndexPageCodec)
      (builder : Runs.IndexRunBuilder Runs.ExactRunKey)
      (columns : data.columns = plans.map (·.column))
      (width : ∀ group ∈ rows, ∀ row ∈ group, row.length = plans.length)
      (written : writeRowGroups json lz4 budget plans rows 0 = .ok data.groups)
      (visited : Runs.visitRows json crc spec keys (.new spilled) rows.flatten 0 = .ok builder)
      (describes : Describes crc spec keys codec builder data definition accelerator)
  | rebuild (spec : Runs.BuildSpec) (spilled : ℕ) (keys : List (ℕ × DataColumnSpec))
      (codec : IndexPageCodec) (builder : Runs.IndexRunBuilder Runs.ExactRunKey)
      (visited : Runs.rebuildGroups json crc spec keys lz4 data.columns data.groups (.new spilled) =
        .ok builder)
      (describes : Describes crc spec keys codec builder data definition accelerator)

end

end RadixDb.ExactAccess
