import RadixDb.Index.ExactPage
import RadixDb.Index.KeyOrder
import RadixDb.Lib.Merge

/-!
# Sorting the records of an index

While an artifact is written, each accelerator gets a record for every row: the key of the row and
its number. `IndexRunBuilder` sorts them. It keeps records in a buffer; when the buffer is full, the
buffer is sorted and written to a file, a sort run (`flush`). At the end, if there are no files, the
buffer is sorted in memory; otherwise files are merged, at most `mergeFanIn` at a time, until there
are few enough to merge them once more while pages are written (`consolidateRuns`).

Either way the records come in order from a source, and those of one key make a posting, in
fragments of a maximal number of rows (`nextGroup`). The source in memory is a list; the other one
reads files record by record and keeps the next record of each in a heap.

What the builders of exact and ordered accelerators do differently with keys is a `RunKind`.
-/

namespace RadixDb

open Bytes List

def maxSortRunRecords : ℕ := 1048576

def maxSortRunBytes : ℕ := 256 * 1024 * 1024

def maxSortRunFiles : ℕ := 4096

def minMergeFanIn : ℕ := 2

def maxMergeFanIn : ℕ := 32

/-- Limits as `FanoutBuildLimits` admits them. -/
structure FanoutBuildLimits where
  sortRunRecords : ℕ
  sortRunBytes : ℕ
  maxSortRunFiles : ℕ
  mergeFanIn : ℕ
  spillByteBudget : ℕ
  records : 0 < sortRunRecords ∧ sortRunRecords ≤ maxSortRunRecords
  bytes : maxIndexKeyBytes ≤ sortRunBytes ∧ sortRunBytes ≤ maxSortRunBytes
  files : 0 < maxSortRunFiles ∧ maxSortRunFiles ≤ RadixDb.maxSortRunFiles
  fanIn : minMergeFanIn ≤ mergeFanIn ∧ mergeFanIn ≤ maxMergeFanIn

namespace Runs

/-- What distinguishes the keys of the accelerators. -/
structure RunKind (κ : Type) where
  tag : ℕ
  bytes : κ → Bytes
  hasNullComponent : κ → Bool
  compare : κ → κ → Ordering
  /-- The key of bytes that were read, with the flag that was read. -/
  ofBytes : Bytes → Bool → FormatResult κ
  /-- Are keys with a NULL not indexed if they have to be unique? -/
  skipsNull : Bool

structure RunRecord (κ : Type) where
  key : κ
  rowOrdinal : ℕ

/-- An accelerator and its share of the resources. `recordSize` is `size_of` a record. -/
structure BuildSpec where
  limits : FanoutBuildLimits
  unique : Bool
  anyNullable : Bool
  recordSize : ℕ
  residentByteBudget : ℕ
  pageLimits : PageBuildLimits

/-- `maximum_posting_fragment_rows`. -/
def BuildSpec.maximumFragmentRows (spec : BuildSpec) : ℕ :=
  min spec.pageLimits.maxLogicalBytes (max (spec.residentByteBudget / 8) 1)

def runMagic : Bytes := [0x52, 0x44, 0x58, 0x52, 0x55, 0x4e, 0x31, 0x00]

def runHeaderBytes : ℕ := 24

def runRecordHeaderBytes : ℕ := 24

section

variable {κ : Type} (K : RunKind κ) (crc : Crc)

def RunRecord.compare (a b : RunRecord κ) : Ordering :=
  (K.compare a.key b.key).then (Ord.compare a.rowOrdinal b.rowOrdinal)

/-- Does a record come strictly before another? -/
def before (a b : RunRecord κ) : Bool := a.compare K b == .lt

/-! ## Files -/

def runHeader (recordCount : ℕ) : Bytes :=
  let start := runMagic ++ leBytes 8 recordCount ++ leBytes 2 K.tag ++ [0, 0]
  start ++ leBytes 4 (crc start).toNat

def runRecordHeader (record : RunRecord κ) : Bytes :=
  let key := K.bytes record.key
  leBytes 4 key.length ++ leBytes 4 (K.hasNullComponent record.key).toNat ++
    leBytes 8 record.rowOrdinal ++ leBytes 4 (crc key).toNat ++ [0, 0, 0, 0]

def writeRunRecord (record : RunRecord κ) : FormatResult Bytes :=
  let key := K.bytes record.key
  if 2 ^ 32 ≤ key.length then .error (.invalid "sort-run key length exceeds u32")
  else .ok (runRecordHeader K crc record ++ key)

/-- A file of records. -/
def writeRun (records : List (RunRecord κ)) : FormatResult Bytes := do
  let written ← records.mapM (writeRunRecord K crc)
  .ok (runHeader K crc records.length ++ written.flatten)

/-- What is left of a file, and the number of records that should be in it. -/
structure RunCursor where
  bytes : Bytes
  remaining : ℕ
deriving DecidableEq

def RunCursor.openRun (file : Bytes) : FormatResult RunCursor :=
  let header := file.take runHeaderBytes
  if header.length < runHeaderBytes then .error (.artifactIo "read sort-run header")
  else if header.take 8 ≠ runMagic ∨ readWord 2 header 16 ≠ K.tag ∨ readWord 2 header 18 ≠ 0 ∨
      readWord 4 header 20 ≠ (crc (header.take 20)).toNat then
    .error (.invalid "sort-run header is invalid")
  else
    let remaining := readWord 8 header 8
    if remaining = 0 then .error (.invalid "sort run is empty")
    else .ok ⟨file.drop runHeaderBytes, remaining⟩

def RunCursor.nextRecord (cursor : RunCursor) : FormatResult (Option (RunRecord κ × RunCursor)) :=
  if cursor.remaining = 0 then
    if cursor.bytes.isEmpty then .ok none else .error (.invalid "sort run has trailing bytes")
  else
    let header := cursor.bytes.take runRecordHeaderBytes
    if header.length < runRecordHeaderBytes then .error (.artifactIo "read sort-run record")
    else
      let keyLength := readWord 4 header 0
      let flags := readWord 4 header 4
      if keyLength = 0 ∨ maxIndexKeyBytes < keyLength ∨ 1 < flags ∨ readWord 4 header 20 ≠ 0 then
        .error (.invalid "sort-run record header is invalid")
      else
        let rest := cursor.bytes.drop runRecordHeaderBytes
        let bytes := rest.take keyLength
        if bytes.length < keyLength then .error (.artifactIo "read sort-run key")
        else if (crc bytes).toNat ≠ readWord 4 header 16 then
          .error (.invalid "sort-run key checksum mismatch")
        else do
          let key ← K.ofBytes bytes (flags == 1)
          if K.hasNullComponent key ≠ (flags == 1) then
            .error (.invalid "sort-run NULL flag differs from key bytes")
          else
            .ok (some (⟨key, readWord 8 header 8⟩,
              ⟨rest.drop keyLength, cursor.remaining - 1⟩))

/-! ## Merging files -/

/-- Files that are merged. Of each, the record that the heap has of it and what is left. The heap
orders records, and those that compare equal by the position of their file. -/
abbrev RunMerger (κ : Type) := List (Merge.Open (RunRecord κ) RunCursor)

/-- Open a file and read its first record. -/
def openFirst (file : Bytes) : FormatResult (Merge.Open (RunRecord κ) RunCursor) := do
  let cursor ← RunCursor.openRun K crc file
  match ← cursor.nextRecord K crc with
  | none => .error (.invalid "sort run lost its first record")
  | some (record, cursor) => .ok ⟨some record, cursor⟩

def RunMerger.openRuns (files : List Bytes) : FormatResult (RunMerger κ) :=
  if files.isEmpty then .error (.invalid "accelerator has no sorted runs")
  else files.mapM (openFirst K crc)

/-- How many records the opened files say they have. -/
def RunMerger.recordCount (merger : RunMerger κ) : ℕ :=
  (merger.map fun run => run.rest.remaining + 1).sum

def RunMerger.popRecord (merger : RunMerger κ) :
    FormatResult (Option (RunRecord κ × RunMerger κ)) :=
  Merge.pop (before K) (RunCursor.nextRecord K crc) merger

variable (limits : FanoutBuildLimits)

/-- `reserve` bytes of the temporary files; `used` bytes are reserved already. -/
def reserve (used bytes : ℕ) : FormatResult ℕ :=
  if limits.spillByteBudget < used + bytes then
    .error (.limit "fanout spill bytes" (used + bytes) limits.spillByteBudget)
  else .ok (used + bytes)

def mergedRunFileBytes : List Bytes → ℕ → FormatResult ℕ
  | [], total => .ok total
  | file :: files, total =>
    if file.length < runHeaderBytes then .error (.invalid "sort run is shorter than its header")
    else mergedRunFileBytes files (total + (file.length - runHeaderBytes))

/-- Merge files to one; also the bytes that are reserved then. One more record than the files say
they have is enough to tell that they have more. -/
def mergeSortedRuns (files : List Bytes) (used : ℕ) : FormatResult (Bytes × ℕ) := do
  let outputBytes ← mergedRunFileBytes files runHeaderBytes
  let used ← reserve limits used outputBytes
  let merger ← RunMerger.openRuns K crc files
  let recordCount := merger.recordCount
  let records ← takeFrom (RunMerger.popRecord K crc) (recordCount + 1) merger
  let output ← writeRun K crc records
  if records.length ≠ recordCount then .error (.invalid "merged sort run lost records")
  else if output.length ≠ outputBytes then
    .error (.invalid "merged sort-run length differs from inputs")
  else .ok (output, used)

/-- `chunks`: the first list is the chunk that is being filled. -/
def chunksFrom {α : Type} (size : ℕ) : List α → List α → List (List α)
  | chunk, [] => if chunk.isEmpty then [] else [chunk]
  | chunk, a :: rest =>
    if chunk.length < size then chunksFrom size (chunk ++ [a]) rest
    else chunk :: chunksFrom size [a] rest

/-- One pass over the files. -/
def mergePass (limits : FanoutBuildLimits) : List (List Bytes) → ℕ → FormatResult (List Bytes × ℕ)
  | [], used => .ok ([], used)
  | files :: chunks, used => do
    let (output, used) ← mergeSortedRuns K crc limits files used
    let (outputs, used) ← mergePass limits chunks used
    .ok (output :: outputs, used)

/-- The passes, at most `fuel` of them; `none` if that is not enough. -/
def consolidatePasses (limits : FanoutBuildLimits) :
    ℕ → List Bytes → ℕ → Option (FormatResult (List Bytes × ℕ))
  | fuel, files, used =>
    if files.length ≤ limits.mergeFanIn then some (.ok (files, used))
    else
      match fuel with
      | 0 => none
      | fuel + 1 =>
        match mergePass K crc limits (chunksFrom limits.mergeFanIn [] files) used with
        | .error e => some (.error e)
        | .ok (outputs, used) => consolidatePasses limits fuel outputs used

theorem length_chunksFrom_le {α : Type} (size : ℕ) {chunk : List α} (hne : chunk ≠ [])
    (rest : List α) : (chunksFrom size chunk rest).length ≤ rest.length + 1 := by
  induction rest generalizing chunk with
  | nil =>
    rw [chunksFrom, if_neg (by simpa using hne)]
    exact Nat.le_refl 1
  | cons a rest ih =>
    rw [chunksFrom, length_cons]
    split_ifs
    · exact (ih (append_ne_nil_of_right_ne_nil _ (cons_ne_nil a []))).trans (by omega)
    · exact Nat.succ_le_succ (ih (cons_ne_nil a []))

/-- There are fewer chunks than elements, if two fit a chunk. -/
theorem length_chunksFrom_lt {α : Type} {size : ℕ} {l : List α} (hsize : 2 ≤ size)
    (hl : 2 ≤ l.length) : (chunksFrom size [] l).length < l.length := by
  match l, hl with
  | a :: b :: rest, _ =>
    have hstart : chunksFrom size [] (a :: b :: rest) = chunksFrom size [a, b] rest := by
      simp only [chunksFrom, length_nil, nil_append, length_singleton]
      rw [if_pos (by omega), if_pos (by omega)]
      rfl
    rw [hstart]
    exact Nat.lt_succ_of_le (length_chunksFrom_le size (cons_ne_nil a [b]) rest)

theorem length_mergePass {limits : FanoutBuildLimits} {chunks : List (List Bytes)} {used used' : ℕ}
    {outputs : List Bytes} (h : mergePass K crc limits chunks used = .ok (outputs, used')) :
    outputs.length = chunks.length := by
  induction chunks generalizing used outputs with
  | nil =>
    cases h
    rfl
  | cons files chunks ih =>
    obtain ⟨r, hmerge, h⟩ := ok_of_bind h
    obtain ⟨rest, hpass, h⟩ := ok_of_bind h
    cases h
    exact congrArg (· + 1) (ih hpass)

/-- **Consolidation ends**: every pass leaves fewer files. -/
theorem consolidatePasses_isSome {fuel : ℕ} {files : List Bytes}
    (hfuel : files.length ≤ fuel) (used : ℕ) :
    (consolidatePasses K crc limits fuel files used).isSome = true := by
  induction fuel generalizing files used with
  | zero =>
    rw [consolidatePasses, if_pos (hfuel.trans (Nat.zero_le _))]
    rfl
  | succ fuel ih =>
    rw [consolidatePasses]
    split_ifs with hfew
    · rfl
    · cases hpass : mergePass K crc limits (chunksFrom limits.mergeFanIn [] files) used with
      | error e => rfl
      | ok r =>
        have htwo : 2 ≤ limits.mergeFanIn := limits.fanIn.1
        have hlt := length_chunksFrom_lt htwo (l := files) (by omega)
        rw [← length_mergePass K crc hpass] at hlt
        exact ih (by omega) r.2

/-- `consolidate_runs`: every pass leaves fewer files, so there are at most as many passes as files.
-/
def consolidateRuns (files : List Bytes) (used : ℕ) : FormatResult (List Bytes × ℕ) :=
  (consolidatePasses K crc limits files.length files used).get
    (consolidatePasses_isSome K crc limits (Nat.le_refl _) used)

/-! ## Postings -/

/-- Where sorted records come from. -/
structure RecordSource (κ σ : Type) where
  name : String
  peek : σ → Option (RunRecord κ)
  pop : σ → FormatResult (Option (RunRecord κ × σ))

def memoryRecords : RecordSource κ (List (RunRecord κ)) where
  name := "in-memory"
  peek records := records.head?
  pop
    | [] => .ok none
    | record :: records => .ok (some (record, records))

def mergedRecords : RecordSource κ (RunMerger κ) where
  name := "sort-run"
  peek merger := (Merge.least (before K) (merger.map (·.head))).map Prod.snd
  pop := RunMerger.popRecord K crc

/-- A source, and the key and the last row of a posting that is not complete. -/
structure GroupState (κ σ : Type) where
  source : σ
  continuation : Option (κ × ℕ)

section

variable {σ : Type} (S : RecordSource κ σ)

/-- Take at most `budget` more rows of a key. -/
def takeRows (key : κ) : ℕ → List ℕ → σ → FormatResult (List ℕ × σ)
  | 0, rows, source => .ok (rows, source)
  | budget + 1, rows, source =>
    match S.peek source with
    | none => .ok (rows, source)
    | some next =>
      if K.compare key next.key ≠ .eq then .ok (rows, source)
      else do
        match ← S.pop source with
        | none => .ok (rows, source)
        | some (record, source) =>
          if rows.getLast?.any (record.rowOrdinal ≤ ·) then
            .error (.invalid (S.name ++ " merge produced duplicate or unordered row ordinals"))
          else takeRows key budget (rows ++ [record.rowOrdinal]) source

/-- Does the record continue the posting before? -/
def checkContinuation (continuation : Option (κ × ℕ)) (first : RunRecord κ) : FormatResult Bool :=
  match continuation with
  | none => .ok false
  | some (expectedKey, previousRow) =>
    if K.compare expectedKey first.key ≠ .eq then
      .error (.invalid (S.name ++ " posting continuation changed key"))
    else if first.rowOrdinal ≤ previousRow then
      .error (.invalid (S.name ++ " posting continuation rows are not strictly increasing"))
    else .ok true

/-- The next posting, or the next fragment of one. -/
def nextGroup (maximumFragmentRows : ℕ) (state : GroupState κ σ) :
    FormatResult (Option (PostingEntry κ × GroupState κ σ)) := do
  match ← S.pop state.source with
  | none =>
    if state.continuation.isSome then
      .error (.invalid (S.name ++ " posting continuation is truncated"))
    else .ok none
  | some (first, source) => do
    let hasPrevious ← checkContinuation K S state.continuation first
    let (rows, source) ← takeRows K S first.key (maximumFragmentRows - 1) [first.rowOrdinal] source
    let hasNext := (S.peek source).any fun next => K.compare first.key next.key == .eq
    let continuation := if hasNext then rows.getLast?.map fun row => (first.key, row) else none
    .ok (some (⟨first.key, rows, ⟨hasPrevious, hasNext⟩⟩, ⟨source, continuation⟩))

end

/-! ## The builder -/

structure IndexRunBuilder (κ : Type) where
  buffer : List (RunRecord κ)
  bufferIsSorted : Bool
  bufferedBytes : ℕ
  bufferedResidentBytes : ℕ
  runs : List Bytes
  indexedItemCount : ℕ
  /-- The bytes of temporary files that are reserved. -/
  spilledBytes : ℕ

namespace IndexRunBuilder

/-- A builder, when `spilledBytes` bytes are reserved by others. -/
def new (spilledBytes : ℕ) : IndexRunBuilder κ := ⟨[], true, 0, 0, [], 0, spilledBytes⟩

def sortBuffer (builder : IndexRunBuilder κ) : IndexRunBuilder κ :=
  if builder.bufferIsSorted then builder
  else { builder with
    buffer := builder.buffer.mergeSort fun a b => a.compare K b != .gt
    bufferIsSorted := true }

def flush (spec : BuildSpec) (builder : IndexRunBuilder κ) : FormatResult (IndexRunBuilder κ) :=
  if builder.buffer.isEmpty then .ok builder
  else if spec.limits.maxSortRunFiles ≤ builder.runs.length then
    .error (.limit "sort-run files" (builder.runs.length + 1) spec.limits.maxSortRunFiles)
  else do
    let builder := builder.sortBuffer K
    let spilledBytes ← reserve spec.limits builder.spilledBytes
      (runHeaderBytes + builder.bufferedBytes)
    let file ← writeRun K crc builder.buffer
    .ok { builder with
      buffer := []
      bufferIsSorted := true
      bufferedBytes := 0
      bufferedResidentBytes := 0
      runs := builder.runs ++ [file]
      spilledBytes := spilledBytes }

/-- Put a record into the buffer. -/
def buffered (spec : BuildSpec) (builder : IndexRunBuilder κ) (record : RunRecord κ) :
    IndexRunBuilder κ :=
  let bytes := (K.bytes record.key).length
  { builder with
    bufferIsSorted := builder.bufferIsSorted &&
      !(builder.buffer.getLast?.any fun previous => previous.compare K record == .gt)
    buffer := builder.buffer ++ [record]
    bufferedBytes := builder.bufferedBytes + (runRecordHeaderBytes + bytes)
    bufferedResidentBytes := builder.bufferedResidentBytes + (spec.recordSize + bytes)
    indexedItemCount := builder.indexedItemCount + 1 }

/-- Is there no room in the buffer for a key of `bytes` bytes? -/
def isFull (spec : BuildSpec) (builder : IndexRunBuilder κ) (bytes : ℕ) : Bool :=
  !builder.buffer.isEmpty && (spec.limits.sortRunRecords ≤ builder.buffer.length ||
    spec.limits.sortRunBytes < builder.bufferedBytes + (runRecordHeaderBytes + bytes) ||
    spec.residentByteBudget < builder.bufferedResidentBytes + (spec.recordSize + bytes))

def pushKey (spec : BuildSpec) (builder : IndexRunBuilder κ) (key : κ) (rowOrdinal : ℕ) :
    FormatResult (IndexRunBuilder κ) :=
  let bytes := (K.bytes key).length
  if K.skipsNull && spec.unique && K.hasNullComponent key then .ok builder
  else if spec.limits.sortRunBytes < runRecordHeaderBytes + bytes then
    .error (.limit "sort-run record bytes" (runRecordHeaderBytes + bytes) spec.limits.sortRunBytes)
  else if spec.residentByteBudget < spec.recordSize + bytes then
    .error (.limit "accelerator resident bytes" (spec.recordSize + bytes) spec.residentByteBudget)
  else do
    let builder ← if builder.isFull spec bytes then builder.flush K crc spec else .ok builder
    if 2 ^ 64 ≤ builder.indexedItemCount + 1 then
      .error (.invalid "indexed item count overflows")
    else .ok (builder.buffered K spec ⟨key, rowOrdinal⟩)

/-- Push records one after the other. -/
def pushAll (spec : BuildSpec) :
    IndexRunBuilder κ → List (RunRecord κ) → FormatResult (IndexRunBuilder κ)
  | builder, [] => .ok builder
  | builder, record :: records => do
    let builder ← builder.pushKey K crc spec record.key record.rowOrdinal
    pushAll spec builder records

end IndexRunBuilder

/-- Where the records of a builder are when it is done. -/
inductive PreparedRuns (κ : Type) where
  | empty
  | memory (records : List (RunRecord κ))
  | files (files : List Bytes)

def IndexRunBuilder.prepare (spec : BuildSpec) (builder : IndexRunBuilder κ) :
    FormatResult (PreparedRuns κ) :=
  if builder.indexedItemCount = 0 then
    if !K.skipsNull || !spec.unique || !spec.anyNullable then
      .error (.invalid "zero-entry accelerator requires nullable UNIQUE exact key")
    else .ok .empty
  else if builder.runs.isEmpty then .ok (.memory (builder.sortBuffer K).buffer)
  else do
    let builder ← builder.flush K crc spec
    let (merged, _) ← consolidateRuns K crc spec.limits builder.runs builder.spilledBytes
    if spec.limits.mergeFanIn < merged.length then
      .error (.limit "sort-run merge fan-in" merged.length spec.limits.mergeFanIn)
    else .ok (.files merged)

/-- The postings that pages are made of: all that `nextGroup` gives. -/
def PreparedRuns.Streams (maximumFragmentRows : ℕ) : PreparedRuns κ → List (PostingEntry κ) → Prop
  | .empty, groups => groups = []
  | .memory records, groups =>
    Reads (nextGroup K memoryRecords maximumFragmentRows) ⟨records, none⟩ groups
  | .files merged, groups => ∃ merger, RunMerger.openRuns K crc merged = .ok merger ∧
    Reads (nextGroup K (mergedRecords K crc) maximumFragmentRows) ⟨merger, none⟩ groups

end

/-! ## The kinds -/

/-- Keys of exact accelerators. The encoder and `from_canonical_parts` make sure of their length. -/
abbrev ExactRunKey :=
  {key : ExactIndexKey // 0 < key.bytes.length ∧ key.bytes.length ≤ maxIndexKeyBytes}

def exactRuns : RunKind ExactRunKey where
  tag := 1
  bytes key := key.1.bytes
  hasNullComponent key := key.1.hasNullComponent
  compare a b := a.1.ordCmp b.1
  ofBytes bytes hasNull :=
    if h : 0 < bytes.length ∧ bytes.length ≤ maxIndexKeyBytes then .ok ⟨⟨bytes, hasNull⟩, h⟩
    else .error (.limit "index key bytes" bytes.length maxIndexKeyBytes)
  skipsNull := true

/-- Keys of ordered accelerators: their bytes are those of their values. -/
abbrev OrderedRunKey (json : Json) (columns : List IndexKeyColumn) :=
  {key : OrderedIndexKey // Canonical json columns key}

/-- `compare_ordered_keys_trusted`. The keys of one index can always be compared. -/
def compareOrderedKeysTrusted (std : LowerExp) (left right : OrderedIndexKey)
    (columns : List IndexKeyColumn) : Ordering :=
  match compareOrderedComponents std left.values right.values columns with
  | .error _ => .eq
  | .ok ordering =>
    if ordering ≠ .eq then ordering else Bytes.compareBytes left.bytes right.bytes

def orderedRuns (std : LowerExp) (json : Json) (columns : List IndexKeyColumn) :
    RunKind (OrderedRunKey json columns) where
  tag := 2
  bytes key := key.1.bytes
  hasNullComponent key := key.1.hasNullComponent
  compare a b := compareOrderedKeysTrusted std a.1 b.1 columns
  ofBytes bytes _ :=
    match h : decodeCanonicalKeySpecs json bytes (columns.map (·.source)) with
    | .error e => .error e
    | .ok (values, hasNull) => .ok ⟨⟨bytes, values, hasNull⟩, encode_of_decode h⟩
  skipsNull := false

end Runs

end RadixDb
