import RadixDb.Index.OrderedKey
import RadixDb.Index.PageWriter

/-!
# Pages of an ordered index

Keys of an ordered index are in the order of their columns; a key occurs again only if its posting
goes on. When a page is decoded, the fragments of a key in it become one entry.

Some pages are not written as entries. If all entries of a page are single integers with a single
row each, and both integers and rows go up or down in equal steps, the page holds only where they
start and what the steps are (`encodeDenseIntegerPage`).

The sizes that decoded entries, keys and values have in memory are parameters (`DecodeSizes`), which
the reader counts against its limit on decoded bytes.
-/

namespace RadixDb

/-- What the readers know of the index and its source data. -/
structure OrderedBinding where
  columns : List IndexKeyColumn
  unique : Bool
  sourceRowCount : ℕ
  ordered : validateOrderedTypes columns = .ok ()

/-- `size_of` an `OrderedIndexPageEntry`, an `OrderedIndexKey` and a `Value`. -/
structure DecodeSizes where
  pageEntry : ℕ
  key : ℕ
  value : ℕ

/-- An entry of a decoded page: a key and the rows of all its fragments in the page. -/
abbrev OrderedIndexPageEntry := IndexPage.PageEntry OrderedIndexKey

namespace OrderedPage

open IndexPage Bytes

def orderedKind : PageKind := ⟨[0x49, 0x58, 0x4f, 0x32], "ordered", rfl⟩

def denseIntegerPageMagic : Bytes := [0x49, 0x58, 0x44, 0x31]

def denseIntegerPageVersion : ℕ := 1

def denseIntegerPageBytes : ℕ := 56

structure PreparedEntry where
  key : OrderedIndexKey
  posting : Bytes
  rowCount : ℕ
  fragmentState : PostingFragmentState
  singleRowOrdinal : Option ℕ

def PreparedEntry.slot (entry : PreparedEntry) : PageSlot :=
  ⟨entry.key.bytes, entry.posting, entry.rowCount,
    entryFlags entry.key.hasNullComponent entry.fragmentState⟩

def prepare (key : OrderedIndexKey) (rows : List ℕ) (state : PostingFragmentState) :
    PreparedEntry :=
  ⟨key, encodePosting rows, rows.length, state,
    if rows.length = 1 ∧ state = .complete then rows.head? else none⟩

/-! ## Equal steps -/

/-- `i64::try_from`, and the result of a checked operation. -/
def checkedI64 (i : ℤ) : Option {i : ℤ // InI64 i} := if h : InI64 i then some ⟨i, h⟩ else none

def signedDifference (value base : ℕ) : Option {i : ℤ // InI64 i} :=
  if base ≤ value then checkedI64 (value - base : ℕ)
  else do
    let difference ← checkedI64 (base - value : ℕ)
    checkedI64 (-difference.1)

def checkedI64Progression (first step : ℤ) (ordinal : ℕ) : Option {i : ℤ // InI64 i} := do
  let ordinal ← checkedI64 ordinal
  let distance ← checkedI64 (step * ordinal.1)
  checkedI64 (first + distance.1)

/-- The sums are of 128-bit integers, which hold them. -/
def checkedU64Progression (first : ℕ) (step : ℤ) (ordinal : ℕ) : Option ℕ :=
  let value := (first : ℤ) + step * ordinal
  if 0 ≤ value ∧ value < 2 ^ 64 then some value.toNat else none

/-- Where the integers and the rows of a page start, and their steps. -/
structure Progression where
  firstKey : ℤ
  keyStep : ℤ
  firstRow : ℕ
  rowStep : ℤ
deriving DecidableEq

def denseIntegerEntry (entry : PreparedEntry) : Option (ℤ × ℕ) :=
  if entry.rowCount ≠ 1 ∨ entry.fragmentState ≠ .complete ∨ entry.key.hasNullComponent then none
  else
    match entry.key.values with
    | [.integer key] => entry.singleRowOrdinal.map fun row => (key.1, row)
    | _ => none

/-- The progression that the first two entries are on. -/
def progressionOf : List PreparedEntry → Option Progression
  | [] => none
  | [first] => do
    let (firstKey, firstRow) ← denseIntegerEntry first
    some ⟨firstKey, 0, firstRow, 0⟩
  | first :: second :: _ => do
    let (firstKey, firstRow) ← denseIntegerEntry first
    let (secondKey, secondRow) ← denseIntegerEntry second
    let keyStep ← checkedI64 (secondKey - firstKey)
    let rowStep ← signedDifference secondRow firstRow
    if keyStep.1 = 0 ∨ rowStep.1 = 0 then none else some ⟨firstKey, keyStep.1, firstRow, rowStep.1⟩

/-- Is the entry the one that the progression has at the place? -/
def Progression.has (p : Progression) (entry : PreparedEntry) (ordinal : ℕ) : Bool :=
  match denseIntegerEntry entry with
  | none => false
  | some (key, row) =>
    (checkedI64Progression p.firstKey p.keyStep ordinal).map (·.1) == some key &&
      checkedU64Progression p.firstRow p.rowStep ordinal == some row

/-- Is each entry the one that the progression has, from the place on? -/
def Progression.hasAll (p : Progression) : List PreparedEntry → ℕ → Bool
  | [], _ => true
  | entry :: entries, ordinal => p.has entry ordinal && p.hasAll entries (ordinal + 1)

section

variable (crc : Crc)

/-! ## Writing -/

/-- The part of a page of integers that its checksum covers. -/
def denseBody (count : ℕ) (p : Progression) : Bytes :=
  leBytes 4 count ++ leBytes 4 0 ++ intBytes 8 p.firstKey ++
    intBytes 8 p.keyStep ++ leBytes 8 p.firstRow ++ intBytes 8 p.rowStep

def denseBytes (count : ℕ) (p : Progression) : Bytes :=
  denseIntegerPageMagic ++ leBytes 2 denseIntegerPageVersion ++ leBytes 2 0 ++
    denseBody count p ++ leBytes 4 (crc (denseBody count p)).toNat ++ leBytes 4 0

def encodeDenseIntegerPage (codec : IndexPageCodec) (entries : List PreparedEntry) :
    FormatResult (Option IndexPageSpec) :=
  match progressionOf entries with
  | none => .ok none
  | some p =>
    if p.hasAll entries 0 then
      (newPageSpec (denseBytes crc entries.length p) codec entries.length
        (minimumHash (entries.map (·.key.bytes)))
        (maximumHash (entries.map (·.key.bytes)))).map some
    else .ok none

def encodePage (codec : IndexPageCodec) (entries : List PreparedEntry)
    (keyBytes postingBytes : ℕ) : FormatResult IndexPageSpec := do
  match ← encodeDenseIntegerPage crc codec entries with
  | some page => .ok page
  | none =>
    IndexPage.encodePage orderedKind crc codec (entries.map PreparedEntry.slot) keyBytes
      postingBytes

/-- How entries of an ordered index are written. -/
def orderedWriter (std : LowerExp) (codec : IndexPageCodec) (columns : List IndexKeyColumn)
    (unique : Bool) : WriterKind OrderedIndexKey PreparedEntry where
  kind := orderedKind
  bytes := OrderedIndexKey.bytes
  checkKey key := validateKeyShape key columns
  compare a b := compareOrderedKeys std a b columns
  ownsOne key := unique && !key.hasNullComponent
  prepare := prepare
  encode := encodePage crc codec
  checksLength := false

/-- `visit_ordered_index_pages_from_sorted`: the pages, in order. -/
def visitOrderedIndexPagesFromSorted (std : LowerExp)
    (entries : List (PostingEntry OrderedIndexKey)) (columns : List IndexKeyColumn) (unique : Bool)
    (sourceRowCount : ℕ) (codec : IndexPageCodec) (limits : PageBuildLimits) :
    FormatResult (List IndexPageSpec) :=
  if sourceRowCount = 0 then .error (.invalid "ordered accelerator source has no rows")
  else do
    validateOrderedTypes columns
    let writer := orderedWriter crc std codec columns unique
    let w ← Writer.new.addEntries writer sourceRowCount limits entries
    if w.entryCount = 0 then .error (.invalid "ordered accelerator has no entries")
    else w.finish writer

/-! ## Reading -/

section

variable (std : LowerExp) (json : Json) (sizes : DecodeSizes)
  (binding : OrderedBinding)

/-- How the last key compares to the key that comes next. -/
def orderAfterLast (entries : List OrderedIndexPageEntry) (key : OrderedIndexKey) :
    FormatResult Ordering :=
  match entries.getLast? with
  | none => .ok .lt
  | some previous => compareOrderedKeys std previous.key key binding.columns

/-- The integers from a place on, `count` of them. -/
def denseEntries (p : Progression) :
    ℕ → ℕ → List OrderedIndexPageEntry → FormatResult (List OrderedIndexPageEntry)
  | 0, _, entries => .ok entries
  | count + 1, ordinal, entries =>
    match checkedI64Progression p.firstKey p.keyStep ordinal with
    | none => .error (.invalid "dense integer key progression overflows")
    | some keyValue =>
      match (checkedU64Progression p.firstRow p.rowStep ordinal).filter
          (· < binding.sourceRowCount) with
      | none => .error (.invalid "dense integer row progression is outside source data")
      | some row => do
        let key ← OrderedIndexKey.fromValues json binding.columns [.integer keyValue]
        let ordering ← orderAfterLast std binding entries key
        if ordering ≠ .lt then .error (.invalid "dense integer page keys are out of order")
        else denseEntries p count (ordinal + 1) (entries ++ [⟨key, [row], .complete⟩])

/-- The number of bytes that a page of integers takes in memory. -/
def denseAllocation (count : ℕ) : ℕ := count * (sizes.pageEntry + sizes.key + sizes.value + 8)

def decodeDenseIntegerPage (page : IndexPageSpec) (logical : Bytes) :
    FormatResult (List OrderedIndexPageEntry) :=
  if logical.length ≠ denseIntegerPageBytes ∨ readWord 2 logical 4 ≠ denseIntegerPageVersion ∨
      readWord 2 logical 6 ≠ 0 ∨ readWord 4 logical 12 ≠ 0 ∨ readWord 4 logical 52 ≠ 0 then
    .error (.invalid "dense integer page header is invalid")
  else
    let entryCount := readWord 4 logical 8
    if entryCount = 0 ∨ entryCount ≠ page.itemCount ∨ maxEntriesPerIndexPage < entryCount then
      .error (.invalid "dense integer page entry count is invalid")
    else if binding.columns.map (·.logicalType) ≠ [.integer] then
      .error (.invalid "dense integer page is bound to a non-integer key descriptor")
    else if readWord 4 logical 48 ≠ (crc ((logical.drop 8).take 40)).toNat then
      .error (.indexArtifactChecksumMismatch "dense integer page body")
    else
      let p : Progression := ⟨leInt ((logical.drop 16).take 8),
        leInt ((logical.drop 24).take 8), readWord 8 logical 32,
        leInt ((logical.drop 40).take 8)⟩
      if 1 < entryCount ∧ (p.keyStep = 0 ∨ p.rowStep = 0) then
        .error (.invalid "dense integer page progression has a zero step")
      else if maxPageDecodeBytes < denseAllocation sizes entryCount then
        .error (.limit "ordered page decoded bytes" (denseAllocation sizes entryCount)
          maxPageDecodeBytes)
      else do
        let entries ← denseEntries std json binding p entryCount 0 []
        let keys := entries.map (·.key.bytes)
        if page.minimumKeyHash ≠ minimumHash keys ∨ page.maximumKeyHash ≠ maximumHash keys then
          .error (.invalid "dense integer page diagnostic key-hash range mismatch")
        else .ok entries

/-- What the reader keeps between entries. -/
structure DecodeState where
  entries : List OrderedIndexPageEntry
  previousState : PostingFragmentState
  previousLastRow : Option ℕ

def DecodeState.new : DecodeState := ⟨[], .complete, none⟩

/-- A fragment goes to the entry of its key, if that is the last one. -/
def mergeFragment (entries : List OrderedIndexPageEntry) (fragment : OrderedIndexPageEntry) :
    List OrderedIndexPageEntry :=
  match entries.getLast? with
  | none => [fragment]
  | some last =>
    if last.key.bytes = fragment.key.bytes then
      entries.dropLast ++ [⟨last.key, last.rows ++ fragment.rows,
        ⟨last.state.hasPrevious, fragment.state.hasNext⟩⟩]
    else entries ++ [fragment]

/-- The key of a fragment and the one before it. -/
def checkOrder (st : DecodeState) (key : OrderedIndexKey) (state : PostingFragmentState)
    (firstRow : ℕ) : FormatResult Unit :=
  match st.entries.getLast? with
  | none => .ok ()
  | some previous => do
    let ordering ← compareOrderedKeys std previous.key key binding.columns
    checkFollows orderedKind "ordered page keys are out of order"
      "duplicate ordered page key is not a canonical continuation" ordering st.previousState
      st.previousLastRow state firstRow

/-- One turn of the loop over the directory. -/
def decodeSlot (st : DecodeState) (slot : PageSlot) : FormatResult DecodeState := do
  let (values, hasNull) ←
    decodeCanonicalKeySpecs json slot.key (binding.columns.map (·.source))
  if hasNull ≠ (slot.flags &&& nullComponentFlag != 0) then
    .error (.invalid "ordered key NULL flag mismatch")
  else do
    let key : OrderedIndexKey := ⟨slot.key, values, hasNull⟩
    let state := PostingFragmentState.fromFlags slot.flags
    let rows ← decodePosting slot.posting slot.rowCount binding.sourceRowCount
    checkOrder std binding st key state (rows.headD 0)
    if binding.unique && !hasNull && (1 < slot.rowCount || state.hasPrevious || state.hasNext) then
      .error (.invalid "unique ordered key owns more than one row")
    else .ok ⟨mergeFragment st.entries ⟨key, rows, state⟩, state, rows.getLast?⟩

/-- What the reader counts for a page apart from its rows. -/
def decodeBase (entryCount keyLength : ℕ) : ℕ :=
  entryCount * sizes.pageEntry + keyLength * 2 + entryCount * binding.columns.length * sizes.value

/-- `decode_ordered_index_page`. -/
def decodeOrderedIndexPage (page : IndexPageSpec) (logical : Bytes) :
    FormatResult (List OrderedIndexPageEntry) :=
  if logical.length ≠ page.logicalBytes.length then
    .error (.invalid "ordered page length differs from page descriptor")
  else if logical.take 4 = denseIntegerPageMagic then
    decodeDenseIntegerPage crc std json sizes binding page logical
  else do
    let areas ← readAreas orderedKind crc 1 page logical
    let st ← visitPageEntries orderedKind crc (decodeSlot std json binding)
      (decodeBase sizes binding areas.entryCount areas.keyLength) page areas logical .new
    .ok st.entries

end

end

end OrderedPage

end RadixDb
