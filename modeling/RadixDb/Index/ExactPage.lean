import RadixDb.Index.PageWriter
import RadixDb.Lib.Search

/-!
# Pages of an exact index

Keys of an exact index are ordered by their bytes; a key occurs again only if its posting goes on.
A unique index without entries has one page without entries.

There are two readers. `visitExactIndexPage` trusts nothing: it checks header, lengths, checksums,
keys, postings and order before it gives an entry away. The readers whose names begin with
`verified` go straight to the bytes of a page that has been checked before.

The size that a decoded entry has in memory is a parameter (`pageEntrySize`), which the reader
counts against its limit on decoded bytes.
-/

namespace RadixDb

structure ExactIndexKey where
  bytes : Bytes
  hasNullComponent : Bool
deriving DecidableEq

/-- `Ord` of keys: the bytes, then the flag. -/
def ExactIndexKey.ordCmp (a b : ExactIndexKey) : Ordering :=
  (Bytes.compareBytes a.bytes b.bytes).then (cmp a.hasNullComponent b.hasNullComponent)

/-- What the readers know of the index and its source data. -/
structure ExactBinding where
  columns : List DataColumnSpec
  unique : Bool
  indexedItemCount : ℕ
  sourceRowCount : ℕ

namespace ExactPage

open IndexPage

def exactKind : PageKind := ⟨[0x49, 0x58, 0x45, 0x32], "exact", rfl⟩

structure PreparedEntry where
  key : ExactIndexKey
  posting : Bytes
  rowCount : ℕ
  fragmentState : PostingFragmentState
deriving DecidableEq

def PreparedEntry.slot (entry : PreparedEntry) : PageSlot :=
  ⟨entry.key.bytes, entry.posting, entry.rowCount,
    entryFlags entry.key.hasNullComponent entry.fragmentState⟩

section

variable (crc : Crc)

/-! ## Writing -/

def encodePage (codec : IndexPageCodec) (entries : List PreparedEntry)
    (keyBytes postingBytes : ℕ) : FormatResult IndexPageSpec :=
  IndexPage.encodePage exactKind crc codec (entries.map PreparedEntry.slot) keyBytes postingBytes

/-- The page of a unique index without entries. -/
def encodeEmptyPage (codec : IndexPageCodec) : IndexPageSpec :=
  ⟨exactKind.magic ++ Bytes.leBytes 2 pageVersion ++ List.replicate 26 0 ++
    Bytes.leBytes 4 (crc []).toNat ++ Bytes.leBytes 4 0, codec, 0, 0, 0⟩

/-- How entries of an exact index are written. -/
def exactWriter (codec : IndexPageCodec) (unique : Bool) :
    WriterKind ExactIndexKey PreparedEntry where
  kind := exactKind
  bytes := ExactIndexKey.bytes
  checkKey _ := .ok ()
  compare a b := .ok (a.ordCmp b)
  ownsOne _ := unique
  prepare key rows state := ⟨key, encodePosting rows, rows.length, state⟩
  encode := encodePage crc codec
  checksLength := true

/-! ## Reading with checks -/

/-- What the reader keeps between entries. -/
structure VisitState where
  firstKey : Option Bytes
  previousKey : Option Bytes
  previousState : PostingFragmentState
  previousLastRow : Option ℕ

def VisitState.new : VisitState := ⟨none, none, .complete, none⟩

/-- The key of an entry and the one before it. -/
def checkTransition (st : VisitState) (key : Bytes) (state : PostingFragmentState)
    (firstRow : ℕ) : FormatResult Unit :=
  match st.previousKey with
  | none => .ok ()
  | some previous =>
    checkFollows exactKind "exact page keys are out of order"
      "duplicate exact page key is not a canonical continuation"
      (Bytes.compareBytes previous key) st.previousState st.previousLastRow state firstRow

section

variable (json : Json) {σ : Type}
  (visit : σ → Bytes → Bool → Bytes → ℕ → PostingFragmentState → FormatResult σ)

/-- One turn of the loop over the directory. -/
def visitSlot (binding : ExactBinding) (s : VisitState × σ) (slot : PageSlot) :
    FormatResult (VisitState × σ) := do
  let (_, hasNull) ← decodeCanonicalKeySpecs json slot.key binding.columns
  if hasNull ≠ (slot.flags &&& nullComponentFlag != 0) then
    .error (.invalid "exact key NULL flag mismatch")
  else do
    let state := PostingFragmentState.fromFlags slot.flags
    let (firstRow, lastRow) ← postingBounds slot.posting slot.rowCount binding.sourceRowCount
    checkTransition s.1 slot.key state firstRow
    if binding.unique && (1 < slot.rowCount || state.hasPrevious || state.hasNext) then
      .error (.invalid "unique exact key owns more than one row")
    else do
      let visited ← visit s.2 slot.key hasNull slot.posting slot.rowCount state
      .ok (⟨some (s.1.firstKey.getD slot.key), some slot.key, state, some lastRow⟩, visited)

/-- `visit_exact_index_page`: the first and the last key, or nothing for an empty page. -/
def visitExactIndexPage (pageEntrySize : ℕ) (page : IndexPageSpec) (binding : ExactBinding)
    (logical : Bytes) (s : σ) : FormatResult (Option (Bytes × Bytes) × σ) := do
  if logical.length ≠ page.logicalBytes.length then
    .error (.invalid "exact page length differs from page descriptor")
  else do
    let areas ← readAreas exactKind crc 0 page logical
    if areas.entryCount = 0 then
      if !binding.unique || binding.indexedItemCount != 0 || page.itemCount != 0 ||
          areas.directoryLength != 0 || areas.keyLength != 0 || areas.postingLength != 0 ||
          page.minimumKeyHash != 0 || page.maximumKeyHash != 0 ||
          logical.length != pageHeaderBytes then
        .error (.invalid "empty exact page is not canonical nullable UNIQUE state")
      else .ok (none, s)
    else do
      let (st, s) ← visitPageEntries exactKind crc (visitSlot json visit binding)
        (areas.entryCount * pageEntrySize + areas.keyLength) page areas logical (.new, s)
      .ok (st.firstKey.bind fun first => st.previousKey.map fun last => (first, last), s)

end

/-! ## Reading a page that was checked -/

def verifiedPageKey (logical : Bytes) (index : ℕ) : FormatResult Bytes :=
  match getRange logical (pageHeaderBytes + index * entryBytes)
      (pageHeaderBytes + (index + 1) * entryBytes) with
  | none => .error (.invalid "verified exact directory range is invalid")
  | some entry =>
    let start := pageHeaderBytes + readWord 4 logical 12 + readWord 4 entry 0
    match getRange logical start (start + readWord 4 entry 4) with
    | none => .error (.invalid "verified exact key range is invalid")
    | some key => .ok key

def verifiedPageBounds (logical : Bytes) : FormatResult (Bytes × Bytes) := do
  let first ← verifiedPageKey logical 0
  let last ← verifiedPageKey logical (readWord 4 logical 8 - 1)
  .ok (first, last)

/-- Is the key above that of the entry? -/
def aboveEntry (logical key : Bytes) (index : ℕ) : FormatResult Bool := do
  let other ← verifiedPageKey logical index
  .ok (Bytes.compareBytes key other == .gt)

/-- The fragments of the key from entry `low` on, of `count` entries that are left. -/
def collectVerified (sourceRows : ℕ) (logical key : Bytes) :
    ℕ → ℕ → FormatResult (List (List ℕ × PostingFragmentState))
  | 0, _ => .ok []
  | count + 1, low => do
    let other ← verifiedPageKey logical low
    if other ≠ key then .ok []
    else
      let entry := (logical.drop (pageHeaderBytes + low * entryBytes)).take entryBytes
      let start := pageHeaderBytes + readWord 4 logical 12 + readWord 8 logical 16 +
        readWord 4 entry 8
      match getRange logical start (start + readWord 4 entry 12) with
      | none => .error (.invalid "verified exact posting range is invalid")
      | some posting => do
        let rows ← decodePosting posting (readWord 4 entry 16) sourceRows
        let more ← collectVerified sourceRows logical key count (low + 1)
        .ok ((rows, .fromFlags (readWord 4 entry 20)) :: more)

def lookupVerifiedExactPageFragments (logical key : Bytes) (sourceRows : ℕ) :
    FormatResult (List (List ℕ × PostingFragmentState)) := do
  let count := readWord 4 logical 8
  let low ← partitionPoint (aboveEntry logical key) count 0 count
  collectVerified sourceRows logical key (count - low) low

end

end ExactPage

end RadixDb
