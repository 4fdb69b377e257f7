import RadixDb.Index.Posting
import RadixDb.Key.Codec
import RadixDb.Lib.Fields

/-!
# Pages of an index

Exact and ordered indexes store their entries in pages of one layout: a header of 40 bytes, a
directory with 32 bytes for each entry, the keys of all entries one after the other, and their
postings one after the other. An entry is a key with a fragment of its posting; a `PageSlot` is what
the page says about it. The two kinds of index differ in the magic bytes and in the name that stands
in their errors (`PageKind`).

`encodePage` writes a page. The reader checks the header and the areas (`readAreas`), the memory
that the entries would take (`validateDecodeAllocation`), and then every entry (`visitSlots`): its
ranges, lengths, flags and checksums. What else is checked of an entry is up to the kind of index,
as is what becomes of it.

The checksum is a parameter (`crc`).
-/

namespace RadixDb

open Bytes

/-- A checksum. -/
abbrev Crc := Bytes → UInt32

inductive IndexPageCodec where
  | none
  | lz4
deriving DecidableEq

/-- A page as it is written, with what the page directory keeps about it. -/
structure IndexPageSpec where
  logicalBytes : Bytes
  codec : IndexPageCodec
  itemCount : ℕ
  minimumKeyHash : ℕ
  maximumKeyHash : ℕ
deriving DecidableEq

namespace IndexPage

/-- What distinguishes the pages of the kinds of indexes. -/
structure PageKind where
  magic : Bytes
  name : String
  magic_length : magic.length = 4

def pageVersion : ℕ := 2

def pageHeaderBytes : ℕ := 40

def entryBytes : ℕ := 32

def nullComponentFlag : ℕ := 1

def knownEntryFlags : ℕ := 7

def maxEntriesPerIndexPage : ℕ := 1048576

/-- `MAX_EXACT_PAGE_DECODE_BYTES` and `MAX_ORDERED_PAGE_DECODE_BYTES`. -/
def maxPageDecodeBytes : ℕ := 512 * 1024 * 1024

/-- `diagnostic_key_hash`: FNV-1a. -/
def diagnosticKeyHash (bytes : Bytes) : ℕ :=
  (bytes.foldl (fun hash byte => (hash ^^^ byte.toUInt64) * 0x100000001b3)
    (0xcbf29ce484222325 : UInt64)).toNat

/-- `exact_page_length` and `page_length`. -/
def pageLength (entries keyBytes postingBytes : ℕ) : ℕ :=
  pageHeaderBytes + entries * entryBytes + keyBytes + postingBytes

/-- What a page says about an entry. -/
structure PageSlot where
  key : Bytes
  posting : Bytes
  rowCount : ℕ
  flags : ℕ
deriving DecidableEq

def entryFlags (hasNull : Bool) (state : PostingFragmentState) : ℕ :=
  (if hasNull then 1 else 0) ||| state.flags

export Bytes (readWord)

section

variable (kind : PageKind) (crc : Crc)

/-! ## Writing -/

/-- The directory entry of an entry whose key and posting start at the offsets. -/
def descriptor (slot : PageSlot) (keyOffset postingOffset : ℕ) : Bytes :=
  leBytes 4 keyOffset ++ leBytes 4 slot.key.length ++
    leBytes 4 postingOffset ++ leBytes 4 slot.posting.length ++
    leBytes 4 slot.rowCount ++ leBytes 4 slot.flags ++
    leBytes 4 (crc slot.key).toNat ++ leBytes 4 (crc slot.posting).toNat

/-- The directory of the entries that start at the offsets. -/
def directory : List PageSlot → ℕ → ℕ → Bytes
  | [], _, _ => []
  | slot :: slots, keyOffset, postingOffset =>
    descriptor crc slot keyOffset postingOffset ++
      directory slots (keyOffset + slot.key.length) (postingOffset + slot.posting.length)

def header (entryCount keyBytes postingBytes bodyCrc : ℕ) : Bytes :=
  kind.magic ++ leBytes 2 pageVersion ++ leBytes 2 0 ++ leBytes 4 entryCount ++
    leBytes 4 (entryCount * entryBytes) ++ leBytes 8 keyBytes ++
    leBytes 8 postingBytes ++ leBytes 4 bodyCrc ++ leBytes 4 0

def keyArea (slots : List PageSlot) : Bytes := slots.flatMap (·.key)

def postingArea (slots : List PageSlot) : Bytes := slots.flatMap (·.posting)

def body (slots : List PageSlot) : Bytes :=
  directory crc slots 0 0 ++ keyArea slots ++ postingArea slots

def newPageSpec (logicalBytes : Bytes) (codec : IndexPageCodec)
    (itemCount minimumKeyHash maximumKeyHash : ℕ) : FormatResult IndexPageSpec :=
  if logicalBytes.isEmpty then .error (.invalid "index page cannot be empty")
  else if maxLogicalBytesPerIndexPage < logicalBytes.length then
    .error (.limit "logical page bytes" logicalBytes.length maxLogicalBytesPerIndexPage)
  else if itemCount = 0 ∨ maxEntriesPerIndexPage < itemCount then
    .error (.limit "entries per page" itemCount maxEntriesPerIndexPage)
  else if maximumKeyHash < minimumKeyHash then
    .error (.invalid "index page key-hash range is reversed")
  else .ok ⟨logicalBytes, codec, itemCount, minimumKeyHash, maximumKeyHash⟩

def minimumHash (keys : List Bytes) : ℕ :=
  keys.foldl (fun hash key => min hash (diagnosticKeyHash key)) (2 ^ 64 - 1)

def maximumHash (keys : List Bytes) : ℕ :=
  keys.foldl (fun hash key => max hash (diagnosticKeyHash key)) 0

def encodePage (codec : IndexPageCodec) (slots : List PageSlot) (keyBytes postingBytes : ℕ) :
    FormatResult IndexPageSpec :=
  newPageSpec
    (header kind slots.length keyBytes postingBytes (crc (body crc slots)).toNat ++ body crc slots)
    codec slots.length (minimumHash (slots.map (·.key))) (maximumHash (slots.map (·.key)))

/-! ## Reading -/

/-- What the header says about the rest of the page. -/
structure Areas where
  entryCount : ℕ
  directoryLength : ℕ
  keyLength : ℕ
  postingLength : ℕ

namespace Areas

def keyArea (areas : Areas) (logical : Bytes) : Bytes :=
  (logical.drop (pageHeaderBytes + areas.directoryLength)).take areas.keyLength

def postingArea (areas : Areas) (logical : Bytes) : Bytes :=
  logical.drop (pageHeaderBytes + areas.directoryLength + areas.keyLength)

end Areas

/-- The checks of the header. `minimum` is the number of entries that a page has at least. -/
def readAreas (minimum : ℕ) (page : IndexPageSpec) (logical : Bytes) : FormatResult Areas :=
  if logical.length < pageHeaderBytes ∨ logical.take 4 ≠ kind.magic then
    .error (.invalid (kind.name ++ " page header is missing"))
  else if readWord 2 logical 4 ≠ pageVersion ∨ readWord 2 logical 6 ≠ 0 ∨
      readWord 4 logical 36 ≠ 0 then
    .error (.invalid (kind.name ++ " page version/flags/reserved field is invalid"))
  else
    let entryCount := readWord 4 logical 8
    if entryCount < minimum ∨ maxEntriesPerIndexPage < entryCount then
      .error (.limit (kind.name ++ " page entries") entryCount maxEntriesPerIndexPage)
    else if entryCount ≠ page.itemCount then
      .error (.invalid (kind.name ++ " page entry count differs from page descriptor"))
    else
      let directoryLength := readWord 4 logical 12
      let keyLength := readWord 8 logical 16
      let postingLength := readWord 8 logical 24
      if directoryLength ≠ entryCount * entryBytes then
        .error (.invalid (kind.name ++ " page directory length mismatch"))
      else if pageHeaderBytes + directoryLength + keyLength + postingLength ≠ logical.length then
        .error (.invalid (kind.name ++ " page areas do not own the complete payload"))
      else if readWord 4 logical 32 ≠ (crc (logical.drop pageHeaderBytes)).toNat then
        .error (.indexArtifactChecksumMismatch (kind.name ++ " page body"))
      else .ok ⟨entryCount, directoryLength, keyLength, postingLength⟩

/-- What the decoded entries would take in memory: `base` bytes and eight for each row. -/
def validateDecodeAllocation (base : ℕ) (logical : Bytes) (entryCount : ℕ) : FormatResult Unit :=
  let entry := fun index => (logical.drop (pageHeaderBytes + index * entryBytes)).take entryBytes
  if (List.range entryCount).any fun index => readWord 4 (entry index) 12 <
      readWord 4 (entry index) 16 then
    .error (.invalid (kind.name ++ " posting cannot encode its declared row count"))
  else
    let accounted := base +
      ((List.range entryCount).map fun index => readWord 4 (entry index) 16 * 8).sum
    if maxPageDecodeBytes < accounted then
      .error (.limit (kind.name ++ " page decoded bytes") accounted maxPageDecodeBytes)
    else .ok ()

/-- The checks of a directory entry, and the key and the posting it stands for. The key and the
posting must start where those of the entry before end. -/
def readSlot (keys postings entry : Bytes) (nextKey nextPosting : ℕ) : FormatResult PageSlot :=
  let keyOffset := readWord 4 entry 0
  let keyLength := readWord 4 entry 4
  let postingOffset := readWord 4 entry 8
  let postingLength := readWord 4 entry 12
  let rowCount := readWord 4 entry 16
  let flags := readWord 4 entry 20
  if keyOffset ≠ nextKey ∨ postingOffset ≠ nextPosting ∨ keyLength = 0 then
    .error (.invalid (kind.name ++ " page entry ranges are not canonical"))
  else if maxIndexKeyBytes < keyLength ∨ postingLength = 0 ∨ rowCount = 0 then
    .error (.invalid (kind.name ++ " page entry lengths/count are invalid"))
  else if flags &&& knownEntryFlags ≠ flags then
    .error (.invalid (kind.name ++ " page entry has unknown flags"))
  else
    match getRange keys keyOffset (keyOffset + keyLength) with
    | none => .error (.invalid (kind.name ++ " key range is outside key area"))
    | some key =>
      match getRange postings postingOffset (postingOffset + postingLength) with
      | none => .error (.invalid (kind.name ++ " posting range is outside posting area"))
      | some posting =>
        if readWord 4 entry 24 ≠ (crc key).toNat then
          .error (.indexArtifactChecksumMismatch (kind.name ++ " key"))
        else if readWord 4 entry 28 ≠ (crc posting).toNat then
          .error (.indexArtifactChecksumMismatch (kind.name ++ " posting"))
        else .ok ⟨key, posting, rowCount, flags⟩

/-- What the reader of any kind keeps between entries. -/
structure Cursor where
  nextKey : ℕ
  nextPosting : ℕ
  minimumHash : ℕ
  maximumHash : ℕ

namespace Cursor

def new : Cursor := ⟨0, 0, 2 ^ 64 - 1, 0⟩

def next (cursor : Cursor) (slot : PageSlot) : Cursor :=
  ⟨cursor.nextKey + slot.key.length, cursor.nextPosting + slot.posting.length,
    min cursor.minimumHash (diagnosticKeyHash slot.key),
    max cursor.maximumHash (diagnosticKeyHash slot.key)⟩

end Cursor

section

variable {σ : Type} (step : σ → PageSlot → FormatResult σ)

/-- The loop over the directory; `step` is what a kind of index does with an entry. -/
def visitSlots (logical keys postings : Bytes) : ℕ → ℕ → Cursor → σ → FormatResult (Cursor × σ)
  | 0, _, cursor, s => .ok (cursor, s)
  | count + 1, index, cursor, s => do
    let entry := (logical.drop (pageHeaderBytes + index * entryBytes)).take entryBytes
    let slot ← readSlot kind crc keys postings entry cursor.nextKey cursor.nextPosting
    let s ← step s slot
    visitSlots logical keys postings count (index + 1) (cursor.next slot) s

/-- All entries, after the header has been checked. -/
def visitPageEntries (base : ℕ) (page : IndexPageSpec) (areas : Areas) (logical : Bytes) (s : σ) :
    FormatResult σ := do
  validateDecodeAllocation kind base logical areas.entryCount
  let keys := areas.keyArea logical
  let postings := areas.postingArea logical
  let (cursor, s) ← visitSlots kind crc step logical keys postings areas.entryCount 0 .new s
  if cursor.nextKey ≠ keys.length ∨ cursor.nextPosting ≠ postings.length then
    .error (.invalid (kind.name ++ " page has unowned key or posting bytes"))
  else if page.minimumKeyHash ≠ cursor.minimumHash ∨ page.maximumKeyHash ≠ cursor.maximumHash then
    .error (.invalid (kind.name ++ " page diagnostic key-hash range mismatch"))
  else .ok s

end

end

/-! ## Neighbours -/

/-- May an entry of the state follow the entry before, whose key compares to its key as said? -/
def checkFollows (kind : PageKind) (outOfOrder duplicate : String) (order : Ordering)
    (previousState : PostingFragmentState) (previousLastRow : Option ℕ)
    (state : PostingFragmentState) (firstRow : ℕ) : FormatResult Unit :=
  match order with
  | .gt => .error (.invalid outOfOrder)
  | .lt =>
    if previousState.hasNext || state.hasPrevious then
      .error (.invalid (kind.name ++ " posting continuation changes key"))
    else .ok ()
  | .eq =>
    if !previousState.hasNext || !state.hasPrevious then .error (.invalid duplicate)
    else if previousLastRow.any (firstRow ≤ ·) then
      .error (.invalid (kind.name ++ " posting continuation rows are not strictly increasing"))
    else .ok ()

end IndexPage

end RadixDb
