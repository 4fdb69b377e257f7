import RadixDb.Index.OrderedPage
import RadixDb.Lib.Search

/-!
# Scanning an ordered index

A scan gives the rows of the keys within two bounds, forward or in reverse, without the first
`offset` of them and at most `limit`. It finds the first page that may have such keys by a search
over the pages, reads page after page from there, skips entries before the bounds and ends at the
first entry after them or when it has enough rows. Neighbouring pages are checked against each
other.

Forward and reverse scans are the same loop (`scanPages`) over the pages in different orders.

Callers that ask for a range of SQL pass `excludeNullKeys`: then entries with a NULL in any column
are left out, if there is a bound and no bound has a NULL.
-/

namespace RadixDb

inductive IndexScanDirection where
  | forward
  | reverse
deriving DecidableEq

namespace OrderedScan

open IndexPage OrderedPage

/-- The rows that are still to be left out, and the rows that were found. -/
structure ScanState where
  offset : ℕ
  output : List ℕ

def appendRows (limit : ℕ) : List ℕ → ScanState → ScanState
  | [], s => s
  | row :: rows, s =>
    if 0 < s.offset then appendRows limit rows { s with offset := s.offset - 1 }
    else if s.output.length < limit then
      appendRows limit rows { s with output := s.output ++ [row] }
    else s

/-- The entries of a page, in the order of the scan. The flag says that the scan has ended. -/
def scanEntries (limit : ℕ) (excluded : OrderedIndexKey → Bool)
    (skip stop : OrderedIndexKey → FormatResult Bool) :
    List OrderedIndexPageEntry → ScanState → FormatResult (ScanState × Bool)
  | [], s => .ok (s, false)
  | entry :: entries, s =>
    if excluded entry.key then scanEntries limit excluded skip stop entries s
    else do
      if ← skip entry.key then scanEntries limit excluded skip stop entries s
      else do
        if ← stop entry.key then .ok (s, true)
        else
          let s := appendRows limit entry.rows s
          if s.output.length = limit then .ok (s, true)
          else scanEntries limit excluded skip stop entries s

/-- What the loop over the pages keeps: the rows, the edge of the page that was read last, and
whether the scan has ended. -/
structure PagesState where
  rows : ScanState
  edge : Option OrderedIndexPageEntry
  ended : Bool

/-- The pages in the order of the scan. `check` compares a page to the edge of the one before. -/
def scanPages (decode : ℕ → FormatResult (List OrderedIndexPageEntry))
    (check : Option OrderedIndexPageEntry → ℕ → List OrderedIndexPageEntry → FormatResult Unit)
    (visit : List OrderedIndexPageEntry → ScanState → FormatResult (ScanState × Bool))
    (edge : List OrderedIndexPageEntry → Option OrderedIndexPageEntry) :
    List ℕ → PagesState → FormatResult PagesState
  | [], st => .ok st
  | relative :: places, st => do
    let decoded ← decode relative
    check st.edge relative decoded
    let (rows, ended) ← visit decoded st.rows
    if ended then .ok ⟨rows, st.edge, true⟩
    else scanPages decode check visit edge places ⟨rows, edge decoded, false⟩

def emptyPage : FormatError := .invalid "decoded ordered page is empty"

section

variable (crc : Crc) (std : LowerExp) (json : Json)
  (sizes : DecodeSizes) (binding : OrderedBinding) (pages : List IndexPageSpec)

def validateOrderedPageBoundary (lower upper : OrderedIndexPageEntry) : FormatResult Unit := do
  match ← compareOrderedKeys std lower.key upper.key binding.columns with
  | .gt => .error (.invalid "ordered page key ranges overlap out of order")
  | .lt =>
    if lower.state.hasNext || upper.state.hasPrevious then
      .error (.invalid "ordered posting continuation changes key across pages")
    else .ok ()
  | .eq =>
    if !lower.state.hasNext || !upper.state.hasPrevious then
      .error (.invalid "duplicate ordered page key is not a canonical continuation")
    else if lower.rows.getLast?.any fun left => upper.rows.head?.any fun right => right ≤ left then
      .error (.invalid "ordered posting continuation rows are not strictly increasing")
    else .ok ()

def decodeSelectedPage (index : ℕ) : FormatResult (List OrderedIndexPageEntry) :=
  match pages[index]? with
  | none => .error (.invalid "ordered page is outside page directory")
  | some page => decodeOrderedIndexPage crc std json sizes binding page page.logicalBytes

/-- Is the last key of the page before the bound? -/
def endsBefore (lower : OrderedIndexBound) (index : ℕ) : FormatResult Bool := do
  let decoded ← decodeSelectedPage crc std json sizes binding pages index
  match decoded.getLast? with
  | none => .error emptyPage
  | some last => do
    let ordering ← compareOrderedKeyToBound std last.key lower.key binding.columns
    .ok (ordering == .lt || ordering == .eq && !lower.inclusive)

def firstForwardPage (lower : Option OrderedIndexBound) : FormatResult ℕ :=
  match lower with
  | none => .ok 0
  | some lower =>
    partitionPoint (endsBefore crc std json sizes binding pages lower) pages.length 0 pages.length

/-- Is the first key of the page not after the bound? -/
def startsWithin (upper : OrderedIndexBound) (index : ℕ) : FormatResult Bool := do
  let decoded ← decodeSelectedPage crc std json sizes binding pages index
  match decoded.head? with
  | none => .error emptyPage
  | some first => do
    let ordering ← compareOrderedKeyToBound std first.key upper.key binding.columns
    .ok (ordering == .lt || ordering == .eq && upper.inclusive)

/-- How many pages there are up to the last one that may have keys within the bound. -/
def reversePages (upper : Option OrderedIndexBound) : FormatResult ℕ :=
  match upper with
  | none => .ok pages.length
  | some upper =>
    partitionPoint (startsWithin crc std json sizes binding pages upper) pages.length 0 pages.length

/-- The checks of a forward scan: the first page of the index starts with a first fragment, and
pages follow each other. -/
def checkForward (lower : Option OrderedIndexBound) (previous : Option OrderedIndexPageEntry)
    (relative : ℕ) (decoded : List OrderedIndexPageEntry) : FormatResult Unit :=
  match decoded.head? with
  | none => .error emptyPage
  | some first =>
    if relative = 0 ∧ lower.isNone ∧ first.state.hasPrevious then
      .error (.invalid "ordered posting continuation has no first fragment")
    else
      match previous with
      | none => .ok ()
      | some previous => validateOrderedPageBoundary std binding previous first

def checkReverse (upper : Option OrderedIndexBound) (higher : Option OrderedIndexPageEntry)
    (relative : ℕ) (decoded : List OrderedIndexPageEntry) : FormatResult Unit :=
  match decoded.getLast? with
  | none => .error emptyPage
  | some last =>
    if relative + 1 = pages.length ∧ upper.isNone ∧ last.state.hasNext then
      .error (.invalid "ordered posting continuation is truncated")
    else
      match higher with
      | none => .ok ()
      | some higher => validateOrderedPageBoundary std binding last higher

section

variable (lower upper : Option OrderedIndexBound) (limit : ℕ)
  (excluded : OrderedIndexKey → Bool)

def scanForward (offset : ℕ) : FormatResult (List ℕ) := do
  let start ← firstForwardPage crc std json sizes binding pages lower
  let st ← scanPages (decodeSelectedPage crc std json sizes binding pages)
    (checkForward std binding lower)
    (scanEntries limit excluded (isBeforeLower std binding.columns lower)
      (isAfterUpper std binding.columns upper))
    List.getLast? (List.range' start (pages.length - start)) ⟨⟨offset, []⟩, none, false⟩
  if !st.ended && upper.isNone && st.edge.any (·.state.hasNext) then
    .error (.invalid "ordered posting continuation is truncated")
  else .ok st.rows.output

/-- An entry as a reverse scan reads it. -/
def backwards (entry : OrderedIndexPageEntry) : OrderedIndexPageEntry :=
  { entry with rows := entry.rows.reverse }

def scanReverse (offset : ℕ) : FormatResult (List ℕ) := do
  let count ← reversePages crc std json sizes binding pages upper
  let st ← scanPages (decodeSelectedPage crc std json sizes binding pages)
    (checkReverse std binding pages upper)
    (fun decoded => scanEntries limit excluded (isAfterUpper std binding.columns upper)
      (isBeforeLower std binding.columns lower) (decoded.reverse.map backwards))
    List.head? (List.range count).reverse ⟨⟨offset, []⟩, none, false⟩
  if !st.ended && lower.isNone && st.edge.any (·.state.hasPrevious) then
    .error (.invalid "ordered posting continuation has no first fragment")
  else .ok st.rows.output

end

variable (lower upper : Option OrderedIndexBound)

/-- Can no key be within the bounds? -/
def boundsAreEmpty (limit : ℕ) : FormatResult Bool :=
  match lower, upper with
  | some lower, some upper => do
    match ← compareOrderedBounds std lower.key upper.key binding.columns with
    | .gt => .ok true
    | .eq => .ok (!lower.inclusive || !upper.inclusive || limit == 0)
    | .lt => .ok false
  | _, _ => .ok false

/-- The bounds that there are. -/
def boundsOf : List OrderedIndexBound :=
  lower.toList ++ upper.toList

/-- Are keys with a NULL left out? -/
def excludesNull (excludeNullKeys : Bool) : Bool :=
  excludeNullKeys && !(boundsOf lower upper).isEmpty &&
    (boundsOf lower upper).all fun bound => !bound.key.hasNullComponent

/-- `scan_ordered_index_from_source_with_null_policy`. -/
def scanWithNullPolicy (direction : IndexScanDirection)
    (offset limit : ℕ) (excludeNullKeys : Bool) : FormatResult (List ℕ) := do
  validateOrderedTypes binding.columns
  (boundsOf lower upper).forM fun bound => validateBoundKeyShape bound.key binding.columns
  let empty ← boundsAreEmpty std binding lower upper limit
  if empty ∨ limit = 0 then .ok []
  else if pages.isEmpty then .error (.invalid "ordered page section ownership is invalid")
  else
    let excluded := fun key : OrderedIndexKey =>
      excludesNull lower upper excludeNullKeys && key.hasNullComponent
    match direction with
    | .forward => scanForward crc std json sizes binding pages lower upper limit excluded offset
    | .reverse => scanReverse crc std json sizes binding pages lower upper limit excluded offset

def scanOrderedIndexFromSource (direction : IndexScanDirection) (offset limit : ℕ) :
    FormatResult (List ℕ) :=
  scanWithNullPolicy crc std json sizes binding pages lower upper direction offset limit false

def scanOrderedNonNullIndexFromSource (direction : IndexScanDirection) (offset limit : ℕ) :
    FormatResult (List ℕ) :=
  scanWithNullPolicy crc std json sizes binding pages lower upper direction offset limit true

end

end OrderedScan

end RadixDb
