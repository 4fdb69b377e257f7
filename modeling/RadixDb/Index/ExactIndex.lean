import RadixDb.Index.ExactPage

/-!
# Building and searching an exact index

`visitExactIndexPagesFromSorted` writes the entries, which are in order, as pages.

`lookupExactIndexFromSource` finds the first page whose last key is not below the key, by a search
over the pages, and collects the fragments of the key from there on. Pages that were checked once
are not checked again: the index remembers the digest of each (`ValidatedExactPages`). The digest is
a parameter.
-/

namespace RadixDb.ExactIndex

open IndexPage

section

variable (crc : Crc)

/-! ## Building -/

/-- `visit_exact_index_pages_from_sorted`: the pages, in order. -/
def visitExactIndexPagesFromSorted (entries : List (PostingEntry ExactIndexKey)) (unique : Bool)
    (sourceRowCount : ℕ) (codec : IndexPageCodec) (limits : PageBuildLimits) :
    FormatResult (List IndexPageSpec) :=
  if sourceRowCount = 0 then .error (.invalid "exact accelerator source has no rows")
  else do
    let writer := ExactPage.exactWriter crc codec unique
    let w ← Writer.new.addEntries writer sourceRowCount limits entries
    if w.entryCount = 0 then
      if !unique then .error (.invalid "exact accelerator has no entries")
      else .ok [ExactPage.encodeEmptyPage crc codec]
    else w.finish writer

/-! ## Searching -/

/-- The digests of the pages that were checked, by page. A slot is set once. -/
abbrev ValidatedExactPages (δ : Type) := ℕ → Option δ

def ValidatedExactPages.remember {δ : Type} (memo : ValidatedExactPages δ) (page : ℕ)
    (digest : δ) : ValidatedExactPages δ :=
  fun i => if i = page then some ((memo page).getD digest) else memo i

/-- What the search over the pages ends with: an answer, or the page to collect from and the page
that was checked last on the way. -/
inductive Routed where
  | answer (rows : Option (List ℕ))
  | page (low : ℕ) (candidate : Option ℕ)

/-- What is kept while fragments are collected. -/
structure Collected where
  output : List ℕ
  previousState : PostingFragmentState
  previousLastRow : Option ℕ
  started : Bool

section

variable {δ : Type} [DecidableEq δ] (digest : Bytes → δ) (json : Json)
  (pageEntrySize : ℕ) (binding : ExactBinding) (pages : List IndexPageSpec)

def previouslyValidated : FormatError :=
  .indexArtifactChecksumMismatch "previously validated exact page"

/-- A page is checked and remembered. -/
def validatePage (index : ℕ) (page : IndexPageSpec) (memo : ValidatedExactPages δ) :
    FormatResult (Option (Bytes × Bytes)) × ValidatedExactPages δ :=
  match ExactPage.visitExactIndexPage crc json (fun _ _ _ _ _ _ => .ok ()) pageEntrySize page
      binding page.logicalBytes () with
  | .error e => (.error e, memo)
  | .ok (bounds, _) => (.ok bounds, memo.remember index (digest page.logicalBytes))

/-- The bounds of a page, checked now or before. -/
def pageBounds (index : ℕ) (page : IndexPageSpec) (memo : ValidatedExactPages δ) :
    FormatResult (Option (Bytes × Bytes)) × ValidatedExactPages δ :=
  match memo index with
  | some expected =>
    if expected ≠ digest page.logicalBytes then (.error previouslyValidated, memo)
    else ((ExactPage.verifiedPageBounds page.logicalBytes).map some, memo)
  | none => validatePage crc digest json pageEntrySize binding index page memo

/-- The answer of a unique index, from the one page that may have the key. -/
def uniqueAnswer (page : IndexPageSpec) (key : Bytes) : FormatResult (Option (List ℕ)) := do
  let fragments ← ExactPage.lookupVerifiedExactPageFragments page.logicalBytes key
    binding.sourceRowCount
  if 1 < fragments.length then
    .error (.invalid "unique exact key has multiple posting fragments")
  else
    match fragments.getLast? with
    | none => .ok none
    | some (rows, state) =>
      if state.hasPrevious || state.hasNext then
        .error (.invalid "unique exact key has a continued posting")
      else .ok (some rows)

/-- The search over the pages; the distance halves with every turn. -/
def routePages (key : Bytes) :
    ℕ → ℕ → ℕ → Option ℕ → ValidatedExactPages δ → FormatResult Routed × ValidatedExactPages δ
  | 0, low, _, candidate, memo => (.ok (.page low candidate), memo)
  | fuel + 1, low, high, candidate, memo =>
    if low < high then
      let middle := low + (high - low) / 2
      match pages[middle]? with
      | none => (.error (.invalid "exact page is outside page directory"), memo)
      | some page =>
        -- an empty page is checked at every lookup
        let checked := if page.itemCount = 0 then
            let (bounds, memo) :=
              validatePage crc digest json pageEntrySize binding middle page memo
            (bounds.map fun _ => none, memo)
          else pageBounds crc digest json pageEntrySize binding middle page memo
        match checked with
        | (.error e, memo) => (.error e, memo)
        | (.ok none, memo) => (.ok (.answer none), memo)
        | (.ok (some (first, last)), memo) =>
          if binding.unique ∧ Bytes.compareBytes first key ≠ .gt ∧
              Bytes.compareBytes key last ≠ .gt then
            ((uniqueAnswer binding page key).map .answer, memo)
          else if Bytes.compareBytes last key = .lt then
            routePages key fuel (middle + 1) high candidate memo
          else routePages key fuel low middle (some middle) memo
    else (.ok (.page low candidate), memo)

/-- An entry that is read is kept if it is of the key. -/
def keepFragment (key : Bytes) (fragments : List (List ℕ × PostingFragmentState))
    (entryKey : Bytes) (_hasNull : Bool) (posting : Bytes) (count : ℕ)
    (state : PostingFragmentState) : FormatResult (List (List ℕ × PostingFragmentState)) :=
  if entryKey = key then do
    let rows ← decodePosting posting count binding.sourceRowCount
    .ok (fragments ++ [(rows, state)])
  else .ok fragments

/-- The bounds of a page and the fragments of the key in it. `reused` says that the search over the
pages has just checked the page. -/
def pageFragments (key : Bytes) (index : ℕ) (page : IndexPageSpec) (reused : Bool)
    (memo : ValidatedExactPages δ) :
    FormatResult (Option (Bytes × Bytes) × List (List ℕ × PostingFragmentState)) ×
      ValidatedExactPages δ :=
  let verified := do
    let fragments ← ExactPage.lookupVerifiedExactPageFragments page.logicalBytes key
      binding.sourceRowCount
    let bounds ← ExactPage.verifiedPageBounds page.logicalBytes
    .ok (some bounds, fragments)
  if reused then (verified, memo)
  else
    match memo index with
    | some expected =>
      if expected ≠ digest page.logicalBytes then (.error previouslyValidated, memo)
      else (verified, memo)
    | none =>
      match ExactPage.visitExactIndexPage crc json (keepFragment binding key) pageEntrySize page
          binding page.logicalBytes [] with
      | .error e => (.error e, memo)
      | .ok r => (.ok r, memo.remember index (digest page.logicalBytes))

/-- The fragments of one page, joined to those of the pages before. -/
def joinFragments : Collected → List (List ℕ × PostingFragmentState) → FormatResult Collected
  | c, [] => .ok c
  | c, (rows, state) :: fragments =>
    let next : Collected := ⟨c.output ++ rows, state, rows.getLast?, true⟩
    if !c.started then
      if state.hasPrevious then
        .error (.invalid "exact posting continuation has no first fragment")
      else joinFragments next fragments
    else if !c.previousState.hasNext || !state.hasPrevious then
      .error (.invalid "exact posting continuation chain is broken")
    else if c.previousLastRow.any (rows.headD 0 ≤ ·) then
      .error (.invalid "exact posting continuation rows are not strictly increasing")
    else joinFragments next fragments

/-- What is returned when no more pages are read. -/
def finishCollect (c : Collected) : FormatResult (Option (List ℕ)) :=
  if c.started then .error (.invalid "exact posting continuation is truncated") else .ok none

/-- The pages from `relative` on, of which `count` are left. -/
def collectPages (key : Bytes) :
    ℕ → ℕ → Option ℕ → Collected → ValidatedExactPages δ →
      FormatResult (Option (List ℕ)) × ValidatedExactPages δ
  | 0, _, _, c, memo => (finishCollect c, memo)
  | count + 1, relative, candidate, c, memo =>
    match pages[relative]? with
    | none => (.error (.invalid "exact page is outside page directory"), memo)
    | some page =>
      if page.itemCount = 0 then (.ok none, memo)
      else
        match pageFragments crc digest json pageEntrySize binding key relative page
            (candidate == some relative) memo with
        | (.error e, memo) => (.error e, memo)
        | (.ok (none, _), memo) => (.ok none, memo)
        | (.ok (some (first, last), fragments), memo) =>
          if Bytes.compareBytes key first = .lt then (finishCollect c, memo)
          else if Bytes.compareBytes key last = .gt then
            collectPages key count (relative + 1) none c memo
          else if fragments.isEmpty then
            (if c.started then .error (.invalid "exact posting continuation chain is broken")
              else .ok none, memo)
          else
            match joinFragments c fragments with
            | .error e => (.error e, memo)
            | .ok c =>
              if !c.previousState.hasNext then (.ok (some c.output), memo)
              else if last ≠ key then
                (.error (.invalid "exact posting continuation is not last in page"), memo)
              else collectPages key count (relative + 1) none c memo

/-- The rows of a canonical key. -/
def lookupKey (key : Bytes) (memo : ValidatedExactPages δ) :
    FormatResult (Option (List ℕ)) × ValidatedExactPages δ :=
  if pages.isEmpty then (.error (.invalid "exact page section ownership is invalid"), memo)
  else
    match routePages crc digest json pageEntrySize binding pages key pages.length 0 pages.length
        none memo with
    | (.error e, memo) => (.error e, memo)
    | (.ok (.answer rows), memo) => (.ok rows, memo)
    | (.ok (.page low candidate), memo) =>
      collectPages crc digest json pageEntrySize binding pages key (pages.length - low) low
        candidate ⟨[], .complete, none, false⟩ memo

/-- `lookup_exact_index_from_source`. -/
def lookupExactIndexFromSource (values : List Value) (memo : ValidatedExactPages δ) :
    FormatResult (Option (List ℕ)) × ValidatedExactPages δ :=
  match encodeCanonicalKeySpecs json binding.columns values with
  | .error e => (.error e, memo)
  | .ok (key, _) => lookupKey crc digest json pageEntrySize binding pages key memo

end

end

end RadixDb.ExactIndex
