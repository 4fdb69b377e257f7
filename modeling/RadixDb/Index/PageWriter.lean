import RadixDb.Index.Page

/-!
# Writing the pages of an index

The writers of exact and of ordered indexes go through the entries in order, cut their postings into
fragments and fill pages; a page is closed when the next fragment would exceed its limits. They
differ in how keys are compared, in which keys may own only one row, and in how a page is encoded:
that is a `WriterKind`.

The state of a writer stands for pages that were closed and a page that is open (`Holds`). **A
fragment is added to the open page or to a new one** (`addFragment_spec`), so after all entries
**the pages hold the fragments of the entries, in order, each page within the limits**
(`Built`, `finish_spec`).
-/

namespace RadixDb

open List

/-- `ExactIndexEntry` and `OrderedIndexEntry`: a key with rows, which may be a fragment of its
posting. -/
structure PostingEntry (κ : Type) where
  key : κ
  rowOrdinals : List ℕ
  fragmentState : PostingFragmentState
deriving DecidableEq

/-- `ExactPageBuildLimits` and `OrderedPageBuildLimits`. -/
structure PageBuildLimits where
  maxEntries : ℕ
  maxLogicalBytes : ℕ
  entries : 0 < maxEntries ∧ maxEntries ≤ IndexPage.maxEntriesPerIndexPage
  bytes : IndexPage.pageHeaderBytes ≤ maxLogicalBytes ∧
    maxLogicalBytes ≤ maxLogicalBytesPerIndexPage

namespace IndexPage

theorem one_entry_allowed : 0 < 1 ∧ 1 ≤ maxEntriesPerIndexPage := by decide

/-- What distinguishes the writers: `π` is what they keep of an entry of the open page. -/
structure WriterKind (κ π : Type) where
  kind : PageKind
  bytes : κ → Bytes
  checkKey : κ → FormatResult Unit
  compare : κ → κ → FormatResult Ordering
  /-- May the key own only one row? -/
  ownsOne : κ → Bool
  prepare : κ → List ℕ → PostingFragmentState → π
  encode : List π → ℕ → ℕ → FormatResult IndexPageSpec
  /-- Is the length checked once more before an entry is added? -/
  checksLength : Bool

/-- What the writer keeps between fragments. -/
structure Writer (κ π : Type) where
  prepared : List π
  keyBytes : ℕ
  postingBytes : ℕ
  previousKey : Option κ
  previousState : PostingFragmentState
  previousLastRow : Option ℕ
  entryCount : ℕ
  pages : List IndexPageSpec

/-- Are the rows strictly increasing? -/
def increasing : List ℕ → Bool
  | a :: b :: rows => a < b && increasing (b :: rows)
  | _ => true

/-- `validate_posting_shape` and `validate_ordered_rows`. -/
def validatePostingShape (kind : PageKind) (rows : List ℕ) (sourceRowCount : ℕ) :
    FormatResult Unit :=
  if rows.isEmpty || !increasing rows || rows.getLast?.any (sourceRowCount ≤ ·) then
    .error (.invalid
      (kind.name ++ " posting rows are empty, unordered, or outside source data"))
  else .ok ()

namespace Writer

variable {κ π : Type}

def new : Writer κ π := ⟨[], 0, 0, none, .complete, none, 0, []⟩

variable (K : WriterKind κ π)

/-- `validate_exact_fragment_transition` and `validate_ordered_fragment_transition`. -/
def validateFragmentTransition (w : Writer κ π) (key : κ) (state : PostingFragmentState)
    (firstRow : ℕ) : FormatResult Unit :=
  match w.previousKey with
  | none =>
    if state.hasPrevious then
      .error (.invalid (K.kind.name ++ " posting continuation has no first fragment"))
    else .ok ()
  | some previous => do
    let order ← K.compare previous key
    checkFollows K.kind (K.kind.name ++ " accelerator entries are out of order")
      ("duplicate " ++ K.kind.name ++ " key is not a canonical continuation") order w.previousState
      w.previousLastRow state firstRow

/-- Write the prepared entries as a page. -/
def flush (w : Writer κ π) : FormatResult (Writer κ π) := do
  let page ← K.encode w.prepared w.keyBytes w.postingBytes
  .ok { w with prepared := [], keyBytes := 0, postingBytes := 0, pages := w.pages ++ [page] }

/-- Close the open page if a fragment of the lengths would exceed its limits. -/
def makeRoom (limits : PageBuildLimits) (keyLength postingLength : ℕ) (w : Writer κ π) :
    FormatResult (Writer κ π) :=
  let candidateLength := pageLength (w.prepared.length + 1) (w.keyBytes + keyLength)
    (w.postingBytes + postingLength)
  if !w.prepared.isEmpty && (limits.maxEntries < w.prepared.length + 1 ||
      limits.maxLogicalBytes < candidateLength) then w.flush K
  else .ok w

/-- What is done with each fragment. -/
def addFragment (limits : PageBuildLimits) (key : κ) (w : Writer κ π) (rows : List ℕ)
    (state : PostingFragmentState) (_encoded : ℕ) : FormatResult (Writer κ π) := do
  w.validateFragmentTransition K key state (rows.headD 0)
  if K.ownsOne key && (1 < rows.length || state.hasPrevious || state.hasNext) then
    .error (.invalid ("unique " ++ K.kind.name ++ " key owns more than one row"))
  else do
    let posting := encodePosting rows
    let keyLength := (K.bytes key).length
    let w ← w.makeRoom K limits keyLength posting.length
    let required := pageLength (w.prepared.length + 1) (w.keyBytes + keyLength)
      (w.postingBytes + posting.length)
    if K.checksLength && limits.maxLogicalBytes < required then
      .error (.limit (K.kind.name ++ " page logical bytes") required limits.maxLogicalBytes)
    else
      .ok { w with
        prepared := w.prepared ++ [K.prepare key rows state]
        keyBytes := w.keyBytes + keyLength
        postingBytes := w.postingBytes + posting.length
        previousKey := some key
        previousState := state
        previousLastRow := rows.getLast?
        entryCount := w.entryCount + 1 }

def addEntry (sourceRowCount : ℕ) (limits : PageBuildLimits) (w : Writer κ π)
    (entry : PostingEntry κ) : FormatResult (Writer κ π) := do
  K.checkKey entry.key
  validatePostingShape K.kind entry.rowOrdinals sourceRowCount
  visitFragments entry.rowOrdinals entry.fragmentState
    (pageLength 1 (K.bytes entry.key).length 0) limits.maxLogicalBytes
    (K.kind.name ++ " page logical bytes") (addFragment K limits entry.key) w

def addEntries (sourceRowCount : ℕ) (limits : PageBuildLimits) :
    Writer κ π → List (PostingEntry κ) → FormatResult (Writer κ π)
  | w, [] => .ok w
  | w, entry :: entries => do
    let w ← w.addEntry K sourceRowCount limits entry
    addEntries sourceRowCount limits w entries

/-- The pages, once there are entries and all have been added. -/
def finish (w : Writer κ π) : FormatResult (List IndexPageSpec) :=
  if w.previousState.hasNext then
    .error (.invalid (K.kind.name ++ " posting continuation is truncated"))
  else if !w.prepared.isEmpty then do
    let w ← w.flush K
    .ok w.pages
  else .ok w.pages

end Writer

/-! ## Entries of pages -/

/-- An entry of a page: a key and the rows of a fragment of its posting. -/
structure PageEntry (κ : Type) where
  key : κ
  rows : List ℕ
  state : PostingFragmentState
deriving DecidableEq

section

variable {κ π : Type}

/-- The fragments of an entry's posting. -/
def fragmentEntry (key : κ) (fragment : Fragment) : PageEntry κ :=
  ⟨key, fragment.rows, fragment.state⟩

variable (K : WriterKind κ π)

def WriterKind.prepareEntry (e : PageEntry κ) : π := K.prepare e.key e.rows e.state

def keyBytesOf (entries : List (PageEntry κ)) : ℕ :=
  (entries.map fun e => (K.bytes e.key).length).sum

def postingBytesOf (entries : List (PageEntry κ)) : ℕ :=
  (entries.map fun e => (encodePosting e.rows).length).sum

theorem areas_eq (slot : PageEntry κ → PageSlot) (hkey : ∀ e, (slot e).key = K.bytes e.key)
    (hpost : ∀ e, (slot e).posting = encodePosting e.rows) (group : List (PageEntry κ)) :
    keyBytesOf K group = (keyArea (group.map slot)).length ∧
      postingBytesOf group = (postingArea (group.map slot)).length := by
  simp [keyArea, postingArea, keyBytesOf, postingBytesOf, length_flatMap, hkey, hpost,
    Function.comp_def]

/-- May an entry follow another? -/
def Follows (a b : PageEntry κ) : Prop :=
  (K.compare a.key b.key = .ok .lt ∧ a.state.hasNext = false ∧ b.state.hasPrevious = false) ∨
    (K.compare a.key b.key = .ok .eq ∧ a.state.hasNext = true ∧ b.state.hasPrevious = true ∧
      ∀ last ∈ a.rows.getLast?, last < b.rows.headD 0)

/-- What the writer makes sure of for every entry. -/
structure EntryOk (sourceRowCount : ℕ) (e : PageEntry κ) : Prop where
  key_ok : K.checkKey e.key = .ok ()
  rows_ne : e.rows ≠ []
  rows_after : RowsAfter sourceRowCount none e.rows
  owns_one : K.ownsOne e.key = true → e.rows.length ≤ 1 ∧ e.state = .complete

/-- A page within the limits. -/
def Within (limits : PageBuildLimits) (entries : List (PageEntry κ)) : Prop :=
  entries.length ≤ limits.maxEntries ∧
    pageLength entries.length (keyBytesOf K entries) (postingBytesOf entries) ≤
      limits.maxLogicalBytes

/-- The entries, cut into fragments. -/
inductive Cut (limits : PageBuildLimits) : List (PostingEntry κ) → List (PageEntry κ) → Prop
  | nil : Cut limits [] []
  | cons {entry : PostingEntry κ} {entries : List (PostingEntry κ)} {fragments : List Fragment}
      {rest : List (PageEntry κ)} (hne : entry.rowOrdinals ≠ [])
      (hcut : Fragments entry.fragmentState
        (limits.maxLogicalBytes - pageLength 1 (K.bytes entry.key).length 0) false
        entry.rowOrdinals fragments)
      (hrest : Cut limits entries rest) :
      Cut limits (entry :: entries) (fragments.map (fragmentEntry entry.key) ++ rest)

/-- Pages that hold groups of entries. -/
structure Pages (limits : PageBuildLimits) (groups : List (List (PageEntry κ)))
    (pages : List IndexPageSpec) : Prop where
  encoded : List.Forall₂ (fun group page => K.encode (group.map K.prepareEntry)
    (keyBytesOf K group) (postingBytesOf group) = .ok page) groups pages
  groups_ne : ∀ group ∈ groups, group ≠ []
  within : ∀ group ∈ groups, Within K limits group

/-- Entries that follow each other, from a first fragment on. -/
structure InOrder (sourceRowCount : ℕ) (all : List (PageEntry κ)) : Prop where
  chain : all.IsChain (Follows K)
  starts : ∀ e ∈ all.head?, e.state.hasPrevious = false
  entries_ok : ∀ e ∈ all, EntryOk K sourceRowCount e

/-- The result of a writer: pages that hold the fragments of the entries, in order. -/
structure Built (sourceRowCount : ℕ) (limits : PageBuildLimits) (entries : List (PostingEntry κ))
    (groups : List (List (PageEntry κ))) (pages : List IndexPageSpec) : Prop where
  pages_ok : Pages K limits groups pages
  in_order : InOrder K sourceRowCount groups.flatten
  ends : ∀ e ∈ groups.flatten.getLast?, e.state.hasNext = false
  cut : Cut K limits entries groups.flatten

end

/-! ## Rows -/

variable {sourceRowCount : ℕ} {previous : Option ℕ} {rows : List ℕ}

theorem rowsAfter_of_increasing (hfirst : ∀ p ∈ previous, ∀ row ∈ rows.head?, p < row)
    (hrows : increasing rows = true) (hlast : ∀ last ∈ rows.getLast?, last < sourceRowCount) :
    RowsAfter sourceRowCount previous rows := by
  induction rows generalizing previous with
  | nil => trivial
  | cons row rows ih =>
    have hrow := fun p hp => hfirst p hp row rfl
    cases rows with
    | nil => exact ⟨hrow, hlast row rfl, trivial⟩
    | cons next rows =>
      rw [increasing, Bool.and_eq_true, decide_eq_true_eq] at hrows
      have hnext : RowsAfter sourceRowCount (some row) (next :: rows) := by
        refine ih (fun p hp r hr => ?_) hrows.2 hlast
        cases hp
        cases hr
        exact hrows.1
      exact ⟨hrow, Nat.lt_trans hrows.1 hnext.2.1, hnext⟩

theorem rowsAfter_of_shape {kind : PageKind}
    (h : validatePostingShape kind rows sourceRowCount = .ok ()) :
    RowsAfter sourceRowCount none rows := by
  unfold validatePostingShape at h
  split_ifs at h with hshape
  simp only [Bool.or_eq_true, Bool.not_eq_true', not_or, Bool.not_eq_false,
    Option.any_eq_true, decide_eq_true_eq, not_exists, not_and, not_le] at hshape
  obtain ⟨⟨-, hrows⟩, hlast⟩ := hshape
  exact rowsAfter_of_increasing nofun hrows hlast

variable {fragments : List Fragment}

/-- The fragments of rows of the source are rows of the source. -/
theorem rowsAfter_fragments {budget : ℕ} {outer : PostingFragmentState} {started : Bool}
    (h : Fragments outer budget started rows fragments)
    (hrows : RowsAfter sourceRowCount none rows) :
    ∀ f ∈ fragments, f.rows ≠ [] ∧ RowsAfter sourceRowCount none f.rows ∧
      (encodePosting f.rows).length ≤ budget := by
  induction h with
  | nil => exact forall_mem_nil _
  | cons hne hbudget hrest ih =>
    obtain ⟨htaken, hmore⟩ := rowsAfter_append hrows
    exact forall_mem_cons.mpr ⟨⟨hne, htaken, hbudget⟩, ih hmore⟩

/-! ## Steps of the writer -/

theorem checkFollows_iff {kind : PageKind} {outOfOrder duplicate : String} {order : Ordering}
    {previous state : PostingFragmentState} {last : Option ℕ} {firstRow : ℕ} :
    checkFollows kind outOfOrder duplicate order previous last state firstRow = .ok () ↔
      (order = .lt ∧ previous.hasNext = false ∧ state.hasPrevious = false) ∨
        (order = .eq ∧ previous.hasNext = true ∧ state.hasPrevious = true ∧
          ∀ row ∈ last, row < firstRow) := by
  cases order with
  | lt =>
    cases hn : previous.hasNext <;> cases hp : state.hasPrevious <;> simp [checkFollows, hn, hp]
  | gt => simp [checkFollows]
  | eq =>
    cases hn : previous.hasNext <;> cases hp : state.hasPrevious <;>
      simp [checkFollows, hn, hp]
    cases last with
    | none => simp
    | some row => simp

section

variable {κ π : Type} {K : WriterKind κ π} {limits : PageBuildLimits} {sourceRowCount : ℕ}

/-- What the state of a writer stands for. -/
structure Holds (K : WriterKind κ π) (limits : PageBuildLimits) (sourceRowCount : ℕ)
    (w : Writer κ π) (closed : List (List (PageEntry κ))) (current : List (PageEntry κ)) :
    Prop where
  closed_ok : Pages K limits closed w.pages
  prepared_eq : w.prepared = current.map K.prepareEntry
  keyBytes_eq : w.keyBytes = keyBytesOf K current
  postingBytes_eq : w.postingBytes = postingBytesOf current
  current_within : current ≠ [] → Within K limits current
  current_ne : current = [] → closed = []
  in_order : InOrder K sourceRowCount (closed.flatten ++ current)
  previous_eq : w.previousKey = (closed.flatten ++ current).getLast?.map (·.key)
  state_eq : ∀ e ∈ (closed.flatten ++ current).getLast?,
    w.previousState = e.state ∧ w.previousLastRow = e.rows.getLast?
  count_eq : w.entryCount = (closed.flatten ++ current).length

theorem Holds.new (K : WriterKind κ π) (limits : PageBuildLimits) (sourceRowCount : ℕ) :
    Holds K limits sourceRowCount .new [] [] where
  closed_ok := ⟨.nil, forall_mem_nil _, forall_mem_nil _⟩
  prepared_eq := rfl
  keyBytes_eq := rfl
  postingBytes_eq := rfl
  current_within h := absurd rfl h
  current_ne _ := rfl
  in_order := ⟨.nil, nofun, forall_mem_nil _⟩
  previous_eq := rfl
  state_eq := nofun
  count_eq := rfl

variable {w w' : Writer κ π} {closed : List (List (PageEntry κ))} {current : List (PageEntry κ)}

theorem keyBytesOf_append (a b : List (PageEntry κ)) :
    keyBytesOf K (a ++ b) = keyBytesOf K a + keyBytesOf K b := by
  rw [keyBytesOf, map_append, sum_append]
  rfl

theorem postingBytesOf_append (a b : List (PageEntry κ)) :
    postingBytesOf (a ++ b) = postingBytesOf a + postingBytesOf b := by
  rw [postingBytesOf, map_append, sum_append]
  rfl

variable {e : PageEntry κ}

section

variable (h : Holds K limits sourceRowCount w closed current)

include h

theorem Holds.inOrder_append (hok : EntryOk K sourceRowCount e)
    (hnext : w.validateFragmentTransition K e.key e.state (e.rows.headD 0) = .ok ()) :
    InOrder K sourceRowCount (closed.flatten ++ current ++ [e]) := by
  have hents : ∀ x ∈ closed.flatten ++ current ++ [e], EntryOk K sourceRowCount x :=
    forall_mem_append.mpr ⟨h.in_order.entries_ok, forall_mem_singleton.mpr hok⟩
  have hprev := h.previous_eq
  cases hlast : (closed.flatten ++ current).getLast? with
  | none =>
    rw [getLast?_eq_none_iff] at hlast
    rw [hlast] at hprev hents ⊢
    refine ⟨isChain_singleton e, fun x hx => ?_, hents⟩
    cases hx
    simp only [Writer.validateFragmentTransition, hprev, getLast?_nil, Option.map_none]
      at hnext
    split_ifs at hnext with hfirst
    exact Bool.eq_false_iff.mpr hfirst
  | some last =>
    obtain ⟨hstate, hrow⟩ := h.state_eq last hlast
    rw [hlast, Option.map_some] at hprev
    simp only [Writer.validateFragmentTransition, hprev] at hnext
    refine ⟨?_, fun x hx => ?_, hents⟩
    · refine isChain_append.mpr ⟨h.in_order.chain, isChain_singleton e, ?_⟩
      intro x hx y hy
      cases hlast.symm.trans hx
      cases hy
      obtain ⟨order, hcmp, hnext⟩ := ok_of_bind hnext
      simp only [checkFollows_iff, hstate, hrow] at hnext
      rcases hnext with ⟨rfl, hrest⟩ | ⟨rfl, hrest⟩
      · exact .inl ⟨hcmp, hrest⟩
      · exact .inr ⟨hcmp, hrest⟩
    · refine h.in_order.starts x ?_
      rwa [head?_append_of_ne_nil] at hx
      intro hnil
      rw [hnil] at hlast
      cases hlast

theorem Holds.flush (hne : current ≠ []) (hflush : w.flush K = .ok w') :
    Pages K limits (closed ++ [current]) w'.pages ∧
      w' = { w with prepared := [], keyBytes := 0, postingBytes := 0, pages := w'.pages } := by
  obtain ⟨page, hpage, hflush⟩ := ok_of_bind hflush
  cases hflush
  rw [h.prepared_eq, h.keyBytes_eq, h.postingBytes_eq] at hpage
  refine ⟨⟨?_, ?_, ?_⟩, rfl⟩
  · exact rel_append h.closed_ok.encoded (.cons hpage .nil)
  · exact forall_mem_append.mpr ⟨h.closed_ok.groups_ne, forall_mem_singleton.mpr hne⟩
  · exact forall_mem_append.mpr
      ⟨h.closed_ok.within, forall_mem_singleton.mpr (h.current_within hne)⟩

/-- There is room for the entry in the open page, which may be a new one. -/
theorem Holds.room (hfits : Within K limits [e])
    (hroom : w.makeRoom K limits (K.bytes e.key).length (encodePosting e.rows).length = .ok w') :
    ∃ closed' current', Pages K limits closed' w'.pages ∧
      w'.prepared = current'.map K.prepareEntry ∧ w'.keyBytes = keyBytesOf K current' ∧
      w'.postingBytes = postingBytesOf current' ∧ w'.entryCount = w.entryCount ∧
      closed'.flatten ++ current' = closed.flatten ++ current ∧
      Within K limits (current' ++ [e]) := by
  simp only [Writer.makeRoom] at hroom
  split_ifs at hroom with hclose
  · have hne : current ≠ [] := by
      intro hnil
      rw [h.prepared_eq, hnil] at hclose
      exact absurd hclose (by simp)
    obtain ⟨hpages, heq⟩ := h.flush hne hroom
    rw [heq]
    exact ⟨closed ++ [current], [], hpages, rfl, rfl, rfl, rfl, by simp, hfits⟩
  · cases hroom
    refine ⟨closed, current, h.closed_ok, h.prepared_eq, h.keyBytes_eq, h.postingBytes_eq, rfl, rfl,
      ?_⟩
    by_cases hempty : current = []
    · rwa [hempty]
    · simp only [h.prepared_eq, h.keyBytes_eq, h.postingBytes_eq, length_map, Bool.and_eq_true,
        Bool.or_eq_true, decide_eq_true_eq, Bool.not_eq_true', isEmpty_eq_false_iff, ne_eq,
        map_eq_nil_iff, hempty, not_false_eq_true, true_and, not_or, not_lt] at hclose
      rwa [Within, length_append, keyBytesOf_append, postingBytesOf_append]

/-- **One fragment** is added to the open page or to a new one. -/
theorem Holds.addFragment {encoded : ℕ} (hkey : K.checkKey e.key = .ok ()) (hne : e.rows ≠ [])
    (hrows : RowsAfter sourceRowCount none e.rows) (hfits : Within K limits [e])
    (hadd : w.addFragment K limits e.key e.rows e.state encoded = .ok w') :
    ∃ closed' current', Holds K limits sourceRowCount w' closed' current' ∧
      closed'.flatten ++ current' = closed.flatten ++ current ++ [e] := by
  simp only [Writer.addFragment] at hadd
  obtain ⟨_, hnext, hadd⟩ := ok_of_bind hadd
  by_cases hone : (K.ownsOne e.key && (decide (1 < e.rows.length) || e.state.hasPrevious ||
      e.state.hasNext)) = true
  · cases (if_pos hone).symm.trans hadd
  rw [if_neg hone] at hadd
  have howns : K.ownsOne e.key = true → e.rows.length ≤ 1 ∧ e.state = .complete := by
    intro howns
    simp only [howns, Bool.true_and, Bool.or_eq_true, decide_eq_true_eq, not_or, not_lt,
      Bool.not_eq_true] at hone
    exact ⟨hone.1.1, PostingFragmentState.eq_complete hone.1.2 hone.2⟩
  have horder := h.inOrder_append ⟨hkey, hne, hrows, howns⟩ hnext
  obtain ⟨w₁, hroom, hadd⟩ := ok_of_bind hadd
  obtain ⟨closed', current', hpages, hprep, hkeys, hposts, hcount, hall, hwithin⟩ :=
    h.room hfits hroom
  split_ifs at hadd with hlength
  cases hadd
  have hall' : closed'.flatten ++ (current' ++ [e]) = closed.flatten ++ current ++ [e] := by
    rw [← append_assoc, hall]
  refine ⟨closed', current' ++ [e], ?_, hall'⟩
  exact {
    closed_ok := hpages
    prepared_eq := by simp [hprep, WriterKind.prepareEntry]
    keyBytes_eq := by
      rw [keyBytesOf_append, ← hkeys]
      rfl
    postingBytes_eq := by
      rw [postingBytesOf_append, ← hposts]
      rfl
    current_within := fun _ => hwithin
    current_ne := fun hnil => absurd hnil (by simp)
    in_order := by rwa [hall']
    previous_eq := by rw [hall']; simp
    state_eq := by
      rw [hall']
      intro x hx
      cases getLast?_concat.symm.trans hx
      exact ⟨rfl, rfl⟩
    count_eq := by
      rw [hall', length_append, ← h.count_eq, ← hcount]
      rfl }

end

theorem Holds.visitAll {key : κ} (hkey : K.checkKey key = .ok ()) (hfrags : ∀ f ∈ fragments, f.rows
      ≠ [] ∧ RowsAfter sourceRowCount none f.rows ∧ Within K limits [fragmentEntry key f])
    (h : Holds K limits sourceRowCount w closed current)
    (hvisit : visitAll (Writer.addFragment K limits key) fragments w = .ok w') :
    ∃ closed' current', Holds K limits sourceRowCount w' closed' current' ∧
      closed'.flatten ++ current' =
        closed.flatten ++ current ++ fragments.map (fragmentEntry key) := by
  induction fragments generalizing w closed current with
  | nil =>
    cases hvisit
    exact ⟨closed, current, h, by simp⟩
  | cons f fragments ih =>
    obtain ⟨⟨hne, hrows, hfits⟩, hmore⟩ := forall_mem_cons.mp hfrags
    obtain ⟨w₁, hadd, hvisit⟩ := ok_of_bind hvisit
    obtain ⟨closed₁, current₁, h₁, hall₁⟩ :=
      h.addFragment (e := fragmentEntry key f) hkey hne hrows hfits hadd
    obtain ⟨closed', current', h', hall'⟩ := ih hmore h₁ hvisit
    refine ⟨closed', current', h', ?_⟩
    rw [hall', hall₁, map_cons, append_assoc, singleton_append]

/-- **One entry**: its fragments are added. -/
theorem Holds.addEntry {entry : PostingEntry κ} (h : Holds K limits sourceRowCount w closed current)
    (hadd : w.addEntry K sourceRowCount limits entry = .ok w') :
    entry.rowOrdinals ≠ [] ∧ ∃ fragments, Fragments entry.fragmentState
        (limits.maxLogicalBytes - pageLength 1 (K.bytes entry.key).length 0) false
        entry.rowOrdinals fragments ∧
      ∃ closed' current', Holds K limits sourceRowCount w' closed' current' ∧
        closed'.flatten ++ current' =
          closed.flatten ++ current ++ fragments.map (fragmentEntry entry.key) := by
  obtain ⟨_, hkey, hadd⟩ := ok_of_bind hadd
  obtain ⟨_, hshape, hadd⟩ := ok_of_bind hadd
  obtain ⟨hne, hfixed, fragments, hcut, hvisit⟩ := fragments_spec hadd
  have hrows := rowsAfter_fragments hcut (rowsAfter_of_shape hshape)
  refine ⟨hne, fragments, hcut, h.visitAll hkey (fun f hf => ?_) hvisit⟩
  obtain ⟨hfne, hfrows, hbudget⟩ := hrows f hf
  refine ⟨hfne, hfrows, limits.entries.1, ?_⟩
  simp only [pageLength, keyBytesOf, postingBytesOf, fragmentEntry, map_cons, map_nil,
    sum_cons, sum_nil, length_singleton] at hfixed hbudget ⊢
  omega

variable {entries : List (PostingEntry κ)}

/-- **All entries**: the state stands for the fragments of the entries. -/
theorem Holds.addEntries (h : Holds K limits sourceRowCount w closed current)
    (hadd : w.addEntries K sourceRowCount limits entries = .ok w') :
    ∃ added closed' current', Cut K limits entries added ∧
      Holds K limits sourceRowCount w' closed' current' ∧
      closed'.flatten ++ current' = closed.flatten ++ current ++ added := by
  induction entries generalizing w closed current with
  | nil =>
    cases hadd
    exact ⟨[], closed, current, .nil, h, by simp⟩
  | cons entry entries ih =>
    obtain ⟨w₁, hentry, hadd⟩ := ok_of_bind hadd
    obtain ⟨hne, fragments, hcut, closed₁, current₁, h₁, hall₁⟩ := h.addEntry hentry
    obtain ⟨added, closed', current', hmore, h', hall'⟩ := ih h₁ hadd
    refine ⟨_, closed', current', .cons hne hcut hmore, h', ?_⟩
    rw [hall', hall₁, append_assoc]

variable {all : List (PageEntry κ)}

/-- The fragments have the keys of the entries. -/
theorem Cut.mem_keys (h : Cut K limits entries all) (key : κ) :
    (∃ e ∈ all, e.key = key) ↔ ∃ entry ∈ entries, entry.key = key := by
  induction h with
  | nil => simp
  | cons hne hcut hrest ih =>
    rename_i entry entries fragments rest
    cases fragments with
    | nil => exact absurd hcut.partitions.rows.symm hne
    | cons f fragments =>
      by_cases hkey : entry.key = key <;> simp [fragmentEntry, or_and_right, exists_or, ih, hkey]

/-- **The pages of a writer** hold the fragments of the entries. -/
theorem finish_spec {pages : List IndexPageSpec}
    (hadd : Writer.new.addEntries K sourceRowCount limits entries = .ok w)
    (hsome : w.entryCount ≠ 0) (hfinish : w.finish K = .ok pages) :
    ∃ groups, groups ≠ [] ∧ Built K sourceRowCount limits entries groups pages := by
  obtain ⟨added, closed, current, hcut, h, hall⟩ :=
    (Holds.new K limits sourceRowCount).addEntries hadd
  have hne : current ≠ [] := by
    intro hnil
    refine hsome ?_
    rw [h.count_eq, h.current_ne hnil, hnil]
    rfl
  unfold Writer.finish at hfinish
  split_ifs at hfinish with hnext hempty
  · cases hflush : w.flush K with
    | error e =>
      rw [hflush] at hfinish
      cases hfinish
    | ok w' =>
      rw [hflush] at hfinish
      cases hfinish
      have hflat : (closed ++ [current]).flatten = closed.flatten ++ current := by simp
      refine ⟨closed ++ [current], by simp, (h.flush hne hflush).1, ?_, ?_, ?_⟩
      · rw [hflat]
        exact h.in_order
      · rw [hflat]
        intro e he
        rw [← (h.state_eq e he).1]
        exact Bool.eq_false_iff.mpr hnext
      · rwa [hflat, hall]
  · refine absurd ?_ hempty
    rw [h.prepared_eq]
    simpa using hne

end

end IndexPage

end RadixDb
