import RadixDb.Key.ColumnValue
import RadixDb.Lib.Varint

/-!
# Postings

The rows of a key, in increasing order, are its posting. It is written as the first row and the
differences between neighbours, each as a number of variable length. A posting that does not fit a
page is cut into fragments, which say whether one comes before and whether one comes after.

**Reading a posting that was written gives its rows** (`decodePosting_encodePosting`), and **the
fragments of a posting are its rows, in order, in pieces that fit** (`fragments_partition`).
-/

namespace RadixDb

open Nat Option

structure PostingFragmentState where
  hasPrevious : Bool
  hasNext : Bool
deriving DecidableEq

namespace PostingFragmentState

def complete : PostingFragmentState := ⟨false, false⟩

def previousFragmentFlag : ℕ := 2

def nextFragmentFlag : ℕ := 4

def flags (state : PostingFragmentState) : ℕ :=
  (if state.hasPrevious then previousFragmentFlag else 0) |||
    (if state.hasNext then nextFragmentFlag else 0)

def fromFlags (flags : ℕ) : PostingFragmentState :=
  ⟨flags &&& previousFragmentFlag != 0, flags &&& nextFragmentFlag != 0⟩

theorem eq_complete {state : PostingFragmentState} (hprev : state.hasPrevious = false)
    (hnext : state.hasNext = false) : state = complete := by
  cases state
  cases hprev
  cases hnext
  rfl

end PostingFragmentState

def maxLogicalBytesPerIndexPage : ℕ := 256 * 1024 * 1024

/-! ## Fragments -/

/-- The longest beginning of `rows` whose encoding is within the budget, the length of the encoding,
and the other rows. `previous` is the row before, if the fragment has begun. -/
def takeFragment (budget : ℕ) : Option ℕ → ℕ → List ℕ → FormatResult (List ℕ × ℕ × List ℕ)
  | _, encoded, [] => .ok ([], encoded, [])
  | previous, encoded, row :: rows =>
    if previous.any (row < ·) then .error (.invalid "posting row ordinals are not sorted")
    else
      let delta := row - previous.getD 0
      if previous.isSome ∧ delta = 0 then
        .error (.invalid "posting row ordinals are not strictly increasing")
      else
        let candidate := encoded + Varint.length delta
        if budget < candidate then .ok ([], encoded, row :: rows)
        else do
          let (taken, encoded, rest) ← takeFragment budget (some row) candidate rows
          .ok (row :: taken, encoded, rest)

/-- The loop of `visit_fragments`: every turn takes at least one row, so `fuel` is at most the
number of rows. `started` says that rows have been taken before. -/
def visitFragmentsFrom {σ : Type} (outer : PostingFragmentState)
    (fixedLogicalBytes maxLogicalBytes : ℕ) (limitField : String)
    (visitor : σ → List ℕ → PostingFragmentState → ℕ → FormatResult σ) :
    ℕ → Bool → List ℕ → σ → FormatResult σ
  | 0, _, _, s => .ok s
  | _ + 1, _, [], s => .ok s
  | fuel + 1, started, row :: rows, s => do
    let (taken, encoded, rest) ←
      takeFragment (maxLogicalBytes - fixedLogicalBytes) none 0 (row :: rows)
    if taken.isEmpty then
      .error (.limit limitField (fixedLogicalBytes + Varint.length row) maxLogicalBytes)
    else do
      let state : PostingFragmentState :=
        ⟨outer.hasPrevious || started, outer.hasNext || !rest.isEmpty⟩
      let s ← visitor s taken state encoded
      visitFragmentsFrom outer fixedLogicalBytes maxLogicalBytes limitField visitor fuel true rest s

def visitFragments {σ : Type} (rows : List ℕ) (outer : PostingFragmentState)
    (fixedLogicalBytes maxLogicalBytes : ℕ) (limitField : String)
    (visitor : σ → List ℕ → PostingFragmentState → ℕ → FormatResult σ) (s : σ) : FormatResult σ :=
  if rows.isEmpty then .error (.invalid "posting fragment source is empty")
  else if maxLogicalBytesPerIndexPage < maxLogicalBytes then
    .error (.limit limitField maxLogicalBytes maxLogicalBytesPerIndexPage)
  else if maxLogicalBytes < fixedLogicalBytes then
    .error (.limit limitField fixedLogicalBytes maxLogicalBytes)
  else if maxLogicalBytes - fixedLogicalBytes = 0 then
    .error (.limit limitField (fixedLogicalBytes + 1) maxLogicalBytes)
  else
    visitFragmentsFrom outer fixedLogicalBytes maxLogicalBytes limitField visitor rows.length false
      rows s

/-! ## Bytes -/

/-- The rows after `previous`, as differences. -/
def encodeRows : ℕ → List ℕ → Bytes
  | _, [] => []
  | previous, row :: rows => Varint.encode (row - previous) ++ encodeRows row rows

/-- The first row is written as it is, which is its difference from zero. -/
def encodePosting (rows : List ℕ) : Bytes := encodeRows 0 rows

def decodeVarint (bytes : Bytes) : FormatResult (ℕ × Bytes) :=
  match Varint.decode bytes with
  | .ok r => .ok r
  | .error .truncated => .error (.invalid "posting varint is truncated")
  | .error .overflow => .error (.invalid "posting varint overflows u64")
  | .error .notMinimal => .error (.invalid "posting varint is not minimal")

/-- The loop of `visit_posting`, over the rows still to come; `previous` is the row before. -/
def visitRows (sourceRowCount : ℕ) : ℕ → Option ℕ → Bytes → FormatResult (List ℕ)
  | 0, _, bytes =>
    if bytes.isEmpty then .ok [] else .error (.invalid "posting has trailing bytes")
  | count + 1, previous, bytes => do
    let (delta, bytes) ← decodeVarint bytes
    if previous.isSome ∧ delta = 0 then .error (.invalid "posting contains a zero delta")
    else
      let ordinal := previous.getD 0 + delta
      if 2 ^ 64 ≤ ordinal then .error (.invalid "posting row ordinal overflows")
      else if sourceRowCount ≤ ordinal then
        .error (.invalid "posting row ordinal is outside source data")
      else do
        let rows ← visitRows sourceRowCount count (some ordinal) bytes
        .ok (ordinal :: rows)

def decodePosting (bytes : Bytes) (rowCount sourceRowCount : ℕ) : FormatResult (List ℕ) :=
  visitRows sourceRowCount rowCount none bytes

def postingBounds (bytes : Bytes) (rowCount sourceRowCount : ℕ) : FormatResult (ℕ × ℕ) := do
  let rows ← visitRows sourceRowCount rowCount none bytes
  match rows.head?, rows.getLast? with
  | some first, some last => .ok (first, last)
  | _, _ => .error (.invalid "posting fragment is empty")

/-! ## Reading what was written -/

/-- Rows that may follow `previous`: increasing, and rows of the source. -/
def RowsAfter (sourceRowCount : ℕ) : Option ℕ → List ℕ → Prop
  | _, [] => True
  | previous, row :: rows =>
    (∀ p ∈ previous, p < row) ∧ row < sourceRowCount ∧ RowsAfter sourceRowCount (some row) rows

variable {rows : List ℕ} {sourceRowCount budget : ℕ} {started : Bool} {previous : Option ℕ}

/-- A row after `previous` has a difference from it, and only the first row may have none. -/
theorem delta_of_lt {row : ℕ} (h : ∀ p ∈ previous, p < row) :
    previous.getD 0 ≤ row ∧ ¬ (previous.isSome = true ∧ row - previous.getD 0 = 0) := by
  cases previous with
  | none => exact ⟨zero_le _, nofun⟩
  | some p =>
    have := h p rfl
    rw [getD_some]
    omega

variable {previous : Option ℕ}

theorem visitRows_encodeRows (hsource : sourceRowCount ≤ 2 ^ 64)
    (h : RowsAfter sourceRowCount previous rows) :
    visitRows sourceRowCount rows.length previous (encodeRows (previous.getD 0) rows) =
      .ok rows := by
  induction rows generalizing previous with
  | nil => rfl
  | cons row rows ih =>
    obtain ⟨hafter, hrow, hrest⟩ := h
    obtain ⟨hle, hdelta⟩ := delta_of_lt hafter
    have hread := Varint.decode_encode (n := row - previous.getD 0) (by omega)
      (encodeRows row rows)
    rw [encodeRows, List.length_cons, visitRows]
    simp only [decodeVarint, hread, bind, Except.bind, if_neg hdelta, Nat.add_sub_cancel' hle,
      if_neg (show ¬ 2 ^ 64 ≤ row by omega), if_neg (not_le.mpr hrow)]
    have hmore := ih hrest
    rw [getD_some] at hmore
    rw [hmore]

/-- **Reading a posting that was written.** -/
theorem decodePosting_encodePosting (hsource : sourceRowCount ≤ 2 ^ 64)
    (h : RowsAfter sourceRowCount none rows) :
    decodePosting (encodePosting rows) rows.length sourceRowCount = .ok rows :=
  visitRows_encodeRows hsource h

theorem rowsAfter_iff : RowsAfter sourceRowCount previous rows ↔
    (∀ p ∈ previous, ∀ r ∈ rows, p < r) ∧ rows.Pairwise (· < ·) ∧
      ∀ r ∈ rows, r < sourceRowCount := by
  induction rows generalizing previous with
  | nil => simp [RowsAfter]
  | cons row rows ih =>
    simp only [RowsAfter, ih, mem_some, List.forall_mem_cons, List.pairwise_cons]
    grind

/-- Rows that follow each other, cut in two. -/
theorem rowsAfter_append {taken rest : List ℕ}
    (h : RowsAfter sourceRowCount previous (taken ++ rest)) :
    RowsAfter sourceRowCount previous taken ∧ RowsAfter sourceRowCount none rest := by
  simp only [rowsAfter_iff, List.pairwise_append, List.mem_append] at h ⊢
  grind

theorem visitRows_eq_ok {count : ℕ} {bytes : Bytes}
    (h : visitRows sourceRowCount count previous bytes = .ok rows) :
    RowsAfter sourceRowCount previous rows ∧ encodeRows (previous.getD 0) rows = bytes := by
  induction count generalizing previous bytes rows with
  | zero =>
    rw [visitRows] at h
    split_ifs at h with hempty
    cases h
    exact ⟨trivial, (List.isEmpty_iff.mp hempty).symm⟩
  | succ count ih =>
    obtain ⟨⟨delta, rest⟩, hread, h⟩ := ok_of_bind h
    dsimp only at h
    split_ifs at h with hzero hover hlimit
    obtain ⟨more, hmore, h⟩ := ok_of_bind h
    cases h
    obtain ⟨hafter, rfl⟩ := ih hmore
    refine ⟨⟨fun p hp => ?_, Nat.lt_of_not_le hlimit, hafter⟩, ?_⟩
    · cases hp
      exact Nat.lt_add_of_pos_right (pos_of_ne_zero fun hdelta => hzero ⟨rfl, hdelta⟩)
    · unfold decodeVarint at hread
      split at hread
      all_goals cases hread
      next hdec =>
        rw [Varint.eq_encode_of_decode hdec, encodeRows, Nat.add_sub_cancel_left]
        rfl

/-- **The codec of postings is canonical**: rows of the source come back, and bytes that are
accepted are what is written for the rows they hold. -/
theorem posting_codec_canonical (hsource : sourceRowCount < 2 ^ 64) :
    (∀ rows : List ℕ, rows.Pairwise (· < ·) → (∀ r ∈ rows, r < sourceRowCount) →
      decodePosting (encodePosting rows) rows.length sourceRowCount = .ok rows) ∧
    ∀ bytes rowCount rows, decodePosting bytes rowCount sourceRowCount = .ok rows →
      rows.Pairwise (· < ·) ∧ (∀ r ∈ rows, r < sourceRowCount) ∧ encodePosting rows = bytes := by
  refine ⟨fun rows hrows hlt => ?_, fun bytes rowCount rows h => ?_⟩
  · exact decodePosting_encodePosting hsource.le (rowsAfter_iff.mpr ⟨nofun, hrows, hlt⟩)
  · obtain ⟨hafter, hbytes⟩ := visitRows_eq_ok h
    obtain ⟨-, hrows, hlt⟩ := rowsAfter_iff.mp hafter
    exact ⟨hrows, hlt, hbytes⟩

theorem posting_codec_canonical_ends :
    decodePosting (encodePosting [0, 200, 2 ^ 64 - 2]) 3 (2 ^ 64 - 1) = .ok [0, 200, 2 ^ 64 - 2] :=
  (posting_codec_canonical (by decide)).1 _ (by decide) (by decide)

theorem postingBounds_encodePosting (hsource : sourceRowCount ≤ 2 ^ 64)
    (hne : rows ≠ []) (h : RowsAfter sourceRowCount none rows) :
    postingBounds (encodePosting rows) rows.length sourceRowCount =
      .ok (rows.head hne, rows.getLast hne) := by
  have hread : visitRows sourceRowCount rows.length none (encodePosting rows) = .ok rows :=
    visitRows_encodeRows hsource h
  simp only [postingBounds, hread, ok_bind, List.head?_eq_some_head hne,
    List.getLast?_eq_some_getLast hne]

/-! ## The fragments of a posting -/

/-- A fragment: its rows, its place among the fragments, and the length of its encoding. -/
structure Fragment where
  rows : List ℕ
  state : PostingFragmentState
  encoded : ℕ
deriving DecidableEq

/-- What a posting is cut into. `started` says that there are fragments before. -/
inductive Fragments (outer : PostingFragmentState) (budget : ℕ) :
    Bool → List ℕ → List Fragment → Prop
  | nil (started : Bool) : Fragments outer budget started [] []
  | cons {started : Bool} {taken rest : List ℕ} {fragments : List Fragment} (hne : taken ≠ [])
      (hbudget : (encodePosting taken).length ≤ budget)
      (hrest : Fragments outer budget true rest fragments) :
      Fragments outer budget started (taken ++ rest)
        (⟨taken, ⟨outer.hasPrevious || started, outer.hasNext || !rest.isEmpty⟩,
          (encodePosting taken).length⟩ :: fragments)

theorem length_encodeRows_cons (previous row : ℕ) (rows : List ℕ) :
    (encodeRows previous (row :: rows)).length =
      Varint.length (row - previous) + (encodeRows row rows).length := by
  rw [encodeRows, List.length_append, Varint.length_encode]

theorem length_le_encodeRows (previous : ℕ) (rows : List ℕ) :
    rows.length ≤ (encodeRows previous rows).length := by
  induction rows generalizing previous with
  | nil => exact le_refl _
  | cons row rows ih =>
    have hpos := Varint.length_pos (row - previous)
    have := ih row
    rw [length_encodeRows_cons, List.length_cons]
    omega

/-- The rows taken are a beginning of the rows, and their encoding is within the budget. -/
theorem takeFragment_spec {encoded encoded' : ℕ} {taken rest : List ℕ} (hbudget : encoded ≤ budget)
    (h : takeFragment budget previous encoded rows = .ok (taken, encoded', rest)) :
    rows = taken ++ rest ∧ encoded' ≤ budget ∧
      encoded' = encoded + (encodeRows (previous.getD 0) taken).length := by
  induction rows generalizing previous encoded taken encoded' rest with
  | nil =>
    cases h
    exact ⟨rfl, hbudget, rfl⟩
  | cons row rows ih =>
    simp only [takeFragment] at h
    split_ifs at h with hsorted hzero hfull
    · cases h
      exact ⟨rfl, hbudget, rfl⟩
    · obtain ⟨more, hmore, h⟩ := ok_of_bind h
      cases h
      obtain ⟨hrows, hle, hlen⟩ := ih (not_lt.mp hfull) hmore
      refine ⟨by rw [hrows]; rfl, hle, ?_⟩
      rw [hlen, length_encodeRows_cons, getD_some, add_assoc]

/-- One visitor call per fragment, in order. -/
def visitAll {σ : Type} (visitor : σ → List ℕ → PostingFragmentState → ℕ → FormatResult σ) :
    List Fragment → σ → FormatResult σ
  | [], s => .ok s
  | fragment :: fragments, s => do
    let s ← visitor s fragment.rows fragment.state fragment.encoded
    visitAll visitor fragments s

variable {outer : PostingFragmentState}

theorem exists_takeFragment (h : RowsAfter sourceRowCount previous rows)
    (encoded : ℕ) : ∃ r, takeFragment budget previous encoded rows = .ok r := by
  induction rows generalizing previous encoded with
  | nil => exact ⟨_, rfl⟩
  | cons row rows ih =>
    obtain ⟨hafter, -, hrest⟩ := h
    have hsorted : ¬ previous.any (row < ·) = true := by
      rw [any_eq_true]
      rintro ⟨p, hp, hlt⟩
      exact (hafter p hp).asymm (of_decide_eq_true hlt)
    simp only [takeFragment, if_neg hsorted, if_neg (delta_of_lt hafter).2]
    split
    · exact ⟨_, rfl⟩
    · obtain ⟨r, hr⟩ := ih hrest (encoded + Varint.length (row - previous.getD 0))
      exact ⟨_, by rw [hr, ok_bind]⟩

/-- The loop visits the fragments of the rows, or it fails: of rows in order, one does not fit. -/
theorem fragmentsFrom_cases (outer : PostingFragmentState) (started : Bool) (fixed maximum : ℕ)
    (field : String) {fuel : ℕ} (hfuel : rows.length ≤ fuel) :
    (∃ fragments, Fragments outer (maximum - fixed) started rows fragments ∧
      ∀ {σ : Type} visitor (s : σ), visitFragmentsFrom outer fixed maximum field visitor fuel
        started rows s = visitAll visitor fragments s) ∨
    (∀ n, RowsAfter n none rows → ∃ r ∈ rows, maximum - fixed < Varint.length r) ∧
      ∀ {σ : Type} visitor (s : σ), ∃ e,
        visitFragmentsFrom outer fixed maximum field visitor fuel started rows s = .error e := by
  induction fuel generalizing started rows with
  | zero =>
    obtain rfl : rows = [] := List.length_eq_zero_iff.mp (le_zero.mp hfuel)
    exact .inl ⟨[], .nil started, fun _ _ => rfl⟩
  | succ fuel ih =>
    cases rows with
    | nil => exact .inl ⟨[], .nil started, fun _ _ => rfl⟩
    | cons row rows =>
      simp only [visitFragmentsFrom]
      cases htake : takeFragment (maximum - fixed) none 0 (row :: rows) with
      | error e =>
        refine .inr ⟨fun n hrows => ?_, fun _ _ => ⟨e, rfl⟩⟩
        obtain ⟨r, hr⟩ := exists_takeFragment hrows 0
        cases htake.symm.trans hr
      | ok r =>
        obtain ⟨taken, encoded, rest⟩ := r
        obtain ⟨hrows, hle, hlen⟩ := takeFragment_spec (zero_le _) htake
        rw [zero_add] at hlen
        have hlen : encoded = (encodePosting taken).length := hlen
        simp only [ok_bind]
        by_cases hne : taken = []
        · -- the first row does not fit
          refine .inr ⟨fun _ _ => ⟨row, List.mem_cons_self, ?_⟩, fun _ _ => ⟨_, if_pos ?_⟩⟩
          · by_contra hfits
            rw [takeFragment] at htake
            simp [hfits] at htake
            obtain ⟨_, -, h⟩ := ok_of_bind htake
            simp [hne] at h
          · rw [hne]
            rfl
        · rw [hlen] at hle
          -- a row was taken, so fewer rows are left than fuel
          have hshort : rest.length ≤ fuel := by
            have htotal := congrArg List.length hrows
            have hpos := List.length_pos_of_ne_nil hne
            rw [List.length_append] at htotal
            omega
          simp only [List.isEmpty_iff, if_neg hne, hlen]
          rw [hrows]
          obtain ⟨fragments, hfrags, hvisit⟩ | ⟨hmisfit, hfails⟩ := ih true hshort
          · refine .inl ⟨_, .cons hne hle hfrags, fun visitor s => ?_⟩
            simp only [visitAll, hvisit]
          · refine .inr ⟨fun n hall => ?_, fun visitor s => ?_⟩
            · obtain ⟨r, hr, hlt⟩ := hmisfit n (rowsAfter_append hall).2
              exact ⟨r, List.mem_append_right _ hr, hlt⟩
            · cases visitor s taken
                ⟨outer.hasPrevious || started, outer.hasNext || !rest.isEmpty⟩
                (encodePosting taken).length with
              | error e => exact ⟨e, rfl⟩
              | ok next => exact hfails visitor next

/-- **The fragments of a posting** are visited in order, and are the rows in pieces that fit. -/
theorem fragments_spec {σ : Type} {fixed maximum : ℕ} {field : String}
    {visitor : σ → List ℕ → PostingFragmentState → ℕ → FormatResult σ} {s s' : σ}
    (h : visitFragments rows outer fixed maximum field visitor s = .ok s') :
    rows ≠ [] ∧ fixed ≤ maximum ∧
      ∃ fragments, Fragments outer (maximum - fixed) false rows fragments ∧
        visitAll visitor fragments s = .ok s' := by
  unfold visitFragments at h
  split_ifs at h with hempty hlimit hfixed
  obtain ⟨fragments, hcut, hvisit⟩ | ⟨-, hfails⟩ :=
    fragmentsFrom_cases outer false fixed maximum field (le_refl rows.length)
  · exact ⟨fun hnil => hempty (by rw [hnil]; rfl), not_lt.mp hfixed, fragments, hcut,
      (hvisit visitor s).symm.trans h⟩
  · obtain ⟨e, he⟩ := hfails visitor s
    cases h.symm.trans he

variable {fragments : List Fragment}

theorem Fragments.eq_nil (h : Fragments outer budget started [] fragments) : fragments = [] := by
  generalize hrows : ([] : List ℕ) = rows at h
  cases h with
  | nil => rfl
  | cons hne _ _ => exact absurd (List.append_eq_nil_iff.mp hrows.symm).1 hne

/-- The rows in pieces within the budget, each with its length, and linked by their flags. -/
structure Partitions (outer : PostingFragmentState) (budget : ℕ) (rows : List ℕ)
    (fragments : List Fragment) : Prop where
  rows : fragments.flatMap Fragment.rows = rows
  pieces : ∀ f ∈ fragments, f.rows ≠ [] ∧ f.encoded = (encodePosting f.rows).length ∧
    f.encoded ≤ budget
  first : ∀ f ∈ fragments.head?, f.state.hasPrevious = outer.hasPrevious
  last : ∀ f ∈ fragments.getLast?, f.state.hasNext = outer.hasNext
  linked : fragments.IsChain fun f g => f.state.hasNext = true ∧ g.state.hasPrevious = true

theorem Fragments.partitions (h : Fragments outer budget started rows fragments) :
    Partitions ⟨outer.hasPrevious || started, outer.hasNext⟩ budget rows fragments := by
  induction h with
  | nil => exact ⟨rfl, nofun, nofun, nofun, .nil⟩
  | cons hne hbudget hrest ih =>
    obtain ⟨hrows, hpieces, hfirst, hlast, hlinked⟩ := ih
    refine ⟨by rw [List.flatMap_cons, hrows],
      List.forall_mem_cons.mpr ⟨⟨hne, rfl, hbudget⟩, hpieces⟩, ?_, ?_, ?_⟩
    · rintro f ⟨⟩
      rfl
    · cases hrest with
      | nil => simp
      | cons => simpa using hlast
    · cases hrest with
      | nil => exact .singleton _
      | cons hne' => exact .cons_cons ⟨by simp [hne'], by simp⟩ hlinked

/-- **The fragments of a posting partition its rows**, or there is no room: the budget is none, or a
row alone exceeds it. No rows have no fragments: they are refused before the budget is looked at,
so whatever it is. -/
theorem fragments_partition (outer : PostingFragmentState) (fixed maximum : ℕ) (field : String) :
    (∀ {σ : Type} visitor (s : σ), visitFragments [] outer fixed maximum field visitor s =
      .error (.invalid "posting fragment source is empty")) ∧
    (rows ≠ [] → rows.Pairwise (· < ·) →
      (∃ fragments, Partitions outer (maximum - fixed) rows fragments ∧
        ∀ {σ : Type} visitor (s : σ), visitFragments rows outer fixed maximum field visitor s =
          visitAll visitor fragments s) ∨
      (maxLogicalBytesPerIndexPage < maximum ∨ maximum ≤ fixed ∨
          ∃ r ∈ rows, maximum - fixed < (encodePosting [r]).length) ∧
        ∀ {σ : Type} visitor (s : σ), ∃ e,
          visitFragments rows outer fixed maximum field visitor s = .error e) := by
  refine ⟨fun _ _ => rfl, fun hne hrows => ?_⟩
  have hempty : ¬ rows.isEmpty = true := by simpa using hne
  by_cases hinvalid : maxLogicalBytesPerIndexPage < maximum ∨ maximum ≤ fixed
  · refine .inr ⟨or_assoc.mp (.inl hinvalid), fun visitor s => ?_⟩
    unfold visitFragments
    split_ifs
    all_goals first | exact ⟨_, rfl⟩ | omega
  · have hloop : ∀ {σ : Type} visitor (s : σ),
        visitFragments rows outer fixed maximum field visitor s =
          visitFragmentsFrom outer fixed maximum field visitor rows.length false rows s :=
      fun visitor s => by
        unfold visitFragments
        split_ifs
        all_goals first | rfl | omega
    simp only [hloop]
    obtain ⟨fragments, hcut, hvisit⟩ | ⟨hmisfit, hfails⟩ :=
      fragmentsFrom_cases outer false fixed maximum field (le_refl rows.length)
    · exact .inl ⟨fragments, by simpa using hcut.partitions, hvisit⟩
    · obtain ⟨r, hr, hlt⟩ := hmisfit (rows.sum + 1) (rowsAfter_iff.mpr
        ⟨nofun, hrows, fun r hr => Nat.lt_succ_of_le (List.le_sum_of_mem hr)⟩)
      refine .inr ⟨.inr (.inr ⟨r, hr, ?_⟩), hfails⟩
      simpa [encodePosting, length_encodeRows_cons, encodeRows] using hlt

theorem fragments_partition_two : ∃ fragments, Partitions .complete 2 [0, 200] fragments := by
  obtain ⟨fragments, h, -⟩ | ⟨h, -⟩ :=
    (fragments_partition .complete 0 2 "").2 (by decide : [0, 200] ≠ []) (by decide)
  · exact ⟨fragments, h⟩
  · exact absurd h (by decide)

/-- No rows are refused, though there is room for them. -/
theorem no_fragments_of_nil :
    visitFragments [] .complete 0 1 "" (fun (_ : Unit) _ _ _ => .ok ()) () =
        .error (.invalid "posting fragment source is empty") ∧
      ¬ (maxLogicalBytesPerIndexPage < 1 ∨ 1 ≤ 0 ∨
        ∃ r ∈ ([] : List ℕ), 1 - 0 < (encodePosting [r]).length) := by
  decide

end RadixDb
