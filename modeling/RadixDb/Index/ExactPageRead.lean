import RadixDb.Index.ExactIndex
import RadixDb.Index.PageRead
import RadixDb.Lib.Runs

/-!
# Reading the pages of an exact index

A page of an exact index that was written is a group of entries (`PageOf`). The reader that checks
everything accepts it exactly if every key in it can be read and the entries are within the limit on
memory (`Accepted`); then **it gives the entries away in order** (`PageOf.visit_eq`). The readers
without checks find the keys of the entries (`PageOf.verifiedPageKey_eq`), and **the fragments they
collect for a key are those of the entries of the key** (`PageOf.lookupVerified_eq`).
-/

namespace RadixDb.ExactPage

open List Except Nat IndexPage

abbrev Entry := PageEntry ExactIndexKey

/-- What a page says about an entry. -/
def slotOf (e : Entry) : PageSlot :=
  ⟨e.key.bytes, encodePosting e.rows, e.rows.length, entryFlags e.key.hasNullComponent e.state⟩

/-- Entries of an exact index as pieces of postings. -/
def marks : Marks Entry Bytes where
  key e := e.key.bytes
  hasPrevious e := e.state.hasPrevious
  hasNext e := e.state.hasNext
  joins a b := ∀ last ∈ a.rows.getLast?, last < b.rows.headD 0

/-- The key of an entry is one that the reader accepts. -/
def Readable (json : Json) (binding : ExactBinding) (e : Entry) : Prop :=
  ∃ values, decodeCanonicalKeySpecs json e.key.bytes binding.columns =
    .ok (values, e.key.hasNullComponent)

/-- What is made sure of for every entry before it is written. -/
structure WellFormed (binding : ExactBinding) (e : Entry) : Prop where
  key_pos : 0 < e.key.bytes.length
  key_le : e.key.bytes.length ≤ maxIndexKeyBytes
  rows_ne : e.rows ≠ []
  rows_after : RowsAfter binding.sourceRowCount none e.rows
  unique : binding.unique = true → e.rows.length ≤ 1 ∧ e.state = .complete

/-- A page that holds a group of entries. -/
structure PageOf (crc : Crc) (binding : ExactBinding) (group : List Entry)
    (page : IndexPageSpec) : Prop where
  wellFormed : ∀ e ∈ group, WellFormed binding e
  chain : group.IsChain marks.Next
  encoded : ∃ codec, IndexPage.encodePage exactKind crc codec (group.map slotOf)
    (keyArea (group.map slotOf)).length (postingArea (group.map slotOf)).length = .ok page

/-- What the reader counts for the entries of a page in memory. -/
def pageDecodedBytes (pageEntrySize : ℕ) (group : List Entry) : ℕ :=
  decodedBytes (group.length * pageEntrySize + (keyArea (group.map slotOf)).length)
    (group.map slotOf)

/-- Will the reader that checks everything accept the page? -/
def Accepted (json : Json) (pageEntrySize : ℕ) (binding : ExactBinding)
    (group : List Entry) : Prop :=
  (∀ e ∈ group, Readable json binding e) ∧
    pageDecodedBytes pageEntrySize group ≤ maxPageDecodeBytes

/-! ## One entry -/

theorem WellFormed.slotOk {binding : ExactBinding} {e : Entry} (h : WellFormed binding e) :
    SlotOk (slotOf e) where
  key_pos := h.key_pos
  key_le := h.key_le
  rows_pos := length_pos_of_ne_nil h.rows_ne
  rows_le := length_le_encodeRows 0 e.rows
  flags_known := (entryFlags_spec _ _).1

section

variable {json : Json} {σ : Type}
  {visit : σ → Bytes → Bool → Bytes → ℕ → PostingFragmentState → FormatResult σ}
  {binding : ExactBinding} {e : Entry}

/-- What the reader does with an entry of a written page. -/
def readEntry (json : Json)
    (visit : σ → Bytes → Bool → Bytes → ℕ → PostingFragmentState → FormatResult σ)
    (binding : ExactBinding) (s : σ) (e : Entry) : FormatResult σ := do
  let (_, hasNull) ← decodeCanonicalKeySpecs json e.key.bytes binding.columns
  if hasNull ≠ e.key.hasNullComponent then .error (.invalid "exact key NULL flag mismatch")
  else visit s e.key.bytes hasNull (encodePosting e.rows) e.rows.length e.state

/-- What the reader keeps after an entry. -/
def VisitState.next (st : VisitState) (e : Entry) : VisitState :=
  ⟨some (st.firstKey.getD e.key.bytes), some e.key.bytes, e.state, e.rows.getLast?⟩

/-- **One entry** of a written page: everything but the key is accepted. -/
theorem visitSlot_eq (hsource : binding.sourceRowCount ≤ 2 ^ 64) (hwf : WellFormed binding e)
    {st : VisitState} {s : σ}
    (htransition : checkTransition st e.key.bytes e.state (e.rows.headD 0) = .ok ()) :
    visitSlot json visit binding (st, s) (slotOf e) =
      (readEntry json visit binding s e).map fun s => (st.next e, s) := by
  obtain ⟨-, hnull, hstate⟩ := entryFlags_spec e.key.hasNullComponent e.state
  have hbds := postingBounds_encodePosting hsource hwf.rows_ne hwf.rows_after
  have hfirst : e.rows.headD 0 = e.rows.head hwf.rows_ne := by
    rw [headD_eq_head?_getD, head?_eq_some_head hwf.rows_ne, Option.getD_some]
  rw [hfirst] at htransition
  have huniq : ¬ (binding.unique && (decide (1 < e.rows.length) || e.state.hasPrevious ||
      e.state.hasNext)) = true := by
    intro hbad
    rw [Bool.and_eq_true] at hbad
    obtain ⟨hone, hcompl⟩ := hwf.unique hbad.1
    rw [hcompl, PostingFragmentState.complete] at hbad
    simp only [Bool.or_false, decide_eq_true_eq] at hbad
    omega
  unfold visitSlot slotOf readEntry
  dsimp only [bind, Except.bind]
  rw [hnull, hstate]
  cases decodeCanonicalKeySpecs json e.key.bytes binding.columns with
  | error err => rfl
  | ok r =>
    by_cases hflag : r.2 = e.key.hasNullComponent
    · simp only [hflag, hbds, htransition, ne_eq, not_true_eq_false, if_false]
      rw [if_neg huniq]
      cases visit s e.key.bytes e.key.hasNullComponent (encodePosting e.rows) e.rows.length
          e.state with
      | error err => rfl
      | ok s' =>
        simp only [Except.map, VisitState.next, getLast?_eq_some_getLast hwf.rows_ne]
    · simp [hflag, Except.map]

theorem checkTransition_of_next {a b : Entry} (h : marks.Next a b) (st : VisitState) :
    checkTransition (st.next a) b.key.bytes b.state (b.rows.headD 0) = .ok () := by
  have hcmp := Bytes.compareBytes_compares a.key.bytes b.key.bytes
  refine checkFollows_iff.mpr ?_
  rcases h with ⟨hlt, hstates⟩ | ⟨heq, hstates⟩
  · exact .inl ⟨hcmp.eq_lt.mpr hlt, hstates⟩
  · exact .inr ⟨hcmp.eq_eq.mpr heq, hstates⟩

variable {group : List Entry}

/-- **The entries of a page**, one after the other. -/
theorem foldlM_visitSlot (hsource : binding.sourceRowCount ≤ 2 ^ 64)
    (hwf : ∀ e ∈ group, WellFormed binding e) (hchain : group.IsChain marks.Next) {st : VisitState}
    {s : σ} (hfirst : ∀ e ∈ group.head?,
      checkTransition st e.key.bytes e.state (e.rows.headD 0) = .ok ()) :
    (group.map slotOf).foldlM (visitSlot json visit binding) (st, s) =
      (group.foldlM (readEntry json visit binding) s).map fun s =>
        (group.foldl VisitState.next st, s) := by
  induction group generalizing st s with
  | nil => rfl
  | cons e group ih =>
    obtain ⟨hwfE, hwfRest⟩ := forall_mem_cons.mp hwf
    obtain ⟨hnext, hchain⟩ := isChain_cons.mp hchain
    rw [map_cons, foldlM_cons, foldlM_cons, foldl_cons, visitSlot_eq hsource hwfE (hfirst e rfl)]
    cases readEntry json visit binding s e with
    | error err => rfl
    | ok s' => exact ih hwfRest hchain fun x hx => checkTransition_of_next (hnext x hx) st

/-- The first and the last key that the reader keeps. -/
theorem foldl_next (st : VisitState) (hne : group ≠ []) :
    (group.foldl VisitState.next st).firstKey =
        some (st.firstKey.getD (group.head hne).key.bytes) ∧
      (group.foldl VisitState.next st).previousKey = some (group.getLast hne).key.bytes := by
  induction group generalizing st with
  | nil => exact absurd rfl hne
  | cons e group ih =>
    cases group with
    | nil => exact ⟨rfl, rfl⟩
    | cons e' group =>
      obtain ⟨hfirst, hlast⟩ := ih (st.next e) (cons_ne_nil _ _)
      refine ⟨?_, ?_⟩
      · rw [foldl_cons, hfirst]
        rfl
      · rw [foldl_cons, hlast, getLast_cons (cons_ne_nil e' group)]

theorem readable_of_readEntry {s s' : σ} (h : readEntry json visit binding s e = .ok s') :
    Readable json binding e := by
  simp only [readEntry] at h
  obtain ⟨r, hkey, h⟩ := ok_of_bind h
  split_ifs at h with hflag
  rw [ne_eq, not_not] at hflag
  exact ⟨r.1, by rw [hkey, ← hflag]⟩

theorem readable_of_foldlM {s s' : σ} (h : group.foldlM (readEntry json visit binding) s = .ok s') :
    ∀ e ∈ group, Readable json binding e := by
  induction group generalizing s with
  | nil => exact forall_mem_nil _
  | cons e group ih =>
    obtain ⟨s₁, hone, h⟩ := ok_of_bind h
    exact forall_mem_cons.mpr ⟨readable_of_readEntry hone, ih h⟩

end

/-! ## The reader that checks everything -/

namespace PageOf

variable {crc : Crc} {json : Json} {binding : ExactBinding}
  {group : List Entry} {page : IndexPageSpec} {pageEntrySize : ℕ}

section

variable (h : PageOf crc binding group page)

include h

theorem written : Written exactKind crc (group.map slotOf) page where
  slots_ok := by
    intro slot hslot
    obtain ⟨e, he, rfl⟩ := mem_map.mp hslot
    exact (h.wellFormed e he).slotOk
  encoded := h.encoded

theorem group_ne : group ≠ [] := by
  have hne := h.written.slots_ne
  rwa [ne_eq, map_eq_nil_iff] at hne

theorem itemCount_pos : page.itemCount ≠ 0 := by
  rw [h.written.page_eq.2.1, length_map]
  exact ne_of_gt (length_pos_of_ne_nil h.group_ne)

/-- The keys at the ends of the page. -/
def bounds : Bytes × Bytes :=
  ((group.head h.group_ne).key.bytes, (group.getLast h.group_ne).key.bytes)

/-- **A written page** is accepted if it is within the limit on memory and its keys can be read, and
its entries are given away in order. -/
theorem visit_eq {σ : Type}
    (visit : σ → Bytes → Bool → Bytes → ℕ → PostingFragmentState → FormatResult σ) (s : σ)
    (hsource : binding.sourceRowCount ≤ 2 ^ 64) :
    visitExactIndexPage crc json visit pageEntrySize page binding page.logicalBytes s =
      if maxPageDecodeBytes < pageDecodedBytes pageEntrySize group then
        .error (.limit "exact page decoded bytes" (pageDecodedBytes pageEntrySize group)
          maxPageDecodeBytes)
      else (group.foldlM (readEntry json visit binding) s).map fun s => (some h.bounds, s) := by
  have hareas := h.written.readAreas_eq (zero_le 1)
  have hcount : (areasOf (group.map slotOf)).entryCount ≠ 0 := by
    rw [areasOf, length_map]
    exact ne_of_gt (length_pos_of_ne_nil h.group_ne)
  have hents := h.written.visitPageEntries_eq (visitSlot json visit binding)
    (group.length * pageEntrySize + (keyArea (group.map slotOf)).length) (.new, s)
  rw [foldlM_visitSlot hsource h.wellFormed h.chain fun _ _ => rfl, ← pageDecodedBytes] at hents
  obtain ⟨hfirst, hlast⟩ := foldl_next .new h.group_ne
  have hbase : (areasOf (group.map slotOf)).entryCount * pageEntrySize +
      (areasOf (group.map slotOf)).keyLength =
        group.length * pageEntrySize + (keyArea (group.map slotOf)).length := by
    rw [areasOf, length_map]
  unfold visitExactIndexPage
  simp only [ne_eq, not_true_eq_false, if_false, hareas, bind, Except.bind, hcount, hbase, hents]
  by_cases hlimit : maxPageDecodeBytes < pageDecodedBytes pageEntrySize group
  · rw [if_pos hlimit, if_pos hlimit]
    rfl
  · rw [if_neg hlimit, if_neg hlimit]
    cases group.foldlM (readEntry json visit binding) s with
    | error e => rfl
    | ok s' =>
      simp only [Except.map, hfirst, hlast, Option.bind_some, Option.map_some, bounds]
      rfl

/-- The reader refuses a page that is not `Accepted`, whatever it is read for. -/
theorem accepted_of_visit {σ : Type}
    {visit : σ → Bytes → Bool → Bytes → ℕ → PostingFragmentState → FormatResult σ} {s : σ}
    {r : Option (Bytes × Bytes) × σ} (hsource : binding.sourceRowCount ≤ 2 ^ 64)
    (hvisit : visitExactIndexPage crc json visit pageEntrySize page binding page.logicalBytes s =
      .ok r) : Accepted json pageEntrySize binding group := by
  rw [h.visit_eq visit s hsource] at hvisit
  split_ifs at hvisit with hlimit
  cases hread : group.foldlM (readEntry json visit binding) s with
  | error e =>
    rw [hread] at hvisit
    cases hvisit
  | ok s' => exact ⟨readable_of_foldlM hread, not_lt.mp hlimit⟩

end

/-! ## The readers without checks -/

section

variable {before after : List Entry} {e : Entry} {key : Bytes}

theorem written_split (h : PageOf crc binding (before ++ e :: after) page) :
    Written exactKind crc (before.map slotOf ++ slotOf e :: after.map slotOf) page := by
  have hwritten := h.written
  rwa [map_append, map_cons] at hwritten

theorem verifiedPageKey_at (h : PageOf crc binding (before ++ e :: after) page) :
    verifiedPageKey page.logicalBytes before.length = .ok e.key.bytes := by
  have hw := h.written_split
  have hentry := hw.getRange_entry
  have hkey := hw.getRange_key
  obtain ⟨h0, h4, -⟩ := hw.readWord_entry
  obtain ⟨-, -, -, -, h12, -⟩ := hw.readWord_page
  rw [length_map] at hentry h0 h4
  simp only [verifiedPageKey, hentry, h0, h4, h12, hkey]
  rfl

theorem verifiedPageKey_eq (h : PageOf crc binding group page) {i : ℕ} (hi : i < group.length) :
    verifiedPageKey page.logicalBytes i = .ok group[i].key.bytes := by
  have hsplit : group = group.take i ++ group[i] :: group.drop (i + 1) := by
    rw [← drop_eq_getElem_cons hi, take_append_drop]
  have hpage : PageOf crc binding (group.take i ++ group[i] :: group.drop (i + 1)) page :=
    hsplit ▸ h
  have hkey := hpage.verifiedPageKey_at
  rwa [length_take, min_eq_left (le_of_lt hi)] at hkey

theorem verifiedPageBounds_eq (h : PageOf crc binding group page) :
    verifiedPageBounds page.logicalBytes = .ok h.bounds := by
  have hpos := length_pos_of_ne_nil h.group_ne
  obtain ⟨-, -, -, h8, -⟩ := h.written.readWord_page
  rw [length_map] at h8
  simp only [verifiedPageBounds, h8, h.verifiedPageKey_eq hpos,
    h.verifiedPageKey_eq (show group.length - 1 < group.length by omega), ok_bind, bounds,
    head_eq_getElem, getLast_eq_getElem]

/-- The fragments from an entry on, as long as they are of the key. -/
theorem collectVerified_eq (hsource : binding.sourceRowCount ≤ 2 ^ 64) (key : Bytes)
    (before after : List Entry) (h : PageOf crc binding (before ++ after) page) :
    collectVerified binding.sourceRowCount page.logicalBytes key after.length before.length =
      .ok ((after.takeWhile fun e => e.key.bytes = key).map fun e => (e.rows, e.state)) := by
  induction after generalizing before with
  | nil => rfl
  | cons e after ih =>
    have hw := h.written_split
    have hwf := h.wellFormed e (by simp)
    have hpost := hw.getRange_posting
    obtain ⟨-, -, h8, h12, h16, h20, -⟩ := hw.readWord_entry
    obtain ⟨-, -, -, -, h12', h16', -⟩ := hw.readWord_page
    obtain ⟨-, -, hstate⟩ := entryFlags_spec e.key.hasNullComponent e.state
    rw [length_map] at h8 h12 h16 h20
    have happ : before ++ e :: after = (before ++ [e]) ++ after := by simp
    have hmore := ih (before ++ [e]) (happ ▸ h)
    rw [length_append, length_singleton] at hmore
    have hrows : decodePosting (slotOf e).posting (slotOf e).rowCount binding.sourceRowCount =
        .ok e.rows := decodePosting_encodePosting hsource hwf.rows_after
    simp only [length_cons, collectVerified, h.verifiedPageKey_at, bind, Except.bind, ne_eq]
    by_cases hkey : e.key.bytes = key
    · simp only [hkey, not_true_eq_false, if_false, h8, h12, h16, h20, h12', h16', hpost, hrows,
        hmore, takeWhile_cons, decide_true, if_true, map_cons]
      rw [show PostingFragmentState.fromFlags (slotOf e).flags = e.state from hstate]
    · simp [hkey]

/-- **The fragments of a key** in a page. -/
theorem lookupVerified_eq (h : PageOf crc binding group page)
    (hsource : binding.sourceRowCount ≤ 2 ^ 64) (key : Bytes) :
    lookupVerifiedExactPageFragments page.logicalBytes key binding.sourceRowCount =
      .ok ((marks.run key group).map fun e => (e.rows, e.state)) := by
  have hsorted := Marks.sorted_of_chain h.chain
  have hsplit := Marks.split_run hsorted key
  obtain ⟨-, -, -, h8, -⟩ := h.written.readWord_page
  rw [length_map] at h8
  have hle : (marks.below key group).length ≤ group.length :=
    length_filter_le _ _
  have htest : ∀ i, 0 ≤ i → i < group.length → aboveEntry page.logicalBytes key i =
      .ok (decide (i < (marks.below key group).length)) := by
    intro i _ hi
    have hcmp := Bytes.compareBytes_compares key group[i].key.bytes
    have habove : (Bytes.compareBytes key group[i].key.bytes == .gt) =
        decide (i < (marks.below key group).length) := by
      rw [← Bool.coe_iff_coe, beq_iff_eq, hcmp.eq_gt, decide_eq_true_eq]
      exact Marks.key_lt_iff hsorted key hi
    simp only [aboveEntry, h.verifiedPageKey_eq hi, ok_bind, habove]
  have hsearch := partitionPoint_eq (le_of_eq (Nat.sub_zero group.length)) (zero_le _) hle
    htest
  have hcoll := collectVerified_eq hsource key (marks.below key group)
    (marks.run key group ++ marks.above key group) (hsplit ▸ h)
  have hrest : (marks.run key group ++ marks.above key group).length =
      group.length - (marks.below key group).length := by
    have hlen := congrArg length hsplit
    rw [length_append] at hlen
    omega
  have htake : (marks.run key group ++ marks.above key group).takeWhile
      (fun e => e.key.bytes = key) = marks.run key group := by
    have hrun : ∀ e ∈ marks.run key group, decide (e.key.bytes = key) = true :=
      fun e he => decide_eq_true (Marks.mem_run.mp he).2
    rw [takeWhile_append_of_pos hrun]
    conv_rhs => rw [← append_nil (marks.run key group)]
    congr 1
    cases habove : marks.above key group with
    | nil => rfl
    | cons e above =>
      have he : e ∈ marks.above key group := by simp [habove]
      have hlt : key < e.key.bytes := (Marks.mem_above.mp he).2
      exact takeWhile_cons_of_neg (by simpa using ne_of_gt hlt)
  rw [hrest, htake] at hcoll
  simp only [lookupVerifiedExactPageFragments, h8, hsearch, ok_bind, hcoll]

end

end PageOf

end RadixDb.ExactPage
