import RadixDb.Index.ExactPageRead

/-!
# What a lookup in an exact index answers

The pages of an exact index hold groups of entries that are in order as a whole (`Stored`). A lookup
that does not fail gives the rows of the entries of its key (`answerOf`), whatever has been
remembered of earlier lookups, and it fails only if a page is not accepted (`lookupKey_spec`). What
is remembered is always true (`Sound`).
-/

namespace RadixDb.ExactIndex

open List Bytes Nat Bool IndexPage ExactPage

/-- Pages that hold the entries of an index, in order. -/
structure Stored (crc : Crc) (binding : ExactBinding) (groups : List (List Entry))
    (pages : List IndexPageSpec) : Prop where
  pages_of : Forall₂ (PageOf crc binding) groups pages
  chain : groups.flatten.IsChain marks.Next
  starts : ∀ e ∈ groups.flatten.head?, e.state.hasPrevious = false
  ends : ∀ e ∈ groups.flatten.getLast?, e.state.hasNext = false
  source : binding.sourceRowCount ≤ 2 ^ 64

/-- The rows of a run of fragments; no rows if there are none. -/
def rowsOf (run : List Entry) : Option (List ℕ) :=
  if run.isEmpty then none else some (run.flatMap (·.rows))

/-- The rows of a key. -/
def answerOf (key : Bytes) (all : List Entry) : Option (List ℕ) := rowsOf (marks.run key all)

section

variable {crc : Crc} {json : Json} {binding : ExactBinding}
  {groups : List (List Entry)} {pages : List IndexPageSpec} {pageEntrySize : ℕ} {δ : Type}
  {digest : Bytes → δ} {key : Bytes}

/-! ## Order of the pages -/

section

variable (h : Stored crc binding groups pages)

include h

theorem Stored.sorted : groups.Pairwise fun l l' => ∀ a ∈ l, ∀ b ∈ l', a.key.bytes ≤ b.key.bytes :=
  (pairwise_flatten.mp (Marks.sorted_of_chain h.chain)).2

theorem Stored.length_eq : groups.length = pages.length :=
  h.pages_of.length_eq

/-- The page at a place, and its group of entries. -/
theorem Stored.page_at {i : ℕ} {group : List Entry} (hi : groups[i]? = some group) :
    ∃ page, pages[i]? = some page ∧ PageOf crc binding group page := by
  obtain ⟨hlt, hget⟩ := List.getElem?_eq_some_iff.mp hi
  have hlt' : i < pages.length := h.length_eq ▸ hlt
  refine ⟨pages[i], getElem?_eq_getElem hlt', ?_⟩
  rw [← hget]
  exact h.pages_of.get hlt hlt'

/-- Every group has its page, and every page its group. -/
theorem Stored.page_of_mem :
    (∀ group ∈ groups, ∃ page ∈ pages, PageOf crc binding group page) ∧
      ∀ page ∈ pages, ∃ group ∈ groups, PageOf crc binding group page := by
  refine ⟨fun group hgroup => ?_, fun page hpage => ?_⟩
  · obtain ⟨i, hi⟩ := getElem?_of_mem hgroup
    obtain ⟨page, hpage, hof⟩ := h.page_at hi
    exact ⟨page, mem_of_getElem? hpage, hof⟩
  · obtain ⟨i, hi, rfl⟩ := getElem_of_mem hpage
    have hi' : i < groups.length := h.length_eq ▸ hi
    exact ⟨groups[i], getElem_mem hi', h.pages_of.get hi' hi⟩

theorem Stored.le_of_lt {i j : ℕ} {l l' : List Entry} (hij : i < j) (hi : groups[i]? = some l)
    (hj : groups[j]? = some l') : ∀ a ∈ l, ∀ b ∈ l', a.key.bytes ≤ b.key.bytes := by
  obtain ⟨hlt, rfl⟩ := List.getElem?_eq_some_iff.mp hi
  obtain ⟨hlt', rfl⟩ := List.getElem?_eq_some_iff.mp hj
  exact pairwise_iff_getElem.mp h.sorted i j hlt hlt' hij

end

variable {group : List Entry} {page : IndexPageSpec}

/-- The entries of a page lie between its bounds, which are keys of entries. -/
theorem bounds_spec (h : PageOf crc binding group page) :
    (∀ e ∈ group, h.bounds.1 ≤ e.key.bytes ∧ e.key.bytes ≤ h.bounds.2) ∧
      (∃ e ∈ group, e.key.bytes = h.bounds.1) ∧ ∃ e ∈ group, e.key.bytes = h.bounds.2 := by
  have hsorted := Marks.sorted_of_chain h.chain
  refine ⟨fun e he => ⟨?_, ?_⟩, ⟨_, head_mem h.group_ne, rfl⟩, ⟨_, getLast_mem h.group_ne, rfl⟩⟩
  · exact hsorted.rel_head_of_rel_head_head he le_rfl
  · exact hsorted.rel_getLast_of_rel_getLast_getLast he le_rfl

/-! ## What is remembered -/

/-- What is remembered of a page is its digest, and the page is one that is accepted. -/
def Sound (digest : Bytes → δ) (json : Json) (pageEntrySize : ℕ)
    (binding : ExactBinding) (groups : List (List Entry)) (pages : List IndexPageSpec)
    (memo : ValidatedExactPages δ) : Prop :=
  ∀ i d, memo i = some d → ∃ group page, groups[i]? = some group ∧ pages[i]? = some page ∧
    d = digest page.logicalBytes ∧ ExactPage.Accepted json pageEntrySize binding group

variable {memo : ValidatedExactPages δ}

theorem Sound.remember (h : Sound digest json pageEntrySize binding groups pages memo) {i : ℕ}
    (hi : groups[i]? = some group)
    (hpage : pages[i]? = some page)
    (hacc : ExactPage.Accepted json pageEntrySize binding group) :
    Sound digest json pageEntrySize binding groups pages
      (memo.remember i (digest page.logicalBytes)) := by
  intro j d hd
  unfold ValidatedExactPages.remember at hd
  split_ifs at hd with hj
  · cases hd
    cases hm : memo i with
    | none => exact ⟨group, page, hj ▸ hi, hj ▸ hpage, rfl, hacc⟩
    | some d => exact hj ▸ h i d hm
  · exact h j d hd

theorem Sound.at (h : Sound digest json pageEntrySize binding groups pages memo) {i : ℕ} {d : δ}
    (hi : groups[i]? = some group)
    (hpage : pages[i]? = some page) (hd : memo i = some d) :
    d = digest page.logicalBytes ∧ ExactPage.Accepted json pageEntrySize binding group := by
  obtain ⟨group', page', hi', hpage', hdigest, hacc⟩ := h i d hd
  rw [hi] at hi'
  rw [hpage] at hpage'
  cases hi'
  cases hpage'
  exact ⟨hdigest, hacc⟩

/-! ## One page -/

/-- What a step that needs a page ends with: the page is accepted and something is returned, or it
is not and the step fails. -/
def PageOutcome {β : Type} (digest : Bytes → δ) (json : Json) (pageEntrySize : ℕ)
    (binding : ExactBinding) (groups : List (List Entry)) (pages : List IndexPageSpec)
    (group : List Entry) (value : β) (r : FormatResult β × ValidatedExactPages δ) : Prop :=
  Sound digest json pageEntrySize binding groups pages r.2 ∧
    ((ExactPage.Accepted json pageEntrySize binding group ∧ r.1 = .ok value) ∨
      (¬ ExactPage.Accepted json pageEntrySize binding group ∧ ∃ e, r.1 = .error e))

/-- Everything is read if the keys can be read. -/
theorem foldlM_readEntry {σ : Type}
    {visit : σ → Bytes → Bool → Bytes → ℕ → PostingFragmentState → FormatResult σ}
    {next : σ → Entry → σ} (hread : ∀ e ∈ group, Readable json binding e)
    (hvisit : ∀ e ∈ group, ∀ s, visit s e.key.bytes e.key.hasNullComponent (encodePosting e.rows)
      e.rows.length e.state = .ok (next s e)) (s : σ) :
    group.foldlM (readEntry json visit binding) s = .ok (group.foldl next s) := by
  induction group generalizing s with
  | nil => rfl
  | cons e group ih =>
    obtain ⟨⟨values, hkey⟩, hreadRest⟩ := forall_mem_cons.mp hread
    obtain ⟨hvisitE, hvisitRest⟩ := forall_mem_cons.mp hvisit
    simp only [foldlM_cons, readEntry, hkey, ok_bind, ne_eq, not_true_eq_false, if_false, hvisitE s]
    exact ih hreadRest hvisitRest (next s e)

theorem visit_outcome (json : Json) (pageEntrySize : ℕ) {σ : Type}
    (visit : σ → Bytes → Bool → Bytes → ℕ → PostingFragmentState → FormatResult σ)
    (next : σ → Entry → σ)
    (h : PageOf crc binding group page) (hsource : binding.sourceRowCount ≤ 2 ^ 64)
    (hvisit : ∀ e ∈ group, ∀ s, visit s e.key.bytes e.key.hasNullComponent (encodePosting e.rows)
      e.rows.length e.state = .ok (next s e)) (s : σ) :
    (ExactPage.Accepted json pageEntrySize binding group ∧
      visitExactIndexPage crc json visit pageEntrySize page binding page.logicalBytes s =
        .ok (some h.bounds, group.foldl next s)) ∨
    (¬ ExactPage.Accepted json pageEntrySize binding group ∧
      ∃ e, visitExactIndexPage crc json visit pageEntrySize page binding page.logicalBytes s =
        .error e) := by
  by_cases hacc : ExactPage.Accepted json pageEntrySize binding group
  · refine .inl ⟨hacc, ?_⟩
    rw [h.visit_eq visit s hsource, if_neg (not_lt.mpr hacc.2), foldlM_readEntry hacc.1 hvisit s]
    rfl
  · refine .inr ⟨hacc, ?_⟩
    cases hresult : visitExactIndexPage crc json visit pageEntrySize page binding
        page.logicalBytes s with
    | error e => exact ⟨e, rfl⟩
    | ok r => exact absurd (h.accepted_of_visit hsource hresult) hacc

variable [DecidableEq δ] {i : ℕ} {group : List Entry} {page : IndexPageSpec}

theorem foldl_collect (key : Bytes) (group : List Entry)
    (acc : List (List ℕ × PostingFragmentState)) :
    group.foldl (fun acc e => if e.key.bytes = key then acc ++ [(e.rows, e.state)] else acc) acc =
      acc ++ (marks.run key group).map fun e => (e.rows, e.state) := by
  induction group generalizing acc with
  | nil => simp [Marks.run]
  | cons e group ih =>
    rw [foldl_cons, ih]
    by_cases hkey : e.key.bytes = key
    · rw [if_pos hkey, Marks.run_cons_self hkey, map_cons, append_assoc, singleton_append]
    · rw [if_neg hkey, Marks.run_cons_of_ne hkey]

section

variable (key : Bytes) (hsource : binding.sourceRowCount ≤ 2 ^ 64)
  (hsound : Sound digest json pageEntrySize binding groups pages memo)
  (h : PageOf crc binding group page) (hi : groups[i]? = some group)
  (hpage : pages[i]? = some page)

include hsource hsound h hi hpage

/-- **The bounds of a page**, checked now or before. -/
theorem pageBounds_spec :
    PageOutcome digest json pageEntrySize binding groups pages group (some h.bounds)
      (pageBounds crc digest json pageEntrySize binding i page memo) := by
  unfold pageBounds
  cases hmemo : memo i with
  | some d =>
    obtain ⟨hdigest, hacc⟩ := hsound.at hi hpage hmemo
    simp only [hdigest, ne_eq, not_true_eq_false, if_false, h.verifiedPageBounds_eq]
    exact ⟨hsound, .inl ⟨hacc, rfl⟩⟩
  | none =>
    simp only [validatePage]
    rcases visit_outcome json pageEntrySize (fun _ _ _ _ _ _ => .ok ()) (fun _ _ => ()) h hsource
        (fun _ _ _ => rfl) () with ⟨hacc, hvisit⟩ | ⟨href, e, hvisit⟩
    · rw [hvisit]
      exact ⟨hsound.remember hi hpage hacc, .inl ⟨hacc, rfl⟩⟩
    · rw [hvisit]
      exact ⟨hsound, .inr ⟨href, e, rfl⟩⟩

/-- **The fragments of a key in a page**, checked now or before. -/
theorem pageFragments_spec {reused : Bool}
    (hreused : reused = true → ExactPage.Accepted json pageEntrySize binding group) :
    PageOutcome digest json pageEntrySize binding groups pages group
      (some h.bounds, (marks.run key group).map fun e => (e.rows, e.state))
      (pageFragments crc digest json pageEntrySize binding key i page reused memo) := by
  unfold pageFragments
  simp only [h.lookupVerified_eq hsource, h.verifiedPageBounds_eq, ok_bind]
  cases reused with
  | true => exact ⟨hsound, .inl ⟨hreused rfl, rfl⟩⟩
  | false =>
    cases hmemo : memo i with
    | some d =>
      obtain ⟨hdigest, hacc⟩ := hsound.at hi hpage hmemo
      simp only [hdigest, ne_eq, not_true_eq_false, if_false]
      exact ⟨hsound, .inl ⟨hacc, rfl⟩⟩
    | none =>
      rcases visit_outcome json pageEntrySize (keepFragment binding key)
          (fun acc e => if e.key.bytes = key then acc ++ [(e.rows, e.state)] else acc) h hsource
          (fun e he acc => by
            rw [keepFragment, decodePosting_encodePosting hsource (h.wellFormed e he).rows_after]
            split_ifs <;> rfl) [] with ⟨hacc, hvisit⟩ | ⟨href, e, hvisit⟩
      · rw [foldl_collect, nil_append] at hvisit
        rw [hvisit]
        exact ⟨hsound.remember hi hpage hacc, .inl ⟨hacc, rfl⟩⟩
      · rw [hvisit]
        exact ⟨hsound, .inr ⟨href, e, rfl⟩⟩

end

/-! ## Runs of fragments -/

theorem Stored.around (h : Stored crc binding groups pages) (hi : groups[i]? = some group) :
    (∀ a ∈ (groups.take i).flatten, ∀ b ∈ group, a.key.bytes ≤ b.key.bytes) ∧
      ∀ a ∈ group, ∀ b ∈ (groups.drop (i + 1)).flatten, a.key.bytes ≤ b.key.bytes := by
  have hsorted := Marks.sorted_of_chain h.chain
  rw [flatten_split hi] at hsorted
  obtain ⟨-, hrest, hbefore⟩ := pairwise_append.mp hsorted
  refine ⟨fun a ha b hb => hbefore a ha b (mem_append_left _ hb), fun a ha b hb => ?_⟩
  exact (pairwise_append.mp hrest).2.2 a ha b hb

theorem Stored.run_unique (h : Stored crc binding groups pages) (huniq : binding.unique = true)
    (key : Bytes) : (marks.run key groups.flatten).length ≤ 1 := by
  have hchain := Marks.run_chain (k := key) h.chain
  cases hrun : marks.run key groups.flatten with
  | nil => exact zero_le 1
  | cons a run =>
    cases run with
    | nil => exact le_refl 1
    | cons b run =>
      rw [hrun] at hchain
      have hnext : a.state.hasNext = true := ((isChain_cons.mp hchain).1 b rfl).1
      have ha : a ∈ groups.flatten := (Marks.mem_run.mp (hrun ▸ mem_cons_self)).1
      obtain ⟨group, hgroup, ha⟩ := mem_flatten.mp ha
      obtain ⟨i, hi⟩ := getElem?_of_mem hgroup
      obtain ⟨page, -, hpage⟩ := h.page_at hi
      rw [((hpage.wellFormed a ha).unique huniq).2] at hnext
      cases hnext

theorem run_flatten_eq_nil {groups : List (List Entry)} :
    marks.run key groups.flatten = [] ↔ ∀ group ∈ groups, marks.run key group = [] := by
  simp only [Marks.run_eq_nil, mem_flatten]
  exact ⟨fun h group hgroup e he => h e ⟨group, hgroup, he⟩,
    fun h e ⟨group, hgroup, he⟩ => h group hgroup e he⟩

/-- In a unique index a key between the bounds of a page has its entry there, if it has one. -/
theorem Stored.run_between (h : Stored crc binding groups pages) (huniq : binding.unique = true)
    (hi : groups[i]? = some group) (hpage : PageOf crc binding group page)
    (hfirst : hpage.bounds.1 ≤ key) (hlast : key ≤ hpage.bounds.2) :
    marks.run key groups.flatten = marks.run key group ∧
      ∀ l ∈ groups, marks.run key l ≠ [] → l = group := by
  obtain ⟨-, ⟨first, hfirstMem, hfirstKey⟩, last, hlastMem, hlastKey⟩ := bounds_spec hpage
  obtain ⟨hbefore, hafter⟩ := h.around hi
  have hlength := h.run_unique huniq key
  rw [flatten_split hi, Marks.run_append, Marks.run_append, length_append, length_append]
    at hlength
  have hone : ∀ e ∈ group, e.key.bytes = key → 0 < (marks.run key group).length := fun e he hkey =>
    length_pos_of_mem (Marks.mem_run.mpr ⟨he, hkey⟩)
  -- an entry of the key elsewhere would be a second one
  have hbeforeNil : marks.run key (groups.take i).flatten = [] := by
    refine Marks.run_eq_nil.mpr fun e he hkey => ?_
    have hsecond := length_pos_of_mem (Marks.mem_run.mpr ⟨he, hkey⟩)
    have hkey' : key ≤ first.key.bytes := hkey ▸ hbefore e he first hfirstMem
    have := hone first hfirstMem (le_antisymm (hfirstKey.trans_le hfirst) hkey')
    omega
  have hafterNil : marks.run key (groups.drop (i + 1)).flatten = [] := by
    refine Marks.run_eq_nil.mpr fun e he hkey => ?_
    have hsecond := length_pos_of_mem (Marks.mem_run.mpr ⟨he, hkey⟩)
    have hkey' : last.key.bytes ≤ key := hkey ▸ hafter last hlastMem e he
    have := hone last hlastMem (le_antisymm hkey' (hlast.trans_eq hlastKey.symm))
    omega
  refine ⟨?_, fun l hl hrun => ?_⟩
  · rw [flatten_split hi, Marks.run_append, Marks.run_append, hbeforeNil, hafterNil,
      nil_append, append_nil]
  · obtain ⟨hlt, hget⟩ := List.getElem?_eq_some_iff.mp hi
    rw [← take_append_drop i groups, drop_eq_getElem_cons hlt, hget] at hl
    rcases mem_append.mp hl with hl | hl
    · exact absurd (run_flatten_eq_nil.mp hbeforeNil l hl) hrun
    · rcases mem_cons.mp hl with rfl | hl
      · rfl
      · exact absurd (run_flatten_eq_nil.mp hafterNil l hl) hrun

theorem uniqueAnswer_eq (hsource : binding.sourceRowCount ≤ 2 ^ 64)
    (h : PageOf crc binding group page) (huniq : binding.unique = true)
    (hrun : (marks.run key group).length ≤ 1) :
    uniqueAnswer binding page key = .ok (rowsOf (marks.run key group)) := by
  simp only [uniqueAnswer, h.lookupVerified_eq hsource, ok_bind, length_map,
    if_neg (not_lt.mpr hrun)]
  cases hlist : marks.run key group with
  | nil => rfl
  | cons e run =>
    cases run with
    | cons e' run =>
      rw [hlist] at hrun
      simp at hrun
    | nil =>
      have he : e ∈ group := (Marks.mem_run.mp (hlist ▸ mem_singleton_self e)).1
      have hstate := ((h.wellFormed e he).unique huniq).2
      simp [rowsOf, hstate, PostingFragmentState.complete]

/-! ## The search over the pages -/

/-- The groups before `low` are below the key, those from `high` on reach it. -/
structure Between (groups : List (List Entry)) (key : Bytes) (low high : ℕ) : Prop where
  below : ∀ i group, groups[i]? = some group → i < low → ∀ e ∈ group, e.key.bytes < key
  reach : ∀ i group, groups[i]? = some group → high ≤ i → ∃ e ∈ group, key ≤ e.key.bytes

variable {low high m : ℕ}

theorem Between.right (hb : Between groups key low high) (h : Stored crc binding groups pages)
    (hm : groups[m]? = some group) {e : Entry} (he : e ∈ group)
    (hlast : ∀ e ∈ group, e.key.bytes < key) : Between groups key (m + 1) high where
  below i l hi hlt x hx := by
    rcases Nat.lt_succ_iff_lt_or_eq.mp hlt with hlt | rfl
    · exact lt_of_le_of_lt (h.le_of_lt hlt hi hm x hx e he) (hlast e he)
    · cases hm.symm.trans hi
      exact hlast x hx
  reach := hb.reach

theorem Between.left (hb : Between groups key low high) (h : Stored crc binding groups pages)
    (hm : groups[m]? = some group) {e : Entry} (he : e ∈ group) (hkey : key ≤ e.key.bytes) :
    Between groups key low m where
  below := hb.below
  reach i l hi hle := by
    rcases lt_or_eq_of_le hle with hlt | rfl
    · obtain ⟨page, -, hpage⟩ := h.page_at hi
      obtain ⟨x, hx⟩ := exists_mem_of_ne_nil l hpage.group_ne
      exact ⟨x, hx, hkey.trans (h.le_of_lt hlt hm hi e he x hx)⟩
    · cases hm.symm.trans hi
      exact ⟨e, he, hkey⟩

/-- What the search over the pages ends with. -/
def RouteOutcome (digest : Bytes → δ) (json : Json) (pageEntrySize : ℕ)
    (binding : ExactBinding) (groups : List (List Entry)) (pages : List IndexPageSpec) (key : Bytes)
    (r : FormatResult Routed × ValidatedExactPages δ) : Prop :=
  Sound digest json pageEntrySize binding groups pages r.2 ∧
    match r.1 with
    | .error _ => ∃ group ∈ groups, ¬ ExactPage.Accepted json pageEntrySize binding group
    | .ok (.answer rows) => rows = answerOf key groups.flatten ∧
      ∀ group ∈ groups, marks.run key group ≠ [] →
        ExactPage.Accepted json pageEntrySize binding group
    | .ok (.page low candidate) => low ≤ groups.length ∧ Between groups key low low ∧
      ∀ c ∈ candidate, ∀ group, groups[c]? = some group →
        ExactPage.Accepted json pageEntrySize binding group

/-- **The search over the pages** ends at the first page that reaches the key, or with the answer.
-/
theorem routePages_spec (h : Stored crc binding groups pages)
    (hsound : Sound digest json pageEntrySize binding groups pages memo) {fuel : ℕ}
    (candidate : Option ℕ) (hfuel : high - low ≤ fuel) (hlow : low ≤ high)
    (hhigh : high ≤ groups.length) (hb : Between groups key low high)
    (hcand : ∀ c ∈ candidate, ∀ group, groups[c]? = some group →
      ExactPage.Accepted json pageEntrySize binding group) :
    RouteOutcome digest json pageEntrySize binding groups pages key
      (routePages crc digest json pageEntrySize binding pages key fuel low high candidate
        memo) := by
  induction fuel generalizing low high candidate memo with
  | zero =>
    obtain rfl : low = high := by omega
    exact ⟨hsound, hhigh, hb, hcand⟩
  | succ fuel ih =>
    rw [routePages]
    by_cases hlt : low < high
    · have hmiddle : low + (high - low) / 2 < groups.length := by omega
      have hm : groups[low + (high - low) / 2]? = some groups[low + (high - low) / 2] :=
        getElem?_eq_getElem hmiddle
      generalize groups[low + (high - low) / 2] = group at hm
      obtain ⟨page, hpageAt, hpage⟩ := h.page_at hm
      obtain ⟨hwithin, -, last, hlastMem, hlastKey⟩ := bounds_spec hpage
      obtain ⟨hsound', hout⟩ := pageBounds_spec h.source hsound hpage hm hpageAt
      simp only [if_pos hlt, hpageAt, if_neg hpage.itemCount_pos]
      generalize pageBounds crc digest json pageEntrySize binding (low + (high - low) / 2) page
        memo = checked at hsound' hout
      obtain ⟨result, memo'⟩ := checked
      rcases hout with ⟨hacc, rfl⟩ | ⟨href, e, rfl⟩
      · simp only
        have hcmpFirst := compareBytes_compares hpage.bounds.1 key
        have hcmpLast := compareBytes_compares key hpage.bounds.2
        have hcompareLow := compareBytes_compares hpage.bounds.2 key
        split_ifs with hfast hbelow
        · obtain ⟨huniq, hfirst, hlast⟩ := hfast
          rw [ne_eq, hcmpFirst.eq_gt, not_lt] at hfirst
          rw [ne_eq, hcmpLast.eq_gt, not_lt] at hlast
          obtain ⟨hrun, hothers⟩ := h.run_between huniq hm hpage hfirst hlast
          have hone := h.run_unique huniq key
          rw [hrun] at hone
          rw [uniqueAnswer_eq h.source hpage huniq hone]
          refine ⟨hsound', by rw [answerOf, hrun], fun l hl hne => ?_⟩
          exact hothers l hl hne ▸ hacc
        · rw [hcompareLow.eq_lt] at hbelow
          exact ih hsound' candidate (by omega) (by omega) hhigh
            (hb.right h hm hlastMem fun e he => lt_of_le_of_lt (hwithin e he).2 hbelow) hcand
        · rw [hcompareLow.eq_lt, not_lt, ← hlastKey] at hbelow
          refine ih hsound' _ (by omega) (by omega) (by omega) (hb.left h hm hlastMem hbelow)
            fun c hc l hl => ?_
          cases hc
          cases hm.symm.trans hl
          exact hacc
      · exact ⟨hsound', group, mem_of_getElem? hm, href⟩
    · obtain rfl : low = high := by omega
      rw [if_neg hlt]
      exact ⟨hsound, hhigh, hb, hcand⟩

/-! ## Collecting the fragments -/

/-- What is kept after the fragments. -/
def collectedOf (done : List Entry) : Collected :=
  ⟨done.flatMap (·.rows), (done.getLast?.map (·.state)).getD .complete,
    done.getLast?.bind (·.rows.getLast?), !done.isEmpty⟩

theorem collectedOf_append_singleton (done : List Entry) (e : Entry) :
    collectedOf (done ++ [e]) =
      ⟨(collectedOf done).output ++ e.rows, e.state, e.rows.getLast?, true⟩ := by
  simp [collectedOf]

variable {done : List Entry}

/-- **Fragments that continue each other are joined.** -/
theorem joinFragments_eq {fragments : List Entry}
    (hchain : (done ++ fragments).IsChain marks.Continues)
    (hstart : ∀ e ∈ (done ++ fragments).head?, e.state.hasPrevious = false) :
    joinFragments (collectedOf done) (fragments.map fun e => (e.rows, e.state)) =
      .ok (collectedOf (done ++ fragments)) := by
  induction fragments generalizing done with
  | nil =>
    rw [append_nil]
    rfl
  | cons e fragments ih =>
    have happ : done ++ e :: fragments = (done ++ [e]) ++ fragments := by simp
    rw [happ] at hchain hstart
    have hmore := ih hchain hstart
    rw [← happ] at hchain hstart
    rw [collectedOf_append_singleton, ← happ] at hmore
    rw [map_cons, joinFragments]
    rcases eq_nil_or_concat' done with rfl | ⟨before, last, rfl⟩
    · have hfirst : e.state.hasPrevious = false := hstart e rfl
      simp only [collectedOf, isEmpty_nil, Bool.not_true, Bool.not_false, if_true, hfirst,
        false_eq_true, if_false]
      exact hmore
    · have hcont : marks.Continues last e := by
        rw [append_assoc] at hchain
        exact (isChain_cons.mp (isChain_append.mp hchain).2.1).1 e rfl
      obtain ⟨hnext, hprev, hjoins⟩ := hcont
      have hrows : ¬ ((last.rows.getLast?).any (e.rows.headD 0 ≤ ·)) = true := by
        rw [Option.any_eq_true]
        rintro ⟨row, hrow, hle⟩
        exact absurd (hjoins row hrow) (not_lt.mpr (of_decide_eq_true hle))
      have hnext : last.state.hasNext = true := hnext
      have hprev : e.state.hasPrevious = true := hprev
      rw [collectedOf_append_singleton] at hmore ⊢
      simp only [Bool.not_true, false_eq_true, if_false, hnext, hprev, Bool.or_self, if_neg hrows]
      exact hmore

/-- What a lookup ends with. -/
def LookupOutcome (digest : Bytes → δ) (json : Json) (pageEntrySize : ℕ)
    (binding : ExactBinding) (groups : List (List Entry)) (pages : List IndexPageSpec) (key : Bytes)
    (r : FormatResult (Option (List ℕ)) × ValidatedExactPages δ) : Prop :=
  Sound digest json pageEntrySize binding groups pages r.2 ∧
    match r.1 with
    | .error _ => ∃ group ∈ groups, ¬ ExactPage.Accepted json pageEntrySize binding group
    | .ok rows => rows = answerOf key groups.flatten ∧
      ∀ group ∈ groups, marks.run key group ≠ [] →
        ExactPage.Accepted json pageEntrySize binding group

/-- The fragments that were collected are continued, and those that are left complete the run. -/
structure Collecting (groups : List (List Entry)) (key : Bytes) (place : ℕ) (done : List Entry) :
    Prop where
  run_eq : marks.run key groups.flatten = done ++ marks.run key (groups.drop place).flatten
  continued : ∀ e ∈ done.getLast?, e.state.hasNext = true

variable {place : ℕ}

/-- If nothing is left, nothing was collected. -/
theorem Collecting.done_nil (h : Stored crc binding groups pages)
    (hc : Collecting groups key place done)
    (hleft : marks.run key (groups.drop place).flatten = []) :
    done = [] ∧ answerOf key groups.flatten = none := by
  have hrun := hc.run_eq
  rw [hleft, append_nil] at hrun
  have hnil : done = [] := by
    rcases eq_nil_or_concat' done with hnil | ⟨before, last, rfl⟩
    · exact hnil
    · have hlast := Marks.run_last (k := key) h.chain h.ends last (by rw [hrun]; simp)
      have hnext := hc.continued last (by simp)
      exact absurd (hlast.symm.trans hnext) (by simp)
  exact ⟨hnil, by rw [answerOf, hrun, hnil]; rfl⟩

theorem Collecting.finish (h : Stored crc binding groups pages)
    (hc : Collecting groups key place done)
    (hleft : marks.run key (groups.drop place).flatten = []) :
    finishCollect (collectedOf done) = .ok (answerOf key groups.flatten) := by
  obtain ⟨rfl, hanswer⟩ := hc.done_nil h hleft
  rw [hanswer]
  rfl

/-- The pages with entries of the key are accepted. -/
def RunAccepted (json : Json) (pageEntrySize : ℕ) (binding : ExactBinding)
    (key : Bytes) (groups : List (List Entry)) : Prop :=
  ∀ group ∈ groups, marks.run key group ≠ [] → ExactPage.Accepted json pageEntrySize binding group

/-- If nothing is left, the pages with entries of the key are among those read. -/
theorem accepted_of_left (hbefore : RunAccepted json pageEntrySize binding key (groups.take place))
    (hleft : marks.run key (groups.drop place).flatten = []) :
    RunAccepted json pageEntrySize binding key groups := by
  rw [← take_append_drop place groups]
  refine forall_mem_append.mpr ⟨hbefore, fun group hgroup hne => ?_⟩
  exact absurd (run_flatten_eq_nil.mp hleft group hgroup) hne

theorem Stored.join (h : Stored crc binding groups pages) {more : List Entry}
    (hrun : marks.run key groups.flatten = done ++ marks.run key group ++ more)
    (hne : marks.run key group ≠ []) :
    joinFragments (collectedOf done) ((marks.run key group).map fun e => (e.rows, e.state)) =
        .ok (collectedOf (done ++ marks.run key group)) ∧
      ((collectedOf (done ++ marks.run key group)).previousState.hasNext = false ↔ more = []) ∧
      ∀ e ∈ (done ++ marks.run key group).getLast?,
        e.state = (collectedOf (done ++ marks.run key group)).previousState := by
  have hchain := Marks.run_chain (k := key) h.chain
  have hstart := Marks.run_head (k := key) h.chain fun e he _ => h.starts e he
  have hend := Marks.run_last (k := key) h.chain h.ends
  rw [hrun] at hchain hstart hend
  have hne' : done ++ marks.run key group ≠ [] := by simp [hne]
  obtain ⟨last, hlast⟩ : ∃ last, (done ++ marks.run key group).getLast? = some last :=
    ⟨_, getLast?_eq_some_getLast hne'⟩
  have hstate : (collectedOf (done ++ marks.run key group)).previousState = last.state := by
    simp [collectedOf, hlast]
  refine ⟨joinFragments_eq (isChain_append.mp hchain).1 ?_, ?_, ?_⟩
  · rwa [head?_append_of_ne_nil _ hne'] at hstart
  · rw [hstate]
    constructor
    · intro hnext
      by_contra hmore
      have := Marks.hasNext_of_append hchain hmore last hlast
      exact absurd (hnext.symm.trans this) (by simp)
    · rintro rfl
      rw [append_nil] at hend
      exact hend last hlast
  · intro e he
    cases hlast.symm.trans he
    exact hstate.symm

section

variable (hi : groups[place]? = some group)

include hi

theorem left_cons : marks.run key (groups.drop place).flatten =
    marks.run key group ++ marks.run key (groups.drop (place + 1)).flatten := by
  obtain ⟨hlt, rfl⟩ := List.getElem?_eq_some_iff.mp hi
  rw [drop_eq_getElem_cons hlt, flatten_cons, Marks.run_append]

variable (hpage : PageOf crc binding group page)

include hpage

/-- A page below the key is passed. -/
theorem Collecting.pass (hc : Collecting groups key place done) (hhigh : hpage.bounds.2 < key) :
    Collecting groups key (place + 1) done := by
  have hnil : marks.run key group = [] := Marks.run_eq_nil.mpr fun e he =>
    (lt_of_le_of_lt ((bounds_spec hpage).1 e he).2 hhigh).ne
  have hrun := hc.run_eq
  rw [left_cons hi, hnil, nil_append] at hrun
  exact ⟨hrun, hc.continued⟩

variable (h : Stored crc binding groups pages)

include h

/-- A key that is not above a page and not in it is in no later one. -/
theorem left_nil (hnil : marks.run key group = []) (hle : key ≤ hpage.bounds.2) :
    marks.run key (groups.drop place).flatten = [] := by
  obtain ⟨hwithin, -, last, hlast, hkey⟩ := bounds_spec hpage
  rw [left_cons hi, hnil, nil_append]
  refine Marks.run_eq_nil.mpr fun e he heq => ?_
  have hge : last.key.bytes ≤ key := heq ▸ (h.around hi).2 last hlast e he
  exact Marks.run_eq_nil.mp hnil last hlast (le_antisymm hge (hle.trans_eq hkey.symm))

theorem left_nil_of_lt (hlow : key < hpage.bounds.1) :
    marks.run key (groups.drop place).flatten = [] := by
  obtain ⟨hwithin, -, last, hlast, hkey⟩ := bounds_spec hpage
  refine left_nil hi hpage h (Marks.run_eq_nil.mpr fun e he => ?_) ?_
  · exact (lt_of_lt_of_le hlow (hwithin e he).1).ne'
  · exact hkey ▸ (lt_of_lt_of_le hlow (hwithin last hlast).1).le

/-- **The fragments in a page are joined.** Either they are the last ones, or the key is the last
one in the page and the search goes on behind it. -/
theorem Collecting.join (hc : Collecting groups key place done) (hne : marks.run key group ≠ [])
    (hle : key ≤ hpage.bounds.2) :
    joinFragments (collectedOf done) ((marks.run key group).map fun e => (e.rows, e.state)) =
        .ok (collectedOf (done ++ marks.run key group)) ∧
      if (collectedOf (done ++ marks.run key group)).previousState.hasNext then
        hpage.bounds.2 = key ∧ Collecting groups key (place + 1) (done ++ marks.run key group)
      else marks.run key (groups.drop (place + 1)).flatten = [] ∧
        marks.run key groups.flatten = done ++ marks.run key group := by
  have hrun := hc.run_eq
  rw [left_cons hi, ← append_assoc] at hrun
  obtain ⟨hjoin, hmore, hstate⟩ := h.join hrun hne
  refine ⟨hjoin, ?_⟩
  split_ifs with hnext
  · refine ⟨?_, hrun, fun e he => by rw [hstate e he, hnext]⟩
    have hsome : marks.run key (groups.drop (place + 1)).flatten ≠ [] := fun hnone =>
      absurd (hnext.symm.trans (hmore.mpr hnone)) (by simp)
    obtain ⟨b, hb⟩ := exists_mem_of_ne_nil _ hsome
    obtain ⟨hbMem, hbKey⟩ := Marks.mem_run.mp hb
    obtain ⟨-, -, last, hlast, hkey⟩ := bounds_spec hpage
    have hge : last.key.bytes ≤ key := hbKey ▸ (h.around hi).2 last hlast b hbMem
    exact le_antisymm (hkey ▸ hge) hle
  · have hnone := hmore.mp (Bool.not_eq_true _ ▸ hnext)
    rw [hnone, append_nil] at hrun
    exact ⟨hnone, hrun⟩

end

/-- **The pages from a place on**: the fragments of the key are collected from them. -/
theorem collectPages_spec (h : Stored crc binding groups pages)
    (hsound : Sound digest json pageEntrySize binding groups pages memo) {count : ℕ}
    (hcount : place + count = groups.length) (hc : Collecting groups key place done)
    {candidate : Option ℕ} (hcand : ∀ c ∈ candidate, ∀ group, groups[c]? = some group →
      ExactPage.Accepted json pageEntrySize binding group)
    (hbefore : RunAccepted json pageEntrySize binding key (groups.take place)) :
    LookupOutcome digest json pageEntrySize binding groups pages key
      (collectPages crc digest json pageEntrySize binding pages key count place candidate
        (collectedOf done) memo) := by
  induction count generalizing place done candidate memo with
  | zero =>
    have hleft : marks.run key (groups.drop place).flatten = [] := by
      rw [drop_eq_nil_of_le (by omega)]
      rfl
    rw [collectPages, hc.finish h hleft]
    exact ⟨hsound, rfl, accepted_of_left hbefore hleft⟩
  | succ count ih =>
    obtain ⟨group, hi⟩ : ∃ group, groups[place]? = some group :=
      ⟨_, getElem?_eq_getElem (by omega)⟩
    obtain ⟨page, hpageAt, hpage⟩ := h.page_at hi
    have hreused : (candidate == some place) = true →
        ExactPage.Accepted json pageEntrySize binding group := by
      intro hreused
      rw [beq_iff_eq] at hreused
      exact hcand place hreused group hi
    obtain ⟨hsound', hout⟩ := pageFragments_spec key h.source hsound hpage hi hpageAt hreused
    simp only [collectPages, hpageAt, if_neg hpage.itemCount_pos]
    generalize pageFragments crc digest json pageEntrySize binding key place page
      (candidate == some place) memo = read at hsound' hout
    obtain ⟨result, memo'⟩ := read
    rcases hout with ⟨hacc, rfl⟩ | ⟨href, e, rfl⟩
    · have hbefore' : RunAccepted json pageEntrySize binding key (groups.take (place + 1)) := by
        rw [take_add_one, hi]
        exact forall_mem_append.mpr ⟨hbefore, forall_mem_singleton.mpr fun _ => hacc⟩
      simp only [(compareBytes_compares key _).eq_lt, (compareBytes_compares key _).eq_gt]
      by_cases hlow : key < hpage.bounds.1
      · have hleft := left_nil_of_lt hi hpage h hlow
        rw [if_pos hlow, hc.finish h hleft]
        exact ⟨hsound', rfl, accepted_of_left hbefore hleft⟩
      rw [if_neg hlow]
      by_cases hhigh : hpage.bounds.2 < key
      · rw [if_pos hhigh]
        exact ih hsound' (by omega) (hc.pass hi hpage hhigh) (by rintro _ ⟨⟩) hbefore'
      simp only [if_neg hhigh, isEmpty_map, List.isEmpty_iff]
      by_cases hnil : marks.run key group = []
      · have hleft := left_nil hi hpage h hnil (not_lt.mp hhigh)
        obtain ⟨rfl, hanswer⟩ := hc.done_nil h hleft
        rw [if_pos hnil]
        exact ⟨hsound', hanswer.symm, accepted_of_left hbefore hleft⟩
      · obtain ⟨hjoin, hnext⟩ := hc.join hi hpage h hnil (not_lt.mp hhigh)
        rw [if_neg hnil, hjoin]
        dsimp only
        cases hlast : (collectedOf (done ++ marks.run key group)).previousState.hasNext with
        | false =>
          rw [hlast] at hnext
          obtain ⟨hnone, hrun⟩ := hnext
          refine ⟨hsound', ?_, accepted_of_left hbefore' hnone⟩
          rw [answerOf, hrun, rowsOf, if_neg (by simpa using fun _ => hnil)]
          rfl
        | true =>
          rw [hlast] at hnext
          obtain ⟨hkey, hc'⟩ := hnext
          simp only [hkey, Bool.not_true, false_eq_true, if_false, ne_eq, not_true_eq_false]
          exact ih hsound' (by omega) hc' (by rintro _ ⟨⟩) hbefore'
    · exact ⟨hsound', group, mem_of_getElem? hi, href⟩

/-- **A lookup** gives the rows of its key, or a page is not accepted. -/
theorem lookupKey_spec (h : Stored crc binding groups pages) (hne : groups ≠ [])
    (hsound : Sound digest json pageEntrySize binding groups pages memo) (key : Bytes) :
    LookupOutcome digest json pageEntrySize binding groups pages key
      (lookupKey crc digest json pageEntrySize binding pages key memo) := by
  have hpages : ¬ pages.isEmpty = true := by
    have hlen := h.length_eq
    have hpos := length_pos_of_ne_nil hne
    rw [isEmpty_iff_length_eq_zero]
    omega
  have hstart : Between groups key 0 groups.length := by
    refine ⟨fun i group _ hlt => absurd hlt (not_lt_zero i), fun i group hi hle => ?_⟩
    cases (getElem?_eq_none hle).symm.trans hi
  obtain ⟨hsound', hroute⟩ := routePages_spec h hsound none
    (le_of_eq (Nat.sub_zero groups.length)) (zero_le _) (le_refl _) hstart nofun
  unfold lookupKey
  rw [if_neg hpages, ← h.length_eq]
  generalize routePages crc digest json pageEntrySize binding pages key groups.length 0
    groups.length none memo = routed at hsound' hroute
  obtain ⟨result, memo'⟩ := routed
  cases result with
  | error e => exact ⟨hsound', hroute⟩
  | ok r =>
    cases r with
    | answer rows => exact ⟨hsound', hroute⟩
    | page low candidate =>
      obtain ⟨hlow, hb, hcand⟩ := hroute
      have hbelow : ∀ group ∈ groups.take low, marks.run key group = [] := by
        intro group hgroup
        obtain ⟨i, hi⟩ := getElem?_of_mem hgroup
        rw [getElem?_take] at hi
        split_ifs at hi with hlt
        exact Marks.run_eq_nil.mpr fun e he => ne_of_lt (hb.below i group hi hlt e he)
      have hrun : marks.run key groups.flatten = marks.run key (groups.drop low).flatten := by
        conv_lhs => rw [← take_append_drop low groups, flatten_append, Marks.run_append]
        rw [run_flatten_eq_nil.mpr hbelow, nil_append]
      have hc : Collecting groups key low [] := ⟨hrun, nofun⟩
      exact collectPages_spec h hsound' (Nat.add_sub_cancel' hlow) hc hcand
        fun group hgroup hne => absurd (hbelow group hgroup) hne

end

end RadixDb.ExactIndex
