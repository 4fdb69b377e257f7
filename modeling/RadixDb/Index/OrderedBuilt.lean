import RadixDb.Index.OrderedAnswers

/-!
# An ordered index from entries to answers

The pages that are written for entries with canonical keys hold the fragments of the entries, in
order (`Stored`). What their decoded entries select by key is what the fragments select by the keys
as they are read (`selected_decoded`), and that is what the entries select, if all keys are read at
their places (`selected_cut`).

**Every scan gives the rows of the entries within its bounds exactly if no key has an empty value or
an instant in a leap second and no page exceeds the reader's limit on memory** (`scans_answer_iff`).
Keys with an empty text or byte string are refused by the reader, and with them the page. An instant
in a leap second is read as an instant in the next second, so its key is not where the writer has
put it: if it passes its neighbour, the page is refused, and if not, there is a bound between the
two places, which tells the scan from what is asked for.
-/

namespace RadixDb.OrderedScan

open List Nat IndexPage OrderedPage

/-! ## From the writer to the pages -/

/-- Entries with canonical keys. Row numbers are 64-bit numbers. -/
structure Given (json : Json) (binding : OrderedBinding)
    (entries : List (PostingEntry OrderedIndexKey)) : Prop where
  source : binding.sourceRowCount ≤ 2 ^ 64
  canonical : ∀ e ∈ entries, Canonical json binding.columns e.key

/-- Pages that hold groups of entries, which are in order. -/
structure Stored (crc : Crc) (json : Json) (binding : OrderedBinding)
    (groups : List (List Entry)) (pages : List IndexPageSpec) : Prop where
  pages_of : Forall₂ (PageOf crc json binding) groups pages
  groups_ne : groups ≠ []
  group_ne : ∀ group ∈ groups, group ≠ []
  chain : groups.flatten.IsChain (marks binding.columns).Next
  starts : ∀ e ∈ groups.flatten.head?, e.state.hasPrevious = false
  ends : ∀ e ∈ groups.flatten.getLast?, e.state.hasNext = false
  source : binding.sourceRowCount ≤ 2 ^ 64

/-- The rows of the entries that are kept, before they are cut into fragments. -/
def rowsOf (keep : OrderedIndexKey → Bool) (entries : List (PostingEntry OrderedIndexKey)) :
    List ℕ :=
  (entries.filter fun e => keep e.key).flatMap (·.rowOrdinals)

section

variable {crc : Crc} {std : LowerExp} {json : Json}
  {binding : OrderedBinding} {codec : IndexPageCodec} {limits : PageBuildLimits}
  {sizes : DecodeSizes} {entries : List (PostingEntry OrderedIndexKey)} {groups : List (List Entry)}
  {pages : List IndexPageSpec} {unique : Bool} {a b : Entry}

theorem next_of_follows (ha : Canonical json binding.columns a.key)
    (hb : Canonical json binding.columns b.key)
    (h : Follows (orderedWriter crc std codec binding.columns unique) a b) :
    (marks binding.columns).Next a b := by
  have hcmp := compareOrderedKeys_eq std (ha.admitted binding.ordered_columns)
    (hb.admitted binding.ordered_columns) binding.ordered_columns
  rcases h with ⟨hlt, hstates⟩ | ⟨heq, hstates⟩
  · exact .inl ⟨placeCmp_eq_lt.mp (Except.ok.inj (hcmp.symm.trans hlt)), hstates⟩
  · exact .inr ⟨placeCmp_eq_eq.mp (Except.ok.inj (hcmp.symm.trans heq)), hstates⟩

theorem encode_eq (unique : Bool) (group : List Entry) :
    (orderedWriter crc std codec binding.columns unique).encode
        (group.map (orderedWriter crc std codec binding.columns unique).prepareEntry)
        (keyBytesOf (orderedWriter crc std codec binding.columns unique) group)
        (postingBytesOf group) =
      OrderedPage.encodePage crc codec (group.map prepareOf)
        (keyArea (group.map slotOf)).length (postingArea (group.map slotOf)).length := by
  obtain ⟨hkeys, hposts⟩ := areas_eq (orderedWriter crc std codec binding.columns unique) slotOf
    (fun _ => rfl) (fun _ => rfl) group
  rw [hkeys, hposts]
  rfl

/-- **The pages of the writer** are stored pages. -/
theorem stored_of_built (hg : Given json binding entries) (hne : groups ≠ [])
    (h : Built (orderedWriter crc std codec binding.columns binding.unique) binding.sourceRowCount
      limits entries groups pages) : Stored crc json binding groups pages := by
  have hcanon : ∀ e ∈ groups.flatten, Canonical json binding.columns e.key := by
    intro e he
    obtain ⟨entry, hentry, hkey⟩ := (h.cut.mem_keys _).mp ⟨e, he, rfl⟩
    exact hkey ▸ hg.canonical entry hentry
  have hchain : groups.flatten.IsChain (marks binding.columns).Next :=
    IsChain.imp_of_mem_imp
      (fun a b ha hb hab => next_of_follows (hcanon a ha) (hcanon b hb) hab)
      h.in_order.chain
  have hwf : ∀ e ∈ groups.flatten, WellFormed json binding e := by
    intro e he
    obtain ⟨-, hrows, hafter, howns⟩ := h.in_order.entries_ok e he
    refine ⟨hcanon e he, hrows, hafter, fun huniq hnull => howns ?_⟩
    show (binding.unique && !e.key.hasNullComponent) = true
    rw [huniq, hnull]
    rfl
  have hnil : [] ∉ groups := fun hmem => h.pages_ok.groups_ne [] hmem rfl
  refine ⟨?_, hne, h.pages_ok.groups_ne, hchain, h.in_order.starts, h.ends, hg.source⟩
  refine ((forall₂_and_left _ _).mpr ⟨fun _ hgroup => hgroup, h.pages_ok.encoded⟩).imp
    fun group page ⟨hgroup, henc⟩ => ⟨fun e he => ?_, ?_, codec, ?_⟩
  · exact hwf e (mem_flatten.mpr ⟨group, hgroup, he⟩)
  · exact ((isChain_flatten hnil).mp hchain).1 group hgroup
  · rwa [← encode_eq binding.unique]

theorem built_of_visit
    (hbuild : visitOrderedIndexPagesFromSorted crc std entries binding.columns binding.unique
      binding.sourceRowCount codec limits = .ok pages) :
    ∃ groups, groups ≠ [] ∧ Built (orderedWriter crc std codec binding.columns binding.unique)
      binding.sourceRowCount limits entries groups pages := by
  unfold visitOrderedIndexPagesFromSorted at hbuild
  simp only [binding.ordered, ok_bind] at hbuild
  split_ifs at hbuild with hsource
  obtain ⟨w, hadd, hbuild⟩ := ok_of_bind hbuild
  split_ifs at hbuild with hcount
  exact finish_spec hadd hcount hbuild

/-- **Fragments select what their entries select.** -/
theorem selected_cut {all : List Entry} (keep : OrderedIndexKey → Bool)
    (h : Cut (orderedWriter crc std codec binding.columns unique) limits entries all) :
    selected keep all = rowsOf keep entries := by
  induction h with
  | nil => rfl
  | cons hne hcut hrest ih =>
    rename_i entry entries fragments rest
    have hmine : selected keep (fragments.map (fragmentEntry entry.key)) =
        if keep entry.key then entry.rowOrdinals else [] := by
      have htest : (fun e : Entry => keep e.key) ∘ fragmentEntry entry.key =
          fun _ => keep entry.key := rfl
      rw [selected, filter_map, flatMap_map, htest]
      cases keep entry.key with
      | true =>
        rw [filter_true, if_pos rfl, ← hcut.partitions.rows]
        rfl
      | false =>
        rw [filter_false]
        rfl
    have hsplit : rowsOf keep (entry :: entries) =
        (if keep entry.key then entry.rowOrdinals else []) ++ rowsOf keep entries := by
      cases hkeep : keep entry.key <;> simp [rowsOf, hkeep]
    rw [selected_append, hmine, ih, hsplit]

/-! ## From the pages to decoded entries -/

/-- The decoded entries of all pages. -/
def decodedPages (columns : List IndexKeyColumn) (groups : List (List Entry)) : List (List Entry) :=
  groups.map fun group => merged (group.map (readBack columns))

/-- **All pages are decoded** exactly if all keys can be read, the entries of each page are in order
as they are read, and each page is within the limit on memory. -/
theorem decode_all_iff (hpages : Forall₂ (PageOf crc json binding) groups pages)
    (hsource : binding.sourceRowCount ≤ 2 ^ 64) (decoded : List (List Entry)) :
    Forall₂ (fun page d =>
        decodeOrderedIndexPage crc std json sizes binding page page.logicalBytes = .ok d)
        pages decoded ↔
      ((∀ e ∈ groups.flatten, Readable e) ∧
        (∀ group ∈ groups, (group.map (readBack binding.columns)).IsChain
          (marks binding.columns).Next) ∧
        ∀ page ∈ pages, WithinMemory sizes binding page) ∧
      decoded = decodedPages binding.columns groups := by
  induction hpages generalizing decoded with
  | nil =>
    rw [forall₂_nil_left_iff]
    exact ⟨fun h => ⟨⟨forall_mem_nil _, forall_mem_nil _, forall_mem_nil _⟩, h⟩,
      fun h => h.2⟩
  | cons hpage hpages ih =>
    rename_i group page groups pages
    rw [forall₂_cons_left_iff]
    constructor
    · rintro ⟨d, rest, hd, hrest, rfl⟩
      obtain ⟨hread, hchain, hmem, rfl⟩ := (hpage.decode_iff hsource d).mp hd
      obtain ⟨⟨hreads, hchains, hmems⟩, rfl⟩ := (ih rest).mp hrest
      refine ⟨⟨fun e he => ?_, forall_mem_cons.mpr ⟨hchain, hchains⟩,
        forall_mem_cons.mpr ⟨hmem, hmems⟩⟩, rfl⟩
      rcases mem_append.mp (flatten_cons ▸ he) with he | he
      · exact hread e he
      · exact hreads e he
    · rintro ⟨⟨hreads, hchains, hmems⟩, rfl⟩
      obtain ⟨hchain, hchains⟩ := forall_mem_cons.mp hchains
      obtain ⟨hmem, hmems⟩ := forall_mem_cons.mp hmems
      refine ⟨_, decodedPages binding.columns groups, (hpage.decode_iff hsource _).mpr
        ⟨fun e he => hreads e (mem_append_left _ he), hchain, hmem, rfl⟩,
        (ih _).mpr ⟨⟨fun e he => hreads e (mem_append_right _ he), hchains, hmems⟩, rfl⟩,
        rfl⟩

/-- Stored entries that can be read, page by page in order. -/
structure InOrderAsRead (binding : OrderedBinding) (groups : List (List Entry)) : Prop where
  readable : ∀ e ∈ groups.flatten, Readable e
  chains : ∀ group ∈ groups, (group.map (readBack binding.columns)).IsChain
    (marks binding.columns).Next

/-- No value is an instant in a leap second. -/
def NoLeap (groups : List (List Entry)) : Prop :=
  ∀ e ∈ groups.flatten, ∀ v ∈ e.key.values, v.inLeapSecond = false

namespace Stored

section

variable (h : Stored crc json binding groups pages)

include h

theorem wellFormed : ∀ e ∈ groups.flatten, WellFormed json binding e := by
  intro e he
  obtain ⟨group, hgroup, he⟩ := mem_flatten.mp he
  obtain ⟨i, hi, rfl⟩ := getElem_of_mem hgroup
  have hi' : i < pages.length := h.pages_of.length_eq ▸ hi
  exact (h.pages_of.get hi hi').wellFormed e he

section

variable (hread : InOrderAsRead binding groups)

include hread

theorem merged {group : List Entry} (hgroup : group ∈ groups) :
    Merged binding.columns (group.map (readBack binding.columns))
      (OrderedPage.merged (group.map (readBack binding.columns))) := by
  have hwf : ∀ e ∈ group, WellFormed json binding e := fun e he =>
    h.wellFormed e (mem_flatten.mpr ⟨group, hgroup, he⟩)
  refine merged_spec (fun a ha => ?_) (readBack_key_eq hwf fun e he =>
    hread.readable e (mem_flatten.mpr ⟨group, hgroup, he⟩)) (hread.chains group hgroup)
  obtain ⟨e, he, rfl⟩ := mem_map.mp ha
  exact (hwf e he).rows_ne

/-- **Decoded entries select what the entries select by their keys as they are read.** -/
theorem selected_decoded (keep : OrderedIndexKey → Bool) :
    selected keep (decodedPages binding.columns groups).flatten =
      selected keep (groups.flatten.map (readBack binding.columns)) := by
  have hflat : ∀ L : List (List Entry), selected keep L.flatten = L.flatMap (selected keep) := by
    intro L
    induction L with
    | nil => rfl
    | cons l L ih => rw [flatten_cons, selected_append, ih, flatMap_cons]
  rw [map_flatten, hflat, hflat, decodedPages, flatMap_map, flatMap_map]
  exact flatMap_congr fun group hgroup => (h.merged hread hgroup).rows keep

theorem exists_key {e : Entry} (he : e ∈ (decodedPages binding.columns groups).flatten) :
    e.rows ≠ [] ∧ ∃ a ∈ groups.flatten, e.key = (readBack binding.columns a).key := by
  obtain ⟨page, hpage, he⟩ := mem_flatten.mp he
  obtain ⟨group, hgroup, rfl⟩ := mem_map.mp hpage
  have hmerge := h.merged hread hgroup
  obtain ⟨x, hx, hkey⟩ := hmerge.keys e he
  obtain ⟨a, ha, rfl⟩ := mem_map.mp hx
  exact ⟨hmerge.rows_ne e he, a, mem_flatten.mpr ⟨group, hgroup, ha⟩, hkey⟩

theorem admitted {e : Entry} (he : e ∈ (decodedPages binding.columns groups).flatten) :
    Admitted json binding.columns e.key.values := by
  obtain ⟨-, a, ha, hkey⟩ := h.exists_key hread he
  rw [hkey]
  exact ((h.wellFormed a ha).canonical.stored binding.columns_ne (hread.readable a ha)).admitted
    binding.ordered_columns

/-- The first decoded entry is a first fragment. -/
theorem decoded_starts :
    ∀ e ∈ (decodedPages binding.columns groups).flatten.head?, e.state.hasPrevious = false := by
  obtain ⟨group, rest, rfl⟩ := exists_cons_of_ne_nil h.groups_ne
  have hmerge := h.merged hread mem_cons_self
  have hne := h.group_ne group mem_cons_self
  obtain ⟨a, group', rfl⟩ := exists_cons_of_ne_nil hne
  have hsome : OrderedPage.merged ((a :: group').map (readBack binding.columns)) ≠ [] := by
    rw [ne_eq, hmerge.nil_iff]
    exact cons_ne_nil _ _
  intro e he
  rw [decodedPages, map_cons, flatten_cons, head?_append_of_ne_nil _ hsome] at he
  rw [(hmerge.first _ rfl e he).2.1]
  exact h.starts a rfl

theorem decoded_ends :
    ∀ e ∈ (decodedPages binding.columns groups).flatten.getLast?, e.state.hasNext = false := by
  rcases eq_nil_or_concat' groups with rfl | ⟨rest, group, rfl⟩
  · exact absurd rfl h.groups_ne
  have hgroup : group ∈ rest ++ [group] := by simp
  have hmerge := h.merged hread hgroup
  have hne := h.group_ne group hgroup
  rcases eq_nil_or_concat' group with rfl | ⟨group', a, rfl⟩
  · exact absurd rfl hne
  have hsome : OrderedPage.merged ((group' ++ [a]).map (readBack binding.columns)) ≠ [] := by
    rwa [ne_eq, hmerge.nil_iff, map_eq_nil_iff]
  intro e he
  rw [decodedPages, map_append, map_singleton, flatten_append,
    flatten_singleton, getLast?_append_of_ne_nil _ hsome] at he
  have hlast : readBack binding.columns a ∈
      ((group' ++ [a]).map (readBack binding.columns)).getLast? := by
    rw [map_append, map_singleton, getLast?_concat]
    rfl
  rw [(hmerge.last _ hlast e he).2.1]
  refine h.ends a ?_
  rw [flatten_append, flatten_singleton, getLast?_append_of_ne_nil _ hne, getLast?_concat]
  rfl

/-- **The decoded pages** of a stored index whose neighbours pass their checks. -/
theorem decoded (hmemory : ∀ page ∈ pages, WithinMemory sizes binding page)
    (hadjacent : (decodedPages binding.columns groups).IsChain (Adjacent std binding)) :
    Decoded crc std json sizes binding pages (decodedPages binding.columns groups) := by
  have hne : ∀ page ∈ decodedPages binding.columns groups, page ≠ [] := by
    intro page hpage
    obtain ⟨group, hgroup, rfl⟩ := mem_map.mp hpage
    rw [ne_eq, (h.merged hread hgroup).nil_iff, map_eq_nil_iff]
    exact h.group_ne group hgroup
  have hnil : [] ∉ decodedPages binding.columns groups := fun hmem => hne [] hmem rfl
  refine {
    decode := (decode_all_iff h.pages_of h.source _).mpr
      ⟨⟨hread.readable, hread.chains, hmemory⟩, rfl⟩
    pages_ne := by rw [decodedPages, ne_eq, map_eq_nil_iff]; exact h.groups_ne
    page_ne := hne
    admitted := fun e he => h.admitted hread he
    rows_ne := fun e he => (h.exists_key hread he).1
    chain := (isChain_flatten hnil).mpr ⟨fun page hpage => ?_, ?_⟩
    starts := h.decoded_starts hread
    ends := h.decoded_ends hread }
  · obtain ⟨group, hgroup, rfl⟩ := mem_map.mp hpage
    exact (h.merged hread hgroup).chain
  · refine IsChain.imp_of_mem_imp (fun a b ha hb hab x hx y hy => ?_) hadjacent
    have hxmem := mem_flatten.mpr ⟨a, ha, mem_of_getLast? hx⟩
    have hymem := mem_flatten.mpr ⟨b, hb, mem_of_mem_head? hy⟩
    exact (Decoded.boundary_iff (h.admitted hread hxmem) (h.admitted hread hymem)
      (h.exists_key hread hymem).1).mp (hab x hx y hy)

end

end

/-- Without leap seconds, entries follow each other as they are read. -/
theorem next_readBack (hleap : NoLeap groups) (ha : a ∈ groups.flatten)
    (hb : b ∈ groups.flatten) (h : (marks binding.columns).Next a b) :
    (marks binding.columns).Next (readBack binding.columns a) (readBack binding.columns b) := by
  have hkey : ∀ e ∈ groups.flatten, (marks binding.columns).key (readBack binding.columns e) =
      (marks binding.columns).key e := by
    intro e he
    exact congrArg (fun places => (toLex (places, e.key.bytes) : KeyPlace))
      (keyPlace_stored (hleap e he))
  unfold Marks.Next at h ⊢
  rwa [hkey a ha, hkey b hb]

theorem inOrderAsRead (h : Stored crc json binding groups pages)
    (hread : ∀ e ∈ groups.flatten, Readable e) (hleap : NoLeap groups) :
    InOrderAsRead binding groups := by
  have hnil : [] ∉ groups := fun hmem => h.group_ne [] hmem rfl
  refine ⟨hread, fun group hgroup => (isChain_map _).mpr ?_⟩
  refine IsChain.imp_of_mem_imp (fun a b ha hb hab => ?_)
    (((isChain_flatten hnil).mp h.chain).1 group hgroup)
  exact next_readBack hleap (mem_flatten.mpr ⟨group, hgroup, ha⟩)
    (mem_flatten.mpr ⟨group, hgroup, hb⟩) hab

/-- Without leap seconds, neighbouring pages pass their checks. -/
theorem adjacent (std : LowerExp) (h : Stored crc json binding groups pages)
    (hread : InOrderAsRead binding groups) (hleap : NoLeap groups) :
    (decodedPages binding.columns groups).IsChain (Adjacent std binding) := by
  have hnil : [] ∉ groups := fun hmem => h.group_ne [] hmem rfl
  refine (isChain_map _).mpr (IsChain.imp_of_mem_imp (fun g g' hg hg' hab x hx y hy => ?_)
    ((isChain_flatten hnil).mp h.chain).2)
  have hm := h.merged hread hg
  have hm' := h.merged hread hg'
  rcases eq_nil_or_concat' g with rfl | ⟨rest, a, rfl⟩
  · exact absurd rfl (h.group_ne [] hg)
  obtain ⟨b, rest', rfl⟩ := exists_cons_of_ne_nil (h.group_ne g' hg')
  have hnext := next_readBack hleap (mem_flatten.mpr ⟨_, hg, by simp⟩)
    (mem_flatten.mpr ⟨_, hg', mem_cons_self⟩) (hab a (by simp) b rfl)
  obtain ⟨hkey, hmore, hlast⟩ := hm.last (readBack binding.columns a) (by simp) x hx
  obtain ⟨hkey', hprev, hfirst⟩ := hm'.first (readBack binding.columns b) rfl y hy
  have hxmem : x ∈ (decodedPages binding.columns groups).flatten :=
    mem_flatten.mpr ⟨_, mem_map_of_mem hg, mem_of_getLast? hx⟩
  have hymem : y ∈ (decodedPages binding.columns groups).flatten :=
    mem_flatten.mpr ⟨_, mem_map_of_mem hg', mem_of_mem_head? hy⟩
  refine (Decoded.boundary_iff (h.admitted hread hxmem) (h.admitted hread hymem)
    (h.exists_key hread hymem).1).mpr ?_
  unfold Marks.Next Marks.Continues marks at hnext ⊢
  dsimp only at hnext ⊢
  rwa [hkey, hkey', hmore, hprev, hlast, hfirst]

end Stored

/-! ## Bounds -/

/-- A bound as `OrderedIndexKey::from_values` makes it for the first columns. -/
def IsBound (json : Json) (columns : List IndexKeyColumn)
    (bound : OrderedIndexBound) : Prop :=
  ∃ count, OrderedIndexKey.fromValues json (columns.take count) bound.key.values = .ok bound.key

theorem IsBound.admitted {bound : OrderedIndexBound} (h : IsBound json binding.columns bound) :
    AdmittedBound json binding.columns bound := by
  obtain ⟨count, hkey⟩ := h
  obtain ⟨_, htypes, hkey⟩ := ok_of_bind hkey
  obtain ⟨hne, ho⟩ := validateOrderedTypes_iff.mp htypes
  obtain ⟨r, henc, hkey⟩ := ok_of_bind hkey
  have hadm := admitted_of_encode ho henc
  have hlen := hadm.length_eq
  have hle := length_take_le' count binding.columns
  have htake : binding.columns.take bound.key.values.length = binding.columns.take count := by
    rw [← hlen, length_take, ← take_take, take_length]
  refine ⟨fun hnil => hne (eq_nil_of_length_eq_zero (hlen.trans (by rw [hnil]; rfl))),
    hlen ▸ hle, ?_⟩
  rwa [htake]

/-- The first values of a canonical key are a bound. -/
theorem isBound_take {key : OrderedIndexKey} (h : Canonical json binding.columns key) (count : ℕ)
    (inclusive : Bool) : ∃ bound : OrderedIndexBound,
      bound.key.values = key.values.take (count + 1) ∧ bound.inclusive = inclusive ∧
        IsBound json binding.columns bound := by
  obtain ⟨r, hr⟩ := encode_take h (count + 1)
  rw [← map_take] at hr
  have htypes : validateOrderedTypes (binding.columns.take (count + 1)) = .ok () := by
    refine validateOrderedTypes_iff.mpr ⟨?_, fun c hc =>
      binding.ordered_columns c (mem_of_mem_take hc)⟩
    rw [ne_eq, take_eq_nil_iff]
    exact not_or.mpr ⟨succ_ne_zero count, binding.columns_ne⟩
  refine ⟨⟨⟨r.1, key.values.take (count + 1), r.2⟩, inclusive⟩, rfl, rfl, count + 1, ?_⟩
  simp only [OrderedIndexKey.fromValues, htypes, hr, ok_bind]

/-! ## What answers say about keys -/

/-- Different choices of entries have different rows, if one is within the other. -/
theorem flatMap_rows_ne {l : List Entry} {p q : Entry → Bool} (hrows : ∀ e ∈ l, e.rows ≠ [])
    (hpq : ∀ e ∈ l, p e = true → q e = true) {e : Entry} (he : e ∈ l) (hp : p e = false)
    (hq : q e = true) : (l.filter p).flatMap (·.rows) ≠ (l.filter q).flatMap (·.rows) := by
  have hsum : ∀ r : Entry → Bool, ((l.filter r).flatMap (·.rows)).length =
      (l.map fun e => if r e then e.rows.length else 0).sum := by
    intro r
    clear hrows hpq he
    induction l with
    | nil => rfl
    | cons x l ih =>
      cases hr : r x <;> simp [hr, ih]
  intro heq
  have hlen := congrArg length heq
  rw [hsum, hsum] at hlen
  refine absurd hlen (Nat.ne_of_lt (sum_lt_sum _ _ (fun x hx => ?_) ⟨e, he, ?_⟩))
  · cases hpx : p x with
    | false => simp
    | true => simp [hpq x hx hpx]
  · rw [hp, hq]
    simpa using length_pos_of_ne_nil (hrows e he)

/-- Scans with a lower bound answer by the keys that were written. -/
def LowerScansAgree (json : Json) (binding : OrderedBinding) (l : List Entry) :
    Prop :=
  ∀ bound, IsBound json binding.columns bound →
    (l.filter fun e => !before binding.columns (some bound)
        (placesOf binding.columns (e.key.stored binding.columns).values)).flatMap (·.rows) =
      (l.filter fun e => !before binding.columns (some bound)
        (placesOf binding.columns e.key.values)).flatMap (·.rows)

/-- One column: if keys are read at their places in the columns before, no instant of the column is
in a leap second. Otherwise the bound that ends with it as it is read tells the scan from what is
asked for. -/
theorem no_leap_at (h : Stored crc json binding groups pages)
    (hread : ∀ e ∈ groups.flatten, Readable e)
    (hscans : LowerScansAgree json binding groups.flatten) (j : ℕ) (hbefore : ∀ e ∈ groups.flatten,
      (placesOf binding.columns (e.key.stored binding.columns).values).take j =
        (placesOf binding.columns e.key.values).take j) :
    ∀ e ∈ groups.flatten, ∀ v ∈ e.key.values[j]?, v.inLeapSecond = false := by
  intro e he v hv
  by_contra hleap
  rw [Bool.not_eq_false] at hleap
  have hlen : ∀ x ∈ groups.flatten, binding.columns.length = x.key.values.length := fun x hx =>
    ((h.wellFormed x hx).canonical.admitted binding.ordered_columns).length_eq
  have hj : j < binding.columns.length := hlen e he ▸ (List.getElem?_eq_some_iff.mp hv).1
  have hcol : binding.columns[j]? = some binding.columns[j] := getElem?_eq_getElem hj
  have hvalue : ∀ x ∈ groups.flatten, ∃ w, x.key.values[j]? = some w := fun x hx =>
    ⟨_, getElem?_eq_getElem (hlen x hx ▸ hj)⟩
  have hrows : ∀ x ∈ groups.flatten, x.rows ≠ [] := fun x hx => (h.wellFormed x hx).rows_ne
  have hstored := (h.wellFormed e he).canonical.stored binding.columns_ne (hread e he)
  obtain ⟨bound, hvalues, hincl, hbound⟩ := isBound_take hstored j
    (decide (binding.columns[j].direction = .ascending))
  have hcount : bound.key.values.length = j + 1 := by
    rw [hvalues, length_take, ← (hstored.admitted binding.ordered_columns).length_eq]
    omega
  have hedge : placesOf binding.columns bound.key.values =
      (placesOf binding.columns (e.key.stored binding.columns).values).take (j + 1) := by
    rw [hvalues, placesOf_take]
  obtain ⟨hup, hdown⟩ := take_succ_stored hcol hv (hbefore e he)
  cases hdir : binding.columns[j].direction with
  | ascending =>
    rw [hdir, decide_eq_true rfl] at hincl
    refine flatMap_rows_ne hrows (fun x hx hkeep => ?_) he ?_ ?_ (hscans bound hbound).symm
    · obtain ⟨w, hw⟩ := hvalue x hx
      have hle := ((take_succ_stored hcol hw (hbefore x hx)).1 hdir).2
      simp only [before, hincl, if_true, hcount, Bool.not_eq_true', decide_eq_false_iff_not,
        not_lt] at hkeep ⊢
      exact le_trans hkeep hle
    · have hlt := ((hup hdir).1).mpr hleap
      simp only [before, hincl, if_true, hcount, hedge, Bool.not_eq_false', decide_eq_true_eq]
      exact hlt
    · simp [before, hincl, hcount, hedge, lt_self_iff_false]
  | descending =>
    have hexclusive : bound.inclusive = false := by
      rw [hincl, hdir]
      decide
    refine flatMap_rows_ne hrows (fun x hx hkeep => ?_) he ?_ ?_ (hscans bound hbound)
    · obtain ⟨w, hw⟩ := hvalue x hx
      have hle := ((take_succ_stored hcol hw (hbefore x hx)).2 hdir).2
      simp only [before, hexclusive, Bool.false_eq_true, if_false, hcount, Bool.not_eq_true',
        decide_eq_false_iff_not, not_le] at hkeep ⊢
      exact lt_of_lt_of_le hkeep hle
    · simp [before, hexclusive, hcount, hedge]
    · have hlt := ((hdown hdir).1).mpr hleap
      simp only [before, hexclusive, Bool.false_eq_true, if_false, hcount, hedge,
        Bool.not_eq_true', decide_eq_false_iff_not, not_le]
      exact hlt

/-- **If all scans with a lower bound answer by the keys that were written, no instant is in a leap
second.** -/
theorem no_leap_of_scans (h : Stored crc json binding groups pages)
    (hread : ∀ e ∈ groups.flatten, Readable e)
    (hscans : LowerScansAgree json binding groups.flatten) : NoLeap groups := by
  -- column by column: what is known of the columns before gives the next one
  have hplaces : ∀ j, ∀ e ∈ groups.flatten,
      (placesOf binding.columns (e.key.stored binding.columns).values).take j =
        (placesOf binding.columns e.key.values).take j := by
    intro j
    induction j with
    | zero => exact fun _ _ => rfl
    | succ j ih =>
      intro e he
      have hnone := no_leap_at h hread hscans j ih e he
      rw [take_add_one, take_add_one, ih e he, placesOf_stored, placesOf,
        getElem?_zipWith, getElem?_zipWith]
      cases hc : binding.columns[j]? with
      | none => rfl
      | some column =>
        cases hv : e.key.values[j]? with
        | none => rfl
        | some v => simp only [place_stored column (hnone v hv)]
  intro e he v hv
  obtain ⟨j, hj⟩ := mem_iff_getElem?.mp hv
  exact no_leap_at h hread hscans j (hplaces j) e he v hj

/-! ## Scans -/

theorem cut_keys_iff {all : List Entry}
    (h : Cut (orderedWriter crc std codec binding.columns unique) limits entries all)
    (p : OrderedIndexKey → Prop) : (∀ e ∈ all, p e.key) ↔ ∀ e ∈ entries, p e.key := by
  constructor
  · intro hall entry hentry
    obtain ⟨e, he, hkey⟩ := (h.mem_keys _).mpr ⟨entry, hentry, rfl⟩
    exact hkey ▸ hall e he
  · intro hall e he
    obtain ⟨entry, hentry, hkey⟩ := (h.mem_keys _).mp ⟨e, he, rfl⟩
    exact hkey ▸ hall entry hentry

/-- Without leap seconds, bounds select the same entries as they are read. -/
theorem selected_readBack (hleap : NoLeap groups) (lower upper : Option OrderedIndexBound)
    (excludesNull : Bool) :
    selected (within binding.columns lower upper fun key => excludesNull && key.hasNullComponent)
        (groups.flatten.map (readBack binding.columns)) =
      selected (within binding.columns lower upper fun key => excludesNull && key.hasNullComponent)
        groups.flatten := by
  rw [selected, selected, filter_map, flatMap_map]
  refine congrArg (flatMap fun e : Entry => e.rows) (filter_congr fun e he => ?_)
  have hplaces : placesOf binding.columns (readBack binding.columns e).key.values =
      placesOf binding.columns e.key.values := keyPlace_stored (hleap e he)
  have hnull : (readBack binding.columns e).key.hasNullComponent = e.key.hasNullComponent := rfl
  simp only [Function.comp_apply, within, hplaces, hnull]

/-- **Scans of an index that can be read**, with either policy about NULL. -/
theorem scan_of_readable (hg : Given json binding entries)
    (hbuild : visitOrderedIndexPagesFromSorted crc std entries binding.columns binding.unique
      binding.sourceRowCount codec limits = .ok pages)
    (hvalues : ∀ e ∈ entries, ∀ v ∈ e.key.values, v.isEmpty = false ∧ v.inLeapSecond = false)
    (hmem : ∀ page ∈ pages, WithinMemory sizes binding page)
    {lower upper : Option OrderedIndexBound}
    (hbds : ∀ b ∈ boundsOf lower upper, IsBound json binding.columns b)
    (hsame : SamePrefix lower upper) (direction : IndexScanDirection) (offset limit : ℕ)
    (excludeNullKeys : Bool) :
    scanWithNullPolicy crc std json sizes binding pages lower upper direction offset limit
        excludeNullKeys =
      .ok (((directed direction (rowsOf (within binding.columns lower upper
        fun key => excludesNull lower upper excludeNullKeys && key.hasNullComponent)
        entries)).drop offset).take limit) := by
  obtain ⟨groups, hne, hbuilt⟩ := built_of_visit hbuild
  have hstored := stored_of_built hg hne hbuilt
  have hvalues := (cut_keys_iff hbuilt.cut
    fun key => ∀ v ∈ key.values, v.isEmpty = false ∧ v.inLeapSecond = false).mpr hvalues
  have hleap : NoLeap groups := fun e he v hv => (hvalues e he v hv).2
  have hread := hstored.inOrderAsRead (fun e he v hv => (hvalues e he v hv).1) hleap
  have hdec := hstored.decoded hread hmem (hstored.adjacent std hread hleap)
  rw [hdec.scan_eq (fun b hb => (hbds b hb).admitted) hsame, hstored.selected_decoded hread,
    selected_readBack hleap, selected_cut _ hbuilt.cut]

theorem decoded_of_scan (h : Stored crc json binding groups pages) {rows : List ℕ}
    (hscan : scanOrderedIndexFromSource crc std json sizes binding pages none none .forward 0
      (rows.length + 1) = .ok rows) :
    InOrderAsRead binding groups ∧ (∀ page ∈ pages, WithinMemory sizes binding page) ∧
      Decoded crc std json sizes binding pages (decodedPages binding.columns groups) := by
  have hpages : pages.isEmpty = false := by
    rw [isEmpty_eq_false_iff, ← length_pos_iff, ← h.pages_of.length_eq]
    exact length_pos_of_ne_nil h.groups_ne
  have hforward : scanForward crc std json sizes binding pages none none (rows.length + 1)
      (fun _ => false) 0 = .ok rows := by
    simp only [scanOrderedIndexFromSource, scanWithNullPolicy, binding.ordered, boundsOf,
      Option.toList_none, append_nil, boundsAreEmpty, ok_bind,
      Bool.false_eq_true, succ_ne_zero, or_self, if_false, hpages] at hscan
    exact hscan
  obtain ⟨decoded, hdec, hadjacent⟩ :=
    scan_reads_all hforward (Nat.ne_of_lt (lt_succ_self _))
  obtain ⟨⟨hread, hchains, hmem⟩, rfl⟩ := (decode_all_iff h.pages_of h.source decoded).mp hdec
  exact ⟨⟨hread, hchains⟩, hmem, h.decoded ⟨hread, hchains⟩ hmem hadjacent⟩

theorem eq_of_all_limits {a b : List ℕ}
    (h : ∀ limit, (.ok (a.take limit) : FormatResult (List ℕ)) = .ok (b.take limit)) : a = b := by
  have hall := Except.ok.inj (h (a.length + b.length))
  rwa [take_of_length_le (le_add_right _ _), take_of_length_le (le_add_left _ _)] at hall

/-- **Ordered index, end to end.** Scans over the written pages give the rows of the entries within
their bounds exactly if no key has an empty value or an instant in a leap second and every page is
within the reader's limit on memory. Bounds for different columns are refused. -/
theorem scans_answer_iff (crc : Bytes → UInt32) (std : LowerExp) (json : Bytes → Option String)
    (sizes : DecodeSizes) (binding : OrderedBinding) (codec : IndexPageCodec)
    (limits : PageBuildLimits) (entries : List (PostingEntry OrderedIndexKey))
    (pages : List IndexPageSpec) (hg : Given json binding entries)
    (hbuild : visitOrderedIndexPagesFromSorted crc std entries binding.columns binding.unique
      binding.sourceRowCount codec limits = .ok pages) :
    ((∀ lower upper direction offset limit,
        (∀ b ∈ boundsOf lower upper, IsBound json binding.columns b) → SamePrefix lower upper →
        scanOrderedIndexFromSource crc std json sizes binding pages lower upper direction offset
            limit =
          .ok (((directed direction (rowsOf (within binding.columns lower upper fun _ => false)
            entries)).drop offset).take limit)) ↔
      (∀ e ∈ entries, ∀ v ∈ e.key.values, v.isEmpty = false ∧ v.inLeapSecond = false) ∧
        ∀ page ∈ pages, WithinMemory sizes binding page) ∧
    ∀ lower upper direction offset limit,
      (∀ b ∈ boundsOf lower upper, IsBound json binding.columns b) → ¬ SamePrefix lower upper →
      scanOrderedIndexFromSource crc std json sizes binding pages lower upper direction offset
          limit =
        .error (.invalid "ordered lower and upper bounds have different prefix lengths") := by
  obtain ⟨groups, hne, hbuilt⟩ := built_of_visit hbuild
  have hstored := stored_of_built hg hne hbuilt
  have hkeys := cut_keys_iff hbuilt.cut
    fun key => ∀ v ∈ key.values, v.isEmpty = false ∧ v.inLeapSecond = false
  have hscan : Decoded crc std json sizes binding pages (decodedPages binding.columns groups) →
      InOrderAsRead binding groups → ∀ lower upper direction offset limit,
      (∀ b ∈ boundsOf lower upper, IsBound json binding.columns b) → SamePrefix lower upper →
      scanOrderedIndexFromSource crc std json sizes binding pages lower upper direction offset
          limit =
        .ok (((directed direction (selected (within binding.columns lower upper fun _ => false)
          (groups.flatten.map (readBack binding.columns)))).drop offset).take limit) := by
    intro hdec hread lower upper direction offset limit hbds hsame
    rw [← hstored.selected_decoded hread]
    exact hdec.scan_eq (fun b hb => (hbds b hb).admitted) hsame direction offset limit false
  refine ⟨⟨fun hall => ?_, fun hcond => ?_⟩, ?_⟩
  · have hfull := hall none none .forward 0 ((rowsOf (within binding.columns none none
      fun _ => false) entries).length + 1) (forall_mem_nil _) (by rintro _ ⟨⟩)
    rw [directed, drop_zero, take_of_length_le (le_succ _)] at hfull
    obtain ⟨hread, hmem, hdec⟩ := decoded_of_scan hstored hfull
    have hlower : LowerScansAgree json binding groups.flatten := by
      intro bound hbound
      have hbds : ∀ b ∈ boundsOf (some bound) none, IsBound json binding.columns b :=
        forall_mem_singleton.mpr hbound
      have hsame : SamePrefix (some bound) none := by rintro _ _ _ ⟨⟩
      have hrows := eq_of_all_limits fun limit =>
        (hscan hdec hread (some bound) none .forward 0 limit hbds hsame).symm.trans
          (hall (some bound) none .forward 0 limit hbds hsame)
      rw [directed, directed, drop_zero, drop_zero, ← selected_cut _ hbuilt.cut, selected,
        selected, filter_map, flatMap_map] at hrows
      simp only [Function.comp_def, within, after, Bool.not_false, Bool.and_true,
        Bool.true_and] at hrows
      exact hrows
    have hleap := no_leap_of_scans hstored hread.readable hlower
    refine ⟨hkeys.mp fun e he v hv => ⟨hread.readable e he v hv, hleap e he v hv⟩, hmem⟩
  · intro lower upper direction offset limit hbds hsame
    exact scan_of_readable hg hbuild hcond.1 hcond.2 hbds hsame direction offset limit false
  · intro lower upper direction offset limit hbds hsame
    have hadm := fun b hb => (hbds b hb).admitted
    simp only [SamePrefix, Option.mem_def, not_forall] at hsame
    obtain ⟨l, rfl, u, rfl, hlen⟩ := hsame
    have hcmp := compareOrderedBounds_of_ne std (hadm l (by simp [boundsOf]))
      (hadm u (by simp [boundsOf])) hlen
    simp only [scanOrderedIndexFromSource, scanWithNullPolicy, binding.ordered,
      forM_shapes hadm, boundsAreEmpty, hcmp, bind, Except.bind]

end

/-! ## Small indexes -/

/-- Limits that close a page after every fragment. -/
def sampleLimits : PageBuildLimits := ⟨1, 256, IndexPage.one_entry_allowed, by decide⟩

/-- A descending column of a type without parameters. -/
def descendingColumn (type : DataType) (h : admitsParameters type 0 0) : IndexKeyColumn :=
  ⟨scalarColumn type h, .descending, .last⟩

/-- Two pages of an index on integers, descending: 42 in two rows, and 28. -/
def integerEntries : List (PostingEntry OrderedIndexKey) :=
  [⟨OrderedPage.smallKey 42, [0, 2], .complete⟩, ⟨OrderedPage.smallKey 28, [1], .complete⟩]

theorem integerEntries_given :
    Given (fun _ => none) OrderedPage.descendingBinding integerEntries :=
  ⟨by decide, forall_mem_cons.mpr ⟨rfl, forall_mem_singleton.mpr rfl⟩⟩

theorem scans_answer_iff_integers :
    ∃ first second, visitOrderedIndexPagesFromSorted (fun _ => 0) .reference integerEntries
        OrderedPage.descendingBinding.columns false 3 .none sampleLimits = .ok [first, second] ∧
      scanOrderedIndexFromSource (fun _ => 0) .reference (fun _ => none) ⟨64, 64, 32⟩
        OrderedPage.descendingBinding [first, second] none none .reverse 1 5 = .ok [2, 0] := by
  refine ⟨_, _, rfl, ?_⟩
  refine (scans_answer_iff (fun _ => 0) .reference (fun _ => none) ⟨64, 64, 32⟩
    OrderedPage.descendingBinding .none sampleLimits integerEntries _ integerEntries_given
      rfl).1.mpr ⟨?_, ?_⟩ none none .reverse 1 5 (forall_mem_nil _) nofun
  · decide
  · exact forall_mem_cons.mpr ⟨rfl, forall_mem_singleton.mpr (Nat.le_of_ble_eq_true rfl)⟩

/-- An index on a text column with the text "" in row 0: the page is written, and a scan of
everything fails. -/
theorem scan_of_empty_text_fails :
    ∃ pages, visitOrderedIndexPagesFromSorted (fun _ => 0) .reference
        [⟨⟨[1, 3, 0, 0, 0, 0, 0, 0], [.text ""], false⟩, [0], .complete⟩]
        [descendingColumn .text rfl] false 1 .none sampleLimits = .ok pages ∧
      scanOrderedIndexFromSource (fun _ => 0) .reference (fun _ => none) ⟨64, 64, 32⟩
        ⟨[descendingColumn .text rfl], false, 1, rfl⟩ pages none none .forward 0 1 =
          .error (.invalid "index key component NULL tag/length is invalid") :=
  ⟨_, rfl, rfl⟩

end RadixDb.OrderedScan
