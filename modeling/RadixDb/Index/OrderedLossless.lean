import RadixDb.Index.Joining
import RadixDb.Index.OrderedBuilt

/-!
# What the pages of an ordered index hold

The entries of an ordered index are cut into fragments, the fragments go to pages, and the reader
merges what a page has of a key. So the entries come back when what the pages have of each key is
joined.

**The pages give back the entries exactly if no key has an empty value or an instant in a leap
second and no page exceeds the reader's limit on memory** (`lossless_iff`). An empty value cannot be
read, and an instant in a leap second is read as another one. That a page is within the writer's
limits and that keys are in order as they are read is then always so.
-/

namespace RadixDb.OrderedPage

open List IndexPage OrderedScan

section

variable {crc : Crc} {std : LowerExp} {json : Json}
  {binding : OrderedBinding} {codec : IndexPageCodec} {limits : PageBuildLimits}
  {sizes : DecodeSizes} {columns : List IndexKeyColumn} {l : List Entry}
  {entries : List (PostingEntry OrderedIndexKey)} {groups : List (List Entry)}
  {pages : List IndexPageSpec}

/-- In a page, fragments of one key are those that continue each other. -/
theorem merged_eq_joined (hrows : ∀ a ∈ l, a.rows ≠ [])
    (hkeys : ∀ a ∈ l, ∀ b ∈ l, a.key.bytes = b.key.bytes → a.key = b.key)
    (hchain : l.IsChain (marks columns).Next) : merged l = joined join l := by
  induction l using reverseRecOn with
  | nil => rfl
  | append_singleton l e ih =>
    obtain ⟨hchainL, hjoin⟩ := isChain_concat.mp hchain
    have hrowsL : ∀ a ∈ l, a.rows ≠ [] := fun a ha => hrows a (mem_append_left _ ha)
    have hkeysL : ∀ a ∈ l, ∀ b ∈ l, a.key.bytes = b.key.bytes → a.key = b.key := fun a ha b hb =>
      hkeys a (mem_append_left _ ha) b (mem_append_left _ hb)
    have hspec := merged_spec hrowsL hkeysL hchainL
    rw [merged_append, joined_concat joins_join, ← ih hrowsL hkeysL hchainL, mergeFragment]
    rcases eq_nil_or_concat' (merged l) with hnil | ⟨m, last, hm⟩
    · rw [hnil]
      rfl
    rcases eq_nil_or_concat' l with rfl | ⟨l', a, rfl⟩
    · rw [hspec.nil_iff.mpr rfl] at hm
      simp at hm
    obtain ⟨hkey, hnext, -⟩ := hspec.last a (by simp) last (by rw [hm]; simp)
    rw [hm, joinConcat_append, getLast?_concat, dropLast_concat]
    rcases hjoin a (by simp) with ⟨hlt, hn, hp⟩ | ⟨heq, hn, hp, -⟩
    · have hbytes : last.key.bytes ≠ e.key.bytes := by
        intro hbytes
        rw [hkey] at hbytes
        have hsame := hkeys a (by simp) e (by simp) hbytes
        have hlt : keyPlace columns a.key < keyPlace columns e.key := hlt
        rw [hsame] at hlt
        exact lt_irrefl _ hlt
      have hnone : join last e = none := join_eq_none.mpr (by rw [hnext.trans hn]; rfl)
      simp [hbytes, joinCons, hnone]
    · have hbytes : last.key.bytes = e.key.bytes := by
        rw [hkey]
        exact congrArg (fun p : KeyPlace => (ofLex p).2) heq
      have hflags : (last.state.hasNext && e.state.hasPrevious) = true :=
        Bool.and_eq_true_iff.mpr ⟨hnext.trans hn, hp⟩
      have hsome : join last e = some ⟨last.key, last.rows ++ e.rows,
          ⟨last.state.hasPrevious, e.state.hasNext⟩⟩ := join_eq_some.mpr ⟨hflags, rfl⟩
      simp [hbytes, joinCons, hsome]

/-- **What the decoded pages have of each key, joined.** -/
theorem joined_decodedPages (h : Stored crc json binding groups pages)
    (hread : InOrderAsRead binding groups) :
    joined join (decodedPages binding.columns groups).flatten =
      (joined join groups.flatten).map (readBack binding.columns) := by
  have hpage : decodedPages binding.columns groups =
      (groups.map fun group => group.map (readBack binding.columns)).map (joined join) := by
    rw [decodedPages, map_map]
    refine map_congr_left fun group hgroup => ?_
    have hwf : ∀ e ∈ group, WellFormed json binding e := fun e he =>
      h.wellFormed e (mem_flatten.mpr ⟨group, hgroup, he⟩)
    refine merged_eq_joined (fun a ha => ?_) (readBack_key_eq hwf fun e he =>
      hread.readable e (mem_flatten.mpr ⟨group, hgroup, he⟩)) (hread.chains group hgroup)
    obtain ⟨e, he, rfl⟩ := mem_map.mp ha
    exact (hwf e he).rows_ne
  rw [hpage, joined_flatten joins_join, ← map_flatten]
  exact joined_map_key (OrderedIndexKey.stored binding.columns) _

/-! ## Keys that come back -/

/-- A key whose values are as keys have them: floats are canonical, and NULLs are of the type of
their column. -/
def writtenKey (columns : List IndexKeyColumn) (key : OrderedIndexKey) : OrderedIndexKey :=
  { key with values := ((columns.map (·.source)).zip key.values).map fun c => c.2.inKey c.1 }

def asWritten (columns : List IndexKeyColumn) (e : Entry) : Entry :=
  { e with key := writtenKey columns e.key }

/-- A key comes back exactly if none of its instants is in a leap second. -/
theorem readBack_eq_asWritten {e : Entry} (h : Canonical json columns e.key) :
    readBack columns e = asWritten columns e ↔ ∀ v ∈ e.key.values, v.inLeapSecond = false := by
  have hlen : (columns.map (·.source)).length = e.key.values.length :=
    (appendAll_of_encode h).1
  have hvalue : ∀ c : DataColumnSpec × Value,
      (c.2.inKey c.1).stored = c.2.inKey c.1 ↔ c.2.inLeapSecond = false := by
    intro c
    rw [Value.stored_eq_iff, Value.inLeapSecond_inKey]
  rw [← forall_zip_iff hlen fun v => v.inLeapSecond = false]
  simp [readBack, asWritten, writtenKey, OrderedIndexKey.stored, PageEntry.mk.injEq,
    OrderedIndexKey.mk.injEq, map_inj_left, hvalue]

/-- A key that is read at its place has no instant in a leap second. -/
theorem no_leap_of_placesOf {key : OrderedIndexKey} (hlen : columns.length = key.values.length)
    (h : placesOf columns (key.stored columns).values = placesOf columns key.values) :
    ∀ v ∈ key.values, v.inLeapSecond = false := by
  intro v hv
  obtain ⟨j, hj⟩ := mem_iff_getElem?.mp hv
  have hlt : j < columns.length := hlen ▸ (List.getElem?_eq_some_iff.mp hj).1
  have hc : columns[j]? = some columns[j] := getElem?_eq_getElem hlt
  obtain ⟨hup, hdown⟩ := take_succ_stored hc hj (congrArg (take j) h)
  rw [h] at hup hdown
  by_contra hleap
  rw [Bool.not_eq_false] at hleap
  cases hdir : columns[j].direction with
  | ascending => exact lt_irrefl _ ((hup hdir).1.mpr hleap)
  | descending => exact lt_irrefl _ ((hdown hdir).1.mpr hleap)

/-- Every entry of a chain is part of a joined entry of its key, and the first joined entry begins
with the first entry. -/
theorem joined_keys (hchain : l.IsChain (marks columns).Next) :
    (∀ a ∈ l, ∃ b ∈ joined join l, keyPlace columns b.key = keyPlace columns a.key) ∧
    ∀ b ∈ (joined join l).head?, ∃ a ∈ l.head?, b.key = a.key ∧
      b.state.hasPrevious = a.state.hasPrevious := by
  induction l with
  | nil => exact ⟨nofun, nofun⟩
  | cons a l ih =>
    obtain ⟨hhead, htail⟩ := isChain_cons.mp hchain
    obtain ⟨hall, hfirst⟩ := ih htail
    rw [joined]
    cases hl : joined join l with
    | nil =>
      rw [hl] at hall
      refine ⟨forall_mem_cons.mpr ⟨⟨a, mem_singleton_self a, rfl⟩, fun x hx => ?_⟩,
        fun b hb => ?_⟩
      · obtain ⟨b, hb, -⟩ := hall x hx
        cases hb
      · cases hb
        exact ⟨a, rfl, rfl, rfl⟩
    | cons b L =>
      rw [hl] at hall hfirst
      cases hab : join a b with
      | none =>
        simp only [joinCons, hab]
        refine ⟨forall_mem_cons.mpr ⟨⟨a, mem_cons_self, rfl⟩, fun x hx => ?_⟩,
          fun c hc => ?_⟩
        · obtain ⟨c, hc, hkey⟩ := hall x hx
          exact ⟨c, mem_cons_of_mem a hc, hkey⟩
        · cases hc
          exact ⟨a, rfl, rfl, rfl⟩
      | some c =>
        obtain ⟨hflags, rfl⟩ := join_eq_some.mp hab
        simp only [joinCons, hab]
        obtain ⟨a', ha', hkey', hprev⟩ := hfirst b rfl
        -- `a` is continued, so what follows it is of its key
        have hsame : keyPlace columns a.key = keyPlace columns a'.key := by
          rcases hhead a' ha' with ⟨-, hn, -⟩ | ⟨heq, -⟩
          · rw [show a.state.hasNext = false from hn] at hflags
            cases hflags
          · exact heq
        refine ⟨forall_mem_cons.mpr ⟨⟨_, mem_cons_self, rfl⟩, fun x hx => ?_⟩,
          fun c hc => ?_⟩
        · obtain ⟨d, hd, hkey⟩ := hall x hx
          rcases mem_cons.mp hd with rfl | hd
          · refine ⟨_, mem_cons_self, ?_⟩
            rwa [← hkey, hkey']
          · exact ⟨d, mem_cons_of_mem _ hd, hkey⟩
        · cases hc
          exact ⟨a, rfl, rfl, rfl⟩

/-- **All keys come back exactly if no instant is in a leap second.** -/
theorem joined_comes_back_iff (h : Stored crc json binding groups pages)
    (hread : ∀ e ∈ groups.flatten, Readable e) :
    (joined join groups.flatten).map (readBack binding.columns) =
        (joined join groups.flatten).map (asWritten binding.columns) ↔
      ∀ e ∈ groups.flatten, ∀ v ∈ e.key.values, v.inLeapSecond = false := by
  have hcanon : ∀ b ∈ joined join groups.flatten, Canonical json binding.columns b.key := by
    intro b hb
    obtain ⟨a, ha, hkey⟩ := exists_of_mem_joined hb
    exact hkey ▸ (h.wellFormed a ha).canonical
  rw [map_inj_left]
  constructor
  · intro hall e he
    obtain ⟨b, hb, hplace⟩ := (joined_keys h.chain).1 e he
    obtain ⟨a, ha, hkey⟩ := exists_of_mem_joined hb
    have hb' := (readBack_eq_asWritten (hcanon b hb)).mp (hall b hb)
    obtain ⟨hplaces, hbytes⟩ := Prod.mk.inj (toLex.injective hplace)
    rw [hkey] at hplaces hbytes hb'
    -- the two keys have the same bytes, so they are read as one key
    have hstored := (h.wellFormed a ha).canonical.stored_eq (h.wellFormed e he).canonical
      binding.columns_ne (hread a ha) (hread e he) hbytes
    refine no_leap_of_placesOf
      ((h.wellFormed e he).canonical.admitted binding.ordered_columns).length_eq ?_
    rw [← hstored, keyPlace_stored hb', hplaces]
  · intro hleap b hb
    obtain ⟨a, ha, hkey⟩ := exists_of_mem_joined hb
    exact (readBack_eq_asWritten (hcanon b hb)).mpr (hkey ▸ hleap a ha)

/-! ## Pages -/

/-- A page is within the limits of the writer in either layout: a page of integers is shorter than
the page of entries that was counted. -/
theorem PageOf.within_limits {group : List Entry} {page : IndexPageSpec}
    (h : PageOf crc json binding group page) {unique : Bool}
    (hwithin : Within (orderedWriter crc std codec columns unique) limits group) :
    page.itemCount ≤ limits.maxEntries ∧ page.logicalBytes.length ≤ limits.maxLogicalBytes := by
  obtain ⟨hents, hbytes⟩ := hwithin
  rcases h.layout with ⟨codec, hdense⟩ | hwritten
  · obtain ⟨p, -, -, hlogical, hitems, -, -, hpos, -⟩ := encodeDense_eq hdense
    have hlen : (denseBytes crc group.length p).length = denseIntegerPageBytes := by
      rfl
    rw [pageLength, pageHeaderBytes, entryBytes] at hbytes
    rw [hlogical, hlen, hitems, denseIntegerPageBytes]
    exact ⟨hents, by omega⟩
  · obtain ⟨hkeys, hposts⟩ := areas_eq (orderedWriter crc std codec columns unique) slotOf
      (fun _ => rfl) (fun _ => rfl) group
    rw [hkeys, hposts] at hbytes
    rw [hwritten.page_eq.2.1, hwritten.length_eq, length_map]
    exact ⟨hents, hbytes⟩

/-- What the pages hold is what was given to the writer. -/
structure Lossless (crc : Crc) (std : LowerExp) (json : Json)
    (sizes : DecodeSizes) (binding : OrderedBinding) (limits : PageBuildLimits)
    (entries : List (PostingEntry OrderedIndexKey)) (pages : List IndexPageSpec)
    (decoded : List (List Entry)) : Prop where
  decode : Forall₂ (fun page d =>
    decodeOrderedIndexPage crc std json sizes binding page page.logicalBytes = .ok d) pages decoded
  within : ∀ page ∈ pages,
    page.itemCount ≤ limits.maxEntries ∧ page.logicalBytes.length ≤ limits.maxLogicalBytes
  sorted : decoded.flatten.Pairwise fun a b =>
    ∃ order, compareOrderedKeys std a.key b.key binding.columns = .ok order ∧ order ≠ .gt
  joins : joined join decoded.flatten =
    joined join (entries.map fun e => asWritten binding.columns (uncut e))

theorem sorted_of_decoded {decoded : List (List Entry)}
    (h : Decoded crc std json sizes binding pages decoded) :
    decoded.flatten.Pairwise fun a b =>
      ∃ order, compareOrderedKeys std a.key b.key binding.columns = .ok order ∧ order ≠ .gt := by
  have hle : decoded.flatten.Pairwise fun a b =>
      keyPlace binding.columns a.key ≤ keyPlace binding.columns b.key :=
    isChain_iff_pairwise.mp (h.chain.imp fun a b hab => hab.key_le)
  refine hle.imp_of_mem fun {a b} ha hb hab => ⟨_, compareOrderedKeys_eq std (h.admitted a ha)
    (h.admitted b hb) binding.ordered_columns, ?_⟩
  rw [ne_eq, placeCmp_eq_gt]
  exact not_lt.mpr hab

end

/-- **Ordered pages.** The pages of a successful build give back the entries, with their postings
joined, exactly if no key has an empty value or an instant in a leap second and every page is within
the reader's limit on memory. Entries that are complete are given back one by one. -/
theorem lossless_iff (crc : Bytes → UInt32) (std : LowerExp) (json : Bytes → Option String)
    (sizes : DecodeSizes) (binding : OrderedBinding) (codec : IndexPageCodec)
    (limits : PageBuildLimits) (entries : List (PostingEntry OrderedIndexKey))
    (pages : List IndexPageSpec) (hg : Given json binding entries)
    (hbuild : visitOrderedIndexPagesFromSorted crc std entries binding.columns binding.unique
      binding.sourceRowCount codec limits = .ok pages) :
    ((∃ decoded, Lossless crc std json sizes binding limits entries pages decoded) ↔
      (∀ e ∈ entries, ∀ v ∈ e.key.values, v.isEmpty = false ∧ v.inLeapSecond = false) ∧
        ∀ page ∈ pages, WithinMemory sizes binding page) ∧
    ((∀ e ∈ entries, e.fragmentState = .complete) →
      joined join (entries.map fun e => asWritten binding.columns (uncut e)) =
        entries.map fun e => asWritten binding.columns (uncut e)) := by
  obtain ⟨groups, hne, hbuilt⟩ := built_of_visit hbuild
  have hstored := stored_of_built hg hne hbuilt
  have hkeys := cut_keys_iff hbuilt.cut
    fun key => ∀ v ∈ key.values, v.isEmpty = false ∧ v.inLeapSecond = false
  -- the entries that were given, as the fragments join to them
  have hgiven : joined join (entries.map fun e => asWritten binding.columns (uncut e)) =
      (joined join groups.flatten).map (asWritten binding.columns) := by
    have huncut : (entries.map fun e => asWritten binding.columns (uncut e)) =
        (entries.map uncut).map (asWritten binding.columns) := by
      rw [map_map]
      rfl
    rw [joined_cut hbuilt.cut, huncut]
    exact joined_map_key (writtenKey binding.columns) _
  refine ⟨⟨?_, fun ⟨hvalues, hmem⟩ => ?_⟩, fun hcompl => joined_of_complete fun e he => ?_⟩
  · rintro ⟨decoded, hless⟩
    obtain ⟨⟨hread, hchains, hmem⟩, rfl⟩ :=
      (decode_all_iff hstored.pages_of hstored.source decoded).mp hless.decode
    have hback := hless.joins
    rw [joined_decodedPages hstored ⟨hread, hchains⟩, hgiven] at hback
    have hleap := (joined_comes_back_iff hstored hread).mp hback
    exact ⟨hkeys.mp fun e he v hv => ⟨hread e he v hv, hleap e he v hv⟩, hmem⟩
  · have hall := hkeys.mpr hvalues
    have hleap : NoLeap groups := fun e he v hv => (hall e he v hv).2
    have hread := hstored.inOrderAsRead (fun e he v hv => (hall e he v hv).1) hleap
    have hdec := hstored.decoded hread hmem (hstored.adjacent std hread hleap)
    refine ⟨_, hdec.decode, fun page hpage => ?_, sorted_of_decoded hdec, ?_⟩
    · obtain ⟨i, hi, rfl⟩ := getElem_of_mem hpage
      have hi' : i < groups.length := hstored.pages_of.length_eq ▸ hi
      exact (hstored.pages_of.get hi' hi).within_limits
        (hbuilt.pages_ok.within _ (getElem_mem hi'))
    · rw [joined_decodedPages hstored hread, hgiven]
      exact (joined_comes_back_iff hstored hread.readable).mpr hleap
  · obtain ⟨entry, hentry, rfl⟩ := mem_map.mp he
    exact congrArg PostingFragmentState.hasNext (hcompl entry hentry)

theorem lossless_iff_integers :
    ∃ pages decoded, visitOrderedIndexPagesFromSorted (fun _ => 0) .reference integerEntries
        descendingBinding.columns false 3 .none sampleLimits = .ok pages ∧
      Lossless (fun _ => 0) .reference (fun _ => none) ⟨64, 64, 32⟩ descendingBinding sampleLimits
        integerEntries pages decoded := by
  obtain ⟨decoded, hless⟩ := (lossless_iff (fun _ => 0) .reference (fun _ => none) ⟨64, 64, 32⟩
    descendingBinding .none sampleLimits integerEntries _ integerEntries_given rfl).1.mpr
    ⟨by decide, forall_mem_cons.mpr ⟨rfl, forall_mem_singleton.mpr (Nat.le_of_ble_eq_true rfl)⟩⟩
  exact ⟨_, decoded, rfl, hless⟩

/-- The page of the text "" is written, and cannot be decoded. -/
theorem page_of_empty_text_is_not_decoded :
    ∃ page, visitOrderedIndexPagesFromSorted (fun _ => 0) .reference
        [⟨⟨[1, 3, 0, 0, 0, 0, 0, 0], [.text ""], false⟩, [0], .complete⟩]
        [descendingColumn .text rfl] false 1 .none sampleLimits = .ok [page] ∧
      decodeOrderedIndexPage (fun _ => 0) .reference (fun _ => none) ⟨64, 64, 32⟩
        ⟨[descendingColumn .text rfl], false, 1, rfl⟩ page page.logicalBytes =
          .error (.invalid "index key component NULL tag/length is invalid") :=
  ⟨_, rfl, rfl⟩

end RadixDb.OrderedPage
