import RadixDb.Index.ExactAnswers
import RadixDb.Key.Equality

/-!
# An exact index from entries to answers

The pages that are written for entries with canonical keys are `Stored` pages, and the rows of a key
in them are the rows of its entries (`answerOf_cut`). A unique index without entries has one empty
page, which answers every lookup with no rows (`lookupKey_empty`).

**Every lookup, after any earlier ones, gives the rows of its key exactly if no key has an empty
component and no page exceeds the reader's limit on memory** (`lookups_answer_iff`). Empty texts,
byte strings and external values are written into keys that the reader refuses
(`lookup_of_empty_text_fails`); and pages of a size that the writer admits may decode to more memory
than the reader admits.
-/

namespace RadixDb.ExactIndex

open List IndexPage ExactPage

/-- The digests that are remembered after lookups. -/
def memoAfter {δ : Type} [DecidableEq δ] (crc : Crc) (digest : Bytes → δ)
    (json : Json) (pageEntrySize : ℕ) (binding : ExactBinding)
    (pages : List IndexPageSpec) (probes : List (List Value)) : ValidatedExactPages δ :=
  probes.foldl (fun memo values =>
    (lookupExactIndexFromSource crc digest json pageEntrySize binding pages values memo).2)
    fun _ => none

/-- Does the page pass the reader's check of the memory it takes? -/
def WithinMemory (pageEntrySize : ℕ) (page : IndexPageSpec) : Prop :=
  validateDecodeAllocation exactKind
    (page.itemCount * pageEntrySize + readWord 8 page.logicalBytes 16) page.logicalBytes
    page.itemCount = .ok ()

/-- Entries with canonical keys, each key once, and an index that counts their rows. Row numbers are
64-bit numbers. -/
structure Given (json : Json) (binding : ExactBinding)
    (entries : List (PostingEntry ExactIndexKey)) : Prop where
  columns_ne : binding.columns ≠ []
  source : binding.sourceRowCount ≤ 2 ^ 64
  items : binding.indexedItemCount = (entries.map fun e => e.rowOrdinals.length).sum
  canonical : ∀ e ∈ entries, ∃ values,
    encodeCanonicalKeySpecs json binding.columns values =
      .ok (e.key.bytes, e.key.hasNullComponent)
  distinct : (entries.map fun e => e.key.bytes).Nodup

/-! ## From the writer to the pages -/

section

variable {crc : Crc} {json : Json} {binding : ExactBinding}
  {codec : IndexPageCodec} {limits : PageBuildLimits} {pageEntrySize : ℕ}
  {entries : List (PostingEntry ExactIndexKey)} {groups : List (List Entry)}
  {pages : List IndexPageSpec} {unique : Bool}

/-- Keys with the same bytes are the same key, so neighbours are in order by their bytes. -/
theorem next_of_follows {a b : Entry} (hsame : a.key.bytes = b.key.bytes → a.key = b.key)
    (h : Follows (exactWriter crc codec unique) a b) : marks.Next a b := by
  have hcmp := Bytes.compareBytes_compares a.key.bytes b.key.bytes
  rcases h with ⟨hlt, hstates⟩ | ⟨heq, hstates⟩
  · have hlt : a.key.ordCmp b.key = .lt := Except.ok.inj hlt
    rcases Ordering.then_eq_lt.mp hlt with hbytes | ⟨hbytes, hflags⟩
    · exact .inl ⟨hcmp.eq_lt.mp hbytes, hstates⟩
    · rw [hsame (hcmp.eq_eq.mp hbytes), cmp_self_eq_eq] at hflags
      cases hflags
  · have heq : a.key.ordCmp b.key = .eq := Except.ok.inj heq
    exact .inr ⟨hcmp.eq_eq.mp (Ordering.then_eq_eq.mp heq).1, hstates⟩

/-- Entries whose keys were written for the columns of the index. -/
def CanonicalEntries (json : Json) (columns : List DataColumnSpec)
    (entries : List (PostingEntry ExactIndexKey)) : Prop :=
  ∀ e ∈ entries, ∃ values,
    encodeCanonicalKeySpecs json columns values = .ok (e.key.bytes, e.key.hasNullComponent)

theorem CanonicalEntries.key_eq (hc : CanonicalEntries json binding.columns entries)
    {a b : PostingEntry ExactIndexKey} (ha : a ∈ entries) (hb : b ∈ entries)
    (h : a.key.bytes = b.key.bytes) : a.key = b.key := by
  obtain ⟨as, has⟩ := hc a ha
  obtain ⟨bs, hbs⟩ := hc b hb
  rw [← h] at hbs
  exact (ExactIndexKey.mk.injEq ..).mpr ⟨h, hasNull_eq_of_bytes_eq has hbs⟩

theorem encode_eq (unique : Bool) (group : List Entry) :
    (exactWriter crc codec unique).encode
        (group.map (exactWriter crc codec unique).prepareEntry)
        (keyBytesOf (exactWriter crc codec unique) group) (postingBytesOf group) =
      IndexPage.encodePage exactKind crc codec (group.map slotOf)
        (keyArea (group.map slotOf)).length (postingArea (group.map slotOf)).length := by
  obtain ⟨hkeys, hposts⟩ := areas_eq (exactWriter crc codec unique) slotOf (fun _ => rfl)
    (fun _ => rfl) group
  have hslots : (group.map (exactWriter crc codec unique).prepareEntry).map PreparedEntry.slot =
      group.map slotOf := map_map
  rw [hkeys, hposts, ← hslots]
  rfl

/-- **The pages of the writer** are stored pages. -/
theorem stored_of_built (hcols : binding.columns ≠ [])
    (hsource : binding.sourceRowCount ≤ 2 ^ 64)
    (hcanon : CanonicalEntries json binding.columns entries)
    (h : Built (exactWriter crc codec binding.unique) binding.sourceRowCount limits entries groups
      pages) : Stored crc binding groups pages := by
  have hchain : groups.flatten.IsChain marks.Next := by
    refine IsChain.imp_of_mem_imp (fun a b ha hb hab => next_of_follows (fun hbytes => ?_) hab)
      h.in_order.chain
    obtain ⟨x, hx, hxa⟩ := (h.cut.mem_keys _).mp ⟨a, ha, rfl⟩
    obtain ⟨y, hy, hyb⟩ := (h.cut.mem_keys _).mp ⟨b, hb, rfl⟩
    rw [← hxa, ← hyb] at hbytes ⊢
    exact hcanon.key_eq hx hy hbytes
  have hwf : ∀ e ∈ groups.flatten, WellFormed binding e := by
    intro e he
    obtain ⟨-, hne, hrows, howns⟩ := h.in_order.entries_ok e he
    obtain ⟨entry, hentry, hkey⟩ := (h.cut.mem_keys _).mp ⟨e, he, rfl⟩
    obtain ⟨values, hvalues⟩ := hcanon entry hentry
    obtain ⟨hpos, hle⟩ := length_encode hcols hvalues
    exact ⟨hkey ▸ hpos, hkey ▸ hle, hne, hrows, howns⟩
  have hnil : [] ∉ groups := fun hmem => h.pages_ok.groups_ne [] hmem rfl
  refine ⟨?_, hchain, h.in_order.starts, h.ends, hsource⟩
  refine ((forall₂_and_left _ _).mpr ⟨fun _ hgroup => hgroup, h.pages_ok.encoded⟩).imp
    fun group page ⟨hgroup, henc⟩ => ⟨fun e he => ?_, ?_, codec, ?_⟩
  · exact hwf e (mem_flatten.mpr ⟨group, hgroup, he⟩)
  · exact ((isChain_flatten hnil).mp hchain).1 group hgroup
  · rwa [← encode_eq binding.unique]

/-- What an index of the entries is asked for. -/
def postingOf (key : Bytes) (entries : List (PostingEntry ExactIndexKey)) : Option (List ℕ) :=
  (entries.find? fun e => e.key.bytes = key).map (·.rowOrdinals)

/-- The entries of a key. -/
def entriesOf (key : Bytes) (entries : List (PostingEntry ExactIndexKey)) :
    List (PostingEntry ExactIndexKey) :=
  entries.filter fun e => e.key.bytes = key

/-- **The rows of a key in the fragments** are the rows of its entries. -/
theorem run_cut {all : List Entry} (h : Cut (exactWriter crc codec unique) limits entries all)
    (key : Bytes) :
    (marks.run key all = [] ↔ entriesOf key entries = []) ∧
      (marks.run key all).flatMap (·.rows) = (entriesOf key entries).flatMap (·.rowOrdinals) := by
  induction h with
  | nil => exact ⟨iff_of_true rfl rfl, rfl⟩
  | cons hne hcut hrest ih =>
    rename_i entry entries fragments rest
    obtain ⟨hempty, hrows⟩ := ih
    rw [Marks.run_append]
    by_cases hkey : entry.key.bytes = key
    · have hmine : marks.run key (fragments.map (fragmentEntry entry.key)) =
          fragments.map (fragmentEntry entry.key) := by
        refine Marks.run_eq_self fun e he => ?_
        obtain ⟨f, -, rfl⟩ := mem_map.mp he
        exact hkey
      have hents : entriesOf key (entry :: entries) = entry :: entriesOf key entries :=
        filter_cons_of_pos (by simpa using hkey)
      have hfrags : (fragments.map (fragmentEntry entry.key)).flatMap (·.rows) =
          entry.rowOrdinals := by
        rw [flatMap_map, ← hcut.partitions.rows]
        rfl
      have hsome : fragments.map (fragmentEntry entry.key) ≠ [] := by
        rw [ne_eq, map_eq_nil_iff]
        rintro rfl
        exact hne hcut.partitions.rows.symm
      rw [hmine, hents, flatMap_append, hfrags, hrows, flatMap_cons]
      exact ⟨iff_of_false (fun h => hsome (append_eq_nil_iff.mp h).1) (cons_ne_nil _ _),
        rfl⟩
    · have hmine : marks.run key (fragments.map (fragmentEntry entry.key)) = [] := by
        refine Marks.run_eq_nil.mpr fun e he => ?_
        obtain ⟨f, -, rfl⟩ := mem_map.mp he
        exact hkey
      have hents : entriesOf key (entry :: entries) = entriesOf key entries :=
        filter_cons_of_neg (by simpa using hkey)
      rw [hmine, hents, nil_append]
      exact ⟨hempty, hrows⟩

theorem answerOf_cut {all : List Entry} (h : Cut (exactWriter crc codec unique) limits entries all)
    (key : Bytes) :
    answerOf key all = if (entriesOf key entries).isEmpty then none
      else some ((entriesOf key entries).flatMap (·.rowOrdinals)) := by
  obtain ⟨hempty, hrows⟩ := run_cut h key
  rw [answerOf, rowsOf, hrows]
  refine if_congr ?_ rfl rfl
  rw [List.isEmpty_iff, List.isEmpty_iff, hempty]

/-- If each key has one entry, its rows are the answer. -/
theorem postingOf_eq (hdist : (entries.map fun e => e.key.bytes).Nodup) (key : Bytes) :
    (if (entriesOf key entries).isEmpty then none
      else some ((entriesOf key entries).flatMap (·.rowOrdinals))) = postingOf key entries := by
  induction entries with
  | nil => rfl
  | cons entry entries ih =>
    obtain ⟨hnew, hdist⟩ := nodup_cons.mp hdist
    by_cases hkey : entry.key.bytes = key
    · have hothers : entriesOf key entries = [] := by
        refine filter_eq_nil_iff.mpr fun e he hsame => hnew ?_
        exact mem_map.mpr ⟨e, he, (by simpa using hsame : e.key.bytes = key).trans hkey.symm⟩
      have hents : entriesOf key (entry :: entries) = entry :: entriesOf key entries :=
        filter_cons_of_pos (by simpa using hkey)
      rw [hents, hothers, postingOf, find?_cons_of_pos (by simpa using hkey)]
      exact congrArg some (append_nil _)
    · have hents : entriesOf key (entry :: entries) = entriesOf key entries :=
        filter_cons_of_neg (by simpa using hkey)
      rw [hents, ih hdist, postingOf, postingOf, find?_cons_of_neg (by simpa using hkey)]

/-! ## Which pages are accepted -/

/-- A canonical key can be read if no component is empty. -/
theorem readable_iff {e : Entry} {values : List Value} (hcols : binding.columns ≠ [])
    (h : encodeCanonicalKeySpecs json binding.columns values =
      .ok (e.key.bytes, e.key.hasNullComponent)) :
    Readable json binding e ↔ ∀ v ∈ values, v.isEmpty = false := by
  rw [← forall_zip_iff (appendAll_of_encode h).1 (·.isEmpty = false)]
  constructor
  · rintro ⟨decoded, hdec⟩
    exact ((decode_iff hcols h _).mp hdec).1
  · exact fun hall => ⟨_, (decode_iff hcols h _).mpr ⟨hall, rfl⟩⟩

theorem withinMemory_iff {group : List Entry} {page : IndexPageSpec}
    (h : PageOf crc binding group page) :
    WithinMemory pageEntrySize page ↔
      pageDecodedBytes pageEntrySize group ≤ maxPageDecodeBytes := by
  obtain ⟨-, hitems, -⟩ := h.written.page_eq
  obtain ⟨-, -, -, -, -, h16, -⟩ := h.written.readWord_page
  have halloc := h.written.allocation_eq
    (group.length * pageEntrySize + (keyArea (group.map slotOf)).length)
  rw [← pageDecodedBytes, length_map] at halloc
  rw [length_map] at hitems
  rw [WithinMemory, hitems, h16, halloc]
  split_ifs with hlimit
  · exact ⟨False.elim, fun hle => absurd hlimit (Nat.not_lt.mpr hle)⟩
  · exact ⟨fun _ => Nat.not_lt.mp hlimit, fun _ => rfl⟩

/-- **All pages are accepted** exactly if no key has an empty component and no page takes too much
memory. -/
theorem accepted_iff (hg : Given json binding entries)
    (hcut : Cut (exactWriter crc codec binding.unique) limits entries groups.flatten)
    (h : Stored crc binding groups pages) :
    (∀ group ∈ groups, ExactPage.Accepted json pageEntrySize binding group) ↔
      (∀ e ∈ entries, ∀ values, encodeCanonicalKeySpecs json binding.columns values =
          .ok (e.key.bytes, e.key.hasNullComponent) → ∀ v ∈ values, v.isEmpty = false) ∧
        ∀ page ∈ pages, WithinMemory pageEntrySize page := by
  constructor
  · intro hall
    refine ⟨fun entry hentry values hvalues => ?_, fun page hpage => ?_⟩
    · obtain ⟨e, he, hkey⟩ := (hcut.mem_keys _).mpr ⟨entry, hentry, rfl⟩
      obtain ⟨group, hgroup, he⟩ := mem_flatten.mp he
      rw [← hkey] at hvalues
      exact (readable_iff hg.columns_ne hvalues).mp ((hall group hgroup).1 e he)
    · obtain ⟨group, hgroup, hof⟩ := h.page_of_mem.2 page hpage
      exact (withinMemory_iff hof).mpr (hall group hgroup).2
  · rintro ⟨hkeys, hmem⟩ group hgroup
    refine ⟨fun e he => ?_, ?_⟩
    · obtain ⟨entry, hentry, hkey⟩ :=
        (hcut.mem_keys _).mp ⟨e, mem_flatten.mpr ⟨group, hgroup, he⟩, rfl⟩
      obtain ⟨values, hvalues⟩ := hg.canonical entry hentry
      have hnonempty := hkeys entry hentry values hvalues
      rw [hkey] at hvalues
      exact (readable_iff hg.columns_ne hvalues).mpr hnonempty
    · obtain ⟨page, hpage, hof⟩ := h.page_of_mem.1 group hgroup
      exact (withinMemory_iff hof).mp (hmem page hpage)

/-! ## Lookups one after the other -/

variable {δ : Type} [DecidableEq δ] {digest : Bytes → δ}

theorem sound_memoAfter (h : Stored crc binding groups pages) (hne : groups ≠ [])
    (probes : List (List Value)) :
    Sound digest json pageEntrySize binding groups pages
      (memoAfter crc digest json pageEntrySize binding pages probes) := by
  refine foldlRecOn probes _ nofun fun memo hsound values _ => ?_
  unfold lookupExactIndexFromSource
  cases encodeCanonicalKeySpecs json binding.columns values with
  | error e => exact hsound
  | ok r => exact (lookupKey_spec h hne hsound r.1).1

theorem empty_bytes (codec : IndexPageCodec) : (encodeEmptyPage crc codec).logicalBytes =
    header exactKind 0 0 0 (crc []).toNat ++ [] := rfl

theorem readAreas_empty (codec : IndexPageCodec) :
    readAreas exactKind crc 0 (encodeEmptyPage crc codec) (encodeEmptyPage crc codec).logicalBytes =
      .ok ⟨0, 0, 0, 0⟩ := by
  have hlen : (header exactKind 0 0 0 (crc []).toNat ++ []).length = pageHeaderBytes := by
    rw [append_nil, length_header]
  have hdrop : (header exactKind 0 0 0 (crc []).toNat ++ []).drop pageHeaderBytes = [] :=
    drop_left' (length_header exactKind 0 0 0 (crc []).toNat)
  obtain ⟨hmagic, h4, h6, h8, h12, h16, h24, h32, h36⟩ := readWord_header exactKind []
    (show 0 * entryBytes < 2 ^ 32 by decide) (show 0 < 2 ^ 64 by decide)
    (show 0 < 2 ^ 64 by decide) (crc []).toNat_lt
  rw [empty_bytes]
  simp only [readAreas, hlen, hmagic, h4, h6, h8, h12, h16, h24, h32, h36, hdrop]
  simp [encodeEmptyPage]

theorem withinMemory_empty (codec : IndexPageCodec) :
    WithinMemory pageEntrySize (encodeEmptyPage crc codec) := by
  obtain ⟨-, -, -, -, -, h16, -⟩ := readWord_header exactKind []
    (show 0 * entryBytes < 2 ^ 32 by decide) (show 0 < 2 ^ 64 by decide)
    (show 0 < 2 ^ 64 by decide) (crc []).toNat_lt
  have hitems : (encodeEmptyPage crc codec).itemCount = 0 := rfl
  rw [WithinMemory, empty_bytes, h16, hitems, Nat.zero_mul]
  rfl

/-- **An index without entries** answers every lookup with no rows. -/
theorem lookupKey_empty (codec : IndexPageCodec) (huniq : binding.unique = true)
    (hitems : binding.indexedItemCount = 0) (key : Bytes) (memo : ValidatedExactPages δ) :
    (lookupKey crc digest json pageEntrySize binding [encodeEmptyPage crc codec] key memo).1 =
      .ok none := by
  have hvalidate : validatePage crc digest json pageEntrySize binding 0 (encodeEmptyPage crc codec)
      memo = (.ok none, memo.remember 0 (digest (encodeEmptyPage crc codec).logicalBytes)) := by
    simp only [validatePage, visitExactIndexPage, readAreas_empty, ok_bind, ne_eq,
      not_true_eq_false, if_false, if_true, huniq, hitems]
    rfl
  have hroute : routePages crc digest json pageEntrySize binding [encodeEmptyPage crc codec] key 1 0
      1 none memo = (.ok (.answer none), memo.remember 0
        (digest (encodeEmptyPage crc codec).logicalBytes)) := by
    have hitem : (encodeEmptyPage crc codec).itemCount = 0 := rfl
    simp only [routePages, Nat.zero_lt_one, if_true, Nat.sub_zero, Nat.reduceDiv, Nat.add_zero,
      getElem?_cons_zero, hitem, hvalidate]
    rfl
  rw [lookupKey]
  simp [isEmpty_cons, hroute]

/-- What a build ends with: the pages of the entries, or the empty page of a unique index. -/
theorem build_cases (hbuild : visitExactIndexPagesFromSorted crc entries binding.unique
      binding.sourceRowCount codec limits = .ok pages) :
    (entries = [] ∧ binding.unique = true ∧ pages = [encodeEmptyPage crc codec]) ∨
      ∃ groups, groups ≠ [] ∧ Built (exactWriter crc codec binding.unique) binding.sourceRowCount
        limits entries groups pages := by
  unfold visitExactIndexPagesFromSorted at hbuild
  by_cases hsource : binding.sourceRowCount = 0
  · cases (if_pos hsource).symm.trans hbuild
  rw [if_neg hsource] at hbuild
  obtain ⟨w, hadd, hbuild⟩ := ok_of_bind hbuild
  split_ifs at hbuild with hcount huniq
  · left
    cases hbuild
    refine ⟨eq_nil_iff_forall_not_mem.mpr fun entry hentry => ?_, by simpa using huniq,
      rfl⟩
    obtain ⟨added, closed, current, hcut, hholds, hall⟩ := (Holds.new _ _ _).addEntries hadd
    rw [hholds.count_eq, hall] at hcount
    obtain ⟨e, he, -⟩ := (hcut.mem_keys _).mpr ⟨entry, hentry, rfl⟩
    have hpos := length_pos_of_mem he
    simp only [flatten_nil, append_nil, nil_append] at hcount
    omega
  · exact .inr (finish_spec hadd hcount hbuild)

/-- **Exact index, end to end.** Lookups over the written pages, after any earlier ones, give the
rows of their key exactly if no key has an empty component and every page is within the reader's
limit on memory. -/
theorem lookups_answer_iff (crc : Bytes → UInt32) (digest : Bytes → δ)
    (json : Bytes → Option String) (pageEntrySize : ℕ) (binding : ExactBinding)
    (codec : IndexPageCodec) (limits : PageBuildLimits)
    (entries : List (PostingEntry ExactIndexKey)) (pages : List IndexPageSpec)
    (hg : Given json binding entries)
    (hbuild : visitExactIndexPagesFromSorted crc entries binding.unique binding.sourceRowCount codec
      limits = .ok pages) :
    (∀ earlier : List (List Value), ∀ values key hasNull,
      encodeCanonicalKeySpecs json binding.columns values = .ok (key, hasNull) →
      (lookupExactIndexFromSource crc digest json pageEntrySize binding pages values
        (memoAfter crc digest json pageEntrySize binding pages earlier)).1 =
          .ok (postingOf key entries)) ↔
    (∀ e ∈ entries, ∀ values, encodeCanonicalKeySpecs json binding.columns values =
        .ok (e.key.bytes, e.key.hasNullComponent) → ∀ v ∈ values, v.isEmpty = false) ∧
      ∀ page ∈ pages, WithinMemory pageEntrySize page := by
  rcases build_cases hbuild with ⟨rfl, huniq, rfl⟩ | ⟨groups, hne, hbuilt⟩
  · -- no entries: both sides hold
    refine iff_of_true (fun earlier values key hasNull hvalues => ?_)
      ⟨forall_mem_nil _, forall_mem_singleton.mpr (withinMemory_empty codec)⟩
    rw [lookupExactIndexFromSource, hvalues]
    exact lookupKey_empty codec huniq hg.items key _
  have hstored := stored_of_built hg.columns_ne hg.source hg.canonical hbuilt
  have hanswer : ∀ key, answerOf key groups.flatten = postingOf key entries := fun key =>
    (answerOf_cut hbuilt.cut key).trans (postingOf_eq hg.distinct key)
  have hspec : ∀ earlier key, LookupOutcome digest json pageEntrySize binding groups pages key
      (lookupKey crc digest json pageEntrySize binding pages key
        (memoAfter crc digest json pageEntrySize binding pages earlier)) := fun earlier key =>
    lookupKey_spec hstored hne (sound_memoAfter hstored hne earlier) key
  rw [← accepted_iff hg hbuilt.cut hstored]
  constructor
  · intro hall group hgroup
    -- a key of the page is looked up; its rows are found only if the page is accepted
    obtain ⟨e, he⟩ := exists_mem_of_ne_nil group (hbuilt.pages_ok.groups_ne group hgroup)
    obtain ⟨entry, hentry, hkey⟩ :=
      (hbuilt.cut.mem_keys _).mp ⟨e, mem_flatten.mpr ⟨group, hgroup, he⟩, rfl⟩
    obtain ⟨values, hvalues⟩ := hg.canonical entry hentry
    have hlook := hall [] values _ _ hvalues
    rw [lookupExactIndexFromSource, hvalues] at hlook
    have hspec := (hspec [] entry.key.bytes).2
    simp only [hlook] at hspec
    refine hspec.2 group hgroup fun hnil => ?_
    exact Marks.run_eq_nil.mp hnil e he (congrArg ExactIndexKey.bytes hkey.symm)
  · intro hall earlier values key hasNull hvalues
    have hspec := (hspec earlier key).2
    rw [lookupExactIndexFromSource, hvalues]
    split at hspec
    · obtain ⟨group, hgroup, href⟩ := hspec
      exact absurd (hall group hgroup) href
    · rename_i rows hrows
      rw [hrows, hspec.1, hanswer]

end

/-! ## Small indexes -/

/-- Limits that close a page after every fragment. -/
def smallLimits : PageBuildLimits := ⟨1, 128, IndexPage.one_entry_allowed, by decide⟩

/-- A key of an index on one integer column. -/
def integerKey (b : UInt8) : ExactIndexKey :=
  ⟨[1, 1, 0, 0, 8, 0, 0, 0, b, 0, 0, 0, 0, 0, 0, 0], false⟩

/-- 28 in one row and 42 in two, which makes two pages. -/
def integerEntries : List (PostingEntry ExactIndexKey) :=
  [⟨integerKey 28, [1], .complete⟩, ⟨integerKey 42, [0, 2], .complete⟩]

theorem lookups_answer_iff_integers :
    ∃ first second, visitExactIndexPagesFromSorted (fun _ => 0) integerEntries false 3
        .none smallLimits = .ok [first, second] ∧
      (lookupExactIndexFromSource (fun _ => 0) id (fun _ => none) 64
        ⟨[integerColumn], false, 3, 3⟩ [first, second] [.integer ⟨42, by decide⟩]
        (memoAfter (fun _ => 0) id (fun _ => none) 64 ⟨[integerColumn], false, 3, 3⟩
          [first, second] [[.integer ⟨28, by decide⟩]])).1 = .ok (some [0, 2]) := by
  refine ⟨_, _, rfl, ?_⟩
  refine (lookups_answer_iff (fun _ => 0) id (fun _ => none) 64 ⟨[integerColumn], false, 3, 3⟩
    .none smallLimits integerEntries _ ⟨nofun, by decide, rfl, ?_, by decide⟩ rfl).mpr
      ⟨?_, ?_⟩ _ _ (integerKey 42).bytes false rfl
  · exact forall_mem_cons.mpr ⟨⟨[.integer ⟨28, by decide⟩], rfl⟩,
      forall_mem_singleton.mpr ⟨[.integer ⟨42, by decide⟩], rfl⟩⟩
  · intro e he values hvalues
    refine (readable_iff (e := ⟨e.key, e.rowOrdinals, e.fragmentState⟩) (cons_ne_nil _ _)
      hvalues).mp ?_
    fin_cases he
    all_goals exact ⟨_, rfl⟩
  · exact forall_mem_cons.mpr ⟨rfl, forall_mem_singleton.mpr rfl⟩

/-- An index on a text column with the text "" in row 0: the page is written, and the lookup of ""
fails. -/
theorem lookup_of_empty_text_fails :
    ∃ pages, visitExactIndexPagesFromSorted (fun _ => 0)
        [⟨⟨[1, 3, 0, 0, 0, 0, 0, 0], false⟩, [0], .complete⟩] false 1 .none smallLimits =
          .ok pages ∧
      encodeCanonicalKeySpecs (fun _ => none) [scalarColumn .text rfl] [.text ""] =
        .ok ([1, 3, 0, 0, 0, 0, 0, 0], false) ∧
      (lookupExactIndexFromSource (fun _ => 0) id (fun _ => none) 64
        ⟨[scalarColumn .text rfl], false, 1, 1⟩ pages [.text ""] (fun _ => none)).1 =
          .error (.invalid "index key component NULL tag/length is invalid") :=
  ⟨_, rfl, rfl, rfl⟩

end RadixDb.ExactIndex
