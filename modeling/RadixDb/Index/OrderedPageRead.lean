import RadixDb.Index.KeyOrder
import RadixDb.Index.OrderedPage
import RadixDb.Index.PageRead
import RadixDb.Lib.Runs

/-!
# Reading the pages of an ordered index

A page of an ordered index that was written is a group of entries (`PageOf`). The reader makes one
entry of the fragments of a key (`merged`), which keeps the order, the ends of the page and the rows
of every set of keys (`merged_spec`).

The reader decodes keys from their bytes, so it compares stored values and not those that were
written. **A page is decoded exactly if its keys can be read, it is within the limit on memory and
its entries are in order as they are read; the result is the entries as they are read, with
fragments merged** (`PageOf.decode_iff`). This holds for both layouts of pages, so **a page of
integers means what the page that lists them means** (`dense_means_plain`).
-/

namespace RadixDb

open List Bytes Except

variable (binding : OrderedBinding)

theorem OrderedBinding.columns_ne : binding.columns ≠ [] :=
  (validateOrderedTypes_iff.mp binding.ordered).1

theorem OrderedBinding.ordered_columns : Ordered binding.columns :=
  (validateOrderedTypes_iff.mp binding.ordered).2

namespace OrderedPage

open IndexPage

abbrev Entry := OrderedIndexPageEntry

variable (columns : List IndexKeyColumn)

/-- Entries of an ordered index as pieces of postings. -/
def marks : Marks Entry KeyPlace where
  key e := keyPlace columns e.key
  hasPrevious e := e.state.hasPrevious
  hasNext e := e.state.hasNext
  joins a b := ∀ last ∈ a.rows.getLast?, last < b.rows.headD 0

/-! ## Merging fragments -/

/-- The fragments of each key as one entry. -/
def merged (l : List Entry) : List Entry := l.foldl mergeFragment []

/-- What merging keeps. -/
structure Merged (columns : List IndexKeyColumn) (l m : List Entry) : Prop where
  nil_iff : m = [] ↔ l = []
  chain : m.IsChain (marks columns).Next
  first : ∀ a ∈ l.head?, ∀ b ∈ m.head?, b.key = a.key ∧
    b.state.hasPrevious = a.state.hasPrevious ∧ b.rows.headD 0 = a.rows.headD 0
  last : ∀ a ∈ l.getLast?, ∀ b ∈ m.getLast?, b.key = a.key ∧ b.state.hasNext = a.state.hasNext ∧
    b.rows.getLast? = a.rows.getLast?
  rows_ne : ∀ b ∈ m, b.rows ≠ []
  keys : ∀ b ∈ m, ∃ a ∈ l, b.key = a.key
  rows : ∀ p : OrderedIndexKey → Bool, (m.filter fun b => p b.key).flatMap (·.rows) =
    (l.filter fun a => p a.key).flatMap (·.rows)

section

variable {columns : List IndexKeyColumn} {l m : List Entry} {a e last : Entry}

theorem merged_append :
    merged (l ++ [e]) = mergeFragment (merged l) e := by
  rw [merged, foldl_append]
  rfl

theorem Merged.push (h : Merged columns (l ++ [a]) (m ++ [last])) (hrows : e.rows ≠ [])
    (hnext : (marks columns).Next a e) (hne : last.key.bytes ≠ e.key.bytes) :
    Merged columns (l ++ [a] ++ [e]) (m ++ [last] ++ [e]) := by
  obtain ⟨hkey, hmore, -⟩ := h.last a (by simp) last (by simp)
  have hlt : (marks columns).Next last e := by
    rcases hnext with ⟨hlt, hn, hp⟩ | ⟨heq, -⟩
    · refine .inl ⟨?_, hmore.trans hn, hp⟩
      show keyPlace columns last.key < keyPlace columns e.key
      rwa [hkey]
    · refine absurd ?_ hne
      rw [hkey]
      exact congrArg (fun p : KeyPlace => (ofLex p).2) heq
  refine ⟨by simp, isChain_concat.mpr ⟨h.chain, by simpa using hlt⟩, by simpa using h.first,
    by simp, ?_, ?_, ?_⟩
  · exact forall_mem_append.mpr ⟨h.rows_ne, forall_mem_singleton.mpr hrows⟩
  · refine forall_mem_append.mpr ⟨fun b hb => ?_, forall_mem_singleton.mpr ⟨e, by simp, rfl⟩⟩
    obtain ⟨x, hx, hxb⟩ := h.keys b hb
    exact ⟨x, mem_append_left _ hx, hxb⟩
  · intro p
    rw [filter_append, flatMap_append, h.rows p, filter_append _ [e], flatMap_append]

theorem Merged.extend (h : Merged columns (l ++ [a]) (m ++ [last])) (hrows : e.rows ≠ [])
    (hsame : a.key = e.key) : Merged columns (l ++ [a] ++ [e]) (m ++ [⟨last.key,
      last.rows ++ e.rows, ⟨last.state.hasPrevious, e.state.hasNext⟩⟩]) := by
  obtain ⟨hkey, -, -⟩ := h.last a (by simp) last (by simp)
  have hlastRows : last.rows ≠ [] := h.rows_ne last (by simp)
  have hhead : (last.rows ++ e.rows).headD 0 = last.rows.headD 0 := by
    rw [headD_eq_head?_getD, headD_eq_head?_getD, head?_append_of_ne_nil _ hlastRows]
  refine ⟨by simp, ?_, ?_, ?_, ?_, ?_, ?_⟩
  · obtain ⟨hchain, hjoin⟩ := isChain_concat.mp h.chain
    refine isChain_concat.mpr ⟨hchain, fun x hx => (hjoin x hx).imp_right ?_⟩
    rintro ⟨heq, hn, hp, hjoins⟩
    exact ⟨heq, hn, hp, fun row hrow => hhead.symm ▸ hjoins row hrow⟩
  · rw [head?_append_of_ne_nil _ (by simp)]
    intro x hx y hy
    cases m with
    | nil =>
      cases hy
      obtain ⟨hk, hp, hr⟩ := h.first x hx last rfl
      exact ⟨hk, hp, hhead.trans hr⟩
    | cons b m =>
      cases hy
      exact h.first x hx _ rfl
  · simp [hkey, hsame, getLast?_append_of_ne_nil _ hrows]
  · exact forall_mem_append.mpr ⟨(forall_mem_append.mp h.rows_ne).1,
      forall_mem_singleton.mpr (append_ne_nil_of_left_ne_nil hlastRows _)⟩
  · refine forall_mem_append.mpr ⟨fun b hb => ?_, forall_mem_singleton.mpr ?_⟩
    · obtain ⟨x, hx, hxb⟩ := h.keys b (mem_append_left _ hb)
      exact ⟨x, mem_append_left _ hx, hxb⟩
    · exact ⟨e, by simp, hkey.trans hsame⟩
  · intro p
    have hp : p e.key = p last.key := by rw [hkey, hsame]
    rw [filter_append, filter_append, flatMap_append, flatMap_append, ← h.rows p]
    cases hkeep : p last.key <;> simp [hp, hkeep]

theorem merged_eq_self (h : l.IsChain fun a b => a.key.bytes ≠ b.key.bytes) : merged l = l := by
  induction l using reverseRecOn with
  | nil => rfl
  | append_singleton l e ih =>
    obtain ⟨hchain, hjoin⟩ := isChain_concat.mp h
    rw [merged_append, ih hchain, mergeFragment]
    cases hlast : l.getLast? with
    | none =>
      rw [getLast?_eq_none_iff.mp hlast]
      rfl
    | some last => simp [hjoin last hlast]

/-- **Merging** keeps the order, the ends and the rows. -/
theorem merged_spec (hrows : ∀ a ∈ l, a.rows ≠ [])
    (hkeys : ∀ a ∈ l, ∀ b ∈ l, a.key.bytes = b.key.bytes → a.key = b.key)
    (hchain : l.IsChain (marks columns).Next) : Merged columns l (merged l) := by
  induction l using reverseRecOn with
  | nil => exact ⟨Iff.rfl, .nil, nofun, nofun, nofun, nofun, fun _ => rfl⟩
  | append_singleton l e ih =>
    obtain ⟨hchainL, hjoin⟩ := isChain_concat.mp hchain
    have h := ih (fun a ha => hrows a (mem_append_left _ ha))
      (fun a ha b hb => hkeys a (mem_append_left _ ha) b (mem_append_left _ hb)) hchainL
    have he : e.rows ≠ [] := hrows e (by simp)
    rw [merged_append, mergeFragment]
    rcases eq_nil_or_concat' l with rfl | ⟨l, a, rfl⟩
    · exact ⟨by simp [merged], isChain_singleton e, by simp [merged], by simp [merged],
        by simpa [merged] using he, by simp [merged], fun p => rfl⟩
    rcases eq_nil_or_concat' (merged (l ++ [a])) with hnil | ⟨m, last, hm⟩
    · exact absurd (h.nil_iff.mp hnil) (by simp)
    rw [hm] at h ⊢
    rw [getLast?_concat]
    by_cases hbytes : last.key.bytes = e.key.bytes
    · have hsame : a.key = e.key := by
        refine hkeys a (by simp) e (by simp) ?_
        rwa [← (h.last a (by simp) last (by simp)).1]
      simpa [hbytes] using h.extend he hsame
    · simpa [hbytes] using h.push he (hjoin a (by simp)) hbytes

end

/-! ## Entries as they are read -/

/-- An entry as it is read. -/
def readBack (e : Entry) : Entry :=
  { e with key := e.key.stored columns }

/-- A key that the reader accepts. -/
def Readable (e : Entry) : Prop := ∀ v ∈ e.key.values, v.isEmpty = false

/-- What is made sure of for every entry before it is written. -/
structure WellFormed (json : Json) (binding : OrderedBinding) (e : Entry) :
    Prop where
  canonical : Canonical json binding.columns e.key
  rows_ne : e.rows ≠ []
  rows_after : RowsAfter binding.sourceRowCount none e.rows
  unique : binding.unique = true → e.key.hasNullComponent = false →
    e.rows.length ≤ 1 ∧ e.state = .complete

/-- What a page says about an entry. -/
def slotOf (e : Entry) : PageSlot :=
  ⟨e.key.bytes, encodePosting e.rows, e.rows.length, entryFlags e.key.hasNullComponent e.state⟩

/-- The state of the reader after entries. -/
def stateOf (l : List Entry) : DecodeState :=
  ⟨merged (l.map (readBack columns)), (l.getLast?.map (·.state)).getD .complete,
    l.getLast?.bind (·.rows.getLast?)⟩

theorem stateOf_append (l : List Entry) (e : Entry) :
    stateOf columns (l ++ [e]) = ⟨mergeFragment (merged (l.map (readBack columns)))
      (readBack columns e), e.state, e.rows.getLast?⟩ := by
  simp [stateOf, map_append, merged_append]

section

variable {std : LowerExp} {json : Json} {binding : OrderedBinding}
  {l : List Entry} {e : Entry}

theorem WellFormed.slotOk (h : WellFormed json binding e) : SlotOk (slotOf e) := by
  have hcols : binding.columns.map (·.source) ≠ [] := by
    rw [ne_eq, map_eq_nil_iff]
    exact binding.columns_ne
  obtain ⟨hpos, hle⟩ := length_encode hcols h.canonical
  exact {
    key_pos := hpos
    key_le := hle
    rows_pos := length_pos_of_ne_nil h.rows_ne
    rows_le := length_le_encodeRows 0 e.rows
    flags_known := (entryFlags_spec _ _).1 }

theorem readBack_key_eq (hwf : ∀ e ∈ l, WellFormed json binding e) (hread : ∀ e ∈ l, Readable e) :
    ∀ a ∈ l.map (readBack binding.columns), ∀ b ∈ l.map (readBack binding.columns),
      a.key.bytes = b.key.bytes → a.key = b.key :=
  forall_mem_map.mpr fun x hx => forall_mem_map.mpr fun y hy =>
    (hwf x hx).canonical.stored_eq (hwf y hy).canonical binding.columns_ne (hread x hx) (hread y hy)

variable (std : LowerExp)

theorem compare_readBack {a b : Entry} (ha : WellFormed json binding a)
    (hb : WellFormed json binding b) (hra : Readable a) (hrb : Readable b) :
    compareOrderedKeys std (readBack binding.columns a).key (readBack binding.columns b).key
        binding.columns =
      .ok (placeCmp ((marks binding.columns).key (readBack binding.columns a))
        ((marks binding.columns).key (readBack binding.columns b))) := by
  have ho := binding.ordered_columns
  have hne := binding.columns_ne
  exact compareOrderedKeys_eq std ((ha.canonical.stored hne hra).admitted ho)
    ((hb.canonical.stored hne hrb).admitted ho) ho

/-- Entries that the reader has accepted. -/
structure Accepts (json : Json) (binding : OrderedBinding) (l : List Entry) :
    Prop where
  wellFormed : ∀ e ∈ l, WellFormed json binding e
  readable : ∀ e ∈ l, Readable e
  chain : (l.map (readBack binding.columns)).IsChain (marks binding.columns).Next

theorem Accepts.getLast_merged (hl : Accepts json binding l) :
    (merged (l.map (readBack binding.columns))).getLast?.map (·.key) =
      l.getLast?.map fun e => (readBack binding.columns e).key := by
  have h := merged_spec (l := l.map (readBack binding.columns))
    (forall_mem_map.mpr fun x hx => (hl.wellFormed x hx).rows_ne)
    (readBack_key_eq hl.wellFormed hl.readable) hl.chain
  cases hl : l.getLast? with
  | none =>
    rw [getLast?_eq_none_iff] at hl
    rw [hl]
    rfl
  | some a =>
    cases hm : (merged (l.map (readBack binding.columns))).getLast? with
    | none =>
      rw [getLast?_eq_none_iff, h.nil_iff, map_eq_nil_iff] at hm
      rw [hm] at hl
      cases hl
    | some b =>
      have hlast := h.last (readBack binding.columns a) (by rw [getLast?_map, hl]; rfl) b hm
      exact congrArg some hlast.1

theorem Accepts.checkOrder_iff (h : Accepts json binding l) (he : WellFormed json binding e)
    (hre : Readable e) :
    checkOrder std binding (stateOf binding.columns l) (readBack binding.columns e).key e.state
        (e.rows.headD 0) = .ok () ↔
      ∀ a ∈ l.getLast?, (marks binding.columns).Next (readBack binding.columns a)
        (readBack binding.columns e) := by
  have hkey := h.getLast_merged
  unfold checkOrder stateOf
  cases hl : l.getLast? with
  | none =>
    rw [hl, Option.map_none, Option.map_eq_none_iff] at hkey
    rw [hkey]
    exact iff_of_true rfl nofun
  | some a =>
    rw [hl, Option.map_some] at hkey
    obtain ⟨b, hb, hbkey⟩ := Option.map_eq_some_iff.mp hkey
    have hmem := mem_of_getLast? hl
    have hcmp := compare_readBack std (h.wellFormed a hmem) he (h.readable a hmem) hre
    simp only [hb, hbkey, hcmp, ok_bind, checkFollows_iff, placeCmp_eq_lt,
      placeCmp_eq_eq, Option.map_some, Option.getD_some, Option.bind_some, Option.mem_def,
      Option.some.injEq, forall_eq']
    rfl

/-- **One entry** of a written page is accepted if its key can be read and comes next. -/
theorem Accepts.decodeSlot_iff (hsource : binding.sourceRowCount ≤ 2 ^ 64)
    (h : Accepts json binding l) (he : WellFormed json binding e) (st : DecodeState) :
    decodeSlot std json binding (stateOf binding.columns l) (slotOf e) = .ok st ↔
      Readable e ∧ (∀ a ∈ l.getLast?, (marks binding.columns).Next (readBack binding.columns a)
        (readBack binding.columns e)) ∧ st = stateOf binding.columns (l ++ [e]) := by
  obtain ⟨-, hnull, hstate⟩ := entryFlags_spec e.key.hasNullComponent e.state
  have hpost := decodePosting_encodePosting hsource he.rows_after
  have hdec := he.canonical.decode_iff binding.columns_ne
  have huniq : ¬ (binding.unique && !e.key.hasNullComponent && (decide (1 < e.rows.length) ||
      e.state.hasPrevious || e.state.hasNext)) = true := by
    intro hbad
    simp only [Bool.and_eq_true, Bool.not_eq_true'] at hbad
    obtain ⟨hone, hcompl⟩ := he.unique hbad.1.1 hbad.1.2
    rw [hcompl, PostingFragmentState.complete] at hbad
    simp only [Bool.or_false, decide_eq_true_eq] at hbad
    omega
  unfold decodeSlot slotOf
  dsimp only [bind, Except.bind]
  rw [hnull, hstate]
  by_cases hre : Readable e
  · simp only [(hdec _).mpr ⟨hre, rfl⟩, ne_eq, not_true_eq_false, if_false, hpost, hre, true_and]
    have hkey : (⟨e.key.bytes, (e.key.stored binding.columns).values, e.key.hasNullComponent⟩ :
        OrderedIndexKey) = (readBack binding.columns e).key := rfl
    rw [← h.checkOrder_iff std he hre, hkey, stateOf_append]
    cases checkOrder std binding (stateOf binding.columns l) (readBack binding.columns e).key
        e.state (e.rows.headD 0) with
    | error err => exact iff_of_false nofun fun h => nomatch h.1
    | ok _ =>
      simp only [true_and]
      rw [if_neg huniq, ok.injEq]
      exact eq_comm
  · refine iff_of_false (fun hok => ?_) fun h => hre h.1
    obtain ⟨r, hd, -⟩ := ok_of_bind hok
    exact hre ((hdec r).mp hd).1

/-- **The entries of a page**, one after the other, from any entry on. -/
theorem foldlM_decodeSlot (hsource : binding.sourceRowCount ≤ 2 ^ 64) {done rest : List Entry}
    (h : Accepts json binding done) (hwf : ∀ e ∈ rest, WellFormed json binding e)
    (st : DecodeState) :
    (rest.map slotOf).foldlM (decodeSlot std json binding) (stateOf binding.columns done) =
        .ok st ↔
      (∀ e ∈ rest, Readable e) ∧
        ((done ++ rest).map (readBack binding.columns)).IsChain (marks binding.columns).Next ∧
        st = stateOf binding.columns (done ++ rest) := by
  induction rest generalizing done with
  | nil =>
    rw [append_nil]
    exact ⟨fun hst => ⟨forall_mem_nil _, h.chain, (ok.inj hst).symm⟩,
      fun h => congrArg ok h.2.2.symm⟩
  | cons e rest ih =>
    obtain ⟨he, hrest⟩ := forall_mem_cons.mp hwf
    have hstep := h.decodeSlot_iff std hsource he
    have hsplit : done ++ e :: rest = (done ++ [e]) ++ rest := by simp
    have hjoined : ((done ++ [e]).map (readBack binding.columns)).IsChain
          (marks binding.columns).Next ↔
        ∀ a ∈ done.getLast?, (marks binding.columns).Next (readBack binding.columns a)
          (readBack binding.columns e) := by
      rw [map_append, map_singleton, isChain_concat, getLast?_map]
      simp [h.chain]
    rw [map_cons, foldlM_cons, forall_mem_cons, hsplit]
    cases hone : decodeSlot std json binding (stateOf binding.columns done) (slotOf e) with
    | error err =>
      refine iff_of_false nofun fun h => ?_
      have hbefore := h.2.1
      rw [map_append] at hbefore
      have hnext := hjoined.mp (isChain_append.mp hbefore).1
      exact nomatch hone.symm.trans ((hstep _).mpr ⟨h.1.1, hnext, rfl⟩)
    | ok st₁ =>
      obtain ⟨hre, hnext, rfl⟩ := (hstep st₁).mp hone
      have hmore : Accepts json binding (done ++ [e]) :=
        ⟨forall_mem_append.mpr ⟨h.wellFormed, forall_mem_singleton.mpr he⟩,
          forall_mem_append.mpr ⟨h.readable, forall_mem_singleton.mpr hre⟩,
          hjoined.mpr hnext⟩
      refine (ih hmore hrest).trans ?_
      rw [and_assoc]
      exact ⟨fun h => ⟨hre, h⟩, fun h => h.2⟩

end

/-! ## Pages of integers -/

section

variable {std : LowerExp} {json : Json} {binding : OrderedBinding} {e : Entry}

/-- An entry as the writer prepares it. -/
def prepareOf (e : Entry) : PreparedEntry := prepare e.key e.rows e.state

/-- An integer with one row. -/
structure Dense (e : Entry) (key : {i : ℤ // InI64 i}) (row : ℕ) : Prop where
  values_eq : e.key.values = [.integer key]
  rows_eq : e.rows = [row]
  state_eq : e.state = .complete
  hasNull_eq : e.key.hasNullComponent = false

theorem dense_of_prepared {k : ℤ} {row : ℕ} (h : denseIntegerEntry (prepareOf e) = some (k, row)) :
    ∃ key : {i : ℤ // InI64 i}, key.1 = k ∧ Dense e key row := by
  unfold denseIntegerEntry at h
  split_ifs at h with hshape
  simp only [not_or, ne_eq, not_not, Bool.not_eq_true] at hshape
  obtain ⟨hcount, hstate, hnull⟩ := hshape
  split at h
  · rename_i key hvalues
    have hone : e.rows.length = 1 := hcount
    have hsingle : (prepareOf e).singleRowOrdinal = e.rows.head? := if_pos ⟨hone, hstate⟩
    obtain ⟨row', hrows⟩ := length_eq_one_iff.mp hone
    rw [hsingle, hrows] at h
    cases h
    exact ⟨key, rfl, hvalues, hrows, hstate, hnull⟩
  · cases h

section

variable {key : {i : ℤ // InI64 i}} {row : ℕ}

theorem Dense.column (h : Dense e key row) (hwf : WellFormed json binding e) :
    ∃ column, binding.columns = [column] ∧ column.logicalType = .integer := by
  have hadm := hwf.canonical.admitted binding.ordered_columns
  rw [h.values_eq] at hadm
  obtain ⟨column, rest, hcol, hrest, hcols⟩ := forall₂_cons_right_iff.mp hadm
  rw [forall₂_nil_right_iff.mp hrest] at hcols
  exact ⟨column, hcols, (hcol.2.resolve_left nofun).symm⟩

theorem Dense.readBack_eq (h : Dense e key row) (hwf : WellFormed json binding e) :
    readBack binding.columns e = e := by
  obtain ⟨column, hcols, -⟩ := h.column hwf
  obtain ⟨⟨bytes, values, hasNull⟩, rows, state⟩ := e
  obtain rfl : values = [.integer key] := h.values_eq
  rw [readBack, OrderedIndexKey.stored, hcols]
  rfl

theorem Dense.readable (h : Dense e key row) : Readable e := by
  intro v hv
  rw [h.values_eq, mem_singleton] at hv
  rw [hv]
  rfl

theorem Dense.length_key (h : Dense e key row) (hwf : WellFormed json binding e) :
    e.key.bytes.length = 16 := by
  obtain ⟨column, hcols, htype⟩ := h.column hwf
  obtain ⟨-, final, hbytes, -, hall⟩ := appendAll_of_encode hwf.canonical
  rw [hcols, h.values_eq] at hall
  obtain ⟨next, ha, hnil⟩ := ok_of_bind hall
  obtain rfl : next = final := ok.inj hnil
  obtain ⟨added, isNull, hc, -, rfl⟩ := append_cases ha
  obtain ⟨hnull, -⟩ | ⟨payload, hp, -, rfl⟩ := component_cases hc
  · cases hnull
  have hinteger : column.source.dataType.logicalType = .integer := htype
  obtain ⟨plain, hplain, hp⟩ := ok_of_bind hp
  rw [hinteger] at hp
  cases hp
  obtain ⟨-, -, -, -, ⟨external, hext, -⟩ | ⟨-, hpayload, -⟩⟩ := appendNonNullValue_cases hplain
  · have hadm := column.source.dataType.admitted
    rw [hext, hinteger] at hadm
    cases hadm.1
  · rw [hinteger] at hpayload
    cases hpayload
    rw [← hbytes]
    simp [CanonicalKeyState.new, length_componentHeader, componentHeaderBytes, length_intBytes,
      aligned]

theorem Dense.fromValues_eq (h : Dense e key row) (hwf : WellFormed json binding e) :
    OrderedIndexKey.fromValues json binding.columns [.integer key] = .ok e.key := by
  have hcanon : encodeCanonicalKeySpecs json (binding.columns.map (·.source)) e.key.values =
      .ok (e.key.bytes, e.key.hasNullComponent) := hwf.canonical
  rw [← h.values_eq]
  simp only [OrderedIndexKey.fromValues, binding.ordered, hcanon, ok_bind]

end

/-- What the steps of a page of integers are. -/
structure ProgressionOk (p : Progression) (count : ℕ) : Prop where
  firstKey : InI64 p.firstKey
  keyStep : InI64 p.keyStep
  rowStep : InI64 p.rowStep
  steps : 1 < count → p.keyStep ≠ 0 ∧ p.rowStep ≠ 0

variable {group : List Entry} {p : Progression}

theorem progressionOf_ok (h : progressionOf (group.map prepareOf) = some p) :
    ProgressionOk p group.length := by
  have hzero : InI64 0 := by decide
  cases group with
  | nil => cases h
  | cons first rest =>
    cases rest with
    | nil =>
      simp only [map_cons, map_nil, progressionOf, bind, Option.bind_eq_some_iff] at h
      obtain ⟨⟨k, row⟩, hfirst, hp⟩ := h
      cases hp
      obtain ⟨key, rfl, -⟩ := dense_of_prepared hfirst
      exact ⟨key.2, hzero, hzero, fun h => absurd h (lt_irrefl 1)⟩
    | cons second rest =>
      simp only [map_cons, progressionOf, bind, Option.bind_eq_some_iff] at h
      obtain ⟨⟨k, row⟩, hfirst, ⟨k', row'⟩, -, keyStep, -, rowStep, -, hp⟩ := h
      split_ifs at hp with hsteps
      cases hp
      obtain ⟨key, rfl, -⟩ := dense_of_prepared hfirst
      exact ⟨key.2, keyStep.2, rowStep.2, fun _ => not_or.mp hsteps⟩

theorem dense_of_has {ordinal : ℕ} (h : p.has (prepareOf e) ordinal = true) :
    ∃ key row, Dense e key row ∧ checkedI64Progression p.firstKey p.keyStep ordinal = some key ∧
      checkedU64Progression p.firstRow p.rowStep ordinal = some row := by
  unfold Progression.has at h
  split at h
  · cases h
  rename_i k row hentry
  simp only [Bool.and_eq_true, beq_iff_eq] at h
  obtain ⟨key, rfl, hdense⟩ := dense_of_prepared hentry
  obtain ⟨key', hkey', heq⟩ := Option.map_eq_some_iff.mp h.1
  rw [Subtype.ext heq] at hkey'
  exact ⟨key, row, hdense, hkey', h.2⟩

theorem dense_of_hasAll {ordinal : ℕ} (h : p.hasAll (group.map prepareOf) ordinal = true) :
    ∀ e ∈ group, ∃ key row, Dense e key row := by
  induction group generalizing ordinal with
  | nil => exact forall_mem_nil _
  | cons e group ih =>
    rw [map_cons, Progression.hasAll, Bool.and_eq_true] at h
    obtain ⟨key, row, he, -⟩ := dense_of_has h.1
    exact forall_mem_cons.mpr ⟨⟨key, row, he⟩, ih h.2⟩

variable (std : LowerExp)

/-- The key that comes next among integers, as it is compared. -/
theorem orderAfterLast_eq {done : List Entry} {key : {i : ℤ // InI64 i}} {row : ℕ}
    (hwf : ∀ a ∈ done, WellFormed json binding a) (hdone : ∀ a ∈ done, a.state = .complete)
    (he : WellFormed json binding e) (hdense : Dense e key row) :
    ∃ order, orderAfterLast std binding done e.key = .ok order ∧
      (order = .lt ↔ ∀ a ∈ done.getLast?, (marks binding.columns).Next a e) := by
  unfold orderAfterLast
  cases hlast : done.getLast? with
  | none => exact ⟨.lt, rfl, iff_of_true rfl nofun⟩
  | some a =>
    have hmem := mem_of_getLast? hlast
    refine ⟨_, compareOrderedKeys_eq std ((hwf a hmem).canonical.admitted binding.ordered_columns)
      (he.canonical.admitted binding.ordered_columns) binding.ordered_columns, ?_⟩
    simp [placeCmp_eq_lt, Marks.Next, Marks.Continues, marks, hdone a hmem, hdense.state_eq,
      PostingFragmentState.complete]

/-- **The integers of a page** are made one after the other, if they are in order. -/
theorem denseEntries_iff (done decoded : List Entry) {rest : List Entry}
    (hwf : ∀ e ∈ done ++ rest, WellFormed json binding e) (hdone : ∀ e ∈ done, e.state = .complete)
    (hchain : done.IsChain (marks binding.columns).Next)
    (hall : p.hasAll (rest.map prepareOf) done.length = true) :
    denseEntries std json binding p rest.length done.length done = .ok decoded ↔
      (done ++ rest).IsChain (marks binding.columns).Next ∧ decoded = done ++ rest := by
  induction rest generalizing done with
  | nil =>
    rw [append_nil]
    exact ⟨fun h => ⟨hchain, (ok.inj h).symm⟩, fun h => congrArg ok h.2.symm⟩
  | cons e rest ih =>
    rw [map_cons, Progression.hasAll, Bool.and_eq_true] at hall
    obtain ⟨key, row, hdense, hkey, hrow⟩ := dense_of_has hall.1
    have he : WellFormed json binding e := hwf e (by simp)
    have hlt : row < binding.sourceRowCount := by
      have hrows := he.rows_after
      rw [hdense.rows_eq] at hrows
      exact hrows.2.1
    have hfilter : (some row).filter (fun row => decide (row < binding.sourceRowCount)) =
        some row := by
      simp [Option.filter, hlt]
    obtain ⟨order, horder, hnext⟩ :=
      orderAfterLast_eq std (fun a ha => hwf a (mem_append_left _ ha)) hdone he hdense
    have hentry : (⟨e.key, [row], .complete⟩ : Entry) = e := by
      rw [← hdense.rows_eq, ← hdense.state_eq]
    simp only [length_cons, denseEntries, hkey, hrow, hfilter, hdense.fromValues_eq he, ok_bind,
      horder, hentry]
    split_ifs with hne
    · refine iff_of_false nofun fun h => hne (hnext.mpr fun a ha => ?_)
      exact (isChain_append.mp h.1).2.2 a ha e rfl
    · have hsplit : done ++ e :: rest = (done ++ [e]) ++ rest := by simp
      rw [hsplit] at hwf ⊢
      have hmore := ih (done ++ [e]) hwf
        (forall_mem_append.mpr ⟨hdone, forall_mem_singleton.mpr hdense.state_eq⟩)
        (isChain_concat.mpr ⟨hchain, hnext.mp (not_not.mp hne)⟩)
        (by rw [length_append]; exact hall.2)
      rwa [length_append, length_singleton] at hmore

/-- The fields of a page of integers. -/
def denseFields (crc : Crc) (count : ℕ) (p : Progression) : List (ℕ × ℕ) :=
  [(4, Bytes.leNat denseIntegerPageMagic), (2, denseIntegerPageVersion), (2, 0), (4, count), (4, 0),
    (8, (p.firstKey % (256 ^ 8 : ℕ)).toNat), (8, (p.keyStep % (256 ^ 8 : ℕ)).toNat),
    (8, p.firstRow), (8, (p.rowStep % (256 ^ 8 : ℕ)).toNat),
    (4, (crc (denseBody count p)).toNat), (4, 0)]

section

variable {crc : Crc} {count : ℕ} {p : Progression}

theorem denseBytes_eq_fields (crc : Crc) (count : ℕ) (p : Progression) :
    denseBytes crc count p = Bytes.fields (denseFields crc count p) := by
  have hmagic : leBytes 4 (leNat denseIntegerPageMagic) = denseIntegerPageMagic :=
    leBytes_leNat denseIntegerPageMagic
  simp [denseBytes, denseBody, denseFields, fields, hmagic, intBytes]

theorem denseBody_at : ((denseBytes crc count p).drop 8).take 40 = denseBody count p := by
  have hhead : (denseIntegerPageMagic ++ leBytes 2 denseIntegerPageVersion ++
      leBytes 2 0).length = 8 := rfl
  have hbody : (denseBody count p).length = 40 := by
    simp [denseBody, length_leBytes, length_intBytes]
  rw [denseBytes, append_assoc, append_assoc _ (denseBody count p),
    drop_left' hhead, take_left' hbody]

/-- **The fields of a page of integers** are read back. -/
theorem denseBytes_read (crc : Crc) (hcount : count < 2 ^ 32)
    (hrow : p.firstRow < 2 ^ 64) (hp : ProgressionOk p count) :
    let page := denseBytes crc count p
    page.length = denseIntegerPageBytes ∧ readWord 2 page 4 = denseIntegerPageVersion ∧
      readWord 2 page 6 = 0 ∧ readWord 4 page 8 = count ∧ readWord 4 page 12 = 0 ∧
      leInt ((page.drop 16).take 8) = p.firstKey ∧
      leInt ((page.drop 24).take 8) = p.keyStep ∧ readWord 8 page 32 = p.firstRow ∧
      leInt ((page.drop 40).take 8) = p.rowStep ∧
      readWord 4 page 48 = (crc (denseBody count p)).toNat ∧ readWord 4 page 52 = 0 := by
  have hword := readWord_record (denseBytes_eq_fields crc count p)
  have hint : ∀ i {j : ℤ}, InI64 j →
      (denseFields crc count p)[i]? = some (8, (j % (256 ^ 8 : ℕ)).toNat) →
      leInt (((denseBytes crc count p).drop
        (fieldOffset (denseFields crc count p) i)).take 8) = j := by
    intro i j hj hi
    rw [← append_nil (denseBytes crc count p), denseBytes_eq_fields, take_drop_fields [] hi]
    exact leInt_intBytes_of_inI64 hj
  refine ⟨?_, hword 1 rfl (by decide), hword 2 rfl (by decide), hword 3 rfl hcount,
    hword 4 rfl (by decide), hint 5 hp.firstKey rfl, hint 6 hp.keyStep rfl, hword 7 rfl hrow,
    hint 8 hp.rowStep rfl, hword 9 rfl (crc (denseBody count p)).toNat_lt,
    hword 10 rfl (by decide)⟩
  rfl

end

variable {codec : IndexPageCodec} {crc : Crc} {page : IndexPageSpec}

theorem encodeDense_eq
    (h : encodeDenseIntegerPage crc codec (group.map prepareOf) = .ok (some page)) :
    ∃ p, ProgressionOk p group.length ∧ p.hasAll (group.map prepareOf) 0 = true ∧
      page.logicalBytes = denseBytes crc group.length p ∧ page.itemCount = group.length ∧
      page.minimumKeyHash = minimumHash (group.map (·.key.bytes)) ∧
      page.maximumKeyHash = maximumHash (group.map (·.key.bytes)) ∧
      0 < group.length ∧ group.length ≤ maxEntriesPerIndexPage := by
  unfold encodeDenseIntegerPage at h
  split at h
  · cases h
  rename_i p hp
  split_ifs at h with hall
  · rw [length_map, map_map] at h
    obtain ⟨made, hspec, h⟩ := ok_of_bind h
    cases h
    obtain ⟨rfl, hcount, hmax, -⟩ := newPageSpec_eq hspec
    exact ⟨p, progressionOf_ok hp, hall, rfl, rfl, rfl, rfl, Nat.pos_of_ne_zero hcount, hmax⟩
  · cases h

/-- **A page of integers** is decoded if it is within the limit on memory and in order, to its
entries. -/
theorem decodeDense_iff (sizes : DecodeSizes) (hwf : ∀ e ∈ group, WellFormed json binding e)
    (h : encodeDenseIntegerPage crc codec (group.map prepareOf) = .ok (some page))
    (decoded : List Entry) :
    decodeDenseIntegerPage crc std json sizes binding page page.logicalBytes = .ok decoded ↔
      denseAllocation sizes page.itemCount ≤ maxPageDecodeBytes ∧
        group.IsChain (marks binding.columns).Next ∧ decoded = group := by
  obtain ⟨p, hp, hall, hbytes, hitems, hmin, hmax, hpos, hcount⟩ := encodeDense_eq h
  obtain ⟨first, rest, rfl⟩ := exists_cons_of_length_pos hpos
  obtain ⟨hfirst, -⟩ : p.has (prepareOf first) 0 = true ∧ _ := by
    simpa only [map_cons, Progression.hasAll, Bool.and_eq_true] using hall
  obtain ⟨key, row, hdense, -, hrow⟩ := dense_of_has hfirst
  have hfirstRow : p.firstRow < 2 ^ 64 := by
    unfold checkedU64Progression at hrow
    dsimp only at hrow
    split_ifs at hrow with hbds
    omega
  have htypes : binding.columns.map (·.logicalType) = [.integer] := by
    obtain ⟨column, hcols, htype⟩ := hdense.column (hwf first mem_cons_self)
    rw [hcols, map_singleton, htype]
  have hsmall : (first :: rest).length < 2 ^ 32 := by
    rw [maxEntriesPerIndexPage] at hcount
    omega
  obtain ⟨hlen, h4, h6, h8, h12, h16, h24, h32, h40, h48, h52⟩ :=
    denseBytes_read crc hsmall hfirstRow hp
  have hents := fun d => denseEntries_iff std [] d hwf nofun .nil hall
  have hrange : ¬ ((first :: rest).length = 0 ∨
      maxEntriesPerIndexPage < (first :: rest).length) := by
    omega
  have hsteps : ¬ (1 < (first :: rest).length ∧ (p.keyStep = 0 ∨ p.rowStep = 0)) := fun hbad =>
    not_or.mpr (hp.steps hbad.1) hbad.2
  simp only [decodeDenseIntegerPage, hbytes, hlen, h4, h6, h8, h12, h16, h24, h32, h40, h48, h52,
    hitems, htypes, denseBody_at, ne_eq, not_true_eq_false, false_or, or_self, if_false,
    if_neg hrange, if_neg hsteps]
  rw [length_nil, nil_append] at hents
  split_ifs with hlimit
  · exact iff_of_false nofun fun h => hlimit.not_ge h.1
  · cases hd : denseEntries std json binding p (first :: rest).length 0 [] with
    | error e => exact iff_of_false nofun fun h => nomatch hd.symm.trans ((hents _).mpr h.2)
    | ok d =>
      obtain ⟨hchain, rfl⟩ := (hents d).mp hd
      rw [ok_bind, hmin, hmax, if_neg (by simp)]
      exact ⟨fun h => ⟨not_lt.mp hlimit, hchain, (ok.inj h).symm⟩, fun h => congrArg ok h.2.2.symm⟩

end

/-! ## Pages -/

/-- A page that was written, and the entries that it holds. -/
structure PageOf (crc : Crc) (json : Json) (binding : OrderedBinding)
    (group : List Entry) (page : IndexPageSpec) : Prop where
  wellFormed : ∀ e ∈ group, WellFormed json binding e
  chain : group.IsChain (marks binding.columns).Next
  encoded : ∃ codec, encodePage crc codec (group.map prepareOf) (keyArea (group.map slotOf)).length
    (postingArea (group.map slotOf)).length = .ok page

/-- Does the page pass the reader's check of the memory it takes? -/
def WithinMemory (sizes : DecodeSizes) (binding : OrderedBinding) (page : IndexPageSpec) : Prop :=
  if page.logicalBytes.take 4 = denseIntegerPageMagic then
    denseAllocation sizes page.itemCount ≤ maxPageDecodeBytes
  else
    validateDecodeAllocation orderedKind
      (decodeBase sizes binding page.itemCount (readWord 8 page.logicalBytes 16))
      page.logicalBytes page.itemCount = .ok ()

/-- When a written page can be decoded, and to which entries. -/
def DecodesTo (sizes : DecodeSizes) (binding : OrderedBinding) (group : List Entry)
    (page : IndexPageSpec) (decoded : List Entry) : Prop :=
  (∀ e ∈ group, Readable e) ∧
    (group.map (readBack binding.columns)).IsChain (marks binding.columns).Next ∧
    WithinMemory sizes binding page ∧ decoded = merged (group.map (readBack binding.columns))

variable {crc : Crc} {std : LowerExp} {json : Json}
  {sizes : DecodeSizes} {binding : OrderedBinding} {group : List Entry} {page : IndexPageSpec}

theorem withinMemory_iff (hwritten : Written orderedKind crc (group.map slotOf) page) :
    WithinMemory sizes binding page ↔ ¬ maxPageDecodeBytes < decodedBytes
      (decodeBase sizes binding (group.map slotOf).length (keyArea (group.map slotOf)).length)
      (group.map slotOf) := by
  obtain ⟨hmagic, -, -, -, -, hkeys, -⟩ := hwritten.readWord_page
  have hnot : ¬ page.logicalBytes.take 4 = denseIntegerPageMagic := by
    rw [hmagic]
    decide
  rw [WithinMemory, if_neg hnot, hwritten.page_eq.2.1, hkeys, hwritten.allocation_eq]
  split_ifs with hlimit
  · exact iff_of_false nofun (not_not.mpr hlimit)
  · exact iff_of_true rfl hlimit

theorem decode_iff_of_written (hwf : ∀ e ∈ group, WellFormed json binding e)
    (hwritten : Written orderedKind crc (group.map slotOf) page)
    (hsource : binding.sourceRowCount ≤ 2 ^ 64) (decoded : List Entry) :
    decodeOrderedIndexPage crc std json sizes binding page page.logicalBytes = .ok decoded ↔
      DecodesTo sizes binding group page decoded := by
  have hnot : ¬ page.logicalBytes.take 4 = denseIntegerPageMagic := by
    rw [hwritten.readWord_page.1]
    decide
  have hfold := foldlM_decodeSlot std hsource
    ⟨forall_mem_nil _, forall_mem_nil _, .nil⟩ hwf
  rw [DecodesTo, withinMemory_iff hwritten, decodeOrderedIndexPage, if_neg (not_not.mpr rfl),
    if_neg hnot]
  simp only [hwritten.readAreas_eq (Nat.le_refl 1), ok_bind, hwritten.visitPageEntries_eq,
    show (areasOf (group.map slotOf)).keyLength = (keyArea (group.map slotOf)).length from rfl]
  split_ifs with hlimit
  · exact iff_of_false nofun fun h => h.2.2.1 hlimit
  · cases hst : (group.map slotOf).foldlM (decodeSlot std json binding) DecodeState.new with
    | error e =>
      refine iff_of_false nofun fun h => ?_
      exact nomatch hst.symm.trans ((hfold _).mpr ⟨h.1, h.2.1, rfl⟩)
    | ok st =>
      obtain ⟨hread, hchain, rfl⟩ := (hfold st).mp hst
      exact ⟨fun h => ⟨hread, hchain, hlimit, (ok.inj h).symm⟩,
        fun h => congrArg ok h.2.2.2.symm⟩

theorem decode_iff_of_dense (hwf : ∀ e ∈ group, WellFormed json binding e) {codec : IndexPageCodec}
    (hdense : encodeDenseIntegerPage crc codec (group.map prepareOf) = .ok (some page))
    (decoded : List Entry) :
    decodeOrderedIndexPage crc std json sizes binding page page.logicalBytes = .ok decoded ↔
      DecodesTo sizes binding group page decoded := by
  obtain ⟨p, -, hall, hbytes, -⟩ := encodeDense_eq hdense
  have hmagic : page.logicalBytes.take 4 = denseIntegerPageMagic := by
    rw [hbytes]
    rfl
  have hents : ∀ e ∈ group, ∃ key row, Dense e key row := fun e he =>
    dense_of_hasAll hall e he
  have hread : ∀ e ∈ group, Readable e := fun e he => by
    obtain ⟨key, row, he⟩ := hents e he
    exact he.readable
  have hsame : group.map (readBack binding.columns) = group := by
    refine (map_congr_left fun e he => ?_).trans (map_id group)
    obtain ⟨key, row, hdense⟩ := hents e he
    exact hdense.readBack_eq (hwf e he)
  have hmerge : group.IsChain (marks binding.columns).Next → merged group = group := by
    refine fun hchain => merged_eq_self (List.IsChain.imp_of_mem_imp ?_ hchain)
    intro a b ha hb hnext heq
    have hkey := readBack_key_eq hwf hread a (by rwa [hsame]) b (by rwa [hsame]) heq
    rcases hnext with ⟨hlt, -⟩ | ⟨-, -, hprev, -⟩
    · refine absurd hlt ?_
      show ¬ keyPlace binding.columns a.key < keyPlace binding.columns b.key
      rw [hkey]
      exact lt_irrefl _
    · obtain ⟨key, row, hdense⟩ := hents b hb
      have hfirst : b.state.hasPrevious = true := hprev
      rw [hdense.state_eq] at hfirst
      cases hfirst
  rw [DecodesTo, hsame, WithinMemory, if_pos hmagic, decodeOrderedIndexPage,
    if_neg (not_not.mpr rfl), if_pos hmagic, decodeDense_iff std sizes hwf hdense]
  constructor
  · rintro ⟨hlimit, hchain, rfl⟩
    exact ⟨hread, hchain, hlimit, (hmerge hchain).symm⟩
  · rintro ⟨-, hchain, hlimit, rfl⟩
    exact ⟨hlimit, hchain, hmerge hchain⟩

namespace PageOf

section

variable (h : PageOf crc json binding group page)

include h

theorem layout :
    (∃ codec, encodeDenseIntegerPage crc codec (group.map prepareOf) = .ok (some page)) ∨
      Written orderedKind crc (group.map slotOf) page := by
  obtain ⟨codec, henc⟩ := h.encoded
  obtain ⟨made, hdense, henc⟩ := ok_of_bind henc
  cases made with
  | some made =>
    cases henc
    exact .inl ⟨codec, hdense⟩
  | none =>
    refine .inr ⟨fun slot hslot => ?_, codec, ?_⟩
    · obtain ⟨e, he, rfl⟩ := mem_map.mp hslot
      exact WellFormed.slotOk (h.wellFormed e he)
    · have hslots : (group.map prepareOf).map PreparedEntry.slot = group.map slotOf := by
        rw [map_map]
        rfl
      rw [← hslots] at henc ⊢
      exact henc

/-- **Decoding a written page.** -/
theorem decode_iff (hsource : binding.sourceRowCount ≤ 2 ^ 64) (decoded : List Entry) :
    decodeOrderedIndexPage crc std json sizes binding page page.logicalBytes = .ok decoded ↔
      DecodesTo sizes binding group page decoded := by
  rcases h.layout with ⟨codec, hdense⟩ | hwritten
  · exact decode_iff_of_dense h.wellFormed hdense decoded
  · exact decode_iff_of_written h.wellFormed hwritten hsource decoded

end

end PageOf

/-! ## One meaning -/

/-- The entry that a progression has at a place, computed without wrap-around. -/
def Progression.IsTerm (p : Progression) (binding : OrderedBinding) (i : ℕ) (e : Entry) : Prop :=
  ∃ (key : {k : ℤ // InI64 k}) (row : ℕ), e.key.values = [.integer key] ∧ e.rows = [row] ∧
    key.1 = p.firstKey + p.keyStep * i ∧ row = p.firstRow + p.rowStep * i ∧
    row < binding.sourceRowCount ∧ row < 2 ^ 64

theorem denseEntries_terms {p : Progression} {count ordinal : ℕ} {done decoded : List Entry}
    (h : denseEntries std json binding p count ordinal done = .ok decoded) :
    ∃ more, decoded = done ++ more ∧
      Forall₂ (p.IsTerm binding) (range' ordinal count) more := by
  induction count generalizing ordinal done with
  | zero =>
    cases h
    exact ⟨[], (append_nil _).symm, .nil⟩
  | succ count ih =>
    rw [denseEntries] at h
    split at h
    · cases h
    rename_i key hkey
    split at h
    · cases h
    rename_i row hrow
    obtain ⟨hrow, hlt⟩ := Option.filter_eq_some_iff.mp hrow
    obtain ⟨made, hmade, h⟩ := ok_of_bind h
    obtain ⟨order, -, h⟩ := ok_of_bind h
    split_ifs at h
    obtain ⟨more, rfl, hmore⟩ := ih h
    refine ⟨_ :: more, append_assoc _ _ _, .cons ⟨key, row, ?_, rfl, ?_, ?_⟩ hmore⟩
    · obtain ⟨-, -, hmade⟩ := ok_of_bind hmade
      obtain ⟨r, -, hmade⟩ := ok_of_bind hmade
      cases hmade
      rfl
    · simp only [checkedI64Progression, checkedI64, Option.bind_eq_bind, Option.bind_eq_some_iff,
        Option.dite_none_right_eq_some, Option.some.injEq] at hkey
      obtain ⟨_, ⟨-, rfl⟩, _, ⟨-, rfl⟩, -, rfl⟩ := hkey
      rfl
    · simp only [checkedU64Progression, Option.ite_none_right_eq_some, Option.some.injEq] at hrow
      obtain ⟨hrange, rfl⟩ := hrow
      exact ⟨Int.toNat_of_nonneg hrange.1, of_decide_eq_true hlt, by omega⟩

/-- The sizes of the reader's types admit a full page of integers with one row each, in either
layout. The page of integers counts a key for an entry, the other the bytes of it twice, which is
32, and each of them 8 bytes for the row. -/
def Fits (sizes : DecodeSizes) : Prop :=
  maxEntriesPerIndexPage * (sizes.pageEntry + sizes.key + sizes.value + 40) ≤ maxPageDecodeBytes

section

variable {codec : IndexPageCodec} (hfits : Fits sizes)
  (hdense : encodeDenseIntegerPage crc codec (group.map prepareOf) = .ok (some page))

include hfits hdense

theorem dense_withinMemory : WithinMemory sizes binding page := by
  obtain ⟨p, -, -, hbytes, hitems, -, -, -, hcount⟩ := encodeDense_eq hdense
  have hmagic : page.logicalBytes.take 4 = denseIntegerPageMagic := by
    rw [hbytes]
    rfl
  rw [WithinMemory, if_pos hmagic, hitems]
  exact (Nat.mul_le_mul hcount (by omega)).trans hfits

theorem plain_withinMemory {plain : IndexPageSpec} (hwf : ∀ e ∈ group, WellFormed json binding e)
    (hwritten : Written orderedKind crc (group.map slotOf) plain) :
    WithinMemory sizes binding plain := by
  obtain ⟨p, -, hall, -, -, -, -, hpos, hcount⟩ := encodeDense_eq hdense
  have hone : binding.columns.length = 1 := by
    obtain ⟨e, he⟩ := exists_mem_of_length_pos hpos
    obtain ⟨key, row, hd⟩ := dense_of_hasAll hall e he
    obtain ⟨column, hcols, -⟩ := hd.column (hwf e he)
    rw [hcols, length_singleton]
  have hlengths : ∀ l ⊆ group, (keyArea (l.map slotOf)).length = l.length * 16 ∧
      ((l.map slotOf).map fun slot => slot.rowCount * 8).sum = l.length * 8 := by
    intro l hl
    induction l with
    | nil => exact ⟨rfl, rfl⟩
    | cons e l ih =>
      obtain ⟨he, hl⟩ := cons_subset.mp hl
      obtain ⟨key, row, hd⟩ := dense_of_hasAll hall e he
      have hrow : (slotOf e).rowCount = 1 := by
        rw [slotOf, hd.rows_eq]
        rfl
      have hkey : (slotOf e).key.length = 16 := hd.length_key (hwf e he)
      obtain ⟨ihk, ihr⟩ := ih hl
      rw [keyArea] at ihk
      rw [map_cons, map_cons, sum_cons, ihr, hrow, keyArea, flatMap_cons, length_append, ihk, hkey,
        length_cons]
      omega
  obtain ⟨hkeys, hrows⟩ := hlengths group (Subset.refl _)
  rw [withinMemory_iff hwritten, not_lt, decodedBytes, decodeBase, hkeys, hrows, hone, length_map]
  calc group.length * sizes.pageEntry + group.length * 16 * 2 + group.length * 1 * sizes.value +
        group.length * 8
      = group.length * (sizes.pageEntry + sizes.value + 40) := by ring
    _ ≤ maxEntriesPerIndexPage * (sizes.pageEntry + sizes.key + sizes.value + 40) :=
        Nat.mul_le_mul hcount (by omega)
    _ ≤ maxPageDecodeBytes := hfits

end

/-- **A page of integers means what the page would mean that lists them**: the two are decoded to
the same entries, or neither is, since the entries are out of order. What is accepted as a page of
integers, whoever wrote it, is on progressions without wrap-around. -/
theorem dense_means_plain (std : LowerExp) {sizes : DecodeSizes} (hfits : Fits sizes)
    (hsource : binding.sourceRowCount ≤ 2 ^ 64) :
    (∀ (group : List Entry) codec dense plain, (∀ e ∈ group, WellFormed json binding e) →
      encodeDenseIntegerPage crc codec (group.map prepareOf) = .ok (some dense) →
      IndexPage.encodePage orderedKind crc codec (group.map slotOf)
        (keyArea (group.map slotOf)).length (postingArea (group.map slotOf)).length = .ok plain →
      ∀ decoded,
        decodeOrderedIndexPage crc std json sizes binding dense dense.logicalBytes = .ok decoded ↔
          decodeOrderedIndexPage crc std json sizes binding plain plain.logicalBytes =
            .ok decoded) ∧
    ∀ page logical decoded,
      decodeDenseIntegerPage crc std json sizes binding page logical = .ok decoded →
        Forall₂ (Progression.IsTerm ⟨leInt ((logical.drop 16).take 8),
          leInt ((logical.drop 24).take 8), readWord 8 logical 32,
          leInt ((logical.drop 40).take 8)⟩ binding) (range (readWord 4 logical 8)) decoded := by
  refine ⟨fun group codec dense plain hwf hdense hplain decoded => ?_,
    fun page logical decoded h => ?_⟩
  · have hwritten : Written orderedKind crc (group.map slotOf) plain :=
      ⟨forall_mem_map.mpr fun e he => (hwf e he).slotOk, codec, hplain⟩
    rw [decode_iff_of_dense hwf hdense, decode_iff_of_written hwf hwritten hsource, DecodesTo,
      DecodesTo, iff_true_intro (dense_withinMemory hfits hdense),
      iff_true_intro (plain_withinMemory hfits hdense hwf hwritten)]
  · unfold decodeDenseIntegerPage at h
    dsimp only at h
    split_ifs at h
    obtain ⟨entries, hents, h⟩ := ok_of_bind h
    split_ifs at h
    cases h
    obtain ⟨more, rfl, hmore⟩ := denseEntries_terms hents
    rwa [range_eq_range']

/-- A descending index on integers, over three rows. -/
def descendingBinding : OrderedBinding := ⟨[⟨integerColumn, .descending, .last⟩], false, 3, rfl⟩

def smallKey (b : UInt8) : OrderedIndexKey :=
  ⟨[1, 1, 0, 0, 8, 0, 0, 0, b, 0, 0, 0, 0, 0, 0, 0],
    [.integer ⟨b.toNat, by
      have hb := b.toNat_lt
      unfold InI64 I64.minValue I64.maxValue
      omega⟩], false⟩

/-- The integers 42, 35 and 28, a row each, from the last row to the first. -/
def fallingEntries : List Entry :=
  [⟨smallKey 42, [2], .complete⟩, ⟨smallKey 35, [1], .complete⟩, ⟨smallKey 28, [0], .complete⟩]

theorem dense_means_plain_falling : ∃ dense plain,
    encodeDenseIntegerPage (fun _ => 0) .none (fallingEntries.map prepareOf) = .ok (some dense) ∧
      IndexPage.encodePage orderedKind (fun _ => 0) .none (fallingEntries.map slotOf) 48 3 =
        .ok plain ∧
      ∀ decoded, decodeOrderedIndexPage (fun _ => 0) .reference (fun _ => none) ⟨64, 64, 32⟩
          descendingBinding dense dense.logicalBytes = .ok decoded ↔
        decodeOrderedIndexPage (fun _ => 0) .reference (fun _ => none) ⟨64, 64, 32⟩
          descendingBinding plain plain.logicalBytes = .ok decoded := by
  have hwf : ∀ e ∈ fallingEntries, WellFormed (fun _ => none) descendingBinding e := by
    refine forall_mem_cons.mpr ⟨?_, forall_mem_cons.mpr ⟨?_, forall_mem_singleton.mpr ?_⟩⟩
    all_goals exact ⟨rfl, nofun, ⟨nofun, by decide, trivial⟩, nofun⟩
  have hfits : Fits ⟨64, 64, 32⟩ := by
    unfold Fits
    decide
  obtain ⟨dense, hdense⟩ : ∃ dense, encodeDenseIntegerPage (fun _ => 0) .none
      (fallingEntries.map prepareOf) = .ok (some dense) := ⟨_, rfl⟩
  have hok : (IndexPage.encodePage orderedKind (fun _ => 0) .none (fallingEntries.map slotOf) 48
      3).toBool = true := by
    decide +kernel
  cases hplain : IndexPage.encodePage orderedKind (fun _ => 0) .none (fallingEntries.map slotOf) 48
      3 with
  | error e =>
    rw [hplain] at hok
    cases hok
  | ok plain =>
    exact ⟨dense, plain, hdense, rfl, (dense_means_plain .reference hfits (by decide)).1
      fallingEntries .none dense plain hwf hdense hplain⟩

end OrderedPage

end RadixDb
