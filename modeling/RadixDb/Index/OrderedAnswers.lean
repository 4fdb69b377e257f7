import RadixDb.Index.OrderedPageRead
import RadixDb.Index.OrderedScan

/-!
# What scans of an ordered index answer

Let all pages decode, and let their entries be in order across pages (`Decoded`). Entries before the
lower bound come first and entries after the upper bound come last, so a forward scan may start at
the first page that does not end before the lower bound and may end at the first entry after the
upper bound; a reverse scan is the same the other way round.

Both are one loop. What it has found after some rows depends on the rows only (`stateAfter`), and
it gives what it would give if it went on to the end (`scanPages_spec`). So **a scan gives the rows
of the entries within the bounds, in its direction, without the first `offset` and at most `limit`**
(`scan_eq`).

A scan without bounds whose limit is not reached reads every page and checks every boundary: if it
succeeds, all pages decode and are in order (`scan_reads_all`).
-/

namespace RadixDb.OrderedScan

open List Option Nat Bool Except IndexPage OrderedPage

/-! ## Rows -/

/-- The state of a scan that has found the rows so far. -/
def stateAfter (offset limit : ℕ) (rows : List ℕ) : ScanState :=
  ⟨offset - rows.length, (rows.drop offset).take limit⟩

variable (offset limit : ℕ)

theorem stateAfter_nil : stateAfter offset limit [] = ⟨offset, []⟩ := by
  simp [stateAfter]

section

variable {offset limit : ℕ}

/-- Once the limit is reached, more rows do not count. -/
theorem output_of_full {rows : List ℕ}
    (hfull : (stateAfter offset limit rows).output.length = limit) (more : List ℕ) :
    (stateAfter offset limit (rows ++ more)).output = (stateAfter offset limit rows).output := by
  have hlen : limit ≤ (rows.drop offset).length := by
    rw [stateAfter, length_take] at hfull
    omega
  rw [stateAfter, stateAfter, drop_append, take_append_of_le_length hlen]

/-- **Rows are added** to what was found. -/
theorem appendRows_eq (rows more : List ℕ) :
    appendRows limit more (stateAfter offset limit rows) =
      stateAfter offset limit (rows ++ more) := by
  induction more generalizing rows with
  | nil => rw [append_nil]; rfl
  | cons row more ih =>
    rw [appendRows, append_cons rows]
    by_cases hskip : rows.length < offset
    · have hnone : rows.drop offset = [] := drop_eq_nil_of_le hskip.le
      have hnone' : (rows ++ [row]).drop offset = [] := drop_eq_nil_of_le (length_append ▸ hskip)
      rw [if_pos (show 0 < (stateAfter ..).offset from Nat.sub_pos_of_lt hskip), ← ih]
      simp [stateAfter, hnone, hnone', sub_add_eq]
    · rw [not_lt] at hskip
      have hzero : offset - rows.length = 0 := Nat.sub_eq_zero_of_le hskip
      rw [if_neg (by simp [stateAfter, hzero])]
      split_ifs with hroom
      · have hall : (rows.drop offset).length < limit := by simpa [stateAfter] using hroom
        have hlen : (rows.drop offset ++ [row]).length ≤ limit := length_append ▸ hall
        rw [← ih]
        simp [stateAfter, drop_append_of_le_length hskip, take_of_length_le hall.le,
          take_of_length_le hlen, hzero, sub_add_eq]
      · have hfull : (stateAfter offset limit rows).output.length = limit :=
          le_antisymm (length_take_le _ _) (not_lt.mp hroom)
        have houtput := output_of_full hfull ([row] ++ more)
        rw [← append_assoc] at houtput
        simp only [stateAfter] at houtput ⊢
        simp only [houtput, length_append, hzero, sub_add_eq, Nat.zero_sub]

end

/-! ## Entries -/

/-- The rows of the entries that are kept. -/
def selected (keep : OrderedIndexKey → Bool) (l : List Entry) : List ℕ :=
  (l.filter fun e => keep e.key).flatMap (·.rows)

section

variable {keep : OrderedIndexKey → Bool} {l : List Entry} {e : Entry}

theorem selected_append (l m : List Entry) :
    selected keep (l ++ m) = selected keep l ++ selected keep m := by
  rw [selected, filter_append, flatMap_append]
  rfl

theorem selected_cons (e : Entry) (l : List Entry) :
    selected keep (e :: l) = (if keep e.key then e.rows else []) ++ selected keep l := by
  cases h : keep e.key <;> simp [selected, h]

theorem selected_split (pages : List (List Entry)) (n : ℕ) : selected keep pages.flatten =
    selected keep (pages.take n).flatten ++ selected keep (pages.drop n).flatten := by
  rw [← selected_append, ← flatten_append, take_append_drop]

theorem selected_eq_nil (h : ∀ e ∈ l, keep e.key = false) : selected keep l = [] := by
  rw [selected, filter_eq_nil_iff.mpr fun e he => by simp [h e he]]
  rfl

theorem selected_backwards (l : List Entry) :
    selected keep (l.reverse.map backwards) = (selected keep l).reverse := by
  induction l with
  | nil => rfl
  | cons e l ih =>
    have hone : selected keep [backwards e] = (if keep e.key then e.rows else []).reverse := by
      cases h : keep e.key <;> simp [selected, backwards, h]
    rw [reverse_cons, map_append, selected_append, ih, map_singleton, hone,
      selected_cons, reverse_append]

end

/-- What a scan does with an entry. -/
structure Tests where
  excluded : OrderedIndexKey → Bool
  skip : OrderedIndexKey → Bool
  stop : OrderedIndexKey → Bool

def Tests.keep (tests : Tests) (key : OrderedIndexKey) : Bool :=
  !tests.excluded key && !tests.skip key && !tests.stop key

/-- Where a scan stops it would find nothing more. -/
def Tests.Closed (tests : Tests) (l : List Entry) : Prop :=
  l.Pairwise fun a b => tests.stop a.key = true → tests.stop b.key = true

/-- The tests that the code makes have these results. -/
structure Tests.Agree (tests : Tests) (skip stop : OrderedIndexKey → FormatResult Bool)
    (l : List Entry) : Prop where
  skip_eq : ∀ e ∈ l, skip e.key = .ok (tests.skip e.key)
  stop_eq : ∀ e ∈ l, stop e.key = .ok (tests.stop e.key)

section

variable {tests : Tests} {skip stop : OrderedIndexKey → FormatResult Bool}

/-- **The entries of a page.** A scan that ends has found what it would find with more entries. -/
theorem scanEntries_spec {l more : List Entry} (hagree : tests.Agree skip stop l)
    (hclosed : tests.Closed (l ++ more)) (rows : List ℕ) :
    ∃ s ended, scanEntries limit tests.excluded skip stop l (stateAfter offset limit rows) =
        .ok (s, ended) ∧
      (ended = false → s = stateAfter offset limit (rows ++ selected tests.keep l)) ∧
      (ended = true → s.output =
        (stateAfter offset limit (rows ++ selected tests.keep (l ++ more))).output) := by
  induction l generalizing rows with
  | nil =>
    refine ⟨_, _, rfl, fun _ => ?_, nofun⟩
    rw [selected_eq_nil (forall_mem_nil _), append_nil]
  | cons e l ih =>
    have hagree' : tests.Agree skip stop l :=
      ⟨fun x hx => hagree.skip_eq x (mem_cons_of_mem _ hx),
        fun x hx => hagree.stop_eq x (mem_cons_of_mem _ hx)⟩
    have hskip := hagree.skip_eq e mem_cons_self
    have hstop := hagree.stop_eq e mem_cons_self
    obtain ⟨hfirst, hclosed'⟩ := pairwise_cons.mp hclosed
    have hpass : tests.keep e.key = false →
        selected tests.keep (e :: l) = selected tests.keep l ∧
          selected tests.keep (e :: l ++ more) = selected tests.keep (l ++ more) := by
      intro hkeep
      rw [cons_append, selected_cons, selected_cons, hkeep]
      exact ⟨rfl, rfl⟩
    rw [scanEntries]
    cases hx : tests.excluded e.key with
    | true =>
      obtain ⟨hl, hmore⟩ := hpass (by simp [Tests.keep, hx])
      rw [if_pos rfl, hl, hmore]
      exact ih hagree' hclosed' rows
    | false =>
      simp only [false_eq_true, if_false, hskip, hstop, ok_bind]
      cases hs : tests.skip e.key with
      | true =>
        obtain ⟨hl, hmore⟩ := hpass (by simp [Tests.keep, hs])
        rw [if_pos rfl, hl, hmore]
        exact ih hagree' hclosed' rows
      | false =>
        cases ht : tests.stop e.key with
        | true =>
          refine ⟨_, _, rfl, nofun, fun _ => ?_⟩
          have hnone : selected tests.keep (e :: l ++ more) = [] := by
            refine selected_eq_nil (forall_mem_cons.mpr ⟨by simp [Tests.keep, ht], ?_⟩)
            intro x hx
            simp [Tests.keep, hfirst x hx ht]
          rw [hnone, append_nil]
        | false =>
          simp only [false_eq_true, if_false, appendRows_eq]
          have hkeep : tests.keep e.key = true := by simp [Tests.keep, hx, hs, ht]
          have hcons : ∀ m, rows ++ selected tests.keep (e :: m) =
              (rows ++ e.rows) ++ selected tests.keep m := by
            intro m
            rw [selected_cons, hkeep, if_pos rfl, append_assoc]
          rw [cons_append, hcons, hcons]
          split_ifs with hfull
          · exact ⟨_, _, rfl, nofun, fun _ => (output_of_full hfull _).symm⟩
          · exact ih hagree' hclosed' (rows ++ e.rows)

/-! ## Pages -/

/-- The checks that a scan makes between pages pass. -/
def Checked (check : Option Entry → ℕ → List Entry → FormatResult Unit)
    (edge : List Entry → Option Entry) (pageAt : ℕ → List Entry) : Option Entry → List ℕ → Prop
  | _, [] => True
  | previous, i :: places =>
    check previous i (pageAt i) = .ok () ∧ Checked check edge pageAt (edge (pageAt i)) places

/-- **The pages**, in the order of the scan. -/
theorem scanPages_spec {decode : ℕ → FormatResult (List Entry)}
    {check : Option Entry → ℕ → List Entry → FormatResult Unit} {edge : List Entry → Option Entry}
    {pageAt : ℕ → List Entry} (order : List Entry → List Entry) {places : List ℕ}
    {previous : Option Entry} (hdec : ∀ i ∈ places, decode i = .ok (pageAt i))
    (hcheck : Checked check edge pageAt previous places)
    (hagree : ∀ i ∈ places, tests.Agree skip stop (order (pageAt i)))
    (hclosed : tests.Closed (places.flatMap fun i => order (pageAt i))) (rows : List ℕ) :
    ∃ st, scanPages decode check
        (fun page => scanEntries limit tests.excluded skip stop (order page)) edge places
        ⟨stateAfter offset limit rows, previous, false⟩ = .ok st ∧
      st.rows.output = (stateAfter offset limit (rows ++ selected tests.keep
        (places.flatMap fun i => order (pageAt i)))).output ∧
      (st.ended = false →
        st.edge = (places.getLast?.map fun i => edge (pageAt i)).getD previous) := by
  induction places generalizing previous rows with
  | nil =>
    refine ⟨_, rfl, ?_, fun _ => rfl⟩
    rw [flatMap_nil, selected_eq_nil (forall_mem_nil _), append_nil]
  | cons i places ih =>
    obtain ⟨hone, hmore⟩ := hcheck
    rw [flatMap_cons] at hclosed ⊢
    obtain ⟨s, ended, hscan, hgo, hend⟩ :=
      scanEntries_spec offset limit (hagree i mem_cons_self) hclosed rows
    simp only [scanPages, hdec i mem_cons_self, hone, hscan, ok_bind]
    cases ended with
    | true => exact ⟨_, rfl, hend rfl, nofun⟩
    | false =>
      obtain ⟨st, hst, houtput, hedge⟩ := ih
        (fun j hj => hdec j (mem_cons_of_mem _ hj)) hmore
        (fun j hj => hagree j (mem_cons_of_mem _ hj)) (pairwise_append.mp hclosed).2.1
        (rows ++ selected tests.keep (order (pageAt i)))
      rw [hgo rfl]
      refine ⟨st, hst, ?_, fun hended => ?_⟩
      · rw [houtput, selected_append, append_assoc]
      · rw [hedge hended]
        cases places with
        | nil => rfl
        | cons j places =>
          obtain ⟨last, hlast⟩ := ne_none_iff_exists'.mp
            (show (j :: places).getLast? ≠ none by simp)
          rfl

end

/-! ## Decoded pages -/

/-- The entries of all pages as they are decoded, in order across pages. -/
structure Decoded (crc : Crc) (std : LowerExp) (json : Json)
    (sizes : DecodeSizes) (binding : OrderedBinding) (pages : List IndexPageSpec)
    (decoded : List (List Entry)) : Prop where
  decode : Forall₂ (fun page entries =>
    decodeOrderedIndexPage crc std json sizes binding page page.logicalBytes = .ok entries)
    pages decoded
  pages_ne : decoded ≠ []
  page_ne : ∀ page ∈ decoded, page ≠ []
  admitted : ∀ e ∈ decoded.flatten, Admitted json binding.columns e.key.values
  rows_ne : ∀ e ∈ decoded.flatten, e.rows ≠ []
  chain : decoded.flatten.IsChain (marks binding.columns).Next
  starts : ∀ e ∈ decoded.flatten.head?, e.state.hasPrevious = false
  ends : ∀ e ∈ decoded.flatten.getLast?, e.state.hasNext = false

def pageAt (decoded : List (List Entry)) (i : ℕ) : List Entry := decoded.getD i []

/-- Is the key within the bounds and not excluded? -/
def within (columns : List IndexKeyColumn) (lower upper : Option OrderedIndexBound)
    (excluded : OrderedIndexKey → Bool) (key : OrderedIndexKey) : Bool :=
  !excluded key && !before columns lower (placesOf columns key.values) &&
    !after columns upper (placesOf columns key.values)

/-- Rows in the direction of a scan. -/
def directed : IndexScanDirection → List ℕ → List ℕ
  | .forward, rows => rows
  | .reverse, rows => rows.reverse

/-- The bounds are for the same columns. -/
def SamePrefix (lower upper : Option OrderedIndexBound) : Prop :=
  ∀ l ∈ lower, ∀ u ∈ upper, l.key.values.length = u.key.values.length

variable {columns : List IndexKeyColumn}

theorem forM_shapes {json : Json} {bounds : List OrderedIndexBound}
    (h : ∀ b ∈ bounds, AdmittedBound json columns b) :
    (bounds.forM fun bound => validateBoundKeyShape bound.key columns) =
      (.ok () : FormatResult Unit) := by
  induction bounds with
  | nil => rfl
  | cons bound bounds ih =>
    obtain ⟨hone, hmore⟩ := forall_mem_cons.mp h
    simp only [List.forM, validateBoundKeyShape_eq hone, ok_bind]
    exact ih hmore

section

variable (excluded : OrderedIndexKey → Bool) {lower upper : Option OrderedIndexBound}

/-- The tests of a forward scan. -/
def forwardTests (columns : List IndexKeyColumn) (lower upper : Option OrderedIndexBound) : Tests :=
  ⟨excluded, fun key => before columns lower (placesOf columns key.values),
    fun key => after columns upper (placesOf columns key.values)⟩

/-- The tests of a reverse scan. -/
def reverseTests (columns : List IndexKeyColumn) (lower upper : Option OrderedIndexBound) : Tests :=
  ⟨excluded, fun key => after columns upper (placesOf columns key.values),
    fun key => before columns lower (placesOf columns key.values)⟩

theorem keep_reverse (columns : List IndexKeyColumn) :
    (reverseTests excluded columns lower upper).keep = within columns lower upper excluded := by
  funext key
  exact and_right_comm _ _ _

theorem Tests.Agree.swap {excluded : OrderedIndexKey → Bool}
    {skip stop : OrderedIndexKey → FormatResult Bool} {l : List Entry}
    (h : (forwardTests excluded columns lower upper).Agree skip stop l) :
    (reverseTests excluded columns lower upper).Agree stop skip l := ⟨h.stop_eq, h.skip_eq⟩

end

section

variable {decoded : List (List Entry)} {i : ℕ}

theorem pageAt_eq (hi : i < decoded.length) : pageAt decoded i = decoded[i] := by
  rw [pageAt, getD_eq_getElem?_getD, getElem?_eq_getElem hi, getD_some]

theorem pageAt_mem (hi : i < decoded.length) : pageAt decoded i ∈ decoded := by
  rw [pageAt_eq hi]
  exact getElem_mem hi

theorem flatMap_pageAt (start : ℕ) :
    (range' start (decoded.length - start)).flatMap (pageAt decoded) =
      (decoded.drop start).flatten := by
  have hpages : (range' start (decoded.length - start)).map (pageAt decoded) =
      decoded.drop start := by
    refine ext_getElem (by simp) fun i h1 h2 => ?_
    rw [getElem_map, getElem_range', one_mul, getElem_drop, pageAt_eq]
  rw [flatMap_def, hpages]

/-- The pages up to a place, the other way round. -/
theorem flatMap_pageAt_reverse {count : ℕ} (hcount : count ≤ decoded.length) :
    ((range count).reverse.flatMap fun i => (pageAt decoded i).reverse.map backwards) =
      (decoded.take count).flatten.reverse.map backwards := by
  have hpages : (range count).map (pageAt decoded) = decoded.take count := by
    refine ext_getElem (by simp [hcount]) fun i h1 h2 => ?_
    rw [getElem_map, getElem_range, getElem_take, pageAt_eq]
  rw [← hpages, ← flatMap_def, reverse_flatMap, map_flatMap]
  rfl

end

namespace Decoded

variable {crc : Crc} {std : LowerExp} {json : Json}
  {sizes : DecodeSizes} {binding : OrderedBinding} {pages : List IndexPageSpec}
  {decoded : List (List Entry)} {i : ℕ}

theorem length_eq (h : Decoded crc std json sizes binding pages decoded) :
    pages.length = decoded.length := h.decode.length_eq

theorem decodeSelectedPage_eq (h : Decoded crc std json sizes binding pages decoded)
    (hi : i < decoded.length) :
    decodeSelectedPage crc std json sizes binding pages i = .ok (pageAt decoded i) := by
  have hi' : i < pages.length := h.length_eq ▸ hi
  rw [decodeSelectedPage, getElem?_eq_getElem hi', pageAt_eq hi]
  exact h.decode.get hi' hi

theorem mem_flatten {e : Entry} (hi : i < decoded.length) (he : e ∈ pageAt decoded i) :
    e ∈ decoded.flatten := List.mem_flatten.mpr ⟨_, pageAt_mem hi, he⟩

section

variable (h : Decoded crc std json sizes binding pages decoded)

include h

theorem sorted :
    decoded.flatten.Pairwise fun a b =>
      placesOf binding.columns a.key.values ≤ placesOf binding.columns b.key.values :=
  (Marks.sorted_of_chain h.chain).imp fun hle => Prod.Lex.monotone_fst _ _ hle

variable {a last first : Entry}

theorem places_le {j : ℕ} (hij : i < j) (hj : j < decoded.length) {b : Entry}
    (ha : a ∈ pageAt decoded i) (hb : b ∈ pageAt decoded j) :
    placesOf binding.columns a.key.values ≤ placesOf binding.columns b.key.values := by
  have hi := lt_trans hij hj
  rw [pageAt_eq hi] at ha
  rw [pageAt_eq hj] at hb
  exact pairwise_iff_getElem.mp (pairwise_flatten.mp h.sorted).2 i j hi hj hij a ha b hb

theorem places_le_last (hi : i < decoded.length) (ha : a ∈ pageAt decoded i)
    (hlast : (pageAt decoded i).getLast? = some last) :
    placesOf binding.columns a.key.values ≤ placesOf binding.columns last.key.values := by
  have hsorted := (pairwise_flatten.mp h.sorted).1 _ (pageAt_mem hi)
  cases (getLast?_eq_some_getLast (ne_nil_of_mem ha)).symm.trans hlast
  exact hsorted.rel_getLast_of_rel_getLast_getLast ha le_rfl

/-- The first entry of a page comes first in it. -/
theorem first_places_le (hi : i < decoded.length) (ha : a ∈ pageAt decoded i)
    (hfirst : (pageAt decoded i).head? = some first) :
    placesOf binding.columns first.key.values ≤ placesOf binding.columns a.key.values := by
  have hsorted := (pairwise_flatten.mp h.sorted).1 _ (pageAt_mem hi)
  cases (head?_eq_some_head (ne_nil_of_mem ha)).symm.trans hfirst
  exact hsorted.rel_head_of_rel_head_head ha le_rfl

theorem exists_last (hi : i < decoded.length) : ∃ last, (pageAt decoded i).getLast? = some last :=
  ne_none_iff_exists'.mp fun hnone =>
    h.page_ne _ (pageAt_mem hi) (getLast?_eq_none_iff.mp hnone)

theorem exists_first (hi : i < decoded.length) : ∃ first, (pageAt decoded i).head? = some first :=
  ne_none_iff_exists'.mp fun hnone =>
    h.page_ne _ (pageAt_mem hi) (head?_eq_none_iff.mp hnone)

/-- The index starts with a first fragment. -/
theorem first_of_index (hfirst : (pageAt decoded 0).head? = some first) :
    first.state.hasPrevious = false := by
  obtain ⟨page, rest, rfl⟩ := exists_cons_of_ne_nil h.pages_ne
  refine h.starts first ?_
  rwa [flatten_cons, head?_append_of_ne_nil _ (h.page_ne page mem_cons_self)]

theorem last_of_index (hi : i + 1 = decoded.length)
    (hlast : (pageAt decoded i).getLast? = some last) : last.state.hasNext = false := by
  rcases eq_nil_or_concat' decoded with rfl | ⟨rest, page, rfl⟩
  · cases hi
  · have hpage : pageAt (rest ++ [page]) i = page := by
      rw [length_append, length_singleton, add_right_cancel_iff] at hi
      rw [pageAt, hi, getD_eq_getElem?_getD, getElem?_concat_length]
      rfl
    rw [hpage] at hlast
    refine h.ends last ?_
    rwa [flatten_append, flatten_singleton, getLast?_append_of_ne_nil _ (h.page_ne page (by simp))]

/-! ## Where scans start -/

variable {lower upper : Option OrderedIndexBound} {bound : OrderedIndexBound}

/-- The test of the search for the first page is the test of entries. -/
theorem endsBefore_eq (hbound : AdmittedBound json binding.columns bound)
    (hi : i < decoded.length) :
    endsBefore crc std json sizes binding pages bound i =
      .ok ((pageAt decoded i).getLast?.any fun last =>
        before binding.columns (some bound) (placesOf binding.columns last.key.values)) := by
  obtain ⟨last, hlast⟩ := h.exists_last hi
  have htest := isBeforeLower_eq std (some bound)
    (h.admitted last (mem_flatten hi (mem_of_getLast? hlast)))
    (fun b hb => by cases hb; exact hbound) binding.ordered_columns
  simp only [isBeforeLower, bind, Except.bind] at htest
  simp only [endsBefore, h.decodeSelectedPage_eq hi, bind, Except.bind, hlast, any_some]
  rw [← htest]
  cases compareOrderedKeyToBound std last.key bound.key binding.columns with
  | error e => rfl
  | ok ordering => cases ordering <;> simp

theorem startsWithin_eq (hbound : AdmittedBound json binding.columns bound)
    (hi : i < decoded.length) :
    startsWithin crc std json sizes binding pages bound i =
      .ok ((pageAt decoded i).head?.any fun first =>
        !after binding.columns (some bound) (placesOf binding.columns first.key.values)) := by
  obtain ⟨first, hfirst⟩ := h.exists_first hi
  have htest := isAfterUpper_eq std (some bound)
    (h.admitted first (mem_flatten hi (mem_of_mem_head? hfirst)))
    (fun b hb => by cases hb; exact hbound) binding.ordered_columns
  simp only [isAfterUpper] at htest
  simp only [startsWithin, h.decodeSelectedPage_eq hi, bind, Except.bind, hfirst, any_some]
  cases hcmp : compareOrderedKeyToBound std first.key bound.key binding.columns with
  | error e =>
    rw [hcmp] at htest
    cases htest
  | ok ordering =>
    rw [hcmp] at htest
    cases ordering <;> simp [← ok.inj htest]

/-- **A forward scan** starts at a page before which all entries are before the lower bound. -/
theorem firstForwardPage_spec (hlower : ∀ b ∈ lower, AdmittedBound json binding.columns b) :
    ∃ start ≤ decoded.length,
      firstForwardPage crc std json sizes binding pages lower = .ok start ∧
      ∀ i < start, ∀ e ∈ pageAt decoded i,
        before binding.columns lower (placesOf binding.columns e.key.values) = true := by
  cases lower with
  | none => exact ⟨0, zero_le _, rfl, nofun⟩
  | some bound =>
    obtain ⟨start, hle, hpoint, hstart⟩ := exists_partitionPoint
      (fun i hi => h.endsBefore_eq (hlower bound rfl) hi) fun i j hij hj hbefore => by
        obtain ⟨last, hlast⟩ := h.exists_last hj
        obtain ⟨last', hlast'⟩ := h.exists_last (hij.trans hj)
        rw [hlast, any_some] at hbefore
        rw [hlast', any_some]
        exact before_of_le (h.places_le hij hj (mem_of_getLast? hlast')
          (mem_of_getLast? hlast)) hbefore
    refine ⟨start, hle, by rw [firstForwardPage, h.length_eq, hpoint], fun i hi e he => ?_⟩
    have hi' := lt_of_lt_of_le hi hle
    obtain ⟨last, hlast⟩ := h.exists_last hi'
    have hbefore := hstart i hi'
    rw [hlast, any_some, decide_eq_true hi] at hbefore
    exact before_of_le (h.places_le_last hi' he hlast) hbefore

/-- **A reverse scan** starts at a page after which all entries are after the upper bound. -/
theorem reversePages_spec (hupper : ∀ b ∈ upper, AdmittedBound json binding.columns b) :
    ∃ count ≤ decoded.length,
      reversePages crc std json sizes binding pages upper = .ok count ∧
      ∀ i, count ≤ i → i < decoded.length → ∀ e ∈ pageAt decoded i,
        after binding.columns upper (placesOf binding.columns e.key.values) = true := by
  cases upper with
  | none =>
    exact ⟨decoded.length, le_refl _, congrArg ok h.length_eq,
      fun i hi hi' => absurd hi' (not_lt.mpr hi)⟩
  | some bound =>
    obtain ⟨count, hle, hpoint, hcount⟩ := exists_partitionPoint
      (fun i hi => h.startsWithin_eq (hupper bound rfl) hi) fun i j hij hj hwithin => by
        obtain ⟨first, hfirst⟩ := h.exists_first hj
        obtain ⟨first', hfirst'⟩ := h.exists_first (hij.trans hj)
        rw [hfirst, any_some, not_eq_true'] at hwithin
        rw [hfirst', any_some, not_eq_true']
        refine eq_false_iff.mpr fun hafter => eq_false_iff.mp hwithin ?_
        exact after_of_le (h.places_le hij hj (mem_of_mem_head? hfirst')
          (mem_of_mem_head? hfirst)) hafter
    refine ⟨count, hle, by rw [reversePages, h.length_eq, hpoint], fun i hi hi' e he => ?_⟩
    obtain ⟨first, hfirst⟩ := h.exists_first hi'
    have hafter := hcount i hi'
    rw [hfirst, any_some, decide_eq_false (not_lt.mpr hi), not_eq_false'] at hafter
    exact after_of_le (h.first_places_le hi' he hfirst) hafter

/-! ## Checks between pages -/

omit h in
/-- Pages that follow each other pass the check of their boundary, and only they. -/
theorem boundary_iff {lower upper : Entry} (hl : Admitted json binding.columns lower.key.values)
    (hu : Admitted json binding.columns upper.key.values) (hrows : upper.rows ≠ []) :
    validateOrderedPageBoundary std binding lower upper = .ok () ↔
      (marks binding.columns).Next lower upper := by
  obtain ⟨first, rest, hfirst⟩ := exists_cons_of_ne_nil hrows
  have hcmp := compareOrderedKeys_eq std hl hu binding.ordered_columns
  have hmarks : (marks binding.columns).Next lower upper ↔
      (placeCmp (keyPlace binding.columns lower.key) (keyPlace binding.columns upper.key) = .lt ∧
          lower.state.hasNext = false ∧ upper.state.hasPrevious = false) ∨
        (placeCmp (keyPlace binding.columns lower.key) (keyPlace binding.columns upper.key) = .eq ∧
          lower.state.hasNext = true ∧ upper.state.hasPrevious = true ∧
          ∀ last ∈ lower.rows.getLast?, last < first) := by
    unfold Marks.Next Marks.Continues marks
    dsimp only
    rw [hfirst, placeCmp_eq_lt, placeCmp_eq_eq]
    rfl
  simp only [validateOrderedPageBoundary, hcmp, ok_bind]
  rw [hmarks]
  generalize placeCmp (keyPlace binding.columns lower.key) (keyPlace binding.columns upper.key) = o
  cases o with
  | lt =>
    cases hn : lower.state.hasNext <;> cases hp : upper.state.hasPrevious <;> simp
  | gt => simp
  | eq =>
    cases hn : lower.state.hasNext <;> cases hp : upper.state.hasPrevious <;> simp
    cases lower.rows.getLast? with
    | none => simp
    | some last => simp [hfirst]

theorem boundary_ok (hi : i + 1 < decoded.length)
    (hlast : (pageAt decoded i).getLast? = some last)
    (hfirst : (pageAt decoded (i + 1)).head? = some first) :
    validateOrderedPageBoundary std binding last first = .ok () := by
  have hmem := mem_flatten hi (mem_of_mem_head? hfirst)
  have hmem' := mem_flatten (lt_of_succ_lt hi) (mem_of_getLast? hlast)
  refine (boundary_iff (h.admitted last hmem') (h.admitted first hmem)
    (h.rows_ne first hmem)).mpr ?_
  have hne : [] ∉ decoded := fun hmem => h.page_ne [] hmem rfl
  have hpages := ((isChain_flatten hne).mp h.chain).2.getElem i hi
  rw [← pageAt_eq, ← pageAt_eq] at hpages
  exact hpages last hlast first hfirst

theorem checkForward_ok (lower : Option OrderedIndexBound) {previous : Option Entry}
    (hi : i < decoded.length)
    (hprev : ∀ e ∈ previous, ∃ j, j + 1 = i ∧ (pageAt decoded j).getLast? = some e) :
    checkForward std binding lower previous i (pageAt decoded i) = .ok () := by
  obtain ⟨first, hfirst⟩ := h.exists_first hi
  have hstart : ¬ (i = 0 ∧ lower.isNone = true ∧ first.state.hasPrevious = true) := by
    rintro ⟨rfl, -, hbad⟩
    cases (h.first_of_index hfirst).symm.trans hbad
  rw [checkForward, hfirst]
  dsimp only
  rw [if_neg hstart]
  cases previous with
  | none => rfl
  | some e =>
    obtain ⟨j, rfl, hlast⟩ := hprev e rfl
    exact h.boundary_ok hi hlast hfirst

theorem checkReverse_ok (upper : Option OrderedIndexBound) {higher : Option Entry}
    (hi : i < decoded.length)
    (hhigher : ∀ e ∈ higher, i + 1 < decoded.length ∧ (pageAt decoded (i + 1)).head? = some e) :
    checkReverse std binding pages upper higher i (pageAt decoded i) = .ok () := by
  obtain ⟨last, hlast⟩ := h.exists_last hi
  have hend : ¬ (i + 1 = pages.length ∧ upper.isNone = true ∧ last.state.hasNext = true) := by
    rintro ⟨hlen, -, hbad⟩
    cases (h.last_of_index (hlen.trans h.length_eq) hlast).symm.trans hbad
  rw [checkReverse, hlast]
  dsimp only
  rw [if_neg hend]
  cases higher with
  | none => rfl
  | some e =>
    obtain ⟨hj, hfirst⟩ := hhigher e rfl
    exact h.boundary_ok hj hlast hfirst

theorem checked_forward (lower : Option OrderedIndexBound) {count start : ℕ}
    (previous : Option Entry) (hlen : start + count ≤ decoded.length)
    (hprev : ∀ e ∈ previous, ∃ j, j + 1 = start ∧ (pageAt decoded j).getLast? = some e) :
    Checked (checkForward std binding lower) getLast? (pageAt decoded) previous
      (range' start count) := by
  induction count generalizing start previous with
  | zero => trivial
  | succ count ih =>
    refine ⟨h.checkForward_ok lower (by omega) hprev, ih _ (by omega) fun e he => ?_⟩
    exact ⟨start, rfl, he⟩

theorem checked_reverse (upper : Option OrderedIndexBound) {count : ℕ} (higher : Option Entry)
    (hlen : count ≤ decoded.length)
    (hhigher : ∀ e ∈ higher, count < decoded.length ∧ (pageAt decoded count).head? = some e) :
    Checked (checkReverse std binding pages upper) head? (pageAt decoded) higher
      (range count).reverse := by
  induction count generalizing higher with
  | zero => trivial
  | succ count ih =>
    rw [range_succ, reverse_append, reverse_singleton, singleton_append]
    refine ⟨h.checkReverse_ok upper (by omega) hhigher, ih _ (by omega) fun e he => ?_⟩
    exact ⟨by omega, he⟩

/-! ## Scans -/

variable (excluded : OrderedIndexKey → Bool)

section

variable (hlower : ∀ b ∈ lower, AdmittedBound json binding.columns b)
  (hupper : ∀ b ∈ upper, AdmittedBound json binding.columns b)

include hlower hupper

theorem agree_forward {l : List Entry} (hl : ∀ e ∈ l, ∃ e' ∈ decoded.flatten, e.key = e'.key) :
    (forwardTests excluded binding.columns lower upper).Agree
      (isBeforeLower std binding.columns lower) (isAfterUpper std binding.columns upper) l := by
  have hadm : ∀ e ∈ l, Admitted json binding.columns e.key.values := by
    intro e he
    obtain ⟨e', he', hkey⟩ := hl e he
    rw [hkey]
    exact h.admitted e' he'
  exact ⟨fun e he => isBeforeLower_eq std lower (hadm e he) hlower binding.ordered_columns,
    fun e he => isAfterUpper_eq std upper (hadm e he) hupper binding.ordered_columns⟩

/-- **A forward scan.** -/
theorem scanForward_eq (limit offset : ℕ) :
    scanForward crc std json sizes binding pages lower upper limit excluded offset =
      .ok (((selected (within binding.columns lower upper excluded) decoded.flatten).drop
        offset).take limit) := by
  obtain ⟨start, hle, hstart, hbefore⟩ := h.firstForwardPage_spec hlower
  have hplaces : ∀ i ∈ range' start (decoded.length - start), i < decoded.length := by
    intro i hi
    have := mem_range'_1.mp hi
    omega
  have hclosed : (forwardTests excluded binding.columns lower upper).Closed
      ((range' start (decoded.length - start)).flatMap (pageAt decoded)) := by
    rw [flatMap_pageAt]
    refine (h.sorted.sublist ?_).imp fun hab hstop => after_of_le hab hstop
    exact (drop_sublist start decoded).flatten
  obtain ⟨st, hscan, houtput, hedge⟩ := scanPages_spec offset limit id
    (fun i hi => h.decodeSelectedPage_eq (hplaces i hi))
    (h.checked_forward lower none (by omega) nofun)
    (fun i hi => h.agree_forward excluded hlower hupper
      fun e he => ⟨e, mem_flatten (hplaces i hi) he, rfl⟩) hclosed []
  have hnone : selected (within binding.columns lower upper excluded)
      (decoded.take start).flatten = [] := by
    refine selected_eq_nil fun e he => ?_
    obtain ⟨page, hpage, he⟩ := List.mem_flatten.mp he
    obtain ⟨i, hi, rfl⟩ := mem_take_iff_getElem.mp hpage
    have hi' := Nat.lt_min.mp hi
    rw [← pageAt_eq hi'.2] at he
    simp [within, hbefore i hi'.1 e he]
  -- the page that was read last is the last page of the index
  have htrunc : ¬ (!st.ended && upper.isNone && st.edge.any (·.state.hasNext)) = true := by
    intro hbad
    simp only [and_eq_true, not_eq_true', Option.any_eq_true] at hbad
    obtain ⟨⟨hended, -⟩, last, hlast, hnext⟩ := hbad
    rw [hedge hended, getLast?_range'] at hlast
    split_ifs at hlast with hnone
    · cases hlast
    · cases (h.last_of_index (by omega) hlast).symm.trans hnext
  refine bind_eq_ok.mpr ⟨start, hstart, bind_eq_ok.mpr ⟨st, ?_, ?_⟩⟩
  · rwa [h.length_eq, ← stateAfter_nil offset limit]
  · rw [if_neg htrunc, houtput, nil_append, stateAfter, selected_split _ start, hnone, nil_append,
      ← flatMap_pageAt]
    rfl

/-- **A reverse scan** gives the rows in reverse. -/
theorem scanReverse_eq (limit offset : ℕ) :
    scanReverse crc std json sizes binding pages lower upper limit excluded offset =
      .ok (((selected (within binding.columns lower upper excluded) decoded.flatten).reverse.drop
        offset).take limit) := by
  obtain ⟨count, hle, hcount, hafter⟩ := h.reversePages_spec hupper
  have hplaces : ∀ i ∈ (range count).reverse, i < decoded.length := by
    intro i hi
    rw [mem_reverse, mem_range] at hi
    omega
  have hclosed : (reverseTests excluded binding.columns lower upper).Closed
      ((range count).reverse.flatMap fun i => (pageAt decoded i).reverse.map backwards) := by
    rw [flatMap_pageAt_reverse hle]
    refine pairwise_map.mpr (pairwise_reverse.mpr ?_)
    refine (h.sorted.sublist ?_).imp fun hab hstop => before_of_le hab hstop
    exact (take_sublist count decoded).flatten
  obtain ⟨st, hscan, houtput, hedge⟩ := scanPages_spec offset limit
    (fun page => page.reverse.map backwards)
    (fun i hi => h.decodeSelectedPage_eq (hplaces i hi)) (h.checked_reverse upper none hle nofun)
    (fun i hi => (h.agree_forward excluded hlower hupper fun e he => by
      obtain ⟨e', he', rfl⟩ := mem_map.mp he
      exact ⟨e', mem_flatten (hplaces i hi) (mem_reverse.mp he'), rfl⟩).swap) hclosed []
  have hnone : selected (within binding.columns lower upper excluded)
      (decoded.drop count).flatten = [] := by
    refine selected_eq_nil fun e he => ?_
    obtain ⟨page, hpage, he⟩ := List.mem_flatten.mp he
    obtain ⟨i, hi, rfl⟩ := mem_drop_iff_getElem.mp hpage
    have hi' : count + i < decoded.length := add_comm i count ▸ hi
    rw [← pageAt_eq hi'] at he
    simp [within, hafter (count + i) (le_add_right _ _) hi' e he]
  -- the page that was read last is the first page of the index
  have htrunc : ¬ (!st.ended && lower.isNone && st.edge.any (·.state.hasPrevious)) = true := by
    intro hbad
    simp only [and_eq_true, not_eq_true', Option.any_eq_true] at hbad
    obtain ⟨⟨hended, -⟩, first, hfirst, hprev⟩ := hbad
    rw [hedge hended, getLast?_reverse] at hfirst
    cases count with
    | zero => cases hfirst
    | succ count =>
      rw [head?_range] at hfirst
      cases (h.first_of_index hfirst).symm.trans hprev
  refine bind_eq_ok.mpr ⟨count, hcount, bind_eq_ok.mpr ⟨st, ?_, ?_⟩⟩
  · rwa [← stateAfter_nil offset limit]
  · rw [if_neg htrunc, houtput, nil_append, stateAfter, selected_split _ count, hnone, append_nil,
      ← selected_backwards, ← flatMap_pageAt_reverse hle, keep_reverse]

end

omit h in
theorem boundsAreEmpty_spec (std : LowerExp)
    (hbds : ∀ b ∈ boundsOf lower upper, AdmittedBound json binding.columns b)
    (hsame : SamePrefix lower upper) (limit : ℕ) :
    ∃ empty, boundsAreEmpty std binding lower upper limit = .ok empty ∧
      (empty = true → limit = 0 ∨
        ∀ key, within binding.columns lower upper excluded key = false) := by
  cases lower with
  | none => exact ⟨false, rfl, nofun⟩
  | some l =>
    cases upper with
    | none => exact ⟨false, rfl, nofun⟩
    | some u =>
      have hlen := hsame l rfl u rfl
      have hcmp := compareOrderedBounds_eq std (hbds l (by simp [boundsOf]))
        (hbds u (by simp [boundsOf])) hlen binding.ordered_columns
      have hnone : placesOf binding.columns u.key.values < placesOf binding.columns l.key.values ∨
          (placesOf binding.columns l.key.values = placesOf binding.columns u.key.values ∧
            (l.inclusive = false ∨ u.inclusive = false)) →
          ∀ key, within binding.columns (some l) (some u) excluded key = false := by
        intro hcross key
        rcases before_or_after (p := placesOf binding.columns key.values) hlen hcross with h | h
        · simp [within, h]
        · simp [within, h]
      simp only [boundsAreEmpty, hcmp, ok_bind]
      rcases lt_trichotomy (placesOf binding.columns l.key.values)
        (placesOf binding.columns u.key.values) with h | h | h
      · rw [placeCmp_eq_lt.mpr h]
        exact ⟨false, rfl, nofun⟩
      · rw [placeCmp_eq_eq.mpr h]
        refine ⟨_, rfl, fun hempty => ?_⟩
        simp only [or_eq_true, not_eq_true', beq_iff_eq] at hempty
        rcases hempty with hopen | hzero
        · exact .inr (hnone (.inr ⟨h, hopen⟩))
        · exact .inl hzero
      · rw [placeCmp_eq_gt.mpr h]
        exact ⟨true, rfl, fun _ => .inr (hnone (.inl h))⟩

/-- **A scan** gives the rows of the entries within the bounds, in its direction, without the first
`offset` and at most `limit`. -/
theorem scan_eq (hbds : ∀ b ∈ boundsOf lower upper, AdmittedBound json binding.columns b)
    (hsame : SamePrefix lower upper) (direction : IndexScanDirection) (offset limit : ℕ)
    (excludeNullKeys : Bool) :
    scanWithNullPolicy crc std json sizes binding pages lower upper direction offset limit
        excludeNullKeys =
      .ok (((directed direction (selected (within binding.columns lower upper
        fun key => excludesNull lower upper excludeNullKeys && key.hasNullComponent)
        decoded.flatten)).drop offset).take limit) := by
  have hlower : ∀ b ∈ lower, AdmittedBound json binding.columns b := fun b hb =>
    hbds b (mem_append_left _ (mem_toList.mpr hb))
  have hupper : ∀ b ∈ upper, AdmittedBound json binding.columns b := fun b hb =>
    hbds b (mem_append_right _ (mem_toList.mpr hb))
  obtain ⟨empty, hempty, hnone⟩ := boundsAreEmpty_spec
    (fun key => excludesNull lower upper excludeNullKeys && key.hasNullComponent) std hbds hsame
    limit
  have hpages : pages.isEmpty = false := by
    rw [isEmpty_eq_false_iff, ← length_pos_iff, h.length_eq]
    exact length_pos_of_ne_nil h.pages_ne
  simp only [scanWithNullPolicy, binding.ordered, forM_shapes hbds, hempty, ok_bind]
  split_ifs with hstop hbad
  · rcases hstop with rfl | rfl
    · rcases hnone rfl with rfl | hnone
      · rw [take_zero]
      · rw [selected_eq_nil fun e _ => hnone e.key]
        cases direction <;> simp [directed]
    · rw [take_zero]
  · cases hpages.symm.trans hbad
  · cases direction with
    | forward => exact h.scanForward_eq _ hlower hupper limit offset
    | reverse => exact h.scanReverse_eq _ hlower hupper limit offset

end

end Decoded

/-! ## Scans that read everything -/

section

variable {crc : Crc} {std : LowerExp} {json : Json}
  {sizes : DecodeSizes} {binding : OrderedBinding} {pages : List IndexPageSpec} {limit : ℕ}

/-- The last entry of a page and the first of the next one pass the check of their boundary. -/
def Adjacent (std : LowerExp) (binding : OrderedBinding) (a b : List Entry) : Prop :=
  ∀ x ∈ a.getLast?, ∀ y ∈ b.head?, validateOrderedPageBoundary std binding x y = .ok ()

/-- Without bounds, only a full output ends a scan. -/
theorem output_of_ended {l : List Entry} {s s' : ScanState}
    (h : scanEntries limit (fun _ => false) (isBeforeLower std binding.columns none)
      (isAfterUpper std binding.columns none) l s = .ok (s', true)) : s'.output.length = limit := by
  induction l generalizing s with
  | nil => cases h
  | cons e l ih =>
    simp only [scanEntries, isBeforeLower, isAfterUpper, ok_bind, false_eq_true, if_false] at h
    split_ifs at h with hfull
    · cases h
      exact hfull
    · exact ih h

theorem scanPages_reads_all {places : List ℕ} {st st' : PagesState}
    (h : scanPages (decodeSelectedPage crc std json sizes binding pages)
      (checkForward std binding none)
      (scanEntries limit (fun _ => false) (isBeforeLower std binding.columns none)
        (isAfterUpper std binding.columns none)) getLast? places st = .ok st')
    (hlimit : st'.rows.output.length ≠ limit) :
    ∃ decoded, Forall₂ (fun i d =>
        decodeSelectedPage crc std json sizes binding pages i = .ok d) places decoded ∧
      decoded.IsChain (Adjacent std binding) ∧
      ∀ x ∈ st.edge, ∀ d ∈ decoded.head?, ∀ y ∈ d.head?,
        validateOrderedPageBoundary std binding x y = .ok () := by
  induction places generalizing st with
  | nil => exact ⟨[], .nil, .nil, fun _ _ => nofun⟩
  | cons i places ih =>
    obtain ⟨d, hdec, h⟩ := ok_of_bind h
    obtain ⟨_, hcheck, h⟩ := ok_of_bind h
    have hboundary : ∀ x ∈ st.edge, ∀ y ∈ d.head?,
        validateOrderedPageBoundary std binding x y = .ok () := by
      intro x hx y hy
      rw [checkForward, mem_def.mp hy, mem_def.mp hx] at hcheck
      dsimp only at hcheck
      split_ifs at hcheck
      exact hcheck
    obtain ⟨r, hvisit, h⟩ := ok_of_bind h
    obtain ⟨rows, ended⟩ := r
    cases ended with
    | true =>
      cases h
      exact absurd (output_of_ended hvisit) hlimit
    | false =>
      obtain ⟨decoded, hall, hchain, hfirst⟩ := ih h
      exact ⟨d :: decoded, .cons hdec hall,
        isChain_cons.mpr ⟨fun d' hd' x hx y hy => hfirst x hx d' hd' y hy, hchain⟩,
        fun x hx d' hd' y hy => by
          cases hd'
          exact hboundary x hx y hy⟩

/-- **A forward scan without bounds whose limit is not reached** reads all pages, which decode and
pass the checks of their boundaries. -/
theorem scan_reads_all {rows : List ℕ}
    (h : scanForward crc std json sizes binding pages none none limit (fun _ => false) 0 = .ok rows)
    (hlimit : rows.length ≠ limit) :
    ∃ decoded, Forall₂ (fun page d =>
        decodeOrderedIndexPage crc std json sizes binding page page.logicalBytes = .ok d)
        pages decoded ∧ decoded.IsChain (Adjacent std binding) := by
  obtain ⟨start, hstart, h⟩ := ok_of_bind h
  cases hstart
  obtain ⟨st, hscan, h⟩ := ok_of_bind h
  split_ifs at h
  cases h
  obtain ⟨decoded, hall, hchain, -⟩ := scanPages_reads_all hscan hlimit
  refine ⟨decoded, ?_, hchain⟩
  obtain ⟨hlen, hget⟩ := forall₂_iff_get.mp hall
  rw [length_range', Nat.sub_zero] at hlen
  refine forall₂_iff_get.mpr ⟨hlen, fun i hi hi' => ?_⟩
  have hpage := hget i (by rwa [length_range']) hi'
  simp only [get_eq_getElem, getElem_range', zero_add, one_mul,
    decodeSelectedPage, getElem?_eq_getElem hi] at hpage
  exact hpage

end

end RadixDb.OrderedScan
