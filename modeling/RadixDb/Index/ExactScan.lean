import RadixDb.Index.ExactAccess
import RadixDb.Index.ExactBuilt
import RadixDb.Publication.ArtifactRead
import RadixDb.Publication.RunsBuilt

/-!
# An index and a scan visit the same rows

A scan compares the columns one by one, each value on its own; the index compares whole keys. A row
is left by the columns exactly if its key is the one that is looked for (`agrees_all_iff`), and a
lookup that succeeds gives the rows of the key in the records of the builder (`lookup_rows`). The
records have the keys of the columns as they are read, however the index was built.

**So it does not matter to the rows that are visited whether the index is used**
(`index_and_scan_visit_same_rows`): a lookup that fails is answered by a scan, and a scan of an
artifact that has an index does not fail.
-/

namespace RadixDb.ExactAccess

open List Except Nat ExactIndex Runs

/-! ## Scanning a group -/

section

variable {json : Json} {lz4 : Lz4} {unique : Bool} {columns : List DataColumnSpec}
  {keys : List (ℕ × DataColumnSpec)} {group : DataGroup}

/-- Is a value left as a candidate? -/
def agrees (json : Json) (unique : Bool) (column : DataColumnSpec) (target : Bytes)
    (v : Value) : Bool :=
  match encodeCanonicalKeySpecs json [column] [v] with
  | .ok (encoded, hasNull) => !((unique && hasNull) || encoded != target)
  | .error _ => false

variable {column : DataColumnSpec}

theorem agrees_eq_true_iff {target : Bytes} {v : Value} {r : Bytes × Bool}
    (h : encodeCanonicalKeySpecs json [column] [v] = .ok r) :
    agrees json unique column target v = true ↔
      ¬ (unique = true ∧ r.2 = true) ∧ r.1 = target := by
  obtain ⟨encoded, hasNull⟩ := r
  rw [agrees, h]
  cases unique <;> cases hasNull <;> simp

variable {values : List Value} {n : Bool} {y : Bytes} {candidates : List Bool}

theorem compareValues_eq (unique : Bool) (target : Bytes)
    (hlength : values.length = candidates.length)
    (henc : ∀ v ∈ values, ∃ r, encodeCanonicalKeySpecs json [column] [v] = .ok r) :
    compareValues json unique column target candidates values =
      .ok (zipWith (fun c v => c && agrees json unique column target v) candidates
        values) := by
  induction values generalizing candidates with
  | nil =>
    cases candidates with
    | nil => rfl
    | cons c candidates => cases hlength
  | cons v values ih =>
    cases candidates with
    | nil => cases hlength
    | cons c candidates =>
      obtain ⟨⟨r, hr⟩, hrest⟩ := forall_mem_cons.mp henc
      rw [compareValues, ih (succ.inj hlength) hrest, zipWith_cons_cons, agrees, hr]
      cases c <;> rfl

/-- A cell of the comparison: the place and the type of a column, the target and the values. -/
abbrev Compared := ((ℕ × DataColumnSpec) × Bytes) × List Value

/-- **Which candidates are left** after columns that can be read and encoded. -/
theorem compareColumns_spec (unique : Bool) {cells : List Compared} (candidates : List Bool)
    (blocks : ℕ)
    (hread : ∀ c ∈ cells, readDataColumnFromSource json lz4 columns group c.1.1.1 = .ok c.2)
    (hlength : ∀ c ∈ cells, c.2.length = candidates.length)
    (henc : ∀ c ∈ cells, ∀ v ∈ c.2, ∃ r, encodeCanonicalKeySpecs json [c.1.1.2] [v] = .ok r) :
    ∃ final blocks', compareColumns json lz4 unique columns group (cells.map Prod.fst) candidates
        blocks = .ok (final, blocks') ∧
      final.length = candidates.length ∧
      ∀ i : ℕ, final[i]? = some true ↔ candidates[i]? = some true ∧ ∀ c ∈ cells, ∃ v,
        c.2[i]? = some v ∧ agrees json unique c.1.1.2 c.1.2 v = true := by
  induction cells generalizing candidates blocks with
  | nil => exact ⟨candidates, blocks, rfl, rfl, fun i => by simp⟩
  | cons cell cells ih =>
    obtain ⟨⟨⟨ordinal, column⟩, target⟩, values⟩ := cell
    obtain ⟨hreadFirst, hread⟩ := forall_mem_cons.mp hread
    obtain ⟨hlenFirst, hlength⟩ := forall_mem_cons.mp hlength
    obtain ⟨hencodedFirst, henc⟩ := forall_mem_cons.mp henc
    have hvalues := compareValues_eq unique target hlenFirst hencodedFirst
    generalize hleft : zipWith (fun c v => c && agrees json unique column target v) candidates
      values = left at hvalues
    have hlenLeft : left.length = candidates.length := by
      rw [← hleft, length_zipWith, hlenFirst, min_self]
    have hstep : ∀ i : ℕ, left[i]? = some true ↔ candidates[i]? = some true ∧ ∃ v,
        values[i]? = some v ∧ agrees json unique column target v = true := by
      intro i
      rw [← hleft, getElem?_zipWith_eq_some]
      constructor
      · rintro ⟨c, v, hc, hv, hboth⟩
        rw [Bool.and_eq_true] at hboth
        exact ⟨hboth.1 ▸ hc, v, hv, hboth.2⟩
      · rintro ⟨hc, v, hv, hagrees⟩
        exact ⟨true, v, hc, hv, by rw [hagrees]; rfl⟩
    have hfirst : compareColumns json lz4 unique columns group
        ((((ordinal, column), target), values) :: cells |>.map Prod.fst) candidates blocks =
        if !left.any id then .ok (left, blocks + 1)
        else compareColumns json lz4 unique columns group (cells.map Prod.fst) left
          (blocks + 1) := by
      simp [compareColumns, hreadFirst, ok_bind, hlenFirst, hvalues, Checked.ofExcept]
    rw [hfirst]
    by_cases hany : left.any id = true
    · rw [if_neg (by simp [hany])]
      obtain ⟨final, blocks', hfinal, hfinalLength, hiff⟩ := ih left (blocks + 1) hread
        (fun c hc => (hlength c hc).trans hlenLeft.symm) henc
      refine ⟨final, blocks', hfinal, hfinalLength.trans hlenLeft, fun i => ?_⟩
      rw [hiff, hstep, forall_mem_cons, and_assoc]
    · -- no candidate is left, and the other columns would leave none either
      rw [if_pos (by simpa using hany)]
      refine ⟨left, blocks + 1, rfl, hlenLeft, fun i => ?_⟩
      have hnone : left[i]? ≠ some true := fun h =>
        hany (any_eq_true.mpr ⟨true, mem_of_getElem? h, rfl⟩)
      refine iff_of_false hnone fun h => hnone ((hstep i).mpr ⟨h.1, ?_⟩)
      exact h.2 _ mem_cons_self

variable {records : List (RunRecord ExactRunKey)}

theorem candidateRows_eq {first : ℕ} {p : RunRecord ExactRunKey → Bool} (k : ℕ)
    (hlength : candidates.length = records.length) (h : ∀ i record, records[i]? = some record →
      record.rowOrdinal = first + (k + i) ∧ (candidates[i]? = some true ↔ p record = true)) :
    ((candidates.zipIdx k).filter Prod.fst).map (fun c => first + c.2) =
      (records.filter p).map (·.rowOrdinal) := by
  induction records generalizing candidates k with
  | nil =>
    rw [length_eq_zero_iff.mp hlength]
    rfl
  | cons record records ih =>
    cases candidates with
    | nil => cases hlength
    | cons c candidates =>
      obtain ⟨hrow, hiff⟩ := h 0 record rfl
      have hrest := ih (k + 1) (succ.inj hlength) fun i r hr => by
        obtain ⟨hrow, hiff⟩ := h (i + 1) r hr
        exact ⟨by rw [hrow]; omega, hiff⟩
      have hc : c = p record := by
        rw [getElem?_cons_zero, Option.some.injEq] at hiff
        exact Bool.eq_iff_iff.mpr hiff
      rw [zipIdx_cons, filter_cons, filter_cons, ← hc]
      cases c with
      | true =>
        rw [if_pos rfl, if_pos rfl, map_cons, map_cons, hrest, hrow]
        rfl
      | false =>
        rw [if_neg Bool.false_ne_true, if_neg Bool.false_ne_true, hrest]

/-- The rows of the records with a key. -/
def rowsWith (key : Bytes) (records : List (RunRecord ExactRunKey)) : List ℕ :=
  (records.filter fun r => r.key.1.bytes = key).map (·.rowOrdinal)

variable {targets : List Bytes}

/-- The keys of single values, one for each column. -/
def Targets (json : Json) (keys : List (ℕ × DataColumnSpec)) (values : List Value)
    (targets : List Bytes) : Prop :=
  Forall₂ (fun c target => ∃ isNull,
    encodeCanonicalKeySpecs json [c.1.2] [c.2] = .ok (target, isNull)) (keys.zip values) targets

theorem column_at {j : ℕ} {key : ℕ × DataColumnSpec} (h : keys[j]? = some key) :
    (keys.map Prod.snd)[j]? = some key.2 := by
  rw [getElem?_map, h]
  rfl

variable {cols : List (List Value)}

theorem mem_cells {c : Compared} (hc : c ∈ (keys.zip targets).zip cols) :
    ∃ j : ℕ, keys[j]? = some c.1.1 ∧ targets[j]? = some c.1.2 ∧ cols[j]? = some c.2 := by
  obtain ⟨j, hj⟩ := mem_iff_getElem?.mp hc
  obtain ⟨hpair, hcol⟩ := getElem?_zip_eq_some.mp hj
  obtain ⟨hkey, htarget⟩ := getElem?_zip_eq_some.mp hpair
  exact ⟨j, hkey, htarget, hcol⟩

/-- **A row is left by all columns exactly if its key is the target.** -/
theorem agrees_all_iff {row : List Value} {i : ℕ} {x : Bytes} {m : Bool} (hrow : RowAt cols i row)
    (hx : encodeCanonicalKeySpecs json (keys.map Prod.snd) row = .ok (x, m))
    (hy : encodeCanonicalKeySpecs json (keys.map Prod.snd) values = .ok (y, n))
    (htgts : Targets json keys values targets) (hnull : ¬ (unique = true ∧ n = true)) :
    (∀ c ∈ (keys.zip targets).zip cols, ∃ v, c.2[i]? = some v ∧
      agrees json unique c.1.1.2 c.1.2 v = true) ↔ x = y := by
  constructor
  · intro hall
    rw [encode_eq_iff_single hx hy]
    intro j column v w k l hcolumn hv hw hk hl
    rw [getElem?_map, Option.map_eq_some_iff] at hcolumn
    obtain ⟨key, hkey, rfl⟩ := hcolumn
    obtain ⟨target, htarget, isNull, henc⟩ :=
      Forall₂.exists_right htgts (getElem?_zip_some hkey hw)
    obtain ⟨col, hcol, hat⟩ := hrow.exists_left hv
    have hcellAt := getElem?_zip_some (getElem?_zip_some hkey htarget) hcol
    obtain ⟨v', hv', hagrees⟩ := hall _ (mem_of_getElem? hcellAt)
    cases hat.symm.trans hv'
    have htargetEq := congrArg Prod.fst (ok.inj (hl.symm.trans henc))
    exact ((agrees_eq_true_iff hk).mp hagrees).2.trans htargetEq.symm
  · rintro rfl c hc
    obtain ⟨j, hkey, htarget, hcol⟩ := mem_cells hc
    obtain ⟨v, hv, hat⟩ := hrow.exists_right hcol
    obtain ⟨source, hsource, isNull, henc⟩ := Forall₂.exists_left htgts htarget
    obtain ⟨hkey', hw⟩ := getElem?_zip_eq_some.mp hsource
    rw [← Option.some.inj (hkey.symm.trans hkey')] at henc
    obtain ⟨k, hk⟩ := encode_single hx (column_at hkey) hv
    have heq := (encode_eq_iff_single hx hy).mp rfl j _ v _ k _ (column_at hkey) hv hw hk henc
    refine ⟨v, hat, (agrees_eq_true_iff hk).mpr ⟨?_, heq⟩⟩
    -- a NULL of the row would be one of the whole key, and so of the target
    rintro ⟨huniq, hisNull⟩
    refine hnull ⟨huniq, ?_⟩
    rw [← hasNull_eq_of_bytes_eq hx hy, hasNull_encode hx, any_eq_true]
    have hone := hasNull_encode hk
    rw [hisNull, any_cons, any_nil, Bool.or_false] at hone
    exact ⟨v, mem_of_getElem? hv, hone.symm⟩

/-- **What the scan of a group visits.** -/
theorem compareColumns_group (hidx : GroupIndexed json lz4 columns keys group records)
    (hy : encodeCanonicalKeySpecs json (keys.map Prod.snd) values = .ok (y, n))
    (htgts : Targets json keys values targets) (hnull : ¬ (unique = true ∧ n = true))
    (blocks : ℕ) :
    ∃ candidates blocks', compareColumns json lz4 unique columns group (keys.zip targets)
        (replicate group.rowGroup.rowCount true) blocks = .ok (candidates, blocks') ∧
      candidateRows group.firstRowOrdinal candidates = rowsWith y records := by
  obtain ⟨cols, hreads, hrecs⟩ := hidx
  obtain ⟨hlenValues, -⟩ := appendAll_of_encode hy
  rw [length_map] at hlenValues
  have hlenTargets : keys.length = targets.length := by
    rw [← Forall₂.length_eq htgts, length_zip, ← hlenValues, min_self]
  have hfst : ((keys.zip targets).zip cols).map Prod.fst = keys.zip targets := by
    refine map_fst_zip ?_
    rw [length_zip, ← hlenTargets, min_self, hreads.length_eq]
  have hcell : ∀ c ∈ (keys.zip targets).zip cols,
      readDataColumnFromSource json lz4 columns group c.1.1.1 = .ok c.2 ∧
        c.2.length = group.rowGroup.rowCount := by
    intro c hc
    obtain ⟨j, hkey, -, hcol⟩ := mem_cells hc
    obtain ⟨col, hcol', hread⟩ := hreads.exists_right hkey
    cases hcol.symm.trans hcol'
    exact hread
  have henc : ∀ c ∈ (keys.zip targets).zip cols, ∀ v ∈ c.2, ∃ r,
      encodeCanonicalKeySpecs json [c.1.1.2] [v] = .ok r := by
    intro c hc v hv
    obtain ⟨i, hi⟩ := mem_iff_getElem?.mp hv
    obtain ⟨hlt, -⟩ := List.getElem?_eq_some_iff.mp hi
    rw [(hcell c hc).2] at hlt
    obtain ⟨record, -, row, hrow, hof⟩ := hrecs.exists_right (getElem?_range hlt)
    obtain ⟨j, hkey, -, hcol⟩ := mem_cells hc
    obtain ⟨v', hv', hat⟩ := hrow.exists_right hcol
    cases hi.symm.trans hat
    exact encode_single hof.key (column_at hkey) hv'
  obtain ⟨candidates, blocks', hcmp, hlength, hiff⟩ :=
    compareColumns_spec unique (replicate group.rowGroup.rowCount true) blocks
      (fun c hc => (hcell c hc).1) (fun c hc => (hcell c hc).2.trans length_replicate.symm)
      henc
  rw [hfst] at hcmp
  refine ⟨candidates, blocks', hcmp, ?_⟩
  have hcount := hrecs.length_eq
  rw [length_range] at hcount
  rw [length_replicate] at hlength
  refine candidateRows_eq 0 (hlength.trans hcount) fun i record hrecord => ?_
  obtain ⟨i', hi', row, hrow, hof⟩ := hrecs.exists_left hrecord
  obtain ⟨hlt, hget⟩ := List.getElem?_eq_some_iff.mp hi'
  rw [getElem_range] at hget
  rw [length_range] at hlt
  subst hget
  refine ⟨by rw [hof.row, zero_add], ?_⟩
  rw [hiff, getElem?_replicate, if_pos hlt, and_iff_right rfl,
    agrees_all_iff hrow hof.key hy htgts hnull, decide_eq_true_iff]

/-- **What a scan visits.** -/
theorem scanGroups_spec {groups : List DataGroup}
    (hidx : Indexed json lz4 columns keys groups records)
    (hy : encodeCanonicalKeySpecs json (keys.map Prod.snd) values = .ok (y, n))
    (htgts : Targets json keys values targets) (hnull : ¬ (unique = true ∧ n = true))
    (visited : List ℕ) (counts : ScanCounts) :
    ∃ counts', scanGroups json lz4 unique columns (keys.zip targets) groups (visited, counts) =
      .ok (visited ++ rowsWith y records, counts') := by
  obtain ⟨parts, rfl, hparts⟩ := hidx
  induction hparts generalizing visited counts with
  | nil => exact ⟨counts, by rw [scanGroups]; simp [rowsWith]⟩
  | @cons group part groups parts hgroup _ ih =>
    obtain ⟨candidates, blocks', hcmp, hrows⟩ :=
      compareColumns_group hgroup hy htgts hnull counts.columnBlocks
    rw [scanGroups, hcmp]
    obtain ⟨counts', hrest⟩ := ih (visited ++ candidateRows group.firstRowOrdinal candidates)
      ⟨counts.matchedRows + (candidateRows group.firstRowOrdinal candidates).length,
        counts.rowGroups + 1, blocks'⟩
    refine ⟨counts', hrest.trans ?_⟩
    simp [hrows, rowsWith]

end

/-! ## Looking up in the pages -/

section

variable {json : Json} {lz4 : Lz4} {crc : Crc} {spec : BuildSpec}
  {columns : List DataColumnSpec} {keys : List (ℕ × DataColumnSpec)} {groups : List DataGroup}
  {records : List (RunRecord ExactRunKey)}

theorem rows_of_group {group : DataGroup} (h : GroupIndexed json lz4 columns keys group records) :
    records.map (·.rowOrdinal) = range' group.firstRowOrdinal group.rowGroup.rowCount := by
  obtain ⟨cols, -, hrecs⟩ := h
  have hrows : Forall₂ (· = ·)
      ((range group.rowGroup.rowCount).map (group.firstRowOrdinal + ·))
      (records.map (·.rowOrdinal)) := by
    rw [forall₂_map_left_iff, forall₂_map_right_iff]
    refine hrecs.imp fun i record hof => ?_
    obtain ⟨values, -, hof⟩ := hof
    exact hof.row.symm
  rw [forall₂_eq_eq_eq] at hrows
  rw [range'_eq_map_range, hrows]

variable {total spilled : ℕ} {postings : List (PostingEntry ExactRunKey)}

section

variable (h : Indexed json lz4 columns keys groups records)

include h

/-- **The rows of the records have no gaps.** -/
theorem rows_of_indexed {first : ℕ} (hvalid : validateRowGroups groups first = .ok total) :
    ∃ n, total = first + n ∧ records.map (·.rowOrdinal) = range' first n ∧
      (n = 0 ∨ total < 2 ^ 64) := by
  obtain ⟨parts, rfl, hparts⟩ := h
  induction hparts generalizing first with
  | nil =>
    cases hvalid
    exact ⟨0, rfl, rfl, .inl rfl⟩
  | @cons group part groups parts hgroup _ ih =>
    rw [validateRowGroups] at hvalid
    split_ifs at hvalid with hfirst hover
    obtain ⟨n, htotal, hrows, hlt⟩ := ih hvalid
    have hfirst : group.firstRowOrdinal = first := not_not.mp hfirst
    refine ⟨group.rowGroup.rowCount + n, by omega, ?_, .inr (by omega)⟩
    rw [flatten_cons, map_append, rows_of_group hgroup, hrows, hfirst, range'_append_1]

theorem increasing_of_indexed (hvalid : validateRowGroups groups 0 = .ok total) :
    Increasing records := by
  obtain ⟨n, htotal, hrows, hlt⟩ := rows_of_indexed h hvalid
  refine ⟨hrows ▸ pairwise_lt_range', fun r hr => ?_⟩
  have hmem : r.rowOrdinal ∈ records.map (·.rowOrdinal) := mem_map_of_mem hr
  rw [hrows, mem_range'_1] at hmem
  omega

theorem canonical_of_indexed :
    ∀ r ∈ records, ∃ values, encodeCanonicalKeySpecs json (keys.map Prod.snd) values =
      .ok (r.key.1.bytes, r.key.1.hasNullComponent) := by
  obtain ⟨parts, rfl, hparts⟩ := h
  intro r hr
  obtain ⟨part, hpart, hr⟩ := mem_flatten.mp hr
  obtain ⟨i, hi⟩ := mem_iff_getElem?.mp hpart
  obtain ⟨group, -, cols, -, hrecs⟩ := hparts.exists_left hi
  obtain ⟨j, hj⟩ := mem_iff_getElem?.mp hr
  obtain ⟨_, -, values, -, hof⟩ := hrecs.exists_left hj
  exact ⟨values, hof.key⟩

end

theorem rows_of_entries (key : Bytes) (groups : List (PostingEntry ExactRunKey)) :
    (entriesOf key (groups.map exactEntry)).flatMap (·.rowOrdinals) =
      ((groups.flatMap (storedRecords exactRuns)).filter (·.1 = key)).map (·.2.2) := by
  induction groups with
  | nil => rfl
  | cons g groups ih =>
    rw [flatMap_cons, filter_append, map_append, ← ih, map_cons, entriesOf, filter_cons]
    have hmine : ((storedRecords exactRuns g).filter (·.1 = key)).map (·.2.2) =
        g.rowOrdinals.filter fun _ => (exactEntry g).key.bytes = key := by
      rw [storedRecords, filter_map, map_map]
      exact map_id _
    rw [hmine]
    by_cases hkey : (exactEntry g).key.bytes = key
    · rw [if_pos (decide_eq_true hkey), decide_eq_true hkey, filter_true]
      rfl
    · rw [if_neg fun h => hkey (of_decide_eq_true h), decide_eq_false hkey, filter_false]
      rfl

theorem pairwise_rows {sorted : List (RunRecord ExactRunKey)} (hsorted : InOrder exactRuns sorted)
    (hcanon : ∀ r ∈ sorted, ∃ values, encodeCanonicalKeySpecs json (keys.map Prod.snd) values =
      .ok (r.key.1.bytes, r.key.1.hasNullComponent)) (key : Bytes) :
    (rowsWith key sorted).Pairwise (· ≤ ·) := by
  rw [rowsWith, pairwise_map]
  refine (hsorted.sublist filter_sublist).imp_of_mem fun {a b} ha hb hab => ?_
  obtain ⟨ha, hkeyA⟩ := mem_filter.mp ha
  obtain ⟨hb, hkeyB⟩ := mem_filter.mp hb
  obtain ⟨as, has⟩ := hcanon a ha
  obtain ⟨bs, hbs⟩ := hcanon b hb
  have hbytes : a.key.1.bytes = b.key.1.bytes :=
    (of_decide_eq_true hkeyA).trans (of_decide_eq_true hkeyB).symm
  rw [← hbytes] at hbs
  have hrank : exactRank a.key = exactRank b.key := by
    rw [exactRank, exactRank, hbytes, hasNull_eq_of_bytes_eq has hbs]
  have hle := (not_before_iff lawful_exact a b).mp hab
  rw [recordRank, recordRank, Prod.Lex.toLex_le_toLex] at hle
  rcases hle with hlt | ⟨-, hrow⟩
  · exact absurd hrank (ne_of_lt hlt)
  · exact hrow

/-- **The postings of a build have, for each key, the rows of its records in order.** -/
theorem rows_of_build (hidx : Indexed json lz4 columns keys groups records)
    (hvalid : validateRowGroups groups 0 = .ok total)
    (h : Produces exactRuns crc spec spilled records postings) (key : Bytes) :
    (entriesOf key (postings.map exactEntry)).flatMap (·.rowOrdinals) =
      rowsWith key (kept exactRuns spec.unique records) := by
  have hinc := increasing_of_indexed hidx hvalid
  have hperm := mergeSort_perm (kept exactRuns spec.unique records)
    fun a b => a.compare exactRuns b != .gt
  have hsorted := inOrder_mergeSort lawful_exact (kept exactRuns spec.unique records)
  generalize (kept exactRuns spec.unique records).mergeSort
    (fun a b => a.compare exactRuns b != .gt) = sorted at hperm hsorted
  obtain ⟨memory, hmem, hstored, -⟩ :=
    h.of_sorted lawful_exact hinc (keepsOrder_exact _) hperm hsorted
  have hposts := Postings.of_reads lawful_exact (maximumFragmentRows_pos spec) hmem hsorted
  have hrecs : postings.flatMap (storedRecords exactRuns) = sorted.map (stored exactRuns) := by
    rw [← hposts.records]
    rw [flatMap_storedRecords, flatMap_storedRecords, hstored]
  have hkept : ∀ r ∈ sorted, r ∈ records := fun r hr =>
    (mem_filter.mp (hperm.mem_iff.mp hr)).1
  have hrowsOf : ((sorted.map (stored exactRuns)).filter (·.1 = key)).map (·.2.2) =
      rowsWith key sorted := by
    rw [filter_map, map_map]
    rfl
  rw [rows_of_entries, hrecs, hrowsOf]
  have hright : (rowsWith key (kept exactRuns spec.unique records)).Pairwise (· ≤ ·) :=
    (hinc.pairwise.sublist ((filter_sublist.trans filter_sublist).map _)).imp
      fun h => le_of_lt h
  refine ((hperm.filter _).map _).eq_of_pairwise (fun _ _ _ _ => le_antisymm) ?_ hright
  exact pairwise_rows hsorted (fun r hr => canonical_of_indexed hidx r (hkept r hr)) key

variable {δ : Type} [DecidableEq δ] {digest : Bytes → δ} {pageEntrySize : ℕ}

theorem canonical_of_build (hidx : Indexed json lz4 columns keys groups records)
    (hvalid : validateRowGroups groups 0 = .ok total)
    (h : Produces exactRuns crc spec spilled records postings) :
    CanonicalEntries json (keys.map Prod.snd) (postings.map exactEntry) := by
  have halike := spillsAlike_of_keepsOrder lawful_exact crc (increasing_of_indexed hidx hvalid)
    (keepsOrder_exact (kept exactRuns spec.unique records))
  obtain ⟨sorted, hperm, hposts⟩ := halike.complete spec spilled postings rfl h
  rintro e he
  obtain ⟨g, hg, rfl⟩ := mem_map.mp he
  obtain ⟨row, hrow⟩ := exists_mem_of_ne_nil _ (hposts.fits g hg).1
  have hmem : stored exactRuns ⟨g.key, row⟩ ∈ postings.flatMap (storedRecords exactRuns) :=
    mem_flatMap.mpr ⟨g, hg, mem_map.mpr ⟨row, hrow, rfl⟩⟩
  rw [hposts.records, hperm.mem_iff] at hmem
  obtain ⟨r, hr, hstored⟩ := mem_map.mp hmem
  obtain ⟨values, hvalues⟩ := canonical_of_indexed hidx r (mem_filter.mp hr).1
  have hbytes : r.key.1.bytes = g.key.1.bytes := congrArg Prod.fst hstored
  have hnull : r.key.1.hasNullComponent = g.key.1.hasNullComponent := congrArg (·.2.1) hstored
  rw [hbytes, hnull] at hvalues
  exact ⟨values, hvalues⟩

/-- **A lookup that succeeds gives the rows of the key.** -/
theorem lookup_rows {data : DataArtifact} {codec : IndexPageCodec}
    {builder : IndexRunBuilder ExactRunKey} {pages : List IndexPageSpec} (hkeys : keys ≠ [])
    (hidx : Indexed json lz4 columns keys data.groups records)
    (hpush : (IndexRunBuilder.new spilled).pushAll exactRuns crc spec records = .ok builder)
    (hpages : WritesPages crc spec data.rowCount codec builder pages) (earlier : List (List Value))
    {key : Bytes} {rows : Option (List ℕ)} (h : (lookupKey crc digest json pageEntrySize
      ⟨keys.map Prod.snd, spec.unique, builder.indexedItemCount, data.rowCount⟩ pages key
      (memoAfter crc digest json pageEntrySize
        ⟨keys.map Prod.snd, spec.unique, builder.indexedItemCount, data.rowCount⟩ pages
        earlier)).1 = .ok rows) :
    rows.getD [] = rowsWith key (kept exactRuns spec.unique records) := by
  obtain ⟨prepared, postings, hprep, hstreams, hbuild⟩ := hpages
  have hproduces : Produces exactRuns crc spec spilled records postings :=
    ⟨prepared, builder, hpush, hprep, hstreams⟩
  have hrows := rows_of_build hidx data.contiguous hproduces
  obtain ⟨n, htotal, hordinals, hlt⟩ := rows_of_indexed hidx data.contiguous
  have hinc := increasing_of_indexed hidx data.contiguous
  generalize hbinding : (⟨keys.map Prod.snd, spec.unique, builder.indexedItemCount,
    data.rowCount⟩ : ExactBinding) = binding at h
  have hcols : binding.columns = keys.map Prod.snd := hbinding ▸ rfl
  have huniq : binding.unique = spec.unique := hbinding ▸ rfl
  have hsource : binding.sourceRowCount = data.rowCount := hbinding ▸ rfl
  rw [← huniq, ← hsource] at hbuild
  rw [← hrows]
  rcases build_cases hbuild with ⟨hnone, hisUnique, hempty⟩ | ⟨parts, hne, hbuilt⟩
  · -- no record is kept, so the index counts none
    have hall : kept exactRuns spec.unique records = [] := by
      refine eq_nil_iff_forall_not_mem.mpr fun r hr => ?_
      have hmine := hrows r.key.1.bytes
      rw [hnone] at hmine
      have hmem : r.rowOrdinal ∈ rowsWith r.key.1.bytes (kept exactRuns spec.unique records) :=
        mem_map_of_mem (mem_filter.mpr ⟨hr, decide_eq_true rfl⟩)
      exact not_mem_nil (hmine ▸ hmem)
    have hitems : binding.indexedItemCount = 0 := by
      have hnew : Builds exactRuns crc spec (kept exactRuns spec.unique []) _ [] :=
        Builds.new exactRuns crc spec spilled
      obtain ⟨lists, hbuilds⟩ := hnew.pushAll lawful_exact hinc.lt hpush
      have hcount := hbuilds.count
      rw [nil_append, hall] at hcount
      rwa [← hbinding]
    rw [hempty, lookupKey_empty codec hisUnique hitems] at h
    cases h
    rw [hnone]
    rfl
  · have hcanon := canonical_of_build hidx data.contiguous hproduces
    rw [← hcols] at hcanon
    have hstored := stored_of_built (by rw [hcols]; simpa using hkeys)
      (by rw [hsource]; omega) hcanon hbuilt
    have hsound : Sound digest json pageEntrySize binding parts pages
        (memoAfter crc digest json pageEntrySize binding pages earlier) :=
      sound_memoAfter hstored hne earlier
    have hspec := (lookupKey_spec hstored hne hsound key).2
    rw [h] at hspec
    rw [hspec.1, answerOf_cut hbuilt.cut]
    split_ifs with hnil
    · rw [List.isEmpty_iff] at hnil
      rw [hnil]
      rfl
    · rfl

end

/-! ## The index or a scan -/

section

variable {json : Json} {lz4 : Lz4} {crc : Crc} {data : DataArtifact}
  {definition : ExactLookupDefinition} {accelerator : ExactAccelerator}

variable {keys : List (ℕ × DataColumnSpec)} {keyColumns : List ExactKeyColumn}
  {columns : List DataColumnSpec}

theorem sourceKeys_spec (h : sourceKeys columns keyColumns = .ok keys) :
    ∀ key ∈ keys, columns[key.1]? = some key.2 := by
  intro key hkey
  obtain ⟨i, hi⟩ := mem_iff_getElem?.mp hkey
  obtain ⟨keyColumn, -, hof⟩ := (forall₂_of_mapM h).exists_left hi
  split at hof
  · cases hof
  · rename_i column hcol
    cases hof
    exact hcol

/-- **However an accelerator was built, its records are those of the columns as they are read.** -/
theorem BuiltFrom.indexed (hlz4 : lz4.Lossless)
    (h : BuiltFrom json lz4 crc data definition accelerator) :
    ∃ spec spilled keys codec builder records,
      Indexed json lz4 data.columns keys data.groups records ∧
      (IndexRunBuilder.new spilled).pushAll exactRuns crc spec records = .ok builder ∧
      Describes crc spec keys codec builder data definition accelerator := by
  cases h with
  | fanOut plans budget rows spec spilled keys codec builder columns width written visited
      describes =>
    obtain ⟨records, hpush, hrecs⟩ := visitRows_records visited
    have hkeys := sourceKeys_spec describes.keys_of
    rw [columns] at hkeys
    have hidx := writeRowGroups_indexed hlz4 hkeys width written hrecs
    rw [← columns] at hidx
    exact ⟨spec, spilled, keys, codec, builder, records, hidx, hpush, describes⟩
  | rebuild spec spilled keys codec builder visited describes =>
    have hkeys := sourceKeys_spec describes.keys_of
    obtain ⟨records, hpush, hidx⟩ := rebuildGroups_indexed
      (fun key hkey => (List.getElem?_eq_some_iff.mp (hkeys key hkey)).1) visited
    exact ⟨spec, spilled, keys, codec, builder, records, hidx, hpush, describes⟩

theorem resolve_eq_sourceKeys {sourceColumns : List (ℕ × DataColumnSpec)}
    (h : resolveSourceColumns columns keyColumns = .ok sourceColumns)
    (hkeys : sourceKeys columns keyColumns = .ok keys) : sourceColumns = keys ∧ keys ≠ [] := by
  unfold resolveSourceColumns at h
  split_ifs at h with hempty
  have hsource : sourceKeys columns keyColumns = .ok sourceColumns := by
    refine mapM_of_forall₂ ((forall₂_of_mapM h).imp fun key source hof => ?_)
    split at hof
    · cases hof
    · rename_i column hcol
      split_ifs at hof
      simpa [hcol] using hof
  refine ⟨ok.inj (hsource.symm.trans hkeys), ?_⟩
  rintro rfl
  exact hempty (by simpa using (forall₂_of_mapM hkeys).length_eq)

variable {δ : Type} [DecidableEq δ]

/-- What is remembered of the pages of an accelerator after visits with earlier values. -/
def memoOf (json : Json) (crc : Crc) (digest : Bytes → δ)
    (pageEntrySize : ℕ) (data : DataArtifact) (definition : ExactLookupDefinition)
    (accelerator : ExactAccelerator) (earlier : List (List Value)) : ValidatedExactPages δ :=
  match resolveSourceColumns data.columns definition.keyColumns with
  | .ok sourceColumns => memoAfter crc digest json pageEntrySize
      (accelerator.binding sourceColumns) accelerator.pages earlier
  | .error _ => fun _ => none

/-- **The scan of an artifact that has an index** succeeds, and visits the rows of the key. -/
theorem scanExactData_spec (definition : ExactLookupDefinition)
    {records : List (RunRecord ExactRunKey)}
    (hidx : Indexed json lz4 data.columns keys data.groups records) {values : List Value}
    {y : Bytes} {n : Bool}
    (hy : encodeCanonicalKeySpecs json (keys.map Prod.snd) values = .ok (y, n)) :
    ∃ counts, scanExactData json lz4 data definition values keys n =
      .ok (rowsWith y (kept exactRuns definition.unique records), counts) := by
  have hcanon := canonical_of_indexed hidx
  -- records of the key have a NULL exactly if the values have one
  have hnullOf : ∀ r ∈ records, r.key.1.bytes = y → r.key.1.hasNullComponent = n := by
    intro r hr hbytes
    obtain ⟨as, has⟩ := hcanon r hr
    rw [hbytes] at has
    exact hasNull_eq_of_bytes_eq has hy
  by_cases hnull : definition.unique = true ∧ n = true
  · have hnone : rowsWith y (kept exactRuns definition.unique records) = [] := by
      refine map_eq_nil_iff.mpr (filter_eq_nil_iff.mpr fun r hr hbytes => ?_)
      obtain ⟨hr, hkept⟩ := mem_filter.mp hr
      have hisNull := hnullOf r hr (of_decide_eq_true hbytes)
      have hhas : exactRuns.hasNullComponent r.key = true := hisNull.trans hnull.2
      rw [hhas, hnull.1] at hkept
      cases hkept
    refine ⟨⟨0, 0, 0⟩, ?_⟩
    rw [hnone, scanExactData, if_pos (by rw [hnull.1, hnull.2]; rfl)]
  · have hsame : rowsWith y (kept exactRuns definition.unique records) = rowsWith y records := by
      rw [rowsWith, kept, filter_filter]
      refine congrArg _ (filter_congr fun r hr => ?_)
      by_cases hbytes : r.key.1.bytes = y
      · have hhas : exactRuns.hasNullComponent r.key = n := hnullOf r hr hbytes
        have hkept : (!(exactRuns.skipsNull && definition.unique && n)) = true := by
          rw [not_and_or, Bool.not_eq_true, Bool.not_eq_true] at hnull
          rcases hnull with h | h <;> rw [h] <;> simp
        rw [hhas, hkept, Bool.and_true]
      · rw [decide_eq_false hbytes, Bool.false_and]
    have hone : ∀ c ∈ keys.zip values, ∃ target, (do
        let key ← encodeCanonicalKeySpecs json [c.1.2] [c.2]
        (.ok key.1 : FormatResult Bytes)) = .ok target := by
      intro c hc
      obtain ⟨j, hj⟩ := mem_iff_getElem?.mp hc
      obtain ⟨hkey, hvalue⟩ := getElem?_zip_eq_some.mp hj
      obtain ⟨r, hr⟩ := encode_single hy (column_at hkey) hvalue
      exact ⟨r.1, by rw [hr]; rfl⟩
    obtain ⟨targets, htgts⟩ := exists_mapM hone
    have hforall : Targets json keys values targets :=
      (forall₂_of_mapM htgts).imp fun c target hof => by
        obtain ⟨r, hr, hof⟩ := ok_of_bind hof
        cases hof
        exact ⟨r.2, hr⟩
    obtain ⟨counts, hscan⟩ := scanGroups_spec hidx hy hforall hnull [] ⟨0, 0, 0⟩
    refine ⟨counts, ?_⟩
    rw [scanExactData, if_neg (by simpa using hnull), hsame]
    refine bind_eq_ok.mpr ⟨targets, Checked.ofExcept_eq_ok.mpr htgts, hscan⟩

/-- The rows that were visited. -/
def visitedRows (result : Reading (List ℕ × ExactLookupReport)) : Reading (List ℕ) :=
  result.map Prod.fst

/-- **With the index, without it and while it is rebuilt, the same rows are visited**, also after
earlier visits; and if the values have a key, the visit succeeds. -/
theorem index_and_scan_visit_same_rows (json : Bytes → Option String) (lz4 : Lz4)
    (crc : Bytes → UInt32) (digest : Bytes → δ) (pageEntrySize : ℕ)
    (requestRebuild : UnavailableIndexReason → RebuildRequestStatus) (hlz4 : lz4.Lossless)
    (data : DataArtifact) (definition : ExactLookupDefinition) (accelerator : ExactAccelerator)
    (hbuilt : BuiltFrom json lz4 crc data definition accelerator) (earlier : List (List Value))
    (values : List Value) (reason : UnavailableIndexReason) :
    let visit := visitExactIndexOrScan json lz4 crc digest pageEntrySize requestRebuild data
      definition values
    let memo := memoOf json crc digest pageEntrySize data definition accelerator earlier
    visitedRows (visit (.available accelerator memo)) = visitedRows (visit (.unavailable reason)) ∧
      visitedRows (visit (.available accelerator memo)) = visitedRows (visit .rebuilding) ∧
      ∀ sourceColumns key, resolveSourceColumns data.columns definition.keyColumns =
          .ok sourceColumns →
        encodeCanonicalKeySpecs json (sourceColumns.map Prod.snd) values = .ok key →
        ∃ rows, visitedRows (visit (.available accelerator memo)) = .ok rows := by
  intro visit memo
  cases hres : resolveSourceColumns data.columns definition.keyColumns with
  | error e =>
    have hfail : ∀ state, visit state = .error (.error e) := fun state => by
      simp only [visit, visitExactIndexOrScan, hres, Checked.ofExcept, bind, Except.bind]
    rw [hfail, hfail, hfail]
    exact ⟨rfl, rfl, fun _ _ hcols => by cases hcols⟩
  | ok sourceColumns =>
    cases hkey : encodeCanonicalKeySpecs json (sourceColumns.map Prod.snd) values with
    | error e =>
      have hfail : ∀ state, visit state = .error (.error e) := fun state => by
        simp only [visit, visitExactIndexOrScan, hres, hkey, Checked.ofExcept, bind, Except.bind]
      rw [hfail, hfail, hfail]
      refine ⟨rfl, rfl, fun columns key hcols henc => ?_⟩
      cases hcols
      cases hkey.symm.trans henc
    | ok key =>
      obtain ⟨y, n⟩ := key
      obtain ⟨spec, spilled, keys, codec, builder, records, hidx, hpush, hdesc⟩ :=
        hbuilt.indexed hlz4
      obtain ⟨rfl, hne⟩ := resolve_eq_sourceKeys hres hdesc.keys_of
      obtain ⟨counts, hscan⟩ := scanExactData_spec definition hidx hkey
      generalize hrows : rowsWith y (kept exactRuns definition.unique records) = rows at hscan
      have hscanned : ∀ reason status, visitedRows (scanWith json lz4 data definition values
          sourceColumns n reason status) = .ok rows := fun reason status => by
        simp only [scanWith, hscan, ok_bind]
        rfl
      have hother : visitedRows (visit (.unavailable reason)) = .ok rows ∧
          visitedRows (visit .rebuilding) = .ok rows := by
        simp only [visit, visitExactIndexOrScan, hres, hkey, Checked.ofExcept, bind, Except.bind]
        exact ⟨hscanned _ _, hscanned _ _⟩
      have havailable : visitedRows (visit (.available accelerator memo)) = .ok rows := by
        simp only [visit, visitExactIndexOrScan, hres, hkey, Checked.ofExcept, bind, Except.bind]
        cases hlook : lookupAvailable json crc digest pageEntrySize accelerator memo data
            definition sourceColumns values with
        | error reason => exact hscanned _ _
        | ok found =>
          obtain ⟨_, -, hfound⟩ := bind_eq_ok.mp hlook
          split at hfound
          · rename_i answer hanswer
            cases hfound
            have hbinding : accelerator.binding sourceColumns = ⟨sourceColumns.map Prod.snd,
                spec.unique, builder.indexedItemCount, data.rowCount⟩ := by
              rw [ExactAccelerator.binding, hdesc.same_unique, hdesc.items,
                hdesc.source_rows, hdesc.unique]
            have hmemo : memo = memoAfter crc digest json pageEntrySize
                (accelerator.binding sourceColumns) accelerator.pages earlier := by
              simp only [memo, memoOf, hres]
            have hcols : (accelerator.binding sourceColumns).columns =
                sourceColumns.map Prod.snd := rfl
            rw [lookupExactIndexFromSource, hcols, hkey, hmemo, hbinding] at hanswer
            have hfound := lookup_rows hne hidx hpush hdesc.pages earlier hanswer
            rw [hdesc.unique, hrows] at hfound
            exact congrArg ok hfound
          · cases hfound
      rw [hother.1, hother.2, havailable]
      exact ⟨rfl, rfl, fun _ _ _ _ => ⟨rows, rfl⟩⟩

end

/-! ## A small artifact -/

/-- Compression that leaves bytes as they are. -/
def plainLz4 : Lz4 := ⟨id, fun bytes _ => some bytes⟩

/-- One column with the integers 7 and 8. -/
def twoRows : DataArtifact where
  columns := [integerColumn]
  groups := [⟨0, ⟨2, by decide⟩, [(⟨.none, .plainValues, 49, 2⟩,
    [86, 65, 76, 49, 1, 0, 1, 0, 2, 0, 0, 0, 1, 0, 0, 0, 0, 0, 0, 0, 16, 0, 0, 0, 0, 0, 0, 0,
      0, 0, 0, 0, 3, 7, 0, 0, 0, 0, 0, 0, 0, 8, 0, 0, 0, 0, 0, 0, 0])]⟩]
  rowCount := 2
  contiguous := rfl

def onFirstColumn : ExactLookupDefinition :=
  ⟨[⟨0, .integer⟩], false, cons_ne_nil _ _, by decide, nodup_singleton _⟩

/-- The key of a small integer. -/
def integerRunKey (byte : UInt8) : ExactRunKey :=
  ⟨⟨[1, 1, 0, 0, 8, 0, 0, 0, byte, 0, 0, 0, 0, 0, 0, 0], false⟩, show 0 < 16 by decide,
    show 16 ≤ maxIndexKeyBytes by decide⟩

/-- The index of the two rows, built while they are written, answers as a scan does. -/
theorem index_and_scan_visit_same_rows_two :
    ∃ pages, visitedRows (visitExactIndexOrScan (fun _ => none) plainLz4 (fun _ => 0) id 64
      (fun _ => .enqueued) twoRows onFirstColumn [.integer ⟨8, by decide⟩]
      (.available ⟨[⟨0, .integer⟩], false, 2, 2, pages⟩
        (memoOf (fun _ => none) (fun _ => 0) id 64 twoRows onFirstColumn
          ⟨[⟨0, .integer⟩], false, 2, 2, pages⟩ [[.integer ⟨7, by decide⟩]]))) = .ok [1] := by
  refine ⟨_, (index_and_scan_visit_same_rows (fun _ => none) plainLz4 (fun _ => 0) id 64
    (fun _ => .enqueued) (fun _ => rfl) twoRows onFirstColumn _
    (.fanOut [⟨integerColumn, .plain, .none⟩] ⟨4194304, by decide⟩
      [[[.integer ⟨7, by decide⟩], [.integer ⟨8, by decide⟩]]] (smallBuild 4 (by decide)) 0
      [(0, integerColumn)] .none _ rfl (by decide) rfl rfl
      ⟨rfl, rfl, rfl, rfl, rfl, rfl, rfl, .memory [⟨integerRunKey 7, 0⟩, ⟨integerRunKey 8, 1⟩],
        [⟨integerRunKey 7, [0], .complete⟩, ⟨integerRunKey 8, [1], .complete⟩], rfl,
        .more rfl (.more rfl (.done rfl)), rfl⟩)
    [[.integer ⟨7, by decide⟩]] [.integer ⟨8, by decide⟩] .missing).2.1.trans rfl⟩

end RadixDb.ExactAccess
