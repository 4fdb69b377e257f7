import RadixDb.Data.ColumnPlain

/-!
# Payloads with a dictionary round trip

A dictionary holds the payloads that occur, sorted and each once (`uniquePayloads_spec`), and every
row has a code. The code of a row is one more than the place of its payload; so the cell of a code
is what a plain payload would have had in its place (`coded_cell`), and what is known of cells
carries over.

Texts stay shared after reading. The other types are expanded to a copy for each row, and the reader
limits how long the copies may be together, which the writer does not check. **A payload with a
dictionary is read back if it is of texts or its copies are within the limit, and otherwise it is
refused** (`decodeDictionary_encode`).
-/

namespace RadixDb.Column

open List Checked Nat Except Bytes

section

variable {json : Json} {column : DataColumnSpec} {values : List Value}
  {dictionary : List Bytes} {codes : List ℕ}

/-! ## The dictionary -/

theorem follows_compareBytes (S : Set Bytes) : Follows compareBytes id S :=
  fun a _ b _ => compareBytes_compares a b

variable (payloads : List Bytes)

/-- The payloads are sorted, and they are those that occur. -/
theorem uniquePayloads_spec :
    (uniquePayloads payloads).Pairwise (fun a b => compareBytes a b = .lt) ∧
      ∀ p ∈ uniquePayloads payloads, p ∈ payloads := by
  -- what holds of the entries while the payloads are put in one by one
  have hfold : ∀ (rest : List Bytes) (m : List (Bytes × Unit)), OrderedMap.Sorted compareBytes m →
      OrderedMap.Sorted compareBytes (rest.foldl (fun unique bytes =>
        OrderedMap.upsert compareBytes bytes (fun _ => ()) unique) m) ∧
      ∀ e ∈ rest.foldl (fun unique bytes =>
        OrderedMap.upsert compareBytes bytes (fun _ => ()) unique) m,
        e.1 ∈ rest ∨ ∃ e' ∈ m, e'.1 = e.1 := by
    intro rest
    induction rest with
    | nil => exact fun m hm => ⟨hm, fun e he => .inr ⟨e, he, rfl⟩⟩
    | cons bytes rest ih =>
      intro m hm
      have hfollows := follows_compareBytes Set.univ
      obtain ⟨hsorted, hmem⟩ := ih _ (OrderedMap.sorted_upsert (k := bytes) (f := fun _ => ()) hm
        hfollows trivial fun _ _ => trivial)
      refine ⟨hsorted, fun e he => ?_⟩
      rcases hmem e he with hrest | ⟨e', he', heq⟩
      · exact .inl (mem_cons_of_mem _ hrest)
      · obtain ⟨hold, -⟩ | rfl :=
          (OrderedMap.mem_upsert hm hfollows trivial fun _ _ => trivial).mp he'
        · exact .inr ⟨e', hold, heq⟩
        cases hfind : OrderedMap.getKeyValue compareBytes bytes m with
        | none =>
          rw [hfind] at heq
          exact .inl (heq ▸ mem_cons_self)
        | some d =>
          rw [hfind] at heq
          exact .inr ⟨d, ((OrderedMap.getKeyValue_eq_some hm hfollows trivial fun _ _ =>
            trivial).mp hfind).1, heq⟩
  obtain ⟨hsorted, hmem⟩ := hfold payloads [] Pairwise.nil
  refine ⟨pairwise_map.mpr hsorted, fun p hp => ?_⟩
  obtain ⟨e, he, rfl⟩ := mem_map.mp hp
  rcases hmem e he with hpay | ⟨e', he', -⟩
  · exact hpay
  · cases he'

theorem length_uniquePayloads_le : (uniquePayloads payloads).length ≤ payloads.length := by
  obtain ⟨hsorted, hmem⟩ := uniquePayloads_spec payloads
  refine (subperm_of_subset (hsorted.imp fun {a b} hlt heq => ?_) hmem).length_le
  have := (compareBytes_compares a b).eq_lt.mp hlt
  exact this.ne heq

/-- **The reader's check of the order** succeeds. -/
theorem checkDictionary_cells (pre : Bytes)
    (h : dictionary.Pairwise fun a b => compareBytes a b = .lt) :
    checkDictionary (pre ++ dictionary.flatten) (pre.length :: ends pre.length dictionary) =
      .ok () := by
  induction dictionary generalizing pre with
  | nil => rfl
  | cons a dictionary ih =>
    cases dictionary with
    | nil => rfl
    | cons b dictionary =>
      obtain ⟨hfirst, hrest⟩ := pairwise_cons.mp h
      have hleft : (slice (pre ++ (a :: b :: dictionary).flatten) pre.length
          (pre.length + a.length) : Reading Bytes) = .ok a := by
        exact slice_append rfl rfl
      have hright : (slice (pre ++ (a :: b :: dictionary).flatten) (pre.length + a.length)
          (pre.length + a.length + b.length) : Reading Bytes) = .ok b := by
        rw [flatten_cons, flatten_cons, ← append_assoc]
        exact slice_append length_append rfl
      have htail := ih (pre ++ a) hrest
      rw [append_assoc, ← flatten_cons, length_append] at htail
      simp only [ends] at htail ⊢
      simp only [checkDictionary, hleft, hright, hfirst b mem_cons_self, ok_bind,
        ne_eq, not_true_eq_false, if_false, htail]

/-! ## Codes -/

/-- The cell that a code stands for. -/
def codeCell (dictionary : List Bytes) (code : ℕ) : Bytes :=
  if code = 0 then [] else dictionary.getD (code - 1) []

/-- **The code of a row stands for its cell.** -/
theorem coded_cell (hbi : column.dataType.externalTypeRef = none) {v : Value} {code : ℕ}
    (h : dictionaryCode json column dictionary v = .ok code) :
    variableCell json column v = .ok (codeCell dictionary code) ∧ v.isNull = (code == 0) ∧
      code ≤ dictionary.length := by
  unfold dictionaryCode at h
  unfold variableCell
  cases hnull : v.isNull with
  | true =>
    rw [hnull, if_pos rfl] at h
    cases h
    exact ⟨rfl, rfl, zero_le _⟩
  | false =>
    rw [hnull, if_neg Bool.false_ne_true] at h
    rw [if_neg Bool.false_ne_true, appendColumnNonNullBytes, hbi]
    cases hbytes : appendNonNullRepresentation json column.dataType.logicalType v with
    | error e =>
      simp only [hbytes] at h
      cases h
    | ok bytes =>
      simp only [hbytes, ok_bind] at h
      cases hordinal : dictionary.idxOf? bytes with
      | none =>
        rw [hordinal] at h
        cases h
      | some ordinal =>
        rw [hordinal] at h
        cases h
        obtain ⟨hlt, hbeq, -⟩ := findIdx?_eq_some_iff_getElem.mp hordinal
        refine ⟨?_, rfl, hlt⟩
        rw [codeCell, if_neg (succ_ne_zero _), Nat.add_sub_cancel, getD_eq_getElem?_getD,
          getElem?_eq_getElem hlt, Option.getD_some, beq_iff_eq.mp hbeq]

theorem codeCell_of_ne_zero {code : ℕ} (hcode : code ≠ 0) (hle : code ≤ dictionary.length) :
    dictionary[code - 1]? = some (codeCell dictionary code) := by
  rw [codeCell, if_neg hcode, getD_eq_getElem?_getD,
    getElem?_eq_getElem (by omega), Option.getD_some]

/-- The rows as the reader has them. -/
def codeRow (code : ℕ) : ℕ × Bool := (code - 1, code == 0)

/-- **The codes are read.** -/
theorem readCode_codes {pre : Bytes} {dictionaryEnd : ℕ} (hpre : pre.length = dictionaryEnd)
    (hsize : dictionaryEnd + codes.length * 4 < Checked.wordSize)
    (hcodes : ∀ code ∈ codes, code ≤ dictionary.length) (hlength : dictionary.length < 2 ^ 32)
    (hnulls : values.map (·.isNull) = codes.map (· == 0)) :
    (range values.length).mapM (readCode (pre ++ (wordTable codes ++ []))
      (encodeValidity values) dictionaryEnd dictionary.length) = .ok (codes.map codeRow) := by
  have hlen : values.length = codes.length := by simpa using congrArg length hnulls
  have hwords : ∀ w ∈ codes, w < 2 ^ 32 := fun w hw => (hcodes w hw).trans_lt hlength
  have hrow : ∀ index ∈ range values.length,
      readCode (pre ++ (wordTable codes ++ [])) (encodeValidity values) dictionaryEnd
        dictionary.length index = .ok (codeRow (codes.getD index 0)) := by
    intro index hindex
    have hlt : index < codes.length := hlen ▸ mem_range.mp hindex
    have hcode := getElem?_eq_getElem hlt
    have hword := word_wordTable hwords pre [] hcode
    rw [hpre] at hword
    have hbit := getBit_encodeValidity values index
    have hnull : (values.map (·.isNull))[index]? = some (codes[index] == 0) := by
      rw [hnulls, getElem?_map, hcode, Option.map_some]
    rw [getElem?_map] at hnull
    have hvalid : Bitmap.getBit (encodeValidity values) index = !(codes[index] == 0) := by
      rw [hbit]
      obtain ⟨v, hv, hvnull⟩ := Option.map_eq_some_iff.mp hnull
      rw [hv, Option.map_some, Option.getD_some, hvnull]
    have hle := hcodes _ (getElem_mem hlt)
    simp only [readCode, mul, add, if_pos (show index * 4 < wordSize by omega),
      if_pos (show dictionaryEnd + index * 4 < wordSize by omega), hword,
      isValid_encode (mem_range.mp hindex), hvalid, ok_bind, getD_eq_getElem?_getD,
      hcode, Option.getD_some]
    by_cases hzero : codes[index] = 0
    · simp [hzero, codeRow]
    · rw [if_pos (by simpa using hzero), if_neg (by omega)]
      simp [codeRow, hzero]
  rw [mapM_eq_ok hrow]
  refine congrArg ok (ext_getElem (by simp [hlen]) fun i h1 h2 => ?_)
  rw [length_map] at h2
  rw [getElem_map, getElem_range, getElem_map, getD_eq_getElem?_getD,
    getElem?_eq_getElem h2, Option.getD_some]

/-! ## Rows -/

/-- How many bytes the cell of a value has. -/
def cellLength (json : Json) (column : DataColumnSpec) (v : Value) : ℕ :=
  match variableCell json column v with
  | .ok cell => cell.length
  | .error _ => 0

/-- How many bytes the values have if each row has its own copy. -/
def expandedBytes (json : Json) (column : DataColumnSpec) (values : List Value) :
    ℕ :=
  (values.map (cellLength json column)).sum

/-- What a writer that has succeeded says of its dictionary and its codes. -/
structure Coded (json : Json) (column : DataColumnSpec) (values : List Value)
    (dictionary : List Bytes) (codes : List ℕ) : Prop where
  sorted : dictionary.Pairwise fun a b => compareBytes a b = .lt
  few : dictionary.length ≤ (values.map (·.isNull)).count false
  short : dictionary.flatten.length < 2 ^ 32
  reads : ∀ p ∈ dictionary, ∃ w, decodeNonNull json column column.dataType.logicalType p = .ok w
  rows : Forall₂ (fun v code => variableCell json column v = .ok (codeCell dictionary code) ∧
    v.isNull = (code == 0) ∧ code ≤ dictionary.length) values codes

theorem present_codes (dictionary : List Bytes) (codes : List ℕ) :
    present (codes.map (· == 0)) (codes.map (codeCell dictionary)) =
      codes.map fun code => if code = 0 then none else some (codeCell dictionary code) := by
  rw [present, zipWith_map, zipWith_self]
  simp

/-- **The copies of the rows** are as long as their cells. -/
theorem expandedLength_codes (hcodes : ∀ code ∈ codes, code ≤ dictionary.length) (total : ℕ)
    (hsize : total + (codes.map fun code => (codeCell dictionary code).length).sum <
      Checked.wordSize) :
    expandedLength (0 :: ends 0 dictionary) (codes.map codeRow) total =
      .ok (total + (codes.map fun code => (codeCell dictionary code).length).sum) := by
  induction codes generalizing total with
  | nil => rfl
  | cons code codes ih =>
    obtain ⟨hcode, hrest⟩ := forall_mem_cons.mp hcodes
    rw [map_cons, sum_cons] at hsize
    rw [map_cons, map_cons, sum_cons]
    by_cases hzero : code = 0
    · subst hzero
      rw [codeCell, if_pos rfl, length_nil, zero_add] at hsize ⊢
      exact ih hrest total hsize
    · have hcell := codeCell_of_ne_zero hzero hcode
      obtain ⟨hlt, hget⟩ := List.getElem?_eq_some_iff.mp hcell
      have hstart := getElem?_offsets 0 (le_of_lt hlt)
      have hstop := getElem?_offsets 0 (succ_le_of_lt hlt)
      rw [zero_add] at hstart
      rw [zero_add, take_succ_eq_append_getElem hlt, hget, flatten_append,
        length_append, flatten_singleton] at hstop
      have hrow : codeRow code = (code - 1, false) := by
        rw [codeRow, beq_eq_false_iff_ne.mpr hzero]
      rw [hrow, expandedLength]
      simp only [index, hstart, hstop, ok_bind, if_neg (not_lt.mpr
        (le_add_right _ _)), Nat.add_sub_cancel_left, checkedAdd, if_pos (show total +
        (codeCell dictionary code).length < wordSize by omega)]
      rw [ih hrest _ (by omega), add_assoc]

section

variable (h : Coded json column values dictionary codes)

include h

theorem Coded.nulls : values.map (·.isNull) = codes.map (· == 0) := by
  rw [← forall₂_eq_eq_eq, forall₂_map_left_iff, forall₂_map_right_iff]
  exact h.rows.imp fun _ _ hrow => hrow.2.1

theorem Coded.le_length : ∀ code ∈ codes, code ≤ dictionary.length := by
  intro code hcode
  obtain ⟨i, hi, rfl⟩ := mem_iff_getElem.mp hcode
  have hlt : i < values.length := h.rows.length_eq ▸ hi
  exact ((forall₂_iff_get.mp h.rows).2 i hlt hi).2.2

theorem Coded.written (hvalid : AllValid json column values) :
    Forall₂ (Written json column []) values (codes.map (codeCell dictionary)) := by
  refine written_of_forall₂ hvalid (fun _ => rfl) ?_
  rw [forall₂_map_right_iff]
  exact h.rows.imp fun _ _ hrow => hrow.1

theorem Coded.expandedBytes_eq :
    expandedBytes json column values =
      (codes.map fun code => (codeCell dictionary code).length).sum := by
  unfold expandedBytes
  congr 1
  rw [← forall₂_eq_eq_eq, forall₂_map_left_iff, forall₂_map_right_iff]
  refine h.rows.imp fun v code hrow => ?_
  rw [cellLength, hrow.1]

end

theorem length_codeCell_le (dictionary : List Bytes) (code : ℕ) :
    (codeCell dictionary code).length ≤ dictionary.flatten.length := by
  unfold codeCell
  split_ifs with hzero
  · exact zero_le _
  · rw [getD_eq_getElem?_getD]
    cases hcell : dictionary[code - 1]? with
    | none => exact zero_le _
    | some cell =>
      rw [length_flatten]
      exact single_le_sum (fun _ _ => zero_le _) _
        (mem_map_of_mem (mem_of_getElem? hcell))

section

variable (h : Coded json column values dictionary codes)

include h

theorem Coded.expandedBytes_lt (hrows : values.length ≤ maxRowsPerGroup) :
    expandedBytes json column values < Checked.wordSize := by
  have hbound : ∀ n ∈ codes.map fun code => (codeCell dictionary code).length, n ≤ 2 ^ 32 := by
    intro n hn
    obtain ⟨code, -, rfl⟩ := mem_map.mp hn
    exact (length_codeCell_le dictionary code).trans h.short.le
  have hsum := sum_le_card_nsmul _ _ hbound
  rw [length_map, ← h.rows.length_eq, Nat.nsmul_eq_mul] at hsum
  rw [h.expandedBytes_eq, wordSize]
  have hgroup : maxRowsPerGroup = 65536 := rfl
  omega

/-- **The copies** of the rows. -/
theorem Coded.expand (hvalid : AllValid json column values)
    (hbi : column.dataType.externalTypeRef = none)
    (hcopied : isCopied column.dataType.logicalType = true)
    (hrows : values.length ≤ maxRowsPerGroup) :
    (expandedBytes json column values ≤ maxLogicalBytesPerBlock →
      Gives column values (expandDictionaryBytes dictionary.flatten (0 :: ends 0 dictionary)
        (codes.map codeRow) column.dataType.logicalType)) ∧
    (maxLogicalBytesPerBlock < expandedBytes json column values →
      expandDictionaryBytes dictionary.flatten (0 :: ends 0 dictionary) (codes.map codeRow)
        column.dataType.logicalType = Checked.fail (.limit "expanded dictionary bytes"
          (expandedBytes json column values) maxLogicalBytesPerBlock)) := by
  have hsize := h.expandedBytes_lt hrows
  have hexp := h.expandedBytes_eq
  have hlength := expandedLength_codes h.le_length 0 (by rwa [zero_add, ← hexp])
  rw [zero_add, ← hexp] at hlength
  constructor
  · intro hfits
    have hwritten := h.written hvalid
    have hdec := decode_of_written hbi hwritten
    have hcopies : ((codes.map codeRow).map fun row => if row.2 then none else
        some (between dictionary.flatten (0 :: ends 0 dictionary) row.1)) =
        (present (values.map (·.isNull)) (codes.map (codeCell dictionary))).map
          (Option.map .ok) := by
      rw [h.nulls, present_codes, map_map, map_map]
      refine map_congr_left fun code hcode => ?_
      by_cases hzero : code = 0
      · simp [codeRow, hzero]
      · have hcell := codeCell_of_ne_zero hzero (h.le_length code hcode)
        simp [codeRow, hzero, between_cells hcell]
    have hbytes : (codes.map (codeCell dictionary)).flatten.length < wordSize := by
      rw [length_flatten, map_map]
      exact hexp ▸ hsize
    have hgives := copied_payloads hcopied hcopies hbytes hdec
    have hnulls : (codes.map codeRow).map Prod.snd = values.map (·.isNull) := by
      rw [h.nulls, map_map]
      rfl
    simpa only [expandDictionaryBytes, hlength, ok_bind, if_neg (not_lt.mpr hfits), hnulls]
  · intro hlong
    simp only [expandDictionaryBytes, hlength, if_pos hlong, ok_bind]

/-- **The texts** of the rows. -/
theorem Coded.texts (hvalid : AllValid json column values)
    (hbi : column.dataType.externalTypeRef = none)
    (htype : column.dataType.logicalType = .text) :
    ∃ texts, dictionaryTexts dictionary.flatten (0 :: ends 0 dictionary) dictionary.length =
        .ok texts ∧
      (DecodedColumn.text ((codes.map codeRow).map Prod.fst) texts
        ((codes.map codeRow).map Prod.snd)).intoValues = .ok (values.map (asRead column)) := by
  have htexts : ∀ (i : ℕ) cell, dictionary[i]? = some cell → ∃ s, fromUtf8 cell = some s := by
    intro i cell hcell
    obtain ⟨w, hw⟩ := h.reads _ (mem_of_getElem? hcell)
    rw [htype] at hw
    have htext := text_of_decode hw
    unfold textValue at htext
    split at htext
    · next s hs => exact ⟨s, hs⟩
    · cases htext
  have hfound : ∃ texts, dictionaryTexts dictionary.flatten (0 :: ends 0 dictionary)
      dictionary.length = .ok texts := by
    refine exists_mapM fun index hindex => ?_
    have hcell := getElem?_eq_getElem (mem_range.mp hindex)
    obtain ⟨s, hs⟩ := htexts _ _ hcell
    exact ⟨s, by simp only [between_cells hcell, hs, ok_bind]⟩
  obtain ⟨texts, hfound⟩ := hfound
  refine ⟨texts, hfound, ?_⟩
  have hread := forall₂_of_mapM hfound
  have hlook : ∀ (i : ℕ) cell, dictionary[i]? = some cell →
      ∃ s, fromUtf8 cell = some s ∧ texts[i]? = some s := by
    intro i cell hcell
    obtain ⟨hlt, -⟩ := List.getElem?_eq_some_iff.mp hcell
    have hrange : i < (range dictionary.length).length := by rwa [length_range]
    have hi : i < texts.length := hread.length_eq ▸ hrange
    obtain ⟨s, hs⟩ := htexts i cell hcell
    have hget := (forall₂_iff_get.mp hread).2 i hrange hi
    simp only [get_eq_getElem, getElem_range, between_cells hcell, hs, ok_bind] at hget
    exact ⟨s, hs, by rw [getElem?_eq_getElem hi, ok.inj hget]⟩
  have hstands : Forall₂ (StandsFor texts)
      (present (codes.map (· == 0)) (codes.map (codeCell dictionary)))
      ((codes.map codeRow).map Prod.fst) := by
    rw [present_codes, map_map, forall₂_map_left_iff, forall₂_map_right_iff, forall₂_same]
    intro code hcode cell hcell
    split_ifs at hcell with hzero
    cases hcell
    exact hlook _ _ (codeCell_of_ne_zero hzero (h.le_length code hcode))
  have hwritten := decode_of_written hbi (h.written hvalid)
  rw [htype] at hwritten
  have hrows : readCells (columnNull column) textValue _ _ = _ := readCells_of_decode
    (hwritten.imp fun v cell hvalue hv => text_of_decode (hvalue hv))
  rw [columnNull, htype, h.nulls] at hrows
  have hsnd : (codes.map codeRow).map Prod.snd = codes.map (· == 0) := by
    rw [map_map]
    rfl
  rw [DecodedColumn.intoValues, hsnd]
  exact (rowValues_texts (by simp) hstands).trans hrows

end

/-- What reading a payload with a dictionary gives. -/
def Expands (json : Json) (column : DataColumnSpec) (values : List Value)
    (decoded : Reading DecodedColumn) : Prop :=
  (column.dataType.logicalType = .text ∨
    expandedBytes json column values ≤ maxLogicalBytesPerBlock → Gives column values decoded) ∧
  (column.dataType.logicalType ≠ .text →
    maxLogicalBytesPerBlock < expandedBytes json column values →
    decoded = Checked.fail (.limit "expanded dictionary bytes" (expandedBytes json column values)
      maxLogicalBytesPerBlock))

/-- **The rows** of a payload with a dictionary. -/
theorem Coded.decode (h : Coded json column values dictionary codes)
    (hvalid : AllValid json column values)
    (hbi : column.dataType.externalTypeRef = none)
    (htypes : isDictionaryType column.dataType.logicalType = true)
    (hrows : values.length ≤ maxRowsPerGroup) {pre : Bytes} {dictionaryEnd : ℕ}
    (hpre : pre.length = dictionaryEnd)
    (hsize : dictionaryEnd + codes.length * 4 < Checked.wordSize) :
    Expands json column values (decodeDictionaryRows json column (pre ++ (wordTable codes ++ []))
      (encodeValidity values) dictionary.flatten (0 :: ends 0 dictionary) dictionaryEnd
      values.length dictionary.length) := by
  have hfew := h.few.trans count_le_length
  rw [length_map] at hfew
  have hgroup : maxRowsPerGroup = 65536 := rfl
  have hcheck : checkDictionary dictionary.flatten (0 :: ends 0 dictionary) = .ok () :=
    checkDictionary_cells [] h.sorted
  have hcodes := readCode_codes hpre hsize h.le_length (by omega) h.nulls
  unfold decodeDictionaryRows
  simp only [hcheck, readNulls_encode, if_neg (not_lt.mpr h.few), hcodes, ok_bind]
  -- texts stay shared; the other types are checked and expanded
  have hexpands : isCopied column.dataType.logicalType = true →
      Expands json column values (do
        (range dictionary.length).forM fun index => do
          let value ← between dictionary.flatten (0 :: ends 0 dictionary) index
          validateExtensionBytes json column column.dataType.logicalType value
        expandDictionaryBytes dictionary.flatten (0 :: ends 0 dictionary) (codes.map codeRow)
          column.dataType.logicalType) := by
    intro hcopy
    have hall : ∀ index ∈ range dictionary.length, (do
        let value ← between dictionary.flatten (0 :: ends 0 dictionary) index
        validateExtensionBytes json column column.dataType.logicalType value : Reading Unit) =
        .ok () := by
      intro index hindex
      have hlt := mem_range.mp hindex
      obtain ⟨w, hw⟩ := h.reads _ (getElem_mem hlt)
      simp only [between_cells (getElem?_eq_getElem hlt), ok_bind, (extension_of_decode hcopy hw).1]
    rw [forM_eq_ok_iff.mpr hall]
    have htext : column.dataType.logicalType ≠ .text := by
      intro htext
      rw [htext] at hcopy
      cases hcopy
    obtain ⟨hfits, hlong⟩ := h.expand hvalid hbi hcopy hrows
    exact ⟨fun hcase => hfits (hcase.resolve_left htext), fun _ => hlong⟩
  cases htype : column.dataType.logicalType <;> rw [htype] at htypes
  case text =>
    obtain ⟨texts, htexts, hinto⟩ := h.texts hvalid hbi htype
    simp only [htexts]
    exact ⟨fun _ => ⟨_, rfl, hinto⟩, fun hne => absurd htype hne⟩
  case json | bytes =>
    rw [htype] at hexpands
    exact hexpands rfl
  all_goals cases htypes

/-! ## The payload -/

variable {group : DataRowGroup} {validity offsetBytes dictionaryBytes codeBytes : Bytes}
  {distinct : ℕ} {bytes : Bytes}

/-- **The header of a payload with a dictionary** is read. -/
theorem decodeDictionary_fields (hbi : column.dataType.externalTypeRef = none)
    (htypes : isDictionaryType column.dataType.logicalType = true) {offsets : List ℕ}
    (hdist : distinct ≤ group.rowCount) (hitems : distinct ≤ maxDictionaryItemsPerBlock)
    (hval : validity.length = validityBytes group.rowCount)
    (hoffs : offsetBytes.length = (distinct + 1) * 4)
    (hcodes : codeBytes.length = group.rowCount * 4)
    (hvalid : validateValidity validity group.rowCount column.nullable = .ok ())
    (hdec : decodeOffsets offsetBytes distinct dictionaryBytes.length = .ok offsets) (hsize :
      dictionaryHeaderBytes + validity.length + offsetBytes.length + dictionaryBytes.length +
      codeBytes.length ≤ maxLogicalBytesPerBlock) (hbytes : bytes = fields (dictionaryHeader
      group.rowCount distinct validity.length offsetBytes.length dictionaryBytes.length
      codeBytes.length) ++ (validity ++ (offsetBytes ++ (dictionaryBytes ++ codeBytes)))) :
    decodeDictionary json column group bytes =
      decodeDictionaryRows json column bytes validity dictionaryBytes offsets
        (dictionaryHeaderBytes + validity.length + offsetBytes.length + dictionaryBytes.length)
        group.rowCount distinct := by
  have hmax : maxLogicalBytesPerBlock = 536870912 := rfl
  have hword : wordSize = 18446744073709551616 := rfl
  have hall : bytes.length = dictionaryHeaderBytes + validity.length + offsetBytes.length +
      dictionaryBytes.length + codeBytes.length := by
    rw [hbytes, length_append, length_append, length_append, length_append, ← Nat.add_assoc,
      ← Nat.add_assoc, ← Nat.add_assoc]
    rfl
  have hmagic : bytes.take 4 = dictionaryMagic := hbytes ▸ take_fields _ rfl rfl
  have hver : word 2 bytes 4 = .ok 1 := hbytes ▸ word_fields 1 _ rfl (by decide)
  have hflags : word 2 bytes 6 = .ok 0 := hbytes ▸ word_fields 2 _ rfl (by decide)
  have hcount : word 4 bytes 8 = .ok group.rowCount := hbytes ▸ word_fields 3 _ rfl (by omega)
  have hdist' : word 4 bytes 12 = .ok distinct := hbytes ▸ word_fields 4 _ rfl (by omega)
  have hvalLen : word 4 bytes 16 = .ok validity.length :=
    hbytes ▸ word_fields 5 _ rfl (by omega)
  have hoffsLen : word 4 bytes 20 = .ok offsetBytes.length :=
    hbytes ▸ word_fields 6 _ rfl (by omega)
  have hdictLen : word 8 bytes 24 = .ok dictionaryBytes.length :=
    hbytes ▸ word_fields 7 _ rfl (by omega)
  have hcodesLen : word 4 bytes 32 = .ok codeBytes.length :=
    hbytes ▸ word_fields 8 _ rfl (by omega)
  have hrsv : word 4 bytes 36 = .ok 0 := hbytes ▸ word_fields 9 _ rfl (by decide)
  have hslice1 : (slice bytes dictionaryHeaderBytes
      (dictionaryHeaderBytes + validity.length) : Reading Bytes) = .ok validity := by
    rw [hbytes]
    exact slice_append rfl rfl
  have hslice2 : (slice bytes (dictionaryHeaderBytes + validity.length)
      (dictionaryHeaderBytes + validity.length + offsetBytes.length) : Reading Bytes) =
      .ok offsetBytes := by
    rw [hbytes, ← append_assoc]
    exact slice_append length_append rfl
  have hslice3 : (slice bytes
      (dictionaryHeaderBytes + validity.length + offsetBytes.length)
      (dictionaryHeaderBytes + validity.length + offsetBytes.length + dictionaryBytes.length) :
      Reading Bytes) = .ok dictionaryBytes := by
    rw [hbytes, ← append_assoc, ← append_assoc]
    exact slice_append (by rw [length_append, length_append]; rfl) rfl
  rw [decodeDictionary, hbi, htypes, if_neg (by decide), if_neg (by decide), if_neg]
  · have hcounts : ¬ (group.rowCount ≠ group.rowCount ∨ group.rowCount < distinct ∨
        maxDictionaryItemsPerBlock < distinct) := by omega
    have hlens : ¬ (validity.length ≠ validityBytes group.rowCount ∨
        offsetBytes.length ≠ (distinct + 1) * 4 ∨ codeBytes.length ≠ group.rowCount * 4) := by
      simp [hval, hoffs, hcodes]
    simp only [hver, hflags, hrsv, hcount, hdist', hvalLen, hoffsLen,
      hdictLen, hcodesLen, bind, Except.bind, if_neg hcounts, if_neg hlens]
    simp (disch := omega) only [checkedAdd_of_lt, hall, hslice1, hslice2, hslice3, hvalid,
      hdec, ne_eq, not_true_eq_false, or_self, if_false]
  · rw [hmagic, hall]
    simp only [ne_eq, not_true_eq_false, or_false, not_lt]
    omega

theorem reads_of_payloads (hbi : column.dataType.externalTypeRef = none)
    (hvalid : AllValid json column values) {payloads : List Bytes}
    (h : (values.filter (!·.isNull)).mapM
      (appendNonNullRepresentation json column.dataType.logicalType) = .ok payloads) :
    ∀ p ∈ payloads, ∃ w, decodeNonNull json column column.dataType.logicalType p = .ok w := by
  intro p hp
  obtain ⟨i, hi, rfl⟩ := mem_iff_getElem.mp hp
  have hall := forall₂_of_mapM h
  have hlt : i < (values.filter (!·.isNull)).length := hall.length_eq ▸ hi
  have happ := (forall₂_iff_get.mp hall).2 i hlt hi
  obtain ⟨hmem, hnull⟩ := mem_filter.mp (getElem_mem hlt)
  have hcell : appendColumnNonNullBytes json column (values.filter (!·.isNull))[i] =
      .ok payloads[i] := by
    rwa [appendColumnNonNullBytes, hbi]
  have hdec := decode_of_cell (hvalid _ hmem) (by simpa using hnull) hcell
  rw [decodeNonNullValue, hbi] at hdec
  exact ⟨_, hdec⟩

theorem count_false_nulls (values : List Value) :
    (values.map (·.isNull)).count false = (values.filter (!·.isNull)).length := by
  rw [List.count, countP_map, countP_eq_length_filter]
  congr 2
  funext v
  simp

/-- What the writer has written, as the reader cuts it. -/
theorem encodeDictionary_cases (hvalid : AllValid json column values)
    (h : encodeDictionary json column values = .ok bytes) :
    ∃ dictionary codes, Coded json column values dictionary codes ∧
      column.dataType.externalTypeRef = none ∧
      isDictionaryType column.dataType.logicalType = true ∧
      dictionary.length ≤ maxDictionaryItemsPerBlock ∧
      dictionaryHeaderBytes + (encodeValidity values).length +
        (wordTable (0 :: ends 0 dictionary)).length + dictionary.flatten.length +
        (wordTable codes).length ≤ maxLogicalBytesPerBlock ∧
      bytes = fields (dictionaryHeader values.length dictionary.length
        (encodeValidity values).length (wordTable (0 :: ends 0 dictionary)).length
        dictionary.flatten.length (wordTable codes).length) ++
        (encodeValidity values ++ (wordTable (0 :: ends 0 dictionary) ++
          (dictionary.flatten ++ wordTable codes))) := by
  unfold encodeDictionary at h
  split_ifs at h with hext htypes
  have hbi := Option.not_isSome_iff_eq_none.mp hext
  simp only [bind, Except.bind] at h
  obtain ⟨payloads, hpayloads, h⟩ := ok_of_bind h
  split_ifs at h with hitems
  obtain ⟨appended, happ, h⟩ := ok_of_bind h
  obtain ⟨offsets, dictionaryBytes⟩ := appended
  obtain ⟨codes, hcodes, h⟩ := ok_of_bind h
  dsimp only [validateLogicalLength] at h
  split_ifs at h with hlong
  · cases h
    obtain ⟨cells, hcells, hbytes, hoffs, hshort⟩ := appendCells_spec happ
    obtain rfl : uniquePayloads payloads = cells := by
      rw [← forall₂_eq_eq_eq]
      exact hcells.imp fun _ _ heq => ok.inj heq
    rw [nil_append] at hbytes
    obtain rfl : offsets = 0 :: ends 0 (uniquePayloads payloads) := hoffs
    subst hbytes
    obtain ⟨hsorted, hmem⟩ := uniquePayloads_spec payloads
    have hfew : (uniquePayloads payloads).length ≤ (values.map (·.isNull)).count false := by
      refine (length_uniquePayloads_le payloads).trans ?_
      rw [← (forall₂_of_mapM hpayloads).length_eq, count_false_nulls]
    refine ⟨uniquePayloads payloads, codes, ⟨hsorted, hfew, hshort (by decide),
      fun p hp => reads_of_payloads hbi hvalid hpayloads p (hmem p hp),
      (forall₂_of_mapM hcodes).imp fun _ _ hcode => coded_cell hbi hcode⟩,
      hbi, by simpa using htypes, not_lt.mp hitems, ?_, ?_⟩
    · rw [length_wordTable, length_wordTable]
      exact not_lt.mp hlong
    · rw [length_wordTable, length_wordTable]
      simp

/-- **A payload with a dictionary is read back, or refused because its copies are too long.** -/
theorem decodeDictionary_encode (hvalid : AllValid json column values)
    (hrows : values.length = group.rowCount) (h : encodeDictionary json column values = .ok bytes) :
    Expands json column values (decodeDictionary json column group bytes) := by
  obtain ⟨dictionary, codes, hcoded, hbi, htypes, hitems, hsize, hbytes⟩ :=
    encodeDictionary_cases hvalid h
  have hcheck := validateValidity_encode fun v hv => nullable_of_valid (hvalid v hv)
  have hval := length_encodeValidity values
  have hfew := hcoded.few.trans count_le_length
  rw [length_map] at hfew
  have hmax : maxLogicalBytesPerBlock = 536870912 := rfl
  have hword : wordSize = 18446744073709551616 := rfl
  have hlength := length_wordTable codes
  obtain ⟨pre, hsplit, hpre⟩ : ∃ pre, bytes = pre ++ (wordTable codes ++ []) ∧
      pre.length = dictionaryHeaderBytes + (encodeValidity values).length +
        (wordTable (0 :: ends 0 dictionary)).length + dictionary.flatten.length := by
    refine ⟨_ ++ encodeValidity values ++ wordTable (0 :: ends 0 dictionary) ++ dictionary.flatten,
      by rw [hbytes]; simp only [append_assoc, append_nil]; rfl, ?_⟩
    rw [length_append, length_append, length_append]
    rfl
  have hdec := hcoded.decode hvalid hbi htypes (hrows ▸ group.rows.2) hpre (by omega)
  rw [← hsplit] at hdec
  rw [hrows] at hbytes hval hcheck hfew hdec
  rw [decodeDictionary_fields hbi htypes hfew hitems hval (by rw [length_wordTable,
    length_cons, length_ends]) (by rw [length_wordTable, ← hcoded.rows.length_eq, hrows]) hcheck
    (decodeOffsets_cells hcoded.short) hsize hbytes]
  exact hdec

end

end RadixDb.Column
