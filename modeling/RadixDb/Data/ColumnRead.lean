import RadixDb.Data.Column
import RadixDb.Key.Payload

/-!
# Reading back the parts of a column

What a payload is made of, and what its reader makes of each part: the bitmap (`readNulls_encode`),
tables of 32-bit numbers (`readTable`), cells between offsets (`between_cells`), slots of one width
(`fixedSlot_cells`), and the copies that are made of rows (`rowValues_packed`).
-/

namespace RadixDb.Column

open List Checked Nat Bool Bytes

/-! ## The bitmap -/

section

variable {validity : Bytes} {count index : ℕ}

theorem isValid_eq (h : index / 8 < validity.length) :
    isValid validity index = .ok (Bitmap.getBit validity index) := by
  simp [isValid, Checked.index, getElem?_eq_getElem h, ok_bind, Bitmap.getBit]

variable (values : List Value)

theorem length_encodeValidity : (encodeValidity values).length = validityBytes values.length := by
  rw [encodeValidity, Bitmap.length_setBits, length_replicate]

theorem isValid_encode {values : List Value} (h : index < values.length) :
    isValid (encodeValidity values) index = .ok (Bitmap.getBit (encodeValidity values) index) := by
  refine isValid_eq ?_
  rw [length_encodeValidity, validityBytes]
  omega

/-- **A bit is set exactly if its row has a value.** -/
theorem getBit_encodeValidity (i : ℕ) :
    Bitmap.getBit (encodeValidity values) i = (values[i]?.map fun v => !v.isNull).getD false := by
  have hpositions : ∀ j ∈ (values.zipIdx.filter fun p => !p.1.isNull).map Prod.snd,
      j / 8 < (replicate (validityBytes values.length) (0 : UInt8)).length := by
    intro j hj
    obtain ⟨p, hp, rfl⟩ := mem_map.mp hj
    have hlt := (mem_zipIdx' (mem_filter.mp hp).1).1
    rw [length_replicate, validityBytes]
    omega
  rw [encodeValidity, Bitmap.getBit_setBits hpositions, Bitmap.getBit_replicate, Bool.false_or,
    Bool.eq_iff_iff, decide_eq_true_eq]
  simp only [mem_map, mem_filter, Prod.exists, exists_eq_right, mem_zipIdx_iff_getElem?]
  cases hv : values[i]? with
  | none => simp
  | some v => simp

theorem readNulls_eq (h : count ≤ 8 * validity.length) :
    readNulls validity count =
      .ok ((range count).map fun index => !Bitmap.getBit validity index) := by
  refine mapM_eq_ok fun index hindex => ?_
  rw [mem_range] at hindex
  rw [isValid_eq (by omega)]
  rfl

theorem nulls_encode :
    ((range values.length).map fun index => !Bitmap.getBit (encodeValidity values) index) =
      values.map (·.isNull) := by
  refine ext_getElem (by simp) fun i h1 h2 => ?_
  rw [length_map] at h2
  rw [getElem_map, getElem_range, getElem_map, getBit_encodeValidity, getElem?_eq_getElem h2]
  simp

theorem readNulls_encode :
    readNulls (encodeValidity values) values.length = .ok (values.map (·.isNull)) := by
  rw [readNulls_eq, nulls_encode]
  rw [length_encodeValidity, validityBytes]
  omega

theorem unused_bits_eq_zero {byte : UInt8} {used : ℕ} (hused : used < 8)
    (h : byte.toNat < 2 ^ used) : byte &&& ~~~((1 <<< UInt8.ofNat used) - 1) = 0 := by
  have hall : ∀ used : Fin 8, ∀ b : Fin 256, (b : ℕ) < 2 ^ (used : ℕ) →
      UInt8.ofNat b &&& ~~~((1 <<< UInt8.ofNat used) - 1) = 0 := by decide +kernel
  have hbyte := hall ⟨used, hused⟩ ⟨byte.toNat, byte.toNat_lt⟩ h
  rwa [UInt8.ofNat_toNat] at hbyte

/-- The last byte of the bitmap has only bits of rows. -/
theorem last_encodeValidity {values : List Value} (h : values.length % 8 ≠ 0) {byte : UInt8}
    (hlast : (encodeValidity values).getLast? = some byte) :
    byte.toNat < 2 ^ (values.length % 8) := by
  refine lt_pow_two_of_testBit _ fun k hk => ?_
  by_cases hbig : 8 ≤ k
  · refine testBit_lt_two_pow (byte.toNat_lt.trans_le ?_)
    exact Nat.pow_le_pow_right (by decide) hbig
  · have hlen := length_encodeValidity values
    rw [validityBytes] at hlen
    have hbit := getBit_encodeValidity values (8 * ((encodeValidity values).length - 1) + k)
    rw [getElem?_eq_none (by omega)] at hbit
    rw [getLast?_eq_getElem?] at hlast
    rwa [Bitmap.getBit, show (8 * ((encodeValidity values).length - 1) + k) / 8 =
        (encodeValidity values).length - 1 by omega, hlast,
      show (8 * ((encodeValidity values).length - 1) + k) % 8 = k by omega] at hbit

theorem validateValidity_encode {nullable : Bool} {values : List Value}
    (h : ∀ v ∈ values, v.isNull = true → nullable = true) :
    validateValidity (encodeValidity values) values.length nullable = .ok () := by
  have hunused : ¬ (values.length % 8 ≠ 0 ∧ (encodeValidity values).getLast?.any
      (fun byte => byte &&& ~~~((1 <<< UInt8.ofNat (values.length % 8)) - 1) != 0) = true) := by
    rintro ⟨hpart, hany⟩
    obtain ⟨byte, hlast, hbits⟩ := (Option.any_eq_true _ _).mp hany
    rw [bne_iff_ne] at hbits
    exact hbits (unused_bits_eq_zero (mod_lt _ (by decide)) (last_encodeValidity hpart hlast))
  rw [validateValidity, if_neg hunused]
  cases nullable with
  | true => rfl
  | false =>
    have hnone : (values.map (·.isNull)).any id = false := by
      rw [any_map, any_eq_false]
      exact fun v hv hnull => false_ne_true (h v hv hnull)
    simp only [false_eq_true, if_false, readNulls_encode, ok_bind, hnone]

end

/-! ## Numbers -/

section

theorem word_eq {width offset : ℕ} {bytes : Bytes} (h : offset + width ≤ bytes.length) :
    word width bytes offset = .ok (readWord width bytes offset) := by
  simp only [word, slice, if_pos (And.intro (le_add_right offset width) h), bind,
    Except.bind, Nat.add_sub_cancel_left, readWord]

variable {record : List (ℕ × ℕ)}

theorem word_fields (i : ℕ) {width n : ℕ} (rest : Bytes) (hi : record[i]? = some (width, n))
    (hn : n < 256 ^ width) : word width (fields record ++ rest) (fieldOffset record i) = .ok n := by
  obtain ⟨hlt, hget⟩ := List.getElem?_eq_some_iff.mp hi
  rw [word_eq, readWord_fields rfl rest i hi hn]
  have hsum : fieldOffset record i + width ≤ (record.map Prod.fst).sum := by
    conv_rhs => rw [← take_append_drop i record, drop_eq_getElem_cons hlt, hget]
    simp only [fieldOffset, map_append, map_cons, sum_append_nat, sum_cons]
    omega
  rw [length_append, length_fields]
  omega

theorem take_fields {magic : Bytes} (rest : Bytes) (hmagic : magic.length = 4)
    (h : record[0]? = some (4, leNat magic)) : (fields record ++ rest).take 4 = magic := by
  have hfield := take_drop_fields rest h
  have hbytes := leBytes_leNat magic
  rw [hmagic] at hbytes
  rwa [hbytes] at hfield

theorem length_wordTable (words : List ℕ) : (wordTable words).length = words.length * 4 := by
  induction words with
  | nil => rfl
  | cons w words ih =>
    rw [wordTable, flatMap_cons, length_append, length_leBytes, length_cons]
    rw [wordTable] at ih
    omega

/-- **A number of a table.** -/
theorem word_wordTable {words : List ℕ} (hwords : ∀ w ∈ words, w < 2 ^ 32) (pre post : Bytes)
    {i w : ℕ} (hi : words[i]? = some w) :
    word 4 (pre ++ (wordTable words ++ post)) (pre.length + i * 4) = .ok w := by
  obtain ⟨hlt, hget⟩ := List.getElem?_eq_some_iff.mp hi
  have hsplit : wordTable words =
      wordTable (words.take i) ++ (leBytes 4 w ++ wordTable (words.drop (i + 1))) := by
    conv_lhs => rw [← take_append_drop i words, drop_eq_getElem_cons hlt, hget]
    simp [wordTable, flatMap_append]
  have hslice : (slice (pre ++ (wordTable words ++ post)) (pre.length + i * 4)
      (pre.length + i * 4 + 4) : Reading Bytes) = .ok (leBytes 4 w) := by
    rw [hsplit, append_assoc, append_assoc, ← append_assoc]
    refine slice_append ?_ ?_
    · rw [length_append, length_wordTable, length_take]
      omega
    · rw [length_leBytes]
  have hw : w < 256 ^ 4 := hwords w (mem_of_getElem? hi)
  simp only [word, hslice, ok_bind, leNat_leBytes_of_lt hw]

theorem readTable {words : List ℕ} (hwords : ∀ w ∈ words, w < 2 ^ 32) :
    (range words.length).mapM (fun index => word 4 (wordTable words) (index * 4)) =
      .ok words := by
  have hread : ∀ index ∈ range words.length,
      word 4 (wordTable words) (index * 4) = .ok (words.getD index 0) := by
    intro index hindex
    have hlt := mem_range.mp hindex
    have h := word_wordTable hwords [] [] (getElem?_eq_getElem hlt)
    simpa [getD_eq_getElem?_getD, getElem?_eq_getElem hlt] using h
  rw [mapM_eq_ok hread]
  refine congrArg Except.ok (ext_getElem (by simp) fun i h1 h2 => ?_)
  rw [getElem_map, getElem_range, getD_eq_getElem?_getD, getElem?_eq_getElem h2, Option.getD_some]

end

/-! ## Cells -/

section

/-- Where cells end, if the first starts at `start`. -/
def ends (start : ℕ) : List Bytes → List ℕ
  | [] => []
  | cell :: cells => (start + cell.length) :: ends (start + cell.length) cells

@[simp] theorem length_ends (start : ℕ) (cells : List Bytes) :
    (ends start cells).length = cells.length := by
  induction cells generalizing start with
  | nil => rfl
  | cons cell cells ih => rw [ends, length_cons, length_cons, ih]

variable {cells : List Bytes} {i width : ℕ} {cell : Bytes} (start : ℕ)

theorem getElem?_offsets (h : i ≤ cells.length) :
    (start :: ends start cells)[i]? = some (start + (cells.take i).flatten.length) := by
  induction cells generalizing start i with
  | nil =>
    obtain rfl : i = 0 := le_zero.mp h
    rfl
  | cons cell cells ih =>
    cases i with
    | zero => rfl
    | succ i =>
      rw [getElem?_cons_succ, ends, ih (start + cell.length) (le_of_succ_le_succ h),
        take_succ_cons, flatten_cons, length_append, add_assoc]

theorem getLast?_offsets (cells : List Bytes) :
    (start :: ends start cells).getLast? = some (start + cells.flatten.length) := by
  rw [getLast?_eq_getElem?, length_cons, length_ends, Nat.add_sub_cancel,
    getElem?_offsets start (le_refl _), take_length]

theorem offsets_increase (cells : List Bytes) :
    ((start :: ends start cells).zip (ends start cells)).any (fun pair => pair.2 < pair.1) =
      false := by
  induction cells generalizing start with
  | nil => rfl
  | cons cell cells ih =>
    rw [ends, zip_cons_cons, any_cons, ih, Bool.or_false, decide_eq_false_iff_not]
    exact not_lt.mpr (le_add_right _ _)

theorem mem_offsets {start : ℕ} {o : ℕ} (h : o ∈ start :: ends start cells) :
    o ≤ start + cells.flatten.length := by
  obtain ⟨i, hi, hget⟩ := mem_iff_getElem.mp h
  have hle : i ≤ cells.length := by
    rw [length_cons, length_ends] at hi
    exact le_of_lt_succ hi
  have hsome := getElem?_offsets start hle
  rw [getElem?_eq_getElem hi, hget] at hsome
  rw [Option.some.inj hsome]
  have hsplit := congrArg length (congrArg flatten (take_append_drop i cells))
  rw [flatten_append, length_append] at hsplit
  omega

/-- **Offsets are read.** -/
theorem decodeOffsets_cells (h : cells.flatten.length < 2 ^ 32) :
    decodeOffsets (wordTable (0 :: ends 0 cells)) cells.length cells.flatten.length =
      .ok (0 :: ends 0 cells) := by
  have hwords : ∀ w ∈ 0 :: ends 0 cells, w < 2 ^ 32 := fun w hw => by
    have := mem_offsets hw
    omega
  have htable := readTable hwords
  rw [length_cons, length_ends] at htable
  have hlast := getLast?_offsets 0 cells
  have hcanon : ¬ ((0 :: ends 0 cells).head? ≠ some 0 ∨
      (0 :: ends 0 cells).getLast? ≠ some cells.flatten.length ∨
      ((0 :: ends 0 cells).zip (0 :: ends 0 cells).tail).any (fun pair => pair.2 < pair.1) =
        true) := by
    rw [hlast, tail_cons, offsets_increase]
    simp
  rw [decodeOffsets, if_neg]
  · simp only [htable, ok_bind, if_neg hcanon]
  · rw [length_wordTable, length_cons, length_ends]
    simp

/-- **The bytes between two offsets** are the cell. -/
theorem between_cells (hi : cells[i]? = some cell) :
    between cells.flatten (0 :: ends 0 cells) i = .ok cell := by
  obtain ⟨hlt, hget⟩ := List.getElem?_eq_some_iff.mp hi
  have hstart := getElem?_offsets 0 (le_of_lt hlt)
  have hstop := getElem?_offsets 0 (succ_le_of_lt hlt)
  rw [zero_add] at hstart hstop
  have hslice : (slice cells.flatten (cells.take i).flatten.length
      (cells.take (i + 1)).flatten.length : Reading Bytes) = .ok cell := by
    rw [flatten_split hi]
    refine slice_append rfl ?_
    rw [take_succ_eq_append_getElem hlt, hget, flatten_append, length_append]
    simp
  simp only [between, index, hstart, hstop, ok_bind, hslice]

theorem appendCells_spec {α : Type} {what : String} {cell : α → FormatResult Bytes} {l : List α}
    {offsets offsets' : List ℕ} {bytes bytes' : Bytes}
    (h : appendCells what cell l offsets bytes = .ok (offsets', bytes')) :
    ∃ cells, Forall₂ (fun a c => cell a = .ok c) l cells ∧ bytes' = bytes ++ cells.flatten ∧
      offsets' = offsets ++ ends bytes.length cells ∧
      (bytes.length < 2 ^ 32 → bytes'.length < 2 ^ 32) := by
  induction l generalizing offsets bytes with
  | nil =>
    cases h
    exact ⟨[], .nil, (append_nil _).symm, (append_nil _).symm, id⟩
  | cons a l ih =>
    simp only [appendCells] at h
    obtain ⟨added, hcell, h⟩ := ok_of_bind h
    split_ifs at h with hlong
    obtain ⟨cells, hcells, rfl, rfl, hshort⟩ := ih h
    refine ⟨added :: cells, .cons hcell hcells, ?_, ?_, fun _ => hshort (not_le.mp hlong)⟩
    · rw [flatten_cons, append_assoc]
    · rw [ends, length_append, append_assoc, singleton_append]

section

variable (h : ∀ cell ∈ cells, cell.length = width)

include h

theorem length_flatten_cells : cells.flatten.length = cells.length * width := by
  induction cells with
  | nil => rw [flatten_nil, length_nil, length_nil, zero_mul]
  | cons cell cells ih =>
    obtain ⟨hcell, hcells⟩ := forall_mem_cons.mp h
    rw [flatten_cons, length_append, hcell, ih hcells, length_cons, succ_mul, add_comm]

theorem drop_take_cells (hi : cells[i]? = some cell) :
    (cells.flatten.drop (i * width)).take width = cell := by
  obtain ⟨hlt, -⟩ := List.getElem?_eq_some_iff.mp hi
  have hpre : (cells.take i).flatten.length = i * width := by
    rw [length_flatten_cells fun c hc => h c (mem_of_mem_take hc), length_take,
      min_eq_left (le_of_lt hlt)]
  rw [flatten_split hi, drop_left' hpre, take_left' (h cell (mem_of_getElem? hi))]

/-- **A slot** is the cell. -/
theorem fixedSlot_cells (hsize : cells.length * width < Checked.wordSize)
    (hi : cells[i]? = some cell) : fixedSlot cells.flatten width i = .ok cell := by
  obtain ⟨hlt, -⟩ := List.getElem?_eq_some_iff.mp hi
  have hstop : (i + 1) * width ≤ cells.length * width := mul_le_mul_right width hlt
  have hstart : i * width ≤ (i + 1) * width := mul_le_mul_right width (le_succ i)
  have hbds : i * width ≤ (i + 1) * width ∧ (i + 1) * width ≤ cells.flatten.length := by
    rw [length_flatten_cells h]
    exact ⟨hstart, hstop⟩
  have hwidth : (i + 1) * width - i * width = width := by
    rw [succ_mul, Nat.add_sub_cancel_left]
  simp only [fixedSlot, mul, if_pos (show i * width < wordSize by omega),
    if_pos (show (i + 1) * width < wordSize by omega), ok_bind, slice,
    if_pos hbds, hwidth, drop_take_cells h hi]

end

theorem chunksExact_cells (hpos : 0 < width) (h : ∀ cell ∈ cells, cell.length = width) :
    chunksExact width cells.flatten = cells := by
  rw [chunksExact, length_flatten_cells h, Nat.mul_div_cancel _ hpos]
  refine ext_getElem (by simp) fun i h1 h2 => ?_
  rw [getElem_map, getElem_range]
  exact drop_take_cells h (getElem?_eq_getElem h2)

/-- Which slots are NULL; a slot of a NULL is zero. -/
theorem decodeFixedNulls_cells {values : List Value} (h : ∀ cell ∈ cells, cell.length = width)
    (hsize : cells.length * width < Checked.wordSize)
    (hzero : Forall₂ (fun v cell => v.isNull = true → cell =
      replicate width 0) values cells) :
    decodeFixedNulls cells.flatten (encodeValidity values) values.length width =
      .ok (values.map (·.isNull)) := by
  have hlen := hzero.length_eq
  have hrow : ∀ index ∈ range values.length, (do
      let valid ← isValid (encodeValidity values) index
      if valid then .ok false
      else do
        let slot ← fixedSlot cells.flatten width index
        if slot.any (· != 0) then refuse "NULL fixed-width slot is non-zero" else .ok true :
        Reading Bool) = .ok !Bitmap.getBit (encodeValidity values) index := by
    intro index hindex
    have hlt := mem_range.mp hindex
    have hcell := getElem?_eq_getElem (hlen ▸ hlt)
    have hbit := getBit_encodeValidity values index
    rw [getElem?_eq_getElem hlt, Option.map_some, Option.getD_some] at hbit
    simp only [isValid_encode hlt, hbit, bind, Except.bind]
    cases hnull : values[index].isNull with
    | false => rfl
    | true =>
      have hslot := (forall₂_iff_get.mp hzero).2 index hlt (hlen ▸ hlt) hnull
      rw [get_eq_getElem] at hslot
      rw [hslot] at hcell
      simp only [Bool.not_true, false_eq_true, if_false, fixedSlot_cells h hsize hcell]
      rw [if_neg]
      · rfl
      · simp
  rw [decodeFixedNulls, mapM_eq_ok hrow, nulls_encode]

end

/-! ## Copies -/

section

/-- The cells of the rows that are not NULL. -/
def present (nulls : List Bool) (cells : List Bytes) : List (Option Bytes) :=
  zipWith (fun isNull cell => if isNull then none else some cell) nulls cells

/-- Where the rows are in a copy that has `start` bytes. -/
def packed (start : ℕ) : List (Option Bytes) → List (ℕ × ℕ)
  | [] => []
  | none :: rows => (0, 0) :: packed start rows
  | some cell :: rows => (start, cell.length) :: packed (start + cell.length) rows

/-- The bytes of the rows, one after the other. -/
def packedBytes (rows : List (Option Bytes)) : Bytes := rows.flatMap (·.getD [])

theorem copyRows_eq (rows : List (Option Bytes)) (data : Bytes) (offsets : List (ℕ × ℕ)) :
    copyRows (rows.map (Option.map .ok)) data offsets =
      .ok (data ++ packedBytes rows, offsets ++ packed data.length rows) := by
  induction rows generalizing data offsets with
  | nil => simp [copyRows, packedBytes, packed]
  | cons row rows ih =>
    cases row with
    | none =>
      rw [map_cons, Option.map_none, copyRows, ih, append_assoc]
      rfl
    | some cell =>
      rw [map_cons, Option.map_some, copyRows]
      simp [ok_bind, ih, packedBytes, packed]

variable {cells : List Bytes} {nulls : List Bool}

theorem presentRows_eq {row : ℕ → Reading Bytes} (hlen : nulls.length = cells.length)
    (h : ∀ i cell, nulls[i]? = some false → cells[i]? = some cell → row i = .ok cell) :
    presentRows row nulls = (present nulls cells).map (Option.map .ok) := by
  refine ext_getElem (by simp [presentRows, present, hlen]) fun i h1 h2 => ?_
  have hi : i < nulls.length := by simpa [presentRows] using h1
  simp only [presentRows, present, getElem_map, getElem_zipIdx, getElem_zipWith, zero_add]
  cases hnull : nulls[i] with
  | true => rfl
  | false =>
    have hcell := h i cells[i] (by rw [getElem?_eq_getElem hi, hnull])
      (getElem?_eq_getElem _)
    simp [hcell]

/-- Each row of a buffer, read one by one. -/
def readCells (null : Value) (value : Bytes → Reading Value) (cells : List Bytes)
    (nulls : List Bool) : Reading (List Value) :=
  (cells.zip nulls).mapM fun row => if row.2 then .ok null else value row.1

/-- **The rows of a copy** are the cells. -/
theorem rowValues_packed (null : Value) (value : Bytes → Reading Value)
    (hlen : nulls.length = cells.length) (pre : Bytes)
    (hsize : (pre ++ packedBytes (present nulls cells)).length < Checked.wordSize) :
    rowValues null (fun place => do
        let payload ← rowBytes (pre ++ packedBytes (present nulls cells)) place
        value payload) (packed pre.length (present nulls cells)) nulls =
      readCells null value cells nulls := by
  induction cells generalizing nulls pre with
  | nil =>
    obtain rfl := length_eq_zero_iff.mp hlen
    rfl
  | cons cell cells ih =>
    cases nulls with
    | nil => cases hlen
    | cons isNull nulls =>
      have hlen' : nulls.length = cells.length := succ.inj hlen
      cases isNull with
      | true =>
        have hpresent : present (true :: nulls) (cell :: cells) = none :: present nulls cells := rfl
        have hbytes : packedBytes (none :: present nulls cells) =
            packedBytes (present nulls cells) := rfl
        rw [hpresent, hbytes] at hsize ⊢
        have hrest := ih hlen' pre hsize
        simp only [rowValues, readCells] at hrest ⊢
        rw [packed, zip_cons_cons, zip_cons_cons, mapM_cons, mapM_cons, hrest]
        rfl
      | false =>
        have hpresent : present (false :: nulls) (cell :: cells) =
            some cell :: present nulls cells := rfl
        have hbytes : packedBytes (some cell :: present nulls cells) =
            cell ++ packedBytes (present nulls cells) := rfl
        rw [hpresent, hbytes] at hsize ⊢
        have hrow : rowBytes (pre ++ (cell ++ packedBytes (present nulls cells)))
            (pre.length, cell.length) = .ok cell := by
          rw [length_append, length_append] at hsize
          simp only [rowBytes, add,
            if_pos (show pre.length + cell.length < wordSize by omega), ok_bind]
          exact slice_append rfl rfl
        have hrest := ih hlen' (pre ++ cell) (by rwa [append_assoc])
        rw [append_assoc, length_append] at hrest
        simp only [rowValues, readCells] at hrest ⊢
        rw [packed, zip_cons_cons, zip_cons_cons, mapM_cons, mapM_cons, hrest]
        simp [hrow, ok_bind]

theorem rowValues_mapM {α : Type} {read : Bytes → Reading α}
    {buffer : List α} (h : cells.mapM read = .ok buffer) (null : Value)
    (value : α → Reading Value) (nulls : List Bool) :
    rowValues null value buffer nulls =
      readCells null (fun cell => read cell >>= value) cells nulls := by
  induction cells generalizing buffer nulls with
  | nil =>
    cases h
    rfl
  | cons cell cells ih =>
    rw [mapM_cons] at h
    obtain ⟨a, hcell, h⟩ := ok_of_bind h
    obtain ⟨rest, hcells, h⟩ := ok_of_bind h
    cases h
    cases nulls with
    | nil => rfl
    | cons isNull nulls =>
      have hrest := ih hcells nulls
      simp only [rowValues, readCells] at hrest ⊢
      rw [zip_cons_cons, zip_cons_cons, mapM_cons, mapM_cons, hrest]
      simp only [hcell]
      rfl

end

/-! ## Texts -/

section

/-- A number stands for the text of its row. -/
def StandsFor (dictionary : List String) (row : Option Bytes) (id : ℕ) : Prop :=
  ∀ cell, row = some cell → ∃ s, fromUtf8 cell = some s ∧ dictionary[id]? = some s

variable {dictionary : List String}

theorem StandsFor.mono {row : Option Bytes} {id : ℕ} (h : StandsFor dictionary row id)
    (more : List String) : StandsFor (dictionary ++ more) row id := by
  intro cell hcell
  obtain ⟨s, hs, hget⟩ := h cell hcell
  exact ⟨s, hs, getElem?_append_left (List.getElem?_eq_some_iff.mp hget).1 ▸ hget⟩

/-- **The numbers of texts** stand for the texts, whatever is added to the list later. -/
theorem internTexts_spec {rows : List (Option Bytes)}
    (htext : ∀ cell, some cell ∈ rows → ∃ s, fromUtf8 cell = some s) (ids : List ℕ)
    (dictionary : List String) (hsize : dictionary.length + rows.length ≤ 2 ^ 32) :
    ∃ ids' more, internTexts (rows.map (Option.map .ok)) ids dictionary =
        .ok (ids ++ ids', dictionary ++ more) ∧
      Forall₂ (StandsFor (dictionary ++ more)) rows ids' := by
  induction rows generalizing ids dictionary with
  | nil => exact ⟨[], [], by simp [internTexts], .nil⟩
  | cons row rows ih =>
    have htext' : ∀ cell, some cell ∈ rows → ∃ s, fromUtf8 cell = some s := fun cell hcell =>
      htext cell (mem_cons_of_mem row hcell)
    rw [length_cons] at hsize
    cases row with
    | none =>
      obtain ⟨ids', more, heq, hall⟩ := ih htext' (ids ++ [0]) dictionary (by omega)
      refine ⟨0 :: ids', more, ?_, .cons nofun hall⟩
      rw [map_cons, Option.map_none, internTexts, heq, append_assoc]
      rfl
    | some cell =>
      obtain ⟨s, hs⟩ := htext cell mem_cons_self
      rw [map_cons, Option.map_some, internTexts]
      simp only [ok_bind, hs]
      cases hid : dictionary.idxOf? s with
      | some id =>
        obtain ⟨ids', more, heq, hall⟩ := ih htext' (ids ++ [id]) dictionary (by omega)
        refine ⟨id :: ids', more, ?_, .cons ?_ hall⟩
        · simp [heq]
        · have hget : dictionary[id]? = some s := by
            obtain ⟨hlt, hbeq, -⟩ := findIdx?_eq_some_iff_getElem.mp hid
            rw [getElem?_eq_getElem hlt, beq_iff_eq.mp hbeq]
          refine StandsFor.mono (fun c hc => ?_) more
          cases hc
          exact ⟨s, hs, hget⟩
      | none =>
        obtain ⟨ids', more, heq, hall⟩ := ih htext' (ids ++ [dictionary.length])
          (dictionary ++ [s]) (by rw [length_append, length_singleton]; omega)
        rw [append_assoc] at hall heq
        refine ⟨dictionary.length :: ids', [s] ++ more, ?_, .cons ?_ hall⟩
        · rw [if_neg (by omega), heq, append_assoc]
          rfl
        · rw [← append_assoc]
          refine StandsFor.mono (fun c hc => ?_) more
          cases hc
          exact ⟨s, hs, by simp⟩

/-- A text of its bytes. -/
def textValue (cell : Bytes) : Reading Value :=
  match fromUtf8 cell with
  | some s => .ok (.text s)
  | none => refuse "TEXT bytes are not UTF-8"

/-- **Rows of numbers** are rows of texts. -/
theorem rowValues_texts {ids : List ℕ} {nulls : List Bool} {cells : List Bytes}
    (hlen : nulls.length = cells.length)
    (h : Forall₂ (StandsFor dictionary) (present nulls cells) ids) :
    rowValues (.null .text) (fun id => do
        let s ← Checked.index dictionary id
        .ok (.text s)) ids nulls = readCells (.null .text) textValue cells nulls := by
  induction cells generalizing nulls ids with
  | nil =>
    obtain rfl := length_eq_zero_iff.mp hlen
    cases h
    rfl
  | cons cell cells ih =>
    cases nulls with
    | nil => cases hlen
    | cons isNull nulls =>
      cases h with
      | cons hid hids =>
        have hrest := ih (succ.inj hlen) hids
        simp only [rowValues, readCells] at hrest ⊢
        rw [zip_cons_cons, zip_cons_cons, mapM_cons, mapM_cons, hrest]
        cases isNull with
        | true => rfl
        | false =>
          obtain ⟨s, hs, hget⟩ := hid cell rfl
          simp [index, hget, ok_bind, textValue, hs]

end

end RadixDb.Column
