import RadixDb.Data.ColumnRead

/-!
# Cells of a column

A cell of a column that was written is read as the value it was written for, but for an instant in a
leap second (`decode_of_cell`). The reader of a column does not read cell by cell: it makes buffers
of a type, and values of the buffers. For each type, what comes of a cell is what the cell is read
as; so a buffer of cells gives the values (`buffered_cells`, `copied_cells`).
-/

namespace RadixDb.Column

open List Bytes

/-- The NULL of a column. -/
def columnNull (column : DataColumnSpec) : Value := .null column.dataType.logicalType

/-- A value as it is read from a column. -/
def asRead (column : DataColumnSpec) (v : Value) : Value :=
  if v.isNull then columnNull column else v.stored

/-- A value of a column: NULLs are of its type. -/
def inColumn (column : DataColumnSpec) (v : Value) : Value :=
  if v.isNull then columnNull column else v

section

variable {json : Json} {column : DataColumnSpec} {v w : Value} {cell : Bytes}
  {width : ℕ} {type : DataType}

/-! ## Cells -/

theorem append_of_cell (hvalid : validateColumnValue json column v = .ok ())
    (hnull : v.isNull = false) (h : appendColumnNonNullBytes json column v = .ok cell) :
    appendNonNullValue json column v = .ok cell := by
  simp only [appendNonNullValue, hvalid, hnull, ok_bind, Bool.false_eq_true, if_false]
  unfold appendColumnNonNullBytes at h
  cases href : column.dataType.externalTypeRef with
  | none =>
    rwa [href] at h
  | some ref =>
    rw [href] at h
    cases hext : v.asExternal with
    | none =>
      rw [hext] at h
      cases h
    | some external =>
      rw [hext] at h
      dsimp only at h ⊢
      split_ifs at h ⊢
      exact h

/-- **A cell is read as its value**, up to leap seconds. -/
theorem decode_of_cell (hvalid : validateColumnValue json column v = .ok ())
    (hnull : v.isNull = false) (h : appendColumnNonNullBytes json column v = .ok cell) :
    decodeNonNullValue json column cell = .ok v.stored :=
  decodeNonNullValue_eq (append_of_cell hvalid hnull h)

theorem length_of_decode (hbi : column.dataType.externalTypeRef = none)
    (hwidth : fixedWidth column.dataType.logicalType column.dataType.parameter1 = some width)
    (h : decodeNonNullValue json column cell = .ok w) : cell.length = width := by
  rw [decodeNonNullValue, hbi] at h
  cases htype : column.dataType.logicalType <;> rw [htype] at h hwidth <;>
    simp only [fixedWidth, Option.some.injEq, reduceCtorEq] at hwidth <;> subst hwidth <;>
    simp only [decodeNonNull] at h
  case boolean =>
    split at h
    · rfl
    · cases h
  all_goals split_ifs at h with hlen; exact hlen

theorem readI64_of_decode (message : String) (h : decodeNonNull json column .integer cell = .ok w) :
    (readI64 message cell >>= fun i => .ok (.integer i)) = .ok w := by
  simp only [decodeNonNull] at h
  split_ifs at h with hlen
  simp only [readI64, dif_pos hlen, ok_bind]
  cases h
  rfl

theorem readF64_of_decode (message : String) (h : decodeNonNull json column .float cell = .ok w) :
    (readF64 message cell >>= fun f => .ok (.float f)) = .ok w := by
  simp only [decodeNonNull] at h
  split_ifs at h with hlen
  simp only [readF64, if_pos hlen, ok_bind]
  cases h
  rfl

theorem temporal_of_decode (message message' : String)
    (htype : type = .timestamp ∨ type = .civilTimestamp ∨ type = .time)
    (h : decodeNonNull json column type cell = .ok w) :
    (readI64 message cell >>= fun nanos =>
      Checked.expect (Value.fromTemporalNanos type nanos.1) message') = .ok w := by
  have hcases : cell.length = 8 ∧ Value.fromTemporalNanos type (leInt cell) = .ok w := by
    rcases htype with rfl | rfl | rfl <;>
    · simp only [decodeNonNull] at h
      split_ifs at h with hlen
      refine ⟨hlen, ?_⟩
      split at h
      · next hvalue =>
        cases h
        exact hvalue
      · cases h
  obtain ⟨hlen, hvalue⟩ := hcases
  simp only [readI64, dif_pos hlen, ok_bind, hvalue, Checked.expect]

theorem boolean_of_decode (h : decodeNonNull json column .boolean cell = .ok w) :
    ∃ byte : UInt8, cell = [byte] ∧ byte ≤ 1 ∧ w = .boolean (byte == 1) := by
  simp only [decodeNonNull] at h
  split at h
  · next byte =>
    split_ifs at h with hle
    cases h
    exact ⟨byte, rfl, hle, rfl⟩
  · cases h

/-- Is the type one whose cells are copied? -/
def isCopied (type : DataType) : Bool :=
  type matches .json | .vector | .uuid | .decimal | .date | .bytes

/-- **A cell that is copied** passes its checks, and is the value after its tag. -/
theorem extension_of_decode (hcopy : isCopied type = true)
    (h : decodeNonNull json column type cell = .ok w) :
    validateExtensionBytes json column type cell = .ok () ∧ w = Value.ofPayload type cell := by
  cases type with
  | json =>
    simp only [decodeNonNull] at h
    split_ifs at h with hutf8 hjson
    cases h
    refine ⟨?_, rfl⟩
    rw [Bool.not_eq_true, Option.isSome_eq_false_iff, Option.isNone_iff_eq_none] at hjson
    simp only [validateExtensionBytes, Value.validateExtensionPayload, hjson]
  | vector =>
    simp only [decodeNonNull] at h
    split_ifs at h with hlen hfinite
    cases h
    have hfour : cell.length % 4 = 0 := by omega
    refine ⟨?_, by rw [flatMap_chunksOfFour hfour]⟩
    rw [any_map] at hfinite
    simp only [validateExtensionBytes, Value.validateExtensionPayload, if_pos hfour]
    rw [if_neg]
    rintro (hne | hany)
    · exact hne hlen
    · exact hfinite hany
  | uuid =>
    simp only [decodeNonNull] at h
    split_ifs at h with hlen
    cases h
    simp [validateExtensionBytes, Value.validateExtensionPayload, if_pos hlen]
  | date =>
    simp only [decodeNonNull] at h
    split_ifs at h with hlen
    cases h
    have hbytes := intBytes_leInt cell
    rw [hlen] at hbytes
    simp [validateExtensionBytes, Value.validateExtensionPayload, if_pos hlen, hbytes]
  | bytes =>
    cases h
    exact ⟨rfl, rfl⟩
  | decimal =>
    simp only [decodeNonNull] at h
    split_ifs at h with hlen
    have hslice : (Checked.slice cell 0 16 : Reading Bytes) = .ok (cell.take 16) := by
      rw [Checked.slice, if_pos ⟨Nat.zero_le _, by omega⟩]
      rfl
    have hscale : (Checked.index cell 17 : Reading UInt8) = .ok (cell.getD 17 0) := by
      rw [Checked.index, getD_eq_getElem?_getD, getElem?_eq_getElem (by omega)]
      rfl
    cases hshape : validateDecimalShape (leInt (cell.take 16)) (cell.getD 16 0).toNat
        (cell.getD 17 0).toNat with
    | error e =>
      rw [Value.tryDecimal, hshape] at h
      cases h
    | ok u =>
      have htry := tryDecimal_payload hlen hshape
      have hparts : (Value.ofPayload .decimal cell).asDecimalParts = some
          (leInt (cell.take 16), (cell.getD 16 0).toNat, (cell.getD 17 0).toNat) := by
        rw [Value.tryDecimal, hshape] at htry
        rw [← Except.ok.inj htry]
        exact Value.asDecimalParts_decimal hshape
      simp only [htry, validateDecimalTypemod, hparts] at h
      obtain ⟨u, htypemod, h⟩ := ok_of_bind h
      cases h
      refine ⟨?_, rfl⟩
      simp only [validateExtensionBytes, Value.validateExtensionPayload, if_pos hlen, hshape,
        hslice, hscale, ok_bind, htypemod, Checked.ofExcept]
  | _ => cases hcopy

theorem text_of_decode (h : decodeNonNull json column .text cell = .ok w) :
    textValue cell = .ok w := by
  unfold textValue
  cases hs : fromUtf8 cell with
  | none =>
    simp only [decodeNonNull, hs] at h
    cases h
  | some s =>
    simp only [decodeNonNull, hs] at h
    cases h
    rfl

theorem readCells_of_decode {value : Bytes → Reading Value} {values : List Value}
    {cells : List Bytes}
    (h : Forall₂ (fun v cell => v.isNull = false → value cell = .ok v.stored) values cells) :
    readCells (columnNull column) value cells (values.map (·.isNull)) =
      .ok (values.map (asRead column)) := by
  induction h with
  | nil => rfl
  | @cons v cell values cells hcell _ ih =>
    unfold readCells at ih ⊢
    rw [map_cons, zip_cons_cons, mapM_cons, ih, map_cons]
    cases hnull : v.isNull with
    | true =>
      simp only [asRead, hnull, if_true, ok_bind]
      rfl
    | false =>
      simp only [asRead, hnull, hcell hnull, ok_bind, Bool.false_eq_true, if_false]
      rfl

end

/-! ## Rows -/

section

variable {json : Json} {column : DataColumnSpec} {values : List Value}
  {cells : List Bytes} {null : Bytes}

/-- A cell that was written for a value. Cells of NULLs are all `null`. -/
structure Written (json : Json) (column : DataColumnSpec) (null : Bytes)
    (v : Value) (cell : Bytes) : Prop where
  null : v.isNull = true → cell = null
  value : v.isNull = false → decodeNonNullValue json column cell = .ok v.stored

theorem written_of_cell {v : Value} {cell : Bytes}
    (hvalid : validateColumnValue json column v = .ok ())
    (h : (if v.isNull then .ok null else appendColumnNonNullBytes json column v) = .ok cell) :
    Written json column null v cell := by
  refine ⟨fun hnull => ?_, fun hnull => ?_⟩
  · rw [if_pos hnull] at h
    exact (Except.ok.inj h).symm
  · rw [hnull, if_neg Bool.false_ne_true] at h
    exact decode_of_cell hvalid hnull h

def AllValid (json : Json) (column : DataColumnSpec) (values : List Value) :
    Prop :=
  ∀ v ∈ values, validateColumnValue json column v = .ok ()

theorem written_of_forall₂ {cell : Value → FormatResult Bytes}
    (hvalid : AllValid json column values)
    (hcell : ∀ v, cell v = if v.isNull then .ok null else appendColumnNonNullBytes json column v)
    (h : Forall₂ (fun v c => cell v = .ok c) values cells) :
    Forall₂ (Written json column null) values cells := by
  induction h with
  | nil => exact .nil
  | @cons v c values cells hc _ ih =>
    obtain ⟨hv, hvalues⟩ := forall_mem_cons.mp hvalid
    exact .cons (written_of_cell hv (hcell v ▸ hc)) (ih hvalues)

theorem row_of_getElem? {R : Value → Bytes → Prop} (h : Forall₂ R values cells) {i : ℕ}
    {isNull : Bool} {cell : Bytes} (hnull : (values.map (·.isNull))[i]? = some isNull)
    (hcell : cells[i]? = some cell) : ∃ v, v.isNull = isNull ∧ R v cell := by
  rw [getElem?_map, Option.map_eq_some_iff] at hnull
  obtain ⟨v, hv, hnull⟩ := hnull
  obtain ⟨cell', hcell', hrow⟩ := h.exists_right hv
  rw [hcell] at hcell'
  cases hcell'
  exact ⟨v, hnull, hrow⟩

variable (column : DataColumnSpec)

/-- **A buffer of numbers.** -/
theorem buffered_cells {α : Type} {read : Bytes → Reading α} {value : α → Reading Value}
    (hread : ∀ cell ∈ cells, ∃ a, read cell = .ok a) (h : Forall₂ (fun v cell => v.isNull = false →
      (read cell >>= value) = .ok v.stored) values cells) :
    ∃ buffer, cells.mapM read = .ok buffer ∧
      rowValues (columnNull column) value buffer (values.map (·.isNull)) =
        .ok (values.map (asRead column)) := by
  obtain ⟨buffer, hbuffer⟩ := exists_mapM hread
  exact ⟨buffer, hbuffer, (rowValues_mapM hbuffer _ _ _).trans (readCells_of_decode h)⟩

theorem length_packedBytes_le (nulls : List Bool) (cells : List Bytes) :
    (packedBytes (present nulls cells)).length ≤ cells.flatten.length := by
  induction cells generalizing nulls with
  | nil => cases nulls <;> exact Nat.le_refl _
  | cons cell cells ih =>
    cases nulls with
    | nil => exact Nat.zero_le _
    | cons isNull nulls =>
      have hrest := ih nulls
      rw [packedBytes] at hrest ⊢
      rw [present, zipWith_cons_cons, flatMap_cons, flatten_cons, length_append, length_append]
      rw [present] at hrest
      cases isNull with
      | true => exact Nat.le_trans (by simpa using hrest) (Nat.le_add_left _ _)
      | false => exact Nat.add_le_add_left hrest _

variable {row : ℕ → Reading Bytes}

/-- **A copy of the cells.** -/
theorem copied_cells {value : Bytes → Reading Value} {rows : List (Option (Reading Bytes))}
    (hrows : rows = (present (values.map (·.isNull)) cells).map (Option.map .ok))
    (hsize : cells.flatten.length < Checked.wordSize)
    (h : Forall₂ (fun v cell => v.isNull = false → value cell = .ok v.stored) values cells) :
    ∃ data offsets, copyRows rows [] [] = .ok (data, offsets) ∧
      rowValues (columnNull column) (fun place => do
        let payload ← rowBytes data place
        value payload) offsets (values.map (·.isNull)) = .ok (values.map (asRead column)) := by
  have hlen : (values.map (·.isNull)).length = cells.length := by
    rw [length_map, h.length_eq]
  refine ⟨packedBytes (present (values.map (·.isNull)) cells),
    packed 0 (present (values.map (·.isNull)) cells), ?_, ?_⟩
  · rw [hrows, copyRows_eq, nil_append, nil_append, length_nil]
  · have hpacked := rowValues_packed (columnNull column) value hlen []
      ((length_packedBytes_le _ _).trans_lt hsize)
    exact hpacked.trans (readCells_of_decode h)

/-- **Numbers for the texts.** -/
theorem interned_cells (htype : column.dataType.logicalType = .text)
    (hrow : ∀ i cell, (values.map (·.isNull))[i]? = some false → cells[i]? = some cell →
      row i = .ok cell) (hsize : values.length ≤ 2 ^ 32)
    (h : Forall₂ (fun v cell => v.isNull = false → textValue cell = .ok v.stored) values
      cells) :
    ∃ ids dictionary,
      internTexts (presentRows row (values.map (·.isNull))) [] [] = .ok (ids, dictionary) ∧
      rowValues (.null .text) (fun id => do
        let s ← Checked.index dictionary id
        .ok (.text s)) ids (values.map (·.isNull)) = .ok (values.map (asRead column)) := by
  have hlen : (values.map (·.isNull)).length = cells.length := by
    rw [length_map, h.length_eq]
  have htext : ∀ cell, some cell ∈ present (values.map (·.isNull)) cells →
      ∃ s, fromUtf8 cell = some s := by
    intro cell hcell
    obtain ⟨i, hi, hget⟩ := mem_iff_getElem.mp hcell
    simp only [present, length_zipWith, length_map] at hi
    simp only [present, getElem_zipWith, getElem_map] at hget
    split_ifs at hget with hnull
    have hfalse : (values.map (·.isNull))[i]? = some false := by
      rw [getElem?_map, getElem?_eq_getElem (by omega), Option.map_some,
        Bool.eq_false_iff.mpr hnull]
    obtain ⟨v, hv, hvalue⟩ := row_of_getElem? h hfalse (getElem?_eq_getElem (by omega))
    have hs := hvalue hv
    rw [Option.some.inj hget, textValue] at hs
    split at hs
    · next s hs' => exact ⟨s, hs'⟩
    · cases hs
  have hbound : ([] : List String).length + (present (values.map (·.isNull)) cells).length ≤
      2 ^ 32 := by
    rw [present, length_zipWith, length_map, length_nil]
    omega
  obtain ⟨ids, dictionary, hintern, hstands⟩ := internTexts_spec htext [] [] hbound
  refine ⟨ids, dictionary, ?_, ?_⟩
  · rw [presentRows_eq hlen hrow, hintern, nil_append, nil_append]
  · have hnull : (.null .text : Value) = columnNull column := by rw [columnNull, htype]
    rw [nil_append] at hstands
    rw [rowValues_texts hlen hstands, hnull]
    exact readCells_of_decode h

end

end RadixDb.Column
