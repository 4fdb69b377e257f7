import RadixDb.Data.ColumnCells

/-!
# Plain payloads round trip

A plain payload has its cells side by side. What the reader makes of them are the values, for
columns of one width (`decodeFixedValues_cells`) and of variable width
(`decodeVariableValues_cells`). **So every plain payload that is written is read back**, with values
as they are stored (`decodePlain_encode`).
-/

namespace RadixDb.Column

open List Checked Bytes

section

variable {json : Json} {column : DataColumnSpec} {values : List Value}
  {cells : List Bytes} {width : ℕ}

/-! ## Columns of one width -/

theorem length_of_written (hbi : column.dataType.externalTypeRef = none)
    (hwidth : fixedWidth column.dataType.logicalType column.dataType.parameter1 = some width)
    (h : Forall₂ (Written json column (replicate width 0)) values cells) :
    ∀ cell ∈ cells, cell.length = width := by
  induction h with
  | nil => exact nofun
  | @cons v cell values cells hcell _ ih =>
    refine forall_mem_cons.mpr ⟨?_, ih⟩
    cases hnull : v.isNull with
    | true => rw [hcell.null hnull, length_replicate]
    | false => exact length_of_decode hbi hwidth (hcell.value hnull)

theorem decode_of_written (hbi : column.dataType.externalTypeRef = none) {null : Bytes}
    (h : Forall₂ (Written json column null) values cells) :
    Forall₂ (fun v cell => v.isNull = false →
      decodeNonNull json column column.dataType.logicalType cell = .ok v.stored) values cells := by
  refine h.imp fun v cell hw hnull => ?_
  have hvalue := hw.value hnull
  rwa [decodeNonNullValue, hbi] at hvalue

theorem cells_of_bytes (h : ∀ cell ∈ cells, cell.length = 1) :
    cells = cells.flatten.map fun byte => [byte] := by
  induction cells with
  | nil => rfl
  | cons cell cells ih =>
    obtain ⟨hcell, hcells⟩ := forall_mem_cons.mp h
    obtain ⟨byte, rfl⟩ := length_eq_one_iff.mp hcell
    rw [flatten_cons, singleton_append, map_cons, ← ih hcells]

theorem boolean_cells {bytes : Bytes} (h : Forall₂ (fun v cell => v.isNull = false →
      decodeNonNull json column .boolean cell = .ok v.stored) values
      (bytes.map fun byte => [byte])) :
    (bytes.zip (values.map (·.isNull))).any (fun row => !row.2 && 1 < row.1) = false := by
  rw [forall₂_map_right_iff] at h
  induction h with
  | nil => rfl
  | @cons v byte values bytes hbyte _ ih =>
    rw [map_cons, zip_cons_cons, any_cons, ih, Bool.or_false]
    cases hnull : v.isNull with
    | true => rfl
    | false =>
      obtain ⟨b, hb, hle, -⟩ := boolean_of_decode (hbyte hnull)
      cases hb
      simpa using hle

/-- A column that was read, and gives the values. -/
def Gives (column : DataColumnSpec) (values : List Value) (decoded : Reading DecodedColumn) :
    Prop :=
  ∃ d, decoded = .ok d ∧ d.intoValues = .ok (values.map (asRead column))

theorem decodeChunks_cells {α : Type} {read : Bytes → Reading α} {value : α → Reading Value}
    {buffer : List α → DecodedColumn} (hlen : ∀ cell ∈ cells, cell.length = 8)
    (hinto : ∀ l, (buffer l).intoValues =
      rowValues (columnNull column) value l (values.map (·.isNull)))
    (hread : ∀ cell : Bytes, cell.length = 8 → ∃ a, read cell = .ok a)
    (h : Forall₂ (fun v cell => v.isNull = false → (read cell >>= value) = .ok v.stored)
      values cells) :
    Gives column values
      ((chunksExact 8 cells.flatten).mapM read >>= fun l => .ok (buffer l)) := by
  obtain ⟨l, hl, hrows⟩ := buffered_cells column (fun cell hcell => hread cell (hlen cell hcell)) h
  rw [chunksExact_cells (by decide) hlen, hl]
  exact ⟨_, rfl, (hinto l).trans hrows⟩

/-- Booleans are not read in chunks: their bytes are the buffer. -/
theorem decodeBoolean_cells (htype : column.dataType.logicalType = .boolean)
    (hlen : ∀ cell ∈ cells, cell.length = 1) (h : Forall₂ (fun v cell => v.isNull = false →
      decodeNonNull json column .boolean cell = .ok v.stored) values cells) :
    Gives column values
      (if (cells.flatten.zip (values.map (·.isNull))).any (fun row => !row.2 && 1 < row.1) then
        refuse "BOOLEAN value bytes are invalid"
      else .ok (.boolean (cells.flatten.map (· == 1)) (values.map (·.isNull)))) := by
  have hcells := cells_of_bytes hlen
  have hbuffer : cells.mapM (fun cell => .ok (cell.headD 0 == 1) : Bytes → Reading Bool) =
      .ok (cells.flatten.map (· == 1)) := by
    rw [mapM_eq_ok fun _ _ => rfl]
    conv_lhs => rw [hcells, map_map]
    rfl
  have hrows := (rowValues_mapM hbuffer (columnNull column) (fun b => .ok (.boolean b)) _).trans
    (readCells_of_decode (h.imp fun v cell hvalue hv => by
      obtain ⟨byte, rfl, -, hw⟩ := boolean_of_decode (hvalue hv)
      rw [hw]
      rfl))
  rw [hcells] at h
  rw [boolean_cells h, if_neg Bool.false_ne_true]
  rw [columnNull, htype] at hrows
  exact ⟨_, rfl, hrows⟩

/-- Payloads that were copied are the values. -/
theorem copied_payloads (hcopied : isCopied column.dataType.logicalType = true)
    {rows : List (Option (Reading Bytes))}
    (hrows : rows = (present (values.map (·.isNull)) cells).map (Option.map .ok))
    (hsize : cells.flatten.length < Checked.wordSize)
    (h : Forall₂ (fun v cell => v.isNull = false →
      decodeNonNull json column column.dataType.logicalType cell = .ok v.stored) values cells) :
    Gives column values (do
      let (data, offsets) ← copyRows rows [] []
      .ok (.bytes data offsets column.dataType.logicalType (values.map (·.isNull)))) := by
  have hvalues : Forall₂ (fun v cell => v.isNull = false →
      (.ok (Value.ofPayload column.dataType.logicalType cell) : Reading Value) = .ok v.stored)
      values cells :=
    h.imp fun v cell hvalue hv => by rw [(extension_of_decode hcopied (hvalue hv)).2]
  obtain ⟨data, offsets, hcopy, hinto⟩ := copied_cells column hrows hsize hvalues
  exact ⟨.bytes data offsets column.dataType.logicalType _, by rw [hcopy]; rfl, hinto⟩

/-- Columns of extensions are copied, cell by cell. -/
theorem decodeFixedExtension_cells (hcopied : isCopied column.dataType.logicalType = true)
    (hlen : ∀ cell ∈ cells, cell.length = width) (hsize : cells.length * width < Checked.wordSize)
    (h : Forall₂ (fun v cell => v.isNull = false →
      decodeNonNull json column column.dataType.logicalType cell = .ok v.stored) values cells) :
    Gives column values
      (decodeFixedExtension json column cells.flatten width (values.map (·.isNull))) := by
  have hrow : ∀ i cell, (values.map (·.isNull))[i]? = some false → cells[i]? = some cell →
      (do
        let value ← fixedSlot cells.flatten width i
        validateExtensionBytes json column column.dataType.logicalType value
        .ok value : Reading Bytes) = .ok cell := by
    intro i cell hi hcell
    obtain ⟨v, hv, hvalue⟩ := row_of_getElem? h hi hcell
    simp only [fixedSlot_cells hlen hsize hcell, ok_bind,
      (extension_of_decode hcopied (hvalue hv)).1]
  have hrows := presentRows_eq (by rw [length_map, h.length_eq]) hrow
  exact copied_payloads hcopied hrows (by rwa [length_flatten_cells hlen]) h

/-- **Cells of one width are read as their values.** -/
theorem decodeFixedValues_cells (hbi : column.dataType.externalTypeRef = none)
    (hwidth : fixedWidth column.dataType.logicalType column.dataType.parameter1 = some width)
    (hsize : cells.length * width < Checked.wordSize)
    (h : Forall₂ (Written json column (replicate width 0)) values cells) :
    Gives column values (decodeFixedValues json column cells.flatten (encodeValidity values)
      values.length width) := by
  have hlen := length_of_written hbi hwidth h
  have hnulls := decodeFixedNulls_cells hlen hsize (h.imp fun _ _ hw => hw.null)
  have hdec := decode_of_written hbi h
  have hext := fun hcopy => decodeFixedExtension_cells hcopy hlen hsize hdec
  have hi64 : ∀ message (cell : Bytes), cell.length = 8 → ∃ i, readI64 message cell = .ok i :=
    fun _ _ h8 => ⟨_, dif_pos h8⟩
  have hf64 : ∀ message (cell : Bytes), cell.length = 8 → ∃ f, readF64 message cell = .ok f :=
    fun _ _ h8 => ⟨_, if_pos h8⟩
  have htemporal : ∀ type, column.dataType.logicalType = type →
      (type = .timestamp ∨ type = .civilTimestamp ∨ type = .time) → width = 8 →
      Gives column values ((chunksExact 8 cells.flatten).mapM (readI64 "checked temporal width")
        >>= fun l => .ok (.timestampNanos l type (values.map (·.isNull)))) := by
    rintro type rfl hkind rfl
    exact decodeChunks_cells hlen (fun _ => rfl) (hi64 _) (hdec.imp fun v cell hvalue hv =>
      temporal_of_decode _ "validated temporal payload" hkind (hvalue hv))
  rw [decodeFixedValues, hnulls]
  cases htype : column.dataType.logicalType with
  | integer =>
    rw [htype] at hwidth hdec
    cases hwidth
    exact decodeChunks_cells hlen (fun _ => by rw [columnNull, htype]; rfl) (hi64 _)
      (hdec.imp fun v cell hvalue hv => readI64_of_decode _ (hvalue hv))
  | float =>
    rw [htype] at hwidth hdec
    cases hwidth
    exact decodeChunks_cells hlen (fun _ => by rw [columnNull, htype]; rfl) (hf64 _)
      (hdec.imp fun v cell hvalue hv => readF64_of_decode _ (hvalue hv))
  | boolean =>
    rw [htype] at hwidth hdec
    cases hwidth
    exact decodeBoolean_cells htype hlen hdec
  | timestamp | civilTimestamp | time =>
    rw [htype] at hwidth
    cases hwidth
    exact htemporal _ htype (by simp) rfl
  | vector | uuid | decimal | date => exact hext (by rw [htype]; rfl)
  | text | json | bytes | null =>
    rw [htype] at hwidth
    cases hwidth

/-! ## Columns of variable width -/

section

variable (hwidth : columnWidth column = none)

include hwidth

theorem variable_types (hbi : column.dataType.externalTypeRef = none) :
    column.dataType.logicalType = .text ∨ column.dataType.logicalType = .json ∨
      column.dataType.logicalType = .bytes := by
  have hadm := column.dataType.admitted
  rw [hbi] at hadm
  rw [columnWidth, hbi, if_neg (by decide)] at hwidth
  cases htype : column.dataType.logicalType <;> rw [htype] at hwidth hadm
  case text => exact .inl rfl
  case json => exact .inr (.inl rfl)
  case bytes => exact .inr (.inr rfl)
  case null => exact hadm.elim
  all_goals cases hwidth

theorem variable_of_decode {cell : Bytes} {w : Value}
    (h : decodeNonNullValue json column cell = .ok w) :
    (column.dataType.externalTypeRef.isSome = true → validateExternalBytes column cell = .ok ()) ∧
      (column.dataType.externalTypeRef.isSome = false →
        validateVariableBytes json column column.dataType.logicalType cell = .ok ()) := by
  cases href : column.dataType.externalTypeRef with
  | some ref =>
    refine ⟨fun _ => ?_, fun hnone => by cases hnone⟩
    rw [decodeNonNullValue, href] at h
    rw [validateExternalBytes, href]
    dsimp only at h ⊢
    cases hvalue : Value.tryExternal ref cell with
    | ok _ => rfl
    | error _ =>
      rw [hvalue] at h
      cases h
  | none =>
    refine ⟨fun hsome => (by cases hsome), fun _ => ?_⟩
    rw [decodeNonNullValue, href] at h
    rcases variable_types hwidth href with htype | htype | htype <;> rw [htype] at h ⊢
    · have htext := text_of_decode h
      unfold textValue at htext
      unfold validateVariableBytes
      split at htext
      · next s hs => rw [hs]; rfl
      · cases htext
    · exact (extension_of_decode rfl h).1
    · exact (extension_of_decode rfl h).1

/-- **Which rows of a column of variable width are NULL.** -/
theorem variableNulls_cells (h : Forall₂ (Written json column []) values cells) :
    (range values.length).mapM (variableNull json column cells.flatten
      (encodeValidity values) (0 :: ends 0 cells)) = .ok (values.map (·.isNull)) := by
  have hlen := h.length_eq
  rw [← nulls_encode]
  refine mapM_eq_ok fun index hindex => ?_
  have hlt := mem_range.mp hindex
  have hbit := getBit_encodeValidity values index
  rw [getElem?_eq_getElem hlt, Option.map_some, Option.getD_some] at hbit
  have hcell := getElem?_eq_getElem (hlen ▸ hlt)
  have hwritten := (forall₂_iff_get.mp h).2 index hlt (hlen ▸ hlt)
  rw [get_eq_getElem, get_eq_getElem] at hwritten
  simp only [variableNull, isValid_encode hlt, hbit, bind, Except.bind]
  cases hnull : values[index].isNull with
  | false =>
    obtain ⟨hext, hbi⟩ := variable_of_decode hwidth (hwritten.value hnull)
    simp only [Bool.not_false, if_true, between_cells hcell, Bool.not_true]
    cases href : column.dataType.externalTypeRef.isSome with
    | true => simp only [if_true, hext href]
    | false => simp [hbi href]
  | true =>
    -- the cell of a NULL is empty, so its offsets are equal
    have hstart := getElem?_offsets 0 (Nat.le_of_lt (hlen ▸ hlt))
    have hstop := getElem?_offsets 0 (Nat.succ_le_of_lt (hlen ▸ hlt))
    rw [take_succ_eq_append_getElem (hlen ▸ hlt), hwritten.null hnull, flatten_append,
      flatten_singleton, append_nil] at hstop
    simp [Checked.index, hstart, hstop]

/-- **Cells of variable width are read as their values.** -/
theorem decodeVariableValues_cells (hsize : cells.flatten.length < 2 ^ 32)
    (hrows : values.length ≤ 2 ^ 32) (h : Forall₂ (Written json column []) values cells) :
    Gives column values (decodeVariableValues json column (wordTable (0 :: ends 0 cells))
      cells.flatten (encodeValidity values) values.length) := by
  have hoffs := decodeOffsets_cells hsize
  rw [← h.length_eq] at hoffs
  have hbtw : ∀ i cell, (values.map (·.isNull))[i]? = some false → cells[i]? = some cell →
      between cells.flatten (0 :: ends 0 cells) i = .ok cell := fun i cell _ hcell =>
    between_cells hcell
  have hpresent := presentRows_eq (by rw [length_map, h.length_eq]) hbtw
  have hbytes : cells.flatten.length < wordSize := hsize.trans (by decide)
  simp only [decodeVariableValues, hoffs, variableNulls_cells hwidth h, ok_bind]
  cases href : column.dataType.externalTypeRef with
  | some ref =>
    have hadm := column.dataType.admitted
    rw [href] at hadm
    have hvalues : Forall₂ (fun v cell => v.isNull = false →
        (expect (Value.tryExternal ref cell)
          "decoded external payload already passed shape validation" : Reading Value) =
          .ok v.stored) values cells := by
      refine h.imp fun v cell hw hnull => ?_
      have hvalue := hw.value hnull
      rw [decodeNonNullValue, href] at hvalue
      dsimp only at hvalue
      split at hvalue
      · next w hw' =>
        cases hvalue
        rw [hw']
        rfl
      · cases hvalue
    obtain ⟨data, offsets, hcopy, hrows⟩ := copied_cells column hpresent hbytes hvalues
    rw [columnNull, hadm.1] at hrows
    rw [Option.isSome_some, if_pos rfl, copyExternalBytes, href]
    exact ⟨.external data offsets ref _, by simp only [hcopy, ok_bind], hrows⟩
  | none =>
    have hdec := decode_of_written href h
    rw [Option.isSome_none, if_neg Bool.false_ne_true]
    have hcopied : isCopied column.dataType.logicalType = true →
        Gives column values (copyVariableBytes cells.flatten (0 :: ends 0 cells)
          (values.map (·.isNull)) column.dataType.logicalType) :=
      fun hcopied => copied_payloads hcopied hpresent hbytes hdec
    rcases variable_types hwidth href with htype | htype | htype
    · rw [htype] at hdec ⊢
      obtain ⟨ids, dictionary, hintern, hrows⟩ := interned_cells _ htype hbtw hrows
        (hdec.imp fun v cell hvalue hv => text_of_decode (hvalue hv))
      exact ⟨.text ids dictionary _, by simp only [decodePlainText, hintern, ok_bind],
        hrows⟩
    · rw [htype] at hcopied ⊢
      exact hcopied rfl
    · rw [htype] at hcopied ⊢
      exact hcopied rfl

end

/-! ## The payload -/

variable {group : DataRowGroup} {validity offsetBytes valueBytes : Bytes} {layout : ℕ}

/-- **The header of a plain payload** is read. -/
theorem decodePlain_fields (hlayout : layout < 256 ^ 2)
    (hval : validity.length = validityBytes group.rowCount)
    (hvalid : validateValidity validity group.rowCount column.nullable = .ok ())
    (hsize : plainHeaderBytes + validity.length + offsetBytes.length + valueBytes.length ≤
      maxLogicalBytesPerBlock) {bytes : Bytes}
    (hbytes : bytes = fields (plainHeader layout group.rowCount validity.length offsetBytes.length
      valueBytes.length) ++ (validity ++ (offsetBytes ++ valueBytes))) :
    decodePlain json column group bytes =
      decodePlainValues json column bytes validity layout group.rowCount offsetBytes.length
        valueBytes.length (plainHeaderBytes + validity.length)
        (plainHeaderBytes + validity.length + offsetBytes.length) := by
  have hmax : maxLogicalBytesPerBlock = 536870912 := rfl
  have hrows := group.rows.2
  have hgroup : maxRowsPerGroup = 65536 := rfl
  have hword : wordSize = 18446744073709551616 := rfl
  have hall : bytes.length =
      plainHeaderBytes + validity.length + offsetBytes.length + valueBytes.length := by
    rw [hbytes, length_append, length_append, length_append, ← Nat.add_assoc, ← Nat.add_assoc]
    rfl
  have hmagic : bytes.take 4 = plainMagic := hbytes ▸ take_fields _ rfl rfl
  have hver : word 2 bytes 4 = .ok 1 := hbytes ▸ word_fields 1 _ rfl (by decide)
  have hrsv : word 4 bytes 28 = .ok 0 := hbytes ▸ word_fields 7 _ rfl (by decide)
  have hlayout' : word 2 bytes 6 = .ok layout := hbytes ▸ word_fields 2 _ rfl hlayout
  have hcount : word 4 bytes 8 = .ok group.rowCount := hbytes ▸ word_fields 3 _ rfl (by omega)
  have hvalLen : word 4 bytes 12 = .ok validity.length :=
    hbytes ▸ word_fields 4 _ rfl (by omega)
  have hoffsLen : word 4 bytes 16 = .ok offsetBytes.length :=
    hbytes ▸ word_fields 5 _ rfl (by omega)
  have hvalsLen : word 8 bytes 20 = .ok valueBytes.length :=
    hbytes ▸ word_fields 6 _ rfl (by omega)
  have hslice : (slice bytes plainHeaderBytes
      (plainHeaderBytes + validity.length) : Reading Bytes) = .ok validity := by
    rw [hbytes]
    exact slice_append rfl rfl
  rw [decodePlain, if_neg]
  · simp only [hver, hrsv, hlayout', hcount, hvalLen, hoffsLen,
      hvalsLen, bind, Except.bind, ne_eq, not_true_eq_false, or_self, if_false, hval]
    simp (disch := omega) only [← hval, checkedAdd_of_lt, hall, hslice, hvalid,
      not_true_eq_false, if_false]
  · rw [hmagic, hall]
    simp only [ne_eq, not_true_eq_false, or_false, not_lt]
    omega

theorem plain_slices {header : Bytes} (validity offsetBytes valueBytes : Bytes)
    (hhdr : header.length = plainHeaderBytes) :
    (Checked.slice (header ++ (validity ++ (offsetBytes ++ valueBytes)))
        (plainHeaderBytes + validity.length)
        (plainHeaderBytes + validity.length + offsetBytes.length) : Reading Bytes) =
      .ok offsetBytes ∧
    (Checked.slice (header ++ (validity ++ (offsetBytes ++ valueBytes)))
        (plainHeaderBytes + validity.length + offsetBytes.length)
        (header ++ (validity ++ (offsetBytes ++ valueBytes))).length : Reading Bytes) =
      .ok valueBytes := by
  constructor
  · rw [← append_assoc]
    refine slice_append ?_ rfl
    rw [length_append, hhdr]
  · have hsplit : header ++ (validity ++ (offsetBytes ++ valueBytes)) =
        (header ++ validity ++ offsetBytes) ++ (valueBytes ++ []) := by simp
    rw [hsplit]
    refine slice_append ?_ ?_
    · rw [length_append, length_append, hhdr]
    · simp only [length_append, hhdr, length_nil, Nat.add_zero]

theorem columnWidth_eq_some (h : columnWidth column = some width) :
    column.dataType.externalTypeRef = none ∧
      fixedWidth column.dataType.logicalType column.dataType.parameter1 = some width := by
  unfold columnWidth at h
  split_ifs at h with href
  exact ⟨Option.not_isSome_iff_eq_none.mp href, h⟩

/-- Values that pass the checks of a column are NULL only if it admits NULLs. -/
theorem nullable_of_valid {v : Value} (h : validateColumnValue json column v = .ok ())
    (hnull : v.isNull = true) : column.nullable = true := by
  rw [validateColumnValue, if_pos hnull] at h
  split_ifs at h with hnul
  exact hnul

/-- What the writer has written, as the reader cuts it. -/
theorem encodePlain_cases {bytes : Bytes} (h : encodePlain json column values = .ok bytes) :
    ∃ layout offsets valueBytes, plainParts json column values = .ok (layout, offsets, valueBytes) ∧
      plainHeaderBytes + (encodeValidity values).length + (wordTable offsets).length +
        valueBytes.length ≤ maxLogicalBytesPerBlock ∧
      bytes = fields (plainHeader layout values.length (encodeValidity values).length
        (wordTable offsets).length valueBytes.length) ++
        (encodeValidity values ++ (wordTable offsets ++ valueBytes)) := by
  obtain ⟨⟨layout, offsets, valueBytes⟩, hparts, h⟩ := ok_of_bind h
  obtain ⟨_, hchecked, h⟩ := ok_of_bind h
  unfold validateLogicalLength at hchecked
  split_ifs at hchecked with hlong
  cases h
  refine ⟨layout, offsets, valueBytes, hparts, ?_, ?_⟩
  · rw [length_wordTable]
    exact not_lt.mp hlong
  · rw [length_wordTable, append_assoc, append_assoc]

/-- **A plain payload is read back.** -/
theorem decodePlain_encode {bytes : Bytes}
    (hvalid : AllValid json column values)
    (hrows : values.length = group.rowCount) (h : encodePlain json column values = .ok bytes) :
    Gives column values (decodePlain json column group bytes) := by
  obtain ⟨layout, offsets, valueBytes, hparts, hsize, rfl⟩ := encodePlain_cases h
  have hcheck := validateValidity_encode fun v hv => nullable_of_valid (hvalid v hv)
  have hval := length_encodeValidity values
  have hmax : maxLogicalBytesPerBlock = 536870912 := rfl
  have hcount := group.rows.2
  have hgroup : maxRowsPerGroup = 65536 := rfl
  have hword : wordSize = 18446744073709551616 := rfl
  have hhdr : ∀ layout, (fields (plainHeader layout group.rowCount (encodeValidity values).length
      (wordTable offsets).length valueBytes.length)).length = plainHeaderBytes := fun _ => by
    rfl
  rw [hrows] at hval hcheck ⊢
  unfold plainParts at hparts
  cases hwidth : columnWidth column with
  | some width =>
    obtain ⟨hbi, hfixed⟩ := columnWidth_eq_some hwidth
    simp only [hwidth] at hparts
    obtain ⟨cells, hcells, hparts⟩ := ok_of_bind hparts
    cases hparts
    have hwritten := written_of_forall₂ hvalid (fun _ => rfl) (forall₂_of_mapM hcells)
    have hcells := length_flatten_cells (length_of_written hbi hfixed hwritten)
    have hlen := hwritten.length_eq
    have hproduct : group.rowCount * width = cells.flatten.length := by
      rw [hcells, ← hlen, hrows]
    rw [decodePlain_fields (by decide) hval hcheck hsize rfl]
    simp only [decodePlainValues, (plain_slices _ _ _ (hhdr 1)).2, hwidth, mul, hproduct,
      if_pos (show cells.flatten.length < wordSize by omega), ok_bind]
    rw [if_pos ⟨rfl, trivial⟩, ← hrows]
    exact decodeFixedValues_cells hbi hfixed (by omega) hwritten
  | none =>
    simp only [hwidth] at hparts
    obtain ⟨appended, happ, hparts⟩ := ok_of_bind hparts
    obtain ⟨offsets', bytes'⟩ := appended
    cases hparts
    obtain ⟨cells, hcells, hbytes, hoffs, hshort⟩ := appendCells_spec happ
    rw [nil_append] at hbytes
    obtain rfl : offsets' = 0 :: ends 0 cells := hoffs
    subst hbytes
    have hwritten := written_of_forall₂ hvalid (fun _ => rfl) hcells
    have htable : (wordTable (0 :: ends 0 cells)).length = (group.rowCount + 1) * 4 := by
      rw [length_wordTable, length_cons, length_ends, ← hwritten.length_eq, hrows]
    rw [decodePlain_fields (by decide) hval hcheck hsize rfl]
    obtain ⟨hoffs, hvalues⟩ := plain_slices (encodeValidity values)
      (wordTable (0 :: ends 0 cells)) cells.flatten (hhdr 2)
    simp only [decodePlainValues, hvalues, hoffs, hwidth, mul, if_pos (show
      (group.rowCount + 1) * 4 < wordSize by omega), ok_bind, if_pos htable]
    rw [← hrows]
    exact decodeVariableValues_cells hwidth (hshort (by decide)) (by omega) hwritten

end

end RadixDb.Column
