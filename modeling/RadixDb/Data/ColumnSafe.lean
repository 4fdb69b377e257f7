import RadixDb.Data.ColumnCells

/-!
# Reading columns without a panic

A reader of a column may be given any bytes. What it checks is enough for what it does with them
afterwards: no index and no slice is out of range, and no sum overflows (`ensures_decodeTyped`). The
column that it makes is `Sound`: its places are within its data, and its numbers within its list of
texts.

Of the `expect`s of the conversion to values, one can fail. Eight bytes of a TIME are not checked to
be within a day when they are read, and the conversion expects that they are. **So reading a column
panics exactly if it is a column of TIME in which a row that is not NULL is outside the day**
(`column_panics_iff`).
-/

namespace RadixDb.Column

open List Nat Bytes Checked

section

variable {json : Json} {column : DataColumnSpec}

/-! ## Parts -/

variable {bytes : Bytes}

theorem ensures_word {width offset : ℕ} (h : offset + width ≤ bytes.length) :
    Ensures (word width bytes offset) fun n => n < 256 ^ width := by
  rw [word_eq h]
  refine Ensures.ok ((leNat_lt _).trans_le ?_)
  refine Nat.pow_le_pow_right (by decide) ?_
  rw [length_take]
  exact min_le_left _ _

variable {index : ℕ} {validity : Bytes}

theorem ensures_isValid (h : index / 8 < validity.length) :
    Ensures (isValid validity index) fun _ => True := by
  rw [isValid_eq h]
  exact trivial

variable {count : ℕ}

theorem ensures_readNulls (h : validity.length = validityBytes count) :
    Ensures (readNulls validity count) fun nulls => nulls.length = count := by
  rw [readNulls_eq (by rw [h, validityBytes]; omega)]
  exact Ensures.ok (by simp)

theorem ensures_validateValidity (nullable : Bool) (h : validity.length = validityBytes count) :
    Ensures (validateValidity validity count nullable) fun _ => True := by
  unfold validateValidity
  split_ifs
  · trivial
  · trivial
  · exact (ensures_readNulls h).bind fun nulls _ => .check fun _ => trivial

/-- What is known of offsets that were read. -/
structure Increasing (offsets : List ℕ) (count length : ℕ) : Prop where
  count : offsets.length = count + 1
  sorted : offsets.Pairwise (· ≤ ·)
  last : ∀ o ∈ offsets, o ≤ length
  words : ∀ o ∈ offsets, o < 2 ^ 32

variable {offsets : List ℕ}

theorem pairwise_of_zip_tail
    (h : (offsets.zip offsets.tail).any (fun pair => pair.2 < pair.1) = false) :
    offsets.Pairwise (· ≤ ·) := by
  rw [← isChain_iff_pairwise]
  induction offsets with
  | nil => exact .nil
  | cons a offsets ih =>
    cases offsets with
    | nil => exact isChain_singleton a
    | cons b offsets =>
      rw [tail_cons, zip_cons_cons, any_cons, Bool.or_eq_false_iff,
        decide_eq_false_iff_not, not_lt] at h
      exact isChain_cons_cons.mpr ⟨h.1, ih h.2⟩

theorem ensures_decodeOffsets (bytes : Bytes) (count length : ℕ) :
    Ensures (decodeOffsets bytes count length) fun offsets => Increasing offsets count length := by
  refine .check fun hlen => ?_
  refine (ensures_mapM_range (P := fun _ n => n < 2 ^ 32)
    fun index hindex => ensures_word (by omega)).bind fun offsets ⟨hcount, hwords⟩ => ?_
  refine .check fun hcanon => ?_
  simp only [not_or, not_not, Bool.not_eq_true] at hcanon
  obtain ⟨-, hlast, hincrease⟩ := hcanon
  have hsorted := pairwise_of_zip_tail hincrease
  refine Ensures.ok ⟨hcount, hsorted, fun o ho => ?_, fun o ho => ?_⟩
  · cases (getLast?_eq_some_getLast (ne_nil_of_mem ho)).symm.trans hlast
    exact hsorted.rel_getLast ho
  · obtain ⟨i, hi⟩ := mem_iff_getElem?.mp ho
    exact hwords i o hi

theorem Increasing.le {length start stop : ℕ} (h : Increasing offsets count length)
    (hstart : offsets[index]? = some start) (hstop : offsets[index + 1]? = some stop) :
    start ≤ stop := by
  obtain ⟨hi, rfl⟩ := List.getElem?_eq_some_iff.mp hstart
  obtain ⟨hj, rfl⟩ := List.getElem?_eq_some_iff.mp hstop
  exact pairwise_iff_getElem.mp h.sorted index (index + 1) hi hj (lt_succ_self _)

theorem ensures_between (h : Increasing offsets count bytes.length) (hindex : index < count) :
    Ensures (between bytes offsets index) fun b => b.length < 2 ^ 32 := by
  have hcount := h.count
  refine (ensures_index (by omega)).bind fun start hstart => ?_
  refine (ensures_index (by omega)).bind fun stop hstop => ?_
  have hlast := h.last stop (mem_of_getElem? hstop)
  have hword := h.words stop (mem_of_getElem? hstop)
  exact (ensures_slice (h.le hstart hstop) hlast).mono fun b hb => by omega

theorem ensures_fixedSlot {width : ℕ} (h : (index + 1) * width ≤ bytes.length)
    (hsize : (index + 1) * width < wordSize) :
    Ensures (fixedSlot bytes width index) fun b => b.length = width := by
  have hle : index * width ≤ (index + 1) * width := mul_le_mul_right width (le_succ index)
  refine (ensures_mul (by omega)).bind fun start hstart => ?_
  refine (ensures_mul hsize).bind fun stop hstop => ?_
  subst hstart hstop
  refine (ensures_slice hle h).mono fun b hb => ?_
  rw [hb.2, succ_mul, Nat.add_sub_cancel_left]

theorem ensures_validateExtensionBytes (json : Json) (column : DataColumnSpec)
    (type : DataType) (bytes : Bytes) :
    Ensures (validateExtensionBytes json column type bytes) fun _ => True := by
  unfold validateExtensionBytes
  cases hshape : Value.validateExtensionPayload json type bytes with
  | error e => trivial
  | ok u =>
    cases type with
    | vector =>
      split_ifs <;> trivial
    | decimal =>
      -- the shape of a decimal is 18 bytes
      simp only [Value.validateExtensionPayload] at hshape
      split_ifs at hshape with hlen
      refine (ensures_slice (zero_le _) (by omega)).bind fun unscaled _ => ?_
      refine (ensures_index (by omega)).bind fun scale _ => ?_
      exact ensures_ofExcept fun _ _ => trivial
    | _ => trivial

theorem ensures_validateVariableBytes (json : Json) (column : DataColumnSpec)
    (type : DataType) (bytes : Bytes) :
    Ensures (validateVariableBytes json column type bytes) fun _ => True := by
  unfold validateVariableBytes
  cases type with
  | text =>
    split_ifs <;> trivial
  | json | bytes => exact ensures_validateExtensionBytes json column _ bytes
  | _ => trivial

theorem ensures_validateExternalBytes (column : DataColumnSpec) (bytes : Bytes) :
    Ensures (validateExternalBytes column bytes) fun _ =>
      bytes.length ≤ maxExternalValueBytes := by
  unfold validateExternalBytes
  cases column.dataType.externalTypeRef with
  | none => trivial
  | some ref =>
    unfold Value.tryExternal
    split_ifs with hsize
    · trivial
    · exact Ensures.ok (not_lt.mp hsize)

/-! ## Copies -/

/-- A place in the data, of at most `bound` bytes. -/
def Within (data : Bytes) (bound : ℕ) (place : ℕ × ℕ) : Prop :=
  place.1 + place.2 ≤ data.length ∧ place.2 ≤ bound

variable {rows : List (Option (Reading Bytes))}

/-- **Copies** are within what is copied to. -/
theorem ensures_copyRows {bound : ℕ}
    (h : ∀ row, some row ∈ rows → Ensures row fun b => b.length ≤ bound) (data : Bytes)
    (offsets : List (ℕ × ℕ)) (hoffsets : ∀ place ∈ offsets, Within data bound place) :
    Ensures (copyRows rows data offsets) fun copy =>
      copy.1.length ≤ data.length + rows.length * bound ∧
        ∀ place ∈ copy.2, Within copy.1 bound place := by
  induction rows generalizing data offsets with
  | nil => exact Ensures.ok ⟨le_add_right _ _, hoffsets⟩
  | cons row rows ih =>
    have hrest := ih fun row hrow => h row (mem_cons_of_mem _ hrow)
    cases row with
    | none =>
      refine (hrest data (offsets ++ [(0, 0)]) (forall_mem_append.mpr
        ⟨hoffsets, forall_mem_singleton.mpr ⟨zero_le _, zero_le _⟩⟩)).mono fun copy hcopy => ?_
      rw [length_cons, succ_mul]
      exact ⟨by omega, hcopy.2⟩
    | some row =>
      refine (h row mem_cons_self).bind fun source hsource => ?_
      refine (hrest (data ++ source) (offsets ++ [(data.length, source.length)])
        (forall_mem_append.mpr ⟨fun place hplace => ?_, forall_mem_singleton.mpr
          ⟨by simp, hsource⟩⟩)).mono fun copy hcopy => ?_
      · have hold := hoffsets place hplace
        exact ⟨hold.1.trans (by simp), hold.2⟩
      · rw [length_append] at hcopy
        rw [length_cons, succ_mul]
        exact ⟨by omega, hcopy.2⟩

theorem mem_presentRows {α : Type} {row : ℕ → α} {nulls : List Bool} {r : α}
    (h : some r ∈ presentRows row nulls) : ∃ i, nulls[i]? = some false ∧ r = row i := by
  obtain ⟨p, hp, hrow⟩ := mem_map.mp h
  split_ifs at hrow with hnull
  rw [mem_zipIdx_iff_getElem?] at hp
  rw [Bool.not_eq_true] at hnull
  exact ⟨p.2, hnull ▸ hp, (Option.some.inj hrow).symm⟩

/-- **Numbers of texts** are numbers of the list. -/
theorem ensures_internTexts (h : ∀ row, some row ∈ rows → Ensures row fun _ => True) (ids : List ℕ)
    (dictionary : List String) :
    Ensures (internTexts rows ids dictionary) fun result =>
      dictionary.length ≤ result.2.length ∧
        ∃ ids', result.1 = ids ++ ids' ∧
          Forall₂ (fun row id => row.isSome = true → id < result.2.length) rows ids' := by
  induction rows generalizing ids dictionary with
  | nil => exact Ensures.ok ⟨le_refl _, [], (append_nil _).symm, .nil⟩
  | cons row rows ih =>
    have hrest := ih fun row hrow => h row (mem_cons_of_mem _ hrow)
    cases row with
    | none =>
      refine (hrest _ _).mono fun result ⟨hle, ids', hids, hall⟩ => ⟨hle, 0 :: ids', ?_, ?_⟩
      · rw [hids, append_assoc]
        rfl
      · exact .cons nofun hall
    | some row =>
      refine (h row mem_cons_self).bind fun bytes _ => ?_
      cases fromUtf8 bytes with
      | none => trivial
      | some text =>
        dsimp only
        cases hid : dictionary.idxOf? text with
        | some id =>
          have hlt : id < dictionary.length :=
            (findIdx?_eq_some_iff_getElem.mp hid).1
          refine (hrest _ _).mono fun result ⟨hle, ids', hids, hall⟩ => ⟨hle, id :: ids', ?_, ?_⟩
          · rw [hids, append_assoc]
            rfl
          · exact .cons (fun _ => hlt.trans_le hle) hall
        | none =>
          split_ifs
          · trivial
          · refine (hrest _ _).mono fun result ⟨hle, ids', hids, hall⟩ =>
              ⟨?_, dictionary.length :: ids', ?_, ?_⟩
            · exact (length_append ▸ le_add_right _ _ : _).trans hle
            · rw [hids, append_assoc]
              rfl
            · refine .cons (fun _ => ?_) hall
              rw [length_append, length_singleton] at hle
              omega

/-! ## Columns -/

/-- What the conversion to values relies on. -/
def DecodedColumn.Sound : DecodedColumn → Prop
  | .text ids dictionary nulls =>
    ∀ row ∈ ids.zip nulls, row.2 = false → row.1 < dictionary.length
  | .bytes data offsets _ _ =>
    data.length < wordSize ∧ ∀ place ∈ offsets, place.1 + place.2 ≤ data.length
  | .external data offsets _ _ =>
    data.length < wordSize ∧ ∀ place ∈ offsets, Within data maxExternalValueBytes place
  | .timestampNanos _ type _ => type = .timestamp ∨ type = .civilTimestamp ∨ type = .time
  | _ => True

theorem sound_bytes (bound : ℕ) (type : DataType) (nulls : List Bool)
    (h : ∀ row, some row ∈ rows → Ensures row fun b => b.length ≤ bound)
    (hsize : rows.length * bound < wordSize) :
    Ensures (do
      let (data, offsets) ← copyRows rows [] []
      .ok (.bytes data offsets type nulls)) DecodedColumn.Sound := by
  refine (ensures_copyRows h [] [] nofun).bind fun copy ⟨hlen, hplaces⟩ => ?_
  rw [length_nil, zero_add] at hlen
  exact Ensures.ok ⟨hlen.trans_lt hsize, fun place hplace => (hplaces place hplace).1⟩

section

variable {bytes validity : Bytes} {count width : ℕ} (hbytes : bytes.length = count * width)
  (hvalidity : validity.length = validityBytes count) (hsize : count * width < wordSize)
include hbytes hsize

theorem ensures_slot_of_lt (h : index < count) :
    Ensures (fixedSlot bytes width index) fun b => b.length = width := by
  have hle : (index + 1) * width ≤ count * width := mul_le_mul_right width h
  exact ensures_fixedSlot (hbytes ▸ hle) (hle.trans_lt hsize)

include hvalidity

theorem ensures_decodeFixedNulls :
    Ensures (decodeFixedNulls bytes validity count width) fun nulls => nulls.length = count := by
  refine (ensures_mapM_range (P := fun _ _ => True) fun index hlt => ?_).mono fun _ h => h.1
  refine (ensures_isValid (by rw [hvalidity, validityBytes]; omega)).bind fun valid _ => ?_
  split_ifs
  · trivial
  · exact (ensures_slot_of_lt hbytes hsize hlt).bind fun slot _ => .check fun _ => trivial

/-- **Columns of one width.** -/
theorem ensures_decodeFixedValues :
    Ensures (decodeFixedValues json column bytes validity count width) DecodedColumn.Sound := by
  have hchunk : ∀ chunk ∈ chunksExact 8 bytes, chunk.length = 8 := by
    intro chunk hchunk
    obtain ⟨index, hindex, rfl⟩ := mem_map.mp hchunk
    have hlt := mem_range.mp hindex
    rw [length_take, length_drop]
    omega
  have hread : ∀ message, ∀ chunk ∈ chunksExact 8 bytes,
      Ensures (readI64 message chunk) fun _ => True := by
    intro message chunk h
    rw [readI64, dif_pos (hchunk chunk h)]
    trivial
  have hreadF : ∀ message, ∀ chunk ∈ chunksExact 8 bytes,
      Ensures (readF64 message chunk) fun _ => True := by
    intro message chunk h
    rw [readF64, if_pos (hchunk chunk h)]
    trivial
  refine (ensures_decodeFixedNulls hbytes hvalidity hsize).bind fun nulls hnulls => ?_
  have hext : Ensures (decodeFixedExtension json column bytes width nulls)
      DecodedColumn.Sound := by
    refine sound_bytes width _ nulls (fun row hrow => ?_) ?_
    · obtain ⟨index, hindex, rfl⟩ := mem_presentRows hrow
      have hlt : index < count := hnulls ▸ (List.getElem?_eq_some_iff.mp hindex).1
      refine (ensures_slot_of_lt hbytes hsize hlt).bind fun value hvalue => ?_
      exact (ensures_validateExtensionBytes json column _ value).bind fun _ _ => hvalue.le
    · rwa [presentRows, length_map, length_zipIdx, hnulls]
  cases htype : column.dataType.logicalType with
  | integer => exact (ensures_mapM (hread _)).bind fun _ _ => trivial
  | float => exact (ensures_mapM (hreadF _)).bind fun _ _ => trivial
  | timestamp => exact (ensures_mapM (hread _)).bind fun _ _ => .inl rfl
  | civilTimestamp => exact (ensures_mapM (hread _)).bind fun _ _ => .inr (.inl rfl)
  | time => exact (ensures_mapM (hread _)).bind fun _ _ => .inr (.inr rfl)
  | boolean =>
    split_ifs <;> trivial
  | vector | uuid | decimal | date => exact hext
  | text | json | bytes | null => trivial

end

section

variable {valueBytes validity : Bytes} {offsets : List ℕ} {count : ℕ}

/-- What a row of variable width was checked for: it can be cut out, and an external value is not
too long. -/
def RowChecked (column : DataColumnSpec) (valueBytes : Bytes) (offsets : List ℕ) (index : ℕ)
    (isNull : Bool) : Prop :=
  isNull = false → Ensures (between valueBytes offsets index) fun b => b.length ≤ 2 ^ 32 ∧
    (column.dataType.externalTypeRef.isSome = true → b.length ≤ maxExternalValueBytes)

theorem ensures_variableNull (hvalidity : validity.length = validityBytes count)
    (hoffsets : Increasing offsets count valueBytes.length) (hindex : index < count) :
    Ensures (variableNull json column valueBytes validity offsets index)
      (RowChecked column valueBytes offsets index) := by
  have hcount := hoffsets.count
  refine (ensures_isValid (by rw [hvalidity, validityBytes]; omega)).bind fun valid _ => ?_
  cases valid with
  | true =>
    refine (ensures_between hoffsets hindex).self.bind fun bytes hbytes => ?_
    obtain ⟨hlen, hbtw⟩ := hbytes
    have hrow : (column.dataType.externalTypeRef.isSome = true →
        bytes.length ≤ maxExternalValueBytes) →
        RowChecked column valueBytes offsets index false := by
      intro hext _
      rw [hbtw]
      exact ⟨hlen.le, hext⟩
    split_ifs with href
    · exact (ensures_validateExternalBytes column bytes).bind fun _ hshort => hrow fun _ => hshort
    · exact (ensures_validateVariableBytes json column _ bytes).bind fun _ _ =>
        hrow fun hsome => absurd hsome href
  | false =>
    refine (ensures_index (by omega)).bind fun start _ => ?_
    refine (ensures_index (by omega)).bind fun stop _ => ?_
    exact .check fun _ => Ensures.ok fun hvalue => by cases hvalue

/-- **Columns of variable width.** -/
theorem ensures_decodeVariableValues (hvalidity : validity.length = validityBytes count)
    (hrows : count ≤ maxRowsPerGroup) (offsetBytes : Bytes) :
    Ensures (decodeVariableValues json column offsetBytes valueBytes validity count)
      DecodedColumn.Sound := by
  have hgroup : maxRowsPerGroup = 65536 := rfl
  have hword : wordSize = 18446744073709551616 := rfl
  refine (ensures_decodeOffsets offsetBytes count valueBytes.length).bind fun offsets hoffsets => ?_
  refine (ensures_mapM_range fun index hindex =>
    ensures_variableNull hvalidity hoffsets hindex).bind fun nulls hnulls => ?_
  obtain ⟨hlen, hchecked⟩ := hnulls
  have hrow : ∀ row, some row ∈ presentRows (between valueBytes offsets) nulls →
      Ensures row fun b => b.length ≤ 2 ^ 32 ∧
        (column.dataType.externalTypeRef.isSome = true → b.length ≤ maxExternalValueBytes) := by
    intro row hrow
    obtain ⟨index, hindex, rfl⟩ := mem_presentRows hrow
    exact hchecked index false hindex rfl
  have hlength : (presentRows (between valueBytes offsets) nulls).length = count := by
    rw [presentRows, length_map, length_zipIdx, hlen]
  have hcopied : ∀ type, Ensures (copyVariableBytes valueBytes offsets nulls type)
      DecodedColumn.Sound := fun type =>
    sound_bytes (2 ^ 32) type nulls (fun row h => (hrow row h).mono fun _ hb => hb.1)
      (by rw [hlength]; omega)
  split_ifs with href
  · unfold copyExternalBytes
    cases column.dataType.externalTypeRef with
    | none => trivial
    | some ref =>
      have hext := fun row h => (hrow row h).mono fun _ hb => hb.2 href
      refine (ensures_copyRows hext [] [] (forall_mem_nil _)).bind fun copy hcopied => ?_
      obtain ⟨hcopy, hplaces⟩ := hcopied
      have hmax : maxExternalValueBytes = 16777216 := rfl
      rw [length_nil, zero_add, hlength] at hcopy
      exact Ensures.ok ⟨by rw [hmax] at hcopy; omega, hplaces⟩
  · cases column.dataType.logicalType with
    | text =>
      refine (ensures_internTexts (fun row h => (hrow row h).mono fun _ _ => trivial) [] []).bind
        fun result hresult => ?_
      obtain ⟨-, ids, hids, hall⟩ := hresult
      refine Ensures.ok fun row hrow hnull => ?_
      rw [hids, nil_append] at hrow
      obtain ⟨index, hindex, rfl⟩ := mem_iff_getElem.mp hrow
      rw [length_zip] at hindex
      rw [getElem_zip] at hnull ⊢
      refine (forall₂_iff_get.mp hall).2 index (by rw [hlength]; omega) (by omega) ?_
      simp only [presentRows, get_eq_getElem, getElem_map, getElem_zipIdx]
      rw [if_neg (by simpa using hnull)]
      rfl
    | json | bytes => exact hcopied _
    | _ => trivial

end

/-! ## Payloads -/

section

variable (json column) (group : DataRowGroup) (bytes : Bytes)

/-- Widths of columns are those of vectors, at most. -/
theorem columnWidth_le {width : ℕ} (h : columnWidth column = some width) : width ≤ 262140 := by
  have hadm := column.dataType.admitted
  unfold columnWidth at h
  split_ifs at h with href
  rw [Option.not_isSome_iff_eq_none.mp href] at hadm
  cases htype : column.dataType.logicalType <;> rw [htype] at h hadm <;> cases h <;>
    try decide
  have hdimensions := hadm.2.1
  omega

theorem ensures_decodePlainValues (layout : ℕ)
    {offsetsLength valuesLength validityEnd offsetsEnd : ℕ}
    (hrows : count ≤ maxRowsPerGroup) (hvalidity : validity.length = validityBytes count)
    (hoffsets : offsetsEnd = validityEnd + offsetsLength)
    (hvalues : offsetsEnd + valuesLength = bytes.length) :
    Ensures (decodePlainValues json column bytes validity layout count offsetsLength valuesLength
      validityEnd offsetsEnd) DecodedColumn.Sound := by
  have hgroup : maxRowsPerGroup = 65536 := rfl
  have hword : wordSize = 18446744073709551616 := rfl
  refine (ensures_slice (by omega) (le_refl _)).bind fun values hslice => ?_
  split
  · next width hwidth =>
    have hle : count * width ≤ 65536 * 262140 :=
      Nat.mul_le_mul (hgroup ▸ hrows) (columnWidth_le column hwidth)
    refine (ensures_mul (by omega)).bind fun expected hexpected => ?_
    split_ifs with hcase
    · exact ensures_decodeFixedValues (by omega) hvalidity (by omega)
    · trivial
  · refine (ensures_mul (by omega)).bind fun expected hexpected => ?_
    split_ifs with hcase
    · refine (ensures_slice (by omega) (by omega)).bind fun offsets _ => ?_
      exact ensures_decodeVariableValues hvalidity hrows offsets
    · trivial
  · trivial

theorem ensures_decodePlain : Ensures (decodePlain json column group bytes)
    DecodedColumn.Sound := by
  unfold decodePlain
  refine .check fun hhdr => ?_
  rw [not_or, not_lt] at hhdr
  have hlen : 32 ≤ bytes.length := hhdr.1
  refine (ensures_word (by omega)).bind fun version _ => ?_
  refine (ensures_word (by omega)).bind fun reserved _ => .check fun _ => ?_
  refine (ensures_word (by omega)).bind fun layout _ => ?_
  refine (ensures_word (by omega)).bind fun count _ => .check fun hcount => ?_
  obtain rfl := not_not.mp hcount
  refine (ensures_word (by omega)).bind fun validityLength _ => .check fun hvalidity => ?_
  refine (ensures_word (by omega)).bind fun offsetsLength _ => ?_
  refine (ensures_word (by omega)).bind fun valuesLength _ => ?_
  refine (ensures_checkedAdd _ _ _).bind fun validityEnd ⟨hvalidityEnd, _⟩ => ?_
  refine (ensures_checkedAdd _ _ _).bind fun offsetsEnd ⟨hoffsetsEnd, _⟩ => ?_
  refine (ensures_checkedAdd _ _ _).bind fun valuesEnd ⟨hvaluesEnd, _⟩ => .check fun hall => ?_
  refine (ensures_slice (by omega) (by omega)).bind fun validity hslice => ?_
  have hlength : validity.length = validityBytes group.rowCount := by omega
  refine (ensures_validateValidity _ hlength).bind fun _ _ => ?_
  exact ensures_decodePlainValues json column bytes layout group.rows.2 hlength hoffsetsEnd
    (by omega)

/-! ## Dictionaries -/

theorem ensures_checkDictionary (hsorted : offsets.Pairwise (· ≤ ·))
    (hlast : ∀ o ∈ offsets, o ≤ bytes.length) :
    Ensures (checkDictionary bytes offsets) fun _ => True := by
  induction offsets with
  | nil => trivial
  | cons a offsets ih =>
    obtain ⟨ha, hrest⟩ := pairwise_cons.mp hsorted
    have hlast' := fun o ho => hlast o (mem_cons_of_mem a ho)
    match offsets, ih hrest hlast' with
    | [], _ => trivial
    | [b], _ => trivial
    | b :: c :: offsets, ih =>
      have hb := hlast' b mem_cons_self
      have hc := hlast' c (mem_cons_of_mem _ mem_cons_self)
      have hbc := (pairwise_cons.mp hrest).1 c mem_cons_self
      refine (ensures_slice (ha b mem_cons_self) hb).bind fun left _ => ?_
      exact (ensures_slice hbc hc).bind fun right _ => .check fun _ => ih

variable {bytes} {validity : Bytes} {count distinct dictionaryEnd : ℕ}

/-- Codes of rows that are not NULL are codes of the dictionary. -/
theorem ensures_readCode (hvalidity : validity.length = validityBytes count)
    (hbytes : dictionaryEnd + count * 4 = bytes.length) (hsize : bytes.length < wordSize)
    (hindex : index < count) :
    Ensures (readCode bytes validity dictionaryEnd distinct index) fun row =>
      row.2 = false → row.1 < distinct := by
  refine (ensures_mul (by omega)).bind fun skipped hskipped => ?_
  refine (ensures_add (by omega)).bind fun offset hoffset => ?_
  refine (ensures_word (by omega)).bind fun code _ => ?_
  refine (ensures_isValid (by rw [hvalidity, validityBytes]; omega)).bind fun valid _ => ?_
  split_ifs with hvalid hcode hzero
  · trivial
  · exact Ensures.ok fun _ => by omega
  · trivial
  · exact Ensures.ok fun hvalue => by cases hvalue

variable {dictionaryBytes : Bytes} {offsets : List ℕ}
  (hoffsets : Increasing offsets distinct dictionaryBytes.length)
include hoffsets

theorem ensures_expandedLength {rows : List (ℕ × Bool)}
    (hrows : ∀ row ∈ rows, row.2 = false → row.1 < distinct) (total : ℕ) :
    Ensures (expandedLength offsets rows total) fun _ => True := by
  have hcount := hoffsets.count
  induction rows generalizing total with
  | nil => trivial
  | cons row rows ih =>
    obtain ⟨code, isNull⟩ := row
    have hrest := ih fun row hrow => hrows row (mem_cons_of_mem _ hrow)
    cases isNull with
    | true => exact hrest total
    | false =>
      have hcode : code < distinct := hrows _ mem_cons_self rfl
      refine (ensures_index (by omega)).bind fun stop hstop => ?_
      refine (ensures_index (by omega)).bind fun start hstart => ?_
      rw [if_neg (not_lt.mpr (hoffsets.le hstart hstop))]
      exact (ensures_checkedAdd _ _ _).bind fun total _ => hrest total

theorem ensures_decodeDictionaryRows (hrows : count ≤ maxRowsPerGroup)
    (hvalidity : validity.length = validityBytes count)
    (hbytes : dictionaryEnd + count * 4 = bytes.length) (hsize : bytes.length < wordSize) :
    Ensures (decodeDictionaryRows json column bytes validity dictionaryBytes offsets dictionaryEnd
      count distinct) DecodedColumn.Sound := by
  have hgroup : maxRowsPerGroup = 65536 := rfl
  have hword : wordSize = 18446744073709551616 := rfl
  have hbtw : ∀ index ∈ range distinct, Ensures (between dictionaryBytes offsets index)
      fun b => b.length ≤ 2 ^ 32 := fun index hindex =>
    (ensures_between hoffsets (mem_range.mp hindex)).mono fun _ hb => hb.le
  refine (ensures_checkDictionary dictionaryBytes hoffsets.sorted hoffsets.last).bind fun _ _ => ?_
  refine (ensures_readNulls hvalidity).bind fun nulls _ => .check fun _ => ?_
  refine (ensures_mapM_range fun index hindex =>
    ensures_readCode hvalidity hbytes hsize hindex).bind fun rows ⟨hlen, hall⟩ => ?_
  have hcode : ∀ row ∈ rows, row.2 = false → row.1 < distinct := by
    intro row hrow
    obtain ⟨i, hi⟩ := mem_iff_getElem?.mp hrow
    exact hall i row hi
  have hexpand : ∀ type, Ensures (do
      (range distinct).forM fun index => do
        let value ← between dictionaryBytes offsets index
        validateExtensionBytes json column type value
      expandDictionaryBytes dictionaryBytes offsets rows type) DecodedColumn.Sound := by
    intro type
    refine (ensures_forM fun index hindex => (hbtw index hindex).bind fun value _ =>
      ensures_validateExtensionBytes json column type value).bind fun _ _ => ?_
    refine (ensures_expandedLength hoffsets hcode 0).bind fun required _ => .check fun _ => ?_
    refine sound_bytes (2 ^ 32) type _ (fun copy hcopy => ?_) ?_
    · obtain ⟨row, hrow, heq⟩ := mem_map.mp hcopy
      split_ifs at heq with hnull
      rw [← Option.some.inj heq]
      exact hbtw _ (mem_range.mpr (hcode row hrow (by simpa using hnull)))
    · rw [length_map, hlen]
      omega
  cases column.dataType.logicalType with
  | text =>
    refine (ensures_mapM_range (P := fun _ _ => True) fun index hindex => ?_).bind
      fun texts ⟨hlength, _⟩ => Ensures.ok fun row hrow hnull => ?_
    · refine (hbtw index (mem_range.mpr hindex)).bind fun text _ => ?_
      split <;> trivial
    rw [zip_map'] at hrow
    obtain ⟨code, hcode', rfl⟩ := mem_map.mp hrow
    rw [hlength]
    exact hcode code hcode' hnull
  | _ => exact hexpand _

omit hoffsets in
theorem ensures_decodeDictionary : Ensures (decodeDictionary json column group bytes)
    DecodedColumn.Sound := by
  unfold decodeDictionary
  refine .check fun _ => .check fun _ => .check fun hhdr => ?_
  rw [not_or, not_lt] at hhdr
  have hlen : 40 ≤ bytes.length := hhdr.1
  refine (ensures_word (by omega)).bind fun version _ => ?_
  refine (ensures_word (by omega)).bind fun flags _ => ?_
  refine (ensures_word (by omega)).bind fun reserved _ => .check fun _ => ?_
  refine (ensures_word (by omega)).bind fun count _ => ?_
  refine (ensures_word (by omega)).bind fun distinct _ => .check fun hcounts => ?_
  simp only [not_or, not_not, not_lt] at hcounts
  obtain ⟨rfl, -, -⟩ := hcounts
  refine (ensures_word (by omega)).bind fun validityLength _ => ?_
  refine (ensures_word (by omega)).bind fun offsetsLength _ => ?_
  refine (ensures_word (by omega)).bind fun dictionaryLength _ => ?_
  refine (ensures_word (by omega)).bind fun codesLength _ => .check fun hlens => ?_
  refine (ensures_checkedAdd _ _ _).bind fun validityEnd ⟨hvalidityEnd, _⟩ => ?_
  refine (ensures_checkedAdd _ _ _).bind fun offsetsEnd ⟨hoffsetsEnd, _⟩ => ?_
  refine (ensures_checkedAdd _ _ _).bind fun dictionaryEnd ⟨hdictionaryEnd, _⟩ => ?_
  refine (ensures_checkedAdd _ _ _).bind fun codesEnd ⟨hcodesEnd, hsize⟩ => .check fun hall => ?_
  refine (ensures_slice (by omega) (by omega)).bind fun validity hslice => ?_
  have hlength : validity.length = validityBytes group.rowCount := by omega
  refine (ensures_validateValidity _ hlength).bind fun _ _ => ?_
  refine (ensures_slice (by omega) (by omega)).bind fun offsetBytes _ => ?_
  refine (ensures_decodeOffsets offsetBytes distinct dictionaryLength).bind
    fun offsets hoffsets => ?_
  refine (ensures_slice (by omega) (by omega)).bind fun dictionaryBytes hdict => ?_
  have hdictLen : dictionaryBytes.length = dictionaryLength := by omega
  subst hdictLen
  exact ensures_decodeDictionaryRows json column hoffsets group.rows.2 hlength (by omega) (by omega)

end

/-- **Whatever is read, no panic.** -/
theorem ensures_decodeTyped (json : Json) (lz4 : Lz4) (column : DataColumnSpec)
    (group : DataRowGroup) (block : DataBlockRef) (stored : Bytes) :
    Ensures (decodeTypedColumnPayload json lz4 column group block stored)
      DecodedColumn.Sound := by
  unfold decodeTypedColumnPayload
  refine .check fun _ => ?_
  have hphys : Ensures (decodePhysical lz4 stored block) fun _ => True := by
    unfold decodePhysical
    split
    · split_ifs <;> trivial
    · split <;> trivial
  refine hphys.bind fun logical _ => ?_
  split
  · exact ensures_decodePlain json column group logical
  · exact ensures_decodeDictionary json column group
  · trivial

/-! ## Values -/

/-- A row of a column of TIME that is not NULL and outside the day. -/
def DecodedColumn.OutsideDay : DecodedColumn → Prop
  | .timestampNanos values .time nulls =>
    ∃ row ∈ values.zip nulls, row.2 = false ∧ ¬ (0 ≤ row.1.1 ∧ row.1.1 < nanosPerDay)
  | _ => False

theorem ensures_rowValues {α : Type} {null : Value} {value : α → Reading Value} {buffer : List α}
    {nulls : List Bool}
    (h : ∀ row ∈ buffer.zip nulls, row.2 = false → Ensures (value row.1) fun _ => True) :
    Ensures (rowValues null value buffer nulls) fun _ => True := by
  have hrow : ∀ row ∈ buffer.zip nulls,
      Ensures (if row.2 then .ok null else value row.1) fun _ => True := by
    intro row hrow
    split_ifs with hnull
    · trivial
    · exact h row hrow (by simpa using hnull)
  exact (ensures_mapM hrow).mono fun _ _ => trivial

theorem ensures_rowBytes {data : Bytes} {place : ℕ × ℕ} (hsize : data.length < wordSize)
    (h : place.1 + place.2 ≤ data.length) :
    Ensures (rowBytes data place) fun b => b.length = place.2 := by
  refine (ensures_add (by omega)).bind fun stop hstop => ?_
  subst hstop
  exact (ensures_slice (le_add_right _ _) h).mono fun b hb => by omega

/-- Instants have any number of nanoseconds; times have those of a day. -/
theorem fromTemporalNanos_ok {type : DataType}
    (htype : type = .timestamp ∨ type = .civilTimestamp ∨ type = .time) {nanos : ℤ}
    (hnanos : InI64 nanos) (hday : type = .time → 0 ≤ nanos ∧ nanos < nanosPerDay) :
    ∃ v, Value.fromTemporalNanos type nanos = .ok v := by
  rcases htype with rfl | rfl | rfl
  · exact ⟨_, rfl⟩
  · simp only [Value.fromTemporalNanos, DateTime.timestampNanosOpt,
      dateTimeFromEpochNanos_totalNanos, if_pos hnanos]
    exact ⟨_, rfl⟩
  · simp only [Value.fromTemporalNanos, if_pos (hday rfl)]
    exact ⟨_, rfl⟩

/-- **The conversion of a sound column** panics only outside the day. -/
theorem ensures_intoValues {d : DecodedColumn} (h : d.Sound) (hday : ¬ d.OutsideDay) :
    Ensures d.intoValues fun _ => True := by
  unfold DecodedColumn.intoValues
  cases d with
  | int64 | float64 | boolean => exact ensures_rowValues fun _ _ _ => trivial
  | timestampNanos values type nulls =>
    refine ensures_rowValues fun row hrow hnull => ?_
    have hinside : type = .time → 0 ≤ row.1.1 ∧ row.1.1 < nanosPerDay := by
      rintro rfl
      by_contra houtside
      exact hday ⟨row, hrow, hnull, houtside⟩
    obtain ⟨v, hv⟩ := fromTemporalNanos_ok h row.1.2 hinside
    rw [hv]
    trivial
  | text ids dictionary nulls =>
    refine ensures_rowValues fun row hrow hnull => ?_
    exact (ensures_index (h row hrow hnull)).bind fun _ _ => trivial
  | bytes data offsets type nulls =>
    refine ensures_rowValues fun row hrow _ => ?_
    have hplace := h.2 row.1 (of_mem_zip hrow).1
    exact (ensures_rowBytes h.1 hplace).bind fun _ _ => trivial
  | external data offsets ref nulls =>
    refine ensures_rowValues fun row hrow _ => ?_
    have hplace := h.2 row.1 (of_mem_zip hrow).1
    refine (ensures_rowBytes h.1 hplace.1).bind fun payload hpay => ?_
    rw [Value.tryExternal, if_neg (not_lt.mpr (hpay ▸ hplace.2))]
    trivial

/-- Outside the day, the conversion panics. -/
theorem panics_outsideDay {d : DecodedColumn} (h : d.OutsideDay) :
    ∃ message, d.intoValues = .error (.panic message) := by
  match d, h with
  | .timestampNanos values .time nulls, ⟨row, hrow, hnull, houtside⟩ =>
    refine exists_panic_mapM (fun row _ => ?_) ⟨row, hrow, "validated temporal payload", ?_⟩
    · split_ifs
      · exact .inl ⟨_, rfl⟩
      · dsimp only [expect]
        split
        · exact .inl ⟨_, rfl⟩
        · exact .inr ⟨_, rfl⟩
    · rw [hnull, if_neg Bool.false_ne_true]
      simp only [expect, Value.fromTemporalNanos, if_neg houtside]

/-- **Reading a column panics exactly if** it is read as times of which one that is not NULL is
outside the day. -/
theorem column_panics_iff (json : Bytes → Option String) (lz4 : Lz4) (column : DataColumnSpec)
    (group : DataRowGroup) (block : DataBlockRef) (stored : Bytes) :
    (∃ message, decodeColumnPayload json lz4 column group block stored =
        .error (.panic message)) ↔
      ∃ d, decodeTypedColumnPayload json lz4 column group block stored = .ok d ∧
        d.OutsideDay := by
  have htyped := ensures_decodeTyped json lz4 column group block stored
  unfold decodeColumnPayload
  cases hd : decodeTypedColumnPayload json lz4 column group block stored with
  | error fault =>
    refine ⟨fun ⟨message, hpanic⟩ => ?_, fun ⟨d, hd', _⟩ => nomatch hd'⟩
    rw [hd] at htyped
    cases hpanic
    exact htyped.elim
  | ok d =>
    have hsound := htyped.of_eq hd
    refine ⟨fun ⟨message, hpanic⟩ => ⟨d, rfl, ?_⟩, fun ⟨d', hd', houtside⟩ => ?_⟩
    · by_contra hday
      exact (ensures_intoValues hsound hday).ne_panic message hpanic
    · cases hd'
      exact panics_outsideDay houtside

/-- Eight bytes of a TIME with the number -1. -/
theorem column_of_time_panics :
    decodeColumnPayload (fun _ => none) ⟨id, fun bytes _ => some bytes⟩
        ⟨⟨.time, none, 0, 0, ⟨rfl, rfl⟩⟩, false⟩ ⟨1, by decide⟩ ⟨.none, .plainValues, 41, 1⟩
        [86, 65, 76, 49, 1, 0, 1, 0, 1, 0, 0, 0, 1, 0, 0, 0, 0, 0, 0, 0, 8, 0, 0, 0, 0, 0, 0, 0,
          0, 0, 0, 0, 1, 255, 255, 255, 255, 255, 255, 255, 255] =
      .error (.panic "validated temporal payload") :=
  rfl

end

end RadixDb.Column
