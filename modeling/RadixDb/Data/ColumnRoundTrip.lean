import RadixDb.Data.ColumnDictionary
import RadixDb.Key.RoundTrip

/-!
# Columns round trip

What is read from a payload that was written is known for both layouts: the values as they are
stored, or the error of the limit on expanded rows (`decodeColumnPayload_encode`). A value is stored
as itself unless it is an instant in a leap second. **So a column is read as it was written exactly
if no instant is in a leap second and, with a dictionary of JSON or byte strings, the rows take at
most 512 MiB together** (`column_round_trip_iff`).

Both can fail. The writer checks the payload, in which a value that occurs often is there once; the
reader limits what comes of it (`column_is_not_read_back`).
-/

namespace RadixDb.Column

open List Bytes

section

variable {json : Json} {column : DataColumnSpec} {values : List Value}
  {encoding : DataValueEncoding} {layout : DataLayout} {payload : Bytes}

/-- Do the rows take more than the reader admits? Only expanded rows are limited. -/
def tooLong (json : Json) (column : DataColumnSpec) (values : List Value) :
    DataValueEncoding → Prop
  | .dictionary => column.dataType.logicalType ≠ .text ∧
      maxLogicalBytesPerBlock < expandedBytes json column values
  | _ => False

theorem asRead_eq_iff (v : Value) : asRead column v = inColumn column v ↔
    v.inLeapSecond = false := by
  unfold asRead inColumn
  cases hnull : v.isNull with
  | true =>
    cases v with
    | null type => exact ⟨fun _ => rfl, fun _ => rfl⟩
    | _ => cases hnull
  | false => exact v.stored_eq_iff

theorem encodeColumnPayload_cases
    (h : encodeColumnPayload json column values encoding = .ok (layout, payload)) :
    (∀ v ∈ values, validateColumnValue json column v = .ok ()) ∧
      (encoding = .plain ∧ layout = .plainValues ∧ encodePlain json column values = .ok payload ∨
        encoding = .dictionary ∧ layout = .dictionaryValues ∧
          encodeDictionary json column values = .ok payload) := by
  obtain ⟨_, -, h⟩ := ok_of_bind h
  obtain ⟨_, hvalues, h⟩ := ok_of_bind h
  refine ⟨forM_eq_ok_iff.mp hvalues, ?_⟩
  cases encoding with
  | plain =>
    obtain ⟨bytes, hbytes, h⟩ := ok_of_bind h
    cases h
    exact .inl ⟨rfl, rfl, hbytes⟩
  | dictionary =>
    obtain ⟨bytes, hbytes, h⟩ := ok_of_bind h
    cases h
    exact .inr ⟨rfl, rfl, hbytes⟩
  | adaptive => cases h

theorem decodePhysical_encode {lz4 : Lz4} {codec : DataPhysicalCodec}
    (hless : codec = .lz4 → lz4.Lossless) (payload : Bytes) (layout : DataLayout) (count : ℕ) :
    decodePhysical lz4 (encodePhysical lz4 payload codec) ⟨codec, layout, payload.length, count⟩ =
      .ok payload := by
  cases codec with
  | none => simp [decodePhysical, encodePhysical]
  | lz4 => simp only [decodePhysical, encodePhysical, hless rfl payload]

variable {lz4 : Lz4} {codec : DataPhysicalCodec} {group : DataRowGroup}

/-- **What is read from a payload that was written.** -/
theorem decodeColumnPayload_encode (hless : codec = .lz4 → lz4.Lossless)
    (hrows : group.rowCount = values.length)
    (h : encodeColumnPayload json column values encoding = .ok (layout, payload)) :
    (¬ tooLong json column values encoding →
      decodeColumnPayload json lz4 column group ⟨codec, layout, payload.length, values.length⟩
        (encodePhysical lz4 payload codec) = .ok (values.map (asRead column))) ∧
    (tooLong json column values encoding →
      decodeColumnPayload json lz4 column group ⟨codec, layout, payload.length, values.length⟩
        (encodePhysical lz4 payload codec) = Checked.fail (.limit "expanded dictionary bytes"
          (expandedBytes json column values) maxLogicalBytesPerBlock)) := by
  have hphys := decodePhysical_encode hless payload layout values.length
  obtain ⟨hvalid, ⟨rfl, rfl, hplain⟩ | ⟨rfl, rfl, hdict⟩⟩ := encodeColumnPayload_cases h
  · obtain ⟨d, hd, hinto⟩ := decodePlain_encode hvalid hrows.symm hplain
    refine ⟨fun _ => ?_, False.elim⟩
    simp [decodeColumnPayload, decodeTypedColumnPayload, hrows, hphys, hd, hinto, ok_bind]
  · obtain ⟨hfits, hlong⟩ := decodeDictionary_encode hvalid hrows.symm hdict
    refine ⟨fun hshort => ?_, fun ⟨htext, hlarge⟩ => ?_⟩
    · obtain ⟨d, hd, hinto⟩ := hfits (by
        rw [tooLong, not_and_or, not_ne_iff, not_lt] at hshort
        exact hshort)
      simp [decodeColumnPayload, decodeTypedColumnPayload, hrows, hphys, hd, hinto, ok_bind]
    · simp [decodeColumnPayload, decodeTypedColumnPayload, hrows, hphys, hlong htext hlarge,
        bind, Except.bind, Checked.fail]

/-- **A column is read as it was written exactly if** no instant is in a leap second and its rows
are not too long. -/
theorem column_round_trip_iff (hlossless : codec = .lz4 → lz4.Lossless)
    (hrows : group.rowCount = values.length)
    (h : encodeColumnPayload json column values encoding = .ok (layout, payload)) :
    decodeColumnPayload json lz4 column group ⟨codec, layout, payload.length, values.length⟩
        (encodePhysical lz4 payload codec) = .ok (values.map (inColumn column)) ↔
      (∀ v ∈ values, v.inLeapSecond = false) ∧ ¬ tooLong json column values encoding := by
  obtain ⟨hread, href⟩ := decodeColumnPayload_encode hlossless hrows h
  by_cases hlong : tooLong json column values encoding
  · rw [href hlong]
    exact ⟨nofun, fun hshort => absurd hlong hshort.2⟩
  · rw [hread hlong, Except.ok.injEq, map_inj_left]
    simp [asRead_eq_iff, hlong]

end

theorem column_round_trip_integers :
    decodeColumnPayload (fun _ => none) ⟨id, fun bytes _ => some bytes⟩
        integerColumn ⟨2, by decide⟩ ⟨.none, .plainValues, 49, 2⟩
        [86, 65, 76, 49, 1, 0, 1, 0, 2, 0, 0, 0, 1, 0, 0, 0, 0, 0, 0, 0, 16, 0, 0, 0, 0, 0, 0, 0,
          0, 0, 0, 0, 3, 7, 0, 0, 0, 0, 0, 0, 0, 8, 0, 0, 0, 0, 0, 0, 0] =
      .ok [.integer ⟨7, by decide⟩, .integer ⟨8, by decide⟩] :=
  (column_round_trip_iff (nofun : DataPhysicalCodec.none = .lz4 → _) rfl
    (show encodeColumnPayload (fun _ => none) integerColumn
      [.integer ⟨7, by decide⟩, .integer ⟨8, by decide⟩] .plain = .ok (.plainValues, _) from
      rfl)).mpr ⟨by decide +kernel, False.elim⟩

/-! ## Rows that are too long -/

section

variable {json : Json} {p : Bytes} {n : ℕ}

theorem uniquePayloads_replicate (p : Bytes) (n : ℕ) :
    uniquePayloads (replicate (n + 1) p) = [p] := by
  have hself : compareBytes p p = .eq := (compareBytes_compares p p).eq_eq.mpr rfl
  have hfold : ∀ n, (replicate n p).foldl (fun unique bytes =>
      OrderedMap.upsert compareBytes bytes (fun _ => ()) unique) [(p, ())] = [(p, ())] := by
    intro n
    induction n with
    | zero => rfl
    | succ n ih =>
      rw [replicate_succ, foldl_cons, OrderedMap.upsert, hself]
      exact ih
  rw [uniquePayloads, replicate_succ, foldl_cons, OrderedMap.upsert, hfold]
  rfl

theorem bytes_append (hp : p.length ≤ maxBytesPerValue) :
    appendNonNullRepresentation json .bytes (.ofPayload .bytes p) = .ok p := by
  have hpay : nonNullPayload json .bytes (.ofPayload .bytes p) = .ok p := rfl
  simp only [appendNonNullRepresentation, hpay, ok_bind, if_neg (not_lt.mpr hp)]

variable (json : Json)

/-- **Rows that share a value are written**, whatever their copies would take. -/
theorem encode_shared (hp : p.length ≤ maxBytesPerValue) (hn : n < maxRowsPerGroup) :
    ∃ payload, encodeColumnPayload json bytesColumn
      (replicate (n + 1) (.ofPayload .bytes p)) .dictionary =
        .ok (.dictionaryValues, payload) := by
  have hgroup : maxRowsPerGroup = 65536 := rfl
  have hmax : maxLogicalBytesPerBlock = 536870912 := rfl
  have hvalue : maxBytesPerValue = 268435456 := rfl
  obtain ⟨values, hvalues⟩ : ∃ values, values =
    replicate (n + 1) (Value.ofPayload .bytes p) := ⟨_, rfl⟩
  have hmem : ∀ v ∈ values, v = .ofPayload .bytes p := fun v hv => by
    rw [hvalues] at hv
    exact eq_of_mem_replicate hv
  have hlen : values.length = n + 1 := by rw [hvalues, length_replicate]
  have hchecks : validateColumnValues json bytesColumn values = .ok () :=
    forM_eq_ok_iff.mpr fun v hv => hmem v hv ▸ rfl
  have hfilter : values.filter (!·.isNull) = values :=
    filter_eq_self.mpr fun v hv => hmem v hv ▸ rfl
  have hpayloads : (values.filter (!·.isNull)).mapM (appendNonNullRepresentation json
      bytesColumn.dataType.logicalType) = .ok (replicate (n + 1) p) := by
    rw [hfilter, mapM_eq_ok fun v hv => hmem v hv ▸ bytes_append hp, map_const', hlen]
  have hcode : dictionaryCode json bytesColumn [p] (.ofPayload .bytes p) = .ok 1 := by
    have happ : appendNonNullRepresentation json bytesColumn.dataType.logicalType
        (.ofPayload .bytes p) = .ok p := bytes_append hp
    have hordinal : [p].idxOf? p = some 0 := by simp [idxOf?, findIdx?_cons]
    rw [dictionaryCode, if_neg (by exact Bool.false_ne_true)]
    simp only [happ, ok_bind, hordinal]
  have hcodes : values.mapM (dictionaryCode json bytesColumn [p]) =
      .ok (replicate (n + 1) 1) := by
    rw [mapM_eq_ok fun v hv => hmem v hv ▸ hcode, map_const', hlen]
  have happ : appendCells "dictionary value bytes" (fun bytes : Bytes => .ok bytes) [p] [0] [] =
      .ok ([0, p.length], p) := by
    simp only [appendCells, ok_bind, nil_append,
      if_neg (show ¬ 2 ^ 32 ≤ p.length by omega), cons_append]
  have hcount : ¬ (values.length = 0 ∨ maxRowsPerGroup < values.length) := by omega
  have hval := length_encodeValidity values
  have hsize : ¬ maxLogicalBytesPerBlock < dictionaryHeaderBytes + (encodeValidity values).length +
      [0, p.length].length * 4 + p.length + (replicate (n + 1) 1).length * 4 := by
    rw [hval, validityBytes, length_replicate, hlen]
    have hhdr : dictionaryHeaderBytes = 40 := rfl
    simp only [length_cons, length_nil]
    omega
  have hitems : ¬ maxDictionaryItemsPerBlock < [p].length := by
    rw [length_singleton]
    decide
  obtain ⟨payload, hpay⟩ : ∃ payload, encodeDictionary json bytesColumn values =
      .ok payload := by
    rw [encodeDictionary, if_neg (by exact Bool.false_ne_true), if_neg (by decide)]
    simp only [hpayloads, uniquePayloads_replicate, if_neg hitems, happ, hcodes,
      validateLogicalLength, if_neg hsize, ok_bind]
    exact ⟨_, rfl⟩
  rw [← hvalues]
  refine ⟨payload, ?_⟩
  simp only [encodeColumnPayload, validateValueCount, if_neg hcount, hchecks, hpay, bind,
    Except.bind]

theorem expandedBytes_shared (hp : p.length ≤ maxBytesPerValue) :
    expandedBytes json bytesColumn (replicate n (.ofPayload .bytes p)) = n * p.length := by
  have hcell : variableCell json bytesColumn (.ofPayload .bytes p) = .ok p := bytes_append hp
  rw [expandedBytes, map_replicate, sum_replicate, cellLength, hcell, Nat.nsmul_eq_mul]

/-- An instant in a leap second is read as another; three rows that share a value of 256 MiB are
written and not read. -/
theorem column_is_not_read_back :
    (∃ payload, encodeColumnPayload (fun _ => none) (scalarColumn .timestamp ⟨rfl, rfl⟩)
        [.timestamp ⟨59, 10 ^ 9, by decide⟩] .plain = .ok (.plainValues, payload) ∧
      decodeColumnPayload (fun _ => none) ⟨id, fun bytes _ => some bytes⟩
          (scalarColumn .timestamp ⟨rfl, rfl⟩) ⟨1, by decide⟩
          ⟨.none, .plainValues, payload.length, 1⟩ payload =
        .ok [.timestamp ⟨60, 0, by decide⟩]) ∧
    ∃ v payload, encodeColumnPayload (fun _ => none) bytesColumn (replicate 3 v) .dictionary =
        .ok (.dictionaryValues, payload) ∧
      decodeColumnPayload (fun _ => none) ⟨id, fun bytes _ => some bytes⟩ bytesColumn
          ⟨3, by decide⟩ ⟨.none, .dictionaryValues, payload.length, 3⟩ payload =
        Checked.fail (.limit "expanded dictionary bytes" (3 * maxBytesPerValue)
          maxLogicalBytesPerBlock) := by
  refine ⟨⟨_, rfl, rfl⟩, ?_⟩
  obtain ⟨p, hp⟩ : ∃ p : Bytes, p.length = maxBytesPerValue :=
    ⟨replicate maxBytesPerValue 0, length_replicate⟩
  obtain ⟨payload, hpay⟩ := encode_shared (fun _ => none) hp.le
    (show 2 < maxRowsPerGroup by decide)
  refine ⟨.ofPayload .bytes p, payload, hpay, ?_⟩
  have hexp := expandedBytes_shared (fun _ => none) (n := 3) hp.le
  rw [hp] at hexp
  have hlong : tooLong (fun _ => none) bytesColumn
      (replicate 3 (.ofPayload .bytes p)) .dictionary := by
    refine ⟨by decide, ?_⟩
    rw [hexp]
    decide
  have hcodec : DataPhysicalCodec.none = .lz4 → Lz4.Lossless ⟨id, fun bytes _ => some bytes⟩ :=
    nofun
  rw [← hexp]
  exact (decodeColumnPayload_encode hcodec rfl hpay).2 hlong

end

end RadixDb.Column
