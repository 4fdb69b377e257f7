import RadixDb.Key.Codec

/-!
# Which value a payload stands for

`Represents` says which payload stands for which value of a built-in type, once for writing and
reading. Values that are extensions are their own payload after the tag; the other types are written
as numbers or text. **Reading the payload of a value gives the value back** (`decodeNonNull_eq`),
but for an instant in a leap second, whose payload is that of an instant in the next second
(`Value.stored`).
-/

namespace RadixDb

open List Bytes Option

/-- The types whose values are extensions. -/
def DataType.isExtension : DataType → Bool
  | .json | .vector | .uuid | .decimal | .date | .bytes | .civilTimestamp | .time => true
  | _ => false

/-- What a value is after it has been written as a payload and read. -/
def Value.stored : Value → Value
  | .timestamp t => .timestamp (dateTimeFromEpochNanos t.totalNanos)
  | v => v

def Value.inLeapSecond : Value → Bool
  | .timestamp t => 10 ^ 9 ≤ t.nanos
  | _ => false

theorem Value.stored_eq_iff (v : Value) : v.stored = v ↔ v.inLeapSecond = false := by
  cases v with
  | timestamp t =>
    obtain ⟨seconds, nanos, range⟩ := t
    simp only [Value.stored, Value.inLeapSecond, dateTimeFromEpochNanos, DateTime.totalNanos,
      Value.timestamp.injEq, DateTime.mk.injEq, decide_eq_false_iff_not]
    omega
  | _ => exact iff_of_true rfl rfl

/-! ## Words -/

theorem F64.toNat_toBits (f : F64) :
    f.toBits.toNat = (if f.negative then 2 ^ 63 else 0) + f.magnitude := by
  refine Nat.mod_eq_of_lt ?_
  split <;> omega

theorem F64.fromBits_toBits (f : F64) : F64.fromBits f.toBits = f := by
  have hbits := f.toNat_toBits
  obtain ⟨negative, magnitude, hm⟩ := f
  cases negative with
  | false =>
    simp only [Bool.false_eq_true, if_false, Nat.zero_add] at hbits
    simp only [F64.fromBits, hbits, Nat.mod_eq_of_lt hm, F64.mk.injEq, and_true,
      decide_eq_false_iff_not]
    omega
  | true =>
    simp only [if_true] at hbits
    simp only [F64.fromBits, hbits, Nat.add_mod_left, Nat.mod_eq_of_lt hm, F64.mk.injEq, and_true,
      decide_eq_true_eq]
    omega

theorem F64.fromBits_leNat (f : F64) :
    F64.fromBits (UInt64.ofNat (leNat (leBytes 8 f.toBits.toNat))) = f := by
  have hlt : f.toBits.toNat < 256 ^ 8 := f.toBits.toNat_lt
  rw [leNat_leBytes_of_lt hlt, UInt64.ofNat_toNat, F64.fromBits_toBits]

theorem leInt_intBytes_of_inI64 {i : ℤ} (h : InI64 i) : leInt (intBytes 8 i) = i := by
  refine leInt_intBytes ?_ ?_
  · exact h.1
  · exact Int.lt_of_le_sub_one h.2

theorem fromUtf8_textBytes (s : String) : fromUtf8 (Value.textBytes s) = some s := by
  have hbytes : (⟨(Value.textBytes s).toArray⟩ : ByteArray) = s.toByteArray := rfl
  rw [fromUtf8, hbytes, String.fromUTF8?, dif_pos s.isValidUTF8]
  rfl

theorem flatMap_chunksOfFour {bytes : Bytes} (h : bytes.length % 4 = 0) :
    ((chunksOfFour bytes).map leNat).flatMap (leBytes 4) = bytes := by
  fun_induction chunksOfFour bytes with
  | case1 a b c d bytes ih =>
    simp only [length_cons] at h
    rw [map_cons, flatMap_cons, ih (by omega)]
    have hword : leBytes 4 (leNat [a, b, c, d]) = [a, b, c, d] :=
      leBytes_leNat [a, b, c, d]
    rw [hword]
    rfl
  | case2 bytes hne =>
    match bytes, hne, h with
    | [], _, _ => rfl
    | a :: b :: c :: d :: bytes, hne, _ => exact absurd rfl (hne a b c d bytes)

theorem length_chunksOfFour (bytes : Bytes) : (chunksOfFour bytes).length = bytes.length / 4 := by
  fun_induction chunksOfFour bytes with
  | case1 a b c d bytes ih =>
    simp only [length_cons, ih]
    omega
  | case2 bytes hne =>
    match bytes, hne with
    | [], _ => rfl
    | [_], _ => simp
    | [_, _], _ => simp
    | [_, _, _], _ => simp
    | a :: b :: c :: d :: bytes, hne => exact absurd rfl (hne a b c d bytes)

/-! ## Payloads -/

/-- The payload of a value of a built-in type. -/
inductive Represents : DataType → Value → Bytes → Prop
  | integer (i : {i : ℤ // InI64 i}) : Represents .integer (.integer i) (intBytes 8 i.1)
  | float (f : F64) : Represents .float (.float f) (leBytes 8 f.toBits.toNat)
  | text (s : String) : Represents .text (.text s) (Value.textBytes s)
  | boolean (b : Bool) : Represents .boolean (.boolean b) [if b then 1 else 0]
  | timestamp (t : DateTime) (h : InI64 t.totalNanos) :
    Represents .timestamp (.timestamp t) (intBytes 8 t.totalNanos)
  | extension (type : DataType) (payload : Bytes) (h : type.isExtension = true)
    (utf8 : type = .json → (fromUtf8 payload).isSome = true) :
    Represents type (Value.ofPayload type payload) payload

variable {data : Bytes} {type : DataType}

theorem Value.extension_eq_ofPayload (h : data.head? = some type.asU8) :
    Value.extension data = ofPayload type (data.drop 1) := by
  cases data with
  | nil => cases h
  | cons tag payload =>
    cases h
    rfl

theorem Value.head_of_dataType (h : (Value.extension data).dataType = type) (hne : type ≠ .null) :
    data.head? = some type.asU8 := by
  unfold Value.dataType at h
  cases data with
  | nil => exact absurd h.symm hne
  | cons tag payload =>
    simp only [head?_cons, bind_some] at h ⊢
    cases htag : DataType.fromU8 tag with
    | none =>
      rw [htag] at h
      exact absurd h.symm hne
    | some t =>
      rw [htag] at h
      obtain rfl : t = type := h
      rw [DataType.asU8_of_fromU8 htag]

theorem decimal_parts_bytes (payload : Bytes) (h : payload.length = 18) :
    intBytes 16 (leInt (payload.take 16)) ++
      [UInt8.ofNat (payload.getD 16 0).toNat, UInt8.ofNat (payload.getD 17 0).toNat] = payload := by
  have hlen : (payload.take 16).length = 16 := by rw [length_take]; omega
  have hword : intBytes 16 (leInt (payload.take 16)) = payload.take 16 := by
    have := intBytes_leInt (payload.take 16)
    rwa [hlen] at this
  rw [hword, UInt8.ofNat_toNat, UInt8.ofNat_toNat]
  conv_rhs => rw [← take_append_drop 16 payload]
  congr 1
  match hd : payload.drop 16, show (payload.drop 16).length = 2 by rw [length_drop]; omega with
  | [a, b], _ =>
    have h16 : payload.getD 16 0 = a := by
      rw [getD_eq_getElem?_getD, ← Nat.add_zero 16, ← getElem?_drop, hd]
      rfl
    have h17 : payload.getD 17 0 = b := by
      rw [getD_eq_getElem?_getD, show 17 = 16 + 1 from rfl, ← getElem?_drop, hd]
      rfl
    rw [h16, h17]

section

variable {json : Json} {type : DataType} {v : Value} {payload : Bytes}

theorem represents_extension (htype : (Value.extension data).dataType = type)
    (h : nonNullPayload json type (.extension data) = .ok payload) :
    Represents type (.extension data) payload := by
  have hnull : type ≠ .null := by
    rintro rfl
    cases h
  have hhead := Value.head_of_dataType htype hnull
  have hdata := Value.extension_eq_ofPayload hhead
  have hlen : data.length = (data.drop 1).length + 1 := by
    cases data with
    | nil => cases hhead
    | cons tag payload => rfl
  rw [hdata]
  suffices hp : payload = data.drop 1 ∧ type.isExtension = true ∧
      (type = .json → (fromUtf8 payload).isSome = true) by
    obtain ⟨rfl, hext, hutf8⟩ := hp
    exact .extension type _ hext hutf8
  cases type with
  | json =>
    simp only [nonNullPayload, Value.asJson] at h
    split at h
    · next text htext =>
      split_ifs at htext with hc
      cases htext
      cases h
      exact ⟨rfl, rfl, fun _ => hc.2.1⟩
    · cases h
  | vector =>
    simp only [nonNullPayload, Value.asVectorF32, hhead, if_true] at h
    split at h
    · next vector hvector =>
      split_ifs at hvector with hc
      cases hvector
      cases h
      exact ⟨flatMap_chunksOfFour (not_not.mp hc), rfl, by rintro ⟨⟩⟩
    · cases h
  | uuid =>
    simp only [nonNullPayload, Value.asUuidBytes] at h
    split at h
    · next bytes hbytes =>
      split_ifs at hbytes
      cases hbytes
      cases h
      exact ⟨rfl, rfl, by rintro ⟨⟩⟩
    · cases h
  | decimal =>
    simp only [nonNullPayload, Value.asDecimalParts] at h
    split at h
    · next unscaled precision scale hparts =>
      split_ifs at hparts with hc
      split at hparts
      · cases hparts
        cases h
        refine ⟨?_, rfl, by rintro ⟨⟩⟩
        have hbytes := decimal_parts_bytes (data.drop 1) (by omega)
        simpa only [getD_eq_getElem?_getD, getElem?_drop] using hbytes
      · cases hparts
    · cases h
  | date =>
    simp only [nonNullPayload, Value.asDateDays] at h
    split at h
    · next days hdays =>
      split_ifs at hdays with hc
      cases hdays
      cases h
      have hbytes := intBytes_leInt (data.drop 1)
      rw [show (data.drop 1).length = 4 by omega] at hbytes
      exact ⟨hbytes, rfl, by rintro ⟨⟩⟩
    · cases h
  | bytes =>
    simp only [nonNullPayload, Value.asBytesValue, hhead, if_true] at h
    cases h
    exact ⟨rfl, rfl, by rintro ⟨⟩⟩
  | civilTimestamp | time =>
    simp only [nonNullPayload, Value.artifactTemporalNanos] at h
    split at h
    · next nanos hnanos =>
      obtain ⟨hnanos, -⟩ := filter_eq_some_iff.mp hnanos
      split_ifs at hnanos with hc
      cases hnanos
      cases h
      simp only [Bool.and_eq_true, beq_iff_eq] at hc
      have hbytes := intBytes_leInt (data.drop 1)
      rw [show (data.drop 1).length = 8 by omega] at hbytes
      exact ⟨hbytes, rfl, by rintro ⟨⟩⟩
    · cases h
  | timestamp => simp [nonNullPayload, Value.artifactTemporalNanos, Value.isTemporalTag, hhead,
      DataType.fromU8_asU8] at h
  | text => simp [nonNullPayload, Value.asStr, Value.asJson, hhead, DataType.asU8] at h
  | integer | float | boolean | null => cases h

theorem represents_of_nonNullPayload (hv : v.isNull = false) (htype : v.dataType = type)
    (h : nonNullPayload json type v = .ok payload) : Represents type v payload := by
  cases v with
  | null t => cases hv
  | integer i =>
    subst htype
    cases h
    exact .integer i
  | float f =>
    subst htype
    cases h
    exact .float f
  | text s =>
    subst htype
    cases h
    exact .text s
  | boolean b =>
    subst htype
    cases h
    exact .boolean b
  | timestamp t =>
    subst htype
    simp only [nonNullPayload, Value.dataType, Value.artifactTemporalNanos,
      DateTime.timestampNanosOpt] at h
    split at h
    · next nanos hnanos =>
      obtain ⟨hnanos, -⟩ := filter_eq_some_iff.mp hnanos
      split_ifs at hnanos with hc
      cases hnanos
      cases h
      exact .timestamp t hc
    · cases h
  | extension data => exact represents_extension htype h

/-! ## Reading a payload -/

theorem validateShape_ofPayload (hext : type.isExtension = true) :
    (Value.ofPayload type payload).validateShape json =
      Value.validateExtensionPayload json type payload := by
  have hmarker : type.asU8 ≠ externalValueMarker := by
    cases type <;> decide
  simp [Value.ofPayload, Value.validateShape, hmarker, DataType.fromU8_asU8]

theorem dateTimeFromEpochNanos_totalNanos (n : ℤ) : (dateTimeFromEpochNanos n).totalNanos = n := by
  simp only [dateTimeFromEpochNanos, DateTime.totalNanos]
  omega

theorem fromTemporalNanos_civil {bytes : Bytes} (h : bytes.length = 8) :
    Value.fromTemporalNanos .civilTimestamp (leInt bytes) =
      .ok (Value.ofPayload .civilTimestamp bytes) := by
  have hbytes := intBytes_leInt bytes
  rw [h] at hbytes
  simp [Value.fromTemporalNanos, DateTime.timestampNanosOpt, dateTimeFromEpochNanos_totalNanos,
    inI64_leInt h, hbytes]

variable {column : DataColumnSpec}

/-- The payload of a vector has the declared number of words, all of them finite. -/
theorem vector_payload (hbi : column.dataType.externalTypeRef = none)
    (htype : column.dataType.logicalType = .vector) (hlen : payload.length % 4 = 0)
    (hlimit : payload.length ≤ maxBytesPerValue)
    (h : validateParameterizedValue column (Value.ofPayload .vector payload) = .ok ()) :
    payload.length = column.dataType.parameter1 * 4 ∧
      ((chunksOfFour payload).map leNat).any (!f32IsFinite ·) = false := by
  have hvector : (Value.ofPayload .vector payload).asVectorF32 =
      some ((chunksOfFour payload).map leNat) := by
    simp [Value.ofPayload, Value.asVectorF32, hlen]
  simp only [validateParameterizedValue, hbi, htype, hvector] at h
  split_ifs at h with hc
  simp only [Bool.or_eq_true, decide_eq_true_eq, not_or, Bool.not_eq_true, not_not,
    length_map, length_chunksOfFour] at hc
  refine ⟨?_, hc.2⟩
  -- the limit on the bytes of a value keeps the number of words below 32 bits
  have hmax : maxBytesPerValue = 268435456 := rfl
  omega

theorem tryDecimal_payload (h : payload.length = 18)
    (hshape : validateDecimalShape (leInt (payload.take 16)) (payload.getD 16 0).toNat
      (payload.getD 17 0).toNat = .ok ()) :
    Value.tryDecimal (leInt (payload.take 16)) (payload.getD 16 0).toNat
      (payload.getD 17 0).toNat = .ok (Value.ofPayload .decimal payload) := by
  rw [Value.tryDecimal, hshape]
  have hbytes := decimal_parts_bytes payload h
  simp only [ok_bind, Value.decimal, Value.ofPayload, cons_append, hbytes]

theorem decodeNonNull_extension (hext : type.isExtension = true)
    (hutf8 : type = .json → (fromUtf8 payload).isSome = true)
    (hbi : column.dataType.externalTypeRef = none) (htype : column.dataType.logicalType = type)
    (hshape : Value.validateExtensionPayload json type payload = .ok ())
    (hparam : validateParameterizedValue column (Value.ofPayload type payload) = .ok ())
    (hlimit : payload.length ≤ maxBytesPerValue) :
    decodeNonNull json column type payload = .ok (Value.ofPayload type payload) := by
  cases type with
  | json =>
    simp only [Value.validateExtensionPayload] at hshape
    split at hshape
    · next hjson =>
      have hsome := hutf8 rfl
      simp [decodeNonNull, hjson, isSome_iff_ne_none.mp hsome]
    · cases hshape
  | vector =>
    simp only [Value.validateExtensionPayload] at hshape
    split_ifs at hshape with hlen
    obtain ⟨hdim, hfinite⟩ := vector_payload hbi htype hlen hlimit hparam
    simp [decodeNonNull, if_pos hdim, hfinite, flatMap_chunksOfFour hlen]
  | uuid =>
    simp only [Value.validateExtensionPayload] at hshape
    split_ifs at hshape with hlen
    simp only [decodeNonNull, if_pos hlen]
  | decimal =>
    simp only [Value.validateExtensionPayload] at hshape
    split_ifs at hshape with hlen
    simp only [validateParameterizedValue, hbi, htype] at hparam
    simp only [decodeNonNull, if_pos hlen, tryDecimal_payload hlen hshape, hparam, bind,
      Except.bind]
  | date =>
    simp only [Value.validateExtensionPayload] at hshape
    split_ifs at hshape with hlen
    have hbytes := intBytes_leInt payload
    rw [hlen] at hbytes
    simp only [decodeNonNull, if_pos hlen, hbytes]
  | bytes => rfl
  | civilTimestamp =>
    simp only [Value.validateExtensionPayload, temporalPayloadNanos] at hshape
    split_ifs at hshape with hlen
    · simp only [decodeNonNull, if_pos hlen, fromTemporalNanos_civil hlen]
    · cases hshape
  | time =>
    simp only [Value.validateExtensionPayload, temporalPayloadNanos] at hshape
    split_ifs at hshape with hlen
    · simp only [ok_bind] at hshape
      split_ifs at hshape with hday
      have hbytes := intBytes_leInt payload
      rw [hlen] at hbytes
      simp only [decodeNonNull, if_pos hlen, Value.fromTemporalNanos, if_pos hday, hbytes]
    · cases hshape
  | _ => cases hext

/-- **Reading the payload of a value gives the value**, up to leap seconds. -/
theorem decodeNonNull_eq (h : Represents type v payload)
    (hbi : column.dataType.externalTypeRef = none) (htype : column.dataType.logicalType = type)
    (hshape : v.validateShape json = .ok ()) (hparam : validateParameterizedValue column v = .ok ())
    (hlimit : payload.length ≤ maxBytesPerValue) :
    decodeNonNull json column type payload = .ok v.stored := by
  cases h with
  | integer i =>
    have hlen := length_intBytes 8 i.1
    simp only [decodeNonNull, dif_pos hlen, leInt_intBytes_of_inI64 i.2]
    rfl
  | float f =>
    simp only [decodeNonNull, length_leBytes, if_true, F64.fromBits_leNat]
    rfl
  | text s =>
    simp only [decodeNonNull, fromUtf8_textBytes]
    rfl
  | boolean b => cases b <;> rfl
  | timestamp t ht =>
    simp only [decodeNonNull, length_intBytes, if_true, leInt_intBytes_of_inI64 ht,
      Value.fromTemporalNanos]
    rfl
  | extension _ _ hext hutf8 =>
    rw [validateShape_ofPayload hext] at hshape
    exact decodeNonNull_extension hext hutf8 hbi htype hshape hparam hlimit

/-! ## What a successful write says -/

theorem external_bytes {e : ExternalValueRef} (h : (Value.extension data).asExternal = some e) :
    data = externalValueMarker :: e.typeRef.typeObjectId ++
      leBytes 4 e.typeRef.codecVersion ++ e.payload := by
  unfold Value.asExternal at h
  dsimp only at h
  split_ifs at h with hc hid
  cases h
  simp only [not_or, not_not, not_lt] at hc
  have hlen : 21 ≤ data.length := hc.2
  have hver := leBytes_leNat ((data.drop 17).take 4)
  rw [show ((data.drop 17).take 4).length = 4 by simp; omega] at hver
  cases data with
  | nil => cases hc.1
  | cons tag rest =>
    obtain rfl : tag = externalValueMarker := by simpa using hc.1
    simp only [drop_succ_cons] at hver
    simp only [hver, externalValueHeaderBytes, cons_append, drop_succ_cons,
      drop_zero, append_assoc, cons.injEq, true_and]
    have h20 : rest.drop 20 = (rest.drop 16).drop 4 := by rw [drop_drop]
    rw [h20, take_append_drop, take_append_drop]

/-- What the writer has checked when it has written a value. -/
theorem appendNonNullValue_cases (h : appendNonNullValue json column v = .ok payload) :
    v.isNull = false ∧ v.logicalType = column.dataType.logicalTypeRef ∧
      v.validateShape json = .ok () ∧ validateParameterizedValue column v = .ok () ∧
      ((∃ e, column.dataType.externalTypeRef = some e.typeRef ∧ v.asExternal = some e ∧
          payload = e.payload) ∨
        column.dataType.externalTypeRef = none ∧
          nonNullPayload json column.dataType.logicalType v = .ok payload ∧
          payload.length ≤ maxBytesPerValue) := by
  obtain ⟨_, hvalid, h⟩ := ok_of_bind h
  split_ifs at h with hnull
  rw [Bool.not_eq_true] at hnull
  simp only [validateColumnValue, hnull, Bool.false_eq_true, if_false] at hvalid
  split_ifs at hvalid with htype
  split at hvalid
  · cases hvalid
  rename_i hshape
  refine ⟨hnull, not_not.mp htype, hshape, hvalid, ?_⟩
  cases hext : column.dataType.externalTypeRef with
  | some ref =>
    rw [hext] at h
    dsimp only at h
    split at h
    · cases h
    rename_i e he
    split_ifs at h with href
    cases h
    rw [not_not] at href
    exact Or.inl ⟨e, by rw [href], he, rfl⟩
  | none =>
    rw [hext] at h
    obtain ⟨bytes, hp, h⟩ := ok_of_bind h
    split_ifs at h with hlimit
    cases h
    exact Or.inr ⟨rfl, hp, not_lt.mp hlimit⟩

theorem appendNonNullValue_eq (hbi : column.dataType.externalTypeRef = none)
    (hnull : v.isNull = false) (htype : v.logicalType = .builtin column.dataType.logicalType)
    (hshape : v.validateShape json = .ok ()) (hparam : validateParameterizedValue column v = .ok ())
    (hp : nonNullPayload json column.dataType.logicalType v = .ok payload)
    (hlimit : payload.length ≤ maxBytesPerValue) :
    appendNonNullValue json column v = .ok payload := by
  have href : v.logicalType = column.dataType.logicalTypeRef := by
    rw [htype, CatalogDataType.logicalTypeRef, hbi]
    rfl
  simp [appendNonNullValue, validateColumnValue, hnull, href, hshape, hparam, hbi,
    appendNonNullRepresentation, hp, bind, Except.bind, if_neg (not_lt.mpr hlimit)]

theorem represents_of_append (hbi : column.dataType.externalTypeRef = none)
    (h : appendNonNullValue json column v = .ok payload) :
    Represents column.dataType.logicalType v payload := by
  obtain ⟨hnull, htype, -, -, ⟨e, hext, -⟩ | ⟨-, hp, -⟩⟩ := appendNonNullValue_cases h
  · cases hbi.symm.trans hext
  · refine represents_of_nonNullPayload hnull ?_ hp
    rw [CatalogDataType.logicalTypeRef, hbi, elim_none, Value.logicalType] at htype
    split at htype
    · cases htype
    · exact LogicalTypeRef.builtin.inj htype

/-- **What is written for a column is read back from it**, up to leap seconds. -/
theorem decodeNonNullValue_eq (h : appendNonNullValue json column v = .ok payload) :
    decodeNonNullValue json column payload = .ok v.stored := by
  obtain ⟨-, -, hshape, hparam, ⟨e, hext, he, rfl⟩ | ⟨hbi, -, hlimit⟩⟩ :=
    appendNonNullValue_cases h
  · cases v with
    | extension data =>
      have hdata := external_bytes he
      have hsize : ¬ maxExternalValueBytes < e.payload.length := by
        have hmarker : data.head? = some externalValueMarker := by rw [hdata]; rfl
        simp only [Value.validateShape, hmarker, if_true, he] at hshape
        split_ifs at hshape with hsize
        exact hsize
      simp only [decodeNonNullValue, hext, Value.tryExternal, if_neg hsize]
      rw [← hdata]
      rfl
    | _ => cases he
  · rw [decodeNonNullValue, hbi]
    exact decodeNonNull_eq (represents_of_append hbi h) hbi rfl hshape hparam hlimit

end

end RadixDb
