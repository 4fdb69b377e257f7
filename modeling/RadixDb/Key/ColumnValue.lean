import RadixDb.Value.SqlOrder
import RadixDb.Lib.Checked

/-!
# Values as the bytes of a column

Stored columns and index keys hold a value as its payload: the bytes without the type, which the
catalog has. `appendNonNullValue` checks a value against the catalog type of its column and gives
its payload; `decodeNonNullValue` makes a value of a payload. JSON is checked by a parser that is
not modelled: `json` says what is wrong with the bytes of a document, if anything is.
-/

namespace RadixDb

open Nat Bytes

inductive FormatError where
  | invalid (detail : String)
  | limit (what : String) (actual maximum : ℕ)
  | indexArtifactChecksumMismatch (scope : String)
  | artifactIo (operation : String)
deriving DecidableEq

abbrev FormatResult (α : Type) := Except FormatError α

inductive LogicalTypeRef where
  | builtin (type : DataType)
  | external (ref : ExternalTypeRef)
deriving DecidableEq

/-- The parameters that `CatalogDataType::from_fields` admits for a built-in type. -/
def admitsParameters (type : DataType) (parameter1 parameter2 : ℕ) : Prop :=
  match type with
  | .null => False
  | .decimal => parameter1 = 0 ∧ parameter2 = 0 ∨
      1 ≤ parameter1 ∧ parameter1 ≤ 38 ∧ parameter2 ≤ parameter1
  | .vector => 1 ≤ parameter1 ∧ parameter1 ≤ 65535 ∧ parameter2 = 0
  | .float => parameter1 ≤ 1 ∧ parameter2 = 0
  | .text => parameter2 = 0
  | _ => parameter1 = 0 ∧ parameter2 = 0

/-- A type as the catalog has it. An external type has its codec version for a parameter, and no
built-in type. -/
structure CatalogDataType where
  logicalType : DataType
  externalTypeRef : Option ExternalTypeRef
  parameter1 : ℕ
  parameter2 : ℕ
  admitted : match externalTypeRef with
    | some ref => logicalType = .null ∧ parameter1 = ref.codecVersion ∧ parameter2 = 0
    | none => admitsParameters logicalType parameter1 parameter2

def CatalogDataType.logicalTypeRef (t : CatalogDataType) : LogicalTypeRef :=
  t.externalTypeRef.elim (.builtin t.logicalType) .external

structure DataColumnSpec where
  dataType : CatalogDataType
  nullable : Bool

def maxBytesPerValue : ℕ := 256 * 1024 * 1024

/-- `f64::from_bits`. -/
def F64.fromBits (bits : UInt64) : F64 :=
  ⟨decide (2 ^ 63 ≤ bits.toNat), ⟨bits.toNat % 2 ^ 63, mod_lt _ (by decide)⟩⟩

/-- Is a single-precision number, given by its bits, finite? -/
def f32IsFinite (bits : ℕ) : Bool := bits / 2 ^ 23 % 2 ^ 8 != 255

/-- The bytes in groups of four. -/
def chunksOfFour : Bytes → List Bytes
  | a :: b :: c :: d :: bytes => [a, b, c, d] :: chunksOfFour bytes
  | _ => []

/-- `str::from_utf8`. -/
def fromUtf8 (bytes : Bytes) : Option String := String.fromUTF8? ⟨bytes.toArray⟩

namespace Value

/-! ## Extracting and building -/

def logicalType (v : Value) : LogicalTypeRef :=
  match v.asExternal with
  | some external => .external external.typeRef
  | none => .builtin v.dataType

section

variable (json : Json)

/-- The text of a JSON value. -/
def asJson : Value → Option Bytes
  | .extension data =>
    if data.head? = some DataType.json.asU8 ∧ (fromUtf8 (data.drop 1)).isSome ∧
        json (data.drop 1) = none then some (data.drop 1)
    else none
  | _ => none

/-- The text of a TEXT or JSON value. -/
def asStr : Value → Option Bytes
  | .text s => some (textBytes s)
  | v => v.asJson json

end

/-- The components of a vector, each given by its bits. -/
def asVectorF32 : Value → Option (List ℕ)
  | .extension data =>
    if data.head? = some DataType.vector.asU8 then
      if (data.drop 1).length % 4 ≠ 0 then none
      else some ((chunksOfFour (data.drop 1)).map leNat)
    else none
  | _ => none

def asUuidBytes : Value → Option Bytes
  | .extension data =>
    if data.head? = some DataType.uuid.asU8 ∧ data.length = 17 then some (data.drop 1) else none
  | _ => none

def asBytesValue : Value → Option Bytes
  | .extension data =>
    if data.head? = some DataType.bytes.asU8 then some (data.drop 1) else none
  | _ => none

/-- A built-in extension value. -/
def ofPayload (type : DataType) (payload : Bytes) : Value := .extension (type.asU8 :: payload)

def tryDecimal (unscaled : ℤ) (precision scale : ℕ) : Except String Value := do
  validateDecimalShape unscaled precision scale
  .ok (decimal unscaled precision scale)

def fromTemporalNanos (type : DataType) (nanos : ℤ) : Except String Value :=
  match type with
  | .timestamp => .ok (.timestamp (dateTimeFromEpochNanos nanos))
  | .civilTimestamp =>
    match (dateTimeFromEpochNanos nanos).timestampNanosOpt with
    | some nanos => .ok (ofPayload .civilTimestamp (intBytes 8 nanos))
    | none => .error "civil timestamp is outside the persisted i64 nanosecond range"
  | .time =>
    if 0 ≤ nanos ∧ nanos < nanosPerDay then .ok (ofPayload .time (intBytes 8 nanos))
    else .error "TIME nanoseconds must be inside one civil day"
  | _ => .error s!"data type {type.display} is not a temporal i64 type"

def tryExternal (typeRef : ExternalTypeRef) (payload : Bytes) : Except String Value :=
  if maxExternalValueBytes < payload.length then
    .error s!"external value payload has {payload.length} bytes, limit is {maxExternalValueBytes}"
  else
    .ok (.extension (externalValueMarker :: typeRef.typeObjectId ++
      leBytes 4 typeRef.codecVersion ++ payload))

end Value

/-! ## Checking -/

/-- Drop trailing zeros of a coefficient while the scale is above the declared one. -/
def reduceScale (declared : ℕ) : ℕ → ℕ → ℕ × ℕ
  | magnitude, 0 => (magnitude, 0)
  | magnitude, scale + 1 =>
    if declared < scale + 1 ∧ magnitude % 10 = 0 then reduceScale declared (magnitude / 10) scale
    else (magnitude, scale + 1)

def validateDecimalPartsTypemod (type : CatalogDataType) (unscaled : ℤ) (scale : ℕ) :
    FormatResult Unit :=
  if type.parameter1 = 0 then .ok ()
  else
    let (magnitude, scale) := reduceScale type.parameter2 unscaled.natAbs scale
    if type.parameter2 < scale then .error (.invalid "DECIMAL value exceeds catalog scale")
    else
      let coefficientDigits := if magnitude = 0 then 1 else log 10 magnitude + 1
      if type.parameter1 - type.parameter2 < coefficientDigits - scale then
        .error (.invalid "DECIMAL value exceeds catalog precision")
      else .ok ()

def validateDecimalTypemod (column : DataColumnSpec) (value : Value) : FormatResult Unit :=
  match value.asDecimalParts with
  | none => .error (.invalid "invalid DECIMAL value")
  | some (unscaled, _, scale) => validateDecimalPartsTypemod column.dataType unscaled scale

def validateParameterizedValue (column : DataColumnSpec) (value : Value) : FormatResult Unit :=
  match column.dataType.externalTypeRef with
  | some ref =>
    match value.asExternal with
    | none => .error (.invalid "external column contains a built-in value")
    | some external =>
      if external.typeRef ≠ ref then
        .error (.invalid "external value identity differs from catalog type")
      else .ok ()
  | none =>
    match column.dataType.logicalType with
    | .decimal => validateDecimalTypemod column value
    | .vector =>
      match value.asVectorF32 with
      | none => .error (.invalid "invalid VECTOR value")
      | some vector =>
        -- the length is cut to 32 bits
        if vector.length % 2 ^ 32 ≠ column.dataType.parameter1 || vector.any (!f32IsFinite ·) then
          .error (.invalid "VECTOR dimensions/components are invalid")
        else .ok ()
    | _ => .ok ()

section

variable (json : Json) (column : DataColumnSpec)

/-- One turn of `validate_column_values`. -/
def validateColumnValue (value : Value) : FormatResult Unit :=
  if value.isNull then
    if ¬ column.nullable then .error (.invalid "non-nullable column contains NULL") else .ok ()
  else if value.logicalType ≠ column.dataType.logicalTypeRef then
    .error (.invalid "column value type differs from catalog type")
  else
    match value.validateShape json with
    | .error _ => .error (.invalid "column value has an invalid physical shape")
    | .ok () => validateParameterizedValue column value

/-! ## Writing -/

/-- The payload of a value in a column of a built-in type. -/
def nonNullPayload (type : DataType) (value : Value) : FormatResult Bytes :=
  match type with
  | .integer => match value with
    | .integer i => .ok (intBytes 8 i.1)
    | _ => .error (.invalid "INTEGER value has wrong representation")
  | .float => match value with
    | .float f => .ok (leBytes 8 f.toBits.toNat)
    | _ => .error (.invalid "FLOAT value has wrong representation")
  | .text => match value.asStr json with
    | some text => .ok text
    | none => .error (.invalid "TEXT value has wrong representation")
  | .boolean => match value with
    | .boolean b => .ok [if b then 1 else 0]
    | _ => .error (.invalid "BOOLEAN value has wrong representation")
  | .timestamp | .civilTimestamp | .time =>
    match value.artifactTemporalNanos.filter fun _ => value.dataType = type with
    | some nanos => .ok (intBytes 8 nanos)
    | none => .error (.invalid "temporal value has wrong representation")
  | .json => match value.asJson json with
    | some text => .ok text
    | none => .error (.invalid "JSON value has wrong representation")
  | .vector => match value.asVectorF32 with
    | some vector => .ok (vector.flatMap (leBytes 4))
    | none => .error (.invalid "VECTOR value has wrong representation")
  | .uuid => match value.asUuidBytes with
    | some bytes => .ok bytes
    | none => .error (.invalid "UUID value has wrong representation")
  | .decimal => match value.asDecimalParts with
    | some (unscaled, precision, scale) =>
      .ok (intBytes 16 unscaled ++ [UInt8.ofNat precision, UInt8.ofNat scale])
    | none => .error (.invalid "DECIMAL value has wrong representation")
  | .date => match value.asDateDays with
    | some days => .ok (intBytes 4 days)
    | none => .error (.invalid "DATE value has wrong representation")
  | .bytes => match value.asBytesValue with
    | some bytes => .ok bytes
    | none => .error (.invalid "BYTES value has wrong representation")
  | .null => .error (.invalid "NULL is not a stored column type")

/-- What `append_non_null_representation` appends. -/
def appendNonNullRepresentation (type : DataType) (value : Value) : FormatResult Bytes := do
  let bytes ← nonNullPayload json type value
  if maxBytesPerValue < bytes.length then
    .error (.limit "value bytes" bytes.length maxBytesPerValue)
  else .ok bytes

/-- What `append_non_null_value` appends. -/
def appendNonNullValue (value : Value) : FormatResult Bytes := do
  validateColumnValue json column value
  if value.isNull then .error (.invalid "statistics value cannot be NULL")
  else
    match column.dataType.externalTypeRef with
    | some ref =>
      match value.asExternal with
      | none => .error (.invalid "external value has wrong representation")
      | some external =>
        if external.typeRef ≠ ref then
          .error (.invalid "external value identity differs from catalog type")
        else .ok external.payload
    | none => appendNonNullRepresentation json column.dataType.logicalType value

/-! ## Reading -/

theorem inI64_leInt {bytes : Bytes} (h : bytes.length = 8) : InI64 (leInt bytes) := by
  have hb := signed_bounds (w := 8) (by decide) (h ▸ leNat_lt bytes)
  rw [leInt, h]
  exact ⟨hb.1, Int.le_sub_one_of_lt hb.2⟩

/-- A value of a payload of a built-in type. -/
def decodeNonNull (type : DataType) (bytes : Bytes) : FormatResult Value :=
  let mismatch := .error (.invalid "column value bytes do not match catalog type")
  match type with
  | .integer =>
    if h : bytes.length = 8 then .ok (.integer ⟨leInt bytes, inI64_leInt h⟩) else mismatch
  | .float =>
    if bytes.length = 8 then .ok (.float (F64.fromBits (UInt64.ofNat (leNat bytes))))
    else mismatch
  | .text => match fromUtf8 bytes with
    | some s => .ok (.text s)
    | none => .error (.invalid "TEXT bytes are not UTF-8")
  | .boolean => match bytes with
    | [byte] => if byte ≤ 1 then .ok (.boolean (byte == 1)) else mismatch
    | _ => mismatch
  | .timestamp | .civilTimestamp | .time =>
    if bytes.length = 8 then
      match Value.fromTemporalNanos type (leInt bytes) with
      | .ok value => .ok value
      | .error _ => .error (.invalid "temporal value is outside its logical range")
    else mismatch
  | .json =>
    if (fromUtf8 bytes).isNone then .error (.invalid "JSON bytes are not UTF-8")
    else if (json bytes).isSome then
      .error (.invalid "JSON bytes do not contain one valid value")
    else .ok (Value.ofPayload .json bytes)
  | .vector =>
    if bytes.length = column.dataType.parameter1 * 4 then
      let vector := (chunksOfFour bytes).map leNat
      if vector.any (!f32IsFinite ·) then
        .error (.invalid "VECTOR contains a non-finite component")
      else .ok (Value.ofPayload .vector (vector.flatMap (leBytes 4)))
    else mismatch
  | .uuid => if bytes.length = 16 then .ok (Value.ofPayload .uuid bytes) else mismatch
  | .decimal =>
    if bytes.length = 18 then
      match Value.tryDecimal (leInt (bytes.take 16)) (bytes.getD 16 0).toNat
          (bytes.getD 17 0).toNat with
      | .error _ => .error (.invalid "DECIMAL bytes have an invalid shape")
      | .ok value => do
        validateDecimalTypemod column value
        .ok value
    else mismatch
  | .date =>
    if bytes.length = 4 then .ok (Value.ofPayload .date (intBytes 4 (leInt bytes)))
    else mismatch
  | .bytes => .ok (Value.ofPayload .bytes bytes)
  | .null => mismatch

def decodeNonNullValue (bytes : Bytes) : FormatResult Value :=
  match column.dataType.externalTypeRef with
  | some ref =>
    match Value.tryExternal ref bytes with
    | .ok value => .ok value
    | .error _ => .error (.invalid "external value bytes have an invalid shape")
  | none => decodeNonNull json column column.dataType.logicalType bytes

end

/-! ## What a DECIMAL column admits -/

/-- Only zeros are dropped, none below the declared scale, and above it all that there are. -/
theorem reduceScale_spec (declared magnitude scale : ℕ) :
    ∃ n, (reduceScale declared magnitude scale).2 + n = scale ∧
      (reduceScale declared magnitude scale).1 * 10 ^ n = magnitude ∧
      (n = 0 ∨ declared ≤ (reduceScale declared magnitude scale).2) ∧
      (declared < (reduceScale declared magnitude scale).2 →
        (reduceScale declared magnitude scale).1 % 10 ≠ 0) := by
  fun_induction reduceScale declared magnitude scale with
  | case1 magnitude => exact ⟨0, rfl, mul_one _, .inl rfl, nofun⟩
  | case2 magnitude scale h ih =>
    obtain ⟨n, hscale, hvalue, hstop, hmod⟩ := ih
    refine ⟨n + 1, by omega, ?_, .inr (by omega), hmod⟩
    rw [pow_succ, ← mul_assoc, hvalue]
    omega
  | case3 magnitude scale h =>
    exact ⟨0, rfl, mul_one _, .inl rfl, fun hlt hmod => h ⟨hlt, hmod⟩⟩

/-- The number of a value can be written with the digits of a DECIMAL type. -/
def WithinCapacity (type : CatalogDataType) (unscaled : ℤ) (scale : ℕ) : Prop :=
  ∃ k : ℤ, (unscaled : ℚ) / 10 ^ scale = k / 10 ^ type.parameter2 ∧
    k.natAbs < 10 ^ type.parameter1

/-- A number over the declared scale, in whole numbers. -/
theorem exists_scaled_iff (unscaled : ℤ) (scale declared bound : ℕ) :
    (∃ k : ℤ, (unscaled : ℚ) / 10 ^ scale = k / 10 ^ declared ∧ k.natAbs < bound) ↔
      ∃ k, unscaled.natAbs * 10 ^ declared = k * 10 ^ scale ∧ k < bound := by
  have hpow : ∀ n : ℕ, (10 : ℚ) ^ n ≠ 0 := fun n => pow_ne_zero n (by norm_num)
  simp only [div_eq_div_iff (hpow _) (hpow _)]
  constructor
  · rintro ⟨k, heq, hlt⟩
    have hint : unscaled * 10 ^ declared = k * 10 ^ scale := by exact_mod_cast heq
    refine ⟨k.natAbs, ?_, hlt⟩
    simpa [Int.natAbs_mul, Int.natAbs_pow] using congrArg Int.natAbs hint
  · rintro ⟨k, heq, hlt⟩
    refine ⟨unscaled.sign * k, ?_, ?_⟩
    · have hint : unscaled * 10 ^ declared = unscaled.sign * k * 10 ^ scale := by
        have hcast : (unscaled.natAbs : ℤ) * 10 ^ declared = k * 10 ^ scale := by
          exact_mod_cast heq
        rw [Int.mul_assoc, ← hcast, ← Int.mul_assoc, Int.sign_mul_natAbs]
      exact_mod_cast hint
    · rw [Int.natAbs_mul, Int.natAbs_sign, Int.natAbs_natCast]
      split <;> omega

/-- The digits of a coefficient, counted as the check counts them. -/
theorem digits_sub_le_iff {magnitude scale allowed : ℕ} (h : 0 < scale + allowed ∨ magnitude ≠ 0) :
    (if magnitude = 0 then 1 else log 10 magnitude + 1) - scale ≤ allowed ↔
      magnitude < 10 ^ (scale + allowed) := by
  split
  · next hzero =>
    subst hzero
    have := h.resolve_right (not_not.mpr rfl)
    exact iff_of_true (by omega) (Nat.pow_pos (by decide))
  · next hne =>
    rw [Nat.sub_le_iff_le_add', succ_le_iff, log_lt_iff_lt_pow (by decide) hne]

/-- **A DECIMAL column admits the numbers of its precision and scale**, but for a zero written `0`
where all digits are after the point: the one digit of the zero is counted as before it. -/
theorem typemod_exact_iff (type : CatalogDataType) (unscaled : ℤ) (scale : ℕ)
    (hp : 0 < type.parameter1) (hs : type.parameter2 ≤ type.parameter1) :
    (validateDecimalPartsTypemod type unscaled scale = .ok () ↔
      WithinCapacity type unscaled scale) ↔
      ¬ (unscaled = 0 ∧ scale = 0 ∧ type.parameter2 = type.parameter1) := by
  obtain ⟨n, hscale, hvalue, hstop, hmod⟩ :=
    reduceScale_spec type.parameter2 unscaled.natAbs scale
  rw [WithinCapacity, exists_scaled_iff, validateDecimalPartsTypemod, if_neg hp.ne']
  generalize reduceScale type.parameter2 unscaled.natAbs scale = r at *
  obtain ⟨magnitude, reduced⟩ := r
  dsimp only at *
  generalize type.parameter1 = p, type.parameter2 = s at *
  by_cases hlt : s < reduced
  · -- a digit other than zero is left after the last place
    rw [if_pos hlt]
    refine iff_of_true (iff_of_false nofun ?_) (by omega)
    rintro ⟨k, heq, -⟩
    obtain ⟨d, rfl⟩ := Nat.exists_eq_add_of_lt hlt
    rw [← hvalue, ← hscale] at heq
    refine hmod hlt ?_
    have : magnitude = k * 10 ^ d * 10 := by
      refine eq_of_mul_eq_mul_right (m := 10 ^ (s + n)) (Nat.pow_pos (by decide)) ?_
      calc magnitude * 10 ^ (s + n) = magnitude * 10 ^ n * 10 ^ s := by ring
        _ = k * 10 ^ (s + d + 1 + n) := heq
        _ = k * 10 ^ d * 10 * 10 ^ (s + n) := by ring
    omega
  · obtain ⟨d, rfl⟩ := Nat.exists_eq_add_of_le (not_lt.mp hlt)
    obtain ⟨allowed, rfl⟩ := Nat.exists_eq_add_of_le hs
    have hk : ∀ k, unscaled.natAbs * 10 ^ (reduced + d) = k * 10 ^ scale ↔
        magnitude * 10 ^ d = k := fun k => by
      rw [← hvalue, ← hscale, show magnitude * 10 ^ n * 10 ^ (reduced + d) =
        magnitude * 10 ^ d * 10 ^ (reduced + n) by ring]
      exact Nat.mul_left_inj (Nat.pow_pos (by decide)).ne'
    have hfits : magnitude * 10 ^ d < 10 ^ (reduced + d + allowed) ↔
        magnitude < 10 ^ (reduced + allowed) := by
      rw [show 10 ^ (reduced + d + allowed) = 10 ^ (reduced + allowed) * 10 ^ d by ring]
      exact Nat.mul_lt_mul_right (Nat.pow_pos (by decide))
    simp only [if_neg hlt, hk, exists_eq_left', hfits]
    by_cases hdig : 0 < reduced + allowed ∨ magnitude ≠ 0
    · refine iff_of_true ?_ ?_
      · rw [← digits_sub_le_iff hdig, ← not_lt]
        simp
      · rintro ⟨rfl, rfl, heq⟩
        have := (Nat.mul_eq_zero.mp hvalue).resolve_right (Nat.pow_pos (by decide)).ne'
        omega
    · -- the zero that is counted as one digit
      obtain ⟨hsum, hzero⟩ := not_or.mp hdig
      obtain rfl := not_not.mp hzero
      rw [zero_mul] at hvalue
      refine iff_of_false ?_ ?_
      · rw [show reduced + allowed = 0 by omega]
        simp
        omega
      · omega

/-- DECIMAL(2,2). -/
def allFraction : CatalogDataType := ⟨.decimal, none, 2, 2, .inr (by decide)⟩

theorem typemod_exact_half :
    0 < allFraction.parameter1 ∧ allFraction.parameter2 ≤ allFraction.parameter1 ∧
      (validateDecimalPartsTypemod allFraction 500 3 = .ok () ↔ WithinCapacity allFraction 500 3) :=
  ⟨by decide, by decide,
    (typemod_exact_iff allFraction 500 3 (by decide) (by decide)).mpr (by decide)⟩

/-- Zero is refused. -/
theorem zero_exceeds_precision :
    validateDecimalPartsTypemod allFraction 0 0 =
        .error (.invalid "DECIMAL value exceeds catalog precision") ∧
      WithinCapacity allFraction 0 0 :=
  ⟨by decide, 0, by norm_num, by decide⟩

end RadixDb
