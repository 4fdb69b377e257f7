import RadixDb.Value.Hash

/-!
# Values

A value is NULL, a number, a text, a boolean, an instant, or an extension: a byte string whose first
byte says which type the other bytes are a value of. Extensions may hold any bytes; which byte
strings are values is what `validateShape` checks at every boundary where values come in.

Values have three relations that are meant to be one: `==` (`Value.eq`), the order of index keys
(`Value.ordCmp`), and the words that hash tables use (`Value.hashWord`). All three put integers,
floats and decimals into one domain of numbers (`compareCanonicalNumeric`).
-/

namespace RadixDb

open Bytes

inductive DataType where
  | null | integer | float | text | boolean | timestamp | json | vector | uuid | decimal | date
  | bytes | civilTimestamp | time
deriving DecidableEq

namespace DataType

/-- `DataType as u8`. -/
def asU8 : DataType → UInt8
  | null => 0 | integer => 1 | float => 2 | text => 3 | boolean => 4 | timestamp => 5 | json => 6
  | vector => 7 | uuid => 8 | decimal => 9 | date => 10 | bytes => 11 | civilTimestamp => 12
  | time => 13

def fromU8 (tag : UInt8) : Option DataType :=
  match tag.toNat with
  | 0 => some null | 1 => some integer | 2 => some float | 3 => some text | 4 => some boolean
  | 5 => some timestamp | 6 => some json | 7 => some vector | 8 => some uuid | 9 => some decimal
  | 10 => some date | 11 => some bytes | 12 => some civilTimestamp | 13 => some time | _ => none

def display : DataType → String
  | null => "NULL" | integer => "INTEGER" | float => "FLOAT" | text => "TEXT"
  | boolean => "BOOLEAN" | timestamp => "TIMESTAMPTZ" | json => "JSON" | vector => "VECTOR"
  | uuid => "UUID" | decimal => "DECIMAL" | date => "DATE" | bytes => "BYTES"
  | civilTimestamp => "TIMESTAMP" | time => "TIME"

theorem fromU8_asU8 (t : DataType) : fromU8 t.asU8 = some t := by
  cases t <;> rfl

theorem asU8_of_fromU8 {tag : UInt8} {t : DataType} (h : fromU8 tag = some t) : t.asU8 = tag := by
  refine UInt8.toNat_inj.mp ?_
  unfold fromU8 at h
  split at h <;> cases h
  all_goals
    next heq =>
      rw [heq]
      rfl

end DataType

/-- An instant in UTC. A leap second has a second's worth of nanoseconds beyond the first. -/
structure DateTime where
  seconds : ℤ
  nanos : ℕ
  range : nanos < 10 ^ 9 ∨ nanos < 2 * 10 ^ 9 ∧ seconds % 60 = 59
deriving DecidableEq

namespace DateTime

/-- Nanoseconds since the epoch. -/
def totalNanos (t : DateTime) : ℤ := t.seconds * 10 ^ 9 + t.nanos

/-- `timestamp_nanos_opt`: the nanoseconds, if they fit 64 bits. -/
def timestampNanosOpt (t : DateTime) : Option ℤ :=
  if InI64 t.totalNanos then some t.totalNanos else none

/-- `Ord::cmp` of instants. -/
def ordCmp (a b : DateTime) : Ordering := (cmp a.seconds b.seconds).then (cmp a.nanos b.nanos)

end DateTime

/-- `datetime_from_epoch_nanos`. Every 64-bit number of nanoseconds is within the range of years. -/
def dateTimeFromEpochNanos (nanos : ℤ) : DateTime :=
  ⟨nanos / 10 ^ 9, (nanos % 10 ^ 9).toNat, Or.inl (by omega)⟩

inductive Value where
  | null (dataType : DataType)
  | integer (v : {i : ℤ // InI64 i})
  | float (f : F64)
  | text (s : String)
  | boolean (b : Bool)
  | timestamp (t : DateTime)
  | extension (data : Bytes)
deriving DecidableEq

def externalValueMarker : UInt8 := 0xff

def externalValueHeaderBytes : ℕ := 1 + 16 + 4

def maxExternalValueBytes : ℕ := 16 * 1024 * 1024

def nanosPerDay : ℤ := 86400 * 10 ^ 9

def maxDecimalPrecision : ℕ := 38

/-- The identity of an external type. -/
structure ExternalTypeRef where
  typeObjectId : Bytes
  codecVersion : ℕ
  size : typeObjectId.length = 16
  nonzero : typeObjectId ≠ List.replicate 16 0
  version : 0 < codecVersion ∧ codecVersion < 2 ^ 32
deriving DecidableEq

structure ExternalValueRef where
  typeRef : ExternalTypeRef
  payload : Bytes

def validateDecimalShape (unscaled : ℤ) (precision scale : ℕ) : Except String Unit :=
  let digits := (Nat.toDigits 10 unscaled.natAbs).length
  if ¬ (1 ≤ precision ∧ precision ≤ maxDecimalPrecision) then
    .error s!"DECIMAL precision {precision} is outside supported range 1..={maxDecimalPrecision}"
  else if precision < scale then
    .error s!"DECIMAL scale {scale} exceeds declared precision {precision}"
  else if precision < digits then
    .error s!"DECIMAL coefficient has {digits} digits but precision is {precision}"
  else .ok ()

def temporalPayloadNanos (payload : Bytes) (sqlType : String) : Except String ℤ :=
  if payload.length = 8 then .ok (leInt payload)
  else .error s!"{sqlType} payload must contain exactly 8 bytes"

/-- The JSON parser: what is wrong with a payload, if anything. -/
abbrev Json := Bytes → Option String

namespace Value

def isNull : Value → Bool
  | .null _ => true
  | _ => false

def dataType : Value → DataType
  | .null t => t
  | .integer _ => .integer
  | .float _ => .float
  | .text _ => .text
  | .boolean _ => .boolean
  | .timestamp _ => .timestamp
  | .extension data => (data.head?.bind DataType.fromU8).getD .null

def asExternal : Value → Option ExternalValueRef
  | .extension data =>
    if data.head? ≠ some externalValueMarker ∨ data.length < externalValueHeaderBytes then none
    else
      let id := (data.drop 1).take 16
      let version := leNat ((data.drop 17).take 4)
      if h : id.length = 16 ∧ id ≠ List.replicate 16 0 ∧ 0 < version ∧ version < 2 ^ 32 then
        some ⟨⟨id, version, h.1, h.2.1, h.2.2⟩, data.drop externalValueHeaderBytes⟩
      else none
  | _ => none

def asDecimalParts : Value → Option (ℤ × ℕ × ℕ)
  | .extension data =>
    if data.head? = some DataType.decimal.asU8 ∧ data.length = 19 then
      let unscaled := leInt ((data.drop 1).take 16)
      let precision := (data.getD 17 0).toNat
      let scale := (data.getD 18 0).toNat
      match validateDecimalShape unscaled precision scale with
      | .ok () => some (unscaled, precision, scale)
      | .error _ => none
    else none
  | _ => none

/-- CIVIL TIMESTAMP and TIME. -/
def isTemporalTag (data : Bytes) : Bool :=
  data.head?.bind DataType.fromU8 = some .civilTimestamp ||
    data.head?.bind DataType.fromU8 = some .time

def artifactTemporalNanos : Value → Option ℤ
  | .timestamp t => t.timestampNanosOpt
  | .extension data =>
    if isTemporalTag data && data.length == 9 then some (leInt (data.drop 1)) else none
  | _ => none

/-- The payload of a built-in extension type. -/
def validateExtensionPayload (json : Json) (tag : DataType) (payload : Bytes) :
    Except String Unit :=
  match tag with
  | .json => match json payload with
    | none => .ok ()
    | some error => .error error
  | .vector =>
    if payload.length % 4 = 0 then .ok ()
    else .error s!"VECTOR payload has {payload.length} bytes, expected a multiple of 4"
  | .uuid =>
    if payload.length = 16 then .ok () else .error "UUID payload must contain exactly 16 bytes"
  | .decimal =>
    if payload.length = 18 then
      validateDecimalShape (leInt (payload.take 16)) (payload.getD 16 0).toNat
        (payload.getD 17 0).toNat
    else .error "DECIMAL payload must contain exactly 18 bytes"
  | .date =>
    if payload.length = 4 then .ok () else .error "DATE payload must contain exactly 4 bytes"
  | .bytes => .ok ()
  | .civilTimestamp => (temporalPayloadNanos payload "TIMESTAMP").map fun _ => ()
  | .time => do
    let nanos ← temporalPayloadNanos payload "TIME"
    if 0 ≤ nanos ∧ nanos < nanosPerDay then .ok ()
    else .error "TIME payload must be inside one civil day"
  | _ => .error s!"data type {tag.display} is not a valid extension payload tag"

def validateShape (json : Json) (v : Value) : Except String Unit :=
  match v with
  | .extension data =>
    if data.head? = some externalValueMarker then
      match v.asExternal with
      | none => .error "external value has an invalid typed envelope"
      | some external =>
        if maxExternalValueBytes < external.payload.length then
          .error "external value payload exceeds 16 MiB"
        else .ok ()
    else
      match data.head?.bind DataType.fromU8 with
      | none => .error "extension value has an unknown or missing tag"
      | some tag => validateExtensionPayload json tag (data.drop 1)
  | _ => .ok ()

/-- `Value::decimal`. -/
def decimal (unscaled : ℤ) (precision scale : ℕ) : Value :=
  .extension (DataType.decimal.asU8 :: intBytes 16 unscaled ++
    [UInt8.ofNat precision, UInt8.ofNat scale])

end Value

/-! ## Numbers -/

section

variable (std : LowerExp)

/-- A finite float always has an identity (`LowerExp.fromFloat_eq`). -/
def compareDecimalFloat (decimal : DecimalIdentity) (float : F64) : Ordering :=
  match float.classify with
  | .nan => .lt
  | .infinite false => .lt
  | .infinite true => .gt
  | .finite _ => (DecimalIdentity.fromFloat std float).elim .eq decimal.cmpNumeric

def compareCanonicalNumeric (left right : Value) : Option Ordering :=
  match left, right with
  | .integer left, .integer right => some (cmp left.1 right.1)
  | .float left, .float right => some (compareFloats left right)
  | .integer integer, .float float => some (compareIntegerFloat integer.1 float)
  | .float float, .integer integer => some (compareIntegerFloat integer.1 float).swap
  | _, _ =>
    let leftDecimal := left.asDecimalParts.map fun p => DecimalIdentity.fromParts p.1 p.2.2
    let rightDecimal := right.asDecimalParts.map fun p => DecimalIdentity.fromParts p.1 p.2.2
    match leftDecimal, rightDecimal, left, right with
    | some left, some right, _, _ => some (left.cmpNumeric right)
    | some left, none, _, .integer right =>
      some (left.cmpNumeric (DecimalIdentity.fromParts right.1 0))
    | none, some right, .integer left, _ =>
      some ((DecimalIdentity.fromParts left.1 0).cmpNumeric right)
    | some left, none, _, .float right => some (compareDecimalFloat std left right)
    | none, some right, .float left, _ => some (compareDecimalFloat std right left).swap
    | _, _, _, _ => none

namespace Value

/-! ## Equality, order and hashing -/

/-- `PartialEq::eq`. -/
def eq (v other : Value) : Bool :=
  match compareCanonicalNumeric std v other with
  | some ordering => ordering == .eq
  | none =>
    match v, other with
    | .null _, .null _ => true
    | .null _, _ => false
    | _, .null _ => false
    | .text a, .text b => a == b
    | .boolean a, .boolean b => a == b
    | .timestamp a, .timestamp b => a == b
    | .extension a, .extension b => a == b
    | _, _ => false

def typeDiscriminant (v : Value) : ℕ :=
  match v with
  | .null _ => 0
  | .boolean _ => 1
  | .integer _ => 2
  | .float _ => 2
  | .text _ => 3
  | .timestamp _ => 4
  | .extension _ => if v.asDecimalParts.isSome then 2 else 5

/-- The bytes of a text. -/
def textBytes (s : String) : Bytes := s.toByteArray.data.toList

/-- Two extensions: TIME and TIMESTAMP by their nanoseconds, others byte by byte. -/
def cmpExtension (a b : Bytes) : Ordering :=
  if a.head? = b.head? ∧ isTemporalTag a = true then
    match (Value.extension a).artifactTemporalNanos, (Value.extension b).artifactTemporalNanos with
    | some left, some right => cmp left right
    | _, _ => compareBytes a b
  else compareBytes a b

/-- Two values of one type; numbers have been compared before. -/
def cmpSameType (v other : Value) : Ordering :=
  match v, other with
  | .text a, .text b => compareBytes (textBytes a) (textBytes b)
  | .boolean a, .boolean b => cmp a b
  | .timestamp a, .timestamp b => a.ordCmp b
  | .extension a, .extension b => cmpExtension a b
  | _, _ => .eq

/-- `Ord::cmp`. -/
def ordCmp (v other : Value) : Ordering :=
  match v.isNull, other.isNull with
  | true, true => .eq
  | true, false => .lt
  | false, true => .gt
  | false, false =>
    match compareCanonicalNumeric std v other with
    | some ordering => ordering
    | none =>
      if v.typeDiscriminant ≠ other.typeDiscriminant then
        cmp v.typeDiscriminant other.typeDiscriminant
      else v.cmpSameType other

/-- The word that `Hash::hash` writes. -/
def hashWord (v : Value) : UInt64 :=
  match v with
  | .null _ => 0
  | .integer v => integerHashWord v.1
  | .float f => floatHashWord f
  | .text s => hashBytes 2 (textBytes s)
  | .boolean b => wymix (if b then 5 else 4) wyP1
  | .timestamp t =>
    let nanos := t.timestampNanosOpt.getD
      (max I64.minValue (min I64.maxValue (t.seconds * 10 ^ 9)))
    wymix (3 ^^^ asU64 nanos) wyP1
  | .extension data =>
    match v.asDecimalParts with
    | some (unscaled, _, scale) => decimalHashWord std unscaled scale
    | none => hashBytes 10 data

end Value

end

end RadixDb
