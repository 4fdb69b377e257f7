import RadixDb.Key.ColumnValue

/-!
# The canonical key of an index

An index key is one byte string for the values of all key columns. Each value is a component: a
header of eight bytes (a tag that is 0 for NULL and 1 otherwise, the type, two reserved bytes and
the length of the payload), the payload, and zeros up to a multiple of four. Floats are made
canonical first, so that all NaNs are one key and the two zeros are one key.

`encodeCanonicalKeySpecs` appends component after component to a `CanonicalKeyState`;
`visitCanonicalKeySpecs` goes through the bytes with a cursor, and re-encodes every value that it
decodes to see that the payload is the canonical one.
-/

namespace RadixDb

def componentHeaderBytes : ℕ := 8

def maxIndexKeyBytes : ℕ := 1024 * 1024

/-- `(length + 3) & !3`. -/
def aligned (length : ℕ) : ℕ := (length + 3) / 4 * 4

/-- All NaNs as one, and both zeros as one. -/
def canonicalFloat (f : F64) : F64 :=
  if f.classify = .nan then F64.nan
  else if f.classify = .finite 0 then ⟨false, 0⟩
  else f

structure CanonicalKeyState where
  bytes : Bytes
  hasNullComponent : Bool
  encodedComponents : ℕ
deriving DecidableEq

section

variable (json : Json)

/-! ## Encoding -/

/-- What `append_canonical_non_null_bytes` appends. -/
def appendCanonicalNonNullBytes (column : DataColumnSpec) (value : Value) : FormatResult Bytes := do
  let payload ← appendNonNullValue json column value
  if column.dataType.logicalType = .float then
    match value with
    | .float f => .ok (Bytes.leBytes 8 (canonicalFloat f).toBits.toNat)
    | _ => .error (.invalid "FLOAT index key has wrong representation")
  else .ok payload

/-- The header of a component. The length is cut to 32 bits. -/
def componentHeader (tag : UInt8) (type : DataType) (valueLength : ℕ) : Bytes :=
  [tag, type.asU8, 0, 0] ++ Bytes.leBytes 4 valueLength

namespace CanonicalKeyState

def new : CanonicalKeyState := ⟨[], false, 0⟩

/-- The bytes that a component adds to a key of `start` bytes, and whether it is NULL. -/
def component (start : ℕ) (column : DataColumnSpec) (value : Value) : FormatResult (Bytes × Bool) :=
  let type := column.dataType.logicalType
  if value.isNull then
    if ¬ column.nullable then .error (.invalid "non-nullable index key contains NULL")
    else .ok (componentHeader 0 type 0, true)
  else do
    let payload ← appendCanonicalNonNullBytes json column value
    let written := componentHeader 1 type payload.length ++ payload
    let length := start + written.length
    .ok (written ++ List.replicate (aligned length - length) 0, false)

def append (state : CanonicalKeyState) (column : DataColumnSpec) (value : Value) :
    FormatResult CanonicalKeyState := do
  let (added, isNull) ← component json state.bytes.length column value
  let bytes := state.bytes ++ added
  if maxIndexKeyBytes < bytes.length then
    .error (.limit "index key bytes" bytes.length maxIndexKeyBytes)
  else .ok ⟨bytes, state.hasNullComponent || isNull, state.encodedComponents + 1⟩

def appendAll : CanonicalKeyState → List (DataColumnSpec × Value) → FormatResult CanonicalKeyState
  | state, [] => .ok state
  | state, (column, value) :: components => do
    let state ← append json state column value
    appendAll state components

def finish (state : CanonicalKeyState) (componentCount : ℕ) : FormatResult (Bytes × Bool) :=
  if state.encodedComponents ≠ componentCount then
    .error (.invalid "index key component count mismatch")
  else .ok (state.bytes, state.hasNullComponent)

end CanonicalKeyState

def encodeCanonicalKeySpecs (columns : List DataColumnSpec) (values : List Value) :
    FormatResult (Bytes × Bool) :=
  if columns.length ≠ values.length then .error (.invalid "index key component count mismatch")
  else do
    let state ← CanonicalKeyState.new.appendAll json (columns.zip values)
    state.finish columns.length

/-! ## Decoding -/

/-- `bytes.get(start..end)`. -/
def getRange (bytes : Bytes) (start stop : ℕ) : Option Bytes :=
  if start ≤ stop ∧ stop ≤ bytes.length then some ((bytes.drop start).take (stop - start)) else none

/-- The payload of `valueLength` bytes at `cursor` and the zeros after it: the value and where the
next component starts. -/
def visitNonNull (bytes : Bytes) (column : DataColumnSpec) (cursor valueLength : ℕ) :
    FormatResult (Value × ℕ) :=
  let valueEnd := cursor + valueLength
  match getRange bytes cursor valueEnd with
  | none => .error (.invalid "index key component value is truncated")
  | some valueBytes => do
    let value ← decodeNonNullValue json column valueBytes
    let scratch ← appendCanonicalNonNullBytes json column value
    if scratch ≠ valueBytes then .error (.invalid "index key component is not canonical")
    else
      match getRange bytes valueEnd (aligned valueEnd) with
      | none => .error (.invalid "index key component padding is truncated")
      | some padding =>
        if padding.any (· != 0) then .error (.invalid "index key component padding is non-zero")
        else .ok (value, aligned valueEnd)

/-- One turn of the loop of `visit_canonical_key_specs`: the value, whether it is NULL, and where
the next component starts. -/
def visitComponent (bytes : Bytes) (column : DataColumnSpec) (cursor : ℕ) :
    FormatResult (Value × Bool × ℕ) :=
  let headerEnd := cursor + componentHeaderBytes
  match getRange bytes cursor headerEnd with
  | none => .error (.invalid "index key component header is truncated")
  | some header =>
    if header.getD 1 0 ≠ column.dataType.logicalType.asU8 ∨
        Bytes.leNat ((header.drop 2).take 2) ≠ 0 then
      .error (.invalid "index key component type/reserved field mismatch")
    else
      let valueLength := Bytes.leNat ((header.drop 4).take 4)
      if header.getD 0 0 = 0 ∧ valueLength = 0 ∧ column.nullable then
        .ok (.null column.dataType.logicalType, true, headerEnd)
      else if header.getD 0 0 = 1 ∧ 0 < valueLength then do
        let (value, cursor) ← visitNonNull json bytes column headerEnd valueLength
        .ok (value, false, cursor)
      else .error (.invalid "index key component NULL tag/length is invalid")

/-- The loop: the values, whether one is NULL, and the cursor at the end. -/
def visitComponents (bytes : Bytes) : List DataColumnSpec → ℕ → FormatResult (List Value × Bool × ℕ)
  | [], cursor => .ok ([], false, cursor)
  | column :: columns, cursor => do
    let (value, isNull, cursor) ← visitComponent json bytes column cursor
    let (values, hasNull, cursor) ← visitComponents bytes columns cursor
    .ok (value :: values, isNull || hasNull, cursor)

/-- `visit_canonical_key_specs`, which gives `decode_canonical_key_specs` its values. -/
def decodeCanonicalKeySpecs (bytes : Bytes) (columns : List DataColumnSpec) :
    FormatResult (List Value × Bool) :=
  if bytes.isEmpty ∨ maxIndexKeyBytes < bytes.length then
    .error (.limit "index key bytes" bytes.length maxIndexKeyBytes)
  else do
    let (values, hasNull, cursor) ← visitComponents json bytes columns 0
    if cursor ≠ bytes.length then
      .error (.invalid "index key has trailing components or bytes")
    else .ok (values, hasNull)

end

end RadixDb
