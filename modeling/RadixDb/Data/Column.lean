import RadixDb.Key.ColumnValue
import RadixDb.Lib.Bitmap
import RadixDb.Lib.Fields
import RadixDb.Lib.OrderedMap

/-!
# Columns of a row group

A data artifact has a block for each column of each row group. Its payload is a header, a bitmap
that says which rows are not NULL, and the values: side by side if they are all of one width,
otherwise with a table of offsets (`encodePlain`). Columns of text, JSON and byte strings may
instead have a dictionary, the sorted list of the values that occur, and a code for each row
(`encodeDictionary`).

Reading a payload gives buffers of one type (`DecodedColumn`), and `intoValues` makes values of
them. The reader may be given any bytes. It checks them, and then indexes and slices; what it does
if a check is missing is part of the model, so readers are `Checked`.
-/

namespace RadixDb

open Bytes List

def maxRowsPerGroup : ℕ := 65536

def maxLogicalBytesPerBlock : ℕ := 512 * 1024 * 1024

def maxDictionaryItemsPerBlock : ℕ := 16777216

/-- A row group, of which only the number of rows matters to a column. -/
structure DataRowGroup where
  rowCount : ℕ
  rows : 0 < rowCount ∧ rowCount ≤ maxRowsPerGroup

inductive DataValueEncoding where
  | plain
  | dictionary
  | adaptive
deriving DecidableEq

inductive DataLayout where
  | rowIdsDelta
  | plainValues
  | dictionaryValues
  | bloom
deriving DecidableEq

inductive DataPhysicalCodec where
  | none
  | lz4
deriving DecidableEq

/-- What the directory says of a block. -/
structure DataBlockRef where
  codec : DataPhysicalCodec
  layout : DataLayout
  logicalLength : ℕ
  itemCount : ℕ

/-- The LZ4 library: `decompress` is given the length that is expected. -/
structure Lz4 where
  compress : Bytes → Bytes
  decompress : Bytes → ℕ → Option Bytes

/-- What was compressed is decompressed. -/
def Lz4.Lossless (lz4 : Lz4) : Prop :=
  ∀ bytes : Bytes, lz4.decompress (lz4.compress bytes) bytes.length = some bytes

def encodePhysical (lz4 : Lz4) (logical : Bytes) : DataPhysicalCodec → Bytes
  | .none => logical
  | .lz4 => lz4.compress logical

/-- What reading gives: a value, an error or a panic. -/
abbrev Reading (α : Type) := Checked FormatError α

/-- `Err(invalid(detail))`. -/
def refuse {α : Type} (detail : String) : Reading α := Checked.fail (.invalid detail)

def decodePhysical (lz4 : Lz4) (stored : Bytes) (block : DataBlockRef) : Reading Bytes :=
  match block.codec with
  | .none =>
    if stored.length ≠ block.logicalLength then refuse "uncompressed block length mismatch"
    else .ok stored
  | .lz4 =>
    match lz4.decompress stored block.logicalLength with
    | some logical => .ok logical
    | none => refuse "raw LZ4 block cannot be decompressed to declared length"

namespace Column

def plainHeaderBytes : ℕ := 32

def dictionaryHeaderBytes : ℕ := 40

def plainMagic : Bytes := [0x56, 0x41, 0x4c, 0x31]

def dictionaryMagic : Bytes := [0x44, 0x49, 0x43, 0x31]

def validityBytes (count : ℕ) : ℕ := (count + 7) / 8

def fixedWidth (type : DataType) (parameter1 : ℕ) : Option ℕ :=
  match type with
  | .integer | .float | .timestamp | .civilTimestamp | .time => some 8
  | .boolean => some 1
  | .date => some 4
  | .uuid => some 16
  | .decimal => some 18
  | .vector => some (parameter1 * 4)
  | .text | .json | .bytes | .null => none

/-- The width of the values of a column, if they have one. -/
def columnWidth (column : DataColumnSpec) : Option ℕ :=
  if column.dataType.externalTypeRef.isSome then none
  else fixedWidth column.dataType.logicalType column.dataType.parameter1

/-- Is the type one that may have a dictionary? -/
def isDictionaryType (type : DataType) : Bool := type matches .text | .json | .bytes

/-! ## Writing -/

section

variable (json : Json)

def validateValueCount (count : ℕ) : FormatResult Unit :=
  if count = 0 ∨ maxRowsPerGroup < count then
    .error (.limit "column values per group" count maxRowsPerGroup)
  else .ok ()

variable (column : DataColumnSpec) (values : List Value)

def validateColumnValues : FormatResult Unit :=
  values.forM (validateColumnValue json column)

def validateLogicalLength (length : ℕ) : FormatResult Unit :=
  if maxLogicalBytesPerBlock < length then
    .error (.limit "logical block bytes" length maxLogicalBytesPerBlock)
  else .ok ()

def encodeValidity : Bytes :=
  Bitmap.setBits (replicate (validityBytes values.length) 0)
    ((values.zipIdx.filter fun p => !p.1.isNull).map Prod.snd)

/-- What `append_column_non_null_bytes` appends. -/
def appendColumnNonNullBytes (value : Value) : FormatResult Bytes :=
  match column.dataType.externalTypeRef with
  | some ref =>
    match value.asExternal with
    | none => .error (.invalid "external value has wrong representation")
    | some external =>
      if external.typeRef ≠ ref then
        .error (.invalid "external value identity differs from catalog type")
      else if maxExternalValueBytes < external.payload.length then
        .error (.limit "external value bytes" external.payload.length maxExternalValueBytes)
      else .ok external.payload
  | none => appendNonNullRepresentation json column.dataType.logicalType value

/-- A slot of a column of one width. -/
def fixedCell (width : ℕ) (value : Value) : FormatResult Bytes :=
  if value.isNull then .ok (replicate width 0)
  else appendColumnNonNullBytes json column value

/-- The bytes of a row of a column of variable width. -/
def variableCell (value : Value) : FormatResult Bytes :=
  if value.isNull then .ok [] else appendColumnNonNullBytes json column value

/-- Append cells one after the other, and where each ends. Offsets have 32 bits; `what` names the
bytes in the error. -/
def appendCells {α : Type} (what : String) (cell : α → FormatResult Bytes) :
    List α → List ℕ → Bytes → FormatResult (List ℕ × Bytes)
  | [], offsets, bytes => .ok (offsets, bytes)
  | a :: rest, offsets, bytes => do
    let added ← cell a
    let length := (bytes ++ added).length
    if 2 ^ 32 ≤ length then .error (.limit what length (2 ^ 32 - 1))
    else appendCells what cell rest (offsets ++ [length]) (bytes ++ added)

/-- The bytes of a table of 32-bit numbers. -/
def wordTable (words : List ℕ) : Bytes := words.flatMap (leBytes 4)

/-- The layout, the offsets and the bytes of plain values. -/
def plainParts : FormatResult (ℕ × List ℕ × Bytes) :=
  match columnWidth column with
  | some width => do
    let cells ← values.mapM (fixedCell json column width)
    .ok (1, [], cells.flatten)
  | none => do
    let (offsets, bytes) ←
      appendCells "variable value bytes" (variableCell json column) values [0] []
    .ok (2, offsets, bytes)

/-- The header of a plain payload. -/
def plainHeader (layout count validityLength offsetsLength valuesLength : ℕ) : List (ℕ × ℕ) :=
  [(4, leNat plainMagic), (2, 1), (2, layout), (4, count), (4, validityLength),
    (4, offsetsLength), (8, valuesLength), (4, 0)]

def encodePlain : FormatResult Bytes := do
  let validity := encodeValidity values
  let (layout, offsets, valueBytes) ← plainParts json column values
  let offsetsLength := offsets.length * 4
  validateLogicalLength (plainHeaderBytes + validity.length + offsetsLength + valueBytes.length)
  .ok (fields (plainHeader layout values.length validity.length offsetsLength valueBytes.length) ++
    validity ++ wordTable offsets ++ valueBytes)

/-- The payloads that occur, each once and in order. -/
def uniquePayloads (payloads : List Bytes) : List Bytes :=
  (payloads.foldl (fun unique bytes =>
    OrderedMap.upsert compareBytes bytes (fun _ => ()) unique) []).map Prod.fst

/-- The code of a row: 0 for NULL, otherwise one more than the place of its value. -/
def dictionaryCode (dictionary : List Bytes) (value : Value) : FormatResult ℕ :=
  if value.isNull then .ok 0
  else do
    let bytes ← appendNonNullRepresentation json column.dataType.logicalType value
    match dictionary.idxOf? bytes with
    | some ordinal => .ok (ordinal + 1)
    | none => .error (.invalid "dictionary lookup lost an encoded value")

/-- The header of a payload with a dictionary. -/
def dictionaryHeader (count distinct validityLength offsetsLength dictionaryLength
    codesLength : ℕ) : List (ℕ × ℕ) :=
  [(4, leNat dictionaryMagic), (2, 1), (2, 0), (4, count), (4, distinct), (4, validityLength),
    (4, offsetsLength), (8, dictionaryLength), (4, codesLength), (4, 0)]

def encodeDictionary : FormatResult Bytes :=
  if column.dataType.externalTypeRef.isSome then
    .error (.invalid "dictionary encoding is not admitted for external types")
  else if !isDictionaryType column.dataType.logicalType then
    .error (.invalid "dictionary encoding is not allowed for this type")
  else do
    let validity := encodeValidity values
    let payloads ← (values.filter (!·.isNull)).mapM
      (appendNonNullRepresentation json column.dataType.logicalType)
    let dictionary := uniquePayloads payloads
    if maxDictionaryItemsPerBlock < dictionary.length then
      .error (.limit "dictionary item count" dictionary.length maxDictionaryItemsPerBlock)
    else do
      let (offsets, dictionaryBytes) ←
        appendCells "dictionary value bytes" (fun bytes : Bytes => .ok bytes) dictionary [0] []
      let codes ← values.mapM (dictionaryCode json column dictionary)
      let offsetsLength := offsets.length * 4
      let codesLength := codes.length * 4
      validateLogicalLength (dictionaryHeaderBytes + validity.length + offsetsLength +
        dictionaryBytes.length + codesLength)
      .ok (fields (dictionaryHeader values.length dictionary.length validity.length offsetsLength
          dictionaryBytes.length codesLength) ++
        validity ++ wordTable offsets ++ dictionaryBytes ++ wordTable codes)

def encodeColumnPayload (encoding : DataValueEncoding) : FormatResult (DataLayout × Bytes) := do
  validateValueCount values.length
  validateColumnValues json column values
  match encoding with
  | .plain => do
    let bytes ← encodePlain json column values
    .ok (.plainValues, bytes)
  | .dictionary => do
    let bytes ← encodeDictionary json column values
    .ok (.dictionaryValues, bytes)
  | .adaptive =>
    .error (.invalid "adaptive encoding must be resolved by the physical block builder")

end

/-! ## Buffers -/

/-- A column that was read. Offsets are a start and a length. -/
inductive DecodedColumn where
  | int64 (values : List {i : ℤ // InI64 i}) (nulls : List Bool)
  | float64 (values : List F64) (nulls : List Bool)
  | timestampNanos (values : List {i : ℤ // InI64 i}) (type : DataType) (nulls : List Bool)
  | boolean (values : List Bool) (nulls : List Bool)
  | text (ids : List ℕ) (dictionary : List String) (nulls : List Bool)
  | bytes (data : Bytes) (offsets : List (ℕ × ℕ)) (type : DataType) (nulls : List Bool)
  | external (data : Bytes) (offsets : List (ℕ × ℕ)) (typeRef : ExternalTypeRef)
      (nulls : List Bool)

/-- A value for each row: `null` where there is none, and what `value` makes of the buffer. -/
def rowValues {α : Type} (null : Value) (value : α → Reading Value) (buffer : List α)
    (nulls : List Bool) : Reading (List Value) :=
  (buffer.zip nulls).mapM fun row => if row.2 then .ok null else value row.1

/-- The bytes of a row. -/
def rowBytes (data : Bytes) (place : ℕ × ℕ) : Reading Bytes := do
  let stop ← Checked.add place.1 place.2
  Checked.slice data place.1 stop

def DecodedColumn.intoValues : DecodedColumn → Reading (List Value)
  | .int64 values nulls => rowValues (.null .integer) (fun i => .ok (.integer i)) values nulls
  | .float64 values nulls => rowValues (.null .float) (fun f => .ok (.float f)) values nulls
  | .timestampNanos values type nulls =>
    rowValues (.null type) (fun nanos =>
      Checked.expect (Value.fromTemporalNanos type nanos.1) "validated temporal payload")
      values nulls
  | .boolean values nulls => rowValues (.null .boolean) (fun b => .ok (.boolean b)) values nulls
  | .text ids dictionary nulls =>
    rowValues (.null .text) (fun id => do
      let s ← Checked.index dictionary id
      .ok (.text s)) ids nulls
  | .bytes data offsets type nulls =>
    rowValues (.null type) (fun place => do
      let payload ← rowBytes data place
      .ok (Value.ofPayload type payload)) offsets nulls
  | .external data offsets typeRef nulls =>
    rowValues (.null .null) (fun place => do
      let payload ← rowBytes data place
      Checked.expect (Value.tryExternal typeRef payload)
        "decoded external payload already passed shape validation") offsets nulls

/-! ## Reading -/

section

variable (json : Json)

/-- `read_u16`, `read_u32` and `read_u64`. -/
def word (width : ℕ) (bytes : Bytes) (offset : ℕ) : Reading ℕ := do
  let field ← Checked.slice bytes offset (offset + width)
  .ok (leNat field)

def isValid (validity : Bytes) (index : ℕ) : Reading Bool := do
  let byte ← Checked.index validity (index / 8)
  .ok (byte.toNat.testBit (index % 8))

/-- Which rows are NULL. -/
def readNulls (validity : Bytes) (count : ℕ) : Reading (List Bool) :=
  (range count).mapM fun index => do
    let valid ← isValid validity index
    .ok !valid

def validateValidity (bytes : Bytes) (count : ℕ) (nullable : Bool) : Reading Unit :=
  if count % 8 ≠ 0 ∧ bytes.getLast?.any
      (fun byte => byte &&& ~~~((1 <<< UInt8.ofNat (count % 8)) - 1) != 0) then
    refuse "unused validity bits are non-zero"
  else if nullable then .ok ()
  else do
    let nulls ← readNulls bytes count
    if nulls.any id then refuse "non-nullable column contains NULL validity bit" else .ok ()

def decodeOffsets (bytes : Bytes) (itemCount valueLength : ℕ) : Reading (List ℕ) :=
  if bytes.length ≠ (itemCount + 1) * 4 then refuse "offset array width mismatch"
  else do
    let offsets ← (range (itemCount + 1)).mapM fun index => word 4 bytes (index * 4)
    if offsets.head? ≠ some 0 ∨ offsets.getLast? ≠ some valueLength ∨
        (offsets.zip offsets.tail).any (fun pair => pair.2 < pair.1) then
      refuse "offset array is not canonical"
    else .ok offsets

/-- The bytes between an offset and the next. -/
def between (bytes : Bytes) (offsets : List ℕ) (index : ℕ) : Reading Bytes := do
  let start ← Checked.index offsets index
  let stop ← Checked.index offsets (index + 1)
  Checked.slice bytes start stop

variable (column : DataColumnSpec)

def validateExtensionBytes (type : DataType) (bytes : Bytes) : Reading Unit :=
  match Value.validateExtensionPayload json type bytes with
  | .error _ => refuse "extension bytes have an invalid physical shape"
  | .ok () =>
    match type with
    | .vector =>
      if bytes.length ≠ column.dataType.parameter1 * 4 ∨
          (chunksOfFour bytes).any (fun chunk => !f32IsFinite (leNat chunk)) then
        refuse "VECTOR dimensions/components are invalid"
      else .ok ()
    | .decimal => do
      let unscaled ← Checked.slice bytes 0 16
      let scale ← Checked.index bytes 17
      Checked.ofExcept
        (validateDecimalPartsTypemod column.dataType (leInt unscaled) scale.toNat)
    | .json | .uuid | .date | .bytes => .ok ()
    | _ => refuse "catalog type is not an extension payload"

def validateVariableBytes (type : DataType) (bytes : Bytes) : Reading Unit :=
  match type with
  | .text => if (fromUtf8 bytes).isSome then .ok () else refuse "TEXT bytes are not UTF-8"
  | .json | .bytes => validateExtensionBytes json column type bytes
  | _ => refuse "variable value has a fixed-width catalog type"

def validateExternalBytes (bytes : Bytes) : Reading Unit :=
  match column.dataType.externalTypeRef with
  | none => refuse "external column descriptor has no type identity"
  | some ref =>
    match Value.tryExternal ref bytes with
    | .ok _ => .ok ()
    | .error _ => refuse "external bytes have an invalid physical shape"

/-- Copy the bytes of the rows one after the other, and where each is. A row is `none` if it is
NULL. -/
def copyRows : List (Option (Reading Bytes)) → Bytes → List (ℕ × ℕ) → Reading (Bytes × List (ℕ × ℕ))
  | [], data, offsets => .ok (data, offsets)
  | none :: rows, data, offsets => copyRows rows data (offsets ++ [(0, 0)])
  | some row :: rows, data, offsets => do
    let source ← row
    copyRows rows (data ++ source) (offsets ++ [(data.length, source.length)])

/-- What `row` gives for every row that is not NULL. -/
def presentRows {α : Type} (row : ℕ → α) (nulls : List Bool) : List (Option α) :=
  nulls.zipIdx.map fun p => if p.1 then none else some (row p.2)

def copyExternalBytes (valueBytes : Bytes) (sourceOffsets : List ℕ)
    (nulls : List Bool) : Reading DecodedColumn :=
  match column.dataType.externalTypeRef with
  | none => refuse "external column descriptor has no type identity"
  | some ref => do
    let (data, offsets) ← copyRows (presentRows (between valueBytes sourceOffsets) nulls) [] []
    .ok (.external data offsets ref nulls)

def copyVariableBytes (valueBytes : Bytes) (sourceOffsets : List ℕ) (nulls : List Bool)
    (type : DataType) : Reading DecodedColumn := do
  let (data, offsets) ← copyRows (presentRows (between valueBytes sourceOffsets) nulls) [] []
  .ok (.bytes data offsets type nulls)

/-- The slot of a row. -/
def fixedSlot (bytes : Bytes) (width index : ℕ) : Reading Bytes := do
  let start ← Checked.mul index width
  let stop ← Checked.mul (index + 1) width
  Checked.slice bytes start stop

variable (bytes validity : Bytes)

def decodeFixedNulls (count width : ℕ) : Reading (List Bool) :=
  (range count).mapM fun index => do
    let valid ← isValid validity index
    if valid then .ok false
    else do
      let slot ← fixedSlot bytes width index
      if slot.any (· != 0) then refuse "NULL fixed-width slot is non-zero" else .ok true

def decodeFixedExtension (bytes : Bytes) (width : ℕ)
    (nulls : List Bool) : Reading DecodedColumn := do
  let type := column.dataType.logicalType
  let (data, offsets) ← copyRows (presentRows (fun index => do
    let value ← fixedSlot bytes width index
    validateExtensionBytes json column type value
    .ok value) nulls) [] []
  .ok (.bytes data offsets type nulls)

/-- `chunks_exact`. -/
def chunksExact (width : ℕ) (bytes : Bytes) : List Bytes :=
  (range (bytes.length / width)).map fun index => (bytes.drop (index * width)).take width

/-- `i64::from_le_bytes(chunk.try_into().expect(message))`. -/
def readI64 (message : String) (chunk : Bytes) : Reading {i : ℤ // InI64 i} :=
  if h : chunk.length = 8 then .ok ⟨leInt chunk, inI64_leInt h⟩
  else .error (.panic message)

def readF64 (message : String) (chunk : Bytes) : Reading F64 :=
  if chunk.length = 8 then .ok (F64.fromBits (UInt64.ofNat (leNat chunk)))
  else .error (.panic message)

def decodeFixedValues (count width : ℕ) : Reading DecodedColumn := do
  let type := column.dataType.logicalType
  let nulls ← decodeFixedNulls bytes validity count width
  match type with
  | .integer => do
    let values ← (chunksExact 8 bytes).mapM (readI64 "checked INTEGER width")
    .ok (.int64 values nulls)
  | .float => do
    let values ← (chunksExact 8 bytes).mapM (readF64 "checked FLOAT width")
    .ok (.float64 values nulls)
  | .timestamp | .civilTimestamp | .time => do
    let values ← (chunksExact 8 bytes).mapM (readI64 "checked temporal width")
    .ok (.timestampNanos values type nulls)
  | .boolean =>
    if (bytes.zip nulls).any (fun row => !row.2 && 1 < row.1) then
      refuse "BOOLEAN value bytes are invalid"
    else .ok (.boolean (bytes.map (· == 1)) nulls)
  | .vector | .uuid | .decimal | .date => decodeFixedExtension json column bytes width nulls
  | .text | .json | .bytes | .null =>
    refuse "fixed column payload uses a variable-width catalog type"

/-- The texts of the rows as numbers in a list of the texts that occur. -/
def internTexts : List (Option (Reading Bytes)) → List ℕ → List String →
    Reading (List ℕ × List String)
  | [], ids, dictionary => .ok (ids, dictionary)
  | none :: rows, ids, dictionary => internTexts rows (ids ++ [0]) dictionary
  | some row :: rows, ids, dictionary => do
    let bytes ← row
    match fromUtf8 bytes with
    | none => refuse "TEXT bytes are not UTF-8"
    | some text =>
      match dictionary.idxOf? text with
      | some id => internTexts rows (ids ++ [id]) dictionary
      | none =>
        if 2 ^ 32 ≤ dictionary.length then
          refuse "row-group text dictionary exceeds u32 identifiers"
        else internTexts rows (ids ++ [dictionary.length]) (dictionary ++ [text])

def decodePlainText (valueBytes : Bytes) (offsets : List ℕ) (nulls : List Bool) :
    Reading DecodedColumn := do
  let (ids, dictionary) ← internTexts (presentRows (between valueBytes offsets) nulls) [] []
  .ok (.text ids dictionary nulls)

/-- Is a row of variable width NULL? Its bytes are checked. -/
def variableNull (valueBytes validity : Bytes) (offsets : List ℕ) (index : ℕ) : Reading Bool := do
  let valid ← isValid validity index
  if valid then do
    let bytes ← between valueBytes offsets index
    if column.dataType.externalTypeRef.isSome then validateExternalBytes column bytes
    else validateVariableBytes json column column.dataType.logicalType bytes
    .ok false
  else do
    let start ← Checked.index offsets index
    let stop ← Checked.index offsets (index + 1)
    if start ≠ stop then refuse "NULL variable value owns bytes" else .ok true

def decodeVariableValues (offsetBytes valueBytes validity : Bytes)
    (count : ℕ) : Reading DecodedColumn := do
  let offsets ← decodeOffsets offsetBytes count valueBytes.length
  let type := column.dataType.logicalType
  let nulls ← (range count).mapM (variableNull json column valueBytes validity offsets)
  if column.dataType.externalTypeRef.isSome then copyExternalBytes column valueBytes offsets nulls
  else
    match type with
    | .text => decodePlainText valueBytes offsets nulls
    | .json | .bytes => copyVariableBytes valueBytes offsets nulls type
    | _ => refuse "variable column payload uses a fixed-width catalog type"

/-- The part of `decode_plain` that comes after the header. -/
def decodePlainValues (layout count offsetsLength valuesLength validityEnd offsetsEnd : ℕ) :
    Reading DecodedColumn := do
  let values ← Checked.slice bytes offsetsEnd bytes.length
  match layout, columnWidth column with
  | 1, some width => do
    let expected ← Checked.mul count width
    if offsetsLength = 0 ∧ valuesLength = expected then
      decodeFixedValues json column values validity count width
    else refuse "plain column layout/type/length combination is invalid"
  | 2, none => do
    let expected ← Checked.mul (count + 1) 4
    if offsetsLength = expected then do
      let offsets ← Checked.slice bytes validityEnd offsetsEnd
      decodeVariableValues json column offsets values validity count
    else refuse "plain column layout/type/length combination is invalid"
  | _, _ => refuse "plain column layout/type/length combination is invalid"

def decodePlain (group : DataRowGroup) (bytes : Bytes) : Reading DecodedColumn :=
  if bytes.length < plainHeaderBytes ∨ bytes.take 4 ≠ plainMagic then
    refuse "plain column header is missing"
  else do
    let version ← word 2 bytes 4
    let reserved ← word 4 bytes 28
    if version ≠ 1 ∨ reserved ≠ 0 then refuse "plain column version/reserved field is invalid"
    else do
      let layout ← word 2 bytes 6
      let count ← word 4 bytes 8
      if count ≠ group.rowCount then refuse "plain column item count mismatch"
      else do
        let validityLength ← word 4 bytes 12
        if validityLength ≠ validityBytes count then
          refuse "plain column validity length mismatch"
        else do
          let offsetsLength ← word 4 bytes 16
          let valuesLength ← word 8 bytes 20
          let validityEnd ← Checked.checkedAdd plainHeaderBytes validityLength
            (.invalid "plain validity range overflows")
          let offsetsEnd ← Checked.checkedAdd validityEnd offsetsLength
            (.invalid "plain offset range overflows")
          let valuesEnd ← Checked.checkedAdd offsetsEnd valuesLength
            (.invalid "plain value range overflows")
          if valuesEnd ≠ bytes.length then
            refuse "plain column ranges do not own exact payload"
          else do
            let validity ← Checked.slice bytes plainHeaderBytes validityEnd
            validateValidity validity count column.nullable
            decodePlainValues json column bytes validity layout count offsetsLength valuesLength
              validityEnd offsetsEnd

/-- The values of a dictionary are sorted, and each is there once. -/
def checkDictionary (bytes : Bytes) : List ℕ → Reading Unit
  | a :: b :: c :: offsets => do
    let left ← Checked.slice bytes a b
    let right ← Checked.slice bytes b c
    if compareBytes left right ≠ .lt then refuse "dictionary values are not sorted unique"
    else checkDictionary bytes (b :: c :: offsets)
  | _ => .ok ()

/-- The code of a row, counted from 0, and whether the row is NULL. -/
def readCode (dictionaryEnd distinct index : ℕ) : Reading (ℕ × Bool) := do
  let skipped ← Checked.mul index 4
  let offset ← Checked.add dictionaryEnd skipped
  let code ← word 4 bytes offset
  let valid ← isValid validity index
  if valid then
    if code = 0 ∨ distinct < code then refuse "non-NULL dictionary code is out of range"
    else .ok (code - 1, false)
  else if code ≠ 0 then refuse "NULL dictionary row has a non-zero code"
  else .ok (0, true)

/-- How many bytes the values of the rows take. -/
def expandedLength (offsets : List ℕ) : List (ℕ × Bool) → ℕ → Reading ℕ
  | [], total => .ok total
  | (_, true) :: rows, total => expandedLength offsets rows total
  | (code, false) :: rows, total => do
    let stop ← Checked.index offsets (code + 1)
    let start ← Checked.index offsets code
    if stop < start then .error (.panic "attempt to subtract with overflow")
    else do
      let total ← Checked.checkedAdd total (stop - start)
        (.invalid "expanded dictionary bytes overflow")
      expandedLength offsets rows total

def expandDictionaryBytes (dictionaryBytes : Bytes) (offsets : List ℕ) (rows : List (ℕ × Bool))
    (type : DataType) : Reading DecodedColumn := do
  let required ← expandedLength offsets rows 0
  if maxLogicalBytesPerBlock < required then
    Checked.fail (.limit "expanded dictionary bytes" required maxLogicalBytesPerBlock)
  else do
    let (data, places) ← copyRows (rows.map fun row =>
      if row.2 then none else some (between dictionaryBytes offsets row.1)) [] []
    .ok (.bytes data places type (rows.map Prod.snd))

/-- The texts of a dictionary. -/
def dictionaryTexts (bytes : Bytes) (offsets : List ℕ) (distinct : ℕ) : Reading (List String) :=
  (range distinct).mapM fun index => do
    let text ← between bytes offsets index
    match fromUtf8 text with
    | some s => .ok s
    | none => refuse "TEXT bytes are not UTF-8"

/-- The part of `decode_dictionary` that comes after the header. -/
def decodeDictionaryRows (bytes validity dictionaryBytes : Bytes)
    (offsets : List ℕ) (dictionaryEnd count distinct : ℕ) : Reading DecodedColumn := do
  checkDictionary dictionaryBytes offsets
  let nulls ← readNulls validity count
  if nulls.count false < distinct then refuse "dictionary has more values than non-NULL rows"
  else do
    let rows ← (range count).mapM (readCode bytes validity dictionaryEnd distinct)
    match column.dataType.logicalType with
    | .text => do
      let dictionary ← dictionaryTexts dictionaryBytes offsets distinct
      .ok (.text (rows.map Prod.fst) dictionary (rows.map Prod.snd))
    | type => do
      (range distinct).forM fun index => do
        let value ← between dictionaryBytes offsets index
        validateExtensionBytes json column type value
      expandDictionaryBytes dictionaryBytes offsets rows type

def decodeDictionary (group : DataRowGroup) (bytes : Bytes) : Reading DecodedColumn :=
  if column.dataType.externalTypeRef.isSome then
    refuse "dictionary block is not admitted for external types"
  else if !isDictionaryType column.dataType.logicalType then
    refuse "dictionary block is not allowed for column type"
  else if bytes.length < dictionaryHeaderBytes ∨ bytes.take 4 ≠ dictionaryMagic then
    refuse "dictionary column header is missing"
  else do
    let version ← word 2 bytes 4
    let flags ← word 2 bytes 6
    let reserved ← word 4 bytes 36
    if version ≠ 1 ∨ flags ≠ 0 ∨ reserved ≠ 0 then
      refuse "dictionary version/flags/reserved field is invalid"
    else do
      let count ← word 4 bytes 8
      let distinct ← word 4 bytes 12
      if count ≠ group.rowCount ∨ count < distinct ∨ maxDictionaryItemsPerBlock < distinct then
        refuse "dictionary item counts are invalid"
      else do
        let validityLength ← word 4 bytes 16
        let offsetsLength ← word 4 bytes 20
        let dictionaryLength ← word 8 bytes 24
        let codesLength ← word 4 bytes 32
        if validityLength ≠ validityBytes count ∨ offsetsLength ≠ (distinct + 1) * 4 ∨
            codesLength ≠ count * 4 then
          refuse "dictionary component lengths are invalid"
        else do
          let validityEnd ← Checked.checkedAdd dictionaryHeaderBytes validityLength
            (.invalid "dictionary validity range overflows")
          let offsetsEnd ← Checked.checkedAdd validityEnd offsetsLength
            (.invalid "dictionary offset range overflows")
          let dictionaryEnd ← Checked.checkedAdd offsetsEnd dictionaryLength
            (.invalid "dictionary value range overflows")
          let codesEnd ← Checked.checkedAdd dictionaryEnd codesLength
            (.invalid "dictionary code range overflows")
          if codesEnd ≠ bytes.length then refuse "dictionary ranges do not own exact payload"
          else do
            let validity ← Checked.slice bytes dictionaryHeaderBytes validityEnd
            validateValidity validity count column.nullable
            let offsetBytes ← Checked.slice bytes validityEnd offsetsEnd
            let offsets ← decodeOffsets offsetBytes distinct dictionaryLength
            let dictionaryBytes ← Checked.slice bytes offsetsEnd dictionaryEnd
            decodeDictionaryRows json column bytes validity dictionaryBytes offsets dictionaryEnd
              count distinct

def decodeTypedColumnPayload (lz4 : Lz4) (column : DataColumnSpec) (group : DataRowGroup)
    (block : DataBlockRef) (stored : Bytes) : Reading DecodedColumn :=
  if block.itemCount ≠ group.rowCount then refuse "column block count differs from row group"
  else do
    let logical ← decodePhysical lz4 stored block
    match block.layout with
    | .plainValues => decodePlain json column group logical
    | .dictionaryValues => decodeDictionary json column group logical
    | _ => refuse "column block uses a non-column logical layout"

def decodeColumnPayload (lz4 : Lz4) (column : DataColumnSpec) (group : DataRowGroup)
    (block : DataBlockRef) (stored : Bytes) : Reading (List Value) := do
  let decoded ← decodeTypedColumnPayload json lz4 column group block stored
  decoded.intoValues

end

end Column

end RadixDb
