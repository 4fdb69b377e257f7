import RadixDb.Key.Codec

/-!
# Keys of an ordered index

The key of an ordered index is a list of values, one for each key column, with their canonical
bytes. Keys are compared column by column: NULL is first or last in its column, other values are
compared as in SQL, ascending or descending. Keys that no column tells apart are compared by their
bytes.

A bound is a list of values for the first columns. A key is compared to a bound in these columns
only, so a bound of two columns stands for all keys that agree with it in both.

A comparison may be refused: the values must be as many as the columns, of their types, and
comparable. `std` prints floats, which comparisons of floats with decimals need.
-/

namespace RadixDb

inductive IndexSortDirection where
  | ascending
  | descending
deriving DecidableEq

inductive IndexNullsOrder where
  | first
  | last
deriving DecidableEq

/-- A key column, with the column of the source data that it stands for. -/
structure IndexKeyColumn where
  source : DataColumnSpec
  direction : IndexSortDirection
  nullsOrder : IndexNullsOrder

def IndexKeyColumn.logicalType (column : IndexKeyColumn) : DataType :=
  column.source.dataType.logicalType

structure OrderedIndexKey where
  bytes : Bytes
  values : List Value
  hasNullComponent : Bool

/-- The first values of keys, and whether keys with these values are within the bound. -/
structure OrderedIndexBound where
  key : OrderedIndexKey
  inclusive : Bool

/-- The types whose values are in a total order. -/
def isOrderedKeyType : DataType → Bool
  | .integer | .float | .text | .boolean | .timestamp | .civilTimestamp | .time | .uuid | .decimal
  | .date | .bytes => true
  | _ => false

def validateOrderedTypes (columns : List IndexKeyColumn) : FormatResult Unit :=
  if columns.isEmpty then .error (.invalid "ordered key descriptor is empty")
  else if columns.any fun column => !isOrderedKeyType column.logicalType then
    .error (.invalid "ordered index contains a logical type without total B-tree order")
  else .ok ()

/-- `OrderedIndexKey::from_values`. -/
def OrderedIndexKey.fromValues (json : Json) (columns : List IndexKeyColumn)
    (values : List Value) : FormatResult OrderedIndexKey := do
  validateOrderedTypes columns
  let (bytes, hasNull) ← encodeCanonicalKeySpecs json (columns.map (·.source)) values
  .ok ⟨bytes, values, hasNull⟩

/-! ## Shapes -/

/-- Is some value, NULL apart, not of the type of its column? -/
def wrongTypes (values : List Value) (columns : List IndexKeyColumn) : Bool :=
  (values.zip columns).any fun c => !c.1.isNull && c.1.dataType != c.2.logicalType

def validateKeyShape (key : OrderedIndexKey) (columns : List IndexKeyColumn) : FormatResult Unit :=
  if key.values.length ≠ columns.length then
    .error (.invalid "ordered key component count mismatch")
  else if wrongTypes key.values columns then
    .error (.invalid "ordered key value type differs from descriptor")
  else .ok ()

def validateBoundKeyShape (key : OrderedIndexKey) (columns : List IndexKeyColumn) :
    FormatResult Unit :=
  if key.values.isEmpty ∨ columns.length < key.values.length then
    .error (.invalid "ordered bound is not a non-empty leading key prefix")
  else if wrongTypes key.values columns then
    .error (.invalid "ordered bound value type differs from descriptor")
  else .ok ()

/-! ## Comparisons -/

section

variable (std : LowerExp)

/-- The values of one column. -/
def compareComponent (column : IndexKeyColumn) (left right : Value) : FormatResult Ordering :=
  match left.isNull, right.isNull with
  | true, true => .ok .eq
  | true, false => match column.nullsOrder with
    | .first => .ok .lt
    | .last => .ok .gt
  | false, true => match column.nullsOrder with
    | .first => .ok .gt
    | .last => .ok .lt
  | false, false =>
    match left.compare std right with
    | .error _ => .error (.invalid "ordered index values are not comparable")
    | .ok ordering => match column.direction with
      | .ascending => .ok ordering
      | .descending => .ok ordering.swap

/-- Column after column, until one tells the keys apart. -/
def compareColumns : List Value → List Value → List IndexKeyColumn → FormatResult Ordering
  | left :: lefts, right :: rights, column :: columns => do
    let ordering ← compareComponent std column left right
    if ordering ≠ .eq then .ok ordering else compareColumns lefts rights columns
  | _, _, _ => .ok .eq

def compareOrderedComponents (left right : List Value) (columns : List IndexKeyColumn) :
    FormatResult Ordering :=
  if left.length ≠ right.length ∨ left.length ≠ columns.length then
    .error (.invalid "ordered comparison component count mismatch")
  else compareColumns std left right columns

def compareOrderedKeys (left right : OrderedIndexKey) (columns : List IndexKeyColumn) :
    FormatResult Ordering := do
  validateKeyShape left columns
  validateKeyShape right columns
  let ordering ← compareOrderedComponents std left.values right.values columns
  if ordering ≠ .eq then .ok ordering else .ok (Bytes.compareBytes left.bytes right.bytes)

def compareOrderedKeyToBound (key bound : OrderedIndexKey) (columns : List IndexKeyColumn) :
    FormatResult Ordering := do
  validateKeyShape key columns
  validateBoundKeyShape bound columns
  compareOrderedComponents std (key.values.take bound.values.length) bound.values
    (columns.take bound.values.length)

def compareOrderedBounds (left right : OrderedIndexKey) (columns : List IndexKeyColumn) :
    FormatResult Ordering := do
  validateBoundKeyShape left columns
  validateBoundKeyShape right columns
  if left.values.length ≠ right.values.length then
    .error (.invalid "ordered lower and upper bounds have different prefix lengths")
  else
    compareOrderedComponents std left.values right.values (columns.take left.values.length)

def isBeforeLower (columns : List IndexKeyColumn) (lower : Option OrderedIndexBound)
    (key : OrderedIndexKey) : FormatResult Bool :=
  match lower with
  | none => .ok false
  | some lower => do
    match ← compareOrderedKeyToBound std key lower.key columns with
    | .lt => .ok true
    | .eq => .ok !lower.inclusive
    | .gt => .ok false

def isAfterUpper (columns : List IndexKeyColumn) (upper : Option OrderedIndexBound)
    (key : OrderedIndexKey) : FormatResult Bool :=
  match upper with
  | none => .ok false
  | some upper => do
    match ← compareOrderedKeyToBound std key upper.key columns with
    | .gt => .ok true
    | .eq => .ok !upper.inclusive
    | .lt => .ok false

end

end RadixDb
