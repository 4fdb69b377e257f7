import RadixDb.Lib.OrderedMap
import RadixDb.Lib.Run
import RadixDb.Lib.Table
import RadixDb.Value.SqlOrder

/-!
# The in-memory B-tree index of one column

An index keeps two maps: from values to the rows that hold them, ordered by `Value.ordCmp`, and from
rows back to their values. Every operation holds the locks of both maps from its first look to its
last write, so operations happen one after another, and an operation that fails has not written
anything. A value is stored once: a row added with a value that is equal to a stored one refers to
the stored one.

Row lists are ascending, which is what makes the binary searches of the code look-ups.
-/

namespace RadixDb

inductive Operator where
  | eq | ne | gt | gte | lt | lte | like | inList | notIn | isNull | isNotNull
deriving DecidableEq

inductive IndexError where
  | indexClosed
  | internal (message : String)
  | uniqueConstraint (index column : String) (value : Value)

structure IndexEntry where
  rowId : ℤ
  refId : ℤ
deriving DecidableEq

/-- A row's entry has the row for its reference. -/
def IndexEntry.ofRow (rowId : ℤ) : IndexEntry := ⟨rowId, rowId⟩

structure BTreeIndex where
  name : String
  columnName : String
  unique : Bool
  closed : Bool
  sortedValues : List (Value × List ℤ)
  rowToValue : Table ℤ Value

namespace BTreeIndex

def new (name columnName : String) (unique : Bool) : BTreeIndex where
  name := name
  columnName := columnName
  unique := unique
  closed := false
  sortedValues := []
  rowToValue := ∅

def checkClosed (s : BTreeIndex) : Except IndexError Unit :=
  if s.closed then .error .indexClosed else .ok ()

/-- `binary_search` and `insert` on an ascending list. -/
def insertRow (rowId : ℤ) (rows : List ℤ) : List ℤ :=
  if rowId ∈ rows then rows else rows.orderedInsert (· ≤ ·) rowId

section

variable (std : LowerExp) (s : BTreeIndex) (value : Value) (rowId : ℤ)

/-- Take a row off the rows of a value, and the value out if it was the last one. -/
def detach : BTreeIndex :=
  { s with
    sortedValues := OrderedMap.alter (Value.ordCmp std) value (fun rows =>
      let rows := rows.erase rowId
      if rows = [] then none else some rows) s.sortedValues }

/-- The stored value that is equal to a value, or the value itself. -/
def sharedValue : Value :=
  ((OrderedMap.getKeyValue (Value.ordCmp std) value s.sortedValues).map Prod.fst).getD value

def attach : BTreeIndex :=
  let shared := s.sharedValue std value
  { s with
    sortedValues := OrderedMap.upsert (Value.ordCmp std) shared
      (fun rows => insertRow rowId (rows.getD [])) s.sortedValues
    rowToValue := s.rowToValue.insert rowId shared }

/-- Is the value, other than NULL, held by another row of a unique index? -/
def checkUnique : Except IndexError Unit :=
  if s.unique && !value.isNull then
    match OrderedMap.getKeyValue (Value.ordCmp std) value s.sortedValues with
    | some (_, rows) =>
      if rows.any (· ≠ rowId) then .error (.uniqueConstraint s.name s.columnName value) else .ok ()
    | none => .ok ()
  else .ok ()

/-- Give a row a value in place of the one it has. -/
def put : BTreeIndex :=
  match s.rowToValue.lookup rowId with
  | some old =>
    if old.eq std value then s else (s.detach std old rowId).attach std value rowId
  | none => s.attach std value rowId

def add (values : List Value) (rowId : ℤ) : Except IndexError BTreeIndex := do
  s.checkClosed
  match values with
  | [value] =>
    if (s.rowToValue.lookup rowId).any (·.eq std value) then .ok s
    else
      s.checkUnique std value rowId
      .ok (s.put std value rowId)
  | _ => .error (.internal s!"expected 1 value, got {values.length}")

/-- Take a row out, if it is there. -/
def drop : BTreeIndex :=
  match s.rowToValue.lookup rowId with
  | some value => { s.detach std value rowId with rowToValue := s.rowToValue.erase rowId }
  | none => s

def remove : Except IndexError BTreeIndex := do
  s.checkClosed
  .ok (s.drop std rowId)

/-- No value other than NULL occurs in two rows of the batch. `seen` has the values met so far. -/
def checkBatchDuplicates : List (Value × ℤ) → List (ℤ × Value) → Except IndexError Unit
  | _, [] => .ok ()
  | seen, (rowId, value) :: entries =>
    if value.isNull then checkBatchDuplicates seen entries
    else if (seen.find? fun e => e.1.eq std value).any (·.2 ≠ rowId) then
      .error (.uniqueConstraint s.name s.columnName value)
    else checkBatchDuplicates ((value, rowId) :: seen) entries

def addBatchSlice (entries : List (ℤ × List Value)) : Except IndexError BTreeIndex :=
  if entries = [] then .ok s
  else do
    s.checkClosed
    match entries.find? fun e => e.2.length ≠ 1 with
    | some e => .error (.internal s!"expected 1 value, got {e.2.length}")
    | none =>
      let entries := entries.filterMap fun e => e.2.head?.map fun value => (e.1, value)
      if s.unique then
        entries.forM fun e => s.checkUnique std e.2 e.1
        s.checkBatchDuplicates std [] entries
      .ok (entries.foldl (fun s e => s.put std e.2 e.1) s)

def removeBatchSlice (entries : List (ℤ × List Value)) : Except IndexError BTreeIndex :=
  if entries = [] then .ok s
  else do
    s.checkClosed
    .ok (entries.foldl (fun s e => s.drop std e.1) s)

/-! ## Queries -/

/-- The rows of some entries, one after another. -/
def rowIds (entries : List (Value × List ℤ)) : List ℤ := entries.flatMap Prod.snd

def findWithOp (op : Operator) (value : Value) : List ℤ :=
  match op with
  | .eq | .inList =>
    rowIds (OrderedMap.getKeyValue (Value.ordCmp std) value s.sortedValues).toList
  | .lt =>
    rowIds (OrderedMap.range (Value.ordCmp std) s.sortedValues .unbounded (.excluded value))
  | .lte =>
    rowIds (OrderedMap.range (Value.ordCmp std) s.sortedValues .unbounded (.included value))
  | .gt =>
    rowIds (OrderedMap.range (Value.ordCmp std) s.sortedValues (.excluded value) .unbounded)
  | .gte =>
    rowIds (OrderedMap.range (Value.ordCmp std) s.sortedValues (.included value) .unbounded)
  | .ne | .notIn => rowIds (s.sortedValues.filter fun e => !e.1.eq std value)
  | .like => []
  | .isNull => rowIds (s.sortedValues.filter fun e => e.1.isNull)
  | .isNotNull => rowIds (s.sortedValues.filter fun e => !e.1.isNull)

def findWithOperator (op : Operator) (values : List Value) :
    Except IndexError (List IndexEntry) := do
  s.checkClosed
  match values with
  | [] => .ok []
  | value :: _ => .ok ((s.findWithOp std op value).map .ofRow)

/-- Bounds that no value is between: a tree must not be asked for such a range. -/
def crossing (min max : Value) (minInclusive maxInclusive : Bool) : Bool :=
  match min.ordCmp std max with
  | .gt => true
  | .eq => !minInclusive || !maxInclusive
  | .lt => false

/-- Where a bound is missing nothing crosses. -/
def crossingBounds (min max : Option Value) (minInclusive maxInclusive : Bool) : Bool :=
  match min, max with
  | some min, some max => crossing std min max minInclusive maxInclusive
  | _, _ => false

def boundOf (inclusive : Bool) : OrderedMap.Bound Value :=
  if inclusive then .included value else .excluded value

def findRange (min max : List Value) (minInclusive maxInclusive : Bool) :
    Except IndexError (List IndexEntry) := do
  s.checkClosed
  match min, max with
  | min :: _, max :: _ =>
    if crossing std min max minInclusive maxInclusive then .ok []
    else .ok ((rowIds (OrderedMap.range (Value.ordCmp std) s.sortedValues
      (boundOf min minInclusive) (boundOf max maxInclusive))).map .ofRow)
  | _, _ => .ok []

/-- `get_row_ids_in_range_into`. A missing bound does not bound. -/
def getRowIdsInRangeInto (minValue maxValue : List Value) (includeMin includeMax : Bool)
    (buffer : List ℤ) : Except IndexError (List ℤ) := do
  s.checkClosed
  if crossingBounds std minValue.head? maxValue.head? includeMin includeMax then .ok buffer
  else
    let minBound := minValue.head?.elim .unbounded (boundOf · includeMin)
    let maxBound := maxValue.head?.elim .unbounded (boundOf · includeMax)
    .ok (buffer ++
      rowIds (OrderedMap.range (Value.ordCmp std) s.sortedValues minBound maxBound))

end

/-! ## Runs -/

inductive Command where
  | add (values : List Value) (rowId : ℤ)
  | remove (rowId : ℤ)
  | addBatchSlice (entries : List (ℤ × List Value))
  | removeBatchSlice (entries : List (ℤ × List Value))

/-- What is in the column of each row, as the caller knows it. -/
abbrev Rows := ℤ → Option Value

namespace Command

/-- The values that a command brings. -/
def values : Command → List Value
  | .add values _ => values
  | .addBatchSlice entries => entries.flatMap Prod.snd
  | .remove _ | .removeBatchSlice _ => []

def run (std : LowerExp) (s : BTreeIndex) : Command → Except IndexError BTreeIndex
  | .add values rowId => s.add std values rowId
  | .remove rowId => s.remove std rowId
  | .addBatchSlice entries => s.addBatchSlice std entries
  | .removeBatchSlice entries => s.removeBatchSlice std entries

/-- What a command that succeeds does to the rows. -/
def apply (t : Rows) : Command → Rows
  | .add values rowId => Function.update t rowId values.head?
  | .remove rowId => Function.update t rowId none
  | .addBatchSlice entries => entries.foldl (fun t e => Function.update t e.1 e.2.head?) t
  | .removeBatchSlice entries => entries.foldl (fun t e => Function.update t e.1 none) t

end Command

/-- An index and the rows it is for. A command that fails changes neither. -/
def step (std : LowerExp) (x : BTreeIndex × Rows) (c : Command) :
    (BTreeIndex × Rows) × Except IndexError Unit :=
  match c.run std x.1 with
  | .ok s => ((s, c.apply x.2), .ok ())
  | .error e => (x, .error e)

end BTreeIndex

end RadixDb
