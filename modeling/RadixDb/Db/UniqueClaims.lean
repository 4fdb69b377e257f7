import RadixDb.Db.Transaction

/-!
# UNIQUE keys

Until a commit publishes its index entries, the UNIQUE keys of a transaction's rows are guarded by
claims in a map that the table's transactions share (unique_claims.rs). A transaction keeps two maps
of its own: the keys of its current rows (`current`), and every key it has ever claimed, with the
time of the first claim (`retained`). A statement that changes keys first works out which keys it
takes and gives up, in its own final view, and then, if no other transaction holds a key it takes,
claims them all at once. A key that is given up stays claimed, so that a rollback can restore the
row that had it; a rollback to a time releases the keys that were claimed after it and that no
restored row has.

A statement that writes several rows reserves the keys of all of them and then writes row by row,
and other transactions may take steps in between: `statements` holds the rows still to be written.
A call that finds a key held by another transaction waits; here it fails at once, and a call that
succeeds after a wait is one that `waited`. What the committed index answers such a call is an
argument. Timestamps come from a strictly increasing clock.
-/

namespace RadixDb

open Function

variable {V : Type}

/-! ## Keys -/

/-- A UNIQUE index: its name, its name in lower case, its columns, and the values it takes from a
row, if the row is one it covers. -/
structure UniqueIndex (V : Type) where
  name : String
  lowerName : String
  columnNames : List String
  valuesForRow : List V → Except StoreError (Option (List V))

structure UniqueClaimKey (V : Type) where
  indexName : String
  values : List V
deriving DecidableEq, Repr

structure UniqueClaimOwner where
  txnId : Int
  rowId : Int
deriving DecidableEq, Repr

/-- The UNIQUE indexes of a table, in name order, and what they need to know of values. -/
structure UniqueSchema (V : Type) where
  indexes : List (UniqueIndex V)
  isNull : V → Bool
  render : List V → String

namespace UniqueSchema

variable (schema : UniqueSchema V)

/-- The keys that the indexes take from a row. A key with a NULL claims nothing. -/
def keysIn (row : List V) : List (UniqueIndex V) → Except StoreError (List (UniqueClaimKey V))
  | [] => .ok []
  | index :: rest =>
    match index.valuesForRow row with
    | .error e => .error e
    | .ok none => keysIn row rest
    | .ok (some values) =>
      if values.any schema.isNull then keysIn row rest
      else (keysIn row rest).map (⟨index.lowerName, values⟩ :: ·)

def uniqueKeysForRow (row : List V) : Except StoreError (List (UniqueClaimKey V)) :=
  schema.keysIn row schema.indexes

def uniqueError (key : UniqueClaimKey V) (rowId : Int) : StoreError :=
  match schema.indexes.reverse.find? fun index => index.lowerName = key.indexName with
  | some index =>
    .uniqueConstraint index.name (", ".intercalate index.columnNames) (schema.render key.values)
      rowId
  | none => .internal "active UNIQUE index identity must be present"

end UniqueSchema

/-! ## What a statement takes and gives up -/

section

variable [DecidableEq V] (schema : UniqueSchema V)

/-- The keys a statement changes, each with the row that has it in the statement's final view. -/
abbrev KeyChanges (V : Type) [DecidableEq V] := Table (UniqueClaimKey V) (Option Int)

/-- A proposed row: its id and its data, or nothing if the statement deletes it. -/
abbrev ProposedRow (V : Type) := Int × Option (List V)

/-- The owner of a key as far as the statement has come. -/
def keyOwner (current : Table (UniqueClaimKey V) Int) (changed : KeyChanges V)
    (key : UniqueClaimKey V) : Option Int :=
  (changed.lookup key).getD (current.lookup key)

/-- A row gives up a key, if it has it. -/
def removeKey (current : Table (UniqueClaimKey V) Int) (rowId : Int) (changed : KeyChanges V)
    (key : UniqueClaimKey V) : KeyChanges V :=
  let owner := keyOwner current changed key
  changed.insert key (if owner = some rowId then none else owner)

/-- All rows of the statement give up the keys of their newest versions first. -/
def removals (tx : TransactionVersionStore V) (current : Table (UniqueClaimKey V) Int) :
    List (ProposedRow V) → KeyChanges V → Except StoreError (KeyChanges V)
  | [], changed => .ok changed
  | (rowId, _) :: rest, changed =>
    match tx.getLocalVersion rowId with
    | none => removals tx current rest changed
    | some version =>
      if version.1.isDeleted then removals tx current rest changed
      else
        match schema.uniqueKeysForRow version.1.data with
        | .error e => .error e
        | .ok keys => removals tx current rest (keys.foldl (removeKey current rowId) changed)

/-- A row takes keys; none of them may be another row's. -/
def addKeys (current : Table (UniqueClaimKey V) Int) (rowId : Int) :
    List (UniqueClaimKey V) → KeyChanges V → Except StoreError (KeyChanges V)
  | [], changed => .ok changed
  | key :: rest, changed =>
    match keyOwner current changed key with
    | some conflict =>
      if conflict ≠ rowId then .error (schema.uniqueError key conflict)
      else addKeys current rowId rest (changed.insert key (some rowId))
    | none => addKeys current rowId rest (changed.insert key (some rowId))

/-- Then the rows take the keys of their proposed data. -/
def additions (current : Table (UniqueClaimKey V) Int) :
    List (ProposedRow V) → KeyChanges V → Except StoreError (KeyChanges V)
  | [], changed => .ok changed
  | (_, none) :: rest, changed => additions current rest changed
  | (rowId, some data) :: rest, changed =>
    match schema.uniqueKeysForRow data with
    | .error e => .error e
    | .ok keys =>
      match addKeys schema current rowId keys changed with
      | .error e => .error e
      | .ok changed => additions current rest changed

/-- The changes of a whole statement. -/
def keyChanges (tx : TransactionVersionStore V) (current : Table (UniqueClaimKey V) Int)
    (rows : List (ProposedRow V)) : Except StoreError (KeyChanges V) :=
  match removals schema tx current rows ∅ with
  | .error e => .error e
  | .ok changed => additions schema current rows changed

end

/-! ## Claims -/

section

variable [DecidableEq V] (schema : UniqueSchema V)

abbrev SharedUniqueClaimMap (V : Type) [DecidableEq V] :=
  Table (UniqueClaimKey V) UniqueClaimOwner

/-- A transaction's own maps. -/
structure UniqueKeys (V : Type) [DecidableEq V] where
  /-- The row that has each key now. -/
  current : Table (UniqueClaimKey V) Int
  /-- When each key was first claimed. -/
  retained : Table (UniqueClaimKey V) Int

def UniqueKeys.new : UniqueKeys V := ⟨∅, ∅⟩

/-- The surroundings of a reservation: whether it had to wait before, whether a wait for another
owner can be registered, and what the committed index answers. -/
structure Attempt (V : Type) where
  waited : Bool
  waitRegistered : Bool
  committedConflict : UniqueClaimKey V → Int → Except StoreError (Option Int)

variable (shared : SharedUniqueClaimMap V)

/-- Another transaction's claim on a key that the statement takes. -/
def foreignOwner (txnId : Int) (changed : KeyChanges V) : Option UniqueClaimOwner :=
  changed.entries.findSome? fun e =>
    if e.2.isSome then (shared.lookup e.1).filter (·.txnId ≠ txnId) else none

/-- After a wait the previous owner may have committed: ask the index about each key taken. -/
def recheck (attempt : Attempt V) :
    List (Σ _ : UniqueClaimKey V, Option Int) → Except StoreError Unit
  | [] => .ok ()
  | ⟨_, none⟩ :: rest => recheck attempt rest
  | ⟨key, some rowId⟩ :: rest =>
    match attempt.committedConflict key rowId with
    | .error e => .error e
    | .ok (some conflict) => .error (schema.uniqueError key conflict)
    | .ok none => recheck attempt rest

/-- Record the changes: keys that are taken are claimed, keys that are given up stay claimed. -/
def claimChanges (keys : UniqueKeys V) (txnId claimedAt : Int)
    (changed : KeyChanges V) : SharedUniqueClaimMap V × UniqueKeys V :=
  (shared.merge changed fun _ owner old =>
      owner.elim old fun rowId => some ⟨txnId, rowId⟩,
    { current := keys.current.merge changed fun _ owner _ => owner
      retained := keys.retained.merge changed fun _ owner old =>
        owner.elim old fun _ => some (old.getD claimedAt) })

/-- `reserve_unique_keys_for_rows`. -/
def reserveUniqueKeysForRows (keys : UniqueKeys V)
    (tx : TransactionVersionStore V) (txnId : Int) (rows : List (ProposedRow V))
    (attempt : Attempt V) (claimedAt : Int) :
    Except StoreError (SharedUniqueClaimMap V × UniqueKeys V) :=
  if rows.isEmpty then .ok (shared, keys)
  else if schema.indexes.isEmpty then .ok (shared, keys)
  else
    match keyChanges schema tx keys.current rows with
    | .error e => .error e
    | .ok changed =>
      match foreignOwner shared txnId changed with
      | some owner =>
        if attempt.waitRegistered then .error (.rowLockTimeout owner.rowId)
        else .error (.serializationConflict owner.rowId)
      | none =>
        match (if attempt.waited then recheck schema attempt changed.entries else .ok ()) with
        | .error e => .error e
        | .ok () => .ok (claimChanges shared keys txnId claimedAt changed)

/-! ### Rollback and release -/

/-- A restored row takes its keys. -/
def restoreKeys (rowId : Int) :
    List (UniqueClaimKey V) → Table (UniqueClaimKey V) Int →
      Except StoreError (Table (UniqueClaimKey V) Int)
  | [], current => .ok current
  | key :: rest, current =>
    match current.lookup key with
    | some conflict =>
      if conflict ≠ rowId then .error (schema.uniqueError key conflict)
      else restoreKeys rowId rest (current.insert key rowId)
    | none => restoreKeys rowId rest (current.insert key rowId)

/-- `rebuild_current_unique_keys`, over the rows of the transaction. -/
def rebuildCurrentUniqueKeys (tx : TransactionVersionStore V) :
    List Int → Table (UniqueClaimKey V) Int → Except StoreError (Table (UniqueClaimKey V) Int)
  | [], current => .ok current
  | rowId :: rest, current =>
    match tx.getLocalVersion rowId with
    | none => rebuildCurrentUniqueKeys tx rest current
    | some version =>
      if version.1.isDeleted then rebuildCurrentUniqueKeys tx rest current
      else
        match schema.uniqueKeysForRow version.1.data with
        | .error e => .error e
        | .ok keys =>
          match restoreKeys schema rowId keys current with
          | .error e => .error e
          | .ok current => rebuildCurrentUniqueKeys tx rest current

/-- Whether a claim is the transaction's. -/
def ownedBy (txnId : Int) (owner : Option UniqueClaimOwner) : Bool :=
  owner.any fun o => o.txnId = txnId

/-- Whether a rollback to `timestamp` releases a key. -/
def releasedBy (current : Table (UniqueClaimKey V) Int)
    (txnId timestamp : Int) (key : UniqueClaimKey V) (claimedAt : Int) : Bool :=
  (current.lookup key).isNone && decide (timestamp < claimedAt) && ownedBy txnId (shared.lookup key)

/-- `rollback_unique_keys_to`. If the rows cannot be read, nothing is released and only the
transaction's own view is cleared (`rollback_to_timestamp`). -/
def rollbackUniqueKeysTo (keys : UniqueKeys V)
    (tx : TransactionVersionStore V) (txnId timestamp : Int) :
    SharedUniqueClaimMap V × UniqueKeys V :=
  match rebuildCurrentUniqueKeys schema tx tx.localVersions.sortedKeys ∅ with
  | .error _ => (shared, { keys with current := ∅ })
  | .ok current =>
    (shared.merge keys.retained fun key claimedAt old =>
        match current.lookup key with
        | some rowId => if ownedBy txnId old then some ⟨txnId, rowId⟩ else old
        | none => if timestamp < claimedAt ∧ ownedBy txnId old = true then none else old,
      { current := current
        retained := keys.retained.retain fun key claimedAt =>
          !releasedBy shared current txnId timestamp key claimedAt })

/-- `release_retained_unique_keys`. -/
def releaseRetainedUniqueKeys (keys : UniqueKeys V)
    (txnId : Int) : SharedUniqueClaimMap V × UniqueKeys V :=
  (shared.merge keys.retained fun _ _ old => if ownedBy txnId old then none else old, .new)

end

/-! ## The system -/

/-- The statements that write several rows. -/
inductive BatchKind where
  | insertOrUpdate
  | updateWithOriginals
  | delete
  | deleteWithOriginals
deriving DecidableEq, Repr

namespace BatchKind

def isDelete : BatchKind → Bool
  | insertOrUpdate | updateWithOriginals => false
  | delete | deleteWithOriginals => true

/-- The caller has read the rows. -/
def hasOriginals : BatchKind → Bool
  | insertOrUpdate | delete => false
  | updateWithOriginals | deleteWithOriginals => true

/-- All versions of the statement carry one timestamp, taken at its start. -/
def isStamped : BatchKind → Bool
  | insertOrUpdate => false
  | _ => true

end BatchKind

/-- A statement under way: where a failure rolls back to, the timestamp of its versions if they
share one, and the rows still to be written. -/
structure Statement (V : Type) where
  kind : BatchKind
  boundary : Int
  stamp : Int
  pending : List (Int × List V)

/-- What a row becomes in a statement of a kind. -/
def proposedRow (isDelete : Bool) (p : Int × List V) : ProposedRow V :=
  (p.1, if isDelete then none else some p.2)

/-- The next timestamp (timestamp.rs, `get_fast_timestamp`). -/
def nextTimestamp (now last : Int) : Int := if last < now then now else last + 1

structure UniqueDb (V : Type) [DecidableEq V] where
  txns : TxnDb V
  shared : SharedUniqueClaimMap V
  keys : Int → UniqueKeys V
  /-- The last timestamp handed out. -/
  clock : Int
  /-- The times between statements that a transaction may roll back to. -/
  boundaries : Int → List Int
  statements : Int → Option (Statement V)

inductive UniqueOp (V : Type) where
  | registry (op : RegistryOp)
  | fetch (txnId rowId : Int)
  | claimRows (txnId : Int) (rowIds : List Int) (now : Int)
  | savepoint (txnId now : Int)
  | put (txnId rowId : Int) (data : List V) (isDelete hasOriginal : Bool) (now : Int)
      (attempt : Attempt V)
  | putBatch (txnId : Int) (kind : BatchKind) (rows : List (Int × List V)) (now : Int)
      (attempt : Attempt V)
  | writeNext (txnId now : Int)
  | rollbackTo (txnId timestamp : Int)
  | commit (txnId : Int) (indexes : Except StoreError Unit)
  | discard (txnId : Int)

namespace UniqueDb

variable [DecidableEq V] (schema : UniqueSchema V) (s : UniqueDb V)

def setKeys (t : Int) (claims : SharedUniqueClaimMap V × UniqueKeys V) : UniqueDb V :=
  { s with shared := claims.1, keys := update s.keys t claims.2 }

def setStatement (t : Int) (st : Option (Statement V)) : UniqueDb V :=
  { s with statements := update s.statements t st }

/-- A timestamp that the transaction may roll back to. -/
def addBoundary (t timestamp : Int) : UniqueDb V :=
  { s with boundaries := update s.boundaries t (timestamp :: s.boundaries t) }

def reserve (t : Int) (rows : List (ProposedRow V)) (attempt : Attempt V)
    (claimedAt : Int) : Except StoreError (SharedUniqueClaimMap V × UniqueKeys V) :=
  reserveUniqueKeysForRows schema s.shared (s.keys t) (s.txns.stores t) t rows attempt claimedAt

/-- The write itself, by either call. -/
def write (txns : TxnDb V) (t row : Int) (hasOriginal : Bool) (version : PublishedVersion V)
    (reserved : Except StoreError Unit) : TxnDb V × Except StoreError Unit :=
  if hasOriginal then txns.putWithOriginal t row version reserved
  else txns.putInternal t row version reserved

/-- The caller has read the row. -/
def hasRead (t row : Int) : Bool :=
  ((s.txns.reads t).lookup row).any (·.version.isSome)

/-- `put` and `put_with_original`. -/
def put (t row : Int) (data : List V) (isDelete hasOriginal : Bool) (now : Int)
    (attempt : Attempt V) : UniqueDb V × Except StoreError Unit :=
  let timestamp := nextTimestamp now s.clock
  let claimedAt := nextTimestamp now timestamp
  let claims := s.reserve schema t [proposedRow isDelete (row, data)] attempt claimedAt
  let written := write s.txns t row hasOriginal (writtenVersion t data isDelete timestamp)
    (claims.map fun _ => ())
  match written.2, claims with
  | .ok (), .ok claims =>
    ({ s.setKeys t claims with txns := written.1, clock := claimedAt }, .ok ())
  | res, _ => ({ s with txns := written.1, clock := timestamp }, res)

/-- The start of a statement that writes several rows. -/
def putBatch (t : Int) (kind : BatchKind) (rows : List (Int × List V))
    (now : Int) (attempt : Attempt V) : UniqueDb V × Except StoreError Unit :=
  if (s.txns.stores t).terminal then (s, .error .transactionClosed)
  else
    let boundary := nextTimestamp now s.clock
    let stamp := nextTimestamp now boundary
    let claimedAt := nextTimestamp now stamp
    match s.reserve schema t (rows.map (proposedRow kind.isDelete)) attempt claimedAt with
    | .error e => ({ s with clock := stamp }, .error e)
    | .ok claims =>
      ((({ s.setKeys t claims with clock := claimedAt }.addBoundary t boundary).setStatement t
        (if rows.isEmpty then none else some ⟨kind, boundary, stamp, rows⟩)), .ok ())

/-- `rollback_to_timestamp`. -/
def rollbackTo (t timestamp : Int) : UniqueDb V :=
  if (s.txns.stores t).terminal then s
  else
    let txns := s.txns.rollbackToTimestamp t timestamp
    { s.setKeys t (rollbackUniqueKeysTo schema s.shared (s.keys t) (txns.stores t) t timestamp) with
      txns := txns }

/-- The next row of a statement; a row that cannot be written takes the statement back. -/
def writeNext (t : Int) (st : Statement V) (row : Int) (data : List V)
    (rest : List (Int × List V)) (now : Int) : UniqueDb V × Except StoreError Unit :=
  let timestamp := if st.kind.isStamped then st.stamp else nextTimestamp now s.clock
  let written := write s.txns t row st.kind.hasOriginals
    (writtenVersion t data st.kind.isDelete timestamp) (.ok ())
  let s := { s with txns := written.1, clock := max s.clock timestamp }
  match written.2 with
  | .ok () =>
    (s.setStatement t (if rest.isEmpty then none else some { st with pending := rest }), .ok ())
  | .error e => ((s.rollbackTo schema t st.boundary).setStatement t none, .error e)

/-- The store goes away, and with it the transaction's claims. -/
def discard (s : UniqueDb V) (t : Int) : UniqueDb V :=
  { s.setKeys t (releaseRetainedUniqueKeys s.shared (s.keys t) t) with
    txns := s.txns.discard t
    boundaries := update s.boundaries t []
    statements := update s.statements t none }

/-- `commit_retaining_claims`; the update of the indexes may fail. -/
def commit (s : UniqueDb V) (t : Int) (indexes : Except StoreError Unit) :
    UniqueDb V × TxnOutcome :=
  let committed := s.txns.act (.commit t)
  match committed.2, indexes with
  | .result (.ok ()), .error e => (s, .result (.error e))
  | out, _ => ({ s with txns := committed.1 }, out)

end UniqueDb

namespace UniqueOp

/-- The transaction an operation belongs to. -/
def caller : UniqueOp V → Option Int
  | .registry _ => none
  | .fetch t _ | .claimRows t _ _ | .savepoint t _ | .put t _ _ _ _ _ _ | .putBatch t _ _ _ _
  | .writeNext t _ | .rollbackTo t _ | .commit t _ | .discard t => some t

/-- It may come in the middle of a statement. -/
def midStatement : UniqueOp V → Bool
  | .writeNext _ _ | .discard _ => true
  | _ => false

end UniqueOp

namespace UniqueDb

variable [DecidableEq V] (schema : UniqueSchema V)

/-- Transaction ids are positive, and a transaction in the middle of a statement makes no other
call. -/
def refuses (s : UniqueDb V) (op : UniqueOp V) : Bool :=
  op.caller.any fun t => decide (t ≤ 0) || (!op.midStatement && (s.statements t).isSome)

/-- An operation of the system. A transaction rolls back to times between statements only. -/
def step (s : UniqueDb V) (op : UniqueOp V) : UniqueDb V × TxnOutcome :=
  if s.refuses op then (s, .refused)
  else
    match op with
    | .registry op =>
      let (txns, out) := s.txns.act (.registry op)
      ({ s with txns := txns }, out)
    | .fetch t row => ({ s with txns := s.txns.fetch t row }, .done)
    | .claimRows t rows now =>
      let (txns, res) := s.txns.claimRowsForOperation t rows now
      ({ s with txns := txns }, .result res)
    | .savepoint t now =>
      let timestamp := nextTimestamp now s.clock
      ({ s with clock := timestamp }.addBoundary t timestamp, .done)
    | .put t row data isDelete hasOriginal now attempt =>
      if hasOriginal && !s.hasRead t row then (s, .refused)
      else
        let (s, res) := s.put schema t row data isDelete hasOriginal now attempt
        (s, .result res)
    | .putBatch t kind rows now attempt =>
      if kind.hasOriginals && !rows.all fun p => s.hasRead t p.1 then (s, .refused)
      else
        let (s, res) := s.putBatch schema t kind rows now attempt
        (s, .result res)
    | .writeNext t now =>
      match s.statements t with
      | some st =>
        match st.pending with
        | (row, data) :: rest =>
          let (s, res) := s.writeNext schema t st row data rest now
          (s, .result res)
        | [] => (s.setStatement t none, .done)
      | none => (s, .refused)
    | .rollbackTo t timestamp =>
      if timestamp ∈ s.boundaries t then (s.rollbackTo schema t timestamp, .done)
      else (s, .refused)
    | .commit t indexes => s.commit t indexes
    | .discard t => (s.discard t, .done)

end UniqueDb

end RadixDb
