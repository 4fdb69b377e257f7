import RadixDb.Db.System

/-!
# Transactions on a table

A transaction keeps what it writes to a table in a `TransactionVersionStore` (private.rs): its own
versions of each row, oldest first, and a write set that says of each row what the transaction
knew of it when it first wrote or claimed it. A write of a row that the transaction reads claims
the row in the parent store; a write of a row that it does not read claims nothing. A commit checks
the write set against the parent store and then publishes the newest version of each row; claims
are given back later, when the registry has completed the transaction and the store is dropped.

`TxnDb` is a table, its registry and the stores of all transactions. A write that reads the table
may have to wait for a claim between the read and the claim; the read can therefore be a step of
its own (`fetch`), and so can the read of a caller that hands the original version to
`put_with_original`. `moment` counts steps and each observation is stamped with it; the code has
neither.

The calls about UNIQUE keys that a write makes on its way enter as their result (`reserved`).
-/

namespace RadixDb

variable {V : Type}

/-! ## The write set -/

/-- What a transaction knew of a row when it first touched it. -/
inductive WriteObservation where
  | absent
  | hotVersion
  | claimedExisting
deriving DecidableEq, Repr

structure WriteSetEntry (V : Type) where
  observation : WriteObservation
  readVersion : Option (RowVersion V)
  /-- The moment of the read behind the observation. -/
  observedAt : Nat

/-- A point read and its moment. -/
structure ReadResult (V : Type) where
  version : Option (RowVersion V)
  moment : Nat

namespace WriteSetEntry

def fromRead (read : ReadResult V) : WriteSetEntry V :=
  ⟨if read.version.isSome then .hotVersion else .absent, read.version, read.moment⟩

def claimed (moment : Nat) : WriteSetEntry V := ⟨.claimedExisting, none, moment⟩

/-- `put_with_original` completes the entry of a row that was claimed before it was read. -/
def complete (e : WriteSetEntry V) (read : ReadResult V) : WriteSetEntry V :=
  if e.readVersion.isNone then ⟨.hotVersion, read.version, read.moment⟩ else e

end WriteSetEntry

/-! ## A transaction's store -/

structure TransactionVersionStore (V : Type) where
  /-- The versions of each row, oldest first. -/
  localVersions : Table Int (List (PublishedVersion V))
  writeSet : Table Int (WriteSetEntry V)
  /-- Rows claimed without a version, with the time of the claim, newest first. -/
  externalClaimJournal : List (Int × Int)
  terminal : Bool

namespace TransactionVersionStore

def new : TransactionVersionStore V := ⟨∅, ∅, [], false⟩

/-- What is left of a store once it is rolled back or dropped. -/
def closed : TransactionVersionStore V := ⟨∅, ∅, [], true⟩

variable (tx : TransactionVersionStore V)

/-- The transaction's newest version of a row. -/
def getLocalVersion (rowId : Int) : Option (PublishedVersion V) :=
  (tx.localVersions.lookup rowId).bind List.getLast?

/-- Add a version to a row's history, or begin one. -/
def push (rowId : Int) (version : PublishedVersion V) : TransactionVersionStore V :=
  { tx with
    localVersions := tx.localVersions.insert rowId
      ((tx.localVersions.lookup rowId).getD [] ++ [version]) }

def setEntry (rowId : Int) (entry : WriteSetEntry V) : TransactionVersionStore V :=
  { tx with writeSet := tx.writeSet.insert rowId entry }

def removeEntry (rowId : Int) : TransactionVersionStore V :=
  { tx with writeSet := tx.writeSet.erase rowId }

/-- What a commit publishes: the newest version of each row, in row order. -/
def prepareCommit : Batch V :=
  tx.localVersions.sortedKeys.filterMap fun row => (tx.getLocalVersion row).map fun v => (row, v)

end TransactionVersionStore

/-- The version a write creates. -/
def writtenVersion (txnId : Int) (data : List V) (isDelete : Bool) (now : Int) :
    PublishedVersion V :=
  if isDelete then ⟨.newDeletedWithTimestamp txnId data now, .inr rfl⟩
  else .live txnId data now

/-- The creator of a row's newest version. -/
def VersionStore.getLatestVersionId (s : VersionStore V) (rowId : Int) : Option Int :=
  if s.closed then none else (s.chain? rowId).map (·.head.version.txnId)

/-! ## Conflict detection -/

/-- The check of one row of the write set. -/
def WriteSetEntry.detectConflict (e : WriteSetEntry V) (db : Db V) (txnId row : Int) :
    Except StoreError Unit :=
  match e.observation with
  | .hotVersion =>
    match e.readVersion with
    | none =>
      .error (.internal
        s!"invalid write-set provenance: row {row} has HotVersion without payload")
    | some read =>
      match db.store.getLatestVersionId row with
      | some latest =>
        if latest ≠ read.txnId then
          .error (.internal s!"write conflict: row {row} was modified by another transaction")
        else .ok ()
      -- the row has gone to cold storage
      | none => .ok ()
  | .absent =>
    if (db.store.hasAnyVisibleVersion (db.sees txnId) [row]).isSome then
      .error (.internal
        s!"write conflict: row {row} was concurrently inserted by another transaction")
    else .ok ()
  | .claimedExisting => .ok ()

/-- The first conflict of the rows, in turn. -/
def TransactionVersionStore.detectConflictsIn (tx : TransactionVersionStore V) (db : Db V)
    (txnId : Int) : List Int → Except StoreError Unit
  | [] => .ok ()
  | row :: rest =>
    match tx.writeSet.lookup row with
    | none => tx.detectConflictsIn db txnId rest
    | some e =>
      match e.detectConflict db txnId row with
      | .error err => .error err
      | .ok () => tx.detectConflictsIn db txnId rest

/-- `detect_conflicts_safe`. The code goes over the write set in no particular order. -/
def TransactionVersionStore.detectConflictsSafe (tx : TransactionVersionStore V) (db : Db V)
    (txnId : Int) : Except StoreError Unit :=
  tx.detectConflictsIn db txnId tx.writeSet.sortedKeys

/-! ## The system -/

structure TxnDb (V : Type) where
  db : Db V
  stores : Int → TransactionVersionStore V
  /-- Reads that a transaction has made for a write to come. -/
  reads : Int → Table Int (ReadResult V)
  moment : Nat

namespace TxnDb

def registry (s : TxnDb V) : TransactionRegistry := s.db.registry

section

variable (s : TxnDb V)

def setStore (t : Int) (tx : TransactionVersionStore V) : TxnDb V :=
  { s with stores := Function.update s.stores t tx }

def setParent (parent : VersionStore V) : TxnDb V :=
  { s with db := { s.db with store := parent } }

variable (t row : Int)

/-- The read behind a write: the one that was made for it, or one made now. -/
def readFor : ReadResult V :=
  ((s.reads t).lookup row).getD ⟨s.db.getVisibleVersion t row, s.moment⟩

def fetch : TxnDb V :=
  { s with
    reads := Function.update s.reads t
      ((s.reads t).insert row ⟨s.db.getVisibleVersion t row, s.moment⟩) }

/-- A write has used up its read. -/
def dropRead : TxnDb V :=
  { s with reads := Function.update s.reads t ((s.reads t).erase row) }

/-- The body of a first write of a row: claim it if it exists, reserve its UNIQUE keys, and record
the observation and the version. A reservation that fails gives the claim back. -/
def putFirst (version : PublishedVersion V) (read : ReadResult V)
    (reserved : Except StoreError Unit) : TxnDb V × Except StoreError Unit :=
  let claim := if read.version.isSome then s.db.store.tryClaimRow row t else (s.db.store, .ok ())
  match claim.2 with
  | .error e => (s.setParent claim.1, .error e)
  | .ok () =>
    match reserved with
    | .error e =>
      let parent := if read.version.isSome then claim.1.releaseRowClaim row t else claim.1
      (s.setParent parent, .error e)
    | .ok () =>
      ((s.setParent claim.1).setStore t (((s.stores t).setEntry row (.fromRead read)).push
        row version), .ok ())

/-- `put_internal`: a row that the transaction has written or claimed before just gets the new
version. -/
def putInternal (version : PublishedVersion V)
    (reserved : Except StoreError Unit) : TxnDb V × Except StoreError Unit :=
  let tx := s.stores t
  if tx.terminal then (s, .error .transactionClosed)
  else if row ∈ tx.localVersions ∨ row ∈ tx.writeSet then
    match reserved with
    | .error e => (s, .error e)
    | .ok () => (s.setStore t (tx.push row version), .ok ())
  else (s.dropRead t row).putFirst t row version (s.readFor t row) reserved

/-- `put_with_original`: the caller has read the row. Without such a read there is no call. -/
def putWithOriginal (version : PublishedVersion V)
    (reserved : Except StoreError Unit) : TxnDb V × Except StoreError Unit :=
  let tx := s.stores t
  if tx.terminal then (s, .error .transactionClosed)
  else if row ∈ tx.localVersions then
    match reserved with
    | .error e => (s, .error e)
    | .ok () => (s.setStore t (tx.push row version), .ok ())
  else
    match tx.writeSet.lookup row with
    | none => (s.dropRead t row).putFirst t row version (s.readFor t row) reserved
    | some entry =>
      -- the entry is completed before the reservation is known to succeed
      let tx := tx.setEntry row (entry.complete (s.readFor t row))
      match reserved with
      | .error e => ((s.dropRead t row).setStore t tx, .error e)
      | .ok () => ((s.dropRead t row).setStore t (tx.push row version), .ok ())

/-! ### Claims without versions -/

/-- Remember a row that was claimed directly. -/
def trackExternalClaim (t row now : Int) : TxnDb V :=
  let tx := s.stores t
  s.setStore t { tx.setEntry row (.claimed s.moment) with
    externalClaimJournal := (row, now) :: tx.externalClaimJournal }

/-- Give a row's claim back and forget its entry. -/
def forgetRow : TxnDb V :=
  (s.setParent (s.db.store.releaseRowClaim row t)).setStore t ((s.stores t).removeEntry row)

end

/-- Take back a claim of this statement. -/
def undoClaim (t : Int) (s : TxnDb V) (row : Int) : TxnDb V :=
  let s := s.forgetRow t row
  let tx := s.stores t
  s.setStore t { tx with
    externalClaimJournal := tx.externalClaimJournal.filter fun p => p.1 ≠ row }

/-- Claim rows in turn; the first that fails takes back what this call has claimed so far. -/
def claimRowsLoop (t now : Int) : List Int → List Int → TxnDb V → TxnDb V × Except StoreError Unit
  | [], _, s => (s, .ok ())
  | row :: rest, claimedHere, s =>
    if row ∈ (s.stores t).writeSet then claimRowsLoop t now rest claimedHere s
    else
      match s.db.store.tryClaimRow row t with
      | (_, .error e) => (claimedHere.foldl (undoClaim t) s, .error e)
      | (parent, .ok ()) =>
        claimRowsLoop t now rest (row :: claimedHere)
          ((s.setParent parent).trackExternalClaim t row now)

def claimRowsForOperation (s : TxnDb V) (t : Int) (rows : List Int) (now : Int) :
    TxnDb V × Except StoreError Unit :=
  if (s.stores t).terminal then (s, .error .transactionClosed)
  else claimRowsLoop t now (rows.insertionSort (· ≤ ·)).dedup [] s

/-! ### Rollback -/

/-- Drop a row's versions after a time; a row without versions is given up. -/
def rollbackRow (t timestamp : Int) (s : TxnDb V) (row : Int) : TxnDb V :=
  let tx := s.stores t
  match tx.localVersions.lookup row with
  | none => s
  | some versions =>
    let kept := versions.filter fun v => v.1.createTime ≤ timestamp
    if kept.isEmpty then
      (s.setStore t { tx with localVersions := tx.localVersions.erase row }).forgetRow t row
    else s.setStore t { tx with localVersions := tx.localVersions.insert row kept }

/-- Take back the direct claims after a time. -/
def rollbackJournal (t timestamp : Int) : List (Int × Int) → TxnDb V → TxnDb V
  | [], s => s.setStore t { s.stores t with externalClaimJournal := [] }
  | (row, claimedAt) :: rest, s =>
    if timestamp < claimedAt then
      rollbackJournal t timestamp rest
        (if row ∈ (s.stores t).localVersions then s else s.forgetRow t row)
    else s.setStore t { s.stores t with externalClaimJournal := (row, claimedAt) :: rest }

def rollbackToTimestamp (s : TxnDb V) (t timestamp : Int) : TxnDb V :=
  let tx := s.stores t
  if tx.terminal then s
  else
    rollbackJournal t timestamp tx.externalClaimJournal
      (tx.localVersions.sortedKeys.foldl (rollbackRow t timestamp) s)

/-- Give back every claim of the write set. -/
def releaseAllClaims (s : TxnDb V) (t : Int) : TxnDb V :=
  s.setParent ((s.stores t).writeSet.sortedKeys.foldl (·.releaseRowClaim · t) s.db.store)

/-- The store goes away, by `rollback` or by being dropped after its commit. -/
def discard (s : TxnDb V) (t : Int) : TxnDb V := (s.releaseAllClaims t).setStore t .closed

/-! ### Commit -/

/-- `commit_retaining_claims`, without indexes. -/
def commitRetainingClaims (s : TxnDb V) (t : Int) : TxnDb V × Except StoreError Unit :=
  let tx := s.stores t
  if tx.terminal then (s, .error .transactionClosed)
  else if s.db.store.closed then (s, .error .tableClosed)
  else
    match tx.detectConflictsSafe s.db t with
    | .error e => (s, .error e)
    | .ok () =>
      ((s.setParent (s.db.store.publish tx.prepareCommit).1).setStore t
        { tx with localVersions := ∅, terminal := true }, .ok ())

end TxnDb

/-! ## Steps -/

inductive TxnOp (V : Type) where
  | registry (op : RegistryOp)
  | fetch (txnId rowId : Int)
  | put (txnId rowId : Int) (data : List V) (isDelete : Bool) (now : Int)
  | putWithOriginal (txnId rowId : Int) (data : List V) (isDelete : Bool) (now : Int)
  | claimRows (txnId : Int) (rowIds : List Int) (now : Int)
  | rollbackTo (txnId timestamp : Int)
  | commit (txnId : Int)
  | discard (txnId : Int)

inductive TxnOutcome where
  | registry (outcome : RegistryOutcome)
  | result (res : Except StoreError Unit)
  | refused
  | done

namespace TxnDb

/-- One operation on a table without UNIQUE keys. Only live transactions commit. -/
def act (s : TxnDb V) : TxnOp V → TxnDb V × TxnOutcome
  | .registry op =>
    let (world, out) := s.db.world.step op
    ({ s with db := { s.db with world := world } }, .registry out)
  | .fetch t row => (s.fetch t row, .done)
  | .put t row data isDelete now =>
    let (s, res) := s.putInternal t row (writtenVersion t data isDelete now) (.ok ())
    (s, .result res)
  | .putWithOriginal t row data isDelete now =>
    if (s.readFor t row).version.isSome then
      let (s, res) := s.putWithOriginal t row (writtenVersion t data isDelete now) (.ok ())
      (s, .result res)
    else (s, .refused)
  | .claimRows t rows now =>
    let (s, res) := s.claimRowsForOperation t rows now
    (s, .result res)
  | .rollbackTo t timestamp => (s.rollbackToTimestamp t timestamp, .done)
  | .commit t =>
    if s.registry.isLive t then
      let (s, res) := s.commitRetainingClaims t
      (s, .result res)
    else (s, .refused)
  | .discard t => (s.discard t, .done)

def step (s : TxnDb V) (op : TxnOp V) : TxnDb V × TxnOutcome :=
  let (s', out) := s.act op
  ({ s' with moment := s.moment + 1 }, out)

end TxnDb

end RadixDb
