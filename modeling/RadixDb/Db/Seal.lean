import RadixDb.Registry.SealVisibility
import RadixDb.Db.System
import RadixDb.Store.Scan

/-!
# Handing rows over to cold storage

A seal (read.rs, lifecycle.rs, engine/seal.rs) clones the version tree, asks the registry which
creators must stay hot, extracts rows from the clone in chunks that it writes to cold storage, and
then removes the extracted rows from the hot store: those that nobody has claimed and whose head
still has the creator it had in the clone. Transactions begin, commit and abort in between.

Without a commit-sequence cutoff the extraction looks at heads only, and fetches their data through
their slots. With one it walks down each chain to the first committed version. Each row of the
clone is a step of its own, so that anything may happen between two rows.
-/

namespace RadixDb

variable {V : Type}

open TransactionRegistry VersionStore

/-! ## Extraction -/

/-- The engine extracts as a viewer that is no transaction. -/
def sealReadTxnId : Int := invalidTransactionId + 1

/-- An extracted row. -/
structure SealedRow (V : Type) where
  rowId : Int
  data : List V

/-- With a cutoff: the first committed version of the chain, if it is old enough, may go cold and is
no delete. -/
def sealWalk (r : TransactionRegistry) (vis : SealVisibilitySnapshot) (cutoff rowId : Int) :
    List (ChainNode V) → Option (SealedRow V)
  | [] => none
  | e :: rest =>
    if r.visible e.version.txnId I64.maxValue then
      if !r.isCommittedBefore e.version.txnId cutoff then none
      else if !vis.isVisible e.version.txnId then none
      else if e.version.isDeleted && r.visible e.version.deletedAtTxnId I64.maxValue &&
          r.isCommittedBefore e.version.deletedAtTxnId cutoff &&
          vis.isVisible e.version.deletedAtTxnId then none
      else some ⟨rowId, e.version.data⟩
    else sealWalk r vis cutoff rowId rest

/-- Without one: the head, if it is committed, may go cold and is no delete; its data come from its
slot. -/
def sealHead (r : TransactionRegistry) (vis : SealVisibilitySnapshot) (arena : RowArena V)
    (rowId : Int) (c : VersionChain V) : Option (SealedRow V) :=
  if r.visible c.head.version.txnId sealReadTxnId && vis.isVisible c.head.version.txnId &&
      (!c.head.version.isDeleted || !r.visible c.head.version.deletedAtTxnId sealReadTxnId) &&
      (!c.head.version.isDeleted || vis.isVisible c.head.version.deletedAtTxnId) then
    some ⟨rowId, nodeRow arena c.head⟩
  else none

/-- What is extracted of a row of the clone. -/
def sealRow (cutoff : Option Int) (r : TransactionRegistry) (vis : SealVisibilitySnapshot)
    (arena : RowArena V) (row : Int × VersionChain V) : Option (SealedRow V) :=
  match cutoff with
  | some cutoff => sealWalk r vis cutoff row.1 row.2.nodes
  | none => sealHead r vis arena row.1 row.2

/-- A seal under way. -/
structure SealJob (V : Type) where
  /-- The clone of the tree. -/
  extraction : Table Int (VersionChain V)
  commitSeqCutoff : Option Int
  minRows : Nat
  chunkRows : Nat
  visibility : Option SealVisibilitySnapshot
  /-- The rows of the clone still to look at. -/
  entries : List (Int × VersionChain V)
  pending : List (SealedRow V)
  total : Nat
  /-- The rows of the chunks that were written. -/
  written : List (SealedRow V)
  completed : Bool

namespace SealJob

def start (store : VersionStore V) (cutoff : Option Int) (minRows chunkRows : Nat) : SealJob V where
  extraction := store.versions
  commitSeqCutoff := cutoff
  minRows := max minRows 1
  chunkRows := max chunkRows 1
  visibility := none
  entries := []
  pending := []
  total := 0
  written := []
  completed := true

def capture (j : SealJob V) (r : TransactionRegistry) (closed : Bool) : SealJob V :=
  { j with
    visibility := some r.captureSealVisibility
    entries := if closed then [] else entriesInOrder j.extraction }

/-- Hand the pending rows to the callback, which may ask to stop. -/
def emit (j : SealJob V) (accepts : Bool) : SealJob V :=
  if accepts then { j with pending := [], written := j.written ++ j.pending }
  else { j with pending := [], completed := false }

/-- Add a row, and emit a chunk when there is one. -/
def append (j : SealJob V) (x : SealedRow V) (accepts : Bool) : SealJob V :=
  let j := { j with total := j.total + 1, pending := j.pending ++ [x] }
  if j.minRows ≤ j.total ∧ j.chunkRows ≤ j.pending.length then j.emit accepts else j

/-- One row of the clone. -/
def extract (j : SealJob V) (r : TransactionRegistry) (arena : RowArena V) (accepts : Bool) :
    SealJob V :=
  match j.visibility, j.entries with
  | some vis, row :: rest =>
    if j.completed then
      match sealRow j.commitSeqCutoff r vis arena row with
      | some x => { j with entries := rest }.append x accepts
      | none => { j with entries := rest }
    else j
  | _, _ => j

/-- After the last row: the chunk that is not full. -/
def finish (j : SealJob V) (accepts : Bool) : SealJob V :=
  if j.completed ∧ j.entries = [] ∧ j.minRows ≤ j.total ∧ j.pending ≠ [] then j.emit accepts
  else j

end SealJob

/-! ## The system -/

/-- A database with a seal. `terminal` lists the transactions whose commit has reached the table:
each publishes once (private.rs, `ensure_active`). -/
structure SealDb (V : Type) where
  db : Db V
  terminal : List Int
  job : Option (SealJob V)

inductive SealOp (V : Type) where
  | registry (op : RegistryOp)
  | claim (rowId txnId : Int)
  | release (rowId txnId : Int)
  | commit (txnId : Int) (batch : Batch V)
  | clone (cutoff : Option Int) (minRows chunkRows : Nat)
  | capture
  | extract (accepts : Bool)
  | finish (accepts : Bool)
  | remove (start count : Nat)

inductive SealOutcome where
  | db (outcome : DbOutcome)
  | refused
  | removed (res : Except StoreError (Nat × List Int × List Int))
  | done

namespace SealDb

def registry (s : SealDb V) : TransactionRegistry := s.db.registry

/-- The row ids of one batch of the removal. -/
def removalBatch (j : SealJob V) (start count : Nat) : List Int :=
  ((j.written.map (·.rowId)).drop start).take count

def step (s : SealDb V) : SealOp V → SealDb V × SealOutcome
  | .registry op =>
    let (db, out) := s.db.step (.registry op)
    ({ s with db := db }, .db out)
  | .claim row t =>
    let (db, out) := s.db.step (.claim row t)
    ({ s with db := db }, .db out)
  | .release row t =>
    let (db, out) := s.db.step (.release row t)
    ({ s with db := db }, .db out)
  | .commit t batch =>
    if s.registry.isLive t = true ∧ t ∉ s.terminal ∧ ∀ p ∈ batch, p.2.1.txnId = t then
      let (db, out) := s.db.step (.publish batch)
      ({ s with db := db, terminal := t :: s.terminal }, .db out)
    else (s, .refused)
  | .clone cutoff minRows chunkRows =>
    ({ s with job := some (.start s.db.store cutoff minRows chunkRows) }, .done)
  | .capture =>
    ({ s with job := s.job.map fun j => j.capture s.registry s.db.store.closed }, .done)
  | .extract accepts =>
    ({ s with job := s.job.map fun j => j.extract s.registry s.db.store.arena accepts }, .done)
  | .finish accepts => ({ s with job := s.job.map (·.finish accepts) }, .done)
  | .remove start count =>
    match s.job with
    | none => (s, .refused)
    | some j =>
      let (store, res) := s.db.store.removeSealedRows (removalBatch j start count) j.extraction
      ({ s with db := { s.db with store := store } }, .removed res)

end SealDb

end RadixDb
