import RadixDb.Lib.I64
import RadixDb.Lib.Table
import RadixDb.Store.Arena

/-!
# The version store: contents and mutations

`VersionStore` (version_store/committed.rs, lifecycle.rs) maps row ids to version chains and keeps
the newest live data of each chain in an arena slot. The slot is reused in place by the next
version of the row, so a chain's older versions carry their own data and no slot.

What the store asks its registry is collected in `VisibilityChecker`, the trait of the source. The
clock is an argument (`now`).
-/

namespace RadixDb

variable {V : Type}

/-- How a store call fails. -/
inductive StoreError where
  | tableClosed
  | tableHasActiveTransactions
  | rowLockTimeout (rowId : Int)
  | serializationConflict (rowId : Int)
  | transactionClosed
  | uniqueConstraint (index column value : String) (rowId : Int)
  | internal (message : String)
deriving DecidableEq, Repr

/-- The registry as the store sees it. -/
structure VisibilityChecker where
  /-- `isVisible version viewer`. -/
  isVisible : Int → Int → Bool
  getActiveTransactionIds : List Int

structure VersionStore (V : Type) where
  closed : Bool
  maxVersionHistory : Nat
  versions : Table Int (VersionChain V)
  arena : RowArena V
  /-- Row claims: which transaction may write a row. -/
  uncommittedWrites : Table Int Int
  committedRowCount : Int

namespace VersionStore

def new : VersionStore V := ⟨false, 0, ∅, RowArena.new, ∅, 0⟩

variable (s : VersionStore V)

/-- The chain of a row. -/
def chain? (rowId : Int) : Option (VersionChain V) := s.versions.lookup rowId

/-! ## Publication -/

/-- With a history limit, a chain that would exceed it loses its older versions. -/
def canReuseArena (existing : VersionChain V) : Bool :=
  decide (0 < s.maxVersionHistory) && decide (s.maxVersionHistory < existing.depth + 1)

/-- A delete without data takes over the data of the version it deletes. -/
def inheritData (version existing : RowVersion V) : RowVersion V :=
  if version.isDeleted && version.data.isEmpty then { version with data := existing.data }
  else version

/-- Put a live version's data into the row's slot, or into a new one. -/
def storeLive (a : RowArena V) (slot : Option Nat) (rowId : Int) (version : RowVersion V) :
    RowArena V × Nat :=
  match slot with
  | some idx => (a.updateAt idx rowId version.txnId version.data, idx)
  | none => a.insertArc rowId version.txnId version.data

/-- Mark the slot of a row that a version deletes. -/
def markSlot (a : RowArena V) (slot : Option Nat) (version : RowVersion V) : RowArena V :=
  match slot with
  | some idx => a.markDeleted idx version.txnId
  | none => a

/-- The change of the row count when `version` goes on top of a head. -/
def countDelta (wasDeleted isDeleted : Bool) : Int :=
  if wasDeleted && !isDeleted then 1 else if !wasDeleted && isDeleted then -1 else 0

/-- Publish one version of a row: the body shared by `add_version`, `add_version_single` and each
turn of `add_versions_batch`. -/
def addVersionInner (rowId : Int) (version : RowVersion V) : VersionStore V :=
  match s.versions.lookup rowId with
  | some existing =>
    let version := inheritData version existing.head.version
    let prev :=
      if s.canReuseArena existing then [] else ⟨existing.head.version, none⟩ :: existing.prev
    let count :=
      s.committedRowCount + countDelta existing.head.version.isDeleted version.isDeleted
    if version.isDeleted then
      { s with
        versions := s.versions.insert rowId ⟨⟨version, existing.head.arenaIdx⟩, prev⟩
        arena := markSlot s.arena existing.head.arenaIdx version
        committedRowCount := count }
    else
      let stored := storeLive s.arena existing.head.arenaIdx rowId version
      { s with
        versions := s.versions.insert rowId ⟨⟨version, some stored.2⟩, prev⟩
        arena := stored.1
        committedRowCount := count }
  | none =>
    if version.isDeleted then
      { s with versions := s.versions.insert rowId ⟨⟨version, none⟩, []⟩ }
    else
      let stored := storeLive s.arena none rowId version
      { s with
        versions := s.versions.insert rowId ⟨⟨version, some stored.2⟩, []⟩
        arena := stored.1
        committedRowCount := s.committedRowCount + 1 }

/-- Every mutation is refused on a closed table. -/
def guarded {α : Type} (s : VersionStore V) (run : VersionStore V × α) :
    VersionStore V × Except StoreError α :=
  if s.closed then (s, .error .tableClosed) else (run.1, .ok run.2)

def addVersion (rowId : Int) (version : PublishedVersion V) :
    VersionStore V × Except StoreError Unit :=
  s.guarded (s.addVersionInner rowId version.1, ())

def addVersionSingle (rowId : Int) (version : PublishedVersion V) :
    VersionStore V × Except StoreError Unit :=
  s.guarded (s.addVersionInner rowId version.1, ())

/-- All versions, one after the other. -/
def addAll (batch : Batch V) : VersionStore V :=
  batch.foldl (fun s p => s.addVersionInner p.1 p.2.1) s

def addVersionsBatch (batch : Batch V) : VersionStore V × Except StoreError Unit :=
  s.guarded (s.addAll batch, ())

/-! ## Claims -/

/-- Claim a row for writing. A claim held by another transaction makes the caller wait until a
deadline or a wait-cycle fails it; here it fails at once, with the store unchanged. -/
def tryClaimRow (rowId txnId : Int) : VersionStore V × Except StoreError Unit :=
  match s.uncommittedWrites.lookup rowId with
  | none => ({ s with uncommittedWrites := s.uncommittedWrites.insert rowId txnId }, .ok ())
  | some owner => if owner = txnId then (s, .ok ()) else (s, .error (.rowLockTimeout rowId))

/-- Give a claim back, if it is the caller's. -/
def releaseRowClaim (rowId txnId : Int) : VersionStore V :=
  if s.uncommittedWrites.lookup rowId = some txnId then
    { s with uncommittedWrites := s.uncommittedWrites.erase rowId }
  else s

theorem tryClaimRow_claims (row t : Int) :
    ∃ claims, (s.tryClaimRow row t).1 = { s with uncommittedWrites := claims } := by
  unfold tryClaimRow
  split
  · exact ⟨_, rfl⟩
  · split <;> exact ⟨_, rfl⟩

theorem releaseRowClaim_claims (row t : Int) :
    ∃ claims, s.releaseRowClaim row t = { s with uncommittedWrites := claims } := by
  unfold releaseRowClaim
  split <;> exact ⟨_, rfl⟩

/-! ## Taking rows out -/

/-- A removal under way: the tree so far, the slots to clear, the rows removed and skipped. -/
structure Removal (V : Type) where
  versions : Table Int (VersionChain V)
  slots : List Nat
  removed : List Int
  skipped : List Int

/-- Take one row's chain out of the tree and remember its slot. -/
def Removal.takeOut (acc : Removal V) (rowId : Int) (entry : VersionChain V) : Removal V :=
  { acc with
    versions := acc.versions.erase rowId
    slots := acc.slots ++ entry.head.arenaIdx.toList
    removed := acc.removed ++ [rowId] }

/-- Nothing removed yet. -/
def removalOf : Removal V := ⟨s.versions, [], [], []⟩

/-- The store once a removal is done: its slots are cleared for reuse. -/
def finishRemoval (acc : Removal V) : VersionStore V :=
  { s with versions := acc.versions, arena := s.arena.clearBatch acc.slots }

/-- One turn of `remove_sealed_rows`: a claimed row is skipped, and so is a row whose head is not
the head of the extraction snapshot. -/
def sealTurn (extraction : Table Int (VersionChain V)) (acc : Removal V)
    (rowId : Int) : Removal V :=
  if rowId ∈ s.uncommittedWrites then { acc with skipped := acc.skipped ++ [rowId] }
  else
    match acc.versions.lookup rowId with
    | none => acc
    | some entry =>
      let extractedTxnId :=
        ((extraction.lookup rowId).map fun e => e.head.version.txnId).getD 0
      if entry.head.version.txnId ≠ extractedTxnId then
        { acc with skipped := acc.skipped ++ [rowId] }
      else acc.takeOut rowId entry

/-- Take sealed rows out of the hot store; returns how many, which, and which were skipped. -/
def removeSealedRows (rowIds : List Int)
    (extraction : Table Int (VersionChain V)) :
    VersionStore V × Except StoreError (Nat × List Int × List Int) :=
  let acc := rowIds.foldl (s.sealTurn extraction) s.removalOf
  s.guarded (s.finishRemoval acc, (acc.removed.length, acc.removed, acc.skipped))

/-! ## Vacuum -/

/-- The time before which history may go. -/
def retentionCutoff (now : Int) (retention : Nat) : Int :=
  I64.saturatingSub now (I64.ofNatClamped retention)

variable (checker : VisibilityChecker)

/-- No active transaction sees a live version of the chain. -/
def canSafelyRemove (c : VersionChain V) : Bool :=
  checker.getActiveTransactionIds.isEmpty ||
    checker.getActiveTransactionIds.all fun txnId =>
      c.nodes.all fun n => !(!n.version.isDeleted && checker.isVisible n.version.txnId txnId)

/-- Whether the first pass of `cleanup_deleted_rows` selects a chain. -/
def isGarbage (cutoff : Int) (c : VersionChain V) : Bool :=
  c.head.version.isDeleted && decide (c.head.version.createTime < cutoff) &&
    canSafelyRemove checker c

/-- What the first pass remembers of a candidate, to recognise it in the second. -/
def candidateKey (c : VersionChain V) : Int × Int × Int × Option Nat :=
  (c.head.version.txnId, c.head.version.deletedAtTxnId, c.head.version.createTime,
    c.head.arenaIdx)

/-- One turn of the second pass: the candidate goes if it is still the same and still garbage. -/
def vacuumTurn (cutoff : Int) (acc : Removal V)
    (candidate : Int × (Int × Int × Int × Option Nat)) : Removal V :=
  match acc.versions.lookup candidate.1 with
  | none => acc
  | some entry =>
    if candidateKey entry = candidate.2 ∧ isGarbage checker cutoff entry = true then
      acc.takeOut candidate.1 entry
    else acc

/-- The first pass, in row order. -/
def vacuumCandidates (cutoff : Int) : List (Int × (Int × Int × Int × Option Nat)) :=
  s.versions.sortedKeys.filterMap fun rowId =>
    match s.versions.lookup rowId with
    | none => none
    | some c => if isGarbage checker cutoff c then some (rowId, candidateKey c) else none

/-- Remove rows whose deletion no active transaction can miss; returns how many. -/
def cleanupDeletedRows (retention : Nat) (now : Int) : VersionStore V × Nat :=
  if s.closed then (s, 0)
  else
    let cutoff := retentionCutoff now retention
    let acc := (s.vacuumCandidates checker cutoff).foldl (vacuumTurn checker cutoff) s.removalOf
    (s.finishRemoval acc, acc.removed.length)

/-- How many of a chain's older versions must stay: up to the last one that an active transaction
sees or that is young enough. -/
def keepCount (checker : VisibilityChecker) (cutoff : Int) : List (ChainNode V) → Nat
  | [] => 0
  | n :: rest =>
    let below := keepCount checker cutoff rest
    let keep := checker.getActiveTransactionIds.any (checker.isVisible n.version.txnId) ||
      decide (cutoff ≤ n.version.createTime)
    if 0 < below then below + 1 else if keep then 1 else 0

/-- Cut a chain's history to what must stay. -/
def pruneChain (cutoff : Int) (c : VersionChain V) : VersionChain V :=
  { c with prev := c.prev.take (keepCount checker cutoff c.prev) }

/-- One turn of the second pass over the rows with a history. -/
def pruneTurn (cutoff : Int) (acc : VersionStore V × Nat) (rowId : Int) : VersionStore V × Nat :=
  match acc.1.versions.lookup rowId with
  | none => acc
  | some c =>
    let pruned := pruneChain checker cutoff c
    if pruned.prev.length < c.prev.length then
      ({ acc.1 with versions := acc.1.versions.insert rowId pruned },
        acc.2 + (c.prev.length - pruned.prev.length))
    else acc

/-- Prune the history of every row; returns how many versions went. -/
def cleanupOldPreviousVersionsWithRetention (retention : Nat) (now : Int) : VersionStore V × Nat :=
  if s.closed then (s, 0)
  else
    let candidates := s.versions.sortedKeys.filter fun rowId =>
      (s.versions.lookup rowId).any fun c => !c.prev.isEmpty
    candidates.foldl (pruneTurn checker (retentionCutoff now retention)) (s, 0)

/-! ## Truncation -/

/-- Empty the table, unless some transaction holds a claim; returns the row count it had. -/
def truncateAll : VersionStore V × Except StoreError Int :=
  if s.closed then (s, .error .tableClosed)
  else if s.uncommittedWrites.keys ≠ [] then (s, .error .tableHasActiveTransactions)
  else
    ({ s with
        versions := ∅
        arena := s.arena.clearAll
        uncommittedWrites := ∅
        committedRowCount := 0 },
      .ok s.committedRowCount)

end VersionStore

end RadixDb
