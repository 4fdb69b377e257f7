import RadixDb.Registry.State

/-!
# The transaction registry: operations

One definition per public call of `TransactionRegistry` that changes it, each taken as one atomic
step (the source holds the `transactions` lock over the part of each call that matters to
visibility). A call returns the new registry and the call's own result. The clock is an argument
(`now`): the source reads a process-wide counter.
-/

namespace RadixDb
namespace TransactionRegistry

variable (r : TransactionRegistry)

/-- Advance the sequence counter by one, if the result still fits the packed domain. -/
def nextSequenceIn : Option Int :=
  if r.nextSequence + 1 ≤ seqMask then some (r.nextSequence + 1) else none

theorem nextSequenceIn_eq_some {r : TransactionRegistry} {n : Int} :
    r.nextSequenceIn = some n ↔ n = r.nextSequence + 1 ∧ n ≤ seqMask := by
  unfold nextSequenceIn
  split
  · simp only [Option.some.injEq]
    omega
  · simp only [reduceCtorEq, false_iff]
    omega

/-! ## Beginning -/

def setGlobalIsolationLevel (level : IsolationLevel) : TransactionRegistry :=
  { r with globalIsolationLevel := level }

/-- The ids a new snapshot must not see: everything the map tracks, aborted markers included. -/
def excludedIds : List Int := r.transactions.sortedKeys

/-- The boundary a Snapshot-Isolation transaction `txnId` gets at its begin, on a fresh flag. -/
def newBoundary (txnId : Int) : SnapshotBoundary where
  maxTxnId := txnId
  excluded := r.excludedIds
  active := r.activeFlags.length
  sorted := List.pairwise_insertionSort (· ≤ ·) _

/-- The registry after transaction `txnId` has been admitted at `beginSeq`. -/
def enroll (level : IsolationLevel) (txnId beginSeq : Int) : TransactionRegistry :=
  { r with
    nextTxnId := txnId
    nextSequence := beginSeq
    transactions := r.transactions.insert txnId (TxnState.newActive beginSeq)
    isolationOverrides := r.isolationOverrides.insert txnId level
    snapshotExclusions :=
      if level = .snapshotIsolation then r.snapshotExclusions.insert txnId (r.newBoundary txnId)
      else r.snapshotExclusions
    activeFlags := if level = .snapshotIsolation then r.activeFlags ++ [true] else r.activeFlags
    overrideCount := r.overrideCount + 1
    activeTxnCount := r.activeTxnCount + 1 }

/-- Begin a transaction; the result is its id and begin sequence, `(invalidTransactionId, 0)` when
admission is closed or a counter is used up. -/
def beginTransactionWithIsolation (level : IsolationLevel) : TransactionRegistry × (Int × Int) :=
  if r.accepting = false then (r, (invalidTransactionId, 0))
  else if r.nextTxnId + 1 < I64.maxValue then
    match r.nextSequenceIn with
    | none => (r, (invalidTransactionId, 0))
    | some beginSeq => (r.enroll level (r.nextTxnId + 1) beginSeq, (r.nextTxnId + 1, beginSeq))
  else (r, (invalidTransactionId, 0))

/-! ## Committing and aborting -/

/-- Reserve a commit sequence and mark the transaction as committing. -/
def startCommit (txnId : Int) : TransactionRegistry × Except RegistryError Int :=
  match r.transactions.lookup txnId with
  | none => (r, .error (.invalidTransactionTransition txnId "Active" "missing"))
  | some entry =>
    if entry.status ≠ .active then
      (r, .error (.invalidTransactionTransition txnId "Active" entry.status.debug))
    else
      match r.nextSequenceIn with
      | none => (r, .error (.internal "MVCC commit sequence domain exhausted"))
      | some commitSeq =>
        ({ r with
            nextSequence := commitSeq
            transactions := r.transactions.insert txnId (entry.setCommitting commitSeq) },
          .ok commitSeq)

/-- Drop the isolation override of a transaction that has ended, and its boundary with the
boundary's flag. -/
def removeTransactionIsolationLevel (txnId : Int) : TransactionRegistry :=
  { r with
    isolationOverrides := r.isolationOverrides.erase txnId
    overrideCount :=
      if txnId ∈ r.isolationOverrides then r.overrideCount - 1 else r.overrideCount
    snapshotExclusions := r.snapshotExclusions.erase txnId
    activeFlags :=
      match r.snapshotExclusions.lookup txnId with
      | none => r.activeFlags
      | some boundary => r.activeFlags.set boundary.active false }

/-- The registry once `txnId` has left the map as committed with sequence `seq`. -/
def publishCommit (txnId seq now : Int) : TransactionRegistry :=
  removeTransactionIsolationLevel
    { r with
      snapshotSeqs := r.snapshotSeqs.insert txnId seq
      terminalTimes := r.terminalTimes.insert txnId now
      transactions := r.transactions.erase txnId
      activeTxnCount := r.activeTxnCount - 1 }
    txnId

def completeCommitInner (txnId : Int) (reserveStorageSeq : Bool)
    (now : Int) : TransactionRegistry × Except RegistryError Int :=
  match r.transactions.lookup txnId with
  | none => (r, .error (.invalidTransactionTransition txnId "Committing" "missing"))
  | some state =>
    if state.status ≠ .committing ∨ state.commitSeq ≤ 0 then
      (r, .error (.invalidTransactionTransition txnId "Committing" state.status.debug))
    else if reserveStorageSeq then
      match r.nextSequenceIn with
      | none => (r, .error (.internal "MVCC storage publication sequence domain exhausted"))
      | some next =>
        (publishCommit { r with nextSequence := next } txnId state.commitSeq now, .ok next)
    else (r.publishCommit txnId state.commitSeq now, .ok state.commitSeq)

def completeCommit (txnId now : Int) : TransactionRegistry × Except RegistryError Unit :=
  let (r', res) := r.completeCommitInner txnId false now
  (r', res.map fun _ => ())

def completeCommitWithStoragePublication (txnId now : Int) :
    TransactionRegistry × Except RegistryError Int :=
  r.completeCommitInner txnId true now

/-- Replace a tracked transaction by an aborted marker. An id that is not in the map is committed or
unknown, and stays so. -/
def abortTransaction (txnId now : Int) : TransactionRegistry :=
  match r.transactions.lookup txnId with
  | none => r
  | some state =>
    let marked := { r with transactions := r.transactions.insert txnId TxnState.newAborted }
    if state.isActiveOrCommitting then
      removeTransactionIsolationLevel
        { marked with
          terminalTimes := r.terminalTimes.insert txnId now
          activeTxnCount := r.activeTxnCount - 1 }
        txnId
    else marked

/-- Reserve a visibility sequence for an internal storage publication. -/
def reserveVisibilitySequence : TransactionRegistry × Except RegistryError Int :=
  match r.nextSequenceIn with
  | none => (r, .error (.internal "MVCC visibility sequence domain exhausted"))
  | some sequence => ({ r with nextSequence := sequence }, .ok sequence)

def stopAcceptingTransactions : TransactionRegistry :=
  { r with accepting := false }

def startAcceptingTransactions : TransactionRegistry :=
  { r with accepting := true }

end TransactionRegistry
end RadixDb
