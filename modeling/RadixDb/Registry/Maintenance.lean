import RadixDb.Registry.Ops

/-!
# The transaction registry: garbage collection and recovery

`runGcWithRetention` is the one call that takes entries *out* of the map without a commit: it
drops aborted markers that are old enough. `gcDropsMarker` is that decision for one entry, named
because what an absent entry means afterwards depends on it.

The recovery calls fill a registry at start-up from durable history, before the first transaction
begins.
-/

namespace RadixDb
namespace TransactionRegistry

/-! ## Garbage collection -/

/-- A `Duration` of `nanos` nanoseconds as a retention period. -/
def retentionNs (nanos : Nat) : Int := I64.ofNatClamped nanos

/-- Whether metadata completed at `completedAt` has outlived the retention period. -/
def isExpired (maxAge : Nat) (now completedAt : Int) : Bool :=
  retentionNs maxAge == 0 ||
    (retentionNs maxAge != I64.maxValue &&
      decide (retentionNs maxAge ≤ I64.saturatingSub now completedAt))

variable (r : TransactionRegistry)

/-- The minimum of `f` over the active and committing transactions, `i64::MAX` if there is none. -/
def minOverLive (f : Int → TxnState → Int) : Int :=
  r.transactions.entries.foldl
    (fun acc e => if e.2.isActiveOrCommitting then min acc (f e.1 e.2) else acc) I64.maxValue

/-- The smallest live id, the last id handed out if nothing is live. -/
def minLiveId : Int :=
  let minId := r.minOverLive fun id _ => id
  if minId = I64.maxValue then r.nextTxnId else minId

/-- Aborted markers below this id may go. -/
def abortedCutoff : Int := I64.saturatingSub r.minLiveId 10000

/-- Whether the terminal time recorded for `txnId` has outlived the retention period. -/
def terminalExpired (maxAge : Nat) (now txnId : Int) : Bool :=
  (r.terminalTimes.lookup txnId).any (isExpired maxAge now)

/-- **What garbage collection takes out of the map**: an aborted marker below the cutoff whose
terminal time has expired. -/
def gcDropsMarker (maxAge : Nat) (now : Int) (id : Int) (state : TxnState) : Bool :=
  decide (0 < r.abortedCutoff) && state.isAborted && decide (id < r.abortedCutoff) &&
    r.terminalExpired maxAge now id

/-- Which recorded commit sequences garbage collection drops. -/
def gcDropsSeq (maxAge : Nat) (now : Int) (id commitSeq : Int) : Bool :=
  decide (commitSeq < r.minOverLive fun _ state => state.getBeginSeq) &&
    r.terminalExpired maxAge now id

/-- Whether an override belongs to a transaction that is no longer tracked as live. -/
def overrideInvalid (txns : Table Int TxnState) (txnId : Int) : Bool :=
  match txns.lookup txnId with
  | none => true
  | some state => state.isAborted

/-- Garbage collection at time `now`; returns how many entries it removed. -/
def runGcWithRetention (maxAge : Nat) (now : Int) : TransactionRegistry × Nat :=
  let txns := r.transactions.retain fun id state => !r.gcDropsMarker maxAge now id state
  let seqs := r.snapshotSeqs.retain fun id seq => !r.gcDropsSeq maxAge now id seq
  -- the ids whose marker or sequence went lose their terminal time too
  let times := r.terminalTimes.retain fun id _ =>
    !((r.transactions.lookup id).any (r.gcDropsMarker maxAge now id) ||
      (r.snapshotSeqs.lookup id).any (r.gcDropsSeq maxAge now id))
  -- with a zero count the override keys are not even collected
  let overrides :=
    if 0 < r.overrideCount then r.isolationOverrides.retain fun id _ => !overrideInvalid txns id
    else r.isolationOverrides
  let removedOverrides := r.isolationOverrides.keys.length - overrides.keys.length
  ({ r with
      transactions := txns
      snapshotSeqs := seqs
      terminalTimes := times
      isolationOverrides := overrides
      overrideCount := r.overrideCount - removedOverrides },
    (r.transactions.keys.length - txns.keys.length) +
      (r.snapshotSeqs.keys.length - seqs.keys.length) + removedOverrides)

def runGc (now : Int) : TransactionRegistry × Nat :=
  r.runGcWithRetention 0 now

/-- The older entry point; the count is cut to 32 bits. -/
def cleanupOldTransactions (maxAge : Nat) (now : Int) : TransactionRegistry × Int :=
  let (r', removed) := r.runGcWithRetention maxAge now
  (r', (BitVec.ofNat 32 removed).toInt)

/-! ## Recovery -/

def raiseTxnId (txnId : Int) : TransactionRegistry :=
  if r.nextTxnId < txnId then { r with nextTxnId := txnId } else r

def raiseSequence (sequence : Int) : TransactionRegistry :=
  if r.nextSequence < sequence then { r with nextSequence := sequence } else r

def outsidePositiveDomain (txnId : Int) : RegistryError :=
  .internal s!"recovered transaction ID {txnId} is outside the positive MVCC domain"

def recoverCommittedTransaction (txnId commitSeq now : Int) :
    TransactionRegistry × Except RegistryError Unit :=
  if isInternalDurableTransactionId txnId = false ∧ (txnId ≤ 0 ∨ txnId = I64.maxValue) then
    (r, .error (outsidePositiveDomain txnId))
  else if ¬(1 ≤ commitSeq ∧ commitSeq ≤ seqMask) then
    (r, .error (.internal
      s!"recovered commit sequence {commitSeq} exceeds the packed MVCC domain"))
  else if isInternalDurableTransactionId txnId then (r.raiseSequence commitSeq, .ok ())
  else
    (({ r with
        snapshotSeqs := r.snapshotSeqs.insert txnId commitSeq
        terminalTimes := r.terminalTimes.insert txnId now }.raiseTxnId txnId).raiseSequence
          commitSeq, .ok ())

def recoverAbortedTransaction (txnId now : Int) : TransactionRegistry × Except RegistryError Unit :=
  if isInternalDurableTransactionId txnId then (r, .ok ())
  else if txnId ≤ 0 ∨ txnId = I64.maxValue then (r, .error (outsidePositiveDomain txnId))
  else
    ({ r with
        transactions := r.transactions.insert txnId TxnState.newAborted
        terminalTimes := r.terminalTimes.insert txnId now }.raiseTxnId txnId, .ok ())

def recoverTransactionHighWater (txnId : Int) : TransactionRegistry × Except RegistryError Unit :=
  if txnId ≤ 0 then (r, .ok ())
  else if txnId = I64.maxValue then (r, .error (outsidePositiveDomain txnId))
  else (r.raiseTxnId txnId, .ok ())

def recoverVisibilityHighWater (sequence : Int) : TransactionRegistry × Except RegistryError Unit :=
  if ¬(0 ≤ sequence ∧ sequence ≤ seqMask) then
    (r, .error (.internal
      s!"recovered visibility sequence {sequence} exceeds the packed MVCC domain"))
  else (r.raiseSequence sequence, .ok ())

/-- Forget a failed start-up: everything is cleared and admission stays closed. -/
def resetAfterFailedStartup : TransactionRegistry :=
  { r.stopAcceptingTransactions with
    transactions := ∅
    snapshotSeqs := ∅
    snapshotExclusions := ∅
    terminalTimes := ∅
    isolationOverrides := ∅
    nextTxnId := 0
    nextSequence := 0
    overrideCount := 0
    activeTxnCount := 0
    activeFlags := r.snapshotExclusions.entries.foldl
      (fun flags e => flags.set e.2.active false) r.activeFlags }

end TransactionRegistry
end RadixDb
