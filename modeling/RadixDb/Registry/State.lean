import RadixDb.Lib.I64
import RadixDb.Lib.Table
import RadixDb.Lib.Checked

/-!
# The transaction registry: data

`TransactionRegistry` (mvcc/registry.rs) keeps one map, `transactions`, for the transactions that
are active, committing or aborted. **Committed is not recorded anywhere: an identifier that was
handed out and is not in the map is a committed one.** Everything visibility is decided by hangs
on that encoding, so the model keeps it: an entry is the packed `TxnState` of the source, and
completing a commit removes it.

Beside the map stand the two things a Snapshot-Isolation reader is judged by. Its `SnapshotBoundary`
is captured at begin and never changes; a clone of it may also sit in a thread's
`CommittedCache`, and the two share one atomic flag that the end of the transaction clears. The
flags are cells of the registry (`activeFlags`), and a boundary names its cell.
-/

namespace RadixDb

/-- Returned as the transaction id when the registry refuses to begin one. -/
def invalidTransactionId : Int := -999999999

/-- The writer of recovered rows, visible to everyone. -/
def recoveryTransactionId : Int := -1

/-- The `beginSeq` of an aborted marker. -/
def abortedSentinel : Int := -1

/-- The fixed identity of data-definition units. -/
def ddlTxnId : Int := -2

/-- Durable engine-owned identities lie at and below `ddlTxnId`. -/
def isInternalDurableTransactionId (txnId : Int) : Bool := decide (txnId ≤ ddlTxnId)

def statusShift : Nat := 62

/-- The largest sequence number that fits beside the two status bits. -/
def seqMask : Int := 2 ^ 62 - 1

/-- How a registry call fails. -/
inductive RegistryError where
  | invalidTransactionTransition (txnId : Int) (expected actual : String)
  | internal (message : String)
deriving DecidableEq, Repr

inductive IsolationLevel where
  | readCommitted
  | snapshotIsolation
deriving DecidableEq, Repr

/-! ## Transaction states -/

inductive TxnStatus where
  | active
  | committing
  | aborted
deriving DecidableEq, Repr

/-- The status as the source's `{:?}` prints it. -/
def TxnStatus.debug : TxnStatus → String
  | .active => "Active"
  | .committing => "Committing"
  | .aborted => "Aborted"

/-- A tracked transaction: its begin sequence, and its status and commit sequence packed into one
word (status in the top two bits). -/
structure TxnState where
  beginSeq : Int
  stateSeq : BitVec 64
deriving DecidableEq, Repr

namespace TxnState

def newActive (beginSeq : Int) : TxnState := ⟨beginSeq, 0⟩

def newAborted : TxnState := ⟨abortedSentinel, 2#64 <<< statusShift⟩

variable (s : TxnState)

def isAborted : Bool := s.beginSeq == abortedSentinel

/-- The begin sequence, `0` for an aborted marker. -/
def getBeginSeq : Int := if s.isAborted then 0 else s.beginSeq

def status : TxnStatus :=
  if s.isAborted then .aborted
  else
    -- the shift is arithmetic and the result is cut to a byte
    match ((s.stateSeq.sshiftRight statusShift).setWidth 8).toNat with
    | 0 => .active
    | 1 => .committing
    | _ => .aborted

def isActiveOrCommitting : Bool := s.beginSeq != abortedSentinel

def setCommitting (commitSeq : Int) : TxnState :=
  { s with stateSeq := BitVec.ofInt 64 commitSeq ||| (1#64 <<< statusShift) }

def commitSeq : Int := (s.stateSeq &&& BitVec.ofInt 64 seqMask).toInt

@[simp] theorem isAborted_newAborted : newAborted.isAborted = true := rfl

@[simp] theorem isActiveOrCommitting_newAborted : newAborted.isActiveOrCommitting = false := rfl

theorem isAborted_eq_not : s.isAborted = !s.isActiveOrCommitting := by
  simp [isAborted, isActiveOrCommitting, bne]

@[simp] theorem isActiveOrCommitting_setCommitting (s : TxnState) (c : Int) :
    (s.setCommitting c).isActiveOrCommitting = s.isActiveOrCommitting := rfl

theorem isActiveOrCommitting_newActive {b : Int} (hb : 0 ≤ b) :
    (newActive b).isActiveOrCommitting = true := by
  simp only [newActive, isActiveOrCommitting, abortedSentinel, bne_iff_ne]
  omega

theorem isActiveOrCommitting_of_status {s : TxnState} (h : s.status ≠ .aborted) :
    s.isActiveOrCommitting = true := by
  cases hs : s.isActiveOrCommitting with
  | true => rfl
  | false => exact absurd (by simp [status, isAborted_eq_not, hs]) h

end TxnState

/-! ## Snapshot boundaries and the thread-local cache -/

/-- What a Snapshot-Isolation transaction may see, fixed at its begin. `excluded` is searched by
bisection in the source; that it is sorted, so that bisection decides membership, is part of the
structure. `active` is the cell of the flag it shares with its clones. -/
structure SnapshotBoundary where
  maxTxnId : Int
  excluded : List Int
  active : Nat
  sorted : excluded.Pairwise (· ≤ ·)
deriving DecidableEq

def SnapshotBoundary.isVisible (b : SnapshotBoundary) (versionTxnId : Int) : Bool :=
  decide (0 < versionTxnId) && decide (versionTxnId ≤ b.maxTxnId) &&
    !b.excluded.contains versionTxnId

theorem SnapshotBoundary.isVisible_iff {b : SnapshotBoundary} {v : Int} :
    b.isVisible v = true ↔ 0 < v ∧ v ≤ b.maxTxnId ∧ v ∉ b.excluded := by
  simp [SnapshotBoundary.isVisible, and_assoc]

def cacheSize : Nat := 4096

/-- `log2 cacheSize`. -/
def cacheShift : Nat := 12

/-- One thread's direct-mapped cache of committed ids, and of the last snapshot boundary it used. -/
structure CommittedCache where
  registryEpoch : Nat
  entries : Fin cacheSize → Int
  occupiedIndices : List (Fin cacheSize)
  snapshotViewer : Int
  snapshotBoundary : Option SnapshotBoundary

namespace CommittedCache

def new : CommittedCache := ⟨0, fun _ => 0, [], 0, none⟩

def cacheIndex (txnId : Int) : Fin cacheSize :=
  let x := BitVec.ofInt 64 txnId
  ⟨(x ^^^ (x >>> cacheShift)).toNat % cacheSize, Nat.mod_lt _ (by decide)⟩

variable (c : CommittedCache)

def contains (registryEpoch : Nat) (txnId : Int) : Bool :=
  c.registryEpoch == registryEpoch && c.entries (cacheIndex txnId) == txnId

/-- Zero the occupied entries. -/
def drainOccupied : CommittedCache :=
  { c with
    entries := c.occupiedIndices.foldl (fun e idx => Function.update e idx 0) c.entries
    occupiedIndices := [] }

def insert (registryEpoch : Nat) (txnId : Int) : CommittedCache :=
  let c := if c.registryEpoch = registryEpoch then c
    else { c.drainOccupied with
      registryEpoch := registryEpoch, snapshotViewer := 0, snapshotBoundary := none }
  let idx := cacheIndex txnId
  { c with
    occupiedIndices :=
      if c.entries idx = 0 then c.occupiedIndices ++ [idx] else c.occupiedIndices
    entries := Function.update c.entries idx txnId }

/-- The cached boundary's answer, when the cache belongs to this registry and viewer and the
boundary's transaction has not ended. `flags` are the registry's flag cells. -/
def snapshotVisibility (flags : List Bool) (registryEpoch : Nat)
    (versionTxnId viewerTxnId : Int) : Option Bool :=
  if c.registryEpoch ≠ registryEpoch ∨ c.snapshotViewer ≠ viewerTxnId then none
  else
    match c.snapshotBoundary with
    | none => none
    | some boundary =>
      if flags.getD boundary.active false then some (boundary.isVisible versionTxnId) else none

def installSnapshot (registryEpoch : Nat) (viewerTxnId : Int)
    (boundary : SnapshotBoundary) : CommittedCache :=
  let c := if c.registryEpoch = registryEpoch then c
    else { c.drainOccupied with registryEpoch := registryEpoch }
  { c with snapshotViewer := viewerTxnId, snapshotBoundary := some boundary }

end CommittedCache

/-! ## The registry -/

structure TransactionRegistry where
  cacheEpoch : Nat
  /-- Active, committing and aborted transactions; completing a commit removes the entry. -/
  transactions : Table Int TxnState
  snapshotSeqs : Table Int Int
  snapshotExclusions : Table Int SnapshotBoundary
  terminalTimes : Table Int Int
  /-- The last transaction id handed out. -/
  nextTxnId : Int
  /-- The last sequence number handed out. -/
  nextSequence : Int
  globalIsolationLevel : IsolationLevel
  isolationOverrides : Table Int IsolationLevel
  overrideCount : Nat
  activeTxnCount : Nat
  accepting : Bool
  /-- The atomic flags the boundaries share with their cached clones. -/
  activeFlags : List Bool

/-- A registry with no transactions. `cacheEpoch` is its process-wide identity. -/
def TransactionRegistry.new (cacheEpoch : Nat) : TransactionRegistry where
  cacheEpoch := cacheEpoch
  transactions := ∅
  snapshotSeqs := ∅
  snapshotExclusions := ∅
  terminalTimes := ∅
  nextTxnId := 0
  nextSequence := 0
  globalIsolationLevel := .readCommitted
  isolationOverrides := ∅
  overrideCount := 0
  activeTxnCount := 0
  accepting := true
  activeFlags := []

end RadixDb
