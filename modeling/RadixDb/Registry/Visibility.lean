import RadixDb.Registry.Ops

/-!
# The transaction registry: visibility

`isVisible` is the hot path of every read: it may answer from the calling thread's
`CommittedCache`, and it updates that cache. `visible` is the same decision taken from the
registry alone. That the two agree, whatever a thread has cached, is `isVisible_eq_visible`, for
caches that satisfy `CacheOk`; every cache a run produces does (`Registry/World.lean`), so
everything above the registry reads through `visible`.
-/

namespace RadixDb
namespace TransactionRegistry

variable (r : TransactionRegistry)

def getGlobalIsolationLevel : IsolationLevel := r.globalIsolationLevel

def getIsolationLevel (txnId : Int) : IsolationLevel :=
  if 0 < r.overrideCount then
    match r.isolationOverrides.lookup txnId with
    | some level => level
    | none => r.getGlobalIsolationLevel
  else r.getGlobalIsolationLevel

def needsSnapshotIsolation (txnId : Int) : Bool :=
  r.getIsolationLevel txnId == .snapshotIsolation

/-! ## The registry's own answers -/

/-- Not in the map, and an id that has been handed out. -/
def isCommitted (txnId : Int) : Bool :=
  if txnId ∈ r.transactions then false
  else decide (0 < txnId) && decide (txnId ≤ r.nextTxnId)

def isCommittedBefore (txnId cutoffCommitSeq : Int) : Bool :=
  if txnId < 0 then true
  else if txnId ∈ r.transactions then false
  else
    match r.snapshotSeqs.lookup txnId with
    | some commitSeq => decide (commitSeq ≤ cutoffCommitSeq)
    | none => decide (0 < txnId) && decide (txnId ≤ r.nextTxnId)

/-- The visibility checker's list of active transactions: those whose status is `Active`, not those
that have started to commit. -/
def getActiveTransactionIds : List Int :=
  (r.transactions.entries.filter fun e => e.2.status == .active).map (·.1)

/-- The smallest begin sequence of a live Snapshot-Isolation transaction. -/
def getMinSnapshotBeginSeq : Option Int :=
  ((r.transactions.entries.filter fun e =>
    e.2.isActiveOrCommitting && (r.isolationOverrides.lookup e.1 == some .snapshotIsolation)).map
      fun e => e.2.getBeginSeq).min?

/-- What `viewer` sees, decided from the registry alone. -/
def visible (versionTxnId viewerTxnId : Int) : Bool :=
  if versionTxnId = viewerTxnId then true
  else if versionTxnId = recoveryTransactionId then true
  else if r.needsSnapshotIsolation viewerTxnId then
    match r.snapshotExclusions.lookup viewerTxnId with
    | some boundary => boundary.isVisible versionTxnId
    | none => r.isCommitted versionTxnId
  else r.isCommitted versionTxnId

/-! ## The hot path -/

variable (c : CommittedCache)

/-- The Read-Committed test. Its answer never depends on the cache; it remembers a positive one
there. -/
def checkCommitted (txnId : Int) : Bool × CommittedCache :=
  if txnId ≤ 0 ∨ r.nextTxnId < txnId then (false, c)
  else if txnId ∈ r.transactions then (false, c)
  else if c.contains r.cacheEpoch txnId then (true, c)
  else (true, c.insert r.cacheEpoch txnId)

/-- The Snapshot-Isolation test: the cached boundary if it is this viewer's and still alive, the
registry's otherwise. -/
def isVisibleSnapshot (versionTxnId viewerTxnId : Int) : Bool × CommittedCache :=
  match c.snapshotVisibility r.activeFlags r.cacheEpoch versionTxnId viewerTxnId with
  | some visible => (visible, c)
  | none =>
    match r.snapshotExclusions.lookup viewerTxnId with
    | none => r.checkCommitted c versionTxnId
    | some boundary =>
      (boundary.isVisible versionTxnId, c.installSnapshot r.cacheEpoch viewerTxnId boundary)

/-- Whether `viewer` sees the versions `versionTxnId` created, asked on a thread with cache `c`. -/
def isVisible (versionTxnId viewerTxnId : Int) : Bool × CommittedCache :=
  if versionTxnId = viewerTxnId then (true, c)
  else if versionTxnId = recoveryTransactionId then (true, c)
  else if r.needsSnapshotIsolation viewerTxnId then r.isVisibleSnapshot c versionTxnId viewerTxnId
  else r.checkCommitted c versionTxnId

/-! ## The cache is transparent -/

/-- A cached boundary names an existing flag, and while the flag is set it is the boundary the
registry holds for that viewer. -/
def CacheOk : Prop :=
  c.registryEpoch = r.cacheEpoch → ∀ b, c.snapshotBoundary = some b →
    b.active < r.activeFlags.length ∧
      (r.activeFlags.getD b.active false = true →
        r.snapshotExclusions.lookup c.snapshotViewer = some b)

theorem checkCommitted_fst (t : Int) : (r.checkCommitted c t).1 = r.isCommitted t := by
  unfold checkCommitted isCommitted
  by_cases hm : t ∈ r.transactions
  · split <;> rfl
  · split
    · rename_i h
      rcases h with h | h <;> simp <;> omega
    · rename_i h
      have h1 : 0 < t := by omega
      have h2 : t ≤ r.nextTxnId := by omega
      split <;> simp [h1, h2]

variable {r : TransactionRegistry} {c : CommittedCache}

theorem snapshotVisibility_of_cacheOk {v viewer : Int} {a : Bool} (hc : r.CacheOk c)
    (h : c.snapshotVisibility r.activeFlags r.cacheEpoch v viewer = some a) :
    ∃ b, r.snapshotExclusions.lookup viewer = some b ∧ a = b.isVisible v := by
  unfold CommittedCache.snapshotVisibility at h
  split at h
  · exact absurd h (by simp)
  · rename_i hne
    obtain ⟨hepoch, hviewer⟩ : c.registryEpoch = r.cacheEpoch ∧ c.snapshotViewer = viewer := by
      simpa using hne
    cases hb : c.snapshotBoundary with
    | none => simp [hb] at h
    | some b =>
      simp only [hb] at h
      split at h
      · rename_i hflag
        simp only [Option.some.injEq] at h
        exact ⟨b, hviewer ▸ (hc hepoch b hb).2 hflag, h.symm⟩
      · exact absurd h (by simp)

/-- **A thread's cache never changes an answer.** -/
theorem isVisible_eq_visible (hc : r.CacheOk c) (v viewer : Int) :
    (r.isVisible c v viewer).1 = r.visible v viewer := by
  unfold isVisible visible
  split
  · rfl
  · split
    · rfl
    · split
      · unfold isVisibleSnapshot
        cases hs : c.snapshotVisibility r.activeFlags r.cacheEpoch v viewer with
        | some a =>
          obtain ⟨b, hb, rfl⟩ := snapshotVisibility_of_cacheOk hc hs
          simp [hb]
        | none =>
          cases hb : r.snapshotExclusions.lookup viewer with
          | none => simp [checkCommitted_fst]
          | some b => simp
      · exact checkCommitted_fst r c v

end TransactionRegistry
end RadixDb
