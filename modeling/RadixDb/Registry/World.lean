import RadixDb.Lib.Run
import RadixDb.Registry.Invariant

/-!
# Runs of the registry

A `World` is one registry and the caches of all threads. Its operations are the registry's calls
in any order and any mix, asking for visibility on some thread (which may change that thread's
cache), and another registry of the same process using a thread's cache. A run starts from a
registry filled by any list of recovery calls, none included.

`World.Ok` holds at every moment of every run (`ok_after`). With it, `asks_eq_visible`: what a
thread is told at a moment is `visible` of the registry at that moment.
-/

namespace RadixDb

open List Function

/-! ## Recovery -/

/-- The calls that fill a registry at start-up. -/
inductive RecoveryCall where
  | committed (txnId commitSeq now : Int)
  | aborted (txnId now : Int)
  | transactionHighWater (txnId : Int)
  | visibilityHighWater (sequence : Int)
  | reset

namespace TransactionRegistry

def recover (r : TransactionRegistry) : RecoveryCall → TransactionRegistry
  | .committed t seq now => (r.recoverCommittedTransaction t seq now).1
  | .aborted t now => (r.recoverAbortedTransaction t now).1
  | .transactionHighWater t => (r.recoverTransactionHighWater t).1
  | .visibilityHighWater seq => (r.recoverVisibilityHighWater seq).1
  | .reset => r.resetAfterFailedStartup

/-- A new registry after start-up recovery. -/
def recovered (epoch : Nat) (calls : List RecoveryCall) : TransactionRegistry :=
  calls.foldl recover (TransactionRegistry.new epoch)

end TransactionRegistry

/-! ## Operations -/

/-- What a registry of another identity may do with a thread's cache. -/
inductive ForeignUse where
  | insert (txnId : Int)
  | installSnapshot (viewer : Int) (boundary : SnapshotBoundary)

def ForeignUse.apply (epoch : Nat) (c : CommittedCache) : ForeignUse → CommittedCache
  | .insert t => c.insert epoch t
  | .installSnapshot viewer b => c.installSnapshot epoch viewer b

inductive RegistryOp where
  | begin (level : IsolationLevel)
  | startCommit (txnId : Int)
  | completeCommit (txnId now : Int)
  | completeCommitWithStoragePublication (txnId now : Int)
  | abort (txnId now : Int)
  | runGc (now : Int)
  | cleanupOldTransactions (maxAge : Nat) (now : Int)
  | reserveVisibilitySequence
  | setGlobalIsolationLevel (level : IsolationLevel)
  | stopAccepting
  | startAccepting
  | isVisible (thread : Nat) (versionTxnId viewerTxnId : Int)
  | foreign (thread epoch : Nat) (use : ForeignUse)

/-- What an operation returned. -/
inductive RegistryOutcome where
  | began (txnId beginSeq : Int)
  | sequence (res : Except RegistryError Int)
  | completed (res : Except RegistryError Unit)
  | removed (count : Int)
  | visibility (answer : Bool)
  | done

structure World where
  registry : TransactionRegistry
  caches : Nat → CommittedCache

/-- A registry after recovery, and threads that have cached nothing yet. -/
def World.start (epoch : Nat) (calls : List RecoveryCall) : World :=
  ⟨TransactionRegistry.recovered epoch calls, fun _ => CommittedCache.new⟩

/-- What `viewer` is told on a thread about the versions `v` created. -/
def World.asks (w : World) (thread : Nat) (v viewer : Int) : Bool :=
  (w.registry.isVisible (w.caches thread) v viewer).1

def World.step (w : World) : RegistryOp → World × RegistryOutcome
  | .begin level =>
    let (r, (t, q)) := w.registry.beginTransactionWithIsolation level
    ({ w with registry := r }, .began t q)
  | .startCommit t =>
    let (r, res) := w.registry.startCommit t
    ({ w with registry := r }, .sequence res)
  | .completeCommit t now =>
    let (r, res) := w.registry.completeCommit t now
    ({ w with registry := r }, .completed res)
  | .completeCommitWithStoragePublication t now =>
    let (r, res) := w.registry.completeCommitWithStoragePublication t now
    ({ w with registry := r }, .sequence res)
  | .abort t now => ({ w with registry := w.registry.abortTransaction t now }, .done)
  | .runGc now =>
    let (r, n) := w.registry.runGc now
    ({ w with registry := r }, .removed n)
  | .cleanupOldTransactions maxAge now =>
    let (r, n) := w.registry.cleanupOldTransactions maxAge now
    ({ w with registry := r }, .removed n)
  | .reserveVisibilitySequence =>
    let (r, res) := w.registry.reserveVisibilitySequence
    ({ w with registry := r }, .sequence res)
  | .setGlobalIsolationLevel level =>
    ({ w with registry := w.registry.setGlobalIsolationLevel level }, .done)
  | .stopAccepting => ({ w with registry := w.registry.stopAcceptingTransactions }, .done)
  | .startAccepting => ({ w with registry := w.registry.startAcceptingTransactions }, .done)
  | .isVisible thread v viewer =>
    let (answer, c) := w.registry.isVisible (w.caches thread) v viewer
    ({ w with caches := update w.caches thread c }, .visibility answer)
  | .foreign thread epoch use =>
    -- registry identities are unique in a process, so a foreign epoch is never this one
    if epoch = w.registry.cacheEpoch then (w, .done)
    else ({ w with
      caches := update w.caches thread (use.apply epoch (w.caches thread)) }, .done)

/-- The effect of an operation: it ends the transaction whose commit it completes or, if it is live,
the one it aborts. -/
def World.effect (w : World) : RegistryOp → TransactionRegistry.Effect
  | .completeCommit t now => TransactionRegistry.endsIfOk t (w.registry.completeCommit t now).2
  | .completeCommitWithStoragePublication t now =>
    TransactionRegistry.endsIfOk t (w.registry.completeCommitWithStoragePublication t now).2
  | .abort t _ => if w.registry.isLive t then .ends t else .plain
  | .runGc now => .collects 0 now
  | .cleanupOldTransactions maxAge now => .collects maxAge now
  | _ => .plain

theorem World.step_change (w : World) (op : RegistryOp) :
    TransactionRegistry.Change w.registry (w.effect op) (w.step op).1.registry := by
  cases op with
  | begin level => exact TransactionRegistry.change_begin _ level
  | startCommit t => exact TransactionRegistry.change_startCommit _ t
  | completeCommit t now =>
    have h := TransactionRegistry.change_completeCommitInner w.registry t false now
    have he : w.effect (.completeCommit t now) =
        TransactionRegistry.endsIfOk t (w.registry.completeCommitInner t false now).2 := by
      simp only [World.effect, TransactionRegistry.completeCommit]
      cases (w.registry.completeCommitInner t false now).2 <;> rfl
    rwa [he]
  | completeCommitWithStoragePublication t now =>
    exact TransactionRegistry.change_completeCommitInner _ t true now
  | abort t now => exact TransactionRegistry.change_abortTransaction _ t now
  | runGc now => exact .collect 0 now
  | cleanupOldTransactions maxAge now => exact .collect maxAge now
  | reserveVisibilitySequence => exact TransactionRegistry.change_reserveVisibilitySequence _
  | setGlobalIsolationLevel level => exact .quiet _ level _ (.inl rfl)
  | stopAccepting => exact .quiet _ _ false (.inl rfl)
  | startAccepting => exact .quiet _ _ true (.inl rfl)
  | isVisible thread v viewer => exact .refl _
  | foreign thread epoch use =>
    simp only [World.step, World.effect]
    split <;> exact .refl _

/-! ## Recovery leaves a good registry -/

namespace TransactionRegistry

/-- A registry in which no transaction has begun yet: it tracks aborted markers only. -/
structure Startup (r : TransactionRegistry) : Prop where
  dead : ∀ t st, r.transactions.lookup t = some st → st.isActiveOrCommitting = false
  tracked : ∀ t ∈ r.transactions, 0 < t ∧ t ≤ r.nextTxnId
  nextTxnId_nonneg : 0 ≤ r.nextTxnId
  sequence : 0 ≤ r.nextSequence ∧ r.nextSequence ≤ seqMask
  overrides : r.isolationOverrides = ∅
  overrideCount : r.overrideCount = 0
  exclusions : r.snapshotExclusions = ∅

namespace Startup

variable {r : TransactionRegistry}

theorem ok (h : r.Startup) : r.Ok where
  tracked := h.tracked
  nextTxnId_nonneg := h.nextTxnId_nonneg
  sequence := h.sequence
  live_lt t ht := by
    obtain ⟨st, hst, hl⟩ := ht
    exact absurd hl (by simp [h.dead t st hst])
  override_live t := by
    rw [h.overrides]
    refine ⟨fun ht => absurd ht (AList.notMem_empty t), fun ⟨st, hst, hl⟩ => ?_⟩
    exact absurd hl (by simp [h.dead t st hst])
  override_count := by rw [h.overrides, h.overrideCount]; rfl
  snapshot_override s := by
    rw [h.overrides, h.exclusions]
    refine ⟨fun hs => absurd hs (AList.notMem_empty s), fun hs => ?_⟩
    exact absurd (Table.mem_of_lookup hs) (AList.notMem_empty s)
  boundary s b hb := by
    rw [h.exclusions] at hb
    exact absurd (Table.mem_of_lookup hb) (AList.notMem_empty s)
  flag_inj s s' b b' hb := by
    rw [h.exclusions] at hb
    exact absurd (Table.mem_of_lookup hb) (AList.notMem_empty s)

theorem new (epoch : Nat) : (TransactionRegistry.new epoch).Startup where
  dead t st hst := absurd (Table.mem_of_lookup hst) (AList.notMem_empty t)
  tracked t ht := absurd ht (AList.notMem_empty t)
  nextTxnId_nonneg := le_rfl
  sequence := ⟨le_rfl, show (0 : Int) ≤ seqMask by decide⟩
  overrides := rfl
  overrideCount := rfl
  exclusions := rfl

theorem raiseTxnId (h : r.Startup) (t : Int) : (r.raiseTxnId t).Startup := by
  unfold TransactionRegistry.raiseTxnId
  split
  · refine { h with tracked := fun x hx => ?_, nextTxnId_nonneg := ?_ }
    · have := h.tracked x hx
      show 0 < x ∧ x ≤ t
      omega
    · have := h.nextTxnId_nonneg
      show 0 ≤ t
      omega
  · exact h

theorem raiseSequence (h : r.Startup) {n : Int} (hn : n ≤ seqMask) :
    (r.raiseSequence n).Startup := by
  unfold TransactionRegistry.raiseSequence
  split
  · refine { h with sequence := ⟨?_, hn⟩ }
    have := h.sequence
    show 0 ≤ n
    omega
  · exact h

theorem recoverAborted (h : r.Startup) {t : Int} (ht : 0 < t) (times : Table Int Int) :
    (TransactionRegistry.raiseTxnId { r with
      transactions := r.transactions.insert t TxnState.newAborted
      terminalTimes := times } t).Startup := by
  have h' := h.raiseTxnId t
  unfold TransactionRegistry.raiseTxnId at h' ⊢
  have hdead : ∀ x st, (r.transactions.insert t TxnState.newAborted).lookup x = some st →
      st.isActiveOrCommitting = false := by
    intro x st hst
    rw [Table.lookup_insert_if] at hst
    split at hst
    · cases hst
      rfl
    · exact h.dead x st hst
  split
  · rename_i hlt
    rw [if_pos hlt] at h'
    refine { h' with dead := hdead, tracked := fun x hx => ?_ }
    rcases (AList.mem_insert _).mp hx with rfl | hm
    · exact ⟨ht, le_rfl⟩
    · exact h'.tracked x hm
  · rename_i hlt
    refine { h with dead := hdead, tracked := fun x hx => ?_ }
    rcases (AList.mem_insert _).mp hx with rfl | hm
    · exact ⟨ht, not_lt.mp hlt⟩
    · exact h.tracked x hm

theorem recover (h : r.Startup) (call : RecoveryCall) : (r.recover call).Startup := by
  cases call with
  | committed t seq now =>
    simp only [TransactionRegistry.recover, recoverCommittedTransaction]
    split
    · exact h
    · split
      · exact h
      · rename_i hseq
        have hseq : seq ≤ seqMask := (not_not.mp hseq).2
        split
        · exact h.raiseSequence hseq
        · exact ((raiseTxnId (r := { r with
            snapshotSeqs := r.snapshotSeqs.insert t seq
            terminalTimes := r.terminalTimes.insert t now }) { h with } t)).raiseSequence hseq
  | aborted t now =>
    simp only [TransactionRegistry.recover, recoverAbortedTransaction]
    split
    · exact h
    · split
      · exact h
      · exact h.recoverAborted (by omega) _
  | transactionHighWater t =>
    simp only [TransactionRegistry.recover, recoverTransactionHighWater]
    split
    · exact h
    · split
      · exact h
      · exact h.raiseTxnId t
  | visibilityHighWater seq =>
    simp only [TransactionRegistry.recover, recoverVisibilityHighWater]
    split
    · exact h
    · rename_i hseq
      exact h.raiseSequence (not_not.mp hseq).2
  | reset =>
    exact { new 0 with overrides := rfl, overrideCount := rfl, exclusions := rfl }

theorem recovered (epoch : Nat) (calls : List RecoveryCall) :
    (TransactionRegistry.recovered epoch calls).Startup := by
  have main : ∀ (cs : List RecoveryCall) (r : TransactionRegistry), r.Startup →
      (cs.foldl TransactionRegistry.recover r).Startup := by
    intro cs
    induction cs with
    | nil => exact fun r h => h
    | cons c cs ih => exact fun r h => ih _ (h.recover c)
  exact main calls _ (new epoch)

end Startup

/-! ## Caches stay honest -/

variable {r r' : TransactionRegistry} {c : CommittedCache} {e : TransactionRegistry.Effect}

@[simp] theorem registryEpoch_insert (e : Nat) (t : Int) :
    (c.insert e t).registryEpoch = e := by
  simp only [CommittedCache.insert]
  split <;> simp_all

@[simp] theorem registryEpoch_installSnapshot (e : Nat) (viewer : Int) (b : SnapshotBoundary) :
    (c.installSnapshot e viewer b).registryEpoch = e := by
  simp only [CommittedCache.installSnapshot]
  split <;> simp_all

theorem cacheOk_of_epoch_ne (h : c.registryEpoch ≠ r.cacheEpoch) : r.CacheOk c :=
  fun he => absurd he h

theorem CacheOk.insert (h : r.CacheOk c) (t : Int) : r.CacheOk (c.insert r.cacheEpoch t) := by
  unfold CommittedCache.insert
  split
  · exact fun he => h he
  · exact fun _ b hb => absurd hb (by simp)

theorem Ok.cacheOk_installSnapshot (h : r.Ok) {viewer : Int} {b : SnapshotBoundary}
    (hb : r.snapshotExclusions.lookup viewer = some b) :
    r.CacheOk (c.installSnapshot r.cacheEpoch viewer b) := by
  intro _ b' hb'
  have hb' : some b = some b' := by
    simpa [CommittedCache.installSnapshot] using hb'
  cases hb'
  refine ⟨(List.getElem?_eq_some_iff.mp (h.boundary viewer b hb).flag).1, fun _ => ?_⟩
  simpa [CommittedCache.installSnapshot] using hb

theorem CacheOk.checkCommitted (h : r.CacheOk c) (t : Int) :
    r.CacheOk (r.checkCommitted c t).2 := by
  unfold TransactionRegistry.checkCommitted
  split
  · exact h
  · split
    · exact h
    · split
      · exact h
      · exact h.insert t

theorem Ok.cacheOk_isVisible (hr : r.Ok) (h : r.CacheOk c) (v viewer : Int) :
    r.CacheOk (r.isVisible c v viewer).2 := by
  unfold isVisible
  split
  · exact h
  · split
    · exact h
    · split
      · unfold isVisibleSnapshot
        cases c.snapshotVisibility r.activeFlags r.cacheEpoch v viewer with
        | some a => exact h
        | none =>
          cases hb : r.snapshotExclusions.lookup viewer with
          | none => exact h.checkCommitted v
          | some b => exact hr.cacheOk_installSnapshot hb
      · exact h.checkCommitted v

/-- A call on the registry leaves every thread's cache honest: ending a snapshot clears the flag its
cached clones are guarded by. -/
theorem CacheOk.change (h : r.CacheOk c) (hr : r.Ok) (hc : Change r e r') : r'.CacheOk c := by
  cases hc with
  | enroll level _ _ =>
    intro he b hb
    obtain ⟨hlen, hflag⟩ := h he b hb
    have hget : (r.enroll level (r.nextTxnId + 1) (r.nextSequence + 1)).activeFlags.getD b.active
        false = r.activeFlags.getD b.active false := by
      simp only [TransactionRegistry.enroll]
      split
      · simp [getD, getElem?_append_left hlen]
      · rfl
    refine ⟨?_, fun ht => ?_⟩
    · simp only [TransactionRegistry.enroll]
      split
      · rw [length_append]
        omega
      · exact hlen
    · rw [hget] at ht
      exact hr.boundary_of_live (.enroll level ‹_› ‹_›) (hflag ht)
        ((hr.enroll_live level _).mpr
          (.inr (hr.live_of_snapshot (Table.mem_of_lookup (hflag ht)))))
  | finish t n left txns seqs times count _ _ hleft htxns =>
    intro he b hb
    obtain ⟨hlen, hflag⟩ := h he b hb
    simp only [removeTransactionIsolationLevel, Table.lookup_erase_if]
    cases hbt : r.snapshotExclusions.lookup t with
    | none =>
      refine ⟨hlen, fun ht => ?_⟩
      have hb' := hflag ht
      rw [if_neg (fun hv => by rw [hv, hbt] at hb'; cases hb'), hb']
    | some bt =>
      refine ⟨by simpa using hlen, fun ht => ?_⟩
      by_cases hcell : bt.active = b.active
      · simp [getD, hcell, getElem?_set_self hlen] at ht
      · have ht' : r.activeFlags.getD b.active false = true := by
          simpa [getD, getElem?_set_ne hcell] using ht
        have hb' := hflag ht'
        rw [if_neg (fun hv => by rw [hv, hbt] at hb'; cases hb'; exact hcell rfl), hb']
  | _ => exact h

end TransactionRegistry

/-! ## Every moment of a run is good -/

/-- The registry satisfies its invariant and every thread's cache is honest. -/
structure World.Ok (w : World) : Prop where
  registry : w.registry.Ok
  caches : ∀ thread, w.registry.CacheOk (w.caches thread)

theorem World.Ok.start (epoch : Nat) (calls : List RecoveryCall) : (World.start epoch calls).Ok :=
  ⟨(TransactionRegistry.Startup.recovered epoch calls).ok, fun _ _ b hb => absurd hb (by
    simp [World.start, CommittedCache.new])⟩

theorem World.Ok.step {w : World} (h : w.Ok) (op : RegistryOp) : (w.step op).1.Ok := by
  have hc := w.step_change op
  refine ⟨h.registry.change hc, fun thread => ?_⟩
  have hkeep := (h.caches thread).change h.registry hc
  cases op with
  | isVisible thr v viewer =>
    by_cases ht : thread = thr
    · subst ht
      simp only [World.step, update_self]
      exact h.registry.cacheOk_isVisible (h.caches thread) v viewer
    · simp only [World.step, update_of_ne ht]
      exact h.caches thread
  | foreign thr epoch use =>
    simp only [World.step] at hkeep ⊢
    split
    · exact h.caches thread
    · rename_i hne
      by_cases ht : thread = thr
      · subst ht
        refine TransactionRegistry.cacheOk_of_epoch_ne ?_
        cases use <;> simpa [ForeignUse.apply] using hne
      · simp only [update_of_ne ht]
        exact h.caches thread
  | _ => exact hkeep

/-- A run: the recovery calls that filled the registry and the operations that followed. -/
structure RegistryRun where
  epoch : Nat
  recovery : List RecoveryCall
  ops : List RegistryOp

namespace RegistryRun

variable (run : RegistryRun)

def start : World := World.start run.epoch run.recovery

/-- The world at moment `m`, after the first `m` operations. -/
def worldAt (m : Nat) : World := Run.after World.step run.start run.ops m

/-- The registry at moment `m`. -/
def registryAt (m : Nat) : TransactionRegistry := (run.worldAt m).registry

/-- What operation number `k` returned. -/
def outcomeAt (k : Nat) : Option RegistryOutcome := Run.outcome World.step run.start run.ops k

theorem ok_at (m : Nat) : (run.worldAt m).Ok :=
  Run.after_invariant (World.Ok.start run.epoch run.recovery) (fun _ op h => h.step op) m

theorem registry_ok (m : Nat) : (run.registryAt m).Ok := (run.ok_at m).registry

theorem asks_eq_visible (m thread : Nat) (v viewer : Int) :
    (run.worldAt m).asks thread v viewer = (run.registryAt m).visible v viewer :=
  TransactionRegistry.isVisible_eq_visible ((run.ok_at m).caches thread) v viewer

variable {run} {k i m : Nat} {op : RegistryOp}

theorem registryAt_succ (h : run.ops[k]? = some op) :
    run.registryAt (k + 1) = ((run.worldAt k).step op).1.registry := by
  simp only [registryAt, worldAt, Run.after_succ h]

theorem outcomeAt_eq (h : run.ops[k]? = some op) :
    run.outcomeAt k = some ((run.worldAt k).step op).2 :=
  Run.outcome_of_get h

theorem change_at (h : run.ops[k]? = some op) :
    TransactionRegistry.Change (run.registryAt k) ((run.worldAt k).effect op)
      (run.registryAt (k + 1)) := by
  rw [registryAt_succ h]
  exact (run.worldAt k).step_change op

theorem nextSequence_mono (him : i ≤ m) :
    (run.registryAt i).nextSequence ≤ (run.registryAt m).nextSequence :=
  Run.after_mono (f := fun w : World => w.registry.nextSequence)
    (fun w op => (w.step_change op).nextSequence_le) him

/-- Committed once, committed at every later moment. -/
theorem gone_of_le (him : i ≤ m) {t : Int} (h : (run.registryAt i).Gone t) :
    (run.registryAt m).Gone t :=
  Run.after_of_le (P := fun w : World => w.registry.Gone t) him h
    fun w op hw => (w.step_change op).gone hw

/-- A transaction that is live at `m` was, at every earlier moment, live or not begun. -/
theorem live_before (him : i ≤ m) {t : Int} (h : (run.registryAt m).Live t) :
    (run.registryAt i).Live t ∨ (run.registryAt i).nextTxnId < t := by
  by_contra hno
  push Not at hno
  exact (Run.after_of_le (P := fun w : World => t ≤ w.registry.nextTxnId ∧ ¬ w.registry.Live t) him
    ⟨hno.2, hno.1⟩ fun w op hw => (w.step_change op).ended hw).2 h

end RegistryRun

end RadixDb
