import RadixDb.Registry.World

/-!
# Snapshots over whole runs

"Before" has two encodings in the registry. One is a set: the boundary a snapshot captures at its
begin, which lists what the map tracked. The other is a number: the sequences handed out by
begins, commits and storage publications. This file shows that both are the order of the steps
themselves. A snapshot sees exactly the transactions whose completion came before its begin, at
every moment of its life, and comparing sequence numbers says the same.

A transaction may reserve a low commit sequence and complete late; nothing here looks at commit
sequences, only at when the completing step ran.
-/

namespace RadixDb

open TransactionRegistry

/-! ## What the calls return -/

namespace TransactionRegistry

variable {r : TransactionRegistry} {t : Int}

theorem completeCommitInner_spec (hr : r.Ok) {now q : Int} {reserve : Bool}
    (h : (r.completeCommitInner t reserve now).2 = .ok q) :
    r.Live t ∧ (r.completeCommitInner t reserve now).1.Gone t ∧
      (∃ st, r.transactions.lookup t = some st ∧
        (r.completeCommitInner t reserve now).1.snapshotSeqs.lookup t = some st.commitSeq) ∧
      (reserve = true → q = r.nextSequence + 1 ∧ q ≤ seqMask ∧
        (r.completeCommitInner t reserve now).1.nextSequence = q) := by
  rcases completeCommitInner_cases r t reserve now with ⟨e, heq⟩ | ⟨st, n, q', hst, hl, -, hq, heq⟩
  · rw [heq] at h
    cases h
  · rw [heq] at h ⊢
    cases h
    have hpos := hr.tracked t hl.mem
    refine ⟨hl, ⟨hpos.1, hpos.2, fun hm => ?_⟩, ⟨st, hst, ?_⟩, fun hr => ?_⟩
    · exact (AList.mem_erase.mp (show t ∈ r.transactions.erase t from hm)).1 rfl
    · simp [publishCommit, removeTransactionIsolationLevel]
    · obtain ⟨hn, hmask, rfl⟩ := hq hr
      exact ⟨hn, hmask, rfl⟩

end TransactionRegistry

/-! ## Events of a run -/

namespace RegistryRun

variable (run : RegistryRun)

/-- Operation `i` begins the Snapshot-Isolation transaction `s` at sequence `b`. -/
def BeginsSnapshot (i : Nat) (s b : Int) : Prop :=
  run.ops[i]? = some (.begin .snapshotIsolation) ∧ run.outcomeAt i = some (.began s b) ∧
    s ≠ invalidTransactionId

/-- Operation `j` completes the commit of `t` with storage publication `q`. -/
def Publishes (j : Nat) (t q : Int) : Prop :=
  ∃ now, run.ops[j]? = some (.completeCommitWithStoragePublication t now) ∧
    run.outcomeAt j = some (.sequence (.ok q))

/-- Operation `j` completes the commit of `t`. -/
def Completes (j : Nat) (t : Int) : Prop :=
  (∃ now, run.ops[j]? = some (.completeCommit t now) ∧
    run.outcomeAt j = some (.completed (.ok ()))) ∨ ∃ q, run.Publishes j t q

/-- Operation `k` completes or aborts `t`. -/
def Ends (k : Nat) (t : Int) : Prop :=
  ∃ op, run.ops[k]? = some op ∧ (run.worldAt k).effect op = .ends t

/-- Moment `m` lies in the life of a transaction that operation `i` began: after the begin, and not
after its own commit or abort. -/
def InLife (i : Nat) (s : Int) (m : Nat) : Prop :=
  i < m ∧ ∀ k, i < k → k < m → ¬ run.Ends k s

variable {run} {j i : Nat} {t b s : Int}

theorem Completes.inner (h : run.Completes j t) : ∃ reserve now q,
    ((run.registryAt j).completeCommitInner t reserve now).2 = .ok q ∧
      run.registryAt (j + 1) = ((run.registryAt j).completeCommitInner t reserve now).1 := by
  rcases h with ⟨now, hop, hout⟩ | ⟨q, now, hop, hout⟩
  · rw [outcomeAt_eq hop] at hout
    simp only [World.step, completeCommit, Option.some.injEq, RegistryOutcome.completed.injEq]
      at hout
    cases hres : ((run.worldAt j).registry.completeCommitInner t false now).2 with
    | error e =>
      rw [hres] at hout
      cases hout
    | ok q => exact ⟨false, now, q, hres, registryAt_succ hop⟩
  · refine ⟨true, now, q, ?_, registryAt_succ hop⟩
    rw [outcomeAt_eq hop] at hout
    simpa [registryAt, World.step, completeCommitWithStoragePublication] using hout

theorem Completes.spec (h : run.Completes j t) :
    (run.registryAt j).Live t ∧ (run.registryAt (j + 1)).Gone t := by
  obtain ⟨reserve, now, q, hq, heq⟩ := h.inner
  obtain ⟨hl, hg, -⟩ := completeCommitInner_spec (run.registry_ok j) hq
  exact ⟨hl, heq ▸ hg⟩

theorem BeginsSnapshot.spec (h : run.BeginsSnapshot i s b) :
    s = (run.registryAt i).nextTxnId + 1 ∧ b = (run.registryAt i).nextSequence + 1 ∧
      run.registryAt (i + 1) = (run.registryAt i).enroll .snapshotIsolation s b := by
  obtain ⟨hop, hout, hne⟩ := h
  rw [outcomeAt_eq hop] at hout
  rw [registryAt_succ hop]
  simp only [World.step] at hout ⊢
  rcases begin_cases (run.worldAt i).registry .snapshotIsolation with heq | ⟨-, -, heq⟩
  · rw [heq] at hout
    cases hout
    exact absurd rfl hne
  · rw [heq] at hout ⊢
    cases hout
    exact ⟨rfl, rfl, rfl⟩

theorem BeginsSnapshot.boundary {m : Nat} (h : run.BeginsSnapshot i s b) (hm : run.InLife i s m) :
    (run.registryAt m).snapshotExclusions.lookup s = some ((run.registryAt i).newBoundary s) := by
  obtain ⟨hs, -, henroll⟩ := h.spec
  have hstart : (run.registryAt (i + 1)).snapshotExclusions.lookup s =
      some ((run.registryAt i).newBoundary s) := by
    simp [henroll, enroll]
  -- one step that does not end `s` leaves it live, and then leaves its boundary alone
  refine Run.after_while (P := fun w : World => w.registry.snapshotExclusions.lookup s =
      some ((run.registryAt i).newBoundary s)) (Q := fun k => ¬ run.Ends k s) hm.1 hstart
    (fun k hik hkm => hm.2 k hik hkm) fun k op _ hop hk hb => ?_
  have hok := run.registry_ok k
  have hlive := hok.live_of_snapshot (Table.mem_of_lookup hb)
  have hkeep : ((run.worldAt k).step op).1.registry.Live s :=
    ((run.worldAt k).step_change op).live hlive (hok.tracked s hlive.mem).2
      fun he => hk ⟨op, hop, he⟩
  exact hok.boundary_of_live ((run.worldAt k).step_change op) hb hkeep

/-! ## Snapshot stability -/

theorem boundary_isVisible (hs : run.BeginsSnapshot i s b) (ht : run.Completes j t) (hne : t ≠ s) :
    ((run.registryAt i).newBoundary s).isVisible t = decide (j < i) := by
  obtain ⟨hsid, -⟩ := hs.spec
  obtain ⟨hlive, hgone⟩ := ht.spec
  by_cases hji : j < i
  · -- completed before the snapshot: out of the map, and its id was handed out
    obtain ⟨hpos, hle, hnot⟩ := gone_of_le (i := j + 1) (m := i) hji hgone
    rw [decide_eq_true hji, SnapshotBoundary.isVisible_iff]
    refine ⟨hpos, ?_, fun hex => hnot (Table.mem_sortedKeys.mp hex)⟩
    show t ≤ s
    omega
  · -- completes after the snapshot: then it was live at the begin, or not begun
    rw [decide_eq_false hji, ← Bool.not_eq_true, SnapshotBoundary.isVisible_iff]
    rintro ⟨_, hmax, hnot⟩
    have hmax : t ≤ s := hmax
    rcases live_before (i := i) (m := j) (by omega) hlive with hl | hlt
    · exact hnot (Table.mem_sortedKeys.mpr hl.mem)
    · omega

theorem visible_iff_completed_before {m : Nat} (hs : run.BeginsSnapshot i s b)
    (ht : run.Completes j t) (hne : t ≠ s) (hm : run.InLife i s m) :
    (run.registryAt m).visible t s = decide (j < i) := by
  have hrec := ne_recovery_of_pos ((run.registry_ok j).tracked t ht.spec.1.mem).1
  rw [(run.registry_ok m).visible_of_boundary (hs.boundary hm) hne hrec]
  exact boundary_isVisible hs ht hne

/-- **Snapshot stability.** In every run, at every moment in the life of a Snapshot-Isolation
transaction `s` and on every thread, a transaction `t ≠ s` that ever completes its commit is visible
to `s` exactly if the completing step came before the step that began `s`. -/
theorem snapshot_stability {i j m : Nat} {s t b : Int} (hs : run.BeginsSnapshot i s b)
    (ht : run.Completes j t) (hne : t ≠ s) (hm : run.InLife i s m) (thread : Nat) :
    (run.worldAt m).asks thread t s = decide (j < i) := by
  rw [asks_eq_visible]
  exact visible_iff_completed_before hs ht hne hm

/-- Transactions 1 and 2 begin and start to commit; only 1 completes before the snapshot 3 begins.
-/
def lateCommit : RegistryRun where
  epoch := 1
  recovery := []
  ops := [.begin .readCommitted, .begin .readCommitted, .startCommit 1, .startCommit 2,
    .completeCommit 1 100, .begin .snapshotIsolation,
    .completeCommitWithStoragePublication 2 200, .runGc 300]

theorem lateCommit_inLife : lateCommit.InLife 5 3 8 := by
  refine ⟨by decide, fun k hk hk' => ?_⟩
  rintro ⟨op, hop, hend⟩
  obtain rfl | rfl : k = 6 ∨ k = 7 := by omega
  · cases hop
    exact absurd (Effect.ends.inj hend) (by decide)
  · cases hop
    cases hend

theorem snapshot_stability_lateCommit :
    (lateCommit.worldAt 8).asks 0 1 3 = true ∧ (lateCommit.worldAt 8).asks 0 2 3 = false := by
  have hbegin : lateCommit.BeginsSnapshot 5 3 5 := ⟨rfl, rfl, by decide⟩
  have hfirst : lateCommit.Completes 4 1 := Or.inl ⟨100, rfl, rfl⟩
  have hsecond : lateCommit.Completes 6 2 := Or.inr ⟨6, 200, rfl, rfl⟩
  exact ⟨snapshot_stability hbegin hfirst (by decide) lateCommit_inLife 0,
    snapshot_stability hbegin hsecond (by decide) lateCommit_inLife 0⟩

/-! ## Sequences -/

theorem Publishes.spec {q : Int} (h : run.Publishes j t q) :
    q = (run.registryAt j).nextSequence + 1 ∧ (run.registryAt (j + 1)).nextSequence = q := by
  obtain ⟨now, hop, hout⟩ := h
  rw [outcomeAt_eq hop] at hout
  have hq : ((run.registryAt j).completeCommitInner t true now).2 = .ok q := by
    simpa [registryAt, World.step, completeCommitWithStoragePublication] using hout
  obtain ⟨-, -, -, hseq⟩ := completeCommitInner_spec (run.registry_ok j) hq
  rw [registryAt_succ hop]
  exact ⟨(hseq rfl).1, (hseq rfl).2.2⟩

theorem Publishes.lt_iff {q : Int} (hs : run.BeginsSnapshot i s b)
    (ht : run.Publishes j t q) : q < b ↔ j < i := by
  obtain ⟨-, hb, henroll⟩ := hs.spec
  obtain ⟨hq, hq'⟩ := ht.spec
  constructor
  · intro hlt
    by_contra hge
    have hij : i ≠ j := by
      rintro rfl
      obtain ⟨now, hop, -⟩ := ht
      exact absurd (hs.1.symm.trans hop) (by simp)
    have hmono : (run.registryAt (i + 1)).nextSequence ≤ (run.registryAt j).nextSequence :=
      nextSequence_mono (by omega)
    rw [henroll] at hmono
    have hmono : b ≤ (run.registryAt j).nextSequence := hmono
    omega
  · intro hlt
    have hmono : (run.registryAt (j + 1)).nextSequence ≤ (run.registryAt i).nextSequence :=
      nextSequence_mono hlt
    omega

end RegistryRun

/-- The sequence number an outcome handed to its caller. -/
def RegistryOutcome.sequence? : RegistryOutcome → Option Int
  | .began t b => if t = invalidTransactionId then none else some b
  | .sequence (.ok q) => some q
  | _ => none

/-- The transaction id an outcome handed to its caller. -/
def RegistryOutcome.txnId? : RegistryOutcome → Option Int
  | .began t _ => if t = invalidTransactionId then none else some t
  | _ => none

/-- A sequence handed out is the counter's next value, and the counter moves to it. -/
theorem World.Ok.step_sequence {w : World} (h : w.Ok) {op : RegistryOp} {q : Int}
    (hq : (w.step op).2.sequence? = some q) :
    w.registry.nextSequence < q ∧ q ≤ (w.step op).1.registry.nextSequence := by
  cases op with
  | begin level =>
    simp only [World.step, RegistryOutcome.sequence?] at hq ⊢
    rcases begin_cases w.registry level with heq | ⟨-, -, heq⟩
    · simp [heq] at hq
    · rw [heq] at hq ⊢
      split_ifs at hq
      cases hq
      exact ⟨Int.lt_succ _, le_rfl⟩
  | startCommit t =>
    simp only [World.step, RegistryOutcome.sequence?] at hq ⊢
    rcases startCommit_cases w.registry t with ⟨e, heq⟩ | ⟨st, c, -, -, hn, heq⟩
    · rw [heq] at hq
      cases hq
    · rw [heq] at hq ⊢
      cases hq
      obtain ⟨rfl, -⟩ := nextSequenceIn_eq_some.mp hn
      exact ⟨Int.lt_succ _, le_rfl⟩
  | completeCommitWithStoragePublication t now =>
    simp only [World.step, RegistryOutcome.sequence?] at hq ⊢
    cases hres : (w.registry.completeCommitWithStoragePublication t now).2 with
    | error e =>
      rw [hres] at hq
      cases hq
    | ok c =>
      rw [hres] at hq
      cases hq
      obtain ⟨-, -, -, hseq⟩ := completeCommitInner_spec h.registry hres
      obtain ⟨hc, -, hnext⟩ := hseq rfl
      exact ⟨by omega, hnext.ge⟩
  | reserveVisibilitySequence =>
    simp only [World.step, RegistryOutcome.sequence?, reserveVisibilitySequence] at hq ⊢
    cases hn : w.registry.nextSequenceIn with
    | none =>
      rw [hn] at hq
      cases hq
    | some n =>
      rw [hn] at hq
      cases hq
      obtain ⟨hn', -⟩ := nextSequenceIn_eq_some.mp hn
      exact ⟨by omega, le_rfl⟩
  | foreign thread epoch use =>
    simp only [World.step] at hq
    split at hq <;> cases hq
  | _ => cases hq

theorem World.step_txnId {w : World} {op : RegistryOp} {t : Int}
    (ht : (w.step op).2.txnId? = some t) :
    w.registry.nextTxnId < t ∧ t ≤ (w.step op).1.registry.nextTxnId := by
  cases op with
  | begin level =>
    simp only [World.step, RegistryOutcome.txnId?] at ht ⊢
    rcases begin_cases w.registry level with heq | ⟨-, -, heq⟩
    · simp [heq] at ht
    · rw [heq] at ht ⊢
      split_ifs at ht
      cases ht
      exact ⟨Int.lt_succ _, le_rfl⟩
  | foreign thread epoch use =>
    simp only [World.step] at ht
    split at ht <;> cases ht
  | _ => cases ht

namespace RegistryRun

variable (run : RegistryRun)

/-- Every begin, commit, storage and reserved sequence the run handed out, in order. -/
def sequences : List Int :=
  (Run.outcomes World.step run.start run.ops).filterMap RegistryOutcome.sequence?

/-- Every transaction id the run handed out, in order. -/
def txnIds : List Int :=
  (Run.outcomes World.step run.start run.ops).filterMap RegistryOutcome.txnId?

theorem sequences_increasing :
    run.sequences.Pairwise (· < ·) ∧ ∀ q ∈ run.sequences, 0 < q ∧ q ≤ seqMask := by
  obtain ⟨hsorted, hbds⟩ : run.sequences.Pairwise (· < ·) ∧ ∀ q ∈ run.sequences,
      run.start.registry.nextSequence < q ∧
        q ≤ (run.registryAt run.ops.length).nextSequence := Run.pairwise_outcomes (P := World.Ok)
    (f := RegistryOutcome.sequence?) (c := fun w => w.registry.nextSequence)
    (fun _ op h => h.step op) (fun w op _ => (w.step_change op).nextSequence_le)
    (fun _ _ _ h hq => h.step_sequence hq) (World.Ok.start run.epoch run.recovery)
  refine ⟨hsorted, fun q hq => ?_⟩
  have h0 := (run.registry_ok 0).sequence.1
  have hend := (run.registry_ok run.ops.length).sequence.2
  have hb := hbds q hq
  exact ⟨lt_of_le_of_lt h0 hb.1, hb.2.trans hend⟩

theorem txnIds_nodup : run.txnIds.Nodup := by
  have hsorted : run.txnIds.Pairwise (· < ·) := (Run.pairwise_outcomes (P := World.Ok)
    (f := RegistryOutcome.txnId?) (c := fun w => w.registry.nextTxnId)
    (fun _ op h => h.step op) (fun w op _ => (w.step_change op).nextTxnId_le)
    (fun _ _ _ _ hq => World.step_txnId hq) (World.Ok.start run.epoch run.recovery)).1
  exact hsorted.imp fun hlt => hlt.ne

/-- **Boundaries and sequence numbers agree.** In every run after recovery: a transaction published
with storage sequence `q` is visible to a snapshot with begin sequence `b` exactly if `q < b`; the
sequences handed out are strictly increasing and fit the packed domain; no transaction id is handed
out twice. -/
theorem storage_sequences_agree :
    (∀ (i j m thread : Nat) (s t b q : Int), run.BeginsSnapshot i s b → run.Publishes j t q →
      t ≠ s → run.InLife i s m → (run.worldAt m).asks thread t s = decide (q < b)) ∧
    run.sequences.Pairwise (· < ·) ∧ (∀ q ∈ run.sequences, q ≤ seqMask) ∧ run.txnIds.Nodup := by
  refine ⟨?_, run.sequences_increasing.1, fun q hq => (run.sequences_increasing.2 q hq).2,
    run.txnIds_nodup⟩
  intro i j m thread s t b q hs ht hne hm
  rw [asks_eq_visible, visible_iff_completed_before hs (Or.inr ⟨q, ht⟩) hne hm]
  exact decide_eq_decide.mpr (ht.lt_iff hs).symm

/-- In `lateCommit` transaction 2 publishes at 6, after the snapshot 3 that began at 5. -/
theorem storage_sequences_agree_lateCommit :
    (lateCommit.worldAt 8).asks 0 2 3 = decide ((6 : Int) < 5) ∧
      lateCommit.sequences = [1, 2, 3, 4, 5, 6] :=
  ⟨(storage_sequences_agree lateCommit).1 5 6 8 0 3 2 5 6 ⟨rfl, rfl, by decide⟩
    ⟨200, rfl, rfl⟩ (by decide) lateCommit_inLife, by decide⟩

end RegistryRun

end RadixDb
