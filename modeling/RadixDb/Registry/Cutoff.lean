import RadixDb.Registry.Snapshot

/-!
# Commit sequences and cutoffs

A cutoff is a sequence number up to which every commit is complete (registry.rs,
`safe_snapshot_cutoff`). Whoever holds one asks `is_committed_before` which transactions lie within
it. The answer is read off the commit sequence that the completion recorded; garbage collection
drops these records, and a transaction without one counts as old.

The collector compares a sequence with the begins of live transactions only, not with the cutoffs
that somebody still holds. **Once the record is dropped, its transaction lies within every cutoff**:
the test is exact if the sequence does, or as long as no collection has dropped it
(`cutoff_exact_iff`).
-/

namespace RadixDb

open Table TransactionRegistry

/-- A sequence up to which every commit has completed. -/
def TransactionRegistry.safeSnapshotCutoff (r : TransactionRegistry) : Int :=
  let minCommitting := r.transactions.entries.foldl
    (fun acc e => if e.2.status = .committing ∧ 0 < e.2.commitSeq ∧ e.2.commitSeq < acc then
      e.2.commitSeq else acc) I64.maxValue
  if minCommitting = I64.maxValue then r.nextSequence else minCommitting - 1

/-- Nothing but a collection touches the sequence of a transaction that has left the map. -/
theorem World.snapshotSeqs_step (w : World) (op : RegistryOp) {t : Int}
    (hgone : t ∉ w.registry.transactions) :
    (w.step op).1.registry.snapshotSeqs.lookup t = w.registry.snapshotSeqs.lookup t ∨
      ∃ maxAge now, w.effect op = .collects maxAge now ∧
        (w.step op).1.registry.snapshotSeqs.lookup t = (w.registry.snapshotSeqs.lookup t).filter
          fun s => !w.registry.gcDropsSeq maxAge now t s := by
  have hcomplete : ∀ u reserve now,
      (w.registry.completeCommitInner u reserve now).1.snapshotSeqs.lookup t =
        w.registry.snapshotSeqs.lookup t := by
    intro u reserve now
    rcases completeCommitInner_cases w.registry u reserve now with
      ⟨e, h⟩ | ⟨st, n, q, hst, -, -, -, h⟩
    · rw [h]
    · rw [h]
      refine (lookup_insert_if _ u t _).trans (if_neg ?_)
      rintro rfl
      exact hgone (mem_of_lookup hst)
  cases op with
  | begin level =>
    rcases begin_cases w.registry level with h | ⟨-, -, h⟩ <;> simp [World.step, h, enroll]
  | startCommit u =>
    rcases startCommit_cases w.registry u with ⟨e, h⟩ | ⟨st, c, -, -, -, h⟩ <;> simp [World.step, h]
  | completeCommit u now => exact .inl (hcomplete u false now)
  | completeCommitWithStoragePublication u now => exact .inl (hcomplete u true now)
  | abort u now =>
    refine .inl ?_
    simp only [World.step, abortTransaction]
    repeat' split
    all_goals rfl
  | runGc now => exact .inr ⟨0, now, rfl, lookup_retain _ _ t⟩
  | cleanupOldTransactions maxAge now => exact .inr ⟨maxAge, now, rfl, lookup_retain _ _ t⟩
  | reserveVisibilitySequence =>
    refine .inl ?_
    simp only [World.step, reserveVisibilitySequence]
    split <;> rfl
  | foreign thread epoch use =>
    simp only [World.step]
    split <;> exact .inl rfl
  | _ => exact .inl rfl

namespace RegistryRun

variable (run : RegistryRun)

/-- Operation `j` completes the commit of `t`, whose commit sequence is `s`. -/
def CompletesWith (j : Nat) (t s : Int) : Prop :=
  run.Completes j t ∧ ∃ st, (run.registryAt j).transactions.lookup t = some st ∧ st.commitSeq = s

/-- Operation `k` is a garbage collection that drops the sequence of `t`. -/
def DropsSequence (k : Nat) (t : Int) : Prop :=
  ∃ op maxAge now s, run.ops[k]? = some op ∧ (run.worldAt k).effect op = .collects maxAge now ∧
    (run.registryAt k).snapshotSeqs.lookup t = some s ∧
    (run.registryAt k).gcDropsSeq maxAge now t s = true

variable {run} {j m : Nat} {t s : Int}

theorem CompletesWith.recorded (h : run.CompletesWith j t s) :
    (run.registryAt (j + 1)).snapshotSeqs.lookup t = some s := by
  obtain ⟨hc, st, hst, rfl⟩ := h
  obtain ⟨reserve, now, q, hq, heq⟩ := hc.inner
  obtain ⟨-, -, ⟨st', hst', hseq⟩, -⟩ := completeCommitInner_spec (run.registry_ok j) hq
  rw [hst] at hst'
  cases hst'
  rw [heq, hseq]

theorem DropsSequence.dropped (h : run.DropsSequence m t) :
    (run.registryAt (m + 1)).snapshotSeqs.lookup t = none := by
  obtain ⟨op, maxAge, now, s, hop, heff, hs, hdrop⟩ := h
  have hc := change_at hop
  rw [heff] at hc
  generalize run.registryAt (m + 1) = r' at hc
  cases hc with
  | collect =>
    refine (lookup_retain _ _ t).trans ?_
    simp [hs, hdrop]

/-- The sequence that a completion records stays until a collection drops it, and never returns. -/
theorem CompletesWith.sequence (h : run.CompletesWith j t s) (hjm : j < m) :
    (run.registryAt m).snapshotSeqs.lookup t = some s ∧
        (∀ k, j < k → k < m → ¬ run.DropsSequence k t) ∨
      (run.registryAt m).snapshotSeqs.lookup t = none ∧
        ¬ ∀ k, j < k → k < m → ¬ run.DropsSequence k t := by
  have hout : ∀ k, j < k → t ∉ (run.registryAt k).transactions :=
    fun k hk => (gone_of_le hk h.1.spec.2).2.2
  by_cases hkept : ∀ k, j < k → k < m → ¬ run.DropsSequence k t
  · refine .inl ⟨?_, hkept⟩
    refine Run.after_while (P := fun w : World => w.registry.snapshotSeqs.lookup t = some s)
      (Q := fun k => ¬ run.DropsSequence k t) hjm h.recorded hkept fun k op hk hop hkeep hseq => ?_
    rcases (run.worldAt k).snapshotSeqs_step op (hout k hk) with heq | ⟨maxAge, now, heff, heq⟩
    · exact heq.trans hseq
    · rw [show (run.worldAt k).registry.snapshotSeqs.lookup t = some s from hseq,
        Option.filter_some] at heq
      refine heq.trans (if_pos ?_)
      by_contra hdrop
      exact hkeep ⟨op, maxAge, now, s, hop, heff, hseq, by simpa [registryAt] using hdrop⟩
  · refine .inr ⟨?_, hkept⟩
    push Not at hkept
    obtain ⟨k, hk, hkm, hdrop⟩ := hkept
    refine Run.after_while (P := fun w : World => w.registry.snapshotSeqs.lookup t = none)
      (Q := fun _ => True) hkm hdrop.dropped (fun _ _ _ => trivial) fun i op hi _ _ hseq => ?_
    rcases (run.worldAt i).snapshotSeqs_step op (hout i (hk.trans hi)) with heq | ⟨_, _, -, heq⟩
    · exact heq.trans hseq
    · rw [show (run.worldAt i).registry.snapshotSeqs.lookup t = none from hseq] at heq
      exact heq

/-- **When the cutoff test is exact.** For every transaction `t` that has completed its commit with
sequence `s` and every cutoff of the run, `is_committed_before` says whether `s` lies within the
cutoff exactly if it does, or no collection has dropped the sequence of `t`. -/
theorem cutoff_exact_iff {i : Nat} (h : run.CompletesWith j t s) (hjm : j < m) :
    ((run.registryAt m).isCommittedBefore t (run.registryAt i).safeSnapshotCutoff = true ↔
        s ≤ (run.registryAt i).safeSnapshotCutoff) ↔
      s ≤ (run.registryAt i).safeSnapshotCutoff ∨
        ∀ k, j < k → k < m → ¬ run.DropsSequence k t := by
  obtain ⟨hpos, hle, hmem⟩ := gone_of_le hjm h.1.spec.2
  have hneg : ¬ t < 0 := by omega
  rcases h.sequence hjm with ⟨hseq, hkept⟩ | ⟨hseq, hdropped⟩
  · simp only [isCommittedBefore, hneg, hmem, hseq, if_false, decide_eq_true_eq, true_iff]
    exact .inr hkept
  · simp only [isCommittedBefore, hneg, hmem, hseq, hpos, hle, hdropped, if_false, decide_true,
      Bool.and_true, true_iff, or_false]

/-- A cutoff is taken, transaction 1 commits after it, and a collection runs. -/
def cutoffHeld : RegistryRun where
  epoch := 1
  recovery := []
  ops := [.begin .readCommitted, .startCommit 1, .completeCommit 1 100, .runGc 200]

theorem cutoffHeld_completesWith : cutoffHeld.CompletesWith 2 1 2 :=
  ⟨.inl ⟨100, rfl, rfl⟩, _, rfl, by decide⟩

theorem cutoff_exact_cutoffHeld :
    ((cutoffHeld.registryAt 3).isCommittedBefore 1 (cutoffHeld.registryAt 1).safeSnapshotCutoff =
      true ↔ 2 ≤ (cutoffHeld.registryAt 1).safeSnapshotCutoff) :=
  (cutoff_exact_iff cutoffHeld_completesWith (by decide)).mpr
    (.inr fun k hk hkm => absurd hkm (by omega))

/-- The commit has sequence 2, the cutoff is 1, and the test says that 1 committed within it. -/
theorem dropped_sequence_within_cutoff :
    cutoffHeld.CompletesWith 2 1 2 ∧ (cutoffHeld.registryAt 1).safeSnapshotCutoff = 1 ∧
      (cutoffHeld.registryAt 4).isCommittedBefore 1 1 = true :=
  ⟨cutoffHeld_completesWith, by decide, by decide⟩

end RegistryRun

end RadixDb
