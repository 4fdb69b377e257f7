import RadixDb.Registry.Invariant

/-!
# What later viewers can come to see

A registry state does not say what a viewer of tomorrow will see: transactions in flight may
commit or abort first. It does say what that viewer will see in any case (`settled`: committed
transactions and recovered data) and what it will not see in any case (`dead`: aborted ones).
`Outlook r vis` holds of every view between these two.

**An outlook of a later registry is an outlook of an earlier one** (`Outlook.change`), as long as
no marker is collected in between; a reader without a snapshot always has one, and a snapshot has
one when it begins.
-/

namespace RadixDb
namespace TransactionRegistry

/-- Visible to whoever begins from now on. -/
def settled (r : TransactionRegistry) (t : Int) : Bool :=
  t == recoveryTransactionId || r.isCommitted t

/-- Handed out, neither committed nor live: invisible to everyone else from now on. -/
def dead (r : TransactionRegistry) (t : Int) : Bool :=
  decide (t ≤ r.nextTxnId) && !r.settled t && !r.isLive t

/-- A view that a later reader may have, whatever the transactions in flight do. -/
structure Outlook (r : TransactionRegistry) (vis : Int → Bool) : Prop where
  sees_settled : ∀ t, r.settled t = true → vis t = true
  not_dead : ∀ t, vis t = true → r.dead t = false

variable {t u : Int} {r : TransactionRegistry}

theorem settled_iff : r.settled t = true ↔ t = recoveryTransactionId ∨ r.Gone t := by
  simp [settled, isCommitted_iff]

theorem dead_iff : r.dead t = true ↔ t ≤ r.nextTxnId ∧ ¬ r.settled t = true ∧ ¬ r.Live t := by
  simp [dead, ← isLive_iff, and_assoc]

variable {r r' : TransactionRegistry} {e : Effect}

theorem Change.settled (h : Change r e r') (ht : r.settled t = true) : r'.settled t = true := by
  rw [settled_iff] at ht ⊢
  exact ht.imp_right h.gone

/-- The dead stay dead when no garbage is collected. -/
theorem Change.dead (h : Change r e r') (he : ∀ maxAge now, e ≠ .collects maxAge now)
    (ht : r.dead t = true) : r'.dead t = true := by
  obtain ⟨hle, hset, hlive⟩ := dead_iff.mp ht
  refine dead_iff.mpr ⟨hle.trans h.nextTxnId_le, fun hset' => hset ?_, (h.ended ⟨hle, hlive⟩).2⟩
  rcases settled_iff.mp hset' with hrec | hgone
  · exact settled_iff.mpr (.inl hrec)
  · by_cases hmem : t ∈ r.transactions
    · rcases h.marked ⟨hmem, hlive⟩ hle with hm | ⟨maxAge, now, _, heff, _⟩
      · exact absurd hm.1 hgone.2.2
      · exact absurd heff (he maxAge now)
    · exact settled_iff.mpr (.inr ⟨hgone.1, hle, hmem⟩)

/-- **An outlook of tomorrow is one of today.** -/
theorem Outlook.change {vis : Int → Bool} (ho : Outlook r' vis) (h : Change r e r')
    (he : ∀ maxAge now, e ≠ .collects maxAge now) : Outlook r vis where
  sees_settled t ht := ho.sees_settled t (h.settled ht)
  not_dead t ht := by
    by_contra hd
    have hd' := h.dead he (t := t) (by simpa using hd)
    rw [ho.not_dead t ht] at hd'
    cases hd'

theorem outlook_of_no_boundary (hu : r.Live u)
    (hb : r.snapshotExclusions.lookup u = none) : Outlook r (r.visible · u) where
  sees_settled t ht := by
    by_cases hself : t = u
    · simp [visible, hself]
    · by_cases hrec : t = recoveryTransactionId
      · simp [visible, hrec]
      · rw [visible_of_no_boundary hb hself hrec]
        exact isCommitted_iff.mpr ((settled_iff.mp ht).resolve_left hrec)
  not_dead t ht := by
    by_contra hd
    obtain ⟨-, hset, hlive⟩ := dead_iff.mp (by simpa using hd)
    by_cases hself : t = u
    · exact hlive (hself ▸ hu)
    · by_cases hrec : t = recoveryTransactionId
      · exact hset (settled_iff.mpr (.inl hrec))
      · rw [visible_of_no_boundary hb hself hrec, isCommitted_iff] at ht
        exact hset (settled_iff.mpr (.inr ht))

/-- What a snapshot sees when it begins: what has been committed, and itself. -/
theorem enroll_visible (h : (r.enroll .snapshotIsolation (r.nextTxnId + 1) (r.nextSequence + 1)).Ok)
    (hself : t ≠ r.nextTxnId + 1) (hrec : t ≠ recoveryTransactionId) :
    (r.enroll .snapshotIsolation (r.nextTxnId + 1) (r.nextSequence + 1)).visible t
        (r.nextTxnId + 1) = true ↔
      (r.enroll .snapshotIsolation (r.nextTxnId + 1) (r.nextSequence + 1)).Gone t := by
  have hb : (r.enroll .snapshotIsolation (r.nextTxnId + 1)
      (r.nextSequence + 1)).snapshotExclusions.lookup (r.nextTxnId + 1) =
      some (r.newBoundary (r.nextTxnId + 1)) := by simp [enroll]
  rw [h.visible_of_boundary hb hself hrec, SnapshotBoundary.isVisible_iff]
  have hmem : t ∈ r.transactions.sortedKeys ↔
      t ∈ (r.enroll .snapshotIsolation (r.nextTxnId + 1) (r.nextSequence + 1)).transactions := by
    rw [Table.mem_sortedKeys]
    exact ((AList.mem_insert _).trans (or_iff_right hself)).symm
  exact and_congr_right fun _ => and_congr_right fun _ => not_congr hmem

theorem Ok.outlook_of_boundary_new (h : r.Ok) (hc : Change r e r') {b : SnapshotBoundary}
    (hn : r.snapshotExclusions.lookup u = none) (hb : r'.snapshotExclusions.lookup u = some b) :
    Outlook r' (r'.visible · u) := by
  have hr' := h.change hc
  obtain ⟨rfl, -, rfl⟩ := hc.boundary_new hn hb
  have hu := hr'.live_of_snapshot (Table.mem_of_lookup hb)
  refine ⟨fun t ht => ?_, fun t ht => ?_⟩
  · by_cases hself : t = r.nextTxnId + 1
    · simp [visible, hself]
    · by_cases hrec : t = recoveryTransactionId
      · simp [visible, hrec]
      · exact (enroll_visible hr' hself hrec).mpr ((settled_iff.mp ht).resolve_left hrec)
  · by_contra hd
    obtain ⟨-, hset, hlive⟩ := dead_iff.mp (by simpa using hd)
    by_cases hself : t = r.nextTxnId + 1
    · exact hlive (hself ▸ hu)
    · by_cases hrec : t = recoveryTransactionId
      · exact hset (settled_iff.mpr (.inl hrec))
      · exact hset (settled_iff.mpr (.inr ((enroll_visible hr' hself hrec).mp ht)))

theorem Ok.visible_of_boundary_kept (h : r.Ok) (hc : Change r e r') {b : SnapshotBoundary}
    (hb : r.snapshotExclusions.lookup u = some b) (hlive : r'.Live u) (t : Int) :
    r'.visible t u = r.visible t u := by
  by_cases hself : t = u
  · simp [visible, hself]
  · by_cases hrec : t = recoveryTransactionId
    · simp [visible, hrec]
    · rw [h.visible_of_boundary hb hself hrec,
        (h.change hc).visible_of_boundary (h.boundary_of_live hc hb hlive) hself hrec]

end TransactionRegistry
end RadixDb
