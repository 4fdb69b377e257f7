import RadixDb.Registry.Outlook
import RadixDb.Registry.Snapshot

/-!
# What a seal may take to cold storage

Cold rows have no creator any more: whoever reads them sees them. Before a seal extracts rows it
asks the registry for the transactions whose rows must stay hot (registry.rs,
`capture_seal_visibility`): those in flight, and those some live snapshot does not see.

`Shown r t` is what a seal needs of a creator `t`: it is settled, and every live transaction sees
it. **Once shown, always shown** (`Change.shown`), and a transaction that the captured snapshot
lets through is shown or dead (`Ok.shown_of_capture`).
-/

namespace RadixDb

open List

/-- The holes that cold storage cannot represent, at one moment. -/
structure SealVisibilitySnapshot where
  maxVisibleTxnId : Option Int
  excludedTxnIds : List Int
  sorted : excludedTxnIds.Pairwise (· ≤ ·)

namespace SealVisibilitySnapshot

def new (maxVisibleTxnId : Option Int) (excludedTxnIds : List Int) : SealVisibilitySnapshot where
  maxVisibleTxnId := maxVisibleTxnId
  excludedTxnIds := (excludedTxnIds.insertionSort (· ≤ ·)).dedup
  sorted := List.Pairwise.sublist (List.dedup_sublist _)
    (List.pairwise_insertionSort (· ≤ ·) excludedTxnIds)

/-- Recovered rows always; others if no snapshot is older than them and none excludes them. The list
is sorted, so the code searches it by bisection. -/
def isVisible (s : SealVisibilitySnapshot) (txnId : Int) : Bool :=
  decide (txnId < 0) ||
    (decide (0 < txnId) && s.maxVisibleTxnId.all (fun m => decide (txnId ≤ m)) &&
      !s.excludedTxnIds.contains txnId)

end SealVisibilitySnapshot

namespace TransactionRegistry

/-- The boundaries of live snapshots. -/
def activeBoundaries (r : TransactionRegistry) : List SnapshotBoundary :=
  (r.snapshotExclusions.entries.map (·.2)).filter fun b => r.activeFlags.getD b.active false

def captureSealVisibility (r : TransactionRegistry) : SealVisibilitySnapshot :=
  let maxVisibleTxnId := (r.activeBoundaries.map (·.maxTxnId)).min?
  let inFlight := (r.transactions.entries.filter fun e => e.2.isActiveOrCommitting).map (·.1)
  let hidden := r.activeBoundaries.flatMap fun b =>
    b.excluded.filter fun t => maxVisibleTxnId.all fun m => decide (t ≤ m)
  .new maxVisibleTxnId (inFlight ++ hidden)

/-- Settled, and seen by everyone live. -/
def Shown (r : TransactionRegistry) (t : Int) : Prop :=
  r.settled t = true ∧ ∀ u, r.Live u → r.visible t u = true

variable {r r' : TransactionRegistry} {e : Effect} {t : Int}

/-- **Once shown, always shown.** -/
theorem Change.shown (h : Change r e r') (hr : r.Ok) (ht : r.Shown t) : r'.Shown t := by
  have hset := h.settled ht.1
  refine ⟨hset, fun u hu => ?_⟩
  cases hb' : r'.snapshotExclusions.lookup u with
  | none => exact (outlook_of_no_boundary hu hb').sees_settled t hset
  | some b' =>
    cases hb : r.snapshotExclusions.lookup u with
    | none => exact (hr.outlook_of_boundary_new h hb hb').sees_settled t hset
    | some b =>
      rw [hr.visible_of_boundary_kept h hb hu]
      exact ht.2 u (hr.live_of_snapshot (Table.mem_of_lookup hb))

theorem Ok.mem_activeBoundaries (h : r.Ok) {s : Int} {b : SnapshotBoundary}
    (hb : r.snapshotExclusions.lookup s = some b) : b ∈ r.activeBoundaries := by
  have hflag := (h.boundary s b hb).flag
  refine mem_filter.mpr ⟨mem_map.mpr ⟨⟨s, b⟩, Table.mem_entries_iff.mpr hb, rfl⟩, ?_⟩
  simp [getD, hflag]

/-- What the captured snapshot lets through, in words. -/
theorem captureSealVisibility_iff (hpos : 0 < t) :
    r.captureSealVisibility.isVisible t = true ↔
      ¬ r.Live t ∧ ∀ b ∈ r.activeBoundaries, t ≤ b.maxTxnId ∧ t ∉ b.excluded := by
  have hflight : t ∈ (r.transactions.entries.filter fun e => e.2.isActiveOrCommitting).map (·.1) ↔
      r.Live t := by
    refine ⟨fun h => ?_, fun ⟨st, hst, hl⟩ => ?_⟩
    · obtain ⟨⟨_, st⟩, he, rfl⟩ := mem_map.mp h
      obtain ⟨hst, hl⟩ := mem_filter.mp he
      exact ⟨st, Table.mem_entries_iff.mp hst, hl⟩
    · exact mem_map.mpr ⟨⟨t, st⟩, mem_filter.mpr ⟨Table.mem_entries_iff.mpr hst, hl⟩, rfl⟩
  -- the frontier is the least of the boundaries
  have hmax : (r.activeBoundaries.map (·.maxTxnId)).min?.all (fun m => decide (t ≤ m)) = true ↔
      ∀ b ∈ r.activeBoundaries, t ≤ b.maxTxnId := by
    cases hmin : (r.activeBoundaries.map (·.maxTxnId)).min? with
    | none =>
      rw [min?_eq_none_iff, map_eq_nil_iff] at hmin
      simp [hmin]
    | some m => simp [le_min?_iff hmin]
  simp only [captureSealVisibility, SealVisibilitySnapshot.isVisible, SealVisibilitySnapshot.new,
    Bool.or_eq_true, decide_eq_true_eq, Bool.and_eq_true, Bool.not_eq_true', contains_eq_mem,
    decide_eq_false_iff_not, mem_dedup, mem_insertionSort, mem_append, not_or, hflight, mem_flatMap,
    mem_filter, hmax, not_exists, not_and]
  grind

/-- **What the captured snapshot lets through is shown or dead.** -/
theorem Ok.shown_of_capture (h : r.Ok) (hle : t ≤ r.nextTxnId)
    (hv : r.captureSealVisibility.isVisible t = true) : r.Shown t ∨ r.dead t = true := by
  by_cases hset : r.settled t = true
  · refine Or.inl ⟨hset, fun u hu => ?_⟩
    by_cases hself : t = u
    · simp [visible, hself]
    by_cases hrec : t = recoveryTransactionId
    · simp [visible, hrec]
    have hgone := (settled_iff.mp hset).resolve_left hrec
    cases hb : r.snapshotExclusions.lookup u with
    | none => exact (outlook_of_no_boundary hu hb).sees_settled t hset
    | some b =>
      obtain ⟨-, hall⟩ := (captureSealVisibility_iff hgone.1).mp hv
      obtain ⟨hmax, hex⟩ := hall b (h.mem_activeBoundaries hb)
      rw [h.visible_of_boundary hb hself hrec, SnapshotBoundary.isVisible_iff]
      exact ⟨hgone.1, hmax, hex⟩
  · refine Or.inr (dead_iff.mpr ⟨hle, hset, fun hlive => ?_⟩)
    exact ((captureSealVisibility_iff (h.tracked t hlive.mem).1).mp hv).1 hlive

theorem Ok.visible_outsider (h : r.Ok) {viewer t : Int} (hv : ¬ r.Live viewer) (hne : t ≠ viewer) :
    r.visible t viewer = r.settled t := by
  by_cases hrec : t = recoveryTransactionId
  · simp [visible, settled, hrec]
  · have hb : r.snapshotExclusions.lookup viewer = none := by
      cases hb : r.snapshotExclusions.lookup viewer with
      | none => rfl
      | some b => exact absurd (h.live_of_snapshot (Table.mem_of_lookup hb)) hv
    rw [visible_of_no_boundary hb hne hrec]
    simp [settled, hrec]

end TransactionRegistry

/-! ## The views of a run -/

open TransactionRegistry

/-- A live transaction that reads a snapshot. -/
def TransactionRegistry.ActiveSnapshot (r : TransactionRegistry) (u : Int) : Prop :=
  r.Live u ∧ r.getIsolationLevel u = .snapshotIsolation

theorem TransactionRegistry.Ok.activeSnapshot_iff {r : TransactionRegistry} (h : r.Ok) {u : Int} :
    r.ActiveSnapshot u ↔ ∃ b, r.snapshotExclusions.lookup u = some b := by
  rw [← Table.mem_iff_lookup, ActiveSnapshot, h.snapshot_override, ← h.override_live]
  constructor
  · rintro ⟨hmem, hlevel⟩
    obtain ⟨level, hl⟩ := Table.mem_iff_lookup.mp hmem
    simp only [getIsolationLevel, if_pos (h.overrideCount_pos hmem), hl] at hlevel
    rw [hl, hlevel]
  · intro hl
    have hmem := Table.mem_of_lookup hl
    exact ⟨hmem, by simp only [getIsolationLevel, if_pos (h.overrideCount_pos hmem), hl]⟩

namespace RegistryRun

variable (run : RegistryRun)

/-- `t` was recovered as aborted, or one of the first `m` operations aborted it. -/
def AbortedBy (m : Nat) (t : Int) : Prop :=
  t ∈ (run.registryAt 0).transactions ∨
    ∃ j now, j < m ∧ run.ops[j]? = some (.abort t now) ∧ (run.registryAt j).Live t

/-- `t` was recovered as committed, or one of the first `m` operations completed its commit. -/
def CommittedBy (m : Nat) (t : Int) : Prop :=
  (run.registryAt 0).Gone t ∨ ∃ j < m, run.Completes j t

variable {run} {m : Nat} {t : Int}

theorem ok_of_endsIfOk {α : Type} {u : Int} {x : Except RegistryError α}
    (h : endsIfOk u x = .ends t) : ∃ a, u = t ∧ x = .ok a := by
  cases x with
  | error e => cases h
  | ok a => exact ⟨a, Effect.ends.inj h, rfl⟩

theorem completes_or_aborts {op : RegistryOp} (hop : run.ops[m]? = some op)
    (he : (run.worldAt m).effect op = .ends t) :
    run.Completes m t ∨ ∃ now, op = .abort t now ∧ (run.registryAt m).Live t := by
  cases op with
  | completeCommit u now =>
    obtain ⟨⟨⟩, rfl, hres⟩ := ok_of_endsIfOk he
    exact .inl (.inl ⟨now, hop, by simp [outcomeAt_eq hop, World.step, hres]⟩)
  | completeCommitWithStoragePublication u now =>
    obtain ⟨q, rfl, hres⟩ := ok_of_endsIfOk he
    exact .inl (.inr ⟨q, now, hop, by simp [outcomeAt_eq hop, World.step, hres]⟩)
  | abort u now =>
    simp only [World.effect] at he
    split at he
    · rename_i hlive
      cases he
      exact .inr ⟨now, rfl, isLive_iff.mp hlive⟩
    · cases he
  | _ => cases he

theorem CommittedBy.gone (h : run.CommittedBy m t) : (run.registryAt m).Gone t := by
  rcases h with h | ⟨j, hj, h⟩
  · exact gone_of_le (Nat.zero_le m) h
  · exact gone_of_le hj h.spec.2

/-- What has become of a transaction that nobody aborted. -/
theorem fate (hpos : 0 < t) (hab : ¬ run.AbortedBy m t) :
    (run.registryAt m).nextTxnId < t ∨ (run.registryAt m).Live t ∨ run.CommittedBy m t := by
  induction m with
  | zero =>
    rcases lt_or_ge (run.registryAt 0).nextTxnId t with hlt | hle
    · exact .inl hlt
    · exact .inr (.inr (.inl ⟨hpos, hle, fun hmem => hab (.inl hmem)⟩))
  | succ m ih =>
    have hkept := ih fun h =>
      hab (h.imp_right fun ⟨j, now, hj, h⟩ => ⟨j, now, Nat.lt_succ_of_lt hj, h⟩)
    have hlater : run.CommittedBy m t → run.CommittedBy (m + 1) t :=
      fun h => h.imp_right fun ⟨j, hj, h⟩ => ⟨j, Nat.lt_succ_of_lt hj, h⟩
    cases hop : run.ops[m]? with
    | none =>
      rw [registryAt, worldAt, Run.after_succ_of_none hop]
      exact hkept.imp_right (Or.imp_right hlater)
    | some op =>
      have hc := change_at hop
      rcases hkept with hlt | hlive | hdone
      · have hok := run.registry_ok m
        generalize (run.worldAt m).effect op = e, run.registryAt (m + 1) = r' at hc
        cases hc with
        | enroll level _ _ =>
          rcases lt_or_eq_of_le (Int.add_one_le_of_lt hlt) with hlt | heq
          · exact .inl hlt
          · exact .inr (.inl ((hok.enroll_live level t).mpr (.inl heq.symm)))
        | _ => exact .inl hlt
      · by_cases he : (run.worldAt m).effect op = .ends t
        · rcases completes_or_aborts hop he with h | ⟨now, rfl, hl⟩
          · exact .inr (.inr (.inr ⟨m, Nat.lt_succ_self m, h⟩))
          · exact absurd (.inr ⟨m, now, Nat.lt_succ_self m, hop, hl⟩) hab
        · have hle := ((run.registry_ok m).tracked t hlive.mem).2
          exact .inr (.inl (hc.live hlive hle he))
      · exact .inr (.inr (hlater hdone))

/-- **A seal sees what every live snapshot sees.** At every moment of every run, a transaction that
was handed out and not aborted is visible to a seal exactly if it has completed its commit and every
active Snapshot-Isolation transaction sees it; and whoever reads a snapshot that begins later sees
it too. -/
theorem seal_visibility_exact (hpos : 0 < t) (hle : t ≤ (run.registryAt m).nextTxnId)
    (hab : ¬ run.AbortedBy m t) :
    ((run.registryAt m).captureSealVisibility.isVisible t = true ↔
      run.CommittedBy m t ∧ ∀ u, (run.registryAt m).ActiveSnapshot u →
        ∀ thread, (run.worldAt m).asks thread t u = true) ∧
    ((run.registryAt m).captureSealVisibility.isVisible t = true →
      ∀ n u, m ≤ n → (run.registryAt m).nextTxnId < u → (run.registryAt n).ActiveSnapshot u →
        ∀ thread, (run.worldAt n).asks thread t u = true) := by
  have hok := run.registry_ok m
  have hdone : ¬ (run.registryAt m).Live t → run.CommittedBy m t := fun hl =>
    ((fate hpos hab).resolve_left hle.not_gt).resolve_left hl
  -- what a snapshot is told, by its boundary
  have hasks : ∀ {u b}, (run.registryAt m).snapshotExclusions.lookup u = some b →
      ¬ (run.registryAt m).Live t → ∀ thread,
        ((run.worldAt m).asks thread t u = true ↔ t ≤ b.maxTxnId ∧ t ∉ b.excluded) := by
    intro u b hb hl thread
    have hne : t ≠ u := fun h => hl (h ▸ hok.live_of_snapshot (Table.mem_of_lookup hb))
    rw [asks_eq_visible, hok.visible_of_boundary hb hne (ne_recovery_of_pos hpos),
      SnapshotBoundary.isVisible_iff, and_iff_right hpos]
  refine ⟨?_, fun hv n u hmn _ hu thread => ?_⟩
  · rw [captureSealVisibility_iff hpos]
    constructor
    · rintro ⟨hl, hall⟩
      refine ⟨hdone hl, fun u hu thread => ?_⟩
      obtain ⟨b, hb⟩ := hok.activeSnapshot_iff.mp hu
      exact (hasks hb hl thread).mpr (hall b (hok.mem_activeBoundaries hb))
    · rintro ⟨hcomm, hall⟩
      have hl : ¬ (run.registryAt m).Live t := fun hl => hcomm.gone.2.2 hl.mem
      refine ⟨hl, fun b hb => ?_⟩
      obtain ⟨⟨u, _⟩, hmem, rfl⟩ := mem_map.mp (mem_filter.mp hb).1
      have hlook := Table.mem_entries_iff.mp hmem
      exact (hasks hlook hl 0).mp (hall u (hok.activeSnapshot_iff.mpr ⟨_, hlook⟩) 0)
  · have hl := ((captureSealVisibility_iff hpos).mp hv).1
    have hset := settled_iff.mpr (.inr (hdone hl).gone)
    have hshown := (hok.shown_of_capture hle hv).resolve_right fun hd => (dead_iff.mp hd).2.1 hset
    have hlater := Run.after_of_le (P := fun w : World => w.Ok ∧ w.registry.Shown t) hmn
      ⟨run.ok_at m, hshown⟩ fun w op hw =>
        ⟨hw.1.step op, (w.step_change op).shown hw.1.registry hw.2⟩
    rw [asks_eq_visible]
    exact hlater.2.2 u hu.1

theorem seal_visibility_exact_lateCommit :
    ((lateCommit.registryAt 8).captureSealVisibility.isVisible 2 = true ↔
      lateCommit.CommittedBy 8 2 ∧ ∀ u, (lateCommit.registryAt 8).ActiveSnapshot u →
        ∀ thread, (lateCommit.worldAt 8).asks thread 2 u = true) := by
  refine (seal_visibility_exact (by decide) (by decide) ?_).1
  rintro (hmem | ⟨j, now, -, hop, -⟩)
  · exact absurd hmem (by decide)
  · have := mem_of_getElem? hop
    simp [lateCommit] at this

end RegistryRun

end RadixDb
