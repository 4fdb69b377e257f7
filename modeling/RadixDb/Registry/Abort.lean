import RadixDb.Registry.World

/-!
# Aborted transactions over whole runs

An aborted transaction is invisible because its marker is in the map; an id that is not in the
map counts as committed. Garbage collection removes old markers, so the two readings of "not in
the map" meet: **an aborted transaction stays invisible exactly as long as no garbage collection
drops its marker**. `aborted_invisible_iff` says so for every run. That the condition can fail is
`dropped_marker_reads_committed`: after enough abandoned transactions, one collection turns the
first of them into a committed one.
-/

namespace RadixDb

open Table

open TransactionRegistry

namespace RegistryRun

variable (run : RegistryRun)

/-- Operation `k` is a garbage collection that drops the marker of `t`. -/
def DropsMarker (k : Nat) (t : Int) : Prop :=
  ∃ op maxAge now st, run.ops[k]? = some op ∧ (run.worldAt k).effect op = .collects maxAge now ∧
    (run.registryAt k).transactions.lookup t = some st ∧
    (run.registryAt k).gcDropsMarker maxAge now t st = true

variable {run}

/-- After a marker was dropped, its transaction reads as committed. -/
theorem DropsMarker.gone {k : Nat} {t : Int} (h : run.DropsMarker k t) :
    (run.registryAt (k + 1)).Gone t := by
  obtain ⟨op, maxAge, now, st, hop, heff, hst, hdrop⟩ := h
  have hc := change_at hop
  rw [heff] at hc
  obtain ⟨hpos, hle⟩ := (run.registry_ok k).tracked t (mem_of_lookup hst)
  refine ⟨hpos, hle.trans hc.nextTxnId_le, ?_⟩
  generalize run.registryAt (k + 1) = r' at hc
  cases hc with
  | collect =>
    intro hm
    obtain ⟨st', hst', hkeep⟩ := mem_retain.mp hm
    rw [hst] at hst'
    cases hst'
    simp [hdrop] at hkeep

/-- Nothing but a collection that drops it removes a marker from a run. -/
theorem marked_step {k : Nat} {op : RegistryOp} {t : Int} (hop : run.ops[k]? = some op)
    (h : (run.registryAt k).Marked t) (hkeep : ¬ run.DropsMarker k t) :
    (run.registryAt (k + 1)).Marked t := by
  rcases (change_at hop).marked h ((run.registry_ok k).tracked t h.1).2 with hm | hdrop
  · exact hm
  · obtain ⟨maxAge, now, st, heff, hst, hdrops⟩ := hdrop
    exact absurd ⟨op, maxAge, now, st, hop, heff, hst, hdrops⟩ hkeep

theorem marked_of_abort {j : Nat} {t now : Int} (hop : run.ops[j]? = some (.abort t now))
    (hlive : (run.registryAt j).Live t) : (run.registryAt (j + 1)).Marked t := by
  obtain ⟨st, hst, hl⟩ := hlive
  have hlook : (run.registryAt (j + 1)).transactions.lookup t = some TxnState.newAborted := by
    rw [registryAt_succ hop]
    have hst' : (run.worldAt j).registry.transactions.lookup t = some st := hst
    simp [World.step, abortTransaction, hst', hl, removeTransactionIsolationLevel]
  refine ⟨mem_of_lookup hlook, ?_⟩
  rintro ⟨st', hst', hl'⟩
  rw [hlook] at hst'
  cases hst'
  exact absurd hl' (by simp)

/-- **An aborted transaction is invisible until its marker is dropped.** Let a run abort an active
or committing `t`. Then `t` is invisible to every other viewer on every thread, and not committed,
at every later moment, if and only if no later garbage collection drops its marker. -/
theorem aborted_invisible_iff {j : Nat} {t now : Int} (hop : run.ops[j]? = some (.abort t now))
    (hlive : (run.registryAt j).Live t) :
    (∀ m, j < m → (∀ thread viewer, viewer ≠ t → (run.worldAt m).asks thread t viewer = false) ∧
        (run.registryAt m).isCommitted t = false) ↔
      ∀ k, j < k → ¬ run.DropsMarker k t := by
  constructor
  · intro h k hk hdrop
    have hcomm := isCommitted_iff.mpr hdrop.gone
    cases ((h (k + 1) (Nat.lt_succ_of_lt hk)).2).symm.trans hcomm
  · intro h m hm
    have hmarked : (run.registryAt m).Marked t :=
      Run.after_while (P := fun w : World => w.registry.Marked t)
        (Q := fun k => ¬ run.DropsMarker k t) hm (marked_of_abort hop hlive) (fun k hk _ => h k hk)
        fun k op _ hk hkeep hmk => by
          have := marked_step hk hmk hkeep
          rwa [registryAt_succ hk] at this
    refine ⟨fun thread viewer hne => ?_, ?_⟩
    · rw [asks_eq_visible]
      exact (run.registry_ok m).visible_of_tracked hmarked.1 hne.symm
    · simp [isCommitted, hmarked.1]

/-- Transaction 1 aborts, a snapshot begins, and a collection runs while the marker is young. -/
def youngMarker : RegistryRun where
  epoch := 1
  recovery := []
  ops := [.begin .readCommitted, .abort 1 100, .begin .snapshotIsolation, .runGc 200]

theorem aborted_invisible_iff_youngMarker :
    (∀ thread viewer, viewer ≠ 1 → (youngMarker.worldAt 4).asks thread 1 viewer = false) ∧
      (youngMarker.registryAt 4).isCommitted 1 = false := by
  refine (aborted_invisible_iff (j := 1) (t := 1) rfl ⟨TxnState.newActive 1, rfl, rfl⟩).mpr ?_ 4
    (by decide)
  rintro k hk ⟨op, maxAge, now, st, hop, heff, hst, hdrop⟩
  obtain rfl | rfl | hlong : k = 2 ∨ k = 3 ∨ 4 ≤ k := by omega
  · cases hop
    cases heff
  · cases hop
    cases heff
    cases hst
    exact absurd hdrop (by decide)
  · cases (List.getElem?_eq_none hlong).symm.trans hop

/-! ## The condition can fail -/

end RegistryRun

namespace TransactionRegistry

variable {r : TransactionRegistry}

/-- The minimum over the live transactions is at least any lower bound of the `i64` range. -/
theorem le_minOverLive {f : Int → TxnState → Int} {c : Int} (hc : c ≤ I64.maxValue)
    (h : ∀ t st, r.transactions.lookup t = some st → st.isActiveOrCommitting = true → c ≤ f t st) :
    c ≤ r.minOverLive f := by
  have main : ∀ (es : List (Σ _ : Int, TxnState)) (acc : Int), c ≤ acc →
      (∀ e ∈ es, e.2.isActiveOrCommitting = true → c ≤ f e.1 e.2) →
      c ≤ es.foldl (fun acc e => if e.2.isActiveOrCommitting then min acc (f e.1 e.2) else acc)
        acc := by
    intro es
    induction es with
    | nil => exact fun acc hacc _ => hacc
    | cons e es ih =>
      intro acc hacc hes
      refine ih _ ?_ fun e' he' => hes e' (List.mem_cons_of_mem _ he')
      beta_reduce
      split
      · exact le_min hacc (hes e List.mem_cons_self ‹_›)
      · exact hacc
  exact main _ _ hc fun e he hl => h e.1 e.2 (mem_entries_iff.mp he) hl

/-- If every live id is at least `c`, so is the id the cutoff is taken from. -/
theorem le_minLiveId {c : Int} (hc : c ≤ I64.maxValue) (hnext : c ≤ r.nextTxnId)
    (h : ∀ t, r.Live t → c ≤ t) : c ≤ r.minLiveId := by
  unfold minLiveId
  simp only
  split
  · exact hnext
  · exact le_minOverLive hc fun t st hst hl => h t ⟨st, hst, hl⟩

end TransactionRegistry

namespace RegistryRun

/-- `n` transactions, the first with id `k + 1`, that begin and abort one after the other. -/
def abandonedRounds : Nat → Nat → List RegistryOp
  | _, 0 => []
  | k, n + 1 => .begin .readCommitted :: .abort (k + 1) 0 :: abandonedRounds (k + 1) n

/-- What a registry looks like after `n ≥ 1` such transactions and nothing else. -/
structure AfterRounds (n : Nat) (r : TransactionRegistry) : Prop where
  nextTxnId : r.nextTxnId = n
  nextSequence : r.nextSequence = n
  accepting : r.accepting = true
  exclusions : r.snapshotExclusions = ∅
  dead : ∀ t, ¬ r.Live t
  marker : 0 < n → r.transactions.lookup 1 = some TxnState.newAborted
  terminal : 0 < n → r.terminalTimes.lookup 1 = some 0

theorem AfterRounds.begin {n : Nat} {r : TransactionRegistry} (h : AfterRounds n r)
    (hn : n ≤ 20000) : (r.beginTransactionWithIsolation .readCommitted).1 =
      r.enroll .readCommitted (n + 1) (n + 1) := by
  have hmax : (20001 : Int) < I64.maxValue := by decide
  have hmask : (20001 : Int) ≤ seqMask := by decide
  have hid : (n : Int) + 1 < I64.maxValue := by omega
  have hseq : r.nextSequenceIn = some ((n : Int) + 1) := by
    rw [nextSequenceIn_eq_some, h.nextSequence]
    exact ⟨rfl, by omega⟩
  simp [beginTransactionWithIsolation, h.accepting, hid, hseq, h.nextTxnId]

theorem AfterRounds.round {n : Nat} {w : World} (h : AfterRounds n w.registry) (hn : n ≤ 20000) :
    AfterRounds (n + 1)
      ((w.step (.begin .readCommitted)).1.step (.abort (n + 1) 0)).1.registry := by
  have hbegin : (w.step (.begin .readCommitted)).1.registry =
      w.registry.enroll .readCommitted (n + 1) (n + 1) := h.begin hn
  have hlook : (w.registry.enroll .readCommitted (n + 1) (n + 1)).transactions.lookup
      ((n : Int) + 1) = some (TxnState.newActive (n + 1)) := by simp [enroll]
  have hl : (TxnState.newActive (n + 1 : Int)).isActiveOrCommitting = true :=
    TxnState.isActiveOrCommitting_newActive (by omega)
  simp only [World.step] at hbegin ⊢
  rw [hbegin]
  simp only [abortTransaction, hlook, hl, if_true]
  refine ⟨rfl, rfl, h.accepting, ?_, fun t => ?_, fun _ => ?_, fun _ => ?_⟩
  · simp only [removeTransactionIsolationLevel, enroll, reduceCtorEq, if_false, h.exclusions]
    exact erase_of_not_mem (AList.notMem_empty _)
  · rintro ⟨st, hst, hlive⟩
    have hdead := h.dead t
    simp only [removeTransactionIsolationLevel, enroll, lookup_insert_if] at hst
    split at hst
    · cases hst
      exact absurd hlive (by simp)
    · exact hdead ⟨st, hst, hlive⟩
  · simp only [removeTransactionIsolationLevel, enroll, lookup_insert_if]
    by_cases h0 : 0 < n
    · rw [if_neg (by omega), if_neg (by omega), h.marker h0]
    · rw [if_pos (by omega)]
  · simp only [removeTransactionIsolationLevel, enroll, lookup_insert_if]
    by_cases h0 : 0 < n
    · rw [if_neg (by omega), h.terminal h0]
    · rw [if_pos (by omega)]

theorem AfterRounds.rounds (n : Nat) : ∀ {k : Nat} {w : World}, AfterRounds k w.registry →
    k + n ≤ 20000 →
    AfterRounds (k + n) (Run.after World.step w (abandonedRounds k n) (2 * n)).registry := by
  induction n with
  | zero => exact fun h _ => h
  | succ n ih =>
    intro k w h hn
    have hround := ih (h.round (by omega)) (by omega)
    rwa [show k + (n + 1) = k + 1 + n by omega, show 2 * (n + 1) = 2 * n + 1 + 1 by omega]

/-- `n` abandoned transactions, one Read-Committed reader, one garbage collection. -/
def abandoned (n : Nat) : RegistryRun where
  epoch := 1
  recovery := []
  ops := abandonedRounds 0 n ++ [.begin .readCommitted, .runGc 0]

theorem length_abandonedRounds (n : Nat) : ∀ k, (abandonedRounds k n).length = 2 * n := by
  induction n with
  | zero => exact fun _ => rfl
  | succ n ih =>
    intro k
    simp only [abandonedRounds, List.length_cons, ih]
    omega

section

variable {n : Nat}

theorem abandoned_rounds (hn : n ≤ 20000) : AfterRounds n ((abandoned n).registryAt (2 * n)) := by
  have hstart : AfterRounds 0 (abandoned n).start.registry :=
    ⟨rfl, rfl, rfl, rfl, fun t ht => absurd ht.mem (AList.notMem_empty t), by simp, by simp⟩
  have h := hstart.rounds n (by omega)
  rw [Nat.zero_add] at h
  have hat : (abandoned n).worldAt (2 * n) =
      Run.after World.step (abandoned n).start (abandonedRounds 0 n) (2 * n) :=
    Run.after_append_left (length_abandonedRounds n 0).ge
  rwa [registryAt, hat]

theorem abandoned_ops : (abandoned n).ops[2 * n]? = some (.begin .readCommitted) ∧
    (abandoned n).ops[2 * n + 1]? = some (.runGc 0) := by
  have hlen := length_abandonedRounds n 0
  simp only [abandoned]
  rw [List.getElem?_append_right hlen.le, List.getElem?_append_right (by omega), hlen,
    Nat.sub_self, Nat.add_sub_cancel_left]
  exact ⟨rfl, rfl⟩

/-- The reader has begun: its id is `n + 1`, and it is the only live transaction. -/
theorem abandoned_reader (hn : n ≤ 20000) : (abandoned n).registryAt (2 * n + 1) =
    ((abandoned n).registryAt (2 * n)).enroll .readCommitted (n + 1) (n + 1) := by
  rw [registryAt_succ abandoned_ops.1]
  exact (abandoned_rounds hn).begin hn

theorem abandoned_drops (hmin : 10001 < n) (hn : n ≤ 20000) :
    (abandoned n).DropsMarker (2 * n + 1) 1 := by
  have h := abandoned_rounds hn
  have hmax : (20001 : Int) < I64.maxValue := by decide
  refine ⟨.runGc 0, 0, 0, TxnState.newAborted, abandoned_ops.2, rfl, ?_, ?_⟩
  · rw [abandoned_reader hn]
    simp only [enroll, lookup_insert_if]
    rw [if_neg (by omega), h.marker (by omega)]
  · have hlow : (n : Int) + 1 ≤ ((abandoned n).registryAt (2 * n + 1)).minLiveId := by
      rw [abandoned_reader hn]
      refine le_minLiveId (by omega) le_rfl fun t ht => ?_
      obtain ⟨st, hst, hl⟩ := ht
      simp only [enroll, lookup_insert_if] at hst
      split at hst
      · omega
      · exact absurd ⟨st, hst, hl⟩ (h.dead t)
    have hcut : (1 : Int) < ((abandoned n).registryAt (2 * n + 1)).abortedCutoff := by
      refine lt_max_of_lt_right (lt_min (by decide) ?_)
      omega
    have htime : ((abandoned n).registryAt (2 * n + 1)).terminalTimes.lookup 1 = some 0 := by
      rw [abandoned_reader hn]
      exact h.terminal (by omega)
    have hexpired : isExpired 0 0 0 = true := by decide
    simp only [gcDropsMarker, terminalExpired, htime, Option.any_some, hexpired,
      TxnState.isAborted_newAborted, Bool.and_true, Bool.and_eq_true, decide_eq_true_eq]
    exact ⟨by omega, hcut⟩

/-- Then the reader, which has no snapshot, sees the aborted transaction. -/
theorem abandoned_visible (hmin : 10001 < n) (hn : n ≤ 20000) (thread : Nat) :
    ((abandoned n).worldAt (2 * n + 2)).asks thread 1 (n + 1) = true := by
  have hgone : ((abandoned n).registryAt (2 * n + 2)).Gone 1 := (abandoned_drops hmin hn).gone
  have hnone : ((abandoned n).registryAt (2 * n + 2)).snapshotExclusions.lookup
      ((n : Int) + 1) = none := by
    rw [registryAt_succ abandoned_ops.2]
    have hex : ((abandoned n).registryAt (2 * n + 1)).snapshotExclusions = ∅ := by
      rw [abandoned_reader hn]
      exact (abandoned_rounds hn).exclusions
    show ((abandoned n).registryAt (2 * n + 1)).snapshotExclusions.lookup ((n : Int) + 1) = none
    rw [hex]
    rfl
  rw [asks_eq_visible, visible_of_no_boundary hnone (by omega) (by decide)]
  exact isCommitted_iff.mpr hgone

/-- Transaction 1 was active when it was aborted. -/
theorem abandoned_first : (abandoned (n + 1)).ops[1]? = some (.abort 1 0) ∧
    ((abandoned (n + 1)).registryAt 1).Live 1 :=
  ⟨rfl, TxnState.newActive 1, rfl, rfl⟩

end

/-- **An aborted transaction can become visible.** After 10002 abandoned transactions and one
garbage collection, transaction 1, aborted while active, reads as committed, and the Read-Committed
reader 10003 sees it. -/
theorem dropped_marker_reads_committed :
    (abandoned 10002).ops[1]? = some (.abort 1 0) ∧ ((abandoned 10002).registryAt 1).Live 1 ∧
      ((abandoned 10002).worldAt 20006).asks 0 1 10003 = true ∧
      ((abandoned 10002).registryAt 20006).isCommitted 1 = true :=
  ⟨abandoned_first.1, abandoned_first.2, abandoned_visible (by decide) (by decide) 0,
    isCommitted_iff.mpr (abandoned_drops (by decide) (by decide)).gone⟩

end RegistryRun

end RadixDb
