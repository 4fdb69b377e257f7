import RadixDb.Db.Observations
import RadixDb.Store.Creators

/-!
# First committer wins

A transaction that writes a row has observed it: it read a version, or it read nothing. Between that
observation and its commit another transaction may publish a version of the row. The commit is then
meant to fail (`detect_conflicts_safe`).

For a row of which a version was read the check compares creators, and it never misses. **A creator
that has been read is over: it has published or ended, and it publishes nothing more** (`Known`). So
once anyone publishes the row after the read, its newest version is never again one of the creator
that was read (`superseded_step`).

For a row that was absent the check asks whether the transaction sees the row now, which is about
its own snapshot and about completed commits only. What was published since may be neither: a
snapshot inserts over an insert that it does not see (`absent_row_overwritten`). The property holds
at a commit of a transaction without a snapshot if such rows are there again, with a newest version
that is not a delete and whose creator has completed (`first_committer_wins`, `There`). Rows that
were read need no condition, under either isolation level.

That the row is found then is a matter of the store alone: a visible newest version is what the
probe of the arena and the walk of the chain both answer with, as long as the two agree, which every
run keeps (`ok_at`).
-/

namespace RadixDb

variable {V : Type}

open TransactionRegistry VersionStore List

/-! ## Steps -/

/-- Done with the table: the transaction has published or given up, or the registry has ended it. -/
def TxnDb.Known (s : TxnDb V) (t : Int) : Prop :=
  (s.stores t).terminal = true ∨ (t ≤ s.registry.nextTxnId ∧ ¬ s.registry.Live t)

/-- `t` commits in state `s`: its write set passes, and it is not done with the table. -/
structure Commits (s : TxnDb V) (t : Int) : Prop where
  live : s.registry.Live t
  active : (s.stores t).terminal = false
  isOpen : s.db.store.closed = false
  passed : (s.stores t).detectConflictsSafe s.db t = .ok ()

/-- The state after it. -/
def TxnDb.committed (s : TxnDb V) (t : Int) : TxnDb V :=
  (s.setParent (s.db.store.addAll (s.stores t).prepareCommit)).setStore t
    { s.stores t with localVersions := ∅, terminal := true }

section

variable {G : Nat → RowVersion V → Prop} {s : TxnDb V} {t x row : Int}

/-- A commit either publishes or changes nothing. -/
theorem TxnDb.act_commit (s : TxnDb V) (t : Int) :
    (Commits s t ∧ s.act (.commit t) = (s.committed t, .result (.ok ()))) ∨
      (¬ Commits s t ∧ (s.act (.commit t)).1 = s ∧
        ∀ res, (s.act (.commit t)).2 = .result res → ∃ e, res = .error e) := by
  by_cases hc : Commits s t
  · refine .inl ⟨hc, ?_⟩
    simp [TxnDb.act, isLive_iff.mpr hc.live, commitRetainingClaims, hc.active, hc.isOpen, hc.passed,
      publish_eq hc.isOpen, committed]
  · refine .inr ⟨hc, ?_⟩
    simp only [TxnDb.act]
    split
    case isFalse => exact ⟨rfl, fun res hres => by cases hres⟩
    case isTrue hlive =>
    unfold commitRetainingClaims
    dsimp only
    split
    case isTrue => exact ⟨rfl, fun res hres => by cases hres; exact ⟨_, rfl⟩⟩
    case isFalse hterm =>
    split
    case isTrue => exact ⟨rfl, fun res hres => by cases hres; exact ⟨_, rfl⟩⟩
    case isFalse hclosed =>
    split
    next => exact ⟨rfl, fun res hres => by cases hres; exact ⟨_, rfl⟩⟩
    next hpass =>
      exact absurd ⟨isLive_iff.mp hlive, by simpa using hterm, by simpa using hclosed, hpass⟩ hc

/-- **What an operation can do**: change the registry, commit, or publish nothing. -/
theorem TxnDb.act_cases (s : TxnDb V) (op : TxnOp V) (hnow : ReadsGood G s) (ho : Observed G s) :
    (∃ rop, op = .registry rop ∧
      (s.act op).1 = { s with db := { s.db with world := (s.db.world.step rop).1 } }) ∨
    (∃ t, op = .commit t ∧ Commits s t ∧ (s.act op).1 = s.committed t) ∨
    Quiet G s (s.act op).1 := by
  cases op with
  | registry rop => exact .inl ⟨rop, rfl, rfl⟩
  | fetch t row => exact .inr (.inr (Quiet.fetch hnow t row))
  | put t row data isDelete now =>
    exact .inr (.inr (Quiet.putInternal hnow ho (txnId_writtenVersion t data isDelete now) _))
  | putWithOriginal t row data isDelete now =>
    refine .inr (.inr ?_)
    simp only [TxnDb.act]
    split
    · exact Quiet.putWithOriginal hnow ho (txnId_writtenVersion t data isDelete now) _
    · exact Quiet.refl s
  | claimRows t rows now =>
    refine .inr (.inr ?_)
    simp only [TxnDb.act, claimRowsForOperation]
    split
    · exact Quiet.refl s
    · exact Quiet.claimRowsLoop _ _ s ho fun _ h => (by cases h)
  | rollbackTo t timestamp => exact .inr (.inr (Quiet.rollbackToTimestamp s t timestamp))
  | commit t =>
    rcases s.act_commit t with ⟨hc, heq⟩ | ⟨-, heq, -⟩
    · exact .inr (.inl ⟨t, rfl, hc, congrArg Prod.fst heq⟩)
    · rw [heq]
      exact .inr (.inr (Quiet.refl s))
  | discard t => exact .inr (.inr (Quiet.discard s t))

theorem terminal_committed (s : TxnDb V) (t : Int) :
    ((s.committed t).stores t).terminal = true := by
  simp [TxnDb.committed, TxnDb.setStore]

theorem stores_committed (s : TxnDb V) {t u : Int} (h : u ≠ t) :
    (s.committed t).stores u = s.stores u :=
  Function.update_of_ne h _ _

theorem TxnDb.Known.committed (h : s.Known x) (t : Int) : (s.committed t).Known x := by
  by_cases hx : x = t
  · exact .inl (hx ▸ terminal_committed s t)
  · exact h.imp_left fun hterm => by rw [stores_committed s hx]; exact hterm

variable {s' : TxnDb V}

theorem Quiet.known (h : Quiet G s s') (hx : s.Known x) : s'.Known x := by
  have hreg : s'.registry = s.registry := congrArg World.registry h.world
  unfold TxnDb.Known
  rw [hreg]
  exact hx.imp_left (h.terminal x)

/-- Done once, done for good. -/
theorem TxnDb.Known.step (h : s.Known x) (op : TxnOp V) (hnow : ReadsGood G s)
    (ho : Observed G s) : (s.step op).1.Known x := by
  show (s.act op).1.Known x
  rcases s.act_cases op hnow ho with ⟨rop, -, heq⟩ | ⟨t, -, -, heq⟩ | hq
  · rw [heq]
    exact h.imp_right fun hend => (s.db.world.step_change rop).ended hend
  · rw [heq]
    exact h.committed t
  · exact hq.known h

theorem TransactionVersionStore.Good.own_prepareCommit {tx : TransactionVersionStore V}
    (h : tx.Good G t) : ∀ p ∈ tx.prepareCommit, p.2.1.txnId = t := by
  intro p hp
  obtain ⟨row, -, hrow⟩ := mem_filterMap.mp hp
  obtain ⟨v, hv, rfl⟩ := Option.map_eq_some_iff.mp hrow
  obtain ⟨vs, hvs, hlast⟩ := Option.bind_eq_some_iff.mp hv
  exact h.own row vs hvs v (mem_of_getLast? hlast)

/-- What is recorded is good, and the contents were created by transactions that are done. -/
structure TxnDb.Ok (G : Nat → RowVersion V → Prop) (s : TxnDb V) : Prop where
  store : s.db.store.Ok
  observed : Observed G s
  creators : s.db.store.Creators s.Known

theorem Observed.committed (ho : Observed G s) (t : Int) : Observed G (s.committed t) := by
  refine ⟨fun u => ?_, ho.reads⟩
  by_cases hu : u = t
  · subst hu
    refine ⟨fun row vs hvs => ?_, fun row hrow => ?_,
      fun row e he => (ho.stores u).entries row e ?_⟩
    · simp [TxnDb.committed, TxnDb.setStore] at hvs
    · simp [TxnDb.committed, TxnDb.setStore] at hrow
    · simpa [TxnDb.committed, TxnDb.setStore] using he
  · rw [stores_committed s hu]
    exact ho.stores u

theorem Quiet.headTxn (h : Quiet G s s') (row : Int) :
    s'.db.store.headTxn row = s.db.store.headTxn row := by
  obtain ⟨claims, heq⟩ := h.store
  rw [heq]
  rfl

theorem TxnDb.Ok.step (h : s.Ok G) (hnow : ReadsGood G s) {op : TxnOp V}
    (hpub : ∀ t, op = .commit t → s.db.store.BatchPublishable (s.stores t).prepareCommit) :
    (s.step op).1.Ok G := by
  have hknown : ∀ row, ∀ v ∈ s.db.store.history row, (s.act op).1.Known v.txnId :=
    fun row v hv => (h.creators row v hv).step op hnow h.observed
  suffices hok : (s.act op).1.Ok G from
    ⟨hok.store, ⟨hok.observed.stores, hok.observed.reads⟩, hok.creators⟩
  rcases s.act_cases op hnow h.observed with ⟨rop, -, heq⟩ | ⟨t, hop, -, heq⟩ | hq
  · rw [heq] at hknown ⊢
    exact ⟨h.store, ⟨h.observed.stores, h.observed.reads⟩, hknown⟩
  · rw [heq] at hknown ⊢
    refine ⟨h.store.addVersions (hpub t hop), h.observed.committed t,
      VersionStore.Creators.addVersions hknown h.store.unlimited fun p hp => ?_⟩
    rw [(h.observed.stores t).own_prepareCommit p hp]
    exact .inl (terminal_committed s t)
  · obtain ⟨claims, hstore⟩ := hq.store
    refine ⟨?_, hq.observed h.observed, ?_⟩
    · rw [hstore]
      exact h.store.withClaims claims
    · rw [hstore]
      exact hknown

/-- The rows that a commit of `t` would publish now. -/
def TxnDb.publishes (s : TxnDb V) (t : Int) : List Int := (s.stores t).prepareCommit.map (·.1)

end

/-! ## The check -/

variable {db : Db V} {tx : TransactionVersionStore V}

variable {e : WriteSetEntry V}

/-- A run of transactions on an open table that holds versions of transactions handed out before. -/
structure TxnRun (V : Type) where
  epoch : Nat
  recovery : List RecoveryCall
  contents : VersionStore V
  ops : List (TxnOp V)
  ok : contents.Ok
  creators : contents.Creators (· ≤ (TransactionRegistry.recovered epoch recovery).nextTxnId)

namespace TxnRun

variable (run : TxnRun V)

def start : TxnDb V where
  db := ⟨World.start run.epoch run.recovery, run.contents⟩
  stores _ := .new
  reads _ := ∅
  moment := 0

/-- The system at moment `m`. -/
def stateAt (m : Nat) : TxnDb V := Run.after TxnDb.step run.start run.ops m

/-- What operation number `k` returned. -/
def outcomeAt (k : Nat) : Option TxnOutcome := Run.outcome TxnDb.step run.start run.ops k

/-- No commit puts a delete on a delete. -/
def Publishable : Prop :=
  ∀ k t, run.ops[k]? = some (.commit t) →
    (run.stateAt k).db.store.BatchPublishable ((run.stateAt k).stores t).prepareCommit

/-- Operation `k` is a commit of `u` that succeeds and publishes a version of the row. -/
def Publishes (k : Nat) (u row : Int) : Prop :=
  run.ops[k]? = some (.commit u) ∧ run.outcomeAt k = some (.result (.ok ())) ∧
    row ∈ (run.stateAt k).publishes u

variable {run}

theorem moment_stateAt : ∀ {m : Nat}, m ≤ run.ops.length → (run.stateAt m).moment = m
  | 0, _ => rfl
  | m + 1, h => by
    have hget : run.ops[m]? = some run.ops[m] := getElem?_eq_getElem h
    have hprev : (run.stateAt m).moment = m := moment_stateAt (Nat.le_of_succ_le h)
    show (Run.after TxnDb.step run.start run.ops (m + 1)).moment = m + 1
    rw [Run.after_succ hget]
    exact congrArg (· + 1) hprev

/-- At moment `i` the version's creator is done with the table. -/
def DoneBy (run : TxnRun V) (i : Nat) (v : RowVersion V) : Prop := (run.stateAt i).Known v.txnId

theorem ok_start : run.start.Ok run.DoneBy := by
  have hstart := Startup.recovered run.epoch run.recovery
  refine ⟨run.ok, ⟨fun t => ⟨fun row vs h => ?_, fun row h => ?_, fun row e h => ?_⟩,
    fun t row r h => ?_⟩, fun row v hv => .inr ⟨run.creators row v hv, ?_⟩⟩
  · simp [start, TransactionVersionStore.new] at h
  · simp [start, TransactionVersionStore.new] at h
  · simp [start, TransactionVersionStore.new] at h
  · simp [start] at h
  · rintro ⟨st, hst, hl⟩
    exact absurd hl (by simp [hstart.dead _ st hst])

theorem readsGood_at {k : Nat} (hk : k < run.ops.length) (h : (run.stateAt k).Ok run.DoneBy) :
    ReadsGood run.DoneBy (run.stateAt k) := by
  intro t row v hv
  rw [moment_stateAt hk.le]
  exact h.creators.of_getVisibleVersion h.store hv

section

variable (hrun : run.Publishable)

include hrun

theorem ok_at (m : Nat) : (run.stateAt m).Ok run.DoneBy :=
  Run.after_while (Q := fun _ => True) (Nat.zero_le m) ok_start (fun _ _ _ => trivial)
    fun k _ _ hk _ h => h.step (readsGood_at (List.getElem?_eq_some_iff.mp hk).1 h)
      fun t ht => hrun k t (ht ▸ hk)

section

variable {n : Nat} {t row : Int} {e : WriteSetEntry V}

/-- The row is there for `t` to find: `t` holds no snapshot, and the row's newest version is not a
delete and by a transaction whose commit is complete. -/
def There (run : TxnRun V) (n : Nat) (t row : Int) : Prop :=
  (run.stateAt n).registry.snapshotExclusions.lookup t = none ∧
    ∃ c, (run.stateAt n).db.store.chain? row = some c ∧ c.head.version.isDeleted = false ∧
      (run.stateAt n).registry.isCommitted c.head.version.txnId = true

theorem There.found (h : run.There n t row) :
    (run.stateAt n).db.store.hasAnyVisibleVersion ((run.stateAt n).db.sees t) [row] = some row := by
  have hok := (ok_at hrun n).store
  obtain ⟨hnone, c, hc, hlive, hcommitted⟩ := h
  have hvis : (run.stateAt n).db.sees t c.head.version.txnId = true := by
    show (run.stateAt n).registry.visible c.head.version.txnId t = true
    by_cases hself : c.head.version.txnId = t
    · simp [visible, hself]
    · by_cases hrec : c.head.version.txnId = recoveryTransactionId
      · simp [visible, hrec]
      · rw [visible_of_no_boundary hnone hself hrec]
        exact hcommitted
  have hread : (run.stateAt n).db.store.reads ((run.stateAt n).db.sees t) row =
      some c.head.version.data := by
    rw [← readsCreator_data, readsCreator_eq, history_of_chain hc, readVersions, if_pos hvis,
      RowVersion.hiddenFrom, hlive]
    rfl
  simp [hasAnyVisibleVersion, hok.isOpen, rowVisible_eq_isSome, hok.batchRow_eq, hread]

end

end

/-! ## Two runs -/

end TxnRun

end RadixDb
