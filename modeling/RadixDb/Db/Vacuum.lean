import RadixDb.Registry.Outlook
import RadixDb.Db.System

/-!
# Vacuum and the reads that follow it

Both vacuums ask the registry for its active transactions and keep what those can see. The list
leaves out transactions that have started to commit, and it says nothing about who comes later:
**a vacuum can drop the last version that will be readable once a transaction in flight has
aborted** (`vacuum_loses_committed_row`).

`vacuum_preserves_reads` says when no read changes. A run is compared with the same run without
its vacuums, moment by moment, whatever comes after them. The condition is on the state in which a
vacuum runs: the newest version of every row that is deleted or has older versions is by a
transaction whose commit is complete (`Settled`). An insert in flight is no obstacle. An update or a
delete in flight is, since the state does not say whether it will be aborted, as in the runs that
lose a row, or completed; and so is one that has been aborted already.

Who comes later sees the newest version then, and needs none below it; a transaction on the list
keeps what it sees by the vacuum's own tests. Publications, claims and registry calls do the same to
both databases (`Db.Follows`).
-/

namespace RadixDb

variable {V : Type}

open TransactionRegistry VersionStore List

variable {vis : Int → Bool} {r : TransactionRegistry}

/-- The newest version of every row from which a vacuum may take something is by a transaction that
whoever begins from now on sees. -/
def Settled (r : TransactionRegistry) (s : VersionStore V) : Prop :=
  ∀ row v older, s.history row = v :: older → v.isDeleted = true ∨ older ≠ [] →
    r.settled v.txnId = true

/-- Nobody who sees all settled versions misses what is taken from such a row. -/
theorem Settled.readVersions_eq {full before after : VersionStore V} (h : Settled r before)
    (hfull : full.Ok) (hbefore : CutOf full before) (hafter : CutOf full after)
    (hcut : ∀ row, after.history row <+: before.history row) (ho : Outlook r vis) (row : Int) :
    readVersions vis (after.history row) = readVersions vis (before.history row) := by
  obtain ⟨lost, hlost⟩ := hcut row
  cases hc : before.chain? row with
  | none =>
    rw [history_of_none hc, append_eq_nil_iff] at hlost
    rw [history_of_none hc, hlost.1]
  | some c =>
    obtain ⟨f, hf, hhead⟩ := hbefore.head hc
    have hhist := history_of_chain hc
    cases hc' : after.chain? row with
    | none =>
      have hd : c.head.version.isDeleted = true := hhead ▸ hafter.removed row f hc' hf
      have hvis := ho.sees_settled _ (h row _ _ hhist (.inl hd))
      have hown : c.head.version.OwnMarker :=
        hfull.own_history ((hbefore.kept row).subset (by simp [hhist]))
      simp [history_of_none hc', hhist, readVersions, hvis, RowVersion.hiddenFrom, hd,
        hown.marker_eq hd]
    | some c' =>
      rw [history_of_chain hc', hhist, cons_append, cons.injEq] at hlost
      rw [history_of_chain hc', hhist, hlost.1]
      by_cases hnil : c.prev = []
      · simp_all
      · have hvis := ho.sees_settled _ (h row _ _ hhist (.inr (by simpa using hnil)))
        simp [readVersions, hvis]

/-! ## Runs with and without their vacuums -/

def RegistryOp.isCollection : RegistryOp → Bool
  | .runGc _ => true
  | .cleanupOldTransactions _ _ => true
  | _ => false

variable {op : RegistryOp}

theorem World.effect_ne_collects (w : World) (h : op.isCollection = false)
    (maxAge : Nat) (now : Int) : w.effect op ≠ .collects maxAge now := by
  cases op with
  | runGc _ => cases h
  | cleanupOldTransactions _ _ => cases h
  | completeCommit t now =>
    simp only [World.effect]
    cases (w.registry.completeCommit t now).2 <;> simp [endsIfOk]
  | completeCommitWithStoragePublication t now =>
    simp only [World.effect]
    cases (w.registry.completeCommitWithStoragePublication t now).2 <;> simp [endsIfOk]
  | abort t now =>
    simp only [World.effect]
    split <;> simp
  | _ => simp [World.effect]

def DbOp.isVacuum : DbOp V → Bool
  | .cleanupDeletedRows _ _ => true
  | .cleanupOldPreviousVersions _ _ => true
  | _ => false

/-- The same operation on a database that is never vacuumed. -/
def Db.stepUnvacuumed (db : Db V) (op : DbOp V) : Db V × DbOutcome :=
  if op.isVacuum then (db, .cleaned 0) else db.step op

/-- A run: what recovery left in registry and table, and the operations that followed. -/
structure DbRun (V : Type) where
  epoch : Nat
  recovery : List RecoveryCall
  contents : VersionStore V
  ops : List (DbOp V)

namespace DbRun

variable (run : DbRun V)

def start : Db V := ⟨World.start run.epoch run.recovery, run.contents⟩

/-- The database at moment `m`. -/
def dbAt (m : Nat) : Db V := Run.after Db.step run.start run.ops m

/-- The database at moment `m`, had no vacuum run. -/
def unvacuumedAt (m : Nat) : Db V := Run.after Db.stepUnvacuumed run.start run.ops m

/-- The table was filled by its own operations, deletes go on heads that are not deletes, and no
transaction marker is collected. -/
structure Regular : Prop where
  contents : Reachable run.contents
  publishes : ∀ k batch, run.ops[k]? = some (.publish batch) →
    (run.unvacuumedAt k).store.BatchPublishable batch
  uncollected : ∀ (k : Nat) (op : RegistryOp), run.ops[k]? = some (.registry op) →
    op.isCollection = false

/-- Operation `k` is a vacuum. -/
def VacuumAt (k : Nat) : Prop := ∃ op, run.ops[k]? = some op ∧ op.isVacuum = true

/-- The vacuum `k` takes care of `u`: it begins only later, or is on the vacuum's list. -/
def Serves (k : Nat) (u : Int) : Prop :=
  (run.dbAt k).registry.nextTxnId < u ∨ u ∈ (run.dbAt k).registry.getActiveTransactionIds

end DbRun

/-! ## The vacuumed database follows the other -/

/-- Two stores whose histories mean the same to a viewer. -/
def SameReads (vis : Int → Bool) (s full : VersionStore V) : Prop :=
  ∀ row, readVersions vis (s.history row) = readVersions vis (full.history row)

/-- `db` has lost, of what `full` has, nothing that a reader to come can read. -/
structure Db.Follows (db full : Db V) : Prop where
  world : db.world = full.world
  worldOk : full.world.Ok
  fullOk : full.store.Ok
  cut : CutOf full.store db.store
  outlook : ∀ vis, Outlook full.registry vis → SameReads vis db.store full.store

section

variable {db full : Db V}

section

variable (h : db.Follows full)

include h

theorem Db.Follows.registry_eq : db.registry = full.registry :=
  congrArg World.registry h.world

theorem Db.Follows.registry_ok : db.registry.Ok :=
  h.registry_eq ▸ h.worldOk.registry

theorem Db.Follows.step_registry (hop : op.isCollection = false) :
    (db.step (.registry op)).1.Follows (full.step (.registry op)).1 where
  world := by
    simp only [Db.step]
    rw [h.world]
  worldOk := h.worldOk.step op
  fullOk := h.fullOk
  cut := h.cut
  outlook vis ho := h.outlook vis
    (ho.change (full.world.step_change op) (full.world.effect_ne_collects hop))

theorem Db.Follows.step_publish {batch : Batch V}
    (hb : full.store.BatchPublishable batch) :
    (db.step (.publish batch)).1.Follows (full.step (.publish batch)).1 ∧
      ∀ vis, SameReads vis db.store full.store →
        SameReads vis (db.step (.publish batch)).1.store (full.step (.publish batch)).1.store := by
  have hdb : (db.step (.publish batch)).1.store = db.store.addAll batch :=
    publish_eq h.cut.isOpen batch
  have hf : (full.step (.publish batch)).1.store = full.store.addAll batch :=
    publish_eq h.fullOk.isOpen batch
  obtain ⟨hcut, hread⟩ := h.cut.addVersions h.fullOk hb
  rw [← hdb, ← hf] at hcut
  have hsame : ∀ vis, SameReads vis db.store full.store →
      SameReads vis (db.step (.publish batch)).1.store (full.step (.publish batch)).1.store := by
    intro vis hvis
    rw [hdb, hf]
    exact hread vis hvis
  refine ⟨⟨h.world, h.worldOk, ?_, hcut, fun vis ho => hsame vis (h.outlook vis ho)⟩, hsame⟩
  rw [hf]
  exact h.fullOk.addVersions hb

variable {op : DbOp V}

theorem Db.Follows.step_vacuum (hop : op.isVacuum = true)
    (hsettled : Settled db.registry db.store) : (db.step op).1.Follows full := by
  have hkeep : (db.step op).1.world = db.world ∧ CutOf full.store (db.step op).1.store ∧
      ∀ row, (db.step op).1.store.history row <+: db.store.history row := by
    cases op with
    | cleanupDeletedRows retention now =>
      exact ⟨rfl, h.cut.cleanupDeletedRows db.checker retention now,
        h.cut.history_cleanupDeletedRows db.checker retention now⟩
    | cleanupOldPreviousVersions retention now =>
      exact ⟨rfl, h.cut.cleanupOldPreviousVersions db.checker retention now,
        h.cut.history_cleanupOldPreviousVersions db.checker retention now⟩
    | _ => cases hop
  obtain ⟨hworld, hcut, hprefix⟩ := hkeep
  refine ⟨hworld.trans h.world, h.worldOk, h.fullOk, hcut, fun vis ho row => ?_⟩
  have hsame := hsettled.readVersions_eq h.fullOk h.cut hcut hprefix (h.registry_eq ▸ ho) row
  exact hsame.trans (h.outlook vis ho row)

theorem Db.Follows.reads_vacuum_active (hop : op.isVacuum = true) {u : Int}
    (hu : u ∈ db.registry.getActiveTransactionIds) :
    SameReads (db.sees u) (db.step op).1.store db.store := by
  have hlisted : u ∈ db.checker.getActiveTransactionIds := hu
  cases op with
  | cleanupDeletedRows retention now =>
    exact h.cut.readVersions_cleanupDeletedRows retention now hlisted h.fullOk
  | cleanupOldPreviousVersions retention now =>
    exact h.cut.readVersions_cleanupOldPreviousVersions retention now hlisted
  | _ => cases hop

theorem Db.Follows.step_claims (hop : (∃ row t, op = .claim row t) ∨ ∃ row t, op = .release row t) :
    (db.step op).1.Follows (full.step op).1 ∧
      ∀ vis, SameReads vis db.store full.store →
        SameReads vis (db.step op).1.store (full.step op).1.store := by
  have hclaims : ∀ x : Db V, ∃ claims, (x.step op).1 =
      { x with store := { x.store with uncommittedWrites := claims } } := by
    intro x
    rcases hop with ⟨row, t, rfl⟩ | ⟨row, t, rfl⟩
    · exact (x.store.tryClaimRow_claims row t).imp fun _ hc => by simp only [Db.step, hc]
    · exact (x.store.releaseRowClaim_claims row t).imp fun _ hc => by simp only [Db.step, hc]
  obtain ⟨claims, hdb⟩ := hclaims db
  obtain ⟨claims', hf⟩ := hclaims full
  rw [hdb, hf]
  exact ⟨⟨h.world, h.worldOk, h.fullOk.withClaims claims', h.cut.withClaims claims' claims,
    h.outlook⟩, fun _ hvis => hvis⟩

end

end

/-! ## Every moment of a run -/

section

variable {db full : Db V}

/-- A viewer without a snapshot reads the same, whatever was vacuumed. -/
theorem Db.Follows.reads_of_no_boundary (h : db.Follows full) {u : Int} (hu : db.registry.Live u)
    (hb : db.registry.snapshotExclusions.lookup u = none) :
    SameReads (db.sees u) db.store full.store := by
  refine h.outlook _ ?_
  rw [← h.registry_eq]
  exact outlook_of_no_boundary hu hb

/-- A registry call changes no viewer's reads apart: a snapshot sees what it saw, and a new one has
an outlook. -/
theorem Db.Follows.reads_registry (h : db.Follows full)
    (hop : op.isCollection = false) {u : Int} (hu : (db.step (.registry op)).1.registry.Live u)
    (hbefore : db.registry.Live u → SameReads (db.sees u) db.store full.store) :
    SameReads ((db.step (.registry op)).1.sees u) db.store full.store := by
  have hafter := h.step_registry hop
  have hc : Change db.registry (db.world.effect op) (db.step (.registry op)).1.registry :=
    db.world.step_change op
  cases hb' : (db.step (.registry op)).1.registry.snapshotExclusions.lookup u with
  | none => exact hafter.reads_of_no_boundary hu hb'
  | some b' =>
    cases hb : db.registry.snapshotExclusions.lookup u with
    | none =>
      refine hafter.outlook _ ?_
      rw [← hafter.registry_eq]
      exact h.registry_ok.outlook_of_boundary_new hc hb hb'
    | some b =>
      have hsees : (db.step (.registry op)).1.sees u = db.sees u :=
        funext fun v => h.registry_ok.visible_of_boundary_kept hc hb hu v
      rw [hsees]
      exact hbefore (h.registry_ok.live_of_snapshot (Table.mem_of_lookup hb))

/-- **An operation that is not a vacuum** does the same to both databases. -/
theorem Db.Follows.step (h : db.Follows full) {op : DbOp V} (hop : op.isVacuum = false)
    (hpub : ∀ batch, op = .publish batch → full.store.BatchPublishable batch)
    (hreg : ∀ rop, op = .registry rop → rop.isCollection = false) :
    (db.step op).1.Follows (full.step op).1 ∧ ∀ u, (db.step op).1.registry.Live u →
      (db.registry.Live u → SameReads (db.sees u) db.store full.store) →
        SameReads ((db.step op).1.sees u) (db.step op).1.store (full.step op).1.store := by
  cases op with
  | registry op =>
    exact ⟨h.step_registry (hreg op rfl), fun u => h.reads_registry (hreg op rfl)⟩
  | publish batch =>
    exact (h.step_publish (hpub batch rfl)).imp_right fun hsame u hu hreads => hsame _ (hreads hu)
  | claim row t =>
    exact (h.step_claims (.inl ⟨row, t, rfl⟩)).imp_right fun hsame u hu hreads =>
      hsame _ (hreads hu)
  | release row t =>
    exact (h.step_claims (.inr ⟨row, t, rfl⟩)).imp_right fun hsame u hu hreads =>
      hsame _ (hreads hu)
  | _ => cases hop

end

namespace DbRun

variable {run : DbRun V}

/-- Vacuum `k` changes no read of a viewer it serves. -/
theorem Serves.reads {k : Nat} {u : Int} {op : DbOp V} (hs : run.Serves k u)
    (hk : run.ops[k]? = some op) (hop : op.isVacuum = true)
    (h : (run.dbAt k).Follows (run.unvacuumedAt k))
    (hu : (run.dbAt k).registry.Live u)
    (hbefore : SameReads ((run.dbAt k).sees u) (run.dbAt k).store (run.unvacuumedAt k).store) :
    SameReads ((run.dbAt k).sees u) (run.dbAt (k + 1)).store (run.unvacuumedAt k).store := by
  have hsucc : run.dbAt (k + 1) = ((run.dbAt k).step op).1 := Run.after_succ hk
  rw [hsucc]
  rcases hs with hlater | hact
  · -- it has not begun
    have := (h.registry_ok.tracked u hu.mem).2
    omega
  · exact fun row => (h.reads_vacuum_active hop hact row).trans (hbefore row)

/-- At every moment the vacuumed database follows the other one, and reads the same for every viewer
that all vacuums so far have served. -/
theorem follows_at (h : run.Regular) (hsettled : ∀ k, run.VacuumAt k →
      Settled (run.dbAt k).registry (run.dbAt k).store) (m : Nat) :
    (run.dbAt m).Follows (run.unvacuumedAt m) ∧
      ∀ u, (run.dbAt m).registry.Live u → (∀ k < m, run.VacuumAt k → run.Serves k u) →
        SameReads ((run.dbAt m).sees u) (run.dbAt m).store (run.unvacuumedAt m).store := by
  induction m with
  | zero =>
    have hok := h.contents.ok
    exact ⟨⟨rfl, World.Ok.start run.epoch run.recovery, hok, CutOf.refl hok, fun _ _ _ => rfl⟩,
      fun _ _ _ _ => rfl⟩
  | succ m ih =>
    obtain ⟨hf, hreads⟩ := ih
    have hearlier : ∀ {u}, (∀ k < m + 1, run.VacuumAt k → run.Serves k u) →
        ∀ k < m, run.VacuumAt k → run.Serves k u :=
      fun hs k hk => hs k (Nat.lt_succ_of_lt hk)
    cases hop : run.ops[m]? with
    | none =>
      rw [dbAt, unvacuumedAt, Run.after_succ_of_none hop, Run.after_succ_of_none hop]
      exact ⟨hf, fun u hu hs => hreads u hu (hearlier hs)⟩
    | some op =>
      have hdb : run.dbAt (m + 1) = ((run.dbAt m).step op).1 := Run.after_succ hop
      have hun : run.unvacuumedAt (m + 1) = ((run.unvacuumedAt m).stepUnvacuumed op).1 :=
        Run.after_succ hop
      cases hvac : op.isVacuum with
      | true =>
        have hsame : run.unvacuumedAt (m + 1) = run.unvacuumedAt m := by
          simp [hun, Db.stepUnvacuumed, hvac]
        have hset := hsettled m ⟨op, hop, hvac⟩
        have hafter : (run.dbAt (m + 1)).Follows (run.unvacuumedAt m) := by
          rw [hdb]
          exact hf.step_vacuum hvac hset
        have hreg : (run.dbAt (m + 1)).registry = (run.dbAt m).registry :=
          hafter.registry_eq.trans hf.registry_eq.symm
        refine ⟨hsame ▸ hafter, fun u hu hs => ?_⟩
        have hu' : (run.dbAt m).registry.Live u := hreg ▸ hu
        have hsees : (run.dbAt (m + 1)).sees u = (run.dbAt m).sees u := by
          unfold Db.sees
          rw [hreg]
        rw [hsees, hsame]
        exact (hs m (Nat.lt_succ_self m) ⟨op, hop, hvac⟩).reads hop hvac hf hu'
          (hreads u hu' (hearlier hs))
      | false =>
        have hun' : run.unvacuumedAt (m + 1) = ((run.unvacuumedAt m).step op).1 := by
          simp [hun, Db.stepUnvacuumed, hvac]
        rw [hdb, hun']
        obtain ⟨hstep, hsame⟩ := hf.step hvac (fun batch hb => h.publishes m batch (hb ▸ hop))
          fun rop hr => h.uncollected m rop (hr ▸ hop)
        exact ⟨hstep, fun u hu hs => hsame u hu fun hu' => hreads u hu' (hearlier hs)⟩

/-- **A vacuum changes no read if it finds the rows settled.** At every moment of every regular run
whose vacuums do, every live viewer that began after each vacuum or was on its list reads every row
as in the run without vacuums. -/
theorem vacuum_preserves_reads (h : run.Regular)
    (hsettled : ∀ k, run.VacuumAt k → Settled (run.dbAt k).registry (run.dbAt k).store)
    {m : Nat} {u : Int} (hu : (run.dbAt m).registry.Live u)
    (hserved : ∀ k < m, run.VacuumAt k → run.Serves k u) (row : Int) :
    ((run.dbAt m).getVisibleVersion u row).map (·.data) =
      ((run.unvacuumedAt m).getVisibleVersion u row).map (·.data) := by
  obtain ⟨hf, hreads⟩ := follows_at h hsettled m
  have hsees : (run.unvacuumedAt m).sees u = (run.dbAt m).sees u := by
    unfold Db.sees
    rw [hf.registry_eq]
  have heq := hf.cut.getVisibleVersion_eq hf.fullOk (hreads u hu hserved row)
  have hdata := congrArg (Option.map (·.2)) heq
  simp only [Option.map_map] at hdata
  unfold Db.getVisibleVersion
  rwa [hsees]

/-! ## Runs -/

/-- Transaction 1 inserts row 1 and commits; transaction 2 publishes a version of the row; two
operations follow, and transaction 3 begins. -/
def twoWriters (version : PublishedVersion Nat) (next last : DbOp Nat) : DbRun Nat where
  epoch := 1
  recovery := []
  contents := VersionStore.new
  ops := [.registry (.begin .readCommitted), .registry (.startCommit 1),
    .publish [(1, .live 1 [10] 100)], .registry (.completeCommit 1 110),
    .registry (.begin .readCommitted), .registry (.startCommit 2), .publish [(1, version)],
    next, last, .registry (.begin .readCommitted)]

/-- Transaction 2 commits an update, and then the history is pruned. -/
def vacuumAfterCommit : DbRun Nat :=
  twoWriters (.live 2 [20] 200) (.registry (.completeCommit 2 210))
    (.cleanupOldPreviousVersions 0 1000)

theorem vacuumAfterCommit_regular : vacuumAfterCommit.Regular where
  contents := .new
  publishes k batch hk := by
    rcases k with _ | _ | _ | _ | _ | _ | _ | _ | _ | _ | k <;> cases hk
    all_goals exact ⟨fun hd => absurd hd (by decide), trivial⟩
  uncollected k op hk := by
    rcases k with _ | _ | _ | _ | _ | _ | _ | _ | _ | _ | k <;> cases hk
    all_goals rfl

theorem vacuumAfterCommit_vacuumAt {k : Nat} (h : vacuumAfterCommit.VacuumAt k) : k = 8 := by
  obtain ⟨op, hk, hvac⟩ := h
  rcases k with _ | _ | _ | _ | _ | _ | _ | _ | _ | _ | k <;> cases hk
  all_goals first | rfl | cases hvac

theorem vacuumAfterCommit_settled :
    Settled (vacuumAfterCommit.dbAt 8).registry (vacuumAfterCommit.dbAt 8).store := by
  intro row v older hhist _
  have hkeys : (vacuumAfterCommit.dbAt 8).store.versions.keys = [1] := by decide
  by_cases hrow : row = 1
  · subst hrow
    have hv : v.txnId = 2 := congrArg (fun vs => (vs.map (·.txnId)).headD 0) hhist.symm
    rw [hv]
    decide
  · have hnone : (vacuumAfterCommit.dbAt 8).store.chain? row = none :=
      AList.lookup_eq_none.mpr fun hm => hrow (by simpa [AList.mem_keys, hkeys] using hm)
    rw [history_of_none hnone] at hhist
    cases hhist

/-- The pruning drops the version of transaction 1, and transaction 3 reads what it would have read.
-/
theorem vacuum_preserves_reads_afterCommit :
    ((vacuumAfterCommit.dbAt 10).getVisibleVersion 3 1).map (·.data) =
        ((vacuumAfterCommit.unvacuumedAt 10).getVisibleVersion 3 1).map (·.data) ∧
      (vacuumAfterCommit.dbAt 10).store.history 1 ≠
        (vacuumAfterCommit.unvacuumedAt 10).store.history 1 := by
  refine ⟨vacuum_preserves_reads vacuumAfterCommit_regular (fun k hk => ?_)
    (isLive_iff.mp (by decide)) (fun k _ hk => ?_) 1, by decide⟩
  · rw [vacuumAfterCommit_vacuumAt hk]
    exact vacuumAfterCommit_settled
  · rw [vacuumAfterCommit_vacuumAt hk]
    exact .inl (by decide)

/-- **A vacuum can lose a committed row.** Transaction 2 has published a delete, or an update, of
the committed row 1 and has not completed. No transaction is active, so the vacuum takes out the
row, or its committed version. Transaction 2 aborts; transaction 3 reads nothing. -/
theorem vacuum_loses_committed_row :
    let removal := twoWriters ⟨.newDeletedWithTimestamp 2 [] 200, .inr rfl⟩
      (.cleanupDeletedRows 0 1000) (.registry (.abort 2 1010))
    let pruning := twoWriters (.live 2 [20] 200)
      (.cleanupOldPreviousVersions 0 1000) (.registry (.abort 2 1010))
    ((removal.dbAt 10).getVisibleVersion 3 1 = none ∧
      ((removal.unvacuumedAt 10).getVisibleVersion 3 1).map (·.data) = some [10]) ∧
    (pruning.dbAt 10).getVisibleVersion 3 1 = none ∧
      ((pruning.unvacuumedAt 10).getVisibleVersion 3 1).map (·.data) = some [10] := by
  decide

end DbRun

end RadixDb
