import RadixDb.Db.Vacuum
import RadixDb.Db.Seal
import RadixDb.Store.Creators

/-!
# What a seal loses

A seal takes a row out of the hot store and leaves what it has extracted in cold storage. Nothing is
lost if, at the removal, every live transaction reads from the hot store what was extracted.

The extraction with a cutoff walks down a chain to the first settled version, and so passes the
version of a transaction that is about to complete. When that transaction has completed and has
released its claim, the removal finds the head it expects and takes the row out: **a seal can throw
away a committed update** (`seal_loses_update`).

**Without a cutoff everything is handed over**, however the run goes on between the clone, the
capture, the extraction of each row and the removal (`seal_hands_over`). Such a seal never passes a
head, as the comment beside it demands, and the engine starts only such seals today.

The argument follows each row of the clone. It is either as it was (`Since`, on the left) or has
been touched, and then its head has a creator the clone does not know, because a transaction
publishes once and while it is live; the removal leaves touched rows alone. In a row as it was, what
was extracted is the head. Its creator was settled at the extraction, so it was not dead at the
capture, and the captured visibility lets it through only if every live transaction sees it
(`SealJob.Captured.extracted`). That stays so, as long as no marker is collected (`Later`).
-/

namespace RadixDb

open List

variable {V : Type}

open TransactionRegistry VersionStore

/-! ## Rows since the clone -/

/-- A row's versions in a tree. -/
def treeHistory (tree : Table Int (VersionChain V)) (row : Int) : List (RowVersion V) :=
  ((tree.lookup row).map VersionChain.versions).getD []

/-- The row has been published on or taken out since the clone: its head, if there is one, has a
creator that the clone does not know. -/
def Touched (s : VersionStore V) (tree : Table Int (VersionChain V)) (row : Int) : Prop :=
  ∀ t, s.headTxn row = some t → ∀ w ∈ treeHistory tree row, t ≠ w.txnId

/-- The row is as it was in the clone, or touched. -/
def Since (s : VersionStore V) (tree : Table Int (VersionChain V)) (row : Int) : Prop :=
  s.chain? row = tree.lookup row ∨ Touched s tree row

section

variable {s s' : VersionStore V} {tree : Table Int (VersionChain V)} {row : Int}

theorem history_of_since (h : s.chain? row = tree.lookup row) :
    s.history row = treeHistory tree row := by
  unfold VersionStore.history treeHistory
  rw [h]

theorem Touched.congr (h : Touched s tree row) (hs : s'.chain? row = s.chain? row) :
    Touched s' tree row := by
  unfold Touched headTxn at h ⊢
  rwa [hs]

/-- A creator that the tree does not know publishes. -/
theorem Since.addVersions {t : Int} (ht : ∀ row, ∀ w ∈ treeHistory tree row, t ≠ w.txnId)
    {batch : Batch V} (hs : s.maxVersionHistory = 0) (hall : ∀ p ∈ batch, p.2.1.txnId = t) :
    (Touched s tree row → Touched (s.addAll batch) tree row) ∧
      (Since s tree row → Since (s.addAll batch) tree row) := by
  by_cases hrow : row ∈ batch.map (·.1)
  · have htouched : Touched (s.addAll batch) tree row := by
      intro y hy
      rw [headTxn_addVersions hs hall, if_pos hrow] at hy
      exact Option.some.inj hy ▸ ht row
    exact ⟨fun _ => htouched, fun _ => .inr htouched⟩
  · have hchain := chain?_addVersions hs hrow
    exact ⟨fun h => h.congr hchain, fun h => h.imp hchain.trans fun h => h.congr hchain⟩

end

/-! ## The removal -/

/-- **What the removal of sealed rows does**: it takes out rows of its list whose head has the
creator it has in the clone. -/
theorem removeSealedRows_spec {s : VersionStore V} (h : s.Ok) (rows : List Int)
    (tree : Table Int (VersionChain V)) :
    ∃ acc, s.removeSealedRows rows tree =
        (s.finishRemoval acc, .ok (acc.removed.length, acc.removed, acc.skipped)) ∧
      RemovalOk s acc ∧ ∀ row ∈ acc.removed, row ∈ rows ∧ ∃ c, s.chain? row = some c ∧
        c.head.version.txnId =
          ((tree.lookup row).map fun e => e.head.version.txnId).getD 0 := by
  refine ⟨rows.foldl (s.sealTurn tree) s.removalOf,
    by simp [removeSealedRows, guarded, h.isOpen], ?_⟩
  refine foldlRecOn (motive := fun acc : Removal V => RemovalOk s acc ∧
    ∀ row ∈ acc.removed, row ∈ rows ∧ ∃ c, s.chain? row = some c ∧ c.head.version.txnId =
      ((tree.lookup row).map fun e => e.head.version.txnId).getD 0) rows _
    ⟨RemovalOk.start s, by simp [removalOf]⟩ ?_
  rintro acc ⟨hok, hheads⟩ row hrow
  refine ⟨hok.sealTurn h.arena tree row, ?_⟩
  unfold sealTurn
  split
  · exact hheads
  · cases he : acc.versions.lookup row with
    | none => exact hheads
    | some entry =>
      simp only
      split
      · exact hheads
      · rename_i hhead
        exact forall_mem_append.mpr ⟨hheads, forall_mem_singleton.mpr
          ⟨hrow, entry, (hok.chain_of_lookup he).2, not_not.mp hhead⟩⟩

/-! ## The registry goes on -/

/-- A registry that has gone on from another one, without a collection. -/
structure Later (r r' : TransactionRegistry) : Prop where
  shown : ∀ t, r.Shown t → r'.Shown t
  dead : ∀ t, r.dead t = true → r'.dead t = true

theorem Later.refl (r : TransactionRegistry) : Later r r := ⟨fun _ => id, fun _ => id⟩

theorem Later.trans {r r' r'' : TransactionRegistry} (h : Later r r') (h' : Later r' r'') :
    Later r r'' :=
  ⟨fun t ht => h'.shown t (h.shown t ht), fun t ht => h'.dead t (h.dead t ht)⟩

theorem Later.step {w : World} (hw : w.Ok) {op : RegistryOp} (hop : op.isCollection = false) :
    Later w.registry (w.step op).1.registry :=
  ⟨fun _ => (w.step_change op).shown hw.registry,
    fun _ => (w.step_change op).dead (w.effect_ne_collects hop)⟩

/-! ## The invariant -/

/-- A creator the table can have: recovery, or a transaction that has published or ended. -/
def SealDb.Known (s : SealDb V) (t : Int) : Prop :=
  (t = recoveryTransactionId ∨ (0 < t ∧ t < I64.maxValue)) ∧ t ≤ s.registry.nextTxnId ∧
    (t ∈ s.terminal ∨ ¬ s.registry.Live t)

/-- All creators in the tree are known. -/
def SealDb.KnowsTree (s : SealDb V) (tree : Table Int (VersionChain V)) : Prop :=
  ∀ row, ∀ v ∈ treeHistory tree row, s.Known v.txnId

/-- What a step keeps of the rows of a clone. -/
structure KeepsClone (s s' : SealDb V) (tree : Table Int (VersionChain V)) : Prop where
  later : Later s.registry s'.registry
  known : ∀ t, s.Known t → s'.Known t
  touched : ∀ row, Touched s.db.store tree row → Touched s'.db.store tree row
  since : ∀ row, Since s.db.store tree row → Since s'.db.store tree row

theorem KeepsClone.refl (s : SealDb V) (tree : Table Int (VersionChain V)) : KeepsClone s s tree :=
  ⟨.refl _, fun _ => id, fun _ => id, fun _ => id⟩

/-- The tree was cloned some time ago. -/
structure Cloned (s : SealDb V) (tree : Table Int (VersionChain V)) : Prop where
  known : s.KnowsTree tree
  since : ∀ row, Since s.db.store tree row

/-- Before the capture nothing is extracted. -/
def SealJob.Fresh (j : SealJob V) : Prop :=
  j.visibility = none → j.pending = [] ∧ j.written = []

structure SealDb.Ok (s : SealDb V) : Prop where
  worldOk : s.db.world.Ok
  storeOk : s.db.store.Ok
  known : s.db.store.Creators s.Known
  job : ∀ j, s.job = some j → Cloned s j.extraction ∧ j.Fresh

variable {j : SealJob V} {s s' s₀ : SealDb V}

theorem Cloned.frame {tree : Table Int (VersionChain V)} (h : Cloned s tree)
    (hf : KeepsClone s s' tree) : Cloned s' tree :=
  ⟨fun row v hv => hf.known _ (h.known row v hv), fun row => hf.since row (h.since row)⟩

/-- A step of the database beside a seal. -/
structure Steps (s s' : SealDb V) : Prop where
  worldOk : s'.db.world.Ok
  storeOk : s'.db.store.Ok
  known : s'.db.store.Creators s'.Known
  follows : ∀ tree, s.KnowsTree tree → KeepsClone s s' tree
  job_eq : s'.job = s.job

theorem Steps.ok (h : Steps s s') (hs : s.Ok) : s'.Ok :=
  ⟨h.worldOk, h.storeOk, h.known, fun j hj => (hs.job j (h.job_eq ▸ hj)).imp_left fun hc =>
    hc.frame (h.follows _ hc.known)⟩

section

variable (h : s.Ok)

include h

theorem SealDb.Ok.steps_refl : Steps s s :=
  ⟨h.worldOk, h.storeOk, h.known, fun tree _ => .refl s tree, rfl⟩

theorem SealDb.Ok.step_registry {op : RegistryOp} (hop : op.isCollection = false) :
    Steps s (s.step (.registry op)).1 := by
  have hc : Change s.registry (s.db.world.effect op) (s.step (.registry op)).1.registry :=
    s.db.world.step_change op
  have hknown : ∀ t, s.Known t → (s.step (.registry op)).1.Known t := by
    rintro t ⟨hid, hle, hpub⟩
    exact ⟨hid, hle.trans hc.nextTxnId_le, hpub.imp_right fun hnot => (hc.ended ⟨hle, hnot⟩).2⟩
  exact ⟨h.worldOk.step op, h.storeOk, fun row v hv => hknown _ (h.known row v hv),
    fun tree _ => ⟨.step h.worldOk hop, hknown, fun _ => id, fun _ => id⟩, rfl⟩

theorem SealDb.Ok.step_commit {t : Int} {batch : Batch V}
    (hb : s.db.store.BatchPublishable batch) : Steps s (s.step (.commit t batch)).1 := by
  simp only [SealDb.step]
  split
  case isFalse => exact h.steps_refl
  case isTrue hguard =>
  obtain ⟨hlive, hnew, hall⟩ := hguard
  have hlive : s.registry.Live t := isLive_iff.mp hlive
  have hstore : (s.db.step (.publish batch)).1.store = s.db.store.addAll batch :=
    publish_eq h.storeOk.isOpen batch
  -- whoever the table knows has published or ended, so it is not `t`
  have hfresh : ∀ x, s.Known x → t ≠ x := by
    rintro x ⟨-, -, hpub | hnot⟩ rfl
    · exact hnew hpub
    · exact hnot hlive
  have hknown : ∀ x, s.Known x → SealDb.Known
      { s with db := (s.db.step (.publish batch)).1, terminal := t :: s.terminal } x :=
    fun x hx => ⟨hx.1, hx.2.1, hx.2.2.imp_left (mem_cons_of_mem t)⟩
  have hself : SealDb.Known
      { s with db := (s.db.step (.publish batch)).1, terminal := t :: s.terminal } t := by
    obtain ⟨hpos, hle⟩ := h.worldOk.registry.tracked t hlive.mem
    exact ⟨.inr ⟨hpos, h.worldOk.registry.live_lt t hlive⟩, hle, .inl mem_cons_self⟩
  have hrows : ∀ tree, s.KnowsTree tree → ∀ row,
      (Touched s.db.store tree row → Touched (s.db.store.addAll batch) tree row) ∧
        (Since s.db.store tree row → Since (s.db.store.addAll batch) tree row) :=
    fun tree htree row => Since.addVersions (fun x w hw => hfresh _ (htree x w hw))
      h.storeOk.unlimited hall
  refine ⟨h.worldOk, ?_, ?_, fun tree htree => ⟨.refl _, hknown, ?_, ?_⟩, rfl⟩
  · rw [hstore]
    exact h.storeOk.addVersions hb
  · rw [hstore]
    exact VersionStore.Creators.addVersions (fun row v hv => hknown _ (h.known row v hv))
      h.storeOk.unlimited fun p hp => (hall p hp).symm ▸ hself
  · rw [hstore]
    exact fun row => (hrows tree htree row).1
  · rw [hstore]
    exact fun row => (hrows tree htree row).2

/-- Claims are no part of the invariant. -/
theorem SealDb.Ok.withClaims {store : VersionStore V}
    (hstore : ∃ claims, store = { s.db.store with uncommittedWrites := claims }) :
    Steps s { s with db := { s.db with store := store } } := by
  obtain ⟨claims, rfl⟩ := hstore
  exact ⟨h.worldOk, h.storeOk.withClaims claims, h.known,
    fun _ _ => ⟨.refl _, fun _ => id, fun _ => id, fun _ => id⟩, rfl⟩

theorem SealDb.Ok.step_remove (start count : Nat) : Steps s (s.step (.remove start count)).1 := by
  simp only [SealDb.step]
  split
  · exact h.steps_refl
  · rename_i j hj
    obtain ⟨acc, heq, hok, -⟩ :=
      removeSealedRows_spec h.storeOk (SealDb.removalBatch j start count) j.extraction
    simp only [heq]
    have hchain := chain?_finishRemoval hok
    have hgone : ∀ tree row, row ∈ acc.removed →
        Touched (s.db.store.finishRemoval acc) tree row := fun tree row hrow =>
      fun t ht => by simp [headTxn, hchain, hrow] at ht
    have hkept : ∀ row, row ∉ acc.removed →
        (s.db.store.finishRemoval acc).chain? row = s.db.store.chain? row := fun row hrow =>
      (hchain row).trans (if_neg hrow)
    refine ⟨h.worldOk, h.storeOk.finishRemoval hok, fun row v hv => ?_, fun tree _ =>
      ⟨.refl _, fun _ => id, fun row ht => ?_, fun row hs => ?_⟩, rfl⟩
    · have hv' : v ∈ ((s.db.store.finishRemoval acc).chain? row |>.map
          VersionChain.versions).getD [] := hv
      rw [hchain] at hv'
      split at hv'
      · cases hv'
      · exact h.known row v hv'
    · by_cases hrow : row ∈ acc.removed
      · exact hgone tree row hrow
      · exact ht.congr (hkept row hrow)
    · by_cases hrow : row ∈ acc.removed
      · exact .inr (hgone tree row hrow)
      · exact hs.imp (hkept row hrow).trans fun ht => ht.congr (hkept row hrow)

end

/-! ## What is extracted -/

variable {vis : SealVisibilitySnapshot} {r : TransactionRegistry} {x : SealedRow V} {row : Int}
  {c : VersionChain V}

/-- **What is extracted of a row of the clone** without a cutoff: its head, if it is settled, may go
cold and is not a delete. The viewer of the extraction sees what is settled, which is the hypothesis
`hsees`. -/
theorem sealHead_spec {arena : RowArena V}
    (hsees : r.visible c.head.version.txnId sealReadTxnId = r.settled c.head.version.txnId)
    (hown : c.head.version.OwnMarker)
    (hdata : c.head.version.isDeleted = false → nodeRow arena c.head = c.head.version.data)
    (h : sealHead r vis arena row c = some x) :
    x = ⟨row, c.head.version.data⟩ ∧ r.settled c.head.version.txnId = true ∧
      vis.isVisible c.head.version.txnId = true ∧ c.head.version.isDeleted = false := by
  simp only [sealHead, hsees] at h
  cases hd : c.head.version.isDeleted with
  | true =>
    -- a delete's marker is its creator's, and passes the same tests
    rw [hown.marker_eq hd, hsees] at h
    grind
  | false =>
    rw [hdata hd] at h
    grind

/-! ## From the capture on -/

/-- What was extracted from a row that nobody has touched is its head, which every live transaction
sees. -/
def Extracted (s : SealDb V) (j : SealJob V) (x : SealedRow V) : Prop :=
  ∃ c, j.extraction.lookup x.rowId = some c ∧ (Touched s.db.store j.extraction x.rowId ∨
    c.head.version.data = x.data ∧ c.head.version.isDeleted = false ∧
      s.registry.Shown c.head.version.txnId)

/-- A seal without a cutoff whose visibility was captured in `s₀`. -/
structure SealJob.Captured (s₀ s : SealDb V) (j : SealJob V) : Prop where
  later : Later s₀.registry s.registry
  known : s₀.KnowsTree j.extraction
  heads : j.commitSeqCutoff = none
  visibility : j.visibility = some s₀.registry.captureSealVisibility
  entries : ∀ p ∈ j.entries, j.extraction.lookup p.1 = some p.2
  rows : ∀ x ∈ j.pending ++ j.written, Extracted s j x

theorem SealDb.Ok.capture (h : s.Ok) (hj : s.job = some j) (hfresh : j.visibility = none)
    (hheads : j.commitSeqCutoff = none) :
    (j.capture s.registry s.db.store.closed).Captured s s := by
  obtain ⟨hcloned, hempty⟩ := h.job j hj
  obtain ⟨hpending, hwritten⟩ := hempty hfresh
  refine ⟨.refl _, hcloned.known, hheads, rfl, fun p hp => ?_, fun x hx => ?_⟩
  · simp only [SealJob.capture, h.storeOk.isOpen, Bool.false_eq_true, if_false] at hp
    exact mem_entriesInOrder.mp hp
  · simp [SealJob.capture, hpending, hwritten] at hx

/-- The viewer of the extraction is no transaction. -/
theorem SealDb.Ok.sees_settled (h : s.Ok) {t : Int} (ht : s.Known t) :
    s.registry.visible t sealReadTxnId = s.registry.settled t := by
  have hr := h.worldOk.registry
  refine hr.visible_outsider (fun hl => absurd (hr.tracked _ hl.mem).1 (by decide)) ?_
  rcases ht.1 with hrec | ⟨hpos, -⟩
  · rw [hrec]
    decide
  · rintro rfl
    exact absurd hpos (by decide)

namespace SealJob.Captured

variable (h : j.Captured s₀ s)

include h

theorem frame (hf : KeepsClone s s' j.extraction) : j.Captured s₀ s' :=
  ⟨h.later.trans hf.later, h.known, h.heads, h.visibility, h.entries, fun x hx =>
    (h.rows x hx).imp fun _ => And.imp_right (.imp (hf.touched x.rowId)
      (.imp_right (.imp_right (hf.later.shown _))))⟩

theorem withJob (job : Option (SealJob V)) : j.Captured s₀ { s with job := job } :=
  ⟨h.later, h.known, h.heads, h.visibility, h.entries, h.rows⟩

/-- What is settled now was not dead at the capture, so what passes the captured visibility was
shown then. -/
theorem extracted (hs₀ : s₀.Ok) (hs : s.Ok) (hj : Cloned s j.extraction)
    (hc : j.extraction.lookup row = some c)
    (hx : sealRow j.commitSeqCutoff s.registry s₀.registry.captureSealVisibility
      s.db.store.arena (row, c) = some x) : Extracted s j x := by
  rw [h.heads] at hx
  have hrow : x.rowId = row := by
    simp only [sealRow, sealHead] at hx
    split at hx <;> cases hx
    rfl
  subst hrow
  refine ⟨c, hc, (hj.since x.rowId).symm.imp_right fun hsame => ?_⟩
  have hchain : s.db.store.chain? x.rowId = some c := hsame.trans hc
  have hmem : c.head.version ∈ s.db.store.history x.rowId := by simp [history_of_chain hchain]
  have htree : c.head.version ∈ treeHistory j.extraction x.rowId := history_of_since hsame ▸ hmem
  obtain ⟨hdata, hset, hcold, hd⟩ := sealHead_spec (hs.sees_settled (hs.known x.rowId _ hmem))
    (hs.storeOk.own_history hmem)
    (nodeRow_head hs.storeOk.arena (fun f hf => by cases hchain.symm.trans hf; rfl) hchain) hx
  have hshown := (hs₀.worldOk.registry.shown_of_capture (h.known x.rowId _ htree).2.1
    hcold).resolve_right fun hdead => (dead_iff.mp (h.later.dead _ hdead)).2.1 hset
  exact ⟨(congrArg SealedRow.data hdata).symm, hd, h.later.shown _ hshown⟩

theorem emit (accepts : Bool) : (j.emit accepts).Captured s₀ s := by
  unfold SealJob.emit
  split
  · exact ⟨h.later, h.known, h.heads, h.visibility, h.entries,
      fun x hx => h.rows x (by simpa [or_comm] using hx)⟩
  · exact ⟨h.later, h.known, h.heads, h.visibility, h.entries,
      fun x hx => h.rows x (mem_append_right _ hx)⟩

theorem finish (accepts : Bool) : (j.finish accepts).Captured s₀ s := by
  unfold SealJob.finish
  split
  · exact h.emit accepts
  · exact h

theorem extract (hs₀ : s₀.Ok) (hs : s.Ok) (hj : Cloned s j.extraction) (accepts : Bool) :
    (j.extract s.registry s.db.store.arena accepts).Captured s₀ s := by
  unfold SealJob.extract
  split
  · rename_i vis row rest hvis hents
    obtain rfl : vis = s₀.registry.captureSealVisibility :=
      Option.some.inj (hvis.symm.trans h.visibility)
    split
    · have hrest : ∀ p ∈ rest, j.extraction.lookup p.1 = some p.2 := fun p hp =>
        h.entries p (by simp [hents, hp])
      split
      · rename_i x hx
        have hx := h.extracted hs₀ hs hj (h.entries row (by simp [hents])) hx
        have hpush : SealJob.Captured s₀ s { j with
            entries := rest, total := j.total + 1, pending := j.pending ++ [x] } := by
          refine ⟨h.later, h.known, h.heads, h.visibility, hrest, fun y hy => ?_⟩
          simp only [mem_append, mem_singleton] at hy
          rcases hy with (hy | rfl) | hy
          · exact h.rows y (mem_append_left _ hy)
          · exact hx
          · exact h.rows y (mem_append_right _ hy)
        unfold SealJob.append
        simp only
        split
        · exact hpush.emit accepts
        · exact hpush
      · exact ⟨h.later, h.known, h.heads, h.visibility, hrest, h.rows⟩
    · exact h
  · exact h

end SealJob.Captured

/-! ## Runs -/

/-- The operations of the seal itself leave the database alone. -/
def SealOp.ofSeal : SealOp V → Bool
  | .clone _ _ _ | .capture | .extract _ | .finish _ => true
  | _ => false

/-- The operations that begin a seal anew. -/
def SealOp.restarts : SealOp V → Bool
  | .clone _ _ _ | .capture => true
  | _ => false

theorem SealDb.Ok.withJob (h : s.Ok) {f : SealJob V → SealJob V}
    (hf : ∀ j, s.job = some j → (f j).extraction = j.extraction ∧ (j.Fresh → (f j).Fresh)) :
    SealDb.Ok { s with job := s.job.map f } := by
  refine ⟨h.worldOk, h.storeOk, h.known, fun j hj => ?_⟩
  obtain ⟨i, hi, rfl⟩ := Option.map_eq_some_iff.mp hj
  obtain ⟨hsame, hfresh⟩ := hf i hi
  obtain ⟨⟨hknown, hsince⟩, hi⟩ := h.job i hi
  exact ⟨hsame ▸ ⟨hknown, hsince⟩, hfresh hi⟩

/-- A run of a database with a seal. -/
structure SealRun (V : Type) where
  epoch : Nat
  recovery : List RecoveryCall
  contents : VersionStore V
  ops : List (SealOp V)

namespace SealRun

variable (run : SealRun V)

def start : SealDb V := ⟨⟨World.start run.epoch run.recovery, run.contents⟩, [], none⟩

/-- The system at moment `m`. -/
def stateAt (m : Nat) : SealDb V := Run.after SealDb.step run.start run.ops m

/-- What operation number `k` returned. -/
def outcomeAt (k : Nat) : Option SealOutcome := Run.outcome SealDb.step run.start run.ops k

/-- The table was filled by its own operations and by transactions that are over, deletes go on
heads that are not deletes, and no transaction marker is collected. -/
structure Regular : Prop where
  contents : Reachable run.contents
  creators : ∀ row, ∀ v ∈ run.contents.history row, v.txnId = recoveryTransactionId ∨
    (0 < v.txnId ∧ v.txnId < I64.maxValue ∧ v.txnId ≤ (run.stateAt 0).registry.nextTxnId)
  commits : ∀ k t batch, run.ops[k]? = some (.commit t batch) →
    (run.stateAt k).db.store.BatchPublishable batch
  uncollected : ∀ (k : Nat) (op : RegistryOp), run.ops[k]? = some (.registry op) →
    op.isCollection = false

/-- Operation `n` captures the visibility for the clone `j`, and up to moment `m` no other seal
begins. -/
structure Seals (n m : Nat) (j : SealJob V) : Prop where
  lt : n < m
  capture : run.ops[n]? = some .capture
  job : (run.stateAt n).job = some j
  first : j.visibility = none
  quiet : ∀ k op, n < k → k < m → run.ops[k]? = some op → op.restarts = false

variable {run} {op : SealOp V} {n m : Nat}

theorem Regular.ok_start (h : run.Regular) : run.start.Ok := by
  have hstart := Startup.recovered run.epoch run.recovery
  refine ⟨World.Ok.start run.epoch run.recovery, h.contents.ok, fun row v hv => ?_,
    fun j hj => by cases hj⟩
  have hnot : ¬ (TransactionRegistry.recovered run.epoch run.recovery).Live v.txnId := by
    rintro ⟨st, hst, hl⟩
    exact absurd hl (by simp [hstart.dead _ st hst])
  rcases h.creators row v hv with hrec | ⟨hpos, hlt, hle⟩
  · refine ⟨.inl hrec, ?_, .inr hnot⟩
    rw [hrec]
    exact le_trans (by decide) hstart.nextTxnId_nonneg
  · exact ⟨.inr ⟨hpos, hlt⟩, hle, .inr hnot⟩

/-- Every operation that is not the seal's is a step of the database beside it. -/
theorem Regular.steps (h : run.Regular) {k : Nat} (hk : run.ops[k]? = some op)
    (hop : op.ofSeal = false) (hs : (run.stateAt k).Ok) :
    Steps (run.stateAt k) ((run.stateAt k).step op).1 := by
  cases op with
  | registry op => exact hs.step_registry (h.uncollected k op hk)
  | claim row t => exact hs.withClaims (tryClaimRow_claims _ row t)
  | release row t => exact hs.withClaims (releaseRowClaim_claims _ row t)
  | commit t batch => exact hs.step_commit (h.commits k t batch hk)
  | remove start count => exact hs.step_remove start count
  | clone | capture | extract | finish => cases hop

theorem Regular.ok_at (h : run.Regular) (m : Nat) : (run.stateAt m).Ok := by
  refine Run.after_while (Q := fun _ => True) (Nat.zero_le m) h.ok_start (fun _ _ _ => trivial)
    fun k op _ hk _ hs => ?_
  cases hop : op.ofSeal with
  | false => exact (h.steps hk hop hs).ok hs
  | true =>
    cases op with
    | clone cutoff minRows chunkRows =>
      refine ⟨hs.worldOk, hs.storeOk, hs.known, fun j hj => ?_⟩
      cases hj
      exact ⟨⟨hs.known, fun _ => .inl rfl⟩, fun _ => ⟨rfl, rfl⟩⟩
    | capture => exact hs.withJob fun j _ => ⟨rfl, fun _ hnone => by cases hnone⟩
    | extract accepts =>
      refine hs.withJob fun j _ => ?_
      grind [SealJob.extract, SealJob.append, SealJob.emit, SealJob.Fresh]
    | finish accepts =>
      refine hs.withJob fun j _ => ?_
      grind [SealJob.finish, SealJob.emit, SealJob.Fresh]
    | registry | claim | release | commit | remove => cases hop

/-- **The seal after its capture.** -/
theorem Regular.captured (h : run.Regular) (hseal : run.Seals n m j)
    (hheads : j.commitSeqCutoff = none) :
    ∃ j, (run.stateAt m).job = some j ∧ j.Captured (run.stateAt n) (run.stateAt m) := by
  have hok := h.ok_at n
  refine Run.after_while (P := fun s : SealDb V => ∃ j, s.job = some j ∧
    j.Captured (run.stateAt n) s) (Q := fun k => k < m) hseal.lt ?_ (fun _ _ hk => hk)
    fun k op hk hop hkm ⟨j, hj, hcap⟩ => ?_
  · rw [Run.after_succ hseal.capture]
    exact ⟨_, congrArg (Option.map _) hseal.job,
      (hok.capture hseal.job hseal.first hheads).withJob _⟩
  · have hs : (run.stateAt k).Ok := h.ok_at k
    cases hkind : op.ofSeal with
    | false =>
      have hsteps := h.steps hop hkind hs
      exact ⟨j, hsteps.job_eq.trans hj, hcap.frame (hsteps.follows _ (hs.job j hj).1.known)⟩
    | true =>
      have hnot := hseal.quiet k op hk hkm hop
      cases op with
      | extract accepts =>
        exact ⟨_, congrArg (Option.map _) hj,
          (hcap.extract hok hs (hs.job j hj).1 accepts).withJob _⟩
      | finish accepts =>
        exact ⟨_, congrArg (Option.map _) hj, (hcap.finish accepts).withJob _⟩
      | clone | capture => cases hnot
      | registry | claim | release | commit | remove => cases hkind

/-- What a removal takes out was written, and is as it was in the clone. -/
theorem removed_untouched {start count total : Nat} {removed skipped : List Int}
    (hok : (run.stateAt m).Ok) (hop : run.ops[m]? = some (.remove start count))
    (hj : (run.stateAt m).job = some j)
    (hout : run.outcomeAt m = some (.removed (.ok (total, removed, skipped))))
    (hrow : row ∈ removed) :
    (∃ x ∈ j.written, x.rowId = row) ∧ (row ∈ j.extraction →
      ¬ Touched (run.stateAt m).db.store j.extraction row) := by
  obtain ⟨acc, heq, -, hheads⟩ := removeSealedRows_spec hok.storeOk
    (SealDb.removalBatch j start count) j.extraction
  have hstep : run.outcomeAt m = some ((run.stateAt m).step (.remove start count)).2 :=
    Run.outcome_of_get hop
  rw [hout] at hstep
  simp only [SealDb.step, hj, heq, Option.some.injEq, SealOutcome.removed.injEq,
    Except.ok.injEq, Prod.mk.injEq] at hstep
  obtain ⟨hin, c, hc, hhead⟩ := hheads row (hstep.2.1 ▸ hrow)
  refine ⟨mem_map.mp (mem_of_mem_drop (mem_of_mem_take hin)), fun hmem ht => ?_⟩
  obtain ⟨c', hc'⟩ := Table.mem_iff_lookup.mp hmem
  rw [hc'] at hhead
  exact ht _ (congrArg (Option.map _) hc) c'.head.version (by simp [treeHistory, hc',
    VersionChain.versions, VersionChain.nodes]) hhead

/-- **A seal without a cutoff hands over what is read.** Let operation `n` capture the visibility
for its clone, and let operation `m` remove rows for this seal, whatever has happened since. Then
each row that is removed was written to cold storage, with exactly the data that every live viewer
reads just before the removal. -/
theorem seal_hands_over (h : run.Regular) {start count total : Nat} {removed skipped : List Int}
    {i : SealJob V} (hseal : run.Seals n m j) (hheads : j.commitSeqCutoff = none)
    (hop : run.ops[m]? = some (.remove start count)) (hi : (run.stateAt m).job = some i)
    (hout : run.outcomeAt m = some (.removed (.ok (total, removed, skipped)))) :
    ∀ row ∈ removed, (∃ x ∈ i.written, x.rowId = row) ∧
      ∀ x ∈ i.written, x.rowId = row → ∀ u, (run.stateAt m).registry.Live u →
        ((run.stateAt m).db.getVisibleVersion u row).map (·.data) = some x.data := by
  intro row hrow
  have hs := h.ok_at m
  obtain ⟨_, hi', hcap⟩ := h.captured hseal hheads
  cases hi.symm.trans hi'
  obtain ⟨hwritten, huntouched⟩ := removed_untouched hs hop hi hout hrow
  refine ⟨hwritten, ?_⟩
  rintro x hx rfl u hu
  obtain ⟨c, hc, hextracted⟩ := hcap.rows x (mem_append_right _ hx)
  have hnot := huntouched (Table.mem_of_lookup hc)
  obtain ⟨hdata, hd, hshown⟩ := hextracted.resolve_left hnot
  -- the row is as it was in the clone, and everyone sees its head
  have hchain := (((hs.job i hi).1.since x.rowId).resolve_right hnot).trans hc
  have hsees : (run.stateAt m).db.sees u c.head.version.txnId = true := hshown.2 u hu
  rw [Db.getVisibleVersion, hs.storeOk.getVisibleVersion_data, history_of_chain hchain]
  simp [readVersions, hsees, RowVersion.hiddenFrom, hd, hdata]

/-! ## Two seals -/

/-- Transaction 1 inserts rows 1 and 2; the snapshot 2 and transaction 3 begin. A seal without a
cutoff extracts both rows, and transaction 3 updates row 2 before they are removed. -/
def sealHeads : SealRun Nat where
  epoch := 1
  recovery := []
  contents := VersionStore.new
  ops := [.registry (.begin .readCommitted), .registry (.startCommit 1),
    .commit 1 [(1, .live 1 [10] 100), (2, .live 1 [20] 100)], .registry (.completeCommit 1 110),
    .registry (.begin .snapshotIsolation), .registry (.begin .readCommitted), .clone none 1 1,
    .capture, .extract true, .extract true, .registry (.startCommit 3),
    .commit 3 [(2, .live 3 [21] 200)], .remove 0 2]

theorem sealHeads_regular : sealHeads.Regular where
  contents := .new
  creators row v hv := absurd hv (by simp [sealHeads, history, chain?, VersionStore.new])
  commits k t batch hk := by
    rcases k with _ | _ | _ | _ | _ | _ | _ | _ | _ | _ | _ | _ | _ | k <;> cases hk
    · exact ⟨fun hd => absurd hd (by decide), fun hd => absurd hd (by decide), trivial⟩
    · exact ⟨fun hd => absurd hd (by decide), trivial⟩
  uncollected k op hk := by
    rcases k with _ | _ | _ | _ | _ | _ | _ | _ | _ | _ | _ | _ | _ | k <;> cases hk
    all_goals rfl

/-- The seal removes row 1, which everyone reads as it was extracted, and skips row 2. -/
theorem seal_hands_over_sealHeads :
    sealHeads.outcomeAt 12 = some (.removed (.ok (1, [1], [2]))) ∧
      ∃ i, (sealHeads.stateAt 12).job = some i ∧ ∀ x ∈ i.written, x.rowId = 1 →
        ∀ u, (sealHeads.stateAt 12).registry.Live u →
          ((sealHeads.stateAt 12).db.getVisibleVersion u 1).map (·.data) = some x.data := by
  have hout : sealHeads.outcomeAt 12 = some (.removed (.ok (1, [1], [2]))) := rfl
  refine ⟨hout, _, rfl, (seal_hands_over (n := 7) sealHeads_regular ⟨by decide, rfl, rfl, rfl, ?_⟩
    rfl rfl rfl hout 1 (by simp)).2⟩
  intro k op hk hkm hop
  obtain rfl | rfl | rfl | rfl : k = 8 ∨ k = 9 ∨ k = 10 ∨ k = 11 := by omega
  all_goals cases hop; rfl

/-- Transaction 1 inserts row 1, and the snapshot 2 begins. Transaction 3 claims the row and
publishes an update; the seal extracts with the registry's cutoff; transaction 3 completes and
releases its claim, transaction 4 begins, and the seal removes the row. -/
def sealBelowHead : SealRun Nat where
  epoch := 1
  recovery := []
  contents := VersionStore.new
  ops := [.registry (.begin .readCommitted), .registry (.startCommit 1),
    .commit 1 [(1, .live 1 [10] 100)], .registry (.completeCommit 1 110),
    .registry (.begin .snapshotIsolation), .registry (.begin .readCommitted), .claim 1 3,
    .registry (.startCommit 3), .commit 3 [(1, .live 3 [20] 200)],
    .clone (some 3) 1 1, .capture, .extract true, .registry (.completeCommit 3 210),
    .release 1 3, .registry (.begin .readCommitted), .remove 0 1]

/-- **A seal can throw away a committed update.** The row goes to cold storage as `[10]` and out of
the hot store, where transaction 4 has just read `[20]`. -/
theorem seal_loses_update :
    (sealBelowHead.stateAt 9).registry.getMinSnapshotBeginSeq = some 3 ∧
      sealBelowHead.outcomeAt 15 = some (.removed (.ok (1, [1], []))) ∧
      ((sealBelowHead.stateAt 15).job.map fun j => j.written.map fun x => (x.rowId, x.data)) =
        some [(1, [10])] ∧
      (sealBelowHead.stateAt 15).registry.isLive 4 = true ∧
      ((sealBelowHead.stateAt 15).db.getVisibleVersion 4 1).map (·.data) = some [20] := by
  refine ⟨by decide, rfl, by decide, by decide, by decide⟩

end SealRun

end RadixDb
