import RadixDb.Registry.World
import RadixDb.Store.Reads

/-!
# Table scans

A scan (read.rs) takes two locks one after the other: it clones the version tree, lets go, and
then walks the clone under the arena's read lock. The clone is immutable, but the data of a
chain's head is fetched through its slot, and a publication between the two steps overwrites the
slot in place. **So a scan can return data of a version that is not in the chain it judged.**

`scan_exact_iff` says exactly when it does not: no live version published in between, on a row
whose cloned head the scan returns, carries other data. `scan_returns_uncommitted` is a run of
registry and store in which it does.

The scans take two stores: `start`, whose tree is cloned, and `later`, whose arena is walked.
-/

namespace RadixDb

open List Option

variable {V : Type}

namespace VersionStore

/-! ## The scans -/

/-- The version of a chain that a scan returns. -/
def scanNode (vis : Int → Bool) (c : VersionChain V) : Option (ChainNode V) :=
  if vis c.head.version.txnId then (if c.head.version.hiddenFrom vis then none else some c.head)
  else walkOlder vis c.prev

/-- One turn of a scan's loop. -/
def scanRow (a : RowArena V) (vis : Int → Bool) (p : Int × VersionChain V) :
    Option (Int × List V) :=
  (scanNode vis p.2).map fun n => (p.1, nodeRow a n)

/-- The tree's entries in row order. -/
def entriesInOrder (t : Table Int (VersionChain V)) : List (Int × VersionChain V) :=
  t.sortedKeys.filterMap fun row => (t.lookup row).map fun c => (row, c)

variable (start later : VersionStore V)

def getAllVisibleRows (vis : Int → Bool) : List (Int × List V) :=
  if start.closed then []
  else (entriesInOrder start.versions).filterMap (scanRow later.arena vis)

/-- The same scan into a cached buffer. -/
def getAllVisibleRowsCached (vis : Int → Bool) : List (Int × List V) :=
  if start.closed then []
  else (entriesInOrder start.versions).filterMap (scanRow later.arena vis)

/-- The loop of `get_visible_rows_batch`: it stops at the first visible row too many. -/
def batchLoop (a : RowArena V) (vis : Int → Bool) (batchSize : Nat) :
    List (Int × VersionChain V) → List (Int × List V) → List (Int × List V) × Bool
  | [], acc => (acc, false)
  | p :: rest, acc =>
    match scanRow a vis p with
    | none => batchLoop a vis batchSize rest acc
    | some row =>
      if batchSize ≤ acc.length then (acc, true)
      else batchLoop a vis batchSize rest (acc ++ [row])

/-- At most `batchSize` rows after `afterRowId`, and whether there are more. -/
def getVisibleRowsBatch (vis : Int → Bool) (afterRowId : Int)
    (batchSize : Nat) : List (Int × List V) × Bool :=
  if start.closed ∨ batchSize = 0 then ([], false)
  else batchLoop later.arena vis batchSize
    ((entriesInOrder start.versions).filter fun p => decide (afterRowId < p.1)) []

/-! ## What the loops return -/

variable {c : VersionChain V} {row : Int} {pubs : Batch V}

theorem mem_entriesInOrder {t : Table Int (VersionChain V)} :
    (row, c) ∈ entriesInOrder t ↔ t.lookup row = some c := by
  simp only [entriesInOrder, mem_filterMap, map_eq_some_iff, Prod.mk.injEq]
  constructor
  · rintro ⟨x, -, c', hc, rfl, rfl⟩
    exact hc
  · intro h
    exact ⟨row, Table.mem_sortedKeys.mpr (Table.mem_of_lookup h), c, h, rfl, rfl⟩

/-- A batch returns rows of the loop's input, as the full scan would. -/
theorem mem_batchLoop {a : RowArena V} {vis : Int → Bool} {n : Nat} {x : Int × List V} :
    ∀ {ps : List (Int × VersionChain V)} {acc : List (Int × List V)},
      x ∈ (batchLoop a vis n ps acc).1 → x ∈ acc ∨ ∃ p ∈ ps, scanRow a vis p = some x := by
  intro ps
  induction ps with
  | nil => exact fun h => .inl h
  | cons p rest ih =>
    intro acc h
    simp only [batchLoop] at h
    cases hp : scanRow a vis p with
    | none =>
      rw [hp] at h
      rcases ih h with hacc | ⟨q, hq, hx⟩
      · exact .inl hacc
      · exact .inr ⟨q, mem_cons_of_mem _ hq, hx⟩
    | some row =>
      rw [hp] at h
      simp only at h
      split at h
      · exact .inl h
      · rcases ih h with hacc | ⟨q, hq, hx⟩
        · rcases mem_append.mp hacc with hacc | hrow
          · exact .inl hacc
          · rw [mem_singleton] at hrow
            exact .inr ⟨p, mem_cons_self, hrow ▸ hp⟩
        · exact .inr ⟨q, mem_cons_of_mem _ hq, hx⟩

theorem scanNode_version (vis : Int → Bool) (c : VersionChain V) :
    (scanNode vis c).map (·.version) = c.read vis := by
  unfold scanNode
  by_cases h : vis c.head.version.txnId = true
  · rw [VersionChain.read_of_head h]
    simp only [h, if_true]
    split <;> rfl
  · have h : vis c.head.version.txnId = false := by simpa using h
    rw [← walkOlder_read h]
    simp [h]

/-! ## Slots under publication -/

/-- The data of a chain's newest live version: what its slot holds. -/
def newestLive (c : VersionChain V) : Option (List V) :=
  (c.nodes.find? fun n => !n.version.isDeleted).map fun n => n.version.data

theorem Ok.getData?_slot {s : VersionStore V} (h : s.Ok) {k : Nat} (hc : s.chain? row = some c)
    (hk : c.head.arenaIdx = some k) : s.arena.getData? k = newestLive c := by
  have hslot : s.slotOf row = some k := by simp [slotOf, hc, hk]
  obtain ⟨-, f, slot, hf, hs, hh⟩ := h.arena.slot row k hslot
  cases hc.symm.trans hf
  simp only [RowArena.getData?, hs, map_some, newestLive, VersionChain.nodes]
  cases hh with
  | live v k prev hv => simp [hv]
  | deleted v k n prev hv hn => simp [hv, hn]

/-- The data of the last live version published for a row. -/
def lastLive (row : Int) : Batch V → Option (List V)
  | [] => none
  | p :: rest =>
    (lastLive row rest).or
      (if p.1 = row ∧ p.2.1.isDeleted = false then some p.2.1.data else none)

/-- Publications keep a row in its slot, which then holds the last live version published. -/
theorem slot_after_publications {k : Nat} :
    ∀ {s : VersionStore V} {c : VersionChain V}, s.Ok → s.BatchPublishable pubs →
      s.chain? row = some c → c.head.arenaIdx = some k →
      ∃ c', (s.addAll pubs).chain? row = some c' ∧
        c'.head.arenaIdx = some k ∧ newestLive c' = (lastLive row pubs).or (newestLive c) := by
  induction pubs with
  | nil => exact fun _ _ hc hk => ⟨_, hc, hk, by simp [lastLive]⟩
  | cons p rest ih =>
    intro s c h hp hc hk
    have hslot : s.slotOf row = some k := by simp [slotOf, hc, hk]
    -- one publication: the row's own, or another row's
    obtain ⟨c₁, hc₁, hk₁, hnew⟩ : ∃ c₁, (s.addVersionInner p.1 p.2.1).chain? row = some c₁ ∧
        c₁.head.arenaIdx = some k ∧ newestLive c₁ =
          (if p.1 = row ∧ p.2.1.isDeleted = false then some p.2.1.data else none).or
            (newestLive c) := by
      rw [chain?_addVersionInner h.unlimited]
      by_cases hrow : p.1 = row
      · subst hrow
        refine ⟨_, if_pos rfl, ?_, ?_⟩
        · simp only [publishedSlot, hslot]
          split <;> rfl
        · cases hd : p.2.1.isDeleted with
          | false =>
            simp [newestLive, VersionChain.nodes, publishedVersion_of_live s p.1 hd, hd]
          | true =>
            have hdel := publishedVersion_isDeleted s p.1 p.2.1
            rw [hd] at hdel
            simp only [newestLive, VersionChain.nodes, publishedBelow, hc]
            simp only [hdel, find?_cons, Bool.not_true]
            cases c.head.version.isDeleted <;> rfl
      · exact ⟨c, by rw [if_neg (Ne.symm hrow), hc], hk, by simp [hrow]⟩
    obtain ⟨c', hc', hk', hlast⟩ := ih (h.addVersionInner p.2.2 hp.1) hp.2 hc₁ hk₁
    refine ⟨c', hc', hk', ?_⟩
    rw [hlast, hnew, lastLive, Option.or_assoc]

/-! ## When a scan is exact -/

/-- The versions an operation publishes, in order. -/
def Op.published : Op V → Batch V
  | .addVersion row v => [(row, v)]
  | .addVersionSingle row v => [(row, v)]
  | .addVersionsBatch batch => batch
  | _ => []

/-- A commit's publication: one version, or a batch, in one atomic step. -/
def Op.IsPublication : Op V → Prop
  | .addVersion _ _ => True
  | .addVersionSingle _ _ => True
  | .addVersionsBatch _ => True
  | _ => False

/-- Every operation of the list is allowed where it runs. -/
def AllowedAll : VersionStore V → List (Op V) → Prop
  | _, [] => True
  | s, op :: rest => s.Allowed op ∧ AllowedAll (s.apply op) rest

theorem Ok.apply_publication {s : VersionStore V} (h : s.Ok) {op : Op V} (hp : op.IsPublication)
    (hop : s.Allowed op) :
    s.apply op = s.addAll op.published ∧ s.BatchPublishable op.published := by
  have hopen := h.isOpen
  cases op with
  | addVersion row v | addVersionSingle row v =>
    exact ⟨by simp [VersionStore.apply, addVersion, addVersionSingle, addAll, guarded, hopen,
      Op.published], hop, trivial⟩
  | addVersionsBatch batch =>
    exact ⟨by simp [VersionStore.apply, addVersionsBatch, guarded, hopen, Op.published], hop⟩
  | _ => exact absurd hp (by simp [Op.IsPublication])

theorem BatchPublishable.append {p q : Batch V} :
    ∀ {s : VersionStore V}, s.BatchPublishable p → (s.addAll p).BatchPublishable q →
      s.BatchPublishable (p ++ q) := by
  induction p with
  | nil => exact fun _ hq => hq
  | cons x p ih => exact fun hp hq => ⟨hp.1, ih hp.2 hq⟩

theorem Ok.apply_publications {ops : List (Op V)} :
    ∀ {s : VersionStore V}, s.Ok → (∀ op ∈ ops, op.IsPublication) → s.AllowedAll ops →
      ops.foldl VersionStore.apply s = s.addAll (ops.flatMap Op.published) ∧
        s.BatchPublishable (ops.flatMap Op.published) := by
  induction ops with
  | nil => exact fun _ _ _ => ⟨rfl, trivial⟩
  | cons op ops ih =>
    intro s h hpub hall
    obtain ⟨heq, hbatch⟩ := h.apply_publication (hpub op mem_cons_self) hall.1
    obtain ⟨heq', hbatch'⟩ :=
      ih (h.apply hall.1) (fun o ho => hpub o (mem_cons_of_mem _ ho)) hall.2
    rw [flatMap_cons, foldl_cons, heq', heq]
    exact ⟨(foldl_append ..).symm, hbatch.append (heq ▸ hbatch')⟩

/-- What a scan owes for one row: if it returns the row, then with the data its chain gives. -/
def RowExact (vis : Int → Bool) (row : Int) (c : VersionChain V) : Prop :=
  ∀ x, scanRow later.arena vis (row, c) = some x → start.reads vis x.1 = some x.2

/-- No publication in between put other data on the row than its cloned head has. -/
def Undisturbed (pubs : Batch V) (vis : Int → Bool) (row : Int)
    (c : VersionChain V) : Prop :=
  vis c.head.version.txnId = true → c.head.version.isDeleted = false →
    ∀ d, lastLive row pubs = some d → d = c.head.version.data

theorem rowExact_iff {start : VersionStore V} (h : start.Ok) (hp : start.BatchPublishable pubs)
    (vis : Int → Bool) (hc : start.chain? row = some c) :
    RowExact start (start.addAll pubs) vis row c ↔ Undisturbed pubs vis row c := by
  have hreads : start.reads vis row = (c.read vis).map (·.data) := by simp [reads, hc]
  simp only [RowExact, scanRow, map_eq_some_iff, forall_exists_index, and_imp]
  cases hvis : vis c.head.version.txnId with
  | false =>
    -- below the head nothing is read through a slot
    refine iff_of_true ?_ fun hv => absurd (hvis.symm.trans hv) (by simp)
    rintro x n hn rfl
    have hnode : (walkOlder vis c.prev) = some n := by simpa [scanNode, hvis] using hn
    have hdata : (walkOlder vis c.prev).map (nodeRow start.arena) =
        (walkOlder vis c.prev).map fun n => n.version.data := h.nodeRow_older hc
    have hsame : nodeRow (start.addAll pubs).arena n = nodeRow start.arena n := by
      have hidx := (h.chains row c hc).older n (mem_of_walkOlder hnode)
      simp [nodeRow, hidx]
    rw [hnode, map_some, map_some, some.injEq] at hdata
    simp [hreads, hsame, hdata, ← scanNode_version, hn]
  | true =>
    cases hdel : c.head.version.isDeleted with
    | true =>
      -- a visible delete hides the row: the scan skips it
      have hmark := ((h.chains row c hc).own c.head (by simp [VersionChain.nodes])).marker_eq hdel
      refine iff_of_true ?_ fun _ hl => absurd (hdel.symm.trans hl) (by simp)
      rintro x n hn
      simp [scanNode, hvis, RowVersion.hiddenFrom, hdel, hmark] at hn
    | false =>
      -- a live head is read through its slot
      obtain ⟨k, hk⟩ := (h.chains row c hc).slotted hdel
      obtain ⟨c', hc', hk', hlast⟩ := slot_after_publications h hp hc hk
      have hdata := (h.addVersions hp).getData?_slot hc' hk'
      have hhead : newestLive c = some c.head.version.data := by
        simp [newestLive, VersionChain.nodes, hdel]
      rw [hlast, hhead] at hdata
      have hhid : c.head.version.hiddenFrom vis = false := by simp [RowVersion.hiddenFrom, hdel]
      have hnode : scanNode vis c = some c.head := by simp [scanNode, hvis, hhid]
      have hread : c.read vis = some c.head.version := by
        rw [VersionChain.read_of_head hvis]
        simp [hhid]
      simp only [Undisturbed, hnode, some.injEq, forall_eq', hreads, hread,
        map_some, nodeRow, hk, hdata, hvis, hdel, forall_const]
      cases hl : lastLive row pubs with
      | none => simp
      | some d => simp [eq_comm]

/-- **When scans are exact.** Let a scan clone the tree of a reachable store and walk it after any
list of publications. Every row returned by every one of the scans carries the data of the newest
version of its cloned chain that the reader sees, if and only if no live version published in
between, on a row whose cloned head is live and visible, left other data in the row's slot. -/
theorem scan_exact_iff {start : VersionStore V} (h : Reachable start) {ops : List (Op V)}
    (hpub : ∀ op ∈ ops, op.IsPublication) (hall : start.AllowedAll ops) (vis : Int → Bool) :
    ((∀ p ∈ getAllVisibleRows start (ops.foldl VersionStore.apply start) vis,
        start.reads vis p.1 = some p.2) ∧
      (∀ p ∈ getAllVisibleRowsCached start (ops.foldl VersionStore.apply start) vis,
        start.reads vis p.1 = some p.2) ∧
      ∀ after size,
        ∀ p ∈ (getVisibleRowsBatch start (ops.foldl VersionStore.apply start) vis after size).1,
          start.reads vis p.1 = some p.2) ↔
    ∀ row c, start.chain? row = some c → vis c.head.version.txnId = true →
      c.head.version.isDeleted = false →
      ∀ d, lastLive row (ops.flatMap Op.published) = some d → d = c.head.version.data := by
  have hok := h.ok
  obtain ⟨hlater, hbatch⟩ := hok.apply_publications hpub hall
  rw [hlater]
  generalize ops.flatMap Op.published = pubs at hbatch
  constructor
  · rintro ⟨hscan, -, -⟩ row c hc
    refine (rowExact_iff hok hbatch vis hc).mp fun x hx => hscan x ?_
    simp only [getAllVisibleRows, hok.isOpen, Bool.false_eq_true, if_false, mem_filterMap]
    exact ⟨(row, c), mem_entriesInOrder.mpr hc, hx⟩
  · intro hcond
    have hrow : ∀ q ∈ entriesInOrder start.versions, ∀ x,
        scanRow (start.addAll pubs).arena vis q = some x →
        start.reads vis x.1 = some x.2 := by
      rintro ⟨row, c⟩ hq x hx
      have hc := mem_entriesInOrder.mp hq
      exact (rowExact_iff hok hbatch vis hc).mpr (hcond row c hc) x hx
    refine ⟨fun p hp => ?_, fun p hp => ?_, fun after size p hp => ?_⟩
    · simp only [getAllVisibleRows, hok.isOpen, Bool.false_eq_true, if_false, mem_filterMap] at hp
      obtain ⟨q, hq, hx⟩ := hp
      exact hrow q hq p hx
    · simp only [getAllVisibleRowsCached, hok.isOpen, Bool.false_eq_true, if_false,
        mem_filterMap] at hp
      obtain ⟨q, hq, hx⟩ := hp
      exact hrow q hq p hx
    · unfold getVisibleRowsBatch at hp
      split at hp
      · cases hp
      · rcases mem_batchLoop hp with hnil | ⟨q, hq, hx⟩
        · cases hnil
        · exact hrow q (mem_filter.mp hq).1 p hx

/-! ## A scan that is not -/

/-- Row 1 as transaction 1 inserted it. -/
def insertedRow : VersionStore Nat :=
  VersionStore.new.apply (.addVersionSingle 1 (.live 1 [10] 100))

/-- Transaction 3 publishes an update of row 1. -/
def updateRow : Op Nat := .addVersionSingle 1 (.live 3 [20] 200)

/-- Transaction 3 publishes an update that leaves the row's data as they are. -/
def touchRow : Op Nat := .addVersionSingle 1 (.live 3 [10] 200)

theorem insertedRow_reachable : Reachable insertedRow :=
  .step _ .new fun hd => absurd hd (by decide)

/-- With the same data published in between the scan is exact. -/
theorem scan_exact_touchRow :
    (1, [10]) ∈
        getAllVisibleRows insertedRow ([touchRow].foldl VersionStore.apply insertedRow) (· == 1) ∧
      insertedRow.reads (· == 1) 1 = some [10] := by
  refine (and_iff_left_of_imp
    (((scan_exact_iff insertedRow_reachable ?_ ?_ (· == 1)).mpr ?_).1 (1, [10]))).mpr (by decide)
  · intro op hop
    rw [mem_singleton] at hop
    exact hop ▸ trivial
  · exact ⟨fun hd => absurd hd (by decide), trivial⟩
  · intro row c hc _ _ d hd
    by_cases hrow : row = 1
    · subst hrow
      cases hc
      cases hd
      rfl
    · simp [touchRow, Op.published, lastLive, Ne.symm hrow] at hd

end VersionStore

/-- Transaction 1 commits, the Snapshot-Isolation reader 2 begins, and transaction 3 begins and
starts to commit; it never completes. -/
def committingWriter : RegistryRun where
  epoch := 1
  recovery := []
  ops := [.begin .readCommitted, .startCommit 1, .completeCommit 1 100,
    .begin .snapshotIsolation, .begin .readCommitted, .startCommit 3]

/-- What the reader sees at the moment of its walk. -/
def committingWriter.reader (v : Int) : Bool := (committingWriter.registryAt 6).visible v 2

/-- **A scan can return data of a transaction its reader does not see.** The reader clones the tree
while row 1 is `[10]`, transaction 3 publishes `[20]` before it has completed, and the walk returns
`[20]`. -/
theorem scan_returns_uncommitted :
    committingWriter.reader 3 = false ∧
      VersionStore.insertedRow.reads committingWriter.reader 1 = some [10] ∧
      VersionStore.getAllVisibleRows VersionStore.insertedRow
        (VersionStore.insertedRow.apply VersionStore.updateRow) committingWriter.reader =
          [(1, [20])] := by
  decide

end RadixDb
