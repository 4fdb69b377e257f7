import RadixDb.Store.Invariant

/-!
# Point and batch reads

Five reads of the store answer "is this row there, and with what data" (committed.rs). Each first
guesses that row `n` sits in arena slot `n - 1`, and answers from that slot if the guess is right
and the viewer sees the slot's creator; only otherwise does it walk the row's chain.

`reads_agree` says that all five implement one semantics, `VersionStore.reads`: what the row's
chain means to the viewer (`VersionChain.read`). The guess is harmless because a slot that names
row `n` is row `n`'s (`ArenaOk.used`) and because reading a visible slot is reading the row's
history (`SlotHolds.read`).
-/

namespace RadixDb

open Option

variable {V : Type}

namespace VersionStore

/-! ## The reads -/

/-- The speculative probe: slot `rowId - 1`, if it is the row's and its creator is visible. -/
def probe (s : VersionStore V) (vis : Int → Bool) (rowId : Int) : Option (ArenaSlot V) :=
  if 0 < rowId then
    match s.arena.slots[(rowId - 1).toNat]? with
    | some slot => if slot.rowId = rowId ∧ vis slot.txnId = true then some slot else none
    | none => none
  else none

/-- Whether a slot's delete marker hides the row from the viewer. -/
def slotHidden (vis : Int → Bool) (slot : ArenaSlot V) : Bool :=
  slot.deletedAtTxnId != 0 && vis slot.deletedAtTxnId

/-- The walk below the head: the first visible version, unless its delete marker is visible. -/
def walkOlder (vis : Int → Bool) : List (ChainNode V) → Option (ChainNode V)
  | [] => none
  | e :: rest =>
    if vis e.version.txnId then (if e.version.hiddenFrom vis then none else some e)
    else walkOlder vis rest

/-- A node's row, from its slot if it has one. -/
def nodeRow (a : RowArena V) (n : ChainNode V) : List V :=
  match n.arenaIdx with
  | some idx => (a.getData? idx).getD n.version.data
  | none => n.version.data

def getVisibleVersion (s : VersionStore V) (vis : Int → Bool) (rowId : Int) :
    Option (RowVersion V) :=
  if s.closed then none
  else
    match s.probe vis rowId with
    | some slot =>
      if slotHidden vis slot then none
      -- the arena does not store creation times
      else some ⟨slot.txnId, slot.deletedAtTxnId, slot.data, 0⟩
    | none =>
      match s.versions.lookup rowId with
      | none => none
      | some chain =>
        if vis chain.head.version.txnId then
          if chain.head.version.hiddenFrom vis then none
          else some { chain.head.version with data := nodeRow s.arena chain.head }
        else (walkOlder vis chain.prev).map (·.version)

/-- Whether a row is there, from metadata alone: the body shared by `has_any_visible_version`,
`probe_visible_row_ids_batch` and `count_visible_versions_batch`. -/
def rowVisible (s : VersionStore V) (vis : Int → Bool) (rowId : Int) : Bool :=
  match s.probe vis rowId with
  | some slot => !slotHidden vis slot
  | none =>
    match s.versions.lookup rowId with
    | none => false
    | some chain =>
      if vis chain.head.version.txnId then !chain.head.version.hiddenFrom vis
      else (walkOlder vis chain.prev).isSome

/-- The first of the rows that is there. -/
def hasAnyVisibleVersion (s : VersionStore V) (vis : Int → Bool) (rowIds : List Int) : Option Int :=
  if s.closed then none else rowIds.find? (s.rowVisible vis)

/-- One row of `get_visible_versions_batch`. Unlike `get_visible_version` it takes the data of an
older version from that version's slot, if it has one. -/
def batchRow (s : VersionStore V) (vis : Int → Bool) (rowId : Int) : Option (List V) :=
  match s.probe vis rowId with
  | some slot => if slotHidden vis slot then none else some slot.data
  | none =>
    match s.versions.lookup rowId with
    | none => none
    | some chain =>
      if vis chain.head.version.txnId then
        if chain.head.version.hiddenFrom vis then none else some (nodeRow s.arena chain.head)
      else (walkOlder vis chain.prev).map (nodeRow s.arena)

/-- Neither a slot nor a chain: the batch reads stop early. -/
def isEmpty (s : VersionStore V) : Bool := s.arena.slots.isEmpty && s.versions.keys.isEmpty

def getVisibleVersionsBatch (s : VersionStore V) (vis : Int → Bool) (rowIds : List Int) :
    List (Int × List V) :=
  if s.closed ∨ s.isEmpty = true then []
  else rowIds.filterMap fun row => (s.batchRow vis row).map fun data => (row, data)

/-- One flag per requested row, and how many are set. -/
def probeVisibleRowIdsBatch (s : VersionStore V) (vis : Int → Bool) (rowIds : List Int) :
    List Bool × Nat :=
  if s.closed ∨ s.isEmpty = true then (rowIds.map fun _ => false, 0)
  else (rowIds.map (s.rowVisible vis), rowIds.countP (s.rowVisible vis))

/-- Split a list into pieces of length `n`; `fuel` bounds their number. -/
def chunksOf {α : Type} (n : Nat) : Nat → List α → List (List α)
  | 0, _ => []
  | fuel + 1, xs => if xs.isEmpty then [] else xs.take n :: chunksOf n fuel (xs.drop n)

def parallelThreshold : Nat := 1000

def parallelChunkSize : Nat := 512

/-- Large batches are counted in chunks, each on its own thread. -/
def countVisibleVersionsBatch (s : VersionStore V) (vis : Int → Bool) (rowIds : List Int) : Nat :=
  if s.closed then 0
  else if parallelThreshold ≤ rowIds.length then
    ((chunksOf parallelChunkSize rowIds.length rowIds).map (·.countP (s.rowVisible vis))).sum
  else rowIds.countP (s.rowVisible vis)

/-! ## One semantics -/

/-- **What a read means**: the data of the version the row's chain gives the viewer. -/
def reads (s : VersionStore V) (vis : Int → Bool) (rowId : Int) : Option (List V) :=
  (s.chain? rowId).bind fun c => (c.read vis).map (·.data)

/-- The same with the version's creator, which conflict detection compares. -/
def readsCreator (s : VersionStore V) (vis : Int → Bool) (rowId : Int) : Option (Int × List V) :=
  (s.chain? rowId).bind fun c => (c.read vis).map fun v => (v.txnId, v.data)

theorem readsCreator_data (s : VersionStore V) (vis : Int → Bool) (row : Int) :
    (s.readsCreator vis row).map (·.2) = s.reads vis row := by
  unfold readsCreator reads
  cases s.chain? row with
  | none => rfl
  | some c => simp [Function.comp_def]

theorem walkOlder_eq (vis : Int → Bool) (n : ChainNode V) : ∀ rest : List (ChainNode V),
    (walkOlder vis (n :: rest)).map (·.version) = (⟨n, rest⟩ : VersionChain V).read vis := by
  intro rest
  induction rest generalizing n with
  | nil =>
    simp only [walkOlder, VersionChain.read, VersionChain.firstVisible, VersionChain.nodes]
    by_cases h : vis n.version.txnId = true
    · simp only [h, if_true, List.find?_cons_of_pos]
      split <;> rfl
    · simp [h]
  | cons m rest ih =>
    by_cases h : vis n.version.txnId = true
    · rw [VersionChain.read_of_head h]
      simp only [walkOlder, h, if_true]
      split <;> rfl
    · have h : vis n.version.txnId = false := by simpa using h
      rw [VersionChain.read_of_not_head h rfl, ← ih m]
      simp [walkOlder, h]

theorem mem_of_walkOlder {vis : Int → Bool} {n : ChainNode V} :
    ∀ {nodes : List (ChainNode V)}, walkOlder vis nodes = some n → n ∈ nodes
  | [], h => absurd h (by simp [walkOlder])
  | e :: rest, h => by
    simp only [walkOlder] at h
    split at h
    · split at h
      · cases h
      · cases h
        exact List.mem_cons_self
    · exact List.mem_cons_of_mem _ (mem_of_walkOlder h)

/-- A successful probe reads the row's full history `f`. -/
theorem probe_read {s : VersionStore V} {full : Int → Option (VersionChain V)}
    (h : ArenaOk full s.slotOf s.arena)
    (hown : ∀ row f, full row = some f → ∀ n ∈ f.nodes, n.version.OwnMarker)
    {vis : Int → Bool} {row : Int} {slot : ArenaSlot V} (hp : s.probe vis row = some slot) :
    ∃ f, full row = some f ∧ (f.read vis).map (fun v => (v.txnId, v.data)) =
      if slotHidden vis slot then none else some (slot.txnId, slot.data) := by
  unfold probe at hp
  split at hp
  · rename_i hpos
    split at hp
    case h_2 => cases hp
    rename_i slot' hs
    split at hp
    · rename_i hhit
      cases hp
      obtain ⟨hrow, hvis⟩ := hhit
      -- a slot that names a positive row is that row's
      have huse : s.slotOf row = some (row - 1).toNat := by
        rcases h.used _ _ hs with h0 | hu
        · omega
        · rw [← hu, hrow]
      obtain ⟨-, f, slot'', hf, hs', hh⟩ := h.slot row _ huse
      rw [hs] at hs'
      cases hs'
      refine ⟨f, hf, ?_⟩
      rw [hh.read (hown row f hf) hvis]
      simp [slotHidden, bne_iff_ne]
    · cases hp
  · cases hp

/-! ## Every read implements it -/

section

variable {s : VersionStore V} {vis : Int → Bool} {row : Int} {c : VersionChain V}

theorem Ok.probe_readsCreator (h : s.Ok) {slot : ArenaSlot V} (hp : s.probe vis row = some slot) :
    s.readsCreator vis row =
      if slotHidden vis slot then none else some (slot.txnId, slot.data) := by
  obtain ⟨f, hf, hread⟩ :=
    probe_read h.arena (fun row f hf => (h.chains row f hf).own) hp
  simp only [readsCreator, hf, bind_some]
  exact hread

/-- The head's slot, when the head is live, holds the head's data. -/
theorem nodeRow_head {full : Int → Option (VersionChain V)} (h : ArenaOk full s.slotOf s.arena)
    (hhead : ∀ f, full row = some f → f.head.version = c.head.version) (hc : s.chain? row = some c)
    (hlive : c.head.version.isDeleted = false) : nodeRow s.arena c.head = c.head.version.data := by
  unfold nodeRow
  cases hk : c.head.arenaIdx with
  | none => rfl
  | some k =>
    have hslot : s.slotOf row = some k := by simp [slotOf, hc, hk]
    obtain ⟨-, f, slot, hf, hs, hh⟩ := h.slot row k hslot
    have hver := hhead f hf
    rw [hh.of_live (hver ▸ hlive), hver] at hs
    simp [RowArena.getData?, hs]

theorem walkOlder_read (h : vis c.head.version.txnId = false) :
    (walkOlder vis c.prev).map (·.version) = c.read vis := by
  cases hp : c.prev with
  | nil => simp [walkOlder, VersionChain.read, VersionChain.firstVisible, VersionChain.nodes, h, hp]
  | cons n rest => rw [VersionChain.read_of_not_head h hp, walkOlder_eq]

/-- A point read that answers from the chain. -/
theorem getVisibleVersion_of_chain (hopen : s.closed = false) (hp : s.probe vis row = none)
    (hrow : ∀ c, s.chain? row = some c → c.head.version.OwnMarker ∧
      (c.head.version.isDeleted = false → nodeRow s.arena c.head = c.head.version.data)) :
    (s.getVisibleVersion vis row).map (fun v => (v.txnId, v.data)) = s.readsCreator vis row := by
  simp only [getVisibleVersion, hopen, hp, Bool.false_eq_true, if_false, readsCreator, chain?]
  cases hc : s.versions.lookup row with
  | none => rfl
  | some c =>
    simp only [bind_some]
    by_cases hvis : vis c.head.version.txnId = true
    · rw [VersionChain.read_of_head hvis]
      simp only [hvis, if_true]
      by_cases hhid : c.head.version.hiddenFrom vis = true
      · simp [hhid]
      · have hhid : c.head.version.hiddenFrom vis = false := by simpa using hhid
        obtain ⟨hown, hdata⟩ := hrow c hc
        simp [hhid, hdata (hown.live_of_shown hvis hhid)]
    · have hvis : vis c.head.version.txnId = false := by simpa using hvis
      rw [← walkOlder_read hvis]
      simp [hvis]

theorem Ok.getVisibleVersion_eq (h : s.Ok) (row : Int) :
    (s.getVisibleVersion vis row).map (fun v => (v.txnId, v.data)) = s.readsCreator vis row := by
  cases hp : s.probe vis row with
  | some slot =>
    rw [h.probe_readsCreator hp]
    simp only [getVisibleVersion, h.isOpen, hp, Bool.false_eq_true, if_false]
    split <;> rfl
  | none =>
    refine getVisibleVersion_of_chain h.isOpen hp fun c hc =>
      ⟨(h.chains row c hc).own c.head (by simp [VersionChain.nodes]), ?_⟩
    exact nodeRow_head h.arena (fun f hf => by cases hc.symm.trans hf; rfl) hc

/-- Versions below the head have no slot, so the batch read finds their own data. -/
theorem Ok.nodeRow_older (h : s.Ok) (hc : s.chain? row = some c) :
    (walkOlder vis c.prev).map (nodeRow s.arena) =
      (walkOlder vis c.prev).map fun n => n.version.data := by
  have holder := (h.chains row c hc).older
  generalize c.prev = prev at holder
  induction prev with
  | nil => rfl
  | cons n rest ih =>
    simp only [walkOlder]
    split
    · split
      · rfl
      · simp [nodeRow, holder n (by simp)]
    · exact ih fun m hm => holder m (by simp [hm])

theorem Ok.batchRow_eq (h : s.Ok) (row : Int) : s.batchRow vis row = s.reads vis row := by
  -- a point read differs in how it reads the versions below the head
  rw [← readsCreator_data, ← h.getVisibleVersion_eq, map_map]
  simp only [batchRow, getVisibleVersion, h.isOpen, Bool.false_eq_true, if_false]
  cases s.probe vis row with
  | some slot =>
    simp only
    split <;> rfl
  | none =>
    cases hc : s.versions.lookup row with
    | none => rfl
    | some c =>
      simp only [h.nodeRow_older hc]
      split_ifs
      · rfl
      · rfl
      · rw [map_map]
        rfl

/-- Whether a row is there is whether it has data. -/
theorem rowVisible_eq_isSome (s : VersionStore V) (row : Int) :
    s.rowVisible vis row = (s.batchRow vis row).isSome := by
  unfold rowVisible batchRow
  cases s.probe vis row with
  | some slot => cases h : slotHidden vis slot <;> simp [h]
  | none =>
    cases s.versions.lookup row with
    | none => rfl
    | some c =>
      cases hvis : vis c.head.version.txnId <;> cases hhid : c.head.version.hiddenFrom vis <;>
        simp [hvis, hhid]

theorem reads_of_isEmpty (h : s.isEmpty = true) (row : Int) : s.reads vis row = none := by
  have hkeys : s.versions.keys = [] := by
    simp only [isEmpty, Bool.and_eq_true, List.isEmpty_iff] at h
    exact h.2
  have hnone : s.versions.lookup row = none := by
    refine AList.lookup_eq_none.mpr fun hm => ?_
    rw [AList.mem_keys, hkeys] at hm
    cases hm
  simp [reads, chain?, hnone]

theorem sum_countP_chunksOf {α : Type} (p : α → Bool) {n : Nat} (hn : 0 < n) :
    ∀ (fuel : Nat) (xs : List α), xs.length ≤ fuel →
      ((chunksOf n fuel xs).map (·.countP p)).sum = xs.countP p := by
  intro fuel
  induction fuel with
  | zero =>
    intro xs h
    rw [List.length_eq_zero_iff.mp (Nat.le_zero.mp h)]
    rfl
  | succ fuel ih =>
    intro xs h
    cases xs with
    | nil => rfl
    | cons x rest =>
      have hdrop : ((x :: rest).drop n).length ≤ fuel := by
        rw [List.length_drop]
        omega
      simp only [chunksOf, List.isEmpty_cons, Bool.false_eq_true, if_false, List.map_cons,
        List.sum_cons, ih _ hdrop]
      rw [← List.countP_append, List.take_append_drop]

end

/-- **All point and batch reads implement one chain semantics.** On every reachable store and for
every viewer, each of the five reads answers what the rows' chains mean to the viewer. -/
theorem reads_agree {s : VersionStore V} (h : Reachable s) (vis : Int → Bool) :
    (∀ row, (s.getVisibleVersion vis row).map (·.data) = s.reads vis row) ∧
    (∀ rows, s.hasAnyVisibleVersion vis rows =
      rows.find? fun row => (s.reads vis row).isSome) ∧
    (∀ rows, s.getVisibleVersionsBatch vis rows =
      rows.filterMap fun row => (s.reads vis row).map fun data => (row, data)) ∧
    (∀ rows, s.probeVisibleRowIdsBatch vis rows =
      (rows.map fun row => (s.reads vis row).isSome,
        rows.countP fun row => (s.reads vis row).isSome)) ∧
    ∀ rows, s.countVisibleVersionsBatch vis rows =
      rows.countP fun row => (s.reads vis row).isSome := by
  have hok := h.ok
  have hopen : s.closed = false := hok.isOpen
  have hrow : s.rowVisible vis = fun row => (s.reads vis row).isSome :=
    funext fun row => by rw [rowVisible_eq_isSome, hok.batchRow_eq]
  refine ⟨fun row => ?_, fun rows => ?_, fun rows => ?_, fun rows => ?_, fun rows => ?_⟩
  · rw [← readsCreator_data, ← hok.getVisibleVersion_eq, map_map]
    rfl
  · simp [hasAnyVisibleVersion, hopen, hrow]
  · unfold getVisibleVersionsBatch
    by_cases he : s.isEmpty = true
    · simp [he, reads_of_isEmpty he]
    · simp [hopen, he, hok.batchRow_eq]
  · unfold probeVisibleRowIdsBatch
    by_cases he : s.isEmpty = true
    · simp [he, reads_of_isEmpty he]
    · simp [hopen, he, hrow]
  · unfold countVisibleVersionsBatch
    simp only [hopen, Bool.false_eq_true, if_false, hrow]
    split
    · exact sum_countP_chunksOf _ (by decide) _ rows le_rfl
    · rfl

/-- Transaction 5 inserts row 1 and transaction 7 deletes it. -/
def deletedRow : VersionStore Nat :=
  (VersionStore.new.apply (.addVersion 1 (.live 5 [42] 10))).apply
    (.addVersionSingle 1 ⟨.newDeletedWithTimestamp 7 [] 20, .inr rfl⟩)

/-- A viewer that sees 5 but not 7 reads the row through the probe, whose slot names both. -/
theorem reads_agree_deletedRow :
    (deletedRow.getVisibleVersion (· == 5) 1).map (·.data) = deletedRow.reads (· == 5) 1 ∧
      deletedRow.reads (· == 5) 1 = some [42] := by
  have hreach : Reachable deletedRow := by
    refine .step _ (.step _ .new ?_) ?_
    · intro hd
      exact absurd hd (by decide)
    · intro _ c hc
      cases hc
      rfl
  exact ⟨(reads_agree hreach (· == 5)).1 1, by decide⟩

end VersionStore

end RadixDb
