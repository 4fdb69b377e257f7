import RadixDb.Store.Slots
import RadixDb.Store.VersionStore

/-!
# The store invariant

`VersionStore.Ok` says that the tree and the arena describe the same rows. It is kept by every
mutation of the store: publications (a delete goes on a head that is not itself a delete), the
removals of seal and vacuum, truncation, and claims. Pruning a chain's history is the exception,
because a slot can then describe a version the tree has lost; it is not among these operations.
-/

namespace RadixDb

open List

variable {V : Type}

namespace VersionStore

/-- The slot the tree names for a row. -/
def slotOf (s : VersionStore V) (rowId : Int) : Option Nat :=
  (s.chain? rowId).bind fun c => c.head.arenaIdx

/-- A chain as publications build it: delete markers are their creators', only the head has a slot,
and a live head does have one. -/
structure ChainOk (c : VersionChain V) : Prop where
  own : ∀ n ∈ c.nodes, n.version.OwnMarker
  older : ∀ n ∈ c.prev, n.arenaIdx = none
  slotted : c.head.version.isDeleted = false → ∃ k, c.head.arenaIdx = some k

structure Ok (s : VersionStore V) : Prop where
  isOpen : s.closed = false
  unlimited : s.maxVersionHistory = 0
  chains : ∀ row c, s.chain? row = some c → ChainOk c
  arena : ArenaOk s.chain? s.slotOf s.arena

theorem Ok.new : (VersionStore.new : VersionStore V).Ok where
  isOpen := rfl
  unlimited := rfl
  chains row c h := absurd h (by simp [chain?, VersionStore.new])
  arena := show ArenaOk _ (fun _ => none) RowArena.new from ArenaOk.new

/-! ## Publication -/

/-- A publication the store accepts: not a delete on top of a delete. -/
def Publishable (s : VersionStore V) (rowId : Int) (version : RowVersion V) : Prop :=
  version.isDeleted = true → ∀ c, s.chain? rowId = some c → c.head.version.isDeleted = false

@[simp] theorem isDeleted_inheritData (v e : RowVersion V) :
    (inheritData v e).isDeleted = v.isDeleted := by
  unfold inheritData
  split <;> rfl

@[simp] theorem txnId_inheritData (v e : RowVersion V) : (inheritData v e).txnId = v.txnId := by
  unfold inheritData
  split <;> rfl

theorem inheritData_of_live {v : RowVersion V} (e : RowVersion V) (h : v.isDeleted = false) :
    inheritData v e = v := by
  simp [inheritData, h]

theorem ownMarker_inheritData {v : RowVersion V} (e : RowVersion V) (h : v.OwnMarker) :
    (inheritData v e).OwnMarker := by
  unfold inheritData
  split
  · exact h
  · exact h

/-- The version that ends up on top of a row. -/
def publishedVersion (s : VersionStore V) (rowId : Int) (version : RowVersion V) : RowVersion V :=
  match s.chain? rowId with
  | some existing => inheritData version existing.head.version
  | none => version

/-- The history below it. -/
def publishedBelow (s : VersionStore V) (rowId : Int) : List (ChainNode V) :=
  match s.chain? rowId with
  | some existing => ⟨existing.head.version, none⟩ :: existing.prev
  | none => []

/-- The arena and the slot after a publication. -/
def publishedSlot (s : VersionStore V) (rowId : Int) (version : RowVersion V) :
    RowArena V × Option Nat :=
  if version.isDeleted then (markSlot s.arena (s.slotOf rowId) version, s.slotOf rowId)
  else ((storeLive s.arena (s.slotOf rowId) rowId version).1,
    some (storeLive s.arena (s.slotOf rowId) rowId version).2)

variable {s : VersionStore V}

/-- **What one publication does**: it puts the version on top of the row's history and moves its
data into the row's slot. -/
theorem addVersionInner_eq (h : s.maxVersionHistory = 0) (rowId : Int) (version : RowVersion V) :
    (s.addVersionInner rowId version).versions = s.versions.insert rowId
        ⟨⟨s.publishedVersion rowId version, (s.publishedSlot rowId version).2⟩,
          s.publishedBelow rowId⟩ ∧
      (s.addVersionInner rowId version).arena = (s.publishedSlot rowId version).1 ∧
      (s.addVersionInner rowId version).maxVersionHistory = 0 ∧
      (s.addVersionInner rowId version).uncommittedWrites = s.uncommittedWrites ∧
      (s.addVersionInner rowId version).closed = s.closed := by
  unfold addVersionInner publishedVersion publishedBelow publishedSlot slotOf chain?
  have hno : ∀ c : VersionChain V, s.canReuseArena c = false := by
    intro c
    simp [canReuseArena, h]
  cases hc : s.versions.lookup rowId with
  | none =>
    simp only [Option.bind_none]
    split
    · exact ⟨rfl, rfl, h, rfl, rfl⟩
    · exact ⟨rfl, rfl, h, rfl, rfl⟩
  | some existing =>
    simp only [Option.bind_some, hno, isDeleted_inheritData, Bool.false_eq_true, if_false]
    by_cases hd : version.isDeleted = true
    · have hm : markSlot s.arena existing.head.arenaIdx
          (inheritData version existing.head.version) =
          markSlot s.arena existing.head.arenaIdx version := by
        simp only [markSlot, txnId_inheritData]
      simp only [hd, if_true, hm]
      exact ⟨trivial, trivial, h, trivial, trivial⟩
    · have hl : version.isDeleted = false := by simpa using hd
      simp only [hl, inheritData_of_live existing.head.version hl]
      exact ⟨rfl, rfl, h, rfl, rfl⟩

variable {full : Int → Option (VersionChain V)} {version : RowVersion V} {rowId : Int}

/-- Every slot describes its row after a publication, whatever history the slots are measured
against, as long as it grows by the published version. -/
theorem arena_publish {full' : Int → Option (VersionChain V)} (h : ArenaOk full s.slotOf s.arena)
    {f' : VersionChain V} (hfull : ∀ x, full' x = if x = rowId then some f' else full x)
    (hlive : version.isDeleted = false → f'.head.version = version) (hdel : version.isDeleted = true
      → f'.head.version.isDeleted = true ∧ f'.head.version.txnId = version.txnId ∧ ∀ f, full rowId =
      some f → f.head.version.isDeleted = false ∧ f'.prev = ⟨f.head.version, none⟩ :: f.prev) :
    ArenaOk full' (fun x => if x = rowId then (s.publishedSlot rowId version).2 else s.slotOf x)
      (s.publishedSlot rowId version).1 := by
  unfold publishedSlot
  by_cases hd : version.isDeleted = true
  · obtain ⟨hfd, hft, hbelow⟩ := hdel hd
    have hsame : ∀ x, (if x = rowId then s.slotOf rowId else s.slotOf x) = s.slotOf x := by
      intro x
      split
      · rename_i hx
        rw [hx]
      · rfl
    simp only [hd, if_true, hsame]
    cases hk : s.slotOf rowId with
    | none =>
      refine h.congr (fun _ => rfl) fun x hx => ?_
      rw [hfull, if_neg]
      rintro rfl
      exact hx hk
    | some k =>
      obtain ⟨-, f, slot, hf, hs, hh⟩ := h.slot rowId k hk
      obtain ⟨hflive, hprev⟩ := hbelow f hf
      have hmark := hh.mark hflive hfd f'.head.arenaIdx
      rw [← hprev, hft] at hmark
      refine h.rewrite hk hfull (fun i => ?_) rfl ?_ hmark
      · show (s.arena.markDeleted k version.txnId).slots[i]? = _
        rw [RowArena.getElem?_markDeleted]
        split
        · rename_i hi
          simp [hi, hs]
        · rfl
      · simp [markSlot, RowArena.markDeleted]
  · have hd : version.isDeleted = false := by simpa using hd
    have hholds : SlotHolds rowId f' ⟨rowId, version.txnId, 0, version.data⟩ := by
      have hhead := hlive hd
      obtain ⟨⟨v, k⟩, prev⟩ := f'
      cases hhead
      exact .live _ k prev hd
    simp only [hd, Bool.false_eq_true, if_false]
    cases hk : s.slotOf rowId with
    | none => exact h.insert hk hfull (fun _ => rfl) hholds
    | some k =>
      obtain ⟨-, f, slot, hf, hs, -⟩ := h.slot rowId k hk
      have hlt := (List.getElem?_eq_some_iff.mp hs).1
      have hslots : ArenaOk full' s.slotOf
          (s.arena.updateAt k rowId version.txnId version.data) := by
        refine h.rewrite hk hfull (fun i => ?_) rfl ?_ hholds
        · rw [RowArena.getElem?_updateAt, if_pos hlt]
        · simp [RowArena.updateAt]
      refine hslots.congr (fun x => ?_) fun x _ => rfl
      show (if x = rowId then some k else s.slotOf x) = s.slotOf x
      split
      · rename_i hx
        rw [hx, hk]
      · rfl

theorem chain?_addVersionInner (h : s.maxVersionHistory = 0) (rowId : Int) (version : RowVersion V)
    (x : Int) :
    (s.addVersionInner rowId version).chain? x =
      if x = rowId then some ⟨⟨s.publishedVersion rowId version,
        (s.publishedSlot rowId version).2⟩, s.publishedBelow rowId⟩
      else s.chain? x := by
  rw [chain?, (addVersionInner_eq h rowId version).1, Table.lookup_insert_if]
  rfl

theorem publishedVersion_isDeleted (s : VersionStore V) (rowId : Int) (version : RowVersion V) :
    (s.publishedVersion rowId version).isDeleted = version.isDeleted := by
  unfold publishedVersion
  cases s.chain? rowId <;> simp

theorem publishedVersion_txnId (s : VersionStore V) (rowId : Int) (version : RowVersion V) :
    (s.publishedVersion rowId version).txnId = version.txnId := by
  unfold publishedVersion
  cases s.chain? rowId <;> simp

theorem publishedVersion_of_live (s : VersionStore V) (rowId : Int)
    (h : version.isDeleted = false) : s.publishedVersion rowId version = version := by
  unfold publishedVersion
  cases s.chain? rowId with
  | none => rfl
  | some c => exact inheritData_of_live _ h

/-- A published chain is well formed if the row's was. -/
theorem chainOk_published (rowId : Int) (hc : ∀ c, s.chain? rowId = some c → ChainOk c)
    (hown : version.OwnMarker) :
    ChainOk ⟨⟨s.publishedVersion rowId version, (s.publishedSlot rowId version).2⟩,
      s.publishedBelow rowId⟩ := by
  have hslot : (s.publishedVersion rowId version).isDeleted = false →
      ∃ k, (s.publishedSlot rowId version).2 = some k := by
    intro hl
    rw [publishedVersion_isDeleted] at hl
    simp [publishedSlot, hl]
  unfold publishedVersion at hslot ⊢
  unfold publishedBelow
  cases hch : s.chain? rowId with
  | none =>
    rw [hch] at hslot
    refine ⟨fun n hn => ?_, fun n hn => absurd hn (by simp), hslot⟩
    rw [VersionChain.nodes, mem_singleton] at hn
    exact hn ▸ hown
  | some c =>
    rw [hch] at hslot
    obtain ⟨hown', holder, -⟩ := hc c hch
    have hprev := forall_mem_cons.mp hown'
    exact ⟨forall_mem_cons.mpr ⟨ownMarker_inheritData _ hown, forall_mem_cons.mpr hprev⟩,
      forall_mem_cons.mpr ⟨rfl, holder⟩, hslot⟩

theorem arena_addVersionInner {full : VersionStore V} (hs : s.maxVersionHistory = 0)
    (hfull : full.maxVersionHistory = 0) (h : ArenaOk full.chain? s.slotOf s.arena)
    (hp : full.Publishable rowId version) :
    ArenaOk (full.addVersionInner rowId version).chain? (s.addVersionInner rowId version).slotOf
      (s.addVersionInner rowId version).arena := by
  rw [(addVersionInner_eq hs rowId version).2.1]
  refine (arena_publish h (chain?_addVersionInner hfull rowId version)
    (publishedVersion_of_live full rowId) fun hd =>
      ⟨?_, publishedVersion_txnId full rowId version, fun f hf => ⟨hp hd f hf, ?_⟩⟩).congr
    (fun x => ?_) fun _ _ => rfl
  · exact (publishedVersion_isDeleted full rowId version).trans hd
  · simp [publishedBelow, hf]
  · simp only [slotOf, chain?_addVersionInner hs]
    split <;> rfl

theorem Ok.addVersionInner (h : s.Ok) (hown : version.OwnMarker)
    (hp : s.Publishable rowId version) :
    (s.addVersionInner rowId version).Ok where
  isOpen := (addVersionInner_eq h.unlimited rowId version).2.2.2.2.trans h.isOpen
  unlimited := (addVersionInner_eq h.unlimited rowId version).2.2.1
  chains x c hc := by
    rw [chain?_addVersionInner h.unlimited] at hc
    split at hc
    · cases hc
      exact chainOk_published rowId (h.chains rowId) hown
    · exact h.chains x c hc
  arena := arena_addVersionInner h.unlimited h.unlimited h.arena hp

/-- A batch the store accepts: each version in turn. -/
def BatchPublishable : VersionStore V → Batch V → Prop
  | _, [] => True
  | s, p :: rest => s.Publishable p.1 p.2.1 ∧ BatchPublishable (s.addVersionInner p.1 p.2.1) rest

theorem Ok.addVersions {batch : Batch V} :
    ∀ {s : VersionStore V}, s.Ok → s.BatchPublishable batch → (s.addAll batch).Ok := by
  induction batch with
  | nil => exact fun h _ => h
  | cons p rest ih => exact fun h hb => ih (h.addVersionInner p.2.2 hb.1) hb.2

/-! ## Removal -/

/-- A removal under way took out `removed` and nothing else, and knows their slots. -/
structure RemovalOk (s : VersionStore V) (acc : Removal V) : Prop where
  lookup : ∀ row, acc.versions.lookup row = if row ∈ acc.removed then none else s.chain? row
  slots : ∀ k, k ∈ acc.slots ↔ ∃ row ∈ acc.removed, s.slotOf row = some k
  nodup : acc.slots.Nodup

theorem RemovalOk.start (s : VersionStore V) : RemovalOk s s.removalOf :=
  ⟨fun _ => rfl, fun k => by simp [removalOf], nodup_nil⟩

variable {acc : Removal V} {entry : VersionChain V}

/-- The row that is taken out was there, with the chain it has in the store. -/
theorem RemovalOk.chain_of_lookup (h : RemovalOk s acc) {row : Int}
    (he : acc.versions.lookup row = some entry) :
    row ∉ acc.removed ∧ s.chain? row = some entry := by
  have hl := h.lookup row
  rw [he] at hl
  have hnot : row ∉ acc.removed := fun hm => by simp [hm] at hl
  exact ⟨hnot, by simpa [hnot] using hl.symm⟩

theorem RemovalOk.takeOut (hs : ArenaOk full s.slotOf s.arena) (h : RemovalOk s acc) {row : Int}
    (he : acc.versions.lookup row = some entry) : RemovalOk s (acc.takeOut row entry) := by
  obtain ⟨hnot, hchain⟩ := h.chain_of_lookup he
  have hslot : s.slotOf row = entry.head.arenaIdx := by simp [slotOf, hchain]
  have hnew : ∀ k, entry.head.arenaIdx = some k → k ∉ acc.slots := by
    intro k hk hm
    obtain ⟨row', hr', hk'⟩ := (h.slots k).mp hm
    exact hnot (hs.slotOf_inj (hslot.trans hk) hk' ▸ hr')
  refine ⟨fun x => ?_, fun k => ?_, ?_⟩
  · simp only [Removal.takeOut, Table.lookup_erase_if, h.lookup, mem_append, mem_singleton]
    by_cases hx : x = row <;> by_cases hxr : x ∈ acc.removed <;> simp [hx, hxr]
  · simp only [Removal.takeOut, mem_append, Option.mem_toList, mem_singleton, h.slots]
    constructor
    · rintro (⟨x, hx, hk⟩ | hk)
      · exact ⟨x, .inl hx, hk⟩
      · exact ⟨row, .inr rfl, hslot.trans hk⟩
    · rintro ⟨x, hx | rfl, hk⟩
      · exact .inl ⟨x, hx, hk⟩
      · exact .inr (hslot.symm.trans hk)
  · simp only [Removal.takeOut]
    cases hk : entry.head.arenaIdx with
    | none => simpa using h.nodup
    | some k =>
      simp only [Option.toList_some]
      rw [nodup_append]
      refine ⟨h.nodup, nodup_singleton k, fun i hi j hj hij => ?_⟩
      rw [mem_singleton] at hj
      exact hnew k hk (hj ▸ hij ▸ hi)

theorem RemovalOk.sealTurn (hs : ArenaOk full s.slotOf s.arena) (h : RemovalOk s acc)
    (extraction : Table Int (VersionChain V)) (row : Int) :
    RemovalOk s (s.sealTurn extraction acc row) := by
  unfold VersionStore.sealTurn
  split
  · exact ⟨h.lookup, h.slots, h.nodup⟩
  · cases he : acc.versions.lookup row with
    | none => exact h
    | some entry =>
      simp only
      split
      · exact ⟨h.lookup, h.slots, h.nodup⟩
      · exact h.takeOut hs he

theorem RemovalOk.vacuumTurn (hs : ArenaOk full s.slotOf s.arena) (h : RemovalOk s acc)
    (checker : VisibilityChecker) (cutoff : Int)
    (candidate : Int × (Int × Int × Int × Option Nat)) :
    RemovalOk s (VersionStore.vacuumTurn checker cutoff acc candidate) := by
  unfold VersionStore.vacuumTurn
  cases he : acc.versions.lookup candidate.1 with
  | none => exact h
  | some entry =>
    simp only
    split
    · exact h.takeOut hs he
    · exact h

theorem chain?_finishRemoval (h : RemovalOk s acc) (row : Int) :
    (s.finishRemoval acc).chain? row = if row ∈ acc.removed then none else s.chain? row :=
  h.lookup row

theorem slotOf_finishRemoval (h : RemovalOk s acc) (row : Int) :
    (s.finishRemoval acc).slotOf row = if row ∈ acc.removed then none else s.slotOf row := by
  simp only [slotOf, chain?_finishRemoval h]
  split <;> rfl

theorem Ok.finishRemoval (hs : s.Ok) (h : RemovalOk s acc) : (s.finishRemoval acc).Ok where
  isOpen := hs.isOpen
  unlimited := hs.unlimited
  chains row c hc := by
    rw [chain?_finishRemoval h] at hc
    split at hc
    · cases hc
    · exact hs.chains row c hc
  arena := by
    have hslot := slotOf_finishRemoval h
    refine (hs.arena.clear h.nodup h.slots hslot).congr (fun _ => rfl) fun x hx => ?_
    rw [hslot] at hx
    rw [chain?_finishRemoval h]
    split
    · rename_i hm
      exact absurd (if_pos hm) hx
    · rfl

/-! ## Every operation -/

/-- The whole operations of the store. -/
inductive Op (V : Type) where
  | addVersion (rowId : Int) (version : PublishedVersion V)
  | addVersionSingle (rowId : Int) (version : PublishedVersion V)
  | addVersionsBatch (batch : Batch V)
  | removeSealedRows (rowIds : List Int) (extraction : Table Int (VersionChain V))
  | cleanupDeletedRows (checker : VisibilityChecker) (retention : Nat) (now : Int)
  | truncateAll
  | tryClaimRow (rowId txnId : Int)
  | releaseRowClaim (rowId txnId : Int)

def apply (s : VersionStore V) : Op V → VersionStore V
  | .addVersion row v => (s.addVersion row v).1
  | .addVersionSingle row v => (s.addVersionSingle row v).1
  | .addVersionsBatch batch => (s.addVersionsBatch batch).1
  | .removeSealedRows rows extraction => (s.removeSealedRows rows extraction).1
  | .cleanupDeletedRows checker retention now => (s.cleanupDeletedRows checker retention now).1
  | .truncateAll => s.truncateAll.1
  | .tryClaimRow row t => (s.tryClaimRow row t).1
  | .releaseRowClaim row t => s.releaseRowClaim row t

/-- Deletes go on heads that are not deletes. -/
def Allowed (s : VersionStore V) : Op V → Prop
  | .addVersion row v => s.Publishable row v.1
  | .addVersionSingle row v => s.Publishable row v.1
  | .addVersionsBatch batch => s.BatchPublishable batch
  | _ => True

/-- Stores reached from an empty one. -/
inductive Reachable : VersionStore V → Prop where
  | new : Reachable VersionStore.new
  | step {s : VersionStore V} (op : Op V) (h : Reachable s) (hop : s.Allowed op) :
      Reachable (s.apply op)

/-- Claims are no part of the invariant. -/
theorem Ok.withClaims (h : s.Ok) (claims : Table Int Int) :
    ({ s with uncommittedWrites := claims } : VersionStore V).Ok :=
  ⟨h.isOpen, h.unlimited, h.chains, h.arena⟩

theorem Ok.apply (h : s.Ok) {op : Op V} (hop : s.Allowed op) : (s.apply op).Ok := by
  have hopen : s.closed = false := h.isOpen
  cases op with
  | addVersion row v | addVersionSingle row v =>
    simp only [VersionStore.apply, addVersion, addVersionSingle, guarded, hopen]
    exact h.addVersionInner v.2 hop
  | addVersionsBatch batch =>
    simp only [VersionStore.apply, addVersionsBatch, guarded, hopen]
    exact h.addVersions hop
  | removeSealedRows rows extraction =>
    simp only [VersionStore.apply, removeSealedRows, guarded, hopen]
    exact h.finishRemoval (foldlRecOn rows _ (RemovalOk.start s)
      fun _ hx row _ => hx.sealTurn h.arena extraction row)
  | cleanupDeletedRows checker retention now =>
    simp only [VersionStore.apply, cleanupDeletedRows, hopen]
    exact h.finishRemoval (foldlRecOn _ _ (RemovalOk.start s)
      fun _ hx candidate _ => hx.vacuumTurn h.arena checker _ candidate)
  | truncateAll =>
    simp only [VersionStore.apply, truncateAll, hopen]
    split
    · exact h
    · split
      · exact h
      · exact ⟨rfl, h.unlimited, fun row c hc => absurd hc (by simp [chain?]),
          show ArenaOk _ (fun _ => none) RowArena.new from ArenaOk.new⟩
  | tryClaimRow row t =>
    obtain ⟨claims, hclaims⟩ := s.tryClaimRow_claims row t
    simpa only [VersionStore.apply, hclaims] using h.withClaims claims
  | releaseRowClaim row t =>
    obtain ⟨claims, hclaims⟩ := s.releaseRowClaim_claims row t
    simpa only [VersionStore.apply, hclaims] using h.withClaims claims

theorem Reachable.ok (h : Reachable s) : s.Ok := by
  induction h with
  | new => exact Ok.new
  | step op _ hop ih => exact ih.apply hop

end VersionStore

end RadixDb
