import RadixDb.Store.Arena

/-!
# What the slots of an arena hold

A slot holds the newest live version of its row, and the deleter if the row's head is a delete:
its metadata mixes the creator of one version with the deleter of the next. `SlotHolds` says so,
for a row's full history `f`; `ArenaOk` says it of every slot in use, that every slot is in use by
the row it names, is cleared, or is free, and that free slots are in use by no one.

The history is a parameter (`full`), separate from the tree the store walks: a vacuum may cut the
tree while the slot still describes the history before the cut.
-/

namespace RadixDb

open List

variable {V : Type}

/-- The slot of a row with history `f`. -/
inductive SlotHolds (rowId : Int) : VersionChain V → ArenaSlot V → Prop where
  | live (v : RowVersion V) (k : Option Nat) (prev : List (ChainNode V))
      (hv : v.isDeleted = false) :
      SlotHolds rowId ⟨⟨v, k⟩, prev⟩ ⟨rowId, v.txnId, 0, v.data⟩
  | deleted (v : RowVersion V) (k : Option Nat) (n : ChainNode V) (prev : List (ChainNode V))
      (hv : v.isDeleted = true) (hn : n.version.isDeleted = false) :
      SlotHolds rowId ⟨⟨v, k⟩, n :: prev⟩ ⟨rowId, n.version.txnId, v.txnId, n.version.data⟩

variable {f : VersionChain V} {rowId : Int} {slot : ArenaSlot V}

section

variable (h : SlotHolds rowId f slot)

include h

theorem SlotHolds.rowId_eq : slot.rowId = rowId := by
  cases h <;> rfl

theorem SlotHolds.of_live (hf : f.head.version.isDeleted = false) :
    slot = ⟨rowId, f.head.version.txnId, 0, f.head.version.data⟩ := by
  cases h with
  | live v k prev hv => rfl
  | deleted v k n prev hv hn => exact absurd (hv.symm.trans hf) (by simp)

theorem SlotHolds.mark (hf : f.head.version.isDeleted = false) {v : RowVersion V}
    (hv : v.isDeleted = true) (k : Option Nat) :
    SlotHolds rowId ⟨⟨v, k⟩, ⟨f.head.version, none⟩ :: f.prev⟩
      { slot with deletedAtTxnId := v.txnId } := by
  rw [h.of_live hf]
  exact .deleted v k ⟨f.head.version, none⟩ f.prev hv hf

/-- **A visible slot reads as its row's history.** Whoever sees the creator in a slot's metadata
finds in the slot what the walk of the full history finds. -/
theorem SlotHolds.read
    (hown : ∀ n ∈ f.nodes, n.version.OwnMarker) {vis : Int → Bool} (hvis : vis slot.txnId = true) :
    (f.read vis).map (fun v => (v.txnId, v.data)) =
      if slot.deletedAtTxnId ≠ 0 ∧ vis slot.deletedAtTxnId = true then none
      else some (slot.txnId, slot.data) := by
  cases h with
  | live v k prev hv =>
    have hhid : v.hiddenFrom vis = false := by simp [RowVersion.hiddenFrom, hv]
    rw [VersionChain.read_of_head hvis]
    simp [hhid]
  | deleted v k n prev hv hn =>
    have hmark : v.deletedAtTxnId = v.txnId :=
      (hown ⟨v, k⟩ (by simp [VersionChain.nodes])).marker_eq hv
    have hne : v.txnId ≠ 0 := by
      rw [← hmark]
      simpa [RowVersion.isDeleted] using hv
    by_cases hdel : vis v.txnId = true
    · -- the deleter is visible: so is the head, and it hides the row
      rw [VersionChain.read_of_head (c := ⟨⟨v, k⟩, n :: prev⟩) hdel]
      simp [RowVersion.hiddenFrom, hv, hmark, hdel, hne]
    · -- the deleter is not: the walk stops at the version it deleted
      have hdel : vis v.txnId = false := by simpa using hdel
      have hhid : n.version.hiddenFrom vis = false := by simp [RowVersion.hiddenFrom, hn]
      rw [VersionChain.read_of_not_head (c := ⟨⟨v, k⟩, n :: prev⟩) hdel rfl,
        VersionChain.read_of_head hvis]
      simp [hhid, hdel]

end

/-! ## Arenas -/

/-- Every slot in use describes its row's history, and no slot is both free and in use. `slotOf` is
the tree's map from rows to slots. -/
structure ArenaOk (full : Int → Option (VersionChain V)) (slotOf : Int → Option Nat)
    (a : RowArena V) : Prop where
  slot : ∀ row k, slotOf row = some k → k ∉ a.freeList ∧
    ∃ f slot, full row = some f ∧ a.slots[k]? = some slot ∧ SlotHolds row f slot
  used : ∀ k slot, a.slots[k]? = some slot → slot.rowId = 0 ∨ slotOf slot.rowId = some k
  free_lt : ∀ k ∈ a.freeList, k < a.slots.length
  free_nodup : a.freeList.Nodup

namespace ArenaOk

variable {full full' : Int → Option (VersionChain V)} {slotOf slotOf' : Int → Option Nat}
  {a : RowArena V}

theorem new : ArenaOk full (fun _ => none) (RowArena.new : RowArena V) where
  slot row k h := absurd h (by simp)
  used k slot h := absurd h (by simp [RowArena.new])
  free_lt k h := absurd h (by simp [RowArena.new])
  free_nodup := nodup_nil

variable {row : Int}

section

variable (h : ArenaOk full slotOf a)

include h

theorem slotOf_inj {row' : Int} {k : Nat}
    (h1 : slotOf row = some k) (h2 : slotOf row' = some k) : row = row' := by
  obtain ⟨-, f, slot, -, hs, hh⟩ := h.slot row k h1
  obtain ⟨-, f', slot', -, hs', hh'⟩ := h.slot row' k h2
  rw [hs] at hs'
  cases hs'
  exact hh.rowId_eq.symm.trans hh'.rowId_eq

/-- The history of rows without a slot does not matter, nor does a slot map equal to this one. -/
theorem congr (hslot : ∀ x, slotOf' x = slotOf x)
    (hfull : ∀ x, slotOf x ≠ none → full' x = full x) : ArenaOk full' slotOf' a where
  slot row k hk := by
    rw [hslot] at hk
    rw [hfull row (by simp [hk])]
    exact h.slot row k hk
  used k slot hs := by
    rw [hslot]
    exact h.used k slot hs
  free_lt := h.free_lt
  free_nodup := h.free_nodup

/-- Rewriting the slot of `row` so that it describes the row's new history. -/
theorem rewrite {k : Nat} {f' : VersionChain V} {slot' : ArenaSlot V} {a' : RowArena V}
    (hk : slotOf row = some k) (hfull : ∀ x, full' x = if x = row then some f' else full x)
    (hslots : ∀ i, a'.slots[i]? = if i = k then some slot' else a.slots[i]?)
    (hfree : a'.freeList = a.freeList) (hlen : a'.slots.length = a.slots.length)
    (hholds : SlotHolds row f' slot') : ArenaOk full' slotOf a' where
  slot x i hi := by
    rw [hfree, hfull, hslots]
    by_cases hx : x = row
    · subst hx
      have hik : i = k := Option.some.inj (hi.symm.trans hk)
      subst hik
      exact ⟨(h.slot x i hk).1, f', slot', by simp, by simp, hholds⟩
    · have hik : i ≠ k := fun e => hx (h.slotOf_inj hi (e ▸ hk))
      simpa [hx, hik] using h.slot x i hi
  used i slot hs := by
    rw [hslots] at hs
    by_cases hik : i = k
    · simp only [hik, if_true, Option.some.injEq] at hs
      rw [← hs, hholds.rowId_eq, hik]
      exact .inr hk
    · rw [if_neg hik] at hs
      exact h.used i slot hs
  free_lt i hi := by
    rw [hlen]
    exact h.free_lt i (hfree ▸ hi)
  free_nodup := hfree ▸ h.free_nodup

theorem insert {v : RowVersion V} {f' : VersionChain V} (hnone : slotOf row = none)
    (hfull : ∀ x, full' x = if x = row then some f' else full x) (hslot : ∀ x, slotOf' x =
      if x = row then some (a.insertArc row v.txnId v.data).2 else slotOf x)
    (hholds : SlotHolds row f' ⟨row, v.txnId, 0, v.data⟩) :
    ArenaOk full' slotOf' (a.insertArc row v.txnId v.data).1 := by
  have hget := a.getElem?_insertArc h.free_lt row v.txnId v.data
  have hfresh := a.insertArc_fresh row v.txnId v.data
  generalize a.insertArc row v.txnId v.data = stored at hget hfresh hslot ⊢
  -- the slot handed out was free or did not exist, so no row was using it
  have hunused : ∀ x i, slotOf x = some i → i ≠ stored.2 := by
    rintro x i hi rfl
    obtain ⟨hnf, f, slot, -, hs, -⟩ := h.slot x _ hi
    rcases hfresh with ⟨rest, hf, -⟩ | ⟨-, -, hlen⟩
    · exact hnf (by simp [hf])
    · rw [hlen, getElem?_eq_none (Nat.le_refl _)] at hs
      cases hs
  have hsub : ∀ i ∈ stored.1.freeList, i ∈ a.freeList ∧ i ≠ stored.2 := by
    intro i hi
    rcases hfresh with ⟨rest, hf, hrest⟩ | ⟨-, hrest, -⟩
    · rw [hrest] at hi
      have hnd := h.free_nodup
      rw [hf] at hnd
      refine ⟨by simp [hf, hi], ?_⟩
      rintro rfl
      exact (nodup_cons.mp hnd).1 hi
    · simp [hrest] at hi
  refine ⟨fun x i hi => ?_, fun i slot hs => ?_, fun i hi => ?_, ?_⟩
  · rw [hslot] at hi
    rw [hfull, hget]
    by_cases hx : x = row
    · subst hx
      have hi : stored.2 = i := by simpa using hi
      subst hi
      exact ⟨fun hm => (hsub _ hm).2 rfl, f', _, by simp, by simp, hholds⟩
    · rw [if_neg hx] at hi
      obtain ⟨hnf, f, slot, hf, hs, hh⟩ := h.slot x i hi
      refine ⟨fun hm => hnf (hsub i hm).1, f, slot, by simp [hx, hf], ?_, hh⟩
      rw [if_neg (hunused x i hi), hs]
  · rw [hget] at hs
    rw [hslot]
    by_cases hik : i = stored.2
    · simp only [hik, if_true, Option.some.injEq] at hs
      rw [← hs]
      exact .inr (by simp [hik])
    · rw [if_neg hik] at hs
      rcases h.used i slot hs with h0 | hu
      · exact .inl h0
      · by_cases hrow : slot.rowId = row
        · rw [hrow, hnone] at hu
          cases hu
        · exact .inr (by rw [if_neg hrow, hu])
  · -- a slot that existed still exists
    have hlt := h.free_lt i (hsub i hi).1
    have hs := hget i
    rw [if_neg (hsub i hi).2, getElem?_eq_getElem hlt] at hs
    exact (List.getElem?_eq_some_iff.mp hs).1
  · rcases hfresh with ⟨rest, hf, hrest⟩ | ⟨-, hrest, -⟩
    · have hnd := h.free_nodup
      rw [hf] at hnd
      rw [hrest]
      exact (nodup_cons.mp hnd).2
    · rw [hrest]
      exact nodup_nil

theorem clear {removed : List Int} {slots : List Nat}
    (hnd : slots.Nodup) (hmem : ∀ k, k ∈ slots ↔ ∃ row ∈ removed, slotOf row = some k)
    (hslot : ∀ x, slotOf' x = if x ∈ removed then none else slotOf x) :
    ArenaOk full slotOf' (a.clearBatch slots) where
  slot row k hk := by
    rw [hslot] at hk
    split at hk
    · cases hk
    · rename_i hrow
      obtain ⟨hnf, f, slot, hf, hs, hh⟩ := h.slot row k hk
      have hnk : k ∉ slots := fun hm => by
        obtain ⟨row', hr', hk'⟩ := (hmem k).mp hm
        exact hrow (h.slotOf_inj hk hk' ▸ hr')
      refine ⟨?_, f, slot, hf, ?_, hh⟩
      · rw [RowArena.mem_freeList_clearBatch]
        rintro (⟨hm, -⟩ | hm)
        · exact hnk hm
        · exact hnf hm
      · rw [RowArena.getElem?_clearBatch, if_neg (fun hm => hnk hm.1), hs]
  used k slot hs := by
    rw [RowArena.getElem?_clearBatch] at hs
    split at hs
    · cases hs
      exact .inl rfl
    · rename_i hnot
      have hlt := (List.getElem?_eq_some_iff.mp hs).1
      rcases h.used k slot hs with h0 | hu
      · exact .inl h0
      · refine .inr ?_
        rw [hslot, if_neg, hu]
        exact fun hr => hnot ⟨(hmem k).mpr ⟨_, hr, hu⟩, hlt⟩
  free_lt k hk := by
    have hlen : (a.clearBatch slots).slots.length = a.slots.length := by
      simp only [RowArena.clearBatch]
      generalize slots.filter (· < a.slots.length) = l
      generalize a.slots = base
      induction l generalizing base with
      | nil => rfl
      | cons i l ih => rw [foldl_cons, ih, length_set]
    rw [hlen]
    rcases (RowArena.mem_freeList_clearBatch a slots k).mp hk with ⟨-, hlt⟩ | hm
    · exact hlt
    · exact h.free_lt k hm
  free_nodup := by
    refine nodup_append.mpr ⟨nodup_reverse.mpr (hnd.filter _), h.free_nodup, ?_⟩
    intro i hi j hj hij
    have hi' : i ∈ slots := (mem_filter.mp (mem_reverse.mp hi)).1
    obtain ⟨row, -, hrow⟩ := (hmem i).mp hi'
    exact (h.slot row i hrow).1 (hij ▸ hj)

end

end ArenaOk

end RadixDb
