import RadixDb.Store.Version

/-!
# The row arena

Row data lives in slots (mvcc/arena.rs): a slot holds one row's values and a little metadata, the
row, the transaction that wrote it and the one that deleted it. Cleared slots go to a free list
and are handed out again, last cleared first; the list's head is the top of that stack. The two
vectors of the source, data and metadata, always have equal length and are one list here.
-/

namespace RadixDb

open List

variable {V : Type}

/-- A slot: `ArenaRowMeta` and the row's values. -/
structure ArenaSlot (V : Type) where
  rowId : Int
  txnId : Int
  deletedAtTxnId : Int
  data : List V
deriving DecidableEq, Repr

/-- A cleared slot. -/
def ArenaSlot.cleared : ArenaSlot V := ⟨0, 0, 0, []⟩

structure RowArena (V : Type) where
  slots : List (ArenaSlot V)
  freeList : List Nat

namespace RowArena

def new : RowArena V := ⟨[], []⟩

variable (a : RowArena V)

/-- Store a row in a free slot, or in a new one; returns the slot's index. -/
def insertArc (rowId txnId : Int) (data : List V) : RowArena V × Nat :=
  match a.freeList with
  | idx :: rest => (⟨a.slots.set idx ⟨rowId, txnId, 0, data⟩, rest⟩, idx)
  | [] => (⟨a.slots ++ [⟨rowId, txnId, 0, data⟩], []⟩, a.slots.length)

def markDeleted (idx : Nat) (deletedAtTxnId : Int) : RowArena V :=
  { a with slots := a.slots.modify idx fun s => { s with deletedAtTxnId := deletedAtTxnId } }

/-- Overwrite a slot in place. -/
def updateAt (idx : Nat) (rowId txnId : Int) (data : List V) : RowArena V :=
  { a with slots := a.slots.set idx ⟨rowId, txnId, 0, data⟩ }

/-- Clear the slots that exist among `indices` and push them on the free list. -/
def clearBatch (indices : List Nat) : RowArena V :=
  let cleared := indices.filter (· < a.slots.length)
  { slots := cleared.foldl (fun slots idx => slots.set idx .cleared) a.slots
    freeList := cleared.reverse ++ a.freeList }

def clearAll (_ : RowArena V) : RowArena V := new

/-- The data in slot `idx`. -/
def getData? (idx : Nat) : Option (List V) := a.slots[idx]?.map (·.data)

/-! ## Slots after each operation -/

theorem getElem?_updateAt (idx k : Nat) (r t : Int) (d : List V) :
    (a.updateAt idx r t d).slots[k]? =
      if k = idx then (if idx < a.slots.length then some ⟨r, t, 0, d⟩ else none)
      else a.slots[k]? := by
  simp only [updateAt, getElem?_set]
  by_cases h : k = idx
  · simp [h]
  · simp [h, Ne.symm h]

theorem getElem?_markDeleted (idx k : Nat) (d : Int) :
    (a.markDeleted idx d).slots[k]? =
      if k = idx then a.slots[k]?.map (fun s => { s with deletedAtTxnId := d })
      else a.slots[k]? := by
  simp only [markDeleted, getElem?_modify]
  by_cases h : k = idx
  · subst h
    simp
  · simp [h, Ne.symm h]

theorem getElem?_clear_fold (l : List Nat) : ∀ (slots : List (ArenaSlot V)) (k : Nat),
    (l.foldl (fun slots idx => slots.set idx .cleared) slots)[k]? =
      if k ∈ l then (if k < slots.length then some .cleared else none) else slots[k]? := by
  induction l with
  | nil => simp
  | cons i l ih =>
    intro slots k
    rw [foldl_cons, ih, length_set, getElem?_set]
    by_cases hk : k ∈ l
    · simp [hk]
    · by_cases hi : k = i
      · simp [hi]
      · simp [hk, hi, Ne.symm hi]

theorem getElem?_clearBatch (indices : List Nat) (k : Nat) :
    (a.clearBatch indices).slots[k]? =
      if k ∈ indices ∧ k < a.slots.length then some .cleared else a.slots[k]? := by
  simp only [clearBatch, getElem?_clear_fold, mem_filter, decide_eq_true_eq]
  by_cases h : k ∈ indices ∧ k < a.slots.length
  · simp [h]
  · simp [h]

theorem mem_freeList_clearBatch (indices : List Nat) (k : Nat) :
    k ∈ (a.clearBatch indices).freeList ↔
      (k ∈ indices ∧ k < a.slots.length) ∨ k ∈ a.freeList := by
  simp [clearBatch]

/-- The slot an insertion used, and the others. -/
theorem getElem?_insertArc (hfree : ∀ k ∈ a.freeList, k < a.slots.length)
    (r t : Int) (d : List V) (k : Nat) :
    (a.insertArc r t d).1.slots[k]? =
      if k = (a.insertArc r t d).2 then some ⟨r, t, 0, d⟩ else a.slots[k]? := by
  unfold insertArc
  cases hf : a.freeList with
  | cons idx rest =>
    have hlt := hfree idx (by simp [hf])
    by_cases h : k = idx
    · simp [h, hlt]
    · simp [h, Ne.symm h]
  | nil =>
    by_cases h : k = a.slots.length
    · simp [h]
    · rw [if_neg h]
      rcases Nat.lt_or_gt_of_ne h with hlt | hgt
      · rw [getElem?_append_left hlt]
      · rw [getElem?_eq_none (by simp; omega), getElem?_eq_none (by omega)]

/-- The index an insertion returns: the top of the free list, or the first unused one. -/
theorem insertArc_fresh (r t : Int) (d : List V) :
    (∃ rest, a.freeList = (a.insertArc r t d).2 :: rest ∧ (a.insertArc r t d).1.freeList = rest) ∨
      (a.freeList = [] ∧ (a.insertArc r t d).1.freeList = [] ∧
        (a.insertArc r t d).2 = a.slots.length) := by
  unfold insertArc
  cases hf : a.freeList with
  | cons idx rest => exact Or.inl ⟨rest, rfl, rfl⟩
  | nil => exact Or.inr ⟨rfl, rfl, rfl⟩

end RowArena

end RadixDb
