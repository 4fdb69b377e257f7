import Mathlib

/-!
# Sequences in runs

A sequence of pieces is ordered by key, and a key whose value does not fit one piece has several,
one after the other. Each piece says whether one of its key comes before and whether one comes after
(`Marks`). A sequence whose neighbours agree about that (`Next`) is sorted, and **the pieces of a
key are a run that starts with a first piece, ends with a last piece and has no gaps**
(`Marks.run_chain`, `Marks.run_head`, `Marks.run_last`).

Pieces that join make one piece (`joined`). **Joining parts of a sequence first makes no
difference** (`joined_flatten`), if joining is associative (`Joins`).
-/

set_option autoImplicit false

theorem List.isChain_concat {α : Type} {R : α → α → Prop} {l : List α} {e : α} :
    (l ++ [e]).IsChain R ↔ l.IsChain R ∧ ∀ a ∈ l.getLast?, R a e := by
  simp [isChain_append]

/-- How pieces are marked. `joins` is what else holds of pieces of one key that follow each other.
-/
structure Marks (α K : Type) where
  key : α → K
  hasPrevious : α → Bool
  hasNext : α → Bool
  joins : α → α → Prop

namespace Marks

open List

variable {α K : Type} (M : Marks α K)

/-- One piece continues another. -/
def Continues (a b : α) : Prop := M.hasNext a = true ∧ M.hasPrevious b = true ∧ M.joins a b

theorem hasNext_of_append {M : Marks α K} {done more : List α}
    (h : (done ++ more).IsChain M.Continues) (hmore : more ≠ []) :
    ∀ a ∈ done.getLast?, M.hasNext a = true := by
  intro a ha
  cases more with
  | nil => exact absurd rfl hmore
  | cons b more => exact ((isChain_append.mp h).2.2 a ha b rfl).1

variable [LinearOrder K]

/-- One piece may follow another. -/
def Next (a b : α) : Prop :=
  (M.key a < M.key b ∧ M.hasNext a = false ∧ M.hasPrevious b = false) ∨
    (M.key a = M.key b ∧ M.Continues a b)

/-- The pieces of a key. -/
def run (k : K) (l : List α) : List α := l.filter fun a => M.key a = k

/-- The pieces of the keys below a key. -/
def below (k : K) (l : List α) : List α := l.filter fun a => M.key a < k

/-- The pieces of the keys above a key. -/
def above (k : K) (l : List α) : List α := l.filter fun a => k < M.key a

variable {M} {k : K} {l : List α} {a : α}

@[simp] theorem run_append (l l' : List α) : M.run k (l ++ l') = M.run k l ++ M.run k l' :=
  filter_append l l'

theorem mem_run : a ∈ M.run k l ↔ a ∈ l ∧ M.key a = k := by
  simp [run]

theorem run_eq_nil : M.run k l = [] ↔ ∀ a ∈ l, M.key a ≠ k := by
  simp [run]

theorem run_eq_self (h : ∀ a ∈ l, M.key a = k) : M.run k l = l :=
  filter_eq_self.mpr fun a ha => decide_eq_true (h a ha)

theorem run_cons_self (h : M.key a = k) : M.run k (a :: l) = a :: M.run k l := by
  simp [run, h]

theorem run_cons_of_ne (h : M.key a ≠ k) : M.run k (a :: l) = M.run k l := by
  simp [run, h]

theorem Next.key_le {b : α} (h : M.Next a b) : M.key a ≤ M.key b := by
  rcases h with ⟨hlt, -⟩ | ⟨heq, -⟩
  · exact hlt.le
  · exact heq.le

/-- Neighbours are in order, so all are. -/
theorem sorted_of_chain (h : l.IsChain M.Next) : l.Pairwise fun a b => M.key a ≤ M.key b := by
  have htrans : Trans (fun a b : α => M.key a ≤ M.key b) (fun a b => M.key a ≤ M.key b)
      (fun a b => M.key a ≤ M.key b) := ⟨fun h h' => le_trans h h'⟩
  exact isChain_iff_pairwise.mp (h.imp fun _ _ => Next.key_le)

theorem mem_below : a ∈ M.below k l ↔ a ∈ l ∧ M.key a < k := by
  simp [below]

theorem mem_above : a ∈ M.above k l ↔ a ∈ l ∧ k < M.key a := by
  simp [above]

theorem below_eq_nil (h : ∀ a ∈ l, k ≤ M.key a) : M.below k l = [] := by
  refine filter_eq_nil_iff.mpr fun a ha => ?_
  simpa using h a ha

/-- A sorted sequence: what is below a key, its run, and what is above. -/
theorem split_run (h : l.Pairwise fun a b => M.key a ≤ M.key b) (k : K) :
    l = M.below k l ++ (M.run k l ++ M.above k l) := by
  induction l with
  | nil => rfl
  | cons a l ih =>
    obtain ⟨habove, hsorted⟩ := pairwise_cons.mp h
    have htail := ih hsorted
    rcases lt_trichotomy (M.key a) k with hlt | heq | hgt
    · have hbelow : M.below k (a :: l) = a :: M.below k l :=
        filter_cons_of_pos (by simpa using hlt)
      have hskip : M.above k (a :: l) = M.above k l :=
        filter_cons_of_neg (by simpa using le_of_lt hlt)
      rw [run_cons_of_ne (ne_of_lt hlt), hbelow, hskip, cons_append, ← htail]
    · have hskip : M.above k (a :: l) = M.above k l := filter_cons_of_neg (by simp [heq])
      rw [below_eq_nil fun b hb => heq ▸ habove b hb, nil_append] at htail
      rw [below_eq_nil (forall_mem_cons.mpr ⟨heq.ge, fun b hb => heq ▸ habove b hb⟩),
        run_cons_self heq, hskip, nil_append, cons_append, ← htail]
    · have hgone : ∀ b ∈ a :: l, k < M.key b :=
        forall_mem_cons.mpr ⟨hgt, fun b hb => lt_of_lt_of_le hgt (habove b hb)⟩
      have hall : M.above k (a :: l) = a :: l :=
        filter_eq_self.mpr fun b hb => by simpa using hgone b hb
      rw [below_eq_nil fun b hb => (hgone b hb).le,
        run_eq_nil.mpr fun b hb => ne_of_gt (hgone b hb), hall]
      rfl

/-- What is below a key comes first. -/
theorem key_lt_iff (h : l.Pairwise fun a b => M.key a ≤ M.key b) (k : K) {i : ℕ}
    (hi : i < l.length) : M.key l[i] < k ↔ i < (M.below k l).length := by
  have hget : (M.below k l ++ (M.run k l ++ M.above k l))[i]? = some l[i] := by
    rw [← split_run h k]
    exact getElem?_eq_getElem hi
  constructor
  · intro hlt
    by_contra hnot
    rw [getElem?_append_right (Nat.not_lt.mp hnot)] at hget
    rcases mem_append.mp (mem_of_getElem? hget) with hmem | hmem
    · exact absurd (mem_run.mp hmem).2 (ne_of_lt hlt)
    · exact absurd (mem_above.mp hmem).2 (not_lt_of_gt hlt)
  · intro hlt
    rw [getElem?_append_left hlt] at hget
    exact (mem_below.mp (mem_of_getElem? hget)).2

/-- **A run has no gaps.** -/
theorem run_chain (h : l.IsChain M.Next) : (M.run k l).IsChain M.Continues := by
  induction l with
  | nil => exact .nil
  | cons a l ih =>
    obtain ⟨hhead, htail⟩ := isChain_cons.mp h
    by_cases ha : M.key a = k
    · rw [run_cons_self ha]
      refine isChain_cons.mpr ⟨fun b hb => ?_, ih htail⟩
      cases l with
      | nil => cases hb
      | cons c l =>
        rcases hhead c rfl with ⟨hlt, -⟩ | ⟨heq, hcont⟩
        · -- the next piece is above, so no piece of the key is left
          have hsorted := (pairwise_cons.mp (sorted_of_chain htail)).1
          have habove : ∀ x ∈ c :: l, M.key x ≠ k := forall_mem_cons.mpr
            ⟨ne_of_gt (ha ▸ hlt), fun x hx => ne_of_gt (lt_of_lt_of_le (ha ▸ hlt) (hsorted x hx))⟩
          rw [run_eq_nil.mpr habove] at hb
          cases hb
        · rw [run_cons_self (heq ▸ ha)] at hb
          cases hb
          exact hcont
    · rw [run_cons_of_ne ha]
      exact ih htail

/-- **A run starts with a first piece**, if it does where the sequence starts. -/
theorem run_head (h : l.IsChain M.Next)
    (hstart : ∀ a ∈ l.head?, M.key a = k → M.hasPrevious a = false) :
    ∀ a ∈ (M.run k l).head?, M.hasPrevious a = false := by
  induction l with
  | nil => nofun
  | cons a l ih =>
    obtain ⟨hhead, htail⟩ := isChain_cons.mp h
    by_cases ha : M.key a = k
    · rw [run_cons_self ha]
      intro b hb
      cases hb
      exact hstart a rfl ha
    · rw [run_cons_of_ne ha]
      refine ih htail fun b hb hkey => ?_
      rcases hhead b hb with ⟨-, -, hfirst⟩ | ⟨heq, -⟩
      · exact hfirst
      · exact absurd (heq.trans hkey) ha

/-- **A run ends with a last piece**, if the sequence does. -/
theorem run_last (h : l.IsChain M.Next) (hend : ∀ a ∈ l.getLast?, M.hasNext a = false) :
    ∀ a ∈ (M.run k l).getLast?, M.hasNext a = false := by
  induction l with
  | nil => nofun
  | cons a l ih =>
    obtain ⟨hhead, htail⟩ := isChain_cons.mp h
    cases l with
    | nil =>
      intro b hb
      obtain ⟨hmem, -⟩ := mem_run.mp (mem_of_getLast? hb)
      rw [mem_singleton] at hmem
      exact hend b (by rw [hmem]; rfl)
    | cons c l =>
      have hmore := ih htail (by rwa [getLast?_cons_cons] at hend)
      by_cases ha : M.key a = k
      · rw [run_cons_self ha]
        cases hrun : M.run k (c :: l) with
        | nil =>
          intro b hb
          cases hb
          rcases hhead c rfl with ⟨-, hlast, -⟩ | ⟨heq, -⟩
          · exact hlast
          · exact absurd (heq.symm.trans ha) (run_eq_nil.mp hrun c mem_cons_self)
        | cons d run =>
          rwa [getLast?_cons_cons, ← hrun]
      · rwa [run_cons_of_ne ha]

end Marks

/-! ## Joining pieces -/

section

variable {α β : Type} (join : α → α → Option α)

/-- Put a piece before pieces that were joined. -/
def joinCons (a : α) : List α → List α
  | [] => [a]
  | b :: l =>
    match join a b with
    | some c => c :: l
    | none => a :: b :: l

/-- The pieces of a sequence, joined where they join. -/
def joined : List α → List α
  | [] => []
  | a :: l => joinCons join a (joined l)

/-- Put a piece behind pieces that were joined. -/
def joinConcat : List α → α → List α
  | [], e => [e]
  | [a], e => joinCons join a [e]
  | a :: b :: l, e => a :: joinConcat (b :: l) e

/-- Whether pieces join depends on the ends that meet. -/
structure Joins : Prop where
  assoc : ∀ {a b c d e}, join a b = some c → join b d = some e →
    ∃ f, join c d = some f ∧ join a e = some f
  right : ∀ {a b c d}, join a b = some c → join b d = none → join c d = none
  left : ∀ {a b d e}, join a b = none → join b d = some e → join a e = none

variable {join}

theorem joinCons_joinCons (h : Joins join) {a b c : α} (hab : join a b = some c) (l : List α) :
    joinCons join a (joinCons join b l) = joinCons join c l := by
  cases l with
  | nil => simp only [joinCons, hab]
  | cons d l =>
    cases hbd : join b d with
    | none => simp only [joinCons, hbd, hab, h.right hab hbd]
    | some e =>
      obtain ⟨f, hcd, hae⟩ := h.assoc hab hbd
      simp only [joinCons, hbd, hcd, hae]

theorem joined_append (l m : List α) :
    joined join (l ++ m) = l.foldr (joinCons join) (joined join m) := by
  induction l with
  | nil => rfl
  | cons a l ih =>
    rw [List.cons_append, joined, ih]
    rfl

/-- Joining the first part of a sequence first. -/
theorem joined_joined_append (h : Joins join) (l m : List α) :
    joined join (joined join l ++ m) = joined join (l ++ m) := by
  induction l with
  | nil => rfl
  | cons a l ih =>
    have hstep : ∀ L : List α, joined join (joinCons join a L ++ m) =
        joinCons join a (joined join (L ++ m)) := by
      intro L
      cases L with
      | nil => rfl
      | cons b L =>
        cases hab : join a b with
        | none =>
          simp only [joinCons, hab]
          rfl
        | some c =>
          simp only [joinCons, hab]
          exact (joinCons_joinCons h hab _).symm
    rw [joined, hstep, ih]
    rfl

/-- **Joining parts of a sequence first makes no difference.** -/
theorem joined_flatten (h : Joins join) (parts : List (List α)) :
    joined join (parts.map (joined join)).flatten = joined join parts.flatten := by
  induction parts with
  | nil => rfl
  | cons l parts ih =>
    rw [List.map_cons, List.flatten_cons, List.flatten_cons, joined_joined_append h, joined_append,
      joined_append, ih]

theorem joinConcat_append (l : List α) (a e : α) :
    joinConcat join (l ++ [a]) e = l ++ joinCons join a [e] := by
  induction l with
  | nil => rfl
  | cons b l ih =>
    cases l with
    | nil => rfl
    | cons c l => exact congrArg (b :: ·) ih

theorem joined_concat (h : Joins join) (l : List α) (e : α) :
    joined join (l ++ [e]) = joinConcat join (joined join l) e := by
  induction l with
  | nil => rfl
  | cons a l ih =>
    rw [List.cons_append, joined, joined, ih]
    generalize joined join l = L
    match L with
    | [] => rfl
    | [b] =>
      cases hab : join a b with
      | some c =>
        simp only [joinConcat, joinCons_joinCons h hab]
        simp only [joinCons, hab, joinConcat]
      | none =>
        cases hbe : join b e with
        | none => simp only [joinConcat, joinCons, hab, hbe]
        | some f => simp only [joinConcat, joinCons, hab, hbe, h.left hab hbe]
    | b :: c :: L => cases hab : join a b <;> simp only [joinConcat, joinCons, hab]

theorem joined_map {join' : β → β → Option β} {f : α → β}
    (hf : ∀ a b, join' (f a) (f b) = (join a b).map f) (l : List α) :
    joined join' (l.map f) = (joined join l).map f := by
  induction l with
  | nil => rfl
  | cons a l ih =>
    rw [List.map_cons, joined, joined, ih]
    cases joined join l with
    | nil => rfl
    | cons b L => cases hab : join a b <;> simp [joinCons, hf, hab]

theorem joined_eq_self {l : List α} (h : ∀ a ∈ l, ∀ b, join a b = none) : joined join l = l := by
  induction l with
  | nil => rfl
  | cons a l ih =>
    rw [joined, ih fun b hb => h b (List.mem_cons_of_mem a hb)]
    cases l with
    | nil => rfl
    | cons b l => simp only [joinCons, h a List.mem_cons_self b]

end
