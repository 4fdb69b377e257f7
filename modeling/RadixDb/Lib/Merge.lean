import RadixDb.Lib.Checked

/-!
# Merging sources

A source gives its elements one after the other, or fails (`Reads`). Of sources that are merged, the
next element of each is kept; the least of these is given next, from the first source that has it,
and replaced (`pop`). So the merge is a source again, and **what it gives is a merge of what the
sources give** (`reads_pop`): a permutation of it (`Merged.perm`), and sorted if each source is
(`Merged.sorted`).

Elements are compared by a Boolean test that says which comes strictly before, as given by their
ranks in a linear order.
-/

set_option autoImplicit false

/-- What a source gives until its end. -/
inductive Reads {α σ ε : Type} (next : σ → Except ε (Option (α × σ))) : σ → List α → Prop
  | done {s : σ} : next s = .ok none → Reads next s []
  | more {s s' : σ} {a : α} {l : List α} :
      next s = .ok (some (a, s')) → Reads next s' l → Reads next s (a :: l)

/-- At most `n` elements of a source. -/
def takeFrom {α σ ε : Type} (next : σ → Except ε (Option (α × σ))) : ℕ → σ → Except ε (List α)
  | 0, _ => .ok []
  | n + 1, s => do
    match ← next s with
    | none => .ok []
    | some (a, s) => do
      let l ← takeFrom next n s
      .ok (a :: l)

theorem Reads.unique {α σ ε : Type} {next : σ → Except ε (Option (α × σ))} {s : σ} {l l' : List α}
    (h : Reads next s l) (h' : Reads next s l') : l = l' := by
  induction h generalizing l' with
  | done hnext =>
    cases h' with
    | done => rfl
    | more hnext' => exact nomatch (Except.ok.inj (hnext.symm.trans hnext'))
  | more hnext _ ih =>
    cases h' with
    | done hnext' => exact nomatch (Except.ok.inj (hnext.symm.trans hnext'))
    | more hnext' hrest =>
      obtain ⟨rfl, rfl⟩ := Prod.mk.inj (Option.some.inj (Except.ok.inj (hnext.symm.trans hnext')))
      rw [ih hrest]

theorem reads_of_takeFrom {α σ ε : Type} {next : σ → Except ε (Option (α × σ))} {n : ℕ} {s : σ}
    {l : List α} (h : takeFrom next n s = .ok l) (hlen : l.length < n) : Reads next s l := by
  induction n generalizing s l with
  | zero => exact absurd hlen (Nat.not_lt_zero _)
  | succ n ih =>
    obtain ⟨r, hnext, h⟩ := ok_of_bind h
    cases r with
    | none =>
      cases h
      exact .done hnext
    | some r =>
      obtain ⟨rest, hrest, h⟩ := ok_of_bind h
      cases h
      exact .more hnext (ih hrest (Nat.lt_of_succ_lt_succ hlen))

/-! ## Merging -/

namespace Merge

open List

variable {α σ ε : Type}

/-- A source whose next element was read already. -/
structure Open (α σ : Type) where
  head : Option α
  rest : σ

section

variable (before : α → α → Bool)

/-- Where the least head is, the first of them. -/
def least : List (Option α) → Option (ℕ × α)
  | [] => none
  | head :: heads =>
    match head, least heads with
    | none, none => none
    | none, some (i, b) => some (i + 1, b)
    | some a, none => some (0, a)
    | some a, some (i, b) => if before b a then some (i + 1, b) else some (0, a)

/-- Open a source. -/
def start (next : σ → Except ε (Option (α × σ))) (s : σ) : Except ε (Open α σ) := do
  match ← next s with
  | none => .ok ⟨none, s⟩
  | some (a, rest) => .ok ⟨some a, rest⟩

/-- The least head; the next element of its source takes its place. -/
def pop (next : σ → Except ε (Option (α × σ))) (runs : List (Open α σ)) :
    Except ε (Option (α × List (Open α σ))) :=
  match least before (runs.map (·.head)) with
  | none => .ok none
  | some (i, a) =>
    match runs[i]? with
    | none => .ok none
    | some run => do
      let run ← start next run.rest
      .ok (some (a, runs.set i run))

/-- A merge of lists: the least of the first elements comes next. -/
inductive Merged : List (List α) → List α → Prop
  | done {ls : List (List α)} : (∀ l ∈ ls, l = []) → Merged ls []
  | step {ls : List (List α)} {i : ℕ} {a : α} {l out : List α} : ls[i]? = some (a :: l) →
      (∀ l' ∈ ls, ∀ b ∈ l'.head?, before b a = false) → Merged (ls.set i l) out →
      Merged ls (a :: out)

end

/-- What an open source still has. -/
def Open.Holds (next : σ → Except ε (Option (α × σ))) (run : Open α σ) (l : List α) : Prop :=
  match run.head with
  | none => l = []
  | some a => ∃ rest, l = a :: rest ∧ Reads next run.rest rest

variable {before : α → α → Bool} {next : σ → Except ε (Option (α × σ))} {run : Open α σ}

theorem Open.Holds.head_eq {l : List α} (h : run.Holds next l) : run.head = l.head? := by
  unfold Open.Holds at h
  cases hhead : run.head with
  | none =>
    rw [hhead] at h
    rw [h]
    rfl
  | some a =>
    rw [hhead] at h
    obtain ⟨rest, rfl, -⟩ := h
    rfl

/-- A source that was opened. -/
theorem reads_of_start {s : σ} {l : List α} (h : start next s = .ok run) (hl : run.Holds next l) :
    Reads next s l := by
  obtain ⟨r, hnext, h⟩ := ok_of_bind h
  cases r with
  | none =>
    cases h
    obtain rfl : l = [] := hl
    exact .done hnext
  | some r =>
    cases h
    obtain ⟨tail, rfl, hrest⟩ := hl
    exact .more hnext hrest

section

variable {P : Type} [LinearOrder P] {rank : α → P}

section

variable (hrank : ∀ a b, before a b = true ↔ rank a < rank b)

include hrank

/-- The least head is a head, and no other comes before it. -/
theorem least_cases (heads : List (Option α)) :
    (least before heads = none ∧ ∀ head ∈ heads, head = none) ∨
      ∃ i a, least before heads = some (i, a) ∧ heads[i]? = some (some a) ∧
        ∀ b, some b ∈ heads → rank a ≤ rank b := by
  induction heads with
  | nil => exact .inl ⟨rfl, forall_mem_nil _⟩
  | cons head heads ih =>
    cases head with
    | none =>
      obtain ⟨hl, hall⟩ | ⟨i, a, hl, hget, hmin⟩ := ih
      · exact .inl ⟨by simp only [least, hl], forall_mem_cons.mpr ⟨rfl, hall⟩⟩
      · exact .inr ⟨i + 1, a, by simp only [least, hl], hget, by simpa using hmin⟩
    | some x =>
      obtain ⟨hl, hall⟩ | ⟨i, a, hl, hget, hmin⟩ := ih
      · refine .inr ⟨0, x, by simp only [least, hl], rfl, fun b hb => ?_⟩
        rcases mem_cons.mp hb with hb | hb
        · cases hb
          exact le_rfl
        · cases hall _ hb
      by_cases hbefore : before a x = true
      · refine .inr ⟨i + 1, a, by simp only [least, hl, hbefore, if_true], hget, fun b hb => ?_⟩
        rcases mem_cons.mp hb with hb | hb
        · cases hb
          exact ((hrank _ _).mp hbefore).le
        · exact hmin b hb
      · refine .inr ⟨0, x, by simp only [least, hl, if_neg hbefore], rfl, fun b hb => ?_⟩
        rw [hrank, not_lt] at hbefore
        rcases mem_cons.mp hb with hb | hb
        · cases hb
          exact le_rfl
        · exact hbefore.trans (hmin b hb)

variable {runs : List (Open α σ)}

/-- What taking the least head does: there is none, or the source that it is from goes on. -/
theorem pop_cases {r : Option (α × List (Open α σ))} (hpop : pop before next runs = .ok r) :
    (r = none ∧ least before (runs.map (·.head)) = none ∧ ∀ run ∈ runs, run.head = none) ∨
      ∃ i a run run', r = some (a, runs.set i run') ∧
        least before (runs.map (·.head)) = some (i, a) ∧ runs[i]? = some run ∧
        run.head = some a ∧ start next run.rest = .ok run' ∧
        ∀ b, some b ∈ runs.map (·.head) → rank a ≤ rank b := by
  unfold pop at hpop
  obtain ⟨hleast, hall⟩ | ⟨i, a, hleast, hget, hmin⟩ := least_cases hrank (runs.map (·.head))
  · rw [hleast] at hpop
    cases hpop
    exact .inl ⟨rfl, hleast, fun run hrun => hall _ (mem_map_of_mem hrun)⟩
  · rw [getElem?_map, Option.map_eq_some_iff] at hget
    obtain ⟨run, hrun, hhead⟩ := hget
    simp only [hleast, hrun] at hpop
    obtain ⟨run', hstart, hpop⟩ := ok_of_bind hpop
    cases hpop
    exact .inr ⟨i, a, run, run', rfl, hleast, hrun, hhead, hstart, hmin⟩

/-- **What a merge of sources gives** is a merge of what they give. -/
theorem reads_pop {out : List α} (h : Reads (pop before next) runs out) :
    ∃ ls, Forall₂ (Open.Holds next) runs ls ∧ Merged before ls out := by
  induction h with
  | @done runs hpop =>
    refine ⟨runs.map fun _ => [], ?_, .done fun l hl => ?_⟩
    · obtain ⟨-, -, hnone⟩ | ⟨_, _, _, _, hr, -⟩ := pop_cases hrank hpop
      · rw [forall₂_map_right_iff, forall₂_same]
        intro run hrun
        simp only [Open.Holds, hnone run hrun]
      · cases hr
    · obtain ⟨_, _, rfl⟩ := mem_map.mp hl
      rfl
  | @more runs runs' a out hpop _ ih =>
    obtain ⟨ls', hholds, hmerge⟩ := ih
    obtain ⟨hr, -⟩ | ⟨i, _, run, run', hr, -, hrun, hhead, hstart, hmin⟩ := pop_cases hrank hpop
    · cases hr
    cases hr
    -- only the source that was taken from has changed
    obtain ⟨hlt, hrun'⟩ := List.getElem?_eq_some_iff.mp hrun
    obtain ⟨hlen, hall⟩ := forall₂_iff_get.mp hholds
    rw [length_set] at hlen
    have hi : i < ls'.length := hlen ▸ hlt
    have hmine : run'.Holds next ls'[i] := by
      have := hall i (by rw [length_set]; exact hlt) hi
      rwa [get_eq_getElem, getElem_set_self] at this
    have hread := reads_of_start hstart hmine
    have hnew : Forall₂ (Open.Holds next) runs (ls'.set i (a :: ls'[i])) := by
      refine forall₂_iff_get.mpr ⟨by rw [length_set, hlen], fun j hj hj' => ?_⟩
      rw [get_eq_getElem, get_eq_getElem]
      by_cases hij : i = j
      · subst hij
        rw [getElem_set_self, hrun']
        simp only [Open.Holds, hhead]
        exact ⟨_, rfl, hread⟩
      · rw [getElem_set_ne hij]
        have hj'' : j < ls'.length := hlen ▸ hj
        have := hall j (by rw [length_set]; exact hj) hj''
        rwa [get_eq_getElem, get_eq_getElem, getElem_set_ne hij] at this
    refine ⟨_, hnew, .step (getElem?_set_self hi) (fun l hl b hb => ?_) ?_⟩
    · obtain ⟨j, hj, rfl⟩ := getElem_of_mem hl
      have hj' : j < runs.length := hnew.length_eq ▸ hj
      have hheads := (hnew.get hj' hj).head_eq
      rw [get_eq_getElem, get_eq_getElem, Option.mem_def.mp hb] at hheads
      rw [Bool.eq_false_iff, ne_eq, hrank, not_lt]
      exact hmin b (mem_map.mpr ⟨_, getElem_mem hj', hheads⟩)
    · rwa [set_set, set_getElem_self]

end

theorem Merged.perm {ls : List (List α)} {out : List α} (h : Merged before ls out) :
    out.Perm ls.flatten := by
  induction h with
  | done hall =>
    rw [flatten_eq_nil_iff.mpr hall]
  | @step ls i a l out hget _ _ ih =>
    obtain ⟨hi, hl⟩ := List.getElem?_eq_some_iff.mp hget
    have hsplit : ls = ls.take i ++ (a :: l) :: ls.drop (i + 1) := by
      rw [← hl, getElem_cons_drop, take_append_drop]
    have hset : ls.set i l = ls.take i ++ l :: ls.drop (i + 1) := by
      rw [set_eq_take_append_cons_drop, if_pos hi]
    have hflat : ls.flatten.Perm (a :: (ls.set i l).flatten) := by
      conv_lhs => rw [hsplit]
      rw [hset, flatten_append, flatten_append, flatten_cons, flatten_cons, cons_append]
      exact perm_middle
    exact (Perm.cons a ih).trans hflat.symm

/-- Is no element before an earlier one? -/
def Sorted (before : α → α → Bool) (l : List α) : Prop :=
  l.Pairwise fun a b => before b a = false

/-- **A merge of sorted lists is sorted.** -/
theorem Merged.sorted (hrank : ∀ a b, before a b = true ↔ rank a < rank b) {ls : List (List α)}
    {out : List α} (h : Merged before ls out) (hls : ∀ l ∈ ls, Sorted before l) :
    Sorted before out := by
  have htrans : ∀ {a b c}, before b a = false → before c b = false → before c a = false := by
    intro a b c hab hbc
    rw [Bool.eq_false_iff, ne_eq, hrank, not_lt] at hab hbc ⊢
    exact hab.trans hbc
  induction h with
  | done => exact .nil
  | @step ls i a l out hget hmin hrest ih =>
    have hmem : a :: l ∈ ls := mem_of_getElem? hget
    have hl : Sorted before l := (pairwise_cons.mp (hls _ hmem)).2
    refine pairwise_cons.mpr ⟨fun b hb => ?_, ih fun l' hl' => ?_⟩
    · -- `b` is in some list, whose first element is not before `a`
      obtain ⟨l', hl', hb⟩ := mem_flatten.mp (hrest.perm.mem_iff.mp hb)
      rcases mem_or_eq_of_mem_set hl' with hl' | rfl
      · cases l' with
        | nil => cases hb
        | cons c l' =>
          have hc := hmin _ hl' c rfl
          rcases mem_cons.mp hb with rfl | hb
          · exact hc
          · exact htrans hc ((pairwise_cons.mp (hls _ hl')).1 b hb)
      · exact (pairwise_cons.mp (hls _ hmem)).1 b hb
    · rcases mem_or_eq_of_mem_set hl' with hl' | rfl
      · exact hls l' hl'
      · exact hl

end

end Merge
