import RadixDb.Index.PageWriter
import RadixDb.Lib.Runs

/-!
# Fragments and postings

A posting that does not fit is cut into fragments, which say whether they continue another one and
whether they are continued. That is all that is needed to join them again (`join`). **The fragments
of entries join to the entries** (`joined_cut`), wherever they were cut.
-/

namespace RadixDb.IndexPage

open List

section

variable {κ : Type}

/-- Two fragments of which the first is continued and the second continues. -/
def join (a b : PageEntry κ) : Option (PageEntry κ) :=
  if a.state.hasNext && b.state.hasPrevious then
    some ⟨a.key, a.rows ++ b.rows, ⟨a.state.hasPrevious, b.state.hasNext⟩⟩
  else none

theorem join_eq_none {a b : PageEntry κ} :
    join a b = none ↔ (a.state.hasNext && b.state.hasPrevious) = false := by
  unfold join
  split_ifs with h <;> simp [h]

theorem join_eq_some {a b c : PageEntry κ} :
    join a b = some c ↔ (a.state.hasNext && b.state.hasPrevious) = true ∧
      c = ⟨a.key, a.rows ++ b.rows, ⟨a.state.hasPrevious, b.state.hasNext⟩⟩ := by
  unfold join
  split_ifs with h
  · simp [h, eq_comm]
  · simp [h]

theorem joins_join : Joins (join (κ := κ)) := by
  refine ⟨fun {a b c d e} hab hbd => ?_, fun {a b c d} hab hbd => ?_, fun {a b d e} hab hbd => ?_⟩
  · obtain ⟨habs, rfl⟩ := join_eq_some.mp hab
    obtain ⟨hbds, rfl⟩ := join_eq_some.mp hbd
    refine ⟨_, join_eq_some.mpr ⟨hbds, rfl⟩, join_eq_some.mpr ⟨habs, ?_⟩⟩
    simp
  · obtain ⟨-, rfl⟩ := join_eq_some.mp hab
    rw [join_eq_none] at hbd ⊢
    exact hbd
  · obtain ⟨-, rfl⟩ := join_eq_some.mp hbd
    rw [join_eq_none] at hab ⊢
    exact hab

theorem joined_fragments (key : κ) {outer : PostingFragmentState} {budget : ℕ}
    {started : Bool} {rows : List ℕ} {fragments : List Fragment}
    (h : Fragments outer budget started rows fragments) (hne : rows ≠ []) :
    joined join (fragments.map (fragmentEntry key)) =
      [⟨key, rows, ⟨outer.hasPrevious || started, outer.hasNext⟩⟩] := by
  induction h with
  | nil started => exact absurd rfl hne
  | cons htaken hbudget hrest ih =>
    rename_i started taken rest fragments
    rw [map_cons, joined]
    cases rest with
    | nil =>
      obtain rfl := hrest.eq_nil
      simp [joined, joinCons, fragmentEntry]
    | cons row rest =>
      rw [ih (cons_ne_nil row rest)]
      simp [joinCons, join, fragmentEntry]

/-- An entry that is not cut. -/
def uncut (e : PostingEntry κ) : PageEntry κ := ⟨e.key, e.rowOrdinals, e.fragmentState⟩

/-- **The fragments of entries join to the entries.** -/
theorem joined_cut {π : Type} {K : WriterKind κ π} {limits : PageBuildLimits}
    {entries : List (PostingEntry κ)} {all : List (PageEntry κ)} (h : Cut K limits entries all) :
    joined join all = joined join (entries.map uncut) := by
  induction h with
  | nil => rfl
  | cons hne hcut hrest ih =>
    rename_i entry entries fragments rest
    have hwhole := joined_fragments entry.key hcut hne
    rw [Bool.or_false] at hwhole
    rw [← joined_joined_append joins_join, hwhole, singleton_append, joined, ih]
    rfl

theorem joined_map_key (f : κ → κ) (l : List (PageEntry κ)) :
    joined join (l.map fun e => { e with key := f e.key }) =
      (joined join l).map fun e => { e with key := f e.key } := by
  refine joined_map (fun a b => ?_) l
  simp only [join]
  split_ifs <;> rfl

variable {l : List (PageEntry κ)}

theorem joined_of_complete (h : ∀ e ∈ l, e.state.hasNext = false) : joined join l = l := by
  refine joined_eq_self fun a ha b => join_eq_none.mpr ?_
  rw [h a ha]
  rfl

theorem exists_of_mem_joined {b : PageEntry κ} (hb : b ∈ joined join l) :
    ∃ a ∈ l, b.key = a.key := by
  induction l generalizing b with
  | nil => cases hb
  | cons a l ih =>
    rw [joined] at hb
    cases hl : joined join l with
    | nil =>
      rw [hl, joinCons, mem_singleton] at hb
      exact ⟨a, mem_cons_self, congrArg _ hb⟩
    | cons c L =>
      rw [hl] at hb ih
      have htail : ∀ x ∈ c :: L, ∃ y ∈ a :: l, x.key = y.key := by
        intro x hx
        obtain ⟨y, hy, hkey⟩ := ih hx
        exact ⟨y, mem_cons_of_mem a hy, hkey⟩
      cases hac : join a c with
      | none =>
        simp only [joinCons, hac] at hb
        rcases mem_cons.mp hb with rfl | hb
        · exact ⟨b, mem_cons_self, rfl⟩
        · exact htail b hb
      | some d =>
        obtain ⟨-, rfl⟩ := join_eq_some.mp hac
        simp only [joinCons, hac] at hb
        rcases mem_cons.mp hb with rfl | hb
        · exact ⟨a, mem_cons_self, rfl⟩
        · exact htail b (mem_cons_of_mem c hb)

end

end RadixDb.IndexPage
