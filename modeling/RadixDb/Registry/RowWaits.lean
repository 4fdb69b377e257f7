import RadixDb.Lib.Table
import RadixDb.Lib.Run

/-!
# Which transaction waits for which

A transaction that finds a row claimed by another one waits for it. The registry keeps one
outgoing edge per waiter and asks, before a wait starts, whether the wait would close a cycle:
the new edge goes in, the edges are followed from the owner, and a walk that comes back to the
waiter takes the edge out again and refuses.

The walk also stops after as many steps as the graph has edges. Between two calls the graph has
no cycle (`Acyclic`), so that a walk never meets an edge twice and that limit is never what ends
it; the refusals are the closed cycles and nothing else.
-/

namespace RadixDb.RowWaits

open Relation List

/-- `waits_for`: the transaction each waiter waits for. -/
abbrev WaitGraph := Table Int Int

/-- The walk of `register_row_wait` from `current`, with `n` steps left: whether it ends without
coming to the waiter. -/
def walk (graph : WaitGraph) (waiter : Int) : Nat → Int → Bool
  -- whatever the next edge leads to, it is refused
  | 0, current => (graph.lookup current).isNone
  | n + 1, current =>
    match graph.lookup current with
    | none => true
    | some next => if next = waiter then false else walk graph waiter n next

variable (graph : WaitGraph)

/-- `register_row_wait`: whether the waiter may wait. -/
def registerRowWait (waiter owner : Int) : WaitGraph × Bool :=
  if waiter = owner then (graph, true)
  else
    let graph := graph.insert waiter owner
    if walk graph waiter graph.keys.length owner then (graph, true)
    else (graph.erase waiter, false)

/-- `clear_row_wait`. -/
def clearRowWait (waiter : Int) : WaitGraph := graph.erase waiter

inductive WaitCall where
  | register (waiter owner : Int)
  | clear (waiter : Int)

def step : WaitCall → WaitGraph × Bool
  | .register waiter owner => registerRowWait graph waiter owner
  | .clear waiter => (clearRowWait graph waiter, true)

/-! ## Following edges -/

/-- The edges of the graph. -/
def WaitsFor (a b : Int) : Prop := graph.lookup a = some b

def Acyclic : Prop := ∀ a, ¬ TransGen (WaitsFor graph) a a

/-- Following the edges from `x` ends after at most `n` of them. -/
def endsWithin (graph : WaitGraph) : Nat → Int → Prop
  | 0, x => graph.lookup x = none
  | n + 1, x => ∀ y, WaitsFor graph x y → endsWithin graph n y

variable {g h : WaitGraph} {w o x y : Int} {n : Nat}

/-- **A walk through an acyclic graph ends after at most as many edges as the graph has**: the nodes
it has left are different keys. -/
theorem Acyclic.endsWithin_of_seen (hg : Acyclic g) {seen : List Int} (hnodup : seen.Nodup)
    (hseen : ∀ s ∈ seen, s ∈ g.keys ∧ TransGen (WaitsFor g) s x)
    (hn : g.keys.length ≤ seen.length + n) : endsWithin g n x := by
  -- the invariant of the walk: what it has seen leads to where it stands
  have hstep : ∀ {seen : List Int} {x y : Int}, seen.Nodup →
      (∀ s ∈ seen, s ∈ g.keys ∧ TransGen (WaitsFor g) s x) → WaitsFor g x y →
      (x :: seen).Nodup ∧ ∀ s ∈ x :: seen, s ∈ g.keys ∧ TransGen (WaitsFor g) s y := by
    intro seen x y hnodup hseen hy
    exact ⟨nodup_cons.mpr ⟨fun hx => hg x (hseen x hx).2, hnodup⟩, forall_mem_cons.mpr
      ⟨⟨AList.mem_keys.mp (Table.mem_of_lookup hy), .single hy⟩,
        fun s hs => ⟨(hseen s hs).1, (hseen s hs).2.tail hy⟩⟩⟩
  induction n generalizing seen x with
  | zero =>
    refine Option.eq_none_iff_forall_ne_some.mpr fun y hy => ?_
    obtain ⟨hnodup, hseen⟩ := hstep hnodup hseen hy
    have hlen := (subperm_of_subset hnodup fun s hs => (hseen s hs).1).length_le
    rw [length_cons] at hlen
    omega
  | succ n ih =>
    intro y hy
    obtain ⟨hnodup, hseen⟩ := hstep hnodup hseen hy
    refine ih hnodup hseen ?_
    rw [length_cons]
    omega

theorem Acyclic.endsWithin (hg : Acyclic g) (hn : g.keys.length ≤ n) (x : Int) : endsWithin g n x :=
  hg.endsWithin_of_seen nodup_nil (fun _ hs => nomatch hs) (by simpa using hn)

/-- **The walk refuses exactly when the waiter lies behind the node it starts from**, as long as its
steps last. It does not come to the new edge before it comes to the waiter. -/
theorem walk_eq_false_iff (hends : RowWaits.endsWithin g n x) (hxw : x ≠ w) :
    walk (g.insert w o) w n x = false ↔ TransGen (WaitsFor g) x w := by
  have hlook : ∀ {x}, x ≠ w → (g.insert w o).lookup x = g.lookup x := AList.lookup_insert_ne
  induction n generalizing x with
  | zero =>
    have hnone : g.lookup x = none := hends
    simp [walk, hlook hxw, hnone, TransGen.head'_iff, WaitsFor]
  | succ n ih =>
    cases hx : g.lookup x with
    | none => simp [walk, hlook hxw, hx, TransGen.head'_iff, WaitsFor]
    | some y =>
      -- one edge leaves each node
      have honly : ∀ z, WaitsFor g x z ↔ z = y := by simp [WaitsFor, hx, eq_comm]
      simp only [walk, hlook hxw, hx, TransGen.head'_iff, honly, exists_eq_left]
      rw [reflTransGen_iff_eq_or_transGen]
      by_cases hyw : y = w
      · simp [hyw]
      · simp [hyw, ih (hends y hx) hyw, Ne.symm hyw]

/-! ## One more edge -/

variable {a b : Int}

theorem waitsFor_insert (hab : WaitsFor (g.insert w o) a b) :
    a = w ∧ o = b ∨ a ≠ w ∧ WaitsFor g a b := by
  rw [WaitsFor, Table.lookup_insert_if] at hab
  split at hab
  · exact .inl ⟨‹_›, Option.some.inj hab⟩
  · exact .inr ⟨‹_›, hab⟩

/-- A path through the new edge passes `w` and then `o`. -/
theorem transGen_insert (hab : TransGen (WaitsFor (g.insert w o)) a b) :
    TransGen (WaitsFor g) a b ∨
      ReflTransGen (WaitsFor g) a w ∧ ReflTransGen (WaitsFor g) o b := by
  induction hab with
  | single hb =>
    obtain ⟨rfl, rfl⟩ | ⟨-, hb⟩ := waitsFor_insert hb
    · exact .inr ⟨.refl, .refl⟩
    · exact .inl (.single hb)
  | tail _ hc ih =>
    obtain ⟨rfl, rfl⟩ | ⟨-, hc⟩ := waitsFor_insert hc
    · exact .inr ⟨ih.elim (·.to_reflTransGen) (·.1), .refl⟩
    · exact ih.imp (·.tail hc) fun h => ⟨h.1, h.2.tail hc⟩

theorem Acyclic.insert (hg : Acyclic g) (hwo : w ≠ o) (ho : ¬ TransGen (WaitsFor g) o w) :
    Acyclic (g.insert w o) := by
  intro a ha
  obtain ha | ⟨haw, hoa⟩ := transGen_insert ha
  · exact hg a ha
  · exact (reflTransGen_iff_eq_or_transGen.mp (hoa.trans haw)).elim hwo ho

theorem waitsFor_erase : WaitsFor (g.erase w) a b ↔ a ≠ w ∧ WaitsFor g a b := by
  rw [WaitsFor, Table.lookup_erase_if]
  split <;> simp [WaitsFor, *]

theorem Acyclic.erase (hg : Acyclic g) (w : Int) : Acyclic (g.erase w) :=
  fun a ha => hg a (TransGen.mono (fun _ _ hab => (waitsFor_erase.mp hab).2) _ _ ha)

/-! ## The calls -/

/-- What a call of `register_row_wait` with another owner returns and leaves. -/
theorem registerRowWait_cases (hg : Acyclic g) (hwo : w ≠ o) :
    ¬ TransGen (WaitsFor g) o w ∧ registerRowWait g w o = (g.insert w o, true) ∨
      TransGen (WaitsFor g) o w ∧ registerRowWait g w o = (g.erase w, false) := by
  have hkeys : g.keys.length ≤ (g.insert w o).keys.length := by
    rw [AList.keys_insert, length_cons, length_erase]
    split <;> omega
  have hundo : (g.insert w o).erase w = g.erase w := by
    apply AList.ext
    exact kerase_cons_eq rfl
  rw [← walk_eq_false_iff (hg.endsWithin hkeys o) hwo.symm, registerRowWait, if_neg hwo]
  dsimp only
  cases walk (g.insert w o) w (g.insert w o).keys.length o with
  | true => exact .inl ⟨by simp, rfl⟩
  | false => exact .inr ⟨rfl, by rw [if_neg (by simp), hundo]⟩

theorem Acyclic.step (hg : Acyclic g) (call : WaitCall) : Acyclic (step g call).1 := by
  cases call with
  | clear waiter => exact hg.erase waiter
  | register w o =>
    by_cases hwo : w = o
    · rwa [RowWaits.step, registerRowWait, if_pos hwo]
    rw [RowWaits.step]
    obtain ⟨ho, heq⟩ | ⟨-, heq⟩ := registerRowWait_cases hg hwo
    · rw [heq]
      exact hg.insert hwo ho
    · rw [heq]
      exact hg.erase w

/-- **Deadlocks are found, and nothing else is taken for one**: whatever calls came before, the
graph has no cycle, following it ends within as many edges as it has, and a wait is refused exactly
when the waiter lies behind the owner. A refusal takes out the waiter's edge and no other one. -/
theorem deadlocks_found (calls : List WaitCall) (m : Nat) :
    let graph := Run.after RowWaits.step ∅ calls m
    Acyclic graph ∧ (∀ x, endsWithin graph graph.keys.length x) ∧
      ∀ w o, w ≠ o →
        ((registerRowWait graph w o).2 = false ↔ TransGen (WaitsFor graph) o w) ∧
        ((registerRowWait graph w o).2 = false → ∀ a b,
          WaitsFor (registerRowWait graph w o).1 a b ↔ a ≠ w ∧ WaitsFor graph a b) := by
  intro graph
  have hempty : Acyclic ∅ := by
    intro a ha
    obtain ⟨b, hab, -⟩ := TransGen.head'_iff.mp ha
    cases hab
  have hg : Acyclic graph := Run.after_invariant hempty (fun g call hg => hg.step call) m
  refine ⟨hg, hg.endsWithin le_rfl, fun w o hwo => ?_⟩
  obtain ⟨ho, heq⟩ | ⟨ho, heq⟩ := registerRowWait_cases hg hwo
  · rw [heq]
    exact ⟨by simp [ho], nofun⟩
  · rw [heq]
    exact ⟨by simp [ho], fun _ _ _ => waitsFor_erase⟩

theorem deadlocks_found_cycle :
    TransGen (WaitsFor (Run.after RowWaits.step ∅ [.register 3 2, .register 2 1] 2)) 3 1 :=
  ((deadlocks_found _ _).2.2 1 3 (by decide)).1.mp (by decide)

end RadixDb.RowWaits
