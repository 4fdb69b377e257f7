import Mathlib

/-!
# Runs of a step function

A machine is a step function `step : σ → α → σ × ρ`: a state and an operation give the next
state and what the operation returned. A run is a list of operations; its *moments* are counted
by how many operations have been executed, so that moment `0` is the start, operation `k` takes
moment `k` to moment `k + 1`, and "between" and "before" are comparisons of numbers.

Three rules carry every temporal statement of the development:

* `after_invariant`: what every step keeps holds at every moment;
* `after_of_le`: what every step keeps, once it holds, holds at every later moment;
* `after_while`: the same when only the steps that meet a side condition keep it.
-/

set_option autoImplicit false

namespace Run

open List

variable {σ α ρ : Type} (step : σ → α → σ × ρ)

/-- The state at moment `m`: after the first `m` operations of the run. -/
def after (s : σ) (ops : List α) (m : Nat) : σ :=
  (ops.take m).foldl (fun s a => (step s a).1) s

/-- What operation number `k` returned. -/
def outcome (s : σ) (ops : List α) (k : Nat) : Option ρ :=
  ops[k]?.map fun a => (step (Run.after step s ops k) a).2

/-- Everything the run returned, in order. -/
def outcomes : σ → List α → List ρ
  | _, [] => []
  | s, a :: ops => (step s a).2 :: outcomes (step s a).1 ops

variable {step} {s : σ} {ops : List α} {a : α} {k m i : Nat} {P : σ → Prop}

theorem after_succ (h : ops[k]? = some a) :
    Run.after step s ops (k + 1) = (step (Run.after step s ops k) a).1 := by
  simp [Run.after, take_add_one, h]

theorem after_succ_of_none (h : ops[k]? = none) :
    Run.after step s ops (k + 1) = Run.after step s ops k := by
  simp [Run.after, take_add_one, h]

theorem outcome_of_get (h : ops[k]? = some a) :
    outcome step s ops k = some (step (Run.after step s ops k) a).2 := by
  simp [outcome, h]

/-- A run of `ops ++ more` is at the moments of `ops` where the run of `ops` is. -/
theorem after_append_left {more : List α} (h : m ≤ ops.length) :
    Run.after step s (ops ++ more) m = Run.after step s ops m := by
  simp [Run.after, take_append_of_le_length h]

/-! ## The rules -/

/-- What operation `k` keeps while `Q k` holds survives from moment `i` to moment `m` when `Q` holds
in between. -/
theorem after_while {Q : Nat → Prop} (him : i ≤ m) (hi : P (Run.after step s ops i))
    (hQ : ∀ k, i ≤ k → k < m → Q k)
    (hstep : ∀ k a, i ≤ k → ops[k]? = some a → Q k → P (Run.after step s ops k) →
      P (step (Run.after step s ops k) a).1) : P (Run.after step s ops m) := by
  induction m, him using Nat.le_induction with
  | base => exact hi
  | succ m him ih =>
    have hm := ih fun k hk hkm => hQ k hk (Nat.lt_succ_of_lt hkm)
    cases ha : ops[m]? with
    | none => rw [after_succ_of_none ha]; exact hm
    | some a => rw [after_succ ha]; exact hstep m a him ha (hQ m him (Nat.lt_succ_self m)) hm

/-- What every step keeps holds at every moment from the one where it first holds. -/
theorem after_of_le (him : i ≤ m) (hi : P (Run.after step s ops i))
    (hstep : ∀ s a, P s → P (step s a).1) : P (Run.after step s ops m) :=
  after_while (Q := fun _ => True) him hi (fun _ _ _ => trivial) fun _ _ _ _ _ h => hstep _ _ h

theorem after_invariant (h0 : P s) (hstep : ∀ s a, P s → P (step s a).1) (m : Nat) :
    P (Run.after step s ops m) :=
  after_of_le (Nat.zero_le m) h0 hstep

theorem after_mono {f : σ → Int} (hstep : ∀ s a, f s ≤ f (step s a).1) (him : i ≤ m) :
    f (Run.after step s ops i) ≤ f (Run.after step s ops m) :=
  after_of_le (P := fun t => f (Run.after step s ops i) ≤ f t) him le_rfl
    fun s a h => h.trans (hstep s a)

/-! ## Numbers a run hands out -/

theorem after_cons (m : Nat) :
    Run.after step s (a :: ops) (m + 1) = Run.after step (step s a).1 ops m := rfl

/-- If each operation hands out at most one number, and only by raising a counter from below it to
at least it, then the numbers a run hands out are strictly increasing, above the counter at the
start and not above the counter at the end. -/
theorem pairwise_outcomes {f : ρ → Option Int} {c : σ → Int}
    (hP : ∀ s a, P s → P (step s a).1) (hc : ∀ s a, P s → c s ≤ c (step s a).1)
    (hf : ∀ s a q, P s → f (step s a).2 = some q → c s < q ∧ q ≤ c (step s a).1) (h0 : P s) :
    ((outcomes step s ops).filterMap f).Pairwise (· < ·) ∧
      ∀ q ∈ (outcomes step s ops).filterMap f,
        c s < q ∧ q ≤ c (Run.after step s ops ops.length) := by
  induction ops generalizing s with
  | nil => simp [outcomes]
  | cons a ops ih =>
    obtain ⟨hsorted, hbds⟩ := ih (hP s a h0)
    have hstep := hc s a h0
    have hend : c (step s a).1 ≤ c (Run.after step (step s a).1 ops ops.length) :=
      (after_of_le (P := fun t => P t ∧ c (step s a).1 ≤ c t) (Nat.zero_le ops.length)
        ⟨hP s a h0, le_rfl⟩ fun t b ht => ⟨hP t b ht.1, ht.2.trans (hc t b ht.1)⟩).2
    simp only [outcomes, length_cons, after_cons]
    cases hq : f (step s a).2 with
    | none =>
      rw [filterMap_cons_none hq]
      exact ⟨hsorted, fun q hmem => ⟨hstep.trans_lt (hbds q hmem).1, (hbds q hmem).2⟩⟩
    | some q =>
      obtain ⟨hlo, hhi⟩ := hf s a q h0 hq
      rw [filterMap_cons_some hq]
      exact ⟨pairwise_cons.mpr ⟨fun x hx => hhi.trans_lt (hbds x hx).1, hsorted⟩,
        forall_mem_cons.mpr ⟨⟨hlo, hhi.trans hend⟩,
          fun x hx => ⟨hstep.trans_lt (hbds x hx).1, (hbds x hx).2⟩⟩⟩

end Run
