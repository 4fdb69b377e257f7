import Mathlib

/-!
# Search for the place where a test fails

`partitionPoint` halves an interval of places until the test holds before a place and fails from it
on. The test may refuse. **If the test holds up to a place and fails from there on, the search finds
the place** (`partitionPoint_eq`). A test that holds at every place before one where it holds has
such a place (`exists_partitionPoint`).
-/

set_option autoImplicit false

/-- The first place in `low .. high` where the test fails. The distance halves with every turn, so
`fuel` turns are enough if it is at least the distance. -/
def partitionPoint {ε : Type} (test : ℕ → Except ε Bool) : ℕ → ℕ → ℕ → Except ε ℕ
  | 0, low, _ => .ok low
  | fuel + 1, low, high =>
    if low < high then
      let middle := low + (high - low) / 2
      match test middle with
      | .error e => .error e
      | .ok true => partitionPoint test fuel (middle + 1) high
      | .ok false => partitionPoint test fuel low middle
    else .ok low

/-- **The search** finds the place where the test fails first. -/
theorem partitionPoint_eq {ε : Type} {test : ℕ → Except ε Bool} {place : ℕ} {fuel low high : ℕ}
    (hfuel : high - low ≤ fuel) (hlow : low ≤ place) (hhigh : place ≤ high)
    (htest : ∀ i, low ≤ i → i < high → test i = .ok (decide (i < place))) :
    partitionPoint test fuel low high = .ok place := by
  induction fuel generalizing low high with
  | zero =>
    obtain rfl : low = place := by omega
    rfl
  | succ fuel ih =>
    rw [partitionPoint]
    by_cases hlt : low < high
    · have hmiddle := htest (low + (high - low) / 2) (by omega) (by omega)
      simp only [if_pos hlt, hmiddle]
      by_cases hbefore : low + (high - low) / 2 < place
      · simp only [decide_eq_true hbefore]
        exact ih (by omega) (by omega) hhigh fun i hi hi' => htest i (by omega) hi'
      · simp only [decide_eq_false hbefore]
        exact ih (by omega) hlow (by omega) fun i hi hi' => htest i hi (by omega)
    · obtain rfl : low = place := by omega
      rw [if_neg hlt]

theorem exists_partition (test : ℕ → Bool) (n : ℕ)
    (h : ∀ i j, i < j → j < n → test j = true → test i = true) :
    ∃ place ≤ n, ∀ i < n, test i = decide (i < place) := by
  induction n with
  | zero => exact ⟨0, Nat.le_refl 0, nofun⟩
  | succ n ih =>
    cases hlast : test n with
    | true =>
      refine ⟨n + 1, Nat.le_refl _, fun i hi => ?_⟩
      rw [decide_eq_true hi]
      rcases Nat.lt_or_eq_of_le (Nat.le_of_lt_succ hi) with hi | rfl
      · exact h i n hi (Nat.lt_succ_self n) hlast
      · exact hlast
    | false =>
      obtain ⟨place, hle, hplace⟩ := ih fun i j hij hj => h i j hij (Nat.lt_succ_of_lt hj)
      refine ⟨place, Nat.le_succ_of_le hle, fun i hi => ?_⟩
      rcases Nat.lt_or_eq_of_le (Nat.le_of_lt_succ hi) with hi | rfl
      · exact hplace i hi
      · rw [hlast, decide_eq_false (Nat.not_lt.mpr hle)]

theorem exists_partitionPoint {ε : Type} {n : ℕ} {test : ℕ → Except ε Bool} {holds : ℕ → Bool}
    (htest : ∀ i < n, test i = .ok (holds i))
    (h : ∀ i j, i < j → j < n → holds j = true → holds i = true) :
    ∃ place ≤ n, partitionPoint test n 0 n = .ok place ∧ ∀ i < n, holds i = decide (i < place) := by
  obtain ⟨place, hle, hplace⟩ := exists_partition holds n h
  refine ⟨place, hle, partitionPoint_eq (Nat.le_refl n) (Nat.zero_le _) hle fun i _ hi => ?_,
    hplace⟩
  rw [htest i hi, hplace i hi]
