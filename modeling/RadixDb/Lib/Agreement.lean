import Mathlib

/-!
# Order, equality and hash words that agree

A type whose values are kept both in ordered trees and in hash tables has three relations: a
comparison, an equality and a hash word. They agree on a set of values (`Agrees`) if the comparison
is a total order up to equality, its equal values are the equal ones, and equal values have one
word.

The rule to prove it is a key: **a comparison that follows a key into a linear order is an order**
(`Agrees.of_key`).
-/

set_option autoImplicit false

/-- The three relations agree on `S`. -/
structure Agrees {α W : Type} (S : Set α) (compare : α → α → Ordering) (eq : α → α → Bool)
    (word : α → W) : Prop where
  /-- Of two values one is not above the other, and both only if they are equal. -/
  swap : ∀ a ∈ S, ∀ b ∈ S, compare b a = (compare a b).swap
  trans : ∀ a ∈ S, ∀ b ∈ S, ∀ c ∈ S, compare a b ≠ .gt → compare b c ≠ .gt → compare a c ≠ .gt
  eq_iff : ∀ a ∈ S, ∀ b ∈ S, compare a b = .eq ↔ eq a b = true
  word_eq : ∀ a ∈ S, ∀ b ∈ S, eq a b = true → word a = word b

namespace Agrees

variable {α W κ : Type} [LinearOrder κ] {S : Set α} {compare : α → α → Ordering}
  {eq : α → α → Bool} {word : α → W}

theorem ne_gt_iff {o : Ordering} {x y : κ} (h : o.Compares x y) : o ≠ .gt ↔ x ≤ y := by
  rw [Ne, h.eq_gt, not_lt]

theorem of_key (key : α → κ) (hcmp : ∀ a ∈ S, ∀ b ∈ S, (compare a b).Compares (key a) (key b))
    (heq : ∀ a ∈ S, ∀ b ∈ S, compare a b = .eq ↔ eq a b = true)
    (hword : ∀ a ∈ S, ∀ b ∈ S, key a = key b → word a = word b) : Agrees S compare eq word where
  swap a ha b hb :=
    (hcmp b hb a ha).inj ((Ordering.compares_swap).mpr (hcmp a ha b hb))
  trans a ha b hb c hc hab hbc := by
    rw [ne_gt_iff (hcmp a ha b hb)] at hab
    rw [ne_gt_iff (hcmp b hb c hc)] at hbc
    exact (ne_gt_iff (hcmp a ha c hc)).mpr (hab.trans hbc)
  eq_iff := heq
  word_eq a ha b hb h := by
    have hc := (heq a ha b hb).mpr h
    exact hword a ha b hb ((hcmp a ha b hb).eq_eq.mp hc)

theorem eq_trans (h : Agrees S compare eq word) {a b c : α} (ha : a ∈ S) (hb : b ∈ S) (hc : c ∈ S)
    (hab : compare a b = .eq) (hbc : compare b c = .eq) : compare a c = .eq := by
  have hba : compare b a = .eq := by rw [h.swap a ha b hb, hab]; rfl
  have hcb : compare c b = .eq := by rw [h.swap b hb c hc, hbc]; rfl
  have hac := h.trans a ha b hb c hc (by rw [hab]; decide) (by rw [hbc]; decide)
  have hca := h.trans c hc b hb a ha (by rw [hcb]; decide) (by rw [hba]; decide)
  rw [h.swap a ha c hc] at hca
  revert hac hca
  cases compare a c <;> decide

end Agrees
