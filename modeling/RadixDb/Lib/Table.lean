import Mathlib

/-!
# Finite tables

A table is Mathlib's association list with duplicate-free keys, at a constant value type. What
this file adds to it is what the code's hash maps and ordered trees are asked for beyond single
look-ups: dropping every entry a predicate rejects (`retain`), and reading the keys out in
ascending order (`sortedKeys`).

Every look-up lemma is stated with one `if` on the key, so that a proof about an updated table
is one `split` away from a proof about the table it was made from.
-/

set_option autoImplicit false

/-- A finite map from `K` to `V`. -/
abbrev Table (K V : Type) := AList (fun _ : K => V)

namespace Table

open List Option

variable {K V : Type} [DecidableEq K] (t : Table K V)

theorem lookup_insert_if (k x : K) (v : V) :
    (t.insert k v).lookup x = if x = k then some v else t.lookup x := by
  by_cases h : x = k
  · subst h
    simp
  · rw [AList.lookup_insert_ne h, if_neg h]

theorem lookup_erase_if (k x : K) : (t.erase k).lookup x = if x = k then none else t.lookup x := by
  by_cases h : x = k
  · subst h
    simp
  · rw [AList.lookup_erase_ne h, if_neg h]

variable {t : Table K V} {k : K} {v : V}

theorem mem_iff_lookup : k ∈ t ↔ ∃ v, t.lookup k = some v := by
  rw [← AList.lookup_isSome, isSome_iff_exists]

theorem mem_of_lookup (h : t.lookup k = some v) : k ∈ t :=
  mem_iff_lookup.mpr ⟨v, h⟩

theorem not_mem_of_lookup (h : t.lookup k = none) : k ∉ t :=
  AList.lookup_eq_none.mp h

theorem mem_entries_iff : (⟨k, v⟩ : Σ _ : K, V) ∈ t.entries ↔ t.lookup k = some v := by
  rw [← mem_def, AList.mem_lookup_iff]

/-! ## Keeping the entries a predicate accepts -/

/-- Drop every entry that `p` rejects. -/
def retain (p : K → V → Bool) (t : Table K V) : Table K V :=
  ⟨t.entries.filter fun e => p e.1 e.2, t.nodupKeys.sublist List.filter_sublist⟩

theorem lookup_retain (p : K → V → Bool) (t : Table K V) (x : K) :
    (t.retain p).lookup x = (t.lookup x).filter (p x) := by
  apply ext
  intro v
  rw [← mem_entries_iff, filter_eq_some_iff, ← mem_entries_iff]
  simp [retain]

theorem mem_retain {p : K → V → Bool} {x : K} :
    x ∈ t.retain p ↔ ∃ v, t.lookup x = some v ∧ p x v = true := by
  simp [mem_iff_lookup, lookup_retain, filter_eq_some_iff]

theorem retain_eq_self {p : K → V → Bool} (h : ∀ k v, t.lookup k = some v → p k v = true) :
    t.retain p = t := by
  apply AList.ext
  refine filter_eq_self.mpr fun e he => ?_
  exact h e.1 e.2 (mem_entries_iff.mp he)

/-! ## Changing the entries that another table names -/

/-- Set or remove one entry. -/
def alter (t : Table K V) (k : K) : Option V → Table K V
  | some v => t.insert k v
  | none => t.erase k

theorem lookup_alter (t : Table K V) (k x : K) (o : Option V) :
    (t.alter k o).lookup x = if x = k then o else t.lookup x := by
  cases o with
  | some v => exact lookup_insert_if t k x v
  | none => exact lookup_erase_if t k x

/-- Make of the entry of each key of `changes` what `f` says. -/
def merge {W : Type} (t : Table K V) (changes : Table K W) (f : K → W → Option V → Option V) :
    Table K V :=
  changes.entries.foldl (fun t e => t.alter e.1 (f e.1 e.2 (t.lookup e.1))) t

theorem lookup_merge {W : Type} (t : Table K V) (changes : Table K W)
    (f : K → W → Option V → Option V) (x : K) :
    (t.merge changes f).lookup x =
      (changes.lookup x).elim (t.lookup x) fun w => f x w (t.lookup x) := by
  -- each key occurs once, so the other turns leave its entry alone
  have main : ∀ (l : List (Σ _ : K, W)), l.NodupKeys → ∀ t : Table K V,
      (l.foldl (fun t e => t.alter e.1 (f e.1 e.2 (t.lookup e.1))) t).lookup x =
        (l.dlookup x).elim (t.lookup x) fun w => f x w (t.lookup x) := by
    intro l
    induction l with
    | nil => exact fun _ _ => rfl
    | cons e l ih =>
      intro hnodup t
      rw [foldl_cons, ih (nodupKeys_cons.mp hnodup).2, lookup_alter]
      by_cases hx : x = e.1
      · subst hx
        rw [dlookup_eq_none.mpr (nodupKeys_cons.mp hnodup).1, dlookup_cons_eq]
        simp
      · rw [dlookup_cons_ne _ _ hx, if_neg hx]
  exact main changes.entries changes.nodupKeys t

/-! ## Sizes -/

theorem length_keys_insert (h : k ∉ t) : (t.insert k v).keys.length = t.keys.length + 1 := by
  rw [AList.keys_insert, erase_of_not_mem (fun hk => h (AList.mem_keys.mpr hk))]
  rfl

theorem length_keys_erase (h : k ∈ t) : (t.erase k).keys.length + 1 = t.keys.length := by
  have hk : k ∈ t.keys := AList.mem_keys.mp h
  rw [AList.keys_erase, length_erase_of_mem hk]
  exact Nat.sub_add_cancel (length_pos_of_mem hk)

theorem erase_of_not_mem (h : k ∉ t) : t.erase k = t := by
  apply AList.ext
  exact kerase_of_notMem_keys (fun hk => h (AList.mem_keys.mpr hk))

/-! ## Keys in ascending order -/

section

variable {K V : Type} [LinearOrder K]

/-- The keys, smallest first. -/
def sortedKeys (t : Table K V) : List K := t.keys.insertionSort (· ≤ ·)

theorem mem_sortedKeys {t : Table K V} {k : K} : k ∈ t.sortedKeys ↔ k ∈ t := by
  rw [sortedKeys, mem_insertionSort, AList.mem_keys]

theorem nodup_sortedKeys (t : Table K V) : t.sortedKeys.Nodup :=
  (perm_insertionSort (· ≤ ·) t.keys).nodup_iff.mpr t.keys_nodup

end

end Table
