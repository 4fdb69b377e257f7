import Mathlib

/-!
# Ordered trees

An ordered tree with a comparison function is seen as the list of its entries from left to right.
A search goes right as long as the key it looks for is above the keys it meets, and a range is what
lies between two such places. Nothing is assumed of the comparison in the definitions.

The lemmas ask for one thing: on the keys of the tree and the key that is looked for the comparison
follows a key into a linear order (`Follows`). Then **a search finds the entry of an equal key, and
a range consists of the entries within its bounds** (`getKeyValue_eq_some`, `mem_fromLower`,
`mem_toUpper`), and updates change the entry of one key (`mem_upsert`, `mem_alter`).
-/

set_option autoImplicit false

/-- On `S` the comparison is that of the images under `key`. -/
def Follows {κ K : Type} [LinearOrder K] (cmp : κ → κ → Ordering) (key : κ → K) (S : Set κ) :
    Prop :=
  ∀ a ∈ S, ∀ b ∈ S, (cmp a b).Compares (key a) (key b)

theorem Follows.mono {κ K : Type} [LinearOrder K] {cmp : κ → κ → Ordering} {key : κ → K}
    {S T : Set κ} (h : Follows cmp key T) (hST : ∀ a ∈ S, a ∈ T) : Follows cmp key S :=
  fun a ha b hb => h a (hST a ha) b (hST b hb)

theorem Follows.swap {κ K : Type} [LinearOrder K] {cmp : κ → κ → Ordering} {key : κ → K} {S : Set κ}
    (h : Follows cmp key S) {a b : κ} (ha : a ∈ S) (hb : b ∈ S) : cmp b a = (cmp a b).swap :=
  (h b hb a ha).inj (Ordering.compares_swap.mpr (h a ha b hb))

namespace OrderedMap

open List

variable {κ ν K : Type} (cmp : κ → κ → Ordering)

inductive Bound (κ : Type) where
  | unbounded
  | included (k : κ)
  | excluded (k : κ)

/-- Where the search for a key ends: behind the entries that it is above. -/
def getKeyValue (k : κ) (m : List (κ × ν)) : Option (κ × ν) :=
  match m.dropWhile fun e => cmp k e.1 == .gt with
  | e :: _ => if cmp k e.1 = .eq then some e else none
  | [] => none

/-- Make a value of the one that is there, or put a new one there. The key that is there stays. -/
def upsert (k : κ) (f : Option ν → ν) : List (κ × ν) → List (κ × ν)
  | [] => [(k, f none)]
  | e :: m =>
    match cmp k e.1 with
    | .gt => e :: upsert k f m
    | .eq => (e.1, f (some e.2)) :: m
    | .lt => (k, f none) :: e :: m

/-- Make a value of the one that is there, or remove the entry. -/
def alter (k : κ) (f : ν → Option ν) : List (κ × ν) → List (κ × ν)
  | [] => []
  | e :: m =>
    match cmp k e.1 with
    | .gt => e :: alter k f m
    | .eq => match f e.2 with
      | some v => (e.1, v) :: m
      | none => m
    | .lt => e :: m

def fromLower (m : List (κ × ν)) : Bound κ → List (κ × ν)
  | .unbounded => m
  | .included k => m.dropWhile fun e => cmp k e.1 == .gt
  | .excluded k => m.dropWhile fun e => cmp k e.1 != .lt

def toUpper (m : List (κ × ν)) : Bound κ → List (κ × ν)
  | .unbounded => m
  | .included k => m.takeWhile fun e => cmp k e.1 != .lt
  | .excluded k => m.takeWhile fun e => cmp k e.1 == .gt

def range (m : List (κ × ν)) (lower upper : Bound κ) : List (κ × ν) :=
  toUpper cmp (fromLower cmp m lower) upper

/-- The entries stand in the order of their keys. -/
def Sorted (m : List (κ × ν)) : Prop := m.Pairwise fun a b => cmp a.1 b.1 = .lt

/-- What a bound says from below and from above. -/
def Bound.AdmitsAbove : Bound κ → κ → Prop
  | .unbounded, _ => True
  | .included k, x => cmp k x ≠ .gt
  | .excluded k, x => cmp k x = .lt

def Bound.AdmitsBelow : Bound κ → κ → Prop
  | .unbounded, _ => True
  | .included k, x => cmp k x ≠ .lt
  | .excluded k, x => cmp k x = .gt

variable [LinearOrder K] {cmp} {key : κ → K} {S : Set κ} {k : κ} {m : List (κ × ν)} {e : κ × ν}

/-! ## Cutting a sorted list -/

section

variable {α : Type} {p : α → Bool} {l : List α} {x : α}
  (h : l.Pairwise fun a b => p b = true → p a = true)

include h

theorem mem_dropWhile :
    x ∈ l.dropWhile p ↔ x ∈ l ∧ p x = false := by
  induction l with
  | nil => simp
  | cons a l ih =>
    rw [pairwise_cons] at h
    cases ha : p a with
    | true =>
      rw [dropWhile_cons_of_pos ha, ih h.2, mem_cons]
      constructor
      · exact fun hx => ⟨.inr hx.1, hx.2⟩
      · rintro ⟨rfl | hx, hp⟩
        · cases ha.symm.trans hp
        · exact ⟨hx, hp⟩
    | false =>
      rw [dropWhile_cons_of_neg (by simp [ha])]
      refine (and_iff_left_of_imp fun hx => ?_).symm
      rcases mem_cons.mp hx with rfl | hx
      · exact ha
      · exact Bool.eq_false_iff.mpr fun hp => Bool.eq_false_iff.mp ha (h.1 x hx hp)

/-- What holds of a prefix holds of exactly the entries that are taken. -/
theorem mem_takeWhile : x ∈ l.takeWhile p ↔ x ∈ l ∧ p x = true := by
  refine ⟨fun hx => ⟨(takeWhile_sublist p).subset hx, all_eq_true.mp all_takeWhile x hx⟩,
    fun ⟨hx, hp⟩ => ?_⟩
  rw [← takeWhile_append_dropWhile (p := p) (l := l), mem_append, mem_dropWhile h, hp] at hx
  exact hx.resolve_right nofun

end

/-! ## Searching -/

/-- The entries that a key is above stand first, and then the one that it equals. -/
theorem Sorted.initial (hm : Sorted cmp m) (hc : Follows cmp key S) (hk : k ∈ S)
    (hS : ∀ e ∈ m, e.1 ∈ S) :
    (m.Pairwise fun a b => (cmp k b.1 == .gt) = true → (cmp k a.1 == .gt) = true) ∧
      m.Pairwise fun a b => (cmp k b.1 != .lt) = true → (cmp k a.1 != .lt) = true := by
  constructor
  all_goals
    refine hm.imp_of_mem fun {a b} ha hb hab hgt => ?_
    have hlt := (hc _ (hS a ha) _ (hS b hb)).eq_lt.mp hab
    simp only [beq_iff_eq, bne_iff_ne, ne_eq, (hc k hk _ (hS a ha)).eq_gt,
      (hc k hk _ (hS b hb)).eq_gt, (hc k hk _ (hS a ha)).eq_lt, (hc k hk _ (hS b hb)).eq_lt]
      at hgt ⊢
  · exact hlt.trans hgt
  · exact fun h => hgt (h.trans hlt)

/-- The keys are ordered with that of the bound. -/
def Bound.Placed (K : Type) [LinearOrder K] (cmp : κ → κ → Ordering) (S : Set κ) (b : Bound κ) :
    Prop :=
  ∀ k, b = .included k ∨ b = .excluded k → ∃ key : κ → K, Follows cmp key (insert k S)

theorem mem_fromLower (hm : Sorted cmp m) (hS : ∀ e ∈ m, e.1 ∈ S) {lower : Bound κ}
    (hc : lower.Placed K cmp S) :
    e ∈ fromLower cmp m lower ↔ e ∈ m ∧ lower.AdmitsAbove cmp e.1 := by
  cases lower with
  | unbounded => exact (and_iff_left trivial).symm
  | included k | excluded k =>
    obtain ⟨key, hkey⟩ := hc k (by simp)
    obtain ⟨hle, hlt⟩ := hm.initial hkey (.inl rfl) fun e he => .inr (hS e he)
    simp [fromLower, mem_dropWhile hle, mem_dropWhile hlt, Bound.AdmitsAbove]

theorem mem_toUpper (hm : Sorted cmp m) (hS : ∀ e ∈ m, e.1 ∈ S) {upper : Bound κ}
    (hc : upper.Placed K cmp S) :
    e ∈ toUpper cmp m upper ↔ e ∈ m ∧ upper.AdmitsBelow cmp e.1 := by
  cases upper with
  | unbounded => exact (and_iff_left trivial).symm
  | included k | excluded k =>
    obtain ⟨key, hkey⟩ := hc k (by simp)
    obtain ⟨hle, hlt⟩ := hm.initial hkey (.inl rfl) fun e he => .inr (hS e he)
    simp [toUpper, mem_takeWhile hle, mem_takeWhile hlt, Bound.AdmitsBelow]

theorem fromLower_sublist (m : List (κ × ν)) (lower : Bound κ) :
    (fromLower cmp m lower).Sublist m := by
  cases lower with
  | unbounded => exact List.Sublist.refl m
  | _ => exact dropWhile_sublist _

theorem toUpper_sublist (m : List (κ × ν)) (upper : Bound κ) : (toUpper cmp m upper).Sublist m := by
  cases upper with
  | unbounded => exact List.Sublist.refl m
  | _ => exact takeWhile_sublist _

theorem range_sublist (m : List (κ × ν)) (lower upper : Bound κ) :
    (range cmp m lower upper).Sublist m :=
  (toUpper_sublist _ upper).trans (fromLower_sublist m lower)

/-- **A range consists of the entries within its bounds.** Each bound may be ordered with the keys
in its own way. -/
theorem mem_range (hm : Sorted cmp m) (hS : ∀ e ∈ m, e.1 ∈ S) {lower upper : Bound κ}
    (hlower : lower.Placed K cmp S) (hupper : upper.Placed K cmp S) :
    e ∈ range cmp m lower upper ↔
      e ∈ m ∧ lower.AdmitsAbove cmp e.1 ∧ upper.AdmitsBelow cmp e.1 := by
  have hsub : (fromLower cmp m lower).Sublist m := fromLower_sublist m lower
  rw [range, mem_toUpper (hm.sublist hsub) (fun e he => hS e (hsub.subset he)) hupper,
    mem_fromLower hm hS hlower, and_assoc]

/-! ## Finding and updating one entry -/

/-- A list around the place of a key: the entry of the key, if it has one, and what stands before
and behind it. -/
structure Around (cmp : κ → κ → Ordering) (k : κ) (m before : List (κ × ν)) (here : Option (κ × ν))
    (behind : List (κ × ν)) : Prop where
  eq_append : m = before ++ (here.toList ++ behind)
  before_gt : ∀ b ∈ before, cmp k b.1 = .gt
  here_eq : ∀ d ∈ here, cmp k d.1 = .eq
  behind_lt : ∀ b ∈ behind, cmp k b.1 = .lt

section

variable {before behind : List (κ × ν)} {here : Option (κ × ν)}

omit [LinearOrder K]

section

variable (h : Around cmp k m before here behind)

include h

theorem Around.upsert_eq (f : Option ν → ν) :
    upsert cmp k f m =
      before ++ here.elim (k, f none) (fun d => (d.1, f (some d.2))) :: behind := by
  obtain ⟨rfl, hbefore, hhere, hbehind⟩ := h
  induction before with
  | nil =>
    cases here with
    | some d => simp [upsert, hhere d rfl]
    | none =>
      cases behind with
      | nil => rfl
      | cons b behind => simp [upsert, hbehind b mem_cons_self]
  | cons b before ih =>
    obtain ⟨hb, hbefore⟩ := forall_mem_cons.mp hbefore
    simp [upsert, hb, ih hbefore]

theorem Around.alter_eq (f : ν → Option ν) :
    alter cmp k f m =
      before ++ ((here.bind fun d => (f d.2).map fun v => (d.1, v)).toList ++ behind) := by
  obtain ⟨rfl, hbefore, hhere, hbehind⟩ := h
  induction before with
  | nil =>
    cases here with
    | some d => cases hf : f d.2 <;> simp [alter, hhere d rfl, hf]
    | none =>
      cases behind with
      | nil => rfl
      | cons b behind => simp [alter, hbehind b mem_cons_self]
  | cons b before ih =>
    obtain ⟨hb, hbefore⟩ := forall_mem_cons.mp hbefore
    simp [alter, hb, ih hbefore]

theorem Around.getKeyValue_eq : getKeyValue cmp k m = here := by
  obtain ⟨rfl, hbefore, hhere, hbehind⟩ := h
  rw [getKeyValue, dropWhile_append_of_pos (fun b hb => by simp [hbefore b hb])]
  cases here with
  | some d => simp [hhere d rfl]
  | none =>
    cases behind with
    | nil => rfl
    | cons b behind => simp [hbehind b mem_cons_self]

theorem Around.mem_iff :
    (e ∈ m ∧ cmp k e.1 ≠ .eq ↔ e ∈ before ∨ e ∈ behind) ∧
      (e ∈ m ∧ cmp k e.1 = .eq ↔ here = some e) := by
  obtain ⟨rfl, hbefore, hhere, hbehind⟩ := h
  grind

end

end

section

variable (hm : Sorted cmp m) (hc : Follows cmp key S) (hk : k ∈ S) (hS : ∀ e ∈ m, e.1 ∈ S)
include hm hc hk hS

theorem Sorted.exists_around : ∃ before here behind, Around cmp k m before here behind := by
  induction m with
  | nil => exact ⟨[], none, [], rfl, by simp, by simp, by simp⟩
  | cons d l ih =>
    obtain ⟨hhead, htail⟩ := pairwise_cons.mp hm
    obtain ⟨hd, hStail⟩ := forall_mem_cons.mp hS
    have hlt : cmp k d.1 ≠ .gt → ∀ b ∈ l, cmp k b.1 = .lt := by
      intro hgt b hb
      rw [Ne, (hc k hk _ hd).eq_gt, not_lt] at hgt
      exact (hc k hk _ (hStail b hb)).eq_lt.mpr
        (hgt.trans_lt ((hc _ hd _ (hStail b hb)).eq_lt.mp (hhead b hb)))
    cases hcmp : cmp k d.1 with
    | gt =>
      obtain ⟨before, here, behind, rfl, hbefore, hhere, hbehind⟩ := ih htail hStail
      exact ⟨d :: before, here, behind, rfl, forall_mem_cons.mpr ⟨hcmp, hbefore⟩, hhere,
        hbehind⟩
    | eq => exact ⟨[], some d, l, rfl, by simp, by simpa using hcmp, hlt (by simp [hcmp])⟩
    | lt =>
      exact ⟨[], none, d :: l, rfl, by simp, by simp,
        forall_mem_cons.mpr ⟨hcmp, hlt (by simp [hcmp])⟩⟩

/-- **A search finds the entry of an equal key.** -/
theorem getKeyValue_eq_some : getKeyValue cmp k m = some e ↔ e ∈ m ∧ cmp k e.1 = .eq := by
  obtain ⟨before, here, behind, h⟩ := hm.exists_around hc hk hS
  rw [h.getKeyValue_eq, h.mem_iff.2]

omit hk in
theorem Sorted.eq_of_cmp_eq {d : κ × ν} (hd : d ∈ m) (he : e ∈ m) (h : cmp d.1 e.1 = .eq) :
    d = e := by
  have hfind := (getKeyValue_eq_some hm hc (hS d hd) hS).mpr ⟨he, h⟩
  have hself := (getKeyValue_eq_some hm hc (hS d hd) hS).mpr
    ⟨hd, (hc _ (hS d hd) _ (hS d hd)).eq_eq.mpr rfl⟩
  exact Option.some.inj (hself.symm.trans hfind)

/-- **`upsert` changes the entry of the equal key, or adds one.** -/
theorem mem_upsert {f : Option ν → ν} : e ∈ upsert cmp k f m ↔ e ∈ m ∧ cmp k e.1 ≠ .eq ∨
    e = (getKeyValue cmp k m).elim (k, f none) fun d => (d.1, f (some d.2)) := by
  obtain ⟨before, here, behind, h⟩ := hm.exists_around hc hk hS
  rw [h.upsert_eq, h.getKeyValue_eq, h.mem_iff.1, mem_append, mem_cons, or_right_comm, or_assoc]

/-- **`alter` changes the entry of the equal key, or removes it.** -/
theorem mem_alter {f : ν → Option ν} : e ∈ alter cmp k f m ↔ e ∈ m ∧ cmp k e.1 ≠ .eq ∨
    ((getKeyValue cmp k m).bind fun d => (f d.2).map fun v => (d.1, v)) = some e := by
  obtain ⟨before, here, behind, h⟩ := hm.exists_around hc hk hS
  rw [h.alter_eq, h.getKeyValue_eq, h.mem_iff.1, mem_append, mem_append,
    Option.mem_toList, or_right_comm, or_assoc]

omit hc hk hS in
/-- An entry may stand in the place of the key if its key is the one that stands there. -/
theorem Around.sorted {before behind : List (κ × ν)} {d x : κ × ν}
    (h : Around cmp k m before (some d) behind) (hx : x.1 = d.1) :
    Sorted cmp (before ++ x :: behind) := by
  rw [h.eq_append] at hm
  simpa [Sorted, pairwise_append, hx] using hm

theorem sorted_upsert {f : Option ν → ν} : Sorted cmp (upsert cmp k f m) := by
  obtain ⟨before, here, behind, h⟩ := hm.exists_around hc hk hS
  rw [h.upsert_eq]
  cases here with
  | some d => exact h.sorted hm rfl
  | none =>
    rw [Sorted, h.eq_append] at hm
    obtain ⟨hbefore, hbehind, hcross⟩ := pairwise_append.mp hm
    refine pairwise_append.mpr ⟨hbefore, pairwise_cons.mpr ⟨h.behind_lt, hbehind⟩, ?_⟩
    intro b hb c hbc
    obtain rfl | hbc := mem_cons.mp hbc
    · rw [Option.elim_none, hc.swap hk (hS b (h.eq_append ▸ mem_append_left _ hb)),
        h.before_gt b hb]
      rfl
    · exact hcross b hb c hbc

theorem sorted_alter {f : ν → Option ν} : Sorted cmp (alter cmp k f m) := by
  obtain ⟨before, here, behind, h⟩ := hm.exists_around hc hk hS
  rw [h.alter_eq]
  cases here with
  | none => exact h.eq_append ▸ hm
  | some d =>
    cases hf : f d.2 with
    | none =>
      rw [h.eq_append] at hm
      exact hm.sublist (by simp [hf])
    | some v => simpa [hf] using h.sorted (x := (d.1, v)) hm rfl

end

end OrderedMap
