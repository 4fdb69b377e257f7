import Mathlib

/-!
# Computations that may panic

A computation of a program that indexes, slices and adds machine words ends in one of three ways: it
returns a value, it returns an error, or it panics. `Checked ε α` is that, as an `Except` whose
errors are of two kinds. The operations that may panic are here: `slice`, `index`, `add`, `mul` and
`expect`.

`Ensures x P` says that `x` does not panic, and that a value it returns satisfies `P`. It is proved
by going through the computation: a step ensures what the next one needs (`Ensures.bind`).
-/

set_option autoImplicit false

/-! ## Steps and loops that may fail -/

variable {α β ε : Type} {b : β} {f : α → Except ε β} {i : ℕ} {m : List β} {x : Except ε α}

theorem Except.bind_eq_ok : (x >>= f) = .ok b ↔ ∃ a, x = .ok a ∧ f a = .ok b := by
  cases x with
  | error e => exact ⟨nofun, nofun⟩
  | ok a =>
    refine ⟨fun h => ⟨a, rfl, h⟩, ?_⟩
    rintro ⟨a', ha, h⟩
    cases ha
    exact h

/-- What a computation that succeeds did first, and what it did then. -/
theorem ok_of_bind (h : (x >>= f) = .ok b) : ∃ a, x = .ok a ∧ f a = .ok b :=
  Except.bind_eq_ok.mp h

theorem ok_bind (a : α) : ((.ok a : Except ε α) >>= f) = f a := rfl

variable {l : List α} {R : α → β → Prop}

theorem List.Forall₂.exists_right (h : Forall₂ R l m) {a : α}
    (ha : l[i]? = some a) : ∃ b, m[i]? = some b ∧ R a b := by
  induction h generalizing i with
  | nil => cases ha
  | @cons x y l m hxy _ ih =>
    cases i with
    | zero =>
      cases ha
      exact ⟨y, rfl, hxy⟩
    | succ i => exact ih ha

theorem List.Forall₂.exists_left (h : Forall₂ R l m)
    (hb : m[i]? = some b) : ∃ a, l[i]? = some a ∧ R a b :=
  h.flip.exists_right hb

theorem List.getElem?_zip_some {a : α} (ha : l[i]? = some a)
    (hb : m[i]? = some b) : (l.zip m)[i]? = some (a, b) :=
  getElem?_zip_eq_some.mpr ⟨ha, hb⟩

theorem List.flatten_split {L : List (List α)} {l : List α} (hi : L[i]? = some l) :
    L.flatten = (L.take i).flatten ++ (l ++ (L.drop (i + 1)).flatten) := by
  obtain ⟨hlt, rfl⟩ := getElem?_eq_some_iff.mp hi
  conv_lhs => rw [← take_append_drop i L, drop_eq_getElem_cons hlt]
  rw [flatten_append, flatten_cons]

theorem List.forall₂_of_mapM {r : List β} (h : l.mapM f = .ok r) :
    Forall₂ (fun a b => f a = .ok b) l r := by
  induction l generalizing r with
  | nil =>
    cases h
    exact .nil
  | cons a l ih =>
    simp only [mapM_cons, bind, pure] at h
    obtain ⟨b, ha, h⟩ := Except.bind_eq_ok.mp h
    obtain ⟨bs, hl, h⟩ := Except.bind_eq_ok.mp h
    cases h
    exact .cons ha (ih hl)

theorem List.mapM_of_forall₂ {r : List β}
    (h : Forall₂ (fun a b => f a = .ok b) l r) : l.mapM f = .ok r := by
  induction h with
  | nil => rfl
  | cons ha _ ih =>
    rw [mapM_cons, ha, ih]
    rfl

theorem List.mapM_eq_ok {g : α → β} (h : ∀ a ∈ l, f a = .ok (g a)) : l.mapM f = .ok (l.map g) :=
  mapM_of_forall₂ (forall₂_map_right_iff.mpr (forall₂_same.mpr h))

theorem List.exists_forall₂ (h : ∀ a ∈ l, ∃ b, R a b) : ∃ m, Forall₂ R l m := by
  induction l with
  | nil => exact ⟨[], .nil⟩
  | cons a l ih =>
    obtain ⟨⟨b, hb⟩, hl⟩ := forall_mem_cons.mp h
    obtain ⟨m, hm⟩ := ih hl
    exact ⟨b :: m, .cons hb hm⟩

theorem List.exists_mapM (h : ∀ a ∈ l, ∃ b, f a = .ok b) : ∃ bs, l.mapM f = .ok bs :=
  (exists_forall₂ h).imp fun _ => mapM_of_forall₂

theorem List.forM_eq_ok_iff {f : α → Except ε PUnit} :
    l.forM f = .ok () ↔ ∀ a ∈ l, f a = .ok () := by
  induction l with
  | nil => exact ⟨fun _ => nofun, fun _ => rfl⟩
  | cons a l ih =>
    rw [forall_mem_cons, ← ih]
    cases ha : f a with
    | error e | ok u => simp [List.forM, ha, bind, Except.bind]

/-! ## Operations -/

/-- What stops a computation. -/
inductive Fault (ε : Type) where
  | error (e : ε)
  | panic (message : String)
deriving DecidableEq

abbrev Checked (ε α : Type) := Except (Fault ε) α

namespace Checked

open List Except

variable {ε α β : Type}

/-- Return an error. -/
def fail (e : ε) : Checked ε α := .error (.error e)

/-- A computation that does not panic. -/
def ofExcept : Except ε α → Checked ε α
  | .ok a => .ok a
  | .error e => .error (.error e)

variable {a : α} {b : ℕ} {f : α → Checked ε β}

theorem ofExcept_eq_ok {x : Except ε α} : ofExcept x = .ok a ↔ x = .ok a := by
  cases x with
  | ok b => exact ⟨fun h => by cases h; rfl, fun h => by cases h; rfl⟩
  | error e => exact ⟨nofun, nofun⟩

/-- Numbers of a machine word. -/
def wordSize : ℕ := 2 ^ 64

/-- `l[start..stop]`. -/
def slice (l : List α) (start stop : ℕ) : Checked ε (List α) :=
  if start ≤ stop ∧ stop ≤ l.length then .ok ((l.drop start).take (stop - start))
  else .error (.panic "range is out of bounds")

/-- `l[i]`. -/
def index (l : List α) (i : ℕ) : Checked ε α :=
  match l[i]? with
  | some a => .ok a
  | none => .error (.panic "index out of bounds")

/-- `a + b`. -/
def add (a b : ℕ) : Checked ε ℕ :=
  if a + b < wordSize then .ok (a + b) else .error (.panic "attempt to add with overflow")

/-- `a * b`. -/
def mul (a b : ℕ) : Checked ε ℕ :=
  if a * b < wordSize then .ok (a * b) else .error (.panic "attempt to multiply with overflow")

/-- `a.checked_add(b)`, and an error if there is no sum. -/
def checkedAdd (a b : ℕ) (e : ε) : Checked ε ℕ := if a + b < wordSize then .ok (a + b) else fail e

theorem checkedAdd_of_lt {a : ℕ} {e : ε} (h : a + b < wordSize) : checkedAdd a b e = .ok (a + b) :=
  if_pos h

/-- `expect`. -/
def expect {δ : Type} (x : Except δ α) (message : String) : Checked ε α :=
  match x with
  | .ok a => .ok a
  | .error _ => .error (.panic message)

/-! ## Without a panic -/

/-- No panic, and a returned value satisfies `P`. -/
def Ensures (x : Checked ε α) (P : α → Prop) : Prop :=
  match x with
  | .ok a => P a
  | .error (.error _) => True
  | .error (.panic _) => False

variable {P : α → Prop}

theorem Ensures.ok (h : P a) : Ensures (.ok a : Checked ε α) P := h

variable {x : Checked ε α}

theorem Ensures.of_eq (h : Ensures x P) (hx : x = .ok a) : P a := by
  rwa [hx] at h

theorem Ensures.self (h : Ensures x P) : Ensures x fun a => P a ∧ x = .ok a := by
  match x, h with
  | .ok a, h => exact ⟨h, rfl⟩
  | .error (.error _), _ => trivial

theorem Ensures.ne_panic (h : Ensures x P) (message : String) : x ≠ .error (.panic message) := by
  rintro rfl
  exact h

theorem Ensures.mono {Q : α → Prop} (h : Ensures x P) (hPQ : ∀ a, P a → Q a) : Ensures x Q := by
  match x, h with
  | .ok a, h => exact hPQ a h
  | .error (.error _), _ => trivial

/-- **One step after the other.** -/
theorem Ensures.bind {Q : β → Prop} (h : Ensures x P)
    (hf : ∀ a, P a → Ensures (f a) Q) : Ensures (x >>= f) Q := by
  match x, h with
  | .ok a, h => exact hf a h
  | .error (.error _), _ => trivial

/-- A check that fails returns an error. -/
theorem Ensures.check {c : Prop} [Decidable c] {e : ε} (h : ¬ c → Ensures x P) :
    Ensures (if c then fail e else x) P := by
  split_ifs with hc
  · trivial
  · exact h hc

theorem ensures_ofExcept {x : Except ε α} (h : ∀ a, x = .ok a → P a) : Ensures (ofExcept x) P := by
  cases x with
  | ok a => exact h a rfl
  | error e => trivial

variable {l : List α} {start stop : ℕ}

theorem ensures_slice (hstart : start ≤ stop) (hstop : stop ≤ l.length) :
    Ensures (slice l start stop : Checked ε (List α)) fun s =>
      s = (l.drop start).take (stop - start) ∧ s.length = stop - start := by
  rw [slice, if_pos ⟨hstart, hstop⟩]
  refine ⟨rfl, ?_⟩
  rw [length_take, length_drop]
  omega

theorem ensures_index {i : ℕ} (h : i < l.length) :
    Ensures (index l i : Checked ε α) fun a => l[i]? = some a := by
  rw [index, getElem?_eq_getElem h]
  exact rfl

theorem ensures_add {a : ℕ} (h : a + b < wordSize) :
    Ensures (add a b : Checked ε ℕ) (· = a + b) := by
  rw [add, if_pos h]
  exact rfl

theorem ensures_mul {a : ℕ} (h : a * b < wordSize) :
    Ensures (mul a b : Checked ε ℕ) (· = a * b) := by
  rw [mul, if_pos h]
  exact rfl

theorem ensures_checkedAdd (a b : ℕ) (e : ε) :
    Ensures (checkedAdd a b e) fun s => s = a + b ∧ a + b < wordSize := by
  unfold checkedAdd
  split_ifs with h
  · exact ⟨rfl, h⟩
  · trivial

theorem ensures_mapM {P : α → β → Prop} (h : ∀ a ∈ l, Ensures (f a) (P a)) :
    Ensures (l.mapM f) (Forall₂ P l) := by
  induction l with
  | nil => exact Forall₂.nil
  | cons a l ih =>
    rw [mapM_cons]
    refine (h a mem_cons_self).bind fun b hb => ?_
    refine (ih fun x hx => h x (mem_cons_of_mem a hx)).bind fun bs hbs => ?_
    exact Forall₂.cons hb hbs

theorem ensures_mapM_range {n : ℕ} {f : ℕ → Checked ε β} {P : ℕ → β → Prop}
    (h : ∀ i < n, Ensures (f i) (P i)) :
    Ensures ((range n).mapM f) fun l => l.length = n ∧ ∀ i b, l[i]? = some b → P i b := by
  refine (ensures_mapM fun i hi => h i (mem_range.mp hi)).mono fun l hl => ?_
  refine ⟨hl.length_eq ▸ length_range, fun i b hb => ?_⟩
  obtain ⟨j, hj, hP⟩ := hl.exists_left hb
  obtain ⟨_, rfl⟩ := List.getElem?_eq_some_iff.mp hj
  rwa [getElem_range] at hP

theorem ensures_forM {f : α → Checked ε PUnit} (h : ∀ a ∈ l, Ensures (f a) fun _ => True) :
    Ensures (l.forM f) fun _ => True := by
  induction l with
  | nil => exact Ensures.ok trivial
  | cons a l ih =>
    refine (h a mem_cons_self).bind fun _ _ => ?_
    exact ih fun x hx => h x (mem_cons_of_mem a hx)

/-- A loop of steps that panic or return a value panics if one of them does. -/
theorem exists_panic_mapM
    (h : ∀ a ∈ l, (∃ b, f a = .ok b) ∨ ∃ message, f a = .error (.panic message))
    (hpanic : ∃ a ∈ l, ∃ message, f a = .error (.panic message)) :
    ∃ message, l.mapM f = .error (.panic message) := by
  induction l with
  | nil =>
    obtain ⟨a, ha, -⟩ := hpanic
    cases ha
  | cons a l ih =>
    rw [mapM_cons]
    rcases h a mem_cons_self with ⟨b, hb⟩ | ⟨message, hmessage⟩
    · have hrest : ∃ x ∈ l, ∃ message, f x = .error (.panic message) := by
        obtain ⟨x, hx, message, hmessage⟩ := hpanic
        rcases mem_cons.mp hx with rfl | hx
        · cases hb.symm.trans hmessage
        · exact ⟨x, hx, message, hmessage⟩
      obtain ⟨message, hl⟩ := ih (fun x hx => h x (mem_cons_of_mem a hx)) hrest
      exact ⟨message, by rw [hb, hl]; rfl⟩
    · exact ⟨message, by rw [hmessage]; rfl⟩

/-! ## Values -/

theorem slice_append {pre post : List α} (hstart : pre.length = start)
    (hstop : start + l.length = stop) :
    (slice (pre ++ (l ++ post)) start stop : Checked ε (List α)) = .ok l := by
  subst hstart hstop
  rw [slice, if_pos ⟨Nat.le_add_right _ _, by simp⟩, drop_left, Nat.add_sub_cancel_left, take_left]

end Checked
