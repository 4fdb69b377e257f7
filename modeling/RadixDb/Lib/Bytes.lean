import Mathlib

/-!
# Byte strings

Bytes are ordered as numbers and byte strings lexicographically. Fixed-width integers are stored
with the least significant byte first: `leBytes w n` writes the lowest `w` bytes of `n`, `leNat`
reads them. **On strings of one length reading is one-to-one, and it undoes writing** (`leNat_inj`,
`leNat_leBytes`, `leBytes_leNat`). Signed numbers are read as two's complement (`leInt`).
-/

set_option autoImplicit false

instance UInt8.linearOrder : LinearOrder UInt8 where
  le_refl := UInt8.le_refl
  le_trans _ _ _ := UInt8.le_trans
  lt_iff_le_not_ge a b := by
    rw [UInt8.lt_iff_toNat_lt, UInt8.le_iff_toNat_le, UInt8.le_iff_toNat_le]
    omega
  le_antisymm _ _ := UInt8.le_antisymm
  le_total := UInt8.le_total
  toDecidableLE := inferInstance
  toDecidableEq := inferInstance
  toDecidableLT := inferInstance

abbrev Bytes := List UInt8

namespace Bytes

open List

/-- Byte strings compared from the left; a string is below its continuations. -/
def compareBytes : Bytes → Bytes → Ordering
  | [], [] => .eq
  | [], _ :: _ => .lt
  | _ :: _, [] => .gt
  | a :: l, b :: m => (cmp a b).then (compareBytes l m)

theorem compareBytes_compares (a b : Bytes) : (compareBytes a b).Compares a b := by
  fun_induction compareBytes a b with
  | case1 => exact rfl
  | case2 b m => exact Lex.nil
  | case3 a l => exact Lex.nil
  | case4 a l b m ih =>
    have hc := cmp_compares a b
    revert hc
    cases cmp a b with
    | lt | gt => exact fun h => Lex.rel h
    | eq =>
      intro h
      subst h
      revert ih
      cases compareBytes l m with
      | lt | gt => exact fun h => Lex.cons h
      | eq => exact fun h => congrArg (cons a) h

/-- Little-endian bytes as a number. -/
def leNat : Bytes → ℕ
  | [] => 0
  | b :: bytes => b.toNat + 256 * leNat bytes

/-- The lowest `w` bytes of a number. -/
def leBytes : ℕ → ℕ → Bytes
  | 0, _ => []
  | w + 1, n => UInt8.ofNat n :: leBytes w (n / 256)

/-- The number that `w` bytes are, as two's complement. -/
def signed (w n : ℕ) : ℤ := if n < 256 ^ w / 2 then n else n - (256 ^ w : ℕ)

/-- Little-endian bytes as a signed number. -/
def leInt (bytes : Bytes) : ℤ := signed bytes.length (leNat bytes)

/-- A signed number in `w` bytes. -/
def intBytes (w : ℕ) (i : ℤ) : Bytes := leBytes w (i % (256 ^ w : ℕ)).toNat

variable (bytes : Bytes)

@[simp] theorem length_leBytes (w n : ℕ) : (leBytes w n).length = w := by
  induction w generalizing n with
  | zero => rfl
  | succ w ih => rw [leBytes, length_cons, ih]

@[simp] theorem length_intBytes (w : ℕ) (i : ℤ) : (intBytes w i).length = w := length_leBytes _ _

theorem leNat_lt : leNat bytes < 256 ^ bytes.length := by
  induction bytes with
  | nil => exact Nat.one_pos
  | cons b bytes ih =>
    have hb := b.toNat_lt
    rw [leNat, length_cons, pow_succ]
    omega

theorem leNat_leBytes (w n : ℕ) : leNat (leBytes w n) = n % 256 ^ w := by
  induction w generalizing n with
  | zero => rw [pow_zero, Nat.mod_one]; rfl
  | succ w ih =>
    rw [leBytes, leNat, ih, UInt8.toNat_ofNat', pow_succ' 256, Nat.mod_mul]

variable {w : ℕ} {n : ℕ}

theorem leNat_leBytes_of_lt (h : n < 256 ^ w) : leNat (leBytes w n) = n := by
  rw [leNat_leBytes, Nat.mod_eq_of_lt h]

theorem leBytes_leNat : leBytes bytes.length (leNat bytes) = bytes := by
  induction bytes with
  | nil => rfl
  | cons b bytes ih =>
    have hb := b.toNat_lt
    have hdiv : (b.toNat + 256 * leNat bytes) / 256 = leNat bytes := by omega
    rw [length_cons, leNat, leBytes, hdiv, ih]
    congr 1
    refine UInt8.toNat_inj.mp ?_
    rw [UInt8.toNat_ofNat']
    omega

theorem leNat_inj {a b : Bytes} (hlen : a.length = b.length) (h : leNat a = leNat b) : a = b := by
  rw [← leBytes_leNat a, ← leBytes_leNat b, hlen, h]

theorem two_dvd_pow (hw : w ≠ 0) : 2 * (256 ^ w / 2) = 256 ^ w := by
  obtain ⟨v, rfl⟩ := Nat.exists_eq_succ_of_ne_zero hw
  omega

theorem signed_bounds (hw : w ≠ 0) (hn : n < 256 ^ w) :
    -(256 ^ w / 2 : ℕ) ≤ signed w n ∧ signed w n < (256 ^ w / 2 : ℕ) := by
  have hpow := two_dvd_pow hw
  unfold signed
  split <;> omega

theorem signed_mod (hn : n < 256 ^ w) : (signed w n % (256 ^ w : ℕ)).toNat = n := by
  unfold signed
  split
  · rw [← Int.natCast_emod, Int.toNat_natCast, Nat.mod_eq_of_lt hn]
  · rw [Int.sub_emod_right, ← Int.natCast_emod, Int.toNat_natCast, Nat.mod_eq_of_lt hn]

theorem intBytes_leInt : intBytes bytes.length (leInt bytes) = bytes := by
  rw [intBytes, leInt, signed_mod (leNat_lt bytes), leBytes_leNat]

theorem leInt_inj {a b : Bytes} (hlen : a.length = b.length) (h : leInt a = leInt b) : a = b := by
  rw [← intBytes_leInt a, ← intBytes_leInt b, hlen, h]

theorem leInt_intBytes {i : ℤ} (hlo : -(256 ^ w / 2 : ℕ) ≤ i)
    (hhi : i < (256 ^ w / 2 : ℕ)) : leInt (intBytes w i) = i := by
  have hmod : i % (256 ^ w : ℕ) = if 0 ≤ i then i else i + (256 ^ w : ℕ) := by
    split
    · exact Int.emod_eq_of_lt ‹_› (by omega)
    · rw [← Int.add_emod_right, Int.emod_eq_of_lt (by omega) (by omega)]
  rw [leInt, length_intBytes, intBytes, hmod]
  split
  · rw [leNat_leBytes_of_lt (by omega), signed, if_pos (by omega)]
    omega
  · rw [leNat_leBytes_of_lt (by omega), signed, if_neg (by omega)]
    omega

end Bytes
