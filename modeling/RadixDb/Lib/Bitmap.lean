import RadixDb.Lib.Bytes

/-!
# Bitmaps

Bits in a list of bytes: bit `i` is bit `i % 8` of byte `i / 8`. Setting a bit leaves the others
(`getBit_setBit`), so after a number of bits were set, a bit is set exactly if it is one of them or
was set before (`getBit_setBits`).
-/

set_option autoImplicit false

namespace Bitmap

open List

/-- `bytes[i / 8] & (1 << (i % 8)) != 0`; no bit beyond the bytes is set. -/
def getBit (bytes : Bytes) (i : ℕ) : Bool := ((bytes[i / 8]?.getD 0).toNat).testBit (i % 8)

/-- `bytes[i / 8] |= 1 << (i % 8)`. -/
def setBit (bytes : Bytes) (i : ℕ) : Bytes :=
  bytes.modify (i / 8) fun byte => byte ||| (1 <<< UInt8.ofNat (i % 8))

@[simp] theorem length_setBit (bytes : Bytes) (i : ℕ) :
    (setBit bytes i).length = bytes.length := length_modify ..

theorem testBit_or_shift (byte : UInt8) {i : ℕ} (hi : i < 8) (j : ℕ) :
    (byte ||| (1 <<< UInt8.ofNat i)).toNat.testBit j =
      (byte.toNat.testBit j || decide (i = j)) := by
  have hshift : ((1 : UInt8) <<< UInt8.ofNat i).toNat = 2 ^ i := by
    match i, hi with
    | 0, _ | 1, _ | 2, _ | 3, _ | 4, _ | 5, _ | 6, _ | 7, _ => rfl
  rw [UInt8.toNat_or, Nat.testBit_or, hshift, Nat.testBit_two_pow]

/-- **Setting a bit** leaves the others. -/
theorem getBit_setBit (bytes : Bytes) {i : ℕ} (hi : i / 8 < bytes.length) (j : ℕ) :
    getBit (setBit bytes i) j = (getBit bytes j || decide (i = j)) := by
  unfold getBit setBit
  rw [getElem?_modify]
  by_cases hbyte : i / 8 = j / 8
  · rw [← hbyte, getElem?_eq_getElem hi]
    simp only [Option.map_eq_map, Option.map_some, Option.getD_some, if_true]
    rw [testBit_or_shift _ (Nat.mod_lt _ (by decide))]
    have hsame : i % 8 = j % 8 ↔ i = j := by omega
    simp only [hsame]
  · have hne : i ≠ j := fun h => hbyte (h ▸ rfl)
    simp [hbyte, hne]

/-- Set a number of bits. -/
def setBits (bytes : Bytes) (positions : List ℕ) : Bytes := positions.foldl setBit bytes

@[simp] theorem length_setBits (bytes : Bytes) (positions : List ℕ) :
    (setBits bytes positions).length = bytes.length := by
  unfold setBits
  induction positions generalizing bytes with
  | nil => rfl
  | cons i positions ih => rw [foldl_cons, ih, length_setBit]

/-- **After a number of bits were set.** -/
theorem getBit_setBits {bytes : Bytes} {positions : List ℕ}
    (h : ∀ i ∈ positions, i / 8 < bytes.length) (j : ℕ) :
    getBit (setBits bytes positions) j = (getBit bytes j || decide (j ∈ positions)) := by
  unfold setBits
  induction positions generalizing bytes with
  | nil => simp
  | cons i positions ih =>
    obtain ⟨hi, hrest⟩ := forall_mem_cons.mp h
    rw [foldl_cons, ih (by simpa using hrest), getBit_setBit _ hi, Bool.or_assoc]
    congr 1
    simp [Bool.decide_or, eq_comm]

theorem getBit_replicate (n i : ℕ) : getBit (replicate n 0) i = false := by
  unfold getBit
  rw [getElem?_replicate]
  split_ifs <;> simp

end Bitmap
