import RadixDb.Lib.Bytes

/-!
# Numbers of variable length

A 64-bit number is written seven bits at a time, the lowest first; every byte but the last has its
highest bit set. The reader refuses numbers that do not fit 64 bits and numbers that are written
with more bytes than needed. **Reading what was written gives the number and the bytes after it**
(`decode_encode`), and what is accepted is what is written (`eq_encode_of_decode`).
-/

set_option autoImplicit false

namespace Varint

open Nat

/-- The bytes of a number; `fuel` bounds their number. -/
def encodeWith : ℕ → ℕ → Bytes
  | 0, n => [UInt8.ofNat n]
  | fuel + 1, n =>
    if 0x80 ≤ n then UInt8.ofNat (n % 0x80 + 0x80) :: encodeWith fuel (n / 0x80)
    else [UInt8.ofNat n]

/-- A 64-bit number takes at most ten bytes. -/
def encode (n : ℕ) : Bytes := encodeWith 9 n

def lengthWith : ℕ → ℕ → ℕ
  | 0, _ => 1
  | fuel + 1, n => if 0x80 ≤ n then lengthWith fuel (n / 0x80) + 1 else 1

/-- How many bytes a number takes. -/
def length (n : ℕ) : ℕ := lengthWith 9 n

inductive Error where
  | truncated | overflow | notMinimal
deriving DecidableEq

/-- Read a number of which `used` bytes have been read as `value`: the number and the bytes after
it. -/
def decodeFrom : Bytes → ℕ → ℕ → Except Error (ℕ × Bytes)
  | [], _, _ => .error .truncated
  | byte :: bytes, used, value =>
    let low := byte.toNat % 0x80
    let shift := 7 * used
    if shift = 63 ∧ 1 < low ∨ 63 < shift then .error .overflow
    else
      let value := value ||| low <<< shift
      if byte.toNat < 0x80 then
        if used + 1 ≠ length value then .error .notMinimal else .ok (value, bytes)
      else decodeFrom bytes (used + 1) value

def decode (bytes : Bytes) : Except Error (ℕ × Bytes) := decodeFrom bytes 0 0

/-! ## Lengths -/

theorem length_encodeWith (fuel n : ℕ) : (encodeWith fuel n).length = lengthWith fuel n := by
  induction fuel generalizing n with
  | zero => rfl
  | succ fuel ih =>
    rw [encodeWith, lengthWith]
    split
    · rw [List.length_cons, ih]
    · rfl

variable {n : ℕ}

@[simp] theorem length_encode (n : ℕ) : (encode n).length = length n := length_encodeWith 9 n

theorem encodeWith_small (fuel : ℕ) (h : n < 0x80) : encodeWith fuel n = [UInt8.ofNat n] := by
  cases fuel with
  | zero => rfl
  | succ fuel => rw [encodeWith, if_neg (not_le.mpr h)]

theorem lengthWith_small (fuel : ℕ) (h : n < 0x80) : lengthWith fuel n = 1 := by
  rw [← length_encodeWith, encodeWith_small fuel h, List.length_singleton]

theorem lengthWith_pos (fuel n : ℕ) : 0 < lengthWith fuel n := by
  cases fuel with
  | zero => exact one_pos
  | succ fuel =>
    rw [lengthWith]
    split <;> omega

theorem length_pos (n : ℕ) : 0 < length n := lengthWith_pos 9 n

/-! ## Reading what was written -/

theorem or_shiftLeft {value low shift : ℕ} (h : value < 2 ^ shift) :
    value ||| low <<< shift = value + low * 2 ^ shift := by
  rw [shiftLeft_eq, mul_comm low, Nat.or_comm, ← two_pow_add_eq_or_of_lt h, add_comm]

theorem pow_step (used : ℕ) : 2 ^ (7 * (used + 1)) = 2 ^ (7 * used) * 0x80 :=
  pow_add 2 (7 * used) 7

/-- Seven bits more. -/
theorem add_step (value used low m : ℕ) :
    value + low * 2 ^ (7 * used) + m * 2 ^ (7 * (used + 1)) =
      value + (low + 0x80 * m) * 2 ^ (7 * used) := by
  rw [pow_step, add_mul, add_assoc, mul_assoc 0x80, mul_comm 0x80, mul_assoc]

theorem add_step_lt {value low used : ℕ} (hvalue : value < 2 ^ (7 * used)) (hlow : low < 0x80) :
    value + low * 2 ^ (7 * used) < 2 ^ (7 * (used + 1)) := by
  have hmul : low * 2 ^ (7 * used) ≤ 0x7f * 2 ^ (7 * used) := mul_le_mul_right _ (by omega)
  rw [pow_step]
  omega

/-- The reader in the middle of a number: `n` is what remains of it after `used` bytes. -/
theorem decodeFrom_encodeWith (fuel used value : ℕ) (rest : Bytes) (hused : used + fuel = 9)
    (hvalue : value < 2 ^ (7 * used)) (hn : n < 2 ^ (64 - 7 * used))
    (hlen : length (value + n * 2 ^ (7 * used)) = used + lengthWith fuel n) :
    decodeFrom (encodeWith fuel n ++ rest) used value =
      .ok (value + n * 2 ^ (7 * used), rest) := by
  induction fuel generalizing used value n with
  | zero =>
    obtain rfl : used = 9 := by omega
    have hbyte : (UInt8.ofNat n).toNat = n := by
      rw [UInt8.toNat_ofNat']
      omega
    have hlow : n % 0x80 = n := by omega
    rw [encodeWith, List.singleton_append, decodeFrom, hbyte, hlow,
      if_neg (by omega), or_shiftLeft hvalue, if_pos (by omega), if_neg]
    rw [hlen]
    exact not_not.mpr rfl
  | succ fuel ih =>
    by_cases hbig : 0x80 ≤ n
    · have hbyte : (UInt8.ofNat (n % 0x80 + 0x80)).toNat = n % 0x80 + 0x80 := by
        rw [UInt8.toNat_ofNat']
        omega
      have hlow : (n % 0x80 + 0x80) % 0x80 = n % 0x80 := by omega
      have htotal := add_step value used (n % 0x80) (n / 0x80)
      rw [mod_add_div] at htotal
      rw [encodeWith, if_pos hbig, List.cons_append, decodeFrom, hbyte, hlow, if_neg (by omega),
        or_shiftLeft hvalue, if_neg (by omega), ih (used + 1) _ (by omega) ?_ ?_ ?_, htotal]
      · exact add_step_lt hvalue (mod_lt _ (by decide))
      · rw [div_lt_iff_lt_mul (by decide)]
        rwa [show 64 - 7 * used = 64 - 7 * (used + 1) + 7 by omega, pow_add] at hn
      · rw [htotal, hlen, lengthWith, if_pos hbig]
        omega
    · have hbyte : (UInt8.ofNat n).toNat = n := by
        rw [UInt8.toNat_ofNat']
        omega
      have hlow : n % 0x80 = n := by omega
      rw [encodeWith, if_neg hbig, List.singleton_append, decodeFrom, hbyte, hlow,
        if_neg (by omega), or_shiftLeft hvalue, if_pos (by omega), if_neg]
      rw [hlen, lengthWith, if_neg hbig]
      exact not_not.mpr rfl

/-- **Reading what was written.** -/
theorem decode_encode (h : n < 2 ^ 64) (rest : Bytes) :
    decode (encode n ++ rest) = .ok (n, rest) := by
  have hread := decodeFrom_encodeWith 9 0 0 rest rfl (by decide) h (by simp [length])
  simpa [decode, encode] using hread

/-! ## Writing what was read -/

theorem lengthWith_le (fuel : ℕ) {k n : ℕ} (hk : 0 < k) (h : n < 2 ^ (7 * k)) :
    lengthWith fuel n ≤ k := by
  induction fuel generalizing k n with
  | zero => exact hk
  | succ fuel ih =>
    by_cases hbig : 0x80 ≤ n
    · obtain ⟨k, rfl⟩ := exists_eq_add_one_of_ne_zero hk.ne'
      rw [pow_step, ← div_lt_iff_lt_mul (by decide)] at h
      rw [lengthWith, if_pos hbig]
      refine succ_le_succ (ih (pos_of_ne_zero fun hzero => ?_) h)
      rw [hzero, mul_zero, pow_zero] at h
      omega
    · rwa [lengthWith_small _ (Nat.lt_of_not_le hbig)]

/-- What the reader has accepted in the middle of a number is what is written for its rest. -/
theorem eq_encodeWith_of_decodeFrom (fuel used value : ℕ) {bytes rest : Bytes}
    (hused : used + fuel = 9) (hvalue : value < 2 ^ (7 * used))
    (h : decodeFrom bytes used value = .ok (n, rest)) :
    ∃ m, bytes = encodeWith fuel m ++ rest ∧ n = value + m * 2 ^ (7 * used) ∧
      length n = used + lengthWith fuel m := by
  induction bytes generalizing fuel used value with
  | nil => cases h
  | cons byte bytes ih =>
    simp only [decodeFrom, or_shiftLeft hvalue] at h
    split_ifs at h with hover hlast hlen
    · cases h
      rw [mod_eq_of_lt hlast] at hlen ⊢
      refine ⟨byte.toNat, ?_, rfl, ?_⟩
      · rw [encodeWith_small fuel hlast, UInt8.ofNat_toNat, List.singleton_append]
      · rw [lengthWith_small fuel hlast]
        exact (not_not.mp hlen).symm
    · cases fuel with
      | zero =>
        -- the tenth byte is the last
        obtain rfl : used = 9 := by omega
        cases bytes with
        | nil => cases h
        | cons next bytes => simp [decodeFrom] at h
      | succ fuel =>
        have hlow : byte.toNat % 0x80 < 0x80 := mod_lt _ (by decide)
        obtain ⟨m, rfl, rfl, hlen⟩ :=
          ih fuel (used + 1) _ (by omega) (add_step_lt hvalue hlow) h
        -- the rest is not zero, or the number would be written with fewer bytes
        have hpos : 0 < m := pos_of_ne_zero fun hzero => by
          subst hzero
          have hle := lengthWith_le 9 (succ_pos used) (add_step_lt hvalue hlow)
          have := lengthWith_pos fuel 0
          rw [zero_mul, add_zero, length] at hlen
          omega
        have hdiv : (byte.toNat % 0x80 + 0x80 * m) / 0x80 = m := by omega
        have hmod : (byte.toNat % 0x80 + 0x80 * m) % 0x80 = byte.toNat % 0x80 := by omega
        have hbyte := byte.toNat_lt
        refine ⟨byte.toNat % 0x80 + 0x80 * m, ?_, add_step .., ?_⟩
        · rw [encodeWith, if_pos (by omega), hdiv, hmod,
            show byte.toNat % 0x80 + 0x80 = byte.toNat by omega, UInt8.ofNat_toNat]
          rfl
        · rw [hlen, lengthWith, if_pos (by omega), hdiv]
          omega

/-- **What the reader accepts is what is written.** -/
theorem eq_encode_of_decode {bytes rest : Bytes} (h : decode bytes = .ok (n, rest)) :
    bytes = encode n ++ rest := by
  obtain ⟨m, hbytes, hn, -⟩ := eq_encodeWith_of_decodeFrom 9 0 0 rfl (by decide) h
  obtain rfl : n = m := by simpa using hn
  exact hbytes

end Varint
