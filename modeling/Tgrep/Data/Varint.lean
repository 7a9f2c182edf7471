import Mathlib.Data.Nat.Bitwise
import Mathlib.Tactic.Common

/-!
# Variable-length integers

The LEB128 encoding of a 64-bit number: seven bits per byte, lowest first, with the high bit set on
every byte but the last.

## Main definitions

* `Varint.write`: the encoding of a number.
* `Varint.read`: the loop that decodes one number, and the bytes after it.

## Main results

* `Varint.read_write`: what was written is read back, and the bytes after it are left.
* `Varint.read_take`: what was cut is refused.
* `Varint.length_write_le`: an encoding has at most ten bytes.
-/

namespace Varint

open List

/-- Longest possible encoding of a 64-bit number. -/
def MAX_LEN : ℕ := 10

/-- The encoding of a number. -/
def write (value : UInt64) : List UInt8 :=
  if 0x80 ≤ value then (value.toUInt8 ||| 0x80) :: write (value >>> 7) else [value.toUInt8]
termination_by value.toNat
decreasing_by
  have hle := UInt64.le_iff_toNat_le.mp ‹0x80 ≤ value›
  have h128 : (0x80 : UInt64).toNat = 128 := rfl
  rw [UInt64.toNat_shiftRight]
  simp only [UInt64.reduceToNat, Nat.reduceMod, Nat.shiftRight_eq_div_pow]
  omega

section Reading

variable {ε : Type*} (truncated overlong : ε)

/-- Decode one number: `value` holds the bits below `shift`. The input may end within the number,
or the number may not fit in 64 bits. -/
def readFrom (value : UInt64) (shift : ℕ) : List UInt8 → Except ε (UInt64 × List UInt8)
  | [] => .error truncated
  | byte :: bytes =>
    let value := value ||| (byte &&& 0x7F).toUInt64 <<< UInt64.ofNat shift
    if byte &&& 0x80 = 0 then .ok (value, bytes)
    else if 64 ≤ shift + 7 then .error overlong
    else readFrom value (shift + 7) bytes

/-- Decode one number. -/
def read (bytes : List UInt8) : Except ε (UInt64 × List UInt8) :=
  readFrom truncated overlong 0 0 bytes

end Reading

/-! ## Bits -/

lemma toNat_shiftRight_seven (value : UInt64) : (value >>> 7).toNat = value.toNat / 128 := by
  rw [UInt64.toNat_shiftRight]
  simp [Nat.shiftRight_eq_div_pow]

/-- The low seven bits of a byte. -/
lemma toNat_and_low (b : UInt8) : (b &&& 0x7F).toNat = b.toNat % 128 := by
  rw [UInt8.toNat_and, show (0x7F : UInt8).toNat = 2 ^ 7 - 1 from rfl,
    Nat.and_two_pow_sub_one_eq_mod]

/-- The low seven bits of a number, in its first byte. -/
lemma toNat_firstByte (value : UInt64) :
    ((value.toUInt8 ||| 0x80) &&& 0x7F).toNat = value.toNat % 128 ∧
      (value.toUInt8 &&& 0x7F).toNat = value.toNat % 128 := by
  have hmask : ∀ b : UInt8, (b ||| 0x80) &&& 0x7F = b &&& 0x7F := by
    rintro ⟨bits⟩
    revert bits
    decide
  rw [hmask, toNat_and_low, UInt64.toNat_toUInt8]
  omega

/-- The high bit is set on bytes that are followed by another. -/
lemma continues (b : UInt8) : (b ||| 0x80) &&& 0x80 ≠ 0 := by
  obtain ⟨bits⟩ := b
  revert bits
  decide

/-- The high bit is clear on a small byte. -/
lemma ends {b : UInt8} (hb : b.toNat < 128) : b &&& 0x80 = 0 := by
  obtain ⟨bits⟩ := b
  revert bits
  decide

/-- Seven more bits above those read so far. -/
lemma toNat_accumulate {value : UInt64} {byte : UInt8} {shift : ℕ} (hshift : shift < 64)
    (hvalue : value.toNat < 2 ^ shift) (hbyte : byte.toNat * 2 ^ shift < 2 ^ 64) :
    (value ||| byte.toUInt64 <<< UInt64.ofNat shift).toNat =
      value.toNat + byte.toNat * 2 ^ shift := by
  have hs : (UInt64.ofNat shift).toNat % 64 = shift := by
    rw [UInt64.toNat_ofNat_of_lt' (show shift < 2 ^ 64 by omega), Nat.mod_eq_of_lt hshift]
  rw [UInt64.toNat_or, UInt64.toNat_shiftLeft, hs, UInt8.toNat_toUInt64, Nat.shiftLeft_eq,
    Nat.mod_eq_of_lt hbyte, Nat.mul_comm, Nat.or_comm, ← Nat.two_pow_add_eq_or_of_lt hvalue]
  omega

/-! ## Round trip -/

variable {ε : Type*} {truncated overlong : ε}

/-- If a number that takes more than a byte fits above some bits, so does the rest of it, seven
bits further up. -/
lemma shift_fits {value : UInt64} {shift : ℕ} (hle : 128 ≤ value.toNat)
    (hvalue : value.toNat * 2 ^ shift < 2 ^ 64) :
    2 ^ (shift + 7) = 128 * 2 ^ shift ∧ shift + 7 < 64 ∧
      value.toNat * 2 ^ shift =
        value.toNat % 128 * 2 ^ shift + value.toNat / 128 * 2 ^ (shift + 7) := by
  have hpow : 2 ^ (shift + 7) = 128 * 2 ^ shift := by
    rw [Nat.pow_add, Nat.mul_comm]
  refine ⟨hpow, ?_, ?_⟩
  · have hlt : 2 ^ (shift + 7) < 2 ^ 64 := by
      rw [hpow]
      exact lt_of_le_of_lt (Nat.mul_le_mul_right _ hle) hvalue
    exact (Nat.pow_lt_pow_iff_right (by decide)).mp hlt
  · rw [hpow, ← Nat.mul_assoc, ← Nat.add_mul]
    congr 1
    omega

/-- What the loop reads, if the number that is left fits above the bits read so far. -/
lemma readFrom_write (value : UInt64) (rest : List UInt8) :
    ∀ (acc : UInt64) (shift : ℕ), shift < 64 → acc.toNat < 2 ^ shift →
      value.toNat * 2 ^ shift < 2 ^ 64 →
      ∃ result, readFrom truncated overlong acc shift (write value ++ rest) = .ok (result, rest) ∧
        result.toNat = acc.toNat + value.toNat * 2 ^ shift := by
  fun_induction write value with
  | case1 value hbig ih =>
    intro acc shift hshift hacc hvalue
    have hle : 128 ≤ value.toNat := UInt64.le_iff_toNat_le.mp hbig
    have hlow := (toNat_firstByte value).1
    obtain ⟨hpow, hshift', hsplit⟩ := shift_fits hle hvalue
    have hbyte : ((value.toUInt8 ||| 0x80) &&& 0x7F).toNat * 2 ^ shift < 2 ^ 64 := by
      rw [hlow]
      exact lt_of_le_of_lt (Nat.mul_le_mul_right _ (Nat.mod_le _ _)) hvalue
    have hacc' := toNat_accumulate hshift hacc hbyte
    rw [hlow] at hacc'
    have hrest := toNat_shiftRight_seven value
    obtain ⟨result, hread, hresult⟩ := ih
      (acc ||| ((value.toUInt8 ||| 0x80) &&& 0x7F).toUInt64 <<< UInt64.ofNat shift) (shift + 7)
      hshift' (by
        rw [hacc', hpow]
        have hmod : value.toNat % 128 * 2 ^ shift ≤ 127 * 2 ^ shift :=
          Nat.mul_le_mul_right _ (by omega)
        omega) (by rw [hrest]; omega)
    refine ⟨result, ?_, by rw [hresult, hacc', hrest]; omega⟩
    rw [cons_append, readFrom]
    simp only [if_neg (continues _), if_neg (not_le.mpr hshift')]
    exact hread
  | case2 value hsmall =>
    intro acc shift hshift hacc hvalue
    have hlt : value.toNat < 128 := by
      rw [UInt64.le_iff_toNat_le] at hsmall
      exact not_le.mp hsmall
    have hlow : (value.toUInt8 &&& 0x7F).toNat = value.toNat := by
      rw [(toNat_firstByte value).2, Nat.mod_eq_of_lt hlt]
    have hbyte : value.toUInt8.toNat < 128 := by
      rw [UInt64.toNat_toUInt8]
      omega
    refine ⟨acc ||| (value.toUInt8 &&& 0x7F).toUInt64 <<< UInt64.ofNat shift, ?_, ?_⟩
    · rw [cons_append, nil_append, readFrom]
      simp only [if_pos (ends hbyte)]
    · rw [toNat_accumulate hshift hacc (by rwa [hlow]), hlow]

/-- **What was written is read back.** -/
theorem read_write (value : UInt64) (rest : List UInt8) :
    read truncated overlong (write value ++ rest) = .ok (value, rest) := by
  have hlt := value.toNat_lt
  obtain ⟨result, hread, hresult⟩ :=
    @readFrom_write ε truncated overlong value rest 0 0 (by decide) (by decide) (by omega)
  have heq : result = value := by
    apply UInt64.toNat_inj.mp
    rw [hresult, show (0 : UInt64).toNat = 0 from rfl]
    omega
  rw [read, hread, heq]

/-- What the loop reads of a number that is cut. -/
lemma readFrom_take (value : UInt64) : ∀ (acc : UInt64) (shift n : ℕ),
    value.toNat * 2 ^ shift < 2 ^ 64 → n < (write value).length →
      readFrom truncated overlong acc shift ((write value).take n) = .error truncated := by
  fun_induction write value with
  | case1 value hbig ih =>
    intro acc shift n hvalue hcut
    cases n with
    | zero => rfl
    | succ n =>
      obtain ⟨hpow, hshift, hsplit⟩ := shift_fits (UInt64.le_iff_toNat_le.mp hbig) hvalue
      rw [take_succ_cons, readFrom, if_neg (continues _), if_neg (not_le.mpr hshift)]
      refine ih _ _ n ?_ (Nat.lt_of_succ_lt_succ hcut)
      rw [toNat_shiftRight_seven]
      omega
  | case2 value hsmall =>
    intro acc shift n hvalue hcut
    obtain rfl : n = 0 := Nat.lt_one_iff.mp hcut
    rfl

/-- **What was cut is refused.** -/
theorem read_take {value : UInt64} {n : ℕ} (hcut : n < (write value).length) :
    read truncated overlong ((write value).take n) = .error truncated :=
  readFrom_take value 0 0 n (by simpa using value.toNat_lt) hcut

/-- A number below `2 ^ (7 * n)` has at most `n` bytes. -/
lemma length_write_le_of_lt (n : ℕ) :
    ∀ value : UInt64, value.toNat < 2 ^ (7 * (n + 1)) → (write value).length ≤ n + 1 := by
  induction n with
  | zero =>
    intro value hvalue
    rw [write, if_neg, length_singleton]
    rw [UInt64.le_iff_toNat_le, show (0x80 : UInt64).toNat = 128 from rfl]
    omega
  | succ n ih =>
    intro value hvalue
    rw [write]
    split_ifs with hbig
    · have hpow : 2 ^ (7 * (n + 1 + 1)) = 2 ^ (7 * (n + 1)) * 128 := by
        rw [show 7 * (n + 1 + 1) = 7 * (n + 1) + 7 by omega, Nat.pow_add]
      have hrest := ih (value >>> 7) (by rw [toNat_shiftRight_seven]; omega)
      rw [length_cons]
      omega
    · rw [length_singleton]
      omega

/-- **An encoding has at most ten bytes.** -/
theorem length_write_le (value : UInt64) : (write value).length ≤ MAX_LEN := by
  have hlt := value.toNat_lt
  exact length_write_le_of_lt 9 value (by omega)

/-- An encoding has at least one byte. -/
lemma length_write_pos (value : UInt64) : 0 < (write value).length := by
  rw [write]
  split_ifs <;> simp

end Varint
