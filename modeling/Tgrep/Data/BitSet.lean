import Mathlib.Data.Nat.Bitwise
import Mathlib.Data.List.Basic
import Mathlib.Data.UInt

/-!
# Bit sets in 64-bit words

A set of numbers below a bound, one bit each, in an array of 64-bit words.

## Main definitions

* `BitSet.zeros`: the words of the empty set of numbers below a bound.
* `BitSet.set`, `BitSet.test`: add a number, and test for one.

## Main results

* `BitSet.test_foldl_set`: the numbers that were added, and only they, test positive.
-/

namespace BitSet

open Option List

/-- The words of the empty set of numbers below `n`. -/
def zeros (n : ℕ) : List UInt64 := List.replicate ((n + 63) / 64) 0

/-- The mask of a number in its word. -/
def bit (i : ℕ) : UInt64 := (1 : UInt64) <<< UInt64.ofNat (i % 64)

/-- Set the bit of a number. -/
def set (words : List UInt64) (i : ℕ) : List UInt64 :=
  words.modify (i / 64) fun word => word ||| bit i

/-- Whether the bit of a number is set. -/
def test (words : List UInt64) (i : ℕ) : Bool := words.getD (i / 64) 0 &&& bit i != 0

/-- The mask of a number is the power of two at its place in the word. -/
lemma toNat_bit (i : ℕ) : (bit i).toNat = 2 ^ (i % 64) := by
  have hlt : i % 64 < 64 := Nat.mod_lt _ (by decide)
  have hof : (UInt64.ofNat (i % 64)).toNat = i % 64 :=
    UInt64.toNat_ofNat_of_lt' (hlt.trans (by decide))
  have hpow : 2 ^ (i % 64) < 2 ^ 64 := Nat.pow_lt_pow_right (by decide) hlt
  rw [bit, UInt64.toNat_shiftLeft, hof, UInt64.toNat_one, Nat.mod_eq_of_lt hlt,
    Nat.one_shiftLeft, Nat.mod_eq_of_lt hpow]

/-- A word meets the mask of a number iff it has a bit at the number's place. -/
lemma and_bit_ne_zero {word : UInt64} {i : ℕ} :
    (word &&& bit i != 0) = word.toNat.testBit (i % 64) := by
  have hand : (word &&& bit i).toNat = (word.toNat.testBit (i % 64)).toNat * 2 ^ (i % 64) := by
    rw [UInt64.toNat_and, toNat_bit, Nat.and_two_pow]
  have hpos : 0 < 2 ^ (i % 64) := Nat.two_pow_pos _
  rw [Bool.eq_iff_iff, bne_iff_ne, Ne, ← UInt64.toNat_inj, hand, UInt64.toNat_zero]
  cases word.toNat.testBit (i % 64) <;> simp

/-- No number is in the empty set. -/
lemma test_zeros (n i : ℕ) : test (zeros n) i = false := by
  rw [test, and_bit_ne_zero, zeros, getD_eq_getElem?_getD, getElem?_replicate]
  split_ifs <;> simp

/-- Setting a bit adds its number, if the words reach that far, and no other. -/
lemma test_set {words : List UInt64} {i j : ℕ} (hi : i / 64 < words.length) :
    test (set words i) j = (decide (j = i) || test words j) := by
  rw [test, test, and_bit_ne_zero, and_bit_ne_zero, set, getD_eq_getElem?_getD,
    getElem?_modify, getD_eq_getElem?_getD]
  by_cases hw : i / 64 = j / 64
  · have hsome : words[j / 64]? = some words[j / 64] := getElem?_eq_getElem (hw ▸ hi)
    have hbit : i % 64 = j % 64 ↔ j = i := by omega
    simp only [if_pos hw]
    rw [hsome, Option.map_eq_map, map_some, getD_some, getD_some,
      UInt64.toNat_or, Nat.testBit_or, toNat_bit, Nat.testBit_two_pow, Bool.or_comm]
    simp only [hbit]
  · have hne : j ≠ i := fun h => hw (by rw [h])
    simp [hw, hne]

@[simp] lemma length_set (words : List UInt64) (i : ℕ) : (set words i).length = words.length := by
  simp [set]

/-- **Adding numbers one by one**: below the bound, exactly the added numbers test positive. -/
theorem test_foldl_set {n : ℕ} {ids : List ℕ} (h : ∀ i ∈ ids, i < n) (j : ℕ) :
    test (ids.foldl set (zeros n)) j = decide (j ∈ ids) := by
  have hloop : ∀ (ids : List ℕ) (words : List UInt64), (∀ i ∈ ids, i / 64 < words.length) →
      test (ids.foldl set words) j = (decide (j ∈ ids) || test words j) := by
    intro ids
    induction ids with
    | nil => simp
    | cons i ids ih =>
      intro words hids
      obtain ⟨hi, hrest⟩ := forall_mem_cons.mp hids
      rw [foldl_cons, ih _ (by simpa using hrest), test_set hi]
      simp only [mem_cons, Bool.decide_or]
      cases decide (j = i) <;> cases decide (j ∈ ids) <;> simp
  rw [hloop ids (zeros n) fun i hi => ?_, test_zeros, Bool.or_false]
  have := h i hi
  rw [zeros, length_replicate]
  omega

end BitSet
