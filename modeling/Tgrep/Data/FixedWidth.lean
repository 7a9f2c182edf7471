import Mathlib.Order.Defs.LinearOrder
import Mathlib.Data.List.Lex
import Mathlib.Data.UInt

/-!
# Fixed-width integers as ordered keys and bit masks

The linear orders on the unsigned machine integers, so that they can be the keys of sorted lists
and finite maps, and the vocabulary of one-byte bit masks.

## Main definitions

* `UInt8.instLinearOrder`, `UInt32.instLinearOrder`: the numerical orders.
* `UInt8.Covers`: every bit of one mask is set in another.

## Main results

* `UInt8.Covers.and_ne_zero`: a covered nonzero mask meets the covering one.
-/

/-- The numerical order on bytes. -/
instance UInt8.instLinearOrder : LinearOrder UInt8 where
  le_refl := UInt8.le_refl
  le_trans _ _ _ := UInt8.le_trans
  le_antisymm _ _ := UInt8.le_antisymm
  le_total := UInt8.le_total
  lt_iff_le_not_ge a b := by
    simp only [UInt8.le_iff_toNat_le, UInt8.lt_iff_toNat_lt]
    omega
  toDecidableLE := inferInstance
  toDecidableLT := inferInstance
  toDecidableEq := inferInstance
  compare_eq_compareOfLessAndEq _ _ := rfl

/-- The numerical order on 32-bit words. -/
instance UInt32.instLinearOrder : LinearOrder UInt32 where
  le_refl := UInt32.le_refl
  le_trans _ _ _ := UInt32.le_trans
  le_antisymm _ _ := UInt32.le_antisymm
  le_total := UInt32.le_total
  lt_iff_le_not_ge a b := by
    simp only [UInt32.le_iff_toNat_le, UInt32.lt_iff_toNat_lt]
    omega
  toDecidableLE := inferInstance
  toDecidableLT := inferInstance
  toDecidableEq := inferInstance
  compare_eq_compareOfLessAndEq _ _ := rfl

namespace UInt8

/-- Every bit of `bits` is set in `mask`. -/
def Covers (mask bits : UInt8) : Prop := mask &&& bits = bits

instance (mask bits : UInt8) : Decidable (Covers mask bits) :=
  inferInstanceAs (Decidable (mask &&& bits = bits))

/-- Every mask covers the empty one. -/
@[simp] lemma covers_zero (mask : UInt8) : Covers mask 0 := by
  simp [Covers]

/-- A union covers its left part. -/
lemma covers_or_left (a b : UInt8) : Covers (a ||| b) a := by
  apply UInt8.eq_of_toBitVec_eq
  ext i
  simp only [UInt8.toBitVec_and, UInt8.toBitVec_or, BitVec.getElem_and, BitVec.getElem_or]
  cases a.toBitVec[i] <;> simp

/-- A union covers its right part. -/
lemma covers_or_right (a b : UInt8) : Covers (a ||| b) b := by
  rw [UInt8.or_comm]
  exact covers_or_left b a

/-- Covering is transitive. -/
lemma Covers.trans {a b c : UInt8} (hab : Covers a b) (hbc : Covers b c) : Covers a c := by
  rw [Covers, ← hbc, ← UInt8.and_assoc, hab]

/-- Adding bits to a mask keeps what it covers. -/
lemma Covers.or {a bits : UInt8} (h : Covers a bits) (b : UInt8) : Covers (a ||| b) bits :=
  (covers_or_left a b).trans h

/-- A covered mask with a bit in it meets the covering mask. -/
lemma Covers.and_ne_zero {mask bits : UInt8} (h : Covers mask bits) (hb : bits ≠ 0) :
    mask &&& bits ≠ 0 := by
  rwa [h]

end UInt8
