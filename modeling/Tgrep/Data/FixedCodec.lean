import Mathlib.Data.List.Basic
import Mathlib.Algebra.Order.Ring.Nat
import Mathlib.Data.UInt
import Mathlib.Tactic.Ring

/-!
# Fixed-width records

Little-endian words, codecs whose values all take the same number of bytes, and the files that
are arrays of such records.

## Main definitions

* `LittleEndian.toLE`, `LittleEndian.ofLE`: a number as little-endian bytes, and back.
* `FixedCodec`: an encoding in a fixed number of bytes that is a bijection onto the byte strings
  of that length.
* `FixedCodec.encodeAll`, `FixedCodec.decodeAll`: arrays of records.
* `FixedCodec.nth`: the record at an index, read from its byte offset.

## Main results

* `FixedCodec.decodeAll_encodeAll`, `FixedCodec.encodeAll_decodeAll`: arrays round trip.
* `FixedCodec.nth_encodeAll`, `FixedCodec.encodeAll_map_nth`: random access reads the record at
  that index.
-/

namespace LittleEndian

/-- The `w` low-order bytes of a number, least significant first. -/
def toLE : ℕ → ℕ → List UInt8
  | 0, _ => []
  | w + 1, n => UInt8.ofNat n :: toLE w (n / 256)

/-- The number whose little-endian bytes are given. -/
def ofLE : List UInt8 → ℕ
  | [] => 0
  | b :: bs => b.toNat + 256 * ofLE bs

@[simp] lemma length_toLE (w n : ℕ) : (toLE w n).length = w := by
  induction w generalizing n with
  | zero => rfl
  | succ w ih => rw [toLE, List.length_cons, ih]

/-- The bytes of a number that fits denote it. -/
lemma ofLE_toLE {w n : ℕ} (h : n < 256 ^ w) : ofLE (toLE w n) = n := by
  induction w generalizing n with
  | zero =>
    rw [pow_zero] at h
    simp only [toLE, ofLE]
    omega
  | succ w ih =>
    have hlt : n / 256 < 256 ^ w := by
      rw [pow_succ] at h
      omega
    rw [toLE, ofLE, ih hlt, UInt8.toNat_ofNat']
    omega

/-- The bytes of the number that some bytes denote are those bytes. -/
lemma toLE_ofLE (bs : List UInt8) : toLE bs.length (ofLE bs) = bs := by
  induction bs with
  | nil => rfl
  | cons b bs ih =>
    have hb := b.toNat_lt
    rw [List.length_cons, toLE, ofLE, show (b.toNat + 256 * ofLE bs) / 256 = ofLE bs by omega, ih]
    congr 1
    rw [← UInt8.toNat_inj, UInt8.toNat_ofNat']
    omega

/-- `w` bytes denote a number below `256 ^ w`. -/
lemma ofLE_lt (bs : List UInt8) : ofLE bs < 256 ^ bs.length := by
  induction bs with
  | nil => simp [ofLE]
  | cons b bs ih =>
    have hb := b.toNat_lt
    rw [ofLE, List.length_cons, pow_succ]
    omega

end LittleEndian

/-- An encoding of the values of `α` in `width` bytes, a bijection onto the byte strings of that
length. -/
structure FixedCodec (α : Type*) where
  /-- The number of bytes of every encoding. -/
  width : ℕ
  /-- The bytes of a value. -/
  encode : α → List UInt8
  /-- The value of some bytes; meaningful on byte strings of length `width`. -/
  decode : List UInt8 → α
  /-- No value has an empty encoding. -/
  width_pos : 0 < width
  /-- Every encoding has the codec's width. -/
  length_encode : ∀ a, (encode a).length = width
  /-- Decoding undoes encoding. -/
  decode_encode : ∀ a, decode (encode a) = a
  /-- Encoding undoes decoding on byte strings of the codec's width. -/
  encode_decode : ∀ bs, bs.length = width → encode (decode bs) = bs

namespace FixedCodec

open List

variable {α : Type*} (c : FixedCodec α)

/-- An array of records. -/
def encodeAll (xs : List α) : List UInt8 := xs.flatMap c.encode

/-- The whole records of a byte string, in order; trailing bytes of an incomplete record are
ignored. -/
def decodeAll (bs : List UInt8) : List α :=
  if c.width ≤ bs.length then c.decode (bs.take c.width) :: decodeAll (bs.drop c.width) else []
termination_by bs.length
decreasing_by
  have := c.width_pos
  rw [length_drop]
  omega

attribute [elab_as_elim] decodeAll.induct_unfolding

/-- The record at index `i`, read at byte offset `i * width`. -/
def nth (bs : List UInt8) (i : ℕ) : α := c.decode ((bs.drop (i * c.width)).take c.width)

@[simp] lemma encodeAll_nil : c.encodeAll [] = [] := rfl

@[simp] lemma encodeAll_cons (x : α) (xs : List α) :
    c.encodeAll (x :: xs) = c.encode x ++ c.encodeAll xs := rfl

variable {bs : List UInt8} (xs : List α)

@[simp] lemma encodeAll_append (ys : List α) :
    c.encodeAll (xs ++ ys) = c.encodeAll xs ++ c.encodeAll ys :=
  flatMap_append

@[simp] lemma length_encodeAll : (c.encodeAll xs).length = xs.length * c.width := by
  induction xs with
  | nil => simp
  | cons x xs ih =>
    rw [encodeAll_cons, length_append, c.length_encode, ih, length_cons]
    ring

/-- The first bytes of an array are its first records. -/
lemma take_encodeAll (n : ℕ) : (c.encodeAll xs).take (n * c.width) = c.encodeAll (xs.take n) := by
  induction xs generalizing n with
  | nil => simp
  | cons x xs ih =>
    cases n with
    | zero => simp
    | succ n =>
      have hn : (n + 1) * c.width = (c.encode x).length + n * c.width := by
        rw [c.length_encode]
        ring
      rw [take_succ_cons, encodeAll_cons, encodeAll_cons, hn, take_length_add_append, ih]

/-- The bytes after the first records of an array are the other records. -/
lemma drop_encodeAll (n : ℕ) : (c.encodeAll xs).drop (n * c.width) = c.encodeAll (xs.drop n) := by
  induction xs generalizing n with
  | nil => simp
  | cons x xs ih =>
    cases n with
    | zero => simp
    | succ n =>
      have hn : (n + 1) * c.width = (c.encode x).length + n * c.width := by
        rw [c.length_encode]
        ring
      rw [drop_succ_cons, encodeAll_cons, hn, drop_length_add_append, ih]

@[simp] lemma decodeAll_nil : c.decodeAll [] = [] := by
  rw [decodeAll, if_neg]
  exact Nat.not_le.mpr c.width_pos

/-- An array that starts with an encoded record decodes to that record and the rest. -/
lemma decodeAll_encode_append (x : α) (bs : List UInt8) :
    c.decodeAll (c.encode x ++ bs) = x :: c.decodeAll bs := by
  have hlen : c.width ≤ (c.encode x ++ bs).length := by
    rw [length_append, c.length_encode]
    omega
  rw [decodeAll, if_pos hlen]
  congr 1
  · rw [take_left' (c.length_encode x), c.decode_encode]
  · rw [drop_left' (c.length_encode x)]

/-- Decoding an array of records returns the records. -/
@[simp] lemma decodeAll_encodeAll : c.decodeAll (c.encodeAll xs) = xs := by
  induction xs with
  | nil => simp
  | cons x xs ih => rw [encodeAll_cons, decodeAll_encode_append, ih]

/-- A byte string that consists of whole records is the array of its records. -/
lemma encodeAll_decodeAll (h : c.width ∣ bs.length) : c.encodeAll (c.decodeAll bs) = bs := by
  have hpos := c.width_pos
  fun_induction decodeAll c bs with
  | case1 bs hle ih =>
    rw [encodeAll_cons, c.encode_decode _ (by simp [hle]), ih, take_append_drop]
    rw [length_drop]
    exact Nat.dvd_sub h dvd_rfl
  | case2 bs hlt =>
    obtain rfl : bs = [] := eq_nil_of_length_eq_zero (Nat.eq_zero_of_dvd_of_lt h (by omega))
    rfl

/-- The number of whole records. -/
lemma length_decodeAll (bs : List UInt8) : (c.decodeAll bs).length = bs.length / c.width := by
  have hpos := c.width_pos
  fun_induction decodeAll c bs with
  | case1 bs hle ih =>
    rw [length_cons, ih, length_drop, Nat.div_eq_sub_div hpos hle]
  | case2 bs hlt => rw [length_nil, Nat.div_eq_of_lt (by omega)]

/-- Random access into an array reads the record at that index. -/
lemma nth_encodeAll {xs : List α} {i : ℕ} {x : α} (h : xs[i]? = some x) (tail : List UInt8) :
    c.nth (c.encodeAll xs ++ tail) i = x := by
  induction xs generalizing i with
  | nil => simp at h
  | cons y xs ih =>
    rw [nth, encodeAll_cons, append_assoc]
    cases i with
    | zero =>
      obtain rfl : y = x := by simpa using h
      rw [Nat.zero_mul, drop_zero, take_left' (c.length_encode y), c.decode_encode]
    | succ i =>
      rw [show (i + 1) * c.width = c.width + i * c.width by ring, ← drop_drop,
        drop_left' (c.length_encode y)]
      exact ih (by simpa using h)

/-- Random access agrees with the list of all records. -/
lemma nth_eq_getElem (h : c.width ∣ bs.length) {i : ℕ} (hi : i < (c.decodeAll bs).length) :
    c.nth bs i = (c.decodeAll bs)[i] := by
  have := c.nth_encodeAll (getElem?_eq_getElem hi) []
  rwa [append_nil, c.encodeAll_decodeAll h] at this

/-- The records read one by one at their indices are the first bytes of the array. -/
lemma encodeAll_map_nth {n : ℕ} (h : n * c.width ≤ bs.length) :
    c.encodeAll ((List.range n).map (c.nth bs)) = bs.take (n * c.width) := by
  induction n with
  | zero => simp
  | succ n ih =>
    have hn : (n + 1) * c.width = n * c.width + c.width := by ring
    have hlen : ((bs.drop (n * c.width)).take c.width).length = c.width := by
      rw [length_take, length_drop]
      omega
    rw [range_succ, map_append, map_singleton, encodeAll_append, ih (by omega),
      encodeAll_cons, encodeAll_nil, append_nil, nth, c.encode_decode _ hlen, hn,
      take_add]

/-- Arrays with the same bytes have the same records. -/
lemma encodeAll_injective : Function.Injective c.encodeAll := by
  intro xs ys h
  rw [← c.decodeAll_encodeAll xs, h, c.decodeAll_encodeAll]

end FixedCodec
