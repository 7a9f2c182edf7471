import Tgrep.Data.FixedCodec

/-!
# Numbers with the most significant byte first

Big-endian words, and numbers of any size in seven bits a byte, where each byte that goes on counts
for one more, so that no number is written twice.

## Main definitions

* `BigEndian.toBE`, `BigEndian.ofBE`: a number as big-endian bytes, and back.
* `OffsetVarint.write`: a number in seven bits a byte.
* `OffsetVarint.readAt`: the number that bytes begin with, and its length.

## Main results

* `BigEndian.ofBE_toBE`: words round trip.
* `OffsetVarint.readAt_write`: numbers round trip.
* `OffsetVarint.readAt_eq_some`: a number is written in one way only.
-/

namespace BigEndian

open LittleEndian

/-- The `w` low-order bytes of a number, most significant first. -/
def toBE (w n : ℕ) : List UInt8 := (toLE w n).reverse

/-- The number whose big-endian bytes are given. -/
def ofBE (bytes : List UInt8) : ℕ := ofLE bytes.reverse

@[simp] lemma length_toBE (w n : ℕ) : (toBE w n).length = w := by
  rw [toBE, List.length_reverse, length_toLE]

/-- The bytes of a number that fits denote it. -/
lemma ofBE_toBE {w n : ℕ} (h : n < 256 ^ w) : ofBE (toBE w n) = n := by
  rw [ofBE, toBE, List.reverse_reverse, ofLE_toLE h]

/-- The bytes of the number that some bytes denote are those bytes. -/
lemma toBE_ofBE (bytes : List UInt8) : toBE bytes.length (ofBE bytes) = bytes := by
  have hreverse := toLE_ofLE bytes.reverse
  rw [List.length_reverse] at hreverse
  rw [toBE, ofBE, hreverse, List.reverse_reverse]

lemma ofBE_lt (bytes : List UInt8) : ofBE bytes < 256 ^ bytes.length := by
  have hlt := ofLE_lt bytes.reverse
  rwa [List.length_reverse] at hlt

end BigEndian

namespace OffsetVarint

open List

/-- The bytes of a number that another one follows. -/
def writeMore (n : ℕ) : List UInt8 :=
  (if n < 128 then [] else writeMore (n / 128 - 1)) ++ [UInt8.ofNat (128 + n % 128)]
termination_by n

/-- The bytes of a number. -/
def write (n : ℕ) : List UInt8 :=
  (if n < 128 then [] else writeMore (n / 128 - 1)) ++ [UInt8.ofNat (n % 128)]

/-- Go on behind a byte with the number up to it. -/
def readFrom : List UInt8 → UInt8 → ℕ → ℕ → Option (ℕ × ℕ)
  | [], byte, value, length => if byte < 0x80 then some (value, length) else none
  | next :: rest, byte, value, length =>
    if byte < 0x80 then some (value, length)
    else readFrom rest next ((value + 1) * 128 + next.toNat % 128) (length + 1)

/-- The number that bytes begin with, and its length. -/
def readAt : List UInt8 → Option (ℕ × ℕ)
  | [] => none
  | byte :: rest => readFrom rest byte (byte.toNat % 128) 1

variable {byte : UInt8} (n : ℕ)

lemma readFrom_last (h : byte < 0x80) (rest : List UInt8) (value length : ℕ) :
    readFrom rest byte value length = some (value, length) := by
  cases rest with
  | nil => rw [readFrom, if_pos h]
  | cons next rest => rw [readFrom, if_pos h]

/-- A byte that another one follows. -/
lemma not_ofNat_lt : ¬ UInt8.ofNat (128 + n % 128) < 0x80 := by
  rw [UInt8.lt_iff_toNat_lt, UInt8.toNat_ofNat']
  change ¬ (128 + n % 128) % 256 < 128
  omega

lemma toNat_ofNat_more : (UInt8.ofNat (128 + n % 128)).toNat % 128 = n % 128 := by
  rw [UInt8.toNat_ofNat']
  omega

lemma toNat_ofNat_last : (UInt8.ofNat (n % 128)).toNat % 128 = n % 128 := by
  rw [UInt8.toNat_ofNat']
  omega

lemma ofNat_lt : UInt8.ofNat (n % 128) < 0x80 := by
  rw [UInt8.lt_iff_toNat_lt, UInt8.toNat_ofNat']
  change n % 128 % 256 < 128
  omega

lemma length_writeMore_pos : 0 < (writeMore n).length := by
  rw [writeMore, length_append, length_singleton]
  omega

/-- Behind the bytes of a number that another one follows, that number is known. -/
lemma readAt_writeMore (rest : List UInt8) :
    readAt (writeMore n ++ rest) =
      readFrom rest (UInt8.ofNat (128 + n % 128)) n (writeMore n).length := by
  induction n using Nat.strong_induction_on generalizing rest with
  | h n ih =>
    rw [writeMore]
    split_ifs with hn
    · rw [nil_append, singleton_append, readAt, toNat_ofNat_more, Nat.mod_eq_of_lt hn]
      rfl
    · rw [append_assoc, ih (n / 128 - 1) (by omega), singleton_append, readFrom,
        if_neg (not_ofNat_lt _), toNat_ofNat_more]
      have hvalue : (n / 128 - 1 + 1) * 128 + n % 128 = n := by omega
      rw [hvalue, length_append, length_singleton]

/-- **Numbers round trip.** -/
theorem readAt_write (rest : List UInt8) :
    readAt (write n ++ rest) = some (n, (write n).length) := by
  rw [write]
  split_ifs with hn
  · rw [nil_append, singleton_append, readAt, readFrom_last (ofNat_lt n),
      toNat_ofNat_last, Nat.mod_eq_of_lt hn]
    rfl
  · rw [append_assoc, readAt_writeMore, singleton_append, readFrom,
      if_neg (not_ofNat_lt _), readFrom_last (ofNat_lt n), toNat_ofNat_last]
    have hvalue : (n / 128 - 1 + 1) * 128 + n % 128 = n := by omega
    rw [hvalue, length_append, length_singleton]

/-- The bytes of a number up to a byte, by whether another one follows. -/
def soFar (byte : UInt8) (value : ℕ) : List UInt8 :=
  if byte < 0x80 then write value else writeMore value

lemma soFar_first (byte : UInt8) : soFar byte (byte.toNat % 128) = [byte] := by
  have hlt := byte.toNat_lt
  rw [soFar]
  split_ifs with hlast
  · have h : byte.toNat < 128 := UInt8.lt_iff_toNat_lt.mp hlast
    rw [write, if_pos (by omega), nil_append, Nat.mod_mod, Nat.mod_eq_of_lt h, UInt8.ofNat_toNat]
  · have h : ¬ byte.toNat < 128 := fun h => hlast (UInt8.lt_iff_toNat_lt.mpr h)
    have hbyte : 128 + byte.toNat % 128 % 128 = byte.toNat := by omega
    rw [writeMore, if_pos (by omega), nil_append, hbyte, UInt8.ofNat_toNat]

lemma soFar_next (hbyte : ¬ byte < 0x80) (value : ℕ) (next : UInt8) :
    soFar next ((value + 1) * 128 + next.toNat % 128) = soFar byte value ++ [next] := by
  have hlt := next.toNat_lt
  have hvalue : ((value + 1) * 128 + next.toNat % 128) / 128 - 1 = value := by omega
  have hmod : ((value + 1) * 128 + next.toNat % 128) % 128 = next.toNat % 128 := by omega
  rw [soFar, soFar, if_neg hbyte]
  split_ifs with hlast
  · have h : next.toNat < 128 := UInt8.lt_iff_toNat_lt.mp hlast
    rw [write, if_neg (by omega), hvalue, hmod, Nat.mod_eq_of_lt h, UInt8.ofNat_toNat]
  · have h : ¬ next.toNat < 128 := fun h => hlast (UInt8.lt_iff_toNat_lt.mpr h)
    have hnext : 128 + next.toNat % 128 = next.toNat := by omega
    rw [writeMore, if_neg (by omega), hvalue, hmod, hnext, UInt8.ofNat_toNat]

lemma readFrom_eq_some {bytes : List UInt8} {value length n len : ℕ}
    (h : readFrom bytes byte value length = some (n, len)) :
    ∃ tail rest, bytes = tail ++ rest ∧ soFar byte value ++ tail = write n ∧
      len = length + tail.length := by
  induction bytes generalizing byte value length with
  | nil =>
    rw [readFrom] at h
    split_ifs at h with hlast
    obtain ⟨rfl, rfl⟩ := Prod.mk.inj (Option.some.inj h)
    exact ⟨[], [], rfl, by rw [soFar, if_pos hlast, append_nil], rfl⟩
  | cons next bytes ih =>
    rw [readFrom] at h
    split_ifs at h with hlast
    · obtain ⟨rfl, rfl⟩ := Prod.mk.inj (Option.some.inj h)
      exact ⟨[], next :: bytes, rfl, by rw [soFar, if_pos hlast, append_nil], rfl⟩
    · obtain ⟨tail, rest, rfl, hwrite, rfl⟩ := ih h
      refine ⟨next :: tail, rest, rfl, ?_, ?_⟩
      · rw [← hwrite, soFar_next hlast, append_assoc, singleton_append]
      · rw [length_cons]
        omega

/-- **A number is written in one way only.** -/
theorem readAt_eq_some {bytes : List UInt8} {n len : ℕ} (h : readAt bytes = some (n, len)) :
    ∃ rest, bytes = write n ++ rest ∧ len = (write n).length := by
  cases bytes with
  | nil => cases h
  | cons byte bytes =>
    obtain ⟨tail, rest, rfl, hwrite, rfl⟩ := readFrom_eq_some h
    rw [soFar_first, singleton_append] at hwrite
    refine ⟨rest, by rw [← hwrite, cons_append], ?_⟩
    rw [← hwrite, length_cons]
    omega

end OffsetVarint
