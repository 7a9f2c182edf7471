import Tgrep.Git.Entries

/-!
# Numbers in an index

Git writes a number in one way only. What is read is that number, if it fits in a word. A number
that does not fit is refused only if an addition on the way overflows, for the shift is not checked:
otherwise what is left of it in a word is returned.

## Main definitions

* `exactVarint`: the number that bytes begin with, if it fits in a word.
* `Refused`: an addition on the way overflows.

## Main results

* `readVarint_exact_iff`: when what is read is exact.
-/

namespace Tgrep.GitIndex

open BigEndian OffsetVarint Splice List Option

/-- The number at an offset and the offset behind it, if the number fits in a word. -/
def exactVarint (bytes : List UInt8) (pos : ℕ) : Option (ℕ × ℕ) :=
  (readAt (bytes.drop pos)).bind fun r => if r.1 < 2 ^ 64 then some (r.1, pos + r.2) else none

/-- Some number up to a byte that another one follows is one below a multiple of the word size, so
that the addition behind it overflows. -/
def Refused : List UInt8 → UInt8 → ℕ → Prop
  | [], byte, value => ¬ byte < 0x80 ∧ 2 ^ 64 ∣ value + 1
  | next :: rest, byte, value => ¬ byte < 0x80 ∧
    (2 ^ 64 ∣ value + 1 ∨ Refused rest next ((value + 1) * 128 + next.toNat % 128))

/-- Nothing is read iff the bytes end within the number, or an addition overflows. -/
lemma readVarintFrom_eq_none (bytes : List UInt8) (byte : UInt8) (value length pos : ℕ) :
    readVarintFrom bytes byte (value % 2 ^ 64) pos = none ↔
      readFrom bytes byte value length = none ∨ Refused bytes byte value := by
  induction bytes generalizing byte value length pos with
  | nil =>
    rw [readVarintFrom, readFrom, Refused]
    split_ifs with hlast <;> simp [hlast]
  | cons next bytes ih =>
    rw [readVarintFrom, readFrom, Refused]
    dsimp only
    split_ifs with hlast hadd hsum
    · simp [hlast]
    · exact iff_of_true rfl (.inr ⟨hlast, .inl (by omega)⟩)
    · omega
    · have hmod : (value % 2 ^ 64 + 1) * 2 ^ 7 % 2 ^ 64 + next.toNat % 128 =
          ((value + 1) * 128 + next.toNat % 128) % 2 ^ 64 := by omega
      have hdvd : ¬ 2 ^ 64 ∣ value + 1 := by omega
      rw [hmod, ih next _ (length + 1)]
      simp only [hlast, hdvd, not_false_eq_true, false_or, true_and]

/-- The bytes of a number that another one follows all say so. -/
lemma not_lt_of_mem_writeMore {n : ℕ} {byte : UInt8} (h : byte ∈ writeMore n) : ¬ byte < 0x80 := by
  induction n using Nat.strong_induction_on with
  | h n ih =>
    rw [writeMore] at h
    split_ifs at h with hn
    · obtain rfl := mem_singleton.mp h
      exact not_ofNat_lt n
    · rcases mem_append.mp h with h | h
      · exact ih (n / 128 - 1) (by omega) h
      · obtain rfl := mem_singleton.mp h
        exact not_ofNat_lt n

/-- Bytes that another one follows are those of one number. -/
lemma writeMore_injective {m n : ℕ} (h : writeMore m = writeMore n) : m = n := by
  have hread : readAt (writeMore m ++ [0]) = readAt (writeMore n ++ [0]) := by rw [h]
  have hlast : ∀ k : ℕ, readAt (writeMore k ++ [0]) =
      some ((k + 1) * 128, (writeMore k).length + 1) := by
    intro k
    rw [readAt_writeMore, readFrom, if_neg (not_ofNat_lt k), readFrom_last (by decide)]
    rfl
  rw [hlast, hlast] at hread
  have hvalue := (Prod.mk.inj (some.inj hread)).1
  omega

/-- A byte that none follows is not the start of bytes that all continue. -/
lemma soFar_append_ne {byte : UInt8} (hbyte : byte < 0x80) (value m : ℕ) (tail : List UInt8) :
    soFar byte value ++ tail ≠ writeMore m := by
  intro heq
  rw [soFar, if_pos hbyte] at heq
  have hlast : UInt8.ofNat (value % 128) ∈ write value := by
    rw [write]
    simp
  exact not_lt_of_mem_writeMore (heq ▸ mem_append_left _ hlast) (ofNat_lt value)

/-- **When an addition overflows**: the bytes continue to those of a number one below a multiple of
the word size. -/
theorem refused_iff {bytes : List UInt8} {byte : UInt8} {value : ℕ} :
    Refused bytes byte value ↔
      ∃ m, 2 ^ 64 ∣ m + 1 ∧ ∃ tail, tail <+: bytes ∧ soFar byte value ++ tail = writeMore m := by
  induction bytes generalizing byte value with
  | nil =>
    rw [Refused]
    by_cases hbyte : byte < 0x80
    · exact iff_of_false (fun h => h.1 hbyte)
        fun ⟨m, _, tail, _, heq⟩ => soFar_append_ne hbyte value m tail heq
    · have hsoFar : soFar byte value = writeMore value := if_neg hbyte
      constructor
      · exact fun h => ⟨value, h.2, [], prefix_rfl, by rw [hsoFar, append_nil]⟩
      · rintro ⟨m, hdvd, tail, htail, heq⟩
        rw [prefix_nil.mp htail, append_nil, hsoFar] at heq
        rw [writeMore_injective heq]
        exact ⟨hbyte, hdvd⟩
  | cons next bytes ih =>
    rw [Refused]
    by_cases hbyte : byte < 0x80
    · exact iff_of_false (fun h => h.1 hbyte)
        fun ⟨m, _, tail, _, heq⟩ => soFar_append_ne hbyte value m tail heq
    · have hsoFar : soFar byte value = writeMore value := if_neg hbyte
      have hnext := soFar_next hbyte value next
      constructor
      · rintro ⟨-, hdvd | hrest⟩
        · exact ⟨value, hdvd, [], nil_prefix, by rw [hsoFar, append_nil]⟩
        · obtain ⟨m, hdvd, tail, htail, heq⟩ := ih.mp hrest
          refine ⟨m, hdvd, next :: tail, (prefix_cons_inj next).mpr htail, ?_⟩
          rw [← heq, hnext, append_assoc, singleton_append]
      · rintro ⟨m, hdvd, tail, htail, heq⟩
        refine ⟨hbyte, ?_⟩
        cases tail with
        | nil =>
          rw [append_nil, hsoFar] at heq
          exact .inl (writeMore_injective heq ▸ hdvd)
        | cons b tail =>
          obtain ⟨rfl, hrest⟩ := cons_prefix_cons.mp htail
          refine .inr (ih.mpr ⟨m, hdvd, tail, hrest, ?_⟩)
          rw [hnext, append_assoc, singleton_append, heq]

/-- An overlong number is refused, or read as what is left of it in a word. -/
lemma readVarint_eq_none (bytes : List UInt8) (pos : ℕ) :
    readVarint bytes pos = none ↔ readAt (bytes.drop pos) = none ∨
      ∃ m, 2 ^ 64 ∣ m + 1 ∧ writeMore m <+: bytes.drop pos := by
  rw [readVarint]
  cases hdrop : bytes.drop pos with
  | nil => simp [readAt]
  | cons byte rest =>
    have hsmall : byte.toNat % 128 = byte.toNat % 128 % 2 ^ 64 := by omega
    dsimp only
    rw [hsmall, readVarintFrom_eq_none rest byte _ 1, readAt, refused_iff, soFar_first]
    refine or_congr_right (exists_congr fun m => and_congr_right fun _ => ?_)
    constructor
    · rintro ⟨tail, htail, heq⟩
      rw [← heq]
      exact (prefix_cons_inj byte).mpr htail
    · intro hprefix
      have hpos := length_writeMore_pos m
      cases hmore : writeMore m with
      | nil =>
        rw [hmore] at hpos
        exact absurd hpos (Nat.lt_irrefl 0)
      | cons b tail =>
        rw [hmore] at hprefix
        obtain ⟨rfl, htail⟩ := cons_prefix_cons.mp hprefix
        exact ⟨tail, htail, rfl⟩

/-- The bytes of a number do not go on to those of another one. -/
lemma write_of_readAt {bytes : List UInt8} {n len : ℕ} (h : readAt bytes = some (n, len)) :
    bytes.take len = write n := by
  obtain ⟨rest, rfl, rfl⟩ := readAt_eq_some h
  exact take_left

/-- **When a number is read exactly.** What is read is the number with the offset behind it, or
nothing if the bytes end within it or it does not fit in a word, iff the number fits, or the bytes
end within it, or a part of it that is followed by another byte is one below a multiple of the word
size. Two places where the condition holds and the same number is read have the same bytes.

**Proof sketch.** A number that fits is read. One that does not fit has to be refused, so an
addition has to overflow; otherwise something is returned. Since numbers are written in one way
only, places where the number itself is read agree. -/
theorem readVarint_exact_iff (bytes : List UInt8) (pos : ℕ) :
    (readVarint bytes pos = exactVarint bytes pos ↔
      ∀ n len, readAt (bytes.drop pos) = some (n, len) →
        n < 2 ^ 64 ∨ ∃ m, 2 ^ 64 ∣ m + 1 ∧ writeMore m <+: bytes.drop pos) ∧
    ∀ bytes' pos' n stop stop', readVarint bytes pos = exactVarint bytes pos →
      readVarint bytes' pos' = exactVarint bytes' pos' → readVarint bytes pos = some (n, stop) →
      readVarint bytes' pos' = some (n, stop') →
      slice bytes pos stop = slice bytes' pos' stop' := by
  have hexact : ∀ {bytes : List UInt8} {pos n stop : ℕ},
      exactVarint bytes pos = some (n, stop) → slice bytes pos stop = write n := by
    intro bytes pos n stop h
    obtain ⟨⟨n', len⟩, hread, hsome⟩ := Option.bind_eq_some_iff.mp h
    rw [ite_none_right_eq_some] at hsome
    obtain ⟨rfl, rfl⟩ := Prod.mk.inj (some.inj hsome.2)
    rw [slice, drop_take, Nat.add_sub_cancel_left]
    exact write_of_readAt hread
  refine ⟨?_, fun bytes' pos' n stop stop' heq heq' hread hread' => ?_⟩
  · constructor
    · intro heq n len hread
      by_contra hnot
      obtain ⟨hlarge, hrefused⟩ := not_or.mp hnot
      have hnone : exactVarint bytes pos = none := by
        rw [exactVarint, hread]
        exact if_neg hlarge
      rw [hnone, readVarint_eq_none, hread] at heq
      exact hrefused (heq.resolve_left (by simp))
    · intro hfits
      rw [exactVarint]
      cases hread : readAt (bytes.drop pos) with
      | none => exact (readVarint_eq_none bytes pos).mpr (.inl hread)
      | some r =>
        by_cases hsmall : r.1 < 2 ^ 64
        · rw [readVarint_of_readAt hread hsmall, bind_some, if_pos hsmall]
        · rw [bind_some, if_neg hsmall]
          exact (readVarint_eq_none bytes pos).mpr
            (.inr ((hfits r.1 r.2 hread).resolve_left hsmall))
  · rw [heq] at hread
    rw [heq'] at hread'
    rw [hexact hread, hexact hread']

/-- Ten bytes of a number too large for a word by one are read as zero. -/
theorem readVarint_wraps :
    readVarint [0x80, 0xfe, 0xfe, 0xfe, 0xfe, 0xfe, 0xfe, 0xfe, 0xff, 0x00] 0 ≠
      exactVarint [0x80, 0xfe, 0xfe, 0xfe, 0xfe, 0xfe, 0xfe, 0xfe, 0xff, 0x00] 0 := by
  decide +kernel

end Tgrep.GitIndex
