import Tgrep.Git.Index

/-!
# Compressed bitmaps

A bitmap is written as runs of words of which all bits are the same, each behind a marker that also
says how many literal words follow.

## Main definitions

* `Marker`, `bitsFrom`: a run with its literal words, and the bits that markers set.
* `encodeBitmap`: a bitmap as Git writes it.

## Main results

* `readEwah_encodeBitmap`: the bits that are read are those that were written.
-/

namespace Tgrep.GitIndex

open Splice BigEndian List

/-- A run of words of which all bits are the same, and the literal words behind it. -/
structure Marker where
  ones : Bool
  run : ℕ
  run_lt : run < 2 ^ 32
  literals : List UInt64
  literals_lt : literals.length < 2 ^ 31

/-- The word of a marker. -/
def Marker.word (m : Marker) : ℕ :=
  (if m.ones then 1 else 0) + m.run * 2 + m.literals.length * 2 ^ 33

/-- The words of a bitmap. -/
def bitmapWords (markers : List Marker) : List ℕ :=
  markers.flatMap fun m => m.word :: m.literals.map UInt64.toNat

/-- The number of bits. -/
def bitmapSize : List Marker → ℕ
  | [] => 0
  | m :: markers => m.run * 64 + m.literals.length * 64 + bitmapSize markers

/-- The bits that literal words set, from a position on. -/
def literalBits : ℕ → List UInt64 → List ℕ
  | _, [] => []
  | position, w :: ws => (setBits w.toNat).map (position + ·) ++ literalBits (position + 64) ws

/-- The bits of a run. -/
def Marker.runBits (m : Marker) (position : ℕ) : List ℕ :=
  if m.ones then List.range' position (m.run * 64) else []

/-- The bits that a bitmap sets, from a position on. -/
def bitsFrom : ℕ → List Marker → List ℕ
  | _, [] => []
  | position, m :: markers =>
    m.runBits position ++ (literalBits (position + m.run * 64) m.literals ++
      bitsFrom (position + m.run * 64 + m.literals.length * 64) markers)

/-- The runs of ones end no later than a limit, and the literal bits are below it. -/
def Within (limit : ℕ) : ℕ → List Marker → Prop
  | _, [] => True
  | position, m :: markers =>
    (m.ones = true → position + m.run * 64 ≤ limit) ∧
      (∀ bit ∈ literalBits (position + m.run * 64) m.literals, bit < limit) ∧
      Within limit (position + m.run * 64 + m.literals.length * 64) markers

/-- A bitmap as Git writes it. -/
def encodeBitmap (bitCount lastMarker : ℕ) (markers : List Marker) : List UInt8 :=
  toBE 4 bitCount ++ (toBE 4 (bitmapWords markers).length ++
    ((bitmapWords markers).flatMap (toBE 8) ++ toBE 4 lastMarker))

/-! ## Words -/

/-- What a marker says. -/
lemma Marker.word_spec (m : Marker) :
    m.word < 2 ^ 64 ∧ m.word.testBit 0 = m.ones ∧ (m.word >>> 1) % 2 ^ 32 = m.run ∧
      m.word >>> 33 = m.literals.length := by
  have hrun := m.run_lt
  have hliterals := m.literals_lt
  rw [Nat.testBit_eq_decide_div_mod_eq, Nat.shiftRight_eq_div_pow, Nat.shiftRight_eq_div_pow, word]
  cases m.ones with
  | true =>
    rw [if_pos rfl]
    exact ⟨by omega, decide_eq_true (by omega), by omega, by omega⟩
  | false =>
    rw [if_neg Bool.false_ne_true]
    exact ⟨by omega, decide_eq_false (by omega), by omega, by omega⟩

variable {limit : ℕ} {visit : ℕ → Bool} {markers : List Marker}

/-- **Literal words are read** up to a bit that is not allowed. -/
theorem readWords_literals (literals : List UInt64) (words : List ℕ) (position : ℕ)
    (hsize : position + literals.length * 64 < 2 ^ 64) :
    readWords limit visit (literals.map UInt64.toNat ++ words) position literals.length =
      if ∀ bit ∈ literalBits position literals, bit < limit ∧ visit bit = true then
        (readWords limit visit words (position + literals.length * 64) 0).map
          (literalBits position literals ++ ·)
      else none := by
  induction literals generalizing position with
  | nil =>
    rw [if_pos fun bit hbit => by cases hbit]
    simp [literalBits]
  | cons w literals ih =>
    rw [length_cons] at hsize
    rw [map_cons, cons_append, length_cons, readWords, literalBits, ih (position + 64) (by omega)]
    have hbits : (((setBits w.toNat).map (position + ·)).all fun bit =>
        decide (bit < 2 ^ 64) && decide (bit < limit) && visit bit) = true ↔
          ∀ bit ∈ (setBits w.toNat).map (position + ·), bit < limit ∧ visit bit = true := by
      rw [all_eq_true]
      refine forall₂_congr fun bit hbit => ?_
      obtain ⟨i, hi, rfl⟩ := mem_map.mp hbit
      have hlt := mem_range.mp (mem_filter.mp hi).1
      rw [Bool.and_eq_true, Bool.and_eq_true, decide_eq_true_eq, decide_eq_true_eq,
        and_iff_right (show position + i < 2 ^ 64 by omega)]
    rw [if_neg (show ¬ 2 ^ 64 ≤ position + 64 by omega)]
    simp only [hbits, forall_mem_append]
    have hposition : position + 64 + literals.length * 64 = position + (literals.length + 1) * 64 :=
      by omega
    rw [hposition]
    by_cases hfirst : ∀ bit ∈ (setBits w.toNat).map (position + ·), bit < limit ∧ visit bit = true
    · rw [if_pos hfirst]
      by_cases hrest : ∀ bit ∈ literalBits (position + 64) literals, bit < limit ∧ visit bit = true
      · rw [if_pos hrest, if_pos ⟨hfirst, hrest⟩, Option.map_map]
        simp only [Function.comp_def, append_assoc]
      · rw [if_neg hrest, if_neg fun h => hrest h.2, Option.map_none]
    · rw [if_neg hfirst, if_neg fun h => hfirst h.1]

instance (limit : ℕ) : (position : ℕ) → (markers : List Marker) →
    Decidable (Within limit position markers)
  | _, [] => isTrue trivial
  | position, m :: markers =>
    have := instDecidableWithin limit (position + m.run * 64 + m.literals.length * 64) markers
    inferInstanceAs (Decidable (_ ∧ _ ∧ _))

lemma within_cons {position : ℕ} {m : Marker} :
    Within limit position (m :: markers) ↔
      (m.ones = true → position + m.run * 64 ≤ limit) ∧
        (∀ bit ∈ literalBits (position + m.run * 64) m.literals, bit < limit) ∧
        Within limit (position + m.run * 64 + m.literals.length * 64) markers := Iff.rfl

/-- What is allowed in a bitmap, marker by marker. -/
lemma allowed_cons {position : ℕ} {m : Marker} :
    (Within limit position (m :: markers) ∧
      ∀ bit ∈ bitsFrom position (m :: markers), visit bit = true) ↔
    ((m.ones = true → position + m.run * 64 ≤ limit) ∧
      ∀ bit ∈ m.runBits position, visit bit = true) ∧
    (∀ bit ∈ literalBits (position + m.run * 64) m.literals, bit < limit ∧ visit bit = true) ∧
    Within limit (position + m.run * 64 + m.literals.length * 64) markers ∧
      ∀ bit ∈ bitsFrom (position + m.run * 64 + m.literals.length * 64) markers,
        visit bit = true := by
  rw [within_cons, bitsFrom, forall_mem_append, forall_mem_append]
  constructor
  · rintro ⟨⟨hrun, hlits, hrest⟩, hrunVisit, hlitsVisit, hrestVisit⟩
    exact ⟨⟨hrun, hrunVisit⟩, fun bit hbit => ⟨hlits bit hbit, hlitsVisit bit hbit⟩, hrest,
      hrestVisit⟩
  · rintro ⟨⟨hrun, hrunVisit⟩, hlits, hrest, hrestVisit⟩
    exact ⟨⟨hrun, fun bit hbit => (hlits bit hbit).1, hrest⟩, hrunVisit,
      fun bit hbit => (hlits bit hbit).2, hrestVisit⟩

/-- **Words are read** up to a bit that is not allowed. -/
theorem readWords_bitmapWords (markers : List Marker) (position : ℕ)
    (hsize : position + bitmapSize markers < 2 ^ 64) :
    readWords limit visit (bitmapWords markers) position 0 =
      if Within limit position markers ∧ ∀ bit ∈ bitsFrom position markers, visit bit = true then
        some (bitsFrom position markers)
      else none := by
  induction markers generalizing position with
  | nil =>
    rw [if_pos ⟨trivial, fun bit hbit => by cases hbit⟩]
    rfl
  | cons m markers ih =>
    obtain ⟨-, hones, hrun, hliterals⟩ := m.word_spec
    rw [bitmapSize] at hsize
    have hwords : bitmapWords (m :: markers) =
        m.word :: (m.literals.map UInt64.toNat ++ bitmapWords markers) := rfl
    rw [hwords, readWords, hones, hrun, hliterals, readWords_literals _ _ _ (by omega),
      ih _ (by omega), Nat.add_sub_cancel_left, if_neg (by omega)]
    simp only [allowed_cons]
    rw [bitsFrom]
    -- what follows the run
    have hbehind : (if ∀ bit ∈ literalBits (position + m.run * 64) m.literals,
          bit < limit ∧ visit bit = true then
        (if Within limit (position + m.run * 64 + m.literals.length * 64) markers ∧
            ∀ bit ∈ bitsFrom (position + m.run * 64 + m.literals.length * 64) markers,
              visit bit = true then
          some (bitsFrom (position + m.run * 64 + m.literals.length * 64) markers)
        else none).map (literalBits (position + m.run * 64) m.literals ++ ·)
      else none) =
      if (∀ bit ∈ literalBits (position + m.run * 64) m.literals,
          bit < limit ∧ visit bit = true) ∧
        Within limit (position + m.run * 64 + m.literals.length * 64) markers ∧
          ∀ bit ∈ bitsFrom (position + m.run * 64 + m.literals.length * 64) markers,
            visit bit = true then
        some (literalBits (position + m.run * 64) m.literals ++
          bitsFrom (position + m.run * 64 + m.literals.length * 64) markers)
      else none := by
      rw [apply_ite (Option.map _), Option.map_none, Option.map_some]
      exact (ite_and _ _ _ _).symm
    rw [hbehind]
    cases hm : m.ones with
    | false =>
      have hbits : m.runBits position = [] := by rw [Marker.runBits, if_neg (by rw [hm]; decide)]
      rw [hbits, if_neg Bool.false_ne_true, nil_append]
      have hnone : (false = true → position + m.run * 64 ≤ limit) ∧
          ∀ bit ∈ ([] : List ℕ), visit bit = true :=
        ⟨fun h => (Bool.false_ne_true h).elim, fun bit hbit => by cases hbit⟩
      exact if_congr (and_iff_right hnone).symm rfl rfl
    | true =>
      have hbits : m.runBits position = range' position (m.run * 64) := by
        rw [Marker.runBits, if_pos hm]
      rw [hbits, if_pos rfl, apply_ite (Option.map _), Option.map_none, Option.map_some]
      by_cases hlimit : limit < position + m.run * 64
      · rw [if_pos hlimit, if_neg fun h => absurd (h.1.1 rfl) (not_le.mpr hlimit)]
      · rw [if_neg hlimit]
        by_cases hall : (range' position (m.run * 64)).all visit = true
        · rw [if_pos hall]
          have hrunAll : (true = true → position + m.run * 64 ≤ limit) ∧
              ∀ bit ∈ range' position (m.run * 64), visit bit = true :=
            ⟨fun _ => not_lt.mp hlimit, all_eq_true.mp hall⟩
          exact if_congr (and_iff_right hrunAll).symm rfl rfl
        · rw [if_neg hall, if_neg fun h => hall (all_eq_true.mpr h.1.2)]

/-! ## Bytes -/

lemma length_flatMap_toBE (words : List ℕ) :
    (words.flatMap (toBE 8)).length = 8 * words.length := by
  induction words with
  | nil => rfl
  | cons w words ih =>
    rw [flatMap_cons, length_append, ih, length_toBE, length_cons]
    omega

lemma length_encodeBitmap (bitCount lastMarker : ℕ) (markers : List Marker) :
    (encodeBitmap bitCount lastMarker markers).length = 8 * (bitmapWords markers).length + 12 := by
  rw [encodeBitmap]
  simp only [length_append, length_toBE, length_flatMap_toBE]
  omega

/-- The words at their offsets. -/
lemma map_words (front tail : List UInt8) (words : List ℕ) (hwords : ∀ w ∈ words, w < 2 ^ 64) :
    ((List.range words.length).map fun index =>
      ofBE (slice (front ++ (words.flatMap (toBE 8) ++ tail)) (front.length + index * 8)
        (front.length + index * 8 + 8))) = words := by
  refine ext_getElem (by rw [length_map, length_range]) fun i hi hlen => ?_
  rw [getElem_map, getElem_range, add_assoc, slice_append_left]
  have hsplit : words.flatMap (toBE 8) =
      (words.take i).flatMap (toBE 8) ++ (toBE 8 words[i] ++ (words.drop (i + 1)).flatMap (toBE 8)) := by
    rw [← flatMap_cons, ← drop_eq_getElem_cons hlen, ← flatMap_append, take_append_drop]
  have hfront : ((words.take i).flatMap (toBE 8)).length = i * 8 := by
    rw [length_flatMap_toBE, length_take]
    omega
  have hslice := slice_append_left ((words.take i).flatMap (toBE 8))
    (toBE 8 words[i] ++ ((words.drop (i + 1)).flatMap (toBE 8) ++ tail)) 0 8
  rw [hfront, add_zero (i * 8)] at hslice
  rw [hsplit, append_assoc, append_assoc, hslice, slice, drop_zero, take_left' (length_toBE 8 _),
    ofBE_toBE (lt_of_lt_of_le (hwords _ (getElem_mem hlen)) (by decide))]

/-- The words of a bitmap fit. -/
lemma lt_of_mem_bitmapWords : ∀ w ∈ bitmapWords markers, w < 2 ^ 64 := by
  intro w hw
  obtain ⟨m, -, hmem⟩ := mem_flatMap.mp hw
  rcases mem_cons.mp hmem with rfl | hliteral
  · exact m.word_spec.1
  · obtain ⟨literal, -, rfl⟩ := mem_map.mp hliteral
    exact literal.toNat_lt

/-- The length of the bitmap that bytes begin with. -/
lemma ewahLen_encodeBitmap {bitCount lastMarker : ℕ}
    (hwords : (bitmapWords markers).length < 2 ^ 32) (rest : List UInt8) :
    ewahLen (encodeBitmap bitCount lastMarker markers ++ rest) =
      some (encodeBitmap bitCount lastMarker markers).length := by
  have hlen := length_encodeBitmap bitCount lastMarker markers
  have hcount : slice (encodeBitmap bitCount lastMarker markers ++ rest) 4 8 =
      toBE 4 (bitmapWords markers).length := by
    have hslice := slice_append_left (toBE 4 bitCount)
      (toBE 4 (bitmapWords markers).length ++
        ((bitmapWords markers).flatMap (toBE 8) ++ toBE 4 lastMarker) ++ rest) 0 4
    rw [length_toBE, add_zero 4, ← append_assoc (toBE 4 bitCount)] at hslice
    rw [encodeBitmap, hslice, append_assoc, slice, drop_zero, take_left' (length_toBE 4 _)]
  rw [ewahLen, getRange, if_pos ⟨by omega, by rw [length_append]; omega⟩, hcount]
  dsimp only
  rw [ofBE_toBE (lt_of_lt_of_le hwords (by decide)), hlen, if_pos (by rw [length_append]; omega)]
  have hsame : (bitmapWords markers).length * 8 + 12 = 8 * (bitmapWords markers).length + 12 := by
    omega
  rw [hsame]

/-- **The bits that are read are those that were written**, if all of them are allowed. -/
theorem readEwah_encodeBitmap {bitCount lastMarker : ℕ}
    (hwords : (bitmapWords markers).length < 2 ^ 32) (hsize : bitmapSize markers < 2 ^ 64) :
    readEwah (encodeBitmap bitCount lastMarker markers) limit visit =
      if Within limit 0 markers ∧ ∀ bit ∈ bitsFrom 0 markers, visit bit = true then
        some (bitsFrom 0 markers)
      else none := by
  have hlen := length_encodeBitmap bitCount lastMarker markers
  have hne : encodeBitmap bitCount lastMarker markers ≠ [] := by
    intro hnil
    rw [hnil, length_nil] at hlen
    omega
  have hewah := @ewahLen_encodeBitmap markers bitCount lastMarker hwords []
  rw [append_nil, hlen] at hewah
  have hmap := map_words (toBE 4 bitCount ++ toBE 4 (bitmapWords markers).length)
    (toBE 4 lastMarker) (bitmapWords markers) lt_of_mem_bitmapWords
  have hfront : (toBE 4 bitCount ++ toBE 4 (bitmapWords markers).length).length = 8 := by
    rw [length_append, length_toBE, length_toBE]
  rw [append_assoc, ← encodeBitmap, hfront] at hmap
  have hcount : (8 * (bitmapWords markers).length + 12 - 12) / 8 = (bitmapWords markers).length := by
    omega
  rw [readEwah, if_neg hne, hewah]
  dsimp only
  rw [hcount, hmap, readWords_bitmapWords markers 0 (by omega)]

end Tgrep.GitIndex
