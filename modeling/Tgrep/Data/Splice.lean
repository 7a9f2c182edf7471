import Mathlib.Algebra.GroupWithZero.Nat
import Mathlib.Data.List.TakeWhile
import Mathlib.Order.Monotone.Basic

/-!
# Texts with replaced pieces

A source is cut into pieces, each followed by a short string that is not kept; the text has the same
replacement for each of these. Offsets of the text and of the source are then related piece by
piece, and a table of the replacements has what is needed to compute one from the other.

## Main definitions

* `Splice.textOf`, `Splice.sourceOf`: the text and the source of pieces.
* `Splice.shiftsFrom`: the table: where each replacement is, and what the text has gained there.
* `Splice.place`: the offset of the source that an offset of the text stands for.
* `Splice.partitionPoint`: how many entries of a table come first.

## Main results

* `Splice.locate`: the piece that an offset falls into.
* `Splice.place_mono`: the offsets of the source ascend with those of the text.
* `Splice.partitionPoint_shifts`: the entries of a table before an offset.
-/

namespace Splice

open List

variable {α : Type*}

/-- Pieces of a source, each with the string behind it that is not kept. -/
abbrev Pieces (α : Type*) := List (List α × List α)

/-- The text of pieces. -/
def textOf (replacement : List α) (pieces : Pieces α) : List α :=
  pieces.flatMap fun piece => piece.1 ++ replacement

/-- The source of pieces. -/
def sourceOf (pieces : Pieces α) : List α := pieces.flatMap fun piece => piece.1 ++ piece.2

/-- The strings that are not kept. -/
def replacedOf (pieces : Pieces α) : List α := pieces.flatMap Prod.snd

/-- What the text has gained, if the replacement has length `w`. -/
def gain (w : ℕ) (pieces : Pieces α) : ℕ := (pieces.map fun piece => w - piece.2.length).sum

/-- The table of the replacements: where each is in the text, and what the text has gained up to
it. -/
def shiftsFrom (w : ℕ) : ℕ → ℕ → Pieces α → List (ℕ × ℕ)
  | _, _, [] => []
  | t, g, (kept, lost) :: pieces =>
    (t + kept.length, g + (w - lost.length)) ::
      shiftsFrom w (t + kept.length + w) (g + (w - lost.length)) pieces

/-- The offset of the source that an offset of the text stands for. -/
def place (w : ℕ) : Pieces α → ℕ → ℕ
  | [], x => x
  | (kept, lost) :: pieces, x =>
    if x ≤ kept.length then x
    else if x < kept.length + w then kept.length
    else kept.length + lost.length + place w pieces (x - (kept.length + w))

/-- The number of the first entries that satisfy a predicate, which no later one does. -/
def partitionPoint {β : Type*} (p : β → Bool) (entries : List β) : ℕ :=
  (entries.takeWhile p).length

/-- Predicates that agree on a table cut it at the same place. -/
lemma partitionPoint_congr {β : Type*} {p q : β → Bool} {entries : List β}
    (h : ∀ entry ∈ entries, p entry = q entry) :
    partitionPoint p entries = partitionPoint q entries := by
  induction entries with
  | nil => rfl
  | cons entry entries ih =>
    obtain ⟨hentry, hrest⟩ := List.forall_mem_cons.mp h
    have hih := ih hrest
    unfold partitionPoint at hih ⊢
    rw [takeWhile_cons, takeWhile_cons, hentry]
    split
    · rw [length_cons, length_cons, hih]
    · rfl

/-! ## The pieces -/

variable {w j i : ℕ} (l replacement : List α) (pieces pieces' : Pieces α)

@[simp] lemma textOf_nil : textOf replacement [] = [] := rfl

@[simp] lemma textOf_cons (kept lost : List α) (pieces : Pieces α) :
    textOf replacement ((kept, lost) :: pieces) =
      kept ++ replacement ++ textOf replacement pieces := rfl

@[simp] lemma sourceOf_nil : sourceOf ([] : Pieces α) = [] := rfl

@[simp] lemma sourceOf_cons (kept lost : List α) (pieces : Pieces α) :
    sourceOf ((kept, lost) :: pieces) = kept ++ lost ++ sourceOf pieces := rfl

@[simp] lemma textOf_append :
    textOf replacement (pieces ++ pieces') =
      textOf replacement pieces ++ textOf replacement pieces' :=
  flatMap_append

@[simp] lemma sourceOf_append :
    sourceOf (pieces ++ pieces') = sourceOf pieces ++ sourceOf pieces' :=
  flatMap_append

@[simp] lemma replacedOf_append :
    replacedOf (pieces ++ pieces') = replacedOf pieces ++ replacedOf pieces' :=
  flatMap_append

@[simp] lemma gain_append (w : ℕ) (pieces pieces' : Pieces α) :
    gain w (pieces ++ pieces') = gain w pieces + gain w pieces' := by
  simp [gain]

section Lengths

variable {w : ℕ} {replacement : List α} (hw : replacement.length = w)

include hw in
/-- The text is as much longer as it has gained. -/
lemma length_textOf {pieces : Pieces α} (h : ∀ piece ∈ pieces, piece.2.length ≤ w) :
    (textOf replacement pieces).length = (sourceOf pieces).length + gain w pieces := by
  induction pieces with
  | nil => rfl
  | cons piece pieces ih =>
    obtain ⟨kept, lost⟩ := piece
    obtain ⟨hlost, hrest⟩ := List.forall_mem_cons.mp h
    have hih := ih hrest
    dsimp only at hlost
    simp only [textOf_cons, sourceOf_cons, length_append, gain, map_cons,
      sum_cons] at hih ⊢
    omega

/-- What the text has gained is what the replacements are longer. -/
lemma length_replacedOf {pieces : Pieces α} (h : ∀ piece ∈ pieces, piece.2.length ≤ w) :
    (replacedOf pieces).length + gain w pieces = w * pieces.length := by
  induction pieces with
  | nil => rfl
  | cons piece pieces ih =>
    obtain ⟨hlost, hrest⟩ := List.forall_mem_cons.mp h
    have hih := ih hrest
    simp only [replacedOf, flatMap_cons, length_append, gain, map_cons,
      sum_cons, length_cons, Nat.mul_succ] at hih ⊢
    omega

include hw in
/-- The table of pieces that follow others. -/
lemma shiftsFrom_append (t g : ℕ) (pieces pieces' : Pieces α) :
    shiftsFrom w t g (pieces ++ pieces') =
      shiftsFrom w t g pieces ++
        shiftsFrom w (t + (textOf replacement pieces).length) (g + gain w pieces) pieces' := by
  induction pieces generalizing t g with
  | nil => rfl
  | cons piece pieces ih =>
    obtain ⟨kept, lost⟩ := piece
    rw [cons_append, shiftsFrom, shiftsFrom, ih]
    simp only [textOf_cons, length_append, hw, gain, map_cons, sum_cons,
      cons_append]
    congr 3 <;> omega

@[simp] lemma length_shiftsFrom (t g : ℕ) (pieces : Pieces α) :
    (shiftsFrom w t g pieces).length = pieces.length := by
  induction pieces generalizing t g with
  | nil => rfl
  | cons piece pieces ih => rw [shiftsFrom, length_cons, length_cons, ih]

include hw in
/-- Every replacement of the table is in the text. -/
lemma mem_shiftsFrom {t g : ℕ} {pieces : Pieces α} {shift : ℕ × ℕ}
    (h : shift ∈ shiftsFrom w t g pieces) :
    t ≤ shift.1 ∧ shift.1 + w ≤ t + (textOf replacement pieces).length := by
  induction pieces generalizing t g with
  | nil => cases h
  | cons piece pieces ih =>
    obtain ⟨kept, lost⟩ := piece
    rw [textOf_cons, length_append, length_append, hw]
    rw [shiftsFrom, mem_cons] at h
    rcases h with rfl | h
    · dsimp only
      omega
    · have hih := ih h
      omega

include hw in
/-- The entries of a table before an offset behind some pieces. -/
lemma partitionPoint_shifts {t g x : ℕ} {pieces pieces' : Pieces α} (hpos : 0 < w)
    (hx : t + (textOf replacement pieces).length ≤ x)
    (hnext : ∀ piece ∈ pieces'.head?, x ≤ t + (textOf replacement pieces).length + piece.1.length) :
    partitionPoint (fun shift => shift.1 < x) (shiftsFrom w t g (pieces ++ pieces')) =
      pieces.length := by
  rw [partitionPoint, shiftsFrom_append hw, takeWhile_append_of_pos]
  · rw [length_append, length_shiftsFrom]
    cases pieces' with
    | nil => rfl
    | cons piece pieces' =>
      obtain ⟨kept, lost⟩ := piece
      have hle : x ≤ t + (textOf replacement pieces).length + kept.length :=
        hnext (kept, lost) rfl
      rw [shiftsFrom, takeWhile_cons_of_neg]
      · rfl
      · rw [decide_eq_true_eq]
        omega
  · intro shift hshift
    have hmem := mem_shiftsFrom hw hshift
    rw [decide_eq_true_eq]
    omega

include hw in
/-- The entries of a table before an offset in the replacement behind some pieces. -/
lemma partitionPoint_inside {t g x : ℕ} (pieces pieces' : Pieces α) {kept lost : List α}
    (hlo : t + (textOf replacement pieces).length + kept.length < x)
    (hhi : x ≤ t + (textOf replacement pieces).length + kept.length + w) :
    partitionPoint (fun shift => shift.1 < x)
      (shiftsFrom w t g (pieces ++ (kept, lost) :: pieces')) = pieces.length + 1 := by
  have hsplit : pieces ++ (kept, lost) :: pieces' = (pieces ++ [(kept, lost)]) ++ pieces' := by
    rw [append_assoc, singleton_append]
  rw [partitionPoint, hsplit, shiftsFrom_append hw, takeWhile_append_of_pos]
  · rw [length_append, length_shiftsFrom, length_append, length_singleton]
    cases pieces' with
    | nil => rfl
    | cons piece pieces' =>
      obtain ⟨kept', lost'⟩ := piece
      rw [shiftsFrom, takeWhile_cons_of_neg]
      · rfl
      · rw [decide_eq_true_eq, textOf_append, textOf_cons, length_append, length_append,
          length_append, hw]
        omega
  · intro shift hshift
    rw [shiftsFrom_append hw, mem_append] at hshift
    rw [decide_eq_true_eq]
    rcases hshift with hshift | hshift
    · have hmem := mem_shiftsFrom hw hshift
      omega
    · rw [shiftsFrom, shiftsFrom, mem_singleton] at hshift
      rw [hshift]
      exact hlo

include hw in
/-- The entry of a table for the replacement behind some pieces. -/
lemma getElem?_shifts (t g : ℕ) (pieces pieces' : Pieces α) (kept lost : List α) :
    (shiftsFrom w t g (pieces ++ (kept, lost) :: pieces'))[pieces.length]? =
      some (t + (textOf replacement pieces).length + kept.length,
        g + gain w (pieces ++ [(kept, lost)])) := by
  rw [shiftsFrom_append hw, getElem?_append_right (by rw [length_shiftsFrom]),
    length_shiftsFrom, Nat.sub_self, shiftsFrom, getElem?_cons_zero, gain_append]
  simp [gain, Nat.add_assoc]

end Lengths

/-! ## Offsets -/

/-- **The offsets of the source ascend with those of the text.** -/
theorem place_mono (w : ℕ) (pieces : Pieces α) : Monotone (place w pieces) := by
  induction pieces with
  | nil => exact fun _ _ h => h
  | cons piece pieces ih =>
    obtain ⟨kept, lost⟩ := piece
    intro x y hxy
    have hrest := ih (Nat.sub_le_sub_right hxy (kept.length + w))
    rw [place, place]
    split_ifs <;> omega

/-- The offset of the source for one behind some pieces. -/
lemma place_append (hpos : 0 < w) {replacement : List α} (hw : replacement.length = w)
    (pieces pieces' : Pieces α) (x : ℕ) :
    place w (pieces ++ pieces') ((textOf replacement pieces).length + x) =
      (sourceOf pieces).length + place w pieces' x := by
  induction pieces with
  | nil => simp
  | cons piece pieces ih =>
    obtain ⟨kept, lost⟩ := piece
    have hsub : (kept ++ replacement ++ textOf replacement pieces).length + x -
        (kept.length + w) = (textOf replacement pieces).length + x := by
      rw [length_append, length_append, hw]
      omega
    rw [cons_append, place, textOf_cons, hsub, ih, sourceOf_cons, length_append,
      length_append, length_append, length_append, hw]
    split_ifs <;> omega

/-- The part of the text that an offset falls into behind some pieces: what is kept of the next one,
or the end. -/
def chunk (tail : List α) : Pieces α → List α
  | [] => tail
  | (kept, _) :: _ => kept

/-- What follows some pieces begins with the part that an offset falls into. -/
lemma exists_text_eq_chunk (tail : List α) (pieces : Pieces α) :
    ∃ more, textOf replacement pieces ++ tail = chunk tail pieces ++ more := by
  cases pieces with
  | nil => exact ⟨[], by simp [chunk]⟩
  | cons piece pieces =>
    obtain ⟨kept, lost⟩ := piece
    exact ⟨replacement ++ (textOf replacement pieces ++ tail), by simp [chunk]⟩

lemma exists_source_eq_chunk (tail : List α) (pieces : Pieces α) :
    ∃ more, sourceOf pieces ++ tail = chunk tail pieces ++ more := by
  cases pieces with
  | nil => exact ⟨[], by simp [chunk]⟩
  | cons piece pieces =>
    obtain ⟨kept, lost⟩ := piece
    exact ⟨lost ++ (sourceOf pieces ++ tail), by simp [chunk]⟩

/-- What stands for an offset within what is kept. -/
lemma place_chunk {x : ℕ} {tail : List α} {pieces : Pieces α}
    (hx : x ≤ (chunk tail pieces).length) : place w pieces x = x := by
  cases pieces with
  | nil => rfl
  | cons piece pieces =>
    obtain ⟨kept, lost⟩ := piece
    exact if_pos hx

/-- **The piece that an offset falls into**: what is kept of it or the end, or the replacement. -/
theorem locate {replacement : List α} (hw : replacement.length = w) (pieces : Pieces α) (x : ℕ) :
    ∃ before after y, pieces = before ++ after ∧
      x = (textOf replacement before).length + y ∧
      (after = [] ∨ ∃ kept lost rest, after = (kept, lost) :: rest ∧ y < kept.length + w) := by
  induction pieces generalizing x with
  | nil => exact ⟨[], [], x, rfl, by simp, .inl rfl⟩
  | cons piece pieces ih =>
    obtain ⟨kept, lost⟩ := piece
    by_cases hx : x < kept.length + w
    · exact ⟨[], (kept, lost) :: pieces, x, rfl, by simp, .inr ⟨kept, lost, pieces, rfl, hx⟩⟩
    · obtain ⟨before, after, y, rfl, hy, hafter⟩ := ih (x - (kept.length + w))
      refine ⟨(kept, lost) :: before, after, y, rfl, ?_, hafter⟩
      rw [textOf_cons, length_append, length_append, hw]
      omega

/-- A piece of a list. -/
def slice (l : List α) (i j : ℕ) : List α := (l.take j).drop i

lemma slice_append_right {l : List α} (h : j ≤ l.length) (more : List α) :
    slice (l ++ more) i j = slice l i j := by
  rw [slice, slice, take_append_of_le_length h]

/-- A piece of a list behind a front. -/
lemma slice_append_left (front l : List α) (i j : ℕ) :
    slice (front ++ l) (front.length + i) (front.length + j) = slice l i j := by
  rw [slice, slice, take_length_add_append, drop_length_add_append]

lemma length_slice {l : List α} (hij : i ≤ j) (hj : j ≤ l.length) :
    (slice l i j).length = j - i := by
  rw [slice, length_drop, length_take]
  omega

lemma take_append_slice (hij : i ≤ j) : l.take i ++ slice l i j = l.take j := by
  have htake : l.take i = (l.take j).take i := by rw [take_take, Nat.min_eq_left hij]
  rw [slice, htake, take_append_drop]

lemma take_slice {n : ℕ} (h : i + n ≤ j) : (slice l i j).take n = slice l i (i + n) := by
  rw [slice, slice, take_drop, take_take, Nat.min_eq_left h]

/-- Neighbouring slices make a slice. -/
lemma slice_append_slice {l : List α} {k : ℕ} (hij : i ≤ j) (hjk : j ≤ k) :
    slice l i j ++ slice l j k = slice l i k := by
  have htake : l.take i ++ slice l i j = l.take j := take_append_slice l hij
  have hwhole : l.take i ++ (slice l i j ++ slice l j k) = l.take i ++ slice l i k := by
    rw [← append_assoc, htake, take_append_slice l hjk, take_append_slice l (hij.trans hjk)]
  exact append_cancel_left hwhole

lemma slice_append_drop (hij : i ≤ j) : slice l i j ++ l.drop j = l.drop i := by
  have hall : l.take i ++ (slice l i j ++ l.drop j) = l.take i ++ l.drop i := by
    rw [← append_assoc, take_append_slice l hij, take_append_drop, take_append_drop]
  exact append_cancel_left hall

/-- A piece of what is behind an offset. -/
lemma slice_drop (p i j : ℕ) : slice (l.drop p) i j = slice l (p + i) (p + j) := by
  rw [slice, slice, take_drop, drop_drop]

/-- A piece from an offset on. -/
lemma slice_eq_take (i n : ℕ) : slice l i (i + n) = (l.drop i).take n := by
  rw [slice, take_drop]

end Splice
