import Tgrep.Encoding.Decode

/-!
# Offsets in repaired text

Matches are found in repaired text and reported in terms of the bytes that were read. The table of
the repair maps an offset back, and restores the bytes behind a range.

## Main definitions

* `LossyFixups.toSourceOffset`, `LossyFixups.sourceBytes`: the offset and the bytes of the source.
* `skippedBom`: the length of the byte order mark that is skipped.

## Main results

* `toSourceOffset_eq`: the table maps an offset as the pieces of the repair do.
* `sourceBytes_eq`: the bytes that are restored are those of the source.
* `decodeWithFixups_offsets`: both, for a file whose bytes are taken for UTF-8.
-/

namespace Tgrep

open Utf8 Splice List Option

/-! ## The table -/

namespace LossyFixups

/-- What the text has gained before a replacement. -/
def gainedBefore (f : LossyFixups) (i : ℕ) : ℕ :=
  if i = 0 then 0 else (f.shifts[i - 1]?.getD (0, 0)).2

/-- The offset in the source for one in the text. Within a replacement it is that of what was
replaced. -/
def toSourceOffset (f : LossyFixups) (decoded : ℕ) : ℕ :=
  if f.shifts = [] then decoded
  else
    let i := partitionPoint (fun shift => shift.1 < decoded) f.shifts
    if i = 0 then decoded
    else
      let shift := f.shifts[i - 1]?.getD (0, 0)
      if decoded < shift.1 + REPLACEMENT_LEN then shift.1 - f.gainedBefore (i - 1)
      else decoded - shift.2

end LossyFixups

/-- A range of a text, if it lies on boundaries. -/
def textGet (text : List UInt8) (i j : ℕ) : Option (List UInt8) :=
  if i ≤ j ∧ j ≤ text.length ∧ isBoundary text i = true ∧ isBoundary text j = true then
    some (slice text i j)
  else none

/-- A range of bytes. -/
def bytesGet (bytes : List UInt8) (i j : ℕ) : Option (List UInt8) :=
  if i ≤ j ∧ j ≤ bytes.length then some (slice bytes i j) else none

namespace LossyFixups

/-- Restore one replacement of a range after the other. -/
def restoreLoop (f : LossyFixups) (text : List UInt8) (stop : ℕ) :
    List ℕ → List UInt8 → ℕ → Option (List UInt8)
  | [], out, pos => do
    let rest ← textGet text pos stop
    return out ++ rest
  | i :: is, out, pos => do
    let shift ← f.shifts[i]?
    let start := REPLACEMENT_LEN * i - f.gainedBefore i
    let len := REPLACEMENT_LEN - (shift.2 - f.gainedBefore i)
    let kept ← textGet text pos shift.1
    let lost ← bytesGet f.replaced start (start + len)
    restoreLoop f text stop is (out ++ kept ++ lost) (shift.1 + REPLACEMENT_LEN)

/-- The bytes of the source behind a range of the text, none if nothing in it was replaced. -/
def sourceBytes (f : LossyFixups) (text : List UInt8) (start stop : ℕ) : Option (List UInt8) :=
  let first := partitionPoint (fun shift => shift.1 < start) f.shifts
  let last := partitionPoint (fun shift => shift.1 < stop) f.shifts
  if first = last then none
  else f.restoreLoop text stop (List.range' first (last - first)) [] start

end LossyFixups

/-- The length of the byte order mark that is skipped. -/
def skippedBom (bytes : List UInt8) : EncodingMode → ℕ
  | .none => 0
  | .auto | .explicit _ => ((Encoding.forBom bytes).map Prod.snd).getD 0

/-! ## Offsets -/

lemma length_replacement : REPLACEMENT_CHARACTER.length = REPLACEMENT_LEN := rfl

variable {pieces : Pieces UInt8} {tail : List UInt8}

/-- The table of some pieces. -/
def fixupsOf (pieces : Pieces UInt8) : LossyFixups :=
  ⟨shiftsFrom REPLACEMENT_LEN 0 0 pieces, replacedOf pieces⟩

/-- What the text has gained before the replacement behind some pieces. -/
lemma gainedBefore_fixupsOf (before after : Pieces UInt8) :
    (fixupsOf (before ++ after)).gainedBefore before.length = gain REPLACEMENT_LEN before := by
  rw [LossyFixups.gainedBefore]
  rcases eq_nil_or_concat before with rfl | ⟨init, ⟨kept, lost⟩, rfl⟩
  · rfl
  · rw [concat_eq_append, length_append, length_singleton, if_neg (by omega),
      Nat.add_sub_cancel, append_assoc, singleton_append, fixupsOf,
      getElem?_shifts length_replacement]
    simp

/-- **The table maps an offset as the pieces do.** -/
theorem toSourceOffset_eq (pieces : Pieces UInt8)
    (hlost : ∀ piece ∈ pieces, piece.2.length ≤ REPLACEMENT_LEN) (x : ℕ) :
    (fixupsOf pieces).toSourceOffset x = place REPLACEMENT_LEN pieces x := by
  obtain ⟨before, after, y, rfl, rfl, hafter⟩ := locate length_replacement pieces x
  have hbefore : ∀ piece ∈ before, piece.2.length ≤ REPLACEMENT_LEN := fun piece hpiece =>
    hlost piece (mem_append_left _ hpiece)
  have hlen := length_textOf length_replacement hbefore
  rw [place_append (by decide) length_replacement, LossyFixups.toSourceOffset]
  by_cases hnil : (fixupsOf (before ++ after)).shifts = []
  · -- there are no pieces
    have hzero : (before ++ after).length = 0 := by
      rw [← @length_shiftsFrom _ REPLACEMENT_LEN 0 0 (before ++ after)]
      exact congrArg length hnil
    rw [length_append] at hzero
    obtain rfl := length_eq_zero_iff.mp (show before.length = 0 by omega)
    obtain rfl := length_eq_zero_iff.mp (show after.length = 0 by omega)
    rw [if_pos hnil]
    simp [place]
  · rw [if_neg hnil]
    by_cases hinside : ∃ kept lost rest, after = (kept, lost) :: rest ∧ kept.length < y
    · -- within the replacement behind what is kept
      obtain ⟨kept, lost, rest, rfl, hkept⟩ := hinside
      have hy : y < kept.length + REPLACEMENT_LEN := by
        rcases hafter with h | ⟨kept', lost', rest', h, hy⟩
        · cases h
        · obtain ⟨rfl, rfl⟩ : kept = kept' ∧ lost = lost' := by
            simpa using (cons.inj h).1
          exact hy
      have hcount : partitionPoint
          (fun shift => shift.1 < (textOf REPLACEMENT_CHARACTER before).length + y)
          (fixupsOf (before ++ (kept, lost) :: rest)).shifts = before.length + 1 :=
        partitionPoint_inside length_replacement before rest (by omega) (by omega)
      have hentry : (fixupsOf (before ++ (kept, lost) :: rest)).shifts[before.length]? =
          some (0 + (textOf REPLACEMENT_CHARACTER before).length + kept.length,
            0 + gain REPLACEMENT_LEN (before ++ [(kept, lost)])) :=
        getElem?_shifts length_replacement 0 0 before rest kept lost
      dsimp only
      rw [hcount, if_neg (by omega), Nat.add_sub_cancel, hentry, getD_some,
        gainedBefore_fixupsOf, if_pos (by dsimp only; omega), place, if_neg (by omega), if_pos hy]
      dsimp only
      omega
    · -- within what is kept
      have hnext : ∀ piece ∈ after.head?, (textOf REPLACEMENT_CHARACTER before).length + y ≤
          0 + (textOf REPLACEMENT_CHARACTER before).length + piece.1.length := by
        intro piece hpiece
        cases after with
        | nil => cases hpiece
        | cons piece' rest =>
          obtain rfl := some.inj hpiece
          by_contra hlt
          exact hinside ⟨piece'.1, piece'.2, rest, rfl, by omega⟩
      have hplace : place REPLACEMENT_LEN after y = y := by
        cases after with
        | nil => rfl
        | cons piece rest =>
          obtain ⟨kept, lost⟩ := piece
          have hle := hnext (kept, lost) rfl
          dsimp only at hle
          rw [place, if_pos (by omega)]
      have hcount := @partitionPoint_shifts _ _ _ length_replacement 0 0
        ((textOf REPLACEMENT_CHARACTER before).length + y) before after (by decide) (by omega) hnext
      rw [hplace, fixupsOf]
      dsimp only
      rw [hcount]
      rcases eq_nil_or_concat before with rfl | ⟨init, ⟨kept, lost⟩, rfl⟩
      · simp
      · have hentry := getElem?_shifts length_replacement 0 0 init after kept lost
        rw [concat_eq_append] at hlen hbefore ⊢
        rw [length_append, length_singleton, if_neg (by omega), Nat.add_sub_cancel,
          append_assoc, singleton_append, hentry, getD_some,
          if_neg ?_]
        · dsimp only
          omega
        · dsimp only
          rw [textOf_append, textOf_cons, textOf_nil, length_append, length_append,
            length_append, length_replacement, length_nil]
          omega

/-! ## Ranges -/

variable {after before : Pieces UInt8}

/-- The text of some pieces ends at a boundary. -/
lemma isBoundary_textOf (h : Repairable (before ++ after) tail) :
    isBoundary (textOf REPLACEMENT_CHARACTER (before ++ after) ++ tail)
      (textOf REPLACEMENT_CHARACTER before).length = true := by
  rw [textOf_append, append_assoc]
  refine isBoundary_append ((valid_textOf fun piece hpiece => ?_).append h.tail)
  exact h.kept piece (mem_append_right _ hpiece)

/-- What is kept of a piece ends at a boundary. -/
lemma isBoundary_kept {kept lost : List UInt8}
    (h : Repairable (before ++ (kept, lost) :: after) tail) :
    isBoundary (textOf REPLACEMENT_CHARACTER (before ++ (kept, lost) :: after) ++ tail)
      ((textOf REPLACEMENT_CHARACTER before).length + kept.length) = true := by
  have hsplit : textOf REPLACEMENT_CHARACTER (before ++ (kept, lost) :: after) ++ tail =
      (textOf REPLACEMENT_CHARACTER before ++ kept) ++
        (REPLACEMENT_CHARACTER ++ (textOf REPLACEMENT_CHARACTER after ++ tail)) := by
    simp
  rw [hsplit, ← length_append]
  refine isBoundary_append (valid_replacement.append
    ((valid_textOf fun piece hpiece => ?_).append h.tail))
  exact h.kept piece (mem_append_right _ (mem_cons_of_mem _ hpiece))

/-- A range within what is kept behind some pieces, or within the end. -/
lemma textGet_chunk {x z : ℕ} (hxz : x ≤ z) (hz : z ≤ (chunk tail after).length)
    (hx' : isBoundary (textOf REPLACEMENT_CHARACTER (before ++ after) ++ tail)
      ((textOf REPLACEMENT_CHARACTER before).length + x) = true)
    (hz' : isBoundary (textOf REPLACEMENT_CHARACTER (before ++ after) ++ tail)
      ((textOf REPLACEMENT_CHARACTER before).length + z) = true) :
    textGet (textOf REPLACEMENT_CHARACTER (before ++ after) ++ tail)
        ((textOf REPLACEMENT_CHARACTER before).length + x)
        ((textOf REPLACEMENT_CHARACTER before).length + z) =
      some (slice (chunk tail after) x z) := by
  obtain ⟨more, hmore⟩ := exists_text_eq_chunk REPLACEMENT_CHARACTER tail after
  rw [textGet, if_pos]
  · rw [textOf_append, append_assoc, hmore, slice_append_left, slice_append_right hz]
  · refine ⟨by omega, ?_, hx', hz'⟩
    rw [textOf_append, append_assoc, hmore, length_append, length_append]
    omega

/-- **The loop restores** the source behind a range, piece by piece.

**Proof sketch.** Induction on the pieces that end within the range. The range begins within what is
kept of the first, and at the start of each of the others. -/
theorem restoreLoop_eq {mid : Pieces UInt8} {x y : ℕ} (out : List UInt8)
    (h : Repairable (before ++ (mid ++ after)) tail) (hx : x ≤ (chunk tail (mid ++ after)).length)
    (hy : y ≤ (chunk tail after).length) (hxy : mid = [] → x ≤ y)
    (hx' : isBoundary (textOf REPLACEMENT_CHARACTER (before ++ (mid ++ after)) ++ tail)
      ((textOf REPLACEMENT_CHARACTER before).length + x) = true)
    (hy' : isBoundary (textOf REPLACEMENT_CHARACTER (before ++ (mid ++ after)) ++ tail)
      ((textOf REPLACEMENT_CHARACTER (before ++ mid)).length + y) = true) :
    (fixupsOf (before ++ (mid ++ after))).restoreLoop
        (textOf REPLACEMENT_CHARACTER (before ++ (mid ++ after)) ++ tail)
        ((textOf REPLACEMENT_CHARACTER (before ++ mid)).length + y)
        (List.range' before.length mid.length) out
        ((textOf REPLACEMENT_CHARACTER before).length + x) =
      some (out ++ (sourceOf mid ++ (chunk tail after).take y).drop x) := by
  induction mid generalizing before x out with
  | nil =>
    rw [nil_append, append_nil] at hy' ⊢
    rw [length_nil, range'_zero, LossyFixups.restoreLoop,
      textGet_chunk (hxy rfl) hy hx' hy']
    rfl
  | cons piece mid ih =>
    obtain ⟨kept, lost⟩ := piece
    have hbound : ∀ piece ∈ before ++ ((kept, lost) :: mid ++ after),
        piece.2.length ≤ REPLACEMENT_LEN := fun piece hpiece => (h.lost piece hpiece).2
    have hlost : lost.length ≤ REPLACEMENT_LEN := hbound (kept, lost) (by simp)
    have hentry : (fixupsOf (before ++ ((kept, lost) :: mid ++ after))).shifts[before.length]? =
        some (0 + (textOf REPLACEMENT_CHARACTER before).length + kept.length,
          0 + gain REPLACEMENT_LEN (before ++ [(kept, lost)])) :=
      getElem?_shifts length_replacement 0 0 before (mid ++ after) kept lost
    have hstart : REPLACEMENT_LEN * before.length - gain REPLACEMENT_LEN before =
        (replacedOf before).length := by
      have hsum := @length_replacedOf _ REPLACEMENT_LEN before fun piece hpiece =>
        hbound piece (mem_append_left _ hpiece)
      omega
    have hlen : REPLACEMENT_LEN -
        (0 + gain REPLACEMENT_LEN (before ++ [(kept, lost)]) - gain REPLACEMENT_LEN before) =
          lost.length := by
      have hone : gain REPLACEMENT_LEN [(kept, lost)] = REPLACEMENT_LEN - lost.length := by
        simp [gain]
      rw [gain_append, hone]
      omega
    have hkept : textGet
        (textOf REPLACEMENT_CHARACTER (before ++ ((kept, lost) :: mid ++ after)) ++ tail)
        ((textOf REPLACEMENT_CHARACTER before).length + x)
        (0 + (textOf REPLACEMENT_CHARACTER before).length + kept.length) =
          some (kept.drop x) := by
      have hget := textGet_chunk hx le_rfl hx' (isBoundary_kept h)
      rw [slice, take_length] at hget
      rw [Nat.zero_add]
      exact hget
    have hreplaced : bytesGet
        (fixupsOf (before ++ ((kept, lost) :: mid ++ after))).replaced (replacedOf before).length
        ((replacedOf before).length + lost.length) = some lost := by
      rw [fixupsOf, bytesGet]
      dsimp only
      rw [if_pos]
      · have hzero := slice_append_left (replacedOf before)
          (replacedOf ((kept, lost) :: mid ++ after)) 0 lost.length
        rw [replacedOf_append, ← Nat.add_zero (replacedOf before).length, Nat.add_assoc,
          Nat.zero_add, hzero]
        simp [slice, replacedOf]
      · rw [replacedOf_append, length_append]
        simp [replacedOf]
    have hsplit : before ++ ((kept, lost) :: mid ++ after) =
        (before ++ [(kept, lost)]) ++ (mid ++ after) := by
      simp
    have hend : before ++ (kept, lost) :: mid = (before ++ [(kept, lost)]) ++ mid := by simp
    have hpos : 0 + (textOf REPLACEMENT_CHARACTER before).length + kept.length + REPLACEMENT_LEN =
        (textOf REPLACEMENT_CHARACTER (before ++ [(kept, lost)])).length + 0 := by
      rw [textOf_append, length_append, textOf_cons, textOf_nil, length_append,
        length_append, length_replacement, length_nil]
      omega
    have hnext := @ih (before ++ [(kept, lost)]) 0 (out ++ kept.drop x ++ lost)
      (hsplit ▸ h) (Nat.zero_le _) (fun _ => Nat.zero_le _)
      (by rw [Nat.add_zero]; exact isBoundary_textOf (hsplit ▸ h))
      (by rw [← hsplit, ← hend]; exact hy')
    rw [← hsplit, ← hend] at hnext
    rw [length_cons, range'_succ, LossyFixups.restoreLoop, hentry]
    simp only [bind_eq_bind, bind_some, gainedBefore_fixupsOf]
    rw [hstart, hlen, hkept]
    simp only [bind_some]
    rw [hreplaced, bind_some, hpos]
    rw [length_append, length_singleton] at hnext
    rw [hnext]
    have hdrop : (sourceOf ((kept, lost) :: mid) ++ (chunk tail after).take y).drop x =
        kept.drop x ++ (lost ++ (sourceOf mid ++ (chunk tail after).take y)) := by
      rw [sourceOf_cons, append_assoc, append_assoc,
        drop_append_of_le_length (show x ≤ kept.length from hx)]
    rw [hdrop, drop_zero]
    simp only [append_assoc]

/-- No character begins within a replacement. -/
lemma not_isBoundary_inside {kept lost : List UInt8} {y : ℕ} (hlo : kept.length < y)
    (hhi : y < kept.length + REPLACEMENT_LEN) :
    isBoundary (textOf REPLACEMENT_CHARACTER (before ++ (kept, lost) :: after) ++ tail)
      ((textOf REPLACEMENT_CHARACTER before).length + y) = false := by
  have hsplit : textOf REPLACEMENT_CHARACTER (before ++ (kept, lost) :: after) ++ tail =
      (textOf REPLACEMENT_CHARACTER before ++ kept) ++
        (REPLACEMENT_CHARACTER ++ (textOf REPLACEMENT_CHARACTER after ++ tail)) := by
    simp
  obtain ⟨d, rfl⟩ : ∃ d, y = kept.length + d := ⟨y - kept.length, by omega⟩
  have hd : d < REPLACEMENT_CHARACTER.length := by
    rw [length_replacement]
    omega
  have hlt : (textOf REPLACEMENT_CHARACTER before ++ kept).length + d <
      ((textOf REPLACEMENT_CHARACTER before ++ kept) ++
        (REPLACEMENT_CHARACTER ++ (textOf REPLACEMENT_CHARACTER after ++ tail))).length := by
    simp only [length_append] at hd ⊢
    omega
  rw [hsplit, ← add_assoc, ← length_append, isBoundary, dif_pos hlt]
  have hpos : (textOf REPLACEMENT_CHARACTER before ++ kept).length + d ≠ 0 := by omega
  have hbyte : isContinuation REPLACEMENT_CHARACTER[d] = true := by
    rw [length_replacement, REPLACEMENT_LEN] at hd
    obtain rfl | rfl : d = 1 ∨ d = 2 := by omega
    · rfl
    · rfl
  rw [getElem_append_right (by omega)]
  simp only [Nat.add_sub_cancel_left]
  rw [getElem_append_left hd, hbyte, decide_eq_false hpos]
  rfl

/-- **The piece that a boundary of the text falls into.** -/
theorem locate_boundary (h : Repairable pieces tail) {i : ℕ}
    (hi : isBoundary (textOf REPLACEMENT_CHARACTER pieces ++ tail) i = true) :
    ∃ before after x, pieces = before ++ after ∧
      i = (textOf REPLACEMENT_CHARACTER before).length + x ∧ x ≤ (chunk tail after).length := by
  have hle : i ≤ (textOf REPLACEMENT_CHARACTER pieces ++ tail).length := by
    rw [isBoundary, Bool.or_eq_true] at hi
    rcases hi with hzero | hi
    · rw [decide_eq_true_eq] at hzero
      omega
    · split at hi
      · omega
      · rw [decide_eq_true_eq] at hi
        omega
  obtain ⟨before, after, y, rfl, rfl, hafter⟩ := locate length_replacement pieces i
  refine ⟨before, after, y, rfl, rfl, ?_⟩
  rcases hafter with rfl | ⟨kept, lost, rest, rfl, hy⟩
  · rw [append_nil, length_append] at hle
    change y ≤ tail.length
    omega
  · by_contra hlt
    have hkept : kept.length < y := not_le.mp hlt
    rw [not_isBoundary_inside hkept hy] at hi
    cases hi

/-- **The bytes that are restored are those of the source**, and what has no replacement is its own
source. -/
theorem sourceBytes_eq (h : Repairable pieces tail) {i j : ℕ} (hij : i ≤ j)
    (hi : isBoundary (textOf REPLACEMENT_CHARACTER pieces ++ tail) i = true)
    (hj : isBoundary (textOf REPLACEMENT_CHARACTER pieces ++ tail) j = true) :
    ((fixupsOf pieces).sourceBytes (textOf REPLACEMENT_CHARACTER pieces ++ tail) i j).getD
        (slice (textOf REPLACEMENT_CHARACTER pieces ++ tail) i j) =
      slice (sourceOf pieces ++ tail) (place REPLACEMENT_LEN pieces i)
        (place REPLACEMENT_LEN pieces j) := by
  obtain ⟨before, rest, x, rfl, rfl, hx⟩ := locate_boundary h hi
  obtain ⟨before', after, y, heq, rfl, hy⟩ := locate_boundary h hj
  -- the second piece is not before the first
  obtain ⟨mid, rfl, rfl⟩ : ∃ mid, before' = before ++ mid ∧ rest = mid ++ after := by
    rcases append_eq_append_iff.mp heq with ⟨mid, h₁, h₂⟩ | ⟨mid, h₁, h₂⟩
    · exact ⟨mid, h₁, h₂⟩
    · cases mid with
      | nil =>
        rw [append_nil] at h₁
        rw [nil_append] at h₂
        exact ⟨[], by rw [append_nil, h₁], by rw [nil_append, h₂]⟩
      | cons piece mid =>
        exfalso
        obtain ⟨kept, lost⟩ := piece
        rw [h₂] at hy
        change y ≤ kept.length at hy
        rw [h₁, textOf_append, textOf_cons, length_append, length_append,
          length_append, length_replacement, REPLACEMENT_LEN] at hij
        omega
  have hplace : place REPLACEMENT_LEN (before ++ (mid ++ after))
      ((textOf REPLACEMENT_CHARACTER before).length + x) = (sourceOf before).length + x := by
    rw [place_append (by decide) length_replacement, place_chunk hx]
  have hplace' : place REPLACEMENT_LEN (before ++ (mid ++ after))
      ((textOf REPLACEMENT_CHARACTER (before ++ mid)).length + y) =
        (sourceOf before).length + ((sourceOf mid).length + y) := by
    rw [← append_assoc, place_append (by decide) length_replacement, place_chunk hy,
      sourceOf_append, length_append, add_assoc]
  -- the source behind the range
  obtain ⟨more, hmore⟩ := exists_source_eq_chunk tail after
  have hsource : slice (sourceOf (before ++ (mid ++ after)) ++ tail) ((sourceOf before).length + x)
      ((sourceOf before).length + ((sourceOf mid).length + y)) =
        (sourceOf mid ++ (chunk tail after).take y).drop x := by
    rw [sourceOf_append, sourceOf_append, append_assoc, append_assoc, slice_append_left,
      slice, take_length_add_append, hmore, take_append_of_le_length hy]
  have hfirst : partitionPoint (fun shift =>
      shift.1 < (textOf REPLACEMENT_CHARACTER before).length + x)
      (fixupsOf (before ++ (mid ++ after))).shifts = before.length := by
    refine partitionPoint_shifts length_replacement (by decide) (by omega) fun piece hpiece => ?_
    cases hmid : mid ++ after with
    | nil =>
      rw [hmid] at hpiece
      cases hpiece
    | cons piece' rest =>
      rw [hmid] at hpiece hx
      obtain rfl := some.inj hpiece
      change x ≤ piece'.1.length at hx
      omega
  have hlast : partitionPoint (fun shift =>
      shift.1 < (textOf REPLACEMENT_CHARACTER (before ++ mid)).length + y)
      (fixupsOf (before ++ (mid ++ after))).shifts = before.length + mid.length := by
    rw [← append_assoc, ← length_append]
    refine partitionPoint_shifts length_replacement (by decide) (by omega) fun piece hpiece => ?_
    cases after with
    | nil => cases hpiece
    | cons piece' rest =>
      obtain rfl := some.inj hpiece
      change y ≤ piece'.1.length at hy
      omega
  rw [hplace, hplace', hsource, LossyFixups.sourceBytes, hfirst, hlast]
  cases mid with
  | nil =>
    rw [length_nil, add_zero, if_pos rfl, getD_none]
    rw [append_nil] at hj hij ⊢
    have hxy : x ≤ y := by omega
    have hget := textGet_chunk hxy hy hi hj
    rw [textGet] at hget
    split_ifs at hget with hrange
    rw [nil_append, some.inj hget]
    rfl
  | cons piece mid =>
    rw [if_neg (by rw [length_cons]; omega), Nat.add_sub_cancel_left,
      restoreLoop_eq [] h hx hy (by rintro ⟨⟩) hi hj]
    rfl

/-! ## Files -/

/-- The bytes of a file that are searched as they are follow the byte order mark. -/
lemma decodeBytes_borrowed {transcode : Encoding → List UInt8 → Text} {raw body : List UInt8}
    {mode : EncodingMode} (h : decodeBytes transcode raw mode = .borrowed body) :
    body = raw.drop (skippedBom raw mode) := by
  have hbody : ∀ (enc : Encoding) (bytes : List UInt8),
      (if enc = .utf8 then Cow.borrowed bytes else .owned (transcode enc bytes).bytes) =
        .borrowed body → body = bytes := by
    intro enc bytes hdecode
    split_ifs at hdecode
    exact (Cow.borrowed.inj hdecode).symm
  cases mode with
  | none => exact (Cow.borrowed.inj h).symm
  | auto =>
    dsimp only [decodeBytes] at h
    dsimp only [skippedBom]
    cases hbom : Encoding.forBom raw with
    | none =>
      rw [hbom] at h
      exact (Cow.borrowed.inj h).symm
    | some bom =>
      rw [hbom] at h
      exact hbody bom.1 _ h
  | explicit enc =>
    dsimp only [decodeBytes] at h
    dsimp only [skippedBom]
    cases hbom : Encoding.forBom raw with
    | none =>
      rw [hbom] at h
      exact hbody enc raw h
    | some bom =>
      rw [hbom] at h
      exact hbody bom.1 _ h

/-- **Repaired text maps back to the bytes of the file** that follow the byte order mark: offsets
ascend, a range between boundaries has the bytes between the offsets that its ends are mapped to, and
is itself those bytes if no replacement begins in it. What the repair is measured to yield is what it
yields. -/
theorem decodeWithFixups_offsets (transcode : Encoding → List UInt8 → Text) (raw : List UInt8)
    (mode : EncodingMode) (body : List UInt8)
    (h : decodeBytes transcode raw mode = .borrowed body) :
    let text := (decodeWithFixups transcode raw mode).1.bytes
    let fixups := (decodeWithFixups transcode raw mode).2
    Monotone fixups.toSourceOffset ∧
      (∀ i j, i ≤ j → isBoundary text i = true → isBoundary text j = true →
        (fixups.sourceBytes text i j).getD (slice text i j) =
          slice raw (skippedBom raw mode + fixups.toSourceOffset i)
            (skippedBom raw mode + fixups.toSourceOffset j)) ∧
      (∀ i j, i ≤ j → isBoundary text i = true → isBoundary text j = true →
        (∀ shift ∈ fixups.shifts, ¬ (i ≤ shift.1 ∧ shift.1 < j)) →
          fixups.sourceBytes text i j = none ∧
            slice text i j = slice raw (skippedBom raw mode + fixups.toSourceOffset i)
              (skippedBom raw mode + fixups.toSourceOffset j)) ∧
      lossyUtf8Shape body = (text.length, fixups.shifts.length) := by
  have hdecode : decodeWithFixups transcode raw mode =
      (⟨repairedText body, valid_repairedText body⟩, repairFixups body) := by
    rw [decodeWithFixups, h]
    exact lossyUtf8_eq body
  rw [hdecode]
  intro text fixups
  have hrepair := repairable_repairPieces body
  have hplace : fixups.toSourceOffset = place REPLACEMENT_LEN (repairPieces body).1 :=
    funext fun x => toSourceOffset_eq _ (fun piece hpiece => (hrepair.lost piece hpiece).2) x
  have hraw : ∀ i j, slice raw (skippedBom raw mode + i) (skippedBom raw mode + j) =
      slice (sourceOf (repairPieces body).1 ++ (repairPieces body).2) i j := by
    intro i j
    rw [sourceOf_repairPieces, decodeBytes_borrowed h, slice, slice, take_drop,
      drop_drop]
  have hrange : ∀ i j, i ≤ j → isBoundary text i = true → isBoundary text j = true →
      (fixups.sourceBytes text i j).getD (slice text i j) =
        slice raw (skippedBom raw mode + fixups.toSourceOffset i)
          (skippedBom raw mode + fixups.toSourceOffset j) := by
    intro i j hij hi hj
    rw [hraw, hplace]
    exact sourceBytes_eq hrepair hij hi hj
  refine ⟨hplace ▸ place_mono _ _, hrange, fun i j hij hi hj hnone => ?_, lossyUtf8Shape_eq body⟩
  have hcount : partitionPoint (fun shift => shift.1 < i) fixups.shifts =
      partitionPoint (fun shift => shift.1 < j) fixups.shifts := by
    refine partitionPoint_congr fun shift hshift => ?_
    have hout := hnone shift hshift
    rw [decide_eq_decide]
    omega
  have hsource : fixups.sourceBytes text i j = none := by
    rw [LossyFixups.sourceBytes]
    exact if_pos hcount
  refine ⟨hsource, ?_⟩
  rw [← hrange i j hij hi hj, hsource]
  rfl

/-- A function that transcodes nothing. -/
def transcodeNothing : Encoding → List UInt8 → Text := fun _ _ => ⟨[], valid_nil⟩

/-- An invalid byte behind a byte order mark and a letter. -/
theorem decodeWithFixups_offsets_bom :
    lossyUtf8Shape [0x61, 0xFF] =
      ((decodeWithFixups transcodeNothing [0xEF, 0xBB, 0xBF, 0x61, 0xFF] .auto).1.bytes.length,
        (decodeWithFixups transcodeNothing [0xEF, 0xBB, 0xBF, 0x61, 0xFF] .auto).2.shifts.length) :=
  (decodeWithFixups_offsets transcodeNothing [0xEF, 0xBB, 0xBF, 0x61, 0xFF] .auto [0x61, 0xFF]
    rfl).2.2.2

/-- The letter behind a byte order mark is not at the offset that it is mapped to. -/
theorem toSourceOffset_behind_bom :
    let raw := [0xEF, 0xBB, 0xBF, 0x61]
    let text := (decodeWithFixups transcodeNothing raw .auto).1.bytes
    let fixups := (decodeWithFixups transcodeNothing raw .auto).2
    isBoundary text 0 = true ∧ isBoundary text 1 = true ∧
      (fixups.sourceBytes text 0 1).getD (slice text 0 1) ≠
        slice raw (fixups.toSourceOffset 0) (fixups.toSourceOffset 1) := by
  decide +kernel

end Tgrep
