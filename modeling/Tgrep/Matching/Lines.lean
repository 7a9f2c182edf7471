import Mathlib.Tactic.NormNum
import Tgrep.Data.Ascending
import Tgrep.Data.Splice

/-!
# The lines of a text

The offsets at which the lines of a text start, and what is computed from them: the line of an
offset, and the text of a line without its terminator.

## Main definitions

* `LineIndex.starts`: where the lines start.
* `LineIndex.lineOf`: the line of an offset.
* `LineIndex.lineText`: the text of a line.

## Main results

* `LineIndex.mem_starts`: a line starts in front of each byte behind a line feed.
* `LineIndex.lineOf_mono`, `LineIndex.lineOf_lt`: the lines of ascending offsets ascend.
* `LineIndex.lineStart_lineOf_le`, `LineIndex.lt_lineStart_succ`: an offset is between the start of
  its line and that of the next one.
* `LineIndex.line_bounds`: what stands around a line.
* `LineIndex.lineOf_eq`: every offset of the text of a line has that line.
-/

namespace Tgrep

open Splice List

/-- The offsets of a byte. -/
def memchrIter (needle : UInt8) (haystack : List UInt8) : List ℕ :=
  (List.range haystack.length).filter fun i => haystack[i]? == some needle

/-- Search an ascending list: the index of the offset, or else where it would be. -/
def binarySearch (starts : List ℕ) (offset : ℕ) : Except ℕ ℕ :=
  let i := partitionPoint (fun start => decide (start < offset)) starts
  if starts[i]? = some offset then .ok i else .error i

namespace LineIndex

/-- Where the lines of a text start. A line feed at the end starts none. -/
def starts (content : List UInt8) : List ℕ :=
  if content = [] then []
  else
    let all := 0 :: (memchrIter 0x0A content).map (· + 1)
    if 1 < all.length ∧ all.getLast? = some content.length then all.dropLast else all

def lineCount (content : List UInt8) : ℕ := (starts content).length

/-- The line of an offset. -/
def lineOf (content : List UInt8) (offset : ℕ) : ℕ :=
  if starts content = [] then 0
  else
    match binarySearch (starts content) offset with
    | .ok i => i
    | .error i => i - 1

def lineStart (content : List UInt8) (idx : ℕ) : ℕ := ((starts content)[idx]?).getD content.length

/-- Where the next line starts. -/
def nextStart (content : List UInt8) (idx : ℕ) : ℕ :=
  ((starts content)[idx + 1]?).getD content.length

/-- One less, if the byte in front of the end is this one. -/
def trimEnd (content : List UInt8) (byte : UInt8) (start stop : ℕ) : ℕ :=
  if start < stop ∧ content[stop - 1]? = some byte then stop - 1 else stop

/-- Where a line ends, without its terminator. -/
def lineEnd (content : List UInt8) (idx : ℕ) : ℕ :=
  let start := lineStart content idx
  trimEnd content 0x0D start (trimEnd content 0x0A start (nextStart content idx))

def lineText (content : List UInt8) (idx : ℕ) : List UInt8 :=
  slice content (lineStart content idx) (lineEnd content idx)

end LineIndex

/-! ## Searching -/

variable {β : Type*} {l : List β} {p : β → Bool}

/-- The number of entries that come first, by which they are. -/
lemma partitionPoint_eq {n : ℕ} (hn : n ≤ l.length)
    (hlt : ∀ j x, j < n → l[j]? = some x → p x = true) (hat : ∀ x, l[n]? = some x → p x = false) :
    partitionPoint p l = n := by
  induction l generalizing n with
  | nil =>
    obtain rfl : n = 0 := Nat.le_zero.mp hn
    rfl
  | cons x l ih =>
    rw [partitionPoint, takeWhile_cons]
    cases n with
    | zero =>
      rw [hat x rfl]
      rfl
    | succ n =>
      rw [hlt 0 x (Nat.succ_pos n) rfl, if_pos rfl, length_cons]
      have hih := ih (n := n) (Nat.le_of_succ_le_succ hn)
        (fun j y hj hy => hlt (j + 1) y (Nat.succ_lt_succ hj) hy) (fun y hy => hat y hy)
      rw [partitionPoint] at hih
      rw [hih]

lemma partitionPoint_le (p : β → Bool) (l : List β) : partitionPoint p l ≤ l.length :=
  ( takeWhile_prefix p).length_le

lemma partitionPoint_mono {q : β → Bool} (h : ∀ x, p x = true → q x = true) (l : List β) :
    partitionPoint p l ≤ partitionPoint q l := by
  induction l with
  | nil => exact le_rfl
  | cons x l ih =>
    rw [partitionPoint, partitionPoint, takeWhile_cons, takeWhile_cons]
    cases hp : p x with
    | false => exact Nat.zero_le _
    | true =>
      rw [h x hp]
      exact Nat.succ_le_succ ih

/-- The entries that come first. -/
lemma of_lt_partitionPoint {j : ℕ} {x : β} (hj : j < partitionPoint p l) (hx : l[j]? = some x) :
    p x = true := by
  rw [partitionPoint] at hj
  have hsame := prefix_iff_getElem?.mp ( takeWhile_prefix p) j hj
  rw [hx] at hsame
  rw [Option.some.inj hsame]
  exact mem_takeWhile_imp (getElem_mem hj)

/-- The entry behind those that come first. -/
lemma at_partitionPoint {x : β} (hx : l[partitionPoint p l]? = some x) : p x = false := by
  induction l with
  | nil => cases hx
  | cons y l ih =>
    rw [partitionPoint, takeWhile_cons] at hx
    cases hy : p y with
    | false =>
      rw [hy] at hx
      exact Option.some.inj hx ▸ hy
    | true =>
      rw [hy] at hx
      exact ih hx

lemma mem_memchrIter {needle : UInt8} {haystack : List UInt8} {i : ℕ} :
    i ∈ memchrIter needle haystack ↔ haystack[i]? = some needle := by
  rw [memchrIter, mem_filter, mem_range, beq_iff_eq]
  refine ⟨fun h => h.2, fun h => ⟨?_, h⟩⟩
  exact (List.getElem?_eq_some_iff.mp h).1

namespace LineIndex

variable {content : List UInt8}

/-! ## Starts -/

/-- The starts before the last one is dropped. -/
lemma ascending_all (content : List UInt8) :
    Ascending id (0 :: (memchrIter 0x0A content).map (· + 1)) := by
  refine pairwise_cons.mpr ⟨fun p hp => ?_, ?_⟩
  · obtain ⟨i, -, rfl⟩ := mem_map.mp hp
    exact Nat.succ_pos i
  · have hasc : Ascending id (memchrIter 0x0A content) := List.Pairwise.filter _ pairwise_lt_range
    refine pairwise_map.mpr (hasc.imp fun h => ?_)
    exact Nat.succ_lt_succ h

lemma ascending_starts (content : List UInt8) : Ascending id (starts content) := by
  rw [starts]
  dsimp only
  split_ifs
  · exact List.Pairwise.nil
  · exact (ascending_all content).sublist (dropLast_sublist _)
  · exact ascending_all content

/-- The elements of an ascending list but the last one, if that is at least every one. -/
lemma mem_of_dropLast {l : List ℕ} {n : ℕ} (h : Ascending id l) (hle : ∀ p ∈ l, p ≤ n) (p : ℕ) :
    p ∈ (if l.getLast? = some n then l.dropLast else l) ↔ p ∈ l ∧ p < n := by
  rcases eq_nil_or_concat l with rfl | ⟨init, x, rfl⟩
  · simp
  · rw [concat_eq_append] at h hle ⊢
    have hinit : ∀ q ∈ init, q < x := fun q hq =>
      (pairwise_append.mp h).2.2 q hq x (mem_singleton_self x)
    have hx : x ≤ n := hle x (mem_append_right _ (mem_singleton_self x))
    simp only [getLast?_concat, Option.some_inj]
    split_ifs with hxn
    · subst hxn
      rw [dropLast_concat, mem_append, mem_singleton]
      constructor
      · exact fun hp => ⟨.inl hp, hinit p hp⟩
      · rintro ⟨hp | rfl, hlt⟩
        · exact hp
        · exact absurd hlt (lt_irrefl _)
    · refine ⟨fun hp => ⟨hp, ?_⟩, fun hp => hp.1⟩
      rw [mem_append, mem_singleton] at hp
      rcases hp with hp | rfl
      · exact lt_of_lt_of_le (hinit p hp) hx
      · exact lt_of_le_of_ne hx hxn

/-- **Where lines start**: at the beginning, and behind a line feed that is not the last byte. -/
theorem mem_starts {p : ℕ} :
    p ∈ starts content ↔ p < content.length ∧ (p = 0 ∨ 0 < p ∧ content[p - 1]? = some 0x0A) := by
  by_cases hempty : content = []
  · subst hempty
    rw [starts, if_pos rfl]
    simp
  have hpos : 0 < content.length := List.length_pos_iff.mpr hempty
  set all := 0 :: (memchrIter 0x0A content).map (· + 1) with hall
  have hmem : ∀ q, q ∈ all ↔ q = 0 ∨ 0 < q ∧ content[q - 1]? = some 0x0A := by
    intro q
    rw [hall, mem_cons, mem_map]
    refine or_congr_right ⟨?_, ?_⟩
    · rintro ⟨i, hi, rfl⟩
      exact ⟨Nat.succ_pos i, mem_memchrIter.mp hi⟩
    · rintro ⟨hq, hbyte⟩
      exact ⟨q - 1, mem_memchrIter.mpr hbyte, by omega⟩
  have hle : ∀ q ∈ all, q ≤ content.length := by
    intro q hq
    rcases (hmem q).mp hq with rfl | ⟨hq, hbyte⟩
    · exact Nat.zero_le _
    · have hlt := (List.getElem?_eq_some_iff.mp hbyte).1
      omega
  have hdrop := mem_of_dropLast (ascending_all content) hle p
  rw [← hall, hmem, and_comm] at hdrop
  rw [← hdrop, starts, if_neg hempty]
  dsimp only
  rw [← hall]
  -- a single start is not the end
  by_cases hlen : 1 < all.length
  · simp only [hlen, true_and]
  · have hone : (memchrIter 0x0A content).map (· + 1) = [] := by
      rw [hall, length_cons] at hlen
      exact List.length_eq_zero_iff.mp (by omega)
    rw [if_neg fun h => hlen h.1, if_neg ?_]
    rw [hall, hone]
    intro h
    exact absurd (Option.some.inj h) hpos.ne

lemma starts_ne_nil (h : content ≠ []) : starts content ≠ [] :=
  ne_nil_of_mem (mem_starts.mpr ⟨length_pos_iff.mpr h, .inl rfl⟩)

/-! ## The line of an offset -/

/-- The line of an offset is the last one that starts no later. -/
lemma lineOf_eq_partitionPoint (h : content ≠ []) (offset : ℕ) :
    lineOf content offset =
      partitionPoint (fun start => decide (start ≤ offset)) (starts content) - 1 := by
  rw [lineOf, if_neg (starts_ne_nil h), binarySearch]
  set i := partitionPoint (fun start => decide (start < offset)) (starts content) with hi
  have hbound : i ≤ (starts content).length := partitionPoint_le _ _
  have hbefore : ∀ j x, j < i → (starts content)[j]? = some x → decide (x ≤ offset) = true := by
    intro j x hj hx
    have hlt := of_lt_partitionPoint (p := fun start => decide (start < offset)) hj hx
    exact decide_eq_true (le_of_lt (of_decide_eq_true hlt))
  split_ifs with hat
  · -- the offset is a start, and the next one is behind it
    have hlt := (List.getElem?_eq_some_iff.mp hat).1
    rw [partitionPoint_eq (n := i + 1) hlt]
    · rfl
    · intro j x hj hx
      rcases Nat.lt_succ_iff_lt_or_eq.mp hj with hj | rfl
      · exact hbefore j x hj hx
      · rw [hat] at hx
        exact decide_eq_true (Option.some.inj hx).ge
    · intro x hx
      obtain ⟨hlt', rfl⟩ := List.getElem?_eq_some_iff.mp hx
      obtain ⟨hlti, heq⟩ := List.getElem?_eq_some_iff.mp hat
      have hasc := List.pairwise_iff_getElem.mp (ascending_starts content) i (i + 1) hlt hlt'
        (Nat.lt_succ_self i)
      rw [heq] at hasc
      exact decide_eq_false (not_le.mpr hasc)
  · rw [partitionPoint_eq (n := i) hbound hbefore]
    intro x hx
    refine decide_eq_false fun hle => ?_
    rcases lt_or_eq_of_le hle with hlt | rfl
    · have hnot := at_partitionPoint (p := fun start => decide (start < offset)) hx
      exact absurd hlt (of_decide_eq_false hnot)
    · exact hat hx

/-- **The lines of ascending offsets ascend.** -/
theorem lineOf_mono {a b : ℕ} (h : a ≤ b) : lineOf content a ≤ lineOf content b := by
  by_cases hempty : content = []
  · subst hempty
    exact le_rfl
  · rw [lineOf_eq_partitionPoint hempty, lineOf_eq_partitionPoint hempty]
    refine Nat.sub_le_sub_right (partitionPoint_mono (fun start hstart => ?_) _) 1
    exact decide_eq_true ((of_decide_eq_true hstart).trans h)

/-- **Every offset has a line**, unless the text is empty. -/
theorem lineOf_lt (h : content ≠ []) (offset : ℕ) : lineOf content offset < lineCount content := by
  have hpos := length_pos_iff.mpr (starts_ne_nil h)
  have hle := partitionPoint_le (fun start => decide (start ≤ offset)) (starts content)
  rw [lineOf_eq_partitionPoint h, lineCount]
  omega

variable {i offset : ℕ}

/-- An offset has the last line that starts no later. -/
lemma lineOf_eq_of_starts {start : ℕ} (hi : (starts content)[i]? = some start)
    (hle : start ≤ offset) (hlt : ∀ stop, (starts content)[i + 1]? = some stop → offset < stop) :
    lineOf content offset = i := by
  have hempty : content ≠ [] := by
    rintro rfl
    cases hi
  obtain ⟨hlen, hget⟩ := List.getElem?_eq_some_iff.mp hi
  rw [lineOf_eq_partitionPoint hempty, partitionPoint_eq (n := i + 1) hlen]
  · rfl
  · intro j x hj hx
    obtain ⟨hjlen, rfl⟩ := List.getElem?_eq_some_iff.mp hx
    refine decide_eq_true (le_trans ?_ hle)
    rcases Nat.lt_succ_iff_lt_or_eq.mp hj with hj | rfl
    · have hasc := List.pairwise_iff_getElem.mp (ascending_starts content) j i hjlen hlen hj
      rw [hget] at hasc
      exact hasc.le
    · exact hget.le
  · exact fun x hx => decide_eq_false (not_le.mpr (hlt x hx))

/-! ## The starts of lines -/

/-- The first line starts at the beginning. -/
lemma starts_zero (h : content ≠ []) : (starts content)[0]? = some 0 := by
  have hmem := mem_starts.mpr ⟨List.length_pos_iff.mpr h, .inl rfl⟩
  obtain ⟨i, hi⟩ := List.mem_iff_getElem?.mp hmem
  obtain ⟨hlen, hget⟩ := List.getElem?_eq_some_iff.mp hi
  rcases Nat.eq_zero_or_pos i with rfl | hpos
  · exact hi
  · have hasc := List.pairwise_iff_getElem.mp (ascending_starts content) 0 i (by omega) hlen hpos
    rw [hget] at hasc
    exact absurd hasc (Nat.not_lt_zero _)

/-- A line starts no later than any offset. -/
lemma partitionPoint_starts_pos (h : content ≠ []) (offset : ℕ) :
    0 < partitionPoint (fun start => decide (start ≤ offset)) (starts content) := by
  refine Nat.pos_of_ne_zero fun hzero => ?_
  have hat := @at_partitionPoint _ (starts content) (fun start => decide (start ≤ offset)) 0
  rw [hzero] at hat
  exact of_decide_eq_false (hat (starts_zero h)) (Nat.zero_le _)

lemma lineStart_le (content : List UInt8) (idx : ℕ) : lineStart content idx ≤ content.length := by
  rw [lineStart]
  cases hget : (starts content)[idx]? with
  | none => exact le_rfl
  | some start => exact (mem_starts.mp (mem_of_getElem? hget)).1.le

/-- **Lines start one after another.** -/
theorem lineStart_mono {j : ℕ} (h : i ≤ j) : lineStart content i ≤ lineStart content j := by
  rcases Nat.lt_or_ge j (starts content).length with hj | hj
  · have hi := lt_of_le_of_lt h hj
    rw [lineStart, lineStart, getElem?_eq_getElem hi, getElem?_eq_getElem hj]
    rcases lt_or_eq_of_le h with hlt | rfl
    · exact (pairwise_iff_getElem.mp (ascending_starts content) i j hi hj hlt).le
    · exact le_rfl
  · have hend : lineStart content j = content.length := by
      rw [lineStart, getElem?_eq_none hj, Option.getD_none]
    rw [hend]
    exact lineStart_le content i

/-- The line of an offset starts no later. -/
lemma lineStart_lineOf_le (h : offset ≤ content.length) :
    lineStart content (lineOf content offset) ≤ offset := by
  by_cases hempty : content = []
  · subst hempty
    exact Nat.zero_le _
  have hpos := partitionPoint_starts_pos hempty offset
  have hlt := lineOf_lt hempty offset
  rw [lineStart]
  rw [lineOf_eq_partitionPoint hempty] at hlt ⊢
  have hget := getElem?_eq_getElem hlt
  rw [hget, Option.getD_some]
  have hle := of_lt_partitionPoint (Nat.sub_lt hpos Nat.one_pos) hget
  exact of_decide_eq_true hle

/-- The next line starts behind an offset. -/
lemma lt_lineStart_succ (h : offset < content.length) :
    offset < lineStart content (lineOf content offset + 1) := by
  have hempty : content ≠ [] := by
    rintro rfl
    exact absurd h (Nat.not_lt_zero _)
  rw [lineStart, lineOf_eq_partitionPoint hempty,
    Nat.sub_add_cancel (partitionPoint_starts_pos hempty offset)]
  cases hget : (starts content)[partitionPoint (fun start => decide (start ≤ offset))
      (starts content)]? with
  | none => exact h
  | some start =>
    have hbehind := at_partitionPoint hget
    exact not_le.mp (of_decide_eq_false hbehind)

/-- Or it starts at the end, like an offset that is there. -/
lemma le_lineStart_succ (h : offset ≤ content.length) :
    offset ≤ lineStart content (lineOf content offset + 1) := by
  rcases lt_or_eq_of_le h with hlt | rfl
  · exact (lt_lineStart_succ hlt).le
  · by_cases hempty : content = []
    · subst hempty
      exact Nat.zero_le _
    rw [lineStart, lineOf_eq_partitionPoint hempty,
      Nat.sub_add_cancel (partitionPoint_starts_pos hempty _)]
    cases hget : (starts content)[partitionPoint (fun start => decide (start ≤ content.length))
        (starts content)]? with
    | none => exact le_rfl
    | some start =>
      have hbehind := at_partitionPoint hget
      exact (not_le.mp (of_decide_eq_false hbehind)).le

/-! ## The text of a line -/

lemma trimEnd_cases (content : List UInt8) (byte : UInt8) (start stop : ℕ) :
    (trimEnd content byte start stop = stop) ∨
      (trimEnd content byte start stop = stop - 1 ∧ start < stop ∧
        content[stop - 1]? = some byte) := by
  rw [trimEnd]
  split_ifs with htrim
  · exact .inr ⟨rfl, htrim⟩
  · exact .inl rfl

/-- **What stands around a line**: a line feed or nothing in front, and a terminator or nothing
behind, which is in front of the next line. -/
theorem line_bounds (hi : i < lineCount content) :
    (starts content)[i]? = some (lineStart content i) ∧
      lineStart content i ≤ lineEnd content i ∧ lineEnd content i ≤ content.length ∧
      (lineStart content i = 0 ∨
        0 < lineStart content i ∧ content[lineStart content i - 1]? = some 0x0A) ∧
      (lineEnd content i = content.length ∨ content[lineEnd content i]? = some 0x0A ∨
        content[lineEnd content i]? = some 0x0D) ∧
      ∀ stop, (starts content)[i + 1]? = some stop → lineEnd content i < stop := by
  have hget := getElem?_eq_getElem hi
  have hstart : (starts content)[i]? = some (lineStart content i) := by
    rw [lineStart, hget, Option.getD_some]
  obtain ⟨hlt, hbefore⟩ := mem_starts.mp (mem_of_getElem? hstart)
  set start := lineStart content i with hs
  -- the end with the terminator
  have hnext : start < nextStart content i ∧ nextStart content i ≤ content.length ∧
      (nextStart content i = content.length ∨
        content[nextStart content i - 1]? = some 0x0A) ∧
      ∀ stop, (starts content)[i + 1]? = some stop →
        stop = nextStart content i ∧ content[nextStart content i - 1]? = some 0x0A := by
    rw [nextStart]
    cases hstop : (starts content)[i + 1]? with
    | none => exact ⟨hlt, le_rfl, .inl rfl, fun stop h => by cases h⟩
    | some stop =>
      obtain ⟨hstopLt, hstopBefore⟩ := mem_starts.mp (mem_of_getElem? hstop)
      obtain ⟨hlen, rfl⟩ := List.getElem?_eq_some_iff.mp hstop
      obtain ⟨hlen', hget'⟩ := List.getElem?_eq_some_iff.mp hstart
      have hasc := List.pairwise_iff_getElem.mp (ascending_starts content) i (i + 1) hlen' hlen
        (Nat.lt_succ_self i)
      rw [hget'] at hasc
      rw [Option.getD_some]
      have hfeed : content[(starts content)[i + 1] - 1]? = some 0x0A := by
        rcases hstopBefore with hzero | hfeed
        · rw [hzero] at hasc
          exact absurd hasc (Nat.not_lt_zero _)
        · exact hfeed.2
      exact ⟨hasc, hstopLt.le, .inr hfeed, fun stop h => ⟨(Option.some.inj h).symm, hfeed⟩⟩
  obtain ⟨hgt, hle, -, hstops⟩ := hnext
  rw [lineEnd, ← hs]
  set stop := nextStart content i with hstop
  set stop₁ := trimEnd content 0x0A start stop with hstop₁
  have hfirst : start ≤ stop₁ ∧ stop₁ ≤ stop ∧
      (stop₁ = content.length ∨ content[stop₁]? = some 0x0A) ∧
      (content[stop - 1]? = some 0x0A → stop₁ < stop) := by
    rcases trimEnd_cases content 0x0A start stop with heq | ⟨heq, -, hbyte⟩
    · rw [← hstop₁] at heq
      have hnot : ¬ content[stop - 1]? = some 0x0A := by
        intro hbyte
        rw [trimEnd, if_pos ⟨hgt, hbyte⟩] at hstop₁
        omega
      refine ⟨by omega, heq.le, .inl ?_, fun hbyte => absurd hbyte hnot⟩
      cases hsome : (starts content)[i + 1]? with
      | none =>
        rw [heq, hstop, nextStart, hsome, Option.getD_none]
      | some next => exact absurd (hstops next hsome).2 hnot
    · rw [← hstop₁] at heq
      rw [heq]
      exact ⟨by omega, by omega, .inr hbyte, fun _ => by omega⟩
  obtain ⟨hge₁, hle₁, hend₁, hless₁⟩ := hfirst
  rcases trimEnd_cases content 0x0D start stop₁ with heq | ⟨heq, hlt₂, hbyte⟩
  · rw [heq]
    refine ⟨hstart, hge₁, hle₁.trans hle, hbefore, hend₁.imp_right .inl, fun next hsome => ?_⟩
    obtain ⟨rfl, hfeed⟩ := hstops next hsome
    exact hless₁ hfeed
  · rw [heq]
    refine ⟨hstart, by omega, by omega, hbefore, .inr (.inr hbyte), fun next hsome => ?_⟩
    obtain ⟨rfl, hfeed⟩ := hstops next hsome
    have hless := hless₁ hfeed
    omega

/-- **Every offset of the text of a line has that line.** -/
theorem lineOf_eq (hi : i < lineCount content) (hle : lineStart content i ≤ offset)
    (hge : offset ≤ lineEnd content i) : lineOf content offset = i := by
  obtain ⟨hstart, -, -, -, -, hstops⟩ := line_bounds hi
  exact lineOf_eq_of_starts hstart hle fun stop hstop => lt_of_le_of_lt hge (hstops stop hstop)

lemma length_lineText (hi : i < lineCount content) :
    (lineText content i).length = lineEnd content i - lineStart content i := by
  obtain ⟨-, hle, hlen, -⟩ := line_bounds hi
  rw [lineText, slice, length_drop, length_take]
  omega

/-- A text is a line with what is around it. -/
lemma content_eq (hi : i < lineCount content) :
    content = content.take (lineStart content i) ++
      (lineText content i ++ content.drop (lineEnd content i)) := by
  obtain ⟨-, hle, -⟩ := line_bounds hi
  have htake : content.take (lineStart content i) =
      (content.take (lineEnd content i)).take (lineStart content i) := by
    rw [take_take, Nat.min_eq_left hle]
  rw [← append_assoc, htake, lineText, slice, take_append_drop, take_append_drop]

end LineIndex

end Tgrep
