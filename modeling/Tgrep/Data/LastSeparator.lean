import Mathlib.Data.List.Basic
import Mathlib.Data.List.TakeWhile

/-!
# Splitting at the last separator

A list is split at the last place of a separator into what is above and what is left. Repeating that
with what is above goes through everything above the list: the initial segments that a separator
ends.

## Main definitions

* `Separator.rsplitOnce`: split a list at the last separator.
* `Separator.Above`: an initial segment that a separator ends.
* `Separator.anySelfOrAbove`: go up from a list until a predicate holds.

## Main results

* `Separator.rsplitOnce_eq_some`: what a split yields.
* `Separator.above_iff`: what is above a list that is split.
* `Separator.anySelfOrAbove_iff`: the walk goes through the list and everything above it.
-/

namespace Separator

open List

variable {α : Type*} [DecidableEq α] {sep : α} {l a d n : List α}

/-- Split a list at the last separator. -/
def rsplitOnce (sep : α) : List α → Option (List α × List α)
  | [] => none
  | x :: l =>
    match rsplitOnce sep l with
    | some (d, n) => some (x :: d, n)
    | none => if x = sep then some ([], l) else none

/-- A list is not split iff it has no separator. -/
lemma rsplitOnce_eq_none : rsplitOnce sep l = none ↔ sep ∉ l := by
  induction l with
  | nil => exact ⟨fun _ => not_mem_nil, fun _ => rfl⟩
  | cons x l ih =>
    rw [rsplitOnce, mem_cons]
    cases hrest : rsplitOnce sep l with
    | some split =>
      rw [hrest] at ih
      have hmem : sep ∈ l := by
        by_contra hnot
        cases ih.mpr hnot
      exact ⟨fun h => (nomatch h), fun h => absurd (.inr hmem) h⟩
    | none =>
      have hnot := ih.mp hrest
      dsimp only
      split_ifs with heq
      · exact ⟨fun h => (nomatch h), fun h => absurd (.inl heq.symm) h⟩
      · refine ⟨fun _ h => ?_, fun _ => rfl⟩
        rcases h with h | h
        · exact heq h.symm
        · exact hnot h

/-- A list that is split is the two pieces with a separator between them, and the second piece has
none. -/
lemma eq_of_rsplitOnce (h : rsplitOnce sep l = some (d, n)) : l = d ++ sep :: n ∧ sep ∉ n := by
  induction l generalizing d with
  | nil => cases h
  | cons x l ih =>
    rw [rsplitOnce] at h
    cases hrest : rsplitOnce sep l with
    | some split =>
      obtain ⟨d', n'⟩ := split
      rw [hrest] at h
      cases h
      obtain ⟨rfl, hn⟩ := ih hrest
      exact ⟨rfl, hn⟩
    | none =>
      rw [hrest] at h
      dsimp only at h
      split_ifs at h with heq
      cases h
      exact ⟨heq ▸ rfl, rsplitOnce_eq_none.mp hrest⟩

omit [DecidableEq α] in
/-- What two splits of one list at a separator have in common: the first is at the last one, so the
second is there too or above. -/
lemma split_cases {rest : List α} (h : d ++ sep :: n = a ++ sep :: rest) (hn : sep ∉ n) :
    a = d ∧ rest = n ∨ ∃ between, d = a ++ sep :: between := by
  rcases List.append_eq_append_iff.mp h with ⟨c, ha, hrest⟩ | ⟨c, hd, hrest⟩
  · cases c with
    | nil =>
      rw [append_nil] at ha
      exact .inl ⟨ha, (List.cons.inj hrest).2.symm⟩
    | cons x c =>
      -- the separator of the second split would be behind that of the first
      rw [cons_append] at hrest
      obtain ⟨-, hbehind⟩ := List.cons.inj hrest
      exact absurd (hbehind ▸ mem_append_right c mem_cons_self) hn
  · cases c with
    | nil =>
      rw [append_nil] at hd
      exact .inl ⟨hd.symm, (List.cons.inj hrest).2⟩
    | cons x c =>
      rw [cons_append] at hrest
      obtain ⟨rfl, -⟩ := List.cons.inj hrest
      exact .inr ⟨c, hd⟩

/-- **A split** is at a separator, and there is none behind it. -/
theorem rsplitOnce_eq_some : rsplitOnce sep l = some (d, n) ↔ l = d ++ sep :: n ∧ sep ∉ n := by
  refine ⟨eq_of_rsplitOnce, fun ⟨hl, hn⟩ => ?_⟩
  cases hsplit : rsplitOnce sep l with
  | none =>
    refine absurd ?_ (rsplitOnce_eq_none.mp hsplit)
    rw [hl]
    exact mem_append_right d mem_cons_self
  | some split =>
    obtain ⟨d', n'⟩ := split
    obtain ⟨hl', hn'⟩ := eq_of_rsplitOnce hsplit
    have heq : d ++ sep :: n = d' ++ sep :: n' := hl.symm.trans hl'
    rcases split_cases heq hn with ⟨rfl, rfl⟩ | ⟨between, hd⟩
    · rfl
    · -- the second split would not be the last one
      rw [hd, append_assoc, cons_append] at heq
      have htail := (List.cons.inj (append_cancel_left heq)).2
      exact absurd (htail ▸ mem_append_right between mem_cons_self) hn'

/-- What is above a list: an initial segment that a separator ends. -/
def Above (sep : α) (a l : List α) : Prop := ∃ rest, l = a ++ sep :: rest

/-- **What is above a list that is split**: its first piece, and what is above that. -/
theorem above_iff (h : rsplitOnce sep l = some (d, n)) : Above sep a l ↔ a = d ∨ Above sep a d := by
  obtain ⟨rfl, hn⟩ := eq_of_rsplitOnce h
  constructor
  · rintro ⟨rest, heq⟩
    rcases split_cases heq hn with ⟨ha, -⟩ | habove
    · exact .inl ha
    · exact .inr habove
  · rintro (rfl | ⟨between, rfl⟩)
    · exact ⟨n, rfl⟩
    · exact ⟨between ++ sep :: n, by rw [append_assoc, cons_append]⟩

/-- The first piece of a split is shorter. -/
lemma length_lt (h : rsplitOnce sep l = some (d, n)) : d.length < l.length := by
  obtain ⟨rfl, -⟩ := eq_of_rsplitOnce h
  rw [length_append, length_cons]
  omega

/-- Go up from a list until a predicate holds. -/
def anySelfOrAbove (sep : α) (p : List α → Bool) (l : List α) : Bool :=
  if p l then true
  else
    match _h : rsplitOnce sep l with
    | some (next, _) => anySelfOrAbove sep p next
    | none => false
termination_by l.length
decreasing_by exact length_lt _h

/-- **The walk** goes through the list and everything above it. -/
theorem anySelfOrAbove_iff {p : List α → Bool} :
    anySelfOrAbove sep p l = true ↔ ∃ a, (a = l ∨ Above sep a l) ∧ p a = true := by
  fun_induction anySelfOrAbove sep p l with
  | case1 l hp => exact ⟨fun _ => ⟨l, .inl rfl, hp⟩, fun _ => rfl⟩
  | case2 l hp next n hsplit ih =>
    rw [ih]
    constructor
    · rintro ⟨a, ha, hpa⟩
      exact ⟨a, .inr ((above_iff hsplit).mpr ha), hpa⟩
    · rintro ⟨a, rfl | ha, hpa⟩
      · exact absurd hpa hp
      · exact ⟨a, (above_iff hsplit).mp ha, hpa⟩
  | case3 l hp hsplit =>
    refine ⟨fun h => (nomatch h), ?_⟩
    rintro ⟨a, rfl | ⟨rest, rfl⟩, hpa⟩
    · exact absurd hpa hp
    · exact absurd (mem_append_right a mem_cons_self) (rsplitOnce_eq_none.mp hsplit)

end Separator
