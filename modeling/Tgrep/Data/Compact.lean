import Mathlib.Data.List.Basic

/-!
# Compacting a table

Dropping some rows of a table renumbers the others. The map from old to new indices sends every
kept row to its place among the kept rows.

## Main definitions

* `Compact.idMap`: the new index of every row, if it is kept.

## Main results

* `Compact.getElem?_idMap`: a kept row is found at its new index.
* `Compact.exists_idMap`: every kept row has a new index.
* `Compact.idMap_lt`: new indices are in the order of the old ones.
-/

namespace Compact

open List

variable {α : Type*} {keep : α → Bool}

/-- The new indices of the rows, counted from `n`. -/
def idMapFrom (keep : α → Bool) : ℕ → List α → List (Option ℕ)
  | _, [] => []
  | n, a :: l => if keep a then some n :: idMapFrom keep (n + 1) l else none :: idMapFrom keep n l

@[simp] lemma idMapFrom_nil (n : ℕ) : idMapFrom keep n ([] : List α) = [] := rfl

/-- The new index of every row, if it is kept. -/
def idMap (keep : α → Bool) (l : List α) : List (Option ℕ) := idMapFrom keep 0 l

variable {j i : ℕ} {l : List α}

/-- New indices counted from `n` are those of the kept rows, moved by `n`. -/
lemma getElem?_idMapFrom {n : ℕ} (h : (idMapFrom keep n l)[i]? = some (some j)) :
    n ≤ j ∧ ∃ a, l[i]? = some a ∧ keep a = true ∧ (l.filter keep)[j - n]? = some a := by
  induction l generalizing n i with
  | nil => simp at h
  | cons a l ih =>
    rw [idMapFrom] at h
    by_cases ha : keep a = true
    · rw [if_pos ha] at h
      cases i with
      | zero =>
        obtain rfl : n = j := by simpa using h
        exact ⟨Nat.le_refl n, a, rfl, ha, by simp [ha]⟩
      | succ i =>
        obtain ⟨hle, b, hb, hkeep, hget⟩ := ih (by simpa using h)
        refine ⟨by omega, b, by simpa using hb, hkeep, ?_⟩
        rw [filter_cons_of_pos ha, show j - n = j - (n + 1) + 1 by omega, getElem?_cons_succ, hget]
    · rw [if_neg ha] at h
      cases i with
      | zero => simp at h
      | succ i =>
        obtain ⟨hle, b, hb, hkeep, hget⟩ := ih (by simpa using h)
        exact ⟨hle, b, by simpa using hb, hkeep, by rw [filter_cons_of_neg ha, hget]⟩

/-- **A kept row is found at its new index.** -/
theorem getElem?_idMap (h : (idMap keep l)[i]? = some (some j)) :
    ∃ a, l[i]? = some a ∧ keep a = true ∧ (l.filter keep)[j]? = some a :=
  (getElem?_idMapFrom h).2

/-- **Every kept row has a new index.** -/
theorem exists_idMap {a : α} (hi : l[i]? = some a) (ha : keep a = true) :
    ∃ j, (idMap keep l)[i]? = some (some j) := by
  have hfrom : ∀ (l : List α) (n i : ℕ), l[i]? = some a →
      ∃ j, (idMapFrom keep n l)[i]? = some (some j) := by
    intro l
    induction l with
    | nil =>
      intro n i hi
      simp at hi
    | cons b l ih =>
      intro n i hi
      rw [idMapFrom]
      cases i with
      | zero =>
        obtain rfl : b = a := by simpa using hi
        rw [if_pos ha]
        exact ⟨n, rfl⟩
      | succ i =>
        rw [getElem?_cons_succ] at hi
        split_ifs
        · exact ih (n + 1) i hi
        · exact ih n i hi
  exact hfrom l 0 i hi

/-- **New indices are in the order of the old ones.** -/
theorem idMap_lt {i' j' : ℕ} (hlt : i < i') (h : (idMap keep l)[i]? = some (some j))
    (h' : (idMap keep l)[i']? = some (some j')) : j < j' := by
  have hfrom : ∀ (l : List α) (n i i' : ℕ), i < i' → (idMapFrom keep n l)[i]? = some (some j) →
      (idMapFrom keep n l)[i']? = some (some j') → j < j' := by
    intro l
    induction l with
    | nil =>
      intro n i i' _ h
      simp at h
    | cons a l ih =>
      intro n i i' hlt h h'
      cases i' with
      | zero => exact absurd hlt (Nat.not_lt_zero i)
      | succ i' =>
        rw [idMapFrom] at h h'
        split_ifs at h h'
        · cases i with
          | zero =>
            -- later indices are counted from the next number on
            obtain rfl : n = j := by simpa using h
            exact (getElem?_idMapFrom (by simpa using h')).1
          | succ i => exact ih (n + 1) i i' (by omega) (by simpa using h) (by simpa using h')
        · cases i with
          | zero => simp at h
          | succ i => exact ih n i i' (by omega) (by simpa using h) (by simpa using h')
  exact hfrom l 0 i i' hlt h h'

@[simp] lemma length_idMap (keep : α → Bool) (l : List α) : (idMap keep l).length = l.length := by
  have hfrom : ∀ (l : List α) (n : ℕ), (idMapFrom keep n l).length = l.length := by
    intro l
    induction l with
    | nil => exact fun _ => rfl
    | cons a l ih =>
      intro n
      rw [idMapFrom]
      split_ifs <;> rw [length_cons, ih, length_cons]
  exact hfrom l 0

end Compact
