import Tgrep.Data.FinMap
import Mathlib.Algebra.BigOperators.Group.Finset.Basic
import Mathlib.Algebra.BigOperators.Group.Finset.Piecewise
import Mathlib.Algebra.Order.BigOperators.Group.Finset
import Mathlib.Tactic.Abel

/-!
# Tallies over the rows of a table

A tally is the sum of an amount over the rows of a finite table. An incrementally kept counter
agrees with a tally if it moves by the difference of what one row contributes before and after
the row, or something that its amount depends on, has changed. That is the one lemma here; every
insertion, update and deletion is a case of it.

## Main definitions

* `FinMap.contribution`: what the row at a key adds to a tally.
* `FinMap.tally`: the sum of the contributions.

## Main results

* `FinMap.tally_change`: the tally after the contribution at one key has changed.
* `FinMap.tally_nonneg`: a tally of amounts that are not negative is not negative.
* `FinMap.tally_eq_sum_toList`: a tally is the sum of a list.
-/

namespace FinMap

open Finset

variable {κ ν : Type*} {m m' : FinMap κ ν} {f g : κ → ν → ℤ} {k : κ}

/-- What the row at a key adds to a tally: nothing if there is no row. -/
def contribution (f : κ → ν → ℤ) (m : FinMap κ ν) (k : κ) : ℤ := ((m.get? k).map (f k)).getD 0

/-- The sum of an amount over the rows of a table. -/
def tally (f : κ → ν → ℤ) (m : FinMap κ ν) : ℤ := ∑ k ∈ m.keys, m.contribution f k

/-- A missing row contributes nothing. -/
lemma contribution_of_none (h : m.get? k = none) : m.contribution f k = 0 := by
  simp [contribution, h]

/-- A row contributes its amount. -/
lemma contribution_of_some {v : ν} (h : m.get? k = some v) : m.contribution f k = f k v := by
  simp [contribution, h]

/-- The tally may be taken over any set of keys that has all rows in it. -/
lemma tally_eq_sum (f : κ → ν → ℤ) (m : FinMap κ ν) {s : Finset κ} (hs : m.keys ⊆ s) :
    m.tally f = ∑ k ∈ s, m.contribution f k := by
  refine sum_subset hs fun k _ hk => ?_
  exact contribution_of_none (notMem_keys.mp hk)

/-- Tallies with the same contributions are equal. -/
lemma tally_congr [DecidableEq κ] (h : ∀ k, m'.contribution g k = m.contribution f k) :
    m'.tally g = m.tally f := by
  have hm' : m'.keys ⊆ m'.keys ∪ m.keys := subset_union_left
  have hm : m.keys ⊆ m'.keys ∪ m.keys := subset_union_right
  rw [tally_eq_sum g m' hm', tally_eq_sum f m hm]
  exact sum_congr rfl fun k _ => h k

/-- **The change of a tally.** If the contributions agree at every key but one, the tallies differ
by the difference there. -/
theorem tally_change [DecidableEq κ] (k : κ)
    (h : ∀ j, j ≠ k → m'.contribution g j = m.contribution f j) :
    m'.tally g = m.tally f - m.contribution f k + m'.contribution g k := by
  set s : Finset κ := Insert.insert k (m.keys ∪ m'.keys) with hs
  have hm : m.keys ⊆ s := by
    rw [hs]
    exact subset_union_left.trans (subset_insert _ _)
  have hm' : m'.keys ⊆ s := by
    rw [hs]
    exact subset_union_right.trans (subset_insert _ _)
  have hk : k ∈ s := mem_insert_self _ _
  have hrest : ∑ j ∈ s.erase k, m'.contribution g j = ∑ j ∈ s.erase k, m.contribution f j :=
    sum_congr rfl fun j hj => h j (ne_of_mem_erase hj)
  rw [tally_eq_sum g m' hm', tally_eq_sum f m hm, ← add_sum_erase s _ hk,
    ← add_sum_erase s (fun j => m.contribution f j) hk, hrest]
  abel

/-- A tally of amounts that are not negative is not negative. -/
lemma tally_nonneg (h : ∀ k v, 0 ≤ f k v) : 0 ≤ m.tally f := by
  refine sum_nonneg fun k _ => ?_
  cases hget : m.get? k with
  | none => rw [contribution_of_none hget]
  | some v =>
    rw [contribution_of_some hget]
    exact h k v

/-- A row's amount is at most the tally. -/
lemma le_tally (h : ∀ k v, 0 ≤ f k v) {v : ν} (hv : m.get? k = some v) : f k v ≤ m.tally f := by
  have hself : m.contribution f k = f k v := contribution_of_some hv
  rw [← hself]
  refine single_le_sum (fun j _ => ?_) (mem_keys_of_get? hv)
  cases hget : m.get? j with
  | none => rw [contribution_of_none hget]
  | some w =>
    rw [contribution_of_some hget]
    exact h j w

/-- The tally of an empty table. -/
@[simp] lemma tally_empty (f : κ → ν → ℤ) : (empty : FinMap κ ν).tally f = 0 := by
  simp [tally]

/-- The tally of nothing. -/
@[simp] lemma tally_zero (m : FinMap κ ν) : (m.tally fun _ _ => 0) = 0 := by
  refine sum_eq_zero fun k _ => ?_
  unfold contribution
  cases m.get? k <;> rfl

section Rows

variable [DecidableEq κ]

/-- Set or remove the row at a key. -/
def put (m : FinMap κ ν) (k : κ) (row : Option ν) : FinMap κ ν := m.alter k fun _ => row

/-- The rows after one is set or removed. -/
lemma get?_put (m : FinMap κ ν) (k j : κ) (row : Option ν) :
    (m.put k row).get? j = if j = k then row else m.get? j :=
  get?_alter m k j _

@[simp] lemma get?_put_self (m : FinMap κ ν) (k : κ) (row : Option ν) :
    (m.put k row).get? k = row := by
  rw [get?_put, if_pos rfl]

/-- A row at another key. -/
lemma get?_put_of_ne (m : FinMap κ ν) {k j : κ} (h : j ≠ k) (row : Option ν) :
    (m.put k row).get? j = m.get? j := by
  rw [get?_put, if_neg h]

/-- Setting a row twice. -/
@[simp] lemma put_put (m : FinMap κ ν) (k : κ) (row row' : Option ν) :
    (m.put k row).put k row' = m.put k row' := by
  apply ext_get?
  intro j
  simp only [get?_put]
  split_ifs <;> rfl

/-- Setting a row to what it is. -/
lemma put_get? (m : FinMap κ ν) (k : κ) : m.put k (m.get? k) = m := by
  apply ext_get?
  intro j
  rw [get?_put]
  split_ifs with h
  · rw [h]
  · rfl

/-- The tally after a row is set or removed. -/
lemma tally_put (f : κ → ν → ℤ) (m : FinMap κ ν) (k : κ) (row : Option ν) :
    (m.put k row).tally f = m.tally f - ((m.get? k).map (f k)).getD 0 + (row.map (f k)).getD 0 := by
  have h : (m.put k row).tally f =
      m.tally f - m.contribution f k + (m.put k row).contribution f k := by
    refine tally_change k fun j hj => ?_
    rw [contribution, contribution, get?_put_of_ne m hj]
  rw [h, contribution, contribution, get?_put_self]

end Rows

/-- The tally as the sum of a list. -/
lemma tally_eq_sum_toList [LinearOrder κ] (f : κ → ν → ℤ) (m : FinMap κ ν) :
    m.tally f = (m.toList.map fun row => f row.1 row.2).sum := by
  have hlist : ∀ ks : List κ, ((ks.filterMap fun k => (m.get? k).map fun v => (k, v)).map
      fun row => f row.1 row.2).sum = (ks.map (m.contribution f)).sum := by
    intro ks
    induction ks with
    | nil => rfl
    | cons k ks ih =>
      rw [List.map_cons, List.sum_cons, ← ih]
      cases hget : m.get? k with
      | none => simp [hget, contribution_of_none hget]
      | some v => simp [hget, contribution_of_some hget]
  unfold toList
  rw [hlist, tally, ← List.sum_toFinset _ (sort_nodup _ _), sort_toFinset]

end FinMap
