import Mathlib.Algebra.GroupWithZero.Nat
import Mathlib.Data.List.Basic
import Mathlib.Algebra.BigOperators.Group.List.Basic

/-!
# Unsigned 64-bit counters

The arithmetic that programs use to keep counters in 64-bit words: the checked operations, which
refuse to leave the range, and the wrapping ones, which reduce modulo the word size.

## Main definitions

* `Counter.checkedAdd`, `Counter.checkedSub`: the sum or difference, unless it is out of range.
* `Counter.wrappingAdd`, `Counter.wrappingSub`: the sum or difference modulo `2 ^ 64`.
* `Counter.saturatingAdd`: the sum, or the largest value if that is out of range.
* `Counter.checkedSum`: a checked sum of a list.

## Main results

* `Counter.wrappingSub_of_le`: a wrapping difference is exact when the counter covers it.
* `Counter.checkedSum_eq_some`: the checked sum of a list is its sum, if that is in range.
-/

namespace Counter

/-- The number of values of a 64-bit word. -/
def size : ℕ := 2 ^ 64

/-- The sum, if it is in range. -/
def checkedAdd (a b : ℕ) : Option ℕ := if a + b < size then some (a + b) else none

/-- The difference, if it is not negative. -/
def checkedSub (a b : ℕ) : Option ℕ := if b ≤ a then some (a - b) else none

/-- The product, if it is in range. -/
def checkedMul (a b : ℕ) : Option ℕ := if a * b < size then some (a * b) else none

/-- The sum modulo the word size. -/
def wrappingAdd (a b : ℕ) : ℕ := (a + b) % size

/-- The difference modulo the word size. -/
def wrappingSub (a b : ℕ) : ℕ := (a + (size - b % size)) % size

/-- The sum, or the largest value of a word. -/
def saturatingAdd (a b : ℕ) : ℕ := min (a + b) (size - 1)

/-- Saturating sums of what has saturated already saturate the whole sum. -/
lemma saturatingAdd_min (a b : ℕ) :
    saturatingAdd (min a (size - 1)) b = min (a + b) (size - 1) := by
  unfold saturatingAdd
  omega

variable {b a : ℕ}

/-- A checked sum succeeds with the sum exactly when that is in range. -/
lemma checkedAdd_eq_some {c : ℕ} : checkedAdd a b = some c ↔ c = a + b ∧ c < size := by
  unfold checkedAdd
  split_ifs with h
  · constructor
    · rintro ⟨⟩
      exact ⟨rfl, h⟩
    · rintro ⟨rfl, -⟩
      rfl
  · constructor
    · intro hc
      cases hc
    · rintro ⟨rfl, hc⟩
      exact absurd hc h

/-- A checked difference succeeds with the difference exactly when that is not negative. -/
lemma checkedSub_eq_some {c : ℕ} : checkedSub a b = some c ↔ a = c + b := by
  unfold checkedSub
  split_ifs with h
  · constructor
    · rintro ⟨⟩
      omega
    · rintro rfl
      rw [Nat.add_sub_cancel]
  · constructor
    · intro hc
      cases hc
    · rintro rfl
      omega

/-- A checked difference fails exactly when the second number is larger. -/
lemma checkedSub_eq_none : checkedSub a b = none ↔ a < b := by
  unfold checkedSub
  split_ifs with h <;> simp <;> omega

/-- A wrapping sum in range is the sum. -/
lemma wrappingAdd_of_lt (h : a + b < size) : wrappingAdd a b = a + b :=
  Nat.mod_eq_of_lt h

/-- A wrapping difference of a counter that covers it is the difference. -/
lemma wrappingSub_of_le (hb : b ≤ a) (ha : a < size) : wrappingSub a b = a - b := by
  have hmod : b % size = b := Nat.mod_eq_of_lt (by omega)
  have hsum : a + (size - b) = (a - b) + size := by omega
  rw [wrappingSub, hmod, hsum, Nat.add_mod_right]
  exact Nat.mod_eq_of_lt (by omega)

/-- The checked sum of a list, from a start value. -/
def checkedSum (start : ℕ) (values : List ℕ) : Option ℕ := values.foldlM checkedAdd start

/-- The checked sum of a list is its sum, if that is in range. -/
lemma checkedSum_eq_some {start : ℕ} {values : List ℕ} (h : start + values.sum < size) :
    checkedSum start values = some (start + values.sum) := by
  unfold checkedSum
  induction values generalizing start with
  | nil => rfl
  | cons v vs ih =>
    rw [List.sum_cons] at h ⊢
    have hfirst : checkedAdd start v = some (start + v) :=
      checkedAdd_eq_some.mpr ⟨rfl, by omega⟩
    have hrest : (start + v) + vs.sum < size := by omega
    rw [List.foldlM_cons, hfirst, ← add_assoc]
    exact ih hrest

/-- A checked sum that succeeds is the sum. -/
lemma eq_of_checkedSum {start total : ℕ} {values : List ℕ}
    (h : checkedSum start values = some total) : total = start + values.sum := by
  unfold checkedSum at h
  induction values generalizing start with
  | nil =>
    cases h
    rfl
  | cons v vs ih =>
    rw [List.foldlM_cons, Option.bind_eq_bind, Option.bind_eq_some_iff] at h
    obtain ⟨sum, hsum, hrest⟩ := h
    obtain ⟨rfl, -⟩ := checkedAdd_eq_some.mp hsum
    rw [ih hrest, List.sum_cons, add_assoc]

end Counter
