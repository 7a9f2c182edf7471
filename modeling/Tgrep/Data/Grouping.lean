import Mathlib.Data.List.TakeWhile
import Tgrep.Data.Ascending

/-!
# Grouping a sorted list

Consecutive elements with one key, as a loop finds them that remembers where the current run
starts.

## Main definitions

* `Grouping.byKey`: the runs of a list, each with its key.

## Main results

* `Grouping.flatMap_byKey`: the runs make up the list.
* `Grouping.byKey_ascending`: the runs of a sorted list have ascending keys.
-/

namespace Grouping

open List

variable {α κ : Type*} [DecidableEq κ]

/-- The runs of consecutive elements with one key. -/
def byKey (key : α → κ) : List α → List (κ × List α)
  | [] => []
  | a :: l =>
    (key a, a :: l.takeWhile fun b => key b = key a) ::
      byKey key (l.dropWhile fun b => key b = key a)
termination_by l => l.length
decreasing_by
  have hsub : (l.dropWhile fun b => key b = key a).Sublist l := List.dropWhile_sublist _
  exact Nat.lt_succ_of_le hsub.length_le

variable {key : α → κ}

/-- The runs make up the list. -/
lemma flatMap_byKey (l : List α) : (byKey key l).flatMap Prod.snd = l := by
  fun_induction byKey key l with
  | case1 => rfl
  | case2 a l ih =>
    rw [flatMap_cons, ih, cons_append, takeWhile_append_dropWhile]

/-- A run is not empty, and its elements have its key. -/
lemma of_mem_byKey {l : List α} {g : κ × List α} (hg : g ∈ byKey key l) :
    g.2 ≠ [] ∧ g.2.Sublist l ∧ ∀ a ∈ g.2, key a = g.1 := by
  fun_induction byKey key l with
  | case1 => simp at hg
  | case2 a l ih =>
    rcases mem_cons.mp hg with rfl | hg'
    · refine ⟨cons_ne_nil _ _, (takeWhile_sublist _).cons_cons a, fun b hb => ?_⟩
      rcases mem_cons.mp hb with rfl | hb'
      · rfl
      · simpa using mem_takeWhile_imp hb'
    · obtain ⟨hne, hsub, hall⟩ := ih hg'
      exact ⟨hne, (hsub.trans (dropWhile_sublist _)).cons a, hall⟩

end Grouping

namespace Grouping

variable {α κ : Type*} [LinearOrder κ] {key : α → κ}

/-- What follows a run in a sorted list has larger keys. -/
lemma lt_of_mem_dropWhile {a : α} {l : List α}
    (hsorted : (a :: l).Pairwise fun b c => key b ≤ key c) {b : α}
    (hb : b ∈ l.dropWhile fun b => key b = key a) : key a < key b := by
  obtain ⟨hhead, htail⟩ := List.pairwise_cons.mp hsorted
  cases hdrop : l.dropWhile fun b => key b = key a with
  | nil =>
    rw [hdrop] at hb
    simp at hb
  | cons c rest =>
    have hsub : (c :: rest).Sublist l := hdrop ▸ List.dropWhile_sublist _
    have hne : key c ≠ key a := by
      have hfirst := List.head?_dropWhile_not (fun b => decide (key b = key a)) l
      rw [hdrop] at hfirst
      simpa using hfirst
    have hlt : key a < key c :=
      lt_of_le_of_ne (hhead c (hsub.subset (List.mem_cons_self ..))) hne.symm
    rw [hdrop] at hb
    rcases List.mem_cons.mp hb with rfl | hb'
    · exact hlt
    · exact hlt.trans_le ((List.pairwise_cons.mp (htail.sublist hsub)).1 b hb')

/-- **The runs of a sorted list have ascending keys.** -/
theorem byKey_ascending {l : List α} (hsorted : l.Pairwise fun a b => key a ≤ key b) :
    Ascending Prod.fst (byKey key l) := by
  fun_induction byKey key l with
  | case1 => exact Ascending.nil
  | case2 a l ih =>
    have htail := (List.pairwise_cons.mp hsorted).2
    refine Ascending.cons.mpr ⟨fun g hg => ?_, ih (htail.sublist (List.dropWhile_sublist _))⟩
    obtain ⟨hne, hsub, hall⟩ := of_mem_byKey hg
    obtain ⟨b, hb⟩ := List.exists_mem_of_ne_nil _ hne
    rw [← hall b hb]
    exact lt_of_mem_dropWhile hsorted (hsub.subset hb)

end Grouping
