import Mathlib.Order.Defs.LinearOrder
import Mathlib.Data.List.Basic
import Mathlib.Data.Set.Basic

/-!
# Walking a changing set in the order of its keys

A long walk through a set that changes meanwhile cannot remember an index. It remembers the key of
the element it took last and asks the set, as it is now, for the least key beyond. What the walk
has taken is then described by two properties of the position alone, and neither mentions the set:
they survive every change of it.

## Main definitions

* `Keyset.Walked`: everything taken came in strictly ascending order, up to the position.
* `Keyset.Covers`: what is steady and not beyond the position has been taken.

## Main results

* `Keyset.Walked.take`, `Keyset.Walked.skip`: the position moves to an element, or past nothing.
* `Keyset.Covers.take`, `Keyset.Covers.skip`: the same, if no steady element is jumped over.
-/

namespace Keyset

open List

variable {α κ : Type*} [LinearOrder κ] {key : α → κ} {position place : κ} {taken : List α} {a : α}
  {steady : Set α}

/-- Everything taken came in strictly ascending order of the keys, and is not beyond the
position. -/
structure Walked (key : α → κ) (position : κ) (taken : List α) : Prop where
  /-- The keys ascend. -/
  sorted : taken.Pairwise fun a b => key a < key b
  /-- Nothing is beyond the position. -/
  within : ∀ a ∈ taken, key a ≤ position

/-- A walk that has taken nothing may stand anywhere. -/
lemma Walked.nil : Walked key position [] := ⟨List.Pairwise.nil, by simp⟩

/-- The position may move on without an element. -/
lemma Walked.skip (h : Walked key position taken) (hle : position ≤ place) :
    Walked key place taken :=
  ⟨h.sorted, fun a ha => (h.within a ha).trans hle⟩

/-- An element beyond the position is taken, and the position moves to it. -/
lemma Walked.take (h : Walked key position taken) (hlt : position < key a) :
    Walked key (key a) (taken ++ [a]) := by
  have hbefore : ∀ b ∈ taken, key b < key a := fun b hb => (h.within b hb).trans_lt hlt
  refine ⟨pairwise_append.mpr ⟨h.sorted, pairwise_singleton _ _, ?_⟩, ?_⟩
  · intro b hb c hc
    obtain rfl := mem_singleton.mp hc
    exact hbefore b hb
  · intro b hb
    rcases mem_append.mp hb with hb | hb
    · exact (hbefore b hb).le
    · exact (congrArg key (mem_singleton.mp hb)).le

/-- Every steady element that is not beyond the position has been taken. -/
def Covers (key : α → κ) (steady : Set α) (position : κ) (taken : List α) : Prop :=
  ∀ a ∈ steady, key a ≤ position → a ∈ taken

/-- The position may move on over keys that no steady element has. -/
lemma Covers.skip (h : Covers key steady position taken)
    (hnone : ∀ b ∈ steady, key b ≤ place → key b ≤ position) : Covers key steady place taken :=
  fun b hb hle => h b hb (hnone b hb hle)

/-- The least element beyond the position is taken: no steady one is jumped over. -/
lemma Covers.take (h : Covers key steady position taken) (hinj : Function.Injective key)
    (hleast : ∀ b ∈ steady, position < key b → key a ≤ key b) :
    Covers key steady (key a) (taken ++ [a]) := by
  intro b hb hle
  rcases lt_or_ge position (key b) with hlt | hge
  · have heq : b = a := hinj (hle.antisymm (hleast b hb hlt))
    exact heq ▸ mem_append_right _ (mem_singleton.mpr rfl)
  · exact mem_append_left _ (h b hb hge)

/-- Once no steady element is beyond the position, all of them have been taken. -/
lemma Covers.all (h : Covers key steady position taken)
    (hnone : ∀ b ∈ steady, key b ≤ position) : ∀ a ∈ steady, a ∈ taken :=
  fun a ha => h a ha (hnone a ha)

end Keyset
