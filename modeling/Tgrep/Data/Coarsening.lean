import Mathlib.Data.Finset.Image
import Mathlib.Data.Finset.Lattice.Fold
import Mathlib.Logic.Relation
import Mathlib.Order.Lattice.Nat

/-!
# Coarsening sets of nodes

A finite set of nodes of a forest stands for the nodes that are in it or below one that is. Nodes
can be replaced by nodes above them, and nodes below others of the set can be left out: the set
stands for no fewer nodes afterwards.

## Main definitions

* `Coarsening.Above`: a node is another one, or above it.
* `Coarsening.Covers`: a set stands for a node.

## Main results

* `Coarsening.Covers.image`: replacing nodes by nodes above them.
* `Coarsening.Covers.filter`: leaving out nodes that others cover.
* `Coarsening.sup_lt`: a set gets flatter if its deepest nodes are replaced.
-/

namespace Coarsening

variable {α : Type*} {parent : α → Option α} {s t : Finset α} {a b c : α}

/-- The node `b` is `a`, or above it. -/
def Above (parent : α → Option α) (b a : α) : Prop :=
  Relation.ReflTransGen (fun x y => parent x = some y) a b

/-- The set stands for the node `a`. -/
def Covers (parent : α → Option α) (s : Finset α) (a : α) : Prop := ∃ b ∈ s, Above parent b a

/-- A node is above itself. -/
lemma Above.refl (a : α) : Above parent a a := Relation.ReflTransGen.refl

/-- What is above something above a node is above the node. -/
lemma Above.trans (h : Above parent c b) (h' : Above parent b a) : Above parent c a :=
  Relation.ReflTransGen.trans h' h

/-- A parent is above its child. -/
lemma Above.of_parent (h : parent a = some b) : Above parent b a :=
  Relation.ReflTransGen.single h

/-- What is above a node is the node, or above its parent. -/
lemma Above.cases (h : Above parent b a) : b = a ∨ ∃ c, parent a = some c ∧ Above parent b c := by
  rcases Relation.ReflTransGen.cases_head h with rfl | ⟨c, hc, hb⟩
  · exact .inl rfl
  · exact .inr ⟨c, hc, hb⟩

/-- A set covers a node if it covers its parent. -/
lemma Covers.of_parent (h : Covers parent s b) (hab : parent a = some b) : Covers parent s a := by
  obtain ⟨c, hc, habove⟩ := h
  exact ⟨c, hc, habove.trans (Above.of_parent hab)⟩

/-- A set covers a node iff it has it or covers its parent. -/
lemma covers_iff : Covers parent s a ↔ a ∈ s ∨ ∃ b, parent a = some b ∧ Covers parent s b := by
  constructor
  · rintro ⟨b, hb, habove⟩
    rcases habove.cases with rfl | ⟨c, hc, habove⟩
    · exact .inl hb
    · exact .inr ⟨c, hc, b, hb, habove⟩
  · rintro (ha | ⟨b, hb, hcovers⟩)
    · exact ⟨a, ha, Above.refl a⟩
    · exact hcovers.of_parent hb

/-- A larger set covers more. -/
lemma Covers.mono (h : Covers parent s a) (hst : s ⊆ t) : Covers parent t a := by
  obtain ⟨b, hb, habove⟩ := h
  exact ⟨b, hst hb, habove⟩

/-- **Nodes may be replaced by nodes above them.** -/
theorem Covers.image [DecidableEq α] {f : α → α} (hf : ∀ b ∈ s, Above parent (f b) b)
    (h : Covers parent s a) : Covers parent (s.image f) a := by
  obtain ⟨b, hb, habove⟩ := h
  exact ⟨f b, Finset.mem_image_of_mem f hb, (hf b hb).trans habove⟩

/-- **Nodes may be left out if their parents are covered**: the highest of the nodes above a given
one stays. -/
theorem Covers.filter {depth : α → ℕ} (hdepth : ∀ a b, parent a = some b → depth b < depth a)
    {p : α → Prop} [DecidablePred p]
    (hp : ∀ b ∈ s, ¬ p b → ∃ c, parent b = some c ∧ Covers parent s c) (h : Covers parent s a) :
    Covers parent (s.filter p) a := by
  obtain ⟨b, hb, habove⟩ := h
  induction hn : depth b using Nat.strong_induction_on generalizing b with
  | h n ih =>
    by_cases hkept : p b
    · exact ⟨b, Finset.mem_filter.mpr ⟨hb, hkept⟩, habove⟩
    · obtain ⟨c, hc, d, hd, habove'⟩ := hp b hb hkept
      have hle : depth d ≤ depth c := by
        clear hd
        induction habove' with
        | refl => exact le_rfl
        | tail _ hstep ihle => exact (Nat.le_of_lt (hdepth _ _ hstep)).trans ihle
      have hlt := hdepth b c hc
      exact ih (depth d) (by omega) d hd ((habove'.trans (Above.of_parent hc)).trans habove) rfl

/-- **A set gets flatter** if its deepest nodes are replaced by less deep ones. -/
theorem sup_lt [DecidableEq α] {depth : α → ℕ} {f : α → α} (hpos : 0 < s.sup depth)
    (hf : ∀ b ∈ s, depth (f b) < s.sup depth) (hsub : t ⊆ s.image f) :
    t.sup depth < s.sup depth := by
  refine (Finset.sup_lt_iff hpos).mpr fun b hb => ?_
  obtain ⟨c, hc, rfl⟩ := Finset.mem_image.mp (hsub hb)
  exact hf c hc

end Coarsening
