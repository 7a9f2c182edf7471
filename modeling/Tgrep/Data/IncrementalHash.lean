import Mathlib.Data.List.Basic

/-!
# Incremental hashing

A hash function with the interface of a stream: the input is handed over in chunks, and the digest
depends on the whole input only, not on how it was cut.

## Main definitions

* `IncrementalHash`: the operations, with the law that connects them.
* `IncrementalHash.Absorbed`: a state that a given input has been handed to.

## Main results

* `IncrementalHash.Absorbed.update`, `IncrementalHash.Absorbed.foldl`: more chunks.
* `IncrementalHash.Absorbed.finalize`: the digest of what was handed over.
-/

/-- A hash function on lists of `β`, with states in `η` and digests in `δ`. -/
structure IncrementalHash (β η δ : Type*) where
  /-- The state that nothing was handed to. -/
  new : η
  /-- Hand over a chunk. -/
  update : η → List β → η
  /-- The digest of everything that was handed over. -/
  finalize : η → δ
  /-- The digest of an input. -/
  hash : List β → δ
  /-- How the input is cut does not matter. -/
  finalize_foldl : ∀ chunks : List (List β), finalize (chunks.foldl update new) = hash chunks.flatten

namespace IncrementalHash

variable {β η δ : Type*} (h : IncrementalHash β η δ) {state : η} {input : List β}

/-- The input was handed to the state, in some chunks. -/
def Absorbed (state : η) (input : List β) : Prop :=
  ∃ chunks : List (List β), state = chunks.foldl h.update h.new ∧ chunks.flatten = input

/-- Nothing was handed to a new state. -/
lemma absorbed_new : h.Absorbed h.new [] := ⟨[], rfl, rfl⟩

variable {h}

/-- One more chunk. -/
lemma Absorbed.update (hs : h.Absorbed state input) (chunk : List β) :
    h.Absorbed (h.update state chunk) (input ++ chunk) := by
  obtain ⟨chunks, rfl, rfl⟩ := hs
  refine ⟨chunks ++ [chunk], ?_, ?_⟩
  · rw [List.foldl_append]
    rfl
  · rw [List.flatten_append, List.flatten_singleton]

/-- Some more chunks. -/
lemma Absorbed.foldl (hs : h.Absorbed state input) (chunks : List (List β)) :
    h.Absorbed (chunks.foldl h.update state) (input ++ chunks.flatten) := by
  obtain ⟨before, rfl, rfl⟩ := hs
  refine ⟨before ++ chunks, ?_, ?_⟩
  · rw [List.foldl_append]
  · rw [List.flatten_append]

/-- The digest of what was handed over. -/
lemma Absorbed.finalize (hs : h.Absorbed state input) : h.finalize state = h.hash input := by
  obtain ⟨chunks, rfl, rfl⟩ := hs
  exact h.finalize_foldl chunks

end IncrementalHash
