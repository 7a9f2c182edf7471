import Mathlib.Data.List.Perm.Basic
import Mathlib.Data.Prod.Lex
import Tgrep.Data.Ascending
import Tgrep.Data.Heap
import Tgrep.Data.Loops

/-!
# Sorting under a permit

Without a permit a vector is sorted at once. Under a permit it is sorted in chunks, between which
the permit is checked, and the chunks are merged with a queue of the next element of each.

## Main definitions

* `sortControlled`: sort a vector by a key.
* `ChunkCursor`: the next element of a chunk, as the queue of the merge orders them.

## Main results

* `sortControlled_eq`: if the keys are distinct, both ways give the sorted vector.

## Implementation notes

The checks of the permit and the memory it accounts for are left out: a run that fails one of them
sorts nothing.
-/

namespace Tgrep

open List Loops Ascending

variable {α κ : Type*} [LinearOrder κ]

/-- The length of the chunks that are sorted between two checks. -/
def SORT_CHUNK : ℕ := 4096

/-- The next element of a chunk: its key, its index, and the end of the chunk. -/
@[ext]
structure ChunkCursor (κ : Type*) where
  /-- The key. -/
  key : κ
  /-- The index. -/
  index : ℕ
  /-- The end of the chunk. -/
  stop : ℕ

namespace ChunkCursor

/-- The tuple that the queue compares. -/
def toTuple (c : ChunkCursor κ) : κ ×ₗ ℕ ×ₗ ℕ := toLex (c.key, toLex (c.index, c.stop))

omit [LinearOrder κ] in
lemma toTuple_injective : Function.Injective (toTuple : ChunkCursor κ → κ ×ₗ ℕ ×ₗ ℕ) := by
  rintro ⟨key, index, stop⟩ ⟨key', index', stop'⟩ h
  cases h
  rfl

instance : LinearOrder (ChunkCursor κ) := LinearOrder.lift' toTuple toTuple_injective

/-- The queue orders cursors by their keys first. -/
lemma key_le {c d : ChunkCursor κ} (h : c ≤ d) : c.key ≤ d.key := by
  rcases Prod.Lex.le_iff.mp (show toTuple c ≤ toTuple d from h) with hlt | ⟨heq, -⟩
  · exact le_of_lt hlt
  · exact le_of_eq heq

end ChunkCursor

/-- Queue the element at an index. -/
def pushCursor (key : α → κ) (values : List α) (heap : Heap (ChunkCursor κ)) (index stop : ℕ) :
    Heap (ChunkCursor κ) :=
  match values[index]? with
  | some value => heap.push ⟨key value, index, stop⟩
  | none => heap

/-- The first elements of the chunks. -/
def initialCursors (key : α → κ) (values : List α) : Heap (ChunkCursor κ) :=
  (Loops.stepBy SORT_CHUNK 0 values.length).foldl
    (fun heap start => pushCursor key values heap start (min (start + SORT_CHUNK) values.length))
    .empty

/-- Merge the chunks: take the least of the next elements until the queue is empty. There are as
many steps as values. -/
def mergeChunks (key : α → κ) (values : List α) :
    ℕ → Heap (ChunkCursor κ) → List α → List α
  | 0, _, ordered => ordered
  | n + 1, heap, ordered =>
    match heap.pop with
    | none => ordered
    | some (cursor, heap) =>
      match values[cursor.index]? with
      | none => ordered
      | some value =>
        let next := cursor.index + 1
        let heap := if next < cursor.stop then pushCursor key values heap next cursor.stop else heap
        mergeChunks key values n heap (ordered ++ [value])

/-- Sort a vector by a key, at once or under a permit. -/
def sortControlled (controlled : Bool) (key : α → κ) (values : List α) : List α :=
  if ¬ controlled then Ascending.sortByKey key values
  else
    let values := (Loops.chunks SORT_CHUNK values).flatMap (Ascending.sortByKey key)
    if values.length ≤ SORT_CHUNK then values
    else mergeChunks key values values.length (initialCursors key values) []

/-! ## Runs -/

section Merging

variable {key : α → κ} {values : List α}

/-- What is left of a chunk. -/
def ChunkCursor.run (values : List α) (c : ChunkCursor κ) : List α :=
  (values.take c.stop).drop c.index

/-- What is left of a chunk is its next element and the rest. -/
lemma slice_eq_cons {index stop : ℕ} {a : α} (hindex : index < stop) (ha : values[index]? = some a)
    : (values.take stop).drop index = a :: (values.take stop).drop (index + 1) := by
  have hget : (values.take stop)[index]? = some a := by rw [getElem?_take_of_lt hindex, ha]
  obtain ⟨hlt, heq⟩ := List.getElem?_eq_some_iff.mp hget
  rw [drop_eq_getElem_cons hlt, heq]

/-- Nothing is left of a chunk past its end. -/
lemma slice_eq_nil {index stop : ℕ} (h : ¬ index < stop ∨ values[index]? = none) :
    (values.take stop).drop index = [] := by
  rw [drop_eq_nil_iff, length_take]
  rcases h with hstop | hnone
  · omega
  · have := getElem?_eq_none_iff.mp hnone
    omega

variable (key values) in
/-- The state of a merge: the elements emitted so far, sorted, and the runs of the queued cursors,
each sorted and not below what was emitted, make up the values. -/
structure Merging (heap : Heap (ChunkCursor κ)) (ordered : List α) : Prop where
  perm : (ordered ++ heap.items.flatMap (ChunkCursor.run values)).Perm values
  heads : ∀ c ∈ heap.items, ∃ a, values[c.index]? = some a ∧ c.index < c.stop ∧ key a = c.key
  runs : ∀ c ∈ heap.items, (c.run values).Pairwise fun a b => key a ≤ key b
  sorted : ordered.Pairwise fun a b => key a ≤ key b
  below : ∀ a ∈ ordered, ∀ c ∈ heap.items, ∀ b ∈ c.run values, key a ≤ key b

/-- Queueing the next element of a run adds the run. -/
lemma items_pushCursor (heap : Heap (ChunkCursor κ)) {index stop : ℕ} {a : α}
    (ha : values[index]? = some a) :
    (pushCursor key values heap index stop).items.Perm (⟨key a, index, stop⟩ :: heap.items) := by
  rw [pushCursor, ha]
  exact heap.push_perm _

/-- The step lemma: emitting the least of the next elements. -/
lemma Merging.step {heap heap' : Heap (ChunkCursor κ)} {ordered : List α}
    (h : Merging key values heap ordered) {c : ChunkCursor κ} (hpop : heap.pop = some (c, heap')) :
    ∃ a, values[c.index]? = some a ∧ Merging key values
      (if c.index + 1 < c.stop then pushCursor key values heap' (c.index + 1) c.stop else heap')
      (ordered ++ [a]) := by
  obtain ⟨hitems, hleast⟩ := Heap.pop_eq_some hpop
  have hmem : ∀ d ∈ heap'.items, d ∈ heap.items := fun d hd => hitems ▸ mem_cons_of_mem c hd
  have hc : c ∈ heap.items := hitems ▸ mem_cons_self ..
  obtain ⟨a, ha, hindex, hkey⟩ := h.heads c hc
  have hrun : c.run values = a :: (values.take c.stop).drop (c.index + 1) := slice_eq_cons hindex ha
  have hsorted := h.runs c hc
  rw [hrun, pairwise_cons] at hsorted
  obtain ⟨hhead, htail⟩ := hsorted
  -- the next element is least among all that are left
  have hall : ∀ d ∈ heap'.items, ∀ b ∈ d.run values, key a ≤ key b := by
    intro d hd b hb
    obtain ⟨a', ha', hindex', hkey'⟩ := h.heads d (hmem d hd)
    have hle : key a ≤ key a' := by
      rw [hkey, hkey']
      exact ChunkCursor.key_le (hleast d hd)
    have hrun' := h.runs d (hmem d hd)
    rw [ChunkCursor.run, slice_eq_cons hindex' ha'] at hrun' hb
    rcases mem_cons.mp hb with rfl | hb'
    · exact hle
    · exact hle.trans ((pairwise_cons.mp hrun').1 b hb')
  have hemit : ∀ b ∈ ordered, key b ≤ key a := by
    intro b hb
    exact h.below b hb c hc a (hrun ▸ mem_cons_self ..)
  have hsorted' : (ordered ++ [a]).Pairwise fun a b => key a ≤ key b := by
    rw [pairwise_append]
    refine ⟨h.sorted, pairwise_singleton _ _, fun b hb b' hb' => ?_⟩
    rw [mem_singleton.mp hb']
    exact hemit b hb
  have hperm := h.perm
  rw [hitems, flatMap_cons, hrun, cons_append] at hperm
  have hlow : ∀ b ∈ ordered ++ [a], ∀ d ∈ heap'.items, ∀ b' ∈ d.run values, key b ≤ key b' := by
    intro b hb d hd b' hb'
    rcases mem_append.mp hb with hb | hb
    · exact h.below b hb d (hmem d hd) b' hb'
    · rw [mem_singleton.mp hb]
      exact hall d hd b' hb'
  refine ⟨a, ha, ?_⟩
  by_cases hnext : c.index + 1 < c.stop ∧ values[c.index + 1]? ≠ none
  · obtain ⟨a', ha'⟩ := Option.ne_none_iff_exists'.mp hnext.2
    have hitems' : (pushCursor key values heap' (c.index + 1) c.stop).items.Perm
        (⟨key a', c.index + 1, c.stop⟩ :: heap'.items) := items_pushCursor heap' ha'
    have hrest : (⟨key a', c.index + 1, c.stop⟩ : ChunkCursor κ).run values =
        (values.take c.stop).drop (c.index + 1) := rfl
    rw [if_pos hnext.1]
    constructor
    · refine List.Perm.trans ?_ hperm
      rw [append_assoc, singleton_append]
      refine (List.Perm.cons a ?_).append_left ordered
      have hflat := hitems'.flatMap_right (ChunkCursor.run values)
      rwa [flatMap_cons, hrest] at hflat
    · intro d hd
      rcases mem_cons.mp (hitems'.mem_iff.mp hd) with rfl | hd'
      · exact ⟨a', ha', hnext.1, rfl⟩
      · exact h.heads d (hmem d hd')
    · intro d hd
      rcases mem_cons.mp (hitems'.mem_iff.mp hd) with rfl | hd'
      · exact htail
      · exact h.runs d (hmem d hd')
    · exact hsorted'
    · intro b hb d hd b' hb'
      rcases mem_cons.mp (hitems'.mem_iff.mp hd) with rfl | hd'
      · rw [hrest] at hb'
        rcases mem_append.mp hb with hb | hb
        · exact (hemit b hb).trans (hhead b' hb')
        · rw [mem_singleton.mp hb]
          exact hhead b' hb'
      · exact hlow b hb d hd' b' hb'
  · -- the chunk is exhausted
    have hend : ¬ c.index + 1 < c.stop ∨ values[c.index + 1]? = none := by
      by_cases hstop : c.index + 1 < c.stop
      · exact .inr (not_not.mp fun hne => hnext ⟨hstop, hne⟩)
      · exact .inl hstop
    have hsame : (if c.index + 1 < c.stop then pushCursor key values heap' (c.index + 1) c.stop
        else heap') = heap' := by
      split_ifs with hstop
      · rw [pushCursor, hend.resolve_left (not_not.mpr hstop)]
      · rfl
    rw [slice_eq_nil hend, nil_append] at hperm
    rw [hsame]
    refine ⟨?_, fun d hd => h.heads d (hmem d hd), fun d hd => h.runs d (hmem d hd), hsorted', hlow⟩
    rwa [append_assoc, singleton_append]

/-- The merge emits all values in order, if there are enough steps. -/
lemma Merging.mergeChunks {n : ℕ} {heap : Heap (ChunkCursor κ)} {ordered : List α}
    (h : Merging key values heap ordered) (hn : values.length ≤ ordered.length + n) :
    (mergeChunks key values n heap ordered).Perm values ∧
      (mergeChunks key values n heap ordered).Pairwise fun a b => key a ≤ key b := by
  have hdone : ∀ {heap : Heap (ChunkCursor κ)} {ordered : List α},
      Merging key values heap ordered → heap.items = [] → ordered.Perm values := by
    intro heap ordered h hempty
    have hperm := h.perm
    rwa [hempty, flatMap_nil, append_nil] at hperm
  induction n generalizing heap ordered with
  | zero =>
    rw [Tgrep.mergeChunks]
    refine ⟨hdone h ?_, h.sorted⟩
    -- every queued run has an element, but all values were emitted
    rw [eq_nil_iff_forall_not_mem]
    intro c hc
    obtain ⟨a, ha, hindex, -⟩ := h.heads c hc
    have hmem : a ∈ heap.items.flatMap (ChunkCursor.run values) := by
      refine mem_flatMap.mpr ⟨c, hc, ?_⟩
      rw [ChunkCursor.run, slice_eq_cons hindex ha]
      exact mem_cons_self ..
    have hpos := length_pos_of_mem hmem
    have hlen := h.perm.length_eq
    rw [length_append] at hlen
    omega
  | succ n ih =>
    rw [Tgrep.mergeChunks]
    cases hpop : heap.pop with
    | none => exact ⟨hdone h (Heap.pop_eq_none.mp hpop), h.sorted⟩
    | some popped =>
      obtain ⟨c, heap'⟩ := popped
      obtain ⟨a, ha, hstep⟩ := h.step hpop
      simp only [ha]
      refine ih hstep ?_
      rw [length_append, length_singleton]
      omega

/-- The queue of the first elements of sorted chunks is a merge that has emitted nothing. -/
lemma initialCursors_merging
    (hsorted : ∀ c ∈ Loops.chunks SORT_CHUNK values, c.Pairwise fun a b => key a ≤ key b) :
    Merging key values (initialCursors key values) [] := by
  have hloop : ∀ (starts : List ℕ) (heap : Heap (ChunkCursor κ)),
      (∀ start ∈ starts, start < values.length) →
      (starts.foldl (fun heap start =>
        pushCursor key values heap start (min (start + SORT_CHUNK) values.length)) heap).items.Perm
        (heap.items ++ starts.filterMap fun start => (values[start]?).map fun a =>
          ⟨key a, start, min (start + SORT_CHUNK) values.length⟩) := by
    intro starts
    induction starts with
    | nil => simp
    | cons start starts ih =>
      intro heap hlt
      obtain ⟨hstart, hrest⟩ := forall_mem_cons.mp hlt
      have ha := getElem?_eq_getElem hstart
      rw [foldl_cons, filterMap_cons_some (by rw [ha]; rfl)]
      refine (ih _ hrest).trans ?_
      refine ((items_pushCursor heap ha).append_right _).trans ?_
      exact perm_middle.symm
  have hstarts : ∀ start ∈ stepBy SORT_CHUNK 0 values.length, start < values.length :=
    fun _ hstart => lt_of_mem_stepBy hstart
  have hitems := hloop _ .empty hstarts
  rw [show (Heap.empty : Heap (ChunkCursor κ)).items = [] from rfl, nil_append] at hitems
  have hslices := map_stepBy (show 0 < SORT_CHUNK by decide) values 0
  rw [drop_zero] at hslices
  have hcursor : ∀ c ∈ (initialCursors key values).items,
      ∃ start ∈ stepBy SORT_CHUNK 0 values.length, ∃ a, values[start]? = some a ∧
        c = ⟨key a, start, min (start + SORT_CHUNK) values.length⟩ := by
    intro c hc
    obtain ⟨start, hstart, hc'⟩ := mem_filterMap.mp (hitems.mem_iff.mp hc)
    obtain ⟨a, ha, rfl⟩ := Option.map_eq_some_iff.mp hc'
    exact ⟨start, hstart, a, ha, rfl⟩
  constructor
  · rw [nil_append]
    refine (hitems.flatMap_right _).trans ?_
    have hruns : ∀ starts : List ℕ, (∀ start ∈ starts, start < values.length) →
        (starts.filterMap fun start => (values[start]?).map fun a =>
          (⟨key a, start, min (start + SORT_CHUNK) values.length⟩ : ChunkCursor κ)).flatMap
          (ChunkCursor.run values) =
        (starts.map fun i => (values.take (min (i + SORT_CHUNK) values.length)).drop i).flatten := by
      intro starts
      induction starts with
      | nil => simp
      | cons start starts ih =>
        intro hlt
        obtain ⟨hstart, hrest⟩ := forall_mem_cons.mp hlt
        have ha := getElem?_eq_getElem hstart
        rw [filterMap_cons_some (by rw [ha]; rfl), flatMap_cons, ih hrest, map_cons, flatten_cons]
        rfl
    rw [hruns _ hstarts, hslices, flatten_chunks (by decide)]
  · intro c hc
    obtain ⟨start, hstart, a, ha, rfl⟩ := hcursor c hc
    have hlt := hstarts start hstart
    refine ⟨a, ha, ?_, rfl⟩
    simp only [SORT_CHUNK]
    omega
  · intro c hc
    obtain ⟨start, hstart, a, ha, rfl⟩ := hcursor c hc
    apply hsorted
    rw [← hslices]
    exact mem_map.mpr ⟨start, hstart, rfl⟩
  · exact List.Pairwise.nil
  · simp

end Merging

/-- Merging sorted chunks sorts. -/
lemma chunks_merge {key : α → κ} {values sorted : List α}
    (hchunks : Loops.chunks SORT_CHUNK sorted =
      (Loops.chunks SORT_CHUNK values).map (Ascending.sortByKey key)) :
    (mergeChunks key sorted sorted.length (initialCursors key sorted) []).Perm sorted ∧
      (mergeChunks key sorted sorted.length (initialCursors key sorted) []).Pairwise
        fun a b => key a ≤ key b := by
  have hmerging : Merging key sorted (initialCursors key sorted) [] := by
    refine initialCursors_merging fun c hc => ?_
    rw [hchunks] at hc
    obtain ⟨c', -, rfl⟩ := mem_map.mp hc
    exact pairwise_sortByKey c'
  exact hmerging.mergeChunks (by rw [length_nil, zero_add])

/-- **Both ways of sorting agree** if the keys are distinct. -/
theorem sortControlled_eq {key : α → κ} (controlled : Bool) {values : List α}
    (hnodup : (values.map key).Nodup) :
    sortControlled controlled key values = Ascending.sortByKey key values := by
  have hlength : ∀ c : List α, (sortByKey key c).length = c.length :=
    fun c => (sortByKey_perm c).length_eq
  -- a sorted rearrangement of values with distinct keys is the sorted list
  have hunique : ∀ l : List α, l.Perm values → (l.Pairwise fun a b => key a ≤ key b) →
      l = sortByKey key values := by
    intro l hperm hsorted
    have hnodup' : (l.map key).Nodup := (hperm.map key).nodup_iff.mpr hnodup
    have hasc : Ascending key l :=
      (hsorted.and (pairwise_map.mp hnodup')).imp fun h => lt_of_le_of_ne h.1 h.2
    refine hasc.eq_of_mem_iff (sortByKey_ascending hnodup) fun a => ?_
    rw [hperm.mem_iff, mem_sortByKey]
  unfold sortControlled
  by_cases hplain : ¬ controlled
  · rw [if_pos hplain]
  · rw [if_neg hplain]
    have hchunks := chunks_flatMap (show 0 < SORT_CHUNK by decide) hlength values
    have hperm :
        ((chunks SORT_CHUNK values).flatMap (sortByKey key)).Perm values := by
      have hparts : ((chunks SORT_CHUNK values).flatMap (sortByKey key)).Perm
          (chunks SORT_CHUNK values).flatten := by
        rw [flatten_eq_flatMap]
        exact List.Perm.flatMap_left _ fun c _ => sortByKey_perm c
      rwa [flatten_chunks (by decide)] at hparts
    apply hunique
    · dsimp only
      split_ifs
      · exact hperm
      · exact (chunks_merge hchunks).1.trans hperm
    · dsimp only
      split_ifs with hshort
      · -- there is at most one chunk
        rw [hperm.length_eq] at hshort
        by_cases hnil : values = []
        · rw [hnil, chunks_nil, flatMap_nil]
          exact List.Pairwise.nil
        · rw [chunks_of_ne_nil (by decide) hnil, take_of_length_le hshort,
            drop_eq_nil_of_le hshort, chunks_nil, flatMap_singleton]
          exact pairwise_sortByKey values
      · exact (chunks_merge hchunks).2

end Tgrep
