import Mathlib.Algebra.Order.BigOperators.Group.List
import Tgrep.External.Segment
import Tgrep.External.Sort

/-!
# Merging spill segments

A queue holds the next trigram of every segment. The groups of the least trigram are taken from all
segments that have it, in the order of the segments, sorted if the file ids turn out not to ascend,
and written.

## Main definitions

* `IndexWriter.writeGroup`, `writeSortedArenaTo`: write a group, and a sorted arena.
* `MergeState`, `mergeSegments`: the cursors with their queue, and the merge.
* `SortedGroups`: the groups of a list of postings, as an index holds them.

## Main results

* `SortedGroups.unique`: a list of postings has only one list of groups.
* `mergeGroup_spec`: the inner loop takes all postings of a trigram.
* `mergeGroups_spec`: the outer loop writes the groups of all postings.

## Implementation notes

Both loops of the merge get a number of steps that is large enough, because each step reads at
least a byte.
-/

namespace Tgrep

open List Ascending

/-! ## Writing groups -/

/-- Write one trigram's complete, file-id-sorted posting list. -/
def IndexWriter.writeGroup (w : IndexWriter) (trigram : UInt32) (entries : List PostingEntry) :
    Except Error IndexWriter :=
  if entries.isEmpty then .ok w
  else if entries.length < 2 ^ 32 then
    w.append trigram (UInt32.ofNat entries.length) fun f => writePostingEntries f entries
  else
    .error (.indexCorrupted s!"posting list for trigram {trigram} exceeds the u32 length limit")

/-- Write groups one after another. -/
def writeGroups (groups : List PostingGroup) (w : IndexWriter) : Except Error IndexWriter :=
  groups.foldlM (fun w g => w.writeGroup g.1 g.2) w

/-- Write an already-sorted arena directly. Returns `lookup.bin`, `index.bin` and the number of
trigrams. -/
def writeSortedArenaTo (arena : List TrigramPosting) :
    Except Error (List UInt8 × List UInt8 × ℕ) := do
  let w ← writeGroups (arenaGroups arena) .create
  w.finish

/-! ## The merge -/

/-- The next trigram of a segment. -/
@[ext]
structure SegmentHead where
  /-- The trigram. -/
  trigram : UInt32
  /-- The index of the segment. -/
  index : ℕ

namespace SegmentHead

/-- The tuple that the queue compares. -/
def toTuple (x : SegmentHead) : UInt32 ×ₗ ℕ := toLex (x.trigram, x.index)

lemma toTuple_injective : Function.Injective toTuple := by
  rintro ⟨trigram, index⟩ ⟨trigram', index'⟩ h
  cases h
  rfl

instance : LinearOrder SegmentHead := LinearOrder.lift' toTuple toTuple_injective

/-- The queue orders segments by their trigrams first. -/
lemma trigram_le {x y : SegmentHead} (h : x ≤ y) : x.trigram ≤ y.trigram := by
  rcases Prod.Lex.le_iff.mp (show toTuple x ≤ toTuple y from h) with hlt | ⟨heq, -⟩
  · exact le_of_lt hlt
  · exact le_of_eq heq

end SegmentHead

/-- Queue the next trigram of a segment, if there is one. -/
def pushHead (heap : Heap SegmentHead) (trigram : Option UInt32) (index : ℕ) : Heap SegmentHead :=
  match trigram with
  | some trigram => heap.push ⟨trigram, index⟩
  | none => heap

/-- The cursors of the segments, with the queue of their next trigrams. -/
structure MergeState where
  /-- The cursors. -/
  cursors : List SegmentCursor
  /-- The queue. -/
  heap : Heap SegmentHead

/-- Open the next segment; `sizes` says how many bytes the reads of each segment return. -/
def openSegment (sizes : ℕ → ℕ → ℕ) (perSegment : ℕ) (s : MergeState) (segment : List UInt8) :
    Except Error MergeState := do
  let index := s.cursors.length
  let next ← (SegmentCursor.fromFile ⟨segment, sizes index⟩ perSegment).advance
  .ok ⟨s.cursors ++ [next.2], pushHead s.heap next.1 index⟩

/-- The postings of a trigram while they are collected. -/
structure GroupState where
  /-- The postings taken so far. -/
  entries : List PostingEntry
  /-- Whether a segment started below the one before. -/
  needsSort : Bool
  /-- The last file. -/
  lastFileId : Option UInt32

/-- Whether the postings after the first `before` ones start at or below the last file. -/
def startsLow (lastFileId : Option UInt32) (entries : List PostingEntry) (before : ℕ) : Bool :=
  match lastFileId, entries[before]? with
  | some last, some first => first.fileId ≤ last
  | _, _ => false

/-- Take the pending group of a segment that was popped from the queue, and queue the next one. -/
def takeHead (s : MergeState) (g : GroupState) (heap : Heap SegmentHead) (index : ℕ) :
    Except Error (MergeState × GroupState) :=
  match s.cursors[index]? with
  | none => .ok (s, g)
  | some cursor => do
    let taken ← cursor.takeGroup g.entries
    let next ← taken.2.advance
    .ok
      (⟨s.cursors.set index next.2, pushHead heap next.1 index⟩,
        ⟨taken.1, g.needsSort || startsLow g.lastFileId taken.1 g.entries.length,
          taken.1.getLast?.map PostingEntry.fileId⟩)

/-- Take the groups of a trigram from all segments that have it. -/
def mergeGroup : ℕ → UInt32 → MergeState → GroupState → Except Error (MergeState × GroupState)
  | 0, _, s, g => .ok (s, g)
  | n + 1, trigram, s, g =>
    match s.heap.pop with
    | none => .ok (s, g)
    | some (head, heap) =>
      if head.trigram ≠ trigram then .ok (s, g)
      else do
        let next ← takeHead s g heap head.index
        mergeGroup n trigram next.1 next.2

/-- The postings of a trigram as they are written. -/
def finishGroup (controlled : Bool) (g : GroupState) : List PostingEntry :=
  if g.needsSort then sortControlled controlled PostingEntry.fileId g.entries else g.entries

/-- Write the groups of all trigrams. -/
def mergeGroups (controlled : Bool) (steps : ℕ) :
    ℕ → MergeState → IndexWriter → Except Error IndexWriter
  | 0, _, w => .ok w
  | n + 1, s, w =>
    match s.heap.peek with
    | none => .ok w
    | some head => do
      let merged ← mergeGroup steps head.trigram s ⟨[], false, none⟩
      let w ← w.writeGroup head.trigram (finishGroup controlled merged.2)
      mergeGroups controlled steps n merged.1 w

/-- Read-ahead buffer per open segment, when there are few segments. -/
def SEGMENT_BUFFER_BYTES : ℕ := 256 * 1024

/-- Floor on the read buffer of a segment. -/
def MIN_SEGMENT_BUFFER_BYTES : ℕ := 4 * 1024

/-- The share of each segment in the read-ahead budget. -/
def segmentBufferBytes (readBudgetBytes segments : ℕ) : ℕ :=
  min (max (readBudgetBytes / max segments 1) MIN_SEGMENT_BUFFER_BYTES) SEGMENT_BUFFER_BYTES

/-- Merge sorted segments into `lookup.bin` and `index.bin`. -/
def mergeSegments (controlled : Bool) (sizes : ℕ → ℕ → ℕ) (segments : List (List UInt8))
    (readBudgetBytes : ℕ) : Except Error (List UInt8 × List UInt8 × ℕ) := do
  let perSegment := segmentBufferBytes readBudgetBytes segments.length
  let s ← segments.foldlM (openSegment sizes perSegment) ⟨[], .empty⟩
  let steps := (segments.map List.length).sum + 1
  let w ← mergeGroups controlled steps steps s .create
  w.finish

/-! ## Groups of postings -/

/-- The postings of groups. -/
def ungroup (groups : List PostingGroup) : List TrigramPosting :=
  groups.flatMap fun g => g.2.map fun e => ⟨g.1, e⟩

/-- Groups as an index holds them. -/
structure WellGrouped (groups : List PostingGroup) : Prop where
  ascending : Ascending Prod.fst groups
  nonempty : ∀ g ∈ groups, g.2 ≠ []
  ids_ascending : ∀ g ∈ groups, Ascending PostingEntry.fileId g.2

/-- These are the groups of the postings. -/
structure SortedGroups (postings : List TrigramPosting) (groups : List PostingGroup) : Prop
    extends WellGrouped groups where
  perm : (ungroup groups).Perm postings

variable {t : UInt32} (controlled : Bool) (sizes : ℕ → ℕ → ℕ) {heap : Heap SegmentHead}
  {g : PostingGroup} {postings : List TrigramPosting} {s : MergeState} {groups : List PostingGroup}
  {runs : List (List PostingGroup)}

variable {n i : ℕ} {x : SegmentHead} (perSegment : ℕ) {p : TrigramPosting}
  {r rest : List PostingGroup} {entries : List PostingEntry}

lemma mem_ungroup : p ∈ ungroup groups ↔ ∃ g ∈ groups, g.1 = p.trigram ∧ p.entry ∈ g.2 := by
  simp only [ungroup, mem_flatMap, mem_map]
  constructor
  · rintro ⟨g, hg, e, he, rfl⟩
    exact ⟨g, hg, rfl, he⟩
  · rintro ⟨g, hg, heq, he⟩
    exact ⟨g, hg, p.entry, he, by rw [heq]⟩

/-- A group of an index holds exactly the postings of its trigram. -/
lemma WellGrouped.mem_iff (h : WellGrouped groups) (hg : g ∈ groups) {e : PostingEntry} :
    e ∈ g.2 ↔ ⟨g.1, e⟩ ∈ ungroup groups := by
  rw [mem_ungroup]
  constructor
  · exact fun he => ⟨g, hg, rfl, he⟩
  · rintro ⟨g', hg', heq, he⟩
    rwa [h.ascending.eq_of_key_eq hg' hg heq] at he

/-- **A list of postings has only one list of groups.** -/
theorem SortedGroups.unique {postings' : List TrigramPosting} {groups' : List PostingGroup}
    (h : SortedGroups postings groups) (h' : SortedGroups postings' groups')
    (hperm : postings.Perm postings') : groups = groups' := by
  have hmem : ∀ p, p ∈ ungroup groups ↔ p ∈ ungroup groups' := by
    intro p
    rw [h.perm.mem_iff, h'.perm.mem_iff, hperm.mem_iff]
  have hsub : ∀ {gs gs' : List PostingGroup}, WellGrouped gs → WellGrouped gs' →
      (∀ p, p ∈ ungroup gs ↔ p ∈ ungroup gs') → ∀ g ∈ gs, g ∈ gs' := by
    intro gs gs' hw hw' hmem g hg
    obtain ⟨e, he⟩ := exists_mem_of_ne_nil _ (hw.nonempty g hg)
    obtain ⟨g', hg', htri, -⟩ := mem_ungroup.mp ((hmem _).mp ((hw.mem_iff hg).mp he))
    have hentries : g'.2 = g.2 := by
      refine (hw'.ids_ascending g' hg').eq_of_mem_iff (hw.ids_ascending g hg) fun e => ?_
      rw [hw'.mem_iff hg', hw.mem_iff hg, hmem, htri]
    rwa [show g = g' from Prod.ext htri.symm hentries.symm]
  exact h.ascending.eq_of_mem_iff h'.ascending fun g =>
    ⟨hsub h.toWellGrouped h'.toWellGrouped hmem g,
      hsub h'.toWellGrouped h.toWellGrouped (fun p => (hmem p).symm) g⟩

/-- Grouping an arena and ungrouping it again. -/
lemma ungroup_arenaGroups (arena : List TrigramPosting) : ungroup (arenaGroups arena) = arena := by
  have hflat : (Grouping.byKey TrigramPosting.trigram arena).flatMap Prod.snd = arena :=
    Grouping.flatMap_byKey arena
  conv_rhs => rw [← hflat]
  rw [ungroup, arenaGroups, flatMap_map]
  refine flatMap_congr fun g hg => ?_
  obtain ⟨-, -, hall⟩ := Grouping.of_mem_byKey hg
  rw [map_map]
  conv_rhs => rw [← map_id g.2]
  refine map_congr_left fun p hp => ?_
  rw [Function.comp_apply, ← hall p hp, id]

/-- **The groups of a sorted arena.** -/
theorem sortedGroups_arenaGroups (hnodup : (postings.map TrigramPosting.key).Nodup) :
    SortedGroups postings (arenaGroups (Ascending.sortByKey TrigramPosting.key postings)) := by
  have hasc := sortByKey_ascending hnodup
  have htri : (sortByKey TrigramPosting.key postings).Pairwise
      fun a b => a.trigram ≤ b.trigram := by
    refine hasc.imp fun {a b} hlt => ?_
    rcases Prod.Lex.lt_iff.mp hlt with h | ⟨h, -⟩
    · exact le_of_lt h
    · exact le_of_eq h
  have hgroups := Grouping.byKey_ascending htri
  refine ⟨⟨?_, fun g hg => ?_, fun g hg => ?_⟩, ?_⟩
  · exact pairwise_map.mpr hgroups
  · obtain ⟨g', hg', rfl⟩ := mem_map.mp hg
    exact map_eq_nil_iff.not.mpr (Grouping.of_mem_byKey hg').1
  · obtain ⟨g', hg', rfl⟩ := mem_map.mp hg
    obtain ⟨-, hsub, hall⟩ := Grouping.of_mem_byKey hg'
    refine pairwise_map.mpr ((hasc.sublist hsub).imp_of_mem fun {a b} ha hb hlt => ?_)
    rcases Prod.Lex.lt_iff.mp hlt with h | ⟨-, h⟩
    · exact absurd ((hall a ha).trans (hall b hb).symm) (ne_of_lt h)
    · exact h
  · rw [ungroup_arenaGroups]
    exact sortByKey_perm _

/-! ## Invariants of the merge -/

/-- The segment at the index of a head has a group of its trigram next. -/
def HeadOf (runs : List (List PostingGroup)) (x : SegmentHead) : Prop :=
  ∃ entries rest, runs[x.index]? = some ((x.trigram, entries) :: rest)

/-- The groups that are left in each segment: the cursors hold them, and the queue has the next
trigram of every segment that is not exhausted. -/
structure MergeState.Holds (s : MergeState) (runs : List (List PostingGroup)) : Prop where
  length : s.cursors.length = runs.length
  cursors : ∀ (i : ℕ) (g : PostingGroup) (rest : List PostingGroup), runs[i]? = some (g :: rest) →
    ∃ c : SegmentCursor, s.cursors[i]? = some c ∧ c.Holds g rest
  heads : ∀ x, x ∈ s.heap.items ↔ HeadOf runs x
  nodup : s.heap.items.Nodup
  grouped : ∀ r ∈ runs, WellGrouped r

/-- Advancing a cursor to the next of its groups, if there is one. -/
lemma SegmentCursor.advance_run {c : SegmentCursor}
    (h : c.src.At (segmentBytes c.prevTrigram groups)) (hw : WellGrouped groups)
    (hle : ∀ g ∈ groups, c.prevTrigram ≤ g.1) :
    ∃ c', c.advance = .ok (groups.head?.map Prod.fst, c') ∧
      ∀ g rest, groups = g :: rest → c'.Holds g rest := by
  cases groups with
  | nil =>
    obtain ⟨c', hc'⟩ := advance_end h
    refine ⟨c', hc', fun g rest hnil => ?_⟩
    cases hnil
  | cons g rest =>
    have hg : g ∈ g :: rest := mem_cons_self ..
    have hlen := (hw.ids_ascending g hg).length_le
    obtain ⟨c', hc', hholds⟩ := advance_spec h (hle g hg) (by omega)
    refine ⟨c', hc', fun g' rest' heq => ?_⟩
    cases heq
    exact hholds

/-- The first groups of a list of groups are groups. -/
lemma WellGrouped.tail (h : WellGrouped (g :: groups)) : WellGrouped groups :=
  ⟨(cons.mp h.ascending).2, fun g' hg' => h.nonempty g' (mem_cons_of_mem g hg'),
    fun g' hg' => h.ids_ascending g' (mem_cons_of_mem g hg')⟩

/-- Queueing the next trigram of one segment, when the queue has those of the others. -/
lemma heads_pushHead (hi : runs[i]? = some r)
    (hheads : ∀ x, x ∈ heap.items ↔ x.index ≠ i ∧ HeadOf runs x) (hnodup : heap.items.Nodup) :
    (∀ x, x ∈ (pushHead heap (r.head?.map Prod.fst) i).items ↔ HeadOf runs x) ∧
      (pushHead heap (r.head?.map Prod.fst) i).items.Nodup := by
  cases r with
  | nil =>
    refine ⟨fun x => (hheads x).trans (and_iff_right_of_imp ?_), hnodup⟩
    rintro ⟨entries, rest, hx⟩ rfl
    rw [hi] at hx
    cases hx
  | cons g rest =>
    have hnew : (⟨g.1, i⟩ : SegmentHead) ∉ heap.items := fun hmem => ((hheads _).mp hmem).1 rfl
    constructor
    · intro x
      rw [head?_cons, Option.map_some, pushHead, Heap.mem_push, hheads]
      constructor
      · rintro (rfl | ⟨-, hx⟩)
        · exact ⟨g.2, rest, hi⟩
        · exact hx
      · intro hx
        by_cases hindex : x.index = i
        · obtain ⟨entries, rest', hx⟩ := hx
          rw [hindex, hi, Option.some.injEq, cons.injEq] at hx
          refine .inl (SegmentHead.ext ?_ hindex)
          rw [hx.1]
        · exact .inr ⟨hindex, hx⟩
    · exact (heap.push_perm _).nodup_iff.mpr (nodup_cons.mpr ⟨hnew, hnodup⟩)

/-- **Opening a segment** adds its groups. -/
theorem openSegment_spec (h : s.Holds runs) (hr : WellGrouped r) :
    ∃ s', openSegment sizes perSegment s (segmentBytes 0 r) = .ok s' ∧ s'.Holds (runs ++ [r]) := by
  obtain ⟨c, hc, hholds⟩ := SegmentCursor.advance_run
    (c := .fromFile ⟨segmentBytes 0 r, sizes s.cursors.length⟩ perSegment)
    (ByteSource.fromFile_at _ _ _) hr fun g _ => UInt32.le_iff_toNat_le.mpr (Nat.zero_le _)
  have hlast : (runs ++ [r])[runs.length]? = some r := by simp
  have hother : ∀ i, i ≠ runs.length → (runs ++ [r])[i]? = runs[i]? := by
    intro i hi
    rcases Nat.lt_or_gt_of_ne hi with hlt | hgt
    · rw [getElem?_append_left hlt]
    · rw [getElem?_eq_none (by simp; omega), getElem?_eq_none (by omega)]
  have hheads : ∀ x, x ∈ s.heap.items ↔ x.index ≠ runs.length ∧ HeadOf (runs ++ [r]) x := by
    intro x
    rw [h.heads]
    constructor
    · rintro ⟨entries, rest, hx⟩
      have hlt := (List.getElem?_eq_some_iff.mp hx).1
      exact ⟨by omega, entries, rest, by rw [hother _ (by omega), hx]⟩
    · rintro ⟨hne, entries, rest, hx⟩
      exact ⟨entries, rest, by rw [← hother _ hne, hx]⟩
  obtain ⟨hheads', hnodup'⟩ := heads_pushHead hlast hheads h.nodup
  rw [← h.length] at hheads' hnodup'
  refine ⟨_, Loops.bind_eq_ok.mpr ⟨_, hc, rfl⟩, ?_, ?_, hheads', hnodup', ?_⟩
  · simp [h.length]
  · intro i g rest hi
    by_cases hindex : i = runs.length
    · rw [hindex, hlast, Option.some.injEq] at hi
      refine ⟨c, ?_, hholds g rest hi⟩
      rw [hindex, ← h.length]
      simp
    · rw [hother i hindex] at hi
      obtain ⟨c', hc', hg⟩ := h.cursors i g rest hi
      have hlt := (List.getElem?_eq_some_iff.mp hc').1
      exact ⟨c', by rw [getElem?_append_left hlt, hc'], hg⟩
  · intro r' hr'
    rcases List.mem_append.mp hr' with hr' | hr'
    · exact h.grouped r' hr'
    · rwa [List.mem_singleton.mp hr']

/-- The postings taken so far ascend unless a sort is needed. -/
structure GroupState.Ok (g : GroupState) : Prop where
  ascending : g.needsSort = false → Ascending PostingEntry.fileId g.entries
  last : g.lastFileId = g.entries.getLast?.map PostingEntry.fileId

/-- One more segment keeps track of whether a sort is needed. -/
lemma GroupState.Ok.append {g : GroupState} (h : g.Ok)
    (hids : Ascending PostingEntry.fileId entries) :
    GroupState.Ok ⟨g.entries ++ entries,
      g.needsSort || startsLow g.lastFileId (g.entries ++ entries) g.entries.length,
      (g.entries ++ entries).getLast?.map PostingEntry.fileId⟩ := by
  refine ⟨fun hsort => ?_, rfl⟩
  obtain ⟨hno, hlow⟩ := Bool.or_eq_false_iff.mp hsort
  refine (h.ascending hno).append_of_getLast? hids fun last hlast first hfirst => ?_
  have hget : (g.entries ++ entries)[g.entries.length]? = some first := by
    rw [getElem?_append_right le_rfl, Nat.sub_self, ← head?_eq_getElem?, hfirst]
  simp only [startsLow, h.last, hlast, Option.map_some, hget] at hlow
  simpa using hlow

/-- The postings of the segments. -/
def runsPostings (runs : List (List PostingGroup)) : List TrigramPosting := runs.flatMap ungroup

/-- Taking the next group of one segment leaves one group less, and the other postings. -/
lemma runsPostings_set (hi : runs[i]? = some (g :: rest)) :
    (runs.set i rest).flatten.length + 1 = runs.flatten.length ∧
      (runsPostings (runs.set i rest) ++ g.2.map (TrigramPosting.mk g.1)).Perm
        (runsPostings runs) := by
  obtain ⟨hlt, hget⟩ := List.getElem?_eq_some_iff.mp hi
  have hruns : runs = runs.take i ++ (g :: rest) :: runs.drop (i + 1) := by
    rw [← hget, getElem_cons_drop, take_append_drop]
  have hset : runs.set i rest = runs.take i ++ rest :: runs.drop (i + 1) := by
    rw [set_eq_take_append_cons_drop, if_pos hlt]
  generalize runs.take i = before, runs.drop (i + 1) = after at hruns hset
  rw [hset, hruns]
  refine ⟨by simp only [flatten_append, flatten_cons, length_append, length_cons]; omega, ?_⟩
  simp only [runsPostings, flatMap_append, flatMap_cons, append_assoc]
  refine List.Perm.append_left _ ?_
  rw [ungroup, ungroup, flatMap_cons, ← append_assoc, append_assoc (g.2.map _)]
  exact perm_append_comm

/-- A popped head leaves the heads of the other segments. -/
lemma heads_of_pop (h : s.Holds runs) (hpop : s.heap.pop = some (x, heap))
    (hx : runs[x.index]? = some (g :: rest)) (hg : g.1 = x.trigram) :
    (∀ y, y ∈ heap.items ↔ y.index ≠ x.index ∧ HeadOf (runs.set x.index rest) y) ∧
      heap.items.Nodup := by
  obtain ⟨hitems, -⟩ := Heap.pop_eq_some hpop
  have hnodup := h.nodup
  rw [hitems, nodup_cons] at hnodup
  refine ⟨fun y => ?_, hnodup.2⟩
  have hset : ∀ {i}, i ≠ x.index → (runs.set x.index rest)[i]? = runs[i]? :=
    fun hne => getElem?_set_ne (Ne.symm hne)
  have hmem : y ∈ heap.items ↔ y ≠ x ∧ y ∈ s.heap.items := by
    rw [hitems, mem_cons]
    constructor
    · intro hy
      refine ⟨?_, .inr hy⟩
      rintro rfl
      exact hnodup.1 hy
    · rintro ⟨hne, rfl | hy⟩
      · exact absurd rfl hne
      · exact hy
  rw [hmem, h.heads]
  constructor
  · rintro ⟨hne, entries, rest', hy⟩
    have hindex : y.index ≠ x.index := by
      intro heq
      rw [heq, hx, Option.some.injEq, cons.injEq] at hy
      refine hne (SegmentHead.ext ?_ heq)
      rw [← hg, hy.1]
    exact ⟨hindex, entries, rest', by rw [hset hindex, hy]⟩
  · rintro ⟨hindex, entries, rest', hy⟩
    rw [hset hindex] at hy
    exact ⟨fun heq => hindex (by rw [heq]), entries, rest', hy⟩

/-- **Taking the pending group of a segment** moves it from the segments to the group. -/
theorem takeHead_spec (h : s.Holds runs) {g : GroupState} (hg : g.Ok)
    (hpop : s.heap.pop = some (x, heap)) :
    ∃ entries rest s' g', runs[x.index]? = some ((x.trigram, entries) :: rest) ∧
      takeHead s g heap x.index = .ok (s', g') ∧ s'.Holds (runs.set x.index rest) ∧ g'.Ok ∧
      g'.entries = g.entries ++ entries := by
  have hmem : x ∈ s.heap.items := (Heap.pop_eq_some hpop).1 ▸ mem_cons_self ..
  obtain ⟨entries, rest, hx⟩ := (h.heads x).mp hmem
  obtain ⟨c, hc, hholds⟩ := h.cursors _ _ _ hx
  have hw := h.grouped _ (mem_of_getElem? hx)
  have hids := hw.ids_ascending _ (mem_cons_self ..)
  obtain ⟨c₁, htaken, hprev, hat⟩ := SegmentCursor.takeGroup_spec hholds hids g.entries
  have hlater : ∀ g' ∈ rest, c₁.prevTrigram ≤ g'.1 := by
    intro g' hg'
    rw [hprev]
    exact le_of_lt ((cons.mp hw.ascending).1 g' hg')
  rw [← hprev] at hat
  obtain ⟨c₂, hnext, hholds'⟩ := SegmentCursor.advance_run hat hw.tail hlater
  have hlt : x.index < runs.length := (List.getElem?_eq_some_iff.mp hx).1
  have hself : (runs.set x.index rest)[x.index]? = some rest := getElem?_set_self hlt
  obtain ⟨hheap, hnodup⟩ := heads_of_pop h hpop hx rfl
  obtain ⟨hheads', hnodup'⟩ := heads_pushHead hself hheap hnodup
  refine ⟨entries, rest, ⟨s.cursors.set x.index c₂, pushHead heap (rest.head?.map Prod.fst) x.index⟩,
    _, hx, ?_, ⟨?_, ?_, hheads', hnodup', ?_⟩, hg.append hids, rfl⟩
  · rw [takeHead, hc]
    exact Loops.bind_eq_ok.mpr ⟨_, htaken, Loops.bind_eq_ok.mpr ⟨_, hnext, rfl⟩⟩
  · rw [length_set, length_set, h.length]
  · intro i g' rest' hi
    by_cases hindex : i = x.index
    · rw [hindex, hself, Option.some.injEq] at hi
      refine ⟨c₂, ?_, hholds' g' rest' hi⟩
      rw [hindex]
      exact getElem?_set_self (by rw [h.length]; exact hlt)
    · rw [getElem?_set_ne (Ne.symm hindex)] at hi
      obtain ⟨c', hc', hg'⟩ := h.cursors i g' rest' hi
      exact ⟨c', by rw [getElem?_set_ne (Ne.symm hindex), hc'], hg'⟩
  · intro r hr
    rcases mem_or_eq_of_mem_set hr with hr | rfl
    · exact h.grouped r hr
    · exact hw.tail

/-- **The inner loop** takes all groups of the least trigram. -/
theorem mergeGroup_spec {g : GroupState} (h : s.Holds runs) (hg : g.Ok)
    (hleast : ∀ x ∈ s.heap.items, t ≤ x.trigram) (hn : runs.flatten.length < n) :
    ∃ s' runs' g', mergeGroup n t s g = .ok (s', g') ∧ s'.Holds runs' ∧ g'.Ok ∧
      (∀ x ∈ s'.heap.items, t < x.trigram) ∧
      (runs' = runs ∨ runs'.flatten.length < runs.flatten.length) ∧
      (runsPostings runs' ++ g'.entries.map (TrigramPosting.mk t)).Perm
        (runsPostings runs ++ g.entries.map (TrigramPosting.mk t)) := by
  induction n generalizing s runs g with
  | zero => exact absurd hn (Nat.not_lt_zero _)
  | succ n ih =>
    rw [mergeGroup]
    cases hpop : s.heap.pop with
    | none =>
      have hnil := Heap.pop_eq_none.mp hpop
      refine ⟨s, runs, g, rfl, h, hg, fun x hx => ?_, .inl rfl, List.Perm.refl _⟩
      rw [hnil] at hx
      simp at hx
    | some popped =>
      obtain ⟨x, heap⟩ := popped
      obtain ⟨hitems, hmin⟩ := Heap.pop_eq_some hpop
      by_cases htri : x.trigram = t
      · obtain ⟨entries, rest, s₁, g₁, hx, htake, h₁, hg₁, hentries⟩ := takeHead_spec h hg hpop
        obtain ⟨hcount, hset⟩ := runsPostings_set hx
        -- the next trigram of the segment is larger
        have hleast₁ : ∀ y ∈ s₁.heap.items, t ≤ y.trigram := by
          intro y hy
          obtain ⟨entries', rest', hy'⟩ := (h₁.heads y).mp hy
          by_cases hindex : y.index = x.index
          · have hlt : x.index < runs.length := (List.getElem?_eq_some_iff.mp hx).1
            rw [hindex, getElem?_set_self hlt, Option.some.injEq] at hy'
            have hw := h.grouped _ (mem_of_getElem? hx)
            rw [hy'] at hw
            rw [← htri]
            exact le_of_lt ((cons.mp hw.ascending).1 _ (mem_cons_self ..))
          · rw [getElem?_set_ne (Ne.symm hindex)] at hy'
            exact hleast y ((h.heads y).mpr ⟨entries', rest', hy'⟩)
        obtain ⟨s', runs', g', hloop, h', hg', hgt, hcount', hperm⟩ := ih h₁ hg₁ hleast₁ (by omega)
        refine ⟨s', runs', g', ?_, h', hg', hgt, .inr ?_, hperm.trans ?_⟩
        · simp only [htri, ne_eq, not_true_eq_false, if_false]
          exact Loops.bind_eq_ok.mpr ⟨_, htake, hloop⟩
        · rcases hcount' with rfl | hlt
          · omega
          · omega
        · rw [htri] at hset
          rw [hentries, map_append]
          refine (List.Perm.append_left _ perm_append_comm).trans ?_
          rw [← append_assoc]
          exact hset.append_right _
      · have hne : x.trigram ≠ t := htri
        refine ⟨s, runs, g, ?_, h, hg, fun y hy => ?_, .inl rfl, List.Perm.refl _⟩
        · simp only [hne, ne_eq, not_false_eq_true, if_true]
        · have hxmem : x ∈ s.heap.items := hitems ▸ mem_cons_self ..
          have hlt : t < x.trigram := lt_of_le_of_ne (hleast x hxmem) (Ne.symm htri)
          rw [hitems] at hy
          rcases List.mem_cons.mp hy with rfl | hy'
          · exact hlt
          · exact hlt.trans_le (SegmentHead.trigram_le (hmin y hy'))

/-- What is left after the trigrams up to `t` has larger trigrams. -/
lemma MergeState.Holds.lt_of_mem (h : s.Holds runs) (hgt : ∀ x ∈ s.heap.items, t < x.trigram)
    (hp : p ∈ runsPostings runs) : t < p.trigram := by
  obtain ⟨r, hr, hp⟩ := mem_flatMap.mp hp
  obtain ⟨g, hg, htri, -⟩ := mem_ungroup.mp hp
  obtain ⟨i, hi⟩ := getElem?_of_mem hr
  rw [← htri]
  cases r with
  | nil => simp at hg
  | cons first rest =>
    have hfirst := hgt ⟨first.1, i⟩ ((h.heads _).mpr ⟨first.2, rest, hi⟩)
    rcases mem_cons.mp hg with rfl | hg'
    · exact hfirst
    · exact hfirst.trans ((cons.mp (h.grouped _ hr).ascending).1 g hg')

/-- Nothing is left when the queue is empty. -/
lemma MergeState.Holds.runsPostings_eq_nil (h : s.Holds runs) (hempty : s.heap.items = []) :
    runsPostings runs = [] := by
  refine flatMap_eq_nil_iff.mpr fun r hr => ?_
  obtain ⟨i, hi⟩ := getElem?_of_mem hr
  cases r with
  | nil => rfl
  | cons g rest =>
    have hmem := (h.heads ⟨g.1, i⟩).mpr ⟨g.2, rest, hi⟩
    rw [hempty] at hmem
    simp at hmem

/-- The postings of a trigram are written in the order of their files. -/
lemma finishGroup_spec {g : GroupState} (hg : g.Ok)
    (hnodup : (g.entries.map PostingEntry.fileId).Nodup) :
    (finishGroup controlled g).Perm g.entries ∧
      Ascending PostingEntry.fileId (finishGroup controlled g) := by
  rw [finishGroup]
  split_ifs with hsort
  · rw [sortControlled_eq controlled hnodup]
    exact ⟨sortByKey_perm _, sortByKey_ascending hnodup⟩
  · exact ⟨List.Perm.refl _, hg.ascending (by simpa using hsort)⟩

/-- A group below all others goes before them. -/
lemma SortedGroups.cons (h : SortedGroups postings groups) (hne : entries ≠ [])
    (hids : Ascending PostingEntry.fileId entries) (hlt : ∀ p ∈ postings, t < p.trigram) :
    SortedGroups (entries.map (TrigramPosting.mk t) ++ postings) ((t, entries) :: groups) where
  ascending := by
    refine Ascending.cons.mpr ⟨fun g hg => ?_, h.ascending⟩
    obtain ⟨e, he⟩ := exists_mem_of_ne_nil _ (h.nonempty g hg)
    exact hlt _ (h.perm.mem_iff.mp ((h.mem_iff hg).mp he))
  nonempty := forall_mem_cons.mpr ⟨hne, h.nonempty⟩
  ids_ascending := forall_mem_cons.mpr ⟨hids, h.ids_ascending⟩
  perm := h.perm.append_left _

/-- **The outer loop** writes the groups of all postings.

**Proof sketch.** By induction on the number of steps. The inner loop takes all postings of the
least trigram, which makes a group below those of the postings that are left. -/
theorem mergeGroups_spec {steps : ℕ} (h : s.Holds runs)
    (hnodup : ((runsPostings runs).map TrigramPosting.key).Nodup) (hn : runs.flatten.length < n)
    (hsteps : runs.flatten.length < steps) :
    ∃ groups, SortedGroups (runsPostings runs) groups ∧
      ∀ w, mergeGroups controlled steps n s w = writeGroups groups w := by
  induction n generalizing s runs with
  | zero => exact absurd hn (Nat.not_lt_zero _)
  | succ n ih =>
    cases hpeek : s.heap.peek with
    | none =>
      rw [h.runsPostings_eq_nil (head?_eq_none_iff.mp hpeek)]
      refine ⟨[], ⟨⟨Ascending.nil, by simp, by simp⟩, List.Perm.refl _⟩, fun w => ?_⟩
      rw [mergeGroups, hpeek]
      rfl
    | some head =>
      obtain ⟨hmem, hmin⟩ := Heap.mem_of_peek hpeek
      have hstart : GroupState.Ok ⟨[], false, none⟩ := ⟨fun _ => Ascending.nil, rfl⟩
      obtain ⟨s', runs', g, hloop, h', hg, hgt, hcount, hperm⟩ :=
        mergeGroup_spec h hstart (fun x hx => SegmentHead.trigram_le (hmin x hx)) hsteps
      rw [map_nil, append_nil] at hperm
      have hhead := (h.heads head).mp hmem
      have hlt : runs'.flatten.length < runs.flatten.length := by
        rcases hcount with rfl | hlt
        · exact absurd (hgt head ((h'.heads head).mpr hhead)) (lt_irrefl _)
        · exact hlt
      -- the keys of the group and of what is left are distinct
      have hkeys := (hperm.map TrigramPosting.key).nodup_iff.mpr hnodup
      rw [map_append, nodup_append] at hkeys
      obtain ⟨hrest, hgroup, -⟩ := hkeys
      have hfiles : (g.entries.map PostingEntry.fileId).Nodup := by
        rw [map_map] at hgroup
        have hcomp : (g.entries.map (TrigramPosting.key ∘ TrigramPosting.mk head.trigram)) =
            (g.entries.map PostingEntry.fileId).map fun id => toLex (head.trigram, id) := by
          rw [map_map]
          rfl
        rw [hcomp] at hgroup
        exact List.Nodup.of_map _ hgroup
      obtain ⟨hfinish, hasc⟩ := finishGroup_spec controlled hg hfiles
      have hbelow : ∀ p ∈ runsPostings runs', head.trigram < p.trigram := fun p => h'.lt_of_mem hgt
      have hne : finishGroup controlled g ≠ [] := by
        obtain ⟨entries, rest, hx⟩ := hhead
        have hr := mem_of_getElem? hx
        have hfirst : (head.trigram, entries) ∈ (head.trigram, entries) :: rest :=
          mem_cons_self ..
        obtain ⟨e, he⟩ := exists_mem_of_ne_nil _ ((h.grouped _ hr).nonempty _ hfirst)
        have hp : (⟨head.trigram, e⟩ : TrigramPosting) ∈ runsPostings runs :=
          List.mem_flatMap.mpr ⟨_, hr, mem_ungroup.mpr ⟨_, hfirst, rfl, he⟩⟩
        rcases List.mem_append.mp (hperm.mem_iff.mpr hp) with hleft | htaken
        · exact absurd (hbelow _ hleft) (lt_irrefl _)
        · obtain ⟨e', he', -⟩ := List.mem_map.mp htaken
          exact ne_nil_of_mem (hfinish.mem_iff.mpr he')
      have hall : (finishGroup controlled g |>.map (TrigramPosting.mk head.trigram)).Perm
          (g.entries.map (TrigramPosting.mk head.trigram)) := hfinish.map _
      obtain ⟨rest, hgroups, hwrite⟩ := ih h' hrest (by omega) (by omega)
      refine ⟨(head.trigram, finishGroup controlled g) :: rest, ?_, fun w => ?_⟩
      · obtain ⟨hgrouped, hperm'⟩ := hgroups.cons hne hasc hbelow
        refine ⟨hgrouped, hperm'.trans ?_⟩
        exact ((hall.append_right _).trans perm_append_comm).trans hperm
      · rw [mergeGroups, hpeek, writeGroups, foldlM_cons]
        simp only [hloop]
        change (w.writeGroup head.trigram (finishGroup controlled g) >>= fun w =>
          mergeGroups controlled steps n s' w) = _
        simp only [hwrite]
        rfl

/-- All segments are opened. -/
lemma foldlM_openSegment (runs : List (List PostingGroup)) (hruns : ∀ r ∈ runs, WellGrouped r) :
    ∃ s, (runs.map (segmentBytes 0)).foldlM (openSegment sizes perSegment) ⟨[], .empty⟩ = .ok s ∧
      s.Holds runs := by
  have hloop : ∀ (runs done : List (List PostingGroup)) (s : MergeState), s.Holds done →
      (∀ r ∈ runs, WellGrouped r) →
      ∃ s', (runs.map (segmentBytes 0)).foldlM (openSegment sizes perSegment) s = .ok s' ∧
        s'.Holds (done ++ runs) := by
    intro runs
    induction runs with
    | nil => exact fun done s hs _ => ⟨s, rfl, by rwa [append_nil]⟩
    | cons r runs ih =>
      intro done s hs hall
      obtain ⟨hr, hrest⟩ := forall_mem_cons.mp hall
      obtain ⟨s₁, hopen, h₁⟩ := openSegment_spec sizes perSegment hs hr
      obtain ⟨s', hfold, h'⟩ := ih (done ++ [r]) s₁ h₁ hrest
      rw [append_assoc, singleton_append] at h'
      refine ⟨s', ?_, h'⟩
      rw [map_cons, foldlM_cons]
      exact Loops.bind_eq_ok.mpr ⟨s₁, hopen, hfold⟩
  have hstart : MergeState.Holds ⟨[], .empty⟩ [] := by
    refine ⟨rfl, ?_, fun x => ?_, nodup_nil, by simp⟩
    · intro i g rest hi
      simp at hi
    · constructor
      · intro hx
        simp [Heap.empty] at hx
      · rintro ⟨entries, rest, hx⟩
        simp at hx
  obtain ⟨s, hs, hholds⟩ := hloop runs [] _ hstart hruns
  exact ⟨s, hs, by rwa [nil_append] at hholds⟩

/-- **Merging segments** writes the groups of all their postings, whatever the reads return. -/
theorem mergeSegments_eq (readBudgetBytes : ℕ) (hruns : ∀ r ∈ runs, WellGrouped r)
    (hnodup : ((runsPostings runs).map TrigramPosting.key).Nodup) :
    ∃ groups, SortedGroups (runsPostings runs) groups ∧
      mergeSegments controlled sizes (runs.map (segmentBytes 0)) readBudgetBytes =
        writeGroups groups .create >>= IndexWriter.finish := by
  obtain ⟨s, hopen, hs⟩ := foldlM_openSegment sizes
    (segmentBufferBytes readBudgetBytes (runs.map (segmentBytes 0)).length) runs hruns
  -- every group takes at least a byte, so there are enough steps
  have hsteps : runs.flatten.length < ((runs.map (segmentBytes 0)).map length).sum + 1 := by
    rw [length_flatten, map_map]
    refine Nat.lt_succ_of_le (sum_le_sum fun r _ => ?_)
    exact length_le_segmentBytes 0 r
  obtain ⟨groups, hgroups, hmerge⟩ := mergeGroups_spec controlled hs hnodup hsteps hsteps
  refine ⟨groups, hgroups, ?_⟩
  rw [mergeSegments]
  simp only [hopen]
  change (mergeGroups controlled _ _ s .create >>= IndexWriter.finish) = _
  rw [hmerge]

end Tgrep
