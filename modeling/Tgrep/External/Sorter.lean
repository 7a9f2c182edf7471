import Tgrep.External.Merge

/-!
# The external sorter

Postings accumulate in an arena. When the arena is full it is sorted and spilled to a segment. At
the end the segments are merged into the index files, or the arena is written at once if nothing
was spilled. The files are those of the sorted postings in either case.

## Main definitions

* `ExternalSorter`: the arena and the segments.
* `externalSort`: push postings, and write the files.
* `SortsExternally`: what the files must be.

## Main results

* `ExternalSorter.Holds.push`: the step lemma: what was pushed is in the segments and the arena.
* `externalSort_eq`: the files are those of the sorted postings.
* `externalSort_sorts`: and each posting is in them once, in order.

## Implementation notes

Segments are kept by their bytes, under the numbers that name their files.
-/

namespace Tgrep

open List Ascending

/-- Accumulates postings, spilling sorted segments when the arena fills. -/
structure ExternalSorter where
  /-- The arena. -/
  arena : List TrigramPosting
  /-- Arena length that triggers a spill. -/
  capacity : ℕ
  /-- The byte budget of the arena, and of the read-ahead while merging. -/
  budgetBytes : ℕ
  /-- The bytes of the segments. -/
  segments : List (List UInt8)
  /-- Whether a permit controls the sorts. -/
  controlled : Bool

namespace ExternalSorter

/-- The size of a posting in the arena. -/
def TRIGRAM_POSTING_SIZE : ℕ := 12

/-- A sorter that keeps at most `budgetBytes` of postings, but at least a small arena. -/
def new (budgetBytes : ℕ) (controlled : Bool) : ExternalSorter :=
  ⟨[], max (budgetBytes / TRIGRAM_POSTING_SIZE) 1024, budgetBytes, [], controlled⟩

/-- Sort the arena. -/
def sortArena (s : ExternalSorter) : ExternalSorter :=
  { s with arena := sortControlled s.controlled TrigramPosting.key s.arena }

/-- Sort the arena and write it out as a segment, then clear it. -/
def spillArena (s : ExternalSorter) : ExternalSorter :=
  if s.arena.isEmpty then s
  else
    let s := s.sortArena
    { s with segments := s.segments ++ [writeSegment (arenaGroups s.arena)], arena := [] }

/-- Append one posting, spilling first if the arena is full. -/
def push (s : ExternalSorter) (posting : TrigramPosting) : ExternalSorter :=
  let s := if s.capacity ≤ s.arena.length then s.spillArena else s
  { s with arena := s.arena ++ [posting] }

/-- Write the index files. Returns them with the number of segments that were merged. -/
def writePostingsTo (s : ExternalSorter) (controlled : Bool) (sizes : ℕ → ℕ → ℕ) :
    Except Error ((List UInt8 × List UInt8 × ℕ) × ℕ) :=
  if s.segments.isEmpty then do
    let files ← writeSortedArenaTo s.sortArena.arena
    .ok (files, 0)
  else do
    let s := s.spillArena
    let files ← mergeSegments controlled sizes s.segments s.budgetBytes
    .ok (files, s.segments.length)

/-- What was pushed is in the segments and the arena. -/
def Holds (pushed : List TrigramPosting) (s : ExternalSorter) : Prop :=
  ∃ runs : List (List PostingGroup), s.segments = runs.map (segmentBytes 0) ∧
    (∀ r ∈ runs, WellGrouped r) ∧ (runsPostings runs ++ s.arena).Perm pushed

variable {s : ExternalSorter} {pushed : List TrigramPosting}

/-- Distinct postings have distinct postings in the arena. -/
lemma Holds.nodup_arena (h : Holds pushed s) (hnodup : (pushed.map TrigramPosting.key).Nodup) :
    (s.arena.map TrigramPosting.key).Nodup := by
  obtain ⟨runs, -, -, hperm⟩ := h
  have hall := (hperm.map TrigramPosting.key).nodup_iff.mpr hnodup
  rw [map_append] at hall
  exact (nodup_append.mp hall).2.1

/-- **Spilling** moves the arena into a segment. -/
theorem Holds.spillArena (h : Holds pushed s) (hnodup : (pushed.map TrigramPosting.key).Nodup) :
    Holds pushed s.spillArena := by
  have harena := h.nodup_arena hnodup
  obtain ⟨runs, hsegments, hruns, hperm⟩ := h
  rw [ExternalSorter.spillArena]
  split_ifs with hempty
  · exact ⟨runs, hsegments, hruns, hperm⟩
  · have hgroups := sortedGroups_arenaGroups harena
    rw [← sortControlled_eq s.controlled harena] at hgroups
    refine ⟨runs ++ [arenaGroups s.sortArena.arena], ?_, ?_, ?_⟩
    · rw [map_append, map_singleton, ← writeSegment_eq, ← hsegments]
      rfl
    · exact forall_mem_append.mpr ⟨hruns, forall_mem_singleton.mpr hgroups.toWellGrouped⟩
    · have hspilled : runsPostings (runs ++ [arenaGroups s.sortArena.arena]) =
          runsPostings runs ++ ungroup (arenaGroups s.sortArena.arena) := by
        rw [runsPostings, flatMap_append, flatMap_singleton]
        rfl
      rw [append_nil, hspilled]
      exact (hgroups.perm.append_left _).trans hperm

/-- **The step lemma**: one more posting is in the arena. -/
theorem Holds.push (h : Holds pushed s) (hnodup : (pushed.map TrigramPosting.key).Nodup)
    (p : TrigramPosting) : Holds (pushed ++ [p]) (s.push p) := by
  have happend : ∀ {s : ExternalSorter}, Holds pushed s →
      Holds (pushed ++ [p]) { s with arena := s.arena ++ [p] } := by
    rintro s ⟨runs, hsegments, hruns, hperm⟩
    refine ⟨runs, hsegments, hruns, ?_⟩
    rw [← append_assoc]
    exact hperm.append_right _
  unfold ExternalSorter.push
  dsimp only
  split_ifs
  · exact happend (h.spillArena hnodup)
  · exact happend h

/-- What was pushed is in the segments and the arena after any number of pushes. -/
lemma foldl_push_holds {postings : List TrigramPosting} (budgetBytes : ℕ) (controlled : Bool)
    (hnodup : (postings.map TrigramPosting.key).Nodup) :
    Holds postings (postings.foldl ExternalSorter.push (new budgetBytes controlled)) := by
  induction postings using reverseRecOn with
  | nil => exact ⟨[], rfl, by simp, List.Perm.refl _⟩
  | append_singleton postings p ih =>
    rw [map_append, nodup_append] at hnodup
    rw [foldl_append]
    exact (ih hnodup.1).push hnodup.1 p

end ExternalSorter

/-- Push postings into a sorter and write the index files. `controlled` says whether a permit
controls the sorter, `outputControlled` whether one controls the output, and `sizes` how many bytes
the reads of each segment return. -/
def externalSort (budgetBytes : ℕ) (controlled outputControlled : Bool) (sizes : ℕ → ℕ → ℕ)
    (postings : List TrigramPosting) : Except Error ((List UInt8 × List UInt8 × ℕ) × ℕ) :=
  (postings.foldl ExternalSorter.push (.new budgetBytes controlled)).writePostingsTo
    outputControlled sizes

variable {groups : List PostingGroup} {postings : List TrigramPosting}

/-- **The files are those of the sorted postings**, whatever the budget, the number of segments and
the reads are. If one way fails, so does the other, with the same error. -/
theorem externalSort_eq (hnodup : (postings.map TrigramPosting.key).Nodup) (budgetBytes : ℕ)
    (controlled outputControlled : Bool) (sizes : ℕ → ℕ → ℕ) :
    ∃ segments, externalSort budgetBytes controlled outputControlled sizes postings =
      (writeSortedArenaTo (Ascending.sortByKey TrigramPosting.key postings)).map
        fun files => (files, segments) := by
  have hholds := ExternalSorter.foldl_push_holds budgetBytes controlled hnodup
  unfold externalSort
  generalize postings.foldl ExternalSorter.push (.new budgetBytes controlled) = s at hholds
  have hsorted := sortedGroups_arenaGroups hnodup
  unfold ExternalSorter.writePostingsTo
  split_ifs with hempty
  · -- nothing was spilled, so the arena holds all postings
    refine ⟨0, ?_⟩
    have harena := hholds.nodup_arena hnodup
    obtain ⟨runs, hsegments, -, hperm⟩ := hholds
    have hnil : runs = [] := by
      rw [isEmpty_iff.mp hempty] at hsegments
      exact map_eq_nil_iff.mp hsegments.symm
    rw [hnil] at hperm
    have hsame : s.sortArena.arena = sortByKey TrigramPosting.key postings := by
      rw [ExternalSorter.sortArena, sortControlled_eq _ harena]
      refine (sortByKey_ascending harena).eq_of_mem_iff (sortByKey_ascending hnodup) fun p => ?_
      rw [mem_sortByKey, mem_sortByKey]
      exact hperm.mem_iff
    rw [hsame]
    cases writeSortedArenaTo (sortByKey TrigramPosting.key postings) <;> rfl
  · refine ⟨s.spillArena.segments.length, ?_⟩
    obtain ⟨runs, hsegments, hruns, hperm⟩ := hholds.spillArena hnodup
    have hcleared : s.spillArena.arena = [] := by
      rw [ExternalSorter.spillArena]
      split_ifs with harena
      · exact isEmpty_iff.mp harena
      · rfl
    rw [hcleared, append_nil] at hperm
    obtain ⟨groups, hgroups, hmerge⟩ := mergeSegments_eq outputControlled sizes
      s.spillArena.budgetBytes hruns ((hperm.map TrigramPosting.key).nodup_iff.mpr hnodup)
    rw [hgroups.unique hsorted hperm] at hmerge
    dsimp only
    rw [hsegments, hmerge, writeSortedArenaTo]
    cases writeGroups (arenaGroups (sortByKey TrigramPosting.key postings)) .create >>=
      IndexWriter.finish <;> rfl

/-! ## The files -/

/-- The groups that are written have lengths that fit their fields, and are written as they are. -/
lemma writeGroups_eq (hne : ∀ g ∈ groups, g.2 ≠ []) (hlen : ∀ g ∈ groups, g.2.length < 2 ^ 32)
    (w : IndexWriter) : writeGroups groups w = groups.foldlM IndexWriter.appendGroup w := by
  induction groups generalizing w with
  | nil => rfl
  | cons g groups ih =>
    obtain ⟨hg, hrest⟩ := forall_mem_cons.mp hlen
    obtain ⟨hgne, hrestne⟩ := forall_mem_cons.mp hne
    have hstep : w.writeGroup g.1 g.2 = w.appendGroup g := by
      rw [IndexWriter.writeGroup, if_neg (by simpa using hgne), if_pos hg]
      simp only [writePostingEntries_eq]
      rfl
    rw [writeGroups, foldlM_cons, foldlM_cons, hstep]
    congr 1
    funext w
    exact ih hrestne hrest w

/-- Groups that were written have lengths that fit their fields. -/
lemma length_lt_of_writeGroups {w w' : IndexWriter} (h : writeGroups groups w = .ok w') :
    ∀ g ∈ groups, g.2.length < 2 ^ 32 := by
  refine Loops.foldlM_invariant (P := fun done _ => ∀ g ∈ done, g.2.length < 2 ^ 32)
    (fun done g w w' hdone hw => ?_) (by simp) h
  refine forall_mem_append.mpr ⟨hdone, forall_mem_singleton.mpr ?_⟩
  rw [IndexWriter.writeGroup] at hw
  split_ifs at hw with hempty hlen
  · rw [isEmpty_iff.mp hempty]
    decide
  · exact hlen

/-- What an external sort must do. -/
structure SortsExternally (postings : List TrigramPosting)
    (result : Except Error ((List UInt8 × List UInt8 × ℕ) × ℕ)) : Prop where
  /-- The files are those written from one fully sorted arena. -/
  same : ∃ segments, result =
    (writeSortedArenaTo (Ascending.sortByKey TrigramPosting.key postings)).map
      fun files => (files, segments)
  /-- The files are the encodings of groups that hold each posting once, in order, and of entries
  that are strictly ascending by trigram and tile `index.bin` in order. -/
  layout : ∀ files segments, result = .ok (files, segments) → ∃ groups,
    SortedGroups postings groups ∧
      files = (lookupCodec.encodeAll (lookupEntries 0 groups),
        postingCodec.encodeAll (groups.flatMap Prod.snd), groups.length) ∧
      Ascending LookupEntry.trigram (lookupEntries 0 groups) ∧
      Tiles 0 (lookupEntries 0 groups) files.2.1.length
  /-- Nothing fails unless a posting list or a file is too long. -/
  succeeds : (∀ t, (postings.filter fun p => p.trigram = t).length < 2 ^ 32) →
    postings.length * POSTING_ENTRY_SIZE < 2 ^ 64 → ∃ files, result = .ok files

/-- A group is as long as its trigram has postings, at most. -/
lemma SortedGroups.length_le (h : SortedGroups postings groups) {g : PostingGroup}
    (hg : g ∈ groups) : g.2.length ≤ (postings.filter fun p => p.trigram = g.1).length := by
  have hsub : (g.2.map (TrigramPosting.mk g.1)).Sublist (ungroup groups) :=
    sublist_flatten_of_mem (mem_map.mpr ⟨g, hg, rfl⟩)
  have hfilter := hsub.filter fun p => decide (p.trigram = g.1)
  rw [filter_eq_self.mpr (by simp)] at hfilter
  have hle := hfilter.length_le
  rwa [length_map, (h.perm.filter _).length_eq] at hle

/-- All groups together have as many postings as were pushed. -/
lemma SortedGroups.groupsSize_eq (h : SortedGroups postings groups) :
    groupsSize groups = postings.length * POSTING_ENTRY_SIZE := by
  rw [groupsSize, ← h.perm.length_eq, ungroup]
  simp only [length_flatMap, length_map]

/-- What a sorted arena is written as: groups that fit the fields of the files. -/
lemma writeSortedArenaTo_fits (hnodup : (postings.map TrigramPosting.key).Nodup)
    {files : List UInt8 × List UInt8 × ℕ}
    (h : writeSortedArenaTo (Ascending.sortByKey TrigramPosting.key postings) = .ok files) :
    ∃ groups, SortedGroups postings groups ∧
      files = (lookupCodec.encodeAll (lookupEntries 0 groups),
        postingCodec.encodeAll (groups.flatMap Prod.snd), groups.length) ∧
      (∀ g ∈ groups, g.2.length < 2 ^ 32) ∧ groupsSize groups < 2 ^ 64 := by
  have hgroups := sortedGroups_arenaGroups hnodup
  obtain ⟨w, hw, hfinish⟩ := Loops.bind_eq_ok.mp h
  have hlen := length_lt_of_writeGroups hw
  rw [writeGroups_eq hgroups.nonempty hlen] at hw
  have hholds := IndexWriter.appendGroups_holds hlen hw
  exact ⟨_, hgroups, hholds.finish hfinish, hlen, hholds.size_lt⟩

/-- What a sorted arena is written as. -/
lemma writeSortedArenaTo_layout (hnodup : (postings.map TrigramPosting.key).Nodup)
    {files : List UInt8 × List UInt8 × ℕ}
    (h : writeSortedArenaTo (Ascending.sortByKey TrigramPosting.key postings) = .ok files) :
    ∃ groups, SortedGroups postings groups ∧
      files = (lookupCodec.encodeAll (lookupEntries 0 groups),
        postingCodec.encodeAll (groups.flatMap Prod.snd), groups.length) ∧
      Ascending LookupEntry.trigram (lookupEntries 0 groups) ∧
      Tiles 0 (lookupEntries 0 groups) files.2.1.length := by
  obtain ⟨groups, hgroups, hfiles, hlen, hsize⟩ := writeSortedArenaTo_fits hnodup h
  refine ⟨groups, hgroups, hfiles, ?_, ?_⟩
  · rw [← map_iff, map_trigram_lookupEntries, map_iff]
    exact hgroups.ascending
  · rw [← zero_add (groupsSize _)] at hsize
    have htiles := tiles_lookupEntries hlen hsize
    rw [zero_add] at htiles
    rw [hfiles, length_encodeAll_groups]
    exact htiles

/-- A sorted arena is written unless a posting list or a file is too long. -/
lemma writeSortedArenaTo_ok (hnodup : (postings.map TrigramPosting.key).Nodup)
    (hcount : ∀ t, (postings.filter fun p => p.trigram = t).length < 2 ^ 32)
    (hsize : postings.length * POSTING_ENTRY_SIZE < 2 ^ 64) :
    ∃ files, writeSortedArenaTo (Ascending.sortByKey TrigramPosting.key postings) = .ok files := by
  have hgroups := sortedGroups_arenaGroups hnodup
  have hlen : ∀ g ∈ arenaGroups (sortByKey TrigramPosting.key postings),
      g.2.length < 2 ^ 32 := fun g hg => lt_of_le_of_lt (hgroups.length_le hg) (hcount g.1)
  have hlookup : (arenaGroups (sortByKey TrigramPosting.key postings)).length *
      LOOKUP_ENTRY_SIZE < 2 ^ 64 := by
    have hle := hgroups.ascending.length_le
    rw [LOOKUP_ENTRY_SIZE]
    omega
  obtain ⟨w, hw, hholds⟩ := IndexWriter.appendGroups_ok hlen hlookup (hgroups.groupsSize_eq ▸ hsize)
  obtain ⟨files, hfiles⟩ := IndexWriter.finish_ok hholds hlookup
  rw [← writeGroups_eq hgroups.nonempty hlen] at hw
  exact ⟨files, Loops.bind_eq_ok.mpr ⟨w, hw, hfiles⟩⟩

/-- **External sorting refines the in-memory builder.** For postings with distinct pairs of trigram
and file, pushed in any order, under every budget and whatever the reads return, the files are those
of one sorted arena: each posting once with its masks, the entries ascending and tiling
`index.bin`. -/
theorem externalSort_sorts (postings : List TrigramPosting)
    (hnodup : (postings.map TrigramPosting.key).Nodup) (budgetBytes : ℕ)
    (controlled outputControlled : Bool) (sizes : ℕ → ℕ → ℕ) :
    SortsExternally postings
      (externalSort budgetBytes controlled outputControlled sizes postings) := by
  obtain ⟨segments, heq⟩ := externalSort_eq hnodup budgetBytes controlled outputControlled sizes
  refine ⟨⟨segments, heq⟩, fun files segments' hok => ?_, fun hcount hsize => ?_⟩
  · rw [heq] at hok
    cases hwrite : writeSortedArenaTo (Ascending.sortByKey TrigramPosting.key postings) with
    | error e =>
      rw [hwrite] at hok
      cases hok
    | ok files' =>
      rw [hwrite] at hok
      cases hok
      exact writeSortedArenaTo_layout hnodup hwrite
  · obtain ⟨files, hfiles⟩ := writeSortedArenaTo_ok hnodup hcount hsize
    exact ⟨(files, segments), by rw [heq, hfiles]; rfl⟩

/-- Three postings in two files, pushed out of order. -/
theorem externalSort_sorts_three :
    SortsExternally [⟨9, 1, 1, 1⟩, ⟨7, 1, 2, 2⟩, ⟨9, 0, 4, 4⟩]
      (externalSort 0 false true (fun _ _ => 1) [⟨9, 1, 1, 1⟩, ⟨7, 1, 2, 2⟩, ⟨9, 0, 4, 4⟩]) :=
  externalSort_sorts _ (by decide) _ _ _ _

end Tgrep
