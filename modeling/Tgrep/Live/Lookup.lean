import Tgrep.Live.Invariant

/-!
# What the overlay returns

Lookups in an overlay that satisfies its representation invariant.

## Main results

* `LiveIndex.mem_lookupTrigramWithMasks`: the postings of a trigram.
* `LiveIndex.Rep.lookup_live`, `LiveIndex.lookup_ascending`: they belong to live files, and are
  strictly ascending.
-/

namespace Tgrep

open Ascending List FinMap

namespace LiveIndex

/-- The posting of a file, with its masks. -/
def posting (s : LiveIndex) (t : TrigramHash) (fid : UInt32) : PostingEntry :=
  ⟨fid, (s.getMasks t fid).locMask, (s.getMasks t fid).nextMask⟩

variable {fid : UInt32} {e : PostingEntry} {t : TrigramHash} {path : String} {s : LiveIndex}

/-- **The postings of a trigram** are those of the files in its posting set. -/
theorem mem_lookupTrigramWithMasks :
    e ∈ s.lookupTrigramWithMasks t ↔ s.HasPostingOf t e.fileId ∧ e = s.posting t e.fileId := by
  rw [lookupTrigramWithMasks, HasPostingOf]
  cases s.inverted.get? t with
  | none => simp
  | some set =>
    simp only [mem_map, Finset.mem_sort, Option.some.injEq]
    constructor
    · rintro ⟨fid, hfid, rfl⟩
      exact ⟨⟨set, rfl, hfid⟩, rfl⟩
    · rintro ⟨⟨set', rfl, hfid⟩, he⟩
      exact ⟨e.fileId, hfid, he.symm⟩

/-- The postings of a trigram are strictly ascending by file. -/
lemma lookup_ascending (s : LiveIndex) (t : TrigramHash) :
    Ascending PostingEntry.fileId (s.lookupTrigramWithMasks t) := by
  rw [lookupTrigramWithMasks]
  cases s.inverted.get? t with
  | none => exact Ascending.nil
  | some set =>
    rw [Ascending, pairwise_map]
    exact set.sortedLT_sort.pairwise

/-- All file ids are listed in ascending order. -/
lemma allFileIds_ascending (s : LiveIndex) : Ascending id s.allFileIds :=
  s.filePaths.keys.sortedLT_sort.pairwise

/-- All file ids are those with a path. -/
lemma mem_allFileIds : fid ∈ s.allFileIds ↔ ∃ path, s.filePath fid = some path := by
  rw [allFileIds, Finset.mem_sort, FinMap.mem_keys]
  rfl

/-- The overlay has an entry for a path iff some file has it. -/
lemma Rep.hasPath_iff (h : s.Rep) : s.hasPath path = true ↔ ∃ fid, s.filePath fid = some path := by
  rw [hasPath, contains_iff, FinMap.mem_keys]
  simp only [h.inverse, filePath]

/-- Different files have different paths. -/
lemma Rep.filePath_injective (h : s.Rep) {a b : UInt32} (ha : s.filePath a = some path)
    (hb : s.filePath b = some path) : a = b :=
  Option.some.inj (((h.inverse path a).mpr ha).symm.trans ((h.inverse path b).mpr hb))

/-- The files of the overlay have the overlay bit. -/
lemma Rep.isOverlayId_of_filePath (h : s.Rep) (hp : s.filePath fid = some path) :
    isOverlayId fid = true :=
  h.overlay fid (mem_keys_of_get? hp)

/-- A posting belongs to a live file. -/
lemma Rep.hasPostingOf_live (h : s.Rep) (hp : s.HasPostingOf t fid) :
    ∃ path, s.filePath fid = some path := by
  obtain ⟨set, hset, hfid⟩ := hp
  exact mem_keys.mp (h.postings.posting_live t set hset hfid)

/-- The postings of a trigram belong to live files. -/
lemma Rep.lookup_live (h : s.Rep) (he : e ∈ s.lookupTrigramWithMasks t) :
    ∃ path, s.filePath e.fileId = some path :=
  h.hasPostingOf_live (mem_lookupTrigramWithMasks.mp he).1

/-- The postings of a trigram have the overlay bit. -/
lemma Rep.lookup_overlay (h : s.Rep) (he : e ∈ s.lookupTrigramWithMasks t) :
    isOverlayId e.fileId = true := by
  obtain ⟨path, hp⟩ := h.lookup_live he
  exact h.isOverlayId_of_filePath hp

/-- A path with an entry is not tombstoned. -/
lemma Rep.not_isDeleted (h : s.Rep) (hp : s.hasPath path = true) : s.isDeleted path = false := by
  rw [isDeleted, decide_eq_false_iff_not]
  exact Finset.disjoint_left.mp h.disjoint (contains_iff.mp hp)

/-- The ordered paths are those of the files. -/
lemma mem_allPathsOrdered : path ∈ s.allPathsOrdered ↔ ∃ fid, s.filePath fid = some path := by
  simp only [allPathsOrdered, mem_map, mem_sortByKey, filePath]
  constructor
  · rintro ⟨⟨fid, path⟩, hmem, rfl⟩
    exact ⟨fid, mem_toList.mp hmem⟩
  · rintro ⟨fid, hfid⟩
    exact ⟨(fid, path), mem_toList.mpr hfid, rfl⟩

/-- No path is listed twice if no two files have one path. -/
lemma nodup_allPathsOrdered
    (hinj : ∀ {a b path}, s.filePath a = some path → s.filePath b = some path → a = b) :
    s.allPathsOrdered.Nodup := by
  have hkeys := s.filePaths.nodup_keys_toList
  rw [List.Nodup, pairwise_map] at hkeys
  have hpaths : (s.filePaths.toList.map Prod.snd).Nodup := by
    rw [List.Nodup, pairwise_map]
    refine hkeys.imp_of_mem fun {a b} ha hb hne heq => hne ?_
    exact hinj (mem_toList.mp ha) ((mem_toList.mp hb).trans (congrArg some heq.symm))
  exact ((sortByKey_perm _).map _).nodup_iff.mpr hpaths

/-- No path is listed twice. -/
lemma Rep.nodup_allPathsOrdered (h : s.Rep) : s.allPathsOrdered.Nodup :=
  LiveIndex.nodup_allPathsOrdered h.filePath_injective

/-- There are as many ordered paths as files. -/
lemma length_allPathsOrdered (s : LiveIndex) :
    s.allPathsOrdered.length = s.filePaths.keys.card := by
  rw [allPathsOrdered, length_map, (sortByKey_perm _).length_eq, length_toList]

end LiveIndex

end Tgrep
