import Tgrep.Hybrid.Query

/-!
# Counting active files

The number of active files is computed from the sizes of the two layers and the number of paths of
the overlay that shadow a file of the reader. It is the number of ids that an unscoped query of
everything returns.

## Main definitions

* `LiveIndex.shadowedPaths`: the paths whose reader entries are replaced or deleted.
* `HybridIndex.numFilesUsing`, `HybridIndex.allFileIds`: the count and the enumeration.
* `HybridIndex.CountsAgree`: that they agree.

## Main results

* `HybridIndex.numFilesUsing_run`: they do under every reader with unique paths and after every run
  of the overlay whose upserts are made below the overlay bit.
* `HybridIndex.numFilesUsing_wraps`: past it, an active path has no active file.
-/

namespace Tgrep

open List LiveIndex

namespace LiveIndex

/-- The number of files of the overlay. -/
def numFiles (s : LiveIndex) : ℕ := s.filePaths.keys.card

/-- The paths whose reader entries are replaced or deleted by the overlay. -/
def shadowedPaths (s : LiveIndex) : List String := s.pathToId.keys.sort ++ s.deletedPaths.sort

/-- The shadowed paths are those with an entry or a tombstone. -/
lemma mem_shadowedPaths {s : LiveIndex} {path : String} :
    path ∈ s.shadowedPaths ↔ s.hasPath path = true ∨ s.isDeleted path = true := by
  rw [shadowedPaths, mem_append, Finset.mem_sort, Finset.mem_sort, hasPath,
    FinMap.contains_iff, isDeleted, decide_eq_true_eq]

/-- No path is shadowed twice: a path with an entry has no tombstone. -/
lemma Rep.nodup_shadowedPaths {s : LiveIndex} (h : s.Rep) : s.shadowedPaths.Nodup := by
  refine List.nodup_append.mpr ⟨Finset.sort_nodup _ _, Finset.sort_nodup _ _, ?_⟩
  rintro path hlive _ hdel rfl
  exact Finset.disjoint_left.mp h.disjoint ((Finset.mem_sort _).mp hlive)
    ((Finset.mem_sort _).mp hdel)

end LiveIndex

namespace HybridIndex

/-- The number of active files, under a snapshot of the reader. -/
def numFilesUsing (h : HybridIndex) (reader : IndexReader) : ℕ :=
  let shadowed := (h.live.shadowedPaths.filter fun path => reader.containsPath path).length
  reader.numFiles - shadowed + h.live.numFiles

/-- All active file ids of both layers. -/
def allFileIds (h : HybridIndex) : List UInt32 := (h.executeQueryWithMasks .matchAll).1

/-- The count of active files agrees with their enumeration. -/
structure CountsAgree (h : HybridIndex) : Prop where
  /-- The subtraction does not underflow. -/
  no_underflow :
    (h.live.shadowedPaths.filter fun path => h.reader.containsPath path).length ≤ h.reader.numFiles
  count : h.numFilesUsing h.reader = h.allFileIds.length
  ids_nodup : h.allFileIds.Nodup
  active : ∀ path, h.hasActivePath path = true ↔ ∃ fid ∈ h.allFileIds, h.resolvePath fid = some path

variable {h : HybridIndex}

/-! ## The two layers -/

/-- The active ids are the active ones of the reader, then those of the overlay. -/
lemma Separated.allFileIds_eq (hs : h.Separated) :
    h.allFileIds = h.reader.allFileIds.filter h.readerEntryActive ++ h.live.allFileIds := by
  have hreader : ∀ fid ∈ h.reader.allFileIds,
      (isOverlayId fid || h.readerEntryActive fid) = h.readerEntryActive fid := by
    intro fid hfid
    have hlt := (IndexReader.mem_allFileIds (lt_of_le_of_lt hs.files_le (by decide))).mp hfid
    rw [hs.not_overlay hlt, Bool.false_or]
  have hlive : ∀ fid ∈ h.live.allFileIds,
      (isOverlayId fid || h.readerEntryActive fid) = true := by
    intro fid hfid
    obtain ⟨path, hpath⟩ := mem_allFileIds.mp hfid
    rw [hs.live.isOverlayId_of_filePath hpath, Bool.true_or]
  have hall : h.live.allFileIds.filter (fun fileId => h.liveInScope "" fileId) =
      h.live.allFileIds := List.filter_eq_self.mpr fun _ _ => by simp [liveInScope]
  have hsorted : Ascending.sortByKey (fun id => id) h.live.allFileIds = h.live.allFileIds :=
    Ascending.sortByKey_eq_self h.live.allFileIds_ascending
  rw [allFileIds, executeQueryWithMasks, executeQueryWithMasksIn, QueryPlan.isMatchAll, if_pos rfl,
    scopedFileIds, if_pos rfl, hall, hsorted, filter_append, filter_congr hreader]
  dsimp only
  rw [List.filter_eq_self.mpr hlive]

/-- The active ids are those of files that have a path and are active. -/
lemma Separated.mem_allFileIds (hs : h.Separated) {fid : UInt32} :
    fid ∈ h.allFileIds ↔ h.fileActive fid = true ∧ ∃ path, h.resolvePath fid = some path := by
  have hmem : fid ∈ h.allFileIds ↔ fid ∈ h.scopedFileIds "" ∧ h.fileActive fid = true :=
    mem_filter
  rw [hmem, hs.mem_scopedFileIds, inScope_eq_true, and_comm]
  simp only [startsWith_empty, and_true]

/-- The active reader files are as many as the reader paths that are not shadowed. -/
lemma Separated.length_reader_active (hs : h.Separated) :
    (h.reader.allFileIds.filter h.readerEntryActive).length =
      h.reader.filePaths.countP fun path => decide (path ∉ h.live.shadowedPaths) := by
  have hpaths : h.reader.allFileIds.map h.reader.filePath = h.reader.filePaths.map some := by
    have hlen : (UInt32.ofNat h.reader.filePaths.length).toNat = h.reader.filePaths.length :=
      UInt32.toNat_ofNat_of_lt' (lt_of_le_of_lt hs.files_le (by decide))
    rw [IndexReader.allFileIds, hlen, map_map]
    refine ext_getElem (by simp) fun i _ hi => ?_
    have hi' : i < h.reader.filePaths.length := by simpa using hi
    rw [getElem_map, getElem_range, getElem_map, Function.comp_apply,
      IndexReader.filePath, IndexReader.toNat_ofNat_of_lt hi', getElem?_eq_getElem hi']
  have hactive : h.readerEntryActive =
      (fun path : Option String => path.any fun path => decide (path ∉ h.live.shadowedPaths)) ∘
        h.reader.filePath := by
    funext fid
    rw [readerEntryActive, Function.comp_apply]
    cases h.reader.filePath fid with
    | none => rfl
    | some path =>
      rw [Option.any_some, Bool.eq_iff_iff, decide_eq_true_eq, mem_shadowedPaths]
      simp [and_comm]
  rw [← countP_eq_length_filter, hactive, ← countP_map, hpaths, countP_map]
  rfl

/-- With unique paths, the paths that shadow a reader file are as many as the reader paths that are
shadowed.

**Proof sketch.** Both are without duplicates, and have the same elements. -/
lemma length_shadowed (hr : h.live.Rep) (hpaths : h.reader.filePaths.Nodup) :
    (h.live.shadowedPaths.filter fun path => h.reader.containsPath path).length =
      h.reader.filePaths.countP fun path => decide (path ∈ h.live.shadowedPaths) := by
  rw [countP_eq_length_filter]
  refine List.Perm.length_eq ((perm_ext_iff_of_nodup
    (hr.nodup_shadowedPaths.filter _) (hpaths.filter _)).mpr fun path => ?_)
  rw [mem_filter, mem_filter, IndexReader.containsPath_iff, decide_eq_true_eq, and_comm]

/-- **The count agrees with the enumeration**, if the ids of the two layers are apart and the paths of
the reader are unique. -/
theorem Separated.countsAgree (hs : h.Separated) (hpaths : h.reader.filePaths.Nodup) :
    h.CountsAgree := by
  have hshadowed := length_shadowed hs.live hpaths
  have hsplit := length_eq_countP_add_countP (l := h.reader.filePaths)
    fun path => decide (path ∈ h.live.shadowedPaths)
  have hnot : (fun path => decide (path ∉ h.live.shadowedPaths)) =
      fun path => decide ¬ decide (path ∈ h.live.shadowedPaths) = true := by
    funext path
    simp
  have hids := hs.allFileIds_eq
  refine ⟨?_, ?_, ?_, fun path => ?_⟩
  · rw [hshadowed]
    exact countP_le_length
  · rw [hids, length_append, hs.length_reader_active, hnot, LiveIndex.allFileIds,
      Finset.length_sort, numFilesUsing, hshadowed, IndexReader.numFiles, LiveIndex.numFiles]
    omega
  · exact ((hs.scopedFileIds_ascending "").sublist filter_sublist).nodup
  · rw [hs.hasActivePath_iff]
    constructor
    · rintro ⟨fid, hpath, hact⟩
      exact ⟨fid, hs.mem_allFileIds.mpr ⟨hact, path, hpath⟩, hpath⟩
    · rintro ⟨fid, hfid, hpath⟩
      exact ⟨fid, hpath, (hs.mem_allFileIds.mp hfid).1⟩

/-! ## Runs -/

/-- **Counts over runs**: under every reader with unique paths and ids below the overlay bit, and
after every run of the overlay whose upserts are made below it, the count of active files is the
number of active ids, and the active paths are those that they resolve to. -/
theorem numFilesUsing_run (reader : IndexReader) (ops : List LiveIndex.Op)
    (hpaths : reader.filePaths.Nodup) (hfiles : reader.numFiles ≤ 2 ^ 31)
    (hops : History.BelowBit ops) : CountsAgree ⟨reader, (History.run ops).index⟩ := by
  have hs : Separated ⟨reader, (History.run ops).index⟩ := ⟨hfiles, (History.run_inv hops).rep⟩
  exact hs.countsAgree hpaths

/-- The counts after a file of the reader is replaced and then deleted, and a file is deleted that
the reader does not have. -/
theorem numFilesUsing_run_single :
    CountsAgree ⟨IndexReader.single, (History.run [.upsertFileWithTrigrams "a" [7] fun _ => 3,
      .deleteFile "a", .deleteFile "b"]).index⟩ := by
  refine numFilesUsing_run _ _ IndexReader.single_wellFormed.paths_nodup ?_ ?_
  · decide
  · rw [History.BelowBit]
    refine ⟨fun _ => ?_, fun h => ?_, fun h => ?_, trivial⟩
    · decide
    · cases h
    · cases h

/-- If the overlay has an entry for a path but no file with it, then an active path has no active
file. -/
lemma not_countsAgree_of_lost {live : LiveIndex} {path : String} (hlive : live.hasPath path = true)
    (hlost : ∀ fid, live.filePath fid ≠ some path) : ¬ CountsAgree ⟨IndexReader.empty, live⟩ := by
  intro hagree
  have hactive : hasActivePath ⟨IndexReader.empty, live⟩ path = true := by
    rw [hasActivePath, if_pos hlive]
  obtain ⟨fid, -, hpath⟩ := (hagree.active path).mp hactive
  rw [resolvePath] at hpath
  split_ifs at hpath
  · exact hlost fid hpath
  · simp [IndexReader.filePath, IndexReader.empty] at hpath

/-- **Past the overlay bit an active path has no active file**: `a` has an entry in the overlay, but
its id resolves to another path. -/
theorem numFilesUsing_wraps :
    ¬ CountsAgree ⟨IndexReader.empty, (History.run History.wrapping).index⟩ := by
  obtain ⟨hlive, honly, -⟩ := History.run_wrapping_loses
  refine not_countsAgree_of_lost hlive fun fid hfid => ?_
  exact absurd (honly fid "a" hfid).2 (by decide)

end HybridIndex

end Tgrep
