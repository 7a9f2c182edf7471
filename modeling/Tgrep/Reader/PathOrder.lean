import Tgrep.Git.Tracked
import Tgrep.Reader.Spec

/-!
# Searches in path order

Searching the file table in path order finds what a scan over all paths finds: the files of a prefix,
whether something is below a directory, and whether a path is there. So does searching the paths that
Git tracks.

## Main results

* `IndexReader.fileIdsWithPrefix_ascending`: the files of a prefix come in path order.
* `IndexReader.hasDescendantPath_iff`: what is below a directory, and below the root.
* `IndexReader.path_searches`: all searches.
-/

namespace Tgrep

open List

/-- A path starts with two texts one after another iff it starts with their bytes. -/
lemma startsWith_append {path a b : String} :
    startsWith path (a ++ b) = true ↔ pathBytes a ++ pathBytes b <+: pathBytes path := by
  have hbytes : pathBytes (a ++ b) = pathBytes a ++ pathBytes b := by
    simp [pathBytes]
  rw [startsWith, List.isPrefixOf_iff_prefix, hbytes]

namespace IndexReader

variable {r : IndexReader}

/-- In a file table with distinct paths, the files of a prefix come in strictly ascending path
order. -/
lemma fileIdsWithPrefix_ascending (hnodup : r.filePaths.Nodup) (p : String) :
    Ascending (fun fid : UInt32 => r.bytesAt fid.toNat) (r.fileIdsWithPrefix p) := by
  have hsub := r.withPrefix_sublist (pathBytes p)
  have hsorted : r.pathOrder.Pairwise fun a b => r.bytesAt a ≤ r.bytesAt b := r.pairwise_pathOrder
  have hids : r.pathOrder.Nodup := r.pathOrder_perm.nodup_iff.mpr nodup_range
  rw [fileIdsWithPrefix_eq, Ascending, pairwise_map]
  refine List.Pairwise.imp_of_mem (fun ha hb hab => ?_) ((hsorted.and hids).sublist hsub)
  have ha' := mem_pathOrder.mp (hsub.subset ha)
  have hb' := mem_pathOrder.mp (hsub.subset hb)
  rw [toNat_ofNat_of_lt ha', toNat_ofNat_of_lt hb']
  refine lt_of_le_of_ne hab.1 fun heq => hab.2 ?_
  rw [bytesAt, bytesAt, getD_eq_getElem _ _ ha', getD_eq_getElem _ _ hb'] at heq
  exact (List.Nodup.getElem_inj_iff hnodup).mp (pathBytes_injective heq)

/-- A property of some file in path order is one of some path. -/
lemma exists_mem_pathOrder {P : List UInt8 → Prop} :
    (∃ id ∈ r.pathOrder, P (r.bytesAt id)) ↔ ∃ path ∈ r.filePaths, P (pathBytes path) := by
  constructor
  · rintro ⟨id, hid, hP⟩
    have hlt := mem_pathOrder.mp hid
    rw [bytesAt, getD_eq_getElem _ _ hlt] at hP
    exact ⟨_, getElem_mem hlt, hP⟩
  · rintro ⟨path, hpath, hP⟩
    obtain ⟨id, hlt, rfl⟩ := getElem_of_mem hpath
    refine ⟨id, mem_pathOrder.mpr hlt, ?_⟩
    rwa [bytesAt, getD_eq_getElem _ _ hlt]

/-- **Something is below a directory** iff a path starts with the directory and a slash. Every path
is below the root, whose name is empty. -/
theorem hasDescendantPath_iff {directory : String} :
    r.hasDescendantPath directory = true ↔
      if directory = "" then r.filePaths ≠ []
      else ∃ path ∈ r.filePaths, startsWith path (directory ++ "/") = true := by
  rw [hasDescendantPath]
  split_ifs
  · have hlen := r.pathOrder_perm.length_eq
    rw [length_range] at hlen
    rw [Bool.not_eq_true', isEmpty_eq_false_iff, ← length_pos_iff, ← length_pos_iff, hlen]
  · have hsorted : r.pathOrder.Pairwise fun a b => r.bytesAt a ≤ r.bytesAt b :=
      r.pairwise_pathOrder
    simp only [startsWith_append]
    rw [← head?_drop, Search.drop_lowerBound hsorted]
    exact (Search.head?_dropWhile_prefix hsorted).trans exists_mem_pathOrder

/-- **Searches in path order find what scans find.** For distinct paths: the files of a prefix are
those whose paths start with it, in strictly ascending path order; something is below a directory
iff a path starts with the directory and a slash, and below the root iff there is a path; a path is
contained iff it is one of the paths; and whether Git tracks something beneath a directory is the
same with and without the ordered set. -/
theorem path_searches (hnodup : r.filePaths.Nodup) :
    (∀ p, (∀ fid, fid ∈ r.fileIdsWithPrefix p ↔
        ∃ path, r.filePath fid = some path ∧ startsWith path p = true) ∧
      Ascending (fun fid : UInt32 => r.bytesAt fid.toNat) (r.fileIdsWithPrefix p)) ∧
    (∀ directory, r.hasDescendantPath directory = true ↔
      if directory = "" then r.filePaths ≠ []
      else ∃ path ∈ r.filePaths, startsWith path (directory ++ "/") = true) ∧
    (∀ path, r.containsPath path = true ↔ path ∈ r.filePaths) ∧
    ∀ (t : GitIndex.TrackedFiles) relDir,
      t.containsAnyUnder relDir = (GitIndex.TrackedFiles.unordered t.paths).containsAnyUnder relDir :=
  ⟨fun p => ⟨fun _ => mem_fileIdsWithPrefix, fileIdsWithPrefix_ascending hnodup p⟩,
    fun _ => hasDescendantPath_iff, fun _ => containsPath_iff, fun t => t.containsAnyUnder_eq⟩

/-- The index of one file. -/
theorem path_searches_single : single.containsPath "a" = true ↔ "a" ∈ single.filePaths :=
  (path_searches (nodup_singleton "a")).2.2.1 "a"

/-- Something is below the root though no path starts with a slash. -/
theorem descendant_of_root :
    ¬ (single.hasDescendantPath "" = true ↔
      ∃ path ∈ single.filePaths, startsWith path ("" ++ "/") = true) := by
  rw [hasDescendantPath_iff, if_pos rfl]
  intro h
  obtain ⟨path, hpath, hstarts⟩ := h.mp (cons_ne_nil "a" [])
  rw [List.mem_singleton.mp hpath] at hstarts
  exact absurd hstarts (by decide)

end IndexReader

end Tgrep
