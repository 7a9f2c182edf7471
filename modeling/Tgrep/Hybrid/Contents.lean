import Tgrep.Build.ForFiles
import Tgrep.Build.Merge
import Tgrep.Hybrid.Prune
import Tgrep.Live.View

/-!
# What an index holds

An index holds some paths, and for each of them the masks of its trigrams. File ids, and which layer
a posting comes from, do not occur. An overlay changes contents path by path, and so do a merge and
the pruning of the overlay.

## Main definitions

* `Contents`: paths, each with the masks of its trigrams.
* `IndexReader.contents`, `HybridIndex.contents`: what the two kinds of index hold.
* `Overlay.over`: contents under an overlay.

## Main results

* `HybridIndex.contents_eq`: a hybrid index holds what its reader holds under its overlay.
* `DeltaOf.contents`, `MergedFrom.contents_eq`: what a delta and a merged index hold.
* `HybridIndex.view_prune`: the overlay after pruning.
-/

namespace Tgrep

open List LiveIndex IndexReader

/-- What an index holds: for the paths in it, the masks of each trigram. -/
abbrev Contents := String → Option (TrigramHash → List TrigramMasks)

/-- The masks of a posting. -/
def PostingEntry.masks (e : PostingEntry) : TrigramMasks := ⟨e.locMask, e.nextMask⟩

/-- The masks of a table. -/
def tableMasks (f : TrigramHash → Option TrigramMasks) : TrigramHash → List TrigramMasks :=
  fun t => (f t).toList

/-- The masks that are extracted from a text. -/
def textMasks (text : List UInt8) : TrigramHash → List TrigramMasks :=
  tableMasks (Trigram.extractMergedMasks text).get?

/-- Contents under an overlay. -/
def Overlay.over (o : Overlay) (c : Contents) : Contents := fun path =>
  match o.entry path with
  | some f => some (tableMasks f)
  | none => if path ∈ o.deleted then none else c path

namespace Overlay

variable {o o' : Overlay} {c c' : Contents} {path : String}

/-- An entry decides what is held. -/
lemma over_entry {f : TrigramHash → Option TrigramMasks} (h : o.entry path = some f) :
    o.over c path = some (tableMasks f) := by
  rw [Overlay.over, h]

/-- A path without an entry and a tombstone is held as it is below. -/
lemma over_none (h : o.entry path = none) (hdel : path ∉ o.deleted) : o.over c path = c path := by
  rw [Overlay.over, h]
  exact if_neg hdel

/-- A tombstone hides the path. -/
lemma over_deleted (h : o.entry path = none) (hdel : path ∈ o.deleted) : o.over c path = none := by
  rw [Overlay.over, h]
  exact if_pos hdel

/-- What is held of a path depends on its entry, its tombstone and what is below. -/
lemma over_congr (hentry : o'.entry path = o.entry path)
    (hdel : path ∈ o'.deleted ↔ path ∈ o.deleted) (hc : c' path = c path) :
    o'.over c' path = o.over c path := by
  rw [Overlay.over, Overlay.over, hentry, hc]
  simp only [hdel]

end Overlay

/-! ## Lists of postings -/

/-- In an ascending list, the members of one file are at most one. -/
lemma masks_eq_toList {l : List PostingEntry} {m : Option TrigramMasks}
    (hasc : Ascending PostingEntry.fileId l) (hfile : ∀ a ∈ l, ∀ b ∈ l, a.fileId = b.fileId)
    (hm : ∀ masks, (∃ e ∈ l, e.masks = masks) ↔ m = some masks) :
    l.map PostingEntry.masks = m.toList := by
  match l, hasc, hfile, hm with
  | [], _, _, hm =>
    cases m with
    | none => rfl
    | some masks =>
      obtain ⟨e, he, -⟩ := (hm masks).mpr rfl
      cases he
  | [e], _, _, hm =>
    rw [(hm e.masks).mp ⟨e, by simp, rfl⟩]
    rfl
  | a :: b :: l, hasc, hfile, _ =>
    have hlt := (List.pairwise_cons.mp hasc).1 b (by simp)
    rw [hfile a (by simp) b (by simp)] at hlt
    exact absurd hlt (lt_irrefl _)

namespace IndexReader

variable {r r' : IndexReader} {path : String}

/-- The postings of a trigram that belong to a path. -/
def pathPostings (r : IndexReader) (path : String) (t : TrigramHash) : List PostingEntry :=
  (r.lookupTrigramWithMasks t).filter fun e => decide (r.filePath e.fileId = some path)

/-- The paths of a reader, with the masks of each trigram. -/
def contents (r : IndexReader) : Contents := fun path =>
  if path ∈ r.filePaths then some fun t => (r.pathPostings path t).map PostingEntry.masks else none

lemma mem_pathPostings {t : TrigramHash} {e : PostingEntry} :
    e ∈ r.pathPostings path t ↔
      e ∈ r.lookupTrigramWithMasks t ∧ r.filePath e.fileId = some path := by
  rw [pathPostings, mem_filter, decide_eq_true_eq]

/-- A path has at most one posting of each trigram, and the view tells its masks. -/
lemma WellFormed.pathPostings_masks (h : r.WellFormed) {t : TrigramHash}
    {m : Option TrigramMasks}
    (hm : ∀ masks : TrigramMasks,
      (path, masks.locMask, masks.nextMask) ∈ r.view.posts t ↔ m = some masks) :
    (r.pathPostings path t).map PostingEntry.masks = m.toList := by
  refine masks_eq_toList ((h.lookup_ascending t).sublist filter_sublist) ?_ fun masks => ?_
  · intro a ha b hb
    exact h.filePath_injective (mem_pathPostings.mp ha).2 (mem_pathPostings.mp hb).2
  · rw [← hm]
    constructor
    · rintro ⟨e, he, rfl⟩
      exact ⟨e, (mem_pathPostings.mp he).1, (mem_pathPostings.mp he).2, rfl⟩
    · rintro ⟨e, he, hpath, hmasks⟩
      refine ⟨e, mem_pathPostings.mpr ⟨he, hpath⟩, ?_⟩
      rw [PostingEntry.masks, (Prod.mk.inj hmasks).1, (Prod.mk.inj hmasks).2]

/-- Readers that say the same about a path have the same masks for it. -/
lemma WellFormed.pathPostings_congr (h : r.WellFormed) (h' : r'.WellFormed) {t : TrigramHash}
    (hview : ∀ masks, (path, masks) ∈ r'.view.posts t ↔ (path, masks) ∈ r.view.posts t) :
    (r'.pathPostings path t).map PostingEntry.masks =
      (r.pathPostings path t).map PostingEntry.masks := by
  have hchoice : ∃ m : Option TrigramMasks, ∀ masks : TrigramMasks,
      (path, masks.locMask, masks.nextMask) ∈ r.view.posts t ↔ m = some masks := by
    by_cases hsome : ∃ masks : TrigramMasks, (path, masks.locMask, masks.nextMask) ∈ r.view.posts t
    · obtain ⟨masks, e, he, hpath, hmasks⟩ := hsome
      refine ⟨some masks, fun masks' => ?_⟩
      constructor
      · rintro ⟨e', he', hpath', hmasks'⟩
        have hsame : e' = e :=
          (h.lookup_ascending t).eq_of_key_eq he' he (h.filePath_injective hpath' hpath)
        rw [hsame, hmasks] at hmasks'
        obtain ⟨hloc, hnext⟩ := Prod.mk.inj hmasks'
        cases masks
        cases masks'
        simp_all
      · rintro heq
        obtain rfl := Option.some.inj heq
        exact ⟨e, he, hpath, hmasks⟩
    · refine ⟨none, fun masks => ?_⟩
      simp only [reduceCtorEq, iff_false]
      exact fun hmem => hsome ⟨masks, hmem⟩
  obtain ⟨m, hm⟩ := hchoice
  rw [h.pathPostings_masks hm, h'.pathPostings_masks fun masks => (hview _).trans (hm masks)]

lemma contents_of_mem (hpath : path ∈ r.filePaths) :
    r.contents path = some fun t => (r.pathPostings path t).map PostingEntry.masks := if_pos hpath

lemma contents_eq_none : r.contents path = none ↔ path ∉ r.filePaths := by
  unfold contents
  split_ifs with hpath
  · simp [hpath]
  · simp [hpath]

end IndexReader

/-! ## Deltas and merges -/

section Build

variable {κ : Type} {x : Extraction κ} {files : List (String × IndexRead)}

/-- **What a delta holds**: the texts that were read. -/
theorem DeltaOf.contents {r : IndexReader} (h : DeltaOf x files r)
    (hnodup : (files.map Prod.fst).Nodup) {path : String} {text : List UInt8}
    (htext : (path, text) ∈ textsOf x files) : r.contents path = some (textMasks text) := by
  have hpath : path ∈ r.filePaths := by
    rw [h.paths]
    exact List.mem_map.mpr ⟨_, htext, rfl⟩
  rw [contents_of_mem hpath]
  refine congrArg some (funext fun t => ?_)
  refine h.wellFormed.pathPostings_masks fun masks => ?_
  rw [h.posts]
  constructor
  · rintro ⟨text', m, htext', hm, hmasks⟩
    have hsame : text' = text := by
      have := inj_on_of_nodup_map (nodup_textsOf x hnodup) htext' htext rfl
      exact (Prod.mk.inj this).2
    subst hsame
    rw [hm]
    obtain ⟨hloc, hnext⟩ := Prod.mk.inj hmasks
    cases m
    cases masks
    simp_all
  · exact fun hm => ⟨text, masks, htext, hm, rfl⟩

/-- A delta holds nothing else. -/
lemma DeltaOf.mem_filePaths {r : IndexReader} (h : DeltaOf x files r) {path : String} :
    path ∈ r.filePaths ↔ ∃ text, (path, text) ∈ textsOf x files := by
  rw [h.paths, mem_map]
  constructor
  · rintro ⟨⟨p, text⟩, htext, rfl⟩
    exact ⟨text, htext⟩
  · rintro ⟨text, htext⟩
    exact ⟨(path, text), htext, rfl⟩

variable {reader delta r : IndexReader} {removed : Finset String} {path : String}

/-- The files of a merged index. -/
lemma MergedFrom.mem_filePaths (h : MergedFrom reader delta removed r) :
    path ∈ r.filePaths ↔ path ∈ delta.filePaths ∨ path ∈ reader.filePaths ∧ path ∉ removed := by
  rw [h.paths, mem_append, mem_filter, decide_eq_true_eq]
  exact or_comm

/-- **What a merged index holds**: what the delta holds, and of what is left what the reader
holds. -/
theorem MergedFrom.contents_eq (h : MergedFrom reader delta removed r) (hr : reader.WellFormed)
    (hd : delta.WellFormed) :
    r.contents path =
      if path ∈ delta.filePaths then delta.contents path
      else if path ∈ removed then none else reader.contents path := by
  split_ifs with hdelta hremoved
  · rw [contents_of_mem hdelta, contents_of_mem (h.mem_filePaths.mpr (.inl hdelta))]
    refine congrArg some (funext fun t => hd.pathPostings_congr h.wellFormed fun masks => ?_)
    rw [h.posts, if_pos hdelta]
  · rw [contents_eq_none, h.mem_filePaths]
    simp [hdelta, hremoved]
  · by_cases hreader : path ∈ reader.filePaths
    · rw [contents_of_mem hreader, contents_of_mem (h.mem_filePaths.mpr (.inr ⟨hreader, hremoved⟩))]
      refine congrArg some (funext fun t => hr.pathPostings_congr h.wellFormed fun masks => ?_)
      rw [h.posts, if_neg hdelta]
      simp [hreader, hremoved]
    · rw [contents_eq_none.mpr hreader, contents_eq_none, h.mem_filePaths]
      simp [hdelta, hreader]

end Build

/-! ## The hybrid index -/

namespace LiveIndex

variable {s : LiveIndex} {path : String}

/-- The overlay postings of a path with an entry. -/
lemma Rep.lookup_path (h : s.Rep) {fid : UInt32} (hfid : s.pathToId.get? path = some fid)
    (t : TrigramHash) :
    ((s.lookupTrigramWithMasks t).filter fun e => decide (s.filePath e.fileId = some path)).map
      PostingEntry.masks = (s.postingOf fid t).toList := by
  have hname : ∀ {e : PostingEntry}, s.filePath e.fileId = some path ↔ e.fileId = fid := by
    intro e
    rw [filePath, ← h.inverse, hfid, Option.some.injEq, eq_comm]
  refine masks_eq_toList ((s.lookup_ascending t).sublist filter_sublist) ?_ fun masks => ?_
  · intro a ha b hb
    rw [mem_filter, decide_eq_true_eq, hname] at ha hb
    rw [ha.2, hb.2]
  · simp only [mem_filter, decide_eq_true_eq, hname, mem_lookupTrigramWithMasks]
    constructor
    · rintro ⟨e, ⟨⟨hpost, he⟩, rfl⟩, rfl⟩
      rw [postingOf_eq_some hpost, he]
      rfl
    · intro hm
      have hpost : s.HasPostingOf t fid := by
        by_contra hnone
        rw [postingOf_eq_none hnone] at hm
        cases hm
      rw [postingOf_eq_some hpost] at hm
      exact ⟨s.posting t fid, ⟨⟨hpost, rfl⟩, rfl⟩, Option.some.inj hm⟩

/-- A path without an entry has no overlay postings. -/
lemma Rep.lookup_path_eq_nil (h : s.Rep) (hnone : s.pathToId.get? path = none) (t : TrigramHash) :
    ((s.lookupTrigramWithMasks t).filter fun e => decide (s.filePath e.fileId = some path)) = [] := by
  rw [filter_eq_nil_iff]
  intro e _
  rw [decide_eq_true_eq, filePath, ← h.inverse, hnone]
  simp

/-- The tables are consistent, and the next id is new. -/
structure Consistent (s : LiveIndex) : Prop where
  rep : s.Rep
  fresh : s.Fresh

lemma new_consistent : LiveIndex.new.Consistent := ⟨new_rep, new_fresh⟩

/-- Mutations below the overlay bit keep the tables consistent. -/
lemma Consistent.apply (h : s.Consistent) {op : Op} (hop : op.BelowBit s) :
    (op.apply s).Consistent :=
  ⟨(Op.apply_rep h.rep h.fresh hop).1, (Op.apply_rep h.rep h.fresh hop).2⟩

/-- So do removals, at any time. -/
lemma Consistent.remove (h : s.Consistent) {op : Op} (hop : op.isUpsert = false) :
    (op.apply s).Consistent :=
  h.apply fun hup => absurd hup (by rw [hop]; decide)

lemma Consistent.resetDirtyCount (h : s.Consistent) : s.resetDirtyCount.Consistent :=
  ⟨⟨⟨h.rep.inverse, h.rep.overlay, h.rep.disjoint⟩, h.rep.postings.congr rfl rfl rfl⟩,
    ⟨h.fresh.counter, h.fresh.used⟩⟩

/-- An entry that a removal leaves keeps its id and its postings. -/
lemma Rep.entry_of_remove (h : s.Rep) {op : Op} (hop : op.isUpsert = false) {fid : UInt32}
    (hget : (op.apply s).pathToId.get? path = some fid) :
    s.pathToId.get? path = some fid ∧ (op.apply s).view.entry path = s.view.entry path := by
  cases op with
  | deleteFile relPath =>
    have hids : (s.deleteFile relPath).pathToId.get? path =
        if path = relPath then none else s.pathToId.get? path := by
      rw [← (removeOverlayEntry_frame h relPath).2.2]
      rfl
    rw [Op.apply, hids] at hget
    split_ifs at hget with hpath
    rw [Op.apply, view_deleteFile h, Overlay.entry_delete, if_neg hpath]
    exact ⟨hget, rfl⟩
  | removeOverlayEntry relPath =>
    rw [Op.apply, (removeOverlayEntry_frame h relPath).2.2] at hget
    split_ifs at hget with hpath
    rw [Op.apply, view_removeOverlayEntry h, Overlay.entry_remove, if_neg (by simpa using hpath)]
    exact ⟨hget, rfl⟩
  | batchRemoveOverlayEntries paths =>
    rw [Op.apply, (batchRemoveOverlayEntries_spec h paths).2.2.2.1] at hget
    split_ifs at hget with hpath
    rw [Op.apply, view_batchRemoveOverlayEntries h, Overlay.entry_remove, if_neg hpath]
    exact ⟨hget, rfl⟩
  | clearReconciledPaths paths =>
    have hids : (s.clearReconciledPaths paths).pathToId.get? path =
        if path ∈ paths then none else s.pathToId.get? path := by
      rw [← (batchRemoveOverlayEntries_spec h paths).2.2.2.1]
      rfl
    rw [Op.apply, hids] at hget
    split_ifs at hget with hpath
    rw [Op.apply, view_clearReconciledPaths h]
    exact ⟨hget, if_neg hpath⟩
  | tryDropAllPersisted readerPaths =>
    rw [Op.apply, tryDropAllPersisted] at hget ⊢
    split_ifs at hget ⊢ with hkeys hdel
    · exact ⟨hget, rfl⟩
    · cases hget
    · exact ⟨hget, rfl⟩
  | _ => simp [Op.isUpsert] at hop

lemma hasPath_eq_true : s.hasPath path = true ↔ ∃ fid, s.pathToId.get? path = some fid := by
  rw [hasPath, FinMap.contains_iff, FinMap.mem_keys]

lemma hasPath_eq_false : s.hasPath path = false ↔ s.pathToId.get? path = none := by
  rw [hasPath, FinMap.contains]
  cases s.pathToId.get? path <;> simp

lemma view_entry_eq_none : s.view.entry path = none ↔ s.pathToId.get? path = none :=
  Option.map_eq_none_iff

end LiveIndex

namespace HybridIndex

variable {h : HybridIndex} {path : String}

/-- The active paths, with the masks of each trigram. -/
def contents (h : HybridIndex) : Contents := fun path =>
  if h.hasActivePath path then some fun t => (h.pathPostings path t).map PostingEntry.masks
  else none

/-- **A hybrid index holds what its reader holds under its overlay.**

**Proof sketch.** An entry hides the reader file of its path, a tombstone too, and otherwise the
overlay has no posting of the path. -/
theorem contents_eq (hr : h.live.Rep) : h.contents = h.live.view.over h.reader.contents := by
  funext path
  have hfilter : ∀ t, (h.reader.lookupTrigramWithMasks t).filter (fun e =>
      h.readerEntryActive e.fileId && decide (h.reader.filePath e.fileId = some path)) =
        if h.live.hasPath path || h.live.isDeleted path then []
        else h.reader.pathPostings path t := by
    intro t
    split_ifs with hhidden
    · rw [filter_eq_nil_iff]
      intro e _
      by_cases hp : h.reader.filePath e.fileId = some path
      · cases hhas : h.live.hasPath path <;> cases hdel : h.live.isDeleted path <;>
          simp_all [readerEntryActive]
      · simp [hp]
    · refine filter_congr fun e _ => ?_
      by_cases hp : h.reader.filePath e.fileId = some path
      · cases hhas : h.live.hasPath path <;> cases hdel : h.live.isDeleted path <;>
          simp_all [readerEntryActive]
      · simp [hp]
  unfold contents pathPostings Overlay.over
  simp only [hfilter, hasActivePath]
  cases hget : h.live.pathToId.get? path with
  | some fid =>
    have hhas : h.live.hasPath path = true := LiveIndex.hasPath_eq_true.mpr ⟨fid, hget⟩
    rw [show h.live.view.entry path = some _ from congrArg (Option.map _) hget]
    simp only [hhas, if_true, Bool.true_or, nil_append, hr.lookup_path hget]
    rfl
  | none =>
    have hhas : h.live.hasPath path = false := LiveIndex.hasPath_eq_false.mpr hget
    rw [LiveIndex.view_entry_eq_none.mpr hget]
    simp only [hhas, Bool.false_eq_true, if_false, Bool.false_or, hr.lookup_path_eq_nil hget,
      append_nil]
    change _ = if path ∈ h.live.deletedPaths then none else h.reader.contents path
    by_cases hdel : path ∈ h.live.deletedPaths
    · have hisdel : h.live.isDeleted path = true := decide_eq_true hdel
      simp only [hisdel, if_true, Bool.false_eq_true, if_false, if_pos hdel]
    · have hisdel : h.live.isDeleted path = false := decide_eq_false hdel
      simp only [hisdel, Bool.false_eq_true, if_false, if_neg hdel]
      by_cases hmem : path ∈ h.reader.filePaths
      · rw [if_pos (IndexReader.containsPath_iff.mpr hmem), IndexReader.contents_of_mem hmem]
      · rw [if_neg (fun hc => hmem (IndexReader.containsPath_iff.mp hc)),
          IndexReader.contents_eq_none.mpr hmem]

/-! ## Pruning -/

instance (h : HybridIndex) (preserved : Finset String) : Decidable (h.DropsAll preserved) :=
  inferInstanceAs (Decidable (_ ∧ _))

/-- Pruning leaves the reader alone. -/
lemma reader_prune (h : HybridIndex) (preserved : Finset String) :
    (h.prunePersistedEntriesExcept preserved).reader = h.reader := by
  by_cases hall : h.DropsAll preserved
  · rw [prune_of_dropsAll hall]
  · rw [prune_of_not_dropsAll hall]

/-- **The overlay after pruning**: if it is dropped as a whole nothing is left of it, else the
entries of the reader's paths that are not preserved are gone. -/
theorem view_prune (hr : h.live.Rep) (preserved : Finset String) :
    (h.DropsAll preserved ∧
        (h.prunePersistedEntriesExcept preserved).live.view = Overlay.empty) ∨
      ¬ h.DropsAll preserved ∧ (h.prunePersistedEntriesExcept preserved).live.view =
        h.live.view.remove (h.toRemove preserved) := by
  by_cases hall : h.DropsAll preserved
  · rw [prune_of_dropsAll hall]
    exact .inl ⟨hall, rfl⟩
  · rw [prune_of_not_dropsAll hall]
    exact .inr ⟨hall, view_batchRemoveOverlayEntries hr _⟩

lemma mem_toRemove {preserved : Finset String} :
    path ∈ h.toRemove preserved ↔
      h.live.hasPath path = true ∧ path ∈ h.reader.filePaths ∧ path ∉ preserved := by
  rw [toRemove, mem_filter, Finset.mem_sort, decide_eq_true_eq, mem_prunedPaths,
    hasPath, FinMap.contains_iff]

/-- Pruning is one of the removals of the overlay. -/
lemma prune_live (h : HybridIndex) (preserved : Finset String) :
    ∃ op : LiveIndex.Op, op.isUpsert = false ∧
      (h.prunePersistedEntriesExcept preserved).live = op.apply h.live := by
  by_cases hall : h.DropsAll preserved
  · refine ⟨.tryDropAllPersisted (h.prunedPaths preserved), rfl, ?_⟩
    rw [prune_of_dropsAll hall, LiveIndex.Op.apply, tryDropAllPersisted,
      if_neg (not_not.mpr hall.1), if_neg]
    · rfl
    · rintro ⟨path, hpath, hmem⟩
      exact hall.2 path hpath hmem
  · refine ⟨.batchRemoveOverlayEntries (h.toRemove preserved), rfl, ?_⟩
    rw [prune_of_not_dropsAll hall]
    rfl

end HybridIndex

end Tgrep
