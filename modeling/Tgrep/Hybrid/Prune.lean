import Tgrep.Hybrid.Query

/-!
# Pruning persisted overlay entries

After a flush the overlay entries that the new reader has are dropped, except for preserved paths,
whose overlay entries may be newer than the reader's copies. Pruning must not change what is
active.

## Main definitions

* `HybridIndex.pathPostings`: the postings of a trigram that belong to a path.
* `HybridIndex.PruneKeeps`: what pruning must keep.
* `HybridIndex.DropsAll`, `HybridIndex.DropsTombstone`: pruning drops the whole overlay, and with
  it the tombstone of a preserved path.

## Main results

* `HybridIndex.pruneKeeps_iff`: pruning keeps what it must exactly if it drops no tombstone of a
  preserved path.
* `HybridIndex.prunePersistedEntriesExcept_run`: the same over any run of the overlay.
* `HybridIndex.prunePersistedEntriesExcept_resurrects`: a deleted file that becomes active again.
-/

namespace Tgrep

open FinMap List LiveIndex

namespace HybridIndex

/-- The postings of a trigram that belong to a path: those of its active reader file, and those of
its overlay file. -/
def pathPostings (h : HybridIndex) (path : String) (t : UInt32) : List PostingEntry :=
  ((h.reader.lookupTrigramWithMasks t).filter fun e =>
      h.readerEntryActive e.fileId && decide (h.reader.filePath e.fileId = some path)) ++
    (h.live.lookupTrigramWithMasks t).filter fun e => decide (h.live.filePath e.fileId = some path)

/-- What pruning `h` to `h'` must keep. -/
structure PruneKeeps (h h' : HybridIndex) (preserved : Finset String) : Prop where
  /-- A tombstoned path that the reader has does not become active. -/
  tombstoned : ∀ path, h.live.isDeleted path = true → h.reader.containsPath path = true →
    h'.hasActivePath path = false
  /-- The overlay entries of preserved paths are kept. -/
  entries : ∀ path ∈ preserved, h'.live.pathToId.get? path = h.live.pathToId.get? path
  /-- The tombstones of preserved paths are kept. -/
  tombstones : ∀ path ∈ preserved, h'.live.isDeleted path = h.live.isDeleted path
  /-- The active paths are the same. -/
  active : ∀ path, h'.hasActivePath path = h.hasActivePath path
  /-- Preserved paths have the same postings. -/
  postings : ∀ path ∈ preserved, ∀ t, h'.pathPostings path t = h.pathPostings path t

/-- The reader paths that pruning considers. -/
def prunedPaths (h : HybridIndex) (preserved : Finset String) : Finset String :=
  h.reader.filePaths.toFinset.filter fun path => path ∉ preserved

/-- Every overlay entry is at a reader path that is not preserved, and no tombstone is. -/
def DropsAll (h : HybridIndex) (preserved : Finset String) : Prop :=
  h.live.pathToId.keys ⊆ h.prunedPaths preserved ∧
    ∀ path ∈ h.live.deletedPaths, path ∉ h.prunedPaths preserved

/-- Pruning drops the whole overlay although a preserved path is tombstoned. -/
def DropsTombstone (h : HybridIndex) (preserved : Finset String) : Prop :=
  h.DropsAll preserved ∧ ∃ path ∈ preserved, path ∈ h.live.deletedPaths

variable {h : HybridIndex} {preserved : Finset String}

lemma mem_prunedPaths {path : String} :
    path ∈ h.prunedPaths preserved ↔ path ∈ h.reader.filePaths ∧ path ∉ preserved := by
  rw [prunedPaths, Finset.mem_filter, mem_toFinset]

/-- Whether a path is active, in terms of membership. -/
lemma hasActivePath_eq_true {path : String} :
    h.hasActivePath path = true ↔ h.live.hasPath path = true ∨
      h.live.isDeleted path = false ∧ path ∈ h.reader.filePaths := by
  rw [hasActivePath, ← IndexReader.containsPath_iff]
  cases h.live.hasPath path <;> cases h.live.isDeleted path <;> simp

/-! ## Postings of a path -/

/-- Changes of the overlay that keep the entry, the tombstone and the postings of a path keep what
the hybrid index says about it. -/
lemma pathPostings_congr {reader : IndexReader} {live live' : LiveIndex} (hr : live.Rep)
    (hr' : live'.Rep) (hkeeps : LiveIndex.KeepsPostings live live') {path : String}
    (hentry : live'.pathToId.get? path = live.pathToId.get? path)
    (hdel : live'.isDeleted path = live.isDeleted path) (t : UInt32) :
    pathPostings ⟨reader, live'⟩ path t = pathPostings ⟨reader, live⟩ path t := by
  have hhas : live'.hasPath path = live.hasPath path := by
    apply Bool.eq_iff_iff.mpr
    rw [hasPath, hasPath, contains_iff, contains_iff, FinMap.mem_keys, FinMap.mem_keys, hentry]
  unfold pathPostings
  congr 1
  · apply filter_congr
    intro e _
    by_cases hp : reader.filePath e.fileId = some path
    · simp only [readerEntryActive, hp, hhas, hdel]
    · simp only [hp, decide_false, Bool.and_false]
  · refine ((live'.lookup_ascending t).sublist filter_sublist).eq_of_mem_iff
      ((live.lookup_ascending t).sublist filter_sublist) fun e => ?_
    have hid' : live'.filePath e.fileId = some path ↔ live.pathToId.get? path = some e.fileId := by
      rw [filePath, ← hr'.inverse, hentry]
    have hid : live.filePath e.fileId = some path ↔ live.pathToId.get? path = some e.fileId := by
      rw [filePath, ← hr.inverse]
    rw [mem_filter, mem_filter, decide_eq_true_eq, decide_eq_true_eq, hid', hid,
      mem_lookupTrigramWithMasks, mem_lookupTrigramWithMasks]
    refine and_congr_left fun hid => ?_
    have hlive : e.fileId ∈ live'.filePaths.keys :=
      mem_keys_of_get? ((hr'.inverse path e.fileId).mp (hentry.trans hid))
    obtain ⟨hpost, hmask⟩ := hkeeps e.fileId hlive t
    rw [hpost, posting, posting, getMasks, getMasks, hmask]

/-! ## The two ways of pruning -/

/-- The overlay after everything was dropped. -/
def droppedOverlay (live : LiveIndex) : LiveIndex :=
  { LiveIndex.new with nextId := live.nextId, dirtyCount := live.dirtyCount }

/-- The overlay entries that are removed one by one. -/
def toRemove (h : HybridIndex) (preserved : Finset String) : List String :=
  h.live.pathToId.keys.sort.filter fun path => path ∈ h.prunedPaths preserved

lemma prune_of_dropsAll (hall : h.DropsAll preserved) :
    h.prunePersistedEntriesExcept preserved = ⟨h.reader, droppedOverlay h.live⟩ := by
  have hdrop : h.live.tryDropAllPersisted (h.prunedPaths preserved) =
      (droppedOverlay h.live, true) := by
    rw [tryDropAllPersisted, if_neg (not_not.mpr hall.1), if_neg]
    · rfl
    · rintro ⟨path, hpath, hmem⟩
      exact hall.2 path hpath hmem
  unfold prunePersistedEntriesExcept
  rw [show h.reader.filePaths.toFinset.filter (fun path => path ∉ preserved) =
    h.prunedPaths preserved from rfl]
  simp only [hdrop]

lemma prune_of_not_dropsAll (hall : ¬ h.DropsAll preserved) :
    h.prunePersistedEntriesExcept preserved =
      ⟨h.reader, h.live.batchRemoveOverlayEntries (h.toRemove preserved)⟩ := by
  have hdrop : h.live.tryDropAllPersisted (h.prunedPaths preserved) = (h.live, false) := by
    rw [tryDropAllPersisted]
    by_cases hkeys : h.live.pathToId.keys ⊆ h.prunedPaths preserved
    · rw [if_neg (not_not.mpr hkeys), if_pos]
      by_contra hnone
      exact hall ⟨hkeys, fun path hpath hmem => hnone ⟨path, hpath, hmem⟩⟩
    · rw [if_pos hkeys]
  unfold prunePersistedEntriesExcept toRemove
  rw [show h.reader.filePaths.toFinset.filter (fun path => path ∉ preserved) =
    h.prunedPaths preserved from rfl]
  simp only [hdrop]

/-- Dropping everything keeps what it must if no preserved path is tombstoned. -/
lemma pruneKeeps_dropped (hr : h.live.Rep) (hall : h.DropsAll preserved)
    (htomb : ∀ path ∈ preserved, path ∉ h.live.deletedPaths) :
    PruneKeeps h ⟨h.reader, droppedOverlay h.live⟩ preserved := by
  have hr' : (droppedOverlay h.live).Rep :=
    ⟨⟨new_rep.inverse, new_rep.overlay, new_rep.disjoint⟩,
      new_rep.postings.congr rfl rfl rfl⟩
  -- tombstones are neither at preserved paths nor at other reader paths
  have hdel : ∀ path ∈ h.live.deletedPaths, path ∉ h.reader.filePaths := by
    intro path hpath hreader
    refine hall.2 path hpath (mem_prunedPaths.mpr ⟨hreader, fun hmem => htomb path hmem hpath⟩)
  have hlive : ∀ path, h.live.hasPath path = true →
      path ∈ h.reader.filePaths ∧ path ∉ preserved := by
    intro path hpath
    exact mem_prunedPaths.mp (hall.1 (contains_iff.mp hpath))
  have hentry : ∀ path ∈ preserved,
      (droppedOverlay h.live).pathToId.get? path = h.live.pathToId.get? path := by
    intro path hpath
    cases hget : h.live.pathToId.get? path with
    | none => rfl
    | some fid =>
      have hhas : h.live.hasPath path = true :=
        contains_iff.mpr (mem_keys_of_get? hget)
      exact absurd hpath (hlive path hhas).2
  have hisDeleted : ∀ path ∈ preserved,
      (droppedOverlay h.live).isDeleted path = h.live.isDeleted path := by
    intro path hpath
    simp [isDeleted, htomb path hpath, droppedOverlay, new]
  have hactive : ∀ path,
      hasActivePath ⟨h.reader, droppedOverlay h.live⟩ path = h.hasActivePath path := by
    intro path
    have hnone : (droppedOverlay h.live).hasPath path = false := rfl
    have hundeleted : (droppedOverlay h.live).isDeleted path = false := by
      simp [isDeleted, droppedOverlay, new]
    apply Bool.eq_iff_iff.mpr
    rw [hasActivePath_eq_true, hasActivePath_eq_true]
    simp only [hnone, hundeleted, Bool.false_eq_true, false_or, true_and]
    constructor
    · intro hreader
      refine .inr ⟨?_, hreader⟩
      rw [isDeleted, decide_eq_false_iff_not]
      exact fun hpath => hdel path hpath hreader
    · rintro (hpath | ⟨-, hreader⟩)
      · exact (hlive path hpath).1
      · exact hreader
  refine ⟨?_, hentry, hisDeleted, hactive, ?_⟩
  · intro path hpath hcontains
    exact absurd (IndexReader.containsPath_iff.mp hcontains) (hdel path (of_decide_eq_true hpath))
  · intro path hpath t
    refine pathPostings_congr hr hr' (fun fid hfid => ?_) (hentry path hpath)
      (hisDeleted path hpath) t
    exact absurd hfid (Finset.notMem_empty fid)

/-- Removing the entries that the reader has keeps what it must. -/
lemma pruneKeeps_removed (hr : h.live.Rep) :
    PruneKeeps h ⟨h.reader, h.live.batchRemoveOverlayEntries (h.toRemove preserved)⟩ preserved := by
  obtain ⟨hr', -, hdel, hids, -, hkeeps⟩ :=
    batchRemoveOverlayEntries_spec hr (h.toRemove preserved)
  have hmem : ∀ path, path ∈ h.toRemove preserved ↔
      h.live.hasPath path = true ∧ path ∈ h.reader.filePaths ∧ path ∉ preserved := by
    intro path
    rw [toRemove, mem_filter, Finset.mem_sort, decide_eq_true_eq, mem_prunedPaths,
      hasPath, contains_iff]
  have hentry : ∀ path ∈ preserved,
      (h.live.batchRemoveOverlayEntries (h.toRemove preserved)).pathToId.get? path =
        h.live.pathToId.get? path := by
    intro path hpath
    rw [hids, if_neg]
    exact fun hrem => ((hmem path).mp hrem).2.2 hpath
  have hisDeleted : ∀ path,
      (h.live.batchRemoveOverlayEntries (h.toRemove preserved)).isDeleted path =
        h.live.isDeleted path := by
    intro path
    rw [isDeleted, isDeleted, hdel]
  have hhas : ∀ path,
      (h.live.batchRemoveOverlayEntries (h.toRemove preserved)).hasPath path = true ↔
        h.live.hasPath path = true ∧ path ∉ h.toRemove preserved := by
    intro path
    rw [hasPath, hasPath, contains_iff, contains_iff, FinMap.mem_keys, FinMap.mem_keys, hids]
    split_ifs with hrem
    · simp [hrem]
    · simp [hrem]
  have hactive : ∀ path,
      hasActivePath ⟨h.reader, h.live.batchRemoveOverlayEntries (h.toRemove preserved)⟩ path =
        h.hasActivePath path := by
    intro path
    apply Bool.eq_iff_iff.mpr
    rw [hasActivePath_eq_true, hasActivePath_eq_true]
    simp only [hhas, hisDeleted, hmem]
    constructor
    · rintro (⟨hpath, -⟩ | hreader)
      · exact .inl hpath
      · exact .inr hreader
    · rintro (hpath | hreader)
      · -- an entry that is removed is not tombstoned, and the reader has its path
        by_cases hrem : path ∈ h.reader.filePaths ∧ path ∉ preserved
        · exact .inr ⟨hr.not_isDeleted hpath, hrem.1⟩
        · exact .inl ⟨hpath, fun hand => hrem hand.2⟩
      · exact .inr hreader
  refine ⟨?_, hentry, fun path _ => hisDeleted path, hactive, ?_⟩
  · intro path hpath _
    rw [hactive, ← Bool.not_eq_true, hasActivePath_eq_true]
    rintro (hlive | ⟨hnot, -⟩)
    · exact absurd hpath (by rw [hr.not_isDeleted hlive]; decide)
    · exact absurd hpath (by rw [hnot]; decide)
  · intro path hpath t
    exact pathPostings_congr hr hr' hkeeps (hentry path hpath) (hisDeleted path) t

/-- **What pruning keeps**: everything it must, unless it drops the whole overlay although a
preserved path is tombstoned. -/
theorem pruneKeeps_iff (hr : h.live.Rep) :
    PruneKeeps h (h.prunePersistedEntriesExcept preserved) preserved ↔
      ¬ h.DropsTombstone preserved := by
  constructor
  · rintro hkeeps ⟨hall, path, hpath, htomb⟩
    rw [prune_of_dropsAll hall] at hkeeps
    have hdel := hkeeps.tombstones path hpath
    simp [isDeleted, htomb, droppedOverlay, new] at hdel
  · intro hdrops
    by_cases hall : h.DropsAll preserved
    · rw [prune_of_dropsAll hall]
      refine pruneKeeps_dropped hr hall fun path hpath htomb => ?_
      exact hdrops ⟨hall, path, hpath, htomb⟩
    · rw [prune_of_not_dropsAll hall]
      exact pruneKeeps_removed hr

/-! ## Runs -/

/-- **Pruning over runs**: under every reader and after every run of the overlay whose upserts are
made below the overlay bit, pruning keeps what it must exactly if it does not drop the whole overlay
although a preserved path is tombstoned. -/
theorem prunePersistedEntriesExcept_run (reader : IndexReader) (ops : List LiveIndex.Op)
    (preserved : Finset String) (hops : History.BelowBit ops) :
    PruneKeeps ⟨reader, (History.run ops).index⟩
        (prunePersistedEntriesExcept ⟨reader, (History.run ops).index⟩ preserved) preserved ↔
      ¬ DropsTombstone ⟨reader, (History.run ops).index⟩ preserved :=
  pruneKeeps_iff (History.run_inv hops).rep

/-- A preserved tombstone is kept if the overlay has an entry that the reader lacks. -/
theorem prunePersistedEntriesExcept_run_single :
    PruneKeeps
      ⟨IndexReader.single, (History.run [.upsertFileWithTrigrams "b" [7] fun _ => 3,
        .deleteFile "a"]).index⟩
      (prunePersistedEntriesExcept
        ⟨IndexReader.single, (History.run [.upsertFileWithTrigrams "b" [7] fun _ => 3,
          .deleteFile "a"]).index⟩ {"a"}) {"a"} := by
  refine (prunePersistedEntriesExcept_run _ _ _ ?_).mpr ?_
  · rw [History.BelowBit]
    refine ⟨fun _ => ?_, fun h => ?_, trivial⟩
    · decide
    · cases h
  · rintro ⟨⟨hkeys, -⟩, -⟩
    revert hkeys
    decide +kernel

/-- **A deleted file becomes active again**: the reader has `a`, its deletion is in the overlay,
and `a` is preserved. Pruning drops the tombstone. -/
theorem prunePersistedEntriesExcept_resurrects :
    History.BelowBit [.deleteFile "a"] ∧
      ¬ PruneKeeps ⟨IndexReader.single, (History.run [.deleteFile "a"]).index⟩
        (prunePersistedEntriesExcept ⟨IndexReader.single, (History.run [.deleteFile "a"]).index⟩ {"a"})
        {"a"} := by
  constructor
  · rw [History.BelowBit]
    refine ⟨fun h => ?_, trivial⟩
    cases h
  · intro hkeeps
    have hactive := hkeeps.active "a"
    revert hactive
    decide +kernel

end HybridIndex

end Tgrep
