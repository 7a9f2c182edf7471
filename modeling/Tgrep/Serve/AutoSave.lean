import Tgrep.Serve.Duplicates

/-!
# What an auto-save keeps

An auto-save merges what the overlay knows about and nothing else. It does not know which files
there are, so a path that it has no read of must stay as it is.

## Main definitions

* `ServerState.Pending`: the overlay has an entry or a tombstone for the path.
* `ServerState.DropsOverlay`: the save drops the whole overlay.
* `ServerState.AutoSaved`: what an auto-save keeps and changes.
* `ServerState.listedStart`, `ServerState.savedText`: a file that is listed, and text when it is read.

## Main results

* `ServerState.persistPendingIndexChanges_saved`: an auto-save that succeeds.
* `ServerState.persistPendingIndexChanges_restores`: a tombstoned file that is text becomes active.

## Implementation notes

Two cases are left open. An entry without a stamp, which a failed read leaves behind, is not kept. A
tombstoned file of the reader that cannot be read comes back when the whole overlay is dropped.
-/

namespace Tgrep

namespace ServerState

variable {κ : Type}

/-- The overlay has an entry or a tombstone for the path. -/
def Pending (s : ServerState κ) (path : String) : Prop :=
  s.index.live.hasPath path = true ∨ s.index.live.isDeleted path = true

/-- Reading the path gave text. -/
def ReadAsText (cfg : ServeConfig κ) (io : MergeIO) (path : String) : Prop :=
  ∃ v text, Merged.settledRead cfg io path = some (v, some text)

/-- The save drops the whole overlay: every entry was read as text, and no tombstone was. -/
def DropsOverlay (cfg : ServeConfig κ) (io : MergeIO) (s : ServerState κ) : Prop :=
  (∀ path, s.index.live.hasPath path = true →
      path ∈ s.fileEvidence.stamps.keys ∧ ReadAsText cfg io path) ∧
    ∀ path, s.index.live.isDeleted path = true →
      ¬ (path ∈ s.fileEvidence.stamps.keys ∧ ReadAsText cfg io path)

/-- What an auto-save keeps and changes. -/
structure AutoSaved (cfg : ServeConfig κ) (io : MergeIO) (s s' : ServerState κ) : Prop where
  /-- A path that the overlay knows nothing about is held as before. -/
  untouched : ∀ path, ¬ s.Pending path → s'.index.contents path = s.index.contents path
  /-- A file that was read and is text is held with the postings of this read. -/
  text : ∀ path v text, s.Pending path → path ∈ s.fileEvidence.stamps.keys →
    Merged.settledRead cfg io path = some (v, some text) →
      s'.index.contents path = some (textMasks text)
  /-- A file that was read and is binary is not held. -/
  binary : ∀ path v, s.Pending path → path ∈ s.fileEvidence.stamps.keys →
    Merged.settledRead cfg io path = some (v, none) → s'.index.contents path = none
  /-- A file that could not be read is held as before, unless it is a tombstoned file of the reader
  and the save drops the whole overlay. -/
  unreadable : ∀ path, s.Pending path → path ∈ s.fileEvidence.stamps.keys →
    Merged.settledRead cfg io path = none →
      ¬ (s.index.live.isDeleted path = true ∧ path ∈ s.index.reader.filePaths ∧
        s.DropsOverlay cfg io) →
        s'.index.contents path = s.index.contents path
  /-- A tombstoned file without a stamp is not held. -/
  tombstoned : ∀ path, s.index.live.isDeleted path = true →
    path ∉ s.fileEvidence.stamps.keys → s'.index.contents path = none

variable {cfg : ServeConfig κ} {io : MergeIO} {s s' : ServerState κ} {policy : StaleMergePolicy}
  {candidates : List String} {outcome : FileDeltaOutcome κ} {plan : MergePlan κ}
  {delta reader : IndexReader} {path : String}

/-- The candidates of an auto-save. -/
lemma mem_autoSave_candidates :
    path ∈ s.mergeCandidates [] [] [] s.fileEvidence.stamps ⟨∅, false, none, []⟩ ↔
      s.Pending path := by
  rw [mem_mergeCandidates, Pending]
  simp

/-- If pruning drops the whole overlay, every entry was read as text and no tombstone was. -/
lemma dropsOverlay_of_dropsAll
    (m : Merged cfg io s s.fileEvidence
      (s.mergeCandidates [] [] [] s.fileEvidence.stamps ⟨∅, false, none, []⟩) ⟨∅, false, none, []⟩
        outcome plan delta reader s')
    (hall : HybridIndex.DropsAll ⟨reader, s.index.live⟩ plan.preserveOverlayPaths) :
    s.DropsOverlay cfg io := by
  -- a candidate that the new reader has and that is not preserved was read as text
  have hnew : ∀ path, s.Pending path → path ∉ plan.preserveOverlayPaths →
      (path ∈ reader.filePaths ↔ path ∈ s.fileEvidence.stamps.keys ∧ ReadAsText cfg io path) := by
    intro path hpending hnot
    have hread : path ∉ outcome.unreadable := fun hun =>
      hnot (m.mem_preserveOverlayPaths.mpr (.inr hun))
    have hcand := m.mem_candidates.mpr ⟨mem_autoSave_candidates.mpr hpending, hread⟩
    rw [m.mergedFrom.mem_filePaths, m.mem_removed, m.deltaOf.mem_filePaths]
    simp only [hcand, not_true_eq_false, and_false, or_false, m.mem_texts, true_and]
    constructor
    · rintro ⟨text, hstamp, v, hs⟩
      exact ⟨hstamp, v, text, hs⟩
    · rintro ⟨hstamp, v, text, hs⟩
      exact ⟨text, hstamp, v, hs⟩
  constructor
  · intro path hhas
    obtain ⟨hmem, hnot⟩ := HybridIndex.mem_prunedPaths.mp (hall.1 (FinMap.contains_iff.mp hhas))
    exact (hnew path (.inl hhas) hnot).mp hmem
  · rintro path hdel hread
    have hnot : path ∉ plan.preserveOverlayPaths := by
      rw [m.mem_preserveOverlayPaths, m.mem_unreadable]
      rintro (hmem | ⟨-, -, hnone⟩)
      · exact Finset.notMem_empty path hmem
      · obtain ⟨-, v, text, hs⟩ := hread
        rw [hs] at hnone
        cases hnone
    exact hall.2 path (of_decide_eq_true hdel)
      (HybridIndex.mem_prunedPaths.mpr ⟨(hnew path (.inr hdel) hnot).mpr hread, hnot⟩)

/-- **An auto-save that succeeds** changes what it has a read of, and keeps the rest. -/
theorem persistPendingIndexChanges_saved (cfg : ServeConfig κ) (io : MergeIO) (s s' : ServerState κ)
    (hlive : s.index.live.Consistent) (hreader : s.index.reader.WellFormed)
    (hpending : s.index.live.hasPendingChanges = true)
    (h : s.persistPendingIndexChanges cfg io = (s', true)) : AutoSaved cfg io s s' := by
  rw [persistPendingIndexChanges, if_pos hpending] at h
  obtain ⟨outcome, plan, delta, reader, m⟩ := streamMergeStaleChanges_cases hreader h
  have hcontents : ∀ path, s'.index.contents path = _ := fun path =>
    m.contents_eq hlive hreader nodup_mergeCandidates mem_candidates_or_preserved
  have hread : ∀ {path}, s.Pending path → (path ∈ plan.candidates ↔
      ¬ (path ∈ s.fileEvidence.stamps.keys ∧ Merged.settledRead cfg io path = none)) := by
    intro path hpath
    rw [m.mem_candidates, m.mem_unreadable, mem_autoSave_candidates]
    tauto
  refine ⟨fun path hpath => ?_, fun path v text hpath hstamp hs => ?_,
    fun path v hpath hstamp hs => ?_, fun path hpath hstamp hs hnot => ?_,
    fun path hdel hstamp => ?_⟩
  · have hcand : path ∉ plan.candidates := fun hmem =>
      hpath (mem_autoSave_candidates.mp (m.mem_candidates.mp hmem).1)
    rw [hcontents, if_neg hcand, if_neg]
    exact fun hand => hpath (.inr (decide_eq_true hand.2))
  · have hcand : path ∈ plan.candidates := (hread hpath).mpr fun hand => by simp [hs] at hand
    rw [hcontents, if_pos hcand, Merged.settledContents, if_pos hstamp, hs]
    rfl
  · have hcand : path ∈ plan.candidates := (hread hpath).mpr fun hand => by simp [hs] at hand
    rw [hcontents, if_pos hcand, Merged.settledContents, if_pos hstamp, hs]
    rfl
  · have hcand : path ∉ plan.candidates := fun hmem => (hread hpath).mp hmem ⟨hstamp, hs⟩
    rw [hcontents, if_neg hcand]
    split_ifs with hdrops
    · -- the reader does not have the path, so losing its tombstone does not matter
      have hdel : s.index.live.isDeleted path = true := decide_eq_true hdrops.2
      have hmem : path ∉ s.index.reader.filePaths := fun hmem =>
        hnot ⟨hdel, hmem, dropsOverlay_of_dropsAll m hdrops.1⟩
      rw [IndexReader.contents_eq_none.mpr hmem, HybridIndex.contents_eq hlive.rep]
      have hentry : s.index.live.view.entry path = none := by
        rw [LiveIndex.view_entry_eq_none, ← LiveIndex.hasPath_eq_false, ← Bool.not_eq_true]
        intro hhas
        rw [hlive.rep.not_isDeleted hhas] at hdel
        cases hdel
      exact (Overlay.over_deleted hentry hdrops.2).symm
    · rfl
  · have hcand : path ∈ plan.candidates := (hread (.inr hdel)).mpr fun hand => hstamp hand.1
    rw [hcontents, if_pos hcand, Merged.settledContents, if_neg hstamp]

/-! ## A file that is text again -/

/-- An auto-save that finds the same text in every file. -/
def savedText : MergeIO :=
  ⟨.ok (), 1000, fun _ _ => 0, fun _ => .read [97, 98, 99] (some plainVersion) false,
    ⟨"", .ok (2 ^ 40)⟩, true⟩

/-- A server with one file, which is listed but not indexed. -/
def listedStart : ServerState (List UInt8) :=
  { plainStart with
    index := ⟨.empty, (LiveIndex.Op.deleteFile "a").apply .new⟩
    fileEvidence := FileEvidence.empty.insert "a" ⟨0, 0⟩ none }

/-- What an auto-save keeps and changes of one listed file. -/
theorem persistPendingIndexChanges_saved_text :
    AutoSaved plainConfig savedText listedStart
      (listedStart.persistPendingIndexChanges plainConfig savedText).1 := by
  have hlive : listedStart.index.live.Consistent :=
    LiveIndex.new_consistent.remove (show (LiveIndex.Op.deleteFile "a").isUpsert = false from rfl)
  have hdone : (listedStart.persistPendingIndexChanges plainConfig savedText).2 = true := by
    decide +kernel
  exact persistPendingIndexChanges_saved plainConfig savedText listedStart _ hlive IndexReader.empty_wellFormed (by decide +kernel)
    (Prod.ext rfl hdone)

/-- **A file that turned binary and is text again** becomes active by an auto-save, although it was
not active before. -/
theorem persistPendingIndexChanges_restores :
    ∃ s : ServerState (List UInt8),
      s = [plainEvent "a" [97, 98, 99], plainEvent "a" [0]].foldl (Transition.apply plainConfig)
        plainStart ∧
      (s.persistPendingIndexChanges plainConfig savedText).2 = true ∧
      s.index.hasActivePath "a" = false ∧
      (s.persistPendingIndexChanges plainConfig savedText).1.index.hasActivePath "a" = true := by
  exact ⟨_, rfl, by decide +kernel, by decide +kernel, by decide +kernel⟩

end ServerState

end Tgrep
