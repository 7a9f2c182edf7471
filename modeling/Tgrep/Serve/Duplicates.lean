import Tgrep.Serve.Refresh

/-!
# Skipping duplicate commits

A server skips a commit when it knows that the index already holds what was read. It knows it from
two kinds of evidence: the bytes that produced the overlay entry of the path, with the id of the
entry, and the identity of the text that the reader's postings of the path were extracted from. Both
must be gone before what they describe is.

## Main definitions

* `ServerState.Transition`: the events, saves and replacements of a server.
* `ServerState.Describes`: identities of texts describe what a reader holds.
* `ServerState.Inv`: what both kinds of evidence say is true.
* `ServerState.BelowBit`: the transition does not commit past the overlay bit.

## Main results

* `ServerState.Inv.step`: every transition keeps the evidence true.
* `ServerState.suppressed_run`: in every run that commits below the overlay bit, a commit that is
  skipped would have changed nothing.
* `ServerState.suppressed_wraps`: past the overlay bit it would.

## Implementation notes

An index that comes from a build comes with the evidence that the build wrote, and it is assumed
that this evidence describes the index. How an index may hold a text is a parameter, because a build
in memory stores trigrams without masks; at the least it may hold what is extracted from it here.
-/

namespace Tgrep

open Option LiveIndex IndexReader

namespace ServerState

variable {κ : Type}

/-! ## Transitions -/

/-- A publication of a build under way: the delta is appended to the reader. -/
structure Checkpoint (κ : Type) where
  delta : IndexReader
  evidence : FileEvidence κ
  destination : Destination
  moved : Bool
  extra : Option (Finset String)

/-- The events about files, the saves, and the replacements of the index. -/
inductive Transition (κ : Type)
  | reindexFile (relPath : String) (force : Bool) (io : ReindexIO) (capacity : TrigramHash → ℕ)
  | dropIndexedFile (relPath : String)
  | markFilenameOnly (relPath : String)
  | retryFailedReindex (relPath : String)
  | persistPendingIndexChanges (io : MergeIO)
  | refreshStaleLocked (io : RefreshIO) (compareIndexMembership : Bool)
  | publishBuildCheckpoint (checkpoint : Checkpoint κ)
  | finishBootstrap (opened : IndexReader) (evidence : FileEvidence κ)
      (extra : Option (Finset String))
  | publishReloadedIndex (reader : IndexReader) (evidence : FileEvidence κ) (extra : Finset String)
  | resetToEmptyIndex (reopened : Bool)

/-- Publish what a build has processed so far. -/
def publishBuildCheckpoint (s : ServerState κ) (c : Checkpoint κ) : ServerState κ :=
  match mergeIndexWithDelta c.destination s.index.reader c.delta ∅ with
  | .error _ => s
  | .ok staged =>
    match s.publishStagedIndex c.moved staged (s.index.reader.numFiles + c.delta.numFiles) ∅
        c.extra with
    | none => s
    | some s => { s with fileEvidence := c.evidence, stored := c.evidence.persisted }

/-- Replace the index by the one that a build has written. -/
def finishBootstrap (s : ServerState κ) (opened : IndexReader) (evidence : FileEvidence κ)
    (extra : Option (Finset String)) : ServerState κ :=
  let s := { s with index := ⟨opened, .new⟩ }.forgetRecentReindexes
  { s with
    filenameExtraPaths := extra.getD s.filenameExtraPaths
    filenameIndexReady := extra.isSome || s.filenameIndexReady
    filenameIndexDirty := if extra.isSome then false else s.filenameIndexDirty
    fileEvidence := evidence }

/-- Swap in a rebuilt reader and clear the overlay. -/
def publishReloadedIndex (s : ServerState κ) (reader : IndexReader) (evidence : FileEvidence κ)
    (extra : Finset String) : ServerState κ :=
  let reconciled := s.index.live.pathToId.keys.sort ++ s.index.live.deletedPaths.sort
  { s with
    index := ⟨reader, (s.index.live.clearReconciledPaths reconciled).resetDirtyCount⟩
    filenameExtraPaths := extra
    filenameIndexReady := true
    filenameIndexDirty := false
    fileEvidence := evidence
    stored := evidence.persisted }

/-- Start again from an empty index, if it can be opened. -/
def resetToEmptyIndex (s : ServerState κ) (reopened : Bool) : ServerState κ :=
  let s := { s with fileEvidence := .empty }
  if reopened then
    { s.forgetRecentReindexes with
      index := ⟨.empty, .new⟩
      filenameExtraPaths := ∅
      filenameIndexReady := false
      filenameIndexDirty := false }
  else s

/-- The state after a transition. -/
def Transition.apply [DecidableEq κ] (cfg : ServeConfig κ) (s : ServerState κ) :
    Transition κ → ServerState κ
  | reindexFile relPath force io capacity => (s.reindexFile cfg relPath force io capacity).1
  | dropIndexedFile relPath => s.dropIndexedFile relPath
  | markFilenameOnly relPath => s.markFilenameOnly relPath
  | retryFailedReindex relPath => s.retryFailedReindex relPath
  | persistPendingIndexChanges io => (s.persistPendingIndexChanges cfg io).1
  | refreshStaleLocked io compareIndexMembership =>
    (s.refreshStaleLocked cfg io compareIndexMembership).1
  | publishBuildCheckpoint checkpoint => s.publishBuildCheckpoint checkpoint
  | finishBootstrap opened evidence extra => s.finishBootstrap opened evidence extra
  | publishReloadedIndex reader evidence extra => s.publishReloadedIndex reader evidence extra
  | resetToEmptyIndex reopened => s.resetToEmptyIndex reopened

/-! ## What evidence says -/

/-- How an index may hold a text. -/
abbrev Holding := List UInt8 → (TrigramHash → List TrigramMasks) → Prop

/-- A path with an identity that is held is held as a text with this identity is. -/
def Describes (cfg : ServeConfig κ) (Holds : Holding) (e : FileEvidence κ) (c : Contents) : Prop :=
  ∀ path id m, e.contentId path = some id → c path = some m →
    ∃ text, cfg.extraction.identify text = id ∧ Holds text m

/-- What a build hands over: a well-formed index, and evidence that describes it. -/
def Transition.Sound (cfg : ServeConfig κ) (Holds : Holding) (s : ServerState κ) :
    Transition κ → Prop
  | publishBuildCheckpoint c => c.delta.WellFormed ∧
      (∀ path ∈ s.index.reader.filePaths, path ∉ c.delta.filePaths) ∧
      Describes cfg Holds c.evidence fun path =>
        if path ∈ c.delta.filePaths then c.delta.contents path else s.index.reader.contents path
  | finishBootstrap opened evidence _ =>
      opened.WellFormed ∧ Describes cfg Holds evidence opened.contents
  | publishReloadedIndex reader evidence _ =>
      reader.WellFormed ∧ Describes cfg Holds evidence reader.contents
  | _ => True

/-- The transition commits nothing, or the overlay has an id left. -/
def Transition.BelowBit [DecidableEq κ] (cfg : ServeConfig κ) (s : ServerState κ) :
    Transition κ → Prop
  | reindexFile relPath force io capacity =>
      ∀ data overlayId, (s.reindexFile cfg relPath force io capacity).2 = some (data, some overlayId) →
        s.index.live.nextId < OVERLAY_BIT
  | _ => True

/-- Both kinds of evidence are true: a recorded overlay entry that is still there has the masks of
the recorded bytes, and an active reader file with an identity has those of a text with it. -/
structure Inv (cfg : ServeConfig κ) (Holds : Holding) (s : ServerState κ) : Prop where
  live : s.index.live.Consistent
  reader : s.index.reader.WellFormed
  recent : ∀ path r, (path, r) ∈ s.recentReindexes.lru →
    s.index.live.pathToId.get? path = some r.overlayId →
      s.index.live.view.entry path =
        some (Trigram.extractMergedMasks (cfg.extraction.decode r.bytes)).get?
  evidence : ∀ path id m, s.fileEvidence.contentId path = some id →
    s.index.live.pathToId.get? path = none → path ∉ s.index.live.deletedPaths →
      s.index.reader.contents path = some m →
        ∃ text, cfg.extraction.identify text = id ∧ Holds text m

/-! ## Transitions that only remove -/

section Remove

variable {cfg : ServeConfig κ} {Holds : Holding} {s s' : ServerState κ}

/-- A state with less evidence about a smaller overlay. -/
lemma Inv.of_remove (h : Inv cfg Holds s) {op : LiveIndex.Op} (hop : op.isUpsert = false)
    (hlive : s'.index.live = op.apply s.index.live) (hreader : s'.index.reader = s.index.reader)
    (hrecent : ∀ path r, (path, r) ∈ s'.recentReindexes.lru → (path, r) ∈ s.recentReindexes.lru)
    (hevidence : ∀ path id, s'.fileEvidence.contentId path = some id →
      s.fileEvidence.contentId path = some id ∧
        (s'.index.live.pathToId.get? path = none → s.index.live.pathToId.get? path = none) ∧
          (path ∉ s'.index.live.deletedPaths → path ∉ s.index.live.deletedPaths)) :
    Inv cfg Holds s' := by
  refine ⟨?_, ?_, ?_, ?_⟩
  · rw [hlive]
    exact h.live.remove hop
  · rw [hreader]
    exact h.reader
  · intro path r hr hid
    rw [hlive] at hid ⊢
    obtain ⟨hid', hentry⟩ := h.live.rep.entry_of_remove hop hid
    rw [hentry]
    exact h.recent path r (hrecent path r hr) hid'
  · intro path id m hid hnone hdel hm
    obtain ⟨hid', hnone', hdel'⟩ := hevidence path id hid
    rw [hreader] at hm
    exact h.evidence path id m hid' (hnone' hnone) (hdel' hdel) hm

/-- A state with less evidence about the same index. -/
lemma Inv.of_same_index (h : Inv cfg Holds s) (hindex : s'.index = s.index)
    (hrecent : ∀ path r, (path, r) ∈ s'.recentReindexes.lru → (path, r) ∈ s.recentReindexes.lru)
    (hevidence : ∀ path id, s'.fileEvidence.contentId path = some id →
      s.fileEvidence.contentId path = some id) : Inv cfg Holds s' := by
  refine ⟨?_, ?_, ?_, ?_⟩
  · rw [hindex]
    exact h.live
  · rw [hindex]
    exact h.reader
  · intro path r hr
    rw [hindex]
    exact h.recent path r (hrecent path r hr)
  · intro path id m hid
    rw [hindex]
    exact h.evidence path id m (hevidence path id hid)

/-- A state that differs from one in which the evidence is true in other respects. -/
lemma Inv.congr (h : Inv cfg Holds s) (hindex : s'.index = s.index)
    (hrecent : s'.recentReindexes = s.recentReindexes)
    (hevidence : s'.fileEvidence = s.fileEvidence) : Inv cfg Holds s' :=
  h.of_same_index hindex (fun _ _ hr => hrecent ▸ hr) fun _ _ hid => hevidence ▸ hid

/-- The evidence about a path that was removed from the index. -/
lemma removed_evidence {relPath : String}
    (hevidence : s'.fileEvidence = s.fileEvidence.remove relPath)
    (hlive : s'.index.live = s.index.live.deleteFile relPath) (hr : s.index.live.Rep) :
    ∀ path id, s'.fileEvidence.contentId path = some id →
      s.fileEvidence.contentId path = some id ∧
        (s'.index.live.pathToId.get? path = none → s.index.live.pathToId.get? path = none) ∧
          (path ∉ s'.index.live.deletedPaths → path ∉ s.index.live.deletedPaths) := by
  intro path id hid
  rw [hevidence, FileEvidence.contentId_remove] at hid
  split_ifs at hid with hpath
  have hids : (s.index.live.deleteFile relPath).pathToId.get? path =
      if path = relPath then none else s.index.live.pathToId.get? path := by
    rw [← (removeOverlayEntry_frame hr relPath).2.2]
    rfl
  have hdel : (s.index.live.deleteFile relPath).deletedPaths =
      insert relPath s.index.live.deletedPaths := by
    have := congrArg Overlay.deleted (view_deleteFile hr relPath)
    exact this
  rw [hlive, hids, if_neg hpath, hdel, Finset.mem_insert, not_or]
  exact ⟨hid, fun hnone => hnone, fun hnot => hnot.2⟩

/-- A state in which a path was deleted and forgotten. -/
lemma Inv.of_delete (h : Inv cfg Holds s) {relPath : String}
    (hlive : s'.index.live = s.index.live.deleteFile relPath)
    (hreader : s'.index.reader = s.index.reader)
    (hrecent : ∀ path r, (path, r) ∈ s'.recentReindexes.lru → (path, r) ∈ s.recentReindexes.lru)
    (hevidence : s'.fileEvidence = s.fileEvidence.remove relPath) : Inv cfg Holds s' := by
  have hop : (LiveIndex.Op.deleteFile relPath).isUpsert = false := rfl
  exact h.of_remove hop hlive hreader hrecent (removed_evidence hevidence hlive h.live.rep)

/-- What is remembered and known after a path was forgotten was so before. -/
lemma forgotten_le (s : ServerState κ) (relPath : String) :
    (∀ path r, (path, r) ∈ (s.recentReindexes.pop relPath).lru →
      (path, r) ∈ s.recentReindexes.lru) ∧
      ∀ path id, (s.fileEvidence.remove relPath).contentId path = some id →
        s.fileEvidence.contentId path = some id := by
  refine ⟨fun path r hr => (RecentReindexCache.mem_pop.mp hr).1, fun path id hid => ?_⟩
  rw [FileEvidence.contentId_remove] at hid
  split_ifs at hid
  exact hid

/-- Dropping a path keeps the evidence true. -/
lemma Inv.dropIndexedFile (h : Inv cfg Holds s) (relPath : String) :
    Inv cfg Holds (s.dropIndexedFile relPath) := by
  obtain ⟨hrecent, hless⟩ := forgotten_le s relPath
  rw [ServerState.dropIndexedFile]
  split_ifs
  · exact h.of_same_index rfl hrecent hless
  · exact h.of_same_index rfl hrecent hless
  · exact h.of_delete rfl rfl hrecent rfl

/-- Moving a path to the listed ones keeps the evidence true. -/
lemma Inv.markFilenameOnly (h : Inv cfg Holds s) (relPath : String) :
    Inv cfg Holds (s.markFilenameOnly relPath) := by
  obtain ⟨hrecent, hless⟩ := forgotten_le s relPath
  rw [ServerState.markFilenameOnly]
  cases hactive : s.index.hasActivePath relPath with
  | false =>
    simp only [Bool.false_eq_true, if_false, Bool.not_false, Bool.and_true]
    split_ifs
    · exact h.of_same_index rfl hrecent fun _ _ hid => hid
    · exact h.of_same_index rfl hrecent hless
  | true =>
    simp only [Bool.not_true, Bool.and_false, Bool.false_eq_true, if_false, if_true]
    exact h.of_delete rfl rfl hrecent rfl

/-- Asking for another attempt keeps the evidence true. -/
lemma Inv.retryFailedReindex (h : Inv cfg Holds s) (relPath : String) :
    Inv cfg Holds (s.retryFailedReindex relPath) := by
  refine h.of_same_index rfl (fun _ _ hr => hr) fun path id hid => ?_
  change (s.fileEvidence.insertVerified relPath retryStamp none none).contentId path = some id at hid
  rw [FileEvidence.contentId_insertVerified] at hid
  split_ifs at hid
  exact hid

end Remove

/-! ## Commits -/

section Commit

variable [DecidableEq κ] {cfg : ServeConfig κ} {Holds : Holding} {s : ServerState κ}
  {relPath : String} {data : List UInt8} {perTri : TrigramMaskMap} {contentId : Option κ}
  {version : FileVersion} {capacity : TrigramHash → ℕ}

omit [DecidableEq κ] in
/-- The ids of the paths after a commit. -/
lemma pathToId_commitUpsert (hr : s.index.live.Rep) (path : String) :
    (s.index.live.commitUpsert relPath perTri capacity).pathToId.get? path =
      if path = relPath then some s.index.live.nextFileId
      else s.index.live.pathToId.get? path := by
  rw [LiveIndex.commitUpsert_eq]
  exact (LiveIndex.upsertWith_frame (LiveIndex.addsPostings_insertPostingWithMasks capacity) hr
    relPath perTri.toList).2.2 path

/-- A commit that is skipped knows the overlay entry or the reader file of the path. -/
lemma commitReindex_eq_none (hr : s.index.live.Rep)
    (h : (s.commitReindex relPath data perTri contentId version capacity).2 = none) :
    (∃ overlayId, (relPath, ⟨overlayId, data⟩) ∈ s.recentReindexes.lru ∧
        s.index.live.pathToId.get? relPath = some overlayId) ∨
      (s.index.live.pathToId.get? relPath = none ∧ relPath ∉ s.index.live.deletedPaths ∧
        relPath ∈ s.index.reader.filePaths ∧
          ∃ id, contentId = some id ∧ s.fileEvidence.contentId relPath = some id) := by
  rw [commitReindex] at h
  split_ifs at h with hdup
  · rw [Bool.or_eq_true] at hdup
    rcases hdup with hoverlay | hreader
    · cases hcand : (s.recentReindexes.matchingOverlayId relPath data).2 with
      | none =>
        rw [hcand] at hoverlay
        cases hoverlay
      | some overlayId =>
        rw [hcand] at hoverlay
        exact .inl ⟨overlayId, RecentReindexCache.matchingOverlayId_eq_some hcand,
          of_decide_eq_true hoverlay⟩
    · simp only [Bool.and_eq_true, Bool.not_eq_true', contentIdMatches, decide_eq_true_eq] at hreader
      obtain ⟨⟨⟨hhas, hdel⟩, hcontains⟩, hsome, hsame⟩ := hreader
      obtain ⟨id, hid⟩ := Option.isSome_iff_exists.mp hsome
      exact .inr ⟨hasPath_eq_false.mp hhas, of_decide_eq_false hdel,
        containsPath_iff.mp hcontains, id, hid, hsame.trans hid⟩
  · -- a commit gives the path an id
    rw [pathToId_commitUpsert hr, if_pos rfl] at h
    cases h

/-- A commit that is skipped leaves the index alone. -/
lemma commitReindex_index
    (h : (s.commitReindex relPath data perTri contentId version capacity).2 = none)
    (hr : s.index.live.Rep) :
    (s.commitReindex relPath data perTri contentId version capacity).1.index = s.index := by
  rw [commitReindex] at h ⊢
  split_ifs at h ⊢
  · rfl
  · rw [pathToId_commitUpsert hr, if_pos rfl] at h
    cases h

/-- **A commit keeps the evidence true**, if the overlay has an id left.

**Proof sketch.** A commit that is made records the bytes with the new id, and the path has an
overlay entry, so nothing is said about the reader. A commit that is skipped because of the overlay
leaves that entry; one that is skipped because of the reader leaves the identity. -/
theorem Inv.commitReindex (h : Inv cfg Holds s) (id : κ)
    (hlow : ∀ overlayId, (s.commitReindex relPath data
      (Trigram.extractMergedMasks (cfg.extraction.decode data)) (some id) version capacity).2 =
        some overlayId → s.index.live.nextId < OVERLAY_BIT) :
    Inv cfg Holds (s.commitReindex relPath data
      (Trigram.extractMergedMasks (cfg.extraction.decode data)) (some id) version capacity).1 := by
  cases hcommit : (s.commitReindex relPath data
      (Trigram.extractMergedMasks (cfg.extraction.decode data)) (some id) version capacity).2 with
  | none =>
    have hindex := commitReindex_index hcommit h.live.rep
    have hknown := commitReindex_eq_none h.live.rep hcommit
    have hrecent : ∀ path r, (path, r) ∈ (s.commitReindex relPath data
        (Trigram.extractMergedMasks (cfg.extraction.decode data)) (some id) version
          capacity).1.recentReindexes.lru → (path, r) ∈ s.recentReindexes.lru := by
      intro path r hr
      rw [ServerState.commitReindex] at hr hcommit
      dsimp only at hr hcommit
      rw [hcommit] at hr
      exact RecentReindexCache.mem_matchingOverlayId hr
    refine ⟨hindex ▸ h.live, hindex ▸ h.reader, ?_, ?_⟩
    · intro path r hr
      rw [hindex]
      exact h.recent path r (hrecent path r hr)
    · intro path id' m hid hnone hdel hm
      rw [hindex] at hnone hdel hm
      rw [ServerState.commitReindex] at hid
      rw [FileEvidence.contentId_insertVerified] at hid
      split_ifs at hid with hpath
      · subst hpath
        obtain rfl := some.inj hid
        rcases hknown with ⟨overlayId, -, hget⟩ | ⟨-, -, -, id', hid', htrusted⟩
        · rw [hget] at hnone
          cases hnone
        · obtain rfl := some.inj hid'
          exact h.evidence path id m htrusted hnone hdel hm
      · exact h.evidence path id' m hid hnone hdel hm
  | some overlayId =>
    have hlow' := hlow overlayId hcommit
    rw [ServerState.commitReindex] at hcommit ⊢
    dsimp only at hcommit ⊢
    split_ifs at hcommit ⊢ with hdup
    set masks := Trigram.extractMergedMasks (cfg.extraction.decode data)
    have hop : (LiveIndex.Op.commitUpsert relPath masks capacity).BelowBit s.index.live :=
      fun _ => hlow'
    have hview := LiveIndex.view_commitUpsert h.live.rep h.live.fresh hlow' relPath masks capacity
    have hids : ∀ path, (s.index.live.commitUpsert relPath masks capacity).pathToId.get? path = _ :=
      pathToId_commitUpsert h.live.rep
    rw [hcommit]
    refine ⟨h.live.apply hop, h.reader, ?_, ?_⟩
    · intro path r hr hget
      rw [hview, Overlay.entry_upsert]
      rcases RecentReindexCache.mem_put hr with ⟨rfl, rfl⟩ | ⟨hr, hpath⟩
      · exact if_pos rfl
      · rw [hids, if_neg hpath] at hget
        rw [if_neg hpath]
        exact h.recent path r (RecentReindexCache.mem_matchingOverlayId hr) hget
    · intro path id' m hid hnone hdel hm
      rw [hids] at hnone
      split_ifs at hnone with hpath
      rw [FileEvidence.contentId_insertVerified, if_neg hpath] at hid
      have hdel' : path ∉ s.index.live.deletedPaths := by
        intro hmem
        have hdeleted := congrArg Overlay.deleted hview
        change (s.index.live.commitUpsert relPath masks capacity).deletedPaths =
          s.index.live.deletedPaths.erase relPath at hdeleted
        rw [hdeleted] at hdel
        exact hdel (Finset.mem_erase.mpr ⟨hpath, hmem⟩)
      exact h.evidence path id' m hid hnone hdel' hm

/-- What handling an event comes to: the path is left alone, dropped, moved to the listed ones or
tried again, or text that was read is to be committed. -/
inductive Handled (cfg : ServeConfig κ) (s : ServerState κ) (relPath : String)
    (capacity : TrigramHash → ℕ) : ServerState κ × Option (List UInt8 × Option UInt32) → Prop
  | unchanged : Handled cfg s relPath capacity (s, none)
  | dropped : Handled cfg s relPath capacity (s.dropIndexedFile relPath, none)
  | marked : Handled cfg s relPath capacity (s.markFilenameOnly relPath, none)
  | retried : Handled cfg s relPath capacity (s.retryFailedReindex relPath, none)
  | markedRetried :
    Handled cfg s relPath capacity ((s.markFilenameOnly relPath).retryFailedReindex relPath, none)
  | binary (version : FileVersion) :
    Handled cfg s relPath capacity (s.markBinary relPath version, none)
  | settled (data : List UInt8) (version : FileVersion) (committed : ServerState κ × Option UInt32)
      (h : committed = s.commitReindex relPath data
        (Trigram.extractMergedMasks (cfg.extraction.decode data))
        (some (cfg.extraction.identify (cfg.extraction.decode data))) version capacity) :
    Handled cfg s relPath capacity (committed.1, some (data, committed.2))

/-- **The cases of an event.** -/
theorem handled_reindexFile (cfg : ServeConfig κ) (s : ServerState κ) (relPath : String)
    (force : Bool) (io : ReindexIO) (capacity : TrigramHash → ℕ) :
    Handled cfg s relPath capacity (s.reindexFile cfg relPath force io capacity) := by
  have hsettle : ∀ data version, Handled cfg s relPath capacity
      (s.settleReindex cfg relPath data version io.recheck capacity) := by
    intro data version
    unfold settleReindex
    cases io.recheck with
    | changed now =>
      dsimp only
      split
      · exact .dropped
      · exact .retried
    | ineligible => exact .dropped
    | failed => exact .retried
    | same =>
      dsimp only
      split
      · exact .binary version
      · exact .settled data version _ rfl
  unfold reindexFile
  split
  · exact .unchanged
  · cases io.first with
    | ineligible => exact .dropped
    | failed => exact .retried
    | opened isFile version =>
      dsimp only
      split
      · exact .dropped
      · split
        · exact .marked
        · split
          · exact .unchanged
          · cases cfg.readStable relPath (io.attempts.take 2) with
            | ineligible => exact .dropped
            | failed readFailed =>
              dsimp only
              split
              · exact .markedRetried
              · exact .retried
            | stable data version => exact hsettle data version

/-- **An event about a file keeps the evidence true.** -/
theorem Inv.reindexFile (h : Inv cfg Holds s) {force : Bool} {io : ReindexIO}
    (hlow : ∀ data overlayId,
      (s.reindexFile cfg relPath force io capacity).2 = some (data, some overlayId) →
        s.index.live.nextId < OVERLAY_BIT) :
    Inv cfg Holds (s.reindexFile cfg relPath force io capacity).1 := by
  have hhandled := handled_reindexFile cfg s relPath force io capacity
  revert hhandled hlow
  generalize s.reindexFile cfg relPath force io capacity = r
  intro hlow hhandled
  cases hhandled with
  | unchanged => exact h
  | dropped => exact h.dropIndexedFile relPath
  | marked => exact h.markFilenameOnly relPath
  | retried => exact h.retryFailedReindex relPath
  | markedRetried => exact (h.markFilenameOnly relPath).retryFailedReindex relPath
  | binary version =>
    refine (h.markFilenameOnly relPath).of_same_index rfl (fun _ _ hr => hr) ?_
    intro path id hid
    dsimp only [markBinary] at hid
    rw [FileEvidence.contentId_insertVerified] at hid
    split_ifs at hid
    exact hid
  | settled data version committed hcommitted =>
    subst hcommitted
    exact h.commitReindex _ fun overlayId hid => hlow data overlayId (by rw [hid])

end Commit

/-! ## Merges and replacements -/

section Save

variable {cfg : ServeConfig κ} {Holds : Holding} {s s' : ServerState κ}

variable {policy : StaleMergePolicy} {evidence : FileEvidence κ}

variable {io : MergeIO} {added : List String} {reader : IndexReader} {deleted changed : List String}

/-- **A merge keeps the evidence true**, if it was given evidence that was true, and none about
preserved paths.

**Proof sketch.** Entries that are left had their ids and postings before. An identity that the
delta gave describes a text that the new reader has from the delta; any other one is of a path that
was no candidate, hence not in the overlay, and that the reader holds as before. -/
theorem Inv.merged (h : Inv cfg Holds s) (hholds : ∀ text, Holds text (textMasks text))
    {candidates : List String} {outcome : FileDeltaOutcome κ} {plan : MergePlan κ}
    {delta : IndexReader} (hnodup : candidates.Nodup)
    (hcover : ∀ path, s.index.live.hasPath path = true ∨ s.index.live.isDeleted path = true →
      path ∈ candidates ∨ path ∈ policy.preserved)
    (hsub : ∀ path id, evidence.contentId path = some id →
      s.fileEvidence.contentId path = some id)
    (hpreserved : ∀ path ∈ policy.preserved, evidence.contentId path = none)
    (m : Merged cfg io s evidence candidates policy outcome plan delta reader s') :
    Inv cfg Holds s' := by
  obtain ⟨live, hlive, -, hindex, hentries, -⟩ := m.prune_cases h.live
  have hop : (LiveIndex.Op.clearReconciledPaths plan.candidates).isUpsert = false := rfl
  refine ⟨?_, ?_, ?_, ?_⟩
  · rw [hindex]
    exact hlive.remove hop
  · rw [hindex]
    exact m.mergedFrom.wellFormed
  · intro path r hr hid
    rw [hindex] at hid ⊢
    obtain ⟨hid', hentry⟩ := hlive.rep.entry_of_remove hop hid
    obtain ⟨hid'', hentry'⟩ := hentries path r.overlayId hid'
    rw [m.recentReindexes] at hr
    exact (hentry.trans hentry').trans (h.recent path r hr hid'')
  · intro path id masks hid _ _ hmasks
    rw [hindex] at hmasks
    rw [m.reader_contents h.reader hnodup] at hmasks
    rcases m.contentId_eq_some hid with ⟨hcand, hstamp, v, text, hread, hidentify⟩ | ⟨hcand, hold⟩
    · rw [if_pos hcand, if_pos hstamp, hread] at hmasks
      obtain rfl := some.inj hmasks
      exact ⟨text, hidentify, hholds text⟩
    · have hnot : path ∉ plan.candidates := fun hmem => hcand (m.mem_candidates.mp hmem).1
      rw [if_neg hnot] at hmasks
      have hunknown : ¬ (s.index.live.hasPath path = true ∨ s.index.live.isDeleted path = true) := by
        intro hknown
        rcases hcover path hknown with hmem | hmem
        · exact hcand hmem
        · rw [hpreserved path hmem] at hold
          cases hold
      rw [not_or, Bool.not_eq_true, Bool.not_eq_true] at hunknown
      exact h.evidence path id masks (hsub path id hold)
        (LiveIndex.hasPath_eq_false.mp hunknown.1) (of_decide_eq_false hunknown.2) hmasks

/-- The candidates of a merge and its preserved paths are all that the overlay knows about. -/
lemma mem_candidates_or_preserved {stamps : FinMap String FileStamp} (path : String)
    (h : s.index.live.hasPath path = true ∨ s.index.live.isDeleted path = true) :
    path ∈ s.mergeCandidates changed added deleted stamps policy ∨ path ∈ policy.preserved := by
  rw [mem_mergeCandidates]
  tauto

/-- A merge keeps the evidence true, whether or not it is published. -/
lemma Inv.streamMergeStaleChanges (h : Inv cfg Holds s)
    (hholds : ∀ text, Holds text (textMasks text))
    (hsub : ∀ path id, evidence.contentId path = some id → s.fileEvidence.contentId path = some id)
    (hpreserved : ∀ path ∈ policy.preserved, evidence.contentId path = none) :
    Inv cfg Holds (s.streamMergeStaleChanges cfg io changed added deleted evidence policy).1 := by
  cases hmerge : s.streamMergeStaleChanges cfg io changed added deleted evidence policy with
  | mk s' published =>
    cases published with
    | false =>
      obtain ⟨unreadable, rfl⟩ := streamMergeStaleChanges_eq_false hmerge
      exact h.congr rfl rfl rfl
    | true =>
      obtain ⟨outcome, plan, delta, reader, m⟩ := streamMergeStaleChanges_cases h.reader hmerge
      exact h.merged hholds nodup_mergeCandidates mem_candidates_or_preserved hsub hpreserved m

/-- An auto-save keeps the evidence true. -/
lemma Inv.persistPendingIndexChanges (h : Inv cfg Holds s)
    (hholds : ∀ text, Holds text (textMasks text)) (io : MergeIO) :
    Inv cfg Holds (s.persistPendingIndexChanges cfg io).1 := by
  rw [ServerState.persistPendingIndexChanges]
  split_ifs
  · refine h.streamMergeStaleChanges hholds (fun _ _ hid => hid) fun path hpath => ?_
    exact absurd hpath (Finset.notMem_empty path)
  · exact h.congr rfl rfl rfl
  · exact h.congr rfl rfl rfl
  · exact h

/-- A stale check has no evidence about the files that it does not try again. -/
lemma contentId_skipped {io : RefreshIO} {compareIndexMembership : Bool} {path : String}
    (h : path ∈ (s.staleChanges io compareIndexMembership).skipped) :
    (s.staleChanges io compareIndexMembership).evidence.contentId path = none := by
  have hstamps : (s.staleChanges io compareIndexMembership).evidence.stamps =
      stampsForIndexed io.walk.files (s.staleChanges io compareIndexMembership).skipped := rfl
  have hids : (s.staleChanges io compareIndexMembership).evidence.contentId path =
      (s.fileEvidence.contentIds.filter fun path _ =>
        (s.staleChanges io compareIndexMembership).evidence.stamps.contains path).get? path := rfl
  rw [hids, hstamps]
  cases hget : (s.fileEvidence.contentIds.filter fun path _ => (stampsForIndexed io.walk.files
      (s.staleChanges io compareIndexMembership).skipped).contains path).get? path with
  | none => rfl
  | some id =>
    have hstamp := FinMap.contains_iff.mp (FinMap.get?_filter_eq_some.mp hget).2
    rw [stampsForIndexed, FinMap.mem_keys_ofList, List.map_map, List.mem_map] at hstamp
    obtain ⟨file, hfile, rfl⟩ := hstamp
    exact absurd h (of_decide_eq_true (List.mem_filter.mp hfile).2)

/-- A stale check keeps the evidence true. -/
lemma Inv.refreshStaleLocked (h : Inv cfg Holds s)
    (hholds : ∀ text, Holds text (textMasks text)) (io : RefreshIO) (compareIndexMembership : Bool) :
    Inv cfg Holds (s.refreshStaleLocked cfg io compareIndexMembership).1 := by
  rcases refreshStaleLocked_cases cfg io compareIndexMembership s with
    ⟨extra, ready, dirty, unreadable, heq⟩ | heq
  · rw [heq]
    exact h.congr rfl rfl rfl
  · rw [heq]
    have hgone : Inv cfg Holds (s.forgetGone io) := h.congr rfl rfl rfl
    exact hgone.streamMergeStaleChanges hholds (fun _ _ => contentId_staleChanges)
      fun _ => contentId_skipped

/-- A publication of a build keeps the evidence true, if the build describes what it appends. -/
lemma Inv.publishBuildCheckpoint (h : Inv cfg Holds s) {c : Checkpoint κ}
    (hc : (Transition.publishBuildCheckpoint c).Sound cfg Holds s) :
    Inv cfg Holds (s.publishBuildCheckpoint c) := by
  obtain ⟨hdelta, hdisj, hdescribes⟩ := hc
  rw [ServerState.publishBuildCheckpoint]
  split
  · exact h
  · next staged hstaged =>
    split
    · exact h
    · next published hpublished =>
      rw [publishStagedIndex] at hpublished
      split_ifs at hpublished
      obtain ⟨reader, hopen, rfl⟩ := Option.map_eq_some_iff.mp hpublished
      obtain ⟨reader', hopen', hmerged⟩ := mergeIndexWithDelta_opens h.reader hdelta
        (fun path hpath _ => hdisj path hpath) hstaged
      obtain rfl : reader = reader' := Except.ok.inj
        ((openReader_of_openPublishedReader hopen).symm.trans hopen')
      obtain ⟨op, hop, hlive⟩ := HybridIndex.prune_live ⟨reader, s.index.live⟩ ∅
      have hreader := HybridIndex.reader_prune ⟨reader, s.index.live⟩ ∅
      refine ⟨?_, ?_, ?_, ?_⟩
      · dsimp only
        rw [hlive]
        exact (h.live.remove hop).resetDirtyCount
      · dsimp only
        rw [hreader]
        exact hmerged.wellFormed
      · intro path r hr hid
        dsimp only at hr hid ⊢
        rw [hlive] at hid ⊢
        obtain ⟨hid', hentry⟩ := h.live.rep.entry_of_remove hop hid
        exact hentry.trans (h.recent path r hr hid')
      · intro path id masks hid _ _ hmasks
        rw [hreader] at hmasks
        rw [hmerged.contents_eq h.reader hdelta, if_neg (Finset.notMem_empty path)] at hmasks
        exact hdescribes path id masks hid hmasks

/-- **A replacement of the index keeps the evidence true**: what was remembered is forgotten, and
the new evidence describes the new index. -/
theorem Inv.of_finishBootstrap {opened : IndexReader} {extra : Option (Finset String)}
    (hopened : opened.WellFormed) (hdescribes : Describes cfg Holds evidence opened.contents) :
    Inv cfg Holds (s.finishBootstrap opened evidence extra) := by
  refine ⟨new_consistent, hopened, ?_, ?_⟩
  · intro path r hr
    cases hr
  · intro path id m hid _ _ hm
    exact hdescribes path id m hid hm

/-- A reload keeps the evidence true. -/
lemma Inv.publishReloadedIndex (h : Inv cfg Holds s) {extra : Finset String}
    (hreader : reader.WellFormed) (hdescribes : Describes cfg Holds evidence reader.contents) :
    Inv cfg Holds (s.publishReloadedIndex reader evidence extra) := by
  set reconciled := s.index.live.pathToId.keys.sort ++ s.index.live.deletedPaths.sort with hrec
  have hop : (LiveIndex.Op.clearReconciledPaths reconciled).isUpsert = false := rfl
  refine ⟨(h.live.remove hop).resetDirtyCount, hreader, ?_, ?_⟩
  · intro path r hr hid
    obtain ⟨hid', hentry⟩ := h.live.rep.entry_of_remove hop hid
    exact hentry.trans (h.recent path r hr hid')
  · intro path id m hid _ _ hm
    exact hdescribes path id m hid hm

/-- Starting again from an empty index keeps the evidence true. -/
lemma Inv.resetToEmptyIndex (h : Inv cfg Holds s) (reopened : Bool) :
    Inv cfg Holds (s.resetToEmptyIndex reopened) := by
  rw [ServerState.resetToEmptyIndex]
  split_ifs
  · refine ⟨new_consistent, empty_wellFormed, ?_, ?_⟩
    · intro path r hr
      cases hr
    · intro path id m hid
      cases hid
  · refine h.of_same_index rfl (fun _ _ hr => hr) ?_
    intro path id hid
    cases hid

end Save

/-! ## Runs -/

section Runs

variable [DecidableEq κ] {cfg : ServeConfig κ} {Holds : Holding} {s : ServerState κ}

/-- **The step lemma**: every transition keeps the evidence true. -/
theorem Inv.step (h : Inv cfg Holds s) (hholds : ∀ text, Holds text (textMasks text))
    {t : Transition κ} (hsound : t.Sound cfg Holds s) (hlow : t.BelowBit cfg s) :
    Inv cfg Holds (t.apply cfg s) := by
  cases t with
  | reindexFile relPath force io capacity => exact h.reindexFile hlow
  | dropIndexedFile relPath => exact h.dropIndexedFile relPath
  | markFilenameOnly relPath => exact h.markFilenameOnly relPath
  | retryFailedReindex relPath => exact h.retryFailedReindex relPath
  | persistPendingIndexChanges io => exact h.persistPendingIndexChanges hholds io
  | refreshStaleLocked io compareIndexMembership =>
    exact h.refreshStaleLocked hholds io compareIndexMembership
  | publishBuildCheckpoint checkpoint => exact h.publishBuildCheckpoint hsound
  | finishBootstrap opened evidence extra => exact .of_finishBootstrap hsound.1 hsound.2
  | publishReloadedIndex reader evidence extra =>
    exact h.publishReloadedIndex hsound.1 hsound.2
  | resetToEmptyIndex reopened => exact h.resetToEmptyIndex reopened

/-- The state that a server starts with: an index that was opened, with the evidence stored beside
it. -/
structure Start (cfg : ServeConfig κ) (Holds : Holding) (s : ServerState κ) : Prop where
  live : s.index.live = .new
  reader : s.index.reader.WellFormed
  recent : s.recentReindexes.lru = []
  evidence : Describes cfg Holds s.fileEvidence s.index.reader.contents

omit [DecidableEq κ] in
/-- The evidence is true at the start. -/
lemma Start.inv (h : Start cfg Holds s) : Inv cfg Holds s := by
  refine ⟨h.live ▸ LiveIndex.new_consistent, h.reader, ?_, ?_⟩
  · intro path r hr
    rw [h.recent] at hr
    cases hr
  · intro path id m hid _ _ hm
    exact h.evidence path id m hid hm

/-- A skipped commit would have changed nothing: the index holds what was read. -/
lemma Inv.suppressed (h : Inv cfg Holds s) (hholds : ∀ text, Holds text (textMasks text))
    (hid : Function.Injective cfg.extraction.identify) {relPath : String} {force : Bool}
    {io : ReindexIO} {capacity : TrigramHash → ℕ} {data : List UInt8}
    (hskip : (s.reindexFile cfg relPath force io capacity).2 = some (data, none)) :
    (s.reindexFile cfg relPath force io capacity).1.index = s.index ∧
      ∃ m, s.index.contents relPath = some m ∧ Holds (cfg.extraction.decode data) m := by
  have hhandled := handled_reindexFile cfg s relPath force io capacity
  revert hhandled hskip
  generalize s.reindexFile cfg relPath force io capacity = r
  intro hskip hhandled
  cases hhandled with
  | settled data' version committed hcommitted =>
    obtain ⟨hdata, hnone⟩ := Prod.mk.inj (some.inj hskip)
    subst hdata
    subst hcommitted
    refine ⟨commitReindex_index hnone h.live.rep, ?_⟩
    rw [HybridIndex.contents_eq h.live.rep]
    rcases commitReindex_eq_none h.live.rep hnone with
      ⟨overlayId, hrecord, hget⟩ | ⟨hnone, hdel, hreader, id, hsome, htrusted⟩
    · have hentry := h.recent relPath _ hrecord hget
      exact ⟨_, Overlay.over_entry hentry, hholds _⟩
    · have hm := contents_of_mem hreader
      obtain ⟨text, hidentify, hholds'⟩ := h.evidence relPath id _ htrusted hnone hdel hm
      obtain rfl : text = cfg.extraction.decode data' :=
        hid (hidentify.trans (some.inj hsome).symm)
      refine ⟨_, ?_, hholds'⟩
      rw [Overlay.over_none (view_entry_eq_none.mpr hnone) hdel, hm]
  | _ => cases hskip

/-- **Skipped commits are sound**: in every run that starts with an opened index and commits below
the overlay bit, whenever a commit is skipped the index holds the text that was read. -/
theorem suppressed_run (cfg : ServeConfig κ) (Holds : Holding)
    (hholds : ∀ text, Holds text (textMasks text))
    (hid : Function.Injective cfg.extraction.identify) (s : ServerState κ)
    (hs : Start cfg Holds s) (ts : List (Transition κ))
    (hts : Run.AllSteps (Transition.apply cfg)
      (fun s t => t.Sound cfg Holds s ∧ t.BelowBit cfg s) s ts)
    (relPath : String) (force : Bool) (io : ReindexIO) (capacity : TrigramHash → ℕ)
    (data : List UInt8)
    (hskip : ((ts.foldl (Transition.apply cfg) s).reindexFile cfg relPath force io capacity).2 =
      some (data, none)) :
    ((ts.foldl (Transition.apply cfg) s).reindexFile cfg relPath force io capacity).1.index =
        (ts.foldl (Transition.apply cfg) s).index ∧
      ∃ m, (ts.foldl (Transition.apply cfg) s).index.contents relPath = some m ∧
        Holds (cfg.extraction.decode data) m := by
  have hinv : Inv cfg Holds (ts.foldl (Transition.apply cfg) s) :=
    Run.invariant (fun _ _ h hok => h.step hholds hok.1 hok.2) hs.inv hts
  exact hinv.suppressed hholds hid hskip

end Runs

/-! ## Past the overlay bit -/

section Wrap

/-- Text is taken as it is and identified by itself, and every path is a file. -/
def plainConfig : ServeConfig (List UInt8) :=
  ⟨⟨id, id⟩, none, fun _ => false, fun _ => false⟩

/-- The version of every file. -/
def plainVersion : FileVersion := ⟨⟨0, 0⟩, none, none, 0, 0, 0, 0⟩

/-- A file that is read at once. -/
def plainAnswers (data : List UInt8) : ReindexIO :=
  ⟨.opened true plainVersion, [⟨.opened true plainVersion, .data data, some plainVersion⟩], .same⟩

/-- An event about a file that is read at once. -/
def plainEvent (relPath : String) (data : List UInt8) : Transition (List UInt8) :=
  .reindexFile relPath true (plainAnswers data) fun _ => 0

/-- A server without files. -/
def plainStart : ServerState (List UInt8) where
  index := ⟨.empty, .new⟩
  filenameExtraPaths := ∅
  filenameIndexReady := false
  filenameIndexDirty := false
  recentReindexes := .new 4096 (2 ^ 26) (2 ^ 26)
  fileEvidence := .empty
  unreadable := .empty
  ignoreRulesDirty := false
  stored := .empty

variable (Holds : Holding) {c : RecentReindexCache} {n : ℕ} {s : ServerState (List UInt8)}

lemma plainStart_start : Start plainConfig Holds plainStart := by
  refine ⟨rfl, empty_wellFormed, rfl, ?_⟩
  intro path id m hid
  cases hid

/-- A file that is saved, and saved again without a change. -/
theorem suppressed_run_again :
    ∃ m, ([plainEvent "a" [97, 98, 99]].foldl (Transition.apply plainConfig)
      plainStart).index.contents "a" = some m ∧ m = textMasks [97, 98, 99] := by
  have hsteps : Run.AllSteps (Transition.apply plainConfig)
      (fun s t => t.Sound plainConfig (fun text m => m = textMasks text) s ∧
        t.BelowBit plainConfig s) plainStart [plainEvent "a" [97, 98, 99]] := by
    refine ⟨⟨trivial, fun _ _ _ => ?_⟩, trivial⟩
    decide
  exact (suppressed_run plainConfig (fun text m => m = textMasks text) (fun _ => rfl)
    Function.injective_id plainStart (plainStart_start _) [plainEvent "a" [97, 98, 99]] hsteps "a"
    true (plainAnswers [97, 98, 99]) (fun _ => 0) [97, 98, 99] (by decide +kernel)).2

/-- An event about a file that is read at once commits what was read. -/
lemma reindexFile_plain (s : ServerState (List UInt8)) (relPath : String) {data : List UInt8}
    (hdata : isBinary data = false) :
    s.reindexFile plainConfig relPath true (plainAnswers data) (fun _ => 0) =
      ((s.commitReindex relPath data (Trigram.extractMergedMasks data) (some data) plainVersion
          fun _ => 0).1,
        some (data, (s.commitReindex relPath data (Trigram.extractMergedMasks data) (some data)
          plainVersion fun _ => 0).2)) := by
  have hsettle : s.reindexFile plainConfig relPath true (plainAnswers data) (fun _ => 0) =
      s.settleReindex plainConfig relPath data plainVersion .same fun _ => 0 := rfl
  rw [hsettle]
  unfold settleReindex
  dsimp only [plainConfig, id]
  rw [hdata]
  rfl

/-- The text of the `n`-th save of `b`; it is never that of the save before. -/
def alternateText (n : ℕ) : List UInt8 := [if n % 2 = 0 then 120 else 121]

/-- The events: `a` is saved, then `b` time and again. -/
def wrappingEvents (n : ℕ) : List (Transition (List UInt8)) :=
  plainEvent "a" [97, 98, 99] :: (List.range n).map fun i => plainEvent "b" (alternateText i)

/-- The records after `a` and `n` saves of `b`. -/
inductive AlternateRecords : ℕ → RecentReindexCache → Prop
  | first : AlternateRecords 0 ⟨[("a", ⟨OVERLAY_BIT, [97, 98, 99]⟩)], 4096, 3, 2 ^ 26, 2 ^ 26⟩
  | next (n : ℕ) (id : UInt32) : AlternateRecords (n + 1)
    ⟨[("b", ⟨id, alternateText n⟩), ("a", ⟨OVERLAY_BIT, [97, 98, 99]⟩)], 4096, 4, 2 ^ 26, 2 ^ 26⟩

/-- What one save of `b` does to the records: the bytes are new, and they are recorded. -/
lemma AlternateRecords.put (h : AlternateRecords n c) :
    (c.matchingOverlayId "b" (alternateText n)).2 = none ∧
      ∀ id, AlternateRecords (n + 1)
        ((c.matchingOverlayId "b" (alternateText n)).1.put "b" id (alternateText n)) := by
  cases h with
  | first => exact ⟨by decide, fun id => .next 0 id⟩
  | next n id' =>
    have hne : alternateText n ≠ alternateText (n + 1) := by
      unfold alternateText
      intro heq
      have hmod : (n + 1) % 2 = if n % 2 = 0 then 1 else 0 := by split_ifs <;> omega
      split_ifs at heq <;> simp_all
    refine ⟨?_, fun id => ?_⟩
    · simp [RecentReindexCache.matchingOverlayId, RecentReindexCache.find, hne]
    · have hput : ((RecentReindexCache.mk [("b", ⟨id', alternateText n⟩),
          ("a", ⟨OVERLAY_BIT, [97, 98, 99]⟩)] 4096 4 (2 ^ 26) (2 ^ 26)).matchingOverlayId "b"
            (alternateText (n + 1))).1.put "b" id (alternateText (n + 1)) =
          ⟨[("b", ⟨id, alternateText (n + 1)⟩), ("a", ⟨OVERLAY_BIT, [97, 98, 99]⟩)], 4096, 4,
            2 ^ 26, 2 ^ 26⟩ := rfl
      rw [hput]
      exact .next (n + 1) id

/-- The record of `a` stays. -/
lemma AlternateRecords.matches_a (h : AlternateRecords n c) :
    (c.matchingOverlayId "a" [97, 98, 99]).2 = some OVERLAY_BIT := by
  cases h
  all_goals rfl

/-- The state after `a` and `n` saves of `b`. -/
structure Alternating (n : ℕ) (s : ServerState (List UInt8)) : Prop where
  live : s.index.live.Consistent
  nextId : s.index.live.nextId.toNat = n + 1
  entry : s.index.live.pathToId.get? "a" = some OVERLAY_BIT
  reader : s.index.reader = .empty
  records : AlternateRecords n s.recentReindexes

/-- What one save of `b` does: it commits, and the records are those of one more save. -/
lemma Alternating.save (h : Alternating n s) :
    ((plainEvent "b" (alternateText n)).apply plainConfig s).index =
        ⟨.empty, s.index.live.commitUpsert "b" (Trigram.extractMergedMasks (alternateText n))
          fun _ => 0⟩ ∧
      AlternateRecords (n + 1)
        ((plainEvent "b" (alternateText n)).apply plainConfig s).recentReindexes := by
  have hbinary : isBinary (alternateText n) = false := by
    unfold alternateText
    split_ifs
    all_goals rfl
  have happly : (plainEvent "b" (alternateText n)).apply plainConfig s =
      (s.commitReindex "b" (alternateText n) (Trigram.extractMergedMasks (alternateText n))
        (some (alternateText n)) plainVersion fun _ => 0).1 := by
    change (s.reindexFile plainConfig "b" true (plainAnswers (alternateText n)) fun _ => 0).1 = _
    rw [reindexFile_plain s "b" hbinary]
  obtain ⟨hnone, hput⟩ := h.records.put
  have hcontains : s.index.reader.containsPath "b" = false := by
    rw [h.reader]
    exact containsPath_empty "b"
  rw [happly, commitReindex]
  simp only [hnone, hcontains, any_none, Bool.and_false, Bool.false_and, Bool.or_self,
    Bool.false_eq_true, if_false, pathToId_commitUpsert h.live.rep, if_true]
  refine ⟨?_, hput _⟩
  rw [h.reader]

/-- The step lemma: below the overlay bit, one save of `b` leads to the state after one more. -/
lemma Alternating.step (h : Alternating n s) (hn : n + 1 < 2 ^ 31) :
    Alternating (n + 1) ((plainEvent "b" (alternateText n)).apply plainConfig s) := by
  obtain ⟨hindex, hrecords⟩ := h.save
  have hlow : s.index.live.nextId < OVERLAY_BIT := by
    rw [UInt32.lt_iff_toNat_lt, h.nextId, show OVERLAY_BIT.toNat = 2 ^ 31 from rfl]
    exact hn
  have hop : (LiveIndex.Op.commitUpsert "b" (Trigram.extractMergedMasks (alternateText n))
      fun _ => 0).BelowBit s.index.live := fun _ => hlow
  refine ⟨?_, ?_, ?_, ?_, hrecords⟩
  · rw [hindex]
    exact h.live.apply hop
  · rw [hindex, commitUpsert_eq]
    rw [(upsertWith_frame (addsPostings_insertPostingWithMasks _) h.live.rep "b"
      _).1, UInt32.toNat_add, h.nextId]
    exact Nat.mod_eq_of_lt (by simp only [UInt32.toNat_one]; omega)
  · rw [hindex]
    rw [pathToId_commitUpsert h.live.rep, if_neg (by decide)]
    exact h.entry
  · rw [hindex]

/-- The run lemma. -/
lemma alternating_run (n : ℕ) (hn : n < 2 ^ 31) :
    Alternating n ((wrappingEvents n).foldl (Transition.apply plainConfig) plainStart) := by
  induction n with
  | zero =>
    have hop : (LiveIndex.Op.commitUpsert "a" (Trigram.extractMergedMasks [97, 98, 99])
        fun _ => 0).BelowBit new := fun _ => by decide
    have hfirst : (wrappingEvents 0).foldl (Transition.apply plainConfig) plainStart =
        (plainStart.commitReindex "a" [97, 98, 99] (Trigram.extractMergedMasks [97, 98, 99])
          (some [97, 98, 99]) plainVersion fun _ => 0).1 := by
      change (plainStart.reindexFile plainConfig "a" true (plainAnswers [97, 98, 99]) fun _ => 0).1 = _
      rw [reindexFile_plain plainStart "a" rfl]
    have hcontains : plainStart.index.reader.containsPath "a" = false :=
      containsPath_empty "a"
    have hlive : (plainStart.commitReindex "a" [97, 98, 99]
        (Trigram.extractMergedMasks [97, 98, 99]) (some [97, 98, 99]) plainVersion
        fun _ => 0).1.index.live =
        new.commitUpsert "a" (Trigram.extractMergedMasks [97, 98, 99]) fun _ => 0 := by
      rw [commitReindex]
      simp only [hcontains, Bool.and_false, Bool.false_and, Bool.or_false]
      rfl
    rw [hfirst]
    refine ⟨?_, ?_, ?_, rfl, ?records⟩
    case records =>
      rw [commitReindex]
      simp only [hcontains, Bool.and_false, Bool.false_and, Bool.or_false]
      exact .first
    · rw [hlive]
      exact new_consistent.apply hop
    · rw [hlive]
      decide +kernel
    · rw [hlive]
      decide +kernel
  | succ n ih =>
    have hevents : wrappingEvents (n + 1) =
        wrappingEvents n ++ [plainEvent "b" (alternateText n)] := by
      rw [wrappingEvents, wrappingEvents, List.range_succ, List.map_append]
      rfl
    rw [hevents, List.foldl_append]
    exact (ih (by omega)).step (by omega)

/-- The events are sound, since none replaces the index. -/
lemma sound_wrappingEvents (n : ℕ) (s : ServerState (List UInt8)) :
    Run.AllSteps (Transition.apply plainConfig) (fun s t => t.Sound plainConfig Holds s) s
      (wrappingEvents n) := by
  have hall : ∀ (ts : List (Transition (List UInt8))) (s : ServerState (List UInt8)),
      (∀ t ∈ ts, ∃ path data, t = plainEvent path data) →
        Run.AllSteps (Transition.apply plainConfig) (fun s t => t.Sound plainConfig Holds s) s ts := by
    intro ts
    induction ts with
    | nil => exact fun _ _ => trivial
    | cons t ts ih =>
      intro s h
      obtain ⟨path, data, rfl⟩ := h t (by simp)
      exact ⟨trivial, ih _ fun t ht => h t (List.mem_cons_of_mem _ ht)⟩
  refine hall _ s fun t ht => ?_
  rw [wrappingEvents, List.mem_cons, List.mem_map] at ht
  rcases ht with rfl | ⟨i, -, rfl⟩
  · exact ⟨_, _, rfl⟩
  · exact ⟨_, _, rfl⟩

/-- **Past the overlay bit a skipped commit is not sound**: after `2 ^ 31` saves of `b` its entry
has the id of `a`, so the index holds nothing of `a`, but the record of `a` still matches.

**Proof sketch.** The last save of `b` is made with the counter at the overlay bit, and its id is
that of `a`. No file has the path `a` any more, so `a` has no postings, but its entry still has the
recorded id. -/
theorem suppressed_wraps :
    ∃ (s : ServerState (List UInt8)) (ts : List (Transition (List UInt8))),
      Start plainConfig (fun text m => m = textMasks text) s ∧
      Run.AllSteps (Transition.apply plainConfig)
        (fun s t => t.Sound plainConfig (fun text m => m = textMasks text) s) s ts ∧
      ∃ (io : ReindexIO) (data : List UInt8),
        ((ts.foldl (Transition.apply plainConfig) s).reindexFile plainConfig "a" true io
          (fun _ => 0)).2 = some (data, none) ∧
        (ts.foldl (Transition.apply plainConfig) s).index.contents "a" ≠ some (textMasks data) := by
  have hn : (2 : ℕ) ^ 31 = 2 ^ 31 - 1 + 1 := by omega
  have hbefore := alternating_run (2 ^ 31 - 1) (by omega)
  refine ⟨plainStart, wrappingEvents (2 ^ 31), plainStart_start _, sound_wrappingEvents _ _ _,
    plainAnswers [97, 98, 99], [97, 98, 99], ?_⟩
  have hevents : (wrappingEvents (2 ^ 31)).foldl (Transition.apply plainConfig) plainStart =
      (plainEvent "b" (alternateText (2 ^ 31 - 1))).apply plainConfig
        ((wrappingEvents (2 ^ 31 - 1)).foldl (Transition.apply plainConfig) plainStart) := by
    rw [hn, Nat.add_sub_cancel, wrappingEvents, List.range_succ, List.map_append,
      ← List.cons_append, List.foldl_append]
    rfl
  rw [hevents]
  generalize (wrappingEvents (2 ^ 31 - 1)).foldl (Transition.apply plainConfig) plainStart = s
    at hbefore
  obtain ⟨hindex, hrecords⟩ := hbefore.save
  generalize (plainEvent "b" (alternateText (2 ^ 31 - 1))).apply plainConfig s = s' at hindex hrecords
  have hagain : s.index.live.nextFileId = OVERLAY_BIT := by
    have hnext : s.index.live.nextId = OVERLAY_BIT := by
      rw [← UInt32.toNat_inj, hbefore.nextId]
      rfl
    rw [LiveIndex.nextFileId, hnext]
    rfl
  have hr := hbefore.live.rep
  have hentry : s'.index.live.pathToId.get? "a" = some OVERLAY_BIT := by
    rw [hindex]
    rw [pathToId_commitUpsert hr, if_neg (by decide)]
    exact hbefore.entry
  -- the only file with the id of `a` is now `b`
  have hlost : ∀ fid, s'.index.live.filePath fid ≠ some "a" := by
    intro fid hfid
    rw [hindex] at hfid
    rw [LiveIndex.filePath, LiveIndex.commitUpsert_eq, (LiveIndex.upsertWith_frame
      (LiveIndex.addsPostings_insertPostingWithMasks _) hr "b" _).2.1, FinMap.get?_insert,
      hagain] at hfid
    split_ifs at hfid with hbit
    · exact absurd (some.inj hfid) (by decide)
    · have hget := ((LiveIndex.removeOverlayEntry_rep hr "b").inverse "a" fid).mpr hfid
      rw [(LiveIndex.removeOverlayEntry_frame hr "b").2.2, if_neg (by decide), hbefore.entry] at hget
      exact hbit (some.inj hget).symm
  constructor
  · rw [reindexFile_plain s' "a" rfl]
    rw [commitReindex]
    simp [hrecords.matches_a, hentry]
  · intro hcontents
    have hhas : s'.index.hasActivePath "a" = true := by
      rw [HybridIndex.hasActivePath_eq_true]
      exact .inl (LiveIndex.hasPath_eq_true.mpr ⟨_, hentry⟩)
    rw [HybridIndex.contents, if_pos hhas] at hcontents
    have hnil : ∀ t, s'.index.pathPostings "a" t = [] := by
      intro t
      have hlive : ((s'.index.live.lookupTrigramWithMasks t).filter fun e =>
          decide (s'.index.live.filePath e.fileId = some "a")) = [] := by
        rw [List.filter_eq_nil_iff]
        exact fun e _ => by simpa using hlost e.fileId
      rw [HybridIndex.pathPostings, hlive, hindex]
      rfl
    have htext := congrFun (some.inj hcontents) (Trigram.hash 97 98 99)
    rw [hnil] at htext
    revert htext
    decide +kernel

end Wrap

end ServerState

end Tgrep
