import Tgrep.Hybrid.Contents
import Tgrep.Serve.Reindex

/-!
# Saving by a streaming merge

The changes of a server are saved by building a delta of the files that changed, merging it into the
index on disk, and publishing the result; then the overlay entries that the new reader has are
pruned. A stale check also takes the paths of its walk as authoritative, an auto-save does not.

## Main definitions

* `ServerState.mergeCandidates`: the paths that a merge settles.
* `ServerState.MergePlan`: the sets that are derived from the candidates and the outcome of the
  delta build.
* `ServerState.publishStagedIndex`: swap the reader and prune the overlay.
* `ServerState.streamMergeStaleChanges`: the merge.
* `ServerState.persistPendingIndexChanges`: the auto-save.

## Main results

* `ServerState.streamMergeStaleChanges_cases`: what a merge that succeeds has done.

## Implementation notes

The order in which the hash sets of the overlay are iterated is the order of the paths. The I/O of
the delta build, of the merge and of the publication is given by its results.
-/

namespace Tgrep

open List

/-- Metadata of a file that a walk found. -/
structure FileMeta where
  relativePath : String
  mtime : UInt64
  size : UInt64
  version : Option FileVersion
  deriving DecidableEq

/-- The stamp of a file that a walk found. -/
def FileMeta.stamp (f : FileMeta) : FileStamp := ⟨f.mtime, f.size⟩

/-- What distinguishes the kinds of merge. -/
structure StaleMergePolicy where
  preserved : Finset String
  authoritativeMembership : Bool
  authoritativeListedFiles : Option (List String)
  scannedFiles : List FileMeta

/-- What the file system does during a merge. -/
structure MergeIO where
  /-- The check of the disk space for the delta. -/
  space : Except Error Unit
  bufferBytes : ℕ
  sizes : ℕ → ℕ → ℕ
  /-- What reading each path gives. -/
  reads : String → IndexRead
  destination : Destination
  /-- Whether the staged files could be moved into place. -/
  moved : Bool

/-- Whether the overlay has anything to save. -/
def LiveIndex.hasPendingChanges (s : LiveIndex) : Bool :=
  !s.pathToId.isEmpty || decide (s.deletedPaths ≠ ∅)

/-- Removing repetitions leaves distinct elements. -/
lemma nodup_eraseDups {α : Type} [BEq α] [LawfulBEq α] (l : List α) : l.eraseDups.Nodup := by
  induction hn : l.length using Nat.strong_induction_on generalizing l with
  | h n ih =>
    cases l with
    | nil => simp
    | cons a l =>
      rw [eraseDups_cons, nodup_cons]
      constructor
      · simp [mem_eraseDups]
      · refine ih _ ?_ _ rfl
        have := length_filter_le (fun b => !b == a) l
        rw [← hn, length_cons]
        omega

namespace ServerState

variable {κ : Type}

/-! ## Candidates -/

/-- The paths that changed, and those that the overlay knows about. -/
def changedCandidates (s : ServerState κ) (changed added deleted : List String)
    (preserved : Finset String) : List String :=
  let overlayPaths := s.index.live.pathToId.keys.sort
  let tombstonePaths := s.index.live.deletedPaths.sort
  ((changed ++ added ++ deleted ++ overlayPaths ++ tombstonePaths).filter
    fun path => decide (path ∉ preserved)).eraseDups

/-- The paths that a merge settles: those that changed, those that the overlay knows about, and of
an authoritative merge the reader's paths that have no stamp. -/
def mergeCandidates (s : ServerState κ) (changed added deleted : List String)
    (stamps : FinMap String FileStamp) (policy : StaleMergePolicy) : List String :=
  let candidates := s.changedCandidates changed added deleted policy.preserved
  if policy.authoritativeMembership then
    candidates ++ (s.index.reader.filePaths.filter fun path =>
      decide (path ∉ policy.preserved) && !stamps.contains path &&
        decide (path ∉ candidates)).eraseDups
  else candidates

/-- The files of the delta. -/
def desiredFiles (candidates : List String) (stamps : FinMap String FileStamp)
    (reads : String → IndexRead) : List (String × IndexRead) :=
  (candidates.filter stamps.contains).map fun path => (path, reads path)

/-! ## What follows from the outcome of the delta -/

/-- Settle the candidates in the memo of unreadable files. -/
def recordUnreadable (memo : FinMap String (Option FileVersion)) (candidates unreadable : List String)
    (scannedFiles : List FileMeta) : FinMap String (Option FileVersion) :=
  let memo := candidates.foldl (fun memo path => memo.erase path) memo
  let memo := unreadable.foldl (fun memo path => memo.insert path none) memo
  if unreadable.isEmpty then memo
  else scannedFiles.foldl (fun memo file =>
    if file.relativePath ∈ unreadable then
      memo.insert file.relativePath (file.version.filter FileVersion.isTrusted)
    else memo) memo

/-- The evidence that a merge publishes: that of unreadable files and of the other candidates is
replaced by what the delta build verified. -/
def publishedEvidence (evidence : FileEvidence κ) (candidates : List String)
    (outcome : FileDeltaOutcome κ) : FileEvidence κ :=
  let withheld := outcome.unreadable.foldl FileEvidence.remove evidence
  let others := (candidates.filter fun path => decide (path ∉ outcome.unreadable)).foldl
    FileEvidence.remove withheld
  { stamps := others.stamps.union (outcome.versions.filterMap fun _ version => some version.stamp)
    contentIds := others.contentIds.union outcome.contentIds
    versions := others.versions.union outcome.versions }

/-- The sets of a merge. -/
structure MergePlan (κ : Type) where
  /-- The candidates that are settled. -/
  candidates : List String
  /-- The reader's paths that are removed or replaced. -/
  removed : Finset String
  /-- The overlay entries that are kept. -/
  preserveOverlayPaths : Finset String
  publishedEvidence : FileEvidence κ

/-- The sets that follow from the outcome of the delta build. A missing entry of the delta is not a
deletion: an unreadable file keeps what is indexed. -/
def mergePlan (evidence : FileEvidence κ) (candidates : List String) (preserved : Finset String)
    (outcome : FileDeltaOutcome κ) : MergePlan κ :=
  let settled := candidates.filter fun path => decide (path ∉ outcome.unreadable)
  { candidates := settled
    removed := settled.toFinset
    preserveOverlayPaths := preserved ∪ outcome.unreadable.toFinset
    publishedEvidence := publishedEvidence evidence candidates outcome }

/-- The listed files that are not in the merged index. -/
def mergedExtraPaths (s : ServerState κ) (delta : IndexReader) (plan : MergePlan κ)
    (listedFiles : List String) : Finset String :=
  let contentPaths :=
    (s.index.reader.filePaths.filter fun path => decide (path ∉ plan.removed)) ++
      delta.filePaths ++
      s.index.live.pathToId.keys.sort.filter fun path => decide (path ∈ plan.preserveOverlayPaths)
  (listedFiles.filter fun path => decide (path ∉ contentPaths)).toFinset

/-! ## Publication -/

/-- Open the published files; they must hold at least the expected number of files. -/
def openPublishedReader (files : IndexFiles) (numFiles : ℕ) : Option IndexReader :=
  match IndexReader.openReader files with
  | .error _ => none
  | .ok reader =>
    if reader.isDegenerate then none
    else match reader.validateLookup with
      | .error _ => none
      | .ok () => if numFiles ≤ reader.numFiles then some reader else none

/-- A published reader is what the files open to. -/
lemma openReader_of_openPublishedReader {files : IndexFiles} {numFiles : ℕ} {reader : IndexReader}
    (h : openPublishedReader files numFiles = some reader) :
    IndexReader.openReader files = .ok reader := by
  unfold openPublishedReader at h
  split at h
  · cases h
  · next opened hopened =>
    split at h
    · cases h
    · split at h
      · cases h
      · split_ifs at h
        rw [hopened, Option.some.inj h]

/-- Publish staged files: swap the reader and prune the overlay. -/
def publishStagedIndex (s : ServerState κ) (moved : Bool) (staged : IndexFiles) (numFiles : ℕ)
    (preserveOverlayPaths : Finset String) (filenameExtraPaths : Option (Finset String)) :
    Option (ServerState κ) :=
  if moved then
    (openPublishedReader staged numFiles).map fun reader =>
      let index := (HybridIndex.mk reader s.index.live).prunePersistedEntriesExcept
        preserveOverlayPaths
      let stageFilenameIndex := filenameExtraPaths.isSome || s.filenameIndexReady
      { s with
        index := { index with live := index.live.resetDirtyCount }
        filenameExtraPaths := filenameExtraPaths.getD s.filenameExtraPaths
        filenameIndexReady := filenameExtraPaths.isSome || s.filenameIndexReady
        filenameIndexDirty := if stageFilenameIndex then false else s.filenameIndexDirty }
  else none

/-! ## The merge -/

/-- Apply a diff to the index on disk without loading it. Every change of the overlay is taken
along. The result says whether the merge was published. -/
def streamMergeStaleChanges (cfg : ServeConfig κ) (io : MergeIO) (s : ServerState κ)
    (changed added deleted : List String) (evidence : FileEvidence κ)
    (policy : StaleMergePolicy) : ServerState κ × Bool :=
  let candidates := s.mergeCandidates changed added deleted evidence.stamps policy
  match buildIndexForFiles cfg.extraction io.space io.bufferBytes io.sizes
      (desiredFiles candidates evidence.stamps io.reads) with
  | .error _ => (s, false)
  | .ok (deltaFiles, outcome) =>
    let s := { s with unreadable :=
      recordUnreadable s.unreadable candidates outcome.unreadable policy.scannedFiles }
    let plan := mergePlan evidence candidates policy.preserved outcome
    match IndexReader.openReader deltaFiles with
    | .error _ => (s, false)
    | .ok delta =>
      if delta.numFiles ≠ outcome.indexed then (s, false)
      else match mergeIndexWithDelta io.destination s.index.reader delta plan.removed with
        | .error _ => (s, false)
        | .ok staged =>
          let removedReaderFiles :=
            (s.index.reader.filePaths.filter fun path => decide (path ∈ plan.removed)).length
          let expectedFiles := s.index.reader.numFiles - removedReaderFiles + delta.numFiles
          let extra := policy.authoritativeListedFiles.map (s.mergedExtraPaths delta plan)
          match s.publishStagedIndex io.moved staged expectedFiles plan.preserveOverlayPaths
              extra with
          | none => (s, false)
          | some s =>
            ({ s with
                index := { s.index with
                  live := s.index.live.clearReconciledPaths plan.candidates }
                fileEvidence := plan.publishedEvidence
                stored := plan.publishedEvidence.persisted }, true)

/-- Save what is pending. An auto-save does not know all files, so what has no candidate stays. -/
def persistPendingIndexChanges (cfg : ServeConfig κ) (io : MergeIO) (s : ServerState κ) :
    ServerState κ × Bool :=
  if s.index.live.hasPendingChanges then
    s.streamMergeStaleChanges cfg io [] [] [] s.fileEvidence ⟨∅, false, none, []⟩
  else if s.filenameIndexReady && s.filenameIndexDirty then
    ({ s with filenameIndexDirty := if io.moved then false else s.filenameIndexDirty }, io.moved)
  else (s, true)

/-! ## What a merge does -/

section Candidates

variable {s : ServerState κ} {changed added deleted : List String} {stamps : FinMap String FileStamp}
  {policy : StaleMergePolicy} {path : String}

lemma nodup_changedCandidates {preserved : Finset String} :
    (s.changedCandidates changed added deleted preserved).Nodup := nodup_eraseDups _

lemma mem_changedCandidates {preserved : Finset String} :
    path ∈ s.changedCandidates changed added deleted preserved ↔ path ∉ preserved ∧
      (path ∈ changed ∨ path ∈ added ∨ path ∈ deleted ∨ s.index.live.hasPath path = true ∨
        s.index.live.isDeleted path = true) := by
  rw [changedCandidates, mem_eraseDups, mem_filter, decide_eq_true_eq]
  simp only [mem_append, Finset.mem_sort, LiveIndex.hasPath, FinMap.contains_iff,
    LiveIndex.isDeleted, decide_eq_true_eq, or_assoc]
  exact and_comm

/-- The candidates are distinct. -/
lemma nodup_mergeCandidates : (s.mergeCandidates changed added deleted stamps policy).Nodup := by
  rw [mergeCandidates]
  split_ifs
  · refine List.nodup_append.mpr ⟨nodup_changedCandidates, nodup_eraseDups _, ?_⟩
    rintro path hpath other hother rfl
    rw [mem_eraseDups, mem_filter, Bool.and_eq_true, decide_eq_true_eq] at hother
    exact hother.2.2 hpath
  · exact nodup_changedCandidates

/-- **The candidates.** -/
theorem mem_mergeCandidates :
    path ∈ s.mergeCandidates changed added deleted stamps policy ↔ path ∉ policy.preserved ∧
      (path ∈ changed ∨ path ∈ added ∨ path ∈ deleted ∨ s.index.live.hasPath path = true ∨
        s.index.live.isDeleted path = true ∨
          policy.authoritativeMembership = true ∧ path ∈ s.index.reader.filePaths ∧
            stamps.get? path = none) := by
  have hstamp : (!stamps.contains path) = true ↔ stamps.get? path = none := by
    rw [FinMap.contains]
    cases stamps.get? path <;> simp
  rw [mergeCandidates]
  split_ifs with hauth
  · rw [mem_append, mem_eraseDups, mem_filter, Bool.and_eq_true,
      Bool.and_eq_true, decide_eq_true_eq, decide_eq_true_eq, hstamp, mem_changedCandidates]
    tauto
  · rw [mem_changedCandidates]
    tauto

end Candidates

section Merge

variable {cfg : ServeConfig κ} {io : MergeIO} {s s' : ServerState κ}
  {changed added deleted : List String} {evidence : FileEvidence κ} {policy : StaleMergePolicy}

/-- The files of the delta are distinct. -/
lemma nodup_desiredFiles {candidates : List String} (h : candidates.Nodup)
    (stamps : FinMap String FileStamp) (reads : String → IndexRead) :
    ((desiredFiles candidates stamps reads).map Prod.fst).Nodup := by
  rw [desiredFiles, map_map, show Prod.fst ∘ (fun path => (path, reads path)) = id from rfl, map_id]
  exact h.filter _

/-- The files of the delta are the candidates with a stamp, each with its read. -/
lemma mem_desiredFiles {candidates : List String} {stamps : FinMap String FileStamp}
    {reads : String → IndexRead} {path : String} {r : IndexRead} :
    (path, r) ∈ desiredFiles candidates stamps reads ↔
      path ∈ candidates ∧ path ∈ stamps.keys ∧ r = reads path := by
  simp only [desiredFiles, mem_map, mem_filter, Prod.mk.injEq, FinMap.contains_iff]
  constructor
  · rintro ⟨p, ⟨hp, hs⟩, rfl, rfl⟩
    exact ⟨hp, hs, rfl⟩
  · rintro ⟨hp, hs, rfl⟩
    exact ⟨path, ⟨hp, hs⟩, rfl, rfl⟩

/-- What a merge that was published has done: the delta was built from the reads, merged, opened
and swapped in. -/
structure Merged (cfg : ServeConfig κ) (io : MergeIO) (s : ServerState κ) (evidence : FileEvidence κ)
    (candidates : List String) (policy : StaleMergePolicy) (outcome : FileDeltaOutcome κ)
    (plan : MergePlan κ) (delta reader : IndexReader) (s' : ServerState κ) : Prop where
  outcomeOf : OutcomeOf cfg.extraction (desiredFiles candidates evidence.stamps io.reads) outcome
  deltaOf : DeltaOf cfg.extraction (desiredFiles candidates evidence.stamps io.reads) delta
  plan_eq : plan = mergePlan evidence candidates policy.preserved outcome
  mergedFrom : MergedFrom s.index.reader delta plan.removed reader
  index : s'.index = ⟨reader, ((HybridIndex.mk reader s.index.live).prunePersistedEntriesExcept
    plan.preserveOverlayPaths).live.resetDirtyCount.clearReconciledPaths plan.candidates⟩
  fileEvidence : s'.fileEvidence = plan.publishedEvidence
  stored : s'.stored = plan.publishedEvidence.persisted
  filenameExtraPaths : s'.filenameExtraPaths = (policy.authoritativeListedFiles.map
    (s.mergedExtraPaths delta plan)).getD s.filenameExtraPaths
  recentReindexes : s'.recentReindexes = s.recentReindexes
  unreadable : s'.unreadable =
    recordUnreadable s.unreadable candidates outcome.unreadable policy.scannedFiles

/-- A merge that was not published changes only the memo of unreadable files. -/
lemma streamMergeStaleChanges_eq_false
    (h : s.streamMergeStaleChanges cfg io changed added deleted evidence policy = (s', false)) :
    ∃ unreadable, s' = { s with unreadable } := by
  unfold streamMergeStaleChanges at h
  dsimp only at h
  split at h
  · obtain rfl := (Prod.mk.inj h).1
    exact ⟨s.unreadable, rfl⟩
  · split at h
    · exact ⟨_, (Prod.mk.inj h).1.symm⟩
    · split_ifs at h
      · exact ⟨_, (Prod.mk.inj h).1.symm⟩
      · split at h
        · exact ⟨_, (Prod.mk.inj h).1.symm⟩
        · split at h
          · exact ⟨_, (Prod.mk.inj h).1.symm⟩
          · cases h

/-- **What a merge does that is published.**

**Proof sketch.** Every check of the code is inverted. The files of the delta are settled
candidates, hence removed from the reader, so the merged index opens and holds what it should. -/
theorem streamMergeStaleChanges_cases (hreader : s.index.reader.WellFormed)
    (h : s.streamMergeStaleChanges cfg io changed added deleted evidence policy = (s', true)) :
    ∃ outcome plan delta reader, Merged cfg io s evidence
      (s.mergeCandidates changed added deleted evidence.stamps policy) policy outcome plan delta
        reader s' := by
  unfold streamMergeStaleChanges at h
  dsimp only at h
  set candidates := s.mergeCandidates changed added deleted evidence.stamps policy
  have hnodup : ((desiredFiles candidates evidence.stamps io.reads).map Prod.fst).Nodup :=
    nodup_desiredFiles nodup_mergeCandidates _ _
  split at h
  · cases h
  · next deltaFiles outcome hbuild =>
    have houtcome := buildIndexForFiles_outcome hnodup hbuild
    split at h
    · cases h
    · next delta hdelta =>
      have hdeltaOf := buildIndexForFiles_opens hnodup hbuild hdelta
      split_ifs at h with hcount
      · exact absurd (Prod.mk.inj h).2 (by decide)
      split at h
      · cases h
      · next staged hstaged =>
        split at h
        · cases h
        · next published hpublished =>
          obtain rfl := (Prod.mk.inj h).1
          rw [publishStagedIndex] at hpublished
          split_ifs at hpublished
          obtain ⟨reader, hopen, rfl⟩ := Option.map_eq_some_iff.mp hpublished
          -- the files of the delta were read, so they are removed from the reader
          have hdisj : ∀ path ∈ s.index.reader.filePaths,
              path ∉ (mergePlan evidence candidates policy.preserved outcome).removed →
                path ∉ delta.filePaths := by
            intro path _ hkept hmem
            obtain ⟨text, htext⟩ := hdeltaOf.mem_filePaths.mp hmem
            obtain ⟨r, v, hfile, hsettled⟩ := (mem_textsOf _).mp htext
            refine hkept (List.mem_toFinset.mpr (List.mem_filter.mpr
              ⟨(mem_desiredFiles.mp hfile).1, decide_eq_true fun hun => ?_⟩))
            obtain ⟨r', hfile', hnone⟩ := (houtcome.unreadable path).mp hun
            rw [(mem_desiredFiles.mp hfile').2.2, ← (mem_desiredFiles.mp hfile).2.2, hsettled] at hnone
            cases hnone
          obtain ⟨reader', hopen', hmerged⟩ :=
            mergeIndexWithDelta_opens hreader hdeltaOf.wellFormed hdisj hstaged
          have hsame : reader = reader' := Except.ok.inj
            ((openReader_of_openPublishedReader hopen).symm.trans hopen')
          subst hsame
          refine ⟨outcome, _, delta, reader, houtcome, hdeltaOf, rfl, hmerged, ?_, rfl, rfl, rfl,
            rfl, rfl⟩
          dsimp only
          rw [HybridIndex.reader_prune]

/-! ## What the index holds after a merge -/

namespace Merged

variable {candidates : List String} {outcome : FileDeltaOutcome κ} {plan : MergePlan κ}
  {delta reader : IndexReader} {path : String}

/-- What reading a path settles. -/
def settledRead (cfg : ServeConfig κ) (io : MergeIO) (path : String) :
    Option (FileVersion × Option (List UInt8)) :=
  (io.reads path).settled cfg.extraction

variable (m : Merged cfg io s evidence candidates policy outcome plan delta reader s')

include m

/-- The files of the delta that could not be read. -/
lemma mem_unreadable : path ∈ outcome.unreadable ↔
      path ∈ candidates ∧ path ∈ evidence.stamps.keys ∧ settledRead cfg io path = none := by
  rw [m.outcomeOf.unreadable]
  constructor
  · rintro ⟨r, hfile, hnone⟩
    obtain ⟨hpath, hstamp, rfl⟩ := mem_desiredFiles.mp hfile
    exact ⟨hpath, hstamp, hnone⟩
  · rintro ⟨hpath, hstamp, hnone⟩
    exact ⟨_, mem_desiredFiles.mpr ⟨hpath, hstamp, rfl⟩, hnone⟩

/-- The candidates that are settled. -/
lemma mem_candidates : path ∈ plan.candidates ↔ path ∈ candidates ∧ path ∉ outcome.unreadable := by
  rw [m.plan_eq, mergePlan, mem_filter, decide_eq_true_eq]

lemma mem_removed : path ∈ plan.removed ↔ path ∈ plan.candidates := by
  rw [m.plan_eq]
  exact mem_toFinset

lemma mem_preserveOverlayPaths :
    path ∈ plan.preserveOverlayPaths ↔ path ∈ policy.preserved ∨ path ∈ outcome.unreadable := by
  rw [m.plan_eq, mergePlan, Finset.mem_union, mem_toFinset]

/-- The texts of the delta. -/
lemma mem_texts {text : List UInt8} :
    (path, text) ∈ textsOf cfg.extraction (desiredFiles candidates evidence.stamps io.reads) ↔
      path ∈ plan.candidates ∧ path ∈ evidence.stamps.keys ∧
        ∃ v, settledRead cfg io path = some (v, some text) := by
  rw [mem_textsOf, m.mem_candidates, m.mem_unreadable]
  constructor
  · rintro ⟨r, v, hfile, hs⟩
    obtain ⟨hpath, hstamp, rfl⟩ := mem_desiredFiles.mp hfile
    refine ⟨⟨hpath, fun hun => ?_⟩, hstamp, v, hs⟩
    have hs' : settledRead cfg io path = some (v, some text) := hs
    rw [hun.2.2] at hs'
    cases hs'
  · rintro ⟨⟨hpath, -⟩, hstamp, v, hs⟩
    exact ⟨_, v, mem_desiredFiles.mpr ⟨hpath, hstamp, rfl⟩, hs⟩

omit m

/-- What the new reader holds: of the settled candidates what was read, of the others what the old
reader held. -/
lemma reader_contents (hreader : s.index.reader.WellFormed) (hnodup : candidates.Nodup)
    (m : Merged cfg io s evidence candidates policy outcome plan delta reader s') :
    reader.contents path =
      if path ∈ plan.candidates then
        if path ∈ evidence.stamps.keys then
          ((settledRead cfg io path).bind Prod.snd).map textMasks
        else none
      else s.index.reader.contents path := by
  have hfiles := nodup_desiredFiles hnodup evidence.stamps io.reads
  rw [m.mergedFrom.contents_eq hreader m.deltaOf.wellFormed]
  by_cases htext : ∃ text, (path, text) ∈
      textsOf cfg.extraction (desiredFiles candidates evidence.stamps io.reads)
  · rw [if_pos (m.deltaOf.mem_filePaths.mpr htext)]
    obtain ⟨text, htext⟩ := htext
    obtain ⟨hcand, hstamp, v, hs⟩ := m.mem_texts.mp htext
    rw [m.deltaOf.contents hfiles htext, if_pos hcand, if_pos hstamp, hs]
    rfl
  · rw [if_neg (fun hmem => htext (m.deltaOf.mem_filePaths.mp hmem))]
    by_cases hcand : path ∈ plan.candidates
    · rw [if_pos (m.mem_removed.mpr hcand), if_pos hcand]
      split_ifs with hstamp
      · -- a candidate with a stamp that gave no text was binary
        cases hs : settledRead cfg io path with
        | none => rfl
        | some settled =>
          obtain ⟨v, text⟩ := settled
          cases text with
          | none => rfl
          | some text => exact absurd ⟨text, m.mem_texts.mpr ⟨hcand, hstamp, v, hs⟩⟩ htext
      · rfl
    · rw [if_neg (fun hmem => hcand (m.mem_removed.mp hmem)), if_neg hcand]

/-- The overlay between the swap of the reader and the clearing of the candidates. -/
lemma prune_cases (hc : s.index.live.Consistent)
    (m : Merged cfg io s evidence candidates policy outcome plan delta reader s') :
    ∃ live : LiveIndex, live.Consistent ∧ live.nextId = s.index.live.nextId ∧
      s'.index = ⟨reader, live.clearReconciledPaths plan.candidates⟩ ∧
        (∀ path fid, live.pathToId.get? path = some fid →
          s.index.live.pathToId.get? path = some fid ∧
            live.view.entry path = s.index.live.view.entry path) ∧
        ((HybridIndex.DropsAll ⟨reader, s.index.live⟩ plan.preserveOverlayPaths ∧
            live.view = Overlay.empty) ∨
          ¬ HybridIndex.DropsAll ⟨reader, s.index.live⟩ plan.preserveOverlayPaths ∧
            live.view = s.index.live.view.remove
              (HybridIndex.toRemove ⟨reader, s.index.live⟩ plan.preserveOverlayPaths)) := by
  obtain ⟨op, hop, hlive⟩ :=
    HybridIndex.prune_live ⟨reader, s.index.live⟩ plan.preserveOverlayPaths
  refine ⟨(op.apply s.index.live).resetDirtyCount, (hc.remove hop).resetDirtyCount, ?_, ?_, ?_, ?_⟩
  · exact (LiveIndex.Op.apply_of_not_isUpsert hc.rep hop).2.1
  · rw [m.index, hlive]
  · intro path fid hget
    exact hc.rep.entry_of_remove hop hget
  · have hview := HybridIndex.view_prune (h := ⟨reader, s.index.live⟩) hc.rep
      plan.preserveOverlayPaths
    rw [hlive] at hview
    exact hview

/-- The result of a settled candidate. -/
def settledContents (cfg : ServeConfig κ) (io : MergeIO) (evidence : FileEvidence κ)
    (path : String) : Option (TrigramHash → List TrigramMasks) :=
  if path ∈ evidence.stamps.keys then ((settledRead cfg io path).bind Prod.snd).map textMasks
  else none

/-- **What the index holds after a merge**: of the settled candidates what was read, of any other
path what it held before, except that a tombstone is lost when the whole overlay is dropped.

**Proof sketch.** The entry and the tombstone of a settled candidate are cleared, so the new reader
decides. Any other path keeps its entry and its tombstone unless the overlay is dropped as a whole;
then only a tombstone can have been at the path, since pruning drops entries of settled candidates
only. -/
theorem contents_eq (hc : s.index.live.Consistent) (hreader : s.index.reader.WellFormed)
    (hnodup : candidates.Nodup)
    (hcover : ∀ path, s.index.live.hasPath path = true ∨ s.index.live.isDeleted path = true →
      path ∈ candidates ∨ path ∈ policy.preserved)
    (m : Merged cfg io s evidence candidates policy outcome plan delta reader s') :
    s'.index.contents path =
      if path ∈ plan.candidates then settledContents cfg io evidence path
      else if HybridIndex.DropsAll ⟨reader, s.index.live⟩ plan.preserveOverlayPaths ∧
          path ∈ s.index.live.deletedPaths then s.index.reader.contents path
      else s.index.contents path := by
  obtain ⟨live, hlive, -, hindex, -, hview⟩ := m.prune_cases hc
  have hclear : (live.clearReconciledPaths plan.candidates).view = live.view.clear plan.candidates :=
    LiveIndex.view_clearReconciledPaths hlive.rep _
  have hrep : s'.index.live.Rep := by
    rw [hindex]
    exact LiveIndex.clearReconciledPaths_rep hlive.rep _
  have hread : reader.contents path = _ := m.reader_contents hreader hnodup
  rw [HybridIndex.contents_eq hrep, HybridIndex.contents_eq hc.rep, hindex]
  change (live.clearReconciledPaths plan.candidates).view.over reader.contents path = _
  rw [hclear]
  by_cases hcand : path ∈ plan.candidates
  · rw [if_pos hcand] at hread ⊢
    have hdel : path ∉ (live.view.clear plan.candidates).deleted := fun hmem =>
      (Finset.mem_filter.mp hmem).2 hcand
    rw [Overlay.over_none (if_pos hcand) hdel, hread]
    rfl
  · rw [if_neg hcand] at hread ⊢
    -- an entry that pruning could drop belongs to a settled candidate
    have hkept : s.index.live.hasPath path = true → path ∈ plan.preserveOverlayPaths := by
      intro hhas
      rw [m.mem_preserveOverlayPaths]
      rcases hcover path (.inl hhas) with hmem | hmem
      · by_contra hnot
        exact hcand (m.mem_candidates.mpr ⟨hmem, fun hun => hnot (.inr hun)⟩)
      · exact .inl hmem
    have hentry : (live.view.clear plan.candidates).entry path = live.view.entry path := if_neg hcand
    have hdel : path ∈ (live.view.clear plan.candidates).deleted ↔ path ∈ live.view.deleted :=
      ⟨fun hmem => (Finset.mem_filter.mp hmem).1, fun hmem => Finset.mem_filter.mpr ⟨hmem, hcand⟩⟩
    rw [Overlay.over_congr hentry hdel hread]
    rcases hview with ⟨hall, hempty⟩ | ⟨hall, hremove⟩
    · have hnone : s.index.live.view.entry path = none := by
        rw [LiveIndex.view_entry_eq_none]
        by_contra hsome
        obtain ⟨fid, hget⟩ := Option.ne_none_iff_exists'.mp hsome
        have hhas : s.index.live.hasPath path = true := LiveIndex.hasPath_eq_true.mpr ⟨fid, hget⟩
        exact (HybridIndex.mem_prunedPaths.mp (hall.1 (FinMap.contains_iff.mp hhas))).2 (hkept hhas)
      rw [hempty, Overlay.over_none rfl (Finset.notMem_empty path)]
      by_cases hdeleted : path ∈ s.index.live.deletedPaths
      · rw [if_pos ⟨hall, hdeleted⟩]
      · rw [if_neg (fun hand => hdeleted hand.2), Overlay.over_none hnone hdeleted]
    · have hnot : path ∉ HybridIndex.toRemove ⟨reader, s.index.live⟩ plan.preserveOverlayPaths := by
        intro hmem
        obtain ⟨hhas, -, hnot⟩ := HybridIndex.mem_toRemove.mp hmem
        exact hnot (hkept hhas)
      rw [if_neg (fun hand => hall hand.1), hremove]
      exact Overlay.over_congr (if_neg hnot) Iff.rfl rfl

/-! ### The evidence after a merge -/

/-- The identities after a merge: those of the texts that were read, and those of the paths that
are no candidates. -/
lemma contentId_eq_some {id : κ}
    (m : Merged cfg io s evidence candidates policy outcome plan delta reader s')
    (h : s'.fileEvidence.contentId path = some id) :
    (path ∈ plan.candidates ∧ path ∈ evidence.stamps.keys ∧ ∃ v text,
        settledRead cfg io path = some (v, some text) ∧ cfg.extraction.identify text = id) ∨
      (path ∉ candidates ∧ evidence.contentId path = some id) := by
  have hplan : plan.publishedEvidence = publishedEvidence evidence candidates outcome := by
    rw [m.plan_eq, mergePlan]
  rw [m.fileEvidence, hplan, publishedEvidence] at h
  rcases Option.or_eq_some_iff.mp h with hread | ⟨-, hold⟩
  · obtain ⟨r, v, text, hfile, hs, hid⟩ := (m.outcomeOf.contentIds path id).mp hread
    have hmem := m.mem_texts.mp ((mem_textsOf _).mpr ⟨r, v, hfile, hs⟩)
    exact .inl ⟨hmem.1, hmem.2.1, hmem.2.2.choose, text, hmem.2.2.choose_spec, hid⟩
  · have hold' : ((candidates.filter fun path => decide (path ∉ outcome.unreadable)).foldl
        FileEvidence.remove (outcome.unreadable.foldl FileEvidence.remove evidence)).contentId
          path = some id := hold
    rw [FileEvidence.contentId_foldl_remove, FileEvidence.contentId_foldl_remove] at hold'
    split_ifs at hold' with hcand hun
    refine .inr ⟨fun hmem => hcand (List.mem_filter.mpr ⟨hmem, decide_eq_true hun⟩), hold'⟩

end Merged

end Merge

end ServerState

end Tgrep
