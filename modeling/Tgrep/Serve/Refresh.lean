import Tgrep.Serve.StaleMerge

/-!
# Stale checks

A stale check walks the metadata of all files, compares it with the evidence of what is indexed, and
merges what changed. Files that could not be read at their present version are not tried again.

## Main definitions

* `classifyFileChanges`, `classifyEvidenceChanges`: the changed, new and deleted files.
* `dropMemoizedFailures`: leave out the files that failed at their present version.
* `ServerState.refreshStaleLocked`: the stale check.

## Main results

* `ServerState.refreshStaleLocked_cases`: a stale check merges with the evidence of its walk, or
  leaves the index alone.

## Implementation notes

The paths of a hash map are iterated in their order. The publication of the ignore matcher is left
out, and so are the visibility of paths and the coverage flag, apart from whether they changed.
-/

namespace Tgrep

/-- What a metadata walk found. -/
structure MetaWalk where
  files : List FileMeta
  listedFiles : List String
  /-- The number of entries that could not be inspected. -/
  skippedError : ℕ

/-- The paths of a walk. -/
def walkedPaths (currentMeta : List FileMeta) : List String := currentMeta.map FileMeta.relativePath

/-- How a file of the walk compares with its stored stamp. -/
inductive FileChange where
  | same
  | changed
  | added
  deriving DecidableEq

/-- Compare a file of the walk with its stored stamp. -/
def fileChange (oldStamps : FinMap String FileStamp) (indexedPaths : Finset String)
    (compareIndexMembership : Bool) (file : FileMeta) : FileChange :=
  if compareIndexMembership && decide (file.relativePath ∉ indexedPaths) then .added
  else match oldStamps.get? file.relativePath with
    | some old => if old = file.stamp then .same else .changed
    | none => .added

/-- The files that changed, the new ones, and those that are gone. -/
def classifyFileChanges (currentMeta : List FileMeta) (oldStamps : FinMap String FileStamp)
    (indexedPaths : Finset String) (compareIndexMembership : Bool) :
    List String × List String × List String :=
  let change := fileChange oldStamps indexedPaths compareIndexMembership
  (walkedPaths (currentMeta.filter fun file => decide (change file = .changed)),
    walkedPaths (currentMeta.filter fun file => decide (change file = .added)),
    (oldStamps.keys ∪ indexedPaths).sort.filter fun path =>
      decide (path ∉ walkedPaths currentMeta))

/-- The same with versions: a file whose version is not the one of the evidence changed. -/
def classifyEvidenceChanges {κ : Type} (currentMeta : List FileMeta) (old : FileEvidence κ)
    (indexed : Finset String) (compareIndexMembership : Bool) :
    List String × List String × List String :=
  let (changed, added, deleted) :=
    classifyFileChanges currentMeta old.stamps indexed compareIndexMembership
  let others := currentMeta.filter fun file =>
    decide (file.relativePath ∉ changed ++ added) &&
      (file.version.isNone || decide (old.versions.get? file.relativePath ≠ file.version))
  (changed ++ walkedPaths others, added, deleted)

/-- Whether a file failed to be read at its present version. -/
def stillFails (memo : FinMap String (Option FileVersion)) (file : FileMeta) : Bool :=
  (file.version.filter FileVersion.isTrusted).any fun version =>
    decide ((memo.get? file.relativePath).bind id = some version)

/-- The files that failed at their present version, and the changed and new files without them. -/
def dropMemoizedFailures (memo : FinMap String (Option FileVersion)) (currentMeta : List FileMeta)
    (changed added : List String) : Finset String × List String × List String :=
  if memo.isEmpty then (∅, changed, added)
  else
    let stillFailing := (walkedPaths (currentMeta.filter (stillFails memo))).toFinset
    (stillFailing, changed.filter (fun path => decide (path ∉ stillFailing)),
      added.filter fun path => decide (path ∉ stillFailing))

/-- The stamps of a walk, without the files that were never built. -/
def stampsForIndexed (currentMeta : List FileMeta) (skipped : Finset String) :
    FinMap String FileStamp :=
  FinMap.ofList ((currentMeta.filter fun file => decide (file.relativePath ∉ skipped)).map
    fun file => (file.relativePath, file.stamp))

/-- What the index holds is described by the stored evidence and, more recently, by that in
memory. -/
def foldInEvidence {κ : Type} (stored current : FileEvidence κ) : FileEvidence κ where
  stamps := stored.stamps.union current.stamps
  contentIds := stored.contentIds
  versions := (stored.versions.filter fun path _ => !current.stamps.contains path).union
    (current.versions.filter fun path _ => current.stamps.contains path)

/-- The evidence of a walk: its stamps, with what is known about unchanged files. -/
def walkEvidence {κ : Type} (newStamps : FinMap String FileStamp) (old current : FileEvidence κ) :
    FileEvidence κ where
  stamps := newStamps
  contentIds := current.contentIds.filter fun path _ => newStamps.contains path
  versions := old.versions.filter fun path _ => newStamps.contains path

/-- All active paths. -/
def HybridIndex.allPaths (h : HybridIndex) : List String :=
  ((h.reader.filePaths.zipIdx.filter fun e => h.readerEntryActive (UInt32.ofNat e.2)).map Prod.fst) ++
    h.live.allPathsOrdered

/-- What the file system does during a stale check. -/
structure RefreshIO extends MergeIO where
  walk : MetaWalk
  /-- The stored evidence can be read. -/
  storedReadable : Bool
  /-- The server polls instead of watching. -/
  polling : Bool
  /-- The visibility of some path changed. -/
  visibilityChanged : Bool
  /-- The coverage flag changed. -/
  coverageChanged : Bool

namespace ServerState

variable {κ : Type}

/-- Take the listed files that are not in the index as the filename-only ones. The result says
whether anything changed. -/
def replaceFilenameExtraPaths (s : ServerState κ) (listedFiles : List String)
    (visibilityChanged : Bool) : ServerState κ × Bool :=
  let contentPaths := s.index.allPaths.toFinset
  let next := (listedFiles.filter fun path => decide (path ∉ contentPaths)).toFinset
  let changed := decide (s.filenameExtraPaths ≠ next) || visibilityChanged || !s.filenameIndexReady
  ({ s with
      filenameExtraPaths := next
      filenameIndexDirty := s.filenameIndexDirty || changed
      filenameIndexReady := true }, changed)

/-- Bring the filename-only files up to date when the index need not be written. -/
def refreshFilenameIndex (io : RefreshIO) (s : ServerState κ) (listedFiles : List String) :
    ServerState κ × Bool :=
  let (s, changed) := s.replaceFilenameExtraPaths listedFiles io.visibilityChanged
  if changed || s.filenameIndexDirty || io.coverageChanged then
    ({ s with filenameIndexDirty := if io.moved then false else s.filenameIndexDirty }, io.moved)
  else (s, true)

/-- The evidence that a walk is compared with. -/
def oldEvidence (io : RefreshIO) (s : ServerState κ) : FileEvidence κ :=
  foldInEvidence (if io.storedReadable then s.stored else .empty) s.fileEvidence

/-- The paths that the index has, active or not. -/
def indexedPaths (s : ServerState κ) : Finset String :=
  s.index.reader.filePaths.toFinset ∪ s.index.live.pathToId.keys

/-- What a stale check found: the files that are not tried again, the changed, new and deleted
ones, and the evidence of the walk. -/
structure StaleChanges (κ : Type) where
  skipped : Finset String
  changed : List String
  added : List String
  deleted : List String
  evidence : FileEvidence κ

/-- Compare the walk with the evidence. -/
def staleChanges (io : RefreshIO) (compareIndexMembership : Bool) (s : ServerState κ) :
    StaleChanges κ :=
  let currentMeta := io.walk.files
  let old := s.oldEvidence io
  let (changed, added, deleted) :=
    classifyEvidenceChanges currentMeta old s.indexedPaths compareIndexMembership
  let (skipped, changed, added) :=
    if io.polling then (∅, changed, added)
    else dropMemoizedFailures s.unreadable currentMeta changed added
  ⟨skipped, changed, added, deleted,
    walkEvidence (stampsForIndexed currentMeta skipped) old s.fileEvidence⟩

/-- Forget the failures of files that are gone. -/
def forgetGone (io : RefreshIO) (s : ServerState κ) : ServerState κ :=
  { s with unreadable :=
    s.unreadable.filter fun path _ => decide (path ∈ walkedPaths io.walk.files) }

/-- Nothing is indexed and nothing was found. -/
def nothingIndexed (io : RefreshIO) (s : ServerState κ) : Bool :=
  (s.oldEvidence io).stamps.isEmpty && decide (s.indexedPaths = ∅) && io.walk.files.isEmpty

/-- Nothing changed and nothing is pending. -/
def upToDate (c : StaleChanges κ) (s : ServerState κ) : Bool :=
  decide (c.changed.length + c.added.length + c.deleted.length = 0) &&
    !s.index.live.hasPendingChanges

/-- The stale check. The result says whether the index can be trusted afterwards. -/
def refreshStaleLocked (cfg : ServeConfig κ) (io : RefreshIO) (compareIndexMembership : Bool)
    (s : ServerState κ) : ServerState κ × Bool :=
  if 0 < io.walk.skippedError then (s, false)
  else
    let s := s.forgetGone io
    if s.nothingIndexed io then s.refreshFilenameIndex io io.walk.listedFiles
    else
      let c := s.staleChanges io compareIndexMembership
      if s.upToDate c then s.refreshFilenameIndex io io.walk.listedFiles
      else s.streamMergeStaleChanges cfg io.toMergeIO c.changed c.added c.deleted c.evidence
        ⟨c.skipped, true, some io.walk.listedFiles, io.walk.files⟩

/-! ## What a stale check does -/

variable {cfg : ServeConfig κ} {io : RefreshIO} {compareIndexMembership : Bool}
  {s s' : ServerState κ}

/-- Refreshing the list of names leaves everything else alone. -/
lemma refreshFilenameIndex_frame (io : RefreshIO) (s : ServerState κ) (listedFiles : List String) :
    ∃ extra ready dirty, (s.refreshFilenameIndex io listedFiles).1 =
      { s with
        filenameExtraPaths := extra
        filenameIndexReady := ready
        filenameIndexDirty := dirty } := by
  rw [refreshFilenameIndex]
  dsimp only [replaceFilenameExtraPaths]
  split_ifs
  all_goals exact ⟨_, _, _, rfl⟩

/-- **The cases of a stale check**: it leaves index and evidence alone, or merges the changes that
it found. -/
theorem refreshStaleLocked_cases (cfg : ServeConfig κ) (io : RefreshIO)
    (compareIndexMembership : Bool) (s : ServerState κ) :
    (∃ extra ready dirty unreadable, (s.refreshStaleLocked cfg io compareIndexMembership).1 =
      { s with
        filenameExtraPaths := extra
        filenameIndexReady := ready
        filenameIndexDirty := dirty
        unreadable }) ∨
      s.refreshStaleLocked cfg io compareIndexMembership =
        (s.forgetGone io).streamMergeStaleChanges cfg io.toMergeIO
          ((s.forgetGone io).staleChanges io compareIndexMembership).changed
          ((s.forgetGone io).staleChanges io compareIndexMembership).added
          ((s.forgetGone io).staleChanges io compareIndexMembership).deleted
          ((s.forgetGone io).staleChanges io compareIndexMembership).evidence
          ⟨((s.forgetGone io).staleChanges io compareIndexMembership).skipped, true,
            some io.walk.listedFiles, io.walk.files⟩ := by
  rw [refreshStaleLocked]
  dsimp only
  split_ifs
  · exact .inl ⟨_, _, _, _, rfl⟩
  · obtain ⟨extra, ready, dirty, heq⟩ :=
      refreshFilenameIndex_frame io (s.forgetGone io) io.walk.listedFiles
    exact .inl ⟨extra, ready, dirty, _, heq⟩
  · obtain ⟨extra, ready, dirty, heq⟩ :=
      refreshFilenameIndex_frame io (s.forgetGone io) io.walk.listedFiles
    exact .inl ⟨extra, ready, dirty, _, heq⟩
  · exact .inr rfl

/-- A stale check takes over identities, it does not make them. -/
lemma contentId_staleChanges {path : String} {id : κ}
    (h : (s.staleChanges io compareIndexMembership).evidence.contentId path = some id) :
    s.fileEvidence.contentId path = some id := by
  have h' : (s.fileEvidence.contentIds.filter fun path _ =>
      (s.staleChanges io compareIndexMembership).evidence.stamps.contains path).get? path =
        some id := h
  exact (FinMap.get?_filter_eq_some.mp h').1

end ServerState

end Tgrep
