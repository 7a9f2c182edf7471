import Tgrep.Build.ForFiles
import Tgrep.Hybrid.Index

/-!
# Single-file updates of a server

A server keeps a hybrid index up to date with the files that it is told about. An event about one
file reads it and commits its postings to the overlay, or drops what is indexed for it, or moves it
to the files that are only listed, or schedules another attempt. A commit is skipped when the index
is known to hold the very bytes that were read: by the bytes that produced the overlay entry, or by
the identity of the text that the reader was built from.

## Main definitions

* `RecentReindexCache`: the bytes that produced recent overlay entries.
* `ServerState`: the index and what the server remembers about it.
* `ServerState.dropIndexedFile`, `ServerState.markFilenameOnly`, `ServerState.retryFailedReindex`,
  `ServerState.commitReindex`: the updates of one path.
* `ServerState.reindexFile`: the handling of an event.

## Main results

* `RecentReindexCache.mem_put`: what a cache remembers after an insertion.

## Implementation notes

What the file system answers is an argument, in the order in which it is asked. Everything runs
under the locks that make each function one step; the content cache, the visibility of paths and
the scheduling of refreshes, apart from the flag that asks for one, are left out.
-/

namespace Tgrep

open List

/-! ## Recent overlay entries -/

/-- The overlay id that a file got, and the bytes that were read. -/
structure RecentReindex where
  overlayId : UInt32
  bytes : List UInt8
  deriving DecidableEq

/-- The exact bytes that produced recent overlay entries, most recently used first. -/
structure RecentReindexCache where
  lru : List (String × RecentReindex)
  capacity : ℕ
  /-- The number of bytes in the cache. -/
  bytes : ℕ
  maxBytes : ℕ
  maxEntryBytes : ℕ

namespace RecentReindexCache

/-- An empty cache. -/
def new (capacity maxBytes maxEntryBytes : ℕ) : RecentReindexCache :=
  ⟨[], capacity, 0, maxBytes, maxEntryBytes⟩

/-- The record of a path. -/
def find (c : RecentReindexCache) (key : String) : Option (String × RecentReindex) :=
  c.lru.find? fun entry => decide (entry.1 = key)

/-- The overlay id recorded for a path, if the bytes are those recorded. The record becomes the
most recently used one. -/
def matchingOverlayId (c : RecentReindexCache) (key : String) (bytes : List UInt8) :
    RecentReindexCache × Option UInt32 :=
  match c.find key with
  | none => (c, none)
  | some entry =>
    ({ c with lru := entry :: c.lru.filter fun e => decide (e.1 ≠ key) },
      if entry.2.bytes = bytes then some entry.2.overlayId else none)

/-- Forget a path. -/
def pop (c : RecentReindexCache) (key : String) : RecentReindexCache :=
  match c.find key with
  | none => c
  | some entry =>
    { c with
      lru := c.lru.filter fun e => decide (e.1 ≠ key)
      bytes := c.bytes - entry.2.bytes.length }

/-- Evict the least recently used records, which come first here, while there are too many
bytes. -/
def evict (maxBytes : ℕ) :
    List (String × RecentReindex) → ℕ → List (String × RecentReindex) × ℕ
  | [], bytes => ([], if maxBytes < bytes then 0 else bytes)
  | entry :: rest, bytes =>
    if maxBytes < bytes then evict maxBytes rest (bytes - entry.2.bytes.length)
    else (entry :: rest, bytes)

/-- Make room for one record. -/
def makeRoom (c : RecentReindexCache) : RecentReindexCache :=
  if c.capacity ≤ c.lru.length then
    { c with
      lru := c.lru.dropLast
      bytes := c.bytes - (c.lru.getLast?.map fun e => e.2.bytes.length).getD 0 }
  else c

/-- Record the overlay id and the bytes of a path. The old record goes even when the new one is too
large. -/
def put (c : RecentReindexCache) (key : String) (overlayId : UInt32) (bytes : List UInt8) :
    RecentReindexCache :=
  let c := c.pop key
  let size := bytes.length
  if c.maxEntryBytes < size ∨ c.maxBytes < size then c
  else
    let c := c.makeRoom
    let kept := evict c.maxBytes ((key, ⟨overlayId, bytes⟩) :: c.lru).reverse (c.bytes + size)
    { c with lru := kept.1.reverse, bytes := kept.2 }

/-- Forget everything. -/
def clear (c : RecentReindexCache) : RecentReindexCache := { c with lru := [], bytes := 0 }

variable {c : RecentReindexCache} {key path : String} {r : RecentReindex}

lemma mem_of_find {entry : String × RecentReindex} (h : c.find key = some entry) :
    entry ∈ c.lru ∧ entry.1 = key := by
  rw [find] at h
  exact ⟨mem_of_find?_eq_some h, by simpa using find?_some h⟩

/-- A cache without the path forgets nothing. -/
lemma filter_of_find (h : c.find key = none) :
    (c.lru.filter fun e => decide (e.1 ≠ key)) = c.lru := by
  rw [filter_eq_self]
  intro e he
  have hnone := find?_eq_none.mp h e he
  simpa using hnone

lemma pop_lru : (c.pop key).lru = c.lru.filter fun e => decide (e.1 ≠ key) := by
  unfold pop
  split
  · next h => exact (filter_of_find h).symm
  · rfl

lemma mem_pop : (path, r) ∈ (c.pop key).lru ↔ (path, r) ∈ c.lru ∧ path ≠ key := by
  rw [pop_lru, mem_filter, decide_eq_true_eq]

lemma evict_sublist (maxBytes : ℕ) (l : List (String × RecentReindex)) (bytes : ℕ) :
    (evict maxBytes l bytes).1.Sublist l := by
  induction l generalizing bytes with
  | nil => exact List.Sublist.refl _
  | cons entry rest ih =>
    rw [evict]
    split_ifs
    · exact (ih _).cons _
    · exact List.Sublist.refl _

lemma makeRoom_sublist : c.makeRoom.lru.Sublist c.lru := by
  unfold makeRoom
  split_ifs
  · exact dropLast_sublist _
  · exact List.Sublist.refl _

/-- **What a cache remembers after an insertion**: the new record, and old ones of other paths. -/
theorem mem_put {overlayId : UInt32} {bytes : List UInt8}
    (h : (path, r) ∈ (c.put key overlayId bytes).lru) :
    (path = key ∧ r = ⟨overlayId, bytes⟩) ∨ ((path, r) ∈ c.lru ∧ path ≠ key) := by
  unfold put at h
  dsimp only at h
  split_ifs at h
  · exact .inr (mem_pop.mp h)
  · have hmem := (evict_sublist _ _ _).subset (mem_reverse.mp h)
    rw [mem_reverse, mem_cons, Prod.mk.injEq] at hmem
    rcases hmem with ⟨rfl, rfl⟩ | hmem
    · exact .inl ⟨rfl, rfl⟩
    · exact .inr (mem_pop.mp (makeRoom_sublist.subset hmem))

/-- A lookup changes the order only. -/
lemma mem_matchingOverlayId {bytes : List UInt8} :
    (path, r) ∈ (c.matchingOverlayId key bytes).1.lru → (path, r) ∈ c.lru := by
  unfold matchingOverlayId
  split
  · exact id
  · next entry hfind =>
    simp only [mem_cons, mem_filter]
    rintro (rfl | ⟨hmem, -⟩)
    · exact (mem_of_find hfind).1
    · exact hmem

/-- A lookup that succeeds found a record with these bytes. -/
lemma matchingOverlayId_eq_some {bytes : List UInt8} {id : UInt32}
    (h : (c.matchingOverlayId key bytes).2 = some id) : (key, ⟨id, bytes⟩) ∈ c.lru := by
  unfold matchingOverlayId at h
  split at h
  · cases h
  · next entry hfind =>
    obtain ⟨hmem, rfl⟩ := mem_of_find hfind
    dsimp only at h
    split_ifs at h with hbytes
    obtain rfl := Option.some.inj h
    obtain ⟨name, overlayId, bytes'⟩ := entry
    dsimp only at hbytes
    subst hbytes
    exact hmem

end RecentReindexCache

/-! ## The state of a server -/

/-- The settings of a server. -/
structure ServeConfig (κ : Type) where
  extraction : Extraction κ
  /-- Files above this size are not indexed. -/
  maxFileSize : Option UInt64
  /-- Whether a path has a binary extension. -/
  isBinaryExtension : String → Bool
  /-- Whether a path is in the directory of the index. -/
  inIndexDir : String → Bool

/-- What a server keeps about its files. -/
structure ServerState (κ : Type) where
  index : HybridIndex
  /-- Paths that are listed but not in the index. -/
  filenameExtraPaths : Finset String
  filenameIndexReady : Bool
  filenameIndexDirty : Bool
  recentReindexes : RecentReindexCache
  fileEvidence : FileEvidence κ
  /-- Files that could not be read by a merge, with the version that was tried. -/
  unreadable : FinMap String (Option FileVersion)
  /-- A refresh of everything is asked for. -/
  ignoreRulesDirty : Bool
  /-- The evidence in `filestamps.json`. -/
  stored : FileEvidence κ

/-- What opening a path and reading its metadata gave. -/
inductive Opened where
  /-- An error that proves that the path does not belong in the index. -/
  | ineligible
  /-- An error that says nothing about the path. -/
  | failed
  | opened (isFile : Bool) (version : FileVersion)

/-- Reading a file with the size limit. -/
inductive CappedRead where
  | data (bytes : List UInt8)
  | tooLarge
  | failed

/-- One attempt to read a file: the handle, the read, and the version afterwards if it could be
inspected. -/
structure ReadAttempt where
  opened : Opened
  read : CappedRead
  after : Option FileVersion

/-- The check before a commit that the file still has the bytes that were read. -/
inductive StillHasBytes where
  | same
  /-- The bytes or the version differ; the path is inspected again. -/
  | changed (now : Opened)
  | ineligible
  | failed

/-- What the file system answers to an event about a file. -/
structure ReindexIO where
  first : Opened
  attempts : List ReadAttempt
  recheck : StillHasBytes

namespace ServeConfig

variable {κ : Type} (cfg : ServeConfig κ)

/-- Whether a file is above the size limit. -/
def tooLarge (version : FileVersion) : Bool :=
  cfg.maxFileSize.any fun limit => decide (limit < version.stamp.size)

/-- Whether a path is proved not to belong in the index. -/
def currentPathIsIneligible (path : String) : Opened → Bool
  | .ineligible => true
  | .failed => false
  | .opened isFile version => !isFile || cfg.isBinaryExtension path || cfg.tooLarge version

/-- What reading a file came to. -/
inductive Verified where
  | ineligible
  | failed (readFailed : Bool)
  | stable (bytes : List UInt8) (version : FileVersion)

/-- Read a file until its version is the same before and after the read. -/
def readStable (path : String) : List ReadAttempt → Verified
  | [] => .failed false
  | attempt :: rest =>
    match attempt.opened with
    | .ineligible => .ineligible
    | .failed => .failed false
    | .opened isFile version =>
      if !isFile || cfg.isBinaryExtension path || cfg.tooLarge version then .ineligible
      else match attempt.read with
        | .tooLarge => .ineligible
        | .failed => .failed true
        | .data bytes => if attempt.after = some version then .stable bytes version
            else readStable path rest

end ServeConfig

namespace ServerState

variable {κ : Type}

/-- Forget all recent overlay entries. -/
def forgetRecentReindexes (s : ServerState κ) : ServerState κ :=
  { s with recentReindexes := s.recentReindexes.clear }

/-- Drop everything that the index and the list of names hold for a path. A path that was never
indexed gets no tombstone. -/
def dropIndexedFile (s : ServerState κ) (relPath : String) : ServerState κ :=
  let removedExtra := decide (relPath ∈ s.filenameExtraPaths)
  let hadStamp := s.fileEvidence.stamps.contains relPath
  let s := { s with
    recentReindexes := s.recentReindexes.pop relPath
    filenameExtraPaths := s.filenameExtraPaths.erase relPath
    filenameIndexDirty := s.filenameIndexDirty || removedExtra
    fileEvidence := s.fileEvidence.remove relPath }
  if s.index.live.isDeleted relPath then s
  else if !hadStamp && !s.index.live.hasPath relPath && !s.index.reader.containsPath relPath then s
  else { s with index := { s.index with live := s.index.live.deleteFile relPath } }

/-- Move a path that is listed out of the content index. -/
def markFilenameOnly (s : ServerState κ) (relPath : String) : ServerState κ :=
  let inserted := decide (relPath ∉ s.filenameExtraPaths)
  let removedContent := s.index.hasActivePath relPath
  let s := { s with
    recentReindexes := s.recentReindexes.pop relPath
    filenameExtraPaths := insert relPath s.filenameExtraPaths
    filenameIndexDirty := s.filenameIndexDirty || inserted
    index := if removedContent then { s.index with live := s.index.live.deleteFile relPath }
      else s.index }
  if !inserted && !removedContent then s
  else { s with fileEvidence := s.fileEvidence.remove relPath }

/-- Move a file that was read and is binary to the listed ones. -/
def markBinary (s : ServerState κ) (relPath : String) (version : FileVersion) : ServerState κ :=
  let s := s.markFilenameOnly relPath
  { s with fileEvidence :=
      s.fileEvidence.insertVerified relPath version.stamp none (some version) }

/-- The stamp that says that a path must be read. -/
def retryStamp : FileStamp := ⟨0xFFFFFFFFFFFFFFFF, 0xFFFFFFFFFFFFFFFF⟩

/-- Remember that a path must be read, and ask for a refresh. -/
def retryFailedReindex (s : ServerState κ) (relPath : String) : ServerState κ :=
  { s with
    fileEvidence := s.fileEvidence.insert relPath retryStamp none
    ignoreRulesDirty := true }

/-- Whether the identity of a text is trusted. -/
def contentIdMatches [DecidableEq κ] (trusted decoded : Option κ) : Bool :=
  decoded.isSome && decide (trusted = decoded)

/-- Commit the postings of a file, unless the index is known to hold what was read. The result says
which overlay id the file got, if it was committed. -/
def commitReindex [DecidableEq κ] (s : ServerState κ) (relPath : String) (data : List UInt8)
    (perTri : TrigramMaskMap) (contentId : Option κ) (version : FileVersion)
    (capacity : TrigramHash → ℕ) : ServerState κ × Option UInt32 :=
  let candidate := s.recentReindexes.matchingOverlayId relPath data
  let duplicateOverlay := candidate.2.any fun overlayId =>
    decide (s.index.live.pathToId.get? relPath = some overlayId)
  let duplicateReader := !s.index.live.hasPath relPath && !s.index.live.isDeleted relPath &&
    s.index.reader.containsPath relPath &&
    contentIdMatches (s.fileEvidence.contentId relPath) contentId
  let live := if duplicateOverlay || duplicateReader then s.index.live
    else s.index.live.commitUpsert relPath perTri capacity
  let committed := if duplicateOverlay || duplicateReader then none else live.pathToId.get? relPath
  let removedExtra := decide (relPath ∈ s.filenameExtraPaths)
  ({ s with
      index := { s.index with live }
      filenameExtraPaths := s.filenameExtraPaths.erase relPath
      filenameIndexDirty := s.filenameIndexDirty || removedExtra
      fileEvidence := s.fileEvidence.insertVerified relPath version.stamp contentId (some version)
      recentReindexes := match committed with
        | none => candidate.1
        | some overlayId => candidate.1.put relPath overlayId data }, committed)

/-- Commit what was read of a file, after the check that the file still has it. The result says
whether text was to be committed, with the overlay id that it got if it was. -/
def settleReindex [DecidableEq κ] (cfg : ServeConfig κ) (s : ServerState κ) (relPath : String)
    (data : List UInt8) (version : FileVersion) (recheck : StillHasBytes)
    (capacity : TrigramHash → ℕ) : ServerState κ × Option (List UInt8 × Option UInt32) :=
  let text := cfg.extraction.decode data
  match recheck with
  | .changed now =>
    if cfg.currentPathIsIneligible relPath now then (s.dropIndexedFile relPath, none)
    else (s.retryFailedReindex relPath, none)
  | .ineligible => (s.dropIndexedFile relPath, none)
  | .failed => (s.retryFailedReindex relPath, none)
  | .same =>
    if isBinary text then (s.markBinary relPath version, none)
    else
      let committed := s.commitReindex relPath data (Trigram.extractMergedMasks text)
        (some (cfg.extraction.identify text)) version capacity
      (committed.1, some (data, committed.2))

/-- Handle an event about a file. The result says what text was to be committed, with the overlay id
that it got if it was. -/
def reindexFile [DecidableEq κ] (cfg : ServeConfig κ) (s : ServerState κ) (relPath : String)
    (force : Bool) (io : ReindexIO) (capacity : TrigramHash → ℕ) :
    ServerState κ × Option (List UInt8 × Option UInt32) :=
  if cfg.inIndexDir relPath then (s, none)
  else match io.first with
    | .ineligible => (s.dropIndexedFile relPath, none)
    | .failed => (s.retryFailedReindex relPath, none)
    | .opened isFile version =>
      if !isFile || cfg.tooLarge version then (s.dropIndexedFile relPath, none)
      else if cfg.isBinaryExtension relPath then (s.markFilenameOnly relPath, none)
      else if !force && decide (s.fileEvidence.version relPath = some version) then (s, none)
      else match cfg.readStable relPath (io.attempts.take 2) with
        | .ineligible => (s.dropIndexedFile relPath, none)
        | .failed readFailed =>
          let s := if readFailed && !force && !s.index.hasActivePath relPath then
            s.markFilenameOnly relPath else s
          (s.retryFailedReindex relPath, none)
        | .stable data version => s.settleReindex cfg relPath data version io.recheck capacity

end ServerState

end Tgrep
