import Tgrep.Data.Ascending
import Tgrep.Trigram
import Tgrep.Ondisk

/-!
# The live overlay

The in-memory index of files that have changed since the on-disk index was built. Five tables are
kept in step: the posting sets of each trigram, the masks of each posting, the path of each file
id, the id of each path, and the tombstones of deleted paths. A sixth one records the allocation
of each posting set.

## Main definitions

* `LiveIndex`: the overlay.
* `LiveIndex.commitUpsert`, `LiveIndex.upsertFileWithTrigrams`, `LiveIndex.deleteFile`,
  `LiveIndex.removeOverlayEntry`, `LiveIndex.batchRemoveOverlayEntries`,
  `LiveIndex.clearReconciledPaths`, `LiveIndex.tryDropAllPersisted`: its mutations.
* `LiveIndex.lookupTrigramWithMasks`: the postings of a trigram.

## Implementation notes

Hash maps and sets are finite maps and finite sets: nothing here depends on their iteration
order. The capacity that a hash set reports after an insertion is decided by the allocator, so it
is an argument of the mutations that record it. The watermarks of the top-level tables are read
by the memory estimate only and are left out.
-/

namespace Tgrep

/-- Bit flag that distinguishes overlay file ids from reader file ids. -/
def OVERLAY_BIT : UInt32 := (1 : UInt32) <<< 31

/-- The largest capacity a hash table has reported. -/
structure HashTableAllocation where
  /-- The watermark. -/
  capacity : ℕ := 0
  deriving DecidableEq

/-- Raise the watermark to a reported capacity. -/
def HashTableAllocation.observe (a : HashTableAllocation) (capacity : ℕ) : HashTableAllocation :=
  ⟨max a.capacity capacity⟩

/-- The mutable, in-memory trigram index overlay. -/
structure LiveIndex where
  /-- Trigram → set of file ids (with `OVERLAY_BIT` set). -/
  inverted : FinMap TrigramHash (Finset UInt32)
  /-- Masks per trigram and file id. -/
  masks : FinMap (TrigramHash × UInt32) TrigramMasks
  /-- File id → relative path. -/
  filePaths : FinMap UInt32 String
  /-- Path → file id. -/
  pathToId : FinMap String UInt32
  /-- Paths that have been deleted. -/
  deletedPaths : Finset String
  /-- The allocation of each posting set. -/
  postingAllocations : FinMap TrigramHash HashTableAllocation
  /-- Next file id counter, before applying `OVERLAY_BIT`. -/
  nextId : UInt32
  /-- Number of mutations since the last save. -/
  dirtyCount : UInt32

namespace LiveIndex

/-- The empty overlay. -/
def new : LiveIndex :=
  ⟨.empty, .empty, .empty, .empty, ∅, .empty, 0, 0⟩

/-- Whether a file id belongs to the overlay. -/
def isOverlayId (fileId : UInt32) : Bool := fileId &&& OVERLAY_BIT != 0

/-! ## Removing ids -/

/-- What is left of a posting set, if anything is. -/
def retainedPosting (keep : UInt32 → Bool) (set : Finset UInt32) : Option (Finset UInt32) :=
  let kept := set.filter fun fid => keep fid
  if kept = ∅ then none else some kept

/-- One pass over the posting sets and one over the masks that drop the ids that `keep` rejects.
A posting set that becomes empty is dropped together with its allocation. -/
def retainIds (s : LiveIndex) (keep : UInt32 → Bool) : LiveIndex :=
  { s with
    inverted := s.inverted.filterMap fun _ set => retainedPosting keep set
    postingAllocations := s.postingAllocations.filter fun tri _ =>
      match s.inverted.get? tri with
      | some set => (retainedPosting keep set).isSome
      | none => true
    masks := s.masks.filter fun key _ => keep key.2 }

/-- Remove a file from every table. -/
def removeFileById (s : LiveIndex) (fileId : UInt32) : LiveIndex :=
  let s := s.retainIds fun fid => fid != fileId
  match s.filePaths.get? fileId with
  | some path => { s with filePaths := s.filePaths.erase fileId, pathToId := s.pathToId.erase path }
  | none => s

/-- Remove an overlay entry by path, without marking the path as deleted. -/
def removeOverlayEntry (s : LiveIndex) (path : String) : LiveIndex :=
  match s.pathToId.get? path with
  | some fileId => s.removeFileById fileId
  | none => s

/-! ## Inserting and deleting -/

/-- Add a posting, and record the capacity that its set reports. -/
def insertPosting (s : LiveIndex) (fileId : UInt32) (capacity : TrigramHash → ℕ)
    (tri : TrigramHash) : LiveIndex :=
  { s with
    inverted := s.inverted.alter tri fun ids => some (insert fileId (ids.getD ∅))
    postingAllocations := s.postingAllocations.alter tri fun allocation =>
      some ((allocation.getD {}).observe (capacity tri)) }

/-- Add a posting with its masks. -/
def insertPostingWithMasks (s : LiveIndex) (fileId : UInt32) (capacity : TrigramHash → ℕ)
    (entry : TrigramHash × TrigramMasks) : LiveIndex :=
  let s := s.insertPosting fileId capacity entry.1
  { s with masks := s.masks.insert (entry.1, fileId) entry.2 }

/-- The id that the next upsert hands out. -/
def nextFileId (s : LiveIndex) : UInt32 := s.nextId ||| OVERLAY_BIT

/-- `next_id.fetch_add(1)`: the counter wraps. -/
def advanceId (s : LiveIndex) : LiveIndex := { s with nextId := s.nextId + 1 }

/-- Enter the path of an upserted file. -/
def insertPath (s : LiveIndex) (relPath : String) (fileId : UInt32) : LiveIndex :=
  { s with
    filePaths := s.filePaths.insert fileId relPath
    pathToId := s.pathToId.insert relPath fileId
    deletedPaths := s.deletedPaths.erase relPath
    dirtyCount := s.dirtyCount + 1 }

/-- Insert or update a file with precomputed masks. -/
def commitUpsert (s : LiveIndex) (relPath : String) (perTri : TrigramMaskMap)
    (capacity : TrigramHash → ℕ) : LiveIndex :=
  let s := s.removeOverlayEntry relPath
  let fileId := s.nextFileId
  let s := perTri.toList.foldl (fun s entry => s.insertPostingWithMasks fileId capacity entry)
    s.advanceId
  s.insertPath relPath fileId

/-- Insert or update a file. -/
def upsertFile (s : LiveIndex) (relPath : String) (content : List UInt8)
    (capacity : TrigramHash → ℕ) : LiveIndex :=
  s.commitUpsert relPath (Trigram.extractMergedMasks content) capacity

/-- Insert or update a file with precomputed trigrams, whose masks are not stored. -/
def upsertFileWithTrigrams (s : LiveIndex) (relPath : String) (trigrams : List TrigramHash)
    (capacity : TrigramHash → ℕ) : LiveIndex :=
  let s := s.removeOverlayEntry relPath
  let fileId := s.nextFileId
  let s := trigrams.foldl (fun s tri => s.insertPosting fileId capacity tri) s.advanceId
  s.insertPath relPath fileId

/-- Mark a file as deleted. -/
def deleteFile (s : LiveIndex) (relPath : String) : LiveIndex :=
  let s := s.removeOverlayEntry relPath
  { s with deletedPaths := insert relPath s.deletedPaths, dirtyCount := s.dirtyCount + 1 }

/-! ## Pruning -/

/-- Take a path out of the two path tables, and collect its id. -/
def unlinkPath (s : LiveIndex × Finset UInt32) (path : String) : LiveIndex × Finset UInt32 :=
  match s.1.pathToId.get? path with
  | some fileId =>
    ({ s.1 with
        pathToId := s.1.pathToId.erase path
        filePaths := s.1.filePaths.erase fileId }, insert fileId s.2)
  | none => s

/-- Remove many overlay entries in one pass. -/
def batchRemoveOverlayEntries (s : LiveIndex) (paths : List String) : LiveIndex :=
  if paths.isEmpty then s
  else
    let unlinked := paths.foldl unlinkPath (s, ∅)
    if unlinked.2 = ∅ then unlinked.1
    else if unlinked.1.pathToId.isEmpty then
      { unlinked.1 with inverted := .empty, masks := .empty, postingAllocations := .empty }
    else unlinked.1.retainIds fun fid => fid ∉ unlinked.2

/-- Clear the entries and tombstones that a reconciliation has incorporated. -/
def clearReconciledPaths (s : LiveIndex) (paths : List String) : LiveIndex :=
  let s := s.batchRemoveOverlayEntries paths
  { s with deletedPaths := paths.foldl (fun deleted path => deleted.erase path) s.deletedPaths }

/-- If every overlay entry is among the reader's paths and no tombstone is, drop the whole
overlay; the flag says whether this was done. -/
def tryDropAllPersisted (s : LiveIndex) (readerPaths : Finset String) : LiveIndex × Bool :=
  if ¬ s.pathToId.keys ⊆ readerPaths then (s, false)
  else if ∃ path ∈ s.deletedPaths, path ∈ readerPaths then (s, false)
  else
    ({ new with nextId := s.nextId, dirtyCount := s.dirtyCount }, true)

/-- A save has taken over every mutation. -/
def resetDirtyCount (s : LiveIndex) : LiveIndex := { s with dirtyCount := 0 }

/-! ## Lookups -/

/-- The masks of a posting; without an entry, the masks that filter nothing. -/
def getMasks (s : LiveIndex) (trigram : TrigramHash) (fileId : UInt32) : TrigramMasks :=
  (s.masks.get? (trigram, fileId)).getD ⟨0xff, 0xff⟩

/-- The postings of a trigram. -/
def lookupTrigramWithMasks (s : LiveIndex) (trigram : TrigramHash) : List PostingEntry :=
  match s.inverted.get? trigram with
  | some set =>
    set.sort.map fun fid =>
      let m := s.getMasks trigram fid
      ⟨fid, m.locMask, m.nextMask⟩
  | none => []

/-- The path of an overlay file. -/
def filePath (s : LiveIndex) (fileId : UInt32) : Option String := s.filePaths.get? fileId

/-- Whether a path is tombstoned. -/
def isDeleted (s : LiveIndex) (path : String) : Bool := path ∈ s.deletedPaths

/-- Whether the overlay has an entry for a path. -/
def hasPath (s : LiveIndex) (path : String) : Bool := s.pathToId.contains path

/-- All file ids of the overlay. -/
def allFileIds (s : LiveIndex) : List UInt32 := s.filePaths.keys.sort

/-- All paths in insertion order, by raw id. -/
def allPathsOrdered (s : LiveIndex) : List String :=
  (Ascending.sortByKey (fun pair => pair.1 &&& ~~~OVERLAY_BIT) s.filePaths.toList).map Prod.snd

end LiveIndex

end Tgrep
