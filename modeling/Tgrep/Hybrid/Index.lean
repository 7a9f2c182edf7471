import Mathlib.Data.String.Basic
import Tgrep.Data.BitSet
import Tgrep.Live.Index
import Tgrep.Query.Execute
import Tgrep.Reader

/-!
# The hybrid index

An on-disk index under an in-memory overlay. Queries return the union of both layers, with the
overlay taking precedence for files that have been modified or deleted.

## Main definitions

* `ReaderScope`: the reader ids that a scoped query may consider.
* `HybridIndex`: the two layers.
* `HybridIndex.executeQueryWithMasksIn`: run a plan, restricted to the paths with a prefix.
* `HybridIndex.prunePersistedEntriesExcept`: drop the overlay entries that the reader has.

## Implementation notes

A query takes one snapshot of the reader, so the reader is a field here and swapping it is
building another `HybridIndex`. The root directory only serves to build absolute paths and is
left out.
-/

namespace Tgrep

/-- The reader ids that a scoped query may consider: every valid id, or a bit set of the ids whose
paths start with the scope prefix. -/
structure ReaderScope where
  /-- The number of files of the reader. -/
  files : ℕ
  /-- The bit set. -/
  words : Option (List UInt64)

namespace ReaderScope

/-- The scope of a prefix; the empty prefix selects everything. -/
def new (reader : IndexReader) (pathPrefix : String) : ReaderScope where
  files := reader.numFiles
  words :=
    if pathPrefix = "" then none
    else
      some ((reader.fileIdsWithPrefix pathPrefix).foldl (fun words id => BitSet.set words id.toNat)
        (BitSet.zeros reader.numFiles))

/-- Whether an id is in scope; ids out of range never are. -/
def contains (s : ReaderScope) (id : UInt32) : Bool :=
  decide (id.toNat < s.files) && s.words.all fun words => BitSet.test words id.toNat

end ReaderScope

/-- An on-disk index with a live overlay. -/
structure HybridIndex where
  /-- The on-disk index. -/
  reader : IndexReader
  /-- The overlay. -/
  live : LiveIndex

namespace HybridIndex

/-! ## Queries -/

/-- Whether a reader file is still active: neither deleted nor overridden by the overlay. -/
def readerEntryActive (h : HybridIndex) (fileId : UInt32) : Bool :=
  match h.reader.filePath fileId with
  | some path => !h.live.isDeleted path && !h.live.hasPath path
  | none => false

/-- The postings of a trigram: the active ones of the reader, then those of the overlay. -/
def lookupTrigramWithMasks (h : HybridIndex) (trigram : UInt32) : List PostingEntry :=
  ((h.reader.lookupTrigramWithMasks trigram).filter fun e => h.readerEntryActive e.fileId) ++
    h.live.lookupTrigramWithMasks trigram

/-- The path of a file id of either layer. -/
def resolvePath (h : HybridIndex) (fileId : UInt32) : Option String :=
  if LiveIndex.isOverlayId fileId then h.live.filePath fileId else h.reader.filePath fileId

/-- Whether a path is active in either layer. -/
def hasActivePath (h : HybridIndex) (path : String) : Bool :=
  if h.live.hasPath path then true
  else if h.live.isDeleted path then false
  else h.reader.containsPath path

/-- Whether an overlay file is in scope. -/
def liveInScope (h : HybridIndex) (pathPrefix : String) (fileId : UInt32) : Bool :=
  decide (pathPrefix = "") || (h.live.filePath fileId).any fun path => startsWith path pathPrefix

/-- The postings of a trigram that a scoped query considers. Reader postings are not yet checked
against the overlay. -/
def scopedLookup (h : HybridIndex) (pathPrefix : String) (tri : UInt32) : List PostingEntry :=
  let scope := ReaderScope.new h.reader pathPrefix
  let entries := (h.reader.lookupTrigramWithMasks tri).filter fun e => scope.contains e.fileId
  let liveEntries :=
    (h.live.lookupTrigramWithMasks tri).filter fun e => h.liveInScope pathPrefix e.fileId
  entries ++ Ascending.sortByKey PostingEntry.fileId liveEntries

/-- All files in scope, before the reader files are checked against the overlay. -/
def scopedFileIds (h : HybridIndex) (pathPrefix : String) : List UInt32 :=
  let ids :=
    if pathPrefix = "" then h.reader.allFileIds
    else Ascending.sortByKey (fun id => id) (h.reader.fileIdsWithPrefix pathPrefix)
  let liveIds := h.live.allFileIds.filter fun fileId => h.liveInScope pathPrefix fileId
  ids ++ Ascending.sortByKey (fun id => id) liveIds

/-- Execute a plan, restricted to the paths that start with a prefix. The reader that was used is
returned along with the ids. -/
def executeQueryWithMasksIn (h : HybridIndex) (plan : QueryPlan) (pathPrefix : String) :
    List UInt32 × IndexReader :=
  let ids :=
    if plan.isMatchAll then h.scopedFileIds pathPrefix
    else executePlanWithMasks plan (h.scopedLookup pathPrefix)
  (ids.filter fun fileId => LiveIndex.isOverlayId fileId || h.readerEntryActive fileId, h.reader)

/-- Execute a plan. -/
def executeQueryWithMasks (h : HybridIndex) (plan : QueryPlan) : List UInt32 × IndexReader :=
  h.executeQueryWithMasksIn plan ""

/-! ## Pruning -/

/-- Remove the overlay entries that the reader has, except for the preserved paths. -/
def prunePersistedEntriesExcept (h : HybridIndex) (preserved : Finset String) : HybridIndex :=
  let readerPaths := h.reader.filePaths.toFinset.filter fun path => path ∉ preserved
  match h.live.tryDropAllPersisted readerPaths with
  | (live, true) => { h with live }
  | (live, false) =>
    let toRemove := live.pathToId.keys.sort.filter fun path => path ∈ readerPaths
    { h with live := live.batchRemoveOverlayEntries toRemove }

end HybridIndex

end Tgrep
