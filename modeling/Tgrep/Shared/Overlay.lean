import Mathlib.Data.Prod.Lex
import Mathlib.Data.String.Basic
import Tgrep.FileTable
import Tgrep.Live.Index

/-!
# Overlay checkpoints

The part of a worktree checkpoint that describes the overlay: the postings of each file by path,
without file ids, and the tombstones. Capturing regroups the posting sets of the overlay by path;
restoring replays upserts and deletions on an empty overlay.

## Main definitions

* `OverlayData`, `OverlayFile`: the checkpoint.
* `OverlayData.capture`: the checkpoint of an overlay.
* `OverlayData.intoLive`: the overlay of a checkpoint.

## Implementation notes

The order in which the posting sets of the overlay are iterated is an argument of the capture: a
list of all pairs of a trigram and a file id. Under a permit the entries of a file go through an
ordered set instead of a sort, so `controlled` stays an argument; the checks of the permit are
left out. The capacities that the hash sets report during a restore are an argument as well.
-/

namespace Tgrep

/-- The postings of one file: trigram, location mask, next-byte mask. -/
structure OverlayFile where
  /-- The path. -/
  path : String
  /-- The postings. There are no base or live file ids. -/
  trigrams : List (TrigramHash × UInt8 × UInt8)
  deriving DecidableEq

/-- The content overlay of a worktree. -/
structure OverlayData where
  /-- The files with an entry. -/
  files : List OverlayFile
  /-- The tombstones. -/
  deleted : List String
  deriving DecidableEq

/-! ## Checks -/

/-- The error of a malformed checkpoint. -/
def invalid (message : String) : Error := .indexCorrupted message

/-- Stop with an error unless a condition holds. -/
def ensure (p : Prop) [Decidable p] (message : String) : Except Error Unit :=
  if p then .ok () else .error (invalid message)

/-- Whether a posting can come from a file: a trigram has three bytes, and it starts somewhere. -/
def ValidTrigram (trigram : TrigramHash) (locMask : UInt8) : Prop :=
  trigram ≤ 0x00ffffff ∧ locMask ≠ 0

instance (trigram : TrigramHash) (locMask : UInt8) : Decidable (ValidTrigram trigram locMask) :=
  inferInstanceAs (Decidable (_ ∧ _))

/-- Refuse a path that is not normalized and root-relative. -/
def validatePath (path : String) : Except Error Unit :=
  ensure (validateIndexPath path) "index path must be a normalized root-relative path"

/-- Refuse a posting that cannot come from a file. -/
def validateTrigram (trigram : TrigramHash) (locMask : UInt8) : Except Error Unit :=
  ensure (ValidTrigram trigram locMask) "invalid trigram or location mask in worktree overlay"

/-! ## Capturing -/

/-- The order of postings: by trigram, then by masks. -/
def postingKey (posting : TrigramHash × UInt8 × UInt8) : TrigramHash ×ₗ UInt8 ×ₗ UInt8 :=
  toLex (posting.1, toLex posting.2)

/-- The postings of a file in order. An ordered set drops repetitions, a sort does not. -/
def orderPostings (controlled : Bool) (trigrams : List (TrigramHash × UInt8 × UInt8)) :
    List (TrigramHash × UInt8 × UInt8) :=
  let ordered := Ascending.sortByKey postingKey trigrams
  if controlled then Ascending.dedupByKey postingKey ordered else ordered

namespace OverlayData

/-- Give an active path an empty list of postings. -/
def captureFile (files : FinMap String (List (TrigramHash × UInt8 × UInt8))) (path : String) :
    Except Error (FinMap String (List (TrigramHash × UInt8 × UInt8))) := do
  validatePath path
  .ok (files.insert path [])

/-- Give a posting to the path of its file. -/
def capturePosting (live : LiveIndex)
    (files : FinMap String (List (TrigramHash × UInt8 × UInt8))) (posting : TrigramHash × UInt32) :
    Except Error (FinMap String (List (TrigramHash × UInt8 × UInt8))) := do
  let some path := live.filePath posting.2 | .error (invalid "overlay posting has no file path")
  let masks := live.getMasks posting.1 posting.2
  validateTrigram posting.1 masks.locMask
  let some trigrams := files.get? path | .error (invalid "overlay posting has no active file")
  .ok (files.insert path (trigrams ++ [(posting.1, masks.locMask, masks.nextMask)]))

/-- Take over a tombstone. -/
def captureDeleted (deleted : Finset String) (path : String) : Except Error (Finset String) := do
  validatePath path
  .ok (insert path deleted)

/-- The checkpoint of an overlay whose posting sets are iterated in the order `postings`. -/
def capture (controlled : Bool) (live : LiveIndex) (postings : List (TrigramHash × UInt32)) :
    Except Error OverlayData := do
  let files ← live.pathToId.keys.sort.foldlM captureFile FinMap.empty
  let files ← postings.foldlM (capturePosting live) files
  let deleted ← live.deletedPaths.sort.foldlM captureDeleted ∅
  .ok ⟨files.toList.map fun file => ⟨file.1, orderPostings controlled file.2⟩, deleted.sort⟩

/-! ## Restoring -/

/-- Enter a posting into the table of its file. -/
def restorePosting (trigrams : TrigramMaskMap) (posting : TrigramHash × UInt8 × UInt8) :
    Except Error TrigramMaskMap := do
  validateTrigram posting.1 posting.2.1
  ensure (¬ trigrams.contains posting.1) "duplicate trigram in worktree overlay"
  .ok (trigrams.insert posting.1 ⟨posting.2.1, posting.2.2⟩)

/-- Upsert a file of the checkpoint; the set holds the paths seen so far. -/
def restoreFile (capacity : String → TrigramHash → ℕ) (s : LiveIndex × Finset String)
    (file : OverlayFile) : Except Error (LiveIndex × Finset String) := do
  validatePath file.path
  ensure (file.path ∉ s.2) "duplicate path in worktree overlay"
  let trigrams ← file.trigrams.foldlM restorePosting FinMap.empty
  .ok (s.1.commitUpsert file.path trigrams (capacity file.path), insert file.path s.2)

/-- Set a tombstone of the checkpoint. -/
def restoreDeleted (s : LiveIndex × Finset String) (path : String) :
    Except Error (LiveIndex × Finset String) := do
  validatePath path
  ensure (path ∉ s.2) "duplicate or conflicting tombstone in worktree overlay"
  .ok (s.1.deleteFile path, insert path s.2)

/-- The overlay of a checkpoint. -/
def intoLive (capacity : String → TrigramHash → ℕ) (data : OverlayData) : Except Error LiveIndex := do
  ensure (data.files.length < OVERLAY_BIT.toNat) "too many files in worktree overlay"
  let s ← data.files.foldlM (restoreFile capacity) (LiveIndex.new, ∅)
  let s ← data.deleted.foldlM restoreDeleted s
  .ok s.1.resetDirtyCount

/-! ## The canonical order -/

/-- The checkpoint with its files, postings and tombstones in order. -/
def canonical (data : OverlayData) : OverlayData :=
  ⟨Ascending.sortByKey OverlayFile.path
      (data.files.map fun file => ⟨file.path, Ascending.sortByKey postingKey file.trigrams⟩),
    Ascending.sortByKey id data.deleted⟩

end OverlayData

end Tgrep
