import Tgrep.Data.FinMap

/-!
# Evidence about indexed files

For each path an index generation may keep a stamp, the identity of the text its postings were
extracted from, and the version of the file that was read.

## Main definitions

* `FileStamp`, `FileVersion`: what metadata says about a file.
* `FileEvidence`: the evidence of all paths.
* `FileEvidence.insertVerified`, `FileEvidence.remove`, `FileEvidence.retain`: its changes.
* `FileEvidence.persisted`: what is left of it after it was written and read.

## Main results

* `FileEvidence.contentId_insertVerified`, `FileEvidence.contentId_remove`: the identities after a
  change.

## Implementation notes

The type of identities is a parameter: in the code it is a truncated BLAKE3 digest. Times are
numbers of nanoseconds. Of the encoding of a version only what is trusted is kept.
-/

namespace Tgrep

/-- The modification time in seconds and the size of a file. -/
structure FileStamp where
  mtime : UInt64
  size : UInt64
  deriving DecidableEq

/-- Full-resolution metadata that identifies the version of a file. -/
structure FileVersion where
  stamp : FileStamp
  modified : Option ℤ
  created : Option ℤ
  device : UInt64
  inode : UInt64
  changeSeconds : ℤ
  changeNanos : ℤ
  deriving DecidableEq

/-- Whether the platform supplied enough metadata for precise comparisons. -/
def FileVersion.isTrusted (v : FileVersion) : Bool :=
  if v.modified.isNone then false else decide (0 ≤ v.changeNanos ∧ v.changeNanos < 1000000000)

/-- The evidence of one index generation. -/
structure FileEvidence (κ : Type) where
  stamps : FinMap String FileStamp
  contentIds : FinMap String κ
  versions : FinMap String FileVersion

namespace FileEvidence

variable {κ : Type}

/-- No evidence. -/
def empty : FileEvidence κ := ⟨.empty, .empty, .empty⟩

instance : Inhabited (FileEvidence κ) := ⟨empty⟩

/-- The stamp of a path. -/
def stamp (e : FileEvidence κ) (path : String) : Option FileStamp := e.stamps.get? path

/-- The identity of the text of a path. -/
def contentId (e : FileEvidence κ) (path : String) : Option κ := e.contentIds.get? path

/-- The version of a path, if it is trusted and has the stamp of the path. -/
def version (e : FileEvidence κ) (path : String) : Option FileVersion :=
  (e.versions.get? path).filter fun v => v.isTrusted && decide (e.stamp path = some v.stamp)

/-- Insert what was validated around a read. Incompatible evidence clears the previous version. -/
def insertVerified (e : FileEvidence κ) (path : String) (stamp : FileStamp) (contentId : Option κ)
    (version : Option FileVersion) : FileEvidence κ where
  stamps := e.stamps.insert path stamp
  contentIds := e.contentIds.alter path fun _ => contentId
  versions := e.versions.alter path fun _ =>
    version.filter fun v => v.isTrusted && decide (v.stamp = stamp)

/-- Insert a stamp without a version. -/
def insert (e : FileEvidence κ) (path : String) (stamp : FileStamp) (contentId : Option κ) :
    FileEvidence κ :=
  e.insertVerified path stamp contentId none

/-- Forget a path. -/
def remove (e : FileEvidence κ) (path : String) : FileEvidence κ where
  stamps := e.stamps.erase path
  contentIds := e.contentIds.erase path
  versions := e.versions.erase path

/-- Keep the paths whose stamps are kept, and the versions that have these stamps. -/
def retain (e : FileEvidence κ) (keep : String → FileStamp → Bool) : FileEvidence κ :=
  let stamps := e.stamps.filter keep
  { stamps
    contentIds := e.contentIds.filter fun path _ => stamps.contains path
    versions := e.versions.filter fun path v => decide (stamps.get? path = some v.stamp) }

/-- What is left after the evidence was written and read: the stamps, and what stamped paths
have. -/
def persisted (e : FileEvidence κ) : FileEvidence κ where
  stamps := e.stamps
  contentIds := e.contentIds.filter fun path _ => e.stamps.contains path
  versions := e.versions.filter fun path v => decide (e.version path = some v)

/-! ### Identities -/

variable (e : FileEvidence κ) (paths : List String) (path : String)

lemma contentId_insertVerified (stamp : FileStamp) (contentId : Option κ)
    (version : Option FileVersion) (path' : String) :
    (e.insertVerified path stamp contentId version).contentId path' =
      if path' = path then contentId else e.contentId path' := by
  simp only [insertVerified, FileEvidence.contentId, FinMap.get?_alter]

lemma contentId_remove (path' : String) :
    (e.remove path).contentId path' = if path' = path then none else e.contentId path' := by
  simp only [remove, FileEvidence.contentId, FinMap.get?_erase]

/-- Forgetting some paths. -/
lemma contentId_foldl_remove :
    (paths.foldl remove e).contentId path = if path ∈ paths then none else e.contentId path := by
  induction paths generalizing e with
  | nil => simp
  | cons p paths ih =>
    rw [List.foldl_cons, ih, contentId_remove]
    by_cases hp : path = p <;> simp [hp]

end FileEvidence

end Tgrep
