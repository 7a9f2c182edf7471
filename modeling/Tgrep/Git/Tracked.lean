import Tgrep.Data.Ascending
import Tgrep.Data.Search
import Tgrep.Git.Index

/-!
# Tracked files

The files that Git tracks, as a set of normalised paths, some of them also as an ordered set. Whether
one of them is beneath a directory is found in the ordered set by one search, and without it by a
scan.

## Main definitions

* `TrackedFiles`: the set of paths with its ordered copy.
* `TrackedFiles.containsAnyUnder`: whether something beneath a directory is tracked.

## Main results

* `TrackedFiles.containsAnyUnder_eq`: the search finds what the scan finds.
-/

namespace Tgrep.GitIndex

/-- The paths that Git tracks, normalised. The ordered copy lists the same paths. -/
structure TrackedFiles where
  paths : List (List UInt8)
  ordered : Option (List (List UInt8))
  ascending : ∀ l, ordered = some l → Ascending id l
  mem_ordered : ∀ l, ordered = some l → ∀ path, path ∈ l ↔ path ∈ paths

namespace TrackedFiles

/-- A set of paths without an ordered copy. -/
def unordered (paths : List (List UInt8)) : TrackedFiles where
  paths
  ordered := none
  ascending := nofun
  mem_ordered := nofun

/-- The paths of a listing, with an ordered copy. -/
def ofListing (listing : List (List UInt8)) : TrackedFiles where
  paths := listing.map normalise
  ordered := some (Ascending.sortDedup id (listing.map normalise))
  ascending := by
    intro l h
    obtain rfl := Option.some.inj h
    exact Ascending.sortDedup_ascending _
  mem_ordered := by
    intro l h path
    obtain rfl := Option.some.inj h
    exact Ascending.mem_sortDedup_id

/-- Whether a path is tracked. -/
def contains (t : TrackedFiles) (relPath : List UInt8) : Bool := t.paths.contains (normalise relPath)

/-- Whether anything beneath a directory is tracked. -/
def containsAnyUnder (t : TrackedFiles) (relDir : List UInt8) : Bool :=
  if normalise relDir = [] then !t.paths.isEmpty
  else
    let pathPrefix := normalise relDir ++ [0x2F]
    match t.ordered with
    | some paths => (paths.find? fun path => decide (pathPrefix ≤ path)).any pathPrefix.isPrefixOf
    | none => t.paths.any pathPrefix.isPrefixOf

/-- **The ordered search finds what the scan finds.** -/
theorem containsAnyUnder_eq (t : TrackedFiles) (relDir : List UInt8) :
    t.containsAnyUnder relDir = (unordered t.paths).containsAnyUnder relDir := by
  rw [containsAnyUnder, containsAnyUnder]
  split_ifs
  · rfl
  · cases hordered : t.ordered with
    | none => rfl
    | some paths =>
      have hsorted : paths.Pairwise fun a b => id a ≤ id b :=
        (t.ascending paths hordered).imp fun hab => hab.le
      have hfind : ∀ p : List UInt8, (paths.find? fun path => decide (p ≤ path)) =
          (paths.dropWhile fun path => decide (path < p)).head? := by
        intro p
        rw [← List.find?_not_eq_head?_dropWhile]
        simp only [← decide_not, not_lt]
      rw [Bool.eq_iff_iff]
      dsimp only
      rw [hfind]
      refine (Search.head?_dropWhile_prefix hsorted).trans ?_
      simp only [unordered, List.any_eq_true, List.isPrefixOf_iff_prefix, id,
        t.mem_ordered paths hordered]

end TrackedFiles

end Tgrep.GitIndex
