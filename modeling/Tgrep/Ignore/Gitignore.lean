import Mathlib.Algebra.GroupWithZero.Nat
import Tgrep.Data.Cascade
import Mathlib.Data.List.Sort

/-!
# Ignore rules

The rules of one ignore file, the two extra filters of the walks (root-level `p4ignore.ini` rules
and git's case-insensitive matching with its tracked-file exemption), and the point-query matcher
that the file watcher asks about single paths.

## Main definitions

* `Ignore.Gitignore`, `Gitignore.matched`, `Gitignore.matchedPathOrAnyParents`: the rules of one
  file, asked about one path, or about a path and then its parents.
* `Ignore.P4IgnoreMatcher`, `Ignore.CaseInsensitiveIgnore`: the two filters.
* `Ignore.IgnoreSources`: the sources of rules that apply to a tree.
* `Ignore.IgnoreMatcher`, `IgnoreMatcher.standardDecision`, `IgnoreMatcher.isIgnored`,
  `IgnoreMatcher.isWhitelisted`: the point queries.
* `Ignore.matcherFromIgnorePaths`: the matcher of a tree's sources.

## Implementation notes

A path is the list of its components, relative to the served root unless said otherwise. What the
globs of one file say about one path is a function of the path and of whether it is a directory.
-/

namespace Tgrep

namespace Ignore

/-- A path, as the list of its components. -/
abbrev Path := List String

/-- The path relative to a directory it is in, if it is in it. -/
def stripPrefix (path dir : Path) : Option Path :=
  if dir <+: path then some (path.drop dir.length) else none

/-- The compiled rules of one ignore file. -/
structure Gitignore where
  /-- Whether the file has no rules. -/
  isEmpty : Bool
  /-- What the last rule that matches a path says: `true` to ignore it, `false` to include it. -/
  glob : Path → Bool → Option Bool

namespace Gitignore

/-- No rules. -/
def empty : Gitignore := ⟨true, fun _ _ => none⟩

/-- What the rules say about the path itself. -/
def matched (rules : Gitignore) (path : Path) (isDir : Bool) : Option Bool :=
  if rules.isEmpty then none else rules.glob path isDir

/-- What the rules say about the path, or about the nearest of its parents they speak of. -/
def matchedPathOrAnyParents (rules : Gitignore) (path : Path) (isDir : Bool) : Option Bool :=
  (rules.matched path isDir).or
    ((Cascade.parents path).findSome? fun parent => rules.matched parent true)

end Gitignore

/-! ### The filters of the walks -/

/-- The `p4ignore.ini` rules of the root of a walk. -/
structure P4IgnoreMatcher where
  /-- The rules. -/
  matcher : Gitignore
  /-- The literal starts of the rules that include something. -/
  reincludePrefixes : List Path

/-- Whether the `p4ignore.ini` rules drop a path. A directory on the way to an included literal
is kept. -/
def P4IgnoreMatcher.isIgnored (p4 : P4IgnoreMatcher) (relative : Path) (isDir : Bool) : Bool :=
  if isDir && p4.reincludePrefixes.any fun literal =>
      decide (literal = relative ∨ (relative ≠ [] ∧ relative <+: literal)) then
    false
  else
    p4.matcher.matchedPathOrAnyParents relative isDir == some true

/-- The matcher of the `p4ignore.ini` rules of a root, if it has any. -/
def buildP4ignoreMatcher (rules : Gitignore) (reincludePrefixes : List Path) :
    Option P4IgnoreMatcher :=
  if rules.isEmpty then none else some ⟨rules, reincludePrefixes⟩

/-- The name as tracked paths are compared, without regard to case. -/
def normalise (path : Path) : Path := path.map String.toLower

/-- Git's repository-wide rules without regard to case, with the tracked-file exemption. -/
structure CaseInsensitiveIgnore where
  /-- The rules of the root `.gitignore` and of `info/exclude`. -/
  matcher : Gitignore
  /-- The repository's root. -/
  repoRoot : Path
  /-- The normalised paths in git's index, if it could be read. -/
  tracked : Option (List Path)

namespace CaseInsensitiveIgnore

/-- Whether git tracks a path. -/
def contains (tracked : List Path) (relative : Path) : Bool :=
  tracked.contains (normalise relative)

/-- Whether git tracks anything beneath a directory. -/
def containsAnyUnder (tracked : List Path) (relative : Path) : Bool :=
  if relative = [] then !tracked.isEmpty
  else tracked.any fun path => decide (normalise relative <+: path ∧ normalise relative ≠ path)

/-- Whether a matching rule hides a path: it hides no tracked file, and no directory with a
tracked file beneath it. -/
def hides (tracked : Option (List Path)) (relative : Path) (isDir : Bool) : Bool :=
  match tracked with
  | none => false
  | some tracked => if isDir then !containsAnyUnder tracked relative else !contains tracked relative

/-- Whether git would hide an absolute path. -/
def excludes (ignorecase : CaseInsensitiveIgnore) (path : Path) (isDir : Bool) : Bool :=
  match stripPrefix path ignorecase.repoRoot with
  | none => false
  | some relative =>
    if ignorecase.matcher.matchedPathOrAnyParents relative isDir == some true then
      hides ignorecase.tracked relative isDir
    else false

end CaseInsensitiveIgnore

/-! ### The sources of a tree -/

/-- The two kinds of ignore files of a directory. -/
inductive IgnoreKind where
  | dotIgnore
  | gitIgnore
  deriving DecidableEq

/-- The place of a kind in the order of sources of one directory. -/
def IgnoreKind.rank : IgnoreKind → ℕ
  | dotIgnore => 0
  | gitIgnore => 1

/-- An ignore file at or below the root, anchored to its directory. -/
structure NestedIgnore where
  dir : Path
  kind : IgnoreKind
  matcher : Gitignore

/-- An ignore file above the root, with the root relative to its directory. -/
structure AncestorIgnore where
  pathPrefix : Path
  kind : IgnoreKind
  matcher : Gitignore

/-- The sources of rules that were read for a tree. -/
structure IgnoreSources where
  /-- The root of the tree. -/
  root : Path
  /-- The files at or below the root. -/
  nested : List NestedIgnore
  /-- The files above the root, the closest first. -/
  ancestors : List AncestorIgnore
  /-- `info/exclude`, with the root relative to the repository. -/
  repoExclude : Option (Path × Gitignore)
  /-- The user's global rules. -/
  global : Gitignore
  /-- The rules of the root's `p4ignore.ini`. -/
  p4ignore : Gitignore
  /-- The literal starts of its rules that include something. -/
  reincludePrefixes : List Path
  /-- The case-insensitive filter. -/
  ignorecase : Option CaseInsensitiveIgnore
  /-- Directories have names. -/
  named : ∀ entry ∈ nested, "" ∉ entry.dir
  /-- A directory has one file of a kind. -/
  nodup : (nested.map fun entry => (entry.dir, entry.kind)).Nodup

namespace NestedIgnore

/-- The number of separators in the directory's path. -/
def depth (entry : NestedIgnore) : ℕ := entry.dir.length - 1

/-- The number of bytes of the directory's path. -/
def len (entry : NestedIgnore) : ℕ :=
  (entry.dir.map String.utf8ByteSize).sum + (entry.dir.length - 1)

/-- The order in which nested files are consulted: deeper directories first, then longer paths,
then `.ignore` before `.gitignore`. -/
def Before (a b : NestedIgnore) : Prop :=
  b.depth < a.depth ∨ b.depth = a.depth ∧
    (b.len < a.len ∨ b.len = a.len ∧ a.kind.rank ≤ b.kind.rank)

instance : DecidableRel Before := fun a b => by unfold Before; infer_instance

instance : Std.Total Before := ⟨fun a b => by unfold Before; omega⟩

instance : IsTrans NestedIgnore Before := ⟨fun a b c hab hbc => by unfold Before at *; omega⟩

end NestedIgnore

/-! ### The point-query matcher -/

/-- The point-query matcher. -/
structure IgnoreMatcher where
  /-- Root-scoped custom rules such as `p4ignore.ini`. -/
  localRules : Gitignore
  /-- Whether the custom rules are a filter beside the standard sources. -/
  localIsFilter : Bool
  /-- The files at or below the root, the deepest first. -/
  nested : List NestedIgnore
  /-- The files above the root, the closest first. -/
  ancestors : List AncestorIgnore
  /-- `info/exclude`. -/
  repoExclude : Option (Path × Gitignore)
  /-- The global rules. -/
  global : Gitignore
  /-- The root that paths are relative to. -/
  root : Path
  /-- The case-insensitive filter. -/
  ignorecase : Option CaseInsensitiveIgnore

/-- The path relative to the directory of a nested file, if it is beneath it. -/
def stripDirPrefix (rel dir : Path) : Option Path :=
  if dir = [] then some rel
  else if dir <+: rel ∧ dir ≠ rel then some (rel.drop dir.length) else none

namespace IgnoreMatcher

/-- What the standard sources say about a path, each asked about its parents too if `parents`. -/
def standardDecision (m : IgnoreMatcher) (path : Path) (isDir parents excludes : Bool) :
    Option Bool :=
  let matched (rules : Gitignore) (path : Path) : Option Bool :=
    if parents then rules.matchedPathOrAnyParents path isDir else rules.matched path isDir
  let ofKind (kind : IgnoreKind) : Option Bool :=
    ((m.nested.filter (·.kind = kind)).findSome? fun entry =>
      (stripDirPrefix path entry.dir).bind (matched entry.matcher)).or
    ((m.ancestors.filter (·.kind = kind)).findSome? fun entry =>
      matched entry.matcher (entry.pathPrefix ++ path))
  ((((ofKind .dotIgnore).or (ofKind .gitIgnore)).or
    (if m.localIsFilter then none else matched m.localRules path)).or
    (if excludes then m.repoExclude.bind fun (pathPrefix, rules) => matched rules (pathPrefix ++ path)
      else none)).or
    (if excludes then matched m.global path else none)

/-- Whether a path is ignored, with or without the exclude files. -/
def ignored (m : IgnoreMatcher) (path : Path) (isDir excludes : Bool) : Bool :=
  m.standardDecision path isDir true excludes == some true ||
    (m.localIsFilter && m.localRules.matchedPathOrAnyParents path isDir == some true) ||
    m.ignorecase.any fun ignorecase => ignorecase.excludes (m.root ++ path) isDir

/-- Whether a path is ignored. -/
def isIgnored (m : IgnoreMatcher) (path : Path) (isDir : Bool) : Bool :=
  m.ignored path isDir true

/-- Whether a rule includes this very entry. -/
def isWhitelisted (m : IgnoreMatcher) (path : Path) (isDir : Bool) : Bool :=
  m.standardDecision path isDir false true == some false

/-- The matcher of some sources, if any of them has a rule. -/
def withAllSources (root : Path) (localRules : Gitignore) (localIsFilter : Bool)
    (nested : List NestedIgnore) (ancestors : List AncestorIgnore)
    (repoExclude : Option (Path × Gitignore)) (global : Gitignore)
    (ignorecase : Option CaseInsensitiveIgnore) : Option IgnoreMatcher :=
  let nested := (nested.filter fun entry => !entry.matcher.isEmpty).insertionSort
    NestedIgnore.Before
  let ancestors := ancestors.filter fun entry => !entry.matcher.isEmpty
  let repoExclude := repoExclude.filter fun entry => !entry.2.isEmpty
  if !localRules.isEmpty || !nested.isEmpty || !ancestors.isEmpty || repoExclude.isSome ||
      !global.isEmpty || ignorecase.isSome then
    some { localRules, localIsFilter, nested, ancestors, repoExclude, global, root, ignorecase }
  else none

end IgnoreMatcher

/-- The point-query matcher of the sources that were read for a tree. -/
def matcherFromIgnorePaths (src : IgnoreSources) : Option IgnoreMatcher :=
  IgnoreMatcher.withAllSources src.root src.p4ignore true src.nested src.ancestors src.repoExclude
    src.global src.ignorecase

end Ignore

end Tgrep
