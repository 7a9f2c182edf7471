import Mathlib.Data.Char
import Mathlib.Data.List.Lex
import Tgrep.Data.Coarsening
import Tgrep.Data.Counter
import Tgrep.Data.FinMap

/-!
# Hints of a worktree view

A notification about a path becomes a hint: the next pass reads what is at the path or below it. The
hints are bounded. When there are too many, the deepest of them give way to their parents, until
few are left, or only top-level ones, in which case the pass has to read everything.

## Main definitions

* `parentPath`, `depth`, `isHinted`: paths as texts, and whether a path is hinted.
* `queueHint`: add a hint, and coarsen the hints if there are too many.
* `relativePath`: the paths that are accepted.
* `Control`, `View`: what is queued, and what a pass under way has taken.
* `View.step`: the calls and the passes of a view.

## Implementation notes

A path is the list of its characters. A path of the platform is the list of the characters of its
lossy form, and whether it is Unicode; its components are those of Unix. What a pass reads and
publishes is left out, and so is the pass that verifies a ready view, which only clears hints.
-/

namespace Tgrep.Worktrees

open List

/-! ## Paths -/

/-- A path, as the list of its characters. -/
abbrev Path := List Char

/-- Fold an ASCII letter to lower case. -/
def asciiLower (c : Char) : Char := if 'A' ≤ c ∧ c ≤ 'Z' then Char.ofNat (c.toNat + 32) else c

/-- Fold the ASCII letters of a path. -/
def lower (path : Path) : Path := path.map asciiLower

/-- What is before the last separator, if there is one. -/
def parent : Path → Option Path
  | [] => none
  | c :: cs =>
    match parent cs with
    | some before => some (c :: before)
    | none => if c = '/' then some [] else none

/-- What is before the last separator. -/
def parentPath (path : Path) : Path := (parent path).getD []

/-- The number of components of a path. -/
def depth (path : Path) : ℕ := path.count '/' + 1

/-- A path without a parent has no separator. -/
lemma parent_eq_none {path : Path} : parent path = none ↔ '/' ∉ path := by
  induction path with
  | nil => exact ⟨fun _ => not_mem_nil, fun _ => rfl⟩
  | cons c cs ih =>
    rw [parent, mem_cons, not_or, ← ih]
    cases parent cs with
    | some before => simp
    | none =>
      by_cases hc : c = '/'
      · simp [hc]
      · simp [hc, Ne.symm hc]

/-- A path with a parent is the parent, a separator, and a name. -/
lemma parent_eq_some {path before : Path} :
    parent path = some before ↔ ∃ name, path = before ++ '/' :: name ∧ '/' ∉ name := by
  induction path generalizing before with
  | nil => simp [parent]
  | cons c cs ih =>
    rw [parent]
    cases hcs : parent cs with
    | some tail =>
      obtain ⟨name, rfl, hname⟩ := ih.mp hcs
      constructor
      · intro h
        cases h
        exact ⟨name, rfl, hname⟩
      · rintro ⟨name', heq, hname'⟩
        cases before with
        | nil =>
          -- the name would contain the last separator
          rw [nil_append, cons.injEq] at heq
          exact absurd (heq.2 ▸ (by simp : '/' ∈ tail ++ '/' :: name)) hname'
        | cons d before =>
          rw [cons_append, cons.injEq] at heq
          have htail := ih.mpr ⟨name', heq.2, hname'⟩
          rw [hcs] at htail
          cases htail
          rw [heq.1]
    | none =>
      have hnone := parent_eq_none.mp hcs
      constructor
      · intro h
        split_ifs at h with hc
        cases h
        exact ⟨cs, by rw [hc]; rfl, hnone⟩
      · rintro ⟨name, heq, -⟩
        cases before with
        | nil =>
          rw [nil_append, cons.injEq] at heq
          rw [if_pos heq.1]
        | cons d before =>
          rw [cons_append, cons.injEq] at heq
          exact absurd (heq.2 ▸ (by simp : '/' ∈ before ++ '/' :: name)) hnone

/-- A parent has one component less. -/
lemma depth_of_parent {path before : Path} (h : parent path = some before) :
    depth path = depth before + 1 := by
  obtain ⟨name, rfl, hname⟩ := parent_eq_some.mp h
  unfold depth
  rw [count_append, count_cons_self, count_eq_zero.mpr hname]

/-- A path of one component has no parent, and any other has one. -/
lemma exists_parent {path : Path} (h : 1 < depth path) : ∃ before, parent path = some before := by
  cases hparent : parent path with
  | some before => exact ⟨before, rfl⟩
  | none =>
    have hzero := count_eq_zero.mpr (parent_eq_none.mp hparent)
    unfold depth at h
    omega

/-- Look a path and its parents up, and count the lookups. -/
def lookup (hints : Finset Path) (path : Path) (lookups : ℕ) : Bool × ℕ :=
  let lookups := lookups + 1
  if path ∈ hints then (true, lookups)
  else
    match _h : parent path with
    | none => (false, lookups)
    | some before => lookup hints before lookups
termination_by depth path
decreasing_by
  have := depth_of_parent _h
  omega

/-- Whether a path or one of its parents is a hint, whatever the case of its ASCII letters. -/
def isHinted (path : Path) (hints : Finset Path) (lookups : ℕ) : Bool × ℕ :=
  if hints = ∅ then (false, lookups) else lookup hints (lower path) lookups

/-! ## Queueing a hint -/

/-- The parent of a path of the greatest depth, and any other path. -/
def shorten (deepest : ℕ) (path : Path) : Path :=
  if depth path = deepest then parentPath path else path

/-- The deepest hints give way to their parents, and hints below others are left out. -/
def coarsen (hints : Finset Path) (deepest : ℕ) : Finset Path :=
  let coarsened := hints.image (shorten deepest)
  coarsened.filter fun path => (isHinted (parentPath path) coarsened 0).1 = false

/-- Coarsening makes the hints less deep. -/
lemma depth_coarsen_lt {hints : Finset Path} (h : 1 < hints.sup depth) :
    (coarsen hints (hints.sup depth)).sup depth < hints.sup depth := by
  refine @Coarsening.sup_lt _ _ _ _ _ (shorten (hints.sup depth)) (by omega) (fun path hpath => ?_)
    (Finset.filter_subset _ _)
  unfold shorten
  split_ifs with hdeepest
  · obtain ⟨before, hbefore⟩ := @exists_parent path (by omega)
    have hdepth := depth_of_parent hbefore
    rw [parentPath, hbefore, Option.getD_some]
    omega
  · exact lt_of_le_of_ne (Finset.le_sup hpath) hdeepest

/-- Coarsen the hints until few are left, or only top-level ones. -/
def coarsenTo (capacity target : ℕ) (hints : Finset Path) : Bool × Finset Path :=
  if hints.card ≤ target then (true, hints)
  else
    let deepest := hints.sup depth
    if deepest ≤ 1 then (decide (hints.card ≤ capacity), hints)
    else coarsenTo capacity target (coarsen hints deepest)
termination_by hints.sup depth
decreasing_by exact depth_coarsen_lt (by omega)

/-- Add a hint: whether the hints still stand for everything, and the hints. -/
def queueHint (hints : Finset Path) (path : Path) (capacity : ℕ) : Bool × Finset Path :=
  if (isHinted path hints 0).1 then (true, hints)
  else
    let hints := insert path hints
    if hints.card ≤ capacity then (true, hints)
    else coarsenTo capacity (max (capacity / 2) (min capacity 1)) hints

/-! ## The view -/

/-- The errors of a view. -/
inductive WorktreeError
  | invalidInput (reason : String)
  | changedDuringReconcile
  | synchronization
  deriving DecidableEq

/-- A path of the platform. -/
structure OsPath where
  text : List Char
  unicode : Bool := true
  deriving DecidableEq

/-- The parts of a text between its separators. -/
def splitSlash : List Char → List (List Char)
  | [] => [[]]
  | c :: cs =>
    if c = '/' then [] :: splitSlash cs
    else
      match splitSlash cs with
      | [] => [[c]]
      | part :: parts => (c :: part) :: parts

/-- The parts with a separator between each two. -/
def joinSlash (parts : List (List Char)) : List Char := ['/'].intercalate parts

/-- The path relative to the root, if it is one. -/
def relativePath (path : OsPath) : Except WorktreeError Path :=
  let parts := splitSlash path.text
  if path.text = [] ∨ path.text.head? = some '/' ∨ parts.head? = some ['.'] ∨ ['.', '.'] ∈ parts then
    .error (.invalidInput
      "hint must be nonempty and root-relative, without '..' or a leading '.' component")
  else if path.unicode = false then .error (.invalidInput "non-Unicode checkout path")
  else
    let path := joinSlash (parts.filter fun part => part ≠ [] ∧ part ≠ ['.'])
    if '\\' ∈ path then .error (.invalidInput "backslash checkout path is not representable")
    else .ok path

/-- The components before the first one that is not ASCII. -/
def asciiPrefix (path : Path) : Path :=
  if path.all fun c => c.toNat < 128 then path
  else joinSlash ((splitSlash path).takeWhile fun part => part.all fun c => c.toNat < 128)

/-- The names whose files decide what a walk lists. -/
def membershipNames : List (List Char) :=
  [".git".toList, ".gitignore".toList, ".ignore".toList, ".gitattributes".toList]

/-- What is queued. -/
structure Control where
  epoch : ℕ := 0
  publishedEpoch : Option ℕ := none
  ready : Bool := false
  full : Bool := true
  tree : Bool := false
  hints : Finset Path := ∅

namespace Control

/-- A new epoch. -/
def invalidate (c : Control) : Except WorktreeError ℕ × Control :=
  let c := { c with ready := false }
  match Counter.checkedAdd c.epoch 1 with
  | none => (.error .synchronization, c)
  | some epoch => (.ok epoch, { c with epoch := epoch })

/-- Everything has to be read. -/
def readAll (c : Control) : Control := { c with full := true, hints := ∅ }

/-- Queue a hint for a path in lower case. -/
def queue (c : Control) (capacity : ℕ) (path : Path) : Control :=
  if c.full then c
  else if path = [] then c.readAll
  else
    match queueHint c.hints path capacity with
    | (false, _) => c.readAll
    | (true, hints) => { c with hints := hints }

/-- `WorktreeView::invalidate_path`. -/
def invalidatePath (c : Control) (capacity : ℕ) (path : OsPath) :
    Except WorktreeError ℕ × Control :=
  match c.invalidate with
  | (.error e, c) => (.error e, c)
  | (.ok epoch, c) =>
    match relativePath path with
    | .error e => (.error e, c.readAll)
    | .ok relative =>
      let relative := asciiPrefix (lower relative)
      let tree := c.tree || (splitSlash relative).any (membershipNames.contains ·)
      (.ok epoch, { c with tree := tree }.queue capacity relative)

/-- `WorktreeView::invalidate_tree`. -/
def invalidateTree (c : Control) : Except WorktreeError ℕ × Control :=
  match c.invalidate with
  | (.error e, c) => (.error e, c)
  | (.ok epoch, c) => (.ok epoch, { c with tree := true })

/-- `WorktreeView::invalidate_all`. -/
def invalidateAll (c : Control) : Except WorktreeError ℕ × Control :=
  match c.invalidate with
  | (.error e, c) => (.error e, c)
  | (.ok epoch, c) => (.ok epoch, c.readAll)

end Control

/-- The hints that a pass works on. -/
structure TakenHints where
  /-- Whether they have to be put back if the pass fails. -/
  armed : Bool
  epoch : ℕ
  full : Bool
  hints : Finset Path

/-- A view with the pass under way. -/
structure View where
  capacity : ℕ
  staleReads : Bool
  control : Control := {}
  taken : Option TakenHints := none

namespace View

/-- One hint is put back. -/
def restoreHint (capacity : ℕ) (c : Control) (hint : Path) : Control :=
  if c.full then c
  else
    match queueHint c.hints hint capacity with
    | (false, hints) => { c with full := true, hints := hints }
    | (true, hints) => { c with hints := hints }

/-- A pass that failed puts its hints back. -/
def restore (capacity : ℕ) (c : Control) (t : TakenHints) : Control :=
  if t.armed then
    let c := { c with full := c.full || t.full, tree := true }
    let c := (t.hints.sort (· ≤ ·)).foldl (restoreHint capacity) c
    let c := if c.full then { c with hints := ∅ } else c
    { c with ready := false }
  else c

/-- A pass begins. -/
def start (v : View) (reread : Bool) : View :=
  match v.control.invalidate with
  | (.error _, c) => { v with control := c }
  | (.ok epoch, c) =>
    let full := reread || c.full || (!c.tree && decide (c.hints = ∅))
    if v.staleReads then
      { v with
        control := { c with full := false, tree := false, hints := ∅ }
        taken := some ⟨true, epoch, full, c.hints⟩ }
    else
      { v with
        control := { c with full := c.full || full, tree := true }
        taken := some ⟨false, epoch, full, c.hints⟩ }

/-- A pass ends in time to publish, unless something has changed that it may not leave out. -/
def publish (v : View) (t : TakenHints) : View :=
  let c := v.control
  let current := decide (c.epoch = t.epoch)
  if c.epoch = Counter.size - 1 ∨ (current = false ∧ v.staleReads = false) then
    { v with control := restore v.capacity c t, taken := none }
  else
    let c := { c with publishedEpoch := some t.epoch }
    let c := if current then { c with full := false, tree := false, hints := ∅, ready := true } else c
    { v with control := c, taken := none }

/-- What happens to a view. -/
inductive Event
  | invalidatePath (path : OsPath)
  | invalidateTree
  | invalidateAll
  /-- The root, or a file of a snapshot, could not be opened. -/
  | readFailed
  | start (reread : Bool)
  | publish
  /-- The pass fails or panics. -/
  | abandon

/-- One event. -/
def step (v : View) : Event → Option View
  | .invalidatePath path => some { v with control := (v.control.invalidatePath v.capacity path).2 }
  | .invalidateTree => some { v with control := v.control.invalidateTree.2 }
  | .invalidateAll => some { v with control := v.control.invalidateAll.2 }
  | .readFailed => some { v with control := v.control.readAll.invalidate.2 }
  | .start reread =>
    match v.taken with
    | some _ => none
    | none => some (v.start reread)
  | .publish => v.taken.map v.publish
  | .abandon => v.taken.map fun t => { v with control := restore v.capacity v.control t, taken := none }

end View

end Tgrep.Worktrees
