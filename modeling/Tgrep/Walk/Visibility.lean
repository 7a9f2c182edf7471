import Tgrep.Walk.Walker
import Tgrep.Data.FinMap

/-!
# Query-time visibility

An index holds hidden files too. What a query hides is decided from the hidden entries that the
walk recorded, less those that an ignore rule includes: a file is visible below a search root if
no recorded entry is on the way from the search root to it. That must be what a walk of the
search root that leaves hidden entries out would find.

## Main definitions

* `Walk.PathVisibility`, `PathVisibility.record`, `PathVisibility.applyIgnoreRules`,
  `PathVisibility.isVisible`: the recorded hidden entries.
* `Walk.rulesAt`: what a walk started at a directory of the tree reads.
* `Walk.finishVisibility`: the visibility that the indexing walk records.
* `Walk.VisibilityEvent`, `VisibilityEvent.run`: later records of entries and applications of the
  rules.

## Main results

* `Walk.settled_run`: the recorded entries are the hidden ones that no rule includes.
* `Walk.isVisible_iff_walkDir`: the visible files of the indexing walk are those of the walk of
  the search root, if both walks have the same `p4ignore.ini` filter below it.

## Implementation notes

Which entries are hidden is a function of their path. The standard sources say the same about an
entry wherever below the root the walk is started; a `p4ignore.ini` is read at the root of a walk
only.
-/

namespace Tgrep

open List FinMap

namespace Walk

open Ignore (Path Gitignore IgnoreSources IgnoreMatcher matcherFromIgnorePaths stripPrefix entries)

open Cascade (parents)

/-! ### The recorded entries -/

/-- The hidden entries, relative to the root, and whether they are directories. -/
structure PathVisibility where
  hidden : FinMap Path Bool

namespace PathVisibility

/-- Nothing is recorded. -/
def empty : PathVisibility := ⟨FinMap.empty⟩

/-- Record an entry, given whether it is hidden by its name or an attribute. -/
def record (v : PathVisibility) (relative : Path) (isDir isHidden : Bool)
    (ignore : Option IgnoreMatcher) : PathVisibility :=
  if relative = [] then v
  else if isHidden && !ignore.any fun matcher => matcher.isWhitelisted relative isDir then
    ⟨v.hidden.insert relative isDir⟩
  else ⟨v.hidden.erase relative⟩

/-- Drop the entries that a rule includes. -/
def applyIgnoreRules (v : PathVisibility) (ignore : Option IgnoreMatcher) : PathVisibility :=
  match ignore with
  | none => v
  | some matcher => ⟨v.hidden.filter fun path isDir => !matcher.isWhitelisted path isDir⟩

/-- Whether an indexed file is visible below a search root. -/
def isVisible (v : PathVisibility) (indexed root : Path) (includeHidden : Bool) : Bool :=
  match stripPrefix indexed root with
  | none => false
  | some relative =>
    includeHidden || (entries relative false).all fun e => !v.hidden.contains (root ++ e.1)

end PathVisibility

/-! ### The walks of a tree and of a search root -/

/-- What is read of a tree besides its entries. -/
structure Surroundings where
  /-- The ignore sources. -/
  sources : IgnoreSources
  /-- Which entries are hidden. -/
  hidden : Path → Bool
  /-- The `p4ignore.ini` of a directory below the root, with the starts of its include rules. -/
  p4Below : Path → Gitignore × List Path

/-- What a walk that starts at a directory of the tree reads. -/
def rulesAt (s : Surroundings) (noIgnore : Bool) (dir : Path) : WalkRules where
  root := s.sources.root ++ dir
  matched path isDir := if noIgnore then none else s.sources.matchedIgnore (dir ++ path) isDir
  hidden path := s.hidden (dir ++ path)
  ignorecase := s.sources.ignorecase
  p4ignore := if dir = [] then s.sources.p4ignore else (s.p4Below dir).1
  reincludePrefixes :=
    if dir = [] then s.sources.reincludePrefixes else (s.p4Below dir).2

/-- The rules that later records are given. -/
def pointRules (s : Surroundings) (noIgnore : Bool) : Option IgnoreMatcher :=
  if noIgnore then none else matcherFromIgnorePaths s.sources

/-- The record of a hidden entry with an index key, as the walk makes it. -/
def recordVisibility (s : Surroundings) (v : PathVisibility) (e : Entry) : PathVisibility :=
  if s.hidden e.path && (indexKey e.path).isSome then
    v.record e.path e.size.isNone true none
  else v

/-- The visibility that the indexing walk records: its hidden entries, less those that a rule
includes. -/
def finishVisibility (s : Surroundings) (opts : WalkOptions) (tree : Tree) : PathVisibility :=
  let visited := traverse (walkDirTraversal (rulesAt s opts.noIgnore []) opts true) [] tree.root
  (visited.foldl (recordVisibility s) PathVisibility.empty).applyIgnoreRules
    (pointRules s opts.noIgnore)

/-- What may change the recorded entries later: the record of an entry's final metadata, with the
rules or without them, and an application of the rules. -/
inductive VisibilityEvent where
  | record (path : Path) (isDir ruled : Bool)
  | applyRules

namespace VisibilityEvent

/-- The effect of an event. -/
def step (s : Surroundings) (noIgnore : Bool) (v : PathVisibility) :
    VisibilityEvent → PathVisibility
  | record path isDir ruled =>
    v.record path isDir (s.hidden path) (if ruled then pointRules s noIgnore else none)
  | applyRules => v.applyIgnoreRules (pointRules s noIgnore)

/-- The effect of a sequence of events. -/
def run (s : Surroundings) (noIgnore : Bool) (v : PathVisibility) (events : List VisibilityEvent) :
    PathVisibility :=
  events.foldl (step s noIgnore) v

/-- An event that records an entry of the tree as it is. -/
def Replays (tree : Tree) : VisibilityEvent → Prop
  | record path isDir _ => ∃ node, Node.At tree.root path node ∧ isDir = node.isDir
  | applyRules => True

/-- Whether entries recorded without the rules still wait for an application of the rules. -/
def waits (pending : Bool) : VisibilityEvent → Bool
  | record _ _ ruled => pending || !ruled
  | applyRules => false

end VisibilityEvent

/-! ### What is recorded -/

/-- Whether a rule includes an entry. -/
def included (s : Surroundings) (noIgnore : Bool) (path : Path) (isDir : Bool) : Bool :=
  (pointRules s noIgnore).any fun matcher => matcher.isWhitelisted path isDir

/-- Every recorded entry is as the tree has it and hidden, and every hidden entry of the walk that
no rule includes is recorded. If `settled`, no recorded entry is included by a rule. -/
structure Recorded (s : Surroundings) (noIgnore : Bool) (tree : Tree) (t : Traversal)
    (settled : Bool) (v : PathVisibility) : Prop where
  /-- What is recorded is a hidden entry of the tree. -/
  sound : ∀ path isDir, v.hidden.get? path = some isDir → s.hidden path = true ∧
    ∃ node, Node.At tree.root path node ∧ isDir = node.isDir
  /-- What is hidden is recorded. -/
  complete : ∀ e ∈ traverse t [] tree.root, e.path ≠ [] → (indexKey e.path).isSome →
    s.hidden e.path = true → included s noIgnore e.path e.size.isNone = false →
    v.hidden.contains e.path = true
  /-- Nothing that a rule includes is recorded. -/
  settled : settled = true → ∀ path isDir, v.hidden.get? path = some isDir →
    included s noIgnore path isDir = false

variable {s : Surroundings} {noIgnore : Bool} {tree : Tree} {t : Traversal}

/-- What a traversal visits is in the tree, and it is a file or a directory. -/
lemma exists_at_of_visited {e : Entry} (he : e ∈ traverse t [] tree.root) :
    ∃ node, Node.At tree.root e.path node ∧ e.size.isNone = node.isDir := by
  obtain ⟨rel, sub, hat, rfl, hsees, -⟩ := (mem_traverse t [] tree.root e).1 he
  refine ⟨sub, by simpa using hat, ?_⟩
  cases sub with
  | file size => rfl
  | dir children => rfl
  | other => exact hsees.elim

variable {size : ℕ} {dir path : Path} {v : PathVisibility}

/-- **A record keeps what is recorded right.** -/
theorem Recorded.record {settled : Bool} (h : Recorded s noIgnore tree t settled v) {node : Node}
    (hat : Node.At tree.root path node) (ruled : Bool) :
    Recorded s noIgnore tree t (settled && ruled) (v.record path node.isDir (s.hidden path)
      (if ruled then pointRules s noIgnore else none)) := by
  set ignore := if ruled then pointRules s noIgnore else none
  have hignore : ruled = true → (ignore.any fun matcher => matcher.isWhitelisted path node.isDir) =
      included s noIgnore path node.isDir := by
    intro hruled
    simp [ignore, hruled, included]
  have hinclude : included s noIgnore path node.isDir = false →
      (ignore.any fun matcher => matcher.isWhitelisted path node.isDir) = false := by
    intro hincluded
    cases ruled with
    | true => rw [hignore rfl, hincluded]
    | false => rfl
  unfold PathVisibility.record
  by_cases hroot : path = []
  · rw [if_pos hroot]
    exact ⟨h.sound, h.complete, fun hsettled => h.settled (Bool.and_eq_true _ _ ▸ hsettled).1⟩
  · rw [if_neg hroot]
    split
    · rename_i hhidden
      rw [Bool.and_eq_true, Bool.not_eq_true'] at hhidden
      refine ⟨fun key isDir hget => ?_, fun e he hne hkey hhid hincl => ?_,
        fun hsettled key isDir hget => ?_⟩
      · rw [get?_insert] at hget
        split at hget
        · rename_i heq
          subst heq
          exact ⟨hhidden.1, node, hat, (Option.some.inj hget).symm⟩
        · exact h.sound key isDir hget
      · rw [FinMap.contains, get?_insert]
        split
        · rfl
        · exact h.complete e he hne hkey hhid hincl
      · rw [Bool.and_eq_true] at hsettled
        rw [get?_insert] at hget
        split at hget
        · rename_i heq
          subst heq
          obtain rfl := Option.some.inj hget
          rw [← hignore hsettled.2]
          exact hhidden.2
        · exact h.settled hsettled.1 key isDir hget
    · rename_i hvisible
      refine ⟨fun key isDir hget => ?_, fun e he hne hkey hhid hincl => ?_,
        fun hsettled key isDir hget => ?_⟩
      · rw [get?_erase] at hget
        split at hget
        · cases hget
        · exact h.sound key isDir hget
      · rw [FinMap.contains, get?_erase]
        split
        · rename_i heq
          obtain ⟨node', hat', hdir⟩ := exists_at_of_visited he
          rw [heq] at hat' hhid hincl
          rw [tree.unambiguous _ _ _ hat' hat] at hdir
          rw [hdir] at hincl
          simp [hhid, hinclude hincl] at hvisible
        · exact h.complete e he hne hkey hhid hincl
      · rw [Bool.and_eq_true] at hsettled
        rw [get?_erase] at hget
        split at hget
        · cases hget
        · exact h.settled hsettled.1 key isDir hget

/-- **An application of the rules** drops what a rule includes. -/
theorem Recorded.applyIgnoreRules {settled : Bool} (h : Recorded s noIgnore tree t settled v) :
    Recorded s noIgnore tree t true (v.applyIgnoreRules (pointRules s noIgnore)) := by
  unfold PathVisibility.applyIgnoreRules
  cases hrules : pointRules s noIgnore with
  | none =>
    exact ⟨h.sound, h.complete, fun _ path isDir _ => by rw [included, hrules]; rfl⟩
  | some matcher =>
    have hincluded : ∀ path isDir, included s noIgnore path isDir =
        matcher.isWhitelisted path isDir := fun path isDir => by rw [included, hrules]; rfl
    refine ⟨fun path isDir hget => ?_, fun e he hne hkey hhid hincl => ?_,
      fun _ path isDir hget => ?_⟩
    · exact h.sound path isDir (get?_filter_eq_some.1 hget).1
    · obtain ⟨isDir, hget⟩ := Option.isSome_iff_exists.1 (h.complete e he hne hkey hhid hincl)
      obtain ⟨-, node, hat, hdir⟩ := h.sound _ _ hget
      obtain ⟨node', hat', hdir'⟩ := exists_at_of_visited he
      rw [tree.unambiguous _ _ _ hat hat', ← hdir'] at hdir
      refine Option.isSome_iff_exists.2 ⟨isDir, get?_filter_eq_some.2 ⟨hget, ?_⟩⟩
      rw [← hincluded, hdir, hincl]
      rfl
    · have := (get?_filter_eq_some.1 hget).2
      rw [hincluded]
      simpa using this

/-- **What is recorded stays right** over events that replay entries of the tree, and it is settled
if no record without the rules waits for them. -/
theorem settled_run {events : List VisibilityEvent} {pending : Bool}
    (h : Recorded s noIgnore tree t (!pending) v) (hreplays : ∀ e ∈ events, e.Replays tree) :
    Recorded s noIgnore tree t (!events.foldl VisibilityEvent.waits pending)
      (VisibilityEvent.run s noIgnore v events) := by
  induction events generalizing v pending with
  | nil => exact h
  | cons event events ih =>
    have hstep : Recorded s noIgnore tree t (!VisibilityEvent.waits pending event)
        (VisibilityEvent.step s noIgnore v event) := by
      cases event with
      | record path isDir ruled =>
        obtain ⟨node, hat, rfl⟩ := hreplays _ mem_cons_self
        simpa [VisibilityEvent.waits, VisibilityEvent.step] using h.record hat ruled
      | applyRules => exact h.applyIgnoreRules
    exact ih hstep fun e he => hreplays e (mem_cons_of_mem _ he)

/-- A record of the walk keeps what is recorded, and only hidden entries of the tree are
recorded. -/
lemma recordVisibility_foldl (s : Surroundings) (tree : Tree) (t : Traversal)
    {entries : List Entry} (hvisited : ∀ e ∈ entries, e ∈ traverse t [] tree.root)
    (hsound : ∀ path isDir, v.hidden.get? path = some isDir → s.hidden path = true ∧
      ∃ node, Node.At tree.root path node ∧ isDir = node.isDir) :
    (∀ path isDir, (entries.foldl (recordVisibility s) v).hidden.get? path = some isDir →
      s.hidden path = true ∧ ∃ node, Node.At tree.root path node ∧ isDir = node.isDir) ∧
    ∀ path, path ≠ [] → (indexKey path).isSome → s.hidden path = true →
      v.hidden.contains path = true ∨ path ∈ entries.map Entry.path →
      (entries.foldl (recordVisibility s) v).hidden.contains path = true := by
  induction entries generalizing v with
  | nil => exact ⟨hsound, fun path _ _ _ h => by simpa using h⟩
  | cons e entries ih =>
    obtain ⟨node, hat, hdir⟩ := exists_at_of_visited (hvisited e mem_cons_self)
    have hstep : recordVisibility s v e = v ∨
        s.hidden e.path = true ∧ recordVisibility s v e = ⟨v.hidden.insert e.path node.isDir⟩ := by
      unfold recordVisibility PathVisibility.record
      cases hhidden : s.hidden e.path with
      | false => exact .inl rfl
      | true =>
        rw [hdir]
        split
        · split
          · exact .inl rfl
          · exact .inr ⟨rfl, rfl⟩
        · exact .inl rfl
    have hsound' : ∀ path isDir, (recordVisibility s v e).hidden.get? path = some isDir →
        s.hidden path = true ∧ ∃ node, Node.At tree.root path node ∧ isDir = node.isDir := by
      intro path isDir hget
      rcases hstep with heq | ⟨hhidden, heq⟩
      · rw [heq] at hget
        exact hsound path isDir hget
      · rw [heq, get?_insert] at hget
        split at hget
        · rename_i hpath
          subst hpath
          exact ⟨hhidden, node, hat, (Option.some.inj hget).symm⟩
        · exact hsound path isDir hget
    obtain ⟨hs, hc⟩ := ih (fun e' he' => hvisited e' (mem_cons_of_mem e he')) hsound'
    refine ⟨hs, fun path hne hkey hhidden hmem => hc path hne hkey hhidden ?_⟩
    have hkeep : v.hidden.contains path = true →
        (recordVisibility s v e).hidden.contains path = true := by
      intro hv
      rcases hstep with heq | ⟨-, heq⟩
      · rwa [heq]
      · rw [heq, FinMap.contains, get?_insert]
        split
        · rfl
        · exact hv
    rcases hmem with hv | hmem
    · exact .inl (hkeep hv)
    · rw [map_cons] at hmem
      rcases List.mem_cons.1 hmem with rfl | hmem
      · refine .inl ?_
        have hrecord : recordVisibility s v e =
            ⟨v.hidden.insert e.path e.size.isNone⟩ := by
          simp [recordVisibility, PathVisibility.record, hhidden, hkey, hne]
        rw [hrecord, FinMap.contains, get?_insert_self]
        rfl
      · exact .inr hmem

/-- **The indexing walk records** the hidden entries that it visits and that no rule includes. -/
theorem recorded_finishVisibility (s : Surroundings) (opts : WalkOptions) (tree : Tree) :
    Recorded s opts.noIgnore tree (walkDirTraversal (rulesAt s opts.noIgnore []) opts true) true
      (finishVisibility s opts tree) := by
  have hwalk := recordVisibility_foldl s tree
    (walkDirTraversal (rulesAt s opts.noIgnore []) opts true) (fun _ he => he)
    (v := PathVisibility.empty) (fun path isDir h => by simp [PathVisibility.empty] at h)
  have hrecorded : Recorded s opts.noIgnore tree
      (walkDirTraversal (rulesAt s opts.noIgnore []) opts true) false _ :=
    ⟨hwalk.1, fun e he hne hkey hhidden _ =>
      hwalk.2 e.path hne hkey hhidden (.inr (mem_map_of_mem he)), fun h => by cases h⟩
  exact hrecorded.applyIgnoreRules

/-- Once settled, the recorded entries of the walk are the hidden ones that no rule includes. -/
lemma Recorded.contains_iff (h : Recorded s noIgnore tree t true v) {e : Entry}
    (he : e ∈ traverse t [] tree.root) (hne : e.path ≠ []) (hkey : (indexKey e.path).isSome) :
    v.hidden.contains e.path = true ↔
      s.hidden e.path = true ∧ included s noIgnore e.path e.size.isNone = false := by
  constructor
  · intro hcontains
    obtain ⟨isDir, hget⟩ := Option.isSome_iff_exists.1 hcontains
    obtain ⟨hhidden, node, hat, hdir⟩ := h.sound _ _ hget
    obtain ⟨node', hat', hdir'⟩ := exists_at_of_visited he
    rw [tree.unambiguous _ _ _ hat hat', ← hdir'] at hdir
    exact ⟨hhidden, hdir ▸ h.settled rfl _ _ hget⟩
  · exact fun hboth => h.complete e he hne hkey hboth.1 hboth.2

/-! ### Visible files are those of a walk of the search root -/

/-- The `p4ignore.ini` filters of a walk started at `dir` and of the index's walk drop the same
entries of the tree below `dir`. -/
def SameP4Filter (s : Surroundings) (opts : WalkOptions) (tree : Tree) (dir : Path) : Prop :=
  ∀ path node, path ≠ [] → Node.At tree.root (dir ++ path) node →
    ((rulesAt s opts.noIgnore dir).p4Filter opts).any
        (fun matcher => matcher.isIgnored path node.isDir) =
      ((rulesAt s opts.noIgnore []).p4Filter opts).any
        fun matcher => matcher.isIgnored (dir ++ path) node.isDir

/-- **The walk of a search root admits** what the index's walk admits and does not hide without an
include rule. -/
theorem admits_rulesAt (s : Surroundings) (opts : WalkOptions) (tree : Tree)
    (hp4 : SameP4Filter s opts tree dir) {node : Node} (hpath : path ≠ [])
    (hat : Node.At tree.root (dir ++ path) node) :
    (walkDirTraversal (rulesAt s opts.noIgnore dir) opts false).admits path node.isDir = true ↔
      (walkDirTraversal (rulesAt s opts.noIgnore []) opts true).admits (dir ++ path) node.isDir =
          true ∧
        ¬ (s.hidden (dir ++ path) = true ∧
          included s opts.noIgnore (dir ++ path) node.isDir = false) := by
  have hfilter : (rulesAt s opts.noIgnore dir).walkDirFilter opts path node.isDir =
      (rulesAt s opts.noIgnore []).walkDirFilter opts (dir ++ path) node.isDir := by
    have hdrops : (rulesAt s opts.noIgnore dir).drops opts path node.isDir =
        (rulesAt s opts.noIgnore []).drops opts (dir ++ path) node.isDir := by
      rw [WalkRules.drops, WalkRules.drops, hp4 path node hpath hat]
      simp [rulesAt, WalkRules.gitIgnorecaseFilter]
    rw [walkDirFilter_eq, walkDirFilter_eq, hdrops]
    simp [rulesAt, WalkRules.excludedPath, WalkRules.fileName]
  have hincluded : included s opts.noIgnore (dir ++ path) node.isDir =
      ((rulesAt s opts.noIgnore dir).matched path node.isDir == some false) := by
    rw [included, pointRules, rulesAt]
    cases opts.noIgnore with
    | true => rfl
    | false => exact s.sources.isWhitelisted_eq (by simp [hpath]) _
  simp only [walkDirTraversal, hfilter, hincluded, Bool.and_eq_true, Bool.not_eq_true',
    WalkRules.shouldSkipEntry]
  have hmatched : (rulesAt s opts.noIgnore []).matched (dir ++ path) node.isDir =
      (rulesAt s opts.noIgnore dir).matched path node.isDir := rfl
  have hhidden : (rulesAt s opts.noIgnore dir).hidden path = s.hidden (dir ++ path) := rfl
  rw [hmatched, hhidden]
  rcases (rulesAt s opts.noIgnore dir).matched path node.isDir with _ | _ | _ <;>
    cases s.hidden (dir ++ path) <;> simp

/-- An entry on the way from a directory to a file below it is in the tree: the file itself, or a
directory. -/
lemma exists_at_of_mem_entries (hat : Node.At tree.root (dir ++ path) (.file size))
    {e : Path × Bool} (he : e ∈ entries path false) :
    ∃ node, Node.At tree.root (dir ++ e.1) node ∧ node.isDir = e.2 := by
  rcases mem_entries.1 he with rfl | ⟨hmem, -, hdir⟩
  · exact ⟨_, hat, rfl⟩
  · obtain ⟨⟨rest, hrest⟩, hne⟩ := Cascade.mem_parents.1 hmem
    rw [← hrest, ← append_assoc] at hat
    obtain ⟨node, hnode, hsub⟩ := Node.At.split (dir ++ e.1) hat
    refine ⟨node, hnode, ?_⟩
    cases hsub with
    | root => exact absurd (by rw [← hrest, append_nil]) hne
    | inside => rw [hdir]; rfl

/-- **The walk of a search root reaches** a file exactly if the index's walk does and nothing on the
way from the search root is hidden without an include rule. -/
theorem reaches_rulesAt (s : Surroundings) (opts : WalkOptions) (tree : Tree)
    (hp4 : SameP4Filter s opts tree dir)
    (hdir : (walkDirTraversal (rulesAt s opts.noIgnore []) opts true).Reaches [] dir true)
    (hpath : path ≠ []) (hat : Node.At tree.root (dir ++ path) (.file size)) :
    (walkDirTraversal (rulesAt s opts.noIgnore dir) opts false).Reaches [] path false ↔
      (walkDirTraversal (rulesAt s opts.noIgnore []) opts true).Reaches [] (dir ++ path) false ∧
        ∀ e ∈ entries path false, ¬ (s.hidden (dir ++ e.1) = true ∧
          included s opts.noIgnore (dir ++ e.1) e.2 = false) := by
  have hdescends : ∀ below, (walkDirTraversal (rulesAt s opts.noIgnore dir) opts false).descends
      below = (walkDirTraversal (rulesAt s opts.noIgnore []) opts true).descends (dir ++ below) := by
    intro below
    simp [walkDirTraversal, WalkRules.shouldSkipDir, WalkRules.fileName, rulesAt]
  rw [Traversal.reaches_append, Traversal.reaches_iff _ _ hpath, Traversal.reaches_iff _ _ hpath]
  simp only [nil_append, hdescends]
  have hto : (walkDirTraversal (rulesAt s opts.noIgnore []) opts true).Reaches [] dir
      (decide (path ≠ []) || false) := by
    simpa [hpath] using hdir
  have hadmits : (∀ e ∈ entries path false,
      (walkDirTraversal (rulesAt s opts.noIgnore dir) opts false).admits e.1 e.2 = true) ↔
      ∀ e ∈ entries path false,
        (walkDirTraversal (rulesAt s opts.noIgnore []) opts true).admits (dir ++ e.1) e.2 = true ∧
          ¬ (s.hidden (dir ++ e.1) = true ∧
            included s opts.noIgnore (dir ++ e.1) e.2 = false) := by
    refine forall₂_congr fun e he => ?_
    obtain ⟨node, hnode, hisDir⟩ := exists_at_of_mem_entries hat he
    rw [← hisDir]
    exact admits_rulesAt s opts tree hp4 (Ignore.ne_nil_of_mem_entries hpath he) hnode
  rw [hadmits, forall₂_and]
  exact ⟨fun h => ⟨⟨hto, h.1.1, h.2⟩, h.1.2⟩, fun h => ⟨⟨h.1.2.1, h.2⟩, h.1.2.2⟩⟩

/-- The entries on the way to a file that a traversal visits are visited. -/
lemma visited_of_mem_entries (hat : Node.At tree.root (dir ++ path) (.file size))
    (hreaches : t.Reaches [] (dir ++ path) false) {e : Path × Bool} (he : e ∈ entries path false) :
    ∃ entry ∈ traverse t [] tree.root, entry.path = dir ++ e.1 ∧ entry.size.isNone = e.2 := by
  obtain ⟨node, hnode, hisDir⟩ := exists_at_of_mem_entries hat he
  rcases mem_entries.1 he with rfl | ⟨hmem, -, hdir⟩
  · exact ⟨_, mem_traverse_file.2 ⟨hat, hreaches⟩, rfl, rfl⟩
  · obtain ⟨⟨rest, hrest⟩, hne⟩ := Cascade.mem_parents.1 hmem
    have hrest' : rest ≠ [] := fun hnil => hne (by rw [← hrest, hnil, append_nil])
    rw [← hrest, ← append_assoc, Traversal.reaches_append] at hreaches
    cases node with
    | dir children =>
      have hsees : t.Sees ([] ++ (dir ++ e.1)) (.dir children) := by
        simpa [Traversal.Sees] using hreaches.2.2 [] rest rfl hrest'
      refine ⟨⟨dir ++ e.1, none⟩, (mem_traverse t [] tree.root _).2 ⟨dir ++ e.1, .dir children,
        hnode, rfl, hsees, ?_⟩, rfl, hdir.symm⟩
      simpa [hrest', Node.isDir] using hreaches.1
    | file size => rw [hdir] at hisDir; cases hisDir
    | other => rw [hdir] at hisDir; cases hisDir

/-- A file is visible below a search root if nothing on the way is hidden without an include
rule. -/
lemma isVisible_iff (h : Recorded s noIgnore tree t true v)
    (hkey : indexKey (dir ++ path) = some (dir ++ path)) (hpath : path ≠ [])
    (hat : Node.At tree.root (dir ++ path) (.file size))
    (hreaches : t.Reaches [] (dir ++ path) false) :
    v.isVisible (dir ++ path) dir false = true ↔ ∀ e ∈ entries path false,
      ¬ (s.hidden (dir ++ e.1) = true ∧ included s noIgnore (dir ++ e.1) e.2 = false) := by
  have hstrip : stripPrefix (dir ++ path) dir = some path := by
    simp [stripPrefix]
  rw [PathVisibility.isVisible, hstrip]
  simp only [Bool.false_or, all_eq_true]
  refine forall₂_congr fun e he => ?_
  obtain ⟨entry, hentry, hpe, hnone⟩ := visited_of_mem_entries hat hreaches he
  have hseg : e.1 <+: path := by
    rcases mem_entries.1 he with rfl | ⟨hmem, -, -⟩
    · exact prefix_refl _
    · exact (Cascade.mem_parents.1 hmem).1
  have hkey' : (indexKey entry.path).isSome := by
    rw [hpe, indexKey_of_prefix ((prefix_append_right_inj dir).2 hseg) hkey]
    rfl
  have hne : entry.path ≠ [] := by
    rw [hpe]
    simp [Ignore.ne_nil_of_mem_entries hpath he]
  rw [Bool.not_eq_true', ← Bool.not_eq_true, ← hpe, h.contains_iff hentry hne hkey', hnone]

/-- **The visible files are those of a walk of the search root** that leaves hidden entries out, if
the two walks have the same `p4ignore.ini` filter below it: for what the indexing walk recorded,
and after any events that replay entries of the tree and leave no record without the rules waiting
for them.

**Proof sketch.** The recorded entries stay the hidden ones that no rule includes
(`settled_run`). The walk of the search root admits what the index's walk admits and does not hide
without an include rule (`admits_rulesAt`), entry by entry on the way to the file. -/
theorem isVisible_iff_walkDir (s : Surroundings) (opts : WalkOptions) (tree : Tree) {dir : Path}
    {children : Forest} (hdir : Node.At tree.root dir (.dir children))
    (hvisited : (⟨dir, none⟩ : Entry) ∈
      traverse (walkDirTraversal (rulesAt s opts.noIgnore []) opts true) [] tree.root)
    (hp4 : SameP4Filter s opts tree dir) (events : List VisibilityEvent)
    (hreplays : ∀ e ∈ events, e.Replays tree)
    (hsettled : events.foldl VisibilityEvent.waits false = false) {path : Path}
    (hkey : indexKey (dir ++ path) = some (dir ++ path)) :
    ((dir ++ path ∈ (walkDir (rulesAt s opts.noIgnore []) opts true tree.root).listedFiles ∧
        (VisibilityEvent.run s opts.noIgnore (finishVisibility s opts tree) events).isVisible
          (dir ++ path) dir false = true) ↔
      path ∈ (walkDir (rulesAt s opts.noIgnore dir) opts false (.dir children)).listedFiles) ∧
    ((dir ++ path ∈ (walkDir (rulesAt s opts.noIgnore []) opts true tree.root).files ∧
        (VisibilityEvent.run s opts.noIgnore (finishVisibility s opts tree) events).isVisible
          (dir ++ path) dir false = true) ↔
      path ∈ (walkDir (rulesAt s opts.noIgnore dir) opts false (.dir children)).files) := by
  set index := walkDirTraversal (rulesAt s opts.noIgnore []) opts true
  have hreachesDir : index.Reaches [] dir true := by
    obtain ⟨rel, sub, hat, heq, hsees, hreaches⟩ := (mem_traverse index [] tree.root _).1 hvisited
    obtain ⟨rfl, hsize⟩ : dir = rel ∧ none = sub.size := by simpa using heq
    rwa [tree.unambiguous _ _ _ hat hdir] at hreaches
  have hrecorded : Recorded s opts.noIgnore tree index
      (!events.foldl VisibilityEvent.waits false) _ :=
    settled_run (recorded_finishVisibility s opts tree) hreplays
  rw [hsettled] at hrecorded
  have hlisted : (dir ++ path ∈
        (walkDir (rulesAt s opts.noIgnore []) opts true tree.root).listedFiles ∧
      (VisibilityEvent.run s opts.noIgnore (finishVisibility s opts tree) events).isVisible
        (dir ++ path) dir false = true) ↔
      path ∈ (walkDir (rulesAt s opts.noIgnore dir) opts false (.dir children)).listedFiles := by
    rw [mem_walkDir_listedFiles, mem_walkDir_listedFiles, and_assoc]
    simp only [tree.at_append_iff hdir]
    refine and_congr_right fun hfile => ?_
    obtain ⟨size, hat, -⟩ := hfile
    have hpath := hat.ne_nil_of_file
    have hroot := (tree.at_append_iff hdir).2 hat
    rw [reaches_rulesAt s opts tree hp4 hreachesDir hpath hroot]
    exact and_congr_right fun hreaches => isVisible_iff hrecorded hkey hpath hroot hreaches
  refine ⟨hlisted, ?_⟩
  rw [mem_walkDir_files, mem_walkDir_files, and_assoc, hlisted]
  by_cases hpath : path = []
  · have hnil : path ∉
        (walkDir (rulesAt s opts.noIgnore dir) opts false (.dir children)).listedFiles := by
      intro hmem
      obtain ⟨⟨size, hat, -⟩, -⟩ := mem_walkDir_listedFiles.1 hmem
      exact hat.ne_nil_of_file hpath
    simp [hnil]
  · have hbinary : isBinaryExtension (dir ++ path) = isBinaryExtension path := by
      simp [isBinaryExtension, getLast?_append_of_ne_nil _ hpath]
    rw [hbinary]

/-- A tree with a directory `sub` that holds `log`, and a hidden file `.env`. -/
def smallTree : Tree where
  children := .cons "sub" (.dir (.cons "log" (.file 1) .nil)) (.cons ".env" (.file 1) .nil)
  distinct := by decide

/-- The surroundings of a tree with an `.ignore` file and a `p4ignore.ini` in its root. -/
def smallSurroundings (dotIgnore p4ignore : Path → Bool → Option Bool) : Surroundings where
  sources := { Ignore.rootSources dotIgnore (fun _ _ => none) with p4ignore := ⟨false, p4ignore⟩ }
  hidden path := decide (path.getLast? = some ".env")
  p4Below _ := (Gitignore.empty, [])

/-- The rule `log` of a `p4ignore.ini`. -/
def ignoreLog (path : Path) (_ : Bool) : Option Bool :=
  if path.getLast? = some "log" then some true else none

/-- The rule `!.env`. -/
def includeEnv (path : Path) (_ : Bool) : Option Bool :=
  if path = [".env"] then some false else none

/-- **The visible files and a walk of the search root differ**: a `p4ignore.ini` of the root drops
`sub/log`, and a walk started at `sub` does not read it. -/
theorem not_isVisible_iff_walkDir :
    ¬ ∀ (s : Surroundings) (opts : WalkOptions) (tree : Tree) (dir : Path) (children : Forest),
      Node.At tree.root dir (.dir children) →
      (⟨dir, none⟩ : Entry) ∈
        traverse (walkDirTraversal (rulesAt s opts.noIgnore []) opts true) [] tree.root →
      ∀ path, indexKey (dir ++ path) = some (dir ++ path) →
        ((dir ++ path ∈ (walkDir (rulesAt s opts.noIgnore []) opts true tree.root).files ∧
          (finishVisibility s opts tree).isVisible (dir ++ path) dir false = true) ↔
        path ∈ (walkDir (rulesAt s opts.noIgnore dir) opts false (.dir children)).files) := by
  intro h
  have hsub : Node.At smallTree.root ["sub"] (.dir (.cons "log" (.file 1) .nil)) :=
    .inside (.head (.root _))
  have hlog := h (smallSurroundings (fun _ _ => none) ignoreLog) plainOptions smallTree ["sub"] _
    hsub (by decide) ["log"] (by decide)
  have hwalk : ["log"] ∈ (walkDir (rulesAt (smallSurroundings (fun _ _ => none) ignoreLog) false
      ["sub"]) plainOptions false (.dir (.cons "log" (.file 1) .nil))).files := by decide
  have hindex : ["sub", "log"] ∉ (walkDir (rulesAt (smallSurroundings (fun _ _ => none) ignoreLog)
      false []) plainOptions true smallTree.root).files := by decide
  exact hindex (hlog.2 hwalk).1

/-- A record without the rules hides an entry that a rule includes, until the rules are applied. -/
example : (VisibilityEvent.run (smallSurroundings includeEnv (fun _ _ => none)) false
    (finishVisibility (smallSurroundings includeEnv (fun _ _ => none)) plainOptions smallTree)
    [.record [".env"] false false]).isVisible [".env"] [] false = false := by decide

/-- The visible files below `sub`, with a rule that includes `.env` and no `p4ignore.ini`. -/
theorem isVisible_iff_walkDir_sub :
    ((["sub"] ++ ["log"] ∈ (walkDir (rulesAt (smallSurroundings includeEnv fun _ _ => none) false
          []) plainOptions true smallTree.root).listedFiles ∧
        (VisibilityEvent.run (smallSurroundings includeEnv fun _ _ => none) false
          (finishVisibility (smallSurroundings includeEnv fun _ _ => none) plainOptions smallTree)
          [.record [".env"] false false, .applyRules]).isVisible
          (["sub"] ++ ["log"]) ["sub"] false = true) ↔
      ["log"] ∈ (walkDir (rulesAt (smallSurroundings includeEnv fun _ _ => none) false ["sub"])
        plainOptions false (.dir (.cons "log" (.file 1) .nil))).listedFiles) ∧
    ((["sub"] ++ ["log"] ∈ (walkDir (rulesAt (smallSurroundings includeEnv fun _ _ => none) false
          []) plainOptions true smallTree.root).files ∧
        (VisibilityEvent.run (smallSurroundings includeEnv fun _ _ => none) false
          (finishVisibility (smallSurroundings includeEnv fun _ _ => none) plainOptions smallTree)
          [.record [".env"] false false, .applyRules]).isVisible
          (["sub"] ++ ["log"]) ["sub"] false = true) ↔
      ["log"] ∈ (walkDir (rulesAt (smallSurroundings includeEnv fun _ _ => none) false ["sub"])
        plainOptions false (.dir (.cons "log" (.file 1) .nil))).files) := by
  refine isVisible_iff_walkDir (smallSurroundings includeEnv fun _ _ => none) plainOptions smallTree
    (.inside (.head (.root _))) (by decide) ?_ _ ?_ (by decide) (by decide)
  · intro path node _ _
    have hparents : ∀ l : List Path, (l.findSome? fun _ => (none : Option Bool)) = none :=
      fun l => List.findSome?_eq_none_iff.2 fun _ _ => rfl
    have hnone : (⟨⟨false, fun _ _ => none⟩, []⟩ : Ignore.P4IgnoreMatcher).isIgnored
        (["sub"] ++ path) node.isDir = false := by
      simp [Ignore.P4IgnoreMatcher.isIgnored, Gitignore.matchedPathOrAnyParents, Gitignore.matched,
        hparents]
    exact hnone.symm
  · intro e he
    rcases List.mem_cons.1 he with rfl | he
    · exact ⟨.file 1, .inside (.tail (.head (.root _))), rfl⟩
    · rcases List.mem_singleton.1 he with rfl
      trivial

end Walk

end Tgrep
