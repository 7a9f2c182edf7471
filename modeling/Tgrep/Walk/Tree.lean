import Tgrep.Ignore.PointQuery

/-!
# Traversing a directory tree

What a walk visits: an entry is sent to the visitor if the walker's own rules and the entry filter
admit it, and a directory is descended into if the visitor continues at it.

## Main definitions

* `Walk.Node`, `Walk.Forest`: a directory tree.
* `Node.At`: what is at a path of a tree.
* `Walk.Traversal`, `Walk.traverse`: the entries that a traversal visits.

## Main results

* `Walk.mem_traverse`: an entry is visited exactly if every entry on the way to it is admitted
  and every directory on the way is descended into.
-/

namespace Tgrep

open List

namespace Walk

open Ignore (Path entries)

open Cascade (parents)

mutual

/-- A file, a directory, or something that is neither, such as a symbolic link. -/
inductive Node where
  | file (size : ℕ)
  | dir (children : Forest)
  | other

/-- The named entries of a directory. -/
inductive Forest where
  | nil
  | cons (name : String) (node : Node) (rest : Forest)

end

/-- Whether a node is a directory. -/
def Node.isDir : Node → Bool
  | .dir _ => true
  | _ => false

/-- An entry that a traversal visits: its path, and its size unless it is a directory. -/
structure Entry where
  path : Path
  size : Option ℕ
  deriving DecidableEq

/-- The two decisions of a traversal. -/
structure Traversal where
  /-- Whether an entry below the root is admitted. -/
  admits : Path → Bool → Bool
  /-- Whether the visitor continues at a directory. -/
  descends : Path → Bool

mutual

/-- The entries visited at and below a node at `path`. -/
def traverse (t : Traversal) (path : Path) : Node → List Entry
  | .file size => [⟨path, some size⟩]
  | .dir children => if t.descends path then ⟨path, none⟩ :: traverseAll t path children else []
  | .other => []

/-- The entries visited below a directory at `path`. -/
def traverseAll (t : Traversal) (path : Path) : Forest → List Entry
  | .nil => []
  | .cons name node rest =>
    (if t.admits (path ++ [name]) node.isDir then traverse t (path ++ [name]) node else []) ++
      traverseAll t path rest

end

mutual

/-- What is at a path below a node. -/
inductive Node.At : Node → Path → Node → Prop
  | root (node : Node) : Node.At node [] node
  | inside {children : Forest} {path : Path} {node : Node} (h : Forest.At children path node) :
      Node.At (.dir children) path node

/-- What is at a path below the entries of a directory. -/
inductive Forest.At : Forest → Path → Node → Prop
  | head {name : String} {child : Node} {rest : Forest} {path : Path} {node : Node}
      (h : Node.At child path node) : Forest.At (.cons name child rest) (name :: path) node
  | tail {name : String} {child : Node} {rest : Forest} {path : Path} {node : Node}
      (h : Forest.At rest path node) : Forest.At (.cons name child rest) path node

end

/-- What is below the entries of a directory has a path. -/
lemma Forest.At.ne_nil {forest : Forest} {path : Path} {node : Node}
    (h : Forest.At forest path node) : path ≠ [] := by
  intro hnil
  subst hnil
  match forest, h with
  | .cons _ _ _, .tail h => exact h.ne_nil rfl

/-- A file below a directory has a path. -/
lemma Node.At.ne_nil_of_file {children : Forest} {path : Path} {size : ℕ}
    (h : Node.At (.dir children) path (.file size)) : path ≠ [] := by
  cases h with
  | inside h => exact h.ne_nil

mutual

/-- What is at a path of what is at a directory is at the path in the directory. -/
lemma Node.At.append {tree node sub : Node} {dir path : Path} (h : Node.At tree dir node)
    (h' : Node.At node path sub) : Node.At tree (dir ++ path) sub := by
  match h with
  | .root _ => exact h'
  | .inside h => exact .inside (h.append h')

/-- What is at a path of what is below a directory's entries is below them. -/
lemma Forest.At.append {children : Forest} {node sub : Node} {dir path : Path}
    (h : Forest.At children dir node) (h' : Node.At node path sub) :
    Forest.At children (dir ++ path) sub := by
  match h with
  | .head h => exact .head (h.append h')
  | .tail h => exact .tail (h.append h')

end

mutual

/-- What is at the end of a path in a directory is in what is at the directory. -/
lemma Node.At.split {tree sub : Node} (dir : Path) {path : Path}
    (h : Node.At tree (dir ++ path) sub) :
    ∃ node, Node.At tree dir node ∧ Node.At node path sub := by
  match dir with
  | [] => exact ⟨tree, .root tree, h⟩
  | name :: dir =>
    match tree, h with
    | .dir _, .inside h =>
      obtain ⟨node, hat, hsub⟩ := Forest.At.split name dir h
      exact ⟨node, .inside hat, hsub⟩

/-- What is at the end of a path below a directory's entries is in what is below them. -/
lemma Forest.At.split {children : Forest} {sub : Node} (name : String) (dir : Path) {path : Path}
    (h : Forest.At children (name :: (dir ++ path)) sub) :
    ∃ node, Forest.At children (name :: dir) node ∧ Node.At node path sub := by
  match children, h with
  | .cons _ _ _, .head h =>
    obtain ⟨node, hat, hsub⟩ := Node.At.split dir h
    exact ⟨node, .head hat, hsub⟩
  | .cons _ _ _, .tail h =>
    obtain ⟨node, hat, hsub⟩ := Forest.At.split name dir h
    exact ⟨node, .tail hat, hsub⟩

end

/-- The names of a directory's entries. -/
def Forest.names : Forest → List String
  | .nil => []
  | .cons name _ rest => name :: rest.names

mutual

/-- Whether the names of every directory at and below a node are distinct. -/
def Node.distinct : Node → Bool
  | .dir children => children.distinct
  | _ => true

/-- Whether the names of a directory and of every directory below it are distinct. -/
def Forest.distinct : Forest → Bool
  | .nil => true
  | .cons name node rest => !rest.names.contains name && node.distinct && rest.distinct

end

/-- What is below a directory's entries is below one with a name of the directory. -/
lemma Forest.At.mem_names {children : Forest} {name : String} {path : Path} {node : Node}
    (h : Forest.At children (name :: path) node) : name ∈ children.names := by
  match children, h with
  | .cons _ _ _, .head _ => exact mem_cons_self
  | .cons _ _ _, .tail h => exact mem_cons_of_mem _ h.mem_names

mutual

/-- Distinct names lead to one node. -/
lemma Node.At.unique {tree a b : Node} {path : Path} (hdistinct : tree.distinct = true)
    (ha : Node.At tree path a) (hb : Node.At tree path b) : a = b := by
  match ha, hb with
  | .root _, .root _ => rfl
  | .root _, .inside hb => exact absurd rfl hb.ne_nil
  | .inside ha, .root _ => exact absurd rfl ha.ne_nil
  | .inside ha, .inside hb => exact ha.unique hdistinct hb

/-- Distinct names of a directory lead to one node. -/
lemma Forest.At.unique {children : Forest} {a b : Node} {path : Path}
    (hdistinct : children.distinct = true) (ha : Forest.At children path a)
    (hb : Forest.At children path b) : a = b := by
  match children, ha, hb with
  | .cons name child rest, .head ha, hb =>
    rw [Forest.distinct, Bool.and_eq_true, Bool.and_eq_true, Bool.not_eq_true'] at hdistinct
    match hb with
    | .head hb => exact ha.unique hdistinct.1.2 hb
    | .tail hb =>
      have hmem := hb.mem_names
      rw [← contains_iff_mem, hdistinct.1.1] at hmem
      cases hmem
  | .cons name child rest, .tail ha, hb =>
    rw [Forest.distinct, Bool.and_eq_true, Bool.and_eq_true, Bool.not_eq_true'] at hdistinct
    match hb with
    | .head _ =>
      have hmem := ha.mem_names
      rw [← contains_iff_mem, hdistinct.1.1] at hmem
      cases hmem
    | .tail hb => exact ha.unique hdistinct.2 hb

end

/-- A directory tree in which the names of a directory are distinct. -/
structure Tree where
  children : Forest
  distinct : children.distinct = true

/-- The root of a tree. -/
def Tree.root (tree : Tree) : Node := .dir tree.children

/-- There is one thing at a path of a tree. -/
lemma Tree.unambiguous (tree : Tree) (path : Path) (a b : Node) (ha : Node.At tree.root path a)
    (hb : Node.At tree.root path b) : a = b := by
  refine ha.unique ?_ hb
  rw [Tree.root, Node.distinct]
  exact tree.distinct

/-- What is in a directory of a tree. -/
lemma Tree.at_append_iff (tree : Tree) {dir path : Path} {node sub : Node}
    (h : Node.At tree.root dir node) : Node.At tree.root (dir ++ path) sub ↔
      Node.At node path sub := by
  constructor
  · intro hsub
    obtain ⟨node', hat, hsub⟩ := Node.At.split dir hsub
    rwa [tree.unambiguous dir node node' h hat]
  · exact fun hsub => h.append hsub

/-- The visitor sees files, and the directories it continues at. -/
def Traversal.Sees (t : Traversal) (path : Path) : Node → Prop
  | .file _ => True
  | .dir _ => t.descends path = true
  | .other => False

/-- The size of a file. -/
def Node.size : Node → Option ℕ
  | .file size => some size
  | _ => none

/-- A traversal gets from `path` to the entry at `rel` below it: it admits every entry on the way
and descends into every directory on the way. -/
def Traversal.Reaches (t : Traversal) (path rel : Path) (isDir : Bool) : Prop :=
  (∀ pre rest, rel = pre ++ rest → pre ≠ [] →
    t.admits (path ++ pre) (decide (rest ≠ []) || isDir) = true) ∧
  ∀ pre rest, rel = pre ++ rest → rest ≠ [] → t.descends (path ++ pre) = true

/-- A traversal is where it starts. -/
lemma Traversal.reaches_nil (t : Traversal) (path : Path) (isDir : Bool) :
    t.Reaches path [] isDir := by
  refine ⟨fun pre rest h hpre => ?_, fun pre rest h hrest => ?_⟩
  · exact absurd (append_eq_nil_iff.1 h.symm).1 hpre
  · exact absurd (append_eq_nil_iff.1 h.symm).2 hrest

/-- The first step on the way below a directory, and the rest of it. -/
lemma Traversal.reaches_cons (t : Traversal) (path : Path) (name : String) (rel : Path)
    (isDir : Bool) : t.Reaches path (name :: rel) isDir ↔
      t.descends path = true ∧ t.admits (path ++ [name]) (decide (rel ≠ []) || isDir) = true ∧
        t.Reaches (path ++ [name]) rel isDir := by
  constructor
  · rintro ⟨hadmits, hdescends⟩
    refine ⟨?_, ?_, fun pre rest h hpre => ?_, fun pre rest h hrest => ?_⟩
    · simpa using hdescends [] (name :: rel) rfl (by simp)
    · exact hadmits [name] rel rfl (by simp)
    · simpa using hadmits (name :: pre) rest (by rw [h]; rfl) (by simp)
    · simpa using hdescends (name :: pre) rest (by rw [h]; rfl) hrest
  · rintro ⟨hpath, hname, hadmits, hdescends⟩
    refine ⟨fun pre rest h hpre => ?_, fun pre rest h hrest => ?_⟩
    · cases pre with
      | nil => exact absurd rfl hpre
      | cons first pre =>
        obtain ⟨rfl, hrel⟩ := cons.inj h
        by_cases hnil : pre = []
        · subst hnil
          obtain rfl : rel = rest := hrel
          exact hname
        · simpa using hadmits pre rest hrel hnil
    · cases pre with
      | nil => simpa using hpath
      | cons first pre =>
        obtain ⟨rfl, hrel⟩ := cons.inj h
        simpa using hdescends pre rest hrel hrest

mutual

/-- **What a traversal visits** at and below a node: what it reaches and the visitor sees. -/
theorem mem_traverse (t : Traversal) (path : Path) (node : Node) (e : Entry) :
    e ∈ traverse t path node ↔ ∃ rel sub, Node.At node rel sub ∧ e = ⟨path ++ rel, sub.size⟩ ∧
      t.Sees (path ++ rel) sub ∧ t.Reaches path rel sub.isDir := by
  cases node with
  | file size =>
    rw [traverse, mem_singleton]
    constructor
    · rintro rfl
      exact ⟨[], .file size, .root _, by simp [Node.size], trivial, t.reaches_nil _ _⟩
    · rintro ⟨rel, sub, ⟨⟩, rfl, -, -⟩
      simp [Node.size]
  | other =>
    rw [traverse]
    refine ⟨fun h => absurd h not_mem_nil, ?_⟩
    rintro ⟨rel, sub, ⟨⟩, -, hsees, -⟩
    exact hsees.elim
  | dir children =>
    rw [traverse]
    by_cases hdescends : t.descends path = true
    · rw [if_pos hdescends, mem_cons, mem_traverseAll t path children e hdescends]
      constructor
      · rintro (rfl | ⟨rel, sub, hat, heq, hsees, hreaches⟩)
        · exact ⟨[], .dir children, .root _, by simp [Node.size],
            by simpa [Traversal.Sees] using hdescends, t.reaches_nil _ _⟩
        · exact ⟨rel, sub, .inside hat, heq, hsees, hreaches⟩
      · rintro ⟨rel, sub, ⟨⟩ | ⟨hat⟩, heq, hsees, hreaches⟩
        · exact .inl (by rw [heq]; simp [Node.size])
        · exact .inr ⟨rel, sub, hat, heq, hsees, hreaches⟩
    · rw [if_neg hdescends]
      refine ⟨fun h => absurd h not_mem_nil, ?_⟩
      rintro ⟨rel, sub, ⟨⟩ | ⟨hat⟩, -, hsees, hreaches⟩
      · exact absurd (by simpa [Traversal.Sees] using hsees) hdescends
      · refine absurd ?_ hdescends
        simpa using hreaches.2 [] rel rfl hat.ne_nil

/-- What a traversal visits below a directory that it descends into. -/
lemma mem_traverseAll (t : Traversal) (path : Path) (children : Forest) (e : Entry)
    (hdescends : t.descends path = true) :
    e ∈ traverseAll t path children ↔ ∃ rel sub, Forest.At children rel sub ∧
      e = ⟨path ++ rel, sub.size⟩ ∧ t.Sees (path ++ rel) sub ∧ t.Reaches path rel sub.isDir := by
  cases children with
  | nil =>
    rw [traverseAll]
    refine ⟨fun h => absurd h not_mem_nil, ?_⟩
    rintro ⟨rel, sub, ⟨⟩, -⟩
  | cons name node rest =>
    rw [traverseAll, mem_append, mem_traverseAll t path rest e hdescends]
    have hhead : e ∈ (if t.admits (path ++ [name]) node.isDir = true then
          traverse t (path ++ [name]) node else []) ↔
        ∃ rel sub, Node.At node rel sub ∧ e = ⟨path ++ name :: rel, sub.size⟩ ∧
          t.Sees (path ++ name :: rel) sub ∧ t.Reaches path (name :: rel) sub.isDir := by
      by_cases hadmits : t.admits (path ++ [name]) node.isDir = true
      · rw [if_pos hadmits, mem_traverse t (path ++ [name]) node e]
        refine exists_congr fun rel => exists_congr fun sub => and_congr_right fun hat => ?_
        have hname : t.admits (path ++ [name]) (decide (rel ≠ []) || sub.isDir) = true := by
          cases hat with
          | root => simpa using hadmits
          | inside hbelow => simpa [hbelow.ne_nil, Node.isDir] using hadmits
        rw [t.reaches_cons]
        simp only [hdescends, hname, true_and, append_assoc, singleton_append]
      · rw [if_neg hadmits]
        refine ⟨fun h => absurd h not_mem_nil, ?_⟩
        rintro ⟨rel, sub, hat, -, -, hreaches⟩
        obtain ⟨-, hname, -⟩ := (t.reaches_cons path name rel sub.isDir).1 hreaches
        refine absurd ?_ hadmits
        cases hat with
        | root => simpa using hname
        | inside hbelow => simpa [hbelow.ne_nil, Node.isDir] using hname
    rw [hhead]
    constructor
    · rintro (⟨rel, sub, hat, h⟩ | ⟨rel, sub, hat, h⟩)
      · exact ⟨name :: rel, sub, .head hat, h⟩
      · exact ⟨rel, sub, .tail hat, h⟩
    · rintro ⟨rel, sub, ⟨hat⟩ | ⟨hat⟩, h⟩
      · exact .inl ⟨_, sub, hat, h⟩
      · exact .inr ⟨rel, sub, hat, h⟩

end

/-- The files that a traversal from the root visits. -/
lemma mem_traverse_file {t : Traversal} {node : Node} {path : Path} {size : ℕ} :
    (⟨path, some size⟩ : Entry) ∈ traverse t [] node ↔
      Node.At node path (.file size) ∧ t.Reaches [] path false := by
  rw [mem_traverse]
  constructor
  · rintro ⟨rel, sub, hat, heq, -, hreaches⟩
    obtain ⟨rfl, hsize⟩ : path = rel ∧ some size = sub.size := by simpa using heq
    cases sub with
    | file size' =>
      obtain rfl : size = size' := by simpa [Node.size] using hsize
      exact ⟨hat, hreaches⟩
    | dir children => cases hsize
    | other => cases hsize
  · rintro ⟨hat, hreaches⟩
    exact ⟨path, .file size, hat, by simp [Node.size], trivial, hreaches⟩

/-- The entries on the way to a path: the path itself, and its directories below the root. -/
lemma mem_entries {path : Path} {isDir : Bool} {e : Path × Bool} :
    e ∈ entries path isDir ↔
      e = (path, isDir) ∨ e.1 ∈ parents path ∧ e.1 ≠ [] ∧ e.2 = true := by
  rw [entries, mem_cons, mem_map]
  refine or_congr_right ⟨?_, ?_⟩
  · rintro ⟨parent, hparent, rfl⟩
    obtain ⟨hmem, hne⟩ := mem_filter.1 hparent
    exact ⟨hmem, of_decide_eq_true hne, rfl⟩
  · rintro ⟨hmem, hne, hdir⟩
    exact ⟨e.1, mem_filter.2 ⟨hmem, decide_eq_true hne⟩, by rw [← hdir]⟩

/-- A traversal gets to a path exactly if it admits the entries on the way and descends into the
directories on the way. -/
lemma Traversal.reaches_iff (t : Traversal) (path : Path) {rel : Path} (hrel : rel ≠ [])
    (isDir : Bool) : t.Reaches path rel isDir ↔
      (∀ e ∈ entries rel isDir, t.admits (path ++ e.1) e.2 = true) ∧
        ∀ dir ∈ parents rel, t.descends (path ++ dir) = true := by
  have hproper : ∀ {pre rest : Path}, rel = pre ++ rest → rest ≠ [] → pre ∈ parents rel := by
    intro pre rest h hrest
    refine Cascade.mem_parents.2 ⟨⟨rest, h.symm⟩, fun heq => hrest ?_⟩
    rw [heq] at h
    simpa using h
  constructor
  · rintro ⟨hadmits, hdescends⟩
    refine ⟨fun e he => ?_, fun dir hdir => ?_⟩
    · rcases mem_entries.1 he with rfl | ⟨hmem, hne, hdir⟩
      · simpa using hadmits rel [] (by simp) hrel
      · obtain ⟨⟨rest, hrest⟩, hpe⟩ := Cascade.mem_parents.1 hmem
        have hne' : rest ≠ [] := fun hnil => hpe (by rw [← hrest, hnil, append_nil])
        rw [hdir]
        simpa [hne'] using hadmits e.1 rest hrest.symm hne
    · obtain ⟨⟨rest, hrest⟩, hpe⟩ := Cascade.mem_parents.1 hdir
      have hne' : rest ≠ [] := fun hnil => hpe (by rw [← hrest, hnil, append_nil])
      exact hdescends dir rest hrest.symm hne'
  · rintro ⟨hadmits, hdescends⟩
    refine ⟨fun pre rest h hpre => ?_, fun pre rest h hrest => ?_⟩
    · by_cases hrest : rest = []
      · subst hrest
        rw [append_nil] at h
        subst h
        simpa using hadmits (rel, isDir) (mem_entries.2 (.inl rfl))
      · have hmem := hadmits (pre, true) (mem_entries.2 (.inr ⟨hproper h hrest, hpre, rfl⟩))
        simpa [hrest] using hmem
    · exact hdescends pre (hproper h hrest)

/-- A traversal gets to a path in a directory exactly if it gets to the directory and from there
to the path. -/
lemma Traversal.reaches_append (t : Traversal) (path dir rel : Path) (isDir : Bool) :
    t.Reaches path (dir ++ rel) isDir ↔
      t.Reaches path dir (decide (rel ≠ []) || isDir) ∧ t.Reaches (path ++ dir) rel isDir := by
  induction dir generalizing path with
  | nil =>
    rw [nil_append, append_nil]
    exact ⟨fun h => ⟨t.reaches_nil _ _, h⟩, fun h => h.2⟩
  | cons name dir ih =>
    have hname : (decide (dir ++ rel ≠ []) || isDir) =
        (decide (dir ≠ []) || (decide (rel ≠ []) || isDir)) := by
      cases dir <;> simp
    rw [cons_append, t.reaches_cons, t.reaches_cons, ih, hname, append_assoc, singleton_append]
    tauto

end Walk

end Tgrep
