import Tgrep.Walk.Tree

/-!
# The indexing walk and the metadata walk

Two walks read a tree: the indexing walk, whose files are indexed, and the metadata walk, from
which stale checks see what to evict. They repeat the same filters in different places. They must
admit the same files, or a file is indexed by one and evicted by the other for ever.

## Main definitions

* `Walk.WalkRules`, `Walk.WalkOptions`: what a walk reads, and its settings.
* `Walk.walkDir`, `Walk.walkMetadata`: the two walks.
* `Walk.ExemptFile`: a file that only the exemption of entries named `.gitignore` lets through.

## Main results

* `Walk.walkMetadata_reaches`: the metadata walk reaches what the indexing walk reaches with no
  entry on the way dropped by a filter.
* `Walk.walks_agree_iff`: the walks admit the same files exactly if no file is exempt.

## Implementation notes

What the walker's own matcher says about an entry is a function of its path, the same for both
walks. Paths are relative to the root of the walk; the filters that need absolute paths prepend it.
-/

namespace Tgrep

open List

namespace Walk

open Ignore (Path Gitignore P4IgnoreMatcher CaseInsensitiveIgnore buildP4ignoreMatcher entries)

open Cascade (parents)

/-- What a walk reads besides the tree. -/
structure WalkRules where
  /-- The absolute path of the root. -/
  root : Path
  /-- What the walker's own matcher says about an entry: ignore, include or nothing. -/
  matched : Path → Bool → Option Bool
  /-- Whether an entry is hidden by its name or an attribute. -/
  hidden : Path → Bool
  /-- Git's case-insensitive filter. -/
  ignorecase : Option CaseInsensitiveIgnore
  /-- The rules of the root's `p4ignore.ini`. -/
  p4ignore : Gitignore
  /-- The literal starts of its rules that include something. -/
  reincludePrefixes : List Path

/-- The settings that the two walks share. -/
structure WalkOptions where
  /-- Whether to respect no ignore files. -/
  noIgnore : Bool
  /-- Files larger than this are left out. -/
  maxFileSize : Option ℕ
  /-- Names of directories to leave out. -/
  excludeDirs : List String
  /-- Absolute storage paths to prune. -/
  excludePaths : List Path

/-- Binary extensions that can be rejected without reading file content. -/
def binaryExtensions : List String :=
  ["png", "jpg", "jpeg", "gif", "bmp", "ico", "webp", "tiff", "tif", "psd", "mp3", "mp4", "avi",
    "mkv", "mov", "wav", "flac", "ogg", "wma", "aac", "m4a", "webm", "zip", "tar", "gz", "bz2",
    "xz", "zst", "7z", "rar", "lz4", "lzma", "cab", "exe", "dll", "so", "dylib", "obj", "o", "a",
    "lib", "pdb", "wasm", "class", "jar", "pyc", "pyo", "beam", "pdf", "doc", "docx", "xls",
    "xlsx", "ppt", "pptx", "ttf", "otf", "woff", "woff2", "eot", "bin", "dat", "db", "sqlite",
    "sqlite3"]

/-- The part of a file name after its last dot, if there is something before the dot. -/
def extension (name : String) : Option String :=
  match name.toList.reverse.span (· ≠ '.') with
  | (_, []) => none
  | (_, [_]) => none
  | (reversed, _) => some (String.ofList reversed.reverse)

/-- Whether a path has a binary extension. -/
def isBinaryExtension (path : Path) : Bool :=
  (path.getLast?.bind extension).any fun ext => binaryExtensions.contains ext.toLower

/-- The key of a path in an index, if the name has one. -/
def indexKey (relative : Path) : Option Path :=
  if relative.any fun name => name.toList.contains '\\' then none else some relative

/-- Whether a file exceeds the size limit. -/
def exceedsSizeLimit (maxFileSize : Option ℕ) (size : ℕ) : Bool :=
  maxFileSize.any fun limit => decide (limit < size)

namespace WalkRules

variable (rules : WalkRules) (opts : WalkOptions)

/-- The name of an entry. -/
def fileName (path : Path) : Option String := (rules.root ++ path).getLast?

/-- Whether a directory is left out by its name. -/
def shouldSkipDir (path : Path) : Bool :=
  !opts.excludeDirs.isEmpty && (rules.fileName path).any fun name => opts.excludeDirs.contains name

/-- Whether the walker's own rules skip an entry. Without a rule a hidden entry is skipped, if
hidden entries are left out. -/
def shouldSkipEntry (hidden : Bool) (path : Path) (isDir : Bool) : Bool :=
  match rules.matched path isDir with
  | some ignore => ignore
  | none => hidden && rules.hidden path

/-- The case-insensitive filter of a walk. -/
def gitIgnorecaseFilter : Option CaseInsensitiveIgnore :=
  if opts.noIgnore then none else rules.ignorecase

/-- The `p4ignore.ini` filter of a walk. -/
def p4Filter : Option P4IgnoreMatcher :=
  if opts.noIgnore then none else buildP4ignoreMatcher rules.p4ignore rules.reincludePrefixes

/-- Whether a path is in a storage path. -/
def excludedPath (path : Path) : Bool :=
  opts.excludePaths.any fun excluded => decide (excluded <+: rules.root ++ path)

/-- The entry filter of the indexing walk. -/
def walkDirFilter (path : Path) (isDir : Bool) : Bool :=
  if rules.excludedPath opts path then false
  else if rules.fileName path = some ".gitignore" then true
  else if (rules.gitIgnorecaseFilter opts).any fun ignorecase =>
      ignorecase.excludes (rules.root ++ path) isDir then false
  else match rules.p4Filter opts with
    | none => true
    | some matcher => !matcher.isIgnored path isDir

/-- The entry filter of the metadata walk. -/
def walkMetadataFilter (path : Path) (isDir : Bool) : Bool :=
  if rules.excludedPath opts path then false
  else if isDir && rules.shouldSkipDir opts path then false
  else if (rules.gitIgnorecaseFilter opts).any fun ignorecase =>
      ignorecase.excludes (rules.root ++ path) isDir then false
  else if (rules.p4Filter opts).any fun matcher => matcher.isIgnored path isDir then false
  else true

end WalkRules

/-- The files of a walk: those to index, and those listed before binary extensions are left
out. -/
structure WalkResult where
  files : List Path
  listedFiles : List Path

/-- The traversal of the indexing walk. -/
def walkDirTraversal (rules : WalkRules) (opts : WalkOptions) (includeHidden : Bool) :
    Traversal where
  admits path isDir := !rules.shouldSkipEntry (!includeHidden) path isDir &&
    rules.walkDirFilter opts path isDir
  descends path := !rules.shouldSkipDir opts path

/-- The indexing walk. -/
def walkDir (rules : WalkRules) (opts : WalkOptions) (includeHidden : Bool) (tree : Node) :
    WalkResult :=
  let visited := (traverse (walkDirTraversal rules opts includeHidden) [] tree).filterMap fun e =>
    e.size.map fun size => (e.path, size)
  { files := (visited.filter fun (path, size) =>
      !isBinaryExtension path && !exceedsSizeLimit opts.maxFileSize size).map Prod.fst
    listedFiles := (visited.filter fun (_, size) =>
      !exceedsSizeLimit opts.maxFileSize size).map Prod.fst }

/-- The traversal of the metadata walk. Directories without an index key are left out. -/
def walkMetadataTraversal (rules : WalkRules) (opts : WalkOptions) : Traversal where
  admits path isDir := !rules.shouldSkipEntry false path isDir &&
    rules.walkMetadataFilter opts path isDir
  descends path := !rules.shouldSkipDir opts path && (indexKey path).isSome

/-- The metadata walk: a file with a binary extension is listed only. -/
def walkMetadata (rules : WalkRules) (opts : WalkOptions) (tree : Node) : WalkResult :=
  let visited := (traverse (walkMetadataTraversal rules opts) [] tree).filterMap fun e =>
    e.size.bind fun size => (indexKey e.path).map fun key => (key, size)
  { files := (visited.filter fun (path, size) =>
      !(isBinaryExtension path || exceedsSizeLimit opts.maxFileSize size)).map Prod.fst
    listedFiles := (visited.filter fun (path, size) =>
      if isBinaryExtension path then !exceedsSizeLimit opts.maxFileSize size
      else !exceedsSizeLimit opts.maxFileSize size).map Prod.fst }

/-- Whether one of the two filters drops an entry. -/
def WalkRules.drops (rules : WalkRules) (opts : WalkOptions) (path : Path) (isDir : Bool) : Bool :=
  ((rules.gitIgnorecaseFilter opts).any fun ignorecase =>
    ignorecase.excludes (rules.root ++ path) isDir) ||
  (rules.p4Filter opts).any fun matcher => matcher.isIgnored path isDir

/-- Every name of a tree has an index key. -/
def Representable (tree : Node) : Prop :=
  ∀ path node, Node.At tree path node → indexKey path = some path

variable {hidden : Bool} {tree : Node} {rules : WalkRules} {opts : WalkOptions} {path : Path}

/-- A directory of a path with a key has a key. -/
lemma indexKey_of_prefix {dir : Path} (h : dir <+: path) (hkey : indexKey path = some path) :
    indexKey dir = some dir := by
  have hany : (path.any fun name => name.toList.contains '\\') = false := by
    by_contra hne
    rw [indexKey, if_pos (by simpa using hne)] at hkey
    cases hkey
  rw [indexKey, if_neg]
  intro hdir
  obtain ⟨name, hname, hslash⟩ := any_eq_true.1 hdir
  exact any_eq_false.1 hany name (h.subset hname) hslash

/-! ### What the walks reach -/

/-- The metadata walk admits what the indexing walk admits of the entries that no filter drops, but
for directories that are left out by name. -/
lemma walkMetadataFilter_eq (rules : WalkRules) (opts : WalkOptions) (path : Path)
    (isDir : Bool) : rules.walkMetadataFilter opts path isDir =
      (rules.walkDirFilter opts path isDir && !rules.drops opts path isDir &&
        !(isDir && rules.shouldSkipDir opts path)) := by
  unfold WalkRules.walkMetadataFilter WalkRules.walkDirFilter WalkRules.drops
  cases rules.excludedPath opts path with
  | true => rfl
  | false =>
    cases (rules.gitIgnorecaseFilter opts).any fun ignorecase =>
        ignorecase.excludes (rules.root ++ path) isDir with
    | true => cases isDir && rules.shouldSkipDir opts path <;> simp
    | false =>
      cases rules.p4Filter opts with
      | none => cases isDir && rules.shouldSkipDir opts path <;> simp
      | some matcher =>
        cases hdrops : matcher.isIgnored path isDir <;>
          cases isDir && rules.shouldSkipDir opts path <;> simp [hdrops]

/-- The indexing walk admits an entry that no filter drops or that is exempt by its name. -/
lemma walkDirFilter_eq (rules : WalkRules) (opts : WalkOptions) (path : Path) (isDir : Bool) :
    rules.walkDirFilter opts path isDir = (!rules.excludedPath opts path &&
      (decide (rules.fileName path = some ".gitignore") || !rules.drops opts path isDir)) := by
  unfold WalkRules.walkDirFilter WalkRules.drops
  cases rules.excludedPath opts path with
  | true => rfl
  | false =>
    by_cases hname : rules.fileName path = some ".gitignore"
    · simp [hname]
    · cases (rules.gitIgnorecaseFilter opts).any fun ignorecase =>
          ignorecase.excludes (rules.root ++ path) isDir with
      | true => simp [hname]
      | false => cases rules.p4Filter opts <;> simp [hname]

/-- **The metadata walk reaches** what the indexing walk reaches with no entry on the way dropped
by a filter. -/
theorem walkMetadata_reaches (rules : WalkRules) (opts : WalkOptions) (hpath : path ≠ [])
    (hkeys : ∀ dir ∈ parents path, indexKey dir = some dir) :
    (walkMetadataTraversal rules opts).Reaches [] path false ↔
      (walkDirTraversal rules opts true).Reaches [] path false ∧
        ∀ e ∈ entries path false, rules.drops opts e.1 e.2 = false := by
  rw [Traversal.reaches_iff _ _ hpath, Traversal.reaches_iff _ _ hpath]
  simp only [nil_append]
  have hdescends : (∀ dir ∈ parents path, (walkMetadataTraversal rules opts).descends dir = true) ↔
      ∀ dir ∈ parents path, (walkDirTraversal rules opts true).descends dir = true := by
    refine forall_congr' fun dir => imp_congr_right fun hdir => ?_
    simp [walkMetadataTraversal, walkDirTraversal, hkeys dir hdir]
  rw [hdescends, and_right_comm, ← forall₂_and]
  refine and_congr_left fun hdirs => forall₂_congr fun e he => ?_
  have hskip : (e.2 && rules.shouldSkipDir opts e.1) = false := by
    rcases mem_entries.1 he with rfl | ⟨hmem, -, -⟩
    · rfl
    · have := hdirs e.1 hmem
      simp only [walkDirTraversal, Bool.not_eq_true'] at this
      simp [this]
  simp only [walkMetadataTraversal, walkDirTraversal, walkMetadataFilter_eq, hskip, Bool.not_true,
    Bool.not_false, Bool.and_true, Bool.and_eq_true, Bool.not_eq_true']
  tauto

/-- A file that the indexing walk visits. -/
lemma mem_walkDir_visited {size : ℕ} :
    (path, size) ∈ ((traverse (walkDirTraversal rules opts hidden) [] tree).filterMap fun e =>
        e.size.map fun size => (e.path, size)) ↔
      Node.At tree path (.file size) ∧
        (walkDirTraversal rules opts hidden).Reaches [] path false := by
  rw [← mem_traverse_file, mem_filterMap]
  constructor
  · rintro ⟨⟨path', size'⟩, hmem, heq⟩
    obtain ⟨size'', hsize, hpair⟩ := Option.map_eq_some_iff.1 heq
    cases hpair
    rw [← hsize]
    exact hmem
  · exact fun h => ⟨_, h, rfl⟩

/-- What the indexing walk lists. -/
lemma mem_walkDir_listedFiles : path ∈ (walkDir rules opts hidden tree).listedFiles ↔
      (∃ size, Node.At tree path (.file size) ∧ exceedsSizeLimit opts.maxFileSize size = false) ∧
        (walkDirTraversal rules opts hidden).Reaches [] path false := by
  simp only [walkDir, mem_map, mem_filter, Prod.exists, mem_walkDir_visited]
  constructor
  · rintro ⟨path, size, ⟨⟨hat, hreaches⟩, hsize⟩, rfl⟩
    exact ⟨⟨size, hat, by simpa using hsize⟩, hreaches⟩
  · rintro ⟨⟨size, hat, hsize⟩, hreaches⟩
    exact ⟨path, size, ⟨⟨hat, hreaches⟩, by simpa using hsize⟩, rfl⟩

/-- What the indexing walk indexes: what it lists without a binary extension. -/
lemma mem_walkDir_files : path ∈ (walkDir rules opts hidden tree).files ↔
      isBinaryExtension path = false ∧ path ∈ (walkDir rules opts hidden tree).listedFiles := by
  simp only [walkDir, mem_map, mem_filter, Prod.exists]
  constructor
  · rintro ⟨path, size, ⟨hmem, hkeep⟩, rfl⟩
    rw [Bool.and_eq_true, Bool.not_eq_true'] at hkeep
    exact ⟨hkeep.1, path, size, ⟨hmem, hkeep.2⟩, rfl⟩
  · rintro ⟨hbinary, path, size, ⟨hmem, hkeep⟩, rfl⟩
    exact ⟨path, size, ⟨hmem, by rw [hbinary, hkeep]; rfl⟩, rfl⟩

/-- A file that the metadata walk visits, if names have keys. -/
lemma mem_walkMetadata_visited (hnames : Representable tree) {size : ℕ} :
    (path, size) ∈ ((traverse (walkMetadataTraversal rules opts) [] tree).filterMap fun e =>
        e.size.bind fun size => (indexKey e.path).map fun key => (key, size)) ↔
      Node.At tree path (.file size) ∧
        (walkMetadataTraversal rules opts).Reaches [] path false := by
  rw [← mem_traverse_file, mem_filterMap]
  constructor
  · rintro ⟨⟨path', size'⟩, hmem, heq⟩
    obtain ⟨size'', hsize, hkey⟩ := Option.bind_eq_some_iff.1 heq
    obtain rfl : size' = some size'' := hsize
    rw [hnames _ _ (mem_traverse_file.1 hmem).1] at hkey
    cases hkey
    exact hmem
  · intro h
    refine ⟨_, h, ?_⟩
    simp [hnames _ _ (mem_traverse_file.1 h).1]

/-- What the metadata walk lists. -/
lemma mem_walkMetadata_listedFiles (hnames : Representable tree) :
    path ∈ (walkMetadata rules opts tree).listedFiles ↔
      (∃ size, Node.At tree path (.file size) ∧ exceedsSizeLimit opts.maxFileSize size = false) ∧
        (walkMetadataTraversal rules opts).Reaches [] path false := by
  simp only [walkMetadata, mem_map, mem_filter, Prod.exists,
    mem_walkMetadata_visited hnames, ite_self]
  constructor
  · rintro ⟨path, size, ⟨⟨hat, hreaches⟩, hsize⟩, rfl⟩
    exact ⟨⟨size, hat, by simpa using hsize⟩, hreaches⟩
  · rintro ⟨⟨size, hat, hsize⟩, hreaches⟩
    exact ⟨path, size, ⟨⟨hat, hreaches⟩, by simpa using hsize⟩, rfl⟩

/-- What the metadata walk takes for indexed: what it lists without a binary extension. -/
lemma mem_walkMetadata_files : path ∈ (walkMetadata rules opts tree).files ↔
      isBinaryExtension path = false ∧ path ∈ (walkMetadata rules opts tree).listedFiles := by
  simp only [walkMetadata, mem_map, mem_filter, Prod.exists, ite_self]
  constructor
  · rintro ⟨path, size, ⟨hmem, hkeep⟩, rfl⟩
    rw [Bool.not_eq_true', Bool.or_eq_false_iff] at hkeep
    exact ⟨hkeep.1, path, size, ⟨hmem, by rw [hkeep.2]; rfl⟩, rfl⟩
  · rintro ⟨hbinary, path, size, ⟨hmem, hkeep⟩, rfl⟩
    rw [Bool.not_eq_true'] at hkeep
    exact ⟨path, size, ⟨hmem, by rw [hbinary, hkeep]; rfl⟩, rfl⟩

/-! ### Where the walks agree -/

/-- A file within the size limit that a filter would drop, itself or with a directory on the way,
and that the indexing walk admits because what is dropped is named `.gitignore`: the walker's own
rules and the excluded paths and names let it through, and no other entry on the way is dropped. -/
structure ExemptFile (rules : WalkRules) (opts : WalkOptions) (tree : Node) (path : Path) :
    Prop where
  /-- It is a file within the size limit. -/
  file : ∃ size, Node.At tree path (.file size) ∧ exceedsSizeLimit opts.maxFileSize size = false
  /-- No directory on the way is left out by name. -/
  dirs : ∀ dir ∈ parents path, rules.shouldSkipDir opts dir = false
  /-- The walker's own rules and the excluded paths admit every entry on the way. -/
  admitted : ∀ e ∈ entries path false, rules.shouldSkipEntry false e.1 e.2 = false ∧
    rules.excludedPath opts e.1 = false
  /-- What a filter drops is named `.gitignore`. -/
  exempt : ∀ e ∈ entries path false, rules.drops opts e.1 e.2 = true →
    rules.fileName e.1 = some ".gitignore"
  /-- A filter drops something. -/
  dropped : ∃ e ∈ entries path false, rules.drops opts e.1 e.2 = true

/-- What the indexing walk reaches, entry by entry. -/
lemma walkDir_reaches_iff (rules : WalkRules) (opts : WalkOptions) (hpath : path ≠ []) :
    (walkDirTraversal rules opts true).Reaches [] path false ↔
      (∀ dir ∈ parents path, rules.shouldSkipDir opts dir = false) ∧
      (∀ e ∈ entries path false, rules.shouldSkipEntry false e.1 e.2 = false ∧
        rules.excludedPath opts e.1 = false) ∧
      ∀ e ∈ entries path false, rules.drops opts e.1 e.2 = true →
        rules.fileName e.1 = some ".gitignore" := by
  rw [Traversal.reaches_iff _ _ hpath, and_comm, ← forall₂_and]
  simp only [nil_append]
  refine and_congr (forall₂_congr fun dir _ => by simp [walkDirTraversal])
    (forall₂_congr fun e _ => ?_)
  simp only [walkDirTraversal, walkDirFilter_eq, Bool.not_true, Bool.and_eq_true,
    Bool.not_eq_true', Bool.or_eq_true, decide_eq_true_eq]
  cases rules.drops opts e.1 e.2 <;> simp [and_assoc]

/-- **The walks admit the same files** exactly if no file is exempt only by being named, or being
in a directory named, `.gitignore`.

**Proof sketch.** The metadata walk reaches what the indexing walk reaches with no entry dropped
(`walkMetadata_reaches`), and both list by size and index by extension alike. A file that the
indexing walk reaches past a dropped entry is an exempt file. -/
theorem walks_agree_iff (rules : WalkRules) (opts : WalkOptions) (children : Forest)
    (hnames : Representable (.dir children)) :
    ((∀ path, path ∈ (walkDir rules opts true (.dir children)).files ↔
        path ∈ (walkMetadata rules opts (.dir children)).files) ∧
      ∀ path, path ∈ (walkDir rules opts true (.dir children)).listedFiles ↔
        path ∈ (walkMetadata rules opts (.dir children)).listedFiles) ↔
      ∀ path, ¬ ExemptFile rules opts (.dir children) path := by
  have hreaches : ∀ {path size}, Node.At (.dir children) path (.file size) →
      ((walkMetadataTraversal rules opts).Reaches [] path false ↔
        (walkDirTraversal rules opts true).Reaches [] path false ∧
          ∀ e ∈ entries path false, rules.drops opts e.1 e.2 = false) := by
    intro path size hat
    exact walkMetadata_reaches rules opts hat.ne_nil_of_file fun dir hdir =>
      indexKey_of_prefix (Cascade.mem_parents.1 hdir).1 (hnames _ _ hat)
  constructor
  · rintro ⟨-, hlisted⟩ path hexempt
    obtain ⟨size, hat, hsize⟩ := hexempt.file
    have hdir : path ∈ (walkDir rules opts true (.dir children)).listedFiles :=
      mem_walkDir_listedFiles.2 ⟨hexempt.file, (walkDir_reaches_iff rules opts
        hat.ne_nil_of_file).2 ⟨hexempt.dirs, hexempt.admitted, hexempt.exempt⟩⟩
    have hmeta := ((mem_walkMetadata_listedFiles hnames).1 ((hlisted path).1 hdir)).2
    obtain ⟨e, he, hdropped⟩ := hexempt.dropped
    rw [((hreaches hat).1 hmeta).2 e he] at hdropped
    cases hdropped
  · intro hnone
    have hlisted : ∀ path, path ∈ (walkDir rules opts true (.dir children)).listedFiles ↔
        path ∈ (walkMetadata rules opts (.dir children)).listedFiles := by
      intro path
      rw [mem_walkDir_listedFiles, mem_walkMetadata_listedFiles hnames]
      refine and_congr_right fun hfile => ?_
      obtain ⟨size, hat, hsize⟩ := hfile
      rw [hreaches hat]
      refine ⟨fun hdir => ⟨hdir, ?_⟩, fun h => h.1⟩
      by_contra hkept
      obtain ⟨hdirs, hadmitted, hexempt⟩ :=
        (walkDir_reaches_iff rules opts hat.ne_nil_of_file).1 hdir
      refine hnone path ⟨⟨size, hat, hsize⟩, hdirs, hadmitted, hexempt, ?_⟩
      by_contra hnodrop
      exact hkept fun e he => by_contra fun hdrops => hnodrop ⟨e, he, by simpa using hdrops⟩
    exact ⟨fun path => by rw [mem_walkDir_files, mem_walkMetadata_files, hlisted path], hlisted⟩

/-- Rules of a root whose `p4ignore.ini` holds the rule `.gitignore`. -/
def p4GitignoreRules : WalkRules where
  root := ["repo"]
  matched _ _ := none
  hidden _ := false
  ignorecase := none
  p4ignore := ⟨false, fun path _ => if path.getLast? = some ".gitignore" then some true else none⟩
  reincludePrefixes := []

/-- Settings that leave nothing else out. -/
def plainOptions : WalkOptions where
  noIgnore := false
  maxFileSize := none
  excludeDirs := []
  excludePaths := []

/-- A root that holds a `.gitignore` file. -/
def gitignoreOnly : Forest := .cons ".gitignore" (.file 6) .nil

/-- The names of the tree have keys. -/
lemma representable_gitignoreOnly : Representable (.dir gitignoreOnly) := by
  intro path node hat
  cases hat with
  | root => rfl
  | inside hat =>
    cases hat with
    | head hat =>
      cases hat
      decide
    | tail hat => cases hat

/-- **The walks differ** on a `.gitignore` file that a `p4ignore.ini` rule drops: the indexing walk
admits it, the metadata walk does not. -/
theorem not_walks_agree :
    ¬ ∀ (rules : WalkRules) (opts : WalkOptions) (children : Forest),
      Representable (.dir children) →
      (∀ path, path ∈ (walkDir rules opts true (.dir children)).files ↔
        path ∈ (walkMetadata rules opts (.dir children)).files) ∧
      ∀ path, path ∈ (walkDir rules opts true (.dir children)).listedFiles ↔
        path ∈ (walkMetadata rules opts (.dir children)).listedFiles := by
  intro h
  have hfiles := (h p4GitignoreRules plainOptions gitignoreOnly representable_gitignoreOnly).1
    [".gitignore"]
  have hdir : [".gitignore"] ∈
      (walkDir p4GitignoreRules plainOptions true (.dir gitignoreOnly)).files := by decide
  have hmeta : [".gitignore"] ∉
      (walkMetadata p4GitignoreRules plainOptions (.dir gitignoreOnly)).files := by decide
  exact hmeta (hfiles.1 hdir)

/-- The condition at the root that holds a `.gitignore` file. -/
theorem walks_agree_iff_gitignoreOnly :
    ((∀ path, path ∈ (walkDir p4GitignoreRules plainOptions true (.dir gitignoreOnly)).files ↔
        path ∈ (walkMetadata p4GitignoreRules plainOptions (.dir gitignoreOnly)).files) ∧
      ∀ path, path ∈ (walkDir p4GitignoreRules plainOptions true (.dir gitignoreOnly)).listedFiles ↔
        path ∈ (walkMetadata p4GitignoreRules plainOptions (.dir gitignoreOnly)).listedFiles) ↔
      ∀ path, ¬ ExemptFile p4GitignoreRules plainOptions (.dir gitignoreOnly) path :=
  walks_agree_iff p4GitignoreRules plainOptions gitignoreOnly representable_gitignoreOnly

end Walk

end Tgrep
