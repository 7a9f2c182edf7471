import Tgrep.Data.Ascending
import Tgrep.Data.Search
import Tgrep.FileTable

/-!
# The index reader

Read-only access to the files of an index: binary search in the lookup table for a trigram, its
postings, and the file table ordered by path.

## Main definitions

* `IndexReader`: an opened index.
* `IndexReader.openImpl`, `IndexReader.openReader`: open the files of an index, and open them for
  queries, which validates the lookup table.
* `IndexReader.lookupTrigramWithMasks`: the postings of a trigram.
* `IndexReader.nthTrigramRaw`: the raw posting bytes of a lookup entry.
* `IndexReader.fileIdsWithPrefix`, `IndexReader.hasDescendantPath`, `IndexReader.containsPath` —
  searches in path order.

## Main results

* `readFileTable_ok`: the paths of a file table that is read are storable, and each has a 32-bit
  id.

## Implementation notes

The fields of an opened reader that its constructor establishes carry their proofs. Sizes are
those of a 64-bit target. The permit checks of the controlled variants are left out, and so are
the identity of the file table and the handles that keep a managed object alive.
-/

namespace Tgrep

open List Option

/-- The order of file ids by path. -/
def orderByPath (filePaths : List String) : List ℕ :=
  Ascending.sortByKey (fun id => pathBytes (filePaths.getD id "")) (List.range filePaths.length)

/-- An opened index: the mapped lookup table and postings, which are absent together, and the
file table. -/
structure IndexReader where
  /-- The bytes of `lookup.bin`. -/
  lookup : Option (List UInt8)
  /-- The bytes of `index.bin`. -/
  postings : Option (List UInt8)
  /-- The path of each file. -/
  filePaths : List String
  /-- File ids sorted by path. -/
  pathOrder : List ℕ
  /-- The number of lookup entries. -/
  numEntries : ℕ
  /-- The lookup table consists of that many entries. -/
  lookup_length : (lookup.getD []).length = numEntries * LOOKUP_ENTRY_SIZE
  /-- The lookup table and the postings are absent together. -/
  sections : lookup.isSome = postings.isSome
  path_order : pathOrder = orderByPath filePaths
  /-- Paths come from a file table. -/
  storable : ∀ path ∈ filePaths, Storable path
  /-- Every file has a 32-bit id. -/
  files_le : filePaths.length ≤ 2 ^ 32

namespace IndexReader

/-! ## Lookups -/

/-- Decode the lookup entry at an index. -/
def readLookupEntry (r : IndexReader) (index : ℕ) : LookupEntry :=
  lookupCodec.nth (r.lookup.getD []) index

/-- Binary search the lookup table for a trigram. -/
def binarySearch (r : IndexReader) (trigram : UInt32) : Option ℕ :=
  Search.binarySearch (fun i => (r.readLookupEntry i).trigram) trigram 0 r.numEntries

/-- Decode the postings that a lookup entry points at, as far as they lie within `index.bin`. -/
def readPostingEntries (r : IndexReader) (offset : UInt64) (length : UInt32) :
    List PostingEntry :=
  match r.postings with
  | none => []
  | some postings =>
    let start := offset.toNat
    if postings.length < start then []
    else
      let remaining := postings.length - start
      let count := min length.toNat (remaining / POSTING_ENTRY_SIZE)
      (List.range count).map fun i =>
        PostingEntry.decode
          ((postings.drop (start + i * POSTING_ENTRY_SIZE)).take POSTING_ENTRY_SIZE)

/-- The postings of a trigram, with their masks. -/
def lookupTrigramWithMasks (r : IndexReader) (trigram : UInt32) : List PostingEntry :=
  if r.lookup.isNone then []
  else
    match r.binarySearch trigram with
    | some i =>
      let entry := r.readLookupEntry i
      r.readPostingEntries entry.offset entry.length
    | none => []

/-- The trigram of a lookup entry with its raw posting bytes, if they lie within `index.bin`. -/
def nthTrigramRaw (r : IndexReader) (i : ℕ) : Option (UInt32 × List UInt8) :=
  if i ≥ r.numEntries then none
  else
    let entry := r.readLookupEntry i
    match r.postings with
    | none => none
    | some postings =>
      let start := entry.offset.toNat
      let stop := start + entry.length.toNat * POSTING_ENTRY_SIZE
      -- `stop` is computed in `u64`; the multiplication cannot overflow it
      if 2 ^ 64 ≤ stop then none
      else if start > postings.length ∨ stop > postings.length then none
      else some (entry.trigram, (postings.drop start).take (stop - start))

/-- The trigram of a lookup entry with its postings. -/
def trigramPostingAt (r : IndexReader) (i : ℕ) : UInt32 × List PostingEntry :=
  let entry := r.readLookupEntry i
  (entry.trigram, r.readPostingEntries entry.offset entry.length)

/-- The number of trigrams. -/
def numTrigrams (r : IndexReader) : ℕ := r.numEntries

/-! ## Files -/

/-- The number of files. -/
def numFiles (r : IndexReader) : ℕ := r.filePaths.length

/-- The path of a file. -/
def filePath (r : IndexReader) (fileId : UInt32) : Option String := r.filePaths[fileId.toNat]?

/-- All file ids. -/
def allFileIds (r : IndexReader) : List UInt32 :=
  (List.range (UInt32.ofNat r.filePaths.length).toNat).map UInt32.ofNat

/-- The bytes of the path of a file, by which the path order is sorted. -/
def bytesAt (r : IndexReader) (id : ℕ) : List UInt8 := pathBytes (r.filePaths.getD id "")

/-- Whether a path is in the file table. -/
def containsPath (r : IndexReader) (path : String) : Bool :=
  (Search.binarySearch (fun i => r.bytesAt (r.pathOrder.getD i 0)) (pathBytes path) 0
    r.pathOrder.length).isSome

/-- The ids of the files whose paths start with a prefix, in path order. -/
def fileIdsWithPrefix (r : IndexReader) (pathPrefix : String) : List UInt32 :=
  ((r.pathOrder.drop (Search.lowerBound r.bytesAt (pathBytes pathPrefix) r.pathOrder)).takeWhile
    fun id => (pathBytes pathPrefix).isPrefixOf (r.bytesAt id)).map UInt32.ofNat

/-- Whether a path is strictly below a directory. -/
def hasDescendantPath (r : IndexReader) (directory : String) : Bool :=
  if directory = "" then !r.pathOrder.isEmpty
  else
    let pathPrefix := pathBytes directory ++ [0x2F]
    r.pathOrder[Search.lowerBound r.bytesAt pathPrefix r.pathOrder]?.any fun id =>
      pathPrefix.isPrefixOf (r.bytesAt id)

/-! ## Validation -/

/-- The check of one lookup entry: its trigram is above the previous one, and its postings lie
within `index.bin`. -/
def validateLookupEntry (r : IndexReader) (i : ℕ) (prev : Option UInt32) : Except Error Unit :=
  let entry := r.readLookupEntry i
  let trigram := entry.trigram
  let offset := entry.offset
  let length := entry.length
  let postingsLen := (r.postings.getD []).length
  let stop := offset.toNat + length.toNat * POSTING_ENTRY_SIZE
  if (prev.any fun prev => trigram ≤ prev) = true then
    let prev := prev.getD 0
    .error (.indexCorrupted
      s!"lookup.bin not sorted at entry {i}: trigram {trigram} <= prev {prev}")
  else if stop < 2 ^ 64 ∧ stop ≤ postingsLen then .ok ()
  else
    .error (.indexCorrupted
      s!"lookup entry {i} (trigram {trigram}): posting range [offset={offset}, length={length}] exceeds index.bin length {postingsLen}")

/-- The checks of the lookup entries from `i` on. -/
def validateLookupFrom (r : IndexReader) (i : ℕ) (prev : Option UInt32) : Except Error Unit :=
  if i < r.numEntries then
    match r.validateLookupEntry i prev with
    | .error e => .error e
    | .ok () => r.validateLookupFrom (i + 1) (some (r.readLookupEntry i).trigram)
  else .ok ()
termination_by r.numEntries - i

/-- Validate that the lookup table is sorted and that all postings lie within `index.bin`. -/
def validateLookup (r : IndexReader) : Except Error Unit :=
  match r.lookup with
  | none => .ok ()
  | some _ => r.validateLookupFrom 0 none

/-- The reader's sections disagree with its counters. -/
def isDegenerate (r : IndexReader) : Bool :=
  r.numEntries == 0 &&
    (r.lookup.any (fun m => !m.isEmpty) || r.postings.any (fun m => !m.isEmpty))

end IndexReader

/-! ## Opening -/

/-- The files of an index. -/
structure IndexFiles where
  /-- `lookup.bin`. -/
  lookup : List UInt8
  /-- `index.bin`. -/
  index : List UInt8
  /-- `files.bin`. -/
  files : List UInt8
  deriving DecidableEq

/-- Check that file ids are dense and distinct; `seen` are the ids before. -/
def checkDense (n : ℕ) : List (UInt32 × String) → List ℕ → Except Error Unit
  | [], _ => .ok ()
  | (id, _) :: entries, seen =>
    if id.toNat ≥ n then
      .error (.indexCorrupted
        s!"files.bin contains out-of-range file_id {id} (entry count = {n}); IDs must be dense in 0..{n}")
    else if id.toNat ∈ seen then
      .error (.indexCorrupted s!"files.bin contains duplicate file_id {id}")
    else checkDense n entries (id.toNat :: seen)

/-- Put every path at the place of its id. -/
def fillFilePaths (entries : List (UInt32 × String)) : List String :=
  entries.foldl (fun paths entry => paths.set entry.1.toNat entry.2)
    (List.replicate entries.length "")

/-- Read the paths of a file table. -/
def readFileTable (data : List UInt8) : Except Error (List String) :=
  match fileTableBody data with
  | .error e => .error e
  | .ok body =>
    match decodeFileEntries body with
    | .error e => .error e
    | .ok entries =>
      match checkDense entries.length entries [] with
      | .error e => .error e
      | .ok () => .ok (fillFilePaths entries)

variable {entries : List (UInt32 × String)}

/-- Decoded paths are storable. -/
lemma decodeFileEntries_storable {data : List UInt8} (h : decodeFileEntries data = .ok entries) :
    ∀ e ∈ entries, Storable e.2 := by
  fun_induction decodeFileEntries data generalizing entries with
  | case1 =>
    cases h
    simp
  | case5 data hne hsix fileId pathLen rest hroom path hpath hvalid more hmore =>
    rename_i ih
    cases h
    refine forall_mem_cons.mpr ⟨⟨hvalid, ?_⟩, ih hmore⟩
    have hbytes := congrArg length (pathBytes_of_pathOfBytes? hpath)
    have hlen := LittleEndian.ofLE_lt ((data.drop 4).take 2)
    have htwo : ((data.drop 4).take 2).length = 2 := by
      simp only [length_take, length_drop]
      omega
    rw [htwo] at hlen
    rw [hbytes, length_take, MAX_PATH_LEN]
    omega
  | _ => cases h

/-- The dense check accepts only entries with distinct ids below the bound, none of them seen
before. -/
lemma checkDense_ok {n : ℕ} {seen : List ℕ} (h : checkDense n entries seen = .ok ()) :
    (∀ e ∈ entries, e.1.toNat < n ∧ e.1.toNat ∉ seen) ∧
      (entries.map fun e => e.1.toNat).Nodup := by
  induction entries generalizing seen with
  | nil => simp
  | cons e entries ih =>
    obtain ⟨id, path⟩ := e
    rw [checkDense] at h
    split_ifs at h with hn hseen
    obtain ⟨hall, hnodup⟩ := ih h
    refine ⟨forall_mem_cons.mpr ⟨⟨not_le.mp hn, hseen⟩, fun e he => ?_⟩, ?_⟩
    · obtain ⟨h1, h2⟩ := hall e he
      exact ⟨h1, fun hmem => h2 (mem_cons_of_mem _ hmem)⟩
    · rw [map_cons, nodup_cons]
      refine ⟨fun hmem => ?_, hnodup⟩
      obtain ⟨e, he, heq⟩ := mem_map.mp hmem
      exact (hall e he).2 (heq ▸ mem_cons_self ..)

/-- Distinct ids below their number are all the numbers below it. -/
lemma perm_range_of_nodup {ids : List ℕ} (hnodup : ids.Nodup)
    (hlt : ∀ i ∈ ids, i < ids.length) : ids.Perm (List.range ids.length) := by
  refine List.Perm.symm ((subperm_of_subset hnodup fun i hi => ?_).perm_of_length_le ?_).symm
  · exact mem_range.mpr (hlt i hi)
  · rw [length_range]

/-- Filling in paths one by one leaves the last path written at each place. -/
lemma getElem?_foldl_set {paths : List String} {i : ℕ}
    (hnodup : (entries.map fun e => e.1.toNat).Nodup) :
    (entries.foldl (fun paths entry => paths.set entry.1.toNat entry.2) paths)[i]? =
      if i < paths.length then
        some (((entries.find? fun e => e.1.toNat == i).map Prod.snd).getD (paths.getD i ""))
      else none := by
  induction entries generalizing paths with
  | nil =>
    simp only [foldl_nil, find?_nil, map_none, getD_none]
    split_ifs with h
    · rw [getD_eq_getElem?_getD, getElem?_eq_getElem h, getD_some]
    · exact getElem?_eq_none (not_lt.mp h)
  | cons e entries ih =>
    rw [map_cons, nodup_cons] at hnodup
    obtain ⟨hnew, hnodup⟩ := hnodup
    rw [foldl_cons, ih hnodup, length_set]
    split_ifs with hlt
    · congr 1
      by_cases he : e.1.toNat = i
      · have hnone : entries.find? (fun e => e.1.toNat == i) = none := by
          rw [find?_eq_none]
          intro e' he' heq
          exact hnew (mem_map.mpr ⟨e', he', by rw [he]; simpa using heq⟩)
        rw [hnone, find?_cons_of_pos (by simpa using he)]
        simp [getD_eq_getElem?_getD, he, hlt]
      · rw [find?_cons_of_neg (by simpa using he)]
        congr 1
        simp [getD_eq_getElem?_getD, getElem?_set_ne he]
    · rfl

/-- With dense distinct ids, the filled file table has every path at the place of its id. -/
lemma getElem?_fillFilePaths (hnodup : (entries.map fun e => e.1.toNat).Nodup)
    {e : UInt32 × String} (he : e ∈ entries) (hlt : e.1.toNat < entries.length) :
    (fillFilePaths entries)[e.1.toNat]? = some e.2 := by
  rw [fillFilePaths, getElem?_foldl_set hnodup, length_replicate, if_pos hlt]
  have hfind : entries.find? (fun e' => e'.1.toNat == e.1.toNat) = some e := by
    have hsome : (entries.find? fun e' => e'.1.toNat == e.1.toNat).isSome :=
      find?_isSome.mpr ⟨e, he, by simp⟩
    obtain ⟨e', he'⟩ := Option.isSome_iff_exists.mp hsome
    have hmem := mem_of_find?_eq_some he'
    have hkey : e'.1.toNat = e.1.toNat := by simpa using find?_some he'
    rw [he', inj_on_of_nodup_map hnodup hmem he hkey]
  rw [hfind, map_some, getD_some]

/-- The filled file table has one path per entry. -/
lemma length_fillFilePaths (entries : List (UInt32 × String)) :
    (fillFilePaths entries).length = entries.length := by
  have hfold : ∀ (entries : List (UInt32 × String)) (paths : List String),
      (entries.foldl (fun paths entry => paths.set entry.1.toNat entry.2) paths).length =
        paths.length := by
    intro entries
    induction entries with
    | nil => exact fun _ => rfl
    | cons e entries ih =>
      intro paths
      rw [foldl_cons, ih, length_set]
  rw [fillFilePaths, hfold, length_replicate]

/-- **The paths of a file table that is read are storable, and each has a 32-bit id.**

**Proof sketch.** The ids of the entries are distinct and below their number, so they are all the
numbers below it, and every place of the table is filled with a decoded path. -/
theorem readFileTable_ok {data : List UInt8} {paths : List String}
    (h : readFileTable data = .ok paths) :
    (∀ path ∈ paths, Storable path) ∧ paths.length ≤ 2 ^ 32 := by
  rw [readFileTable] at h
  split at h
  · cases h
  · split at h
    · cases h
    · next entries hentries =>
      split at h
      · cases h
      · next hdense =>
        cases h
        obtain ⟨hlt, hnodup⟩ := checkDense_ok hdense
        have hperm := perm_range_of_nodup hnodup fun i hi => by
          obtain ⟨e, he, rfl⟩ := List.mem_map.mp hi
          rw [length_map]
          exact (hlt e he).1
        rw [length_map] at hperm
        refine ⟨fun path hpath => ?_, ?_⟩
        · obtain ⟨i, hi, rfl⟩ := getElem_of_mem hpath
          have hi' : i < entries.length := by rwa [length_fillFilePaths] at hi
          obtain ⟨e, he, rfl⟩ := List.mem_map.mp (hperm.mem_iff.mpr (List.mem_range.mpr hi'))
          have hget := getElem?_fillFilePaths hnodup he hi'
          rw [getElem?_eq_getElem hi, some.injEq] at hget
          rw [hget]
          exact decodeFileEntries_storable hentries e he
        · rw [length_fillFilePaths]
          by_contra hgt
          obtain ⟨e, -, he⟩ := List.mem_map.mp
            (hperm.mem_iff.mpr (List.mem_range.mpr (not_le.mp hgt)))
          exact absurd e.1.toNat_lt (by omega)

/-- The lookup table, the postings and the number of lookup entries: nothing is mapped if either
file is empty. -/
def openSections (lookup postings : List UInt8) :
    Except Error (Option (List UInt8) × Option (List UInt8) × ℕ) :=
  if lookup.length = 0 ∨ postings.length = 0 then .ok (none, none, 0)
  else if lookup.length % LOOKUP_ENTRY_SIZE ≠ 0 then
    let lookupLen := lookup.length
    .error (.indexCorrupted
      s!"lookup.bin size {lookupLen} is not a multiple of {LOOKUP_ENTRY_SIZE}")
  else .ok (some lookup, some postings, lookup.length / LOOKUP_ENTRY_SIZE)

/-- Sections that are opened agree with the number of lookup entries. -/
lemma openSections_ok {lookup postings : List UInt8}
    {s : Option (List UInt8) × Option (List UInt8) × ℕ} (h : openSections lookup postings = .ok s) :
    (s.1.getD []).length = s.2.2 * LOOKUP_ENTRY_SIZE ∧ s.1.isSome = s.2.1.isSome := by
  rw [openSections] at h
  split_ifs at h with hempty hmod
  · cases h
    simp
  · cases h
    refine ⟨?_, rfl⟩
    have := Nat.div_add_mod lookup.length LOOKUP_ENTRY_SIZE
    rw [not_ne_iff.mp hmod, add_zero, Nat.mul_comm] at this
    exact this.symm

namespace IndexReader

/-- Open the files of an index. -/
def openImpl (f : IndexFiles) : Except Error IndexReader :=
  match hs : openSections f.lookup f.index with
  | .error e => .error e
  | .ok s =>
    match hp : readFileTable f.files with
    | .error e => .error e
    | .ok filePaths =>
      .ok
        { lookup := s.1
          postings := s.2.1
          filePaths
          pathOrder := orderByPath filePaths
          numEntries := s.2.2
          lookup_length := (openSections_ok hs).1
          sections := (openSections_ok hs).2
          path_order := rfl
          storable := (readFileTable_ok hp).1
          files_le := (readFileTable_ok hp).2 }

/-- Open an index for queries: the lookup table must be sorted and within bounds. -/
def openReader (f : IndexFiles) : Except Error IndexReader :=
  match openImpl f with
  | .error e => .error e
  | .ok reader =>
    if reader.isDegenerate then
      .error (.indexCorrupted
        "degenerate reader: mmap sections non-empty but num_entries is 0")
    else
      match reader.validateLookup with
      | .error e => .error e
      | .ok () => .ok reader

/-- An empty reader that returns no results. -/
def empty : IndexReader where
  lookup := none
  postings := none
  filePaths := []
  pathOrder := []
  numEntries := 0
  lookup_length := rfl
  sections := rfl
  path_order := rfl
  storable := by simp
  files_le := Nat.zero_le _

end IndexReader

end Tgrep
