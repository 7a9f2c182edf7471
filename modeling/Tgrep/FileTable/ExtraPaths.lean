import Tgrep.FileTable

/-!
# The extra path table

`files-extra.bin` lists the paths that a walk admits and the content index does not have: a magic
number, the number of paths, for one of the two magic numbers a block with the visibility of the
paths, and the paths, each behind its length. The visibility is a JSON text behind its length.

## Main definitions

* `ExtraPaths.writePaths`: the file of a list of paths.
* `ExtraPaths.readFilenameIndex`: what a file has.
* `ExtraPaths.pathRecord`, `ExtraPaths.pathRecords`: the paths, each behind its length.
* `ExtraPaths.Block`: the visibility blocks that are read.

## Main results

* `ExtraPaths.readFilenameIndex_eq_ok_iff`: what is read are the blocks and the records of valid
  paths, and no more.
* `ExtraPaths.readFilenameIndex_exact`: what is written is read back iff its paths are valid, and
  what is read is what is written for it, but for the JSON text.

## Implementation notes

The type of the visibility and its JSON conversion are parameters. The writer does not look at the
paths beyond their lengths; the reader validates them.
-/

namespace Tgrep

open LittleEndian List

/-- The JSON conversion of a type. -/
structure JsonCodec (V : Type) where
  /-- The text of a value, unless it has none. -/
  toVec : V → Except String (List UInt8)
  /-- The value of a text, unless it has none. -/
  fromSlice : List UInt8 → Except String V

/-- Every text that is written is read back. -/
def JsonCodec.RoundTrips {V : Type} (json : JsonCodec V) : Prop :=
  ∀ v text, json.toVec v = .ok text → json.fromSlice text = .ok v

namespace ExtraPaths

/-- The errors of the table. -/
inductive Error
  | json (detail : String)
  | indexCorrupted (detail : String)
  deriving DecidableEq

/-- The name of the file. -/
def EXTRA_PATHS_FILENAME : String := "files-extra.bin"

/-- An error with the name of the file. -/
def corrupted (message : String) : Error := .indexCorrupted s!"{EXTRA_PATHS_FILENAME}: {message}"

/-- The magic number of a table without visibility, `TGRPXP01`. -/
def MAGIC : List UInt8 := [84, 71, 82, 80, 88, 80, 48, 49]

/-- The magic number of a table with visibility, `TGRPXP02`. -/
def VISIBILITY_MAGIC : List UInt8 := [84, 71, 82, 80, 88, 80, 48, 50]

/-- The length of the magic number and the number of paths. -/
def HEADER_LEN : ℕ := MAGIC.length + 8

/-- The length of the length of a path. -/
def PATH_LEN_SIZE : ℕ := 4

/-- The paths of a table, and their visibility. -/
structure FilenameIndex (V : Type) where
  paths : List String
  visibility : Option V
  deriving DecidableEq

variable {V : Type}

/-! ## Writing -/

/-- A path behind its length. -/
def pathRecord (path : String) : List UInt8 := toLE 4 (pathBytes path).length ++ pathBytes path

/-- Paths, one after another. -/
def pathRecords (paths : List String) : List UInt8 := paths.flatMap pathRecord

/-- Write one path, unless its length does not fit. -/
def writePath (path : String) : Except Error (List UInt8) :=
  let len := (pathBytes path).length
  if 2 ^ 32 ≤ len then
    .error (.indexCorrupted s!"path is too long for {EXTRA_PATHS_FILENAME} ({len} bytes)")
  else .ok (pathRecord path)

/-- Write one path after another. -/
def writePathList : List String → Except Error (List UInt8)
  | [] => .ok []
  | path :: paths =>
    match writePath path with
    | .error e => .error e
    | .ok record =>
      match writePathList paths with
      | .error e => .error e
      | .ok records => .ok (record ++ records)

/-- The visibility behind its length, if there is one. -/
def writeVisibility (json : JsonCodec V) : Option V → Except Error (List UInt8)
  | none => .ok []
  | some visibility =>
    match json.toVec visibility with
    | .error e => .error (.json e)
    | .ok data => .ok (toLE 8 data.length ++ data)

/-- The magic number for a visibility. -/
def magicFor (visibility : Option V) : List UInt8 :=
  if visibility.isSome then VISIBILITY_MAGIC else MAGIC

/-- The file of a list of paths. -/
def writePaths (json : JsonCodec V) (paths : List String) (visibility : Option V) :
    Except Error (List UInt8) :=
  match writeVisibility json visibility with
  | .error e => .error e
  | .ok block =>
    match writePathList paths with
    | .error e => .error e
    | .ok records => .ok (magicFor visibility ++ toLE 8 paths.length ++ block ++ records)

/-! ## Reading -/

/-- Read the visibility block, if there is one, and what follows. -/
def readVisibility (json : JsonCodec V) (hasVisibility : Bool) (data : List UInt8) :
    Except Error (Option V × List UInt8) :=
  if hasVisibility then
    if data.length < 8 then .error (corrupted "visibility length is truncated")
    else
      let length := ofLE (data.take 8)
      let rest := data.drop 8
      if rest.length < length then .error (corrupted "visibility exceeds the file bounds")
      else
        match json.fromSlice (rest.take length) with
        | .error e => .error (.json e)
        | .ok visibility => .ok (some visibility, rest.drop length)
  else .ok (none, data)

/-- The error of a path that is not normalized. -/
def invalidPath (index : ℕ) : Error :=
  corrupted s!"path {index}: index path must be a normalized root-relative path"

/-- Read one path, and what follows. -/
def readPath (index : ℕ) (data : List UInt8) : Except Error (String × List UInt8) :=
  if data.length < PATH_LEN_SIZE then .error (corrupted s!"path {index} has a truncated length")
  else
    let len := ofLE (data.take PATH_LEN_SIZE)
    let rest := data.drop PATH_LEN_SIZE
    if rest.length < len then .error (corrupted s!"path {index} exceeds the file bounds")
    else
      match pathOfBytes? (rest.take len) with
      | none => .error (corrupted s!"path {index} is not valid UTF-8")
      | some value =>
        if validateIndexPath value then .ok (value, rest.drop len)
        else .error (invalidPath index)

/-- Read paths, and what follows. -/
def readPathList (index : ℕ) : ℕ → List UInt8 → Except Error (List String × List UInt8)
  | 0, data => .ok ([], data)
  | count + 1, data =>
    match readPath index data with
    | .error e => .error e
    | .ok (path, rest) =>
      match readPathList (index + 1) count rest with
      | .error e => .error e
      | .ok (paths, rest) => .ok (path :: paths, rest)

/-- What follows the header of a file. -/
def readBody (count : ℕ) (visibility : Option V) (rest : List UInt8) :
    Except Error (FilenameIndex V) :=
  let maxRecords := rest.length / PATH_LEN_SIZE
  if maxRecords < count then
    .error (corrupted
      s!"declares {count} paths but the file can contain at most {maxRecords}")
  else
    match readPathList 0 count rest with
    | .error e => .error e
    | .ok (paths, rest) =>
      if rest = [] then .ok ⟨paths, visibility⟩
      else
        let trailing := rest.length
        .error (corrupted s!"{trailing} trailing bytes after the declared path set")

/-- What a file has. -/
def readFilenameIndex (json : JsonCodec V) (data : List UInt8) :
    Except Error (FilenameIndex V) :=
  if data.length < HEADER_LEN then
    let length := data.length
    .error (corrupted s!"header is truncated ({length} bytes, expected at least {HEADER_LEN})")
  else
    let magic := data.take MAGIC.length
    if magic ≠ VISIBILITY_MAGIC ∧ magic ≠ MAGIC then .error (corrupted "invalid header")
    else
      let count := ofLE ((data.drop MAGIC.length).take 8)
      match readVisibility json (magic = VISIBILITY_MAGIC) (data.drop HEADER_LEN) with
      | .error e => .error e
      | .ok (visibility, rest) => readBody count visibility rest

/-! ## Records -/

/-- A path that the table can hold. -/
structure Readable (path : String) : Prop where
  valid : validateIndexPath path = true
  short : (pathBytes path).length < 2 ^ 32

@[simp] lemma pathRecords_nil : pathRecords [] = [] := rfl

@[simp] lemma pathRecords_cons (path : String) (paths : List String) :
    pathRecords (path :: paths) = pathRecord path ++ pathRecords paths := rfl

/-- A record has at least the length of its length. -/
lemma le_length_pathRecord (path : String) : PATH_LEN_SIZE ≤ (pathRecord path).length := by
  rw [pathRecord, length_append, length_toLE]
  exact Nat.le_add_right _ _

/-- Records have at least the lengths of their lengths. -/
lemma le_length_pathRecords (paths : List String) :
    PATH_LEN_SIZE * paths.length ≤ (pathRecords paths).length := by
  induction paths with
  | nil => exact le_rfl
  | cons path paths ih =>
    have := le_length_pathRecord path
    rw [pathRecords_cons, length_append, length_cons, Nat.mul_succ]
    omega

variable {count : ℕ} {paths : List String} {rest data : List UInt8} {json : JsonCodec V}
  {visibility : Option V}

/-- Paths are written iff none is too long for its length field. -/
lemma writePathList_eq_ok_iff {records : List UInt8} :
    writePathList paths = .ok records ↔
      (∀ path ∈ paths, (pathBytes path).length < 2 ^ 32) ∧ records = pathRecords paths := by
  induction paths generalizing records with
  | nil => simp [writePathList, eq_comm]
  | cons path paths ih =>
    rw [writePathList, writePath, forall_mem_cons]
    by_cases hlong : 2 ^ 32 ≤ (pathBytes path).length
    · simp only [hlong, if_true]
      exact ⟨fun h => (nomatch h), fun h => absurd h.1.1 (Nat.not_lt.mpr hlong)⟩
    · simp only [hlong, if_false]
      cases hrest : writePathList paths with
      | error e =>
        refine ⟨fun h => (nomatch h), fun ⟨⟨_, hshort⟩, _⟩ => ?_⟩
        rw [ih.mpr ⟨hshort, rfl⟩] at hrest
        cases hrest
      | ok rest =>
        obtain ⟨hshort, rfl⟩ := ih.mp hrest
        rw [Except.ok.injEq, pathRecords_cons]
        exact ⟨fun h => ⟨⟨Nat.not_le.mp hlong, hshort⟩, h.symm⟩, fun h => h.2.symm⟩

/-- The record of a path that is read, and what follows it. -/
lemma readPath_pathRecord {path : String} (hshort : (pathBytes path).length < 2 ^ 32) (index : ℕ)
    (rest : List UInt8) :
    readPath index (pathRecord path ++ rest) =
      if validateIndexPath path then .ok (path, rest) else .error (invalidPath index) := by
  have hlen : (toLE PATH_LEN_SIZE (pathBytes path).length).length = PATH_LEN_SIZE :=
    length_toLE _ _
  have hfour : ¬ (pathRecord path ++ rest).length < PATH_LEN_SIZE := by
    have := le_length_pathRecord path
    rw [length_append]
    omega
  have htake : (pathRecord path ++ rest).take PATH_LEN_SIZE =
      toLE PATH_LEN_SIZE (pathBytes path).length := by
    rw [pathRecord, append_assoc]
    exact take_left' hlen
  have hdrop : (pathRecord path ++ rest).drop PATH_LEN_SIZE = pathBytes path ++ rest := by
    rw [pathRecord, append_assoc]
    exact drop_left' hlen
  have hnum : ofLE (toLE PATH_LEN_SIZE (pathBytes path).length) = (pathBytes path).length :=
    ofLE_toLE hshort
  have hroom : ¬ (pathBytes path ++ rest).length < (pathBytes path).length := by
    rw [length_append]
    omega
  rw [readPath, if_neg hfour]
  simp only [htake, hdrop, hnum, if_neg hroom, take_left', drop_left', pathOfBytes?_pathBytes]

/-- What is read as a path is the record of a path that the table can hold. -/
lemma readPath_eq_ok_iff {index : ℕ} {path : String} :
    readPath index data = .ok (path, rest) ↔ Readable path ∧ data = pathRecord path ++ rest := by
  constructor
  · intro h
    rw [readPath] at h
    split_ifs at h with hfour
    simp only at h
    split_ifs at h with hroom
    split at h
    · cases h
    · rename_i value hvalue
      split_ifs at h with hvalid
      rw [Except.ok.injEq, Prod.mk.injEq] at h
      obtain ⟨rfl, rfl⟩ := h
      set len := ofLE (data.take PATH_LEN_SIZE) with hlen
      have hbytes := pathBytes_of_pathOfBytes? hvalue
      have htake : (data.take PATH_LEN_SIZE).length = PATH_LEN_SIZE := by
        rw [length_take]
        omega
      have hcount : (pathBytes value).length = len := by
        rw [hbytes, length_take]
        omega
      have hlt : len < 2 ^ 32 := by
        have := ofLE_lt (data.take PATH_LEN_SIZE)
        rwa [htake] at this
      refine ⟨⟨hvalid, hcount ▸ hlt⟩, ?_⟩
      have hhead : toLE 4 (pathBytes value).length = data.take PATH_LEN_SIZE := by
        have := toLE_ofLE (data.take PATH_LEN_SIZE)
        rwa [htake, ← hlen, ← hcount] at this
      rw [pathRecord, hhead, hbytes, append_assoc, take_append_drop, take_append_drop]
  · rintro ⟨hreadable, rfl⟩
    rw [readPath_pathRecord hreadable.short, if_pos hreadable.valid]

/-- What is read as paths are the records of paths that the table can hold. By induction on the
number of paths. -/
lemma readPathList_eq_ok_iff {index : ℕ} :
    readPathList index count data = .ok (paths, rest) ↔
      paths.length = count ∧ (∀ path ∈ paths, Readable path) ∧
        data = pathRecords paths ++ rest := by
  induction count generalizing index data paths with
  | zero =>
    rw [readPathList, Except.ok.injEq, Prod.mk.injEq]
    constructor
    · rintro ⟨rfl, rfl⟩
      exact ⟨rfl, by simp, rfl⟩
    · rintro ⟨hlen, -, hdata⟩
      obtain rfl := eq_nil_of_length_eq_zero hlen
      exact ⟨rfl, hdata⟩
  | succ count ih =>
    rw [readPathList]
    constructor
    · intro h
      split at h
      · cases h
      · rename_i path after hpath
        split at h
        · cases h
        · rename_i more after' hmore
          rw [Except.ok.injEq, Prod.mk.injEq] at h
          obtain ⟨rfl, rfl⟩ := h
          obtain ⟨hreadable, rfl⟩ := readPath_eq_ok_iff.mp hpath
          obtain ⟨hlen, hall, rfl⟩ := ih.mp hmore
          refine ⟨congrArg Nat.succ hlen, List.forall_mem_cons.mpr ⟨hreadable, hall⟩, ?_⟩
          rw [pathRecords_cons, append_assoc]
    · rintro ⟨hlen, hall, rfl⟩
      obtain ⟨path, more, rfl⟩ := exists_of_length_succ paths hlen
      obtain ⟨hpath, hmore⟩ := List.forall_mem_cons.mp hall
      rw [pathRecords_cons, append_assoc, readPath_eq_ok_iff.mpr ⟨hpath, rfl⟩]
      simp only
      rw [ih.mpr ⟨Nat.succ.inj hlen, hmore, rfl⟩]

/-- The records of paths that are not all valid are rejected at one that is not. By induction on
the paths. -/
lemma readPathList_invalid (hshort : ∀ path ∈ paths, (pathBytes path).length < 2 ^ 32)
    (hinvalid : ∃ path ∈ paths, validateIndexPath path = false) (index : ℕ) :
    ∃ i path, paths[i]? = some path ∧ validateIndexPath path = false ∧
      readPathList index paths.length (pathRecords paths) = .error (invalidPath (index + i)) := by
  induction paths generalizing index with
  | nil => simp at hinvalid
  | cons path paths ih =>
    obtain ⟨hpath, hpaths⟩ := List.forall_mem_cons.mp hshort
    rw [length_cons, readPathList, pathRecords_cons, readPath_pathRecord hpath]
    cases hvalid : validateIndexPath path with
    | false => exact ⟨0, path, rfl, hvalid, rfl⟩
    | true =>
      have hrest : ∃ path ∈ paths, validateIndexPath path = false := by
        obtain ⟨path', hmem, hfalse⟩ := hinvalid
        rcases List.mem_cons.mp hmem with rfl | hmem
        · rw [hvalid] at hfalse
          cases hfalse
        · exact ⟨path', hmem, hfalse⟩
      obtain ⟨i, path', hi, hfalse, herror⟩ := ih hpaths hrest (index + 1)
      refine ⟨i + 1, path', hi, hfalse, ?_⟩
      simp only [if_true, herror]
      rw [Nat.add_right_comm, add_assoc]

/-! ## Blocks -/

/-- The visibility blocks that are read: nothing, or a text of the visibility behind its length. -/
def Block (json : JsonCodec V) : Option V → List UInt8 → Prop
  | none, block => block = []
  | some visibility, block =>
    ∃ text, json.fromSlice text = .ok visibility ∧ text.length < 2 ^ 64 ∧
      block = toLE 8 text.length ++ text

/-- What is read as a visibility is a block of it. -/
lemma readVisibility_eq_ok_iff {hasVisibility : Bool} :
    readVisibility json hasVisibility data = .ok (visibility, rest) ↔
      hasVisibility = visibility.isSome ∧ ∃ block, Block json visibility block ∧
        data = block ++ rest := by
  constructor
  · intro h
    rw [readVisibility] at h
    cases hasVisibility with
    | false =>
      simp only [Bool.false_eq_true, if_false, Except.ok.injEq, Prod.mk.injEq] at h
      obtain ⟨rfl, rfl⟩ := h
      exact ⟨rfl, [], rfl, rfl⟩
    | true =>
      simp only [if_true] at h
      split_ifs at h with height hroom
      split at h
      · cases h
      · rename_i v hv
        rw [Except.ok.injEq, Prod.mk.injEq] at h
        obtain ⟨rfl, rfl⟩ := h
        have htake : (data.take 8).length = 8 := by
          rw [length_take]
          omega
        have hlen : ((data.drop 8).take (ofLE (data.take 8))).length = ofLE (data.take 8) := by
          rw [length_take]
          omega
        have hlt : ofLE (data.take 8) < 2 ^ 64 := by
          have := ofLE_lt (data.take 8)
          rwa [htake] at this
        refine ⟨rfl, _, ⟨_, hv, hlen.symm ▸ hlt, rfl⟩, ?_⟩
        have hhead := toLE_ofLE (data.take 8)
        rw [htake] at hhead
        rw [hlen, hhead, append_assoc, take_append_drop, take_append_drop]
  · rintro ⟨rfl, block, hblock, rfl⟩
    cases visibility with
    | none =>
      obtain rfl : block = [] := hblock
      rfl
    | some v =>
      obtain ⟨text, htext, hlt, rfl⟩ := hblock
      have height : ¬ (toLE 8 text.length ++ text ++ rest).length < 8 := by
        rw [length_append, length_append, length_toLE]
        omega
      have htake : (toLE 8 text.length ++ text ++ rest).take 8 = toLE 8 text.length := by
        rw [append_assoc]
        exact take_left' (length_toLE _ _)
      have hdrop : (toLE 8 text.length ++ text ++ rest).drop 8 = text ++ rest := by
        rw [append_assoc]
        exact drop_left' (length_toLE _ _)
      have hroom : ¬ (text ++ rest).length < text.length := by
        rw [length_append]
        omega
      have hnum : ofLE (toLE 8 text.length) = text.length := ofLE_toLE hlt
      rw [readVisibility, Option.isSome_some, if_pos rfl, if_neg height]
      simp only [htake, hdrop, hnum, if_neg hroom, take_left', drop_left', htext]

/-- A visibility is written as a block of it. -/
lemma writeVisibility_block (hjson : json.RoundTrips) {block : List UInt8}
    (hblock : block.length < 2 ^ 64) (h : writeVisibility json visibility = .ok block) :
    Block json visibility block := by
  cases visibility with
  | none => exact (Except.ok.inj h).symm
  | some v =>
    rw [writeVisibility] at h
    cases htext : json.toVec v with
    | error e =>
      rw [htext] at h
      cases h
    | ok text =>
      rw [htext] at h
      obtain rfl := Except.ok.inj h
      rw [length_append] at hblock
      exact ⟨text, hjson v text htext, by omega, rfl⟩

/-! ## Files -/

/-- The two magic numbers differ. -/
lemma magicFor_eq_iff : magicFor visibility = VISIBILITY_MAGIC ↔ visibility.isSome = true := by
  cases visibility with
  | none => simp [magicFor, MAGIC, VISIBILITY_MAGIC]
  | some v => simp [magicFor]

/-- What follows a header is read iff it is the records of the paths, and nothing else. -/
lemma readBody_eq_ok_iff {index : FilenameIndex V} :
    readBody count visibility rest = .ok index ↔
      index.visibility = visibility ∧ index.paths.length = count ∧
        (∀ path ∈ index.paths, Readable path) ∧ rest = pathRecords index.paths := by
  obtain ⟨paths, visibility'⟩ := index
  rw [readBody]
  constructor
  · intro h
    simp only at h
    split_ifs at h with hmany
    split at h
    · cases h
    · rename_i paths' rest' hlist
      split_ifs at h with hnil
      rw [Except.ok.injEq, FilenameIndex.mk.injEq] at h
      obtain ⟨rfl, rfl⟩ := h
      obtain ⟨hlen, hall, hdata⟩ := readPathList_eq_ok_iff.mp hlist
      rw [hnil, append_nil] at hdata
      exact ⟨rfl, hlen, hall, hdata⟩
  · rintro ⟨rfl, hlen, hall, hdata⟩
    simp only at hlen hall hdata
    have hmany : ¬ rest.length / PATH_LEN_SIZE < count := by
      have := le_length_pathRecords paths
      rw [hdata, Nat.not_lt, Nat.le_div_iff_mul_le (by decide), ← hlen, Nat.mul_comm]
      exact this
    have hlist : readPathList 0 count rest = .ok (paths, []) :=
      readPathList_eq_ok_iff.mpr ⟨hlen, hall, by rw [hdata, append_nil]⟩
    simp only [if_neg hmany, hlist, if_true]

/-- What follows a header and a visibility block is read as paths. -/
lemma readFilenameIndex_header {block : List UInt8} (hcount : count < 2 ^ 64)
    (hblock : Block json visibility block) :
    readFilenameIndex json (magicFor visibility ++ toLE 8 count ++ block ++ rest) =
      readBody count visibility rest := by
  set magic := magicFor visibility with hmagicDef
  set number := toLE 8 count with hnumber
  have hmagic : magic.length = MAGIC.length := by cases visibility <;> rfl
  have height : number.length = 8 := length_toLE _ _
  have hhead : (magic ++ number).length = HEADER_LEN := by
    rw [length_append, hmagic, height]
    rfl
  have hshort : ¬ (magic ++ number ++ block ++ rest).length < HEADER_LEN := by
    rw [append_assoc, length_append, hhead]
    omega
  have htake : (magic ++ number ++ block ++ rest).take MAGIC.length = magic := by
    rw [append_assoc, append_assoc]
    exact take_left' hmagic
  have hcountBytes : ((magic ++ number ++ block ++ rest).drop MAGIC.length).take 8 = number := by
    rw [append_assoc, append_assoc, drop_left' hmagic]
    exact take_left' height
  have hrest : (magic ++ number ++ block ++ rest).drop HEADER_LEN = block ++ rest := by
    rw [append_assoc]
    exact drop_left' hhead
  have hone : ¬ (magic ≠ VISIBILITY_MAGIC ∧ magic ≠ MAGIC) := by
    rw [hmagicDef]
    cases visibility <;> simp [magicFor]
  have hnum : ofLE number = count := ofLE_toLE hcount
  have hvisibility : readVisibility json (decide (magic = VISIBILITY_MAGIC)) (block ++ rest) =
      .ok (visibility, rest) := by
    refine readVisibility_eq_ok_iff.mpr ⟨?_, block, hblock, rfl⟩
    rw [hmagicDef, Bool.eq_iff_iff, decide_eq_true_iff]
    exact magicFor_eq_iff
  rw [readFilenameIndex, if_neg hshort]
  simp only [htake, if_neg hone, hcountBytes, hrest, hnum, hvisibility]

/-- **The reader accepts** the magic number, the number of paths, a visibility block, and the
records of valid paths, with nothing behind them. -/
theorem readFilenameIndex_eq_ok_iff {index : FilenameIndex V} :
    readFilenameIndex json data = .ok index ↔
      (∀ path ∈ index.paths, Readable path) ∧ index.paths.length < 2 ^ 64 ∧
        ∃ block, Block json index.visibility block ∧
          data = magicFor index.visibility ++ toLE 8 index.paths.length ++ block ++
            pathRecords index.paths := by
  constructor
  · intro h
    rw [readFilenameIndex] at h
    split_ifs at h with hshort
    simp only at h
    split_ifs at h with hmagic
    split at h
    · cases h
    · rename_i visibility rest hvisibility
      obtain ⟨hvis, hlen, hall, rfl⟩ := readBody_eq_ok_iff.mp h
      obtain ⟨hsome, block, hblock, hdata⟩ := readVisibility_eq_ok_iff.mp hvisibility
      subst hvis
      have hheader : HEADER_LEN = MAGIC.length + 8 := rfl
      have hcount : ((data.drop MAGIC.length).take 8).length = 8 := by
        rw [length_take, length_drop]
        omega
      refine ⟨hall, ?_, block, hblock, ?_⟩
      · have := ofLE_lt ((data.drop MAGIC.length).take 8)
        rwa [hcount, ← hlen] at this
      · have hmagicEq : data.take MAGIC.length = magicFor index.visibility := by
          by_cases hv : data.take MAGIC.length = VISIBILITY_MAGIC
          · rw [hv]
            refine (magicFor_eq_iff.mpr ?_).symm
            rw [← hsome, hv]
            rfl
          · rw [(not_and_not_right.mp hmagic) hv]
            have hnone : index.visibility.isSome = false := by
              rw [← hsome]
              exact decide_eq_false hv
            rw [magicFor, hnone]
            rfl
        have hnum := toLE_ofLE ((data.drop MAGIC.length).take 8)
        rw [hcount, ← hlen] at hnum
        calc data
            = data.take MAGIC.length ++ ((data.drop MAGIC.length).take 8 ++
                (data.drop MAGIC.length).drop 8) := by
              rw [take_append_drop, take_append_drop]
          _ = magicFor index.visibility ++ toLE 8 index.paths.length ++ block ++
                pathRecords index.paths := by
              rw [hmagicEq, ← hnum, drop_drop, ← hheader, hdata]
              simp only [append_assoc]
  · rintro ⟨hall, hcount, block, hblock, rfl⟩
    rw [readFilenameIndex_header hcount hblock]
    exact readBody_eq_ok_iff.mpr ⟨rfl, rfl, hall, rfl⟩

/-- What is written is the magic number, the number of paths, the block that is written for the
visibility, and the records, if no path is too long. -/
lemma writePaths_eq_ok_iff :
    writePaths json paths visibility = .ok data ↔
      (∀ path ∈ paths, (pathBytes path).length < 2 ^ 32) ∧
        ∃ block, writeVisibility json visibility = .ok block ∧
          data = magicFor visibility ++ toLE 8 paths.length ++ block ++ pathRecords paths := by
  rw [writePaths]
  cases hvisibility : writeVisibility json visibility with
  | error e => exact ⟨fun h => (nomatch h), fun ⟨_, block, hblock, _⟩ => nomatch hblock⟩
  | ok block =>
    cases hrecords : writePathList paths with
    | error e =>
      refine ⟨fun h => (nomatch h), fun ⟨hshort, _⟩ => ?_⟩
      rw [writePathList_eq_ok_iff.mpr ⟨hshort, rfl⟩] at hrecords
      cases hrecords
    | ok records =>
      obtain ⟨hshort, rfl⟩ := writePathList_eq_ok_iff.mp hrecords
      rw [Except.ok.injEq]
      constructor
      · rintro rfl
        exact ⟨hshort, block, rfl, rfl⟩
      · rintro ⟨-, block', hblock, rfl⟩
        rw [Except.ok.inj hblock]

/-- **Extra path tables are exact.** Let the file and the number of paths fit into 64 bits, and let
JSON texts that are written be read back. Then a table that is written is read back exactly if all
of its paths are normalized root-relative paths, and is otherwise rejected with an error that names
a path that is not. A table that is read
without a visibility is the table that is written for its paths. A table that is read with a
visibility is the one that is written for its paths and the visibility, but for the JSON text, which
is one that stands for the visibility; nothing is missing, and nothing follows. -/
theorem readFilenameIndex_exact (json : JsonCodec V) (hjson : json.RoundTrips) :
    (∀ paths visibility data, writePaths json paths visibility = .ok data →
      paths.length < 2 ^ 64 → data.length < 2 ^ 64 →
        ((∀ path ∈ paths, validateIndexPath path = true) →
          readFilenameIndex json data = .ok ⟨paths, visibility⟩) ∧
        ((∃ path ∈ paths, validateIndexPath path = false) →
          ∃ i path, paths[i]? = some path ∧ validateIndexPath path = false ∧
            readFilenameIndex json data = .error (invalidPath i))) ∧
    (∀ data paths, readFilenameIndex json data = .ok ⟨paths, none⟩ →
      writePaths json paths none = .ok data) ∧
    (∀ data paths v, readFilenameIndex json data = .ok ⟨paths, some v⟩ →
      ∃ text records, json.fromSlice text = .ok v ∧ writePathList paths = .ok records ∧
        data = VISIBILITY_MAGIC ++ toLE 8 paths.length ++ (toLE 8 text.length ++ text) ++ records ∧
        (json.toVec v = .ok text → writePaths json paths (some v) = .ok data)) := by
  have hreadable : ∀ {paths : List String}, (∀ path ∈ paths, Readable path) →
      ∀ path ∈ paths, (pathBytes path).length < 2 ^ 32 := fun h path hpath => (h path hpath).short
  refine ⟨fun paths visibility data hwrite hcount hdata => ?_, ?_, ?_⟩
  · obtain ⟨hshort, block, hblock, rfl⟩ := writePaths_eq_ok_iff.mp hwrite
    have hlen : block.length < 2 ^ 64 := by
      rw [length_append, length_append] at hdata
      omega
    have hread : readFilenameIndex json (magicFor visibility ++ toLE 8 paths.length ++ block ++
        pathRecords paths) = readBody paths.length visibility (pathRecords paths) :=
      readFilenameIndex_header hcount (writeVisibility_block hjson hlen hblock)
    refine ⟨fun hvalid => ?_, fun hinvalid => ?_⟩
    · rw [hread]
      exact readBody_eq_ok_iff.mpr
        ⟨rfl, rfl, fun path hpath => ⟨hvalid path hpath, hshort path hpath⟩, rfl⟩
    · obtain ⟨i, path, hi, hfalse, herror⟩ := readPathList_invalid hshort hinvalid 0
      refine ⟨i, path, hi, hfalse, ?_⟩
      have hmany : ¬ (pathRecords paths).length / PATH_LEN_SIZE < paths.length := by
        rw [Nat.not_lt, Nat.le_div_iff_mul_le (by decide), Nat.mul_comm]
        exact le_length_pathRecords paths
      rw [hread, readBody]
      simp only [if_neg hmany, herror, zero_add]
  · intro data paths hread
    obtain ⟨hall, -, block, hblock, heq⟩ := readFilenameIndex_eq_ok_iff.mp hread
    exact writePaths_eq_ok_iff.mpr ⟨hreadable hall, [], rfl, by rw [heq, hblock]⟩
  · intro data paths v hread
    obtain ⟨hall, -, block, ⟨text, htext, -, rfl⟩, heq⟩ := readFilenameIndex_eq_ok_iff.mp hread
    refine ⟨text, pathRecords paths, htext,
      writePathList_eq_ok_iff.mpr ⟨hreadable hall, rfl⟩, heq, fun hvec => ?_⟩
    refine writePaths_eq_ok_iff.mpr ⟨hreadable hall, toLE 8 text.length ++ text, ?_, heq⟩
    rw [writeVisibility, hvec]

/-- The hidden entries, the id of the file table, and whether they are complete, for one hidden
file. -/
def secretVisibility : List (String × Bool) × List UInt8 × Bool :=
  ([(".secret.png", false)], List.replicate 32 7, true)

/-- Its JSON text. -/
def secretText : List UInt8 :=
  pathBytes ("\x7b\"paths\":\x7b\"hidden\":\x7b\".secret.png\":false\x7d\x7d," ++
    "\"file_table_id\":[7,7,7,7,7,7,7,7,7,7,7,7,7,7,7,7,7,7,7,7,7,7,7,7,7,7,7,7,7,7,7,7]," ++
    "\"hidden_complete\":true\x7d")

/-- The JSON conversion of that visibility. -/
def secretJson : JsonCodec (List (String × Bool) × List UInt8 × Bool) where
  toVec v := if v = secretVisibility then .ok secretText else .error "another value"
  fromSlice text := if text = secretText then .ok secretVisibility else .error "another text"

/-- `readFilenameIndex_exact` for a table of two paths with a visibility. -/
theorem readFilenameIndex_exact_secret :
    ∃ data, writePaths secretJson [".secret.png", "visible.png"] (some secretVisibility) =
        .ok data ∧
      readFilenameIndex secretJson data =
        .ok ⟨[".secret.png", "visible.png"], some secretVisibility⟩ := by
  have hjson : secretJson.RoundTrips := by
    intro v text h
    by_cases hv : v = secretVisibility
    · simp only [secretJson, hv, if_true, Except.ok.injEq] at h
      simp only [secretJson, ← h, hv, if_true]
    · simp only [secretJson, hv, if_false, reduceCtorEq] at h
  have hwrite : writePaths secretJson [".secret.png", "visible.png"] (some secretVisibility) =
      .ok (VISIBILITY_MAGIC ++ toLE 8 2 ++ (toLE 8 secretText.length ++ secretText) ++
        pathRecords [".secret.png", "visible.png"]) := by decide +kernel
  exact ⟨_, hwrite, ((readFilenameIndex_exact secretJson hjson).1 _ _ _ hwrite (by decide)
    (by decide +kernel)).1 (by decide +kernel)⟩

/-- A table with an unsafe path is written, and rejected when it is read. -/
theorem unsafe_path_rejected :
    ∃ data, writePaths secretJson [".."] none = .ok data ∧
      readFilenameIndex secretJson data = .error (invalidPath 0) :=
  ⟨MAGIC ++ [1, 0, 0, 0, 0, 0, 0, 0, 2, 0, 0, 0, 46, 46], rfl, rfl⟩

end ExtraPaths

end Tgrep
