import Tgrep.Ondisk

/-!
# The file table

`files.bin` maps file ids to paths: a versioned header followed by variable-length records, each a
file id, the length of the path in bytes, and the path.

## Main definitions

* `Error`: the errors of index files.
* `pathBytes`, `pathOfBytes?`: a path as UTF-8 bytes, and back.
* `validateIndexPath`: normalized root-relative paths.
* `writeFileEntry`, `decodeFileEntries`: the records.
* `fileTableHeader`, `fileTableBody`: the header.

## Main results

* `decodeFileEntries_writeFileEntries`: decoding the written records returns them.
-/

namespace Tgrep

open LittleEndian List

/-- The errors of reading and writing index files. -/
inductive Error
  | io (detail : String)
  | indexNotFound (dir : String)
  | indexCorrupted (detail : String)
  deriving DecidableEq

/-! ## Paths -/

/-- The UTF-8 bytes of a path. Paths are compared and searched by their bytes. -/
def pathBytes (path : String) : List UInt8 := path.toUTF8.data.toList

/-- The path with the given UTF-8 bytes, if they are valid UTF-8. -/
def pathOfBytes? (bytes : List UInt8) : Option String := String.fromUTF8? ⟨bytes.toArray⟩

@[simp] lemma pathOfBytes?_pathBytes (path : String) :
    pathOfBytes? (pathBytes path) = some path := by
  simp [pathOfBytes?, pathBytes, String.fromUTF8?, path.isValidUTF8, String.fromUTF8]

variable {entries : List (UInt32 × String)} {path : String}

/-- Bytes that are a path are the bytes of that path. -/
lemma pathBytes_of_pathOfBytes? {bytes : List UInt8} (h : pathOfBytes? bytes = some path) :
    pathBytes path = bytes := by
  rw [pathOfBytes?, String.fromUTF8?] at h
  split_ifs at h with hv
  obtain rfl := Option.some.inj h
  simp [pathBytes, String.fromUTF8]

/-- Different paths have different bytes. -/
lemma pathBytes_injective : Function.Injective pathBytes := by
  intro p q h
  have := congrArg pathOfBytes? h
  simpa using this

/-- Whether a path starts with a prefix. -/
def startsWith (path pathPrefix : String) : Bool := (pathBytes pathPrefix).isPrefixOf (pathBytes path)

/-- Every path starts with the empty prefix. -/
@[simp] lemma startsWith_empty (path : String) : startsWith path "" = true := by
  rw [startsWith, show pathBytes "" = [] from rfl]
  rfl

/-- Normalized root-relative paths: neither backslash nor NUL, and no component that is empty,
`.` or `..`. -/
def validateIndexPath (path : String) : Bool :=
  let bytes := pathBytes path
  !bytes.contains 92 && !bytes.contains 0 &&
    (bytes.splitOn 47).all fun part => part ≠ [] ∧ part ≠ [46] ∧ part ≠ [46, 46]

/-! ## Records -/

/-- The longest path that a record can hold. -/
def MAX_PATH_LEN : ℕ := 65535

/-- The leading characters of a path that start within its first 80 bytes. -/
def pathPreview : ℕ → List Char → List Char
  | _, [] => []
  | i, c :: cs => if i < 80 then c :: pathPreview (i + c.utf8Size) cs else []

/-- The bytes of one record, or an error if the path is too long for its length field. -/
def writeFileEntry (fileId : UInt32) (path : String) : Except Error (List UInt8) :=
  let bytes := pathBytes path
  if bytes.length > MAX_PATH_LEN then
    let len := bytes.length
    let preview := String.ofList (pathPreview 0 path.toList)
    .error (.indexCorrupted
      s!"path too long for index ({len} bytes, max {MAX_PATH_LEN}): \"{preview}…\"")
  else .ok (u32Bytes fileId ++ toLE 2 bytes.length ++ bytes)

/-- The records of a file table, one after another. -/
def decodeFileEntries (data : List UInt8) : Except Error (List (UInt32 × String)) :=
  if _hempty : data = [] then .ok []
  else if data.length < 6 then
    let remaining := data.length
    .error (.indexCorrupted s!"files.bin truncated: {remaining} trailing bytes < 6-byte header")
  else
    let fileId := u32OfBytes (data.take 4)
    let pathLen := ofLE ((data.drop 4).take 2)
    let rest := data.drop 6
    if rest.length < pathLen then
      let remaining := rest.length
      .error (.indexCorrupted
        s!"files.bin truncated: declared path_len {pathLen} exceeds remaining {remaining} bytes")
    else
      match pathOfBytes? (rest.take pathLen) with
      | none => .error (.indexCorrupted s!"files.bin file_id {fileId} has a non-UTF-8 path")
      | some path =>
        if validateIndexPath path then
          match decodeFileEntries (rest.drop pathLen) with
          | .ok entries => .ok ((fileId, path) :: entries)
          | .error e => .error e
        else
          .error (.indexCorrupted
            s!"files.bin file_id {fileId}: index path must be a normalized root-relative path")
termination_by data.length
decreasing_by
  have : 0 < data.length := List.length_pos_iff.mpr _hempty
  simp only [length_drop]
  omega

/-- A path that the file table can hold: valid, and short enough for its length field. -/
structure Storable (path : String) : Prop where
  valid : validateIndexPath path = true
  short : (pathBytes path).length ≤ MAX_PATH_LEN

/-- A path of bounded length has a record. -/
lemma writeFileEntry_eq (h : (pathBytes path).length ≤ MAX_PATH_LEN) (fileId : UInt32) :
    writeFileEntry fileId path =
      .ok (u32Bytes fileId ++ toLE 2 (pathBytes path).length ++ pathBytes path) := by
  rw [writeFileEntry]
  simp only [gt_iff_lt, if_neg (not_lt.mpr h)]

/-- The decoder reads a record that is followed by more, and checks its path. -/
lemma decodeFileEntries_record (hpath : (pathBytes path).length ≤ MAX_PATH_LEN) (fileId : UInt32)
    (rest : List UInt8) :
    decodeFileEntries (u32Bytes fileId ++ toLE 2 (pathBytes path).length ++ pathBytes path ++ rest)
      = if validateIndexPath path then
          match decodeFileEntries rest with
          | .ok entries => .ok ((fileId, path) :: entries)
          | .error e => .error e
        else
          .error (.indexCorrupted
            s!"files.bin file_id {fileId}: index path must be a normalized root-relative path") := by
  have hid : (u32Bytes fileId).length = 4 := length_u32Bytes fileId
  have hlen : (toLE 2 (pathBytes path).length).length = 2 := length_toLE _ _
  have hhead : (u32Bytes fileId ++ toLE 2 (pathBytes path).length).length = 6 := by
    rw [length_append, hid, hlen]
  have hshort : (pathBytes path).length < 256 ^ 2 := by
    rw [MAX_PATH_LEN] at hpath
    omega
  rw [decodeFileEntries]
  have hne : u32Bytes fileId ++ toLE 2 (pathBytes path).length ++ pathBytes path ++ rest ≠ [] := by
    intro hnil
    have := congrArg List.length hnil
    simp only [length_append, hid, length_nil] at this
    omega
  have hsix : ¬ (u32Bytes fileId ++ toLE 2 (pathBytes path).length ++ pathBytes path ++
      rest).length < 6 := by
    simp only [length_append, hid, hlen]
    omega
  have htake4 : (u32Bytes fileId ++ toLE 2 (pathBytes path).length ++ pathBytes path ++
      rest).take 4 = u32Bytes fileId := by
    rw [append_assoc, append_assoc, take_left' hid]
  have hdrop4 : ((u32Bytes fileId ++ toLE 2 (pathBytes path).length ++ pathBytes path ++
      rest).drop 4).take 2 = toLE 2 (pathBytes path).length := by
    rw [append_assoc, append_assoc, drop_left' hid, take_left' hlen]
  have hdrop6 : (u32Bytes fileId ++ toLE 2 (pathBytes path).length ++ pathBytes path ++
      rest).drop 6 = pathBytes path ++ rest := by
    rw [append_assoc, drop_left' hhead]
  simp only [dif_neg hne, if_neg hsix, htake4, hdrop4, hdrop6, u32OfBytes_u32Bytes,
    ofLE_toLE hshort]
  have hroom : ¬ (pathBytes path ++ rest).length < (pathBytes path).length := by
    rw [length_append]
    omega
  simp only [if_neg hroom, take_left', drop_left', pathOfBytes?_pathBytes]

/-- A record followed by more records decodes to its entry and theirs. -/
lemma decodeFileEntries_cons (h : Storable path) (fileId : UInt32) (rest : List UInt8) :
    decodeFileEntries (u32Bytes fileId ++ toLE 2 (pathBytes path).length ++ pathBytes path ++ rest)
      = match decodeFileEntries rest with
        | .ok entries => .ok ((fileId, path) :: entries)
        | .error e => .error e := by
  rw [decodeFileEntries_record h.short, if_pos h.valid]

/-- The records of a list of entries. -/
def writeFileEntries : List (UInt32 × String) → Except Error (List UInt8)
  | [] => .ok []
  | (fileId, path) :: entries =>
    match writeFileEntry fileId path with
    | .error e => .error e
    | .ok record =>
      match writeFileEntries entries with
      | .error e => .error e
      | .ok records => .ok (record ++ records)

/-- **File tables round trip**: entries with storable paths are written, and decoding the records
returns them. -/
theorem decodeFileEntries_writeFileEntries (h : ∀ e ∈ entries, Storable e.2) :
    ∃ records, writeFileEntries entries = .ok records ∧
      decodeFileEntries records = .ok entries := by
  induction entries with
  | nil => exact ⟨[], rfl, by rw [decodeFileEntries]; simp⟩
  | cons e entries ih =>
    obtain ⟨fileId, path⟩ := e
    obtain ⟨hpath, hrest⟩ := List.forall_mem_cons.mp h
    obtain ⟨records, hwrite, hdecode⟩ := ih hrest
    refine ⟨_, by rw [writeFileEntries, writeFileEntry_eq hpath.short, hwrite], ?_⟩
    rw [decodeFileEntries_cons hpath, hdecode]

/-- **Records that are decoded hold storable paths.** -/
theorem storable_of_decodeFileEntries {decoded : List (UInt32 × String)} {records : List UInt8}
    (hwrite : writeFileEntries entries = .ok records)
    (hdecode : decodeFileEntries records = .ok decoded) : ∀ e ∈ entries, Storable e.2 := by
  induction entries generalizing records decoded with
  | nil => simp
  | cons e entries ih =>
    obtain ⟨fileId, path⟩ := e
    have hshort : (pathBytes path).length ≤ MAX_PATH_LEN := by
      by_contra hlong
      rw [writeFileEntries, writeFileEntry] at hwrite
      simp only [gt_iff_lt, if_pos (not_le.mp hlong)] at hwrite
      cases hwrite
    rw [writeFileEntries, writeFileEntry_eq hshort] at hwrite
    cases hrest : writeFileEntries entries with
    | error e =>
      rw [hrest] at hwrite
      cases hwrite
    | ok rest =>
      rw [hrest] at hwrite
      obtain rfl := Except.ok.inj hwrite
      rw [decodeFileEntries_record hshort] at hdecode
      split_ifs at hdecode with hvalid
      cases hdecoded : decodeFileEntries rest with
      | error e =>
        rw [hdecoded] at hdecode
        cases hdecode
      | ok more => exact List.forall_mem_cons.mpr ⟨⟨hvalid, hshort⟩, ih hrest hdecoded⟩

/-! ## Header -/

/-- Two duplicate reserved ids, so that readers of the old format reject the table. -/
def FILE_TABLE_MAGIC : List UInt8 := [255, 255, 255, 255, 0, 0, 255, 255, 255, 255, 0, 0]

/-- The version of the file table format. -/
def INDEX_FORMAT_VERSION : UInt32 := 3

/-- The length of the header. -/
def FILE_TABLE_HEADER_LEN : ℕ := FILE_TABLE_MAGIC.length + 4

/-- The header of a file table. -/
def fileTableHeader : List UInt8 := FILE_TABLE_MAGIC ++ u32Bytes INDEX_FORMAT_VERSION

/-- The records of a file table. A table without the magic is of the old format and has no
header. -/
def fileTableBody (data : List UInt8) : Except Error (List UInt8) :=
  if ¬ FILE_TABLE_MAGIC.isPrefixOf data then .ok data
  else if data.length < FILE_TABLE_HEADER_LEN then
    .error (.indexCorrupted "files.bin header is truncated")
  else
    let version := u32OfBytes ((data.drop FILE_TABLE_MAGIC.length).take 4)
    if version ≠ INDEX_FORMAT_VERSION then
      .error (.indexCorrupted s!"unsupported files.bin format version {version}")
    else .ok (data.drop FILE_TABLE_HEADER_LEN)

/-- The body of a table with a header is what follows the header. -/
lemma fileTableBody_header (body : List UInt8) :
    fileTableBody (fileTableHeader ++ body) = .ok body := by
  have hmagic : FILE_TABLE_MAGIC.isPrefixOf (fileTableHeader ++ body) = true := by
    rw [List.isPrefixOf_iff_prefix, fileTableHeader, append_assoc]
    exact prefix_append _ _
  have hlen : fileTableHeader.length = FILE_TABLE_HEADER_LEN := by
    rw [fileTableHeader, length_append, length_u32Bytes, FILE_TABLE_HEADER_LEN]
  have hroom : ¬ (fileTableHeader ++ body).length < FILE_TABLE_HEADER_LEN := by
    rw [length_append, hlen]
    omega
  have hversion : ((fileTableHeader ++ body).drop FILE_TABLE_MAGIC.length).take 4 =
      u32Bytes INDEX_FORMAT_VERSION := by
    rw [fileTableHeader, append_assoc, drop_left', take_left' (length_u32Bytes _)]
    rfl
  rw [fileTableBody, if_neg (by simp [hmagic]), if_neg hroom, hversion]
  simp only [u32OfBytes_u32Bytes, ne_eq, not_true_eq_false, if_false]
  rw [drop_left' hlen]

end Tgrep
