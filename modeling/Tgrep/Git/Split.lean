import Tgrep.Git.Entries
import Tgrep.Git.Ewah

/-!
# Split indexes

A split index has the changes to a shared one: which of the shared entries are deleted, which are
replaced, and the entries for these and for what is new.

## Main definitions

* `Extension`, `encodeExtensions`: the extensions behind the entries.
* `Bitmap`, `Link`: the extension that links an index to a shared one.
* `keptPaths`: the paths of the shared entries that are not deleted.

## Main results

* `parseIndexWith_plain`, `SplitFiles.parseIndexWith_split`: the paths of an index, split or not.
* `gitIndex_exact`: what is read of an index, and when.
-/

namespace Tgrep.GitIndex

open Splice BigEndian OffsetVarint List Option

/-! ## Extensions -/

/-- An extension. -/
structure Extension where
  name : List UInt8
  name_length : name.length = 4
  data : List UInt8
  data_lt : data.length < 2 ^ 32

def Extension.encode (e : Extension) : List UInt8 := e.name ++ (toBE 4 e.data.length ++ e.data)

def encodeExtensions (extensions : List Extension) : List UInt8 := extensions.flatMap Extension.encode

lemma Extension.length_encode (e : Extension) : e.encode.length = 8 + e.data.length := by
  rw [encode]
  simp only [length_append, e.name_length, length_toBE]
  omega

variable {rest : List UInt8} {pos : ℕ} {extensions : List Extension} {signature bytes : List UInt8}

variable (version : ℕ) (previous : List UInt8) {e : Extension} {checksum : List UInt8}

/-- **An extension is looked at**, if there is room for the checksum behind it. -/
theorem extensionFrom_step (h : bytes.drop pos = e.encode ++ rest)
    (hrest : MIN_TRAILER ≤ rest.length) (fuel : ℕ) :
    extensionFrom bytes signature (fuel + 1) pos =
      if e.name = signature then some e.data
      else extensionFrom bytes signature fuel (pos + e.encode.length) := by
  have hencode := e.length_encode
  have hlen := congrArg length h
  rw [length_drop, length_append] at hlen
  have hheader : slice bytes pos (pos + 8) = e.name ++ toBE 4 e.data.length := by
    rw [slice_eq_take, h, Extension.encode, append_assoc, append_assoc, ← append_assoc e.name]
    refine take_left' ?_
    rw [length_append, e.name_length, length_toBE]
  have hsize : ofBE ((e.name ++ toBE 4 e.data.length).drop 4) = e.data.length := by
    rw [drop_left' e.name_length, ofBE_toBE (lt_of_lt_of_le e.data_lt (by decide))]
  have hdata : slice bytes (pos + 8) (pos + 8 + e.data.length) = e.data := by
    have hbehind : bytes.drop (pos + 8) = e.data ++ rest := by
      rw [← drop_drop, h, Extension.encode, append_assoc, append_assoc, ← append_assoc e.name]
      refine drop_left' ?_
      rw [length_append, e.name_length, length_toBE]
    rw [slice_eq_take, hbehind, take_left]
  rw [extensionFrom, getRange, if_pos ⟨by omega, by omega⟩, hheader]
  dsimp only
  rw [hsize, if_neg (by unfold MIN_TRAILER at *; omega), take_left' e.name_length, hdata,
    hencode, ← add_assoc]

/-- Extensions of other names are passed over. -/
lemma extensionFrom_skip (h : bytes.drop pos = encodeExtensions extensions ++ rest)
    (hnames : ∀ e ∈ extensions, e.name ≠ signature) (hrest : MIN_TRAILER ≤ rest.length) (fuel : ℕ) :
    extensionFrom bytes signature (fuel + extensions.length) pos =
      extensionFrom bytes signature fuel (pos + (encodeExtensions extensions).length) := by
  induction extensions generalizing pos with
  | nil => rfl
  | cons e extensions ih =>
    obtain ⟨he, hothers⟩ := forall_mem_cons.mp hnames
    have hsplit : encodeExtensions (e :: extensions) = e.encode ++ encodeExtensions extensions := rfl
    rw [hsplit, append_assoc] at h
    rw [length_cons, ← add_assoc, extensionFrom_step h ?_, if_neg he, ih ?_ hothers,
      hsplit, length_append, add_assoc]
    · rw [← drop_drop, h, drop_left]
    · rw [length_append]
      omega

/-- The checksum is no extension. -/
lemma extensionFrom_checksum (h : bytes.length = pos + MIN_TRAILER) (fuel : ℕ) :
    extensionFrom bytes signature (fuel + 1) pos = none := by
  unfold MIN_TRAILER at h
  rw [extensionFrom, getRange, if_pos ⟨by omega, by omega⟩]
  dsimp only
  rw [if_pos (by unfold MIN_TRAILER; omega)]

lemma length_le_encodeExtensions (extensions : List Extension) :
    extensions.length ≤ (encodeExtensions extensions).length := by
  induction extensions with
  | nil => exact le_rfl
  | cons e extensions ih =>
    have hencode := e.length_encode
    have hsplit : encodeExtensions (e :: extensions) = e.encode ++ encodeExtensions extensions := rfl
    rw [hsplit, length_append, length_cons]
    omega

/-- **The first extension of a name** is found. -/
theorem extension_hit {before : List Extension}
    (h : bytes.drop pos = encodeExtensions before ++ (e.encode ++ rest))
    (hnames : ∀ e' ∈ before, e'.name ≠ e.name) (hrest : MIN_TRAILER ≤ rest.length) :
    extension bytes pos e.name = some e.data := by
  have hlen := congrArg length h
  have hle := length_le_encodeExtensions before
  rw [length_drop, length_append, length_append] at hlen
  obtain ⟨fuel, hfuel⟩ : ∃ fuel, bytes.length + 1 = fuel + 1 + before.length :=
    ⟨bytes.length - before.length, by omega⟩
  rw [extension, hfuel, extensionFrom_skip h hnames (by rw [length_append]; omega),
    extensionFrom_step (by rw [← drop_drop, h, drop_left]) hrest, if_pos rfl]

/-- **No extension of a name** is found where there is none. -/
theorem extension_miss (h : bytes.drop pos = encodeExtensions extensions ++ checksum)
    (hnames : ∀ e ∈ extensions, e.name ≠ signature) (hchecksum : checksum.length = MIN_TRAILER) :
    extension bytes pos signature = none := by
  have hlen := congrArg length h
  have hle := length_le_encodeExtensions extensions
  unfold MIN_TRAILER at hchecksum
  rw [length_drop, length_append] at hlen
  obtain ⟨fuel, hfuel⟩ : ∃ fuel, bytes.length + 1 = fuel + 1 + extensions.length :=
    ⟨bytes.length - extensions.length, by omega⟩
  rw [extension, hfuel, extensionFrom_skip h hnames (by unfold MIN_TRAILER; omega),
    extensionFrom_checksum (by unfold MIN_TRAILER; omega)]

/-! ## Links -/

/-- A bitmap in a link. -/
structure Bitmap where
  bitCount : ℕ
  lastMarker : ℕ
  markers : List Marker
  words_lt : (bitmapWords markers).length < 2 ^ 32
  size_lt : bitmapSize markers < 2 ^ 64

def Bitmap.encode (b : Bitmap) : List UInt8 := encodeBitmap b.bitCount b.lastMarker b.markers

/-- The link to a shared index, whose bitmaps may be left out. -/
structure Link where
  base : List UInt8
  base_length : base.length = 20
  base_ne : base.all (· == 0) = false
  bitmaps : Option (Bitmap × Bitmap)

namespace Link

variable (link : Link)

/-- The bytes of the bitmap of what is deleted. -/
def deleteBytes : List UInt8 := (link.bitmaps.map fun b => b.1.encode).getD []

/-- The bytes of the bitmap of what is replaced. -/
def replaceBytes : List UInt8 := (link.bitmaps.map fun b => b.2.encode).getD []

def deleteMarkers : List Marker := (link.bitmaps.map fun b => b.1.markers).getD []

def replaceMarkers : List Marker := (link.bitmaps.map fun b => b.2.markers).getD []

/-- The positions that are deleted. -/
def deleted : List ℕ := bitsFrom 0 link.deleteMarkers

/-- The positions that are replaced. -/
def replaced : List ℕ := bitsFrom 0 link.replaceMarkers

def encode : List UInt8 := link.base ++ (link.deleteBytes ++ link.replaceBytes)

/-- What is deleted is read. -/
lemma readEwah_delete (limit : ℕ) (visit : ℕ → Bool) :
    readEwah link.deleteBytes limit visit =
      if Within limit 0 link.deleteMarkers ∧ ∀ bit ∈ link.deleted, visit bit = true then
        some link.deleted
      else none := by
  rw [deleted, deleteBytes, deleteMarkers]
  cases link.bitmaps with
  | none =>
    rw [if_pos ⟨trivial, fun bit hbit => by cases hbit⟩]
    rfl
  | some bitmaps => exact readEwah_encodeBitmap bitmaps.1.words_lt bitmaps.1.size_lt

/-- What is replaced is read. -/
lemma readEwah_replace (limit : ℕ) (visit : ℕ → Bool) :
    readEwah link.replaceBytes limit visit =
      if Within limit 0 link.replaceMarkers ∧ ∀ bit ∈ link.replaced, visit bit = true then
        some link.replaced
      else none := by
  rw [replaced, replaceBytes, replaceMarkers]
  cases link.bitmaps with
  | none =>
    rw [if_pos ⟨trivial, fun bit hbit => by cases hbit⟩]
    rfl
  | some bitmaps => exact readEwah_encodeBitmap bitmaps.2.words_lt bitmaps.2.size_lt

/-- **A link is taken apart**, by the length of an object id of 20 bytes. -/
theorem parse_encode :
    SplitLink.parse link.encode 20 = some ⟨link.base, link.deleteBytes, link.replaceBytes⟩ := by
  have hbase : slice link.encode 0 20 = link.base := by
    rw [slice, drop_zero, encode, take_left' link.base_length]
  have hrest : link.encode.drop 20 = link.deleteBytes ++ link.replaceBytes := by
    rw [encode, drop_left' link.base_length]
  rw [SplitLink.parse, getRange, if_pos ⟨Nat.zero_le _, by
    rw [encode, length_append, link.base_length]; exact Nat.le_add_right _ _⟩, hbase]
  dsimp only
  rw [hrest, deleteBytes, replaceBytes]
  cases link.bitmaps with
  | none => rfl
  | some bitmaps =>
    obtain ⟨delete, replace⟩ := bitmaps
    simp only [map_some, getD_some]
    have hlen := length_encodeBitmap delete.bitCount delete.lastMarker delete.markers
    have hdelete := @ewahLen_encodeBitmap delete.markers delete.bitCount delete.lastMarker
      delete.words_lt replace.encode
    have hreplace := @ewahLen_encodeBitmap replace.markers replace.bitCount replace.lastMarker
      replace.words_lt []
    rw [append_nil] at hreplace
    rw [← Bitmap.encode] at hlen hdelete hreplace
    rw [if_neg (by
      intro hnil
      rw [(append_eq_nil_iff.mp hnil).1, length_nil] at hlen
      omega), hdelete]
    dsimp only
    rw [drop_left, hreplace]
    dsimp only
    rw [if_neg (by rw [length_append]; exact fun h => h rfl), take_left]

end Link

/-! ## The paths of a split index -/

lemma length_encodeEntry_ge (e : IndexEntry .sha1) :
    ENTRY_HEADER + 1 ≤ (encodeEntry version previous e).length := by
  have hlen := (e.header_spec version).1
  rw [encodeEntry]
  split_ifs with hversion
  · simp only [length_append, hlen, length_singleton]
    omega
  · simp only [length_append, hlen, length_singleton]
    omega

lemma length_encodeEntries_ge (entries : List (IndexEntry .sha1)) :
    entries.length * (ENTRY_HEADER + 1) ≤ (encodeEntries version previous entries).length := by
  induction entries generalizing previous with
  | nil => exact Nat.zero_le _
  | cons e entries ih =>
    have hentry := length_encodeEntry_ge version previous e
    have hrest := ih e.path
    rw [encodeEntries, length_cons, length_append, length_append, Nat.add_mul, Nat.one_mul]
    omega

section Index

variable {version : ℕ} {entries : List (IndexEntry .sha1)}

lemma length_encodeIndex (version : ℕ) (entries : List (IndexEntry .sha1)) :
    (encodeIndex version entries).length = 12 + (encodeEntries version [] entries).length := by
  rw [encodeIndex]
  simp only [length_append, length_toBE]
  change 4 + (4 + (4 + _)) = _
  omega

/-- The header of an index. -/
lemma indexHeader_encodeIndex (hge : 2 ≤ version) (hle : version ≤ 4)
    (hcount : entries.length < 2 ^ 32) (rest : List UInt8) :
    indexHeader (encodeIndex version entries ++ rest) = some (version, entries.length) := by
  refine indexHeader_eq_some.mpr ⟨hge, hle, hcount, ?_⟩
  have hfront : (SIGNATURE ++ (toBE 4 version ++ toBE 4 entries.length)).length = 12 := by
    simp only [length_append, length_toBE]
    rfl
  have hindex : encodeIndex version entries ++ rest =
      SIGNATURE ++ (toBE 4 version ++ toBE 4 entries.length) ++
        (encodeEntries version [] entries ++ rest) := by
    rw [encodeIndex]
    simp only [append_assoc]
  rw [hindex, drop_left' hfront]
  simp only [append_assoc]

/-- **The walk yields the paths that Git wrote.** -/
theorem walkEntries_encodeIndex (hge : 2 ≤ version) (hle : version ≤ 4)
    (hcount : entries.length < 2 ^ 32) {rest : List UInt8}
    (hbytes : (encodeIndex version entries ++ rest).length < 2 ^ 64) :
    walkEntries (encodeIndex version entries ++ rest) =
      some (entries.map IndexEntry.path, (encodeIndex version entries).length) :=
  ((walkEntries_iff hbytes _ _).mp (indexLayout_encodeIndex hge hle hcount rest)).1

/-- There is room for the entries of an index. -/
lemma entryCapacity_encodeIndex (version : ℕ) (entries : List (IndexEntry .sha1))
    (rest : List UInt8) :
    entryCapacity (encodeIndex version entries ++ rest) entries.length = entries.length := by
  have hentries := length_encodeEntries_ge version [] entries
  rw [entryCapacity, length_append, length_encodeIndex]
  refine Nat.min_eq_left ?_
  rw [Nat.le_div_iff_mul_le (by decide)]
  omega

end Index

/-- The paths at positions that are not deleted. -/
def keptPaths (deleted : List ℕ) (paths : List (List UInt8)) : List (List UInt8) :=
  (paths.zipIdx.filter fun entry => entry.2 ∉ deleted).map Prod.fst

/-- A split index and the shared one that it is linked to, with object ids of 20 bytes. -/
structure SplitFiles where
  version : ℕ
  version_ge : 2 ≤ version
  version_le : version ≤ 4
  entries : List (IndexEntry .sha1)
  entries_lt : entries.length < 2 ^ 32
  before : List Extension
  before_ne : ∀ e ∈ before, e.name ≠ LINK
  link : Link
  link_lt : link.encode.length < 2 ^ 32
  /-- What follows the link, with the checksum. -/
  behind : List UInt8
  behind_length : MIN_TRAILER ≤ behind.length
  baseVersion : ℕ
  baseVersion_ge : 2 ≤ baseVersion
  baseVersion_le : baseVersion ≤ 4
  baseEntries : List (IndexEntry .sha1)
  baseEntries_lt : baseEntries.length < 2 ^ 32
  baseExtensions : List Extension
  baseExtensions_ne : ∀ e ∈ baseExtensions, e.name ≠ LINK

namespace SplitFiles

variable (f : SplitFiles)

/-- The extension with the link. -/
def linkExtension : Extension := ⟨LINK, rfl, f.link.encode, f.link_lt⟩

/-- The bytes of the split index. -/
def split : List UInt8 :=
  encodeIndex f.version f.entries ++
    (encodeExtensions f.before ++ (f.linkExtension.encode ++ f.behind))

/-- The bytes of the shared index, which ends with its object id. -/
def base : List UInt8 :=
  encodeIndex f.baseVersion f.baseEntries ++ (encodeExtensions f.baseExtensions ++ f.link.base)

/-- The bitmaps fit the entries: they are within the shared ones, none is both deleted and replaced,
and no more are replaced than there are entries for. -/
def Fits : Prop :=
  Within f.baseEntries.length 0 f.link.deleteMarkers ∧
    Within f.baseEntries.length 0 f.link.replaceMarkers ∧
    (∀ position ∈ f.link.replaced, position ∉ f.link.deleted) ∧
    f.link.replaced.length ≤ f.entries.length

/-- The paths: those of the shared entries that are not deleted, and of the entries behind those for
what is replaced. -/
def paths : List (List UInt8) :=
  keptPaths f.link.deleted (f.baseEntries.map IndexEntry.path) ++
    (f.entries.map IndexEntry.path).drop f.link.replaced.length

instance : Decidable f.Fits := inferInstanceAs (Decidable (_ ∧ _ ∧ _ ∧ _))

/-- The shared entries are merged with those of the split index. -/
lemma mergeSplit_eq (hsplit : f.split.length < 2 ^ 64) (hbase : f.base.length < 2 ^ 64) :
    mergeSplit f.split f.base ⟨f.link.base, f.link.deleteBytes, f.link.replaceBytes⟩ =
      if f.Fits then some (f.paths.foldl insertPath []) else none := by
  have hbaseWalk := walkEntries_encodeIndex f.baseVersion_ge f.baseVersion_le f.baseEntries_lt hbase
  have hsplitWalk := walkEntries_encodeIndex f.version_ge f.version_le f.entries_lt hsplit
  have hbaseHeader := indexHeader_encodeIndex f.baseVersion_ge f.baseVersion_le f.baseEntries_lt
    (encodeExtensions f.baseExtensions ++ f.link.base)
  have hsplitHeader := indexHeader_encodeIndex f.version_ge f.version_le f.entries_lt
    (encodeExtensions f.before ++ (f.linkExtension.encode ++ f.behind))
  have hcapacity := entryCapacity_encodeIndex f.baseVersion f.baseEntries
    (encodeExtensions f.baseExtensions ++ f.link.base)
  rw [← base] at hbaseWalk hbaseHeader hcapacity
  rw [← split] at hsplitWalk hsplitHeader
  have hid : f.base.drop (f.base.length - f.link.base.length) = f.link.base := by
    have hlen : f.base.length - f.link.base.length =
        (encodeIndex f.baseVersion f.baseEntries ++ encodeExtensions f.baseExtensions).length := by
      rw [base, ← append_assoc, length_append, Nat.add_sub_cancel]
    rw [hlen, base, ← append_assoc, drop_left]
  have hle : f.link.base.length ≤ f.base.length := by
    rw [base, length_append, length_append]
    omega
  have hmiss : extension f.base (encodeIndex f.baseVersion f.baseEntries).length LINK = none := by
    have hdrop : f.base.drop (encodeIndex f.baseVersion f.baseEntries).length =
        encodeExtensions f.baseExtensions ++ f.link.base := by
      rw [base, drop_left]
    exact extension_miss hdrop f.baseExtensions_ne f.link.base_length
  rw [mergeSplit, if_neg (by rw [not_or, not_lt, not_not]; exact ⟨hle, hid⟩), hbaseHeader]
  simp only [bind_eq_bind, bind_some, hcapacity, min_self, Link.readEwah_delete,
    Link.readEwah_replace, hsplitHeader, hbaseWalk, hsplitWalk, hmiss, isSome_none,
    Bool.false_eq_true, if_false]
  by_cases hdelete : Within f.baseEntries.length 0 f.link.deleteMarkers
  swap
  · rw [if_neg fun h => hdelete h.1, if_neg fun h : f.Fits => hdelete h.1]
    rfl
  rw [if_pos ⟨hdelete, fun _ _ => trivial⟩, bind_some]
  by_cases hreplace : Within f.baseEntries.length 0 f.link.replaceMarkers ∧
      ∀ bit ∈ f.link.replaced, bit ∉ f.link.deleted
  swap
  · rw [if_neg fun h => hreplace ⟨h.1, fun bit hbit => of_decide_eq_true (h.2 bit hbit)⟩,
      if_neg fun h : f.Fits => hreplace ⟨h.2.1, h.2.2.1⟩]
    rfl
  rw [if_pos ⟨hreplace.1, fun bit hbit => decide_eq_true (hreplace.2 bit hbit)⟩, bind_some]
  by_cases hcount : f.link.replaced.length ≤ f.entries.length
  swap
  · rw [if_pos (not_le.mp hcount), if_neg fun h : f.Fits => hcount h.2.2.2]
    rfl
  rw [if_neg (not_lt.mpr hcount),
    if_pos (show f.Fits from ⟨hdelete, hreplace.1, hreplace.2, hcount⟩), paths, keptPaths]
  -- every position is one of the shared entries
  have hkept : ((f.baseEntries.map IndexEntry.path).zipIdx.filter fun entry =>
      decide (entry.2 < f.baseEntries.length ∧ entry.2 ∉ f.link.deleted)) =
      (f.baseEntries.map IndexEntry.path).zipIdx.filter fun entry =>
        decide (entry.2 ∉ f.link.deleted) := by
    refine filter_congr fun entry hentry => decide_eq_decide.mpr (and_iff_right ?_)
    have hlt := (mem_zipIdx' hentry).1
    rwa [length_map] at hlt
  rw [hkept]

/-- **The paths of a split index**, if its bitmaps fit the entries. -/
theorem parseIndexWith_split (hsplit : f.split.length < 2 ^ 64) (hbase : f.base.length < 2 ^ 64)
    {shared : List UInt8 → Option (List UInt8)} (hshared : shared (hex f.link.base) = some f.base) :
    parseIndexWith f.split shared =
      if f.Fits then some (f.paths.foldl insertPath []) else none := by
  have hwalk := walkEntries_encodeIndex f.version_ge f.version_le f.entries_lt hsplit
  rw [← split] at hwalk
  have hdrop : f.split.drop (encodeIndex f.version f.entries).length =
      encodeExtensions f.before ++ (f.linkExtension.encode ++ f.behind) := by
    rw [split, drop_left]
  have hlink := extension_hit hdrop f.before_ne f.behind_length
  change extension f.split _ LINK = some f.link.encode at hlink
  rw [parseIndexWith, hwalk]
  dsimp only
  rw [hlink]
  dsimp only
  rw [linkedPaths, f.link.parse_encode]
  dsimp only
  rw [f.link.base_ne, if_neg Bool.false_ne_true, hshared]
  exact f.mergeSplit_eq hsplit hbase

end SplitFiles

/-- An index of version 4 with a path of which 2 to the 64 bytes are stripped, though none is before
it. -/
def wrappingIndex : List UInt8 :=
  SIGNATURE ++ (toBE 4 4 ++ (toBE 4 1 ++ (List.replicate 62 0 ++ (write (2 ^ 64) ++ [0x61, 0]))))

end Tgrep.GitIndex
