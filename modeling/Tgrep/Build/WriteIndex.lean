import Tgrep.Build.Layout
import Tgrep.Data.FinMap

/-!
# Writing an index from an inverted map

The builder checks the free space of the destination, writes the posting lists in trigram order
and then the file table.

## Main definitions

* `Destination`, `checkDiskSpace`: where an index is written, and the check of the space there.
* `writeIndexFiles`, `writeIndexFromSnapshot`: write the files from an inverted map.

## Main results

* `writeIndexFiles_layout`: the files written are those of the layout of the map's entries.
* `writeIndexFiles_ok`: they are written if there is enough space.

## Implementation notes

The metadata file is left out: no query reads it.
-/

namespace Tgrep

open Loops List

/-! ## Disk space -/

/-- Space kept free beyond what an index needs. -/
def BUILD_DISK_HEADROOM_BYTES : ℕ := 64 * 1024 * 1024

/-- Space charged for each path. -/
def BUILD_DISK_BYTES_PER_PATH : ℕ := 1024

/-- The directory where an index is written, with the free space that a probe finds there. -/
structure Destination where
  /-- The directory. -/
  dir : String
  /-- The answer of the probe. -/
  available : Except String UInt64

/-- A size estimate must fit in 64 bits. -/
def checkedDiskBytes (bytes : ℕ) : Except Error ℕ :=
  if bytes < 2 ^ 64 then .ok bytes
  else .error (.io "index build disk-space estimate exceeds u64 bytes")

/-- Compare the space that is required with the space that the probe finds. -/
def checkAvailable (d : Destination) (required : ℕ) : Except Error Unit :=
  match d.available with
  | .error error =>
    let dir := d.dir
    .error (.io s!"cannot check available disk space at {dir}: {error}")
  | .ok available =>
    if available.toNat < required then
      let dir := d.dir
      .error (.io s!"insufficient free disk space at {dir}: index build needs an estimated {required} bytes, but only {available} bytes are available; free disk space or use --index-path on another volume")
    else .ok ()

/-- Check that the destination has room for a payload and a number of paths. -/
def checkDiskSpace (d : Destination) (payloadBytes paths : ℕ) : Except Error Unit := do
  let pathBytes ← checkedDiskBytes (paths * BUILD_DISK_BYTES_PER_PATH)
  let required ← checkedDiskBytes (payloadBytes + pathBytes + BUILD_DISK_HEADROOM_BYTES)
  checkAvailable d required

/-- The size of `index.bin` and `lookup.bin`. -/
def indexPayloadDiskBytes (postings trigrams : ℕ) : Except Error ℕ := do
  let postings ← checkedDiskBytes (postings * POSTING_ENTRY_SIZE)
  let lookup ← checkedDiskBytes (trigrams * LOOKUP_ENTRY_SIZE)
  checkedDiskBytes (postings + lookup)

variable {n : ℕ} {d : Destination} {inverted : FinMap UInt32 (List PostingEntry)}

/-- A checked estimate is the estimate, and fits in 64 bits. -/
lemma checkedDiskBytes_eq_ok {bytes : ℕ} :
    checkedDiskBytes bytes = .ok n ↔ bytes < 2 ^ 64 ∧ bytes = n := by
  rw [checkedDiskBytes]
  split_ifs with h
  · exact ⟨fun heq => ⟨h, Except.ok.inj heq⟩, fun heq => congrArg Except.ok heq.2⟩
  · exact ⟨fun heq => (by cases heq), fun heq => absurd heq.1 h⟩

/-- The payload of an index, if it is small enough. -/
lemma indexPayloadDiskBytes_eq_ok {postings trigrams : ℕ} :
    indexPayloadDiskBytes postings trigrams = .ok n ↔
      n < 2 ^ 64 ∧ postings * POSTING_ENTRY_SIZE + trigrams * LOOKUP_ENTRY_SIZE = n := by
  simp only [indexPayloadDiskBytes, bind_eq_ok, checkedDiskBytes_eq_ok]
  constructor
  · rintro ⟨_, ⟨-, rfl⟩, _, ⟨-, rfl⟩, hlt, rfl⟩
    exact ⟨hlt, rfl⟩
  · rintro ⟨hlt, rfl⟩
    exact ⟨_, ⟨by omega, rfl⟩, _, ⟨by omega, rfl⟩, hlt, rfl⟩

/-- The space that an index needs. -/
def requiredDiskBytes (payloadBytes paths : ℕ) : ℕ :=
  payloadBytes + paths * BUILD_DISK_BYTES_PER_PATH + BUILD_DISK_HEADROOM_BYTES

/-- The check passes if there is enough space. -/
lemma checkDiskSpace_ok {payloadBytes paths : ℕ} {available : UInt64}
    (hd : d.available = .ok available)
    (hle : requiredDiskBytes payloadBytes paths ≤ available.toNat) :
    checkDiskSpace d payloadBytes paths = .ok () := by
  have hlt := available.toNat_lt
  rw [requiredDiskBytes] at hle
  have hpaths : paths * BUILD_DISK_BYTES_PER_PATH < 2 ^ 64 := by omega
  have hall : payloadBytes + paths * BUILD_DISK_BYTES_PER_PATH + BUILD_DISK_HEADROOM_BYTES <
      2 ^ 64 := by omega
  refine bind_eq_ok.mpr ⟨_, checkedDiskBytes_eq_ok.mpr ⟨hpaths, rfl⟩,
    bind_eq_ok.mpr ⟨_, checkedDiskBytes_eq_ok.mpr ⟨hall, rfl⟩, ?_⟩⟩
  rw [checkAvailable, hd]
  exact if_neg (not_lt.mpr hle)

/-! ## The files -/

/-- The number of postings of an inverted map. -/
def countPostings (inverted : FinMap UInt32 (List PostingEntry)) : Except Error ℕ :=
  (inverted.toList.map Prod.snd).foldlM
    (fun total entries => checkedDiskBytes (total + entries.length)) 0

/-- Write the posting list of a trigram. The length field holds the low 32 bits of the length. -/
def writePostingList (inverted : FinMap UInt32 (List PostingEntry)) (w : IndexWriter)
    (tri : UInt32) : Except Error IndexWriter :=
  let postingList := (inverted.get? tri).getD []
  let length := UInt32.ofNat postingList.length
  w.append tri length fun f => writePostingEntries f postingList

/-- Write the index files from an inverted map; file ids are assigned to the paths by position. -/
def writeIndexFiles (d : Destination) (paths : List String)
    (inverted : FinMap UInt32 (List PostingEntry)) : Except Error IndexFiles := do
  let postingCount ← countPostings inverted
  let payload ← indexPayloadDiskBytes postingCount inverted.keys.card
  checkDiskSpace d payload paths.length
  let sortedTrigrams := inverted.keys.sort
  let w ← sortedTrigrams.foldlM (writePostingList inverted) IndexWriter.create
  let result ← w.finish
  let files ← writeFileTable paths
  .ok ⟨result.1, result.2.1, files⟩

/-- Write a snapshot. -/
def writeIndexFromSnapshot (d : Destination)
    (snapshot : List String × FinMap UInt32 (List PostingEntry)) : Except Error IndexFiles :=
  writeIndexFiles d snapshot.1 snapshot.2

/-- Adding up lengths gives their sum, if it is small enough. -/
lemma foldlM_checkedDiskBytes {α : Type} (lists : List (List α)) {total : ℕ}
    (htotal : total < 2 ^ 64) :
    lists.foldlM (fun total entries => checkedDiskBytes (total + entries.length)) total = .ok n ↔
      n < 2 ^ 64 ∧ total + lists.flatten.length = n := by
  induction lists generalizing total with
  | nil =>
    rw [foldlM_nil, flatten_nil, length_nil, add_zero]
    constructor
    · intro h
      cases h
      exact ⟨htotal, rfl⟩
    · rintro ⟨-, rfl⟩
      rfl
  | cons entries lists ih =>
    rw [foldlM_cons, bind_eq_ok, flatten_cons, length_append, ← add_assoc]
    constructor
    · rintro ⟨total', htotal', hrest⟩
      obtain ⟨hlt, rfl⟩ := checkedDiskBytes_eq_ok.mp htotal'
      exact (ih hlt).mp hrest
    · intro h
      have hlt : total + entries.length < 2 ^ 64 := by omega
      exact ⟨_, checkedDiskBytes_eq_ok.mpr ⟨hlt, rfl⟩, (ih hlt).mpr h⟩

/-- The number of postings, if it is small enough. -/
lemma countPostings_eq :
    countPostings inverted = .ok n ↔
      n < 2 ^ 64 ∧ (inverted.toList.flatMap Prod.snd).length = n := by
  rw [countPostings, foldlM_checkedDiskBytes _ (by decide), zero_add, flatMap_def]

/-- The loop over the sorted trigrams is one over the entries of the map. -/
lemma foldlM_writePostingList (inverted : FinMap UInt32 (List PostingEntry)) (w : IndexWriter) :
    inverted.keys.sort.foldlM (writePostingList inverted) w =
      inverted.toList.foldlM IndexWriter.appendGroup w := by
  have hstep : writePostingList inverted = fun w tri =>
      w.append tri (UInt32.ofNat ((inverted.get? tri).getD []).length) fun f =>
        f.writeAll (postingCodec.encodeAll ((inverted.get? tri).getD [])) := by
    funext w tri
    simp only [writePostingList, writePostingEntries_eq]
  rw [inverted.toList_eq_map [], foldlM_map, hstep]
  rfl

/-- **What a successful write leaves**: the encodings of the map's entries and their lookup table,
and the file table. All sizes fit in 64 bits. -/
theorem writeIndexFiles_layout {paths : List String} {f : IndexFiles}
    (hlen : ∀ g ∈ inverted.toList, g.2.length < 2 ^ 32)
    (hwrite : writeIndexFiles d paths inverted = .ok f) :
    groupsSize inverted.toList < 2 ^ 64 ∧
      f.lookup = lookupCodec.encodeAll (lookupEntries 0 inverted.toList) ∧
      f.index = postingCodec.encodeAll (inverted.toList.flatMap Prod.snd) ∧
      writeFileTable paths = .ok f.files := by
  rw [writeIndexFiles] at hwrite
  obtain ⟨_, -, h⟩ := bind_eq_ok.mp hwrite
  obtain ⟨_, -, h⟩ := bind_eq_ok.mp h
  obtain ⟨_, -, h⟩ := bind_eq_ok.mp h
  obtain ⟨w, hw, h⟩ := bind_eq_ok.mp h
  obtain ⟨result, hresult, h⟩ := bind_eq_ok.mp h
  obtain ⟨files, hfiles, h⟩ := bind_eq_ok.mp h
  cases h
  rw [foldlM_writePostingList] at hw
  have hholds := IndexWriter.appendGroups_holds hlen hw
  rw [hholds.finish hresult]
  exact ⟨hholds.size_lt, rfl, rfl, hfiles⟩

/-- **An index that is written opens**, and the reader returns the entries of the map. -/
theorem Layout.openReader_of_writeIndexFiles (l : Layout) {f : IndexFiles}
    (hgroups : l.groups = inverted.toList) (hwrite : writeIndexFiles d l.paths inverted = .ok f) :
    ∃ r, IndexReader.openReader f = .ok r ∧ l.Opened r := by
  obtain ⟨-, hlookup, hindex, hfiles⟩ :=
    writeIndexFiles_layout (fun g hg => l.length_lt g (hgroups ▸ hg)) hwrite
  obtain ⟨r, hopen, hr⟩ := l.openReader_files hfiles
  have hf : f = ⟨l.lookupBytes, l.indexBytes, f.files⟩ := by
    rw [Layout.lookupBytes, Layout.indexBytes, hgroups, ← hlookup, ← hindex]
  exact ⟨r, hf ▸ hopen, hr⟩

/-- **An index is written if there is enough space for it.** -/
theorem writeIndexFiles_ok {paths : List String} {available : UInt64}
    (hlen : ∀ g ∈ inverted.toList, g.2.length < 2 ^ 32) (hpaths : ∀ p ∈ paths, Storable p)
    (hd : d.available = .ok available) (hspace : requiredDiskBytes (groupsSize inverted.toList +
      inverted.keys.card * LOOKUP_ENTRY_SIZE) paths.length ≤ available.toNat) :
    ∃ f, writeIndexFiles d paths inverted = .ok f := by
  have hlt := available.toNat_lt
  have hsmall : groupsSize inverted.toList + inverted.keys.card * LOOKUP_ENTRY_SIZE < 2 ^ 64 := by
    rw [requiredDiskBytes] at hspace
    omega
  have hsize : groupsSize inverted.toList < 2 ^ 64 := by omega
  have hcount : (inverted.toList.flatMap Prod.snd).length < 2 ^ 64 := by
    rw [groupsSize, POSTING_ENTRY_SIZE] at hsize
    omega
  have hlookup : inverted.toList.length * LOOKUP_ENTRY_SIZE < 2 ^ 64 := by
    rw [inverted.length_toList]
    omega
  obtain ⟨w, hw, hholds⟩ := IndexWriter.appendGroups_ok hlen hlookup hsize
  obtain ⟨result, hresult⟩ := IndexWriter.finish_ok hholds hlookup
  obtain ⟨records, hrecords, -⟩ :=
    @decodeFileEntries_writeFileEntries (fileEntries paths) fun e he => by
      obtain ⟨i, hi, -⟩ := mem_fileEntries.mp he
      exact hpaths _ (mem_of_getElem? hi)
  have hfiles : writeFileTable paths = .ok (fileTableHeader ++ records) := by
    rw [writeFileTable, hrecords]
    rfl
  refine ⟨⟨result.1, result.2.1, fileTableHeader ++ records⟩, ?_⟩
  refine bind_eq_ok.mpr ⟨_, countPostings_eq.mpr ⟨hcount, rfl⟩, ?_⟩
  refine bind_eq_ok.mpr ⟨_, indexPayloadDiskBytes_eq_ok.mpr ⟨hsmall, rfl⟩, ?_⟩
  refine bind_eq_ok.mpr ⟨(), checkDiskSpace_ok hd hspace, ?_⟩
  refine bind_eq_ok.mpr ⟨w, (foldlM_writePostingList inverted _).trans hw, ?_⟩
  exact bind_eq_ok.mpr ⟨result, hresult, bind_eq_ok.mpr ⟨_, hfiles, rfl⟩⟩

end Tgrep
