import Tgrep.Hybrid.Snapshot

/-!
# Merging a delta into an index

Two sorted lookup tables are walked with one cursor each. The files of the index that are kept are
renumbered densely, those of the delta follow them, and the posting lists of both are written one
after the other. Without removed files the reader's postings are copied as they are.

## Main definitions

* `MergeInput.mergeTrigrams`, `mergeIndexWithDelta`: the loop over both lookup tables, and the
  merge.
* `MergeInput.groups`: the merged posting lists.
* `IndexReader.Contiguous`: the postings of the lookup entries tile `index.bin` in order.
* `MergedFrom`: what a merged index says.

## Main results

* `MergeInput.Sound.mergeTrigrams_eq`: the loop walks the outer join of both lookup tables.
* `mergeIndexWithDeltaBy_appendOnly`: copying the reader's postings gives the same bytes as
  renumbering them.
* `mergeIndexWithDelta_exact`: the merged index says what the delta says about the delta's files,
  and what the index said about the files that are kept.

## Implementation notes

The copy of the reader's postings is a parameter of the inner definitions, so that the two paths
can be compared. The metadata file is left out.
-/

namespace Tgrep

open List Loops Ascending IndexReader UInt32

open HybridIndex (DROPPED remapEntry)

/-! ## File ids -/

/-- Number the next path of the reader, unless it is removed. -/
def numberReaderPath (removed : Finset String) (s : UInt32 × List UInt32) (path : String) :
    Except Error (UInt32 × List UInt32) :=
  if path ∈ removed then .ok (s.1, s.2 ++ [DROPPED])
  else if s.1 = 0xFFFFFFFF then
    .error (.indexCorrupted "file count exceeds the u32 file-id limit")
  else .ok (s.1 + 1, s.2 ++ [s.1])

/-- The number of the reader's files that are kept, and the new id of every file. -/
def readerIdMap (reader : IndexReader) (removed : Finset String) :
    Except Error (UInt32 × List UInt32) :=
  reader.filePaths.foldlM (numberReaderPath removed) (0, [])

/-- The number of files of the merged index. -/
def mergedFileCount (deltaBase : UInt32) (delta : IndexReader) : Except Error ℕ :=
  let totalFiles := deltaBase.toNat + delta.numFiles
  if 2 ^ 64 ≤ totalFiles then .error (.indexCorrupted "file count overflow")
  else if 2 ^ 32 ≤ totalFiles then
    .error (.indexCorrupted "file count exceeds the u32 file-id limit")
  else .ok totalFiles

/-- The size of the mapped sections of a reader. -/
def IndexReader.mappedBytes (r : IndexReader) : ℕ :=
  (r.lookup.getD []).length + (r.postings.getD []).length

/-! ## Posting lists -/

/-- Count a posting unless its file is dropped. -/
def countKept (trigram : UInt32) (ids : List UInt32) (n : ℕ) (e : PostingEntry) : Except Error ℕ :=
  match ids[e.fileId.toNat]? with
  | none =>
    let oldId := e.fileId
    .error (.indexCorrupted
      s!"posting for trigram {trigram} references missing file id {oldId}")
  | some newId => .ok (n + if newId ≠ DROPPED then 1 else 0)

/-- The number of postings that are left of a posting list of the reader. -/
def keptLength (appendOnly : Bool) (trigram : UInt32) (ids : List UInt32) :
    Option (List UInt8) → Except Error ℕ
  | none => .ok 0
  | some bytes =>
    if appendOnly then .ok (bytes.length / POSTING_ENTRY_SIZE)
    else (postingCodec.decodeAll bytes).foldlM (countKept trigram ids) 0

/-- The length field of a merged posting list. -/
def mergedLength (trigram : UInt32) (readerLen deltaLen : ℕ) : Except Error UInt32 :=
  if 2 ^ 64 ≤ readerLen + deltaLen then .error (.indexCorrupted "posting list length overflow")
  else if 2 ^ 32 ≤ readerLen + deltaLen then
    .error (.indexCorrupted s!"posting list for trigram {trigram} exceeds the u32 length limit")
  else .ok (UInt32.ofNat (readerLen + deltaLen))

/-- The pieces in which raw postings are read. -/
def rawChunks (bytes : List UInt8) : List (List PostingEntry) :=
  (Loops.chunks (POSTING_WRITE_CHUNK_ENTRIES * POSTING_ENTRY_SIZE) bytes).map
    postingCodec.decodeAll

/-- Write the postings of the reader: as they are, or renumbered. -/
def writeReaderPostings (appendOnly : Bool) (ids : List UInt32) (f : OutputFile) :
    Option (List UInt8) → Except Error OutputFile
  | none => .ok f
  | some bytes =>
    if appendOnly then f.writeAll bytes
    else (rawChunks bytes).foldlM
      (fun f chunk => f.writeAll (postingCodec.encodeAll (chunk.filterMap (remapEntry ids)))) f

/-- A posting of the delta with its new id. -/
def deltaPosting (deltaBase : UInt32) (delta : IndexReader) (e : PostingEntry) :
    Except Error PostingEntry :=
  if delta.numFiles ≤ e.fileId.toNat then
    let fileId := e.fileId
    .error (.indexCorrupted s!"delta posting references missing file id {fileId}")
  else if 2 ^ 32 ≤ deltaBase.toNat + e.fileId.toNat then
    .error (.indexCorrupted "delta file id overflow beyond u32")
  else .ok { e with fileId := deltaBase + e.fileId }

/-- Write the postings of the delta, renumbered. -/
def writeDeltaPostings (deltaBase : UInt32) (delta : IndexReader) (f : OutputFile) :
    Option (List UInt8) → Except Error OutputFile
  | none => .ok f
  | some bytes =>
    (rawChunks bytes).foldlM (fun f chunk => do
      let out ← chunk.mapM (deltaPosting deltaBase delta)
      f.writeAll (postingCodec.encodeAll out)) f

/-! ## The merge -/

/-- What does not change during a merge. -/
structure MergeInput where
  /-- Copy the reader's postings as they are. -/
  appendOnly : Bool
  /-- The index. -/
  reader : IndexReader
  /-- The delta. -/
  delta : IndexReader
  /-- The new id of every reader file. -/
  ids : List UInt32
  /-- The first id of the delta's files. -/
  deltaBase : UInt32

namespace MergeInput

/-- Write the merged posting list of a trigram, unless it is empty. -/
def writeTrigram (m : MergeInput) (w : IndexWriter) (trigram : UInt32)
    (readerBytes deltaBytes : Option (List UInt8)) : Except Error IndexWriter := do
  let readerLen ← keptLength m.appendOnly trigram m.ids readerBytes
  let deltaLen := deltaBytes.elim 0 fun bytes => bytes.length / POSTING_ENTRY_SIZE
  let length ← mergedLength trigram readerLen deltaLen
  if length = 0 then .ok w
  else w.append trigram length fun f => do
    let f ← writeReaderPostings m.appendOnly m.ids f readerBytes
    writeDeltaPostings m.deltaBase m.delta f deltaBytes

/-- The reader's next trigram with its postings. -/
def readerNext (m : MergeInput) (ri : ℕ) : Except Error (Option (UInt32 × List UInt8)) :=
  if ri < m.reader.numTrigrams then
    match m.reader.nthTrigramRaw ri with
    | some next => .ok (some next)
    | none =>
      let count := m.reader.numTrigrams
      .error (.indexCorrupted s!"reader trigram entry {ri} of {count} has unreadable postings")
  else .ok none

/-- The delta's next trigram with its postings. -/
def deltaNext (m : MergeInput) (di : ℕ) : Except Error (Option (UInt32 × List UInt8)) :=
  if di < m.delta.numTrigrams then
    match m.delta.nthTrigramRaw di with
    | some next => .ok (some next)
    | none =>
      let count := m.delta.numTrigrams
      .error (.indexCorrupted s!"delta trigram entry {di} of {count} has unreadable postings")
  else .ok none

/-- What is merged next: the trigram, and the postings of each side that has it. -/
abbrev Next := UInt32 × Option (List UInt8) × Option (List UInt8)

/-- The side with the smaller trigram is next, or both if the trigrams are equal. -/
def choose : Option (UInt32 × List UInt8) → Option (UInt32 × List UInt8) → Option Next
  | some (rt, rbytes), some (dt, dbytes) =>
    if rt < dt then some (rt, some rbytes, none)
    else if dt < rt then some (dt, none, some dbytes)
    else some (rt, some rbytes, some dbytes)
  | some (rt, rbytes), none => some (rt, some rbytes, none)
  | none, some (dt, dbytes) => some (dt, none, some dbytes)
  | none, none => none

/-- What the two cursors point at. -/
def next (m : MergeInput) (ri di : ℕ) : Except Error (Option Next) := do
  let readerNext ← m.readerNext ri
  let deltaNext ← m.deltaNext di
  .ok (choose readerNext deltaNext)

/-- The cursor of a side advances if its postings are merged. -/
def advance (i : ℕ) (bytes : Option (List UInt8)) : ℕ := if bytes.isSome then i + 1 else i

/-- What is merged next was pointed at by a cursor. -/
lemma next_eq_some {m : MergeInput} {ri di : ℕ} {n : Next} (h : m.next ri di = .ok (some n)) :
    (n.2.1.isSome → ri < m.reader.numTrigrams) ∧ (n.2.2.isSome → di < m.delta.numTrigrams) ∧
      (n.2.1.isSome ∨ n.2.2.isSome) := by
  obtain ⟨a, ha, hrest⟩ := bind_eq_ok.mp h
  obtain ⟨b, hb, heq⟩ := bind_eq_ok.mp hrest
  have hchoose : choose a b = some n := Except.ok.inj heq
  have hreader : a.isSome → ri < m.reader.numTrigrams := by
    intro hsome
    by_contra hge
    rw [readerNext, if_neg hge] at ha
    cases ha
    cases hsome
  have hdelta : b.isSome → di < m.delta.numTrigrams := by
    intro hsome
    by_contra hge
    rw [deltaNext, if_neg hge] at hb
    cases hb
    cases hsome
  obtain _ | ⟨rt, rbytes⟩ := a
  all_goals obtain _ | ⟨dt, dbytes⟩ := b
  · cases hchoose
  · cases hchoose
    exact ⟨nofun, fun _ => hdelta rfl, .inr rfl⟩
  · cases hchoose
    exact ⟨fun _ => hreader rfl, nofun, .inl rfl⟩
  · rw [choose] at hchoose
    split_ifs at hchoose
    all_goals cases hchoose
    · exact ⟨fun _ => hreader rfl, nofun, .inl rfl⟩
    · exact ⟨nofun, fun _ => hdelta rfl, .inr rfl⟩
    · exact ⟨fun _ => hreader rfl, fun _ => hdelta rfl, .inl rfl⟩

/-- The loop over both lookup tables. -/
def mergeTrigrams (m : MergeInput) (ri di : ℕ) (w : IndexWriter) : Except Error IndexWriter :=
  if ri < m.reader.numTrigrams ∨ di < m.delta.numTrigrams then
    match _h : m.next ri di with
    | .error e => .error e
    | .ok none => .ok w
    | .ok (some (trigram, readerBytes, deltaBytes)) =>
      match m.writeTrigram w trigram readerBytes deltaBytes with
      | .error e => .error e
      | .ok w => m.mergeTrigrams (advance ri readerBytes) (advance di deltaBytes) w
  else .ok w
termination_by (m.reader.numTrigrams - ri) + (m.delta.numTrigrams - di)
decreasing_by
  obtain ⟨hr, hd, hone⟩ := next_eq_some _h
  simp only [advance]
  split_ifs with h1 h2 h2
  · have := hr h1
    omega
  · have := hr h1
    omega
  · have := hd h2
    omega
  · exact absurd hone (by simp [h1, h2])

end MergeInput

/-- The merge, with the choice whether the reader's postings are copied as they are. -/
def mergeIndexWithDeltaBy (appendOnly : Bool) (d : Destination) (reader delta : IndexReader)
    (removedPaths : Finset String) : Except Error IndexFiles := do
  let numbered ← readerIdMap reader removedPaths
  let totalFiles ← mergedFileCount numbered.1 delta
  let payload ← checkedDiskBytes (reader.mappedBytes + delta.mappedBytes)
  checkDiskSpace d payload totalFiles
  let w ← MergeInput.mergeTrigrams ⟨appendOnly, reader, delta, numbered.2, numbered.1⟩ 0 0 .create
  let result ← w.finish
  let files ← writeFileTable (reader.filePaths.filter (· ∉ removedPaths) ++ delta.filePaths)
  .ok ⟨result.1, result.2.1, files⟩

/-- Merge replacements and deletions into an index. -/
def mergeIndexWithDelta (d : Destination) (reader delta : IndexReader)
    (removedPaths : Finset String) : Except Error IndexFiles :=
  mergeIndexWithDeltaBy (decide (removedPaths = ∅)) d reader delta removedPaths

/-! ## File ids of a merge -/

/-- The reader files that are kept. -/
def keptPath (removed : Finset String) (path : String) : Bool := decide (path ∉ removed)

/-- The paths of the merged index. -/
def mergedPaths (reader delta : IndexReader) (removed : Finset String) : List String :=
  reader.filePaths.filter (keptPath removed) ++ delta.filePaths

/-- The new ids of the reader's files. -/
def keptIds (paths : List String) (removed : Finset String) : List UInt32 :=
  (Compact.idMap (keptPath removed) paths).map fun j => j.elim DROPPED UInt32.ofNat

/-- Numbering the reader's files compacts the file table, unless too many are kept. -/
lemma readerIdMap_eq (reader : IndexReader) (removed : Finset String) :
    readerIdMap reader removed =
      if (reader.filePaths.filter (keptPath removed)).length < 2 ^ 32 then
        .ok (UInt32.ofNat (reader.filePaths.filter (keptPath removed)).length,
          keptIds reader.filePaths removed)
      else .error (.indexCorrupted "file count exceeds the u32 file-id limit") := by
  have hloop : ∀ (l : List String) (n : ℕ) (ids : List UInt32), n < 2 ^ 32 →
      l.foldlM (numberReaderPath removed) (UInt32.ofNat n, ids) =
        if n + (l.filter (keptPath removed)).length < 2 ^ 32 then
          .ok (UInt32.ofNat (n + (l.filter (keptPath removed)).length),
            ids ++ (Compact.idMapFrom (keptPath removed) n l).map fun j =>
              j.elim DROPPED UInt32.ofNat)
        else .error (.indexCorrupted "file count exceeds the u32 file-id limit") := by
    intro l
    induction l with
    | nil =>
      intro n ids hn
      rw [filter_nil, length_nil, add_zero, if_pos hn, Compact.idMapFrom, map_nil, append_nil]
      rfl
    | cons path l ih =>
      intro n ids hn
      rw [foldlM_cons, numberReaderPath, Compact.idMapFrom]
      by_cases hmem : path ∈ removed
      · have hkeep : keptPath removed path = false := by simp [keptPath, hmem]
        rw [if_pos hmem, filter_cons_of_neg (by simp [hkeep]), hkeep]
        change l.foldlM (numberReaderPath removed) _ = _
        rw [ih n _ hn]
        simp
      · have hkeep : keptPath removed path = true := by simp [keptPath, hmem]
        rw [if_neg hmem, filter_cons_of_pos hkeep, length_cons, hkeep]
        by_cases hlast : n + 1 < 2 ^ 32
        · have hne : UInt32.ofNat n ≠ 0xFFFFFFFF := by
            intro heq
            have := congrArg UInt32.toNat heq
            rw [UInt32.toNat_ofNat_of_lt' hn, show (0xFFFFFFFF : UInt32).toNat = 2 ^ 32 - 1 from rfl]
              at this
            omega
          rw [if_neg hne]
          change l.foldlM (numberReaderPath removed) _ = _
          have hsucc : UInt32.ofNat n + 1 = UInt32.ofNat (n + 1) := by simp
          rw [hsucc, ih (n + 1) _ hlast, add_assoc, Nat.add_comm 1]
          simp
        · have heq : UInt32.ofNat n = 0xFFFFFFFF := by
            rw [← UInt32.toNat_inj, UInt32.toNat_ofNat_of_lt' hn,
              show (0xFFFFFFFF : UInt32).toNat = 2 ^ 32 - 1 from rfl]
            omega
          rw [if_pos heq, if_neg (by omega)]
          rfl
  have h := hloop reader.filePaths 0 [] (by decide)
  simp only [zero_add, nil_append] at h
  exact h

/-- The merged file table is counted, unless there are too many files. -/
lemma mergedFileCount_eq {reader delta : IndexReader} {removed : Finset String}
    (hkept : (reader.filePaths.filter (keptPath removed)).length < 2 ^ 32) :
    mergedFileCount (UInt32.ofNat (reader.filePaths.filter (keptPath removed)).length) delta =
      if (mergedPaths reader delta removed).length < 2 ^ 32 then
        .ok (mergedPaths reader delta removed).length
      else .error (.indexCorrupted "file count exceeds the u32 file-id limit") := by
  have hdelta := delta.files_le
  rw [mergedFileCount, toNat_ofNat_of_lt' hkept, mergedPaths, length_append,
    numFiles, if_neg (by omega)]
  split_ifs
  · omega
  · rfl
  · rfl
  · omega

/-! ## Posting lists of a merge -/

/-- Raw postings are read in chunks of whole postings. -/
lemma rawChunks_encodeAll (ps : List PostingEntry) :
    rawChunks (postingCodec.encodeAll ps) = Loops.chunks POSTING_WRITE_CHUNK_ENTRIES ps := by
  have hpos : 0 < POSTING_WRITE_CHUNK_ENTRIES := by decide
  have hpos' : 0 < POSTING_WRITE_CHUNK_ENTRIES * POSTING_ENTRY_SIZE := by decide
  rw [rawChunks]
  fun_induction chunks POSTING_WRITE_CHUNK_ENTRIES ps with
  | case1 ps h =>
    obtain rfl : ps = [] := h.resolve_right (Nat.ne_of_gt hpos)
    rw [FixedCodec.encodeAll_nil, chunks_nil, map_nil]
  | case2 ps h ih =>
    have hlen := length_pos_iff.mpr (not_or.mp h).1
    have hne : postingCodec.encodeAll ps ≠ [] := by
      intro hnil
      have := congrArg length hnil
      rw [FixedCodec.length_encodeAll, postingCodec_width, length_nil] at this
      omega
    have htake := postingCodec.take_encodeAll ps POSTING_WRITE_CHUNK_ENTRIES
    have hdrop := postingCodec.drop_encodeAll ps POSTING_WRITE_CHUNK_ENTRIES
    rw [chunks_of_ne_nil hpos' hne, map_cons]
    change postingCodec.decodeAll ((postingCodec.encodeAll ps).take
      (POSTING_WRITE_CHUNK_ENTRIES * postingCodec.width)) :: map postingCodec.decodeAll
        (chunks _ ((postingCodec.encodeAll ps).drop
          (POSTING_WRITE_CHUNK_ENTRIES * postingCodec.width))) = _
    rw [htake, hdrop, FixedCodec.decodeAll_encodeAll, ih]

/-- Changing postings chunk by chunk is changing them all. -/
lemma foldlM_chunks_filterMap (g : PostingEntry → Option PostingEntry) (f : OutputFile)
    (ps : List PostingEntry) :
    (rawChunks (postingCodec.encodeAll ps)).foldlM
      (fun f chunk => f.writeAll (postingCodec.encodeAll (chunk.filterMap g))) f =
      f.writeAll (postingCodec.encodeAll (ps.filterMap g)) := by
  rw [rawChunks_encodeAll]
  refine OutputFile.foldlM_chunks_writeAll (by decide) ?_ (fun a b => ?_) ps f
  · rw [filterMap_nil, FixedCodec.encodeAll_nil]
  · rw [filterMap_append, FixedCodec.encodeAll_append]

/-- The count of the postings that are kept. -/
lemma foldlM_countKept {t : UInt32} {ids : List UInt32} {ps : List PostingEntry}
    (hps : ∀ e ∈ ps, e.fileId.toNat < ids.length) (n : ℕ) :
    ps.foldlM (countKept t ids) n = .ok (n + (ps.filterMap (remapEntry ids)).length) := by
  induction ps generalizing n with
  | nil => rfl
  | cons e ps ih =>
    obtain ⟨he, hps⟩ := forall_mem_cons.mp hps
    have hget : ids[e.fileId.toNat]? = some ids[e.fileId.toNat] := getElem?_eq_getElem he
    rw [foldlM_cons, countKept, hget]
    change ps.foldlM (countKept t ids) _ = _
    rw [ih hps, filterMap_cons]
    by_cases hdrop : ids[e.fileId.toNat] = DROPPED
    · simp [remapEntry, hget, hdrop]
    · simp [remapEntry, hget, hdrop]
      omega

namespace MergeInput

variable (m : MergeInput)

/-- A merge of two well-formed indexes whose ids are those of the merged file table. -/
structure Sound (removed : Finset String) : Prop where
  reader : m.reader.WellFormed
  delta : m.delta.WellFormed
  ids : m.ids = keptIds m.reader.filePaths removed
  base : m.deltaBase = UInt32.ofNat (m.reader.filePaths.filter (keptPath removed)).length
  total : (mergedPaths m.reader m.delta removed).length < 2 ^ 32
  append : m.appendOnly = true → removed = ∅

/-- The reader's part of a merged posting list. -/
def readerPart (e : Option LookupEntry) : List PostingEntry :=
  (e.elim [] m.reader.postingsOf).filterMap (remapEntry m.ids)

/-- The delta's part of a merged posting list. -/
def deltaPart (e : Option LookupEntry) : List PostingEntry :=
  (e.elim [] m.delta.postingsOf).map fun p => { p with fileId := m.deltaBase + p.fileId }

/-- The merged posting list of a trigram. -/
def group (j : UInt32 × Option LookupEntry × Option LookupEntry) : PostingGroup :=
  (j.1, m.readerPart j.2.1 ++ m.deltaPart j.2.2)

variable {m} {removed : Finset String}

/-- The number of kept files fits in 32 bits. -/
lemma Sound.kept_lt (hm : m.Sound removed) :
    (m.reader.filePaths.filter (keptPath removed)).length < 2 ^ 32 := by
  have := hm.total
  rw [mergedPaths, length_append] at this
  omega

/-- A posting of the reader is renumbered to the place of its file among the kept ones. -/
lemma Sound.remapEntry_eq_some (hm : m.Sound removed) {e e' : PostingEntry} :
    remapEntry m.ids e = some e' ↔
      ∃ j, (Compact.idMap (keptPath removed) m.reader.filePaths)[e.fileId.toNat]? =
        some (some j) ∧ e' = { e with fileId := ofNat j } := by
  rw [hm.ids]
  exact HybridIndex.remapEntry_eq_some hm.kept_lt

/-- Without removed files, the reader's postings keep their ids. -/
lemma Sound.filterMap_remapEntry (hm : m.Sound removed) (happ : m.appendOnly = true)
    {ps : List PostingEntry} (hps : ∀ e ∈ ps, e.fileId.toNat < m.reader.filePaths.length) :
    ps.filterMap (remapEntry m.ids) = ps := by
  obtain rfl := hm.append happ
  have hall : m.reader.filePaths.filter (keptPath ∅) = m.reader.filePaths :=
    List.filter_eq_self.mpr fun path _ => by simp [keptPath]
  have hsame : ∀ e ∈ ps, remapEntry m.ids e = some e := by
    intro e he
    have hget := getElem?_eq_getElem (hps e he)
    have hkeep : keptPath ∅ (m.reader.filePaths.get ⟨e.fileId.toNat, hps e he⟩) = true := by
      simp [keptPath]
    obtain ⟨j, hj⟩ := Compact.exists_idMap hget hkeep
    obtain ⟨path, hpath, -, hkept⟩ := Compact.getElem?_idMap hj
    rw [hall] at hkept
    -- the file is found at its old place, and paths are distinct
    obtain ⟨hj', hjp⟩ := List.getElem?_eq_some_iff.mp hkept
    obtain ⟨hi', hip⟩ := List.getElem?_eq_some_iff.mp hpath
    have hij : e.fileId.toNat = j :=
      (List.Nodup.getElem_inj_iff hm.reader.paths_nodup).mp (hip.trans hjp.symm)
    exact hm.remapEntry_eq_some.mpr ⟨j, hj, by rw [← hij, UInt32.ofNat_toNat]⟩
  rw [filterMap_congr hsame, filterMap_some]

variable {y x : Option LookupEntry}

variable (hm : m.Sound removed)

include hm

/-- The postings of an entry of the reader name its files. -/
lemma Sound.reader_lt (hx : ∀ e ∈ x, e ∈ m.reader.entries) :
    ∀ p ∈ x.elim [] m.reader.postingsOf, p.fileId.toNat < m.reader.filePaths.length := by
  cases x with
  | none => simp
  | some e => exact hm.reader.ids_lt e (hx e rfl)

/-- The postings of an entry of the delta name its files. -/
lemma Sound.delta_lt (hy : ∀ e ∈ y, e ∈ m.delta.entries) :
    ∀ p ∈ y.elim [] m.delta.postingsOf, p.fileId.toNat < m.delta.filePaths.length := by
  cases y with
  | none => simp
  | some e => exact hm.delta.ids_lt e (hy e rfl)

/-- The count of the reader's postings. -/
lemma Sound.keptLength_eq (hx : ∀ e ∈ x, e ∈ m.reader.entries) (t : UInt32) :
    keptLength m.appendOnly t m.ids
      (x.map fun e => postingCodec.encodeAll (m.reader.postingsOf e)) =
        .ok (m.readerPart x).length := by
  have hlt := hm.reader_lt hx
  cases x with
  | none => rfl
  | some e =>
    change ∀ p ∈ m.reader.postingsOf e, _ at hlt
    change keptLength _ _ _ (some _) = .ok ((m.reader.postingsOf e).filterMap _).length
    rw [keptLength]
    split_ifs with happ
    · rw [hm.filterMap_remapEntry happ hlt, FixedCodec.length_encodeAll, postingCodec_width,
        POSTING_ENTRY_SIZE, Nat.mul_div_cancel _ (by decide)]
    · rw [FixedCodec.decodeAll_encodeAll, foldlM_countKept (by
        rwa [hm.ids, keptIds, length_map, Compact.length_idMap]), zero_add]

/-- The reader's postings are written renumbered. -/
lemma Sound.writeReaderPostings_eq (hx : ∀ e ∈ x, e ∈ m.reader.entries) (f : OutputFile) :
    writeReaderPostings m.appendOnly m.ids f
      (x.map fun e => postingCodec.encodeAll (m.reader.postingsOf e)) =
        f.writeAll (postingCodec.encodeAll (m.readerPart x)) := by
  have hlt := hm.reader_lt hx
  cases x with
  | none => exact (OutputFile.foldlM_writeAll [] f)
  | some e =>
    change ∀ p ∈ m.reader.postingsOf e, _ at hlt
    change writeReaderPostings _ _ _ (some _) = f.writeAll (postingCodec.encodeAll
      ((m.reader.postingsOf e).filterMap _))
    rw [writeReaderPostings]
    split_ifs with happ
    · rw [hm.filterMap_remapEntry happ hlt]
    · exact foldlM_chunks_filterMap _ f _

/-- A posting of the delta gets its id after those of the kept files. -/
lemma Sound.deltaPosting_eq {p : PostingEntry} (hp : p.fileId.toNat < m.delta.filePaths.length) :
    deltaPosting m.deltaBase m.delta p = .ok { p with fileId := m.deltaBase + p.fileId } := by
  have htotal := hm.total
  rw [mergedPaths, length_append] at htotal
  rw [deltaPosting, numFiles, if_neg (not_le.mpr hp), hm.base,
    toNat_ofNat_of_lt' hm.kept_lt, if_neg (by omega)]

/-- The delta's postings are written renumbered. -/
lemma Sound.writeDeltaPostings_eq (hy : ∀ e ∈ y, e ∈ m.delta.entries) (f : OutputFile) :
    writeDeltaPostings m.deltaBase m.delta f
      (y.map fun e => postingCodec.encodeAll (m.delta.postingsOf e)) =
        f.writeAll (postingCodec.encodeAll (m.deltaPart y)) := by
  have hlt := hm.delta_lt hy
  cases y with
  | none => exact (OutputFile.foldlM_writeAll [] f)
  | some e =>
    let shift (p : PostingEntry) : PostingEntry := { p with fileId := m.deltaBase + p.fileId }
    change ∀ p ∈ m.delta.postingsOf e, _ at hlt
    change writeDeltaPostings _ _ _ (some _) = f.writeAll (postingCodec.encodeAll
      ((m.delta.postingsOf e).map shift))
    have hchunk : ∀ (f : OutputFile),
        ∀ chunk ∈ rawChunks (postingCodec.encodeAll (m.delta.postingsOf e)),
        (do
          let out ← chunk.mapM (deltaPosting m.deltaBase m.delta)
          f.writeAll (postingCodec.encodeAll out)) =
        f.writeAll (postingCodec.encodeAll (chunk.filterMap fun p => some (shift p))) := by
      intro f chunk hchunk
      rw [rawChunks_encodeAll] at hchunk
      have hall : chunk.mapM (deltaPosting m.deltaBase m.delta) = .ok (chunk.map shift) :=
        mapM_eq_ok fun p hp =>
          hm.deltaPosting_eq (hlt p (mem_of_mem_chunks (by decide) hchunk hp))
      rw [hall, filterMap_eq_map']
      rfl
    rw [writeDeltaPostings, foldlM_congr hchunk, foldlM_chunks_filterMap, filterMap_eq_map']

end MergeInput

/-! ## The merge loop -/

namespace MergeInput

variable {m : MergeInput} {removed : Finset String}

/-- The raw postings of an entry of a reader. -/
def rawOf (r : IndexReader) (e : LookupEntry) : List UInt8 :=
  postingCodec.encodeAll (r.postingsOf e)

/-- What a cursor of the reader points at. -/
lemma Sound.readerNext_eq (hm : m.Sound removed) (ri : ℕ) :
    m.readerNext ri = .ok (m.reader.entries[ri]?.map fun e => (e.trigram, rawOf m.reader e)) := by
  rw [readerNext, numTrigrams, ← length_entries]
  split_ifs with hri
  · rw [hm.reader.nthTrigramRaw_eq hri, getElem?_eq_getElem hri]
    rfl
  · rw [getElem?_eq_none (not_lt.mp hri)]
    rfl

/-- What a cursor of the delta points at. -/
lemma Sound.deltaNext_eq (hm : m.Sound removed) (di : ℕ) :
    m.deltaNext di = .ok (m.delta.entries[di]?.map fun e => (e.trigram, rawOf m.delta e)) := by
  rw [deltaNext, numTrigrams, ← length_entries]
  split_ifs with hdi
  · rw [hm.delta.nthTrigramRaw_eq hdi, getElem?_eq_getElem hdi]
    rfl
  · rw [getElem?_eq_none (not_lt.mp hdi)]
    rfl

/-- What the loop has still to merge. -/
def left (m : MergeInput) (ri di : ℕ) : List (UInt32 × Option LookupEntry × Option LookupEntry) :=
  Ascending.outerJoin LookupEntry.trigram LookupEntry.trigram (m.reader.entries.drop ri)
    (m.delta.entries.drop di)

/-- Write the merged posting list of the entries of a trigram. -/
def writeJoined (m : MergeInput) (w : IndexWriter)
    (j : UInt32 × Option LookupEntry × Option LookupEntry) : Except Error IndexWriter :=
  m.writeTrigram w j.1 (j.2.1.map (rawOf m.reader)) (j.2.2.map (rawOf m.delta))

/-- What is chosen among the entries that both cursors are at is what the outer join emits first. -/
lemma choose_map (reader delta : IndexReader) (x y : Option LookupEntry) :
    choose (x.map fun e => (e.trigram, rawOf reader e)) (y.map fun e => (e.trigram, rawOf delta e)) =
      (Ascending.joinHead LookupEntry.trigram LookupEntry.trigram x y).map fun j =>
        (j.1, j.2.1.map (rawOf reader), j.2.2.map (rawOf delta)) := by
  cases x with
  | none => cases y <;> rfl
  | some a =>
    cases y with
    | none => rfl
    | some b =>
      rw [Option.map_some, Option.map_some, choose, joinHead]
      split_ifs <;> rfl

/-- What the cursors point at is the first of what is left. -/
lemma Sound.next_eq (hm : m.Sound removed) (ri di : ℕ) :
    (m.left ri di = [] ∧ m.next ri di = .ok none) ∨ ∃ t x y,
      m.left ri di = (t, x, y) :: m.left (if x.isSome then ri + 1 else ri)
        (if y.isSome then di + 1 else di) ∧
      m.next ri di = .ok (some (t, x.map (rawOf m.reader), y.map (rawOf m.delta))) := by
  have hnext : m.next ri di =
      .ok (choose (m.reader.entries[ri]?.map fun e => (e.trigram, rawOf m.reader e))
        (m.delta.entries[di]?.map fun e => (e.trigram, rawOf m.delta e))) := by
    rw [next, hm.readerNext_eq, hm.deltaNext_eq]
    rfl
  rw [hnext, choose_map, left, outerJoin_drop]
  cases joinHead LookupEntry.trigram LookupEntry.trigram m.reader.entries[ri]?
      m.delta.entries[di]? with
  | none => exact .inl ⟨rfl, rfl⟩
  | some j => exact .inr ⟨j.1, j.2.1, j.2.2, rfl, rfl⟩

/-- **The loop walks the outer join of both lookup tables.** -/
theorem Sound.mergeTrigrams_eq (hm : m.Sound removed) (ri di : ℕ) (w : IndexWriter) :
    m.mergeTrigrams ri di w = (m.left ri di).foldlM m.writeJoined w := by
  fun_induction m.mergeTrigrams ri di w with
  | case1 ri di w hgo e he =>
    rcases hm.next_eq ri di with ⟨-, hnext⟩ | ⟨t, x, y, -, hnext⟩
    all_goals
      rw [hnext] at he
      cases he
  | case2 ri di w hgo he =>
    rcases hm.next_eq ri di with ⟨hleft, -⟩ | ⟨t, x, y, -, hnext⟩
    · rw [hleft]
      rfl
    · rw [hnext] at he
      cases he
  | case3 ri di w hgo t rb db he e hw =>
    rcases hm.next_eq ri di with ⟨-, hnext⟩ | ⟨t, x, y, hleft, hnext⟩
    · rw [hnext] at he
      cases he
    · rw [hnext] at he
      cases he
      rw [hleft, foldlM_cons, writeJoined, hw]
      rfl
  | case4 ri di w hgo t rb db he w' hw ih =>
    rcases hm.next_eq ri di with ⟨-, hnext⟩ | ⟨t, x, y, hleft, hnext⟩
    · rw [hnext] at he
      cases he
    · rw [hnext] at he
      cases he
      rw [hleft, foldlM_cons, writeJoined, hw, ih]
      simp only [advance, Option.isSome_map]
      rfl
  | case5 ri di w hstop =>
    rw [numTrigrams, numTrigrams, ← length_entries,
      ← length_entries, not_or, not_lt, not_lt] at hstop
    rw [left, drop_eq_nil_of_le hstop.1, drop_eq_nil_of_le hstop.2, outerJoin]
    rfl

end MergeInput

/-! ## What is written -/

namespace MergeInput

variable {m : MergeInput} {removed : Finset String}

/-- The posting lists of the merged index. -/
def groups (m : MergeInput) : List PostingGroup :=
  ((m.left 0 0).filter fun j => !(m.group j).2.isEmpty).map m.group

/-- The ids of the reader's part are those of kept files. -/
lemma Sound.readerPart_lt (hm : m.Sound removed) {x : Option LookupEntry} {p : PostingEntry}
    (hp : p ∈ m.readerPart x) :
    p.fileId.toNat < (m.reader.filePaths.filter (keptPath removed)).length := by
  obtain ⟨e, -, he⟩ := List.mem_filterMap.mp hp
  obtain ⟨j, hj, rfl⟩ := hm.remapEntry_eq_some.mp he
  obtain ⟨_, -, -, hget⟩ := Compact.getElem?_idMap hj
  have hlt := (List.getElem?_eq_some_iff.mp hget).1
  have hkept := hm.kept_lt
  rw [toNat_ofNat_of_lt' (by rw [size]; omega)]
  exact hlt

/-- The ids of the delta's files follow those of the kept files. -/
lemma Sound.toNat_deltaId (hm : m.Sound removed) {id : UInt32}
    (hid : id.toNat < m.delta.filePaths.length) :
    (m.deltaBase + id).toNat =
      (m.reader.filePaths.filter (keptPath removed)).length + id.toNat := by
  have htotal := hm.total
  rw [mergedPaths, length_append] at htotal
  rw [hm.base, UInt32.toNat_add, UInt32.toNat_ofNat_of_lt' hm.kept_lt]
  exact Nat.mod_eq_of_lt (by omega)

variable {j : UInt32 × Option LookupEntry × Option LookupEntry}

variable (hm : m.Sound removed)

include hm

/-- A merged posting list is strictly ascending by file. -/
lemma Sound.group_ascending (hx : ∀ e ∈ j.2.1, e ∈ m.reader.entries)
    (hy : ∀ e ∈ j.2.2, e ∈ m.delta.entries) : Ascending PostingEntry.fileId (m.group j).2 := by
  have hreader : Ascending PostingEntry.fileId (m.readerPart j.2.1) := by
    rw [readerPart, hm.ids]
    refine HybridIndex.remapped_ascending hm.kept_lt ?_
    cases hj : j.2.1 with
    | none => exact Ascending.nil
    | some e => exact hm.reader.ids_ascending e (hx e hj)
  have hdelta : Ascending PostingEntry.fileId (m.deltaPart j.2.2) := by
    have hlt := hm.delta_lt hy
    have hasc : Ascending PostingEntry.fileId (j.2.2.elim [] m.delta.postingsOf) := by
      cases hj : j.2.2 with
      | none => exact Ascending.nil
      | some e => exact hm.delta.ids_ascending e (hy e hj)
    rw [deltaPart, Ascending, pairwise_map]
    refine List.Pairwise.imp_of_mem (fun ha hb hab => ?_) hasc
    rw [lt_iff_toNat_lt, hm.toNat_deltaId (hlt _ ha), hm.toNat_deltaId (hlt _ hb)]
    have := lt_iff_toNat_lt.mp hab
    omega
  refine Ascending.append.mpr ⟨hreader, hdelta, fun a ha b hb => ?_⟩
  obtain ⟨p, hp, rfl⟩ := mem_map.mp hb
  have hbelow := hm.readerPart_lt ha
  rw [lt_iff_toNat_lt, hm.toNat_deltaId (hm.delta_lt hy p hp)]
  omega

/-- A merged posting list names files of the merged index. -/
lemma Sound.group_lt (hy : ∀ e ∈ j.2.2, e ∈ m.delta.entries) {p : PostingEntry}
    (hp : p ∈ (m.group j).2) : p.fileId.toNat < (mergedPaths m.reader m.delta removed).length := by
  rw [mergedPaths, length_append]
  rcases mem_append.mp hp with hp | hp
  · have := hm.readerPart_lt hp
    omega
  · obtain ⟨q, hq, rfl⟩ := mem_map.mp hp
    have hlt := hm.delta_lt hy q hq
    rw [hm.toNat_deltaId hlt]
    omega

/-- A merged posting list is short enough for its length field. -/
lemma Sound.group_length_lt (hx : ∀ e ∈ j.2.1, e ∈ m.reader.entries)
    (hy : ∀ e ∈ j.2.2, e ∈ m.delta.entries) : (m.group j).2.length < 2 ^ 32 :=
  lt_of_le_of_lt (length_le_of_nodup
    (map_iff.mpr (hm.group_ascending hx hy)).nodup fun _ hp => hm.group_lt hy hp) hm.total

/-- **One round of the loop** writes the merged posting list, unless it is empty. -/
theorem Sound.writeJoined_eq (hx : ∀ e ∈ j.2.1, e ∈ m.reader.entries)
    (hy : ∀ e ∈ j.2.2, e ∈ m.delta.entries) (w : IndexWriter) :
    m.writeJoined w j = if (m.group j).2.isEmpty then .ok w else w.appendGroup (m.group j) := by
  have hlen := hm.group_length_lt hx hy
  have hdelta : (j.2.2.map (rawOf m.delta)).elim 0 (fun bytes => bytes.length / POSTING_ENTRY_SIZE) =
      (m.deltaPart j.2.2).length := by
    cases hj : j.2.2 with
    | none => rfl
    | some e =>
      change (postingCodec.encodeAll (m.delta.postingsOf e)).length / POSTING_ENTRY_SIZE =
        ((m.delta.postingsOf e).map _).length
      rw [FixedCodec.length_encodeAll, postingCodec_width, POSTING_ENTRY_SIZE,
        Nat.mul_div_cancel _ (by decide), length_map]
  have hwrite : ∀ f : OutputFile, (do
      let f ← writeReaderPostings m.appendOnly m.ids f (j.2.1.map (rawOf m.reader))
      writeDeltaPostings m.deltaBase m.delta f (j.2.2.map (rawOf m.delta))) =
      f.writeAll (postingCodec.encodeAll (m.group j).2) := by
    intro f
    rw [group, FixedCodec.encodeAll_append, OutputFile.writeAll_append]
    exact (congrArg (· >>= _) (hm.writeReaderPostings_eq hx f)).trans
      (congrArg _ (funext fun f' => hm.writeDeltaPostings_eq hy f'))
  have hkept := hm.keptLength_eq hx j.1
  have hsum : (m.group j).2.length = (m.readerPart j.2.1).length + (m.deltaPart j.2.2).length :=
    length_append
  rw [writeJoined, writeTrigram]
  change (keptLength m.appendOnly j.1 m.ids (j.2.1.map fun e =>
    postingCodec.encodeAll (m.reader.postingsOf e)) >>= _) = _
  rw [hkept, hdelta]
  change (mergedLength j.1 (m.readerPart j.2.1).length (m.deltaPart j.2.2).length >>= _) = _
  rw [mergedLength, ← hsum, if_neg (by omega), if_neg (by omega)]
  change (if ofNat (m.group j).2.length = 0 then _ else _) = _
  simp only [ofNat_length_eq_zero hlen, hwrite]
  rfl

/-- What is left of both tables consists of their entries, each under its trigram. -/
lemma Sound.mem_left : j ∈ m.left 0 0 ↔
      j.2.1 = m.reader.entries.find? (fun e => decide (e.trigram = j.1)) ∧
        j.2.2 = m.delta.entries.find? (fun e => decide (e.trigram = j.1)) ∧
        (j.2.1.isSome ∨ j.2.2.isSome) := by
  rw [left, drop_zero, drop_zero]
  exact mem_outerJoin hm.reader.ascending hm.delta.ascending

/-- The entries that are merged are entries of the reader and of the delta. -/
lemma Sound.entries_of_mem_left (hj : j ∈ m.left 0 0) :
    (∀ e ∈ j.2.1, e ∈ m.reader.entries) ∧ ∀ e ∈ j.2.2, e ∈ m.delta.entries := by
  obtain ⟨hx, hy, -⟩ := hm.mem_left.mp hj
  exact ⟨fun e he => mem_of_find?_eq_some (hx ▸ he), fun e he => mem_of_find?_eq_some (hy ▸ he)⟩

/-- **The loop writes the merged posting lists.** -/
theorem Sound.mergeTrigrams_groups (w : IndexWriter) :
    m.mergeTrigrams 0 0 w = m.groups.foldlM IndexWriter.appendGroup w := by
  have hstep : ∀ w, ∀ j ∈ m.left 0 0, m.writeJoined w j =
      if (m.group j).2.isEmpty then .ok w else w.appendGroup (m.group j) := by
    intro w j hj
    obtain ⟨hx, hy⟩ := hm.entries_of_mem_left hj
    exact hm.writeJoined_eq hx hy w
  rw [hm.mergeTrigrams_eq, foldlM_congr hstep, groups, foldlM_map]
  exact foldlM_skip (fun j => (m.group j).2.isEmpty) (m.left 0 0) w

omit hm

/-- The merged postings of a trigram. -/
def postings (m : MergeInput) (t : UInt32) : List PostingEntry :=
  (m.reader.lookupTrigramWithMasks t).filterMap (remapEntry m.ids) ++
    (m.delta.lookupTrigramWithMasks t).map fun p => { p with fileId := m.deltaBase + p.fileId }

/-- The entry of a trigram points at the postings that a lookup returns. -/
lemma elim_find?_trigram {r : IndexReader} (hr : r.WellFormed) (t : UInt32) :
    (r.entries.find? fun e => decide (e.trigram = t)).elim [] r.postingsOf =
      r.lookupTrigramWithMasks t := by
  cases hfind : r.entries.find? fun e => decide (e.trigram = t) with
  | none =>
    exact (lookupTrigramWithMasks_eq_nil (find?_key_eq_none.mp hfind)).symm
  | some e =>
    obtain ⟨he, rfl⟩ := (find?_key_eq_some hr.ascending).mp hfind
    exact (lookupTrigramWithMasks_eq hr.ascending he).symm

/-- **The merged posting lists** are the merged postings of all trigrams that have any. -/
theorem Sound.mem_groups (hm : m.Sound removed) {g : PostingGroup} :
    g ∈ m.groups ↔ g.2 ≠ [] ∧ g.2 = m.postings g.1 := by
  have hgroup : ∀ t, m.group (t, m.reader.entries.find? fun e => decide (e.trigram = t),
      m.delta.entries.find? fun e => decide (e.trigram = t)) = (t, m.postings t) := by
    intro t
    rw [group, readerPart, deltaPart, elim_find?_trigram hm.reader, elim_find?_trigram hm.delta]
    rfl
  rw [groups, mem_map]
  constructor
  · rintro ⟨⟨t, x, y⟩, hj, rfl⟩
    obtain ⟨hmem, hne⟩ := mem_filter.mp hj
    obtain ⟨hx, hy, -⟩ := hm.mem_left.mp hmem
    refine ⟨by simpa using hne, ?_⟩
    simp only at hx hy
    rw [hx, hy, hgroup]
  · rintro ⟨hne, heq⟩
    have hg := hgroup g.1
    rw [← heq] at hg
    refine ⟨_, mem_filter.mpr ⟨hm.mem_left.mpr ⟨rfl, rfl, ?_⟩, ?_⟩, hg⟩
    · by_contra hnone
      simp only [not_or, Bool.not_eq_true, Option.isSome_eq_false_iff, Option.isNone_iff_eq_none]
        at hnone
      rw [hnone.1, hnone.2] at hg
      exact hne (congrArg Prod.snd hg).symm
    · rw [hg]
      simpa using hne

/-- The merged index of two sound inputs, if its postings fit in a file. -/
def Sound.layout (hm : m.Sound removed)
    (hdisj : ∀ path ∈ m.reader.filePaths, path ∉ removed → path ∉ m.delta.filePaths)
    (hsize : groupsSize m.groups < 2 ^ 64) : Layout where
  groups := m.groups
  paths := mergedPaths m.reader m.delta removed
  ascending := by
    have hasc : Ascending Prod.fst (m.left 0 0) := by
      rw [left, drop_zero, drop_zero]
      exact outerJoin_ascending hm.reader.ascending hm.delta.ascending
    rw [groups, Ascending, pairwise_map]
    exact hasc.sublist filter_sublist
  nonempty := fun g hg => (hm.mem_groups.mp hg).1
  length_lt := by
    intro g hg
    obtain ⟨j, hj, rfl⟩ := List.mem_map.mp hg
    obtain ⟨hx, hy⟩ := hm.entries_of_mem_left (List.mem_filter.mp hj).1
    exact hm.group_length_lt hx hy
  size_lt := hsize
  ids_ascending := by
    intro g hg
    obtain ⟨j, hj, rfl⟩ := List.mem_map.mp hg
    obtain ⟨hx, hy⟩ := hm.entries_of_mem_left (List.mem_filter.mp hj).1
    exact hm.group_ascending hx hy
  ids_lt := by
    intro g hg p hp
    obtain ⟨j, hj, rfl⟩ := List.mem_map.mp hg
    exact hm.group_lt (hm.entries_of_mem_left (List.mem_filter.mp hj).1).2 hp
  storable := by
    intro path hpath
    rcases List.mem_append.mp hpath with hpath | hpath
    · exact m.reader.storable path (List.mem_filter.mp hpath).1
    · exact m.delta.storable path hpath
  paths_nodup := by
    refine List.nodup_append.mpr
      ⟨hm.reader.paths_nodup.filter _, hm.delta.paths_nodup, fun path hkept path' hdelta heq => ?_⟩
    obtain ⟨hmem, hkeep⟩ := List.mem_filter.mp hkept
    exact hdisj path hmem (by simpa [keptPath] using hkeep) (heq ▸ hdelta)
  paths_le := hm.total.le

end MergeInput

/-! ## The merged index -/

/-- The postings of the lookup entries tile `index.bin` in order. -/
def IndexReader.Contiguous (r : IndexReader) : Prop := Tiles 0 r.entries (r.postings.getD []).length

/-- What a merged index says: the kept files of the reader come first, then the files of the delta;
the postings of a file of the delta are those of the delta, and those of any other file are the
reader's, if it is kept. -/
structure MergedFrom (reader delta : IndexReader) (removed : Finset String) (r : IndexReader) :
    Prop where
  paths : r.filePaths = reader.filePaths.filter (· ∉ removed) ++ delta.filePaths
  posts : ∀ t x, x ∈ r.view.posts t ↔
    if x.1 ∈ delta.filePaths then x ∈ delta.view.posts t
    else x.1 ∈ reader.filePaths ∧ x.1 ∉ removed ∧ x ∈ reader.view.posts t
  wellFormed : r.WellFormed
  contiguous : r.Contiguous

/-- The number of bytes that a lookup entry points at. -/
def LookupEntry.byteLen (e : LookupEntry) : ℕ := e.length.toNat * POSTING_ENTRY_SIZE

/-- Tiled entries end where their lengths add up to. -/
lemma Tiles.stop_eq {lo hi : ℕ} {es : List LookupEntry} (h : Tiles lo es hi) :
    lo + (es.map LookupEntry.byteLen).sum = hi := by
  induction es generalizing lo with
  | nil => exact h
  | cons e es ih =>
    rw [map_cons, sum_cons, ← add_assoc]
    exact ih h.2

/-- The files of a layout are contiguous. -/
lemma Layout.Opened.contiguous {l : Layout} {r : IndexReader} (h : l.Opened r) : r.Contiguous := by
  have hlen : l.indexBytes.length = groupsSize l.groups := length_encodeAll_groups _
  have hsize := l.size_lt
  have htiles := @tiles_lookupEntries 0 l.groups l.length_lt (by omega)
  rw [IndexReader.Contiguous, h.entries, h.postings, hlen]
  rwa [zero_add] at htiles

namespace MergeInput

variable {m : MergeInput} {removed : Finset String}

variable (hm : m.Sound removed)

include hm

/-- The reader's part says what the reader says about the files that are kept. -/
lemma Sound.reader_posts {t : UInt32} {x : String × UInt8 × UInt8} :
    (∃ e ∈ (m.reader.lookupTrigramWithMasks t).filterMap (remapEntry m.ids),
      (mergedPaths m.reader m.delta removed)[e.fileId.toNat]? = some x.1 ∧
        (e.locMask, e.nextMask) = x.2) ↔
      x.1 ∉ removed ∧ x ∈ m.reader.view.posts t := by
  have hkept := hm.kept_lt
  have hplace : ∀ {j : ℕ} {path : String},
      (m.reader.filePaths.filter (keptPath removed))[j]? = some path →
      (mergedPaths m.reader m.delta removed)[(ofNat j).toNat]? = some path := by
    intro j path hj
    have hlt := (List.getElem?_eq_some_iff.mp hj).1
    rw [toNat_ofNat_of_lt' (by rw [size]; omega), mergedPaths, getElem?_append_left hlt, hj]
  constructor
  · rintro ⟨e', he', hpath, hmask⟩
    obtain ⟨e, he, hremap⟩ := List.mem_filterMap.mp he'
    obtain ⟨j, hj, rfl⟩ := hm.remapEntry_eq_some.mp hremap
    obtain ⟨path, hold, hkeep, hnew⟩ := Compact.getElem?_idMap hj
    obtain rfl := Option.some.inj ((hplace hnew).symm.trans hpath)
    exact ⟨by simpa [keptPath] using hkeep, e, he, hold, hmask⟩
  · rintro ⟨hkeep, e, he, hpath, hmask⟩
    have hkeep' : keptPath removed x.1 = true := by simpa [keptPath] using hkeep
    obtain ⟨j, hj⟩ := Compact.exists_idMap hpath hkeep'
    obtain ⟨path, hold, -, hnew⟩ := Compact.getElem?_idMap hj
    have hsame : m.reader.filePaths[e.fileId.toNat]? = some x.1 := hpath
    obtain rfl := Option.some.inj (hold.symm.trans hsame)
    exact ⟨_, List.mem_filterMap.mpr ⟨e, he, hm.remapEntry_eq_some.mpr ⟨j, hj, rfl⟩⟩, hplace hnew,
      hmask⟩

/-- The delta's part says what the delta says. -/
lemma Sound.delta_posts {t : UInt32} {x : String × UInt8 × UInt8} :
    (∃ e ∈ (m.delta.lookupTrigramWithMasks t).map fun p =>
        { p with fileId := m.deltaBase + p.fileId },
      (mergedPaths m.reader m.delta removed)[e.fileId.toNat]? = some x.1 ∧
        (e.locMask, e.nextMask) = x.2) ↔ x ∈ m.delta.view.posts t := by
  have hplace : ∀ {p : PostingEntry}, p ∈ m.delta.lookupTrigramWithMasks t →
      (mergedPaths m.reader m.delta removed)[(m.deltaBase + p.fileId).toNat]? =
        m.delta.filePath p.fileId := by
    intro p hp
    rw [hm.toNat_deltaId (hm.delta.lookup_lt hp), mergedPaths,
      getElem?_append_right (Nat.le_add_right _ _), Nat.add_sub_cancel_left]
    rfl
  constructor
  · rintro ⟨e', he', hpath, hmask⟩
    obtain ⟨p, hp, rfl⟩ := mem_map.mp he'
    exact ⟨p, hp, (hplace hp).symm.trans hpath, hmask⟩
  · rintro ⟨p, hp, hpath, hmask⟩
    exact ⟨_, mem_map_of_mem hp, (hplace hp).trans hpath, hmask⟩

/-- **A reader of the merged files says what was merged.** -/
theorem Sound.mergedFrom
    {hdisj : ∀ path ∈ m.reader.filePaths, path ∉ removed → path ∉ m.delta.filePaths}
    {hsize : groupsSize m.groups < 2 ^ 64} {r : IndexReader} (hr : (hm.layout hdisj hsize).Opened r) :
    MergedFrom m.reader m.delta removed r := by
  have hpaths : r.filePaths = mergedPaths m.reader m.delta removed := hr.paths
  refine ⟨hpaths, fun t x => ?_, hr.wellFormed, hr.contiguous⟩
  have hlookup : ∀ e, e ∈ r.lookupTrigramWithMasks t ↔ e ∈ m.postings t := by
    intro e
    rw [hr.mem_lookup]
    constructor
    · rintro ⟨g, hg, rfl, he⟩
      exact (hm.mem_groups.mp hg).2 ▸ he
    · exact fun he => ⟨(t, m.postings t), hm.mem_groups.mpr ⟨ne_nil_of_mem he, rfl⟩, rfl, he⟩
  have hview : x ∈ r.view.posts t ↔
      (x.1 ∉ removed ∧ x ∈ m.reader.view.posts t) ∨ x ∈ m.delta.view.posts t := by
    rw [← hm.reader_posts, ← hm.delta_posts]
    change (∃ e ∈ r.lookupTrigramWithMasks t, r.filePaths[e.fileId.toNat]? = some x.1 ∧ _) ↔ _
    simp only [hlookup, hpaths, postings, mem_append, or_and_right, exists_or]
  have hreader : x ∈ m.reader.view.posts t → x.1 ∈ m.reader.filePaths :=
    fun ⟨_, _, hpath, _⟩ => mem_of_getElem? hpath
  have hdelta : x ∈ m.delta.view.posts t → x.1 ∈ m.delta.filePaths :=
    fun ⟨_, _, hpath, _⟩ => mem_of_getElem? hpath
  rw [hview]
  split_ifs with hmem
  · exact ⟨fun h => h.resolve_left fun h => hdisj x.1 (hreader h.2) h.1 hmem, .inr⟩
  · constructor
    · rintro (⟨hkeep, hpost⟩ | hpost)
      · exact ⟨hreader hpost, hkeep, hpost⟩
      · exact absurd (hdelta hpost) hmem
    · exact fun h => .inl h.2

/-! ## Size -/

/-- A merged posting list is no longer than the lists it is merged from. -/
lemma Sound.group_length_le {j : UInt32 × Option LookupEntry × Option LookupEntry}
    (hx : ∀ e ∈ j.2.1, e ∈ m.reader.entries) (hy : ∀ e ∈ j.2.2, e ∈ m.delta.entries) :
    (m.group j).2.length * POSTING_ENTRY_SIZE ≤
      j.2.1.elim 0 LookupEntry.byteLen + j.2.2.elim 0 LookupEntry.byteLen := by
  have hreader : (m.readerPart j.2.1).length * POSTING_ENTRY_SIZE ≤
      j.2.1.elim 0 LookupEntry.byteLen := by
    refine (Nat.mul_le_mul_right _ (length_filterMap_le _ _)).trans ?_
    cases hj : j.2.1 with
    | none => exact le_rfl
    | some e =>
      have hlen := length_postingsOf (hm.reader.in_bounds e (hx e hj)).2
      exact (congrArg (· * POSTING_ENTRY_SIZE) hlen).le
  have hdelta : (m.deltaPart j.2.2).length * POSTING_ENTRY_SIZE ≤
      j.2.2.elim 0 LookupEntry.byteLen := by
    rw [deltaPart, length_map]
    cases hj : j.2.2 with
    | none => exact le_rfl
    | some e =>
      have hlen := length_postingsOf (hm.delta.in_bounds e (hy e hj)).2
      exact (congrArg (· * POSTING_ENTRY_SIZE) hlen).le
  rw [group, length_append, Nat.add_mul]
  exact Nat.add_le_add hreader hdelta

/-- Merged posting lists are no longer than the lists they are merged from. -/
lemma Sound.groupsSize_le : groupsSize m.groups ≤ (m.reader.entries.map LookupEntry.byteLen).sum +
      (m.delta.entries.map LookupEntry.byteLen).sum := by
  have hle : ∀ j ∈ m.left 0 0, (m.group j).2.length * POSTING_ENTRY_SIZE ≤
      j.2.1.elim 0 LookupEntry.byteLen + j.2.2.elim 0 LookupEntry.byteLen := by
    intro j hj
    obtain ⟨hx, hy⟩ := hm.entries_of_mem_left hj
    exact hm.group_length_le hx hy
  rw [left, drop_zero, drop_zero] at hle
  rw [groups, left, drop_zero, drop_zero]
  exact groupsSize_outerJoin_le _ hle

/-- Merged posting lists of contiguous indexes fit into the space of both. -/
lemma Sound.groupsSize_le_mapped (hr : m.reader.Contiguous) (hd : m.delta.Contiguous) :
    groupsSize m.groups ≤ m.reader.mappedBytes + m.delta.mappedBytes := by
  have hle := hm.groupsSize_le
  have hreader := hr.stop_eq
  have hdelta := hd.stop_eq
  rw [mappedBytes, mappedBytes]
  omega

/-- The number of trigrams of the merged index. -/
lemma Sound.length_groups_le : m.groups.length ≤ 2 ^ 32 := by
  have hasc : Ascending Prod.fst (m.left 0 0) := by
    rw [left, drop_zero, drop_zero]
    exact outerJoin_ascending hm.reader.ascending hm.delta.ascending
  rw [groups, length_map]
  exact (length_filter_le _ _).trans hasc.length_le

end MergeInput

/-! ## The merge as a whole -/

section Merge

variable {appendOnly : Bool} {d : Destination} {reader delta : IndexReader}
  {removed : Finset String}

/-- The input of the merge loop. -/
def mergeInput (appendOnly : Bool) (reader delta : IndexReader) (removed : Finset String) :
    MergeInput :=
  ⟨appendOnly, reader, delta, keptIds reader.filePaths removed,
    UInt32.ofNat (reader.filePaths.filter (keptPath removed)).length⟩

/-- The input of the merge loop is sound. -/
lemma mergeInput_sound (hr : reader.WellFormed) (hd : delta.WellFormed)
    (htotal : (mergedPaths reader delta removed).length < 2 ^ 32)
    (happ : appendOnly = true → removed = ∅) :
    (mergeInput appendOnly reader delta removed).Sound removed :=
  ⟨hr, hd, rfl, rfl, htotal, happ⟩

/-- Write posting lists and a file table where there is room for them. -/
def writeMerged (d : Destination) (payloadBytes : ℕ) (groups : List PostingGroup)
    (paths : List String) : Except Error IndexFiles := do
  let payload ← checkedDiskBytes payloadBytes
  checkDiskSpace d payload paths.length
  let w ← groups.foldlM IndexWriter.appendGroup .create
  let result ← w.finish
  let files ← writeFileTable paths
  .ok ⟨result.1, result.2.1, files⟩

/-- **The merge writes the merged posting lists**, unless there are too many files. -/
theorem mergeIndexWithDeltaBy_eq (hr : reader.WellFormed) (hd : delta.WellFormed)
    (happ : appendOnly = true → removed = ∅) :
    mergeIndexWithDeltaBy appendOnly d reader delta removed =
      if (mergedPaths reader delta removed).length < 2 ^ 32 then
        writeMerged d (reader.mappedBytes + delta.mappedBytes)
          (mergeInput appendOnly reader delta removed).groups (mergedPaths reader delta removed)
      else .error (.indexCorrupted "file count exceeds the u32 file-id limit") := by
  have hpaths : mergedPaths reader delta removed =
      reader.filePaths.filter (fun path => decide (path ∉ removed)) ++ delta.filePaths := rfl
  have hlen : (mergedPaths reader delta removed).length =
      (reader.filePaths.filter (keptPath removed)).length + delta.filePaths.length := by
    rw [mergedPaths, length_append]
  rw [mergeIndexWithDeltaBy, readerIdMap_eq]
  by_cases hkept : (reader.filePaths.filter (keptPath removed)).length < 2 ^ 32
  · rw [if_pos hkept]
    change (mergedFileCount _ delta >>= _) = _
    rw [mergedFileCount_eq hkept]
    by_cases htotal : (mergedPaths reader delta removed).length < 2 ^ 32
    · rw [if_pos htotal, if_pos htotal, writeMerged,
        ← (mergeInput_sound hr hd htotal happ).mergeTrigrams_groups, hpaths]
      rfl
    · rw [if_neg htotal, if_neg htotal]
      rfl
  · rw [if_neg hkept, if_neg (by omega)]
    rfl

/-- **Copying the reader's postings as they are gives the same bytes as renumbering them.** -/
theorem mergeIndexWithDeltaBy_appendOnly (hr : reader.WellFormed) (hd : delta.WellFormed)
    (d : Destination) :
    mergeIndexWithDeltaBy true d reader delta ∅ = mergeIndexWithDeltaBy false d reader delta ∅ := by
  rw [mergeIndexWithDeltaBy_eq hr hd fun _ => rfl, mergeIndexWithDeltaBy_eq hr hd fun _ => rfl]
  rfl

/-- What a successful merge leaves. -/
lemma mergeIndexWithDelta_opens (hr : reader.WellFormed) (hd : delta.WellFormed)
    (hdisj : ∀ path ∈ reader.filePaths, path ∉ removed → path ∉ delta.filePaths)
    {files : IndexFiles} (hmerge : mergeIndexWithDelta d reader delta removed = .ok files) :
    ∃ r, IndexReader.openReader files = .ok r ∧ MergedFrom reader delta removed r := by
  have happ : decide (removed = ∅) = true → removed = ∅ := of_decide_eq_true
  rw [mergeIndexWithDelta, mergeIndexWithDeltaBy_eq hr hd happ] at hmerge
  split_ifs at hmerge with htotal
  have hm := mergeInput_sound hr hd htotal happ
  obtain ⟨_, -, h⟩ := bind_eq_ok.mp hmerge
  obtain ⟨_, -, h⟩ := bind_eq_ok.mp h
  obtain ⟨w, hw, h⟩ := bind_eq_ok.mp h
  obtain ⟨result, hresult, h⟩ := bind_eq_ok.mp h
  obtain ⟨table, htable, h⟩ := bind_eq_ok.mp h
  cases h
  have hlen : ∀ g ∈ (mergeInput (decide (removed = ∅)) reader delta removed).groups,
      g.2.length < 2 ^ 32 := by
    intro g hg
    obtain ⟨j, hj, rfl⟩ := mem_map.mp hg
    obtain ⟨hx, hy⟩ := hm.entries_of_mem_left (mem_filter.mp hj).1
    exact hm.group_length_lt hx hy
  have hholds := IndexWriter.appendGroups_holds hlen hw
  obtain ⟨r, hopen, hopened⟩ := (hm.layout hdisj hholds.size_lt).openReader_files htable
  rw [hholds.finish hresult]
  exact ⟨r, hopen, hm.mergedFrom hopened⟩

/-- **A merge succeeds if there is enough space and not too many files.** -/
theorem mergeIndexWithDelta_ok (hr : reader.WellFormed) (hd : delta.WellFormed)
    (hcr : reader.Contiguous) (hcd : delta.Contiguous)
    (hdisj : ∀ path ∈ reader.filePaths, path ∉ removed → path ∉ delta.filePaths)
    (htotal : (mergedPaths reader delta removed).length < 2 ^ 32) {available : UInt64}
    (havailable : d.available = .ok available)
    (hspace : requiredDiskBytes (reader.mappedBytes + delta.mappedBytes)
      (mergedPaths reader delta removed).length ≤ available.toNat) :
    ∃ files, mergeIndexWithDelta d reader delta removed = .ok files := by
  have happ : decide (removed = ∅) = true → removed = ∅ := of_decide_eq_true
  have hm := mergeInput_sound hr hd htotal happ
  have hlt := available.toNat_lt
  have hmapped : reader.mappedBytes + delta.mappedBytes < 2 ^ 64 := by
    rw [requiredDiskBytes] at hspace
    omega
  have hsize := lt_of_le_of_lt (hm.groupsSize_le_mapped hcr hcd) hmapped
  have hlookup := hm.length_groups_le
  have hlookup' : (mergeInput (decide (removed = ∅)) reader delta removed).groups.length *
      LOOKUP_ENTRY_SIZE < 2 ^ 64 := by
    rw [LOOKUP_ENTRY_SIZE]
    omega
  let l := hm.layout hdisj hsize
  obtain ⟨w, hw, hholds⟩ := IndexWriter.appendGroups_ok l.length_lt hlookup' hsize
  obtain ⟨result, hresult⟩ := IndexWriter.finish_ok hholds hlookup'
  obtain ⟨table, htable, -⟩ := readFileTable_writeFileTable l.storable l.paths_le
  rw [mergeIndexWithDelta, mergeIndexWithDeltaBy_eq hr hd happ, if_pos htotal]
  refine ⟨⟨result.1, result.2.1, table⟩, ?_⟩
  refine bind_eq_ok.mpr ⟨_, checkedDiskBytes_eq_ok.mpr ⟨hmapped, rfl⟩, ?_⟩
  refine bind_eq_ok.mpr ⟨(), checkDiskSpace_ok havailable hspace, ?_⟩
  refine bind_eq_ok.mpr ⟨w, hw, ?_⟩
  exact bind_eq_ok.mpr ⟨result, hresult, bind_eq_ok.mpr ⟨_, htable, rfl⟩⟩

end Merge

/-- **The merge is exact.** For well-formed indexes such that no kept path is a path of the delta,
the merged index says what the delta says about the delta's files and what the index says about
the files that are kept, and it is well formed and contiguous. Copying the reader's postings gives
the same bytes as renumbering them. Contiguous indexes with fewer than `2 ^ 32` files are merged
where there is enough space. -/
theorem mergeIndexWithDelta_exact (d : Destination) (reader delta : IndexReader)
    (removed : Finset String) (hr : reader.WellFormed) (hd : delta.WellFormed)
    (hdisj : ∀ path ∈ reader.filePaths, path ∉ removed → path ∉ delta.filePaths) :
    (∀ files, mergeIndexWithDelta d reader delta removed = .ok files →
      ∃ r, IndexReader.openReader files = .ok r ∧ MergedFrom reader delta removed r) ∧
    (reader.Contiguous → delta.Contiguous →
      (mergedPaths reader delta removed).length < 2 ^ 32 → ∀ available,
        d.available = .ok available →
        requiredDiskBytes (reader.mappedBytes + delta.mappedBytes)
          (mergedPaths reader delta removed).length ≤ available.toNat →
        ∃ files, mergeIndexWithDelta d reader delta removed = .ok files) ∧
    mergeIndexWithDeltaBy true d reader delta ∅ =
      mergeIndexWithDeltaBy false d reader delta ∅ :=
  ⟨fun _ hmerge => mergeIndexWithDelta_opens hr hd hdisj hmerge,
    fun hcr hcd htotal _ havailable hspace =>
      mergeIndexWithDelta_ok hr hd hcr hcd hdisj htotal havailable hspace,
    mergeIndexWithDeltaBy_appendOnly hr hd d⟩

/-- An index of one file is merged with itself, the file being replaced. -/
theorem mergeIndexWithDelta_exact_single :
    ∃ files r, mergeIndexWithDelta ⟨"", .ok (2 ^ 40)⟩ .single .single {"a"} = .ok files ∧
      IndexReader.openReader files = .ok r ∧ MergedFrom .single .single {"a"} r := by
  have hentries : IndexReader.single.entries = [⟨7, 0, 1⟩] := lookupCodec.decodeAll_encodeAll _
  have hcontiguous : IndexReader.single.Contiguous := by
    rw [IndexReader.Contiguous, hentries]
    exact ⟨rfl, rfl⟩
  obtain ⟨hopens, hok, -⟩ := mergeIndexWithDelta_exact ⟨"", .ok (2 ^ 40)⟩ .single .single {"a"}
    IndexReader.single_wellFormed IndexReader.single_wellFormed (by decide)
  obtain ⟨files, hfiles⟩ := hok hcontiguous hcontiguous (by decide) (2 ^ 40) rfl (by decide)
  obtain ⟨r, hopen, hr⟩ := hopens files hfiles
  exact ⟨files, r, hfiles, hopen, hr⟩

end Tgrep
