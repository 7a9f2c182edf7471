import Tgrep.Build.WriteIndex
import Tgrep.Data.Compact
import Tgrep.Hybrid.Query

/-!
# Snapshots of the hybrid index

A snapshot merges both layers into one dense file table: reader files that the overlay supersedes
or deletes are skipped, the others are renumbered, and the overlay's files follow them. The index
written from it says what the hybrid index said.

## Main definitions

* `HybridIndex.fullSnapshot`: the paths and the postings of the snapshot.
* `HybridIndex.SnapshotPreserved`: the index that is written and opened says the same.

## Main results

* `HybridIndex.WellFormed.mem_fullSnapshot`: the postings of a snapshot.
* `HybridIndex.fullSnapshot_run`: snapshots are preserved over any run of the overlay below the
  overlay bit.
* `HybridIndex.fullSnapshot_wraps`: past the overlay bit an active path is lost.

## Implementation notes

Hash maps are iterated in ascending key order, which decides nothing: every posting list that is
built from one is sorted afterwards.
-/

namespace Tgrep

open List Option FinMap Ascending LiveIndex UInt32

namespace HybridIndex

/-! ## Taking a snapshot -/

/-- Marks a reader file that the overlay supersedes or deletes. -/
def DROPPED : UInt32 := 0xFFFFFFFF

/-- The reader files of the snapshot, and the new id of every reader file. -/
def snapshotReaderFiles (h : HybridIndex) : List String × List UInt32 :=
  h.reader.filePaths.foldl (fun s path =>
    if h.live.isDeleted path || h.live.hasPath path then (s.1, s.2 ++ [DROPPED])
    else (s.1 ++ [path], s.2 ++ [UInt32.ofNat s.1.length])) ([], [])

/-- The overlay files after the reader files, and their new ids. -/
def snapshotOverlayFiles (paths overlayPaths : List String) : List String × FinMap String UInt32 :=
  overlayPaths.foldl (fun s op => (s.1 ++ [op], s.2.insert op (UInt32.ofNat s.1.length)))
    (paths, .empty)

/-- A reader posting with its new id, unless its file is dropped. -/
def remapEntry (readerIdMap : List UInt32) (e : PostingEntry) : Option PostingEntry :=
  (readerIdMap[e.fileId.toNat]?).bind fun newId =>
    if newId ≠ DROPPED then some { e with fileId := newId } else none

/-- The postings of a trigram, renumbered, unless none is left. -/
def remapTrigram (readerIdMap : List UInt32) (posting : UInt32 × List PostingEntry) :
    Option (UInt32 × List PostingEntry) :=
  let remapped := posting.2.filterMap (remapEntry readerIdMap)
  if remapped.isEmpty then none else some (posting.1, remapped)

/-- The inverted map of the reader, renumbered. -/
def readerInverted (h : HybridIndex) (readerIdMap : List UInt32) :
    FinMap UInt32 (List PostingEntry) :=
  ((List.range h.reader.numTrigrams).filterMap fun i =>
      remapTrigram readerIdMap (h.reader.trigramPostingAt i)).foldl
    (fun inverted kv => inverted.insert kv.1 kv.2) .empty

/-- An overlay posting with its new id. -/
def overlayPosting (h : HybridIndex) (newIds : FinMap String UInt32) (trigram : TrigramHash)
    (fid : UInt32) : Option PostingEntry :=
  (h.live.filePath fid).bind fun p =>
    (newIds.get? p).map fun newId =>
      let m := h.live.getMasks trigram fid
      ⟨newId, m.locMask, m.nextMask⟩

/-- Add the overlay's postings of a trigram. -/
def addOverlayPostings (h : HybridIndex) (newIds : FinMap String UInt32)
    (inverted : FinMap UInt32 (List PostingEntry)) (entry : TrigramHash × Finset UInt32) :
    FinMap UInt32 (List PostingEntry) :=
  let remapped := entry.2.sort.filterMap (h.overlayPosting newIds entry.1)
  if remapped.isEmpty then inverted
  else inverted.alter entry.1 fun posting => some (posting.getD [] ++ remapped)

/-- A snapshot of both layers: the paths by new file id, and the postings of each trigram. -/
def fullSnapshot (h : HybridIndex) : List String × FinMap UInt32 (List PostingEntry) :=
  let readerFiles := h.snapshotReaderFiles
  let files := snapshotOverlayFiles readerFiles.1 h.live.allPathsOrdered
  let inverted := h.readerInverted readerFiles.2
  let inverted := h.live.inverted.toList.foldl (h.addOverlayPostings files.2) inverted
  (files.1, inverted.filterMap fun _ posting =>
    some (Ascending.sortByKey PostingEntry.fileId posting))

/-! ## Files of a snapshot -/

/-- Reader files that the overlay neither supersedes nor deletes are kept. -/
def keeps (h : HybridIndex) (path : String) : Bool :=
  !(h.live.isDeleted path || h.live.hasPath path)

/-- The paths of a snapshot: the reader files that are kept, then the overlay files. -/
def snapshotPaths (h : HybridIndex) : List String :=
  h.reader.filePaths.filter h.keeps ++ h.live.allPathsOrdered

/-- The loop over the reader files compacts the file table. -/
lemma snapshotReaderFiles_eq (h : HybridIndex) :
    h.snapshotReaderFiles = (h.reader.filePaths.filter h.keeps,
      (Compact.idMap h.keeps h.reader.filePaths).map fun j => j.elim DROPPED UInt32.ofNat) := by
  have hloop : ∀ (l paths : List String) (ids : List UInt32),
      l.foldl (fun s path =>
        if h.live.isDeleted path || h.live.hasPath path then (s.1, s.2 ++ [DROPPED])
        else (s.1 ++ [path], s.2 ++ [ofNat s.1.length])) (paths, ids) =
      (paths ++ l.filter h.keeps, ids ++ (Compact.idMapFrom h.keeps paths.length l).map
        fun j => j.elim DROPPED ofNat) := by
    intro l
    induction l with
    | nil => simp [Compact.idMapFrom]
    | cons path l ih =>
      intro paths ids
      rw [foldl_cons]
      by_cases hsup : (h.live.isDeleted path || h.live.hasPath path) = true
      · have hkeep : h.keeps path = false := by simp [keeps, hsup]
        rw [if_pos hsup, ih, Compact.idMapFrom, hkeep]
        simp [hkeep]
      · have hkeep : h.keeps path = true := by simp [keeps, hsup]
        rw [if_neg hsup, ih, Compact.idMapFrom, hkeep]
        simp [hkeep]
  rw [snapshotReaderFiles, hloop]
  rfl

/-- The loop over the overlay files, one file later. -/
lemma snapshotOverlayFiles_append_singleton (paths overlayPaths : List String) (op : String) :
    snapshotOverlayFiles paths (overlayPaths ++ [op]) =
      ((snapshotOverlayFiles paths overlayPaths).1 ++ [op],
        (snapshotOverlayFiles paths overlayPaths).2.insert op
          (UInt32.ofNat (snapshotOverlayFiles paths overlayPaths).1.length)) := by
  rw [snapshotOverlayFiles, foldl_append]
  rfl

/-- The loop over the overlay files appends them. -/
lemma snapshotOverlayFiles_fst (paths overlayPaths : List String) :
    (snapshotOverlayFiles paths overlayPaths).1 = paths ++ overlayPaths := by
  induction overlayPaths using reverseRecOn with
  | nil => simp [snapshotOverlayFiles]
  | append_singleton overlayPaths op ih =>
    rw [snapshotOverlayFiles_append_singleton, ih, append_assoc]

variable {fid t : UInt32} {paths : List String} {e' : PostingEntry}

/-- The loop over the overlay files numbers them by position. -/
lemma get?_snapshotOverlayFiles {overlayPaths : List String} (hnodup : overlayPaths.Nodup)
    (path : String) (id : UInt32) :
    (snapshotOverlayFiles paths overlayPaths).2.get? path = some id ↔
      ∃ k, overlayPaths[k]? = some path ∧ id = UInt32.ofNat (paths.length + k) := by
  induction overlayPaths using reverseRecOn with
  | nil => simp [snapshotOverlayFiles]
  | append_singleton overlayPaths op ih =>
    rw [nodup_append] at hnodup
    have hget := ih hnodup.1
    have hnew : op ∉ overlayPaths := fun hmem =>
      hnodup.2.2 op hmem op (mem_singleton_self op) rfl
    rw [snapshotOverlayFiles_append_singleton, get?_insert, snapshotOverlayFiles_fst, length_append]
    by_cases hp : path = op
    · subst hp
      rw [if_pos rfl, some.injEq]
      constructor
      · rintro rfl
        exact ⟨overlayPaths.length, by simp, rfl⟩
      · rintro ⟨k, hk, rfl⟩
        rcases Nat.lt_trichotomy k overlayPaths.length with hlt | rfl | hgt
        · rw [getElem?_append_left hlt] at hk
          exact absurd (mem_of_getElem? hk) hnew
        · rfl
        · rw [getElem?_eq_none (by simp; omega)] at hk
          cases hk
    · rw [if_neg hp, hget]
      refine exists_congr fun k => and_congr_left fun _ => ?_
      rcases Nat.lt_trichotomy k overlayPaths.length with hlt | rfl | hgt
      · rw [getElem?_append_left hlt]
      · rw [getElem?_eq_none le_rfl]
        simp [Ne.symm hp]
      · rw [getElem?_eq_none (by omega), getElem?_eq_none (by simp; omega)]

variable {h : HybridIndex}

/-- No path of a snapshot is listed twice. -/
lemma WellFormed.nodup_snapshotPaths (hw : h.WellFormed) : h.snapshotPaths.Nodup := by
  refine nodup_append.mpr ⟨hw.reader.paths_nodup.filter _, hw.live.nodup_allPathsOrdered, ?_⟩
  rintro path hkept _ hlive rfl
  have hhas := hw.live.hasPath_iff.mpr (mem_allPathsOrdered.mp hlive)
  have hkeep := (mem_filter.mp hkept).2
  simp [keeps, hhas] at hkeep

variable {path other : String} {live : LiveIndex} {e : PostingEntry} {keep : String → Bool}

/-- The paths of a snapshot are the active paths. -/
lemma WellFormed.mem_snapshotPaths (hw : h.WellFormed) :
    path ∈ h.snapshotPaths ↔ h.hasActivePath path = true := by
  rw [snapshotPaths, mem_append, mem_filter, mem_allPathsOrdered,
    ← hw.live.hasPath_iff, hasActivePath, keeps, ← IndexReader.containsPath_iff]
  cases h.live.hasPath path <;> cases h.live.isDeleted path <;> simp

/-! ## Postings of a snapshot -/

/-- The new ids of the reader files. -/
def readerIds (h : HybridIndex) : List UInt32 := h.snapshotReaderFiles.2

/-- The new ids of the overlay files. -/
def overlayIds (h : HybridIndex) : FinMap String UInt32 :=
  (snapshotOverlayFiles (h.reader.filePaths.filter h.keeps) h.live.allPathsOrdered).2

/-- The reader's part of the postings of a trigram. -/
def readerPart (h : HybridIndex) (t : UInt32) : List PostingEntry :=
  (h.reader.lookupTrigramWithMasks t).filterMap (remapEntry h.readerIds)

/-- The overlay's part of the postings of a trigram. -/
def overlayPart (h : HybridIndex) (t : UInt32) : List PostingEntry :=
  match h.live.inverted.get? t with
  | some ids => ids.sort.filterMap (h.overlayPosting h.overlayIds t)
  | none => []

/-- The kept reader files are below the overlay bit. -/
lemma WellFormed.length_kept_le (hw : h.WellFormed) :
    (h.reader.filePaths.filter h.keeps).length ≤ 2 ^ 31 :=
  (length_filter_le _ _).trans hw.files_le

/-- A posting is renumbered to the place of its file among the kept ones. -/
lemma remapEntry_eq_some (hkept : (paths.filter keep).length < 2 ^ 32) :
    remapEntry ((Compact.idMap keep paths).map fun j => j.elim DROPPED UInt32.ofNat) e = some e' ↔
      ∃ j, (Compact.idMap keep paths)[e.fileId.toNat]? = some (some j) ∧
        e' = { e with fileId := ofNat j } := by
  rw [remapEntry, getElem?_map]
  cases hj : (Compact.idMap keep paths)[e.fileId.toNat]? with
  | none => simp
  | some j =>
    cases j with
    | none => simp
    | some j =>
      -- the new ids of kept files are small, so they are not mistaken for the mark
      have hlt : j < (paths.filter keep).length := by
        obtain ⟨_, -, -, hget⟩ := Compact.getElem?_idMap hj
        exact (List.getElem?_eq_some_iff.mp hget).1
      have hne : ofNat j ≠ DROPPED := by
        intro heq
        have hnat := congrArg toNat heq
        rw [toNat_ofNat_of_lt' (by rw [size]; omega),
          show DROPPED.toNat = 2 ^ 32 - 1 from rfl] at hnat
        omega
      simp [hne, eq_comm]

/-- Renumbering keeps postings in order. -/
lemma remapped_ascending (hkept : (paths.filter keep).length < 2 ^ 32) {ps : List PostingEntry}
    (hps : Ascending PostingEntry.fileId ps) :
    Ascending PostingEntry.fileId (ps.filterMap
      (remapEntry ((Compact.idMap keep paths).map fun j => j.elim DROPPED UInt32.ofNat))) := by
  refine List.Pairwise.filterMap _ (fun a b hab a' ha' b' hb' => ?_) hps
  obtain ⟨i, hi, rfl⟩ := (remapEntry_eq_some hkept).mp ha'
  obtain ⟨j, hj, rfl⟩ := (remapEntry_eq_some hkept).mp hb'
  have hlt := Compact.idMap_lt (lt_iff_toNat_lt.mp hab) hi hj
  obtain ⟨_, -, -, hget⟩ := Compact.getElem?_idMap hj
  have hsmall := (List.getElem?_eq_some_iff.mp hget).1
  rw [lt_iff_toNat_lt, toNat_ofNat_of_lt' (by rw [size]; omega),
    toNat_ofNat_of_lt' (by rw [size]; omega)]
  exact hlt

variable (hw : h.WellFormed)

include hw

/-- The number of kept reader files fits in 32 bits. -/
lemma WellFormed.length_kept_lt : (h.reader.filePaths.filter h.keeps).length < 2 ^ 32 :=
  lt_of_le_of_lt hw.length_kept_le (by decide)

/-- A posting of the reader is renumbered to the place of its file among the kept ones. -/
lemma WellFormed.remapEntry_eq_some : remapEntry h.readerIds e = some e' ↔
      ∃ j, (Compact.idMap h.keeps h.reader.filePaths)[e.fileId.toNat]? = some (some j) ∧
        e' = { e with fileId := ofNat j } := by
  rw [readerIds, snapshotReaderFiles_eq]
  exact HybridIndex.remapEntry_eq_some hw.length_kept_lt

/-- What the reader's part consists of. -/
lemma WellFormed.mem_readerPart : e' ∈ h.readerPart t ↔ ∃ e ∈ h.reader.lookupTrigramWithMasks t,
      ∃ j, (Compact.idMap h.keeps h.reader.filePaths)[e.fileId.toNat]? = some (some j) ∧
        e' = { e with fileId := ofNat j } := by
  rw [readerPart, mem_filterMap]
  simp only [hw.remapEntry_eq_some]

/-- The ids of the reader's part are below the number of kept files. -/
lemma WellFormed.readerPart_lt (he' : e' ∈ h.readerPart t) :
    e'.fileId.toNat < (h.reader.filePaths.filter h.keeps).length := by
  obtain ⟨e, -, j, hj, rfl⟩ := hw.mem_readerPart.mp he'
  obtain ⟨_, -, -, hget⟩ := Compact.getElem?_idMap hj
  have hlt := (List.getElem?_eq_some_iff.mp hget).1
  have hle := hw.length_kept_le
  rw [toNat_ofNat_of_lt' (by rw [size]; omega)]
  exact hlt

/-- Renumbering keeps the reader's postings in order. -/
lemma WellFormed.readerPart_ascending (t : UInt32) :
    Ascending PostingEntry.fileId (h.readerPart t) := by
  rw [readerPart, readerIds, snapshotReaderFiles_eq]
  exact remapped_ascending hw.length_kept_lt (hw.reader.lookup_ascending t)

/-- An overlay posting gets the id of its file among the overlay files. -/
lemma WellFormed.overlayPosting_eq_some : h.overlayPosting h.overlayIds t fid = some e' ↔
      ∃ path k, h.live.filePath fid = some path ∧ h.live.allPathsOrdered[k]? = some path ∧
        e' = { h.live.posting t fid with
          fileId := ofNat ((h.reader.filePaths.filter h.keeps).length + k) } := by
  have hids := @get?_snapshotOverlayFiles (h.reader.filePaths.filter h.keeps) _
    hw.live.nodup_allPathsOrdered
  simp only [overlayPosting, overlayIds, bind_eq_some_iff, map_eq_some_iff, hids]
  constructor
  · rintro ⟨path, hpath, _, ⟨k, hk, rfl⟩, rfl⟩
    exact ⟨path, k, hpath, hk, rfl⟩
  · rintro ⟨path, k, hpath, hk, rfl⟩
    exact ⟨path, hpath, _, ⟨k, hk, rfl⟩, rfl⟩

/-- What the overlay's part consists of. -/
lemma WellFormed.mem_overlayPart :
    e' ∈ h.overlayPart t ↔ ∃ e ∈ h.live.lookupTrigramWithMasks t, ∃ path k,
      h.live.filePath e.fileId = some path ∧ h.live.allPathsOrdered[k]? = some path ∧
        e' = { e with
          fileId := ofNat ((h.reader.filePaths.filter h.keeps).length + k) } := by
  have hmem : e' ∈ h.overlayPart t ↔ ∃ fid, h.live.HasPostingOf t fid ∧
      h.overlayPosting h.overlayIds t fid = some e' := by
    rw [overlayPart]
    cases hset : h.live.inverted.get? t with
    | none => simp [LiveIndex.HasPostingOf, hset]
    | some ids => simp [LiveIndex.HasPostingOf, hset]
  simp only [hmem, hw.overlayPosting_eq_some, mem_lookupTrigramWithMasks]
  constructor
  · rintro ⟨fid, hfid, path, k, hpath, hk, rfl⟩
    exact ⟨h.live.posting t fid, ⟨hfid, rfl⟩, path, k, hpath, hk, rfl⟩
  · rintro ⟨e, ⟨hfid, he⟩, path, k, hpath, hk, rfl⟩
    exact ⟨e.fileId, hfid, path, k, hpath, hk, by rw [← he]⟩

omit hw

/-- A trigram is renumbered unless none of its postings is left. -/
lemma remapTrigram_eq_some {ids : List UInt32} {posting kv : UInt32 × List PostingEntry} :
    remapTrigram ids posting = some kv ↔
      posting.1 = kv.1 ∧ posting.2.filterMap (remapEntry ids) = kv.2 ∧ kv.2 ≠ [] := by
  simp only [remapTrigram, List.isEmpty_iff, ite_none_left_eq_some, some.injEq]
  constructor
  · rintro ⟨hne, rfl⟩
    exact ⟨rfl, rfl, hne⟩
  · rintro ⟨h1, h2, hne⟩
    exact ⟨h2 ▸ hne, Prod.ext h1 h2⟩

/-- The inverted map of the reader holds the reader's part of every trigram that has one. -/
lemma WellFormed.get?_readerInverted (hw : h.WellFormed) (t : UInt32) :
    (h.readerInverted h.readerIds).get? t =
      if h.readerPart t = [] then none else some (h.readerPart t) := by
  have hall : (range h.reader.numTrigrams).filterMap (fun i =>
      remapTrigram h.readerIds (h.reader.trigramPostingAt i)) =
      h.reader.entries.filterMap fun e =>
        remapTrigram h.readerIds (e.trigram, h.reader.postingsOf e) := by
    rw [← Function.comp_def, ← filterMap_map, IndexReader.map_trigramPostingAt, filterMap_map]
    rfl
  have hasc : Ascending Prod.fst (h.reader.entries.filterMap fun e =>
      remapTrigram h.readerIds (e.trigram, h.reader.postingsOf e)) := by
    refine List.Pairwise.filterMap _ (fun a b hab a' ha' b' hb' => ?_) hw.reader.ascending
    rw [← (remapTrigram_eq_some.mp ha').1, ← (remapTrigram_eq_some.mp hb').1]
    exact hab
  have hnodup := (map_iff.mpr hasc).nodup
  rw [readerInverted, hall]
  have hpart : ∀ e ∈ h.reader.entries,
      (h.reader.postingsOf e).filterMap (remapEntry h.readerIds) = h.readerPart e.trigram := by
    intro e he
    rw [readerPart, IndexReader.lookupTrigramWithMasks_eq hw.reader.ascending he]
  have hown : ∀ (m : FinMap UInt32 (List PostingEntry)) (kv : UInt32 × List PostingEntry),
      (m.insert kv.1 kv.2).get? kv.1 = some kv.2 := fun m kv => m.get?_insert_self kv.1 kv.2
  have hother : ∀ (m : FinMap UInt32 (List PostingEntry)) (kv : UInt32 × List PostingEntry) k,
      k ≠ kv.1 → (m.insert kv.1 kv.2).get? k = m.get? k := by
    intro m kv k hne
    rw [get?_insert, if_neg hne]
  by_cases hempty : h.readerPart t = []
  · rw [if_pos hempty, get?_foldl_of_forall_ne hother, get?_empty]
    rintro kv hkv rfl
    obtain ⟨e, he, hkv⟩ := mem_filterMap.mp hkv
    obtain ⟨h1, h2, hne⟩ := remapTrigram_eq_some.mp hkv
    rw [← h1, ← hpart e he, h2] at hempty
    exact hne hempty
  · rw [if_neg hempty]
    have hmem : (t, h.readerPart t) ∈ h.reader.entries.filterMap fun e =>
        remapTrigram h.readerIds (e.trigram, h.reader.postingsOf e) := by
      obtain ⟨e', he'⟩ := exists_mem_of_ne_nil _ hempty
      obtain ⟨e, he, -⟩ := hw.mem_readerPart.mp he'
      obtain ⟨entry, hentry, rfl, -⟩ :=
        (IndexReader.mem_lookupTrigramWithMasks hw.reader.ascending).mp he
      exact mem_filterMap.mpr
        ⟨entry, hentry, remapTrigram_eq_some.mpr ⟨rfl, hpart entry hentry, hempty⟩⟩
    exact get?_foldl_of_mem (g := fun kv _ => some kv.2) hown hother hnodup hmem _

/-- **The postings of a snapshot** are those of both parts, sorted by file; a trigram without
postings has no entry. -/
theorem WellFormed.get?_fullSnapshot (hw : h.WellFormed) (t : UInt32) :
    h.fullSnapshot.2.get? t =
      if h.readerPart t ++ h.overlayPart t = [] then none
      else some (Ascending.sortByKey PostingEntry.fileId (h.readerPart t ++ h.overlayPart t)) := by
  have hfiles : snapshotOverlayFiles h.snapshotReaderFiles.1 h.live.allPathsOrdered =
      snapshotOverlayFiles (h.reader.filePaths.filter h.keeps) h.live.allPathsOrdered := by
    rw [snapshotReaderFiles_eq]
  -- the overlay's postings of a trigram are added to the reader's in one step of the loop
  let add (entry : TrigramHash × Finset UInt32) (posting : Option (List PostingEntry)) :
      Option (List PostingEntry) :=
    let remapped := entry.2.sort.filterMap (h.overlayPosting h.overlayIds entry.1)
    if remapped.isEmpty then posting else some (posting.getD [] ++ remapped)
  have hown : ∀ m entry, (h.addOverlayPostings h.overlayIds m entry).get? entry.1 =
      add entry (m.get? entry.1) := by
    intro m entry
    simp only [addOverlayPostings, add]
    split_ifs
    · rfl
    · rw [get?_alter, if_pos rfl]
  have hother : ∀ m (entry : TrigramHash × Finset UInt32) k, k ≠ entry.1 →
      (h.addOverlayPostings h.overlayIds m entry).get? k = m.get? k := by
    intro m entry k hne
    simp only [addOverlayPostings]
    split_ifs
    · rfl
    · rw [get?_alter, if_neg hne]
  have hboth : (h.live.inverted.toList.foldl (h.addOverlayPostings h.overlayIds)
      (h.readerInverted h.readerIds)).get? t =
      if h.readerPart t ++ h.overlayPart t = [] then none
      else some (h.readerPart t ++ h.overlayPart t) := by
    cases hset : h.live.inverted.get? t with
    | none =>
      have hnone : ∀ entry ∈ h.live.inverted.toList, entry.1 ≠ t := by
        rintro ⟨t', set⟩ hentry rfl
        rw [mem_toList.mp hentry] at hset
        cases hset
      have hpart : h.overlayPart t = [] := by rw [overlayPart, hset]
      rw [get?_foldl_of_forall_ne hother hnone, hw.get?_readerInverted, hpart, append_nil]
    | some ids =>
      have hpart : h.overlayPart t = ids.sort.filterMap (h.overlayPosting h.overlayIds t) := by
        rw [overlayPart, hset]
      have hfold := get?_foldl_of_mem hown hother h.live.inverted.nodup_keys_toList
        (mem_toList.mpr hset) (h.readerInverted h.readerIds)
      rw [hfold, hw.get?_readerInverted]
      simp only [add, ← hpart, List.isEmpty_iff]
      by_cases hlive : h.overlayPart t = []
      · rw [if_pos hlive, hlive, append_nil]
      · rw [if_neg hlive, if_neg fun happ => hlive (List.append_eq_nil_iff.mp happ).2]
        split_ifs with hreader
        · rw [hreader]
          rfl
        · rfl
  rw [fullSnapshot, get?_filterMap]
  simp only [hfiles]
  rw [overlayIds, readerIds] at hboth
  rw [hboth]
  split_ifs <;> rfl

/-- The paths of a snapshot. -/
lemma fullSnapshot_fst (h : HybridIndex) : h.fullSnapshot.1 = h.snapshotPaths := by
  rw [fullSnapshot]
  simp only [snapshotReaderFiles_eq]
  exact snapshotOverlayFiles_fst _ _

/-- The number of paths of a snapshot. -/
lemma length_snapshotPaths (h : HybridIndex) :
    h.snapshotPaths.length =
      (h.reader.filePaths.filter h.keeps).length + h.live.filePaths.keys.card := by
  rw [snapshotPaths, length_append, length_allPathsOrdered]

section Bounded

variable (hw : h.WellFormed) (hactive : h.snapshotPaths.length ≤ 2 ^ 31)
include hw hactive

omit hw in
/-- The new ids of overlay files fit in 32 bits. -/
lemma toNat_overlayId {k : ℕ} {path : String}
    (hk : h.live.allPathsOrdered[k]? = some path) :
    (UInt32.ofNat ((h.reader.filePaths.filter h.keeps).length + k)).toNat =
      (h.reader.filePaths.filter h.keeps).length + k := by
  have hlt := (List.getElem?_eq_some_iff.mp hk).1
  rw [snapshotPaths, length_append] at hactive
  exact UInt32.toNat_ofNat_of_lt' (by rw [UInt32.size]; omega)

/-- **What a snapshot says about a trigram**: the postings of the hybrid index, with every file at
the place of its path. -/
theorem WellFormed.mem_parts {t : UInt32} {e' : PostingEntry} :
    e' ∈ h.readerPart t ++ h.overlayPart t ↔
      ∃ e ∈ h.lookupTrigramWithMasks t, (e.locMask, e.nextMask) = (e'.locMask, e'.nextMask) ∧
        ∃ path, h.resolvePath e.fileId = some path ∧
          h.snapshotPaths[e'.fileId.toNat]? = some path := by
  have hplace : ∀ {i j : ℕ} {path : String}, h.snapshotPaths[i]? = some path →
      h.snapshotPaths[j]? = some path → i = j := by
    intro i j path hi hj
    obtain ⟨hi', hpi⟩ := List.getElem?_eq_some_iff.mp hi
    obtain ⟨hj', hpj⟩ := List.getElem?_eq_some_iff.mp hj
    exact (List.Nodup.getElem_inj_iff hw.nodup_snapshotPaths).mp (hpi.trans hpj.symm)
  have hmasks : ∀ {a b : PostingEntry}, (a.locMask, a.nextMask) = (b.locMask, b.nextMask) →
      ∀ {n : ℕ}, b.fileId.toNat = n → b = { a with fileId := ofNat n } := by
    rintro ⟨_, _, _⟩ ⟨id, _, _⟩ hmask n rfl
    obtain ⟨rfl, rfl⟩ := Prod.ext_iff.mp hmask
    simp
  have hreader : ∀ {fid : UInt32} {path : String}, h.reader.filePaths[fid.toNat]? = some path →
      h.resolvePath fid = some path := fun hp => hw.separated.resolvePath_reader hp
  rw [mem_append, hw.mem_readerPart, hw.mem_overlayPart]
  constructor
  · rintro (⟨e, he, j, hj, rfl⟩ | ⟨e, he, path, k, hpath, hk, rfl⟩)
    · obtain ⟨path, hpath, hkeep, hget⟩ := Compact.getElem?_idMap hj
      have hlt := (List.getElem?_eq_some_iff.mp hget).1
      have hle := hw.length_kept_le
      refine ⟨e, mem_append_left _ (List.mem_filter.mpr ⟨he, ?_⟩), rfl, path, hreader hpath, ?_⟩
      · rw [readerEntryActive, IndexReader.filePath, hpath]
        simpa [keeps] using hkeep
      · rw [toNat_ofNat_of_lt' (by rw [size]; omega), snapshotPaths, getElem?_append_left hlt, hget]
    · refine ⟨e, mem_append_right _ he, rfl, path, hw.separated.resolvePath_live hpath, ?_⟩
      rw [toNat_overlayId hactive hk, snapshotPaths, getElem?_append_right (by omega),
        Nat.add_sub_cancel_left, hk]
  · rintro ⟨e, he, hmask, path, hpath, hplace'⟩
    rcases List.mem_append.mp he with he | he
    · obtain ⟨he, hact⟩ := List.mem_filter.mp he
      have hp : h.reader.filePath e.fileId = some _ :=
        IndexReader.filePath_eq_some.mpr ⟨hw.reader.lookup_lt he, rfl⟩
      obtain rfl := some.inj ((hw.separated.resolvePath_reader hp).symm.trans hpath)
      rw [readerEntryActive, hp] at hact
      obtain ⟨j, hj⟩ := Compact.exists_idMap hp (show h.keeps _ = true by simpa [keeps] using hact)
      obtain ⟨path, hpath', -, hget⟩ := Compact.getElem?_idMap hj
      have hlt := (List.getElem?_eq_some_iff.mp hget).1
      have hsame : h.reader.filePaths[e.fileId.toNat]? = some _ := hp
      obtain rfl := some.inj (hsame.symm.trans hpath')
      refine .inl ⟨e, he, j, hj, hmasks hmask (hplace hplace' ?_)⟩
      rw [snapshotPaths, getElem?_append_left hlt, hget]
    · obtain ⟨path', hpath'⟩ := hw.live.lookup_live he
      obtain rfl := some.inj ((hw.separated.resolvePath_live hpath').symm.trans hpath)
      obtain ⟨k, hk⟩ := getElem?_of_mem (mem_allPathsOrdered.mpr ⟨_, hpath'⟩)
      refine .inr ⟨e, he, path', k, hpath', hk, hmasks hmask (hplace hplace' ?_)⟩
      rw [snapshotPaths, getElem?_append_right (by omega), Nat.add_sub_cancel_left, hk]

/-- No file has two postings of a trigram. -/
lemma WellFormed.nodup_parts (t : UInt32) :
    ((h.readerPart t ++ h.overlayPart t).map PostingEntry.fileId).Nodup := by
  have hoverlay : ((h.overlayPart t).map PostingEntry.fileId).Nodup := by
    rw [overlayPart]
    split
    · next ids _ =>
      rw [List.Nodup, pairwise_map]
      refine List.Pairwise.filterMap _ (fun a b hab a' ha' b' hb' heq => hab ?_)
        (ids.sort_nodup (· ≤ ·))
      obtain ⟨pa, i, hpa, hi, rfl⟩ := hw.overlayPosting_eq_some.mp ha'
      obtain ⟨pb, j, hpb, hj, rfl⟩ := hw.overlayPosting_eq_some.mp hb'
      have hij := congrArg toNat heq
      rw [toNat_overlayId hactive hi, toNat_overlayId hactive hj] at hij
      obtain rfl : i = j := by omega
      obtain rfl := some.inj (hi.symm.trans hj)
      exact hw.live.filePath_injective hpa hpb
    · exact nodup_nil
  rw [map_append, nodup_append]
  refine ⟨(map_iff.mpr (hw.readerPart_ascending t)).nodup, hoverlay, ?_⟩
  rintro id hid _ hid' rfl
  obtain ⟨a, ha, rfl⟩ := mem_map.mp hid
  obtain ⟨b, hb, heq⟩ := mem_map.mp hid'
  obtain ⟨e, -, path, k, -, hk, rfl⟩ := hw.mem_overlayPart.mp hb
  have hlt := hw.readerPart_lt ha
  rw [← heq, toNat_overlayId hactive hk] at hlt
  omega

/-- The postings of a snapshot name its files. -/
lemma WellFormed.parts_lt {t : UInt32} {e : PostingEntry}
    (he : e ∈ h.readerPart t ++ h.overlayPart t) : e.fileId.toNat < h.snapshotPaths.length := by
  obtain ⟨-, -, -, path, -, hget⟩ := (hw.mem_parts hactive).mp he
  exact (List.getElem?_eq_some_iff.mp hget).1

/-- An entry of a snapshot holds the postings of both parts, sorted by file. -/
lemma WellFormed.mem_toList_fullSnapshot {g : PostingGroup} (hg : g ∈ h.fullSnapshot.2.toList) :
    g.2 ≠ [] ∧ Ascending PostingEntry.fileId g.2 ∧
      g.2.Perm (h.readerPart g.1 ++ h.overlayPart g.1) := by
  have hget := mem_toList.mp hg
  rw [hw.get?_fullSnapshot] at hget
  split_ifs at hget with hempty
  have heq := (some.inj hget).symm
  have hperm : g.2.Perm (h.readerPart g.1 ++ h.overlayPart g.1) := by
    rw [heq]
    exact sortByKey_perm _
  refine ⟨fun hnil => hempty ?_, ?_, hperm⟩
  · rw [hnil] at hperm
    exact hperm.symm.eq_nil
  · rw [heq]
    exact sortByKey_ascending (hw.nodup_parts hactive g.1)

/-- The posting lists of a snapshot are short enough for their length fields. -/
lemma WellFormed.length_lt_of_mem_toList {g : PostingGroup}
    (hg : g ∈ h.fullSnapshot.2.toList) : g.2.length < 2 ^ 32 := by
  obtain ⟨-, -, hperm⟩ := hw.mem_toList_fullSnapshot hactive hg
  have hle := length_le_of_nodup (hw.nodup_parts hactive g.1) fun _ he => hw.parts_lt hactive he
  rw [hperm.length_eq]
  omega

end Bounded

/-! ## Writing and opening a snapshot -/

/-- The layout of a snapshot whose size fits in 64 bits. -/
def WellFormed.snapshotLayout (hw : h.WellFormed) (hactive : h.snapshotPaths.length ≤ 2 ^ 31)
    (hpaths : ∀ path ∈ h.snapshotPaths, Storable path)
    (hsize : groupsSize h.fullSnapshot.2.toList < 2 ^ 64) : Layout where
  groups := h.fullSnapshot.2.toList
  paths := h.snapshotPaths
  ascending := h.fullSnapshot.2.pairwise_toList
  nonempty := fun _ hg => (hw.mem_toList_fullSnapshot hactive hg).1
  length_lt := fun _ hg => hw.length_lt_of_mem_toList hactive hg
  size_lt := hsize
  ids_ascending := fun _ hg => (hw.mem_toList_fullSnapshot hactive hg).2.1
  ids_lt := fun _ hg _ hp =>
    hw.parts_lt hactive ((hw.mem_toList_fullSnapshot hactive hg).2.2.mem_iff.mp hp)
  storable := hpaths
  paths_nodup := hw.nodup_snapshotPaths
  paths_le := hactive.trans (by decide)

/-- The index that was written from a snapshot and opened under an empty overlay says what the
hybrid index said. -/
structure SnapshotPreserved (h : HybridIndex) (r : IndexReader) : Prop where
  /-- Every trigram has the same postings. -/
  posts : ∀ t, (HybridIndex.mk r LiveIndex.new).view.posts t = h.view.posts t
  /-- The active paths are the same, each once. -/
  paths : ∀ path, ((executeQueryWithMasks ⟨r, LiveIndex.new⟩ .matchAll).1.map
    (resolvePath ⟨r, LiveIndex.new⟩)).count (some path) =
      if h.hasActivePath path = true then 1 else 0

/-- A reader that has the files of a snapshot open says what the hybrid index said. -/
lemma WellFormed.snapshotPreserved (hw : h.WellFormed) (hactive : h.snapshotPaths.length ≤ 2 ^ 31)
    {hpaths : ∀ path ∈ h.snapshotPaths, Storable path}
    {hsize : groupsSize h.fullSnapshot.2.toList < 2 ^ 64} {r : IndexReader}
    (hr : (hw.snapshotLayout hactive hpaths hsize).Opened r) : h.SnapshotPreserved r := by
  have hrpaths : r.filePaths = h.snapshotPaths := hr.paths
  have hw' : WellFormed ⟨r, new⟩ := by
    refine ⟨hr.wellFormed, ?_, new_rep⟩
    rw [IndexReader.numFiles, hrpaths]
    exact hactive
  have hlookup : ∀ t e', e' ∈ r.lookupTrigramWithMasks t ↔
      e' ∈ h.readerPart t ++ h.overlayPart t := by
    intro t e'
    rw [hr.mem_lookup]
    constructor
    · rintro ⟨g, hg, rfl, he'⟩
      exact (hw.mem_toList_fullSnapshot hactive hg).2.2.mem_iff.mp he'
    · intro he'
      have hget := hw.get?_fullSnapshot t
      rw [if_neg (ne_nil_of_mem he')] at hget
      exact ⟨(t, _), mem_toList.mpr hget, rfl, mem_sortByKey.mpr he'⟩
  constructor
  · intro t
    rw [hw'.view_of_new rfl]
    ext ⟨path, masks⟩
    change (∃ e' ∈ r.lookupTrigramWithMasks t, r.filePaths[e'.fileId.toNat]? = some path ∧
      (e'.locMask, e'.nextMask) = masks) ↔ ∃ e ∈ h.lookupTrigramWithMasks t,
      h.resolvePath e.fileId = some path ∧ (e.locMask, e.nextMask) = masks
    simp only [hlookup, hrpaths, hw.mem_parts hactive]
    constructor
    · rintro ⟨e', ⟨e, he, hmask, path', hpath', hget'⟩, hget, rfl⟩
      obtain rfl := some.inj (hget'.symm.trans hget)
      exact ⟨e, he, hpath', hmask⟩
    · rintro ⟨e, he, hpath, rfl⟩
      -- the posting with the new id of the file
      have hact := (hw.lookup_active he).1
      have hmem := hw.mem_snapshotPaths.mpr (hw.separated.hasActivePath_iff.mpr ⟨_, hpath, hact⟩)
      obtain ⟨i, hi⟩ := getElem?_of_mem hmem
      have hlt := (List.getElem?_eq_some_iff.mp hi).1
      have hid : (ofNat i).toNat = i :=
        toNat_ofNat_of_lt' (by rw [size]; omega)
      refine ⟨⟨ofNat i, e.locMask, e.nextMask⟩, ⟨e, he, rfl, path, hpath, ?_⟩, ?_, rfl⟩
      · rw [hid, hi]
      · rw [hid, hi]
  · intro path
    rw [executeQueryWithMasks, hw'.count_matchAll]
    refine if_congr ?_ rfl rfl
    rw [startsWith_empty, and_iff_left rfl, ← hw.mem_snapshotPaths, ← hrpaths]
    exact IndexReader.containsPath_iff

/-- **Snapshots are preserved over runs.** Take a well-formed reader whose ids are below the overlay
bit, and any run of the overlay whose upserts are made below it, such that there are at most
`2 ^ 31` active files and the overlay's paths are storable. At a destination with enough space, the
snapshot is written, it opens, and the index says what the hybrid index said. -/
theorem fullSnapshot_run (reader : IndexReader) (ops : List LiveIndex.Op) (d : Destination)
    (available : UInt64) (hr : reader.WellFormed) (hfiles : reader.numFiles ≤ 2 ^ 31)
    (hops : History.BelowBit ops)
    (hactive : (reader.filePaths.filter (keeps ⟨reader, (History.run ops).index⟩)).length +
      (History.run ops).index.filePaths.keys.card ≤ 2 ^ 31)
    (hpaths : ∀ path, (History.run ops).index.hasPath path = true → Storable path)
    (hd : d.available = .ok available)
    (hspace : requiredDiskBytes
      (groupsSize (fullSnapshot ⟨reader, (History.run ops).index⟩).2.toList +
        (fullSnapshot ⟨reader, (History.run ops).index⟩).2.keys.card * LOOKUP_ENTRY_SIZE)
      (fullSnapshot ⟨reader, (History.run ops).index⟩).1.length ≤ available.toNat) :
    ∃ files r, writeIndexFromSnapshot d (fullSnapshot ⟨reader, (History.run ops).index⟩) = .ok files ∧
      IndexReader.openReader files = .ok r ∧
      SnapshotPreserved ⟨reader, (History.run ops).index⟩ r := by
  have hw : WellFormed ⟨reader, (History.run ops).index⟩ := ⟨hr, hfiles, (History.run_inv hops).rep⟩
  rw [← length_snapshotPaths] at hactive
  have hlen := fun g hg => hw.length_lt_of_mem_toList hactive (g := g) hg
  have hstorable : ∀ path ∈ snapshotPaths ⟨reader, (History.run ops).index⟩, Storable path := by
    intro path hpath
    rcases List.mem_append.mp hpath with hkept | hlive
    · exact reader.storable path (List.mem_filter.mp hkept).1
    · exact hpaths path (hw.live.hasPath_iff.mpr (LiveIndex.mem_allPathsOrdered.mp hlive))
  obtain ⟨files, hwrite⟩ := writeIndexFiles_ok hlen ((fullSnapshot_fst _).symm ▸ hstorable) hd hspace
  obtain ⟨hsize, -⟩ := writeIndexFiles_layout hlen hwrite
  obtain ⟨r, hopen, hopened⟩ :=
    (hw.snapshotLayout hactive hstorable hsize).openReader_of_writeIndexFiles rfl
      ((fullSnapshot_fst _).symm ▸ hwrite)
  exact ⟨files, r, hwrite, hopen, hw.snapshotPreserved hactive hopened⟩

/-- A snapshot of one file of the reader and one of the overlay is preserved. -/
theorem fullSnapshot_run_single :
    ∃ files r, writeIndexFromSnapshot ⟨"", .ok (2 ^ 40)⟩ (fullSnapshot ⟨IndexReader.single,
        (History.run [.upsertFileWithTrigrams "b" [7] fun _ => 3]).index⟩) = .ok files ∧
      IndexReader.openReader files = .ok r ∧
      SnapshotPreserved ⟨IndexReader.single,
        (History.run [.upsertFileWithTrigrams "b" [7] fun _ => 3]).index⟩ r := by
  refine fullSnapshot_run _ _ _ (2 ^ 40) IndexReader.single_wellFormed ?_ ?_ ?_ ?_ rfl ?_
  · decide
  · rw [History.BelowBit]
    refine ⟨fun _ => ?_, trivial⟩
    decide
  · decide +kernel
  · intro path hpath
    obtain ⟨-, -, hids⟩ := LiveIndex.upsertWith_frame
      (LiveIndex.addsPostings_insertPosting fun _ => 3) LiveIndex.new_rep "b" [7]
    obtain ⟨fid, hfid⟩ := FinMap.mem_keys.mp (FinMap.contains_iff.mp hpath)
    have hget := (hids path).symm.trans hfid
    split_ifs at hget with hb
    · rw [hb]
      exact ⟨by decide, by decide⟩
    · cases hget
  · decide +kernel

/-! ## Past the overlay bit -/

/-- An overlay with at most one file lists at most one path. -/
lemma length_allPathsOrdered_le_one
    (honly : ∀ id path, live.filePath id = some path → id = fid ∧ path = other) :
    live.allPathsOrdered.length ≤ 1 := by
  have hsub : live.filePaths.keys ⊆ {fid} := by
    intro id hid
    obtain ⟨path, hpath⟩ := mem_keys.mp hid
    exact Finset.mem_singleton.mpr (honly id path hpath).1
  rw [length_allPathsOrdered]
  exact Finset.card_le_card hsub

/-- The layout of the paths of an overlay with at most one file, without postings. -/
def Layout.ofOverlay (live : LiveIndex) {other : String} {fid : UInt32} (hother : Storable other)
    (honly : ∀ id path, live.filePath id = some path → id = fid ∧ path = other) : Layout where
  groups := []
  paths := live.allPathsOrdered
  ascending := List.Pairwise.nil
  nonempty := by simp
  length_lt := by simp
  size_lt := by decide
  ids_ascending := by simp
  ids_lt := by simp
  storable := by
    intro path hpath
    obtain ⟨id, hid⟩ := LiveIndex.mem_allPathsOrdered.mp hpath
    exact (honly id path hid).2 ▸ hother
  paths_nodup := by
    have hlen := length_allPathsOrdered_le_one honly
    match hpaths : live.allPathsOrdered with
    | [] => exact nodup_nil
    | [path] => exact nodup_singleton path
    | _ :: _ :: _ =>
      rw [hpaths, length_cons, length_cons] at hlen
      omega
  paths_le := (length_allPathsOrdered_le_one honly).trans (by decide)

/-- An overlay that has an entry for a path but no file with it loses that path, and the snapshot
does not bring it back. -/
lemma exists_not_snapshotPreserved (hlive : live.hasPath path = true) (hne : path ≠ other)
    (hother : Storable other) (honly : ∀ id p, live.filePath id = some p → id = fid ∧ p = other)
    (hinv : live.inverted = .empty) :
    ∃ files r, writeIndexFromSnapshot ⟨"", .ok (2 ^ 40)⟩ (fullSnapshot ⟨IndexReader.empty, live⟩) =
        .ok files ∧
      IndexReader.openReader files = .ok r ∧ ¬ SnapshotPreserved ⟨IndexReader.empty, live⟩ r := by
  have hsnap : fullSnapshot ⟨IndexReader.empty, live⟩ = (live.allPathsOrdered, .empty) := by
    apply Prod.ext
    · exact fullSnapshot_fst _
    · change (live.inverted.toList.foldl _ (readerInverted ⟨IndexReader.empty, live⟩ _)).filterMap _ =
        .empty
      rw [hinv, toList_empty]
      exact filterMap_empty _
  have hspace : requiredDiskBytes
      (groupsSize (empty : FinMap UInt32 (List PostingEntry)).toList +
        (empty : FinMap UInt32 (List PostingEntry)).keys.card * LOOKUP_ENTRY_SIZE)
      live.allPathsOrdered.length ≤ (2 ^ 40 : UInt64).toNat := by
    have hlen := length_allPathsOrdered_le_one honly
    have hbound : (2 ^ 40 : UInt64).toNat = 2 ^ 40 := rfl
    simp only [toList_empty, keys_empty, Finset.card_empty, groupsSize,
      flatMap_nil, length_nil, requiredDiskBytes, BUILD_DISK_BYTES_PER_PATH,
      BUILD_DISK_HEADROOM_BYTES, hbound]
    omega
  obtain ⟨files, hwrite⟩ := writeIndexFiles_ok (d := ⟨"", .ok (2 ^ 40)⟩) (by simp)
    (Layout.ofOverlay live hother honly).storable rfl hspace
  obtain ⟨r, hopen, hr⟩ :=
    (Layout.ofOverlay live hother honly).openReader_of_writeIndexFiles toList_empty.symm hwrite
  refine ⟨files, r, by rw [hsnap]; exact hwrite, hopen, fun hpreserved => ?_⟩
  -- no id of the reader resolves to the path
  have hactive : hasActivePath ⟨IndexReader.empty, live⟩ path = true := by
    rw [hasActivePath, if_pos hlive]
  have hcount := hpreserved.paths path
  rw [if_pos hactive] at hcount
  obtain ⟨id, -, hid⟩ := mem_map.mp (count_pos_iff.mp (hcount ▸ Nat.one_pos))
  rw [resolvePath] at hid
  split_ifs at hid
  · cases hid
  · have hmem := mem_of_getElem? hid
    rw [hr.paths] at hmem
    obtain ⟨id', hid'⟩ := mem_allPathsOrdered.mp hmem
    exact hne (honly id' path hid').2

/-- **Past the overlay bit a snapshot loses an active path**: `a` has an entry in the overlay, but
the index that is written from the snapshot does not have it. -/
theorem fullSnapshot_wraps : ∃ (files : IndexFiles) (r : IndexReader),
    writeIndexFromSnapshot ⟨"", .ok (2 ^ 40)⟩
      (fullSnapshot ⟨IndexReader.empty, (History.run History.wrapping).index⟩) = .ok files ∧
    IndexReader.openReader files = .ok r ∧
    ¬ SnapshotPreserved ⟨IndexReader.empty, (History.run History.wrapping).index⟩ r := by
  obtain ⟨hlive, honly, hinv⟩ := History.run_wrapping_loses
  exact exists_not_snapshotPreserved hlive (by decide) ⟨by decide, by decide⟩ honly hinv

end HybridIndex

end Tgrep
