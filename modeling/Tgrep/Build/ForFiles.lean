import Tgrep.Evidence
import Tgrep.Trigram
import Tgrep.Build.Layout
import Tgrep.External.Sorter

/-!
# An index of some files

The delta of a save is an index of an exact list of files, built by the external sort. Files that
could not be read at a verified version are left out and reported; binary files are left out.

## Main definitions

* `Extraction`: how bytes become text, and how text is identified.
* `IndexRead`, `extractIndexedFile`: what a read gave, and what is extracted from it.
* `buildIndexForFiles`: the index files and the outcome.

## Main results

* `buildIndexForFiles_opens`: the delta holds the texts that were read, each with the postings
  extracted from it.
* `buildIndexForFiles_outcome`: what the outcome says about each file.

## Implementation notes

Decoding and hashing are parameters. Reads are given by what they returned; the batches in which
files are read, whose order is that of the list, are left out. The check of the free space is given
by its result.
-/

namespace Tgrep

open List Loops UInt32

/-- How bytes are decoded for an index, and how text is identified. -/
structure Extraction (κ : Type) where
  decode : List UInt8 → List UInt8
  identify : List UInt8 → κ

/-- Whether a text is likely binary: its first bytes contain a NUL. -/
def isBinary (text : List UInt8) : Bool := (text.take 8192).contains 0

/-- What reading a file for an index gave: an error, or its bytes, with the version that was
verified around the read, if one was. -/
inductive IndexRead where
  | failed
  | read (bytes : List UInt8) (version : Option FileVersion) (mapped : Bool)

/-- What is extracted from a file. -/
structure ExtractedFile (κ : Type) where
  path : String
  trigrams : Option TrigramMaskMap
  contentId : Option κ
  version : Option FileVersion

variable {κ : Type} (x : Extraction κ)

/-- Extract the trigrams of a file. The identity of a map that changed meanwhile is not used. -/
def extractIndexedFile (path : String) (bytes : List UInt8) (version : Option FileVersion)
    (mapped : Bool) : ExtractedFile κ :=
  let text := x.decode bytes
  let extracted : Option TrigramMaskMap × Option κ :=
    if isBinary text then (none, none)
    else (some (Trigram.extractMergedMasks text), some (x.identify text))
  { path
    trigrams := extracted.1
    contentId := if version.isNone && mapped then none else extracted.2
    version }

/-- The outcome of a delta build. -/
structure FileDeltaOutcome (κ : Type) where
  indexed : ℕ
  unreadable : List String
  contentIds : FinMap String κ
  versions : FinMap String FileVersion

/-- A delta build under way. -/
structure DeltaBuild (κ : Type) where
  /-- The paths by file id. -/
  paths : List String
  sorter : ExternalSorter
  unreadable : List String
  contentIds : FinMap String κ
  versions : FinMap String FileVersion

/-- The postings of a file. -/
def filePostings (fileId : UInt32) (perTri : TrigramMaskMap) : List TrigramPosting :=
  perTri.toList.map fun e => ⟨e.1, ⟨fileId, e.2.locMask, e.2.nextMask⟩⟩

/-- Add what was extracted from a file. -/
def DeltaBuild.add (d : DeltaBuild κ) (extracted : ExtractedFile κ) (version : FileVersion) :
    Except Error (DeltaBuild κ) :=
  let d := { d with versions := d.versions.insert extracted.path version }
  match extracted.trigrams with
  | none => .ok d
  | some perTri =>
    if d.paths.length < 2 ^ 32 then
      .ok { d with
        contentIds := match extracted.contentId with
          | none => d.contentIds
          | some id => d.contentIds.insert extracted.path id
        sorter := (filePostings (UInt32.ofNat d.paths.length) perTri).foldl ExternalSorter.push
          d.sorter
        paths := d.paths ++ [extracted.path] }
    else .error (.indexCorrupted "file count exceeds the u32 file-id limit")

/-- Add a file, or report it. -/
def DeltaBuild.addFile (d : DeltaBuild κ) (file : String × IndexRead) :
    Except Error (DeltaBuild κ) :=
  match file.2 with
  | .failed => .ok { d with unreadable := d.unreadable ++ [file.1] }
  | .read bytes version mapped =>
    let extracted := extractIndexedFile x file.1 bytes version mapped
    match extracted.version with
    | none => .ok { d with unreadable := d.unreadable ++ [file.1] }
    | some version => d.add extracted version

/-- Build an index of some files. -/
def buildIndexForFiles (space : Except Error Unit) (bufferBytes : ℕ) (sizes : ℕ → ℕ → ℕ)
    (files : List (String × IndexRead)) : Except Error (IndexFiles × FileDeltaOutcome κ) := do
  space
  let d ← files.foldlM (DeltaBuild.addFile x) ⟨[], .new bufferBytes false, [], .empty, .empty⟩
  let written ← d.sorter.writePostingsTo false sizes
  let table ← writeFileTable d.paths
  .ok (⟨written.1.1, written.1.2.1, table⟩, ⟨d.paths.length, d.unreadable, d.contentIds, d.versions⟩)

/-! ## What was read -/

/-- What a read settles, unless the file is unreadable: its version, and its text unless it is
binary. -/
def IndexRead.settled : IndexRead → Option (FileVersion × Option (List UInt8))
  | .failed => none
  | .read bytes version _ =>
    version.map fun v => (v, if isBinary (x.decode bytes) then none else some (x.decode bytes))

/-- The texts that were read, by path. -/
def textsOf (files : List (String × IndexRead)) : List (String × List UInt8) :=
  files.filterMap fun f => (f.2.settled x).bind fun s => s.2.map fun text => (f.1, text)

/-- The postings of texts, whose file ids are their places. -/
def textPostings (texts : List (String × List UInt8)) : List TrigramPosting :=
  texts.zipIdx.flatMap fun e =>
    filePostings (UInt32.ofNat e.2) (Trigram.extractMergedMasks e.1.2)

lemma mem_textsOf {files : List (String × IndexRead)} {path : String} {text : List UInt8} :
    (path, text) ∈ textsOf x files ↔
      ∃ r v, (path, r) ∈ files ∧ r.settled x = some (v, some text) := by
  simp only [textsOf, mem_filterMap, Option.bind_eq_some_iff, Option.map_eq_some_iff]
  constructor
  · rintro ⟨⟨p, r⟩, hf, ⟨v, t⟩, hs, text', ht, heq⟩
    obtain ⟨rfl, rfl⟩ := Prod.mk.inj heq
    dsimp only at ht
    exact ⟨r, v, hf, by rw [hs, ht]⟩
  · rintro ⟨r, v, hf, hs⟩
    exact ⟨(path, r), hf, (v, some text), hs, text, rfl, rfl⟩

lemma textsOf_concat (files : List (String × IndexRead)) (f : String × IndexRead) :
    textsOf x (files ++ [f]) = textsOf x files ++ textsOf x [f] :=
  filterMap_append

/-- Distinct files have distinct texts. -/
lemma nodup_textsOf {files : List (String × IndexRead)} (h : (files.map Prod.fst).Nodup) :
    ((textsOf x files).map Prod.fst).Nodup := by
  refine h.sublist ?_
  induction files with
  | nil => exact List.Sublist.refl _
  | cons f files ih =>
    rw [map_cons, nodup_cons] at h
    rw [textsOf, filterMap_cons]
    split
    · exact (ih h.2).cons _
    · next b hb =>
      obtain ⟨s, -, hs⟩ := Option.bind_eq_some_iff.mp hb
      obtain ⟨text, -, rfl⟩ := Option.map_eq_some_iff.mp hs
      exact (ih h.2).cons_cons _

/-- What a delta build has made of the files so far. -/
structure DeltaBuild.Holds (bufferBytes : ℕ) (done : List (String × IndexRead))
    (d : DeltaBuild κ) : Prop where
  paths : d.paths = (textsOf x done).map Prod.fst
  paths_le : d.paths.length ≤ 2 ^ 32
  sorter : d.sorter =
    (textPostings (textsOf x done)).foldl ExternalSorter.push (.new bufferBytes false)
  unreadable : ∀ p, p ∈ d.unreadable ↔ ∃ r, (p, r) ∈ done ∧ r.settled x = none
  contentIds : ∀ p id, d.contentIds.get? p = some id ↔
    ∃ r v text, (p, r) ∈ done ∧ r.settled x = some (v, some text) ∧ x.identify text = id
  versions : ∀ p v, d.versions.get? p = some v ↔
    ∃ r s, (p, r) ∈ done ∧ r.settled x = some (v, s)

variable {x}

variable {d : DeltaBuild κ} {p : TrigramPosting} {done : List (String × IndexRead)}
  {texts : List (String × List UInt8)}

/-- A file that is added last has not been seen. -/
lemma ne_of_nodup_concat {f : String × IndexRead} (h : ((done ++ [f]).map Prod.fst).Nodup)
    {p : String} {r : IndexRead} (hr : (p, r) ∈ done) : p ≠ f.1 := by
  rw [map_append, nodup_append] at h
  exact h.2.2 p (mem_map_of_mem hr) f.1 (by simp)

/-- What holds of a read with a path, after one more file. -/
lemma exists_read_concat {path p : String} {r : IndexRead} {Q : IndexRead → Prop} :
    (∃ r', (p, r') ∈ done ++ [(path, r)] ∧ Q r') ↔
      (∃ r', (p, r') ∈ done ∧ Q r') ∨ (p = path ∧ Q r) := by
  simp only [mem_append, mem_singleton, Prod.mk.injEq, or_and_right, exists_or, and_assoc,
    exists_and_left, exists_eq_left]

/-- A value that is recorded for a new path is that of the last file. -/
lemma get?_insert_concat {β : Type} {m : FinMap String β} {path : String} {r : IndexRead}
    {Q : IndexRead → β → Prop} (hnew : ∀ r', (path, r') ∉ done)
    (hm : ∀ p v, m.get? p = some v ↔ ∃ r', (p, r') ∈ done ∧ Q r' v) {v : β}
    (hQ : ∀ w, Q r w ↔ v = w) (p : String) (w : β) :
    (m.insert path v).get? p = some w ↔ ∃ r', (p, r') ∈ done ++ [(path, r)] ∧ Q r' w := by
  rw [exists_read_concat, FinMap.get?_insert, hQ]
  split
  · next hp =>
    subst hp
    rw [Option.some.injEq, eq_self_iff_true, true_and]
    exact (or_iff_right fun hr => hnew _ hr.choose_spec.1).symm
  · next hp => rw [hm, or_iff_left fun hr => hp hr.1]

/-- What a delta build has made of the files after one more.

**Proof sketch.** The cases of the read: unreadable, binary, text. Its path is new, so what is
inserted for it does not replace anything. -/
lemma DeltaBuild.Holds.addFile {bufferBytes : ℕ} {d' : DeltaBuild κ} {f : String × IndexRead}
    (h : DeltaBuild.Holds x bufferBytes done d) (hnodup : ((done ++ [f]).map Prod.fst).Nodup)
    (hadd : d.addFile x f = .ok d') : DeltaBuild.Holds x bufferBytes (done ++ [f]) d' := by
  obtain ⟨path, r⟩ := f
  have hnew : ∀ r', (path, r') ∉ done := fun r' hr => ne_of_nodup_concat hnodup hr rfl
  have hids : ∀ p id, d.contentIds.get? p = some id ↔ ∃ r', (p, r') ∈ done ∧
      ∃ v text, r'.settled x = some (v, some text) ∧ x.identify text = id := fun p id => by
    simp only [h.contentIds, exists_and_left]
  have hversions : ∀ p v, d.versions.get? p = some v ↔ ∃ r', (p, r') ∈ done ∧
      ∃ s, r'.settled x = some (v, s) := fun p v => by
    simp only [h.versions, exists_and_left]
  -- an unreadable file changes only the list of such files
  have hunreadable : r.settled x = none → d' = { d with unreadable := d.unreadable ++ [path] } →
      DeltaBuild.Holds x bufferBytes (done ++ [(path, r)]) d' := by
    rintro hs rfl
    have htexts : textsOf x (done ++ [(path, r)]) = textsOf x done := by
      rw [textsOf_concat]
      simp [textsOf, hs]
    refine ⟨by rw [htexts, h.paths], h.paths_le, by rw [htexts, h.sorter], fun p => ?_,
      fun p id => ?_, fun p v => ?_⟩
    · rw [exists_read_concat, mem_append, mem_singleton, h.unreadable, and_iff_left hs]
    · simp only [exists_and_left, exists_read_concat, hids, hs]
      simp
    · simp only [exists_and_left, exists_read_concat, hversions, hs]
      simp
  -- a file that was read has its version recorded
  have hread : ∀ {v : FileVersion} {s : Option (List UInt8)}, r.settled x = some (v, s) →
      (∀ p, p ∈ d.unreadable ↔ ∃ r', (p, r') ∈ done ++ [(path, r)] ∧ r'.settled x = none) ∧
        ∀ p w, (d.versions.insert path v).get? p = some w ↔
          ∃ r' s', (p, r') ∈ done ++ [(path, r)] ∧ r'.settled x = some (w, s') := by
    intro v s hs
    refine ⟨fun p => ?_, fun p w => ?_⟩
    · rw [exists_read_concat, h.unreadable, hs]
      simp
    · simp only [exists_and_left]
      exact get?_insert_concat hnew hversions (fun w => by simp [hs]) p w
  cases r with
  | failed => exact hunreadable rfl (Except.ok.inj hadd).symm
  | read bytes version mapped =>
    cases version with
    | none => exact hunreadable rfl (Except.ok.inj hadd).symm
    | some v =>
      rw [DeltaBuild.addFile] at hadd
      simp only [extractIndexedFile, DeltaBuild.add, Option.isNone_some, Bool.false_and,
        Bool.false_eq_true, if_false] at hadd
      by_cases hbinary : isBinary (x.decode bytes) = true
      · -- a binary file has no postings
        have hs : IndexRead.settled x (.read bytes (some v) mapped) = some (v, none) := by
          simp [IndexRead.settled, hbinary]
        have htexts : textsOf x (done ++ [(path, .read bytes (some v) mapped)]) =
            textsOf x done := by
          rw [textsOf_concat]
          simp [textsOf, hs]
        simp only [hbinary, if_true] at hadd
        obtain rfl := Except.ok.inj hadd
        refine ⟨by rw [htexts, h.paths], h.paths_le, by rw [htexts, h.sorter], (hread hs).1,
          fun p id => ?_, (hread hs).2⟩
        simp only [exists_and_left, exists_read_concat, hids, hs]
        simp
      · have hs : IndexRead.settled x (.read bytes (some v) mapped) =
            some (v, some (x.decode bytes)) := by
          simp [IndexRead.settled, hbinary]
        have htexts : textsOf x (done ++ [(path, .read bytes (some v) mapped)]) =
            textsOf x done ++ [(path, x.decode bytes)] := by
          rw [textsOf_concat]
          simp [textsOf, hs]
        rw [Bool.not_eq_true] at hbinary
        simp only [hbinary, Bool.false_eq_true, if_false] at hadd
        split at hadd
        · next hlt =>
          obtain rfl := Except.ok.inj hadd
          refine ⟨by rw [htexts, h.paths]; simp, ?_, ?_, (hread hs).1, fun p id => ?_, (hread hs).2⟩
          · simp only [length_append, length_singleton]
            omega
          · dsimp only
            rw [htexts, textPostings, zipIdx_append, flatMap_append, foldl_append,
              ← textPostings, ← h.sorter, h.paths]
            simp
          · simp only [exists_and_left]
            exact get?_insert_concat hnew hids (fun id => by simp [hs]) p id
        · cases hadd

/-! ## What is built -/

/-- The postings of a file, by trigram. -/
lemma mem_filePostings {fileId : UInt32} {perTri : TrigramMaskMap} :
    p ∈ filePostings fileId perTri ↔
      ∃ m, perTri.get? p.trigram = some m ∧ p.entry = ⟨fileId, m.locMask, m.nextMask⟩ := by
  simp only [filePostings, mem_map]
  constructor
  · rintro ⟨⟨t, m⟩, he, rfl⟩
    exact ⟨m, FinMap.mem_toList.mp he, rfl⟩
  · rintro ⟨m, hm, he⟩
    exact ⟨(p.trigram, m), FinMap.mem_toList.mpr hm, by rw [← he]⟩

/-- The postings of texts: each is one of the file at its place. -/
lemma mem_textPostings :
    p ∈ textPostings texts ↔ ∃ i path text m, texts[i]? = some (path, text) ∧
      (Trigram.extractMergedMasks text).get? p.trigram = some m ∧
        p.entry = ⟨UInt32.ofNat i, m.locMask, m.nextMask⟩ := by
  simp only [textPostings, mem_flatMap, mem_filePostings]
  constructor
  · rintro ⟨⟨⟨path, text⟩, i⟩, he, m, hm, hp⟩
    exact ⟨i, path, text, m, List.mem_zipIdx_iff_getElem?.mp he, hm, hp⟩
  · rintro ⟨i, path, text, m, hi, hm, hp⟩
    exact ⟨((path, text), i), List.mem_zipIdx_iff_getElem?.mpr hi, m, hm, hp⟩

/-- The postings of texts are distinct. -/
lemma nodup_textPostings (h : texts.length ≤ 2 ^ 32) :
    ((textPostings texts).map TrigramPosting.key).Nodup := by
  rw [textPostings, map_flatMap, nodup_flatMap]
  constructor
  · rintro ⟨⟨path, text⟩, i⟩ -
    rw [filePostings, map_map]
    refine List.Nodup.of_map (fun k : UInt32 ×ₗ UInt32 => (ofLex k).1) ?_
    rw [map_map]
    exact (Trigram.extractMergedMasks text).nodup_keys_toList
  · have hplaces : (texts.zipIdx.map Prod.snd).Nodup := by
      rw [zipIdx_map_snd]
      exact nodup_range' ..
    refine (List.pairwise_map.mp hplaces).imp_of_mem ?_
    rintro ⟨e, i⟩ ⟨e', j⟩ hi hj hne k hk hk'
    have hlt : ∀ {e : String × List UInt8} {i : ℕ}, (e, i) ∈ texts.zipIdx → i < 2 ^ 32 :=
      fun he => lt_of_lt_of_le
        (List.getElem?_eq_some_iff.mp (List.mem_zipIdx_iff_getElem?.mp he)).1 h
    obtain ⟨p, hp, rfl⟩ := List.mem_map.mp hk
    obtain ⟨p', hp', hkey⟩ := List.mem_map.mp hk'
    obtain ⟨m, -, hentry⟩ := mem_filePostings.mp hp
    obtain ⟨m', -, hentry'⟩ := mem_filePostings.mp hp'
    have hids : p'.entry.fileId = p.entry.fileId := (Prod.mk.inj (toLex.injective hkey)).2
    rw [hentry, hentry'] at hids
    have hids' := congrArg toNat hids
    dsimp only at hids'
    rw [toNat_ofNat_of_lt' (hlt hj), toNat_ofNat_of_lt' (hlt hi)] at hids'
    exact hne hids'.symm

variable (x)

/-- An index of the texts that were read: its files, and for each of them what is extracted. -/
structure DeltaOf (files : List (String × IndexRead)) (r : IndexReader) : Prop where
  wellFormed : r.WellFormed
  paths : r.filePaths = (textsOf x files).map Prod.fst
  posts : ∀ t y, y ∈ r.view.posts t ↔ ∃ text m, (y.1, text) ∈ textsOf x files ∧
    (Trigram.extractMergedMasks text).get? t = some m ∧ y.2 = (m.locMask, m.nextMask)

/-- What the outcome of a delta build says about each file. -/
structure OutcomeOf (files : List (String × IndexRead)) (outcome : FileDeltaOutcome κ) : Prop where
  indexed : outcome.indexed = (textsOf x files).length
  unreadable : ∀ p, p ∈ outcome.unreadable ↔ ∃ r, (p, r) ∈ files ∧ r.settled x = none
  contentIds : ∀ p id, outcome.contentIds.get? p = some id ↔
    ∃ r v text, (p, r) ∈ files ∧ r.settled x = some (v, some text) ∧ x.identify text = id
  versions : ∀ p v, outcome.versions.get? p = some v ↔
    ∃ r s, (p, r) ∈ files ∧ r.settled x = some (v, s)

variable {x} {space : Except Error Unit} {bufferBytes : ℕ} {sizes : ℕ → ℕ → ℕ}
  {files : List (String × IndexRead)} {f : IndexFiles} {outcome : FileDeltaOutcome κ}

/-- A build that succeeds has processed every file. -/
lemma holds_of_foldlM (hnodup : (files.map Prod.fst).Nodup)
    (h : files.foldlM (DeltaBuild.addFile x) ⟨[], .new bufferBytes false, [], .empty, .empty⟩ =
      .ok d) : DeltaBuild.Holds x bufferBytes files d := by
  have hempty : DeltaBuild.Holds x bufferBytes [] ⟨[], .new bufferBytes false, [], .empty, .empty⟩ := by
    refine ⟨rfl, Nat.zero_le _, rfl, by simp, by simp, by simp⟩
  refine foldlM_invariant (P := fun done d => (done.map Prod.fst).Nodup →
    DeltaBuild.Holds x bufferBytes done d) ?_ (fun _ => hempty) h hnodup
  intro done file d d' hd hadd hnodup'
  have hdone : (done.map Prod.fst).Nodup := by
    rw [map_append, nodup_append] at hnodup'
    exact hnodup'.1
  exact (hd hdone).addFile hnodup' hadd

/-- **What the outcome says.** -/
theorem buildIndexForFiles_outcome (hnodup : (files.map Prod.fst).Nodup)
    (h : buildIndexForFiles x space bufferBytes sizes files = .ok (f, outcome)) :
    OutcomeOf x files outcome := by
  obtain ⟨-, -, h⟩ := bind_eq_ok.mp h
  obtain ⟨d, hd, h⟩ := bind_eq_ok.mp h
  obtain ⟨written, -, h⟩ := bind_eq_ok.mp h
  obtain ⟨table, -, h⟩ := bind_eq_ok.mp h
  obtain ⟨-, rfl⟩ := Prod.mk.inj (Except.ok.inj h)
  have hholds := holds_of_foldlM hnodup hd
  refine ⟨?_, hholds.unreadable, hholds.contentIds, hholds.versions⟩
  dsimp only
  rw [hholds.paths, length_map]

/-- **What is built**: if the delta opens, it is an index of the texts that were read. -/
theorem buildIndexForFiles_opens (hnodup : (files.map Prod.fst).Nodup)
    (h : buildIndexForFiles x space bufferBytes sizes files = .ok (f, outcome)) {r : IndexReader}
    (hopen : IndexReader.openReader f = .ok r) : DeltaOf x files r := by
  obtain ⟨-, -, h⟩ := bind_eq_ok.mp h
  obtain ⟨d, hd, h⟩ := bind_eq_ok.mp h
  obtain ⟨written, hwritten, h⟩ := bind_eq_ok.mp h
  obtain ⟨table, htable, h⟩ := bind_eq_ok.mp h
  obtain ⟨hf, -⟩ := Prod.mk.inj (Except.ok.inj h)
  have hholds := holds_of_foldlM hnodup hd
  have hlength : (textsOf x files).length ≤ 2 ^ 32 := by
    have := hholds.paths_le
    rwa [hholds.paths, length_map] at this
  have hkeys := nodup_textPostings hlength
  -- the sorted postings that are written
  rw [hholds.sorter] at hwritten
  obtain ⟨segments, hsort⟩ := externalSort_eq hkeys bufferBytes false false sizes
  rw [externalSort] at hsort
  rw [hsort] at hwritten
  cases hsorted : writeSortedArenaTo
      (Ascending.sortByKey TrigramPosting.key (textPostings (textsOf x files))) with
  | error e =>
    rw [hsorted] at hwritten
    cases hwritten
  | ok sorted =>
    rw [hsorted] at hwritten
    obtain rfl := Except.ok.inj hwritten
    obtain ⟨groups, hgroups, hfiles, hlen, hsize⟩ := writeSortedArenaTo_fits hkeys hsorted
    have hpaths : ∀ p ∈ d.paths, Storable p := by
      rw [← hf] at hopen
      have hread : readFileTable table = .ok r.filePaths := readFileTable_of_openReader hopen
      exact storable_of_readFileTable htable hread
    have hmem : ∀ {t : UInt32} {e : PostingEntry},
        (∃ g ∈ groups, g.1 = t ∧ e ∈ g.2) ↔ ⟨t, e⟩ ∈ textPostings (textsOf x files) := by
      intro t e
      rw [← hgroups.perm.mem_iff, mem_ungroup]
    have hbelow : ∀ {t : UInt32} {e : PostingEntry}, ⟨t, e⟩ ∈ textPostings (textsOf x files) →
        ∃ path text m, (textsOf x files)[e.fileId.toNat]? = some (path, text) ∧
          (Trigram.extractMergedMasks text).get? t = some m ∧
            (e.locMask, e.nextMask) = (m.locMask, m.nextMask) := by
      intro t e he
      obtain ⟨i, path, text, m, hi, hm, rfl⟩ := mem_textPostings.mp he
      have hlt : i < 2 ^ 32 :=
        lt_of_lt_of_le (List.getElem?_eq_some_iff.mp hi).1 hlength
      exact ⟨path, text, m, by rwa [toNat_ofNat_of_lt' hlt], hm, rfl⟩
    let l : Layout :=
      { groups
        paths := d.paths
        ascending := hgroups.ascending
        nonempty := hgroups.nonempty
        length_lt := hlen
        size_lt := hsize
        ids_ascending := hgroups.ids_ascending
        ids_lt := by
          intro g hg e he
          obtain ⟨path, text, m, hi, -, -⟩ := hbelow (hmem.mp ⟨g, hg, rfl, he⟩)
          rw [hholds.paths, length_map]
          exact (List.getElem?_eq_some_iff.mp hi).1
        storable := hpaths
        paths_nodup := hholds.paths ▸ nodup_textsOf x hnodup
        paths_le := hholds.paths_le }
    obtain ⟨r', hopen', hopened⟩ := l.openReader_files htable
    have hsame : r = r' := by
      rw [← hf, hfiles] at hopen
      exact Except.ok.inj (hopen.symm.trans hopen')
    subst hsame
    refine ⟨hopened.wellFormed, hopened.paths.trans hholds.paths, fun t y => ?_⟩
    have hpath : ∀ {i : ℕ} {path : String} {text : List UInt8},
        (textsOf x files)[i]? = some (path, text) → r.filePaths[i]? = some path := by
      intro i path text hi
      rw [hopened.paths, show l.paths = d.paths from rfl, hholds.paths, getElem?_map, hi]
      rfl
    constructor
    · rintro ⟨e, he, hname, hmasks⟩
      obtain ⟨path, text, m, hi, hm, hentry⟩ := hbelow (hmem.mp (hopened.mem_lookup.mp he))
      rw [IndexReader.filePath, hpath hi] at hname
      obtain rfl := Option.some.inj hname
      exact ⟨text, m, mem_of_getElem? hi, hm, by rw [← hmasks, hentry]⟩
    · rintro ⟨text, m, htext, hm, hy⟩
      obtain ⟨i, hi⟩ := List.mem_iff_getElem?.mp htext
      have hlt : i < 2 ^ 32 := lt_of_lt_of_le (List.getElem?_eq_some_iff.mp hi).1 hlength
      refine ⟨⟨ofNat i, m.locMask, m.nextMask⟩, ?_, ?_, hy.symm⟩
      · exact hopened.mem_lookup.mpr (hmem.mpr (mem_textPostings.mpr ⟨i, y.1, text, m, hi, hm, rfl⟩))
      · rw [IndexReader.filePath, toNat_ofNat_of_lt' hlt]
        exact hpath hi

end Tgrep
