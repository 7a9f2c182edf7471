import Tgrep.Build.Output
import Tgrep.Reader.Spec

/-!
# Opening what was written

An index whose files are the encodings of posting groups and of a list of paths opens, and the
reader returns these groups and paths.

## Main definitions

* `writeFileTable`: `files.bin` for a list of paths.
* `Layout`: posting groups and paths that make an index.
* `Layout.files`: the files.

## Main results

* `readFileTable_writeFileTable`: file tables round trip.
* `Layout.openReader_files`: the files open, and the reader returns what was written.
-/

namespace Tgrep

open List IndexReader

/-! ## File tables -/

/-- The entries of a file table: ids are assigned by position. -/
def fileEntries (paths : List String) : List (UInt32 × String) :=
  paths.zipIdx.map fun p => (UInt32.ofNat p.2, p.1)

/-- `files.bin` for a list of paths. -/
def writeFileTable (paths : List String) : Except Error (List UInt8) := do
  let records ← writeFileEntries (fileEntries paths)
  .ok (fileTableHeader ++ records)

@[simp] lemma length_fileEntries (paths : List String) :
    (fileEntries paths).length = paths.length := by
  rw [fileEntries, length_map, length_zipIdx]

variable {f : IndexFiles} {r : IndexReader} {data : List UInt8} {paths' paths : List String}

/-- The entry at a position. -/
lemma mem_fileEntries {e : UInt32 × String} :
    e ∈ fileEntries paths ↔ ∃ i, paths[i]? = some e.2 ∧ e.1 = UInt32.ofNat i := by
  rw [fileEntries, mem_map]
  constructor
  · rintro ⟨⟨path, i⟩, hp, rfl⟩
    exact ⟨i, mem_zipIdx_iff_getElem?.mp hp, rfl⟩
  · rintro ⟨i, hi, hid⟩
    exact ⟨(e.2, i), mem_zipIdx_iff_getElem?.mpr hi, Prod.ext hid.symm rfl⟩

/-- Dense distinct ids pass the check. -/
lemma checkDense_of {n : ℕ} {entries : List (UInt32 × String)} {seen : List ℕ}
    (hall : ∀ e ∈ entries, e.1.toNat < n ∧ e.1.toNat ∉ seen)
    (hnodup : (entries.map fun e => e.1.toNat).Nodup) : checkDense n entries seen = .ok () := by
  induction entries generalizing seen with
  | nil => rfl
  | cons e entries ih =>
    obtain ⟨⟨hlt, hnew⟩, hrest⟩ := forall_mem_cons.mp hall
    rw [map_cons, nodup_cons] at hnodup
    obtain ⟨hfirst, hnodup⟩ := hnodup
    obtain ⟨id, path⟩ := e
    rw [checkDense, if_neg (not_le.mpr hlt), if_neg hnew]
    refine ih (fun e he => ⟨(hrest e he).1, fun hmem => ?_⟩) hnodup
    rcases mem_cons.mp hmem with heq | hseen
    · exact hfirst (mem_map.mpr ⟨e, he, heq⟩)
    · exact (hrest e he).2 hseen

/-- **File tables round trip**: storable paths with 32-bit ids are written, and reading the table
returns them. -/
theorem readFileTable_writeFileTable (hpaths : ∀ p ∈ paths, Storable p)
    (hlen : paths.length ≤ 2 ^ 32) :
    ∃ data, writeFileTable paths = .ok data ∧ readFileTable data = .ok paths := by
  have hid : ∀ {i : ℕ}, i < paths.length → (UInt32.ofNat i).toNat = i :=
    fun hi => UInt32.toNat_ofNat_of_lt' (lt_of_lt_of_le hi hlen)
  have hlt : ∀ {i : ℕ} {path : String}, paths[i]? = some path → i < paths.length :=
    fun h => (List.getElem?_eq_some_iff.mp h).1
  obtain ⟨records, hwrite, hdecode⟩ :=
    @decodeFileEntries_writeFileEntries (fileEntries paths) fun e he => by
      obtain ⟨i, hi, -⟩ := mem_fileEntries.mp he
      exact hpaths _ (mem_of_getElem? hi)
  have hids : (fileEntries paths).map (fun e => e.1.toNat) = List.range paths.length := by
    refine ext_getElem (by simp) fun i _ hi => ?_
    have hi' : i < paths.length := by rwa [length_range] at hi
    simp [fileEntries, hid hi']
  have hnodup : ((fileEntries paths).map fun e => e.1.toNat).Nodup := hids ▸ nodup_range
  have hbelow : ∀ e ∈ fileEntries paths, e.1.toNat < (fileEntries paths).length := by
    intro e he
    obtain ⟨i, hi, heq⟩ := mem_fileEntries.mp he
    rw [heq, hid (hlt hi), length_fileEntries]
    exact hlt hi
  have hdense : checkDense (fileEntries paths).length (fileEntries paths) [] = .ok () :=
    checkDense_of (fun e he => ⟨hbelow e he, not_mem_nil⟩) hnodup
  have hfill : fillFilePaths (fileEntries paths) = paths := by
    refine ext_getElem (by rw [length_fillFilePaths, length_fileEntries]) fun i hi hi' => ?_
    have he : (UInt32.ofNat i, paths[i]) ∈ fileEntries paths :=
      mem_fileEntries.mpr ⟨i, getElem?_eq_getElem hi', rfl⟩
    have hget := getElem?_fillFilePaths hnodup he (hbelow _ he)
    simp only [hid hi'] at hget
    rw [getElem?_eq_getElem hi] at hget
    exact Option.some.inj hget
  refine ⟨fileTableHeader ++ records, by rw [writeFileTable, hwrite]; rfl, ?_⟩
  rw [readFileTable, fileTableBody_header]
  simp only [hdecode, hdense, hfill]

/-- **A file table that is read holds storable paths.** -/
theorem storable_of_readFileTable (hwrite : writeFileTable paths = .ok data)
    (hread : readFileTable data = .ok paths') : ∀ p ∈ paths, Storable p := by
  obtain ⟨records, hrecords, hdata⟩ := Loops.bind_eq_ok.mp hwrite
  obtain rfl := Except.ok.inj hdata
  rw [readFileTable, fileTableBody_header] at hread
  cases hdecode : decodeFileEntries records with
  | error e =>
    simp only [hdecode] at hread
    cases hread
  | ok decoded =>
    intro path hpath
    obtain ⟨i, hi⟩ := mem_iff_getElem?.mp hpath
    exact storable_of_decodeFileEntries hrecords hdecode (UInt32.ofNat i, path)
      (mem_fileEntries.mpr ⟨i, hi, rfl⟩)

/-- **A file table that is read has no more paths than there are ids.** -/
theorem length_of_readFileTable (hwrite : writeFileTable paths = .ok data)
    (hread : readFileTable data = .ok paths') :
    paths' = fillFilePaths (fileEntries paths) ∧ paths.length ≤ 2 ^ 32 := by
  have hstorable := storable_of_readFileTable hwrite hread
  obtain ⟨records, hrecords, hdata⟩ := Loops.bind_eq_ok.mp hwrite
  obtain rfl := Except.ok.inj hdata
  obtain ⟨records', hrecords', hdecode⟩ :=
    @decodeFileEntries_writeFileEntries (fileEntries paths) fun e he => by
      obtain ⟨i, hi, -⟩ := mem_fileEntries.mp he
      exact hstorable _ (mem_of_getElem? hi)
  obtain rfl : records = records' := Except.ok.inj (hrecords.symm.trans hrecords')
  have hlen := (readFileTable_ok hread).2
  rw [readFileTable, fileTableBody_header] at hread
  simp only [hdecode] at hread
  split at hread
  · cases hread
  · cases hread
    rw [length_fillFilePaths, length_fileEntries] at hlen
    exact ⟨rfl, hlen⟩

/-- What is opened maps the files, unless one of them is empty. -/
lemma IndexReader.openImpl_eq_ok (h : IndexReader.openImpl f = .ok r) :
    ∃ s, openSections f.lookup f.index = .ok s ∧ r.lookup = s.1 ∧ r.postings = s.2.1 ∧
      readFileTable f.files = .ok r.filePaths := by
  unfold openImpl at h
  split at h
  · cases h
  · next s hs =>
    split at h
    · cases h
    · next filePaths hpaths =>
      cases h
      exact ⟨s, hs, rfl, rfl, hpaths⟩

/-- An index that opens has a file table that is read. -/
lemma readFileTable_of_openReader (h : IndexReader.openReader f = .ok r) :
    readFileTable f.files = .ok r.filePaths := by
  rw [openReader] at h
  split at h
  · cases h
  · next opened hopen =>
    have hr : r = opened := by
      split at h
      · cases h
      · split at h
        · cases h
        · exact (Except.ok.inj h).symm
    obtain ⟨-, -, -, -, hpaths⟩ := openImpl_eq_ok hopen
    rw [hr, hpaths]

/-! ## Validation -/

namespace IndexReader

/-- A lookup table that is sorted and within bounds passes the validation. -/
lemma validateLookup_ok {r : IndexReader} (hasc : Ascending LookupEntry.trigram r.entries)
    (hbounds : ∀ e ∈ r.entries, e.stop < 2 ^ 64 ∧ e.stop ≤ (r.postings.getD []).length) :
    r.validateLookup = .ok () := by
  have hget : ∀ {i : ℕ}, i < r.numEntries → ∃ hi : i < r.entries.length,
      r.readLookupEntry i = r.entries[i] := by
    intro i hi
    rw [← length_entries] at hi
    exact ⟨hi, readLookupEntry_eq hi⟩
  have hentry : ∀ i prev, i < r.numEntries →
      (∀ p, prev = some p → p < (r.readLookupEntry i).trigram) →
      r.validateLookupEntry i prev = .ok () := by
    intro i prev hi hprev
    obtain ⟨hlt, heq⟩ := hget hi
    obtain ⟨hstop, hroom⟩ := hbounds _ (getElem_mem hlt)
    rw [← heq, LookupEntry.stop] at hstop hroom
    have hfirst : ¬ (prev.any fun p => (r.readLookupEntry i).trigram ≤ p) = true := by
      cases prev with
      | none => simp
      | some p => simpa using hprev p rfl
    rw [validateLookupEntry]
    simp only [if_neg hfirst, if_pos (And.intro hstop hroom)]
  have hfrom : ∀ i prev,
      (i < r.numEntries → ∀ p, prev = some p → p < (r.readLookupEntry i).trigram) →
      r.validateLookupFrom i prev = .ok () := by
    intro i prev
    fun_induction r.validateLookupFrom i prev with
    | case1 i prev hi e he =>
      intro hprev
      rw [hentry i prev hi (hprev hi)] at he
      cases he
    | case2 i prev hi he ih =>
      refine fun _ => ih fun hnext p hp => ?_
      obtain rfl := Option.some.inj hp
      obtain ⟨hlt, heq⟩ := hget hi
      obtain ⟨hlt', heq'⟩ := hget hnext
      rw [heq, heq']
      exact pairwise_iff_getElem.mp hasc i (i + 1) hlt hlt' (Nat.lt_succ_self i)
    | case3 => exact fun _ => rfl
  rw [validateLookup]
  cases r.lookup with
  | none => rfl
  | some _ => exact hfrom 0 none fun _ p hp => by cases hp

/-- Where `index.bin` has the encodings of groups, the postings of an entry are those of its group,
and lie within it. -/
lemma postingsOf_groups {r : IndexReader} {groups : List PostingGroup}
    (hindex : r.postings.getD [] = postingCodec.encodeAll (groups.flatMap Prod.snd))
    (hlength : ∀ g ∈ groups, g.2.length < 2 ^ 32) (hsize : groupsSize groups < 2 ^ 64)
    {e : LookupEntry} (he : e ∈ r.entries) (hentry : e ∈ lookupEntries 0 groups) :
    (e.stop < 2 ^ 64 ∧ e.stop ≤ (r.postings.getD []).length) ∧
      ∃ g ∈ groups, e.trigram = g.1 ∧ r.postingsOf e = g.2 := by
  obtain ⟨before, g, after, rfl, htri, hoffset, hlen⟩ := mem_lookupEntries hlength hsize hentry
  have hbytes : postingCodec.encodeAll ((before ++ g :: after).flatMap Prod.snd) =
      postingCodec.encodeAll (before.flatMap Prod.snd) ++
      postingCodec.encodeAll g.2 ++ postingCodec.encodeAll (after.flatMap Prod.snd) := by
    rw [flatMap_append, flatMap_cons, FixedCodec.encodeAll_append,
      FixedCodec.encodeAll_append, append_assoc]
  have htotal : (r.postings.getD []).length = groupsSize (before ++ g :: after) := by
    rw [hindex, length_encodeAll_groups]
  have hstop : e.stop ≤ groupsSize (before ++ g :: after) := by
    rw [LookupEntry.stop, hoffset, hlen, groupsSize_append, groupsSize_cons]
    omega
  refine ⟨⟨by omega, by rwa [htotal]⟩, g, mem_append_right _ (mem_cons_self ..), htri, ?_⟩
  -- there is an entry, so there is a postings file
  have hsome : r.postings = some (r.postings.getD []) := by
    cases hr : r.postings with
    | none =>
      have hnone : r.lookup = none := by
        have hsections := r.sections
        rw [hr, Option.isSome_none, Option.isSome_eq_false_iff,
          Option.isNone_iff_eq_none] at hsections
        exact hsections
      rw [entries_eq_nil hnone] at he
      cases he
    | some bytes => rfl
  rw [hindex, hbytes] at hsome
  refine postingsOf_eq hsome ?_ hlen
  rw [hoffset, length_encodeAll_groups]

end IndexReader

/-! ## Layouts -/

/-- Posting groups and paths that make an index: trigrams are strictly ascending, the postings of
each are nonempty, strictly ascending and name files, paths are distinct and storable, and all
numbers fit their fields. -/
structure Layout where
  /-- The postings by trigram. -/
  groups : List PostingGroup
  /-- The paths by file id. -/
  paths : List String
  ascending : Ascending Prod.fst groups
  nonempty : ∀ g ∈ groups, g.2 ≠ []
  length_lt : ∀ g ∈ groups, g.2.length < 2 ^ 32
  size_lt : groupsSize groups < 2 ^ 64
  ids_ascending : ∀ g ∈ groups, Ascending PostingEntry.fileId g.2
  ids_lt : ∀ g ∈ groups, ∀ p ∈ g.2, p.fileId.toNat < paths.length
  storable : ∀ p ∈ paths, Storable p
  paths_nodup : paths.Nodup
  paths_le : paths.length ≤ 2 ^ 32

namespace Layout

variable (l : Layout)

/-- `lookup.bin`. -/
def lookupBytes : List UInt8 := lookupCodec.encodeAll (lookupEntries 0 l.groups)

/-- `index.bin`. -/
def indexBytes : List UInt8 := postingCodec.encodeAll (l.groups.flatMap Prod.snd)

/-- The reader has the files of the layout open. -/
structure Opened (r : IndexReader) : Prop where
  entries : r.entries = lookupEntries 0 l.groups
  postings : r.postings.getD [] = l.indexBytes
  paths : r.filePaths = l.paths

/-- Every group has an entry. -/
lemma exists_entry {g : PostingGroup} (hg : g ∈ l.groups) :
    ∃ e ∈ lookupEntries 0 l.groups, e.trigram = g.1 := by
  have hmem : g.1 ∈ (lookupEntries 0 l.groups).map LookupEntry.trigram := by
    rw [map_trigram_lookupEntries]
    exact mem_map_of_mem hg
  obtain ⟨e, he, htri⟩ := mem_map.mp hmem
  exact ⟨e, he, htri⟩

/-- The entries are strictly ascending by trigram. -/
lemma entries_ascending : Ascending LookupEntry.trigram (lookupEntries 0 l.groups) := by
  rw [← Ascending.map_iff, map_trigram_lookupEntries, Ascending.map_iff]
  exact l.ascending

variable {l}

/-- The postings of an entry are those of its group, and lie within `index.bin`. -/
lemma Opened.postingsOf {r : IndexReader} (h : l.Opened r) {e : LookupEntry} (he : e ∈ r.entries) :
    (e.stop < 2 ^ 64 ∧ e.stop ≤ (r.postings.getD []).length) ∧
      ∃ g ∈ l.groups, e.trigram = g.1 ∧ r.postingsOf e = g.2 := by
  have hmem := he
  rw [h.entries] at hmem
  exact postingsOf_groups h.postings l.length_lt l.size_lt he hmem

/-- A reader of the files of a layout is well formed. -/
lemma Opened.wellFormed {r : IndexReader} (h : l.Opened r) : r.WellFormed where
  ascending := h.entries ▸ l.entries_ascending
  in_bounds := fun _ he => (h.postingsOf he).1
  ids_ascending := by
    intro e he
    obtain ⟨-, g, hg, -, hps⟩ := h.postingsOf he
    rw [hps]
    exact l.ids_ascending g hg
  ids_lt := by
    intro e he p hp
    obtain ⟨-, g, hg, -, hps⟩ := h.postingsOf he
    rw [h.paths]
    exact l.ids_lt g hg p (hps ▸ hp)
  paths_nodup := h.paths ▸ l.paths_nodup

/-- **A reader of the files of a layout returns its groups.** -/
theorem Opened.mem_lookup {r : IndexReader} (h : l.Opened r) {t : UInt32} {p : PostingEntry} :
    p ∈ r.lookupTrigramWithMasks t ↔ ∃ g ∈ l.groups, g.1 = t ∧ p ∈ g.2 := by
  rw [mem_lookupTrigramWithMasks h.wellFormed.ascending]
  constructor
  · rintro ⟨e, he, rfl, hp⟩
    obtain ⟨-, g, hg, htri, hps⟩ := h.postingsOf he
    exact ⟨g, hg, htri.symm, hps ▸ hp⟩
  · rintro ⟨g, hg, rfl, hp⟩
    obtain ⟨e, he, htri⟩ := l.exists_entry hg
    rw [← h.entries] at he
    obtain ⟨-, g', hg', htri', hps⟩ := h.postingsOf he
    obtain rfl : g' = g := l.ascending.eq_of_key_eq hg' hg (htri'.symm.trans htri)
    exact ⟨e, he, htri, hps ▸ hp⟩

/-- **The files of a layout open.** -/
theorem openReader_files (l : Layout) {files : List UInt8}
    (hfiles : writeFileTable l.paths = .ok files) :
    ∃ r, IndexReader.openReader ⟨l.lookupBytes, l.indexBytes, files⟩ = .ok r ∧ l.Opened r := by
  obtain ⟨data, hwrite, hread⟩ := readFileTable_writeFileTable l.storable l.paths_le
  obtain rfl : data = files := by
    rw [hwrite] at hfiles
    exact Except.ok.inj hfiles
  have hlookup : l.lookupBytes.length = l.groups.length * LOOKUP_ENTRY_SIZE := by
    rw [lookupBytes, FixedCodec.length_encodeAll, length_lookupEntries]
    rfl
  have hindex : l.indexBytes.length = groupsSize l.groups := length_encodeAll_groups _
  -- the sections that are opened
  obtain ⟨s, hs, hentries, hpostings, hdeg⟩ : ∃ s, openSections l.lookupBytes l.indexBytes = .ok s ∧
      s.1.getD [] = l.lookupBytes ∧ s.2.1.getD [] = l.indexBytes ∧
      (s.2.2 = 0 → s.1 = none ∧ s.2.1 = none) := by
    rw [openSections]
    cases hgroups : l.groups with
    | nil =>
      have h1 : l.lookupBytes = [] := by rw [lookupBytes, hgroups]; rfl
      have h2 : l.indexBytes = [] := by rw [indexBytes, hgroups]; rfl
      rw [h1, h2]
      exact ⟨_, rfl, rfl, rfl, fun _ => ⟨rfl, rfl⟩⟩
    | cons g groups =>
      have hlen : l.lookupBytes.length = (groups.length + 1) * LOOKUP_ENTRY_SIZE := by
        rw [hlookup, hgroups, length_cons]
      have hne : ¬ (l.lookupBytes.length = 0 ∨ l.indexBytes.length = 0) := by
        have hg : g ∈ l.groups := hgroups ▸ mem_cons_self ..
        have := length_pos_iff.mpr (l.nonempty g hg)
        rw [hlen, hindex, hgroups, groupsSize_cons, LOOKUP_ENTRY_SIZE, POSTING_ENTRY_SIZE]
        omega
      have hmod : ¬ l.lookupBytes.length % LOOKUP_ENTRY_SIZE ≠ 0 := by
        rw [hlen, Nat.mul_mod_left]
        exact not_not.mpr rfl
      rw [if_neg hne, if_neg hmod]
      refine ⟨_, rfl, rfl, rfl, fun hzero => ?_⟩
      change l.lookupBytes.length / LOOKUP_ENTRY_SIZE = 0 at hzero
      rw [hlen, Nat.mul_div_cancel _ (by decide)] at hzero
      omega
  obtain ⟨hnum, hsections⟩ := openSections_ok hs
  have hopen : ∃ r, openImpl ⟨l.lookupBytes, l.indexBytes, data⟩ = .ok r ∧
      r.lookup = s.1 ∧ r.postings = s.2.1 ∧ r.filePaths = l.paths ∧ r.numEntries = s.2.2 := by
    rw [openImpl]
    split
    · next e he =>
      rw [hs] at he
      cases he
    · next s' hs' =>
      rw [hs] at hs'
      obtain rfl := Except.ok.inj hs'
      split
      · next e he =>
        rw [hread] at he
        cases he
      · next paths hpaths =>
        rw [hread] at hpaths
        obtain rfl := Except.ok.inj hpaths
        exact ⟨_, rfl, rfl, rfl, rfl, rfl⟩
  obtain ⟨r, hr, hrl, hrp, hpaths, hrn⟩ := hopen
  have hopened : l.Opened r := by
    refine ⟨?_, ?_, hpaths⟩
    · rw [entries, hrl, hentries, lookupBytes, FixedCodec.decodeAll_encodeAll]
    · rw [hrp, hpostings]
  have hnotdeg : r.isDegenerate = false := by
    rw [isDegenerate, hrn, hrl, hrp]
    by_cases hzero : s.2.2 = 0
    · obtain ⟨h1, h2⟩ := hdeg hzero
      simp [h1, h2]
    · simp [hzero]
  have hvalid : r.validateLookup = .ok () :=
    validateLookup_ok hopened.wellFormed.ascending hopened.wellFormed.in_bounds
  refine ⟨r, ?_, hopened⟩
  rw [openReader, hr]
  simp only [hnotdeg, Bool.false_eq_true, if_false, hvalid]

end Layout

end Tgrep
