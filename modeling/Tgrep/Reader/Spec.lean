import Mathlib.Data.List.GetD
import Tgrep.Reader

/-!
# What a reader returns

The content of an opened index as lists of records, and what lookups and path searches return in
terms of it.

## Main definitions

* `IndexReader.entries`: the lookup entries.
* `IndexReader.postingsOf`: the postings of a lookup entry.
* `IndexReader.WellFormed`: the content is as the writers of an index leave it.
* `IndexView`, `IndexReader.view`: what an index says, whatever its file ids.

## Main results

* `IndexReader.mem_lookupTrigramWithMasks`: a lookup returns the postings of the trigram's entry.
* `IndexReader.nthTrigramRaw_eq`: the raw bytes of an entry are the encodings of its postings.
* `IndexReader.mem_fileIdsWithPrefix`, `IndexReader.containsPath_iff`: what the searches return.
-/

namespace Tgrep

open List Ascending UInt32

/-- The end of the postings of a lookup entry in `index.bin`. -/
def LookupEntry.stop (e : LookupEntry) : ℕ := e.offset.toNat + e.length.toNat * POSTING_ENTRY_SIZE

/-- What an index says: its paths, and the postings of each trigram with paths in place of file
ids. -/
@[ext] structure IndexView where
  /-- The paths. -/
  paths : Set String
  /-- The postings of a trigram: the path of the file and the two masks. -/
  posts : UInt32 → Set (String × UInt8 × UInt8)

namespace IndexReader

variable {r : IndexReader}

/-! ## Records -/

/-- The lookup entries. -/
def entries (r : IndexReader) : List LookupEntry := lookupCodec.decodeAll (r.lookup.getD [])

/-- The postings of a lookup entry. -/
def postingsOf (r : IndexReader) (e : LookupEntry) : List PostingEntry :=
  r.readPostingEntries e.offset e.length

/-- The lookup table consists of whole entries. -/
lemma dvd_length_lookup (r : IndexReader) : lookupCodec.width ∣ (r.lookup.getD []).length := by
  rw [r.lookup_length]
  exact Nat.dvd_mul_left _ _

@[simp] lemma length_entries (r : IndexReader) : r.entries.length = r.numEntries := by
  rw [entries, lookupCodec.length_decodeAll, r.lookup_length, lookupCodec_width,
    LOOKUP_ENTRY_SIZE, Nat.mul_div_cancel _ (by decide)]

variable {fid : UInt32} {path : String} {t : UInt32} {i : ℕ} {e : LookupEntry}

/-- Reading an entry by its index. -/
lemma readLookupEntry_eq (hi : i < r.entries.length) : r.readLookupEntry i = r.entries[i] :=
  lookupCodec.nth_eq_getElem r.dvd_length_lookup hi

/-- The postings of all trigrams, one after another, are those of the entries. -/
lemma map_trigramPostingAt (r : IndexReader) :
    (List.range r.numTrigrams).map r.trigramPostingAt =
      r.entries.map fun e => (e.trigram, r.postingsOf e) := by
  refine ext_getElem (by simp [numTrigrams]) fun i _ hi => ?_
  have hi' : i < r.entries.length := by rwa [length_map] at hi
  simp only [getElem_map, getElem_range, trigramPostingAt, readLookupEntry_eq hi', postingsOf]

/-- Without a lookup table there are no entries. -/
lemma entries_eq_nil (h : r.lookup = none) : r.entries = [] := by
  rw [entries, h, Option.getD_none, FixedCodec.decodeAll_nil]

/-- Postings within `index.bin` are the records of their bytes. -/
lemma encodeAll_postingsOf (h : e.stop ≤ (r.postings.getD []).length) :
    postingCodec.encodeAll (r.postingsOf e) =
      ((r.postings.getD []).drop e.offset.toNat).take (e.length.toNat * POSTING_ENTRY_SIZE) := by
  rw [LookupEntry.stop] at h
  rw [postingsOf, readPostingEntries]
  cases hp : r.postings with
  | none => simp
  | some postings =>
    rw [hp, Option.getD_some] at h
    have hroom : ¬ postings.length < e.offset.toNat := by omega
    have hlen : e.length.toNat * POSTING_ENTRY_SIZE ≤ postings.length - e.offset.toNat := by omega
    have hcount : min e.length.toNat ((postings.length - e.offset.toNat) / POSTING_ENTRY_SIZE) =
        e.length.toNat := min_eq_left ((Nat.le_div_iff_mul_le (by decide)).mpr hlen)
    have hnth : (fun i => PostingEntry.decode ((postings.drop (e.offset.toNat +
        i * POSTING_ENTRY_SIZE)).take POSTING_ENTRY_SIZE)) =
        postingCodec.nth (postings.drop e.offset.toNat) := by
      funext i
      rw [FixedCodec.nth, drop_drop]
      rfl
    simp only [if_neg hroom, hcount, Option.getD_some]
    rw [hnth]
    exact postingCodec.encodeAll_map_nth (by rw [length_drop]; exact hlen)

/-- A lookup entry within `index.bin` has as many postings as it declares. -/
lemma length_postingsOf (h : e.stop ≤ (r.postings.getD []).length) :
    (r.postingsOf e).length = e.length.toNat := by
  have hlen := congrArg length (encodeAll_postingsOf h)
  rw [FixedCodec.length_encodeAll, postingCodec_width, length_take, length_drop] at hlen
  rw [LookupEntry.stop, POSTING_ENTRY_SIZE] at h
  rw [POSTING_ENTRY_SIZE] at hlen
  omega

/-- Where `index.bin` has the encodings of some postings, a lookup entry that points at them
yields them. -/
lemma postingsOf_eq {ps : List PostingEntry} {before after : List UInt8}
    (hbytes : r.postings = some (before ++ postingCodec.encodeAll ps ++ after))
    (hoffset : e.offset.toNat = before.length) (hlength : e.length.toNat = ps.length) :
    r.postingsOf e = ps := by
  have hsize : (postingCodec.encodeAll ps).length = ps.length * POSTING_ENTRY_SIZE :=
    postingCodec.length_encodeAll ps
  apply postingCodec.encodeAll_injective
  rw [encodeAll_postingsOf, hbytes, Option.getD_some, hoffset, hlength, append_assoc,
    drop_left, ← hsize, take_left]
  rw [LookupEntry.stop, hbytes, Option.getD_some, hoffset, hlength, ← hsize]
  simp only [length_append]
  omega

/-! ## Well-formed readers -/

/-- The content of the index is as its writers leave it: trigrams are strictly ascending, the
postings of each lie within `index.bin` and name files of the file table in strictly ascending
order, and paths are distinct. -/
structure WellFormed (r : IndexReader) : Prop where
  ascending : Ascending LookupEntry.trigram r.entries
  in_bounds : ∀ e ∈ r.entries, e.stop < 2 ^ 64 ∧ e.stop ≤ (r.postings.getD []).length
  ids_ascending : ∀ e ∈ r.entries, Ascending PostingEntry.fileId (r.postingsOf e)
  ids_lt : ∀ e ∈ r.entries, ∀ p ∈ r.postingsOf e, p.fileId.toNat < r.filePaths.length
  paths_nodup : r.filePaths.Nodup

/-- A search that finds something finds an entry of the trigram. -/
lemma binarySearch_sound (h : r.binarySearch t = some i) :
    ∃ hi : i < r.entries.length, r.entries[i].trigram = t := by
  obtain ⟨-, hi, hkey⟩ := Search.binarySearch_sound h
  have hi' : i < r.entries.length := by rwa [length_entries]
  exact ⟨hi', by rwa [← readLookupEntry_eq hi']⟩

/-- In a sorted lookup table, a search for the trigram of an entry finds it. -/
lemma binarySearch_complete (hasc : Ascending LookupEntry.trigram r.entries)
    (hi : i < r.entries.length) : r.binarySearch r.entries[i].trigram = some i := by
  rw [length_entries] at hi
  refine Search.binarySearch_complete (fun a b hab hb => ?_) (Nat.zero_le _) hi ?_
  · have hb' : b < r.entries.length := by rwa [length_entries]
    have ha' : a < r.entries.length := hab.trans hb'
    rw [readLookupEntry_eq ha', readLookupEntry_eq hb']
    exact pairwise_iff_getElem.mp hasc a b ha' hb' hab
  · rw [readLookupEntry_eq]

/-- A lookup of the trigram of an entry returns its postings. -/
lemma lookupTrigramWithMasks_eq (hasc : Ascending LookupEntry.trigram r.entries)
    (he : e ∈ r.entries) : r.lookupTrigramWithMasks e.trigram = r.postingsOf e := by
  have hsome : r.lookup.isNone = false := by
    cases h : r.lookup with
    | none =>
      rw [entries_eq_nil h] at he
      simp at he
    | some _ => rfl
  obtain ⟨i, hi, rfl⟩ := getElem_of_mem he
  rw [lookupTrigramWithMasks, hsome, binarySearch_complete hasc hi]
  simp only [Bool.false_eq_true, if_false, readLookupEntry_eq hi, postingsOf]

/-- A lookup of a trigram without an entry returns nothing. -/
lemma lookupTrigramWithMasks_eq_nil (h : ∀ e ∈ r.entries, e.trigram ≠ t) :
    r.lookupTrigramWithMasks t = [] := by
  rw [lookupTrigramWithMasks]
  split_ifs
  · rfl
  · split
    · next i hi =>
      obtain ⟨hlt, htri⟩ := binarySearch_sound hi
      exact absurd htri (h _ (getElem_mem hlt))
    · rfl

/-- A lookup returns nothing, or the postings of an entry of the trigram. -/
lemma lookupTrigramWithMasks_cases (hasc : Ascending LookupEntry.trigram r.entries) (t : UInt32) :
    (r.lookupTrigramWithMasks t = [] ∧ ∀ e ∈ r.entries, e.trigram ≠ t) ∨
      ∃ e ∈ r.entries, e.trigram = t ∧ r.lookupTrigramWithMasks t = r.postingsOf e := by
  by_cases h : ∃ e ∈ r.entries, e.trigram = t
  · obtain ⟨e, he, rfl⟩ := h
    exact .inr ⟨e, he, rfl, lookupTrigramWithMasks_eq hasc he⟩
  · have hnone : ∀ e ∈ r.entries, e.trigram ≠ t := fun e he heq => h ⟨e, he, heq⟩
    exact .inl ⟨lookupTrigramWithMasks_eq_nil hnone, hnone⟩

/-- **A lookup returns the postings of the trigram's entry.** -/
theorem mem_lookupTrigramWithMasks (hasc : Ascending LookupEntry.trigram r.entries)
    {p : PostingEntry} :
    p ∈ r.lookupTrigramWithMasks t ↔ ∃ e ∈ r.entries, e.trigram = t ∧ p ∈ r.postingsOf e := by
  rcases lookupTrigramWithMasks_cases hasc t with ⟨hnil, hnone⟩ | ⟨e, he, rfl, heq⟩
  · rw [hnil]
    constructor
    · intro h
      simp at h
    · rintro ⟨e, he, htri, -⟩
      exact absurd htri (hnone e he)
  · rw [heq]
    constructor
    · exact fun h => ⟨e, he, rfl, h⟩
    · rintro ⟨e', he', htri, hp⟩
      rwa [hasc.eq_of_key_eq he' he htri] at hp

/-- What holds of the postings of every entry, and of no postings, holds of every lookup. -/
lemma lookupTrigramWithMasks_induction (hasc : Ascending LookupEntry.trigram r.entries)
    {P : List PostingEntry → Prop} (hnil : P []) (hP : ∀ e ∈ r.entries, P (r.postingsOf e))
    (t : UInt32) : P (r.lookupTrigramWithMasks t) := by
  rcases lookupTrigramWithMasks_cases hasc t with ⟨h, -⟩ | ⟨e, he, -, h⟩
  · rwa [h]
  · rw [h]
    exact hP e he

/-- Lookups are strictly ascending by file. -/
lemma WellFormed.lookup_ascending (h : r.WellFormed) (t : UInt32) :
    Ascending PostingEntry.fileId (r.lookupTrigramWithMasks t) :=
  lookupTrigramWithMasks_induction h.ascending nil h.ids_ascending t

/-- Lookups return files of the file table. -/
lemma WellFormed.lookup_lt (h : r.WellFormed) {p : PostingEntry}
    (hp : p ∈ r.lookupTrigramWithMasks t) : p.fileId.toNat < r.filePaths.length :=
  lookupTrigramWithMasks_induction (P := fun ps => ∀ p ∈ ps, p.fileId.toNat < r.filePaths.length)
    h.ascending (by simp) h.ids_lt t p hp

/-- The raw bytes of an entry within `index.bin` are the encodings of its postings. -/
lemma nthTrigramRaw_of_within (hi : i < r.numEntries) (hlt : (r.readLookupEntry i).stop < 2 ^ 64)
    (hle : (r.readLookupEntry i).stop ≤ (r.postings.getD []).length) :
    r.nthTrigramRaw i = some ((r.readLookupEntry i).trigram,
      postingCodec.encodeAll (r.postingsOf (r.readLookupEntry i))) := by
  have henc := encodeAll_postingsOf hle
  rw [LookupEntry.stop] at hlt hle
  rw [nthTrigramRaw, if_neg (not_le.mpr hi)]
  cases hp : r.postings with
  | none =>
    -- without postings there is no lookup table
    have hnone : r.lookup = none := by
      have := r.sections
      rw [hp, Option.isSome_none, Option.isSome_eq_false_iff, Option.isNone_iff_eq_none] at this
      exact this
    rw [← length_entries, entries_eq_nil hnone] at hi
    exact absurd hi (Nat.not_lt_zero i)
  | some postings =>
    rw [hp, Option.getD_some] at hle henc
    have hbounds : ¬ ((r.readLookupEntry i).offset.toNat > postings.length ∨
        (r.readLookupEntry i).offset.toNat + (r.readLookupEntry i).length.toNat *
          POSTING_ENTRY_SIZE > postings.length) := by omega
    simp only [if_neg (not_le.mpr hlt), if_neg hbounds, Nat.add_sub_cancel_left, henc]

/-- **The raw bytes of an entry are the encodings of its postings.** -/
theorem WellFormed.nthTrigramRaw_eq (h : r.WellFormed) (hi : i < r.entries.length) :
    r.nthTrigramRaw i =
      some (r.entries[i].trigram, postingCodec.encodeAll (r.postingsOf r.entries[i])) := by
  obtain ⟨hlt, hle⟩ := h.in_bounds _ (getElem_mem hi)
  rw [← readLookupEntry_eq hi] at hlt hle ⊢
  exact nthTrigramRaw_of_within (by rwa [← length_entries]) hlt hle

/-! ## Files -/

/-- Ids of files fit in 32 bits. -/
lemma toNat_ofNat_of_lt (h : i < r.filePaths.length) : (UInt32.ofNat i).toNat = i :=
  toNat_ofNat_of_lt' (lt_of_lt_of_le h r.files_le)

/-- The path order lists every file id once. -/
lemma pathOrder_perm (r : IndexReader) : r.pathOrder.Perm (List.range r.filePaths.length) := by
  rw [r.path_order]
  exact sortByKey_perm _

/-- The path order lists exactly the file ids. -/
lemma mem_pathOrder {id : ℕ} : id ∈ r.pathOrder ↔ id < r.filePaths.length := by
  rw [r.pathOrder_perm.mem_iff, mem_range]

/-- The path order is sorted by path. -/
lemma pairwise_pathOrder (r : IndexReader) :
    r.pathOrder.Pairwise fun a b =>
      pathBytes (r.filePaths.getD a "") ≤ pathBytes (r.filePaths.getD b "") := by
  rw [r.path_order]
  exact pairwise_sortByKey _

/-- A file id resolves to a path iff it is the id of a file. -/
lemma filePath_eq_some :
    r.filePath fid = some path ↔
      ∃ h : fid.toNat < r.filePaths.length, r.filePaths[fid.toNat] = path := by
  rw [filePath, getElem?_eq_some_iff]

/-- **`containsPath` is membership in the file table.** -/
theorem containsPath_iff : r.containsPath path = true ↔ path ∈ r.filePaths := by
  have hasc : ∀ i j, i < j → j < r.pathOrder.length →
      r.bytesAt (r.pathOrder.getD i 0) ≤ r.bytesAt (r.pathOrder.getD j 0) := by
    intro i j hij hj
    rw [getD_eq_getElem _ _ (hij.trans hj), getD_eq_getElem _ _ hj]
    exact pairwise_iff_getElem.mp r.pairwise_pathOrder i j (hij.trans hj) hj hij
  rw [containsPath, Search.isSome_binarySearch hasc]
  constructor
  · rintro ⟨i, -, hi, hkey⟩
    rw [getD_eq_getElem _ _ hi, bytesAt] at hkey
    have hid := mem_pathOrder.mp (getElem_mem hi)
    rw [← pathBytes_injective hkey, getD_eq_getElem _ _ hid]
    exact getElem_mem hid
  · intro h
    obtain ⟨id, hid, rfl⟩ := getElem_of_mem h
    obtain ⟨i, hi, rfl⟩ := getElem_of_mem (mem_pathOrder.mpr hid)
    refine ⟨i, Nat.zero_le i, hi, ?_⟩
    rw [getD_eq_getElem _ _ hi, bytesAt, getD_eq_getElem _ _ hid]

/-- The empty reader has no path. -/
lemma containsPath_empty (path : String) : empty.containsPath path = false := by
  rw [Bool.eq_false_iff]
  exact fun hcontains => not_mem_nil (containsPath_iff.mp hcontains)

/-- What is found for a prefix is the range of the prefix. -/
lemma fileIdsWithPrefix_eq (r : IndexReader) (p : String) :
    r.fileIdsWithPrefix p =
      (Search.withPrefix r.bytesAt (pathBytes p) r.pathOrder).map UInt32.ofNat := by
  have hsorted : r.pathOrder.Pairwise fun a b => r.bytesAt a ≤ r.bytesAt b := r.pairwise_pathOrder
  rw [fileIdsWithPrefix, Search.drop_lowerBound hsorted, Search.withPrefix]

/-- **The files found for a prefix** are those whose paths start with it. -/
theorem mem_fileIdsWithPrefix {p : String} :
    fid ∈ r.fileIdsWithPrefix p ↔ ∃ path, r.filePath fid = some path ∧ startsWith path p = true := by
  have hsorted : r.pathOrder.Pairwise fun a b => r.bytesAt a ≤ r.bytesAt b := r.pairwise_pathOrder
  simp only [fileIdsWithPrefix_eq, mem_map, startsWith, isPrefixOf_iff_prefix,
    filePath_eq_some, Search.mem_withPrefix hsorted, mem_pathOrder, bytesAt]
  constructor
  · rintro ⟨id, ⟨hid, hp⟩, rfl⟩
    rw [getD_eq_getElem _ _ hid] at hp
    exact ⟨r.filePaths[id], ⟨by rwa [toNat_ofNat_of_lt hid], by simp only [toNat_ofNat_of_lt hid]⟩,
      hp⟩
  · rintro ⟨_, ⟨hid, rfl⟩, hp⟩
    refine ⟨fid.toNat, ⟨hid, ?_⟩, UInt32.ofNat_toNat⟩
    rwa [getD_eq_getElem _ _ hid]

/-- The range of a prefix is a part of the path order. -/
lemma withPrefix_sublist (r : IndexReader) (bytes : List UInt8) :
    (Search.withPrefix r.bytesAt bytes r.pathOrder).Sublist r.pathOrder :=
  (takeWhile_sublist _).trans (dropWhile_sublist _)

/-- No file is found twice for a prefix. -/
lemma nodup_fileIdsWithPrefix (r : IndexReader) (p : String) : (r.fileIdsWithPrefix p).Nodup := by
  have hsub := r.withPrefix_sublist (pathBytes p)
  have hnodup : r.pathOrder.Nodup := r.pathOrder_perm.nodup_iff.mpr nodup_range
  rw [fileIdsWithPrefix_eq]
  refine List.Nodup.map_on (fun a ha b hb hab => ?_) (hnodup.sublist hsub)
  rw [← toNat_ofNat_of_lt (mem_pathOrder.mp (hsub.subset ha)), hab,
    toNat_ofNat_of_lt (mem_pathOrder.mp (hsub.subset hb))]

/-- All file ids, as long as their number fits in 32 bits. -/
lemma mem_allFileIds (h : r.filePaths.length < 2 ^ 32) :
    fid ∈ r.allFileIds ↔ fid.toNat < r.filePaths.length := by
  rw [allFileIds, UInt32.toNat_ofNat_of_lt' h]
  simp only [mem_map, mem_range]
  constructor
  · rintro ⟨i, hi, rfl⟩
    rwa [toNat_ofNat_of_lt hi]
  · exact fun hlt => ⟨fid.toNat, hlt, UInt32.ofNat_toNat⟩

/-- All file ids are listed in ascending order. -/
lemma allFileIds_ascending (r : IndexReader) : Ascending id r.allFileIds := by
  rw [allFileIds, Ascending, pairwise_map]
  refine List.Pairwise.imp_of_mem (fun ha hb hab => ?_) pairwise_lt_range
  have hsize := (ofNat r.filePaths.length).toNat_lt
  have ha' := (mem_range.mp ha).trans hsize
  have hb' := (mem_range.mp hb).trans hsize
  rw [id, id, lt_iff_toNat_lt, toNat_ofNat_of_lt' ha', toNat_ofNat_of_lt' hb']
  exact hab

/-- In a well-formed reader, different ids have different paths. -/
lemma WellFormed.filePath_injective (h : r.WellFormed) {a b : UInt32}
    (ha : r.filePath a = some path) (hb : r.filePath b = some path) : a = b := by
  obtain ⟨ha', hpa⟩ := filePath_eq_some.mp ha
  obtain ⟨hb', hpb⟩ := filePath_eq_some.mp hb
  rw [← UInt32.toNat_inj]
  exact (List.Nodup.getElem_inj_iff h.paths_nodup).mp (hpa.trans hpb.symm)

/-- What the reader says. -/
def view (r : IndexReader) : IndexView where
  paths := {path | path ∈ r.filePaths}
  posts t := {x | ∃ e ∈ r.lookupTrigramWithMasks t,
    r.filePath e.fileId = some x.1 ∧ (e.locMask, e.nextMask) = x.2}

/-! ## Small readers -/

/-- The empty reader is well formed. -/
lemma empty_wellFormed : empty.WellFormed := by
  have hentries : empty.entries = [] := entries_eq_nil rfl
  refine ⟨?_, ?_, ?_, ?_, nodup_nil⟩
  · rw [hentries]
    exact nil
  all_goals
    rw [hentries]
    simp

/-- An index of one file, `a`, with one posting. -/
def single : IndexReader where
  lookup := some (lookupCodec.encodeAll [⟨7, 0, 1⟩])
  postings := some (postingCodec.encodeAll [⟨0, 255, 255⟩])
  filePaths := ["a"]
  pathOrder := [0]
  numEntries := 1
  lookup_length := lookupCodec.length_encodeAll _
  sections := rfl
  path_order := rfl
  storable := by
    intro path hpath
    rw [List.mem_singleton.mp hpath]
    exact ⟨by decide, by decide⟩
  files_le := by decide

/-- The index of one file is well formed. -/
lemma single_wellFormed : single.WellFormed := by
  have hentries : single.entries = [⟨7, 0, 1⟩] := lookupCodec.decodeAll_encodeAll _
  have hpostings : single.postingsOf ⟨7, 0, 1⟩ = [⟨0, 255, 255⟩] := by
    have hbytes : single.postings = some ([] ++ postingCodec.encodeAll [⟨0, 255, 255⟩] ++ []) := by
      rw [nil_append, append_nil]
      rfl
    exact postingsOf_eq hbytes rfl rfl
  refine ⟨?_, ?_, ?_, ?_, nodup_singleton _⟩
  · rw [hentries]
    exact pairwise_singleton _ _
  all_goals
    rw [hentries, forall_mem_singleton]
  · exact ⟨by decide, by decide⟩
  · rw [hpostings]
    exact pairwise_singleton _ _
  · rw [hpostings]
    decide

end IndexReader

end Tgrep
