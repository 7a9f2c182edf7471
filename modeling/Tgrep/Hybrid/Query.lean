import Tgrep.Hybrid.Index
import Tgrep.Live.History
import Tgrep.Live.Lookup
import Tgrep.Reader.Spec

/-!
# Scoped queries over both layers

A query restricted to a path prefix filters the postings of each layer by scope and checks the
overlay's precedence once per selected id. The result is that of the whole index, restricted to
the scope.

## Main definitions

* `HybridIndex.WellFormed`: both layers are consistent, and their ids do not meet.
* `HybridIndex.view`: what both layers together say.
* `HybridIndex.ScopedEvaluation`: what an evaluation under a prefix must satisfy.

## Main results

* `HybridIndex.mem_executeQueryWithMasksIn`: the files that a plan returns.
* `HybridIndex.executeQueryWithMasksIn_run`: scoped evaluation over any run of the overlay below
  the overlay bit.
* `HybridIndex.executeQueryWithMasksIn_wraps`: past the overlay bit an active path is lost.
-/

namespace Tgrep

open List Ascending LiveIndex UInt32

/-- The scope of a prefix contains exactly the files whose paths start with it. -/
lemma ReaderScope.contains_new {r : IndexReader} {p : String} {fid : UInt32} :
    (ReaderScope.new r p).contains fid = true ↔
      ∃ path, r.filePath fid = some path ∧ startsWith path p = true := by
  have hlt : fid.toNat < r.numFiles ↔ ∃ path, r.filePath fid = some path := by
    simp only [IndexReader.filePath_eq_some]
    exact ⟨fun h => ⟨_, h, rfl⟩, fun ⟨_, h, _⟩ => h⟩
  rw [contains, new]
  split_ifs with hp
  · subst hp
    simpa using hlt
  · have hids : ∀ i ∈ (r.fileIdsWithPrefix p).map UInt32.toNat, i < r.numFiles := by
      intro i hi
      obtain ⟨id, hid, rfl⟩ := mem_map.mp hi
      obtain ⟨path, hpath, -⟩ := IndexReader.mem_fileIdsWithPrefix.mp hid
      exact (IndexReader.filePath_eq_some.mp hpath).1
    rw [Option.all_some, ← foldl_map, BitSet.test_foldl_set hids, Bool.and_eq_true,
      decide_eq_true_eq, decide_eq_true_eq, mem_map_of_injective fun a b => UInt32.toNat_inj.mp,
      IndexReader.mem_fileIdsWithPrefix]
    refine ⟨fun h => h.2, fun h => ⟨?_, h⟩⟩
    obtain ⟨path, hpath, -⟩ := h
    exact hlt.mpr ⟨path, hpath⟩

namespace HybridIndex

/-- Both layers are consistent, and the ids of the reader are below the overlay bit. -/
structure WellFormed (h : HybridIndex) : Prop where
  reader : h.reader.WellFormed
  files_le : h.reader.numFiles ≤ 2 ^ 31
  live : h.live.Rep

/-- The ids of the two layers are apart: those of the reader are below the overlay bit, and those of
the overlay have it. -/
structure Separated (h : HybridIndex) : Prop where
  files_le : h.reader.numFiles ≤ 2 ^ 31
  live : h.live.Rep

variable {h : HybridIndex}

/-- Consistent layers are apart. -/
lemma WellFormed.separated (hw : h.WellFormed) : h.Separated := ⟨hw.files_le, hw.live⟩

/-! ## Files of the two layers -/

variable {e : PostingEntry} {t : UInt32} {path p : String} {fid : UInt32}

/-- A reader file is not an overlay file. -/
lemma Separated.not_overlay (hs : h.Separated) (hlt : fid.toNat < h.reader.filePaths.length) :
    LiveIndex.isOverlayId fid = false := by
  have hle : h.reader.filePaths.length ≤ 2 ^ 31 := hs.files_le
  rw [← Bool.not_eq_true, isOverlayId_iff]
  omega

/-- A reader file is resolved by the reader. -/
lemma Separated.resolvePath_reader (hs : h.Separated) (hp : h.reader.filePath fid = some path) :
    h.resolvePath fid = some path := by
  obtain ⟨hlt, -⟩ := IndexReader.filePath_eq_some.mp hp
  rw [resolvePath, hs.not_overlay hlt, if_neg Bool.false_ne_true, hp]

/-- An overlay file is resolved by the overlay. -/
lemma Separated.resolvePath_live (hs : h.Separated) (hp : h.live.filePath fid = some path) :
    h.resolvePath fid = some path := by
  rw [resolvePath, hs.live.isOverlayId_of_filePath hp, if_pos rfl, hp]

/-- The path of a file lies under the prefix. -/
def inScope (h : HybridIndex) (pathPrefix : String) (fileId : UInt32) : Bool :=
  (h.resolvePath fileId).any fun path => startsWith path pathPrefix

/-- A file is in scope iff it has a path that starts with the prefix. -/
lemma inScope_eq_true :
    h.inScope p fid = true ↔ ∃ path, h.resolvePath fid = some path ∧ startsWith path p = true := by
  rw [inScope]
  cases h.resolvePath fid <;> simp

/-- A file with a path is in scope iff its path starts with the prefix. -/
lemma inScope_iff (hp : h.resolvePath fid = some path) :
    h.inScope p fid = true ↔ startsWith path p = true := by
  rw [inScope, hp, Option.any_some]

/-- For overlay files, the scope check of a query is the one on their paths. -/
lemma Separated.liveInScope_eq (hs : h.Separated) (hp : h.live.filePath fid = some path) :
    h.liveInScope p fid = h.inScope p fid := by
  rw [inScope, hs.resolvePath_live hp, liveInScope, hp, Option.any_some]
  by_cases hempty : p = ""
  · subst hempty
    simp
  · simp [hempty]

/-- For reader files, the scope check of a query is the one on their paths. -/
lemma Separated.contains_eq (hs : h.Separated) (hlt : fid.toNat < h.reader.filePaths.length) :
    (ReaderScope.new h.reader p).contains fid = h.inScope p fid := by
  have hp : h.reader.filePath fid = some h.reader.filePaths[fid.toNat] :=
    IndexReader.filePath_eq_some.mpr ⟨hlt, rfl⟩
  rw [Bool.eq_iff_iff, ReaderScope.contains_new, inScope_iff (hs.resolvePath_reader hp)]
  constructor
  · rintro ⟨path, hpath, hstarts⟩
    rw [hp, Option.some.injEq] at hpath
    rwa [hpath]
  · exact fun hstarts => ⟨_, hp, hstarts⟩

/-- The file is an overlay file, or an active one of the reader. -/
def fileActive (h : HybridIndex) (fileId : UInt32) : Bool :=
  LiveIndex.isOverlayId fileId || h.readerEntryActive fileId

/-- **The active paths are those of the active files.** -/
theorem Separated.hasActivePath_iff (hs : h.Separated) :
    h.hasActivePath path = true ↔
      ∃ fid, h.resolvePath fid = some path ∧ h.fileActive fid = true := by
  rw [hasActivePath]
  split_ifs with hlive hdel
  · obtain ⟨fid, hfid⟩ := hs.live.hasPath_iff.mp hlive
    refine iff_of_true rfl ⟨fid, hs.resolvePath_live hfid, ?_⟩
    rw [fileActive, hs.live.isOverlayId_of_filePath hfid, Bool.true_or]
  · refine iff_of_false (fun hf => hf) ?_
    rintro ⟨fid, hfid, hact⟩
    rw [resolvePath] at hfid
    split_ifs at hfid with hover
    · exact hlive (hs.live.hasPath_iff.mpr ⟨fid, hfid⟩)
    · rw [fileActive, readerEntryActive, hfid] at hact
      simp [hover, hdel] at hact
  · rw [IndexReader.containsPath_iff]
    constructor
    · intro hmem
      obtain ⟨i, hi, rfl⟩ := getElem_of_mem hmem
      have hi' := IndexReader.toNat_ofNat_of_lt hi
      have hp : h.reader.filePath (ofNat i) = some h.reader.filePaths[i] := by
        rw [IndexReader.filePath, hi', getElem?_eq_getElem hi]
      refine ⟨ofNat i, hs.resolvePath_reader hp, ?_⟩
      rw [fileActive, readerEntryActive, hp]
      simp [hlive, hdel]
    · rintro ⟨fid, hfid, -⟩
      rw [resolvePath] at hfid
      split_ifs at hfid with hover
      · exact absurd (hs.live.hasPath_iff.mpr ⟨fid, hfid⟩) hlive
      · obtain ⟨hlt, rfl⟩ := IndexReader.filePath_eq_some.mp hfid
        exact getElem_mem hlt

variable (hw : h.WellFormed)

include hw

/-- An active file is determined by its path. -/
lemma WellFormed.resolvePath_injective {a b : UInt32}
    (ha : h.resolvePath a = some path) (hb : h.resolvePath b = some path)
    (hacta : h.fileActive a = true) (hactb : h.fileActive b = true) : a = b := by
  -- an active reader file does not have the path of an overlay file
  have hmixed : ∀ {i j : UInt32}, isOverlayId i = true →
      isOverlayId j = false → h.live.filePath i = some path →
      h.reader.filePath j = some path → h.fileActive j = true → i = j := by
    intro i j _ hj hpi hpj hact
    have hlive := hw.live.hasPath_iff.mpr ⟨i, hpi⟩
    rw [fileActive, hj, Bool.false_or, readerEntryActive, hpj] at hact
    simp [hlive] at hact
  rw [resolvePath] at ha hb
  split_ifs at ha hb with hoa hob hob
  · exact hw.live.filePath_injective ha hb
  · exact hmixed hoa (by simpa using hob) ha hb hactb
  · exact (hmixed hob (by simpa using hoa) hb ha hacta).symm
  · exact hw.reader.filePath_injective ha hb

/-! ## Lookups -/

/-- Every reader posting is below every overlay posting. -/
lemma WellFormed.reader_lt_live {a b : PostingEntry} (ha : a ∈ h.reader.lookupTrigramWithMasks t)
    (hb : b ∈ h.live.lookupTrigramWithMasks t) : a.fileId < b.fileId := by
  have hlt := hw.reader.lookup_lt ha
  have hover := isOverlayId_iff.mp (hw.live.lookup_overlay hb)
  have hle : h.reader.filePaths.length ≤ 2 ^ 31 := hw.files_le
  rw [lt_iff_toNat_lt]
  omega

/-- The postings of both layers, each filtered, are strictly ascending. -/
lemma WellFormed.append_ascending (t : UInt32) {entries live : List PostingEntry}
    (hentries : entries.Sublist (h.reader.lookupTrigramWithMasks t))
    (hlive : Ascending PostingEntry.fileId live)
    (hsub : ∀ e ∈ live, e ∈ h.live.lookupTrigramWithMasks t) :
    Ascending PostingEntry.fileId (entries ++ live) :=
  append.mpr ⟨(hw.reader.lookup_ascending t).sublist hentries, hlive,
    fun _ ha _ hb => hw.reader_lt_live (hentries.subset ha) (hsub _ hb)⟩

/-- The postings of a trigram are strictly ascending. -/
lemma WellFormed.lookup_ascending (t : UInt32) :
    Ascending PostingEntry.fileId (h.lookupTrigramWithMasks t) :=
  hw.append_ascending t filter_sublist (h.live.lookup_ascending t) fun _ he => he

/-- The postings that a scoped query considers are strictly ascending. -/
lemma WellFormed.scopedLookup_ascending (p : String) (t : UInt32) :
    Ascending PostingEntry.fileId (h.scopedLookup p t) := by
  refine hw.append_ascending t filter_sublist ?_ fun e he => ?_
  · refine sortByKey_ascending (nodup (map_iff.mpr ?_))
    exact (h.live.lookup_ascending t).sublist filter_sublist
  · exact (mem_filter.mp (mem_sortByKey.mp he)).1

/-- A scoped query considers the postings of the files in scope. -/
lemma WellFormed.mem_scopedLookup : e ∈ h.scopedLookup p t ↔
      (e ∈ h.reader.lookupTrigramWithMasks t ∨ e ∈ h.live.lookupTrigramWithMasks t) ∧
        h.inScope p e.fileId = true := by
  simp only [scopedLookup, mem_append, mem_sortByKey, mem_filter, or_and_right]
  refine or_congr (and_congr_right fun he => ?_) (and_congr_right fun he => ?_)
  · rw [hw.separated.contains_eq (hw.reader.lookup_lt he)]
  · obtain ⟨path, hpath⟩ := hw.live.lookup_live he
    rw [hw.separated.liveInScope_eq hpath]

/-- **A scoped query considers the postings of the whole index that are in scope**, with the same
masks. -/
theorem WellFormed.scopedLookup_eq_filter (p : String) (t : UInt32) :
    h.scopedLookup p t = (h.scopedLookup "" t).filter fun e => h.inScope p e.fileId := by
  refine (hw.scopedLookup_ascending p t).eq_of_mem_iff
    ((hw.scopedLookup_ascending "" t).sublist filter_sublist) fun e => ?_
  rw [mem_filter, hw.mem_scopedLookup, hw.mem_scopedLookup, and_assoc]
  refine and_congr_right fun _ => ⟨fun hin => ⟨?_, hin⟩, fun hin => hin.2⟩
  -- every file with a path is in the scope of the empty prefix
  obtain ⟨path, hpath, -⟩ := inScope_eq_true.mp hin
  exact (inScope_iff hpath).mpr (startsWith_empty path)

/-- For an active file in scope, a scoped query considers the postings of the hybrid index. -/
lemma WellFormed.mem_scopedLookup_iff (hin : h.inScope p e.fileId = true)
    (hact : h.fileActive e.fileId = true) :
    e ∈ h.scopedLookup p t ↔ e ∈ h.lookupTrigramWithMasks t := by
  rw [hw.mem_scopedLookup, lookupTrigramWithMasks, mem_append, mem_filter]
  simp only [hin, and_true]
  refine or_congr_left (and_iff_left_of_imp fun he => ?_).symm
  rwa [fileActive, hw.separated.not_overlay (hw.reader.lookup_lt he), Bool.false_or] at hact

/-- The files with postings in the hybrid index are active and have paths. -/
lemma WellFormed.lookup_active (he : e ∈ h.lookupTrigramWithMasks t) :
    h.fileActive e.fileId = true ∧ ∃ path, h.resolvePath e.fileId = some path := by
  rcases mem_append.mp he with he | he
  · obtain ⟨he, hact⟩ := mem_filter.mp he
    have hp : h.reader.filePath e.fileId = some _ :=
      IndexReader.filePath_eq_some.mpr ⟨hw.reader.lookup_lt he, rfl⟩
    exact ⟨by rw [fileActive, hact, Bool.or_true], _, hw.separated.resolvePath_reader hp⟩
  · obtain ⟨path, hpath⟩ := hw.live.lookup_live he
    exact ⟨by rw [fileActive, hw.live.lookup_overlay he, Bool.true_or], path,
      hw.separated.resolvePath_live hpath⟩

omit hw

/-- What the hybrid index says. -/
def view (h : HybridIndex) : IndexView where
  paths := {path | h.hasActivePath path = true}
  posts t := {x | ∃ e ∈ h.lookupTrigramWithMasks t,
    h.resolvePath e.fileId = some x.1 ∧ (e.locMask, e.nextMask) = x.2}

/-- Under an empty overlay, the hybrid index says what its reader says. -/
lemma WellFormed.view_of_new (hw : h.WellFormed) (hnew : h.live = LiveIndex.new) :
    h.view = h.reader.view := by
  have hpath : ∀ path, h.live.hasPath path = false ∧ h.live.isDeleted path = false := by
    intro path
    rw [hnew]
    exact ⟨rfl, rfl⟩
  have hlookup : ∀ t, h.live.lookupTrigramWithMasks t = [] := by
    intro t
    rw [hnew]
    rfl
  ext
  · rename_i path
    change h.hasActivePath path = true ↔ path ∈ h.reader.filePaths
    rw [hasActivePath, (hpath path).1, (hpath path).2]
    exact IndexReader.containsPath_iff
  · rename_i t x
    change (∃ e ∈ h.lookupTrigramWithMasks t, _) ↔ ∃ e ∈ h.reader.lookupTrigramWithMasks t, _
    refine exists_congr fun e => ?_
    rw [lookupTrigramWithMasks, hlookup, append_nil, mem_filter, and_assoc]
    refine and_congr_right fun he => ?_
    have hp : h.reader.filePath e.fileId = some _ :=
      IndexReader.filePath_eq_some.mpr ⟨hw.reader.lookup_lt he, rfl⟩
    rw [readerEntryActive, hw.separated.resolvePath_reader hp, hp]
    simp [hpath]

/-! ## All files -/

/-- All files in scope are those whose paths are. -/
lemma Separated.mem_scopedFileIds (hs : h.Separated) :
    fid ∈ h.scopedFileIds p ↔ h.inScope p fid = true := by
  have hsmall : h.reader.filePaths.length < 2 ^ 32 :=
    lt_of_le_of_lt hs.files_le (by decide)
  have hreader : fid ∈ (if p = "" then h.reader.allFileIds
      else sortByKey (fun id => id) (h.reader.fileIdsWithPrefix p)) ↔
      ∃ path, h.reader.filePath fid = some path ∧ startsWith path p = true := by
    split_ifs with hp
    · subst hp
      rw [IndexReader.mem_allFileIds hsmall]
      simp only [IndexReader.filePath_eq_some, startsWith_empty, and_true]
      exact ⟨fun hlt => ⟨_, hlt, rfl⟩, fun ⟨_, hlt, _⟩ => hlt⟩
    · rw [mem_sortByKey, IndexReader.mem_fileIdsWithPrefix]
  rw [scopedFileIds, mem_append, hreader, mem_sortByKey, mem_filter, mem_allFileIds]
  constructor
  · rintro (⟨path, hpath, hstarts⟩ | ⟨⟨path, hpath⟩, hin⟩)
    · exact (inScope_iff (hs.resolvePath_reader hpath)).mpr hstarts
    · rwa [← hs.liveInScope_eq hpath]
  · intro hin
    obtain ⟨path, hpath, hstarts⟩ := inScope_eq_true.mp hin
    by_cases hover : isOverlayId fid = true
    · rw [resolvePath, if_pos hover] at hpath
      exact .inr ⟨⟨path, hpath⟩, by rw [hs.liveInScope_eq hpath, hin]⟩
    · rw [resolvePath, if_neg hover] at hpath
      exact .inl ⟨path, hpath, hstarts⟩

/-- All files in scope are listed in ascending order. -/
lemma Separated.scopedFileIds_ascending (hs : h.Separated) (p : String) :
    Ascending id (h.scopedFileIds p) := by
  rw [scopedFileIds, append]
  refine ⟨?_, ?_, fun a ha b hb => ?_⟩
  · split_ifs
    · exact h.reader.allFileIds_ascending
    · apply sortByKey_ascending
      rw [map_id]
      exact h.reader.nodup_fileIdsWithPrefix p
  · apply sortByKey_ascending
    rw [map_id]
    exact (h.live.allFileIds_ascending.sublist filter_sublist).nodup
  · have hlt : a.toNat < h.reader.filePaths.length := by
      split_ifs at ha
      · exact (IndexReader.mem_allFileIds (lt_of_le_of_lt hs.files_le (by decide))).mp ha
      · obtain ⟨path, hpath, -⟩ :=
          IndexReader.mem_fileIdsWithPrefix.mp (mem_sortByKey.mp ha)
        exact (IndexReader.filePath_eq_some.mp hpath).1
    obtain ⟨path, hpath⟩ :=
      mem_allFileIds.mp (mem_filter.mp (mem_sortByKey.mp hb)).1
    have hover := isOverlayId_iff.mp (hs.live.isOverlayId_of_filePath hpath)
    have hle : h.reader.filePaths.length ≤ 2 ^ 31 := hs.files_le
    rw [id, id, lt_iff_toNat_lt]
    omega

/-! ## Evaluation -/

/-- **The files that a plan returns**: those in scope that the plan selects by the postings of the
hybrid index, and all active files in scope if it matches everything. -/
theorem WellFormed.mem_executeQueryWithMasksIn (hw : h.WellFormed) {plan : QueryPlan} :
    fid ∈ (h.executeQueryWithMasksIn plan p).1 ↔
      (if plan.isMatchAll then h.fileActive fid = true
        else plan.Selects h.lookupTrigramWithMasks fid) ∧ h.inScope p fid = true := by
  have hmem : fid ∈ (h.executeQueryWithMasksIn plan p).1 ↔
      fid ∈ (if plan.isMatchAll then h.scopedFileIds p
        else executePlanWithMasks plan (h.scopedLookup p)) ∧ h.fileActive fid = true :=
    mem_filter
  rw [hmem]
  split_ifs with hall
  · rw [hw.separated.mem_scopedFileIds, and_comm]
  · rw [mem_executePlanWithMasks]
    -- for an active file in scope both lookups have the same postings
    have hcongr : h.inScope p fid = true → h.fileActive fid = true →
        (plan.Selects (h.scopedLookup p) fid ↔ plan.Selects h.lookupTrigramWithMasks fid) := by
      intro hin hact
      refine QueryPlan.selects_congr (fun t a ha b hb =>
        (hw.scopedLookup_ascending p t).eq_of_key_eq ha hb)
        (fun t a ha b hb => (hw.lookup_ascending t).eq_of_key_eq ha hb) (fun t m => ?_) plan
      refine exists_congr fun e => and_congr_left fun he => ?_
      rw [← he.1] at hin hact
      exact hw.mem_scopedLookup_iff hin hact
    constructor
    · rintro ⟨hsel, hact⟩
      obtain ⟨t, e, he, rfl⟩ := hsel.exists_posting
      have hin := (hw.mem_scopedLookup.mp he).2
      exact ⟨(hcongr hin hact).mp hsel, hin⟩
    · rintro ⟨hsel, hin⟩
      obtain ⟨t, e, he, rfl⟩ := hsel.exists_posting
      have hact := (hw.lookup_active he).1
      exact ⟨(hcongr hin hact).mpr hsel, hact⟩

/-- The files that a plan returns are strictly ascending. -/
lemma WellFormed.executeQueryWithMasksIn_ascending (hw : h.WellFormed) (plan : QueryPlan)
    (p : String) : Ascending id (h.executeQueryWithMasksIn plan p).1 := by
  have hids : Ascending id (if plan.isMatchAll then h.scopedFileIds p
      else executePlanWithMasks plan (h.scopedLookup p)) := by
    split_ifs
    · exact hw.separated.scopedFileIds_ascending p
    · exact executePlanWithMasks_ascending plan _
  exact hids.sublist filter_sublist

/-- Every file that a plan returns is in the scope of the empty prefix. -/
lemma WellFormed.inScope_empty (hw : h.WellFormed) {plan : QueryPlan}
    (hfid : fid ∈ (h.executeQueryWithMasksIn plan p).1) : h.inScope "" fid = true := by
  obtain ⟨path, hpath, -⟩ := inScope_eq_true.mp (hw.mem_executeQueryWithMasksIn.mp hfid).2
  exact (inScope_iff hpath).mpr (startsWith_empty path)

/-- An ascending list of ids is its reader ids followed by its overlay ids. -/
lemma overlay_last {ids : List UInt32} (h : Ascending id ids) :
    ids = (ids.filter fun fid => !LiveIndex.isOverlayId fid) ++ ids.filter LiveIndex.isOverlayId := by
  induction ids with
  | nil => rfl
  | cons fid ids ih =>
    obtain ⟨hlow, htail⟩ := cons.mp h
    by_cases hover : isOverlayId fid = true
    · -- all later ids are larger, so they belong to the overlay too
      have hall : ∀ b ∈ ids, isOverlayId b = true := by
        intro b hb
        have hlt := lt_iff_toNat_lt.mp (hlow b hb)
        have hge := isOverlayId_iff.mp hover
        exact isOverlayId_iff.mpr (hge.trans (le_of_lt hlt))
      have hnone : (ids.filter fun fid => !isOverlayId fid) = [] := by
        rw [filter_eq_nil_iff]
        intro b hb
        simp [hall b hb]
      rw [filter_cons_of_neg (by simp [hover]), filter_cons_of_pos hover, hnone,
        filter_eq_self.mpr hall, nil_append]
    · rw [filter_cons_of_pos (by simp [hover]), filter_cons_of_neg hover, cons_append, ← ih htail]

/-- What the evaluation of a plan under a prefix must satisfy. -/
structure ScopedEvaluation (h : HybridIndex) (plan : QueryPlan) (pathPrefix : String) : Prop where
  /-- The ids are those of the whole index whose paths lie under the prefix. -/
  restricted : (h.executeQueryWithMasksIn plan pathPrefix).1 =
    (h.executeQueryWithMasksIn plan "").1.filter (h.inScope pathPrefix)
  /-- The postings considered are those of the whole index whose paths lie under the prefix, with
  the same masks. -/
  masks : ∀ t, h.scopedLookup pathPrefix t =
    (h.scopedLookup "" t).filter fun e => h.inScope pathPrefix e.fileId
  /-- On the whole index, a reader posting counts only if its path is neither tombstoned nor live
  in the overlay. -/
  precedence : plan ≠ .matchAll → ∀ fid,
    fid ∈ (h.executeQueryWithMasksIn plan "").1 ↔ plan.Selects h.lookupTrigramWithMasks fid
  ascending : Ascending id (h.executeQueryWithMasksIn plan pathPrefix).1
  overlay_last : (h.executeQueryWithMasksIn plan pathPrefix).1 =
    ((h.executeQueryWithMasksIn plan pathPrefix).1.filter fun fid => !LiveIndex.isOverlayId fid) ++
      (h.executeQueryWithMasksIn plan pathPrefix).1.filter LiveIndex.isOverlayId
  /-- A plan that matches everything returns each active path under the prefix once, and no other
  path. -/
  match_all : plan = .matchAll → ∀ path,
    ((h.executeQueryWithMasksIn plan pathPrefix).1.map h.resolvePath).count (some path) =
      if h.hasActivePath path = true ∧ startsWith path pathPrefix = true then 1 else 0

/-- A plan that matches everything returns each active path in scope once. -/
lemma WellFormed.count_matchAll (hw : h.WellFormed) (p path : String) :
    ((h.executeQueryWithMasksIn .matchAll p).1.map h.resolvePath).count (some path) =
      if h.hasActivePath path = true ∧ startsWith path p = true then 1 else 0 := by
  have hmem : ∀ fid, fid ∈ (h.executeQueryWithMasksIn .matchAll p).1 ↔
      h.fileActive fid = true ∧ h.inScope p fid = true :=
    fun fid => hw.mem_executeQueryWithMasksIn
  have hnodup : ((h.executeQueryWithMasksIn .matchAll p).1.map h.resolvePath).Nodup := by
    refine List.Nodup.map_on (fun a ha b hb hab => ?_)
      (hw.executeQueryWithMasksIn_ascending .matchAll p).nodup
    obtain ⟨hacta, hina⟩ := (hmem a).mp ha
    obtain ⟨path, hpath, -⟩ := inScope_eq_true.mp hina
    exact hw.resolvePath_injective hpath (hab.symm.trans hpath) hacta ((hmem b).mp hb).1
  rw [hnodup.count]
  refine if_congr ?_ rfl rfl
  rw [mem_map, hw.separated.hasActivePath_iff]
  constructor
  · rintro ⟨fid, hfid, hpath⟩
    obtain ⟨hact, hin⟩ := (hmem fid).mp hfid
    exact ⟨⟨fid, hpath, hact⟩, (inScope_iff hpath).mp hin⟩
  · rintro ⟨⟨fid, hpath, hact⟩, hstarts⟩
    exact ⟨fid, (hmem fid).mpr ⟨hact, (inScope_iff hpath).mpr hstarts⟩, hpath⟩

/-- Both layers being well formed, evaluation under a prefix is that of the whole index restricted
to the prefix. -/
lemma WellFormed.scopedEvaluation (hw : h.WellFormed) (plan : QueryPlan) (p : String) :
    h.ScopedEvaluation plan p where
  restricted := by
    refine (hw.executeQueryWithMasksIn_ascending plan p).eq_of_mem_iff
      ((hw.executeQueryWithMasksIn_ascending plan "").sublist filter_sublist) fun fid => ?_
    rw [mem_filter]
    constructor
    · intro hfid
      have hempty := hw.inScope_empty hfid
      rw [hw.mem_executeQueryWithMasksIn] at hfid ⊢
      exact ⟨⟨hfid.1, hempty⟩, hfid.2⟩
    · rintro ⟨hfid, hin⟩
      rw [hw.mem_executeQueryWithMasksIn] at hfid ⊢
      exact ⟨hfid.1, hin⟩
  masks := hw.scopedLookup_eq_filter p
  precedence := by
    intro hplan fid
    have hnot : ¬ plan.isMatchAll = true := fun hall => hplan (QueryPlan.isMatchAll_iff.mp hall)
    rw [hw.mem_executeQueryWithMasksIn, if_neg hnot]
    refine and_iff_left_of_imp fun hsel => ?_
    obtain ⟨t, e, he, rfl⟩ := hsel.exists_posting
    obtain ⟨path, hpath⟩ := (hw.lookup_active he).2
    exact (inScope_iff hpath).mpr (startsWith_empty path)
  ascending := hw.executeQueryWithMasksIn_ascending plan p
  overlay_last := HybridIndex.overlay_last (hw.executeQueryWithMasksIn_ascending plan p)
  match_all := by
    rintro rfl path
    exact hw.count_matchAll p path

/-! ## Runs -/

/-- **Scoped evaluation over runs**: under every well-formed reader whose ids are below the overlay
bit, and after every run of the overlay whose upserts are made below it, the evaluation of every
plan under every prefix is that of the whole index restricted to the prefix. -/
theorem executeQueryWithMasksIn_run (reader : IndexReader) (ops : List LiveIndex.Op)
    (plan : QueryPlan) (pathPrefix : String) (hr : reader.WellFormed)
    (hfiles : reader.numFiles ≤ 2 ^ 31) (hops : History.BelowBit ops) :
    ScopedEvaluation ⟨reader, (History.run ops).index⟩ plan pathPrefix := by
  have hw : WellFormed ⟨reader, (History.run ops).index⟩ := ⟨hr, hfiles, (History.run_inv hops).rep⟩
  exact hw.scopedEvaluation plan pathPrefix

/-- Scoped evaluation over a file of the reader that is replaced, and another that is added. -/
theorem executeQueryWithMasksIn_run_single :
    ScopedEvaluation ⟨IndexReader.single, (History.run [.upsertFileWithTrigrams "a" [7] fun _ => 3,
      .upsertFileWithTrigrams "b" [7, 8] fun _ => 3]).index⟩ (.and [⟨7, none⟩]) "b" := by
  refine executeQueryWithMasksIn_run _ _ _ _ IndexReader.single_wellFormed ?_ ?_
  · decide
  · rw [History.BelowBit]
    refine ⟨fun _ => ?_, fun _ => ?_, trivial⟩
    · decide
    · decide

/-- An overlay that has an entry for a path but no file with it loses that path. -/
lemma not_scopedEvaluation_of_lost {live : LiveIndex} (hlive : live.hasPath path = true)
    (hlost : ∀ fid, live.filePath fid ≠ some path) :
    ¬ ScopedEvaluation ⟨IndexReader.empty, live⟩ .matchAll "" := by
  intro heval
  have hactive : hasActivePath ⟨IndexReader.empty, live⟩ path = true := by
    rw [hasActivePath, if_pos hlive]
  have hcount := heval.match_all rfl path
  rw [if_pos ⟨hactive, startsWith_empty path⟩] at hcount
  have hpos : 0 < ((executeQueryWithMasksIn ⟨IndexReader.empty, live⟩ .matchAll "").1.map
      (resolvePath ⟨IndexReader.empty, live⟩)).count (some path) := by
    rw [hcount]
    exact Nat.one_pos
  obtain ⟨fid, -, hpath⟩ := mem_map.mp (count_pos_iff.mp hpos)
  rw [resolvePath] at hpath
  split_ifs at hpath
  · exact hlost fid hpath
  · simp [IndexReader.filePath, IndexReader.empty] at hpath

/-- **Past the overlay bit an active path is lost**: `a` has an entry in the overlay, but its id
resolves to another path. -/
theorem executeQueryWithMasksIn_wraps :
    ¬ ScopedEvaluation ⟨IndexReader.empty, (History.run History.wrapping).index⟩ .matchAll "" := by
  obtain ⟨hlive, honly, -⟩ := History.run_wrapping_loses
  refine not_scopedEvaluation_of_lost hlive fun fid hfid => ?_
  exact absurd (honly fid "a" hfid).2 (by decide)

end HybridIndex

end Tgrep
