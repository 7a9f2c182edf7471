import Tgrep.Shared.Capture

/-!
# What a restore yields

A restore is a loop of guarded steps. It succeeds iff the checkpoint is short enough, its paths
and postings pass the checks, and no path and no trigram of a file occurs twice; it then yields
the overlay that the upserts and deletions of the checkpoint describe.

## Main definitions

* `OverlayFile.Valid`, `OverlayData.Accepted`: what a restore accepts.
* `OverlayData.overlay`: the overlay that the checkpoint describes, by path.

## Main results

* `OverlayData.intoLive_eq_ok`: when a restore succeeds.
* `OverlayData.intoLive_spec`: what it yields.
* `OverlayData.Describes.overlay_eq`, `OverlayData.Describes.accepted`: a checkpoint in canonical
  order is accepted, and describes the overlay that it is restored to.
* `OverlayData.canonical_describes`: bringing a checkpoint into canonical order keeps what it
  describes.
-/

namespace Tgrep

open List Loops Ascending LiveIndex

/-- A file that a restore accepts. -/
structure OverlayFile.Valid (file : OverlayFile) : Prop where
  path : validateIndexPath file.path = true
  posting : ∀ p ∈ file.trigrams, ValidTrigram p.1 p.2.1
  nodup : (file.trigrams.map Prod.fst).Nodup

namespace OverlayData

/-- What a restore accepts, up to the number of files. -/
structure Accepted (data : OverlayData) : Prop where
  file : ∀ file ∈ data.files, file.Valid
  tombstone : ∀ path ∈ data.deleted, validateIndexPath path = true
  nodup : (data.files.map OverlayFile.path ++ data.deleted).Nodup

/-! ## The loops -/

/-- The table after a posting has been entered. -/
def nextPosting (m : TrigramMaskMap) (p : TrigramHash × UInt8 × UInt8) : TrigramMaskMap :=
  m.insert p.1 ⟨p.2.1, p.2.2⟩

/-- One posting. -/
lemma restorePosting_eq_ok (m : TrigramMaskMap) (p : TrigramHash × UInt8 × UInt8)
    (m' : TrigramMaskMap) :
    restorePosting m p = .ok m' ↔
      (ValidTrigram p.1 p.2.1 ∧ p.1 ∉ m.keys) ∧ m' = nextPosting m p := by
  unfold restorePosting validateTrigram
  rw [ensure_bind_eq_ok, ensure_bind_eq_ok, FinMap.contains_iff, and_assoc, Except.ok.injEq,
    nextPosting]
  exact and_congr Iff.rfl (and_congr Iff.rfl eq_comm)

/-- The loop over the postings of a file. -/
lemma restorePostings_eq_ok {trigrams : List (TrigramHash × UInt8 × UInt8)} {m : TrigramMaskMap} :
    trigrams.foldlM restorePosting FinMap.empty = .ok m ↔
      ((∀ p ∈ trigrams, ValidTrigram p.1 p.2.1) ∧ (trigrams.map Prod.fst).Nodup) ∧
        m = FinMap.ofList (trigrams.map fun p => (p.1, ⟨p.2.1, p.2.2⟩)) := by
  rw [foldlM_distinct restorePosting_eq_ok fun _ _ => FinMap.keys_insert _ _ _,
    FinMap.ofList, foldl_map]
  simp only [FinMap.keys_empty, Finset.notMem_empty, not_false_eq_true, and_true]
  exact Iff.rfl

/-- The state after a file has been restored. -/
def nextFile (capacity : String → TrigramHash → ℕ) (s : LiveIndex × Finset String)
    (file : OverlayFile) : LiveIndex × Finset String :=
  (s.1.commitUpsert file.path file.maskMap (capacity file.path), insert file.path s.2)

/-- The state after a tombstone has been set. -/
def nextDeleted (s : LiveIndex × Finset String) (path : String) : LiveIndex × Finset String :=
  (s.1.deleteFile path, insert path s.2)

variable {o : Overlay} {live : LiveIndex} (paths : List String)
  (capacity : String → TrigramHash → ℕ) (files : List OverlayFile) (s : LiveIndex × Finset String)

/-- One file. -/
lemma restoreFile_eq_ok (file : OverlayFile) (s' : LiveIndex × Finset String) :
    restoreFile capacity s file = .ok s' ↔
      (file.Valid ∧ file.path ∉ s.2) ∧ s' = nextFile capacity s file := by
  unfold restoreFile validatePath
  rw [ensure_bind_eq_ok, ensure_bind_eq_ok, bind_eq_ok]
  constructor
  · rintro ⟨hpath, hnew, m, hm, hs'⟩
    obtain ⟨⟨hposting, hnodup⟩, rfl⟩ := restorePostings_eq_ok.mp hm
    exact ⟨⟨⟨hpath, hposting, hnodup⟩, hnew⟩, (Except.ok.inj hs').symm⟩
  · rintro ⟨⟨⟨hpath, hposting, hnodup⟩, hnew⟩, rfl⟩
    exact ⟨hpath, hnew, file.maskMap, restorePostings_eq_ok.mpr ⟨⟨hposting, hnodup⟩, rfl⟩, rfl⟩

/-- One tombstone. -/
lemma restoreDeleted_eq_ok (path : String) (s' : LiveIndex × Finset String) :
    restoreDeleted s path = .ok s' ↔
      (validateIndexPath path = true ∧ path ∉ s.2) ∧ s' = nextDeleted s path := by
  unfold restoreDeleted validatePath
  rw [ensure_bind_eq_ok, ensure_bind_eq_ok, and_assoc, Except.ok.injEq, nextDeleted]
  exact and_congr Iff.rfl (and_congr Iff.rfl eq_comm)

/-- The state after both loops, had no check stopped them. -/
def restored (capacity : String → TrigramHash → ℕ) (data : OverlayData) :
    LiveIndex × Finset String :=
  data.deleted.foldl nextDeleted (data.files.foldl (nextFile capacity) (LiveIndex.new, ∅))

variable {data : OverlayData}

/-- **When a restore succeeds.** -/
theorem intoLive_eq_ok {capacity : String → TrigramHash → ℕ} :
    data.intoLive capacity = .ok live ↔
      data.files.length < 2 ^ 31 ∧ data.Accepted ∧
        live = (data.restored capacity).1.resetDirtyCount := by
  have hseen : ∀ path, path ∈ (data.files.foldl (nextFile capacity) (new, ∅)).2 ↔
      path ∈ data.files.map OverlayFile.path := by
    intro path
    have hstep : ∀ s file, (nextFile capacity s file).2 = insert file.path s.2 := fun _ _ => rfl
    refine (Run.seen_foldl hstep (new, ∅) data.files).trans ?_
    exact or_iff_right (Finset.notMem_empty path)
  have hfiles : ∀ s, data.files.foldlM (restoreFile capacity) (new, ∅) = .ok s ↔
      ((∀ file ∈ data.files, file.Valid) ∧ (data.files.map OverlayFile.path).Nodup) ∧
        s = data.files.foldl (nextFile capacity) (new, ∅) := by
    intro s
    rw [foldlM_distinct (restoreFile_eq_ok capacity) fun _ _ => rfl]
    simp only [Finset.notMem_empty, not_false_eq_true, and_true]
  have hdeleted : ∀ s s', data.deleted.foldlM restoreDeleted s = .ok s' ↔
      ((∀ path ∈ data.deleted, validateIndexPath path = true ∧ path ∉ s.2) ∧
        data.deleted.Nodup) ∧ s' = data.deleted.foldl nextDeleted s := by
    intro s s'
    rw [foldlM_distinct restoreDeleted_eq_ok fun _ _ => rfl, map_id']
  unfold intoLive
  rw [ensure_bind_eq_ok, bind_eq_ok]
  refine and_congr Iff.rfl ⟨?_, ?_⟩
  · rintro ⟨s, hs, hrest⟩
    obtain ⟨⟨hvalid, hnodup⟩, rfl⟩ := (hfiles s).mp hs
    obtain ⟨s', hs', hlive⟩ := Loops.bind_eq_ok.mp hrest
    obtain ⟨⟨htombstone, hnodup'⟩, rfl⟩ := (hdeleted _ _).mp hs'
    refine ⟨⟨hvalid, fun path hpath => (htombstone path hpath).1, ?_⟩, (Except.ok.inj hlive).symm⟩
    refine nodup_append.mpr ⟨hnodup, hnodup', fun path hpath path' hpath' => ?_⟩
    rintro rfl
    exact (htombstone path hpath').2 ((hseen path).mpr hpath)
  · rintro ⟨⟨hvalid, htombstone, hnodup⟩, rfl⟩
    obtain ⟨hnodup, hnodup', hne⟩ := nodup_append.mp hnodup
    refine ⟨_, (hfiles _).mpr ⟨⟨hvalid, hnodup⟩, rfl⟩, Loops.bind_eq_ok.mpr
      ⟨_, (hdeleted _ _).mpr ⟨⟨fun path hpath => ⟨htombstone path hpath, fun hin => ?_⟩, hnodup'⟩,
        rfl⟩, rfl⟩⟩
    exact hne path ((hseen path).mp hin) path hpath rfl

/-! ## The overlay of a checkpoint -/

/-- The overlay that the checkpoint describes, by path. -/
def overlay (data : OverlayData) : Overlay :=
  data.deleted.foldl Overlay.delete
    (data.files.foldl (fun o file => o.upsert file.path file.maskMap.get?) Overlay.empty)

/-- The loop over the files, on the overlay by path. -/
lemma view_foldl_nextFile {s : LiveIndex × Finset String} (h : s.1.Rep) (hf : s.1.Fresh)
    (hshort : s.1.nextId.toNat + files.length ≤ 2 ^ 31) :
    (files.foldl (nextFile capacity) s).1.Rep ∧
      (files.foldl (nextFile capacity) s).1.view =
        files.foldl (fun o file => o.upsert file.path file.maskMap.get?) s.1.view := by
  induction files generalizing s with
  | nil => exact ⟨h, rfl⟩
  | cons file files ih =>
    rw [length_cons] at hshort
    have hlow : s.1.nextId < OVERLAY_BIT := by
      rw [UInt32.lt_iff_toNat_lt, show OVERLAY_BIT.toNat = 2 ^ 31 from rfl]
      omega
    have hop : (LiveIndex.Op.commitUpsert file.path file.maskMap (capacity file.path)).BelowBit
        s.1 := fun _ => hlow
    obtain ⟨h', hf'⟩ := LiveIndex.Op.apply_rep h hf hop
    obtain ⟨hnext, -⟩ := upsertWith_frame
      (addsPostings_insertPostingWithMasks (capacity file.path)) h file.path
      file.maskMap.toList
    have hview := view_commitUpsert h hf hlow file.path file.maskMap (capacity file.path)
    obtain ⟨hrep, hrest⟩ := ih (s := nextFile capacity s file) h' hf' (by
      rw [show (nextFile capacity s file).1.nextId = s.1.nextId + 1 from hnext, UInt32.toNat_add,
        UInt32.toNat_one, Nat.mod_eq_of_lt (by omega)]
      omega)
    refine ⟨hrep, ?_⟩
    rw [foldl_cons, hrest, foldl_cons]
    exact congrArg (files.foldl _) hview

/-- The loop over the tombstones, on the overlay by path. -/
lemma view_foldl_nextDeleted {s : LiveIndex × Finset String} (h : s.1.Rep) :
    (paths.foldl nextDeleted s).1.Rep ∧
      (paths.foldl nextDeleted s).1.view = paths.foldl Overlay.delete s.1.view := by
  induction paths generalizing s with
  | nil => exact ⟨h, rfl⟩
  | cons path paths ih =>
    obtain ⟨hrep, hrest⟩ := ih (s := nextDeleted s path) (deleteFile_rep h path)
    refine ⟨hrep, ?_⟩
    rw [foldl_cons, hrest, foldl_cons]
    exact congrArg (paths.foldl _) (view_deleteFile h path)

/-- The empty overlay by path. -/
lemma view_new : LiveIndex.new.view = Overlay.empty := rfl

/-- **What a restore yields**: consistent tables of the overlay that the checkpoint describes. -/
theorem intoLive_spec {capacity : String → TrigramHash → ℕ}
    (h : data.intoLive capacity = .ok live) : live.Rep ∧ live.view = data.overlay := by
  obtain ⟨hshort, -, rfl⟩ := intoLive_eq_ok.mp h
  obtain ⟨hfiles, hview⟩ := view_foldl_nextFile capacity data.files (s := (new, ∅))
    new_rep new_fresh (by
      rw [show (new, (∅ : Finset String)).1.nextId.toNat = 0 from rfl]
      omega)
  obtain ⟨hrep, hview'⟩ := view_foldl_nextDeleted data.deleted hfiles
  refine ⟨⟨⟨hrep.inverse, hrep.overlay, hrep.disjoint⟩, hrep.postings.congr rfl rfl rfl⟩, ?_⟩
  rw [hview, view_new] at hview'
  exact hview'

/-! ## What the overlay of a checkpoint says -/

/-- The overlay of files with distinct paths. -/
lemma foldl_upsert_spec (hnodup : (files.map OverlayFile.path).Nodup) :
    (∀ path masks,
      (files.foldl (fun o file => o.upsert file.path file.maskMap.get?)
        Overlay.empty).entry path = some masks ↔
          ∃ file ∈ files, file.path = path ∧ file.maskMap.get? = masks) ∧
      (files.foldl (fun o file => o.upsert file.path file.maskMap.get?)
        Overlay.empty).deleted = ∅ := by
  induction files using reverseRecOn with
  | nil => exact ⟨fun path masks => by simp [Overlay.empty], rfl⟩
  | append_singleton files file ih =>
    rw [map_append, nodup_append] at hnodup
    obtain ⟨hfiles, -, hne⟩ := hnodup
    obtain ⟨hentry, hdeleted⟩ := ih hfiles
    rw [foldl_append, foldl_cons, foldl_nil]
    refine ⟨fun path masks => ?_, ?_⟩
    · rw [Overlay.entry_upsert]
      simp only [mem_append, mem_singleton]
      split_ifs with hpath
      · subst hpath
        rw [Option.some.injEq]
        constructor
        · rintro rfl
          exact ⟨file, .inr rfl, rfl, rfl⟩
        · rintro ⟨file', hmem | rfl, hpath', hmasks⟩
          · exact absurd hpath' (hne _ (mem_map_of_mem hmem) _ (by simp))
          · exact hmasks
      · rw [hentry]
        constructor
        · rintro ⟨file', hmem, heq⟩
          exact ⟨file', .inl hmem, heq⟩
        · rintro ⟨file', hmem | rfl, hpath', hmasks⟩
          · exact ⟨file', hmem, hpath', hmasks⟩
          · exact absurd hpath'.symm hpath
    · rw [Overlay.deleted_upsert, hdeleted, Finset.erase_empty]

/-- Tombstones. -/
lemma foldl_delete_spec (o : Overlay) :
    (∀ path, (paths.foldl Overlay.delete o).entry path =
      if path ∈ paths then none else o.entry path) ∧
      (paths.foldl Overlay.delete o).deleted = o.deleted ∪ paths.toFinset := by
  induction paths generalizing o with
  | nil => simp
  | cons path paths ih =>
    obtain ⟨hentry, hdeleted⟩ := ih (o.delete path)
    refine ⟨fun path' => ?_, ?_⟩
    · rw [foldl_cons, hentry, Overlay.entry_delete]
      by_cases hpath : path' = path
      · simp [hpath]
      · simp [hpath]
    · rw [foldl_cons, hdeleted, Overlay.deleted_delete, toFinset_cons, Finset.union_insert,
        Finset.insert_union]

/-- The entries and tombstones of an accepted checkpoint. -/
lemma Accepted.overlay (h : data.Accepted) :
    (∀ path masks, data.overlay.entry path = some masks ↔
      ∃ file ∈ data.files, file.path = path ∧ file.maskMap.get? = masks) ∧
      data.overlay.deleted = data.deleted.toFinset := by
  obtain ⟨hfiles, -, hne⟩ := nodup_append.mp h.nodup
  obtain ⟨hentry, hdeleted⟩ := foldl_upsert_spec data.files hfiles
  obtain ⟨hentry', hdeleted'⟩ := foldl_delete_spec data.deleted
    (data.files.foldl (fun o file => o.upsert file.path file.maskMap.get?) Overlay.empty)
  refine ⟨fun path masks => ?_, ?_⟩
  · rw [OverlayData.overlay, hentry']
    split_ifs with hpath
    · constructor
      · intro hnone
        cases hnone
      rintro ⟨file, hmem, rfl, -⟩
      exact absurd rfl (hne _ (mem_map_of_mem hmem) _ hpath)
    · exact hentry path masks
  · rw [OverlayData.overlay, hdeleted', hdeleted, Finset.empty_union]

/-- The overlay of an accepted checkpoint passes the checks. -/
lemma Accepted.valid (h : data.Accepted) : data.overlay.Valid := by
  obtain ⟨hentry, hdeleted⟩ := h.overlay
  refine ⟨fun path masks hget => ?_, fun path masks hget t m hm => ?_, fun path hpath => ?_⟩
  · obtain ⟨file, hmem, rfl, -⟩ := (hentry path masks).mp hget
    exact (h.file file hmem).path
  · obtain ⟨file, hmem, -, rfl⟩ := (hentry path masks).mp hget
    have hin := (OverlayFile.get?_maskMap (h.file file hmem).nodup).mp hm
    exact (h.file file hmem).posting _ hin
  · rw [hdeleted, mem_toFinset] at hpath
    exact h.tombstone path hpath

/-- **Bringing a checkpoint into canonical order keeps what it describes.** -/
theorem canonical_describes (h : data.Accepted) : data.canonical.Describes data.overlay := by
  obtain ⟨hentry, hdeleted⟩ := h.overlay
  obtain ⟨hfiles, hnodup, -⟩ := nodup_append.mp h.nodup
  have hmem : ∀ file, file ∈ data.canonical.files ↔ ∃ file' ∈ data.files,
      file = ⟨file'.path, orderPostings false file'.trigrams⟩ := by
    intro file
    rw [canonical, mem_sortByKey, mem_map]
    exact exists_congr fun file' => and_congr Iff.rfl eq_comm
  have hasc : ∀ file ∈ data.files, Ascending Prod.fst (orderPostings false file.trigrams) :=
    fun file hfile => orderPostings_ascending false (h.file file hfile).nodup
  have hmasks : ∀ file ∈ data.files,
      (OverlayFile.mk file.path (orderPostings false file.trigrams)).maskMap.get? =
        file.maskMap.get? := by
    intro file hfile
    funext t
    apply Option.ext
    intro m
    rw [OverlayFile.get?_maskMap (map_iff.mpr (hasc file hfile)).nodup,
      OverlayFile.get?_maskMap (h.file file hfile).nodup, mem_orderPostings]
  refine ⟨sortByKey_ascending ?_, fun file hfile => ?_, fun path masks => ?_, ?_⟩
  · rw [map_map]
    exact hfiles
  · obtain ⟨file', hfile', rfl⟩ := (hmem file).mp hfile
    exact hasc file' hfile'
  · rw [hentry]
    constructor
    · rintro ⟨file, hfile, rfl, rfl⟩
      exact ⟨_, (hmem _).mpr ⟨file, hfile, rfl⟩, rfl, hmasks file hfile⟩
    · rintro ⟨file, hfile, rfl, rfl⟩
      obtain ⟨file', hfile', rfl⟩ := (hmem file).mp hfile
      exact ⟨file', hfile', rfl, (hmasks file' hfile').symm⟩
  · have hsort : Ascending id data.overlay.deleted.sort :=
      (Finset.sortedLT_sort _).pairwise
    have hsorted : Ascending id (sortByKey id data.deleted) :=
      sortByKey_ascending (by rwa [map_id])
    refine hsorted.eq_of_mem_iff hsort fun path => ?_
    rw [mem_sortByKey, Finset.mem_sort, hdeleted, mem_toFinset]

/-- A checkpoint in canonical order that describes a valid overlay, none of whose entries is
tombstoned, is accepted. -/
lemma Describes.accepted (h : data.Describes o) (hv : o.Valid)
    (hdisjoint : ∀ path ∈ o.deleted, o.entry path = none) : data.Accepted := by
  have hentry : ∀ file ∈ data.files, o.entry file.path = some file.maskMap.get? :=
    fun file hfile => (h.entry _ _).mpr ⟨file, hfile, rfl, rfl⟩
  refine ⟨fun file hfile => ⟨?_, fun p hp => ?_, h.nodup hfile⟩, fun path hpath => ?_, ?_⟩
  · exact hv.path _ _ (hentry file hfile)
  · exact hv.posting _ _ (hentry file hfile) p.1 ⟨p.2.1, p.2.2⟩
      ((OverlayFile.get?_maskMap (h.nodup hfile)).mpr hp)
  · rw [h.deleted, Finset.mem_sort] at hpath
    exact hv.tombstone path hpath
  · refine nodup_append.mpr ⟨(map_iff.mpr h.files_ascending).nodup, ?_,
      fun path hpath path' hpath' => ?_⟩
    · rw [h.deleted]
      exact Finset.sort_nodup _ _
    · rintro rfl
      obtain ⟨file, hfile, rfl⟩ := mem_map.mp hpath
      rw [h.deleted, Finset.mem_sort] at hpath'
      have := hdisjoint _ hpath'
      rw [hentry file hfile] at this
      cases this

/-- A checkpoint in canonical order describes one overlay. -/
lemma Describes.overlay_eq (h : data.Describes o) (ha : data.Accepted) : data.overlay = o := by
  obtain ⟨hentry, hdeleted⟩ := ha.overlay
  refine Overlay.ext (funext fun path => Option.ext fun masks => ?_) ?_
  · rw [hentry, h.entry]
  · rw [hdeleted, h.deleted, Finset.sort_toFinset]

end OverlayData

end Tgrep
