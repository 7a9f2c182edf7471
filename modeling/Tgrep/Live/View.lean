import Tgrep.Live.History

/-!
# The overlay by path

What the five tables of the overlay say about paths: each path has an entry or not, an entry has
masks for some trigrams, and a path without an entry may be tombstoned. File ids do not occur.
On states that satisfy the representation invariant each mutation of the tables is the obvious
mutation of this view.

## Main definitions

* `Overlay`: entries and tombstones by path, with its mutations.
* `LiveIndex.view`: the overlay that the tables represent.

## Main results

* `LiveIndex.view_commitUpsert`, `LiveIndex.view_upsertFileWithTrigrams`,
  `LiveIndex.view_deleteFile`, `LiveIndex.view_removeOverlayEntry`,
  `LiveIndex.view_batchRemoveOverlayEntries`, `LiveIndex.view_clearReconciledPaths`,
  `LiveIndex.view_tryDropAllPersisted`: the mutations.
-/

namespace Tgrep

open Option Function FinMap List

/-- Entries and tombstones by path. An entry has masks for its trigrams. -/
@[ext] structure Overlay where
  /-- The entry of a path. -/
  entry : String → Option (TrigramHash → Option TrigramMasks)
  /-- The tombstones. -/
  deleted : Finset String

namespace Overlay

/-- No entry and no tombstone. -/
def empty : Overlay := ⟨fun _ => none, ∅⟩

/-- Set the entry of a path; it is no longer tombstoned. -/
def upsert (o : Overlay) (path : String) (masks : TrigramHash → Option TrigramMasks) : Overlay :=
  ⟨Function.update o.entry path (some masks), o.deleted.erase path⟩

/-- Remove the entries of some paths. -/
def remove (o : Overlay) (paths : List String) : Overlay :=
  ⟨fun path => if path ∈ paths then none else o.entry path, o.deleted⟩

/-- Tombstone a path. -/
def delete (o : Overlay) (path : String) : Overlay :=
  ⟨Function.update o.entry path none, insert path o.deleted⟩

/-- Remove the entries and the tombstones of some paths. -/
def clear (o : Overlay) (paths : List String) : Overlay :=
  ⟨(o.remove paths).entry, o.deleted.filter fun path => path ∉ paths⟩

variable (o : Overlay) (path : String)

@[simp] lemma entry_upsert (path' : String) (masks : TrigramHash → Option TrigramMasks) :
    (o.upsert path masks).entry path' = if path' = path then some masks else o.entry path' :=
  update_apply ..

@[simp] lemma entry_delete (path' : String) :
    (o.delete path).entry path' = if path' = path then none else o.entry path' :=
  update_apply ..

@[simp] lemma entry_remove (paths : List String) (path : String) :
    (o.remove paths).entry path = if path ∈ paths then none else o.entry path := rfl

@[simp] lemma deleted_upsert (masks : TrigramHash → Option TrigramMasks) :
    (o.upsert path masks).deleted = o.deleted.erase path := rfl

@[simp] lemma deleted_delete : (o.delete path).deleted = insert path o.deleted := rfl

end Overlay

namespace LiveIndex

/-- The masks of a posting, if the file has it. -/
def postingOf (s : LiveIndex) (fileId : UInt32) (t : TrigramHash) : Option TrigramMasks :=
  (s.inverted.get? t).bind fun set => if fileId ∈ set then some (s.getMasks t fileId) else none

/-- The overlay that the tables represent. -/
def view (s : LiveIndex) : Overlay :=
  ⟨fun path => (s.pathToId.get? path).map s.postingOf, s.deletedPaths⟩

/-! ## Postings of a file -/

section Postings

variable {s s' : LiveIndex} {fid : UInt32} {t : TrigramHash}

/-- A file without the posting. -/
lemma postingOf_eq_none (h : ¬ s.HasPostingOf t fid) : s.postingOf fid t = none := by
  unfold postingOf
  cases hset : s.inverted.get? t with
  | none => rfl
  | some set =>
    refine if_neg fun hmem => h ⟨set, hset, hmem⟩

/-- A file with the posting. -/
lemma postingOf_eq_some (h : s.HasPostingOf t fid) :
    s.postingOf fid t = some (s.getMasks t fid) := by
  obtain ⟨set, hset, hmem⟩ := h
  unfold postingOf
  rw [hset]
  exact if_pos hmem

/-- The postings of a file depend on its part of the tables. -/
lemma postingOf_congr (hposting : s'.HasPostingOf t fid ↔ s.HasPostingOf t fid)
    (hmasks : s'.masks.get? (t, fid) = s.masks.get? (t, fid)) :
    s'.postingOf fid t = s.postingOf fid t := by
  by_cases h : s.HasPostingOf t fid
  · rw [postingOf_eq_some h, postingOf_eq_some (hposting.mpr h), getMasks, hmasks, getMasks]
  · rw [postingOf_eq_none h, postingOf_eq_none fun h' => h (hposting.mp h')]

/-- The files that are left keep their postings. -/
lemma KeepsPostings.postingOf (h : KeepsPostings s s') (hfid : fid ∈ s'.filePaths.keys) :
    s'.postingOf fid = s.postingOf fid := by
  funext t
  obtain ⟨hposting, hmasks⟩ := h fid hfid t
  exact postingOf_congr hposting hmasks

end Postings

/-! ## Removing entries -/

section Remove

variable {s : LiveIndex}

/-- Removing one entry keeps the postings of the other files. -/
lemma removeOverlayEntry_keeps (h : s.Rep) (path : String) :
    KeepsPostings s (s.removeOverlayEntry path) := by
  obtain ⟨-, heq⟩ | ⟨fid, -, heq⟩ := removeOverlayEntry_cases h path
  · rw [heq]
    exact fun _ _ _ => ⟨Iff.rfl, rfl⟩
  · rw [heq]
    intro fid' hfid' t
    have hne : fid' ≠ fid := by
      rw [keys_erase] at hfid'
      exact Finset.ne_of_mem_erase hfid'
    exact retainIds_keeps s (fun fid' => fid' != fid) (bne_iff_ne.mpr hne) t

/-- The view after entries have been removed, when the other files keep their postings. -/
lemma view_of_keeps {s' : LiveIndex} (h' : s'.Rep) (hkeeps : KeepsPostings s s')
    {paths : List String}
    (hids : ∀ path, s'.pathToId.get? path = if path ∈ paths then none else s.pathToId.get? path)
    (hdeleted : s'.deletedPaths = s.deletedPaths) : s'.view = s.view.remove paths := by
  refine Overlay.ext (funext fun path => ?_) hdeleted
  show (s'.pathToId.get? path).map s'.postingOf =
    if path ∈ paths then none else (s.pathToId.get? path).map s.postingOf
  cases hget : s'.pathToId.get? path with
  | none =>
    rw [hids] at hget
    split_ifs with hpath
    · rfl
    · rw [if_neg hpath] at hget
      rw [hget]
      rfl
  | some fid =>
    have hfid : fid ∈ s'.filePaths.keys :=
      mem_keys_of_get? ((h'.inverse path fid).mp hget)
    rw [hids] at hget
    split_ifs at hget ⊢
    rw [hget, map_some, map_some, hkeeps.postingOf hfid]

/-- **Removing an entry.** -/
theorem view_removeOverlayEntry (h : s.Rep) (path : String) :
    (s.removeOverlayEntry path).view = s.view.remove [path] := by
  obtain ⟨-, hdeleted, hids⟩ := removeOverlayEntry_frame h path
  refine view_of_keeps (removeOverlayEntry_rep h path) (removeOverlayEntry_keeps h path)
    (fun path' => ?_) hdeleted
  rw [hids]
  simp only [mem_singleton]

/-- **Removing many entries.** -/
theorem view_batchRemoveOverlayEntries (h : s.Rep) (paths : List String) :
    (s.batchRemoveOverlayEntries paths).view = s.view.remove paths := by
  obtain ⟨h', -, hdeleted, hids, -, hkeeps⟩ := batchRemoveOverlayEntries_spec h paths
  exact view_of_keeps h' hkeeps hids hdeleted

/-- **Clearing entries and tombstones.** -/
theorem view_clearReconciledPaths (h : s.Rep) (paths : List String) :
    (s.clearReconciledPaths paths).view = s.view.clear paths := by
  have hbatch := view_batchRemoveOverlayEntries h paths
  obtain ⟨-, -, hdeleted, -⟩ := batchRemoveOverlayEntries_spec h paths
  refine Overlay.ext ?_ ?_
  · have hentry := congrArg Overlay.entry hbatch
    exact hentry
  · show paths.foldl (fun deleted path => deleted.erase path)
      (s.batchRemoveOverlayEntries paths).deletedPaths = _
    ext path
    rw [mem_foldl_erase, hdeleted]
    exact (Finset.mem_filter (p := fun path => path ∉ paths)).symm

/-- **Deleting a file.** -/
theorem view_deleteFile (h : s.Rep) (path : String) :
    (s.deleteFile path).view = s.view.delete path := by
  have hremove := view_removeOverlayEntry h path
  obtain ⟨-, hdeleted, -⟩ := removeOverlayEntry_frame h path
  refine Overlay.ext ?_ ?_
  · have hentry : (s.deleteFile path).view.entry = (s.removeOverlayEntry path).view.entry := rfl
    rw [hentry, hremove]
    funext path'
    simp only [Overlay.remove, Overlay.delete, mem_singleton, update_apply]
  · show insert path (s.removeOverlayEntry path).deletedPaths = _
    rw [hdeleted]
    rfl

/-- **Dropping all persisted entries** leaves the view as it is or empties it. -/
theorem view_tryDropAllPersisted (s : LiveIndex) (readerPaths : Finset String) :
    (s.tryDropAllPersisted readerPaths).1.view = s.view ∨
      (s.tryDropAllPersisted readerPaths).1.view = Overlay.empty := by
  rw [tryDropAllPersisted]
  by_cases hpaths : s.pathToId.keys ⊆ readerPaths
  · rw [if_neg (not_not.mpr hpaths)]
    split_ifs
    · exact .inl rfl
    · exact .inr rfl
  · rw [if_pos hpaths]
    exact .inl rfl

end Remove

/-! ## Upserts -/

section Upsert

variable {s : LiveIndex}

variable (fid : UInt32) (capacity : TrigramHash → ℕ)

/-- One posting is added. -/
lemma hasPostingOf_insertPosting {fid' : UInt32} {t tri : TrigramHash} :
    (s.insertPosting fid capacity tri).HasPostingOf t fid' ↔
      s.HasPostingOf t fid' ∨ (fid' = fid ∧ t = tri) := by
  unfold HasPostingOf insertPosting
  simp only [get?_alter]
  by_cases ht : t = tri
  · subst ht
    simp only [if_true, some.injEq, exists_eq_left', Finset.mem_insert, and_true]
    cases s.inverted.get? t with
    | none => simp
    | some set =>
      simp only [getD_some, some.injEq, exists_eq_left']
      exact or_comm
  · simp [ht]

/-- The loop of an upsert without masks. -/
lemma foldl_insertPosting (trigrams : List TrigramHash) (s : LiveIndex) :
    (∀ t fid', (trigrams.foldl (fun s tri => s.insertPosting fid capacity tri) s).HasPostingOf
        t fid' ↔ s.HasPostingOf t fid' ∨ (fid' = fid ∧ t ∈ trigrams)) ∧
      (trigrams.foldl (fun s tri => s.insertPosting fid capacity tri) s).masks = s.masks := by
  induction trigrams generalizing s with
  | nil => simp
  | cons tri trigrams ih =>
    obtain ⟨hposting, hmasks⟩ := ih (s.insertPosting fid capacity tri)
    refine ⟨fun t fid' => ?_, hmasks⟩
    rw [foldl_cons, hposting, hasPostingOf_insertPosting, mem_cons]
    tauto

/-- The loop of an upsert with masks: the postings, and the masks as a loop of their own. -/
lemma foldl_insertPostingWithMasks (entries : List (TrigramHash × TrigramMasks)) (s : LiveIndex) :
    (∀ t fid', (entries.foldl (fun s entry => s.insertPostingWithMasks fid capacity entry)
        s).HasPostingOf t fid' ↔
          s.HasPostingOf t fid' ∨ (fid' = fid ∧ t ∈ entries.map Prod.fst)) ∧
      (entries.foldl (fun s entry => s.insertPostingWithMasks fid capacity entry) s).masks =
        entries.foldl (fun masks entry => masks.insert (entry.1, fid) entry.2) s.masks := by
  induction entries generalizing s with
  | nil => simp
  | cons entry entries ih =>
    obtain ⟨hposting, hmasks⟩ := ih (s.insertPostingWithMasks fid capacity entry)
    refine ⟨fun t fid' => ?_, hmasks⟩
    have hstep : (s.insertPostingWithMasks fid capacity entry).HasPostingOf t fid' ↔
        s.HasPostingOf t fid' ∨ (fid' = fid ∧ t = entry.1) :=
      hasPostingOf_insertPosting fid capacity
    rw [foldl_cons, hposting, hstep, map_cons, mem_cons]
    tauto

section Masks

variable {fid : UInt32} {entries : List (TrigramHash × TrigramMasks)}

variable (masks : FinMap (TrigramHash × UInt32) TrigramMasks)

/-- One step of the loop sets the masks at one key. -/
lemma get?_insert_masks (entry : TrigramHash × TrigramMasks) (k : TrigramHash × UInt32)
    (hk : k ≠ (entry.1, fid)) : (masks.insert (entry.1, fid) entry.2).get? k = masks.get? k := by
  rw [get?_insert, if_neg hk]

/-- The masks of a posting that the loop has set. -/
lemma get?_foldl_masks_of_mem (hnodup : (entries.map Prod.fst).Nodup)
    {entry : TrigramHash × TrigramMasks} (hmem : entry ∈ entries) :
    (entries.foldl (fun masks entry => masks.insert (entry.1, fid) entry.2) masks).get?
      (entry.1, fid) = some entry.2 := by
  have hkeys : (entries.map fun entry => (entry.1, fid)).Nodup := by
    rw [List.Nodup, pairwise_map] at hnodup ⊢
    exact hnodup.imp fun hne heq => hne (Prod.mk.inj heq).1
  have hown : ∀ (m : FinMap (TrigramHash × UInt32) TrigramMasks)
      (entry : TrigramHash × TrigramMasks),
      (m.insert (entry.1, fid) entry.2).get? (entry.1, fid) =
        (fun (entry : TrigramHash × TrigramMasks) (_ : Option TrigramMasks) => some entry.2) entry
          (m.get? (entry.1, fid)) := fun m entry => get?_insert_self _ _ _
  have hset := get?_foldl_of_mem
    (g := fun (entry : TrigramHash × TrigramMasks) (_ : Option TrigramMasks) => some entry.2)
    hown get?_insert_masks hkeys hmem masks
  exact hset

end Masks

/-- What an upsert leaves: the postings of the new file come from the loop, those of the others
are as before. -/
lemma view_upsertWith {α : Type} {f : UInt32 → LiveIndex → α → LiveIndex} (hf : AddsPostings f)
    (h : s.Rep) (hfresh : s.Fresh) (hlow : s.nextId < OVERLAY_BIT) (path : String)
    (entries : List α) {masks : TrigramHash → Option TrigramMasks}
    (hnew : ∀ s₀ : LiveIndex, (∀ t, ¬ s₀.HasPostingOf t s.nextFileId) →
      (∀ t, s₀.masks.get? (t, s.nextFileId) = none) →
      (entries.foldl (f s.nextFileId) s₀).postingOf s.nextFileId = masks)
    (hother : ∀ (s₀ : LiveIndex) (fid : UInt32), fid ≠ s.nextFileId →
      (entries.foldl (f s.nextFileId) s₀).postingOf fid = s₀.postingOf fid) :
    (s.upsertWith path f entries).view = s.view.upsert path masks := by
  have hr := removeOverlayEntry_rep h path
  obtain ⟨hnext, hdeleted, hids⟩ := removeOverlayEntry_frame h path
  obtain ⟨s', heq, ⟨-, hids', hdeleted', -⟩, -⟩ := upsertWith_loop hf h path entries
  have hunused : s.nextFileId ∉ (s.removeOverlayEntry path).filePaths.keys := by
    have := (removeOverlayEntry_fresh h hfresh path).unused (hnext ▸ hlow)
    rwa [nextFileId_removeOverlayEntry h] at this
  have hloop : s.upsertWith path f entries =
      (entries.foldl (f s.nextFileId) (s.removeOverlayEntry path).advanceId).insertPath path
        s.nextFileId := by
    rw [← nextFileId_removeOverlayEntry h path]
    rfl
  have hpostings : ∀ fid, (s.upsertWith path f entries).postingOf fid =
      (entries.foldl (f s.nextFileId) (s.removeOverlayEntry path).advanceId).postingOf fid := by
    intro fid
    rw [hloop]
    rfl
  obtain ⟨-, -, hpaths⟩ := upsertWith_frame hf h path entries
  refine Overlay.ext (funext fun path' => ?_) ?_
  · show ((s.upsertWith path f entries).pathToId.get? path').map _ =
      Function.update s.view.entry path (some masks) path'
    rw [hpaths, update_apply]
    split_ifs with hpath
    · rw [map_some, hpostings, hnew]
      · exact fun t hposting => hunused (by
            obtain ⟨set, hset, hmem⟩ := hposting
            exact hr.postings.posting_live t set hset hmem)
      · intro t
        exact FinMap.notMem_keys.mp fun hmask => hunused (hr.postings.mask_live t _ hmask)
    · show _ = (s.pathToId.get? path').map s.postingOf
      cases hget : s.pathToId.get? path' with
      | none => rfl
      | some fid =>
        have hget' : (s.removeOverlayEntry path).pathToId.get? path' = some fid := by
          rw [hids, if_neg hpath, hget]
        have hfid : fid ∈ (s.removeOverlayEntry path).filePaths.keys :=
          mem_keys_of_get? ((hr.inverse path' fid).mp hget')
        have hne : fid ≠ s.nextFileId := fun heq => hunused (heq ▸ hfid)
        rw [map_some, map_some, hpostings, hother _ _ hne,
          ← (removeOverlayEntry_keeps h path).postingOf hfid]
        rfl
  · show (s.upsertWith path f entries).deletedPaths = s.deletedPaths.erase path
    rw [heq]
    show s'.deletedPaths.erase path = _
    rw [hdeleted']
    exact congrArg (Finset.erase · path) hdeleted

/-- **Inserting a file with masks.** -/
theorem view_commitUpsert (h : s.Rep) (hfresh : s.Fresh) (hlow : s.nextId < OVERLAY_BIT)
    (path : String) (perTri : TrigramMaskMap) (capacity : TrigramHash → ℕ) :
    (s.commitUpsert path perTri capacity).view = s.view.upsert path perTri.get? := by
  rw [commitUpsert_eq]
  refine view_upsertWith (addsPostings_insertPostingWithMasks capacity) h hfresh hlow path _
    (fun s₀ hposting hmask => funext fun t => ?_) (fun s₀ fid hfid => funext fun t => ?_)
  · obtain ⟨hloop, hmasks⟩ :=
      foldl_insertPostingWithMasks s.nextFileId capacity perTri.toList s₀
    cases hget : perTri.get? t with
    | none =>
      refine postingOf_eq_none fun hhas => ?_
      obtain hhas | ⟨-, hmem⟩ := (hloop t _).mp hhas
      · exact hposting t hhas
      · obtain ⟨entry, hentry, rfl⟩ := mem_map.mp hmem
        have hsome : perTri.get? entry.1 = some entry.2 := FinMap.mem_toList.mp hentry
        rw [hsome] at hget
        cases hget
    | some m =>
      have hmem : (t, m) ∈ perTri.toList := FinMap.mem_toList.mpr hget
      have hhas := (hloop t s.nextFileId).mpr (.inr ⟨rfl, mem_map_of_mem hmem⟩)
      rw [postingOf_eq_some hhas, getMasks, hmasks,
        get?_foldl_masks_of_mem _ perTri.nodup_keys_toList hmem]
      rfl
  · obtain ⟨hloop, hmasks⟩ :=
      foldl_insertPostingWithMasks s.nextFileId capacity perTri.toList s₀
    refine postingOf_congr ?_ ?_
    · rw [hloop]
      simp [hfid]
    · rw [hmasks]
      exact get?_foldl_of_forall_ne get?_insert_masks
        (fun entry _ heq => hfid (Prod.mk.inj heq).2.symm) _

/-- **Inserting a file without masks**: each of its trigrams has the masks that filter nothing. -/
theorem view_upsertFileWithTrigrams (h : s.Rep) (hfresh : s.Fresh) (hlow : s.nextId < OVERLAY_BIT)
    (path : String) (trigrams : List TrigramHash) (capacity : TrigramHash → ℕ) :
    (s.upsertFileWithTrigrams path trigrams capacity).view =
      s.view.upsert path fun t => if t ∈ trigrams then some ⟨0xff, 0xff⟩ else none := by
  refine view_upsertWith (addsPostings_insertPosting capacity) h hfresh hlow path _
    (fun s₀ hposting hmask => funext fun t => ?_) (fun s₀ fid hfid => funext fun t => ?_)
  · obtain ⟨hloop, hmasks⟩ := foldl_insertPosting s.nextFileId capacity trigrams s₀
    split_ifs with hmem
    · rw [postingOf_eq_some ((hloop t _).mpr (.inr ⟨rfl, hmem⟩)), getMasks, hmasks, hmask]
      rfl
    · refine postingOf_eq_none fun hhas => ?_
      obtain hhas | ⟨-, hmem'⟩ := (hloop t _).mp hhas
      · exact hposting t hhas
      · exact hmem hmem'
  · obtain ⟨hloop, hmasks⟩ := foldl_insertPosting s.nextFileId capacity trigrams s₀
    refine postingOf_congr ?_ ?_
    · rw [hloop]
      simp [hfid]
    · rw [hmasks]

end Upsert

end LiveIndex

end Tgrep
