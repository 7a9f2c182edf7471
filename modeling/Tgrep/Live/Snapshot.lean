import Tgrep.Live.History
import Tgrep.Live.Lookup

/-!
# Snapshots of the overlay

The overlay files are renumbered by their place in insertion order, and the posting sets become
sorted lists of the new numbers.

## Main definitions

* `LiveIndex.remapSnapshot`, `LiveIndex.snapshotForDisk`: the snapshot.
* `LiveIndex.Linked`: every file of the overlay is the one that its path has an entry for.
* `LiveIndex.IsSnapshot`: what a snapshot says.

## Main results

* `History.run_linked`: the files of the overlay are linked after every run of mutations.
* `LiveIndex.Linked.isSnapshot`: what the snapshot of a linked overlay says.

## Implementation notes

The representation invariant is lost when the id counter passes the overlay bit. That no two files
have one path is not: it needs nothing of the counter.
-/

namespace Tgrep

open Option FinMap Ascending

namespace LiveIndex

/-! ## Taking a snapshot -/

/-- The number of each path: its place in the list. -/
def pathToNewId (paths : List String) : FinMap String UInt32 :=
  FinMap.ofList (paths.zipIdx.map fun p => (p.1, UInt32.ofNat p.2))

/-- Remap raw data into the form written to disk: sequential ids, sorted postings. -/
def remapSnapshot (inverted : FinMap TrigramHash (Finset UInt32))
    (filePaths : FinMap UInt32 String) : List String × FinMap TrigramHash (List UInt32) :=
  let pairs := Ascending.sortByKey (fun pair => pair.1 &&& ~~~OVERLAY_BIT) filePaths.toList
  let paths := pairs.map Prod.snd
  let pathToNewId := pathToNewId paths
  let remapped := inverted.filterMap fun _ fileIds =>
    let posting := fileIds.sort.filterMap fun fid =>
      (filePaths.get? fid).bind fun path => pathToNewId.get? path
    if posting.isEmpty then none else some (Ascending.sortByKey (fun id => id) posting)
  (paths, remapped)

/-- Snapshot the inverted index for disk: the paths in order, and the renumbered postings. -/
def snapshotForDisk (s : LiveIndex) : List String × FinMap TrigramHash (List UInt32) :=
  remapSnapshot s.inverted s.filePaths

/-! ## Linked files -/

/-- Every file of the overlay has the overlay bit, and is the one that its path has an entry for.
The converse is not asked: an entry may be stale. -/
structure Linked (s : LiveIndex) : Prop where
  overlay : ∀ fid path, s.filePath fid = some path → isOverlayId fid = true
  entry : ∀ fid path, s.filePath fid = some path → s.pathToId.get? path = some fid

variable {s s' : LiveIndex}

/-- Only the path tables matter. -/
lemma Linked.congr (h : s.Linked) (hfiles : s'.filePaths = s.filePaths)
    (hids : s'.pathToId = s.pathToId) : s'.Linked := by
  constructor
  · intro fid path hfid
    rw [filePath, hfiles] at hfid
    exact h.overlay fid path hfid
  · intro fid path hfid
    rw [filePath, hfiles] at hfid
    rw [hids]
    exact h.entry fid path hfid

/-- The empty overlay has no files. -/
lemma new_linked : new.Linked :=
  ⟨fun fid path h => by simp [filePath, new] at h, fun fid path h => by simp [filePath, new] at h⟩

variable {α : Type*} {fid : UInt32} {path : String}

/-- Taking a file out, and the entry of a path, leaves the files linked if no other file has the
path. -/
lemma Linked.erase (h : s.Linked) (hpath : ∀ fid', s.filePath fid' = some path → fid' = fid)
    (hfiles : s'.filePaths = s.filePaths.erase fid) (hids : s'.pathToId = s.pathToId.erase path) :
    s'.Linked := by
  have hfile : ∀ {fid' : UInt32} {path' : String}, s'.filePath fid' = some path' →
      fid' ≠ fid ∧ s.filePath fid' = some path' := by
    intro fid' path' h'
    rw [filePath, hfiles, get?_erase] at h'
    split_ifs at h' with heq
    exact ⟨heq, h'⟩
  constructor
  · intro fid' path' h'
    exact h.overlay fid' path' (hfile h').2
  · intro fid' path' h'
    obtain ⟨hne, hget⟩ := hfile h'
    have hother : path' ≠ path := fun heq => hne (hpath fid' (heq ▸ hget))
    rw [hids, get?_erase, if_neg hother]
    exact h.entry fid' path' hget

/-- The path tables after a file was removed. -/
lemma removeFileById_names (s : LiveIndex) (fid : UInt32) :
    (s.removeFileById fid).filePaths = s.filePaths.erase fid ∧
      (s.removeFileById fid).pathToId =
        (s.filePath fid).elim s.pathToId fun path => s.pathToId.erase path := by
  have hkept : (s.retainIds fun id => id != fid).filePaths = s.filePaths := rfl
  simp only [removeFileById, filePath, hkept]
  cases hget : s.filePaths.get? fid with
  | some path => exact ⟨rfl, rfl⟩
  | none =>
    refine ⟨ext_get? fun k => ?_, rfl⟩
    rw [get?_erase]
    split_ifs with heq
    · rw [heq]
      exact hget
    · rfl

/-- Removing a file leaves the others linked. -/
lemma Linked.removeFileById (h : s.Linked) (fid : UInt32) : (s.removeFileById fid).Linked := by
  obtain ⟨hfiles, hids⟩ := removeFileById_names s fid
  cases hpath : s.filePath fid with
  | some path =>
    rw [hpath, elim_some] at hids
    refine h.erase (fun fid' hfid' => ?_) hfiles hids
    exact some.inj ((h.entry fid' path hfid').symm.trans (h.entry fid path hpath))
  | none =>
    rw [hpath, elim_none] at hids
    refine h.congr (hfiles.trans (ext_get? fun k => ?_)) hids
    rw [get?_erase]
    split_ifs with heq
    · rw [heq]
      exact hpath.symm
    · rfl

/-- Removing the entry of a path leaves the files linked, and none with the path. -/
lemma Linked.removeOverlayEntry (h : s.Linked) (path : String) :
    (s.removeOverlayEntry path).Linked ∧
      ∀ fid, (s.removeOverlayEntry path).filePath fid ≠ some path := by
  rw [LiveIndex.removeOverlayEntry]
  cases hget : s.pathToId.get? path with
  | none =>
    refine ⟨h, fun fid hfid => ?_⟩
    rw [h.entry fid path hfid] at hget
    cases hget
  | some fid =>
    refine ⟨h.removeFileById fid, fun fid' hfid' => ?_⟩
    rw [filePath, (removeFileById_names s fid).1, get?_erase] at hfid'
    split_ifs at hfid' with heq
    -- a file with the path would be the one that was removed
    exact heq (some.inj ((h.entry fid' path hfid').symm.trans hget))

/-- Entering a path that no file has leaves the files linked. -/
lemma Linked.insertPath (h : s.Linked) (hnone : ∀ fid, s.filePath fid ≠ some path)
    (hover : isOverlayId fid = true) : (s.insertPath path fid).Linked := by
  have hfile : ∀ fid' path', (s.insertPath path fid).filePath fid' = some path' →
      (fid' = fid ∧ path' = path) ∨ s.filePath fid' = some path' := by
    intro fid' path' hfid'
    rw [filePath, LiveIndex.insertPath, get?_insert] at hfid'
    split_ifs at hfid' with heq
    · exact .inl ⟨heq, (some.inj hfid').symm⟩
    · exact .inr hfid'
  constructor
  · intro fid' path' hfid'
    rcases hfile fid' path' hfid' with ⟨rfl, -⟩ | hold
    · exact hover
    · exact h.overlay fid' path' hold
  · intro fid' path' hfid'
    rw [LiveIndex.insertPath, get?_insert]
    rcases hfile fid' path' hfid' with ⟨rfl, rfl⟩ | hold
    · rw [if_pos rfl]
    · have hother : path' ≠ path := fun heq => hnone fid' (heq ▸ hold)
      rw [if_neg hother]
      exact h.entry fid' path' hold

/-- A loop of steps that leave the path tables alone leaves them alone. -/
lemma foldl_names {f : LiveIndex → α → LiveIndex}
    (hf : ∀ s a, (f s a).filePaths = s.filePaths ∧ (f s a).pathToId = s.pathToId)
    (entries : List α) (s : LiveIndex) :
    (entries.foldl f s).filePaths = s.filePaths ∧ (entries.foldl f s).pathToId = s.pathToId := by
  induction entries generalizing s with
  | nil => exact ⟨rfl, rfl⟩
  | cons a entries ih =>
    obtain ⟨hfiles, hids⟩ := hf s a
    obtain ⟨hfiles', hids'⟩ := ih (f s a)
    exact ⟨hfiles'.trans hfiles, hids'.trans hids⟩

/-- An upsert leaves the files linked, whatever id it hands out. -/
lemma Linked.upsertWith {f : UInt32 → LiveIndex → α → LiveIndex}
    (hf : ∀ fid s a, (f fid s a).filePaths = s.filePaths ∧ (f fid s a).pathToId = s.pathToId)
    (h : s.Linked) (relPath : String) (entries : List α) :
    (s.upsertWith relPath f entries).Linked := by
  obtain ⟨hremoved, hnone⟩ := h.removeOverlayEntry relPath
  have hloop := foldl_names (hf (s.removeOverlayEntry relPath).nextFileId) entries
    (s.removeOverlayEntry relPath).advanceId
  refine Linked.insertPath (hremoved.congr hloop.1 hloop.2) (fun fid hfid => ?_)
    (isOverlayId_nextFileId _)
  rw [filePath, hloop.1] at hfid
  exact hnone fid hfid

/-- Unlinking paths one by one leaves the files linked. -/
lemma Linked.foldl_unlinkPath (paths : List String) {u : LiveIndex × Finset UInt32}
    (h : u.1.Linked) : (paths.foldl unlinkPath u).1.Linked := by
  induction paths generalizing u with
  | nil => exact h
  | cons path paths ih =>
    refine ih ?_
    rw [LiveIndex.unlinkPath]
    cases hget : u.1.pathToId.get? path with
    | none => exact h
    | some fid =>
      refine h.erase (fun fid' hfid' => ?_) rfl rfl
      exact some.inj ((h.entry fid' path hfid').symm.trans hget)

/-- Removing entries in one pass leaves the files linked. -/
lemma Linked.batchRemoveOverlayEntries (h : s.Linked) (paths : List String) :
    (s.batchRemoveOverlayEntries paths).Linked := by
  have hunlinked : (paths.foldl unlinkPath (s, ∅)).1.Linked := Linked.foldl_unlinkPath paths h
  rw [LiveIndex.batchRemoveOverlayEntries]
  dsimp only
  split_ifs
  · exact h
  · exact hunlinked
  · exact hunlinked.congr rfl rfl
  · exact hunlinked.congr rfl rfl

/-- **Every mutation leaves the files linked.** -/
theorem Op.apply_linked (h : s.Linked) (op : Op) : (op.apply s).Linked := by
  cases op with
  | upsertFile relPath content capacity =>
    exact h.upsertWith (f := fun fid s entry => s.insertPostingWithMasks fid capacity entry)
      (fun _ _ _ => ⟨rfl, rfl⟩) relPath _
  | commitUpsert relPath perTri capacity =>
    exact h.upsertWith (f := fun fid s entry => s.insertPostingWithMasks fid capacity entry)
      (fun _ _ _ => ⟨rfl, rfl⟩) relPath _
  | upsertFileWithTrigrams relPath trigrams capacity =>
    exact h.upsertWith (f := fun fid s tri => s.insertPosting fid capacity tri)
      (fun _ _ _ => ⟨rfl, rfl⟩) relPath _
  | deleteFile relPath => exact (h.removeOverlayEntry relPath).1.congr rfl rfl
  | removeOverlayEntry path => exact (h.removeOverlayEntry path).1
  | batchRemoveOverlayEntries paths => exact h.batchRemoveOverlayEntries paths
  | clearReconciledPaths paths => exact (h.batchRemoveOverlayEntries paths).congr rfl rfl
  | tryDropAllPersisted readerPaths =>
    rw [Op.apply, LiveIndex.tryDropAllPersisted]
    by_cases hpaths : s.pathToId.keys ⊆ readerPaths
    · rw [if_neg (not_not.mpr hpaths)]
      split_ifs
      · exact h
      · exact new_linked.congr rfl rfl
    · rw [if_pos hpaths]
      exact h

/-- No two files have one path. -/
lemma Linked.injective (h : s.Linked) {a b : UInt32} (ha : s.filePath a = some path)
    (hb : s.filePath b = some path) : a = b :=
  some.inj ((h.entry a path ha).symm.trans (h.entry b path hb))

/-! ## What a snapshot says -/

/-- What a snapshot of an overlay says: the paths are those of its files, each once, and the postings
of a trigram are the places of the files that the overlay has postings of, in strictly ascending
order, unless there are none. -/
structure IsSnapshot (s : LiveIndex) (paths : List String)
    (inverted : FinMap TrigramHash (List UInt32)) : Prop where
  mem_paths : ∀ path, path ∈ paths ↔ ∃ fid, s.filePath fid = some path
  paths_nodup : paths.Nodup
  paths_le : paths.length ≤ 2 ^ 32
  ascending : ∀ t ids, inverted.get? t = some ids → Ascending id ids
  mem_ids : ∀ t k, k ∈ (inverted.get? t).getD [] ↔
    ∃ fid path, s.HasPostingOf t fid ∧ s.filePath fid = some path ∧ paths[k.toNat]? = some path

/-- The number of a path is its place. -/
lemma get?_pathToNewId {paths : List String} (hnodup : paths.Nodup) (hlen : paths.length ≤ 2 ^ 32)
    {k : UInt32} : (pathToNewId paths).get? path = some k ↔ paths[k.toNat]? = some path := by
  have hkeys : ((paths.zipIdx.map fun p => (p.1, UInt32.ofNat p.2)).map Prod.fst).Nodup := by
    rw [List.map_map]
    exact (List.zipIdx_map_fst 0 paths).symm ▸ hnodup
  rw [pathToNewId, get?_ofList hkeys, List.mem_map]
  constructor
  · rintro ⟨⟨path', i⟩, hmem, heq⟩
    obtain ⟨rfl, rfl⟩ := Prod.mk.inj heq
    have hi := List.mem_zipIdx_iff_getElem?.mp hmem
    have hlt := (List.getElem?_eq_some_iff.mp hi).1
    rwa [UInt32.toNat_ofNat_of_lt' (lt_of_lt_of_le hlt hlen)]
  · intro hk
    exact ⟨(path, k.toNat), List.mem_zipIdx_iff_getElem?.mpr hk, Prod.ext rfl UInt32.ofNat_toNat⟩

/-- **What the snapshot of a linked overlay says.** -/
theorem Linked.isSnapshot (h : s.Linked) :
    s.IsSnapshot s.snapshotForDisk.1 s.snapshotForDisk.2 := by
  have hpaths : s.snapshotForDisk.1 = s.allPathsOrdered := rfl
  have hnodup := nodup_allPathsOrdered fun ha hb => h.injective ha hb
  have hlen : s.allPathsOrdered.length ≤ 2 ^ 32 := by
    rw [length_allPathsOrdered, ← FinMap.length_toList]
    exact length_le s.filePaths.pairwise_toList
  -- the number of a file, and which files have one
  set number : UInt32 → Option UInt32 := fun fid =>
    (s.filePath fid).bind fun path => (pathToNewId s.allPathsOrdered).get? path with hnumber
  have hnum : ∀ {fid k : UInt32}, number fid = some k ↔
      ∃ path, s.filePath fid = some path ∧ s.allPathsOrdered[k.toNat]? = some path := by
    intro fid k
    simp only [hnumber, bind_eq_some_iff, get?_pathToNewId hnodup hlen]
  have hget : ∀ t, s.snapshotForDisk.2.get? t = (s.inverted.get? t).bind fun fileIds =>
      if (fileIds.sort.filterMap number).isEmpty then none
      else some (Ascending.sortByKey (fun id => id) (fileIds.sort.filterMap number)) := fun t => rfl
  refine ⟨fun path => mem_allPathsOrdered, hnodup, hlen, fun t ids hids => ?_, fun t k => ?_⟩
  · rw [hget] at hids
    obtain ⟨fileIds, -, hids⟩ := Option.bind_eq_some_iff.mp hids
    split_ifs at hids
    cases hids
    refine sortByKey_ascending ?_
    rw [List.map_id]
    refine List.Nodup.filterMap (fun a b k ha hb => ?_) (Finset.sort_nodup _ _)
    obtain ⟨path, hpath, hk⟩ := hnum.mp ha
    obtain ⟨path', hpath', hk'⟩ := hnum.mp hb
    obtain rfl := some.inj (hk.symm.trans hk')
    exact h.injective hpath hpath'
  · have hmem : k ∈ (s.snapshotForDisk.2.get? t).getD [] ↔
        ∃ fid, s.HasPostingOf t fid ∧ number fid = some k := by
      rw [hget]
      cases hset : s.inverted.get? t with
      | none => simp [HasPostingOf, hset]
      | some fileIds =>
        have hall : k ∈ fileIds.sort.filterMap number ↔
            ∃ fid, s.HasPostingOf t fid ∧ number fid = some k := by
          simp [HasPostingOf, hset]
        rw [bind_some, ← hall]
        split_ifs with hempty
        · rw [List.isEmpty_iff.mp hempty, getD_none]
        · rw [getD_some, mem_sortByKey]
    rw [hmem]
    simp only [hnum, hpaths]
    constructor
    · rintro ⟨fid, hpost, path, hpath, hk⟩
      exact ⟨fid, path, hpost, hpath, hk⟩
    · rintro ⟨fid, path, hpost, hpath, hk⟩
      exact ⟨fid, hpost, path, hpath, hk⟩

end LiveIndex

/-- **The files of the overlay are linked after every run of mutations.** -/
theorem History.run_linked (ops : List LiveIndex.Op) : (History.run ops).index.Linked := by
  have hall : Run.AllSteps History.step (fun _ _ => True) History.start ops :=
    Run.AllSteps.of_forall (fun _ _ => trivial) _ ops
  exact Run.invariant (P := fun h : History => h.index.Linked)
    (fun h op hl _ => LiveIndex.Op.apply_linked hl op) LiveIndex.new_linked hall

end Tgrep
