import Tgrep.Shared.Restore

/-!
# Checkpoints round trip

An overlay that is captured and restored has the same files with the same masks and the same
tombstones, and a checkpoint that is restored and captured is the same in canonical order.

## Main definitions

* `LiveIndex.SameContents`: two overlays agree on paths, tombstones and masks.
* `LiveIndex.Op.ValidPostings`: the postings handed to a mutation can come from a file.
* `History.Reaches`: the overlay is reached by such mutations.
* `History.upserts`: a run that fills the ids of the overlay.

## Main results

* `Trigram.extractMergedMasks_valid`: the postings extracted from a file pass the check.
* `LiveIndex.checkpoint_roundTrip`: the round trips.
* `LiveIndex.checkpoint_refuses`: two overlays that do not survive one.
-/

namespace Tgrep

open Finset FinMap Option List

/-! ## Extracted postings -/

namespace Trigram

/-- A trigram has three bytes. -/
lemma hash_le (a b c : UInt8) : hash a b c ≤ 0x00ffffff := by
  have hor : (hash a b c).toNat < 2 ^ 24 := by
    have ha := a.toNat_lt
    have hb := b.toNat_lt
    have hc := c.toNat_lt
    simp only [hash, UInt32.toNat_or, UInt32.toNat_shiftLeft, UInt8.toNat_toUInt32]
    refine Nat.or_lt_two_pow (Nat.or_lt_two_pow ?_ ?_) (by omega)
    · refine lt_of_le_of_lt (Nat.mod_le _ _) ?_
      rw [Nat.shiftLeft_eq]
      show a.toNat * 2 ^ 16 < 2 ^ 24
      omega
    · refine lt_of_le_of_lt (Nat.mod_le _ _) ?_
      rw [Nat.shiftLeft_eq]
      show b.toNat * 2 ^ 8 < 2 ^ 24
      omega
  rw [UInt32.le_iff_toNat_le]
  exact Nat.le_of_lt_succ hor

/-- An offset has a location bit. -/
lemma locBit_ne_zero (offset : ℕ) : locBit offset ≠ 0 := by
  have hbits : ∀ i < 8, (1 : UInt8) <<< UInt8.ofNat i ≠ 0 := by decide
  exact hbits _ (Nat.mod_lt _ (by omega))

/-- Every entry of the table passes the check. -/
def ValidTable (m : TrigramMaskMap) : Prop := ∀ t e, m.get? t = some e → ValidTrigram t e.locMask

/-- Adding a window keeps the entries valid. -/
lemma ValidTable.orEntry {m : TrigramMaskMap} (hm : ValidTable m) {h : TrigramHash} {loc : UInt8}
    (hh : h ≤ 0x00ffffff) (hloc : loc ≠ 0) (next : UInt8) : ValidTable (orEntry m h loc next) := by
  intro t e he
  rw [Trigram.orEntry, get?_alter] at he
  split_ifs at he with ht
  · obtain rfl := some.inj he
    subst ht
    exact ⟨hh, fun hzero => hloc (UInt8.or_eq_zero_iff.mp hzero).2⟩
  · exact hm t e he

/-- Merging a window keeps the entries valid. -/
lemma ValidTable.mergeWindow {m : TrigramMaskMap} (hm : ValidTable m) (hasUpper : Bool) (i : ℕ)
    (a b c : UInt8) (next : Option UInt8) : ValidTable (mergeWindow hasUpper m i a b c next) := by
  have hloc := locBit_ne_zero i
  unfold Trigram.mergeWindow
  dsimp only
  split_ifs
  · exact hm.orEntry (hash_le _ _ _) hloc _
  · exact hm.orEntry (hash_le _ _ _) hloc _
  · exact (hm.orEntry (hash_le _ _ _) hloc _).orEntry (hash_le _ _ _) hloc _

/-- Merging every window keeps the entries valid. -/
lemma ValidTable.mergeWindows (hasUpper : Bool) (i : ℕ) (content : List UInt8)
    {m : TrigramMaskMap} (hm : ValidTable m) : ValidTable (mergeWindows hasUpper i content m) := by
  fun_induction Trigram.mergeWindows hasUpper i content m with
  | case1 i a b c rest m ih => exact ih (hm.mergeWindow hasUpper i a b c rest.head?)
  | case2 i content m => exact hm

/-- **The postings extracted from a file pass the check.** -/
theorem extractMergedMasks_valid (content : List UInt8) :
    ValidTable (extractMergedMasks content) := by
  have hempty : ValidTable FinMap.empty := fun t e he => by simp at he
  unfold extractMergedMasks
  split_ifs
  · exact hempty
  · exact ValidTable.mergeWindows _ _ _ hempty

end Trigram

/-! ## Reachable overlays -/

namespace Overlay

/-- Inserting an entry with valid postings keeps the postings valid. -/
lemma ValidPostings.upsert {o : Overlay} (h : o.ValidPostings) (path : String)
    {masks : TrigramHash → Option TrigramMasks}
    (hmasks : ∀ t m, masks t = some m → ValidTrigram t m.locMask) :
    (o.upsert path masks).ValidPostings := by
  intro path' masks' hget
  rw [entry_upsert] at hget
  split_ifs at hget with hpath
  · obtain rfl := some.inj hget
    exact hmasks
  · exact h path' masks' hget

/-- Fewer entries keep the postings valid. -/
lemma ValidPostings.mono {o o' : Overlay} (h : o.ValidPostings)
    (hsub : ∀ path masks, o'.entry path = some masks → o.entry path = some masks) :
    o'.ValidPostings :=
  fun path masks hget => h path masks (hsub path masks hget)

end Overlay

namespace LiveIndex

/-- The postings handed to a mutation can come from a file. An upsert of a content extracts them
itself. -/
def Op.ValidPostings : Op → Prop
  | commitUpsert _ perTri _ => ∀ t m, perTri.get? t = some m → ValidTrigram t m.locMask
  | upsertFileWithTrigrams _ trigrams _ => ∀ t ∈ trigrams, t ≤ 0x00ffffff
  | _ => True

/-- **A mutation keeps the postings valid.** -/
theorem Op.apply_validPostings {s : LiveIndex} (h : s.Rep) (hf : s.Fresh) {op : Op}
    (hop : op.BelowBit s) (hvalid : op.ValidPostings) (hs : s.view.ValidPostings) :
    (op.apply s).view.ValidPostings := by
  have hremove : ∀ paths, (s.view.remove paths).ValidPostings := fun paths =>
    hs.mono fun path masks hget => by
      rw [Overlay.entry_remove] at hget
      split_ifs at hget
      exact hget
  cases op with
  | upsertFile relPath content capacity =>
    rw [show (upsertFile relPath content capacity).apply s =
      s.commitUpsert relPath (Trigram.extractMergedMasks content) capacity from rfl,
      view_commitUpsert h hf (hop rfl)]
    exact hs.upsert relPath (Trigram.extractMergedMasks_valid content)
  | commitUpsert relPath perTri capacity =>
    rw [show (commitUpsert relPath perTri capacity).apply s =
      s.commitUpsert relPath perTri capacity from rfl, view_commitUpsert h hf (hop rfl)]
    exact hs.upsert relPath hvalid
  | upsertFileWithTrigrams relPath trigrams capacity =>
    rw [show (upsertFileWithTrigrams relPath trigrams capacity).apply s =
      s.upsertFileWithTrigrams relPath trigrams capacity from rfl,
      view_upsertFileWithTrigrams h hf (hop rfl)]
    refine hs.upsert relPath fun t m hm => ?_
    split_ifs at hm with hmem
    obtain rfl := some.inj hm
    exact ⟨hvalid t hmem, by decide⟩
  | deleteFile relPath =>
    rw [show (deleteFile relPath).apply s = s.deleteFile relPath from rfl, view_deleteFile h]
    refine hs.mono fun path masks hget => ?_
    rw [Overlay.entry_delete] at hget
    split_ifs at hget
    exact hget
  | removeOverlayEntry path =>
    rw [show (removeOverlayEntry path).apply s = s.removeOverlayEntry path from rfl,
      view_removeOverlayEntry h]
    exact hremove [path]
  | batchRemoveOverlayEntries paths =>
    rw [show (batchRemoveOverlayEntries paths).apply s = s.batchRemoveOverlayEntries paths from rfl,
      view_batchRemoveOverlayEntries h]
    exact hremove paths
  | clearReconciledPaths paths =>
    rw [show (clearReconciledPaths paths).apply s = s.clearReconciledPaths paths from rfl,
      view_clearReconciledPaths h]
    exact hremove paths
  | tryDropAllPersisted readerPaths =>
    rw [show (tryDropAllPersisted readerPaths).apply s = (s.tryDropAllPersisted readerPaths).1
      from rfl]
    obtain heq | heq := view_tryDropAllPersisted s readerPaths
    · rwa [heq]
    · rw [heq]
      exact fun path masks hget => by simp [Overlay.empty] at hget

end LiveIndex

/-- **Reachable overlays have valid postings** if those handed to the mutations are. -/
theorem History.run_validPostings {ops : List LiveIndex.Op} (h : History.BelowBit ops)
    (hvalid : ∀ op ∈ ops, op.ValidPostings) : (History.run ops).index.view.ValidPostings := by
  have hloop : ∀ (ops : List LiveIndex.Op) (s : History), s.Inv → s.index.view.ValidPostings →
      Run.AllSteps History.step (fun h op => op.BelowBit h.index) s ops →
      (∀ op ∈ ops, op.ValidPostings) →
      (ops.foldl History.step s).index.view.ValidPostings := by
    intro ops
    induction ops with
    | nil => exact fun s _ hs _ _ => hs
    | cons op ops ih =>
      intro s hi hs hsteps hops
      obtain ⟨hop, hrest⟩ := hsteps
      obtain ⟨hfirst, hops⟩ := forall_mem_cons.mp hops
      exact ih (s.step op) (hi.step hop)
        (LiveIndex.Op.apply_validPostings hi.rep hi.fresh hop hfirst hs) hrest hops
  refine hloop ops History.start History.start_inv ?_ h hvalid
  exact fun path masks hget => by simp [LiveIndex.view, History.start, LiveIndex.new] at hget

/-- The overlay is reached by mutations with valid postings, below the overlay bit. -/
def History.Reaches (s : LiveIndex) : Prop :=
  ∃ ops, History.BelowBit ops ∧ (∀ op ∈ ops, op.ValidPostings) ∧ (History.run ops).index = s

/-! ## The round trips -/

namespace LiveIndex

/-- Two overlays agree on the active paths, the tombstones, and the postings and masks of every
path. Their file ids may differ. -/
structure SameContents (s s' : LiveIndex) : Prop where
  active : ∀ path, s'.hasPath path = s.hasPath path
  deleted : ∀ path, s'.isDeleted path = s.isDeleted path
  postings : ∀ path fid fid', s.pathToId.get? path = some fid →
    s'.pathToId.get? path = some fid' → ∀ t, s'.HasPostingOf t fid' ↔ s.HasPostingOf t fid
  masks : ∀ path fid fid', s.pathToId.get? path = some fid →
    s'.pathToId.get? path = some fid' → ∀ t, s.HasPostingOf t fid →
      s'.getMasks t fid' = s.getMasks t fid

variable (controlled : Bool) {postings : List (TrigramHash × UInt32)} {s : LiveIndex}

/-- A file has a posting iff it has masks for it. -/
lemma isSome_postingOf {fid : UInt32} {t : TrigramHash} :
    (s.postingOf fid t).isSome ↔ s.HasPostingOf t fid := by
  by_cases h : s.HasPostingOf t fid
  · simp [postingOf_eq_some h, h]
  · simp [postingOf_eq_none h, h]

/-- Overlays with the same view have the same contents. -/
lemma sameContents_of_view {s' : LiveIndex} (h : s'.view = s.view) : SameContents s s' := by
  have hentry : ∀ path, (s'.pathToId.get? path).map s'.postingOf =
      (s.pathToId.get? path).map s.postingOf := fun path =>
    congrFun (congrArg Overlay.entry h) path
  have hposting : ∀ path fid fid', s.pathToId.get? path = some fid →
      s'.pathToId.get? path = some fid' → s'.postingOf fid' = s.postingOf fid := by
    intro path fid fid' hfid hfid'
    have hpath := hentry path
    rw [hfid, hfid'] at hpath
    exact some.inj hpath
  refine ⟨fun path => ?_, fun path => ?_, fun path fid fid' hfid hfid' t => ?_,
    fun path fid fid' hfid hfid' t ht => ?_⟩
  · have hsome := congrArg Option.isSome (hentry path)
    rwa [isSome_map, isSome_map] at hsome
  · have hdeleted : s'.deletedPaths = s.deletedPaths := congrArg Overlay.deleted h
    rw [isDeleted, isDeleted, hdeleted]
  · rw [← isSome_postingOf, ← isSome_postingOf, hposting path fid fid' hfid hfid']
  · have hpost := congrFun (hposting path fid fid' hfid hfid') t
    have ht' : s'.HasPostingOf t fid' := by
      rw [← isSome_postingOf, hpost, isSome_postingOf]
      exact ht
    rw [postingOf_eq_some ht, postingOf_eq_some ht'] at hpost
    exact some.inj hpost

/-- The tombstones of consistent tables have no entry. -/
lemma Rep.view_disjoint (h : s.Rep) : ∀ path ∈ s.view.deleted, s.view.entry path = none := by
  intro path hpath
  have hnot := Finset.disjoint_right.mp h.disjoint hpath
  show (s.pathToId.get? path).map s.postingOf = none
  rw [FinMap.notMem_keys.mp hnot, map_none]

/-- Capturing a consistent overlay and restoring it. -/
lemma restore_capture (capacity : String → TrigramHash → ℕ) (h : s.Rep) (hv : s.view.Valid)
    (hcard : s.pathToId.keys.card < 2 ^ 31) (hi : s.Iterates postings) :
    ∃ data live, OverlayData.capture controlled s postings = .ok data ∧
      data.intoLive capacity = .ok live ∧ SameContents s live := by
  obtain ⟨data, hok, hdescribes, hlength⟩ := OverlayData.capture_spec controlled h hv hi
  have haccepted := hdescribes.accepted hv h.view_disjoint
  have hlive : data.intoLive capacity = .ok (data.restored capacity).1.resetDirtyCount :=
    OverlayData.intoLive_eq_ok.mpr ⟨hlength ▸ hcard, haccepted, rfl⟩
  refine ⟨data, _, hok, hlive, sameContents_of_view ?_⟩
  rw [(OverlayData.intoLive_spec hlive).2, hdescribes.overlay_eq haccepted]

/-- Restoring a checkpoint and capturing the result. -/
lemma capture_restore {capacity : String → TrigramHash → ℕ} {data : OverlayData}
    {live : LiveIndex} (h : data.intoLive capacity = .ok live) (hi : live.Iterates postings) :
    OverlayData.capture controlled live postings = .ok data.canonical := by
  obtain ⟨-, haccepted, -⟩ := OverlayData.intoLive_eq_ok.mp h
  obtain ⟨hrep, hview⟩ := OverlayData.intoLive_spec h
  have hv : live.view.Valid := hview ▸ haccepted.valid
  obtain ⟨data', hok, hdescribes, -⟩ := OverlayData.capture_spec controlled hrep hv hi
  rw [hok, hdescribes.unique (hview ▸ OverlayData.canonical_describes haccepted)]

/-- **Checkpoints round trip.** Every overlay of fewer than `2 ^ 31` files with valid paths that is
reached by mutations with valid postings, below the overlay bit, is captured and restored with the
same paths, tombstones and masks. A restore accepts a checkpoint only if its paths are valid and
pairwise distinct across files and tombstones and the trigrams of each file are distinct, and
capturing the result gives the checkpoint in canonical order. -/
theorem checkpoint_roundTrip (controlled : Bool) (capacity : String → TrigramHash → ℕ) :
    (∀ s, History.Reaches s →
      (∀ path, s.hasPath path = true ∨ s.isDeleted path = true → validateIndexPath path = true) →
      s.pathToId.keys.card < 2 ^ 31 → ∀ postings, s.Iterates postings →
        ∃ data live, OverlayData.capture controlled s postings = .ok data ∧
          data.intoLive capacity = .ok live ∧ SameContents s live) ∧
    ∀ (data : OverlayData) (live : LiveIndex), data.intoLive capacity = .ok live →
      ((∀ file ∈ data.files, validateIndexPath file.path = true ∧
          (file.trigrams.map Prod.fst).Nodup) ∧
        (∀ path ∈ data.deleted, validateIndexPath path = true) ∧
        (data.files.map OverlayFile.path ++ data.deleted).Nodup) ∧
      ∀ postings, live.Iterates postings →
        OverlayData.capture controlled live postings = .ok data.canonical := by
  constructor
  · rintro s ⟨ops, hbelow, hvalid, rfl⟩ hpaths hcard postings hi
    have hrep := (History.run_inv hbelow).rep
    refine restore_capture controlled capacity hrep ⟨fun path masks hget => ?_,
      History.run_validPostings hbelow hvalid, fun path hpath => ?_⟩ hcard hi
    · refine hpaths path (.inl ?_)
      obtain ⟨fid, hfid, -⟩ := Option.map_eq_some_iff.mp hget
      exact FinMap.contains_iff.mpr (mem_keys_of_get? hfid)
    · exact hpaths path (.inr (decide_eq_true hpath))
  · intro data live h
    obtain ⟨-, haccepted, -⟩ := OverlayData.intoLive_eq_ok.mp h
    exact ⟨⟨fun file hfile => ⟨(haccepted.file file hfile).path, (haccepted.file file hfile).nodup⟩,
      haccepted.tombstone, haccepted.nodup⟩, fun postings hi => capture_restore controlled h hi⟩

/-- The overlay of one file and one tombstone. -/
def fileAndTombstone : LiveIndex :=
  (History.run [.upsertFileWithTrigrams "src/a" [9] (fun _ => 1), .deleteFile "b"]).index

/-- It survives the round trip. -/
theorem checkpoint_roundTrip_two :
    ∃ data live, OverlayData.capture true fileAndTombstone [(9, 2147483648)] = .ok data ∧
      data.intoLive (fun _ _ => 1) = .ok live ∧ live.isDeleted "b" = true := by
  have hreaches : History.Reaches fileAndTombstone := by
    refine ⟨_, ?_, ?_, rfl⟩
    · rw [History.BelowBit]
      exact ⟨fun _ => by decide, fun h => (by cases h), trivial⟩
    · intro op hop
      obtain rfl | rfl := List.mem_pair.mp hop
      · intro t ht
        rw [List.mem_singleton.mp ht]
        decide
      · exact trivial
  have hpaths : ∀ path, fileAndTombstone.hasPath path = true ∨
      fileAndTombstone.isDeleted path = true → validateIndexPath path = true := by
    have hall : ∀ path ∈ fileAndTombstone.pathToId.keys ∪ fileAndTombstone.deletedPaths,
        validateIndexPath path = true := by decide +kernel
    intro path hpath
    refine hall path (Finset.mem_union.mpr ?_)
    obtain h | h := hpath
    · exact .inl (FinMap.contains_iff.mp h)
    · exact .inr (of_decide_eq_true h)
  obtain ⟨data, live, hcapture, hlive, hsame⟩ := (checkpoint_roundTrip true fun _ _ => 1).1
    fileAndTombstone hreaches hpaths (by decide +kernel) [(9, 2147483648)]
    (by unfold Iterates; decide +kernel)
  refine ⟨data, live, hcapture, hlive, ?_⟩
  rw [hsame.deleted]
  decide +kernel

end LiveIndex

/-! ## What does not survive -/

/-- The path of `n + 1` letters `a`. -/
def longPath (n : ℕ) : String := String.ofList (List.replicate (n + 1) 'a')

/-- Different lengths give different paths. -/
lemma longPath_injective : Function.Injective longPath := by
  intro n n' h
  have hlist := congrArg String.toList h
  rw [longPath, longPath, String.toList_ofList, String.toList_ofList] at hlist
  have hlength := congrArg length hlist
  rw [length_replicate, length_replicate] at hlength
  omega

/-- They are valid. -/
lemma validateIndexPath_longPath (n : ℕ) : validateIndexPath (longPath n) = true := by
  have hbytes : pathBytes (longPath n) = replicate (n + 1) 97 := by
    have hchar : String.utf8EncodeChar 'a' = [97] := by decide
    simp only [pathBytes, longPath, String.toUTF8, String.toByteArray_ofList, utf8Encode,
      flatMap_replicate, hchar, flatten_replicate_singleton]
    simp
  have hsplit : (replicate (n + 1) (97 : UInt8)).splitOn 47 =
      [replicate (n + 1) 97] := by
    refine splitOn_eq_singleton fun hb => ?_
    exact absurd (eq_of_mem_replicate hb) (by decide)
  unfold validateIndexPath
  dsimp only
  rw [hbytes, hsplit]
  simp [replicate_succ]

namespace History

open LiveIndex

/-- Upserts of `n` files with different paths. -/
def upserts (n : ℕ) : List Op := (List.range n).map fun i => upsertEmpty (longPath i)

/-- What `n` such upserts leave, as long as the counter stays at most `2 ^ 31`. -/
lemma run_upserts {n : ℕ} (hn : n ≤ 2 ^ 31) :
    BelowBit (upserts n) ∧ (run (upserts n)).index.nextId.toNat = n ∧
      (run (upserts n)).index.pathToId.keys = (Finset.range n).image longPath ∧
      (run (upserts n)).index.deletedPaths = ∅ := by
  induction n with
  | zero => exact ⟨trivial, rfl, rfl, rfl⟩
  | succ n ih =>
    obtain ⟨hbelow, hnext, hkeys, hdeleted⟩ := ih (by omega)
    have hi := run_inv hbelow
    have hlow : (run (upserts n)).index.nextId < OVERLAY_BIT := by
      rw [UInt32.lt_iff_toNat_lt, hnext, show OVERLAY_BIT.toNat = 2 ^ 31 from rfl]
      omega
    have hsplit : upserts (n + 1) = upserts n ++ [upsertEmpty (longPath n)] := by
      rw [upserts, range_succ, map_append]
      rfl
    have hrun : run (upserts (n + 1)) = (run (upserts n)).step (upsertEmpty (longPath n)) := by
      rw [hsplit, run, foldl_append]
      rfl
    obtain ⟨hnext', hids, -⟩ := step_upsertEmpty hi.rep (longPath n)
    have hview := view_upsertFileWithTrigrams hi.rep hi.fresh hlow (longPath n) [] fun _ => 0
    rw [hrun]
    refine ⟨?_, ?_, ?_, ?_⟩
    · rw [BelowBit, hsplit, Run.AllSteps.append]
      exact ⟨hbelow, fun _ => hlow, trivial⟩
    · rw [hnext', UInt32.toNat_add, hnext, UInt32.toNat_one, Nat.mod_eq_of_lt (by omega)]
    · ext path
      rw [mem_keys_iff, hids, range_add_one, image_insert, mem_insert]
      split_ifs with hpath
      · simp [hpath]
      · rw [← mem_keys_iff, hkeys]
        simp [hpath]
    · have hdel := congrArg Overlay.deleted hview
      rw [Overlay.deleted_upsert] at hdel
      exact hdel.trans (by rw [show (run (upserts n)).index.view.deleted = ∅ from hdeleted]; rfl)

end History

namespace LiveIndex

/-- An overlay that fills every id is captured but not restored. -/
lemma restore_upserts {n : ℕ} (hn : n = 2 ^ 31) :
    History.Reaches (History.run (History.upserts n)).index ∧
    (∀ path, (History.run (History.upserts n)).index.hasPath path = true ∨
      (History.run (History.upserts n)).index.isDeleted path = true →
        validateIndexPath path = true) ∧
    ∀ postings, (History.run (History.upserts n)).index.Iterates postings →
      ∃ data, OverlayData.capture false (History.run (History.upserts n)).index postings =
          .ok data ∧
        data.intoLive (fun _ _ => 1) = .error (invalid "too many files in worktree overlay") := by
  obtain ⟨hbelow, -, hkeys, hdeleted⟩ := History.run_upserts hn.le
  have hops : ∀ op ∈ History.upserts n, op.ValidPostings := by
    intro op hop
    obtain ⟨i, -, rfl⟩ := mem_map.mp hop
    exact fun t ht => by cases ht
  have hpaths : ∀ path ∈ (History.run (History.upserts n)).index.pathToId.keys,
      validateIndexPath path = true := by
    intro path hpath
    rw [hkeys] at hpath
    obtain ⟨i, -, rfl⟩ := Finset.mem_image.mp hpath
    exact validateIndexPath_longPath i
  have htombstones : ∀ path, path ∉ (History.run (History.upserts n)).index.deletedPaths := by
    rw [hdeleted]
    exact notMem_empty
  refine ⟨⟨_, hbelow, hops, rfl⟩, fun path hpath => ?_, fun postings hi => ?_⟩
  · obtain h | h := hpath
    · exact hpaths path (FinMap.contains_iff.mp h)
    · exact absurd (of_decide_eq_true h) (htombstones path)
  · have hv : (History.run (History.upserts n)).index.view.Valid := by
      refine ⟨fun path masks hget => ?_, History.run_validPostings hbelow hops,
        fun path hpath => absurd hpath (htombstones path)⟩
      obtain ⟨fid, hfid, -⟩ := Option.map_eq_some_iff.mp hget
      exact hpaths path (mem_keys_of_get? hfid)
    obtain ⟨data, hok, -, hlength⟩ :=
      OverlayData.capture_spec false (History.run_inv hbelow).rep hv hi
    refine ⟨data, hok, ?_⟩
    rw [hkeys, card_image_of_injective _ longPath_injective, card_range, hn] at hlength
    have hfull : ¬ data.files.length < OVERLAY_BIT.toNat := by
      rw [hlength, show OVERLAY_BIT.toNat = 2 ^ 31 from rfl]
      exact lt_irrefl _
    rw [OverlayData.intoLive, ensure, if_neg hfull]
    rfl

/-- **Two overlays that do not survive**: an overlay with a posting that comes from no file is not
captured, and one that fills every id of the overlay is captured but not restored. -/
theorem checkpoint_refuses :
    OverlayData.capture false (History.run [.upsertFileWithTrigrams "a" [0x1000000] fun _ => 1]).index
        [(0x1000000, 2147483648)] =
      .error (invalid "invalid trigram or location mask in worktree overlay") ∧
    History.Reaches (History.run (History.upserts (2 ^ 31))).index ∧
    (∀ path, (History.run (History.upserts (2 ^ 31))).index.hasPath path = true ∨
      (History.run (History.upserts (2 ^ 31))).index.isDeleted path = true →
        validateIndexPath path = true) ∧
    ∀ postings, (History.run (History.upserts (2 ^ 31))).index.Iterates postings →
      ∃ data, OverlayData.capture false (History.run (History.upserts (2 ^ 31))).index postings =
          .ok data ∧
        data.intoLive (fun _ _ => 1) = .error (invalid "too many files in worktree overlay") :=
  ⟨by decide +kernel, restore_upserts rfl⟩

end LiveIndex

end Tgrep
