import Tgrep.Data.Run
import Tgrep.Live.Invariant

/-!
# Runs of the overlay

The representation invariant after any run of mutations, as long as the id counter has not
reached the overlay bit. From then on the counter, with the bit set, repeats ids that were handed
out before.

## Main definitions

* `LiveIndex.Op`: the mutations.
* `History`: the overlay with the ids it has handed out.
* `History.BelowBit`: the runs whose upserts are made below the overlay bit.

## Main results

* `History.run_invariant`: the invariant and the freshness of ids over every such run.
* `History.run_wraps`: after more upserts than that both are lost.
-/

namespace Tgrep

open List FinMap Option

namespace LiveIndex

/-! ## The mutations -/

/-- The mutations of the overlay, with what the allocator and the reader contribute. -/
inductive Op
  | upsertFile (relPath : String) (content : List UInt8) (capacity : TrigramHash → ℕ)
  | commitUpsert (relPath : String) (perTri : TrigramMaskMap) (capacity : TrigramHash → ℕ)
  | upsertFileWithTrigrams (relPath : String) (trigrams : List TrigramHash)
      (capacity : TrigramHash → ℕ)
  | deleteFile (relPath : String)
  | removeOverlayEntry (path : String)
  | batchRemoveOverlayEntries (paths : List String)
  | clearReconciledPaths (paths : List String)
  | tryDropAllPersisted (readerPaths : Finset String)

/-- The overlay after a mutation. -/
def Op.apply (s : LiveIndex) : Op → LiveIndex
  | upsertFile relPath content capacity => s.upsertFile relPath content capacity
  | commitUpsert relPath perTri capacity => s.commitUpsert relPath perTri capacity
  | upsertFileWithTrigrams relPath trigrams capacity =>
    s.upsertFileWithTrigrams relPath trigrams capacity
  | deleteFile relPath => s.deleteFile relPath
  | removeOverlayEntry path => s.removeOverlayEntry path
  | batchRemoveOverlayEntries paths => s.batchRemoveOverlayEntries paths
  | clearReconciledPaths paths => s.clearReconciledPaths paths
  | tryDropAllPersisted readerPaths => (s.tryDropAllPersisted readerPaths).1

/-- Whether the mutation hands out an id. -/
def Op.isUpsert : Op → Bool
  | upsertFile .. | commitUpsert .. | upsertFileWithTrigrams .. => true
  | _ => false

/-- The mutation is not an upsert made with the counter at the overlay bit or above. -/
def Op.BelowBit (s : LiveIndex) (op : Op) : Prop := op.isUpsert = true → s.nextId < OVERLAY_BIT

/-- Every upsert has the common form. -/
lemma Op.apply_of_isUpsert {op : Op} (h : op.isUpsert = true) :
    ∃ (α : Type) (f : UInt32 → LiveIndex → α → LiveIndex) (relPath : String) (entries : List α),
      AddsPostings f ∧ ∀ s, op.apply s = s.upsertWith relPath f entries := by
  cases op with
  | upsertFile relPath content capacity =>
    exact ⟨_, _, relPath, _, addsPostings_insertPostingWithMasks capacity, fun s => rfl⟩
  | commitUpsert relPath perTri capacity =>
    exact ⟨_, _, relPath, _, addsPostings_insertPostingWithMasks capacity, fun s => rfl⟩
  | upsertFileWithTrigrams relPath trigrams capacity =>
    exact ⟨_, _, relPath, _, addsPostings_insertPosting capacity, fun s => rfl⟩
  | _ => simp [Op.isUpsert] at h

/-- A mutation that is not an upsert preserves the invariant, keeps the counter and puts no id
into use. -/
lemma Op.apply_of_not_isUpsert {s : LiveIndex} (h : s.Rep) {op : Op} (hop : op.isUpsert = false) :
    (op.apply s).Rep ∧ (op.apply s).nextId = s.nextId ∧
      (op.apply s).filePaths.keys ⊆ s.filePaths.keys := by
  have hremove : ∀ path, (s.removeOverlayEntry path).nextId = s.nextId ∧
      (s.removeOverlayEntry path).filePaths.keys ⊆ s.filePaths.keys := by
    intro path
    refine ⟨(removeOverlayEntry_frame h path).1, ?_⟩
    rcases removeOverlayEntry_cases h path with ⟨-, heq⟩ | ⟨fid, -, heq⟩
    · rw [heq]
    · rw [heq, keys_erase]
      exact Finset.erase_subset _ _
  cases op with
  | deleteFile relPath => exact ⟨deleteFile_rep h relPath, hremove relPath⟩
  | removeOverlayEntry path => exact ⟨removeOverlayEntry_rep h path, hremove path⟩
  | batchRemoveOverlayEntries paths =>
    obtain ⟨hr, hnext, -, -, hsub, -⟩ := batchRemoveOverlayEntries_spec h paths
    exact ⟨hr, hnext, hsub⟩
  | clearReconciledPaths paths =>
    obtain ⟨-, hnext, -, -, hsub, -⟩ := batchRemoveOverlayEntries_spec h paths
    exact ⟨clearReconciledPaths_rep h paths, hnext, hsub⟩
  | tryDropAllPersisted readerPaths =>
    refine ⟨tryDropAllPersisted_rep h readerPaths, ?_⟩
    rw [Op.apply, LiveIndex.tryDropAllPersisted]
    by_cases hpaths : s.pathToId.keys ⊆ readerPaths
    · rw [if_neg (not_not.mpr hpaths)]
      split_ifs
      · exact ⟨rfl, subset_rfl⟩
      · exact ⟨rfl, Finset.empty_subset _⟩
    · rw [if_pos hpaths]
      exact ⟨rfl, subset_rfl⟩
  | _ => simp [Op.isUpsert] at hop

/-- **The step lemma**: a mutation made below the overlay bit preserves the invariant and the
freshness of the counter. -/
theorem Op.apply_rep {s : LiveIndex} (h : s.Rep) (hf : s.Fresh) {op : Op} (hop : op.BelowBit s) :
    (op.apply s).Rep ∧ (op.apply s).Fresh := by
  by_cases hup : op.isUpsert = true
  · obtain ⟨α, f, relPath, entries, hadds, heq⟩ := apply_of_isUpsert hup
    rw [heq]
    refine ⟨upsertWith_rep hadds h relPath entries ?_,
      upsertWith_fresh hadds h hf (hop hup) relPath entries⟩
    rw [← nextFileId_removeOverlayEntry h relPath]
    refine (removeOverlayEntry_fresh h hf relPath).unused ?_
    rw [(removeOverlayEntry_frame h relPath).1]
    exact hop hup
  · obtain ⟨hr, hnext, hsub⟩ := apply_of_not_isUpsert h (by simpa using hup)
    refine ⟨hr, ?_, fun fid hfid => ?_⟩
    · rw [hnext]
      exact hf.counter
    · rw [hnext]
      exact hf.used fid (hsub hfid)

end LiveIndex

/-- The overlay together with all ids it has handed out so far, in order. -/
structure History where
  /-- The overlay. -/
  index : LiveIndex
  /-- The ids handed out. -/
  handedOut : List UInt32

namespace History

open LiveIndex

/-- The empty overlay, which has handed out no id. -/
def start : History := ⟨LiveIndex.new, []⟩

/-- One mutation. -/
def step (h : History) (op : Op) : History :=
  ⟨op.apply h.index, if op.isUpsert then h.handedOut ++ [h.index.nextFileId] else h.handedOut⟩

/-- The state after a run of mutations. -/
def run (ops : List Op) : History := ops.foldl step start

/-- Every upsert of the run is made below the overlay bit. -/
def BelowBit : List Op → Prop := Run.AllSteps step (fun h op => op.BelowBit h.index) start

/-- The invariant with what is needed to keep ids apart: ids are handed out in ascending order,
below the next one. -/
structure Inv (h : History) : Prop where
  rep : h.index.Rep
  fresh : h.index.Fresh
  handed_overlay : ∀ fid ∈ h.handedOut, isOverlayId fid = true
  handed_lt : ∀ fid ∈ h.handedOut, fid.toNat < 2 ^ 31 + h.index.nextId.toNat
  handed_nodup : h.handedOut.Nodup

/-- The step lemma for histories. -/
lemma Inv.step {h : History} (hi : h.Inv) {op : Op} (hop : op.BelowBit h.index) :
    (h.step op).Inv := by
  obtain ⟨hr, hf⟩ := Op.apply_rep hi.rep hi.fresh hop
  by_cases hup : op.isUpsert = true
  · have hlow := hop hup
    have hlt : h.index.nextId.toNat < 2 ^ 31 := UInt32.lt_iff_toNat_lt.mp hlow
    have hfid := toNat_or_OVERLAY_BIT hlow
    obtain ⟨α, f, relPath, entries, hadds, heq⟩ := Op.apply_of_isUpsert hup
    have hnext : (op.apply h.index).nextId.toNat = h.index.nextId.toNat + 1 := by
      rw [heq, (upsertWith_frame hadds hi.rep relPath entries).1, UInt32.toNat_add]
      exact Nat.mod_eq_of_lt (by simp only [UInt32.toNat_one]; omega)
    refine ⟨hr, hf, ?_, ?_, ?_⟩
    · simp only [History.step, hup, if_true, mem_append, mem_singleton]
      rintro fid (hfid' | rfl)
      · exact hi.handed_overlay fid hfid'
      · exact isOverlayId_nextFileId h.index
    · simp only [History.step, hup, if_true, mem_append, mem_singleton, hnext]
      rintro fid (hfid' | rfl)
      · have := hi.handed_lt fid hfid'
        omega
      · rw [nextFileId, hfid]
        omega
    · simp only [History.step, hup, if_true]
      refine List.nodup_append.mpr ⟨hi.handed_nodup, nodup_singleton _, ?_⟩
      rintro fid hmem fid' hmem' rfl
      have hlt' := hi.handed_lt fid hmem
      rw [List.mem_singleton.mp hmem', nextFileId, hfid] at hlt'
      omega
  · have hnot : op.isUpsert = false := by simpa using hup
    obtain ⟨-, hnext, -⟩ := Op.apply_of_not_isUpsert hi.rep hnot
    refine ⟨hr, hf, ?_, ?_, ?_⟩
    · simpa [History.step, hnot] using hi.handed_overlay
    · simpa [History.step, hnot, hnext] using hi.handed_lt
    · simpa [History.step, hnot] using hi.handed_nodup

/-- The invariant holds of the empty overlay. -/
lemma start_inv : start.Inv :=
  ⟨new_rep, new_fresh, by simp [start], by simp [start], by simp [start]⟩

/-- The invariant holds after every run below the overlay bit. -/
lemma run_inv {ops : List Op} (h : BelowBit ops) : (run ops).Inv :=
  Run.invariant (fun _ _ hi hop => hi.step hop) start_inv h

/-- **The representation invariant**: after every run whose upserts are all made below the
overlay bit, the tables are consistent, every id handed out has the overlay bit, and no two of
them are equal. -/
theorem run_invariant (ops : List Op) (h : BelowBit ops) :
    (run ops).index.Rep ∧ (∀ fid ∈ (run ops).handedOut, isOverlayId fid = true) ∧
      (run ops).handedOut.Nodup :=
  ⟨(run_inv h).rep, (run_inv h).handed_overlay, (run_inv h).handed_nodup⟩

/-- The invariant after an upsert, a replacement and a deletion. -/
theorem run_invariant_three :
    (run [.upsertFileWithTrigrams "a" [7] (fun _ => 3),
      .upsertFileWithTrigrams "a" [7, 8] (fun _ => 3), .deleteFile "a"]).index.Rep := by
  refine (run_invariant _ ?_).1
  rw [BelowBit]
  refine ⟨fun _ => ?_, fun _ => ?_, fun h => ?_, trivial⟩
  · decide
  · decide
  · cases h

/-! ## Past the overlay bit -/

/-- Upsert a file without trigrams. -/
def upsertEmpty (path : String) : Op := .upsertFileWithTrigrams path [] fun _ => 0

/-- What one such upsert does. -/
lemma step_upsertEmpty {h : History} (hr : h.index.Rep) (path : String) :
    (h.step (upsertEmpty path)).index.nextId = h.index.nextId + 1 ∧
      (∀ path', (h.step (upsertEmpty path)).index.pathToId.get? path' =
        if path' = path then some h.index.nextFileId else h.index.pathToId.get? path') ∧
      (h.step (upsertEmpty path)).handedOut = h.handedOut ++ [h.index.nextFileId] := by
  obtain ⟨hnext, -, hids⟩ := upsertWith_frame (addsPostings_insertPosting fun _ => 0) hr path []
  exact ⟨hnext, hids, rfl⟩

/-- An overlay without postings has none after such an upsert. -/
lemma inverted_step_upsertEmpty {h : History} (hinv : h.index.inverted = .empty) (path : String) :
    (h.step (upsertEmpty path)).index.inverted = .empty := by
  change (h.index.removeOverlayEntry path).inverted = .empty
  rw [removeOverlayEntry]
  split
  · next fid _ =>
    have hretain : (h.index.retainIds fun fid' => fid' != fid).inverted = .empty := by
      rw [retainIds, hinv, FinMap.filterMap_empty]
    simp only [removeFileById]
    split
    · exact hretain
    · exact hretain
  · exact hinv

/-- What `n` upserts of one path do to a consistent overlay, as long as the counter stays at most
`2 ^ 31`: the counter advances by `n`, and other paths keep their ids. -/
lemma foldl_upsertEmpty {h : History} (hi : h.Inv) (path : String) (n : ℕ)
    (hn : h.index.nextId.toNat + n ≤ 2 ^ 31) :
    ∃ h' : History, (List.replicate n (upsertEmpty path)).foldl step h = h' ∧ h'.Inv ∧
      h'.index.nextId.toNat = h.index.nextId.toNat + n ∧
      (∀ other, other ≠ path → h'.index.pathToId.get? other = h.index.pathToId.get? other) ∧
      (∀ fid ∈ h.handedOut, fid ∈ h'.handedOut) ∧
      (h.index.inverted = .empty → h'.index.inverted = .empty) := by
  induction n with
  | zero => exact ⟨h, rfl, hi, rfl, fun _ _ => rfl, fun _ hfid => hfid, fun hinv => hinv⟩
  | succ n ih =>
    obtain ⟨h', hrun, hi', hnext, hids, hhanded, hinv⟩ := ih (by omega)
    have hlow : (upsertEmpty path).BelowBit h'.index := by
      intro _
      rw [UInt32.lt_iff_toNat_lt, hnext, show OVERLAY_BIT.toNat = 2 ^ 31 from rfl]
      omega
    obtain ⟨hnext', hids', hhanded'⟩ := step_upsertEmpty hi'.rep path
    refine ⟨h'.step (upsertEmpty path), ?_, hi'.step hlow, ?_, fun other hne => ?_,
      fun fid hfid => ?_, fun hempty => inverted_step_upsertEmpty (hinv hempty) path⟩
    · rw [replicate_succ', foldl_append, hrun, foldl_cons, foldl_nil]
    · rw [hnext', UInt32.toNat_add, hnext]
      exact Nat.mod_eq_of_lt (by simp only [UInt32.toNat_one]; omega)
    · rw [hids', if_neg hne, hids other hne]
    · rw [hhanded']
      exact mem_append_left _ (hhanded fid hfid)

/-- A run of one more upsert than there are overlay ids: `a` once, then `b` until the counter has
reached the overlay bit, and once more. -/
def wrapping : List Op := upsertEmpty "a" :: List.replicate (2 ^ 31) (upsertEmpty "b")

/-- The state before the last upsert of `wrapping`: the counter is at the overlay bit, and `a`
still has the first id; besides it there is only `b`. -/
lemma run_before_wrap :
    ∃ h : History, run wrapping = h.step (upsertEmpty "b") ∧ h.Inv ∧
      h.index.nextFileId = OVERLAY_BIT ∧ OVERLAY_BIT ∈ h.handedOut ∧
      (∀ path, path ≠ "b" →
        h.index.pathToId.get? path = if path = "a" then some OVERLAY_BIT else none) ∧
      h.index.inverted = .empty := by
  have hfirst : (start.step (upsertEmpty "a")).Inv := start_inv.step fun _ => by decide
  obtain ⟨hnext, hids, hhanded⟩ := step_upsertEmpty start_inv.rep "a"
  have hone : (start.step (upsertEmpty "a")).index.nextId.toNat = 1 := by
    rw [hnext]
    rfl
  obtain ⟨h, hrun, hi, hn, hp, hh, hinv⟩ := foldl_upsertEmpty hfirst "b" (2 ^ 31 - 1) (by omega)
  have hbit : h.index.nextId = OVERLAY_BIT := by
    rw [← UInt32.toNat_inj, hn, hone]
    rfl
  refine ⟨h, ?_, hi, ?_, hh _ ?_, fun path hne => (hp path hne).trans (hids path),
    hinv (inverted_step_upsertEmpty rfl "a")⟩
  · have hsplit : (2 : ℕ) ^ 31 = 2 ^ 31 - 1 + 1 := by omega
    rw [run, wrapping, foldl_cons, hsplit, replicate_succ', foldl_append, hrun,
      foldl_cons, foldl_nil]
  · rw [nextFileId, hbit]
    rfl
  · rw [hhanded]
    exact mem_append_right _ (List.mem_singleton.mpr rfl)

/-- After the last upsert of `wrapping`, `a` has an entry, but the only file is `b`. -/
lemma run_wrapping_loses :
    (run wrapping).index.hasPath "a" = true ∧
      (∀ fid path, (run wrapping).index.filePath fid = some path →
        fid = OVERLAY_BIT ∧ path = "b") ∧
      (run wrapping).index.inverted = .empty := by
  obtain ⟨h, hrun, hi, hagain, -, hbefore, hinv⟩ := run_before_wrap
  obtain ⟨-, hpaths, hids⟩ := upsertWith_frame (addsPostings_insertPosting fun _ => 0) hi.rep "b" []
  have hr := removeOverlayEntry_rep hi.rep "b"
  have hframe := (removeOverlayEntry_frame hi.rep "b").2.2
  rw [hrun]
  refine ⟨?_, ?_, inverted_step_upsertEmpty hinv "b"⟩
  · rw [hasPath, FinMap.contains_iff]
    refine mem_keys_of_get? (v := OVERLAY_BIT) ((hids "a").trans ?_)
    rw [if_neg (by decide), hbefore "a" (by decide), if_pos rfl]
  · intro fid path hfid
    have hget : ((h.index.removeOverlayEntry "b").filePaths.insert OVERLAY_BIT "b").get? fid =
        some path := by
      rw [← hagain, ← hpaths]
      exact hfid
    rw [get?_insert] at hget
    split_ifs at hget with hbit
    · exact ⟨hbit, (some.inj hget).symm⟩
    · -- the id of `a` is the overlay bit
      have hentry := (hr.inverse path fid).mpr hget
      rw [hframe] at hentry
      split_ifs at hentry with hb
      rw [hbefore path hb] at hentry
      split_ifs at hentry
      exact absurd (some.inj hentry).symm hbit

/-- **Past the overlay bit the invariant is lost**: the last upsert hands out the id of `a` again,
so two paths have one id. -/
theorem run_wraps : ¬ (run wrapping).index.Rep ∧ ¬ (run wrapping).handedOut.Nodup := by
  obtain ⟨h, hrun, hi, hagain, hmem, hbefore, -⟩ := run_before_wrap
  obtain ⟨-, hids, hhanded⟩ := step_upsertEmpty hi.rep "b"
  rw [hrun]
  constructor
  · intro hrep
    have hid := hbefore "a" (by decide)
    rw [if_pos rfl] at hid
    have ha := (hrep.inverse "a" OVERLAY_BIT).mp (by rw [hids, if_neg (by decide), hid])
    have hb := (hrep.inverse "b" OVERLAY_BIT).mp (by rw [hids, if_pos rfl, hagain])
    rw [ha] at hb
    exact absurd (some.inj hb) (by decide)
  · intro hnodup
    rw [hhanded, hagain] at hnodup
    exact (List.nodup_append.mp hnodup).2.2 _ hmem _ (List.mem_singleton.mpr rfl) rfl

end History

end Tgrep
