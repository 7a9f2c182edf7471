import Mathlib.Data.Nat.Bitwise
import Tgrep.Live.Index

/-!
# The representation invariant of the overlay

What holds between the tables of the overlay, and what each mutation does to them.

## Main definitions

* `LiveIndex.PostingTables`: the posting tables mention live ids only.
* `LiveIndex.Names`: the path tables are inverse to each other.
* `LiveIndex.Rep`: the representation invariant: both.
* `LiveIndex.Fresh`: the ids in use are among those handed out.
* `LiveIndex.upsertWith`: the common form of the upserts.

## Main results

* `LiveIndex.removeOverlayEntry_rep`, `LiveIndex.deleteFile_rep`,
  `LiveIndex.batchRemoveOverlayEntries_spec`, `LiveIndex.clearReconciledPaths_rep`,
  `LiveIndex.tryDropAllPersisted_rep`: the mutations preserve the invariant.
* `LiveIndex.upsertWith_rep`: so does an upsert if the id it hands out is not in use.
* `LiveIndex.Fresh.unused`: which it is not as long as the counter is below the overlay bit.
-/

namespace Tgrep

open Finset FinMap Option LiveIndex

/-! ## Ids -/

/-- An id belongs to the overlay iff it is at least `2 ^ 31`. -/
lemma LiveIndex.isOverlayId_iff {fileId : UInt32} :
    LiveIndex.isOverlayId fileId = true ↔ 2 ^ 31 ≤ fileId.toNat := by
  have hlt := fileId.toNat_lt
  have hand : (fileId &&& OVERLAY_BIT).toNat = (fileId.toNat.testBit 31).toNat * 2 ^ 31 := by
    rw [UInt32.toNat_and, show OVERLAY_BIT.toNat = 2 ^ 31 from rfl, Nat.and_two_pow]
  have hzero : fileId &&& OVERLAY_BIT = 0 ↔ fileId.toNat.testBit 31 = false := by
    rw [← UInt32.toNat_inj, hand]
    cases fileId.toNat.testBit 31 <;> simp
  rw [isOverlayId, bne_iff_ne, Ne, hzero, Bool.not_eq_false, Nat.testBit_eq_decide_div_mod_eq,
    decide_eq_true_eq]
  omega

/-- Setting the overlay bit on a counter below it adds `2 ^ 31`. -/
lemma toNat_or_OVERLAY_BIT {raw : UInt32} (h : raw < OVERLAY_BIT) :
    (raw ||| OVERLAY_BIT).toNat = 2 ^ 31 + raw.toNat := by
  have hlt : raw.toNat < 2 ^ 31 := UInt32.lt_iff_toNat_lt.mp h
  have hor := Nat.two_pow_add_eq_or_of_lt hlt 1
  rw [Nat.mul_one] at hor
  rw [UInt32.toNat_or, Nat.or_comm, hor]
  rfl

/-- Every id with the overlay bit set belongs to the overlay. -/
lemma isOverlayId_nextFileId (s : LiveIndex) : LiveIndex.isOverlayId s.nextFileId = true := by
  rw [isOverlayId, nextFileId, bne_iff_ne]
  intro h
  have : (s.nextId ||| OVERLAY_BIT) &&& OVERLAY_BIT = OVERLAY_BIT := by
    apply UInt32.eq_of_toBitVec_eq
    ext i
    simp only [UInt32.toBitVec_and, UInt32.toBitVec_or, BitVec.getElem_and, BitVec.getElem_or]
    cases OVERLAY_BIT.toBitVec[i] <;> simp
  rw [this] at h
  exact absurd h (by decide)

namespace LiveIndex

/-! ## The invariant -/

/-- The posting tables mention the ids in `live` only, no posting set is empty, and exactly the
posting sets have an allocation. -/
structure PostingTables (s : LiveIndex) (live : Finset UInt32) : Prop where
  posting_live : ∀ t set, s.inverted.get? t = some set → set ⊆ live
  posting_nonempty : ∀ t set, s.inverted.get? t = some set → set.Nonempty
  mask_live : ∀ t fid, (t, fid) ∈ s.masks.keys → fid ∈ live
  allocation_keys : s.postingAllocations.keys = s.inverted.keys

/-- The path tables are inverse to each other, every id has the overlay bit, and no path with an
entry is tombstoned. -/
structure Names (s : LiveIndex) : Prop where
  inverse : ∀ path fid, s.pathToId.get? path = some fid ↔ s.filePaths.get? fid = some path
  overlay : ∀ fid ∈ s.filePaths.keys, isOverlayId fid = true
  disjoint : Disjoint s.pathToId.keys s.deletedPaths

/-- The representation invariant. -/
structure Rep (s : LiveIndex) : Prop extends Names s where
  postings : s.PostingTables s.filePaths.keys

/-- Every id in use was handed out by the counter, which has not passed the overlay bit. -/
structure Fresh (s : LiveIndex) : Prop where
  counter : s.nextId.toNat ≤ 2 ^ 31
  used : ∀ fid ∈ s.filePaths.keys, fid.toNat < 2 ^ 31 + s.nextId.toNat

variable {s' : LiveIndex} {α : Type*} {f : UInt32 → LiveIndex → α → LiveIndex} {fid : UInt32}
  {live : Finset UInt32} {s : LiveIndex}

/-- The posting part of the invariant depends on the posting tables only. -/
lemma PostingTables.congr (h : s.PostingTables live) (hi : s'.inverted = s.inverted)
    (hm : s'.masks = s.masks) (ha : s'.postingAllocations = s.postingAllocations) :
    s'.PostingTables live := by
  refine ⟨?_, ?_, ?_, ?_⟩
  · rw [hi]
    exact h.posting_live
  · rw [hi]
    exact h.posting_nonempty
  · rw [hm]
    exact h.mask_live
  · rw [hi, ha]
    exact h.allocation_keys

variable {path : String} {live' : Finset UInt32} {keep : UInt32 → Bool} (capacity : TrigramHash → ℕ)

/-- More ids may be live. -/
lemma PostingTables.mono (h : s.PostingTables live) (hsub : live ⊆ live') : s.PostingTables live' :=
  ⟨fun t set hset => (h.posting_live t set hset).trans hsub, h.posting_nonempty,
    fun t fid hm => hsub (h.mask_live t fid hm), h.allocation_keys⟩

/-- The empty overlay satisfies the invariant. -/
lemma new_rep : Rep new where
  inverse := by simp [new]
  overlay := by simp [new]
  disjoint := by simp [new]
  postings := ⟨by simp [new], by simp [new], by simp [new], rfl⟩

/-- The empty overlay has handed out no id. -/
lemma new_fresh : Fresh new := ⟨by simp [new], by simp [new]⟩

/-! ## Removing ids -/

/-- What is left of a posting set is its nonempty rest. -/
lemma retainedPosting_eq_some {set kept : Finset UInt32} :
    retainedPosting keep set = some kept ↔
      (set.filter fun fid => keep fid) = kept ∧ kept.Nonempty := by
  rw [retainedPosting]
  split_ifs with h
  · simp only [h, nonempty_iff_ne_empty, false_iff, not_and, not_not]
    exact fun h => h.symm
  · rw [some.injEq]
    constructor
    · rintro rfl
      exact ⟨rfl, nonempty_iff_ne_empty.mpr h⟩
    · exact fun h => h.1

/-- Dropping ids restricts the posting tables to the ids that are kept. -/
lemma PostingTables.retainIds (h : s.PostingTables live)
    (hlive : ∀ fid ∈ live, keep fid = true → fid ∈ live') :
    (s.retainIds keep).PostingTables live' := by
  have hget : ∀ t kept, (s.retainIds keep).inverted.get? t = some kept ↔
      ∃ set, s.inverted.get? t = some set ∧ retainedPosting keep set = some kept := by
    intro t kept
    rw [LiveIndex.retainIds, get?_filterMap, bind_eq_some_iff]
  refine ⟨?_, ?_, ?_, ?_⟩
  · intro t kept hkept fid hfid
    obtain ⟨set, hset, hret⟩ := (hget t kept).mp hkept
    obtain ⟨rfl, -⟩ := retainedPosting_eq_some.mp hret
    obtain ⟨hmem, hkeep⟩ := mem_filter.mp hfid
    exact hlive fid (h.posting_live t set hset hmem) hkeep
  · intro t kept hkept
    obtain ⟨set, -, hret⟩ := (hget t kept).mp hkept
    exact (retainedPosting_eq_some.mp hret).2
  · intro t fid hmask
    obtain ⟨m, hm⟩ := mem_keys.mp hmask
    obtain ⟨hm, hkeep⟩ := get?_filter_eq_some.mp hm
    exact hlive fid (h.mask_live t fid (mem_keys_of_get? hm)) hkeep
  · ext t
    rw [mem_keys, mem_keys]
    simp only [hget]
    have hkey : (∃ a, s.postingAllocations.get? t = some a) ↔ ∃ set, s.inverted.get? t = some set := by
      rw [← mem_keys, ← mem_keys, h.allocation_keys]
    constructor
    · rintro ⟨a, ha⟩
      obtain ⟨ha, hsome⟩ := get?_filter_eq_some.mp ha
      obtain ⟨set, hset⟩ := hkey.mp ⟨a, ha⟩
      simp only [hset] at hsome
      obtain ⟨kept, hkept⟩ := Option.isSome_iff_exists.mp hsome
      exact ⟨kept, set, hset, hkept⟩
    · rintro ⟨kept, set, hset, hkept⟩
      obtain ⟨a, ha⟩ := hkey.mpr ⟨set, hset⟩
      exact ⟨a, get?_filter_eq_some.mpr ⟨ha, by simp [hset, hkept]⟩⟩

/-- Removing an entry from both path tables keeps them inverse to each other. -/
lemma Names.erase (h : s.Names) (hpath : s.pathToId.get? path = some fid)
    (hids : s'.pathToId = s.pathToId.erase path) (hpaths : s'.filePaths = s.filePaths.erase fid)
    (hdel : s'.deletedPaths = s.deletedPaths) : s'.Names := by
  refine ⟨fun path' fid' => ?_, fun fid' hfid' => ?_, ?_⟩
  · rw [hids, hpaths, get?_erase, get?_erase]
    have hp := (h.inverse path fid).mp hpath
    by_cases h1 : path' = path
    · subst h1
      by_cases h2 : fid' = fid
      · simp [h2]
      · simp only [if_true, if_neg h2, reduceCtorEq, false_iff]
        intro hf
        exact h2 (some.inj (((h.inverse _ _).mpr hf).symm.trans hpath))
    · rw [if_neg h1]
      by_cases h2 : fid' = fid
      · subst h2
        simp only [if_true, reduceCtorEq, iff_false]
        intro hf
        exact h1 (some.inj (((h.inverse _ _).mp hf).symm.trans hp))
      · rw [if_neg h2]
        exact h.inverse path' fid'
  · rw [hpaths, keys_erase] at hfid'
    exact h.overlay fid' (mem_of_mem_erase hfid')
  · rw [hids, hdel, keys_erase]
    exact h.disjoint.mono_left (erase_subset _ _)

/-- What removing an overlay entry by path does to the tables: nothing without an entry, and
otherwise the entry's id leaves every table. -/
lemma removeOverlayEntry_cases (h : s.Rep) (path : String) :
    (s.pathToId.get? path = none ∧ s.removeOverlayEntry path = s) ∨
    ∃ fid, s.pathToId.get? path = some fid ∧
      s.removeOverlayEntry path =
        { s.retainIds fun fid' => fid' != fid with
          filePaths := s.filePaths.erase fid, pathToId := s.pathToId.erase path } := by
  rw [removeOverlayEntry]
  cases hp : s.pathToId.get? path with
  | none => exact .inl ⟨rfl, rfl⟩
  | some fid =>
    have hf : s.filePaths.get? fid = some path := (h.inverse path fid).mp hp
    refine .inr ⟨fid, rfl, ?_⟩
    simp only [removeFileById]
    rw [show (s.retainIds fun fid' => fid' != fid).filePaths = s.filePaths from rfl, hf]
    rfl

/-- **Removing an overlay entry preserves the invariant.** -/
theorem removeOverlayEntry_rep (h : s.Rep) (path : String) : (s.removeOverlayEntry path).Rep := by
  rcases removeOverlayEntry_cases h path with ⟨-, heq⟩ | ⟨fid, hp, heq⟩
  · rwa [heq]
  · rw [heq]
    refine ⟨h.erase hp rfl rfl rfl, ?_⟩
    have hretain : (s.retainIds fun fid' => fid' != fid).PostingTables (s.filePaths.keys.erase fid) :=
      h.postings.retainIds fun fid' hfid' hne =>
        mem_erase.mpr ⟨by simpa using hne, hfid'⟩
    rw [← keys_erase] at hretain
    exact hretain.congr rfl rfl rfl

/-- Removing an overlay entry keeps the ids in use among those handed out. -/
lemma removeOverlayEntry_fresh (hr : s.Rep) (h : s.Fresh) (path : String) :
    (s.removeOverlayEntry path).Fresh := by
  rcases removeOverlayEntry_cases hr path with ⟨-, heq⟩ | ⟨fid, -, heq⟩
  · rwa [heq]
  · rw [heq]
    refine ⟨h.counter, fun fid' hfid' => h.used fid' ?_⟩
    rw [keys_erase] at hfid'
    exact mem_of_mem_erase hfid'

/-- Removing an overlay entry does not touch the counter or the tombstones, and other paths keep
their ids. -/
lemma removeOverlayEntry_frame (h : s.Rep) (path : String) :
    (s.removeOverlayEntry path).nextId = s.nextId ∧
      (s.removeOverlayEntry path).deletedPaths = s.deletedPaths ∧
      ∀ path', (s.removeOverlayEntry path).pathToId.get? path' =
        if path' = path then none else s.pathToId.get? path' := by
  rcases removeOverlayEntry_cases h path with ⟨hp, heq⟩ | ⟨fid, -, heq⟩
  · rw [heq]
    refine ⟨rfl, rfl, fun path' => ?_⟩
    split_ifs with h'
    · rw [h', hp]
    · rfl
  · rw [heq]
    exact ⟨rfl, rfl, fun path' => get?_erase _ _ _⟩

/-! ## Upserts -/

/-- Adding a posting of a live id keeps the posting tables. -/
lemma PostingTables.insertPosting (h : s.PostingTables live) (hfid : fid ∈ live)
    (capacity : TrigramHash → ℕ) (tri : TrigramHash) :
    (s.insertPosting fid capacity tri).PostingTables live := by
  have hget : ∀ t, (s.insertPosting fid capacity tri).inverted.get? t =
      if t = tri then some (insert fid ((s.inverted.get? tri).getD ∅)) else s.inverted.get? t := by
    intro t
    rw [LiveIndex.insertPosting, get?_alter]
  refine ⟨fun t set hset => ?_, fun t set hset => ?_, h.mask_live, ?_⟩
  · rw [hget] at hset
    split_ifs at hset with ht
    · obtain rfl := some.inj hset
      refine insert_subset hfid ?_
      cases hold : s.inverted.get? tri with
      | none => exact empty_subset _
      | some old => exact h.posting_live tri old hold
    · exact h.posting_live t set hset
  · rw [hget] at hset
    split_ifs at hset with ht
    · obtain rfl := some.inj hset
      exact insert_nonempty _ _
    · exact h.posting_nonempty t set hset
  · ext t
    rw [mem_keys_iff, mem_keys_iff, hget]
    rw [LiveIndex.insertPosting, get?_alter]
    split_ifs
    · simp
    · rw [← mem_keys_iff, ← mem_keys_iff, h.allocation_keys]

/-- Adding a posting with masks of a live id keeps the posting tables. -/
lemma PostingTables.insertPostingWithMasks (h : s.PostingTables live) (hfid : fid ∈ live)
    (capacity : TrigramHash → ℕ) (entry : TrigramHash × TrigramMasks) :
    (s.insertPostingWithMasks fid capacity entry).PostingTables live := by
  have hp := h.insertPosting hfid capacity entry.1
  refine ⟨hp.posting_live, hp.posting_nonempty, fun t fid' hmask => ?_, hp.allocation_keys⟩
  simp only [LiveIndex.insertPostingWithMasks, keys_insert, mem_insert, Prod.mk.injEq] at hmask
  rcases hmask with ⟨-, rfl⟩ | hmask
  · exact hfid
  · exact hp.mask_live t fid' hmask

/-- The part of the overlay that adding postings leaves alone. -/
def SameNames (s s' : LiveIndex) : Prop :=
  s'.filePaths = s.filePaths ∧ s'.pathToId = s.pathToId ∧ s'.deletedPaths = s.deletedPaths ∧
    s'.nextId = s.nextId

/-- The loop of an upsert that adds postings: the posting tables stay in order and the path
tables are left alone. The loop is the same for both upserts up to the step `f`. -/
lemma foldl_insert_spec {f : LiveIndex → α → LiveIndex}
    (hf : ∀ s a, s.PostingTables live → (f s a).PostingTables live ∧ SameNames s (f s a))
    (entries : List α) (h : s.PostingTables live) :
    (entries.foldl f s).PostingTables live ∧ SameNames s (entries.foldl f s) := by
  induction entries generalizing s with
  | nil => exact ⟨h, rfl, rfl, rfl, rfl⟩
  | cons a entries ih =>
    obtain ⟨hstep, h1, h2, h3, h4⟩ := hf s a h
    obtain ⟨hrest, h1', h2', h3', h4'⟩ := ih hstep
    exact ⟨hrest, h1'.trans h1, h2'.trans h2, h3'.trans h3, h4'.trans h4⟩

/-- Entering a path with an id that is not in use keeps the invariant. The posting tables may
already mention the new id. -/
lemma insertPath_rep {relPath : String} (hn : s.Names) (hpath : s.pathToId.get? relPath = none)
    (hunused : fid ∉ s.filePaths.keys) (hover : isOverlayId fid = true)
    (hp : s.PostingTables (insert fid s.filePaths.keys)) : (s.insertPath relPath fid).Rep := by
  refine ⟨⟨fun path' fid' => ?_, ?_, ?_⟩, ?_⟩
  · simp only [insertPath, get?_insert]
    by_cases h1 : path' = relPath
    · subst h1
      by_cases h2 : fid' = fid
      · simp [h2]
      · simp only [if_true, if_neg h2, some.injEq]
        constructor
        · exact fun h => absurd h.symm h2
        · intro h
          rw [(hn.inverse path' fid').mpr h] at hpath
          cases hpath
    · by_cases h2 : fid' = fid
      · subst h2
        simp only [if_neg h1, if_true, some.injEq]
        constructor
        · intro h
          exact absurd (mem_keys_of_get? ((hn.inverse path' fid').mp h)) hunused
        · exact fun h => absurd h.symm h1
      · rw [if_neg h1, if_neg h2]
        exact hn.inverse path' fid'
  · intro fid' hfid'
    simp only [insertPath, keys_insert, mem_insert] at hfid'
    rcases hfid' with rfl | hfid'
    · exact hover
    · exact hn.overlay fid' hfid'
  · simp only [insertPath, keys_insert, disjoint_insert_left, mem_erase]
    exact ⟨fun h => h.1 rfl, hn.disjoint.mono_right (erase_subset _ _)⟩
  · simp only [insertPath, keys_insert]
    exact hp.congr rfl rfl rfl

/-- What both upserts do: remove the old entry, add postings of the new id by some loop, and
enter the path. -/
def upsertWith {α : Type*} (s : LiveIndex) (relPath : String)
    (f : UInt32 → LiveIndex → α → LiveIndex) (entries : List α) : LiveIndex :=
  let s := s.removeOverlayEntry relPath
  (entries.foldl (f s.nextFileId) s.advanceId).insertPath relPath s.nextFileId

/-- The loop body of an upsert adds postings of the new id and leaves the path tables alone. -/
def AddsPostings {α : Type*} (f : UInt32 → LiveIndex → α → LiveIndex) : Prop :=
  ∀ fid live s a, fid ∈ live → s.PostingTables live →
    (f fid s a).PostingTables live ∧ SameNames s (f fid s a)

/-- The id that an upsert hands out does not depend on what it replaces. -/
lemma nextFileId_removeOverlayEntry (h : s.Rep) (path : String) :
    (s.removeOverlayEntry path).nextFileId = s.nextFileId := by
  rw [nextFileId, (removeOverlayEntry_frame h path).1, nextFileId]

/-- The state of an upsert before the path is entered: the posting tables may mention the new id,
and the path tables are those left after the old entry was removed. -/
lemma upsertWith_loop (hf : AddsPostings f) (h : s.Rep) (relPath : String) (entries : List α) :
    ∃ s', s.upsertWith relPath f entries = s'.insertPath relPath s.nextFileId ∧
      SameNames (s.removeOverlayEntry relPath).advanceId s' ∧
      s'.PostingTables (insert s.nextFileId s'.filePaths.keys) := by
  have hr := removeOverlayEntry_rep h relPath
  have hnext := nextFileId_removeOverlayEntry h relPath
  have hstart : (s.removeOverlayEntry relPath).advanceId.PostingTables
      (insert s.nextFileId (s.removeOverlayEntry relPath).filePaths.keys) :=
    (hr.postings.mono (subset_insert _ _)).congr rfl rfl rfl
  obtain ⟨htables, hsame⟩ := foldl_insert_spec (fun s' a hs' =>
    hf s.nextFileId _ s' a (mem_insert_self _ _) hs') entries hstart
  refine ⟨_, by rw [upsertWith, hnext], hsame, ?_⟩
  rw [hsame.1]
  exact htables

/-- **An upsert preserves the invariant if the id it hands out is not in use.** -/
theorem upsertWith_rep (hf : AddsPostings f) (h : s.Rep) (relPath : String) (entries : List α)
    (hunused : s.nextFileId ∉ (s.removeOverlayEntry relPath).filePaths.keys) :
    (s.upsertWith relPath f entries).Rep := by
  obtain ⟨s', heq, ⟨hpaths, hids, hdel, -⟩, htables⟩ := upsertWith_loop hf h relPath entries
  have hr := removeOverlayEntry_rep h relPath
  rw [heq]
  refine insertPath_rep ⟨?_, ?_, ?_⟩ ?_ ?_ (isOverlayId_nextFileId s) htables
  · rw [hpaths, hids]
    exact hr.inverse
  · rw [hpaths]
    exact hr.overlay
  · rw [hids, hdel]
    exact hr.disjoint
  · rw [hids]
    exact ((removeOverlayEntry_frame h relPath).2.2 relPath).trans (if_pos rfl)
  · rw [hpaths]
    exact hunused

/-- What an upsert does to the counter and to the ids of paths. -/
lemma upsertWith_frame (hf : AddsPostings f) (h : s.Rep) (relPath : String) (entries : List α) :
    (s.upsertWith relPath f entries).nextId = s.nextId + 1 ∧
      (s.upsertWith relPath f entries).filePaths =
        (s.removeOverlayEntry relPath).filePaths.insert s.nextFileId relPath ∧
      ∀ path, (s.upsertWith relPath f entries).pathToId.get? path =
        if path = relPath then some s.nextFileId else s.pathToId.get? path := by
  obtain ⟨s', heq, ⟨hpaths, hids, -, hnext⟩, -⟩ := upsertWith_loop hf h relPath entries
  obtain ⟨hnext', -, hids'⟩ := removeOverlayEntry_frame h relPath
  rw [heq]
  refine ⟨?_, ?_, fun path => ?_⟩
  · rw [insertPath, hnext, advanceId, hnext']
  · rw [insertPath, hpaths]
    rfl
  · rw [insertPath, get?_insert, hids]
    split_ifs with hp
    · rfl
    · exact (hids' path).trans (if_neg hp)

/-- Below the overlay bit, the id that an upsert hands out is not in use. -/
lemma Fresh.unused (h : s.Fresh) (hlow : s.nextId < OVERLAY_BIT) :
    s.nextFileId ∉ s.filePaths.keys := by
  intro hmem
  have hlt := h.used _ hmem
  rw [nextFileId, toNat_or_OVERLAY_BIT hlow] at hlt
  omega

/-- Below the overlay bit, an upsert keeps the ids in use among those handed out. -/
lemma upsertWith_fresh (hf : AddsPostings f) (hr : s.Rep) (h : s.Fresh)
    (hlow : s.nextId < OVERLAY_BIT) (relPath : String) (entries : List α) :
    (s.upsertWith relPath f entries).Fresh := by
  obtain ⟨hnext, hpaths, -⟩ := upsertWith_frame hf hr relPath entries
  have hlt : s.nextId.toNat < 2 ^ 31 := UInt32.lt_iff_toNat_lt.mp hlow
  have hsucc : (s.nextId + 1).toNat = s.nextId.toNat + 1 := by
    rw [UInt32.toNat_add]
    exact Nat.mod_eq_of_lt (by simp only [UInt32.toNat_one]; omega)
  refine ⟨?_, fun fid hfid => ?_⟩
  · rw [hnext, hsucc]
    omega
  · rw [hpaths, keys_insert, mem_insert] at hfid
    rw [hnext, hsucc]
    rcases hfid with rfl | hfid
    · rw [nextFileId, toNat_or_OVERLAY_BIT hlow]
      omega
    · have := (removeOverlayEntry_fresh hr h relPath).used fid hfid
      rw [(removeOverlayEntry_frame hr relPath).1] at this
      omega

/-- The upsert is an instance of the common form. -/
lemma commitUpsert_eq (s : LiveIndex) (relPath : String) (perTri : TrigramMaskMap)
    (capacity : TrigramHash → ℕ) :
    s.commitUpsert relPath perTri capacity = s.upsertWith relPath
      (fun fid s entry => s.insertPostingWithMasks fid capacity entry) perTri.toList := rfl

/-- The loop body of `commitUpsert` adds postings. -/
lemma addsPostings_insertPostingWithMasks :
    AddsPostings fun fid s entry => s.insertPostingWithMasks fid capacity entry :=
  fun _ _ _ entry hfid h => ⟨h.insertPostingWithMasks hfid capacity entry, rfl, rfl, rfl, rfl⟩

/-- The loop body of `upsertFileWithTrigrams` adds postings. -/
lemma addsPostings_insertPosting : AddsPostings fun fid s tri => s.insertPosting fid capacity tri :=
  fun _ _ _ tri hfid h => ⟨h.insertPosting hfid capacity tri, rfl, rfl, rfl, rfl⟩

/-! ## Deleting -/

/-- **Deleting a file preserves the invariant**: its entry is gone when its tombstone is set. -/
theorem deleteFile_rep (h : s.Rep) (relPath : String) : (s.deleteFile relPath).Rep := by
  have hr := removeOverlayEntry_rep h relPath
  have hgone : relPath ∉ (s.removeOverlayEntry relPath).pathToId.keys := by
    rw [notMem_keys, (removeOverlayEntry_frame h relPath).2.2, if_pos rfl]
  refine ⟨⟨hr.inverse, hr.overlay, ?_⟩, hr.postings.congr rfl rfl rfl⟩
  exact disjoint_insert_right.mpr ⟨hgone, hr.disjoint⟩

/-! ## Pruning -/

/-- What unlinking the paths in `done` from `s` leaves: `s'`, with the unlinked ids. -/
structure Unlinked (s : LiveIndex) (done : List String) (s' : LiveIndex) (ids : Finset UInt32) :
    Prop where
  names : s'.Names
  pathToId : ∀ path, s'.pathToId.get? path = if path ∈ done then none else s.pathToId.get? path
  keys : ∀ fid, fid ∈ s'.filePaths.keys ↔ fid ∈ s.filePaths.keys ∧ fid ∉ ids
  tables : s' = { s with pathToId := s'.pathToId, filePaths := s'.filePaths }

/-- Unlinking one more path. -/
lemma Unlinked.unlinkPath {done : List String} {ids : Finset UInt32}
    (h : Unlinked s done s' ids) (path : String) :
    Unlinked s (done ++ [path]) (unlinkPath (s', ids) path).1 (unlinkPath (s', ids) path).2 := by
  rw [LiveIndex.unlinkPath]
  dsimp only
  cases hp : s'.pathToId.get? path with
  | none =>
    refine ⟨h.names, fun path' => ?_, h.keys, h.tables⟩
    by_cases heq : path' = path
    · subst heq
      simp [hp]
    · simp [h.pathToId path', heq]
  | some fid =>
    refine ⟨h.names.erase hp rfl rfl rfl, fun path' => ?_, fun fid' => ?_, ?_⟩
    · simp only [get?_erase, h.pathToId path', List.mem_append, List.mem_singleton]
      by_cases heq : path' = path <;> simp [heq]
    · simp only [keys_erase, mem_erase, h.keys fid', mem_insert, not_or]
      tauto
    · dsimp only
      rw [h.tables]

/-- Unlinking a list of paths. -/
lemma foldl_unlinkPath (h : s.Names) (paths : List String) :
    Unlinked s paths (paths.foldl LiveIndex.unlinkPath (s, ∅)).1
      (paths.foldl LiveIndex.unlinkPath (s, ∅)).2 := by
  have hloop : ∀ (paths done : List String) (s' : LiveIndex) (ids : Finset UInt32),
      Unlinked s done s' ids →
      Unlinked s (done ++ paths) (paths.foldl unlinkPath (s', ids)).1
        (paths.foldl unlinkPath (s', ids)).2 := by
    intro paths
    induction paths with
    | nil => intro done s' ids hs'; simpa using hs'
    | cons path paths ih =>
      intro done s' ids hs'
      have hrest := ih (done ++ [path]) _ _ (hs'.unlinkPath path)
      rwa [List.append_assoc, List.singleton_append] at hrest
  exact hloop paths [] s ∅ ⟨h, by simp, by simp, rfl⟩

/-- The file has a posting of the trigram. -/
def HasPostingOf (s : LiveIndex) (t : TrigramHash) (fid : UInt32) : Prop :=
  ∃ set, s.inverted.get? t = some set ∧ fid ∈ set

/-- The files that are left have the postings and masks they had. -/
def KeepsPostings (s s' : LiveIndex) : Prop :=
  ∀ fid ∈ s'.filePaths.keys, ∀ t, (s'.HasPostingOf t fid ↔ s.HasPostingOf t fid) ∧
    s'.masks.get? (t, fid) = s.masks.get? (t, fid)

/-- The ids that are kept keep their postings and masks. -/
lemma retainIds_keeps (s : LiveIndex) (keep : UInt32 → Bool) (hkeep : keep fid = true)
    (t : TrigramHash) :
    ((s.retainIds keep).HasPostingOf t fid ↔ s.HasPostingOf t fid) ∧
      (s.retainIds keep).masks.get? (t, fid) = s.masks.get? (t, fid) := by
  constructor
  · rw [HasPostingOf, HasPostingOf, retainIds]
    simp only [get?_filterMap, bind_eq_some_iff, retainedPosting_eq_some]
    constructor
    · rintro ⟨_, ⟨set, hset, rfl, -⟩, hfid⟩
      exact ⟨set, hset, (mem_filter.mp hfid).1⟩
    · rintro ⟨set, hset, hfid⟩
      have hmem : fid ∈ set.filter fun fid => keep fid = true := mem_filter.mpr ⟨hfid, hkeep⟩
      exact ⟨_, ⟨set, hset, rfl, fid, hmem⟩, hmem⟩
  · rw [retainIds]
    cases hm : s.masks.get? (t, fid) with
    | none => simp [FinMap.filter, hm]
    | some m => exact FinMap.get?_filter_eq_some.mpr ⟨hm, hkeep⟩

/-- **What a batch removal does**: the invariant is kept, exactly the given paths lose their
entries, and the files that are left keep their postings. The counter and the tombstones are not
touched.

**Proof sketch.** The paths are unlinked one by one. If no id was collected, no path had an entry.
If no entry is left, the posting tables may be cleared because no file is left. Otherwise the
passes over the posting tables drop exactly the collected ids, which are the ids that left the
path tables. -/
theorem batchRemoveOverlayEntries_spec (h : s.Rep) (paths : List String) :
    let s' := s.batchRemoveOverlayEntries paths
    s'.Rep ∧ s'.nextId = s.nextId ∧ s'.deletedPaths = s.deletedPaths ∧
      (∀ path, s'.pathToId.get? path = if path ∈ paths then none else s.pathToId.get? path) ∧
      s'.filePaths.keys ⊆ s.filePaths.keys ∧ KeepsPostings s s' := by
  rw [batchRemoveOverlayEntries]
  by_cases hnil : paths.isEmpty = true
  · rw [if_pos hnil]
    obtain rfl : paths = [] := by simpa using hnil
    exact ⟨h, rfl, rfl, by simp, subset_rfl, fun fid _ t => ⟨Iff.rfl, rfl⟩⟩
  rw [if_neg hnil]
  have hu := foldl_unlinkPath h.toNames paths
  obtain ⟨⟨s', ids⟩, hres⟩ : ∃ r, paths.foldl unlinkPath (s, ∅) = r := ⟨_, rfl⟩
  rw [hres] at hu ⊢
  dsimp only at hu ⊢
  have hnext : s'.nextId = s.nextId := by rw [hu.tables]
  have hdel : s'.deletedPaths = s.deletedPaths := by rw [hu.tables]
  have hsub : s'.filePaths.keys ⊆ s.filePaths.keys := fun fid hfid => ((hu.keys fid).mp hfid).1
  have htables : s'.PostingTables s.filePaths.keys := by
    rw [hu.tables]
    exact h.postings.congr rfl rfl rfl
  have hsame : ∀ fid t, (s'.HasPostingOf t fid ↔ s.HasPostingOf t fid) ∧
      s'.masks.get? (t, fid) = s.masks.get? (t, fid) := by
    intro fid t
    rw [hu.tables]
    exact ⟨Iff.rfl, rfl⟩
  split_ifs with hids hempty
  · -- no path had an entry
    have hkeys : s'.filePaths.keys = s.filePaths.keys := by
      ext fid
      rw [hu.keys, hids]
      simp
    exact ⟨⟨hu.names, hkeys ▸ htables⟩, hnext, hdel, hu.pathToId, hsub, fun fid _ => hsame fid⟩
  · -- no entry is left
    have hnone : s'.filePaths.keys = ∅ := by
      rw [eq_empty_iff_forall_notMem]
      intro fid hfid
      obtain ⟨path, hpath⟩ := FinMap.mem_keys.mp hfid
      have := FinMap.isEmpty_iff.mp hempty path
      rw [(hu.names.inverse path fid).mpr hpath] at this
      cases this
    refine ⟨⟨⟨hu.names.inverse, hu.names.overlay, hu.names.disjoint⟩, ?_⟩, hnext, hdel,
      hu.pathToId, hsub, fun fid hfid => ?_⟩
    · exact ⟨by simp, by simp, by simp, rfl⟩
    · exact absurd (hnone ▸ hfid) (notMem_empty fid)
  · refine ⟨⟨⟨hu.names.inverse, hu.names.overlay, hu.names.disjoint⟩, ?_⟩, hnext, hdel,
      hu.pathToId, hsub, fun fid hfid t => ?_⟩
    · exact htables.retainIds fun fid hfid hkeep => (hu.keys fid).mpr ⟨hfid, by simpa using hkeep⟩
    · obtain ⟨hp, hm⟩ := retainIds_keeps s' (fun fid => fid ∉ ids)
        (decide_eq_true ((hu.keys fid).mp hfid).2) t
      exact ⟨hp.trans (hsame fid t).1, hm.trans (hsame fid t).2⟩

/-- Tombstones are cleared one by one. -/
lemma mem_foldl_erase {paths : List String} {deleted : Finset String} :
    path ∈ paths.foldl (fun deleted path => deleted.erase path) deleted ↔
      path ∈ deleted ∧ path ∉ paths := by
  induction paths generalizing deleted with
  | nil => simp
  | cons p paths ih =>
    rw [List.foldl_cons, ih, mem_erase, List.mem_cons, not_or]
    tauto

/-- **Clearing reconciled paths preserves the invariant.** -/
theorem clearReconciledPaths_rep (h : s.Rep) (paths : List String) :
    (s.clearReconciledPaths paths).Rep := by
  obtain ⟨hr, -⟩ := batchRemoveOverlayEntries_spec h paths
  refine ⟨⟨hr.inverse, hr.overlay, ?_⟩, hr.postings.congr rfl rfl rfl⟩
  refine hr.disjoint.mono_right fun path hpath => ?_
  exact (mem_foldl_erase.mp hpath).1

/-- **Dropping the whole overlay preserves the invariant.** -/
theorem tryDropAllPersisted_rep (h : s.Rep) (readerPaths : Finset String) :
    (s.tryDropAllPersisted readerPaths).1.Rep := by
  rw [tryDropAllPersisted]
  by_cases hpaths : s.pathToId.keys ⊆ readerPaths
  · rw [if_neg (not_not.mpr hpaths)]
    split_ifs
    · exact h
    · exact ⟨⟨new_rep.inverse, new_rep.overlay, new_rep.disjoint⟩,
        new_rep.postings.congr rfl rfl rfl⟩
  · rwa [if_pos hpaths]

end LiveIndex

end Tgrep
