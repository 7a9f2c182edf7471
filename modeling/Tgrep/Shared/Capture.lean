import Tgrep.Data.Loops
import Tgrep.Live.View
import Tgrep.Shared.Overlay

/-!
# What a capture yields

A checkpoint in canonical order describes one overlay by path, and an overlay has only one
checkpoint in canonical order. A capture yields it, whatever the order in which the posting sets
are iterated.

## Main definitions

* `Overlay.Valid`: the paths and postings of an overlay pass the checks.
* `LiveIndex.Iterates`: a list goes through the posting sets of the tables.
* `OverlayFile.maskMap`: the postings of a file as a table.
* `OverlayData.Describes`: a checkpoint in canonical order says what an overlay is.

## Main results

* `OverlayData.Describes.unique`: there is only one such checkpoint.
* `OverlayData.capture_spec`: a capture yields it.
-/

namespace Tgrep

open Option Finset FinMap Loops Ascending List LiveIndex

/-! ## Checks -/

variable {p : Prop} {s : LiveIndex} {message : String} {postings : List (TrigramHash × UInt32)}

/-- A check passes iff its condition holds. -/
@[simp] lemma ensure_eq_ok [Decidable p] : ensure p message = .ok () ↔ p := by
  unfold ensure
  split_ifs with h
  · simp [h]
  · simp [h]

/-- Steps that follow a check are reached iff the check passes. -/
lemma ensure_bind_eq_ok {α : Type} [Decidable p] {f : Unit → Except Error α} {a : α} :
    (ensure p message >>= f) = .ok a ↔ p ∧ f () = .ok a := by
  rw [bind_eq_ok]
  constructor
  · rintro ⟨_, h, hf⟩
    exact ⟨ensure_eq_ok.mp h, hf⟩
  · rintro ⟨h, hf⟩
    exact ⟨(), ensure_eq_ok.mpr h, hf⟩

/-- The postings of an overlay pass the check. -/
def Overlay.ValidPostings (o : Overlay) : Prop :=
  ∀ path masks, o.entry path = some masks → ∀ t m, masks t = some m → ValidTrigram t m.locMask

/-- The paths of an overlay and its postings pass the checks. -/
structure Overlay.Valid (o : Overlay) : Prop where
  path : ∀ path masks, o.entry path = some masks → validateIndexPath path = true
  posting : o.ValidPostings
  tombstone : ∀ path ∈ o.deleted, validateIndexPath path = true

/-! ## The order of postings -/

section Order

variable {l : List (TrigramHash × UInt8 × UInt8)}

/-- Postings with different trigrams are ordered by trigram. -/
lemma fst_lt_of_postingKey_lt {p q : TrigramHash × UInt8 × UInt8}
    (h : postingKey p < postingKey q) (hne : p.1 ≠ q.1) : p.1 < q.1 := by
  rcases (Prod.Lex.toLex_lt_toLex).mp h with hlt | ⟨heq, -⟩
  · exact hlt
  · exact absurd heq hne

/-- The order tells postings apart. -/
lemma postingKey_injective : Function.Injective postingKey := by
  intro p q h
  have := toLex.injective h
  obtain ⟨h₁, h₂⟩ := Prod.mk.inj this
  exact Prod.ext h₁ (toLex.injective h₂)

/-- A sort keeps the postings. -/
lemma mem_orderPostings (controlled : Bool) {p : TrigramHash × UInt8 × UInt8} :
    p ∈ orderPostings controlled l ↔ p ∈ l := by
  unfold orderPostings
  cases controlled with
  | false => exact mem_sortByKey
  | true =>
    constructor
    · exact fun h => mem_sortByKey.mp (mem_of_mem_dedupByKey h)
    · intro h
      have hsorted : p ∈ sortByKey postingKey l := mem_sortByKey.mpr h
      obtain ⟨q, hq, hkey⟩ : ∃ q ∈ orderPostings true l, postingKey q = postingKey p :=
        exists_mem_dedupByKey hsorted
      rw [postingKey_injective hkey] at hq
      exact hq

/-- If no trigram occurs twice, the postings are strictly ascending by trigram. -/
lemma orderPostings_ascending (controlled : Bool) (hnodup : (l.map Prod.fst).Nodup) :
    Ascending Prod.fst (orderPostings controlled l) := by
  have hinj : ∀ p ∈ l, ∀ q ∈ l, p.1 = q.1 → p = q := fun p hp q hq =>
    inj_on_of_nodup_map hnodup hp hq
  have hkeys : (l.map postingKey).Nodup := (List.Nodup.of_map _ hnodup).map postingKey_injective
  have hasc : Ascending postingKey (orderPostings controlled l) := by
    unfold orderPostings
    cases controlled with
    | false => exact sortByKey_ascending hkeys
    | true => exact dedupByKey_ascending (pairwise_sortByKey l)
  refine List.Pairwise.imp_of_mem (fun {p q} hp hq hlt => ?_) hasc
  refine fst_lt_of_postingKey_lt hlt fun heq => ?_
  rw [hinj p ((mem_orderPostings controlled).mp hp) q ((mem_orderPostings controlled).mp hq) heq]
    at hlt
  exact lt_irrefl _ hlt

end Order

/-! ## Checkpoints in canonical order -/

/-- The postings of a file as a table. -/
def OverlayFile.maskMap (file : OverlayFile) : TrigramMaskMap :=
  FinMap.ofList (file.trigrams.map fun posting => (posting.1, ⟨posting.2.1, posting.2.2⟩))

/-- The table of a file whose trigrams are distinct has exactly its postings. -/
lemma OverlayFile.get?_maskMap {file : OverlayFile} (hnodup : (file.trigrams.map Prod.fst).Nodup)
    {t : TrigramHash} {m : TrigramMasks} :
    file.maskMap.get? t = some m ↔ (t, m.locMask, m.nextMask) ∈ file.trigrams := by
  unfold maskMap
  rw [get?_ofList]
  · constructor
    · intro h
      obtain ⟨⟨t', loc, next⟩, hmem, heq⟩ := List.mem_map.mp h
      obtain ⟨rfl, rfl⟩ := Prod.mk.inj heq
      exact hmem
    · exact fun h => List.mem_map.mpr ⟨_, h, rfl⟩
  · rw [List.map_map]
    exact hnodup

namespace OverlayData

/-- The checkpoint is in canonical order and says what the overlay is. -/
structure Describes (data : OverlayData) (o : Overlay) : Prop where
  files_ascending : Ascending OverlayFile.path data.files
  trigrams_ascending : ∀ file ∈ data.files, Ascending Prod.fst file.trigrams
  entry : ∀ path masks, o.entry path = some masks ↔
    ∃ file ∈ data.files, file.path = path ∧ file.maskMap.get? = masks
  deleted : data.deleted = o.deleted.sort

variable {file : OverlayFile} {data' : OverlayData} {o : Overlay} {data : OverlayData}

/-- Distinctness of trigrams is part of the canonical order. -/
lemma Describes.nodup (h : data.Describes o) (hfile : file ∈ data.files) :
    (file.trigrams.map Prod.fst).Nodup :=
  (map_iff.mpr (h.trigrams_ascending file hfile)).nodup

/-- A file of one checkpoint is a file of every other that describes the same overlay. -/
lemma Describes.mem_files (h : data.Describes o) (h' : data'.Describes o)
    (hfile : file ∈ data.files) : file ∈ data'.files := by
  obtain ⟨file', hfile', hpath, hmasks⟩ :=
    (h'.entry _ _).mp ((h.entry _ _).mpr ⟨file, hfile, rfl, rfl⟩)
  have htrigrams : file'.trigrams = file.trigrams := by
    refine (h'.trigrams_ascending _ hfile').eq_of_mem_iff (h.trigrams_ascending _ hfile) ?_
    intro ⟨t, loc, next⟩
    have hmem' := OverlayFile.get?_maskMap (h'.nodup hfile') (t := t) (m := ⟨loc, next⟩)
    have hmem := OverlayFile.get?_maskMap (h.nodup hfile) (t := t) (m := ⟨loc, next⟩)
    rw [← hmem', ← hmem, hmasks]
  obtain ⟨path', trigrams'⟩ := file'
  obtain ⟨path, trigrams⟩ := file
  obtain rfl : path' = path := hpath
  obtain rfl : trigrams' = trigrams := htrigrams
  exact hfile'

/-- **An overlay has one checkpoint in canonical order.** -/
theorem Describes.unique (h : data.Describes o) (h' : data'.Describes o) : data = data' := by
  have hfiles : data.files = data'.files :=
    h.files_ascending.eq_of_mem_iff h'.files_ascending fun file =>
      ⟨h.mem_files h', h'.mem_files h⟩
  have hdeleted : data.deleted = data'.deleted := h.deleted.trans h'.deleted.symm
  obtain ⟨files, deleted⟩ := data
  obtain ⟨files', deleted'⟩ := data'
  exact congrArg₂ OverlayData.mk hfiles hdeleted

end OverlayData

/-! ## Captures -/

/-- The list goes through the posting sets of the tables, in some order. -/
def LiveIndex.Iterates (s : LiveIndex) (postings : List (TrigramHash × UInt32)) : Prop :=
  postings.Perm (s.inverted.toList.flatMap fun entry => entry.2.sort.map fun fid => (entry.1, fid))

/-- Every posting is visited. -/
lemma LiveIndex.Iterates.mem (h : s.Iterates postings) (t : TrigramHash) (fid : UInt32) :
    (t, fid) ∈ postings ↔ s.HasPostingOf t fid := by
  rw [h.mem_iff, mem_flatMap]
  constructor
  · rintro ⟨⟨t', set⟩, hentry, hmem⟩
    obtain ⟨fid', hfid, heq⟩ := mem_map.mp hmem
    obtain ⟨rfl, rfl⟩ := Prod.mk.inj heq
    exact ⟨set, mem_toList.mp hentry, (mem_sort _).mp hfid⟩
  · rintro ⟨set, hset, hmem⟩
    exact ⟨(t, set), mem_toList.mpr hset, mem_map.mpr ⟨fid, (mem_sort _).mpr hmem, rfl⟩⟩

/-- No posting is visited twice. -/
lemma LiveIndex.Iterates.nodup (h : s.Iterates postings) : postings.Nodup := by
  rw [h.nodup_iff, nodup_flatMap]
  refine ⟨fun entry _ => (sort_nodup _ _).map fun fid fid' heq => (Prod.mk.inj heq).2, ?_⟩
  refine s.inverted.pairwise_toList.imp fun {a b} hlt => ?_
  intro p hp hp'
  obtain ⟨_, -, rfl⟩ := mem_map.mp hp
  obtain ⟨_, -, heq⟩ := mem_map.mp hp'
  exact hlt.ne (Prod.mk.inj heq).1.symm

/-- The entry of a posting in a checkpoint. -/
def LiveIndex.entryOf (s : LiveIndex) (posting : TrigramHash × UInt32) :
    TrigramHash × UInt8 × UInt8 :=
  (posting.1, (s.getMasks posting.1 posting.2).locMask, (s.getMasks posting.1 posting.2).nextMask)

/-- The entries of a file among the postings of a list. -/
def LiveIndex.entriesOf (s : LiveIndex) (postings : List (TrigramHash × UInt32)) (fid : UInt32) :
    List (TrigramHash × UInt8 × UInt8) :=
  (postings.filter fun posting => posting.2 = fid).map s.entryOf

namespace OverlayData

variable {s : LiveIndex} {postings : List (TrigramHash × UInt32)}

/-- The first loop of a capture. -/
lemma captureFiles_spec (hv : s.view.Valid) :
    ∃ files, s.pathToId.keys.sort.foldlM captureFile FinMap.empty = .ok files ∧
      ∀ path, files.get? path = (s.pathToId.get? path).map fun _ => [] := by
  have hloop : ∃ files, s.pathToId.keys.sort.foldlM captureFile empty = .ok files ∧
      ∀ path, files.get? path = if path ∈ s.pathToId.keys.sort then some [] else none := by
    refine foldlM_ok (P := fun done (files : FinMap String (List (TrigramHash × UInt8 × UInt8))) =>
        ∀ path, files.get? path = if path ∈ done then some [] else none)
      (fun done path rest files hsplit hfiles => ?_) (fun path => by simp)
    have hmem : path ∈ s.pathToId.keys := by
      rw [← mem_sort (r := (· ≤ ·)), hsplit]
      simp
    obtain ⟨fid, hfid⟩ := mem_keys.mp hmem
    have hvalid := hv.path path (s.postingOf fid) (by simp [view, hfid])
    refine ⟨files.insert path [], ensure_bind_eq_ok.mpr ⟨hvalid, rfl⟩, fun path' => ?_⟩
    rw [get?_insert, hfiles]
    by_cases hpath : path' = path
    · simp [hpath]
    · simp [hpath]
  obtain ⟨files, hok, hfiles⟩ := hloop
  refine ⟨files, hok, fun path => ?_⟩
  rw [hfiles]
  simp only [mem_sort]
  cases hget : s.pathToId.get? path with
  | none => exact if_neg (notMem_keys.mpr hget)
  | some fid => exact if_pos (mem_keys_of_get? hget)

/-- The second loop of a capture. -/
lemma capturePostings_spec (h : s.Rep) (hv : s.view.Valid) (hi : s.Iterates postings)
    {files : FinMap String (List (TrigramHash × UInt8 × UInt8))}
    (hfiles : ∀ path, files.get? path = (s.pathToId.get? path).map fun _ => []) :
    ∃ files', postings.foldlM (capturePosting s) files = .ok files' ∧
      ∀ path, files'.get? path = (s.pathToId.get? path).map (s.entriesOf postings) := by
  refine foldlM_ok (P := fun done (files : FinMap String (List (TrigramHash × UInt8 × UInt8))) =>
      ∀ path, files.get? path = (s.pathToId.get? path).map (s.entriesOf done))
    (fun done posting rest files hsplit hdone => ?_) hfiles
  have hposting : s.HasPostingOf posting.1 posting.2 := by
    rw [← hi.mem, hsplit]
    simp
  have hlive : posting.2 ∈ s.filePaths.keys := by
    obtain ⟨set, hset, hmem⟩ := hposting
    exact h.postings.posting_live _ _ hset hmem
  obtain ⟨path, hpath⟩ := mem_keys.mp hlive
  have hid := (h.inverse path posting.2).mpr hpath
  have hvalid : ValidTrigram posting.1 (s.getMasks posting.1 posting.2).locMask :=
    hv.posting path (s.postingOf posting.2) (by simp [view, hid]) _ _
      (postingOf_eq_some hposting)
  have hold : files.get? path = some (s.entriesOf done posting.2) := by rw [hdone, hid]; rfl
  refine ⟨files.insert path (s.entriesOf done posting.2 ++ [s.entryOf posting]), ?_,
    fun path' => ?_⟩
  · unfold capturePosting
    rw [show s.filePath posting.2 = some path from hpath]
    refine ensure_bind_eq_ok.mpr ⟨hvalid, ?_⟩
    rw [hold]
    rfl
  · rw [get?_insert]
    by_cases heq : path' = path
    · rw [if_pos heq, heq, hid, map_some, entriesOf, entriesOf, filter_append, map_append]
      simp
    · rw [if_neg heq, hdone]
      cases hget : s.pathToId.get? path' with
      | none => rfl
      | some fid =>
        have hne : posting.2 ≠ fid := by
          rintro rfl
          have := (h.inverse path' _).mp hget
          rw [hpath] at this
          exact heq (some.inj this).symm
        rw [map_some, map_some, entriesOf, entriesOf, filter_append]
        simp [hne]

/-- The third loop of a capture. -/
lemma captureDeleted_spec (hv : s.view.Valid) :
    s.deletedPaths.sort.foldlM captureDeleted ∅ = .ok s.deletedPaths := by
  have hloop : ∃ deleted, s.deletedPaths.sort.foldlM captureDeleted ∅ = .ok deleted ∧
      deleted = s.deletedPaths.sort.toFinset := by
    refine foldlM_ok (P := fun done deleted => deleted = done.toFinset)
      (fun done path rest deleted hsplit hdone => ?_) rfl
    have hmem : path ∈ s.deletedPaths := by
      rw [← mem_sort (r := (· ≤ ·)), hsplit]
      simp
    refine ⟨insert path deleted, ensure_bind_eq_ok.mpr ⟨hv.tombstone path hmem, rfl⟩, ?_⟩
    rw [hdone]
    ext path'
    simp
  obtain ⟨deleted, hok, rfl⟩ := hloop
  rwa [sort_toFinset] at hok

/-- The entries of a file have distinct trigrams, and they are its postings. -/
lemma entriesOf_spec (hi : s.Iterates postings) (fid : UInt32) :
    ((s.entriesOf postings fid).map Prod.fst).Nodup ∧
      ∀ t m, (t, m.locMask, m.nextMask) ∈ s.entriesOf postings fid ↔
        s.postingOf fid t = some m := by
  constructor
  · rw [entriesOf, List.map_map]
    refine (hi.nodup.filter _).map_on ?_
    intro p hp q hq heq
    have hp2 := (List.mem_filter.mp hp).2
    have hq2 := (List.mem_filter.mp hq).2
    simp only [decide_eq_true_eq] at hp2 hq2
    exact Prod.ext heq (hp2.trans hq2.symm)
  · intro t m
    constructor
    · intro h
      obtain ⟨⟨t', fid'⟩, hin, heq⟩ := List.mem_map.mp h
      obtain ⟨hmem, hfid⟩ := List.mem_filter.mp hin
      obtain rfl : fid' = fid := by simpa using hfid
      obtain ⟨rfl, hmasks⟩ := Prod.mk.inj heq
      obtain ⟨hloc, hnext⟩ := Prod.mk.inj hmasks
      have hposting : s.HasPostingOf t' fid' := (hi.mem _ _).mp hmem
      rw [postingOf_eq_some hposting]
      obtain ⟨loc, next⟩ := m
      simp only [some.injEq]
      exact congrArg₂ TrigramMasks.mk hloc hnext
    · intro h
      by_cases hposting : s.HasPostingOf t fid
      · rw [postingOf_eq_some hposting] at h
        obtain rfl := some.inj h
        refine List.mem_map.mpr ⟨(t, fid), List.mem_filter.mpr ⟨(hi.mem _ _).mpr hposting, ?_⟩, rfl⟩
        simp
      · rw [postingOf_eq_none hposting] at h
        cases h

/-- **What a capture yields**: if the overlay passes the checks, its checkpoint in canonical order.

**Proof sketch.** The first loop leaves every active path with an empty list. The second one
appends each posting to the list of the path of its file, which the representation invariant
provides. Sorting a list with distinct trigrams leaves it ascending by trigram. -/
theorem capture_spec (controlled : Bool) (h : s.Rep) (hv : s.view.Valid) (hi : s.Iterates postings) :
    ∃ data, capture controlled s postings = .ok data ∧ data.Describes s.view ∧
      data.files.length = s.pathToId.keys.card := by
  obtain ⟨files₀, hok₀, hfiles₀⟩ := captureFiles_spec hv
  obtain ⟨files, hok, hfiles⟩ := capturePostings_spec h hv hi hfiles₀
  have hdeleted := captureDeleted_spec hv
  have hmem : ∀ file, file ∈ files.toList.map (fun file =>
      (⟨file.1, orderPostings controlled file.2⟩ : OverlayFile)) ↔
      ∃ path fid, s.pathToId.get? path = some fid ∧
        file = ⟨path, orderPostings controlled (s.entriesOf postings fid)⟩ := by
    intro file
    constructor
    · intro hfile
      obtain ⟨⟨path, trigrams⟩, hin, rfl⟩ := List.mem_map.mp hfile
      have hget := FinMap.mem_toList.mp hin
      rw [hfiles, map_eq_some_iff] at hget
      obtain ⟨fid, hfid, rfl⟩ := hget
      exact ⟨path, fid, hfid, rfl⟩
    · rintro ⟨path, fid, hfid, rfl⟩
      refine List.mem_map.mpr ⟨(path, s.entriesOf postings fid), FinMap.mem_toList.mpr ?_, rfl⟩
      rw [hfiles, hfid, map_some]
  have hasc : ∀ fid, Ascending Prod.fst (orderPostings controlled (s.entriesOf postings fid)) :=
    fun fid => orderPostings_ascending controlled (entriesOf_spec hi fid).1
  have hmasks : ∀ path fid, (OverlayFile.mk path
      (orderPostings controlled (s.entriesOf postings fid))).maskMap.get? = s.postingOf fid := by
    intro path fid
    funext t
    apply Option.ext
    intro m
    rw [OverlayFile.get?_maskMap (Ascending.map_iff.mpr (hasc fid)).nodup, mem_orderPostings]
    exact (entriesOf_spec hi fid).2 t m
  refine ⟨_, Loops.bind_eq_ok.mpr ⟨files₀, hok₀, Loops.bind_eq_ok.mpr ⟨files, hok,
    Loops.bind_eq_ok.mpr ⟨_, hdeleted, rfl⟩⟩⟩, ⟨?_, ?_, ?_, rfl⟩, ?_⟩
  · exact List.pairwise_map.mpr files.pairwise_toList
  · intro file hfile
    obtain ⟨path, fid, -, rfl⟩ := (hmem file).mp hfile
    exact hasc fid
  · intro path masks
    show (s.pathToId.get? path).map s.postingOf = some masks ↔ _
    rw [map_eq_some_iff]
    constructor
    · rintro ⟨fid, hfid, rfl⟩
      exact ⟨_, (hmem _).mpr ⟨path, fid, hfid, rfl⟩, rfl, hmasks path fid⟩
    · rintro ⟨file, hfile, rfl, rfl⟩
      obtain ⟨path, fid, hfid, rfl⟩ := (hmem file).mp hfile
      exact ⟨fid, hfid, (hmasks path fid).symm⟩
  · rw [List.length_map, FinMap.length_toList]
    congr 1
    ext path
    rw [mem_keys_iff, mem_keys_iff, hfiles, isSome_map]

end OverlayData

end Tgrep
