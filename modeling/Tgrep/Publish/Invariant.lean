import Tgrep.Publish.Disk

/-!
# What a publication and a recovery can do to an index directory

One lemma for each action says what it changes. The states of an interrupted publication are
described by what recovery reads: the record, the saved files and the index directory.

## Main definitions

* `Publish.Journaled`: a publication that recovery undoes.
* `Publish.Recoverable`: every state that a publication may be stopped in.
* `Publish.Mixed`, `Publish.Sane`: a mixture of old and new core files, and its absence beside
  `meta.json`.

## Main results

* `Publish.pending_of_noPending`, `Publish.pending_of_journaled`: what recovery finds.
* `Publish.Recoverable.target_eq`: without a pending publication, a directory is one generation.
-/

namespace Tgrep

open Option FinMap List

namespace Publish

open Crash

variable {α : Type} {s s' : Disk α} {id id' : GenerationId} {name n : FileName}

/-! ### Observations -/

/-- The record of a backup that is not yet in its place. -/
def Disk.tempOf (s : Disk α) (id : GenerationId) : Option RecordFile :=
  (s.generations.get? id).bind Generation.temp

lemma savedIn_setGeneration (s : Disk α) (id : GenerationId) (g : Generation α) (id' : GenerationId)
    : (s.setGeneration id g).savedIn id' = if id' = id then g.saved else s.savedIn id' := by
  funext n
  by_cases h : id' = id <;> simp [Disk.savedIn, Disk.setGeneration, get?_insert, h]

lemma recordOf_setGeneration (s : Disk α) (id : GenerationId) (g : Generation α)
    (id' : GenerationId) :
    (s.setGeneration id g).recordOf id' = if id' = id then g.record else s.recordOf id' := by
  by_cases h : id' = id <;> simp [Disk.recordOf, Disk.setGeneration, get?_insert, h]

lemma tempOf_setGeneration (s : Disk α) (id : GenerationId) (g : Generation α) (id' : GenerationId)
    : (s.setGeneration id g).tempOf id' = if id' = id then g.temp else s.tempOf id' := by
  by_cases h : id' = id <;> simp [Disk.tempOf, Disk.setGeneration, get?_insert, h]

variable {g : Generation α} {committed : Finset GenerationId}

lemma savedIn_of_get? (h : s.generations.get? id = some g) : s.savedIn id = g.saved := by
  funext n
  simp [Disk.savedIn, h]

lemma recordOf_of_get? (h : s.generations.get? id = some g) : s.recordOf id = g.record := by
  simp [Disk.recordOf, h]

lemma tempOf_of_get? (h : s.generations.get? id = some g) : s.tempOf id = g.temp := by
  simp [Disk.tempOf, h]

variable (files : Files α) {original : List String} {f : Generation α → Option (Generation α)}

/-- A change of a backup that can be done replaces it. -/
lemma onGeneration_eq_some :
    s.onGeneration id f = some s' ↔
      ∃ g g', s.generations.get? id = some g ∧ f g = some g' ∧ s' = s.setGeneration id g' := by
  simp only [Disk.onGeneration, bind_eq_some_iff, map_eq_some_iff]
  constructor
  · rintro ⟨g, hg, g', hg', rfl⟩
    exact ⟨g, g', hg, hg', rfl⟩
  · rintro ⟨g, g', hg, hg', rfl⟩
    exact ⟨g, hg, g', hg', rfl⟩

/-- Two states with the same records and markers. -/
structure SameRecords (s s' : Disk α) : Prop where
  recordOf : ∀ id, s'.recordOf id = s.recordOf id
  committed : s'.committed = s.committed
  created : s'.created = s.created

lemma SameRecords.refl (s : Disk α) : SameRecords s s := ⟨fun _ => rfl, rfl, rfl⟩

lemma SameRecords.trans {s'' : Disk α} (h : SameRecords s s') (h' : SameRecords s' s'') :
    SameRecords s s'' :=
  ⟨fun id => (h'.recordOf id).trans (h.recordOf id), h'.committed.trans h.committed,
    h'.created.trans h.created⟩

/-! ### The actions -/

/-- Backing up a file moves it. -/
lemma apply_backUp (h : (Action.backUp id name).apply s = some s') :
    SameRecords s s' ∧ s'.staging = s.staging ∧ s'.target = Files.set s.target name none ∧
      s'.savedIn id = Files.set (s.savedIn id) name (s.target name) := by
  simp only [Action.apply, bind_eq_some_iff, map_eq_some_iff] at h
  obtain ⟨content, hcontent, s₁, h₁, rfl⟩ := h
  obtain ⟨g, g', hg, hg', rfl⟩ := onGeneration_eq_some.mp h₁
  obtain rfl := some.inj hg'
  refine ⟨⟨fun i => ?_, rfl, rfl⟩, rfl, rfl, ?_⟩
  · have hrec := recordOf_setGeneration s id
      { g with saved := Files.set g.saved name (some content) } i
    refine hrec.trans ?_
    split
    · next hi => rw [hi, recordOf_of_get? hg]
    · rfl
  · have hsaved := savedIn_setGeneration s id
      { g with saved := Files.set g.saved name (some content) } id
    rw [if_pos rfl] at hsaved
    refine hsaved.trans ?_
    rw [savedIn_of_get? hg, hcontent]

/-- Publishing a file moves it. -/
lemma apply_publish (h : (Action.publish name).apply s = some s') :
    SameRecords s s' ∧ (s.staging name).isSome ∧ s'.staging = Files.set s.staging name none ∧
      s'.target = Files.set s.target name (s.staging name) ∧
      ∀ id, s'.savedIn id = s.savedIn id := by
  simp only [Action.apply, map_eq_some_iff] at h
  obtain ⟨content, hcontent, rfl⟩ := h
  refine ⟨⟨fun _ => rfl, rfl, rfl⟩, by simp [hcontent], rfl, by rw [hcontent], fun _ => rfl⟩

/-- A removal removes one file. -/
lemma apply_removeTarget (h : (Action.removeTarget name).apply s = some s') :
    SameRecords s s' ∧ s'.staging = s.staging ∧ s'.target = Files.set s.target name none ∧
      ∀ id, s'.savedIn id = s.savedIn id := by
  simp only [Action.apply] at h
  split at h
  · obtain rfl := some.inj h
    exact ⟨⟨fun _ => rfl, rfl, rfl⟩, rfl, rfl, fun _ => rfl⟩
  · cases h

/-- Only a file that is not there cannot be removed. -/
lemma removeTarget_refused (h : (Action.removeTarget name).apply s = none) :
    s.target name = none := by
  simp only [Action.apply] at h
  split at h
  · cases h
  · next hnone => simpa using hnone

/-- A restored file is the saved one. -/
lemma apply_restore (h : (Action.restore id name).apply s = some s') :
    SameRecords s s' ∧ s'.staging = s.staging ∧ (s.savedIn id name).isSome ∧
      s'.target = Files.set s.target name (s.savedIn id name) ∧
      s'.savedIn id = Files.set (s.savedIn id) name none := by
  simp only [Action.apply, bind_eq_some_iff, map_eq_some_iff] at h
  obtain ⟨g, hg, content, hcontent, rfl⟩ := h
  have hsome : s.savedIn id name = some content := by rw [savedIn_of_get? hg, hcontent]
  refine ⟨⟨fun i => ?_, rfl, rfl⟩, rfl, by simp [hsome], by rw [hsome], ?_⟩
  · refine (recordOf_setGeneration s id { g with saved := Files.set g.saved name none } i).trans ?_
    split
    · next hi => rw [hi, recordOf_of_get? hg]
    · rfl
  · have hsaved := savedIn_setGeneration s id { g with saved := Files.set g.saved name none } id
    rw [if_pos rfl] at hsaved
    exact hsaved.trans (by rw [savedIn_of_get? hg])

/-- Only a file that is not saved cannot be restored. -/
lemma restore_refused (h : (Action.restore id name).apply s = none) : s.savedIn id name = none := by
  simp only [Action.apply, bind_eq_none_iff, map_eq_none_iff] at h
  rw [Disk.savedIn, bind_eq_none_iff]
  exact fun g hg => h g hg

/-- What a change of a backup's records changes. -/
lemma apply_onGeneration (hf : ∀ g g', f g = some g' → g'.saved = g.saved)
    (h : s.onGeneration id f = some s') :
    s'.target = s.target ∧ s'.staging = s.staging ∧ s'.committed = s.committed ∧
      s'.created = s.created ∧ (∀ i, s'.savedIn i = s.savedIn i) ∧
      ∀ i, i ≠ id → s'.recordOf i = s.recordOf i := by
  obtain ⟨g, g', hg, hg', rfl⟩ := onGeneration_eq_some.mp h
  refine ⟨rfl, rfl, rfl, rfl, fun i => ?_, fun i hi => ?_⟩
  · rw [savedIn_setGeneration]
    split
    · next hi => rw [hi, hf g g' hg', savedIn_of_get? hg]
    · rfl
  · rw [recordOf_setGeneration, if_neg hi]

/-- The removal of a record removes it. -/
lemma apply_removeRecord (h : (Action.removeRecord id).apply s = some s') :
    s'.target = s.target ∧ s'.committed = s.committed ∧ s'.created = s.created ∧
      s'.recordOf id = none ∧ ∀ i, i ≠ id → s'.recordOf i = s.recordOf i := by
  obtain ⟨htarget, -, hcommitted, hcreated, -, hother⟩ :=
    apply_onGeneration (f := fun g => if g.record.isSome then some { g with record := none } else
      none) (by intro g g' hg; split at hg <;> simp at hg; rw [← hg]) h
  refine ⟨htarget, hcommitted, hcreated, ?_, hother⟩
  obtain ⟨g, g', -, hg', rfl⟩ := onGeneration_eq_some.mp h
  rw [recordOf_setGeneration, if_pos rfl]
  split at hg'
  · rw [← some.inj hg']
  · cases hg'

/-- Only a record that is not there cannot be removed. -/
lemma removeRecord_refused (h : (Action.removeRecord id).apply s = none) :
    s.recordOf id = none := by
  simp only [Action.apply, Disk.onGeneration, bind_eq_none_iff, map_eq_none_iff] at h
  rw [Disk.recordOf, bind_eq_none_iff]
  intro g hg
  have hg' := h g hg
  split at hg'
  · cases hg'
  · next hnone => simpa using hnone

/-- The removal of an unfinished record changes nothing else. -/
lemma apply_removeRecordTemp (h : (Action.removeRecordTemp id).apply s = some s') :
    s'.target = s.target ∧ SameRecords s s' := by
  obtain ⟨htarget, -, hcommitted, hcreated, -, hother⟩ :=
    apply_onGeneration (f := fun g => if g.temp.isSome then some { g with temp := none } else none)
      (by intro g g' hg; split at hg <;> simp at hg; rw [← hg]) h
  refine ⟨htarget, fun i => ?_, hcommitted, hcreated⟩
  obtain ⟨g, g', hg, hg', rfl⟩ := onGeneration_eq_some.mp h
  rw [recordOf_setGeneration]
  split
  · next hi =>
    split at hg'
    · rw [← some.inj hg', hi, recordOf_of_get? hg]
    · cases hg'
  · rfl

/-- The removal of a backup removes its record, if it has one, and nothing else. -/
lemma apply_removeGeneration (h : (Action.removeGeneration id).apply s = some s') :
    s'.target = s.target ∧ s'.committed = s.committed ∧ s'.created = s.created ∧
      s'.generations = s.generations.erase id := by
  simp only [Action.apply, bind_eq_some_iff] at h
  obtain ⟨g, -, hg⟩ := h
  split at hg
  · obtain rfl := some.inj hg
    exact ⟨rfl, rfl, rfl, rfl⟩
  · cases hg

/-- Without a backup there is no record of it. -/
lemma recordOf_erase (hgenerations : s'.generations = s.generations.erase id) (i : GenerationId) :
    s'.recordOf i = if i = id then none else s.recordOf i := by
  by_cases hi : i = id <;> simp [Disk.recordOf, hgenerations, get?_erase, hi]

/-! ### Records -/

/-- Two files have different names. -/
lemma FileName.text_injective : Function.Injective FileName.text := by
  intro a b h
  cases a <;> cases b <;> first | rfl | exact absurd h (by decide)

lemma mem_stagedPublishOrder (name : FileName) : name ∈ stagedPublishOrder := by
  cases name <;> decide

/-- The recorded files are those that are there. -/
lemma mem_originalFiles (name : FileName) :
    name.text ∈ originalFiles files ↔ (files name).isSome := by
  simp only [originalFiles, List.mem_map, List.mem_filter, FileName.text_injective.eq_iff]
  constructor
  · rintro ⟨n, ⟨-, hn⟩, rfl⟩
    exact hn
  · exact fun h => ⟨name, ⟨mem_stagedPublishOrder name, h⟩, rfl⟩

/-- A record that a publication writes is valid. -/
lemma validRecord_originalFiles : validRecord 1 (originalFiles files) = true := by
  have hnodup : (originalFiles files).Nodup := by
    have horder : stagedPublishOrder.Nodup := by decide
    exact (horder.filter _).map FileName.text_injective
  have hall : (originalFiles files).all fun name =>
      stagedPublishOrder.any fun allowed => decide (allowed.text = name) := by
    rw [List.all_eq_true]
    intro text htext
    obtain ⟨name, -, rfl⟩ := List.mem_map.mp htext
    exact List.any_eq_true.mpr ⟨name, mem_stagedPublishOrder name, by simp⟩
  simp [validRecord, hnodup, hall]

/-- No publication is pending. -/
def Disk.NoPending (s : Disk α) : Prop :=
  ∀ id, (s.recordOf id).isSome → id ∈ s.committed

lemma Disk.NoPending.congr (h : s.NoPending) (hsame : SameRecords s s') : s'.NoPending := by
  intro id hid
  rw [hsame.recordOf] at hid
  rw [hsame.committed]
  exact h id hid

/-- Backups whose records are committed are not pending. -/
lemma pendingRecords_eq_nil :
    ∀ {backups : List (GenerationId × Generation α)},
      (∀ b ∈ backups, b.2.record.isSome → b.1 ∈ committed) →
        pendingRecords committed backups = .ok []
  | [], _ => rfl
  | (id, g) :: backups, h => by
    have ih : pendingRecords committed backups = .ok [] :=
      pendingRecords_eq_nil fun b hb => h b (by simp [hb])
    rw [pendingRecords]
    split
    · exact ih
    · next hid =>
      have hnone : g.record = none := by
        by_contra hne
        exact hid (h (id, g) (by simp) (isSome_iff_ne_none.mpr hne))
      rw [hnone]
      exact ih

/-- Every record that is found valid is pending, unless it is committed. -/
lemma mem_of_pendingRecords :
    ∀ {backups : List (GenerationId × Generation α)} {pending : List (GenerationId × List String)},
      pendingRecords committed backups = .ok pending →
        ∀ b ∈ backups, b.2.record.isSome → b.1 ∉ committed → b.1 ∈ pending.map Prod.fst
  | [], _, _, b, hb, _, _ => by cases hb
  | (id, g) :: backups, pending, h, b, hb, hrecord, hcommitted => by
    rw [pendingRecords] at h
    split at h
    · next hid =>
      obtain rfl | hb := mem_cons.mp hb
      · exact absurd hid hcommitted
      · exact mem_of_pendingRecords h b hb hrecord hcommitted
    · split at h
      · next hnone =>
        obtain rfl | hb := mem_cons.mp hb
        · simp [hnone] at hrecord
        · exact mem_of_pendingRecords h b hb hrecord hcommitted
      · cases h
      · split at h
        · cases hrest : pendingRecords committed backups with
          | error e => rw [hrest] at h; cases h
          | ok rest =>
            rw [hrest] at h
            obtain rfl := Except.ok.inj h
            obtain rfl | hb := mem_cons.mp hb
            · simp
            · have ih := mem_of_pendingRecords hrest b hb hrecord hcommitted
              simp only [map_cons, mem_cons]
              exact .inr ih
        · cases h

/-- The one backup whose record is not committed is pending. -/
lemma pendingRecords_eq_singleton (hvalid : validRecord 1 original = true) :
    ∀ {backups : List (GenerationId × Generation α)},
      (backups.map Prod.fst).Nodup → (∃ g, (id, g) ∈ backups ∧ g.record = some (.record 1 original)) →
        id ∉ committed → (∀ b ∈ backups, b.1 ≠ id → b.2.record.isSome → b.1 ∈ committed) →
          pendingRecords committed backups = .ok [(id, original)]
  | [], _, ⟨g, hg, _⟩, _, _ => by cases hg
  | (i, g) :: backups, hnodup, ⟨g₀, hg₀, hrecord⟩, hid, hother => by
    simp only [List.map_cons, List.nodup_cons] at hnodup
    obtain heq | hg₀ := mem_cons.mp hg₀
    · -- the pending backup: nothing after it is pending
      obtain ⟨rfl, rfl⟩ := Prod.mk.inj heq
      have hrest : pendingRecords committed backups = .ok [] := by
        refine pendingRecords_eq_nil fun b hb hb' => hother b (by simp [hb]) ?_ hb'
        rintro rfl
        exact hnodup.1 (mem_map_of_mem hb)
      rw [pendingRecords, if_neg hid]
      simp only [hrecord, hvalid, if_true, hrest]
      rfl
    · have hne : i ≠ id := by
        rintro rfl
        exact hnodup.1 (mem_map_of_mem hg₀)
      have ih := pendingRecords_eq_singleton hvalid hnodup.2 ⟨g₀, hg₀, hrecord⟩ hid
        fun b hb => hother b (by simp [hb])
      rw [pendingRecords]
      split
      · exact ih
      · next hi =>
        have hnone : g.record = none := by
          by_contra hsome
          exact hi (hother (i, g) (by simp) hne (isSome_iff_ne_none.mpr hsome))
        rw [hnone]
        exact ih

/-- **Recovery finds nothing** exactly when no publication is pending. -/
theorem pending_eq_nil_iff : s.pending = .ok [] ↔ s.NoPending := by
  constructor
  · intro h id hid
    by_contra hcommitted
    obtain ⟨g, hg⟩ := isSome_iff_exists.mp hid
    obtain ⟨backup, hbackup, hrecord⟩ := bind_eq_some_iff.mp hg
    have hmem := mem_of_pendingRecords h (id, backup) (mem_toList.mpr hbackup)
      (by simp [hrecord]) hcommitted
    simp at hmem
  · intro h
    refine pendingRecords_eq_nil fun b hb hrecord => h b.1 ?_
    rwa [recordOf_of_get? (mem_toList.mp hb)]

/-- What is pending alone leaves nothing else pending. -/
lemma committed_of_pending (h : s.pending = .ok [(id, original)]) (hi : id' ≠ id)
    (hrecord : (s.recordOf id').isSome) : id' ∈ s.committed := by
  by_contra hcommitted
  obtain ⟨g, hg⟩ := isSome_iff_exists.mp hrecord
  obtain ⟨backup, hbackup, hrecord⟩ := bind_eq_some_iff.mp hg
  have hmem := mem_of_pendingRecords h (id', backup) (mem_toList.mpr hbackup)
    (by simp [hrecord]) hcommitted
  simp at hmem
  exact hi hmem

/-! ### States of an interrupted publication -/

section

variable (o st : Files α)

/-- The files of a published generation: the staged ones in place of the old ones, the other old
ones, and evidence only if it is staged. -/
def published (name : FileName) : Option α :=
  if (st name).isSome then st name else if name = .filestamps then none else o name

/-- A publication that is not committed: its record says which files there were, and each of them
is saved or still in its place. -/
structure Journaled (id : GenerationId) (s : Disk α) : Prop where
  record : s.recordOf id = some (.record 1 (originalFiles o))
  uncommitted : id ∉ s.committed
  others : ∀ i, i ≠ id → (s.recordOf i).isSome → i ∈ s.committed
  files : ∀ n, s.savedIn id n = o n ∨ (s.savedIn id n = none ∧ s.target n = o n)

/-- A directory whose publication is not committed: nothing was changed, or recovery undoes it. -/
def Uncommitted (s : Disk α) : Prop :=
  (s.NoPending ∧ s.target = o) ∨ ∃ id, Journaled o id s

/-- The directory of a publication that may have been stopped anywhere. -/
structure Recoverable (s : Disk α) : Prop where
  uncommitted : s.created = ∅ → Uncommitted o s
  committed : s.created ≠ ∅ → s.NoPending ∧ s.target = published o st

/-- A core file that a publication replaces by another one or adds. -/
def Differs (n : FileName) : Prop :=
  n ∈ coreIndexFileNames ∧ (st n).isSome ∧ st n ≠ o n

/-- A new core file is there. -/
def HasNew (t : Files α) : Prop := ∃ n, Differs o st n ∧ t n = st n

/-- An old core file is there that a publication replaces. -/
def HasOld (t : Files α) : Prop := ∃ n, Differs o st n ∧ (o n).isSome ∧ t n = o n

/-- A mixture of old and new core files. -/
def Mixed (t : Files α) : Prop := HasNew o st t ∧ HasOld o st t

/-- `meta.json` is not beside a mixture. -/
def Sane (t : Files α) : Prop := (t .metaJson).isSome → ¬ Mixed o st t

/-- `meta.json` is not beside a new core file. -/
def Quiet (t : Files α) : Prop := (t .metaJson).isSome → ¬ HasNew o st t

end

variable {o st t t' : Files α}

/-- A directory without a new file beside `meta.json` has no mixture beside it. -/
lemma Quiet.sane (h : Quiet o st t) : Sane o st t :=
  fun hmeta hmixed => h hmeta hmixed.1

/-- The old files have no new one among them. -/
lemma not_hasNew_self : ¬ HasNew o st o := by
  rintro ⟨n, hn, heq⟩
  exact hn.2.2 heq.symm

/-- The new generation has no replaced file in it. -/
lemma not_hasOld_published : ¬ HasOld o st (published o st) := by
  rintro ⟨n, hn, -, heq⟩
  rw [published, if_pos hn.2.1] at heq
  exact hn.2.2 heq

variable (h : ∀ n, t' n = t n ∨ t' n = none)

include h

/-- A removal brings no new file. -/
lemma HasNew.of_removed (hnew : HasNew o st t') : HasNew o st t := by
  obtain ⟨n, hn, heq⟩ := hnew
  refine ⟨n, hn, ?_⟩
  obtain hsame | hnone := h n
  · rw [← hsame, heq]
  · rw [hnone] at heq
    simp [← heq, Differs] at hn

/-- A removal brings no old file. -/
lemma HasOld.of_removed (hold : HasOld o st t') : HasOld o st t := by
  obtain ⟨n, hn, hsome, heq⟩ := hold
  refine ⟨n, hn, hsome, ?_⟩
  obtain hsame | hnone := h n
  · rw [← hsame, heq]
  · rw [hnone] at heq
    simp [← heq] at hsome

/-- A removal keeps `meta.json` apart from a mixture. -/
lemma Sane.of_removed (hsane : Sane o st t) : Sane o st t' := by
  intro hmeta hmixed
  refine hsane ?_ ⟨hmixed.1.of_removed h, hmixed.2.of_removed h⟩
  obtain hsame | hnone := h .metaJson
  · rwa [← hsame]
  · simp [hnone] at hmeta

/-- A removal keeps `meta.json` apart from new files. -/
lemma Quiet.of_removed (hquiet : Quiet o st t) : Quiet o st t' := by
  intro hmeta hnew
  refine hquiet ?_ (hnew.of_removed h)
  obtain hsame | hnone := h .metaJson
  · rwa [← hsame]
  · simp [hnone] at hmeta

omit h

/-- An old file in its place is not a new file. -/
lemma HasNew.of_set_old (h : HasNew o st (t.set name (o name))) : HasNew o st t := by
  obtain ⟨n, hn, heq⟩ := h
  refine ⟨n, hn, ?_⟩
  by_cases hname : n = name
  · subst hname
    rw [Files.set_self] at heq
    exact absurd heq.symm hn.2.2
  · rwa [Files.set_of_ne _ _ hname] at heq

/-- A set that removes a file only removes. -/
lemma Files.set_none_or (t : Files α) (name n : FileName) :
    t.set name none n = t n ∨ t.set name none n = none := by
  by_cases hname : n = name
  · exact .inr (by rw [hname, Files.set_self])
  · exact .inl (Files.set_of_ne _ _ hname)

/-- A publication that recovery undoes is pending, and alone. -/
lemma Journaled.pending (h : Journaled o id s) : s.pending = .ok [(id, originalFiles o)] := by
  obtain ⟨g, hg, hrecord⟩ := bind_eq_some_iff.mp h.record
  refine pendingRecords_eq_singleton (validRecord_originalFiles o)
    (nodup_keys_toList _) ⟨g, mem_toList.mpr hg, hrecord⟩ h.uncommitted
    fun b hb hne hsome => h.others b.1 hne ?_
  rwa [recordOf_of_get? (mem_toList.mp hb)]

/-- Without its record, a publication is not pending. -/
lemma Journaled.noPending (h : Journaled o id s) (hrecord : s'.recordOf id = none)
    (hothers : ∀ i, i ≠ id → s'.recordOf i = s.recordOf i) (hcommitted : s'.committed = s.committed) :
    s'.NoPending := by
  intro i hi
  by_cases hid : i = id
  · rw [hid, hrecord] at hi
    cases hi
  · rw [hcommitted]
    rw [hothers i hid] at hi
    exact h.others i hid hi

/-- A journaled publication stays one while its records stay and every file is saved or in its
place. -/
lemma Journaled.congr (h : Journaled o id s) (hsame : SameRecords s s')
    (hfiles : ∀ n, s'.savedIn id n = o n ∨ (s'.savedIn id n = none ∧ s'.target n = o n)) :
    Journaled o id s' where
  record := (hsame.recordOf id).trans h.record
  uncommitted := hsame.committed ▸ h.uncommitted
  others := fun i hi hsome => hsame.committed ▸ h.others i hi (hsame.recordOf i ▸ hsome)
  files := hfiles

/-- A journaled publication may be stopped. -/
lemma Journaled.recoverable (h : Journaled o id s) (hcreated : s.created = ∅) :
    Recoverable o st s :=
  ⟨fun _ => .inr ⟨id, h⟩, fun hne => absurd hcreated hne⟩

/-- **Without a pending publication** a directory is one generation: the old one if no marker was
created, and the new one if one was. -/
theorem Recoverable.target_eq (h : Recoverable o st s) (hno : s.NoPending) :
    s.target = if s.created = ∅ then o else published o st := by
  split
  · next hcreated =>
    obtain ⟨-, htarget⟩ | ⟨id, hjournaled⟩ := h.uncommitted hcreated
    · exact htarget
    · exact absurd (hno id (by simp [hjournaled.record])) hjournaled.uncommitted
  · next hcreated => exact (h.committed hcreated).2

/-- What recovery finds in a directory is nothing or the publication that it undoes. -/
lemma Recoverable.noPending_or (h : Recoverable o st s) :
    s.NoPending ∨ (s.created = ∅ ∧ ∃ id, Journaled o id s) := by
  by_cases hcreated : s.created = ∅
  · obtain ⟨hno, -⟩ | hjournaled := h.uncommitted hcreated
    · exact .inl hno
    · exact .inr ⟨hcreated, hjournaled⟩
  · exact .inl (h.committed hcreated).1

/-- One generation has no mixture. -/
lemma Recoverable.sane (h : Recoverable o st s) (hno : s.NoPending) : Sane o st s.target := by
  rw [h.target_eq hno]
  split
  · exact fun _ hmixed => not_hasNew_self hmixed.1
  · exact fun _ hmixed => not_hasOld_published hmixed.2

end Publish

end Tgrep
