import Tgrep.Publish.Invariant

/-!
# Recovery

Recovery of an interrupted publication may itself be interrupted: every state that it passes
through is one that it undoes again.

## Main results

* `Publish.recoverPending_ensures`: what recovery does to a directory whose publication was
  stopped.
* `Publish.recoverPending_rejected`: a recovery that finds a bad record, or two publications,
  changes nothing.
* `Publish.recoverPending_recovered`: after a recovery nothing is pending.
* `Publish.cleanupRetired_ensures`: the removal of retired backups keeps every other backup.
-/

namespace Tgrep

open Option List

namespace Publish

open Crash

variable {α : Type} {s s' : Disk α} {id : GenerationId} {name : FileName}
  {mayFail : Action → Prop} {o st : Files α}

/-! ### One file after the other -/

/-- The state of a recovery with some files to go: the others are the original ones. -/
structure Recovering (o st : Files α) (id : GenerationId) (rest : List FileName) (s : Disk α) :
    Prop where
  created : s.created = ∅
  journaled : Journaled o id s
  recovered : ∀ n, n ∉ rest → s.target n = o n

/-- Where a recovery may be stopped: the publication is undone again, and `meta.json` is not beside
a new file if it was not at first. -/
structure RecoveryStop (o st : Files α) (t : Files α) (s : Disk α) : Prop where
  recoverable : Recoverable o st s
  quiet : Quiet o st t → Quiet o st s.target

/-- The removal of a file whose original is saved, or that was not there. -/
lemma Journaled.removeTarget (h : Journaled o id s) (hsaved : s.savedIn id name = o name)
    (hsame : SameRecords s s') (htarget : s'.target = Files.set s.target name none)
    (hsavedIn : s'.savedIn id = s.savedIn id) : Journaled o id s' := by
  refine h.congr hsame fun n => ?_
  rw [hsavedIn, htarget]
  by_cases hn : n = name
  · rw [hn]
    exact .inl hsaved
  · rw [Files.set_of_ne _ _ hn]
    exact h.files n

/-- The return of a saved file. -/
lemma Journaled.restore (h : Journaled o id s) (hsaved : s.savedIn id name = o name)
    (hsame : SameRecords s s') (htarget : s'.target = Files.set s.target name (s.savedIn id name))
    (hsavedIn : s'.savedIn id = Files.set (s.savedIn id) name none) : Journaled o id s' := by
  refine h.congr hsame fun n => ?_
  rw [hsavedIn, htarget, hsaved]
  by_cases hn : n = name
  · rw [hn, Files.set_self, Files.set_self]
    exact .inr ⟨rfl, rfl⟩
  · rw [Files.set_of_ne _ _ hn, Files.set_of_ne _ _ hn]
    exact h.files n

variable {t : Files α} {s₀ : Disk α} {rest : List FileName}

/-- Recovery removes a file only if its original is saved, or was not there. -/
lemma removeIfThere_ensures (h : Recovering o st id rest s) (hstop : RecoveryStop o st t s)
    (hsaved : s.savedIn id name = o name) (hname : name ∈ rest) :
    Ensures Action.apply mayFail (RecoveryStop o st t)
      (fun removed s' => Recovering o st id rest s' ∧ RecoveryStop o st t s' ∧
        s'.savedIn id = s.savedIn id ∧ (removed = true → s'.target name = none) ∧
        ∀ n, n ≠ name → s'.target n = s.target n)
      (removeIfThere name) s := by
  apply ensures_read
  split
  · apply ensures_perform
    · intro s₁ h₁
      obtain ⟨hsame, -, htarget, hsavedIn⟩ := apply_removeTarget h₁
      have hjournaled := h.journaled.removeTarget hsaved hsame htarget (hsavedIn id)
      have hcreated : s₁.created = ∅ := hsame.created.trans h.created
      have hquiet : RecoveryStop o st t s₁ := by
        refine ⟨hjournaled.recoverable hcreated, fun ht => ?_⟩
        refine (hstop.quiet ht).of_removed fun n => ?_
        rw [htarget]
        exact Files.set_none_or _ _ _
      refine ⟨hquiet, ensures_pure ⟨⟨hcreated, hjournaled, fun n hn => ?_⟩, hquiet, hsavedIn id,
        fun _ => by rw [htarget, Files.set_self], fun n hn => ?_⟩⟩
      · rw [htarget, Files.set_of_ne _ _ (fun heq => hn (by rw [heq]; exact hname))]
        exact h.recovered n hn
      · rw [htarget, Files.set_of_ne _ _ hn]
    · intro _
      exact ensures_pure ⟨h, hstop, rfl, by simp, fun _ _ => rfl⟩
    · intro _
      exact ensures_pure ⟨h, hstop, rfl, by simp, fun _ _ => rfl⟩
  · next hnone =>
    exact ensures_pure ⟨h, hstop, rfl, fun _ => by simpa using hnone, fun _ _ => rfl⟩

/-- Recovery of the last files is in place when the next one is. -/
lemma Recovering.tail (h : Recovering o st id (name :: rest) s) (hname : s.target name = o name) :
    Recovering o st id rest s where
  created := h.created
  journaled := h.journaled
  recovered n hn := by
    by_cases heq : n = name
    · rw [heq, hname]
    · exact h.recovered n (by simp [heq, hn])

/-- Nothing follows `meta.json` in the order of publication. -/
lemma eq_nil_of_metaJson (h : (FileName.metaJson :: rest) <:+ stagedPublishOrder) : rest = [] := by
  simp only [stagedPublishOrder, coreIndexFileNames, cons_append, nil_append,
    suffix_cons_iff, cons.injEq, reduceCtorEq, false_and, false_or, true_and,
    suffix_nil] at h
  tauto

/-- The return of a saved file leaves `meta.json` apart from new files: `meta.json` is the last. -/
lemma RecoveryStop.restore (hsuffix : (name :: rest) <:+ stagedPublishOrder)
    (h : Recovering o st id (name :: rest) s) (hstop : RecoveryStop o st t s)
    (hjournaled : Journaled o id s') (hcreated : s'.created = ∅)
    (htarget : s'.target = Files.set s.target name (o name)) : RecoveryStop o st t s' := by
  refine ⟨hjournaled.recoverable hcreated, fun ht hmeta hnew => ?_⟩
  rw [htarget] at hmeta hnew
  by_cases hname : name = .metaJson
  · -- the core files are the original ones by now
    subst hname
    obtain rfl := eq_nil_of_metaJson hsuffix
    obtain ⟨n, hn, heq⟩ := hnew.of_set_old
    have hcore : n ∉ [FileName.metaJson] := by
      intro hmem
      obtain rfl := mem_singleton.mp hmem
      exact absurd hn.1 (by decide)
    exact hn.2.2 (heq.symm.trans (h.recovered n hcore))
  · rw [Files.set_of_ne _ _ (Ne.symm hname)] at hmeta
    exact hstop.quiet ht hmeta hnew.of_set_old

/-- **The files of a recovery**: at the end they are the original ones.

**Proof sketch.** Induction on the files to go. A saved file was there, so it is recorded; what is
in its place is removed and it returns. A file that is not saved either was there and is in its
place, or was not there and is removed. -/
theorem recoverFiles_ensures :
    ∀ (rest : List FileName) {s : Disk α}, rest <:+ stagedPublishOrder →
      Recovering o st id rest s → RecoveryStop o st t s →
        Ensures Action.apply mayFail (RecoveryStop o st t)
          (fun r s' => r = .error .io ∨ (r = .ok () ∧ Recovering o st id [] s' ∧
            RecoveryStop o st t s'))
          (recoverFiles id (originalFiles o) rest) s
  | [], s, _, h, hstop => ensures_pure (.inr ⟨rfl, h, hstop⟩)
  | name :: rest, s, hsuffix, h, hstop => by
    have hrest : rest <:+ stagedPublishOrder := (List.suffix_cons name rest).trans hsuffix
    rw [recoverFiles]
    apply ensures_read
    split
    · next hsome =>
      have hsaved : s.savedIn id name = o name := by
        obtain hsaved | ⟨hnone, -⟩ := h.journaled.files name
        · exact hsaved
        · simp [hnone] at hsome
      have horiginal : name.text ∈ originalFiles o := by
        rw [mem_originalFiles, ← hsaved]
        exact hsome
      rw [if_pos horiginal]
      refine (removeIfThere_ensures h hstop hsaved (by simp)).bind ?_
      rintro removed s₁ ⟨h₁, hstop₁, hsavedIn, -, -⟩
      split
      · apply ensures_perform
        · intro s₂ h₂
          obtain ⟨hsame, -, -, htarget, hsavedIn₂⟩ := apply_restore h₂
          have hsaved₁ : s₁.savedIn id name = o name := by rw [hsavedIn, hsaved]
          have hjournaled := h₁.journaled.restore hsaved₁ hsame htarget hsavedIn₂
          have hcreated : s₂.created = ∅ := hsame.created.trans h₁.created
          rw [hsaved₁] at htarget
          have hstop₂ := hstop₁.restore hsuffix h₁ hjournaled hcreated htarget
          refine ⟨hstop₂, recoverFiles_ensures rest hrest ⟨hcreated, hjournaled, ?_⟩ hstop₂⟩
          intro n hn
          rw [htarget]
          by_cases heq : n = name
          · rw [heq, Files.set_self]
          · rw [Files.set_of_ne _ _ heq]
            exact h₁.recovered n (by simp [heq, hn])
        · exact fun _ => ensures_pure (.inl rfl)
        · exact fun _ => ensures_pure (.inl rfl)
      · exact ensures_pure (.inl rfl)
    · next hsome =>
      have hnone : s.savedIn id name = none := by simpa using hsome
      split
      · next horiginal =>
        rw [mem_originalFiles] at horiginal
        have hplace : s.target name = o name := by
          obtain hsaved | ⟨-, hplace⟩ := h.journaled.files name
          · rw [hnone] at hsaved
            rw [← hsaved] at horiginal
            cases horiginal
          · exact hplace
        rw [if_pos (hplace ▸ horiginal)]
        exact recoverFiles_ensures rest hrest (h.tail hplace) hstop
      · next horiginal =>
        rw [mem_originalFiles, Bool.not_eq_true, isSome_eq_false_iff,
          isNone_iff_eq_none] at horiginal
        refine (removeIfThere_ensures h hstop (hnone.trans horiginal.symm) (by simp)).bind ?_
        rintro removed s₁ ⟨h₁, hstop₁, -, hremoved, -⟩
        split
        · next hr =>
          exact recoverFiles_ensures rest hrest (h₁.tail ((hremoved hr).trans horiginal.symm)) hstop₁
        · exact ensures_pure (.inl rfl)

/-! ### A whole recovery -/

/-- A directory with its original files and nothing pending. -/
structure Untouched (o : Files α) (s : Disk α) : Prop where
  created : s.created = ∅
  noPending : s.NoPending
  target : s.target = o

/-- An untouched directory may be stopped. -/
lemma Untouched.stop (h : Untouched o s) (t : Files α) : RecoveryStop o st t s where
  recoverable := ⟨fun _ => .inl ⟨h.noPending, h.target⟩, fun hne => absurd h.created hne⟩
  quiet _ := by
    rw [h.target]
    exact fun _ => not_hasNew_self

/-- The removal of a backup leaves a directory untouched. -/
lemma Untouched.removeGeneration (h : Untouched o s)
    (happly : (Action.removeGeneration id).apply s = some s') : Untouched o s' := by
  obtain ⟨htarget, hcommitted, hcreated, hgenerations⟩ := apply_removeGeneration happly
  refine ⟨hcreated.trans h.created, fun i hi => ?_, htarget.trans h.target⟩
  rw [recordOf_erase hgenerations] at hi
  rw [hcommitted]
  split at hi
  · cases hi
  · exact h.noPending i hi

/-- Without its record a recovered publication leaves an untouched directory. -/
lemma Journaled.untouched (h : Journaled o id s) (hcreated : s.created = ∅) (htarget : s.target = o)
    (happly : (Action.removeRecord id).apply s = some s') : Untouched o s' := by
  obtain ⟨htarget', hcommitted, hcreated', hrecord, hothers⟩ := apply_removeRecord happly
  exact ⟨hcreated'.trans hcreated, h.noPending hrecord hothers hcommitted, htarget'.trans htarget⟩

/-- A pending publication is undone. -/
lemma recoverPublication_ensures (h : Journaled o id s) (hcreated : s.created = ∅) :
    Ensures Action.apply mayFail (RecoveryStop o st s.target)
      (fun r s' => r = .error .io ∨ (r = .ok () ∧ s'.NoPending))
      (recoverPublication id (originalFiles o)) s := by
  have hstart : Recovering o st id stagedPublishOrder s :=
    ⟨hcreated, h, fun n hn => absurd (mem_stagedPublishOrder n) hn⟩
  have hstop : RecoveryStop o st s.target s := ⟨h.recoverable hcreated, fun hquiet => hquiet⟩
  refine (recoverFiles_ensures stagedPublishOrder (suffix_refl _) hstart hstop).bind ?_
  rintro r s₁ (rfl | ⟨rfl, h₁, -⟩)
  · exact ensures_pure (.inl rfl)
  · have htarget : s₁.target = o := funext fun n => h₁.recovered n (by simp)
    apply ensures_perform
    · intro s₂ h₂
      have huntouched := h₁.journaled.untouched h₁.created htarget h₂
      refine ⟨huntouched.stop _, ensures_perform ?_ ?_ ?_⟩
      · intro s₃ h₃
        have hgone := huntouched.removeGeneration h₃
        exact ⟨hgone.stop _, ensures_pure (.inr ⟨rfl, hgone.noPending⟩)⟩
      · exact fun _ => ensures_pure (.inr ⟨rfl, huntouched.noPending⟩)
      · exact fun _ => ensures_pure (.inr ⟨rfl, huntouched.noPending⟩)
    · exact fun _ => ensures_pure (.inl rfl)
    · exact fun _ => ensures_pure (.inl rfl)

/-- A recovery that finds nothing changes nothing. -/
lemma recoverPending_of_noPending (h : s.NoPending) :
    Ensures Action.apply mayFail (fun s' => s' = s) (fun r s' => r = .ok () ∧ s' = s)
      recoverPending s := by
  apply ensures_read
  rw [pending_eq_nil_iff.mpr h]
  exact ensures_pure ⟨rfl, rfl⟩

/-- **What recovery does** to a directory whose publication was stopped: it may be stopped itself
and run again, it fails only if an action fails, and then nothing is pending. -/
theorem recoverPending_ensures (h : Recoverable o st s) :
    Ensures Action.apply mayFail (RecoveryStop o st s.target)
      (fun r s' => r = .error .io ∨ (r = .ok () ∧ s'.NoPending)) recoverPending s := by
  obtain hno | ⟨hcreated, id, hjournaled⟩ := h.noPending_or
  · refine (recoverPending_of_noPending hno).mono ?_ ?_
    · rintro _ rfl
      exact ⟨h, fun hquiet => hquiet⟩
    · rintro r _ ⟨rfl, rfl⟩
      exact .inr ⟨rfl, hno⟩
  · apply ensures_read
    rw [hjournaled.pending]
    exact recoverPublication_ensures hjournaled hcreated

/-- A recovery that finds a record it cannot read, or more than one publication, changes
nothing. -/
lemma recoverPending_rejected (h : ∀ pending, s.pending = .ok pending → 1 < pending.length) :
    Ensures Action.apply mayFail (fun s' => s' = s) (fun r s' => (∃ e, r = .error e) ∧ s' = s)
      recoverPending s := by
  apply ensures_read
  cases hpending : s.pending with
  | error e => exact ensures_pure ⟨⟨e, rfl⟩, rfl⟩
  | ok pending =>
    have hlength := h pending hpending
    match pending, hlength with
    | _ :: _ :: _, _ => exact ensures_pure ⟨⟨_, rfl⟩, rfl⟩

/-- The removal of a file changes no record. -/
lemma removeIfThere_sameRecords (h : SameRecords s₀ s) :
    Ensures Action.apply mayFail (SameRecords s₀) (fun _ s' => SameRecords s₀ s')
      (removeIfThere name) s := by
  apply ensures_read
  split
  · apply ensures_perform
    · intro s₁ h₁
      have hsame := h.trans (apply_removeTarget h₁).1
      exact ⟨hsame, ensures_pure hsame⟩
    · exact fun _ => ensures_pure h
    · exact fun _ => ensures_pure h
  · exact ensures_pure h

/-- The recovery of files changes no record, whatever was recorded. -/
lemma recoverFiles_sameRecords {original : List String} :
    ∀ (rest : List FileName) {s : Disk α}, SameRecords s₀ s →
      Ensures Action.apply mayFail (SameRecords s₀) (fun _ s' => SameRecords s₀ s')
        (recoverFiles id original rest) s
  | [], s, h => ensures_pure h
  | name :: rest, s, h => by
    rw [recoverFiles]
    apply ensures_read
    split
    · split
      · refine (removeIfThere_sameRecords h).bind ?_
        intro removed s₁ h₁
        split
        · apply ensures_perform
          · intro s₂ h₂
            have hsame := h₁.trans (apply_restore h₂).1
            exact ⟨hsame, recoverFiles_sameRecords rest hsame⟩
          · exact fun _ => ensures_pure h₁
          · exact fun _ => ensures_pure h₁
        · exact ensures_pure h₁
      · exact ensures_pure h
    · split
      · split
        · exact recoverFiles_sameRecords rest h
        · exact ensures_pure h
      · refine (removeIfThere_sameRecords h).bind ?_
        intro removed s₁ h₁
        split
        · exact recoverFiles_sameRecords rest h₁
        · exact ensures_pure h₁

/-- **After a recovery nothing is pending**, whatever the directory was. -/
theorem recoverPending_recovered :
    Ensures Action.apply mayFail (fun _ => True) (fun r s' => r = .ok () → s'.NoPending)
      recoverPending s := by
  apply ensures_read
  split
  · exact ensures_pure nofun
  · next hpending => exact ensures_pure fun _ => pending_eq_nil_iff.mp hpending
  · next id original hpending =>
    have hfiles : Ensures Action.apply mayFail (SameRecords s) (fun _ s' => SameRecords s s')
        (recoverFiles id original stagedPublishOrder) s :=
      recoverFiles_sameRecords stagedPublishOrder (SameRecords.refl s)
    refine (hfiles.mono (fun _ _ => trivial) (fun _ _ h => h)).bind ?_
    intro r s₁ hsame
    split
    · exact ensures_pure nofun
    · apply ensures_perform
      · intro s₂ h₂
        obtain ⟨-, hcommitted, -, hrecord, hothers⟩ := apply_removeRecord h₂
        have hno : s₂.NoPending := by
          intro i hi
          have hne : i ≠ id := by
            rintro rfl
            simp [hrecord] at hi
          rw [hothers i hne, hsame.recordOf] at hi
          rw [hcommitted, hsame.committed]
          exact committed_of_pending hpending hne hi
        refine ⟨trivial, ensures_perform ?_ (fun _ => ensures_pure fun _ => hno)
          (fun _ => ensures_pure fun _ => hno)⟩
        intro s₃ h₃
        obtain ⟨-, hcommitted₃, -, hgenerations⟩ := apply_removeGeneration h₃
        refine ⟨trivial, ensures_pure fun _ i hi => ?_⟩
        rw [recordOf_erase hgenerations] at hi
        rw [hcommitted₃]
        split at hi
        · cases hi
        · exact hno i hi
      · exact fun _ => ensures_pure nofun
      · exact fun _ => ensures_pure nofun
  · exact ensures_pure nofun

/-! ### Retired backups -/

/-- A change of one backup that brings no record. -/
structure Touched (id : GenerationId) (s s' : Disk α) : Prop where
  target : s'.target = s.target
  created : s'.created = s.created
  committed : s'.committed = s.committed
  others : ∀ i, i ≠ id → s'.generations.get? i = s.generations.get? i
  record : (s'.recordOf id).isSome → (s.recordOf id).isSome

lemma Touched.refl (id : GenerationId) (s : Disk α) : Touched id s s :=
  ⟨rfl, rfl, rfl, fun _ _ => rfl, fun h => h⟩

lemma Touched.trans {s'' : Disk α} (h : Touched id s s') (h' : Touched id s' s'') :
    Touched id s s'' :=
  ⟨h'.target.trans h.target, h'.created.trans h.created, h'.committed.trans h.committed,
    fun i hi => (h'.others i hi).trans (h.others i hi), fun hr => h.record (h'.record hr)⟩

/-- A change of a backup that writes no record touches only the backup. -/
lemma touched_of_onGeneration {f : Generation α → Option (Generation α)}
    (hf : ∀ g g', f g = some g' → g'.record.isSome → g.record.isSome)
    (h : s.onGeneration id f = some s') : Touched id s s' := by
  obtain ⟨g, g', hg, hg', rfl⟩ := onGeneration_eq_some.mp h
  refine ⟨rfl, rfl, rfl, fun i hi => ?_, fun hr => ?_⟩
  · simp [Disk.setGeneration, FinMap.get?_insert, hi]
  · rw [recordOf_setGeneration, if_pos rfl] at hr
    rw [recordOf_of_get? hg]
    exact hf g g' hg' hr

/-- The removals of a backup's files touch only the backup. -/
lemma touched_of_apply {action : Action}
    (haction : action ∈ [.removeRecord id, .removeRecordTemp id] ∨
      ∃ name, action = .removeSaved id name)
    (h : action.apply s = some s') : Touched id s s' := by
  simp only [mem_cons, not_mem_nil, or_false] at haction
  obtain (rfl | rfl) | ⟨name, rfl⟩ := haction
  all_goals
    refine touched_of_onGeneration ?_ h
    intro g g' hg
    split at hg
    · rw [← some.inj hg]
      first | exact fun hr => hr | exact nofun
    · cases hg

/-- The removal of a backup touches only the backup. -/
lemma Touched.removeGeneration (h : (Action.removeGeneration id).apply s = some s') :
    Touched id s s' ∧ s'.generations.get? id = none := by
  obtain ⟨htarget, hcommitted, hcreated, hgenerations⟩ := apply_removeGeneration h
  refine ⟨⟨htarget, hcreated, hcommitted, fun i hi => ?_, fun hr => ?_⟩, ?_⟩
  · rw [hgenerations, FinMap.get?_erase, if_neg hi]
  · rw [recordOf_erase hgenerations, if_pos rfl] at hr
    cases hr
  · rw [hgenerations, FinMap.get?_erase_self]

/-- The removal of saved files touches only the backup. -/
lemma removeSavedFiles_ensures :
    ∀ (names : List FileName) {s : Disk α}, Touched id s₀ s →
      Ensures Action.apply mayFail (Touched id s₀) (fun _ s' => Touched id s₀ s')
        (removeSavedFiles id names) s
  | [], s, h => ensures_pure h
  | name :: names, s, h => by
    rw [removeSavedFiles]
    apply ensures_perform
    · intro s₁ h₁
      have htouched := h.trans (touched_of_apply (.inr ⟨name, rfl⟩) h₁)
      exact ⟨htouched, removeSavedFiles_ensures names htouched⟩
    · exact fun _ => removeSavedFiles_ensures names h
    · exact fun _ => ensures_pure h

/-- The removal of the record of a backup touches only the backup. -/
lemma removeRecord_touched (h : Touched id s₀ s) :
    Ensures Action.apply mayFail (Touched id s₀) (fun _ s' => Touched id s₀ s')
      (removeRecord id) s := by
  have htemp : ∀ {s₁ : Disk α}, Touched id s₀ s₁ →
      Ensures Action.apply mayFail (Touched id s₀) (fun _ s' => Touched id s₀ s')
        (do
          let outcome ← Prog.perform (.removeRecordTemp id)
          pure (decide (outcome ≠ .failed))) s₁ := by
    intro s₁ h₁
    apply ensures_perform
    · intro s₂ h₂
      have htouched := h₁.trans (touched_of_apply (.inl (by simp)) h₂)
      exact ⟨htouched, ensures_pure htouched⟩
    · exact fun _ => ensures_pure h₁
    · exact fun _ => ensures_pure h₁
  apply ensures_perform
  · intro s₁ h₁
    have htouched := h.trans (touched_of_apply (.inl (by simp)) h₁)
    exact ⟨htouched, htemp htouched⟩
  · exact fun _ => htemp h
  · exact fun _ => ensures_pure h

/-- The removal of a backup touches only the backup, and if it succeeds the backup is gone. -/
lemma removeGeneration_ensures :
    Ensures Action.apply mayFail (Touched id s)
      (fun gone s' => Touched id s s' ∧ (gone = true → s'.generations.get? id = none))
      (removeGeneration id) s := by
  apply ensures_read
  split
  · refine (removeSavedFiles_ensures stagedPublishOrder (Touched.refl id s)).bind ?_
    intro files s₁ h₁
    split
    · refine (removeRecord_touched h₁).bind ?_
      intro record s₂ h₂
      split
      · apply ensures_perform
        · intro s₃ h₃
          obtain ⟨htouched, hgone⟩ := Touched.removeGeneration h₃
          exact ⟨h₂.trans htouched, ensures_pure ⟨h₂.trans htouched, fun _ => hgone⟩⟩
        · exact fun _ => ensures_pure ⟨h₂, by simp⟩
        · exact fun _ => ensures_pure ⟨h₂, by simp⟩
      · exact ensures_pure ⟨h₂, nofun⟩
    · exact ensures_pure ⟨h₁, nofun⟩
  · next hgone =>
    exact ensures_pure ⟨Touched.refl id s, fun _ => by simpa [FinMap.contains] using hgone⟩

/-- A removal of retired backups: the others stay, and a marker goes only after its backup. -/
structure Cleaned (s s' : Disk α) : Prop where
  target : s'.target = s.target
  created : s'.created = s.created
  committed : s'.committed ⊆ s.committed
  others : ∀ i, i ∉ s.committed → s'.generations.get? i = s.generations.get? i
  records : ∀ i, (s'.recordOf i).isSome →
    (s.recordOf i).isSome ∧ (i ∈ s.committed → i ∈ s'.committed)

lemma Cleaned.refl (s : Disk α) : Cleaned s s :=
  ⟨rfl, rfl, Finset.Subset.refl _, fun _ _ => rfl, fun _ h => ⟨h, fun hi => hi⟩⟩

lemma Cleaned.trans {s'' : Disk α} (h : Cleaned s s') (h' : Cleaned s' s'') :
    Cleaned s s'' where
  target := h'.target.trans h.target
  created := h'.created.trans h.created
  committed := h'.committed.trans h.committed
  others i hi := (h'.others i fun hmem => hi (h.committed hmem)).trans (h.others i hi)
  records i hr := by
    obtain ⟨hr', hkept'⟩ := h'.records i hr
    obtain ⟨hr₀, hkept⟩ := h.records i hr'
    exact ⟨hr₀, fun hi => hkept' (hkept hi)⟩

/-- What touches a committed backup cleans. -/
lemma Touched.cleaned (h : Touched id s s') (hid : id ∈ s.committed) : Cleaned s s' where
  target := h.target
  created := h.created
  committed := h.committed.subset
  others i hi := h.others i fun heq => hi (heq ▸ hid)
  records i hr := by
    refine ⟨?_, fun hi => h.committed ▸ hi⟩
    by_cases heq : i = id
    · exact heq ▸ h.record (heq ▸ hr)
    · rwa [Disk.recordOf, h.others i heq] at hr

/-- The removal of the marker of a backup that is gone cleans. -/
lemma cleaned_of_removeMarker (hgone : s.generations.get? id = none)
    (h : (Action.removeMarker id).apply s = some s') :
    Cleaned s s' ∧ s'.committed = s.committed.erase id := by
  simp only [Action.apply] at h
  split at h
  · obtain rfl := some.inj h
    refine ⟨⟨rfl, rfl, Finset.erase_subset _ _, fun _ _ => rfl, fun i hr => ⟨hr, fun hi => ?_⟩⟩, rfl⟩
    refine Finset.mem_erase.mpr ⟨?_, hi⟩
    rintro rfl
    simp [Disk.recordOf, hgone] at hr
  · cases h

/-- **The removal of retired backups** removes committed ones only. -/
theorem cleanupMarkers_ensures :
    ∀ (ids : List GenerationId) {s : Disk α}, ids.Nodup → (∀ i ∈ ids, i ∈ s.committed) →
      Cleaned s₀ s →
        Ensures Action.apply mayFail (Cleaned s₀) (fun _ s' => Cleaned s₀ s') (cleanupMarkers ids) s
  | [], s, _, _, h => ensures_pure h
  | id :: ids, s, hnodup, hids, h => by
    rw [List.nodup_cons] at hnodup
    have hid : id ∈ s.committed := hids id (by simp)
    rw [cleanupMarkers]
    have hremove : Ensures Action.apply mayFail (Cleaned s₀)
        (fun gone s' => Touched id s s' ∧ (gone = true → s'.generations.get? id = none))
        (removeGeneration id) s :=
      removeGeneration_ensures.mono (fun s₁ h₁ => h.trans (h₁.cleaned hid)) fun _ _ hQ => hQ
    refine hremove.bind ?_
    rintro gone s₁ ⟨htouched, hgone⟩
    have h₁ := h.trans (htouched.cleaned hid)
    have hids₁ : ∀ i ∈ ids, i ∈ s₁.committed := fun i hi =>
      htouched.committed ▸ hids i (by simp [hi])
    split
    · next hg =>
      apply ensures_perform
      · intro s₂ h₂
        obtain ⟨hcleaned, hcommitted⟩ := cleaned_of_removeMarker (hgone hg) h₂
        refine ⟨h₁.trans hcleaned, cleanupMarkers_ensures ids hnodup.2 (fun i hi => ?_)
          (h₁.trans hcleaned)⟩
        rw [hcommitted]
        refine Finset.mem_erase.mpr ⟨?_, hids₁ i hi⟩
        rintro rfl
        exact hnodup.1 hi
      · exact fun _ => cleanupMarkers_ensures ids hnodup.2 hids₁ h₁
      · exact fun _ => cleanupMarkers_ensures ids hnodup.2 hids₁ h₁
    · exact cleanupMarkers_ensures ids hnodup.2 hids₁ h₁

/-- The removal of retired backups keeps every backup that is not committed. -/
lemma cleanupRetired_ensures :
    Ensures Action.apply mayFail (Cleaned s) (fun _ s' => Cleaned s s') cleanupRetired s := by
  apply ensures_read
  refine cleanupMarkers_ensures _ (Finset.sort_nodup _ _) (fun i hi => ?_) (Cleaned.refl s)
  exact (Finset.mem_sort _).mp hi

/-- It leaves a directory whose publication was stopped to recovery. -/
lemma Cleaned.recoverable (h : Cleaned s s') (hrecoverable : Recoverable o st s) :
    Recoverable o st s' := by
  have hno : s.NoPending → s'.NoPending := by
    intro hno i hi
    obtain ⟨hr, hkept⟩ := h.records i hi
    exact hkept (hno i hr)
  refine ⟨fun hcreated => ?_, fun hcreated => ?_⟩
  · rw [h.created] at hcreated
    obtain ⟨hnone, htarget⟩ | ⟨id, hj⟩ := hrecoverable.uncommitted hcreated
    · exact .inl ⟨hno hnone, h.target.trans htarget⟩
    · have hsame := h.others id hj.uncommitted
      refine .inr ⟨id, ?_, fun hid => hj.uncommitted (h.committed hid), fun i hi hr => ?_, fun n => ?_⟩
      · rw [Disk.recordOf, hsame]
        exact hj.record
      · obtain ⟨hr', hkept⟩ := h.records i hr
        exact hkept (hj.others i hi hr')
      · rw [h.target, Disk.savedIn, hsame]
        exact hj.files n
  · rw [h.created] at hcreated
    obtain ⟨hnone, htarget⟩ := hrecoverable.committed hcreated
    exact ⟨hno hnone, h.target.trans htarget⟩

end Publish

end Tgrep
