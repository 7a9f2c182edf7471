import Tgrep.Publish.Recovery

/-!
# Publication is all or nothing

A publication may be stopped between any two of its actions, and any action may fail. What is
found afterwards is undone by recovery or is the new generation.

A recovery that finds the new `meta.json` in its place replaces the core files beside it, and so
does a rollback after the removal of a new core file failed: these are the two ways in which
`meta.json` comes to stand beside a mixture.

## Main definitions

* `Publish.Moving`: a publication under way, as its rollback sees it.
* `Publish.Crashed`: the directories after a publication and any number of recoveries, each
  stopped anywhere.

## Main results

* `Publish.rollback_ensures`: a rollback that succeeds leaves the original files.
* `Publish.publishStagedIndex_ensures`: what a publication leaves behind.
* `Publish.all_or_nothing`: after a recovery a directory is one generation, and `meta.json` is
  beside a mixture only after the two cases above.
-/

namespace Tgrep

open List Option

namespace Publish

open Crash

variable {α : Type} {s s' : Disk α} {id : GenerationId} {name : FileName}
  {mayFail : Action → Prop} {o st : Files α} {m : StagedFileMove}

/-- No removal of a core file fails. -/
def RemovesCore (mayFail : Action → Prop) : Prop :=
  ∀ n ∈ coreIndexFileNames, ¬ mayFail (.removeTarget n)

/-- Where a publication may be stopped. -/
structure Stoppable (mayFail : Action → Prop) (o st : Files α) (s : Disk α) : Prop where
  recoverable : Recoverable o st s
  sane : RemovesCore mayFail → Sane o st s.target

/-- A program that may be stopped at any action, and leaves a state with `Q`. -/
abbrev Safely (mayFail : Action → Prop) (o st : Files α) {β : Type} (Q : β → Disk α → Prop)
    (prog : Prog (Disk α) Action β) (s : Disk α) : Prop :=
  Ensures Action.apply mayFail (Stoppable mayFail o st) Q prog s

/-- An untouched directory may be stopped. -/
lemma Untouched.stoppable (h : Untouched o s) : Stoppable mayFail o st s where
  recoverable := RecoveryStop.recoverable (h.stop o)
  sane _ := by
    rw [h.target]
    exact fun _ hmixed => not_hasNew_self hmixed.1

/-! ### Rollback -/

/-- A publication under way: what it published was saved or new, and what it did not publish is
not new. -/
structure Moving (o st : Files α) (m : StagedFileMove) (s : Disk α) : Prop where
  created : s.created = ∅
  journaled : Journaled o m.backup s
  published : ∀ n ∈ m.published, s.savedIn m.backup n = o n
  absent : ∀ n, n ∉ m.published → o n = none → s.target n = none
  backedUp : ∀ n, (s.savedIn m.backup n).isSome → n ∈ m.backedUp
  fresh : ∀ n, Differs o st n → s.target n = st n → n ∈ m.published
  sane : Sane o st s.target

/-- A publication under way may be stopped. -/
lemma Moving.stoppable (h : Moving o st m s) : Stoppable mayFail o st s :=
  ⟨h.journaled.recoverable h.created, fun _ => h.sane⟩

/-- What the removal of published files leaves of a state. -/
structure Unwound (id : GenerationId) (s s' : Disk α) : Prop where
  same : SameRecords s s'
  savedIn : s'.savedIn id = s.savedIn id
  target : ∀ n, s'.target n = s.target n ∨ s'.target n = none

lemma Unwound.refl (id : GenerationId) (s : Disk α) : Unwound id s s :=
  ⟨SameRecords.refl s, rfl, fun _ => .inl rfl⟩

variable {s'' s₁ : Disk α} {rest : List FileName}

lemma Unwound.trans (h : Unwound id s s') (h' : Unwound id s' s'') : Unwound id s s'' := by
  refine ⟨h.same.trans h'.same, h'.savedIn.trans h.savedIn, fun n => ?_⟩
  obtain heq | hnone := h'.target n
  · rw [heq]
    exact h.target n
  · exact .inr hnone

/-- **The removal of published files** removes those whose removal does not fail.

**Proof sketch.** Induction on the files. Each was saved or is new, so without it the publication
is still undone by recovery; and a removal brings no old or new file. -/
theorem removePublished_ensures :
    ∀ (names : List FileName) {s : Disk α}, s.created = ∅ → Journaled o id s →
      Sane o st s.target → (∀ n ∈ names, s.savedIn id n = o n) →
        Safely mayFail o st
          (fun pending s' => Unwound id s s' ∧ Journaled o id s' ∧ Sane o st s'.target ∧
            (∀ n ∈ names, n ∉ pending → s'.target n = none) ∧
            ∀ n ∈ pending, mayFail (.removeTarget n))
          (removePublished names) s
  | [], s, _, hjournaled, hsane, _ =>
    ensures_pure ⟨Unwound.refl id s, hjournaled, hsane, by simp, by simp⟩
  | name :: names, s, hcreated, hjournaled, hsane, hsaved => by
    rw [removePublished]
    apply ensures_perform
    · intro s₁ h₁
      obtain ⟨hsame, -, htarget, hsavedIn⟩ := apply_removeTarget h₁
      have hj₁ := hjournaled.removeTarget (hsaved name (by simp)) hsame htarget (hsavedIn id)
      have hc₁ : s₁.created = ∅ := hsame.created.trans hcreated
      have hunwound : Unwound id s s₁ :=
        ⟨hsame, hsavedIn id, fun n => htarget ▸ Files.set_none_or _ _ _⟩
      have hs₁ := hsane.of_removed hunwound.target
      refine ⟨⟨hj₁.recoverable hc₁, fun _ => hs₁⟩, ?_⟩
      refine (removePublished_ensures names hc₁ hj₁ hs₁ fun n hn => ?_).bind ?_
      · rw [hsavedIn]
        exact hsaved n (by simp [hn])
      · rintro pending s₂ ⟨h₂, hj₂, hs₂, hgone, hfailed⟩
        refine ensures_pure ⟨hunwound.trans h₂, hj₂, hs₂, fun n hn hp => ?_, hfailed⟩
        obtain rfl | hn := List.mem_cons.mp hn
        · obtain heq | hnone := h₂.target n
          · rw [heq, htarget, Files.set_self]
          · exact hnone
        · exact hgone n hn hp
    · intro hrefused
      have hnone := removeTarget_refused hrefused
      refine (removePublished_ensures names hcreated hjournaled hsane
        fun n hn => hsaved n (by simp [hn])).bind ?_
      rintro pending s₂ ⟨h₂, hj₂, hs₂, hgone, hfailed⟩
      refine ensures_pure ⟨h₂, hj₂, hs₂, fun n hn hp => ?_, hfailed⟩
      obtain rfl | hn := List.mem_cons.mp hn
      · obtain heq | hnone' := h₂.target n
        · rw [heq, hnone]
        · exact hnone'
      · exact hgone n hn hp
    · intro hfail
      refine (removePublished_ensures names hcreated hjournaled hsane
        fun n hn => hsaved n (by simp [hn])).bind ?_
      rintro pending s₂ ⟨h₂, hj₂, hs₂, hgone, hfailed⟩
      refine ensures_pure ⟨h₂, hj₂, hs₂, fun n hn hp => ?_, fun n hn => ?_⟩
      · rw [mem_cons, not_or] at hp
        obtain rfl | hn := List.mem_cons.mp hn
        · exact absurd rfl hp.1
        · exact hgone n hn hp.2
      · obtain rfl | hn := List.mem_cons.mp hn
        · exact hfail
        · exact hfailed n hn

/-- What the return of saved files leaves of a state. -/
structure Returned (o : Files α) (id : GenerationId) (s s' : Disk α) : Prop where
  created : s'.created = s.created
  savedIn : ∀ n, s'.savedIn id n = s.savedIn id n ∨ s'.savedIn id n = none
  target : ∀ n, o n = none → s'.target n = s.target n

lemma Returned.refl (o : Files α) (id : GenerationId) (s : Disk α) : Returned o id s s :=
  ⟨rfl, fun _ => .inl rfl, fun _ _ => rfl⟩

lemma Returned.trans (h : Returned o id s s') (h' : Returned o id s' s'') :
    Returned o id s s'' := by
  refine ⟨h'.created.trans h.created, fun n => ?_, fun n hn => (h'.target n hn).trans (h.target n hn)⟩
  obtain heq | hnone := h'.savedIn n
  · rw [heq]
    exact h.savedIn n
  · exact .inr hnone

/-- **The return of saved files** brings old files only. -/
theorem restoreBackups_ensures (kept : List FileName) :
    ∀ (names : List FileName) {s : Disk α}, s.created = ∅ → Journaled o id s →
      (RemovesCore mayFail → ¬ HasNew o st s.target) →
        Safely mayFail o st (fun result s' => Returned o id s s' ∧ Journaled o id s' ∧
            (result.2 = false → ∀ n ∈ names, n ∉ kept → s'.savedIn id n = none))
          (restoreBackups id kept names) s
  | [], s, _, hjournaled, _ =>
    ensures_pure ⟨Returned.refl o id s, hjournaled, by simp⟩
  | name :: names, s, hcreated, hjournaled, hnew => by
    rw [restoreBackups]
    split
    · next hkept =>
      refine (restoreBackups_ensures kept names hcreated hjournaled hnew).bind ?_
      rintro ⟨pending, failed⟩ s₁ ⟨h₁, hj₁, hgone⟩
      refine ensures_pure ⟨h₁, hj₁, fun hf n hn hk => ?_⟩
      obtain rfl | hn := mem_cons.mp hn
      · exact absurd hkept hk
      · exact hgone hf n hn hk
    · apply ensures_perform
      · intro s₁ h₁
        obtain ⟨hsame, -, hsome, htarget, hsavedIn⟩ := apply_restore h₁
        have hsaved : s.savedIn id name = o name := by
          obtain hsaved | ⟨hnone, -⟩ := hjournaled.files name
          · exact hsaved
          · simp [hnone] at hsome
        have hj₁ := hjournaled.restore hsaved hsame htarget hsavedIn
        have hc₁ : s₁.created = ∅ := hsame.created.trans hcreated
        rw [hsaved] at htarget hsome
        have hn₁ : RemovesCore mayFail → ¬ HasNew o st s₁.target := by
          intro hremoves hn
          rw [htarget] at hn
          exact hnew hremoves hn.of_set_old
        have hreturned : Returned o id s s₁ := by
          refine ⟨hsame.created, fun n => hsavedIn ▸ Files.set_none_or _ _ _, fun n hn => ?_⟩
          rw [htarget, Files.set_of_ne]
          rintro rfl
          simp [hn] at hsome
        refine ⟨⟨hj₁.recoverable hc₁, fun hr _ hmixed => hn₁ hr hmixed.1⟩, ?_⟩
        refine (restoreBackups_ensures kept names hc₁ hj₁ hn₁).bind ?_
        rintro ⟨pending, failed⟩ s₂ ⟨h₂, hj₂, hgone⟩
        refine ensures_pure ⟨hreturned.trans h₂, hj₂, fun hf n hn hk => ?_⟩
        obtain rfl | hn := mem_cons.mp hn
        · obtain heq | hnone := h₂.savedIn n
          · rw [heq, hsavedIn, Files.set_self]
          · exact hnone
        · exact hgone hf n hn hk
      · intro hrefused
        have hnone := restore_refused hrefused
        refine (restoreBackups_ensures kept names hcreated hjournaled hnew).bind ?_
        rintro ⟨pending, failed⟩ s₂ ⟨h₂, hj₂, hgone⟩
        refine ensures_pure ⟨h₂, hj₂, fun hf n hn hk => ?_⟩
        obtain rfl | hn := mem_cons.mp hn
        · obtain heq | hnone' := h₂.savedIn n
          · rw [heq, hnone]
          · exact hnone'
        · exact hgone hf n hn hk
      · intro _
        refine (restoreBackups_ensures kept names hcreated hjournaled hnew).bind ?_
        rintro ⟨pending, failed⟩ s₂ ⟨h₂, hj₂, -⟩
        exact ensures_pure ⟨h₂, hj₂, nofun⟩

/-- Without a record a directory is untouched. -/
lemma Untouched.removeRecord (h : Untouched o s)
    (happly : (Action.removeRecord id).apply s = some s') : Untouched o s' := by
  obtain ⟨htarget, hcommitted, hcreated, hrecord, hothers⟩ := apply_removeRecord happly
  refine ⟨hcreated.trans h.created, fun i hi => ?_, htarget.trans h.target⟩
  by_cases hid : i = id
  · rw [hid, hrecord] at hi
    cases hi
  · rw [hcommitted]
    exact h.noPending i (hothers i hid ▸ hi)

/-- A change that keeps the records leaves a directory untouched. -/
lemma Untouched.congr (h : Untouched o s) (htarget : s'.target = s.target)
    (hsame : SameRecords s s') : Untouched o s' :=
  ⟨hsame.created.trans h.created, h.noPending.congr hsame, htarget.trans h.target⟩

/-- The removal of the record completes a rollback. -/
lemma removeRecord_ensures (h : Untouched o s ∨ (s.created = ∅ ∧ Journaled o id s ∧ s.target = o)) :
    Safely mayFail o st
      (fun removed s' => removed = true → Untouched o s') (removeRecord id) s := by
  have htemp : ∀ {s₁ : Disk α}, Untouched o s₁ →
      Safely mayFail o st (fun removed s' => removed = true → Untouched o s')
        (do
          let outcome ← Prog.perform (.removeRecordTemp id)
          pure (decide (outcome ≠ .failed))) s₁ := by
    intro s₁ h₁
    apply ensures_perform
    · intro s₂ h₂
      obtain ⟨htarget, hsame⟩ := apply_removeRecordTemp h₂
      have huntouched := h₁.congr htarget hsame
      exact ⟨huntouched.stoppable, ensures_pure fun _ => huntouched⟩
    · exact fun _ => ensures_pure fun _ => h₁
    · exact fun _ => ensures_pure fun _ => h₁
  apply ensures_perform
  · intro s₁ h₁
    have huntouched : Untouched o s₁ := by
      obtain h | ⟨hcreated, hj, htarget⟩ := h
      · exact h.removeRecord h₁
      · exact hj.untouched hcreated htarget h₁
    exact ⟨huntouched.stoppable, htemp huntouched⟩
  · intro hrefused
    have hnone := removeRecord_refused hrefused
    obtain h | ⟨-, hj, -⟩ := h
    · exact htemp h
    · rw [hj.record] at hnone
      cases hnone
  · exact fun _ => ensures_pure nofun

/-- A publication whose published files are gone and whose saved files have returned leaves the
original files. -/
lemma Moving.target_eq {s₂ : Disk α} (h : Moving o st m s) (h₁ : Unwound m.backup s s₁)
    (hgone₁ : ∀ n ∈ m.published, s₁.target n = none) (h₂ : Returned o m.backup s₁ s₂)
    (hgone₂ : ∀ n ∈ m.backedUp, s₂.savedIn m.backup n = none) (hj₂ : Journaled o m.backup s₂) :
    s₂.target = o := by
  funext n
  cases hn : o n with
  | none =>
    rw [h₂.target n hn]
    by_cases hp : n ∈ m.published
    · exact hgone₁ n hp
    · obtain heq | hnone := h₁.target n
      · rw [heq]
        exact h.absent n hp hn
      · exact hnone
  | some content =>
    have hnone : s₂.savedIn m.backup n = none := by
      obtain heq | hnone := h₂.savedIn n
      · by_cases hb : n ∈ m.backedUp
        · exact hgone₂ n hb
        · rw [heq, h₁.savedIn]
          by_contra hne
          exact hb (h.backedUp n (Option.isSome_iff_ne_none.mpr hne))
      · exact hnone
    obtain hsaved | ⟨-, htarget⟩ := hj₂.files n
    · rw [hnone, hn] at hsaved
      cases hsaved
    · rw [htarget, hn]

/-- **A rollback** that succeeds leaves the original files and nothing pending.

**Proof sketch.** The published files go first. If the removal of none of the new core files
failed, no new file is left, and what returns is old. Only when every published file is gone and
every saved file is back does the record go. -/
theorem rollback_ensures (h : Moving o st m s) :
    Safely mayFail o st (fun done s' => done = true → Untouched o s') (rollback m) s := by
  refine (removePublished_ensures m.published.reverse h.created h.journaled h.sane
    fun n hn => h.published n (List.mem_reverse.mp hn)).bind ?_
  rintro pending s₁ ⟨h₁, hj₁, -, hgone₁, hfailed⟩
  have hc₁ : s₁.created = ∅ := h₁.same.created.trans h.created
  have hnew : RemovesCore mayFail → ¬ HasNew o st s₁.target := by
    rintro hremoves ⟨n, hn, heq⟩
    have hsome : s₁.target n ≠ none := by
      rw [heq]
      exact Option.isSome_iff_ne_none.mp hn.2.1
    have hold : s.target n = st n := by
      obtain hsame | hnone := h₁.target n
      · rw [← hsame, heq]
      · exact absurd hnone hsome
    have hpublished := List.mem_reverse.mpr (h.fresh n hn hold)
    by_cases hp : n ∈ pending
    · exact hremoves n hn.1 (hfailed n hp)
    · exact hsome (hgone₁ n hpublished hp)
  refine (restoreBackups_ensures pending m.backedUp.reverse hc₁ hj₁ hnew).bind ?_
  rintro ⟨left, failed⟩ s₂ ⟨h₂, hj₂, hgone₂⟩
  dsimp only
  split
  · exact ensures_pure nofun
  · next hok =>
    rw [Bool.or_eq_true, not_or, Bool.not_eq_true, Bool.not_eq_true, Bool.not_eq_false',
      List.isEmpty_iff] at hok
    obtain ⟨rfl, rfl⟩ := hok
    have htarget : s₂.target = o := by
      refine h.target_eq h₁ (fun n hn => ?_) h₂ (fun n hn => ?_) hj₂
      · exact hgone₁ n (List.mem_reverse.mpr hn) (by simp)
      · exact hgone₂ rfl n (List.mem_reverse.mpr hn) (by simp)
    refine (removeRecord_ensures (.inr ⟨h₂.created.trans hc₁, hj₂, htarget⟩)).bind ?_
    intro removed s₃ h₃
    split
    · next hremoved =>
      have huntouched := h₃ hremoved
      apply ensures_perform
      · intro s₄ h₄
        have hgone := huntouched.removeGeneration h₄
        exact ⟨hgone.stoppable, ensures_pure fun _ => hgone⟩
      · exact fun _ => ensures_pure fun _ => huntouched
      · exact fun _ => ensures_pure fun _ => huntouched
    · exact ensures_pure nofun

/-- A publication that has moved nothing is given up. -/
lemma rollback_ensures_untouched (h : Untouched o s) (id : GenerationId) :
    Safely mayFail o st
      (fun done s' => done = true → Untouched o s') (rollback ⟨id, [], []⟩) s := by
  change Safely mayFail o st _ (do
    let removed ← removeRecord id
    if removed then
      let _ ← Prog.perform (.removeGeneration id)
      pure true
    else pure false) s
  refine (removeRecord_ensures (.inl h)).bind ?_
  intro removed s₁ h₁
  split
  · next hremoved =>
    have huntouched := h₁ hremoved
    apply ensures_perform
    · intro s₂ h₂
      have hgone := huntouched.removeGeneration h₂
      exact ⟨hgone.stoppable, ensures_pure fun _ => hgone⟩
    · exact fun _ => ensures_pure fun _ => huntouched
    · exact fun _ => ensures_pure fun _ => huntouched
  · exact ensures_pure nofun

/-- A publication that is given up has failed only if its directory is untouched. -/
lemma fail_ensures (h : Moving o st m s ∨ (Untouched o s ∧ ∃ id, m = ⟨id, [], []⟩)) :
    Safely mayFail o st
      (fun status s' => status ≠ .published ∧ (status = .failed → Untouched o s')) (fail m) s := by
  have hrollback : Safely mayFail o st
      (fun done s' => done = true → Untouched o s') (rollback m) s := by
    obtain h | ⟨h, id, rfl⟩ := h
    · exact rollback_ensures h
    · exact rollback_ensures_untouched h id
  refine hrollback.bind ?_
  rintro (_ | _) s₁ h₁
  · exact ensures_pure ⟨nofun, nofun⟩
  · exact ensures_pure ⟨nofun, fun _ => h₁ rfl⟩

/-! ### Moving files -/

/-- A backup of an original file. -/
lemma Moving.backUp (h : Moving o st m s) (htarget : s.target name = o name)
    (happly : (Action.backUp m.backup name).apply s = some s') :
    Moving o st { m with backedUp := m.backedUp ++ [name] } s' := by
  obtain ⟨hsame, -, htarget', hsavedIn⟩ := apply_backUp happly
  have hremoved : ∀ n, s'.target n = s.target n ∨ s'.target n = none := by
    intro n
    rw [htarget']
    exact Files.set_none_or _ _ _
  refine ⟨hsame.created.trans h.created, h.journaled.congr hsame fun n => ?_, fun n hn => ?_,
    fun n hn ho => ?_, fun n hn => ?_, fun n hn heq => ?_, h.sane.of_removed hremoved⟩
  · rw [hsavedIn, htarget']
    by_cases hname : n = name
    · rw [hname, Files.set_self, htarget]
      exact .inl rfl
    · rw [Files.set_of_ne _ _ hname, Files.set_of_ne _ _ hname]
      exact h.journaled.files n
  · simp only [hsavedIn]
    by_cases hname : n = name
    · rw [hname, Files.set_self, htarget]
    · rw [Files.set_of_ne _ _ hname]
      exact h.published n hn
  · obtain heq | hnone := hremoved n
    · rw [heq]
      exact h.absent n hn ho
    · exact hnone
  · simp only [hsavedIn] at hn
    by_cases hname : n = name
    · simp [hname]
    · rw [Files.set_of_ne _ _ hname] at hn
      simp [h.backedUp n hn]
  · obtain hkept | hnone := hremoved n
    · exact h.fresh n hn (hkept ▸ heq)
    · rw [hnone] at heq
      simp [← heq, Differs] at hn

/-- The publication of a file that is not there. -/
lemma Moving.publish (h : Moving o st m s) (htarget : s.target name = none)
    (happly : (Action.publish name).apply s = some s') (hsane : Sane o st s'.target) :
    Moving o st { m with published := m.published ++ [name] } s' := by
  obtain ⟨hsame, -, -, htarget', hsavedIn⟩ := apply_publish happly
  have hsaved : s.savedIn m.backup name = o name := by
    obtain hsaved | ⟨hnone, hplace⟩ := h.journaled.files name
    · exact hsaved
    · rw [hnone, ← hplace, htarget]
  refine ⟨hsame.created.trans h.created, h.journaled.congr hsame fun n => ?_, fun n hn => ?_,
    fun n hn ho => ?_, fun n hn => ?_, fun n hn heq => ?_, hsane⟩
  · rw [hsavedIn, htarget']
    by_cases hname : n = name
    · rw [hname]
      exact .inl hsaved
    · rw [Files.set_of_ne _ _ hname]
      exact h.journaled.files n
  · simp only [hsavedIn]
    obtain hn | hn := mem_append.mp hn
    · exact h.published n hn
    · rw [mem_singleton.mp hn]
      exact hsaved
  · simp only [mem_append, mem_singleton, not_or] at hn
    rw [htarget', Files.set_of_ne _ _ hn.2]
    exact h.absent n hn.1 ho
  · simp only [hsavedIn] at hn
    exact h.backedUp n hn
  · by_cases hname : n = name
    · simp [hname]
    · rw [htarget', Files.set_of_ne _ _ hname] at heq
      simp [h.fresh n hn heq]

/-- The evidence and `meta.json`, in the order in which they are withdrawn. -/
def withdrawn : List FileName := [.filestamps, .metaJson]

/-- A publication that has withdrawn all but some files. -/
structure Withdrawing (o st : Files α) (rest : List FileName) (m : StagedFileMove) (s : Disk α) :
    Prop where
  moving : Moving o st m s
  published : m.published = []
  staging : s.staging = st
  target : ∀ n, s.target n = if n ∈ withdrawn ∧ n ∉ rest then none else o n

/-- **The withdrawal** of evidence and coverage. -/
theorem withdraw_ensures :
    ∀ (rest : List FileName) {m : StagedFileMove} {s : Disk α}, rest <:+ withdrawn →
      Withdrawing o st rest m s →
        Safely mayFail o st (fun r s' => match r with
            | .ok m' => Withdrawing o st [] m' s'
            | .error m' => Moving o st m' s')
          (withdraw rest m) s
  | [], m, s, _, h => ensures_pure h
  | name :: rest, m, s, hsuffix, h => by
    have hrest : rest <:+ withdrawn := (suffix_cons name rest).trans hsuffix
    have hnodup : (name :: rest).Nodup := hsuffix.sublist.nodup (by decide)
    rw [nodup_cons] at hnodup
    have hname : name ∈ withdrawn := hsuffix.subset (by simp)
    have htarget : s.target name = o name := by
      rw [h.target, if_neg (by simp)]
    have hothers : ∀ n, n ≠ name → (n ∈ withdrawn ∧ n ∉ name :: rest ↔ n ∈ withdrawn ∧ n ∉ rest) := by
      intro n hn
      simp [hn]
    rw [withdraw]
    apply ensures_read
    split
    · apply ensures_perform
      · intro s₁ h₁
        have hmoving := h.moving.backUp htarget h₁
        obtain ⟨-, hstaging, htarget', -⟩ := apply_backUp h₁
        refine ⟨hmoving.stoppable, withdraw_ensures rest hrest
          ⟨hmoving, h.published, hstaging.trans h.staging, fun n => ?_⟩⟩
        rw [htarget']
        by_cases hn : n = name
        · rw [hn, Files.set_self, if_pos ⟨hname, hnodup.1⟩]
        · rw [Files.set_of_ne _ _ hn, h.target, if_congr (hothers n hn) rfl rfl]
      · exact fun _ => ensures_pure h.moving
      · exact fun _ => ensures_pure h.moving
    · next hnone =>
      rw [Bool.not_eq_true, isSome_eq_false_iff, isNone_iff_eq_none] at hnone
      refine withdraw_ensures rest hrest ⟨h.moving, h.published, h.staging, fun n => ?_⟩
      by_cases hn : n = name
      · rw [hn, if_pos ⟨hname, hnodup.1⟩, hnone]
      · rw [h.target, if_congr (hothers n hn) rfl rfl]

/-- A publication that has processed all but some files. -/
structure Publishing (o st : Files α) (rest : List FileName) (m : StagedFileMove) (s : Disk α) :
    Prop where
  moving : Moving o st m s
  staging : ∀ n ∈ rest, s.staging n = st n
  placed : ∀ n ∈ m.published, s.target n = st n ∧ (st n).isSome ∧ n ∉ rest
  processed : ∀ n, n ∉ rest → (st n).isSome → n ∈ m.published
  kept : ∀ n, n ∉ m.published → s.target n = if n ∈ withdrawn then none else o n

/-- What is processed at the end is the new generation. -/
lemma Publishing.target_eq (h : Publishing o st [] m s) (hmeta : (st .metaJson).isSome) :
    s.target = published o st := by
  funext n
  rw [published]
  by_cases hn : (st n).isSome
  · rw [if_pos hn, (h.placed n (h.processed n (by simp) hn)).1]
  · rw [if_neg hn, h.kept n fun hp => hn (h.placed n hp).2.1]
    cases n <;> simp [withdrawn]
    exact absurd hmeta hn

/-- A core file, or `meta.json`, is backed up before it is replaced. -/
lemma backUpTarget_ensures (h : Publishing o st (name :: rest) m s) :
    Safely mayFail o st (fun r s' => match r with
        | .ok m' => Moving o st m' s' ∧ m'.published = m.published ∧ s'.staging = s.staging ∧
            s'.target name = none ∧ ∀ n, n ≠ name → s'.target n = s.target n
        | .error m' => Moving o st m' s')
      (backUpTarget name m) s := by
  have hunpublished : name ∉ m.published := fun hp => (h.placed name hp).2.2 (by simp)
  have hkept := h.kept name hunpublished
  rw [backUpTarget]
  apply ensures_read
  split
  · next hcond =>
    have htarget : s.target name = o name := by
      rw [hkept]
      split
      · next hw =>
        rw [hkept, if_pos hw] at hcond
        simp at hcond
      · rfl
    apply ensures_perform
    · intro s₁ h₁
      have hmoving := h.moving.backUp htarget h₁
      obtain ⟨-, hstaging, htarget', -⟩ := apply_backUp h₁
      refine ⟨hmoving.stoppable, ensures_pure ⟨hmoving, rfl, hstaging, ?_, fun n hn => ?_⟩⟩
      · rw [htarget', Files.set_self]
      · rw [htarget', Files.set_of_ne _ _ hn]
    · exact fun _ => ensures_pure h.moving
    · exact fun _ => ensures_pure h.moving
  · next hcond =>
    refine ensures_pure ⟨h.moving, rfl, rfl, ?_, fun _ _ => rfl⟩
    by_cases hname : name = .filestamps
    · rw [hkept, hname]
      rfl
    · simpa [hname] using hcond

/-- A staged file is published whole, or the publication is given up. -/
lemma publishStagedFile_ensures (hsync : ¬ mayFail .syncTarget) (h : Moving o st m s)
    (htarget : s.target name = none)
    (hsane : ∀ s', (Action.publish name).apply s = some s' → Sane o st s'.target) :
    Safely mayFail o st (fun done s' => (done = true ∧ (Action.publish name).apply s = some s' ∧
          Moving o st { m with published := m.published ++ [name] } s') ∨
        (done = false ∧ Moving o st m s'))
      (publishStagedFile name) s := by
  apply ensures_perform
  · intro s₁ h₁
    obtain rfl : s = s₁ := by
      simp only [Action.apply] at h₁
      split at h₁
      · exact some.inj h₁
      · cases h₁
    refine ⟨h.stoppable, ensures_perform ?_ ?_ ?_⟩
    · intro s₂ h₂
      have hmoving := h.publish htarget h₂ (hsane s₂ h₂)
      refine ⟨hmoving.stoppable, ensures_perform ?_ (by rintro ⟨⟩) fun hf => absurd hf hsync⟩
      intro s₃ h₃
      obtain rfl := some.inj h₃
      exact ⟨hmoving.stoppable, ensures_pure (.inl ⟨rfl, h₂, hmoving⟩)⟩
    · exact fun _ => ensures_pure (.inr ⟨rfl, h⟩)
    · exact fun _ => ensures_pure (.inr ⟨rfl, h⟩)
  · exact fun _ => ensures_pure (.inr ⟨rfl, h⟩)
  · exact fun _ => ensures_pure (.inr ⟨rfl, h⟩)

/-- `meta.json` follows every other file in the order of publication. -/
lemma metaJson_mem_of_suffix (h : (name :: rest) <:+ stagedPublishOrder)
    (hname : name ≠ .metaJson) : .metaJson ∈ rest := by
  simp only [stagedPublishOrder, coreIndexFileNames, cons_append, nil_append,
    suffix_cons_iff, cons.injEq, suffix_nil, reduceCtorEq, or_false] at h
  rcases h with ⟨-, rfl⟩ | ⟨-, rfl⟩ | ⟨-, rfl⟩ | ⟨-, rfl⟩ | ⟨-, rfl⟩ | ⟨rfl, -⟩
  · simp
  · simp
  · simp
  · simp
  · simp
  · exact absurd rfl hname

/-- The publication of a file leaves `meta.json` apart from a mixture: it comes last. -/
lemma Publishing.sane (hsuffix : (name :: rest) <:+ stagedPublishOrder)
    (h : Publishing o st (name :: rest) m s) (hothers : ∀ n, n ≠ name → s₁.target n = s.target n)
    (happly : (Action.publish name).apply s₁ = some s') : Sane o st s'.target := by
  obtain ⟨-, -, -, htarget, -⟩ := apply_publish happly
  have hsame : ∀ n, n ≠ name → s'.target n = s.target n := by
    intro n hn
    rw [htarget, Files.set_of_ne _ _ hn, hothers n hn]
  by_cases hname : name = .metaJson
  · -- every staged core file is in its place
    subst hname
    obtain rfl := eq_nil_of_metaJson hsuffix
    rintro - ⟨-, n, hn, -, heq⟩
    have hne : n ≠ .metaJson := by
      rintro rfl
      exact absurd hn.1 (by decide)
    rw [hsame n hne, (h.placed n (h.processed n (by simpa using hne) hn.2.1)).1] at heq
    exact hn.2.2 heq
  · intro hmeta
    have hrest : FileName.metaJson ∈ name :: rest :=
      mem_cons_of_mem _ (metaJson_mem_of_suffix hsuffix hname)
    rw [hsame _ (Ne.symm hname), h.kept .metaJson fun hp => (h.placed _ hp).2.2 hrest] at hmeta
    simp [withdrawn] at hmeta

/-- **The staged files** are published in order.

**Proof sketch.** Induction on the files to go. Before a file is published nothing is in its place:
a core file was backed up, and evidence and `meta.json` were withdrawn. -/
theorem publishAll_ensures (hsync : ¬ mayFail .syncTarget) :
    ∀ (rest : List FileName) {m : StagedFileMove} {s : Disk α}, rest <:+ stagedPublishOrder →
      Publishing o st rest m s →
        Safely mayFail o st (fun r s' => match r with
            | .ok m' => Publishing o st [] m' s'
            | .error m' => Moving o st m' s')
          (publishAll rest m) s
  | [], m, s, _, h => ensures_pure h
  | name :: rest, m, s, hsuffix, h => by
    have hrest : rest <:+ stagedPublishOrder := (suffix_cons name rest).trans hsuffix
    have hnodup : (name :: rest).Nodup := hsuffix.sublist.nodup (by decide)
    rw [nodup_cons] at hnodup
    rw [publishAll]
    apply ensures_read
    split
    · next hnone =>
      rw [h.staging name (by simp), isNone_iff_eq_none] at hnone
      refine publishAll_ensures hsync rest hrest ⟨h.moving, fun n hn => h.staging n (by simp [hn]),
        fun n hn => ?_, fun n hn hsome => ?_, h.kept⟩
      · obtain ⟨htarget, hsome, hmem⟩ := h.placed n hn
        exact ⟨htarget, hsome, fun hr => hmem (by simp [hr])⟩
      · refine h.processed n ?_ hsome
        rw [mem_cons, not_or]
        refine ⟨?_, hn⟩
        rintro rfl
        simp [hnone] at hsome
    · next hsome =>
      have hstaged : (st name).isSome := by
        rw [← h.staging name (by simp)]
        simpa [isSome_iff_ne_none] using hsome
      refine (backUpTarget_ensures h).bind ?_
      rintro (m' | m') s₁ h₁
      · exact ensures_pure h₁
      · obtain ⟨hmoving, hpublished, hstaging, htarget, hothers⟩ := h₁
        refine (publishStagedFile_ensures hsync hmoving htarget
          fun s₂ h₂ => h.sane hsuffix hothers h₂).bind ?_
        rintro done s₂ (⟨rfl, happly, h₂⟩ | ⟨rfl, h₂⟩)
        · obtain ⟨-, -, hstaging₂, htarget₂, -⟩ := apply_publish happly
          refine publishAll_ensures hsync rest hrest ⟨h₂, fun n hn => ?_, fun n hn => ?_,
            fun n hn hs => ?_, fun n hn => ?_⟩
          · have hne : n ≠ name := by
              rintro rfl
              exact hnodup.1 hn
            rw [hstaging₂, Files.set_of_ne _ _ hne, hstaging]
            exact h.staging n (by simp [hn])
          · rw [htarget₂]
            simp only [hpublished, mem_append, mem_singleton] at hn
            by_cases hne : n = name
            · rw [hne, Files.set_self, hstaging]
              exact ⟨h.staging name (by simp), hstaged, hnodup.1⟩
            · rw [Files.set_of_ne _ _ hne, hothers n hne]
              obtain ⟨ht, hs, hmem⟩ := h.placed n (hn.resolve_right hne)
              exact ⟨ht, hs, fun hr => hmem (by simp [hr])⟩
          · simp only [hpublished, mem_append, mem_singleton]
            by_cases hne : n = name
            · exact .inr hne
            · exact .inl (h.processed n (by simp [hne, hn]) hs)
          · simp only [hpublished, mem_append, mem_singleton, not_or] at hn
            rw [htarget₂, Files.set_of_ne _ _ hn.2, hothers n hn.2]
            exact h.kept n hn.1
        · exact ensures_pure h₂

/-! ### A whole publication -/

/-- An untouched directory with staged files and an empty backup. -/
structure Fresh (o st : Files α) (id : GenerationId) (s : Disk α) : Prop where
  untouched : Untouched o s
  staging : s.staging = st
  uncommitted : id ∉ s.committed
  record : s.recordOf id = none
  savedIn : s.savedIn id = fun _ => none

/-- A backup is created under a name that is not taken. -/
lemma createBackup_ensures :
    ∀ (ids : List GenerationId) {s : Disk α}, Untouched o s → s.staging = st →
      Safely mayFail o st (fun r s' => match r with
          | none => Untouched o s'
          | some id => Fresh o st id s')
        (createBackup ids) s
  | [], s, h, _ => ensures_pure h
  | id :: ids, s, h, hstaging => by
    rw [createBackup]
    apply ensures_read
    split
    · exact createBackup_ensures ids h hstaging
    · next hid =>
      apply ensures_perform
      · intro s₁ h₁
        simp only [Action.apply] at h₁
        split at h₁
        · cases h₁
        · obtain rfl := some.inj h₁
          have hrecord := recordOf_setGeneration s id ⟨fun _ => none, none, none⟩
          have huntouched : Untouched o (s.setGeneration id ⟨fun _ => none, none, none⟩) := by
            refine ⟨h.created, fun i hi => ?_, h.target⟩
            rw [hrecord] at hi
            split at hi
            · cases hi
            · exact h.noPending i hi
          refine ⟨huntouched.stoppable, ensures_pure ⟨huntouched, hstaging, hid, ?_, ?_⟩⟩
          · rw [hrecord, if_pos rfl]
          · rw [savedIn_setGeneration, if_pos rfl]
      · exact fun _ => createBackup_ensures ids h hstaging
      · exact fun _ => ensures_pure h

/-- A change of a record that is not in its place leaves a backup fresh. -/
lemma Fresh.onGeneration {f : Generation α → Option (Generation α)} (h : Fresh o st id s)
    (hf : ∀ g g', f g = some g' → g'.saved = g.saved ∧ g'.record = g.record)
    (happly : s.onGeneration id f = some s') : Fresh o st id s' := by
  obtain ⟨htarget, hstaging, hcommitted, hcreated, hsavedIn, hothers⟩ :=
    apply_onGeneration (fun g g' hg => (hf g g' hg).1) happly
  have hrecord : s'.recordOf id = s.recordOf id := by
    obtain ⟨g, g', hg, hg', rfl⟩ := onGeneration_eq_some.mp happly
    rw [recordOf_setGeneration, if_pos rfl, (hf g g' hg').2, recordOf_of_get? hg]
  have hsame : SameRecords s s' := by
    refine ⟨fun i => ?_, hcommitted, hcreated⟩
    by_cases hi : i = id
    · rw [hi, hrecord]
    · exact hothers i hi
  exact ⟨h.untouched.congr htarget hsame, hstaging.trans h.staging,
    fun hmem => h.uncommitted (hcommitted ▸ hmem), hrecord.trans h.record,
    (hsavedIn id).trans h.savedIn⟩

/-- **The record** comes into its place whole. -/
theorem recordOriginalFiles_ensures (h : Fresh o st id s) :
    Safely mayFail o st
      (fun recorded s' => (recorded = true ∧ Withdrawing o st withdrawn ⟨id, [], []⟩ s') ∨
        (recorded = false ∧ Untouched o s'))
      (recordOriginalFiles id) s := by
  rw [recordOriginalFiles]
  apply ensures_read
  apply ensures_perform
  · intro s₁ h₁
    have hfresh₁ := h.onGeneration
      (by intro g g' hg; split at hg <;> simp at hg; rw [← hg]; exact ⟨rfl, rfl⟩) h₁
    refine ⟨hfresh₁.untouched.stoppable, ensures_perform ?_ ?_ ?_⟩
    · intro s₂ h₂
      have hfresh₂ := hfresh₁.onGeneration
        (by intro g g' hg; split at hg <;> simp at hg; rw [← hg]; exact ⟨rfl, rfl⟩) h₂
      have htemp : s₂.tempOf id = some (.record 1 (originalFiles s.target)) := by
        obtain ⟨g, g', -, hg', rfl⟩ := onGeneration_eq_some.mp h₂
        rw [tempOf_setGeneration, if_pos rfl]
        split at hg'
        · rw [← some.inj hg']
        · cases hg'
      refine ⟨hfresh₂.untouched.stoppable, ensures_perform ?_ ?_ ?_⟩
      · intro s₃ h₃
        obtain ⟨htarget, hstaging, hcommitted, hcreated, hsavedIn, hothers⟩ :=
          apply_onGeneration (f := fun g => g.temp.map fun record =>
            { g with record := some record, temp := none })
            (by
              intro g g' hg
              obtain ⟨record, -, rfl⟩ := Option.map_eq_some_iff.mp hg
              rfl) h₃
        have hrecord : s₃.recordOf id = some (.record 1 (originalFiles o)) := by
          obtain ⟨g, g', hg, hg', rfl⟩ := onGeneration_eq_some.mp h₃
          obtain ⟨record, hr, rfl⟩ := Option.map_eq_some_iff.mp hg'
          rw [tempOf_of_get? hg, hr] at htemp
          rw [recordOf_setGeneration, if_pos rfl, htemp, h.untouched.target]
        have htarget₃ : s₃.target = o := htarget.trans hfresh₂.untouched.target
        have hsavedIn₃ : s₃.savedIn id = fun _ => none := (hsavedIn id).trans hfresh₂.savedIn
        have hjournaled : Journaled o id s₃ := by
          refine ⟨hrecord, fun hid => hfresh₂.uncommitted (hcommitted ▸ hid), fun i hi hr => ?_,
            fun n => .inr ⟨by rw [hsavedIn₃], by rw [htarget₃]⟩⟩
          rw [hcommitted]
          exact hfresh₂.untouched.noPending i (hothers i hi ▸ hr)
        have hmoving : Moving o st ⟨id, [], []⟩ s₃ := by
          refine ⟨hcreated.trans hfresh₂.untouched.created, hjournaled, by simp, fun n _ hn => ?_,
            fun n hn => ?_, fun n hn heq => ?_, ?_⟩
          · rw [htarget₃, hn]
          · simp [hsavedIn₃] at hn
          · rw [htarget₃] at heq
            exact absurd heq.symm hn.2.2
          · rw [htarget₃]
            exact fun _ hmixed => not_hasNew_self hmixed.1
        refine ⟨hmoving.stoppable, ensures_pure (.inl ⟨rfl, hmoving, rfl,
          hstaging.trans hfresh₂.staging, fun n => ?_⟩)⟩
        rw [htarget₃, if_neg]
        exact fun hn => hn.2 hn.1
      · exact fun _ => ensures_pure (.inr ⟨rfl, hfresh₂.untouched⟩)
      · exact fun _ => ensures_pure (.inr ⟨rfl, hfresh₂.untouched⟩)
    · exact fun _ => ensures_pure (.inr ⟨rfl, hfresh₁.untouched⟩)
    · exact fun _ => ensures_pure (.inr ⟨rfl, hfresh₁.untouched⟩)
  · exact fun _ => ensures_pure (.inr ⟨rfl, h.untouched⟩)
  · exact fun _ => ensures_pure (.inr ⟨rfl, h.untouched⟩)

/-- What is withdrawn is ready for publication. -/
lemma Withdrawing.publishing (h : Withdrawing o st [] m s) :
    Publishing o st stagedPublishOrder m s where
  moving := h.moving
  staging n _ := by rw [h.staging]
  placed n hn := by
    rw [h.published] at hn
    cases hn
  processed n hn := absurd (mem_stagedPublishOrder n) hn
  kept n _ := by
    rw [h.target]
    simp

/-- What moving the staged files leaves behind. -/
lemma moveStagedFiles_ensures (hsync : ¬ mayFail .syncTarget) (h : Untouched o s)
    (hstaging : s.staging = st) (ids : List GenerationId) :
    Safely mayFail o st (fun r s' => match r with
        | .ok m => Publishing o st [] m s'
        | .error status => status ≠ .published ∧ (status = .failed → Untouched o s'))
      (moveStagedFiles ids) s := by
  have hfail : ∀ {m : StagedFileMove} {s₁ : Disk α},
      (Moving o st m s₁ ∨ (Untouched o s₁ ∧ ∃ id, m = ⟨id, [], []⟩)) →
        Safely mayFail o st (fun (r : Except PublishStatus StagedFileMove) s' => match r with
            | .ok m => Publishing o st [] m s'
            | .error status => status ≠ .published ∧ (status = .failed → Untouched o s'))
          (Except.error <$> fail m) s₁ :=
    fun h₁ => (fail_ensures h₁).bind fun status s₂ h₂ => ensures_pure h₂
  refine (createBackup_ensures ids h hstaging).bind ?_
  rintro (_ | id) s₁ h₁
  · exact ensures_pure ⟨nofun, fun _ => h₁⟩
  · refine (recordOriginalFiles_ensures h₁).bind ?_
    rintro recorded s₂ (⟨rfl, h₂⟩ | ⟨rfl, h₂⟩)
    · refine (withdraw_ensures withdrawn (suffix_refl _) h₂).bind ?_
      rintro (m | m) s₃ h₃
      · exact hfail (.inl h₃)
      · refine (publishAll_ensures hsync stagedPublishOrder (suffix_refl _) h₃.publishing).bind ?_
        rintro (m' | m') s₄ h₄
        · exact hfail (.inl h₄)
        · exact ensures_pure h₄
    · exact hfail (.inr ⟨h₂, id, rfl⟩)

/-- **What a publication leaves behind**, wherever it is stopped. If it succeeds, the directory is
the new generation; if it fails, the directory is untouched; if its rollback fails, recovery is
needed. -/
theorem publishStagedIndex_ensures (hsync : ¬ mayFail .syncTarget) (h : Untouched o s)
    (hstaging : s.staging = st) (hmeta : (st .metaJson).isSome) (ids : List GenerationId)
    (valid : Bool) :
    Safely mayFail o st
      (fun status s' => (status = .published → s'.NoPending ∧ s'.target = published o st) ∧
        (status = .failed → Untouched o s'))
      (publishStagedIndex ids valid) s := by
  refine (moveStagedFiles_ensures hsync h hstaging ids).bind ?_
  rintro (status | m) s₁ h₁
  · exact ensures_pure ⟨fun hp => absurd hp h₁.1, h₁.2⟩
  · have hfail : Safely mayFail o st
        (fun status s' => (status = .published → s'.NoPending ∧ s'.target = published o st) ∧
          (status = .failed → Untouched o s')) (fail m) s₁ :=
      (fail_ensures (.inl h₁.moving)).mono (fun _ hC => hC)
        fun status _ hQ => ⟨fun hp => absurd hp hQ.1, hQ.2⟩
    dsimp only
    split
    · apply ensures_perform
      · intro s₂ h₂
        have hj := h₁.moving.journaled
        have hcommitted : Recoverable o st s₂ ∧ s₂.NoPending ∧ s₂.created ≠ ∅ := by
          simp only [Action.apply, if_neg hj.uncommitted] at h₂
          obtain rfl := some.inj h₂
          have hno : Disk.NoPending { s₁ with
              committed := insert m.backup s₁.committed
              created := insert m.backup s₁.created } := by
            intro i hi
            by_cases hid : i = m.backup
            · exact Finset.mem_insert.mpr (.inl hid)
            · exact Finset.mem_insert_of_mem (hj.others i hid hi)
          have hne : insert m.backup s₁.created ≠ ∅ := Finset.insert_ne_empty _ _
          exact ⟨⟨fun hc => absurd hc hne, fun _ => ⟨hno, h₁.target_eq hmeta⟩⟩, hno, hne⟩
        obtain ⟨hrecoverable, hno, hne⟩ := hcommitted
        have hclean : ∀ s₃, Cleaned s₂ s₃ → Stoppable mayFail o st s₃ := fun s₃ h₃ =>
          ⟨h₃.recoverable hrecoverable, fun _ => by
            rw [h₃.target]
            exact hrecoverable.sane hno⟩
        refine ⟨hclean s₂ (Cleaned.refl s₂), ?_⟩
        refine (cleanupRetired_ensures.mono hclean fun _ _ hQ => hQ).bind ?_
        intro _ s₃ h₃
        refine ensures_pure ⟨fun _ => ?_, by rintro ⟨⟩⟩
        exact (h₃.recoverable hrecoverable).committed (h₃.created ▸ hne)
      · exact fun _ => hfail
      · exact fun _ => hfail
    · exact hfail

/-! ### Crashes -/

/-- The directories after a publication and any number of recoveries and removals of retired
backups, each of them stopped anywhere. A recovery starts only in a state with `start`. -/
inductive Crashed (mayFail : Action → Prop) (start : Disk α → Prop) (ids : List GenerationId)
    (valid : Bool) (s₀ : Disk α) : Disk α → Prop
  | publish {p : DiskProg α PublishStatus} {s : Disk α}
      (h : Steps Action.apply mayFail (publishStagedIndex ids valid, s₀) (p, s)) :
      Crashed mayFail start ids valid s₀ s
  | recover {s : Disk α} {p : DiskProg α (Except RecoverError Unit)} {s' : Disk α}
      (h : Crashed mayFail start ids valid s₀ s) (hstart : start s)
      (hsteps : Steps Action.apply mayFail (recoverPending, s) (p, s')) :
      Crashed mayFail start ids valid s₀ s'
  | cleanup {s : Disk α} {p : DiskProg α Unit} {s' : Disk α}
      (h : Crashed mayFail start ids valid s₀ s)
      (hsteps : Steps Action.apply mayFail (cleanupRetired, s) (p, s')) :
      Crashed mayFail start ids valid s₀ s'

section

variable {start : Disk α → Prop} {ids : List GenerationId} {valid : Bool} {s₀ : Disk α}

/-- After any crashes recovery undoes the publication or finds nothing. -/
lemma Crashed.recoverable (hsync : ¬ mayFail .syncTarget) (h₀ : Untouched o s₀)
    (hmeta : (s₀.staging .metaJson).isSome) (h : Crashed mayFail start ids valid s₀ s) :
    Recoverable o s₀.staging s := by
  induction h with
  | publish h =>
    have hensures := publishStagedIndex_ensures hsync h₀ rfl hmeta ids valid
    exact (hensures.steps h₀.stoppable h).1.recoverable
  | recover _ _ hsteps ih =>
    exact ((recoverPending_ensures ih).steps ⟨ih, fun hquiet => hquiet⟩ hsteps).1.recoverable
  | cleanup _ hsteps ih =>
    exact (cleanupRetired_ensures.steps (Cleaned.refl _) hsteps).1.recoverable ih

/-- After crashes whose recoveries started without a new core file beside `meta.json`, the latter
is not beside a mixture. -/
lemma Crashed.sane (hsync : ¬ mayFail .syncTarget) (hremoves : RemovesCore mayFail)
    (h₀ : Untouched o s₀) (hmeta : (s₀.staging .metaJson).isSome)
    (hstart : ∀ s, start s → s.NoPending ∨ Quiet o s₀.staging s.target)
    (h : Crashed mayFail start ids valid s₀ s) : Sane o s₀.staging s.target := by
  induction h with
  | publish h =>
    have hensures := publishStagedIndex_ensures hsync h₀ rfl hmeta ids valid
    exact (hensures.steps h₀.stoppable h).1.sane hremoves
  | recover hcrashed hs hsteps ih =>
    have hrecoverable := hcrashed.recoverable hsync h₀ hmeta
    obtain hno | hquiet := hstart _ hs
    · rwa [((recoverPending_of_noPending hno).steps rfl hsteps).1]
    · have hstop := (recoverPending_ensures hrecoverable).steps ⟨hrecoverable, fun hq => hq⟩ hsteps
      exact (hstop.1.quiet hquiet).sane
  | cleanup _ hsteps ih =>
    rwa [(cleanupRetired_ensures.steps (Cleaned.refl _) hsteps).1.target]

end

/-- **Publication is all or nothing.** After a recovery that succeeds, the directory holds the
original files if no commit marker was created and the new generation if one was. A second
recovery changes nothing, nor does one that rejects a record or finds two publications, and the
removal of retired backups keeps those that are not committed. If no removal of a core file fails
and no recovery of a pending publication starts with `meta.json` beside a new core file, `meta.json`
is never beside a mixture. -/
theorem all_or_nothing (hsync : ¬ mayFail .syncTarget) {s₀ : Disk α} (hcreated : s₀.created = ∅)
    (hno : s₀.NoPending) (hmeta : (s₀.staging .metaJson).isSome) (ids : List GenerationId)
    (valid : Bool) :
    (∀ s s', Crashed mayFail (fun _ => True) ids valid s₀ s →
      Steps Action.apply mayFail (recoverPending, s) (.ret (.ok ()), s') →
        s'.target = if s'.created = ∅ then s₀.target else published s₀.target s₀.staging) ∧
    (∀ (s s' s'' : Disk α) (p : DiskProg α (Except RecoverError Unit)),
      Steps Action.apply mayFail (recoverPending, s) (.ret (.ok ()), s') →
        Steps Action.apply mayFail (recoverPending, s') (p, s'') → s'' = s') ∧
    (∀ (s s' : Disk α) (p : DiskProg α (Except RecoverError Unit)),
      (∀ pending, s.pending = .ok pending → 1 < pending.length) →
        Steps Action.apply mayFail (recoverPending, s) (p, s') → s' = s) ∧
    (∀ (s s' : Disk α) (p : DiskProg α Unit) (id : GenerationId), id ∉ s.committed →
      Steps Action.apply mayFail (cleanupRetired, s) (p, s') →
        s'.generations.get? id = s.generations.get? id) ∧
    (RemovesCore mayFail → ∀ s,
      Crashed mayFail (fun s => s.NoPending ∨ Quiet s₀.target s₀.staging s.target) ids valid s₀ s →
        Sane s₀.target s₀.staging s.target) := by
  have h₀ : Untouched s₀.target s₀ := ⟨hcreated, hno, rfl⟩
  refine ⟨fun s s' h hsteps => ?_, fun s s' s'' p h hsteps => ?_, fun s s' p h hsteps => ?_,
    fun s s' p id hid hsteps => ?_, fun hremoves s h => ?_⟩
  · have hrecoverable := h.recoverable hsync h₀ hmeta
    have hstop : RecoveryStop s₀.target s₀.staging s.target s := ⟨hrecoverable, fun hq => hq⟩
    have hensures := (recoverPending_ensures hrecoverable).steps hstop hsteps
    obtain herror | ⟨-, hnone⟩ := hensures.2
    · cases herror
    · exact hensures.1.recoverable.target_eq hnone
  · have hnone : s'.NoPending := recoverPending_recovered.result trivial h rfl
    exact ((recoverPending_of_noPending hnone).steps rfl hsteps).1
  · exact ((recoverPending_rejected h).steps rfl hsteps).1
  · exact (cleanupRetired_ensures.steps (Cleaned.refl s) hsteps).1.others id hid
  · exact h.sane hsync hremoves h₀ hmeta fun _ hs => hs

/-- An index of generation `0` with a staged index of generation `1`. -/
def stagedDisk : Disk ℕ := ⟨fun _ => some 0, fun _ => some 1, FinMap.empty, ∅, ∅⟩

lemma stagedDisk_noPending : stagedDisk.NoPending := by
  intro id hid
  simp [Disk.recordOf, stagedDisk] at hid

/-- A publication that is stopped before its commit. -/
def stoppedPublication : Disk ℕ :=
  (Crash.advance Action.apply 44 (publishStagedIndex [toLex (1, 0)] true, stagedDisk)).2

/-- The publication of a whole index is stopped, and the recovery succeeds: the index is whole. -/
theorem all_or_nothing_stagedDisk : ∃ s s' : Disk ℕ,
    Crashed (fun _ => False) (fun _ => True) [toLex (1, 0)] true stagedDisk s ∧
      Steps Action.apply (fun _ => False) (recoverPending, s) (.ret (.ok ()), s') ∧
      s'.target = if s'.created = ∅ then fun _ => some 0 else
        published (fun _ => some 0) fun _ => some 1 := by
  have hcrashed : Crashed (fun _ => False) (fun _ => True) [toLex (1, 0)] true stagedDisk
      stoppedPublication := .publish (steps_advance _ _ 44 _)
  have hsteps := steps_advance Action.apply (fun _ => False) 27
    ((recoverPending : DiskProg ℕ (Except RecoverError Unit)), stoppedPublication)
  have hreturned : (Crash.advance Action.apply 27
      ((recoverPending : DiskProg ℕ (Except RecoverError Unit)), stoppedPublication)).1 =
        .ret (.ok ()) := by with_unfolding_all rfl
  rw [← Prod.eta (Crash.advance _ _ _), hreturned] at hsteps
  exact ⟨_, _, hcrashed, hsteps, (all_or_nothing (fun hf => hf) rfl stagedDisk_noPending rfl
    [toLex (1, 0)] true).1 _ _ hcrashed hsteps⟩

/-- A publication that is stopped before its commit, and its recovery after the return of
`index.bin`. -/
def stoppedRecovery : Disk ℕ :=
  (Crash.advance Action.apply 5 ((recoverPending : DiskProg ℕ (Except RecoverError Unit)),
    (Crash.advance Action.apply 44 (publishStagedIndex [toLex (1, 0)] true, stagedDisk)).2)).2

/-- **A recovery replaces core files beside the new `meta.json`**, although no action fails. -/
theorem not_sane :
    ¬ ∀ (s₀ : Disk ℕ) (ids : List GenerationId) (valid : Bool) (s : Disk ℕ), s₀.created = ∅ →
      s₀.NoPending → (s₀.staging .metaJson).isSome →
        Crashed (fun _ => False) (fun _ => True) ids valid s₀ s →
          Sane s₀.target s₀.staging s.target := by
  intro h
  have hcrashed : Crashed (fun _ => False) (fun _ => True) [toLex (1, 0)] true stagedDisk
      stoppedRecovery :=
    .recover (.publish (steps_advance _ _ 44 _)) trivial (steps_advance _ _ 5 _)
  have hmeta : (stoppedRecovery.target .metaJson).isSome := by decide +kernel
  have hold : stoppedRecovery.target .indexBin = some 0 := by decide +kernel
  have hnew : stoppedRecovery.target .lookupBin = some 1 := by decide +kernel
  refine h stagedDisk _ _ _ rfl stagedDisk_noPending rfl hcrashed hmeta
    ⟨⟨.lookupBin, ⟨by decide, rfl, by decide⟩, hnew⟩, ⟨.indexBin, ⟨by decide, rfl, by decide⟩, rfl, hold⟩⟩

end Publish

end Tgrep
