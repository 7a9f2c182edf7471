import Tgrep.Managed.CollectionRun

/-!
# Deletion credit is exact

Between two events the files of a collected object are as recorded or as journaled, unless somebody
else has changed them; and then a pass does not touch them. Together with the accounts of the
catalog this says that every byte that is removed is credited once.

## Main definitions

* `AsRecorded`: a file that is as its row says.
* `Event.Harmless`: an event that leaves the files of closed members to the passes.
* `Reconciled`: what holds of every state that is ever committed.

## Main results

* `step_untouched`: which files a pass changes, and how.
* `step_undisturbed`: passes leave the files as recorded or as journaled.
* `deletion_credit`: the credits over every run.
-/

namespace Tgrep.Managed

open Option Function

namespace Collection

variable {s : State} {p : Pass} {id : Id} {name : String}

/-! ## What an event does to the files -/

@[simp] lemma disk_abort : s.abort.disk = s.disk := rfl

@[simp] lemma disk_skip : (s.skip p).disk = s.disk := rfl

variable {e : Event} {t : Target} {outcome : Outcome} {disk : Disk} {inv : Inventory}
  {phase : Phase} {m : FileRecord}
  {change : Inventory → Progress → Except Error (Inventory × Progress)}

@[simp] lemma disk_resume : (s.resume p phase).disk = s.disk := rfl

/-- A transaction does not change the files. -/
@[simp] lemma disk_collectionTransaction :
    (s.collectionTransaction p outcome change phase).disk = s.disk := by
  unfold State.collectionTransaction
  split <;> rfl

/-- A chunk is removed from one file. -/
lemma files_chunkRemoved (disk : Disk) (id id' : Id) (name name' : String) (file : File)
    (target : ℕ) : ((chunkRemoved disk id name file target).files id').get? name' =
      if id' = id ∧ name' = name then (if target = 0 then none else some (file.setLen target))
      else (disk.files id').get? name' := by
  show (Function.update disk.files id _ id').get? name' = _
  by_cases h : id' = id
  · subst h
    rw [update_self, FinMap.get?_put]
    simp only [true_and]
  · rw [update_of_ne h, if_neg fun hn => h hn.1]

variable {inv' : Inventory} {v : Verification} {result : Except Error Inventory}

/-- What the destructive step does to the files: nothing, or what is journaled for a file that is as
long as recorded. -/
lemma files_removeBytes (retained : Bool) (allocated : Measurement) (outcome : Outcome) :
    (removeBytes s p t name m v retained allocated outcome).disk = s.disk ∨
      ∃ target file, m.pendingLength = some target ∧ (s.disk.files t.id).get? name = some file ∧
        file.bytes.length = v.currentLength ∧
        (removeBytes s p t name m v retained allocated outcome).disk =
          chunkRemoved s.disk t.id name file target := by
  unfold removeBytes
  split
  · rename_i target file htarget hfile
    split
    · exact .inl rfl
    · exact .inl rfl
    · rename_i hcheck
      obtain ⟨f, hf, hlength⟩ := Verification.check_eq_ok hcheck
      obtain rfl := some.inj hf
      exact .inr ⟨target, file, htarget, hfile, hlength, rfl⟩
    · rename_i hcheck
      obtain ⟨f, hf, hlength⟩ := Verification.check_eq_ok hcheck
      obtain rfl := some.inj hf
      exact .inr ⟨target, file, htarget, hfile, hlength, rfl⟩
  · exact .inl rfl

/-- The other steps of a pass leave the files alone. -/
lemma files_passStep (e : Event) :
    (passStep s p e).disk.files = s.disk.files ∨
      ∃ t name m v retained allocated outcome, p.phase = .intended t name m v ∧
        passStep s p e = removeBytes s p t name m v retained allocated outcome := by
  cases e with
  | removeBytes retained allocated outcome =>
    simp only [passStep]
    split
    · rename_i t name m v ht
      exact .inr ⟨t, name, m, v, retained, allocated, outcome, ht, rfl⟩
    · exact .inl rfl
  | examine id continued outcome =>
    left
    simp only [passStep, examine]
    split
    · split <;> simp
    · rfl
  | collect eligible referenced outcome =>
    left
    simp only [passStep, collectObject, finishMissingContainer]
    split
    · split
      · rfl
      · split
        · rfl
        · split <;> simp
        · rfl
        · split <;> rfl
    · rfl
  | withdraw outcome =>
    left
    simp only [passStep, withdraw]
    split
    · split
      · rfl
      · rfl
      · split <;> simp
    · rfl
  | markPendingDeletion outcome =>
    left
    simp only [passStep, markPendingDeletion]
    split
    · split <;> simp
    · rfl
  | deleteMember env outcome =>
    left
    simp only [passStep, deleteMember]
    split
    · split
      · rfl
      · split
        · rfl
        · split <;> simp
    · rfl
  | credit outcome =>
    left
    simp only [passStep, creditMember]
    split
    · split
      · rfl
      · split <;> simp
    · rfl
  | removeContainer outcome =>
    left
    simp only [passStep, removeContainer]
    split
    · split <;> rfl
    · rfl
  | finishObject outcome =>
    left
    simp only [passStep, finishObject]
    split
    · simp
    · rfl
  | stop =>
    left
    simp only [passStep]
    split <;> rfl
  | finishPass outcome =>
    left
    simp only [passStep, finishPass]
    split
    · split <;> rfl
    · split <;> rfl
    · rfl
  | _ => exact .inl rfl

/-- Somebody else changes a file. -/
def Event.interferes : Event → Bool
  | .interfere _ _ _ => true
  | _ => false

/-- What a producer does to the catalog leaves the files alone. -/
@[simp] lemma disk_produce : (produce s id result).disk = s.disk := by
  unfold produce
  split <;> rfl

/-- What happens to a namespace leaves the files alone, apart from the destructive step and from
what others do. -/
lemma files_step (he : e.interferes = false) :
    (step s e).disk.files = s.disk.files ∨
      ∃ p t name m v retained allocated outcome, s.pass = some p ∧ p.phase = .intended t name m v ∧
        step s e = removeBytes s p t name m v retained allocated outcome := by
  cases e with
  | create id =>
    left
    simp only [step]
    split <;> rfl
  | beginMember id name => exact .inl (congrArg Disk.files disk_produce)
  | record id name allocated producerOpen authenticated =>
    left
    simp only [step]
    split
    · rfl
    · exact congrArg Disk.files disk_produce
  | completeSeal id name memberSeal blocks => exact .inl (congrArg Disk.files disk_produce)
  | publish id => exact .inl (congrArg Disk.files disk_produce)
  | abandon id state => exact .inl (congrArg Disk.files disk_produce)
  | accept operation =>
    left
    simp only [step]
    split <;> rfl
  | beginPass operation bounds =>
    left
    simp only [step, beginPass]
    split <;> rfl
  | crash => exact .inl rfl
  | interfere id name file => cases he
  | interfereContainer id present => exact .inl rfl
  | _ =>
    refine of_pass (P := fun s' => s'.disk.files = s.disk.files ∨ ∃ p t name m v retained allocated
      outcome, s.pass = some p ∧ p.phase = .intended t name m v ∧
        s' = removeBytes s p t name m v retained allocated outcome) (.inl rfl) fun p hp => ?_
    rcases files_passStep (s := s) (p := p) _ with h | h
    · exact .inl h
    · obtain ⟨t, name, m, v, retained, allocated, outcome, ht, heq⟩ := h
      exact .inr ⟨p, t, name, m, v, retained, allocated, outcome, hp, ht, heq⟩

/-- **Which files a pass changes.** A file changes only if it is as long as recorded and a shorter
length is journaled, and then it gets that length, or is unlinked if that is zero. -/
theorem step_untouched (hs : s.Inv) (he : e.interferes = false) (id : Id) (name : String)
    (hchanged : ((step s e).disk.files id).get? name ≠ (s.disk.files id).get? name) :
    ∃ m file target, (s.inventory.members id).get? name = some m ∧
      (s.disk.files id).get? name = some file ∧ file.bytes.length = m.logicalBytes ∧
      m.pendingLength = some target ∧
      ((step s e).disk.files id).get? name =
        if target = 0 then none else some (file.setLen target) := by
  rcases files_step (s := s) he with h | ⟨p, t, name', m, v, retained, allocated, outcome, hp, ht, h⟩
  · exact absurd (by rw [h]) hchanged
  · have hknown := (hs.pass p hp).known
    rw [ht] at hknown
    obtain ⟨-, -, ⟨hrow, -⟩, hlength⟩ := hknown
    rw [h] at hchanged ⊢
    rcases files_removeBytes (s := s) (p := p) (t := t) (m := m) (v := v) retained allocated outcome
      with hsame | ⟨target, file, htarget, hfile, hbytes, hdisk⟩
    · exact absurd (by rw [hsame]) hchanged
    · rw [hdisk, files_chunkRemoved] at hchanged ⊢
      split_ifs at hchanged ⊢ with heq hzero
      · obtain ⟨rfl, rfl⟩ := heq
        exact ⟨m, file, target, hrow, hfile, hbytes.trans hlength, htarget, by rw [if_pos hzero]⟩
      · obtain ⟨rfl, rfl⟩ := heq
        exact ⟨m, file, target, hrow, hfile, hbytes.trans hlength, htarget, by rw [if_neg hzero]⟩
      · exact absurd rfl hchanged

/-! ## Runs in which nobody else changes the files -/

/-- A file is as journaled: of that length, or gone if that is zero. -/
def Reached (file : Option File) (target : ℕ) : Prop :=
  (target = 0 → file = none) ∧ (target ≠ 0 → ∃ f, file = some f ∧ f.bytes.length = target)

/-- A file is as its row says: gone, or as long as recorded, or as journaled. -/
def AsRecorded (m : FileRecord) (file : Option File) : Prop :=
  (m.removed = true → file = none) ∧
    (m.removed = false → (∃ f, file = some f ∧ f.bytes.length = m.logicalBytes) ∨
      ∃ target, m.pendingLength = some target ∧ Reached file target)

/-- The files of all closed members are as their rows say. -/
def RowsFit (inv : Inventory) (disk : Disk) : Prop :=
  ∀ id name m, (inv.members id).get? name = some m → m.producerOpen = false →
    AsRecorded m ((disk.files id).get? name)

/-- A file whose deletion is about to be credited is as it was found, or left. -/
def PhaseFits (disk : Disk) : Phase → Prop
  | .settled t name _ result =>
      (result.removed = true → (disk.files t.id).get? name = none) ∧
        (result.removed = false →
          ∃ f, (disk.files t.id).get? name = some f ∧ f.bytes.length = result.after)
  | _ => True

/-- The files are as the catalog and the pass say. -/
structure State.Undisturbed (s : State) : Prop where
  /-- The rows. -/
  rows : RowsFit s.inventory s.disk
  /-- The pass. -/
  phase : ∀ p, s.pass = some p → PhaseFits s.disk p.phase

/-- Others only change files that are not closed members. -/
def Event.Harmless (s : State) : Event → Prop
  | .interfere id name _ =>
      ∀ m, (s.inventory.members id).get? name = some m → m.producerOpen = true
  | _ => True

/-- The rows only depend on the members. -/
lemma RowsFit.of_members (h : RowsFit inv disk) (hmembers : inv'.members = inv.members) :
    RowsFit inv' disk := by
  unfold RowsFit
  rw [hmembers]
  exact h

/-- One row is written whose file is as it says. -/
lemma RowsFit.saveMember (h : RowsFit inv disk)
    (hm : m.producerOpen = false → AsRecorded m ((disk.files id).get? name)) :
    RowsFit (inv.saveMember id name m) disk := by
  intro id' name' r hr hclosed
  rw [Inventory.get?_saveMember] at hr
  split_ifs at hr with heq
  · obtain ⟨rfl, rfl⟩ := heq
    obtain rfl := some.inj hr
    exact hm hclosed
  · exact h id' name' r hr hclosed

variable (h : RowsFit s.inventory s.disk)

include h

/-- Without a pass. -/
lemma State.Undisturbed.of_none (hpass : s.pass = none) : s.Undisturbed := by
  refine ⟨h, fun q hq => ?_⟩
  rw [hpass] at hq
  cases hq

/-- A pass that goes on with another object. -/
lemma State.Undisturbed.skip : (s.skip p).Undisturbed := by
  refine ⟨h, fun q hq => ?_⟩
  obtain rfl := some.inj hq
  trivial

/-- A pass that goes on. -/
lemma State.Undisturbed.resume
    (hphase : PhaseFits s.disk phase) : (s.resume p phase).Undisturbed := by
  refine ⟨h, fun q hq => ?_⟩
  obtain rfl := some.inj hq
  exact hphase

/-- A transaction. -/
lemma State.Undisturbed.transaction
    (hchange : ∀ inv' progress', change s.inventory p.progress = .ok (inv', progress') →
      RowsFit inv' s.disk) (hphase : PhaseFits s.disk phase) :
    (s.collectionTransaction p outcome change phase).Undisturbed := by
  unfold State.collectionTransaction
  cases hresult : change s.inventory p.progress with
  | error e => exact State.Undisturbed.of_none h rfl
  | ok result =>
    obtain ⟨inv', progress'⟩ := result
    have hrows := hchange inv' progress' hresult
    cases outcome with
    | lost => exact State.Undisturbed.of_none h rfl
    | unconfirmed => exact State.Undisturbed.of_none hrows rfl
    | done =>
      refine ⟨hrows, fun q hq => ?_⟩
      obtain rfl := some.inj hq
      exact hphase

/-- A transaction that writes no row of a member. -/
lemma State.Undisturbed.transaction_same
    (hchange : ∀ inv' progress', change s.inventory p.progress = .ok (inv', progress') →
      inv'.members = s.inventory.members) (hphase : PhaseFits s.disk phase) :
    (s.collectionTransaction p outcome change phase).Undisturbed :=
  State.Undisturbed.transaction h
    (fun inv' progress' hresult => h.of_members (hchange inv' progress' hresult)) hphase

/-- Looking at an object. -/
lemma collectObject_undisturbed (id : Id) (eligible referenced : Bool) (outcome : Outcome) :
    (collectObject s p id eligible referenced outcome).Undisturbed := by
  unfold collectObject finishMissingContainer
  split
  · exact State.Undisturbed.skip h
  · split
    · exact State.Undisturbed.resume h trivial
    · split
      · exact State.Undisturbed.skip h
      · refine State.Undisturbed.transaction_same h (fun inv' progress' hresult => ?_) trivial
        cases ho : s.inventory.objects.get? id with
        | none =>
          rw [ho] at hresult
          cases hresult
        | some row =>
          rw [ho] at hresult
          obtain ⟨rfl, -⟩ := Prod.mk.inj (Except.ok.inj hresult)
          rfl
    · exact State.Undisturbed.resume h trivial
    · split
      · exact State.Undisturbed.resume h trivial
      · exact State.Undisturbed.skip h
      · exact State.Undisturbed.resume h trivial

omit h

/-- Turning to the next member: the file of a journaled row is as long as recorded. -/
lemma deleteMember_undisturbed (hi : s.inventory.Inv) (h : RowsFit s.inventory s.disk)
    (env : Observation) (outcome : Outcome) : (deleteMember s p t env outcome).Undisturbed := by
  unfold deleteMember
  split
  · exact State.Undisturbed.resume h trivial
  · dsimp only
    split
    · exact State.Undisturbed.resume h trivial
    · rename_i name m hnext
      obtain ⟨hrow, hlive⟩ := nextMember_spec hnext
      have hm := hi.row t.id name m hrow
      split
      · exact State.Undisturbed.skip h
      · rename_i v _
        refine State.Undisturbed.resume (s := { s with cached := some v }) h ?_
        split_ifs <;> trivial
      · rename_i v current here hplan
        refine State.Undisturbed.resume (s := { s with cached := none }) h ?_
        have hsound := planDeletion_spec hm hplan
        cases here with
        | true => exact ⟨nofun, fun _ => hsound.2⟩
        | false => exact ⟨fun _ => hsound.2.2, nofun⟩
      · rename_i v m' hplan
        obtain ⟨-, ⟨f, hf, hlength⟩, target, -, heq⟩ := planDeletion_spec hm hplan
        have hlive' : m'.removed = false := by
          rw [heq]
          exact hlive
        have hlogical : m'.logicalBytes = m.logicalBytes := by rw [heq]
        refine State.Undisturbed.transaction (s := { s with cached := none }) h
          (fun inv' progress' hresult => ?_) trivial
        obtain ⟨rfl, -⟩ := Prod.mk.inj (Except.ok.inj hresult)
        refine h.saveMember fun _ => ⟨fun hgone => ?_, fun _ => .inl ⟨f, hf, ?_⟩⟩
        · exact absurd (hgone.symm.trans hlive') (by decide)
        · exact hlength.trans hlogical.symm

/-- The destructive step makes a file what is journaled. -/
lemma removeBytes_undisturbed (hs : s.Inv) (h : RowsFit s.inventory s.disk)
    (hpass : s.pass = some p) (ht : p.phase = .intended t name m v) (retained : Bool)
    (allocated : Measurement) (outcome : Outcome) :
    (removeBytes s p t name m v retained allocated outcome).Undisturbed := by
  have hknown := (hs.pass p hpass).known
  rw [ht] at hknown
  obtain ⟨-, -, ⟨hrow, hlive⟩, hlength⟩ := hknown
  unfold removeBytes
  split
  · rename_i target file htarget hfile
    have hcut : (file.setLen target).bytes.length = target := by
      simp only [File.setLen, List.length_append, List.length_take, List.length_replicate]
      omega
    have hrows : RowsFit s.inventory (chunkRemoved s.disk t.id name file target) := by
      intro id' name' r hr hclosed
      rw [files_chunkRemoved]
      split_ifs with heq hzero
      · obtain ⟨rfl, rfl⟩ := heq
        rw [hrow] at hr
        obtain rfl := some.inj hr
        exact ⟨fun _ => rfl, fun _ => .inr ⟨target, htarget, fun _ => rfl, absurd hzero⟩⟩
      · obtain ⟨rfl, rfl⟩ := heq
        rw [hrow] at hr
        obtain rfl := some.inj hr
        refine ⟨fun hgone => ?_, fun _ => .inr ⟨target, htarget, fun hz => absurd hz hzero,
          fun _ => ⟨_, rfl, hcut⟩⟩⟩
        exact absurd (hgone.symm.trans hlive) (by decide)
      · exact h id' name' r hr hclosed
    split
    · exact State.Undisturbed.skip h
    · exact State.Undisturbed.skip h
    · exact State.Undisturbed.skip
        (s := { s with disk := chunkRemoved s.disk t.id name file target }) hrows
    · refine State.Undisturbed.resume
        (s := { s with disk := chunkRemoved s.disk t.id name file target }) hrows ?_
      refine ⟨fun hremoved => ?_, fun hkept => ?_⟩
      · rw [files_chunkRemoved, if_pos ⟨rfl, rfl⟩, if_pos (of_decide_eq_true hremoved)]
      · rw [files_chunkRemoved, if_pos ⟨rfl, rfl⟩, if_neg (of_decide_eq_false hkept)]
        exact ⟨_, rfl, hcut⟩
  · exact State.Undisturbed.skip h

/-- A credited row says what was found. -/
lemma creditMember_undisturbed (hs : s.Inv) (hu : s.Undisturbed) (hpass : s.pass = some p)
    {result : Settlement} (ht : p.phase = .settled t name m result) (outcome : Outcome) :
    (creditMember s p t name m result outcome).Undisturbed := by
  have hfits := hu.phase p hpass
  rw [ht] at hfits
  have hknown := (hs.pass p hpass).known
  rw [ht] at hknown
  obtain ⟨⟨o, ho, -⟩, -⟩ := hknown
  unfold creditMember
  split
  · exact State.Undisturbed.skip hu.rows
  · split
    · exact State.Undisturbed.skip hu.rows
    · rename_i m' hafter
      obtain ⟨-, hlength, -, hremoved, -⟩ := creditedMember_spec hafter
      refine State.Undisturbed.transaction (s := { s with cached := result.verification }) hu.rows
        (fun inv' progress' hresult => ?_) trivial
      unfold creditChange at hresult
      rw [ho] at hresult
      obtain ⟨_, -, hresult⟩ := Loops.bind_eq_ok.mp hresult
      obtain ⟨_, -, hresult⟩ := Loops.bind_eq_ok.mp hresult
      obtain ⟨rfl, -⟩ := Prod.mk.inj (Except.ok.inj hresult)
      have hrow : AsRecorded m' ((s.disk.files t.id).get? name) := by
        refine ⟨fun hgone => hfits.1 (hremoved.symm.trans hgone), fun hlive => .inl ?_⟩
        rw [hlength]
        exact hfits.2 (hremoved.symm.trans hlive)
      exact (hu.rows.saveMember fun _ => hrow).of_members rfl

/-- The steps of a pass leave the files as recorded or as journaled. -/
lemma passStep_undisturbed (hs : s.Inv) (hu : s.Undisturbed) (hpass : s.pass = some p)
    (e : Event) : (passStep s p e).Undisturbed := by
  have h := hu.rows
  cases e <;> simp only [passStep] <;> try exact hu
  all_goals try (split <;> try exact hu)
  · unfold examine
    split
    · exact State.Undisturbed.resume h trivial
    · refine State.Undisturbed.transaction_same h (fun inv' progress' hresult => ?_) trivial
      obtain ⟨rfl, -⟩ := Prod.mk.inj (Except.ok.inj hresult)
      rfl
  · exact collectObject_undisturbed h _ _ _ _
  · unfold withdraw
    split
    · exact State.Undisturbed.resume h trivial
    · exact State.Undisturbed.resume h trivial
    · split
      · exact State.Undisturbed.of_none h rfl
      · refine State.Undisturbed.transaction_same h (fun inv' progress' hresult => ?_) trivial
        obtain ⟨rfl, -⟩ := Prod.mk.inj (Except.ok.inj hresult)
        rfl
  · unfold markPendingDeletion
    split
    · refine State.Undisturbed.transaction_same h (fun inv' progress' hresult => ?_) trivial
      obtain ⟨rfl, -⟩ := Prod.mk.inj (Except.ok.inj hresult)
      rfl
    · exact State.Undisturbed.resume h trivial
  · exact deleteMember_undisturbed hs.accounts h _ _
  · rename_i t name m v ht
    exact removeBytes_undisturbed hs h hpass ht _ _ _
  · rename_i t name m result ht
    exact creditMember_undisturbed hs hu hpass ht _
  · rename_i t _
    unfold removeContainer
    set erased : Disk := { s.disk with containers := s.disk.containers.erase t.id }
    split
    · exact State.Undisturbed.skip h
    · exact State.Undisturbed.skip h
    · exact State.Undisturbed.skip (s := { s with disk := erased }) h
    · exact State.Undisturbed.resume (s := { s with disk := erased }) h trivial
  · refine State.Undisturbed.transaction_same h (fun inv' progress' hresult => ?_) trivial
    obtain ⟨rfl, -⟩ := Prod.mk.inj (Except.ok.inj hresult)
    rfl
  · exact State.Undisturbed.resume h trivial
  · exact State.Undisturbed.resume h trivial
  · unfold finishPass
    split
    · exact State.Undisturbed.of_none h rfl
    · exact State.Undisturbed.of_none (h.of_members rfl) rfl
    · exact State.Undisturbed.of_none (h.of_members rfl) rfl
  · unfold finishPass
    split
    · exact State.Undisturbed.of_none h rfl
    · exact State.Undisturbed.of_none (h.of_members rfl) rfl
    · exact State.Undisturbed.of_none (h.of_members rfl) rfl
  · exact State.Undisturbed.skip h

/-- What a producer does to the catalog, if the rows fit afterwards. -/
lemma produce_undisturbed (hu : s.Undisturbed)
    (h : ∀ inv', result = .ok inv' → RowsFit inv' s.disk) : (produce s id result).Undisturbed := by
  unfold produce
  split
  · exact ⟨h _ rfl, hu.phase⟩
  · exact hu

/-- The rows after a file is recorded: the row of a closed member is as long as its file. -/
lemma recordOpenFileState_rowsFit (h : RowsFit inv disk) {file : File}
    (hfile : (disk.files id).get? name = some file) {allocated : Measurement}
    {producerOpen authenticated : Bool}
    (hrecord : recordOpenFileState inv id name file allocated producerOpen authenticated = .ok inv')
    : RowsFit inv' disk := by
  obtain ⟨o, memberSeal, -, -, -, -, hsave⟩ := recordOpenFileState_cases hrecord
  obtain ⟨-, hsave⟩ := require_bind_eq_ok.mp hsave
  obtain rfl := Except.ok.inj hsave
  refine (h.saveMember fun _ => ⟨fun hgone => ?_, fun _ => .inl ⟨file, hfile, rfl⟩⟩).of_members rfl
  cases hgone

/-- What others do to files that are not closed members. -/
lemma interfere_undisturbed (hs : s.Inv) (hu : s.Undisturbed) {file : Option File}
    (hharmless : ∀ m, (s.inventory.members id).get? name = some m → m.producerOpen = true) :
    (step s (.interfere id name file)).Undisturbed := by
  have hother : ∀ id' name' m, (s.inventory.members id').get? name' = some m →
      m.producerOpen = false →
      ((step s (.interfere id name file)).disk.files id').get? name' =
        (s.disk.files id').get? name' := by
    intro id' name' m hrow hclosed
    show (Function.update s.disk.files id _ id').get? name' = _
    by_cases heq : id' = id
    · subst heq
      rw [update_self, FinMap.get?_put, if_neg]
      rintro rfl
      exact absurd ((hharmless m hrow).symm.trans hclosed) (by decide)
    · rw [update_of_ne heq]
  refine ⟨fun id' name' m hrow hclosed => ?_, fun p hp => ?_⟩
  · rw [hother id' name' m hrow hclosed]
    exact hu.rows id' name' m hrow hclosed
  · have hfits := hu.phase p hp
    have hknown := (hs.pass p hp).known
    cases hphase : p.phase with
    | settled t name' m result =>
      rw [hphase] at hfits hknown
      obtain ⟨-, hclosed, ⟨hrow, -⟩, -⟩ := hknown
      simp only [PhaseFits, hother t.id name' m hrow (hclosed name' m hrow)]
      exact hfits
    | _ => trivial

/-- **Every event leaves the files of closed members as recorded or as journaled**, unless others
change them. -/
theorem step_undisturbed (hs : s.Inv) (hu : s.Undisturbed) (he : e.Harmless s) :
    (step s e).Undisturbed := by
  cases e with
  | create id =>
    simp only [step]
    split
    · exact hu
    · exact ⟨hu.rows.of_members rfl, hu.phase⟩
  | beginMember id name =>
    refine produce_undisturbed hu fun inv' h => hu.rows.of_members ?_
    unfold beginMember at h
    split at h
    · cases h
    · obtain ⟨-, h⟩ := require_bind_eq_ok.mp h
      obtain ⟨-, h⟩ := require_bind_eq_ok.mp h
      obtain rfl := Except.ok.inj h
      rfl
  | record id name allocated producerOpen authenticated =>
    simp only [step]
    split
    · exact hu
    · rename_i file hfile
      exact produce_undisturbed hu fun inv' h => recordOpenFileState_rowsFit hu.rows hfile h
  | completeSeal id name memberSeal blocks =>
    refine produce_undisturbed hu fun inv' h => ?_
    rcases completeMemberSeal_cases h with rfl | ⟨record, hrow, hopen, rfl⟩
    · exact hu.rows
    · exact hu.rows.saveMember fun hclosed => absurd (hopen.symm.trans hclosed) (by decide)
  | publish id =>
    refine produce_undisturbed hu fun inv' h => hu.rows.of_members ?_
    unfold publishObject at h
    split at h
    · cases h
    · obtain ⟨-, h⟩ := require_bind_eq_ok.mp h
      obtain ⟨-, h⟩ := require_bind_eq_ok.mp h
      obtain rfl := Except.ok.inj h
      rfl
  | abandon id state =>
    refine produce_undisturbed hu fun inv' h => hu.rows.of_members ?_
    unfold abandonObject at h
    split at h
    · cases h
    · obtain ⟨-, h⟩ := require_bind_eq_ok.mp h
      obtain rfl := Except.ok.inj h
      rfl
  | accept operation =>
    simp only [step]
    split
    · exact hu
    · exact ⟨hu.rows.of_members rfl, hu.phase⟩
  | beginPass operation bounds =>
    simp only [step, beginPass]
    split
    · refine ⟨hu.rows, fun q hq => ?_⟩
      obtain rfl := some.inj hq
      trivial
    · exact hu
  | crash => exact State.Undisturbed.of_none hu.rows rfl
  | interfere id name file => exact interfere_undisturbed hs hu he
  | interfereContainer id present => exact ⟨hu.rows, hu.phase⟩
  | _ => exact of_pass (P := State.Undisturbed) hu fun _ hp => passStep_undisturbed hs hu hp _

/-- **In a run in which others leave the files of closed members alone, these are always as recorded
or as journaled.** -/
theorem run_undisturbed {events : List Event}
    (h : Run.AllSteps step Event.Harmless {} events) : (run events).Undisturbed := by
  have hinit : State.Undisturbed {} :=
    State.Undisturbed.of_none (fun _ _ _ hrow => by cases hrow) rfl
  exact (Run.invariant (P := fun s => s.Inv ∧ s.Undisturbed)
    (fun _ e hs he => ⟨step_inv hs.1 e, step_undisturbed hs.1 hs.2 he⟩) ⟨inv_init, hinit⟩ h).2

/-! ## The credits over every run -/

/-- What holds of every state that is ever committed. -/
structure Reconciled (inv : Inventory) : Prop where
  /-- The bytes of an object are the recorded lengths of its members. -/
  total : ∀ id o, inv.objects.get? id = some o → (o.logicalBytes : ℤ) = inv.memberBytes id
  /-- What was credited to a member and its recorded length are its original length. -/
  original : ∀ id name m, (inv.members id).get? name = some m → m.producerOpen = false →
    ∃ memberSeal, m.memberSeal = some memberSeal ∧
      m.creditedLogicalBytes + m.logicalBytes = memberSeal.length
  /-- Every byte beyond the recorded length was credited exactly once, and no other. -/
  once : ∀ id name m b, (inv.members id).get? name = some m →
    inv.credits.countP (Credit.covers id name b) =
      if m.logicalBytes ≤ b ∧ b < m.logicalBytes + m.creditedLogicalBytes then 1 else 0
  /-- What was credited to a pass is what it has reclaimed, or recovered. -/
  passes : ∀ operation r, inv.operations.get? operation = some r → ∀ recovered,
    r.progress.amountOf recovered = Ledger.total (Credit.amountOf recovered operation) inv.credits
  /-- All members of a removed object are removed, and nothing of them is left. -/
  removed : ∀ id o, inv.objects.get? id = some o → o.state = .removed →
    ∀ name m, (inv.members id).get? name = some m → m.removed = true ∧ m.logicalBytes = 0

/-- The accounts that every event keeps are those that were asked for. -/
lemma Inventory.Inv.reconciled (hi : inv.Inv) : Reconciled inv where
  total := hi.total
  original id name m hrow hclosed := (hi.row id name m hrow).original hclosed
  once id name m b hrow := by
    rw [hi.covered, hrow]
    rfl
  passes operation r hr recovered := by
    rw [hi.credited, hr, map_some, getD_some]
  removed id o ho hstate name m hrow := by
    have hgone := hi.removed id o ho hstate name m hrow
    exact ⟨hgone, ((hi.row id name m hrow).gone hgone).1⟩

/-- The bytes that are there of a file. -/
def fileLength (disk : Disk) (id : Id) (name : String) : ℕ :=
  ((disk.files id).get? name).elim 0 (·.bytes.length)

/-- A file that is as its row says is as long as recorded or as journaled. -/
lemma AsRecorded.fileLength (hm : m.Inv) (h : AsRecorded m ((disk.files id).get? name)) :
    fileLength disk id name = m.logicalBytes ∨
      m.pendingLength = some (fileLength disk id name) := by
  unfold Collection.fileLength
  cases hremoved : m.removed with
  | true => exact .inl (by rw [h.1 hremoved, (hm.gone hremoved).1, elim_none])
  | false =>
    rcases h.2 hremoved with ⟨f, hf, hlength⟩ | ⟨target, htarget, hzero, hfile⟩
    · exact .inl (by rw [hf, elim_some, hlength])
    · right
      rw [htarget]
      by_cases heq : target = 0
      · rw [hzero heq, elim_none, heq]
      · obtain ⟨f, hf, hlength⟩ := hfile heq
        rw [hf, elim_some, hlength]

/-- **Deletion credit is exact.** In every state that a run of producers, passes, crashes and other
programs reaches, the accounts of the catalog are reconciled, and a pass leaves alone a file that
is neither as long as recorded nor as long as journaled. If nobody else changes the files of closed
members, a byte that is gone from a file was credited once, or lies between the length that is
journaled and the one recorded, and a byte that is still there was never credited.

**Proof sketch.** The accounts are an invariant of every event. A pass only changes a file after
it has found it as long as recorded. If others leave the files alone, these are as long as
recorded, or the journaled step has been taken and its credit is still to come. -/
theorem deletion_credit (events : List Event) :
    Reconciled (run events).inventory ∧
      (∀ e : Event, e.interferes = false → ∀ id name file,
        ((run events).disk.files id).get? name = some file →
        (∀ m, ((run events).inventory.members id).get? name = some m →
          file.bytes.length ≠ m.logicalBytes ∧ m.pendingLength ≠ some file.bytes.length) →
        ((step (run events) e).disk.files id).get? name = some file) ∧
      (Run.AllSteps step Event.Harmless {} events → ∀ id name m memberSeal,
        ((run events).inventory.members id).get? name = some m → m.producerOpen = false →
        m.memberSeal = some memberSeal → ∀ b < memberSeal.length,
        (b < fileLength (run events).disk id name →
          (run events).inventory.credits.countP (Credit.covers id name b) = 0) ∧
        (fileLength (run events).disk id name ≤ b →
          (run events).inventory.credits.countP (Credit.covers id name b) = 1 ∨
            m.pendingLength = some (fileLength (run events).disk id name) ∧ b < m.logicalBytes ∧
              (run events).inventory.credits.countP (Credit.covers id name b) = 0)) := by
  have hs := run_inv events
  have hreconciled := hs.accounts.reconciled
  refine ⟨hreconciled, fun e he id name file hfile hneither => ?_,
    fun hharmless id name m memberSeal hrow hclosed hseal b hb => ?_⟩
  · by_contra hchanged
    rw [← hfile] at hchanged
    obtain ⟨m, f, target, hrow, hf, hlength, -⟩ := step_untouched hs he id name hchanged
    rw [hfile] at hf
    obtain rfl := some.inj hf
    exact (hneither m hrow).1 hlength
  · have hm := hs.accounts.row id name m hrow
    have hfits := (run_undisturbed hharmless).rows id name m hrow hclosed
    obtain ⟨s', hs', hsum⟩ := hreconciled.original id name m hrow hclosed
    rw [hseal] at hs'
    obtain rfl := some.inj hs'
    rw [hreconciled.once id name m b hrow]
    rcases hfits.fileLength hm with heq | hjournaled
    · rw [heq]
      constructor
      · intro hlt
        rw [if_neg (by omega)]
      · intro hle
        rw [if_pos ⟨hle, by omega⟩]
        exact .inl rfl
    · have hle := hm.pending _ hjournaled
      constructor
      · intro hlt
        rw [if_neg (by omega)]
      · intro _
        by_cases hcredited : m.logicalBytes ≤ b
        · rw [if_pos ⟨hcredited, by omega⟩]
          exact .inl rfl
        · rw [if_neg (by omega)]
          exact .inr ⟨hjournaled, by omega, rfl⟩

/-- The seal of a member of ten bytes. -/
def payloadSeal : MemberSeal := ⟨FORMAT, 10, 1, [⟨0, 10, 7⟩]⟩

/-- A run that ends between unlinking a file and crediting its bytes. -/
def crashRun : List Event :=
  [.create 1, .beginMember 1 "payload", .interfere 1 "payload" (some ⟨5, 6, List.replicate 10 0⟩),
    .record 1 "payload" (.observed 0) true true, .completeSeal 1 "payload" payloadSeal 1,
    .record 1 "payload" (.observed 0) false true, .publish 1, .accept 9,
    .beginPass 9 ⟨10, 10, 10000, 10⟩, .examine 1 false .done, .collect true false .done,
    .withdraw .done, .markPendingDeletion .done,
    .deleteMember ⟨false, .ok true, false, 4096, .observed 0⟩ .done,
    .removeBytes false (.observed 0) .done, .crash]

/-- The row of the member after that run. -/
def unlinkedRow : FileRecord where
  identity := 5
  ownership := 6
  producerOpen := false
  memberSeal := some payloadSeal
  logicalBytes := 10
  allocatedBytes := .observed 0
  pendingLength := some 0
  pendingManifest := some payloadSeal.manifest
  removed := false
  creditedLogicalBytes := 0
  creditedAllocatedBytes := 0

/-- After that run the first byte is gone, and its credit is still to come. -/
theorem deletion_credit_crashRun :
    (run crashRun).inventory.credits.countP (Credit.covers 1 "payload" 0) = 1 ∨
      unlinkedRow.pendingLength = some (fileLength (run crashRun).disk 1 "payload") ∧
        0 < unlinkedRow.logicalBytes ∧
        (run crashRun).inventory.credits.countP (Credit.covers 1 "payload" 0) = 0 :=
  ((deletion_credit crashRun).2.2
    ⟨trivial, trivial, fun m h => (by cases h), trivial, trivial, trivial, trivial,
      trivial, trivial, trivial, trivial, trivial, trivial, trivial, trivial, trivial, trivial⟩
    1 "payload" unlinkedRow payloadSeal (by decide +kernel) rfl rfl 0 (by decide)).2
    (by decide +kernel)

end Collection

end Tgrep.Managed
