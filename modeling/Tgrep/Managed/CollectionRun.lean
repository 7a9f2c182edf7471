import Tgrep.Managed.CollectionInvariant

/-!
# Passes keep the accounts

A producer is kept out while a pass holds the lock of an object, and refuses an object that is
pending deletion, so that what a pass has read of the catalog stays true between its steps.

## Main definitions

* `Produces`: what a producer may change.
* `PhaseInv`, `Pass.Inv`, `State.Inv`: what a pass knows about the catalog.

## Main results

* `produces_recordOpenFileState`, … — the producers keep to that.
* `planDeletion_spec`: what is decided about a member.
* `step_inv`, `run_inv`: the step and run lemmas.
-/

namespace Tgrep.Managed

open Option Bool FinMap Loops List

namespace Collection

variable {inv inv' : Inventory} {id : Id} {name : String}

/-! ## Producers -/

/-- What a producer of the object `id` may change: its row and members, unless all of these are
gone. -/
structure Produces (inv inv' : Inventory) (id : Id) : Prop where
  /-- The invariant is kept. -/
  kept : inv'.Inv
  /-- Other objects are left alone. -/
  objects : ∀ id', id' ≠ id → inv'.objects.get? id' = inv.objects.get? id'
  /-- So are their members. -/
  members : ∀ id', id' ≠ id → inv'.members id' = inv.members id'
  /-- So are the operations. -/
  operations : inv'.operations = inv.operations
  /-- The members of an object that is pending deletion are not recorded again. -/
  frozen : ∀ o, inv.objects.get? id = some o → o.state = .pendingDeletion →
    (∀ name m, (inv.members id).get? name = some m → m.removed = true) →
    inv'.objects.get? id = some o ∧ inv'.members id = inv.members id

/-- A change of the state of an object that is not pending deletion. -/
lemma Produces.saveState (hi : inv.Inv) {o : ObjectRecord} {state : ObjectState}
    (ho : inv.objects.get? id = some o) (hold : o.state ≠ .pendingDeletion)
    (hnew : state ≠ .removed) : Produces inv (inv.saveObject id { o with state := state }) id where
  kept := hi.saveState (hi.total id o ho) fun h => absurd h hnew
  objects id' hne := by rw [Inventory.get?_saveObject, if_neg hne]
  members _ _ := rfl
  operations := rfl
  frozen o' ho' hstate := by
    rw [ho] at ho'
    obtain rfl := some.inj ho'
    exact absurd hstate hold

/-- `begin_member` changes nothing but the announcements. -/
lemma produces_beginMember (hi : inv.Inv) (h : beginMember inv id name = .ok inv') :
    Produces inv inv' id := by
  unfold beginMember at h
  cases ho : inv.objects.get? id with
  | none =>
    rw [ho] at h
    cases h
  | some o =>
    rw [ho] at h
    obtain ⟨-, h⟩ := require_bind_eq_ok.mp h
    obtain ⟨-, h⟩ := require_bind_eq_ok.mp h
    obtain rfl := (Except.ok.inj h).symm
    exact ⟨hi.of_eq rfl rfl rfl rfl, fun _ _ => rfl, fun _ _ => rfl, rfl, fun _ h _ _ => ⟨h, rfl⟩⟩

/-- `publish_object` publishes an object that was being prepared. -/
lemma produces_publishObject (hi : inv.Inv) (h : publishObject inv id = .ok inv') :
    Produces inv inv' id := by
  unfold publishObject at h
  cases ho : inv.objects.get? id with
  | none =>
    rw [ho] at h
    cases h
  | some o =>
    rw [ho] at h
    obtain ⟨hstate, h⟩ := require_bind_eq_ok.mp h
    obtain ⟨-, h⟩ := require_bind_eq_ok.mp h
    obtain rfl := (Except.ok.inj h).symm
    refine Produces.saveState hi ho ?_ (by decide)
    rw [hstate]
    decide

/-- An interrupted preparation is retired or quarantined. -/
lemma produces_abandonObject (hi : inv.Inv) {state : ObjectState}
    (h : abandonObject inv id state = .ok inv') : Produces inv inv' id := by
  unfold abandonObject at h
  cases ho : inv.objects.get? id with
  | none =>
    rw [ho] at h
    cases h
  | some o =>
    rw [ho] at h
    obtain ⟨hstate, h⟩ := require_bind_eq_ok.mp h
    obtain rfl := (Except.ok.inj h).symm
    rcases hstate with ⟨rfl, hprep⟩ | ⟨rfl, hprep | hret⟩
    · exact Produces.saveState hi ho (by rw [hprep]; decide) (by decide)
    · exact Produces.saveState hi ho (by rw [hprep]; decide) (by decide)
    · exact Produces.saveState hi ho (by rw [hret]; decide) (by decide)

variable {file : File} {progress : Progress} {producerOpen : Bool} {phase : Phase}
  {allocated : Measurement} {memberSeal : MemberSeal} {v : Verification} {t : Target}
  {m : FileRecord}

/-- What `complete_member_seal` changes: the seal of a member that is still written. -/
lemma completeMemberSeal_cases {blocks : ℕ}
    (h : completeMemberSeal inv id name memberSeal blocks = .ok inv') :
    inv' = inv ∨ ∃ record, (inv.members id).get? name = some record ∧ record.producerOpen = true ∧
      inv' = inv.saveMember id name { record with memberSeal := some memberSeal } := by
  obtain ⟨-, -, h⟩ := bind_eq_ok.mp h
  cases hrow : (inv.members id).get? name with
  | none =>
    rw [hrow] at h
    cases h
  | some record =>
    rw [hrow] at h
    dsimp only at h
    split at h
    · exact .inl (Except.ok.inj h).symm
    · obtain ⟨⟨hopen, -⟩, h⟩ := require_bind_eq_ok.mp h
      obtain ⟨-, h⟩ := require_bind_eq_ok.mp h
      exact .inr ⟨record, rfl, hopen, (Except.ok.inj h).symm⟩

/-- `complete_member_seal` keeps the accounts. -/
lemma produces_completeMemberSeal (hi : inv.Inv) {blocks : ℕ}
    (h : completeMemberSeal inv id name memberSeal blocks = .ok inv') : Produces inv inv' id := by
  rcases completeMemberSeal_cases h with rfl | ⟨record, hrow, hopen, rfl⟩
  · exact ⟨hi, fun _ _ => rfl, fun _ _ => rfl, rfl, fun _ h _ _ => ⟨h, rfl⟩⟩
  · have hrecord := hi.row id name record hrow
    refine ⟨hi.saveRow hrow ?_ rfl rfl fun h => h, fun _ _ => rfl, fun id' hne => ?_, rfl,
      fun o ho _ hgone => ?_⟩
    · refine ⟨hrecord.untouched, fun hclosed => ?_, hrecord.gone, hrecord.pending⟩
      exact absurd (hopen.symm.trans hclosed) (by decide)
    · exact Inventory.members_saveMember_of_ne _ _ _ _ _ hne
    · -- a member that is still written is not gone
      have := (hrecord.untouched hopen).2.1
      rw [hgone name record hrow] at this
      cases this

/-- What `record_open_file_state` changes. -/
lemma recordOpenFileState_cases {authenticated : Bool}
    (h : recordOpenFileState inv id name file allocated producerOpen authenticated = .ok inv') :
    ∃ o memberSeal, inv.objects.get? id = some o ∧ withdrawnForProducers o.state = false ∧
      (∀ m, (inv.members id).get? name = some m → m.creditedLogicalBytes = 0) ∧
      checkClosed (.ofFile file allocated producerOpen memberSeal) = .ok () ∧
      saveRecorded inv id name o (.ofFile file allocated producerOpen memberSeal) = .ok inv' := by
  obtain ⟨memberSeal, hseal, h⟩ := bind_eq_ok.mp h
  obtain ⟨_, hclosed, h⟩ := bind_eq_ok.mp h
  cases ho : inv.objects.get? id with
  | none =>
    rw [ho] at h
    cases h
  | some o =>
    rw [ho] at h
    obtain ⟨hstate, h⟩ := require_bind_eq_ok.mp h
    refine ⟨o, memberSeal, rfl, hstate, fun m hm => ?_, hclosed, h⟩
    unfold inheritedSeal at hseal
    rw [hm] at hseal
    obtain ⟨hdiffers, -⟩ := require_bind_eq_ok.mp hseal
    simp only [differs, or_eq_false_iff, bne_eq_false_iff_eq] at hdiffers
    exact hdiffers.1.1.2

/-- A row of a producer fits its seal. -/
lemma inv_ofFile {memberSeal : Option MemberSeal}
    (h : checkClosed (.ofFile file allocated producerOpen memberSeal) = .ok ()) :
    (FileRecord.ofFile file allocated producerOpen memberSeal).Inv := by
  refine ⟨fun _ => ⟨rfl, rfl, rfl⟩, fun hclosed => ?_, nofun, nofun⟩
  have hclosed : producerOpen = false := hclosed
  subst hclosed
  cases memberSeal with
  | none => cases h
  | some memberSeal =>
    obtain ⟨-, -, h⟩ := bind_eq_ok.mp h
    exact ⟨memberSeal, rfl, (zero_add _).trans (require_eq_ok.mp h).symm⟩

/-- `record_open_file_state` keeps the accounts. -/
lemma produces_recordOpenFileState (hi : inv.Inv) {authenticated : Bool}
    (h : recordOpenFileState inv id name file allocated producerOpen authenticated = .ok inv') :
    Produces inv inv' id := by
  obtain ⟨o, memberSeal, ho, hstate, hcredited, hclosed, hsave⟩ := recordOpenFileState_cases h
  set record := FileRecord.ofFile file allocated producerOpen memberSeal
  obtain ⟨-, hsave⟩ := require_bind_eq_ok.mp hsave
  obtain rfl := (Except.ok.inj hsave).symm
  have hnonneg : 0 ≤ (inv.saveMember id name record).memberBytes id :=
    tally_nonneg fun _ m => Int.natCast_nonneg _
  have hlive : o.state ≠ .removed ∧ o.state ≠ .pendingDeletion := by
    constructor <;> intro heq <;> rw [heq] at hstate <;> cases hstate
  refine ⟨?_, fun id' hne => ?_, fun id' hne => ?_, rfl, fun o' ho' hpending _ => ?_⟩
  · set o' : ObjectRecord := { o with
      logicalBytes := ((inv.saveMember id name record).memberBytes id).toNat
      allocatedBytes := (inv.saveMember id name record).memberAllocation id }
    have hbytes : (o'.logicalBytes : ℤ) = (inv.saveMember id name record).memberBytes id :=
      Int.toNat_of_nonneg hnonneg
    have hlive' : o'.state ≠ .removed := hlive.1
    have hrecord := hi.record ho (inv_ofFile hclosed) rfl hcredited hlive' hbytes
    exact hrecord.of_eq rfl rfl rfl rfl
  · rw [Inventory.get?_saveObject, if_neg hne]
    rfl
  · exact Inventory.members_saveMember_of_ne _ _ _ _ _ hne
  · rw [ho] at ho'
    obtain rfl := some.inj ho'
    exact absurd hpending hlive.2

/-! ## What a pass knows -/

/-- The object a phase is about. -/
def Phase.target : Phase → Option Id
  | .eligible t | .withdrawn t | .deleting t | .intended t _ _ _ | .settled t _ _ _ | .emptied t |
    .vacated t => some t.id
  | .idle | .examining _ | .ending => none

/-- The producers of all members of the object have closed them. -/
def Closed (inv : Inventory) (id : Id) : Prop :=
  ∀ name m, (inv.members id).get? name = some m → m.producerOpen = false

/-- All members of the object are gone. -/
def Gone (inv : Inventory) (id : Id) : Prop :=
  ∀ name m, (inv.members id).get? name = some m → m.removed = true

/-- The object is pending deletion. -/
def Pending (inv : Inventory) (id : Id) : Prop :=
  ∃ o, inv.objects.get? id = some o ∧ o.state = .pendingDeletion

/-- The catalog has this row of a member, which is not gone. -/
def Retained (inv : Inventory) (id : Id) (name : String) (m : FileRecord) : Prop :=
  (inv.members id).get? name = some m ∧ m.removed = false

/-- What a pass in a certain phase knows about the catalog. -/
def PhaseInv (inv : Inventory) : Phase → Prop
  | .idle | .examining _ | .ending => True
  | .eligible t => inv.objects.get? t.id = some t.object ∧ t.object.state ≠ .removed ∧
      Closed inv t.id
  | .withdrawn t => inv.objects.get? t.id = some t.object ∧
      (t.object.state = .retired ∨ t.object.state = .pendingDeletion) ∧ Closed inv t.id
  | .deleting t => Pending inv t.id ∧ Closed inv t.id
  | .intended t name m v => Pending inv t.id ∧ Closed inv t.id ∧ Retained inv t.id name m ∧
      v.currentLength = m.logicalBytes
  | .settled t name m result => Pending inv t.id ∧ Closed inv t.id ∧ Retained inv t.id name m ∧
      m.pendingLength = some result.after ∧ (result.removed = true → result.after = 0)
  | .emptied t | .vacated t => Pending inv t.id ∧ Gone inv t.id

/-- What a pass knows depends on the rows of its object only. -/
lemma PhaseInv.congr (h : PhaseInv inv phase)
    (hobjects : ∀ id, phase.target = some id → inv'.objects.get? id = inv.objects.get? id)
    (hmembers : ∀ id, phase.target = some id → inv'.members id = inv.members id) :
    PhaseInv inv' phase := by
  cases phase with
  | idle => trivial
  | examining id => trivial
  | ending => trivial
  | _ =>
    simp only [PhaseInv, Pending, Closed, Retained, Gone, hobjects _ rfl, hmembers _ rfl] at h ⊢
    exact h

/-- What a pass knows. -/
structure Pass.Inv (inv : Inventory) (p : Pass) : Prop where
  /-- The bytes that are recorded for the operation, which is not finished. -/
  recorded : ∃ r, inv.operations.get? p.operation = some r ∧ r.result = none ∧
    ∀ recovered, p.progress.amountOf recovered = r.progress.amountOf recovered
  /-- The catalog. -/
  known : PhaseInv inv p.phase

/-- **The invariant of a namespace.** -/
structure State.Inv (s : State) : Prop where
  /-- The accounts of the catalog. -/
  accounts : s.inventory.Inv
  /-- What the pass knows. -/
  pass : ∀ p, s.pass = some p → p.Inv s.inventory

variable {s : State} {p : Pass}

/-- Without a pass there is nothing else to know. -/
lemma State.Inv.of_none (hi : s.inventory.Inv) (hpass : s.pass = none) : s.Inv := by
  refine ⟨hi, fun q hq => ?_⟩
  rw [hpass] at hq
  cases hq

/-- A pass that gives up. -/
lemma State.Inv.abort (hi : s.inventory.Inv) : s.abort.Inv := State.Inv.of_none hi rfl

/-- A pass that goes on with another object. -/
lemma State.Inv.skip (hi : s.inventory.Inv) (hp : p.Inv s.inventory) : (s.skip p).Inv := by
  refine ⟨hi, fun q hq => ?_⟩
  obtain rfl := some.inj hq
  obtain ⟨r, hr, hresult, hamount⟩ := hp.recorded
  exact ⟨⟨r, hr, hresult, hamount⟩, trivial⟩

/-- A pass that goes on with what it knows. -/
lemma State.Inv.resume (hi : s.inventory.Inv) (hp : p.Inv s.inventory)
    (hphase : PhaseInv s.inventory phase) : (s.resume p phase).Inv := by
  refine ⟨hi, fun q hq => ?_⟩
  obtain rfl := some.inj hq
  exact ⟨hp.recorded, hphase⟩

/-- A transaction whose change keeps the accounts, and after which the pass knows what it should.-/
lemma State.Inv.transaction (hi : s.inventory.Inv) (hp : p.Inv s.inventory) {outcome : Outcome}
    {change : Inventory → Progress → Except Error (Inventory × Progress)}
    (hchange : ∀ inv' progress', change s.inventory p.progress = .ok (inv', progress') →
      (inv'.saveProgress p.operation progress').Inv ∧
        inv'.operations = s.inventory.operations ∧ PhaseInv inv' phase) :
    (s.collectionTransaction p outcome change phase).Inv := by
  unfold collectionTransaction
  cases h : change s.inventory p.progress with
  | error e => exact State.Inv.abort hi
  | ok result =>
    obtain ⟨inv', progress'⟩ := result
    obtain ⟨hkept, hoperations, hphase⟩ := hchange inv' progress' h
    cases outcome with
    | lost => exact State.Inv.abort hi
    | unconfirmed => exact State.Inv.of_none hkept rfl
    | done =>
      refine ⟨hkept, fun q hq => ?_⟩
      obtain rfl := some.inj hq
      obtain ⟨r, hr, hresult, -⟩ := hp.recorded
      refine ⟨⟨{ r with progress := progress' }, ?_, hresult, fun _ => rfl⟩,
        hphase.congr (fun _ _ => rfl) (fun _ _ => rfl)⟩
      rw [Inventory.get?_saveProgress, if_pos rfl, hoperations, hr, map_some]

/-- A change of the row of an object in a transaction that credits nothing. -/
lemma Inventory.Inv.saveState_saveProgress (hi : inv.Inv) (hp : p.Inv inv) {o : ObjectRecord}
    (hbytes : (o.logicalBytes : ℤ) = inv.memberBytes id)
    (hremoved : o.state = .removed → Gone inv id)
    (hsame : ∀ recovered, progress.amountOf recovered = p.progress.amountOf recovered) :
    ((inv.saveObject id o).saveProgress p.operation progress).Inv := by
  obtain ⟨r, hr, -, hamount⟩ := hp.recorded
  exact (hi.saveState hbytes hremoved).saveProgress hr fun recovered =>
    (hsame recovered).trans (hamount recovered)

/-! ## Deciding about a member -/

/-- The member that is asked for is not gone. -/
lemma nextMember_spec {members : FinMap String FileRecord}
    (h : nextMember members = some (name, m)) : members.get? name = some m ∧ m.removed = false := by
  have hmem := mem_of_mem_head? (Option.mem_def.mpr h)
  simp only [mem_append, mem_filter] at hmem
  have hrow : (name, m) ∈ members.toList ∧ (!m.removed) = true := by
    rcases hmem with ⟨hmem, -⟩ | ⟨hmem, -⟩ <;> exact hmem
  exact ⟨FinMap.mem_toList.mp hrow.1, by simpa using hrow.2⟩

/-- If there is no next member, all are gone. -/
lemma nextMember_eq_none (h : nextMember (inv.members id) = none) : Gone inv id := by
  intro name m hm
  by_contra hlive
  have hmem : (name, m) ∈ (inv.members id).toList.filter fun row => !row.2.removed :=
    mem_filter.mpr ⟨FinMap.mem_toList.mpr hm, by simpa using hlive⟩
  have hnil := head?_eq_none_iff.mp h
  rw [append_eq_nil_iff, filter_eq_nil_iff, filter_eq_nil_iff] at hnil
  by_cases hname : name = "object.json"
  · exact hnil.2 _ hmem (by simpa using hname)
  · exact hnil.1 _ hmem (by simpa using hname)

/-- An authenticated file is as long as the verification says. -/
lemma Verification.check_eq_ok {file : Option File} (h : v.check file = .ok ()) :
    ∃ f, file = some f ∧ f.bytes.length = v.currentLength := by
  cases file with
  | none => cases h
  | some f => exact ⟨f, rfl, (require_eq_ok.mp h).2.1⟩

/-- The length of a verification is the recorded one or the journaled one. -/
def Verification.Bound (v : Verification) (m : FileRecord) : Prop :=
  v.currentLength = m.logicalBytes ∨ m.pendingLength = some v.currentLength

/-- A verification that is resumed or begun is bound to the member. -/
lemma Verification.resume_bound {cached : Option Verification} {expired : Bool}
    (h : Verification.resume (Verification.rebind cached id name m expired) id name m file = .ok v) :
    v.Bound m := by
  cases hcached : Verification.rebind cached id name m expired with
  | some w =>
    rw [hcached] at h
    obtain rfl := Except.ok.inj h
    have hsame := (Option.filter_eq_some_iff.mp hcached).2
    simp only [sameMember, and_eq_true, or_eq_true, beq_iff_eq] at hsame
    exact hsame.1.2
  | none =>
    rw [hcached] at h
    unfold resume new at h
    cases hseal : m.memberSeal with
    | none =>
      rw [hseal] at h
      cases h
    | some memberSeal =>
      rw [hseal] at h
      obtain ⟨_, -, h⟩ := bind_eq_ok.mp h
      obtain ⟨-, h⟩ := require_bind_eq_ok.mp h
      obtain ⟨hlength, h⟩ := require_bind_eq_ok.mp h
      obtain ⟨-, h⟩ := require_bind_eq_ok.mp h
      obtain ⟨_, -, h⟩ := bind_eq_ok.mp h
      obtain rfl := Except.ok.inj h
      refine hlength.imp_right fun hpending => ?_
      cases htarget : authorizedPending m memberSeal with
      | none =>
        rw [htarget] at hpending
        cases hpending
      | some target =>
        rw [htarget, any_some, decide_eq_true_eq] at hpending
        have := (Option.filter_eq_some_iff.mp htarget).1
        rw [hpending.2] at this
        exact this

/-- What is known of a plan. -/
def Plan.Sound (m : FileRecord) (file : Option File) : Plan → Prop
  | .wait _ => True
  | .recover _ current true =>
      m.pendingLength = some current ∧ ∃ f, file = some f ∧ f.bytes.length = current
  | .recover _ current false => m.pendingLength = some current ∧ current = 0 ∧ file = none
  | .intend v m' => v.currentLength = m.logicalBytes ∧
      (∃ f, file = some f ∧ f.bytes.length = m.logicalBytes) ∧
      ∃ target, target ≤ m.logicalBytes ∧ m' = { m with
        allocatedBytes := m'.allocatedBytes
        pendingLength := some target
        pendingManifest := m'.pendingManifest }

/-- The length after a chunk. -/
lemma deletionTarget_le {current chunk target : ℕ} (h : deletionTarget current chunk = .ok target)
    (hlt : ¬ (target ≥ current ∧ current ≠ 0)) : target ≤ current := by
  unfold deletionTarget at h
  split at h
  · obtain rfl := Except.ok.inj h
    exact Nat.zero_le _
  · rename_i hchunk
    rw [decide_eq_false_iff_not] at hchunk
    omega

/-- When the journaled deletion has happened. -/
lemma recovered_spec {current : ℕ} {missing b : Bool} (h : recovered m current missing = .ok b) :
    (b = missing ∧ (m.pendingLength = none ∨ m.logicalBytes ≤ current)) ∨
      (b = true ∧ m.pendingLength = some current) := by
  unfold recovered at h
  cases hpending : m.pendingLength with
  | none =>
    rw [hpending] at h
    exact .inl ⟨(Except.ok.inj h).symm, .inl rfl⟩
  | some target =>
    rw [hpending] at h
    dsimp only at h
    split at h
    · obtain ⟨heq, h⟩ := require_bind_eq_ok.mp h
      exact .inr ⟨(Except.ok.inj h).symm, by rw [heq]⟩
    · rename_i hle
      rw [decide_eq_false_iff_not, not_lt] at hle
      exact .inl ⟨(Except.ok.inj h).symm, .inr hle⟩

/-- What a chunk leaves of a member that is as long as recorded. -/
lemma planChunk_spec {remaining : ℕ} {file : Option File} {env : Observation} {plan : Plan}
    (hlength : v.currentLength = m.logicalBytes)
    (h : planChunk remaining memberSeal m file env (some v) = .ok plan) : plan.Sound m file := by
  obtain ⟨_, hcheck, h⟩ := bind_eq_ok.mp h
  obtain ⟨target, htarget, h⟩ := bind_eq_ok.mp h
  obtain ⟨hlt, h⟩ := require_bind_eq_ok.mp h
  obtain rfl := Except.ok.inj h
  obtain ⟨f, hf, hflen⟩ := Verification.check_eq_ok hcheck
  exact ⟨hlength, ⟨f, hf, hflen.trans hlength⟩, target,
    hlength ▸ deletionTarget_le htarget hlt, rfl⟩

/-- **What is decided about a member.** A chunk is only journaled for a file that is as long as
recorded, and bytes are only recovered if the file is as journaled.

**Proof sketch.** An authenticated file is as long as recorded or as journaled. If it is shorter
than recorded it must be as journaled; otherwise, since an intent never extends a member, it is as
long as recorded. -/
theorem planDeletion_spec {remaining : ℕ} {file : Option File} {cached : Option Verification}
    {env : Observation} {plan : Plan} (hm : m.Inv)
    (h : planDeletion remaining id name m file cached env = .ok plan) : plan.Sound m file := by
  obtain ⟨memberSeal, -, h⟩ := Loops.bind_eq_ok.mp h
  obtain ⟨here, hexists, h⟩ := Loops.bind_eq_ok.mp h
  cases file with
  | none =>
    obtain ⟨hpending, -⟩ := require_bind_eq_ok.mp hexists
    obtain ⟨b, hb, h⟩ := Loops.bind_eq_ok.mp h
    have hgone : b = true := by
      rcases recovered_spec hb with ⟨rfl, -⟩ | ⟨rfl, -⟩ <;> rfl
    subst hgone
    obtain rfl := Except.ok.inj h
    exact ⟨hpending, rfl, rfl⟩
  | some f =>
    obtain ⟨v, hv, h⟩ := Loops.bind_eq_ok.mp h
    obtain ⟨_, hcheck, h⟩ := Loops.bind_eq_ok.mp h
    obtain ⟨page, -, h⟩ := Loops.bind_eq_ok.mp h
    cases page with
    | false =>
      obtain rfl := Except.ok.inj h
      trivial
    | true =>
      obtain ⟨b, hb, h⟩ := Loops.bind_eq_ok.mp h
      obtain ⟨f', hf', hlen⟩ := Verification.check_eq_ok hcheck
      rcases recovered_spec hb with ⟨rfl, hrecorded⟩ | ⟨rfl, hpending⟩
      · refine planChunk_spec ?_ h
        show v.currentLength = m.logicalBytes
        rcases Verification.resume_bound hv with heq | hjournaled
        · exact heq
        · have hle := hm.pending _ hjournaled
          rcases hrecorded with hnone | hge
          · rw [hnone] at hjournaled
            cases hjournaled
          · exact Nat.le_antisymm hle hge
      · obtain rfl := Except.ok.inj h
        exact ⟨hpending, f', hf', hlen⟩

/-! ## The steps of a pass -/

/-- Progress that differs in other counts only. -/
lemma Pass.Inv.setProgress (hp : p.Inv inv)
    (hsame : ∀ recovered, progress.amountOf recovered = p.progress.amountOf recovered) :
    Pass.Inv inv { p with progress := progress } := by
  obtain ⟨r, hr, hresult, hamount⟩ := hp.recorded
  exact ⟨⟨r, hr, hresult, fun recovered => (hsame recovered).trans (hamount recovered)⟩, hp.known⟩

/-- Choosing an object. -/
lemma examine_inv (hi : s.inventory.Inv) (hp : p.Inv s.inventory) (id : Id) (continued : Bool)
    (outcome : Outcome) : (examine s p id continued outcome).Inv := by
  unfold examine
  split
  · exact State.Inv.resume hi hp trivial
  · refine State.Inv.transaction hi hp fun inv' progress' h => ?_
    obtain ⟨rfl, rfl⟩ := Prod.mk.inj (Except.ok.inj h)
    obtain ⟨r, hr, -, hamount⟩ := hp.recorded
    refine ⟨hi.saveProgress hr fun recovered => ?_, rfl, trivial⟩
    rw [← hamount recovered]
    cases recovered <;> rfl

/-- No member is outstanding iff all are gone. -/
lemma gone_of_outstanding (h : outstanding inv id = false) : Gone inv id := by
  intro name m hm
  simp only [outstanding, not_eq_false', decide_eq_true_eq] at h
  have := h name (mem_keys_of_get? hm)
  rwa [hm, any_some] at this

/-- An object all of whose members are gone has no bytes. -/
lemma Inventory.Inv.memberBytes_eq_zero (hi : inv.Inv) (hgone : Gone inv id) :
    inv.memberBytes id = 0 := by
  refine Finset.sum_eq_zero fun name _ => ?_
  cases hrow : (inv.members id).get? name with
  | none => exact contribution_of_none hrow
  | some m =>
    rw [contribution_of_some hrow, ((hi.row id name m hrow).gone (hgone name m hrow)).1]
    rfl

/-- Recording an object as removed whose container is gone. -/
lemma finishMissingContainer_inv (hi : s.inventory.Inv) (hp : p.Inv s.inventory) (id : Id)
    (o : ObjectRecord) (referenced : Bool) (outcome : Outcome) :
    (finishMissingContainer s p id o referenced outcome).Inv := by
  unfold finishMissingContainer
  split
  · exact State.Inv.skip hi hp
  · rename_i hnone
    simp only [or_eq_false_iff] at hnone
    have hgone := gone_of_outstanding hnone.1.1
    refine State.Inv.transaction hi hp fun inv' progress' h => ?_
    cases ho : s.inventory.objects.get? id with
    | none =>
      rw [ho] at h
      cases h
    | some row =>
      rw [ho] at h
      obtain ⟨rfl, rfl⟩ := Prod.mk.inj (Except.ok.inj h)
      refine ⟨?_, rfl, trivial⟩
      refine Inventory.Inv.saveState_saveProgress hi hp ?_ (fun _ => hgone) fun recovered => ?_
      · exact hi.total id row ho
      · cases recovered <;> rfl

/-- The members of an object that may be collected are closed. -/
lemma closed_of_unsealed (h : inv.unsealed id = false) : Closed inv id := by
  intro name m hm
  simp only [Inventory.unsealed, not_eq_false', and_eq_true, decide_eq_true_eq] at h
  have := h.2 name (mem_keys_of_get? hm)
  rw [hm, any_some, Inventory.closedRow, and_eq_true, not_eq_true'] at this
  exact this.1

/-- Looking at an object. -/
lemma collectObject_inv (hi : s.inventory.Inv) (hp : p.Inv s.inventory) (id : Id)
    (eligible referenced : Bool) (outcome : Outcome) :
    (collectObject s p id eligible referenced outcome).Inv := by
  have hskip : Pass.Inv s.inventory { p with
      progress := { p.progress with skipped := p.progress.skipped + 1 } } :=
    hp.setProgress fun recovered => by cases recovered <;> rfl
  unfold collectObject
  cases ho : s.inventory.objects.get? id with
  | none => exact State.Inv.skip hi hp
  | some o =>
    dsimp only
    split
    · exact State.Inv.resume hi hp trivial
    · exact finishMissingContainer_inv hi hp id o referenced outcome
    · exact State.Inv.resume hi hskip trivial
    · rename_i hremoved _ _
      split
      · exact State.Inv.resume hi hskip trivial
      · exact State.Inv.skip hi hp
      · rename_i heligible _
        rw [and_eq_true, not_eq_true'] at heligible
        exact State.Inv.resume hi hp ⟨ho, fun h => hremoved h, closed_of_unsealed heligible.2⟩

/-- Withdrawing an object. -/
lemma withdraw_inv (hi : s.inventory.Inv) (hp : p.Inv s.inventory) (ht : p.phase = .eligible t)
    (outcome : Outcome) : (withdraw s p t outcome).Inv := by
  have hknown := hp.known
  rw [ht] at hknown
  obtain ⟨ho, -, hclosed⟩ := hknown
  unfold withdraw
  split
  · rename_i hstate
    exact State.Inv.resume hi hp ⟨ho, .inl hstate, hclosed⟩
  · rename_i hstate
    exact State.Inv.resume hi hp ⟨ho, .inr hstate, hclosed⟩
  · rw [ho]
    refine State.Inv.transaction hi hp fun inv' progress' h => ?_
    obtain ⟨rfl, rfl⟩ := Prod.mk.inj (Except.ok.inj h)
    refine ⟨?_, rfl, ?_, .inl rfl, hclosed⟩
    · refine Inventory.Inv.saveState_saveProgress hi hp ?_ (fun h => ?_) fun recovered => ?_
      · exact hi.total t.id t.object ho
      · cases h
      · cases recovered <;> rfl
    · exact get?_insert_self _ _ _

/-- Marking an object for deletion. -/
lemma markPendingDeletion_inv (hi : s.inventory.Inv) (hp : p.Inv s.inventory)
    (ht : p.phase = .withdrawn t) (outcome : Outcome) :
    (markPendingDeletion s p t outcome).Inv := by
  have hknown := hp.known
  rw [ht] at hknown
  obtain ⟨ho, hstate, hclosed⟩ := hknown
  unfold markPendingDeletion
  split
  · refine State.Inv.transaction hi hp fun inv' progress' h => ?_
    obtain ⟨rfl, rfl⟩ := Prod.mk.inj (Except.ok.inj h)
    refine ⟨?_, rfl, ⟨_, get?_insert_self _ _ _, rfl⟩, hclosed⟩
    refine Inventory.Inv.saveState_saveProgress hi hp ?_ (fun h => ?_) fun _ => rfl
    · exact hi.total t.id t.object ho
    · cases h
  · rename_i hne
    exact State.Inv.resume hi hp ⟨⟨t.object, ho, hstate.resolve_left hne⟩, hclosed⟩

/-- The row that is journaled keeps the accounts of its member. -/
lemma FileRecord.Inv.intend (hm : m.Inv) (hclosed : m.producerOpen = false)
    (hlive : m.removed = false) {target : ℕ} (htarget : target ≤ m.logicalBytes)
    (allocated : Measurement) (manifest : Option (List Block)) :
    FileRecord.Inv { m with
      allocatedBytes := allocated
      pendingLength := some target
      pendingManifest := manifest } := by
  refine ⟨fun hopen => ?_, hm.original, fun hgone => ?_, fun t ht => ?_⟩
  · exact absurd (hopen.symm.trans hclosed) (by decide)
  · exact absurd (hgone.symm.trans hlive) (by decide)
  · obtain rfl := some.inj ht
    exact htarget

/-- Turning to the next member. -/
lemma deleteMember_inv (hi : s.inventory.Inv) (hp : p.Inv s.inventory) (ht : p.phase = .deleting t)
    (env : Observation) (outcome : Outcome) : (deleteMember s p t env outcome).Inv := by
  have hknown := hp.known
  rw [ht] at hknown
  obtain ⟨hpending, hclosed⟩ := hknown
  unfold deleteMember
  split
  · exact State.Inv.resume hi hp trivial
  · have hp' : Pass.Inv s.inventory
        { p with progress := { p.progress with pages := p.progress.pages + 1 } } :=
      hp.setProgress fun recovered => by cases recovered <;> rfl
    dsimp only
    split
    · rename_i hnone
      exact State.Inv.resume hi hp' ⟨hpending, nextMember_eq_none hnone⟩
    · rename_i name m hnext
      obtain ⟨hrow, hlive⟩ := nextMember_spec hnext
      have hm := hi.row t.id name m hrow
      split
      · exact State.Inv.skip hi hp'
      · rename_i v _
        refine State.Inv.resume (s := { s with cached := some v }) hi hp' ?_
        split_ifs
        · trivial
        · exact ⟨hpending, hclosed⟩
      · rename_i v current here hplan
        refine State.Inv.resume (s := { s with cached := none }) hi hp' ?_
        have hsound := planDeletion_spec hm hplan
        cases here with
        | true => exact ⟨hpending, hclosed, ⟨hrow, hlive⟩, hsound.1, nofun⟩
        | false => exact ⟨hpending, hclosed, ⟨hrow, hlive⟩, hsound.1, fun _ => hsound.2.1⟩
      · rename_i v m' hplan
        obtain ⟨hlength, -, target, htarget, heq⟩ := planDeletion_spec hm hplan
        refine State.Inv.transaction (s := { s with cached := none }) hi hp'
          fun inv' progress' h => ?_
        obtain ⟨rfl, rfl⟩ := Prod.mk.inj (Except.ok.inj h)
        have hm' : m'.Inv := by
          rw [heq]
          exact hm.intend (hclosed name m hrow) hlive htarget _ _
        have hlogical : m'.logicalBytes = m.logicalBytes := by rw [heq]
        have hopen : m'.producerOpen = false := by
          rw [heq]
          exact hclosed name m hrow
        have hlive' : m'.removed = false := by
          rw [heq]
          exact hlive
        obtain ⟨r, hr, -, hamount⟩ := hp'.recorded
        refine ⟨?_, rfl, hpending, fun name' x hx => ?_, ⟨?_, hlive'⟩, hlength.trans hlogical.symm⟩
        · refine Inventory.Inv.saveProgress (hi.saveRow hrow hm' hlogical ?_ ?_) hr hamount
          · rw [heq]
          · rw [hlive]
            nofun
        · rw [Inventory.get?_saveMember] at hx
          split_ifs at hx
          · obtain rfl := some.inj hx
            exact hopen
          · exact hclosed name' x hx
        · rw [Inventory.get?_saveMember, if_pos ⟨rfl, rfl⟩]

/-- The destructive step. -/
lemma removeBytes_inv (hi : s.inventory.Inv) (hp : p.Inv s.inventory)
    (ht : p.phase = .intended t name m v) (retained : Bool) (allocated : Measurement)
    (outcome : Outcome) : (removeBytes s p t name m v retained allocated outcome).Inv := by
  have hknown := hp.known
  rw [ht] at hknown
  obtain ⟨hpending, hclosed, hrow, -⟩ := hknown
  unfold removeBytes
  split
  · rename_i target file htarget _
    split
    · exact State.Inv.skip hi hp
    · exact State.Inv.skip hi hp
    · exact State.Inv.skip (s := { s with disk := chunkRemoved s.disk t.id name file target }) hi hp
    · refine State.Inv.resume (s := { s with disk := chunkRemoved s.disk t.id name file target })
        hi hp ?_
      exact ⟨hpending, hclosed, hrow, htarget, fun h => of_decide_eq_true h⟩
  · exact State.Inv.skip hi hp

/-- Removing the container. -/
lemma removeContainer_inv (hi : s.inventory.Inv) (hp : p.Inv s.inventory)
    (ht : p.phase = .emptied t) (outcome : Outcome) : (removeContainer s p t outcome).Inv := by
  have hknown := hp.known
  rw [ht] at hknown
  unfold removeContainer
  set erased : Disk := { s.disk with containers := s.disk.containers.erase t.id }
  split
  · exact State.Inv.skip hi hp
  · exact State.Inv.skip hi hp
  · exact State.Inv.skip (s := { s with disk := erased }) hi hp
  · exact State.Inv.resume (s := { s with disk := erased }) hi hp hknown

/-- Recording an object as removed. -/
lemma finishObject_inv (hi : s.inventory.Inv) (hp : p.Inv s.inventory)
    (ht : p.phase = .vacated t) (outcome : Outcome) : (finishObject s p t outcome).Inv := by
  have hknown := hp.known
  rw [ht] at hknown
  obtain ⟨⟨o, ho, -⟩, hgone⟩ := hknown
  refine State.Inv.transaction hi hp fun inv' progress' h => ?_
  obtain ⟨rfl, rfl⟩ := Prod.mk.inj (Except.ok.inj h)
  refine ⟨?_, rfl, trivial⟩
  refine Inventory.Inv.saveState_saveProgress hi hp ?_ (fun _ => hgone) fun recovered => ?_
  · rw [hi.memberBytes_eq_zero hgone]
    rfl
  · cases recovered <;> rfl

/-! ## Crediting a chunk -/

/-- A checked sum is the sum. -/
lemma addChecked_eq_ok {a b c : ℕ} {detail : String} (h : addChecked a b detail = .ok c) :
    c = a + b := by
  unfold addChecked at h
  split at h
  · rename_i hsum
    rw [← Except.ok.inj h]
    exact (Counter.checkedAdd_eq_some.mp hsum).1
  · cases h

/-- A checked difference is the difference. -/
lemma subChecked_eq_ok {a b c : ℕ} {detail : String} (h : subChecked a b detail = .ok c) :
    a = c + b := by
  unfold subChecked at h
  split at h
  · rename_i hdifference
    rw [← Except.ok.inj h]
    exact Counter.checkedSub_eq_some.mp hdifference
  · cases h

/-- The row of a member after a credit. -/
lemma creditedMember_spec {m' : FileRecord} {result : Settlement} {logical : ℕ}
    (h : creditedMember m result logical = .ok m') :
    m'.creditedLogicalBytes = m.creditedLogicalBytes + logical ∧
      m'.logicalBytes = result.after ∧ m'.pendingLength = none ∧ m'.removed = result.removed ∧
      m'.producerOpen = m.producerOpen ∧ m'.memberSeal = m.memberSeal := by
  obtain ⟨credited, hcredited, h⟩ := bind_eq_ok.mp h
  obtain ⟨_, -, h⟩ := bind_eq_ok.mp h
  obtain rfl := Except.ok.inj h
  exact ⟨addChecked_eq_ok hcredited, rfl, rfl, rfl, rfl, rfl⟩

/-- The progress of a pass after a credit. -/
lemma creditedProgress_spec {progress' : Progress} {recovered : Bool} {logical : ℕ}
    {allocated : Option ℕ}
    (h : creditedProgress progress recovered logical allocated = .ok progress') (kind : Bool) :
    progress'.amountOf kind = progress.amountOf kind +
      if recovered = kind then logical else 0 := by
  cases recovered with
  | true =>
    obtain ⟨total, htotal, h⟩ := bind_eq_ok.mp h
    obtain ⟨_, -, h⟩ := bind_eq_ok.mp h
    obtain rfl := Except.ok.inj h
    cases kind with
    | true => exact addChecked_eq_ok htotal
    | false => rfl
  | false =>
    obtain ⟨total, htotal, h⟩ := bind_eq_ok.mp h
    obtain ⟨_, -, h⟩ := bind_eq_ok.mp h
    obtain rfl := Except.ok.inj h
    cases kind with
    | true => rfl
    | false => exact addChecked_eq_ok htotal

/-- **The credit of a chunk.**

**Proof sketch.** The row that the pass holds is the one in the catalog, and is not gone; what is
subtracted from the object is what the row loses and what the member and the pass gain. -/
theorem creditMember_inv (hi : s.inventory.Inv) (hp : p.Inv s.inventory) {result : Settlement}
    (ht : p.phase = .settled t name m result) (outcome : Outcome) :
    (creditMember s p t name m result outcome).Inv := by
  have hknown := hp.known
  rw [ht] at hknown
  obtain ⟨⟨o, ho, hpending⟩, hclosed, ⟨hrow, hlive⟩, hjournaled, hgone⟩ := hknown
  have hm := hi.row t.id name m hrow
  unfold creditMember
  split
  · exact State.Inv.skip hi hp
  · rename_i logical hlogical
    have hsplit := subChecked_eq_ok hlogical
    split
    · exact State.Inv.skip hi hp
    · rename_i m' hafter
      obtain ⟨hcredited, hlength, hintent, hremoved, hopen, hseal⟩ := creditedMember_spec hafter
      refine State.Inv.transaction (s := { s with cached := result.verification }) hi hp
        fun inv' progress' h => ?_
      unfold creditChange at h
      rw [ho] at h
      obtain ⟨rest, hrest, h⟩ := Loops.bind_eq_ok.mp h
      obtain ⟨progress, hprogress, h⟩ := Loops.bind_eq_ok.mp h
      obtain ⟨rfl, rfl⟩ := Prod.mk.inj (Except.ok.inj h)
      have hobject := subChecked_eq_ok hrest
      have hproducer : m'.producerOpen = false := hopen.trans (hclosed name m hrow)
      have hm' : m'.Inv := by
        refine ⟨fun h => ?_, fun _ => ?_, fun h => ⟨?_, hintent⟩, fun target h => ?_⟩
        · exact absurd (h.symm.trans hproducer) (by decide)
        · obtain ⟨memberSeal, hsome, hsum⟩ := hm.original (hclosed name m hrow)
          exact ⟨memberSeal, hseal.trans hsome, by omega⟩
        · rw [hlength]
          exact hgone (hremoved.symm.trans h)
        · rw [hintent] at h
          cases h
      obtain ⟨r, hr, -, hamount⟩ := hp.recorded
      have hlost : m.logicalBytes - m'.logicalBytes = logical := by omega
      refine ⟨?_, rfl, ⟨_, get?_insert_self _ _ _, hpending⟩, fun name' x hx => ?_⟩
      · set o' : ObjectRecord := { o with
          logicalBytes := rest
          allocatedBytes := allocationAfter o.allocatedBytes
            (freedAllocation m.allocatedBytes m'.allocatedBytes) }
        set c : Credit :=
          ⟨p.operation, t.id, name, result.recovered, m.logicalBytes, m'.logicalBytes⟩
        have hstate : o'.state = o.state := rfl
        have hbytes : o'.logicalBytes + (m.logicalBytes - m'.logicalBytes) = o.logicalBytes := by
          show rest + (m.logicalBytes - m'.logicalBytes) = o.logicalBytes
          omega
        have hgain : ∀ kind, progress.amountOf kind = r.progress.amountOf kind +
            if c.recovered = kind then m.logicalBytes - m'.logicalBytes else 0 := by
          intro kind
          rw [creditedProgress_spec hprogress kind, hamount kind, hlost]
        exact hi.credit (c := c) ho hrow hm' (by omega) (by omega) hlive hstate hbytes rfl rfl rfl
          rfl hr hgain
      · rw [Inventory.members_saveObject, Inventory.get?_saveMember] at hx
        split_ifs at hx
        · obtain rfl := some.inj hx
          exact hproducer
        · exact hclosed name' x hx

/-- Ending a pass. -/
lemma finishPass_inv (hi : s.inventory.Inv) (hp : p.Inv s.inventory) (outcome : Outcome) :
    (finishPass s p outcome).Inv := by
  obtain ⟨r, hr, -, hamount⟩ := hp.recorded
  have hkept : Inventory.Inv { s.inventory with
      operations := s.inventory.operations.alter p.operation
        (Option.map fun _ => ⟨p.progress, some p.progress⟩) } := by
    refine ⟨hi.total, hi.vacant, hi.row, hi.removed, hi.covered, fun operation recovered => ?_⟩
    show _ = (((s.inventory.operations.alter _ _).get? operation).map _).getD 0
    rw [hi.credited, get?_alter]
    split_ifs with heq
    · rw [heq, hr, map_some, map_some, map_some, getD_some, getD_some, hamount recovered]
    · rfl
  unfold finishPass
  split
  · exact State.Inv.abort hi
  · exact State.Inv.of_none hkept rfl
  · exact State.Inv.of_none hkept rfl

/-! ## Every event -/

/-- What a pass knows of an object that it has not locked is not changed by producers: there is
nothing left of it to record. -/
lemma Produces.phaseInv (h : Produces inv inv' id) (hguard : phase.guarded ≠ some id)
    (hphase : PhaseInv inv phase) : PhaseInv inv' phase := by
  have hframe : (∀ id', phase.target = some id' → inv'.objects.get? id' = inv.objects.get? id') ∧
      ∀ id', phase.target = some id' → inv'.members id' = inv.members id' := by
    by_cases htarget : phase.target = some id
    · -- only an object whose container is gone is not locked
      have hvacated : ∃ t, phase = .vacated t ∧ t.id = id := by
        cases phase with
        | vacated t => exact ⟨t, rfl, some.inj htarget⟩
        | idle => cases htarget
        | examining _ => cases htarget
        | ending => cases htarget
        | _ => exact absurd htarget hguard
      obtain ⟨t, rfl, rfl⟩ := hvacated
      obtain ⟨⟨o, ho, hstate⟩, hgone⟩ := hphase
      obtain ⟨ho', hm'⟩ := h.frozen o ho hstate hgone
      constructor <;> intro id' hid' <;> obtain rfl := some.inj hid'
      · rw [ho', ho]
      · exact hm'
    · constructor <;> intro id' hid'
      · exact h.objects id' fun heq => htarget (heq ▸ hid')
      · exact h.members id' fun heq => htarget (heq ▸ hid')
  exact hphase.congr hframe.1 hframe.2

/-- What a producer does keeps the invariant. -/
lemma produce_inv (hs : s.Inv) {result : Except Error Inventory}
    (h : ∀ inv', result = .ok inv' → Produces s.inventory inv' id) : (produce s id result).Inv := by
  unfold produce
  split
  · rename_i inv' hguard
    have hproduces := h inv' rfl
    refine ⟨hproduces.kept, fun p hp => ?_⟩
    obtain ⟨⟨r, hr, hresult, hamount⟩, hknown⟩ := hs.pass p hp
    rw [decide_eq_false_iff_not, hp, bind_some] at hguard
    refine ⟨⟨r, ?_, hresult, hamount⟩, hproduces.phaseInv hguard hknown⟩
    rw [hproduces.operations]
    exact hr
  · exact hs

/-- The steps of a pass keep the invariant. -/
lemma passStep_inv (hs : s.Inv) (hpass : s.pass = some p) (e : Event) : (passStep s p e).Inv := by
  have hi := hs.accounts
  have hp := hs.pass p hpass
  cases e <;> simp only [passStep] <;> try exact hs
  all_goals try (split <;> try exact hs)
  · exact examine_inv hi hp _ _ _
  · exact collectObject_inv hi hp _ _ _ _
  · rename_i t ht
    exact withdraw_inv hi hp ht _
  · rename_i t ht
    exact markPendingDeletion_inv hi hp ht _
  · rename_i t ht
    exact deleteMember_inv hi hp ht _ _
  · rename_i t name m v ht
    exact removeBytes_inv hi hp ht _ _ _
  · rename_i t name m result ht
    exact creditMember_inv hi hp ht _
  · rename_i t ht
    exact removeContainer_inv hi hp ht _
  · rename_i t ht
    exact finishObject_inv hi hp ht _
  · exact State.Inv.resume hi hp trivial
  · exact State.Inv.resume hi hp trivial
  · exact finishPass_inv hi hp _
  · exact finishPass_inv hi hp _
  · exact State.Inv.skip hi hp

/-- Starting a pass. -/
lemma beginPass_inv (hs : s.Inv) (operation : Id) (bounds : CollectionBounds) :
    (beginPass s operation bounds).Inv := by
  unfold beginPass
  split
  · rename_i progress _ hr
    refine ⟨hs.accounts, fun q hq => ?_⟩
    obtain rfl := some.inj hq
    exact ⟨⟨_, hr, rfl, fun _ => rfl⟩, trivial⟩
  · exact hs

/-- Accepting an operation. -/
lemma accept_inv (hs : s.Inv) {operation : Id}
    (hnew : s.inventory.operations.get? operation = none) :
    State.Inv { s with inventory := { s.inventory with
      operations := s.inventory.operations.insert operation ⟨{}, none⟩ } } := by
  have hi := hs.accounts
  refine ⟨⟨hi.total, hi.vacant, hi.row, hi.removed, hi.covered, fun op recovered => ?_⟩,
    fun p hp => ?_⟩
  · show _ = (((s.inventory.operations.insert _ _).get? op).map _).getD 0
    rw [hi.credited, get?_insert]
    split_ifs with heq
    · rw [heq, hnew]
      cases recovered <;> rfl
    · rfl
  · obtain ⟨⟨r, hr, hresult, hamount⟩, hknown⟩ := hs.pass p hp
    refine ⟨⟨r, ?_, hresult, hamount⟩, hknown.congr (fun _ _ => rfl) fun _ _ => rfl⟩
    show (s.inventory.operations.insert _ _).get? p.operation = some r
    rw [get?_insert, if_neg]
    · exact hr
    · rintro rfl
      rw [hr] at hnew
      cases hnew

/-- Creating an object. -/
lemma create_inv (hs : s.Inv) {id : Id} (hnew : s.inventory.objects.get? id = none)
    (disk : Disk) : State.Inv { s with
      inventory := s.inventory.saveObject id ⟨.preparing, 0, .observed 0⟩, disk := disk } := by
  have hi := hs.accounts
  have hmembers := hi.vacant id hnew
  refine ⟨hi.saveState ?_ (fun h => by cases h), fun p hp => ?_⟩
  · unfold Inventory.memberBytes
    rw [hmembers, tally_empty]
    rfl
  · obtain ⟨hrecorded, hknown⟩ := hs.pass p hp
    refine ⟨hrecorded, hknown.congr (fun id' hid' => ?_) fun _ _ => rfl⟩
    show (s.inventory.saveObject id _).objects.get? id' = _
    rw [Inventory.get?_saveObject, if_neg]
    rintro rfl
    -- the object of a phase exists
    revert hknown
    cases hphase : p.phase <;> rw [hphase] at hid' <;> intro hknown <;> cases hid'
    all_goals simp [PhaseInv, Pending, hnew] at hknown

/-- **Every event keeps the invariant.** -/
theorem step_inv (hs : s.Inv) (e : Event) : (step s e).Inv := by
  have hi := hs.accounts
  cases e with
  | create id =>
    simp only [step]
    split
    · exact hs
    · rename_i hnew
      exact create_inv hs hnew _
  | beginMember id name => exact produce_inv hs fun _ h => produces_beginMember hi h
  | record id name allocated producerOpen authenticated =>
    simp only [step]
    split
    · exact hs
    · exact produce_inv hs fun _ h => produces_recordOpenFileState hi h
  | completeSeal id name memberSeal blocks =>
    exact produce_inv hs fun _ h => produces_completeMemberSeal hi h
  | publish id => exact produce_inv hs fun _ h => produces_publishObject hi h
  | abandon id state => exact produce_inv hs fun _ h => produces_abandonObject hi h
  | accept operation =>
    simp only [step]
    split
    · exact hs
    · rename_i hnew
      exact accept_inv hs hnew
  | beginPass operation bounds => exact beginPass_inv hs operation bounds
  | crash => exact State.Inv.abort hi
  | interfere id name file => exact ⟨hi, hs.pass⟩
  | interfereContainer id present => exact ⟨hi, hs.pass⟩
  | _ => exact of_pass (P := State.Inv) hs fun _ hp => passStep_inv hs hp _

/-- The invariant holds at first. -/
lemma inv_init : State.Inv {} := State.Inv.of_none Inventory.inv_empty rfl

/-- **Every run keeps the invariant.** -/
theorem run_inv (events : List Event) : (run events).Inv :=
  Run.invariant (P := State.Inv) (fun _ e hs _ => step_inv hs e) inv_init
    (Run.AllSteps.of_forall (fun _ _ => trivial) _ events)

end Collection

end Tgrep.Managed
