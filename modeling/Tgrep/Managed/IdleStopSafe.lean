import Tgrep.Managed.IdleStop

/-!
# An idle stop is safe

Closing admission and finding no work are one transaction, and whatever comes later asks for
admission. So the catalog stays without work from then on; the locks that the attempt takes
afterwards do the same for the readers of receipts and the holders of the activity lock.

## Main definitions

* `IdleStop.State.Quiet`, `IdleStop.State.Idle`: no work in the catalog, and no work at all.
* `IdleStop.State.Inv`: what an attempt knows in each phase.
* `IdleStop.State.Stopped`: a stop is committed, and stands.

## Main results

* `IdleStop.State.Inv.of_reaches`, `IdleStop.State.Stopped.of_reaches`: they hold along runs.
* `IdleStop.idle_stop_safe`: idle stops are safe and reversible.
-/

namespace Tgrep.Managed

open FinMap Option

namespace IdleStop

namespace State

/-! ## What an attempt counts -/

/-- The catalog has no work but the operation of the attempt. -/
structure Quiet (s : State) (own : Option Id) : Prop where
  leases : ∀ id, s.leases.get? id ≠ some false
  owners : ∀ id row, s.owners.get? id = some row → row.released = true
  reservations : s.reservations = ∅
  operations : ∀ id op, s.operations.get? id = some op → op.state.pending = true → own = some id

/-- There is no work, apart from the operation and the receipt of the attempt. -/
structure Idle (s : State) (own : Option Id) : Prop where
  quiet : s.Quiet own
  readers : receiptReaders s.readers own = 0
  holders : s.holders = 0

variable {phase : Phase} {op : Operation} {act : Action} {w : Work} {a : Attempt} {o : IdleOutcome}
  {own : Option Id} {s' s : State}

/-- The counts are zero iff the catalog has no other work. -/
lemma idleCounts_eq_none : s.idleCounts own = .none ↔ s.Quiet own := by
  rw [Counts.none, idleCounts, Counts.mk.injEq]
  simp only [Finset.card_eq_zero, Finset.filter_eq_empty_iff]
  constructor
  · rintro ⟨hleases, howners, hreservations, hoperations⟩
    refine ⟨fun id hid => ?_, fun id row hid => ?_, hreservations, fun id op hid hop => ?_⟩
    · exact hleases (mem_keys_of_get? hid) hid
    · have hrow := howners (mem_keys_of_get? hid)
      simpa [hid] using hrow
    · have hrow := hoperations (mem_keys_of_get? hid)
      simpa [hid, hop] using hrow
  · intro h
    refine ⟨fun id _ => h.leases id, fun id hid => ?_, h.reservations, fun id hid => ?_⟩
    · obtain ⟨row, hrow⟩ := FinMap.mem_keys.mp hid
      simp [hrow, h.owners id row hrow]
    · obtain ⟨op, hop⟩ := FinMap.mem_keys.mp hid
      rintro ⟨hpending, hown⟩
      rw [hop, any_some] at hpending
      exact hown (h.operations id op hop hpending)

/-- No other receipt is held iff each is held at most as often as by the attempt. -/
lemma receiptReaders_eq_zero {readers : FinMap Id ℕ} :
    receiptReaders readers own = 0 ↔
      ∀ id, (readers.get? id).getD 0 ≤ if own = some id then 1 else 0 := by
  rw [receiptReaders, Finset.sum_eq_zero_iff]
  constructor
  · intro h id
    by_cases hid : id ∈ readers.keys
    · exact Nat.sub_eq_zero_iff_le.mp (h id hid)
    · rw [FinMap.notMem_keys.mp hid]
      exact Nat.zero_le _
  · intro h id _
    exact Nat.sub_eq_zero_iff_le.mpr (h id)

/-! ## What others do -/

/-- A step with a condition that is taken. -/
lemma guarded_eq_some {p : Prop} [Decidable p] : guarded p s = some s' ↔ p ∧ s = s' := by
  rw [guarded]
  split_ifs with hp <;> simp [hp]

/-- Others do not touch what the attempts are about. -/
structure Frame (s s' : State) : Prop where
  process : s'.process = s.process
  admission : s'.admission = s.admission
  stopping : s'.stopping = s.stopping
  attempt : s'.attempt = s.attempt

/-- **What others leave as it is.** -/
theorem work_frame (h : s.work w = some s') : s.Frame s' := by
  cases w <;> simp only [work, guarded_eq_some, some.injEq] at h
  case registerOwner | saveOperation | acknowledge =>
    split at h
    · cases h
    · rw [guarded_eq_some] at h
      obtain ⟨-, rfl⟩ := h
      exact ⟨rfl, rfl, rfl, rfl⟩
  all_goals
    first
    | exact h ▸ ⟨rfl, rfl, rfl, rfl⟩
    | exact h.2 ▸ ⟨rfl, rfl, rfl, rfl⟩

/-- While nothing is admitted, no work for which admission is needed begins. -/
lemma work_admitted (hclosed : s.admission ≠ .admitting) (hw : w.admitted = true) :
    s.work w = none := by
  have hadmits : s.admits = false := decide_eq_false hclosed
  cases w <;> simp only [Work.admitted, Bool.false_eq_true] at hw
  case registerOwner =>
    rw [work]
    split
    · rfl
    · simp [guarded, hadmits]
  all_goals simp [work, guarded, hadmits]

/-- A released owner stays released. -/
lemma Quiet.releaseOwner (h : s.Quiet own) (id : Id) :
    ({ s with owners := s.owners.alter id fun row => row.map fun row =>
        { row with released := true } } : State).Quiet own := by
  refine ⟨h.leases, fun id' row hrow => ?_, h.reservations, h.operations⟩
  rw [get?_alter] at hrow
  split_ifs at hrow
  · obtain ⟨old, -, rfl⟩ := map_eq_some_iff.mp hrow
    rfl
  · exact h.owners id' row hrow

/-- A released lease stays released. -/
lemma Quiet.releaseLease (h : s.Quiet own) (id : Id) :
    ({ s with leases := s.leases.alter id fun row => row.map fun _ => true } : State).Quiet
      own := by
  refine ⟨fun id' hrow => ?_, h.owners, h.reservations, h.operations⟩
  rw [get?_alter] at hrow
  split_ifs at hrow
  · obtain ⟨old, -, heq⟩ := map_eq_some_iff.mp hrow
    cases heq
  · exact h.leases id' hrow

/-- An operation that has ended stays ended, whatever is written of others. -/
lemma Quiet.putOperation (h : s.Quiet own) (id : Id) (hop : op.state.pending = true → own = some id)
    : ({ s with operations := s.operations.insert id op } : State).Quiet own := by
  refine ⟨h.leases, h.owners, h.reservations, fun id' op' hid' hpending => ?_⟩
  rw [get?_insert] at hid'
  split_ifs at hid' with heq
  · subst heq
    rw [some.injEq] at hid'
    subst hid'
    exact hop hpending
  · exact h.operations id' op' hid' hpending

/-- A cancelled operation was unfinished before. -/
lemma pending_of_cancelledOperation (h : (cancelledOperation op).state.pending = true) :
    op.state.pending = true := by
  rw [cancelledOperation] at h
  by_contra hpending
  rw [Bool.not_eq_true] at hpending
  split_ifs at h <;> simp_all

/-- Cancelling does not make work. -/
lemma Quiet.cancelOperation (h : s.Quiet own) (id : Id) :
    ({ s with operations := s.operations.alter id fun op => op.map cancelledOperation } :
      State).Quiet own := by
  refine ⟨h.leases, h.owners, h.reservations, fun id' op hid' hpending => ?_⟩
  rw [get?_alter] at hid'
  split_ifs at hid' with heq
  · obtain ⟨old, hold, rfl⟩ := map_eq_some_iff.mp hid'
    exact h.operations id' old (heq ▸ hold) (pending_of_cancelledOperation hpending)
  · exact h.operations id' op hid' hpending

/-- **While nothing is admitted, the catalog stays without work**, whatever others do. -/
theorem Quiet.work (h : s.Quiet own) (hclosed : s.admission ≠ .admitting)
    (hw : s.work w = some s') : s'.Quiet own := by
  have hadmits : s.admits = false := decide_eq_false hclosed
  cases w <;> simp only [State.work, guarded_eq_some, some.injEq, hadmits,
    Bool.false_eq_true, false_and] at hw
  case registerOwner id => split at hw <;> simp [guarded] at hw
  case releaseOwner id => exact hw ▸ h.releaseOwner id
  case releaseLease id => exact hw ▸ h.releaseLease id
  case unreserve id =>
    subst hw
    exact ⟨h.leases, h.owners, by simp [h.reservations], h.operations⟩
  case cancelOperation id => exact hw ▸ h.cancelOperation id
  case saveOperation id state =>
    split at hw
    · cases hw
    · rename_i op hop
      obtain ⟨hpending, rfl⟩ := guarded_eq_some.mp hw
      exact h.putOperation id fun _ => h.operations id op hop hpending
  case acknowledge id =>
    split at hw
    · cases hw
    · obtain ⟨-, rfl⟩ := guarded_eq_some.mp hw
      refine ⟨h.leases, h.owners, h.reservations, fun id' op hid' hpending => ?_⟩
      rw [get?_erase] at hid'
      split_ifs at hid'
      exact h.operations id' op hid' hpending
  all_goals
    first
    | exact hw ▸ ⟨h.leases, h.owners, h.reservations, h.operations⟩
    | exact hw.2 ▸ ⟨h.leases, h.owners, h.reservations, h.operations⟩

/-- While an attempt holds the activity lock, nobody else takes it. -/
lemma work_holders (h : s.work w = some s') (hexclusive : s.exclusive = true)
    (hholders : s.holders = 0) : s'.holders = 0 := by
  cases w <;> simp only [work, guarded_eq_some, some.injEq, hexclusive, not_true_eq_false,
    and_false, false_and] at h
  case dropActivity => exact absurd hholders h.1
  case registerOwner | saveOperation | acknowledge =>
    split at h
    · cases h
    · rw [guarded_eq_some] at h
      exact h.2 ▸ hholders
  all_goals
    first
    | exact h ▸ hholders
    | exact h.2 ▸ hholders

/-- While an attempt holds the registry, the readers of receipts stay. -/
lemma work_readers (h : s.work w = some s') (hlocked : s.readersLocked = true) :
    s'.readers = s.readers := by
  cases w <;> simp only [work, guarded_eq_some, some.injEq, hlocked, not_true_eq_false,
    false_and] at h
  case registerOwner | saveOperation | acknowledge =>
    split at h
    · cases h
    · rw [guarded_eq_some] at h
      exact h.2 ▸ rfl
  all_goals
    first
    | exact h ▸ rfl
    | exact h.2 ▸ rfl

/-! ## What an attempt knows -/

/-- Admission is closed, and the catalog is without work. -/
structure Shut (s : State) (own : Option Id) : Prop where
  closed : s.admission = .closed
  quiet : s.Quiet own

/-- What a decision that the instance stops says. -/
structure Sound (s : State) (a : Attempt) (o : IdleOutcome) : Prop where
  holders : s.holders = 0
  readers : receiptReaders s.readers a.operation = 0
  external : a.external.isIdle = true
  process : o.process = s.process
  free : o.namespaceReadersOrWork = false

/-- What a decision is, once it is committed. -/
def Settled (s : State) (o : IdleOutcome) : Prop :=
  if o.stopping then s.stopping = true ∧ o.process = s.process else s.admission = .admitting

/-- What is known in each phase. -/
def Known (s : State) (a : Attempt) : Phase → Prop
  | .closed | .counted _ => s.Shut a.operation
  | .probed _ busy => s.Shut a.operation ∧ (busy = false → s.holders = 0)
  | .registered _ busy readers =>
    s.Shut a.operation ∧ (busy = false → s.holders = 0) ∧
      readers = receiptReaders s.readers a.operation
  | .decided true o => s.Shut a.operation ∧ (o.stopping = true → s.Sound a o)
  | .decided false o => o.stopping = false
  | .committed _ o => s.Settled o
  | .restoring => s.stopping = false
  | .ended (.answered o) => s.Settled o
  | .ended .stopCommitted => s.stopping = true
  | .ended .restored => s.admission = .admitting
  | _ => True

/-- **The invariant of the attempts.** -/
structure Inv (s : State) : Prop where
  known : ∀ a, s.attempt = some a → s.Known a a.phase
  /-- A result of this instance that says that it stops belongs to a stop that is committed. -/
  results : ∀ id op o, s.operations.get? id = some op → op.result = some o →
    o.process = s.process → o.stopping = true → s.stopping = true

/-- It holds when the instance has been activated. -/
lemma Activated.inv (h : s.Activated) : s.Inv where
  known a ha := by
    rw [h.attempt] at ha
    cases ha
  results id op o hop ho hprocess _ := absurd hprocess (h.results id op o hop ho)

/-- What others do leaves what an attempt knows. -/
lemma Known.work (ha : s.attempt = some a) (h : s.Known a a.phase) (hw : s.work w = some s') :
    s'.Known a a.phase := by
  have hframe := work_frame hw
  have hshut : ∀ own, s.Shut own → s'.Shut own := fun own hshut =>
    ⟨hframe.admission.trans hshut.closed, hshut.quiet.work (by simp [hshut.closed]) hw⟩
  have hholders : a.phase.exclusive = true → s.holders = 0 → s'.holders = 0 := fun hex =>
    work_holders hw (by rw [exclusive, ha]; exact hex)
  have hreaders : a.phase.locksReaders = true → s'.readers = s.readers := fun hlocks =>
    work_readers hw (by rw [readersLocked, ha]; exact hlocks)
  have hsettled : ∀ o, s.Settled o → s'.Settled o := fun o hset => by
    rw [Settled, hframe.stopping, hframe.process, hframe.admission]
    exact hset
  generalize a.phase = phase at h hholders hreaders
  match phase, h with
  | .closed, h | .counted _, h => exact hshut _ h
  | .probed _ busy, ⟨h, hfree⟩ =>
    exact ⟨hshut _ h, fun hbusy => hholders (by simp [Phase.exclusive, hbusy]) (hfree hbusy)⟩
  | .registered _ busy readers, ⟨h, hfree, hcount⟩ =>
    refine ⟨hshut _ h, fun hbusy => ?_, ?_⟩
    · exact hholders (by simp [Phase.exclusive, hbusy]) (hfree hbusy)
    · rw [hreaders rfl]
      exact hcount
  | .decided true o, ⟨h, hsound⟩ =>
    refine ⟨hshut _ h, fun hstop => ?_⟩
    obtain ⟨hfree, hcount, hexternal, hprocess, hbusy⟩ := hsound hstop
    refine ⟨hholders (by simp [Phase.exclusive, hbusy]) hfree, ?_, hexternal, ?_, hbusy⟩
    · rw [hreaders rfl]
      exact hcount
    · exact hprocess.trans hframe.process.symm
  | .decided false o, h => exact h
  | .committed _ o, h | .ended (.answered o), h => exact hsettled o h
  | .restoring, h | .ended .stopCommitted, h => exact hframe.stopping.trans h
  | .ended .restored, h => exact hframe.admission.trans h
  | .begun, _ | .sampling, _ | .sampled _, _ | .refused _ _, _ | .failed, _
  | .ended .notBegun, _ | .ended .unreadable, _ | .ended .unrestored, _ => trivial

/-- Others write no result. -/
lemma work_results (h : s.work w = some s') {id : Id} (hop : s'.operations.get? id = some op)
    (ho : op.result = some o) : ∃ id' op', s.operations.get? id' = some op' ∧
      op'.result = some o := by
  cases w <;> simp only [work, guarded_eq_some, some.injEq] at h
  case acceptOperation id' =>
    obtain ⟨-, rfl⟩ := h
    rw [get?_insert] at hop
    split_ifs at hop with heq
    · rw [some.injEq] at hop
      subst hop
      cases ho
    · exact ⟨id, op, hop, ho⟩
  case cancelOperation id' =>
    subst h
    rw [get?_alter] at hop
    split_ifs at hop with heq
    · obtain ⟨old, hold, rfl⟩ := map_eq_some_iff.mp hop
      refine ⟨id', old, hold, ?_⟩
      rw [cancelledOperation] at ho
      split_ifs at ho <;> exact ho
    · exact ⟨id, op, hop, ho⟩
  case saveOperation id' state =>
    split at h
    · cases h
    · rename_i old hold
      obtain ⟨-, rfl⟩ := guarded_eq_some.mp h
      rw [get?_insert] at hop
      split_ifs at hop with heq
      · rw [some.injEq] at hop
        subst hop
        exact ⟨id', old, hold, ho⟩
      · exact ⟨id, op, hop, ho⟩
  case acknowledge id' =>
    split at h
    · cases h
    · obtain ⟨-, rfl⟩ := guarded_eq_some.mp h
      rw [get?_erase] at hop
      split_ifs at hop
      exact ⟨id, op, hop, ho⟩
  case registerOwner id' =>
    split at h
    · cases h
    · obtain ⟨-, rfl⟩ := guarded_eq_some.mp h
      exact ⟨id, op, hop, ho⟩
  all_goals
    first
    | exact ⟨id, op, by rw [← h] at hop; exact hop, ho⟩
    | exact ⟨id, op, by rw [← h.2] at hop; exact hop, ho⟩

/-- Going on changes the phase only. -/
lemma quiet_goOn : (s.goOn a phase).Quiet own ↔ s.Quiet own :=
  ⟨fun h => ⟨h.leases, h.owners, h.reservations, h.operations⟩,
    fun h => ⟨h.leases, h.owners, h.reservations, h.operations⟩⟩

/-- What is known of a phase does not depend on the phase that is recorded. -/
lemma Known.goOn (h : s.Known a phase) :
    (s.goOn a phase).Known { a with phase := phase } phase := by
  have hshut : ∀ own, s.Shut own → (s.goOn a phase).Shut own := fun own hshut =>
    ⟨hshut.closed, quiet_goOn.mpr hshut.quiet⟩
  match phase, h with
  | .closed, h | .counted _, h => exact hshut _ h
  | .probed _ _, ⟨h, hfree⟩ => exact ⟨hshut _ h, hfree⟩
  | .registered _ _ _, ⟨h, hfree, hcount⟩ => exact ⟨hshut _ h, hfree, hcount⟩
  | .decided true _, ⟨h, hsound⟩ =>
    refine ⟨hshut _ h, fun hstop => ?_⟩
    obtain ⟨hholders, hreaders, hexternal, hprocess, hfree⟩ := hsound hstop
    exact ⟨hholders, hreaders, hexternal, hprocess, hfree⟩
  | .decided false _, h | .committed _ _, h | .ended (.answered _), h | .restoring, h
  | .ended .stopCommitted, h | .ended .restored, h => exact h
  | .begun, _ | .sampling, _ | .sampled _, _ | .refused _ _, _ | .failed, _
  | .ended .notBegun, _ | .ended .unreadable, _ | .ended .unrestored, _ => trivial

/-- The invariant after going on. -/
lemma Inv.goOn (hresults : ∀ id op o, s.operations.get? id = some op → op.result = some o →
      o.process = s.process → o.stopping = true → s.stopping = true) (h : s.Known a phase) :
    (s.goOn a phase).Inv where
  known a' ha' := by
    obtain rfl : { a with phase := phase } = a' := some.inj ha'
    exact h.goOn
  results := hresults

/-- **What a decision commits.** -/
theorem commitIdleDecision_cases (h : s.commitIdleDecision o own = some s') :
    (own = none ∧ s' = s.decideAdmission o) ∨
    ∃ id op, own = some id ∧ s.operations.get? id = some op ∧ op.cancelled = false ∧
      s' = { s.decideAdmission o with
        operations := s.operations.insert id ⟨.completed, op.cancelled, o.committedState, some o⟩ } := by
  cases own with
  | none => exact .inl ⟨rfl, (some.inj h).symm⟩
  | some id =>
    rw [commitIdleDecision] at h
    split at h
    · cases h
    · rename_i op hop
      split_ifs at h with hcancelled
      exact .inr ⟨id, op, rfl, hop, by simpa using hcancelled, (some.inj h).symm⟩

/-- A committed decision is settled. -/
lemma settled_of_commit (h : s.commitIdleDecision o own = some s')
    (hprocess : o.stopping = true → o.process = s.process) : s'.Settled o := by
  have hsettled : (s.decideAdmission o).Settled o := by
    rw [Settled, decideAdmission]
    split_ifs with hstop
    · exact ⟨rfl, hprocess hstop⟩
    · rfl
  rcases commitIdleDecision_cases h with ⟨-, rfl⟩ | ⟨id, op, -, -, -, rfl⟩ <;> exact hsettled

/-- A decision never takes a stop back. -/
lemma stopping_decideAdmission (s : State) (o : IdleOutcome) :
    (s.decideAdmission o).stopping = (s.stopping || o.stopping) := by
  rw [decideAdmission]
  split_ifs with hstop <;> simp [hstop]

/-- The instance stays. -/
lemma process_decideAdmission (s : State) (o : IdleOutcome) :
    (s.decideAdmission o).process = s.process := by
  rw [decideAdmission]
  split_ifs <;> rfl

/-- The operations stay. -/
lemma operations_decideAdmission (s : State) (o : IdleOutcome) :
    (s.decideAdmission o).operations = s.operations := by
  rw [decideAdmission]
  split_ifs <;> rfl

/-- The results after a decision is committed. -/
lemma results_of_commit (h : s.commitIdleDecision o own = some s')
    (hresults : ∀ id op o, s.operations.get? id = some op → op.result = some o →
      o.process = s.process → o.stopping = true → s.stopping = true) :
    ∀ id op o', s'.operations.get? id = some op → op.result = some o' →
      o'.process = s'.process → o'.stopping = true → s'.stopping = true := by
  intro id' op' o' hop ho hprocess hstop
  rcases commitIdleDecision_cases h with ⟨-, rfl⟩ | ⟨id, op, -, -, -, rfl⟩
  · rw [operations_decideAdmission] at hop
    rw [process_decideAdmission] at hprocess
    rw [stopping_decideAdmission, hresults id' op' o' hop ho hprocess hstop, Bool.true_or]
  · dsimp only at hop hprocess ⊢
    rw [get?_insert] at hop
    rw [process_decideAdmission] at hprocess
    rw [stopping_decideAdmission]
    split_ifs at hop with heq
    · rw [some.injEq] at hop
      subst hop
      obtain rfl : o = o' := some.inj ho
      rw [hstop, Bool.or_true]
    · rw [hresults id' op' o' hop ho hprocess hstop, Bool.true_or]

/-- A decision that the instance stops is sound. -/
lemma sound_decision {counts : Counts} {busy : Bool} {readers : ℕ}
    (hfree : busy = false → s.holders = 0) (hcount : readers = receiptReaders s.readers a.operation)
    (hstop : (s.decision a counts busy readers).stopping = true) :
    s.Sound a (s.decision a counts busy readers) := by
  simp only [decision, Bool.and_eq_true, decide_eq_true_eq, Bool.not_eq_true'] at hstop
  obtain ⟨⟨⟨⟨-, hreaders⟩, hbusy⟩, hexternal⟩, -⟩ := hstop
  exact ⟨hfree hbusy, hcount ▸ hreaders, hexternal, rfl, hbusy⟩

/-- The counting transaction closes admission only when nothing is to be seen. -/
lemma countAndClose_cases (s : State) (a : Attempt) (readers : ℕ) :
    s.countAndClose a readers = (s, .refused readers (s.idleCounts a.operation)) ∨
    (readers = 0 ∧ a.external.isIdle = true ∧ s.Quiet a.operation ∧
      s.countAndClose a readers = ({ s with admission := .closed }, .closed)) := by
  rw [countAndClose]
  split_ifs with hquiet
  · obtain ⟨hvisible, hcounts⟩ := hquiet
    rw [Bool.or_eq_false_iff] at hvisible
    refine .inr ⟨by simpa using hvisible.1, by simpa using hvisible.2, ?_, rfl⟩
    exact idleCounts_eq_none.mp hcounts
  · exact .inl rfl

/-- **What a step of an attempt does.** Most only go on. Besides, the counting transaction may close
admission, a decision may be committed, admission may be restored, and the attempt may end. -/
theorem advance_cases {how : How} (hs : s.advance a how = some s') :
    (∃ phase, s' = s.goOn a phase ∧ (s.Known a a.phase → s.Known a phase)) ∨
    (∃ readers phase, a.phase = .sampled readers ∧
      s' = (s.countAndClose a readers).1.goOn a phase ∧
      (phase = (s.countAndClose a readers).2 ∨ phase = .failed)) ∨
    (∃ isLocked o t phase, a.phase = .decided isLocked o ∧ how ≠ .failed ∧
      s.commitIdleDecision o a.operation = some t ∧ s' = t.goOn a phase ∧
      (phase = .committed isLocked o ∨ phase = .failed)) ∨
    (∃ phase, a.phase = .restoring ∧ s' = { s with admission := .admitting }.goOn a phase ∧
      (phase = .ended .restored ∨ phase = .ended .unrestored)) ∨
    ∃ how, a.phase = .ended how ∧ s' = { s with attempt := none } := by
  have hgo : ∀ {phase}, some (s.goOn a phase) = some s' → (s.Known a a.phase → s.Known a phase) →
      ∃ phase, s' = s.goOn a phase ∧ (s.Known a a.phase → s.Known a phase) :=
    fun heq hknown => ⟨_, (some.inj heq).symm, hknown⟩
  unfold State.advance at hs
  generalize a.phase = phase at hs hgo ⊢
  cases phase with
  | begun => cases how <;> exact .inl (hgo hs fun _ => trivial)
  | sampling => exact .inl (hgo hs fun _ => trivial)
  | sampled readers =>
    cases how with
    | done => exact .inr (.inl ⟨readers, _, rfl, (some.inj hs).symm, .inl rfl⟩)
    | failed => exact .inl (hgo hs fun _ => trivial)
    | lost => exact .inr (.inl ⟨readers, _, rfl, (some.inj hs).symm, .inr rfl⟩)
  | refused readers counts =>
    cases how with
    | done => exact .inl (hgo hs fun _ => rfl)
    | _ => exact .inl (hgo hs fun _ => trivial)
  | closed =>
    cases how with
    | done => exact .inl (hgo hs id)
    | _ => exact .inl (hgo hs fun _ => trivial)
  | counted counts =>
    cases how with
    | done => exact .inl (hgo hs fun hshut => ⟨hshut, by simp⟩)
    | _ => exact .inl (hgo hs fun _ => trivial)
  | probed counts busy =>
    cases how with
    | done => exact .inl (hgo hs fun hknown => ⟨hknown.1, hknown.2, rfl⟩)
    | _ => exact .inl (hgo hs fun _ => trivial)
  | registered counts busy readers =>
    cases how with
    | done =>
      exact .inl (hgo hs fun hknown =>
        ⟨hknown.1, fun hstop => sound_decision hknown.2.1 hknown.2.2 hstop⟩)
    | _ => exact .inl (hgo hs fun _ => trivial)
  | decided isLocked o =>
    cases how with
    | failed => exact .inl (hgo hs fun _ => trivial)
    | done =>
      obtain ⟨t, ht, heq⟩ := map_eq_some_iff.mp hs
      exact .inr (.inr (.inl ⟨isLocked, o, t, _, rfl, by decide, ht, heq.symm, .inl rfl⟩))
    | lost =>
      obtain ⟨t, ht, heq⟩ := map_eq_some_iff.mp hs
      exact .inr (.inr (.inl ⟨isLocked, o, t, _, rfl, by decide, ht, heq.symm, .inr rfl⟩))
  | committed isLocked o =>
    cases how with
    | done => exact .inl (hgo hs id)
    | _ => exact .inl (hgo hs fun _ => trivial)
  | failed =>
    cases how with
    | done =>
      have hread : ∀ b, s.stopIsCommitted = some b → s.stopping = b := by
        intro b hb
        rw [stopIsCommitted] at hb
        split_ifs at hb
        exact some.inj hb
      dsimp only at hs
      split at hs
      · exact .inl (hgo hs fun _ => trivial)
      · exact .inl (hgo hs fun _ => hread _ ‹_›)
      · exact .inl (hgo hs fun _ => hread _ ‹_›)
    | _ => exact .inl (hgo hs fun _ => trivial)
  | restoring =>
    cases how with
    | failed => exact .inl (hgo hs fun _ => trivial)
    | done =>
      exact .inr (.inr (.inr (.inl ⟨_, rfl, (some.inj hs).symm, .inl rfl⟩)))
    | lost =>
      exact .inr (.inr (.inr (.inl ⟨_, rfl, (some.inj hs).symm, .inr rfl⟩)))
  | ended how =>
    exact .inr (.inr (.inr (.inr ⟨how, rfl, (some.inj hs).symm⟩)))

/-- **An attempt keeps the invariant.** -/
theorem Inv.advance {how : How} (h : s.Inv) (ha : s.attempt = some a)
    (hs : s.advance a how = some s') : s'.Inv := by
  have hknown := h.known a ha
  rcases advance_cases hs with ⟨phase, rfl, hnext⟩ | ⟨readers, phase, -, rfl, hphase⟩ |
    ⟨isLocked, o, t, phase, hat, -, hcommit, rfl, hphase⟩ | ⟨phase, -, rfl, hphase⟩ | ⟨_, -, rfl⟩
  · exact Inv.goOn h.results (hnext hknown)
  · rcases s.countAndClose_cases a readers with heq | ⟨-, -, hquiet, heq⟩ <;> rw [heq] at hphase ⊢
    · rcases hphase with rfl | rfl <;> exact Inv.goOn h.results trivial
    · refine Inv.goOn h.results ?_
      rcases hphase with rfl | rfl
      · exact ⟨rfl, hquiet.leases, hquiet.owners, hquiet.reservations, hquiet.operations⟩
      · trivial
  · rw [hat] at hknown
    have hprocess : o.stopping = true → o.process = s.process := fun hstop => by
      cases isLocked with
      | true => exact (hknown.2 hstop).process
      | false => exact absurd hstop (by rw [show o.stopping = false from hknown]; decide)
    refine Inv.goOn (results_of_commit hcommit h.results) ?_
    rcases hphase with rfl | rfl
    · exact settled_of_commit hcommit hprocess
    · trivial
  · refine Inv.goOn h.results ?_
    rcases hphase with rfl | rfl
    · rfl
    · trivial
  · refine ⟨fun a' ha' => ?_, h.results⟩
    cases ha'

/-- **One step keeps the invariant.** -/
theorem Inv.step (h : s.Inv) (hs : s.step act = some s') : s'.Inv := by
  cases act with
  | work w =>
    have hframe := work_frame hs
    refine ⟨fun a ha => ?_, fun id op o hop ho hprocess hstop => ?_⟩
    · rw [hframe.attempt] at ha
      exact (h.known a ha).work ha hs
    · obtain ⟨id', op', hop', ho'⟩ := work_results hs hop ho
      rw [hframe.stopping]
      exact h.results id' op' o hop' ho' (hprocess.trans hframe.process) hstop
  | activate =>
    obtain ⟨⟨hnone, -⟩, rfl⟩ := guarded_eq_some.mp hs
    refine ⟨fun a ha => ?_, h.results⟩
    rw [show s.attempt = some a from ha] at hnone
    cases hnone
  | begin external operation =>
    obtain ⟨-, rfl⟩ := guarded_eq_some.mp hs
    refine ⟨fun a ha => ?_, h.results⟩
    obtain rfl := some.inj ha
    trivial
  | advance how =>
    obtain ⟨a, ha, hadvance⟩ := bind_eq_some_iff.mp hs
    exact h.advance ha hadvance

/-- **It holds in every state that is reached.** -/
theorem Inv.of_reaches {ok : State → Action → Prop} (h : s.Inv)
    (hs : Run.Reaches State.step ok s s') : s'.Inv :=
  hs.invariant (fun _ _ _ hinv _ hone => hinv.step hone) h

/-! ## Closing admission -/

/-- Only the transaction that counts closes admission, and only when it finds nothing. -/
lemma closed_of_step (hs : s.step act = some s') (hbefore : s.admission = .admitting)
    (hafter : s'.admission = .closed) :
    ∃ a, s.attempt = some a ∧ a.phase = .sampled 0 ∧ a.external.isIdle = true ∧
      s.Quiet a.operation := by
  have hopen : s'.admission ≠ .admitting := by simp [hafter]
  cases act with
  | work w => exact absurd ((work_frame hs).admission.trans hbefore) hopen
  | activate =>
    obtain ⟨-, rfl⟩ := guarded_eq_some.mp hs
    exact absurd rfl hopen
  | begin external operation =>
    obtain ⟨-, rfl⟩ := guarded_eq_some.mp hs
    exact absurd hbefore hopen
  | advance how =>
    obtain ⟨a, ha, hadvance⟩ := bind_eq_some_iff.mp hs
    rcases advance_cases hadvance with ⟨phase, rfl, -⟩ | ⟨readers, phase, hat, rfl, -⟩ |
      ⟨isLocked, o, t, phase, -, -, hcommit, rfl, -⟩ | ⟨phase, -, rfl, -⟩ | ⟨_, -, rfl⟩
    · exact absurd hbefore hopen
    · rcases s.countAndClose_cases a readers with heq | ⟨rfl, hidle, hquiet, -⟩
      · rw [heq] at hopen
        exact absurd hbefore hopen
      · exact ⟨a, ha, hat, hidle, hquiet⟩
    · have hadmission : (s.decideAdmission o).admission = .admitting := by
        rw [decideAdmission]
        split_ifs
        · exact hbefore
        · rfl
      refine absurd ?_ hopen
      rcases commitIdleDecision_cases hcommit with ⟨-, rfl⟩ | ⟨id, op, -, -, -, rfl⟩ <;>
        exact hadmission
    · exact absurd rfl hopen
    · exact absurd hbefore hopen

/-! ## After a stop -/

/-- A stop is committed, and stands. -/
structure Stopped (s : State) : Prop where
  shut : s.Shut none
  stopping : s.stopping = true

/-- The step commits that the instance does not stop. -/
def refuses (s : State) : Action → Bool
  | .advance how => s.attempt.any fun a =>
    match a.phase with
    | .decided _ o => !o.stopping && decide (how ≠ .failed)
    | _ => false
  | _ => false

/-- The operation of an attempt has ended when its decision is committed. -/
lemma quiet_of_commit (h : s.commitIdleDecision o own = some s') (hquiet : s.Quiet own) :
    s'.Quiet none := by
  have hdecide : ∀ own', s.Quiet own' → (s.decideAdmission o).Quiet own' := by
    intro own' hq
    rw [decideAdmission]
    split_ifs <;> exact ⟨hq.leases, hq.owners, hq.reservations, hq.operations⟩
  rcases commitIdleDecision_cases h with ⟨rfl, rfl⟩ | ⟨id, op, rfl, -, -, rfl⟩
  · exact hdecide none hquiet
  · have hq := hdecide (some id) hquiet
    refine ⟨hq.leases, hq.owners, hq.reservations, fun id' op' hid' hpending => ?_⟩
    dsimp only at hid'
    rw [get?_insert] at hid'
    split_ifs at hid' with heq
    · rw [some.injEq] at hid'
      subst hid'
      cases hpending
    · exact absurd (some.inj (hquiet.operations id' op' hid' hpending)).symm heq

/-- Work that nobody is excused from is no work for anybody. -/
lemma Quiet.of_none (h : s.Quiet none) (own : Option Id) : s.Quiet own :=
  ⟨h.leases, h.owners, h.reservations, fun id op hop hpending =>
    absurd (h.operations id op hop hpending) (by simp)⟩

/-- What a decision that the instance stops makes of a shut namespace. -/
lemma stopped_of_commit (h : s.commitIdleDecision o own = some s') (hstop : o.stopping = true)
    (hshut : s.Shut own) : s'.Stopped := by
  have hsame : s'.admission = s.admission ∧ s'.stopping = true := by
    rcases commitIdleDecision_cases h with ⟨-, rfl⟩ | ⟨id, op, -, -, -, rfl⟩ <;>
      simp [decideAdmission, hstop]
  exact ⟨⟨hsame.1.trans hshut.closed, quiet_of_commit h hshut.quiet⟩, hsame.2⟩

/-- Going on changes the phase only. -/
lemma Stopped.goOn (h : s.Stopped) (a : Attempt) (phase : Phase) : (s.goOn a phase).Stopped :=
  ⟨⟨h.shut.closed, quiet_goOn.mpr h.shut.quiet⟩, h.stopping⟩

/-- **The step that stops the instance** is taken by an attempt, when there is no work. -/
theorem idle_of_stop (h : s.Inv) (hs : s.step act = some s') (hbefore : s.stopping = false)
    (hafter : s'.stopping = true) :
    s'.Stopped ∧ ∃ a, s.attempt = some a ∧ a.external.isIdle = true ∧ s.Idle a.operation := by
  have hkeep : s'.stopping ≠ s.stopping := by simp [hbefore, hafter]
  cases act with
  | work w => exact absurd (work_frame hs).stopping hkeep
  | activate =>
    obtain ⟨-, rfl⟩ := guarded_eq_some.mp hs
    exact absurd rfl hkeep
  | begin external operation =>
    obtain ⟨-, rfl⟩ := guarded_eq_some.mp hs
    exact absurd rfl hkeep
  | advance how =>
    obtain ⟨a, ha, hadvance⟩ := bind_eq_some_iff.mp hs
    have hknown := h.known a ha
    rcases advance_cases hadvance with ⟨phase, rfl, -⟩ | ⟨readers, phase, -, rfl, -⟩ |
      ⟨isLocked, o, t, phase, hat, -, hcommit, rfl, -⟩ | ⟨phase, -, rfl, -⟩ | ⟨_, -, rfl⟩
    · exact absurd rfl hkeep
    · rcases s.countAndClose_cases a readers with heq | ⟨-, -, -, heq⟩ <;> rw [heq] at hkeep <;>
        exact absurd rfl hkeep
    · have hstop : o.stopping = true := by
        have ht : t.stopping = true := hafter
        rcases commitIdleDecision_cases hcommit with ⟨-, rfl⟩ | ⟨id, op, -, -, -, rfl⟩ <;>
          simpa [stopping_decideAdmission, hbefore] using ht
      rw [hat] at hknown
      cases isLocked with
      | false => exact absurd hstop (by rw [show o.stopping = false from hknown]; decide)
      | true =>
        obtain ⟨hshut, hsound⟩ := hknown
        have hsound := hsound hstop
        refine ⟨(stopped_of_commit hcommit hstop hshut).goOn a phase, a, ha, hsound.external, ?_⟩
        exact ⟨hshut.quiet, hsound.readers, hsound.holders⟩
    · exact absurd rfl hkeep
    · exact absurd rfl hkeep

/-- **A stop stands** unless a later attempt commits that the instance does not stop. -/
theorem Stopped.step (h : s.Stopped) (hinv : s.Inv) (hok : s.refuses act = false)
    (hs : s.step act = some s') : s'.Stopped := by
  cases act with
  | work w =>
    have hframe := work_frame hs
    refine ⟨⟨hframe.admission.trans h.shut.closed, ?_⟩, hframe.stopping.trans h.stopping⟩
    exact h.shut.quiet.work (by simp [h.shut.closed]) hs
  | activate =>
    obtain ⟨⟨-, hnot⟩, -⟩ := guarded_eq_some.mp hs
    rw [h.stopping] at hnot
    cases hnot
  | begin external operation =>
    obtain ⟨-, rfl⟩ := guarded_eq_some.mp hs
    have hq := h.shut.quiet
    exact ⟨⟨h.shut.closed, hq.leases, hq.owners, hq.reservations, hq.operations⟩, h.stopping⟩
  | advance how =>
    obtain ⟨a, ha, hadvance⟩ := bind_eq_some_iff.mp hs
    have hknown := hinv.known a ha
    rcases advance_cases hadvance with ⟨phase, rfl, -⟩ | ⟨readers, phase, -, rfl, -⟩ |
      ⟨isLocked, o, t, phase, hat, hhow, hcommit, rfl, -⟩ | ⟨phase, hat, -, -⟩ | ⟨_, -, rfl⟩
    · exact h.goOn a phase
    · rcases s.countAndClose_cases a readers with heq | ⟨-, -, -, heq⟩ <;> rw [heq]
      · exact h.goOn a phase
      · have hq := h.shut.quiet
        exact ⟨⟨rfl, hq.leases, hq.owners, hq.reservations, hq.operations⟩, h.stopping⟩
    · have hstop : o.stopping = true := by
        simpa [refuses, ha, hat, hhow] using hok
      refine (stopped_of_commit hcommit hstop ⟨h.shut.closed, ?_⟩).goOn a phase
      exact h.shut.quiet.of_none a.operation
    · rw [hat] at hknown
      exact absurd h.stopping (by rw [show s.stopping = false from hknown]; decide)
    · have hq := h.shut.quiet
      exact ⟨⟨h.shut.closed, hq.leases, hq.owners, hq.reservations, hq.operations⟩, h.stopping⟩

/-- **It stands along a run** without such an attempt. -/
theorem Stopped.of_reaches (h : s.Stopped) (hinv : s.Inv)
    (hs : Run.Reaches State.step (fun s act => s.refuses act = false) s s') : s'.Stopped := by
  have hboth := @Run.Reaches.invariant _ _ _ _ (fun t : State => t.Stopped ∧ t.Inv)
    (fun t act t' ht hok hone => ⟨ht.1.step ht.2 hok hone, ht.2.step hone⟩) s s' ⟨h, hinv⟩ hs
  exact hboth.1

end State

/-! ## The result -/

/-- **Idle stops are safe and reversible.** Whatever happens after an instance is activated:
a stop is committed by an attempt, when there is no other work; from then on admission stays closed,
the catalog stays without work and none is admitted, as long as no later attempt commits that it
does not stop; only an attempt that sees no work closes admission; and admission is open when an
attempt ends with a decision not to stop, or with an error after which it was restored.

**Proof sketch.** Counting and closing are one transaction, which leaves a catalog without work that
only admission could bring back; the two locks that are taken afterwards keep what they were tried
for until the decision is committed. A later step opens admission only if no stop is recorded, or if
it commits a decision not to stop. -/
theorem idle_stop_safe {s₀ s s' : State} {act : Action} (h₀ : s₀.Activated)
    (hs : Run.Reaches State.step (fun _ _ => True) s₀ s) (hone : s.step act = some s') :
    (s.stopping = false → s'.stopping = true →
      (∃ a, s.attempt = some a ∧ a.external.isIdle = true ∧ s.Idle a.operation) ∧
      ∀ s₂, Run.Reaches State.step (fun t b => t.refuses b = false) s' s₂ →
        s₂.admission = .closed ∧ s₂.stopping = true ∧ s₂.Quiet none ∧
          ∀ w : Work, w.admitted = true → s₂.work w = none) ∧
    (s.admission = .admitting → s'.admission = .closed →
      ∃ a, s.attempt = some a ∧ a.phase = .sampled 0 ∧ a.external.isIdle = true ∧
        s.Quiet a.operation) ∧
    ∀ a how, s.attempt = some a → a.phase = .ended how →
      (∀ o, how = .answered o → o.stopping = true → s.stopping = true) ∧
      ((∃ o, how = .answered o ∧ o.stopping = false) ∨ how = .restored →
        s.admission = .admitting) := by
  have hinv := h₀.inv.of_reaches hs
  refine ⟨fun hbefore hafter => ?_, State.closed_of_step hone, fun a how ha hphase => ?_⟩
  · obtain ⟨hstopped, hidle⟩ := State.idle_of_stop hinv hone hbefore hafter
    refine ⟨hidle, fun s₂ hs₂ => ?_⟩
    have hstands := hstopped.of_reaches (hinv.step hone) hs₂
    refine ⟨hstands.shut.closed, hstands.stopping, hstands.shut.quiet, fun w hw => ?_⟩
    exact State.work_admitted (by simp [hstands.shut.closed]) hw
  · have hknown := hinv.known a ha
    rw [hphase] at hknown
    constructor
    · rintro o rfl hstop
      rw [State.Known, State.Settled, if_pos hstop] at hknown
      exact hknown.1
    · rintro (⟨o, rfl, hstop⟩ | rfl)
      · rw [State.Known, State.Settled, if_neg (by simp [hstop])] at hknown
        exact hknown
      · exact hknown

/-- An instance that has nothing to do. -/
def unused : State where
  process := 7
  admission := .admitting
  stopping := false
  leases := .empty
  owners := .empty
  reservations := ∅
  operations := .empty
  objects := ∅
  readers := .empty
  holders := 0
  verifying := false
  attempt := none

/-- The steps with which an unused instance stops: the token is accepted, its receipt is held, and
the attempt runs up to its decision. -/
def stopSteps : List Action :=
  [.work (.acceptOperation 1), .work (.holdOperation 1), .begin ⟨0, 0, 0, 0⟩ (some 1)] ++
    List.replicate 7 (.advance .done)

/-- An unused instance has just been activated. -/
lemma unused_activated : unused.Activated where
  admitting := rfl
  notStopping := rfl
  attempt := rfl
  results id op o hop _ := by cases hop

/-- The unused instance, when the attempt is about to commit its decision. -/
theorem idle_stop_safe_unused : ∃ s s', Run.Reaches State.step (fun _ _ => True) unused s ∧
    s.step (.advance .done) = some s' ∧ s.stopping = false ∧ s'.stopping = true ∧
    s'.admission = .closed := by
  have hrun : ∃ s, Run.exec State.step unused stopSteps = some s ∧ s.stopping = false ∧
      ∃ s', s.step (.advance .done) = some s' ∧ s'.stopping = true := by
    refine ⟨_, rfl, by decide +kernel, _, rfl, by decide +kernel⟩
  obtain ⟨s, hs, hbefore, s', hone, hafter⟩ := hrun
  have hreach := Run.Reaches.of_exec hs
  obtain ⟨hsafe, -, -⟩ := idle_stop_safe unused_activated hreach hone
  obtain ⟨-, hafterwards⟩ := hsafe hbefore hafter
  exact ⟨s, s', hreach, hone, hbefore, hafter, (hafterwards s' (Run.Reaches.refl s')).1⟩

/-- **After a stop** of the unused instance, its receipt can be held once more; and an attempt whose
caller reports a query opens admission again. -/
theorem admitted_after_stop : ∃ s s₁ s₂,
    Run.exec State.step unused (stopSteps ++ [.advance .done, .advance .done, .advance .done]) =
      some s ∧ s.stopping = true ∧ s.attempt = none ∧
    Run.exec State.step s [.work (.dropReader 1), .work (.holdOperation 1)] = some s₁ ∧
      s₁.readers.get? 1 = some 1 ∧
    Run.exec State.step s [.work (.dropReader 1), .begin ⟨1, 0, 0, 0⟩ none, .advance .done,
      .advance .done, .advance .done, .advance .done, .advance .done] = some s₂ ∧
      s₂.stopping = true ∧ s₂.admission = .admitting := by
  refine ⟨_, _, _, rfl, ?_, ?_, rfl, ?_, rfl, ?_, ?_⟩ <;> decide +kernel

end IdleStop

end Tgrep.Managed
