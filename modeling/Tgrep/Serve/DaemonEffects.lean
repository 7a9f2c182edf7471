import Tgrep.Serve.Daemon

/-!
# What the tasks of the daemon do

Every task does one of few things to what the threads share. The invariants of the daemon are read
off this list.

## Main definitions

* `Daemon.Effect`: what a task may lead to.
* `Daemon.held`, `Daemon.stageReceipt`: how often receipts are held.
* `Daemon.Follows`, `Daemon.Progress`: what a step of the handler of a request to stop may lead to.

## Main results

* `Daemon.effect_of_exec`: tasks do nothing else.
* `Daemon.progress_of_advance`: nor does the handler of a request to stop.
-/

namespace Tgrep

open Option

namespace Daemon

open Threads Managed Managed.IdleStop

/-! ## The list -/

/-- The task is one in which a request, a job or a tick works. -/
def Task.works : Task → Bool
  | .serve | .tick => true
  | .job _ => true
  | _ => false

/-- **What a task may lead to.** -/
inductive Effect (s : Shared) : Task → Outcome Shared Task Note → Prop
  | connect (hstage : s.stage = none) (hgate : s.gate = true) :
    Effect s .accept ⟨{ s with requests := s.requests + 1 }, [.accept],
      [[.serve, .respond, .endRequest]], some .admitted⟩
  | refuse (hgate : s.gate = false) : Effect s .accept ⟨s, [.accept], [], none⟩
  | lose : Effect s .accept ⟨{ s with stopping := true }, [], [], none⟩
  | work {a : Task} (ha : a.works = true ∨ a = .environment) {w : Work} {core : IdleStop.State}
      (hw : tracked w = false) (hcore : s.core.work w = some core) :
    Effect s a ⟨{ s with core := core }, [a], [], noteOf w⟩
  | hold {a : Task} (ha : a.works = true) {id : Id} {core : IdleStop.State}
      (hcore : s.core.work (.holdOperation id) = some core) :
    Effect s a ⟨{ s with core := core }, [a, .dropReceipt id], [], none⟩
  | holdElsewhere {id : Id} {core : IdleStop.State}
      (hcore : s.core.work (.holdOperation id) = some core) :
    Effect s .environment ⟨{ s with core := core }, [.environment], [[.dropReceipt id]], none⟩
  | enqueue {a : Task} (ha : a.works = true) {id : Id} {core : IdleStop.State}
      (hid : id ∉ s.queued) (hcore : s.core.work (.holdOperation id) = some core) :
    Effect s a ⟨{ s with core := core, queued := id :: s.queued, jobs := s.jobs ++ [id] },
      [a], [], none⟩
  | again {a : Task} (ha : a.works = true) : Effect s a ⟨s, [a], [], none⟩
  | finish {a : Task} (ha : a.works = true) : Effect s a ⟨s, [], [], none⟩
  | query : Effect s .serve ⟨{ s with queries := s.queries + 1 }, [.serve, .endQuery], [], none⟩
  | stopRequest : Effect s .serve ⟨s, [.closeGate], [], none⟩
  | respond : Effect s .respond ⟨s, [], [], some .answered⟩
  | endRequest : Effect s .endRequest ⟨{ s with requests := s.requests - 1 }, [], [], none⟩
  | endQuery : Effect s .endQuery ⟨{ s with queries := s.queries - 1 }, [], [], none⟩
  | dropReceipt {id : Id} {core : IdleStop.State}
      (hcore : s.core.work (.dropReader id) = some core) :
    Effect s (.dropReceipt id) ⟨{ s with core := core }, [], [], none⟩
  | closeGate (hstage : s.stage = none) :
    Effect s .closeGate ⟨{ s with gate := false, stage := some .drain }, [.stop], [], none⟩
  | stop {stage : Stage} {choice : Choice} {s' : Shared} (hstage : s.stage = some stage)
      (hadvance : s.advance choice stage = some s') :
    Effect s .stop ⟨s', if s'.stage.isSome then [.stop] else [], [], stageNote choice stage⟩
  | start {id : Id} (hid : id ∈ s.jobs) :
    Effect s .worker ⟨{ s with jobs := s.jobs.erase id, running := id :: s.running },
      [.job id, .endRunning id, .dropQueued id, .worker], [], some (.started id)⟩
  | leave {a : Task} (ha : a = .worker ∨ a = .scheduler) : Effect s a ⟨s, [], [], none⟩
  | endRunning {id : Id} :
    Effect s (.endRunning id) ⟨{ s with running := s.running.erase id }, [], [], none⟩
  | dropQueued {id : Id} {core : IdleStop.State}
      (hcore : s.core.work (.dropReader id) = some core) :
    Effect s (.dropQueued id)
      ⟨{ s with core := core, queued := s.queued.erase id }, [], [], none⟩
  | tick (hstage : s.stage = none) (hgate : s.gate = true) :
    Effect s .scheduler ⟨{ s with backgroundBatches := s.backgroundBatches + 1 },
      [.tick, .endTick, .scheduler], [], none⟩
  | skip (hgate : s.gate = false) : Effect s .scheduler ⟨s, [.scheduler], [], none⟩
  | endTick : Effect s .endTick ⟨{ s with backgroundBatches := s.backgroundBatches - 1 },
      [], [], none⟩

variable {id : Id} {s : Shared} {choice : Choice} {core core' : IdleStop.State}

/-- What a request, a job or a tick may do is in the list. -/
lemma effect_of_act {a : Task} {out : Outcome Shared Task Note} (h : s.act a choice = some out)
    (ha : a.works = true) : Effect s a out := by
  cases choice <;> simp only [Shared.act, reduceCtorEq] at h
  case work w =>
    rw [Shared.workOn] at h
    split_ifs at h with htracked
    obtain ⟨core, hcore, rfl⟩ := map_eq_some_iff.mp h
    exact .work (.inl ha) (by simpa using htracked) hcore
  case hold id =>
    obtain ⟨core, hcore, rfl⟩ := map_eq_some_iff.mp h
    exact .hold ha hcore
  case enqueue id =>
    rw [Shared.enqueue] at h
    split_ifs at h with hid
    · obtain rfl := some.inj h
      exact .again ha
    · obtain ⟨core, hcore, rfl⟩ := map_eq_some_iff.mp h
      exact .enqueue ha hid hcore
  case finish =>
    obtain rfl := some.inj h
    exact .finish ha

/-- **Tasks do nothing else.** -/
theorem effect_of_exec {a : Task} {out : Outcome Shared Task Note}
    (h : exec s choice a = some out) : Effect s a out := by
  cases a with
  | accept =>
    cases choice <;> simp only [exec, reduceCtorEq] at h
    case done =>
      split_ifs at h with hstage hgate
      · obtain rfl := some.inj h
        exact .connect (by simpa using hstage) hgate
      · obtain rfl := some.inj h
        exact .refuse (by simpa using hgate)
    case failed =>
      obtain rfl := some.inj h
      exact .lose
  | serve =>
    cases choice with
    | query =>
      obtain rfl := some.inj h
      exact .query
    | stop =>
      obtain rfl := some.inj h
      exact .stopRequest
    | _ =>
      simp only [exec] at h
      exact effect_of_act h rfl
  | respond =>
    obtain rfl := some.inj h
    exact .respond
  | endRequest =>
    obtain rfl := some.inj h
    exact .endRequest
  | endQuery =>
    obtain rfl := some.inj h
    exact .endQuery
  | dropReceipt id =>
    obtain ⟨core, hcore, rfl⟩ := map_eq_some_iff.mp h
    exact .dropReceipt hcore
  | closeGate =>
    simp only [exec] at h
    split_ifs at h with hstage
    obtain rfl := some.inj h
    exact .closeGate (by simpa using hstage)
  | stop =>
    obtain ⟨stage, hstage, hmap⟩ := bind_eq_some_iff.mp h
    obtain ⟨s', hadvance, rfl⟩ := map_eq_some_iff.mp hmap
    exact .stop hstage hadvance
  | worker =>
    cases choice <;> simp only [exec, reduceCtorEq] at h
    case pop id =>
      split_ifs at h with hid
      obtain rfl := some.inj h
      exact .start hid
    case finish =>
      split_ifs at h
      obtain rfl := some.inj h
      exact .leave (.inl rfl)
  | job id => exact effect_of_act h rfl
  | endRunning id =>
    obtain rfl := some.inj h
    exact .endRunning
  | dropQueued id =>
    obtain ⟨core, hcore, rfl⟩ := map_eq_some_iff.mp h
    exact .dropQueued hcore
  | scheduler =>
    cases choice <;> simp only [exec, reduceCtorEq] at h
    case done =>
      split_ifs at h with hstage hgate
      · obtain rfl := some.inj h
        exact .tick (by simpa using hstage) hgate
      · obtain rfl := some.inj h
        exact .skip (by simpa using hgate)
    case finish =>
      split_ifs at h
      obtain rfl := some.inj h
      exact .leave (.inr rfl)
  | tick => exact effect_of_act h rfl
  | endTick =>
    obtain rfl := some.inj h
    exact .endTick
  | environment =>
    cases choice <;> simp only [exec, reduceCtorEq] at h
    case work w =>
      rw [Shared.workOn] at h
      split_ifs at h with htracked
      obtain ⟨core, hcore, rfl⟩ := map_eq_some_iff.mp h
      exact .work (.inr rfl) (by simpa using htracked) hcore
    case hold id =>
      obtain ⟨core, hcore, rfl⟩ := map_eq_some_iff.mp h
      exact .holdElsewhere hcore

/-! ## Receipts -/

/-- How often a receipt is held. -/
def held (core : IdleStop.State) (id : Id) : ℕ := (core.readers.get? id).getD 0

/-- Taking hold of a receipt. -/
lemma held_of_hold (h : core.work (.holdOperation id) = some core') (id' : Id) :
    held core' id' = held core id' + if id = id' then 1 else 0 := by
  obtain ⟨-, rfl⟩ := State.guarded_eq_some.mp h
  rw [held, held, State.holdReceipt, FinMap.get?_insert]
  by_cases hid : id = id'
  · subst hid
    simp
  · simp [hid, Ne.symm hid]

/-- Letting one go that is held. -/
lemma held_of_drop (h : core.work (.dropReader id) = some core') (hheld : 0 < held core id)
    (id' : Id) : held core' id' + (if id = id' then 1 else 0) = held core id' := by
  obtain ⟨-, rfl⟩ := State.guarded_eq_some.mp h
  rw [held] at hheld
  rw [held, held, State.dropReceipt, FinMap.get?_alter]
  by_cases hid : id = id'
  · subst hid
    cases hcount : core.readers.get? id with
    | none => simp [hcount] at hheld
    | some n =>
      simp only [hcount, getD_some] at hheld
      simp only [↓reduceIte, bind_some, getD_some]
      split_ifs with hn <;> simp <;> omega
  · simp [hid, Ne.symm hid]

/-- Other work leaves the receipts. -/
lemma readers_of_work {w : Work} (hw : tracked w = false) (h : core.work w = some core') :
    core'.readers = core.readers := by
  cases w <;> simp only [tracked, Bool.true_eq_false] at hw <;>
    simp only [State.work, State.guarded_eq_some, some.injEq] at h
  case registerOwner | saveOperation | acknowledge =>
    split at h
    · cases h
    · rw [State.guarded_eq_some] at h
      exact h.2 ▸ rfl
  all_goals
    first
    | exact h ▸ rfl
    | exact h.2 ▸ rfl

/-- Attempts leave the receipts. -/
lemma readers_of_step {act : Action} (hact : ∀ w, act ≠ .work w)
    (h : core.step act = some core') : core'.readers = core.readers := by
  cases act with
  | work w => exact absurd rfl (hact w)
  | activate =>
    obtain ⟨-, rfl⟩ := State.guarded_eq_some.mp h
    rfl
  | begin external operation =>
    obtain ⟨-, rfl⟩ := State.guarded_eq_some.mp h
    rfl
  | advance how =>
    obtain ⟨a, ha, hadvance⟩ := bind_eq_some_iff.mp h
    rcases State.advance_cases hadvance with ⟨phase, rfl, -⟩ | ⟨readers, phase, -, rfl, -⟩ |
      ⟨isLocked, o, t, phase, -, -, hcommit, rfl, -⟩ | ⟨phase, -, rfl, -⟩ | ⟨_, -, rfl⟩
    · rfl
    · rcases core.countAndClose_cases a readers with heq | ⟨-, -, -, heq⟩ <;> rw [heq] <;> rfl
    · have hdecide : (core.decideAdmission o).readers = core.readers := by
        rw [State.decideAdmission]
        split_ifs <;> rfl
      rcases State.commitIdleDecision_cases hcommit with ⟨-, rfl⟩ | ⟨id, op, -, -, -, rfl⟩ <;>
        exact hdecide
    · rfl
    · rfl

/-- The receipt that the handler of a request to stop holds. -/
def Stage.receipt : Stage → Option Id
  | .read _ id | .lock _ id | .attempt id | .fail id | .drop id _ => some id
  | _ => none

/-- How often the handler of a request to stop holds a receipt. -/
def stageReceipt (stage : Option Stage) (id : Id) : ℕ :=
  if stage.bind Stage.receipt = some id then 1 else 0

/-! ## The handler of a request to stop -/

/-- The steps in which the handler only goes on. -/
inductive Follows (s : Shared) : Stage → Stage → Prop
  | drained : Follows s .drain .readQueries
  | notDrained : Follows s .drain (.conclude .err)
  | queries : Follows s .readQueries (.readQueued s.queries)
  | queued {queries : ℕ} :
    Follows s (.readQueued queries) (.readRequests queries s.queued.length)
  | requests {queries queued : ℕ} :
    Follows s (.readRequests queries queued) (.readBackground queries queued (s.requests - 1))
  | background {queries queued requests : ℕ} :
    Follows s (.readBackground queries queued requests)
      (.accept ⟨queries, queued, requests, s.backgroundBatches⟩)
  | replay {external : ExternalWork} {id : Id} : Follows s (.accept external) (.hold external id)
  | notAccepted {external : ExternalWork} : Follows s (.accept external) (.conclude .err)
  | notHeld {external : ExternalWork} {id : Id} :
    Follows s (.hold external id) (.conclude .err)
  | hasResult {external : ExternalWork} {id : Id} {op : Operation} {o : IdleOutcome}
      (hop : s.core.operations.get? id = some op) (ho : op.result = some o) :
    Follows s (.read external id) (.drop id (.ok o))
  | hasNone {external : ExternalWork} {id : Id} :
    Follows s (.read external id) (.lock external id)
  | notRead {external : ExternalWork} {id : Id} : Follows s (.read external id) (.drop id .err)
  | hasResultNow {external : ExternalWork} {id : Id} {op : Operation} {o : IdleOutcome}
      (hop : s.core.operations.get? id = some op) (ho : op.result = some o) :
    Follows s (.lock external id) (.drop id (.ok o))
  | notLocked {external : ExternalWork} {id : Id} : Follows s (.lock external id) (.drop id .err)
  | notFailed {id : Id} : Follows s (.fail id) (.drop id .err)
  | stops {o : IdleOutcome} (hstop : o.stopping = true) (hprocess : o.process = s.core.process) :
    Follows s (.conclude (.ok o)) .setStopping
  | goesOn {o : IdleOutcome} (hnot : ¬ (o.stopping = true ∧ o.process = s.core.process)) :
    Follows s (.conclude (.ok o)) .openGate
  | stopped (hread : s.core.stopIsCommitted = some true) :
    Follows s (.conclude .err) .setStopping
  | notStopped (hread : s.core.stopIsCommitted = some false) :
    Follows s (.conclude .err) .openGate
  | unreadable : Follows s (.conclude .err) (.release .unreadable)

/-- **What a step of the handler may lead to.** -/
inductive Progress (s : Shared) : Stage → Shared → Prop
  | goTo {stage stage' : Stage} (h : Follows s stage stage') : Progress s stage (s.goTo stage')
  | drain {w : Work} {core : IdleStop.State} (hw : tracked w = false)
      (hcore : s.core.work w = some core) :
    Progress s .drain ({ s with core := core }.goTo .drain)
  | accept {external : ExternalWork} {id : Id} {core : IdleStop.State}
      (hcore : s.core.work (.acceptOperation id) = some core) :
    Progress s (.accept external) ({ s with core := core }.goTo (.hold external id))
  | hold {external : ExternalWork} {id : Id} {core : IdleStop.State}
      (hcore : s.core.work (.holdOperation id) = some core) :
    Progress s (.hold external id) ({ s with core := core }.goTo (.read external id))
  | begin {external : ExternalWork} {id : Id} {core : IdleStop.State}
      (hcore : s.core.step (.begin external (some id)) = some core) :
    Progress s (.lock external id) ({ s with core := core }.goTo (.attempt id))
  | attempt {id : Id} {how : How} {a : Attempt} {core : IdleStop.State}
      (ha : s.core.attempt = some a) (hcore : s.core.advance a how = some core)
      (hphase : ∀ e, a.phase ≠ .ended e) :
    Progress s (.attempt id) ({ s with core := core }.goTo (.attempt id))
  | ended {id : Id} {a : Attempt} {e : Ended} (ha : s.core.attempt = some a)
      (hphase : a.phase = .ended e) :
    Progress s (.attempt id)
      ({ s with core := { s.core with attempt := none } }.goTo (Shared.afterAttempt id e))
  | fail {id : Id} {core : IdleStop.State}
      (hcore : s.core.work (.saveOperation id .failed) = some core) :
    Progress s (.fail id) ({ s with core := core }.goTo (.drop id .err))
  | drop {id : Id} {result : StopResult} {core : IdleStop.State}
      (hcore : s.core.work (.dropReader id) = some core) :
    Progress s (.drop id result) ({ s with core := core }.goTo (.conclude result))
  | setStopping :
    Progress s .setStopping ({ s with stopping := true }.goTo (.release .stopping))
  | openGate : Progress s .openGate ({ s with gate := true }.goTo (.release .opened))
  | release {conclusion : Conclusion} : Progress s (.release conclusion) { s with stage := none }

/-- The attempt goes on, or has ended. -/
lemma progress_of_attempt {s' : Shared} (h : s.advance choice (.attempt id) = some s') :
    Progress s (.attempt id) s' := by
  obtain ⟨how, -, hmap⟩ := bind_eq_some_iff.mp h
  obtain ⟨core, hcore, rfl⟩ := map_eq_some_iff.mp hmap
  obtain ⟨a, ha, hadvance⟩ := bind_eq_some_iff.mp hcore
  rw [ha, map_some]
  by_cases hended : ∃ e, a.phase = .ended e
  · obtain ⟨e, he⟩ := hended
    have hnone : core = { s.core with attempt := none } := by
      unfold State.advance at hadvance
      rw [he] at hadvance
      exact (some.inj hadvance).symm
    rw [he, hnone]
    exact .ended ha he
  · rw [not_exists] at hended
    have hstage : Shared.nextStage id (some a.phase) = .attempt id := by
      rw [Shared.nextStage]
      exact fun e heq => hended e (some.inj heq)
    rw [hstage]
    exact .attempt ha hadvance hended

/-- **The handler does nothing else.** -/
theorem progress_of_advance {s' : Shared} {stage : Stage} (h : s.advance choice stage = some s') :
    Progress s stage s' := by
  cases stage with
  | drain =>
    cases choice <;> simp only [Shared.advance, reduceCtorEq] at h
    case done => exact some.inj h ▸ .goTo .drained
    case failed => exact some.inj h ▸ .goTo .notDrained
    case work w =>
      split_ifs at h with hw
      obtain ⟨core, hcore, rfl⟩ := map_eq_some_iff.mp h
      exact .drain (by simpa using hw) hcore
  | readQueries => exact some.inj h ▸ .goTo .queries
  | readQueued queries => exact some.inj h ▸ .goTo .queued
  | readRequests queries queued => exact some.inj h ▸ .goTo .requests
  | readBackground queries queued requests => exact some.inj h ▸ .goTo .background
  | accept external =>
    cases choice <;> simp only [Shared.advance, reduceCtorEq] at h
    case accept id =>
      obtain ⟨core, hcore, rfl⟩ := map_eq_some_iff.mp h
      exact .accept hcore
    case replay id => exact some.inj h ▸ .goTo .replay
    case failed => exact some.inj h ▸ .goTo .notAccepted
  | hold external id =>
    cases choice <;> simp only [Shared.advance, reduceCtorEq] at h
    case done =>
      obtain ⟨core, hcore, rfl⟩ := map_eq_some_iff.mp h
      exact .hold hcore
    case failed => exact some.inj h ▸ .goTo .notHeld
  | read external id =>
    cases choice <;> simp only [Shared.advance, reduceCtorEq] at h
    case done =>
      split at h
      · rename_i o ho
        obtain ⟨op, hop, hresult⟩ := bind_eq_some_iff.mp ho
        exact some.inj h ▸ .goTo (.hasResult hop hresult)
      · exact some.inj h ▸ .goTo .hasNone
    case failed => exact some.inj h ▸ .goTo .notRead
  | lock external id =>
    cases choice <;> simp only [Shared.advance, reduceCtorEq] at h
    case done =>
      obtain ⟨core, hcore, rfl⟩ := map_eq_some_iff.mp h
      exact .begin hcore
    case replay id' =>
      split at h
      · rename_i o ho
        obtain ⟨op, hop, hresult⟩ := bind_eq_some_iff.mp ho
        exact some.inj h ▸ .goTo (.hasResultNow hop hresult)
      · cases h
    case failed => exact some.inj h ▸ .goTo .notLocked
  | attempt id => exact progress_of_attempt h
  | fail id =>
    cases choice <;> simp only [Shared.advance, reduceCtorEq] at h
    case done =>
      obtain ⟨core, hcore, rfl⟩ := map_eq_some_iff.mp h
      exact .fail hcore
    case failed => exact some.inj h ▸ .goTo .notFailed
  | drop id result =>
    obtain ⟨core, hcore, rfl⟩ := map_eq_some_iff.mp h
    exact .drop hcore
  | conclude result =>
    cases result with
    | ok o =>
      simp only [Shared.advance] at h
      split_ifs at h with hstop
      · exact some.inj h ▸ .goTo (.stops hstop.1 hstop.2)
      · exact some.inj h ▸ .goTo (.goesOn hstop)
    | err =>
      cases choice <;> simp only [Shared.advance, reduceCtorEq] at h
      case done =>
        split at h
        · exact some.inj h ▸ .goTo (.stopped ‹_›)
        · exact some.inj h ▸ .goTo (.notStopped ‹_›)
        · exact some.inj h ▸ .goTo .unreadable
      case failed => exact some.inj h ▸ .goTo .unreadable
  | setStopping => exact some.inj h ▸ .setStopping
  | openGate => exact some.inj h ▸ .openGate
  | release conclusion => exact some.inj h ▸ .release

end Daemon

end Tgrep
