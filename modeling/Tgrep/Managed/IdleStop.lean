import Tgrep.Managed.Operations

/-!
# Stopping an idle instance

A service that has nothing to do may stop. It counts the work that the catalog knows and closes
admission in one transaction, looks at everything else that could be in use, and then commits that
it stops. Whatever else happens to the namespace goes on between these steps, and each kind of work
asks for itself whether it is admitted.

## Main definitions

* `IdleStop.State`: the catalog, the registry of receipt readers, the activity lock and the attempt
  that holds the maintenance lock.
* `IdleStop.Work`, `IdleStop.State.work`: what others do.
* `IdleStop.Phase`, `IdleStop.State.advance`: the steps of an attempt.
* `IdleStop.Action`, `IdleStop.State.step`: all steps.

## Implementation notes

Calls that take several steps, such as the preparation of an owner under an activity guard, are the
sequences of their steps; a run may interleave and leave off anywhere. Limits on the number of
owners, leases, receipts and readers only refuse more, and are left out. An operation that has ended
is not taken up again, because one executor at a time works at it. A lock that is poisoned is left
out.
-/

namespace Tgrep.Managed

namespace IdleStop

/-! ## The state -/

/-- What the caller knows to be in progress outside the namespace. -/
structure ExternalWork where
  queries : ℕ
  queuedJobs : ℕ
  requests : ℕ
  backgroundBatches : ℕ
deriving DecidableEq

/-- Nothing is in progress. -/
def ExternalWork.isIdle (e : ExternalWork) : Bool :=
  e.queries == 0 && e.queuedJobs == 0 && e.requests == 0 && e.backgroundBatches == 0

/-- What an attempt found and decided. -/
structure IdleOutcome where
  stopping : Bool
  /-- The instance that decided. -/
  process : Id
  leases : ℕ
  owners : ℕ
  reservations : ℕ
  operations : ℕ
  operationReaders : ℕ
  namespaceReadersOrWork : Bool
  verificationActive : Bool
  external : ExternalWork
  committedState : CommitState
deriving DecidableEq

/-- What is read of the receipt of an operation. -/
structure Operation where
  state : OperationState
  cancelled : Bool
  committedState : CommitState
  /-- The result, if it is that of an idle stop. -/
  result : Option IdleOutcome

/-- The unreleased leases and owners, the reservations and the unfinished operations. -/
structure Counts where
  leases : ℕ
  owners : ℕ
  reservations : ℕ
  operations : ℕ
deriving DecidableEq

/-- There is none of them. -/
def Counts.none : Counts := ⟨0, 0, 0, 0⟩

/-- How an attempt ends. -/
inductive Ended
  /-- With an outcome. -/
  | answered (outcome : IdleOutcome)
  /-- With an error before it has looked at anything. -/
  | notBegun
  /-- With an error, and the stop is committed. -/
  | stopCommitted
  /-- With an error, and it cannot be read whether the stop is committed. -/
  | unreadable
  /-- With an error, and admission is restored. -/
  | restored
  /-- With an error, and so did the transaction that restores admission. -/
  | unrestored
deriving DecidableEq

/-- How far an attempt is. -/
inductive Phase
  /-- It holds the maintenance lock; `expire_cursors` is next. -/
  | begun
  | sampling
  /-- It has counted the receipt readers. -/
  | sampled (readers : ℕ)
  /-- It has seen work, and admission is as it was. -/
  | refused (readers : ℕ) (counts : Counts)
  /-- It has closed admission. -/
  | closed
  | counted (counts : Counts)
  /-- It has tried the activity lock, and holds it unless it was busy. -/
  | probed (counts : Counts) (busy : Bool)
  /-- It holds the registry of receipt readers too. -/
  | registered (counts : Counts) (busy : Bool) (readers : ℕ)
  /-- It has decided. Whether it holds the locks depends on where it comes from. -/
  | decided (locked : Bool) (outcome : IdleOutcome)
  /-- The decision is committed. -/
  | committed (locked : Bool) (outcome : IdleOutcome)
  /-- There was an error. -/
  | failed
  /-- There was one, and no stop is committed. -/
  | restoring
  | ended (how : Ended)
deriving DecidableEq

/-- The attempt holds the activity lock. -/
def Phase.exclusive : Phase → Bool
  | .probed _ busy | .registered _ busy _ => !busy
  | .decided isLocked o | .committed isLocked o => isLocked && !o.namespaceReadersOrWork
  | _ => false

/-- The attempt holds the registry of receipt readers. -/
def Phase.locksReaders : Phase → Bool
  | .registered _ _ _ => true
  | .decided isLocked _ | .committed isLocked _ => isLocked
  | _ => false

/-- An attempt, with what its caller told it. -/
structure Attempt where
  external : ExternalWork
  /-- The receipt of the attempt, if it has a token. -/
  operation : Option Id
  phase : Phase

/-- The namespace, as seen by one instance. -/
structure State where
  /-- The instance. -/
  process : Id
  admission : AdmissionState
  /-- Whether the service record says that the instance stops. -/
  stopping : Bool
  /-- Whether each lease is released. -/
  leases : FinMap Id Bool
  owners : FinMap Id OwnerRow
  reservations : Finset Id
  operations : FinMap Id Operation
  objects : Finset Id
  /-- How often each receipt is held. -/
  readers : FinMap Id ℕ
  /-- How many hold `activity.lock` shared. -/
  holders : ℕ
  /-- Whether a verifier is active. -/
  verifying : Bool
  /-- The attempt that holds the maintenance lock. -/
  attempt : Option Attempt

namespace State

/-- Work is admitted. -/
def admits (s : State) : Bool := decide (s.admission = .admitting)

/-- An attempt holds `activity.lock`. -/
def exclusive (s : State) : Bool := s.attempt.any fun a => a.phase.exclusive

/-- An attempt holds the registry of receipt readers. -/
def readersLocked (s : State) : Bool := s.attempt.any fun a => a.phase.locksReaders

/-! ## What others do -/

/-- The receipt of an operation that was just accepted. -/
def newOperation : Operation := ⟨.accepted, false, .notCommitted, none⟩

/-- A reader takes hold of a receipt. -/
def holdReceipt (readers : FinMap Id ℕ) (id : Id) : FinMap Id ℕ :=
  readers.insert id ((readers.get? id).getD 0 + 1)

/-- A reader lets go of a receipt. -/
def dropReceipt (readers : FinMap Id ℕ) (id : Id) : FinMap Id ℕ :=
  readers.alter id fun count =>
    count.bind fun count => if count - 1 = 0 then none else some (count - 1)

/-- `cancel_operation` on a receipt. What has not ended is pending, since the state `committed` is
never written, and only collections and recoveries are pending with an effect. -/
def cancelledOperation (op : Operation) : Operation :=
  if op.committedState = .notCommitted ∨ op.state.pending then
    { op with cancelled := true, state := if op.state.pending then .cancelling else op.state }
  else op

end State

/-- The steps of others. -/
inductive Work
  | prepareOwner (id : Id)
  | registerOwner (id : Id)
  | releaseOwner (id : Id)
  | insertLease (id : Id)
  | releaseLease (id : Id)
  | reserve (id : Id)
  | unreserve (id : Id)
  | acceptOperation (id : Id)
  | cancelOperation (id : Id)
  /-- The executor of an operation writes how far it is. -/
  | saveOperation (id : Id) (state : OperationState)
  | acknowledge (id : Id)
  | createObject (id : Id)
  | removeObject (id : Id)
  /-- `pin`: the admission check and the activity guard are under one lock. -/
  | pin
  /-- `ActivityGuard::acquire`. -/
  | takeActivity
  | dropActivity
  /-- `hold_operation`. -/
  | holdOperation (id : Id)
  | dropReader (id : Id)
  | verify
  | verified

/-- The work is one that admission is for. -/
def Work.admitted : Work → Bool
  | .prepareOwner _ | .registerOwner _ | .insertLease _ | .reserve _ | .acceptOperation _
  | .createObject _ | .pin => true
  | _ => false

namespace State

/-- A step that needs a condition. -/
def guarded (p : Prop) [Decidable p] (s : State) : Option State := if p then some s else none

/-- What a step of others does; nothing where it is refused, or cannot be taken. -/
def work (s : State) : Work → Option State
  | .prepareOwner id => guarded (s.admits ∧ s.owners.get? id = none)
      { s with owners := s.owners.insert id ⟨s.process, false, false⟩ }
  | .registerOwner id =>
    match s.owners.get? id with
    | none => none
    | some row => guarded (s.admits ∧ row.released = false)
        { s with owners := s.owners.insert id { row with registered := true } }
  | .releaseOwner id => some
      { s with owners := s.owners.alter id fun row => row.map fun row =>
          { row with released := true } }
  | .insertLease id => guarded (s.admits ∧ s.leases.get? id = none)
      { s with leases := s.leases.insert id false }
  | .releaseLease id => some
      { s with leases := s.leases.alter id fun row => row.map fun _ => true }
  | .reserve id => guarded (s.admits ∧ id ∉ s.reservations)
      { s with reservations := insert id s.reservations }
  | .unreserve id => some { s with reservations := s.reservations.erase id }
  | .acceptOperation id => guarded (s.admits ∧ s.operations.get? id = none)
      { s with operations := s.operations.insert id newOperation }
  | .cancelOperation id => some
      { s with operations := s.operations.alter id fun op => op.map cancelledOperation }
  | .saveOperation id state =>
    match s.operations.get? id with
    | none => none
    | some op => guarded (op.state.pending)
        { s with operations := s.operations.insert id { op with state := state } }
  | .acknowledge id =>
    match s.operations.get? id with
    | none => none
    | some op => guarded (op.state.terminal) { s with operations := s.operations.erase id }
  | .createObject id => guarded (s.admits ∧ id ∉ s.objects)
      { s with objects := insert id s.objects }
  | .removeObject id => some { s with objects := s.objects.erase id }
  | .pin => guarded (s.admits ∧ ¬ s.exclusive) { s with holders := s.holders + 1 }
  | .takeActivity => guarded (¬ s.exclusive) { s with holders := s.holders + 1 }
  | .dropActivity => guarded (s.holders ≠ 0) { s with holders := s.holders - 1 }
  | .holdOperation id => guarded (¬ s.readersLocked)
      { s with readers := holdReceipt s.readers id }
  | .dropReader id => guarded (¬ s.readersLocked ∧ s.readers.get? id ≠ none)
      { s with readers := dropReceipt s.readers id }
  | .verify => guarded (¬ s.verifying) { s with verifying := true }
  | .verified => some { s with verifying := false }

/-! ## An attempt -/

/-- `idle_counts`. -/
def idleCounts (s : State) (operation : Option Id) : Counts where
  leases := (s.leases.keys.filter fun id => s.leases.get? id = some false).card
  owners := (s.owners.keys.filter fun id =>
    (s.owners.get? id).any fun row => !row.released).card
  reservations := s.reservations.card
  operations := (s.operations.keys.filter fun id =>
    ((s.operations.get? id).any fun op => op.state.pending) ∧ operation ≠ some id).card

/-- `receipt_readers`: how often receipts are held, once by the attempt itself not counted. -/
def receiptReaders (readers : FinMap Id ℕ) (operation : Option Id) : ℕ :=
  ∑ id ∈ readers.keys, ((readers.get? id).getD 0 - if operation = some id then 1 else 0)

/-- The attempt goes on. -/
def goOn (s : State) (a : Attempt) (phase : Phase) : State :=
  { s with attempt := some { a with phase := phase } }

/-- What a refused attempt that closed nothing has found. -/
def refusal (s : State) (a : Attempt) (readers : ℕ) (counts : Counts) : IdleOutcome where
  stopping := false
  process := s.process
  leases := counts.leases
  owners := counts.owners
  reservations := counts.reservations
  operations := counts.operations
  operationReaders := readers
  namespaceReadersOrWork := false
  verificationActive := s.verifying
  external := a.external
  committedState := .notCommitted

/-- What an attempt that closed admission has found. -/
def decision (s : State) (a : Attempt) (counts : Counts) (busy : Bool) (readers : ℕ) :
    IdleOutcome :=
  let idle := decide (counts = .none ∧ readers = 0) && !busy && a.external.isIdle
  let stopping := idle && !s.verifying
  { stopping := stopping
    process := s.process
    leases := counts.leases
    owners := counts.owners
    reservations := counts.reservations
    operations := counts.operations
    operationReaders := readers
    namespaceReadersOrWork := busy
    verificationActive := s.verifying
    external := a.external
    committedState := if stopping then .committed else .notCommitted }

/-- The service record or admission after a decision. -/
def decideAdmission (s : State) (o : IdleOutcome) : State :=
  if o.stopping then { s with stopping := true } else { s with admission := .admitting }

/-- `commit_idle_decision`: the transaction, or nothing if it refuses. -/
def commitIdleDecision (s : State) (o : IdleOutcome) : Option Id → Option State
  | none => some (s.decideAdmission o)
  | some id =>
    match s.operations.get? id with
    | none => none
    | some op =>
      if op.cancelled then none
      else some { s.decideAdmission o with
        operations := s.operations.insert id
          { op with
            state := .completed
            committedState := o.committedState
            result := some o } }

/-- `stop_is_committed`. -/
def stopIsCommitted (s : State) : Option Bool :=
  if s.admission = .recovering ∨ (s.stopping ∧ s.admission ≠ .closed) then none
  else some s.stopping

end State

/-- What becomes of a step of an attempt. -/
inductive How
  | done
  /-- It fails, and changes nothing. -/
  | failed
  /-- It is done, and an error is reported. -/
  | lost
deriving DecidableEq

namespace State

/-- The transaction that counts the work and closes admission. -/
def countAndClose (s : State) (a : Attempt) (readers : ℕ) : State × Phase :=
  let visible := decide (readers ≠ 0) || !a.external.isIdle
  let counts := s.idleCounts a.operation
  if visible = false ∧ counts = .none then ({ s with admission := .closed }, .closed)
  else (s, .refused readers counts)

/-- The next step of an attempt: `stop_if_idle_inner`. -/
def advance (s : State) (a : Attempt) (how : How) : Option State :=
  match a.phase with
  | .begun =>
    match how with
    | .done => some (s.goOn a .sampling)
    | _ => some (s.goOn a (.ended .notBegun))
  | .sampling => some (s.goOn a (.sampled (receiptReaders s.readers a.operation)))
  | .sampled readers =>
    match how with
    | .done => some ((s.countAndClose a readers).1.goOn a (s.countAndClose a readers).2)
    | .failed => some (s.goOn a .failed)
    | .lost => some ((s.countAndClose a readers).1.goOn a .failed)
  | .refused readers counts =>
    match how with
    | .done => some (s.goOn a (.decided false (s.refusal a readers counts)))
    | _ => some (s.goOn a .failed)
  | .closed =>
    match how with
    | .done => some (s.goOn a (.counted (s.idleCounts a.operation)))
    | _ => some (s.goOn a .failed)
  | .counted counts =>
    match how with
    | .done => some (s.goOn a (.probed counts (decide (s.holders ≠ 0))))
    | _ => some (s.goOn a .failed)
  | .probed counts busy =>
    match how with
    | .done =>
      some (s.goOn a (.registered counts busy (receiptReaders s.readers a.operation)))
    | _ => some (s.goOn a .failed)
  | .registered counts busy readers =>
    match how with
    | .done => some (s.goOn a (.decided true (s.decision a counts busy readers)))
    | _ => some (s.goOn a .failed)
  | .decided isLocked o =>
    match how with
    | .done => (s.commitIdleDecision o a.operation).map fun s => s.goOn a (.committed isLocked o)
    | .failed => some (s.goOn a .failed)
    | .lost => (s.commitIdleDecision o a.operation).map fun s => s.goOn a .failed
  | .committed _ o =>
    match how with
    | .done => some (s.goOn a (.ended (.answered o)))
    | _ => some (s.goOn a .failed)
  | .failed =>
    match how with
    | .done =>
      match s.stopIsCommitted with
      | none => some (s.goOn a (.ended .unreadable))
      | some true => some (s.goOn a (.ended .stopCommitted))
      | some false => some (s.goOn a .restoring)
    | _ => some (s.goOn a (.ended .unreadable))
  | .restoring =>
    match how with
    | .done => some ({ s with admission := .admitting }.goOn a (.ended .restored))
    | .failed => some (s.goOn a (.ended .unrestored))
    | .lost => some ({ s with admission := .admitting }.goOn a (.ended .unrestored))
  | .ended _ => some { s with attempt := none }

/-- An attempt may begin: without a token, or with one whose receipt is held and has no result
yet. -/
def mayBegin (s : State) : Option Id → Bool
  | none => true
  | some id => decide (s.readers.get? id ≠ none) &&
      (s.operations.get? id).any fun op => op.state.pending && op.result.isNone

end State

/-- All steps. -/
inductive Action
  | work (w : Work)
  | activate
  /-- An attempt takes the maintenance lock. -/
  | begin (external : ExternalWork) (operation : Option Id)
  /-- The attempt takes its next step. -/
  | advance (how : How)

/-- **One step.** -/
def State.step (s : State) : Action → Option State
  | .work w => s.work w
  | .activate => guarded (s.attempt.isNone ∧ s.stopping = false)
      { s with admission := .admitting }
  | .begin external operation => guarded (s.attempt.isNone ∧ s.mayBegin operation)
      { s with attempt := some ⟨external, operation, .begun⟩ }
  | .advance how => s.attempt.bind fun a => s.advance a how

/-- The instance has just been activated. -/
structure State.Activated (s : State) : Prop where
  admitting : s.admission = .admitting
  notStopping : s.stopping = false
  attempt : s.attempt = none
  /-- Results are those of former instances. -/
  results : ∀ id op o, s.operations.get? id = some op → op.result = some o →
    o.process ≠ s.process

end IdleStop

end Tgrep.Managed
