import Tgrep.Data.Threads
import Tgrep.Managed.IdleStopSafe

/-!
# The threads of the daemon

The daemon accepts connections, answers requests, runs accepted operations on workers and does
maintenance in ticks. Each accepted request, each query, each tick and each queued operation is
counted by a guard. A request to stop closes the admission gate, reads the counters one after
another, and leaves the rest to the namespace, which looks at the catalog itself.

## Main definitions

* `Daemon.Shared`: the gate, the counters, the queues, and the namespace.
* `Daemon.Stage`, `Daemon.Shared.advance`: the handler of a request to stop, which holds the gate.
* `Daemon.Task`, `Daemon.exec`: what the threads do.
* `Daemon.Start`: the daemon when it starts to accept connections.

## Implementation notes

What a request, a job or a tick does is any sequence of the steps that the daemon has for it; the
steps of other processes and of watchers are those of a thread of their own. A section under a lock
is one step, except for the gate, which the handler of a request to stop holds over many. More
requests may be served at a time than the daemon has threads for, and a thread need not look at the
stop flag. A connection that is answered at once because a queue is full, and an operation that is
not queued because the queue is, leave no trace.
-/

namespace Tgrep

namespace Daemon

open Threads Managed Managed.IdleStop

/-- How the handler of a request to stop leaves the gate. -/
inductive Conclusion
  /-- The gate is open again. -/
  | opened
  /-- The daemon stops. -/
  | stopping
  /-- It cannot be read whether a stop is committed. -/
  | unreadable
deriving DecidableEq

/-- What `stop_if_idle_with_token` returns. -/
inductive StopResult
  | ok (outcome : IdleOutcome)
  | err

/-- How far the handler of a request to stop is, from when it has closed the gate. -/
inductive Stage
  /-- `drain_released`. -/
  | drain
  /-- The counters, one after another. -/
  | readQueries
  | readQueued (queries : ℕ)
  | readRequests (queries queued : ℕ)
  | readBackground (queries queued requests : ℕ)
  /-- `stop_if_idle_with_token`: the operation is accepted, or was before. -/
  | accept (external : ExternalWork)
  /-- Its receipt is held. -/
  | hold (external : ExternalWork) (id : Id)
  /-- Is there a result? -/
  | read (external : ExternalWork) (id : Id)
  /-- Take the maintenance lock. -/
  | lock (external : ExternalWork) (id : Id)
  /-- The attempt. -/
  | attempt (id : Id)
  /-- `fail_operation`. -/
  | fail (id : Id)
  /-- The receipt is dropped. -/
  | drop (id : Id) (result : StopResult)
  /-- What to do with the result. -/
  | conclude (result : StopResult)
  | setStopping
  | openGate
  /-- The gate is let go. -/
  | release (conclusion : Conclusion)

/-- What the threads share. -/
structure Shared where
  /-- The namespace. -/
  core : IdleStop.State
  /-- Whether requests are admitted: the value under the admission lock. -/
  gate : Bool
  /-- The handler that holds the admission lock. -/
  stage : Option Stage
  requests : ℕ
  queries : ℕ
  backgroundBatches : ℕ
  /-- The operations that are queued or run. Each has a receipt held for it. -/
  queued : List Id
  /-- Those that no worker has taken yet. -/
  jobs : List Id
  running : List Id
  stopping : Bool

/-- What is seen of a step. -/
inductive Note
  /-- A request is admitted. -/
  | admitted
  /-- A request is answered. -/
  | answered
  /-- An operation is accepted. -/
  | accepted (id : Id)
  /-- An operation is started. -/
  | started (id : Id)
  /-- A request to stop sets the stop flag. -/
  | stopSet
  /-- The handler of a request to stop lets the gate go. -/
  | concluded (conclusion : Conclusion)
deriving DecidableEq

/-- The tasks of the threads. -/
inductive Task
  /-- The loop that accepts connections. -/
  | accept
  /-- A request is handled. -/
  | serve
  /-- It is answered. -/
  | respond
  /-- Its guard is dropped. -/
  | endRequest
  | endQuery
  /-- A receipt is let go. -/
  | dropReceipt (id : Id)
  /-- A request to stop closes the gate. -/
  | closeGate
  /-- It is handled, with the gate held. -/
  | stop
  /-- The loop of a worker. -/
  | worker
  | job (id : Id)
  | endRunning (id : Id)
  /-- The operation leaves the registry, and its receipt is let go. -/
  | dropQueued (id : Id)
  /-- The loop of the scheduler. -/
  | scheduler
  | tick
  | endTick
  /-- Other processes and watchers. -/
  | environment
deriving DecidableEq

/-- What a run decides of a step. -/
inductive Choice
  | done
  | failed
  /-- It is done, and an error is reported. -/
  | lost
  | work (w : Work)
  | hold (id : Id)
  | enqueue (id : Id)
  | query
  | stop
  | finish
  /-- A worker takes this operation. -/
  | pop (id : Id)
  /-- The token of the request is new, and this is its operation. -/
  | accept (id : Id)
  /-- The token was used before, for this operation. -/
  | replay (id : Id)

/-- What becomes of a step of an attempt. -/
def Choice.how : Choice → Option How
  | .done => some .done
  | .failed => some .failed
  | .lost => some .lost
  | _ => none

/-- The work takes or lets go a receipt. -/
def tracked : Work → Bool
  | .holdOperation _ | .dropReader _ => true
  | _ => false

/-- What is seen of work. -/
def noteOf : Work → Option Note
  | .acceptOperation id => some (.accepted id)
  | _ => none

namespace Shared

/-- What a task leads to. -/
abbrev Result := Option (Outcome Shared Task Note)

/-- A task is done, and leads to others of its thread. -/
def go (s : Shared) (next : List Task) : Result := some ⟨s, next, [], none⟩

/-- A task works at the namespace. -/
def workOn (s : Shared) (w : Work) (next : List Task) : Result :=
  if tracked w then none
  else (s.core.work w).map fun core => ⟨{ s with core := core }, next, [], noteOf w⟩

/-- A task takes hold of a receipt, which `later` lets go. -/
def holdOn (s : Shared) (id : Id) (next : List Task) (spawned : List (List Task)) : Result :=
  (s.core.work (.holdOperation id)).map fun core => ⟨{ s with core := core }, next, spawned, none⟩

/-- `enqueue`: the section under the lock of the registry. -/
def enqueue (s : Shared) (id : Id) (next : List Task) : Result :=
  if id ∈ s.queued then s.go next
  else (s.core.work (.holdOperation id)).map fun core =>
    ⟨{ s with core := core, queued := id :: s.queued, jobs := s.jobs ++ [id] }, next, [], none⟩

/-- What a request, a job or a tick may do, over and over. -/
def act (s : Shared) (again : Task) : Choice → Result
  | .work w => s.workOn w [again]
  | .hold id => s.holdOn id [again, .dropReceipt id] []
  | .enqueue id => s.enqueue id [again]
  | .finish => s.go []
  | _ => none

/-- The handler goes on. -/
def goTo (s : Shared) (stage : Stage) : Shared := { s with stage := some stage }

/-- How the handler goes on after an attempt that has ended. -/
def afterAttempt (id : Id) : Ended → Stage
  | .answered o => .drop id (.ok o)
  | _ => .fail id

/-- How the handler goes on after a step of an attempt that was in this phase. -/
def nextStage (id : Id) : Option Phase → Stage
  | some (.ended how) => afterAttempt id how
  | _ => .attempt id

/-- The next step of the handler of a request to stop. -/
def advance (s : Shared) (choice : Choice) : Stage → Option Shared
  | .drain =>
    match choice with
    | .done => some (s.goTo .readQueries)
    | .failed => some (s.goTo (.conclude .err))
    | .work w => if tracked w then none else (s.core.work w).map fun core =>
        { s with core := core }.goTo .drain
    | _ => none
  | .readQueries => some (s.goTo (.readQueued s.queries))
  | .readQueued queries => some (s.goTo (.readRequests queries s.queued.length))
  | .readRequests queries queued =>
    some (s.goTo (.readBackground queries queued (s.requests - 1)))
  | .readBackground queries queued requests =>
    some (s.goTo (.accept ⟨queries, queued, requests, s.backgroundBatches⟩))
  | .accept external =>
    match choice with
    | .accept id => (s.core.work (.acceptOperation id)).map fun core =>
        { s with core := core }.goTo (.hold external id)
    | .replay id => some (s.goTo (.hold external id))
    | .failed => some (s.goTo (.conclude .err))
    | _ => none
  | .hold external id =>
    match choice with
    | .done => (s.core.work (.holdOperation id)).map fun core =>
        { s with core := core }.goTo (.read external id)
    | .failed => some (s.goTo (.conclude .err))
    | _ => none
  | .read external id =>
    match choice with
    | .done =>
      match (s.core.operations.get? id).bind fun op => op.result with
      | some o => some (s.goTo (.drop id (.ok o)))
      | none => some (s.goTo (.lock external id))
    | .failed => some (s.goTo (.drop id .err))
    | _ => none
  | .lock external id =>
    match choice with
    | .done => (s.core.step (.begin external (some id))).map fun core =>
        { s with core := core }.goTo (.attempt id)
    | .replay _ =>
      match (s.core.operations.get? id).bind fun op => op.result with
      | some o => some (s.goTo (.drop id (.ok o)))
      | none => none
    | .failed => some (s.goTo (.drop id .err))
    | _ => none
  | .attempt id =>
    choice.how.bind fun how => (s.core.step (.advance how)).map fun core =>
      { s with core := core }.goTo (nextStage id (s.core.attempt.map Attempt.phase))
  | .fail id =>
    match choice with
    | .done => (s.core.work (.saveOperation id .failed)).map fun core =>
        { s with core := core }.goTo (.drop id .err)
    | .failed => some (s.goTo (.drop id .err))
    | _ => none
  | .drop id result => (s.core.work (.dropReader id)).map fun core =>
      { s with core := core }.goTo (.conclude result)
  | .conclude (.ok o) =>
    if o.stopping ∧ o.process = s.core.process then some (s.goTo .setStopping)
    else some (s.goTo .openGate)
  | .conclude .err =>
    match choice with
    | .done =>
      match s.core.stopIsCommitted with
      | some true => some (s.goTo .setStopping)
      | some false => some (s.goTo .openGate)
      | none => some (s.goTo (.release .unreadable))
    | .failed => some (s.goTo (.release .unreadable))
    | _ => none
  | .setStopping => some ({ s with stopping := true }.goTo (.release .stopping))
  | .openGate => some ({ s with gate := true }.goTo (.release .opened))
  | .release _ => some { s with stage := none }

end Shared

/-- What is seen of a step of the handler of a request to stop. -/
def stageNote (choice : Choice) : Stage → Option Note
  | .drain =>
    match choice with
    | .work w => noteOf w
    | _ => none
  | .accept _ =>
    match choice with
    | .accept id => some (.accepted id)
    | _ => none
  | .setStopping => some .stopSet
  | .release conclusion => some (.concluded conclusion)
  | _ => none

/-- **What a task does**; nothing on a choice that it does not have, or while a lock that it needs
is held. -/
def exec (s : Shared) (choice : Choice) : Task → Option (Outcome Shared Task Note)
  | .accept =>
    match choice with
    | .done =>
      if s.stage.isSome then none
      else if s.gate then
        some ⟨{ s with requests := s.requests + 1 }, [.accept],
          [[.serve, .respond, .endRequest]], some .admitted⟩
      else s.go [.accept]
    | .failed => { s with stopping := true }.go []
    | _ => none
  | .serve =>
    match choice with
    | .query => { s with queries := s.queries + 1 }.go [.serve, .endQuery]
    | .stop => s.go [.closeGate]
    | _ => s.act .serve choice
  | .respond => some ⟨s, [], [], some .answered⟩
  | .endRequest => { s with requests := s.requests - 1 }.go []
  | .endQuery => { s with queries := s.queries - 1 }.go []
  | .dropReceipt id => (s.core.work (.dropReader id)).map fun core =>
      ⟨{ s with core := core }, [], [], none⟩
  | .closeGate =>
    if s.stage.isSome then none
    else { s with gate := false, stage := some .drain }.go [.stop]
  | .stop => s.stage.bind fun stage => (s.advance choice stage).map fun s' =>
      ⟨s', if s'.stage.isSome then [.stop] else [], [], stageNote choice stage⟩
  | .worker =>
    match choice with
    | .pop id =>
      if id ∈ s.jobs then
        some ⟨{ s with jobs := s.jobs.erase id, running := id :: s.running },
          [.job id, .endRunning id, .dropQueued id, .worker], [], some (.started id)⟩
      else none
    | .finish => if s.stopping then s.go [] else none
    | _ => none
  | .job id => s.act (.job id) choice
  | .endRunning id => { s with running := s.running.erase id }.go []
  | .dropQueued id => (s.core.work (.dropReader id)).map fun core =>
      ⟨{ s with core := core, queued := s.queued.erase id }, [], [], none⟩
  | .scheduler =>
    match choice with
    | .done =>
      if s.stage.isSome then none
      else if s.gate then
        { s with backgroundBatches := s.backgroundBatches + 1 }.go [.tick, .endTick, .scheduler]
      else s.go [.scheduler]
    | .finish => if s.stopping then s.go [] else none
    | _ => none
  | .tick => s.act .tick choice
  | .endTick => { s with backgroundBatches := s.backgroundBatches - 1 }.go []
  | .environment =>
    match choice with
    | .work w => s.workOn w [.environment]
    | .hold id => s.holdOn id [.environment] [[.dropReceipt id]]
    | _ => none

/-- The threads over what they share. -/
abbrev State := Pool Shared Task

/-- A step: a thread does its next task. -/
structure Move where
  thread : ℕ
  choice : Choice

/-- One step. -/
def State.step (c : State) (m : Move) : Option (State × Option Note) :=
  Pool.step exec c m.thread m.choice

/-- The daemon starts to accept connections. -/
def Start (core : IdleStop.State) (workers : ℕ) : State where
  shared :=
    { core := core
      gate := true
      stage := none
      requests := 0
      queries := 0
      backgroundBatches := 0
      queued := []
      jobs := []
      running := []
      stopping := false }
  threads := [.accept] :: [.scheduler] :: [.environment] :: List.replicate workers [.worker]

/-- What the daemon starts with: the instance has just been activated, and nobody holds a
receipt. -/
structure Fresh (core : IdleStop.State) : Prop where
  activated : core.Activated
  readers : core.readers = .empty

end Daemon

end Tgrep
