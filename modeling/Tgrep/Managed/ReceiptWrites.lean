import Tgrep.Data.Threads
import Tgrep.Managed.Operations

/-!
# Who writes the receipt of an operation

The receipt of one operation is rewritten by the one that executes it, by clients that cancel it, by
the release of its owner, and by the recovery passes of others. Each read of the catalog and each
transaction is one step, and most writers have read the receipt in an earlier one.

## Main definitions

* `ReceiptWrites.Row`: the receipt, and what else the writers look at.
* `ReceiptWrites.Task`, `ReceiptWrites.exec`: the reads and transactions of the writers.
* `ReceiptWrites.recovered`: the receipt that a recovery pass saves.
* `ReceiptWrites.Move`, `ReceiptWrites.State.apply`: the steps.

## Implementation notes

The registry of queued jobs, the lock of metadata operations and the maintenance lock let one
executor at a time work at an operation, and only in the process that accepted it. Writes of
progress alone, among them that of the lease of an attachment, are left out. What an executor finds
or is told is the answer that a run gives it; a transaction that fails does not happen.
-/

namespace Tgrep.Managed

namespace ReceiptWrites

open Threads Operations

variable {ρ δ : Type}

/-- The receipt of an operation, and what else its writers look at. -/
structure Row (ρ δ : Type) where
  /-- The receipt, until it is acknowledged. -/
  receipt : Option (Receipt ρ δ)
  /-- Whether the operation has a reservation. -/
  reserved : Bool
  /-- The process that has the namespace open. -/
  process : Id
  /-- Whether a catalog effect of the operation was committed. -/
  effect : Bool

/-- What a run answers an executor. -/
inductive Answer (ρ : Type)
  | goOn
  /-- Begin the work at the view. -/
  | start
  | reserve
  | release
  /-- Commit the effect, with the result. -/
  | commit (value : ρ)
  /-- Commit it, and find an error afterwards. -/
  | lost (value : ρ) (e : Error)
  /-- The view is there already. -/
  | join (value : ρ)
  /-- There is nothing to do. -/
  | decline (value : ρ)
  /-- Commit a part of a pass. -/
  | part
  /-- Save the progress of a pass. -/
  | save
  /-- Look whether the operation is cancelled. -/
  | check
  /-- End a pass. -/
  | stop (isCancelled complete : Bool)
  | fail (e : Error)
  /-- Whether the lifetime of the operation is over. -/
  | lifetime (expired : Bool)

/-- The reads and transactions of the writers. -/
inductive Task (ρ δ : Type)
  /-- `ViewManager::execute`. -/
  | viewRead
  | viewWork
  | viewDone
  | viewError (e : Error)
  /-- `defer_operation`. -/
  | deferOperation (e : Error)
  /-- `record_operation_result` of an error. -/
  | recordError (e : Error)
  /-- `fail_operation`. -/
  | failOperation (e : Error)
  /-- `execute_metadata_mutation`. -/
  | metadataRead
  | metadataMutate
  /-- `collect_pass`. -/
  | collectRead
  | collectReserve
  | collectWork (changed : Bool)
  /-- `save_collection_progress` at the end. -/
  | collectFinish (isCancelled changed : Bool)
  /-- An idle stop with a token. -/
  | idleRead
  | idleReadAgain
  /-- `commit_idle_decision`. -/
  | idleDecide
  | idleDone
  /-- `recover_with_token`. -/
  | recoverRead
  | recoverReadAgain
  | recoverPrepare
  | recoverUnits (changed : Bool)
  | recoverFinish (isCancelled changed complete : Bool)
  /-- `cancel_operation`. -/
  | cancelOperation
  /-- `release_owner` of the owner of the operation. -/
  | releaseOwner
  /-- The receipt is acknowledged, or its scope is gone. -/
  | acknowledge
  /-- The recovery pass of another reads the receipt. -/
  | scanRead
  | scanCheck (copy : Receipt ρ δ)
  | scanSave (copy : Receipt ρ δ) (expired : Bool)

/-- What a task does that only goes on. -/
def goOn (s : Row ρ δ) (next : List (Task ρ δ)) : Option (Outcome (Row ρ δ) (Task ρ δ) Unit) :=
  some ⟨s, next, [], none⟩

/-- Write the receipt, if it is there, and go on. -/
def write (s : Row ρ δ) (f : Receipt ρ δ → Receipt ρ δ) (next : List (Task ρ δ)) :
    Option (Outcome (Row ρ δ) (Task ρ δ) Unit) :=
  goOn { s with receipt := s.receipt.map f } next

/-- The reasons for which work at a view is deferred. -/
def deferrable (e : Error) : Bool :=
  decide (e.category = .busy) &&
    decide (e.reasonCode ∈ ["view-work-active", "generation-already-materializing",
      "view-attachment-preparing", "object-retirement-in-progress",
      "catalog-checkpoint-readers-active"])

/-- The error of work that was cancelled. -/
def cancelledError : Error := ⟨.cancelled, "operation-cancelled", "work was cancelled", none⟩

/-- The error of an operation that was interrupted. -/
def interruptedError (expired : Bool) : Error :=
  if expired then ⟨.deadline, "operation-deadline",
    "unstarted work exhausted its accepted lifetime", none⟩
  else ⟨.recoveryRequired, "interrupted-operation",
    "the operation ended before a complete receipt; " ++
      "recover the authoritative view or resume with a new token", none⟩

/-- `fail_operation` on a receipt. -/
def failed (e : Error) (r : Receipt ρ δ) : Receipt ρ δ :=
  if r.state = .failed ∨ r.state = .cancelled then r
  else { r with state := stateAfter r.state e, error := some e }

/-- `record_operation_result` of an error on a receipt. -/
def recorded (e : Error) (r : Receipt ρ δ) : Receipt ρ δ :=
  { r with state := stateAfter r.state e, error := some e }

/-- An operation that is completed with a result. -/
def completed (value : ρ) (committedState : CommitState) (r : Receipt ρ δ) : Receipt ρ δ :=
  { r with state := .completed, committedState := committedState, result := some value }

/-- `release_owner` on a receipt. -/
def released (r : Receipt ρ δ) : Receipt ρ δ :=
  if r.state.pending then { r with cancelled := true, state := .cancelling } else r

/-- `save_collection_progress` on a receipt, with the result at the end. -/
def progressed (changed isCancelled : Bool) (finished : Option ρ) (r : Receipt ρ δ) :
    Receipt ρ δ :=
  { r with
    committedState := if changed then .committed else r.committedState
    state := if isCancelled then .cancelled
      else if finished.isSome then .completed else .preparing
    result := finished <|> r.result }

/-- The end of a recovery with a token on its own receipt. -/
def recoveryDone (isCancelled changed complete : Bool) (value : ρ) (r : Receipt ρ δ) :
    Receipt ρ δ :=
  { r with
    state := if isCancelled then .cancelled else .completed
    committedState := if changed then .committed
      else if complete then .notCommitted else .unknown
    result := some value }

/-- The receipt that a recovery pass saves for one that it read. -/
def recovered (expired : Bool) (value : ρ) (copy : Receipt ρ δ) : Receipt ρ δ :=
  let isCommitted := decide (copy.committedState = .committed)
  let r := { copy with
    state := if isCommitted then .completed else .cancelled
    cancelled := !isCommitted }
  if copy.result.isSome then r
  else if copy.kind = "collection" ∧ isCommitted = true then { r with result := some value }
  else { r with
    error := some (interruptedError expired)
    state := if copy.committedState = .notCommitted then r.state else .failed }

/-- Write the receipt in a transaction that refuses a cancelled operation. -/
def unlessCancelled (s : Row ρ δ) (f : Receipt ρ δ → Receipt ρ δ) (effect : Bool)
    (next : List (Task ρ δ)) (onError : Error → Task ρ δ) :
    Option (Outcome (Row ρ δ) (Task ρ δ) Unit) :=
  match s.receipt with
  | none => goOn s [onError noRows]
  | some r =>
    if r.cancelled then goOn s [onError cancelledError]
    else write { s with effect := s.effect || effect } f next

/-- What a task does; nothing on an answer that it does not ask for. -/
def exec (s : Row ρ δ) (answer : Answer ρ) :
    Task ρ δ → Option (Outcome (Row ρ δ) (Task ρ δ) Unit)
  | .viewRead =>
    match s.receipt with
    | none => goOn s [.failOperation noRows]
    | some r =>
      if r.state.terminal then goOn s []
      else if r.committedState ≠ .notCommitted then
        goOn s [.failOperation ⟨.recoveryRequired, "operation-commit-needs-recovery",
          "read the authoritative view before resuming committed work", none⟩]
      else goOn s [.viewWork]
  | .viewWork =>
    match answer with
    | .start =>
      unlessCancelled s (fun r => { r with state := .preparing }) false [.viewWork] .viewError
    | .reserve => goOn { s with reserved := true } [.viewWork]
    | .release => goOn { s with reserved := false } [.viewWork]
    | .commit value => unlessCancelled s (completed value .committed) true [.viewDone] .viewError
    | .join value => write { s with effect := true } (completed value .committed) []
    | .decline value => write s (fun r => completed value r.committedState r) []
    | .fail e => goOn s [.viewError e]
    | _ => none
  | .viewDone =>
    match answer with
    | .release => goOn { s with reserved := false } [.viewDone]
    | .fail e => goOn s [.recordError e]
    | _ => goOn s []
  | .viewError e => goOn s [if deferrable e then .deferOperation e else .recordError e]
  | .deferOperation _ =>
    match s.receipt with
    | none => goOn s [.recordError noRows]
    | some r =>
      if r.cancelled then goOn s [.recordError cancelledError]
      else if r.committedState ≠ .notCommitted then
        goOn s [.recordError (.busy "operation-already-committed")]
      else if s.reserved then goOn s []
      else match answer with
        | .lifetime true => goOn s [.recordError ⟨.deadline, "operation-deadline",
            "deferred operation lifetime exhausted", none⟩]
        | _ => write s (fun r => { r with state := .accepted }) []
  | .recordError e => write s (recorded e) []
  | .failOperation e => write s (failed e) []
  | .metadataRead =>
    match s.receipt with
    | none => goOn s [.failOperation noRows]
    | some r =>
      if r.state.terminal then goOn s []
      else match answer with
        | .fail e => goOn s [.failOperation e]
        | _ => goOn s [.metadataMutate]
  | .metadataMutate =>
    match answer with
    | .commit value => unlessCancelled s (completed value .committed) true [] .recordError
    | .lost value e =>
      unlessCancelled s (completed value .committed) true [.failOperation e] .recordError
    | .fail e => goOn s [.recordError e]
    | _ => none
  | .collectRead =>
    match s.receipt with
    | none => goOn s [.failOperation noRows]
    | some r =>
      if r.result.isSome then goOn s []
      else match r.error with
        | some e => goOn s [.failOperation e]
        | none => goOn s [.collectReserve]
  | .collectReserve =>
    match s.receipt with
    | none => goOn s [.failOperation noRows]
    | some r =>
      if r.cancelled ∨ ¬ (r.state = .accepted ∨ r.state = .preparing) then
        goOn s [.failOperation (.busy "operation-is-not-admissible")]
      else match answer with
        | .fail e => goOn s [.failOperation e]
        | _ => goOn { s with reserved := true } [.collectWork false]
  | .collectWork changed =>
    match answer with
    | .part => write { s with effect := true } (fun r => { r with committedState := .committed })
        [.collectWork true]
    | .save =>
      match s.receipt with
      | none => goOn { s with reserved := false } [.failOperation noRows]
      | some r =>
        -- a cancelled pass saves that it is, and its result later
        if r.cancelled then write s (progressed changed true none) [.collectFinish true changed]
        else write s (progressed changed false none) [.collectWork changed]
    | .check =>
      match s.receipt with
      | none => goOn { s with reserved := false } [.failOperation noRows]
      | some r =>
        if r.cancelled then goOn s [.collectFinish true changed] else goOn s [.collectWork changed]
    | .stop isCancelled _ => goOn s [.collectFinish isCancelled changed]
    | .fail e => goOn { s with reserved := false } [.failOperation e]
    | _ => none
  | .collectFinish isCancelled changed =>
    match answer with
    | .commit value =>
      write { s with reserved := false }
        (fun r => progressed changed (isCancelled || r.cancelled) (some value) r) []
    | .fail e => goOn { s with reserved := false } [.failOperation e]
    | _ => none
  | .idleRead =>
    match s.receipt with
    | none => goOn s []
    | some r => if r.result.isSome || r.error.isSome then goOn s [] else goOn s [.idleReadAgain]
  | .idleReadAgain =>
    match s.receipt with
    | none => goOn s []
    | some r =>
      if r.result.isSome || r.error.isSome then goOn s []
      else match answer with
        | .lifetime true => goOn s []
        | _ => goOn s [.idleDecide]
  | .idleDecide =>
    match answer with
    | .commit value => unlessCancelled s (completed value .committed) true [.idleDone] .failOperation
    | .decline value =>
      unlessCancelled s (completed value .notCommitted) false [.idleDone] .failOperation
    | .fail e => goOn s [.failOperation e]
    | _ => none
  | .idleDone =>
    match answer with
    | .fail e => goOn s [.failOperation e]
    | _ => goOn s []
  | .recoverRead =>
    match s.receipt with
    | none => goOn s []
    | some r => if r.state.terminal then goOn s [] else goOn s [.recoverReadAgain]
  | .recoverReadAgain =>
    match s.receipt with
    | none => goOn s []
    | some r =>
      if r.state.terminal then goOn s []
      else match answer with
        | .fail e => goOn s [.failOperation e]
        | _ => goOn s [.recoverPrepare]
  | .recoverPrepare =>
    match s.receipt with
    | none => goOn s [.failOperation noRows]
    | some r =>
      if r.state.terminal then goOn s []
      else if r.cancelled then goOn s [.failOperation cancelledError]
      else write s (fun r => { r with state := .preparing, committedState := .unknown })
        [.recoverUnits false]
  | .recoverUnits changed =>
    match answer with
    | .part => goOn { s with effect := true } [.recoverUnits true]
    | .stop isCancelled complete => goOn s [.recoverFinish isCancelled changed complete]
    | .fail e => goOn s [.failOperation e]
    | _ => none
  | .recoverFinish isCancelled changed complete =>
    match answer with
    | .commit value => write s (recoveryDone isCancelled changed complete value) []
    | _ => none
  | .cancelOperation => write s cancelled []
  | .releaseOwner => write s released []
  | .acknowledge =>
    match s.receipt with
    | none => goOn s []
    | some r =>
      if r.state.terminal && !s.reserved then goOn { s with receipt := none } [] else goOn s []
  | .scanRead =>
    match s.receipt with
    | none => goOn s []
    | some r => if r.state.terminal then goOn s [] else goOn s [.scanCheck r]
  | .scanCheck copy =>
    match answer with
    | .lifetime expired =>
      if !s.reserved && (decide (copy.process ≠ s.process) || copy.cancelled || expired) then
        goOn s [.scanSave copy expired]
      else goOn s []
    | _ => none
  | .scanSave copy expired =>
    match answer with
    -- the receipt is not read again
    | .commit value => write s (fun _ => recovered expired value copy) []
    | _ => none

/-- The tasks of the executor of an operation, by its kind. -/
def executor (kind : String) : List (Task ρ δ) :=
  if kind = "metadata" then [.metadataRead]
  else if kind = "collection" then [.collectRead]
  else if kind = "idle-stop" then [.idleRead]
  else if kind = "recovery" then [.recoverRead]
  else [.viewRead]

/-- The threads of the writers. -/
abbrev State (ρ δ : Type) := Pool (Row ρ δ) (Task ρ δ)

/-- Tasks of the executor of an operation. -/
def Task.executes : Task ρ δ → ℕ
  | .cancelOperation | .releaseOwner | .acknowledge | .scanRead | .scanCheck _
  | .scanSave _ _ => 0
  | _ => 1

/-- One step. -/
inductive Move (ρ : Type)
  | task (tid : ℕ) (answer : Answer ρ)
  /-- The executor of the operation starts. -/
  | execute
  | cancelOperation
  | releaseOwner
  | acknowledge
  /-- A recovery pass comes to the operation. -/
  | scan
  /-- The process ends, and another opens the namespace. -/
  | crash

/-- The threads with another one. -/
def State.start (c : State ρ δ) (thread : List (Task ρ δ)) : State ρ δ :=
  ⟨c.shared, c.threads ++ [thread]⟩

/-- The state after a step. A step that nothing can do changes nothing. -/
def State.apply (c : State ρ δ) : Move ρ → State ρ δ
  | .task tid answer =>
    match Pool.step exec c tid answer with
    | some (c', _) => c'
    | none => c
  | .execute =>
    match c.shared.receipt with
    | some r =>
      -- the registry of queued jobs and the locks let in one at a time
      if total Task.executes c.threads = 0 ∧ r.process = c.shared.process then
        c.start (executor r.kind)
      else c
    | none => c
  | .cancelOperation => c.start [.cancelOperation]
  | .releaseOwner => c.start [.releaseOwner]
  | .acknowledge => c.start [.acknowledge]
  | .scan => c.start [.scanRead]
  | .crash => ⟨{ c.shared with process := c.shared.process + 1 }, []⟩

/-- An operation that was just accepted. -/
def accepted (r : Receipt ρ δ) : State ρ δ :=
  ⟨⟨some { r with
      state := .accepted, committedState := .notCommitted, cancelled := false,
      result := none, error := none }, false, r.process, false⟩, []⟩

end ReceiptWrites

end Tgrep.Managed
