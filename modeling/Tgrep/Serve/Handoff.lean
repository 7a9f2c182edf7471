import Tgrep.Data.FinMap
import Tgrep.Data.Threads

/-!
# Events during an index build

While an index is built, events about files cannot be applied. They are collected in a buffer, which
is replayed when the build has published. An event about ignore rules sets a flag, and a worker
refreshes the index when it finds the flag set.

The threads of the server are lists of tasks. A task is one atomic access, or one section under a
lock; a lock that is held over several tasks is part of the shared state.

## Main definitions

* `Handoff.FsEvent`, `Handoff.Shared`: an event, and the state that the threads share.
* `Handoff.Task`, `Handoff.exec`: the tasks, and what each does.
* `Handoff.Move`, `Handoff.State.step`: a step of a thread, or something new that arrives.
* `Handoff.Start`: the server with an initial build, or with an index that is to be refreshed.

## Implementation notes

The refresh is that of a server with a native watcher. A build, a reload and a refresh succeed;
checkpoints of an unfinished build are left out, since they hold the gate and leave `indexing` set.
Whether an event is about ignore rules, and whether applying a path finds that a refresh is needed,
is left to the run.
-/

namespace Tgrep

namespace Handoff

open Threads

/-- The number of paths that the buffer holds at most. -/
def MAX_DEFERRED : ℕ := 100000

/-- What the server is told about files. -/
structure FsEvent where
  paths : List String
  /-- Whether the kind of the event can put a directory somewhere. -/
  introducesDir : Bool
deriving DecidableEq

/-- The state that the threads share. -/
structure Shared where
  indexing : Bool
  flushing : Bool
  /-- The paths that were seen during a build, or nothing after too many. -/
  deferredEvents : Option (FinMap String Bool)
  ignoreRulesDirty : Bool
  ignoreRefreshScheduled : Bool
  gitignorePending : Bool
  /-- Whether the snapshot gate is held for writing. -/
  gateWriter : Bool
  /-- How often the snapshot gate is held for reading. -/
  gateReaders : ℕ
  staleRefreshLock : Bool
  /-- Whether a reload holds the buffer over its publication. -/
  deferredLock : Bool

/-- The tasks of the threads. Where a lock is held from one task to the next, the task that releases
it is the last one of a chain. -/
inductive Task
  /-- `handle_fs_event`: is the event about ignore rules? -/
  | handleFsEvent (event : FsEvent)
  /-- It is: set the flag. -/
  | rulesChanged
  /-- And leave the scheduling to a build, if there is one. -/
  | rulesDuringBuild
  /-- It is not: look at `indexing` without a lock. -/
  | deferHint (event : FsEvent)
  /-- `defer_events_during_build`. -/
  | deferEvents (event : FsEvent)
  /-- Take the snapshot gate for reading. -/
  | enterGate (event : FsEvent)
  /-- Look whether there is an ignore matcher. -/
  | checkPending (event : FsEvent)
  /-- Apply the next path, or leave the gate. -/
  | applyPaths (paths : List String) (introducesDir : Bool)
  /-- Set the flag and schedule a refresh. -/
  | markDirty
  /-- `schedule_ignore_rules_refresh`. -/
  | scheduleRefresh
  /-- `schedule_pending_ignore_refresh`. -/
  | schedulePending
  /-- The worker swaps the flag. -/
  | takeDirty
  /-- The worker waits out a build. -/
  | awaitBuild
  | clearScheduled
  | recheckDirty
  | reschedule
  /-- `background_refresh_stale`. -/
  | lockRefresh
  | lockGate
  | walk
  | publishWalk
  | unlockGate
  | unlockRefresh
  /-- The recovery scan waits out a build. -/
  | awaitScan
  /-- `replay_deferred_events`. -/
  | replay
  | replayLoop (paths : FinMap String Bool) (missingSubtree : Bool)
  /-- `handle_reload`. -/
  | reload
  | reloadFlushing
  | reloadLock
  | reloadGate
  | beginReload
  | reloadBuild
  | reloadFreeze
  | reloadPublish
  | reloadMatcher
  | endReload
  | reloadDropDeferred
  | reloadDropGate
  | reloadDropRefresh
  | reloadTail
  /-- `bootstrap_index_build`. -/
  | bootstrap
  | bootstrapGate
  | bootstrapPublish
  | bootstrapMatcher
  | bootstrapScan
  | bootstrapDropGate
  | endBootstrap
  /-- The build in heap. -/
  | inHeap
  | inHeapMatcher
  | inHeapScan
  | inHeapGate
  | inHeapFlushing
  | inHeapDone
  | inHeapPublish
  | inHeapDropGate
  | inHeapFlushed
  | endInHeap

/-- What a run decides where the model does not. -/
structure Choice where
  flag : Bool
  path : String

/-- What happened. -/
inductive Note
  | arrived (event : FsEvent)
  | rulesChanged
  | applied (path : String) (introducesDir : Bool)
  | refreshStarts
  | published
deriving DecidableEq

/-- What a task that only goes on does. -/
def goOn (s : Shared) (next : List Task) : Option (Outcome Shared Task Note) :=
  some ⟨s, next, [], none⟩

/-- Mark the rules dirty, if a run says so. -/
def Choice.marks (choice : Choice) : List Task :=
  if choice.flag then [.markDirty] else []

section

variable (inIndexDir : String → Bool)

/-- Put one path into the buffer. A path seen both ways keeps the stronger claim. -/
def deferPath (introducesDir : Bool) (m : FinMap String Bool) (path : String) :
    FinMap String Bool :=
  if inIndexDir path then m
  else m.insert path ((m.get? path).getD false || introducesDir)

/-- `defer_events_during_build` on the buffer. -/
def deferInto (event : FsEvent) : Option (FinMap String Bool) → Option (FinMap String Bool)
  | none => none
  | some m =>
    if MAX_DEFERRED < m.keys.card + event.paths.length then none
    else some (event.paths.foldl (deferPath inIndexDir event.introducesDir) m)

/-- What a task does; nothing while it waits. -/
def exec (s : Shared) (choice : Choice) : Task → Option (Outcome Shared Task Note)
  | .handleFsEvent event =>
    if choice.flag then some ⟨s, [.rulesChanged], [], some .rulesChanged⟩
    else goOn s [.deferHint event]
  | .rulesChanged => goOn { s with ignoreRulesDirty := true } [.rulesDuringBuild]
  | .rulesDuringBuild => if s.indexing then goOn s [] else goOn s [.scheduleRefresh]
  | .deferHint event =>
    if s.indexing then goOn s [.deferEvents event] else goOn s [.enterGate event]
  | .deferEvents event =>
    if s.deferredLock then none
    else if s.indexing then
      goOn { s with deferredEvents := deferInto inIndexDir event s.deferredEvents } []
    else goOn s [.enterGate event]
  | .enterGate event =>
    if s.gateWriter then none
    else goOn { s with gateReaders := s.gateReaders + 1 } [.checkPending event]
  | .checkPending event =>
    -- an event without a matcher is dropped
    if s.gitignorePending then goOn s [.applyPaths [] event.introducesDir]
    else goOn s [.applyPaths (event.paths.filter fun p => !inIndexDir p) event.introducesDir]
  | .applyPaths [] _ => goOn { s with gateReaders := s.gateReaders - 1 } []
  | .applyPaths (path :: paths) introducesDir =>
    some ⟨s, choice.marks ++ [.applyPaths paths introducesDir], [],
      some (.applied path introducesDir)⟩
  | .markDirty => goOn { s with ignoreRulesDirty := true } [.scheduleRefresh]
  | .scheduleRefresh =>
    if s.ignoreRefreshScheduled then goOn s []
    else some ⟨{ s with ignoreRefreshScheduled := true }, [], [[.takeDirty]], none⟩
  | .schedulePending => if s.ignoreRulesDirty then goOn s [.scheduleRefresh] else goOn s []
  | .takeDirty =>
    if s.ignoreRulesDirty then goOn { s with ignoreRulesDirty := false } [.awaitBuild]
    else goOn s [.clearScheduled]
  | .awaitBuild => if s.indexing then none else goOn s [.lockRefresh, .clearScheduled]
  | .clearScheduled => goOn { s with ignoreRefreshScheduled := false } [.recheckDirty]
  | .recheckDirty => if s.ignoreRulesDirty then goOn s [.reschedule] else goOn s []
  | .reschedule =>
    if s.ignoreRefreshScheduled then goOn s []
    else goOn { s with ignoreRefreshScheduled := true } [.takeDirty]
  | .lockRefresh =>
    if s.staleRefreshLock then none else goOn { s with staleRefreshLock := true } [.lockGate]
  | .lockGate =>
    if s.gateWriter || decide (0 < s.gateReaders) then none
    else goOn { s with gateWriter := true } [.walk]
  | .walk => some ⟨s, [.publishWalk], [], some .refreshStarts⟩
  | .publishWalk =>
    some ⟨{ s with gitignorePending := false }, choice.marks ++ [.unlockGate], [], some .published⟩
  | .unlockGate => goOn { s with gateWriter := false } [.unlockRefresh]
  | .unlockRefresh => goOn { s with staleRefreshLock := false } choice.marks
  | .awaitScan => if s.indexing then none else goOn s [.replay]
  | .replay =>
    if s.deferredLock then none
    else match s.deferredEvents with
      | some m => goOn { s with deferredEvents := some .empty } [.replayLoop m false]
      -- too many events: one full refresh instead
      | none => some ⟨{ s with deferredEvents := some .empty }, [], [[.lockRefresh]], none⟩
  | .replayLoop paths missingSubtree =>
    match paths.get? choice.path with
    | some introducesDir =>
      if choice.flag then goOn s [.replayLoop (paths.erase choice.path) true]
      else goOn s [.handleFsEvent ⟨[choice.path], introducesDir⟩,
        .replayLoop (paths.erase choice.path) missingSubtree]
    | none =>
      if !paths.isEmpty then none
      else if missingSubtree then goOn s [.markDirty] else goOn s []
  | .reload => if s.indexing then none else goOn s [.reloadFlushing]
  | .reloadFlushing => if s.flushing then goOn s [.reload] else goOn s [.reloadLock]
  | .reloadLock =>
    if s.staleRefreshLock then none else goOn { s with staleRefreshLock := true } [.reloadGate]
  | .reloadGate =>
    if s.gateWriter || decide (0 < s.gateReaders) then none
    else goOn { s with gateWriter := true } [.beginReload]
  | .beginReload =>
    if s.deferredLock then none else goOn { s with indexing := true } [.reloadBuild]
  | .reloadBuild => goOn s [.reloadFreeze]
  | .reloadFreeze =>
    if s.deferredLock then none else goOn { s with deferredLock := true } [.reloadPublish]
  | .reloadPublish => some ⟨s, [.reloadMatcher], [], some .published⟩
  | .reloadMatcher => goOn { s with gitignorePending := false } (choice.marks ++ [.endReload])
  | .endReload => goOn { s with indexing := false } [.reloadDropDeferred]
  | .reloadDropDeferred => goOn { s with deferredLock := false } [.reloadDropGate]
  | .reloadDropGate => goOn { s with gateWriter := false } [.reloadDropRefresh]
  | .reloadDropRefresh =>
    goOn { s with staleRefreshLock := false } [.replay, .schedulePending, .reloadTail]
  | .reloadTail => some ⟨s, choice.marks, [[.awaitScan]], none⟩
  | .bootstrap => if choice.flag then goOn s [.inHeap] else goOn s [.bootstrapGate]
  | .bootstrapGate =>
    if s.gateWriter || decide (0 < s.gateReaders) then none
    else goOn { s with gateWriter := true } [.bootstrapPublish]
  | .bootstrapPublish => some ⟨s, [.bootstrapMatcher], [], some .published⟩
  | .bootstrapMatcher =>
    goOn { s with gitignorePending := false } (choice.marks ++ [.bootstrapScan])
  | .bootstrapScan => some ⟨s, [.bootstrapDropGate], [[.awaitScan]], none⟩
  | .bootstrapDropGate => goOn { s with gateWriter := false } [.lockRefresh, .endBootstrap]
  | .endBootstrap => goOn { s with indexing := false } (choice.marks ++ [.schedulePending])
  | .inHeap => goOn s [.inHeapMatcher]
  | .inHeapMatcher => goOn { s with gitignorePending := false } (choice.marks ++ [.inHeapScan])
  | .inHeapScan => some ⟨s, [.inHeapGate], [[.awaitScan]], none⟩
  | .inHeapGate =>
    if s.gateWriter || decide (0 < s.gateReaders) then none
    else goOn { s with gateWriter := true } [.inHeapFlushing]
  | .inHeapFlushing => goOn { s with flushing := true } [.inHeapDone]
  | .inHeapDone => goOn { s with indexing := false } [.inHeapPublish]
  | .inHeapPublish => some ⟨s, [.inHeapDropGate], [], some .published⟩
  | .inHeapDropGate => goOn { s with gateWriter := false } [.inHeapFlushed]
  | .inHeapFlushed => goOn { s with flushing := false } [.lockRefresh, .endInHeap]
  -- `indexing` may be that of a reload by now
  | .endInHeap => goOn { s with indexing := false } (choice.marks ++ [.schedulePending])

-- the case rule is derived here, once for all proofs about a step
attribute [elab_as_elim] exec.fun_cases_unfolding

/-- The threads of the server. -/
abbrev State := Pool Shared Task

/-- What can start from outside. -/
inductive Arrival
  | event (event : FsEvent)
  | reload
  /-- A refresh that somebody asks for. -/
  | refresh
  /-- A recovery scan after a change of the subscriptions. -/
  | scan
  /-- Something else that asks for new ignore rules. -/
  | rules

/-- The thread of something that starts. -/
def Arrival.thread : Arrival → List Task
  | .event e => [.handleFsEvent e]
  | .reload => [.reload]
  | .refresh => [.lockRefresh]
  | .scan => [.awaitScan]
  | .rules => [.markDirty]

/-- The note about something that starts. -/
def Arrival.note : Arrival → Option Note
  | .event e => some (.arrived e)
  | _ => none

/-- One step of the server. -/
inductive Move
  | task (tid : ℕ) (choice : Choice)
  | arrive (arrival : Arrival)

/-- Tasks with a build, or reload, behind that has begun and has not published. -/
def Task.unpublished : Task → Bool
  | .reloadBuild | .reloadFreeze | .reloadPublish | .bootstrap | .bootstrapGate
  | .bootstrapPublish | .inHeap | .inHeapMatcher | .inHeapScan | .inHeapGate | .inHeapFlushing
  | .inHeapDone | .inHeapPublish => true
  | _ => false

/-- Whether a build or reload has begun and has not published. -/
def State.building (c : State) : Bool :=
  c.threads.any fun thread => thread.any Task.unpublished

/-- What happened, and whether a build or reload was unpublished then. -/
structure Entry where
  note : Note
  building : Bool
deriving DecidableEq

/-- One step of the server. -/
def State.step (c : State) : Move → Option (State × Option Entry)
  | .task tid choice => (Pool.step (exec inIndexDir) c tid choice).map fun r =>
      (r.1, r.2.map fun note => ⟨note, c.building⟩)
  | .arrive arrival => some (⟨c.shared, c.threads ++ [arrival.thread]⟩,
      arrival.note.map fun note => ⟨note, c.building⟩)

/-- A run of the server. -/
def State.run (c : State) (moves : List Move) : Option (State × List Entry) :=
  Traced.run (State.step inIndexDir) c moves

end

/-- The server when it starts: with an initial build, or with an index that is to be refreshed. -/
def start (needsBuild gitignorePending : Bool) : State where
  shared :=
    { indexing := needsBuild
      flushing := false
      deferredEvents := some .empty
      ignoreRulesDirty := false
      ignoreRefreshScheduled := false
      gitignorePending := gitignorePending
      gateWriter := false
      gateReaders := 0
      staleRefreshLock := false
      deferredLock := false }
  threads := [[if needsBuild then .bootstrap else .lockRefresh]]

end Handoff

end Tgrep
