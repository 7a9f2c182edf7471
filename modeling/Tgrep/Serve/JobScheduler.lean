import Tgrep.Managed.Admission
import Tgrep.Serve.JobQueue

/-!
# Workers that run accepted jobs

An accepted operation is entered in a registry and queued as a job. A worker takes a job, marks it
running, runs it, leaves the running set and takes the operation out of the registry. Operations are
submitted again and again; what is in the registry is not queued a second time.

## Main definitions

* `enqueueable`: the operations that are queued at all.
* `Scheduler`, `Scheduler.step`: the queue, the registry and its lock, and the workers.
* `Scheduler.occupancy`: where an operation is, counted.

## Main results

* `Scheduler.exclusive_step`: what one step preserves.
* `job_queue_sound`: what holds of the queue and of the workers in every run.

## Implementation notes

The lock of the registry is held while an operation is entered and queued, and the workers go on
meanwhile; so its stages are states of a gate. A worker whose job panics leaves the running set and
never comes back. The monitors that also remember an operation are left out, as are poisoned locks
and the receipts that the registry holds.
-/

namespace Tgrep.Jobs

open Finset Option Function

open Managed (Id OperationState)

/-- What is queued of an operation. -/
structure Operation where
  /-- Its identity. -/
  id : Id
  /-- What it does. -/
  kind : String
  /-- How far it is. -/
  state : OperationState
  /-- The instance that accepted it. -/
  inst : Id
  /-- The scope of its token. -/
  scope : Id
  /-- Whether its request asks for verification. -/
  verify : Option Bool

/-- The class of an operation. -/
def JobClass.of (op : Operation) (inst : Id) : JobClass :=
  .classify op.kind op.verify (decide (op.scope = inst))

/-- Whether an operation is work for this instance. -/
def enqueueable (inst : Id) (op : Operation) : Except Managed.Error Bool :=
  if op.kind = "idle-stop" ∨ op.kind = "recovery" then .ok false
  else if op.state ≠ .accepted ∧ op.state ≠ .preparing ∧ op.state ≠ .cancelling then .ok false
  else if op.inst ≠ inst then
    .error ⟨.recoveryRequired, "previous-instance-operation",
      "the previous instance's interrupted work must recover before its receipt can be replayed",
      none⟩
  else .ok true

/-- How far the submission is that holds the lock of the registry. -/
inductive Gate
  /-- Nobody holds it. -/
  | free
  /-- It has been taken. -/
  | locked (op : Operation)
  /-- The operation is in the registry. -/
  | inserted (op : Operation) (remaining : ℕ)
  /-- The queue has no room for it. -/
  | refused (op : Operation)

/-- What a worker does. -/
inductive Worker
  /-- It waits for a job. -/
  | idle
  /-- It runs a job. -/
  | running (id : Id)
  /-- It has left the running set, and not yet the registry. -/
  | leaving (id : Id)
  /-- Its job panicked. -/
  | gone
  deriving DecidableEq

/-- Whether a worker runs an operation. -/
def Worker.runs (id : Id) : Worker → ℕ
  | .running id' => if id' = id then 1 else 0
  | _ => 0

/-- Whether a worker has left the running set with an operation, and not the registry. -/
def Worker.leaves (id : Id) : Worker → ℕ
  | .leaving id' => if id' = id then 1 else 0
  | _ => 0

lemma Worker.runs_running (op id : Id) : (Worker.running op).runs id = if op = id then 1 else 0 := rfl

lemma Worker.leaves_running (op id : Id) : (Worker.running op).leaves id = 0 := rfl

lemma Worker.leaves_leaving (op id : Id) :
    (Worker.leaving op).leaves id = if op = id then 1 else 0 := rfl

/-- Whether an operation is registered and waits for the queue. -/
def Gate.holds (id : Id) : Gate → ℕ
  | .inserted op _ => if op.id = id then 1 else 0
  | .refused op => if op.id = id then 1 else 0
  | _ => 0

lemma Gate.holds_inserted (op : Operation) (remaining : ℕ) (id : Id) :
    (Gate.inserted op remaining).holds id = if op.id = id then 1 else 0 := rfl

lemma Gate.holds_refused (op : Operation) (id : Id) :
    (Gate.refused op).holds id = if op.id = id then 1 else 0 := rfl

/-- What does not change. -/
structure Config where
  /-- The last instant. -/
  instantMax : ℕ
  /-- The room of the queue. -/
  capacity : ℕ
  /-- The instance. -/
  inst : Id

/-- The queue, the registry and the workers. -/
structure Scheduler (ω : Type) where
  /-- The queue and the running set. -/
  jobs : JobQueueState := {}
  /-- The operations that are registered. -/
  registry : Finset Id := ∅
  /-- The lock of the registry. -/
  gate : Gate := .free
  /-- The workers. -/
  workers : ω → Worker := fun _ => .idle
  /-- The clock. -/
  now : ℕ := 0

/-- What happens next. -/
inductive Event (ω : Type)
  /-- Time passes. -/
  | tick (later : ℕ)
  /-- Somebody submits an operation and takes the lock. -/
  | lock (op : Operation)
  /-- It is registered already. -/
  | present
  /-- What is needed to register it cannot be read. -/
  | fail
  /-- It is registered, with some lifetime left. -/
  | insert (remaining : ℕ)
  /-- It is queued, or refused. -/
  | push
  /-- What was refused is taken out of the registry. -/
  | remove
  /-- A worker takes a job. -/
  | pop (w : ω)
  /-- A job ends. -/
  | finish (w : ω)
  /-- A job panics. -/
  | panic (w : ω)
  /-- A worker takes its operation out of the registry. -/
  | leave (w : ω)
  /-- A job is moved to a higher class. -/
  | promote (id : Id) (cls : JobClass)

namespace Scheduler

variable {ω : Type} [DecidableEq ω]

/-- The jobs that run, without those of an operation. -/
def dropRunning (jobs : JobQueueState) (id : Id) : JobQueueState :=
  { jobs with running := jobs.running.filter fun running => decide (running.1 ≠ id) }

/-- One step. -/
def step (c : Config) (s : Scheduler ω) : Event ω → Option (Scheduler ω)
  | .tick later => if s.now ≤ later then some { s with now := later } else none
  | .lock op =>
    match s.gate, enqueueable c.inst op with
    | .free, .ok true => some { s with gate := .locked op }
    | _, _ => none
  | .present =>
    match s.gate with
    | .locked op => if op.id ∈ s.registry then some { s with gate := .free } else none
    | _ => none
  | .fail =>
    match s.gate with
    | .locked _ => some { s with gate := .free }
    | _ => none
  | .insert remaining =>
    match s.gate with
    | .locked op =>
      if op.id ∈ s.registry then none
      else some { s with registry := insert op.id s.registry, gate := .inserted op remaining }
    | _ => none
  | .push =>
    match s.gate with
    | .inserted op remaining =>
      match s.jobs.push c.instantMax op.id (.of op c.inst) s.now c.capacity remaining with
      | some jobs => some { s with jobs := jobs, gate := .free }
      | none => some { s with gate := .refused op }
    | _ => none
  | .remove =>
    match s.gate with
    | .refused op => some { s with registry := s.registry.erase op.id, gate := .free }
    | _ => none
  | .pop w =>
    match s.workers w, s.jobs.pop with
    | .idle, some ((id, cls), jobs) =>
      some { s with
        jobs := { jobs with running := jobs.running ++ [(id, cls, s.now)] }
        workers := Function.update s.workers w (.running id) }
    | _, _ => none
  | .finish w =>
    match s.workers w with
    | .running id =>
      some { s with
        jobs := dropRunning s.jobs id
        workers := Function.update s.workers w (.leaving id) }
    | _ => none
  | .panic w =>
    match s.workers w with
    | .running id =>
      some { s with
        jobs := dropRunning s.jobs id
        workers := Function.update s.workers w .gone }
    | _ => none
  | .leave w =>
    match s.workers w, s.gate with
    | .leaving id, .free =>
      some { s with
        registry := s.registry.erase id
        workers := Function.update s.workers w .idle }
    | _, _ => none
  | .promote id cls =>
    (s.jobs.promote c.instantMax id cls).map fun jobs => { s with jobs := jobs }

/-! ## Where an operation is -/

section Counts

variable {jobs jobs' : JobQueueState} {c : Config}

/-- How often an operation is queued. -/
def queuedCount (jobs : JobQueueState) (id : Id) : ℕ := (jobs.waiting.map (·.id)).count id

/-- How often an operation is in the running set. -/
def runningCount (jobs : JobQueueState) (id : Id) : ℕ := (jobs.running.map (·.1)).count id

/-- A job that is queued. -/
lemma counts_push {op : Id} {cls : JobClass} {start capacity remaining : ℕ}
    (h : jobs.push c.instantMax op cls start capacity remaining = some jobs') (id : Id) :
    queuedCount jobs' id = queuedCount jobs id + (if op = id then 1 else 0) ∧
      runningCount jobs' id = runningCount jobs id := by
  refine ⟨?_, ?_⟩
  · rw [queuedCount, JobQueueState.waiting_push h, Multiset.map_cons, Multiset.count_cons]
    simp only [eq_comm, queuedCount]
  · rw [JobQueueState.push] at h
    split_ifs at h
    cases h
    rfl

/-- A job that is taken. -/
lemma counts_pop {op : Id} {cls : JobClass} (h : jobs.pop = some ((op, cls), jobs')) (id : Id) :
    queuedCount jobs id = queuedCount jobs' id + (if op = id then 1 else 0) ∧
      jobs'.running = jobs.running := by
  rw [JobQueueState.pop, map_eq_some_iff] at h
  obtain ⟨⟨job, cls', s'⟩, htake, heq⟩ := h
  simp only [Prod.mk.injEq] at heq
  obtain ⟨⟨rfl, rfl⟩, rfl⟩ := heq
  refine ⟨?_, ?_⟩
  · rw [queuedCount, JobQueueState.waiting_takeFirst htake, Multiset.map_cons, Multiset.count_cons]
    simp only [eq_comm, queuedCount]
  · obtain ⟨position, -, rfl, -⟩ := JobQueueState.takeFirst_eq_some htake
    rfl

/-- A job that is promoted. -/
lemma counts_promote {op : Id} {cls : JobClass}
    (h : jobs.promote c.instantMax op cls = some jobs') (id : Id) :
    queuedCount jobs' id = queuedCount jobs id ∧ runningCount jobs' id = runningCount jobs id := by
  obtain ⟨lower, position, job, hmoves⟩ := JobQueueState.promote_eq_some h
  refine ⟨?_, ?_⟩
  · obtain ⟨rest, hbefore, hafter⟩ := JobQueueState.waiting_promotes hmoves
    rw [queuedCount, queuedCount, hbefore, hafter, Multiset.map_cons, Multiset.map_cons]
  · rw [hmoves.moved]
    rfl

/-- What leaves the running set. -/
lemma counts_dropRunning (jobs : JobQueueState) (op id : Id) :
    queuedCount (dropRunning jobs op) id = queuedCount jobs id ∧
      runningCount (dropRunning jobs op) id = if op = id then 0 else runningCount jobs id := by
  refine ⟨rfl, ?_⟩
  rw [runningCount, runningCount, dropRunning]
  have hmap : (jobs.running.filter fun running => decide (running.1 ≠ op)).map (·.1) =
      (jobs.running.map (·.1)).filter fun id => decide (id ≠ op) := by
    rw [List.filter_map]
    rfl
  rw [hmap]
  split_ifs with heq
  · subst heq
    refine List.count_eq_zero.mpr fun hmem => ?_
    exact of_decide_eq_true (List.mem_filter.mp hmem).2 rfl
  · exact List.count_filter (decide_eq_true (Ne.symm heq))

end Counts

variable [Fintype ω]

/-- How many times an operation is somewhere: queued, running, about to leave, or about to be
queued. -/
def occupancy (s : Scheduler ω) (id : Id) : ℕ :=
  queuedCount s.jobs id + runningCount s.jobs id + (∑ w, (s.workers w).leaves id) +
    s.gate.holds id

/-- An operation is somewhere at most once, and nowhere if it is not registered; workers run what is
in the running set. -/
structure Exclusive (s : Scheduler ω) : Prop where
  /-- An operation is somewhere at most once. -/
  once : ∀ id, s.occupancy id ≤ if id ∈ s.registry then 1 else 0
  /-- No more workers run an operation than the running set says. -/
  runs : ∀ id, (∑ w, (s.workers w).runs id) ≤ runningCount s.jobs id

variable {s s' : Scheduler ω}

/-- One worker changes. -/
lemma sum_update (f : Worker → ℕ) (workers : ω → Worker) (w : ω) (worker : Worker) :
    (∑ x, f (Function.update workers w worker x)) + f (workers w) =
      (∑ x, f (workers x)) + f worker := by
  have hold := add_sum_erase univ (fun x => f (workers x)) (mem_univ w)
  have hnew := add_sum_erase univ
    (fun x => f (update workers w worker x)) (mem_univ w)
  have hrest : ∑ x ∈ univ.erase w, f (update workers w worker x) =
      ∑ x ∈ univ.erase w, f (workers x) :=
    sum_congr rfl fun x hx => by rw [update_of_ne (ne_of_mem_erase hx)]
  rw [hrest, update_self] at hnew
  omega

variable {c : Config} {w : ω} {op : Id} {jobs : JobQueueState}

omit [DecidableEq ω] in
/-- The submission that holds the lock goes on. -/
lemma Exclusive.gate (h : s.Exclusive) {gate : Gate} {registry : Finset Id}
    (hrunning : ∀ id, runningCount jobs id = runningCount s.jobs id)
    (honce : ∀ id, (s.occupancy id ≤ if id ∈ s.registry then 1 else 0) →
      queuedCount jobs id + gate.holds id + (if id ∈ s.registry then 1 else 0) ≤
        queuedCount s.jobs id + s.gate.holds id + if id ∈ registry then 1 else 0) :
    ({ s with jobs := jobs, registry := registry, gate := gate } : Scheduler ω).Exclusive := by
  refine ⟨fun id => ?_, fun id => ?_⟩
  · have hold := h.once id
    have hnew := honce id hold
    rw [occupancy] at hold ⊢
    dsimp only
    rw [hrunning]
    omega
  · dsimp only
    rw [hrunning]
    exact h.runs id

/-- A worker that runs an operation leaves the running set. -/
lemma Exclusive.drop (h : s.Exclusive) (hw : s.workers w = .running op) {worker : Worker}
    (hruns : ∀ id, worker.runs id = 0)
    (hleaves : ∀ id, worker.leaves id ≤ if op = id then 1 else 0) :
    ({ s with
      jobs := dropRunning s.jobs op
      workers := update s.workers w worker } : Scheduler ω).Exclusive := by
  have hcounts := counts_dropRunning s.jobs op
  refine ⟨fun id => ?_, fun id => ?_⟩
  · have hold := h.once id
    have hrun := h.runs id
    have hsum := sum_update (Worker.leaves id) s.workers w worker
    have hmine : (s.workers w).runs id ≤ ∑ x, (s.workers x).runs id :=
      single_le_sum (f := fun x => (s.workers x).runs id) (fun _ _ => Nat.zero_le _)
        (mem_univ w)
    have hle := hleaves id
    rw [hw, Worker.leaves_running] at hsum
    rw [hw, Worker.runs_running] at hmine
    rw [occupancy] at hold ⊢
    dsimp only
    rw [(hcounts id).1, (hcounts id).2]
    split_ifs at hle hmine hold ⊢ <;> omega
  · have hold := h.once id
    have hrun := h.runs id
    have hsum := sum_update (Worker.runs id) s.workers w worker
    rw [hw, hruns, Worker.runs_running] at hsum
    rw [occupancy] at hold
    dsimp only
    rw [(hcounts id).2]
    split_ifs at hsum hold ⊢ <;> omega

/-- A worker takes a job and runs it. -/
lemma Exclusive.pop (h : s.Exclusive) (hw : s.workers w = .idle) {cls : JobClass}
    (hpop : s.jobs.pop = some ((op, cls), jobs)) :
    ({ s with
      jobs := { jobs with running := jobs.running ++ [(op, cls, s.now)] }
      workers := update s.workers w (.running op) } : Scheduler ω).Exclusive := by
  have hidle : ∀ id, (Worker.idle).leaves id = 0 ∧ (Worker.idle).runs id = 0 := fun _ => ⟨rfl, rfl⟩
  have hrunning : ∀ id, runningCount
      { jobs with running := jobs.running ++ [(op, cls, s.now)] } id =
        runningCount s.jobs id + if op = id then 1 else 0 := by
    intro id
    rw [runningCount, runningCount, (counts_pop hpop id).2, List.map_append, List.count_append,
      List.map_singleton, List.count_singleton]
    simp only [beq_iff_eq]
  refine ⟨fun id => ?_, fun id => ?_⟩
  · have hold := h.once id
    have hsum := sum_update (Worker.leaves id) s.workers w (.running op)
    have hqueued := (counts_pop hpop id).1
    rw [hw, (hidle id).1, Worker.leaves_running] at hsum
    rw [occupancy] at hold ⊢
    dsimp only
    rw [hrunning]
    have hsame : queuedCount { jobs with running := jobs.running ++ [(op, cls, s.now)] } id =
        queuedCount jobs id := rfl
    omega
  · have hrun := h.runs id
    have hsum := sum_update (Worker.runs id) s.workers w (.running op)
    rw [hw, (hidle id).2, Worker.runs_running] at hsum
    dsimp only
    rw [hrunning]
    omega

/-- A worker takes its operation out of the registry. -/
lemma Exclusive.leave (h : s.Exclusive) (hw : s.workers w = .leaving op) :
    ({ s with
      registry := s.registry.erase op
      workers := update s.workers w .idle } : Scheduler ω).Exclusive := by
  have hidle : ∀ id, (Worker.idle).leaves id = 0 ∧ (Worker.idle).runs id = 0 := fun _ => ⟨rfl, rfl⟩
  refine ⟨fun id => ?_, fun id => ?_⟩
  · have hold := h.once id
    have hsum := sum_update (Worker.leaves id) s.workers w .idle
    rw [hw, (hidle id).1, Worker.leaves_leaving] at hsum
    rw [occupancy] at hold ⊢
    dsimp only
    by_cases heq : op = id
    · subst heq
      rw [if_pos rfl] at hsum
      rw [if_neg (notMem_erase _ _)]
      split_ifs at hold <;> omega
    · have hmem : id ∈ s.registry.erase op ↔ id ∈ s.registry := by
        rw [mem_erase]
        exact and_iff_right (Ne.symm heq)
      rw [if_neg heq] at hsum
      simp only [hmem]
      omega
  · have hrun := h.runs id
    have hsum := sum_update (Worker.runs id) s.workers w .idle
    have hleaving : (Worker.leaving op).runs id = 0 := rfl
    rw [hw, (hidle id).2, hleaving] at hsum
    dsimp only
    omega

/-- **One step** preserves that an operation is somewhere at most once. -/
lemma exclusive_step {event : Event ω} (h : s.Exclusive) (hstep : s.step c event = some s') :
    s'.Exclusive := by
  cases event with
  | tick later =>
    rw [step] at hstep
    split_ifs at hstep
    cases hstep
    exact ⟨h.once, h.runs⟩
  | lock op =>
    rw [step] at hstep
    split at hstep
    · rename_i hgate hwork
      cases hstep
      refine h.gate (fun _ => rfl) fun id _ => ?_
      rw [hgate]
      exact le_rfl
    · cases hstep
  | present =>
    rw [step] at hstep
    split at hstep
    · rename_i op hgate
      split_ifs at hstep
      cases hstep
      refine h.gate (fun _ => rfl) fun id _ => ?_
      rw [hgate]
      exact le_rfl
    · cases hstep
  | fail =>
    rw [step] at hstep
    split at hstep
    · rename_i op hgate
      cases hstep
      refine h.gate (fun _ => rfl) fun id _ => ?_
      rw [hgate]
      exact le_rfl
    · cases hstep
  | insert remaining =>
    rw [step] at hstep
    split at hstep
    · rename_i op hgate
      split_ifs at hstep with hnew
      cases hstep
      refine h.gate (fun _ => rfl) fun id _ => ?_
      have hfree : (Gate.locked op).holds id = 0 := rfl
      rw [hgate, Gate.holds_inserted, hfree]
      by_cases heq : op.id = id
      · subst heq
        rw [if_pos rfl, if_neg hnew, if_pos (mem_insert_self _ _)]
      · have hmem : id ∈ insert op.id s.registry ↔ id ∈ s.registry := by
          rw [mem_insert]
          exact or_iff_right (Ne.symm heq)
        simp only [hmem, if_neg heq]
        exact le_rfl
    · cases hstep
  | push =>
    rw [step] at hstep
    split at hstep
    · rename_i op remaining hgate
      split at hstep
      · rename_i jobs hpush
        cases hstep
        have hcounts := counts_push hpush
        refine h.gate (fun id => (hcounts id).2) fun id _ => ?_
        rw [hgate, (hcounts id).1, Gate.holds_inserted]
        exact le_rfl
      · cases hstep
        refine h.gate (fun _ => rfl) fun id _ => ?_
        rw [hgate]
        exact le_rfl
    · cases hstep
  | remove =>
    rw [step] at hstep
    split at hstep
    · rename_i op hgate
      cases hstep
      refine h.gate (fun _ => rfl) fun id hold => ?_
      rw [occupancy, hgate, Gate.holds_refused] at hold
      have hfree : Gate.free.holds id = 0 := rfl
      rw [hgate, Gate.holds_refused, hfree]
      by_cases heq : op.id = id
      · subst heq
        rw [if_pos rfl, if_neg (notMem_erase _ _)]
        split_ifs <;> omega
      · have hmem : id ∈ s.registry.erase op.id ↔ id ∈ s.registry := by
          rw [mem_erase]
          exact and_iff_right (Ne.symm heq)
        simp only [hmem, if_neg heq]
        exact le_rfl
    · cases hstep
  | pop w =>
    rw [step] at hstep
    split at hstep
    · rename_i op cls jobs hw hpop
      cases hstep
      exact h.pop hw hpop
    · cases hstep
  | finish w =>
    rw [step] at hstep
    split at hstep
    · rename_i op hw
      cases hstep
      exact h.drop hw (fun _ => rfl) fun id => (Worker.leaves_leaving op id).le
    · cases hstep
  | panic w =>
    rw [step] at hstep
    split at hstep
    · rename_i op hw
      cases hstep
      exact h.drop hw (fun _ => rfl) fun id => Nat.zero_le _
    · cases hstep
  | leave w =>
    rw [step] at hstep
    split at hstep
    · rename_i op hw hgate
      cases hstep
      exact h.leave hw
    · cases hstep
  | promote id cls =>
    rw [step, map_eq_some_iff] at hstep
    obtain ⟨jobs, hpromote, rfl⟩ := hstep
    have hcounts := counts_promote hpromote
    refine h.gate (fun id => (hcounts id).2) fun id _ => ?_
    rw [(hcounts id).1]

/-- In every run an operation is queued or running once at most, and one worker at most runs it. -/
lemma exclusive_run (h : Run.Reaches (step c) (fun _ _ => True) ({} : Scheduler ω) s) (id : Id) :
    queuedCount s.jobs id + runningCount s.jobs id ≤ 1 ∧
      ∀ w w', s.workers w = .running id → s.workers w' = .running id → w = w' := by
  have hstart : ({} : Scheduler ω).Exclusive := by
    refine ⟨fun id => ?_, fun id => ?_⟩
    · have hnone : ∑ w, (({} : Scheduler ω).workers w).leaves id = 0 :=
        sum_eq_zero fun _ _ => rfl
      have hfree : (({} : Scheduler ω).gate).holds id = 0 := rfl
      have hempty : queuedCount ({} : Scheduler ω).jobs id = 0 := rfl
      have hrunning : runningCount ({} : Scheduler ω).jobs id = 0 := rfl
      rw [occupancy, hnone, hfree, hempty, hrunning]
      exact Nat.zero_le _
    · exact (sum_eq_zero fun _ _ => rfl).le
  have hinv : s.Exclusive := h.invariant (fun _ _ _ h _ hstep => exclusive_step h hstep) hstart
  have honce := hinv.once id
  have hruns := hinv.runs id
  rw [occupancy] at honce
  have hle : (if id ∈ s.registry then 1 else 0) ≤ 1 := by split_ifs <;> omega
  refine ⟨by omega, fun w w' hw hw' => ?_⟩
  by_contra hne
  have htwo : (s.workers w).runs id + (s.workers w').runs id ≤ ∑ x, (s.workers x).runs id := by
    have hpair := sum_pair (f := fun x => (s.workers x).runs id) hne
    rw [← hpair]
    exact sum_le_sum_of_subset (subset_univ _)
  rw [hw, hw', Worker.runs_running, if_pos rfl] at htwo
  omega

end Scheduler

/-- What holds of the queues after any pushes, promotions and pops. -/
structure QueueSound (instantMax capacity : ℕ) (l : Ledger) : Prop where
  /-- What waits is what was accepted and not taken, with its queue time; there is no more than there
  is room for, and every class is in the order of the queue times. -/
  sound : ∃ now, l.Sound capacity now
  /-- What is taken comes before all that waits. -/
  takes : ∀ job cls s, l.state.takeFirst = some (job, cls, s) →
    l.state.pop = some ((job.id, cls), s) ∧ Ledger.TakesFirst l.state job cls s
  /-- Nothing is taken only if nothing waits. -/
  empty : l.state.pop = none → l.state.waiting = 0
  /-- A promotion moves a job of the operation to the class, with its queue time, and nothing is
  ahead of it that was not before. -/
  promotes : ∀ id cls s, l.state.promote instantMax id cls = some s →
    ∃ lower position job, JobQueueState.Promotes instantMax l.state id cls s lower position job ∧
      ∃ position' job', (s.queued cls)[position']? = some job' ∧ job'.id = id ∧
        job'.queuedAt = job.queuedAt ∧
        s.ahead cls position' job'.due ≤ l.state.ahead lower position job.due

/-- **The job queue.** After any pushes with clock readings that do not go back, promotions and
pops, the queues are sound. And in every interleaving of submissions with the workers, with any
number of workers, no operation is queued or running twice. -/
theorem job_queue_sound (instantMax capacity : ℕ) :
    (∀ actions : List Action, Ledger.Monotone actions →
      QueueSound instantMax capacity (actions.foldl (Ledger.act instantMax capacity) {})) ∧
    ∀ (ω : Type) [DecidableEq ω] [Fintype ω] (inst : Id) (s : Scheduler ω),
      Run.Reaches (Scheduler.step ⟨instantMax, capacity, inst⟩) (fun _ _ => True) {} s →
        ∀ id, Scheduler.queuedCount s.jobs id + Scheduler.runningCount s.jobs id ≤ 1 ∧
          ∀ w w', s.workers w = .running id → s.workers w' = .running id → w = w' := by
  refine ⟨fun actions hmono => ?_, fun ω _ _ inst s hs id => Scheduler.exclusive_run hs id⟩
  obtain ⟨now, hsound⟩ := (Ledger.sound_empty capacity).run actions hmono fun _ _ => Nat.zero_le _
  refine ⟨⟨now, hsound⟩, fun job cls s htake => ⟨?_, hsound.takesFirst htake⟩, fun hpop => ?_,
    fun id cls s hpromote => ?_⟩
  · rw [JobQueueState.pop, htake]
    rfl
  · rw [JobQueueState.pop, map_eq_none_iff] at hpop
    refine Multiset.eq_zero_of_forall_notMem fun job hjob => ?_
    obtain ⟨cls, hmem⟩ := JobQueueState.mem_waiting.mp hjob
    rw [JobQueueState.takeFirst_eq_none hpop cls] at hmem
    cases hmem
  · obtain ⟨lower, position, job, hmoves⟩ := JobQueueState.promote_eq_some hpromote
    exact ⟨lower, position, job, hmoves, JobQueueState.ahead_promote hmoves (hsound.inOrder cls)⟩

/-- A verification that is queued first, an operation of a client, and a promotion. -/
def promoted : List Action :=
  [.push 1 .background 0 (JobClass.secs 4000), .push 2 .foreground (JobClass.secs 1) 0,
    .promote 1 .foreground]

/-- The verification is taken first, though it would not have been due for ten minutes. -/
theorem job_queue_sound_promoted :
    QueueSound (JobClass.secs 10000) 4
        (promoted.foldl (Ledger.act (JobClass.secs 10000) 4) {}) ∧
      (promoted.foldl (Ledger.act (JobClass.secs 10000) 4) {}).state.pop.map Prod.fst =
        some (1, .foreground) :=
  ⟨(job_queue_sound (JobClass.secs 10000) 4).1 promoted (by unfold Ledger.Monotone; decide),
    by decide +kernel⟩

end Tgrep.Jobs
