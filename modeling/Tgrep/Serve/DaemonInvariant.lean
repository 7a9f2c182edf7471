import Tgrep.Serve.DaemonEffects

/-!
# The invariant of the daemon

Every counter counts guards, every receipt that is held is let go by someone, and every guard stands
behind what is done under it. While the gate is closed, requests and ticks only end, so the handler
of a request to stop may rely on a counter that it has read as zero.

## Main definitions

* `Daemon.Known`: what the handler of a request to stop knows.
* `Daemon.Final`: the daemon when a stop is committed.
* `Daemon.Inv`: the invariant of the daemon.

## Main results

* `Daemon.Effect.counters`, `Daemon.Effect.queued`, `Daemon.Effect.receipts`: the counters and
  their guards.
* `Daemon.Effect.covered`, `Daemon.Effect.passive`: the shape of the threads.
* `Daemon.Progress.known`, `Daemon.Effect.under`: what the handler knows.
-/

namespace Tgrep

open List Option

namespace Daemon

open Threads Managed Managed.IdleStop

/-! ## The invariant -/

/-- How much a task weighs when tasks of one kind are counted. -/
def weight (b a : Task) : ℕ := if a = b then 1 else 0

/-- How many tasks of a kind there are. -/
def count (b : Task) (threads : List (List Task)) : ℕ := total (weight b) threads

/-- The task that drops the guard under which a task is done. -/
def closer : Task → Option Task
  | .serve | .respond | .closeGate | .stop => some .endRequest
  | .tick => some .endTick
  | .job id | .endRunning id => some (.dropQueued id)
  | _ => none

/-- The task may stand behind another one. -/
def Task.passive : Task → Bool
  | .respond | .endRequest | .endQuery | .endTick | .worker | .scheduler => true
  | .dropReceipt _ | .endRunning _ | .dropQueued _ => true
  | _ => false

/-- The task may be left when a stop is committed. -/
def Task.final : Task → Bool
  | .serve | .closeGate | .tick | .endTick => false
  | .job _ | .endRunning _ | .dropQueued _ => false
  | _ => true

/-- The counters that an attempt was told are those of now, as far as they were zero. -/
structure Calm (s : Shared) (external : ExternalWork) : Prop where
  requests : external.requests = 0 → s.requests ≤ 1
  background : external.backgroundBatches = 0 → s.backgroundBatches = 0

/-- A result that says that the daemon stops is true. -/
def Honest (s : Shared) : StopResult → Prop
  | .ok o => o.stopping = true → o.process = s.core.process → s.core.stopping = true
  | .err => True

/-- What the handler of a request to stop has found out. -/
def Knows (s : Shared) : Stage → Prop
  | .readBackground _ _ requests => requests = 0 → s.requests ≤ 1
  | .accept external | .hold external _ | .read external _ | .lock external _ => Calm s external
  | .attempt id => ∃ a, s.core.attempt = some a ∧ a.operation = some id ∧ Calm s a.external
  | .drop _ result | .conclude result => Honest s result
  | .setStopping | .release .stopping => s.core.stopping = true
  | _ => True

/-- What is known while the gate is held. -/
structure Known (s : Shared) (stage : Stage) : Prop where
  closed : stage ≠ .release .opened → s.gate = false
  opened : stage = .release .opened → s.gate = true
  knows : Knows s stage

/-- The attempt has committed that the instance stops. -/
def PhaseFinal : Phase → Prop
  | .committed _ o | .ended (.answered o) => o.stopping = true
  | .failed | .ended .stopCommitted | .ended .unreadable => True
  | _ => False

/-- A result that the handler may have when a stop is committed. -/
def ResultFinal (s : Shared) : StopResult → Prop
  | .ok o => o.stopping = true ∧ o.process = s.core.process
  | .err => True

/-- How far the handler may be when a stop is committed. -/
def StageFinal (s : Shared) : Stage → Prop
  | .attempt _ => ∃ a, s.core.attempt = some a ∧ PhaseFinal a.phase
  | .drop _ result | .conclude result => ResultFinal s result
  | .fail _ | .setStopping | .release .stopping | .release .unreadable => True
  | _ => False

/-- **The daemon when a stop is committed**: nothing is left to do, and nothing begins. -/
structure Final (c : State) : Prop where
  stopped : c.shared.core.Stopped
  gate : c.shared.gate = false
  queued : c.shared.queued = []
  jobs : c.shared.jobs = []
  requests : c.shared.requests ≤ 1
  tasks : ∀ thread ∈ c.threads, ∀ a ∈ thread, a.final = true
  stage : ∀ stage, c.shared.stage = some stage → StageFinal c.shared stage

/-- **The invariant of the daemon.** -/
structure Inv (c : State) : Prop where
  core : c.shared.core.Inv
  requests : c.shared.requests = count .endRequest c.threads
  background : c.shared.backgroundBatches = count .endTick c.threads
  /-- Each receipt that is held is let go by someone. -/
  receipts : ∀ id, held c.shared.core id =
    c.shared.queued.count id + count (.dropReceipt id) c.threads + stageReceipt c.shared.stage id
  /-- An operation in the registry waits, or a worker has it. -/
  queued : ∀ id, c.shared.queued.count id =
    c.shared.jobs.count id + count (.dropQueued id) c.threads
  handler : count .stop c.threads = if c.shared.stage.isSome then 1 else 0
  covered : ∀ thread ∈ c.threads, Covered closer thread
  passive : ∀ thread ∈ c.threads, ∀ a ∈ thread.tail, a.passive = true
  known : ∀ stage, c.shared.stage = some stage → Known c.shared stage
  attempt : ∀ a, c.shared.core.attempt = some a → ∃ id, c.shared.stage = some (.attempt id)
  final : c.shared.core.stopping = true → Final c

/-! ## Counting -/

variable {tid : ℕ} {stage' : Stage} {rest : List Task} {threads : List (List Task)} {s' : Shared}
  {a : Task} {stage : Stage} {s : Shared} {out : Outcome Shared Task Note}

/-- A task that is there is counted. -/
lemma weight_le_count {b : Task} (h : threads[tid]? = some (a :: rest)) :
    weight b a ≤ count b threads := by
  have hle := weight_le_total (w := weight b) (List.mem_iff_getElem?.mpr ⟨tid, h⟩)
  rw [map_cons, sum_cons] at hle
  exact Nat.le_trans (Nat.le_add_right _ _) hle

/-- The handler changes no counter and no queue. -/
structure Frame (s s' : Shared) : Prop where
  requests : s'.requests = s.requests
  background : s'.backgroundBatches = s.backgroundBatches
  queued : s'.queued = s.queued
  jobs : s'.jobs = s.jobs

/-- The handler changes no counter and no queue. -/
lemma Progress.frame (h : Progress s stage s') : Frame s s' := by
  cases h <;> exact ⟨rfl, rfl, rfl, rfl⟩

/-- The counters of requests and ticks follow their guards. -/
lemma Effect.counters (h : Effect s a out) (hrequest : weight .endRequest a ≤ s.requests)
    (htick : weight .endTick a ≤ s.backgroundBatches) :
    (out.shared.requests + weight .endRequest a =
      s.requests + (out.next.map (weight .endRequest)).sum +
        total (weight .endRequest) out.spawned) ∧
    out.shared.backgroundBatches + weight .endTick a =
      s.backgroundBatches + (out.next.map (weight .endTick)).sum +
        total (weight .endTick) out.spawned := by
  cases h with
  | stop hstage hadvance =>
    have hframe := (progress_of_advance hadvance).frame
    dsimp only
    rw [hframe.requests, hframe.background]
    split_ifs <;> simp [weight]
  | endRequest =>
    simp only [weight, ↓reduceIte] at hrequest
    simp [weight]
    omega
  | endTick =>
    simp only [weight, ↓reduceIte] at htick
    simp [weight]
    omega
  | finish ha => cases a <;> simp_all [weight, Task.works]
  | leave ha => rcases ha with rfl | rfl <;> simp [weight]
  | _ => simp [weight]

/-- The registry follows the queue and the workers. -/
lemma Effect.queued {id : Id} (h : Effect s a out)
    (hpos : weight (.dropQueued id) a ≤ s.queued.count id) :
    out.shared.queued.count id + s.jobs.count id + weight (.dropQueued id) a =
      s.queued.count id + out.shared.jobs.count id +
        (out.next.map (weight (.dropQueued id))).sum +
          total (weight (.dropQueued id)) out.spawned := by
  cases h with
  | stop hstage hadvance =>
    have hframe := (progress_of_advance hadvance).frame
    dsimp only
    rw [hframe.queued, hframe.jobs]
    split_ifs <;> simp [weight]
  | @start id' hid' =>
    have hcount : (s.jobs.erase id').count id = s.jobs.count id - if id' == id then 1 else 0 :=
      count_erase
    have hpos' : 0 < s.jobs.count id' := List.count_pos_iff.mpr hid'
    by_cases heq : id' = id
    · subst heq
      simp only [beq_self_eq_true, ↓reduceIte] at hcount
      simp [weight, hcount]
      omega
    · have hne : (id' == id) = false := beq_false_of_ne heq
      simp [weight, hcount, hne, heq]
  | @dropQueued id' core hcore =>
    have hcount : (s.queued.erase id').count id = s.queued.count id - if id' == id then 1 else 0 :=
      count_erase
    by_cases heq : id' = id
    · subst heq
      simp only [weight, ↓reduceIte] at hpos
      simp only [beq_self_eq_true, ↓reduceIte] at hcount
      simp [weight, hcount]
      omega
    · have hne : (id' == id) = false := beq_false_of_ne heq
      simp [weight, hcount, hne, heq]
  | enqueue ha hid hcore =>
    simp [weight, count_append, count_cons]
    omega
  | finish ha => cases a <;> simp_all [weight, Task.works]
  | leave ha => rcases ha with rfl | rfl <;> simp [weight]
  | _ => simp [weight]

/-- The receipt that the handler of a request to stop holds is that of its stage. -/
lemma stageReceipt_goTo (s : Shared) (stage : Stage) (id : Id) :
    stageReceipt (s.goTo stage).stage id = if stage.receipt = some id then 1 else 0 := rfl

/-- Going on leaves the receipts with their stage. -/
lemma Follows.receipt (h : Follows s stage stage') : stage'.receipt = stage.receipt := by
  cases h <;> rfl

/-- The handler lets go the receipt that it took. -/
lemma Progress.receipts (h : Progress s stage s') (hstage : s.stage = some stage)
    (hpos : ∀ id, stageReceipt s.stage id ≤ held s.core id) (id : Id) :
    held s'.core id + stageReceipt s.stage id = held s.core id + stageReceipt s'.stage id := by
  have hreceipt : ∀ id, stageReceipt s.stage id = if stage.receipt = some id then 1 else 0 :=
    fun id => by
    rw [stageReceipt, hstage, bind_some]
  have hsame : ∀ {core : IdleStop.State}, core.readers = s.core.readers →
      held core id = held s.core id := fun hcore => by rw [held, held, hcore]
  rw [hreceipt]
  cases h with
  | goTo hfollows => rw [stageReceipt_goTo, hfollows.receipt]; rfl
  | drain hw hcore => exact congrArg (· + _) (hsame (readers_of_work hw hcore))
  | accept hcore => exact congrArg (· + _) (hsame (readers_of_work rfl hcore))
  | @hold external id' core hcore =>
    rw [stageReceipt_goTo]
    have hheld := held_of_hold hcore id
    simp only [Stage.receipt, some.injEq, reduceCtorEq, ↓reduceIte, add_zero]
    exact hheld
  | begin hcore =>
    exact congrArg (· + _) (hsame (readers_of_step (fun w hw => by cases hw) hcore))
  | @attempt id' how a core ha hcore =>
    have hone : s.core.step (.advance how) = some core :=
      Option.bind_eq_some_iff.mpr ⟨a, ha, hcore⟩
    exact congrArg (· + _) (hsame (readers_of_step (fun w hw => by cases hw) hone))
  | @ended id' a e ha hphase =>
    rw [stageReceipt_goTo]
    cases e <;> rfl
  | fail hcore => exact congrArg (· + _) (hsame (readers_of_work rfl hcore))
  | @drop id' result core hcore =>
    have hpos' := hpos id'
    rw [hreceipt, Stage.receipt, if_pos rfl] at hpos'
    have hheld := held_of_drop hcore hpos' id
    rw [stageReceipt_goTo]
    simp only [Stage.receipt, some.injEq, reduceCtorEq, ↓reduceIte, add_zero]
    exact hheld
  | setStopping | openGate | release => rfl

/-- **The receipts that are held follow their guards.** -/
theorem Effect.receipts (h : Effect s a out)
    (hpos : ∀ id, weight (.dropReceipt id) a + weight (.dropQueued id) a + stageReceipt s.stage id ≤
      held s.core id) (hqueued : ∀ id, weight (.dropQueued id) a ≤ s.queued.count id) (id : Id) :
    held out.shared.core id + s.queued.count id + weight (.dropReceipt id) a +
        stageReceipt s.stage id =
      held s.core id + out.shared.queued.count id +
        (out.next.map (weight (.dropReceipt id))).sum + total (weight (.dropReceipt id)) out.spawned +
          stageReceipt out.shared.stage id := by
  cases h with
  | stop hat hadvance =>
    have hprogress := progress_of_advance hadvance
    have hreceipts := hprogress.receipts hat
      (fun id => Nat.le_trans (Nat.le_add_left _ _) (hpos id)) id
    dsimp only
    rw [hprogress.frame.queued]
    split_ifs <;> simp [weight] <;> omega
  | work ha hw hcore =>
    dsimp only
    rw [held, readers_of_work hw hcore, ← held]
    simp [weight]
  | @hold _ ha id' core hcore =>
    have hheld := held_of_hold hcore id
    dsimp only
    rw [hheld]
    simp [weight]
    omega
  | @holdElsewhere id' core hcore =>
    have hheld := held_of_hold hcore id
    dsimp only
    rw [hheld]
    simp [weight]
    omega
  | @enqueue _ ha id' core hid hcore =>
    have hheld := held_of_hold hcore id
    dsimp only
    rw [hheld]
    simp [weight, count_cons]
    omega
  | @dropReceipt id' core hcore =>
    have hle := hpos id'
    simp only [weight, ↓reduceIte] at hle
    have hheld := held_of_drop hcore (by omega) id
    simp [weight]
    omega
  | @dropQueued id' core hcore =>
    have hle := hpos id'
    have hle' := hqueued id'
    simp only [weight, ↓reduceIte] at hle hle'
    have hheld := held_of_drop hcore (by omega) id
    have hcount : (s.queued.erase id').count id = s.queued.count id - if id' == id then 1 else 0 :=
      count_erase
    dsimp only
    rw [hcount]
    by_cases heq : id' = id
    · subst heq
      simp [weight] at hheld ⊢
      omega
    · have hne : (id' == id) = false := beq_false_of_ne heq
      simp [weight, hne, heq] at hheld ⊢
      omega
  | closeGate hnone => simp [weight, stageReceipt, hnone, Stage.receipt]
  | finish ha => cases a <;> simp_all [weight, Task.works]
  | leave ha => rcases ha with rfl | rfl <;> simp [weight]
  | _ => simp [weight, stageReceipt]

/-! ## The shape of the threads -/

/-- What holds of each thread after a step. -/
lemma forall_replace {P : List Task → Prop} {thread : List Task} {spawned : List (List Task)}
    (h : ∀ t ∈ threads, P t) (hnew : P thread) (hspawned : ∀ t ∈ spawned, P t) :
    ∀ t ∈ threads.set tid thread ++ spawned, P t := by
  intro t ht
  rcases List.mem_append.mp ht with ht | ht
  · rcases mem_or_eq_of_mem_set ht with ht | rfl
    · exact h t ht
    · exact hnew
  · exact hspawned t ht

/-- Guards are dropped after what is done under them. -/
lemma Effect.covered (h : Effect s a out) (hrest : Covered closer (a :: rest)) :
    Covered closer (out.next ++ rest) ∧ ∀ t ∈ out.spawned, Covered closer t := by
  have hsame : ∀ {next : List Task}, (∀ b ∈ next, ∀ d, closer b = some d → closer a = some d) →
      Covered closer (next ++ rest) := hrest.replace
  cases h with
  | connect => exact ⟨hsame (by simp), by simp [closer]⟩
  | holdElsewhere => exact ⟨hsame (by simp), by simp [closer]⟩
  | hold | query => exact ⟨hsame (by simp [closer]), forall_mem_nil _⟩
  | stopRequest | closeGate => exact ⟨hsame (by simp [closer]), forall_mem_nil _⟩
  | stop =>
    refine ⟨hsame ?_, forall_mem_nil _⟩
    dsimp only
    split_ifs <;> simp
  | start =>
    refine ⟨Covered.append ?_ hrest.2, forall_mem_nil _⟩
    simp [closer]
  | tick =>
    refine ⟨Covered.append ?_ hrest.2, forall_mem_nil _⟩
    simp [closer]
  | _ => exact ⟨hsame (by simp), forall_mem_nil _⟩

/-- Behind the first task of a thread there is nothing but what ends it. -/
lemma Effect.passive (h : Effect s a out) (hrest : ∀ b ∈ rest, b.passive = true) :
    (∀ b ∈ (out.next ++ rest).tail, b.passive = true) ∧
      ∀ t ∈ out.spawned, ∀ b ∈ t.tail, b.passive = true := by
  have hnone : ∀ b ∈ rest.tail, b.passive = true := fun b hb => hrest b (mem_of_mem_tail hb)
  have hnext : ∀ {next : List Task}, (∀ b ∈ next.tail, b.passive = true) →
      ∀ b ∈ (next ++ rest).tail, b.passive = true := by
    intro next hnext b hb
    cases next with
    | nil => exact hnone b hb
    | cons first next =>
      rcases List.mem_append.mp hb with hb | hb
      · exact hnext b hb
      · exact hrest b hb
  cases h with
  | connect => exact ⟨hnext (by simp), by simp [Task.passive]⟩
  | holdElsewhere => exact ⟨hnext (by simp), by simp⟩
  | hold | query | start | tick => exact ⟨hnext (by simp [Task.passive]), forall_mem_nil _⟩
  | stop =>
    refine ⟨hnext ?_, forall_mem_nil _⟩
    dsimp only
    split_ifs <;> simp
  | _ => exact ⟨hnext (by simp), forall_mem_nil _⟩

/-- One handler at a time holds the gate. -/
lemma Effect.handler (h : Effect s a out) :
    (if s.stage.isSome then 1 else 0) + (out.next.map (weight .stop)).sum +
        total (weight .stop) out.spawned =
      (if out.shared.stage.isSome then 1 else 0) + weight .stop a := by
  cases h with
  | stop hstage hadvance =>
    simp only [hstage]
    split_ifs <;> simp_all [weight]
  | closeGate hnone => simp [weight, hnone]
  | finish ha => cases a <;> simp_all [weight, Task.works]
  | leave ha => rcases ha with rfl | rfl <;> simp [weight]
  | _ => simp [weight]

/-! ## What the handler knows -/

/-- While the gate is held, what the handler knows is not touched by others. -/
structure Under (s s' : Shared) : Prop where
  gate : s'.gate = s.gate
  stage : s'.stage = s.stage
  requests : s'.requests ≤ s.requests
  background : s'.backgroundBatches ≤ s.backgroundBatches
  attempt : s'.core.attempt = s.core.attempt
  stopping : s'.core.stopping = s.core.stopping
  process : s'.core.process = s.core.process

/-- Work at the namespace leaves it. -/
lemma Under.of_work {w : Work} {core : IdleStop.State} (h : s.core.work w = some core)
    (s' : Shared) (hcore : s'.core = core) (hgate : s'.gate = s.gate)
    (hstage : s'.stage = s.stage) (hrequests : s'.requests ≤ s.requests)
    (hbackground : s'.backgroundBatches ≤ s.backgroundBatches) : Under s s' := by
  have hframe := State.work_frame h
  refine ⟨hgate, hstage, hrequests, hbackground, ?_, ?_, ?_⟩ <;> rw [hcore]
  · exact hframe.attempt
  · exact hframe.stopping
  · exact hframe.process

/-- **While the gate is held, others do not touch what the handler knows.** -/
theorem Effect.under (h : Effect s a out) (ha : a ≠ .stop) (hstage : s.stage ≠ none) :
    Under s out.shared := by
  have hsame : Under s s := ⟨rfl, rfl, le_rfl, le_rfl, rfl, rfl, rfl⟩
  cases h with
  | connect hnone => exact absurd hnone hstage
  | tick hnone => exact absurd hnone hstage
  | closeGate hnone => exact absurd hnone hstage
  | stop => exact absurd rfl ha
  | work _ _ hcore | hold _ hcore | holdElsewhere hcore | enqueue _ _ hcore | dropReceipt hcore
  | dropQueued hcore => exact .of_work hcore _ rfl rfl rfl le_rfl le_rfl
  | endRequest => exact ⟨rfl, rfl, Nat.sub_le _ _, le_rfl, rfl, rfl, rfl⟩
  | endTick => exact ⟨rfl, rfl, le_rfl, Nat.sub_le _ _, rfl, rfl, rfl⟩
  | refuse | again | finish | stopRequest | respond | leave | skip => exact hsame
  | lose | query | endQuery | start | endRunning => exact ⟨rfl, rfl, le_rfl, le_rfl, rfl, rfl, rfl⟩

/-- Counters that were zero stay so. -/
lemma Calm.under {external : ExternalWork} (h : Calm s external)
    (hrequests : s'.requests ≤ s.requests)
    (hbackground : s'.backgroundBatches ≤ s.backgroundBatches) : Calm s' external :=
  ⟨fun hzero => hrequests.trans (h.requests hzero), fun hzero =>
    Nat.le_zero.mp (hbackground.trans (h.background hzero).le)⟩

/-- What the handler knows stays known. -/
lemma Known.under (h : Known s stage) (hunder : Under s s') : Known s' stage := by
  refine ⟨fun hnot => hunder.gate.trans (h.closed hnot), fun heq =>
    hunder.gate.trans (h.opened heq), ?_⟩
  have hcalm : ∀ {external}, Calm s external → Calm s' external := fun hcalm =>
    hcalm.under hunder.requests hunder.background
  have hhonest : ∀ {result}, Honest s result → Honest s' result := by
    intro result hhonest
    cases result with
    | err => trivial
    | ok o =>
      rw [Honest, hunder.stopping, hunder.process]
      exact hhonest
  match stage, h.knows with
  | .readBackground _ _ _, hknows => exact fun hzero => hunder.requests.trans (hknows hzero)
  | .accept _, hknows | .hold _ _, hknows | .read _ _, hknows | .lock _ _, hknows =>
    exact hcalm hknows
  | .attempt _, ⟨a, ha, hoperation, hknows⟩ =>
    exact ⟨a, hunder.attempt.trans ha, hoperation, hcalm hknows⟩
  | .drop _ _, hknows | .conclude _, hknows => exact hhonest hknows
  | .setStopping, hknows | .release .stopping, hknows => exact hunder.stopping.trans hknows
  | .drain, _ | .readQueries, _ | .readQueued _, _ | .readRequests _ _, _ | .fail _, _
  | .openGate, _ | .release .opened, _ | .release .unreadable, _ => trivial

/-- An attempt that has not ended goes on. -/
lemma attempt_of_advance {core core' : IdleStop.State} {a : Attempt} {how : How}
    (h : core.advance a how = some core') (hphase : ∀ e, a.phase ≠ .ended e) :
    ∃ phase, core'.attempt = some { a with phase := phase } := by
  rcases State.advance_cases h with ⟨phase, rfl, -⟩ | ⟨readers, phase, -, rfl, -⟩ |
    ⟨isLocked, o, t, phase, -, -, -, rfl, -⟩ | ⟨phase, -, rfl, -⟩ | ⟨e, he, -⟩
  · exact ⟨phase, rfl⟩
  · exact ⟨phase, rfl⟩
  · exact ⟨phase, rfl⟩
  · exact ⟨phase, rfl⟩
  · exact absurd he (hphase e)

/-- What the handler knows when it goes on. -/
lemma Follows.known (h : Follows s stage stage') (hcore : s.core.Inv) (hknown : Known s stage) :
    Known (s.goTo stage') stage' := by
  have hknows := hknown.knows
  have hclosed : ∀ {stage'}, stage ≠ .release .opened → stage' ≠ .release .opened →
      Knows (s.goTo stage') stage' → Known (s.goTo stage') stage' := fun hnot hnot' hknows' =>
    ⟨fun _ => hknown.closed hnot, fun heq => absurd heq hnot', hknows'⟩
  have hresult : ∀ {id : Id} {op : Operation} {o : IdleOutcome},
      s.core.operations.get? id = some op → op.result = some o → Honest s (.ok o) :=
    fun hop ho hstop hprocess => hcore.results _ _ _ hop ho hprocess hstop
  have hread : ∀ {b}, s.core.stopIsCommitted = some b → s.core.stopping = b := by
    intro b hb
    rw [State.stopIsCommitted] at hb
    split_ifs at hb
    exact some.inj hb
  cases h with
  | requests =>
    refine hclosed (by simp) (by simp) fun hzero => ?_
    change s.requests ≤ 1
    omega
  | background => exact hclosed (by simp) (by simp) ⟨fun hzero => hknows hzero, id⟩
  | replay | hasNone => exact hclosed (by simp) (by simp) ⟨hknows.requests, hknows.background⟩
  | hasResult hop ho | hasResultNow hop ho => exact hclosed (by simp) (by simp) (hresult hop ho)
  | stops hstop hprocess => exact hclosed (by simp) (by simp) (hknows hstop hprocess)
  | stopped hb => exact hclosed (by simp) (by simp) (hread hb)
  | _ => exact hclosed (by simp) (by simp) trivial

/-- **What the handler knows after a step of its own.** -/
theorem Progress.known (h : Progress s stage s') (hcore : s.core.Inv)
    (hattempt : ∀ a, s.core.attempt = some a → ∃ id, stage = .attempt id) (hknown : Known s stage)
    (hstage' : s'.stage = some stage') : Known s' stage' := by
  have hknows := hknown.knows
  cases h with
  | goTo hfollows =>
    obtain rfl := some.inj hstage'
    exact hfollows.known hcore hknown
  | drain | fail =>
    obtain rfl := some.inj hstage'
    exact ⟨fun _ => hknown.closed (by simp), by simp, trivial⟩
  | accept | hold =>
    obtain rfl := some.inj hstage'
    exact ⟨fun _ => hknown.closed (by simp), by simp, hknows.requests, hknows.background⟩
  | begin hone =>
    obtain rfl := some.inj hstage'
    obtain ⟨-, rfl⟩ := State.guarded_eq_some.mp hone
    refine ⟨fun _ => hknown.closed (by simp), by simp, _, rfl, rfl, ?_⟩
    exact ⟨hknows.requests, hknows.background⟩
  | attempt ha hadvance hphase =>
    obtain rfl := some.inj hstage'
    obtain ⟨b, hb, hoperation, hcalm⟩ := hknows
    obtain rfl := some.inj (ha.symm.trans hb)
    obtain ⟨phase, hnext⟩ := attempt_of_advance hadvance hphase
    refine ⟨fun _ => hknown.closed (by simp), by simp, _, hnext, hoperation, ?_⟩
    exact ⟨hcalm.requests, hcalm.background⟩
  | @ended id a e ha hphase =>
    obtain rfl := some.inj hstage'
    have hsettled := hcore.known a ha
    rw [hphase] at hsettled
    cases e with
    | answered o =>
      refine ⟨fun _ => hknown.closed (by simp), by simp [Shared.afterAttempt], fun hstop _ => ?_⟩
      rw [State.Known, State.Settled, if_pos hstop] at hsettled
      exact hsettled.1
    | _ => exact ⟨fun _ => hknown.closed (by simp), by simp [Shared.afterAttempt], trivial⟩
  | @drop id result core hone =>
    obtain rfl := some.inj hstage'
    have hframe := State.work_frame hone
    refine ⟨fun _ => hknown.closed (by simp), by simp, ?_⟩
    cases result with
    | err => trivial
    | ok o => exact fun hstop hprocess =>
        hframe.stopping.trans (hknows hstop (hprocess.trans hframe.process))
  | setStopping =>
    obtain rfl := some.inj hstage'
    exact ⟨fun _ => hknown.closed (by simp), by simp, hknows⟩
  | openGate =>
    obtain rfl := some.inj hstage'
    exact ⟨by simp, fun _ => rfl, trivial⟩
  | release => cases hstage'

/-- Only the handler makes attempts. -/
lemma Progress.attempt_of_stage (h : Progress s stage s')
    (hattempt : ∀ a, s.core.attempt = some a → ∃ id, stage = .attempt id) {a : Attempt}
    (ha : s'.core.attempt = some a) : ∃ id, s'.stage = some (.attempt id) := by
  have hwork : ∀ {w : Work} {core : IdleStop.State}, s.core.work w = some core →
      core.attempt = some a → ∃ id, stage = .attempt id := fun hcore hsome =>
    hattempt a ((State.work_frame hcore).attempt.symm.trans hsome)
  cases h with
  | goTo hfollows =>
    obtain ⟨id, rfl⟩ := hattempt a ha
    cases hfollows
  | drain _ hcore | accept hcore | hold hcore | fail hcore | drop hcore =>
    obtain ⟨id, hid⟩ := hwork hcore ha
    cases hid
  | begin | attempt => exact ⟨_, rfl⟩
  | ended => cases ha
  | setStopping | openGate | release =>
    obtain ⟨id, hid⟩ := hattempt a ha
    cases hid

/-- **The namespace keeps its invariant.** -/
theorem Progress.core (h : Progress s stage s') (hcore : s.core.Inv) : s'.core.Inv := by
  have hwork : ∀ {w : Work} {core : IdleStop.State}, s.core.work w = some core → core.Inv :=
    fun {w _} hone => hcore.step (show s.core.step (.work w) = some _ from hone)
  cases h with
  | drain _ hone | accept hone | hold hone | fail hone | drop hone => exact hwork hone
  | begin hone => exact hcore.step hone
  | attempt ha hadvance => exact hcore.advance ha hadvance
  | ended ha hphase =>
    refine ⟨fun b hb => ?_, hcore.results⟩
    cases hb
  | goTo | setStopping | openGate | release => exact hcore

/-- **The namespace keeps its invariant.** -/
theorem Effect.core (h : Effect s a out) (hcore : s.core.Inv) : out.shared.core.Inv := by
  have hwork : ∀ {w : Work} {core : IdleStop.State}, s.core.work w = some core → core.Inv :=
    fun {w _} hone => hcore.step (show s.core.step (.work w) = some _ from hone)
  cases h with
  | work _ _ hone | hold _ hone | enqueue _ _ hone => exact hwork hone
  | holdElsewhere hone | dropReceipt hone | dropQueued hone => exact hwork hone
  | stop hstage hadvance => exact (progress_of_advance hadvance).core hcore
  | _ => exact hcore

end Daemon

end Tgrep
