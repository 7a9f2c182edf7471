import Tgrep.Serve.DaemonInvariant

/-!
# A stop of the daemon drops no work

While the gate is closed, requests and ticks only end. So a counter that was read as zero stays
zero, and the last request is that of the handler itself. What has left the counters for the queues
is found by the namespace, which counts unfinished operations, and whose registry of receipts has
one for each queued operation.

## Main results

* `Daemon.Inv.final_of_commit`: when a stop is committed, nothing is left to do.
* `Daemon.Effect.final`, `Daemon.Final.run`: and nothing begins.
* `Daemon.Inv.step`: the invariant is kept by every step.
* `Daemon.stop_drops_no_work`: a stop of the daemon drops no accepted work.
-/

namespace Tgrep

open List Option

namespace Daemon

open Threads Managed Managed.IdleStop

/-! ## When a stop is committed -/

variable {b : Task} {tid : ℕ} {c' : State} {stage : Stage} {a : Task} {rest : List Task} {c : State}
  {threads : List (List Task)} {s : Shared} {core : IdleStop.State} {out : Outcome Shared Task Note}

variable {how : How} {s' : Shared} {os : List Note} {ms : List Move} {thread : List Task}
  {core' : IdleStop.State}

/-- The step that commits a stop leaves the attempt to report it. -/
lemma phaseFinal_of_stop {a : Attempt} (h : core.advance a how = some core')
    (hbefore : core.stopping = false) (hafter : core'.stopping = true) :
    ∃ phase, core'.attempt = some { a with phase := phase } ∧ PhaseFinal phase := by
  have hkeep : core'.stopping ≠ core.stopping := by simp [hbefore, hafter]
  rcases State.advance_cases h with ⟨phase, rfl, -⟩ | ⟨readers, phase, -, rfl, -⟩ |
    ⟨isLocked, o, t, phase, -, -, hcommit, rfl, hphase⟩ | ⟨phase, -, rfl, -⟩ | ⟨e, -, rfl⟩
  · exact absurd rfl hkeep
  · rcases core.countAndClose_cases a readers with heq | ⟨-, -, -, heq⟩ <;> rw [heq] at hkeep <;>
      exact absurd rfl hkeep
  · refine ⟨phase, rfl, ?_⟩
    rcases hphase with rfl | rfl
    · have ht : t.stopping = true := hafter
      change o.stopping = true
      rcases State.commitIdleDecision_cases hcommit with ⟨-, rfl⟩ | ⟨id, op, -, -, -, rfl⟩ <;>
        simpa [State.stopping_decideAdmission, hbefore] using ht
    · trivial
  · exact absurd rfl hkeep
  · exact absurd rfl hkeep

/-- An attempt that has committed a stop only reports it. -/
lemma PhaseFinal.next {a : Attempt} (h : core.advance a how = some core')
    (hstopped : core.Stopped) (hphase : PhaseFinal a.phase) (hended : ∀ e, a.phase ≠ .ended e) :
    ∃ phase, core' = core.goOn a phase ∧ PhaseFinal phase := by
  have hgo : ∀ {phase}, some (core.goOn a phase) = some core' → PhaseFinal phase →
      ∃ phase, core' = core.goOn a phase ∧ PhaseFinal phase := fun heq hfinal =>
    ⟨_, (some.inj heq).symm, hfinal⟩
  unfold State.advance at h
  generalize a.phase = phase at h hphase hended hgo
  match phase, hphase with
  | .committed _ o, hphase =>
    cases how with
    | done => exact hgo h hphase
    | _ => exact hgo h trivial
  | .failed, _ =>
    cases how with
    | done =>
      have hread : core.stopIsCommitted ≠ some false := by
        rw [State.stopIsCommitted]
        split_ifs <;> simp [hstopped.stopping]
      dsimp only at h
      split at h
      · exact hgo h trivial
      · exact hgo h trivial
      · exact absurd ‹_› hread
    | _ => exact hgo h trivial
  | .ended e, _ => exact absurd rfl (hended e)

/-- Work leaves a stop, and what is known of it. -/
lemma StageFinal.of_work {w : Work} (h : s.core.work w = some core)
    (hstage : StageFinal s stage) (s' : Shared) (hcore : s'.core = core) : StageFinal s' stage := by
  have hframe := State.work_frame h
  have hresult : ∀ {result}, ResultFinal s result → ResultFinal s' result := by
    intro result hresult
    cases result with
    | err => trivial
    | ok o => exact ⟨hresult.1, by rw [hcore, hframe.process]; exact hresult.2⟩
  match stage, hstage with
  | .attempt _, ⟨a, ha, hphase⟩ =>
    exact ⟨a, by rw [hcore, hframe.attempt]; exact ha, hphase⟩
  | .drop _ _, hstage | .conclude _, hstage => exact hresult hstage
  | .fail _, _ | .setStopping, _ | .release .stopping, _ | .release .unreadable, _ => trivial

/-- **What the handler does when a stop is committed.** -/
theorem Progress.final (h : Progress s stage s') (hcore : s.core.Inv) (hstopped : s.core.Stopped)
    (hgate : s.gate = false) (hstage : StageFinal s stage) :
    s'.core.Stopped ∧ s'.gate = false ∧ ∀ stage', s'.stage = some stage' → StageFinal s' stage' := by
  have hwork : ∀ {w : Work} {core : IdleStop.State}, s.core.work w = some core →
      core.Stopped := fun {w _} hone =>
    hstopped.step hcore rfl (show s.core.step (.work w) = some _ from hone)
  have hnext : ∀ {core : IdleStop.State} {stage' : Stage}, core.Stopped →
      StageFinal ({ s with core := core }.goTo stage') stage' →
      ({ s with core := core }.goTo stage').core.Stopped ∧
        ({ s with core := core }.goTo stage').gate = false ∧
        ∀ stage'', ({ s with core := core }.goTo stage').stage = some stage'' →
          StageFinal ({ s with core := core }.goTo stage') stage'' := by
    intro core stage' hcore' hfinal
    refine ⟨hcore', hgate, fun stage'' hsome => ?_⟩
    obtain rfl := some.inj hsome
    exact hfinal
  cases h with
  | goTo hfollows =>
    refine @hnext s.core _ hstopped ?_
    cases hfollows with
    | goesOn hnot => exact absurd hstage hnot
    | notStopped hread =>
      rw [State.stopIsCommitted] at hread
      split_ifs at hread
      rw [hstopped.stopping] at hread
      cases hread
    | notFailed | stops | stopped | unreadable => trivial
    | _ => exact hstage.elim
  | drain | accept | hold | begin => exact hstage.elim
  | attempt ha hadvance hended =>
    obtain ⟨b, hb, hphase⟩ := hstage
    obtain rfl := some.inj (ha.symm.trans hb)
    obtain ⟨phase, rfl, hfinal⟩ := hphase.next hadvance hstopped hended
    exact hnext (hstopped.goOn _ phase) ⟨_, rfl, hfinal⟩
  | @ended id a e ha hphase =>
    obtain ⟨b, hb, hfinal⟩ := hstage
    obtain rfl := some.inj (ha.symm.trans hb)
    have hq := hstopped.shut.quiet
    refine hnext ⟨⟨hstopped.shut.closed, hq.leases, hq.owners, hq.reservations, hq.operations⟩,
      hstopped.stopping⟩ ?_
    have hsettled := hcore.known a ha
    rw [hphase] at hsettled hfinal
    cases e with
    | answered o =>
      have hstop : o.stopping = true := hfinal
      rw [State.Known, State.Settled, if_pos hstop] at hsettled
      exact ⟨hstop, hsettled.2⟩
    | _ => trivial
  | fail hone => exact hnext (hwork hone) trivial
  | @drop id result core hone =>
    refine hnext (hwork hone) ?_
    exact StageFinal.of_work hone (show StageFinal s (.conclude result) from hstage)
      ({ s with core := core }.goTo (.conclude result)) rfl
  | setStopping =>
    refine ⟨hstopped, hgate, fun stage' hsome => ?_⟩
    obtain rfl := some.inj hsome
    trivial
  | openGate => exact hstage.elim
  | release => exact ⟨hstopped, hgate, fun stage' hsome => by cases hsome⟩

/-- **A committed stop is final** under the tasks that are left. -/
theorem Effect.final (h : Effect s a out) (ha : a.final = true) (hcore : s.core.Inv)
    (hstopped : s.core.Stopped) (hgate : s.gate = false) (hqueued : s.queued = [])
    (hjobs : s.jobs = []) (hstage : ∀ stage, s.stage = some stage → StageFinal s stage) :
    out.shared.core.Stopped ∧ out.shared.gate = false ∧ out.shared.queued = [] ∧
      out.shared.jobs = [] ∧ out.shared.requests ≤ s.requests ∧
      (∀ stage, out.shared.stage = some stage → StageFinal out.shared stage) ∧
      (∀ b ∈ out.next, b.final = true) ∧ (∀ t ∈ out.spawned, ∀ b ∈ t, b.final = true) ∧
      (∀ id, out.note ≠ some (.accepted id)) ∧ (∀ id, out.note ≠ some (.started id)) ∧
      out.note ≠ some .admitted := by
  have hwork : ∀ {w : Work} {core : IdleStop.State}, s.core.work w = some core →
      core.Stopped ∧ ∀ stage, s.stage = some stage → StageFinal { s with core := core } stage :=
    fun {w core} hone =>
      ⟨hstopped.step hcore rfl (show s.core.step (.work w) = some _ from hone), fun stage hsome =>
        (hstage stage hsome).of_work hone { s with core := core } rfl⟩
  have hworks : a.works = true → False := by
    intro hworks
    cases a <;> simp_all [Task.works, Task.final]
  cases h with
  | connect _ hopen => simp [hgate] at hopen
  | tick _ hopen => simp [hgate] at hopen
  | work hwho hw hone =>
    rcases hwho with hworks' | rfl
    · exact (hworks hworks').elim
    · refine ⟨(hwork hone).1, hgate, hqueued, hjobs, le_rfl, (hwork hone).2, by simp [Task.final],
        forall_mem_nil _, fun id hnote => ?_, fun id hnote => ?_, fun hnote => ?_⟩
      · rename_i w core
        cases w <;> simp only [noteOf, reduceCtorEq, some.injEq, Note.accepted.injEq] at hnote
        rw [State.work_admitted (by simp [hstopped.shut.closed]) rfl] at hone
        cases hone
      · rename_i w core
        cases w <;> simp [noteOf] at hnote
      · rename_i w core
        cases w <;> simp [noteOf] at hnote
  | hold hw => exact (hworks hw).elim
  | enqueue hw => exact (hworks hw).elim
  | again hw => exact (hworks hw).elim
  | finish hw => exact (hworks hw).elim
  | holdElsewhere hone =>
    exact ⟨(hwork hone).1, hgate, hqueued, hjobs, le_rfl, (hwork hone).2, by simp [Task.final],
      by simp [Task.final], by simp, by simp, by simp⟩
  | dropReceipt hone =>
    exact ⟨(hwork hone).1, hgate, hqueued, hjobs, le_rfl, (hwork hone).2, forall_mem_nil _,
      forall_mem_nil _, by simp, by simp, by simp⟩
  | query | stopRequest | closeGate | endRunning | dropQueued | endTick => cases ha
  | start hid => simp [hjobs] at hid
  | @stop stage choice s' hat hadvance =>
    have hprogress := progress_of_advance hadvance
    have hfinal := hprogress.final hcore hstopped hgate (hstage stage hat)
    have hframe := hprogress.frame
    refine ⟨hfinal.1, hfinal.2.1, hframe.queued.trans hqueued, hframe.jobs.trans hjobs,
      hframe.requests.le, hfinal.2.2, ?_, forall_mem_nil _, ?_, ?_, ?_⟩
    · dsimp only
      split_ifs <;> simp [Task.final]
    all_goals
      have hat' := hstage stage hat
      cases stage <;> simp only [StageFinal] at hat' <;> simp [stageNote]
  | endRequest =>
    exact ⟨hstopped, hgate, hqueued, hjobs, Nat.sub_le _ _, hstage, forall_mem_nil _,
      forall_mem_nil _, by simp, by simp, by simp⟩
  | refuse | skip | lose | respond | endQuery | leave =>
    exact ⟨hstopped, hgate, hqueued, hjobs, le_rfl, hstage, by simp [Task.final],
      forall_mem_nil _, by simp, by simp, by simp⟩

/-- A task that is not counted is not there. -/
lemma notMem_of_count (h : count b threads = 0) (hthread : thread ∈ threads) : b ∉ thread := by
  intro hb
  have hpos : 0 < total (weight b) threads :=
    total_pos_iff.mpr ⟨thread, hthread, b, hb, by simp [weight]⟩
  exact absurd h (Nat.ne_of_gt hpos)

/-- Only the thread that has the one guard of a request has it. -/
lemma notMem_of_le_one (h : count b threads ≤ 1) {i j : ℕ} {thread' : List Task}
    (hi : threads[i]? = some thread) (hj : threads[j]? = some thread') (hne : i ≠ j)
    (hb : b ∈ thread) : b ∉ thread' := by
  have hweight : ∀ {t : List Task}, b ∈ t → 1 ≤ (t.map (weight b)).sum := fun hmem => by
    refine List.sum_pos_iff_exists_pos_nat.mpr ⟨1, List.mem_map.mpr ⟨b, hmem, ?_⟩, Nat.one_pos⟩
    simp [weight]
  intro hb'
  have htwo := total_two (w := weight b) hi hj hne
  have h1 := hweight hb
  have h2 := hweight hb'
  rw [count] at h
  omega

/-- The tasks that are left when one request is left, no tick, and no queued operation. -/
lemma final_of_counts (hthread : threads[tid]? = some (.stop :: rest))
    (hcovered : ∀ t ∈ threads, Covered closer t)
    (hpassive : ∀ t ∈ threads, ∀ b ∈ t.tail, b.passive = true)
    (hrequests : count .endRequest threads ≤ 1) (hbackground : count .endTick threads = 0)
    (hqueued : ∀ id, count (.dropQueued id) threads = 0) :
    ∀ t ∈ threads, ∀ b ∈ t, b.final = true := by
  have hown : Task.endRequest ∈ Task.stop :: rest :=
    mem_cons_of_mem _ ((hcovered _ (mem_iff_getElem?.mpr ⟨tid, hthread⟩)).1 _ rfl)
  intro t ht b hb
  obtain ⟨i, hi⟩ := mem_iff_getElem?.mp ht
  have hcov := hcovered t ht
  -- what needs the guard of a request is in the thread of the handler, and there at its end
  have hserve : ∀ d, closer d = some .endRequest → d.passive = false → d ≠ .stop → b ≠ d := by
    rintro d hd hnot hne rfl
    by_cases heq : i = tid
    · subst heq
      obtain rfl := some.inj (hi.symm.trans hthread)
      rcases mem_cons.mp hb with rfl | hb
      · exact hne rfl
      · rw [hpassive _ ht b hb] at hnot
        cases hnot
    · exact hcov.notMem hd (notMem_of_le_one hrequests hthread hi (Ne.symm heq) hown) hb
  have htick : Task.endTick ∉ t := notMem_of_count hbackground ht
  have hjob : ∀ id, Task.dropQueued id ∉ t := fun id => notMem_of_count (hqueued id) ht
  cases b with
  | serve => exact absurd rfl (hserve .serve rfl rfl (by simp))
  | closeGate => exact absurd rfl (hserve .closeGate rfl rfl (by simp))
  | tick => exact absurd hb (hcov.notMem rfl htick)
  | endTick => exact absurd hb htick
  | job id => exact absurd hb (hcov.notMem rfl (hjob id))
  | endRunning id => exact absurd hb (hcov.notMem rfl (hjob id))
  | dropQueued id => exact absurd hb (hjob id)
  | _ => rfl

/-- **The step that commits a stop** leaves the daemon with nothing to do. -/
theorem Inv.final_of_commit (h : Inv c) (hthread : c.threads[tid]? = some (.stop :: rest))
    (hstage : c.shared.stage = some stage) (hprogress : Progress c.shared stage s')
    (hbefore : c.shared.core.stopping = false) (hafter : s'.core.stopping = true) :
    Final ⟨s', c.threads⟩ ∧ s'.stage.isSome = true := by
  have hwork : ∀ {w : Work} {core : IdleStop.State}, c.shared.core.work w = some core →
      core.stopping = false := fun hone => (State.work_frame hone).stopping.trans hbefore
  have hfalse : ∀ {core : IdleStop.State}, core.stopping = false → core.stopping = true → False :=
    fun hno hyes => by simp [hno] at hyes
  have hknown := h.known stage hstage
  cases hprogress with
  | @attempt id how a core ha hadvance hended =>
    have hone : c.shared.core.step (.advance how) = some core :=
      Option.bind_eq_some_iff.mpr ⟨a, ha, hadvance⟩
    obtain ⟨hstopped, b, hb, hidle, hempty⟩ := State.idle_of_stop h.core hone hbefore hafter
    obtain rfl := some.inj (ha.symm.trans hb)
    obtain ⟨d, hd, hoperation, hcalm⟩ := hknown.knows
    obtain rfl := some.inj (ha.symm.trans hd)
    simp only [ExternalWork.isIdle, Bool.and_eq_true, beq_iff_eq] at hidle
    obtain ⟨⟨-, hrequests⟩, hbackground⟩ := hidle
    have hreaders := State.receiptReaders_eq_zero.mp hempty.readers
    -- the registry holds no receipt but that of the attempt, so nothing is queued
    have hnone : ∀ id', c.shared.queued.count id' = 0 := by
      intro id'
      have hreceipts := h.receipts id'
      have hle : held c.shared.core id' ≤ if a.operation = some id' then 1 else 0 := hreaders id'
      rw [stageReceipt, hstage, bind_some, Stage.receipt] at hreceipts
      rw [hoperation] at hle
      omega
    have hjobs : ∀ id', c.shared.jobs.count id' = 0 ∧ count (.dropQueued id') c.threads = 0 := by
      intro id'
      have hqueued := h.queued id'
      rw [hnone id'] at hqueued
      omega
    have hempty : ∀ {l : List Id}, (∀ id, l.count id = 0) → l = [] := fun hl =>
      eq_nil_iff_forall_not_mem.mpr fun id => count_eq_zero.mp (hl id)
    obtain ⟨phase, hattempt, hphase⟩ := phaseFinal_of_stop hadvance hbefore hafter
    refine ⟨⟨hstopped, hknown.closed (by simp), hempty hnone, hempty fun id' => (hjobs id').1,
      hcalm.requests hrequests, ?_, fun stage' hstage' => ?_⟩, rfl⟩
    · refine final_of_counts hthread h.covered h.passive ?_ ?_ fun id' => (hjobs id').2
      · exact h.requests ▸ hcalm.requests hrequests
      · exact h.background ▸ hcalm.background hbackground
    · obtain rfl := some.inj hstage'
      exact ⟨_, hattempt, hphase⟩
  | drain _ hone | accept hone | hold hone | fail hone | drop hone =>
    exact (hfalse (hwork hone) hafter).elim
  | begin hone =>
    obtain ⟨-, rfl⟩ := State.guarded_eq_some.mp hone
    exact (hfalse hbefore hafter).elim
  | goTo | ended | setStopping | openGate | release => exact (hfalse hbefore hafter).elim

/-- What one step does to a final state. -/
lemma Final.step (h : Final c) (hinv : Inv c) (hthread : c.threads[tid]? = some (a :: rest))
    (heffect : Effect c.shared a out) :
    Final ⟨out.shared, c.threads.set tid (out.next ++ rest) ++ out.spawned⟩ ∧
      (∀ id, out.note ≠ some (.accepted id)) ∧ (∀ id, out.note ≠ some (.started id)) ∧
      out.note ≠ some .admitted := by
  have hmem : a :: rest ∈ c.threads := mem_iff_getElem?.mpr ⟨tid, hthread⟩
  obtain ⟨hstopped, hgate, hqueued, hjobs, hrequests, hstage, hnext, hspawned, hnotes⟩ :=
    heffect.final (h.tasks _ hmem a mem_cons_self) hinv.core h.stopped h.gate h.queued h.jobs
      h.stage
  refine ⟨⟨hstopped, hgate, hqueued, hjobs, hrequests.trans h.requests, ?_, hstage⟩, hnotes⟩
  refine forall_replace h.tasks (fun b hb => ?_) hspawned
  rcases mem_append.mp hb with hb | hb
  · exact hnext b hb
  · exact h.tasks _ hmem b (mem_cons_of_mem _ hb)

/-- A step of the handler. -/
lemma Effect.of_stop (h : Effect s .stop out) :
    ∃ stage choice, s.stage = some stage ∧ Progress s stage out.shared ∧
      out.next = (if out.shared.stage.isSome then [.stop] else []) ∧ out.spawned = [] ∧
      out.note = stageNote choice stage := by
  cases h with
  | @stop stage choice s' hstage hadvance =>
    exact ⟨stage, choice, hstage, progress_of_advance hadvance, rfl, rfl, rfl⟩
  | work ha => simp [Task.works] at ha
  | hold ha | enqueue ha | again ha | finish ha => simp [Task.works] at ha
  | leave ha => simp at ha

/-- A step of another thread makes no attempt, and lets the handler alone. -/
lemma Effect.of_ne (h : Effect s a out) (ha : a ≠ .stop) :
    out.shared.core.attempt = s.core.attempt ∧ out.shared.core.stopping = s.core.stopping ∧
      (out.shared.stage = s.stage ∨
        (s.stage = none ∧ out.shared.stage = some .drain ∧ out.shared.gate = false)) := by
  have hwork : ∀ {w : Work} {core : IdleStop.State}, s.core.work w = some core →
      core.attempt = s.core.attempt ∧ core.stopping = s.core.stopping := fun hone =>
    ⟨(State.work_frame hone).attempt, (State.work_frame hone).stopping⟩
  cases h with
  | stop => exact absurd rfl ha
  | work _ _ hone | hold _ hone | enqueue _ _ hone =>
    exact ⟨(hwork hone).1, (hwork hone).2, .inl rfl⟩
  | holdElsewhere hone | dropReceipt hone | dropQueued hone =>
    exact ⟨(hwork hone).1, (hwork hone).2, .inl rfl⟩
  | closeGate hnone => exact ⟨rfl, rfl, .inr ⟨hnone, rfl, rfl⟩⟩
  | _ => exact ⟨rfl, rfl, .inl rfl⟩

/-- **One step keeps the invariant.** -/
theorem Inv.step {m : Move} {o : Option Note} (h : Inv c) (hs : c.step m = some (c', o)) : Inv c' := by
  obtain ⟨a, rest, out, hthread, hout, rfl, rfl⟩ := Pool.step_cases hs
  have heffect := effect_of_exec hout
  have hmem : a :: rest ∈ c.threads := List.mem_iff_getElem?.mpr ⟨m.thread, hthread⟩
  have hcovered := heffect.covered (h.covered _ hmem)
  have hpassive := heffect.passive fun b hb => h.passive _ hmem b hb
  have hcount : ∀ b, count b (c.threads.set m.thread (out.next ++ rest) ++ out.spawned) +
      weight b a = count b c.threads + (out.next.map (weight b)).sum + total (weight b) out.spawned :=
    fun b => total_replace (weight b) _ hthread
  have hle : ∀ b, weight b a ≤ count b c.threads := fun b => weight_le_count hthread
  obtain ⟨hrequests, hbackground⟩ :=
    heffect.counters (h.requests ▸ hle .endRequest) (h.background ▸ hle .endTick)
  refine ⟨heffect.core h.core, ?_, ?_, fun id => ?_, fun id => ?_, ?_,
    forall_replace h.covered hcovered.1 hcovered.2,
    forall_replace h.passive hpassive.1 hpassive.2, fun stage hstage => ?_, fun b hb => ?_,
    fun hstopping => ?_⟩
  · have h1 := hcount .endRequest
    have h2 := h.requests
    dsimp only
    omega
  · have h1 := hcount .endTick
    have h2 := h.background
    dsimp only
    omega
  · have hqueue : ∀ id, weight (.dropQueued id) a ≤ c.shared.queued.count id := fun id => by
      rw [h.queued id]
      exact Nat.le_trans (hle _) (Nat.le_add_left _ _)
    have hreceipts := heffect.receipts (fun id => ?_) hqueue id
    · have h1 := hcount (.dropReceipt id)
      have h2 := h.receipts id
      dsimp only
      omega
    · have h2 := h.receipts id
      have h3 := hle (.dropReceipt id)
      have h4 := hqueue id
      omega
  · have hqueue : weight (.dropQueued id) a ≤ c.shared.queued.count id := by
      rw [h.queued id]
      exact Nat.le_trans (hle _) (Nat.le_add_left _ _)
    have hqueued := heffect.queued hqueue
    have h1 := hcount (.dropQueued id)
    have h2 := h.queued id
    dsimp only
    omega
  · have hhandler := heffect.handler
    have h1 := hcount .stop
    have h2 := h.handler
    dsimp only
    omega
  · by_cases hstop : a = .stop
    · subst hstop
      obtain ⟨stage', choice, hat, hprogress, -⟩ := heffect.of_stop
      refine hprogress.known h.core (fun b hb => ?_) (h.known stage' hat) hstage
      obtain ⟨id, hid⟩ := h.attempt b hb
      exact ⟨id, some.inj (hat.symm.trans hid)⟩
    · obtain ⟨-, -, hsame | ⟨-, hdrain, hgate⟩⟩ := heffect.of_ne hstop
      · have hat : c.shared.stage = some stage := hsame.symm.trans hstage
        exact (h.known stage hat).under (heffect.under hstop (by simp [hat]))
      · obtain rfl := some.inj (hdrain.symm.trans hstage)
        exact ⟨fun _ => hgate, by simp, trivial⟩
  · by_cases hstop : a = .stop
    · subst hstop
      obtain ⟨stage', choice, hat, hprogress, -⟩ := heffect.of_stop
      refine hprogress.attempt_of_stage (fun d hd => ?_) hb
      obtain ⟨id, hid⟩ := h.attempt d hd
      exact ⟨id, some.inj (hat.symm.trans hid)⟩
    · obtain ⟨hattempt, -, hsame | ⟨hnone, -⟩⟩ := heffect.of_ne hstop
      · obtain ⟨id, hid⟩ := h.attempt b (hattempt.symm.trans hb)
        exact ⟨id, hsame.trans hid⟩
      · obtain ⟨id, hid⟩ := h.attempt b (hattempt.symm.trans hb)
        rw [hnone] at hid
        cases hid
  · by_cases hbefore : c.shared.core.stopping = true
    · exact ((h.final hbefore).step h hthread heffect).1
    · rw [Bool.not_eq_true] at hbefore
      by_cases hstop : a = .stop
      · subst hstop
        obtain ⟨stage', choice, hat, hprogress, hnext, hspawned, -⟩ := heffect.of_stop
        obtain ⟨hfinal, hsome⟩ := h.final_of_commit hthread hat hprogress hbefore hstopping
        have hthreads : c.threads.set m.thread (out.next ++ rest) ++ out.spawned = c.threads := by
          obtain ⟨hlt, heq⟩ := List.getElem?_eq_some_iff.mp hthread
          rw [hnext, if_pos hsome, hspawned, append_nil, singleton_append, ← heq, set_getElem_self]
        rw [hthreads]
        exact hfinal
      · exact absurd hstopping (by rw [(heffect.of_ne hstop).2.1, hbefore]; decide)

/-! ## The result -/

/-- When the daemon starts there is nothing to count. -/
lemma count_start (core : IdleStop.State) (workers : ℕ)
    (hb : b ∉ [Task.accept, .scheduler, .environment, .worker]) :
    count b (Start core workers).threads = 0 := by
  refine Nat.eq_zero_of_not_pos fun hpos => ?_
  obtain ⟨thread, hthread, a, ha, hweight⟩ := total_pos_iff.mp hpos
  have hab : a = b := by
    by_contra hne
    simp [weight, hne] at hweight
  subst hab
  simp only [Start, mem_cons, mem_replicate] at hthread
  rcases hthread with rfl | rfl | rfl | ⟨-, rfl⟩ <;> simp_all

/-- **The daemon starts with the invariant.** -/
theorem Fresh.inv (h : Fresh core) (workers : ℕ) : Inv (Start core workers) := by
  have hthreads : ∀ t ∈ (Start core workers).threads, t = [Task.accept] ∨ t = [.scheduler] ∨
      t = [.environment] ∨ t = [.worker] := by
    intro t ht
    simp only [Start, mem_cons, mem_replicate] at ht
    tauto
  refine ⟨h.activated.inv, (count_start core workers (by simp)).symm,
    (count_start core workers (by simp)).symm, fun id => ?_, fun id => ?_,
    count_start core workers (by simp), fun t ht => ?_, fun t ht => ?_, fun stage hstage => ?_,
    fun a ha => ?_, fun hstopping => ?_⟩
  · rw [count_start core workers (by simp)]
    simp [Start, held, h.readers, stageReceipt]
  · rw [count_start core workers (by simp)]
    rfl
  · rcases hthreads t ht with rfl | rfl | rfl | rfl <;> simp [closer]
  · rcases hthreads t ht with rfl | rfl | rfl | rfl <;> simp
  · cases hstage
  · rw [show (Start core workers).shared.core.attempt = none from h.activated.attempt] at ha
    cases ha
  · rw [show (Start core workers).shared.core.stopping = false from h.activated.notStopping]
      at hstopping
    cases hstopping

/-- **It holds in every state of a run.** -/
theorem Inv.of_run (h : Inv c) (hrun : Traced.run State.step c ms = some (c', os)) : Inv c' :=
  Traced.invariant (fun _ _ _ _ hinv hs => hinv.step hs) h hrun

/-- **After a stop nothing begins.** -/
theorem Final.run (h : Final c) (hinv : Inv c) (hrun : Traced.run State.step c ms = some (c', os)) :
    Note.admitted ∉ os ∧ ∀ id, Note.accepted id ∉ os ∧ Note.started id ∉ os := by
  induction ms generalizing c os with
  | nil =>
    simp only [Traced.run_nil, some.injEq, Prod.mk.injEq] at hrun
    simp [← hrun.2]
  | cons m ms ih =>
    obtain ⟨c₁, o, os', hone, hrest, rfl⟩ := Traced.run_cons.mp hrun
    have hinv₁ := hinv.step hone
    obtain ⟨a, rest, out, hthread, hout, rfl, rfl⟩ := Pool.step_cases hone
    obtain ⟨hfinal, haccepted, hstarted, hadmitted⟩ := h.step hinv hthread (effect_of_exec hout)
    obtain ⟨hadmitted', hrest'⟩ := ih hfinal hinv₁ hrest
    have hnote : ∀ n, out.note ≠ some n → n ∉ os' → n ∉ out.note.toList ++ os' := by
      intro n hn hn'
      simp only [mem_append, mem_toList, not_or]
      exact ⟨hn, hn'⟩
    refine ⟨hnote _ hadmitted hadmitted', fun id => ⟨?_, ?_⟩⟩
    · exact hnote _ (haccepted id) (hrest' id).1
    · exact hnote _ (hstarted id) (hrest' id).2

/-- Only the handler sets the stop flag for a request, or concludes. -/
lemma Effect.eq_stop (h : Effect s a out) {n : Note} (hnote : out.note = some n)
    (hn : n = .stopSet ∨ ∃ k, n = .concluded k) : a = .stop := by
  cases h with
  | stop => rfl
  | @work _ ha w core hw hcore =>
    cases w <;> simp [noteOf] at hnote
    subst hnote
    simp at hn
  | connect | respond | start =>
    obtain rfl := some.inj hnote
    simp at hn
  | _ => cases hnote

/-- **A stop of the daemon drops no accepted work.** In every run of the threads, the step that sets
the stop flag for a request is taken when every other admitted request has been answered, no tick is
in progress and no operation is unfinished; afterwards no request is admitted and no operation is
accepted or started. And a handler that lets the gate go leaves it open, unless a stop is committed
or it cannot be read whether one is.

**Proof sketch.** The gate is closed while the counters are read, so requests and ticks only end
from then on. The namespace commits a stop only if its caller counted nothing, no operation is
unfinished and no receipt is held but that of the attempt; each queued operation has one. So nothing
is left when a stop is committed, and nothing begins since the gate stays closed and the namespace
admits nothing. -/
theorem stop_drops_no_work {core : IdleStop.State} {workers : ℕ} (hcore : Fresh core)
    {ms : List Move} {c c' : State} {os : List Note} {m : Move} {o : Option Note}
    (hrun : Traced.run State.step (Start core workers) ms = some (c, os))
    (hstep : c.step m = some (c', o)) :
    (o = some .stopSet →
      (∀ i thread, c.threads[i]? = some thread → i ≠ m.thread →
        Task.serve ∉ thread ∧ Task.respond ∉ thread) ∧
      (∀ thread ∈ c.threads, Task.tick ∉ thread) ∧
      (∀ id op, c.shared.core.operations.get? id = some op → op.state.pending = false) ∧
      ∀ ms' c₂ os', Traced.run State.step c' ms' = some (c₂, os') →
        Note.admitted ∉ os' ∧ ∀ id, Note.accepted id ∉ os' ∧ Note.started id ∉ os') ∧
    ∀ k, o = some (.concluded k) → k ≠ .unreadable → c.shared.core.stopping = false →
      c'.shared.gate = true := by
  have hinv := (hcore.inv workers).of_run hrun
  have hinv' := hinv.step hstep
  obtain ⟨a, rest, out, hthread, hout, rfl, rfl⟩ := Pool.step_cases hstep
  have heffect := effect_of_exec hout
  refine ⟨fun hnote => ?_, fun k hnote hk hnot => ?_⟩
  · obtain rfl := heffect.eq_stop hnote (.inl rfl)
    obtain ⟨stage, choice, hat, hprogress, -, -, hstage⟩ := heffect.of_stop
    have hset : stage = .setStopping := by
      rw [hnote] at hstage
      cases stage <;> cases choice <;> simp [stageNote] at hstage ⊢
      rename_i w
      cases w <;> simp [noteOf] at hstage
    subst hset
    have hstopping : c.shared.core.stopping = true := (hinv.known _ hat).knows
    have hfinal := hinv.final hstopping
    have hmem : Task.stop :: rest ∈ c.threads := List.mem_iff_getElem?.mpr ⟨_, hthread⟩
    have hown : Task.endRequest ∈ Task.stop :: rest :=
      mem_cons_of_mem _ ((hinv.covered _ hmem).1 _ rfl)
    refine ⟨fun i thread hi hne => ?_, fun thread ht hin => ?_, fun id op hop => ?_, ?_⟩
    · have hnone : Task.endRequest ∉ thread :=
        notMem_of_le_one (hinv.requests ▸ hfinal.requests) hthread hi hne.symm hown
      have hcov := hinv.covered thread (List.mem_iff_getElem?.mpr ⟨i, hi⟩)
      exact ⟨hcov.notMem rfl hnone, hcov.notMem rfl hnone⟩
    · exact absurd (hfinal.tasks thread ht _ hin) (by simp [Task.final])
    · by_contra hpending
      rw [Bool.not_eq_false] at hpending
      cases hfinal.stopped.shut.quiet.operations id op hop hpending
    · intro ms' c₂ os' hrun'
      exact ((hfinal.step hinv hthread heffect).1).run hinv' hrun'
  · obtain rfl := heffect.eq_stop hnote (.inr ⟨k, rfl⟩)
    obtain ⟨stage, choice, hat, hprogress, -, -, hstage⟩ := heffect.of_stop
    have hrelease : stage = .release k := by
      rw [hnote] at hstage
      cases stage <;> cases choice <;> simp [stageNote] at hstage ⊢
      all_goals
        first
        | exact hstage.symm
        | rename_i w
          cases w <;> simp [noteOf] at hstage
    subst hrelease
    have hknown := hinv.known _ hat
    have hgate : out.shared.gate = c.shared.gate := by
      generalize out.shared = s' at hprogress
      cases hprogress with
      | goTo hfollows => cases hfollows
      | release => rfl
    cases k with
    | opened => exact hgate.trans (hknown.opened rfl)
    | stopping => exact absurd hnot (by rw [show c.shared.core.stopping = true from hknown.knows]; decide)
    | unreadable => exact absurd rfl hk

/-- The moves with which a daemon without work stops, up to setting the stop flag. -/
def stopMoves : List Move :=
  [⟨0, .done⟩, ⟨3, .stop⟩, ⟨3, .done⟩] ++ List.replicate 5 ⟨3, .done⟩ ++ [⟨3, .accept 1⟩] ++
    List.replicate 15 ⟨3, .done⟩

/-- The unused instance has no receipts. -/
lemma unused_fresh : Fresh unused := ⟨unused_activated, rfl⟩

/-- A daemon without work stops, and refuses the next connection. -/
theorem stop_drops_no_work_unused : ∃ c c' os,
    Traced.run State.step (Start unused 0) stopMoves = some (c, os) ∧
    c.step ⟨3, .done⟩ = some (c', some .stopSet) ∧
    (∀ id op, c.shared.core.operations.get? id = some op → op.state.pending = false) := by
  have hrun : ∃ c os c', Traced.run State.step (Start unused 0) stopMoves = some (c, os) ∧
      c.step ⟨3, .done⟩ = some (c', some .stopSet) := ⟨_, _, _, rfl, rfl⟩
  obtain ⟨c, os, c', hrun, hstep⟩ := hrun
  obtain ⟨-, -, hpending, -⟩ := (stop_drops_no_work unused_fresh hrun hstep).1 rfl
  exact ⟨c, c', os, hrun, hstep, hpending⟩

end Daemon

end Tgrep
