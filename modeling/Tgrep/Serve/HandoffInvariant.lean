import Tgrep.Serve.Handoff

/-!
# The invariant of the handoff

What is known of all threads at once is known by what their tasks lead to. A flag that asks for
something is set only while some task leads to a look at it, a lock is held only by a task that goes
on under it, and `indexing` is set only while some task leads to clearing it.

## Main definitions

* `Handoff.Task.starting`, `Handoff.Task.holdsWrite`, … — what the tasks lead to.
* `Handoff.Inv`: the invariant between two steps.

## Main results

* `Handoff.inv_run`: the invariant holds in every state that the server reaches.
* `Handoff.Inv.not_building`: no build is unpublished when a path is applied.

## Implementation notes

The build in heap clears `indexing` twice. The second time may be during a reload, so that the flag
says less than that a build goes on. What counts is that it is set only while somebody clears it.
-/

namespace Tgrep

open List Bool

namespace Handoff

open Threads

namespace Task

/-- An initial build that is not done. -/
def starting : Task → ℕ
  | .bootstrap | .bootstrapGate | .bootstrapPublish | .bootstrapMatcher | .bootstrapScan
  | .bootstrapDropGate | .endBootstrap | .inHeap | .inHeapMatcher | .inHeapScan | .inHeapGate
  | .inHeapFlushing | .inHeapDone => 1
  | _ => 0

/-- Tasks that nobody reaches before an initial build is done. -/
def late : Task → Bool
  | .enterGate _ | .checkPending _ | .applyPaths _ _ | .replay | .replayLoop _ _
  | .reloadFlushing | .reloadLock | .reloadGate | .beginReload | .reloadBuild | .reloadFreeze
  | .reloadPublish | .reloadMatcher | .endReload | .reloadDropDeferred | .reloadDropGate
  | .reloadDropRefresh | .reloadTail | .inHeapPublish | .inHeapDropGate | .inHeapFlushed
  | .endInHeap => true
  | _ => false

/-- Tasks done with the gate held for writing. -/
def holdsWrite : Task → ℕ
  | .walk | .publishWalk | .unlockGate | .beginReload | .reloadBuild | .reloadFreeze
  | .reloadPublish | .reloadMatcher | .endReload | .reloadDropDeferred | .reloadDropGate
  | .bootstrapPublish | .bootstrapMatcher | .bootstrapScan | .bootstrapDropGate
  | .inHeapFlushing | .inHeapDone | .inHeapPublish | .inHeapDropGate => 1
  | _ => 0

/-- Tasks done with the gate held for reading. -/
def holdsRead : Task → ℕ
  | .checkPending _ | .applyPaths _ _ => 1
  | _ => 0

/-- Tasks of a worker that has the flag `ignore_refresh_scheduled`. -/
def owns : Task → Bool
  | .takeDirty | .awaitBuild | .clearScheduled => true
  | _ => false

/-- Tasks with a build, or reload, behind that clears `indexing`. -/
def clears : Task → Bool
  | .reloadBuild | .reloadFreeze | .reloadPublish | .reloadMatcher | .endReload | .bootstrap
  | .bootstrapGate | .bootstrapPublish | .bootstrapMatcher | .bootstrapScan | .bootstrapDropGate
  | .endBootstrap | .inHeap | .inHeapMatcher | .inHeapScan | .inHeapGate | .inHeapFlushing
  | .inHeapDone => true
  | _ => false

/-- Tasks that lead to a look at `ignore_rules_dirty`. -/
def looks : Task → Bool
  | .rulesDuringBuild | .scheduleRefresh | .schedulePending | .takeDirty | .awaitBuild
  | .clearScheduled | .recheckDirty | .reschedule | .reloadDropDeferred | .reloadDropGate
  | .reloadDropRefresh | .inHeapPublish | .inHeapDropGate | .inHeapFlushed | .endInHeap => true
  | a => a.clears

/-- Tasks that lead to a replay, and not before `indexing` is cleared. -/
def guards : Task → Bool
  | .awaitScan | .reloadBuild | .reloadFreeze | .reloadPublish | .reloadMatcher | .endReload
  | .bootstrap | .bootstrapGate | .bootstrapPublish | .bootstrapMatcher | .bootstrapScan
  | .inHeap | .inHeapMatcher | .inHeapScan => true
  | _ => false

/-- Tasks that lead to a replay. -/
def replays : Task → Bool
  | .replay | .reloadDropDeferred | .reloadDropGate | .reloadDropRefresh => true
  | a => a.guards

/-- Tasks that lead to the publication of an ignore matcher. -/
def matching : Task → Bool
  | .lockRefresh | .lockGate | .walk | .publishWalk | .bootstrap | .bootstrapGate
  | .bootstrapPublish | .bootstrapMatcher | .inHeap | .inHeapMatcher => true
  | _ => false

/-- Tasks that lead to a full refresh. -/
def refreshes : Task → Bool
  | .rulesChanged | .markDirty | .awaitBuild | .lockRefresh | .lockGate | .walk => true
  | .replayLoop _ missingSubtree => missingSubtree
  | _ => false

lemma replays_of_guards {a : Task} (h : a.guards = true) : a.replays = true := by
  cases a <;> first | exact h | rfl

lemma looks_of_clears {a : Task} (h : a.clears = true) : a.looks = true := by
  cases a <;> first | exact h | rfl

lemma looks_of_owns {a : Task} (h : a.owns = true) : a.looks = true := by
  cases a <;> first | exact h | rfl

end Task

variable {inIndexDir : String → Bool} {s : Shared} {flag : Bool} {p : String} {a : Task}
  {out : Outcome Shared Task Note}

variable (h : exec inIndexDir s ⟨flag, p⟩ a = some out)

include h

/-- The gate is held for writing exactly by the task that goes on under it. -/
lemma exec_holdsWrite (ha : 0 < a.holdsWrite → s.gateWriter = true) :
    out.shared.gateWriter.toNat + a.holdsWrite =
      s.gateWriter.toNat + (out.next.map Task.holdsWrite).sum +
        total Task.holdsWrite out.spawned := by
  revert h
  fun_cases exec inIndexDir s _ a <;> intro h <;> cases h <;>
    first
    | rfl
    | (rw [ha Nat.one_pos]; rfl)
    | (cases flag <;> rfl)
    | (have hfree : s.gateWriter = false := by simp_all
       rw [hfree]
       rfl)

/-- The gate is held for reading exactly by the tasks that go on under it. -/
lemma exec_holdsRead (ha : a.holdsRead ≤ s.gateReaders) :
    out.shared.gateReaders + a.holdsRead =
      s.gateReaders + (out.next.map Task.holdsRead).sum + total Task.holdsRead out.spawned := by
  revert h
  fun_cases exec inIndexDir s _ a <;> intro h <;> cases h <;>
    first
    | rfl
    | exact Nat.sub_add_cancel ha
    | (cases flag <;> rfl)

/-- Nobody holds the gate for reading while it is held for writing. -/
lemma exec_exclusive
    (hs : s.gateWriter = true → s.gateReaders = 0) (ha : 0 < a.holdsWrite → s.gateWriter = true)
    (hout : out.shared.gateWriter = true) : out.shared.gateReaders = 0 := by
  revert h
  fun_cases exec inIndexDir s _ a <;> intro h <;> cases h <;>
    first
    | exact hs hout
    | exact hs (ha Nat.one_pos)
    | contradiction
    | exact congrArg (· - 1) (hs hout)
    | simp_all

/-- No task starts an initial build. -/
lemma exec_starting :
    (out.next.map Task.starting).sum + total Task.starting out.spawned ≤ a.starting := by
  revert h
  fun_cases exec inIndexDir s _ a <;> intro h <;> cases h <;>
    first
    | exact Nat.le_refl 0
    | exact Nat.le_refl 1
    | exact Nat.zero_le 1
    | (cases flag <;> first | exact Nat.zero_le 1 | rfl)

omit h

/-- Whether a task leads to one of a kind, in its own thread or in one that it starts. -/
def LeadsTo (φ : Task → Bool) (out : Outcome Shared Task Note) : Bool :=
  out.next.any φ || out.spawned.any fun thread => thread.any φ

variable (h : exec inIndexDir s ⟨flag, p⟩ a = some out)

include h

/-- The flags that have tasks of their own: a task that would clear `indexing` leads to one that
will, a replay stays ahead while it is set, a worker has `ignore_refresh_scheduled`, and a matcher is
to be published as long as there is none. -/
lemma exec_flags :
    (out.shared.indexing = true →
      LeadsTo Task.clears out = true ∨ (s.indexing = true ∧ a.clears = false)) ∧
    (out.shared.indexing = true →
      LeadsTo Task.guards out = true ∨ (s.indexing = true ∧ a.guards = false)) ∧
    (out.shared.ignoreRefreshScheduled = true →
      LeadsTo Task.owns out = true ∨ (s.ignoreRefreshScheduled = true ∧ a.owns = false)) ∧
    (out.shared.gitignorePending = true →
      LeadsTo Task.matching out = true ∨ (s.gitignorePending = true ∧ a.matching = false)) := by
  revert h
  fun_cases exec inIndexDir s _ a <;> intro h <;> cases h <;>
    refine ⟨fun hout => ?_, fun hout => ?_, fun hout => ?_, fun hout => ?_⟩ <;>
    first
    | exact .inl rfl
    | exact .inr ⟨hout, rfl⟩
    | cases hout
    | contradiction
    | (cases flag <;> exact .inl rfl)

/-- Somebody looks at `ignore_rules_dirty`, as long as it is set. A task that does not look leaves
that to a build or to a worker. -/
lemma exec_dirty (hout : out.shared.ignoreRulesDirty = true) :
    LeadsTo Task.looks out = true ∨ (s.ignoreRulesDirty = true ∧ a.looks = false) ∨
      (s.indexing = true ∧ a.clears = false) ∨
      (s.ignoreRefreshScheduled = true ∧ a.owns = false) := by
  revert h
  fun_cases exec inIndexDir s _ a <;> intro h <;> cases h <;>
    first
    | exact .inl rfl
    | exact .inr (.inl ⟨hout, rfl⟩)
    | cases hout
    | contradiction
    | exact .inr (.inr (.inl ⟨‹_›, rfl⟩))
    | exact .inr (.inr (.inr ⟨‹_›, rfl⟩))
    | (cases flag <;> first | exact .inl rfl | exact .inr (.inl ⟨hout, rfl⟩))

omit h

/-- The buffer has something in it, or had too much. -/
def Shared.Waiting (s : Shared) : Prop :=
  ∀ m, s.deferredEvents = some m → ∃ path, path ∈ m.keys

/-- A buffer with something in it will be replayed. What puts something in it sees `indexing`. -/
lemma exec_buffered (h : exec inIndexDir s ⟨flag, p⟩ a = some out) (hout : out.shared.Waiting) :
    LeadsTo Task.replays out = true ∨ (s.Waiting ∧ a.replays = false) ∨
      (s.indexing = true ∧ a.guards = false) := by
  revert h
  fun_cases exec inIndexDir s _ a <;> intro h <;> cases h <;>
    first
    | exact .inl rfl
    | exact .inr (.inl ⟨hout, rfl⟩)
    | exact .inr (.inr ⟨‹_›, rfl⟩)
    | (obtain ⟨p, hp⟩ := hout _ rfl
       cases hp)
    | (cases flag <;> first | exact .inl rfl | exact .inr (.inl ⟨hout, rfl⟩))

/-- While an initial build goes on, `indexing` is set and nobody reaches a late task. -/
lemma exec_late (h : exec inIndexDir s ⟨flag, p⟩ a = some out) (hindexing : s.indexing = true)
    (ha : a.late = false)
    (hout : a.starting ≤ (out.next.map Task.starting).sum + total Task.starting out.spawned) :
    out.shared.indexing = true ∧ LeadsTo Task.late out = false := by
  revert h
  fun_cases exec inIndexDir s _ a <;> intro h <;> cases h <;>
    first
    | exact ⟨hindexing, rfl⟩
    | contradiction
    | (cases flag <;> first | exact ⟨hindexing, rfl⟩ | contradiction)

/-! ## The invariant -/

/-- What holds between two steps. -/
structure Inv (c : State) : Prop where
  writer : total Task.holdsWrite c.threads = c.shared.gateWriter.toNat
  readers : total Task.holdsRead c.threads = c.shared.gateReaders
  exclusive : c.shared.gateWriter = true → c.shared.gateReaders = 0
  /-- There is at most one initial build. -/
  starting : total Task.starting c.threads ≤ 1
  /-- While it goes on, `indexing` is set and no event has passed the check of it. -/
  early : 0 < total Task.starting c.threads →
    c.shared.indexing = true ∧ ¬ Has (Task.late · = true) c.threads
  clears : c.shared.indexing = true → Has (Task.clears · = true) c.threads
  guards : c.shared.indexing = true → Has (Task.guards · = true) c.threads
  /-- A buffer with something in it will be replayed. -/
  buffered : c.shared.Waiting → Has (Task.replays · = true) c.threads
  scheduled : c.shared.ignoreRefreshScheduled = true → Has (Task.owns · = true) c.threads
  dirty : c.shared.ignoreRulesDirty = true → Has (Task.looks · = true) c.threads
  matching : c.shared.gitignorePending = true → Has (Task.matching · = true) c.threads

lemma inv_start (needsBuild gitignorePending : Bool) : Inv (start needsBuild gitignorePending) := by
  have hempty : ¬ (start needsBuild gitignorePending).shared.Waiting := by
    intro h
    obtain ⟨path, hpath⟩ := h _ rfl
    cases hpath
  cases needsBuild
  · refine ⟨rfl, rfl, fun h => ?_, Nat.zero_le 1, fun h => ?_, fun h => ?_, fun h => ?_,
      fun h => absurd h hempty, fun h => ?_, fun h => ?_, fun _ => ?_⟩
    · cases h
    · cases h
    · cases h
    · cases h
    · cases h
    · cases h
    · exact ⟨_, mem_cons_self, _, mem_cons_self, rfl⟩
  · refine ⟨rfl, rfl, fun h => ?_, Nat.le_refl 1, fun _ => ⟨rfl, ?_⟩, fun _ => ?_, fun _ => ?_,
      fun h => absurd h hempty, fun h => ?_, fun h => ?_, fun _ => ?_⟩
    · cases h
    · rintro ⟨thread, hthread, a, ha, hlate⟩
      rw [start, mem_singleton] at hthread
      subst hthread
      rw [mem_singleton] at ha
      subst ha
      cases hlate
    · exact ⟨_, mem_cons_self, _, mem_cons_self, rfl⟩
    · exact ⟨_, mem_cons_self, _, mem_cons_self, rfl⟩
    · cases h
    · cases h
    · exact ⟨_, mem_cons_self, _, mem_cons_self, rfl⟩

/-! ## One step keeps it -/

section Step

variable {threads : List (List Task)} {tid : ℕ} {rest : List Task} {φ : Task → Bool}

/-- What a task leads to is there afterwards. -/
lemma leadsTo_has (hthread : threads[tid]? = some (a :: rest)) (h : LeadsTo φ out = true) :
    Has (φ · = true) (threads.set tid (out.next ++ rest) ++ out.spawned) := by
  rw [LeadsTo, or_eq_true, any_eq_true, any_eq_true] at h
  rcases h with hnext | ⟨thread, hthread', hany⟩
  · exact Has.of_next out.spawned hthread hnext
  · rw [any_eq_true] at hany
    exact has_append.mpr (.inr ⟨thread, hthread', hany⟩)

/-- A kind of tasks that no task of it leaves without another stays. -/
lemma has_after {P : Prop} (hthread : threads[tid]? = some (a :: rest))
    (hlocal : LeadsTo φ out = true ∨ (P ∧ φ a = false)) (hbefore : P → Has (φ · = true) threads) :
    Has (φ · = true) (threads.set tid (out.next ++ rest) ++ out.spawned) := by
  rcases hlocal with hleads | ⟨hP, ha⟩
  · exact leadsTo_has hthread hleads
  · rcases (hbefore hP).replace out.next out.spawned hthread with hφ | hafter
    · rw [ha] at hφ
      cases hφ
    · exact hafter

lemma total_after (w : Task → ℕ) (out : Outcome Shared Task Note)
    (hthread : threads[tid]? = some (a :: rest)) :
    total w (threads.set tid (out.next ++ rest) ++ out.spawned) + w a =
      total w threads + (out.next.map w).sum + total w out.spawned :=
  total_replace w out.spawned hthread

/-- The first task of a thread counts. -/
lemma le_total (w : Task → ℕ) (hthread : threads[tid]? = some (a :: rest)) :
    w a ≤ total w threads := by
  have h : total w (threads.set tid ([] ++ rest) ++ []) + w a =
      total w threads + (List.map w []).sum + total w [] := total_replace w [] hthread
  simp only [map_nil, sum_nil, total_nil] at h
  omega

end Step

section Step

variable {c c' : State} {tid : ℕ} {choice : Choice} {entry : Option Entry} {o : Option Note}

/-- **A step of a thread keeps the invariant.** -/
theorem Inv.exec (hinv : Inv c) (h : Pool.step (exec inIndexDir) c tid choice = some (c', o)) :
    Inv c' := by
  obtain ⟨a, rest, out, hthread, hexec, rfl, rfl⟩ := Pool.step_cases h
  have hholds : 0 < a.holdsWrite → c.shared.gateWriter = true := by
    intro ha
    have hle := le_total Task.holdsWrite hthread
    rw [hinv.writer] at hle
    cases hw : c.shared.gateWriter
    · rw [hw] at hle
      exact absurd ha (Nat.not_lt.mpr hle)
    · rfl
  have hwrite := exec_holdsWrite hexec hholds
  have hread := exec_holdsRead hexec (hinv.readers ▸ le_total Task.holdsRead hthread)
  have hwrite' := total_after Task.holdsWrite out hthread
  have hread' := total_after Task.holdsRead out hthread
  have hstarting := exec_starting hexec
  have hstarting' := total_after Task.starting out hthread
  have hstartle := le_total Task.starting hthread
  have hflags := exec_flags hexec
  refine ⟨?_, ?_, ?_, ?_, ?_, fun hout => ?_, fun hout => ?_, fun hout => ?_, fun hout => ?_,
    fun hout => ?_, fun hout => ?_⟩
  · have := hinv.writer
    dsimp only at hwrite' ⊢
    omega
  · have := hinv.readers
    dsimp only at hread' ⊢
    omega
  · exact exec_exclusive hexec hinv.exclusive hholds
  · have := hinv.starting
    dsimp only at hstarting' ⊢
    omega
  · intro hpos
    dsimp only at hpos ⊢
    obtain ⟨hindexing, hlate⟩ := hinv.early (by omega)
    have ha : a.late = false := by
      rw [eq_false_iff]
      exact fun ha => hlate (Has.of_head hthread ha)
    have hone := hinv.starting
    obtain ⟨hindexing', hnext⟩ := exec_late hexec hindexing ha (by omega)
    refine ⟨hindexing', fun hafter => ?_⟩
    rcases hafter.before hthread with hbefore | hnew
    · exact hlate hbefore
    · rw [LeadsTo, or_eq_false_iff] at hnext
      rcases hnew with ⟨b, hb, hφ⟩ | ⟨thread, hmem, b, hb, hφ⟩
      · exact absurd (List.any_eq_true.mpr ⟨b, hb, hφ⟩) (by rw [hnext.1]; exact Bool.false_ne_true)
      · exact absurd (List.any_eq_true.mpr ⟨thread, hmem, List.any_eq_true.mpr ⟨b, hb, hφ⟩⟩)
          (by rw [hnext.2]; exact Bool.false_ne_true)
  · exact has_after hthread (hflags.1 hout) hinv.clears
  · exact has_after hthread (hflags.2.1 hout) hinv.guards
  · rcases exec_buffered hexec hout with hleads | hkeep | hguard
    · exact leadsTo_has hthread hleads
    · exact has_after hthread (.inr hkeep) hinv.buffered
    · have hafter : Has (Task.guards · = true)
          (c.threads.set tid (out.next ++ rest) ++ out.spawned) :=
        has_after hthread (.inr hguard) hinv.guards
      exact hafter.mono fun b hb => Task.replays_of_guards hb
  · exact has_after hthread (hflags.2.2.1 hout) hinv.scheduled
  · rcases exec_dirty hexec hout with hleads | hkeep | hclear | hown
    · exact leadsTo_has hthread hleads
    · exact has_after hthread (.inr hkeep) hinv.dirty
    · have hafter : Has (Task.clears · = true)
          (c.threads.set tid (out.next ++ rest) ++ out.spawned) :=
        has_after hthread (.inr hclear) hinv.clears
      exact hafter.mono fun b hb => Task.looks_of_clears hb
    · have hafter : Has (Task.owns · = true)
          (c.threads.set tid (out.next ++ rest) ++ out.spawned) :=
        has_after hthread (.inr hown) hinv.scheduled
      exact hafter.mono fun b hb => Task.looks_of_owns hb
  · exact has_after hthread (hflags.2.2.2 hout) hinv.matching

lemma Inv.arrive (hinv : Inv c) (arrival : Arrival) :
    Inv ⟨c.shared, c.threads ++ [arrival.thread]⟩ := by
  have hw : total Task.holdsWrite [arrival.thread] = 0 := by cases arrival <;> rfl
  have hr : total Task.holdsRead [arrival.thread] = 0 := by cases arrival <;> rfl
  have hs : total Task.starting [arrival.thread] = 0 := by cases arrival <;> rfl
  have hl : ¬ Has (Task.late · = true) [arrival.thread] := by
    rintro ⟨thread, hthread, a, ha, hlate⟩
    rw [mem_singleton] at hthread
    subst hthread
    cases arrival <;>
      (rw [Arrival.thread, mem_singleton] at ha
       subst ha
       cases hlate)
  refine ⟨?_, ?_, hinv.exclusive, ?_, ?_, fun h => has_append.mpr (.inl (hinv.clears h)),
    fun h => has_append.mpr (.inl (hinv.guards h)),
    fun h => has_append.mpr (.inl (hinv.buffered h)),
    fun h => has_append.mpr (.inl (hinv.scheduled h)),
    fun h => has_append.mpr (.inl (hinv.dirty h)),
    fun h => has_append.mpr (.inl (hinv.matching h))⟩
  · rw [total_append, hw, hinv.writer, add_zero]
  · rw [total_append, hr, hinv.readers, add_zero]
  · rw [total_append, hs, add_zero]
    exact hinv.starting
  · intro hpos
    rw [total_append, hs, add_zero] at hpos
    obtain ⟨hindexing, hlate⟩ := hinv.early hpos
    refine ⟨hindexing, fun hafter => ?_⟩
    rcases has_append.mp hafter with hold | hnew
    · exact hlate hold
    · exact hl hnew

/-- **A step of the server keeps the invariant.** -/
theorem Inv.step (hinv : Inv c) {move : Move}
    (h : State.step inIndexDir c move = some (c', entry)) : Inv c' := by
  cases move with
  | task tid choice =>
    rw [State.step, Option.map_eq_some_iff] at h
    obtain ⟨⟨c₁, o⟩, hstep, heq⟩ := h
    simp only [Prod.mk.injEq] at heq
    exact heq.1 ▸ hinv.exec hstep
  | arrive arrival =>
    simp only [State.step, Option.some.injEq, Prod.mk.injEq] at h
    exact h.1 ▸ hinv.arrive arrival

/-- The invariant holds in every state that the server reaches. -/
lemma inv_run {needsBuild gitignorePending : Bool} {moves : List Move} {entries : List Entry}
    (h : State.run inIndexDir (start needsBuild gitignorePending) moves = some (c', entries)) :
    Inv c' :=
  Traced.invariant (fun _ _ _ _ hinv hstep => hinv.step hstep) (inv_start _ _) h

/-- **No build is unpublished when a path is applied.**

**Proof sketch.** The thread that applies holds the gate for reading. An initial build that has not
cleared `indexing` keeps every event from the gate, and everything else that is unpublished holds
the gate for writing. -/
theorem Inv.not_building (hinv : Inv c) {paths : List String} {introducesDir : Bool}
    {rest : List Task} (hthread : c.threads[tid]? = some (.applyPaths paths introducesDir :: rest)) :
    c.building = false := by
  rw [eq_false_iff]
  intro hbuilding
  rw [State.building, any_eq_true] at hbuilding
  obtain ⟨thread, hmem, hany⟩ := hbuilding
  rw [any_eq_true] at hany
  obtain ⟨a, ha, hunpublished⟩ := hany
  have hkind : 0 < a.starting ∨ 0 < a.holdsWrite := by
    cases a <;> first | exact .inl Nat.one_pos | exact .inr Nat.one_pos | cases hunpublished
  rcases hkind with hstarting | hwrite
  · have hpos : 0 < total Task.starting c.threads := total_pos_iff.mpr ⟨thread, hmem, a, ha, hstarting⟩
    exact (hinv.early hpos).2 (Has.of_head hthread rfl)
  · have hpos : 0 < total Task.holdsWrite c.threads := total_pos_iff.mpr ⟨thread, hmem, a, ha, hwrite⟩
    have hreaders := le_total Task.holdsRead hthread
    rw [hinv.readers] at hreaders
    rw [hinv.writer] at hpos
    cases hw : c.shared.gateWriter
    · rw [hw] at hpos
      cases hpos
    · rw [hinv.exclusive hw] at hreaders
      cases hreaders

end Step

end Handoff

end Tgrep
