import Tgrep.Serve.HandoffInvariant

/-!
# No change seen during a build is lost

The path of an event is in the hands of a thread, in the buffer, or with a full refresh, until it is
applied or such a refresh starts.

## Main definitions

* `Handoff.State.Kept`: a path is on its way.
* `Handoff.State.RefreshComing`: a full refresh will start.
* `Handoff.Entry.Applies`, `Handoff.Entry.Refreshes`: what ends the way of a path.

## Main results

* `Handoff.Inv.kept_step`: one step keeps a path, applies it, or starts a full refresh.
* `Handoff.changes_kept`: no change seen during a build is lost.
* `Handoff.applied_before_publication`: a change may be applied to an index that is older than it.
-/

namespace Tgrep

open List Option FinMap

namespace Handoff

open Threads

/-- A task that has a path in hand, with at least the claim of an event. -/
def Task.holds (path : String) (introducesDir : Bool) : Task → Prop
  | .handleFsEvent event | .deferHint event | .deferEvents event | .enterGate event
  | .checkPending event => path ∈ event.paths ∧ (introducesDir = true → event.introducesDir = true)
  | .applyPaths paths dir => path ∈ paths ∧ (introducesDir = true → dir = true)
  | .replayLoop paths _ => ∃ dir, paths.get? path = some dir ∧ (introducesDir = true → dir = true)
  | _ => False

/-- The path is in the buffer, or the buffer had too much. -/
def Shared.Deferred (s : Shared) (path : String) (introducesDir : Bool) : Prop :=
  ∀ m, s.deferredEvents = some m →
    ∃ dir, m.get? path = some dir ∧ (introducesDir = true → dir = true)

lemma Task.refreshes_or_holdsWrite_or_starting {a : Task} (h : a.matching = true) :
    a.refreshes = true ∨ 0 < a.holdsWrite ∨ 0 < a.starting := by
  cases a <;>
    first
    | exact .inl rfl
    | exact .inr (.inl Nat.one_pos)
    | exact .inr (.inr Nat.one_pos)
    | cases h

variable {inIndexDir : String → Bool} {s : Shared} {flag : Bool} {p : String} {a : Task}
  {out : Outcome Shared Task Note} {path : String} {introducesDir : Bool}

/-! ## The buffer -/

/-- What is in the buffer stays when an event is put into it. -/
lemma get?_foldl_deferPath (dir : Bool) (paths : List String) {m : FinMap String Bool}
    (h : ∃ d, m.get? path = some d ∧ (introducesDir = true → d = true)) :
    ∃ d, (paths.foldl (deferPath inIndexDir dir) m).get? path = some d ∧
      (introducesDir = true → d = true) := by
  induction paths generalizing m with
  | nil => exact h
  | cons p paths ih =>
    refine ih ?_
    obtain ⟨d, hd, himp⟩ := h
    rw [deferPath]
    split_ifs with hdir
    · exact ⟨d, hd, himp⟩
    · rw [get?_insert]
      split_ifs with hp
      · subst hp
        refine ⟨_, rfl, fun hi => ?_⟩
        rw [hd, getD_some, himp hi, Bool.true_or]
      · exact ⟨d, hd, himp⟩

/-- The paths of an event are in the buffer after it was put there. -/
lemma get?_foldl_deferPath_of_mem (dir : Bool) {paths : List String} (m : FinMap String Bool)
    (hpath : path ∈ paths) (hdir : inIndexDir path = false) :
    ∃ d, (paths.foldl (deferPath inIndexDir dir) m).get? path = some d ∧ (dir = true → d = true) := by
  induction paths generalizing m with
  | nil => cases hpath
  | cons p paths ih =>
    rcases List.mem_cons.mp hpath with rfl | hmem
    · refine get?_foldl_deferPath dir paths ?_
      rw [deferPath, if_neg (by rw [hdir]; exact Bool.false_ne_true), get?_insert, if_pos rfl]
      exact ⟨_, rfl, fun hi => by rw [hi, Bool.or_true]⟩
    · exact ih _ hmem

lemma deferred_deferInto (event : FsEvent) (h : s.Deferred path introducesDir) :
    Shared.Deferred { s with deferredEvents := deferInto inIndexDir event s.deferredEvents } path
      introducesDir := by
  intro m hm
  dsimp only at hm
  rw [deferInto.eq_def] at hm
  split at hm
  · cases hm
  · rename_i m' hm'
    split_ifs at hm
    obtain rfl := some.inj hm
    exact get?_foldl_deferPath _ _ (h m' hm')

lemma deferred_deferInto_of_mem {event : FsEvent} (hpath : path ∈ event.paths)
    (hdir : inIndexDir path = false) (himp : introducesDir = true → event.introducesDir = true) :
    Shared.Deferred { s with deferredEvents := deferInto inIndexDir event s.deferredEvents } path
      introducesDir := by
  intro m hm
  dsimp only at hm
  rw [deferInto.eq_def] at hm
  split at hm
  · cases hm
  · rename_i m' hm'
    split_ifs at hm
    obtain rfl := some.inj hm
    obtain ⟨d, hd, hd'⟩ := get?_foldl_deferPath_of_mem event.introducesDir m' hpath hdir
    exact ⟨d, hd, fun hi => hd' (himp hi)⟩

/-! ## One task -/

variable (h : exec inIndexDir s ⟨flag, p⟩ a = some out)

include h

/-- A refresh that is due stays due until it starts. -/
lemma exec_dirty_due (hs : s.ignoreRulesDirty = true) :
    out.shared.ignoreRulesDirty = true ∨ LeadsTo Task.refreshes out = true := by
  revert h
  fun_cases exec inIndexDir s _ a <;> intro h <;> cases h <;>
    first
    | exact .inl hs
    | exact .inl rfl
    | exact .inr rfl

lemma exec_refreshes (ha : a.refreshes = true) :
    out.shared.ignoreRulesDirty = true ∨ LeadsTo Task.refreshes out = true ∨
      out.note = some .refreshStarts := by
  revert h
  fun_cases exec inIndexDir s _ a <;> intro h <;> cases h <;>
    first
    | exact .inl rfl
    | exact .inr (.inl rfl)
    | exact .inr (.inr rfl)
    | (cases ha
       exact .inr (.inl rfl))
    | (cases ha
       contradiction)
    | cases ha

/-- A path in the buffer stays there, or a replay takes it, or one full refresh does. -/
lemma exec_deferred (hs : s.Deferred path introducesDir) :
    out.shared.Deferred path introducesDir ∨
      (∃ b ∈ out.next, b.holds path introducesDir) ∨ LeadsTo Task.refreshes out = true := by
  revert h
  fun_cases exec inIndexDir s _ a <;> intro h <;> cases h <;>
    first
    | exact .inl hs
    | exact .inl (deferred_deferInto _ hs)
    | exact .inr (.inl ⟨_, mem_cons_self, hs _ ‹_›⟩)
    | exact .inr (.inr rfl)

/-- A path in hand goes on: to the buffer, to the next task, to a refresh, or it is applied. Only
an event without a matcher is dropped. -/
lemma exec_holds (ha : a.holds path introducesDir) (hdir : inIndexDir path = false) :
    out.shared.Deferred path introducesDir ∨
      (∃ b ∈ out.next, b.holds path introducesDir) ∨ LeadsTo Task.refreshes out = true ∨
      (∃ dir, out.note = some (.applied path dir) ∧ (introducesDir = true → dir = true)) ∨
      (s.gitignorePending = true ∧ ∃ event, a = .checkPending event) := by
  cases a with
  | handleFsEvent event =>
    rw [exec] at h
    split_ifs at h <;> cases h
    · exact .inr (.inr (.inl rfl))
    · exact .inr (.inl ⟨_, mem_cons_self, ha⟩)
  | deferHint event =>
    rw [exec] at h
    split_ifs at h <;> cases h <;> exact .inr (.inl ⟨_, mem_cons_self, ha⟩)
  | deferEvents event =>
    rw [exec] at h
    split_ifs at h <;> cases h
    · exact .inl (deferred_deferInto_of_mem ha.1 hdir ha.2)
    · exact .inr (.inl ⟨_, mem_cons_self, ha⟩)
  | enterGate event =>
    rw [exec] at h
    split_ifs at h
    cases h
    exact .inr (.inl ⟨_, mem_cons_self, ha⟩)
  | checkPending event =>
    rw [exec] at h
    split_ifs at h with hpending <;> cases h
    · exact .inr (.inr (.inr (.inr ⟨hpending, event, rfl⟩)))
    · refine .inr (.inl ⟨_, mem_cons_self, ?_, ha.2⟩)
      rw [mem_filter, hdir]
      exact ⟨ha.1, rfl⟩
  | applyPaths paths dir =>
    obtain ⟨hmem, himp⟩ := ha
    cases paths with
    | nil => cases hmem
    | cons p paths =>
      rw [exec] at h
      cases h
      rcases List.mem_cons.mp hmem with rfl | hmem
      · exact .inr (.inr (.inr (.inl ⟨dir, rfl, himp⟩)))
      · exact .inr (.inl ⟨_, mem_append_right _ mem_cons_self, hmem, himp⟩)
  | replayLoop paths missingSubtree =>
    obtain ⟨dir, hget, himp⟩ := ha
    rw [exec] at h
    split at h
    · rename_i dir' hget'
      by_cases hp : path = p
      · subst hp
        rw [hget] at hget'
        obtain rfl := some.inj hget'
        split_ifs at h <;> cases h
        · exact .inr (.inr (.inl rfl))
        · exact .inr (.inl ⟨_, mem_cons_self, mem_cons_self, himp⟩)
      · have hrest : ∃ d, (paths.erase p).get? path = some d ∧
            (introducesDir = true → d = true) := by
          rw [get?_erase, if_neg hp]
          exact ⟨dir, hget, himp⟩
        split_ifs at h <;> cases h
        · exact .inr (.inl ⟨_, mem_cons_self, hrest⟩)
        · exact .inr (.inl ⟨_, mem_cons_of_mem _ mem_cons_self, hrest⟩)
    · split_ifs at h with hempty
      · have hsome : paths.isEmpty = true := by simpa using hempty
        rw [FinMap.isEmpty_iff.mp hsome path] at hget
        cases hget
      · have hsome : paths.isEmpty = true := by simpa using hempty
        rw [FinMap.isEmpty_iff.mp hsome path] at hget
        cases hget
  | _ => exact ha.elim

/-- A path is applied by the task that applies. -/
lemma applyPaths_of_applied {dir : Bool}
    (hnote : out.note = some (.applied path dir)) : ∃ paths dir', a = .applyPaths paths dir' := by
  revert h
  fun_cases exec inIndexDir s _ a <;> intro h <;> cases h <;>
    first
    | exact ⟨_, _, rfl⟩
    | cases hnote

/-- Events arrive from outside. -/
lemma not_arrived (event : FsEvent) : out.note ≠ some (.arrived event) := by
  revert h
  fun_cases exec inIndexDir s _ a <;> intro h hnote <;> cases h <;> cases hnote

lemma refreshes_of_rulesChanged
    (hnote : out.note = some .rulesChanged) : LeadsTo Task.refreshes out = true := by
  revert h
  fun_cases exec inIndexDir s _ a <;> intro h <;> cases h <;>
    first
    | exact rfl
    | cases hnote

omit h

/-! ## All threads -/

/-- A full refresh will start: a thread comes to it, or the flag is set and somebody looks at it. -/
def State.RefreshComing (c : State) : Prop :=
  (c.shared.ignoreRulesDirty = true ∧ Has (Task.looks · = true) c.threads) ∨
    Has (Task.refreshes · = true) c.threads

/-- A path is in somebody's hands, it is in the buffer while a replay is ahead, or a full refresh
will start. -/
def State.Kept (c : State) (path : String) (introducesDir : Bool) : Prop :=
  Has (·.holds path introducesDir) c.threads ∨
    (c.shared.Deferred path introducesDir ∧ Has (Task.replays · = true) c.threads) ∨
    c.RefreshComing

/-- A full refresh starts. -/
def Entry.Refreshes (entry : Entry) : Prop :=
  entry.note = .refreshStarts

/-- The path is applied, with at least the claim of an event, while no build or reload that has
begun is unpublished. -/
def Entry.Applies (path : String) (introducesDir : Bool) (entry : Entry) : Prop :=
  entry.building = false ∧
    ∃ dir, entry.note = .applied path dir ∧ (introducesDir = true → dir = true)

section Step

variable {c c' : State} {choice : Choice} {move : Move} {entry : Option Entry}

/-- A full refresh that will start does so when somebody leaves it. -/
lemma Inv.refreshComing_step (hinv : Inv c) (h : State.step inIndexDir c move = some (c', entry))
    (hc : c.RefreshComing) : c'.RefreshComing ∨ ∃ e, entry = some e ∧ e.Refreshes := by
  have hdirty : c'.shared.ignoreRulesDirty = true → c'.RefreshComing := fun hd =>
    .inl ⟨hd, (hinv.step h).dirty hd⟩
  cases move with
  | arrive arrival =>
    simp only [State.step, some.injEq, Prod.mk.injEq] at h
    obtain ⟨rfl, -⟩ := h
    rcases hc with ⟨hd, -⟩ | hrefreshes
    · exact .inl (hdirty hd)
    · exact .inl (.inr (has_append.mpr (.inl hrefreshes)))
  | task tid choice =>
    rw [State.step, map_eq_some_iff] at h
    obtain ⟨⟨c₁, o⟩, hstep, heq⟩ := h
    simp only [Prod.mk.injEq] at heq
    obtain ⟨rfl, rfl⟩ := heq
    obtain ⟨a, rest, out, hthread, hexec, rfl, rfl⟩ := Pool.step_cases hstep
    rcases hc with ⟨hd, -⟩ | hrefreshes
    · rcases exec_dirty_due hexec hd with hd' | hleads
      · exact .inl (hdirty hd')
      · exact .inl (.inr (leadsTo_has hthread hleads))
    · rcases hrefreshes.replace out.next out.spawned hthread with ha | hafter
      · rcases exec_refreshes hexec ha with hd' | hleads | hnote
        · exact .inl (hdirty hd')
        · exact .inl (.inr (leadsTo_has hthread hleads))
        · exact .inr ⟨⟨.refreshStarts, c.building⟩, by rw [hnote]; rfl, rfl⟩
      · exact .inl (.inr hafter)

/-- An event that is dropped, as there is no matcher, leaves its paths to a full refresh.

**Proof sketch.** Somebody will publish a matcher. It is no initial build, since no event gets to
the gate then, and no refresh that has walked, since that holds the gate for writing. -/
lemma Inv.refreshes_of_pending (hinv : Inv c) (hpending : c.shared.gitignorePending = true)
    {tid : ℕ} {event : FsEvent} {rest : List Task}
    (hthread : c.threads[tid]? = some (.checkPending event :: rest)) :
    Has (Task.refreshes · = true) c.threads := by
  obtain ⟨thread, hmem, a, ha, hmatching⟩ := hinv.matching hpending
  have hkind : a.refreshes = true ∨ 0 < a.holdsWrite ∨ 0 < a.starting :=
    Task.refreshes_or_holdsWrite_or_starting hmatching
  rcases hkind with hrefreshes | hwrite | hstarting
  · exact ⟨thread, hmem, a, ha, hrefreshes⟩
  · have hpos : 0 < total Task.holdsWrite c.threads :=
      total_pos_iff.mpr ⟨thread, hmem, a, ha, hwrite⟩
    rw [hinv.writer] at hpos
    have hreaders : 1 ≤ c.shared.gateReaders := hinv.readers ▸ le_total Task.holdsRead hthread
    cases hw : c.shared.gateWriter
    · rw [hw] at hpos
      cases hpos
    · rw [hinv.exclusive hw] at hreaders
      cases hreaders
  · have hpos : 0 < total Task.starting c.threads :=
      total_pos_iff.mpr ⟨thread, hmem, a, ha, hstarting⟩
    exact ((hinv.early hpos).2 (Has.of_head hthread rfl)).elim

/-- **One step keeps a path**, applies it, or starts a full refresh. -/
theorem Inv.kept_step (hinv : Inv c) (h : State.step inIndexDir c move = some (c', entry))
    (hdir : inIndexDir path = false) (hc : c.Kept path introducesDir) :
    c'.Kept path introducesDir ∨
      ∃ e, entry = some e ∧ (e.Refreshes ∨ e.Applies path introducesDir) := by
  have hinv' := hinv.step h
  have hdeferred : c'.shared.Deferred path introducesDir → c'.Kept path introducesDir := by
    intro hd
    refine .inr (.inl ⟨hd, hinv'.buffered fun m hm => ?_⟩)
    obtain ⟨dir, hget, -⟩ := hd m hm
    exact ⟨path, mem_keys_of_get? hget⟩
  by_cases hcoming : c.RefreshComing
  · rcases hinv.refreshComing_step h hcoming with hc' | ⟨e, he, hrefreshes⟩
    · exact .inl (.inr (.inr hc'))
    · exact .inr ⟨e, he, .inl hrefreshes⟩
  cases move with
  | arrive arrival =>
    simp only [State.step, some.injEq, Prod.mk.injEq] at h
    obtain ⟨rfl, -⟩ := h
    rcases hc with hhand | ⟨hd, -⟩ | hc
    · exact .inl (.inl (has_append.mpr (.inl hhand)))
    · exact .inl (hdeferred hd)
    · exact absurd hc hcoming
  | task tid choice =>
    rw [State.step, map_eq_some_iff] at h
    obtain ⟨⟨c₁, o⟩, hstep, heq⟩ := h
    simp only [Prod.mk.injEq] at heq
    obtain ⟨rfl, rfl⟩ := heq
    obtain ⟨a, rest, out, hthread, hexec, rfl, rfl⟩ := Pool.step_cases hstep
    rcases hc with hhand | ⟨hd, -⟩ | hc
    · rcases hhand.replace out.next out.spawned hthread with ha | hafter
      · rcases exec_holds hexec ha hdir with hd | hnext | hleads | ⟨dir, hnote, himp⟩ |
          ⟨hpending, event, rfl⟩
        · exact .inl (hdeferred hd)
        · exact .inl (.inl (Has.of_next out.spawned hthread hnext))
        · exact .inl (.inr (.inr (.inr (leadsTo_has hthread hleads))))
        · refine .inr ⟨⟨.applied path dir, c.building⟩, by rw [hnote]; rfl, .inr ⟨?_, dir, rfl, himp⟩⟩
          obtain ⟨paths, dir', rfl⟩ := applyPaths_of_applied hexec hnote
          exact hinv.not_building hthread
        · exact absurd (.inr (hinv.refreshes_of_pending hpending hthread)) hcoming
      · exact .inl (.inl hafter)
    · rcases exec_deferred hexec hd with hd | hnext | hleads
      · exact .inl (hdeferred hd)
      · exact .inl (.inl (Has.of_next out.spawned hthread hnext))
      · exact .inl (.inr (.inr (.inr (leadsTo_has hthread hleads))))
    · exact absurd hc hcoming

end Step

/-! ## Runs -/

/-- No thread has anything left to do. -/
def State.Quiet (c : State) : Prop :=
  ∀ thread ∈ c.threads, thread = []

lemma State.Quiet.not_has {c : State} (h : c.Quiet) (φ : Task → Prop) : ¬ Has φ c.threads := by
  rintro ⟨thread, hthread, a, ha, -⟩
  rw [h thread hthread] at ha
  cases ha

lemma State.quiet_of_all {c : State} (h : (c.threads.all fun thread => thread.isEmpty) = true) :
    c.Quiet :=
  fun thread hthread => List.isEmpty_iff.mp (List.all_eq_true.mp h thread hthread)

section Run

variable {c c' : State} {moves : List Move} {entries : List Entry}

/-- A run keeps a path, applies it, or starts a full refresh. -/
lemma Inv.kept_run (hinv : Inv c) (h : State.run inIndexDir c moves = some (c', entries))
    (hdir : inIndexDir path = false) (hc : c.Kept path introducesDir) :
    c'.Kept path introducesDir ∨
      ∃ e ∈ entries, e.Refreshes ∨ e.Applies path introducesDir :=
  Traced.run_until (P := Inv) (T := fun c => c.Kept path introducesDir)
    (D := fun e => e.Refreshes ∨ e.Applies path introducesDir)
    (fun _ _ _ _ hi hstep => ⟨hi.step hstep, hi.kept_step hstep hdir⟩) hinv hc h

lemma Inv.refreshComing_run (hinv : Inv c) (h : State.run inIndexDir c moves = some (c', entries))
    (hc : c.RefreshComing) : c'.RefreshComing ∨ ∃ e ∈ entries, e.Refreshes :=
  Traced.run_until (P := Inv) (T := State.RefreshComing) (D := Entry.Refreshes)
    (fun _ _ _ _ hi hstep => ⟨hi.step hstep, hi.refreshComing_step hstep⟩) hinv hc h

/-- A note is left by an arrival, or by a task. -/
lemma noted_cases {move : Move} {note : Note} {building : Bool}
    (h : State.step inIndexDir c move = some (c', some ⟨note, building⟩)) :
    (∃ arrival : Arrival, c' = ⟨c.shared, c.threads ++ [arrival.thread]⟩ ∧
      arrival.note = some note) ∨
      ∃ tid choice, Pool.step (exec inIndexDir) c tid choice = some (c', some note) := by
  cases move with
  | arrive arrival =>
    simp only [State.step, some.injEq, Prod.mk.injEq, map_eq_some_iff] at h
    obtain ⟨rfl, note', hnote, heq⟩ := h
    cases heq
    exact .inl ⟨arrival, rfl, hnote⟩
  | task tid choice =>
    rw [State.step, map_eq_some_iff] at h
    obtain ⟨⟨c₁, o⟩, hstep, heq⟩ := h
    simp only [Prod.mk.injEq, map_eq_some_iff] at heq
    obtain ⟨rfl, note', rfl, heq⟩ := heq
    cases heq
    exact .inr ⟨tid, choice, hstep⟩

/-- An event that arrives has its paths in hand. -/
lemma holds_of_arrived {move : Move} {event : FsEvent} {building : Bool}
    (h : State.step inIndexDir c move = some (c', some ⟨.arrived event, building⟩))
    (hpath : path ∈ event.paths) : Has (·.holds path event.introducesDir) c'.threads := by
  rcases noted_cases h with ⟨arrival, rfl, hnote⟩ | ⟨tid, choice, hstep⟩
  · cases arrival <;> cases hnote
    exact has_append.mpr (.inr ⟨_, mem_cons_self, _, mem_cons_self, hpath, id⟩)
  · obtain ⟨a, rest, out, -, hexec, -, hnote⟩ := Pool.step_cases hstep
    exact absurd hnote.symm (not_arrived hexec event)

/-- An event about ignore rules leads to setting the flag. -/
lemma refreshComing_of_rulesChanged {move : Move} {building : Bool}
    (h : State.step inIndexDir c move = some (c', some ⟨.rulesChanged, building⟩)) :
    c'.RefreshComing := by
  rcases noted_cases h with ⟨arrival, rfl, hnote⟩ | ⟨tid, choice, hstep⟩
  · cases arrival <;> cases hnote
  · obtain ⟨a, rest, out, hthread, hexec, rfl, hnote⟩ := Pool.step_cases hstep
    exact .inr (leadsTo_has hthread (refreshes_of_rulesChanged hexec hnote.symm))

end Run

/-- **No change seen during a build is lost.** In every run of the server, every path of an event is
applied afterwards, while no build or reload that has begun is unpublished, or a full refresh starts
afterwards, or the path is still on its way to one of them. Every event about ignore rules is
followed by a full refresh, or one is still coming. When no thread has anything left to do, nothing
is on its way.

**Proof sketch.** An event has its paths in hand when it arrives, and one step keeps a path until it
is applied or a refresh starts. The invariant says that what waits for somebody is waited for: a
buffer with something in it has a replay ahead, and the flag is looked at. -/
theorem changes_kept (inIndexDir : String → Bool) (needsBuild gitignorePending : Bool)
    (moves : List Move) (c : State) (entries : List Entry)
    (h : State.run inIndexDir (start needsBuild gitignorePending) moves = some (c, entries)) :
    (∀ before event building after, entries = before ++ ⟨.arrived event, building⟩ :: after →
      ∀ path ∈ event.paths, inIndexDir path = false →
        (∃ e ∈ after, e.Applies path event.introducesDir) ∨ (∃ e ∈ after, e.Refreshes) ∨
          c.Kept path event.introducesDir) ∧
    (∀ before building after, entries = before ++ ⟨.rulesChanged, building⟩ :: after →
      (∃ e ∈ after, e.Refreshes) ∨ c.RefreshComing) ∧
    (c.Quiet → ¬ c.RefreshComing ∧ ∀ path introducesDir, ¬ c.Kept path introducesDir) := by
  refine ⟨?_, ?_, fun hquiet => ?_⟩
  · rintro before event building after rfl path hpath hdir
    obtain ⟨ms₁, m, ms₂, c₁, c₂, hrun₁, hstep, hrun₂⟩ := Traced.run_split h
    have hinv₂ : Inv c₂ := (inv_run hrun₁).step hstep
    rcases hinv₂.kept_run hrun₂ hdir (.inl (holds_of_arrived hstep hpath)) with
      hkept | ⟨e, he, hrefreshes | happlies⟩
    · exact .inr (.inr hkept)
    · exact .inr (.inl ⟨e, he, hrefreshes⟩)
    · exact .inl ⟨e, he, happlies⟩
  · rintro before building after rfl
    obtain ⟨ms₁, m, ms₂, c₁, c₂, hrun₁, hstep, hrun₂⟩ := Traced.run_split h
    have hinv₂ : Inv c₂ := (inv_run hrun₁).step hstep
    rcases hinv₂.refreshComing_run hrun₂ (refreshComing_of_rulesChanged hstep) with
      hcoming | hrefreshes
    · exact .inr hcoming
    · exact .inl hrefreshes
  · have hcoming : ¬ c.RefreshComing := by
      rintro (⟨-, hlooks⟩ | hrefreshes)
      · exact hquiet.not_has _ hlooks
      · exact hquiet.not_has _ hrefreshes
    refine ⟨hcoming, ?_⟩
    rintro path introducesDir (hhand | ⟨-, hreplays⟩ | hc)
    · exact hquiet.not_has _ hhand
    · exact hquiet.not_has _ hreplays
    · exact hcoming hc

/-- A run in which an event arrives when an initial build has caught up and has not cleared
`indexing` yet. -/
def lateEventRun : List Move :=
  let build := Move.task 0 ⟨false, ""⟩
  let event := Move.task 2 ⟨false, ""⟩
  let scan := Move.task 1 ⟨false, "a"⟩
  List.replicate 12 build ++ .arrive (.event ⟨["a"], false⟩) :: List.replicate 3 event ++
    List.replicate 2 build ++ List.replicate 10 scan

/-- The notes that it leaves. -/
def lateEventNotes : List Entry :=
  [⟨.published, true⟩, ⟨.refreshStarts, false⟩, ⟨.published, false⟩,
    ⟨.arrived ⟨["a"], false⟩, false⟩, ⟨.applied "a" false, false⟩]

/-- In this run the event is applied. -/
theorem changes_kept_late_event :
    ∃ c, State.run (fun _ => false) (start true false) lateEventRun = some (c, lateEventNotes) ∧
      ((∃ e ∈ [⟨.applied "a" false, false⟩], Entry.Applies "a" false e) ∨
        (∃ e ∈ [⟨.applied "a" false, false⟩], Entry.Refreshes e) ∨ c.Kept "a" false) := by
  refine ⟨_, rfl, ?_⟩
  exact (changes_kept (fun _ => false) true false lateEventRun _ lateEventNotes rfl).1
    [⟨.published, true⟩, ⟨.refreshStarts, false⟩, ⟨.published, false⟩] ⟨["a"], false⟩ false
    [⟨.applied "a" false, false⟩] rfl "a" mem_cons_self rfl

/-- **An event can be applied to an index that was published before it arrived**: in this run nothing
is published and no refresh starts after it arrived, and nothing is left to do. -/
theorem applied_before_publication :
    ∃ c before, State.run (fun _ => false) (start true false) lateEventRun =
        some (c, before ++
          [⟨.arrived ⟨["a"], false⟩, false⟩, ⟨.applied "a" false, false⟩]) ∧
      c.Quiet ∧ c.shared.deferredEvents = some .empty := by
  refine ⟨_, [⟨.published, true⟩, ⟨.refreshStarts, false⟩, ⟨.published, false⟩], rfl, ?_, rfl⟩
  exact State.quiet_of_all rfl

end Handoff
end Tgrep
