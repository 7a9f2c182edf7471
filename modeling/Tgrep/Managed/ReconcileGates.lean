import Tgrep.Build.Batches
import Tgrep.Data.Run
import Tgrep.Managed.Permit

/-!
# The gates of a reconciliation

The workers of all reconciliations of a namespace share three resources: threads, parent handles
and bytes to read. A worker acquires some of them before it uses them, waits while there is too
little left, and gives up when its operation is cancelled. What it acquired is an admission, which
returns its charge when it is dropped.

## Main definitions

* `ReconciliationUsage`, `ReconcileAdmission`: what is charged to the gates, and to whom.
* `ReconcilePermit.parallelism`, `ReconcilePermit.admitParents`, `ReconcilePermit.admitRead`: a
  look at a gate: the body of the loop in which a worker waits.
* `ReconcileAdmission.drop`: what dropping an admission returns.
* `Reconciliation`, `Reconciliation.step`: the gates with the permits and the workers, and every
  step that some worker can take.

## Main results

* `Acquire.look_admitted`, `ReconcileAdmission.drop_spec`: what a look that admits and a drop do.
* `Reconciliation.Invariant.step`: the gates hold the charges of the admissions, and no gate
  exceeds its limit.
* `Reconciliation.gates_hold`: what holds in every state that the workers reach.

## Implementation notes

A wait ends on a notification, after a while, or for no reason, so that a worker may look again at
any time. What happens to the private memory of a permit outside the gates is a step that sets it
to anything. The times that are waited are left out.
-/

namespace Tgrep.Managed

open Option List Ledger

/-! ## The gates -/

/-- The three resources. -/
inductive Gate
  | workers
  | parentHandles
  | readBytes
  deriving DecidableEq

/-- The parent handles that all workers together may hold. -/
def RECONCILE_PARENT_HANDLES (windows : Bool) : ℕ := if windows then 8192 else 256

/-- What is charged. -/
structure ReconciliationUsage where
  workers : ℕ := 0
  parentHandles : ℕ := 0
  readBytes : ℕ := 0
  deriving DecidableEq

/-- What is charged to one gate. -/
def ReconciliationUsage.charged (u : ReconciliationUsage) : Gate → ℕ
  | .workers => u.workers
  | .parentHandles => u.parentHandles
  | .readBytes => u.readBytes

/-- The gates: the number of workers that the machine allows, and what is charged. -/
structure ReconciliationResources where
  workers : ℕ
  windows : Bool
  state : ReconciliationUsage := {}
  deriving DecidableEq

namespace ReconciliationResources

/-- The gates of a machine with the given parallelism, if that is known. -/
def new (availableParallelism : Option ℕ) (windows : Bool) : ReconciliationResources where
  workers := min (availableParallelism.getD 1) 64
  windows := windows

/-- The limit of a gate. -/
def limit (r : ReconciliationResources) : Gate → ℕ
  | .workers => r.workers
  | .parentHandles => RECONCILE_PARENT_HANDLES r.windows
  | .readBytes => INDEX_BUILD_BATCH_BYTES

end ReconciliationResources

/-- A permit, with what its operation has acquired. -/
structure ReconcilePermit extends WorkPermit where
  parentHandles : ℕ := 0
  peakParentHandles : ℕ := 0
  readBytes : ℕ := 0
  peakReadBytes : ℕ := 0
  peakWorkers : ℕ := 0
  deriving DecidableEq

/-- What a worker has acquired. -/
inductive ReconcileAdmission
  | parallelism (workers : ℕ)
  | parents (handles charged : ℕ)
  | read (charged bytes : ℕ) (memory : MemoryCharge)
  deriving DecidableEq

/-- What an admission charges to a gate. -/
def ReconcileAdmission.charge : ReconcileAdmission → Gate → ℕ
  | .parallelism workers, .workers => workers
  | .parents _ charged, .parentHandles => charged
  | .read charged _ _, .readBytes => charged
  | _, _ => 0

/-- The outcome of a look at a gate. -/
inductive Look
  /-- There is enough left. -/
  | admitted (state : ReconciliationUsage) (p : ReconcilePermit) (a : ReconcileAdmission)
  /-- There is too little left, and the worker waits. -/
  | short
  | refused (e : Error)

namespace ReconcilePermit

variable (p : ReconcilePermit) (r : ReconciliationResources)

/-- As many threads as are wanted and left, but at least one. -/
def parallelism (wanted : ℕ) : Look :=
  let workers := min (max wanted 1) (r.workers - r.state.workers)
  if workers ≠ 0 then
    .admitted { r.state with workers := Counter.wrappingAdd r.state.workers workers }
      { p with peakWorkers := max p.peakWorkers workers } (.parallelism workers)
  else .short

/-- The handles of a chain of parents. A chain that exceeds the limit is charged all of it. -/
def admitParents (handles : ℕ) : Look :=
  let charged := min handles (RECONCILE_PARENT_HANDLES r.windows)
  if r.state.parentHandles ≤ RECONCILE_PARENT_HANDLES r.windows - charged then
    let used := Counter.wrappingAdd p.parentHandles handles
    .admitted { r.state with parentHandles := Counter.wrappingAdd r.state.parentHandles charged }
      { p with parentHandles := used, peakParentHandles := max p.peakParentHandles used }
      (.parents handles charged)
  else .short

/-- The bytes of a read, which the operation also needs as private memory. A worker waits for
private memory only while its operation has reads that can return some. -/
def admitRead (id : Id) (bytes : ℕ) : Look :=
  let charged := min bytes INDEX_BUILD_BATCH_BYTES
  if r.state.readBytes ≤ INDEX_BUILD_BATCH_BYTES - charged then
    match p.tryMemory id bytes with
    | (.ok memory, q) =>
      let used := Counter.wrappingAdd p.readBytes bytes
      .admitted { r.state with readBytes := Counter.wrappingAdd r.state.readBytes charged }
        { p with toWorkPermit := q, readBytes := used, peakReadBytes := max p.peakReadBytes used }
        (.read charged bytes memory)
    | (.error e, _) =>
      if e.reasonCode = "reserved-private-memory-exhausted" ∧ p.readBytes ≠ 0 then .short
      else .refused e
  else .short

end ReconcilePermit

/-- The calls that acquire. -/
inductive Acquire
  | parallelism (wanted : ℕ)
  | admitParents (handles : ℕ)
  | admitRead (bytes : ℕ)
  deriving DecidableEq

/-- One look at the gate that a call is for. -/
def Acquire.look (r : ReconciliationResources) (p : ReconcilePermit) (id : Id) : Acquire → Look
  | .parallelism wanted => p.parallelism r wanted
  | .admitParents handles => p.admitParents r handles
  | .admitRead bytes => p.admitRead r id bytes

/-- Dropping an admission: what is charged afterwards, and the permit. There is no outcome if the
memory of a read could not be returned. -/
def ReconcileAdmission.drop (state : ReconciliationUsage) (p : ReconcilePermit)
    (control : Control) : ReconcileAdmission → Option (ReconciliationUsage × ReconcilePermit)
  | .parallelism workers =>
    some ({ state with workers := Counter.wrappingSub state.workers workers }, p)
  | .parents handles charged =>
    some ({ state with parentHandles := Counter.wrappingSub state.parentHandles charged },
      { p with parentHandles := Counter.wrappingSub p.parentHandles handles })
  | .read charged bytes memory =>
    match memory.resize p.toWorkPermit 0 control with
    | (.error _, _, _) => none
    | (.ok (), memory, q) =>
      some ({ state with readBytes := Counter.wrappingSub state.readBytes charged },
        { p with
          toWorkPermit := memory.drop q
          readBytes := Counter.wrappingSub p.readBytes bytes })

/-! ## What a look and a drop can do -/

section Cases

variable {r : ReconciliationResources} {p q : ReconcilePermit} {owner : Id}
  {state : ReconciliationUsage} {a : ReconcileAdmission}

/-- The limits of a machine are far from the size of a word. -/
lemma ReconciliationResources.limit_new_lt (available : Option ℕ) (windows : Bool) (g : Gate) :
    (new available windows).limit g < Counter.size := by
  cases g with
  | workers =>
    have hle : min (available.getD 1) 64 ≤ 64 := min_le_right _ _
    exact Nat.lt_of_le_of_lt hle (by decide)
  | parentHandles =>
    have hle : RECONCILE_PARENT_HANDLES windows ≤ 8192 := by
      cases windows <;> decide
    exact Nat.lt_of_le_of_lt hle (by decide)
  | readBytes =>
    have hlt : INDEX_BUILD_BATCH_BYTES < Counter.size := by decide
    exact hlt

/-- A sum within a limit does not wrap. -/
lemma wrappingAdd_within {used charged limit : ℕ} (hle : used + charged ≤ limit)
    (hlimit : limit < Counter.size) :
    Counter.wrappingAdd used charged = used + charged ∧
      (used ≤ limit → Counter.wrappingAdd used charged ≤ limit) := by
  have hsum := Counter.wrappingAdd_of_lt (Nat.lt_of_le_of_lt hle hlimit)
  exact ⟨hsum, fun _ => hsum.le.trans hle⟩

/-- **A look that admits** charges the gates what the admission says, within their limits. -/
lemma Acquire.look_admitted (hlimit : ∀ g, r.limit g < Counter.size) {call : Acquire}
    (h : call.look r p owner = .admitted state q a) (g : Gate) :
    state.charged g = r.state.charged g + a.charge g ∧
      (r.state.charged g ≤ r.limit g → state.charged g ≤ r.limit g) := by
  have hbound := hlimit g
  cases call with
  | parallelism wanted =>
    rw [look, ReconcilePermit.parallelism] at h
    split_ifs at h with hzero
    cases h
    cases g with
    | workers =>
      have hle : r.state.workers + min (max wanted 1) (r.workers - r.state.workers) ≤
          r.workers := by
        omega
      exact wrappingAdd_within hle hbound
    | parentHandles => exact ⟨rfl, id⟩
    | readBytes => exact ⟨rfl, id⟩
  | admitParents handles =>
    rw [look, ReconcilePermit.admitParents] at h
    split_ifs at h with hfits
    cases h
    cases g with
    | workers => exact ⟨rfl, id⟩
    | parentHandles =>
      have hle : r.state.parentHandles + min handles (RECONCILE_PARENT_HANDLES r.windows) ≤
          RECONCILE_PARENT_HANDLES r.windows := by
        omega
      exact wrappingAdd_within hle hbound
    | readBytes => exact ⟨rfl, id⟩
  | admitRead bytes =>
    rw [look, ReconcilePermit.admitRead] at h
    split_ifs at h with hfits
    split at h
    · cases h
      cases g with
      | workers => exact ⟨rfl, id⟩
      | parentHandles => exact ⟨rfl, id⟩
      | readBytes =>
        have hle : r.state.readBytes + min bytes INDEX_BUILD_BATCH_BYTES ≤
            INDEX_BUILD_BATCH_BYTES := by
          omega
        exact wrappingAdd_within hle hbound
    · split_ifs at h

/-- **A drop**: it always has an outcome, and returns to the gates what the admission charges. -/
lemma ReconcileAdmission.drop_spec (a : ReconcileAdmission) (p : ReconcilePermit)
    (control : Control) (hle : ∀ g, a.charge g ≤ state.charged g)
    (hsize : ∀ g, state.charged g < Counter.size) :
    ∃ state' q, a.drop state p control = some (state', q) ∧
      ∀ g, state'.charged g + a.charge g = state.charged g := by
  have hexact : ∀ g, Counter.wrappingSub (state.charged g) (a.charge g) + a.charge g =
      state.charged g := by
    intro g
    rw [Counter.wrappingSub_of_le (hle g) (hsize g), Nat.sub_add_cancel (hle g)]
  cases a with
  | parallelism workers =>
    refine ⟨_, _, rfl, fun g => ?_⟩
    cases g with
    | workers => exact hexact .workers
    | parentHandles => rfl
    | readBytes => rfl
  | parents handles charged =>
    refine ⟨_, _, rfl, fun g => ?_⟩
    cases g with
    | workers => rfl
    | parentHandles => exact hexact .parentHandles
    | readBytes => rfl
  | read charged bytes memory =>
    -- a charge can always shrink
    have hresize : memory.resize p.toWorkPermit 0 control =
        (.ok (), { memory with bytes := 0 }, p.subPrivate (memory.bytes - 0)) :=
      if_neg (Nat.not_lt_zero _)
    rw [drop, hresize]
    refine ⟨_, _, rfl, fun g => ?_⟩
    cases g with
    | workers => rfl
    | parentHandles => rfl
    | readBytes => exact hexact .readBytes

end Cases

/-! ## The workers -/

namespace Reconciliation

/-- Where a worker is. -/
inductive Pc
  /-- Outside the calls that acquire. -/
  | running
  /-- At the top of the loop, about to check whether the work may go on. -/
  | checking (call : Acquire)
  /-- About to look at the gate. -/
  | looking (call : Acquire)
  | waiting (call : Acquire)
  /-- The last call returned an error. -/
  | refused (e : Error)
  deriving DecidableEq

/-- The worker is in none of the calls. -/
def Pc.free : Pc → Bool
  | .running | .refused _ => true
  | _ => false

end Reconciliation

/-- A worker, with what it has acquired. -/
structure ReconciliationWorker where
  permit : Id
  pc : Reconciliation.Pc := .running
  admissions : List ReconcileAdmission := []
  deriving DecidableEq

/-- What a worker has charged to a gate. -/
def ReconciliationWorker.charge (g : Gate) (w : ReconciliationWorker) : ℕ :=
  Ledger.total (fun a => a.charge g) w.admissions

/-- The gates of a namespace, with the permits of the operations and their workers. -/
structure Reconciliation where
  resources : ReconciliationResources
  permits : FinMap Id ReconcilePermit := .empty
  workers : List ReconciliationWorker := []

namespace Reconciliation

/-- What a worker does next, with what it then finds. -/
inductive Action
  | call (call : Acquire)
  | check (control : Control)
  | lock
  | wake
  /-- Drop one of the admissions. -/
  | drop (k : ℕ) (control : Control)

/-- The steps of the gates. -/
inductive Event
  /-- An operation is admitted. -/
  | reserve (id : Id) (p : WorkPermit)
  /-- The private memory of an operation changes outside the gates. -/
  | elsewhere (id : Id) (p : WorkPermit)
  /-- An operation starts a worker. -/
  | spawn (permit : Id)
  | act (i : ℕ) (a : Action)

/-- The gates at the start of a process. -/
def new (availableParallelism : Option ℕ) (windows : Bool) : Reconciliation where
  resources := .new availableParallelism windows

/-- What is charged to a gate. -/
def charged (s : Reconciliation) (g : Gate) : ℕ := s.resources.state.charged g

/-- The limit of a gate. -/
def limit (s : Reconciliation) (g : Gate) : ℕ := s.resources.limit g

/-- A worker goes on. -/
def goto (s : Reconciliation) (i : ℕ) (w : ReconciliationWorker) (pc : Pc) : Reconciliation :=
  { s with workers := s.workers.set i { w with pc := pc } }

/-- Write back the gates, the permit and the admissions of a worker. -/
def put (s : Reconciliation) (i : ℕ) (w : ReconciliationWorker) (state : ReconciliationUsage)
    (p : ReconcilePermit) (admissions : List ReconcileAdmission) : Reconciliation where
  resources := { s.resources with state := state }
  permits := s.permits.insert w.permit p
  workers := s.workers.set i { w with pc := .running, admissions := admissions }

/-- A worker looks at the gate of its call. -/
def look (s : Reconciliation) (i : ℕ) (w : ReconciliationWorker) (p : ReconcilePermit)
    (call : Acquire) : Reconciliation :=
  match call.look s.resources p w.permit with
  | .admitted state q a => s.put i w state q (w.admissions ++ [a])
  | .short => s.goto i w (.waiting call)
  | .refused e => s.goto i w (.refused e)

/-- A step of a worker. -/
def act (s : Reconciliation) (i : ℕ) (w : ReconciliationWorker) (p : ReconcilePermit) :
    Action → Option Reconciliation
  | .call call => if w.pc.free then some (s.goto i w (.checking call)) else none
  | .check control =>
    match w.pc with
    | .checking call =>
      match p.check control with
      | .error e => some (s.goto i w (.refused e))
      | .ok () => some (s.goto i w (.looking call))
    | _ => none
  | .lock =>
    match w.pc with
    | .looking call => some (s.look i w p call)
    | _ => none
  | .wake =>
    match w.pc with
    | .waiting call => some (s.goto i w (.checking call))
    | _ => none
  | .drop k control =>
    if w.pc.free then
      w.admissions[k]?.bind fun a =>
        (a.drop s.resources.state p control).map fun (state, q) =>
          s.put i w state q (w.admissions.eraseIdx k)
    else none

/-- One step. -/
def step (s : Reconciliation) : Event → Option Reconciliation
  | .reserve id p =>
    if s.permits.contains id then none
    else some { s with permits := s.permits.insert id { toWorkPermit := p } }
  | .elsewhere id p =>
    (s.permits.get? id).map fun q =>
      { s with permits := s.permits.insert id { q with toWorkPermit := p } }
  | .spawn id =>
    if s.permits.contains id then some { s with workers := s.workers ++ [{ permit := id }] }
    else none
  | .act i a =>
    s.workers[i]?.bind fun w => (s.permits.get? w.permit).bind fun p => s.act i w p a

/-- The states that the workers reach, in any order of their steps. -/
def Reachable (s : Reconciliation) : Prop :=
  ∃ available windows, Run.Reaches step (fun _ _ => True) (new available windows) s

/-! ## What a step can do -/

variable {s s' : Reconciliation} {i : ℕ} {w : ReconciliationWorker} {p : ReconcilePermit}

/-- The admissions of a worker. -/
def admissions (s : Reconciliation) (i : ℕ) : List ReconcileAdmission :=
  match s.workers[i]? with
  | some w => w.admissions
  | none => []

/-- What all workers together have charged to a gate. -/
def total (s : Reconciliation) (g : Gate) : ℕ :=
  Ledger.total (ReconciliationWorker.charge g) s.workers

/-- A step that leaves the gates and all admissions as they are. -/
structure Quiet (s s' : Reconciliation) : Prop where
  resources : s'.resources = s.resources
  admissions : ∀ j, s'.admissions j = s.admissions j
  total : ∀ g, s'.total g = s.total g

variable (hw : s.workers[i]? = some w)

include hw

lemma admissions_of_get : s.admissions i = w.admissions := by
  rw [admissions, hw]

/-- Going on changes no admission. -/
lemma Quiet.goto (pc : Pc) : s.Quiet (s.goto i w pc) where
  resources := rfl
  admissions j := by
    have hlen := (List.getElem?_eq_some_iff.mp hw).1
    unfold Reconciliation.admissions Reconciliation.goto
    dsimp only
    rw [List.getElem?_set]
    split_ifs with hj
    · subst hj
      rw [hw]
    · rfl
  total g := by
    have hset := total_set (ReconciliationWorker.charge g) hw { w with pc := pc }
    have hsame : ReconciliationWorker.charge g { w with pc := pc } = w.charge g := rfl
    rw [hsame] at hset
    exact Nat.add_right_cancel hset

/-- The admissions after a worker's are replaced. -/
lemma admissions_put (state : ReconciliationUsage)
    (p : ReconcilePermit) (as : List ReconcileAdmission) (j : ℕ) :
    (s.put i w state p as).admissions j = if j = i then as else s.admissions j := by
  have hlen := (List.getElem?_eq_some_iff.mp hw).1
  unfold admissions put
  dsimp only
  rw [List.getElem?_set]
  split_ifs with hij hji hji
  · rfl
  · exact absurd hij.symm hji
  · exact absurd hji.symm hij
  · rfl

/-- The total after a worker's admissions are replaced. -/
lemma total_put (state : ReconciliationUsage) (p : ReconcilePermit)
    (as : List ReconcileAdmission) (g : Gate) :
    (s.put i w state p as).total g + w.charge g =
      s.total g + Ledger.total (fun a => a.charge g) as :=
  total_set (ReconciliationWorker.charge g) hw
    { w with pc := .running, admissions := as }

/-- A step of a worker: a quiet one, a look that admits, or a drop. -/
lemma act_cases {a : Action} (h : s.act i w p a = some s') : s.Quiet s' ∨
      (a = .lock ∧ ∃ call state q d, w.pc = .looking call ∧
        call.look s.resources p w.permit = .admitted state q d ∧
        s' = s.put i w state q (w.admissions ++ [d])) ∨
      ∃ k control d state q, a = .drop k control ∧ w.admissions[k]? = some d ∧
        d.drop s.resources.state p control = some (state, q) ∧
        s' = s.put i w state q (w.admissions.eraseIdx k) := by
  cases a with
  | call call =>
    rw [act] at h
    split_ifs at h
    cases h
    exact .inl (Quiet.goto hw _)
  | check control =>
    rw [act] at h
    split at h
    · split at h <;> cases h <;> exact .inl (Quiet.goto hw _)
    · cases h
  | lock =>
    rw [act] at h
    split at h
    · rename_i call hpc
      cases h
      unfold look
      cases hlook : call.look s.resources p w.permit with
      | admitted state q d => exact .inr (.inl ⟨rfl, call, state, q, d, hpc, hlook, rfl⟩)
      | short => exact .inl (Quiet.goto hw _)
      | refused e => exact .inl (Quiet.goto hw _)
    · cases h
  | wake =>
    rw [act] at h
    split at h
    · cases h
      exact .inl (Quiet.goto hw _)
    · cases h
  | drop k control =>
    rw [act] at h
    split_ifs at h
    obtain ⟨d, hd, h⟩ := bind_eq_some_iff.mp h
    obtain ⟨⟨state, q⟩, hdrop, rfl⟩ := map_eq_some_iff.mp h
    exact .inr (.inr ⟨k, control, d, state, q, rfl, hd, hdrop, rfl⟩)

omit hw

/-- One step: a quiet one, a look that admits, or a drop. -/
lemma step_cases {e : Event} (h : s.step e = some s') :
    s.Quiet s' ∨
      (∃ i w p call state q d, e = .act i .lock ∧ s.workers[i]? = some w ∧
        w.pc = .looking call ∧ call.look s.resources p w.permit = .admitted state q d ∧
        s' = s.put i w state q (w.admissions ++ [d])) ∨
      ∃ i w p k control d state q, e = .act i (.drop k control) ∧ s.workers[i]? = some w ∧
        w.admissions[k]? = some d ∧ d.drop s.resources.state p control = some (state, q) ∧
        s' = s.put i w state q (w.admissions.eraseIdx k) := by
  cases e with
  | reserve id p =>
    rw [step] at h
    split_ifs at h
    cases h
    exact .inl ⟨rfl, fun _ => rfl, fun _ => rfl⟩
  | elsewhere id p =>
    obtain ⟨q, -, rfl⟩ := map_eq_some_iff.mp h
    exact .inl ⟨rfl, fun _ => rfl, fun _ => rfl⟩
  | spawn id =>
    rw [step] at h
    split_ifs at h
    cases h
    refine .inl ⟨rfl, fun j => ?_, fun g => ?_⟩
    · unfold admissions
      dsimp only
      rw [getElem?_append]
      split_ifs with hj
      · rfl
      · rw [getElem?_eq_none (Nat.le_of_not_lt hj)]
        cases hrest : j - s.workers.length <;> rfl
    · show Ledger.total _ (s.workers ++ _) = Ledger.total _ s.workers
      rw [Ledger.total_append]
      exact add_zero _
  | act i a =>
    rw [step] at h
    obtain ⟨w, hw, h⟩ := bind_eq_some_iff.mp h
    obtain ⟨p, -, h⟩ := bind_eq_some_iff.mp h
    rcases act_cases hw h with hquiet | ⟨rfl, call, state, q, d, hlook⟩ |
      ⟨k, control, d, state, q, rfl, hdrop⟩
    · exact .inl hquiet
    · exact .inr (.inl ⟨i, w, p, call, state, q, d, rfl, hw, hlook⟩)
    · exact .inr (.inr ⟨i, w, p, k, control, d, state, q, rfl, hw, hdrop⟩)

/-! ## What a step keeps -/

/-- The gates hold the charges of the admissions, within the limits. -/
structure Invariant (s : Reconciliation) : Prop where
  size : ∀ g, s.limit g < Counter.size
  balance : ∀ g, s.charged g = s.total g
  within : ∀ g, s.charged g ≤ s.limit g

/-- What an admission charges is part of what is charged. -/
lemma Invariant.charge_le (h : s.Invariant) (hw : s.workers[i]? = some w) {d : ReconcileAdmission}
    (hd : d ∈ w.admissions) (g : Gate) : d.charge g ≤ s.charged g :=
  calc d.charge g ≤ w.charge g := le_total (fun a => a.charge g) hd
    _ ≤ s.total g := le_total (ReconciliationWorker.charge g) (mem_of_getElem? hw)
    _ = s.charged g := (h.balance g).symm

/-- What is charged is less than the size of a word. -/
lemma Invariant.charged_lt (h : s.Invariant) (g : Gate) : s.charged g < Counter.size :=
  Nat.lt_of_le_of_lt (h.within g) (h.size g)

/-- A drop returns what the admission charges. -/
lemma Invariant.dropped (h : s.Invariant) (hw : s.workers[i]? = some w) {d : ReconcileAdmission}
    (hd : d ∈ w.admissions) {control : Control} {state : ReconciliationUsage}
    {q : ReconcilePermit} (hdrop : d.drop s.resources.state p control = some (state, q))
    (g : Gate) : state.charged g + d.charge g = s.charged g := by
  obtain ⟨state', q', hspec, hreturn⟩ :=
    d.drop_spec p control (h.charge_le hw hd) (fun g => h.charged_lt g)
  rw [hdrop] at hspec
  cases hspec
  exact hreturn g

/-- **Every step keeps the invariant.** -/
lemma Invariant.step (h : s.Invariant) {e : Event} (he : s.step e = some s') : s'.Invariant := by
  rcases step_cases he with hquiet | ⟨i, w, p, call, state, q, d, -, hw, -, hlook, rfl⟩ |
    ⟨i, w, p, k, control, d, state, q, -, hw, hd, hdrop, rfl⟩
  · have hcharged : ∀ g, s'.charged g = s.charged g := fun g =>
      congrArg (fun r => r.state.charged g) hquiet.resources
    have hlimit : ∀ g, s'.limit g = s.limit g := fun g =>
      congrArg (fun r => r.limit g) hquiet.resources
    refine ⟨fun g => ?_, fun g => ?_, fun g => ?_⟩
    · rw [hlimit]
      exact h.size g
    · rw [hcharged, hquiet.total]
      exact h.balance g
    · rw [hcharged, hlimit]
      exact h.within g
  · have hcharges := Acquire.look_admitted h.size hlook
    refine ⟨h.size, fun g => ?_, fun g => (hcharges g).2 (h.within g)⟩
    have htotal := total_put hw state q (w.admissions ++ [d]) g
    have hmore : Ledger.total (fun a => a.charge g) (w.admissions ++ [d]) =
        w.charge g + d.charge g := by
      rw [Ledger.total_append, Ledger.total_cons, Ledger.total_nil]
      rfl
    have hbalance := h.balance g
    have hstate := (hcharges g).1
    show state.charged g = _
    rw [charged] at hbalance
    omega
  · have hmem := mem_of_getElem? hd
    have hreturn := h.dropped hw hmem hdrop
    refine ⟨h.size, fun g => ?_, fun g => ?_⟩
    · have htotal := total_put hw state q (w.admissions.eraseIdx k) g
      have herase := Ledger.total_eraseIdx (fun a : ReconcileAdmission => a.charge g) hd
      have hcharge : w.charge g = Ledger.total (fun a => a.charge g) w.admissions := rfl
      have hbalance := h.balance g
      have hstate := hreturn g
      show state.charged g = _
      omega
    · have hwithin := h.within g
      have hstate := hreturn g
      show state.charged g ≤ s.limit g
      omega

/-- The invariant holds in every state that is reached. -/
lemma Reachable.invariant (h : s.Reachable) : s.Invariant := by
  obtain ⟨available, windows, hreach⟩ := h
  refine hreach.invariant (fun s e s' hs _ he => hs.step he) ⟨?_, fun g => ?_, fun g => ?_⟩
  · exact ReconciliationResources.limit_new_lt available windows
  · cases g <;> rfl
  · cases g <;> exact Nat.zero_le _

/-! ## Main results -/

/-- A step after which every worker has the admissions that it had leaves the gates as they are. -/
lemma charged_of_admissions {e : Event} (he : s.step e = some s')
    (hsame : ∀ j, s'.admissions j = s.admissions j) (g : Gate) : s'.charged g = s.charged g := by
  rcases step_cases he with hquiet | ⟨i, w, p, call, state, q, d, -, hw, -, -, rfl⟩ |
    ⟨i, w, p, k, control, d, state, q, -, hw, hd, -, rfl⟩
  · exact congrArg (fun r => r.state.charged g) hquiet.resources
  · have hi := hsame i
    rw [admissions_put hw, if_pos rfl, admissions_of_get hw] at hi
    have hlen := congrArg List.length hi
    rw [List.length_append, List.length_singleton] at hlen
    omega
  · have hi := hsame i
    rw [admissions_put hw, if_pos rfl, admissions_of_get hw] at hi
    have hlen := congrArg List.length hi
    have hk := (List.getElem?_eq_some_iff.mp hd).1
    rw [List.length_eraseIdx_of_lt hk] at hlen
    omega

/-- **The gates of a reconciliation hold.** In every state that any number of workers reach in any
order of their steps:

* what is charged to a gate is the sum of the charges of the admissions that the workers hold, and
  within the limit of the gate;
* a worker that holds no admission, whatever it acquired and dropped before, has no part in it;
* an admission can be dropped by its worker, the drop returns exactly what the admission charges,
  and all other admissions stay;
* a look at a gate hands out an admission and charges exactly what that says, or hands out none;
* a step that hands out and drops no admission changes no gate: a check that refuses, a look that
  refuses or finds too little, a wait that ends. -/
theorem gates_hold (h : s.Reachable) :
    (∀ g, s.charged g = s.total g ∧ s.charged g ≤ s.limit g) ∧
      (∀ (i : ℕ) (w : ReconciliationWorker) (g : Gate), s.workers[i]? = some w →
        w.admissions = [] →
        s.charged g = Ledger.total (ReconciliationWorker.charge g) (s.workers.eraseIdx i)) ∧
      (∀ (i : ℕ) (w : ReconciliationWorker) (p : ReconcilePermit) (k : ℕ)
        (d : ReconcileAdmission) (control : Control), s.workers[i]? = some w →
        s.permits.get? w.permit = some p → w.pc.free → w.admissions[k]? = some d →
        ∃ s', s.step (.act i (.drop k control)) = some s' ∧
          (∀ g, s'.charged g + d.charge g = s.charged g) ∧
          ∀ j, s'.admissions j = if j = i then w.admissions.eraseIdx k else s.admissions j) ∧
      (∀ (i : ℕ) (s' : Reconciliation), s.step (.act i .lock) = some s' →
        (∃ d, s'.admissions i = s.admissions i ++ [d] ∧
          (∀ g, s'.charged g = s.charged g + d.charge g) ∧
          ∀ j, j ≠ i → s'.admissions j = s.admissions j) ∨
        ∀ j, s'.admissions j = s.admissions j) ∧
      ∀ (e : Event) (s' : Reconciliation), s.step e = some s' →
        ((∀ i, e ≠ .act i .lock) ∧ (∀ i k control, e ≠ .act i (.drop k control)) →
          ∀ j, s'.admissions j = s.admissions j) ∧
        ((∀ j, s'.admissions j = s.admissions j) → ∀ g, s'.charged g = s.charged g) := by
  have hinv := h.invariant
  refine ⟨fun g => ⟨hinv.balance g, hinv.within g⟩, ?_, ?_, ?_, ?_⟩
  · intro i w g hw hnone
    have herase := Ledger.total_eraseIdx (ReconciliationWorker.charge g) hw
    have hzero : w.charge g = 0 := by
      rw [ReconciliationWorker.charge, hnone]
      rfl
    rw [hzero, add_zero] at herase
    rw [hinv.balance g]
    exact herase.symm
  · intro i w p k d control hw hp hfree hd
    have hmem := List.mem_of_getElem? hd
    obtain ⟨state, q, hdrop, hreturn⟩ :=
      d.drop_spec p control (hinv.charge_le hw hmem) (fun g => hinv.charged_lt g)
    refine ⟨s.put i w state q (w.admissions.eraseIdx k), ?_, hreturn, admissions_put hw _ _ _⟩
    rw [step, hw, Option.bind_some, hp, Option.bind_some, act, if_pos hfree, hd, Option.bind_some,
      hdrop]
    rfl
  · intro i s' hstep
    rcases step_cases hstep with hquiet | ⟨j, w, p, call, state, q, d, heq, hw, -, hlook, rfl⟩ |
      ⟨j, w, p, k, control, d, state, q, heq, -⟩
    · exact .inr hquiet.admissions
    · cases heq
      refine .inl ⟨d, ?_, fun g => (Acquire.look_admitted hinv.size hlook g).1, ?_⟩
      · rw [admissions_put hw, if_pos rfl, admissions_of_get hw]
      · intro j hj
        rw [admissions_put hw, if_neg hj]
    · cases heq
  · intro e s' hstep
    refine ⟨?_, charged_of_admissions hstep⟩
    rintro ⟨hlock, hdrop⟩
    rcases step_cases hstep with hquiet | ⟨i, w, p, call, state, q, d, rfl, -⟩ |
      ⟨i, w, p, k, control, d, state, q, rfl, -⟩
    · exact hquiet.admissions
    · exact absurd rfl (hlock i)
    · exact absurd rfl (hdrop i k control)

/-- One worker holds all handles for a chain that exceeds the limit. Another has a thread, waits for
a handle, finds its operation cancelled, and drops the thread. -/
def gaveUp : List Event :=
  [.reserve 0 { privateLimit := 10 }, .spawn 0, .spawn 0,
    .act 0 (.call (.admitParents 300)), .act 0 (.check {}), .act 0 .lock,
    .act 1 (.call (.parallelism 4)), .act 1 (.check {}), .act 1 .lock,
    .act 1 (.call (.admitParents 1)), .act 1 (.check {}), .act 1 .lock, .act 1 .wake,
    .act 1 (.check { cancelled := true }), .act 1 (.drop 0 {})]

/-- `gates_hold` after such a run. -/
theorem gates_hold_gaveUp :
    ∃ s, Run.exec step (new (some 2) false) gaveUp = some s ∧
      s.charged .parentHandles = 256 ∧ s.charged .workers = 0 ∧
      ∀ g, s.charged g = s.total g ∧ s.charged g ≤ s.limit g := by
  have hcharged : (Run.exec step (new (some 2) false) gaveUp).map
      (fun s => (s.charged .parentHandles, s.charged .workers)) = some (256, 0) := by
    decide +kernel
  obtain ⟨s, hs, hpair⟩ := Option.map_eq_some_iff.mp hcharged
  rw [Prod.mk.injEq] at hpair
  exact ⟨s, hs, hpair.1, hpair.2, (gates_hold ⟨some 2, false, Run.Reaches.of_exec hs⟩).1⟩

end Reconciliation

end Tgrep.Managed
