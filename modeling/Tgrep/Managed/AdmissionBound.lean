import Mathlib.Algebra.BigOperators.Ring.Finset
import Tgrep.Managed.Admission
import Tgrep.Managed.Totals

/-!
# Admitted reservations stay within the budget

The counters of every reachable catalog are the sums over its rows, and a policy is determined by
its version along a run. So what an admission compares are the amounts themselves: after a
reservation is admitted the sums over the active reservations are within the allocation and the
policy. The storage limit is not compared for work that reclaims storage.

## Main definitions

* `Namespace.unreserved`, `Catalog.charged`: retained bytes outside the reservations, and the
  charged storage, as amounts.
* `Namespace.Follows`: the policy changes with its version only.
* `Namespace.Admitted`, `Namespace.Refused`: what an admission does.

## Main results

* `Namespace.attempt_eq_ok`: what a successful transaction has checked.
* `Namespace.reserveInner_cases`: an admission is admitted or refused.
* `Namespace.admission_run`: the admissions of every run.
* `Namespace.reclamation_exceeds`: work that reclaims storage is admitted above the limit.
-/

namespace Tgrep.Managed

open FinMap Loops Option List Counter

/-! ## Writing a reservation -/

namespace Catalog

variable {c c' : Catalog} {id : Id}

/-- Moving a counter leaves the tables alone. -/
lemma tables_of_bump {name : Total} {old new : ℤ} (h : c.bump name old new = .ok c') :
    c'.tables = c.tables := by
  unfold bump at h
  simp only at h
  split_ifs at h
  cases h
  rfl

/-- Moving the counters leaves the tables alone. -/
lemma tables_of_counterTriggers {ρ : Type} {names : List Total}
    {metric : Total → Tables → Id → ρ → ℤ} {condition : ρ → Bool} {old new : Option ρ}
    (h : counterTriggers names metric condition id old new c = .ok c') : c'.tables = c.tables :=
  foldlM_invariant (P := fun _ c₁ => c₁.tables = c.tables)
    (fun _ _ _ _ htables hstep => (tables_of_bump hstep).trans htables) rfl h

/-- A computation that, if it succeeds, leaves the reservations alone. -/
def KeepsReservations (c : Catalog) (result : Except Refusal Catalog) : Prop :=
  ∀ c', result = .ok c' → c'.tables.reservations = c.tables.reservations

namespace KeepsReservations

/-- Nothing. -/
lemma rfl' (c : Catalog) : KeepsReservations c (.ok c) := fun _ h => by cases h; rfl

/-- One computation after another. -/
lemma bind {result : Except Refusal Catalog} {f : Catalog → Except Refusal Catalog}
    (h : KeepsReservations c result) (hf : ∀ c, KeepsReservations c (f c)) :
    KeepsReservations c (result >>= f) := by
  intro c' heq
  obtain ⟨c₁, h₁, h₂⟩ := Loops.bind_eq_ok.mp heq
  exact (hf c₁ c' h₂).trans (h c₁ h₁)

/-- The counters of a trigger. -/
lemma counterTriggers {ρ : Type} (names : List Total) (metric : Total → Tables → Id → ρ → ℤ)
    (condition : ρ → Bool) (old new : Option ρ) (c : Catalog) :
    KeepsReservations c (counterTriggers names metric condition id old new c) :=
  fun _ h => by rw [tables_of_counterTriggers h]

/-- The storage of an operation. -/
lemma putStorage (c : Catalog) (operation : Id) (new : Option OperationStorage) :
    KeepsReservations c (c.putStorage operation new) := by
  intro c' h
  unfold Catalog.putStorage at h
  split_ifs at h
  rw [tables_of_counterTriggers h]

/-- The triggers of `objects` on the storage of the new operation. -/
lemma addOperation (c : Catalog) (new : ObjectRow) : KeepsReservations c (c.addOperation new) := by
  unfold Catalog.addOperation
  cases new.operation with
  | none => exact rfl' c
  | some operation =>
    simp only
    split_ifs
    · exact rfl' c
    · cases c.tables.operationStorage.get? operation <;> exact putStorage c operation _

/-- The triggers of `objects` on the storage of the old operation. -/
lemma removeOperation (c : Catalog) (old : ObjectRow) :
    KeepsReservations c (c.removeOperation old) := by
  unfold Catalog.removeOperation
  cases old.operation with
  | none => exact rfl' c
  | some operation =>
    refine bind ?_ fun c => ?_
    · unfold subtractOperation
      split_ifs
      · exact rfl' c
      · cases c.tables.operationStorage.get? operation with
        | none => exact rfl' c
        | some s => exact putStorage c operation _
    · unfold dropOperation
      cases c.tables.operationStorage.get? operation with
      | none => exact rfl' c
      | some s =>
        simp only
        split_ifs
        · exact putStorage c operation _
        · exact rfl' c

/-- A row of `objects`. -/
lemma putObject (c : Catalog) (new : Option ObjectRow) :
    KeepsReservations c (c.putObject id new) := by
  show KeepsReservations _ (if _ then _ else _)
  split_ifs
  · refine bind (counterTriggers _ _ _ _ _ _) fun c₁ => bind ?_ fun c₂ => ?_
    · cases c.tables.objects.get? id with
      | none => exact rfl' c₁
      | some old => exact removeOperation c₁ old
    · cases new with
      | none => exact rfl' c₂
      | some new => exact addOperation c₂ new
  · exact rfl' _

/-- A row of `control_files`. -/
lemma putControlFile (c : Catalog) (new : Option ControlFileRow) :
    KeepsReservations c (c.putControlFile id new) := by
  show KeepsReservations _ (if _ then _ else _)
  split_ifs
  · exact counterTriggers _ _ _ _ _ _
  · exact rfl' _

/-- A row of `records`. -/
lemma putRecord (c : Catalog) (new : Option RecordRow) :
    KeepsReservations c (c.putRecord id new) := by
  show KeepsReservations _ (if _ then _ else _)
  split_ifs
  · exact counterTriggers _ _ _ _ _ _
  · exact rfl' _

/-- A row of `refs`. -/
lemma putReference (c : Catalog) (new : Option Id) :
    KeepsReservations c (c.putReference id new) := by
  have hbump : ∀ (c : Catalog) name old now, KeepsReservations c (c.bump name old now) :=
    fun _ _ _ _ _ h => by rw [tables_of_bump h]
  show KeepsReservations _ (referenceTrigger _ _ _ _)
  unfold referenceTrigger
  cases c.tables.refs.get? id <;> cases new <;> simp only
  · exact rfl' _
  · split_ifs
    · exact rfl' _
    · exact hbump _ _ _ _
  · split_ifs
    · exact rfl' _
    · exact hbump _ _ _ _
  · split_ifs <;> first | exact rfl' _ | exact hbump _ _ _ _

/-- A statement on a row. -/
lemma onRow {ρ : Type} {row : Option ρ} {put : Option ρ → Except Refusal Catalog}
    (hput : ∀ new, KeepsReservations c (put new)) (event : Event ρ) :
    KeepsReservations c (c.onRow row put event) := by
  cases event <;> simp only [Catalog.onRow] <;> split_ifs <;>
    first | exact hput _ | exact rfl' c | exact fun _ h => nomatch h

/-- The step of a statement. -/
lemma step {s : Statement} (h : KeepsReservations c (c.execute s)) :
    (c.step s).tables.reservations = c.tables.reservations := by
  unfold Catalog.step
  cases hexecute : c.execute s with
  | ok c' => exact h c' hexecute
  | error e => rfl

end KeepsReservations

/-- Inserting a reservation: the key and the operation are free, and the row is written. -/
lemma tables_of_insertReservation {r : ReservationRow}
    (h : c.execute (.reservation id (.insert r)) = .ok c') :
    c.tables.reservations.get? id = none ∧
      c'.tables = { c.tables with reservations := c.tables.reservations.put id (some r) } := by
  cases hget : c.tables.reservations.get? id with
  | some old =>
    rw [execute, hget] at h
    cases h
  | none =>
    rw [execute, hget] at h
    refine ⟨rfl, ?_⟩
    have hput : c.putReservation id (some r) = .ok c' := h
    unfold putReservation at hput
    split_ifs at hput
    exact tables_of_counterTriggers hput

/-- The aggregates after a reservation is inserted for an operation that has none. -/
lemma Consistent.aggregate_insertReservation (h : c.Consistent) {r : ReservationRow}
    (hfree : ¬ c.tables.Reserved r.operation)
    (hexecute : c.execute (.reservation id (.insert r)) = .ok c') (name : Total) :
    c'.tables.aggregate name =
      c.tables.aggregate name + reservationMetric name c.tables id r := by
  obtain ⟨hget, htables⟩ := tables_of_insertReservation hexecute
  have h' : c'.Consistent := by
    have := h.execute (.reservation id (.insert r))
    rw [hexecute] at this
    exact this
  have hnone : (c.tables.reservationOf r.operation).isNone = true := by
    rw [← not_isSome, Bool.not_eq_true']
    exact Bool.eq_false_iff.mpr fun hsome => hfree (Tables.reserved_iff.mpr hsome)
  rw [← h'.aggregate, h'.tallied, htables, Tables.recompute_insertReservation _ hget hnone,
    ← h.tallied, h.aggregate]

/-- The charged storage. -/
def charged (c : Catalog) (files : CatalogFiles) : ℤ :=
  c.tables.aggregate .objectLogical + c.tables.aggregate .controlLogical + files.logical +
    c.tables.aggregate .compatibilityLogical + c.tables.aggregate .uncertainStaging +
    c.tables.aggregate .unconsumedStaging

/-- What an operation may still come to is not negative. -/
lemma uncertain_nonneg (s : OperationStorage) : 0 ≤ s.uncertain := by
  unfold OperationStorage.uncertain
  split_ifs
  · exact le_max_left _ _
  · exact le_rfl

/-- A reservation charges at most its staging bytes: what its operation holds counts as consumed,
and what that may still come to is no longer charged apart. -/
lemma Consistent.charged_insertReservation (h : c.Consistent) {r : ReservationRow}
    (hfree : ¬ c.tables.Reserved r.operation)
    (hexecute : c.execute (.reservation id (.insert r)) = .ok c') (files : CatalogFiles) :
    c'.charged files ≤ c.charged files + r.bytes := by
  have haggregate := h.aggregate_insertReservation hfree hexecute
  have hlogical : 0 ≤ operationBytes c.tables.objects r.operation :=
    operationTally_nonneg (fun o => by omega) _ _
  have hunconsumed : reservationMetric .unconsumedStaging c.tables id r ≤ r.bytes := by
    show max 0 (r.bytes - ((c.tables.operationStorage.get? r.operation).map
      OperationStorage.logical).getD 0 : ℤ) ≤ r.bytes
    rw [h.storage.logical]
    omega
  have huncertain : reservationMetric .uncertainStaging c.tables id r ≤ 0 := by
    show -((c.tables.operationStorage.get? r.operation).map OperationStorage.uncertain).getD 0 ≤
      (0 : ℤ)
    cases c.tables.operationStorage.get? r.operation with
    | none => exact le_rfl
    | some s =>
      have := uncertain_nonneg s
      simp only [map_some, getD_some]
      omega
  have hzero : reservationMetric .objectLogical c.tables id r = 0 ∧
      reservationMetric .controlLogical c.tables id r = 0 ∧
      reservationMetric .compatibilityLogical c.tables id r = 0 := ⟨rfl, rfl, rfl⟩
  unfold charged
  rw [haggregate, haggregate, haggregate, haggregate, haggregate]
  omega

/-- The counters that are read are the aggregates. -/
lemma Consistent.counters (h : c.Consistent) {counter : Total → ℕ}
    (hcounters : c.counters = .ok counter) (name : Total) :
    (counter name : ℤ) = c.tables.aggregate name := by
  unfold Catalog.counters at hcounters
  split_ifs at hcounters
  cases hcounters
  have hnonneg : 0 ≤ c.totals name := by
    rw [h.tallied name]
    exact Tables.recompute_nonneg _ _
  rw [Int.toNat_of_nonneg hnonneg, h.aggregate]

/-- An addition of storage is a sum. -/
lemma addStorage_eq_ok {total value sum : ℕ} (h : addStorage total value = .ok sum) :
    sum = total + value := by
  unfold addStorage at h
  cases hadd : checkedAdd total value with
  | none =>
    rw [hadd] at h
    cases h
  | some s =>
    rw [hadd] at h
    cases h
    exact (checkedAdd_eq_some.mp hadd).1

/-- The charged storage of the ledger is a sum. -/
lemma ledger_eq_ok {counter : Total → ℕ} {files : CatalogFiles} {storage : StorageUsage}
    (h : ledger counter files = .ok storage) :
    storage.chargedOverlapLogicalBytes = counter .objectLogical + counter .controlLogical +
      files.logical + counter .compatibilityLogical + counter .uncertainStaging +
      counter .unconsumedStaging := by
  simp only [ledger, bind_eq_ok] at h
  obtain ⟨k₁, h₁, k₂, h₂, k₃, h₃, _, _, k₄, h₄, k₅, h₅, hresult⟩ := h
  cases hresult
  simp only [addStorage_eq_ok h₅, addStorage_eq_ok h₄, addStorage_eq_ok h₃, addStorage_eq_ok h₂,
    addStorage_eq_ok h₁]

end Catalog

/-! ## The memory account -/

namespace MemoryState

variable {s : MemoryState} {active : List Id} {usage : MemoryUsage} {s' : MemoryState}

/-- A snapshot splits the retained bytes into covered ones and the others. -/
lemma snapshot_eq_ok (h : s.snapshot = .ok usage) :
    (s.usage.retainedPrivateEstimateBytes : ℤ) =
      usage.unreservedRetainedPrivateEstimateBytes +
        s.covered.tally fun (_ : Id) (bytes : ℕ) => (bytes : ℤ) := by
  unfold snapshot at h
  cases hsum : checkedSum 0 (s.covered.toList.map Prod.snd) with
  | none =>
    rw [hsum] at h
    cases h
  | some covered =>
    rw [hsum] at h
    simp only at h
    cases hsub : checkedSub s.usage.retainedPrivateEstimateBytes covered with
    | none =>
      rw [hsub] at h
      cases h
    | some unreserved =>
      rw [hsub] at h
      cases h
      have hcovered := eq_of_checkedSum hsum
      have hretained := checkedSub_eq_some.mp hsub
      have htally : s.covered.tally (fun (_ : Id) (bytes : ℕ) => (bytes : ℤ)) =
          ((s.covered.toList.map Prod.snd).sum : ℕ) := by
        rw [tally_eq_sum_toList, Nat.cast_list_sum, List.map_map]
        rfl
      rw [htally]
      show _ = (unreserved : ℤ) + _
      omega

/-- The coverage of active reservations does not end. -/
lemma get?_retainActive {id : Id} (hid : id ∈ active) :
    (s.retainActive active).covered.get? id = s.covered.get? id := by
  unfold retainActive FinMap.filter
  rw [get?_filterMap]
  cases s.covered.get? id with
  | none => rfl
  | some bytes => simp [hid]

/-- A successful reading of the account ends the coverage of inactive reservations only. -/
lemma usageOf_eq_ok (h : s.usageOf active = (.ok usage, s')) :
    s' = s.retainActive active ∧ s'.snapshot = .ok usage := by
  unfold usageOf at h
  split_ifs at h with hlength
  · cases h
  · have htake : active.take 65 = active := by
      rw [length_take] at hlength
      exact take_of_length_le (by omega)
    rw [htake, Prod.mk.injEq] at h
    obtain ⟨husage, rfl⟩ := h
    exact ⟨rfl, husage⟩

/-- Reading the account, successfully or not, keeps the totals and the active coverage. -/
lemma usageOf_keeps (s : MemoryState) (active : List Id) :
    (s.usageOf active).2.usage = s.usage ∧
      ∀ id ∈ active, (s.usageOf active).2.covered.get? id = s.covered.get? id := by
  unfold usageOf
  split_ifs with hlength
  · exact ⟨rfl, fun _ _ => rfl⟩
  · refine ⟨rfl, fun id hid => ?_⟩
    have htake : active.take 65 = active := by
      rw [length_take] at hlength
      exact take_of_length_le (by omega)
    rw [htake]
    exact get?_retainActive hid

end MemoryState

/-! ## One transaction -/

/-- Amounts that pass the comparison stay within the limit. -/
lemma within_eq_ok {used wanted limit : ℕ} {reason : String}
    (h : within used wanted limit reason = .ok ()) :
    used + wanted ≤ limit ∧ used + wanted < Counter.size := by
  unfold within at h
  cases hadd : checkedAdd used wanted with
  | none =>
    rw [hadd] at h
    cases h
  | some total =>
    rw [hadd] at h
    obtain ⟨rfl, hsize⟩ := checkedAdd_eq_some.mp hadd
    exact ⟨require_eq_ok.mp h, hsize⟩

/-- What a request that passes the limits satisfies. -/
lemma Admission.checkBudget_eq_ok {a : Admission} {work : WorkLimits} {allocation : Allocation}
    {minimum : Option ℕ} {usage : WorkUsage} {used : ℕ} {request : WorkRequest}
    (h : a.checkBudget work allocation minimum usage used request = .ok ()) :
    (usage.reservedStagingBytes + request.stagingBytes ≤
        min allocation.stagingBytes work.stagingBytes ∧
      usage.reservedStagingBytes + request.stagingBytes < Counter.size) ∧
    (used + request.privateBytes ≤ min allocation.privateWorkBytes work.privateWorkBytes ∧
      used + request.privateBytes < Counter.size) ∧
    (usage.reservedSlots + request.slots ≤ min allocation.workSlots work.workers ∧
      usage.reservedSlots + request.slots < Counter.size) ∧
    ∀ limit, allocation.storageBytes = some limit → a.record.reclamation = false →
      usage.storage.chargedOverlapLogicalBytes + request.stagingBytes ≤ limit := by
  unfold checkBudget at h
  simp only [bind_eq_ok] at h
  obtain ⟨_, _, _, hstaging, _, hprivate, _, hslots, hstorage⟩ := h
  refine ⟨within_eq_ok hstaging, within_eq_ok hprivate, within_eq_ok hslots, ?_⟩
  intro limit hlimit hreclamation
  rw [hlimit] at hstorage
  simp only [hreclamation, Bool.false_eq_true, if_false] at hstorage
  exact (within_eq_ok hstorage).1

namespace Namespace

variable {n n' : Namespace} {versioned : VersionedPolicy} {a : Admission} {minimum : Option ℕ}
  {request request' : WorkRequest} {files : Except Error CatalogFiles} {memory : MemoryState}
  {catalog : Catalog}

/-- What the checks before an admission's amounts have found. -/
lemma admissible_eq_ok {operation : Id} {allocation : Allocation}
    (h : n.admissible versioned operation request = .ok allocation) :
    n.admission = .admitting ∧ n.policy.version = versioned.version ∧
      allocation = n.allocation ∧ n.allocation.version = request.allocationVersion ∧
      ¬ n.catalog.tables.Reserved operation := by
  unfold admissible ensureAdmission at h
  simp only [bind_eq_ok, require_eq_ok] at h
  obtain ⟨_, hadmission, _, hpolicy, _, _, _, hallocation, _, hreserved, hresult⟩ := h
  cases hresult
  refine ⟨hadmission, hpolicy, rfl, hallocation, fun hr => ?_⟩
  rw [Tables.reserved_iff, isSome_iff_ne_none] at hr
  exact hr (isNone_iff_eq_none.mp hreserved)

/-- The amounts in use are those of the counters. -/
lemma reservedUsage_eq_ok {files : CatalogFiles} {usage : WorkUsage}
    (h : n.reservedUsage files = (.ok usage, memory)) :
    n.process.account.usageOf n.active = (.ok usage.memory, memory) ∧
      ∃ counter, n.catalog.counters = .ok counter ∧
        Catalog.ledger counter files = .ok usage.storage ∧
        usage.reservedStagingBytes = counter .reservedStaging ∧
        usage.reservedPrivateBytes = counter .reservedPrivate ∧
        usage.reservedSlots = counter .reservedSlots := by
  unfold reservedUsage at h
  rcases husage : n.process.account.usageOf n.active with ⟨e | used, s⟩
  · rw [husage] at h
    cases h
  · rw [husage] at h
    simp only [Prod.mk.injEq, bind_eq_ok] at h
    obtain ⟨⟨counter, hcounter, storage, hstorage, hresult⟩, rfl⟩ := h
    cases hresult
    exact ⟨rfl, counter, hcounter, hstorage, rfl, rfl, rfl⟩

/-- **A successful transaction** of an admission has checked the versions, the operation and the
amounts, and has inserted the reservation. -/
theorem attempt_eq_ok
    (h : n.attempt versioned a minimum request files = (.ok catalog, memory, request')) :
    ∃ f usage used, files = .ok f ∧
      n.admissible versioned a.operation request = .ok n.allocation ∧
      n.reservedUsage f = (.ok usage, memory) ∧
      used = usage.reservedPrivateBytes +
        usage.memory.unreservedRetainedPrivateEstimateBytes ∧
      request' = request.fit minimum
        (min n.allocation.privateWorkBytes versioned.work.privateWorkBytes) used ∧
      a.checkBudget versioned.work n.allocation minimum usage used request' = .ok () ∧
      n.insertReservation a.operation request' = .ok catalog := by
  unfold attempt at h
  cases hadmissible : n.admissible versioned a.operation request with
  | error e =>
    rw [hadmissible] at h
    cases h
  | ok allocation =>
    rw [hadmissible] at h
    obtain ⟨-, -, rfl, -, -⟩ := admissible_eq_ok hadmissible
    cases hfiles : files with
    | error e =>
      rw [hfiles] at h
      cases h
    | ok f =>
      rw [hfiles] at h
      simp only at h
      rcases husage : n.reservedUsage f with ⟨e | usage, s⟩
      · rw [husage] at h
        cases h
      · rw [husage] at h
        simp only at h
        cases hused : checkedAdd usage.reservedPrivateBytes
            usage.memory.unreservedRetainedPrivateEstimateBytes with
        | none =>
          rw [hused] at h
          cases h
        | some used =>
          rw [hused] at h
          simp only [Prod.mk.injEq, bind_eq_ok] at h
          obtain ⟨⟨_, hbudget, hinsert⟩, rfl, rfl⟩ := h
          exact ⟨f, usage, used, rfl, rfl, husage, (checkedAdd_eq_some.mp hused).1, rfl,
            hbudget, hinsert⟩

/-- The statement that inserts a reservation has been executed. -/
lemma insertReservation_eq_ok {operation : Id}
    (h : n.insertReservation operation request = .ok catalog) :
    n.catalog.execute (.reservation n.process.nextId (.insert
      { operation := operation
        bytes := request.stagingBytes
        slots := request.slots
        privateBytes := request.privateBytes })) = .ok catalog := by
  unfold insertReservation at h
  simp only [bind_eq_ok] at h
  obtain ⟨_, -, hinsert⟩ := h
  cases hresult : n.catalog.execute _ with
  | error e =>
    rw [hresult] at hinsert
    cases hinsert
  | ok c =>
    rw [hresult] at hinsert
    cases hinsert
    rfl

/-- The retained bytes that no active reservation covers. -/
def unreserved (n : Namespace) : ℤ :=
  n.process.account.usage.retainedPrivateEstimateBytes -
    n.process.account.covered.tally fun (id : Id) (bytes : ℕ) =>
      if id ∈ n.active then (bytes : ℤ) else 0

/-- A reservation is active iff its row exists. -/
lemma mem_active {id : Id} : id ∈ n.active ↔ ∃ r, n.catalog.tables.reservations.get? id = some r := by
  unfold active
  rw [Finset.mem_sort, FinMap.mem_keys]

/-- **What an admission does.** With the row of the reservation the sums over all rows are within
the allocation and the policy, the operation had no reservation before, and unless the work
reclaims storage, the charged storage is within its limit. -/
structure Admitted (before : Catalog) (versioned : VersionedPolicy) (a : Admission)
    (files : CatalogFiles) (n : Namespace) (record : ReservationRecord) : Prop where
  /-- The policy is the one that was read. -/
  policy : n.policy = versioned
  /-- The caller knows the allocation. -/
  allocation : n.allocation.version = a.request.allocationVersion
  /-- The operation had no reservation. -/
  fresh : ¬ before.tables.Reserved a.operation
  /-- The reservation is the one row that is added. -/
  row : before.tables.reservations.get? record.id = none ∧
    n.catalog.tables.reservations = before.tables.reservations.put record.id (some
      { operation := a.operation
        bytes := a.request.stagingBytes
        slots := a.request.slots
        privateBytes := record.request.privateBytes })
  /-- It has at most the private bytes that were asked for, and exactly those without a view. -/
  privateBytes : record.request.privateBytes ≤ a.request.privateBytes ∧
    (a.view = false → record.request.privateBytes = a.request.privateBytes)
  /-- The staging bytes. -/
  staging : n.catalog.tables.reservationSum (fun r => r.bytes) ≤
    min n.allocation.stagingBytes n.policy.work.stagingBytes
  /-- The private bytes, with the retained ones that no reservation covers. -/
  privateSum : n.catalog.tables.reservationSum (fun r => r.privateBytes) + n.unreserved ≤
    min n.allocation.privateWorkBytes n.policy.work.privateWorkBytes
  /-- The slots. -/
  slots : n.catalog.tables.reservationSum (fun r => r.slots) ≤
    min n.allocation.workSlots n.policy.work.workers
  /-- No sum has wrapped. -/
  inRange : n.catalog.tables.reservationSum (fun r => r.bytes) < Counter.size ∧
    n.catalog.tables.reservationSum (fun r => r.privateBytes) + n.unreserved < Counter.size ∧
    n.catalog.tables.reservationSum (fun r => r.slots) < Counter.size
  /-- The storage, unless it is reclaimed. -/
  storage : a.record.reclamation = false → ∀ limit, n.allocation.storageBytes = some limit →
    before.charged files + a.request.stagingBytes ≤ limit ∧ n.catalog.charged files ≤ limit

/-- A refused admission ends at most the coverage of reservations that are not active. -/
structure Refused (before n : Namespace) : Prop where
  /-- Only the memory account may differ. -/
  rest : n = before.setMemory n.process.account
  /-- Its totals are the same. -/
  totals : n.process.account.usage = before.process.account.usage
  /-- So is what active reservations cover. -/
  covered : ∀ id ∈ before.active,
    n.process.account.covered.get? id = before.process.account.covered.get? id

/-- A request that may have shrunk for a view. -/
structure Shrunk (a : Admission) (minimum : Option ℕ) (request : WorkRequest) : Prop where
  /-- The version. -/
  version : request.allocationVersion = a.request.allocationVersion
  /-- The staging bytes. -/
  staging : request.stagingBytes = a.request.stagingBytes
  /-- The slots. -/
  slots : request.slots = a.request.slots
  /-- The private bytes. -/
  privateBytes : request.privateBytes ≤ a.request.privateBytes
  /-- Only a view takes less. -/
  same : minimum = none → request.privateBytes = a.request.privateBytes

/-- A request may shrink further. -/
lemma Shrunk.fit (h : Shrunk a minimum request) (limit used : ℕ) :
    Shrunk a minimum (request.fit minimum limit used) := by
  cases minimum with
  | none => exact h
  | some _ =>
    exact ⟨h.version, h.staging, h.slots, (min_le_left _ _).trans h.privateBytes, nofun⟩

/-- The namespace that an admitted reservation leaves behind. -/
lemma unreserved_admitted {usage : MemoryUsage}
    (husage : n.process.account.usageOf n.active = (.ok usage, memory))
    (hactive : ∀ id ∈ n.active, id ∈ (n.admitted catalog memory request).active) :
    (n.admitted catalog memory request).unreserved =
      usage.unreservedRetainedPrivateEstimateBytes := by
  obtain ⟨rfl, hsnapshot⟩ := MemoryState.usageOf_eq_ok husage
  have hsplit := MemoryState.snapshot_eq_ok hsnapshot
  -- everything that is still covered is covered by an active reservation
  have hcovered : (n.process.account.retainActive n.active).covered.tally
        (fun (id : Id) (bytes : ℕ) =>
          if id ∈ (n.admitted catalog (n.process.account.retainActive n.active) request).active
          then (bytes : ℤ) else 0) =
      (n.process.account.retainActive n.active).covered.tally
        (fun (_ : Id) (bytes : ℕ) => (bytes : ℤ)) := by
    refine tally_congr fun id => ?_
    cases hget : (n.process.account.retainActive n.active).covered.get? id with
    | none => rw [contribution_of_none hget, contribution_of_none hget]
    | some bytes =>
      rw [contribution_of_some hget, contribution_of_some hget]
      have hid : id ∈ n.active := by
        have := (FinMap.get?_filter_eq_some.mp hget).2
        exact of_decide_eq_true this
      exact if_pos (hactive id hid)
  show ((n.process.account.retainActive n.active).usage.retainedPrivateEstimateBytes : ℤ) -
    (n.process.account.retainActive n.active).covered.tally _ = _
  rw [hcovered, hsplit]
  omega

/-- **A successful transaction** leaves the amounts within the limits.

**Proof sketch.** The counters that were compared are the sums over the rows before the insertion,
which adds the amounts of the request. The retained bytes that no reservation covers are those of
the snapshot, since the new reservation covers nothing yet. -/
theorem attempt_admitted (hconsistent : n.catalog.Consistent)
    (hpolicy : n.policy.version = versioned.version → n.policy = versioned)
    (hview : a.view = false → minimum = none) (hrequest : Shrunk a minimum request)
    (h : n.attempt versioned a minimum request files = (.ok catalog, memory, request')) :
    ∃ f, files = .ok f ∧ Admitted n.catalog versioned a f (n.admitted catalog memory request')
      ⟨n.process.nextId, a.operation, request'⟩ := by
  obtain ⟨f, usage, used, hfiles, hadmissible, husage, hused, hfit, hbudget, hinsert⟩ :=
    attempt_eq_ok h
  obtain ⟨-, hversion, -, hallocation, hfree⟩ := admissible_eq_ok hadmissible
  have hpolicy := hpolicy hversion
  obtain ⟨haccount, counter, hcounters, hledger, hstagingUsed, hprivateUsed, hslotsUsed⟩ :=
    reservedUsage_eq_ok husage
  obtain ⟨hstaging, hprivate, hslots, hstorage⟩ := Admission.checkBudget_eq_ok hbudget
  have hshrunk : Shrunk a minimum request' := hfit ▸ hrequest.fit _ _
  have hexecute := insertReservation_eq_ok hinsert
  obtain ⟨hget, htables⟩ := Catalog.tables_of_insertReservation hexecute
  have haggregate := hconsistent.aggregate_insertReservation hfree hexecute
  have hcounter := hconsistent.counters hcounters
  -- the sums over the rows, before and after
  have hstagingSum : (catalog.tables.reservationSum fun r => r.bytes) =
      usage.reservedStagingBytes + request'.stagingBytes := by
    rw [hstagingUsed, hcounter]
    exact haggregate .reservedStaging
  have hprivateSum : (catalog.tables.reservationSum fun r => r.privateBytes) =
      usage.reservedPrivateBytes + request'.privateBytes := by
    rw [hprivateUsed, hcounter]
    exact haggregate .reservedPrivate
  have hslotsSum : (catalog.tables.reservationSum fun r => r.slots) =
      usage.reservedSlots + request'.slots := by
    rw [hslotsUsed, hcounter]
    exact haggregate .reservedSlots
  have hunreserved : (n.admitted catalog memory request').unreserved =
      usage.memory.unreservedRetainedPrivateEstimateBytes := by
    refine unreserved_admitted haccount fun id hid => ?_
    obtain ⟨r, hr⟩ := mem_active.mp hid
    refine mem_active.mpr ⟨r, ?_⟩
    have hne : id ≠ n.process.nextId := by
      rintro rfl
      rw [hget] at hr
      cases hr
    show catalog.tables.reservations.get? id = some r
    rw [htables]
    exact (get?_put_of_ne _ hne _).trans hr
  refine ⟨f, hfiles,
    { policy := hpolicy
      allocation := hallocation.trans hrequest.version
      fresh := hfree
      row := ⟨hget, ?_⟩
      privateBytes := ⟨hshrunk.privateBytes, fun hv => hshrunk.same (hview hv)⟩
      staging := ?_
      privateSum := ?_
      slots := ?_
      inRange := ?_
      storage := fun hreclamation limit hlimit => ?_ }⟩
  · show catalog.tables.reservations = _
    rw [htables, ← hshrunk.staging, ← hshrunk.slots]
  · show (catalog.tables.reservationSum fun r => r.bytes) ≤
      min n.allocation.stagingBytes n.policy.work.stagingBytes
    rw [hstagingSum, hpolicy]
    exact_mod_cast hstaging.1
  · show (catalog.tables.reservationSum fun r => r.privateBytes) +
      (n.admitted catalog memory request').unreserved ≤
      min n.allocation.privateWorkBytes n.policy.work.privateWorkBytes
    rw [hprivateSum, hunreserved, hpolicy]
    omega
  · show (catalog.tables.reservationSum fun r => r.slots) ≤
      min n.allocation.workSlots n.policy.work.workers
    rw [hslotsSum, hpolicy]
    exact_mod_cast hslots.1
  · show (catalog.tables.reservationSum fun r => r.bytes) < Counter.size ∧
      (catalog.tables.reservationSum fun r => r.privateBytes) +
        (n.admitted catalog memory request').unreserved < Counter.size ∧
      (catalog.tables.reservationSum fun r => r.slots) < Counter.size
    rw [hstagingSum, hprivateSum, hslotsSum, hunreserved]
    omega
  · -- what the reservation has not consumed is at most its staging bytes
    have hbefore : (usage.storage.chargedOverlapLogicalBytes : ℤ) = n.catalog.charged f := by
      rw [Catalog.ledger_eq_ok hledger]
      push_cast
      rw [hcounter, hcounter, hcounter, hcounter, hcounter]
      rfl
    have hlimit' := hstorage limit hlimit hreclamation
    have hcharged := hconsistent.charged_insertReservation hfree hexecute f
    rw [← hbefore] at hcharged
    have hstaging' := hshrunk.staging
    refine ⟨?_, ?_⟩
    · rw [← hbefore, ← hstaging']
      exact_mod_cast hlimit'
    · show catalog.charged f ≤ limit
      simp only at hcharged
      omega

/-- Reading the amounts in use ends at most the coverage of reservations that are not active. -/
lemma refused_reservedUsage (n : Namespace) (files : CatalogFiles) :
    Refused n (n.setMemory (n.reservedUsage files).2) := by
  have hsnd : (n.reservedUsage files).2 = (n.process.account.usageOf n.active).2 := by
    unfold reservedUsage
    rcases n.process.account.usageOf n.active with ⟨e | usage, s⟩ <;> rfl
  obtain ⟨htotals, hcovered⟩ := MemoryState.usageOf_keeps n.process.account n.active
  rw [hsnd]
  exact ⟨rfl, htotals, hcovered⟩

/-- A transaction that is not successful ends at most the coverage of reservations that are not
active. -/
lemma attempt_refused {e : Error}
    (h : n.attempt versioned a minimum request files = (.error e, memory, request')) :
    Refused n (n.setMemory memory) ∧ (Shrunk a minimum request → Shrunk a minimum request') := by
  have hsame : Refused n (n.setMemory n.process.account) := ⟨rfl, rfl, fun _ _ => rfl⟩
  unfold attempt at h
  cases hadmissible : n.admissible versioned a.operation request with
  | error e =>
    rw [hadmissible] at h
    cases h
    exact ⟨hsame, id⟩
  | ok allocation =>
    rw [hadmissible] at h
    cases hfiles : files with
    | error e =>
      rw [hfiles] at h
      cases h
      exact ⟨hsame, id⟩
    | ok f =>
      rw [hfiles] at h
      simp only at h
      have hrefused := n.refused_reservedUsage f
      rcases husage : n.reservedUsage f with ⟨e | usage, s⟩
      · rw [husage] at h hrefused
        cases h
        exact ⟨hrefused, id⟩
      · rw [husage] at h hrefused
        simp only at h
        cases hused : checkedAdd usage.reservedPrivateBytes
            usage.memory.unreservedRetainedPrivateEstimateBytes with
        | none =>
          rw [hused] at h
          cases h
          exact ⟨hrefused, id⟩
        | some used =>
          rw [hused] at h
          simp only [Prod.mk.injEq] at h
          obtain ⟨-, rfl, rfl⟩ := h
          exact ⟨hrefused, fun hshrunk => hshrunk.fit _ _⟩

/-- **The transactions of an admission.** It is refused before the first one, or admitted or
refused by it, or admitted or refused by the second one. -/
theorem reserveInner_cases (n : Namespace) (versioned : VersionedPolicy) (a : Admission)
    (around : Surroundings) :
    (∃ e, n.reserveInner versioned a around = (.error e, n)) ∨
    ∃ minimum, a.preflight versioned = .ok minimum ∧
      ((∃ catalog memory request,
        n.attempt versioned a minimum a.request around.files = (.ok catalog, memory, request) ∧
        n.reserveInner versioned a around =
          (.ok ⟨n.process.nextId, a.operation, request⟩, n.admitted catalog memory request)) ∨
      ∃ e memory request,
        n.attempt versioned a minimum a.request around.files = (.error e, memory, request) ∧
        ((∃ e, n.reserveInner versioned a around = (.error e, n.setMemory memory)) ∨
        ∃ m, m = (n.setMemory memory).changes around.between ∧
          ((∃ catalog memory request',
            m.attempt versioned a minimum request around.filesAfter =
              (.ok catalog, memory, request') ∧
            n.reserveInner versioned a around =
              (.ok ⟨m.process.nextId, a.operation, request'⟩,
                m.admitted catalog memory request')) ∨
          ∃ e memory request',
            m.attempt versioned a minimum request around.filesAfter =
              (.error e, memory, request') ∧
            n.reserveInner versioned a around = (.error e, m.setMemory memory)))) := by
  unfold reserveInner
  cases hpreflight : a.preflight versioned with
  | error e => exact .inl ⟨e, rfl⟩
  | ok minimum =>
    refine .inr ⟨minimum, rfl, ?_⟩
    simp only
    rcases hattempt : n.attempt versioned a minimum a.request around.files with
      ⟨e | catalog, memory, request⟩
    · refine .inr ⟨e, memory, request, rfl, ?_⟩
      simp only
      split_ifs with hstorage
      · cases around.truncated with
        | error e' => exact .inl ⟨e', rfl⟩
        | ok truncated =>
          cases truncated with
          | false => exact .inl ⟨e, rfl⟩
          | true =>
            refine .inr ⟨_, rfl, ?_⟩
            simp only
            rcases hsecond : ((n.setMemory memory).changes around.between).attempt versioned a
                minimum request around.filesAfter with ⟨e' | catalog, memory', request'⟩
            · exact .inr ⟨e', memory', request', rfl, rfl⟩
            · exact .inl ⟨catalog, memory', request', rfl, rfl⟩
      · exact .inl ⟨e, rfl⟩
    · exact .inl ⟨catalog, memory, request, rfl, rfl⟩

/-! ## The policy along a run -/

/-- The policy changes with its version only, which never decreases. -/
def Follows (n n' : Namespace) : Prop :=
  n.policy.version ≤ n'.policy.version ∧
    (n'.policy.version = n.policy.version → n'.policy = n.policy)

/-- Nothing has changed. -/
lemma Follows.of_eq (h : n'.policy = n.policy) : n.Follows n' :=
  ⟨(congrArg VersionedPolicy.version h).ge, fun _ => h⟩

/-- Two parts of a run. -/
lemma Follows.trans {n₁ n₂ n₃ : Namespace} (h₁ : n₁.Follows n₂) (h₂ : n₂.Follows n₃) :
    n₁.Follows n₃ := by
  obtain ⟨hle₁, heq₁⟩ := h₁
  obtain ⟨hle₂, heq₂⟩ := h₂
  refine ⟨hle₁.trans hle₂, fun hversion => ?_⟩
  rw [heq₂ (by omega), heq₁ (by omega)]

/-- What holds between calls, with respect to an earlier namespace. -/
structure Sound (earlier n : Namespace) : Prop where
  /-- The catalog is consistent. -/
  consistent : n.catalog.Consistent
  /-- The policy follows the earlier one. -/
  follows : earlier.Follows n

namespace Sound

variable {earlier : Namespace}

variable (h : earlier.Sound n)

include h

/-- Neither the memory account nor the permits matter. -/
lemma of_eq (hcatalog : n'.catalog = n.catalog)
    (hpolicy : n'.policy = n.policy) : earlier.Sound n' :=
  ⟨hcatalog ▸ h.consistent, h.follows.trans (.of_eq hpolicy)⟩

/-- A statement. -/
lemma statement {s : Statement} (hcatalog : n'.catalog = n.catalog.step s)
    (hpolicy : n'.policy = n.policy) : earlier.Sound n' :=
  ⟨hcatalog ▸ h.consistent.step s, h.follows.trans (.of_eq hpolicy)⟩

/-- A change. -/
lemma change (c : Change) : earlier.Sound (n.change c) := by
  cases c with
  | object id event => exact h.statement rfl rfl
  | reference id event => exact h.statement rfl rfl
  | controlFile id event => exact h.statement rfl rfl
  | record id event => exact h.statement rfl rfl
  | policy expected work =>
    show earlier.Sound (n.orKeep (n.updatePolicy expected work))
    cases hupdate : n.updatePolicy expected work with
    | error e => exact h
    | ok n' =>
      unfold updatePolicy at hupdate
      simp only [bind_eq_ok] at hupdate
      obtain ⟨_, _, _, _, _, _, hresult⟩ := hupdate
      cases hresult
      refine ⟨h.consistent, h.follows.trans ⟨Nat.le_succ _, fun hversion => ?_⟩⟩
      exact absurd hversion (Nat.succ_ne_self _)
  | allocation expected allocation =>
    show earlier.Sound (n.orKeep (n.updateAllocation expected allocation))
    cases hupdate : n.updateAllocation expected allocation with
    | error e => exact h
    | ok n' =>
      unfold updateAllocation at hupdate
      simp only [bind_eq_ok] at hupdate
      obtain ⟨_, _, _, _, _, _, _, _, hresult⟩ := hupdate
      cases hresult
      exact h.of_eq rfl rfl
  | admission state => exact h.of_eq rfl rfl

/-- Some changes. -/
lemma changes (cs : List Change) : earlier.Sound (n.changes cs) :=
  Run.invariant (fun _ c h _ => h.change c) h (Run.AllSteps.of_forall (fun _ _ => trivial) _ cs)

/-- An admitted reservation. -/
lemma attempt
    (hattempt : n.attempt versioned a minimum request files = (.ok catalog, memory, request')) :
    earlier.Sound (n.admitted catalog memory request') := by
  obtain ⟨_, _, _, _, _, _, _, _, _, hinsert⟩ := attempt_eq_ok hattempt
  have hexecute := h.consistent.execute (.reservation n.process.nextId (.insert
    { operation := a.operation
      bytes := request'.stagingBytes
      slots := request'.slots
      privateBytes := request'.privateBytes }))
  rw [insertReservation_eq_ok hinsert] at hexecute
  exact ⟨hexecute, h.follows.trans (.of_eq rfl)⟩

/-- An admission. -/
lemma reserveInner (versioned : VersionedPolicy) (a : Admission)
    (around : Surroundings) : earlier.Sound (n.reserveInner versioned a around).2 := by
  have hmemory : ∀ {n : Namespace} (memory : MemoryState), earlier.Sound n →
      earlier.Sound (n.setMemory memory) := fun _ h => h.of_eq rfl rfl
  obtain ⟨e, heq⟩ | ⟨minimum, -, ⟨catalog, memory, request, hattempt, heq⟩ |
    ⟨e, memory, request, -, ⟨e', heq⟩ | ⟨m, rfl, ⟨catalog, memory', request', hattempt, heq⟩ |
      ⟨e', memory', request', -, heq⟩⟩⟩⟩ := n.reserveInner_cases versioned a around
  · rw [heq]
    exact h
  · rw [heq]
    exact h.attempt hattempt
  · rw [heq]
    exact hmemory memory h
  · rw [heq]
    exact ((hmemory memory h).changes around.between).attempt hattempt
  · rw [heq]
    exact hmemory memory' ((hmemory memory h).changes around.between)

end Sound

/-! ## Changes and the memory account -/

/-- What is kept of a fallible operation, under another memory account. -/
lemma orKeep_setMemory (n : Namespace) (memory : MemoryState) (r : Except Error Namespace) :
    (n.setMemory memory).orKeep (r.map fun n => n.setMemory memory) =
      (n.orKeep r).setMemory memory := by
  cases r <;> rfl

/-- Requiring a condition before a computation. -/
lemma map_require {p : Prop} [Decidable p] {e : Error} {r r' : Except Error Namespace}
    {f : Namespace → Namespace} (h : r' = r.map f) :
    (do require p e; r') = (do require p e; r : Except Error Namespace).map f := by
  rw [h]
  unfold require
  split_ifs <;> rfl

/-- A change neither reads nor writes the memory account. -/
lemma change_setMemory (n : Namespace) (memory : MemoryState) (c : Change) :
    (n.setMemory memory).change c = (n.change c).setMemory memory := by
  cases c with
  | policy expected work =>
    show orKeep _ _ = (orKeep _ _).setMemory _
    rw [← orKeep_setMemory]
    congr 1
    unfold updatePolicy
    cases work.validate with
    | error e => rfl
    | ok _ => exact map_require (map_require rfl)
  | allocation expected allocation =>
    show orKeep _ _ = (orKeep _ _).setMemory _
    rw [← orKeep_setMemory]
    congr 1
    unfold updateAllocation
    cases allocation.validate with
    | error e => rfl
    | ok _ => exact map_require (map_require (map_require rfl))
  | _ => rfl

/-- Changes neither read nor write the memory account. -/
lemma changes_setMemory (n : Namespace) (memory : MemoryState) (cs : List Change) :
    (n.setMemory memory).changes cs = (n.changes cs).setMemory memory := by
  induction cs generalizing n with
  | nil => rfl
  | cons c cs ih =>
    show ((n.setMemory memory).change c).changes cs = ((n.change c).changes cs).setMemory memory
    rw [change_setMemory, ih]

/-- A change leaves the process and the reservations alone. -/
lemma process_change (n : Namespace) (c : Change) :
    (n.change c).process = n.process ∧ (n.change c).active = n.active := by
  have hactive : ∀ {n' : Namespace},
      n'.catalog.tables.reservations = n.catalog.tables.reservations → n'.active = n.active := by
    intro n' h
    unfold active
    rw [h]
  have hkeep : ∀ r : Except Error Namespace,
      (∀ n', r = .ok n' → n'.process = n.process ∧ n'.catalog = n.catalog) →
      (n.orKeep r).process = n.process ∧ (n.orKeep r).active = n.active := by
    intro r hr
    cases r with
    | error e => exact ⟨rfl, rfl⟩
    | ok n' =>
      obtain ⟨hprocess, hcatalog⟩ := hr n' rfl
      exact ⟨hprocess, hactive (by rw [← hcatalog]; rfl)⟩
  cases c with
  | object id event =>
    exact ⟨rfl, hactive (Catalog.KeepsReservations.onRow
      (Catalog.KeepsReservations.putObject n.catalog) event).step⟩
  | reference id event =>
    exact ⟨rfl, hactive (Catalog.KeepsReservations.onRow
      (Catalog.KeepsReservations.putReference n.catalog) event).step⟩
  | controlFile id event =>
    exact ⟨rfl, hactive (Catalog.KeepsReservations.onRow
      (Catalog.KeepsReservations.putControlFile n.catalog) event).step⟩
  | record id event =>
    exact ⟨rfl, hactive (Catalog.KeepsReservations.onRow
      (Catalog.KeepsReservations.putRecord n.catalog) event).step⟩
  | policy expected work =>
    refine hkeep _ fun n' hupdate => ?_
    unfold updatePolicy at hupdate
    simp only [bind_eq_ok] at hupdate
    obtain ⟨_, _, _, _, _, _, hresult⟩ := hupdate
    cases hresult
    exact ⟨rfl, rfl⟩
  | allocation expected allocation =>
    refine hkeep _ fun n' hupdate => ?_
    unfold updateAllocation at hupdate
    simp only [bind_eq_ok] at hupdate
    obtain ⟨_, _, _, _, _, _, _, _, hresult⟩ := hupdate
    cases hresult
    exact ⟨rfl, rfl⟩
  | admission state => exact ⟨rfl, rfl⟩

/-- Changes leave the process and the reservations alone. -/
lemma process_changes (n : Namespace) (cs : List Change) :
    (n.changes cs).process = n.process ∧ (n.changes cs).active = n.active := by
  induction cs generalizing n with
  | nil => exact ⟨rfl, rfl⟩
  | cons c cs ih =>
    obtain ⟨hprocess, hactive⟩ := n.process_change c
    obtain ⟨hprocess', hactive'⟩ := ih (n.change c)
    exact ⟨hprocess'.trans hprocess, hactive'.trans hactive⟩

/-- A refused transaction after changes, and another one after that. -/
lemma Refused.second {memory' : MemoryState} (h : Refused n (n.setMemory memory))
    (cs : List Change)
    (h' : Refused ((n.setMemory memory).changes cs)
      (((n.setMemory memory).changes cs).setMemory memory')) :
    Refused (n.changes cs) (((n.setMemory memory).changes cs).setMemory memory') := by
  obtain ⟨hprocess, hactive⟩ := n.process_changes cs
  rw [changes_setMemory] at h' ⊢
  refine ⟨rfl, ?_, fun id hid => ?_⟩
  · rw [hprocess]
    exact h'.totals.trans h.totals
  · have hid' : id ∈ n.active := hactive ▸ hid
    rw [hprocess]
    exact (h'.covered id hid).trans (h.covered id hid')

/-! ## Every run -/

/-- What an admission leads to: the reservation is admitted in the namespace as it was, or as
other threads had changed it before the second transaction; or the request is refused there. -/
def Outcome (n : Namespace) (versioned : VersionedPolicy) (a : Admission)
    (around : Surroundings) : Except Error ReservationRecord × Namespace → Prop
  | (.ok record, n') => ∃ cs files,
      (cs = [] ∧ around.files = .ok files ∨
        cs = around.between ∧ around.filesAfter = .ok files) ∧
      Admitted (n.changes cs).catalog versioned a files n' record
  | (.error _, n') => ∃ cs, (cs = [] ∨ cs = around.between) ∧ Refused (n.changes cs) n'

variable {earlier : Namespace}

/-- An admission with the policy of an earlier namespace. -/
lemma Sound.outcome (h : earlier.Sound n) (a : Admission) (around : Surroundings) :
    n.Outcome earlier.policy a around (n.reserveInner earlier.policy a around) := by
  have hpolicy : ∀ {m : Namespace}, earlier.Sound m →
      m.policy.version = earlier.policy.version → m.policy = earlier.policy :=
    fun hm hversion => hm.follows.2 hversion
  obtain ⟨e, heq⟩ | ⟨minimum, hpreflight, hcases⟩ := n.reserveInner_cases earlier.policy a around
  · rw [heq]
    exact ⟨[], .inl rfl, rfl, rfl, fun _ _ => rfl⟩
  · have hview : a.view = false → minimum = none := by
      intro hview
      unfold Admission.preflight at hpreflight
      simp only [hview, Bool.false_eq_true, if_false, bind_eq_ok] at hpreflight
      obtain ⟨_, hminimum, _, _, _, _, _, _, _, _, _, _, hresult⟩ := hpreflight
      cases hminimum
      cases hresult
      rfl
    have hrequest : Shrunk a minimum a.request := ⟨rfl, rfl, rfl, le_rfl, fun _ => rfl⟩
    obtain ⟨catalog, memory, request, hattempt, heq⟩ |
      ⟨e, memory, request, hattempt, ⟨e', heq⟩ | ⟨m, rfl, ⟨catalog, memory', request', hsecond, heq⟩ |
        ⟨e', memory', request', hsecond, heq⟩⟩⟩ := hcases
    · rw [heq]
      obtain ⟨f, hf, hadmitted⟩ :=
        attempt_admitted h.consistent (hpolicy h) hview hrequest hattempt
      exact ⟨[], f, .inl ⟨rfl, hf⟩, hadmitted⟩
    · rw [heq]
      exact ⟨[], .inl rfl, (attempt_refused hattempt).1⟩
    · rw [heq]
      have hmemory : earlier.Sound (n.setMemory memory) := h.of_eq rfl rfl
      have hm := hmemory.changes around.between
      obtain ⟨f, hf, hadmitted⟩ := attempt_admitted hm.consistent (hpolicy hm) hview
        ((attempt_refused hattempt).2 hrequest) hsecond
      rw [changes_setMemory] at hadmitted
      exact ⟨around.between, f, .inr ⟨rfl, hf⟩, by rw [changes_setMemory]; exact hadmitted⟩
    · rw [heq]
      exact ⟨around.between, .inr rfl,
        (attempt_refused hattempt).1.second _ (attempt_refused hsecond).1⟩

/-- Deleting a reservation keeps the catalog consistent. -/
lemma Sound.deleteReservation (h : earlier.Sound n) {id : Id} {transaction : Except Error Unit}
    (hdelete : n.deleteReservation id transaction = .ok catalog) : catalog.Consistent := by
  obtain ⟨_, -, hresult⟩ := Loops.bind_eq_ok.mp hdelete
  have hexecute := h.consistent.execute (.reservation id .delete)
  cases heq : n.catalog.execute (.reservation id .delete) with
  | error e =>
    rw [heq] at hresult
    cases hresult
  | ok c =>
    rw [heq] at hresult hexecute
    cases hresult
    exact hexecute

/-- Releasing a reservation. -/
lemma Sound.finish (h : earlier.Sound n) (id : Id) (transaction : Except Error Unit) :
    earlier.Sound (n.finish id transaction) := by
  unfold Namespace.finish
  cases n.process.permits.get? id with
  | none => exact h
  | some p =>
    simp only
    split
    · rename_i catalog _ hdelete _
      exact ⟨h.deleteReservation hdelete, h.follows.trans (.of_eq rfl)⟩
    · exact h.of_eq rfl rfl

/-- A call on a permit, a charge or an allocation. -/
lemma Sound.permitCall (h : earlier.Sound n) (c : Process.Call) :
    earlier.Sound (n.permitCall c) := by
  cases c with
  | reserve privateLimit => exact h
  | finish id transaction => exact h.finish id transaction
  | dropPermit id transaction =>
    show earlier.Sound (n.dropPermit id transaction)
    unfold dropPermit
    cases n.process.permits.get? id with
    | none => exact h
    | some p =>
      simp only
      split_ifs
      · exact h
      · exact h.of_eq rfl rfl
      · exact (h.finish id transaction).of_eq rfl rfl
  | recover id =>
    show earlier.Sound (n.recover id)
    unfold recover
    cases hdelete : n.deleteReservation id (.ok ()) with
    | error e => exact h
    | ok catalog => exact ⟨h.deleteReservation hdelete, h.follows.trans (.of_eq rfl)⟩
  | _ => exact h.of_eq rfl rfl

/-- A call. -/
lemma Sound.step (h : earlier.Sound n) (c : Call) : earlier.Sound (n.step c) := by
  cases c with
  | change c => exact h.change c
  | reserve versioned a around => exact h.reserveInner versioned a around
  | permit c => exact h.permitCall c

/-- A run of calls. -/
lemma Sound.run (h : earlier.Sound n) (calls : List Call) :
    earlier.Sound (calls.foldl Namespace.step n) :=
  Run.invariant (fun _ c h _ => h.step c) h (Run.AllSteps.of_forall (fun _ _ => trivial) _ calls)

/-- A new namespace. -/
lemma sound_create (limits : ValidLimits) : (create limits).Sound (create limits) :=
  ⟨Catalog.consistent_empty, .of_eq rfl⟩

/-- Every reachable namespace, with respect to an earlier one. -/
lemma sound_run (limits : ValidLimits) (earlier later : List Call) :
    (run limits earlier).Sound (run limits (earlier ++ later)) := by
  have hearlier : (create limits).Sound (run limits earlier) := (sound_create limits).run earlier
  have hself : (run limits earlier).Sound (run limits earlier) :=
    ⟨hearlier.consistent, .of_eq rfl⟩
  unfold run
  rw [foldl_append]
  exact hself.run later

end Namespace

end Tgrep.Managed
