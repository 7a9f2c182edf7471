import Tgrep.Data.Run
import Tgrep.Managed.AccountingInvariant

/-!
# The counters equal the recomputed aggregates

After every run of statements each counter is the aggregate of the tables, and no check that a
column is not negative has failed. What an operation may still come to is not determined by its
objects alone, because the bound on their floors is not lowered when the largest one goes; it is
zero for an operation that is reserved or has no unsealed object, and bounded from below otherwise.

## Main definitions

* `Tables.Reserved`, `Tables.uncertain`: an operation is reserved, and what it may still come to.
* `Tables.aggregate`: a counter, recomputed from the tables.

## Main results

* `Catalog.Consistent.execute`: every statement keeps the invariant, or is refused for another
  reason than a negative column.
* `Catalog.Consistent.aggregate`: the counters of a consistent catalog.
* `Catalog.totals_run`: the counters of every reachable catalog.
-/

namespace Tgrep.Managed

open Option FinMap

/-! ## Aggregates -/

namespace Tables

/-- An amount, summed over the objects that have not been removed. -/
def objectSum (t : Tables) (f : Id → ObjectRow → ℤ) : ℤ :=
  t.objects.tally fun id o => if o.state ≠ .removed then f id o else 0

/-- The number of the objects that have not been removed and satisfy a predicate. -/
def objectCount (t : Tables) (p : ObjectRow → Prop) [DecidablePred p] : ℤ :=
  t.objectSum fun _ o => indicator (p o)

/-- An amount, summed over the control files that have not been removed. -/
def controlSum (t : Tables) (f : ControlFileRow → ℤ) : ℤ :=
  t.controlFiles.tally fun _ file => if file.removed then 0 else f file

/-- An amount, summed over the compatibility generations. -/
def compatibilitySum (t : Tables) (f : RecordRow → ℤ) : ℤ :=
  t.records.tally fun _ r => if r.compatibilityGeneration then f r else 0

/-- An amount, summed over the reservations. -/
def reservationSum (t : Tables) (f : ReservationRow → ℤ) : ℤ := t.reservations.tally fun _ r => f r

/-- The operation has a reservation. -/
def Reserved (t : Tables) (operation : Id) : Prop :=
  ∃ id r, t.reservations.get? id = some r ∧ r.operation = operation

/-- What an operation may still come to. -/
def uncertain (t : Tables) (operation : Id) : ℤ :=
  if (t.reservationOf operation).isSome then 0
  else ((t.operationStorage.get? operation).map OperationStorage.uncertain).getD 0

/-- **A counter, recomputed from the tables.** -/
def aggregate (t : Tables) : Total → ℤ
  | .objectLogical => t.objectSum fun _ o => o.logicalBytes
  | .objectAllocated => t.objectSum fun _ o => o.allocatedBytes.value
  | .objectUnavailable => t.objectSum fun _ o => o.allocatedBytes.missing
  | .objectProtected => t.objectSum fun id o => if t.referenced id then o.logicalBytes else 0
  | .objectPending => t.objectSum fun _ o => if o.state = .pendingDeletion then o.logicalBytes else 0
  | .generationsPublished => t.objectCount fun o => o.kind = .generation ∧ o.state = .published
  | .generationsRetired =>
    t.objectCount fun o => o.kind = .generation ∧ (o.state = .retired ∨ o.state = .pendingDeletion)
  | .checkpoints => t.objectCount fun o => o.kind = .checkpoint
  | .preparations => t.objectCount fun o => o.state = .preparing
  | .quarantined => t.objectCount fun o => o.state = .quarantined
  | .controlLogical => t.controlSum fun f => f.logicalBytes
  | .controlAllocated => t.controlSum fun f => f.allocatedBytes.value
  | .controlUnavailable => t.controlSum fun f => f.allocatedBytes.missing
  | .compatibilityLogical => t.compatibilitySum fun r => r.logicalBytes
  | .compatibilityAllocated => t.compatibilitySum fun r => r.allocatedBytes.value
  | .compatibilityUnavailable => t.compatibilitySum fun r => r.allocatedBytes.missing
  | .compatibilityGenerations => t.compatibilitySum fun _ => 1
  | .reservations => t.reservationSum fun _ => 1
  | .reservedStaging => t.reservationSum fun r => r.bytes
  | .reservedPrivate => t.reservationSum fun r => r.privateBytes
  | .reservedSlots => t.reservationSum fun r => r.slots
  | .unconsumedStaging =>
    t.reservationSum fun r => max 0 (r.bytes - operationBytes t.objects r.operation)
  | .uncertainStaging =>
    (t.objectSum fun _ o =>
      if o.operation = none then max 0 ((o.accountingFloor : ℤ) - o.logicalBytes) else 0) +
      ∑ operation ∈ t.operationStorage.keys, t.uncertain operation

variable {t : Tables} {operation : Id}

/-- An operation is reserved iff its reservation is found. -/
lemma reserved_iff : t.Reserved operation ↔ (t.reservationOf operation).isSome = true := by
  rw [← not_iff_not, Bool.not_eq_true, isSome_eq_false_iff, isNone_reservationOf]
  unfold Reserved
  push Not
  rfl

/-- An operation that is reserved comes to nothing more. -/
lemma uncertain_eq_zero_of_reserved (h : t.Reserved operation) : t.uncertain operation = 0 :=
  if_pos (reserved_iff.mp h)

/-- What operations may still come to is tallied over their storage. -/
lemma sum_uncertain (t : Tables) : ∑ operation ∈ t.operationStorage.keys, t.uncertain operation =
    t.operationStorage.tally (t.storagePart .uncertainStaging) := by
  refine Finset.sum_congr rfl fun operation _ => ?_
  rw [contribution_uncertain]
  unfold uncertain
  cases t.reservationOf operation <;> rfl

section Parts

variable (t)

@[simp] lemma objectSum_zero : (t.objectSum fun _ _ => 0) = 0 := by
  simp [objectSum]

@[simp] lemma controlSum_zero : (t.controlSum fun _ => 0) = 0 := by
  simp [controlSum]

@[simp] lemma compatibilitySum_zero : (t.compatibilitySum fun _ => 0) = 0 := by
  simp [compatibilitySum]

@[simp] lemma reservationSum_zero : (t.reservationSum fun _ => 0) = 0 := by
  simp [reservationSum]

/-- The part of the objects is a sum over those that have not been removed. -/
lemma tally_objectPart (name : Total) : t.objects.tally (t.objectPart name) =
    t.objectSum fun id o => objectMetric name t id o := by
  unfold objectSum objectPart Catalog.objectCounts
  simp only [decide_eq_true_eq]

/-- The part of the control files. -/
lemma tally_controlPart (name : Total) : t.controlFiles.tally (t.controlPart name) =
    t.controlSum fun f => controlMetric name t 0 f := by
  refine tally_congr fun id => ?_
  unfold FinMap.contribution controlPart
  cases t.controlFiles.get? id with
  | none => rfl
  | some f =>
    simp only [map_some, getD_some]
    cases f.removed <;> cases name <;> rfl

/-- The part of the records. -/
lemma tally_recordPart (name : Total) : t.records.tally (t.recordPart name) =
    t.compatibilitySum fun r => recordMetric name t 0 r := by
  refine tally_congr fun id => ?_
  unfold FinMap.contribution recordPart
  cases t.records.get? id with
  | none => rfl
  | some r =>
    simp only [map_some, getD_some]
    cases r.compatibilityGeneration <;> cases name <;> rfl

/-- The part of the reservations, when it reads no other table. -/
lemma tally_reservationPart {name : Total}
    (hname : name ∉ [Total.unconsumedStaging, .uncertainStaging]) :
    t.reservations.tally (t.reservationPart name) =
      t.reservationSum fun r => reservationMetric name {} 0 r := by
  refine tally_congr fun id => ?_
  unfold FinMap.contribution reservationPart
  cases t.reservations.get? id with
  | none => rfl
  | some r => cases name <;> first | rfl | exact absurd (by decide) hname

/-- Only what operations may still come to is tallied over their storage. -/
lemma tally_storagePart_of_ne {name : Total} (hname : name ≠ .uncertainStaging) :
    t.operationStorage.tally (t.storagePart name) = 0 := by
  have hpart : t.storagePart name = fun _ _ => 0 := by
    funext id s
    exact if_neg hname
  rw [hpart, tally_zero]

end Parts

end Tables

/-- The bytes that the storage of an operation records are those of its objects. -/
lemma StorageMatches.logical {storage : FinMap Id OperationStorage}
    {objects : FinMap Id ObjectRow} (h : StorageMatches storage objects) (operation : Id) :
    ((storage.get? operation).map OperationStorage.logical).getD 0 =
      operationBytes objects operation := by
  have hmatch := h operation
  cases hs : storage.get? operation with
  | none =>
    rw [hs] at hmatch
    exact (operationTally_eq_zero hmatch _).symm
  | some s =>
    rw [hs] at hmatch
    exact hmatch.1.logical

namespace Catalog

variable {c : Catalog}

/-- **The counters of a consistent catalog** are the aggregates of its tables. -/
theorem Consistent.aggregate (h : c.Consistent) (name : Total) :
    c.totals name = c.tables.aggregate name := by
  rw [h.tallied name, Tables.recompute, Tables.tally_objectPart, Tables.tally_controlPart,
    Tables.tally_recordPart]
  cases name with
  | unconsumedStaging =>
    have hpart : c.tables.reservations.tally (c.tables.reservationPart .unconsumedStaging) =
        c.tables.aggregate .unconsumedStaging := by
      refine tally_congr fun id => ?_
      cases hget : c.tables.reservations.get? id with
      | none => rw [contribution_of_none hget, contribution_of_none hget]
      | some r =>
        rw [contribution_of_some hget, contribution_of_some hget]
        show max 0 (r.bytes - ((c.tables.operationStorage.get? r.operation).map
          OperationStorage.logical).getD 0 : ℤ) = _
        rw [h.storage.logical]
    rw [hpart, Tables.tally_storagePart_of_ne _ (by decide)]
    simp [objectMetric, controlMetric, recordMetric]
  | uncertainStaging =>
    have hzero : c.tables.reservations.tally (c.tables.reservationPart .uncertainStaging) = 0 :=
      c.tables.reservationSum_zero
    rw [hzero, ← Tables.sum_uncertain]
    simp [objectMetric, controlMetric, recordMetric, Tables.aggregate]
  | _ =>
    rw [Tables.tally_storagePart_of_ne _ (by decide), Tables.tally_reservationPart _ (by decide)]
    simp [objectMetric, controlMetric, recordMetric, reservationMetric, Tables.aggregate,
      Tables.objectCount]

/-- What an operation without a reservation may still come to covers its unsealed objects. -/
lemma Consistent.le_uncertain (h : c.Consistent) {operation id : Id} {o : ObjectRow}
    (hreserved : ¬ c.tables.Reserved operation) (hget : c.tables.objects.get? id = some o)
    (hin : o.InOperation operation) (hfloor : 0 < o.accountingFloor) :
    o.accountingFloor - operationBytes c.tables.objects operation ≤
      c.tables.uncertain operation := by
  have hmatch := h.storage operation
  cases hs : c.tables.operationStorage.get? operation with
  | none =>
    rw [hs] at hmatch
    exact absurd hin (not_inOperation hmatch hget)
  | some s =>
    rw [hs] at hmatch
    obtain ⟨hsums, -⟩ := hmatch
    have hunsealed : s.unsealed > 0 := by
      have hle := le_operationTally (f := fun o => indicator (o.accountingFloor > 0))
        (fun o => indicator_nonneg _) hget hin
      have hone : indicator (o.accountingFloor > 0) = 1 := if_pos hfloor
      have hcount : s.unsealed = operationUnsealed c.tables.objects operation := hsums.unsealed
      unfold operationUnsealed at hcount
      omega
    have hfloor_le := hsums.floor_le id o hget hin
    unfold Tables.uncertain
    rw [if_neg fun hsome => hreserved (Tables.reserved_iff.mpr hsome), hs, map_some,
      getD_some, OperationStorage.uncertain, if_pos hunsealed, hsums.logical]
    omega

/-- An operation without unsealed objects comes to nothing more. -/
lemma Consistent.uncertain_eq_zero (h : c.Consistent) {operation : Id}
    (hsealed : ∀ id o, c.tables.objects.get? id = some o → o.InOperation operation →
      o.accountingFloor = 0) : c.tables.uncertain operation = 0 := by
  have hmatch := h.storage operation
  unfold Tables.uncertain
  split_ifs
  · rfl
  · cases hs : c.tables.operationStorage.get? operation with
    | none => rfl
    | some s =>
      rw [hs] at hmatch
      have hunsealed : s.unsealed = 0 := by
        rw [hmatch.1.unsealed]
        refine Finset.sum_eq_zero fun id _ => ?_
        cases hget : c.tables.objects.get? id with
        | none => rw [contribution_of_none hget]
        | some o =>
          rw [contribution_of_some hget]
          split_ifs with hin
          · show indicator (o.accountingFloor > 0) = 0
            rw [hsealed id o hget hin]
            rfl
          · rfl
      rw [map_some, getD_some, OperationStorage.uncertain, hunsealed]
      rfl

/-! ## Runs -/

/-- A statement keeps the invariant if writing a row does. -/
lemma Consistent.onRow {ρ : Type} (h : c.Consistent) {row : Option ρ}
    {put : Option ρ → Except Refusal Catalog} (hput : ∀ new, Executes (put new) Consistent)
    (event : Event ρ) : Executes (c.onRow row put event) Consistent := by
  cases event with
  | insert new =>
    show Executes (if row.isSome then .error .constraint else put (some new)) Consistent
    split_ifs
    · exact fun heq => nomatch heq
    · exact hput _
  | update new =>
    show Executes (if row.isSome then put (some new) else .ok c) Consistent
    split_ifs
    · exact hput _
    · exact h
  | delete =>
    show Executes (if row.isSome then put none else .ok c) Consistent
    split_ifs
    · exact hput _
    · exact h

/-- **Every statement** keeps the invariant, or is refused for another reason than a negative
column. -/
theorem Consistent.execute (h : c.Consistent) (statement : Statement) :
    Executes (c.execute statement) Consistent := by
  cases statement with
  | object id event => exact h.onRow h.putObject event
  | reference id event => exact h.onRow h.putReference event
  | reservation id event => exact h.onRow h.putReservation event
  | controlFile id event => exact h.onRow h.putControlFile event
  | record id event => exact h.onRow h.putRecord event

/-- A step keeps the invariant. -/
lemma Consistent.step (h : c.Consistent) (statement : Statement) :
    (c.step statement).Consistent := by
  have hexecute := h.execute statement
  unfold Catalog.step
  cases heq : c.execute statement with
  | ok c' =>
    rw [heq] at hexecute
    exact hexecute
  | error e => exact h

/-- The new catalog is consistent. -/
lemma consistent_empty : Consistent {} := by
  refine ⟨fun name => ?_, fun i j r r' hi => ?_, fun operation => ?_⟩
  · simp [Tables.recompute]
  · cases hi
  · rfl

/-- Every reachable catalog is consistent. -/
lemma consistent_run (statements : List Statement) : (run statements).Consistent :=
  Run.invariant (fun _ statement h _ => h.step statement) consistent_empty
    (Run.AllSteps.of_forall (fun _ _ => trivial) _ statements)

/-- **The counters of every reachable catalog.** After any run of statements every counter is the
aggregate of the tables and not negative, and no further statement finds a column negative at any
step of its triggers. What an operation may still come to is zero if it is reserved or has no
unsealed object, and otherwise at least the floor of each unsealed object less the logical bytes
of the operation's objects.

**Proof sketch.** Every statement keeps the invariant, in which the counters are tallies; each
tally is the aggregate because the storage of an operation is that of its objects. -/
theorem totals_run (statements : List Statement) :
    (∀ name, (run statements).totals name = (run statements).tables.aggregate name) ∧
      (∀ name, 0 ≤ (run statements).totals name) ∧
      (∀ statement, (run statements).execute statement ≠ .error .negative) ∧
      ∀ operation,
        ((run statements).tables.Reserved operation →
          (run statements).tables.uncertain operation = 0) ∧
        ((∀ id o, (run statements).tables.objects.get? id = some o → o.InOperation operation →
          o.accountingFloor = 0) → (run statements).tables.uncertain operation = 0) ∧
        (¬ (run statements).tables.Reserved operation →
          ∀ id o, (run statements).tables.objects.get? id = some o → o.InOperation operation →
            0 < o.accountingFloor →
            o.accountingFloor - operationBytes (run statements).tables.objects operation ≤
              (run statements).tables.uncertain operation) := by
  have h := consistent_run statements
  refine ⟨h.aggregate, fun name => ?_, fun statement herror => ?_, fun operation =>
    ⟨Tables.uncertain_eq_zero_of_reserved, h.uncertain_eq_zero,
      fun hreserved id o hget hin hfloor => h.le_uncertain hreserved hget hin hfloor⟩⟩
  · rw [h.tallied name]
    exact Tables.recompute_nonneg _ _
  · have hexecute := h.execute statement
    rw [herror] at hexecute
    exact hexecute rfl

end Catalog

end Tgrep.Managed
