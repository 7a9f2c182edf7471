import Tgrep.Data.Tally
import Tgrep.Managed.Error

/-!
# The counters of the catalog

The catalog keeps constant-size summaries of its tables. Triggers move a counter by the difference
of what the written row counted before and after; two of the counters depend on rows of other
tables, and a small table of its own keeps, for each operation, the storage of its objects.

## Main definitions

* `ObjectRow`, `ReservationRow`, `OperationStorage`, `ControlFileRow`, `RecordRow`: the columns
  and record fields of the tables that are counted.
* `Tables`, `Catalog`: the tables, and the tables with the counters.
* `Catalog.bump`: one `UPDATE namespace_totals`.
* `Catalog.counterTriggers`: the part of a trigger that moves the counters of a row.
* `Catalog.putObject`, `Catalog.putReservation`, `Catalog.putReference`, … — writing one row of a
  table, with its triggers.
* `Catalog.execute`, `Catalog.run`: a statement on one row, and a run of statements.

## Implementation notes

A statement writes one row; one that writes several is a run. A check that fails, or a unique
index that would be violated, aborts the statement: the catalog is as it was before. A column with
a sum that leaves the 64-bit range is no integer any more, which the check of the counter refuses.
A metric is a function of the counter's name, so that a table's metrics can be looked up; the
lists of names are in the order of the source.
-/

namespace Tgrep.Managed

/-- What an object is for. -/
inductive ObjectKind
  | generation
  | checkpoint
  | buildStage
  | migrationStage
  | checkpointStage
  deriving DecidableEq

/-- The life of an object. -/
inductive ObjectState
  | preparing
  | published
  | retired
  | pendingDeletion
  | removed
  | quarantined
  deriving DecidableEq

/-- A measurement, or why there is none. -/
inductive Measurement
  | observed (value : ℕ)
  | unavailable (reason : String)
  deriving DecidableEq

/-- The observed value, and zero otherwise. -/
def Measurement.value : Measurement → ℤ
  | .observed value => value
  | .unavailable _ => 0

/-- One for a missing measurement. -/
def Measurement.missing : Measurement → ℤ
  | .observed _ => 0
  | .unavailable _ => 1

/-- The counted part of a row of `objects`. -/
structure ObjectRow where
  /-- What it is for. -/
  kind : ObjectKind
  /-- Where it is in its life. -/
  state : ObjectState
  /-- The operation that prepares it. -/
  operation : Option Id
  /-- Recorded bytes of its members. -/
  logicalBytes : ℕ
  /-- Allocated bytes of its members. -/
  allocatedBytes : Measurement
  /-- The bytes it is charged with at least. -/
  accountingFloor : ℕ
  deriving DecidableEq

/-- The counted part of a row of `reservations`. -/
structure ReservationRow where
  /-- The operation. -/
  operation : Id
  /-- Reserved staging bytes. -/
  bytes : ℕ
  /-- Reserved work slots. -/
  slots : ℕ
  /-- Reserved private bytes. -/
  privateBytes : ℕ
  deriving DecidableEq

/-- A row of `operation_storage`: what the objects of an operation hold. -/
structure OperationStorage where
  /-- Their logical bytes. -/
  logical : ℤ
  /-- Their number. -/
  objects : ℤ
  /-- The number of those with a floor. -/
  unsealed : ℤ
  /-- A bound on their floors. -/
  floor : ℤ
  deriving DecidableEq

/-- The counted part of a row of `control_files`. -/
structure ControlFileRow where
  /-- Whether the file has been removed. -/
  removed : Bool
  /-- Its bytes. -/
  logicalBytes : ℕ
  /-- Its allocated bytes. -/
  allocatedBytes : Measurement
  deriving DecidableEq

/-- The counted part of a row of `records`. -/
structure RecordRow where
  /-- Whether its kind is `compatibility-generation`. -/
  compatibilityGeneration : Bool
  /-- The bytes of the generation. -/
  logicalBytes : ℕ
  /-- Its allocated bytes. -/
  allocatedBytes : Measurement
  deriving DecidableEq

/-- The names of the counters. -/
inductive Total
  | unconsumedStaging
  | uncertainStaging
  | objectLogical
  | objectAllocated
  | objectUnavailable
  | objectProtected
  | objectPending
  | generationsPublished
  | generationsRetired
  | checkpoints
  | preparations
  | quarantined
  | controlLogical
  | controlAllocated
  | controlUnavailable
  | compatibilityLogical
  | compatibilityAllocated
  | compatibilityUnavailable
  | compatibilityGenerations
  | reservations
  | reservedStaging
  | reservedPrivate
  | reservedSlots
  deriving DecidableEq

/-- The counted tables. -/
structure Tables where
  /-- `objects`. -/
  objects : FinMap Id ObjectRow := .empty
  /-- `refs`: the target of each reference. -/
  refs : FinMap Id Id := .empty
  /-- `reservations`. -/
  reservations : FinMap Id ReservationRow := .empty
  /-- `operation_storage`. -/
  operationStorage : FinMap Id OperationStorage := .empty
  /-- `control_files`. -/
  controlFiles : FinMap Id ControlFileRow := .empty
  /-- `records`. -/
  records : FinMap Id RecordRow := .empty

/-- The catalog: its tables, and `namespace_totals`. -/
structure Catalog where
  /-- The tables. -/
  tables : Tables := {}
  /-- The counters. -/
  totals : Total → ℤ := fun _ => 0

/-- Why a statement is aborted. -/
inductive Refusal
  /-- A key exists already. -/
  | constraint
  /-- A column would be negative. -/
  | negative
  /-- A counter would leave the 64-bit range. -/
  | overflow
  deriving DecidableEq

/-- An integer for a truth value. -/
def indicator (p : Prop) [Decidable p] : ℤ := if p then 1 else 0

namespace Tables

/-- The reservation of an operation. The unique index keeps it from having two. -/
def reservationOf (t : Tables) (operation : Id) : Option ReservationRow :=
  (t.reservations.toList.find? fun row => row.2.operation == operation).map Prod.snd

/-- Whether an object is the target of a reference. -/
def referenced (t : Tables) (object : Id) : Bool :=
  decide (∃ id ∈ t.refs.keys, t.refs.get? id = some object)

/-- Whether an object is the target of a reference other than the given one. -/
def referencedByOther (t : Tables) (object reference : Id) : Bool :=
  decide (∃ id ∈ t.refs.keys, t.refs.get? id = some object ∧ id ≠ reference)

/-- The logical bytes of an object that has not been removed. -/
def liveBytes (t : Tables) (object : Id) : ℤ :=
  match t.objects.get? object with
  | none => 0
  | some o => if o.state ≠ .removed then o.logicalBytes else 0

end Tables

/-- What the unsealed objects of an operation may still come to. -/
def OperationStorage.uncertain (s : OperationStorage) : ℤ :=
  if s.unsealed > 0 then max 0 (s.floor - s.logical) else 0

/-! ## The metrics of the tables -/

/-- The metrics of `operation_storage`. -/
def storageMetric : Total → Tables → Id → OperationStorage → ℤ
  | .unconsumedStaging, t, id, s =>
    -(min s.logical (((t.reservationOf id).map fun r => (r.bytes : ℤ)).getD 0))
  | .uncertainStaging, t, id, s =>
    if (t.reservationOf id).isNone ∧ s.unsealed > 0 then max 0 (s.floor - s.logical) else 0
  | _, _, _, _ => 0

/-- Their names. -/
def storageTotals : List Total := [.unconsumedStaging, .uncertainStaging]

/-- The metrics of `objects`. -/
def objectMetric : Total → Tables → Id → ObjectRow → ℤ
  | .objectLogical, _, _, o => o.logicalBytes
  | .objectAllocated, _, _, o => o.allocatedBytes.value
  | .objectUnavailable, _, _, o => o.allocatedBytes.missing
  | .objectProtected, t, id, o => if t.referenced id then o.logicalBytes else 0
  | .objectPending, _, _, o => if o.state = .pendingDeletion then o.logicalBytes else 0
  | .generationsPublished, _, _, o => indicator (o.kind = .generation ∧ o.state = .published)
  | .generationsRetired, _, _, o =>
    indicator (o.kind = .generation ∧ (o.state = .retired ∨ o.state = .pendingDeletion))
  | .checkpoints, _, _, o => indicator (o.kind = .checkpoint)
  | .preparations, _, _, o => indicator (o.state = .preparing)
  | .quarantined, _, _, o => indicator (o.state = .quarantined)
  | .uncertainStaging, _, _, o =>
    if o.operation = none then max 0 ((o.accountingFloor : ℤ) - o.logicalBytes) else 0
  | _, _, _, _ => 0

/-- Their names. -/
def objectTotals : List Total :=
  [.objectLogical, .objectAllocated, .objectUnavailable, .objectProtected, .objectPending,
    .generationsPublished, .generationsRetired, .checkpoints, .preparations, .quarantined,
    .uncertainStaging]

/-- The metrics of `control_files`. -/
def controlMetric : Total → Tables → Id → ControlFileRow → ℤ
  | .controlLogical, _, _, f => f.logicalBytes
  | .controlAllocated, _, _, f => f.allocatedBytes.value
  | .controlUnavailable, _, _, f => f.allocatedBytes.missing
  | _, _, _, _ => 0

/-- Their names. -/
def controlTotals : List Total := [.controlLogical, .controlAllocated, .controlUnavailable]

/-- The metrics of `records`. -/
def recordMetric : Total → Tables → Id → RecordRow → ℤ
  | .compatibilityLogical, _, _, r => r.logicalBytes
  | .compatibilityAllocated, _, _, r => r.allocatedBytes.value
  | .compatibilityUnavailable, _, _, r => r.allocatedBytes.missing
  | .compatibilityGenerations, _, _, _ => 1
  | _, _, _, _ => 0

/-- Their names. -/
def recordTotals : List Total :=
  [.compatibilityLogical, .compatibilityAllocated, .compatibilityUnavailable,
    .compatibilityGenerations]

/-- The metrics of `reservations`. -/
def reservationMetric : Total → Tables → Id → ReservationRow → ℤ
  | .reservations, _, _, _ => 1
  | .reservedStaging, _, _, r => r.bytes
  | .reservedPrivate, _, _, r => r.privateBytes
  | .reservedSlots, _, _, r => r.slots
  | .unconsumedStaging, t, _, r =>
    max 0 (r.bytes - ((t.operationStorage.get? r.operation).map OperationStorage.logical).getD 0)
  | .uncertainStaging, t, _, r =>
    -((t.operationStorage.get? r.operation).map OperationStorage.uncertain).getD 0
  | _, _, _, _ => 0

/-- Their names. -/
def reservationTotals : List Total :=
  [.reservations, .reservedStaging, .reservedPrivate, .reservedSlots, .unconsumedStaging,
    .uncertainStaging]

/-! ## Triggers -/

section Trigger

variable {ρ : Type}

/-- What a row counts in a trigger: nothing if it does not exist or the condition fails. -/
def rowValue (condition : ρ → Bool) (metric : ρ → ℤ) : Option ρ → ℤ
  | none => 0
  | some row => if condition row then metric row else 0

/-- Whether a trigger fires: the condition holds of the row before or after. -/
def fires (condition : ρ → Bool) (old new : Option ρ) : Bool := old.any condition || new.any condition

end Trigger

namespace Catalog

/-- The largest value of a counter. -/
def maxTotal : ℤ := 2 ^ 63 - 1

/-- `UPDATE namespace_totals SET value=value-(old)+(new)`, with the check of the table. -/
def bump (c : Catalog) (name : Total) (old new : ℤ) : Except Refusal Catalog :=
  let value := c.totals name - old + new
  if value < 0 then .error .negative
  else if maxTotal < value then .error .overflow
  else .ok { c with totals := Function.update c.totals name value }

/-- Move every counter of a table by what the written row counts after and before. -/
def counterTriggers {ρ : Type} (names : List Total) (metric : Total → Tables → Id → ρ → ℤ)
    (condition : ρ → Bool) (key : Id) (old new : Option ρ) (c : Catalog) :
    Except Refusal Catalog :=
  names.foldlM (fun c name =>
    c.bump name (rowValue condition (metric name c.tables key) old)
      (rowValue condition (metric name c.tables key) new)) c

/-- Write or delete a row of `operation_storage`. -/
def putStorage (c : Catalog) (id : Id) (new : Option OperationStorage) :
    Except Refusal Catalog :=
  if new.any fun s => s.logical < 0 || s.objects < 0 || s.unsealed < 0 || s.floor < 0 then
    .error .negative
  else
    let old := c.tables.operationStorage.get? id
    counterTriggers storageTotals storageMetric (fun _ => true) id old new
      { c with tables.operationStorage := c.tables.operationStorage.put id new }

/-- Add an object to the storage of its operation. -/
def addOperation (c : Catalog) (new : ObjectRow) : Except Refusal Catalog :=
  match new.operation with
  | none => .ok c
  | some id =>
    if new.state = .removed then .ok c
    else
      match c.tables.operationStorage.get? id with
      | none =>
        c.putStorage id (some
          { logical := new.logicalBytes
            objects := 1
            unsealed := indicator (new.accountingFloor > 0)
            floor := new.accountingFloor })
      | some s =>
        c.putStorage id (some
          { logical := s.logical + new.logicalBytes
            objects := s.objects + 1
            unsealed := s.unsealed + indicator (new.accountingFloor > 0)
            floor := max s.floor new.accountingFloor })

/-- `UPDATE operation_storage`: take an object from the storage of its operation. -/
def subtractOperation (c : Catalog) (old : ObjectRow) (id : Id) : Except Refusal Catalog :=
  if old.state = .removed then .ok c
  else
    match c.tables.operationStorage.get? id with
    | none => .ok c
    | some s =>
      c.putStorage id (some
        { logical := s.logical - old.logicalBytes
          objects := s.objects - 1
          unsealed := s.unsealed - indicator (old.accountingFloor > 0)
          floor := if s.unsealed - indicator (old.accountingFloor > 0) = 0 then 0 else s.floor })

/-- `DELETE FROM operation_storage … AND objects=0`. -/
def dropOperation (c : Catalog) (id : Id) : Except Refusal Catalog :=
  match c.tables.operationStorage.get? id with
  | none => .ok c
  | some s => if s.objects = 0 then c.putStorage id none else .ok c

/-- Take an object from the storage of its operation, and drop that when no object is left. -/
def removeOperation (c : Catalog) (old : ObjectRow) : Except Refusal Catalog :=
  match old.operation with
  | none => .ok c
  | some id => do
    let c ← c.subtractOperation old id
    c.dropOperation id

/-- The condition of the triggers of `objects`. -/
def objectCounts (o : ObjectRow) : Bool := o.state ≠ .removed

/-- The body of the triggers of `objects`. -/
def objectTrigger (id : Id) (old new : Option ObjectRow) (c : Catalog) : Except Refusal Catalog := do
  let c ← counterTriggers objectTotals objectMetric objectCounts id old new c
  let c ← old.elim (.ok c) c.removeOperation
  new.elim (.ok c) c.addOperation

/-- Write or delete a row of `objects`. -/
def putObject (c : Catalog) (id : Id) (new : Option ObjectRow) : Except Refusal Catalog :=
  let old := c.tables.objects.get? id
  let c := { c with tables.objects := c.tables.objects.put id new }
  if fires objectCounts old new then objectTrigger id old new c else .ok c

/-- Write or delete a row of `control_files`. -/
def putControlFile (c : Catalog) (id : Id) (new : Option ControlFileRow) :
    Except Refusal Catalog :=
  let old := c.tables.controlFiles.get? id
  let c := { c with tables.controlFiles := c.tables.controlFiles.put id new }
  if fires (fun f => !f.removed) old new then
    counterTriggers controlTotals controlMetric (fun f => !f.removed) id old new c
  else .ok c

/-- Write or delete a row of `records`. -/
def putRecord (c : Catalog) (id : Id) (new : Option RecordRow) : Except Refusal Catalog :=
  let old := c.tables.records.get? id
  let c := { c with tables.records := c.tables.records.put id new }
  if fires RecordRow.compatibilityGeneration old new then
    counterTriggers recordTotals recordMetric RecordRow.compatibilityGeneration id old new c
  else .ok c

/-- Whether another row has the operation already, which the unique index refuses. -/
def operationTaken (c : Catalog) (id : Id) (new : Option ReservationRow) : Bool :=
  new.any fun r => decide (∃ k ∈ c.tables.reservations.keys, k ≠ id ∧
    (c.tables.reservations.get? k).map ReservationRow.operation = some r.operation)

/-- Write or delete a row of `reservations`. -/
def putReservation (c : Catalog) (id : Id) (new : Option ReservationRow) :
    Except Refusal Catalog :=
  if c.operationTaken id new then .error .constraint
  else
    let old := c.tables.reservations.get? id
    counterTriggers reservationTotals reservationMetric (fun _ => true) id old new
      { c with tables.reservations := c.tables.reservations.put id new }

/-- The triggers of `refs`: the first reference to an object protects it, the last one to go
releases it, and a changed one does both. -/
def referenceTrigger (id : Id) (old new : Option Id) (c : Catalog) : Except Refusal Catalog :=
  match old, new with
  | none, some target =>
    if c.tables.referencedByOther target id then .ok c
    else c.bump .objectProtected 0 (c.tables.liveBytes target)
  | some target, none =>
    if c.tables.referenced target then .ok c
    else c.bump .objectProtected (c.tables.liveBytes target) 0
  | some before, some after =>
    if after = before then .ok c
    else
      c.bump .objectProtected
        (if c.tables.referenced before then 0 else c.tables.liveBytes before)
        (if c.tables.referencedByOther after id then 0 else c.tables.liveBytes after)
  | none, none => .ok c

/-- Write or delete a row of `refs`. -/
def putReference (c : Catalog) (id : Id) (new : Option Id) : Except Refusal Catalog :=
  referenceTrigger id (c.tables.refs.get? id) new
    { c with tables.refs := c.tables.refs.put id new }

end Catalog

/-! ## Statements -/

/-- What a statement does to the row at a key. -/
inductive Event (ρ : Type)
  | insert (row : ρ)
  | update (row : ρ)
  | delete

/-- A statement on the row at a key. -/
inductive Statement
  | object (id : Id) (event : Event ObjectRow)
  | reference (id : Id) (event : Event Id)
  | reservation (id : Id) (event : Event ReservationRow)
  | controlFile (id : Id) (event : Event ControlFileRow)
  | record (id : Id) (event : Event RecordRow)

namespace Catalog

/-- An insertion needs a free key; an update or a deletion of a missing row does nothing. -/
def onRow {ρ : Type} (c : Catalog) (row : Option ρ) (put : Option ρ → Except Refusal Catalog) :
    Event ρ → Except Refusal Catalog
  | .insert new => if row.isSome then .error .constraint else put (some new)
  | .update new => if row.isSome then put (some new) else .ok c
  | .delete => if row.isSome then put none else .ok c

/-- Execute a statement. -/
def execute (c : Catalog) : Statement → Except Refusal Catalog
  | .object id event => c.onRow (c.tables.objects.get? id) (c.putObject id) event
  | .reference id event => c.onRow (c.tables.refs.get? id) (c.putReference id) event
  | .reservation id event =>
    c.onRow (c.tables.reservations.get? id) (c.putReservation id) event
  | .controlFile id event => c.onRow (c.tables.controlFiles.get? id) (c.putControlFile id) event
  | .record id event => c.onRow (c.tables.records.get? id) (c.putRecord id) event

/-- The catalog after a statement; an aborted one leaves it alone. -/
def step (c : Catalog) (statement : Statement) : Catalog :=
  match c.execute statement with
  | .ok c => c
  | .error _ => c

/-- The catalog after a run of statements. -/
def run (statements : List Statement) : Catalog := statements.foldl step {}

end Catalog

end Tgrep.Managed
