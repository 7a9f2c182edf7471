import Tgrep.Data.Loops
import Tgrep.Managed.Accounting
import Tgrep.Managed.Permit

/-!
# The admission of reservations

A reservation of staging bytes, private bytes and worker slots is admitted against the allocation
of the caller and the policy of the namespace. The amounts in use come from four places: the
counters of the catalog, the rows of the reservations, the memory account, and the sizes of the
files of the catalog itself.

## Main definitions

* `WorkLimits`, `Allocation`, `WorkRequest`: the two limits, and what is asked for.
* `Catalog.ledger`, `Namespace.reservedUsage`: the amounts in use.
* `Namespace.attempt`, `Namespace.reserveInner`: one transaction of an admission, and the whole.
* `Namespace.updatePolicy`, `Namespace.updateAllocation`: change the limits.
* `Namespace.Call`, `Namespace.run`: the calls of a process on its namespace.

## Implementation notes

The policy is read before the transaction that compares its version, so it is an argument, as
are the record of the operation, the outcome of reading the clock, the owner and the files of the
catalog, and what other threads do to the catalog between two transactions of one admission: the
lock on the memory account keeps them from reserving, releasing and retaining meanwhile. The
policy has the limits that admission reads; its other fields, the storage target among them, are
left out. A transaction that is not refused commits.
-/

namespace Tgrep.Managed

/-! ## Limits -/

/-- Whether reservations are admitted. -/
inductive AdmissionState
  | admitting
  | closed
  | recovering
  deriving DecidableEq

/-- The text of the column. -/
def AdmissionState.tag : AdmissionState → String
  | .admitting => "open"
  | .closed => "closed"
  | .recovering => "recovering"

/-- The largest value of a signed 64-bit word. -/
def i64Max : ℕ := 2 ^ 63 - 1

/-- Go on if a condition holds. -/
def require (p : Prop) [Decidable p] (e : Error) : Except Error Unit :=
  if p then .ok () else .error e

/-- A condition that is required holds. -/
lemma require_eq_ok {p : Prop} [Decidable p] {e : Error} {u : Unit} : require p e = .ok u ↔ p := by
  unfold require
  split_ifs with h
  · exact ⟨fun _ => h, fun _ => rfl⟩
  · exact ⟨fun heq => (nomatch heq), fun hp => absurd hp h⟩

/-- What follows a requirement is reached iff the requirement holds. -/
lemma require_bind_eq_ok {α : Type} {p : Prop} [Decidable p] {e : Error} {f : Unit → Except Error α}
    {a : α} : (require p e >>= f) = .ok a ↔ p ∧ f () = .ok a := by
  rw [Loops.bind_eq_ok]
  constructor
  · rintro ⟨_, h, hf⟩
    exact ⟨require_eq_ok.mp h, hf⟩
  · rintro ⟨h, hf⟩
    exact ⟨(), require_eq_ok.mpr h, hf⟩

/-- A configured value is in its range. -/
def integer (name : String) (value minimum maximum : ℕ) : Except Error Unit :=
  require (minimum ≤ value ∧ value ≤ maximum)
    (.invalid s!"{name} must be in {minimum}..={maximum}")

/-- A configured value is positive. -/
def positive (name : String) (value : ℕ) : Except Error Unit := integer name value 1 i64Max

/-- The limits of the policy on work. -/
structure WorkLimits where
  /-- The number of workers. -/
  workers : ℕ
  /-- Bytes of staging. -/
  stagingBytes : ℕ
  /-- Private bytes of all work. -/
  privateWorkBytes : ℕ
  /-- Bytes of the sort buffer of a worker. -/
  sortBufferBytes : ℕ
  /-- The largest blob. -/
  blobBytes : ℕ
  /-- The time that an operation has. -/
  operationTimeoutMs : ℕ
  deriving DecidableEq

namespace WorkLimits

/-- The private bytes that a worker needs at least. -/
def minimumPrivateBytes (w : WorkLimits) : Except Error ℕ :=
  match (do
    let bytes ← Counter.checkedMul w.sortBufferBytes 4
    let input ← Counter.checkedMul w.blobBytes 6
    let bytes ← Counter.checkedAdd bytes input
    Counter.checkedAdd bytes (256 * 1024)) with
  | none => .error (.invalid "private work reservation overflow")
  | some bytes => .ok bytes

/-- Whether the limits may be configured. -/
def validate (w : WorkLimits) : Except Error Unit := do
  integer "workers" w.workers 1 64
  positive "staging_bytes" w.stagingBytes
  positive "private_work_bytes" w.privateWorkBytes
  positive "sort_buffer_bytes" w.sortBufferBytes
  positive "blob_bytes" w.blobBytes
  integer "sort_buffer_bytes" w.sortBufferBytes (16 * 1024) (Counter.size - 1)
  let minimum ← w.minimumPrivateBytes
  match Counter.checkedMul minimum w.workers with
  | none => .error (.invalid "private work reservation overflow")
  | some perWorker =>
    require (perWorker ≤ w.privateWorkBytes)
      (.invalid ("worker sort and input buffers exceed private_work_bytes; " ++
        "extraction also consumes the reservation"))
    integer "operation_timeout_ms" w.operationTimeoutMs 1 i64Max

end WorkLimits

/-- Limits that may be configured. -/
def ValidLimits : Type := { w : WorkLimits // w.validate = .ok () }

/-- The policy, with its version. -/
structure VersionedPolicy where
  /-- The version. -/
  version : ℕ
  /-- The limits on work. -/
  work : WorkLimits
  deriving DecidableEq

/-- What a coordinator has allocated to the namespace. -/
structure Allocation where
  /-- The version. -/
  version : ℕ
  /-- Bytes of storage, if they are limited. -/
  storageBytes : Option ℕ
  /-- Bytes of staging. -/
  stagingBytes : ℕ
  /-- Private bytes of all work. -/
  privateWorkBytes : ℕ
  /-- The number of work slots. -/
  workSlots : ℕ
  deriving DecidableEq

namespace Allocation

/-- The allocation of a namespace without a coordinator. -/
def ofPolicy (w : WorkLimits) : Allocation where
  version := 1
  storageBytes := none
  stagingBytes := w.stagingBytes
  privateWorkBytes := w.privateWorkBytes
  workSlots := w.workers

/-- Whether an allocation may be made. -/
def validate (a : Allocation) : Except Error Unit := do
  require (∀ value ∈ [a.stagingBytes, a.privateWorkBytes] ++ a.storageBytes.toList,
      value ≠ 0 ∧ value ≤ i64Max)
    (.invalid "allocation byte values must be in 1..=i64::MAX")
  require (1 ≤ a.workSlots ∧ a.workSlots ≤ 64)
    (.invalid "allocation work_slots must be in 1..=64")

end Allocation

/-- What a reservation asks for. -/
structure WorkRequest where
  /-- The version of the allocation that the caller knows. -/
  allocationVersion : ℕ
  /-- Bytes of staging. -/
  stagingBytes : ℕ
  /-- Private bytes. -/
  privateBytes : ℕ
  /-- Work slots. -/
  slots : ℕ
  deriving DecidableEq

/-! ## The amounts in use -/

/-- The sizes of the files of the catalog. -/
structure CatalogFiles where
  /-- Their bytes. -/
  logical : ℕ
  /-- Their allocated bytes. -/
  allocated : Measurement
  deriving DecidableEq

/-- The storage of a namespace. -/
structure StorageUsage where
  /-- Bytes of objects, control files, the catalog and compatibility generations. -/
  knownLogicalBytes : ℕ
  /-- Their allocated bytes. -/
  knownAllocatedBytes : Measurement
  /-- What operations without a reservation may still come to. -/
  uncertainStagingChargeBytes : ℕ
  /-- The known and uncertain bytes, and what reservations have not consumed. -/
  chargedOverlapLogicalBytes : ℕ
  deriving DecidableEq

/-- The amounts in use. -/
structure WorkUsage where
  /-- The number of reservations. -/
  reservations : ℕ
  /-- Their staging bytes. -/
  reservedStagingBytes : ℕ
  /-- The part of those that no object of the operation has consumed. -/
  unconsumedStagingBytes : ℕ
  /-- Their private bytes. -/
  reservedPrivateBytes : ℕ
  /-- Their slots. -/
  reservedSlots : ℕ
  /-- Bytes of the objects. -/
  objectLogicalBytes : ℕ
  /-- Bytes of the files of the catalog. -/
  catalogFileBytes : ℕ
  /-- Bytes of the control files. -/
  controlLogicalBytes : ℕ
  /-- The memory account. -/
  memory : MemoryUsage
  /-- The storage. -/
  storage : StorageUsage

/-- Every counter. -/
def Total.all : List Total :=
  [.unconsumedStaging, .uncertainStaging, .objectLogical, .objectAllocated, .objectUnavailable,
    .objectProtected, .objectPending, .generationsPublished, .generationsRetired, .checkpoints,
    .preparations, .quarantined, .controlLogical, .controlAllocated, .controlUnavailable,
    .compatibilityLogical, .compatibilityAllocated, .compatibilityUnavailable,
    .compatibilityGenerations, .reservations, .reservedStaging, .reservedPrivate, .reservedSlots]

namespace Catalog

/-- Add to an amount of storage. -/
def addStorage (total value : ℕ) : Except Error ℕ :=
  match Counter.checkedAdd total value with
  | none => .error (.corrupt "storage accounting overflow")
  | some sum => .ok sum

/-- Read the counters. A negative one is not an unsigned integer. -/
def counters (c : Catalog) : Except Error (Total → ℕ) :=
  if Total.all.any fun name => decide (c.totals name < 0) then
    .error ⟨.corruptMetadata, "catalog-io", "integer out of range", none⟩
  else .ok fun name => (c.totals name).toNat

/-- The allocated bytes, if all of them were measured. -/
def knownAllocated (counter : Total → ℕ) : Measurement → Except Error Measurement
  | .observed value =>
    if counter .objectUnavailable = 0 ∧ counter .controlUnavailable = 0 ∧
        counter .compatibilityUnavailable = 0 then do
      let total ← addStorage (counter .objectAllocated) (counter .controlAllocated)
      let total ← addStorage total value
      let total ← addStorage total (counter .compatibilityAllocated)
      return .observed total
    else .ok (.unavailable "one-or-more-file-allocation-measurements-unavailable")
  | .unavailable _ => .ok (.unavailable "one-or-more-file-allocation-measurements-unavailable")

/-- The storage in use. -/
def ledger (counter : Total → ℕ) (files : CatalogFiles) : Except Error StorageUsage := do
  let known ← addStorage (counter .objectLogical) (counter .controlLogical)
  let known ← addStorage known files.logical
  let known ← addStorage known (counter .compatibilityLogical)
  let allocated ← knownAllocated counter files.allocated
  let charged ← addStorage known (counter .uncertainStaging)
  let charged ← addStorage charged (counter .unconsumedStaging)
  return ⟨known, allocated, counter .uncertainStaging, charged⟩

end Catalog

/-- Why the catalog aborts a statement, as its callers see it. -/
def Refusal.toError : Refusal → Error
  | .constraint => ⟨.io, "catalog-io", "UNIQUE constraint failed", none⟩
  | .negative | .overflow => ⟨.io, "catalog-io", "CHECK constraint failed", none⟩

/-- A namespace, as one process has it open. -/
structure Namespace where
  /-- The counted tables and their counters. -/
  catalog : Catalog := {}
  /-- The policy. -/
  policy : VersionedPolicy
  /-- The allocation. -/
  allocation : Allocation
  /-- Whether reservations are admitted. -/
  admission : AdmissionState := .admitting
  /-- The permits, the charges and the memory account. -/
  process : Process := {}

namespace Namespace

/-- The identities of the reservations. -/
def active (n : Namespace) : List Id := n.catalog.tables.reservations.keys.sort

/-- A new namespace. -/
def create (limits : ValidLimits) : Namespace where
  policy := ⟨1, limits.1⟩
  allocation := .ofPolicy limits.1

/-- Write the memory account back. -/
def setMemory (n : Namespace) (memory : MemoryState) : Namespace :=
  { n with process.account := memory }

/-- The amounts in use. The coverage of inactive reservations ends. -/
def reservedUsage (n : Namespace) (files : CatalogFiles) : Except Error WorkUsage × MemoryState :=
  match n.process.account.usageOf n.active with
  | (.error e, memory) => (.error e, memory)
  | (.ok usage, memory) =>
    (do
      let counter ← n.catalog.counters
      let storage ← Catalog.ledger counter files
      return {
        reservations := counter .reservations
        reservedStagingBytes := counter .reservedStaging
        unconsumedStagingBytes := counter .unconsumedStaging
        reservedPrivateBytes := counter .reservedPrivate
        reservedSlots := counter .reservedSlots
        objectLogicalBytes := counter .objectLogical
        catalogFileBytes := files.logical
        controlLogicalBytes := counter .controlLogical
        memory := usage
        storage := storage },
      memory)

/-! ## Changing the limits -/

/-- Reservations are admitted. -/
def ensureAdmission (n : Namespace) : Except Error Unit :=
  require (n.admission = .admitting) (.busy ("namespace-admission-" ++ n.admission.tag))

/-- Replace the policy, if the caller knows the present version. -/
def updatePolicy (n : Namespace) (expected : ℕ) (work : WorkLimits) : Except Error Namespace := do
  work.validate
  require (expected = n.policy.version) (.staleVersion n.policy.version)
  require (n.policy.version + 1 ≤ i64Max) (.corrupt "policy version exhausted")
  return { n with policy := ⟨n.policy.version + 1, work⟩ }

/-- Replace the allocation, if the caller knows the present version. -/
def updateAllocation (n : Namespace) (expected : ℕ) (allocation : Allocation) :
    Except Error Namespace := do
  allocation.validate
  n.ensureAdmission
  require (n.allocation.version = expected) (.staleVersion n.allocation.version)
  require (expected + 1 ≤ i64Max) (.corrupt "allocation version exhausted")
  return { n with allocation := { allocation with version := expected + 1 } }

/-- What other threads may do to the catalog while the memory account is locked. -/
inductive Change
  /-- A statement on `objects`. -/
  | object (id : Id) (event : Event ObjectRow)
  /-- A statement on `refs`. -/
  | reference (id : Id) (event : Event Id)
  /-- A statement on `control_files`. -/
  | controlFile (id : Id) (event : Event ControlFileRow)
  /-- A statement on `records`. -/
  | record (id : Id) (event : Event RecordRow)
  /-- `update_policy`. -/
  | policy (expected : ℕ) (work : WorkLimits)
  /-- `update_allocation`. -/
  | allocation (expected : ℕ) (allocation : Allocation)
  /-- Admission is opened or closed. -/
  | admission (state : AdmissionState)

/-- What a fallible operation leaves behind: a refused one leaves the namespace alone. -/
def orKeep (n : Namespace) : Except Error Namespace → Namespace
  | .ok n' => n'
  | .error _ => n

/-- The namespace after a change. -/
def change (n : Namespace) : Change → Namespace
  | .object id event => { n with catalog := n.catalog.step (.object id event) }
  | .reference id event => { n with catalog := n.catalog.step (.reference id event) }
  | .controlFile id event => { n with catalog := n.catalog.step (.controlFile id event) }
  | .record id event => { n with catalog := n.catalog.step (.record id event) }
  | .policy expected work => n.orKeep (n.updatePolicy expected work)
  | .allocation expected allocation => n.orKeep (n.updateAllocation expected allocation)
  | .admission state => { n with admission := state }

/-- The namespace after some changes. -/
def changes (n : Namespace) (cs : List Change) : Namespace := cs.foldl change n

end Namespace

/-! ## Reserving -/

/-- Where an operation is. -/
inductive OperationState
  | accepted
  | preparing
  | committed
  | completed
  | cancelling
  | cancelled
  | failed
  deriving DecidableEq

/-- Whether the effect of an operation is durable. -/
inductive CommitState
  | notCommitted
  | committed
  | unknown
  deriving DecidableEq

/-- What admission reads of the record of an operation. -/
structure OperationRecord where
  /-- What the operation does. -/
  kind : String
  /-- Whether it was cancelled. -/
  cancelled : Bool
  /-- Whether its effect is durable. -/
  committedState : CommitState
  /-- Where it is. -/
  state : OperationState
  deriving DecidableEq

/-- A reservation. -/
structure ReservationRecord where
  /-- Its identity. -/
  id : Id
  /-- Its operation. -/
  operation : Id
  /-- What was asked for. -/
  request : WorkRequest
  deriving DecidableEq

/-- The arguments of an admission. -/
structure Admission where
  /-- The operation. -/
  operation : Id
  /-- Its record. -/
  record : OperationRecord
  /-- The time since it was accepted. -/
  elapsed : Except Error ℕ
  /-- Whether the owner is active, if there is one. -/
  owner : Except Error Unit
  /-- What is asked for. -/
  request : WorkRequest
  /-- Whether the work is for a view, which takes less private memory rather than none. -/
  view : Bool

/-- What happens around the transactions of an admission. -/
structure Surroundings where
  /-- The files of the catalog in the first transaction. -/
  files : Except Error CatalogFiles
  /-- Whether the write-ahead log could be truncated after it. -/
  truncated : Except Error Bool
  /-- What other threads do before the second one. -/
  between : List Namespace.Change
  /-- The files of the catalog in the second transaction. -/
  filesAfter : Except Error CatalogFiles

/-- Whether the operation reclaims storage. -/
def OperationRecord.reclamation (r : OperationRecord) : Bool := r.kind == "collection"

/-- The amounts in use and those asked for stay within a limit. -/
def within (used wanted limit : ℕ) (reason : String) : Except Error Unit :=
  match Counter.checkedAdd used wanted with
  | none => .error (.pressure reason)
  | some total => require (total ≤ limit) (.pressure reason)

/-- A view takes what is left of the private bytes. -/
def WorkRequest.fit (r : WorkRequest) (minimum : Option ℕ) (limit used : ℕ) : WorkRequest :=
  match minimum with
  | none => r
  | some _ => { r with privateBytes := min r.privateBytes (limit - used) }

namespace Admission

/-- The checks before the first transaction; the result is the minimum of a view. -/
def preflight (a : Admission) (versioned : VersionedPolicy) : Except Error (Option ℕ) := do
  let minimum ← if a.view then versioned.work.minimumPrivateBytes.map some else .ok none
  let elapsed ← a.elapsed
  require (elapsed < versioned.work.operationTimeoutMs)
    ⟨.deadline, "operation-deadline", "queue and execution time budget exhausted", none⟩
  require ((a.record.reclamation ∨ a.request.stagingBytes ≠ 0) ∧ a.request.privateBytes ≠ 0 ∧
      a.request.slots ≠ 0)
    (.invalid "reservations need positive byte and slot limits")
  require (a.record.cancelled = false ∧
      (a.record.reclamation ∨ a.record.committedState = .notCommitted) ∧
      (a.record.state = .accepted ∨ a.record.state = .preparing))
    (.busy "operation-is-not-admissible")
  a.owner
  return minimum

/-- The limits that apply: those of the allocation and of the policy. -/
def checkBudget (a : Admission) (work : WorkLimits) (allocation : Allocation)
    (minimum : Option ℕ) (usage : WorkUsage) (privateUsed : ℕ) (request : WorkRequest) :
    Except Error Unit := do
  require (∀ least ∈ minimum, least ≤ request.privateBytes) (.pressure "private-work-allocation")
  within usage.reservedStagingBytes request.stagingBytes
    (min allocation.stagingBytes work.stagingBytes) "staging-allocation"
  within privateUsed request.privateBytes
    (min allocation.privateWorkBytes work.privateWorkBytes) "private-work-allocation"
  within usage.reservedSlots request.slots
    (min allocation.workSlots work.workers) "work-slot-allocation"
  match allocation.storageBytes with
  | none => .ok ()
  | some limit =>
    if a.record.reclamation then .ok ()
    else
      within usage.storage.chargedOverlapLogicalBytes request.stagingBytes limit
        "namespace-storage-allocation"

end Admission

namespace Namespace

/-- The checks of versions and of an earlier reservation; the result is the allocation. -/
def admissible (n : Namespace) (versioned : VersionedPolicy) (operation : Id)
    (request : WorkRequest) : Except Error Allocation := do
  n.ensureAdmission
  require (n.policy.version = versioned.version) (.staleVersion n.policy.version)
  n.allocation.validate
  require (n.allocation.version = request.allocationVersion) (.staleVersion n.allocation.version)
  require ((n.catalog.tables.reservationOf operation).isNone) (.busy "operation-already-reserved")
  return n.allocation

/-- `INSERT INTO reservations`. -/
def insertReservation (n : Namespace) (operation : Id) (request : WorkRequest) :
    Except Error Catalog := do
  require (request.stagingBytes ≤ i64Max) (.invalid "integer exceeds catalog range")
  (n.catalog.execute (.reservation n.process.nextId (.insert
    { operation := operation
      bytes := request.stagingBytes
      slots := request.slots
      privateBytes := request.privateBytes }))).mapError Refusal.toError

/-- One transaction of an admission. It returns the catalog with the reservation, the memory
account, and the request, which may have shrunk. -/
def attempt (n : Namespace) (versioned : VersionedPolicy) (a : Admission) (minimum : Option ℕ)
    (request : WorkRequest) (files : Except Error CatalogFiles) :
    Except Error Catalog × MemoryState × WorkRequest :=
  match n.admissible versioned a.operation request with
  | .error e => (.error e, n.process.account, request)
  | .ok allocation =>
    match files with
    | .error e => (.error e, n.process.account, request)
    | .ok files =>
      match n.reservedUsage files with
      | (.error e, memory) => (.error e, memory, request)
      | (.ok usage, memory) =>
        match Counter.checkedAdd usage.reservedPrivateBytes
            usage.memory.unreservedRetainedPrivateEstimateBytes with
        | none => (.error (.pressure "private-account-overflow"), memory, request)
        | some used =>
          let request := request.fit minimum
            (min allocation.privateWorkBytes versioned.work.privateWorkBytes) used
          (do
            a.checkBudget versioned.work allocation minimum usage used request
            n.insertReservation a.operation request,
            memory, request)

/-- The namespace with an admitted reservation, and a permit for it. -/
def admitted (n : Namespace) (catalog : Catalog) (memory : MemoryState) (request : WorkRequest) :
    Namespace :=
  { n.setMemory memory with
    catalog := catalog
    process := (n.setMemory memory).process.reserve request.privateBytes }

/-- Reserve. A refusal for the storage in use is tried once more after the write-ahead log has been
truncated. -/
def reserveInner (n : Namespace) (versioned : VersionedPolicy) (a : Admission)
    (around : Surroundings) : Except Error ReservationRecord × Namespace :=
  match a.preflight versioned with
  | .error e => (.error e, n)
  | .ok minimum =>
    match n.attempt versioned a minimum a.request around.files with
    | (.ok catalog, memory, request) =>
      (.ok ⟨n.process.nextId, a.operation, request⟩, n.admitted catalog memory request)
    | (.error e, memory, request) =>
      let n := n.setMemory memory
      if e.reasonCode = "namespace-storage-allocation" then
        match around.truncated with
        | .error e => (.error e, n)
        | .ok false => (.error e, n)
        | .ok true =>
          let n := n.changes around.between
          match n.attempt versioned a minimum request around.filesAfter with
          | (.ok catalog, memory, request) =>
            (.ok ⟨n.process.nextId, a.operation, request⟩, n.admitted catalog memory request)
          | (.error e, memory, _) => (.error e, n.setMemory memory)
      else (.error e, n)

/-! ## Releasing -/

/-- `DELETE FROM reservations`, unless the transaction fails. -/
def deleteReservation (n : Namespace) (id : Id) (transaction : Except Error Unit) :
    Except Error Catalog := do
  transaction
  (n.catalog.execute (.reservation id .delete)).mapError Refusal.toError

/-- Release the reservation of a permit. -/
def finish (n : Namespace) (id : Id) (transaction : Except Error Unit) : Namespace :=
  match n.process.permits.get? id with
  | none => n
  | some p =>
    let deleted := n.deleteReservation id transaction
    let outcome := deleted.map fun _ => ()
    let process := n.process.step (.finish id outcome)
    match deleted, (p.finish id n.process.account outcome).1 with
    | .ok catalog, .ok () => { n with catalog := catalog, process := process }
    | _, _ => { n with process := process }

/-- The last handle to a permit is dropped. -/
def dropPermit (n : Namespace) (id : Id) (transaction : Except Error Unit) : Namespace :=
  match n.process.permits.get? id with
  | none => n
  | some p =>
    if ∃ c ∈ n.process.charges, c.permit = id then n
    else
      let n := if p.finished then n else n.finish id transaction
      { n with process.permits := n.process.permits.erase id }

/-- Maintenance deletes the reservation of a producer that has ended. -/
def recover (n : Namespace) (id : Id) : Namespace :=
  match n.deleteReservation id (.ok ()) with
  | .error _ => n
  | .ok catalog =>
    { n with catalog := catalog, process := n.process.step (.recover id) }

/-- The private bytes of the reservations, as the memory account reads them. -/
def reservedPrivate (n : Namespace) : ℕ :=
  (n.catalog.tables.reservations.toList.map fun row => row.2.privateBytes).sum

/-! ## Runs -/

/-- The calls of a process on its namespace. -/
inductive Call
  /-- A change of the catalog or of the limits. -/
  | change (c : Change)
  /-- `reserve_inner`, with the policy that it read. -/
  | reserve (versioned : VersionedPolicy) (a : Admission) (around : Surroundings)
  /-- A call on a permit, a charge or an allocation. -/
  | permit (c : Process.Call)

/-- A call on a permit, a charge or an allocation. Those that read or write the reservations do
so in the catalog. -/
def permitCall (n : Namespace) : Process.Call → Namespace
  | .reserve _ => n
  | .finish id transaction => n.finish id transaction
  | .dropPermit id transaction => n.dropPermit id transaction
  | .recover id => n.recover id
  | .retainUnreserved privateBytes mapped _ _ limit =>
    { n with process :=
      n.process.step (.retainUnreserved privateBytes mapped n.active n.reservedPrivate limit) }
  | .usage _ => { n with process := n.process.step (.usage n.active) }
  | c => { n with process := n.process.step c }

/-- The namespace after a call. -/
def step (n : Namespace) : Call → Namespace
  | .change c => n.change c
  | .reserve versioned a around => (n.reserveInner versioned a around).2
  | .permit c => n.permitCall c

/-- The namespace after a run of calls. -/
def run (limits : ValidLimits) (calls : List Call) : Namespace := calls.foldl step (create limits)

end Namespace

end Tgrep.Managed
