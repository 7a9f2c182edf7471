import Tgrep.Managed.Admission

/-!
# The receipts of operations

A client numbers its requests within a scope and gives each a token. The catalog keeps a receipt
of every accepted request until the client acknowledges it, which raises the floor of the scope.
Scopes belong to the namespace, to a process or to an owner; they are closed when their process or
owner is gone, and only then are the receipts that nobody acknowledged cleaned up, and after them
the scope.

## Main definitions

* `OperationToken`, `Receipt`, `ScopeRow`, `OwnerRow`: the rows of the catalog.
* `Operations`: the tables, and what the process knows about them.
* `Operations.acceptOperation`, `Operations.acknowledgeOperations`: the protocol with the clients.
* `Operations.cancelOperation`, `Operations.failOperation`, `Operations.recordOperationResult` —
  how operations end.
* `Operations.commitOwnerRelease`, `Operations.activate`: how scopes are closed.
* `Operations.inspectReceipt`, `Operations.cleanupReceipt`, `Operations.cleanupScope`: the
  cleanup.
* `Operations.Call`, `Operations.step`, `Operations.run`: the calls on a namespace.

## Implementation notes

A request is a document of any type `ρ`; its serialized length, its digest and the owner that it
names are the functions of a `RequestCodec`. The random identities, the policy and the clock that
an acceptance reads before its transaction are arguments, as are the outcomes of inspecting the
guard of an owner.

A cleanup first reads a receipt and decides whether its scope can retire, and deletes it in a
later transaction, between which other calls may run; the receipts that passed the first part are
`condemned`. Everything else that happens to reservations, objects, references and the service
record is one call that sets them arbitrarily, and so is every other writer of the record of an
operation. Opening the namespace again replaces the process: the lock on the namespace is held
as long as a process has it open.

Which of two matching rows the query of an acceptance returns does not matter: with two, no row
has both the sequence and the token asked for.
-/

namespace Tgrep.Managed

/-! ## Rows -/

/-- What a client calls a request. -/
structure OperationToken where
  /-- The scope that numbers it. -/
  scope : Id
  /-- Its number. -/
  sequence : ℕ
  /-- The token that the client has chosen. -/
  token : String
  deriving DecidableEq

/-- Refuse a number outside the range of the column. -/
def OperationToken.validate (t : OperationToken) : Except Error Unit :=
  require (¬ (t.sequence = 0 ∨ t.sequence > i64Max))
    (.invalid "operation sequence must be in 1..=i64::MAX")

/-- Refuse a value outside the range of a column. -/
def sqlInteger (value : ℕ) : Except Error Unit :=
  require (value ≤ i64Max) (.invalid "integer exceeds catalog range")

/-- The error of a query that has to return a row. -/
def noRows : Error := ⟨.corruptMetadata, "catalog-io", "Query returned no rows", none⟩

/-- The operation has ended. -/
def OperationState.terminal : OperationState → Bool
  | .completed | .cancelled | .failed => true
  | _ => false

/-- The operation is queued or runs. -/
def OperationState.pending : OperationState → Bool
  | .accepted | .preparing | .cancelling => true
  | _ => false

/-- A scope. -/
structure ScopeRow where
  /-- The largest acknowledged number. -/
  floor : ℕ := 0
  /-- Whether it takes no more requests. -/
  closed : Bool := false
  deriving DecidableEq

/-- An owner. -/
structure OwnerRow where
  /-- The process that it belongs to. -/
  process : Id
  /-- Whether it is registered. -/
  registered : Bool
  /-- Whether it is released. -/
  released : Bool
  deriving DecidableEq

/-- How documents are serialized. -/
structure RequestCodec (ρ δ : Type) where
  /-- The digest of a kind and a request. -/
  digest : String → ρ → δ
  /-- The length of their serialization. -/
  encodedLength : String → ρ → ℕ
  /-- The owner that a request names. -/
  owner : ρ → Option Id

/-- The receipt of an accepted request. -/
structure Receipt (ρ δ : Type) extends OperationRecord where
  /-- The process that accepted it. -/
  process : Id
  /-- What the client calls it. -/
  token : OperationToken
  /-- The request. -/
  request : ρ
  /-- The digest of its kind and request. -/
  digest : δ
  /-- What it yielded. -/
  result : Option ρ
  /-- Why it failed. -/
  error : Option Error

/-- The limits of the policy on receipts. -/
structure ReceiptLimits where
  /-- The number of receipts. -/
  maxReceipts : ℕ
  /-- The number of queued operations. -/
  queueItems : ℕ
  /-- The number of workers. -/
  workers : ℕ

/-- The largest serialized request. -/
def MAX_REQUEST_BYTES : ℕ := 1024 * 1024

/-- A request to accept, and what is read before its transaction. -/
structure AcceptRequest (ρ : Type) where
  /-- What the client calls it. -/
  token : OperationToken
  /-- What is to be done. -/
  kind : String
  /-- The request. -/
  request : ρ
  /-- The limits of the policy. -/
  limits : Except Error ReceiptLimits
  /-- Whether metadata may grow. -/
  metadata : Except Error Unit
  /-- The clock. -/
  now : Except Error Unit
  /-- The identity of the new operation, should it be accepted. -/
  fresh : Id

/-- Work on the catalog itself is accepted even if metadata may not grow. -/
def AcceptRequest.metadataAdmission {ρ : Type} (a : AcceptRequest ρ) : Except Error Unit :=
  if a.kind ∈ ["collection", "recovery", "metadata", "idle-stop"] then .ok () else a.metadata

/-- The tables of the catalog on operations, and what the process knows about them. -/
structure Operations (ρ δ : Type) where
  /-- The namespace. -/
  header : Id
  /-- The process that has it open. -/
  process : Id
  /-- The scopes. -/
  scopes : FinMap Id ScopeRow
  /-- The owners. -/
  owners : FinMap Id OwnerRow
  /-- The receipts. -/
  operations : FinMap Id (Receipt ρ δ)
  /-- The operations with a reservation. -/
  reserved : Finset Id
  /-- The operations that prepare an object. -/
  preparing : Finset Id
  /-- The operations that are the source of a reference. -/
  referenced : Finset Id
  /-- Whether operations are admitted. -/
  admission : AdmissionState
  /-- The process of the service, and whether it stops. -/
  service : Option (Id × Bool)
  /-- How many readers hold a receipt. -/
  readers : FinMap Id ℕ
  /-- The receipts that a cleanup has found in a scope that can retire. -/
  condemned : Finset Id
  /-- The identities drawn so far. -/
  issued : Finset Id

namespace Operations

variable {ρ δ : Type}

/-- A namespace that has just been created. -/
def create (header process : Id) : Operations ρ δ where
  header := header
  process := process
  scopes := .empty
  owners := .empty
  operations := .empty
  reserved := ∅
  preparing := ∅
  referenced := ∅
  admission := .admitting
  service := none
  readers := .empty
  condemned := ∅
  issued := {header, process}

/-! ## Accepting -/

/-- Whether a row is what a token asks for. -/
def matching (token : OperationToken) (row : Id × Receipt ρ δ) : Bool :=
  row.2.token.scope = token.scope ∧
    (row.2.token.sequence = token.sequence ∨ row.2.token.token = token.token)

/-- The receipt with the sequence or the token asked for. -/
def prior (s : Operations ρ δ) (token : OperationToken) : Option (Id × Receipt ρ δ) :=
  s.operations.toList.find? (matching token)

/-- Only the namespace, the process and the active owners of the process number new requests. -/
def checkScopeOwner (s : Operations ρ δ) (scope : Id) : Except Error Unit :=
  if scope ≠ s.process ∧ scope ≠ s.header then
    match s.owners.get? scope with
    | none => .error noRows
    | some owner =>
      require (¬ (owner.process ≠ s.process ∨ owner.released ∨ ¬ owner.registered))
        ⟨.staleIdentity, "inactive-operation-owner",
          "new operations require a registered current-instance owner", none⟩
  else .ok ()

/-- The operations that have not ended. -/
def queued (s : Operations ρ δ) : ℕ :=
  (s.operations.toList.filter fun row => row.2.state.pending).length

/-- The receipt of a request accepted as new work. -/
def newReceipt (c : RequestCodec ρ δ) (s : Operations ρ δ) (a : AcceptRequest ρ) : Receipt ρ δ where
  kind := a.kind
  cancelled := false
  committedState := .notCommitted
  state := .accepted
  process := s.process
  token := a.token
  request := a.request
  digest := c.digest a.kind a.request
  result := none
  error := none

/-- Accept a request as new work. -/
def acceptNew (c : RequestCodec ρ δ) (s : Operations ρ δ) (a : AcceptRequest ρ)
    (limits : ReceiptLimits) (scope : ScopeRow) :
    Except Error ((Id × Receipt ρ δ) × Operations ρ δ) := do
  require (¬ scope.closed)
    ⟨.receiptExpired, "scope-closed", "closed scopes cannot accept new operations", none⟩
  a.metadataAdmission
  s.checkScopeOwner a.token.scope
  require (s.admission = .admitting) (.busy s!"namespace-admission-{s.admission.tag}")
  require (¬ s.operations.keys.card ≥ limits.maxReceipts) (.pressure "operation-receipt-limit")
  require (¬ s.queued ≥ limits.queueItems + limits.workers) (.pressure "operation-queue-limit")
  let receipt := newReceipt c s a
  .ok ((a.fresh, receipt),
    { s with
      operations := s.operations.insert a.fresh receipt
      issued := insert a.fresh s.issued })

/-- The serialized request has a size that can be kept. -/
def Encodable (c : RequestCodec ρ δ) (kind : String) (request : ρ) : Prop :=
  ¬ (c.encodedLength kind request > MAX_REQUEST_BYTES ∨ kind = "" ∨ kind.utf8ByteSize > 64)

instance (c : RequestCodec ρ δ) (kind : String) (request : ρ) :
    Decidable (Encodable c kind request) :=
  inferInstanceAs (Decidable (¬ _))

/-- Accept a request: as new work, or as the operation that it already is. -/
def acceptOperation [DecidableEq δ] (c : RequestCodec ρ δ) (s : Operations ρ δ)
    (a : AcceptRequest ρ) : Except Error ((Id × Receipt ρ δ) × Operations ρ δ) := do
  a.token.validate
  let limits ← a.limits
  a.now
  require (Encodable c a.kind a.request)
    (.invalid "operation request exceeds its encoded size limit")
  let some scope := s.scopes.get? a.token.scope
    | .error ⟨.receiptExpired, "unknown-operation-scope",
        "operation scope is unknown or was retired", none⟩
  require (¬ a.token.sequence ≤ scope.floor)
    ⟨.receiptExpired, "receipt-expired",
      "operation scope/sequence cannot be replayed as new work", none⟩
  match s.prior a.token with
  | some row =>
    require (¬ (row.2.digest ≠ c.digest a.kind a.request ∨ row.2.token ≠ a.token))
      ⟨.staleVersion, "operation-token-conflict",
        "token/sequence already identifies different work", none⟩
    .ok (row, s)
  | none => acceptNew c s a limits scope

/-! ## Acknowledging -/

/-- The operations of a scope up to a number. -/
def upTo (s : Operations ρ δ) (scope : Id) (through : ℕ) : Finset Id :=
  s.operations.keys.filter fun id =>
    (s.operations.get? id).any fun op => op.token.scope = scope ∧ op.token.sequence ≤ through

/-- Whether the operation has ended. -/
def ended (s : Operations ρ δ) (id : Id) : Bool :=
  match s.operations.get? id with
  | some op => op.state.terminal
  | none => true

/-- A client has taken note of the operations of a scope up to a number. -/
def acknowledgeOperations (s : Operations ρ δ) (scope : Id) (through : ℕ) :
    Except Error (ℕ × Operations ρ δ) :=
  match s.scopes.get? scope with
  | none => .error noRows
  | some row =>
    if through ≤ row.floor then .ok (row.floor, s)
    else do
      sqlInteger through
      require (∀ id ∈ s.readers.keys, id ∉ s.upTo scope through)
        (.busy "operation-result-still-in-use")
      require (∀ id ∈ s.upTo scope through, s.ended id)
        (.busy "uncompleted-operation-before-watermark")
      require (∀ id ∈ s.upTo scope through, ¬ (id ∈ s.preparing ∨ id ∈ s.reserved))
        (.busy "operation-still-protects-preparation")
      .ok (through,
        { s with
          operations := s.operations.filter fun id _ => id ∉ s.upTo scope through
          scopes := s.scopes.insert scope { row with floor := through } })

/-! ## Ending operations -/

/-- Write the record of an operation. -/
def saveOperation (s : Operations ρ δ) (id : Id) (receipt : Receipt ρ δ) : Operations ρ δ :=
  { s with operations := s.operations.alter id fun row => row.map fun _ => receipt }

/-- Read the record of an operation, and write what becomes of it. -/
def updateOperation (s : Operations ρ δ) (id : Id) (f : Receipt ρ δ → Receipt ρ δ) :
    Except Error (Receipt ρ δ × Operations ρ δ) :=
  match s.operations.get? id with
  | none => .error noRows
  | some receipt => .ok (f receipt, s.saveOperation id (f receipt))

/-- Ask an operation to stop, if that has a point. -/
def cancelled (receipt : Receipt ρ δ) : Receipt ρ δ :=
  if receipt.committedState = .notCommitted ∨
      ((receipt.kind = "collection" ∨ receipt.kind = "recovery") ∧ ¬ receipt.state.terminal) then
    { receipt with
      cancelled := true
      state := if receipt.state.terminal then receipt.state else .cancelling }
  else receipt

/-- Cancel an operation. -/
def cancelOperation (s : Operations ρ δ) (id : Id) : Except Error (Receipt ρ δ × Operations ρ δ) :=
  s.updateOperation id cancelled

/-- The state of an operation that an error has ended. -/
def stateAfter (state : OperationState) (e : Error) : OperationState :=
  if state = .completed then .completed
  else if e.category = .cancelled then .cancelled
  else .failed

/-- An error ends an operation. -/
def failOperation (s : Operations ρ δ) (id : Id) (e : Error) :
    Except Error (Receipt ρ δ × Operations ρ δ) :=
  s.updateOperation id fun receipt =>
    if receipt.state = .failed ∨ receipt.state = .cancelled then receipt
    else { receipt with state := stateAfter receipt.state e, error := some e }

/-- Record what an operation yielded. -/
def recordOperationResult (s : Operations ρ δ) (id : Id) (result : Except Error ρ)
    (isCommitted : Bool) : Except Error (Receipt ρ δ × Operations ρ δ) :=
  s.updateOperation id fun receipt =>
    match result with
    | .ok value =>
      { receipt with
        state := .completed
        result := some value
        committedState := if isCommitted then .committed else receipt.committedState }
    | .error e => { receipt with state := stateAfter receipt.state e, error := some e }

/-! ## Owners and processes -/

/-- A new owner and its scope. -/
def prepareOwner (s : Operations ρ δ) (fresh : Id) (admitted : Except Error Unit) :
    Except Error (Operations ρ δ) := do
  admitted
  .ok { s with
    owners := s.owners.insert fresh ⟨s.process, false, false⟩
    scopes := s.scopes.insert fresh {}
    issued := insert fresh s.issued }

/-- Register an owner whose guard is held. -/
def registerOwner (s : Operations ρ δ) (id : Id) (record : OwnerRow) (held : Except Error Unit) :
    Except Error (Operations ρ δ) := do
  held
  match s.owners.get? id with
  | none => .error noRows
  | some current =>
    require (¬ current.released)
      ⟨.staleIdentity, "owner-released", "owner was released before registration", none⟩
    .ok { s with owners := s.owners.insert id { record with registered := true } }

/-- Close a scope. -/
def closeScope (s : Operations ρ δ) (id : Id) : Operations ρ δ :=
  { s with scopes := s.scopes.alter id fun row => row.map fun row => { row with closed := true } }

/-- Release an owner whose record was read before: its scope is closed, and its operations are
cancelled. -/
def commitOwnerRelease (c : RequestCodec ρ δ) (s : Operations ρ δ) (id : Id) (record : OwnerRow) :
    Operations ρ δ :=
  let s := s.closeScope id
  { s with
    owners := s.owners.alter id fun row => row.map fun _ => { record with released := true }
    operations := s.operations.filterMap fun _ op => some <|
      if (op.token.scope = id ∨ c.owner op.request = some id) ∧ op.state.pending then
        { op with cancelled := true, state := .cancelling }
      else op }

/-- Another process opens the namespace. What the one before knew is lost. -/
def openNamespace (s : Operations ρ δ) (fresh : Id) : Operations ρ δ :=
  { s with
    process := fresh
    readers := .empty
    condemned := ∅
    issued := insert fresh s.issued }

/-- The scopes of processes that are gone are closed. -/
def closeAbandoned (s : Operations ρ δ) : Operations ρ δ :=
  { s with
    scopes := s.scopes.filterMap fun id row => some <|
      if id ≠ s.process ∧ id ≠ s.header ∧ id ∉ s.owners.keys then { row with closed := true }
      else row }

/-- A scope exists. -/
def ensureScope (s : Operations ρ δ) (id : Id) : Operations ρ δ :=
  { s with scopes := s.scopes.alter id fun row => some (row.getD {}) }

/-- The process takes up service. -/
def activate (s : Operations ρ δ) : Except Error (Operations ρ δ) := do
  require (¬ s.service = some (s.process, true)) (.busy "stopped-instance-cannot-reactivate")
  .ok (({ s with admission := .admitting, service := some (s.process, false) }.closeAbandoned
    |>.ensureScope s.process).ensureScope s.header)

/-! ## Readers -/

/-- A reader takes hold of a receipt. -/
def holdOperation (s : Operations ρ δ) (id : Id) (limit : ℕ) : Except Error (Operations ρ δ) := do
  require (¬ (s.readers.keys.card ≥ limit ∧ ¬ s.readers.contains id))
    (.pressure "operation-reader-limit")
  let count := (s.readers.get? id).getD 0
  require (count + 1 < 2 ^ 32) (.pressure "operation-reader-count")
  .ok { s with readers := s.readers.insert id (count + 1) }

/-- A reader lets go of a receipt. -/
def dropReader (s : Operations ρ δ) (id : Id) : Operations ρ δ :=
  { s with readers := s.readers.alter id fun count =>
      count.bind fun count => if count - 1 = 0 then none else some (count - 1) }

/-! ## Cleanup -/

/-- Whether the receipts of a scope may be deleted. `guardEnded` is what an inspection of the guard
of its owner yields. -/
def scopeCanRetire (s : Operations ρ δ) (scope : Id) (guardEnded : Except Error Bool) :
    Except Error Bool :=
  if scope = s.process ∨ scope = s.header then .ok false
  else if ¬ ((s.scopes.get? scope).map ScopeRow.closed).getD true then .ok false
  else
    match s.owners.get? scope with
    | none => .ok true
    | some owner => if ¬ owner.released then .ok false else guardEnded

/-- The cleanup comes to a receipt. -/
def inspectReceipt (s : Operations ρ δ) (id : Id) (guardEnded : Except Error Bool) :
    Except Error (Operations ρ δ) :=
  match s.operations.get? id with
  | none => .ok s
  | some op =>
    if ¬ op.state.terminal then .ok s
    else do
      let retire ← s.scopeCanRetire op.token.scope guardEnded
      .ok (if retire then { s with condemned := insert id s.condemned } else s)

/-- The cleanup deletes a receipt. -/
def cleanupReceipt (s : Operations ρ δ) (id : Id) : Operations ρ δ :=
  if id ∉ s.condemned ∨ s.readers.contains id then s
  else if id ∈ s.reserved ∨ id ∈ s.preparing ∨ id ∈ s.referenced then s
  else { s with operations := s.operations.erase id }

/-- Whether a scope has receipts. -/
def hasReceipts (s : Operations ρ δ) (scope : Id) : Bool :=
  s.operations.toList.any fun row => row.2.token.scope = scope

/-- The cleanup deletes a released owner, unless something else is left of it. -/
def cleanupOwner (s : Operations ρ δ) (id : Id) (clear : Bool) : Operations ρ δ :=
  match s.owners.get? id with
  | none => s
  | some owner =>
    if ¬ owner.released ∨ s.hasReceipts id ∨ ¬ clear then s
    else { s with owners := s.owners.erase id }

/-- The cleanup deletes a scope. -/
def cleanupScope (s : Operations ρ δ) (id : Id) : Operations ρ δ :=
  if id = s.header ∨ id = s.process then s
  else
    match s.scopes.get? id with
    | none => s
    | some row =>
      if ¬ row.closed ∨ s.hasReceipts id ∨ s.owners.contains id then s
      else { s with scopes := s.scopes.erase id }

/-! ## Runs -/

/-- A call on the namespace. -/
inductive Call (ρ : Type)
  | accept (a : AcceptRequest ρ)
  | acknowledge (scope : Id) (through : ℕ)
  | cancel (id : Id)
  | fail (id : Id) (e : Error)
  | recordResult (id : Id) (result : Except Error ρ) (isCommitted : Bool)
  | advance (id : Id) (cancelled : Bool) (committedState : CommitState) (state : OperationState)
      (result : Option ρ) (error : Option Error)
  | prepareOwner (fresh : Id) (admitted : Except Error Unit)
  | registerOwner (id : Id) (record : OwnerRow) (held : Except Error Unit)
  | releaseOwner (id : Id) (record : OwnerRow)
  | reopen (fresh : Id)
  | activate
  | hold (id : Id) (limit : ℕ)
  | dropReader (id : Id)
  | inspectReceipt (id : Id) (guardEnded : Except Error Bool)
  | cleanupReceipt (id : Id)
  | cleanupOwner (id : Id) (clear : Bool)
  | cleanupScope (id : Id)
  | others (reserved preparing referenced : Finset Id) (admission : AdmissionState)
      (service : Option (Id × Bool))

/-- The state after a transaction, which an error rolls back. -/
def orKeep {α : Type} (s : Operations ρ δ) (result : Except Error (α × Operations ρ δ)) :
    Operations ρ δ :=
  match result with
  | .ok (_, s') => s'
  | .error _ => s

/-- The namespace after a call. -/
def step [DecidableEq δ] (c : RequestCodec ρ δ) (s : Operations ρ δ) : Call ρ → Operations ρ δ
  | .accept a => s.orKeep (s.acceptOperation c a)
  | .acknowledge scope through => s.orKeep (s.acknowledgeOperations scope through)
  | .cancel id => s.orKeep (s.cancelOperation id)
  | .fail id e => s.orKeep (s.failOperation id e)
  | .recordResult id result isCommitted => s.orKeep (s.recordOperationResult id result isCommitted)
  | .advance id cancelled committedState state result error =>
    s.orKeep (s.updateOperation id fun receipt =>
      { receipt with
        cancelled := cancelled
        committedState := committedState
        state := state
        result := result
        error := error })
  | .prepareOwner fresh admitted => (s.prepareOwner fresh admitted).toOption.getD s
  | .registerOwner id record held => (s.registerOwner id record held).toOption.getD s
  | .releaseOwner id record => s.commitOwnerRelease c id record
  | .reopen fresh => s.openNamespace fresh
  | .activate => s.activate.toOption.getD s
  | .hold id limit => (s.holdOperation id limit).toOption.getD s
  | .dropReader id => s.dropReader id
  | .inspectReceipt id guardEnded => (s.inspectReceipt id guardEnded).toOption.getD s
  | .cleanupReceipt id => s.cleanupReceipt id
  | .cleanupOwner id clear => s.cleanupOwner id clear
  | .cleanupScope id => s.cleanupScope id
  | .others reserved preparing referenced admission service =>
    { s with
      reserved := reserved
      preparing := preparing
      referenced := referenced
      admission := admission
      service := service }

/-- The identity that a call draws, if it does, was never drawn before. -/
def Call.Fresh (s : Operations ρ δ) : Call ρ → Prop
  | .accept a => a.fresh ∉ s.issued
  | .prepareOwner fresh _ => fresh ∉ s.issued
  | .reopen fresh => fresh ∉ s.issued
  | _ => True

/-- The scope and the number of the request that a call accepts as new work, if it does: the
operation that is returned was not there before. -/
def acceptedBy [DecidableEq δ] (c : RequestCodec ρ δ) (s : Operations ρ δ) :
    Call ρ → Option (Id × ℕ)
  | .accept a =>
    match s.acceptOperation c a with
    | .ok ((id, op), _) =>
      if s.operations.contains id then none else some (op.token.scope, op.token.sequence)
    | .error _ => none
  | _ => none

/-- The namespace, with the requests accepted as new work so far. -/
structure Log (ρ δ : Type) where
  /-- The namespace. -/
  state : Operations ρ δ
  /-- Scope and number of the requests accepted as new work. -/
  accepted : List (Id × ℕ)

/-- One call. -/
def Log.step [DecidableEq δ] (c : RequestCodec ρ δ) (log : Log ρ δ) (call : Call ρ) : Log ρ δ :=
  ⟨log.state.step c call, log.accepted ++ (log.state.acceptedBy c call).toList⟩

/-- The namespace after a run of calls. -/
def run [DecidableEq δ] (c : RequestCodec ρ δ) (header process : Id) (calls : List (Call ρ)) :
    Log ρ δ :=
  calls.foldl (Log.step c) ⟨create header process, []⟩

/-- Every identity that the run draws is fresh. -/
def FreshRun [DecidableEq δ] (c : RequestCodec ρ δ) (header process : Id)
    (calls : List (Call ρ)) : Prop :=
  header ≠ process ∧
    Run.AllSteps (Log.step c) (fun log call => call.Fresh log.state)
      (⟨create header process, []⟩ : Log ρ δ) calls

end Operations

end Tgrep.Managed
