import Mathlib.Data.String.Basic
import Tgrep.Managed.Operations

/-!
# Collecting objects

A collection pass withdraws an object, deletes its members in chunks, and removes its container.
A chunk takes three steps: the length that the member is going to have is journaled in its record,
the file is truncated to it or unlinked, and the bytes that are gone are credited to the member and
to the pass. The pass may end at any point, and the next one, with other bounds, has to go on from
the catalog and the file alone.

## Main definitions

* `ObjectRecord`, `FileRecord`, `Progress`: the records of the catalog.
* `Inventory`, `Disk`, `State`: the catalog, the files, and both with the pass that runs.
* `recordOpenFileState`, `completeMemberSeal`: how a producer writes the records.
* `Verification`, `planDeletion`: what a pass decides about the next member.
* `removeBytes`, `creditChange`: the destructive step, and the transaction that credits it.
* `Event`, `step`, `run`: everything that happens to a namespace, in any order.

## Implementation notes

Every event is at most one transaction of the catalog or one change of a file, so that what lies
between two events is a point where a pass can be cut short. A transaction or a change of a file
may fail without an effect, or take effect and be reported as failed (`Outcome`); every other
failure between two events, of whatever check, is the event `fault`, and the end of the process is
the event `crash`. Whatever the other programs on the machine do to the files is `interfere`.

The catalog keeps a list `credits` that the program does not have: the transaction that credits a
chunk enters it there, so that the statements can speak of the bytes of a file one by one.

Reading a member against the digests of its producer has an outcome, but does not change anything;
the outcome is part of the event. The rest of what `eligibility` looks at, references,
reservations, owners and ages, is one truth value of the event. The order in which a pass visits
the objects is arbitrary. Times, the texts of errors that are stored with objects, and the counts of
verified pages are left out.
-/

namespace Tgrep.Managed

namespace Collection

/-! ## Records -/

/-- The version of the authentication format. -/
def FORMAT : ℕ := 1

/-- The bytes of an authenticated block. -/
def BLOCK_BYTES : ℕ := 4096

/-- Divide and round up. -/
def divCeil (a b : ℕ) : ℕ := (a + b - 1) / b

/-- A block as it goes into a manifest. -/
structure Block where
  /-- Its position. -/
  index : ℕ
  /-- Its length. -/
  length : ℕ
  /-- The digest of its bytes. -/
  digest : ℕ
  deriving DecidableEq

/-- What the producer of a member intended to write. The manifest, a digest of the blocks in
order, is represented by the blocks. -/
structure MemberSeal where
  /-- The format of the proof. -/
  format : ℕ
  /-- The length of the member. -/
  length : ℕ
  /-- The number of its blocks. -/
  blocks : ℕ
  /-- The blocks. -/
  manifest : List Block
  deriving DecidableEq

/-- Refuse a seal that contradicts itself. -/
def MemberSeal.validate (s : MemberSeal) : Except Error Unit :=
  require (¬ (s.format ≠ FORMAT ∨ s.blocks ≠ divCeil s.length BLOCK_BYTES ∨
      (s.blocks = 0 ∧ s.manifest ≠ [])))
    (.corrupt "invalid complete producer seal")

/-- The record of a member. -/
structure FileRecord where
  /-- The identity of the file. -/
  identity : ℕ
  /-- Its owner and permissions. -/
  ownership : ℕ
  /-- Whether its producer still writes it. -/
  producerOpen : Bool
  /-- What the producer intended to write. -/
  memberSeal : Option MemberSeal
  /-- Its recorded length. -/
  logicalBytes : ℕ
  /-- Its recorded allocation. -/
  allocatedBytes : Measurement
  /-- The length it is about to have, while a chunk is being deleted. -/
  pendingLength : Option ℕ
  /-- The manifest that the intent was authenticated with. -/
  pendingManifest : Option (List Block)
  /-- Whether the file is gone. -/
  removed : Bool
  /-- The bytes that were deleted. -/
  creditedLogicalBytes : ℕ
  /-- The allocation that was freed. -/
  creditedAllocatedBytes : ℕ
  deriving DecidableEq

/-- The record of an object. -/
structure ObjectRecord where
  /-- Where it is in its life. -/
  state : ObjectState
  /-- The recorded bytes of its members. -/
  logicalBytes : ℕ
  /-- Their recorded allocation. -/
  allocatedBytes : Measurement
  deriving DecidableEq

/-- What a pass has done. -/
structure Progress where
  /-- Objects examined. -/
  examined : ℕ := 0
  /-- Objects withdrawn. -/
  retired : ℕ := 0
  /-- Objects removed. -/
  removed : ℕ := 0
  /-- Objects whose container was already gone. -/
  recoveredObjects : ℕ := 0
  /-- Pages of work. -/
  pages : ℕ := 0
  /-- Bytes that the pass deleted itself. -/
  logicalBytesReclaimed : ℕ := 0
  /-- Allocation that it freed itself. -/
  allocatedBytesReclaimed : ℕ := 0
  /-- Bytes that it found deleted as journaled. -/
  recoveredLogicalBytes : ℕ := 0
  /-- Allocation that it found freed. -/
  recoveredAllocatedBytes : ℕ := 0
  /-- Whether some allocation could not be measured. -/
  allocationMeasurementUnavailable : Bool := false
  /-- Objects skipped. -/
  skipped : ℕ := 0
  /-- Errors. -/
  errors : ℕ := 0
  deriving DecidableEq

/-- The record of a collection operation. -/
structure PassRecord where
  /-- What its pass has done. -/
  progress : Progress
  /-- The result, once it is finished. -/
  result : Option Progress
  deriving DecidableEq

/-- The bounds of a pass. -/
structure CollectionBounds where
  /-- Objects to examine. -/
  maxExamined : ℕ
  /-- Objects to remove. -/
  maxRemoved : ℕ
  /-- Bytes to delete. -/
  maxDeleteBytes : ℕ
  /-- Pages of work. -/
  maxPages : ℕ
  deriving DecidableEq

/-- One entry of the list of credits: the bytes of a member from `after` to `before` were credited
to a pass. -/
structure Credit where
  /-- The operation of the pass. -/
  operation : Id
  /-- The object. -/
  object : Id
  /-- The name of the member. -/
  name : String
  /-- Whether the bytes count as recovered rather than reclaimed. -/
  recovered : Bool
  /-- The recorded length before. -/
  before : ℕ
  /-- The recorded length after. -/
  after : ℕ
  deriving DecidableEq

/-- The part of the catalog that a pass reads and writes. -/
structure Inventory where
  /-- The objects. -/
  objects : FinMap Id ObjectRecord := .empty
  /-- The members of every object. -/
  members : Id → FinMap String FileRecord := fun _ => .empty
  /-- The members that a producer is about to create. -/
  creations : Id → Finset String := fun _ => ∅
  /-- The collection operations. -/
  operations : FinMap Id PassRecord := .empty
  /-- Every credit so far. -/
  credits : List Credit := []

/-- A file. -/
structure File where
  /-- Its identity. -/
  identity : ℕ
  /-- Its owner and permissions. -/
  ownership : ℕ
  /-- Its bytes. -/
  bytes : List UInt8
  deriving DecidableEq

/-- `set_len`: cut the file, or extend it with zeros. -/
def File.setLen (f : File) (length : ℕ) : File :=
  { f with bytes := f.bytes.take length ++ List.replicate (length - f.bytes.length) 0 }

/-- The files of the objects. -/
structure Disk where
  /-- The objects whose container exists. -/
  containers : Finset Id := ∅
  /-- The files in every container. -/
  files : Id → FinMap String File := fun _ => .empty

/-! ## Writing rows -/

namespace Inventory

/-- Write the row of an object. -/
def saveObject (inv : Inventory) (id : Id) (o : ObjectRecord) : Inventory :=
  { inv with objects := inv.objects.insert id o }

/-- Write the row of a member. -/
def saveMember (inv : Inventory) (id : Id) (name : String) (m : FileRecord) : Inventory :=
  { inv with members := Function.update inv.members id ((inv.members id).put name (some m)) }

/-- Write the progress of an operation. -/
def saveProgress (inv : Inventory) (operation : Id) (progress : Progress) : Inventory :=
  { inv with operations := inv.operations.alter operation (Option.map ({ · with progress })) }

/-- The recorded bytes of the members of an object. -/
def memberBytes (inv : Inventory) (id : Id) : ℤ := (inv.members id).tally fun _ m => m.logicalBytes

/-- Why a measurement is missing. -/
def missingReason : Measurement → Option String
  | .observed _ => none
  | .unavailable reason => some reason

/-- The recorded allocation of the members of an object. -/
def memberAllocation (inv : Inventory) (id : Id) : Measurement :=
  match ((inv.members id).toList.filterMap fun row => missingReason row.2.allocatedBytes).getLast? with
  | some reason => .unavailable reason
  | none => .observed ((inv.members id).tally fun _ m => m.allocatedBytes.value).toNat

/-- A member whose producer has closed it with a seal. -/
def closedRow (m : FileRecord) : Bool := !m.producerOpen && m.memberSeal.any (·.format == FORMAT)

/-- Some member of the object is not closed. -/
def unsealed (inv : Inventory) (id : Id) : Bool :=
  !(decide (inv.creations id = ∅) && decide (∀ name ∈ (inv.members id).keys,
    ((inv.members id).get? name).any closedRow))

end Inventory

/-! ## Producers -/

/-- The error of an object that the catalog does not have. -/
def objectMissing : Error :=
  ⟨.cacheMissing, "object-missing", "no such managed incarnation", none⟩

/-- The error of an output that is not what its producer recorded. -/
def producerModified (detail : String) : Error :=
  ⟨.staleIdentity, "producer-member-modified", detail, none⟩

/-- The row of a file as its producer records it. -/
def FileRecord.ofFile (file : File) (allocated : Measurement) (producerOpen : Bool)
    (memberSeal : Option MemberSeal) : FileRecord where
  identity := file.identity
  ownership := file.ownership
  producerOpen := producerOpen
  memberSeal := memberSeal
  logicalBytes := file.bytes.length
  allocatedBytes := allocated
  pendingLength := none
  pendingManifest := none
  removed := false
  creditedLogicalBytes := 0
  creditedAllocatedBytes := 0

/-- Whether a row may not become the row `record`. -/
def differs (previous record : FileRecord) (authenticated : Bool) : Bool :=
  previous.identity != record.identity || previous.ownership != record.ownership ||
    previous.removed || previous.pendingLength.isSome || previous.pendingManifest.isSome ||
    previous.creditedLogicalBytes != 0 || previous.creditedAllocatedBytes != 0 ||
    (!previous.producerOpen && (!authenticated ||
      previous.logicalBytes != record.logicalBytes || record.producerOpen))

/-- The seal that a row goes on with. -/
def inheritedSeal (inv : Inventory) (id : Id) (name : String) (record : FileRecord)
    (authenticated : Bool) : Except Error (Option MemberSeal) :=
  match (inv.members id).get? name with
  | some previous =>
    require (differs previous record authenticated = false) (producerModified
      "sealed or withdrawn output differs from its producer inventory") >>= fun _ =>
    .ok previous.memberSeal
  | none =>
    require (name ∈ inv.creations id) (.corrupt "producer file has no creation intent") >>= fun _ =>
    .ok none

/-- A member is only closed if it is as long as its seal says. -/
def checkClosed (record : FileRecord) : Except Error Unit :=
  match record.producerOpen, record.memberSeal with
  | true, _ => .ok ()
  | false, none => .error ⟨.recoveryRequired, "member-content-unsealed",
      "producer-intended content proof is absent; observed bytes cannot establish ownership", none⟩
  | false, some memberSeal => do
    memberSeal.validate
    require (memberSeal.length = record.logicalBytes) (producerModified
      "producer output length differs from its intended seal")

/-- Members of the object can no longer be recorded. -/
def withdrawnForProducers : ObjectState → Bool
  | .pendingDeletion | .removed | .quarantined => true
  | _ => false

/-- Write the row of a member and the totals of its object. -/
def saveRecorded (inv : Inventory) (id : Id) (name : String) (o : ObjectRecord)
    (record : FileRecord) : Except Error Inventory :=
  let inv := inv.saveMember id name record
  require (inv.memberBytes id < Counter.size) (.corrupt "logical accounting overflow") >>= fun _ =>
  .ok ({ inv with creations := Function.update inv.creations id ((inv.creations id).erase name) }
    |>.saveObject id { o with
      logicalBytes := (inv.memberBytes id).toNat, allocatedBytes := inv.memberAllocation id })

/-- `record_open_file_state`: record what a producer has written. `authenticated` says that the
stamps of the file are those recorded, or that its contents were read again. -/
def recordOpenFileState (inv : Inventory) (id : Id) (name : String) (file : File)
    (allocated : Measurement) (producerOpen authenticated : Bool) : Except Error Inventory := do
  let memberSeal ← inheritedSeal inv id name (.ofFile file allocated producerOpen none)
    authenticated
  let record := FileRecord.ofFile file allocated producerOpen memberSeal
  checkClosed record
  match inv.objects.get? id with
  | none => .error objectMissing
  | some o =>
    require (withdrawnForProducers o.state = false) (.busy "producer-object-withdrawn")
    saveRecorded inv id name o record

/-- `begin_member`: announce a member. -/
def beginMember (inv : Inventory) (id : Id) (name : String) : Except Error Inventory :=
  match inv.objects.get? id with
  | none => .error objectMissing
  | some o => do
    require (o.state = .preparing) (.busy "object-is-not-preparing")
    require ((inv.members id).get? name = none) (.busy "member-already-exists")
    .ok { inv with creations := Function.update inv.creations id (insert name (inv.creations id)) }

/-- `complete_member_seal`: record what the producer of a member intended, of which `blocks` blocks
are proved. -/
def completeMemberSeal (inv : Inventory) (id : Id) (name : String) (memberSeal : MemberSeal)
    (blocks : ℕ) : Except Error Inventory := do
  memberSeal.validate
  match (inv.members id).get? name with
  | none => .error noRows
  | some record =>
    match decide (record.memberSeal = some memberSeal) with
    | true => .ok inv
    | false =>
      require (record.producerOpen = true ∧ record.memberSeal = none)
        (.corrupt "producer seal was already finalized")
      require (blocks = memberSeal.blocks) (.corrupt "producer manifest has missing proof rows")
      .ok (inv.saveMember id name { record with memberSeal := some memberSeal })

/-- `publish_object`. -/
def publishObject (inv : Inventory) (id : Id) : Except Error Inventory :=
  match inv.objects.get? id with
  | none => .error objectMissing
  | some o => do
    require (o.state = .preparing) (.corrupt "object cannot be published from its current state")
    require (inv.unsealed id = false) (.busy "object-producers-not-sealed")
    .ok (inv.saveObject id { o with state := .published })

/-- An interrupted preparation is retired, or quarantined if its identity is not sealed. -/
def abandonObject (inv : Inventory) (id : Id) (state : ObjectState) : Except Error Inventory :=
  match inv.objects.get? id with
  | none => .error objectMissing
  | some o => do
    require ((state = .retired ∧ o.state = .preparing) ∨
      (state = .quarantined ∧ (o.state = .preparing ∨ o.state = .retired)))
      (.corrupt "object cannot be withdrawn from its current state")
    .ok (inv.saveObject id { o with state := state })

/-! ## Deciding about a member -/

/-- The error of a file that is not what the catalog says. -/
def modified (detail : String) : Error := ⟨.staleIdentity, "member-modified", detail, none⟩

/-- The error of a proof that contradicts itself. -/
def proofError (detail : String) : Error :=
  ⟨.corruptMetadata, "member-content-proof-invalid", detail, none⟩

/-- The member after which the catalog is asked: the first that is not removed, the header of the
object being the last. -/
def nextMember (members : FinMap String FileRecord) : Option (String × FileRecord) :=
  let retained := members.toList.filter fun row => !row.2.removed
  (retained.filter (·.1 ≠ "object.json") ++ retained.filter (·.1 = "object.json")).head?

/-- The seal of a member, whose intent, if there is one, was authenticated with it. -/
def intentSeal (member : FileRecord) : Except Error MemberSeal :=
  match member.memberSeal with
  | none => .error ⟨.recoveryRequired, "member-content-unsealed",
      "producer content proof is missing", none⟩
  | some memberSeal => do
    memberSeal.validate
    require (member.pendingLength.isSome = member.pendingManifest.isSome ∧
        member.pendingManifest.all (· = memberSeal.manifest) = true)
      ⟨.recoveryRequired, "deletion-intent-unauthenticated",
        "a deletion intent without matching producer authentication cannot be recovered", none⟩
    .ok memberSeal

/-- Whether the file of a member exists; it may only be missing if it was about to be unlinked. -/
def memberExists (member : FileRecord) : Option File → Except Error Bool
  | some _ => .ok true
  | none => require (member.pendingLength = some 0)
      ⟨.io, "io", "entity not found", none⟩ >>= fun _ => .ok false

/-- An open member that is being authenticated. -/
structure Verification where
  /-- The object. -/
  object : Id
  /-- The name of the member. -/
  name : String
  /-- The identity of the file. -/
  identity : ℕ
  /-- Its owner and permissions. -/
  ownership : ℕ
  /-- The seal it is read against. -/
  memberSeal : MemberSeal
  /-- Its length. -/
  currentLength : ℕ
  deriving DecidableEq

namespace Verification

/-- Whether the verification is of this member in its present state. -/
def sameMember (v : Verification) (object : Id) (name : String) (member : FileRecord) : Bool :=
  v.object == object && v.name == name && v.identity == member.identity &&
    v.ownership == member.ownership && member.memberSeal == some v.memberSeal &&
    (v.currentLength == member.logicalBytes || member.pendingLength == some v.currentLength)

/-- The file with this name is the open one, and unchanged. -/
def check (v : Verification) : Option File → Except Error Unit
  | none => .error ⟨.io, "io", "entity not found", none⟩
  | some file => require (file.identity = v.identity ∧ file.bytes.length = v.currentLength ∧
        file.ownership = v.ownership)
      (modified ("native identity, length, ownership or directory entry changed " ++
        "during verification"))

/-- The length that a member may have besides the recorded one. -/
def authorizedPending (member : FileRecord) (memberSeal : MemberSeal) : Option ℕ :=
  member.pendingLength.filter fun _ => member.pendingManifest = some memberSeal.manifest

/-- Open a member and begin to authenticate it. -/
def new (object : Id) (name : String) (member : FileRecord) (file : File) :
    Except Error Verification :=
  match member.memberSeal with
  | none => .error (proofError "complete producer proof is absent")
  | some memberSeal => do
    memberSeal.validate
    require (¬ (member.producerOpen = true ∨ member.removed = true ∨
        Counter.checkedAdd member.logicalBytes member.creditedLogicalBytes ≠
          some memberSeal.length))
      (proofError "member inventory is not a sealed retained prefix")
    let current := file.bytes.length
    require (current = member.logicalBytes ∨
        (authorizedPending member memberSeal).any (fun target => target ≠ 0 ∧ target = current))
      (modified ("member length differs from its sealed inventory and authenticated " ++
        "pending target"))
    require (¬ (current > memberSeal.length ∨
        (current ≠ memberSeal.length ∧ current % BLOCK_BYTES ≠ 0)))
      (proofError "retained length is not an original authentication block boundary")
    let v : Verification :=
      ⟨object, name, member.identity, member.ownership, memberSeal, current⟩
    v.check (some file)
    .ok v

/-- The cached verification, if it is of this member and has not expired. One that was begun under
another policy or allocation starts reading from the beginning. -/
def rebind (cached : Option Verification) (object : Id) (name : String) (member : FileRecord)
    (expired : Bool) : Option Verification :=
  cached.filter fun v => v.sameMember object name member && !expired

/-- The cached verification or a new one. -/
def resume (cached : Option Verification) (object : Id) (name : String) (member : FileRecord)
    (file : File) : Except Error Verification :=
  match cached with
  | some v => .ok v
  | none => new object name member file

end Verification

/-- What is decided about a member from outside, while a pass looks at it. -/
structure Observation where
  /-- Whether the cached verification has expired. -/
  expired : Bool
  /-- Whether the next pages of the member agree with its seal, and whether they were the last
  ones. -/
  page : Except Error Bool
  /-- Whether the pass has to stop after an unfinished page. -/
  pause : Bool
  /-- The chunk size of the policy. -/
  chunkBytes : ℕ
  /-- The allocation of the file. -/
  allocated : Measurement

/-- What to do with a member. -/
inductive Plan
  /-- Read on. -/
  | wait (v : Verification)
  /-- Credit what was deleted as journaled; the file exists or not. -/
  | recover (v : Option Verification) (current : ℕ) (here : Bool)
  /-- Journal this row and delete a chunk. -/
  | intend (v : Verification) (member : FileRecord)

/-- Whether the journaled deletion has happened. -/
def recovered (member : FileRecord) (current : ℕ) (missing : Bool) : Except Error Bool :=
  match member.pendingLength with
  | none => .ok missing
  | some target =>
    match decide (current < member.logicalBytes) with
    | true => require (current = target)
        (.corrupt "deletion outcome differs from its exact journaled length") >>= fun _ => .ok true
    | false => .ok missing

/-- The length after the next chunk: a number of whole blocks. -/
def deletionTarget (current chunk : ℕ) : Except Error ℕ :=
  match decide (current ≤ chunk) with
  | true => .ok 0
  | false =>
    match Counter.checkedMul (divCeil (current - chunk) BLOCK_BYTES) BLOCK_BYTES with
    | some target => .ok target
    | none => .error (.corrupt "authentication-aligned deletion length overflow")

/-- The chunk to delete from a member that is as long as recorded. -/
def planChunk (remaining : ℕ) (memberSeal : MemberSeal) (member : FileRecord) (file : Option File)
    (env : Observation) : Option Verification → Except Error Plan
  | none => .error (.corrupt "existing member has no authenticated handle")
  | some v => do
    v.check file
    let target ← deletionTarget v.currentLength (min env.chunkBytes remaining)
    require (¬ (target ≥ v.currentLength ∧ v.currentLength ≠ 0))
      (.pressure "collection-byte-bound-below-authentication-block")
    .ok (.intend v { member with
      allocatedBytes := env.allocated
      pendingLength := some target
      pendingManifest := some memberSeal.manifest })

/-- What to do with a member that has been authenticated, or is missing. -/
def planAuthenticated (remaining : ℕ) (memberSeal : MemberSeal) (member : FileRecord)
    (file : Option File) (env : Observation) (v : Option Verification) (here : Bool) :
    Except Error Plan := do
  let current := v.elim 0 (·.currentLength)
  match ← recovered member current !here with
  | true => .ok (.recover v current here)
  | false => planChunk remaining memberSeal member file env v

/-- The first part of `delete_member`: what to do with a member, and the row to journal. -/
def planDeletion (remaining : ℕ) (object : Id) (name : String) (member : FileRecord)
    (file : Option File) (cached : Option Verification) (env : Observation) :
    Except Error Plan := do
  let memberSeal ← intentSeal member
  let _ ← memberExists member file
  let cached := Verification.rebind cached object name member env.expired
  match file with
  | none => planAuthenticated remaining memberSeal member file env none false
  | some present =>
    let v ← Verification.resume cached object name member present
    v.check file
    match ← env.page with
    | false => .ok (.wait v)
    | true => planAuthenticated remaining memberSeal member file env (some v) true

/-! ## Passes -/

/-- How a transaction or a change of a file ends. -/
inductive Outcome
  /-- It takes effect and succeeds. -/
  | done
  /-- It fails without an effect. -/
  | lost
  /-- It takes effect, but is reported as failed. -/
  | unconfirmed
  deriving DecidableEq

/-- An object under collection, with its row as the pass knows it. -/
structure Target where
  /-- The object. -/
  id : Id
  /-- Its row. -/
  object : ObjectRecord

/-- The result of a destructive step, or of finding it done. -/
structure Settlement where
  /-- The length of the file. -/
  after : ℕ
  /-- Its allocation. -/
  afterAllocation : Measurement
  /-- Whether the file is gone. -/
  removed : Bool
  /-- Whether the step was found done. -/
  recovered : Bool
  /-- The verification to go on with. -/
  verification : Option Verification

/-- Where a pass is. -/
inductive Phase
  /-- Between two objects. -/
  | idle
  /-- About to look at an object. -/
  | examining (id : Id)
  /-- The object is locked and may be collected. -/
  | eligible (t : Target)
  /-- The object is withdrawn. -/
  | withdrawn (t : Target)
  /-- Between two members. -/
  | deleting (t : Target)
  /-- The intent of this row is journaled. -/
  | intended (t : Target) (name : String) (member : FileRecord) (v : Verification)
  /-- The file is as intended. -/
  | settled (t : Target) (name : String) (member : FileRecord) (result : Settlement)
  /-- No member is left. -/
  | emptied (t : Target)
  /-- The container is gone, and the lock of the object. -/
  | vacated (t : Target)
  /-- No more objects. -/
  | ending

/-- The object that a pass holds the exclusive lock of. -/
def Phase.guarded : Phase → Option Id
  | .eligible t | .withdrawn t | .deleting t | .intended t _ _ _ | .settled t _ _ _ | .emptied t =>
    some t.id
  | .idle | .examining _ | .vacated _ | .ending => none

/-- A running pass. -/
structure Pass where
  /-- Its operation. -/
  operation : Id
  /-- Its bounds. -/
  bounds : CollectionBounds
  /-- What it has done. -/
  progress : Progress
  /-- Where it is. -/
  phase : Phase

/-- A namespace with the pass that runs and the verification that is kept between passes. -/
structure State where
  /-- The catalog. -/
  inventory : Inventory := {}
  /-- The files. -/
  disk : Disk := {}
  /-- The pass that runs: there is one verification, so there is one pass. -/
  pass : Option Pass := none
  /-- The verification that is kept. -/
  cached : Option Verification := none

namespace State

/-- The pass gives up: its journal could not be written, or its process ended. -/
def abort (s : State) : State := { s with pass := none, cached := none }

/-- The pass goes on with another object after an error. -/
def skip (s : State) (p : Pass) : State :=
  { s with
    pass := some { p with
      phase := .idle
      progress := { p.progress with
        skipped := p.progress.skipped + 1, errors := p.progress.errors + 1 } }
    cached := none }

/-- The pass goes on. -/
def resume (s : State) (p : Pass) (phase : Phase) : State :=
  { s with pass := some { p with phase } }

/-- `collection_transaction`: change the catalog together with the record of the pass. Progress
that is not known to be committed is not believed. -/
def collectionTransaction (s : State) (p : Pass) (outcome : Outcome)
    (change : Inventory → Progress → Except Error (Inventory × Progress)) (phase : Phase) : State :=
  match change s.inventory p.progress, outcome with
  | .error _, _ | .ok _, .lost => s.abort
  | .ok (inv, progress), .unconfirmed =>
    { s.abort with inventory := inv.saveProgress p.operation progress }
  | .ok (inv, progress), .done =>
    { s with
      inventory := inv.saveProgress p.operation progress
      pass := some { p with progress, phase } }

end State

/-- Start or resume the pass of an operation: a finished one answers with its saved result. -/
def beginPass (s : State) (operation : Id) (bounds : CollectionBounds) : State :=
  match s.pass, s.inventory.operations.get? operation with
  | none, some ⟨progress, none⟩ => { s with pass := some ⟨operation, bounds, progress, .idle⟩ }
  | _, _ => s

/-- Nothing may be begun any more within the bounds of the pass. -/
def passExhausted (p : Pass) : Bool :=
  p.progress.examined ≥ p.bounds.maxExamined || p.progress.removed ≥ p.bounds.maxRemoved ||
    p.progress.pages ≥ p.bounds.maxPages ||
    p.progress.logicalBytesReclaimed ≥ p.bounds.maxDeleteBytes

/-- Choose an object and save the progress; `continued` says that the cursor was on it. -/
def examine (s : State) (p : Pass) (id : Id) (continued : Bool) (outcome : Outcome) : State :=
  match passExhausted p with
  | true => s.resume p .ending
  | false => s.collectionTransaction p outcome (fun inv progress => .ok (inv, { progress with
      pages := progress.pages + if continued then 0 else 1
      examined := progress.examined + 1 })) (.examining id)

/-- Some member of the object is not removed. -/
def outstanding (inv : Inventory) (id : Id) : Bool :=
  !decide (∀ name ∈ (inv.members id).keys, ((inv.members id).get? name).any (·.removed))

/-- `finish_missing_container`, for a container that is missing; `referenced` says that the object
has references. -/
def finishMissingContainer (s : State) (p : Pass) (id : Id) (o : ObjectRecord) (referenced : Bool)
    (outcome : Outcome) : State :=
  match outstanding s.inventory id || referenced || o.logicalBytes != 0 with
  | true => s.skip p
  | false => s.collectionTransaction p outcome (fun inv progress =>
      match inv.objects.get? id with
      | none => .error objectMissing
      | some o => .ok (inv.saveObject id { o with
            state := .removed, allocatedBytes := .observed 0 }, { progress with
          recoveredObjects := progress.recoveredObjects + 1
          removed := progress.removed + 1 })) .idle

/-- The first part of `collect_object`: whether the object can be collected. `eligible` is what
`eligibility` says apart from the catalog of its members. -/
def collectObject (s : State) (p : Pass) (id : Id) (eligible referenced : Bool)
    (outcome : Outcome) : State :=
  match s.inventory.objects.get? id with
  | none => s.skip p
  | some o =>
    match o.state, decide (id ∈ s.disk.containers) with
    | .removed, _ => s.resume p .idle
    | .pendingDeletion, false => finishMissingContainer s p id o referenced outcome
    | .quarantined, _ => s.resume { p with
        progress := { p.progress with skipped := p.progress.skipped + 1 } } .idle
    | _, present =>
      match eligible && !s.inventory.unsealed id, present with
      | false, _ => s.resume { p with
          progress := { p.progress with skipped := p.progress.skipped + 1 } } .idle
      | true, false => s.skip p
      | true, true => s.resume p (.eligible ⟨id, o⟩)

/-- Withdraw an object that is not withdrawn yet. -/
def withdraw (s : State) (p : Pass) (t : Target) (outcome : Outcome) : State :=
  match t.object.state with
  | .retired | .pendingDeletion => s.resume p (.withdrawn t)
  | _ =>
    match s.inventory.objects.get? t.id with
    | none => s.abort
    | some o => s.collectionTransaction p outcome (fun inv progress =>
        .ok (inv.saveObject t.id { o with state := .retired },
          { progress with retired := progress.retired + 1 }))
        (.withdrawn ⟨t.id, { o with state := .retired }⟩)

/-- Mark a withdrawn object for deletion. -/
def markPendingDeletion (s : State) (p : Pass) (t : Target) (outcome : Outcome) : State :=
  match t.object.state with
  | .retired => s.collectionTransaction p outcome (fun inv progress =>
      .ok (inv.saveObject t.id { t.object with state := .pendingDeletion }, progress))
      (.deleting ⟨t.id, { t.object with state := .pendingDeletion }⟩)
  | _ => s.resume p (.deleting t)

/-- The next turn of the loop of `collect_object`, up to the journaled intent. -/
def deleteMember (s : State) (p : Pass) (t : Target) (env : Observation) (outcome : Outcome) :
    State :=
  match decide (p.progress.pages ≥ p.bounds.maxPages) ||
      decide (p.progress.logicalBytesReclaimed ≥ p.bounds.maxDeleteBytes) with
  | true => s.resume p .ending
  | false =>
    let p := { p with progress := { p.progress with pages := p.progress.pages + 1 } }
    match nextMember (s.inventory.members t.id) with
    | none => s.resume p (.emptied t)
    | some (name, member) =>
      match planDeletion (p.bounds.maxDeleteBytes - p.progress.logicalBytesReclaimed) t.id name
          member ((s.disk.files t.id).get? name) s.cached env with
      | .error _ => s.skip p
      | .ok (.wait v) =>
        State.resume { s with cached := some v } p (if env.pause then .ending else .deleting t)
      | .ok (.recover v current here) =>
        State.resume { s with cached := none } p (.settled t name member {
          after := current
          afterAllocation := if v.isSome then env.allocated else .observed 0
          removed := !here
          recovered := true
          verification := v })
      | .ok (.intend v member) =>
        State.collectionTransaction { s with cached := none } p outcome
          (fun inv progress => .ok (inv.saveMember t.id name member, progress))
          (.intended t name member v)

/-- Truncate or unlink the file of a member. -/
def chunkRemoved (disk : Disk) (id : Id) (name : String) (file : File) (target : ℕ) : Disk :=
  { disk with
    files := Function.update disk.files id
      ((disk.files id).put name (if target = 0 then none else some (file.setLen target))) }

/-- The destructive step of `delete_member`: after a last look at the file. `retained` says that
the verification of a truncated file survives. -/
def removeBytes (s : State) (p : Pass) (t : Target) (name : String) (member : FileRecord)
    (v : Verification) (retained : Bool) (allocated : Measurement) (outcome : Outcome) : State :=
  match member.pendingLength, (s.disk.files t.id).get? name with
  | some target, some file =>
    match v.check (some file), outcome with
    | .error _, _ | .ok _, .lost => s.skip p
    | .ok _, .unconfirmed =>
      State.skip { s with disk := chunkRemoved s.disk t.id name file target } p
    | .ok _, .done =>
      State.resume { s with disk := chunkRemoved s.disk t.id name file target } p
        (.settled t name member {
          after := target
          afterAllocation := if target = 0 then .observed 0 else allocated
          removed := decide (target = 0)
          recovered := false
          verification :=
            if target ≠ 0 ∧ retained then some { v with currentLength := target } else none })
  | _, _ => s.skip p

/-- The allocation to credit, if both lengths were measured. -/
def freedAllocation : Measurement → Measurement → Option ℕ
  | .observed before, .observed after => if after ≤ before then some (before - after) else none
  | _, _ => none

/-- The allocation of an object after some was freed. -/
def allocationAfter : Measurement → Option ℕ → Measurement
  | .observed value, some amount =>
    if amount ≤ value then .observed (value - amount)
    else .unavailable "deletion-allocation-not-fully-observed"
  | _, _ => .unavailable "deletion-allocation-not-fully-observed"

/-- A sum that has to be in range. -/
def addChecked (a b : ℕ) (detail : String) : Except Error ℕ :=
  match Counter.checkedAdd a b with
  | some c => .ok c
  | none => .error (.corrupt detail)

/-- A difference that must not be negative. -/
def subChecked (a b : ℕ) (detail : String) : Except Error ℕ :=
  match Counter.checkedSub a b with
  | some c => .ok c
  | none => .error (.corrupt detail)

/-- The allocation that was freed, with that of the last chunk if it was measured. -/
def creditedAllocation (credited : ℕ) (freed : Option ℕ) (detail : String) : Except Error ℕ :=
  match freed with
  | some allocated => addChecked credited allocated detail
  | none => .ok credited

/-- The row of a member after `logical` bytes are credited. -/
def creditedMember (member : FileRecord) (result : Settlement) (logical : ℕ) :
    Except Error FileRecord := do
  let creditedLogicalBytes ← addChecked member.creditedLogicalBytes logical
    "deletion credit overflow"
  let creditedAllocatedBytes ← creditedAllocation member.creditedAllocatedBytes
    (freedAllocation member.allocatedBytes result.afterAllocation) "allocation credit overflow"
  .ok { member with
    logicalBytes := result.after
    allocatedBytes := result.afterAllocation
    pendingLength := none
    pendingManifest := none
    removed := result.removed
    creditedLogicalBytes
    creditedAllocatedBytes }

/-- What a pass has done after `logical` bytes are credited to it. -/
def creditedProgress (progress : Progress) (recovered : Bool) (logical : ℕ)
    (allocated : Option ℕ) : Except Error Progress :=
  let allocationMeasurementUnavailable :=
    progress.allocationMeasurementUnavailable || allocated.isNone
  match recovered with
  | true => do
    let recoveredLogicalBytes ← addChecked progress.recoveredLogicalBytes logical
      "recovery accounting overflow"
    let recoveredAllocatedBytes ← creditedAllocation progress.recoveredAllocatedBytes allocated
      "recovery allocation accounting overflow"
    .ok { progress with
      recoveredLogicalBytes, recoveredAllocatedBytes, allocationMeasurementUnavailable }
  | false => do
    let logicalBytesReclaimed ← addChecked progress.logicalBytesReclaimed logical
      "pass deletion accounting overflow"
    let allocatedBytesReclaimed ← creditedAllocation progress.allocatedBytesReclaimed allocated
      "pass allocation accounting overflow"
    .ok { progress with
      logicalBytesReclaimed, allocatedBytesReclaimed, allocationMeasurementUnavailable }

/-- The transaction that credits a chunk to the member, the object and the pass. -/
def creditChange (operation : Id) (id : Id) (name : String) (before : FileRecord)
    (member : FileRecord) (recovered : Bool) (logical : ℕ) (inv : Inventory)
    (progress : Progress) : Except Error (Inventory × Progress) := do
  let allocated := freedAllocation before.allocatedBytes member.allocatedBytes
  match inv.objects.get? id with
  | none => .error objectMissing
  | some o =>
    let logicalBytes ← subChecked o.logicalBytes logical "object deletion accounting underflow"
    let progress ← creditedProgress progress recovered logical allocated
    let credit : Credit :=
      ⟨operation, id, name, recovered, before.logicalBytes, member.logicalBytes⟩
    let inv : Inventory := { inv with credits := inv.credits ++ [credit] }
    .ok ((inv.saveMember id name member).saveObject id { o with
      logicalBytes, allocatedBytes := allocationAfter o.allocatedBytes allocated }, progress)

/-- The last part of `delete_member`. -/
def creditMember (s : State) (p : Pass) (t : Target) (name : String) (member : FileRecord)
    (result : Settlement) (outcome : Outcome) : State :=
  match subChecked member.logicalBytes result.after "file grew after withdrawal" with
  | .error _ => s.skip p
  | .ok logical =>
    match creditedMember member result logical with
    | .error _ => s.skip p
    | .ok after =>
      State.collectionTransaction { s with cached := result.verification } p outcome
        (creditChange p.operation t.id name member after result.recovered logical)
        (.deleting t)

/-- Remove the container of an object, unless something else is in it. -/
def removeContainer (s : State) (p : Pass) (t : Target) (outcome : Outcome) : State :=
  match decide (t.id ∈ s.disk.containers ∧ (s.disk.files t.id).isEmpty = true), outcome with
  | false, _ | true, .lost => s.skip p
  | true, .unconfirmed =>
    State.skip { s with disk := { s.disk with containers := s.disk.containers.erase t.id } } p
  | true, .done =>
    State.resume { s with disk := { s.disk with containers := s.disk.containers.erase t.id } } p
      (.vacated t)

/-- The last transaction of `collect_object`. -/
def finishObject (s : State) (p : Pass) (t : Target) (outcome : Outcome) : State :=
  s.collectionTransaction p outcome (fun inv progress =>
    .ok (inv.saveObject t.id { t.object with
        state := .removed, logicalBytes := 0, allocatedBytes := .observed 0 },
      { progress with removed := progress.removed + 1 })) .idle

/-- Save the result of a pass. -/
def finishPass (s : State) (p : Pass) (outcome : Outcome) : State :=
  match outcome with
  | .lost => s.abort
  | .done | .unconfirmed =>
    { s with
      inventory := { s.inventory with
        operations := s.inventory.operations.alter p.operation
          (Option.map fun _ => ⟨p.progress, some p.progress⟩) }
      pass := none }

/-! ## Runs -/

/-- Everything that happens to a namespace. -/
inductive Event
  /-- An object is created, and its container. -/
  | create (id : Id)
  /-- A producer announces a member. -/
  | beginMember (id : Id) (name : String)
  /-- A producer records a file. -/
  | record (id : Id) (name : String) (allocated : Measurement) (producerOpen authenticated : Bool)
  /-- A producer records what it intended to write. -/
  | completeSeal (id : Id) (name : String) (memberSeal : MemberSeal) (blocks : ℕ)
  /-- An object is published. -/
  | publish (id : Id)
  /-- An interrupted preparation is retired or quarantined. -/
  | abandon (id : Id) (state : ObjectState)
  /-- A collection is accepted. -/
  | accept (operation : Id)
  /-- A pass starts or resumes. -/
  | beginPass (operation : Id) (bounds : CollectionBounds)
  /-- It chooses an object. -/
  | examine (id : Id) (continued : Bool) (outcome : Outcome)
  /-- It looks at the object. -/
  | collect (eligible referenced : Bool) (outcome : Outcome)
  /-- It withdraws the object. -/
  | withdraw (outcome : Outcome)
  /-- It marks the object for deletion. -/
  | markPendingDeletion (outcome : Outcome)
  /-- It turns to the next member. -/
  | deleteMember (env : Observation) (outcome : Outcome)
  /-- It truncates or unlinks the file. -/
  | removeBytes (retained : Bool) (allocated : Measurement) (outcome : Outcome)
  /-- It credits the chunk. -/
  | credit (outcome : Outcome)
  /-- It removes the container. -/
  | removeContainer (outcome : Outcome)
  /-- It records the object as removed. -/
  | finishObject (outcome : Outcome)
  /-- It stops: its time is over, or it was cancelled. -/
  | stop
  /-- It ends. -/
  | finishPass (outcome : Outcome)
  /-- Any other error of the pass. -/
  | fault
  /-- The process ends. -/
  | crash
  /-- Someone else changes a file. -/
  | interfere (id : Id) (name : String) (file : Option File)
  /-- Someone else creates or removes a container. -/
  | interfereContainer (id : Id) (present : Bool)

/-- What a producer does to the catalog happens unless a pass holds the lock of the object. -/
def produce (s : State) (id : Id) (result : Except Error Inventory) : State :=
  match decide ((s.pass.bind (·.phase.guarded)) = some id), result with
  | false, .ok inventory => { s with inventory }
  | _, _ => s

/-- The step of a pass that is in a certain phase. -/
def passStep (s : State) (p : Pass) : Event → State
  | .examine id continued outcome =>
    match p.phase with
    | .idle => examine s p id continued outcome
    | _ => s
  | .collect eligible referenced outcome =>
    match p.phase with
    | .examining id => collectObject s p id eligible referenced outcome
    | _ => s
  | .withdraw outcome =>
    match p.phase with
    | .eligible t => withdraw s p t outcome
    | _ => s
  | .markPendingDeletion outcome =>
    match p.phase with
    | .withdrawn t => markPendingDeletion s p t outcome
    | _ => s
  | .deleteMember env outcome =>
    match p.phase with
    | .deleting t => deleteMember s p t env outcome
    | _ => s
  | .removeBytes retained allocated outcome =>
    match p.phase with
    | .intended t name member v => removeBytes s p t name member v retained allocated outcome
    | _ => s
  | .credit outcome =>
    match p.phase with
    | .settled t name member result => creditMember s p t name member result outcome
    | _ => s
  | .removeContainer outcome =>
    match p.phase with
    | .emptied t => removeContainer s p t outcome
    | _ => s
  | .finishObject outcome =>
    match p.phase with
    | .vacated t => finishObject s p t outcome
    | _ => s
  | .stop =>
    match p.phase with
    | .idle | .deleting _ => s.resume p .ending
    | _ => s
  | .finishPass outcome =>
    match p.phase with
    | .idle | .ending => finishPass s p outcome
    | _ => s
  | .fault => s.skip p
  | _ => s

/-- What happens at an event. -/
def step (s : State) : Event → State
  | .create id =>
    match s.inventory.objects.get? id with
    | some _ => s
    | none =>
      { s with
        inventory := s.inventory.saveObject id ⟨.preparing, 0, .observed 0⟩
        disk := { s.disk with containers := insert id s.disk.containers } }
  | .beginMember id name => produce s id (beginMember s.inventory id name)
  | .record id name allocated producerOpen authenticated =>
    match (s.disk.files id).get? name with
    | none => s
    | some file => produce s id
        (recordOpenFileState s.inventory id name file allocated producerOpen authenticated)
  | .completeSeal id name memberSeal blocks =>
    produce s id (completeMemberSeal s.inventory id name memberSeal blocks)
  | .publish id => produce s id (publishObject s.inventory id)
  | .abandon id state => produce s id (abandonObject s.inventory id state)
  | .accept operation =>
    match s.inventory.operations.get? operation with
    | some _ => s
    | none => { s with inventory := { s.inventory with
        operations := s.inventory.operations.insert operation ⟨{}, none⟩ } }
  | .beginPass operation bounds => beginPass s operation bounds
  | .crash => s.abort
  | .interfere id name file =>
    { s with disk := { s.disk with
      files := Function.update s.disk.files id ((s.disk.files id).put name file) } }
  | .interfereContainer id present =>
    { s with disk := { s.disk with
      containers := if present then insert id s.disk.containers else s.disk.containers.erase id } }
  | event =>
    match s.pass with
    | none => s
    | some p => passStep s p event

/-- What holds if there is no pass, and after a step of the pass there is, holds after an event of
a pass. -/
lemma of_pass {P : State → Prop} {s : State} {e : Event} (hnone : P s)
    (hsome : ∀ p, s.pass = some p → P (passStep s p e)) :
    P (match s.pass with | none => s | some p => passStep s p e) := by
  cases hp : s.pass with
  | none => exact hnone
  | some p => exact hsome p hp

/-- The state after some events. -/
def run (events : List Event) : State := events.foldl step {}

end Collection

end Tgrep.Managed
