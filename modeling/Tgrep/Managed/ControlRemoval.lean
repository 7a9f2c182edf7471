import Tgrep.Managed.ProducerSeal

/-!
# Removing the control files

Guards and owners leave small control files, each inventoried with what its producer intended it
to hold. To remove one is to look at it, to store an intent, to unlink it and to credit its bytes,
in that order, and others may get in between: other removals, of this process and of other ones,
and anybody who may change the directory. A removal may fail or be stopped at every step.

## Main definitions

* `Inode`, `Disk`: the files that the name of the control file may stand for.
* `ControlFile`, `registerControl`: the inventory of the file, written by its producer.
* `recheck`, `authenticate`, `verifyTarget`, `afterUnlink`, `confirmUnlinked`: the looks at the
  file.
* `ControlFile.intend`, `creditRemoval`: the two transactions.
* `Phase`, `next`: the steps of `remove_owned_control`.
* `Event`, `step`, `Allowed`: everything that may happen.

## Implementation notes

The name is unlinked, as on systems where a file is removed by its name. What a handle is checked
against, the times of the file and the lease or the generation of its content, is one number, which
every change of the file increases; a lease that was broken and any other failure of the system is
a failure of the step. One look at the file is one step: it ends by comparing that number, so what
it has read of the file held at the moment at which it observed the name. Which call of a process
has access to control files is remembered for each process. Rows are removed from the inventory
later, with the objects and owners they belong to; this is left out, as are the operating limits of
the registration.
-/

namespace Tgrep.Managed.ControlRemoval

open Authentication (Digest MemberSeal)

/-! ## The files -/

/-- A file, whatever its name. -/
structure Inode where
  /-- Whether it is a regular file. -/
  regular : Bool
  /-- The number of its names. -/
  links : ℕ
  /-- Its owner and permissions. -/
  ownership : ℕ
  /-- What it holds. -/
  bytes : List UInt8
  /-- What every change of it increases. -/
  change : ℕ

/-- The files that there are, by their identities, and the one that the name stands for. -/
structure Disk where
  named : Option ℕ
  inode : ℕ → Inode

/-- A handle that was opened for verification. -/
structure NativeFile where
  /-- The identity of the file. -/
  file : ℕ
  /-- What its changes are compared with. -/
  change : ℕ

/-- The entry was modified. -/
def modified (detail : String) : Error := ⟨.staleIdentity, "control-file-modified", detail, none⟩

/-- The entry stands for another file. -/
def replaced (detail : String) : Error := ⟨.staleIdentity, "control-file-replaced", detail, none⟩

/-- An error of the file system. -/
def ioError (detail : String) : Error := ⟨.io, "filesystem-io", detail, none⟩

/-- There is no entry of this name. -/
def notFound : Error := ioError "No such file or directory"

/-- Refuse what is not a regular file with one name. -/
def Inode.plain (f : Inode) : Except Error Unit := do
  require (f.regular = true) (.corrupt "managed storage entry has an unexpected type")
  require (f.links = 1) (.corrupt "managed storage file has external hard links")

/-- The owner and permissions of a file. -/
def Inode.capture (f : Inode) : Except Error ℕ := do
  f.plain
  .ok f.ownership

/-- The owner and permissions of a file that has no name any more. -/
def Inode.captureUnlinked (f : Inode) : Except Error ℕ := do
  require (f.regular = true ∧ f.links = 0)
    (.corrupt "unlinked verification handle has an unexpected type or links")
  .ok f.ownership

/-- The identity of the file that the name stands for. -/
def Disk.observeFile (d : Disk) : Except Error ℕ :=
  match d.named with
  | none => .error notFound
  | some i => do
    require ((d.inode i).regular = true ∧ (d.inode i).links = 1) (.corrupt
      "managed storage observation requires a regular file without external hard links")
    .ok i

/-- Open the file for verification. There is no handle if there is no file. -/
def NativeFile.open (d : Disk) : Except Error (Option NativeFile) :=
  match d.named with
  | none => .ok none
  | some i => do
    (d.inode i).plain
    .ok (some ⟨i, (d.inode i).change⟩)

/-- Refuse a file that has changed since it was opened. -/
def NativeFile.check (d : Disk) (n : NativeFile) : Except Error Unit :=
  require ((d.inode n.file).change = n.change) ⟨.staleIdentity, "member-verification-invalidated",
    "native member changes invalidate all previously verified bytes", none⟩

/-- Take the name away. -/
def Disk.unlink (d : Disk) : Except Error Disk :=
  match d.named with
  | none => .error notFound
  | some i => .ok
    { named := none
      inode := Function.update d.inode i
        { d.inode i with links := (d.inode i).links - 1, change := (d.inode i).change + 1 } }

/-- What others may do to the files: every file that they change says so. -/
def Disk.Follows (d d' : Disk) : Prop :=
  ∀ i, d'.inode i = d.inode i ∨ (d.inode i).change < (d'.inode i).change

/-! ## The inventory -/

/-- The inventory of a control file. -/
structure ControlFile where
  /-- The identity of the file. -/
  identity : ℕ
  /-- Its owner and permissions. -/
  ownership : ℕ
  /-- What its producer intended to write. -/
  memberSeal : Option MemberSeal
  /-- The hash of the same. -/
  checksum : Digest
  /-- Its length. -/
  logicalBytes : ℕ
  /-- Its allocation. -/
  allocatedBytes : Measurement
  /-- The length that an intent to unlink was stored with. -/
  pendingLength : Option ℕ
  /-- The manifest that it was stored with. -/
  pendingManifest : Option Digest
  /-- Whether its removal was credited. -/
  removed : Bool
  /-- The bytes that were credited. -/
  creditedLogicalBytes : ℕ
  /-- The allocation that was credited. -/
  creditedAllocatedBytes : ℕ

/-- Two rows are about the same file of the same producer. -/
def ControlFile.SameEvidence (a b : ControlFile) : Prop :=
  a.identity = b.identity ∧ a.ownership = b.ownership ∧ a.memberSeal = b.memberSeal ∧
    a.checksum = b.checksum

instance (a b : ControlFile) : Decidable (a.SameEvidence b) :=
  inferInstanceAs (Decidable (a.identity = b.identity ∧ a.ownership = b.ownership ∧
    a.memberSeal = b.memberSeal ∧ a.checksum = b.checksum))

/-- What a removal has done. -/
structure Removal where
  removed : Bool := false
  logicalBytes : ℕ := 0
  recoveredLogicalBytes : ℕ := 0
  verificationBytes : ℕ := 0
  deriving DecidableEq

section Model

variable {η : Type} (blake3 : IncrementalHash UInt8 η Digest)

/-- The producer's own handle, its intended content and the entry of the directory agree, and are
inventoried. -/
def registerControl (d : Disk) (producer : ℕ) (intended : List UInt8) (allocated : Measurement) :
    Except Error ControlFile :=
  match d.named with
  | none => .error notFound
  | some i => do
    (d.inode i).plain
    let bytes := (d.inode i).bytes
    require (bytes.length ≤ 4096) (.corrupt "managed metadata exceeds its size limit")
    let memberSeal ← MemberSeal.bounded blake3 intended
    require (i = producer ∧ bytes = intended)
      (modified "control content or identity differs from its original producer")
    let ownership ← (d.inode producer).capture
    .ok
      { identity := i
        ownership := ownership
        memberSeal := some memberSeal
        checksum := blake3.hash intended
        logicalBytes := bytes.length
        allocatedBytes := allocated
        pendingLength := none
        pendingManifest := none
        removed := false
        creditedLogicalBytes := 0
        creditedAllocatedBytes := 0 }

/-! ## The looks at the file -/

/-- The seal that a deletion needs. -/
def ControlFile.deletionSeal (row : ControlFile) : Except Error MemberSeal :=
  match row.memberSeal with
  | none => .error ⟨.recoveryRequired, "control-content-unsealed",
      "control deletion requires complete producer-intended content proof", none⟩
  | some memberSeal => do
    memberSeal.validate blake3
    require (¬ (memberSeal.length.toNat ≠ row.logicalBytes ∨ memberSeal.length.toNat > 4096 ∨
        row.pendingLength.isSome ≠ row.pendingManifest.isSome ∨
        (row.pendingManifest.isSome ∧ row.pendingManifest ≠ some memberSeal.manifest)))
      (.corrupt "control deletion intent or original seal differs")
    .ok memberSeal

/-- The handle and the entry are still the recorded file, which has not changed. -/
def recheck (d : Disk) (row : ControlFile) (n : NativeFile) : Except Error Unit := do
  let changed :=
    modified "the control file identity, ownership or length changed and was preserved"
  n.check d
  require (n.file = row.identity ∧ (d.inode n.file).bytes.length = row.logicalBytes) changed
  let ownership ← (d.inode n.file).capture
  require (ownership = row.ownership) changed
  let observed ← d.observeFile
  require (observed = row.identity) changed
  n.check d

/-- The file holds what its producer intended. -/
def authenticate (f : Inode) (row : ControlFile) (memberSeal : MemberSeal) :
    Except Error Unit := do
  let changed := modified "the inventoried control file was externally modified; it was preserved"
  require (memberSeal.length.toNat ≤ f.bytes.length) (ioError "failed to fill whole buffer")
  let bytes := f.bytes.take memberSeal.length.toNat
  require (blake3.hash bytes = row.checksum) changed
  let found ← MemberSeal.bounded blake3 bytes
  require (found = memberSeal) changed

/-- What is checked just before the name is taken away. -/
def verifyTarget (d : Disk) (row : ControlFile) (n : NativeFile) : Except Error Unit := do
  let differ : Error := ⟨.staleIdentity, "deletion-target-replaced",
    "the pinned and named deletion identities no longer agree", none⟩
  require (n.file = row.identity) differ
  let observed ← d.observeFile
  require (observed = row.identity) differ

/-- The file that is open is the one that has lost its name. -/
def afterUnlink (d : Disk) (row : ControlFile) (n : NativeFile) : Except Error Unit := do
  let changed := modified "control identity or ownership changed during unlink"
  require (n.file = row.identity) changed
  let ownership ← (d.inode n.file).captureUnlinked
  require (ownership = row.ownership) changed

/-- There is no entry of the name any more. -/
def Disk.confirmUnlinked (d : Disk) : Except Error Unit :=
  match d.named with
  | none => .ok ()
  | some i =>
    if (d.inode i).regular = true ∧ (d.inode i).links = 1 then
      .error ⟨.staleIdentity, "deletion-name-still-present",
        "the deletion name remains or was recreated; reclaimed bytes are not confirmed", none⟩
    else
      .error ⟨.busy, "deletion-not-yet-observed", "physical removal is not confirmed", none⟩

/-! ## The transactions -/

/-- Store the intent to unlink the file. -/
def ControlFile.intend (row : ControlFile) (memberSeal : MemberSeal) : ControlFile :=
  if row.removed then row
  else
    { row with
      pendingLength := some row.logicalBytes
      pendingManifest := some memberSeal.manifest }

/-- Credit the removal, once. -/
def creditRemoval (row : ControlFile) (credit : Option (ℕ × ℕ)) (recovered : Bool)
    (verificationBytes : ℕ) : Except Error (ControlFile × Option (ℕ × ℕ) × Removal) :=
  if row.removed then .ok (row, credit, {})
  else
    match row.pendingLength with
    | none => .error (.corrupt "control unlink lost its intent")
    | some bytes =>
      let (logical, recoveredLogical) := credit.getD (0, 0)
      match Counter.checkedAdd logical bytes,
          Counter.checkedAdd recoveredLogical (if recovered then bytes else 0) with
      | none, _ => .error (.corrupt "control byte credit overflow")
      | some _, none => .error (.corrupt "control recovered-byte credit overflow")
      | some total, some recoveredTotal => .ok
        ({ row with
            removed := true
            pendingLength := none
            pendingManifest := none
            creditedLogicalBytes := bytes
            creditedAllocatedBytes :=
              match row.allocatedBytes with
              | .observed value => value
              | .unavailable _ => 0
            logicalBytes := 0
            allocatedBytes := .observed 0 },
          some (total, recoveredTotal),
          { removed := true
            logicalBytes := if recovered then 0 else bytes
            recoveredLogicalBytes := if recovered then bytes else 0
            verificationBytes := verificationBytes })

/-! ## The calls -/

/-- How far a call is that has the file open: what it has done last. -/
inductive Stage
  | opened
  | checked
  | authenticated
  | rechecked
  | intended
  | admitted
  | cleared
  | verified
  | unlinked
  | settled
  deriving DecidableEq

/-- What such a call works with. -/
structure Work where
  /-- The row that it has read. -/
  row : ControlFile
  /-- The seal of this row. -/
  memberSeal : MemberSeal
  /-- The versions of the policy and of the allocation. -/
  versions : ℕ × ℕ
  /-- The file that it has opened. -/
  native : NativeFile

/-- How far a call is. -/
inductive Phase
  /-- It has not begun. -/
  | started
  /-- It has read the row. -/
  | observed (row : ControlFile)
  /-- It has the access of its process. -/
  | entered (row : ControlFile)
  /-- It has read the row again. -/
  | current (row : ControlFile)
  /-- It has checked the seal. -/
  | validated (row : ControlFile) (memberSeal : MemberSeal) (versions : ℕ × ℕ)
  /-- It has the file open. -/
  | held (stage : Stage) (w : Work)
  /-- There was no file. -/
  | missing (row : ControlFile) (memberSeal : MemberSeal)
  /-- It is about to credit the removal. -/
  | crediting (recovered : Bool) (verificationBytes : ℕ)
  /-- It has returned. -/
  | finished (result : Except Error Removal)
  /-- It was stopped. -/
  | stopped

/-- What the calls share. -/
structure Shared where
  /-- The inventory of the file. -/
  row : ControlFile
  /-- The record of the credited bytes: all, and the recovered ones. -/
  credit : Option (ℕ × ℕ)
  /-- The files. -/
  disk : Disk
  /-- The versions of the policy and of the allocation. -/
  versions : ℕ × ℕ

/-- The versions are still those that the call has read. -/
def Shared.sameVersions (s : Shared) (versions : ℕ × ℕ) : Except Error Unit :=
  if s.versions = versions then .ok ()
  else .error (.staleVersion
    (if s.versions.1 ≠ versions.1 then s.versions.1 else s.versions.2))

/-- A call returns the error of a look, or goes on. -/
def proceed (look : Except Error Unit) (phase : Phase) : Phase :=
  match look with
  | .error e => .finished (.error e)
  | .ok _ => phase

/-- The next step of a call that has the file open. -/
def nextHeld (s : Shared) (stage : Stage) (w : Work) : Shared × Phase :=
  match stage with
  | .opened => (s, proceed (recheck s.disk w.row w.native) (.held .checked w))
  | .checked =>
    (s, proceed (authenticate blake3 (s.disk.inode w.native.file) w.row w.memberSeal)
      (.held .authenticated w))
  | .authenticated => (s, proceed (recheck s.disk w.row w.native) (.held .rechecked w))
  | .rechecked => ({ s with row := s.row.intend w.memberSeal }, .held .intended w)
  | .intended => (s, proceed (s.sameVersions w.versions) (.held .admitted w))
  | .admitted => (s, proceed (recheck s.disk w.row w.native) (.held .cleared w))
  | .cleared => (s, proceed (verifyTarget s.disk w.row w.native) (.held .verified w))
  | .verified =>
    match s.disk.unlink with
    | .error e => (s, .finished (.error e))
    | .ok disk => ({ s with disk := disk }, .held .unlinked w)
  | .unlinked => (s, proceed (afterUnlink s.disk w.row w.native) (.held .settled w))
  | .settled =>
    (s, proceed s.disk.confirmUnlinked (.crediting false w.memberSeal.length.toNat))

/-- The next step of a call, given whether the access of its process is free. -/
def next (s : Shared) (free : Bool) (phase : Phase) : Shared × Phase :=
  match phase with
  | .started => (s, if s.row.removed then .finished (.ok {}) else .observed s.row)
  | .observed row =>
    (s, if free then .entered row else .finished (.error (.busy "control-verifier-active")))
  | .entered row =>
    (s,
      if ¬ s.row.SameEvidence row then .finished (.error
        (replaced "control entry has different incarnation or producer evidence"))
      else if s.row.removed then .finished (.ok {})
      else .current s.row)
  | .current row =>
    match row.deletionSeal blake3 with
    | .error e => (s, .finished (.error e))
    | .ok memberSeal => (s, .validated row memberSeal s.versions)
  | .validated row memberSeal versions =>
    match NativeFile.open s.disk with
    | .error e => (s, .finished (.error e))
    | .ok none => (s, .missing row memberSeal)
    | .ok (some native) => (s, .held .opened ⟨row, memberSeal, versions, native⟩)
  | .held stage w => nextHeld blake3 s stage w
  | .missing row memberSeal =>
    (s,
      if ¬ s.row.SameEvidence row then .finished (.error
        (replaced "missing control entry has different incarnation or producer evidence"))
      else if s.row.removed then .finished (.ok {})
      else if s.row.pendingLength ≠ some s.row.logicalBytes ∨
          s.row.pendingManifest ≠ some memberSeal.manifest then .finished (.error notFound)
      else .crediting true 0)
  | .crediting recovered verificationBytes =>
    match creditRemoval s.row s.credit recovered verificationBytes with
    | .error e => (s, .finished (.error e))
    | .ok (row, credit, removal) =>
      ({ s with row := row, credit := credit }, .finished (.ok removal))
  | .finished result => (s, .finished result)
  | .stopped => (s, .stopped)

/-- The state of everything. -/
structure State where
  /-- What the calls share. -/
  shared : Shared
  /-- The call that has the access of a process. -/
  serial : ℕ → Option ℕ
  /-- The calls. -/
  calls : ℕ → Phase

/-- A call comes to a phase, which may take the access of its process or give it back. -/
def State.put (process : ℕ → ℕ) (s : State) (c : ℕ) (phase : Phase) : State :=
  { s with
    calls := Function.update s.calls c phase
    serial :=
      match phase with
      | .entered _ => Function.update s.serial (process c) (some c)
      | .finished _ => fun p => if s.serial p = some c then none else s.serial p
      | _ => s.serial }

/-- A call takes its next step. -/
def State.advance (process : ℕ → ℕ) (s : State) (c : ℕ) : State :=
  let (shared, phase) := next blake3 s.shared (s.serial (process c)).isNone (s.calls c)
  { s with shared := shared }.put process c phase

/-! ## What may happen -/

/-- Whether a call has ended. -/
def Phase.Ended : Phase → Prop
  | .finished _ | .stopped => True
  | _ => False

instance (phase : Phase) : Decidable phase.Ended :=
  match phase with
  | .finished _ | .stopped => isTrue trivial
  | .started | .observed _ | .entered _ | .current _ | .validated .. | .held .. | .missing ..
  | .crediting .. => isFalse id

/-- What may happen. -/
inductive Event
  /-- A call takes its next step. -/
  | next (c : ℕ)
  /-- A call fails in its next step, which may have been done. -/
  | fail (c : ℕ) (e : Error) (happened : Bool)
  /-- A process is stopped. -/
  | crash (p : ℕ)
  /-- Somebody else changes the files. -/
  | outside (d : Disk)
  /-- The policy or the allocation is replaced. -/
  | replan (versions : ℕ × ℕ)
  /-- Every process is stopped and the files are as the storage has them. -/
  | powerLoss (d : Disk)

/-- Calls are stopped. -/
def State.stop (s : State) (gone : ℕ → Prop) [DecidablePred gone] : State :=
  { s with
    calls := fun c =>
      if gone c ∧ ¬ (s.calls c).Ended then .stopped else s.calls c
    serial := fun p => (s.serial p).filter fun c => ¬ gone c }

/-- One step of everything. -/
def step (process : ℕ → ℕ) (s : State) : Event → Option State
  | .next c => if (s.calls c).Ended then none else some (s.advance blake3 process c)
  | .fail c e happened =>
    if (s.calls c).Ended then none
    else some ((if happened then s.advance blake3 process c else s).put process c
      (.finished (.error e)))
  | .crash p => some (s.stop fun c => process c = p)
  | .outside d => some { s with shared.disk := d }
  | .replan versions => some { s with shared.versions := versions }
  | .powerLoss d => some { s.stop (fun _ => True) with shared.disk := d }

/-- Others cannot change a file without a trace while somebody has it open. -/
def Allowed (s : State) : Event → Prop
  | .outside d => s.shared.disk.Follows d
  | _ => True

/-- The file was registered, and no call has begun. Since then, others may have changed it. -/
structure Registered (intended : List UInt8) (s : State) : Prop where
  row : ∃ d producer allocated, registerControl blake3 d producer intended allocated =
    .ok s.shared.row
  calls : ∀ c, s.calls c = .started
  serial : ∀ p, s.serial p = none

end Model

end Tgrep.Managed.ControlRemoval
