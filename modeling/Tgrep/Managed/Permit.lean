import Tgrep.Data.Ledger
import Tgrep.Managed.Memory

/-!
# Work permits and memory charges

The private memory of a piece of work. A permit counts the bytes of its live charges and of the
allocations retained under it; a charge can grow, shrink, be absorbed into another one, be turned
into a retained allocation, or be dropped.

## Main definitions

* `WorkPermit`, `MemoryCharge`: a permit with its counters, and a charge.
* `WorkPermit.tryMemory`, `MemoryCharge.grow`, `MemoryCharge.resize`, `MemoryCharge.absorb`,
  `MemoryCharge.retain`, `MemoryCharge.drop`, `WorkPermit.finish`, `RetainedMemory.drop`: the
  operations.
* `Process`: the permits, charges and allocations of one process, with its memory account.
* `Process.Call`, `Process.call`: the calls that the process makes.

## Implementation notes

An operation returns the state that it leaves behind together with its result, also when it
fails. The outcome of the parts of `check` that read the clock, the owner and the catalog is an
argument, and so is the outcome of a catalog transaction. The atomic subtractions of the source
wrap. A charge or an allocation is addressed by its position among the live ones; a call that
names none, or a permit that does not exist, cannot be made and changes nothing.
-/

namespace Tgrep.Managed

open FinMap

/-- What the parts of a permit check outside the permit say. -/
structure Control where
  /-- Whether the work was cancelled. -/
  cancelled : Bool := false
  /-- Whether the deadline has passed. -/
  expired : Bool := false
  /-- What the owner and the versions in the catalog say. -/
  catalog : Except Error Unit := .ok ()

/-- A permit, with its private-memory counters. -/
structure WorkPermit where
  /-- The most private bytes that it may hold. -/
  privateLimit : ℕ
  /-- Bytes of its live charges and of the allocations retained under it. -/
  privateBytes : ℕ := 0
  /-- Bytes of the allocations retained under it. -/
  retainedPrivateBytes : ℕ := 0
  /-- The most private bytes it has held. -/
  peakPrivateBytes : ℕ := 0
  /-- Whether the inventory of a producer is incomplete. -/
  inventoryFailed : Bool := false
  /-- Whether its reservation has been released. -/
  finished : Bool := false
  deriving DecidableEq

/-- Bytes charged to a permit. -/
structure MemoryCharge where
  /-- The permit. -/
  permit : Id
  /-- The bytes. -/
  bytes : ℕ
  deriving DecidableEq

namespace WorkPermit

/-- The part of a check that reads the permit and the clock. -/
def checkLocal (p : WorkPermit) (control : Control) : Except Error Unit :=
  if control.cancelled then
    .error ⟨.cancelled, "operation-cancelled", "work was cancelled", none⟩
  else if p.finished then .error (.busy "reservation-released")
  else if control.expired then
    .error ⟨.deadline, "operation-deadline", "operation time budget exhausted", none⟩
  else .ok ()

/-- Whether the work may go on. -/
def check (p : WorkPermit) (control : Control) : Except Error Unit := do
  p.checkLocal control
  control.catalog

/-- Add to the private bytes within the limit, and raise the peak. -/
def addPrivate (p : WorkPermit) (bytes : ℕ) : Option WorkPermit :=
  match Counter.checkedAdd p.privateBytes bytes with
  | none => none
  | some total =>
    if total ≤ p.privateLimit then
      some { p with privateBytes := total, peakPrivateBytes := max p.peakPrivateBytes total }
    else none

/-- Take from the private bytes. -/
def subPrivate (p : WorkPermit) (bytes : ℕ) : WorkPermit :=
  { p with privateBytes := Counter.wrappingSub p.privateBytes bytes }

/-- A new charge, without a check. -/
def tryMemory (p : WorkPermit) (id : Id) (bytes : ℕ) : Except Error MemoryCharge × WorkPermit :=
  match p.addPrivate bytes with
  | none => (.error (.pressure "reserved-private-memory-exhausted"), p)
  | some p => (.ok ⟨id, bytes⟩, p)

/-- A new charge. -/
def memory (p : WorkPermit) (id : Id) (bytes : ℕ) (control : Control) :
    Except Error MemoryCharge × WorkPermit :=
  match p.check control with
  | .error e => (.error e, p)
  | .ok () => p.tryMemory id bytes

/-- Count retained bytes. -/
def retainCharge (p : WorkPermit) (bytes : ℕ) : WorkPermit :=
  { p with retainedPrivateBytes := Counter.wrappingAdd p.retainedPrivateBytes bytes }

/-- Take the bytes of a dropped allocation from both counters. -/
def releaseRetainedCharge (p : WorkPermit) (bytes : ℕ) : WorkPermit :=
  { p with
    retainedPrivateBytes := Counter.wrappingSub p.retainedPrivateBytes bytes
    privateBytes := Counter.wrappingSub p.privateBytes bytes }

/-- Release the reservation of a permit. The transaction deletes the reservation from the
catalog; the coverage ends whether or not it succeeds. -/
def finish (p : WorkPermit) (id : Id) (account : MemoryState) (transaction : Except Error Unit) :
    Except Error Unit × WorkPermit × MemoryState :=
  if p.inventoryFailed then
    (.error ⟨.recoveryRequired, "write-inventory-incomplete",
      "reservation is retained until failed producer inventory is recovered", none⟩, p, account)
  else if p.privateBytes ≠ p.retainedPrivateBytes then
    (.error (.busy "reserved-producers-still-running"), p, account)
  else
    match transaction with
    | .error e => (.error e, p, account.finishReservation id)
    | .ok () => (.ok (), { p with finished := true }, account.finishReservation id)

end WorkPermit

namespace MemoryCharge

/-- Charge more bytes. -/
def grow (c : MemoryCharge) (p : WorkPermit) (bytes : ℕ) (control : Control) :
    Except Error Unit × MemoryCharge × WorkPermit :=
  match p.check control with
  | .error e => (.error e, c, p)
  | .ok () =>
    match Counter.checkedAdd c.bytes bytes with
    | none => (.error (.pressure "private-memory-account-overflow"), c, p)
    | some total =>
      match p.addPrivate bytes with
      | none => (.error (.pressure "reserved-private-memory-exhausted"), c, p)
      | some p => (.ok (), { c with bytes := total }, p)

/-- Charge exactly `bytes`. -/
def resize (c : MemoryCharge) (p : WorkPermit) (bytes : ℕ) (control : Control) :
    Except Error Unit × MemoryCharge × WorkPermit :=
  if bytes > c.bytes then c.grow p (bytes - c.bytes) control
  else (.ok (), { c with bytes := bytes }, p.subPrivate (c.bytes - bytes))

/-- Take over the bytes of another charge: what is left of both. -/
def absorb (c other : MemoryCharge) : Except Error Unit × MemoryCharge × MemoryCharge :=
  if c.permit ≠ other.permit then
    (.error (.invalid "cannot transfer another reservation's memory"), c, other)
  else
    match Counter.checkedAdd c.bytes other.bytes with
    | none => (.error (.pressure "private-memory-account-overflow"), c, other)
    | some total => (.ok (), { c with bytes := total }, { other with bytes := 0 })

/-- Turn a charge into a retained allocation: the allocation, and what is left of the charge. -/
def retain (c : MemoryCharge) (p : WorkPermit) (account : MemoryState) (mapped : ℕ)
    (control : Control) :
    Except Error RetainedMemory × MemoryCharge × WorkPermit × MemoryState :=
  match p.check control with
  | .error e => (.error e, c, p, account)
  | .ok () =>
    match account.add c.bytes mapped (some c.permit) with
    | .error e => (.error e, c, p, account)
    | .ok account =>
      (.ok ⟨c.bytes, mapped, some c.permit⟩, { c with bytes := 0 }, p.retainCharge c.bytes,
        account)

/-- Dropping a charge returns its bytes. -/
def drop (c : MemoryCharge) (p : WorkPermit) : WorkPermit := p.subPrivate c.bytes

end MemoryCharge

/-! ## What an operation can do

One inversion lemma for each operation: every outcome, with the state it leaves behind. -/

namespace WorkPermit

variable {p : WorkPermit} {id : Id} {bytes : ℕ} {control : Control}

/-- A new charge without a check: refused, or the bytes are added. -/
lemma tryMemory_cases (p : WorkPermit) (id : Id) (bytes : ℕ) :
    (∃ e, p.tryMemory id bytes = (.error e, p)) ∨
      ∃ q, p.addPrivate bytes = some q ∧ p.tryMemory id bytes = (.ok ⟨id, bytes⟩, q) := by
  unfold tryMemory
  cases h : p.addPrivate bytes with
  | none => exact .inl ⟨_, rfl⟩
  | some q => exact .inr ⟨q, rfl, rfl⟩

/-- A new charge: refused, or the bytes are added. -/
lemma memory_cases (p : WorkPermit) (id : Id) (bytes : ℕ) (control : Control) :
    (∃ e, p.memory id bytes control = (.error e, p)) ∨
      ∃ q, p.addPrivate bytes = some q ∧ p.memory id bytes control = (.ok ⟨id, bytes⟩, q) := by
  unfold memory
  cases p.check control with
  | error e => exact .inl ⟨e, rfl⟩
  | ok u => exact tryMemory_cases p id bytes

/-- Releasing a reservation: refused, tried in vain, or done. In the last two cases the counters
agreed and the coverage has ended. -/
lemma finish_cases (p : WorkPermit) (id : Id) (account : MemoryState)
    (transaction : Except Error Unit) :
    (∃ e, p.finish id account transaction = (.error e, p, account)) ∨
      p.privateBytes = p.retainedPrivateBytes ∧
        ((∃ e, p.finish id account transaction = (.error e, p, account.finishReservation id)) ∨
          p.finish id account transaction =
            (.ok (), { p with finished := true }, account.finishReservation id)) := by
  unfold finish
  split_ifs with hinventory hbusy
  · exact .inl ⟨_, rfl⟩
  · exact .inl ⟨_, rfl⟩
  · refine .inr ⟨not_not.mp hbusy, ?_⟩
    cases transaction with
    | error e => exact .inl ⟨e, rfl⟩
    | ok u => exact .inr rfl

end WorkPermit

namespace MemoryCharge

variable (c : MemoryCharge) (p : WorkPermit)

/-- Growing a charge: refused, or the bytes are added to the charge and its permit. -/
lemma grow_cases (bytes : ℕ) (control : Control) :
    (∃ e, c.grow p bytes control = (.error e, c, p)) ∨
      ∃ q, p.addPrivate bytes = some q ∧
        c.grow p bytes control = (.ok (), { c with bytes := c.bytes + bytes }, q) := by
  unfold grow
  cases p.check control with
  | error e => exact .inl ⟨e, rfl⟩
  | ok u =>
    cases htotal : Counter.checkedAdd c.bytes bytes with
    | none => exact .inl ⟨_, rfl⟩
    | some total =>
      obtain ⟨rfl, -⟩ := Counter.checkedAdd_eq_some.mp htotal
      cases hadd : p.addPrivate bytes with
      | none => exact .inl ⟨_, rfl⟩
      | some q => exact .inr ⟨q, rfl, rfl⟩

/-- Resizing a charge: refused, grown, or shrunk. -/
lemma resize_cases (bytes : ℕ) (control : Control) :
    (∃ e, c.resize p bytes control = (.error e, c, p)) ∨
      (c.bytes < bytes ∧ ∃ q, p.addPrivate (bytes - c.bytes) = some q ∧
        c.resize p bytes control = (.ok (), { c with bytes := bytes }, q)) ∨
      bytes ≤ c.bytes ∧ c.resize p bytes control =
        (.ok (), { c with bytes := bytes }, p.subPrivate (c.bytes - bytes)) := by
  unfold resize
  split_ifs with h
  · rcases grow_cases c p (bytes - c.bytes) control with ⟨e, he⟩ | ⟨q, hadd, hq⟩
    · exact .inl ⟨e, he⟩
    · have hsum : c.bytes + (bytes - c.bytes) = bytes := by omega
      rw [hsum] at hq
      exact .inr (.inl ⟨h, q, hadd, hq⟩)
  · exact .inr (.inr ⟨by omega, rfl⟩)

/-- Absorbing a charge: refused, or its bytes are taken over within the same permit. -/
lemma absorb_cases (other : MemoryCharge) :
    (∃ e, c.absorb other = (.error e, c, other)) ∨
      c.permit = other.permit ∧ c.absorb other =
        (.ok (), { c with bytes := c.bytes + other.bytes }, { other with bytes := 0 }) := by
  unfold absorb
  split_ifs with h
  · exact .inl ⟨_, rfl⟩
  · cases htotal : Counter.checkedAdd c.bytes other.bytes with
    | none => exact .inl ⟨_, rfl⟩
    | some total =>
      obtain ⟨rfl, -⟩ := Counter.checkedAdd_eq_some.mp htotal
      exact .inr ⟨not_not.mp h, rfl⟩

/-- Retaining a charge: refused, or the account and the permit count it. -/
lemma retain_cases (account : MemoryState) (mapped : ℕ) (control : Control) :
    (∃ e, c.retain p account mapped control = (.error e, c, p, account)) ∨
      ∃ account', account.add c.bytes mapped (some c.permit) = .ok account' ∧
        c.retain p account mapped control =
          (.ok ⟨c.bytes, mapped, some c.permit⟩, { c with bytes := 0 }, p.retainCharge c.bytes,
            account') := by
  unfold retain
  cases p.check control with
  | error e => exact .inl ⟨e, rfl⟩
  | ok u =>
    cases hadd : account.add c.bytes mapped (some c.permit) with
    | error e => exact .inl ⟨e, rfl⟩
    | ok account' => exact .inr ⟨account', rfl, rfl⟩

end MemoryCharge

/-- One process: its memory account, its permits, and the charges and allocations that live. -/
structure Process where
  /-- The account of the namespace. -/
  account : MemoryState := {}
  /-- The permits, by reservation. -/
  permits : FinMap Id WorkPermit := .empty
  /-- The live charges. -/
  charges : List MemoryCharge := []
  /-- The live retained allocations. -/
  retained : List RetainedMemory := []
  /-- The next fresh identity. -/
  nextId : Id := 0

namespace Process

/-- The calls that a process makes. -/
inductive Call
  /-- A reservation is admitted. -/
  | reserve (privateLimit : ℕ)
  /-- `WorkPermit::memory`. -/
  | memory (permit : Id) (bytes : ℕ) (control : Control)
  /-- `WorkPermit::try_memory`. -/
  | tryMemory (permit : Id) (bytes : ℕ)
  /-- `MemoryCharge::grow`. -/
  | grow (charge : ℕ) (bytes : ℕ) (control : Control)
  /-- `MemoryCharge::resize`. -/
  | resize (charge : ℕ) (bytes : ℕ) (control : Control)
  /-- `MemoryCharge::absorb`, which consumes the other charge. -/
  | absorb (charge other : ℕ)
  /-- `MemoryCharge::retain`, which consumes the charge. -/
  | retain (charge : ℕ) (mapped : ℕ) (control : Control)
  /-- A charge is dropped. -/
  | dropCharge (charge : ℕ)
  /-- `MemoryAccount::retain_unreserved`. -/
  | retainUnreserved (privateBytes mapped : ℕ) (active : List Id) (reserved limit : ℕ)
  /-- A retained allocation is dropped. -/
  | dropRetained (allocation : ℕ)
  /-- A producer of the permit leaves its inventory incomplete. -/
  | failInventory (permit : Id)
  /-- `WorkPermit::finish`. -/
  | finish (permit : Id) (transaction : Except Error Unit)
  /-- The last handle to a permit is dropped. -/
  | dropPermit (permit : Id) (transaction : Except Error Unit)
  /-- Maintenance has deleted an ended reservation from the catalog. -/
  | recover (reservation : Id)
  /-- `MemoryState::usage`. -/
  | usage (active : List Id)

/-- Change a permit, if it still lives. -/
def mapPermit (s : Process) (id : Id) (f : WorkPermit → WorkPermit) : Process :=
  { s with permits := s.permits.alter id (Option.map f) }

/-- Changing a permit that is gone changes nothing. -/
lemma mapPermit_of_none {s : Process} {id : Id} (h : s.permits.get? id = none)
    (f : WorkPermit → WorkPermit) : s.mapPermit id f = s := by
  have hsame : s.permits.alter id (Option.map f) = s.permits := by
    apply ext_get?
    intro k
    rw [get?_alter, h]
    split_ifs with hk
    · rw [hk, h]
      rfl
    · rfl
  rw [mapPermit, hsame]

/-- Changing a live permit. -/
lemma mapPermit_of_some {s : Process} {id : Id} {p : WorkPermit} (h : s.permits.get? id = some p)
    (f : WorkPermit → WorkPermit) :
    s.mapPermit id f = { s with permits := s.permits.insert id (f p) } := by
  have hinsert : s.permits.alter id (Option.map f) = s.permits.insert id (f p) := by
    apply ext_get?
    intro k
    rw [get?_alter, get?_insert, h]
    rfl
  rw [mapPermit, hinsert]

/-- Write back what an operation left of a charge and its permit. -/
def putCharge (s : Process) (i : ℕ) (c : MemoryCharge) (p : WorkPermit) : Process :=
  { s with charges := s.charges.set i c, permits := s.permits.insert c.permit p }

/-- A charge reaches the end of its life: it returns its bytes to its permit. -/
def dropCharge (s : Process) (i : ℕ) : Process :=
  match s.charges[i]? with
  | none => s
  | some c =>
    match s.permits.get? c.permit with
    | none => s
    | some p =>
      { s with charges := s.charges.eraseIdx i, permits := s.permits.insert c.permit (c.drop p) }

/-- Write back what taking a new charge left of a permit, and enter the charge. -/
def takeCharge (s : Process) (id : Id) :
    Except Error MemoryCharge × WorkPermit → Except Error Unit × Process
  | (.error e, p) => (.error e, { s with permits := s.permits.insert id p })
  | (.ok c, p) =>
    (.ok (), { s with permits := s.permits.insert id p, charges := s.charges ++ [c] })

/-- `retain` on a live charge. What is left of the charge is dropped with it. -/
def retainCharge (s : Process) (i : ℕ) (c : MemoryCharge) (p : WorkPermit) (mapped : ℕ)
    (control : Control) : Except Error Unit × Process :=
  match c.retain p s.account mapped control with
  | (.error e, c, p, account) => (.error e, ({ s with account }.putCharge i c p).dropCharge i)
  | (.ok r, c, p, account) =>
    (.ok (), ({ s with account, retained := s.retained ++ [r] }.putCharge i c p).dropCharge i)

/-- Take the bytes of a dropped allocation from its permit, if that still lives. -/
def releasePermit (s : Process) (r : RetainedMemory) : Process :=
  match r.reservation with
  | none => s
  | some id => s.mapPermit id fun p => p.releaseRetainedCharge r.privateBytes

/-- Dropping a retained allocation: it leaves the account and its permit. -/
def dropRetained (s : Process) (i : ℕ) : Process :=
  match s.retained[i]? with
  | none => s
  | some r =>
    { s with account := s.account.release r, retained := s.retained.eraseIdx i }.releasePermit r

/-- A call on a live permit. -/
def onPermit (s : Process) (id : Id) (f : WorkPermit → Except Error Unit × Process) :
    Except Error Unit × Process :=
  match s.permits.get? id with
  | none => (.ok (), s)
  | some p => f p

/-- A call on a live charge and its permit. -/
def onCharge (s : Process) (i : ℕ)
    (f : MemoryCharge → WorkPermit → Except Error Unit × Process) : Except Error Unit × Process :=
  match s.charges[i]? with
  | none => (.ok (), s)
  | some c => s.onPermit c.permit (f c)

/-- `finish` on a permit. -/
def finish (s : Process) (id : Id) (transaction : Except Error Unit) :
    Except Error Unit × Process :=
  s.onPermit id fun p =>
    let (result, p, account) := p.finish id s.account transaction
    (result, { s with account, permits := s.permits.insert id p })

/-- The last handle to a permit is dropped: no charge refers to it any more. The permit is
finished, unless it already is, and is gone. -/
def dropPermit (s : Process) (id : Id) (transaction : Except Error Unit) : Process :=
  match s.permits.get? id with
  | none => s
  | some p =>
    if ∃ c ∈ s.charges, c.permit = id then s
    else
      let s := if p.finished then s else (s.finish id transaction).2
      { s with permits := s.permits.erase id }

/-- A new reservation has a permit of its own. -/
def reserve (s : Process) (privateLimit : ℕ) : Process :=
  { s with
    permits := s.permits.insert s.nextId { privateLimit := privateLimit }
    nextId := s.nextId + 1 }

/-- `grow` on a live charge. -/
def grow (s : Process) (i : ℕ) (bytes : ℕ) (control : Control) : Except Error Unit × Process :=
  s.onCharge i fun c p =>
    let (result, c, p) := c.grow p bytes control
    (result, s.putCharge i c p)

/-- `resize` on a live charge. -/
def resize (s : Process) (i : ℕ) (bytes : ℕ) (control : Control) : Except Error Unit × Process :=
  s.onCharge i fun c p =>
    let (result, c, p) := c.resize p bytes control
    (result, s.putCharge i c p)

/-- `absorb` on two live charges. What is left of the other one is dropped. -/
def absorb (s : Process) (i j : ℕ) : Except Error Unit × Process :=
  match s.charges[i]?, s.charges[j]? with
  | some c, some other =>
    if i = j then (.ok (), s)
    else
      let (result, c, other) := c.absorb other
      (result, { s with charges := (s.charges.set i c).set j other }.dropCharge j)
  | _, _ => (.ok (), s)

/-- `retain_unreserved` on the account. -/
def retainUnreserved (s : Process) (privateBytes mapped : ℕ) (active : List Id)
    (reserved limit : ℕ) : Except Error Unit × Process :=
  match s.account.retainUnreserved privateBytes mapped active reserved limit with
  | (.error e, account) => (.error e, { s with account })
  | (.ok r, account) => (.ok (), { s with account, retained := s.retained ++ [r] })

/-- The effect of a call and its result. -/
def call (s : Process) : Call → Except Error Unit × Process
  | .reserve privateLimit => (.ok (), s.reserve privateLimit)
  | .memory id bytes control =>
    s.onPermit id fun p => s.takeCharge id (p.memory id bytes control)
  | .tryMemory id bytes => s.onPermit id fun p => s.takeCharge id (p.tryMemory id bytes)
  | .grow i bytes control => s.grow i bytes control
  | .resize i bytes control => s.resize i bytes control
  | .absorb i j => s.absorb i j
  | .retain i mapped control => s.onCharge i fun c p => s.retainCharge i c p mapped control
  | .dropCharge i => (.ok (), s.dropCharge i)
  | .retainUnreserved privateBytes mapped active reserved limit =>
    s.retainUnreserved privateBytes mapped active reserved limit
  | .dropRetained i => (.ok (), s.dropRetained i)
  | .failInventory id =>
    (.ok (), s.mapPermit id fun p => { p with inventoryFailed := true })
  | .finish id transaction => s.finish id transaction
  | .dropPermit id transaction => (.ok (), s.dropPermit id transaction)
  | .recover id => (.ok (), { s with account := s.account.finishReservation id })
  | .usage active => ((s.account.usageOf active).1.map fun _ => (),
      { s with account := (s.account.usageOf active).2 })

/-- The state that a call leaves behind. -/
def step (s : Process) (c : Call) : Process := (s.call c).2

/-- The state that a run of calls reaches from the start of the process. -/
def run (calls : List Call) : Process := calls.foldl step {}

end Process

end Tgrep.Managed
