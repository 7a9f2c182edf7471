import Tgrep.Data.Counter
import Tgrep.Data.FinMap
import Tgrep.Managed.Error

/-!
# The memory account of a namespace

The process-wide account of the memory that outlives the work that allocated it. A retained
allocation is counted in the totals for as long as it lives. As long as the reservation it was
made under is active, the bytes are already part of what that reservation holds, and the account
records them as covered.

## Main definitions

* `MemoryUsage`, `MemoryState`: the totals, and the covered bytes of each reservation.
* `MemoryState.add`: count an allocation.
* `MemoryState.snapshot`, `MemoryState.usageOf`: what is retained, and how much of it no
  reservation covers.
* `MemoryState.unreservedCapacity`: what is left for allocations outside a reservation.
* `MemoryState.finishReservation`: end the coverage of a reservation.
* `MemoryState.release`: what dropping an allocation does to the account.

## Implementation notes

The active reservations are those the catalog lists when it is read; they are an argument here.
The resident size and the text of the measurement scope are never read and are left out. The
plain `-=` of the source wraps, as it does in a release build.
-/

namespace Tgrep.Managed

/-- The totals of an account. -/
structure MemoryUsage where
  /-- Private bytes of the live allocations. -/
  retainedPrivateEstimateBytes : ℕ := 0
  /-- The part of them that no reservation covers. -/
  unreservedRetainedPrivateEstimateBytes : ℕ := 0
  /-- The most that the private bytes have been. -/
  peakRetainedPrivateEstimateBytes : ℕ := 0
  /-- Mapped bytes of the live allocations. -/
  mappedBytes : ℕ := 0
  /-- The most that the mapped bytes have been. -/
  peakMappedBytes : ℕ := 0
  /-- The number of live allocations. -/
  retainedAllocations : ℕ := 0
  deriving DecidableEq

/-- The account: its totals, and the bytes that each reservation covers. -/
structure MemoryState where
  /-- The totals. -/
  usage : MemoryUsage := {}
  /-- Reservation → retained bytes that it covers. -/
  covered : FinMap Id ℕ := .empty

/-- An allocation that is counted until it is dropped. -/
structure RetainedMemory where
  /-- Its private bytes. -/
  privateBytes : ℕ
  /-- Its mapped bytes. -/
  mapped : ℕ
  /-- The reservation it was made under, whose permit it also refers to. -/
  reservation : Option Id
  deriving DecidableEq

namespace MemoryState

/-- Add to the covered bytes of a reservation. -/
def cover (s : MemoryState) (privateBytes : ℕ) : Option Id → Except Error MemoryState
  | none => .ok s
  | some id =>
    match Counter.checkedAdd ((s.covered.get? id).getD 0) privateBytes with
    | none => .error (.pressure "retained-reservation-account-overflow")
    | some total => .ok { s with covered := s.covered.insert id total }

/-- Set the totals, and raise their peaks. -/
def setTotals (s : MemoryState) (privateTotal mappedTotal allocations : ℕ) : MemoryState :=
  { s with usage :=
    { s.usage with
      retainedPrivateEstimateBytes := privateTotal
      mappedBytes := mappedTotal
      retainedAllocations := allocations
      peakRetainedPrivateEstimateBytes := max s.usage.peakRetainedPrivateEstimateBytes privateTotal
      peakMappedBytes := max s.usage.peakMappedBytes mappedTotal } }

/-- Count an allocation. -/
def add (s : MemoryState) (privateBytes mapped : ℕ) (reservation : Option Id) :
    Except Error MemoryState :=
  match Counter.checkedAdd s.usage.retainedPrivateEstimateBytes privateBytes with
  | none => .error (.pressure "retained-private-account-overflow")
  | some privateTotal =>
    match Counter.checkedAdd s.usage.mappedBytes mapped with
    | none => .error (.pressure "mapped-account-overflow")
    | some mappedTotal =>
      match Counter.checkedAdd s.usage.retainedAllocations 1 with
      | none => .error (.pressure "retained-allocation-count-overflow")
      | some allocations => do
        let s ← s.cover privateBytes reservation
        return s.setTotals privateTotal mappedTotal allocations

/-- The totals, with what no reservation covers. -/
def snapshot (s : MemoryState) : Except Error MemoryUsage :=
  match Counter.checkedSum 0 (s.covered.toList.map Prod.snd) with
  | none => .error (.corrupt "retained memory accounting overflow")
  | some covered =>
    match Counter.checkedSub s.usage.retainedPrivateEstimateBytes covered with
    | none => .error (.corrupt "retained memory coverage exceeds usage")
    | some unreserved =>
      .ok { s.usage with unreservedRetainedPrivateEstimateBytes := unreserved }

/-- End the coverage of every reservation that is not active. -/
def retainActive (s : MemoryState) (active : List Id) : MemoryState :=
  { s with covered := s.covered.filter fun id _ => decide (id ∈ active) }

/-- A snapshot after the coverage of inactive reservations has ended. The catalog is asked for at
most 65 active reservations, and may not list more than 64. -/
def usageOf (s : MemoryState) (active : List Id) : Except Error MemoryUsage × MemoryState :=
  if (active.take 65).length > 64 then
    (.error (.corrupt "reservation count exceeds the supported work-slot bound"), s)
  else
    ((s.retainActive (active.take 65)).snapshot, s.retainActive (active.take 65))

/-- What a limit leaves for allocations outside a reservation, when the active reservations hold
`reserved` private bytes. -/
def unreservedCapacity (s : MemoryState) (active : List Id) (reserved limit : ℕ) :
    Except Error ℕ × MemoryState :=
  match s.usageOf active with
  | (.error e, s) => (.error e, s)
  | (.ok usage, s) =>
    match Counter.checkedAdd reserved usage.unreservedRetainedPrivateEstimateBytes with
    | none => (.error (.pressure "retained-private-allocation"), s)
    | some used =>
      match Counter.checkedSub limit used with
      | none => (.error (.pressure "retained-private-allocation"), s)
      | some capacity => (.ok capacity, s)

/-- End the coverage of a reservation. -/
def finishReservation (s : MemoryState) (id : Id) : MemoryState :=
  { s with covered := s.covered.erase id }

/-- Count an allocation outside a reservation, within the capacity that is left. -/
def retainUnreserved (s : MemoryState) (privateBytes mapped : ℕ) (active : List Id)
    (reserved limit : ℕ) : Except Error RetainedMemory × MemoryState :=
  match s.unreservedCapacity active reserved limit with
  | (.error e, s) => (.error e, s)
  | (.ok capacity, s) =>
    if privateBytes > capacity then (.error (.pressure "retained-private-allocation"), s)
    else
      match s.add privateBytes mapped none with
      | .error e => (.error e, s)
      | .ok s => (.ok ⟨privateBytes, mapped, none⟩, s)

/-- What is left of a covered amount when bytes are taken from it; nothing is kept for zero. -/
def uncover (privateBytes : ℕ) : Option ℕ → Option ℕ
  | none => none
  | some covered =>
    let left := Counter.wrappingSub covered privateBytes
    if left = 0 then none else some left

/-- Dropping an allocation takes it out of the totals, and out of the covered bytes of its
reservation if the account still has an entry for that. -/
def release (s : MemoryState) (r : RetainedMemory) : MemoryState :=
  { usage :=
      { s.usage with
        retainedPrivateEstimateBytes :=
          Counter.wrappingSub s.usage.retainedPrivateEstimateBytes r.privateBytes
        mappedBytes := Counter.wrappingSub s.usage.mappedBytes r.mapped
        retainedAllocations := Counter.wrappingSub s.usage.retainedAllocations 1 }
    covered :=
      match r.reservation with
      | none => s.covered
      | some id => s.covered.alter id (uncover r.privateBytes) }

/-! ## What an operation can do -/

/-- The capacity is computed from the account that a snapshot leaves behind. -/
lemma unreservedCapacity_snd (s : MemoryState) (active : List Id) (reserved limit : ℕ) :
    (s.unreservedCapacity active reserved limit).2 = (s.usageOf active).2 := by
  unfold unreservedCapacity
  rcases s.usageOf active with ⟨e | usage, s'⟩
  · rfl
  · simp only
    cases Counter.checkedAdd reserved usage.unreservedRetainedPrivateEstimateBytes with
    | none => rfl
    | some used =>
      simp only
      cases Counter.checkedSub limit used <;> rfl

/-- An allocation outside a reservation: refused, or counted. -/
lemma retainUnreserved_cases (s : MemoryState) (privateBytes mapped : ℕ) (active : List Id)
    (reserved limit : ℕ) :
    (∃ e, s.retainUnreserved privateBytes mapped active reserved limit =
        (.error e, (s.usageOf active).2)) ∨
      ∃ s', (s.usageOf active).2.add privateBytes mapped none = .ok s' ∧
        s.retainUnreserved privateBytes mapped active reserved limit =
          (.ok ⟨privateBytes, mapped, none⟩, s') := by
  have hsnd := s.unreservedCapacity_snd active reserved limit
  unfold retainUnreserved
  rcases hcapacity : s.unreservedCapacity active reserved limit with ⟨e | capacity, t⟩
  · rw [hcapacity] at hsnd
    exact .inl ⟨e, by rw [← hsnd]⟩
  · rw [hcapacity] at hsnd
    rw [← hsnd]
    simp only
    split_ifs
    · exact .inl ⟨_, rfl⟩
    · cases t.add privateBytes mapped none with
      | error e => exact .inl ⟨e, rfl⟩
      | ok s' => exact .inr ⟨s', rfl, rfl⟩

end MemoryState

end Tgrep.Managed
