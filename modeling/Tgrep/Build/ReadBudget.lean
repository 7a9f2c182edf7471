import Tgrep.Build.Batches
import Tgrep.Data.Ledger
import Tgrep.Data.Run

/-!
# The budget of owned reads

The workers of a batch share a budget for the file bytes that they own. A worker claims the size of
its file before it reads, and waits while the budget cannot cover the claim. A claim of more than
the whole budget takes all of it. A file that turns out to be larger than its claim is read again
under a larger claim.

## Main definitions

* `ReadJob`, `readOwnedForIndex`, `ReadJob.read`: a file to read, and one read of it.
* `Worker.Pc`, `Worker.Pc.effect`: the program of a worker, `read_for_index`.
* `ReadBudget`, `ReadBudget.acquire`, `ReadBudget.release`: the budget with its workers.
* `ReadBudget.Event`, `ReadBudget.step`: every step that some worker can take.

## Main results

* `ReadBudget.Invariant.step`: what a step keeps: the budget balances, every claim is charged as
  it should be, and a worker that waits holds nothing.
* `ReadBudget.never_overcommits`: what holds in every state that the workers reach.
* `ReadBudget.empty_beside_oversized`: the claim of an empty file charges nothing, so that it is
  admitted beside any other.

## Implementation notes

What a file has when it is mapped or read is chosen by the step: its length, or an error. The drop
of a permit on an error path of a read is part of the step that finds the error. The bytes that are
read, and what is extracted from them, are left out.
-/

namespace Tgrep

open Option List Ledger

/-! ## Reading a file -/

/-- The kinds of error that the readers tell apart. -/
inductive ReadErrorKind
  /-- The file grew beyond its claim. -/
  | wouldBlock
  /-- The file exceeds the configured limit. -/
  | invalidData
  | other
  deriving DecidableEq

/-- The largest 64-bit word. -/
def u64Max : UInt64 := 0xffffffffffffffff

/-- A file to read: its size in the walk, and the limit that the caller configured. -/
structure ReadJob where
  size : UInt64
  configuredLimit : Option UInt64
  deriving DecidableEq

namespace ReadJob

/-- The limit on the bytes that may be owned. -/
def ownedLimit (job : ReadJob) : UInt64 := job.configuredLimit.getD u64Max

/-- The claim of the first read, and that of the retry. -/
def claim (job : ReadJob) (retry : Bool) : UInt64 :=
  if retry then job.configuredLimit.getD u64Max else job.size

end ReadJob

/-- Read at most `size` bytes, and one more to see whether the file has grown. The outcome is the
number of bytes that are owned. -/
def readOwnedForIndex (size ownedLimit : UInt64) (file : Except ReadErrorKind ℕ) :
    Except ReadErrorKind ℕ :=
  if ownedLimit < size then .error .invalidData
  else
    match file with
    | .error kind => .error kind
    | .ok len => if size.toNat < len then .error .wouldBlock else .ok len

/-- Read the whole file. -/
def readOwnedUnbounded (file : Except ReadErrorKind ℕ) : Except ReadErrorKind ℕ := file

/-- The read under the first claim or under that of the retry. -/
def ReadJob.read (job : ReadJob) (retry : Bool) (file : Except ReadErrorKind ℕ) :
    Except ReadErrorKind ℕ :=
  match retry, job.configuredLimit with
  | false, _ => readOwnedForIndex job.size job.ownedLimit file
  | true, some limit => readOwnedForIndex limit limit file
  | true, none => readOwnedUnbounded file

/-- The bytes of a file. -/
inductive FileBytes
  | read (len : ℕ)
  | mapped (len : ℕ)
  deriving DecidableEq

/-! ## A worker -/

namespace Worker

/-- Where a worker is in `read_for_index`, or in the extraction that follows. -/
inductive Pc
  | idle
  /-- The file is large enough to be mapped. -/
  | mapping (job : ReadJob)
  /-- In `acquire`, about to look at the budget. -/
  | acquiring (job : ReadJob) (retry : Bool)
  /-- In `acquire`, waiting to be notified. -/
  | asleep (job : ReadJob) (retry : Bool)
  | reading (job : ReadJob) (retry : Bool)
  /-- The first read found that the file has grown. -/
  | grown (job : ReadJob)
  | extracting (bytes : FileBytes)
  | failed (kind : ReadErrorKind)
  deriving DecidableEq

/-- What a worker does next, with what it then finds. -/
inductive Action
  | call (job : ReadJob)
  | map (file : Except ReadErrorKind ℕ)
  | lock
  /-- A wakeup, which may be spurious. -/
  | wake
  | read (file : Except ReadErrorKind ℕ)
  | retry
  | finish
  deriving DecidableEq

/-- What an action does. -/
inductive Effect
  | goto (pc : Pc)
  /-- Claim the bytes for the read that follows. -/
  | claim (job : ReadJob) (retry : Bool)
  /-- Drop the permit, if there is one. -/
  | drop (pc : Pc)
  deriving DecidableEq

/-- The checks before a file is mapped or claimed. -/
def begin (job : ReadJob) : Pc :=
  if job.ownedLimit < job.size then .failed .invalidData
  else if MMAP_MIN_BYTES ≤ job.size.toNat then .mapping job
  else .acquiring job false

/-- A map is used unless it exceeds the limit. -/
def mapped (job : ReadJob) : Except ReadErrorKind ℕ → Pc
  | .ok len => if len ≤ job.ownedLimit.toNat then .extracting (.mapped len) else .acquiring job false
  | .error _ => .acquiring job false

/-- Where an error of a read leads. -/
def readFailed (job : ReadJob) (retry : Bool) (kind : ReadErrorKind) : Pc :=
  match retry, kind, job.configuredLimit with
  | false, .wouldBlock, _ => .grown job
  | true, .wouldBlock, some _ => .failed .invalidData
  | _, kind, _ => .failed kind

/-- The permit belongs to the bytes that are read, and is dropped if there are none. -/
def readDone (job : ReadJob) (retry : Bool) : Except ReadErrorKind ℕ → Effect
  | .ok len => .goto (.extracting (.read len))
  | .error kind => .drop (readFailed job retry kind)

/-- The program of a worker: what an action does where the worker is. -/
def Pc.effect : Pc → Action → Option Effect
  | .idle, .call job => some (.goto (begin job))
  | .mapping job, .map file => some (.goto (mapped job file))
  | .acquiring job retry, .lock => some (.claim job retry)
  | .asleep job retry, .wake => some (.goto (.acquiring job retry))
  | .reading job retry, .read file => some (readDone job retry (job.read retry file))
  | .grown job, .retry => some (.goto (.acquiring job true))
  | .extracting _, .finish => some (.drop .idle)
  | .failed _, .finish => some (.goto .idle)
  | _, _ => none

/-- The worker is in `acquire`. -/
def Pc.waits : Pc → Bool
  | .acquiring _ _ | .asleep _ _ => true
  | _ => false

/-- A notification ends the wait for one. -/
def Pc.notified : Pc → Pc
  | .asleep job retry => .acquiring job retry
  | pc => pc

end Worker

/-- A worker, and the bytes of its permit. -/
structure Worker where
  pc : Worker.Pc := .idle
  permit : Option UInt64 := none
  deriving DecidableEq

/-- The bytes that a worker holds. -/
def Worker.held (w : Worker) : ℕ := (w.permit.map UInt64.toNat).getD 0

/-- A worker after a notification. -/
def Worker.notified (w : Worker) : Worker := { w with pc := w.pc.notified }

/-! ## The budget -/

/-- The budget and the workers that share it. -/
structure ReadBudget where
  capacity : UInt64
  available : UInt64
  workers : List Worker
  deriving DecidableEq

namespace ReadBudget

/-- A budget that nobody uses yet. -/
def new (bytes : UInt64) : ReadBudget := ⟨bytes, bytes, []⟩

/-- What a claim is charged. -/
def charged (capacity bytes : UInt64) : UInt64 := min bytes capacity

/-- One look at the budget in `acquire`. -/
def acquire (s : ReadBudget) (i : ℕ) (w : Worker) (job : ReadJob) (retry : Bool) : ReadBudget :=
  let bytes := charged s.capacity (job.claim retry)
  if s.available < bytes then { s with workers := s.workers.set i { w with pc := .asleep job retry } }
  else
    { s with
      available := s.available - bytes
      workers := s.workers.set i ⟨.reading job retry, some bytes⟩ }

/-- The drop of a permit, which notifies everyone. -/
def release (s : ReadBudget) (i : ℕ) (w : Worker) (pc : Worker.Pc) : ReadBudget :=
  match w.permit with
  | none => { s with workers := s.workers.set i { w with pc } }
  | some bytes =>
    { s with
      available := s.available + bytes
      workers := (s.workers.set i ⟨pc, none⟩).map Worker.notified }

/-- What the effect of an action does to the budget. -/
def apply (s : ReadBudget) (i : ℕ) (w : Worker) : Worker.Effect → ReadBudget
  | .goto pc => { s with workers := s.workers.set i { w with pc } }
  | .claim job retry => s.acquire i w job retry
  | .drop pc => s.release i w pc

/-- The steps: another worker joins, or a worker acts. -/
inductive Event
  | spawn
  | act (i : ℕ) (a : Worker.Action)
  deriving DecidableEq

/-- One step, if it is possible. -/
def step (s : ReadBudget) : Event → Option ReadBudget
  | .spawn => some { s with workers := s.workers ++ [{}] }
  | .act i a => s.workers[i]?.bind fun w => (w.pc.effect a).map (s.apply i w)

/-- The states that are reached from a budget that nobody uses. -/
def Reachable (s : ReadBudget) : Prop :=
  ∃ bytes, Run.Reaches step (fun _ _ => True) (new bytes) s

/-! ## The invariant -/

/-- What is known of a worker from where it is. -/
def Valid (capacity available : UInt64) (w : Worker) : Prop :=
  match w.pc with
  | .asleep job retry => w.permit = none ∧ available < charged capacity (job.claim retry)
  | .reading job retry => w.permit = some (charged capacity (job.claim retry))
  | .extracting (.read len) => ∃ bytes, w.permit = some bytes ∧ (len ≤ bytes.toNat ∨ bytes = capacity)
  | _ => w.permit = none

/-- What holds in every state. -/
structure Invariant (s : ReadBudget) : Prop where
  /-- What is available and what is held are the capacity. -/
  balance : s.available.toNat + Ledger.total Worker.held s.workers = s.capacity.toNat
  /-- What is known of each worker. -/
  valid : ∀ w ∈ s.workers, Valid s.capacity s.available w

variable {s s' : ReadBudget} {w : Worker} {i : ℕ} {capacity available bytes : UInt64}

/-- A notification changes nothing that is held. -/
lemma held_notified (w : Worker) : w.notified.held = w.held := rfl

/-- Nothing is charged beyond the capacity. -/
lemma charged_le (capacity bytes : UInt64) : charged capacity bytes ≤ capacity := by
  unfold charged
  rw [UInt64.min_def]
  split_ifs with h
  · exact h
  · exact UInt64.le_refl capacity

/-- A claim within the capacity is charged in full, and any other takes all of it. -/
lemma charged_eq (capacity bytes : UInt64) :
    charged capacity bytes = bytes ∨ charged capacity bytes = capacity := by
  unfold charged
  rw [UInt64.min_def]
  split_ifs with h
  · exact .inl rfl
  · exact .inr rfl

/-- An oversized claim takes the whole budget. -/
lemma charged_of_le (h : capacity ≤ bytes) : charged capacity bytes = capacity := by
  unfold charged
  rw [UInt64.min_def]
  split_ifs with hle
  · exact UInt64.le_antisymm hle h
  · rfl

/-- A worker that waits holds nothing. -/
lemma Valid.permit_of_waits (h : Valid capacity available w) (hw : w.pc.waits = true) :
    w.permit = none := by
  unfold Valid at h
  cases hpc : w.pc <;> simp only [hpc, Worker.Pc.waits, Bool.false_eq_true] at h hw
  · exact h
  · exact h.1

/-- What is known of a worker survives a release by another: a worker that was asleep is not any
more. -/
lemma Valid.notified (h : Valid capacity available w) (available' : UInt64) :
    Valid capacity available' w.notified := by
  obtain ⟨pc, permit⟩ := w
  cases pc with
  | asleep job retry => exact h.1
  | extracting bytes => cases bytes <;> exact h
  | _ => exact h

/-- What is known of a worker survives an admission of another. -/
lemma Valid.of_le {available' : UInt64} (h : Valid capacity available w)
    (hle : available' ≤ available) : Valid capacity available' w := by
  obtain ⟨pc, permit⟩ := w
  cases pc with
  | asleep job retry => exact ⟨h.1, UInt64.lt_of_le_of_lt hle h.2⟩
  | extracting bytes => cases bytes <;> exact h
  | _ => exact h

variable {retry : Bool} {job : ReadJob} {a : Worker.Action} {pc : Worker.Pc}

/-- A read under a claim owns no more than the claim, unless there is no limit. -/
lemma len_le_of_read {file : Except ReadErrorKind ℕ} {len : ℕ} (h : job.read retry file = .ok len) :
    len ≤ (job.claim retry).toNat ∨ job.claim retry = u64Max := by
  have hbounded : ∀ size limit : UInt64, readOwnedForIndex size limit file = .ok len →
      len ≤ size.toNat := by
    intro size limit hread
    unfold readOwnedForIndex at hread
    split_ifs at hread
    cases file with
    | error kind => cases hread
    | ok n =>
      dsimp only at hread
      split_ifs at hread with hn
      cases hread
      exact Nat.not_lt.mp hn
  unfold ReadJob.read at h
  split at h
  · exact .inl (hbounded _ _ h)
  · rename_i limit hlimit
    rw [ReadJob.claim, if_pos rfl, hlimit]
    exact .inl (hbounded _ _ h)
  · rename_i hlimit
    rw [ReadJob.claim, if_pos rfl, hlimit]
    exact .inr rfl

/-- What is known of a worker after a step that neither claims nor drops. -/
lemma Valid.goto (h : Valid capacity available w) (ha : w.pc.effect a = some (.goto pc)) :
    Valid capacity available { w with pc } := by
  obtain ⟨pc₀, permit⟩ := w
  cases pc₀ <;> cases a <;>
    simp only [Worker.Pc.effect, some.injEq, reduceCtorEq, Worker.Effect.goto.injEq] at ha
  case idle.call job =>
    subst ha
    unfold Worker.begin
    split_ifs <;> exact h
  case mapping.map job file =>
    subst ha
    unfold Worker.mapped
    split
    · split_ifs <;> exact h
    · exact h
  case asleep.wake job retry =>
    subst ha
    exact h.1
  case reading.read job retry file =>
    cases hread : job.read retry file with
    | error kind => simp only [hread, Worker.readDone, reduceCtorEq] at ha
    | ok len =>
      simp only [hread, Worker.readDone, Worker.Effect.goto.injEq] at ha
      subst ha
      refine ⟨_, h, ?_⟩
      rcases charged_eq capacity (job.claim retry) with heq | heq
      · rw [heq]
        refine (len_le_of_read hread).imp id fun hmax => ?_
        -- a claim that is not bounded takes the whole budget
        rw [← heq]
        refine charged_of_le ?_
        rw [hmax, UInt64.le_iff_toNat_le]
        exact Nat.le_of_lt_succ capacity.toNat_lt
      · exact .inr heq
  case grown.retry job =>
    subst ha
    exact h
  case failed.finish kind =>
    subst ha
    exact h

/-- A worker that drops its permit goes where nothing is held. -/
lemma Valid.dropped (ha : w.pc.effect a = some (.drop pc)) :
    Valid capacity available ⟨pc, none⟩ := by
  obtain ⟨pc₀, permit⟩ := w
  cases pc₀ <;> cases a <;>
    simp only [Worker.Pc.effect, some.injEq, reduceCtorEq, Worker.Effect.drop.injEq] at ha
  case reading.read job retry file =>
    cases hread : job.read retry file with
    | ok len => simp only [hread, Worker.readDone, reduceCtorEq] at ha
    | error kind =>
      simp only [hread, Worker.readDone, Worker.Effect.drop.injEq] at ha
      subst ha
      unfold Worker.readFailed
      split <;> exact rfl
  case extracting.finish bytes =>
    subst ha
    exact rfl

/-- Only a worker in `acquire` claims. -/
lemma acquiring_of_claim (ha : pc.effect a = some (.claim job retry)) : pc = .acquiring job retry := by
  cases pc <;> cases a <;>
    simp only [Worker.Pc.effect, some.injEq, reduceCtorEq, Worker.Effect.claim.injEq] at ha
  case acquiring.lock job' retry' =>
    rw [ha.1, ha.2]
  case reading.read job' retry' file =>
    cases hread : job'.read retry' file <;> simp only [hread, Worker.readDone, reduceCtorEq] at ha

/-! ## What a step keeps -/

/-- Replace a worker by one that holds the same. -/
lemma Invariant.set (h : s.Invariant) (hw : s.workers[i]? = some w) {w' : Worker}
    (hheld : w'.held = w.held) (hvalid : Valid s.capacity s.available w') :
    ({ s with workers := s.workers.set i w' } : ReadBudget).Invariant where
  balance := by
    have htotal := total_set Worker.held hw w'
    have hbalance := h.balance
    show s.available.toNat + total Worker.held (s.workers.set i w') = s.capacity.toNat
    omega
  valid v hv := (mem_or_eq_of_mem_set hv).elim (h.valid v) fun heq => heq ▸ hvalid

/-- A look at the budget keeps the invariant: the claim is admitted, or the worker waits until
there is more. -/
lemma Invariant.acquire (h : s.Invariant) (hw : s.workers[i]? = some w)
    (hpc : w.pc = .acquiring job retry) : (s.acquire i w job retry).Invariant := by
  have hnone : w.permit = none :=
    (h.valid w (mem_of_getElem? hw)).permit_of_waits (by rw [hpc]; rfl)
  unfold ReadBudget.acquire
  dsimp only
  split_ifs with hshort
  · exact h.set hw rfl ⟨hnone, hshort⟩
  · set bytes := charged s.capacity (job.claim retry) with hbytes
    have hle : bytes ≤ s.available := UInt64.not_lt.mp hshort
    have hsub : (s.available - bytes).toNat = s.available.toNat - bytes.toNat :=
      UInt64.toNat_sub_of_le _ _ hle
    have hlower : s.available - bytes ≤ s.available := by
      rw [UInt64.le_iff_toNat_le, hsub]
      exact Nat.sub_le _ _
    refine ⟨?_, fun v hv => ?_⟩
    · have htotal := total_set Worker.held hw ⟨.reading job retry, some bytes⟩
      have hold : w.held = 0 := by rw [Worker.held, hnone]; rfl
      have hnew : Worker.held ⟨.reading job retry, some bytes⟩ = bytes.toNat := rfl
      have hbalance := h.balance
      have hnat := UInt64.le_iff_toNat_le.mp hle
      dsimp only
      omega
    · rcases mem_or_eq_of_mem_set hv with hv | rfl
      · exact (h.valid v hv).of_le hlower
      · exact hbytes ▸ rfl

/-- The drop of a permit keeps the invariant: what was held is available again. -/
lemma Invariant.release (h : s.Invariant) (hw : s.workers[i]? = some w)
    (hvalid : ∀ available, Valid s.capacity available ⟨pc, none⟩) :
    (s.release i w pc).Invariant := by
  unfold ReadBudget.release
  split
  · rename_i hnone
    refine h.set hw rfl ?_
    have := hvalid s.available
    rwa [← hnone] at this
  · rename_i bytes hsome
    have htotal := total_set Worker.held hw ⟨pc, none⟩
    have hold : w.held = bytes.toNat := by rw [Worker.held, hsome]; rfl
    have hnew : Worker.held ⟨pc, none⟩ = 0 := rfl
    have hbalance := h.balance
    have hsize := s.capacity.toNat_lt
    refine ⟨?_, fun v hv => ?_⟩
    · -- the sum does not wrap, because it is at most the capacity
      have hadd : (s.available + bytes).toNat = s.available.toNat + bytes.toNat := by
        rw [UInt64.toNat_add]
        exact Nat.mod_eq_of_lt (by omega)
      dsimp only
      rw [total_map held_notified, hadd]
      omega
    · obtain ⟨u, hu, rfl⟩ := mem_map.mp hv
      rcases mem_or_eq_of_mem_set hu with hu | rfl
      · exact (h.valid u hu).notified _
      · exact (hvalid s.available).notified _

/-- **Every step keeps the invariant.** -/
lemma Invariant.step (h : s.Invariant) {e : Event} (he : s.step e = some s') : s'.Invariant := by
  cases e with
  | spawn =>
    simp only [ReadBudget.step, some.injEq] at he
    subst he
    refine ⟨?_, fun v hv => ?_⟩
    · dsimp only
      rw [total_append]
      exact h.balance
    · rcases mem_append.mp hv with hv | hv
      · exact h.valid v hv
      · rw [mem_singleton.mp hv]
        exact rfl
  | act i a =>
    rw [ReadBudget.step, bind_eq_some_iff] at he
    obtain ⟨w, hw, he⟩ := he
    obtain ⟨effect, ha, rfl⟩ := Option.map_eq_some_iff.mp he
    cases effect with
    | goto pc => exact h.set hw rfl ((h.valid w (mem_of_getElem? hw)).goto ha)
    | claim job retry => exact h.acquire hw (acquiring_of_claim ha)
    | drop pc => exact h.release hw fun _ => Valid.dropped ha

/-- The invariant holds in every state that is reached. -/
lemma Reachable.invariant (h : s.Reachable) : s.Invariant := by
  obtain ⟨bytes, hreach⟩ := h
  refine hreach.invariant (fun s e s' hs _ he => hs.step he) ⟨?_, fun w hw => ?_⟩
  · exact add_zero _
  · exact absurd hw not_mem_nil

/-! ## Main results -/

/-- A worker that holds bytes can go on without waiting for any other. -/
lemma Invariant.progress (h : s.Invariant) (hw : s.workers[i]? = some w) (hheld : 0 < w.held) :
    w.pc.waits = false ∧ ∃ a, (s.step (.act i a)).isSome := by
  have hvalid := h.valid w (mem_of_getElem? hw)
  have hsome : w.permit ≠ none := by
    intro hnone
    rw [Worker.held, hnone] at hheld
    exact Nat.lt_irrefl 0 hheld
  have hstep : ∀ a, (w.pc.effect a).isSome → (s.step (.act i a)).isSome := by
    intro a ha
    rw [ReadBudget.step, hw, bind_some, isSome_map]
    exact ha
  obtain ⟨pc, permit⟩ := w
  cases pc with
  | reading job retry => exact ⟨rfl, .read (.error .other), hstep _ rfl⟩
  | extracting bytes => exact ⟨rfl, .finish, hstep _ rfl⟩
  | asleep job retry => exact absurd hvalid.1 hsome
  | _ => exact absurd hvalid hsome

/-- **The budget of owned reads is never overcommitted.** In every state that any number of workers
reach in any order of their steps:

* what is available and what the workers hold are together the capacity;
* a worker that reads holds what its claim is charged, which is the whole budget if the claim is
  oversized, and the bytes that it has read are within what it holds, unless that is the whole
  budget;
* beside a worker that holds the whole budget no other holds a byte;
* a worker that waits for a claim, or is about to retry with a larger one, holds nothing;
* a worker is only asleep while another holds bytes that is not waiting itself and can go on. -/
theorem never_overcommits (h : s.Reachable) :
    s.available.toNat + Ledger.total Worker.held s.workers = s.capacity.toNat ∧
      (∀ (i : ℕ) (w : Worker) job retry, s.workers[i]? = some w → w.pc = .reading job retry →
        w.permit = some (charged s.capacity (job.claim retry)) ∧
          (s.capacity ≤ job.claim retry → w.permit = some s.capacity)) ∧
      (∀ w ∈ s.workers, ∀ len, w.pc = .extracting (.read len) →
        len ≤ w.held ∨ w.held = s.capacity.toNat) ∧
      (∀ (i j : ℕ) (v w : Worker), i ≠ j → s.workers[i]? = some v → s.workers[j]? = some w →
        v.permit = some s.capacity → w.held = 0) ∧
      (∀ w ∈ s.workers, (w.pc.waits ∨ ∃ job, w.pc = .grown job) → w.permit = none) ∧
      ∀ w ∈ s.workers, ∀ job retry, w.pc = .asleep job retry →
        ∃ j v, s.workers[j]? = some v ∧ 0 < v.held ∧ v.pc.waits = false ∧
          ∃ a, (s.step (.act j a)).isSome := by
  have hinv := h.invariant
  refine ⟨hinv.balance, ?_, ?_, ?_, ?_, ?_⟩
  · intro i w job retry hw hpc
    have hpermit := hinv.valid w (List.mem_of_getElem? hw)
    rw [Valid, hpc] at hpermit
    exact ⟨hpermit, fun hle => charged_of_le hle ▸ hpermit⟩
  · intro w hw len hpc
    have hbytes := hinv.valid w hw
    rw [Valid, hpc] at hbytes
    obtain ⟨bytes, hsome, hlen⟩ := hbytes
    rw [Worker.held, hsome]
    exact hlen.imp id (congrArg UInt64.toNat)
  · intro i j v w hij hv hw hall
    have htwo := Ledger.add_le_total Worker.held hij hv hw
    have hheld : v.held = s.capacity.toNat := by rw [Worker.held, hall]; rfl
    have hbalance := hinv.balance
    omega
  · rintro w hw (hwaits | ⟨job, hpc⟩)
    · exact (hinv.valid w hw).permit_of_waits hwaits
    · have := hinv.valid w hw
      rwa [Valid, hpc] at this
  · intro w hw job retry hpc
    -- the claim exceeds what is available, so that not everything is available
    have hshort : s.available < charged s.capacity (job.claim retry) := by
      have := hinv.valid w hw
      rw [Valid, hpc] at this
      exact this.2
    have hlt := UInt64.lt_iff_toNat_lt.mp hshort
    have hle := UInt64.le_iff_toNat_le.mp (charged_le s.capacity (job.claim retry))
    have hbalance := hinv.balance
    have hne : Ledger.total Worker.held s.workers ≠ 0 := by omega
    rw [Ne, Ledger.total_eq_zero] at hne
    push Not at hne
    obtain ⟨v, hv, hheld⟩ := hne
    obtain ⟨j, hj⟩ := List.getElem?_of_mem hv
    obtain ⟨hwaits, a, ha⟩ := hinv.progress hj (Nat.pos_of_ne_zero hheld)
    exact ⟨j, v, hj, Nat.pos_of_ne_zero hheld, hwaits, a, ha⟩

/-- A worker reads under a claim of twice the budget, and one reads an empty file beside it. -/
def besideOversized : ReadBudget :=
  ⟨10, 0, [⟨.reading ⟨20, none⟩ false, some 10⟩, ⟨.reading ⟨0, none⟩ false, some 0⟩]⟩

/-- The steps that lead there. -/
lemma reachable_besideOversized : besideOversized.Reachable := by
  have hrun : Run.exec step (new 10) [.spawn, .spawn, .act 0 (.call ⟨20, none⟩), .act 0 .lock,
      .act 1 (.call ⟨0, none⟩), .act 1 .lock] = some besideOversized := by decide +kernel
  exact ⟨10, Run.Reaches.of_exec hrun⟩

/-- `never_overcommits` where two workers read. -/
theorem never_overcommits_besideOversized :
    besideOversized.available.toNat + Ledger.total Worker.held besideOversized.workers = 10 :=
  (never_overcommits reachable_besideOversized).1

/-- An oversized claim does not keep out the claim of an empty file. -/
theorem empty_beside_oversized :
    ∃ (s : ReadBudget) (v w : Worker), s.Reachable ∧ s.workers = [v, w] ∧ s.capacity = 10 ∧
      v.pc = .reading ⟨20, none⟩ false ∧ v.permit = some 10 ∧
      w.pc = .reading ⟨0, none⟩ false ∧ w.permit = some 0 :=
  ⟨besideOversized, _, _, reachable_besideOversized, rfl, rfl, rfl, rfl, rfl, rfl⟩

end ReadBudget

end Tgrep
