import Tgrep.Managed.PermitRun

/-!
# What reservations cover

The account records, apart from the allocations, how many retained bytes each reservation covers.
The coverage of a reservation ends when it is finished, whether or not the transaction that
deletes it succeeds, and when a snapshot finds it inactive; the allocations made under it may
live on. As long as nothing more is retained under a reservation whose coverage has ended while
allocations of it live, a recorded coverage is exactly the bytes retained under the reservation.

## Main definitions

* `AccountStep`: what a call can do to the account and the live allocations.
* `Counted`, `Covering`: the totals and the coverage agree with the live allocations.
* `Process.KeepsCoverage`: the call does not retain under a reservation whose coverage has ended
  while allocations with bytes in them live.
* `Process.Releasable`: dropping an allocation takes no counter below zero.

## Main results

* `Process.coverage_run`: the coverage, the snapshots and the drops along such a run.
* `Process.coverage_underflows`: without the condition, a drop can underflow.
-/

namespace Tgrep.Managed

open FinMap Counter Option Ledger

/-! ## Steps of the account -/

/-- What a call can do to the account and the live allocations, when `may` says under which
reservations it retains. -/
inductive AccountStep (may : Id → Prop) (account : MemoryState) (retained : List RetainedMemory) :
    MemoryState → List RetainedMemory → Prop
  /-- Nothing. -/
  | same : AccountStep may account retained account retained
  /-- An allocation is retained under a reservation. -/
  | retainReserved {id : Id} {bytes mapped : ℕ} {account' : MemoryState} (hid : may id)
      (h : account.add bytes mapped (some id) = .ok account') :
      AccountStep may account retained account' (retained ++ [⟨bytes, mapped, some id⟩])
  /-- An allocation is made outside every reservation, after a snapshot. -/
  | retainUnreserved {active : List Id} {bytes mapped : ℕ} {account' : MemoryState}
      (h : (account.usageOf active).2.add bytes mapped none = .ok account') :
      AccountStep may account retained account' (retained ++ [⟨bytes, mapped, none⟩])
  /-- An allocation is dropped. -/
  | release {i : ℕ} {r : RetainedMemory} (h : retained[i]? = some r) :
      AccountStep may account retained (account.release r) (retained.eraseIdx i)
  /-- The coverage of a reservation ends. -/
  | finishReservation (id : Id) :
      AccountStep may account retained (account.finishReservation id) retained
  /-- A snapshot ends the coverage of the inactive reservations. -/
  | usage (active : List Id) : AccountStep may account retained (account.usageOf active).2 retained

/-! ## The totals -/

/-- The totals of the account are those of the live allocations, and in range. -/
structure Counted (account : MemoryState) (retained : List RetainedMemory) : Prop where
  /-- The private bytes. -/
  privateBytes : account.usage.retainedPrivateEstimateBytes =
    Ledger.total RetainedMemory.privateBytes retained
  /-- The mapped bytes. -/
  mapped : account.usage.mappedBytes = Ledger.total RetainedMemory.mapped retained
  /-- The number of allocations. -/
  allocations : account.usage.retainedAllocations = retained.length
  /-- The private bytes are in range. -/
  privateBytes_lt : account.usage.retainedPrivateEstimateBytes < Counter.size
  /-- The mapped bytes are in range. -/
  mapped_lt : account.usage.mappedBytes < Counter.size
  /-- The number of allocations is in range. -/
  allocations_lt : account.usage.retainedAllocations < Counter.size

/-- Every recorded coverage is exactly the bytes retained under the reservation. -/
def Covering (account : MemoryState) (retained : List RetainedMemory) : Prop :=
  ∀ id bytes, account.covered.get? id = some bytes →
    bytes = Ledger.total (Process.retentionOf id) retained

namespace MemoryState

variable {s s' : MemoryState} {privateBytes mapped : ℕ} {reservation : Option Id}

/-- The covered bytes of a reservation after an allocation under it. -/
lemma covered_of_cover {id : Id} (h : s.cover privateBytes (some id) = .ok s') :
    s'.covered = s.covered.insert id ((s.covered.get? id).getD 0 + privateBytes) := by
  simp only [cover] at h
  split at h
  · cases h
  · next total htotal =>
    obtain ⟨rfl, -⟩ := checkedAdd_eq_some.mp htotal
    cases h
    rfl

/-- Counting an allocation: the coverage is extended, and every new total is in range. -/
lemma add_eq_ok (h : s.add privateBytes mapped reservation = .ok s') :
    ∃ t, s.cover privateBytes reservation = .ok t ∧ s'.covered = t.covered ∧
      s'.usage.retainedPrivateEstimateBytes =
        s.usage.retainedPrivateEstimateBytes + privateBytes ∧
      s'.usage.mappedBytes = s.usage.mappedBytes + mapped ∧
      s'.usage.retainedAllocations = s.usage.retainedAllocations + 1 ∧
      s'.usage.retainedPrivateEstimateBytes < Counter.size ∧
      s'.usage.mappedBytes < Counter.size ∧ s'.usage.retainedAllocations < Counter.size := by
  unfold add at h
  split at h
  · cases h
  next privateTotal hprivate =>
  split at h
  · cases h
  next mappedTotal hmapped =>
  split at h
  · cases h
  next allocations hallocations =>
  obtain ⟨hp, hp'⟩ := checkedAdd_eq_some.mp hprivate
  obtain ⟨hm, hm'⟩ := checkedAdd_eq_some.mp hmapped
  obtain ⟨ha, ha'⟩ := checkedAdd_eq_some.mp hallocations
  cases hcover : s.cover privateBytes reservation with
  | error e =>
    rw [hcover] at h
    cases h
  | ok t =>
    rw [hcover] at h
    cases h
    exact ⟨t, rfl, rfl, hp, hm, ha, hp', hm', ha'⟩

/-- Ending coverage changes no total. -/
@[simp] lemma usage_usageOf (s : MemoryState) (active : List Id) :
    (s.usageOf active).2.usage = s.usage := by
  unfold usageOf
  split_ifs <;> rfl

/-- What is covered after a snapshot was covered before. -/
lemma covered_usageOf {active : List Id} {id : Id} {bytes : ℕ}
    (h : (s.usageOf active).2.covered.get? id = some bytes) : s.covered.get? id = some bytes := by
  unfold usageOf at h
  split_ifs at h
  · exact h
  · exact (FinMap.get?_filter_eq_some.mp h).1

end MemoryState

namespace Counted

variable {account account' : MemoryState} {retained : List RetainedMemory} {r : RetainedMemory}

/-- An allocation is counted. -/
lemma add {bytes mapped : ℕ} {reservation : Option Id} (h : Counted account retained)
    (hadd : account.add bytes mapped reservation = .ok account') :
    Counted account' (retained ++ [⟨bytes, mapped, reservation⟩]) := by
  obtain ⟨t, -, -, hp, hm, ha, hp', hm', ha'⟩ := MemoryState.add_eq_ok hadd
  refine ⟨?_, ?_, ?_, hp', hm', ha'⟩
  · rw [hp, h.privateBytes]
    simp
  · rw [hm, h.mapped]
    simp
  · rw [ha, h.allocations]
    simp

/-- Only the coverage changes. -/
lemma of_usage_eq (h : Counted account retained) (husage : account'.usage = account.usage) :
    Counted account' retained := by
  obtain ⟨h₁, h₂, h₃, h₄, h₅, h₆⟩ := h
  exact ⟨husage ▸ h₁, husage ▸ h₂, husage ▸ h₃, husage ▸ h₄, husage ▸ h₅, husage ▸ h₆⟩

/-- A live allocation is part of every total. -/
lemma le_of_mem (h : Counted account retained) (hr : r ∈ retained) :
    r.privateBytes ≤ account.usage.retainedPrivateEstimateBytes ∧
      r.mapped ≤ account.usage.mappedBytes ∧ 1 ≤ account.usage.retainedAllocations := by
  refine ⟨?_, ?_, ?_⟩
  · rw [h.privateBytes]
    exact le_total _ hr
  · rw [h.mapped]
    exact le_total _ hr
  · rw [h.allocations]
    exact List.length_pos_of_mem hr

/-- An allocation is dropped. -/
lemma release (h : Counted account retained) {i : ℕ} (hr : retained[i]? = some r) :
    Counted (account.release r) (retained.eraseIdx i) := by
  obtain ⟨hprivate, hmapped, hcount⟩ := h.le_of_mem (List.mem_of_getElem? hr)
  have hp := h.privateBytes
  have hm := h.mapped
  have ha := h.allocations
  have hp' := h.privateBytes_lt
  have hm' := h.mapped_lt
  have ha' := h.allocations_lt
  have hpe := total_eraseIdx RetainedMemory.privateBytes hr
  have hme := total_eraseIdx RetainedMemory.mapped hr
  obtain ⟨hi, -⟩ := List.getElem?_eq_some_iff.mp hr
  have hlen := List.length_eraseIdx_of_lt hi
  have hps := wrappingSub_of_le hprivate hp'
  have hms := wrappingSub_of_le hmapped hm'
  have has := wrappingSub_of_le hcount ha'
  constructor <;> simp only [MemoryState.release] <;> omega

end Counted

/-! ## The coverage -/

namespace Covering

variable {account account' : MemoryState} {retained : List RetainedMemory} {r : RetainedMemory}

/-- The bytes retained under a reservation after an allocation is made. -/
lemma total_append (id : Id) (retained : List RetainedMemory) (r : RetainedMemory) :
    Ledger.total (Process.retentionOf id) (retained ++ [r]) =
      Ledger.total (Process.retentionOf id) retained + Process.retentionOf id r := by
  rw [Ledger.total_append, Ledger.total_cons, Ledger.total_nil, add_zero]

variable (h : Covering account retained)

include h

/-- Coverage may end at any time. -/
lemma of_covered_subset (hsub : ∀ id bytes, account'.covered.get? id = some bytes →
      account.covered.get? id = some bytes) : Covering account' retained :=
  fun id bytes hget => h id bytes (hsub id bytes hget)

/-- An allocation under a reservation that is covered, or of which nothing else lives. -/
lemma addReserved {id : Id} {bytes mapped : ℕ}
    (hadd : account.add bytes mapped (some id) = .ok account')
    (hkeeps : account.covered.contains id = true ∨
      ∀ r ∈ retained, r.reservation = some id → r.privateBytes = 0) :
    Covering account' (retained ++ [⟨bytes, mapped, some id⟩]) := by
  obtain ⟨t, hcover, hcovered, -⟩ := MemoryState.add_eq_ok hadd
  rw [MemoryState.covered_of_cover hcover] at hcovered
  intro k b hb
  rw [hcovered, get?_insert] at hb
  rw [total_append]
  split_ifs at hb with hk
  · rw [some.injEq] at hb
    rw [hk, ← hb, Process.retentionOf_self rfl]
    congr 1
    cases hget : account.covered.get? id with
    | some old => exact h id old hget
    | none =>
      -- the coverage has ended, so nothing with bytes in it lives under the reservation
      have hnone : ∀ r ∈ retained, r.reservation = some id → r.privateBytes = 0 := by
        refine hkeeps.resolve_left fun hcontains => ?_
        rw [FinMap.contains, hget] at hcontains
        cases hcontains
      symm
      refine total_of_forall_eq_zero fun r hr => ?_
      by_cases hid : r.reservation = some id
      · rw [Process.retentionOf_self hid]
        exact hnone r hr hid
      · exact Process.retentionOf_of_ne hid
  · rw [Process.retentionOf_of_ne, add_zero]
    · exact h k b hb
    · rw [Ne, some.injEq]
      exact fun heq => hk heq.symm

/-- An allocation outside every reservation. -/
lemma addUnreserved {bytes mapped : ℕ} (hadd : account.add bytes mapped none = .ok account') :
    Covering account' (retained ++ [⟨bytes, mapped, none⟩]) := by
  obtain ⟨t, hcover, hcovered, -⟩ := MemoryState.add_eq_ok hadd
  cases hcover
  intro k b hb
  rw [total_append, Process.retentionOf_of_ne, add_zero]
  · exact h k b (hcovered ▸ hb)
  · exact (some_ne_none k).symm

/-- A live allocation is part of what its reservation covers. -/
lemma le_of_mem (hr : r ∈ retained) {id : Id} {bytes : ℕ} (hid : r.reservation = some id)
    (hget : account.covered.get? id = some bytes) : r.privateBytes ≤ bytes := by
  have hle := le_total (Process.retentionOf id) hr
  rw [Process.retentionOf_self hid] at hle
  rw [h id bytes hget]
  exact hle

/-- An allocation is dropped. -/
lemma release (hcounted : Counted account retained) {i : ℕ}
    (hr : retained[i]? = some r) : Covering (account.release r) (retained.eraseIdx i) := by
  intro k b hb
  have herase := total_eraseIdx (Process.retentionOf k) hr
  by_cases hk : r.reservation = some k
  · -- the reservation's own entry, which covers the allocation
    rw [Process.retentionOf_self hk] at herase
    simp only [MemoryState.release, hk, get?_alter, if_true] at hb
    cases hget : account.covered.get? k with
    | none =>
      rw [hget] at hb
      cases hb
    | some old =>
      rw [hget] at hb
      have hle := h.le_of_mem (List.mem_of_getElem? hr) hk hget
      have hold := h k old hget
      have hrange := total_inAccount_le RetainedMemory.reservation
        RetainedMemory.privateBytes k retained
      have hlt : old < size := by
        rw [hold]
        exact lt_of_le_of_lt (hcounted.privateBytes ▸ hrange) hcounted.privateBytes_lt
      have hsub := wrappingSub_of_le hle hlt
      simp only [MemoryState.uncover, hsub] at hb
      split_ifs at hb
      cases hb
      omega
  · rw [Process.retentionOf_of_ne hk, add_zero] at herase
    rw [herase]
    refine h k b ?_
    simp only [MemoryState.release] at hb
    cases hreservation : r.reservation with
    | none =>
      rw [hreservation] at hb
      exact hb
    | some id =>
      rw [hreservation] at hb hk
      simp only [get?_alter] at hb
      rwa [if_neg fun heq => hk (by rw [heq])] at hb

/-- The covered bytes are together at most the retained ones, so a snapshot succeeds. -/
lemma snapshot (hcounted : Counted account retained) : ∃ usage, account.snapshot = .ok usage := by
  have hsum : (account.covered.toList.map Prod.snd).sum ≤
      account.usage.retainedPrivateEstimateBytes := by
    rw [hcounted.privateBytes]
    refine sum_recorded_le RetainedMemory.reservation account.covered.nodup_keys_toList
      fun entry hentry => ?_
    exact (h _ _ (FinMap.mem_toList.mp hentry)).le
  have hlt := hcounted.privateBytes_lt
  unfold MemoryState.snapshot
  rw [checkedSum_eq_some (by omega)]
  simp only
  cases hsub : checkedSub account.usage.retainedPrivateEstimateBytes
      (0 + (account.covered.toList.map Prod.snd).sum) with
  | none =>
    have := checkedSub_eq_none.mp hsub
    omega
  | some unreserved => exact ⟨_, rfl⟩

end Covering

/-! ## Runs -/

variable {may : Id → Prop} {account account' : MemoryState}
  {retained retained' : List RetainedMemory}

/-- Every step of the account keeps the totals right. -/
lemma AccountStep.counted (hstep : AccountStep may account retained account' retained')
    (h : Counted account retained) : Counted account' retained' := by
  cases hstep with
  | same => exact h
  | retainReserved hid hadd => exact h.add hadd
  | retainUnreserved hadd => exact (h.of_usage_eq (MemoryState.usage_usageOf _ _)).add hadd
  | release hr => exact h.release hr
  | finishReservation id => exact h.of_usage_eq rfl
  | usage active => exact h.of_usage_eq (MemoryState.usage_usageOf _ _)

/-- Every step of the account keeps the coverage right, if it retains only under reservations that
are covered, or of which nothing else lives. -/
lemma AccountStep.covering (hstep : AccountStep may account retained account' retained')
    (hcounted : Counted account retained) (h : Covering account retained)
    (hkeeps : ∀ id, may id → account.covered.contains id = true ∨
      ∀ r ∈ retained, r.reservation = some id → r.privateBytes = 0) :
    Covering account' retained' := by
  cases hstep with
  | same => exact h
  | retainReserved hid hadd => exact h.addReserved hadd (hkeeps _ hid)
  | retainUnreserved hadd =>
    exact (h.of_covered_subset fun id bytes hget => MemoryState.covered_usageOf hget).addUnreserved
      hadd
  | release hr => exact h.release hcounted hr
  | finishReservation id =>
    refine h.of_covered_subset fun k bytes hget => ?_
    simp only [MemoryState.finishReservation, get?_erase] at hget
    split_ifs at hget
    exact hget
  | usage active =>
    exact h.of_covered_subset fun id bytes hget => MemoryState.covered_usageOf hget

namespace Process

variable {s : Process} {call : Call}

/-- The call retains a charge under the reservation. -/
def RetainsUnder (s : Process) : Call → Id → Prop
  | .retain i _ _, id => ∃ c, s.charges[i]? = some c ∧ c.permit = id
  | _, _ => False

/-- The call does not retain under a reservation whose coverage has ended while allocations of it
with bytes in them live. -/
def KeepsCoverage (s : Process) (call : Call) : Prop :=
  ∀ id, s.RetainsUnder call id → s.account.covered.contains id = true ∨
    ∀ r ∈ s.retained, r.reservation = some id → r.privateBytes = 0

/-- Dropping a charge leaves the account and the allocations alone. -/
lemma dropCharge_account (s : Process) (i : ℕ) :
    (s.dropCharge i).account = s.account ∧ (s.dropCharge i).retained = s.retained := by
  unfold Process.dropCharge
  cases s.charges[i]? with
  | none => exact ⟨rfl, rfl⟩
  | some c =>
    simp only
    cases s.permits.get? c.permit <;> exact ⟨rfl, rfl⟩

/-- What a call does to the account when it leaves it and the allocations alone. -/
lemma AccountStep.of_eq {may : Id → Prop} {t : Process}
    (h : t.account = s.account ∧ t.retained = s.retained) :
    AccountStep may s.account s.retained t.account t.retained := by
  rw [h.1, h.2]
  exact .same

/-- A call on a permit, as far as the account is concerned. -/
lemma accountStep_onPermit {may : Id → Prop} {id : Id}
    {f : WorkPermit → Except Error Unit × Process}
    (hf : ∀ p, AccountStep may s.account s.retained (f p).2.account (f p).2.retained) :
    AccountStep may s.account s.retained (s.onPermit id f).2.account
      (s.onPermit id f).2.retained := by
  unfold Process.onPermit
  cases s.permits.get? id with
  | none => exact .same
  | some p => exact hf p

/-- A call on a charge, as far as the account is concerned. -/
lemma accountStep_onCharge {may : Id → Prop} {i : ℕ}
    {f : MemoryCharge → WorkPermit → Except Error Unit × Process}
    (hf : ∀ c p, s.charges[i]? = some c →
      AccountStep may s.account s.retained (f c p).2.account (f c p).2.retained) :
    AccountStep may s.account s.retained (s.onCharge i f).2.account
      (s.onCharge i f).2.retained := by
  unfold Process.onCharge
  cases hc : s.charges[i]? with
  | none => exact .same
  | some c => exact accountStep_onPermit fun p => hf c p hc

/-- Finishing a permit, as far as the account is concerned. -/
lemma accountStep_finish (may : Id → Prop) (s : Process) (id : Id)
    (transaction : Except Error Unit) :
    AccountStep may s.account s.retained (s.finish id transaction).2.account
      (s.finish id transaction).2.retained := by
  refine accountStep_onPermit fun p => ?_
  rcases p.finish_cases id s.account transaction with ⟨e, he⟩ | ⟨-, ⟨e, he⟩ | hok⟩
  · rw [he]
    exact .same
  · rw [he]
    exact .finishReservation id
  · rw [hok]
    exact .finishReservation id

/-- Every call is a step of the account. -/
lemma accountStep (s : Process) (call : Call) :
    AccountStep (s.RetainsUnder call) s.account s.retained (s.step call).account
      (s.step call).retained := by
  cases call with
  | reserve privateLimit => exact .same
  | memory id bytes control =>
    refine accountStep_onPermit fun p => ?_
    rcases p.memory_cases id bytes control with ⟨e, he⟩ | ⟨q, -, hok⟩
    · rw [he]
      exact .same
    · rw [hok]
      exact .same
  | tryMemory id bytes =>
    refine accountStep_onPermit fun p => ?_
    rcases p.tryMemory_cases id bytes with ⟨e, he⟩ | ⟨q, -, hok⟩
    · rw [he]
      exact .same
    · rw [hok]
      exact .same
  | grow i bytes control => exact accountStep_onCharge fun c p _ => .same
  | resize i bytes control => exact accountStep_onCharge fun c p _ => .same
  | absorb i j =>
    show AccountStep _ _ _ (s.absorb i j).2.account (s.absorb i j).2.retained
    unfold Process.absorb
    cases s.charges[i]? with
    | none => exact .same
    | some c =>
      cases s.charges[j]? with
      | none => exact .same
      | some other =>
        simp only
        split_ifs
        · exact .same
        · exact AccountStep.of_eq (dropCharge_account _ j)
  | retain i mapped control =>
    refine accountStep_onCharge fun c p hc => ?_
    unfold Process.retainCharge
    rcases c.retain_cases p s.account mapped control with ⟨e, he⟩ | ⟨account, hadd, hok⟩
    · rw [he]
      exact AccountStep.of_eq (dropCharge_account _ i)
    · rw [hok]
      simp only
      rw [(dropCharge_account _ i).1, (dropCharge_account _ i).2]
      exact .retainReserved ⟨c, hc, rfl⟩ hadd
  | dropCharge i => exact AccountStep.of_eq (dropCharge_account s i)
  | retainUnreserved privateBytes mapped active reserved limit =>
    show AccountStep _ _ _ (s.retainUnreserved privateBytes mapped active reserved limit).2.account
      (s.retainUnreserved privateBytes mapped active reserved limit).2.retained
    unfold Process.retainUnreserved
    rcases s.account.retainUnreserved_cases privateBytes mapped active reserved limit with
      ⟨e, he⟩ | ⟨account, hadd, hok⟩
    · rw [he]
      exact .usage active
    · rw [hok]
      exact .retainUnreserved hadd
  | dropRetained i =>
    show AccountStep _ _ _ (s.dropRetained i).account (s.dropRetained i).retained
    unfold Process.dropRetained
    cases hr : s.retained[i]? with
    | none => exact .same
    | some r =>
      simp only [releasePermit]
      cases r.reservation <;> exact .release hr
  | failInventory id => exact .same
  | finish id transaction => exact accountStep_finish _ s id transaction
  | dropPermit id transaction =>
    show AccountStep _ _ _ (s.dropPermit id transaction).account (s.dropPermit id transaction).retained
    unfold Process.dropPermit
    cases s.permits.get? id with
    | none => exact .same
    | some p =>
      simp only
      split_ifs
      · exact .same
      · exact .same
      · exact accountStep_finish _ s id transaction
  | recover id => exact .finishReservation id
  | usage active => exact .usage active

/-- The totals and the coverage are right. -/
def AccountInvariant (s : Process) : Prop :=
  s.Accounted ∧ Counted s.account s.retained ∧ Covering s.account s.retained

/-- The start of a process. -/
lemma accountInvariant_init : AccountInvariant {} := by
  refine ⟨accounted_init, ⟨rfl, rfl, rfl, by decide, by decide, by decide⟩, ?_⟩
  intro id bytes h
  simp at h

/-- **The step lemma**: a call that keeps coverage keeps the account right. -/
theorem AccountInvariant.step (h : s.AccountInvariant) (hkeeps : s.KeepsCoverage call) :
    (s.step call).AccountInvariant :=
  have hstep := s.accountStep call
  ⟨h.1.step call, hstep.counted h.2.1, hstep.covering h.2.1 h.2.2 hkeeps⟩

/-- Dropping the allocation takes no counter below zero: neither the totals, nor the recorded
coverage, nor the counters of the permit it refers to. -/
def Releasable (s : Process) (r : RetainedMemory) : Prop :=
  r.privateBytes ≤ s.account.usage.retainedPrivateEstimateBytes ∧
    r.mapped ≤ s.account.usage.mappedBytes ∧ 1 ≤ s.account.usage.retainedAllocations ∧
    (∀ id bytes, r.reservation = some id → s.account.covered.get? id = some bytes →
      r.privateBytes ≤ bytes) ∧
    ∀ id p, r.reservation = some id → s.permits.get? id = some p →
      r.privateBytes ≤ p.retainedPrivateBytes ∧ r.privateBytes ≤ p.privateBytes

/-- Every live allocation can be dropped. -/
lemma AccountInvariant.releasable (h : s.AccountInvariant) {r : RetainedMemory}
    (hr : r ∈ s.retained) : s.Releasable r := by
  obtain ⟨haccounted, hcounted, hcovering⟩ := h
  obtain ⟨hprivate, hmapped, hcount⟩ := hcounted.le_of_mem hr
  refine ⟨hprivate, hmapped, hcount, fun id bytes hid hget => hcovering.le_of_mem hr hid hget, ?_⟩
  intro id p hid hp
  have hself := haccounted.permit id p hp
  have hle : r.privateBytes ≤ s.retainedUnder id := by
    have := le_total (retentionOf id) hr
    rwa [retentionOf_self hid] at this
  have h₁ := hself.privateBytes
  have h₂ := hself.retainedPrivateBytes
  omega

/-- A snapshot fails only when the catalog lists too many reservations. -/
lemma AccountInvariant.usageOf (h : s.AccountInvariant) (active : List Id) :
    (s.account.usageOf active).1 ≠ .error (.corrupt "retained memory coverage exceeds usage") := by
  have hcovering : Covering (s.account.retainActive (active.take 65)) s.retained :=
    h.2.2.of_covered_subset fun id bytes hget => (FinMap.get?_filter_eq_some.mp hget).1
  obtain ⟨usage, hok⟩ := hcovering.snapshot (h.2.1.of_usage_eq rfl)
  unfold MemoryState.usageOf
  split_ifs
  · have hne : Error.corrupt "reservation count exceeds the supported work-slot bound" ≠
        Error.corrupt "retained memory coverage exceeds usage" := by decide
    exact fun heq => hne (Except.error.inj heq)
  · rw [hok]
    exact fun heq => nomatch heq

/-- **The coverage along a run.** After every run whose calls retain nothing under a reservation
whose coverage has ended while allocations of it live, the bytes that a reservation covers are at
most the bytes of the live allocations retained under it, no snapshot over any active set reports
coverage that exceeds usage, and no allocation takes a counter below zero when it is dropped. -/
theorem coverage_run (calls : List Call) (hcalls : Run.AllSteps step KeepsCoverage {} calls) :
    (∀ id bytes, (run calls).account.covered.get? id = some bytes →
        bytes ≤ (run calls).retainedUnder id) ∧
      (∀ active, ((run calls).account.usageOf active).1 ≠
        .error (.corrupt "retained memory coverage exceeds usage")) ∧
      ∀ r ∈ (run calls).retained, (run calls).Releasable r := by
  have h : (run calls).AccountInvariant :=
    Run.invariant (fun _ _ h hkeeps => h.step hkeeps) accountInvariant_init hcalls
  exact ⟨fun id bytes hget => (h.2.2 id bytes hget).le, h.usageOf, fun r hr => h.releasable hr⟩

/-- An allocation that outlives its reservation: the coverage ends although the transaction
failed, and the allocation can still be dropped. -/
theorem coverage_run_finished :
    (run [.reserve 10, .memory 0 5 {}, .retain 0 0 {}, .finish 0 (.error (.busy "catalog"))]).Releasable
      ⟨5, 0, some 0⟩ :=
  (coverage_run [.reserve 10, .memory 0 5 {}, .retain 0 0 {}, .finish 0 (.error (.busy "catalog"))]
    ⟨fun _ h => h.elim, fun _ h => h.elim,
    fun _ _ => .inr fun _ hr => absurd hr (List.not_mem_nil), fun _ h => h.elim, trivial⟩).2.2
      _ (by decide +kernel)

/-- A snapshot that does not list the reservation of a live permit ends its coverage. When the
permit retains again, the older allocation is larger than the recorded coverage: dropping it
wraps, after which more is covered than lives, and a snapshot reports it. -/
theorem coverage_underflows :
    ¬ (run [.reserve 10, .memory 0 5 {}, .retain 0 0 {}, .usage [], .memory 0 3 {},
        .retain 0 0 {}]).Releasable ⟨5, 0, some 0⟩ ∧
      (run [.reserve 10, .memory 0 5 {}, .retain 0 0 {}, .usage [], .memory 0 3 {},
        .retain 0 0 {}, .dropRetained 0]).account.covered.get? 0 = some (2 ^ 64 - 2) ∧
      (run [.reserve 10, .memory 0 5 {}, .retain 0 0 {}, .usage [], .memory 0 3 {},
        .retain 0 0 {}, .dropRetained 0]).retainedUnder 0 = 3 ∧
      ((run [.reserve 10, .memory 0 5 {}, .retain 0 0 {}, .usage [], .memory 0 3 {},
        .retain 0 0 {}, .dropRetained 0]).account.usageOf [0]).1 =
        .error (.corrupt "retained memory coverage exceeds usage") := by
  refine ⟨fun h => ?_, by decide, by decide, ?_⟩
  · exact absurd (h.2.2.2.1 0 3 rfl (by decide)) (by decide)
  · decide +kernel

end Process

end Tgrep.Managed
