import Tgrep.Data.Run
import Tgrep.Managed.Permit

/-!
# What a permit has counted

In every state that a process reaches, the counters of every live permit are the bytes of its
charges and of the allocations retained under it.

## Main definitions

* `Process.chargedTo`, `Process.retainedUnder`: the bytes of the live charges of a permit, and of
  the live allocations retained under a reservation.
* `WorkPermit.Accounts`: the counters of a permit agree with given sums.
* `Process.Accounted`: they do so for every live permit.

## Main results

* `Process.Accounted.step`: every call keeps the counters right.
* `Process.accounted_run`: they are right in every state that a process reaches.
-/

namespace Tgrep.Managed

open FinMap Counter Option List Ledger

/-! ## The counters of one permit -/

/-- The counters of a permit agree with the bytes charged to it and retained under it, and stay
within its limit and its peak. -/
structure WorkPermit.Accounts (p : WorkPermit) (charged retained : ℕ) : Prop where
  /-- The private bytes are the charged and the retained ones. -/
  privateBytes : p.privateBytes = charged + retained
  /-- The retained bytes are counted. -/
  retainedPrivateBytes : p.retainedPrivateBytes = retained
  /-- The limit is kept. -/
  limit : p.privateBytes ≤ p.privateLimit
  /-- The peak is at least the present value. -/
  peak : p.privateBytes ≤ p.peakPrivateBytes
  /-- The counter does not wrap. -/
  range : p.privateBytes < Counter.size

namespace WorkPermit.Accounts

variable {p q : WorkPermit} {charged retained bytes : ℕ}

/-- Adding within the limit. -/
lemma addPrivate (h : p.Accounts charged retained) (hadd : p.addPrivate bytes = some q) :
    q.Accounts (charged + bytes) retained := by
  unfold WorkPermit.addPrivate at hadd
  split at hadd
  · cases hadd
  · next total htotal =>
    obtain ⟨rfl, hrange⟩ := checkedAdd_eq_some.mp htotal
    split_ifs at hadd with hlimit
    cases hadd
    refine ⟨?_, h.retainedPrivateBytes, hlimit, le_max_right _ _, hrange⟩
    show p.privateBytes + bytes = charged + bytes + retained
    have := h.privateBytes
    omega

/-- Taking from the charged bytes. -/
lemma subPrivate (h : p.Accounts (charged + bytes) retained) :
    (p.subPrivate bytes).Accounts charged retained := by
  have hpriv := h.privateBytes
  have hrange := h.range
  have hsub : wrappingSub p.privateBytes bytes = p.privateBytes - bytes :=
    wrappingSub_of_le (by omega) hrange
  have hlimit := h.limit
  have hpeak := h.peak
  constructor
  · show wrappingSub p.privateBytes bytes = charged + retained
    omega
  · exact h.retainedPrivateBytes
  · show wrappingSub p.privateBytes bytes ≤ p.privateLimit
    omega
  · show wrappingSub p.privateBytes bytes ≤ p.peakPrivateBytes
    omega
  · show wrappingSub p.privateBytes bytes < size
    omega

/-- Charged bytes become retained ones. -/
lemma retainCharge (h : p.Accounts (charged + bytes) retained) :
    (p.retainCharge bytes).Accounts charged (retained + bytes) := by
  have hpriv := h.privateBytes
  have hrange := h.range
  have hret := h.retainedPrivateBytes
  refine ⟨?_, ?_, h.limit, h.peak, hrange⟩
  · show p.privateBytes = charged + (retained + bytes)
    omega
  · show wrappingAdd p.retainedPrivateBytes bytes = retained + bytes
    rw [wrappingAdd_of_lt (by omega), hret]

/-- Retained bytes are dropped. -/
lemma releaseRetainedCharge (h : p.Accounts charged (retained + bytes)) :
    (p.releaseRetainedCharge bytes).Accounts charged retained := by
  have hpriv := h.privateBytes
  have hrange := h.range
  have hret := h.retainedPrivateBytes
  have hlimit := h.limit
  have hpeak := h.peak
  have hsub : wrappingSub p.privateBytes bytes = p.privateBytes - bytes :=
    wrappingSub_of_le (by omega) hrange
  have hsub' : wrappingSub p.retainedPrivateBytes bytes = p.retainedPrivateBytes - bytes :=
    wrappingSub_of_le (by omega) (by omega)
  constructor
  · show wrappingSub p.privateBytes bytes = charged + retained
    omega
  · show wrappingSub p.retainedPrivateBytes bytes = retained
    omega
  · show wrappingSub p.privateBytes bytes ≤ p.privateLimit
    omega
  · show wrappingSub p.privateBytes bytes ≤ p.peakPrivateBytes
    omega
  · show wrappingSub p.privateBytes bytes < size
    omega

end WorkPermit.Accounts

/-- What a permit does outside its counters. -/
lemma WorkPermit.Accounts.of_counters {p q : WorkPermit} {charged retained : ℕ}
    (h : p.Accounts charged retained) (hlimit : q.privateLimit = p.privateLimit)
    (hprivate : q.privateBytes = p.privateBytes)
    (hretained : q.retainedPrivateBytes = p.retainedPrivateBytes)
    (hpeak : q.peakPrivateBytes = p.peakPrivateBytes) : q.Accounts charged retained := by
  obtain ⟨h₁, h₂, h₃, h₄, h₅⟩ := h
  exact ⟨hprivate ▸ h₁, hretained ▸ h₂, hlimit ▸ hprivate ▸ h₃, hpeak ▸ hprivate ▸ h₄,
    hprivate ▸ h₅⟩

namespace Process

variable {s s' : Process} {id k : Id} {c c' : MemoryCharge} {r : RetainedMemory} {i : ℕ}

/-! ## Sums over the live charges and allocations -/

/-- The bytes of a charge, as far as they are charged to a permit. -/
def chargeOf (id : Id) : MemoryCharge → ℕ :=
  Ledger.inAccount (fun c : MemoryCharge => some c.permit) MemoryCharge.bytes id

/-- The bytes of an allocation, as far as they are retained under a reservation. -/
def retentionOf (id : Id) : RetainedMemory → ℕ :=
  Ledger.inAccount RetainedMemory.reservation RetainedMemory.privateBytes id

/-- The bytes of the live charges of a permit. -/
def chargedTo (s : Process) (id : Id) : ℕ := Ledger.total (chargeOf id) s.charges

/-- The bytes of the live allocations retained under a reservation. -/
def retainedUnder (s : Process) (id : Id) : ℕ := Ledger.total (retentionOf id) s.retained

/-- A charge counts for its own permit. -/
lemma chargeOf_self (c : MemoryCharge) : chargeOf c.permit c = c.bytes :=
  inAccount_of_eq rfl

/-- A charge does not count for another permit. -/
lemma chargeOf_of_ne (h : k ≠ c.permit) : chargeOf k c = 0 := by
  apply inAccount_of_ne
  rw [Ne, some.injEq]
  exact fun heq => h heq.symm

/-- An allocation counts for its own reservation. -/
lemma retentionOf_self (h : r.reservation = some id) : retentionOf id r = r.privateBytes :=
  inAccount_of_eq h

/-- An allocation does not count for another reservation. -/
lemma retentionOf_of_ne (h : r.reservation ≠ some id) : retentionOf id r = 0 :=
  inAccount_of_ne h

/-! ## The invariant -/

/-- The counters of every live permit are right; every charge has a live permit; and identities
that are in use are not handed out again. -/
structure Accounted (s : Process) : Prop where
  /-- The counters of a live permit. -/
  permit : ∀ id p, s.permits.get? id = some p → p.Accounts (s.chargedTo id) (s.retainedUnder id)
  /-- A charge holds its permit. -/
  charge : ∀ c ∈ s.charges, ∃ p, s.permits.get? c.permit = some p
  /-- The permits are old identities. -/
  permit_lt : ∀ id p, s.permits.get? id = some p → id < s.nextId
  /-- So are the reservations of the allocations. -/
  retained_lt : ∀ r ∈ s.retained, ∀ id, r.reservation = some id → id < s.nextId

/-- The start of a process. -/
lemma accounted_init : Accounted {} where
  permit id p h := by simp at h
  charge c hc := by simp at hc
  permit_lt id p h := by simp at h
  retained_lt r hr := by simp at hr

variable {p' p : WorkPermit}

/-- A call that touches one permit: its new counters are right, the sums of the other permits are
the old ones, every charge has a permit, and no identity is new. -/
lemma Accounted.of_insert (h : s.Accounted) (hp : s.permits.get? id = some p)
    (hpermits : s'.permits = s.permits.insert id p') (hnext : s'.nextId = s.nextId)
    (hp' : p'.Accounts (s'.chargedTo id) (s'.retainedUnder id))
    (hother : ∀ k, k ≠ id → s'.chargedTo k = s.chargedTo k ∧ s'.retainedUnder k = s.retainedUnder k)
    (hcharges : ∀ c ∈ s'.charges, c.permit = id ∨ c ∈ s.charges)
    (hretained : ∀ r ∈ s'.retained, r.reservation = some id ∨ r ∈ s.retained) : s'.Accounted := by
  refine ⟨?_, ?_, ?_, ?_⟩
  · intro k q hq
    rw [hpermits, get?_insert] at hq
    split_ifs at hq with hk
    · cases hq
      rw [hk]
      exact hp'
    · obtain ⟨h₁, h₂⟩ := hother k hk
      rw [h₁, h₂]
      exact h.permit k q hq
  · intro c hc
    rw [hpermits]
    by_cases hk : c.permit = id
    · exact ⟨p', by rw [get?_insert, if_pos hk]⟩
    · obtain ⟨q, hq⟩ := h.charge c ((hcharges c hc).resolve_left hk)
      exact ⟨q, by rw [get?_insert, if_neg hk, hq]⟩
  · intro k q hq
    rw [hpermits, get?_insert] at hq
    rw [hnext]
    split_ifs at hq with hk
    · rw [hk]
      exact h.permit_lt id p hp
    · exact h.permit_lt k q hq
  · intro r hr k hk
    rw [hnext]
    rcases hretained r hr with hid | hold
    · rw [hid, some.injEq] at hk
      rw [← hk]
      exact h.permit_lt id p hp
    · exact h.retained_lt r hold k hk

/-- Only the permit changes. -/
lemma Accounted.insert_permit (h : s.Accounted) (hp : s.permits.get? id = some p)
    (hp' : p'.Accounts (s.chargedTo id) (s.retainedUnder id)) (account : MemoryState) :
    Accounted { s with account, permits := s.permits.insert id p' } :=
  h.of_insert hp rfl rfl hp' (fun _ _ => ⟨rfl, rfl⟩) (fun _ hc => .inr hc) fun _ hr => .inr hr

/-- Nothing that the invariant speaks of changes. -/
lemma Accounted.of_same (h : s.Accounted) (hpermits : s'.permits = s.permits)
    (hnext : s'.nextId = s.nextId) (hcharged : ∀ k, s'.chargedTo k = s.chargedTo k)
    (hunder : ∀ k, s'.retainedUnder k = s.retainedUnder k)
    (hcharges : ∀ c ∈ s'.charges, ∃ c₀ ∈ s.charges, c₀.permit = c.permit)
    (hretained : ∀ r ∈ s'.retained, r.reservation = none ∨ r ∈ s.retained) : s'.Accounted := by
  refine ⟨?_, ?_, ?_, ?_⟩
  · intro k q hq
    rw [hcharged, hunder]
    exact h.permit k q (hpermits ▸ hq)
  · intro c hc
    obtain ⟨c₀, hc₀, heq⟩ := hcharges c hc
    rw [hpermits, ← heq]
    exact h.charge c₀ hc₀
  · intro k q hq
    rw [hnext]
    exact h.permit_lt k q (hpermits ▸ hq)
  · intro r hr k hk
    rw [hnext]
    rcases hretained r hr with hnone | hold
    · rw [hnone] at hk
      cases hk
    · exact h.retained_lt r hold k hk

/-! ## Charges -/

/-- The sums after a charge is replaced by one of the same permit. -/
lemma chargedTo_set (hc : s.charges[i]? = some c) (c' : MemoryCharge)
    (hpermit : c'.permit = c.permit) (k : Id) :
    Ledger.total (chargeOf k) (s.charges.set i c') + (if k = c.permit then c.bytes else 0) =
      s.chargedTo k + (if k = c.permit then c'.bytes else 0) := by
  have hset := total_set (chargeOf k) hc c'
  by_cases hk : k = c.permit
  · rw [if_pos hk, if_pos hk]
    rw [hk, chargeOf_self, ← hpermit, chargeOf_self, hpermit] at hset
    rw [hk]
    exact hset
  · rw [if_neg hk, if_neg hk]
    rw [chargeOf_of_ne hk, chargeOf_of_ne (hpermit ▸ hk)] at hset
    exact hset

/-- The members of an updated list of charges. -/
lemma mem_charges_set (c' : MemoryCharge) (hc' : c'.permit = c.permit) {a : MemoryCharge}
    (ha : a ∈ s.charges.set i c') : a.permit = c.permit ∨ a ∈ s.charges := by
  rcases mem_or_eq_of_mem_set ha with hold | rfl
  · exact .inr hold
  · exact .inl hc'

/-- A charge and its permit change together. -/
lemma Accounted.putCharge (h : s.Accounted) (hc : s.charges[i]? = some c)
    (hp : s.permits.get? c.permit = some p) (hpermit : c'.permit = c.permit)
    (hp' : ∀ others, s.chargedTo c.permit = others + c.bytes →
      p'.Accounts (others + c'.bytes) (s.retainedUnder c.permit)) :
    (s.putCharge i c' p').Accounted := by
  refine h.of_insert hp (by rw [Process.putCharge, hpermit]) rfl ?_ ?_
    (fun a ha => mem_charges_set c' hpermit ha) fun _ hr => .inr hr
  · have hle : c.bytes ≤ s.chargedTo c.permit := by
      have := le_total (chargeOf c.permit) (mem_of_getElem? hc)
      rwa [chargeOf_self] at this
    have hset := chargedTo_set hc c' hpermit c.permit
    rw [if_pos rfl, if_pos rfl] at hset
    have hsum : (s.putCharge i c' p').chargedTo c.permit =
        (s.chargedTo c.permit - c.bytes) + c'.bytes := by
      show total (chargeOf c.permit) (s.charges.set i c') = _
      omega
    rw [hsum]
    exact hp' _ (by omega)
  · intro k hk
    have hset := chargedTo_set hc c' hpermit k
    rw [if_neg hk, if_neg hk, add_zero, add_zero] at hset
    exact ⟨hset, rfl⟩

/-- A charge is dropped. -/
lemma Accounted.dropCharge (h : s.Accounted) (i : ℕ) : (s.dropCharge i).Accounted := by
  unfold Process.dropCharge
  cases hc : s.charges[i]? with
  | none => exact h
  | some c =>
    obtain ⟨p, hp⟩ := h.charge c (mem_of_getElem? hc)
    simp only [hp]
    have herase := fun k => total_eraseIdx (chargeOf k) hc
    refine h.of_insert hp rfl rfl ?_ ?_ (fun a ha => .inr (mem_of_mem_eraseIdx ha))
      fun _ hr => .inr hr
    · apply WorkPermit.Accounts.subPrivate
      have hself := herase c.permit
      rw [chargeOf_self] at hself
      have hp' := h.permit _ p hp
      rw [Process.chargedTo, ← hself] at hp'
      exact hp'
    · intro k hk
      have hother := herase k
      rw [chargeOf_of_ne hk, add_zero] at hother
      exact ⟨hother, rfl⟩

/-- A new charge is taken, or refused. -/
lemma Accounted.takeCharge (h : s.Accounted) {bytes : ℕ} (hp : s.permits.get? id = some p)
    {outcome : Except Error MemoryCharge × WorkPermit} (houtcome : (∃ e, outcome = (.error e, p)) ∨
      ∃ q, p.addPrivate bytes = some q ∧ outcome = (.ok ⟨id, bytes⟩, q)) :
    (s.takeCharge id outcome).2.Accounted := by
  rcases houtcome with ⟨e, rfl⟩ | ⟨q, hadd, rfl⟩
  · exact h.insert_permit hp (h.permit id p hp) s.account
  · have hnew : ∀ k, total (chargeOf k) (s.charges ++ [⟨id, bytes⟩]) =
        s.chargedTo k + chargeOf k ⟨id, bytes⟩ := by
      intro k
      rw [total_append, total_cons, total_nil, add_zero]
      rfl
    refine h.of_insert hp rfl rfl ?_ ?_ ?_ fun _ hr => .inr hr
    · show q.Accounts (total (chargeOf id) (s.charges ++ [⟨id, bytes⟩])) _
      rw [hnew, chargeOf_self ⟨id, bytes⟩]
      exact (h.permit id p hp).addPrivate hadd
    · intro k hk
      refine ⟨?_, rfl⟩
      show total (chargeOf k) (s.charges ++ [⟨id, bytes⟩]) = _
      rw [hnew, chargeOf_of_ne hk, add_zero]
    · intro a ha
      rcases mem_append.mp ha with hold | hself
      · exact .inr hold
      · rw [mem_singleton.mp hself]
        exact .inl rfl

/-- A charge takes over the bytes of another one, which is dropped. -/
lemma Accounted.absorb (h : s.Accounted) {other other' : MemoryCharge} {j : ℕ}
    {result : Except Error Unit} (hc : s.charges[i]? = some c) (hother : s.charges[j]? = some other)
    (hij : i ≠ j) (habsorb : c.absorb other = (result, c', other')) :
    ({ s with charges := (s.charges.set i c').set j other' }.dropCharge j).Accounted := by
  -- in both outcomes the permits are those of before, and so are the sums for every permit
  have hsame : c'.permit = c.permit ∧ other'.permit = other.permit ∧ ∀ k,
      chargeOf k c' + chargeOf k other' = chargeOf k c + chargeOf k other := by
    rcases MemoryCharge.absorb_cases c other with ⟨e, he⟩ | ⟨hpermit, hok⟩
    · rw [he] at habsorb
      cases habsorb
      exact ⟨rfl, rfl, fun _ => rfl⟩
    · rw [hok] at habsorb
      cases habsorb
      refine ⟨rfl, rfl, fun k => ?_⟩
      unfold chargeOf inAccount
      simp only [some.injEq, hpermit]
      split_ifs <;> omega
  obtain ⟨hpc, hpo, hsum⟩ := hsame
  apply Accounted.dropCharge
  refine h.of_same rfl rfl (fun k => ?_) (fun _ => rfl) ?_ fun _ hr => .inr hr
  · have hother' : (s.charges.set i c')[j]? = some other := by
      rw [getElem?_set_ne hij, hother]
    have h₁ := total_set (chargeOf k) hc c'
    have h₂ := total_set (chargeOf k) hother' other'
    have h₃ := hsum k
    show total (chargeOf k) ((s.charges.set i c').set j other') =
      total (chargeOf k) s.charges
    omega
  · intro a ha
    rcases mem_or_eq_of_mem_set ha with hold | rfl
    · rcases mem_or_eq_of_mem_set hold with hold | rfl
      · exact ⟨a, hold, rfl⟩
      · exact ⟨c, mem_of_getElem? hc, hpc.symm⟩
    · exact ⟨other, mem_of_getElem? hother, hpo.symm⟩

/-! ## Retained allocations -/

/-- The sums after an allocation is entered. -/
lemma retained_append (s : Process) (r : RetainedMemory) (k : Id) :
    Ledger.total (retentionOf k) (s.retained ++ [r]) = s.retainedUnder k + retentionOf k r := by
  rw [total_append, total_cons, total_nil, add_zero]
  rfl

/-- A charge is retained, or refused; either way what is left of it is dropped. -/
lemma Accounted.retainCharge (h : s.Accounted) (hc : s.charges[i]? = some c)
    (hp : s.permits.get? c.permit = some p) (mapped : ℕ) (control : Control) :
    (s.retainCharge i c p mapped control).2.Accounted := by
  unfold Process.retainCharge
  have hself := h.permit _ p hp
  rcases MemoryCharge.retain_cases c p s.account mapped control with ⟨e, he⟩ | ⟨account, -, hok⟩
  · rw [he]
    apply Accounted.dropCharge
    refine Accounted.putCharge (h.of_same rfl rfl (fun _ => rfl) (fun _ => rfl)
      (fun a ha => ⟨a, ha, rfl⟩) fun _ hr => .inr hr) hc hp rfl ?_
    intro others hothers
    exact hothers ▸ hself
  · rw [hok]
    apply Accounted.dropCharge
    have hset := chargedTo_set hc { c with bytes := 0 } rfl
    refine h.of_insert hp rfl rfl ?_ ?_ (fun a ha => mem_charges_set { c with bytes := 0 } rfl ha) ?_
    · have hcharged := hset c.permit
      rw [if_pos rfl, if_pos rfl, add_zero] at hcharged
      show (p.retainCharge c.bytes).Accounts
        (total (chargeOf c.permit) (s.charges.set i { c with bytes := 0 }))
        (total (retentionOf c.permit) (s.retained ++ [⟨c.bytes, mapped, some c.permit⟩]))
      rw [retained_append, retentionOf_self rfl]
      apply WorkPermit.Accounts.retainCharge
      rw [hcharged]
      exact hself
    · intro k hk
      have hcharged := hset k
      rw [if_neg hk, if_neg hk, add_zero, add_zero] at hcharged
      refine ⟨hcharged, ?_⟩
      show total (retentionOf k) (s.retained ++ [⟨c.bytes, mapped, some c.permit⟩]) = _
      rw [retained_append, retentionOf_of_ne, add_zero]
      rw [Ne, some.injEq]
      exact fun heq => hk heq.symm
    · intro r hr
      rcases mem_append.mp hr with hold | hnew
      · exact .inr hold
      · rw [mem_singleton.mp hnew]
        exact .inl rfl

/-- An allocation whose permit is gone, or that never had one, is in nobody's counters. -/
lemma Accounted.eraseRetained (h : s.Accounted) (hr : s.retained[i]? = some r)
    (hgone : ∀ id, r.reservation = some id → s.permits.get? id = none) (account : MemoryState) :
    Accounted { s with account, retained := s.retained.eraseIdx i } := by
  refine ⟨?_, h.charge, h.permit_lt, fun a ha => h.retained_lt a (mem_of_mem_eraseIdx ha)⟩
  intro k q hq
  have hk : r.reservation ≠ some k := by
    intro heq
    rw [hgone k heq] at hq
    cases hq
  have hsum := total_eraseIdx (retentionOf k) hr
  rw [retentionOf_of_ne hk, add_zero] at hsum
  show q.Accounts _ (total (retentionOf k) (s.retained.eraseIdx i))
  rw [hsum]
  exact h.permit k q hq

/-- An allocation is dropped. -/
lemma Accounted.dropRetained (h : s.Accounted) (i : ℕ) : (s.dropRetained i).Accounted := by
  unfold Process.dropRetained
  cases hr : s.retained[i]? with
  | none => exact h
  | some r =>
    -- the state with the allocation struck out, but its permit not told yet
    set t : Process := { s with
      account := s.account.release r
      retained := s.retained.eraseIdx i } with ht
    show (t.releasePermit r).Accounted
    unfold releasePermit
    cases hid : r.reservation with
    | none => exact h.eraseRetained hr (fun id heq => by rw [hid] at heq; cases heq) _
    | some id =>
      show (t.mapPermit id fun p => p.releaseRetainedCharge r.privateBytes).Accounted
      cases hp : t.permits.get? id with
      | none =>
        rw [mapPermit_of_none hp]
        refine h.eraseRetained hr (fun k heq => ?_) _
        rw [hid, some.injEq] at heq
        rw [← heq, hp]
      | some p =>
        rw [mapPermit_of_some hp]
        refine h.of_insert hp rfl rfl ?_ ?_ (fun a ha => .inr ha) fun a ha =>
          .inr (mem_of_mem_eraseIdx ha)
        · apply WorkPermit.Accounts.releaseRetainedCharge
          have hsum := total_eraseIdx (retentionOf id) hr
          rw [retentionOf_self hid] at hsum
          show p.Accounts _ (total (retentionOf id) (s.retained.eraseIdx i) + r.privateBytes)
          rw [hsum]
          exact h.permit id p hp
        · intro k hk
          have hne : r.reservation ≠ some k := by
            rw [hid, Ne, some.injEq]
            exact fun heq => hk heq.symm
          have hsum := total_eraseIdx (retentionOf k) hr
          rw [retentionOf_of_ne hne, add_zero] at hsum
          exact ⟨rfl, hsum⟩

/-! ## Permits -/

/-- A permit is changed outside its counters. -/
lemma Accounted.mapPermit (h : s.Accounted) {f : WorkPermit → WorkPermit}
    (hf : ∀ p charged retained, WorkPermit.Accounts p charged retained →
      (f p).Accounts charged retained) : (s.mapPermit id f).Accounted := by
  cases hp : s.permits.get? id with
  | none => rwa [mapPermit_of_none hp]
  | some p =>
    rw [mapPermit_of_some hp]
    exact h.insert_permit hp (hf _ _ _ (h.permit id p hp)) s.account

/-- What `finish` leaves of a permit: its counters, and the account with or without coverage. -/
lemma finish_counters (id : Id) (account : MemoryState) (transaction : Except Error Unit)
    {charged retained : ℕ} (h : p.Accounts charged retained) :
    (p.finish id account transaction).2.1.Accounts charged retained := by
  rcases p.finish_cases id account transaction with ⟨e, he⟩ | ⟨-, ⟨e, he⟩ | hok⟩
  · rw [he]
    exact h
  · rw [he]
    exact h
  · rw [hok]
    exact h.of_counters rfl rfl rfl rfl

/-- A call on a permit keeps the counters right if it does so on a live one. -/
lemma Accounted.onPermit (h : s.Accounted) {f : WorkPermit → Except Error Unit × Process}
    (hf : ∀ p, s.permits.get? id = some p → (f p).2.Accounted) : (s.onPermit id f).2.Accounted := by
  unfold Process.onPermit
  cases hp : s.permits.get? id with
  | none => exact h
  | some p => exact hf p hp

/-- A call on a charge keeps the counters right if it does so on a live one and its permit. -/
lemma Accounted.onCharge (h : s.Accounted)
    {f : MemoryCharge → WorkPermit → Except Error Unit × Process}
    (hf : ∀ c p, s.charges[i]? = some c → s.permits.get? c.permit = some p →
      (f c p).2.Accounted) : (s.onCharge i f).2.Accounted := by
  unfold Process.onCharge
  cases hc : s.charges[i]? with
  | none => exact h
  | some c => exact h.onPermit fun p hp => hf c p hc hp

/-- A permit is finished, or refuses. -/
lemma Accounted.finish (h : s.Accounted) (id : Id) (transaction : Except Error Unit) :
    (s.finish id transaction).2.Accounted :=
  h.onPermit fun p hp =>
    h.insert_permit hp (finish_counters id s.account transaction (h.permit id p hp)) _

/-- Removing a permit that no charge holds. -/
lemma Accounted.erasePermit (h : s.Accounted) (hnone : ¬ ∃ c ∈ s.charges, c.permit = id) :
    Accounted { s with permits := s.permits.erase id } := by
  have hget : ∀ k q, (s.permits.erase id).get? k = some q → s.permits.get? k = some q := by
    intro k q hq
    rw [get?_erase] at hq
    split_ifs at hq
    exact hq
  refine ⟨fun k q hq => h.permit k q (hget k q hq), ?_,
    fun k q hq => h.permit_lt k q (hget k q hq), h.retained_lt⟩
  intro c hc
  obtain ⟨p, hp⟩ := h.charge c hc
  refine ⟨p, ?_⟩
  rw [get?_erase, if_neg fun heq => hnone ⟨c, hc, heq⟩]
  exact hp

/-- The charges are untouched by `finish`. -/
@[simp] lemma finish_charges (s : Process) (id : Id) (transaction : Except Error Unit) :
    (s.finish id transaction).2.charges = s.charges := by
  unfold Process.finish Process.onPermit
  cases s.permits.get? id <;> rfl

variable (h : s.Accounted)

include h

/-- A permit is gone. -/
lemma Accounted.dropPermit (id : Id) (transaction : Except Error Unit) :
    (s.dropPermit id transaction).Accounted := by
  unfold Process.dropPermit
  cases hp : s.permits.get? id with
  | none => exact h
  | some p =>
    simp only
    split_ifs with hheld hfinished
    · exact h
    · exact h.erasePermit hheld
    · refine (h.finish id transaction).erasePermit ?_
      rwa [finish_charges]

/-- A reservation is admitted. -/
lemma Accounted.reserve (privateLimit : ℕ) : (s.reserve privateLimit).Accounted := by
  have hnew : ∀ k q, (s.permits.insert s.nextId { privateLimit := privateLimit }).get? k = some q →
      (k = s.nextId ∧ q = { privateLimit := privateLimit }) ∨ s.permits.get? k = some q := by
    intro k q hq
    rw [get?_insert] at hq
    split_ifs at hq with hk
    · cases hq
      exact .inl ⟨hk, rfl⟩
    · exact .inr hq
  have hfresh : s.permits.get? s.nextId = none := by
    rw [eq_none_iff_forall_ne_some]
    intro p hp
    exact absurd (h.permit_lt _ p hp) (Nat.lt_irrefl _)
  refine ⟨?_, ?_, ?_, fun r hr k hk => Nat.lt_succ_of_lt (h.retained_lt r hr k hk)⟩
  · intro k q hq
    rcases hnew k q hq with ⟨rfl, rfl⟩ | hold
    · -- nothing is charged to a fresh identity, or retained under it
      have hcharged : s.chargedTo s.nextId = 0 := by
        refine total_of_forall_eq_zero fun c hc => chargeOf_of_ne fun heq => ?_
        obtain ⟨p, hp⟩ := h.charge c hc
        rw [← heq, hfresh] at hp
        cases hp
      have hunder : s.retainedUnder s.nextId = 0 := by
        refine total_of_forall_eq_zero fun r hr => retentionOf_of_ne fun heq => ?_
        exact absurd (h.retained_lt r hr _ heq) (Nat.lt_irrefl _)
      show WorkPermit.Accounts _ (s.chargedTo s.nextId) (s.retainedUnder s.nextId)
      rw [hcharged, hunder]
      have hsize : 0 < size := by decide
      exact ⟨rfl, rfl, Nat.zero_le _, Nat.zero_le _, hsize⟩
    · exact h.permit k q hold
  · intro c hc
    obtain ⟨p, hp⟩ := h.charge c hc
    by_cases hk : c.permit = s.nextId
    · rw [hk, hfresh] at hp
      cases hp
    · refine ⟨p, ?_⟩
      show (s.permits.insert s.nextId { privateLimit := privateLimit }).get? c.permit = some p
      rw [get?_insert, if_neg hk]
      exact hp
  · intro k q hq
    rcases hnew k q hq with ⟨rfl, -⟩ | hold
    · exact Nat.lt_succ_self _
    · exact Nat.lt_succ_of_lt (h.permit_lt k q hold)

/-- An allocation outside every reservation is in nobody's counters. -/
lemma Accounted.enterUnreserved (account : MemoryState)
    (hr : r.reservation = none) : Accounted { s with account, retained := s.retained ++ [r] } := by
  refine h.of_same rfl rfl (fun _ => rfl) (fun k => ?_) (fun c hc => ⟨c, hc, rfl⟩) ?_
  · show total (retentionOf k) (s.retained ++ [r]) = s.retainedUnder k
    rw [retained_append, retentionOf_of_ne, add_zero]
    rw [hr]
    exact (some_ne_none k).symm
  · intro a ha
    rcases mem_append.mp ha with hold | hnew
    · exact .inr hold
    · rw [mem_singleton.mp hnew]
      exact .inl hr

/-- Only the account changes. -/
lemma Accounted.setAccount (account : MemoryState) : Accounted { s with account } :=
  ⟨h.permit, h.charge, h.permit_lt, h.retained_lt⟩

/-! ## Runs -/

/-- A charge grows, or is refused. -/
lemma Accounted.grow (i bytes : ℕ) (control : Control) : (s.grow i bytes control).2.Accounted := by
  apply h.onCharge
  intro c p hc hp
  have hself := h.permit _ p hp
  rcases c.grow_cases p bytes control with ⟨e, he⟩ | ⟨q, hadd, hok⟩
  · rw [he]
    exact h.putCharge hc hp rfl fun others hothers => hothers ▸ hself
  · rw [hok]
    refine h.putCharge hc hp rfl fun others hothers => ?_
    rw [hothers] at hself
    show q.Accounts (others + (c.bytes + bytes)) _
    rw [← add_assoc]
    exact hself.addPrivate hadd

/-- A charge grows or shrinks to a size, or is refused. -/
lemma Accounted.resize (i bytes : ℕ) (control : Control) :
    (s.resize i bytes control).2.Accounted := by
  apply h.onCharge
  intro c p hc hp
  have hself := h.permit _ p hp
  rcases c.resize_cases p bytes control with ⟨e, he⟩ | ⟨hlt, q, hadd, hok⟩ | ⟨hle, hok⟩
  · rw [he]
    exact h.putCharge hc hp rfl fun others hothers => hothers ▸ hself
  · rw [hok]
    refine h.putCharge hc hp rfl fun others hothers => ?_
    rw [hothers] at hself
    have hgrown := hself.addPrivate hadd
    rwa [add_assoc, Nat.add_sub_cancel' (Nat.le_of_lt hlt)] at hgrown
  · rw [hok]
    refine h.putCharge hc hp rfl fun others hothers => ?_
    have hbytes : others + c.bytes = (others + bytes) + (c.bytes - bytes) := by omega
    rw [hothers, hbytes] at hself
    exact hself.subPrivate

/-- Two charges are joined, or the second one is dropped. -/
lemma Accounted.absorbCall (i j : ℕ) : (s.absorb i j).2.Accounted := by
  unfold Process.absorb
  cases hc : s.charges[i]? with
  | none => exact h
  | some c =>
    cases ho : s.charges[j]? with
    | none => exact h
    | some other =>
      simp only
      split_ifs with hij
      · exact h
      · exact h.absorb hc ho hij rfl

/-- An allocation outside every reservation is made, or refused. -/
lemma Accounted.retainUnreserved (privateBytes mapped : ℕ) (active : List Id) (reserved limit : ℕ) :
    (s.retainUnreserved privateBytes mapped active reserved limit).2.Accounted := by
  unfold Process.retainUnreserved
  rcases s.account.retainUnreserved_cases privateBytes mapped active reserved limit with
    ⟨e, he⟩ | ⟨account, -, hok⟩
  · rw [he]
    exact h.setAccount _
  · rw [hok]
    exact h.enterUnreserved account rfl

/-- **The step lemma**: every call keeps the counters right. -/
theorem Accounted.step (call : Call) : (s.step call).Accounted := by
  cases call with
  | reserve privateLimit => exact h.reserve privateLimit
  | memory id bytes control =>
    exact h.onPermit fun p hp => h.takeCharge hp (p.memory_cases id bytes control)
  | tryMemory id bytes =>
    exact h.onPermit fun p hp => h.takeCharge hp (p.tryMemory_cases id bytes)
  | grow i bytes control => exact h.grow i bytes control
  | resize i bytes control => exact h.resize i bytes control
  | absorb i j => exact h.absorbCall i j
  | retain i mapped control =>
    exact h.onCharge fun c p hc hp => h.retainCharge hc hp mapped control
  | dropCharge i => exact h.dropCharge i
  | retainUnreserved privateBytes mapped active reserved limit =>
    exact h.retainUnreserved privateBytes mapped active reserved limit
  | dropRetained i => exact h.dropRetained i
  | failInventory id => exact h.mapPermit fun p _ _ hp => hp.of_counters rfl rfl rfl rfl
  | finish id transaction => exact h.finish id transaction
  | dropPermit id transaction => exact h.dropPermit id transaction
  | recover id => exact h.setAccount _
  | usage active => exact h.setAccount _

omit h

/-- The counters of every live permit are right in every state that a process reaches. -/
lemma accounted_run (calls : List Call) : (run calls).Accounted :=
  Run.invariant (fun _ call h _ => h.step call) accounted_init
    (Run.AllSteps.of_forall (fun _ _ => trivial) _ calls)

end Process

end Tgrep.Managed
