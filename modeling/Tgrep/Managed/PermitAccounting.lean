import Tgrep.Managed.PermitRun

/-!
# The accounting of a permit along a run

The counters of a permit are right in every state. Here the states of a run are compared: the
peak of a permit never falls, so it is at least every value that its private bytes had.

## Main definitions

* `Process.Later`: how the permits of a later state of a process compare with the earlier ones.

## Main results

* `Process.later_run`: a run leads to a later state.
* `Process.permit_accounting`: the counters of a permit, its limit and its peak along a run, and
  what a refused `grow` and a successful `finish` imply.

## Implementation notes

A successful `finish` compares two counters, so it cannot see a live charge of zero bytes
(`Process.finish_zero_charge`).
-/

namespace Tgrep.Managed

open FinMap

namespace Process

variable {s s' : Process} {id : Id} {i : ℕ}

/-! ## The peak along a run -/

/-- A later state of a process: an old permit that still lives was there before, with a peak that
was not higher. -/
structure Later (s s' : Process) : Prop where
  /-- Identities are handed out in order. -/
  nextId : s.nextId ≤ s'.nextId
  /-- The old permits that still live. -/
  permit : ∀ id p', id < s.nextId → s'.permits.get? id = some p' →
    ∃ p, s.permits.get? id = some p ∧ p.peakPrivateBytes ≤ p'.peakPrivateBytes

/-- A state is a later state of itself. -/
lemma Later.refl (s : Process) : s.Later s := ⟨le_rfl, fun _ p' _ h => ⟨p', h, le_rfl⟩⟩

/-- Being later is transitive. -/
lemma Later.trans {s₁ s₂ s₃ : Process} (h₁ : s₁.Later s₂) (h₂ : s₂.Later s₃) : s₁.Later s₃ := by
  refine ⟨h₁.nextId.trans h₂.nextId, fun id p₃ hid h₃ => ?_⟩
  obtain ⟨p₂, hp₂, hle₂⟩ := h₂.permit id p₃ (hid.trans_le h₁.nextId) h₃
  obtain ⟨p₁, hp₁, hle₁⟩ := h₁.permit id p₂ hid hp₂
  exact ⟨p₁, hp₁, hle₁.trans hle₂⟩

variable {bytes : ℕ} {p : WorkPermit}

/-- One permit changes, and its peak does not fall. -/
lemma Later.of_insert {p' : WorkPermit} (hp : s.permits.get? id = some p)
    (hpermits : s'.permits = s.permits.insert id p') (hnext : s'.nextId = s.nextId)
    (hpeak : p.peakPrivateBytes ≤ p'.peakPrivateBytes) : s.Later s' := by
  refine ⟨hnext.ge, fun k q _ hq => ?_⟩
  rw [hpermits, get?_insert] at hq
  split_ifs at hq with hk
  · cases hq
    rw [hk]
    exact ⟨p, hp, hpeak⟩
  · exact ⟨q, hq, le_rfl⟩

/-- No permit changes. -/
lemma Later.of_permits_eq (hpermits : s'.permits = s.permits) (hnext : s'.nextId = s.nextId) :
    s.Later s' :=
  ⟨hnext.ge, fun _ q _ hq => ⟨q, hpermits ▸ hq, le_rfl⟩⟩

/-- Adding bytes does not lower the peak. -/
lemma peak_addPrivate {q : WorkPermit} (h : p.addPrivate bytes = some q) :
    p.peakPrivateBytes ≤ q.peakPrivateBytes := by
  unfold WorkPermit.addPrivate at h
  split at h
  · cases h
  · split_ifs at h
    cases h
    exact le_max_left _ _

/-- A call on a permit leads to a later state if it does so on a live one. -/
lemma Later.onPermit {f : WorkPermit → Except Error Unit × Process}
    (hf : ∀ p, s.permits.get? id = some p → s.Later (f p).2) : s.Later (s.onPermit id f).2 := by
  unfold Process.onPermit
  cases hp : s.permits.get? id with
  | none => exact Later.refl s
  | some p => exact hf p hp

/-- A call on a charge leads to a later state if it does so on a live one and its permit. -/
lemma Later.onCharge {f : MemoryCharge → WorkPermit → Except Error Unit × Process}
    (hf : ∀ c p, s.permits.get? c.permit = some p → s.Later (f c p).2) :
    s.Later (s.onCharge i f).2 := by
  unfold Process.onCharge
  cases s.charges[i]? with
  | none => exact Later.refl s
  | some c => exact Later.onPermit fun p hp => hf c p hp

/-- Taking a new charge. -/
lemma Later.takeCharge (hp : s.permits.get? id = some p)
    {outcome : Except Error MemoryCharge × WorkPermit} (houtcome : (∃ e, outcome = (.error e, p)) ∨
      ∃ q, p.addPrivate bytes = some q ∧ outcome = (.ok ⟨id, bytes⟩, q)) :
    s.Later (s.takeCharge id outcome).2 := by
  rcases houtcome with ⟨e, rfl⟩ | ⟨q, hadd, rfl⟩
  · exact Later.of_insert hp rfl rfl le_rfl
  · exact Later.of_insert hp rfl rfl (peak_addPrivate hadd)

/-- Dropping a charge. -/
lemma Later.dropCharge (s : Process) (i : ℕ) : s.Later (s.dropCharge i) := by
  unfold Process.dropCharge
  cases s.charges[i]? with
  | none => exact Later.refl s
  | some c =>
    cases hp : s.permits.get? c.permit with
    | none =>
      simp only [hp]
      exact Later.refl s
    | some p =>
      simp only [hp]
      exact Later.of_insert hp rfl rfl le_rfl

/-- A later state, then dropping a charge there. -/
lemma Later.then_dropCharge {t : Process} (h : s.Later t) (i : ℕ) : s.Later (t.dropCharge i) :=
  h.trans (Later.dropCharge t i)

/-- Changing a permit outside its peak. -/
lemma Later.mapPermit {f : WorkPermit → WorkPermit}
    (hf : ∀ p, (f p).peakPrivateBytes = p.peakPrivateBytes) : s.Later (s.mapPermit id f) := by
  cases hp : s.permits.get? id with
  | none =>
    rw [mapPermit_of_none hp]
    exact Later.refl s
  | some p =>
    rw [mapPermit_of_some hp]
    exact Later.of_insert hp rfl rfl (hf p).ge

/-- Finishing a permit. -/
lemma Later.finish (s : Process) (id : Id) (transaction : Except Error Unit) :
    s.Later (s.finish id transaction).2 := by
  refine Later.onPermit fun p hp => ?_
  rcases p.finish_cases id s.account transaction with ⟨e, he⟩ | ⟨-, ⟨e, he⟩ | hok⟩
  · rw [he]
    exact Later.of_insert hp rfl rfl le_rfl
  · rw [he]
    exact Later.of_insert hp rfl rfl le_rfl
  · rw [hok]
    exact Later.of_insert hp rfl rfl le_rfl

/-- Removing a permit. -/
lemma Later.erasePermit (s : Process) (id : Id) :
    s.Later { s with permits := s.permits.erase id } := by
  refine ⟨le_rfl, fun k q _ hq => ⟨q, ?_, le_rfl⟩⟩
  simp only [get?_erase] at hq
  split_ifs at hq
  exact hq

/-- Dropping a retained allocation. -/
lemma Later.dropRetained (s : Process) (i : ℕ) : s.Later (s.dropRetained i) := by
  unfold Process.dropRetained
  cases s.retained[i]? with
  | none => exact Later.refl s
  | some r =>
    set t : Process := { s with
      account := s.account.release r
      retained := s.retained.eraseIdx i } with ht
    have hst : s.Later t := Later.of_permits_eq rfl rfl
    show s.Later (t.releasePermit r)
    unfold releasePermit
    cases r.reservation with
    | none => exact hst
    | some id => exact hst.trans (Later.mapPermit fun p => rfl)

/-- Every call leads to a later state. -/
lemma Later.step (s : Process) (call : Call) : s.Later (s.step call) := by
  cases call with
  | reserve privateLimit =>
    refine ⟨Nat.le_succ _, fun k q hk hq => ?_⟩
    have hget : (s.permits.insert s.nextId { privateLimit := privateLimit }).get? k = some q := hq
    rw [get?_insert, if_neg (Nat.ne_of_lt hk)] at hget
    exact ⟨q, hget, le_rfl⟩
  | memory id bytes control =>
    exact Later.onPermit fun p hp => Later.takeCharge hp (p.memory_cases id bytes control)
  | tryMemory id bytes =>
    exact Later.onPermit fun p hp => Later.takeCharge hp (p.tryMemory_cases id bytes)
  | grow i bytes control =>
    refine Later.onCharge fun c p hp => ?_
    rcases c.grow_cases p bytes control with ⟨e, he⟩ | ⟨q, hadd, hok⟩
    · rw [he]
      exact Later.of_insert hp rfl rfl le_rfl
    · rw [hok]
      exact Later.of_insert hp rfl rfl (peak_addPrivate hadd)
  | resize i bytes control =>
    refine Later.onCharge fun c p hp => ?_
    rcases c.resize_cases p bytes control with ⟨e, he⟩ | ⟨-, q, hadd, hok⟩ | ⟨-, hok⟩
    · rw [he]
      exact Later.of_insert hp rfl rfl le_rfl
    · rw [hok]
      exact Later.of_insert hp rfl rfl (peak_addPrivate hadd)
    · rw [hok]
      exact Later.of_insert hp rfl rfl le_rfl
  | absorb i j =>
    show s.Later (s.absorb i j).2
    unfold Process.absorb
    cases s.charges[i]? with
    | none => exact Later.refl s
    | some c =>
      cases s.charges[j]? with
      | none => exact Later.refl s
      | some other =>
        simp only
        split_ifs
        · exact Later.refl s
        · apply Later.then_dropCharge
          exact Later.of_permits_eq rfl rfl
  | retain i mapped control =>
    refine Later.onCharge fun c p hp => ?_
    unfold Process.retainCharge
    rcases c.retain_cases p s.account mapped control with ⟨e, he⟩ | ⟨account, -, hok⟩
    · rw [he]
      apply Later.then_dropCharge
      exact Later.of_insert hp rfl rfl le_rfl
    · rw [hok]
      apply Later.then_dropCharge
      exact Later.of_insert hp rfl rfl le_rfl
  | dropCharge i => exact Later.dropCharge s i
  | retainUnreserved privateBytes mapped active reserved limit =>
    show s.Later (s.retainUnreserved privateBytes mapped active reserved limit).2
    unfold Process.retainUnreserved
    rcases s.account.retainUnreserved_cases privateBytes mapped active reserved limit with
      ⟨e, he⟩ | ⟨account, -, hok⟩
    · rw [he]
      exact Later.of_permits_eq rfl rfl
    · rw [hok]
      exact Later.of_permits_eq rfl rfl
  | dropRetained i => exact Later.dropRetained s i
  | failInventory id => exact Later.mapPermit fun p => rfl
  | finish id transaction => exact Later.finish s id transaction
  | dropPermit id transaction =>
    show s.Later (s.dropPermit id transaction)
    unfold Process.dropPermit
    cases s.permits.get? id with
    | none => exact Later.refl s
    | some p =>
      simp only
      split_ifs
      · exact Later.refl s
      · exact Later.erasePermit s id
      · exact (Later.finish s id transaction).trans (Later.erasePermit _ id)
  | recover id => exact Later.of_permits_eq rfl rfl
  | usage active => exact Later.of_permits_eq rfl rfl

/-- A run leads to a later state. -/
lemma later_run (before after : List Call) : (run before).Later (run (before ++ after)) := by
  unfold run
  rw [List.foldl_append]
  exact Run.invariant (fun t call h _ => h.trans (Later.step t call)) (Later.refl _)
    (Run.AllSteps.of_forall (fun _ _ => trivial) _ after)

/-! ## The accounting of a permit -/

/-- A refused `grow` changes nothing: neither the charge, nor its permit, nor anything else. -/
lemma grow_refused {control : Control} {e : Error} (h : (s.grow i bytes control).1 = .error e) :
    (s.grow i bytes control).2.charges = s.charges ∧
      (∀ k, (s.grow i bytes control).2.permits.get? k = s.permits.get? k) ∧
      (s.grow i bytes control).2.retained = s.retained ∧
      (s.grow i bytes control).2.account = s.account := by
  unfold Process.grow Process.onCharge Process.onPermit at h ⊢
  cases hc : s.charges[i]? with
  | none => exact ⟨rfl, fun _ => rfl, rfl, rfl⟩
  | some c =>
    simp only [hc] at h ⊢
    cases hp : s.permits.get? c.permit with
    | none => exact ⟨rfl, fun _ => rfl, rfl, rfl⟩
    | some p =>
      simp only [hp] at h ⊢
      rcases c.grow_cases p bytes control with ⟨e', he⟩ | ⟨q, -, hok⟩
      · rw [he]
        obtain ⟨hi, hget⟩ := List.getElem?_eq_some_iff.mp hc
        refine ⟨?_, fun k => ?_, rfl, rfl⟩
        · show s.charges.set i c = s.charges
          rw [← hget]
          exact List.set_getElem_self hi
        · show (s.permits.insert c.permit p).get? k = s.permits.get? k
          rw [get?_insert]
          split_ifs with hk
          · rw [hk, hp]
          · rfl
      · rw [hok] at h
        cases h

/-- When `finish` succeeds on a permit whose counters are right, its live charges hold nothing. -/
lemma bytes_eq_zero_of_finish (hs : s.Accounted) (hp : s.permits.get? id = some p)
    {transaction : Except Error Unit} (h : (s.finish id transaction).1 = .ok ()) :
    ∀ c ∈ s.charges, c.permit = id → c.bytes = 0 := by
  have hself := hs.permit id p hp
  have hcounters : p.privateBytes = p.retainedPrivateBytes := by
    unfold Process.finish Process.onPermit at h
    simp only [hp] at h
    rcases p.finish_cases id s.account transaction with ⟨e, he⟩ | ⟨hcounters, -⟩
    · rw [he] at h
      cases h
    · exact hcounters
  have hcharged : s.chargedTo id = 0 := by
    have h₁ := hself.privateBytes
    have h₂ := hself.retainedPrivateBytes
    omega
  intro c hc hid
  have hzero := Ledger.total_eq_zero.mp hcharged c hc
  rwa [← hid, chargeOf_self] at hzero

/-- **The accounting of a permit.** After every run of calls, in any order, a live permit has
recorded exactly the bytes of its live charges and of the live allocations retained under it,
within its limit; the retained ones are counted on their own; its peak is at least every value
that the private bytes had along the run; a refused `grow` leaves everything as it was; and
`finish` succeeds only when every live charge of the permit holds zero bytes. -/
theorem permit_accounting (calls : List Call) (id : Id) (p : WorkPermit)
    (hp : (run calls).permits.get? id = some p) :
    p.privateBytes = (run calls).chargedTo id + (run calls).retainedUnder id ∧
      p.privateBytes ≤ p.privateLimit ∧
      p.retainedPrivateBytes = (run calls).retainedUnder id ∧
      (∀ before after q, calls = before ++ after → (run before).permits.get? id = some q →
        q.privateBytes ≤ p.peakPrivateBytes) ∧
      (∀ i bytes control e, ((run calls).grow i bytes control).1 = .error e →
        ((run calls).grow i bytes control).2.charges = (run calls).charges ∧
          (∀ k, ((run calls).grow i bytes control).2.permits.get? k =
            (run calls).permits.get? k) ∧
          ((run calls).grow i bytes control).2.retained = (run calls).retained ∧
          ((run calls).grow i bytes control).2.account = (run calls).account) ∧
      ∀ transaction, ((run calls).finish id transaction).1 = .ok () →
        ∀ c ∈ (run calls).charges, c.permit = id → c.bytes = 0 := by
  have hrun := accounted_run calls
  have hself := hrun.permit id p hp
  refine ⟨hself.privateBytes, hself.limit, hself.retainedPrivateBytes, ?_,
    fun i bytes control e h => grow_refused h,
    fun transaction h => bytes_eq_zero_of_finish hrun hp h⟩
  intro before after q hcalls hq
  have hbefore := accounted_run before
  rw [hcalls] at hp
  obtain ⟨q', hq', hpeak⟩ :=
    (later_run before after).permit id p (hbefore.permit_lt id q hq) hp
  rw [hq, Option.some.injEq] at hq'
  rw [hq'] at hq
  exact (hbefore.permit id q (hq' ▸ hq)).peak.trans (hq' ▸ hpeak)

/-- A permit with a charge, an allocation and a charge that it refused. -/
theorem permit_accounting_single :
    5 = (run [.reserve 10, .memory 0 3 {}, .memory 0 2 {}, .retain 0 0 {},
        .memory 0 6 {}]).chargedTo 0 +
      (run [.reserve 10, .memory 0 3 {}, .memory 0 2 {}, .retain 0 0 {},
        .memory 0 6 {}]).retainedUnder 0 :=
  (permit_accounting _ 0 ⟨10, 5, 3, 5, false, false⟩ (by decide)).1

/-- A permit can be finished while a charge of zero bytes is live. -/
theorem finish_zero_charge :
    ((run [.reserve 10, .memory 0 0 {}]).finish 0 (.ok ())).1 = .ok () ∧
      (run [.reserve 10, .memory 0 0 {}]).charges = [⟨0, 0⟩] := by
  constructor <;> rfl

end Process

end Tgrep.Managed
