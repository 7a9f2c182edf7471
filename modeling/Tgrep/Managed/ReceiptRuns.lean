import Tgrep.Managed.ReceiptStability

/-!
# Terminal receipts stay along all runs

## Main definitions

* `ReceiptWrites.Inv`: the invariant of all runs.
* `ReceiptWrites.Sound`: a recovery pass saves only while the receipt is as it has read it.

## Main results

* `ReceiptWrites.Inv.apply`: one step.
* `ReceiptWrites.terminal_receipt_stays`: a terminal receipt stays, and one of an operation whose
  effect is committed says so.
-/

namespace Tgrep.Managed

open List Option

namespace ReceiptWrites

open Threads Operations

variable {ρ δ : Type} {s : Row ρ δ} {r r' r'' : Receipt ρ δ} {answer : Answer ρ} {a : Task ρ δ}
  {out : Outcome (Row ρ δ) (Task ρ δ) Unit}

/-! ## All runs -/

/-- A receipt that follows another one. -/
def Follows (x y : Option (Receipt ρ δ)) : Prop :=
  ∀ r', y = some r' → ∃ r, x = some r ∧ Stays r r' ∧ r'.kind = r.kind

lemma Follows.refl (x : Option (Receipt ρ δ)) : Follows x x :=
  fun r hr => ⟨r, hr, Stays.refl r, rfl⟩

lemma Follows.trans {x y z : Option (Receipt ρ δ)} (h : Follows x y) (h' : Follows y z) :
    Follows x z := by
  intro r'' hr''
  obtain ⟨r', hr', hstays', hkind'⟩ := h' r'' hr''
  obtain ⟨r, hr, hstays, hkind⟩ := h r' hr'
  exact ⟨r, hr, hstays.trans hkind hstays', hkind'.trans hkind⟩

/-- The invariant of all runs. -/
structure Inv (c : State ρ δ) : Prop where
  /-- One executor at a time. -/
  single : total Task.executes c.threads ≤ 1
  kept : Kept c.shared
  fits : ∀ r, c.shared.receipt = some r → ¬ Has (fun a => ¬ a.Fits c.shared.effect r) c.threads
  copies : ¬ Has (fun a => ¬ a.Copies) c.threads
  before : ∀ r, c.shared.receipt = some r → r.process ≤ c.shared.process
  /-- A recovery that is not at work and can start again changed nothing, or is over. -/
  rest : ∀ r, c.shared.receipt = some r → total Task.executes c.threads = 0 →
    r.kind = "recovery" → r.process = c.shared.process → c.shared.effect = true →
      r.state.terminal = true

/-- A recovery pass saves only while the receipt is as it has read it, and nothing executes the
operation. -/
def Sound (c : State ρ δ) : Move ρ → Prop
  | .task tid _ => ∀ copy expired rest, c.threads[tid]? = some (.scanSave copy expired :: rest) →
      total Task.executes c.threads = 0 ∧ ∀ r, c.shared.receipt = some r → r = copy
  | _ => True

variable {effect : Bool} {tid : ℕ} {rest : List (Task ρ δ)} {c : State ρ δ}

/-- Tasks that do not execute rely on nothing. -/
lemma Task.Fits.of_rests (h : a.executes = 0) : a.Fits effect r := by
  cases a
  all_goals trivial

lemma Inv.accepted (r : Receipt ρ δ) : Inv (accepted r) := by
  refine ⟨Nat.zero_le _, fun r' hr' => ?_, fun _ _ => not_has_nil _, not_has_nil _,
    fun r' hr' => ?_, fun _ _ _ _ _ h => nomatch h⟩
  · obtain rfl := some.inj hr'
    exact ⟨(fun h => nomatch h), fun h => nomatch h⟩
  · obtain rfl := some.inj hr'
    exact le_rfl

/-- When there is no executor, no task relies on anything. -/
lemma fits_of_rest {threads : List (List (Task ρ δ))} (h : total Task.executes threads = 0) :
    ¬ Has (fun a => ¬ a.Fits effect r) threads := by
  intro hhas
  have hpos : 0 < total Task.executes threads := total_pos_iff.mpr (hhas.mono fun a ha => by
    by_contra hrests
    exact ha (Task.Fits.of_rests (Nat.eq_zero_of_not_pos hrests)))
  omega

/-- **A step of the executor.** -/
theorem Inv.works (h : Inv c) (hthread : c.threads[tid]? = some (a :: rest))
    (hone : a.executes = 1) (hout : exec c.shared answer a = some out) :
    Inv ⟨out.shared, c.threads.set tid (out.next ++ rest) ++ out.spawned⟩ ∧
      Follows c.shared.receipt out.shared.receipt := by
  have hfits : ∀ r, c.shared.receipt = some r → a.Fits c.shared.effect r := fun r hr => by
    by_contra hnot
    exact h.fits r hr (Has.of_head hthread hnot)
  have hw := exec_works hone h.kept hfits hout
  have hbefore : ∀ r', out.shared.receipt = some r' → ∃ r, c.shared.receipt = some r ∧
      Advances out.shared.effect out.next r r' := by
    intro r' hr'
    cases hr : c.shared.receipt with
    | none =>
      rw [hw.gone hr] at hr'
      cases hr'
    | some r =>
      obtain ⟨r₁, hr₁, hadv⟩ := hw.advances r hr
      rw [hr₁, some.injEq] at hr'
      exact ⟨r, rfl, hr' ▸ hadv⟩
  -- without the executor nothing executes
  have hothers : total Task.executes (c.threads.set tid rest) = 0 ∧
      total Task.executes c.threads = 1 := by
    have hsum := @total_replace _ Task.executes _ _ [] _ _ [] hthread
    rw [append_nil, nil_append] at hsum
    have hsingle := h.single
    simp only [map_nil, sum_nil, total_nil] at hsum
    omega
  have hsum := @total_replace _ Task.executes _ _ out.next _ _ [] hthread
  have hsingle := h.single
  simp only [total_nil] at hsum
  rw [hw.spawned]
  refine ⟨⟨?_, fun r' hr' => ?_, fun r' hr' hhas => ?_, fun hhas => ?_, fun r' hr' => ?_,
    fun r' hr' hrest hkind hprocess heffect => ?_⟩, fun r' hr' => ?_⟩
  · have hnext : (out.next.map Task.executes).sum ≤ 1 := by
      rcases hw.single with hnil | ⟨b, hb, hbone⟩
      · simp [hnil]
      · simp [hb, hbone]
    dsimp only
    omega
  · obtain ⟨r, -, hadv⟩ := hbefore r' hr'
    exact ⟨hadv.reports, hadv.told⟩
  · obtain ⟨r, -, hadv⟩ := hbefore r' hr'
    rw [append_nil] at hhas
    rcases hhas.of_set with ⟨b, hb, hnot⟩ | hhas
    · exact hnot (hadv.fits b hb)
    · exact fits_of_rest hothers.1 hhas
  · rcases hhas.before hthread with hhas | ⟨b, hb, hnot⟩ | hhas
    · exact h.copies hhas
    · rcases hw.single with hnil | ⟨b', hb', hbone⟩
      · rw [hnil] at hb
        cases hb
      · rw [hb', mem_singleton] at hb
        subst hb
        cases b
        all_goals first | exact hnot trivial | cases hbone
    · exact not_has_nil _ hhas
  · obtain ⟨r, hr, hadv⟩ := hbefore r' hr'
    dsimp only
    rw [hadv.process, hw.process]
    exact h.before r hr
  · obtain ⟨r, hr, hadv⟩ := hbefore r' hr'
    refine hadv.ended ?_ (hadv.kind ▸ hkind) heffect
    rcases hw.single with hnil | ⟨b, hb, hbone⟩
    · exact hnil
    · dsimp only at hrest
      rw [hb] at hsum hrest
      simp only [map_cons, map_nil, sum_cons, sum_nil] at hsum
      have hsome := hothers.2
      omega
  · obtain ⟨r, hr, hadv⟩ := hbefore r' hr'
    exact ⟨r, hr, hadv.stays, hadv.kind⟩

/-- **A step that only asks the operation to stop.** -/
theorem Inv.stands (h : Inv c) (hthread : c.threads[tid]? = some (a :: rest))
    (hrests : a.executes = 0) (hs : Stands c.shared out) :
    Inv ⟨out.shared, c.threads.set tid (out.next ++ rest) ++ out.spawned⟩ ∧
      Follows c.shared.receipt out.shared.receipt := by
  have hsum := @total_replace _ Task.executes _ _ out.next _ _ [] hthread
  rw [hrests, hs.rests, total_nil] at hsum
  rw [hs.spawned]
  refine ⟨⟨?_, fun r' hr' => ?_, fun r' hr' hhas => ?_, fun hhas => ?_, fun r' hr' => ?_,
    fun r' hr' hrest hkind hprocess heffect => ?_⟩, fun r' hr' => ?_⟩
  · have hsingle := h.single
    dsimp only
    omega
  · obtain ⟨r, hr, hasked⟩ := hs.asked r' hr'
    rw [hs.effect]
    exact ⟨hasked.reports (h.kept r hr).1, hasked.told (h.kept r hr).2⟩
  · obtain ⟨r, hr, hasked⟩ := hs.asked r' hr'
    dsimp only at hhas
    rw [hs.effect] at hhas
    rcases hhas.before hthread with hhas | ⟨b, hb, hnot⟩ | hhas
    · exact h.fits r hr (hhas.mono fun b hnot hfits => hnot (hasked.fits hfits))
    · refine hnot (Task.Fits.of_rests ?_)
      exact sum_eq_zero_iff.mp hs.rests _ (mem_map_of_mem hb)
    · exact not_has_nil _ hhas
  · rcases hhas.before hthread with hhas | ⟨b, hb, hnot⟩ | hhas
    · exact h.copies hhas
    · exact hnot (hs.copies b hb)
    · exact not_has_nil _ hhas
  · obtain ⟨r, hr, hasked⟩ := hs.asked r' hr'
    dsimp only
    rw [hasked.process, hs.process]
    exact h.before r hr
  · obtain ⟨r, hr, hasked⟩ := hs.asked r' hr'
    dsimp only at hrest hprocess heffect
    rw [hasked.terminal]
    refine h.rest r hr (by omega) (hasked.kind ▸ hkind) ?_ (hs.effect ▸ heffect)
    rw [← hasked.process, hprocess, hs.process]
  · obtain ⟨r, hr, hasked⟩ := hs.asked r' hr'
    exact ⟨r, hr, hasked.stays, hasked.kind⟩

/-- **The save of a recovery pass** that read the receipt as it is. -/
theorem Inv.saves {copy : Receipt ρ δ} {expired : Bool} (h : Inv c)
    (hthread : c.threads[tid]? = some (.scanSave copy expired :: rest))
    (hsound : total Task.executes c.threads = 0 ∧ ∀ r, c.shared.receipt = some r → r = copy)
    (hout : exec c.shared answer (.scanSave copy expired) = some out) :
    Inv ⟨out.shared, c.threads.set tid (out.next ++ rest) ++ out.spawned⟩ ∧
      Follows c.shared.receipt out.shared.receipt := by
  have hopen : copy.state.terminal = false := by
    by_contra hterminal
    exact h.copies (Has.of_head hthread hterminal)
  unfold exec at hout
  dsimp only at hout
  split at hout
  · rename_i value
    rw [write, goOn, Option.some.injEq] at hout
    subst hout
    have hsum := @total_replace _ Task.executes _ _ [] _ _ [] hthread
    simp only [Task.executes, map_nil, sum_nil, total_nil, hsound.1] at hsum
    have hread : ∀ r', Option.map (fun _ => recovered expired value copy) c.shared.receipt =
        some r' → c.shared.receipt = some copy ∧ r' = recovered expired value copy := by
      intro r' hr'
      obtain ⟨r, hr, heq⟩ := Option.map_eq_some_iff.mp hr'
      exact ⟨hsound.2 r hr ▸ hr, heq.symm⟩
    obtain ⟨hkind', hprocess', -⟩ := recovered_keeps expired value copy
    refine ⟨⟨?_, fun r' hr' => ?_, fun r' hr' => ?_, fun hhas => ?_, fun r' hr' => ?_,
      fun r' hr' _ _ _ _ => ?_⟩, fun r' hr' => ?_⟩
    · dsimp only
      omega
    · obtain ⟨hr, rfl⟩ := hread r' hr'
      exact ⟨recovered_reports expired value hopen (h.kept copy hr).1,
        recovered_told expired value copy⟩
    · exact fits_of_rest hsum
    · rcases hhas.before hthread with hhas | ⟨b, hb, -⟩ | hhas
      · exact h.copies hhas
      · cases hb
      · exact not_has_nil _ hhas
    · obtain ⟨hr, rfl⟩ := hread r' hr'
      rw [hprocess']
      exact h.before copy hr
    · obtain ⟨-, rfl⟩ := hread r' hr'
      exact terminal_recovered expired value copy
    · obtain ⟨hr, rfl⟩ := hread r' hr'
      exact ⟨copy, hr, Stays.of_not_terminal hopen, hkind'⟩
  · cases hout

/-- What the executor of an operation that rests relies on. -/
lemma executor_fits (h : r.kind = "recovery" → effect = true → r.state.terminal = true) :
    ∃ b : Task ρ δ, executor r.kind = [b] ∧ b.executes = 1 ∧ b.Fits effect r := by
  unfold executor
  split_ifs with hmetadata hcollection hidle hrecovery
  · exact ⟨_, rfl, rfl, by simp [Task.Fits, InParts, hmetadata]⟩
  · exact ⟨_, rfl, rfl, hcollection⟩
  · exact ⟨_, rfl, rfl, by simp [Task.Fits, InParts, hidle]⟩
  · exact ⟨_, rfl, rfl, hrecovery, h hrecovery⟩
  · exact ⟨_, rfl, rfl, not_or.mpr ⟨hcollection, hrecovery⟩⟩

/-- A thread that does not execute starts. -/
lemma Inv.start {thread : List (Task ρ δ)} (h : Inv c) (hrests : (thread.map Task.executes).sum = 0)
    (hcopies : ∀ b ∈ thread, b.Copies) : Inv (c.start thread) := by
  have htotal : total Task.executes (c.threads ++ [thread]) = total Task.executes c.threads := by
    rw [total_append, total_cons, total_nil, hrests, Nat.add_zero]
  refine ⟨htotal ▸ h.single, h.kept, fun r hr hhas => ?_, fun hhas => ?_, h.before,
    fun r hr hrest => h.rest r hr (htotal ▸ hrest)⟩
  · rcases has_append.mp hhas with hhas | ⟨t, ht, b, hb, hnot⟩
    · exact h.fits r hr hhas
    · rw [mem_singleton] at ht
      subst ht
      refine hnot (Task.Fits.of_rests ?_)
      exact sum_eq_zero_iff.mp hrests _ (mem_map_of_mem hb)
  · rcases has_append.mp hhas with hhas | ⟨t, ht, b, hb, hnot⟩
    · exact h.copies hhas
    · rw [mem_singleton] at ht
      subst ht
      exact hnot (hcopies b hb)

/-- The executor of the operation starts. -/
lemma Inv.execute (h : Inv c) (hr : c.shared.receipt = some r)
    (hrest : total Task.executes c.threads = 0) (hprocess : r.process = c.shared.process) :
    Inv (c.start (executor r.kind)) := by
  obtain ⟨b, hexecutor, hone, hfits⟩ :
      ∃ b : Task ρ δ, executor r.kind = [b] ∧ b.executes = 1 ∧ b.Fits c.shared.effect r :=
    executor_fits fun hkind => h.rest r hr hrest hkind hprocess
  rw [hexecutor]
  have htotal : total Task.executes (c.threads ++ [[b]]) = 1 := by
    rw [total_append, total_cons, total_nil, hrest]
    simp [hone]
  refine ⟨htotal.le, h.kept, fun r' hr' hhas => ?_, fun hhas => ?_, h.before, fun r' _ hnone => ?_⟩
  · obtain rfl := some.inj (hr.symm.trans hr')
    rcases has_append.mp hhas with hhas | ⟨t, ht, b', hb', hnot⟩
    · exact h.fits r hr hhas
    · rw [mem_singleton] at ht
      subst ht
      rw [mem_singleton] at hb'
      exact hnot (hb' ▸ hfits)
  · rcases has_append.mp hhas with hhas | ⟨t, ht, b', hb', hnot⟩
    · exact h.copies hhas
    · rw [mem_singleton] at ht
      subst ht
      rw [mem_singleton] at hb'
      subst hb'
      cases b'
      all_goals first | exact hnot trivial | cases hone
  · exact absurd (htotal.symm.trans hnone) (by decide)

/-- **One step.** -/
theorem Inv.apply {move : Move ρ} (h : Inv c) (hsound : Sound c move) :
    Inv (c.apply move) ∧ Follows c.shared.receipt (c.apply move).shared.receipt := by
  cases move with
  | task tid answer =>
    dsimp only [State.apply]
    split
    · rename_i c' o hstep
      obtain ⟨a, rest, out, hthread, hout, rfl, -⟩ := Pool.step_cases hstep
      by_cases hsaves : a.saves = true
      · cases a
        case scanSave copy expired =>
          exact h.saves hthread (hsound copy expired rest hthread) hout
        all_goals cases hsaves
      · have hle : a.executes = 1 ∨ a.executes = 0 := by
          cases a
          all_goals first | exact .inl rfl | exact .inr rfl
        rcases hle with hone | hrests
        · exact h.works hthread hone hout
        · refine h.stands hthread hrests
            (exec_stands hrests (Bool.eq_false_of_not_eq_true hsaves) ?_ hout)
          by_contra hnot
          exact h.copies (Has.of_head hthread hnot)
    · exact ⟨h, Follows.refl _⟩
  | execute =>
    dsimp only [State.apply]
    split
    · rename_i r hr
      split_ifs with hstart
      · exact ⟨h.execute hr hstart.1 hstart.2, Follows.refl _⟩
      · exact ⟨h, Follows.refl _⟩
    · exact ⟨h, Follows.refl _⟩
  | cancelOperation =>
    exact ⟨h.start rfl fun b hb => mem_singleton.mp hb ▸ trivial, Follows.refl _⟩
  | releaseOwner =>
    exact ⟨h.start rfl fun b hb => mem_singleton.mp hb ▸ trivial, Follows.refl _⟩
  | acknowledge =>
    exact ⟨h.start rfl fun b hb => mem_singleton.mp hb ▸ trivial, Follows.refl _⟩
  | scan => exact ⟨h.start rfl fun b hb => mem_singleton.mp hb ▸ trivial, Follows.refl _⟩
  | crash =>
    refine ⟨⟨Nat.zero_le _, h.kept, fun _ _ => not_has_nil _, not_has_nil _, fun r hr => ?_,
      fun r hr _ _ hprocess _ => ?_⟩, Follows.refl _⟩
    · exact (h.before r hr).trans (Nat.le_succ _)
    · have hle := h.before r hr
      rw [hprocess] at hle
      exact absurd hle (Nat.not_succ_le_self _)

/-- What holds after a run that goes on from a state. -/
lemma Inv.run {c' : State ρ δ} {moves : List (Move ρ)} (h : Inv c)
    (hfollows : Follows c'.shared.receipt c.shared.receipt)
    (hsound : Run.AllSteps State.apply Sound c moves) :
    Inv (moves.foldl State.apply c) ∧
      Follows c'.shared.receipt (moves.foldl State.apply c).shared.receipt :=
  Run.invariant (P := fun c => Inv c ∧ Follows c'.shared.receipt c.shared.receipt)
    (fun _ _ hp hs => ⟨(hp.1.apply hs).1, hp.2.trans (hp.1.apply hs).2⟩) ⟨h, hfollows⟩ hsound

/-- A receipt whose effect is committed says so, and an operation that does not commit in parts is
then not cancelled. -/
lemma Reports.committed (h : Reports true r) :
    r.committedState ≠ .notCommitted ∧
      (r.state = .cancelled → r.kind = "collection" ∨ r.kind = "recovery") := by
  have hbefore := h rfl
  split_ifs at hbefore with hcollection hrecovery
  · rw [hbefore]
    exact ⟨(fun h => nomatch h), fun _ => .inl hcollection⟩
  · exact ⟨hbefore, fun _ => .inr hrecovery⟩
  · rw [hbefore.1, hbefore.2]
    exact ⟨(fun h => nomatch h), fun h => nomatch h⟩

/-- **A terminal receipt stays**: along every run in which a recovery pass saves only while the
receipt is as it has read it, a terminal receipt keeps its state and what it says of the effect
while it is stored, and its result, but for that of a cancelled collection, which comes after its
state. A receipt whose effect is committed says so, and is cancelled only if the effect is committed
in parts. -/
theorem terminal_receipt_stays (r₀ : Receipt ρ δ) (moves₁ moves₂ : List (Move ρ))
    (h : Run.AllSteps State.apply Sound (accepted r₀) (moves₁ ++ moves₂)) :
    let c₁ := moves₁.foldl State.apply (accepted r₀)
    let c₂ := moves₂.foldl State.apply c₁
    (∀ r r', c₁.shared.receipt = some r → r.state.terminal = true →
      c₂.shared.receipt = some r' →
        r'.state = r.state ∧ r'.committedState = r.committedState ∧
          (r'.result = r.result ∨
            (r.kind = "collection" ∧ r.state = .cancelled ∧ r.result = none))) ∧
    (∀ r, c₁.shared.receipt = some r → c₁.shared.effect = true →
      r.committedState ≠ .notCommitted ∧
        (r.state = .cancelled → r.kind = "collection" ∨ r.kind = "recovery")) := by
  intro c₁ c₂
  obtain ⟨hsound₁, hsound₂⟩ := Run.AllSteps.append.mp h
  have hinv₁ : Inv c₁ := ((Inv.accepted r₀).run (Follows.refl _) hsound₁).1
  refine ⟨fun r r' hr hterminal hr' => ?_, fun r hr heffect => ?_⟩
  · obtain ⟨r₁, hr₁, hstays, -⟩ := (hinv₁.run (Follows.refl _) hsound₂).2 r' hr'
    rw [hr] at hr₁
    obtain rfl := Option.some.inj hr₁
    exact hstays hterminal
  · have hreports := (hinv₁.kept r hr).1
    rw [heffect] at hreports
    exact hreports.committed

/-! ### Two runs -/

/-- A step that saves nothing is sound. -/
lemma Sound.of_not_saves {answer : Answer ρ}
    (h : (c.threads[tid]?.getD []).head?.elim false Task.saves = false) :
    Sound c (.task tid answer) := by
  intro copy expired rest hthread
  rw [hthread] at h
  cases h

/-- A save of the receipt as it is, with no executor. -/
lemma Sound.of_saves {answer : Answer ρ} {copy : Receipt ρ δ} {expired : Bool}
    (hthread : c.threads[tid]? = some (.scanSave copy expired :: rest))
    (hrest : total Task.executes c.threads = 0) (hreceipt : c.shared.receipt = some copy) :
    Sound c (.task tid answer) := by
  intro copy' expired' rest' hthread'
  rw [hthread, some.injEq, cons.injEq, Task.scanSave.injEq] at hthread'
  refine ⟨hrest, fun r hr => ?_⟩
  rw [hreceipt, some.injEq, hthread'.1.1] at hr
  exact hr.symm

/-- A receipt of an operation of a kind. -/
def plainReceipt (kind : String) : Receipt ℕ ℕ where
  kind := kind
  cancelled := false
  committedState := .notCommitted
  state := .accepted
  process := 1
  token := ⟨1, 1, ""⟩
  request := 0
  digest := 0
  result := none
  error := none

/-- The process ends while it mutates metadata, and the next one recovers the operation. -/
def interruptedMoves : List (Move ℕ) :=
  [.execute, .task 0 .goOn, .crash, .scan, .task 0 .goOn, .task 0 (.lifetime false),
    .task 0 (.commit 0)]

/-- A client cancels the operation afterwards. -/
def cancelledLate : List (Move ℕ) := [.cancelOperation, .task 1 .goOn]

theorem terminal_receipt_stays_interrupted :
    ∃ r', (cancelledLate.foldl State.apply (interruptedMoves.foldl State.apply
        (accepted (plainReceipt "metadata")))).shared.receipt = some r' ∧
      r'.state = .cancelled ∧ r'.committedState = .notCommitted := by
  have hsound : Run.AllSteps State.apply Sound (accepted (plainReceipt "metadata"))
      (interruptedMoves ++ cancelledLate) :=
    ⟨trivial, Sound.of_not_saves rfl, trivial, trivial, Sound.of_not_saves rfl,
      Sound.of_not_saves rfl, Sound.of_saves rfl rfl rfl, trivial, Sound.of_not_saves rfl, trivial⟩
  obtain ⟨hstate, hcommitted, -⟩ := (terminal_receipt_stays (plainReceipt "metadata")
    interruptedMoves cancelledLate hsound).1 _ _ rfl rfl rfl
  exact ⟨_, rfl, hstate, hcommitted⟩

/-- A collection commits a part, is cancelled, and saves that it is. -/
def cancelledCollection : List (Move ℕ) :=
  [.execute, .task 0 .goOn, .task 0 .goOn, .task 0 .part, .cancelOperation, .task 1 .goOn,
    .task 0 .save]

/-- A cancelled collection whose effect is committed gets its result after its state. -/
theorem cancelled_collection_result :
    let c₁ := cancelledCollection.foldl State.apply (accepted (plainReceipt "collection"))
    let c₂ := c₁.apply (.task 0 (.commit 7))
    c₁.shared.effect = true ∧
      (∃ r, c₁.shared.receipt = some r ∧ r.state = .cancelled ∧ r.result = none) ∧
      (∃ r, c₂.shared.receipt = some r ∧ r.state = .cancelled ∧ r.result = some 7) :=
  ⟨rfl, ⟨_, rfl, rfl, rfl⟩, ⟨_, rfl, rfl, rfl⟩⟩

end ReceiptWrites

end Tgrep.Managed
