import Tgrep.Managed.ReceiptWrites

/-!
# What the writers make of a receipt

An executor that finds what it relies on keeps a terminal receipt and reports the effect that it
commits. Whoever else writes the receipt only asks the operation to stop, but for a recovery pass.

## Main definitions

* `ReceiptWrites.Stays`: what does not change of a terminal receipt.
* `ReceiptWrites.Reports`: a receipt says that the effect is committed.
* `ReceiptWrites.Advances`: what an executor makes of a receipt.
* `ReceiptWrites.Asked`: what a request to stop makes of a receipt.

## Main results

* `ReceiptWrites.exec_works`: one task of an executor.
* `ReceiptWrites.exec_stands`: one task of those that do not execute.
* `ReceiptWrites.recovered_reports`: the save of a recovery pass.
-/

namespace Tgrep.Managed

open List Option

namespace ReceiptWrites

open Threads Operations

variable {ρ δ : Type} {s : Row ρ δ} {r r' r'' : Receipt ρ δ} {answer : Answer ρ} {a : Task ρ δ}
  {out : Outcome (Row ρ δ) (Task ρ δ) Unit}

/-! ## What is said of one receipt -/

/-- Operations that commit their effect in parts. -/
def InParts (r : Receipt ρ δ) : Prop :=
  r.kind = "collection" ∨ r.kind = "recovery"

/-- A terminal receipt stays as it is, but for the result of a collection that was cancelled, which
is saved after its state. -/
def Stays (r r' : Receipt ρ δ) : Prop :=
  r.state.terminal = true →
    r'.state = r.state ∧ r'.committedState = r.committedState ∧
      (r'.result = r.result ∨ (r.kind = "collection" ∧ r.state = .cancelled ∧ r.result = none))

lemma Stays.refl (r : Receipt ρ δ) : Stays r r := fun _ => ⟨rfl, rfl, .inl rfl⟩

lemma Stays.of_not_terminal (h : r.state.terminal = false) : Stays r r' := by
  intro hterminal
  rw [h] at hterminal
  cases hterminal

lemma Stays.trans (h : Stays r r') (hkind : r'.kind = r.kind) (h' : Stays r' r'') :
    Stays r r'' := by
  intro hterminal
  obtain ⟨hstate, hcommitted, hresult⟩ := h hterminal
  obtain ⟨hstate', hcommitted', hresult'⟩ := h' (hstate ▸ hterminal)
  refine ⟨hstate'.trans hstate, hcommitted'.trans hcommitted, ?_⟩
  rcases hresult with hresult | hopen
  · rcases hresult' with hresult' | hopen
    · exact .inl (hresult'.trans hresult)
    · exact .inr ⟨hkind ▸ hopen.1, hstate ▸ hopen.2.1, hresult ▸ hopen.2.2⟩
  · exact .inr hopen

/-- A receipt says that the effect is committed, if it is. -/
def Reports (effect : Bool) (r : Receipt ρ δ) : Prop :=
  effect = true →
    if r.kind = "collection" then r.committedState = .committed
    else if r.kind = "recovery" then r.committedState ≠ .notCommitted
    else r.committedState = .committed ∧ r.state = .completed

/-- A terminal receipt has a result or an error, or is that of a cancelled collection. -/
def Told (r : Receipt ρ δ) : Prop :=
  r.state.terminal = true →
    r.result.isSome = true ∨ r.error.isSome = true ∨ (r.kind = "collection" ∧ r.cancelled = true)

/-- What an executor that has a task relies on. -/
def Task.Fits (effect : Bool) (r : Receipt ρ δ) : Task ρ δ → Prop
  | .viewRead | .metadataRead | .idleRead | .idleReadAgain | .idleDone => ¬ InParts r
  | .viewWork | .viewError _ | .deferOperation _ | .metadataMutate | .idleDecide =>
    ¬ InParts r ∧ r.state.terminal = false
  | .viewDone => ¬ InParts r ∧ r.state = .completed
  | .recordError _ => ¬ InParts r ∧ (r.state.terminal = true → r.state = .completed)
  | .collectRead => r.kind = "collection"
  | .collectReserve =>
    r.kind = "collection" ∧ r.result = none ∧ (r.state.terminal = true → r.cancelled = true)
  | .collectWork changed =>
    r.kind = "collection" ∧ r.result = none ∧ r.state.terminal = false ∧
      (changed = true → r.committedState = .committed)
  | .collectFinish isCancelled changed =>
    r.kind = "collection" ∧ r.result = none ∧
      (r.state.terminal = true → isCancelled = true ∧ r.state = .cancelled) ∧
      (changed = true → r.committedState = .committed)
  | .recoverRead | .recoverReadAgain | .recoverPrepare =>
    r.kind = "recovery" ∧ (effect = true → r.state.terminal = true)
  | .recoverUnits changed | .recoverFinish _ changed _ =>
    r.kind = "recovery" ∧ r.state.terminal = false ∧ (effect = true → changed = true) ∧
      r.committedState ≠ .notCommitted
  | _ => True

/-- What an executor makes of a receipt. -/
structure Advances (effect : Bool) (next : List (Task ρ δ)) (r r' : Receipt ρ δ) : Prop where
  stays : Stays r r'
  kind : r'.kind = r.kind
  process : r'.process = r.process
  reports : Reports effect r'
  told : Told r'
  fits : ∀ b ∈ next, b.Fits effect r'
  /-- A recovery that is over has a terminal receipt, if it changed anything. -/
  ended : next = [] → r.kind = "recovery" → effect = true → r'.state.terminal = true

variable (e : Error) (expired : Bool) (value : ρ) (copy : Receipt ρ δ) {s' : Row ρ δ}
  {isCancelled : Bool} {f : Receipt ρ δ → Receipt ρ δ} {changed : Bool} {next : List (Task ρ δ)}
  {effect : Bool}

/-- A step that does not write the receipt. -/
lemma Advances.same (hreports : Reports effect r) (htold : Told r)
    (hfits : ∀ b ∈ next, b.Fits effect r)
    (hended : next = [] → r.kind = "recovery" → effect = true → r.state.terminal = true) :
    Advances effect next r r :=
  ⟨Stays.refl r, rfl, rfl, hreports, htold, hfits, hended⟩

/-- What a receipt of an operation that does not commit in parts reports. -/
lemma reports_whole (hparts : ¬ InParts r) :
    Reports effect r ↔
      (effect = true → r.committedState = .committed ∧ r.state = .completed) := by
  unfold Reports
  rw [if_neg fun h => hparts (.inl h), if_neg fun h => hparts (.inr h)]

lemma reports_collection (hkind : r.kind = "collection") :
    Reports effect r ↔ (effect = true → r.committedState = .committed) := by
  unfold Reports
  rw [if_pos hkind]

lemma reports_recovery (hkind : r.kind = "recovery") :
    Reports effect r ↔ (effect = true → r.committedState ≠ .notCommitted) := by
  unfold Reports
  rw [hkind, if_neg (by decide), if_pos rfl]

/-! ## The writes -/

lemma terminal_stateAfter (state : OperationState) (e : Error) :
    (stateAfter state e).terminal = true := by
  rw [stateAfter]
  split_ifs <;> rfl

/-- A receipt whose error is written, and whose state is open or completed. -/
lemma ended_with_error (hreports : Reports effect r)
    (hstate : r.state.terminal = true → r.state = .completed) :
    Advances effect [] r { r with state := stateAfter r.state e, error := some e } := by
  constructor
  · intro hterminal
    refine ⟨?_, rfl, .inl rfl⟩
    rw [hstate hterminal]
    rfl
  · rfl
  · rfl
  · intro heffect
    have hbefore := hreports heffect
    split_ifs at hbefore ⊢ with hcollection hrecovery
    · exact hbefore
    · exact hbefore
    · rw [hbefore.2]
      exact ⟨hbefore.1, rfl⟩
  · exact fun _ => .inr (.inl rfl)
  · exact forall_mem_nil _
  · exact fun _ _ _ => terminal_stateAfter _ _

lemma failed_advances (hreports : Reports effect r) (htold : Told r) :
    Advances effect [] r (failed e r) := by
  rw [failed]
  split_ifs with hstate
  · refine Advances.same hreports htold (forall_mem_nil _) fun _ _ _ => ?_
    rcases hstate with hstate | hstate <;> rw [hstate] <;> rfl
  · refine ended_with_error e hreports fun hterminal => ?_
    cases hs : r.state
    all_goals rw [hs] at hterminal hstate
    all_goals first | rfl | exact absurd hterminal (by decide) | exact absurd hstate (by decide)

variable {finished : Option ρ} {committedState : CommitState} {onError : Error → Task ρ δ}

/-- Completing an operation that is not terminal and does not commit in parts. -/
lemma completed_advances (hparts : ¬ InParts r) (hopen : r.state.terminal = false)
    (hcommitted : effect = true → committedState = .committed)
    (hfits : ∀ b ∈ next, b.Fits effect (completed value committedState r)) :
    Advances effect next r (completed value committedState r) := by
  constructor
  · exact Stays.of_not_terminal hopen
  · rfl
  · rfl
  · have hparts' : ¬ InParts (completed value committedState r) := hparts
    exact (reports_whole hparts').mpr fun heffect => ⟨hcommitted heffect, rfl⟩
  · exact fun _ => .inl rfl
  · exact hfits
  · exact fun _ _ _ => rfl

/-- An operation that does not commit in parts and is not terminal has committed nothing. -/
lemma no_effect (hreports : Reports effect r) (hparts : ¬ InParts r)
    (hopen : r.state.terminal = false) : effect = false := by
  cases effect with
  | false => rfl
  | true =>
    rw [((reports_whole hparts).mp hreports rfl).2] at hopen
    cases hopen

/-! ## The tasks of an executor -/

/-- What a task of an executor does. -/
structure Works (s : Row ρ δ) (out : Outcome (Row ρ δ) (Task ρ δ) Unit) : Prop where
  spawned : out.spawned = []
  process : out.shared.process = s.process
  single : out.next = [] ∨ ∃ b, out.next = [b] ∧ b.executes = 1
  gone : s.receipt = none → out.shared.receipt = none
  advances : ∀ r, s.receipt = some r →
    ∃ r', out.shared.receipt = some r' ∧ Advances out.shared.effect out.next r r'

/-- A task that writes the receipt. -/
lemma Works.write (hout : ReceiptWrites.write s' f next = some out)
    (hreceipt : s'.receipt = s.receipt) (hprocess : s'.process = s.process)
    (hsingle : next = [] ∨ ∃ b, next = [b] ∧ b.executes = 1)
    (h : ∀ r, s.receipt = some r → Advances s'.effect next r (f r)) : Works s out := by
  rw [ReceiptWrites.write, ReceiptWrites.goOn, some.injEq] at hout
  subst hout
  constructor
  · rfl
  · exact hprocess
  · exact hsingle
  · intro hnone
    simp [hreceipt, hnone]
  · intro r hr
    exact ⟨f r, by simp [hreceipt, hr], h r hr⟩

/-- A task that does not write the receipt. -/
lemma Works.goOn (hout : ReceiptWrites.goOn s' next = some out) (hreceipt : s'.receipt = s.receipt)
    (hprocess : s'.process = s.process) (hsingle : next = [] ∨ ∃ b, next = [b] ∧ b.executes = 1)
    (h : ∀ r, s.receipt = some r → Advances s'.effect next r r) : Works s out := by
  rw [ReceiptWrites.goOn, some.injEq] at hout
  subst hout
  exact ⟨rfl, hprocess, hsingle, fun hnone => hreceipt.trans hnone,
    fun r hr => ⟨r, hreceipt.trans hr, h r hr⟩⟩

/-- The receipt is as every executor finds it. -/
def Kept (s : Row ρ δ) : Prop :=
  ∀ r, s.receipt = some r → Reports s.effect r ∧ Told r

/-- An executor that has the task finds what it relies on. -/
def Ready (s : Row ρ δ) (a : Task ρ δ) : Prop :=
  ∀ r, s.receipt = some r → a.Fits s.effect r

variable {reserved : Bool}

/-- A task that leads to another one, and does not commit anything. -/
lemma Works.leads {b : Task ρ δ} (hout : ReceiptWrites.goOn { s with reserved } [b] = some out)
    (hkept : Kept s) (hone : b.executes = 1) (hb : Ready s b) : Works s out := by
  refine Works.goOn hout rfl rfl (.inr ⟨b, rfl, hone⟩) fun r hr => ?_
  refine Advances.same (hkept r hr).1 (hkept r hr).2 ?_ (fun h => nomatch h)
  intro c hc
  rw [mem_singleton] at hc
  exact hc ▸ hb r hr

/-- A task that fails the operation. -/
lemma Works.fails {e : Error}
    (hout : ReceiptWrites.goOn { s with reserved } [.failOperation e] = some out)
    (hkept : Kept s) : Works s out :=
  Works.leads hout hkept rfl fun _ _ => trivial

/-- An executor that ends, of an operation that is no recovery. -/
lemma Works.ends (hout : ReceiptWrites.goOn { s with reserved } [] = some out) (hkept : Kept s)
    (hkind : ∀ r, s.receipt = some r → r.kind = "recovery" → s.effect = true →
      r.state.terminal = true) : Works s out := by
  refine Works.goOn hout rfl rfl (.inl rfl) fun r hr => ?_
  exact Advances.same (hkept r hr).1 (hkept r hr).2 (forall_mem_nil _) fun _ => hkind r hr

/-- A transaction that refuses a cancelled operation. -/
lemma Works.unlessCancelled
    (hout : ReceiptWrites.unlessCancelled s f effect next onError = some out) (hkept : Kept s)
    (hsingle : next = [] ∨ ∃ b, next = [b] ∧ b.executes = 1) (hone : ∀ e, (onError e).executes = 1)
    (h : ∀ r, s.receipt = some r → Advances (s.effect || effect) next r (f r))
    (herror : ∀ r e, s.receipt = some r → (onError e).Fits s.effect r) : Works s out := by
  rw [ReceiptWrites.unlessCancelled] at hout
  split at hout
  · exact Works.leads hout hkept (hone _) fun r hr => herror r _ hr
  · split_ifs at hout
    · exact Works.leads hout hkept (hone _) fun r hr => herror r _ hr
    · exact Works.write hout rfl rfl hsingle h

/-! ### The common ends -/

lemma failOperation_works {e : Error} (hkept : Kept s)
    (hout : exec s answer (.failOperation e) = some out) : Works s out :=
  Works.write hout rfl rfl (.inl rfl)
    fun r hr => failed_advances e (hkept r hr).1 (hkept r hr).2

lemma recordError_works {e : Error} (hkept : Kept s) (hfits : Ready s (.recordError e))
    (hout : exec s answer (.recordError e) = some out) : Works s out :=
  Works.write hout rfl rfl (.inl rfl)
    fun r hr => ended_with_error e (hkept r hr).1 (hfits r hr).2

/-! ### A view -/

/-- An operation that is no recovery need not end with a terminal receipt. -/
lemma not_recovery (hparts : ¬ InParts r) :
    r.kind = "recovery" → effect = true → r.state.terminal = true :=
  fun hkind => absurd (.inr hkind) hparts

lemma viewRead_works (hkept : Kept s) (hfits : Ready s .viewRead)
    (hout : exec s answer .viewRead = some out) : Works s out := by
  rw [exec] at hout
  split at hout
  · exact Works.fails hout hkept
  · rename_i r hr
    split_ifs at hout with hterminal hcommitted
    · exact Works.ends hout hkept fun r hr => not_recovery (hfits r hr)
    · exact Works.fails hout hkept
    · refine Works.leads hout hkept rfl fun r' hr' => ?_
      rw [hr, some.injEq] at hr'
      subst hr'
      exact ⟨hfits r hr, Bool.eq_false_of_not_eq_true hterminal⟩

lemma viewWork_works (hkept : Kept s) (hfits : Ready s .viewWork)
    (hout : exec s answer .viewWork = some out) : Works s out := by
  have heffect : ∀ r, s.receipt = some r → s.effect = false := fun r hr =>
    no_effect (hkept r hr).1 (hfits r hr).1 (hfits r hr).2
  have herror : ∀ r e, s.receipt = some r → (Task.viewError e : Task ρ δ).Fits s.effect r :=
    fun r e hr => hfits r hr
  unfold exec at hout
  dsimp only at hout
  split at hout
  · -- the work begins, and the receipt stays open
    refine Works.unlessCancelled hout hkept (.inr ⟨_, rfl, rfl⟩) (fun _ => rfl) ?_ herror
    intro r hr
    obtain ⟨hparts, hopen⟩ := hfits r hr
    rw [Bool.or_false, heffect r hr]
    refine ⟨Stays.of_not_terminal hopen, rfl, rfl, (fun h => nomatch h), (fun h => nomatch h), ?_,
      (fun h => nomatch h)⟩
    intro b hb
    rw [mem_singleton] at hb
    subst hb
    exact ⟨hparts, rfl⟩
  · exact Works.leads hout hkept rfl hfits
  · exact Works.leads hout hkept rfl hfits
  · refine Works.unlessCancelled hout hkept (.inr ⟨_, rfl, rfl⟩) (fun _ => rfl) ?_ herror
    intro r hr
    refine completed_advances _ (hfits r hr).1 (hfits r hr).2 (fun _ => rfl) fun b hb => ?_
    rw [mem_singleton] at hb
    subst hb
    exact ⟨(hfits r hr).1, rfl⟩
  · exact Works.write hout rfl rfl (.inl rfl) fun r hr =>
      completed_advances _ (hfits r hr).1 (hfits r hr).2 (fun _ => rfl) (forall_mem_nil _)
  · refine Works.write hout rfl rfl (.inl rfl) fun r hr => ?_
    refine completed_advances _ (hfits r hr).1 (hfits r hr).2 ?_ (forall_mem_nil _)
    intro htrue
    rw [heffect r hr] at htrue
    cases htrue
  · exact Works.leads hout hkept rfl fun r hr => herror r _ hr
  · cases hout

lemma viewDone_works (hkept : Kept s) (hfits : Ready s .viewDone)
    (hout : exec s answer .viewDone = some out) : Works s out := by
  unfold exec at hout
  dsimp only at hout
  split at hout
  · exact Works.leads hout hkept rfl hfits
  · exact Works.leads hout hkept rfl fun r hr => ⟨(hfits r hr).1, fun _ => (hfits r hr).2⟩
  · exact Works.ends hout hkept fun r hr => not_recovery (hfits r hr).1

/-- An error recorded at a receipt that is open. -/
lemma fits_recordError (h : ¬ InParts r ∧ r.state.terminal = false) :
    (Task.recordError e : Task ρ δ).Fits effect r := by
  refine ⟨h.1, fun hterminal => ?_⟩
  rw [h.2] at hterminal
  cases hterminal

lemma viewError_works {e : Error} (hkept : Kept s) (hfits : Ready s (.viewError e))
    (hout : exec s answer (.viewError e) = some out) : Works s out := by
  rw [exec] at hout
  split_ifs at hout
  · exact Works.leads hout hkept rfl hfits
  · exact Works.leads hout hkept rfl fun r hr => fits_recordError e (hfits r hr)

lemma deferOperation_works {e : Error} (hkept : Kept s) (hfits : Ready s (.deferOperation e))
    (hout : exec s answer (.deferOperation e) = some out) : Works s out := by
  have hrecord : ∀ r e', s.receipt = some r → (Task.recordError e' : Task ρ δ).Fits s.effect r :=
    fun r e' hr => fits_recordError e' (hfits r hr)
  unfold exec at hout
  dsimp only at hout
  split at hout
  · exact Works.leads hout hkept rfl fun r hr => hrecord r _ hr
  · split_ifs at hout
    · exact Works.leads hout hkept rfl fun r hr => hrecord r _ hr
    · exact Works.leads hout hkept rfl fun r hr => hrecord r _ hr
    · exact Works.ends hout hkept fun r hr => not_recovery (hfits r hr).1
    · split at hout
      · exact Works.leads hout hkept rfl fun r hr => hrecord r _ hr
      · refine Works.write hout rfl rfl (.inl rfl) fun r hr => ?_
        obtain ⟨hparts, hopen⟩ := hfits r hr
        rw [no_effect (hkept r hr).1 hparts hopen]
        exact ⟨Stays.of_not_terminal hopen, rfl, rfl, (fun h => nomatch h), (fun h => nomatch h),
          forall_mem_nil _, (fun _ _ h => nomatch h)⟩

/-! ### Mutations of metadata, and idle stops -/

lemma metadataRead_works (hkept : Kept s) (hfits : Ready s .metadataRead)
    (hout : exec s answer .metadataRead = some out) : Works s out := by
  unfold exec at hout
  dsimp only at hout
  split at hout
  · exact Works.fails hout hkept
  · rename_i r hr
    split_ifs at hout with hterminal
    · exact Works.ends hout hkept fun r hr => not_recovery (hfits r hr)
    · split at hout
      · exact Works.fails hout hkept
      · refine Works.leads hout hkept rfl fun r' hr' => ?_
        rw [hr, some.injEq] at hr'
        subst hr'
        exact ⟨hfits r hr, Bool.eq_false_of_not_eq_true hterminal⟩

/-- The commit of an operation that commits its effect at once. -/
lemma commit_works {value : ρ}
    (hout : ReceiptWrites.unlessCancelled s (completed value committedState) effect next onError =
      some out) (hkept : Kept s)
    (hfits : ∀ r, s.receipt = some r → ¬ InParts r ∧ r.state.terminal = false)
    (hcommitted : effect = true → committedState = .committed)
    (hsingle : next = [] ∨ ∃ b, next = [b] ∧ b.executes = 1)
    (hnext : ∀ r : Receipt ρ δ, ¬ InParts r → ∀ b ∈ next,
      b.Fits (s.effect || effect) (completed value committedState r))
    (hone : ∀ e, (onError e).executes = 1)
    (herror : ∀ r e, s.receipt = some r → (onError e).Fits s.effect r) : Works s out := by
  refine Works.unlessCancelled hout hkept hsingle hone (fun r hr => ?_) herror
  obtain ⟨hparts, hopen⟩ := hfits r hr
  refine completed_advances value hparts hopen (fun heffect => hcommitted ?_) (hnext r hparts)
  rwa [no_effect (hkept r hr).1 hparts hopen, Bool.false_or] at heffect

lemma metadataMutate_works (hkept : Kept s) (hfits : Ready s .metadataMutate)
    (hout : exec s answer .metadataMutate = some out) : Works s out := by
  have herror : ∀ r e, s.receipt = some r → (Task.recordError e : Task ρ δ).Fits s.effect r :=
    fun r e hr => fits_recordError e (hfits r hr)
  unfold exec at hout
  dsimp only at hout
  split at hout
  · exact commit_works hout hkept hfits (fun _ => rfl) (.inl rfl)
      (fun r _ => forall_mem_nil _) (fun _ => rfl) herror
  · refine commit_works hout hkept hfits (fun _ => rfl) (.inr ⟨_, rfl, rfl⟩) (fun r _ b hb => ?_)
      (fun _ => rfl) herror
    rw [mem_singleton] at hb
    subst hb
    trivial
  · exact Works.leads hout hkept rfl fun r hr => herror r _ hr
  · cases hout

lemma idleRead_works (hkept : Kept s) (hfits : Ready s .idleRead)
    (hout : exec s answer .idleRead = some out) : Works s out := by
  rw [exec] at hout
  split at hout
  · exact Works.ends hout hkept fun r hr => not_recovery (hfits r hr)
  · split_ifs at hout
    · exact Works.ends hout hkept fun r hr => not_recovery (hfits r hr)
    · exact Works.leads hout hkept rfl hfits

lemma idleReadAgain_works (hkept : Kept s) (hfits : Ready s .idleReadAgain)
    (hout : exec s answer .idleReadAgain = some out) : Works s out := by
  have hends : ∀ r, s.receipt = some r → r.kind = "recovery" → s.effect = true →
      r.state.terminal = true := fun r hr => not_recovery (hfits r hr)
  unfold exec at hout
  dsimp only at hout
  split at hout
  · exact Works.ends hout hkept hends
  · rename_i r hr
    split_ifs at hout with hopen
    · exact Works.ends hout hkept hends
    · split at hout
      · exact Works.ends hout hkept hends
      · refine Works.leads hout hkept rfl fun r' hr' => ?_
        rw [hr, some.injEq] at hr'
        subst hr'
        -- a terminal receipt has a result or an error
        refine ⟨hfits r hr, Bool.eq_false_of_not_eq_true fun hterminal => hopen ?_⟩
        rcases (hkept r hr).2 hterminal with hresult | herror | hcollection
        · rw [hresult, Bool.true_or]
        · rw [herror, Bool.or_true]
        · exact absurd (.inl hcollection.1) (hfits r hr)

lemma idleDecide_works (hkept : Kept s) (hfits : Ready s .idleDecide)
    (hout : exec s answer .idleDecide = some out) : Works s out := by
  have hnext : ∀ (value : ρ) (committedState : CommitState) (effect : Bool) (r : Receipt ρ δ),
      ¬ InParts r → ∀ b ∈ [Task.idleDone], b.Fits effect (completed value committedState r) := by
    intro value committedState effect r hparts b hb
    rw [mem_singleton] at hb
    subst hb
    exact hparts
  unfold exec at hout
  dsimp only at hout
  split at hout
  · exact commit_works hout hkept hfits (fun _ => rfl) (.inr ⟨_, rfl, rfl⟩) (hnext _ _ _)
      (fun _ => rfl) fun _ _ _ => trivial
  · exact commit_works hout hkept hfits (fun h => nomatch h) (.inr ⟨_, rfl, rfl⟩) (hnext _ _ _)
      (fun _ => rfl) fun _ _ _ => trivial
  · exact Works.fails hout hkept
  · cases hout

lemma idleDone_works (hkept : Kept s) (hfits : Ready s .idleDone)
    (hout : exec s answer .idleDone = some out) : Works s out := by
  unfold exec at hout
  dsimp only at hout
  split at hout
  · exact Works.fails hout hkept
  · exact Works.ends hout hkept fun r hr => not_recovery (hfits r hr)

/-! ### Collections -/

lemma collectRead_works (hkept : Kept s) (hfits : Ready s .collectRead)
    (hout : exec s answer .collectRead = some out) : Works s out := by
  rw [exec] at hout
  split at hout
  · exact Works.fails hout hkept
  · rename_i r hr
    split_ifs at hout with hresult
    · exact Works.ends hout hkept fun r hr hkind =>
        absurd ((hfits r hr).symm.trans hkind) (by decide)
    · split at hout
      · exact Works.fails hout hkept
      · rename_i herror
        refine Works.leads hout hkept rfl fun r' hr' => ?_
        rw [hr, some.injEq] at hr'
        subst hr'
        refine ⟨hfits r hr, Option.not_isSome_iff_eq_none.mp hresult, fun hterminal => ?_⟩
        rcases (hkept r hr).2 hterminal with hsome | hsome | hcollection
        · exact absurd hsome hresult
        · rw [herror] at hsome
          cases hsome
        · exact hcollection.2

lemma collectReserve_works (hkept : Kept s) (hfits : Ready s .collectReserve)
    (hout : exec s answer .collectReserve = some out) : Works s out := by
  unfold exec at hout
  dsimp only at hout
  split at hout
  · exact Works.fails hout hkept
  · rename_i r hr
    split_ifs at hout with hrefused
    · exact Works.fails hout hkept
    · split at hout
      · exact Works.fails hout hkept
      · refine Works.leads hout hkept rfl fun r' hr' => ?_
        rw [hr, some.injEq] at hr'
        subst hr'
        obtain ⟨hkind, hresult, -⟩ := hfits r hr
        refine ⟨hkind, hresult, ?_, fun h => nomatch h⟩
        rw [not_or, not_not] at hrefused
        rcases hrefused.2 with hstate | hstate <;> rw [hstate] <;> rfl

/-- The save of the progress of a collection that is open. -/
lemma progressed_advances (hkind : r.kind = "collection") (hreports : Reports effect r)
    (hstays : Stays r (progressed changed isCancelled finished r))
    (htold : Told (progressed changed isCancelled finished r))
    (hfits : ∀ b ∈ next, b.Fits effect (progressed changed isCancelled finished r)) :
    Advances effect next r (progressed changed isCancelled finished r) := by
  have hkind' : (progressed changed isCancelled finished r).kind = "collection" := hkind
  refine ⟨hstays, rfl, rfl, (reports_collection hkind').mpr fun heffect => ?_, htold, hfits,
    fun _ h => ?_⟩
  · have hbefore := (reports_collection hkind).mp hreports heffect
    dsimp only [progressed]
    rw [hbefore, ite_self]
  · rw [hkind] at h
    exact absurd h (by decide)

/-- The committed state of a collection after a save of its progress. -/
lemma committedState_progressed (hchanged : changed = true → r.committedState = .committed) :
    (progressed changed isCancelled finished r).committedState = r.committedState := by
  dsimp only [progressed]
  split_ifs with h
  · exact (hchanged h).symm
  · rfl

lemma collectWork_works (hkept : Kept s) (hfits : Ready s (.collectWork changed))
    (hout : exec s answer (.collectWork changed) = some out) : Works s out := by
  have hfinish : ∀ r isCancelled, s.receipt = some r →
      (Task.collectFinish isCancelled changed : Task ρ δ).Fits s.effect r := by
    intro r isCancelled hr
    obtain ⟨hkind, hresult, hopen, hchanged⟩ := hfits r hr
    refine ⟨hkind, hresult, fun hterminal => ?_, hchanged⟩
    rw [hopen] at hterminal
    cases hterminal
  unfold exec at hout
  dsimp only at hout
  split at hout
  · -- a part is committed, and the receipt stays open
    refine Works.write hout rfl rfl (.inr ⟨_, rfl, rfl⟩) fun r hr => ?_
    obtain ⟨hkind, hresult, hopen, -⟩ := hfits r hr
    refine ⟨Stays.of_not_terminal hopen, rfl, rfl, ?_, fun hterminal => ?_, fun b hb => ?_,
      fun h => nomatch h⟩
    · have hkind' : ({ r with committedState := .committed } : Receipt ρ δ).kind = "collection" :=
        hkind
      exact (reports_collection hkind').mpr fun _ => rfl
    · change r.state.terminal = true at hterminal
      rw [hopen] at hterminal
      cases hterminal
    · rw [mem_singleton] at hb
      subst hb
      exact ⟨hkind, hresult, hopen, fun _ => rfl⟩
  · split at hout
    · exact Works.fails hout hkept
    · rename_i r₀ hr₀
      split_ifs at hout with hcancelled
      · refine Works.write hout rfl rfl (.inr ⟨_, rfl, rfl⟩) fun r hr => ?_
        obtain ⟨hkind, hresult, hopen, hchanged⟩ := hfits r hr
        rw [hr₀, some.injEq] at hr
        subst hr
        refine progressed_advances hkind (hkept r₀ hr₀).1 (Stays.of_not_terminal hopen)
          (fun _ => .inr (.inr ⟨hkind, hcancelled⟩)) fun b hb => ?_
        rw [mem_singleton] at hb
        subst hb
        refine ⟨hkind, hresult, fun _ => ⟨rfl, rfl⟩, fun h => ?_⟩
        rw [committedState_progressed hchanged, hchanged h]
      · refine Works.write hout rfl rfl (.inr ⟨_, rfl, rfl⟩) fun r hr => ?_
        obtain ⟨hkind, hresult, hopen, hchanged⟩ := hfits r hr
        refine progressed_advances hkind (hkept r hr).1 (Stays.of_not_terminal hopen)
          (fun h => nomatch h) fun b hb => ?_
        rw [mem_singleton] at hb
        subst hb
        refine ⟨hkind, hresult, rfl, fun h => ?_⟩
        rw [committedState_progressed hchanged, hchanged h]
  · split at hout
    · exact Works.fails hout hkept
    · split_ifs at hout
      · exact Works.leads hout hkept rfl fun r hr => hfinish r true hr
      · exact Works.leads hout hkept rfl hfits
  · exact Works.leads hout hkept rfl fun r hr => hfinish r _ hr
  · exact Works.fails hout hkept
  · cases hout

lemma collectFinish_works (hkept : Kept s) (hfits : Ready s (.collectFinish isCancelled changed))
    (hout : exec s answer (.collectFinish isCancelled changed) = some out) : Works s out := by
  unfold exec at hout
  dsimp only at hout
  split at hout
  · refine Works.write hout rfl rfl (.inl rfl) fun r hr => ?_
    obtain ⟨hkind, hresult, hterminal, hchanged⟩ := hfits r hr
    refine progressed_advances hkind (hkept r hr).1 (fun hended => ?_)
      (fun _ => .inl rfl) (forall_mem_nil _)
    -- it was cancelled before, and is cancelled now
    obtain ⟨hcancelled, hstate⟩ := hterminal hended
    refine ⟨?_, committedState_progressed hchanged, .inr ⟨hkind, hstate, hresult⟩⟩
    dsimp only [progressed]
    rw [hcancelled, Bool.true_or, if_pos rfl, hstate]
  · exact Works.fails hout hkept
  · cases hout

/-! ### Recoveries -/

lemma recoverRead_works (hkept : Kept s) (hfits : Ready s .recoverRead)
    (hout : exec s answer .recoverRead = some out) : Works s out := by
  have hends : ∀ r, s.receipt = some r → r.kind = "recovery" → s.effect = true →
      r.state.terminal = true := fun r hr _ => (hfits r hr).2
  rw [exec] at hout
  split at hout
  · exact Works.ends hout hkept hends
  · split_ifs at hout
    · exact Works.ends hout hkept hends
    · exact Works.leads hout hkept rfl hfits

lemma recoverReadAgain_works (hkept : Kept s) (hfits : Ready s .recoverReadAgain)
    (hout : exec s answer .recoverReadAgain = some out) : Works s out := by
  have hends : ∀ r, s.receipt = some r → r.kind = "recovery" → s.effect = true →
      r.state.terminal = true := fun r hr _ => (hfits r hr).2
  unfold exec at hout
  dsimp only at hout
  split at hout
  · exact Works.ends hout hkept hends
  · split_ifs at hout
    · exact Works.ends hout hkept hends
    · split at hout
      · exact Works.fails hout hkept
      · exact Works.leads hout hkept rfl hfits

lemma recoverPrepare_works (hkept : Kept s) (hfits : Ready s .recoverPrepare)
    (hout : exec s answer .recoverPrepare = some out) : Works s out := by
  rw [exec] at hout
  split at hout
  · exact Works.fails hout hkept
  · rename_i r hr
    split_ifs at hout with hterminal hcancelled
    · exact Works.ends hout hkept fun r hr _ => (hfits r hr).2
    · exact Works.fails hout hkept
    · refine Works.write hout rfl rfl (.inr ⟨_, rfl, rfl⟩) fun r' hr' => ?_
      rw [hr, some.injEq] at hr'
      subst hr'
      obtain ⟨hkind, hended⟩ := hfits r hr
      have heffect : s.effect = false := Bool.eq_false_of_not_eq_true fun h => hterminal (hended h)
      rw [heffect]
      refine ⟨Stays.of_not_terminal (Bool.eq_false_of_not_eq_true hterminal), rfl, rfl,
        (fun h => nomatch h), (fun h => nomatch h), fun b hb => ?_, (fun h => nomatch h)⟩
      rw [mem_singleton] at hb
      subst hb
      exact ⟨hkind, rfl, (fun h => nomatch h), fun h => nomatch h⟩

lemma recoverUnits_works (hkept : Kept s) (hfits : Ready s (.recoverUnits changed))
    (hout : exec s answer (.recoverUnits changed) = some out) : Works s out := by
  unfold exec at hout
  dsimp only at hout
  split at hout
  · refine Works.goOn hout rfl rfl (.inr ⟨_, rfl, rfl⟩) fun r hr => ?_
    obtain ⟨hkind, hopen, -, hcommitted⟩ := hfits r hr
    refine Advances.same ((reports_recovery hkind).mpr fun _ => hcommitted) (hkept r hr).2
      (fun b hb => ?_) fun h => nomatch h
    rw [mem_singleton] at hb
    subst hb
    exact ⟨hkind, hopen, fun _ => rfl, hcommitted⟩
  · exact Works.leads hout hkept rfl hfits
  · exact Works.fails hout hkept
  · cases hout

lemma recoverFinish_works {complete : Bool}
    (hfits : Ready s (.recoverFinish isCancelled changed complete))
    (hout : exec s answer (.recoverFinish isCancelled changed complete) = some out) :
    Works s out := by
  unfold exec at hout
  dsimp only at hout
  split at hout
  · rename_i value
    refine Works.write hout rfl rfl (.inl rfl) fun r hr => ?_
    obtain ⟨hkind, hopen, hchanged, -⟩ := hfits r hr
    have hkind' : (recoveryDone isCancelled changed complete value r).kind = "recovery" := hkind
    refine ⟨Stays.of_not_terminal hopen, rfl, rfl, (reports_recovery hkind').mpr fun heffect => ?_,
      fun _ => .inl rfl, forall_mem_nil _, fun _ _ _ => ?_⟩
    · dsimp only [recoveryDone]
      rw [if_pos (hchanged heffect)]
      decide
    · dsimp only [recoveryDone]
      split_ifs <;> rfl
  · cases hout

/-- **One task of an executor.** -/
theorem exec_works (hone : a.executes = 1) (hkept : Kept s) (hfits : Ready s a)
    (hout : exec s answer a = some out) : Works s out := by
  cases a with
  | viewRead => exact viewRead_works hkept hfits hout
  | viewWork => exact viewWork_works hkept hfits hout
  | viewDone => exact viewDone_works hkept hfits hout
  | viewError e => exact viewError_works hkept hfits hout
  | deferOperation e => exact deferOperation_works hkept hfits hout
  | recordError e => exact recordError_works hkept hfits hout
  | failOperation e => exact failOperation_works hkept hout
  | metadataRead => exact metadataRead_works hkept hfits hout
  | metadataMutate => exact metadataMutate_works hkept hfits hout
  | collectRead => exact collectRead_works hkept hfits hout
  | collectReserve => exact collectReserve_works hkept hfits hout
  | collectWork changed => exact collectWork_works hkept hfits hout
  | collectFinish isCancelled changed => exact collectFinish_works hkept hfits hout
  | idleRead => exact idleRead_works hkept hfits hout
  | idleReadAgain => exact idleReadAgain_works hkept hfits hout
  | idleDecide => exact idleDecide_works hkept hfits hout
  | idleDone => exact idleDone_works hkept hfits hout
  | recoverRead => exact recoverRead_works hkept hfits hout
  | recoverReadAgain => exact recoverReadAgain_works hkept hfits hout
  | recoverPrepare => exact recoverPrepare_works hkept hfits hout
  | recoverUnits changed => exact recoverUnits_works hkept hfits hout
  | recoverFinish isCancelled changed complete => exact recoverFinish_works hfits hout
  | cancelOperation => cases hone
  | releaseOwner => cases hone
  | acknowledge => cases hone
  | scanRead => cases hone
  | scanCheck copy => cases hone
  | scanSave copy expired => cases hone

/-! ## Those that only ask the operation to stop -/

/-- What a request to stop makes of a receipt. -/
structure Asked (r r' : Receipt ρ δ) : Prop where
  state : r'.state = r.state ∨ (r.state.terminal = false ∧ r'.state = .cancelling)
  kind : r'.kind = r.kind
  process : r'.process = r.process
  committedState : r'.committedState = r.committedState
  result : r'.result = r.result
  error : r'.error = r.error
  isCancelled : r.cancelled = true → r'.cancelled = true

lemma Asked.refl (r : Receipt ρ δ) : Asked r r :=
  ⟨.inl rfl, rfl, rfl, rfl, rfl, rfl, id⟩

lemma asked_cancelled (r : Receipt ρ δ) : Asked r (cancelled r) := by
  rw [cancelled]
  split_ifs with hasked hterminal
  · exact ⟨.inl rfl, rfl, rfl, rfl, rfl, rfl, fun _ => rfl⟩
  · exact ⟨.inr ⟨Bool.eq_false_of_not_eq_true hterminal, rfl⟩, rfl, rfl, rfl, rfl, rfl,
      fun _ => rfl⟩
  · exact Asked.refl r

lemma asked_released (r : Receipt ρ δ) : Asked r (released r) := by
  rw [released]
  split_ifs with hpending
  · refine ⟨.inr ⟨?_, rfl⟩, rfl, rfl, rfl, rfl, rfl, fun _ => rfl⟩
    cases hs : r.state
    all_goals rw [hs] at hpending
    all_goals first | rfl | exact absurd hpending (by decide)
  · exact Asked.refl r

/-- A request to stop neither ends an operation nor reopens it. -/
lemma Asked.terminal (h : Asked r r') : r'.state.terminal = r.state.terminal := by
  rcases h.state with hstate | ⟨hopen, hstate⟩
  · rw [hstate]
  · rw [hopen, hstate]
    rfl

lemma Asked.state_eq (h : Asked r r') (hterminal : r.state.terminal = true) :
    r'.state = r.state := by
  rcases h.state with hstate | ⟨hopen, -⟩
  · exact hstate
  · rw [hopen] at hterminal
    cases hterminal

lemma Asked.stays (h : Asked r r') : Stays r r' := fun hterminal =>
  ⟨h.state_eq hterminal, h.committedState, .inl h.result⟩

lemma Asked.reports (h : Asked r r') (hreports : Reports effect r) : Reports effect r' := by
  intro heffect
  have hbefore := hreports heffect
  rw [h.kind, h.committedState]
  split_ifs at hbefore ⊢
  · exact hbefore
  · exact hbefore
  · rw [h.state_eq (by rw [hbefore.2]; rfl)]
    exact hbefore

lemma Asked.told (h : Asked r r') (htold : Told r) : Told r' := by
  intro hterminal
  rw [h.terminal] at hterminal
  rw [h.result, h.error, h.kind]
  rcases htold hterminal with hresult | herror | hcollection
  · exact .inl hresult
  · exact .inr (.inl herror)
  · exact .inr (.inr ⟨hcollection.1, h.isCancelled hcollection.2⟩)

lemma Asked.inParts (h : Asked r r') : InParts r' ↔ InParts r := by
  rw [InParts, InParts, h.kind]

/-- What an executor relies on is not touched. -/
lemma Asked.fits (h : Asked r r') (hfits : a.Fits effect r) : a.Fits effect r' := by
  cases a
  case viewDone => exact ⟨fun hp => hfits.1 (h.inParts.mp hp),
    (h.state_eq (by rw [hfits.2]; rfl)).trans hfits.2⟩
  case recordError e =>
    refine ⟨fun hp => hfits.1 (h.inParts.mp hp), fun hterminal => ?_⟩
    rw [h.terminal] at hterminal
    exact (h.state_eq hterminal).trans (hfits.2 hterminal)
  case collectReserve =>
    refine ⟨h.kind.trans hfits.1, h.result.trans hfits.2.1, fun hterminal => ?_⟩
    rw [h.terminal] at hterminal
    exact h.isCancelled (hfits.2.2 hterminal)
  case collectFinish isCancelled changed =>
    obtain ⟨hkind, hresult, hended, hchanged⟩ := hfits
    refine ⟨h.kind.trans hkind, h.result.trans hresult, fun hterminal => ?_,
      fun hc => h.committedState.trans (hchanged hc)⟩
    rw [h.terminal] at hterminal
    exact ⟨(hended hterminal).1, (h.state_eq hterminal).trans (hended hterminal).2⟩
  all_goals
    simp only [Task.Fits, h.inParts, h.terminal, h.kind, h.result, h.committedState] at hfits ⊢
  all_goals exact hfits

/-- What the recovery pass of another relies on. -/
def Task.Copies : Task ρ δ → Prop
  | .scanCheck copy | .scanSave copy _ => copy.state.terminal = false
  | _ => True

/-- What a task of those that do not execute does. -/
structure Stands (s : Row ρ δ) (out : Outcome (Row ρ δ) (Task ρ δ) Unit) : Prop where
  spawned : out.spawned = []
  process : out.shared.process = s.process
  effect : out.shared.effect = s.effect
  rests : (out.next.map Task.executes).sum = 0
  copies : ∀ b ∈ out.next, b.Copies
  asked : ∀ r', out.shared.receipt = some r' → ∃ r, s.receipt = some r ∧ Asked r r'

/-- A task that reads the receipt. -/
lemma Stands.reads (hout : goOn s next = some out) (hrests : (next.map Task.executes).sum = 0)
    (hcopies : ∀ b ∈ next, b.Copies) : Stands s out := by
  rw [goOn, some.injEq] at hout
  subst hout
  exact ⟨rfl, rfl, rfl, hrests, hcopies, fun r hr => ⟨r, hr, Asked.refl r⟩⟩

/-- A task that asks the operation to stop. -/
lemma Stands.asks (hf : ∀ r, Asked r (f r)) (hout : write s f [] = some out) : Stands s out := by
  rw [write, goOn, some.injEq] at hout
  subst hout
  refine ⟨rfl, rfl, rfl, rfl, forall_mem_nil _, fun r' hr' => ?_⟩
  obtain ⟨r, hr, heq⟩ := Option.map_eq_some_iff.mp hr'
  exact ⟨r, hr, heq ▸ hf r⟩

/-- The save of a recovery pass. -/
def Task.saves : Task ρ δ → Bool
  | .scanSave _ _ => true
  | _ => false

/-- **A task of those that do not execute**, but for the save of a recovery pass. -/
theorem exec_stands (hrests : a.executes = 0) (hsaves : a.saves = false) (hcopies : a.Copies)
    (hout : exec s answer a = some out) : Stands s out := by
  cases a
  case cancelOperation => exact Stands.asks asked_cancelled hout
  case releaseOwner => exact Stands.asks asked_released hout
  case acknowledge =>
    unfold exec at hout
    dsimp only at hout
    split at hout
    · exact Stands.reads hout rfl (forall_mem_nil _)
    · split_ifs at hout
      · rw [goOn, some.injEq] at hout
        subst hout
        exact ⟨rfl, rfl, rfl, rfl, forall_mem_nil _, fun r' hr' => nomatch hr'⟩
      · exact Stands.reads hout rfl (forall_mem_nil _)
  case scanRead =>
    unfold exec at hout
    dsimp only at hout
    split at hout
    · exact Stands.reads hout rfl (forall_mem_nil _)
    · split_ifs at hout with hterminal
      · exact Stands.reads hout rfl (forall_mem_nil _)
      · refine Stands.reads hout rfl fun b hb => ?_
        rw [mem_singleton] at hb
        subst hb
        exact Bool.eq_false_of_not_eq_true hterminal
  case scanCheck copy =>
    unfold exec at hout
    dsimp only at hout
    split at hout
    · split_ifs at hout
      · refine Stands.reads hout rfl fun b hb => ?_
        rw [mem_singleton] at hb
        subst hb
        exact hcopies
      · exact Stands.reads hout rfl (forall_mem_nil _)
    · cases hout
  case scanSave copy expired => cases hsaves
  all_goals cases hrests

/-! ## The save of a recovery pass -/

lemma terminal_recovered : (recovered expired value copy).state.terminal = true := by
  dsimp only [recovered]
  split_ifs <;> rfl

/-- The save of a recovery pass does not change what the receipt says of the effect. -/
lemma recovered_keeps :
    (recovered expired value copy).kind = copy.kind ∧
      (recovered expired value copy).process = copy.process ∧
      (recovered expired value copy).committedState = copy.committedState := by
  dsimp only [recovered]
  split_ifs <;> exact ⟨rfl, rfl, rfl⟩

lemma recovered_told : Told (recovered expired value copy) := by
  intro _
  dsimp only [recovered]
  split_ifs with hresult
  all_goals first
    | exact .inl hresult
    | exact .inl rfl
    | exact .inr (.inl rfl)

lemma recovered_reports {copy : Receipt ρ δ} (hopen : copy.state.terminal = false)
    (hreports : Reports effect copy) : Reports effect (recovered expired value copy) := by
  obtain ⟨hkind, -, hcommitted⟩ := recovered_keeps expired value copy
  by_cases hparts : InParts copy
  · intro heffect
    have hbefore := hreports heffect
    rw [hkind, hcommitted]
    split_ifs at hbefore ⊢ with hcollection hrecovery
    · exact hbefore
    · exact hbefore
    · exact absurd hparts (not_or.mpr ⟨hcollection, hrecovery⟩)
  · rw [no_effect hreports hparts hopen]
    exact fun h => nomatch h

end ReceiptWrites

end Tgrep.Managed
