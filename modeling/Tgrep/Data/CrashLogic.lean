import Mathlib.Logic.Relation
import Mathlib.Data.Nat.Notation

/-!
# Programs that may be stopped at any step

A program reads a state and performs atomic actions on it. An action that cannot be done is
refused; any action may also fail, and then it does nothing. The program sees which, and goes on.
It may be stopped between any two steps, and what it has done until then stays.

What a program ensures is a condition on every state that it can be stopped in and a condition on
its result. The rules follow the program's structure; a run of the small steps is the semantics
they are sound for.

## Main definitions

* `Crash.Prog`: programs of reads and actions.
* `Crash.Step`, `Crash.Steps`: the small steps of a program on a state.
* `Crash.advance`: some steps in which nothing fails.
* `Crash.Ensures`: a condition on every state and a condition on the result.

## Main results

* `Crash.Ensures.bind`: the sequencing rule.
* `Crash.Ensures.steps`: what a program ensures holds in every state that it can be stopped in.
* `Crash.Ensures.result`: and of its result.
-/

namespace Crash

/-- What a program sees of an action: it was done, it could not be done, or it failed. -/
inductive Outcome where
  | done
  | refused
  | failed
  deriving DecidableEq

/-- A program over states `σ` and actions `α` with a result in `ρ`. -/
inductive Prog (σ α ρ : Type) where
  | ret (result : ρ)
  | look (next : σ → Prog σ α ρ)
  | act (action : α) (next : Outcome → Prog σ α ρ)

namespace Prog

variable {σ α ρ τ : Type}

/-- One program after another. -/
def bind (p : Prog σ α ρ) (next : ρ → Prog σ α τ) : Prog σ α τ :=
  match p with
  | ret result => next result
  | look f => look fun s => (f s).bind next
  | act action f => act action fun outcome => (f outcome).bind next

instance : Monad (Prog σ α) where
  pure := ret
  bind := bind

/-- Read the state. -/
def read : Prog σ α σ := look ret

/-- Perform an action. -/
def perform (action : α) : Prog σ α Outcome := act action ret

end Prog

variable {σ α ρ τ : Type} (apply : α → σ → Option σ) (mayFail : α → Prop)

/-- One step of a program. -/
inductive Step : Prog σ α ρ × σ → Prog σ α ρ × σ → Prop
  | look {next : σ → Prog σ α ρ} {s : σ} : Step (.look next, s) (next s, s)
  | done {action : α} {next : Outcome → Prog σ α ρ} {s s' : σ} (h : apply action s = some s') :
      Step (.act action next, s) (next .done, s')
  | refused {action : α} {next : Outcome → Prog σ α ρ} {s : σ} (h : apply action s = none) :
      Step (.act action next, s) (next .refused, s)
  | failed {action : α} {next : Outcome → Prog σ α ρ} {s : σ} (h : mayFail action) :
      Step (.act action next, s) (next .failed, s)

/-- Any number of steps. The program may be stopped after any of them. -/
abbrev Steps : Prog σ α ρ × σ → Prog σ α ρ × σ → Prop :=
  Relation.ReflTransGen (Step apply mayFail)

/-- Some steps of a program in which no action fails. -/
def advance : ℕ → Prog σ α ρ × σ → Prog σ α ρ × σ
  | 0, c => c
  | _ + 1, (.ret result, s) => (.ret result, s)
  | k + 1, (.look next, s) => advance k (next s, s)
  | k + 1, (.act action next, s) =>
    match apply action s with
    | some s' => advance k (next .done, s')
    | none => advance k (next .refused, s)

/-- The steps in which no action fails are steps. -/
lemma steps_advance (k : ℕ) (c : Prog σ α ρ × σ) : Steps apply mayFail c (advance apply k c) := by
  induction k generalizing c with
  | zero => exact Relation.ReflTransGen.refl
  | succ k ih =>
    obtain ⟨_ | next | ⟨action, next⟩, s⟩ := c
    · exact Relation.ReflTransGen.refl
    · exact (ih _).head Step.look
    · simp only [advance]
      split
      · next s' h => exact (ih _).head (Step.done h)
      · next h => exact (ih _).head (Step.refused h)

/-- Every state after a step of `p` satisfies `C`, and `p` ends with a result that satisfies `Q`. -/
def Ensures (C : σ → Prop) (Q : ρ → σ → Prop) : Prog σ α ρ → σ → Prop
  | .ret result, s => Q result s
  | .look next, s => Ensures C Q (next s) s
  | .act action next, s =>
    (∀ s', apply action s = some s' → C s' ∧ Ensures C Q (next .done) s') ∧
      (apply action s = none → Ensures C Q (next .refused) s) ∧
      (mayFail action → Ensures C Q (next .failed) s)

variable {apply mayFail} {C C' : σ → Prop} {Q Q' : ρ → σ → Prop} {s s' : σ}

variable {p : Prog σ α ρ}

/-- The rule of consequence. -/
lemma Ensures.mono (h : Ensures apply mayFail C Q p s) (hC : ∀ s, C s → C' s)
    (hQ : ∀ r s, Q r s → Q' r s) : Ensures apply mayFail C' Q' p s := by
  induction p generalizing s with
  | ret result => exact hQ result s h
  | look next ih => exact ih s h
  | act action next ih =>
    refine ⟨fun s' hs' => ?_, fun hrefused => ih _ (h.2.1 hrefused), fun hf => ih _ (h.2.2 hf)⟩
    exact ⟨hC _ (h.1 s' hs').1, ih _ (h.1 s' hs').2⟩

/-- **The sequencing rule.** -/
theorem Ensures.bind {next : ρ → Prog σ α τ} {R : τ → σ → Prop} (h : Ensures apply mayFail C Q p s)
    (hnext : ∀ r s, Q r s → Ensures apply mayFail C R (next r) s) :
    Ensures apply mayFail C R (p >>= next) s := by
  change Ensures apply mayFail C R (p.bind next) s
  induction p generalizing s with
  | ret result => exact hnext result s h
  | look f ih => exact ih s h
  | act action f ih =>
    refine ⟨fun s' hs' => ?_, fun hrefused => ih _ (h.2.1 hrefused), fun hf => ih _ (h.2.2 hf)⟩
    exact ⟨(h.1 s' hs').1, ih _ (h.1 s' hs').2⟩

/-- A result ends a program. -/
lemma ensures_pure {r : ρ} (h : Q r s) : Ensures apply mayFail C Q (pure r : Prog σ α ρ) s :=
  h

/-- The read of a state gives the state. -/
lemma ensures_read {next : σ → Prog σ α ρ} (h : Ensures apply mayFail C Q (next s) s) :
    Ensures apply mayFail C Q (Prog.read >>= next) s :=
  h

/-- The rule of an action. -/
lemma ensures_perform {action : α} {next : Outcome → Prog σ α ρ}
    (hdone : ∀ s', apply action s = some s' → C s' ∧ Ensures apply mayFail C Q (next .done) s')
    (hrefused : apply action s = none → Ensures apply mayFail C Q (next .refused) s)
    (hfailed : mayFail action → Ensures apply mayFail C Q (next .failed) s) :
    Ensures apply mayFail C Q (Prog.perform action >>= next) s :=
  ⟨hdone, hrefused, hfailed⟩

/-- A step keeps what a program ensures. -/
lemma Ensures.step {p' : Prog σ α ρ} (h : Ensures apply mayFail C Q p s) (hs : C s)
    (hstep : Step apply mayFail (p, s) (p', s')) : C s' ∧ Ensures apply mayFail C Q p' s' := by
  cases hstep with
  | look => exact ⟨hs, h⟩
  | done hdone => exact h.1 s' hdone
  | refused hrefused => exact ⟨hs, h.2.1 hrefused⟩
  | failed hf => exact ⟨hs, h.2.2 hf⟩

/-- **What a program ensures** holds in every state that it can be stopped in. -/
theorem Ensures.steps {p' : Prog σ α ρ} (h : Ensures apply mayFail C Q p s) (hs : C s)
    (hsteps : Steps apply mayFail (p, s) (p', s')) : C s' ∧ Ensures apply mayFail C Q p' s' := by
  have key : ∀ y, Steps apply mayFail (p, s) y → C y.2 ∧ Ensures apply mayFail C Q y.1 y.2 := by
    intro y hy
    induction hy with
    | refl => exact ⟨hs, h⟩
    | tail _ hstep ih => exact ih.2.step ih.1 hstep
  exact key _ hsteps

/-- A program that ends has a result that it ensures. -/
lemma Ensures.result {r : ρ} (h : Ensures apply mayFail C Q p s) (hs : C s)
    (hsteps : Steps apply mayFail (p, s) (.ret r, s')) : Q r s' :=
  (h.steps hs hsteps).2

end Crash
