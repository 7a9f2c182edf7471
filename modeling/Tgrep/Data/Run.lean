import Mathlib.Data.Finset.Insert
import Mathlib.Data.List.Nodup
import Mathlib.Logic.Relation

/-!
# Runs of a labelled system

A system is a step function on states and labels; a run is the list of its labels, and the state
it reaches is the left fold of the step function. The only thing a proof about all runs needs is
what one step preserves.

## Main definitions

* `Run.AllSteps`: every step of a run is taken in a state that allows it.
* `Run.Reaches`: the states that allowed steps of a partial step function lead to.
* `Run.exec`: the state that a list of steps of a partial step function leads to.

## Main results

* `Run.invariant`: what every allowed step preserves holds in the state a run reaches.
* `Run.AllSteps.append`: a run splits into a run and its continuation.
* `Run.Reaches.invariant`: the invariant rule for partial step functions.
* `Run.allSteps_distinct`: steps that refuse a key seen before allow the runs with distinct keys.
-/

namespace Run

open List

variable {σ α : Type*} {step : σ → α → σ} {ok : σ → α → Prop}

/-- Every step of the run is taken in a state that allows it. -/
def AllSteps (step : σ → α → σ) (ok : σ → α → Prop) : σ → List α → Prop
  | _, [] => True
  | s, a :: as => ok s a ∧ AllSteps step ok (step s a) as

@[simp] lemma allSteps_nil (s : σ) : AllSteps step ok s [] := trivial

@[simp] lemma allSteps_cons {s : σ} {a : α} {as : List α} :
    AllSteps step ok s (a :: as) ↔ ok s a ∧ AllSteps step ok (step s a) as := Iff.rfl

/-- **The invariant rule**: what every allowed step preserves holds in the state that a run
reaches. -/
theorem invariant {P : σ → Prop} (hstep : ∀ s a, P s → ok s a → P (step s a)) {s : σ}
    {as : List α} (hs : P s) (has : AllSteps step ok s as) : P (as.foldl step s) := by
  induction as generalizing s with
  | nil => exact hs
  | cons a as ih => exact ih (hstep s a hs has.1) has.2

/-- A run followed by another is a run of all steps iff both parts are. -/
lemma AllSteps.append {s : σ} {as bs : List α} :
    AllSteps step ok s (as ++ bs) ↔
      AllSteps step ok s as ∧ AllSteps step ok (as.foldl step s) bs := by
  induction as generalizing s with
  | nil => simp
  | cons a as ih => simp only [cons_append, allSteps_cons, ih, foldl_cons, and_assoc]

/-- If every state allows every step, every run is allowed. -/
lemma AllSteps.of_forall (hok : ∀ s a, ok s a) (s : σ) (as : List α) : AllSteps step ok s as := by
  induction as generalizing s with
  | nil => exact allSteps_nil s
  | cons a as ih => exact ⟨hok s a, ih _⟩

/-- Steps that record a key each and refuse a key recorded before: the runs that are allowed are
those with distinct keys, all of them new. -/
lemma allSteps_distinct {κ : Type*} [DecidableEq κ] {seen : σ → Finset κ} {key : α → κ}
    {valid : α → Prop} (hseen : ∀ s a, seen (step s a) = insert (key a) (seen s)) {s : σ}
    {as : List α} :
    AllSteps step (fun s a => valid a ∧ key a ∉ seen s) s as ↔
      (∀ a ∈ as, valid a ∧ key a ∉ seen s) ∧ (as.map key).Nodup := by
  induction as generalizing s with
  | nil => simp
  | cons a as ih =>
    rw [allSteps_cons, ih, forall_mem_cons, map_cons, nodup_cons, hseen]
    constructor
    · rintro ⟨ha, hrest, hnodup⟩
      refine ⟨⟨ha, fun b hb => ⟨(hrest b hb).1, ?_⟩⟩, fun hmem => ?_, hnodup⟩
      · exact fun hin => (hrest b hb).2 (Finset.mem_insert_of_mem hin)
      · obtain ⟨b, hb, heq⟩ := mem_map.mp hmem
        exact (hrest b hb).2 (heq ▸ Finset.mem_insert_self _ _)
    · rintro ⟨⟨ha, hrest⟩, hnew, hnodup⟩
      refine ⟨ha, fun b hb => ⟨(hrest b hb).1, fun hin => ?_⟩, hnodup⟩
      rcases Finset.mem_insert.mp hin with heq | hin
      · exact hnew (mem_map.mpr ⟨b, hb, heq⟩)
      · exact (hrest b hb).2 hin

/-- The keys recorded by a run. -/
lemma seen_foldl {κ : Type*} [DecidableEq κ] {seen : σ → Finset κ} {key : α → κ}
    (hseen : ∀ s a, seen (step s a) = insert (key a) (seen s)) (s : σ) (as : List α) {k : κ} :
    k ∈ seen (as.foldl step s) ↔ k ∈ seen s ∨ k ∈ as.map key := by
  induction as generalizing s with
  | nil => simp
  | cons a as ih =>
    rw [foldl_cons, ih, hseen, Finset.mem_insert, map_cons, mem_cons]
    tauto

/-! ## Partial step functions -/

section Partial

variable {σ α : Type*} {step : σ → α → Option σ} {ok : σ → α → Prop}

/-- Allowed steps lead from one state to another. -/
def Reaches (step : σ → α → Option σ) (ok : σ → α → Prop) : σ → σ → Prop :=
  Relation.ReflTransGen fun s s' => ∃ a, ok s a ∧ step s a = some s'

/-- No step is needed. -/
lemma Reaches.refl (s : σ) : Reaches step ok s s := Relation.ReflTransGen.refl

/-- One more allowed step. -/
lemma Reaches.next {s s' s'' : σ} {a : α} (h : Reaches step ok s s') (hok : ok s' a)
    (hstep : step s' a = some s'') : Reaches step ok s s'' :=
  Relation.ReflTransGen.tail h ⟨a, hok, hstep⟩

/-- **The invariant rule**: what every allowed step preserves holds in every state reached. -/
theorem Reaches.invariant {P : σ → Prop}
    (hstep : ∀ s a s', P s → ok s a → step s a = some s' → P s') {s s' : σ} (hs : P s)
    (h : Reaches step ok s s') : P s' := by
  induction h with
  | refl => exact hs
  | tail _ hlast ih =>
    obtain ⟨a, hok, hone⟩ := hlast
    exact hstep _ a _ ih hok hone

/-- Steps followed by steps. -/
lemma Reaches.trans {s s' s'' : σ} (h : Reaches step ok s s') (h' : Reaches step ok s' s'') :
    Reaches step ok s s'' := Relation.ReflTransGen.trans h h'

/-- The state that a list of steps leads to. -/
def exec (step : σ → α → Option σ) : σ → List α → Option σ
  | s, [] => some s
  | s, a :: as => (step s a).bind fun s' => exec step s' as

/-- A list of steps that are always allowed leads to a state that is reached. -/
lemma Reaches.of_exec_allowed {s s' : σ} {as : List α} (hok : ∀ a ∈ as, ∀ s, ok s a)
    (h : exec step s as = some s') : Reaches step ok s s' := by
  induction as generalizing s with
  | nil =>
    obtain rfl : s = s' := by simpa [exec] using h
    exact Reaches.refl s
  | cons a as ih =>
    rw [exec, Option.bind_eq_some_iff] at h
    obtain ⟨s₁, hone, hrest⟩ := h
    have hfirst := (Reaches.refl s).next (hok a mem_cons_self s) hone
    exact hfirst.trans (ih (fun b hb => hok b (mem_cons_of_mem a hb)) hrest)

/-- A list of steps leads to a state that is reached. -/
lemma Reaches.of_exec {s s' : σ} {as : List α} (h : exec step s as = some s') :
    Reaches step (fun _ _ => True) s s' :=
  Reaches.of_exec_allowed (fun _ _ _ => trivial) h

end Partial

end Run
