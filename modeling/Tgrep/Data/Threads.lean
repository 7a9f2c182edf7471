import Mathlib.Algebra.GroupWithZero.Nat
import Mathlib.Data.List.Basic
import Mathlib.Data.Nat.Notation

/-!
# Interleaved threads over a shared state

A thread is the list of the tasks that it still has to do. A step picks a thread and does its first
task, which may change the shared state, put tasks in front of the thread, start threads and leave
a note. So whoever schedules the threads sees every interleaving of the tasks.

What is known of all threads is said by adding up weights of tasks, or by the tasks that are left.

## Main definitions

* `Traced.run`: a run of a partial step function that leaves notes.
* `Threads.Outcome`, `Threads.Pool`: what a task does, and the threads over a shared state.
* `Threads.Pool.step`: one step of a thread.
* `Threads.total`: the sum of a weight over all tasks.
* `Threads.Has`: some thread has a task of a kind.
* `Threads.Covered`: each task of a thread that needs a closing one is followed by it.

## Main results

* `Traced.invariant`, `Traced.run_until`, `Traced.run_split`: the rules for runs.
* `Threads.Pool.step_cases`: what one step does.
* `Threads.total_replace`, `Threads.Has.replace`: what one step does to a sum and to a kind.
-/

namespace Traced

variable {σ α ο : Type*} {step : σ → α → Option (σ × Option ο)}

/-- The state that a run reaches, with the notes that it leaves. -/
def run (step : σ → α → Option (σ × Option ο)) : σ → List α → Option (σ × List ο)
  | s, [] => some (s, [])
  | s, a :: as =>
    match step s a with
    | none => none
    | some (s', o) => (run step s' as).map fun r => (r.1, o.toList ++ r.2)

@[simp] lemma run_nil (s : σ) : run step s [] = some (s, []) := rfl

variable {s : σ} {os : List ο} {s' : σ} {as : List α}

/-- A run that is not empty is a step and a run. -/
lemma run_cons {a : α} :
    run step s (a :: as) = some (s', os) ↔
      ∃ s₁ o os', step s a = some (s₁, o) ∧ run step s₁ as = some (s', os') ∧
        os = o.toList ++ os' := by
  rw [run]
  constructor
  · intro h
    split at h
    · cases h
    · rename_i s₁ o hstep
      rw [Option.map_eq_some_iff] at h
      obtain ⟨⟨s₂, os'⟩, hrun, heq⟩ := h
      simp only [Prod.mk.injEq] at heq
      obtain ⟨rfl, rfl⟩ := heq
      exact ⟨s₁, o, os', hstep, hrun, rfl⟩
  · rintro ⟨s₁, o, os', hstep, hrun, rfl⟩
    simp [hstep, hrun]

/-- **The invariant rule**: what every step preserves holds in the state that a run reaches. -/
theorem invariant {P : σ → Prop} (hstep : ∀ s a s' o, P s → step s a = some (s', o) → P s')
    (hs : P s) (h : run step s as = some (s', os)) : P s' := by
  induction as generalizing s os with
  | nil =>
    simp only [run_nil, Option.some.injEq, Prod.mk.injEq] at h
    exact h.1 ▸ hs
  | cons a as ih =>
    obtain ⟨s₁, o, os', hone, hrun, -⟩ := run_cons.mp h
    exact ih (hstep s a s₁ o hs hone) hrun

/-- **The rule for what is kept until it is done**: if every step keeps it or leaves a note that it
is done, then a run keeps it or leaves such a note. -/
theorem run_until {P T : σ → Prop} {D : ο → Prop}
    (hstep : ∀ s a s' o, P s → step s a = some (s', o) → P s' ∧ (T s → T s' ∨ ∃ n, o = some n ∧ D n))
    (hs : P s) (hT : T s) (h : run step s as = some (s', os)) : T s' ∨ ∃ n ∈ os, D n := by
  induction as generalizing s os with
  | nil =>
    simp only [run_nil, Option.some.injEq, Prod.mk.injEq] at h
    exact .inl (h.1 ▸ hT)
  | cons a as ih =>
    obtain ⟨s₁, o, os', hone, hrun, rfl⟩ := run_cons.mp h
    obtain ⟨hs₁, hkeep⟩ := hstep s a s₁ o hs hone
    rcases hkeep hT with hT₁ | ⟨n, rfl, hn⟩
    · rcases ih hs₁ hT₁ hrun with hT' | ⟨n, hmem, hn⟩
      · exact .inl hT'
      · exact .inr ⟨n, List.mem_append_right _ hmem, hn⟩
    · exact .inr ⟨n, List.mem_append_left _ (by simp), hn⟩

/-- A run that left a note is a run, the step that left it, and a run. -/
lemma run_split {os₁ os₂ : List ο} {n : ο} (h : run step s as = some (s', os₁ ++ n :: os₂)) :
    ∃ as₁ a as₂ s₁ s₂, run step s as₁ = some (s₁, os₁) ∧ step s₁ a = some (s₂, some n) ∧
      run step s₂ as₂ = some (s', os₂) := by
  induction as generalizing s os₁ with
  | nil => simp at h
  | cons a as ih =>
    obtain ⟨s₁, o, os', hone, hrun, heq⟩ := run_cons.mp h
    cases o with
    | none =>
      obtain rfl : os₁ ++ n :: os₂ = os' := heq
      obtain ⟨as₁, b, as₂, s₂, s₃, hrun₁, hb, hrun₂⟩ := ih hrun
      refine ⟨a :: as₁, b, as₂, s₂, s₃, ?_, hb, hrun₂⟩
      exact run_cons.mpr ⟨s₁, none, os₁, hone, hrun₁, rfl⟩
    | some m =>
      cases os₁ with
      | nil =>
        simp only [List.nil_append, Option.toList_some, List.cons_append, List.cons.injEq] at heq
        obtain ⟨rfl, rfl⟩ := heq
        exact ⟨[], a, as, s, s₁, rfl, hone, hrun⟩
      | cons k os₁ =>
        simp only [Option.toList_some, List.cons_append, List.nil_append, List.cons.injEq] at heq
        obtain ⟨rfl, rfl⟩ := heq
        obtain ⟨as₁, b, as₂, s₂, s₃, hrun₁, hb, hrun₂⟩ := ih hrun
        refine ⟨a :: as₁, b, as₂, s₂, s₃, ?_, hb, hrun₂⟩
        exact run_cons.mpr ⟨s₁, some k, os₁, hone, hrun₁, rfl⟩

end Traced

namespace Threads

open List Option

variable {σ τ ι ο : Type*}

/-- What a task does. -/
structure Outcome (σ τ ο : Type*) where
  /-- The shared state afterwards. -/
  shared : σ
  /-- The tasks that the thread does next. -/
  next : List τ
  /-- The threads that are started. -/
  spawned : List (List τ)
  /-- The note that is left. -/
  note : Option ο

/-- Threads over a shared state. -/
structure Pool (σ τ : Type*) where
  shared : σ
  /-- For each thread the tasks that it still has to do. -/
  threads : List (List τ)

/-- One step of a thread: it does its first task. -/
def Pool.step (exec : σ → ι → τ → Option (Outcome σ τ ο)) (c : Pool σ τ) (tid : ℕ) (choice : ι) :
    Option (Pool σ τ × Option ο) :=
  match c.threads[tid]? with
  | some (a :: rest) => (exec c.shared choice a).map fun out =>
      (⟨out.shared, c.threads.set tid (out.next ++ rest) ++ out.spawned⟩, out.note)
  | _ => none

variable {thread : List τ} (w : τ → ℕ) {a : τ} {closer : τ → Option τ} {tid : ℕ}
  {next rest : List τ} {φ : τ → Prop} {threads : List (List τ)}

/-- **What one step does.** -/
theorem Pool.step_cases {exec : σ → ι → τ → Option (Outcome σ τ ο)} {c c' : Pool σ τ} {choice : ι}
    {o : Option ο} (h : c.step exec tid choice = some (c', o)) :
    ∃ a rest out, c.threads[tid]? = some (a :: rest) ∧ exec c.shared choice a = some out ∧
      c' = ⟨out.shared, c.threads.set tid (out.next ++ rest) ++ out.spawned⟩ ∧ o = out.note := by
  rw [step] at h
  split at h
  · rename_i a rest hthread
    rw [map_eq_some_iff] at h
    obtain ⟨out, hout, heq⟩ := h
    simp only [Prod.mk.injEq] at heq
    exact ⟨a, rest, out, hthread, hout, heq.1.symm, heq.2.symm⟩
  · cases h

/-! ## Sums of weights -/

/-- The sum of a weight over all tasks. -/
def total (w : τ → ℕ) (threads : List (List τ)) : ℕ :=
  (threads.map fun thread => (thread.map w).sum).sum

@[simp] lemma total_nil : total w [] = 0 := rfl

@[simp] lemma total_cons (thread : List τ) (threads : List (List τ)) :
    total w (thread :: threads) = (thread.map w).sum + total w threads := by
  simp [total]

lemma total_append (threads threads' : List (List τ)) :
    total w (threads ++ threads') = total w threads + total w threads' := by
  simp [total]

/-- Doing the first task of a thread moves its weight to the tasks that it leads to. -/
lemma total_replace (spawned : List (List τ)) (h : threads[tid]? = some (a :: rest)) :
    total w (threads.set tid (next ++ rest) ++ spawned) + w a =
      total w threads + (next.map w).sum + total w spawned := by
  rw [total_append]
  induction threads generalizing tid with
  | nil => simp at h
  | cons thread threads ih =>
    cases tid with
    | zero =>
      simp only [getElem?_cons_zero, some.injEq] at h
      subst h
      simp only [set_cons_zero, total_cons, map_append, sum_append, map_cons, sum_cons]
      omega
    | succ tid =>
      rw [getElem?_cons_succ] at h
      have hrest := ih h
      rw [set_cons_succ, total_cons, total_cons]
      omega

/-! ## Kinds of tasks -/

/-- Some thread has a task of the kind. -/
def Has (φ : τ → Prop) (threads : List (List τ)) : Prop :=
  ∃ thread ∈ threads, ∃ a ∈ thread, φ a

lemma Has.mono {ψ : τ → Prop} (h : Has φ threads) (himp : ∀ a, φ a → ψ a) : Has ψ threads := by
  obtain ⟨thread, hthread, a, ha, hφ⟩ := h
  exact ⟨thread, hthread, a, ha, himp a hφ⟩

@[simp] lemma not_has_nil (φ : τ → Prop) : ¬ Has φ [] := by
  rintro ⟨thread, hthread, -⟩
  cases hthread

lemma has_append {threads' : List (List τ)} :
    Has φ (threads ++ threads') ↔ Has φ threads ∨ Has φ threads' := by
  simp only [Has, mem_append]
  constructor
  · rintro ⟨thread, hthread | hthread, ha⟩
    · exact .inl ⟨thread, hthread, ha⟩
    · exact .inr ⟨thread, hthread, ha⟩
  · rintro (⟨thread, hthread, ha⟩ | ⟨thread, hthread, ha⟩)
    · exact ⟨thread, .inl hthread, ha⟩
    · exact ⟨thread, .inr hthread, ha⟩

/-- After doing the first task of a thread, a kind is left iff another task has it or the first one
led to it. -/
lemma has_set (h : threads[tid]? = some (a :: rest)) (hφ : Has φ threads) :
    φ a ∨ Has φ (threads.set tid (next ++ rest)) := by
  obtain ⟨thread, hthread, b, hb, hφb⟩ := hφ
  obtain ⟨i, hi⟩ := List.mem_iff_getElem?.mp hthread
  obtain ⟨hlt, -⟩ := List.getElem?_eq_some_iff.mp h
  by_cases hti : tid = i
  · subst hti
    rw [h, some.injEq] at hi
    subst hi
    rcases List.mem_cons.mp hb with rfl | hb
    · exact .inl hφb
    · exact .inr ⟨next ++ rest, List.mem_iff_getElem?.mpr ⟨tid, by simp [hlt]⟩, b,
        mem_append_right _ hb, hφb⟩
  · refine .inr ⟨thread, List.mem_iff_getElem?.mpr ⟨i, ?_⟩, b, hb, hφb⟩
    rw [getElem?_set_ne hti, hi]

/-- **A kind of task stays** unless its task is done. -/
theorem Has.replace (next : List τ) (spawned : List (List τ)) (h : threads[tid]? = some (a :: rest))
    (hφ : Has φ threads) : φ a ∨ Has φ (threads.set tid (next ++ rest) ++ spawned) := by
  rcases has_set h hφ with ha | hset
  · exact .inl ha
  · exact .inr (has_append.mpr (.inl hset))

/-- The tasks that a task leads to are left. -/
lemma Has.of_next (spawned : List (List τ)) (h : threads[tid]? = some (a :: rest))
    (hφ : ∃ b ∈ next, φ b) : Has φ (threads.set tid (next ++ rest) ++ spawned) := by
  obtain ⟨b, hb, hφb⟩ := hφ
  obtain ⟨hlt, -⟩ := List.getElem?_eq_some_iff.mp h
  refine has_append.mpr (.inl ⟨next ++ rest, ?_, b, mem_append_left _ hb, hφb⟩)
  exact List.mem_iff_getElem?.mpr ⟨tid, by simp [hlt]⟩

/-- A kind that is there afterwards was there before, or the first task led to it. -/
lemma Has.before {spawned : List (List τ)} (h : threads[tid]? = some (a :: rest))
    (hφ : Has φ (threads.set tid (next ++ rest) ++ spawned)) :
    Has φ threads ∨ (∃ b ∈ next, φ b) ∨ Has φ spawned := by
  rcases has_append.mp hφ with ⟨thread, hthread, b, hb, hφb⟩ | hspawned
  · rcases mem_or_eq_of_mem_set hthread with hthread | rfl
    · exact .inl ⟨thread, hthread, b, hb, hφb⟩
    · rcases mem_append.mp hb with hb | hb
      · exact .inr (.inl ⟨b, hb, hφb⟩)
      · exact .inl ⟨a :: rest, mem_iff_getElem?.mpr ⟨tid, h⟩, b, mem_cons_of_mem _ hb, hφb⟩
  · exact .inr (.inr hspawned)

/-- A kind that is there afterwards is among the tasks that the first one led to, or among those
that are left without it. -/
lemma Has.of_set (hφ : Has φ (threads.set tid (next ++ rest))) :
    (∃ b ∈ next, φ b) ∨ Has φ (threads.set tid rest) := by
  obtain ⟨thread, hthread, b, hb, hφb⟩ := hφ
  obtain ⟨i, hi⟩ := mem_iff_getElem?.mp hthread
  rw [getElem?_set] at hi
  split_ifs at hi with htid hlt
  · rw [some.injEq] at hi
    subst hi htid
    rcases mem_append.mp hb with hb | hb
    · exact .inl ⟨b, hb, hφb⟩
    · exact .inr ⟨rest, mem_set hlt _, b, hb, hφb⟩
  · refine .inr ⟨thread, mem_iff_getElem?.mpr ⟨i, ?_⟩, b, hb, hφb⟩
    rw [getElem?_set_ne htid, hi]

/-- The first task of a thread is there. -/
lemma Has.of_head (h : threads[tid]? = some (a :: rest)) (ha : φ a) : Has φ threads :=
  ⟨a :: rest, mem_iff_getElem?.mpr ⟨tid, h⟩, a, mem_cons_self, ha⟩

/-- A sum is positive iff some task has weight. -/
lemma total_pos_iff {w : τ → ℕ} : 0 < total w threads ↔ Has (fun a => 0 < w a) threads := by
  rw [total, List.sum_pos_iff_exists_pos_nat]
  simp only [List.mem_map, exists_exists_and_eq_and, List.sum_pos_iff_exists_pos_nat, Has]

/-- A thread counts for no more than all. -/
lemma weight_le_total {w : τ → ℕ} (h : thread ∈ threads) : (thread.map w).sum ≤ total w threads := by
  induction threads with
  | nil => cases h
  | cons first threads ih =>
    rw [total_cons]
    rcases mem_cons.mp h with rfl | h
    · exact Nat.le_add_right _ _
    · exact Nat.le_trans (ih h) (Nat.le_add_left _ _)

/-- Two threads count together. -/
lemma total_two {w : τ → ℕ} {i j : ℕ} {thread' : List τ} (hi : threads[i]? = some thread)
    (hj : threads[j]? = some thread') (hne : i ≠ j) :
    (thread.map w).sum + (thread'.map w).sum ≤ total w threads := by
  induction threads generalizing i j with
  | nil => simp at hi
  | cons first threads ih =>
    have hmem : ∀ {k : ℕ} {t : List τ}, threads[k]? = some t →
        (t.map w).sum ≤ total w threads := fun hk =>
      weight_le_total (mem_iff_getElem?.mpr ⟨_, hk⟩)
    rw [total_cons]
    cases i with
    | zero =>
      cases j with
      | zero => exact absurd rfl hne
      | succ j =>
        simp only [getElem?_cons_zero, some.injEq] at hi
        subst hi
        exact Nat.add_le_add_left (hmem hj) _
    | succ i =>
      cases j with
      | zero =>
        simp only [getElem?_cons_zero, some.injEq] at hj
        subst hj
        have hle := hmem hi
        omega
      | succ j =>
        exact Nat.le_trans (ih hi hj fun heq => hne (by rw [heq])) (Nat.le_add_left _ _)

/-! ## Closing tasks -/

/-- Each task that needs a closing one is followed by it. -/
def Covered (closer : τ → Option τ) : List τ → Prop
  | [] => True
  | a :: rest => (∀ b, closer a = some b → b ∈ rest) ∧ Covered closer rest

@[simp] lemma covered_nil (closer : τ → Option τ) : Covered closer [] := trivial

@[simp] lemma covered_cons :
    Covered closer (a :: rest) ↔ (∀ b, closer a = some b → b ∈ rest) ∧ Covered closer rest :=
  Iff.rfl

/-- Both parts are closed, so the whole is. -/
lemma Covered.append {l l' : List τ} (h : Covered closer l) (h' : Covered closer l') :
    Covered closer (l ++ l') := by
  induction l with
  | nil => exact h'
  | cons a l ih => exact ⟨fun b hb => mem_append_left _ (h.1 b hb), ih h.2⟩

/-- Tasks that are closed like the first one may stand in its place. -/
lemma Covered.replace (h : Covered closer (a :: rest))
    (hnext : ∀ b ∈ next, ∀ d, closer b = some d → closer a = some d) :
    Covered closer (next ++ rest) := by
  induction next with
  | nil => exact h.2
  | cons b next ih =>
    refine ⟨fun d hd => ?_, ih fun b hb => hnext b (mem_cons_of_mem _ hb)⟩
    exact mem_append_right _ (h.1 d (hnext b mem_cons_self d hd))

/-- Without the closing task there is none that needs it. -/
lemma Covered.notMem (h : Covered closer thread) {b : τ} (hb : closer a = some b)
    (hnot : b ∉ thread) : a ∉ thread := by
  induction thread with
  | nil => exact not_mem_nil
  | cons c rest ih =>
    rw [mem_cons, not_or] at hnot ⊢
    refine ⟨fun heq => ?_, ih h.2 hnot.2⟩
    exact hnot.2 (h.1 b (heq ▸ hb))

end Threads
