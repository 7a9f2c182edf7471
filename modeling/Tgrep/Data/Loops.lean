import Mathlib.Data.List.Basic
import Mathlib.Tactic.Common
import Tgrep.Data.Run

/-!
# Loops that may fail, and loops over chunks

The invariant rules of a fold in `Except`, and the chunks of a list.

## Main definitions

* `Loops.chunks`: cut a list into pieces of a given length, the last one possibly shorter.
* `Loops.stepBy`: every `n`-th number of a range.

## Main results

* `Loops.foldlM_invariant`: what every successful step preserves holds after a successful loop.
* `Loops.foldlM_ok`: a loop whose steps all succeed, succeeds.
* `Loops.foldlM_eq_ok`: a loop of guarded steps succeeds iff every guard passes.
* `Loops.flatten_chunks`: the chunks of a list concatenate to it.
* `Loops.chunks_flatMap`: changing every chunk in place leaves the places of the chunks.
* `Loops.map_stepBy`: the chunks of a list are its slices at every `n`-th index.
-/

namespace Loops

open List

/-! ## Fallible loops -/

section Fallible

universe u v

variable {ε : Type u} {σ α β : Type v}

/-- A computation in two parts succeeds iff both parts do. -/
lemma bind_eq_ok {x : Except ε α} {f : α → Except ε β} {b : β} :
    (x >>= f) = .ok b ↔ ∃ a, x = .ok a ∧ f a = .ok b := by
  cases x with
  | error e =>
    constructor
    · intro h
      cases h
    · rintro ⟨a, h, -⟩
      cases h
  | ok a =>
    constructor
    · exact fun h => ⟨a, rfl, h⟩
    · rintro ⟨a', h, hf⟩
      cases h
      exact hf

variable {s' s : σ} {as : List α}

/-- If a step succeeds on every element, then so does the loop over the elements. -/
lemma mapM_eq_ok {g : α → Except ε β} {h : α → β} (hall : ∀ a ∈ as, g a = .ok (h a)) :
    as.mapM g = .ok (as.map h) := by
  induction as with
  | nil => rfl
  | cons a as ih =>
    obtain ⟨ha, has⟩ := forall_mem_cons.mp hall
    rw [mapM_cons, ha, ih has]
    rfl

variable {step : σ → α → Except ε σ} {P : List α → σ → Prop}

/-- **The invariant rule**: what every successful step preserves holds after a successful loop. The
invariant may speak of the elements processed so far. -/
theorem foldlM_invariant (hstep : ∀ done a s s', P done s → step s a = .ok s' → P (done ++ [a]) s')
    (hs : P [] s) (h : as.foldlM step s = .ok s') : P as s' := by
  have hloop : ∀ (as done : List α) (s : σ), P done s → as.foldlM step s = .ok s' →
      P (done ++ as) s' := by
    intro as
    induction as with
    | nil =>
      intro done s hs h
      cases h
      rwa [append_nil]
    | cons a as ih =>
      intro done s hs h
      rw [foldlM_cons, bind_eq_ok] at h
      obtain ⟨s₁, h₁, hrest⟩ := h
      have := ih (done ++ [a]) s₁ (hstep done a s s₁ hs h₁) hrest
      rwa [append_assoc, singleton_append] at this
  exact hloop as [] s hs h

/-- **The totality rule**: a loop whose steps all succeed, succeeds. -/
theorem foldlM_ok (hstep : ∀ done a rest s, as = done ++ a :: rest → P done s →
      ∃ s', step s a = .ok s' ∧ P (done ++ [a]) s') (hs : P [] s) :
    ∃ s', as.foldlM step s = .ok s' ∧ P as s' := by
  have hloop : ∀ (rest done : List α) (s : σ), as = done ++ rest → P done s →
      ∃ s', rest.foldlM step s = .ok s' ∧ P as s' := by
    intro rest
    induction rest with
    | nil =>
      intro done s has hs
      rw [append_nil] at has
      exact ⟨s, rfl, has ▸ hs⟩
    | cons a rest ih =>
      intro done s has hs
      obtain ⟨s₁, h₁, hs₁⟩ := hstep done a rest s has hs
      obtain ⟨s', h', hs'⟩ := ih (done ++ [a]) s₁ (by rw [has, append_cons]) hs₁
      exact ⟨s', by rw [foldlM_cons, h₁]; exact h', hs'⟩
  exact hloop as [] s rfl hs

/-- Loops whose steps agree on their elements agree. -/
lemma foldlM_congr {step' : σ → α → Except ε σ} (h : ∀ s, ∀ a ∈ as, step s a = step' s a)
    (s : σ) : as.foldlM step s = as.foldlM step' s := by
  induction as generalizing s with
  | nil => rfl
  | cons a as ih =>
    obtain ⟨ha, has⟩ : (∀ s, step s a = step' s a) ∧ ∀ s, ∀ a ∈ as, step s a = step' s a :=
      ⟨fun s => h s a (mem_cons_self ..), fun s b hb => h s b (mem_cons_of_mem _ hb)⟩
    rw [foldlM_cons, foldlM_cons, ha]
    simp only [ih has]

/-- A loop that skips some elements is a loop over the others. -/
lemma foldlM_skip (skip : α → Bool) (as : List α) (s : σ) :
    as.foldlM (fun s a => if skip a then .ok s else step s a) s =
      (as.filter fun a => !skip a).foldlM step s := by
  induction as generalizing s with
  | nil => rfl
  | cons a as ih =>
    rw [foldlM_cons]
    cases ha : skip a with
    | true =>
      rw [filter_cons_of_neg (by simp [ha])]
      exact ih s
    | false =>
      rw [filter_cons_of_pos (by simp [ha]), foldlM_cons]
      exact congrArg _ (funext fun s => ih s)

/-- **The rule of guarded steps**: if a step succeeds iff its guard passes, then a loop succeeds
iff every guard passes on its way, and it ends where the unguarded loop does. -/
theorem foldlM_eq_ok {next : σ → α → σ} {guard : σ → α → Prop}
    (hstep : ∀ s a s', step s a = .ok s' ↔ guard s a ∧ s' = next s a) :
    as.foldlM step s = .ok s' ↔ Run.AllSteps next guard s as ∧ s' = as.foldl next s := by
  induction as generalizing s with
  | nil =>
    rw [foldlM_nil, foldl_nil]
    constructor
    · intro h
      cases h
      exact ⟨Run.allSteps_nil _, rfl⟩
    · rintro ⟨-, rfl⟩
      rfl
  | cons a as ih =>
    rw [foldlM_cons, bind_eq_ok, Run.allSteps_cons, foldl_cons]
    constructor
    · rintro ⟨s₁, h₁, hrest⟩
      obtain ⟨hguard, rfl⟩ := (hstep s a s₁).mp h₁
      obtain ⟨hall, heq⟩ := ih.mp hrest
      exact ⟨⟨hguard, hall⟩, heq⟩
    · rintro ⟨⟨hguard, hall⟩, heq⟩
      exact ⟨next s a, (hstep s a _).mpr ⟨hguard, rfl⟩, ih.mpr ⟨hall, heq⟩⟩

/-- The rule of guarded steps for steps that record a key each and refuse a key recorded before. -/
lemma foldlM_distinct {κ : Type*} [DecidableEq κ] {next : σ → α → σ} {valid : α → Prop}
    {key : α → κ} {seen : σ → Finset κ}
    (hstep : ∀ s a s', step s a = .ok s' ↔ (valid a ∧ key a ∉ seen s) ∧ s' = next s a)
    (hseen : ∀ s a, seen (next s a) = insert (key a) (seen s)) :
    as.foldlM step s = .ok s' ↔
      ((∀ a ∈ as, valid a ∧ key a ∉ seen s) ∧ (as.map key).Nodup) ∧ s' = as.foldl next s := by
  rw [foldlM_eq_ok hstep, Run.allSteps_distinct hseen]

end Fallible

/-! ## Chunks -/

section Chunks

variable {α : Type*}

/-- `slice::chunks`: pieces of length `n`, the last one possibly shorter. -/
def chunks (n : ℕ) (l : List α) : List (List α) :=
  if _h : l = [] ∨ n = 0 then [] else l.take n :: chunks n (l.drop n)
termination_by l.length
decreasing_by
  obtain ⟨hl, hn⟩ := not_or.mp _h
  have := List.length_pos_iff.mpr hl
  rw [length_drop]
  omega

variable {l : List α} {n : ℕ}

/-- The chunks of a list concatenate to it. -/
lemma flatten_chunks (hn : 0 < n) (l : List α) : (chunks n l).flatten = l := by
  fun_induction chunks n l with
  | case1 l h =>
    rw [flatten_nil]
    exact (h.resolve_right (Nat.ne_of_gt hn)).symm
  | case2 l h ih => rw [flatten_cons, ih, take_append_drop]

/-- The elements of a chunk are elements of the list. -/
lemma mem_of_mem_chunks (hn : 0 < n) {c : List α} (hc : c ∈ chunks n l) {a : α} (ha : a ∈ c) :
    a ∈ l := by
  rw [← flatten_chunks hn l]
  exact mem_flatten.mpr ⟨c, hc, ha⟩

/-- What is additive adds up over the chunks. -/
lemma flatten_map_chunks {β : Type*} (hn : 0 < n) {g : List α → List β} (hnil : g [] = [])
    (happ : ∀ a b, g (a ++ b) = g a ++ g b) (l : List α) : ((chunks n l).map g).flatten = g l := by
  conv_rhs => rw [← flatten_chunks hn l]
  generalize chunks n l = pieces
  induction pieces with
  | nil => exact hnil.symm
  | cons c pieces ih => rw [map_cons, flatten_cons, ih, flatten_cons, happ]

/-- No chunk is empty. -/
lemma ne_nil_of_mem_chunks (hn : 0 < n) {c : List α} (hc : c ∈ chunks n l) : c ≠ [] := by
  fun_induction chunks n l with
  | case1 l h => simp at hc
  | case2 l h ih =>
    rcases mem_cons.mp hc with rfl | hc'
    · have hl : l ≠ [] := (not_or.mp h).1
      simp [take_eq_nil_iff, hl, Nat.ne_of_gt hn]
    · exact ih hc'

lemma chunks_nil (n : ℕ) : chunks n ([] : List α) = [] := by
  rw [chunks, dif_pos (.inl rfl)]

lemma chunks_of_ne_nil (hn : 0 < n) (hl : l ≠ []) :
    chunks n l = l.take n :: chunks n (l.drop n) := by
  rw [chunks, dif_neg (not_or.mpr ⟨hl, Nat.ne_of_gt hn⟩)]

/-- Changing every chunk in place leaves the places of the chunks. -/
lemma chunks_flatMap (hn : 0 < n) {f : List α → List α} (hf : ∀ c, (f c).length = c.length)
    (l : List α) : chunks n ((chunks n l).flatMap f) = (chunks n l).map f := by
  fun_induction chunks n l with
  | case1 l h => exact chunks_nil n
  | case2 l h ih =>
    have hl := length_pos_iff.mpr (not_or.mp h).1
    have hlen : (f (l.take n)).length = min n l.length := by rw [hf, length_take]
    rw [flatMap_cons, map_cons]
    have hne : f (l.take n) ++ (chunks n (l.drop n)).flatMap f ≠ [] := by
      intro hnil
      have := congrArg length hnil
      rw [length_append, hlen, length_nil] at this
      omega
    rw [chunks_of_ne_nil hn hne]
    by_cases hshort : l.length ≤ n
    · -- there is only one chunk
      have hrest : (chunks n (l.drop n)).flatMap f = [] := by
        rw [drop_eq_nil_of_le hshort, chunks_nil, flatMap_nil]
      rw [hrest] at ih ⊢
      rw [append_nil, take_of_length_le (by omega), drop_eq_nil_of_le (by omega), ih]
    · rw [take_left' (by omega), drop_left' (by omega), ih]

/-- `(start..stop).step_by(n)`. -/
def stepBy (n start stop : ℕ) : List ℕ :=
  if start < stop ∧ 0 < n then start :: stepBy n (start + n) stop else []
termination_by stop - start

/-- Every number that is stepped on is in the range. -/
lemma lt_of_mem_stepBy {start stop i : ℕ} (hi : i ∈ stepBy n start stop) : i < stop := by
  fun_induction stepBy n start stop with
  | case1 start h ih =>
    rcases mem_cons.mp hi with rfl | hi'
    · exact h.1
    · exact ih hi'
  | case2 => simp at hi

/-- **The chunks of a list are its slices at every `n`-th index.** -/
theorem map_stepBy (hn : 0 < n) (l : List α) (start : ℕ) :
    (stepBy n start l.length).map (fun i => (l.take (min (i + n) l.length)).drop i) =
      chunks n (l.drop start) := by
  generalize hstop : l.length = stop
  fun_induction stepBy n start stop with
  | case1 start h ih =>
    have hne : l.drop start ≠ [] := by
      intro hnil
      have := congrArg length hnil
      rw [length_drop, length_nil] at this
      omega
    rw [map_cons, ih, chunks_of_ne_nil hn hne, drop_drop]
    congr 1
    rw [drop_take, take_eq_take_iff, length_drop]
    omega
  | case2 start h =>
    rw [map_nil, drop_eq_nil_of_le (by omega), chunks_nil]

end Chunks

end Loops
