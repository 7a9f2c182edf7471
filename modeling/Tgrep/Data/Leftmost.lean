import Mathlib.Data.List.TakeWhile
import Mathlib.Order.Monotone.Basic

/-!
# Leftmost matches, one after another

A finder yields a leftmost match from an offset on. All matches of a text are enumerated by searching
again from the end of the last one, where an empty match is not taken a second time. Not every match
is among them, but every one begins within, or at the end of, one that is.

## Main definitions

* `Leftmost.Finds`: what a finder yields.
* `Leftmost.next`: the match behind the last one.
* `Leftmost.findIter`: the matches one after another.

## Main results

* `Leftmost.pairwise_findIter`: each match begins behind the one before.
* `Leftmost.findIter_covers`: every match begins within one that is enumerated.
-/

namespace Leftmost

open Option List

/-- A finder yields a match that begins leftmost from an offset on, if there is one. -/
structure Finds (IsMatch : ℕ → ℕ → Prop) (len : ℕ) (find : ℕ → Option (ℕ × ℕ)) : Prop where
  range : ∀ s e, IsMatch s e → s ≤ e ∧ e ≤ len
  sound : ∀ i s e, find i = some (s, e) → i ≤ s ∧ IsMatch s e
  leftmost : ∀ i s e a b, find i = some (s, e) → IsMatch a b → i ≤ a → s ≤ a
  complete : ∀ i a b, find i = none → IsMatch a b → a < i

/-- The match behind the last one, from an offset on. An empty match where the last one ended is not
taken. -/
def next (find : ℕ → Option (ℕ × ℕ)) (start : ℕ) (lastMatchEnd : Option ℕ) : Option (ℕ × ℕ) :=
  match find start with
  | none => none
  | some (s, e) => if s = e ∧ lastMatchEnd = some e then find (start + 1) else some (s, e)

/-- The matches from an offset on. -/
def findFrom (find : ℕ → Option (ℕ × ℕ)) : ℕ → ℕ → Option ℕ → List (ℕ × ℕ)
  | 0, _, _ => []
  | fuel + 1, start, lastMatchEnd =>
    match next find start lastMatchEnd with
    | none => []
    | some (s, e) => (s, e) :: findFrom find fuel e (some e)

/-- The matches of a text of a length, one after another. -/
def findIter (find : ℕ → Option (ℕ × ℕ)) (len : ℕ) : List (ℕ × ℕ) := findFrom find (len + 2) 0 none

variable {IsMatch : ℕ → ℕ → Prop} {len : ℕ} {find : ℕ → Option (ℕ × ℕ)}

variable {start b a : ℕ} {lastMatchEnd : Option ℕ}

variable (h : Finds IsMatch len find)

include h

/-- What the next match is. It does not end where the last one did. -/
lemma next_eq_some {s e : ℕ} (hlast : lastMatchEnd = none ∨ lastMatchEnd = some start)
    (hnext : next find start lastMatchEnd = some (s, e)) :
    start ≤ s ∧ IsMatch s e ∧ (lastMatchEnd = some start → start < e) ∧
      ∀ a b, IsMatch a b → start ≤ a → (lastMatchEnd = some start → start < a) → s ≤ a := by
  rw [next] at hnext
  cases hfind : find start with
  | none =>
    rw [hfind] at hnext
    cases hnext
  | some found =>
    obtain ⟨s₀, e₀⟩ := found
    obtain ⟨hstart₀, hmatch₀⟩ := h.sound _ _ _ hfind
    rw [hfind] at hnext
    dsimp only at hnext
    split_ifs at hnext with hagain
    · -- the match is empty and where the last one ended, so the search goes on behind it
      obtain ⟨rfl, hsame⟩ := hagain
      obtain ⟨hstart, hmatch⟩ := h.sound _ _ _ hnext
      obtain ⟨hse, -⟩ := h.range _ _ hmatch
      have heq : lastMatchEnd = some start := by
        rcases hlast with hnone | hsome
        · rw [hnone] at hsame
          cases hsame
        · exact hsome
      exact ⟨by omega, hmatch, fun _ => by omega,
        fun a b hab ha hlt => h.leftmost _ _ _ _ _ hnext hab (hlt heq)⟩
    · obtain ⟨rfl, rfl⟩ := Prod.mk.inj (some.inj hnext)
      obtain ⟨hse, -⟩ := h.range _ _ hmatch₀
      refine ⟨hstart₀, hmatch₀, fun heq => ?_, fun a b hab ha _ => h.leftmost _ _ _ _ _ hfind hab ha⟩
      by_contra hle
      obtain rfl : s₀ = start := by omega
      obtain rfl : e₀ = s₀ := by omega
      exact hagain ⟨rfl, heq⟩

/-- Without a next match, nothing matches any more. -/
lemma next_eq_none (hlast : lastMatchEnd = none ∨ lastMatchEnd = some start)
    (hnext : next find start lastMatchEnd = none) (hab : IsMatch a b) (ha : start ≤ a) :
    lastMatchEnd = some start ∧ a = start := by
  rw [next] at hnext
  cases hfind : find start with
  | none => exact absurd (h.complete _ _ _ hfind hab) (by omega)
  | some found =>
    obtain ⟨s, e⟩ := found
    rw [hfind] at hnext
    dsimp only at hnext
    split_ifs at hnext with hagain
    have hlt := h.complete _ _ _ hnext hab
    refine ⟨?_, by omega⟩
    rcases hlast with hnone | hsome
    · rw [hnone] at hagain
      cases hagain.2
    · exact hsome

/-- The matches begin behind the offset, and each behind the one before. -/
lemma pairwise_findFrom (fuel start : ℕ) (lastMatchEnd : Option ℕ)
    (hlast : lastMatchEnd = none ∨ lastMatchEnd = some start) :
    (∀ m ∈ findFrom find fuel start lastMatchEnd, start ≤ m.1 ∧ IsMatch m.1 m.2) ∧
      (findFrom find fuel start lastMatchEnd).Pairwise fun m m' => m.2 ≤ m'.1 := by
  induction fuel generalizing start lastMatchEnd with
  | zero => exact ⟨forall_mem_nil _, List.Pairwise.nil⟩
  | succ fuel ih =>
    rw [findFrom]
    cases hnext : next find start lastMatchEnd with
    | none => exact ⟨forall_mem_nil _, List.Pairwise.nil⟩
    | some found =>
      obtain ⟨s, e⟩ := found
      obtain ⟨hstart, hmatch, -, -⟩ := next_eq_some h hlast hnext
      obtain ⟨hse, -⟩ := h.range _ _ hmatch
      obtain ⟨hrest, hpairs⟩ := ih e (some e) (.inr rfl)
      dsimp only
      refine ⟨forall_mem_cons.mpr ⟨⟨hstart, hmatch⟩, fun m hm => ?_⟩,
        pairwise_cons.mpr ⟨fun m hm => (hrest m hm).1, hpairs⟩⟩
      obtain ⟨hm₁, hm₂⟩ := hrest m hm
      exact ⟨by omega, hm₂⟩

/-- **Every match begins within one that is enumerated**, or where the last one ended. -/
theorem findFrom_covers (fuel start : ℕ) (lastMatchEnd : Option ℕ)
    (hlast : lastMatchEnd = none ∨ lastMatchEnd = some start)
    (hfuel : len - start + (if lastMatchEnd = none then 1 else 0) < fuel) (hab : IsMatch a b)
    (ha : start ≤ a) (hlt : lastMatchEnd = some start → start < a) :
    ∃ m ∈ findFrom find fuel start lastMatchEnd, m.1 ≤ a ∧ a ≤ m.2 := by
  induction fuel generalizing start lastMatchEnd with
  | zero => omega
  | succ fuel ih =>
    rw [findFrom]
    cases hnext : next find start lastMatchEnd with
    | none =>
      obtain ⟨heq, rfl⟩ := next_eq_none h hlast hnext hab ha
      exact absurd (hlt heq) (lt_irrefl _)
    | some found =>
      obtain ⟨s, e⟩ := found
      obtain ⟨hstart, hmatch, hmoves, hleft⟩ := next_eq_some h hlast hnext
      obtain ⟨hse, hlen⟩ := h.range _ _ hmatch
      obtain ⟨hab₁, hab₂⟩ := h.range _ _ hab
      dsimp only
      by_cases hin : a ≤ e
      · exact ⟨(s, e), mem_cons_self, hleft a b hab ha hlt, hin⟩
      · have hless : len - e + 0 < fuel := by
          rcases hlast with hnone | hsome
          · rw [if_pos hnone] at hfuel
            omega
          · rw [if_neg (by rw [hsome]; exact some_ne_none _)] at hfuel
            have he := hmoves hsome
            omega
        obtain ⟨m, hm, hcovers⟩ := ih e (some e) (.inr rfl)
          (by rw [if_neg (some_ne_none _)]; exact hless) (by omega) (fun _ => by omega)
        exact ⟨m, mem_cons_of_mem _ hm, hcovers⟩

/-- The matches are matches. -/
lemma isMatch_of_mem_findIter {m : ℕ × ℕ} (hm : m ∈ findIter find len) : IsMatch m.1 m.2 :=
  ((pairwise_findFrom h _ _ _ (.inl rfl)).1 m hm).2

/-- Each match begins behind the one before. -/
lemma pairwise_findIter : (findIter find len).Pairwise fun m m' => m.2 ≤ m'.1 :=
  (pairwise_findFrom h _ _ _ (.inl rfl)).2

/-- **Every match begins within one that is enumerated**, or at its end. -/
theorem findIter_covers (hab : IsMatch a b) : ∃ m ∈ findIter find len, m.1 ≤ a ∧ a ≤ m.2 :=
  findFrom_covers h (len + 2) 0 none (.inl rfl) (by rw [if_pos rfl]; omega) hab (Nat.zero_le _)
    (fun hnone => by cases hnone)

end Leftmost
