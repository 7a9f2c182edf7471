import Mathlib.Data.List.Lex
import Mathlib.Data.List.TakeWhile
import Mathlib.Order.Lattice

/-!
# Searching sorted sequences

Binary search in an ascending sequence, the point where a list is partitioned, and the range of a
sorted list whose keys start with a given prefix.

## Main definitions

* `Search.binarySearch`: the half-open binary search loop.
* `Search.partitionPoint`: how many elements satisfy a predicate, found by halving.
* `Search.lowerBound`: how many elements of a sorted list are below a bound.
* `Search.withPrefix`: skip what is below a prefix, then take what starts with it.

## Main results

* `Search.binarySearch_sound`, `Search.binarySearch_complete`: the loop finds the index of the
  target if there is one.
* `Search.isSome_binarySearch`: equal keys do not matter for whether there is one.
* `Search.drop_partitionPoint`: what is behind the partition point.
* `Search.head?_dropWhile_prefix`: a sorted list is searched for a prefix at one element.
* `Search.mem_withPrefix`: in a sorted list, the range holds exactly the keys with the prefix.
-/

namespace Search

open List Option

/-! ## Binary search -/

section Binary

variable {κ : Type*} [LinearOrder κ]

/-- Search the indices from `lo` below `hi` for a key. -/
def binarySearch (key : ℕ → κ) (target : κ) (lo hi : ℕ) : Option ℕ :=
  if lo < hi then
    let mid := lo + (hi - lo) / 2
    if key mid = target then some mid
    else if key mid < target then binarySearch key target (mid + 1) hi
    else binarySearch key target lo mid
  else none
termination_by hi - lo

variable {hi lo : ℕ} {target : κ} {key : ℕ → κ}

/-- Whatever the search returns is an index of the target. -/
lemma binarySearch_sound {i : ℕ} (h : binarySearch key target lo hi = some i) :
    lo ≤ i ∧ i < hi ∧ key i = target := by
  fun_induction binarySearch key target lo hi with
  | case1 lo hi hlt mid heq =>
    obtain rfl : mid = i := some.inj h
    exact ⟨by omega, by omega, heq⟩
  | case2 lo hi hlt mid hne hless ih =>
    obtain ⟨h1, h2, h3⟩ := ih h
    exact ⟨by omega, h2, h3⟩
  | case3 lo hi hlt mid hne hnless ih =>
    obtain ⟨h1, h2, h3⟩ := ih h
    exact ⟨h1, by omega, h3⟩
  | case4 lo hi hnlt => cases h

/-- In a strictly ascending sequence, the search finds the target if it is in range. -/
lemma binarySearch_complete {i : ℕ} (hasc : ∀ i j, i < j → j < hi → key i < key j)
    (hlo : lo ≤ i) (hhi : i < hi) (hi' : key i = target) : binarySearch key target lo hi = some i := by
  fun_induction binarySearch key target lo hi with
  | case1 lo hi hlt mid heq =>
    rcases lt_trichotomy mid i with h | h | h
    · exact absurd (heq.trans hi'.symm) (hasc mid i h hhi).ne
    · rw [h]
    · exact absurd (hi'.trans heq.symm) (hasc i mid h (by omega)).ne
  | case2 lo hi hlt mid hne hless ih =>
    refine ih hasc ?_ hhi
    by_contra hle
    rcases Nat.lt_or_eq_of_le (show i ≤ mid by omega) with h | h
    · exact absurd (hasc i mid h (by omega)) (by rw [hi']; exact hless.not_gt)
    · exact hne (h ▸ hi')
  | case3 lo hi hlt mid hne hnless ih =>
    refine ih (fun a b hab hb => hasc a b hab (by omega)) hlo ?_
    by_contra hge
    rcases Nat.lt_or_eq_of_le (show mid ≤ i by omega) with h | h
    · exact hnless (hi' ▸ hasc mid i h hhi)
    · exact hne (h ▸ hi')
  | case4 lo hi hnlt => omega

/-- In a sequence that ascends weakly, the search finds something iff the target is in range. -/
lemma isSome_binarySearch (hasc : ∀ i j, i < j → j < hi → key i ≤ key j) :
    (binarySearch key target lo hi).isSome = true ↔ ∃ i, lo ≤ i ∧ i < hi ∧ key i = target := by
  fun_induction binarySearch key target lo hi with
  | case1 lo hi hlt mid heq => exact iff_of_true rfl ⟨mid, by omega, by omega, heq⟩
  | case2 lo hi hlt mid hne hless ih =>
    rw [ih hasc]
    constructor
    · exact fun ⟨i, h1, h2, h3⟩ => ⟨i, by omega, h2, h3⟩
    · rintro ⟨i, h1, h2, h3⟩
      refine ⟨i, ?_, h2, h3⟩
      by_contra hle
      rcases Nat.lt_or_eq_of_le (show i ≤ mid by omega) with h | h
      · exact absurd (hasc i mid h (by omega)) (by rw [h3]; exact not_le.mpr hless)
      · exact hne (h ▸ h3)
  | case3 lo hi hlt mid hne hnless ih =>
    rw [ih fun a b hab hb => hasc a b hab (by omega)]
    constructor
    · exact fun ⟨i, h1, h2, h3⟩ => ⟨i, h1, by omega, h3⟩
    · rintro ⟨i, h1, h2, h3⟩
      refine ⟨i, h1, ?_, h3⟩
      by_contra hge
      rcases Nat.lt_or_eq_of_le (show mid ≤ i by omega) with h | h
      · exact hnless (lt_of_le_of_ne (h3 ▸ hasc mid i h h2) hne)
      · exact hne (h ▸ h3)
  | case4 lo hi hnlt =>
    exact iff_of_false Bool.false_ne_true fun ⟨i, h1, h2, _⟩ => hnlt (by omega)

end Binary

/-! ## Prefix ranges -/

section Prefix

variable {α β : Type*} [LinearOrder α]

variable {l : List α} {key : β → List α} {p : List α}

/-- Lists are compared by their heads first. -/
lemma cons_le_cons {a b : α} {m : List α} : a :: l ≤ b :: m ↔ a < b ∨ a = b ∧ l ≤ m := by
  rw [← not_lt, cons_lt_cons_iff, not_or, not_and, not_lt (a := m)]
  constructor
  · rintro ⟨hab, hlm⟩
    rcases (not_lt.mp hab).lt_or_eq with h | h
    · exact .inl h
    · exact .inr ⟨h, hlm h.symm⟩
  · rintro (h | ⟨rfl, h⟩)
    · exact ⟨h.asymm, fun heq => absurd heq h.ne'⟩
    · exact ⟨lt_irrefl _, fun _ => h⟩

/-- A list with a prefix is at least that prefix. -/
lemma le_of_isPrefix (h : p <+: l) : p ≤ l := by
  obtain ⟨t, rfl⟩ := h
  induction p with
  | nil => exact not_lt.mp (not_lt_nil _)
  | cons a p ih =>
    rw [cons_append, cons_le_cons]
    exact .inr ⟨rfl, ih⟩

/-- The lists with a prefix form an interval: whatever lies between the prefix and a list that
starts with it starts with it too. -/
lemma prefix_of_between {m : List α} (hp : p ≤ l) (hl : l ≤ m) (hm : p <+: m) : p <+: l := by
  induction p generalizing l m with
  | nil => exact nil_prefix
  | cons a p ih =>
    obtain ⟨m', rfl, hm'⟩ : ∃ m', m = a :: m' ∧ p <+: m' := by
      obtain ⟨t, rfl⟩ := hm
      exact ⟨p ++ t, rfl, prefix_append _ _⟩
    cases l with
    | nil => exact absurd hp (not_le.mpr (nil_lt_cons a p))
    | cons b l =>
      rw [cons_le_cons] at hp hl
      obtain ⟨rfl, hp'⟩ : a = b ∧ p ≤ l := by
        rcases hp with hab | hab
        · rcases hl with hba | ⟨hba, -⟩
          · exact absurd hba hab.asymm
          · exact absurd hba hab.ne'
        · exact hab
      have hl' : l ≤ m' := by
        rcases hl with h | h
        · exact absurd h (lt_irrefl a)
        · exact h.2
      exact (prefix_cons_inj a).mpr (ih hp' hl' hm')

/-- Skip the elements whose keys are below the prefix, then take those whose keys start with
it. -/
def withPrefix (key : β → List α) (p : List α) (l : List β) : List β :=
  (l.dropWhile fun b => key b < p).takeWhile fun b => p.isPrefixOf (key b)

/-- A scan over a sorted list from the prefix on reaches every element that has it. -/
lemma mem_takeWhile_prefix {l : List β} (hl : l.Pairwise fun a b => key a ≤ key b)
    (hge : ∀ c ∈ l, p ≤ key c) {b : β} (hb : b ∈ l) (hp : p <+: key b) :
    b ∈ l.takeWhile fun b => p.isPrefixOf (key b) := by
  induction l with
  | nil => simp at hb
  | cons c l ih =>
    obtain ⟨hc, hl'⟩ := pairwise_cons.mp hl
    obtain ⟨hpc, hge'⟩ := forall_mem_cons.mp hge
    have hprefix : p <+: key c := by
      rcases mem_cons.mp hb with rfl | hb'
      · exact hp
      · exact prefix_of_between hpc (hc b hb') hp
    rw [takeWhile_cons, if_pos ( isPrefixOf_iff_prefix.mpr hprefix)]
    rcases mem_cons.mp hb with rfl | hb'
    · exact mem_cons_self ..
    · exact mem_cons_of_mem _ (ih hl' hge' hb')

/-- What is left after skipping the keys below the prefix is at least the prefix. -/
lemma le_of_mem_dropWhile {l : List β} (hl : l.Pairwise fun a b => key a ≤ key b) {c : β}
    (hc : c ∈ l.dropWhile fun b => key b < p) : p ≤ key c := by
  induction l with
  | nil => simp at hc
  | cons a l ih =>
    obtain ⟨ha, hl'⟩ := pairwise_cons.mp hl
    by_cases hlt : key a < p
    · rw [dropWhile_cons_of_pos (by simpa using hlt)] at hc
      exact ih hl' hc
    · rw [dropWhile_cons_of_neg (by simpa using hlt)] at hc
      rcases mem_cons.mp hc with rfl | hc'
      · exact not_lt.mp hlt
      · exact (not_lt.mp hlt).trans (ha c hc')

/-- **In a sorted list the range holds exactly the elements with the prefix.**

**Proof sketch.** An element with the prefix is not below it, so it is not skipped. If the scan
stopped before it at some element, that element's key would lie between the prefix and a key with
the prefix, and so have the prefix itself. -/
theorem mem_withPrefix {l : List β} (hl : l.Pairwise fun a b => key a ≤ key b) {b : β} :
    b ∈ withPrefix key p l ↔ b ∈ l ∧ p <+: key b := by
  rw [withPrefix]
  constructor
  · intro h
    have hscan := mem_takeWhile_imp (p := fun b => p.isPrefixOf (key b)) h
    exact ⟨(dropWhile_sublist _).subset ((takeWhile_sublist _).subset h),
      List.isPrefixOf_iff_prefix.mp hscan⟩
  · rintro ⟨hb, hp⟩
    have hsplit : b ∈ (l.takeWhile fun b => key b < p) ++ l.dropWhile fun b => key b < p := by
      rwa [takeWhile_append_dropWhile]
    have hskip : b ∈ l.dropWhile fun b => key b < p := by
      refine (List.mem_append.mp hsplit).resolve_left fun hlow => ?_
      have hlt : key b < p := by simpa using mem_takeWhile_imp hlow
      exact absurd (le_of_isPrefix hp) hlt.not_ge
    exact mem_takeWhile_prefix (hl.sublist (dropWhile_sublist _))
      (fun c hc => le_of_mem_dropWhile hl hc) hskip hp

end Prefix

/-! ## Partition points -/

section Partition

variable {β : Type*}

/-- Narrow the range from `lo` to `hi` down to the first index that the predicate refuses. -/
def partitionPointFrom (p : ℕ → Bool) (lo hi : ℕ) : ℕ :=
  if lo < hi then
    let mid := lo + (hi - lo) / 2
    if p mid then partitionPointFrom p (mid + 1) hi else partitionPointFrom p lo mid
  else lo
termination_by hi - lo

/-- How many elements satisfy a predicate, where those that do come first. -/
def partitionPoint (p : β → Bool) (l : List β) : ℕ :=
  partitionPointFrom (fun i => l[i]?.any p) 0 l.length

/-- If the predicate holds below a bound and nowhere else, then the bound is found. -/
lemma partitionPointFrom_eq {p : ℕ → Bool} {lo hi n : ℕ} (hlo : lo ≤ n) (hhi : n ≤ hi)
    (hbelow : ∀ i, i < n → p i = true) (habove : ∀ i, n ≤ i → i < hi → p i = false) :
    partitionPointFrom p lo hi = n := by
  fun_induction partitionPointFrom p lo hi with
  | case1 lo hi hlt mid hp ih =>
    refine ih ?_ hhi habove
    by_contra hle
    exact Bool.false_ne_true ((habove mid (by omega) (by omega)).symm.trans hp)
  | case2 lo hi hlt mid hp ih =>
    refine ih hlo ?_ fun i hi' hlt' => habove i hi' (by omega)
    by_contra hle
    exact hp (hbelow mid (by omega))
  | case3 lo hi hnlt => omega

variable {p : β → Bool} {l : List β}

/-- Where those that satisfy a predicate come first, they are the leading ones. -/
lemma getElem?_partitioned (h : l.Pairwise fun a b => p b = true → p a = true) {i : ℕ} {b : β}
    (hi : l[i]? = some b) : p b = true ↔ i < (l.takeWhile p).length := by
  induction l generalizing i with
  | nil => cases hi
  | cons a l ih =>
    obtain ⟨ha, hl⟩ := pairwise_cons.mp h
    by_cases hp : p a = true
    · rw [takeWhile_cons_of_pos hp, length_cons]
      cases i with
      | zero =>
        obtain rfl := some.inj hi
        exact iff_of_true hp (Nat.succ_pos _)
      | succ i =>
        rw [ih hl hi]
        omega
    · rw [takeWhile_cons_of_neg hp]
      refine iff_of_false (fun hb => hp ?_) (Nat.not_lt_zero i)
      rcases mem_cons.mp (mem_of_getElem? hi) with rfl | hmem
      · exact hb
      · exact ha b hmem hb

/-- **The partition point** is the number of the leading elements that satisfy the predicate. -/
theorem partitionPoint_eq (h : l.Pairwise fun a b => p b = true → p a = true) :
    partitionPoint p l = (l.takeWhile p).length := by
  have hbound := ( takeWhile_prefix (l := l) p).length_le
  refine partitionPointFrom_eq (Nat.zero_le _) hbound (fun i hi => ?_) fun i hi hlt => ?_
  · have hget := getElem?_eq_getElem (hi.trans_le hbound)
    rw [hget, any_some, getElem?_partitioned h hget]
    exact hi
  · have hget := getElem?_eq_getElem hlt
    rw [hget, any_some, Bool.eq_false_iff, Ne, getElem?_partitioned h hget]
    exact not_lt.mpr hi

/-- Behind the partition point is what is left when the leading elements are dropped. -/
lemma drop_partitionPoint (h : l.Pairwise fun a b => p b = true → p a = true) :
    l.drop (partitionPoint p l) = l.dropWhile p := by
  have hsplit : l.takeWhile p ++ l.dropWhile p = l := takeWhile_append_dropWhile
  calc l.drop (partitionPoint p l)
      = (l.takeWhile p ++ l.dropWhile p).drop (l.takeWhile p).length := by
        rw [partitionPoint_eq h, hsplit]
    _ = l.dropWhile p := drop_left

/-- **The first element that is not below a prefix** has the prefix iff some element of the sorted
list does. -/
theorem head?_dropWhile_prefix {α : Type*} [LinearOrder α] {key : β → List α} {p : List α}
    (hl : l.Pairwise fun a b => key a ≤ key b) :
    (l.dropWhile fun b => decide (key b < p)).head?.any (fun b => p.isPrefixOf (key b)) = true ↔
      ∃ b ∈ l, p <+: key b := by
  have hmem : (∃ b ∈ l, p <+: key b) ↔ withPrefix key p l ≠ [] := by
    constructor
    · exact fun ⟨b, hb, hp⟩ => ne_nil_of_mem ((mem_withPrefix hl).mpr ⟨hb, hp⟩)
    · intro hne
      obtain ⟨b, hb⟩ := exists_mem_of_ne_nil _ hne
      exact ⟨b, (mem_withPrefix hl).mp hb⟩
  rw [hmem, withPrefix]
  cases l.dropWhile fun b => decide (key b < p) with
  | nil => simp
  | cons b rest =>
    rw [head?_cons, any_some, takeWhile_cons]
    split_ifs with hb <;> simp [hb]

/-- How many elements of a sorted list are below a bound. -/
def lowerBound {α : Type*} [LinearOrder α] (key : β → α) (bound : α) (l : List β) : ℕ :=
  partitionPoint (fun b => decide (key b < bound)) l

/-- From the lower bound on are the elements that are not below it, however that is decided. -/
lemma drop_lowerBound {α : Type*} [LinearOrder α] {key : β → α}
    (hl : l.Pairwise fun a b => key a ≤ key b) (bound : α) [DecidablePred fun b => key b < bound] :
    l.drop (lowerBound key bound l) = l.dropWhile fun b => decide (key b < bound) := by
  have hpart : l.Pairwise fun a b => decide (key b < bound) = true → decide (key a < bound) = true :=
    hl.imp fun hab hb => decide_eq_true (hab.trans_lt (of_decide_eq_true hb))
  rw [lowerBound, ← drop_partitionPoint hpart]
  exact congrArg (fun p => l.drop (partitionPoint p l)) (funext fun b => decide_eq_decide.mpr Iff.rfl)

end Partition
end Search
