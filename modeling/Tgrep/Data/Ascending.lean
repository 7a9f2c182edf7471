import Mathlib.Data.List.Nodup
import Mathlib.Data.List.Range
import Mathlib.Data.List.Sort
import Mathlib.Order.Lattice
import Tgrep.Data.FixedWidth

/-!
# Strictly ascending lists and two-cursor merges

Lists that are strictly ascending by a key, the passes that make a list so, and the loops that
walk two such lists with one cursor each.

## Main definitions

* `Ascending`: strictly ascending by a key.
* `Ascending.dedupBy`: `Vec::dedup_by`: drop an element that a predicate identifies with the
  last one kept.
* `Ascending.sortDedup`: stable sort by key, keeping the first element of each key.
* `Ascending.joinWith`: walk two lists and combine the elements with equal keys.
* `Ascending.union`: walk two lists and emit every element once.
* `Ascending.outerJoin`: walk two lists and emit every key with the elements that have it.

## Main results

* `Ascending.sortDedup_ascending`, `Ascending.mem_sortDedup`: the sorted list is ascending and,
  if equal keys mean equal elements, has the same elements.
* `Ascending.mem_joinWith`, `Ascending.joinWith_ascending`: what a join emits.
* `Ascending.filter_sortByKey`, `Ascending.mem_sortDedup_iff`: a stable sort keeps the order of one
  key, so what is left without duplicates is the first element of each key.
* `Ascending.mem_union`, `Ascending.union_ascending`: what a union emits.
* `Ascending.mem_outerJoin`, `Ascending.outerJoin_ascending`: what an outer join emits.
* `Ascending.eq_of_mem_iff`: an ascending list is determined by its elements.
* `Ascending.length_le`: a list that ascends by a 32-bit key is short.
-/

variable {α β γ κ : Type*}

/-- The list is strictly ascending by `key`. -/
def Ascending [LT κ] (key : α → κ) (l : List α) : Prop := l.Pairwise fun a b => key a < key b

namespace Ascending

open List

/-! ## Basic facts -/

section Basic

variable [LinearOrder κ] {key : α → κ}

instance (l : List α) : Decidable (Ascending key l) :=
  inferInstanceAs (Decidable (l.Pairwise fun a b => key a < key b))

@[simp] lemma nil : Ascending key [] := List.Pairwise.nil

variable {a : α} {l' l : List α}

/-- A nonempty list is ascending iff its head is below its ascending tail. -/
lemma cons : Ascending key (a :: l) ↔ (∀ b ∈ l, key a < key b) ∧ Ascending key l :=
  pairwise_cons

/-- Two ascending lists, the first entirely below the second, append to an ascending list. -/
lemma append :
    Ascending key (l ++ l') ↔
      Ascending key l ∧ Ascending key l' ∧ ∀ a ∈ l, ∀ b ∈ l', key a < key b :=
  pairwise_append

/-- In an ascending list, no key is above that of the last element. -/
lemma le_of_getLast? (h : Ascending key l) {last : α} (hlast : l.getLast? = some last)
    (ha : a ∈ l) : key a ≤ key last := by
  obtain ⟨init, rfl⟩ := getLast?_eq_some_iff.mp hlast
  rcases mem_append.mp ha with ha' | ha'
  · exact le_of_lt ((append.mp h).2.2 a ha' last (mem_singleton_self last))
  · rw [mem_singleton.mp ha']

/-- Two ascending lists append to one if the last element of the first is below the head of the
second. -/
lemma append_of_getLast? (h : Ascending key l) (h' : Ascending key l')
    (hlt : ∀ a, l.getLast? = some a → ∀ b, l'.head? = some b → key a < key b) :
    Ascending key (l ++ l') := by
  refine append.mpr ⟨h, h', fun a ha b hb => ?_⟩
  obtain ⟨last, hlast⟩ : ∃ last, l.getLast? = some last :=
    Option.ne_none_iff_exists'.mp fun hnil => by
      rw [getLast?_eq_none_iff.mp hnil] at ha
      simp at ha
  cases l' with
  | nil => simp at hb
  | cons first rest =>
    have hstep := hlt last hlast first rfl
    have hfirst : key first ≤ key b := by
      rcases mem_cons.mp hb with rfl | hb'
      · exact le_rfl
      · exact le_of_lt ((cons.mp h').1 b hb')
    exact lt_of_le_of_lt (h.le_of_getLast? hlast ha) (hstep.trans_le hfirst)

/-- A list is ascending by a key iff the list of its keys is ascending. -/
lemma map_iff : Ascending id (l.map key) ↔ Ascending key l :=
  pairwise_map

/-- A sublist of an ascending list is ascending. -/
lemma sublist (h : Ascending key l) (hs : l'.Sublist l) : Ascending key l' :=
  List.Pairwise.sublist hs h

/-- In an ascending list, elements with equal keys are equal. -/
lemma eq_of_key_eq (h : Ascending key l) {b : α} (ha : a ∈ l) (hb : b ∈ l) (hk : key a = key b) :
    a = b := by
  induction l with
  | nil => simp at ha
  | cons c l ih =>
    obtain ⟨hc, hl⟩ := cons.mp h
    rcases mem_cons.mp ha with rfl | ha'
    · rcases mem_cons.mp hb with rfl | hb'
      · rfl
      · exact absurd hk (hc b hb').ne
    · rcases mem_cons.mp hb with rfl | hb'
      · exact absurd hk (hc a ha').ne'
      · exact ih hl ha' hb'

/-- An ascending list has no duplicates. -/
lemma nodup (h : Ascending key l) : l.Nodup :=
  List.Pairwise.imp (fun hlt heq => (heq ▸ hlt).false) h

/-- An ascending list is determined by its elements. -/
lemma eq_of_mem_iff (h : Ascending key l) (h' : Ascending key l') (hm : ∀ a, a ∈ l ↔ a ∈ l') :
    l = l' := by
  have hperm : l.Perm l' := (perm_ext_iff_of_nodup h.nodup h'.nodup).mpr hm
  have hle : l.Pairwise fun a b => key a ≤ key b := List.Pairwise.imp (fun hlt => hlt.le) h
  have hle' : l'.Pairwise fun a b => key a ≤ key b := List.Pairwise.imp (fun hlt => hlt.le) h'
  refine List.Perm.eq_of_pairwise (fun a b ha hb hab hba => ?_) hle hle' hperm
  exact h.eq_of_key_eq ha ((hm b).mpr hb) (le_antisymm hab hba)

end Basic

/-! ## Counting -/

variable {key : α → UInt32} {l : List α} (same : α → α → Bool × α × α) (kept : α)

/-- Elements with distinct numbers below `n` are at most `n`. -/
lemma length_le_of_nodup {n : ℕ} (hnodup : (l.map key).Nodup) (hlt : ∀ a ∈ l, (key a).toNat < n) :
    l.length ≤ n := by
  have hnodup' : (l.map fun a => (key a).toNat).Nodup := by
    rw [show (fun a => (key a).toNat) = UInt32.toNat ∘ key from rfl, ← map_map]
    exact hnodup.map fun a b => UInt32.toNat_inj.mp
  have hsub : (l.map fun a => (key a).toNat) ⊆ range n := by
    intro i hi
    obtain ⟨a, ha, rfl⟩ := mem_map.mp hi
    exact mem_range.mpr (hlt a ha)
  have hle := (subperm_of_subset hnodup' hsub).length_le
  rwa [length_map, length_range] at hle

/-- A list that ascends by a 32-bit key has at most `2 ^ 32` elements. -/
lemma length_le (h : Ascending key l) : l.length ≤ 2 ^ 32 :=
  length_le_of_nodup (map_iff.mpr h).nodup fun a _ => (key a).toNat_lt

/-! ## Deduplication -/

/-- `Vec::dedup_by` on the elements after the last one kept. `same a b` receives the next element
`a` and the last kept element `b`, may change both, and says whether `a` is dropped. -/
def dedupByFrom (same : α → α → Bool × α × α) : α → List α → List α
  | kept, [] => [kept]
  | kept, a :: l =>
    match same a kept with
    | (true, _, kept') => dedupByFrom same kept' l
    | (false, a', kept') => kept' :: dedupByFrom same a' l

@[simp] lemma dedupByFrom_nil : dedupByFrom same kept [] = [kept] := rfl

/-- `Vec::dedup_by`: drop every element that `same` identifies with the last one kept. -/
def dedupBy (same : α → α → Bool × α × α) : List α → List α
  | [] => []
  | a :: l => dedupByFrom same a l

/-- `Vec::dedup_by_key`: keep the first of consecutive elements with one key. -/
def dedupByKey [DecidableEq κ] (key : α → κ) : List α → List α :=
  dedupBy fun a kept => (key a == key kept, a, kept)

/-- A deduplication that changes no element it keeps emits only elements of its input. -/
lemma mem_of_mem_dedupBy {same : α → α → Bool × α × α}
    (hkeep : ∀ a b, (same a b).2.2 = b ∧ ((same a b).1 = false → (same a b).2.1 = a)) :
    ∀ {l : List α} {x : α}, x ∈ dedupBy same l → x ∈ l := by
  have hfrom : ∀ (l : List α) (kept x : α), x ∈ dedupByFrom same kept l → x ∈ kept :: l := by
    intro l
    induction l with
    | nil => exact fun _ _ h => h
    | cons a l ih =>
      intro kept x hx
      obtain ⟨hb, ha⟩ := hkeep a kept
      rw [dedupByFrom] at hx
      rcases hs : same a kept with ⟨drop, a', kept'⟩
      rw [hs] at hb ha hx
      obtain rfl : kept' = kept := hb
      cases drop with
      | true =>
        rcases mem_cons.mp (ih _ _ hx) with h | h <;> simp [h]
      | false =>
        obtain rfl : a' = a := ha rfl
        rcases mem_cons.mp hx with h | h
        · simp [h]
        · exact mem_cons_of_mem _ (ih _ _ h)
  intro l x hx
  cases l with
  | nil => exact hx
  | cons a l => exact hfrom l a x hx

/-- Deduplication keeps at least one element. -/
lemma dedupBy_eq_nil {same : α → α → Bool × α × α} : dedupBy same l = [] ↔ l = [] := by
  have hfrom : ∀ (l : List α) (kept : α), dedupByFrom same kept l ≠ [] := by
    intro l
    induction l with
    | nil => simp
    | cons a l ih =>
      intro kept
      rw [dedupByFrom]
      split
      · exact ih _
      · simp
  cases l with
  | nil => simp [dedupBy]
  | cons a l => simpa [dedupBy] using hfrom l a

section DedupByKey

variable [LinearOrder κ] {key : α → κ}

/-- After a sort, deduplication by key leaves a strictly ascending list. -/
lemma dedupByKey_ascending {l : List α} (h : l.Pairwise fun a b => key a ≤ key b) :
    Ascending key (dedupByKey key l) := by
  have hfrom : ∀ (l : List α) (kept : α), (kept :: l).Pairwise (fun a b => key a ≤ key b) →
      Ascending key (dedupByFrom (fun a b => (key a == key b, a, b)) kept l) ∧
      ∀ x ∈ dedupByFrom (fun a b => (key a == key b, a, b)) kept l, key kept ≤ key x := by
    intro l
    induction l with
    | nil => simp [Ascending]
    | cons a l ih =>
      intro kept hp
      obtain ⟨hk, hp'⟩ := pairwise_cons.mp hp
      rw [dedupByFrom]
      by_cases hak : key a = key kept
      · simp only [hak, beq_self_eq_true]
        exact ih kept (pairwise_cons.mpr
          ⟨fun b hb => hk b (mem_cons_of_mem _ hb), (pairwise_cons.mp hp').2⟩)
      · simp only [beq_eq_false_iff_ne.mpr hak]
        obtain ⟨hasc, hlow⟩ := ih a hp'
        have hlt : key kept < key a := lt_of_le_of_ne (hk a (by simp)) (Ne.symm hak)
        refine ⟨cons.mpr ⟨fun b hb => hlt.trans_le (hlow b hb), hasc⟩, fun x hx => ?_⟩
        rcases mem_cons.mp hx with rfl | hx'
        · exact le_rfl
        · exact hlt.le.trans (hlow x hx')
  cases l with
  | nil => simp [dedupByKey, dedupBy]
  | cons a l => exact (hfrom l a h).1

/-- Deduplication by key emits only elements of its input. -/
lemma mem_of_mem_dedupByKey {l : List α} {x : α} (h : x ∈ dedupByKey key l) : x ∈ l :=
  mem_of_mem_dedupBy (fun _ _ => ⟨rfl, fun _ => rfl⟩) h

/-- Deduplication by key keeps an element of every key. -/
lemma exists_mem_dedupByKey {l : List α} {x : α} (h : x ∈ l) :
    ∃ y ∈ dedupByKey key l, key y = key x := by
  have hfrom : ∀ (l : List α) (kept x : α), x ∈ kept :: l →
      ∃ y ∈ dedupByFrom (fun a b => (key a == key b, a, b)) kept l, key y = key x := by
    intro l
    induction l with
    | nil =>
      intro kept x hx
      obtain rfl : x = kept := by simpa using hx
      exact ⟨x, by simp, rfl⟩
    | cons a l ih =>
      intro kept x hx
      rw [dedupByFrom]
      by_cases hak : key a = key kept
      · simp only [hak, beq_self_eq_true]
        rcases mem_cons.mp hx with rfl | hx'
        · exact ih _ _ (by simp)
        · rcases mem_cons.mp hx' with rfl | hx''
          · rw [hak]
            exact ih _ _ (by simp)
          · exact ih _ _ (mem_cons_of_mem _ hx'')
      · simp only [beq_eq_false_iff_ne.mpr hak]
        rcases mem_cons.mp hx with rfl | hx'
        · exact ⟨x, by simp, rfl⟩
        · obtain ⟨y, hy, hk⟩ := ih a x hx'
          exact ⟨y, mem_cons_of_mem _ hy, hk⟩
  cases l with
  | nil => simp at h
  | cons a l => exact hfrom l a x h

end DedupByKey

/-! ## Sorting -/

section Sorting

variable [LinearOrder κ]

/-- A stable sort by key. -/
def sortByKey (key : α → κ) (l : List α) : List α :=
  l.insertionSort fun a b => key a ≤ key b

variable {key : α → κ}

/-- The sorted list is a rearrangement of the input. -/
lemma sortByKey_perm (l : List α) : (sortByKey key l).Perm l :=
  perm_insertionSort _ l

variable {x : α} {l : List α}

@[simp] lemma mem_sortByKey : x ∈ sortByKey key l ↔ x ∈ l :=
  (sortByKey_perm l).mem_iff

/-- The sorted list is in weakly ascending order. -/
lemma pairwise_sortByKey (l : List α) : (sortByKey key l).Pairwise fun a b => key a ≤ key b := by
  have : Std.Total (fun a b : α => key a ≤ key b) := ⟨fun a b => le_total (key a) (key b)⟩
  have : IsTrans α (fun a b : α => key a ≤ key b) := ⟨fun _ _ _ => le_trans⟩
  exact pairwise_insertionSort _ l

/-- A list with distinct keys sorts to a strictly ascending one. -/
lemma sortByKey_ascending (h : (l.map key).Nodup) : Ascending key (sortByKey key l) := by
  have hnd : ((sortByKey key l).map key).Nodup := ((sortByKey_perm l).map key).nodup_iff.mpr h
  have hne : (sortByKey key l).Pairwise fun a b => key a ≠ key b := pairwise_map.mp hnd
  exact ((pairwise_sortByKey l).and hne).imp fun h => lt_of_le_of_ne h.1 h.2

/-- A list that is strictly ascending is sorted already. -/
lemma sortByKey_eq_self (h : Ascending key l) : sortByKey key l = l :=
  (sortByKey_ascending (Ascending.nodup (map_iff.mpr h))).eq_of_mem_iff h fun _ => mem_sortByKey

/-- Make a list strictly ascending: leave it alone if it already is, otherwise sort it and keep
the first element of each key. -/
def sortDedup (key : α → κ) (l : List α) : List α :=
  if Ascending key l then l else dedupByKey key (sortByKey key l)

/-- The result is strictly ascending. -/
lemma sortDedup_ascending (l : List α) : Ascending key (sortDedup key l) := by
  rw [sortDedup]
  split_ifs with h
  · exact h
  · exact dedupByKey_ascending (pairwise_sortByKey l)

/-- If equal keys mean equal elements, the result has exactly the elements of the input. -/
lemma mem_sortDedup (hinj : ∀ a ∈ l, ∀ b ∈ l, key a = key b → a = b) :
    x ∈ sortDedup key l ↔ x ∈ l := by
  rw [sortDedup]
  split_ifs with h
  · rfl
  · constructor
    · exact fun hx => mem_sortByKey.mp (mem_of_mem_dedupByKey hx)
    · intro hx
      have hx' : x ∈ sortByKey key l := mem_sortByKey.mpr hx
      obtain ⟨y, hy, hk⟩ : ∃ y ∈ dedupByKey key (sortByKey key l), key y = key x :=
        exists_mem_dedupByKey hx'
      have hyl : y ∈ l := mem_sortByKey.mp (mem_of_mem_dedupByKey hy)
      rwa [← hinj y hyl x hx hk]

/-- A list that is sorted by itself keeps its elements. -/
lemma mem_sortDedup_id {l : List κ} {x : κ} : x ∈ sortDedup id l ↔ x ∈ l :=
  mem_sortDedup fun _ _ _ _ h => h

/-- **A stable sort keeps the order of the elements of one key.** -/
theorem filter_sortByKey (k : κ) (l : List α) :
    (sortByKey key l).filter (fun a => key a == k) = l.filter fun a => key a == k := by
  have : Std.Total (fun a b : α => key a ≤ key b) := ⟨fun a b => le_total (key a) (key b)⟩
  have : IsTrans α (fun a b : α => key a ≤ key b) := ⟨fun _ _ _ => le_trans⟩
  have hsame : (l.filter fun a => key a == k).Pairwise fun a b => key a ≤ key b := by
    refine List.Pairwise.imp_of_mem (R := fun _ _ => True) (fun ha hb _ => ?_)
      (pairwise_of_forall fun _ _ => trivial)
    rw [beq_iff_eq.mp (mem_filter.mp ha).2, beq_iff_eq.mp (mem_filter.mp hb).2]
  have hsub : (l.filter fun a => key a == k).Sublist (sortByKey key l) :=
    sublist_insertionSort hsame filter_sublist
  have hlen : ((sortByKey key l).filter fun a => key a == k).length =
      (l.filter fun a => key a == k).length := ((sortByKey_perm l).filter _).length_eq
  have hfilter := hsub.filter fun a => key a == k
  rw [filter_filter] at hfilter
  simp only [Bool.and_self] at hfilter
  exact (hfilter.eq_of_length hlen.symm).symm

/-- A stable sort keeps the first element of each key. -/
lemma find?_sortByKey (k : κ) (l : List α) :
    (sortByKey key l).find? (fun a => key a == k) = l.find? fun a => key a == k := by
  rw [← head?_filter, filter_sortByKey, head?_filter]

/-- In a sorted list, deduplication by key keeps exactly the first element of each key. -/
lemma mem_dedupByKey (h : l.Pairwise fun a b => key a ≤ key b) :
    x ∈ dedupByKey key l ↔ l.find? (fun a => key a == key x) = some x := by
  have hfrom : ∀ (l : List α) (kept : α), (kept :: l).Pairwise (fun a b => key a ≤ key b) →
      (x ∈ dedupByFrom (fun a b => (key a == key b, a, b)) kept l ↔
        (kept :: l).find? (fun a => key a == key x) = some x) := by
    intro l
    induction l with
    | nil =>
      intro kept _
      rw [dedupByFrom_nil, mem_singleton, find?_cons]
      constructor
      · rintro rfl
        rw [beq_self_eq_true]
      · intro hfind
        split at hfind
        · exact (Option.some.inj hfind).symm
        · cases hfind
    | cons a l ih =>
      intro kept hp
      obtain ⟨hk, hp'⟩ := pairwise_cons.mp hp
      rw [dedupByFrom]
      by_cases hak : key a = key kept
      · -- `a` is dropped
        have hrest : (kept :: l).Pairwise fun a b => key a ≤ key b :=
          pairwise_cons.mpr
            ⟨fun b hb => hk b (mem_cons_of_mem _ hb), (pairwise_cons.mp hp').2⟩
        simp only [hak, beq_self_eq_true]
        rw [ih kept hrest, find?_cons, find?_cons, find?_cons, hak]
        cases key kept == key x <;> rfl
      · -- `kept` is the only element of its key
        simp only [beq_eq_false_iff_ne.mpr hak]
        have hlt : key kept < key a := lt_of_le_of_ne (hk a (by simp)) (Ne.symm hak)
        have hbelow : ∀ b ∈ a :: l, key kept < key b := fun b hb => by
          rcases mem_cons.mp hb with rfl | hb
          · exact hlt
          · exact hlt.trans_le ((pairwise_cons.mp hp').1 b hb)
        rw [mem_cons, ih a hp']
        by_cases hx : key kept = key x
        · have htake : (key kept == key x) = true := beq_iff_eq.mpr hx
          rw [find?_cons_of_pos (l := a :: l) (p := fun a => key a == key x) htake]
          constructor
          · rintro (rfl | hfind)
            · rfl
            · exact absurd hx (hbelow x (mem_of_find?_eq_some hfind)).ne
          · exact fun hfind => .inl (Option.some.inj hfind).symm
        · have hskip : ¬ (key kept == key x) = true := fun hbeq => hx (beq_iff_eq.mp hbeq)
          rw [find?_cons_of_neg (l := a :: l) (p := fun a => key a == key x) hskip]
          exact ⟨fun hor => hor.resolve_left fun heq => hx (heq ▸ rfl), .inr⟩
  cases l with
  | nil =>
    constructor
    · intro hx
      cases hx
    · intro hfind
      cases hfind
  | cons a l => exact hfrom l a h

/-- **The result has exactly the first element of each key.** -/
theorem mem_sortDedup_iff : x ∈ sortDedup key l ↔ l.find? (fun a => key a == key x) = some x := by
  rw [sortDedup]
  split_ifs with h
  · constructor
    · intro hx
      have hsome : (l.find? fun a => key a == key x).isSome :=
        find?_isSome.mpr ⟨x, hx, by simp⟩
      obtain ⟨y, hy⟩ := Option.isSome_iff_exists.mp hsome
      have hkey : key y = key x := by simpa using find?_some hy
      rw [hy, h.eq_of_key_eq (mem_of_find?_eq_some hy) hx hkey]
    · exact mem_of_find?_eq_some
  · rw [mem_dedupByKey (pairwise_sortByKey l), find?_sortByKey]

end Sorting

/-! ## Joining two lists -/

section Join

variable [LinearOrder κ]

/-- Walk two lists with one cursor each. Equal keys are combined by `f`, which may drop the pair,
and both cursors advance; otherwise the cursor with the smaller key advances. -/
def joinWith (ka : α → κ) (kb : β → κ) (f : α → β → Option γ) : List α → List β → List γ
  | a :: as, b :: bs =>
    if ka a = kb b then
      match f a b with
      | some c => c :: joinWith ka kb f as bs
      | none => joinWith ka kb f as bs
    else if ka a < kb b then joinWith ka kb f as (b :: bs)
    else joinWith ka kb f (a :: as) bs
  | _, _ => []
termination_by as bs => as.length + bs.length

attribute [elab_as_elim] joinWith.induct_unfolding

variable {ka : α → κ} {kb : β → κ} {f : α → β → Option γ}

/-- A join of ascending lists emits exactly the combinations of elements with equal keys.

**Proof sketch.** Induction along the walk. When both keys are equal, no later element of either
list has that key. When the left key is smaller, every right key is larger than it, so the left
element combines with nothing; symmetrically on the right. -/
lemma mem_joinWith {as : List α} {bs : List β} (ha : Ascending ka as) (hb : Ascending kb bs)
    {c : γ} :
    c ∈ joinWith ka kb f as bs ↔ ∃ a ∈ as, ∃ b ∈ bs, ka a = kb b ∧ f a b = some c := by
  fun_induction joinWith ka kb f as bs with
  | case1 a as b bs hk d hd ih =>
    obtain ⟨ha1, ha2⟩ := cons.mp ha
    obtain ⟨hb1, hb2⟩ := cons.mp hb
    rw [mem_cons, ih ha2 hb2]
    constructor
    · rintro (rfl | ⟨x, hx, y, hy, h⟩)
      · exact ⟨a, by simp, b, by simp, hk, hd⟩
      · exact ⟨x, by simp [hx], y, by simp [hy], h⟩
    · rintro ⟨x, hx, y, hy, hxy, hf⟩
      rcases List.mem_cons.mp hx with rfl | hx'
      · rcases List.mem_cons.mp hy with rfl | hy'
        · rw [hd] at hf
          exact .inl (Option.some.inj hf).symm
        · exact absurd (hk.symm.trans hxy) (hb1 y hy').ne
      · rcases List.mem_cons.mp hy with rfl | hy'
        · exact absurd (hk.trans hxy.symm) (ha1 x hx').ne
        · exact .inr ⟨x, hx', y, hy', hxy, hf⟩
  | case2 a as b bs hk hd ih =>
    obtain ⟨ha1, ha2⟩ := cons.mp ha
    obtain ⟨hb1, hb2⟩ := cons.mp hb
    rw [ih ha2 hb2]
    constructor
    · rintro ⟨x, hx, y, hy, h⟩
      exact ⟨x, by simp [hx], y, by simp [hy], h⟩
    · rintro ⟨x, hx, y, hy, hxy, hf⟩
      rcases List.mem_cons.mp hx with rfl | hx'
      · rcases List.mem_cons.mp hy with rfl | hy'
        · simp [hd] at hf
        · exact absurd (hk.symm.trans hxy) (hb1 y hy').ne
      · rcases List.mem_cons.mp hy with rfl | hy'
        · exact absurd (hk.trans hxy.symm) (ha1 x hx').ne
        · exact ⟨x, hx', y, hy', hxy, hf⟩
  | case3 a as b bs hne hlt ih =>
    obtain ⟨-, ha2⟩ := cons.mp ha
    obtain ⟨hb1, -⟩ := cons.mp hb
    rw [ih ha2 hb]
    constructor
    · rintro ⟨x, hx, h⟩
      exact ⟨x, by simp [hx], h⟩
    · rintro ⟨x, hx, y, hy, hxy, hf⟩
      rcases List.mem_cons.mp hx with rfl | hx'
      · rcases List.mem_cons.mp hy with rfl | hy'
        · exact absurd hxy hne
        · exact absurd hxy (hlt.trans (hb1 y hy')).ne
      · exact ⟨x, hx', y, hy, hxy, hf⟩
  | case4 a as b bs hne hnlt ih =>
    obtain ⟨ha1, -⟩ := cons.mp ha
    obtain ⟨-, hb2⟩ := cons.mp hb
    have hgt : kb b < ka a := lt_of_le_of_ne (not_lt.mp hnlt) (Ne.symm hne)
    rw [ih ha hb2]
    constructor
    · rintro ⟨x, hx, y, hy, h⟩
      exact ⟨x, hx, y, by simp [hy], h⟩
    · rintro ⟨x, hx, y, hy, hxy, hf⟩
      rcases List.mem_cons.mp hy with rfl | hy'
      · rcases List.mem_cons.mp hx with rfl | hx'
        · exact absurd hxy hne
        · exact absurd hxy (hgt.trans (ha1 x hx')).ne'
      · exact ⟨x, hx, y, hy', hxy, hf⟩
  | case5 as bs h =>
    constructor
    · intro hc
      simp at hc
    · rintro ⟨a, ha', b, hb', -⟩
      obtain ⟨a₀, as', rfl⟩ := exists_cons_of_ne_nil (ne_nil_of_mem ha')
      obtain ⟨b₀, bs', rfl⟩ := exists_cons_of_ne_nil (ne_nil_of_mem hb')
      exact absurd rfl (h a₀ as' b₀ bs' rfl)

/-- If `f` keeps the key of its left argument, a join of ascending lists is ascending: its keys
are some of the left list's keys, in their order. -/
lemma joinWith_ascending {kc : γ → κ} (hkey : ∀ a b c, f a b = some c → kc c = ka a)
    {as : List α} {bs : List β} (ha : Ascending ka as) : Ascending kc (joinWith ka kb f as bs) := by
  have hsub : ((joinWith ka kb f as bs).map kc).Sublist (as.map ka) := by
    clear ha
    fun_induction joinWith ka kb f as bs with
    | case1 a as b bs hk d hd ih =>
      rw [map_cons, map_cons, hkey a b d hd]
      exact ih.cons_cons _
    | case2 a as b bs hk hd ih => exact ih.cons _
    | case3 a as b bs hne hlt ih => exact ih.cons _
    | case4 a as b bs hne hnlt ih => exact ih
    | case5 as bs h => exact nil_sublist _
  exact map_iff.mp ((map_iff.mpr ha).sublist hsub)

end Join

/-! ## Union of two lists -/

section Union

variable [LinearOrder α]

/-- Walk two lists with one cursor each and emit every element, once where the heads agree. -/
def union : List α → List α → List α
  | a :: as, b :: bs =>
    if a = b then a :: union as bs
    else if a < b then a :: union as (b :: bs)
    else b :: union (a :: as) bs
  | [], bs => bs
  | as, [] => as
termination_by as bs => as.length + bs.length

attribute [elab_as_elim] union.induct_unfolding

/-- A union has the elements of both lists. -/
lemma mem_union {as bs : List α} {x : α} : x ∈ union as bs ↔ x ∈ as ∨ x ∈ bs := by
  fun_induction union as bs with
  | case1 a as bs ih =>
    rw [mem_cons, ih, mem_cons, mem_cons]
    tauto
  | case2 a as b bs _ _ ih =>
    rw [mem_cons, ih, mem_cons (l := as)]
    tauto
  | case3 a as b bs _ _ ih =>
    rw [mem_cons, ih, mem_cons (l := bs)]
    tauto
  | case4 bs => simp
  | case5 as _ => simp

/-- A union of ascending lists is ascending. -/
lemma union_ascending {as bs : List α} (ha : Ascending id as) (hb : Ascending id bs) :
    Ascending id (union as bs) := by
  fun_induction union as bs with
  | case1 a as bs ih =>
    obtain ⟨ha1, ha2⟩ := cons.mp ha
    obtain ⟨hb1, hb2⟩ := cons.mp hb
    refine cons.mpr ⟨fun x hx => ?_, ih ha2 hb2⟩
    rcases mem_union.mp hx with h | h
    · exact ha1 x h
    · exact hb1 x h
  | case2 a as b bs _ hlt ih =>
    obtain ⟨ha1, ha2⟩ := cons.mp ha
    obtain ⟨hb1, -⟩ := cons.mp hb
    refine cons.mpr ⟨fun x hx => ?_, ih ha2 hb⟩
    rcases mem_union.mp hx with h | h
    · exact ha1 x h
    · rcases mem_cons.mp h with rfl | h
      · exact hlt
      · exact hlt.trans (hb1 x h)
  | case3 a as b bs hne hnlt ih =>
    obtain ⟨ha1, -⟩ := cons.mp ha
    obtain ⟨hb1, hb2⟩ := cons.mp hb
    have hgt : b < a := lt_of_le_of_ne (not_lt.mp hnlt) (Ne.symm hne)
    refine cons.mpr ⟨fun x hx => ?_, ih ha hb2⟩
    rcases mem_union.mp hx with h | h
    · rcases mem_cons.mp h with rfl | h
      · exact hgt
      · exact hgt.trans (ha1 x h)
    · exact hb1 x h
  | case4 bs => exact hb
  | case5 as _ => exact ha

end Union

/-! ## Outer join of two lists -/

section OuterJoin

variable [LinearOrder κ]

/-- Walk two lists with one cursor each and emit every key, with the element that each list has for
it. -/
def outerJoin (ka : α → κ) (kb : β → κ) : List α → List β → List (κ × Option α × Option β)
  | a :: as, b :: bs =>
    if ka a < kb b then (ka a, some a, none) :: outerJoin ka kb as (b :: bs)
    else if kb b < ka a then (kb b, none, some b) :: outerJoin ka kb (a :: as) bs
    else (ka a, some a, some b) :: outerJoin ka kb as bs
  | a :: as, [] => (ka a, some a, none) :: outerJoin ka kb as []
  | [], b :: bs => (kb b, none, some b) :: outerJoin ka kb [] bs
  | [], [] => []
termination_by as bs => as.length + bs.length

attribute [elab_as_elim] outerJoin.induct_unfolding

variable {ka : α → κ} {kb : β → κ}

/-- What an outer join emits first, given the elements that both cursors are at. -/
def joinHead (ka : α → κ) (kb : β → κ) : Option α → Option β → Option (κ × Option α × Option β)
  | some a, some b =>
    if ka a < kb b then some (ka a, some a, none)
    else if kb b < ka a then some (kb b, none, some b)
    else some (ka a, some a, some b)
  | some a, none => some (ka a, some a, none)
  | none, some b => some (kb b, none, some b)
  | none, none => none

/-- **An outer join as a walk of two cursors**: what is emitted first depends on the elements that the
cursors are at, and the cursors of the elements that are emitted advance. -/
theorem outerJoin_drop (ka : α → κ) (kb : β → κ) (as : List α) (bs : List β) (i j : ℕ) :
    outerJoin ka kb (as.drop i) (bs.drop j) =
      (joinHead ka kb as[i]? bs[j]?).elim [] fun e =>
        e :: outerJoin ka kb (as.drop (if e.2.1.isSome then i + 1 else i))
          (bs.drop (if e.2.2.isSome then j + 1 else j)) := by
  by_cases hi : i < as.length
  all_goals by_cases hj : j < bs.length
  · have ha := drop_eq_getElem_cons hi
    have hb := drop_eq_getElem_cons hj
    rw [getElem?_eq_getElem hi, getElem?_eq_getElem hj, joinHead, ha, hb, outerJoin]
    split_ifs
    · rw [← hb]
      rfl
    · rw [← ha]
      rfl
    · rfl
  · have hb := drop_eq_nil_of_le (not_lt.mp hj)
    rw [getElem?_eq_getElem hi, getElem?_eq_none (not_lt.mp hj),
      drop_eq_getElem_cons hi, hb, outerJoin, ← hb]
    rfl
  · have ha := drop_eq_nil_of_le (not_lt.mp hi)
    rw [getElem?_eq_none (not_lt.mp hi), getElem?_eq_getElem hj,
      drop_eq_getElem_cons hj, ha, outerJoin, ← ha]
    rfl
  · rw [getElem?_eq_none (not_lt.mp hi), getElem?_eq_none (not_lt.mp hj),
      drop_eq_nil_of_le (not_lt.mp hi), drop_eq_nil_of_le (not_lt.mp hj), outerJoin]
    rfl

variable {k : κ} {bs : List β} {j : κ × Option α × Option β} {as : List α}

/-- In an ascending list, the first element of a key is the only one. -/
lemma find?_key_eq_some (ha : Ascending ka as) {a : α} :
    as.find? (fun a => decide (ka a = k)) = some a ↔ a ∈ as ∧ ka a = k := by
  constructor
  · intro h
    exact ⟨mem_of_find?_eq_some h, by simpa using find?_some h⟩
  · rintro ⟨hmem, rfl⟩
    have hsome : (as.find? fun x => decide (ka x = ka a)).isSome :=
      find?_isSome.mpr ⟨a, hmem, by simp⟩
    obtain ⟨x, hx⟩ := Option.isSome_iff_exists.mp hsome
    have hkey : ka x = ka a := by simpa using find?_some hx
    rw [hx, ha.eq_of_key_eq (mem_of_find?_eq_some hx) hmem hkey]

/-- No element of the list has the key. -/
lemma find?_key_eq_none : as.find? (fun a => decide (ka a = k)) = none ↔ ∀ a ∈ as, ka a ≠ k := by
  simp [find?_eq_none]

/-- A key below those of all elements is not found. -/
lemma find?_key_of_lt (h : ∀ a ∈ as, k < ka a) : as.find? (fun a => decide (ka a = k)) = none :=
  find?_key_eq_none.mpr fun a ha => (h a ha).ne'

/-- A key is found at the head of a list or in its tail. -/
lemma find?_key_cons (a : α) (as : List α) (k : κ) :
    (a :: as).find? (fun a => decide (ka a = k)) =
      if ka a = k then some a else as.find? fun a => decide (ka a = k) := by
  rw [find?_cons]
  by_cases h : ka a = k <;> simp [h]

/-- One step of an outer join: what is emitted for its key, and nothing else has that key. -/
private lemma mem_outerJoin_step {e : κ × Option α × Option β} {x x' : Option α} {y y' : Option β}
    (hx : x = if e.1 = j.1 then e.2.1 else x') (hy : y = if e.1 = j.1 then e.2.2 else y')
    (hlast : e.1 = j.1 → x' = none ∧ y' = none) (hsome : e.2.1.isSome ∨ e.2.2.isSome) :
    (j = e ∨ (j.2.1 = x' ∧ j.2.2 = y' ∧ (j.2.1.isSome ∨ j.2.2.isSome))) ↔
      (j.2.1 = x ∧ j.2.2 = y ∧ (j.2.1.isSome ∨ j.2.2.isSome)) := by
  subst hx hy
  obtain ⟨k, u, v⟩ := j
  obtain ⟨k', u', v'⟩ := e
  by_cases hk : k' = k
  · obtain ⟨rfl, rfl⟩ := hlast hk
    subst hk
    simp only [Prod.mk.injEq, if_true, true_and]
    constructor
    · rintro (⟨rfl, rfl⟩ | ⟨rfl, rfl, hnone⟩)
      · exact ⟨rfl, rfl, hsome⟩
      · simp at hnone
    · exact fun h => .inl ⟨h.1, h.2.1⟩
  · have hne : ¬ (k, u, v) = (k', u', v') := fun h => hk (Prod.ext_iff.mp h).1.symm
    simp only [if_neg hk, hne, false_or]

/-- **What an outer join of ascending lists emits**: every key of either list, with the element of
each list that has it.

**Proof sketch.** Induction along the walk. The key that is emitted is below all keys that are
left, so the rest of the walk does not emit it, and for every other key the lists that are left
have the same element. -/
theorem mem_outerJoin (ha : Ascending ka as) (hb : Ascending kb bs) :
    j ∈ outerJoin ka kb as bs ↔
      j.2.1 = as.find? (fun a => decide (ka a = j.1)) ∧
        j.2.2 = bs.find? (fun b => decide (kb b = j.1)) ∧ (j.2.1.isSome ∨ j.2.2.isSome) := by
  fun_induction outerJoin ka kb as bs with
  | case1 a as b bs hlt ih =>
    obtain ⟨ha1, ha2⟩ := cons.mp ha
    obtain ⟨hb1, -⟩ := cons.mp hb
    have hbs : ∀ x ∈ b :: bs, ka a < kb x :=
      List.forall_mem_cons.mpr ⟨hlt, fun x hx => hlt.trans (hb1 x hx)⟩
    rw [mem_cons, ih ha2 hb]
    refine mem_outerJoin_step (find?_key_cons a as j.1) ?_ ?_ (.inl rfl)
    · split_ifs with hk
      · exact find?_key_of_lt (hk ▸ hbs)
      · rfl
    · rintro hk
      exact ⟨find?_key_of_lt (hk ▸ ha1), find?_key_of_lt (hk ▸ hbs)⟩
  | case2 a as b bs _ hgt ih =>
    obtain ⟨ha1, -⟩ := cons.mp ha
    obtain ⟨hb1, hb2⟩ := cons.mp hb
    have has : ∀ x ∈ a :: as, kb b < ka x :=
      List.forall_mem_cons.mpr ⟨hgt, fun x hx => hgt.trans (ha1 x hx)⟩
    rw [mem_cons, ih ha hb2]
    refine mem_outerJoin_step ?_ (find?_key_cons b bs j.1) ?_ (.inr rfl)
    · split_ifs with hk
      · exact find?_key_of_lt (hk ▸ has)
      · rfl
    · rintro hk
      exact ⟨find?_key_of_lt (hk ▸ has), find?_key_of_lt (hk ▸ hb1)⟩
  | case3 a as b bs hnlt hngt ih =>
    obtain ⟨ha1, ha2⟩ := cons.mp ha
    obtain ⟨hb1, hb2⟩ := cons.mp hb
    have heq : ka a = kb b := le_antisymm (not_lt.mp hngt) (not_lt.mp hnlt)
    rw [mem_cons, ih ha2 hb2]
    refine mem_outerJoin_step (find?_key_cons a as j.1) ?_ ?_ (.inl rfl)
    · rw [find?_key_cons, heq]
    · rintro hk
      exact ⟨find?_key_of_lt (hk ▸ ha1), find?_key_of_lt (hk ▸ heq ▸ hb1)⟩
  | case4 a as ih =>
    obtain ⟨ha1, ha2⟩ := cons.mp ha
    rw [mem_cons, ih ha2 hb]
    refine mem_outerJoin_step (find?_key_cons a as j.1) ?_ ?_ (.inl rfl)
    · rw [find?_nil, ite_self]
    · exact fun hk => ⟨find?_key_of_lt (hk ▸ ha1), rfl⟩
  | case5 b bs ih =>
    obtain ⟨hb1, hb2⟩ := cons.mp hb
    rw [mem_cons, ih ha hb2]
    refine mem_outerJoin_step ?_ (find?_key_cons b bs j.1) ?_ (.inr rfl)
    · rw [find?_nil, ite_self]
    · exact fun hk => ⟨rfl, find?_key_of_lt (hk ▸ hb1)⟩
  | case6 =>
    constructor
    · intro h
      simp at h
    · rintro ⟨hx, hy, hsome⟩
      rw [hx, hy] at hsome
      simp at hsome

/-- The elements of both lists are emitted in their order. -/
lemma filterMap_outerJoin (ka : α → κ) (kb : β → κ) (as : List α) (bs : List β) :
    (outerJoin ka kb as bs).filterMap (fun j => j.2.1) = as ∧
      (outerJoin ka kb as bs).filterMap (fun j => j.2.2) = bs := by
  fun_induction outerJoin ka kb as bs with
  | case1 a as b bs _ ih | case2 a as b bs _ _ ih | case3 a as b bs _ _ ih | case4 a as ih
  | case5 b bs ih => simp only [filterMap_cons, ih, and_self]
  | case6 => exact ⟨rfl, rfl⟩

/-- A key that is emitted is a key of one of the lists. -/
lemma outerJoin_key (hj : j ∈ outerJoin ka kb as bs) :
    (∃ a ∈ as, ka a = j.1) ∨ ∃ b ∈ bs, kb b = j.1 := by
  fun_induction outerJoin ka kb as bs with
  | case1 a as b bs _ ih | case2 a as b bs _ _ ih | case3 a as b bs _ _ ih | case4 a as ih
  | case5 b bs ih =>
    rcases mem_cons.mp hj with rfl | hj
    · simp
    · rcases ih hj with ⟨x, hx, hk⟩ | ⟨x, hx, hk⟩
      · exact .inl ⟨x, by simp_all, hk⟩
      · exact .inr ⟨x, by simp_all, hk⟩
  | case6 => simp at hj

/-- **An outer join of ascending lists is ascending.** -/
theorem outerJoin_ascending (ha : Ascending ka as) (hb : Ascending kb bs) :
    Ascending Prod.fst (outerJoin ka kb as bs) := by
  have habove : ∀ {as : List α} {bs : List β} {k : κ}, (∀ a ∈ as, k < ka a) →
      (∀ b ∈ bs, k < kb b) → ∀ j ∈ outerJoin ka kb as bs, k < j.1 := by
    intro as bs k has hbs j hj
    rcases outerJoin_key hj with ⟨a, hmem, hk⟩ | ⟨b, hmem, hk⟩
    · exact hk ▸ has a hmem
    · exact hk ▸ hbs b hmem
  fun_induction outerJoin ka kb as bs with
  | case1 a as b bs hlt ih =>
    obtain ⟨ha1, ha2⟩ := cons.mp ha
    obtain ⟨hb1, -⟩ := cons.mp hb
    exact cons.mpr ⟨habove ha1 (forall_mem_cons.mpr ⟨hlt, fun x hx => hlt.trans (hb1 x hx)⟩),
      ih ha2 hb⟩
  | case2 a as b bs _ hgt ih =>
    obtain ⟨ha1, -⟩ := cons.mp ha
    obtain ⟨hb1, hb2⟩ := cons.mp hb
    exact cons.mpr ⟨habove (forall_mem_cons.mpr ⟨hgt, fun x hx => hgt.trans (ha1 x hx)⟩) hb1,
      ih ha hb2⟩
  | case3 a as b bs hnlt hngt ih =>
    obtain ⟨ha1, ha2⟩ := cons.mp ha
    obtain ⟨hb1, hb2⟩ := cons.mp hb
    have heq : ka a = kb b := le_antisymm (not_lt.mp hngt) (not_lt.mp hnlt)
    exact cons.mpr ⟨habove ha1 (heq ▸ hb1), ih ha2 hb2⟩
  | case4 a as ih =>
    obtain ⟨ha1, ha2⟩ := cons.mp ha
    exact cons.mpr ⟨habove ha1 (by simp), ih ha2 hb⟩
  | case5 b bs ih =>
    obtain ⟨hb1, hb2⟩ := cons.mp hb
    exact cons.mpr ⟨habove (by simp) hb1, ih ha hb2⟩
  | case6 => exact nil

end OuterJoin

end Ascending
