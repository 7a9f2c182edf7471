import Mathlib.Data.Finset.Sort
import Mathlib.Data.Finset.Image

/-!
# Finite maps by lookup function

A finite map is a lookup function together with the finite set of keys on which it is defined.
Two maps with the same lookups are equal (`FinMap.ext_get?`), so a hash map whose iteration
order is unspecified is modelled by its contents alone, and every operation is described by one
lookup lemma.

## Main definitions

* `FinMap`: the finite maps from `κ` to `ν`.
* `FinMap.insert`, `FinMap.erase`, `FinMap.alter`: change the entry at one key.
* `FinMap.filterMap`, `FinMap.filter`: rewrite or drop every entry, as a retaining pass does.
* `FinMap.ofList`: the map with given entries.
* `FinMap.toList`: the entries in ascending key order.

## Main results

* `FinMap.get?_insert`, `FinMap.get?_erase`, `FinMap.get?_alter`, `FinMap.get?_filterMap`: the
  lookups of each operation.
* `FinMap.mem_toList`, `FinMap.pairwise_toList`: `toList` lists every entry once, in order.

## Implementation notes

`Finmap` of Mathlib is a quotient of association lists and has no operation that rewrites every
entry. The pointwise form here makes such passes one line, and their proofs a rewriting of
lookups.
-/

/-- The order in which keys are sorted is transitive. -/
instance instIsTransLEOfLinearOrder {κ : Type*} [LinearOrder κ] : IsTrans κ (· ≤ ·) :=
  inferInstance

/-- The order in which keys are sorted is antisymmetric. -/
instance instAntisymmLEOfLinearOrder {κ : Type*} [LinearOrder κ] :
    Std.Antisymm (α := κ) (· ≤ ·) :=
  inferInstance

/-- A finite map from `κ` to `ν`: a lookup function and the finite set of keys it is defined
on. -/
structure FinMap (κ ν : Type*) where
  /-- The value at a key, if there is one. -/
  get? : κ → Option ν
  /-- The keys that have a value. -/
  keys : Finset κ
  /-- The key set is exactly the set of keys with a value. -/
  mem_keys_iff : ∀ k, k ∈ keys ↔ (get? k).isSome

namespace FinMap

open List Option

variable {κ ν ω : Type*}

variable {k : κ} {m : FinMap κ ν}

/-- Maps with the same lookups are equal. -/
@[ext] lemma ext_get? {m' : FinMap κ ν} (h : ∀ k, m.get? k = m'.get? k) : m = m' := by
  obtain ⟨g, ks, hks⟩ := m
  obtain ⟨g', ks', hks'⟩ := m'
  obtain rfl : g = g' := funext h
  obtain rfl : ks = ks' := Finset.ext fun k => (hks k).trans (hks' k).symm
  rfl

/-- A key is present iff its lookup returns a value. -/
lemma mem_keys : k ∈ m.keys ↔ ∃ v, m.get? k = some v := by
  rw [m.mem_keys_iff, isSome_iff_exists]

/-- A key is absent iff its lookup fails. -/
lemma notMem_keys : k ∉ m.keys ↔ m.get? k = none := by
  rw [m.mem_keys_iff, Bool.not_eq_true, isSome_eq_false_iff, isNone_iff_eq_none]

/-- A key with a value is present. -/
lemma mem_keys_of_get? {v : ν} (h : m.get? k = some v) : k ∈ m.keys :=
  mem_keys.mpr ⟨v, h⟩

/-- The map without entries. -/
def empty : FinMap κ ν := ⟨fun _ => none, ∅, by simp⟩

instance : Inhabited (FinMap κ ν) := ⟨empty⟩

@[simp] lemma get?_empty (k : κ) : (empty : FinMap κ ν).get? k = none := rfl

@[simp] lemma keys_empty : (empty : FinMap κ ν).keys = ∅ := rfl

/-- Whether a key has a value. -/
def contains (m : FinMap κ ν) (k : κ) : Bool := (m.get? k).isSome

/-- `contains` is membership in the key set. -/
lemma contains_iff : m.contains k = true ↔ k ∈ m.keys :=
  (m.mem_keys_iff k).symm

/-- Whether the map has no entries. -/
def isEmpty (m : FinMap κ ν) : Bool := m.keys.card == 0

/-- A map is empty iff every lookup fails. -/
lemma isEmpty_iff : m.isEmpty = true ↔ ∀ k, m.get? k = none := by
  simp only [isEmpty, beq_iff_eq, Finset.card_eq_zero, Finset.eq_empty_iff_forall_notMem,
    notMem_keys]

section DecidableEq

variable [DecidableEq κ]

/-- Replace the entry at `k` by `f` of what is there; `none` removes it. -/
def alter (m : FinMap κ ν) (k : κ) (f : Option ν → Option ν) : FinMap κ ν where
  get? := Function.update m.get? k (f (m.get? k))
  keys := if (f (m.get? k)).isSome then insert k m.keys else m.keys.erase k
  mem_keys_iff := by
    intro k'
    by_cases h : k' = k
    · subst h
      split_ifs with hf <;> simp [hf]
    · split_ifs <;> simp [h, m.mem_keys_iff]

/-- Set the value at `k`. -/
def insert (m : FinMap κ ν) (k : κ) (v : ν) : FinMap κ ν := m.alter k fun _ => some v

/-- Remove the entry at `k`. -/
def erase (m : FinMap κ ν) (k : κ) : FinMap κ ν := m.alter k fun _ => none

variable (m : FinMap κ ν) (k k' : κ) (v : ν)

/-- Lookups after `alter`. -/
lemma get?_alter (f : Option ν → Option ν) :
    (m.alter k f).get? k' = if k' = k then f (m.get? k) else m.get? k' := by
  simp only [alter, Function.update_apply]

/-- Lookups after `insert`. -/
lemma get?_insert : (m.insert k v).get? k' = if k' = k then some v else m.get? k' :=
  get?_alter m k k' _

/-- Lookups after `erase`. -/
lemma get?_erase : (m.erase k).get? k' = if k' = k then none else m.get? k' :=
  get?_alter m k k' _

@[simp] lemma get?_insert_self : (m.insert k v).get? k = some v := by
  simp [get?_insert]

@[simp] lemma get?_erase_self : (m.erase k).get? k = none := by
  simp [get?_erase]

@[simp] lemma keys_insert : (m.insert k v).keys = Insert.insert k m.keys := by
  simp [insert, alter]

@[simp] lemma keys_erase : (m.erase k).keys = m.keys.erase k := by
  simp [erase, alter]

/-- The entries of two maps; those of the second one win. -/
def union (m m' : FinMap κ ν) : FinMap κ ν where
  get? k := (m'.get? k).or (m.get? k)
  keys := m.keys ∪ m'.keys
  mem_keys_iff := by
    intro k
    rw [Finset.mem_union, m.mem_keys_iff, m'.mem_keys_iff, Option.isSome_or, Bool.or_eq_true]
    exact or_comm

end DecidableEq

/-- Rewrite every entry by `f`, dropping those that `f` sends to `none`. -/
def filterMap (f : κ → ν → Option ω) (m : FinMap κ ν) : FinMap κ ω where
  get? k := (m.get? k).bind (f k)
  keys := m.keys.filter fun k => ((m.get? k).bind (f k)).isSome
  mem_keys_iff := by
    intro k
    simp only [Finset.mem_filter, m.mem_keys_iff, and_iff_right_iff_imp]
    cases m.get? k <;> simp

/-- Keep the entries on which `p` holds. -/
def filter (p : κ → ν → Bool) (m : FinMap κ ν) : FinMap κ ν :=
  m.filterMap fun k v => if p k v then some v else none

@[simp] lemma get?_filterMap (f : κ → ν → Option ω) (m : FinMap κ ν) (k : κ) :
    (m.filterMap f).get? k = (m.get? k).bind (f k) := rfl

@[simp] lemma filterMap_empty (f : κ → ν → Option ω) :
    (empty : FinMap κ ν).filterMap f = empty :=
  ext_get? fun _ => rfl

/-- A filtered map holds exactly the entries that satisfy the predicate. -/
lemma get?_filter_eq_some {p : κ → ν → Bool} {v : ν} :
    (m.filter p).get? k = some v ↔ m.get? k = some v ∧ p k v = true := by
  simp only [filter, get?_filterMap, bind_eq_some_iff, ite_none_right_eq_some, some.injEq]
  constructor
  · rintro ⟨w, hw, hp, rfl⟩
    exact ⟨hw, hp⟩
  · rintro ⟨hv, hp⟩
    exact ⟨v, hv, hp, rfl⟩

/-! ## Folds over distinct keys -/

section Fold

variable {α : Type*} {step : FinMap κ ν → α → FinMap κ ν} {key : α → κ}
  {g : α → Option ν → Option ν}

/-- A fold whose steps leave a key alone leaves it alone. -/
lemma get?_foldl_of_forall_ne (hother : ∀ m a k, k ≠ key a → (step m a).get? k = m.get? k)
    {l : List α} {k : κ} (hk : ∀ a ∈ l, key a ≠ k) (m : FinMap κ ν) :
    (l.foldl step m).get? k = m.get? k := by
  induction l generalizing m with
  | nil => rfl
  | cons a l ih =>
    obtain ⟨ha, hl⟩ := forall_mem_cons.mp hk
    rw [foldl_cons, ih hl, hother m a k (Ne.symm ha)]

/-- In a fold over distinct keys, each of whose steps changes its own key only, the entry at a key
is changed once. -/
lemma get?_foldl_of_mem (hown : ∀ m a, (step m a).get? (key a) = g a (m.get? (key a)))
    (hother : ∀ m a k, k ≠ key a → (step m a).get? k = m.get? k) {l : List α}
    (hnodup : (l.map key).Nodup) {a : α} (ha : a ∈ l) (m : FinMap κ ν) :
    (l.foldl step m).get? (key a) = g a (m.get? (key a)) := by
  induction l generalizing m with
  | nil => simp at ha
  | cons b l ih =>
    rw [map_cons, nodup_cons] at hnodup
    obtain ⟨hb, hl⟩ := hnodup
    rw [foldl_cons]
    rcases mem_cons.mp ha with rfl | ha'
    · rw [get?_foldl_of_forall_ne hother, hown]
      intro c hc heq
      exact hb (mem_map.mpr ⟨c, hc, heq⟩)
    · rw [ih hl ha', hother]
      intro heq
      exact hb (mem_map.mpr ⟨a, ha', heq⟩)

end Fold

/-! ## Maps from lists -/

section OfList

variable [DecidableEq κ]

/-- The map with the given entries; a later entry of a key replaces an earlier one. -/
def ofList (l : List (κ × ν)) : FinMap κ ν := l.foldl (fun m entry => m.insert entry.1 entry.2) empty

/-- One more entry. -/
lemma ofList_concat (l : List (κ × ν)) (entry : κ × ν) :
    ofList (l ++ [entry]) = (ofList l).insert entry.1 entry.2 := by
  rw [ofList, foldl_append]
  rfl

/-- The keys are those of the list. -/
lemma mem_keys_ofList {l : List (κ × ν)} {k : κ} : k ∈ (ofList l).keys ↔ k ∈ l.map Prod.fst := by
  induction l using reverseRecOn with
  | nil => simp [ofList]
  | append_singleton l entry ih =>
    rw [ofList_concat, keys_insert, Finset.mem_insert, ih, map_append, mem_append,
      map_singleton, mem_singleton]
    exact or_comm

/-- If no key is given twice, the entries are those of the list. -/
lemma get?_ofList {l : List (κ × ν)} (hnodup : (l.map Prod.fst).Nodup) {k : κ} {v : ν} :
    (ofList l).get? k = some v ↔ (k, v) ∈ l := by
  induction l using reverseRecOn with
  | nil => simp [ofList]
  | append_singleton l entry ih =>
    rw [map_append, nodup_append] at hnodup
    obtain ⟨hl, -, hne⟩ := hnodup
    rw [ofList_concat, get?_insert, mem_append, mem_singleton]
    by_cases hk : k = entry.1
    · subst hk
      rw [if_pos rfl, some.injEq]
      constructor
      · rintro rfl
        exact .inr rfl
      · rintro (hmem | heq)
        · exact absurd rfl (hne _ (mem_map_of_mem hmem) entry.1 (by simp))
        · rw [← heq]
    · rw [if_neg hk, ih hl]
      refine ⟨.inl, fun h => h.resolve_right fun heq => hk ?_⟩
      rw [← heq]

end OfList

section ToList

variable [LinearOrder κ]

/-- The entries in ascending key order. -/
def toList (m : FinMap κ ν) : List (κ × ν) :=
  m.keys.sort.filterMap fun k => (m.get? k).map fun v => (k, v)

/-- `toList` lists exactly the entries. -/
lemma mem_toList {m : FinMap κ ν} {k : κ} {v : ν} : (k, v) ∈ m.toList ↔ m.get? k = some v := by
  simp only [toList, mem_filterMap, Finset.mem_sort, map_eq_some_iff, Prod.mk.injEq]
  constructor
  · rintro ⟨k', -, v', hv', rfl, rfl⟩
    exact hv'
  · intro h
    exact ⟨k, mem_keys_of_get? h, v, h, rfl, rfl⟩

/-- `toList` is strictly ascending by key. -/
lemma pairwise_toList (m : FinMap κ ν) : m.toList.Pairwise fun a b => a.1 < b.1 := by
  refine (m.keys.sortedLT_sort.pairwise).filterMap _ ?_
  intro k k' hlt a ha b hb
  simp only [map_eq_some_iff] at ha hb
  obtain ⟨v, -, rfl⟩ := ha
  obtain ⟨v', -, rfl⟩ := hb
  exact hlt

/-- No key is listed twice. -/
lemma nodup_keys_toList (m : FinMap κ ν) : (m.toList.map Prod.fst).Nodup := by
  rw [List.Nodup, pairwise_map]
  exact m.pairwise_toList.imp fun h => h.ne

/-- The entries are the keys in order with their values. -/
lemma toList_eq_map (m : FinMap κ ν) (d : ν) :
    m.toList = m.keys.sort.map fun k => (k, (m.get? k).getD d) := by
  rw [toList, ← filterMap_eq_map]
  refine filterMap_congr fun k hk => ?_
  obtain ⟨v, hv⟩ := mem_keys.mp ((Finset.mem_sort _).mp hk)
  simp [hv]

/-- There are as many entries as keys. -/
lemma length_toList (m : FinMap κ ν) : m.toList.length = m.keys.card := by
  by_cases h : Nonempty ν
  · rw [toList_eq_map m (Classical.choice h), length_map, Finset.length_sort]
  · have hempty : m.keys = ∅ := by
      rw [Finset.eq_empty_iff_forall_notMem]
      intro k hk
      obtain ⟨v, -⟩ := mem_keys.mp hk
      exact h ⟨v⟩
    rw [toList, hempty, Finset.sort_empty, filterMap_nil, length_nil, Finset.card_empty]

@[simp] lemma toList_empty : (empty : FinMap κ ν).toList = [] := by
  apply eq_nil_of_length_eq_zero
  rw [length_toList, keys_empty, Finset.card_empty]

end ToList

end FinMap
