import Mathlib.Data.List.Basic
import Tgrep.Data.FinMap

/-!
# Maps that forget the least recently used entry

A map of bounded size that makes room for a new entry by dropping the one that was not used for
the longest time. What an entry is dropped for is the business of the map; what a caller that
accounts for the entries needs is which entry left.

## Main definitions

* `LruCache`: the operations of such a map, with the laws that relate them to its contents.
* `ListLru`: a list of entries, the most recently used first.
* `ListLru.lruCache`: the operations on such lists.
-/

/-- The operations of a map that forgets entries, and what they do to its contents. -/
structure LruCache (κ ν : Type*) [DecidableEq κ] where
  /-- The states of a map. -/
  State : Type*
  /-- The entries. -/
  contents : State → FinMap κ ν
  /-- A map without entries, for at most so many. -/
  new : ℕ → State
  /-- Set an entry. The entry that it replaces, or that leaves for it, is returned. -/
  push : State → κ → ν → State × Option (κ × ν)
  /-- Make an entry the most recently used one. -/
  promote : State → κ → State
  /-- Remove an entry. -/
  pop : State → κ → State × Option ν
  /-- Remove the least recently used entry. -/
  popLru : State → State × Option (κ × ν)
  /-- Remove all entries. -/
  clear : State → State
  contents_new : ∀ n, contents (new n) = FinMap.empty
  push_none : ∀ l k v, (push l k v).2 = none →
    (contents l).get? k = none ∧ contents (push l k v).1 = (contents l).insert k v
  push_some : ∀ l k v k' old, (push l k v).2 = some (k', old) →
    (contents l).get? k' = some old ∧ (k' = k ∨ (contents l).get? k = none) ∧
      contents (push l k v).1 = ((contents l).erase k').insert k v
  contents_promote : ∀ l k, contents (promote l k) = contents l
  pop_eq : ∀ l k, (pop l k).2 = (contents l).get? k ∧
    contents (pop l k).1 = (contents l).erase k
  popLru_none : ∀ l, (popLru l).2 = none → contents l = FinMap.empty
  popLru_some : ∀ l k old, (popLru l).2 = some (k, old) → (contents l).get? k = some old ∧
    contents (popLru l).1 = (contents l).erase k
  contents_clear : ∀ l, contents (clear l) = FinMap.empty

/-- Entries in the order of their last use, the latest first, with the size of the map. -/
structure ListLru (κ ν : Type*) where
  /-- The most entries. -/
  capacity : ℕ
  /-- The entries. -/
  entries : List (κ × ν)
  /-- There is one entry a key. -/
  nodup : (entries.map Prod.fst).Nodup

namespace ListLru

open FinMap List

variable {κ ν : Type} [DecidableEq κ]

/-- The entries without that of a key. -/
def without (l : ListLru κ ν) (k : κ) : List (κ × ν) := l.entries.filter (·.1 ≠ k)

/-- The value at a key. -/
def value (l : ListLru κ ν) (k : κ) : Option ν := (l.entries.find? (·.1 = k)).map Prod.snd

/-- The entries as a map. -/
def contents (l : ListLru κ ν) : FinMap κ ν := .ofList l.entries

/-- What is left. -/
lemma mem_without {l : ListLru κ ν} {k : κ} {entry : κ × ν} :
    entry ∈ l.without k ↔ entry ∈ l.entries ∧ entry.1 ≠ k := by
  rw [without, mem_filter, decide_eq_true_iff]

variable (l : ListLru κ ν) (k : κ) (v : ν)

/-- No key is left twice. -/
lemma nodup_without : ((l.without k).map Prod.fst).Nodup :=
  l.nodup.sublist (filter_sublist.map _)

/-- The key is not left. -/
lemma notMem_without : k ∉ (l.without k).map Prod.fst := by
  simp [without]

/-- A map without entries. -/
def new (capacity : ℕ) : ListLru κ ν := ⟨capacity, [], List.nodup_nil⟩

/-- The entry of a key, as the most recently used one. -/
def toFront (l : ListLru κ ν) (k : κ) (v : ν) : ListLru κ ν :=
  ⟨l.capacity, (k, v) :: l.without k, List.nodup_cons.mpr ⟨l.notMem_without k, l.nodup_without k⟩⟩

/-- Drop the entry at the end. -/
def popLru (l : ListLru κ ν) : ListLru κ ν × Option (κ × ν) :=
  (⟨l.capacity, l.entries.dropLast, l.nodup.sublist ((List.dropLast_sublist _).map _)⟩,
    l.entries.getLast?)

/-- Set an entry. If it is new and there is no room, the entry at the end leaves. -/
def push (l : ListLru κ ν) (k : κ) (v : ν) : ListLru κ ν × Option (κ × ν) :=
  match l.value k with
  | some old => (l.toFront k v, some (k, old))
  | none =>
    if l.entries.length < l.capacity then (l.toFront k v, none)
    else (l.popLru.1.toFront k v, l.popLru.2)

/-- Make an entry the most recently used one. -/
def promote (l : ListLru κ ν) (k : κ) : ListLru κ ν :=
  match l.value k with
  | some v => l.toFront k v
  | none => l

/-- Remove an entry. -/
def pop (l : ListLru κ ν) (k : κ) : ListLru κ ν × Option ν :=
  (⟨l.capacity, l.without k, l.nodup_without k⟩, l.value k)

lemma entries_toFront : (l.toFront k v).entries = (k, v) :: l.without k := rfl

omit [DecidableEq κ] in
lemma entries_popLru : l.popLru.1.entries = l.entries.dropLast := rfl

lemma entries_pop : (l.pop k).1.entries = l.without k := rfl

/-- The contents, entry by entry. -/
lemma get?_contents {l : ListLru κ ν} {k : κ} {v : ν} :
    l.contents.get? k = some v ↔ (k, v) ∈ l.entries := get?_ofList l.nodup

/-- The value at a key is that of the contents. -/
lemma value_eq : l.value k = l.contents.get? k := by
  apply Option.ext
  intro v
  rw [get?_contents, value, Option.map_eq_some_iff]
  constructor
  · rintro ⟨⟨k', v'⟩, hfind, rfl⟩
    obtain rfl : k' = k := by simpa using find?_some hfind
    exact mem_of_find?_eq_some hfind
  · intro hmem
    cases hfind : l.entries.find? (·.1 = k) with
    | none => simpa using find?_eq_none.mp hfind (k, v) hmem
    | some entry =>
      obtain ⟨k', v'⟩ := entry
      obtain rfl : k' = k := by simpa using find?_some hfind
      have hsame := get?_contents.mpr (mem_of_find?_eq_some hfind)
      have hother := get?_contents.mpr hmem
      exact ⟨_, rfl, Option.some.inj (hsame.symm.trans hother)⟩

/-- Lists with the same entries have the same contents. -/
lemma contents_ext {l : ListLru κ ν} {m : FinMap κ ν}
    (h : ∀ k v, (k, v) ∈ l.entries ↔ m.get? k = some v) : l.contents = m := by
  apply ext_get?
  intro k
  apply Option.ext
  intro v
  rw [get?_contents]
  exact h k v

/-- Without a key. -/
lemma contents_pop : (l.pop k).1.contents = l.contents.erase k := by
  refine contents_ext fun k' v => ?_
  rw [get?_erase, entries_pop, mem_without, ← get?_contents]
  by_cases hk : k' = k
  · simp [hk]
  · simp [hk]

/-- With an entry in front. -/
lemma contents_toFront : (l.toFront k v).contents = l.contents.insert k v := by
  refine contents_ext fun k' v' => ?_
  rw [get?_insert, entries_toFront, mem_cons, mem_without, ← get?_contents]
  by_cases hk : k' = k
  · simp [hk, eq_comm]
  · simp [hk]

/-- Without the entry at the end. -/
lemma contents_popLru {l : ListLru κ ν} {k : κ} {v : ν} (h : l.popLru.2 = some (k, v)) :
    l.contents.get? k = some v ∧ l.popLru.1.contents = l.contents.erase k := by
  obtain ⟨before, heq⟩ := getLast?_eq_some_iff.mp h
  have hmem : (k, v) ∈ l.entries := by rw [heq]; simp
  refine ⟨get?_contents.mpr hmem, contents_ext fun k' v' => ?_⟩
  have hnodup := l.nodup
  rw [heq, map_append, nodup_append] at hnodup
  rw [get?_erase, entries_popLru, heq, dropLast_concat]
  split_ifs with hk
  · refine iff_of_false (fun hin => ?_) nofun
    exact hnodup.2.2 _ (mem_map_of_mem hin) k (by simp) hk
  · rw [get?_contents, heq, mem_append, mem_singleton, Prod.mk.injEq]
    exact ⟨.inl, fun hin => hin.resolve_right fun hboth => hk hboth.1⟩

/-- No entry is left to drop. -/
lemma contents_popLru_none {l : ListLru κ ν} (h : l.popLru.2 = none) :
    l.contents = FinMap.empty := by
  have hnil : l.entries = [] := getLast?_eq_none_iff.mp h
  exact contents_ext fun k v => by simp [hnil]

/-- What a push does to the contents. -/
lemma push_eq :
    ((l.push k v).2 = none → l.contents.get? k = none ∧
      (l.push k v).1.contents = l.contents.insert k v) ∧
    ∀ k' old, (l.push k v).2 = some (k', old) → l.contents.get? k' = some old ∧
      (k' = k ∨ l.contents.get? k = none) ∧
      (l.push k v).1.contents = (l.contents.erase k').insert k v := by
  cases hvalue : l.value k with
  | some old =>
    have hpush : l.push k v = (l.toFront k v, some (k, old)) := by rw [push, hvalue]
    rw [hpush]
    refine ⟨nofun, fun k' old' heq => ?_⟩
    cases heq
    refine ⟨value_eq l k ▸ hvalue, .inl rfl, ?_⟩
    rw [contents_toFront]
    apply ext_get?
    intro j
    simp only [get?_insert, get?_erase]
    split_ifs <;> rfl
  | none =>
    have hnone : l.contents.get? k = none := value_eq l k ▸ hvalue
    by_cases hroom : l.entries.length < l.capacity
    · have hpush : l.push k v = (l.toFront k v, none) := by
        rw [push, hvalue]
        exact if_pos hroom
      rw [hpush]
      exact ⟨fun _ => ⟨hnone, contents_toFront l k v⟩, nofun⟩
    · have hpush : l.push k v = (l.popLru.1.toFront k v, l.popLru.2) := by
        rw [push, hvalue]
        exact if_neg hroom
      rw [hpush]
      refine ⟨fun hlast => ⟨hnone, ?_⟩, fun k' old hlast => ?_⟩
      · have hnil : l.entries = [] := getLast?_eq_none_iff.mp hlast
        have hsame : l.popLru.1.contents = l.contents := by
          refine contents_ext fun k v => ?_
          rw [get?_contents, entries_popLru, hnil]
          rfl
        rw [contents_toFront, hsame]
      · obtain ⟨hget, herase⟩ := contents_popLru hlast
        refine ⟨hget, .inr hnone, ?_⟩
        rw [contents_toFront, herase]

/-- The operations on lists of entries. -/
def lruCache (κ ν : Type) [DecidableEq κ] : LruCache κ ν where
  State := ListLru κ ν
  contents := contents
  new := new
  push := push
  promote := promote
  pop := pop
  popLru := popLru
  clear l := new l.capacity
  contents_new _ := rfl
  push_none l k v h := (l.push_eq k v).1 h
  push_some l k v k' old h := (l.push_eq k v).2 k' old h
  contents_promote l k := by
    unfold promote
    cases hvalue : l.value k with
    | none => rfl
    | some v =>
      dsimp only
      rw [contents_toFront]
      apply ext_get?
      intro j
      rw [get?_insert]
      split_ifs with hj
      · rw [hj, ← value_eq, hvalue]
      · rfl
  pop_eq l k := ⟨value_eq l k, contents_pop l k⟩
  popLru_none _ h := contents_popLru_none h
  popLru_some _ _ _ h := contents_popLru h
  contents_clear _ := rfl

end ListLru
