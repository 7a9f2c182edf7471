import Mathlib.Data.List.Infix

/-!
# Cascades of opinions

Sources are consulted in an order, and each of them may have an opinion of an entry. Asked about
one entry, the first source with an opinion decides. Asked about a whole chain of entries, sources
may also be consulted one after the other about the chain: each answers for the nearest entry it
has an opinion of. The two ways of asking agree on an opinion that the first source to speak has
of an entry of the chain, and on nothing else.

## Main definitions

* `Cascade.parents`: the proper initial segments of a path, the longest first.
* `Cascade.decision`: the first opinion of one entry.
* `Cascade.nearest`, `Cascade.bySource`: the first opinion of a chain, source by source.
* `Cascade.Leads`: the first source that speaks about a chain.

## Main results

* `Cascade.parents_append`: the segments of a path below and above one of its directories.
* `Cascade.bySource_eq_some_iff`, `Cascade.bySource_eq_none_iff`: what the chain's answer says
  of the source that leads.
* `Cascade.Leads.decision`: the leading source decides about every entry it has an opinion of.
-/

namespace Cascade

open List

section Paths

variable {α : Type*}

/-- The proper initial segments of a path, the longest first. -/
def parents (path : List α) : List (List α) :=
  path.inits.dropLast.reverse

/-- The empty path has no parent. -/
@[simp] lemma parents_nil : parents ([] : List α) = [] := by
  rfl

/-- The last initial segment of a path is the path. -/
lemma dropLast_inits_concat (path : List α) : path.inits.dropLast ++ [path] = path.inits := by
  cases path using reverseRecOn with
  | nil => rfl
  | append_singleton path name =>
    have hinits : (path ++ [name]).inits = path.inits ++ [path ++ [name]] := by
      simp [inits_append]
    rw [hinits, dropLast_concat]

/-- The first parent of a path is the path without its last component. -/
@[simp] lemma parents_concat (path : List α) (name : α) :
    parents (path ++ [name]) = path :: parents path := by
  have hinits : (path ++ [name]).inits = path.inits ++ [path ++ [name]] := by
    simp [inits_append]
  rw [parents, hinits, dropLast_concat, ← dropLast_inits_concat, reverse_append, parents]
  rfl

/-- **The parents of a path in a directory** are those below the directory, then the directory
and its own parents. -/
theorem parents_append (dir path : List α) :
    parents (dir ++ path) = (parents path).map (dir ++ ·) ++ parents dir := by
  induction path using reverseRecOn with
  | nil => simp
  | append_singleton path name ih => rw [← append_assoc, parents_concat, ih]; simp

/-- The parents of a path are its proper initial segments. -/
lemma mem_parents {path segment : List α} :
    segment ∈ parents path ↔ segment <+: path ∧ segment ≠ path := by
  induction path using reverseRecOn with
  | nil => simp +contextual
  | append_singleton path name ih =>
    rw [parents_concat, mem_cons, ih, prefix_concat_iff]
    constructor
    · rintro (rfl | ⟨hsegment, -⟩)
      · exact ⟨.inr (prefix_rfl), fun h => by simpa using congrArg length h⟩
      · refine ⟨.inr hsegment, fun h => ?_⟩
        have hle := hsegment.length_le
        rw [h, length_append, length_singleton] at hle
        omega
    · rintro ⟨rfl | hsegment, hne⟩
      · exact absurd rfl hne
      · by_cases heq : segment = path
        · exact .inl heq
        · exact .inr ⟨hsegment, heq⟩

/-- The parents of a path get shorter. -/
lemma pairwise_parents (path : List α) :
    (parents path).Pairwise fun a b => b.length < a.length := by
  induction path using reverseRecOn with
  | nil => simp
  | append_singleton path name ih =>
    rw [parents_concat, pairwise_cons]
    refine ⟨fun segment hmem => ?_, ih⟩
    obtain ⟨hsegment, hne⟩ := mem_parents.1 hmem
    rcases Nat.lt_or_ge segment.length path.length with hlt | hge
    · exact hlt
    · exact absurd (hsegment.eq_of_length_le hge) hne

/-- The parents of a path that is not empty are those that are not empty, and the empty path. -/
lemma parents_eq_filter_append [DecidableEq α] {path : List α} (h : path ≠ []) :
    parents path = (parents path).filter (fun segment => decide (segment ≠ [])) ++ [[]] := by
  induction path using reverseRecOn with
  | nil => exact absurd rfl h
  | append_singleton path name ih =>
    rw [parents_concat]
    by_cases hpath : path = []
    · subst hpath
      rfl
    · rw [filter_cons_of_pos (by simpa using hpath), cons_append, ← ih hpath]

end Paths

section Lists

variable {α β γ : Type*}

variable {l : List α} {f : α → Option β}

/-- Members without an answer may be left out of a search. -/
lemma findSome?_filter {p : α → Bool} (h : ∀ a ∈ l, p a = false → f a = none) :
    (l.filter p).findSome? f = l.findSome? f := by
  induction l with
  | nil => rfl
  | cons a l ih =>
    have ih' := ih fun b hb => h b (mem_cons_of_mem a hb)
    cases hp : p a with
    | true => rw [filter_cons_of_pos hp, findSome?_cons, findSome?_cons, ih']
    | false =>
      rw [filter_cons_of_neg (by simp [hp]), findSome?_cons, h a mem_cons_self hp, ih']

/-- A search through what a map gives. -/
lemma findSome?_filterMap {g : β → Option γ} :
    (l.filterMap f).findSome? g = l.findSome? fun a => (f a).bind g := by
  induction l with
  | nil => rfl
  | cons a l ih =>
    cases hf : f a with
    | none => simp [hf, ih]
    | some b =>
      rw [filterMap_cons_some hf, findSome?_cons, findSome?_cons, hf, ih]
      rfl

/-- Searches that agree on every member. -/
lemma findSome?_congr {g : α → Option β} (h : ∀ a ∈ l, f a = g a) :
    l.findSome? f = l.findSome? g := by
  induction l with
  | nil => rfl
  | cons a l ih =>
    rw [findSome?_cons, findSome?_cons, h a mem_cons_self,
      ih fun b hb => h b (mem_cons_of_mem a hb)]

end Lists

variable {σ ε : Type*} (opinion : σ → ε → Option Bool) (above : σ → Option Bool)

/-- The decision about one entry: the opinion of the first source that has one. -/
def decision (sources : List σ) (entry : ε) : Option Bool :=
  sources.findSome? fun s => opinion s entry

/-- A source's opinion of the nearest entry of a chain that it has one of, and otherwise its
opinion of what lies above the chain. -/
def nearest (chain : List ε) (s : σ) : Option Bool :=
  (chain.findSome? (opinion s)).or (above s)

/-- The decision about a chain, source by source. -/
def bySource (sources : List σ) (chain : List ε) : Option Bool :=
  sources.findSome? (nearest opinion above chain)

/-- `s` is the first source that speaks about the chain or what lies above it. -/
def Leads (sources : List σ) (chain : List ε) (s : σ) : Prop :=
  ∃ before after, sources = before ++ s :: after ∧
    (∀ t ∈ before, nearest opinion above chain t = none) ∧ nearest opinion above chain s ≠ none

variable {opinion above} {sources : List σ} {chain : List ε}

/-- A source is silent if it has no opinion of any entry, and none of what lies above. -/
lemma nearest_eq_none_iff {s : σ} : nearest opinion above chain s = none ↔
    (∀ e ∈ chain, opinion s e = none) ∧ above s = none := by
  rw [nearest, Option.or_eq_none_iff, findSome?_eq_none_iff]

/-- The chain's answer is the leading source's. -/
lemma bySource_eq_some_iff {b : Bool} : bySource opinion above sources chain = some b ↔
    ∃ s, Leads opinion above sources chain s ∧ nearest opinion above chain s = some b := by
  rw [bySource, findSome?_eq_some_iff]
  constructor
  · rintro ⟨before, s, after, hsources, hs, hbefore⟩
    exact ⟨s, ⟨before, after, hsources, hbefore, by simp [hs]⟩, hs⟩
  · rintro ⟨s, ⟨before, after, hsources, hbefore, -⟩, hs⟩
    exact ⟨before, s, after, hsources, hs, hbefore⟩

/-- There is no answer if no source speaks. -/
lemma bySource_eq_none_iff : bySource opinion above sources chain = none ↔
    ∀ s ∈ sources, nearest opinion above chain s = none := by
  rw [bySource, findSome?_eq_none_iff]

/-- **The leading source decides** about every entry of the chain that it has an opinion of. -/
theorem Leads.decision {s : σ} (h : Leads opinion above sources chain s) {e : ε} (he : e ∈ chain)
    {b : Bool} (hs : opinion s e = some b) : decision opinion sources e = some b := by
  obtain ⟨before, after, rfl, hbefore, -⟩ := h
  exact findSome?_eq_some_iff.2
    ⟨before, s, after, rfl, hs, fun t ht => (nearest_eq_none_iff.1 (hbefore t ht)).1 e he⟩

/-- What nobody speaks about is not decided. -/
lemma decision_eq_none {e : ε} (he : e ∈ chain)
    (h : bySource opinion above sources chain = none) : decision opinion sources e = none := by
  refine findSome?_eq_none_iff.2 fun s hs => ?_
  exact (nearest_eq_none_iff.1 (bySource_eq_none_iff.1 h s hs)).1 e he

/-- An opinion of an entry on a chain that a leading source has no opinion of lies above it. -/
lemma nearest_eq_some {s : σ} {b : Bool} (h : nearest opinion above chain s = some b) :
    (∃ e ∈ chain, opinion s e = some b) ∨
      (∀ e ∈ chain, opinion s e = none) ∧ above s = some b := by
  rw [nearest] at h
  cases hfind : chain.findSome? (opinion s) with
  | none => exact .inr ⟨findSome?_eq_none_iff.1 hfind, by simpa [hfind] using h⟩
  | some b' =>
    obtain rfl : b' = b := by simpa [hfind] using h
    exact .inl (exists_of_findSome?_eq_some hfind)

end Cascade
