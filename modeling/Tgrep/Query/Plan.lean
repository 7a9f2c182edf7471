import Tgrep.Query.Hir
import Tgrep.Trigram
import Tgrep.Data.Ascending

/-!
# Query plans

A regex is turned into a tree of trigram conditions that every matching file satisfies: an `And`
of trigrams with an optional next byte, an `Or` of plans, or `MatchAll` when no trigram is
certain to occur.

## Main definitions

* `QueryPlan`: the plans.
* `literalsToQueryPlan`: the trigrams of a literal.
* `asciiClassLiteral`: the one ASCII-folded byte of a class, if it has only one.
* `decomposeHir`: the plan of a syntax tree.
* `simplify`: sort and deduplicate the trigrams of every `And`.
* `QueryPlan.Proper`: plans as the planner builds them: no `MatchAll` below the root, no empty
  `And`.

## Main results

* `decomposeHir_proper`, `simplify_proper`: the planner builds proper plans.
-/

namespace Tgrep

open Trigram Ascending List

/-- A trigram with an optional constraint on the byte after it. -/
structure TrigramQuery where
  /-- The trigram. -/
  hash : TrigramHash
  /-- Expected next byte, for the Bloom check. -/
  expectedNext : Option UInt8
  deriving DecidableEq

/-- A node of the query plan tree. -/
inductive QueryPlan
  /-- All trigrams must match. -/
  | and (queries : List TrigramQuery)
  /-- Any branch can match. -/
  | or (plans : List QueryPlan)
  /-- No trigram could be extracted: every file must be scanned. -/
  | matchAll

namespace QueryPlan

/-- Whether the plan is `matchAll`. -/
def isMatchAll : QueryPlan → Bool
  | matchAll => true
  | _ => false

@[simp] lemma isMatchAll_iff {p : QueryPlan} : p.isMatchAll = true ↔ p = matchAll := by
  cases p <;> simp [isMatchAll]

end QueryPlan

/-! ## Building a plan -/

/-- The queries of the windows of a literal, each with the literal byte that follows it. -/
def literalQueries : List UInt8 → List TrigramQuery
  | a :: b :: c :: rest => ⟨hash a b c, rest.head?⟩ :: literalQueries (b :: c :: rest)
  | _ => []

/-- The plan of a literal: too short a literal has no trigram. -/
def literalsToQueryPlan (bytes : List UInt8) : QueryPlan :=
  if bytes.length < 3 then .matchAll else .and (literalQueries bytes)

/-- Add a range of a class to the folded byte found so far: the range must be a single ASCII
character that folds to that byte. -/
def addRange (folded : Option UInt8) (start stop : UInt32) : Option UInt8 :=
  if start ≠ stop ∨ start > 0x7f then none
  else
    let byte := toAsciiLowercase start.toUInt8
    match folded with
    | some previous => if previous ≠ byte then none else some byte
    | none => some byte

/-- Add all ranges of a class in order. The outer `none` says that some range was refused. -/
def addRanges : Option UInt8 → List (UInt32 × UInt32) → Option (Option UInt8)
  | folded, [] => some folded
  | folded, (start, stop) :: ranges =>
    match addRange folded start stop with
    | none => none
    | some byte => addRanges (some byte) ranges

/-- The byte that every member of the class folds to, if all members are ASCII and there is such
a byte. -/
def asciiClassLiteral : Class → Option UInt8
  | .unicode ranges =>
    (addRanges none (ranges.map fun r => (r.1.val, r.2.val))).join
  | .bytes ranges =>
    (addRanges none (ranges.map fun r => (r.1.toUInt32, r.2.toUInt32))).join

/-- The accumulators of the loop over the children of a concatenation. -/
structure ConcatState where
  /-- The queries found so far. -/
  allQueries : List TrigramQuery := []
  /-- The literal run being collected. -/
  currentLiteral : List UInt8 := []
  /-- Whether the run contains a folded class, so that it must be folded as a whole. -/
  foldRun : Bool := false

namespace ConcatState

/-- The text whose trigrams the run stands for: folded as a whole if a class was folded into
it. -/
def runText (s : ConcatState) : List UInt8 :=
  if s.foldRun then s.currentLiteral.map toAsciiLowercase else s.currentLiteral

/-- End the literal run and keep its queries. -/
def flush (s : ConcatState) : ConcatState where
  allQueries :=
    match literalsToQueryPlan s.runText with
    | .and run => s.allQueries ++ run
    | _ => s.allQueries

/-- Append a literal child to the run. -/
def pushLiteral (s : ConcatState) (bytes : List UInt8) : ConcatState :=
  { s with currentLiteral := s.currentLiteral ++ bytes }

/-- Append a folded class to the run. -/
def pushFolded (s : ConcatState) (byte : UInt8) : ConcatState :=
  { s with currentLiteral := s.currentLiteral ++ [byte], foldRun := true }

/-- End the run and keep the queries of another child; only an `And` child contributes. -/
def pushPlan (s : ConcatState) (plan : QueryPlan) : ConcatState :=
  match plan with
  | .and queries => { s.flush with allQueries := s.flush.allQueries ++ queries }
  | _ => s.flush

/-- The plan of the concatenation after its last child. -/
def finish (s : ConcatState) : QueryPlan :=
  if s.flush.allQueries.isEmpty then .matchAll else .and s.flush.allQueries

end ConcatState

mutual

/-- The plan of a syntax tree. -/
def decomposeHir : Hir → QueryPlan
  | .literal bytes => literalsToQueryPlan bytes
  | .concat subs => (decomposeConcat subs {}).finish
  | .alternation alts =>
    -- A branch that can match anywhere makes the whole alternation match anywhere.
    if (decomposeAlternation alts).any QueryPlan.isMatchAll then .matchAll
    else .or (decomposeAlternation alts)
  | .repetition min _ sub => if 1 ≤ min then decomposeHir sub else .matchAll
  | .capture sub => decomposeHir sub
  | .class _ => .matchAll
  | .look _ => .matchAll
  | .empty => .matchAll

/-- The loop over the children of a concatenation. -/
def decomposeConcat : List Hir → ConcatState → ConcatState
  | [], s => s
  | sub :: subs, s =>
    decomposeConcat subs <|
      match sub with
      | .literal bytes => s.pushLiteral bytes
      | .class ranges =>
        match asciiClassLiteral ranges with
        | some byte => s.pushFolded byte
        | none => s.pushPlan (decomposeHir sub)
      | _ => s.pushPlan (decomposeHir sub)

/-- The plans of the branches of an alternation. -/
def decomposeAlternation : List Hir → List QueryPlan
  | [] => []
  | alt :: alts => decomposeHir alt :: decomposeAlternation alts

end

/-! ## Simplifying a plan -/

/-- The closure given to `dedup_by`. The standard library passes the element under test first and
the last kept one second, so the constraint that is cleared belongs to the element that is then
dropped. -/
def dedupQuery (retained duplicate : TrigramQuery) : Bool × TrigramQuery × TrigramQuery :=
  if retained.hash = duplicate.hash then
    if retained.expectedNext ≠ duplicate.expectedNext then
      (true, { retained with expectedNext := none }, duplicate)
    else (true, retained, duplicate)
  else (false, retained, duplicate)

/-- Sort the queries by trigram and drop repeated trigrams. -/
def dedupQueries (queries : List TrigramQuery) : List TrigramQuery :=
  Ascending.dedupBy dedupQuery (Ascending.sortByKey TrigramQuery.hash queries)

mutual

/-- Deduplicate trigrams and unwrap alternatives with one branch. -/
def simplify : QueryPlan → QueryPlan
  | .and queries =>
    if (dedupQueries queries).isEmpty then .matchAll else .and (dedupQueries queries)
  | .or plans =>
    match simplifyAll plans with
    | [plan] => plan
    | simplified => .or simplified
  | .matchAll => .matchAll

/-- Simplify every branch. -/
def simplifyAll : List QueryPlan → List QueryPlan
  | [] => []
  | plan :: plans => simplify plan :: simplifyAll plans

end

/-! ## The loops as list functions -/

/-- What one child adds to the loop over a concatenation. -/
def concatStep (s : ConcatState) : Hir → ConcatState
  | .literal bytes => s.pushLiteral bytes
  | .class ranges =>
    match asciiClassLiteral ranges with
    | some byte => s.pushFolded byte
    | none => s.flush
  | sub => s.pushPlan (decomposeHir sub)

/-- The loop over a concatenation runs one step per child. -/
lemma decomposeConcat_eq_foldl (subs : List Hir) (s : ConcatState) :
    decomposeConcat subs s = subs.foldl concatStep s := by
  induction subs generalizing s with
  | nil => rw [decomposeConcat, foldl_nil]
  | cons sub subs ih =>
    cases sub with
    | «class» ranges =>
      rw [decomposeConcat, ih, foldl_cons, concatStep]
      cases asciiClassLiteral ranges with
      | none => simp only [decomposeHir, ConcatState.pushPlan]
      | some byte => rfl
    | _ => simp only [decomposeConcat, ih, foldl_cons, concatStep]

/-- The branches are decomposed one by one. -/
lemma decomposeAlternation_eq_map (alts : List Hir) :
    decomposeAlternation alts = alts.map decomposeHir := by
  induction alts with
  | nil => rw [decomposeAlternation, map_nil]
  | cons alt alts ih => rw [decomposeAlternation, ih, map_cons]

/-- The branches are simplified one by one. -/
lemma simplifyAll_eq_map (plans : List QueryPlan) : simplifyAll plans = plans.map simplify := by
  induction plans with
  | nil => rw [simplifyAll, map_nil]
  | cons plan plans ih => rw [simplifyAll, ih, map_cons]

/-! ## The shape of the plans -/

/-- Plans as the planner builds them below the root: every `And` has a trigram and no branch is
`MatchAll`. -/
inductive QueryPlan.Proper : QueryPlan → Prop
  | and {queries : List TrigramQuery} : queries ≠ [] → Proper (.and queries)
  | or {plans : List QueryPlan} : (∀ p ∈ plans, Proper p) → Proper (.or plans)

namespace QueryPlan.Proper

/-- A proper plan is not `MatchAll`. -/
lemma ne_matchAll {p : QueryPlan} (h : Proper p) : p ≠ .matchAll := by
  cases h <;> simp

end QueryPlan.Proper

/-- The queries of a run are proper if there are any. -/
lemma ConcatState.finish_proper (s : ConcatState) : s.finish = .matchAll ∨ s.finish.Proper := by
  rw [ConcatState.finish]
  split_ifs with h
  · exact .inl rfl
  · exact .inr (.and (by simpa using h))

/-- A literal of at least three bytes has a query. -/
lemma literalsToQueryPlan_proper (bytes : List UInt8) :
    literalsToQueryPlan bytes = .matchAll ∨ (literalsToQueryPlan bytes).Proper := by
  rw [literalsToQueryPlan]
  split_ifs with h
  · exact .inl rfl
  · obtain ⟨a, b, c, rest, rfl⟩ : ∃ a b c rest, bytes = a :: b :: c :: rest := by
      match bytes, h with
      | a :: b :: c :: rest, _ => exact ⟨a, b, c, rest, rfl⟩
      | [], h | [_], h | [_, _], h => simp at h
    exact .inr (.and (by simp [literalQueries]))

/-- **The planner builds proper plans**: `MatchAll` occurs at the root or not at all.

**Proof sketch.** Induction on the tree. Literals and concatenations drop to `MatchAll` when
they have no query, an alternation does when some branch has none, and the other nodes pass on
the plan of their child. -/
theorem decomposeHir_proper (hir : Hir) :
    decomposeHir hir = .matchAll ∨ (decomposeHir hir).Proper := by
  induction hir with
  | literal bytes => simpa only [decomposeHir] using literalsToQueryPlan_proper bytes
  | concat subs => simpa only [decomposeHir] using ConcatState.finish_proper _
  | alternation alts ih =>
    rw [decomposeHir, decomposeAlternation_eq_map]
    split_ifs with hany
    · exact .inl rfl
    · refine .inr (.or fun p hp => ?_)
      obtain ⟨alt, halt, rfl⟩ := List.mem_map.mp hp
      refine (ih alt halt).resolve_left fun hall => hany ?_
      exact List.any_eq_true.mpr ⟨_, hp, by simp [hall]⟩
  | repetition min max sub ih =>
    rw [decomposeHir]
    split_ifs
    · exact ih
    · exact .inl rfl
  | capture sub ih => simpa only [decomposeHir] using ih
  | «class» ranges => exact .inl (by rw [decomposeHir])
  | look kind => exact .inl (by rw [decomposeHir])
  | empty => exact .inl (by rw [decomposeHir])

/-- Deduplication keeps a query of some trigram. -/
lemma dedupQueries_eq_nil {queries : List TrigramQuery} :
    dedupQueries queries = [] ↔ queries = [] := by
  rw [dedupQueries, dedupBy_eq_nil, ← length_eq_zero_iff,
    (sortByKey_perm queries).length_eq, length_eq_zero_iff]

/-- Every query that survives deduplication is one of the queries, unchanged. -/
lemma mem_of_mem_dedupQueries {queries : List TrigramQuery} {q : TrigramQuery}
    (h : q ∈ dedupQueries queries) : q ∈ queries := by
  refine Ascending.mem_sortByKey.mp (mem_of_mem_dedupBy (fun a b => ?_) h)
  rw [dedupQuery]
  split_ifs <;> simp

/-- Simplifying an `And` with a trigram leaves an `And`. -/
lemma simplify_and {queries : List TrigramQuery} (h : queries ≠ []) :
    simplify (.and queries) = .and (dedupQueries queries) := by
  rw [simplify, if_neg]
  simpa [dedupQueries_eq_nil] using h

/-- Simplifying an alternative with one branch unwraps it. -/
lemma simplify_or_singleton (p : QueryPlan) : simplify (.or [p]) = simplify p := by
  rw [simplify, simplifyAll_eq_map, map_singleton]

/-- Simplifying any other alternative simplifies its branches. -/
lemma simplify_or {plans : List QueryPlan} (h : plans.length ≠ 1) :
    simplify (.or plans) = .or (plans.map simplify) := by
  rw [simplify, simplifyAll_eq_map]
  match plans, h with
  | [], _ => rfl
  | _ :: _ :: _, _ => rfl

end Tgrep
