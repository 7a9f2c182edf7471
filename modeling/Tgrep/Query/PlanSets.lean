import Tgrep.Query.NoFalseNegatives

/-!
# Plans as expressions over sets

Executing a plan is evaluating an expression: intersections of the posting sets of trigrams, and
unions of those. This holds with and without the next-byte check, and whichever way the union of
many lists is merged.

## Main definitions

* `executePlan`: the candidates of a plan without the next-byte check.
* `QueryPlan.eval`: the set that a plan denotes, given a set for each query.
* `maskedPostings`, `plainPostings`: the files with a posting, with and without the check.
* `buildQueryPlan`, `buildLiteralPlan`, `buildMultiPatternPlan`, `buildRelaxedMultiPatternPlan` —
  the builders of plans.

## Main results

* `mem_executePlanWithMasks_iff`, `mem_executePlan_iff`: what is executed is what is denoted.
* `unionManySorted_eq`: a union merges one list after another, or in rounds.
* `execute_is_set_algebra`: all of it.

## Implementation notes

The parser of patterns and the relaxation of patterns that it refuses are parameters of the
builders.
-/

namespace Tgrep

open Trigram List Ascending

/-! ## Execution without masks -/

/-- The elements of both sorted lists: both cursors advance on a common element. -/
def intersectSorted (a b : List UInt32) : List UInt32 :=
  Ascending.joinWith id id (fun x _ => some x) a b

/-- Intersect with the remaining lists, stopping when nothing is left. -/
def intersectLists : List (List UInt32) → List UInt32 → List UInt32
  | [], result => result
  | list :: lists, result =>
    let result' := intersectSorted result (Ascending.dedupByKey id (Ascending.sortByKey id list))
    if result'.isEmpty then result' else intersectLists lists result'

mutual

/-- The candidates of a plan by its trigrams alone. -/
def executePlan : QueryPlan → (TrigramHash → List UInt32) → List UInt32
  | .and queries, lookup =>
    match Ascending.sortByKey List.length (queries.map fun q => lookup q.hash) with
    | [] => []
    | result :: lists =>
      intersectLists lists (Ascending.dedupByKey id (Ascending.sortByKey id result))
  | .or plans, lookup => unionManySorted (executePlans plans lookup)
  | .matchAll, _ => []

/-- The candidates of each branch. -/
def executePlans : List QueryPlan → (TrigramHash → List UInt32) → List (List UInt32)
  | [], _ => []
  | plan :: plans, lookup => executePlan plan lookup :: executePlans plans lookup

end

/-- The branches are executed one by one. -/
lemma executePlans_eq_map (plans : List QueryPlan) (lookup : TrigramHash → List UInt32) :
    executePlans plans lookup = plans.map fun p => executePlan p lookup := by
  induction plans with
  | nil => rw [executePlans, map_nil]
  | cons plan plans ih => rw [executePlans, ih, map_cons]

/-! ## The set that a plan denotes -/

section Eval

variable {β : Type*}

mutual

/-- The set that a plan denotes, given the set of each query. `MatchAll` has no postings of its
own. -/
def QueryPlan.eval (leaf : TrigramQuery → Set β) : QueryPlan → Set β
  | .and queries => {x | ∀ q ∈ queries, x ∈ leaf q}
  | .or plans => QueryPlan.evalUnion leaf plans
  | .matchAll => ∅

/-- The union of what the branches denote. -/
def QueryPlan.evalUnion (leaf : TrigramQuery → Set β) : List QueryPlan → Set β
  | [] => ∅
  | plan :: plans => plan.eval leaf ∪ QueryPlan.evalUnion leaf plans

end

lemma QueryPlan.mem_evalUnion {leaf : TrigramQuery → Set β} {plans : List QueryPlan} {x : β} :
    x ∈ QueryPlan.evalUnion leaf plans ↔ ∃ p ∈ plans, x ∈ p.eval leaf := by
  induction plans with
  | nil => simp [QueryPlan.evalUnion]
  | cons plan plans ih => rw [QueryPlan.evalUnion, Set.mem_union, ih, exists_mem_cons_iff]

/-- **A plan denotes no less when its queries do.** -/
theorem QueryPlan.eval_mono {leaf leaf' : TrigramQuery → Set β} (h : ∀ q, leaf q ⊆ leaf' q)
    (p : QueryPlan) : p.eval leaf ⊆ p.eval leaf' := by
  induction p with
  | and queries =>
    rw [QueryPlan.eval, QueryPlan.eval]
    exact fun x hx q hq => h q (hx q hq)
  | or plans ih =>
    rw [QueryPlan.eval, QueryPlan.eval]
    intro x hx
    obtain ⟨p, hp, hxp⟩ := QueryPlan.mem_evalUnion.mp hx
    exact QueryPlan.mem_evalUnion.mpr ⟨p, hp, ih p hp hxp⟩
  | matchAll => rw [QueryPlan.eval, QueryPlan.eval]

end Eval

/-- The files whose first posting in the list of the trigram passes the check of a query. -/
def maskedPostings (lookup : TrigramHash → List PostingEntry) (q : TrigramQuery) : Set UInt32 :=
  {id | ∃ e, (lookup q.hash).find? (fun e => e.fileId == id) = some e ∧ q.passes e.nextMask = true}

/-- The files in the list of the trigram of a query. -/
def plainPostings (lookup : TrigramHash → List UInt32) (q : TrigramQuery) : Set UInt32 :=
  {id | id ∈ lookup q.hash}

/-- The posting that the executor checks is the first one of the file. -/
lemma hasPosting_iff_first {q : TrigramQuery} {list : List PostingEntry} {id : UInt32} :
    HasPosting q list id ↔
      ∃ e, list.find? (fun e => e.fileId == id) = some e ∧ q.passes e.nextMask = true := by
  simp only [HasPosting, sortDedupPostingsByFileId, mem_sortDedup_iff]
  constructor
  · rintro ⟨e, hfind, rfl, hq⟩
    exact ⟨e, hfind, hq⟩
  · rintro ⟨e, hfind, hq⟩
    have hid : e.fileId = id := by simpa using find?_some hfind
    exact ⟨e, by rwa [hid], hid, hq⟩

/-- **With masks, what is executed is what the plan denotes.** -/
theorem mem_executePlanWithMasks_iff {p : QueryPlan} (hp : p = .matchAll ∨ p.Proper)
    {lookup : TrigramHash → List PostingEntry} {id : UInt32} :
    id ∈ executePlanWithMasks p lookup ↔ id ∈ p.eval (maskedPostings lookup) := by
  rw [mem_executePlanWithMasks]
  rcases hp with rfl | hp
  · rw [QueryPlan.eval]
    constructor
    · intro hsel
      cases hsel
    · intro hmem
      cases hmem
  · induction hp with
    | and hne =>
      rw [QueryPlan.eval]
      constructor
      · rintro (⟨-, hall⟩ | _)
        exact fun q hq => hasPosting_iff_first.mp (hall q hq)
      · exact fun hall => .and hne fun q hq => hasPosting_iff_first.mpr (hall q hq)
    | or _ ih =>
      rw [QueryPlan.eval, QueryPlan.mem_evalUnion]
      constructor
      · rintro (_ | ⟨hp, hsel⟩)
        exact ⟨_, hp, (ih _ hp).mp hsel⟩
      · rintro ⟨p, hp, hmem⟩
        exact .or hp ((ih p hp).mpr hmem)

/-! ## Intersections of plain lists -/

/-- A list without its duplicates, in ascending order. -/
lemma sorted_ids_ascending (list : List UInt32) :
    Ascending id (Ascending.dedupByKey id (Ascending.sortByKey id list)) :=
  dedupByKey_ascending (pairwise_sortByKey list)

lemma mem_sorted_ids {list : List UInt32} {x : UInt32} :
    x ∈ Ascending.dedupByKey id (Ascending.sortByKey id list) ↔ x ∈ list := by
  constructor
  · exact fun hx => mem_sortByKey.mp (mem_of_mem_dedupByKey hx)
  · intro hx
    have hx' : x ∈ sortByKey id list := mem_sortByKey.mpr hx
    obtain ⟨y, hy, rfl⟩ : ∃ y ∈ dedupByKey id (sortByKey id list), id y = id x :=
      exists_mem_dedupByKey hx'
    exact hy

lemma mem_intersectSorted {a b : List UInt32} (ha : Ascending id a) (hb : Ascending id b)
    {x : UInt32} : x ∈ intersectSorted a b ↔ x ∈ a ∧ x ∈ b := by
  rw [intersectSorted, mem_joinWith ha hb]
  constructor
  · rintro ⟨y, hy, z, hz, heq, hx⟩
    obtain rfl : y = x := Option.some.inj hx
    obtain rfl : y = z := heq
    exact ⟨hy, hz⟩
  · exact fun ⟨hxa, hxb⟩ => ⟨x, hxa, x, hxb, rfl, rfl⟩

lemma intersectSorted_ascending {a b : List UInt32} (ha : Ascending id a) :
    Ascending id (intersectSorted a b) :=
  joinWith_ascending (fun _ _ _ heq => (Option.some.inj heq).symm) ha

/-- Intersecting with further lists keeps what is in all of them. -/
lemma intersectLists_spec {lists : List (List UInt32)} {result : List UInt32}
    (h : Ascending id result) :
    Ascending id (intersectLists lists result) ∧
      ∀ x, x ∈ intersectLists lists result ↔ x ∈ result ∧ ∀ list ∈ lists, x ∈ list := by
  induction lists generalizing result with
  | nil =>
    refine ⟨h, fun x => ?_⟩
    rw [intersectLists]
    exact ⟨fun hx => ⟨hx, forall_mem_nil _⟩, fun hx => hx.1⟩
  | cons list lists ih =>
    have hmem : ∀ x, x ∈ intersectSorted result _ ↔ x ∈ result ∧ x ∈ list := fun x =>
      (mem_intersectSorted h (sorted_ids_ascending list)).trans (and_congr_right' mem_sorted_ids)
    have hasc : Ascending id (intersectSorted result _) := intersectSorted_ascending h
      (b := dedupByKey id (sortByKey id list))
    rw [intersectLists]
    split_ifs with hempty
    · refine ⟨hasc, fun x => ?_⟩
      rw [hmem, forall_mem_cons]
      constructor
      · intro hx
        have hin := (hmem x).mpr hx
        rw [isEmpty_iff.mp hempty] at hin
        cases hin
      · exact fun hx => ⟨hx.1, hx.2.1⟩
    · obtain ⟨hresult, hspec⟩ := ih hasc
      refine ⟨hresult, fun x => ?_⟩
      rw [hspec, hmem, forall_mem_cons, and_assoc]

/-- The ids of a plan are strictly ascending, and they are what the plan denotes.

**Proof sketch.** Induction on the plan. A conjunction is the intersection of its lists in whatever
order their lengths put them; a disjunction is the union of ascending lists. -/
lemma executePlan_spec (p : QueryPlan) (lookup : TrigramHash → List UInt32) :
    Ascending id (executePlan p lookup) ∧ ((p = .matchAll ∨ p.Proper) →
      ∀ x, x ∈ executePlan p lookup ↔ x ∈ p.eval (plainPostings lookup)) := by
  induction p with
  | and queries =>
    have hperm : (Ascending.sortByKey List.length (queries.map fun q => lookup q.hash)).Perm _ :=
      sortByKey_perm _
    rw [executePlan]
    split
    · next hnil =>
      rw [hnil] at hperm
      have hqueries : queries = [] := by simpa using hperm.symm.eq_nil
      refine ⟨Ascending.nil, fun hp => ?_⟩
      rcases hp with hall | hproper
      · cases hall
      · cases hproper with
        | and hne => exact absurd hqueries hne
    · next result lists hcons =>
      rw [hcons] at hperm
      obtain ⟨hasc, hmem⟩ := @intersectLists_spec lists _ (sorted_ids_ascending result)
      refine ⟨hasc, fun _ x => ?_⟩
      rw [hmem, mem_sorted_ids, QueryPlan.eval]
      have hall : (∀ q ∈ queries, x ∈ lookup q.hash) ↔ ∀ l ∈ result :: lists, x ∈ l := by
        simp only [hperm.mem_iff, forall_mem_map]
      exact (forall_mem_cons (p := fun l => x ∈ l)).symm.trans hall.symm
  | or plans ih =>
    have hasc : ∀ l ∈ plans.map fun p => executePlan p lookup, Ascending (fun x => x) l :=
      List.forall_mem_map.mpr fun p hp => (ih p hp).1
    obtain ⟨hunion, hmem⟩ := unionManySorted_spec hasc
    rw [executePlan, executePlans_eq_map]
    refine ⟨hunion, fun hp x => ?_⟩
    have hbranches : ∀ p ∈ plans, p = .matchAll ∨ p.Proper := by
      rcases hp with hall | hproper
      · cases hall
      · cases hproper with
        | or hproper => exact fun p hp => .inr (hproper p hp)
    rw [hmem, QueryPlan.eval, QueryPlan.mem_evalUnion]
    constructor
    · rintro ⟨_, hl, hx⟩
      obtain ⟨p, hp, rfl⟩ := List.mem_map.mp hl
      exact ⟨p, hp, ((ih p hp).2 (hbranches p hp) x).mp hx⟩
    · rintro ⟨p, hp, hx⟩
      exact ⟨_, List.mem_map.mpr ⟨p, hp, rfl⟩, ((ih p hp).2 (hbranches p hp) x).mpr hx⟩
  | matchAll =>
    rw [executePlan]
    refine ⟨Ascending.nil, fun _ x => ?_⟩
    rw [QueryPlan.eval]
    exact iff_of_false not_mem_nil (Set.notMem_empty x)

/-- **Without masks, what is executed is what the plan denotes.** -/
theorem mem_executePlan_iff {p : QueryPlan} (hp : p = .matchAll ∨ p.Proper)
    {lookup : TrigramHash → List UInt32} {id : UInt32} :
    id ∈ executePlan p lookup ↔ id ∈ p.eval (plainPostings lookup) :=
  (executePlan_spec p lookup).2 hp id

/-! ## Merging many lists -/

/-- Merging one list after another has the elements of all lists. -/
lemma foldl_unionSorted_spec {lists : List (List UInt32)} {result : List UInt32}
    (h : ∀ l ∈ result :: lists, Ascending id l) :
    Ascending id (lists.foldl unionSorted result) ∧
      ∀ x, x ∈ lists.foldl unionSorted result ↔ ∃ l ∈ result :: lists, x ∈ l := by
  induction lists generalizing result with
  | nil => simpa using h
  | cons list lists ih =>
    simp only [forall_mem_cons] at h
    obtain ⟨hresult, hlist, hlists⟩ := h
    have hunion : ∀ l ∈ unionSorted result list :: lists, Ascending id l :=
      forall_mem_cons.mpr ⟨union_ascending hresult hlist, hlists⟩
    obtain ⟨hasc, hmem⟩ := ih hunion
    refine ⟨hasc, fun x => (hmem x).trans ?_⟩
    simp only [exists_mem_cons_iff, unionSorted, mem_union, or_assoc]

/-- **The union of many lists** is what merging one after another yields, and what merging in
rounds yields. -/
theorem unionManySorted_eq {lists : List (List UInt32)} (h : ∀ l ∈ lists, Ascending id l) :
    unionManySorted lists = lists.foldl unionSorted [] ∧
      unionManySorted lists = unionManySortedBalanced lists := by
  obtain ⟨hmany, hmemMany⟩ := unionManySorted_spec h
  obtain ⟨hround, hmemRound⟩ := unionManySortedBalanced_spec h
  obtain ⟨hfold, hmemFold⟩ := @foldl_unionSorted_spec lists [] (forall_mem_cons.mpr ⟨nil, h⟩)
  constructor
  · refine hmany.eq_of_mem_iff hfold fun x => ?_
    rw [hmemMany, hmemFold, exists_mem_cons_iff]
    simp
  · exact hmany.eq_of_mem_iff hround fun x => (hmemMany x).trans (hmemRound x).symm

/-! ## The builders -/

section Builders

variable (parse : Bool → String → Except String Hir) (escape : String → String)
  (relax : String → Option String)

/-- The plan of a pattern. -/
def buildQueryPlan (pattern : String) (caseInsensitive : Bool) : Except String QueryPlan :=
  match parse caseInsensitive pattern with
  | .error e => .error s!"regex parse error: {e}"
  | .ok hir => .ok (simplify (decomposeHir hir))

/-- The plan of a literal. -/
def buildLiteralPlan (literal : String) (caseInsensitive : Bool) : QueryPlan :=
  if caseInsensitive then
    match buildQueryPlan parse (escape literal) true with
    | .ok plan => plan
    | .error _ => .matchAll
  else literalsToQueryPlan literal.toUTF8.toList

/-- One plan for the plans of all patterns. -/
def unionPlans (plans : List QueryPlan) : QueryPlan :=
  match plans with
  | [] => .matchAll
  | [plan] => plan
  | plans => .or plans

/-- The plans of the patterns, up to one that matches everything; the outer `none` says that there
is one. -/
def collectPlans (fixedString caseInsensitive : Bool) :
    List String → List QueryPlan → Except String (Option (List QueryPlan))
  | [], plans => .ok (some plans)
  | pattern :: patterns, plans =>
    let plan :=
      if fixedString then .ok (buildLiteralPlan parse escape pattern caseInsensitive)
      else buildQueryPlan parse pattern caseInsensitive
    match plan with
    | .error e => .error e
    | .ok plan =>
      if plan.isMatchAll then .ok none
      else collectPlans fixedString caseInsensitive patterns (plans ++ [plan])

/-- One plan for all patterns. -/
def buildMultiPatternPlan (patterns : List String) (fixedString caseInsensitive : Bool) :
    Except String QueryPlan :=
  match collectPlans parse escape fixedString caseInsensitive patterns [] with
  | .error e => .error e
  | .ok none => .ok .matchAll
  | .ok (some plans) => .ok (unionPlans plans)

/-- The plans of the relaxed patterns, unless one of them matches everything. -/
def collectRelaxed (caseInsensitive : Bool) : List String → List QueryPlan → Option (List QueryPlan)
  | [], plans => some plans
  | pattern :: patterns, plans =>
    match (relax pattern).bind fun relaxed =>
      (buildQueryPlan parse relaxed caseInsensitive).toOption with
    | some plan =>
      if plan.isMatchAll then none else collectRelaxed caseInsensitive patterns (plans ++ [plan])
    | none => none

/-- One plan for all patterns that the parser refuses as they are. -/
def buildRelaxedMultiPatternPlan (patterns : List String) (caseInsensitive : Bool) : QueryPlan :=
  match collectRelaxed parse relax caseInsensitive patterns [] with
  | none => .matchAll
  | some plans => unionPlans plans

variable {parse : Bool → String → Except String Hir} {escape : String → String}
  {relax : String → Option String}

variable {patterns : List String} {plans : List QueryPlan} {caseInsensitive : Bool}

/-- The plan of a pattern is proper, or matches everything. -/
lemma buildQueryPlan_proper {pattern : String} {plan : QueryPlan}
    (h : buildQueryPlan parse pattern caseInsensitive = .ok plan) :
    plan = .matchAll ∨ plan.Proper := by
  unfold buildQueryPlan at h
  split at h
  · cases h
  · next hir _ =>
    cases h
    rcases decomposeHir_proper hir with hall | hproper
    · rw [hall, simplify]
      exact .inl rfl
    · exact .inr (simplify_proper hproper)

/-- The plan of a literal is proper, or matches everything. -/
lemma buildLiteralPlan_proper (literal : String) (caseInsensitive : Bool) :
    buildLiteralPlan parse escape literal caseInsensitive = .matchAll ∨
      (buildLiteralPlan parse escape literal caseInsensitive).Proper := by
  rw [buildLiteralPlan]
  split_ifs
  · split
    · next hplan => exact buildQueryPlan_proper hplan
    · exact .inl rfl
  · exact literalsToQueryPlan_proper _

/-- Proper plans make one proper plan. -/
lemma unionPlans_proper (h : ∀ p ∈ plans, p.Proper) :
    unionPlans plans = .matchAll ∨ (unionPlans plans).Proper := by
  rw [unionPlans.eq_def]
  split
  · exact .inl rfl
  · exact .inr (h _ (mem_singleton_self _))
  · exact .inr (.or h)

/-- The plans that are collected are proper. -/
lemma collectPlans_proper {fixedString : Bool} {result : List QueryPlan}
    (hplans : ∀ p ∈ plans, p.Proper)
    (h : collectPlans parse escape fixedString caseInsensitive patterns plans = .ok (some result)) :
    ∀ p ∈ result, p.Proper := by
  induction patterns generalizing plans with
  | nil =>
    cases h
    exact hplans
  | cons pattern patterns ih =>
    rw [collectPlans] at h
    split at h
    · cases h
    · next plan hplan =>
      have hproper : plan = .matchAll ∨ plan.Proper := by
        split_ifs at hplan
        · cases hplan
          exact buildLiteralPlan_proper pattern caseInsensitive
        · exact buildQueryPlan_proper hplan
      split_ifs at h with hall
      · cases h
      · refine ih (forall_mem_append.mpr ⟨hplans, forall_mem_singleton.mpr ?_⟩) h
        exact hproper.resolve_left fun heq => hall (QueryPlan.isMatchAll_iff.mpr heq)

/-- The plans of relaxed patterns that are collected are proper. -/
lemma collectRelaxed_proper {result : List QueryPlan} (hplans : ∀ p ∈ plans, p.Proper)
    (h : collectRelaxed parse relax caseInsensitive patterns plans = some result) :
    ∀ p ∈ result, p.Proper := by
  induction patterns generalizing plans with
  | nil =>
    cases h
    exact hplans
  | cons pattern patterns ih =>
    rw [collectRelaxed] at h
    split at h
    · next plan hplan =>
      obtain ⟨relaxed, -, hparsed⟩ := Option.bind_eq_some_iff.mp hplan
      have hproper : plan = .matchAll ∨ plan.Proper := by
        cases hbuild : buildQueryPlan parse relaxed caseInsensitive with
        | error e =>
          rw [hbuild] at hparsed
          cases hparsed
        | ok built =>
          rw [hbuild] at hparsed
          cases hparsed
          exact buildQueryPlan_proper hbuild
      split_ifs at h with hall
      refine ih (forall_mem_append.mpr ⟨hplans, forall_mem_singleton.mpr ?_⟩) h
      exact hproper.resolve_left fun heq => hall (QueryPlan.isMatchAll_iff.mpr heq)
    · cases h

/-- **The plan of several patterns is proper, or matches everything.** -/
theorem buildMultiPatternPlan_proper {fixedString : Bool} {plan : QueryPlan}
    (h : buildMultiPatternPlan parse escape patterns fixedString caseInsensitive = .ok plan) :
    plan = .matchAll ∨ plan.Proper := by
  unfold buildMultiPatternPlan at h
  split at h
  · cases h
  · cases h
    exact .inl rfl
  · next hcollect =>
    cases h
    exact unionPlans_proper (collectPlans_proper (forall_mem_nil _) hcollect)

/-- **The plan of several relaxed patterns is proper, or matches everything.** -/
theorem buildRelaxedMultiPatternPlan_proper (patterns : List String) (caseInsensitive : Bool) :
    buildRelaxedMultiPatternPlan parse relax patterns caseInsensitive = .matchAll ∨
      (buildRelaxedMultiPatternPlan parse relax patterns caseInsensitive).Proper := by
  rw [buildRelaxedMultiPatternPlan]
  split
  · exact .inl rfl
  · next hcollect => exact unionPlans_proper (collectRelaxed_proper (forall_mem_nil _) hcollect)

/-! ### Plans that lose no text -/

/-- A plan keeps a text: it matches everything, or it is proper and holds in the text. -/
def QueryPlan.Keeps (p : QueryPlan) (text : List UInt8) : Prop :=
  p = .matchAll ∨ (p.Proper ∧ p.Holds text)

variable {L : Hir.LookSemantics} {text : List UInt8}

/-- The plan of a regex keeps the texts that it matches in. -/
lemma simplify_keeps {hir : Hir} (hm : hir.MatchesIn L text) :
    (simplify (decomposeHir hir)).Keeps text := by
  rcases decomposeHir_proper hir with hall | hproper
  · left
    rw [hall, simplify]
  · obtain ⟨pre, mid, post, rfl, hm⟩ := hm
    rw [append_assoc]
    exact .inr ⟨simplify_proper hproper, simplify_holds (decomposeHir_holds hm)⟩

/-- A pattern occurs in a text: as it stands, or as the regex that it is parsed as. -/
def PatternIn (parse : Bool → String → Except String Hir) (escape : String → String)
    (L : Hir.LookSemantics) (fixedString caseInsensitive : Bool) (pattern : String)
    (text : List UInt8) : Prop :=
  if fixedString && !caseInsensitive then pattern.toUTF8.toList <:+: text
  else ∃ hir, parse caseInsensitive (if fixedString then escape pattern else pattern) = .ok hir ∧
    hir.MatchesIn L text

variable {fixedString : Bool} {pattern : String} {plan : QueryPlan}

/-- The plan of a pattern keeps the texts that it occurs in. -/
lemma patternPlan_keeps
    (hplan : (if fixedString then .ok (buildLiteralPlan parse escape pattern caseInsensitive)
      else buildQueryPlan parse pattern caseInsensitive) = .ok plan)
    (hin : PatternIn parse escape L fixedString caseInsensitive pattern text) :
    plan.Keeps text := by
  cases fixedString with
  | false =>
    obtain ⟨hir, hparse, hm⟩ := hin
    obtain rfl : simplify (decomposeHir hir) = plan := by
      simpa [buildQueryPlan, show parse caseInsensitive pattern = .ok hir from hparse] using hplan
    exact simplify_keeps hm
  | true =>
    obtain rfl := Except.ok.inj hplan
    cases caseInsensitive with
    | false =>
      obtain ⟨pre, post, rfl⟩ : pattern.toUTF8.toList <:+: text := hin
      have hrun : RunsTo false pattern.toUTF8.toList pattern.toUTF8.toList := rfl
      rw [append_assoc]
      exact (literalsToQueryPlan_proper _).imp id fun h => ⟨h, literalsToQueryPlan_holds hrun⟩
    | true =>
      obtain ⟨hir, hparse, hm⟩ := hin
      have hbuild : buildLiteralPlan parse escape pattern true = simplify (decomposeHir hir) := by
        simp [buildLiteralPlan, buildQueryPlan,
          show parse true (escape pattern) = .ok hir from hparse]
      exact hbuild ▸ simplify_keeps hm

/-- Every pattern's plan is among those that are collected. -/
lemma mem_collectPlans {result : List QueryPlan}
    (h : collectPlans parse escape fixedString caseInsensitive patterns plans = .ok (some result)) :
    (∀ p ∈ plans, p ∈ result) ∧ ∀ pattern ∈ patterns, ∃ p ∈ result,
      (if fixedString then .ok (buildLiteralPlan parse escape pattern caseInsensitive)
        else buildQueryPlan parse pattern caseInsensitive) = .ok p := by
  induction patterns generalizing plans with
  | nil =>
    cases h
    exact ⟨fun p hp => hp, forall_mem_nil _⟩
  | cons pattern patterns ih =>
    rw [collectPlans] at h
    split at h
    · cases h
    · next plan hplan =>
      split_ifs at h
      · cases h
      · obtain ⟨hplans, hrest⟩ := ih h
        refine ⟨fun p hp => hplans p (mem_append_left _ hp), forall_mem_cons.mpr ⟨?_, hrest⟩⟩
        exact ⟨plan, hplans plan (mem_append_right _ (mem_singleton_self plan)), hplan⟩

/-- **The plan of several patterns keeps the texts that one of them occurs in.** -/
theorem buildMultiPatternPlan_keeps
    (h : buildMultiPatternPlan parse escape patterns fixedString caseInsensitive = .ok plan)
    (hmem : pattern ∈ patterns)
    (hin : PatternIn parse escape L fixedString caseInsensitive pattern text) :
    plan.Keeps text := by
  unfold buildMultiPatternPlan at h
  split at h
  · cases h
  · cases h
    exact .inl rfl
  · next plans hcollect =>
    obtain rfl := Except.ok.inj h
    obtain ⟨p, hp, hplan⟩ := (mem_collectPlans hcollect).2 pattern hmem
    have hproper := collectPlans_proper (forall_mem_nil _) hcollect
    have hkeeps := patternPlan_keeps hplan hin
    have hholds : p.Holds text := hkeeps.elim (fun hall => hall ▸ .matchAll) And.right
    rw [unionPlans.eq_def]
    split
    · cases hp
    · rwa [mem_singleton.mp hp] at hkeeps
    · exact .inr ⟨.or hproper, .or hp hholds⟩

end Builders

/-! ## Execution is set algebra -/

/-- **Masked execution is set algebra over first postings.** For the plans that the builders make,
the candidates ascend strictly and are what the plan denotes, each query standing for the files
whose first posting passes its check. They are among the candidates without masks. A union is the
same list whether it merges one list after another or in rounds. -/
theorem execute_is_set_algebra {p : QueryPlan} (hp : p = .matchAll ∨ p.Proper)
    (lookup : TrigramHash → List PostingEntry) :
    Ascending id (executePlanWithMasks p lookup) ∧
      (∀ id, id ∈ executePlanWithMasks p lookup ↔ id ∈ p.eval (maskedPostings lookup)) ∧
      (∀ id ∈ executePlanWithMasks p lookup,
        id ∈ executePlan p fun t => (lookup t).map PostingEntry.fileId) ∧
      ∀ lists : List (List UInt32), (∀ l ∈ lists, Ascending id l) →
        unionManySorted lists = lists.foldl unionSorted [] ∧
          unionManySorted lists = unionManySortedBalanced lists := by
  refine ⟨executePlanWithMasks_ascending p lookup, fun id => mem_executePlanWithMasks_iff hp,
    fun id hid => ?_, fun lists h => unionManySorted_eq h⟩
  have hmono : ∀ q, maskedPostings lookup q ⊆
      plainPostings (fun t => (lookup t).map PostingEntry.fileId) q := by
    rintro q x ⟨e, hfind, -⟩
    have hkey : e.fileId = x := by simpa using find?_some hfind
    exact List.mem_map.mpr ⟨e, mem_of_find?_eq_some hfind, hkey⟩
  exact (mem_executePlan_iff hp).mpr
    (QueryPlan.eval_mono hmono p ((mem_executePlanWithMasks_iff hp).mp hid))

/-- An alternative of two trigrams, of which one occurs in no file. -/
theorem execute_is_set_algebra_two :
    Ascending id (executePlanWithMasks (.or [.and [⟨0x616263, some 100⟩], .and [⟨0x646566, none⟩]])
      fun t => if t = 0x616263 then [⟨7, 1, bloomHash 100⟩, ⟨2, 1, bloomHash 100⟩] else []) :=
  (execute_is_set_algebra (.inr (.or (by simp [QueryPlan.Proper.and]))) _).1

/-- A file that a list repeats counts with its first posting, even if a later one would pass. -/
theorem first_posting_decides :
    ¬ ∀ id, id ∈ executePlanWithMasks (.and [⟨0x616263, some 100⟩])
        (fun _ => [⟨1, 1, 0⟩, ⟨1, 1, bloomHash 100⟩]) ↔
      id ∈ (QueryPlan.and [⟨0x616263, some 100⟩]).eval fun q =>
        {id | ∃ e ∈ [(⟨1, 1, 0⟩ : PostingEntry), ⟨1, 1, bloomHash 100⟩],
          e.fileId = id ∧ q.passes e.nextMask = true} := by
  intro h
  have hin := (h 1).mpr (by
    rw [QueryPlan.eval]
    intro q hq
    obtain rfl := List.mem_singleton.mp hq
    exact ⟨⟨1, 1, bloomHash 100⟩, by simp, rfl, by decide⟩)
  rw [mem_executePlanWithMasks] at hin
  obtain ⟨-, hall⟩ := hin
  obtain ⟨e, hfind, hpass⟩ := hasPosting_iff_first.mp (hall _ (mem_singleton_self _))
  cases hfind
  exact absurd hpass (by decide)

end Tgrep
