import Tgrep.Query.Plan
import Tgrep.Ondisk

/-!
# Executing a query plan

A plan is evaluated against a lookup of posting lists. An `And` starts from its shortest list and
joins the others into it one by one, checking the Bloom bit of the expected next byte; an `Or` is
a union of sorted id lists.

## Main definitions

* `executePlanWithMasks`: the file ids of the candidates of a plan.
* `QueryPlan.Selects`: the file satisfies the plan: one posting per trigram, with the expected
  Bloom bit.

## Main results

* `mem_executePlanWithMasks`: the candidates are exactly the files the plan selects.
* `executePlanWithMasks_ascending`: the ids are strictly ascending.
-/

namespace Tgrep

open Trigram List Ascending

/-- A candidate file with the masks of the posting it was last joined with. -/
abbrev Candidate := UInt32 × UInt8 × UInt8

/-- Make a posting list strictly ascending by file, keeping the first posting of each file. -/
def sortDedupPostingsByFileId (entries : List PostingEntry) : List PostingEntry :=
  Ascending.sortDedup PostingEntry.fileId entries

/-- The next-byte check of a query on a posting's mask. -/
def TrigramQuery.passes (q : TrigramQuery) (nextMask : UInt8) : Bool :=
  match q.expectedNext with
  | some nextByte => nextMask &&& bloomHash nextByte != 0
  | none => true

/-! ## Conjunctions -/

/-- The candidates of the first posting list. -/
def firstCandidates (q : TrigramQuery) (list : List PostingEntry) : List Candidate :=
  ((sortDedupPostingsByFileId list).map fun e => (e.fileId, e.locMask, e.nextMask)).filter
    fun c => q.passes c.2.2

/-- What a candidate becomes when it meets the posting of the same file. -/
def joinCandidate (q : TrigramQuery) (c : Candidate) (e : PostingEntry) : Option Candidate :=
  if q.passes e.nextMask then some (c.1, e.locMask, e.nextMask) else none

/-- Join the candidates with a further posting list: both cursors advance on a common file,
which stays a candidate if the posting passes the check. -/
def intersectCandidates (q : TrigramQuery) (candidates : List Candidate)
    (list : List PostingEntry) : List Candidate :=
  Ascending.joinWith Prod.fst PostingEntry.fileId (joinCandidate q) candidates
    (sortDedupPostingsByFileId list)

/-- Join the candidates with the remaining lists, stopping when none is left. -/
def intersectRest : List (TrigramQuery × List PostingEntry) → List Candidate → List Candidate
  | [], candidates => candidates
  | (q, list) :: rest, candidates =>
    let newCandidates := intersectCandidates q candidates list
    if newCandidates.isEmpty then newCandidates else intersectRest rest newCandidates

/-- The candidates of an `And`. -/
def executeAnd (queries : List TrigramQuery) (lookup : TrigramHash → List PostingEntry) :
    List UInt32 :=
  match Ascending.sortByKey (fun l => l.2.length) (queries.map fun q => (q, lookup q.hash)) with
  | [] => []
  | (firstQuery, firstList) :: lists =>
    (intersectRest lists (firstCandidates firstQuery firstList)).map Prod.fst

/-! ## Disjunctions -/

/-- The union of two sorted id lists. -/
def unionSorted (a b : List UInt32) : List UInt32 := Ascending.union a b

/-- Merge neighbouring lists. -/
def unionPairs : List (List UInt32) → List (List UInt32)
  | left :: right :: rest => unionSorted left right :: unionPairs rest
  | rest => rest

variable {candidates : List Candidate} {q : TrigramQuery} {list : List PostingEntry}
  {lookup : TrigramHash → List PostingEntry} {lists : List (List UInt32)}

/-- Merging neighbours makes a list of two or more lists shorter. -/
lemma length_unionPairs_lt (h : 1 < lists.length) : (unionPairs lists).length < lists.length := by
  have hle : ∀ lists, (unionPairs lists).length ≤ lists.length := by
    intro lists
    fun_induction unionPairs lists with
    | case1 left right rest ih =>
      simp only [length_cons]
      omega
    | case2 => exact le_rfl
  match lists, h with
  | left :: right :: rest, _ =>
    have := hle rest
    simp only [unionPairs, length_cons]
    omega

/-- Merge neighbouring lists until at most one is left. -/
def unionManySortedBalanced (lists : List (List UInt32)) : List UInt32 :=
  if 1 < lists.length then unionManySortedBalanced (unionPairs lists) else lists.getLastD []
termination_by lists.length
decreasing_by exact length_unionPairs_lt ‹_›

/-- Fold the lists into a result; once a list adds more than half of its length, merge the rest
in a balanced way. -/
def unionManyLoop : List UInt32 → List (List UInt32) → List UInt32
  | result, [] => result
  | result, list :: rest =>
    let result' := unionSorted result list
    let added := result'.length - result.length
    if added > list.length / 2 then unionManySortedBalanced (result' :: rest)
    else unionManyLoop result' rest

/-- The union of many sorted id lists. -/
def unionManySorted (lists : List (List UInt32)) : List UInt32 :=
  match lists.filter fun list => !list.isEmpty with
  | [] => []
  | result :: rest => unionManyLoop result rest

/-! ## Plans -/

mutual

/-- The candidates of a plan. `MatchAll` has none of its own: the caller scans every file. -/
def executePlanWithMasks : QueryPlan → (TrigramHash → List PostingEntry) → List UInt32
  | .and queries, lookup => executeAnd queries lookup
  | .or plans, lookup => unionManySorted (executePlansWithMasks plans lookup)
  | .matchAll, _ => []

/-- The candidates of each branch. -/
def executePlansWithMasks :
    List QueryPlan → (TrigramHash → List PostingEntry) → List (List UInt32)
  | [], _ => []
  | plan :: plans, lookup =>
    executePlanWithMasks plan lookup :: executePlansWithMasks plans lookup

end

/-- The branches are executed one by one. -/
lemma executePlansWithMasks_eq_map (plans : List QueryPlan)
    (lookup : TrigramHash → List PostingEntry) :
    executePlansWithMasks plans lookup = plans.map fun p => executePlanWithMasks p lookup := by
  induction plans with
  | nil => rw [executePlansWithMasks, map_nil]
  | cons plan plans ih => rw [executePlansWithMasks, ih, map_cons]

/-! ## What a conjunction returns -/

/-- The deduplicated list has a posting of the file that passes the query's check. -/
def HasPosting (q : TrigramQuery) (list : List PostingEntry) (id : UInt32) : Prop :=
  ∃ e ∈ sortDedupPostingsByFileId list, e.fileId = id ∧ q.passes e.nextMask = true

/-- The first candidates are the files with a posting in the first list. -/
lemma mem_firstCandidates {id : UInt32} :
    id ∈ (firstCandidates q list).map Prod.fst ↔ HasPosting q list id := by
  simp only [firstCandidates, HasPosting, mem_map, mem_filter]
  constructor
  · rintro ⟨_, ⟨⟨e, he, rfl⟩, hq⟩, rfl⟩
    exact ⟨e, he, rfl, hq⟩
  · rintro ⟨e, he, rfl, hq⟩
    exact ⟨_, ⟨⟨e, he, rfl⟩, hq⟩, rfl⟩

/-- The first candidates are strictly ascending. -/
lemma firstCandidates_ascending (q : TrigramQuery) (list : List PostingEntry) :
    Ascending Prod.fst (firstCandidates q list) := by
  refine sublist ?_ filter_sublist
  rw [Ascending, pairwise_map]
  exact sortDedup_ascending list

/-- A candidate survives only if the posting passes the check, and keeps its file. -/
lemma joinCandidate_eq_some {c d : Candidate} {e : PostingEntry}
    (h : joinCandidate q c e = some d) : q.passes e.nextMask = true ∧ d.1 = c.1 := by
  rw [joinCandidate, Option.ite_none_right_eq_some, Option.some.injEq] at h
  obtain ⟨hq, rfl⟩ := h
  exact ⟨hq, rfl⟩

/-- A join keeps exactly the candidates that have a posting in the list. -/
lemma mem_intersectCandidates (h : Ascending Prod.fst candidates) {id : UInt32} :
    id ∈ (intersectCandidates q candidates list).map Prod.fst ↔
      id ∈ candidates.map Prod.fst ∧ HasPosting q list id := by
  have hjoin : ∀ d, d ∈ intersectCandidates q candidates list ↔ ∃ c ∈ candidates,
      ∃ e ∈ sortDedupPostingsByFileId list, c.1 = e.fileId ∧ joinCandidate q c e = some d :=
    fun d => mem_joinWith h (sortDedup_ascending list)
  simp only [mem_map, hjoin, HasPosting]
  constructor
  · rintro ⟨d, ⟨c, hc, e, he, hk, hd⟩, rfl⟩
    obtain ⟨hq, hfst⟩ := joinCandidate_eq_some hd
    exact ⟨⟨c, hc, hfst.symm⟩, e, he, hk.symm.trans hfst.symm, hq⟩
  · rintro ⟨⟨c, hc, rfl⟩, e, he, hk, hq⟩
    exact ⟨(c.1, e.locMask, e.nextMask), ⟨c, hc, e, he, hk.symm, by rw [joinCandidate, if_pos hq]⟩,
      rfl⟩

/-- A join keeps the candidates strictly ascending. -/
lemma intersectCandidates_ascending (h : Ascending Prod.fst candidates) :
    Ascending Prod.fst (intersectCandidates q candidates list) := by
  have hkey : ∀ c e d, joinCandidate q c e = some d → Prod.fst d = Prod.fst c :=
    fun _ _ _ hd => (joinCandidate_eq_some hd).2
  exact joinWith_ascending hkey h

/-- Joining the remaining lists keeps exactly the candidates that have a posting in each of
them. Stopping early is right because an empty candidate list stays empty. -/
lemma mem_intersectRest {lists : List (TrigramQuery × List PostingEntry)}
    (h : Ascending Prod.fst candidates) {id : UInt32} :
    id ∈ (intersectRest lists candidates).map Prod.fst ↔
      id ∈ candidates.map Prod.fst ∧ ∀ l ∈ lists, HasPosting l.1 l.2 id := by
  induction lists generalizing candidates with
  | nil => simp [intersectRest]
  | cons l lists ih =>
    obtain ⟨q, list⟩ := l
    have hstep := @mem_intersectCandidates candidates q list h id
    rw [intersectRest]
    split_ifs with hempty
    · rw [List.isEmpty_iff] at hempty
      rw [hempty] at hstep ⊢
      constructor
      · intro hid
        simp at hid
      · rintro ⟨hc, hl⟩
        simpa using hstep.mpr ⟨hc, hl (q, list) (by simp)⟩
    · rw [ih (intersectCandidates_ascending h), hstep, forall_mem_cons, and_assoc]

/-- Joining the remaining lists keeps the candidates strictly ascending. -/
lemma intersectRest_ascending {lists : List (TrigramQuery × List PostingEntry)}
    (h : Ascending Prod.fst candidates) : Ascending Prod.fst (intersectRest lists candidates) := by
  induction lists generalizing candidates with
  | nil => exact h
  | cons l lists ih =>
    have hstep : Ascending Prod.fst (intersectCandidates l.1 candidates l.2) :=
      intersectCandidates_ascending h
    rw [intersectRest]
    split_ifs
    · exact hstep
    · exact ih hstep

/-- An `And` returns the files that have a posting for each of its queries; the order in which
the lists are joined does not matter. -/
lemma mem_executeAnd {queries : List TrigramQuery} {id : UInt32} :
    id ∈ executeAnd queries lookup ↔
      queries ≠ [] ∧ ∀ q ∈ queries, HasPosting q (lookup q.hash) id := by
  have hperm : (sortByKey (fun l => l.2.length)
      (queries.map fun q => (q, lookup q.hash))).Perm _ := sortByKey_perm _
  rw [executeAnd]
  split
  · next h =>
    rw [h] at hperm
    have hnil : queries = [] := by simpa using hperm.symm.eq_nil
    simp [hnil]
  · next firstQuery firstList lists h =>
    rw [h] at hperm
    rw [mem_intersectRest (firstCandidates_ascending _ _), mem_firstCandidates]
    have hall : (∀ q ∈ queries, HasPosting q (lookup q.hash) id) ↔
        ∀ l ∈ (firstQuery, firstList) :: lists, HasPosting l.1 l.2 id := by
      simp only [hperm.mem_iff, forall_mem_map]
    have hne : queries ≠ [] := by
      rintro rfl
      simpa using hperm.length_eq
    rw [hall, forall_mem_cons]
    exact ⟨fun h => ⟨hne, h⟩, fun h => h.2⟩

/-- The ids of an `And` are strictly ascending. -/
lemma executeAnd_ascending (queries : List TrigramQuery)
    (lookup : TrigramHash → List PostingEntry) : Ascending id (executeAnd queries lookup) := by
  rw [executeAnd]
  split
  · exact nil
  · exact map_iff.mpr (intersectRest_ascending (firstCandidates_ascending _ _))

/-! ## What a disjunction returns -/

/-- Merging neighbours keeps the elements. -/
lemma mem_unionPairs {id : UInt32} : (∃ l ∈ unionPairs lists, id ∈ l) ↔ ∃ l ∈ lists, id ∈ l := by
  fun_induction unionPairs lists with
  | case1 left right rest ih =>
    simp only [exists_mem_cons_iff, ih, unionSorted, mem_union, or_assoc]
  | case2 => rfl

/-- Merging neighbours keeps every list ascending. -/
lemma unionPairs_ascending (h : ∀ l ∈ lists, Ascending id l) :
    ∀ l ∈ unionPairs lists, Ascending id l := by
  fun_induction unionPairs lists with
  | case1 left right rest ih =>
    simp only [forall_mem_cons] at h ⊢
    obtain ⟨hl, hr, hrest⟩ := h
    exact ⟨union_ascending hl hr, ih hrest⟩
  | case2 => exact h

/-- A balanced union has the elements of all lists and is ascending. -/
lemma unionManySortedBalanced_spec (h : ∀ l ∈ lists, Ascending id l) :
    Ascending id (unionManySortedBalanced lists) ∧
      ∀ id, id ∈ unionManySortedBalanced lists ↔ ∃ l ∈ lists, id ∈ l := by
  fun_induction unionManySortedBalanced lists with
  | case1 lists hlen ih =>
    obtain ⟨hasc, hmem⟩ := ih (unionPairs_ascending h)
    exact ⟨hasc, fun id => (hmem id).trans mem_unionPairs⟩
  | case2 lists hlen =>
    rcases lists with _ | ⟨l, _ | ⟨l', rest⟩⟩
    · simp
    · simpa using h
    · simp at hlen

/-- The folding loop has the elements of the result so far and of all further lists, and is
ascending. -/
lemma unionManyLoop_spec {result : List UInt32} (h : ∀ l ∈ result :: lists, Ascending id l) :
    Ascending id (unionManyLoop result lists) ∧
      ∀ id, id ∈ unionManyLoop result lists ↔ ∃ l ∈ result :: lists, id ∈ l := by
  induction lists generalizing result with
  | nil => simpa [unionManyLoop] using h
  | cons list lists ih =>
    simp only [forall_mem_cons] at h
    obtain ⟨hresult, hlist, hlists⟩ := h
    have hunion : ∀ l ∈ unionSorted result list :: lists, Ascending id l :=
      forall_mem_cons.mpr ⟨union_ascending hresult hlist, hlists⟩
    have hmem : ∀ id, (∃ l ∈ unionSorted result list :: lists, id ∈ l) ↔
        ∃ l ∈ result :: list :: lists, id ∈ l := by
      intro id
      simp only [exists_mem_cons_iff, unionSorted, mem_union, or_assoc]
    rw [unionManyLoop]
    split_ifs
    · obtain ⟨hasc, hspec⟩ := unionManySortedBalanced_spec hunion
      exact ⟨hasc, fun id => (hspec id).trans (hmem id)⟩
    · obtain ⟨hasc, hspec⟩ := ih hunion
      exact ⟨hasc, fun id => (hspec id).trans (hmem id)⟩

/-- **The union of many lists** has the elements of all of them and is ascending, whichever way
the lists are merged. -/
theorem unionManySorted_spec (h : ∀ l ∈ lists, Ascending id l) :
    Ascending id (unionManySorted lists) ∧
      ∀ id, id ∈ unionManySorted lists ↔ ∃ l ∈ lists, id ∈ l := by
  have hfilter : ∀ id : UInt32, (∃ l ∈ lists.filter fun list => !list.isEmpty, id ∈ l) ↔
      ∃ l ∈ lists, id ∈ l := by
    intro id
    constructor
    · rintro ⟨l, hl, hid⟩
      exact ⟨l, (mem_filter.mp hl).1, hid⟩
    · rintro ⟨l, hl, hid⟩
      refine ⟨l, mem_filter.mpr ⟨hl, ?_⟩, hid⟩
      simpa using ne_nil_of_mem hid
  have hasc : ∀ l ∈ lists.filter fun list => !list.isEmpty, Ascending id l :=
    fun l hl => h l (mem_filter.mp hl).1
  rw [unionManySorted]
  split
  · next hnil =>
    refine ⟨nil, fun id => ?_⟩
    rw [← hfilter id, hnil]
    simp
  · next result rest hcons =>
    rw [hcons] at hasc hfilter
    obtain ⟨hres, hmem⟩ := unionManyLoop_spec hasc
    exact ⟨hres, fun id => (hmem id).trans (hfilter id)⟩

/-! ## What a plan returns -/

/-- The file satisfies the plan: for every trigram of an `And` it has a posting that passes the
next-byte check, and for an `Or` it satisfies some branch. -/
inductive QueryPlan.Selects (lookup : TrigramHash → List PostingEntry) (id : UInt32) :
    QueryPlan → Prop
  | and {queries : List TrigramQuery} :
      queries ≠ [] → (∀ q ∈ queries, HasPosting q (lookup q.hash) id) →
      Selects lookup id (.and queries)
  | or {plans : List QueryPlan} {p : QueryPlan} :
      p ∈ plans → Selects lookup id p → Selects lookup id (.or plans)

/-- Induction over a plan, with the hypothesis for every branch of an `Or`. -/
@[induction_eliminator]
lemma QueryPlan.induction {motive : QueryPlan → Prop} (and : ∀ queries, motive (.and queries))
    (or : ∀ plans, (∀ p ∈ plans, motive p) → motive (.or plans)) (matchAll : motive .matchAll)
    (p : QueryPlan) : motive p :=
  @QueryPlan.rec motive (fun plans => ∀ p ∈ plans, motive p) and or matchAll (by simp)
    (fun _ _ hhead htail => by simpa using ⟨hhead, htail⟩) p

/-- **The ids of a plan are strictly ascending.** -/
theorem executePlanWithMasks_ascending (p : QueryPlan) (lookup : TrigramHash → List PostingEntry) :
    Ascending id (executePlanWithMasks p lookup) := by
  induction p with
  | and queries => simpa only [executePlanWithMasks] using executeAnd_ascending queries lookup
  | or plans ih =>
    rw [executePlanWithMasks, executePlansWithMasks_eq_map]
    exact (unionManySorted_spec (forall_mem_map.mpr ih)).1
  | matchAll => simp [executePlanWithMasks]

/-- **The candidates of a plan are the files it selects.** -/
theorem mem_executePlanWithMasks {p : QueryPlan} {id : UInt32} :
    id ∈ executePlanWithMasks p lookup ↔ p.Selects lookup id := by
  induction p with
  | and queries =>
    rw [executePlanWithMasks, mem_executeAnd]
    constructor
    · rintro ⟨hne, h⟩
      exact .and hne h
    · rintro (⟨hne, h⟩ | _)
      exact ⟨hne, h⟩
  | or plans ih =>
    have hasc : ∀ l ∈ plans.map fun p => executePlanWithMasks p lookup, Ascending (fun x => x) l :=
      forall_mem_map.mpr fun p _ => executePlanWithMasks_ascending p lookup
    rw [executePlanWithMasks, executePlansWithMasks_eq_map, (unionManySorted_spec hasc).2]
    constructor
    · rintro ⟨_, hl, hid⟩
      obtain ⟨p, hp, rfl⟩ := mem_map.mp hl
      exact .or hp ((ih p hp).mp hid)
    · rintro (_ | ⟨hp, h⟩)
      exact ⟨_, mem_map.mpr ⟨_, hp, rfl⟩, (ih _ hp).mpr h⟩
  | matchAll =>
    rw [executePlanWithMasks]
    constructor
    · intro h
      simp at h
    · intro h
      cases h

/-- When a posting list has one posting per file, its own postings decide. -/
lemma hasPosting_iff {id : UInt32} (h : ∀ a ∈ list, ∀ b ∈ list, a.fileId = b.fileId → a = b) :
    HasPosting q list id ↔ ∃ e ∈ list, e.fileId = id ∧ q.passes e.nextMask = true := by
  simp only [HasPosting, sortDedupPostingsByFileId, mem_sortDedup h]

/-- Lists with one posting per file agree on a file of each if these have the same masks. -/
lemma hasPosting_congr {list' : List PostingEntry} {a b : UInt32}
    (h : ∀ a ∈ list, ∀ b ∈ list, a.fileId = b.fileId → a = b)
    (h' : ∀ a ∈ list', ∀ b ∈ list', a.fileId = b.fileId → a = b)
    (hsame : ∀ m, (∃ e ∈ list, e.fileId = a ∧ e.nextMask = m) ↔
      ∃ e ∈ list', e.fileId = b ∧ e.nextMask = m) :
    HasPosting q list a ↔ HasPosting q list' b := by
  rw [hasPosting_iff h, hasPosting_iff h']
  constructor
  · rintro ⟨e, he, hid, hq⟩
    obtain ⟨e', he', hid', heq⟩ := (hsame e.nextMask).mp ⟨e, he, hid, rfl⟩
    exact ⟨e', he', hid', heq ▸ hq⟩
  · rintro ⟨e, he, hid, hq⟩
    obtain ⟨e', he', hid', heq⟩ := (hsame e.nextMask).mpr ⟨e, he, hid, rfl⟩
    exact ⟨e', he', hid', heq ▸ hq⟩

/-- A plan selects a file by the masks of its own postings: two lookups agree on a file of each if
these have the same masks. -/
lemma QueryPlan.selects_congr {lookup' : TrigramHash → List PostingEntry} {a b : UInt32}
    (h : ∀ t, ∀ a ∈ lookup t, ∀ b ∈ lookup t, a.fileId = b.fileId → a = b)
    (h' : ∀ t, ∀ a ∈ lookup' t, ∀ b ∈ lookup' t, a.fileId = b.fileId → a = b)
    (hsame : ∀ t m, (∃ e ∈ lookup t, e.fileId = a ∧ e.nextMask = m) ↔
      ∃ e ∈ lookup' t, e.fileId = b ∧ e.nextMask = m) (p : QueryPlan) :
    p.Selects lookup a ↔ p.Selects lookup' b := by
  have hposting : ∀ q : TrigramQuery,
      HasPosting q (lookup q.hash) a ↔ HasPosting q (lookup' q.hash) b :=
    fun q => hasPosting_congr (h q.hash) (h' q.hash) (hsame q.hash)
  induction p with
  | and queries =>
    constructor
    · rintro (⟨hne, hall⟩ | _)
      exact .and hne fun q hq => (hposting q).mp (hall q hq)
    · rintro (⟨hne, hall⟩ | _)
      exact .and hne fun q hq => (hposting q).mpr (hall q hq)
  | or plans ih =>
    constructor
    · rintro (_ | ⟨hp, hsel⟩)
      exact .or hp ((ih _ hp).mp hsel)
    · rintro (_ | ⟨hp, hsel⟩)
      exact .or hp ((ih _ hp).mpr hsel)
  | matchAll =>
    constructor
    · intro hsel
      cases hsel
    · intro hsel
      cases hsel

/-- A file that a plan selects has a posting. -/
lemma QueryPlan.Selects.exists_posting {id : UInt32} {p : QueryPlan} (h : p.Selects lookup id) :
    ∃ t, ∃ e ∈ lookup t, e.fileId = id := by
  induction h with
  | and hne hall =>
    obtain ⟨q, hq⟩ := exists_mem_of_ne_nil _ hne
    obtain ⟨e, he, hid, -⟩ := hall q hq
    refine ⟨q.hash, e, ?_, hid⟩
    rw [sortDedupPostingsByFileId, sortDedup] at he
    split_ifs at he
    · exact he
    · exact mem_sortByKey.mp (mem_of_mem_dedupByKey he)
  | or _ _ ih => exact ih

end Tgrep
