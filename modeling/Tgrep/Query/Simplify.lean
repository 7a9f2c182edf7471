import Tgrep.Query.Execute

/-!
# Deduplicating the trigrams of a conjunction

Simplifying an `And` leaves one query a trigram: the first one. The next byte that another query of
the trigram expects is not compared with it, so the query that stays expects a next byte exactly if
the first one does.

## Main definitions

* `QueryPlan.conjuncts`: the queries of a conjunction.
* `MergesNextBytes`: one query a trigram, which expects what all queries of the trigram expect.

## Main results

* `mem_dedupQueries`: the first query of each trigram stays.
* `simplify_merges_iff`: when the next bytes are merged.
-/

namespace Tgrep

open Ascending

/-- The queries that a plan joins: `MatchAll` joins none. -/
def QueryPlan.conjuncts : QueryPlan → List TrigramQuery
  | .and queries => queries
  | _ => []

/-- A result has one query for each trigram of some queries, in ascending order, and it expects a
next byte iff all queries of the trigram expect that byte. -/
structure MergesNextBytes (queries result : List TrigramQuery) : Prop where
  ascending : Ascending TrigramQuery.hash result
  hashes : ∀ h, (∃ q ∈ result, q.hash = h) ↔ ∃ q ∈ queries, q.hash = h
  next : ∀ q ∈ result, ∀ b,
    q.expectedNext = some b ↔ ∀ q' ∈ queries, q'.hash = q.hash → q'.expectedNext = some b

variable (queries : List TrigramQuery)

/-- The closure changes only what is dropped, so it keeps the first query of each trigram. -/
lemma dedupBy_dedupQuery :
    Ascending.dedupBy dedupQuery queries = Ascending.dedupByKey TrigramQuery.hash queries := by
  have hfrom : ∀ (queries : List TrigramQuery) (kept : TrigramQuery),
      Ascending.dedupByFrom dedupQuery kept queries =
        Ascending.dedupByFrom (fun a b => (a.hash == b.hash, a, b)) kept queries := by
    intro queries
    induction queries with
    | nil => exact fun _ => rfl
    | cons q queries ih =>
      intro kept
      rw [dedupByFrom, dedupByFrom, dedupQuery]
      by_cases hhash : q.hash = kept.hash
      · rw [if_pos hhash, beq_iff_eq.mpr hhash]
        split_ifs <;> exact ih kept
      · rw [if_neg hhash, beq_eq_false_iff_ne.mpr hhash]
        exact congrArg (kept :: ·) (ih q)
  cases queries with
  | nil => rfl
  | cons q queries => exact hfrom queries q

/-- **The queries that stay are the first ones of their trigrams.** -/
theorem mem_dedupQueries {queries : List TrigramQuery} {q : TrigramQuery} :
    q ∈ dedupQueries queries ↔ queries.find? (fun q' => q'.hash == q.hash) = some q := by
  rw [dedupQueries, dedupBy_dedupQuery, mem_dedupByKey (pairwise_sortByKey _), find?_sortByKey]

/-- The queries that stay are in ascending order of their trigrams. -/
lemma dedupQueries_ascending : Ascending TrigramQuery.hash (dedupQueries queries) := by
  rw [dedupQueries, dedupBy_dedupQuery]
  exact dedupByKey_ascending (pairwise_sortByKey _)

/-- A trigram has a first query. -/
lemma exists_first {queries : List TrigramQuery} {q : TrigramQuery} (h : q ∈ queries) :
    ∃ first, queries.find? (fun q' => q'.hash == q.hash) = some first ∧ first.hash = q.hash := by
  have hsome : (queries.find? fun q' => q'.hash == q.hash).isSome :=
    List.find?_isSome.mpr ⟨q, h, by simp⟩
  obtain ⟨first, hfirst⟩ := Option.isSome_iff_exists.mp hsome
  exact ⟨first, hfirst, by simpa using List.find?_some hfirst⟩

/-- Every trigram keeps a query, and no trigram is new. -/
lemma dedupQueries_hashes (h : TrigramHash) :
    (∃ q ∈ dedupQueries queries, q.hash = h) ↔ ∃ q ∈ queries, q.hash = h := by
  constructor
  · rintro ⟨q, hq, rfl⟩
    exact ⟨q, mem_of_mem_dedupQueries hq, rfl⟩
  · rintro ⟨q, hq, rfl⟩
    obtain ⟨first, hfirst, hhash⟩ := exists_first hq
    exact ⟨first, mem_dedupQueries.mpr (hhash ▸ hfirst), hhash⟩

/-- What a simplified conjunction joins. -/
lemma conjuncts_simplify : (simplify (.and queries)).conjuncts = dedupQueries queries := by
  rw [simplify]
  split_ifs with hempty
  · exact (List.isEmpty_iff.mp hempty).symm
  · rfl

/-- **When simplifying a conjunction is exact.** It always leaves one query a trigram in ascending
order, and always accepts what the conjunction accepts. The query that stays expects what all
queries of its trigram expect iff wherever the first query of a trigram expects a byte, every other
query of that trigram expects it too.

**Proof sketch.** The query that stays is the first one of its trigram. If it expects no byte, then
not all queries of the trigram expect one. If it expects a byte, then all of them have to. -/
theorem simplify_merges_iff (queries : List TrigramQuery) :
    (MergesNextBytes queries (simplify (.and queries)).conjuncts ∧
      ∀ (lookup : TrigramHash → List PostingEntry) (id : UInt32),
        (∀ q ∈ queries, HasPosting q (lookup q.hash) id) →
        ∀ q ∈ (simplify (.and queries)).conjuncts, HasPosting q (lookup q.hash) id) ↔
      ∀ q ∈ queries, ∀ first, queries.find? (fun q' => q'.hash == q.hash) = some first →
        first.expectedNext = none ∨ q.expectedNext = first.expectedNext := by
  rw [conjuncts_simplify]
  constructor
  · rintro ⟨hmerges, -⟩ q hq first hfirst
    have hhash : first.hash = q.hash := by simpa using List.find?_some hfirst
    cases hnext : first.expectedNext with
    | none => exact .inl rfl
    | some b =>
      have hstays : first ∈ dedupQueries queries := mem_dedupQueries.mpr (by rwa [hhash])
      exact .inr ((hmerges.next first hstays b).mp hnext q hq hhash.symm)
  · intro hfirsts
    refine ⟨⟨dedupQueries_ascending queries, dedupQueries_hashes queries, fun q hq b => ?_⟩,
      fun lookup id hall q hq => hall q (mem_of_mem_dedupQueries hq)⟩
    have hfirst := mem_dedupQueries.mp hq
    constructor
    · intro hnext q' hq' hhash
      rw [← hhash] at hfirst
      rcases hfirsts q' hq' q hfirst with hnone | hsame
      · rw [hnone] at hnext
        cases hnext
      · rw [hsame, hnext]
    · exact fun hall => hall q (mem_of_mem_dedupQueries hq) rfl

/-- Two queries of one trigram that expect different bytes: the first one stays as it is. -/
theorem simplify_keeps_first_byte :
    ¬ MergesNextBytes [⟨0x616263, some 100⟩, ⟨0x616263, some 101⟩]
      (simplify (.and [⟨0x616263, some 100⟩, ⟨0x616263, some 101⟩])).conjuncts := by
  intro hmerges
  rw [conjuncts_simplify] at hmerges
  have hstays : (⟨0x616263, some 100⟩ : TrigramQuery) ∈
      dedupQueries [⟨0x616263, some 100⟩, ⟨0x616263, some 101⟩] := by decide
  have hall := (hmerges.next _ hstays 100).mp rfl ⟨0x616263, some 101⟩ (by decide) rfl
  exact absurd hall (by decide)

end Tgrep
