import Tgrep.Data.Splice

/-!
# Spans of a list that are rewritten

Spans of a list, in order and apart, each with what stands for it. To rewrite the list is to copy
what is between the spans. Rewriting is local: a place that no span crosses cuts it into two, each
of which only needs its own spans. With each copied entry goes the index it was copied from, and
with each new one the start of its span.

## Main definitions

* `Rewrite.Edits`, `Rewrite.Within`: spans with what stands for them, in order in a range.
* `Rewrite.rewrite`: the list with the spans rewritten.
* `Rewrite.source`: the index that an index of the rewritten list stands for.
* `Rewrite.rewriteTraced`: the rewritten list, each entry with the index it stands for.

## Main results

* `Rewrite.rewrite_append`: rewriting is local.
* `Rewrite.map_snd_traced`: the indices that those of the rewritten list stand for.
* `Rewrite.rewriteTraced_eq`: the rewritten list with its indices.
-/

namespace Rewrite

open Splice List Function

variable {α β : Type*}

/-- Spans of a list, each with what stands for it. -/
abbrev Edits (α : Type*) := List (ℕ × ℕ × List α)

/-- The spans are in a range, in order and apart. They may be empty, and may touch. -/
structure Within (lo hi : ℕ) (edits : Edits α) : Prop where
  inside : ∀ edit ∈ edits, lo ≤ edit.1 ∧ edit.1 ≤ edit.2.1 ∧ edit.2.1 ≤ hi
  sorted : edits.Pairwise fun a b => a.2.1 ≤ b.1

/-- Copy a range of a list, with the spans rewritten. -/
def rewrite (l : List α) : ℕ → ℕ → Edits α → List α
  | pos, stop, [] => slice l pos stop
  | pos, stop, (s, e, new) :: edits => slice l pos s ++ new ++ rewrite l e stop edits

/-- The index that an index of the rewritten list stands for: the one it was copied from, or the
start of the span it was written for. -/
def source : ℕ → Edits α → ℕ → ℕ
  | pos, [], i => pos + i
  | pos, (s, e, new) :: edits, i =>
    if i < s - pos then pos + i
    else if i < s - pos + new.length then s
    else source e edits (i - (s - pos + new.length))

/-- What stands for each span, with the start of the span. -/
def trace (edits : Edits α) : Edits (α × ℕ) :=
  edits.map fun edit => (edit.1, edit.2.1, edit.2.2.map fun a => (a, edit.1))

/-- The rewritten list, each entry with the index it stands for. -/
def rewriteTraced (l : List α) (pos stop : ℕ) (edits : Edits α) : List (α × ℕ) :=
  rewrite l.zipIdx pos stop (trace edits)

/-! ## Spans in a range -/

variable {hi lo pos stop : ℕ} (l : List α) {edits : Edits α}

variable {e s mid : ℕ} (f : α → β) {new : List α} {edits' : Edits α}

lemma within_cons :
    Within lo hi ((s, e, new) :: edits) ↔ lo ≤ s ∧ s ≤ e ∧ e ≤ hi ∧ Within e hi edits := by
  constructor
  · rintro ⟨hinside, hsorted⟩
    obtain ⟨hfirst, hrest⟩ := forall_mem_cons.mp hinside
    obtain ⟨hbehind, hsorted⟩ := pairwise_cons.mp hsorted
    refine ⟨hfirst.1, hfirst.2.1, hfirst.2.2, fun edit hedit => ⟨hbehind edit hedit, ?_⟩, hsorted⟩
    exact (hrest edit hedit).2
  · rintro ⟨hlo, hse, hhi, hrest⟩
    refine ⟨forall_mem_cons.mpr ⟨⟨hlo, hse, hhi⟩, fun edit hedit => ?_⟩, ?_⟩
    · obtain ⟨hge, hrest⟩ := hrest.inside edit hedit
      exact ⟨hlo.trans (hse.trans hge), hrest⟩
    · exact pairwise_cons.mpr ⟨fun edit hedit => (hrest.inside edit hedit).1, hrest.sorted⟩

/-- Spans that follow others. -/
lemma Within.of_append (h : Within lo hi (edits ++ edits')) :
    Within lo hi edits ∧ Within lo hi edits' ∧ ∀ a ∈ edits, ∀ b ∈ edits', a.2.1 ≤ b.1 := by
  obtain ⟨hleft, hright, hcross⟩ := pairwise_append.mp h.sorted
  refine ⟨⟨fun edit hedit => h.inside edit (mem_append_left _ hedit), hleft⟩,
    ⟨fun edit hedit => h.inside edit (mem_append_right _ hedit), hright⟩, hcross⟩

/-- Spans are in any range that has each of them. -/
lemma Within.narrow {lo' hi' : ℕ} (h : Within lo hi edits)
    (hin : ∀ edit ∈ edits, lo' ≤ edit.1 ∧ edit.2.1 ≤ hi') : Within lo' hi' edits :=
  ⟨fun edit hedit => ⟨(hin edit hedit).1, (h.inside edit hedit).2.1, (hin edit hedit).2⟩, h.sorted⟩

lemma Within.trace (h : Within lo hi edits) : Within lo hi (Rewrite.trace edits) := by
  refine ⟨fun traced htraced => ?_, pairwise_map.mpr h.sorted⟩
  obtain ⟨edit, hedit, rfl⟩ := mem_map.mp htraced
  exact h.inside edit hedit

/-! ## Rewriting -/

/-- What is copied in front of the first span may be copied in two parts. -/
lemma rewrite_copy (hpos : pos ≤ mid) (h : Within mid stop edits) (hstop : mid ≤ stop) :
    slice l pos mid ++ rewrite l mid stop edits = rewrite l pos stop edits := by
  cases edits with
  | nil => exact slice_append_slice hpos hstop
  | cons edit edits =>
    obtain ⟨s, e, new⟩ := edit
    have hmid := (within_cons.mp h).1
    rw [rewrite, rewrite, ← append_assoc, ← append_assoc, slice_append_slice hpos hmid]

/-- **Rewriting is local.** -/
theorem rewrite_append (h : Within pos mid edits) (hpos : pos ≤ mid) (h' : Within mid stop edits')
    (hstop : mid ≤ stop) :
    rewrite l pos stop (edits ++ edits') =
      rewrite l pos mid edits ++ rewrite l mid stop edits' := by
  induction edits generalizing pos with
  | nil => exact (rewrite_copy l hpos h' hstop).symm
  | cons edit edits ih =>
    obtain ⟨s, e, new⟩ := edit
    obtain ⟨-, -, hmid, hrest⟩ := within_cons.mp h
    rw [cons_append, rewrite, rewrite, ih hrest hmid, append_assoc, append_assoc, append_assoc]

lemma slice_map (l : List α) (i j : ℕ) : slice (l.map f) i j = (slice l i j).map f := by
  rw [slice, slice, map_drop, map_take]

/-- To rewrite what a list is mapped to. -/
lemma rewrite_map (l : List α) (pos stop : ℕ) (edits : Edits α) :
    rewrite (l.map f) pos stop (edits.map fun edit => (edit.1, edit.2.1, edit.2.2.map f)) =
      (rewrite l pos stop edits).map f := by
  induction edits generalizing pos with
  | nil => exact slice_map f l pos stop
  | cons edit edits ih =>
    obtain ⟨s, e, new⟩ := edit
    rw [map_cons, rewrite, rewrite, ih, slice_map, map_append, map_append]

/-! ## Where entries come from -/

lemma map_fst_traced (pos stop : ℕ) (edits : Edits α) :
    (rewriteTraced l pos stop edits).map Prod.fst = rewrite l pos stop edits := by
  rw [rewriteTraced, ← rewrite_map, trace, map_map]
  congr 1
  · exact zipIdx_map_fst 0 l
  · refine (map_congr_left fun edit _ => ?_).trans (map_id edits)
    have hfst : (Prod.fst ∘ fun a : α => (a, edit.1)) = id := rfl
    simp only [comp_apply, map_map, hfst, map_id]
    rfl

lemma map_snd_slice {i j : ℕ} (hij : i ≤ j) (hj : j ≤ l.length) :
    (slice l.zipIdx i j).map Prod.snd = (List.range (j - i)).map (i + ·) := by
  rw [slice, map_drop, map_take, zipIdx_map_snd, range'_eq_map_range]
  rw [← map_take, ← map_drop, take_range, Nat.min_eq_left hj]
  have hsplit : j = i + (j - i) := by omega
  rw [hsplit, range_add, drop_append, length_range, Nat.sub_self, drop_zero,
    drop_eq_nil_of_le (length_range).le, nil_append, Nat.add_sub_cancel_left,
    map_map]
  refine map_congr_left fun k _ => ?_
  simp

lemma length_rewrite_cons (hpos : pos ≤ s) (hs : s ≤ l.length) :
    (rewrite l pos stop ((s, e, new) :: edits)).length =
      (s - pos + new.length) + (rewrite l e stop edits).length := by
  rw [rewrite, length_append, length_append, length_slice hpos hs]

/-- **The indices that those of the rewritten list stand for.**

**Proof sketch.** Induction on the spans. The rewritten list is what is copied in front of the first
span, what stands for it, and the rest, whose indices are those of the remaining spans. -/
theorem map_snd_traced (h : Within pos stop edits) (hpos : pos ≤ stop) (hstop : stop ≤ l.length) :
    (rewriteTraced l pos stop edits).map Prod.snd =
      (List.range (rewrite l pos stop edits).length).map (source pos edits) := by
  induction edits generalizing pos with
  | nil =>
    rw [rewriteTraced, trace, map_nil, rewrite, rewrite, map_snd_slice l hpos hstop,
      length_slice hpos hstop]
    rfl
  | cons edit edits ih =>
    obtain ⟨s, e, new⟩ := edit
    obtain ⟨hs, hse, he, hrest⟩ := within_cons.mp h
    have hlen : s ≤ l.length := hse.trans (he.trans hstop)
    have hih := ih hrest he
    rw [rewriteTraced] at hih
    rw [rewriteTraced, trace, map_cons, rewrite, map_append, map_append,
      map_snd_slice l hs hlen, length_rewrite_cons l hs hlen, range_add, range_add,
      map_append, map_append]
    congr 1
    · congr 1
      · refine map_congr_left fun i hi => ?_
        rw [source, if_pos (List.mem_range.mp hi)]
      · -- each entry that stands for the span has its start
        rw [map_map, map_map]
        refine ext_getElem (by simp) fun i hi hi' => ?_
        rw [length_map] at hi
        have hnot : ¬ s - pos + i < s - pos := by omega
        simp only [getElem_map, comp_apply, getElem_range, source]
        rw [if_neg hnot, if_pos (Nat.add_lt_add_left hi _)]
    · rw [map_map]
      refine hih.trans (map_congr_left fun i _ => ?_)
      have hnot : ¬ s - pos + new.length + i < s - pos := by omega
      have hnot' : ¬ s - pos + new.length + i < s - pos + new.length := by omega
      rw [comp_apply, source, if_neg hnot, if_neg hnot', Nat.add_sub_cancel_left]

/-- **The rewritten list with its indices.** -/
theorem rewriteTraced_eq (h : Within pos stop edits) (hpos : pos ≤ stop) (hstop : stop ≤ l.length) :
    rewriteTraced l pos stop edits =
      (rewrite l pos stop edits).zip
        ((List.range (rewrite l pos stop edits).length).map (source pos edits)) :=
  zip_of_prod (map_fst_traced l pos stop edits) (map_snd_traced l h hpos hstop)

end Rewrite
