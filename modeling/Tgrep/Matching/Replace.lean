import Tgrep.Data.Rewrite
import Tgrep.Matching.Lines

/-!
# Blocks of lines that are replaced

Where a match may cover more than one line, what replaces it may add and remove lines. So the lines
that matches touch are put together into blocks, and each block is rewritten as one text. A row of
the text is reported with the offset of the source that it stands for, which a cursor computes while
it walks the text.

## Main definitions

* `ReplaceBlock.build`: the blocks of matches, and their texts.
* `SourceCursor.atPos`: the offset of the source that an offset of the text of a block stands for.
* `ReplaceBlock.assemble`: the content outside of blocks, with something for each block.

## Main results

* `ReplaceBlock.build_apart`: blocks are in order and apart.
* `SourceCursor.visit_eq`: what the cursor computes at offsets that ascend.
* `ReplaceBlock.assemble_build`: blocks are as good as replacing all matches in the whole content.
* `ReplaceBlock.build_replaces`: all of it together.

## Implementation notes

A text is a list of bytes, and an offset is a natural number. That the ranges of matches begin and end
with characters is not modelled: the code would fail to slice its text elsewhere. The cursor keeps the
replacements that are still in front of it, where the code keeps the index of the first one.
-/

namespace Tgrep

open Splice LineIndex Rewrite List

/-- The range of a match and its expanded replacement. -/
abbrev Expansion := ℕ × ℕ × List UInt8

/-- A match in a block: where it is in the source, and where its replacement is in the text of the
block. -/
structure Placed where
  src : ℕ × ℕ
  dst : ℕ × ℕ
  deriving DecidableEq

/-- How many bytes the replacement added to the text. -/
def Placed.delta (placed : Placed) : ℤ :=
  ((placed.dst.2 - placed.dst.1 : ℕ) : ℤ) - ((placed.src.2 - placed.src.1 : ℕ) : ℤ)

/-- Whole lines that are rewritten as a unit: the first and the last one, where the first one starts,
and the text with every match replaced. -/
structure ReplaceBlock where
  first : ℕ
  last : ℕ
  start : ℕ
  text : List UInt8
  reps : List Placed
  deriving DecidableEq

namespace ReplaceBlock

/-- Matches whose lines touch, and the first and the last of the lines. -/
structure Group where
  first : ℕ
  last : ℕ
  members : List Expansion

/-- The last line of a match. An empty one is on the line it starts on. -/
def lastLine (content : List UInt8) (rep : Expansion) : ℕ :=
  if rep.1 < rep.2.1 then lineOf content (rep.2.1 - 1) else lineOf content rep.1

/-- Put a match to the last group, if it starts there or on the line behind. -/
def addToGroups (content : List UInt8) (groups : List Group) (rep : Expansion) : List Group :=
  let first := lineOf content rep.1
  let last := lastLine content rep
  match groups.getLast? with
  | some group =>
    if first ≤ group.last + 1 then
      groups.dropLast ++
        [{ group with last := max group.last last, members := group.members ++ [rep] }]
    else groups ++ [⟨first, last, [rep]⟩]
  | none => groups ++ [⟨first, last, [rep]⟩]

/-- A text that is being written: what it has, and how much of the source went into it. -/
structure Copying where
  text : List UInt8
  reps : List Placed
  pos : ℕ

/-- Copy what is in front of a match, and write its replacement. -/
def Copying.push (content : List UInt8) (c : Copying) (rep : Expansion) : Copying :=
  let text := c.text ++ slice content c.pos rep.1
  let start := text.length
  let text := text ++ rep.2.2
  ⟨text, c.reps ++ [⟨(rep.1, rep.2.1), (start, text.length)⟩], rep.2.1⟩

/-- Rewrite the lines of a group. -/
def ofGroup (content : List UInt8) (group : Group) : ReplaceBlock :=
  let start := lineStart content group.first
  let stop := lineStart content (group.last + 1)
  let c := group.members.foldl (Copying.push content) ⟨[], [], start⟩
  ⟨group.first, group.last, start, c.text ++ slice content c.pos stop, c.reps⟩

/-- Group matches into blocks and rewrite each one. -/
def build (content : List UInt8) (reps : List Expansion) : List ReplaceBlock :=
  (reps.foldl (addToGroups content) []).map (ofGroup content)

end ReplaceBlock

/-- Where a walk of the text of a block is: where the block starts, the replacements that are still in
front, and what those behind have added to the text. -/
structure SourceCursor where
  start : ℕ
  rest : List Placed
  shift : ℤ

namespace SourceCursor

def new (block : ReplaceBlock) : SourceCursor := ⟨block.start, block.reps, 0⟩

/-- Add a difference, but not below zero. -/
def saturatingAddSigned (n : ℕ) (d : ℤ) : ℕ := ((n : ℤ) + d).toNat

/-- Go over the replacements that end in front of an offset. -/
def advance (start pos : ℕ) : List Placed → ℤ → ℕ × SourceCursor
  | [], shift => (saturatingAddSigned (start + pos) (-shift), ⟨start, [], shift⟩)
  | rep :: rest, shift =>
    if rep.dst.1 ≤ pos ∧ pos < rep.dst.2 then (rep.src.1, ⟨start, rep :: rest, shift⟩)
    else if pos < rep.dst.2 then
      (saturatingAddSigned (start + pos) (-shift), ⟨start, rep :: rest, shift⟩)
    else advance start pos rest (shift + rep.delta)

/-- The offset of the source that an offset of the text stands for. -/
def atPos (cursor : SourceCursor) (pos : ℕ) : ℕ × SourceCursor :=
  advance cursor.start pos cursor.rest cursor.shift

/-- Visit offsets one after another. -/
def visit (cursor : SourceCursor) : List ℕ → List ℕ
  | [] => []
  | pos :: rest => (cursor.atPos pos).1 :: (cursor.atPos pos).2.visit rest

end SourceCursor

namespace ReplaceBlock

/-- The content outside of blocks, with something for each block in its place. -/
def assemble {β : Type*} (content : List UInt8) (l : List β) (put : ReplaceBlock → List β) :
    ℕ → List ReplaceBlock → List β
  | pos, [] => slice l pos content.length
  | pos, block :: blocks =>
    slice l pos (lineStart content block.first) ++ put block ++
      assemble content l put (lineStart content (block.last + 1)) blocks

/-- The text of a block, each byte with what the cursor says of its offset. -/
def traced (block : ReplaceBlock) : List (UInt8 × ℕ) :=
  block.text.zip ((SourceCursor.new block).visit (List.range block.text.length))

variable {content : List UInt8}

/-! ## Groups -/

/-- What a group is: its lines are those of its members, from the first of one to the last of
another. -/
structure Group.Of (content : List UInt8) (group : Group) : Prop where
  lines : ∀ rep ∈ group.members,
    group.first ≤ lineOf content rep.1 ∧ lastLine content rep ≤ group.last
  first_eq : ∃ rep ∈ group.members, group.first = lineOf content rep.1
  last_eq : ∃ rep ∈ group.members, group.last = lastLine content rep

/-- What holds of groups after some matches. -/
structure Grouped (content : List UInt8) (reps : List Expansion) (groups : List Group) : Prop where
  members : groups.flatMap Group.members = reps
  apart : groups.Pairwise fun a b => a.last + 1 < b.first
  each : ∀ group ∈ groups, group.Of content

variable {rep : Expansion} {reps : List Expansion} {group : Group}

lemma lineOf_le_lastLine : lineOf content rep.1 ≤ lastLine content rep := by
  rw [lastLine]
  split_ifs with hlt
  · exact lineOf_mono (Nat.le_sub_one_of_lt hlt)
  · exact le_rfl

lemma Group.Of.first_le (h : group.Of content) : group.first ≤ group.last := by
  obtain ⟨rep, hrep, hfirst⟩ := h.first_eq
  exact hfirst.le.trans (lineOf_le_lastLine.trans (h.lines rep hrep).2)

lemma Group.of_singleton (content : List UInt8) (rep : Expansion) :
    Group.Of content ⟨lineOf content rep.1, lastLine content rep, [rep]⟩ := by
  refine ⟨fun other hother => ?_, ⟨rep, mem_singleton_self rep, rfl⟩,
    ⟨rep, mem_singleton_self rep, rfl⟩⟩
  obtain rfl := mem_singleton.mp hother
  exact ⟨le_rfl, le_rfl⟩

/-- A match that does not start in front of a group may be put to it. -/
lemma Group.Of.push (h : group.Of content) (hrep : group.first ≤ lineOf content rep.1) :
    Group.Of content { group with
      last := max group.last (lastLine content rep), members := group.members ++ [rep] } := by
  obtain ⟨first, hfirst, hfirstEq⟩ := h.first_eq
  obtain ⟨last, hlast, hlastEq⟩ := h.last_eq
  refine ⟨fun other hother => ?_, ⟨first, mem_append_left _ hfirst, hfirstEq⟩, ?_⟩
  · rcases mem_append.mp hother with hother | hother
    · exact ⟨(h.lines other hother).1, le_max_of_le_left (h.lines other hother).2⟩
    · obtain rfl := mem_singleton.mp hother
      exact ⟨hrep, le_max_right _ _⟩
  · rcases le_total group.last (lastLine content rep) with hle | hle
    · exact ⟨rep, mem_append_right _ (mem_singleton_self rep), max_eq_right hle⟩
    · exact ⟨last, mem_append_left _ hlast, (max_eq_left hle).trans hlastEq⟩

/-- **One more match**, which is behind the others. -/
theorem Grouped.add {groups : List Group} (h : Grouped content reps groups)
    (hrep : ∀ other ∈ reps, other.1 ≤ rep.1) :
    Grouped content (reps ++ [rep]) (addToGroups content groups rep) := by
  -- no group starts behind the match
  have hfirst : ∀ group ∈ groups, group.first ≤ lineOf content rep.1 := by
    intro group hgroup
    obtain ⟨other, hother, heq⟩ := (h.each group hgroup).first_eq
    have hmem : other ∈ reps := h.members ▸ mem_flatMap.mpr ⟨group, hgroup, hother⟩
    exact heq.le.trans (lineOf_mono (hrep other hmem))
  rw [addToGroups]
  rcases eq_nil_or_concat groups with rfl | ⟨init, group, rfl⟩
  · refine ⟨?_, pairwise_singleton _ _, fun group hgroup => ?_⟩
    · rw [← h.members]
      rfl
    · obtain rfl := mem_singleton.mp hgroup
      exact Group.of_singleton content rep
  · rw [concat_eq_append] at h hfirst ⊢
    rw [getLast?_concat, dropLast_concat]
    dsimp only
    obtain ⟨hinit, -, hlast⟩ := pairwise_append.mp h.apart
    have hgroup : group ∈ init ++ [group] := mem_append_right _ (mem_singleton_self group)
    split_ifs with htouch
    · refine ⟨?_, pairwise_append.mpr ⟨hinit, pairwise_singleton _ _, ?_⟩, ?_⟩
      · rw [← h.members, flatMap_append, flatMap_append, append_assoc]
        simp only [flatMap_singleton]
      · intro a ha b hb
        obtain rfl := mem_singleton.mp hb
        exact hlast a ha group (mem_singleton_self group)
      · intro other hother
        rcases mem_append.mp hother with hother | hother
        · exact h.each other (mem_append_left _ hother)
        · obtain rfl := mem_singleton.mp hother
          exact (h.each group hgroup).push (hfirst group hgroup)
    · refine ⟨?_, pairwise_append.mpr ⟨h.apart, pairwise_singleton _ _, ?_⟩, ?_⟩
      · rw [flatMap_append, h.members, flatMap_singleton]
      · intro a ha b hb
        obtain rfl := mem_singleton.mp hb
        have hle : a.last ≤ group.last := by
          rcases mem_append.mp ha with ha | ha
          · have hlt := hlast a ha group (mem_singleton_self group)
            have hge := (h.each group hgroup).first_le
            omega
          · exact (congrArg Group.last (mem_singleton.mp ha)).le
        dsimp only
        omega
      · intro other hother
        rcases mem_append.mp hother with hother | hother
        · exact h.each other hother
        · obtain rfl := mem_singleton.mp hother
          exact Group.of_singleton content rep

/-- **The groups of matches in order.** -/
theorem grouped_foldl {lo hi : ℕ} (h : Within lo hi reps) :
    Grouped content reps (reps.foldl (addToGroups content) []) := by
  induction reps using reverseRecOn with
  | nil => exact ⟨rfl, List.Pairwise.nil, fun _ hgroup => absurd hgroup not_mem_nil⟩
  | append_singleton reps rep ih =>
    obtain ⟨hreps, -, hbehind⟩ := h.of_append
    rw [foldl_append]
    refine (ih hreps).add fun other hother => ?_
    exact (hreps.inside other hother).2.1.trans (hbehind other hother rep (mem_singleton_self rep))

/-! ## The text of a block -/

/-- Where replacements are in a text, from an offset of the text and one of the source on. -/
def placed : ℕ → ℕ → List Expansion → List Placed
  | _, _, [] => []
  | i, pos, (s, e, new) :: reps =>
    ⟨(s, e), (i + (s - pos), i + (s - pos) + new.length)⟩ ::
      placed (i + (s - pos) + new.length) e reps

/-- What copying adds. -/
lemma foldl_push {stop : ℕ} (c : Copying) (h : Within c.pos stop reps)
    (hstop : stop ≤ content.length) :
    (reps.foldl (Copying.push content) c).text ++
          slice content (reps.foldl (Copying.push content) c).pos stop =
        c.text ++ rewrite content c.pos stop reps ∧
      (reps.foldl (Copying.push content) c).reps = c.reps ++ placed c.text.length c.pos reps := by
  induction reps generalizing c with
  | nil => exact ⟨rfl, (append_nil _).symm⟩
  | cons rep reps ih =>
    obtain ⟨s, e, new⟩ := rep
    obtain ⟨hs, hse, he, hrest⟩ := within_cons.mp h
    obtain ⟨htext, hreps⟩ := ih (c.push content (s, e, new)) hrest
    have hlen : (slice content c.pos s).length = s - c.pos :=
      length_slice hs (hse.trans (he.trans hstop))
    rw [foldl_cons]
    constructor
    · rw [htext, rewrite]
      simp only [Copying.push, append_assoc]
    · rw [hreps, placed]
      simp only [Copying.push, length_append, hlen, append_assoc, singleton_append, add_assoc]

/-- The range of the lines of a group has its members. -/
lemma Group.Of.within (h : group.Of content) (hin : Within 0 content.length group.members) :
    Within (lineStart content group.first) (lineStart content (group.last + 1)) group.members := by
  refine hin.narrow fun rep hrep => ?_
  obtain ⟨-, hse, hlen⟩ := hin.inside rep hrep
  obtain ⟨hfirst, hlast⟩ := h.lines rep hrep
  refine ⟨(lineStart_mono hfirst).trans (lineStart_lineOf_le (hse.trans hlen)), ?_⟩
  refine le_trans ?_ (lineStart_mono (Nat.add_le_add_right hlast 1))
  rw [lastLine]
  split_ifs with hlt
  · have hnext := @lt_lineStart_succ content (rep.2.1 - 1) (by omega)
    omega
  · obtain heq : rep.1 = rep.2.1 := by omega
    rw [← heq] at hlen ⊢
    exact le_lineStart_succ hlen

/-- **The text of a block** is its lines, rewritten. -/
theorem ofGroup_eq (h : group.Of content) (hin : Within 0 content.length group.members) :
    ofGroup content group =
      ⟨group.first, group.last, lineStart content group.first,
        rewrite content (lineStart content group.first) (lineStart content (group.last + 1))
          group.members,
        placed 0 (lineStart content group.first) group.members⟩ := by
  have hcopy := foldl_push ⟨[], [], lineStart content group.first⟩ (h.within hin)
    (lineStart_le content _)
  rw [ofGroup, hcopy.1, hcopy.2]
  rfl

end ReplaceBlock

/-! ## The cursor -/

namespace SourceCursor

open ReplaceBlock

variable {content : List UInt8}

/-- What the cursor knows between two visits: it is at an offset of the text and at one of the source,
and has the replacements from there on. -/
structure Stands (cursor : SourceCursor) (i pos stop : ℕ) (reps : List Expansion) : Prop where
  rest : cursor.rest = placed i pos reps
  shift : (cursor.start : ℤ) + i - cursor.shift = pos
  within : Within pos stop reps

/-- **One visit.** The cursor computes the offset of the source, and stands where every later offset
means the same as before.

**Proof sketch.** Induction on the replacements. A replacement that ends in front of the offset is
passed, and the cursor then stands at its end in both texts. -/
theorem advance_eq {start pos stop i k : ℕ} {reps : List Expansion} {shift : ℤ}
    (h : Stands ⟨start, placed i pos reps, shift⟩ i pos stop reps) (hk : i ≤ k) :
    (advance start k (placed i pos reps) shift).1 = source pos reps (k - i) ∧
      ∃ i' pos' reps', Stands (advance start k (placed i pos reps) shift).2 i' pos' stop reps' ∧
        i' ≤ k ∧ ∀ j, k ≤ j → source pos' reps' (j - i') = source pos reps (j - i) := by
  induction reps generalizing i pos shift with
  | nil =>
    have hshift := h.shift
    dsimp only at hshift
    refine ⟨?_, i, pos, [], h, hk, fun _ _ => rfl⟩
    rw [placed, advance, source, saturatingAddSigned]
    omega
  | cons rep reps ih =>
    obtain ⟨s, e, new⟩ := rep
    have hshift := h.shift
    obtain ⟨hs, hse, he, hrest⟩ := within_cons.mp h.within
    dsimp only at hshift
    rw [placed, advance]
    dsimp only
    split_ifs with hinside hfront
    · refine ⟨?_, i, pos, (s, e, new) :: reps, h, hk, fun _ _ => rfl⟩
      rw [source, if_neg (by omega), if_pos (by omega)]
    · refine ⟨?_, i, pos, (s, e, new) :: reps, h, hk, fun _ _ => rfl⟩
      rw [source, if_pos (by omega), saturatingAddSigned]
      omega
    · -- the replacement is behind
      have hpassed : ∀ j, k ≤ j → source pos ((s, e, new) :: reps) (j - i) =
          source e reps (j - (i + (s - pos) + new.length)) := by
        intro j hj
        rw [source, if_neg (by omega), if_neg (by omega)]
        congr 1
        omega
      have hstands : Stands ⟨start, placed (i + (s - pos) + new.length) e reps,
          shift + Placed.delta ⟨(s, e), (i + (s - pos), i + (s - pos) + new.length)⟩⟩
          (i + (s - pos) + new.length) e stop reps := by
        refine ⟨rfl, ?_, hrest⟩
        rw [Placed.delta]
        dsimp only
        omega
      obtain ⟨hat, i', pos', reps', hnext, hi', hlater⟩ := ih hstands (by omega)
      refine ⟨hat.trans (hpassed k le_rfl).symm, i', pos', reps', hnext, hi', fun j hj => ?_⟩
      exact (hlater j hj).trans (hpassed j hj).symm

/-- **A walk**: offsets that ascend are mapped to those of the source. -/
theorem visit_stands {cursor : SourceCursor} {i pos stop : ℕ} {reps : List Expansion}
    (h : Stands cursor i pos stop reps) {offsets : List ℕ} (hfront : ∀ k ∈ offsets, i ≤ k)
    (hasc : offsets.Pairwise (· ≤ ·)) :
    cursor.visit offsets = offsets.map fun k => source pos reps (k - i) := by
  induction offsets generalizing cursor i pos reps with
  | nil => rfl
  | cons k offsets ih =>
    obtain ⟨hbehind, hasc⟩ := pairwise_cons.mp hasc
    obtain ⟨start, rest, shift⟩ := cursor
    obtain rfl := h.rest
    obtain ⟨hat, i', pos', reps', hnext, hi', hlater⟩ :=
      advance_eq h (hfront k mem_cons_self)
    rw [visit, map_cons, atPos]
    refine cons_eq_cons.mpr ⟨hat, ?_⟩
    refine (ih hnext (fun j hj => hi'.trans (hbehind j hj)) hasc).trans ?_
    exact map_congr_left fun j hj => hlater j (hbehind j hj)

/-- **A walk of a block**: the cursor need not start anew for each offset. -/
theorem visit_eq {group : Group} (h : group.Of content)
    (hin : Within 0 content.length group.members) {offsets : List ℕ}
    (hasc : offsets.Pairwise (· ≤ ·)) :
    (new (ofGroup content group)).visit offsets =
      offsets.map (source (lineStart content group.first) group.members) := by
  have hstands : Stands (new (ofGroup content group)) 0 (lineStart content group.first)
      (lineStart content (group.last + 1)) group.members := by
    rw [ofGroup_eq h hin]
    exact ⟨rfl, by rw [new]; simp, h.within hin⟩
  exact visit_stands hstands (fun k _ => Nat.zero_le k) hasc

end SourceCursor

/-! ## All blocks -/

namespace ReplaceBlock

variable {content : List UInt8}

lemma traced_ofGroup {group : Group} (h : group.Of content)
    (hin : Within 0 content.length group.members) :
    (ofGroup content group).traced =
      rewriteTraced content (lineStart content group.first) (lineStart content (group.last + 1))
        group.members := by
  have hle := @lineStart_mono content _ _ (Nat.le_succ_of_le h.first_le)
  rw [rewriteTraced_eq content (h.within hin) hle (lineStart_le content _), traced,
    SourceCursor.visit_eq h hin (pairwise_lt_range.imp le_of_lt), ofGroup_eq h hin]

/-- **Blocks that are put together.**

**Proof sketch.** Induction on the groups. Rewriting is local, and the end of a block is a place that
no match crosses. -/
theorem assemble_groups {β : Type*} (l : List β) (put : ReplaceBlock → List β)
    (edits : Group → Edits β) {groups : List Group}
    (hput : ∀ group ∈ groups, put (ofGroup content group) =
      rewrite l (lineStart content group.first) (lineStart content (group.last + 1)) (edits group))
    (hlines : ∀ group ∈ groups, group.first ≤ group.last ∧ ∀ edit ∈ edits group,
      lineStart content group.first ≤ edit.1 ∧ edit.2.1 ≤ lineStart content (group.last + 1))
    (hapart : groups.Pairwise fun a b => a.last + 1 < b.first)
    (hin : Within 0 content.length (groups.flatMap edits)) {pos : ℕ} (hpos : pos ≤ content.length)
    (hfront : ∀ group ∈ groups, pos ≤ lineStart content group.first) :
    assemble content l put pos (groups.map (ofGroup content)) =
      rewrite l pos content.length (groups.flatMap edits) := by
  induction groups generalizing pos with
  | nil => rfl
  | cons group groups ih =>
    obtain ⟨hputHere, hputRest⟩ := List.forall_mem_cons.mp hput
    obtain ⟨⟨hle, hlinesHere⟩, hlinesRest⟩ := List.forall_mem_cons.mp hlines
    obtain ⟨hapartHere, hapartRest⟩ := List.pairwise_cons.mp hapart
    rw [flatMap_cons] at hin ⊢
    obtain ⟨hinHere, hinRest, -⟩ := hin.of_append
    set a := lineStart content group.first
    set b := lineStart content (group.last + 1) with hb
    have hab : a ≤ b := lineStart_mono (Nat.le_succ_of_le hle)
    have hbehind : ∀ other ∈ groups, b ≤ lineStart content other.first := fun other hother =>
      lineStart_mono (hapartHere other hother).le
    have hrest : Within b content.length (groups.flatMap edits) := by
      refine hinRest.narrow fun edit hedit => ⟨?_, (hinRest.inside edit hedit).2.2⟩
      obtain ⟨other, hother, hedit⟩ := List.mem_flatMap.mp hedit
      exact (hbehind other hother).trans ((hlinesRest other hother).2 edit hedit).1
    have hall : Within a content.length (edits group ++ groups.flatMap edits) := by
      refine hin.narrow fun edit hedit => ⟨?_, (hin.inside edit hedit).2.2⟩
      rcases List.mem_append.mp hedit with hedit | hedit
      · exact (hlinesHere edit hedit).1
      · exact hab.trans (hrest.inside edit hedit).1
    rw [map_cons, assemble]
    have hfirst : (ofGroup content group).first = group.first := rfl
    have hlast : (ofGroup content group).last = group.last := rfl
    rw [hfirst, hlast, hputHere, ← hb,
      ih hputRest hlinesRest hapartRest hinRest (lineStart_le content _) hbehind,
      append_assoc, ← rewrite_append l (hinHere.narrow hlinesHere) hab hrest
        (lineStart_le content _)]
    exact rewrite_copy l (hfront group mem_cons_self) hall (lineStart_le content _)

end ReplaceBlock

/-- A content with all matches replaced. -/
def replaceAll (content : List UInt8) (reps : List Expansion) : List UInt8 :=
  rewrite content 0 content.length reps

/-- A content with all matches replaced, and each byte with where it comes from: where it was copied
from, or the start of the match that it was written for. -/
def replaceAllTraced (content : List UInt8) (reps : List Expansion) : List (UInt8 × ℕ) :=
  rewriteTraced content 0 content.length reps

namespace ReplaceBlock

variable {content : List UInt8} {reps : List Expansion}

variable (h : Within 0 content.length reps)

include h

/-- What blocks are made of. -/
lemma build_eq :
    ∃ groups, build content reps = groups.map (ofGroup content) ∧ Grouped content reps groups ∧
      ∀ group ∈ groups, Within 0 content.length group.members := by
  have hgroups : Grouped content reps _ := grouped_foldl h
  refine ⟨_, rfl, hgroups, fun group hgroup => ⟨fun rep hrep => ?_, ?_⟩⟩
  · have hmem : rep ∈ reps := by
      rw [← hgroups.members]
      exact mem_flatMap.mpr ⟨group, hgroup, hrep⟩
    exact h.inside rep hmem
  · have hsorted := h.sorted
    rw [← hgroups.members] at hsorted
    obtain ⟨front, behind, hsplit⟩ := append_of_mem hgroup
    rw [hsplit, flatMap_append, flatMap_cons] at hsorted
    exact (pairwise_append.mp (pairwise_append.mp hsorted).2.1).1

/-- **Blocks are in order and apart.** -/
theorem build_apart : ((build content reps).Pairwise fun a b => a.last + 1 < b.first) ∧
      ∀ block ∈ build content reps, block.first ≤ block.last := by
  obtain ⟨groups, heq, hgroups, -⟩ := build_eq h
  rw [heq]
  refine ⟨pairwise_map.mpr hgroups.apart, fun block hblock => ?_⟩
  obtain ⟨group, hgroup, rfl⟩ := mem_map.mp hblock
  exact (hgroups.each group hgroup).first_le

/-- The lines of blocks are lines of the content. -/
lemma last_lt_of_mem_build (hne : content ≠ []) {block : ReplaceBlock}
    (hblock : block ∈ build content reps) : block.last < lineCount content := by
  obtain ⟨groups, heq, hgroups, -⟩ := build_eq h
  rw [heq] at hblock
  obtain ⟨group, hgroup, rfl⟩ := mem_map.mp hblock
  obtain ⟨rep, -, hlast⟩ := (hgroups.each group hgroup).last_eq
  refine lt_of_eq_of_lt hlast ?_
  rw [lastLine]
  split_ifs
  · exact lineOf_lt hne _
  · exact lineOf_lt hne _

/-- **Blocks are as good as replacing all matches.** -/
theorem assemble_build :
    assemble content content text 0 (build content reps) = replaceAll content reps ∧
      assemble content content.zipIdx traced 0 (build content reps) =
        replaceAllTraced content reps := by
  obtain ⟨groups, heq, hgroups, hin⟩ := build_eq h
  have hwithin : ∀ group ∈ groups, Within (lineStart content group.first)
      (lineStart content (group.last + 1)) group.members := fun group hgroup =>
    (hgroups.each group hgroup).within (hin group hgroup)
  rw [heq, replaceAll, replaceAllTraced, rewriteTraced]
  constructor
  · have hall : assemble content content text 0 (groups.map (ofGroup content)) = _ :=
      assemble_groups content text Group.members
      (fun group hgroup => by rw [ofGroup_eq (hgroups.each group hgroup) (hin group hgroup)])
      (fun group hgroup => ⟨(hgroups.each group hgroup).first_le, fun edit hedit =>
        ⟨((hwithin group hgroup).inside edit hedit).1, ((hwithin group hgroup).inside edit hedit).2.2⟩⟩)
      hgroups.apart (hgroups.members.symm ▸ h) (Nat.zero_le _) fun _ _ => Nat.zero_le _
    rw [hall, hgroups.members]
  · have hmembers : groups.flatMap (fun group => trace group.members) = trace reps := by
      rw [← hgroups.members, trace, map_flatMap]
      rfl
    have hall : assemble content content.zipIdx traced 0 (groups.map (ofGroup content)) = _ :=
      assemble_groups content.zipIdx traced (fun group => trace group.members)
      (fun group hgroup => traced_ofGroup (hgroups.each group hgroup) (hin group hgroup))
      (fun group hgroup => ⟨(hgroups.each group hgroup).first_le, fun edit hedit =>
        ⟨((hwithin group hgroup).trace.inside edit hedit).1,
          ((hwithin group hgroup).trace.inside edit hedit).2.2⟩⟩)
      hgroups.apart (hmembers.symm ▸ h.trace) (Nat.zero_le _) fun _ _ => Nat.zero_le _
    rw [hall, hmembers]

/-- The cursor computes at offsets that ascend what it computes at each of them alone. -/
lemma visit_build {block : ReplaceBlock}
    (hblock : block ∈ build content reps) {offsets : List ℕ} (hasc : offsets.Pairwise (· ≤ ·)) :
    (SourceCursor.new block).visit offsets =
      offsets.map fun k => ((SourceCursor.new block).atPos k).1 := by
  obtain ⟨groups, heq, hgroups, hin⟩ := build_eq h
  rw [heq] at hblock
  obtain ⟨group, hgroup, rfl⟩ := mem_map.mp hblock
  rw [SourceCursor.visit_eq (hgroups.each group hgroup) (hin group hgroup) hasc]
  refine map_congr_left fun k _ => ?_
  have hone := @SourceCursor.visit_eq content group (hgroups.each group hgroup) (hin group hgroup)
    [k] (pairwise_singleton _ _)
  exact (cons_eq_cons.mp hone).1.symm

omit h

/-- **Blocks replace every match.** For matches in order and apart, with any replacements: the blocks
are in order, with a line at least between two of them; the content outside of them with their texts
is the content with all matches replaced; and what the cursor says of each byte of the texts, visited
in order, is the byte that it was copied from, or the start of the match that it was written for.

**Proof sketch.** The groups keep the matches in order, and a match that starts behind the line
behind a group begins another, so no match crosses the end of a group. Rewriting is local there. The
cursor stands at the end of the replacements that are behind, in the text and in the source. -/
theorem build_replaces (h : Within 0 content.length reps) :
    (((build content reps).Pairwise fun a b => a.last + 1 < b.first) ∧
        ∀ block ∈ build content reps, block.first ≤ block.last) ∧
      assemble content content text 0 (build content reps) = replaceAll content reps ∧
      assemble content content.zipIdx traced 0 (build content reps) =
        replaceAllTraced content reps ∧
      ∀ block ∈ build content reps, ∀ offsets : List ℕ, offsets.Pairwise (· ≤ ·) →
        (SourceCursor.new block).visit offsets =
          offsets.map fun k => ((SourceCursor.new block).atPos k).1 :=
  ⟨build_apart h, (assemble_build h).1, (assemble_build h).2, fun _ hblock _ hasc =>
    visit_build h hblock hasc⟩

/-- Three lines, of which the first gets another one and the last loses its text. -/
theorem build_replaces_lines :
    (build [97, 10, 98, 10, 99] [(0, 1, [120, 10, 121]), (4, 5, [])]).length = 2 ∧
      assemble [97, 10, 98, 10, 99] [97, 10, 98, 10, 99] text 0
          (build [97, 10, 98, 10, 99] [(0, 1, [120, 10, 121]), (4, 5, [])]) =
        [120, 10, 121, 10, 98, 10] ∧
      assemble [97, 10, 98, 10, 99] (List.zipIdx [97, 10, 98, 10, 99]) traced 0
          (build [97, 10, 98, 10, 99] [(0, 1, [120, 10, 121]), (4, 5, [])]) =
        [(120, 0), (10, 0), (121, 0), (10, 1), (98, 2), (10, 3)] := by
  have h : Within 0 ([97, 10, 98, 10, 99] : List UInt8).length
      [(0, 1, ([120, 10, 121] : List UInt8)), (4, 5, [])] := ⟨by decide, by decide⟩
  obtain ⟨-, htext, htraced, -⟩ := build_replaces h
  exact ⟨by decide, htext.trans (by decide), htraced.trans (by decide)⟩

end ReplaceBlock

end Tgrep
