import Tgrep.Matching.Emit

/-!
# Each line once

What is printed of a file, taken apart: each item is a line that matches, a line around one, or a
block, and the items cover the lines that are asked for, in order.

## Main definitions

* `Item`: a line that matches, one around, or a block.
* `FileMatches.targets`: the lines that match, or that blocks cover.
* `FileMatches.Shown`: the lines that are asked for.
* `FileMatches.Fits`: the windows that the code computes without leaving the machine word.
* `FileMatches.Items`: the items of what is printed.

## Main results

* `FileMatches.windowBlocks_items`: the loop over lines, with blocks in place of theirs.
* `FileMatches.forEach_items`: what is printed is made of items.
* `FileMatches.Items.covers`: nothing that should be printed is missing.
* `FileMatches.rows_of`: the rows of an item.

## Implementation notes

The loops for a whole file, for blocks alone and for windows are all the loop over the lines that are
asked for.
-/

namespace Tgrep

open Splice LineIndex List Ascending

/-- What is printed for a line or for some lines. -/
inductive Item
  | context (li : ℕ)
  | hit (hit : LineHit)
  | block (block : ReplaceBlock)

namespace Item

/-- The first and the last line of an item. -/
def first : Item → ℕ
  | .context li => li
  | .hit h => h.idx
  | .block b => b.first

def last : Item → ℕ
  | .context li => li
  | .hit h => h.idx
  | .block b => b.last

/-- The lines of an item. -/
def lines (item : Item) : List ℕ := List.range' item.first (item.last + 1 - item.first)

/-- The rows of an item. -/
def rows (found : FileMatches) (opts : PrintOptions)
    (expansions : List UInt8 → List UInt8 → Except String (List Expansion)) :
    Item → List (Except String Emit)
  | .context li => [.ok (found.contextLine li)]
  | .hit h => found.emitHit opts expansions h
  | .block b => (emitBlock b opts).map Except.ok

@[simp] lemma lines_context (li : ℕ) : (context li).lines = [li] := by
  simp [lines, first, last]

@[simp] lemma lines_hit (h : LineHit) : (hit h).lines = [h.idx] := by
  simp [lines, first, last]

@[simp] lemma lines_block (b : ReplaceBlock) : (block b).lines = FileMatches.blockLines b := rfl

end Item

namespace FileMatches

variable (found : FileMatches) (opts : PrintOptions)
  (expansions : List UInt8 → List UInt8 → Except String (List Expansion))

/-- The lines that match, or that blocks cover. -/
def targets : List ℕ :=
  if found.blocks ≠ [] then found.blocks.flatMap blockLines else found.hits.map LineHit.idx

/-- The lines that are asked for: all of them, or those within a distance of one that matches. -/
def Shown (i : ℕ) : Prop :=
  opts.passthru = true ∨
    ∃ t ∈ found.targets, t ≤ i + opts.beforeContext ∧ i ≤ t + opts.afterContext

instance (i : ℕ) : Decidable (found.Shown opts i) := by
  rw [Shown]
  infer_instance

/-- The lines that are asked for, in order. -/
def shownLines : List ℕ :=
  (List.range (lineCount found.content)).filter fun i => decide (found.Shown opts i)

/-- The end of the first window fits a machine word, where there are windows. -/
def Fits : Prop :=
  opts.passthru = true ∨ (opts.beforeContext = 0 ∧ opts.afterContext = 0) ∨
    ∀ t ∈ found.targets.head?, t + opts.afterContext + 1 < usizeRange

/-- An item is what it should be: a line is a context line exactly if it does not match, and the other
items are the matches, or the blocks if there are any. -/
def Right : Item → Prop
  | .context li => li ∉ found.targets
  | .hit hit => found.blocks = [] ∧ hit ∈ found.hits
  | .block block => block ∈ found.blocks

/-- The items of what is printed. -/
structure Items (items : List Item) : Prop where
  rows : found.forEach opts expansions = items.flatMap (Item.rows found opts expansions)
  lines : items.flatMap Item.lines = found.shownLines opts
  right : ∀ item ∈ items, found.Right item

variable {found opts expansions}

/-! ## The lines that are asked for -/

lemma mem_blockLines {block : ReplaceBlock} {i : ℕ} :
    i ∈ blockLines block ↔ block.first ≤ i ∧ i ≤ block.last := by
  rw [blockLines, mem_range'_1]
  omega

lemma ascending_range' (s n : ℕ) : Ascending id (List.range' s n) := pairwise_lt_range'

lemma ascending_blockLines {blocks : List ReplaceBlock}
    (h : blocks.Pairwise fun a b => a.last < b.first) : Ascending id (blocks.flatMap blockLines) := by
  refine pairwise_flatMap.mpr ⟨fun block _ => ascending_range' _ _, h.imp fun hab i hi j hj => ?_⟩
  have hi := (mem_blockLines.mp hi).2
  have hj := (mem_blockLines.mp hj).1
  exact lt_of_le_of_lt hi (lt_of_lt_of_le hab hj)

lemma ascending_targets (found : FileMatches) : Ascending id found.targets := by
  rw [targets]
  split_ifs
  · exact ascending_blockLines found.blocks_ascending
  · exact map_iff.mpr found.hits_ascending

lemma targets_lt {t : ℕ} (h : t ∈ found.targets) : t < lineCount found.content := by
  rw [targets] at h
  split_ifs at h
  · obtain ⟨block, hblock, ht⟩ := mem_flatMap.mp h
    exact lt_of_le_of_lt (mem_blockLines.mp ht).2 (found.blocks_lt block hblock)
  · obtain ⟨hit, hhit, rfl⟩ := mem_map.mp h
    exact found.hits_lt hit hhit

/-- A text has at most as many lines as bytes. -/
lemma lineCount_le (content : List UInt8) : lineCount content ≤ content.length := by
  have hnodup := (ascending_starts content).nodup
  have hsubset : starts content ⊆ range content.length := fun p hp =>
    mem_range.mpr (mem_starts.mp hp).1
  have hle := (hnodup.subperm hsubset).length_le
  rwa [length_range] at hle

lemma ascending_shownLines (found : FileMatches) (opts : PrintOptions) :
    Ascending id (found.shownLines opts) :=
  List.Pairwise.filter _ pairwise_lt_range

lemma mem_shownLines {i : ℕ} :
    i ∈ found.shownLines opts ↔ i < lineCount found.content ∧ found.Shown opts i := by
  rw [shownLines, mem_filter, mem_range, decide_eq_true_iff]

lemma target_shown {t : ℕ} (h : t ∈ found.targets) : t ∈ found.shownLines opts :=
  mem_shownLines.mpr ⟨targets_lt h, .inr ⟨t, h, Nat.le_add_right _ _, Nat.le_add_right _ _⟩⟩

/-- All lines of a file. -/
lemma shownLines_passthru (h : opts.passthru = true) :
    found.shownLines opts = List.range (lineCount found.content) :=
  filter_eq_self.mpr fun _ _ => decide_eq_true (.inl h)

/-- Without context, only lines that match. -/
lemma shownLines_targets (hpass : ¬ opts.passthru = true)
    (h : opts.beforeContext = 0 ∧ opts.afterContext = 0) :
    found.shownLines opts = found.targets := by
  refine (ascending_shownLines found opts).eq_of_mem_iff (ascending_targets found) fun i => ?_
  refine ⟨fun hi => ?_, target_shown⟩
  obtain ⟨-, hshown⟩ := mem_shownLines.mp hi
  obtain ⟨t, ht, hbefore, hafter⟩ := hshown.resolve_left hpass
  obtain rfl : t = i := by omega
  exact ht

/-- **With context, the windows.** -/
theorem shownLines_window (hpass : ¬ opts.passthru = true)
    (hcontext : ¬ (opts.beforeContext = 0 ∧ opts.afterContext = 0)) (h : found.Fits opts) :
    found.shownLines opts =
      expandContextWindow found.targets (lineCount found.content) opts.beforeContext
        opts.afterContext := by
  have hfits := (h.resolve_left hpass).resolve_left hcontext
  refine (ascending_shownLines found opts).eq_of_mem_iff (sortDedup_ascending _) fun i => ?_
  rw [mem_shownLines, mem_expandContextWindow (ascending_targets found) (fun _ => targets_lt)
    (lt_of_le_of_lt (lineCount_le _) found.content_lt) hfits]
  refine and_congr_right fun _ => ⟨fun hshown => hshown.resolve_left hpass, .inr⟩

/-- No line is of two blocks. -/
lemma eq_of_mem_blockLines {a b : ReplaceBlock} (ha : a ∈ found.blocks) (hb : b ∈ found.blocks)
    {i : ℕ} (hia : i ∈ blockLines a) (hib : i ∈ blockLines b) : a = b := by
  by_contra hne
  have hapart : found.blocks.Pairwise fun a b => a.last < b.first ∨ b.last < a.first :=
    found.blocks_ascending.imp .inl
  have hsymm : Std.Symm fun a b : ReplaceBlock => a.last < b.first ∨ b.last < a.first :=
    ⟨fun _ _ => Or.symm⟩
  have hdisjoint := hapart.forall ha hb hne
  have hia := mem_blockLines.mp hia
  have hib := mem_blockLines.mp hib
  omega

/-! ## The loop over lines -/

section Loop

/-- No block is left. -/
lemma windowBlocks_nil (l : List ℕ) :
    found.windowBlocks opts l none [] = l.map found.contextLine := by
  induction l with
  | nil => rfl
  | cons li rest ih =>
    rw [windowBlocks, if_neg (by simp), ih]
    rfl

variable {last : ℕ} {block : ReplaceBlock} {l : List ℕ} {blocks : List ReplaceBlock}

/-- Lines in front of a block. -/
lemma windowBlocks_front {l' : List ℕ} (h : ∀ i ∈ l, i < block.first) :
    found.windowBlocks opts (l ++ l') none (block :: blocks) =
      l.map found.contextLine ++ found.windowBlocks opts l' none (block :: blocks) := by
  induction l with
  | nil => rfl
  | cons li rest ih =>
    obtain ⟨hli, hrest⟩ := forall_mem_cons.mp h
    have hne : ¬ block.first = li := hli.ne'
    rw [cons_append, windowBlocks, if_neg (by simp), if_neg hne, ih hrest]
    rfl

lemma windowBlocks_skip {li : ℕ} (h : li ≤ last) (rest : List ℕ) (blocks : List ReplaceBlock) :
    found.windowBlocks opts (li :: rest) (some last) blocks =
      found.windowBlocks opts rest (some last) blocks := by
  cases blocks with
  | nil => rw [windowBlocks, if_pos (by simpa using h)]
  | cons block blocks => rw [windowBlocks, if_pos (by simpa using h)]

/-- Lines that a block covers are skipped. -/
lemma windowBlocks_inside {l' : List ℕ} (h : ∀ i ∈ l, i ≤ last) :
    found.windowBlocks opts (l ++ l') (some last) blocks =
      found.windowBlocks opts l' (some last) blocks := by
  induction l with
  | nil => rfl
  | cons li rest ih =>
    obtain ⟨hli, hrest⟩ := forall_mem_cons.mp h
    rw [cons_append, windowBlocks_skip hli, ih hrest]

/-- Behind a block, it is as if there had been none. -/
lemma windowBlocks_behind (h : ∀ i ∈ l, last < i) :
    found.windowBlocks opts l (some last) blocks = found.windowBlocks opts l none blocks := by
  induction l generalizing blocks with
  | nil => rfl
  | cons li rest ih =>
    obtain ⟨hli, hrest⟩ := forall_mem_cons.mp h
    cases blocks with
    | nil =>
      rw [windowBlocks, windowBlocks, if_neg (by simpa using hli), if_neg (by simp), ih hrest]
    | cons block blocks =>
      rw [windowBlocks, windowBlocks, if_neg (by simpa using hli), ih hrest]
      exact (if_neg (by simp)).symm

/-- **A block stands in place of its lines.** -/
theorem windowBlocks_block (hle : block.first ≤ block.last) (h : ∀ i ∈ l, block.last < i) :
    found.windowBlocks opts (blockLines block ++ l) none (block :: blocks) =
      emitBlock block opts ++ found.windowBlocks opts l none blocks := by
  have hlen : block.last + 1 - block.first = block.last - block.first + 1 := by omega
  rw [blockLines, hlen, range'_succ, cons_append, windowBlocks, if_neg (by simp), if_pos rfl,
    windowBlocks_inside, windowBlocks_behind h]
  intro i hi
  have hi := mem_range'_1.mp hi
  omega

/-- Lines around others, and nothing else. -/
lemma flatMap_contexts (l : List ℕ) :
    (l.map found.contextLine).map Except.ok =
        (l.map Item.context).flatMap (Item.rows found opts expansions) ∧
      (l.map Item.context).flatMap Item.lines = l := by
  induction l with
  | nil => exact ⟨rfl, rfl⟩
  | cons li rest ih =>
    obtain ⟨hrows, hlines⟩ := ih
    constructor
    · rw [map_cons, map_cons, map_cons, flatMap_cons, hrows]
      rfl
    · rw [map_cons, flatMap_cons, hlines, Item.lines_context]
      rfl

/-- Lines in order, taken apart at a block that they have. -/
lemma split_at_block (hasc : Ascending id l) (hle : block.first ≤ block.last)
    (h : ∀ i ∈ blockLines block, i ∈ l) :
    l = l.filter (fun i => decide (i < block.first)) ++
      (blockLines block ++ l.filter fun i => decide (block.last < i)) := by
  have hfront : ∀ i ∈ l.filter (fun i => decide (i < block.first)), i < block.first :=
    fun i hi => of_decide_eq_true (mem_filter.mp hi).2
  have hback : ∀ i ∈ l.filter (fun i => decide (block.last < i)), block.last < i :=
    fun i hi => of_decide_eq_true (mem_filter.mp hi).2
  refine hasc.eq_of_mem_iff ?_ fun i => ?_
  · refine append.mpr ⟨hasc.sublist filter_sublist, append.mpr
      ⟨ascending_range' _ _, hasc.sublist filter_sublist, fun i hi j hj => ?_⟩, fun i hi j hj => ?_⟩
    · exact lt_of_le_of_lt (mem_blockLines.mp hi).2 (hback j hj)
    · refine lt_of_lt_of_le (hfront i hi) ?_
      rcases mem_append.mp hj with hj | hj
      · exact (mem_blockLines.mp hj).1
      · exact hle.trans (hback j hj).le
  · simp only [mem_append, mem_filter, decide_eq_true_eq]
    constructor
    · intro hi
      rcases Nat.lt_or_ge i block.first with hlt | hge
      · exact .inl ⟨hi, hlt⟩
      · rcases Nat.lt_or_ge block.last i with hlt | hle
        · exact .inr (.inr ⟨hi, hlt⟩)
        · exact .inr (.inl (mem_blockLines.mpr ⟨hge, hle⟩))
    · rintro (⟨hi, -⟩ | hi | ⟨hi, -⟩)
      · exact hi
      · exact h i hi
      · exact hi

/-- **The loop over lines** makes items of them.

**Proof sketch.** Induction on the blocks. The lines in front of the first one are context, its own
lines are skipped, and the rest is the loop for the other blocks. -/
theorem windowBlocks_items (hasc : Ascending id l)
    (hapart : blocks.Pairwise fun a b => a.last < b.first)
    (hordered : ∀ block ∈ blocks, block.first ≤ block.last)
    (h : ∀ block ∈ blocks, ∀ i ∈ blockLines block, i ∈ l) :
    ∃ items : List Item,
      (found.windowBlocks opts l none blocks).map Except.ok =
          items.flatMap (Item.rows found opts expansions) ∧
        items.flatMap Item.lines = l ∧
        ∀ item ∈ items, (∃ li, item = .context li ∧ ∀ block ∈ blocks, li ∉ blockLines block) ∨
          ∃ block ∈ blocks, item = .block block := by
  induction blocks generalizing l with
  | nil =>
    refine ⟨l.map Item.context, ?_, ?_, fun item hitem => ?_⟩
    · rw [windowBlocks_nil]
      exact (flatMap_contexts l).1
    · exact (@flatMap_contexts found opts expansions l).2
    · obtain ⟨li, -, rfl⟩ := List.mem_map.mp hitem
      exact .inl ⟨li, rfl, fun _ hblock => absurd hblock not_mem_nil⟩
  | cons block blocks ih =>
    obtain ⟨hbehind, hapart⟩ := List.pairwise_cons.mp hapart
    obtain ⟨hle, hordered⟩ := List.forall_mem_cons.mp hordered
    obtain ⟨hhere, hrest⟩ := List.forall_mem_cons.mp h
    have hsplit := split_at_block hasc hle hhere
    set front := l.filter fun i => decide (i < block.first) with hfront
    set back := l.filter fun i => decide (block.last < i) with hback
    have hfrontLt : ∀ i ∈ front, i < block.first := fun i hi =>
      of_decide_eq_true (List.mem_filter.mp hi).2
    have hbackLt : ∀ i ∈ back, block.last < i := fun i hi =>
      of_decide_eq_true (List.mem_filter.mp hi).2
    -- the other blocks are behind
    have hin : ∀ other ∈ blocks, ∀ i ∈ blockLines other, i ∈ back := by
      intro other hother i hi
      refine List.mem_filter.mpr ⟨hrest other hother i hi, decide_eq_true ?_⟩
      exact lt_of_lt_of_le (hbehind other hother) (mem_blockLines.mp hi).1
    obtain ⟨items, hrows, hlines, hright⟩ :=
      ih (hasc.sublist filter_sublist) hapart hordered hin
    refine ⟨front.map Item.context ++ .block block :: items, ?_, ?_, fun item hitem => ?_⟩
    · rw [hsplit, windowBlocks_front hfrontLt, windowBlocks_block hle hbackLt, map_append,
        map_append, hrows, flatMap_append, flatMap_cons, (flatMap_contexts front).1]
      rfl
    · rw [flatMap_append, flatMap_cons, hlines, Item.lines_block,
        (@flatMap_contexts found opts expansions front).2]
      exact hsplit.symm
    · rcases List.mem_append.mp hitem with hitem | hitem
      · obtain ⟨li, hli, rfl⟩ := List.mem_map.mp hitem
        have hlt := hfrontLt li hli
        refine .inl ⟨li, rfl, fun other hother hcovers => ?_⟩
        have hge := (mem_blockLines.mp hcovers).1
        rcases List.mem_cons.mp hother with rfl | hother
        · omega
        · have hfar := hbehind other hother
          omega
      · rcases List.mem_cons.mp hitem with rfl | hitem
        · exact .inr ⟨block, mem_cons_self, rfl⟩
        · rcases hright item hitem with ⟨li, rfl, hnot⟩ | ⟨other, hother, rfl⟩
          · have hli := List.mem_flatMap.mpr ⟨_, hitem, (by simp : li ∈ (Item.context li).lines)⟩
            rw [hlines] at hli
            have hlt := hbackLt li hli
            refine .inl ⟨li, rfl, List.forall_mem_cons.mpr ⟨fun hcovers => ?_, hnot⟩⟩
            have hge := (mem_blockLines.mp hcovers).2
            omega
          · exact .inr ⟨other, mem_cons_of_mem _ hother, rfl⟩

/-- The loop for a whole file is the loop over its lines. -/
lemma passBlocks_eq {li : ℕ} (hapart : blocks.Pairwise fun a b => a.last < b.first)
    (hordered : ∀ block ∈ blocks, block.first ≤ block.last)
    (hfront : ∀ block ∈ blocks, li ≤ block.first)
    (hlt : ∀ block ∈ blocks, block.last < lineCount found.content) :
    found.passBlocks opts li blocks =
      found.windowBlocks opts (List.range' li (lineCount found.content - li)) none blocks := by
  induction blocks generalizing li with
  | nil => rw [passBlocks, windowBlocks_nil]
  | cons block blocks ih =>
    obtain ⟨hbehind, hapart⟩ := pairwise_cons.mp hapart
    obtain ⟨hle, hordered⟩ := forall_mem_cons.mp hordered
    obtain ⟨hfront, -⟩ := forall_mem_cons.mp hfront
    obtain ⟨hlast, hlt⟩ := forall_mem_cons.mp hlt
    have hcovered : ∀ i ∈ blockLines block,
        i ∈ range' li (lineCount found.content - li) := by
      intro i hi
      obtain ⟨hge, hle⟩ := mem_blockLines.mp hi
      exact mem_range'_1.mpr (by omega)
    have hfilterFront : (range' li (lineCount found.content - li)).filter
        (fun i => decide (i < block.first)) = range' li (block.first - li) := by
      refine ((ascending_range' _ _).sublist filter_sublist).eq_of_mem_iff
        (ascending_range' _ _) fun i => ?_
      rw [mem_filter, mem_range'_1, mem_range'_1, decide_eq_true_iff]
      omega
    have hfilterBack : (range' li (lineCount found.content - li)).filter
        (fun i => decide (block.last < i)) =
          range' (block.last + 1) (lineCount found.content - (block.last + 1)) := by
      refine ((ascending_range' _ _).sublist filter_sublist).eq_of_mem_iff
        (ascending_range' _ _) fun i => ?_
      rw [mem_filter, mem_range'_1, mem_range'_1, decide_eq_true_iff]
      omega
    rw [split_at_block (ascending_range' _ _) hle hcovered, hfilterFront, hfilterBack,
      windowBlocks_front, windowBlocks_block hle, passBlocks,
      ih hapart hordered (fun other hother => hbehind other hother) hlt, append_assoc]
    · intro i hi
      have hi := mem_range'_1.mp hi
      omega
    · intro i hi
      have hi := mem_range'_1.mp hi
      omega

/-- The loop for blocks alone is the loop over their lines. -/
lemma flatMap_emitBlock_eq (hapart : blocks.Pairwise fun a b => a.last < b.first)
    (hordered : ∀ block ∈ blocks, block.first ≤ block.last) :
    (blocks.flatMap fun block => emitBlock block opts) =
      found.windowBlocks opts (blocks.flatMap blockLines) none blocks := by
  induction blocks with
  | nil => rfl
  | cons block blocks ih =>
    obtain ⟨hbehind, hapart⟩ := pairwise_cons.mp hapart
    obtain ⟨hle, hordered⟩ := forall_mem_cons.mp hordered
    rw [flatMap_cons, flatMap_cons, windowBlocks_block hle, ih hapart hordered]
    intro i hi
    obtain ⟨other, hother, hi⟩ := mem_flatMap.mp hi
    exact lt_of_lt_of_le (hbehind other hother) (mem_blockLines.mp hi).1

end Loop

/-! ## Items -/

/-- **All rows of blocks** come from the loop over the lines that are asked for. -/
theorem forEachBlock_eq (hblocks : found.blocks ≠ []) (h : found.Fits opts) :
    found.forEachBlock opts = found.windowBlocks opts (found.shownLines opts) none found.blocks := by
  have htargets : found.targets = found.blocks.flatMap blockLines := by
    rw [targets, if_pos hblocks]
  rw [forEachBlock]
  split_ifs with hpass hcontext
  · rw [shownLines_passthru hpass, passBlocks_eq found.blocks_ascending found.blocks_ordered
      (fun _ _ => Nat.zero_le _) found.blocks_lt, Nat.sub_zero, range_eq_range']
  · rw [shownLines_targets hpass hcontext, htargets,
      flatMap_emitBlock_eq found.blocks_ascending found.blocks_ordered]
  · rw [shownLines_window hpass hcontext h, htargets]

/-- A line that matches is found. -/
lemma find?_hits {hit : LineHit} {li : ℕ} :
    (found.hits.find? fun other => other.idx == li) = some hit ↔
      hit ∈ found.hits ∧ hit.idx = li := by
  have heq : (fun other : LineHit => other.idx == li) = fun other => decide (other.idx = li) := by
    funext other
    exact Bool.beq_eq_decide_eq other.idx li
  rw [heq]
  exact find?_key_eq_some found.hits_ascending

/-- **All rows of lines** come from the lines that are asked for. -/
theorem forEach_eq (hblocks : found.blocks = []) (h : found.Fits opts) :
    found.forEach opts expansions =
      (found.shownLines opts).flatMap (found.emitLine opts expansions) := by
  have htargets : found.targets = found.hits.map LineHit.idx := by
    rw [targets, if_neg (not_not.mpr hblocks)]
  rw [forEach, if_neg (not_not.mpr hblocks)]
  split_ifs with hpass hcontext
  · rw [shownLines_passthru hpass]
  · rw [shownLines_targets hpass hcontext, htargets, flatMap_map]
    refine flatMap_congr fun hit hhit => ?_
    rw [emitLine, find?_hits.mpr ⟨hhit, rfl⟩]
  · rw [shownLines_window hpass hcontext h, htargets]

/-- The item of a line, which may match. -/
def itemOf (found : FileMatches) (li : ℕ) : Item :=
  match found.hits.find? fun hit => hit.idx == li with
  | some hit => .hit hit
  | none => .context li

lemma itemOf_spec (found : FileMatches) (li : ℕ) :
    (itemOf found li).rows found opts expansions = found.emitLine opts expansions li ∧
      (itemOf found li).lines = [li] := by
  rw [itemOf, emitLine]
  cases hfind : found.hits.find? fun hit => hit.idx == li with
  | none => exact ⟨rfl, Item.lines_context li⟩
  | some hit =>
    refine ⟨rfl, ?_⟩
    rw [← (find?_hits.mp hfind).2]
    exact Item.lines_hit hit

/-- **What is printed is made of items.** -/
theorem forEach_items (h : found.Fits opts) : ∃ items, found.Items opts expansions items := by
  by_cases hblocks : found.blocks = []
  · have htargets : found.targets = found.hits.map LineHit.idx := by
      rw [targets, if_neg (not_not.mpr hblocks)]
    refine ⟨(found.shownLines opts).map (itemOf found), ?_, ?_, fun item hitem => ?_⟩
    · rw [forEach_eq hblocks h, flatMap_map]
      exact flatMap_congr fun li _ => (itemOf_spec found li).1.symm
    · rw [flatMap_map]
      refine (flatMap_congr fun li _ => (@itemOf_spec opts expansions found li).2).trans ?_
      exact flatMap_singleton' _
    · obtain ⟨li, -, rfl⟩ := mem_map.mp hitem
      rw [itemOf]
      cases hfind : found.hits.find? fun hit => hit.idx == li with
      | none =>
        intro hmem
        rw [htargets] at hmem
        obtain ⟨hit, hhit, hidx⟩ := mem_map.mp hmem
        rw [find?_hits.mpr ⟨hhit, hidx⟩] at hfind
        cases hfind
      | some hit => exact ⟨hblocks, (find?_hits.mp hfind).1⟩
  · have htargets : found.targets = found.blocks.flatMap blockLines := by
      rw [targets, if_pos hblocks]
    obtain ⟨items, hrows, hlines, hright⟩ := @windowBlocks_items found opts expansions
      (found.shownLines opts) found.blocks (ascending_shownLines found opts) found.blocks_ascending
      found.blocks_ordered fun block hblock i hi =>
        target_shown (htargets ▸ mem_flatMap.mpr ⟨block, hblock, hi⟩)
    refine ⟨items, ?_, hlines, fun item hitem => ?_⟩
    · rw [forEach, if_pos hblocks, forEachBlock_eq hblocks h, hrows]
    · rcases hright item hitem with ⟨li, rfl, hnot⟩ | ⟨block, hblock, rfl⟩
      · intro hmem
        rw [htargets] at hmem
        obtain ⟨block, hblock, hli⟩ := mem_flatMap.mp hmem
        exact hnot block hblock hli
      · exact hblock

/-- **Nothing is missing**: every line that is asked for and does not match is a context line, and
every match, or every block, is there. -/
theorem Items.covers {items : List Item} (h : found.Items opts expansions items) :
    (∀ i, .context i ∈ items ↔ i ∈ found.shownLines opts ∧ i ∉ found.targets) ∧
      (found.blocks = [] → ∀ hit ∈ found.hits, .hit hit ∈ items) ∧
      ∀ block ∈ found.blocks, .block block ∈ items := by
  -- the item of a line that is asked for
  have hitem : ∀ i ∈ found.shownLines opts, ∃ item ∈ items, i ∈ item.lines := by
    intro i hi
    rw [← h.lines] at hi
    exact mem_flatMap.mp hi
  refine ⟨fun i => ⟨fun hmem => ⟨?_, h.right _ hmem⟩, ?_⟩, fun hblocks hit hhit => ?_,
    fun block hblock => ?_⟩
  · rw [← h.lines]
    exact mem_flatMap.mpr ⟨_, hmem, by simp⟩
  · rintro ⟨hshown, hnot⟩
    obtain ⟨item, hmem, hi⟩ := hitem i hshown
    have hright := h.right item hmem
    cases item with
    | context li =>
      obtain rfl : i = li := by simpa using hi
      exact hmem
    | hit hit =>
      obtain rfl : i = hit.idx := by simpa using hi
      refine absurd ?_ hnot
      rw [targets, if_neg (not_not.mpr hright.1)]
      exact mem_map_of_mem hright.2
    | block block =>
      refine absurd ?_ hnot
      rw [targets, if_pos (ne_nil_of_mem hright)]
      exact mem_flatMap.mpr ⟨block, hright, hi⟩
  · have htarget : hit.idx ∈ found.targets := by
      rw [targets, if_neg (not_not.mpr hblocks)]
      exact mem_map_of_mem hhit
    obtain ⟨item, hmem, hi⟩ := hitem _ (target_shown htarget)
    have hright := h.right item hmem
    cases item with
    | context li =>
      obtain rfl : hit.idx = li := by simpa using hi
      exact absurd htarget hright
    | hit other =>
      have hkey : hit.idx = other.idx := by simpa using hi
      rw [found.hits_ascending.eq_of_key_eq hhit hright.2 hkey]
      exact hmem
    | block other =>
      rw [Right, hblocks] at hright
      exact absurd hright not_mem_nil
  · have hfirst : block.first ∈ blockLines block :=
      mem_blockLines.mpr ⟨le_rfl, found.blocks_ordered block hblock⟩
    have htarget : block.first ∈ found.targets := by
      rw [targets, if_pos (ne_nil_of_mem hblock)]
      exact mem_flatMap.mpr ⟨block, hblock, hfirst⟩
    obtain ⟨item, hmem, hi⟩ := hitem _ (target_shown htarget)
    have hright := h.right item hmem
    cases item with
    | context li =>
      obtain rfl : block.first = li := by simpa using hi
      exact absurd htarget hright
    | hit other => exact absurd hright.1 (ne_nil_of_mem hblock)
    | block other =>
      rw [Item.lines_block] at hi
      rw [eq_of_mem_blockLines hblock hright hfirst hi]
      exact hmem

/-! ## The rows of an item -/

/-- The rows of an item, as the item says: a line that matches and a line around have one row each,
and a block has one at least, each of which says which lines the block covers. -/
def RowsOf (found : FileMatches) : Item → List (Except String Emit) → Prop
  | .context li, rows => rows = [.ok (found.contextLine li)]
  | .hit hit, rows =>
    (∃ row : MatchRow, rows = [.ok (.matched row)] ∧ row.lineNumber = hit.idx + 1 ∧
        row.block = none) ∨
      ∃ e, rows = [.error e]
  | .block block, rows =>
    ∃ matched : List MatchRow, matched ≠ [] ∧ rows = matched.map (fun row => .ok (.matched row)) ∧
      ∀ row ∈ matched, row.block = some (block.first + 1, block.last + 1)

/-- **A line that matches has one row**, unless only the matches are printed. -/
theorem emitHit_eq (honly : opts.onlyMatching = false) (hit : LineHit) :
    RowsOf found (.hit hit) (found.emitHit opts expansions hit) := by
  rw [emitHit]
  split
  · exact .inl ⟨_, rfl, rfl, rfl⟩
  · rw [honly, Bool.false_and, if_neg (by simp)]
    split
    · split
      · exact .inl ⟨_, rfl, rfl, rfl⟩
      · exact .inr ⟨_, rfl⟩
    · exact .inl ⟨_, rfl, rfl, rfl⟩

/-- **The rows of an item.** -/
theorem rows_of (honly : opts.onlyMatching = false) (item : Item) :
    RowsOf found item (item.rows found opts expansions) := by
  cases item with
  | context li => rfl
  | hit hit => exact emitHit_eq honly hit
  | block block =>
    obtain ⟨rows, hne, heq, hrange⟩ := emitBlock_eq block opts
    refine ⟨rows, hne, ?_, hrange⟩
    rw [Item.rows, heq, map_map]
    rfl

end FileMatches

end Tgrep
