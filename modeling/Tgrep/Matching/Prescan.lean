import Tgrep.Data.Leftmost
import Tgrep.Data.Loops
import Tgrep.Data.Utf8
import Tgrep.Matching.Lines
import Tgrep.Matching.Looks

/-!
# Lines that are worth matching

A text is searched line by line. Where the pattern allows it, the whole text is searched once before,
and only the lines that its matches touch are searched by themselves.

## Main definitions

* `Regex`, `SearchMatcher`: what lines are matched by.
* `patternIsAnchorFree`: whether the text of a pattern writes no anchor.
* `candidateLines`: the lines that are worth matching.
* `collectHits`: the lines that match.

## Main results

* `mem_candidateLines`: a line that matches is worth matching.
* `ascending_candidateLines`: the lines that are worth matching ascend.
* `collectHits_prescan`: to match only them changes nothing.
* `collectHits_eq_ok`: the lines that match are lines of the text, in order.

## Implementation notes

The engines are a parameter, and so is how a pattern is parsed.
-/

namespace Tgrep

open Utf8 Splice LineIndex List Bool Option

/-! ## Matchers -/

/-- A compiled pattern: its text, what it was parsed to, and the search for a match from an offset
on. -/
structure Regex where
  pattern : List UInt8
  hir : Hir
  findAt : List UInt8 → ℕ → Option (ℕ × ℕ)

namespace Regex

def isMatch (re : Regex) (haystack : List UInt8) : Bool := (re.findAt haystack 0).isSome

/-- The matches of a haystack, one after another. -/
def findIter (re : Regex) (haystack : List UInt8) : List (ℕ × ℕ) :=
  Leftmost.findIter (re.findAt haystack) haystack.length

/-- The pattern matches a part of a haystack, from one character to another. -/
def IsMatch (isWord : Char → Prop) (re : Regex) (haystack : List UInt8) (s e : ℕ) : Prop :=
  s ≤ e ∧ e ≤ haystack.length ∧ isBoundary haystack s = true ∧ isBoundary haystack e = true ∧
    Hir.Matches (Look.Holds isWord) re.hir (haystack.take s) (slice haystack s e) (haystack.drop e)

end Regex

/-- A pattern for the other engine, which may fail. -/
structure FancyRegex where
  isMatch : List UInt8 → Except String Bool
  find : List UInt8 → Except String (Option (ℕ × ℕ))
  findIter : List UInt8 → List (Except String (ℕ × ℕ))

/-- What lines are matched by. -/
inductive SearchMatcher
  | standard (re : Regex)
  | fancy (re : FancyRegex) (prefilter : Option Regex)

namespace SearchMatcher

/-- Whether the prefilter rules a haystack out. -/
def ruledOut (prefilter : Option Regex) (haystack : List UInt8) : Bool :=
  prefilter.any fun re => !re.isMatch haystack

def isMatch (haystack : List UInt8) : SearchMatcher → Except String Bool
  | standard re => .ok (re.isMatch haystack)
  | fancy re prefilter => if ruledOut prefilter haystack then .ok false else re.isMatch haystack

/-- All matches of a haystack. -/
def findSpans (haystack : List UInt8) : SearchMatcher → Except String (List (ℕ × ℕ))
  | standard re => .ok (re.findIter haystack)
  | fancy re prefilter =>
    if ruledOut prefilter haystack then .ok [] else (re.findIter haystack).mapM id

/-- The first match of a haystack. -/
def findFirstSpan (haystack : List UInt8) : SearchMatcher → Except String (Option (ℕ × ℕ))
  | standard re => .ok (re.findAt haystack 0)
  | fancy re prefilter => if ruledOut prefilter haystack then .ok none else re.find haystack

end SearchMatcher

structure MatchOptions where
  invertMatch : Bool
  maxCount : Option ℕ
  stopOnNonmatch : Bool
  allSpans : Bool

/-- A line with its matches. -/
structure LineHit where
  idx : ℕ
  spans : List (ℕ × ℕ)
  deriving DecidableEq

/-! ## The prescan -/

/-- Whether the text of a pattern writes no anchor. -/
def patternIsAnchorFree : List UInt8 → Bool
  | [] => true
  | [b] => !(b == 0x5C) && !(b == 0x5E || b == 0x24)
  | b :: c :: rest =>
    if b = 0x5C then
      if c = 0x41 ∨ c = 0x7A ∨ c = 0x5A then false else patternIsAnchorFree rest
    else if b = 0x5E ∨ b = 0x24 then false
    else patternIsAnchorFree (c :: rest)

/-- Keep a line that is not the last one that was kept. -/
def dropRepeats : Option ℕ → List ℕ → List ℕ
  | _, [] => []
  | last, li :: rest => if last ≠ some li then li :: dropRepeats (some li) rest
    else dropRepeats last rest

/-- The lines that are worth matching, if they are known. -/
def candidateLines (content : Text) (matcher : SearchMatcher) (opts : MatchOptions) :
    Option (List ℕ) :=
  if opts.stopOnNonmatch then none
  else
    match matcher with
    | .fancy _ _ => none
    | .standard re =>
      if !patternIsAnchorFree re.pattern then none
      else if re.isMatch [] then none
      else
        some (dropRepeats none ((re.findIter content.bytes).flatMap fun m =>
          List.range' (lineOf content.bytes m.1)
            (lineOf content.bytes m.2 + 1 - lineOf content.bytes m.1)))

/-! ## The loops -/

/-- Match a line by itself, and say whether to go on. -/
def visitLine (content : Text) (matcher : SearchMatcher) (opts : MatchOptions) (i : ℕ)
    (out : List LineHit) : Except String (Bool × List LineHit) := do
  let spans ←
    if opts.allSpans then matcher.findSpans (lineText content.bytes i)
    else (matcher.findFirstSpan (lineText content.bytes i)).map Option.toList
  if spans ≠ [] then
    let out := out ++ [⟨i, spans⟩]
    pure (!opts.maxCount.any fun max => max ≤ out.length, out)
  else pure (!(opts.stopOnNonmatch && !out.isEmpty), out)

/-- Match lines one after another. -/
def visitLines (content : Text) (matcher : SearchMatcher) (opts : MatchOptions) :
    List ℕ → List LineHit → Except String (List LineHit)
  | [], out => .ok out
  | i :: rest, out =>
    match visitLine content matcher opts i out with
    | .error e => .error e
    | .ok (goOn, out) =>
      if goOn then visitLines content matcher opts rest out else .ok out

/-- The lines that do not match. -/
def invertedLines (content : Text) (matcher : SearchMatcher) (opts : MatchOptions) :
    List ℕ → List LineHit → Except String (List LineHit)
  | [], out => .ok out
  | i :: rest, out =>
    match matcher.isMatch (lineText content.bytes i) with
    | .error e => .error e
    | .ok false =>
      let out := out ++ [⟨i, []⟩]
      if opts.maxCount.any fun max => max ≤ out.length then .ok out
      else invertedLines content matcher opts rest out
    | .ok true =>
      if opts.stopOnNonmatch && !out.isEmpty then .ok out
      else invertedLines content matcher opts rest out

/-- The lines that are selected, where only some may be worth matching. -/
def collectHitsAmong (candidates : Option (List ℕ)) (content : Text) (matcher : SearchMatcher)
    (opts : MatchOptions) : Except String (List LineHit) :=
  if opts.invertMatch then
    invertedLines content matcher opts (List.range (lineCount content.bytes)) []
  else
    match candidates with
    | some lines => visitLines content matcher opts lines []
    | none => visitLines content matcher opts (List.range (lineCount content.bytes)) []

/-- The lines that are selected. -/
def collectHits (content : Text) (matcher : SearchMatcher) (opts : MatchOptions) :
    Except String (List LineHit) :=
  collectHitsAmong (candidateLines content matcher opts) content matcher opts

/-! ## Patterns without anchors -/

/-- The text of a pattern writes an anchor. It is read item by item, where a backslash goes with the
next byte. -/
inductive WritesAnchor : List UInt8 → Prop
  | caret {rest : List UInt8} : WritesAnchor (0x5E :: rest)
  | dollar {rest : List UInt8} : WritesAnchor (0x24 :: rest)
  | escape {b : UInt8} {rest : List UInt8} :
      b = 0x41 ∨ b = 0x7A ∨ b = 0x5A → WritesAnchor (0x5C :: b :: rest)
  | skipEscape {b : UInt8} {rest : List UInt8} : WritesAnchor rest → WritesAnchor (0x5C :: b :: rest)
  | skip {b : UInt8} {rest : List UInt8} : b ≠ 0x5C → WritesAnchor rest → WritesAnchor (b :: rest)

/-- **The check of a pattern** sees every anchor. -/
theorem not_writesAnchor {pattern : List UInt8} (h : patternIsAnchorFree pattern = true) :
    ¬ WritesAnchor pattern := by
  intro hwrites
  induction hwrites with
  | @caret rest => cases rest <;> cases h
  | @dollar rest => cases rest <;> cases h
  | @escape b rest hb =>
    rw [patternIsAnchorFree, if_pos rfl, if_pos hb] at h
    cases h
  | @skipEscape b rest _ ih =>
    rw [patternIsAnchorFree, if_pos rfl] at h
    split_ifs at h
    exact ih h
  | @skip b rest hb hrest ih =>
    cases rest with
    | nil => cases hrest
    | cons c rest =>
      rw [patternIsAnchorFree, if_neg hb] at h
      split_ifs at h
      exact ih h

/-- What is relied on of an engine: it yields leftmost matches, and the pattern was parsed to a tree
with an anchor only if its text writes one. -/
structure Regex.Lawful (isWord : Char → Prop) (re : Regex) : Prop where
  finds : ∀ haystack, Valid haystack →
    Leftmost.Finds (re.IsMatch isWord haystack) haystack.length (re.findAt haystack)
  parsed : ¬ WritesAnchor re.pattern → re.hir.AnchorFree

/-! ## Lines of a text -/

section Lines

variable {content : List UInt8} {i : ℕ}

/-- What is behind the start of a line is a text. -/
lemma valid_drop_lineStart (hvalid : Valid content) (hi : i < lineCount content) :
    Valid (content.drop (lineStart content i)) := by
  obtain ⟨-, -, -, hbefore, -, -⟩ := line_bounds hi
  rcases hbefore with hzero | ⟨hpos, hfeed⟩
  · rw [hzero, drop_zero]
    exact hvalid
  · have hsplit := take_append_drop (lineStart content i - 1) content
    obtain ⟨hlt, hget⟩ := List.getElem?_eq_some_iff.mp hfeed
    have hsucc : lineStart content i - 1 + 1 = lineStart content i := by omega
    rw [drop_eq_getElem_cons hlt, hget, hsucc] at hsplit
    rw [← hsplit] at hvalid
    exact hvalid.behind_ascii (by decide)

/-- Nothing is behind the end of a line, or a terminator. -/
lemma drop_lineEnd (hi : i < lineCount content) :
    content.drop (lineEnd content i) = [] ∨
      ∃ b rest, content.drop (lineEnd content i) = b :: rest ∧ (b = 0x0A ∨ b = 0x0D) := by
  obtain ⟨-, -, -, -, hafter, -⟩ := line_bounds hi
  have hbyte : ∀ b, content[lineEnd content i]? = some b → b = 0x0A ∨ b = 0x0D →
      ∃ b rest, content.drop (lineEnd content i) = b :: rest ∧ (b = 0x0A ∨ b = 0x0D) := by
    intro b hb hterminator
    obtain ⟨hlt, rfl⟩ := List.getElem?_eq_some_iff.mp hb
    exact ⟨_, _, drop_eq_getElem_cons hlt, hterminator⟩
  rcases hafter with hend | hfeed | hreturn
  · exact .inl (drop_eq_nil_of_le hend.ge)
  · exact .inr (hbyte _ hfeed (.inl rfl))
  · exact .inr (hbyte _ hreturn (.inr rfl))

/-- What stands around a line. -/
lemma lineContext (hi : i < lineCount content) :
    LineContext (content.take (lineStart content i)) (content.drop (lineEnd content i)) := by
  obtain ⟨-, -, -, hbefore, -, -⟩ := line_bounds hi
  refine ⟨?_, drop_lineEnd hi⟩
  rcases hbefore with hzero | ⟨hpos, hfeed⟩
  · exact .inl (by rw [hzero, take_zero])
  · refine .inr ⟨content.take (lineStart content i - 1), ?_⟩
    have hsucc : lineStart content i = lineStart content i - 1 + 1 := by omega
    rw [hsucc, take_add_one, Nat.add_sub_cancel, hfeed]
    rfl

/-- The text behind the start of a line. -/
lemma drop_lineStart (hi : i < lineCount content) :
    content.drop (lineStart content i) =
      lineText content i ++ content.drop (lineEnd content i) := by
  have hsplit := content_eq hi
  exact append_cancel_left ((take_append_drop (lineStart content i) content).trans hsplit)

/-- A line is a text. -/
lemma valid_lineText (hvalid : Valid content) (hi : i < lineCount content) :
    Valid (lineText content i) := by
  have hdrop := valid_drop_lineStart hvalid hi
  rw [drop_lineStart hi] at hdrop
  rcases drop_lineEnd hi with hend | ⟨b, rest, hb, hterminator⟩
  · rwa [hend, append_nil] at hdrop
  · rw [hb] at hdrop
    refine hdrop.of_ascii ?_
    rcases hterminator with rfl | rfl
    · decide
    · decide

/-- The characters of a line begin and end where those of the text do. -/
lemma isBoundary_line (hvalid : Valid content) (hi : i < lineCount content) {s : ℕ}
    (hs : isBoundary (lineText content i) s = true) :
    isBoundary content (lineStart content i + s) = true := by
  have hlen := length_lineText hi
  obtain ⟨-, hle, hle', -, hafter, -⟩ := line_bounds hi
  rcases isBoundary_iff.mp hs with rfl | rfl | ⟨b, hb, hfirst⟩
  · have hstart := @isBoundary_append (content.take (lineStart content i)) _
      (valid_drop_lineStart hvalid hi)
    rwa [take_append_drop, length_take, Nat.min_eq_left (by omega)] at hstart
  · rw [hlen, Nat.add_sub_cancel' hle]
    refine isBoundary_iff.mpr ?_
    rcases hafter with hend | hfeed | hreturn
    · exact .inr (.inl hend)
    · exact .inr (.inr ⟨_, hfeed, by decide⟩)
    · exact .inr (.inr ⟨_, hreturn, by decide⟩)
  · refine isBoundary_iff.mpr (.inr (.inr ⟨b, ?_, hfirst⟩))
    obtain ⟨hlt, -⟩ := List.getElem?_eq_some_iff.mp hb
    rw [← getElem?_drop, drop_lineStart hi, getElem?_append_left hlt]
    exact hb

variable {isWord : Char → Prop} {re : Regex}

/-- **A match in a line is one in the text.** -/
theorem isMatch_line (hword : SeparatesLines isWord) (hfree : re.hir.AnchorFree)
    (hvalid : Valid content) (hi : i < lineCount content) {s e : ℕ}
    (h : re.IsMatch isWord (lineText content i) s e) :
    re.IsMatch isWord content (lineStart content i + s) (lineStart content i + e) := by
  obtain ⟨hse, hlen, hs, he, hmatch⟩ := h
  have hline := length_lineText hi
  obtain ⟨-, hle, hle', -⟩ := line_bounds hi
  refine ⟨by omega, by omega, isBoundary_line hvalid hi hs, isBoundary_line hvalid hi he, ?_⟩
  have htake : ∀ n ≤ (lineText content i).length, content.take (lineStart content i + n) =
      content.take (lineStart content i) ++ (lineText content i).take n := by
    intro n hn
    rw [take_add, drop_lineStart hi, take_append_of_le_length hn]
  have hslice : slice content (lineStart content i + s) (lineStart content i + e) =
      slice (lineText content i) s e := by
    have hstart : (content.take (lineStart content i)).length = lineStart content i := by
      rw [length_take, Nat.min_eq_left (by omega)]
    rw [slice, slice, htake e hlen, drop_append, hstart, Nat.add_sub_cancel_left,
      drop_eq_nil_of_le (by omega), nil_append]
  rw [htake s (by omega), hslice, ← drop_drop, drop_lineStart hi, drop_append_of_le_length hlen]
  exact hmatch.extend hword (lineContext hi) hfree

end Lines

/-! ## The lines that are worth matching -/

section Candidates

/-- Repeats are dropped, and nothing else. -/
lemma mem_dropRepeats {last : Option ℕ} {l : List ℕ} {li : ℕ} (h : li ∈ l) :
    li ∈ dropRepeats last l ∨ last = some li := by
  induction l generalizing last with
  | nil => cases h
  | cons x l ih =>
    rw [dropRepeats]
    split_ifs with hlast
    · rcases mem_cons.mp h with rfl | h
      · exact .inl mem_cons_self
      · rcases @ih (some x) h with hmem | heq
        · exact .inl (mem_cons_of_mem _ hmem)
        · obtain rfl := some.inj heq
          exact .inl mem_cons_self
    · rcases mem_cons.mp h with rfl | h
      · exact .inr (not_not.mp hlast)
      · exact ih h

/-- Without repeats, lines that do not descend ascend. -/
lemma ascending_dropRepeats {last : Option ℕ} {l : List ℕ} (hl : l.Pairwise (· ≤ ·))
    (hlast : ∀ x, last = some x → ∀ li ∈ l, x ≤ li) :
    (∀ li ∈ dropRepeats last l, li ∈ l ∧ ∀ x, last = some x → x < li) ∧
      Ascending id (dropRepeats last l) := by
  induction l generalizing last with
  | nil => exact ⟨forall_mem_nil _, List.Pairwise.nil⟩
  | cons y l ih =>
    obtain ⟨hy, hrest⟩ := pairwise_cons.mp hl
    rw [dropRepeats]
    split_ifs with hne
    · obtain ⟨hmem, hasc⟩ := @ih (some y) hrest fun x hx li hli =>
        some.inj hx ▸ hy li hli
      refine ⟨forall_mem_cons.mpr ⟨⟨mem_cons_self, fun x hx => ?_⟩, fun li hli => ?_⟩,
        pairwise_cons.mpr ⟨fun li hli => (hmem li hli).2 y rfl, hasc⟩⟩
      · refine lt_of_le_of_ne (hlast x hx y mem_cons_self) ?_
        rintro rfl
        exact hne hx
      · obtain ⟨hin, hlt⟩ := hmem li hli
        refine ⟨mem_cons_of_mem _ hin, fun x hx => ?_⟩
        exact lt_of_le_of_lt (hlast x hx y mem_cons_self) (hlt y rfl)
    · obtain ⟨hmem, hasc⟩ := ih hrest fun x hx li hli => hlast x hx li (mem_cons_of_mem _ hli)
      exact ⟨fun li hli => ⟨mem_cons_of_mem _ (hmem li hli).1, (hmem li hli).2⟩, hasc⟩

variable {isWord : Char → Prop} {content : Text} {re : Regex} {opts : MatchOptions}
  {lines : List ℕ}

variable {matcher : SearchMatcher}

/-- When the lines that are worth matching are known, and what they are. -/
lemma candidateLines_eq_some (h : candidateLines content matcher opts = some lines) :
    ∃ re, matcher = .standard re ∧ opts.stopOnNonmatch = false ∧
      patternIsAnchorFree re.pattern = true ∧ re.isMatch [] = false ∧
      lines = dropRepeats none ((re.findIter content.bytes).flatMap fun m =>
        List.range' (lineOf content.bytes m.1)
          (lineOf content.bytes m.2 + 1 - lineOf content.bytes m.1)) := by
  unfold candidateLines at h
  split_ifs at h with hstop
  cases matcher with
  | fancy re prefilter => cases h
  | standard re =>
    dsimp only at h
    split_ifs at h with hanchor hempty
    refine ⟨re, rfl, eq_false_of_not_eq_true hstop, ?_, eq_false_of_not_eq_true hempty,
      (some.inj h).symm⟩
    rwa [not_eq_true, not_eq_false'] at hanchor

/-- The lines that matches touch do not descend. -/
lemma pairwise_touched (bytes : List UInt8) {matches' : List (ℕ × ℕ)}
    (h : matches'.Pairwise fun m m' => m.2 ≤ m'.1) :
    (matches'.flatMap fun m =>
      List.range' (lineOf bytes m.1) (lineOf bytes m.2 + 1 - lineOf bytes m.1)).Pairwise
        (· ≤ ·) := by
  refine pairwise_flatMap.mpr ⟨fun m _ => ?_, h.imp fun {m m'} hle a ha b hb => ?_⟩
  · exact pairwise_le_range'
  · rw [mem_range'_1] at ha hb
    have hmono := @lineOf_mono bytes _ _ hle
    omega

/-- **The lines that are worth matching ascend.** -/
theorem ascending_candidateLines (hlawful : ∀ re, matcher = .standard re → re.Lawful isWord)
    (h : candidateLines content matcher opts = some lines) : Ascending id lines := by
  obtain ⟨re, hre, -, -, -, rfl⟩ := candidateLines_eq_some h
  have hfinds := (hlawful re hre).finds content.bytes content.valid
  exact (ascending_dropRepeats (pairwise_touched _ (Leftmost.pairwise_findIter hfinds))
    fun x hx => by cases hx).2

/-- The lines that are worth matching are lines. -/
lemma lt_of_mem_candidateLines (hlawful : ∀ re, matcher = .standard re → re.Lawful isWord)
    (h : candidateLines content matcher opts = some lines) :
    ∀ i ∈ lines, i < lineCount content.bytes := by
  obtain ⟨re, hre, -, -, hempty, rfl⟩ := candidateLines_eq_some h
  have hfinds := (hlawful re hre).finds content.bytes content.valid
  intro i hi
  obtain ⟨hmem, -⟩ := (ascending_dropRepeats (pairwise_touched _ (Leftmost.pairwise_findIter hfinds))
    fun x hx => by cases hx).1 i hi
  obtain ⟨m, hm, hrange⟩ := mem_flatMap.mp hmem
  rw [mem_range'_1] at hrange
  by_cases hnil : content.bytes = []
  · -- the pattern does not match the empty text
    have hmatch := Leftmost.isMatch_of_mem_findIter hfinds hm
    rw [Regex.isMatch, ← hnil] at hempty
    have hnone : re.findAt content.bytes 0 = none := by
      cases hfind : re.findAt content.bytes 0 with
      | none => rfl
      | some found =>
        rw [hfind] at hempty
        cases hempty
    exact absurd (hfinds.complete _ _ _ hnone hmatch) (Nat.not_lt_zero _)
  · have hlt := lineOf_lt hnil m.2
    omega

/-- **A line that matches is worth matching**: its match begins within one of the whole text. -/
theorem mem_candidateLines (hword : SeparatesLines isWord)
    (hlawful : ∀ re, matcher = .standard re → re.Lawful isWord)
    (h : candidateLines content matcher opts = some lines) {i : ℕ}
    (hi : i < lineCount content.bytes)
    (hmatch : matcher.isMatch (lineText content.bytes i) = .ok true) : i ∈ lines := by
  obtain ⟨re, rfl, -, hanchor, -, rfl⟩ := candidateLines_eq_some h
  obtain ⟨hfindsAll, hparsed⟩ := hlawful re rfl
  have hfree := hparsed (not_writesAnchor hanchor)
  have hsome : (re.findAt (lineText content.bytes i) 0).isSome = true := Except.ok.inj hmatch
  obtain ⟨⟨s, e⟩, hfind⟩ := isSome_iff_exists.mp hsome
  have hline := ((hfindsAll _ (valid_lineText content.valid hi)).sound _ _ _ hfind).2
  have hlen := length_lineText hi
  have hse : s ≤ e := hline.1
  have hele : e ≤ (lineText content.bytes i).length := hline.2.1
  obtain ⟨-, hbounds, -⟩ := line_bounds hi
  have htext := isMatch_line hword hfree content.valid hi hline
  obtain ⟨m, hm, hle, hge⟩ := Leftmost.findIter_covers (hfindsAll _ content.valid) htext
  have hof : lineOf content.bytes (lineStart content.bytes i + s) = i :=
    lineOf_eq hi (Nat.le_add_right _ _) (by omega)
  have hlo := @lineOf_mono content.bytes _ _ hle
  have hhi := @lineOf_mono content.bytes _ _ hge
  rw [hof] at hlo hhi
  refine (mem_dropRepeats (mem_flatMap.mpr ⟨m, hm, ?_⟩)).resolve_right fun hnone => by
    cases hnone
  rw [mem_range'_1]
  omega

end Candidates

/-! ## The lines that are selected -/

section Selected

variable {content : Text} {matcher : SearchMatcher} {opts : MatchOptions}

variable {out out' : List LineHit}

lemma visitLine_eq_ok {i : ℕ} {goOn : Bool}
    (h : visitLine content matcher opts i out = .ok (goOn, out')) :
    out' = out ∨ ∃ spans, out' = out ++ [⟨i, spans⟩] := by
  rw [visitLine] at h
  -- what is done once the matches are known
  have hend : ∀ spans : List (ℕ × ℕ),
      (if spans ≠ [] then
          (pure (!opts.maxCount.any fun max => decide (max ≤ (out ++ [LineHit.mk i spans]).length),
            out ++ [⟨i, spans⟩]) : Except String (Bool × List LineHit))
        else pure (!(opts.stopOnNonmatch && !out.isEmpty), out)) = .ok (goOn, out') →
      out' = out ∨ ∃ spans, out' = out ++ [⟨i, spans⟩] := by
    intro spans hspans
    split_ifs at hspans
    · cases hspans
      exact .inr ⟨spans, rfl⟩
    · cases hspans
      exact .inl rfl
  split_ifs at h
  · obtain ⟨spans, -, h⟩ := Loops.bind_eq_ok.mp h
    exact hend spans h
  · obtain ⟨spans, -, h⟩ := Loops.bind_eq_ok.mp h
    exact hend spans h

/-- Lines that are matched one after another keep their order. -/
lemma visitLines_eq_ok {lines : List ℕ} (h : visitLines content matcher opts lines out = .ok out') :
    ∃ new, out' = out ++ new ∧ (new.map LineHit.idx).Sublist lines := by
  induction lines generalizing out with
  | nil =>
    cases h
    exact ⟨[], (append_nil _).symm, List.Sublist.refl _⟩
  | cons i rest ih =>
    rw [visitLines] at h
    cases hvisit : visitLine content matcher opts i out with
    | error e =>
      rw [hvisit] at h
      cases h
    | ok result =>
      obtain ⟨goOn, out₁⟩ := result
      rw [hvisit] at h
      have hrest : ∃ new, out' = out₁ ++ new ∧ (new.map LineHit.idx).Sublist rest := by
        dsimp only at h
        split_ifs at h
        · exact ih h
        · cases h
          exact ⟨[], (append_nil _).symm, nil_sublist _⟩
      obtain ⟨new, rfl, hsub⟩ := hrest
      rcases visitLine_eq_ok hvisit with rfl | ⟨spans, rfl⟩
      · exact ⟨new, rfl, hsub.cons i⟩
      · exact ⟨⟨i, spans⟩ :: new, by rw [append_assoc]; rfl, hsub.cons_cons i⟩

lemma invertedLines_eq_ok {lines : List ℕ}
    (h : invertedLines content matcher opts lines out = .ok out') :
    ∃ new, out' = out ++ new ∧ (new.map LineHit.idx).Sublist lines := by
  induction lines generalizing out with
  | nil =>
    cases h
    exact ⟨[], (append_nil _).symm, List.Sublist.refl _⟩
  | cons i rest ih =>
    rw [invertedLines] at h
    split at h
    · cases h
    · dsimp only at h
      split_ifs at h
      · cases h
        exact ⟨[⟨i, []⟩], rfl, by simp⟩
      · obtain ⟨new, rfl, hsub⟩ := ih h
        exact ⟨⟨i, []⟩ :: new, by rw [append_assoc]; rfl, hsub.cons_cons i⟩
    · split_ifs at h
      · cases h
        exact ⟨[], (append_nil _).symm, nil_sublist _⟩
      · obtain ⟨new, rfl, hsub⟩ := ih h
        exact ⟨new, rfl, hsub.cons i⟩

/-- **The lines that match** are lines of the content, in order. -/
theorem collectHits_eq_ok {isWord : Char → Prop} {hits : List LineHit}
    (hlawful : ∀ re, matcher = .standard re → re.Lawful isWord)
    (h : collectHits content matcher opts = .ok hits) :
    Ascending LineHit.idx hits ∧ ∀ hit ∈ hits, hit.idx < lineCount content.bytes := by
  have hkept : ∃ lines : List ℕ, Ascending id lines ∧
      (∀ i ∈ lines, i < lineCount content.bytes) ∧ (hits.map LineHit.idx).Sublist lines := by
    have hrange : Ascending id (range (lineCount content.bytes)) := pairwise_lt_range
    have hlt : ∀ i ∈ range (lineCount content.bytes), i < lineCount content.bytes :=
      fun i hi => mem_range.mp hi
    rw [collectHits] at h
    cases hlines : candidateLines content matcher opts with
    | none =>
      rw [hlines, collectHitsAmong] at h
      split_ifs at h
      · obtain ⟨new, rfl, hsub⟩ := invertedLines_eq_ok h
        exact ⟨_, hrange, hlt, hsub⟩
      · obtain ⟨new, rfl, hsub⟩ := visitLines_eq_ok h
        exact ⟨_, hrange, hlt, hsub⟩
    | some lines =>
      rw [hlines, collectHitsAmong] at h
      split_ifs at h
      · obtain ⟨new, rfl, hsub⟩ := invertedLines_eq_ok h
        exact ⟨_, hrange, hlt, hsub⟩
      · obtain ⟨new, rfl, hsub⟩ := visitLines_eq_ok h
        exact ⟨lines, ascending_candidateLines hlawful hlines,
          lt_of_mem_candidateLines hlawful hlines, hsub⟩
  obtain ⟨lines, hasc, hlt, hsub⟩ := hkept
  exact ⟨Ascending.map_iff.mp (hasc.sublist hsub), fun hit hhit =>
    hlt _ (hsub.subset (mem_map_of_mem hhit))⟩

end Selected

/-! ## The loop over them -/

section Loop

variable {isWord : Char → Prop} {content : Text} {re : Regex} {opts : MatchOptions}

/-- A line that does not match has no matches. -/
lemma findSpans_eq_nil (hlawful : re.Lawful isWord) {line : List UInt8} (hvalid : Valid line)
    (h : re.isMatch line = false) : re.findIter line = [] ∧ re.findAt line 0 = none := by
  have hfinds := hlawful.finds line hvalid
  have hnone : re.findAt line 0 = none := by
    rw [Regex.isMatch] at h
    cases hfind : re.findAt line 0 with
    | none => rfl
    | some found =>
      rw [hfind] at h
      cases h
  refine ⟨eq_nil_iff_forall_not_mem.mpr fun m hm => ?_, hnone⟩
  have hmatch := Leftmost.isMatch_of_mem_findIter hfinds hm
  exact absurd (hfinds.complete _ _ _ hnone hmatch) (Nat.not_lt_zero _)

/-- A line that does not match is passed over. -/
lemma visitLine_of_not_isMatch (hlawful : re.Lawful isWord) (hstop : opts.stopOnNonmatch = false)
    {i : ℕ} (hi : i < lineCount content.bytes) (h : re.isMatch (lineText content.bytes i) = false)
    (out : List LineHit) : visitLine content (.standard re) opts i out = .ok (true, out) := by
  obtain ⟨hall, hfirst⟩ := findSpans_eq_nil hlawful (valid_lineText content.valid hi) h
  rw [visitLine, SearchMatcher.findSpans, SearchMatcher.findFirstSpan, hall, hfirst, hstop]
  cases opts.allSpans <;> rfl

/-- Lines that are passed over do not matter. -/
lemma visitLines_filter {matcher : SearchMatcher} (p : ℕ → Bool) (lines : List ℕ)
    (out : List LineHit)
    (h : ∀ i ∈ lines, p i = false → ∀ out, visitLine content matcher opts i out = .ok (true, out)) :
    visitLines content matcher opts lines out =
      visitLines content matcher opts (lines.filter p) out := by
  induction lines generalizing out with
  | nil => rfl
  | cons i lines ih =>
    obtain ⟨hi, hrest⟩ := forall_mem_cons.mp h
    cases hp : p i with
    | false =>
      rw [filter_cons_of_neg (Bool.eq_false_iff.mp hp), visitLines, hi hp]
      exact ih out hrest
    | true =>
      rw [filter_cons_of_pos hp, visitLines, visitLines]
      cases visitLine content matcher opts i out with
      | error e => rfl
      | ok result =>
        obtain ⟨goOn, out⟩ := result
        dsimp only
        rw [ih out hrest]

/-- **To match only the lines that are worth matching changes nothing**: every line that matches is
among them, they ascend, and the lines that are selected are the same, with the same matches and up
to the same one. -/
theorem collectHits_prescan (hword : SeparatesLines isWord) {matcher : SearchMatcher}
    (hlawful : ∀ re, matcher = .standard re → re.Lawful isWord) (content : Text)
    (opts : MatchOptions) :
    (∀ lines, candidateLines content matcher opts = some lines →
      (∀ i < lineCount content.bytes,
        matcher.isMatch (lineText content.bytes i) = .ok true → i ∈ lines) ∧
      Ascending id lines) ∧
    collectHits content matcher opts = collectHitsAmong none content matcher opts := by
  refine ⟨fun lines h => ⟨fun i hi hmatch => mem_candidateLines hword hlawful h hi hmatch,
    ascending_candidateLines hlawful h⟩, ?_⟩
  rw [collectHits]
  cases hlines : candidateLines content matcher opts with
  | none => rfl
  | some lines =>
    obtain ⟨re, rfl, hstop, -⟩ := candidateLines_eq_some hlines
    rw [collectHitsAmong, collectHitsAmong]
    refine if_congr Iff.rfl rfl ?_
    -- both lists of lines have the same lines that match
    have hlt := lt_of_mem_candidateLines hlawful hlines
    have hpass : ∀ i < lineCount content.bytes, re.isMatch (lineText content.bytes i) = false →
        ∀ out, visitLine content (.standard re) opts i out = .ok (true, out) :=
      fun i hi hmatch out => visitLine_of_not_isMatch (hlawful re rfl) hstop hi hmatch out
    rw [visitLines_filter (fun i => re.isMatch (lineText content.bytes i)) lines []
        fun i hi => hpass i (hlt i hi),
      visitLines_filter (fun i => re.isMatch (lineText content.bytes i)) (List.range _) []
        fun i hi => hpass i (List.mem_range.mp hi)]
    have hsame : lines.filter (fun i => re.isMatch (lineText content.bytes i)) =
        (List.range (lineCount content.bytes)).filter
          fun i => re.isMatch (lineText content.bytes i) := by
      refine Ascending.eq_of_mem_iff
        ((ascending_candidateLines hlawful hlines).sublist filter_sublist)
        (List.Pairwise.sublist filter_sublist pairwise_lt_range) fun i => ?_
      rw [mem_filter, mem_filter, mem_range]
      constructor
      · rintro ⟨hi, hmatch⟩
        exact ⟨hlt i hi, hmatch⟩
      · rintro ⟨hi, hmatch⟩
        exact ⟨mem_candidateLines hword hlawful hlines hi (congrArg Except.ok hmatch), hmatch⟩
    rw [hsame]

end Loop

/-! ### One letter -/

/-- A pattern of one letter, and the search for it. -/
def letter : Regex where
  pattern := [0x61]
  hir := .literal [0x61]
  findAt haystack i :=
    ((haystack.drop i).findIdx? (· == 0x61)).map fun j => (i + j, i + j + 1)

/-- The letter matches itself. -/
lemma isMatch_letter (isWord : Char → Prop) {haystack : List UInt8} (hvalid : Valid haystack)
    {s e : ℕ} : letter.IsMatch isWord haystack s e ↔ e = s + 1 ∧ haystack[s]? = some 0x61 := by
  constructor
  · rintro ⟨hse, hlen, -, -, hmatch⟩
    generalize hmid : slice haystack s e = mid at hmatch
    change Hir.Matches _ (.literal [0x61]) _ _ _ at hmatch
    cases hmatch
    have hlength := congrArg List.length hmid
    rw [slice, length_drop, length_take] at hlength
    change _ = 1 at hlength
    have hfirst : (slice haystack s e)[0]? = some 0x61 := by rw [hmid]; rfl
    rw [slice, getElem?_drop, getElem?_take_of_lt (by omega)] at hfirst
    exact ⟨by omega, hfirst⟩
  · rintro ⟨rfl, hbyte⟩
    obtain ⟨hlt, hget⟩ := List.getElem?_eq_some_iff.mp hbyte
    have hdrop : haystack.drop s = 0x61 :: haystack.drop (s + 1) := by
      rw [drop_eq_getElem_cons hlt, hget]
    have hbehind : Valid (haystack.drop (s + 1)) := by
      rw [← take_append_drop s haystack, hdrop] at hvalid
      exact hvalid.behind_ascii (by decide)
    have hend := @isBoundary_append (haystack.take (s + 1)) _ hbehind
    rw [take_append_drop, length_take, Nat.min_eq_left hlt] at hend
    have hslice : slice haystack s (s + 1) = [0x61] := by
      rw [slice, drop_take, hdrop, Nat.add_sub_cancel_left]
      rfl
    refine ⟨Nat.le_succ s, hlt, isBoundary_iff.mpr (.inr (.inr ⟨_, hbyte, by decide⟩)), hend, ?_⟩
    rw [hslice]
    exact .literal

lemma lawful_letter (isWord : Char → Prop) : letter.Lawful isWord where
  finds haystack hvalid := by
    have hfind : ∀ i s e, letter.findAt haystack i = some (s, e) →
        ∃ j, (haystack.drop i).findIdx? (· == 0x61) = some j ∧ s = i + j ∧ e = s + 1 := by
      intro i s e h
      obtain ⟨j, hj, heq⟩ := map_eq_some_iff.mp h
      obtain ⟨rfl, rfl⟩ := Prod.mk.inj heq
      exact ⟨j, hj, rfl, rfl⟩
    refine ⟨fun s e h => ⟨h.1, h.2.1⟩, ?_, ?_, ?_⟩
    · intro i s e h
      obtain ⟨j, hj, rfl, rfl⟩ := hfind i s e h
      obtain ⟨hlt, hbyte, -⟩ := List.findIdx?_eq_some_iff_getElem.mp hj
      refine ⟨Nat.le_add_right i j, (isMatch_letter isWord hvalid).mpr ⟨rfl, ?_⟩⟩
      rw [← getElem?_drop, getElem?_eq_getElem hlt, beq_iff_eq.mp hbyte]
    · intro i s e a b h hab hia
      obtain ⟨j, hj, rfl, rfl⟩ := hfind i s e h
      obtain ⟨-, hbyte⟩ := (isMatch_letter isWord hvalid).mp hab
      obtain ⟨hlt', hat, hbefore⟩ := List.findIdx?_eq_some_iff_getElem.mp hj
      by_contra hlt
      have hj' : a - i < j := by omega
      refine hbefore (a - i) hj' ?_
      have hget : (haystack.drop i)[a - i]? = some 0x61 := by
        rw [getElem?_drop, Nat.add_sub_cancel' hia]
        exact hbyte
      obtain ⟨_, hget⟩ := List.getElem?_eq_some_iff.mp hget
      exact beq_iff_eq.mpr hget
    · intro i a b h hab
      obtain ⟨-, hbyte⟩ := (isMatch_letter isWord hvalid).mp hab
      rw [letter, map_eq_none_iff, findIdx?_eq_none_iff] at h
      by_contra hia
      have hget : (haystack.drop i)[a - i]? = some 0x61 := by
        rw [getElem?_drop, Nat.add_sub_cancel' (not_lt.mp hia)]
        exact hbyte
      exact absurd (h _ (mem_of_getElem? hget)) (by decide)
  parsed _ := .literal

/-- The letter on the second of three lines. -/
def threeLines : Text :=
  ⟨[0x62, 0x0A, 0x62, 0x61, 0x0D, 0x0A, 0x62], valid_ascii (by decide +kernel)⟩

/-- The letter is found on its line, whether or not the others are passed over. -/
theorem collectHits_prescan_letter :
    collectHits threeLines (.standard letter) ⟨false, none, false, true⟩ =
      collectHitsAmong none threeLines (.standard letter) ⟨false, none, false, true⟩ :=
  (collectHits_prescan separatesLines_ascii
    (fun _ hre => SearchMatcher.standard.inj hre ▸ lawful_letter IsWordAscii) threeLines
    ⟨false, none, false, true⟩).2

end Tgrep
