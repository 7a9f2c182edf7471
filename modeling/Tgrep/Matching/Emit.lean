import Tgrep.Matching.Prescan
import Tgrep.Matching.Replace

/-!
# What is printed of a file

The matches of a file are handed out line by line, with the lines around them as context. Where the
matches are replaced across lines, a block is handed out in place of the lines it covers, by as many
rows as its text has lines.

## Main definitions

* `Emit`: one row of output.
* `FileMatches`: the matches of a file: lines that match, or blocks.
* `FileMatches.ofHits`, `FileMatches.ofReps`: where they come from.
* `expandContextWindow`: the lines around some lines.
* `emitBlock`: the rows of a block.
* `FileMatches.forEach`: all rows.

## Main results

* `mem_expandContextWindow`: which lines are around some lines.
* `emitBlock_eq`: a block has rows, and each says which lines the block covers.

## Implementation notes

The rows are a list, where the code hands each of them to a function: an error in the list ends the
walk. How a replacement is expanded at the matches of a text is a parameter. The options are those
that this code reads. Numbers are natural numbers, and the only sum that may leave the machine word,
the end of a window, is taken modulo its size.
-/

namespace Tgrep

open Splice LineIndex Utf8 List

/-- The values of a machine word. -/
def usizeRange : ℕ := 2 ^ 64

/-- The length of the terminator of a line. -/
def LineIndex.lineTerminatorLen (content : List UInt8) (idx : ℕ) : ℕ :=
  nextStart content idx - lineEnd content idx

/-- The lines around some lines, each once. -/
def expandContextWindow (matchIndices : List ℕ) (totalLines before after : ℕ) : List ℕ :=
  Ascending.sortDedup id (matchIndices.flatMap fun mi =>
    let start := mi - before
    let stop := min ((mi + after + 1) % usizeRange) totalLines
    List.range' start (stop - start))

variable {after before totalLines : ℕ} {matchIndices : List ℕ}

/-- **Which lines are around some lines**, as long as the end of the first window fits a machine word.
A later end that does not fit loses nothing then, because the first window goes on to the end.

**Proof sketch.** Where the end of a window does not fit, the window is meant to go beyond all lines,
and so is the first one. -/
theorem mem_expandContextWindow (hasc : Ascending id matchIndices)
    (hlt : ∀ mi ∈ matchIndices, mi < totalLines) (htotal : totalLines < 2 ^ 63)
    (hfits : ∀ mi ∈ matchIndices.head?, mi + after + 1 < usizeRange) {i : ℕ} :
    i ∈ expandContextWindow matchIndices totalLines before after ↔
      i < totalLines ∧ ∃ mi ∈ matchIndices, mi ≤ i + before ∧ i ≤ mi + after := by
  have hword : usizeRange = 2 ^ 63 + 2 ^ 63 := by decide
  rw [expandContextWindow, Ascending.mem_sortDedup_id, mem_flatMap]
  constructor
  · rintro ⟨mi, hmi, hi⟩
    have hle := Nat.mod_le (mi + after + 1) usizeRange
    simp only [mem_range'_1] at hi
    exact ⟨by omega, mi, hmi, by omega, by omega⟩
  · rintro ⟨hi, mi, hmi, hbefore, hafter⟩
    obtain ⟨first, rest, rfl⟩ := exists_cons_of_ne_nil (ne_nil_of_mem hmi)
    have hfirst := hfits first rfl
    by_cases hmiFits : mi + after + 1 < usizeRange
    · refine ⟨mi, hmi, ?_⟩
      simp only [mem_range'_1, Nat.mod_eq_of_lt hmiFits]
      omega
    · have hle : first ≤ mi := by
        rcases List.mem_cons.mp hmi with rfl | hmi
        · exact le_rfl
        · exact ((List.pairwise_cons.mp hasc).1 mi hmi).le
      have hmiLt := hlt mi hmi
      refine ⟨first, mem_cons_self, ?_⟩
      simp only [mem_range'_1, Nat.mod_eq_of_lt hfirst]
      omega

/-- A row of a match. -/
structure MatchRow where
  lineNumber : ℕ
  content : List UInt8
  columns : List ℕ
  spans : List (ℕ × ℕ)
  absoluteOffset : ℕ
  lineOffset : ℕ
  columnShifts : List ℤ
  offsetShift : ℤ
  terminatorLen : ℕ
  block : Option (ℕ × ℕ)
  hidden : Bool
  replacements : Option (List (List UInt8))
  deriving DecidableEq

/-- One row of output: of a match, or of a line around one. -/
inductive Emit
  | matched (row : MatchRow)
  | context (lineNumber : ℕ) (content : List UInt8) (absoluteOffset terminatorLen : ℕ)
  deriving DecidableEq

/-- The options that decide what is printed. -/
structure PrintOptions where
  onlyMatching : Bool
  beforeContext : ℕ
  afterContext : ℕ
  passthru : Bool
  replace : Option (List UInt8)
  vimgrep : Bool

/-- The matches of a file. The lines that match ascend, and so do the blocks, which do not overlap;
all of them are lines of the content, which is no longer than a string can be. -/
structure FileMatches where
  content : List UInt8
  hits : List LineHit
  blocks : List ReplaceBlock
  replacements : List (List (List UInt8))
  content_lt : content.length < 2 ^ 63
  hits_ascending : Ascending LineHit.idx hits
  hits_lt : ∀ hit ∈ hits, hit.idx < lineCount content
  blocks_ascending : blocks.Pairwise fun a b => a.last < b.first
  blocks_ordered : ∀ block ∈ blocks, block.first ≤ block.last
  blocks_lt : ∀ block ∈ blocks, block.last < lineCount content

/-! ## Where matches come from -/

namespace FileMatches

/-- The matches of a search line by line. -/
def ofHits {isWord : Char → Prop} (content : Text) (matcher : SearchMatcher) (opts : MatchOptions)
    (hits : List LineHit) (replacements : List (List (List UInt8)))
    (hlen : content.bytes.length < 2 ^ 63)
    (hlawful : ∀ re, matcher = .standard re → re.Lawful isWord)
    (h : collectHits content matcher opts = .ok hits) : FileMatches where
  content := content.bytes
  hits := hits
  blocks := []
  replacements := replacements
  content_lt := hlen
  hits_ascending := (collectHits_eq_ok hlawful h).1
  hits_lt := (collectHits_eq_ok hlawful h).2
  blocks_ascending := List.Pairwise.nil
  blocks_ordered := fun _ h => absurd h not_mem_nil
  blocks_lt := fun _ h => absurd h not_mem_nil

/-- The blocks of matches across lines that are replaced. -/
def ofReps (content : List UInt8) (reps : List Expansion) (hlen : content.length < 2 ^ 63)
    (hne : content ≠ []) (h : Rewrite.Within 0 content.length reps) : FileMatches where
  content := content
  hits := []
  blocks := ReplaceBlock.build content reps
  replacements := []
  content_lt := hlen
  hits_ascending := List.Pairwise.nil
  hits_lt := fun _ h => absurd h not_mem_nil
  blocks_ascending := (ReplaceBlock.build_apart h).1.imp fun hlt => Nat.lt_of_succ_lt hlt
  blocks_ordered := (ReplaceBlock.build_apart h).2
  blocks_lt := fun _ hblock => ReplaceBlock.last_lt_of_mem_build h hne hblock

end FileMatches

/-! ## The rows of a block -/

namespace ReplaceBlock

/-- The offset of a byte. -/
def memchr (needle : UInt8) (haystack : List UInt8) : Option ℕ :=
  haystack.findIdx? (· == needle)

/-- Where the line of a text that starts at an offset ends, with its terminator. -/
def endOfLine (text : List UInt8) (pos : ℕ) : ℕ :=
  ((memchr 0x0A (text.drop pos)).map fun i => pos + i + 1).getD text.length

lemma lt_endOfLine {text : List UInt8} {pos : ℕ} (h : pos < text.length) :
    pos < endOfLine text pos := by
  rw [endOfLine]
  cases memchr 0x0A (text.drop pos) with
  | none => exact h
  | some i => exact Nat.lt_succ_of_le (Nat.le_add_right pos i)

/-- The lines of a text from an offset on: where each starts, where it ends without its terminator,
and where it ends with it. -/
def linesFrom (text : List UInt8) (pos : ℕ) : List (ℕ × ℕ × ℕ) :=
  if pos < text.length then
    let stop := endOfLine text pos
    (pos, trimEnd text 0x0D pos (trimEnd text 0x0A pos stop), stop) :: linesFrom text stop
  else []
termination_by text.length - pos
decreasing_by
  have hlt := @lt_endOfLine text pos ‹pos < text.length›
  omega

/-- The lines of the text of a block. -/
def lines (block : ReplaceBlock) : List (ℕ × ℕ × ℕ) := linesFrom block.text 0

/-- The lines of the source that a block stands for, counted from one. -/
def range (block : ReplaceBlock) : Option (ℕ × ℕ) := some (block.first + 1, block.last + 1)

/-- The part of a replacement that is inside of a range. -/
def piece (rep : Placed) (start stop : ℕ) : Option (ℕ × ℕ) :=
  let a := max rep.dst.1 start
  let b := min rep.dst.2 stop
  if a < b then some (a, b) else none

/-- What the replacements in front of each one have added. -/
def shiftsOf : ℤ → List Placed → List ℤ
  | _, [] => []
  | shift, rep :: reps => shift :: shiftsOf (shift + rep.delta) reps

/-- The rows of the parts of replacements, line by line. -/
def onlyMatchingRows (block : ReplaceBlock) : List MatchRow :=
  block.lines.zipIdx.flatMap fun ((start, stop, _), k) =>
    (block.reps.zip (shiftsOf 0 block.reps)).filterMap fun (rep, shift) =>
      (piece rep start stop).map fun (a, b) =>
        { lineNumber := block.first + 1 + k
          content := slice block.text a b
          columns := [rep.src.1 - block.start + 1]
          spans := [(0, b - a)]
          absoluteOffset := rep.src.1
          lineOffset := block.start
          columnShifts := [shift]
          offsetShift := shift
          terminatorLen := 0
          block := block.range
          hidden := false
          replacements := none }

/-- The first line that a replacement touches, for each one. -/
def vimgrepRows (block : ReplaceBlock) : List Placed → ℕ → SourceCursor → List MatchRow
  | [], _, _ => []
  | rep :: reps, k, cursor =>
    let k := k + ((block.lines.drop k).takeWhile fun line => decide (line.2.2 ≤ rep.dst.1)).length
    match block.lines[k]? with
    | none => []
    | some (start, stop, next) =>
      -- an empty replacement at the start of a line is on no line
      if rep.dst.2 ≤ start then vimgrepRows block reps k cursor
      else
        let source := (cursor.atPos start).1
        let column := rep.src.1 - source
        { lineNumber := block.first + 1 + k
          content := slice block.text start stop
          columns := [column + 1]
          spans := ((piece rep start stop).map fun (a, b) => (a - start, b - start)).toList
          absoluteOffset := source
          lineOffset := source
          columnShifts := [((rep.dst.1 - start : ℕ) : ℤ) - (column : ℤ)]
          offsetShift := ((block.start + start : ℕ) : ℤ) - (source : ℤ)
          terminatorLen := next - stop
          block := block.range
          hidden := false
          replacements := none } :: vimgrepRows block reps k (cursor.atPos start).2

/-- Every line of the text. -/
def plainRows (block : ReplaceBlock) (column : ℕ) :
    List (ℕ × ℕ × ℕ) → ℕ → SourceCursor → List MatchRow
  | [], _, _ => []
  | (start, stop, next) :: rest, k, cursor =>
    let source := (cursor.atPos start).1
    { lineNumber := block.first + 1 + k
      content := slice block.text start stop
      columns := [column]
      spans := (block.reps.filterMap fun rep => piece rep start stop).map fun (a, b) =>
        (a - start, b - start)
      absoluteOffset := source
      lineOffset := block.start
      columnShifts := []
      offsetShift := ((block.start + start : ℕ) : ℤ) - (source : ℤ)
      terminatorLen := next - stop
      block := block.range
      hidden := false
      replacements := none } :: plainRows block column rest (k + 1) (cursor.atPos start).2

/-- The row of a block of which nothing is left to print. -/
def hiddenRow (block : ReplaceBlock) : MatchRow where
  lineNumber := block.first + 1
  content := []
  columns := []
  spans := []
  absoluteOffset := block.start
  lineOffset := block.start
  columnShifts := []
  offsetShift := 0
  terminatorLen := 0
  block := block.range
  hidden := true
  replacements := none

/-- The rows of a block, if there are any. -/
def rows (block : ReplaceBlock) (opts : PrintOptions) : List MatchRow :=
  if opts.onlyMatching then block.onlyMatchingRows
  else if opts.vimgrep then block.vimgrepRows block.reps 0 (SourceCursor.new block)
  else
    let column := (block.reps.head?.map fun rep => rep.src.1 - block.start + 1).getD 1
    block.plainRows column block.lines 0 (SourceCursor.new block)

end ReplaceBlock

/-- The rows that are printed for a block. -/
def emitBlock (block : ReplaceBlock) (opts : PrintOptions) : List Emit :=
  let rows := block.rows opts
  (if rows = [] then [block.hiddenRow] else rows).map Emit.matched

namespace ReplaceBlock

variable {block : ReplaceBlock}

variable {k : ℕ} {cursor : SourceCursor} {row : MatchRow}

lemma block_vimgrepRows {reps : List Placed} (h : row ∈ block.vimgrepRows reps k cursor) :
    row.block = block.range := by
  induction reps generalizing k cursor with
  | nil => exact absurd h not_mem_nil
  | cons rep reps ih =>
    rw [vimgrepRows] at h
    dsimp only at h
    split at h
    · exact absurd h not_mem_nil
    · split_ifs at h
      · exact ih h
      · rcases mem_cons.mp h with rfl | h
        · rfl
        · exact ih h

lemma block_plainRows {column : ℕ} {lines : List (ℕ × ℕ × ℕ)}
    (h : row ∈ block.plainRows column lines k cursor) : row.block = block.range := by
  induction lines generalizing k cursor with
  | nil => exact absurd h not_mem_nil
  | cons line lines ih =>
    obtain ⟨start, stop, next⟩ := line
    rw [plainRows] at h
    rcases mem_cons.mp h with rfl | h
    · rfl
    · exact ih h

lemma block_onlyMatchingRows (h : row ∈ block.onlyMatchingRows) : row.block = block.range := by
  rw [onlyMatchingRows] at h
  obtain ⟨⟨⟨start, stop, next⟩, k⟩, -, h⟩ := mem_flatMap.mp h
  obtain ⟨⟨rep, shift⟩, -, h⟩ := mem_filterMap.mp h
  obtain ⟨⟨a, b⟩, -, rfl⟩ := Option.map_eq_some_iff.mp h
  rfl

/-- Every row of a block says which lines the block covers. -/
lemma block_rows {opts : PrintOptions} (h : row ∈ block.rows opts) : row.block = block.range := by
  rw [rows] at h
  split_ifs at h
  · exact block_onlyMatchingRows h
  · exact block_vimgrepRows h
  · exact block_plainRows h

end ReplaceBlock

/-- **The rows of a block**: there is one, and each says which lines the block covers. -/
theorem emitBlock_eq (block : ReplaceBlock) (opts : PrintOptions) :
    ∃ rows : List MatchRow, rows ≠ [] ∧ emitBlock block opts = rows.map Emit.matched ∧
      ∀ row ∈ rows, row.block = some (block.first + 1, block.last + 1) := by
  rw [emitBlock]
  split_ifs with hnone
  · refine ⟨_, cons_ne_nil _ _, rfl, fun row hrow => ?_⟩
    obtain rfl := mem_singleton.mp hrow
    rfl
  · exact ⟨_, hnone, rfl, fun row hrow => ReplaceBlock.block_rows hrow⟩

/-! ## The rows of a file -/

namespace FileMatches

variable (found : FileMatches) (opts : PrintOptions)
  (expansions : List UInt8 → List UInt8 → Except String (List Expansion))

/-- A text with every match replaced, and where the replacements are. -/
def replaceLine (hay replacement : List UInt8) :
    Except String (List UInt8 × List (ℕ × ℕ)) := do
  let reps ← expansions hay replacement
  let out := reps.foldl (ReplaceBlock.Copying.push hay) ⟨[], [], 0⟩
  pure (out.text ++ slice hay out.pos hay.length, out.reps.map Placed.dst)

/-- The rows of the replacements of a line, where each has moved by what those in front added. -/
def replacedRows (hit : LineHit) : ℤ → List Expansion → List MatchRow
  | _, [] => []
  | shift, (s, e, text) :: reps =>
    let offset := lineStart found.content hit.idx
    { lineNumber := hit.idx + 1
      content := text
      columns := [s + 1]
      spans := [(0, text.length)]
      absoluteOffset := offset + s
      lineOffset := offset
      columnShifts := [shift]
      offsetShift := shift
      terminatorLen := 0
      block := none
      hidden := false
      replacements := none } :: replacedRows hit (shift + (text.length - ((e - s : ℕ) : ℤ))) reps

/-- The row of a match alone. -/
def matchedRow (hit : LineHit) (span : ℕ × ℕ) : MatchRow :=
  let line := lineText found.content hit.idx
  let offset := lineStart found.content hit.idx
  let text := slice line span.1 span.2
  { lineNumber := hit.idx + 1
    content := text
    columns := [span.1 + 1]
    spans := [(0, text.length)]
    absoluteOffset := offset + span.1
    lineOffset := offset
    columnShifts := []
    offsetShift := 0
    terminatorLen := 0
    block := none
    hidden := false
    replacements := none }

/-- The row of a line that matches, with a text in its place. -/
def lineRow (hit : LineHit) (content : List UInt8) (spans : List (ℕ × ℕ)) (columnShifts : List ℤ)
    (replacements : Option (List (List UInt8))) : MatchRow :=
  let offset := lineStart found.content hit.idx
  { lineNumber := hit.idx + 1
    content := content
    columns := hit.spans.map fun span => span.1 + 1
    spans := spans
    absoluteOffset := offset
    lineOffset := offset
    columnShifts := columnShifts
    offsetShift := 0
    terminatorLen := lineTerminatorLen found.content hit.idx
    block := none
    hidden := false
    replacements := replacements }

/-- How far each match of a line has moved. -/
def columnShifts (hit : LineHit) (spans : List (ℕ × ℕ)) : List ℤ :=
  hit.spans.zipIdx.map fun (span, i) =>
    (spans[i]?.map fun new => (new.1 : ℤ) - (span.1 : ℤ)).getD 0

/-- The replacements that are reported for a line. -/
def replacementsOf (hit : LineHit) : Option (List (List UInt8)) := do
  let i ← found.hits.findIdx? fun other => other.idx == hit.idx
  found.replacements[i]?

/-- The rows of a line that matches. -/
def emitHit (hit : LineHit) : List (Except String Emit) :=
  let line := lineText found.content hit.idx
  match (found.replacementsOf hit).filter fun _ => !hit.spans.isEmpty with
  | some texts => [.ok (.matched (found.lineRow hit line hit.spans [] (some texts)))]
  | none =>
    if opts.onlyMatching && !hit.spans.isEmpty then
      match opts.replace with
      | some rep =>
        match expansions line rep with
        | .ok reps => (found.replacedRows hit 0 reps).map fun row => .ok (.matched row)
        | .error e => [.error e]
      | none => hit.spans.map fun span => .ok (.matched (found.matchedRow hit span))
    else
      match opts.replace.filter fun _ => !hit.spans.isEmpty with
      | some rep =>
        match replaceLine expansions line rep with
        | .ok (text, spans) =>
          [.ok (.matched (found.lineRow hit text spans (columnShifts hit spans) none))]
        | .error e => [.error e]
      | none => [.ok (.matched (found.lineRow hit line hit.spans [] none))]

/-- The row of a line that does not match. -/
def contextLine (li : ℕ) : Emit :=
  .context (li + 1) (lineText found.content li) (lineStart found.content li)
    (lineTerminatorLen found.content li)

/-- The rows of a line, which may match. -/
def emitLine (li : ℕ) : List (Except String Emit) :=
  match found.hits.find? fun hit => hit.idx == li with
  | some hit => found.emitHit opts expansions hit
  | none => [.ok (found.contextLine li)]

/-- The rows of blocks and of all lines between them, from a line on. -/
def passBlocks : ℕ → List ReplaceBlock → List Emit
  | li, [] => (List.range' li (lineCount found.content - li)).map found.contextLine
  | li, block :: blocks =>
    (List.range' li (block.first - li)).map found.contextLine ++ emitBlock block opts ++
      passBlocks (block.last + 1) blocks

/-- The rows of some lines, with blocks in place of theirs. -/
def windowBlocks : List ℕ → Option ℕ → List ReplaceBlock → List Emit
  | [], _, _ => []
  | li :: rest, insideUntil, blocks =>
    if insideUntil.any fun last => decide (li ≤ last) then windowBlocks rest insideUntil blocks
    else
      match blocks with
      | [] => found.contextLine li :: windowBlocks rest insideUntil []
      | block :: blocks =>
        if block.first = li then
          emitBlock block opts ++ windowBlocks rest (some block.last) blocks
        else found.contextLine li :: windowBlocks rest insideUntil (block :: blocks)

/-- The lines that a block covers. -/
def blockLines (block : ReplaceBlock) : List ℕ :=
  List.range' block.first (block.last + 1 - block.first)

/-- The rows of blocks. -/
def forEachBlock : List Emit :=
  if opts.passthru then found.passBlocks opts 0 found.blocks
  else if opts.beforeContext = 0 ∧ opts.afterContext = 0 then
    found.blocks.flatMap fun block => emitBlock block opts
  else
    let printed := expandContextWindow (found.blocks.flatMap blockLines)
      (lineCount found.content) opts.beforeContext opts.afterContext
    found.windowBlocks opts printed none found.blocks

/-- All rows, one after another. -/
def forEach : List (Except String Emit) :=
  if found.blocks ≠ [] then (found.forEachBlock opts).map Except.ok
  else if opts.passthru then
    (List.range (lineCount found.content)).flatMap (found.emitLine opts expansions)
  else if opts.beforeContext = 0 ∧ opts.afterContext = 0 then
    found.hits.flatMap (found.emitHit opts expansions)
  else
    let printed := expandContextWindow (found.hits.map LineHit.idx) (lineCount found.content)
      opts.beforeContext opts.afterContext
    printed.flatMap (found.emitLine opts expansions)

end FileMatches

end Tgrep
