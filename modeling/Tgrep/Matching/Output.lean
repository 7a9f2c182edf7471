import Tgrep.Matching.Context

/-!
# Lines and separators

Where lines around matches are asked for, a separator is written between rows that are not next to
each other in the file. The writer only knows the rows as they come: it keeps the last line that it
has printed, and a block counts as the lines it covers.

## Main definitions

* `OutputWriter`: what the writer keeps, and what it has written.
* `OutputWriter.writeContextSeparator`: the check in front of each row.
* `OutputWriter.print`: the check and the row.
* `Emit.range`: the lines of the source that a row stands for.

## Main results

* `OutputWriter.lastPrintedLine_print`: the writer remembers the last line of the source.
* `OutputWriter.writeContextSeparator_after`: when a separator is written.
* `FileMatches.forEach_prints`: each line is printed once, with separators where lines are missing.

## Implementation notes

What is written is kept as a list of what each line is; how a row is laid out (its prefix, colours,
trimming, a limit of columns, one row for each column) and the statistics are left out. Writing does
not fail.
-/

namespace Tgrep

inductive OutputFormat
  | heading | flat | json | vimgrep | filesOnly | count
  deriving DecidableEq

structure OutputConfig where
  format : OutputFormat
  noFilename : Bool
  context : Bool
  contextSeparator : Option String
  eagerFileSeparator : Bool
  deriving DecidableEq

/-- What is written. -/
inductive Written
  | separator (sep : String)
  | blank
  | heading (file : String)
  | jsonBegin (file : String)
  | jsonEnd (file : String)
  | matched (file : String) (row : MatchRow)
  | context (file : String) (lineNumber : ℕ) (content : List UInt8)
  deriving DecidableEq

/-- What the writer keeps, and what it has written. -/
structure OutputWriter where
  config : OutputConfig
  useHeading : Bool
  currentFile : Option String
  lastPrintedLine : Option (String × ℕ)
  printedAny : Bool
  pendingFileSeparator : Bool
  out : List Written
  deriving DecidableEq

/-- The lines of the source that a row stands for, counted from one. -/
def Emit.range : Emit → ℕ × ℕ
  | .matched row => row.block.getD (row.lineNumber, row.lineNumber)
  | .context lineNumber _ _ _ => (lineNumber, lineNumber)

namespace OutputWriter

variable (w : OutputWriter)

def isJson : Bool := w.config.format == .json

/-- The separator of two files that has not been written yet. -/
def pendingSeparator : List Written :=
  if w.pendingFileSeparator then (w.config.contextSeparator.map Written.separator).toList else []

def writePendingFileSeparator : OutputWriter :=
  { w with pendingFileSeparator := false, out := w.out ++ w.pendingSeparator }

/-- The check in front of a row. -/
def writeContextSeparator (file : String) (lineNum : ℕ) : OutputWriter :=
  if w.isJson || !w.config.context then w
  else
    match w.config.contextSeparator, w.lastPrintedLine with
    | some sep, some (lastFile, lastLine) =>
      let gapWithinFile := lastFile == file && decide (lastLine + 1 < lineNum)
      let newFile := lastFile != file && !w.useHeading && w.printedAny
      if newFile && !w.config.eagerFileSeparator then { w with pendingFileSeparator := true }
      else if gapWithinFile || newFile then
        let w := w.writePendingFileSeparator
        { w with out := w.out ++ [.separator sep], printedAny := true }
      else w
    | _, _ => w

def finishJsonFile : OutputWriter :=
  match w.currentFile with
  | none => w
  | some file => { w with currentFile := none, out := w.out ++ [.jsonEnd file] }

def ensureJsonBegin (file : String) : OutputWriter :=
  if w.currentFile = some file then w
  else
    let w := w.finishJsonFile
    { w with currentFile := some file, lastPrintedLine := none, out := w.out ++ [.jsonBegin file] }

def ensureHeading (file : String) : OutputWriter :=
  if !w.useHeading then w
  else if w.currentFile = some file then w
  else
    let blank := if w.currentFile.isSome then [Written.blank] else []
    { w with
      currentFile := some file, lastPrintedLine := none, printedAny := true
      out := w.out ++ blank ++ [.heading file] }

/-- The heading of a file, unless file names are not printed. -/
def ensureNamed (file : String) : OutputWriter :=
  if w.config.noFilename then w else w.ensureHeading file

def writeContextLine (file : String) (lineNumber : ℕ) (content : List UInt8) : OutputWriter :=
  if w.isJson then
    let w := w.ensureJsonBegin file
    { w with
      lastPrintedLine := some (file, lineNumber), out := w.out ++ [.context file lineNumber content] }
  else
    let w := w.writePendingFileSeparator.ensureNamed file
    { w with
      printedAny := true, lastPrintedLine := some (file, lineNumber)
      out := w.out ++ [.context file lineNumber content] }

/-- The row of a match, as the format has it. -/
def writeRow (file : String) (row : MatchRow) : OutputWriter :=
  match w.config.format with
  | .heading | .flat =>
    { w.ensureNamed file with out := (w.ensureNamed file).out ++ [Written.matched file row] }
  | .vimgrep => { w with out := w.out ++ [Written.matched file row] }
  | .json =>
    { w.ensureJsonBegin file with out := (w.ensureJsonBegin file).out ++ [Written.matched file row] }
  | .filesOnly | .count => w

def writeMatch (file : String) (row : MatchRow) : OutputWriter :=
  let lastLine := (row.block.map Prod.snd).getD row.lineNumber
  if row.hidden then
    let w := if w.config.format = .heading ∨ w.config.format = .flat then w.ensureNamed file else w
    { w with lastPrintedLine := some (file, lastLine) }
  else
    { w.writePendingFileSeparator.writeRow file row with
      printedAny := true, lastPrintedLine := some (file, lastLine) }

/-- The check and the row. A block stands where its first line is. -/
def print (file : String) (w : OutputWriter) : Emit → OutputWriter
  | .matched row =>
    (w.writeContextSeparator file ((row.block.map Prod.fst).getD row.lineNumber)).writeMatch file row
  | .context lineNumber content _ _ =>
    (w.writeContextSeparator file lineNumber).writeContextLine file lineNumber content

/-- Separators are written: context is asked for in text, and there is a separator. -/
structure Separates (sep : String) : Prop where
  text : w.isJson = false
  context : w.config.context = true
  separator : w.config.contextSeparator = some sep

variable {w}

/-! ## What printing keeps -/

variable (file : String)

lemma config_writeContextSeparator (lineNum : ℕ) :
    (w.writeContextSeparator file lineNum).config = w.config := by
  rw [writeContextSeparator]
  split_ifs
  · rfl
  · split
    · dsimp only
      split_ifs <;> rfl
    · rfl

lemma config_ensureNamed : (w.ensureNamed file).config = w.config := by
  rw [ensureNamed, ensureHeading]
  split_ifs <;> rfl

lemma config_ensureJsonBegin : (w.ensureJsonBegin file).config = w.config := by
  rw [ensureJsonBegin, finishJsonFile]
  split_ifs
  · rfl
  · cases w.currentFile <;> rfl

lemma config_writeContextLine (lineNumber : ℕ) (content : List UInt8) :
    (w.writeContextLine file lineNumber content).config = w.config := by
  rw [writeContextLine]
  split_ifs
  · exact config_ensureJsonBegin file
  · exact config_ensureNamed file

lemma config_writeRow (row : MatchRow) : (w.writeRow file row).config = w.config := by
  rw [writeRow]
  split
  · exact config_ensureNamed file
  · exact config_ensureNamed file
  · rfl
  · exact config_ensureJsonBegin file
  · rfl
  · rfl

lemma config_writeMatch (row : MatchRow) : (w.writeMatch file row).config = w.config := by
  rw [writeMatch]
  dsimp only
  split_ifs
  · exact config_ensureNamed file
  · rfl
  · exact config_writeRow file row

lemma config_print (emit : Emit) : (w.print file emit).config = w.config := by
  cases emit with
  | matched row => exact (config_writeMatch file row).trans (config_writeContextSeparator file _)
  | context lineNumber content offset len =>
    exact (config_writeContextLine file lineNumber content).trans
      (config_writeContextSeparator file _)

lemma config_foldl (emits : List Emit) : (emits.foldl (print file) w).config = w.config := by
  induction emits generalizing w with
  | nil => rfl
  | cons emit emits ih => exact ih.trans (config_print file emit)

/-- **The writer remembers** the last line of the source of what it has printed. -/
theorem lastPrintedLine_print (emit : Emit) :
    (w.print file emit).lastPrintedLine = some (file, emit.range.2) := by
  cases emit with
  | matched row =>
    have hlast : (row.block.map Prod.snd).getD row.lineNumber =
        (row.block.getD (row.lineNumber, row.lineNumber)).2 := by
      cases row.block <;> rfl
    rw [print, writeMatch, Emit.range, ← hlast]
    dsimp only
    split_ifs <;> rfl
  | context lineNumber content offset len =>
    rw [print, writeContextLine]
    split_ifs <;> rfl

/-! ## Separators -/

/-- **A separator** is written in front of a row of the same file if and only if lines are missing
between the two, and nothing else is, but a separator of two files that was put off. -/
theorem writeContextSeparator_same {sep file : String} {last lineNum : ℕ} (h : w.Separates sep)
    (hlast : w.lastPrintedLine = some (file, last)) :
    (w.writeContextSeparator file lineNum).out =
      w.out ++ if last + 1 < lineNum then w.pendingSeparator ++ [.separator sep] else [] := by
  have hon : (w.isJson || !w.config.context) = false := by rw [h.text, h.context]; rfl
  have hnew : (file != file && !w.useHeading && w.printedAny) = false := by
    rw [bne_self_eq_false, Bool.false_and, Bool.false_and]
  rw [writeContextSeparator, if_neg (by rw [hon]; exact Bool.false_ne_true), h.separator, hlast]
  dsimp only
  rw [hnew, Bool.false_and, if_neg Bool.false_ne_true, beq_self_eq_true, Bool.true_and,
    Bool.or_false]
  by_cases hgap : last + 1 < lineNum
  · rw [if_pos (decide_eq_true hgap), if_pos hgap, ← List.append_assoc]
    rfl
  · rw [if_neg (by simpa using hgap), if_neg hgap, List.append_nil]

/-- **Between two rows** of a file. -/
theorem writeContextSeparator_after {sep : String} (h : w.Separates sep) (file : String)
    (front : List Emit) (a b : Emit) :
    (((front ++ [a]).foldl (print file) w).writeContextSeparator file b.range.1).out =
      ((front ++ [a]).foldl (print file) w).out ++
        if a.range.2 + 1 < b.range.1 then
          ((front ++ [a]).foldl (print file) w).pendingSeparator ++ [.separator sep]
        else [] := by
  have hconfig := @config_foldl w file (front ++ [a])
  refine writeContextSeparator_same ⟨?_, ?_, ?_⟩ ?_
  · rw [isJson, hconfig]
    exact h.text
  · rw [hconfig, h.context]
  · rw [hconfig, h.separator]
  · rw [List.foldl_append, List.foldl_cons, List.foldl_nil, lastPrintedLine_print]

end OutputWriter

namespace FileMatches

open OutputWriter List

variable {found : FileMatches} {opts : PrintOptions}
  {expansions : List UInt8 → List UInt8 → Except String (List Expansion)}

/-- A row stands for the lines of its item. -/
lemma range_of_rows {item : Item} {rows : List (Except String Emit)} (h : RowsOf found item rows)
    {emit : Emit} (hemit : .ok emit ∈ rows) : emit.range = (item.first + 1, item.last + 1) := by
  cases item with
  | context li =>
    rw [RowsOf] at h
    subst h
    obtain rfl := Except.ok.inj (mem_singleton.mp hemit)
    rfl
  | hit hit =>
    rcases h with ⟨row, rfl, hline, hblock⟩ | ⟨e, rfl⟩
    · obtain rfl := Except.ok.inj (mem_singleton.mp hemit)
      rw [Emit.range, hblock, hline]
      rfl
    · cases mem_singleton.mp hemit
  | block block =>
    obtain ⟨matched, -, rfl, hrange⟩ := h
    obtain ⟨row, hrow, heq⟩ := mem_map.mp hemit
    obtain rfl := Except.ok.inj heq
    rw [Emit.range, hrange row hrow]
    rfl

/-- **Each line is printed once, with separators where lines are missing.** What is printed is made of
items. They cover the lines that are asked for, in order and each once: all lines, or those within the
distance of one that matches. A line is a context line exactly if it does not match; a line that
matches has one row, and a block stands in place of the lines it covers, by rows that say so. And where
separators are written, one is written between two rows of the file exactly if there are lines between
those that they stand for.

**Proof sketch.** The loops for a whole file, for blocks alone and for windows all are the loop over
the lines that are asked for, with blocks in place of theirs. A row says which lines it stands for,
and the writer remembers the last of them. -/
theorem forEach_prints (honly : opts.onlyMatching = false) (h : found.Fits opts) :
    (∃ items, found.Items opts expansions items ∧ Ascending id (items.flatMap Item.lines) ∧
        ((∀ i, .context i ∈ items ↔ i ∈ found.shownLines opts ∧ i ∉ found.targets) ∧
          (found.blocks = [] → ∀ hit ∈ found.hits, .hit hit ∈ items) ∧
          ∀ block ∈ found.blocks, .block block ∈ items) ∧
        ∀ item ∈ items, RowsOf found item (item.rows found opts expansions) ∧
          ∀ emit, .ok emit ∈ item.rows found opts expansions →
            emit.range = (item.first + 1, item.last + 1)) ∧
      ∀ (w : OutputWriter) (sep file : String), w.Separates sep →
        ∀ (front : List Emit) (a b : Emit) (rest : List (Except String Emit)),
          found.forEach opts expansions = (front ++ [a, b]).map Except.ok ++ rest →
          (((front ++ [a]).foldl (print file) w).writeContextSeparator file b.range.1).out =
            ((front ++ [a]).foldl (print file) w).out ++
              if a.range.2 + 1 < b.range.1 then
                ((front ++ [a]).foldl (print file) w).pendingSeparator ++ [.separator sep]
              else [] := by
  obtain ⟨items, hitems⟩ := @forEach_items found opts expansions h
  refine ⟨⟨items, hitems, ?_, hitems.covers, fun item _ => ?_⟩, ?_⟩
  · rw [hitems.lines]
    exact ascending_shownLines found opts
  · have hrows := @rows_of found opts expansions honly item
    exact ⟨hrows, fun emit hemit => range_of_rows hrows hemit⟩
  · exact fun w sep file hsep front a b _ _ => writeContextSeparator_after hsep file front a b

/-- No blocks are apart. -/
lemma ascending_noBlocks : ([] : List ReplaceBlock).Pairwise fun a b => a.last < b.first := .nil

/-- No blocks are in order. -/
lemma ordered_noBlocks : ∀ block ∈ ([] : List ReplaceBlock), block.first ≤ block.last := by
  decide

/-- Four lines, of which the first and the last match. -/
def fourLines : FileMatches where
  content := [97, 10, 98, 10, 99, 10, 97]
  hits := [⟨0, [(0, 1)]⟩, ⟨3, [(0, 1)]⟩]
  blocks := []
  replacements := []
  content_lt := by decide
  hits_ascending := List.pairwise_cons.mpr ⟨by simp, List.pairwise_singleton _ _⟩
  hits_lt := by decide
  blocks_ascending := ascending_noBlocks
  blocks_ordered := ordered_noBlocks
  blocks_lt := by decide

/-- One line behind each match. -/
def oneBehind : PrintOptions := ⟨false, 0, 1, false, none, false⟩

/-- A writer that has not printed anything, and is asked for context. -/
def startWriter (format : OutputFormat) : OutputWriter :=
  ⟨⟨format, false, true, some "--", false⟩, false, none, none, false, false, []⟩

def noExpansions : List UInt8 → List UInt8 → Except String (List Expansion) := fun _ _ => .ok []

/-- The rows of a line that matches and of one around. -/
def rowA (li offset terminatorLen : ℕ) : Emit :=
  .matched ⟨li + 1, [97], [1], [(0, 1)], offset, offset, [], 0, terminatorLen, none, false, none⟩

def rowB : Emit := .context 2 [98] 2 1

lemma fits_fourLines : fourLines.Fits oneBehind := by
  refine .inr (.inr fun t ht => ?_)
  obtain rfl := Option.some.inj (Option.mem_def.mp ht)
  decide

lemma forEach_fourLines :
    fourLines.forEach oneBehind noExpansions =
      ([rowA 0 0 1] ++ [rowB, rowA 3 6 0]).map Except.ok ++ [] := by
  decide +kernel

/-- A separator is written in front of the last line. -/
theorem forEach_prints_fourLines :
    (∃ items, fourLines.Items oneBehind noExpansions items) ∧
      ((([rowA 0 0 1] ++ [rowB]).foldl (print "f") (startWriter .flat)).writeContextSeparator "f"
          4).out =
        (([rowA 0 0 1] ++ [rowB]).foldl (print "f") (startWriter .flat)).out ++ [.separator "--"] := by
  obtain ⟨⟨items, hitems, -⟩, hsep⟩ :=
    @forEach_prints fourLines oneBehind noExpansions rfl fits_fourLines
  refine ⟨⟨items, hitems⟩, ?_⟩
  exact hsep (startWriter .flat) "--" "f" ⟨rfl, rfl, rfl⟩ [rowA 0 0 1] rowB (rowA 3 6 0) []
    forEach_fourLines

/-- **JSON has no separators**, although context is asked for and lines are missing. -/
theorem no_separator_in_json :
    oneBehind.onlyMatching = false ∧ fourLines.Fits oneBehind ∧
      (startWriter .json).config.context = true ∧
      fourLines.forEach oneBehind noExpansions =
        ([rowA 0 0 1] ++ [rowB, rowA 3 6 0]).map Except.ok ++ [] ∧
      rowB.range.2 + 1 < (rowA 3 6 0).range.1 ∧
      ((([rowA 0 0 1] ++ [rowB]).foldl (print "f") (startWriter .json)).writeContextSeparator "f"
          (rowA 3 6 0).range.1).out =
        (([rowA 0 0 1] ++ [rowB]).foldl (print "f") (startWriter .json)).out :=
  ⟨rfl, fits_fourLines, rfl, forEach_fourLines, by decide, by decide⟩

end FileMatches

end Tgrep
