import Tgrep.Build.ForFiles
import Tgrep.Data.Splice
import Tgrep.Data.Utf8

/-!
# Decoding files

Files are searched and indexed as text: a byte order mark is skipped, text in another encoding is
transcoded, and in bytes that are taken for UTF-8 every maximal invalid sequence is replaced.

## Main definitions

* `Encoding.forBom`, `EncodingMode`: encodings, and which of them a file is read in.
* `LossyFixups`: where invalid bytes were replaced, and what they were.
* `lossyUtf8Into`, `lossyUtf8Shape`: the repair of bytes, and what it is measured to yield.
* `decodeWithFixups`, `decodeOwnedWithFixups`: the text that is searched.
* `decodeForIndex`: the bytes that are indexed.
* `repairPieces`: the pieces that the repair keeps, and those that it replaces.

## Main results

* `lossyUtf8Into_eq`: what the repair yields, piece by piece.
* `lossyUtf8Shape_eq`: what it is measured to yield.
-/

namespace Tgrep

open Utf8 Splice List Option

/-! ## Encodings -/

/-- The encodings of files. -/
inductive Encoding
  | utf8
  | utf16le
  | utf16be
  /-- Any other one. -/
  | other (name : String)
  deriving DecidableEq

/-- The encoding that a byte order mark names, and the length of the mark. -/
def Encoding.forBom (bytes : List UInt8) : Option (Encoding × ℕ) :=
  if [0xEF, 0xBB, 0xBF].isPrefixOf bytes then some (.utf8, 3)
  else if [0xFF, 0xFE].isPrefixOf bytes then some (.utf16le, 2)
  else if [0xFE, 0xFF].isPrefixOf bytes then some (.utf16be, 2)
  else none

/-- How the bytes of a file are turned into text. -/
inductive EncodingMode
  | auto
  | none
  | explicit (enc : Encoding)
  deriving DecidableEq

/-- Bytes that are those of the file, or others. -/
inductive Cow
  | borrowed (bytes : List UInt8)
  | owned (bytes : List UInt8)
  deriving DecidableEq

/-- The bytes. -/
def Cow.bytes : Cow → List UInt8
  | .borrowed bytes | .owned bytes => bytes

/-- The bytes of a file that are searched, with a function that transcodes. -/
def decodeBytes (transcode : Encoding → List UInt8 → Text) (bytes : List UInt8)
    (mode : EncodingMode) : Cow :=
  let decodeBody (enc : Encoding) (body : List UInt8) : Cow :=
    if enc = .utf8 then .borrowed body else .owned (transcode enc body).bytes
  match mode with
  | .none => .borrowed bytes
  | .auto =>
    match Encoding.forBom bytes with
    | some (enc, bomLen) => decodeBody enc (bytes.drop bomLen)
    | none => .borrowed bytes
  | .explicit enc =>
    match Encoding.forBom bytes with
    | some (bomEnc, bomLen) => decodeBody bomEnc (bytes.drop bomLen)
    | none => decodeBody enc bytes

/-- Whether the bytes that are searched are those of the file. -/
def borrowsWholeInput (bytes : List UInt8) : EncodingMode → Bool
  | .none => true
  | .auto => (Encoding.forBom bytes).isNone
  | .explicit enc => (Encoding.forBom bytes).isNone && decide (enc = .utf8)

/-! ## Repair -/

/-- The replacement of invalid bytes. -/
def REPLACEMENT_CHARACTER : List UInt8 := [0xEF, 0xBF, 0xBD]

/-- Its length. -/
def REPLACEMENT_LEN : ℕ := 3

/-- Where invalid bytes were replaced. -/
structure LossyFixups where
  /-- Where each replacement is in the text, and how many bytes the text has gained up to it. -/
  shifts : List (ℕ × ℕ) := []
  /-- The bytes that were replaced. -/
  replaced : List UInt8 := []
  deriving DecidableEq

/-- Valid bytes, and nothing if they are not. -/
def validOrDefault (bytes : List UInt8) : List UInt8 := if Valid bytes then bytes else []

/-- The rest behind bytes that cannot begin a character is shorter. -/
lemma length_drop_error {rest : List UInt8} {err : Utf8.Error} {n : ℕ}
    (h : fromUtf8 rest = some err) (hn : err.errorLen = some n) :
    (rest.drop (err.validUpTo + n)).length < rest.length := by
  obtain ⟨hpos, -, hle⟩ := replaced_bounds h
  rw [Utf8.Error.replaced, hn, getD_some] at hpos hle
  rw [length_drop]
  omega

/-- Replace one invalid sequence after the other. -/
def lossyUtf8Loop (rest out : List UInt8) (gained : ℕ) (fixups : Option LossyFixups) :
    List UInt8 × Option LossyFixups :=
  match _herr : fromUtf8 rest with
  | none => (out ++ rest, fixups)
  | some err =>
    let valid := err.validUpTo
    let out := out ++ validOrDefault (rest.take valid)
    -- without a length the string ends within a sequence, and all that is left is replaced
    let replaced := err.errorLen.getD (rest.length - valid)
    let gained := gained + (REPLACEMENT_LEN - min replaced REPLACEMENT_LEN)
    let fixups := fixups.map fun f =>
      { shifts := f.shifts ++ [(out.length, gained)]
        replaced := f.replaced ++ (rest.drop valid).take (min replaced REPLACEMENT_LEN) }
    match _hlen : err.errorLen with
    | some n =>
      lossyUtf8Loop (rest.drop (valid + n)) (out ++ REPLACEMENT_CHARACTER) gained fixups
    | none => (out ++ REPLACEMENT_CHARACTER, fixups)
termination_by rest.length
decreasing_by exact length_drop_error _herr _hlen

/-- Replace invalid bytes, and record where, if asked to. -/
def lossyUtf8Into (bytes : List UInt8) (fixups : Option LossyFixups) :
    List UInt8 × Option LossyFixups :=
  if Valid bytes then (bytes, fixups) else lossyUtf8Loop bytes [] 0 fixups

/-- Measure what the repair yields. -/
def lossyUtf8ShapeLoop (rest : List UInt8) (len repairs : ℕ) : ℕ × ℕ :=
  match _herr : fromUtf8 rest with
  | none => (len + rest.length, repairs)
  | some err =>
    let valid := err.validUpTo
    match _hlen : err.errorLen with
    | some n =>
      lossyUtf8ShapeLoop (rest.drop (valid + n)) (len + (valid + REPLACEMENT_LEN)) (repairs + 1)
    | none => (len + (valid + REPLACEMENT_LEN), repairs + 1)
termination_by rest.length
decreasing_by exact length_drop_error _herr _hlen

/-- The length of the repaired text, and the number of replacements. -/
def lossyUtf8Shape (bytes : List UInt8) : ℕ × ℕ := lossyUtf8ShapeLoop bytes 0 0

/-! ## The pieces of a repair -/

/-- The pieces that the repair keeps, each with the bytes that it replaces, and what is left. -/
def repairPieces (rest : List UInt8) : Pieces UInt8 × List UInt8 :=
  match _herr : fromUtf8 rest with
  | none => ([], rest)
  | some err =>
    match _hlen : err.errorLen with
    | some n =>
      let pieces := repairPieces (rest.drop (err.validUpTo + n))
      ((rest.take err.validUpTo, (rest.drop err.validUpTo).take n) :: pieces.1, pieces.2)
    | none => ([(rest.take err.validUpTo, rest.drop err.validUpTo)], [])
termination_by rest.length
decreasing_by exact length_drop_error _herr _hlen

/-- What the repair keeps is valid, and what it replaces is one to three bytes. -/
structure Repairable (pieces : Pieces UInt8) (tail : List UInt8) : Prop where
  kept : ∀ piece ∈ pieces, Valid piece.1
  lost : ∀ piece ∈ pieces, 0 < piece.2.length ∧ piece.2.length ≤ 3
  tail : Valid tail

variable (rest bytes : List UInt8)

/-- The pieces are those of the bytes. -/
lemma sourceOf_repairPieces : sourceOf (repairPieces rest).1 ++ (repairPieces rest).2 = rest := by
  fun_induction repairPieces rest with
  | case1 rest herr => rfl
  | case2 rest err herr n hlen pieces ih =>
    dsimp only at ih ⊢
    rw [sourceOf_cons, append_assoc, ih, ← drop_drop, append_assoc,
      take_append_drop, take_append_drop]
  | case3 rest err herr hlen =>
    simp

lemma repairable_repairPieces : Repairable (repairPieces rest).1 (repairPieces rest).2 := by
  fun_induction repairPieces rest with
  | case1 rest herr => exact ⟨forall_mem_nil _, forall_mem_nil _, herr⟩
  | case2 rest err herr n hlen pieces ih =>
    obtain ⟨hle, hvalid, -⟩ := fromUtf8_cases herr
    obtain ⟨hpos, hthree, hroom⟩ := replaced_bounds herr
    rw [Utf8.Error.replaced, hlen, getD_some] at hpos hthree hroom
    refine ⟨List.forall_mem_cons.mpr ⟨hvalid, ih.kept⟩, List.forall_mem_cons.mpr ⟨?_, ih.lost⟩,
      ih.tail⟩
    dsimp only
    rw [length_take, length_drop]
    omega
  | case3 rest err herr hlen =>
    obtain ⟨hle, hvalid, -⟩ := fromUtf8_cases herr
    obtain ⟨hpos, hthree, hroom⟩ := replaced_bounds herr
    rw [Utf8.Error.replaced, hlen, getD_none] at hpos hthree hroom
    refine ⟨fun piece hpiece => ?_, fun piece hpiece => ?_, valid_nil⟩
    · rw [List.mem_singleton.mp hpiece]
      exact hvalid
    · rw [List.mem_singleton.mp hpiece]
      dsimp only
      rw [length_drop]
      omega

/-- The text of the repair. -/
def repairedText (bytes : List UInt8) : List UInt8 :=
  textOf REPLACEMENT_CHARACTER (repairPieces bytes).1 ++ (repairPieces bytes).2

/-- The table of the repair. -/
def repairFixups (bytes : List UInt8) : LossyFixups where
  shifts := shiftsFrom REPLACEMENT_LEN 0 0 (repairPieces bytes).1
  replaced := replacedOf (repairPieces bytes).1

/-- What is added to a table. -/
def LossyFixups.extend (f : LossyFixups) (t g : ℕ) (pieces : Pieces UInt8) : LossyFixups where
  shifts := f.shifts ++ shiftsFrom REPLACEMENT_LEN t g pieces
  replaced := f.replaced ++ replacedOf pieces

/-- A table grows piece by piece. -/
lemma LossyFixups.extend_cons (f : LossyFixups) (t g : ℕ) (kept lost : List UInt8)
    (pieces : Pieces UInt8) :
    (LossyFixups.mk (f.shifts ++ [(t + kept.length, g + (REPLACEMENT_LEN - lost.length))])
        (f.replaced ++ lost)).extend (t + kept.length + REPLACEMENT_LEN)
        (g + (REPLACEMENT_LEN - lost.length)) pieces =
      f.extend t g ((kept, lost) :: pieces) := by
  simp [extend, shiftsFrom, replacedOf]

lemma repairPieces_valid {rest : List UInt8} (h : fromUtf8 rest = none) :
    repairPieces rest = ([], rest) := by
  rw [repairPieces]
  split
  · rfl
  · rename_i herr
    rw [h] at herr
    cases herr

/-- **The repair replaces one sequence after the other.** -/
theorem lossyUtf8Loop_eq (out : List UInt8) (gained : ℕ) (fixups : Option LossyFixups) :
    lossyUtf8Loop rest out gained fixups =
      (out ++ (textOf REPLACEMENT_CHARACTER (repairPieces rest).1 ++ (repairPieces rest).2),
        fixups.map fun f => f.extend out.length gained (repairPieces rest).1) := by
  fun_induction repairPieces rest generalizing out gained fixups with
  | case1 rest herr =>
    rw [lossyUtf8Loop]
    split
    · simp [LossyFixups.extend, shiftsFrom, replacedOf]
    · rename_i h
      rw [herr] at h
      cases h
  | case2 rest err herr n hlen pieces ih =>
    obtain ⟨hle, hvalid, -⟩ := fromUtf8_cases herr
    obtain ⟨hpos, hthree, hroom⟩ := replaced_bounds herr
    rw [Utf8.Error.replaced, hlen, getD_some] at hpos hthree hroom
    rw [lossyUtf8Loop]
    split
    · rename_i h
      rw [herr] at h
      cases h
    · rename_i err' h
      obtain rfl : err = err' := some.inj (herr.symm.trans h)
      dsimp only
      split
      · rename_i n' h'
        obtain rfl : n = n' := some.inj (hlen.symm.trans h')
        have hmin : min n REPLACEMENT_LEN = n := Nat.min_eq_left hthree
        have hlost : ((rest.drop err.validUpTo).take n).length = n := by
          rw [length_take, length_drop]
          omega
        rw [ih, validOrDefault, if_pos hvalid, hlen, getD_some, hmin, Option.map_map, Prod.mk.injEq]
        constructor
        · rw [textOf_cons]
          simp only [append_assoc]
          rfl
        · congr 1
          funext f
          have hcons := f.extend_cons out.length gained (rest.take err.validUpTo)
            ((rest.drop err.validUpTo).take n) pieces.1
          rw [hlost] at hcons
          simp only [Function.comp_apply, length_append]
          exact hcons
      · rename_i h'
        rw [hlen] at h'
        cases h'
  | case3 rest err herr hlen =>
    obtain ⟨hle, hvalid, -⟩ := fromUtf8_cases herr
    obtain ⟨hpos, hthree, hroom⟩ := replaced_bounds herr
    rw [Utf8.Error.replaced, hlen, getD_none] at hpos hthree hroom
    rw [lossyUtf8Loop]
    split
    · rename_i h
      rw [herr] at h
      cases h
    · rename_i err' h
      obtain rfl : err = err' := some.inj (herr.symm.trans h)
      dsimp only
      split
      · rename_i h'
        rw [hlen] at h'
        cases h'
      · have hmin : min (rest.length - err.validUpTo) REPLACEMENT_LEN =
            rest.length - err.validUpTo := Nat.min_eq_left hthree
        have hall : (rest.drop err.validUpTo).take (rest.length - err.validUpTo) =
            rest.drop err.validUpTo :=
          take_of_length_le (by rw [length_drop])
        rw [validOrDefault, if_pos hvalid, hlen, getD_none, hmin, hall, Prod.mk.injEq]
        constructor
        · simp
        · congr 1
          funext f
          have hcons := f.extend_cons out.length gained (rest.take err.validUpTo)
            (rest.drop err.validUpTo) []
          rw [length_drop] at hcons
          rw [← hcons, length_append]
          simp [LossyFixups.extend, shiftsFrom, replacedOf]

/-- **What the repair yields**, piece by piece. -/
theorem lossyUtf8Into_eq (fixups : Option LossyFixups) :
    lossyUtf8Into bytes fixups =
      (repairedText bytes, fixups.map fun f => f.extend 0 0 (repairPieces bytes).1) := by
  rw [lossyUtf8Into]
  split_ifs with hvalid
  · rw [repairedText, repairPieces_valid hvalid]
    simp [LossyFixups.extend, shiftsFrom, replacedOf]
  · rw [lossyUtf8Loop_eq]
    rfl

/-- What the repair is measured to yield, going on from a length and a number. -/
lemma lossyUtf8ShapeLoop_eq (len repairs : ℕ) :
    lossyUtf8ShapeLoop rest len repairs =
      (len + (repairedText rest).length, repairs + (repairPieces rest).1.length) := by
  unfold repairedText
  fun_induction repairPieces rest generalizing len repairs with
  | case1 rest herr =>
    rw [lossyUtf8ShapeLoop]
    split
    · simp
    · rename_i h
      rw [herr] at h
      cases h
  | case2 rest err herr n hlen pieces ih =>
    obtain ⟨hle, hvalid, -⟩ := fromUtf8_cases herr
    rw [lossyUtf8ShapeLoop]
    split
    · rename_i h
      rw [herr] at h
      cases h
    · rename_i err' h
      obtain rfl : err = err' := some.inj (herr.symm.trans h)
      dsimp only
      split
      · rename_i n' h'
        obtain rfl : n = n' := some.inj (hlen.symm.trans h')
        rw [ih, textOf_cons]
        simp only [length_append, length_cons, length_take, Nat.min_eq_left hle,
          Prod.mk.injEq, REPLACEMENT_LEN, REPLACEMENT_CHARACTER, length_nil]
        dsimp only [pieces]
        constructor <;> omega
      · rename_i h'
        rw [hlen] at h'
        cases h'
  | case3 rest err herr hlen =>
    obtain ⟨hle, hvalid, -⟩ := fromUtf8_cases herr
    rw [lossyUtf8ShapeLoop]
    split
    · rename_i h
      rw [herr] at h
      cases h
    · rename_i err' h
      obtain rfl : err = err' := some.inj (herr.symm.trans h)
      dsimp only
      split
      · rename_i h'
        rw [hlen] at h'
        cases h'
      · simp [length_take, Nat.min_eq_left hle, REPLACEMENT_LEN, REPLACEMENT_CHARACTER]

/-- **What the repair is measured to yield** is what it yields. -/
theorem lossyUtf8Shape_eq :
    lossyUtf8Shape bytes = ((repairedText bytes).length, (repairFixups bytes).shifts.length) := by
  rw [lossyUtf8Shape, lossyUtf8ShapeLoop_eq, repairFixups, length_shiftsFrom, zero_add, zero_add]

/-- The replacement is a character. -/
lemma valid_replacement : Valid REPLACEMENT_CHARACTER := by
  have hscan : scan REPLACEMENT_CHARACTER = .char 3 := by decide
  rw [Valid, fromUtf8_char hscan]
  simp [REPLACEMENT_CHARACTER]

/-- The text of valid pieces is valid. -/
lemma valid_textOf {pieces : Pieces UInt8} (h : ∀ piece ∈ pieces, Valid piece.1) :
    Valid (textOf REPLACEMENT_CHARACTER pieces) := by
  induction pieces with
  | nil => exact valid_nil
  | cons piece pieces ih =>
    obtain ⟨hpiece, hrest⟩ := List.forall_mem_cons.mp h
    exact (hpiece.append valid_replacement).append (ih hrest)

/-- The text of a repair is valid. -/
lemma valid_repairedText : Valid (repairedText bytes) :=
  (valid_textOf (repairable_repairPieces bytes).kept).append (repairable_repairPieces bytes).tail

/-- Replace invalid bytes, and record where. -/
def lossyUtf8 (bytes : List UInt8) : Text × LossyFixups :=
  (⟨(lossyUtf8Into bytes (some {})).1, by
    rw [lossyUtf8Into_eq]
    exact valid_repairedText bytes⟩, (lossyUtf8Into bytes (some {})).2.getD {})

lemma lossyUtf8_eq :
    lossyUtf8 bytes = (⟨repairedText bytes, valid_repairedText bytes⟩, repairFixups bytes) := by
  unfold lossyUtf8
  simp only [lossyUtf8Into_eq]
  simp [LossyFixups.extend, repairFixups]

/-- Valid bytes need no repair. -/
lemma repairedText_valid {bytes : List UInt8} (h : Valid bytes) : repairedText bytes = bytes := by
  rw [repairedText, repairPieces_valid h]
  rfl

lemma repairFixups_valid {bytes : List UInt8} (h : Valid bytes) : repairFixups bytes = {} := by
  rw [repairFixups, repairPieces_valid h]
  rfl

/-! ## Decoding -/

/-- The text of a file that is searched, and where invalid bytes were replaced. -/
def decodeWithFixups (transcode : Encoding → List UInt8 → Text) (bytes : List UInt8)
    (mode : EncodingMode) : Text × LossyFixups :=
  match decodeBytes transcode bytes mode with
  | .borrowed body => lossyUtf8 body
  | .owned body =>
    if hvalid : Valid body then (⟨body, hvalid⟩, {}) else ((lossyUtf8 body).1, {})

/-- The text of a file that is searched. -/
def decode (transcode : Encoding → List UInt8 → Text) (bytes : List UInt8) (mode : EncodingMode) :
    Text :=
  (decodeWithFixups transcode bytes mode).1

/-- The text of a file that is searched, of bytes that need not be kept. -/
def decodeOwnedWithFixups (transcode : Encoding → List UInt8 → Text) (bytes : List UInt8)
    (mode : EncodingMode) : Text × LossyFixups :=
  if !borrowsWholeInput bytes mode then decodeWithFixups transcode bytes mode
  else if hvalid : Valid bytes then (⟨bytes, hvalid⟩, {})
  else lossyUtf8 bytes

/-- The bytes of a file that are indexed. -/
def decodeForIndex (transcode : Encoding → List UInt8 → Text) (bytes : List UInt8) : Cow :=
  match decodeBytes transcode bytes .auto with
  | .owned body => .owned body
  | .borrowed body =>
    if Valid body then .borrowed body
    -- a file that is rejected is not repaired
    else if isBinary body then .borrowed body
    else .owned (lossyUtf8Into body none).1

end Tgrep
