import Mathlib.Data.FinEnum
import Tgrep.Data.FinMap
import Tgrep.Data.FixedWidth

/-!
# Trigram extraction

A trigram is a window of three consecutive bytes, packed into one 32-bit key. Extraction
records for each trigram of a file two one-byte masks: at which offsets (mod 8) it starts, and a
Bloom filter of the bytes that follow it. The trigrams of the file and of its ASCII-lowercased
copy go into one table, in a single pass over the windows.

## Main definitions

* `Trigram.hash`, `Trigram.locBit`, `Trigram.nextBit`, `Trigram.bloomHash`: the key of a window
  and the bits of its masks.
* `Trigram.extractMergedMasks`: the table of a file's content.
* `Trigram.Records`: a table has an entry at a key whose masks contain given bits.

## Main results

* `Trigram.extractMergedMasks_records`: every window of the content is recorded.
* `Trigram.extractMergedMasks_records_lower`: so is every window of its lowercased copy.

## Implementation notes

The pass over `content.windows(3)` is a recursion on the suffix that starts at the window, so
that the byte after a window is the head of what is left. The periodic budget checks of the
controlled variant do not change the table and are left out.
-/

namespace Tgrep

/-- The packed key of a trigram. -/
abbrev TrigramHash := UInt32

/-- The masks of one trigram in one file. -/
structure TrigramMasks where
  /-- Bit `i` is set if the trigram starts at an offset that is `i` mod 8. -/
  locMask : UInt8 := 0
  /-- Bloom filter of the bytes that immediately follow the trigram. -/
  nextMask : UInt8 := 0
  deriving DecidableEq

/-- A file's trigrams with their merged masks. -/
abbrev TrigramMaskMap := FinMap TrigramHash TrigramMasks

namespace Trigram

/-! ## Bytes and bits -/

/-- Pack three bytes into a trigram key. -/
def hash (a b c : UInt8) : TrigramHash :=
  a.toUInt32 <<< 16 ||| b.toUInt32 <<< 8 ||| c.toUInt32

/-- The bit of a byte offset in a location mask. -/
def locBit (offset : ℕ) : UInt8 := (1 : UInt8) <<< UInt8.ofNat (offset % 8)

/-- The Bloom bit of a byte. -/
def nextBit (byte : UInt8) : UInt8 := (1 : UInt8) <<< ((byte * 0x9E) >>> 5 &&& 0x07)

/-- The Bloom bit of a byte, for checks at query time. -/
def bloomHash (byte : UInt8) : UInt8 := nextBit byte

/-- A byte in `A`–`Z`. -/
def isAsciiUppercase (byte : UInt8) : Bool := 65 ≤ byte && byte ≤ 90

/-- ASCII lowercasing of one byte; bytes outside `A`–`Z` are unchanged. -/
def toAsciiLowercase (byte : UInt8) : UInt8 :=
  if isAsciiUppercase byte then byte + 32 else byte

/-- A Bloom bit is never empty. -/
lemma nextBit_ne_zero : ∀ byte, nextBit byte ≠ 0 := by decide +kernel

/-- A byte that is not an uppercase letter is its own lowercase form. -/
lemma toAsciiLowercase_eq_self {byte : UInt8} (h : isAsciiUppercase byte = false) :
    toAsciiLowercase byte = byte := by
  simp [toAsciiLowercase, h]

/-- The next-byte bits a window contributes: none for the last window of the content. -/
def nextBits (next : Option UInt8) : UInt8 :=
  match next with
  | some byte => nextBit byte
  | none => 0

/-! ## Extraction -/

/-- `entry(h).or_default()`, with `loc` and `next` added to its masks. -/
def orEntry (m : TrigramMaskMap) (h : TrigramHash) (loc next : UInt8) : TrigramMaskMap :=
  m.alter h fun e =>
    some ⟨(e.getD {}).locMask ||| loc, (e.getD {}).nextMask ||| next⟩

/-- Merge the window `a b c` at offset `i`, followed by `next`, into the table. With an uppercase
byte somewhere in the content, the lowercased window is merged as well. -/
def mergeWindow (hasUpper : Bool) (m : TrigramMaskMap) (i : ℕ) (a b c : UInt8)
    (next : Option UInt8) : TrigramMaskMap :=
  let trigram := hash a b c
  if !hasUpper then
    orEntry m trigram (locBit i) (nextBits next)
  else
    let lowered := hash (toAsciiLowercase a) (toAsciiLowercase b) (toAsciiLowercase c)
    let nextLowered := nextBits (next.map toAsciiLowercase)
    if lowered = trigram then
      orEntry m trigram (locBit i) (nextBits next ||| nextLowered)
    else
      orEntry (orEntry m trigram (locBit i) (nextBits next)) lowered (locBit i) nextLowered

/-- Merge every window of a suffix of the content that starts at offset `i`. -/
def mergeWindows (hasUpper : Bool) : ℕ → List UInt8 → TrigramMaskMap → TrigramMaskMap
  | i, a :: b :: c :: rest, m =>
    mergeWindows hasUpper (i + 1) (b :: c :: rest) (mergeWindow hasUpper m i a b c rest.head?)
  | _, _, m => m

/-- The trigrams of the content and of its lowercased copy, masks merged per trigram. -/
def extractMergedMasks (content : List UInt8) : TrigramMaskMap :=
  if content.length < 3 then FinMap.empty
  else mergeWindows (content.any isAsciiUppercase) 0 content FinMap.empty

/-! ## What a table records -/

/-- The table has an entry at `h` whose masks contain the bits `loc` and `next`. -/
def Records (m : TrigramMaskMap) (h : TrigramHash) (loc next : UInt8) : Prop :=
  ∃ e, m.get? h = some e ∧ e.locMask.Covers loc ∧ e.nextMask.Covers next

variable (hasUpper : Bool) (pre : List UInt8) {m : TrigramMaskMap} {loc next : UInt8}
  {h : TrigramHash}

/-- A record of some bits is a record of the bits they contain. -/
lemma Records.mono {next' : UInt8} (hm : Records m h loc next) (hn : next.Covers next') :
    Records m h loc next' := by
  obtain ⟨e, he, hl, hx⟩ := hm
  exact ⟨e, he, hl, hx.trans hn⟩

/-- Adding bits at a key records them there. -/
lemma orEntry_records (m : TrigramMaskMap) (h : TrigramHash) (loc next : UInt8) :
    Records (orEntry m h loc next) h loc next := by
  refine ⟨_, by rw [orEntry, FinMap.get?_alter, if_pos rfl], ?_, ?_⟩
  · exact UInt8.covers_or_right _ _
  · exact UInt8.covers_or_right _ _

/-- Adding bits keeps every record. -/
lemma Records.orEntry (hm : Records m h loc next) (h' : TrigramHash) (loc' next' : UInt8) :
    Records (orEntry m h' loc' next') h loc next := by
  obtain ⟨e, he, hl, hn⟩ := hm
  by_cases hh : h = h'
  · subst hh
    refine ⟨_, by rw [Trigram.orEntry, FinMap.get?_alter, if_pos rfl, he], ?_, ?_⟩
    · exact hl.or _
    · exact hn.or _
  · exact ⟨e, by rw [Trigram.orEntry, FinMap.get?_alter, if_neg hh, he], hl, hn⟩

/-- Merging a window keeps every record. -/
lemma Records.mergeWindow (hm : Records m h loc next) (hasUpper : Bool) (i : ℕ) (a b c : UInt8)
    (d : Option UInt8) : Records (mergeWindow hasUpper m i a b c d) h loc next := by
  unfold Trigram.mergeWindow
  dsimp only
  split_ifs
  · exact hm.orEntry _ _ _
  · exact hm.orEntry _ _ _
  · exact (hm.orEntry _ _ _).orEntry _ _ _

/-- Merging a window records it. -/
lemma mergeWindow_records (m : TrigramMaskMap) (i : ℕ) (a b c : UInt8) (d : Option UInt8) :
    Records (mergeWindow hasUpper m i a b c d) (hash a b c) (locBit i) (nextBits d) := by
  unfold mergeWindow
  dsimp only
  split_ifs
  · exact orEntry_records _ _ _ _
  · exact (orEntry_records _ _ _ _).mono (UInt8.covers_or_left _ _)
  · exact (orEntry_records _ _ _ _).orEntry _ _ _

/-- With an uppercase byte in the content, merging a window records its lowercased form. -/
lemma mergeWindow_records_lower (m : TrigramMaskMap) (i : ℕ) (a b c : UInt8) (d : Option UInt8) :
    Records (mergeWindow true m i a b c d)
      (hash (toAsciiLowercase a) (toAsciiLowercase b) (toAsciiLowercase c)) (locBit i)
      (nextBits (d.map toAsciiLowercase)) := by
  unfold mergeWindow
  dsimp only
  split_ifs with hu hl
  · simp at hu
  · rw [hl]
    exact (orEntry_records _ _ _ _).mono (UInt8.covers_or_right _ _)
  · exact orEntry_records _ _ _ _

/-- The pass over the windows keeps every record. -/
lemma Records.mergeWindows :
    ∀ (i : ℕ) (content : List UInt8) (m : TrigramMaskMap), Records m h loc next →
      Records (mergeWindows hasUpper i content m) h loc next := by
  intro i content m
  fun_induction Trigram.mergeWindows hasUpper i content m with
  | case1 i a b c rest m ih => exact fun hm => ih (hm.mergeWindow _ _ _ _ _ _)
  | case2 => exact id

/-- Merging the window that starts `pre.length` bytes into the suffix happens at some point of
the pass, and what that merge records stays.

**Proof sketch.** Induction on `pre`. With `pre` empty the window is the first one merged, and
the rest of the pass keeps its record. Otherwise the first step merges another window and the
claim is the induction hypothesis for the shorter suffix. -/
lemma mergeWindows_of_mergeWindow {a b c : UInt8} {rest : List UInt8} (i : ℕ)
    (m : TrigramMaskMap)
    (hw : ∀ m', Records (mergeWindow hasUpper m' (i + pre.length) a b c rest.head?) h loc next) :
    Records (mergeWindows hasUpper i (pre ++ a :: b :: c :: rest) m) h loc next := by
  induction pre generalizing i m with
  | nil =>
    rw [List.nil_append, mergeWindows]
    exact Records.mergeWindows _ _ _ _ (hw m)
  | cons x pre ih =>
    obtain ⟨y, z, tail, htail⟩ : ∃ y z tail, pre ++ a :: b :: c :: rest = y :: z :: tail := by
      rcases pre with _ | ⟨y, _ | ⟨z, pre⟩⟩
      · exact ⟨a, b, c :: rest, rfl⟩
      · exact ⟨y, a, b :: c :: rest, rfl⟩
      · exact ⟨y, z, _, rfl⟩
    rw [List.cons_append, htail, mergeWindows, ← htail]
    refine ih (i + 1) _ fun m' => ?_
    rw [show i + 1 + pre.length = i + (x :: pre).length by rw [List.length_cons]; omega]
    exact hw m'

/-- **Every window is recorded**: the trigram at offset `pre.length`, with the bit of that offset
and the Bloom bit of the byte after it. -/
theorem extractMergedMasks_records (a b c : UInt8) (rest : List UInt8) :
    Records (extractMergedMasks (pre ++ a :: b :: c :: rest)) (hash a b c) (locBit pre.length)
      (nextBits rest.head?) := by
  have hlen : ¬ (pre ++ a :: b :: c :: rest).length < 3 := by
    simp only [List.length_append, List.length_cons]
    omega
  rw [extractMergedMasks, if_neg hlen]
  refine mergeWindows_of_mergeWindow _ pre 0 _ fun m' => ?_
  rw [zero_add]
  exact mergeWindow_records _ _ _ _ _ _ _

/-- **Every lowercased window is recorded**: the trigram at offset `pre.length` of the lowercased
content.

**Proof sketch.** If the content has an uppercase byte, the step that merges the window also
merges its lowercased form. Otherwise every byte is its own lowercase form and this is
`extractMergedMasks_records`. -/
theorem extractMergedMasks_records_lower (a b c : UInt8) (rest : List UInt8) :
    Records (extractMergedMasks (pre ++ a :: b :: c :: rest))
      (hash (toAsciiLowercase a) (toAsciiLowercase b) (toAsciiLowercase c)) (locBit pre.length)
      (nextBits (rest.head?.map toAsciiLowercase)) := by
  by_cases hu : (pre ++ a :: b :: c :: rest).any isAsciiUppercase = true
  · have hlen : ¬ (pre ++ a :: b :: c :: rest).length < 3 := by
      simp only [List.length_append, List.length_cons]
      omega
    rw [extractMergedMasks, if_neg hlen, hu]
    refine mergeWindows_of_mergeWindow _ pre 0 _ fun m' => ?_
    rw [zero_add]
    exact mergeWindow_records_lower _ _ _ _ _ _
  · have hself : ∀ x ∈ pre ++ a :: b :: c :: rest, toAsciiLowercase x = x := fun x hx =>
      toAsciiLowercase_eq_self (by simpa using List.any_eq_false.mp (by simpa using hu) x hx)
    have hrest : rest.head?.map toAsciiLowercase = rest.head? := by
      cases rest with
      | nil => rfl
      | cons d rest => simp [hself d (by simp)]
    rw [hself a (by simp), hself b (by simp), hself c (by simp), hrest]
    exact extractMergedMasks_records pre a b c rest

end Trigram

end Tgrep
