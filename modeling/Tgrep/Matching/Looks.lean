import Mathlib.Data.List.TakeWhile
import Mathlib.Tactic.NormNum
import Tgrep.Query.Hir

/-!
# Matching a line, or the text around it

A line of a text is matched by itself. A pattern whose only zero-width assertions are about words
matches the same parts of the line when it is matched within the text.

## Main definitions

* `Look.Holds`: when each zero-width assertion holds.
* `Hir.AnchorFree`: no assertion is about the ends of a line or of the text.
* `LineContext`: what stands around a line.

## Main results

* `wordBefore_append`, `wordAfter_append`: the words of a line are those of the text.
* `Hir.Matches.extend`: a match in a line is one in the text.

## Implementation notes

Which characters are word characters for Unicode is a parameter. Line feeds and carriage returns are
not.
-/

namespace Tgrep

open List

/-- Whether an assertion is about the ends of a line or of the text. -/
def Look.isAnchor : Look → Bool
  | .start | .end | .startLF | .endLF | .startCRLF | .endCRLF => true
  | _ => false

/-- The word characters of ASCII. -/
def IsWordAscii (c : Char) : Prop := c.isAlphanum = true ∨ c = '_'

/-- A word character stands in front. -/
def WordBefore (isWord : Char → Prop) (pre : List UInt8) : Prop :=
  ∃ rest c, pre = rest ++ String.utf8EncodeChar c ∧ isWord c

/-- A word character stands behind. -/
def WordAfter (isWord : Char → Prop) (post : List UInt8) : Prop :=
  ∃ c rest, post = String.utf8EncodeChar c ++ rest ∧ isWord c

/-- When an assertion holds between two parts of a haystack. -/
def Look.Holds (isWord : Char → Prop) : Hir.LookSemantics
  | .start, pre, _ => pre = []
  | .end, _, post => post = []
  | .startLF, pre, _ => pre = [] ∨ pre.getLast? = some 0x0A
  | .endLF, _, post => post = [] ∨ post.head? = some 0x0A
  | .startCRLF, pre, post =>
    pre = [] ∨ pre.getLast? = some 0x0A ∨ (pre.getLast? = some 0x0D ∧ post.head? ≠ some 0x0A)
  | .endCRLF, pre, post =>
    post = [] ∨ post.head? = some 0x0D ∨ (post.head? = some 0x0A ∧ pre.getLast? ≠ some 0x0D)
  | .wordAscii, pre, post => ¬ (WordBefore IsWordAscii pre ↔ WordAfter IsWordAscii post)
  | .wordAsciiNegate, pre, post => WordBefore IsWordAscii pre ↔ WordAfter IsWordAscii post
  | .wordUnicode, pre, post => ¬ (WordBefore isWord pre ↔ WordAfter isWord post)
  | .wordUnicodeNegate, pre, post => WordBefore isWord pre ↔ WordAfter isWord post
  | .wordStartAscii, pre, post => ¬ WordBefore IsWordAscii pre ∧ WordAfter IsWordAscii post
  | .wordEndAscii, pre, post => WordBefore IsWordAscii pre ∧ ¬ WordAfter IsWordAscii post
  | .wordStartUnicode, pre, post => ¬ WordBefore isWord pre ∧ WordAfter isWord post
  | .wordEndUnicode, pre, post => WordBefore isWord pre ∧ ¬ WordAfter isWord post
  | .wordStartHalfAscii, pre, _ => ¬ WordBefore IsWordAscii pre
  | .wordEndHalfAscii, _, post => ¬ WordAfter IsWordAscii post
  | .wordStartHalfUnicode, pre, _ => ¬ WordBefore isWord pre
  | .wordEndHalfUnicode, _, post => ¬ WordAfter isWord post

/-- The characters at the ends of lines. -/
def lineTerminators : List Char := ['\n', '\r']

/-- Line terminators are no word characters. -/
def SeparatesLines (isWord : Char → Prop) : Prop := ∀ c ∈ lineTerminators, ¬ isWord c

lemma separatesLines_ascii : SeparatesLines IsWordAscii := by
  intro c hc
  rw [lineTerminators, mem_cons, mem_singleton] at hc
  rintro (halnum | hunderscore)
  · rcases hc with rfl | rfl
    · exact absurd halnum (by decide)
    · exact absurd halnum (by decide)
  · rcases hc with rfl | rfl
    · exact absurd hunderscore (by decide)
    · exact absurd hunderscore (by decide)

/-- The parts of a text around a line: it ends with a line feed in front, and begins with a
terminator behind. -/
structure LineContext (before after : List UInt8) : Prop where
  before : before = [] ∨ ∃ rest, before = rest ++ [0x0A]
  after : after = [] ∨ ∃ b rest, after = b :: rest ∧ (b = 0x0A ∨ b = 0x0D)

/-! ## Words -/

/-- The bytes that continue a character, and the first one of several, are not ASCII. -/
lemma not_ofNat_lt_of_le {n : ℕ} (h : 0x80 ≤ n) (h' : n < 256) : ¬ UInt8.ofNat n < 0x80 := by
  rw [UInt8.lt_iff_toNat_lt, UInt8.toNat_ofNat']
  change ¬ n % 256 < 128
  omega

/-- **A byte of ASCII is a character of its own.** -/
theorem utf8EncodeChar_of_mem {c : Char} {b : UInt8} (hb : b < 0x80)
    (hmem : b ∈ String.utf8EncodeChar c) : c.toNat = b.toNat ∧ String.utf8EncodeChar c = [b] := by
  have hval : c.toNat = c.val.toNat := rfl
  unfold String.utf8EncodeChar at hmem ⊢
  dsimp only at hmem ⊢
  split_ifs at hmem ⊢ with h₁ h₂ h₃
  · obtain rfl := mem_singleton.mp hmem
    rw [hval, UInt8.toNat_ofNat']
    exact ⟨by omega, rfl⟩
  all_goals
    exfalso
    simp only [mem_cons, not_mem_nil, or_false] at hmem
  · rcases hmem with rfl | rfl
    · exact not_ofNat_lt_of_le (by omega) (by omega) hb
    · exact not_ofNat_lt_of_le (by omega) (by omega) hb
  · rcases hmem with rfl | rfl | rfl
    · exact not_ofNat_lt_of_le (by omega) (by omega) hb
    · exact not_ofNat_lt_of_le (by omega) (by omega) hb
    · exact not_ofNat_lt_of_le (by omega) (by omega) hb
  · rcases hmem with rfl | rfl | rfl | rfl
    · exact not_ofNat_lt_of_le (by omega) (by omega) hb
    · exact not_ofNat_lt_of_le (by omega) (by omega) hb
    · exact not_ofNat_lt_of_le (by omega) (by omega) hb
    · exact not_ofNat_lt_of_le (by omega) (by omega) hb

/-- No word character has a byte of a line terminator. -/
lemma not_mem_utf8EncodeChar {isWord : Char → Prop} (hword : SeparatesLines isWord) {c : Char}
    (hc : isWord c) : 0x0A ∉ String.utf8EncodeChar c ∧ 0x0D ∉ String.utf8EncodeChar c := by
  have hchar : ∀ d ∈ lineTerminators, ∀ b : UInt8, b < 0x80 → d.toNat = b.toNat →
      b ∉ String.utf8EncodeChar c := by
    intro d hd b hb hdb hmem
    obtain ⟨hcb, -⟩ := utf8EncodeChar_of_mem hb hmem
    obtain rfl : c = d := Char.toNat_inj.mp (hcb.trans hdb.symm)
    exact hword c hd hc
  exact ⟨hchar '\n' (by decide) 0x0A (by decide) (by decide),
    hchar '\r' (by decide) 0x0D (by decide) (by decide)⟩

variable {isWord : Char → Prop} {before after : List UInt8}

/-- **The words in front** in a line are those in the text. -/
theorem wordBefore_append (hword : SeparatesLines isWord) (hctx : LineContext before after)
    (pre : List UInt8) : WordBefore isWord (before ++ pre) ↔ WordBefore isWord pre := by
  constructor
  · rintro ⟨rest, c, heq, hc⟩
    -- the character lies in the line
    rcases append_eq_append_iff.mp heq with ⟨front, -, hpre⟩ | ⟨back, hbefore, hchar⟩
    · exact ⟨front, c, hpre, hc⟩
    · rcases hctx.before with rfl | ⟨front, rfl⟩
      · obtain ⟨-, rfl⟩ := append_eq_nil_iff.mp hbefore.symm
        exact ⟨[], c, hchar.symm, hc⟩
      · rcases eq_nil_or_concat back with rfl | ⟨init, b, rfl⟩
        · exact ⟨[], c, hchar.symm, hc⟩
        · rw [concat_eq_append, ← append_assoc] at hbefore
          obtain ⟨-, hb⟩ := append_inj' hbefore rfl
          have hfeed : (0x0A : UInt8) ∈ String.utf8EncodeChar c := by
            rw [hchar, concat_eq_append, ← hb]
            simp
          exact absurd hfeed (not_mem_utf8EncodeChar hword hc).1
  · rintro ⟨rest, c, rfl, hc⟩
    exact ⟨before ++ rest, c, (append_assoc _ _ _).symm, hc⟩

/-- **The words behind** in a line are those in the text. -/
theorem wordAfter_append (hword : SeparatesLines isWord) (hctx : LineContext before after)
    (post : List UInt8) : WordAfter isWord (post ++ after) ↔ WordAfter isWord post := by
  constructor
  · rintro ⟨c, rest, heq, hc⟩
    rcases append_eq_append_iff.mp heq with ⟨back, hchar, hafter⟩ | ⟨tail, hpost, -⟩
    · cases back with
      | nil => exact ⟨c, [], by rw [hchar, append_nil, append_nil], hc⟩
      | cons b back =>
        obtain ⟨hfeed, hreturn⟩ := not_mem_utf8EncodeChar hword hc
        have hb : b ∈ String.utf8EncodeChar c := by
          rw [hchar]
          simp
        rcases hctx.after with rfl | ⟨b', tail, rfl, hterminator⟩
        · cases hafter
        · obtain rfl : b' = b := (cons.inj hafter).1
          rcases hterminator with rfl | rfl
          · exact absurd hb hfeed
          · exact absurd hb hreturn
    · exact ⟨c, tail, hpost, hc⟩
  · rintro ⟨c, rest, rfl, hc⟩
    exact ⟨c, rest ++ after, append_assoc _ _ _, hc⟩

/-- An assertion about words holds in a line iff it holds in the text. -/
lemma Look.holds_extend (hword : SeparatesLines isWord) (hctx : LineContext before after)
    {kind : Look} (hkind : kind.isAnchor = false) {pre post : List UInt8}
    (h : Look.Holds isWord kind pre post) :
    Look.Holds isWord kind (before ++ pre) (post ++ after) := by
  have hbefore := wordBefore_append hword hctx pre
  have hafter := wordAfter_append hword hctx post
  have hbefore' := wordBefore_append separatesLines_ascii hctx pre
  have hafter' := wordAfter_append separatesLines_ascii hctx post
  cases kind with
  | start | «end» | startLF | endLF | startCRLF | endCRLF => cases hkind
  | wordAscii | wordAsciiNegate | wordStartAscii | wordEndAscii | wordStartHalfAscii
    | wordEndHalfAscii =>
    simp only [Look.Holds, hbefore', hafter'] at h ⊢
    exact h
  | wordUnicode | wordUnicodeNegate | wordStartUnicode | wordEndUnicode | wordStartHalfUnicode
    | wordEndHalfUnicode =>
    simp only [Look.Holds, hbefore, hafter] at h ⊢
    exact h

/-! ## Matches -/

namespace Hir

/-- No assertion is about the ends of a line or of the text. -/
inductive AnchorFree : Hir → Prop
  | empty : AnchorFree .empty
  | literal {bytes : List UInt8} : AnchorFree (.literal bytes)
  | «class» {ranges : Class} : AnchorFree (.class ranges)
  | look {kind : Look} : kind.isAnchor = false → AnchorFree (.look kind)
  | repetition {min : UInt32} {max : Option UInt32} {sub : Hir} :
      AnchorFree sub → AnchorFree (.repetition min max sub)
  | capture {sub : Hir} : AnchorFree sub → AnchorFree (.capture sub)
  | concat {subs : List Hir} : (∀ sub ∈ subs, AnchorFree sub) → AnchorFree (.concat subs)
  | alternation {alts : List Hir} : (∀ alt ∈ alts, AnchorFree alt) → AnchorFree (.alternation alts)

/-- **A match in a line is one in the text**, by induction on how the pattern matches. -/
theorem Matches.extend (hword : SeparatesLines isWord) (hctx : LineContext before after) {hir : Hir}
    {pre mid post : List UInt8} (h : Matches (Look.Holds isWord) hir pre mid post)
    (hfree : hir.AnchorFree) :
    Matches (Look.Holds isWord) hir (before ++ pre) mid (post ++ after) := by
  refine @Matches.rec (Look.Holds isWord) (fun hir pre mid post _ => hir.AnchorFree →
      Matches (Look.Holds isWord) hir (before ++ pre) mid (post ++ after))
    (fun subs pre mid post _ => (∀ sub ∈ subs, AnchorFree sub) →
      MatchesSeq (Look.Holds isWord) subs (before ++ pre) mid (post ++ after))
    ?_ ?_ ?_ ?_ ?_ ?_ ?_ ?_ ?_ ?_ hir pre mid post h hfree
  · exact fun _ => .empty
  · exact fun _ => .literal
  · exact fun hclass _ => .class hclass
  · rintro kind pre post hlook (_ | _ | _ | hkind)
    exact .look (Look.holds_extend hword hctx hkind hlook)
  · intro min max sub n pre mid post hmin hmax _ ih hfree
    cases hfree with
    | repetition hsub =>
      exact .repetition hmin hmax (ih fun s hs => eq_of_mem_replicate hs ▸ hsub)
  · intro sub pre mid post _ ih hfree
    cases hfree with
    | capture hsub => exact .capture (ih hsub)
  · intro subs pre mid post _ ih hfree
    cases hfree with
    | concat hsubs => exact .concat (ih hsubs)
  · intro alts alt pre mid post halt _ ih hfree
    cases hfree with
    | alternation halts => exact .alternation halt (ih (halts alt halt))
  · exact fun _ => .nil
  · intro sub subs pre mid rest post _ _ ih ihs hsubs
    obtain ⟨hsub, hrest⟩ := forall_mem_cons.mp hsubs
    have hhead := ih hsub
    have htail := ihs hrest
    rw [append_assoc] at hhead
    rw [← append_assoc] at htail
    exact .cons hhead htail

end Hir

end Tgrep
