import Mathlib.Data.Nat.Notation
import Mathlib.Data.UInt

/-!
# The regex syntax tree and what it matches

The high-level intermediate representation that the planner receives, with its matching
semantics: which part of a haystack a node matches, between which neighbours.

## Main definitions

* `Hir`: the syntax tree.
* `Class.Matches`: the byte strings of one character of a class.
* `Hir.Matches`, `Hir.MatchesSeq`: a node, or a sequence of nodes, matches the middle of a
  haystack.
* `Hir.MatchesIn`: a node matches some part of a haystack.

## Implementation notes

The condition of each zero-width look is a parameter: the planner ignores looks, so what it
guarantees holds for every meaning of them. Fields that no result depends on (capture names,
greediness) are left out.
-/

namespace Tgrep

/-- The zero-width assertions. -/
inductive Look
  | start | «end» | startLF | endLF | startCRLF | endCRLF
  | wordAscii | wordAsciiNegate | wordUnicode | wordUnicodeNegate
  | wordStartAscii | wordEndAscii | wordStartUnicode | wordEndUnicode
  | wordStartHalfAscii | wordEndHalfAscii | wordStartHalfUnicode | wordEndHalfUnicode
  deriving DecidableEq

/-- A character class: inclusive ranges of scalar values or of bytes. -/
inductive Class
  | unicode (ranges : List (Char × Char))
  | bytes (ranges : List (UInt8 × UInt8))
  deriving DecidableEq

/-- The syntax tree of a parsed regex. -/
inductive Hir
  | empty
  | literal (bytes : List UInt8)
  | «class» (ranges : Class)
  | look (kind : Look)
  | repetition (min : UInt32) (max : Option UInt32) (sub : Hir)
  | capture (sub : Hir)
  | concat (subs : List Hir)
  | alternation (alts : List Hir)

/-- Induction over the syntax tree, with the hypothesis for every child of a list of children. -/
@[induction_eliminator]
lemma Hir.induction {motive : Hir → Prop} (empty : motive .empty)
    (literal : ∀ bytes, motive (.literal bytes)) («class» : ∀ ranges, motive (.class ranges))
    (look : ∀ kind, motive (.look kind))
    (repetition : ∀ min max sub, motive sub → motive (.repetition min max sub))
    (capture : ∀ sub, motive sub → motive (.capture sub))
    (concat : ∀ subs, (∀ sub ∈ subs, motive sub) → motive (.concat subs))
    (alternation : ∀ alts, (∀ alt ∈ alts, motive alt) → motive (.alternation alts))
    (hir : Hir) : motive hir :=
  @Hir.rec motive (fun hirs => ∀ hir ∈ hirs, motive hir) empty literal «class» look
    repetition capture concat alternation (by simp)
    (fun _ _ hhead htail => by simpa using ⟨hhead, htail⟩) hir

/-- The bytes of one member of a class: the UTF-8 encoding of a scalar value, or one byte. -/
inductive Class.Matches : Class → List UInt8 → Prop
  | unicode {ranges : List (Char × Char)} {s e c : Char} :
      (s, e) ∈ ranges → s ≤ c → c ≤ e → Matches (.unicode ranges) (String.utf8EncodeChar c)
  | bytes {ranges : List (UInt8 × UInt8)} {s e b : UInt8} :
      (s, e) ∈ ranges → s ≤ b → b ≤ e → Matches (.bytes ranges) [b]

namespace Hir

/-- When each look holds between two parts of a haystack. -/
abbrev LookSemantics := Look → List UInt8 → List UInt8 → Prop

mutual

/-- `Matches L hir pre mid post`: in the haystack `pre ++ mid ++ post` the node matches `mid`. -/
inductive Matches (L : LookSemantics) : Hir → List UInt8 → List UInt8 → List UInt8 → Prop
  | empty {pre post : List UInt8} : Matches L .empty pre [] post
  | literal {bytes pre post : List UInt8} : Matches L (.literal bytes) pre bytes post
  | «class» {ranges : Class} {pre mid post : List UInt8} :
      ranges.Matches mid → Matches L (.class ranges) pre mid post
  | look {kind : Look} {pre post : List UInt8} :
      L kind pre post → Matches L (.look kind) pre [] post
  | repetition {min : UInt32} {max : Option UInt32} {sub : Hir} {n : ℕ}
      {pre mid post : List UInt8} :
      min.toNat ≤ n → (∀ m, max = some m → n ≤ m.toNat) →
      MatchesSeq L (List.replicate n sub) pre mid post →
      Matches L (.repetition min max sub) pre mid post
  | capture {sub : Hir} {pre mid post : List UInt8} :
      Matches L sub pre mid post → Matches L (.capture sub) pre mid post
  | concat {subs : List Hir} {pre mid post : List UInt8} :
      MatchesSeq L subs pre mid post → Matches L (.concat subs) pre mid post
  | alternation {alts : List Hir} {alt : Hir} {pre mid post : List UInt8} :
      alt ∈ alts → Matches L alt pre mid post → Matches L (.alternation alts) pre mid post

/-- The nodes match consecutive parts of `mid`, in order. -/
inductive MatchesSeq (L : LookSemantics) :
    List Hir → List UInt8 → List UInt8 → List UInt8 → Prop
  | nil {pre post : List UInt8} : MatchesSeq L [] pre [] post
  | cons {sub : Hir} {subs : List Hir} {pre mid rest post : List UInt8} :
      Matches L sub pre mid (rest ++ post) → MatchesSeq L subs (pre ++ mid) rest post →
      MatchesSeq L (sub :: subs) pre (mid ++ rest) post

end

/-- The haystack has a substring that the node matches. -/
def MatchesIn (L : LookSemantics) (hir : Hir) (haystack : List UInt8) : Prop :=
  ∃ pre mid post, haystack = pre ++ mid ++ post ∧ Matches L hir pre mid post

end Hir

end Tgrep
