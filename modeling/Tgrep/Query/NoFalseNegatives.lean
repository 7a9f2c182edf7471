import Tgrep.Query.Execute

/-!
# Narrowing by the index loses no match

If a part of a file is matched by a regex, then the file's trigram table satisfies the regex's
plan, so executing the plan over the postings of all files returns that file.

## Main definitions

* `TrigramQuery.Holds`, `QueryPlan.Holds`: a content satisfies a query, or a plan.
* `RunsTo`: the part of the content that a literal run stands for.
* `PostingsOf`: a lookup holds exactly the postings of a set of files.

## Main results

* `decomposeHir_holds`: a content with a match satisfies the plan of the regex.
* `simplify_holds`: and its simplification.
* `executePlan_no_false_negatives`: so its file is among the candidates.
-/

namespace Tgrep

open Trigram List Option

/-! ## What a content satisfies -/

/-- The trigram table of the content has the query's trigram, with the Bloom bit of the expected
next byte. -/
def TrigramQuery.Holds (content : List UInt8) (q : TrigramQuery) : Prop :=
  Records (extractMergedMasks content) q.hash 0 (nextBits q.expectedNext)

/-- The content satisfies every query of an `And`, and some branch of an `Or`. -/
inductive QueryPlan.Holds (content : List UInt8) : QueryPlan → Prop
  | and {queries : List TrigramQuery} :
      (∀ q ∈ queries, q.Holds content) → Holds content (.and queries)
  | or {plans : List QueryPlan} {p : QueryPlan} :
      p ∈ plans → Holds content p → Holds content (.or plans)
  | matchAll : Holds content .matchAll

variable {byte : UInt8} {p : QueryPlan} {mid content : List UInt8} {L : Hir.LookSemantics}
  {files : FinMap UInt32 (List UInt8)} {lookup : TrigramHash → List PostingEntry}
  {pre post text bytes : List UInt8}

/-- A content that satisfies an `And` satisfies each of its queries. -/
lemma QueryPlan.Holds.of_and {queries : List TrigramQuery}
    (h : QueryPlan.Holds content (.and queries)) : ∀ q ∈ queries, q.Holds content := by
  obtain ⟨h⟩ := h
  exact h

/-! ## Literal runs -/

/-- The bytes are the text of a run, or fold to it when the run was folded. -/
def RunsTo (fold : Bool) (bytes text : List UInt8) : Prop :=
  if fold then bytes.map toAsciiLowercase = text else bytes = text

/-- Lowercasing twice is lowercasing once. -/
lemma toAsciiLowercase_idem : ∀ byte,
    toAsciiLowercase (toAsciiLowercase byte) = toAsciiLowercase byte := by decide +kernel

/-- The run splits where its text does. -/
lemma RunsTo.cons_inv {fold : Bool} {x : UInt8} (h : RunsTo fold bytes (x :: text)) :
    ∃ b rest, bytes = b :: rest ∧ RunsTo fold [b] [x] ∧ RunsTo fold rest text := by
  cases fold with
  | false =>
    obtain rfl : bytes = x :: text := h
    exact ⟨x, text, rfl, rfl, rfl⟩
  | true =>
    obtain ⟨b, rest, rfl, hb, hrest⟩ := map_eq_cons_iff.mp h
    exact ⟨b, rest, rfl, congrArg (fun y => [y]) hb, hrest⟩

/-- Runs with the same folding append. -/
lemma RunsTo.append {fold : Bool} {bytes' text' : List UInt8} (h : RunsTo fold bytes text)
    (h' : RunsTo fold bytes' text') : RunsTo fold (bytes ++ bytes') (text ++ text') := by
  cases fold with
  | false => exact congrArg₂ (· ++ ·) h h'
  | true => exact map_append.trans (congrArg₂ (· ++ ·) h h')

/-- Folding a run that stands for its text folds the text. -/
lemma RunsTo.fold {fold : Bool} (h : RunsTo fold bytes text) :
    RunsTo true bytes (text.map toAsciiLowercase) := by
  cases fold with
  | false =>
    obtain rfl : bytes = text := h
    rfl
  | true =>
    obtain rfl : bytes.map toAsciiLowercase = text := h
    exact Eq.symm (by simp [toAsciiLowercase_idem])

/-- A run has the Bloom bits of the byte after a window if its text has a next byte there. -/
lemma nextBits_covers {next : List UInt8} {expected : Option UInt8}
    (h : ∀ byte ∈ expected, next.head? = some byte) :
    (nextBits next.head?).Covers (nextBits expected) := by
  cases expected with
  | none => exact UInt8.covers_zero _
  | some byte =>
    rw [h byte rfl]
    exact UInt8.and_self

/-- **The query at the head of a run's text holds**: it is the window that
`extractMergedMasks_records` records, or `extractMergedMasks_records_lower` when the run was
folded. -/
theorem headQuery_holds {fold : Bool} {a b c : UInt8}
    (hrun : RunsTo fold bytes (a :: b :: c :: text)) :
    TrigramQuery.Holds (pre ++ (bytes ++ post)) ⟨hash a b c, text.head?⟩ := by
  obtain ⟨a', bytes₁, rfl, ha, h₁⟩ := hrun.cons_inv
  obtain ⟨b', bytes₂, rfl, hb, h₂⟩ := h₁.cons_inv
  obtain ⟨c', rest, rfl, hc, hrest⟩ := h₂.cons_inv
  simp only [cons_append]
  have hhead : ∀ byte ∈ text.head?, RunsTo fold (rest ++ post).head?.toList [byte] := by
    intro byte hbyte
    obtain ⟨text', rfl⟩ : ∃ text', text = byte :: text' := head?_eq_some_iff.mp hbyte
    obtain ⟨d, rest', rfl, hd, -⟩ := hrest.cons_inv
    exact hd
  cases fold with
  | false =>
    simp only [RunsTo, Bool.false_eq_true, if_false, cons.injEq, and_true] at ha hb hc hhead
    obtain ⟨e, he, -, hn⟩ := extractMergedMasks_records pre a' b' c' (rest ++ post)
    rw [← ha, ← hb, ← hc]
    refine ⟨e, he, UInt8.covers_zero _, hn.trans (nextBits_covers fun byte hbyte => ?_)⟩
    exact Option.toList_eq_singleton_iff.mp (hhead byte hbyte)
  | true =>
    simp only [RunsTo, if_true, map_cons, map_nil, cons.injEq, and_true] at ha hb hc
    obtain ⟨e, he, -, hn⟩ := extractMergedMasks_records_lower pre a' b' c' (rest ++ post)
    rw [← ha, ← hb, ← hc]
    rw [← head?_map] at hn
    refine ⟨e, he, UInt8.covers_zero _, hn.trans (nextBits_covers fun byte hbyte => ?_)⟩
    have hmap := hhead byte hbyte
    rw [RunsTo, if_pos rfl, ← toList_map, toList_eq_singleton_iff] at hmap
    rw [head?_map, hmap]

/-- Every query of a run's text holds in a content that contains the run.

**Proof sketch.** Induction on the text. Its first query is the window at the start of the run;
the other queries are those of the run without its first byte, after a prefix longer by that
byte. -/
lemma literalQueries_hold {fold : Bool} (hrun : RunsTo fold bytes text) :
    ∀ q ∈ literalQueries text, q.Holds (pre ++ (bytes ++ post)) := by
  fun_induction literalQueries text generalizing pre bytes with
  | case1 a b c text ih =>
    rw [forall_mem_cons]
    refine ⟨headQuery_holds hrun, ?_⟩
    obtain ⟨a', bytes', rfl, -, h'⟩ := hrun.cons_inv
    have htail : ∀ q ∈ literalQueries (b :: c :: text),
        q.Holds (pre ++ [a'] ++ (bytes' ++ post)) := ih h'
    rwa [append_assoc, singleton_append, ← cons_append] at htail
  | case2 => simp

/-- The plan of a literal holds in a content that contains it. -/
lemma literalsToQueryPlan_holds {fold : Bool} (hrun : RunsTo fold bytes text) :
    (literalsToQueryPlan text).Holds (pre ++ (bytes ++ post)) := by
  rw [literalsToQueryPlan]
  split_ifs
  · exact .matchAll
  · exact .and (literalQueries_hold hrun)

/-! ## Folded classes -/

/-- What adding a range to the folded byte says about both. -/
lemma addRange_eq_some {folded : Option UInt8} {s e : UInt32} (h : addRange folded s e = some byte)
    : s = e ∧ s ≤ 0x7f ∧ toAsciiLowercase s.toUInt8 = byte ∧ ∀ b ∈ folded, b = byte := by
  rw [addRange] at h
  split_ifs at h with hse
  obtain ⟨heq, hle⟩ : s = e ∧ s ≤ 0x7f := by simpa using hse
  cases folded with
  | none => exact ⟨heq, hle, by simpa using h, by simp⟩
  | some previous =>
    obtain ⟨hprev, hbyte⟩ : previous = toAsciiLowercase s.toUInt8 ∧
        toAsciiLowercase s.toUInt8 = byte := by simpa using h
    exact ⟨heq, hle, hbyte, by simp [hprev, hbyte]⟩

/-- If all ranges are added, each is one ASCII character that folds to the resulting byte. -/
lemma addRanges_eq_some {ranges : List (UInt32 × UInt32)} {folded : Option UInt8}
    (h : addRanges folded ranges = some (some byte)) :
    (∀ b ∈ folded, b = byte) ∧ ∀ s e, (s, e) ∈ ranges →
      s = e ∧ s ≤ 0x7f ∧ toAsciiLowercase s.toUInt8 = byte := by
  induction ranges generalizing folded with
  | nil =>
    rw [addRanges, some.injEq] at h
    simp [h]
  | cons r ranges ih =>
    obtain ⟨s, e⟩ := r
    rw [addRanges] at h
    cases hadd : addRange folded s e with
    | none => simp [hadd] at h
    | some b =>
      obtain ⟨heq, hle, hlow, hfolded⟩ := addRange_eq_some hadd
      rw [hadd] at h
      obtain ⟨hb, hranges⟩ := ih h
      obtain rfl : b = byte := hb b rfl
      refine ⟨hfolded, fun s' e' hmem => ?_⟩
      rcases mem_cons.mp hmem with heq' | hmem'
      · obtain ⟨rfl, rfl⟩ := Prod.mk.inj heq'
        exact ⟨heq, hle, hlow⟩
      · exact hranges s' e' hmem'

/-- Every member of a class that folds to one byte is one byte, and folds to that byte. -/
lemma asciiClassLiteral_sound {ranges : Class} (h : asciiClassLiteral ranges = some byte)
    (hm : ranges.Matches mid) : ∃ b, mid = [b] ∧ toAsciiLowercase b = byte := by
  cases hm with
  | @unicode ranges s e c hmem hsc hce =>
    obtain ⟨-, hranges⟩ := addRanges_eq_some (Option.join_eq_some_iff.mp h)
    obtain ⟨heq, hle, hlow⟩ := hranges s.val e.val (mem_map.mpr ⟨(s, e), hmem, rfl⟩)
    obtain rfl : s = c := Char.ext (UInt32.le_antisymm hsc (heq ▸ hce))
    refine ⟨s.val.toUInt8, ?_, hlow⟩
    exact String.utf8EncodeChar_eq_singleton (Char.utf8Size_eq_one_iff.mpr hle)
  | @bytes ranges s e b hmem hsb hbe =>
    obtain ⟨-, hranges⟩ := addRanges_eq_some (Option.join_eq_some_iff.mp h)
    obtain ⟨heq, -, hlow⟩ :=
      hranges s.toUInt32 e.toUInt32 (mem_map.mpr ⟨(s, e), hmem, rfl⟩)
    obtain rfl : s = e := UInt8.toUInt32_inj.mp heq
    obtain rfl : s = b := UInt8.le_antisymm hsb hbe
    exact ⟨s, rfl, by simpa using hlow⟩

/-! ## The loop over a concatenation -/

/-- The loop has read the part `pre` of the content: its queries hold in the content, and the run
it is collecting is the text of a suffix of `pre`. -/
structure ConcatState.Tracks (s : ConcatState) (content pre : List UInt8) : Prop where
  holds : ∀ q ∈ s.allQueries, q.Holds content
  run : ∃ before bytes, pre = before ++ bytes ∧ RunsTo s.foldRun bytes s.runText

namespace ConcatState.Tracks

variable {s : ConcatState} {content pre post : List UInt8}

/-- Nothing is tracked yet. -/
lemma start (content pre : List UInt8) : Tracks {} content pre :=
  ⟨by simp, pre, [], by simp, rfl⟩

/-- Ending the run adds queries that hold. -/
lemma flush (h : s.Tracks (pre ++ post) pre) : s.flush.Tracks (pre ++ post) pre := by
  obtain ⟨before, bytes, hpre, hrun⟩ := h.run
  refine ⟨?_, pre, [], by simp, rfl⟩
  have hplan : (literalsToQueryPlan s.runText).Holds (pre ++ post) := by
    rw [hpre, append_assoc]
    exact literalsToQueryPlan_holds hrun
  rw [ConcatState.flush]
  intro q hq
  cases hl : literalsToQueryPlan s.runText with
  | and run =>
    rw [hl] at hq hplan
    rcases mem_append.mp hq with hq | hq
    · exact h.holds q hq
    · exact hplan.of_and q hq
  | or plans =>
    rw [hl] at hq
    exact h.holds q hq
  | matchAll =>
    rw [hl] at hq
    exact h.holds q hq

/-- After a run has ended, the loop may go on anywhere. -/
lemma restart (h : s.flush.Tracks content pre) (pre' : List UInt8) : s.flush.Tracks content pre' :=
  ⟨h.holds, pre', [], by simp, rfl⟩

/-- A literal child extends the run. -/
lemma pushLiteral {bytes : List UInt8} (h : s.Tracks content pre) :
    (s.pushLiteral bytes).Tracks content (pre ++ bytes) := by
  obtain ⟨before, run, rfl, hrun⟩ := h.run
  refine ⟨h.holds, before, run ++ bytes, append_assoc _ _ _, ?_⟩
  have hb : RunsTo s.foldRun bytes (if s.foldRun then bytes.map toAsciiLowercase else bytes) := by
    cases s.foldRun <;> rfl
  have := hrun.append hb
  rw [runText] at this
  rw [runText]
  cases hf : s.foldRun <;> simpa [ConcatState.pushLiteral, hf] using this

/-- A folded class extends the run, which is folded from then on. -/
lemma pushFolded {b : UInt8} (h : s.Tracks content pre) :
    (s.pushFolded (toAsciiLowercase b)).Tracks content (pre ++ [b]) := by
  obtain ⟨before, run, rfl, hrun⟩ := h.run
  refine ⟨h.holds, before, run ++ [b], append_assoc _ _ _, ?_⟩
  have hb : RunsTo true [b] [toAsciiLowercase b] := rfl
  have := hrun.fold.append hb
  rw [runText] at this
  rw [runText]
  cases hf : s.foldRun <;>
    simpa [ConcatState.pushFolded, hf, toAsciiLowercase_idem, Function.comp_def] using this

/-- Another child ends the run and adds the queries of its plan. -/
lemma pushPlan {plan : QueryPlan} (h : s.Tracks (pre ++ post) pre)
    (hplan : plan.Holds (pre ++ post)) (pre' : List UInt8) :
    (s.pushPlan plan).Tracks (pre ++ post) pre' := by
  cases plan with
  | and queries =>
    refine ⟨fun q hq => ?_, pre', [], by simp, rfl⟩
    rcases mem_append.mp hq with hq | hq
    · exact h.flush.holds q hq
    · exact hplan.of_and q hq
  | or plans => exact h.flush.restart pre'
  | matchAll => exact h.flush.restart pre'

/-- The plan of the concatenation holds. -/
lemma finish (h : s.Tracks (pre ++ post) pre) : s.finish.Holds (pre ++ post) := by
  rw [ConcatState.finish]
  split_ifs
  · exact .matchAll
  · exact .and h.flush.holds

end ConcatState.Tracks

/-! ## Plans -/

/-- A match with at least one repetition contains a match of the repeated node. -/
lemma Hir.MatchesSeq.replicate {sub : Hir} {n : ℕ} (hn : 1 ≤ n)
    (h : Hir.MatchesSeq L (List.replicate n sub) pre mid post) :
    ∃ mid' rest, mid = mid' ++ rest ∧ Hir.Matches L sub pre mid' (rest ++ post) := by
  obtain ⟨n, rfl⟩ : ∃ m, n = m + 1 := ⟨n - 1, by omega⟩
  rw [replicate_succ] at h
  cases h with
  | cons hsub _ => exact ⟨_, _, rfl, hsub⟩

/-- One child of a concatenation keeps the loop on track. -/
lemma concatStep_tracks {s : ConcatState} {sub : Hir} (h : s.Tracks (pre ++ (mid ++ post)) pre)
    (hm : Hir.Matches L sub pre mid post) (hplan : (decomposeHir sub).Holds (pre ++ (mid ++ post)))
    : (concatStep s sub).Tracks (pre ++ (mid ++ post)) (pre ++ mid) := by
  cases sub with
  | literal bytes =>
    cases hm
    exact h.pushLiteral
  | «class» ranges =>
    rw [concatStep]
    cases hc : asciiClassLiteral ranges with
    | none => exact h.flush.restart _
    | some byte =>
      cases hm with
      | «class» hmid =>
        obtain ⟨b, rfl, rfl⟩ := asciiClassLiteral_sound hc hmid
        exact h.pushFolded
  | _ => exact h.pushPlan hplan _

/-- The loop over the children of a concatenation stays on track over their matches.

**Proof sketch.** Induction on the children: each one matches the part of the content right after
the parts of those before it. -/
lemma foldl_concatStep_tracks {subs : List Hir}
    (hsubs : ∀ sub ∈ subs, ∀ pre mid post, Hir.Matches L sub pre mid post →
      (decomposeHir sub).Holds (pre ++ (mid ++ post))) {s : ConcatState}
    (hm : Hir.MatchesSeq L subs pre mid post) (h : s.Tracks (pre ++ (mid ++ post)) pre) :
    (subs.foldl concatStep s).Tracks (pre ++ (mid ++ post)) (pre ++ mid) := by
  induction subs generalizing s pre mid with
  | nil =>
    cases hm
    simpa using h
  | cons sub subs ih =>
    cases hm with
    | @cons _ _ _ mid rest _ hsub hrest =>
      obtain ⟨hhead, htail⟩ := List.forall_mem_cons.mp hsubs
      rw [append_assoc] at h
      have hstep := concatStep_tracks h hsub (hhead _ _ _ hsub)
      rw [← append_assoc] at hstep
      have hloop := ih htail hrest hstep
      simpa only [foldl_cons, append_assoc] using hloop

/-- **A content with a match satisfies the plan of the regex.**

**Proof sketch.** Induction on the tree. In a concatenation the children match consecutive parts
of the content, and the loop over them keeps a run that stands for the part just read; the other
nodes pass on the match to a child, whose matched part is a part of the same content. -/
theorem decomposeHir_holds {hir : Hir} :
    ∀ {pre mid post : List UInt8}, Hir.Matches L hir pre mid post →
      (decomposeHir hir).Holds (pre ++ (mid ++ post)) := by
  induction hir with
  | literal bytes =>
    intro pre mid post hm
    cases hm
    have hrun : RunsTo false bytes bytes := rfl
    rw [decomposeHir]
    exact literalsToQueryPlan_holds hrun
  | concat subs ih =>
    intro pre mid post hm
    cases hm with
    | concat hseq =>
      have hloop := foldl_concatStep_tracks (fun sub hsub _ _ _ => ih sub hsub) hseq
        (.start (pre ++ (mid ++ post)) pre)
      rw [← append_assoc] at hloop ⊢
      rw [decomposeHir, decomposeConcat_eq_foldl]
      exact hloop.finish
  | alternation alts ih =>
    intro pre mid post hm
    rw [decomposeHir]
    split_ifs
    · exact .matchAll
    · cases hm with
      | alternation halt hm =>
        rw [decomposeAlternation_eq_map]
        exact .or (List.mem_map.mpr ⟨_, halt, rfl⟩) (ih _ halt hm)
  | repetition min max sub ih =>
    intro pre mid post hm
    rw [decomposeHir]
    split_ifs with hmin
    · cases hm with
      | repetition hn _ hseq =>
        have h1 : 1 ≤ min.toNat := hmin
        obtain ⟨mid', rest, rfl, hsub⟩ := hseq.replicate (h1.trans hn)
        rw [append_assoc]
        exact ih hsub
    · exact .matchAll
  | capture sub ih =>
    intro pre mid post hm
    cases hm with
    | capture hm =>
      rw [decomposeHir]
      exact ih hm
  | «class» ranges =>
    intros
    rw [decomposeHir]
    exact .matchAll
  | look kind =>
    intros
    rw [decomposeHir]
    exact .matchAll
  | empty =>
    intros
    rw [decomposeHir]
    exact .matchAll

/-- **Simplifying keeps what holds**: the queries that stay are among the queries, and a branch
of an alternative stays a branch, or is the plan itself. -/
theorem simplify_holds (h : p.Holds content) : (simplify p).Holds content := by
  induction h with
  | @and queries h =>
    by_cases hne : queries = []
    · subst hne
      rw [simplify, if_pos (by simp [dedupQueries_eq_nil])]
      exact .matchAll
    · rw [simplify_and hne]
      exact .and fun q hq => h q (mem_of_mem_dedupQueries hq)
  | @or plans p hp _ ih =>
    by_cases hlen : plans.length = 1
    · obtain ⟨p', rfl⟩ := length_eq_one_iff.mp hlen
      obtain rfl : p = p' := by simpa using hp
      rw [simplify_or_singleton]
      exact ih
    · rw [simplify_or hlen]
      exact .or (mem_map.mpr ⟨p, hp, rfl⟩) ih
  | matchAll =>
    rw [simplify]
    exact .matchAll

/-- **Simplifying a proper plan leaves a proper plan.** -/
theorem simplify_proper (h : p.Proper) : (simplify p).Proper := by
  induction h with
  | @and queries hne =>
    rw [simplify_and hne]
    exact .and fun hnil => hne (dedupQueries_eq_nil.mp hnil)
  | @or plans _ ih =>
    by_cases hlen : plans.length = 1
    · obtain ⟨p', rfl⟩ := length_eq_one_iff.mp hlen
      rw [simplify_or_singleton]
      exact ih p' (by simp)
    · rw [simplify_or hlen]
      exact .or (forall_mem_map.mpr ih)

/-! ## Candidates -/

/-- The lookup holds exactly the postings of the files: one posting per file and trigram of its
content, with the masks of the file's table. -/
def PostingsOf (files : FinMap UInt32 (List UInt8)) (lookup : TrigramHash → List PostingEntry) :
    Prop :=
  ∀ h e, e ∈ lookup h ↔ ∃ content, files.get? e.fileId = some content ∧
    (extractMergedMasks content).get? h = some ⟨e.locMask, e.nextMask⟩

/-- The postings of a trigram have one posting per file. -/
lemma PostingsOf.injOn (h : PostingsOf files lookup) (t : TrigramHash) :
    ∀ a ∈ lookup t, ∀ b ∈ lookup t, a.fileId = b.fileId → a = b := by
  intro a ha b hb hab
  obtain ⟨content, hfile, hmasks⟩ := (h t a).mp ha
  obtain ⟨content', hfile', hmasks'⟩ := (h t b).mp hb
  obtain rfl : content = content' := by
    rw [hab, hfile'] at hfile
    exact (some.inj hfile).symm
  obtain ⟨hloc, hnext⟩ := TrigramMasks.mk.inj (some.inj (hmasks.symm.trans hmasks'))
  cases a
  cases b
  simp_all

/-- The postings of the files, listed in ascending file order. -/
def lookupOf (files : FinMap UInt32 (List UInt8)) (h : TrigramHash) : List PostingEntry :=
  files.toList.filterMap fun f =>
    ((extractMergedMasks f.2).get? h).map fun m => ⟨f.1, m.locMask, m.nextMask⟩

/-- The listed postings are the postings of the files. -/
lemma postingsOf_lookupOf (files : FinMap UInt32 (List UInt8)) :
    PostingsOf files (lookupOf files) := by
  rintro h ⟨id, loc, next⟩
  simp only [lookupOf, mem_filterMap, Prod.exists, FinMap.mem_toList, map_eq_some_iff,
    PostingEntry.mk.injEq]
  constructor
  · rintro ⟨_, content, hfile, ⟨loc', next'⟩, hm, rfl, rfl, rfl⟩
    exact ⟨content, hfile, hm⟩
  · rintro ⟨content, hfile, hm⟩
    exact ⟨id, content, hfile, _, hm, rfl, rfl, rfl⟩

/-- A query that holds in a file's content has a posting for the file. -/
lemma TrigramQuery.Holds.hasPosting (h : PostingsOf files lookup) {id : UInt32}
    (hfile : files.get? id = some content) {q : TrigramQuery} (hq : q.Holds content) :
    HasPosting q (lookup q.hash) id := by
  obtain ⟨⟨loc, next⟩, hmasks, -, hnext⟩ := hq
  rw [hasPosting_iff (h.injOn q.hash)]
  refine ⟨⟨id, loc, next⟩, (h _ _).mpr ⟨content, hfile, hmasks⟩, rfl, ?_⟩
  cases hexp : q.expectedNext with
  | none => simp [TrigramQuery.passes, hexp]
  | some byte =>
    rw [hexp] at hnext
    have hbit : next &&& bloomHash byte ≠ 0 := hnext.and_ne_zero (nextBit_ne_zero byte)
    simpa [TrigramQuery.passes, hexp] using hbit

/-- A file whose content satisfies a proper plan is selected by it. -/
lemma QueryPlan.Holds.selects (h : PostingsOf files lookup) {id : UInt32}
    (hfile : files.get? id = some content) (hp : p.Holds content) (hproper : p.Proper) :
    p.Selects lookup id := by
  induction hp with
  | and hq =>
    cases hproper with
    | and hne => exact .and hne fun q hmem => (hq q hmem).hasPosting h hfile
  | or hmem _ ih =>
    cases hproper with
    | or hall => exact .or hmem (ih (hall _ hmem))
  | matchAll => exact absurd rfl hproper.ne_matchAll

/-- **The index loses no match.** Let the lookup hold the postings of the files. Unless the plan
of a regex is `MatchAll`, in which case every file is scanned, every file with a match of the
regex is a candidate of the plan.

**Proof sketch.** A content with a match satisfies the plan (`decomposeHir_holds`) and its
simplification (`simplify_holds`). A plan that is not `MatchAll` is proper, so a file whose
content satisfies it has the postings that select it. -/
theorem executePlan_no_false_negatives (L : Hir.LookSemantics) (hir : Hir)
    (files : FinMap UInt32 (List UInt8)) (lookup : TrigramHash → List PostingEntry)
    (hlookup : PostingsOf files lookup) :
    simplify (decomposeHir hir) = .matchAll ∨
      ∀ id content, files.get? id = some content → hir.MatchesIn L content →
        id ∈ executePlanWithMasks (simplify (decomposeHir hir)) lookup := by
  rcases decomposeHir_proper hir with hall | hproper
  · left
    rw [hall, simplify]
  · right
    rintro id content hfile ⟨pre, mid, post, rfl, hm⟩
    rw [append_assoc] at hfile
    have hholds := simplify_holds (decomposeHir_holds hm)
    exact mem_executePlanWithMasks.mpr (hholds.selects hlookup hfile (simplify_proper hproper))

/-- The file `xabCd` is a candidate of the regex `a[b][Cc]`. -/
theorem executePlan_no_false_negatives_folded :
    7 ∈ executePlanWithMasks
      (simplify (decomposeHir (.concat [.literal [97], .class (.bytes [(98, 98)]),
        .class (.unicode [('C', 'C'), ('c', 'c')])])))
      (lookupOf (FinMap.empty.insert 7 [120, 97, 98, 67, 100])) := by
  rcases executePlan_no_false_negatives (fun _ _ _ => True)
    (.concat [.literal [97], .class (.bytes [(98, 98)]),
      .class (.unicode [('C', 'C'), ('c', 'c')])]) _ _ (postingsOf_lookupOf _) with h | h
  · exact absurd (congrArg QueryPlan.isMatchAll h) (by decide)
  · refine h 7 [120, 97, 98, 67, 100] rfl ⟨[120], [97, 98, 67], [100], rfl, .concat ?_⟩
    have hC : Class.Matches (.unicode [('C', 'C'), ('c', 'c')]) [67] :=
      Class.Matches.unicode (c := 'C') (mem_cons_self ..) (by decide) (by decide)
    have hb : Class.Matches (.bytes [(98, 98)]) [98] :=
      Class.Matches.bytes (mem_cons_self ..) le_rfl le_rfl
    change Hir.MatchesSeq _ _ [120] ([97] ++ ([98] ++ ([67] ++ []))) [100]
    exact .cons .literal (.cons (.class hb) (.cons (.class hC) .nil))

end Tgrep
