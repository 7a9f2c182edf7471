import Mathlib.Tactic.IntervalCases
import Tgrep.Data.Run
import Tgrep.Worktrees.Hints

/-!
# Hints stand for everything that was queued

Hints are coarsened any number of times, and put back after a pass has failed. Whatever was hinted
is hinted afterwards, unless everything is going to be read.

## Main definitions

* `AtOrBelow`, `Hinted`: what a hint stands for, and what a set of hints stands for.
* `IsHint`: the texts that are queued as hints.
* `View.Invariant`, `View.Due`: the hints of a view are in order; a path is still to be read.

## Main results

* `isHinted_iff`: a lookup finds what the hints stand for.
* `coarsen_covers`, `queueHint_covers`: what coarsening and queueing keep.
* `View.Due.step`: only a publication makes a path that was queued stop being due.
* `View.hints_cover`: queueing, the callers and the runs together.
-/

namespace Tgrep.Worktrees

open List

open Coarsening (Above Covers covers_iff)

/-! ## What a hint stands for -/

/-- The path is the hint, or lies below it. -/
def AtOrBelow (hint path : Path) : Prop := path = hint ∨ ∃ rest, path = hint ++ '/' :: rest

variable {hints : Finset Path} {path : Path}

variable {n : ℕ} {hint : Path} {result : Bool} {deepest capacity : ℕ} {relative : Path}
  (text : List Char) {hints' : Finset Path}

/-- What is at a path or below it is what the path is above of. -/
lemma above_iff : Above parent hint path ↔ AtOrBelow hint path := by
  constructor
  · intro h
    induction hn : depth path using Nat.strong_induction_on generalizing path with
    | h n ih =>
      rcases h.cases with rfl | ⟨before, hbefore, habove⟩
      · exact .inl rfl
      · have hdepth := depth_of_parent hbefore
        obtain ⟨name, rfl, -⟩ := parent_eq_some.mp hbefore
        rcases ih (depth before) (by omega) habove rfl with rfl | ⟨rest, rfl⟩
        · exact .inr ⟨name, rfl⟩
        · exact .inr ⟨rest ++ '/' :: name, by rw [append_assoc]; rfl⟩
  · rintro (rfl | ⟨rest, rfl⟩)
    · exact Above.refl _
    · induction hn : depth rest using Nat.strong_induction_on generalizing rest with
      | h n ih =>
        cases hrest : parent rest with
        | none => exact Above.of_parent (parent_eq_some.mpr ⟨rest, rfl, parent_eq_none.mp hrest⟩)
        | some before =>
          have hdepth := depth_of_parent hrest
          obtain ⟨name, rfl, hname⟩ := parent_eq_some.mp hrest
          have hparent : parent (hint ++ '/' :: (before ++ '/' :: name)) =
              some (hint ++ '/' :: before) :=
            parent_eq_some.mpr ⟨name, by rw [append_assoc]; rfl, hname⟩
          exact (ih (depth before) (by omega) before rfl).trans (Above.of_parent hparent)

/-- A lookup finds what the hints stand for. -/
lemma lookup_iff : (lookup hints path n).1 = true ↔ Covers parent hints path := by
  induction hd : depth path using Nat.strong_induction_on generalizing path n with
  | h d ih =>
    rw [lookup, covers_iff]
    by_cases hmem : path ∈ hints
    · simp [hmem]
    · rw [if_neg hmem]
      split
      · rename_i hnone
        simp [hmem, hnone]
      · rename_i before hbefore
        have hdepth := depth_of_parent hbefore
        rw [ih (depth before) (by omega) rfl, hbefore]
        simp [hmem]

/-- The hints stand for a path. -/
def Hinted (hints : Finset Path) (path : Path) : Prop := (isHinted path hints 0).1 = true

/-- **What the hints stand for**: the path is a hint or below one, but for the case of its ASCII
letters. -/
lemma isHinted_iff :
    (isHinted path hints n).1 = true ↔ ∃ hint ∈ hints, AtOrBelow hint (lower path) := by
  have hlookup : (lookup hints (lower path) n).1 = true ↔
      ∃ hint ∈ hints, AtOrBelow hint (lower path) := by
    rw [lookup_iff]
    exact exists_congr fun hint => and_congr_right fun _ => above_iff
  unfold isHinted
  split_ifs with hempty
  · subst hempty
    simp
  · exact hlookup

/-! ## Folding letters -/

/-- Folding a letter gives no separator. -/
lemma asciiLower_eq_slash {c : Char} : asciiLower c = '/' ↔ c = '/' := by
  unfold asciiLower
  split_ifs with hupper
  · have hlow : 65 ≤ c.toNat := hupper.1
    have hhigh : c.toNat ≤ 90 := hupper.2
    constructor
    · intro h
      have hnat := congrArg Char.toNat h
      interval_cases c.toNat <;> simp at hnat
    · rintro rfl
      exact absurd hlow (by decide)
  · exact Iff.rfl

/-- Folding twice is folding once. -/
lemma asciiLower_idem (c : Char) : asciiLower (asciiLower c) = asciiLower c := by
  unfold asciiLower
  split_ifs with hupper hagain
  · have hlow : 65 ≤ c.toNat := hupper.1
    have hhigh : c.toNat ≤ 90 := hupper.2
    have hlower : (Char.ofNat (c.toNat + 32)).toNat ≤ 90 := hagain.2
    interval_cases c.toNat <;> simp at hlower
  · rfl
  · rfl

lemma lower_append (a b : Path) : lower (a ++ b) = lower a ++ lower b := map_append

lemma lower_lower (path : Path) : lower (lower path) = lower path := by
  rw [lower, lower, map_map]
  exact map_congr_left fun c _ => asciiLower_idem c

/-- What is below something below a path is below the path. -/
lemma AtOrBelow.trans {a b c : Path} (h : AtOrBelow a b) (h' : AtOrBelow b c) : AtOrBelow a c :=
  above_iff.mp ((above_iff.mpr h).trans (above_iff.mpr h'))

/-! ## Coarsening -/

/-- A text that is queued as a hint: in lower case, and not empty up to the first separator. -/
structure IsHint (path : Path) : Prop where
  ne_nil : path ≠ []
  relative : path.head? ≠ some '/'
  folded : lower path = path

/-- The parent of a hint is a hint. -/
lemma IsHint.parent {before : Path} (h : IsHint path)
    (hbefore : Worktrees.parent path = some before) : IsHint before := by
  obtain ⟨name, rfl, -⟩ := parent_eq_some.mp hbefore
  cases before with
  | nil => exact absurd rfl h.relative
  | cons c cs =>
    refine ⟨cons_ne_nil c cs, h.relative, ?_⟩
    have hfolded := h.folded
    rw [lower_append] at hfolded
    exact (append_inj hfolded (length_map _)).1

/-- Coarsening replaces every hint by one above it, which is a hint. -/
lemma IsHint.shorten (h : IsHint path) (hdeep : 1 < deepest) :
    Above Worktrees.parent (Worktrees.shorten deepest path) path ∧
      IsHint (Worktrees.shorten deepest path) := by
  unfold Worktrees.shorten
  split_ifs with hdepth
  · obtain ⟨before, hbefore⟩ := exists_parent (hdepth.symm ▸ hdeep)
    rw [parentPath, hbefore]
    exact ⟨Above.of_parent hbefore, h.parent hbefore⟩
  · exact ⟨Above.refl _, h⟩

/-- **Coarsening uncovers nothing**, and leaves hints. -/
lemma coarsen_covers (h : ∀ hint ∈ hints, IsHint hint) (hdeep : 1 < deepest) :
    (∀ path, Covers parent hints path → Covers parent (coarsen hints deepest) path) ∧
      ∀ hint ∈ coarsen hints deepest, IsHint hint := by
  have himage : ∀ hint ∈ hints.image (shorten deepest), IsHint hint := by
    intro hint hmem
    obtain ⟨path, hpath, rfl⟩ := Finset.mem_image.mp hmem
    exact ((h path hpath).shorten hdeep).2
  refine ⟨fun path hcovers => ?_, fun hint hmem => himage hint (Finset.mem_of_mem_filter _ hmem)⟩
  have habove := hcovers.image fun hint hmem => ((h hint hmem).shorten hdeep).1
  refine @Covers.filter _ _ _ _ depth (fun a b hab => ?_) _ _ (fun hint hmem hdropped => ?_) habove
  · have := depth_of_parent hab
    omega
  · -- a hint is left out because its parent is hinted
    rw [Bool.not_eq_false] at hdropped
    obtain ⟨other, hother, hbelow⟩ := isHinted_iff.mp hdropped
    cases hparent : parent hint with
    | some before =>
      rw [parentPath, hparent, Option.getD_some, ((himage hint hmem).parent hparent).folded]
        at hbelow
      exact ⟨before, rfl, other, hother, above_iff.mpr hbelow⟩
    | none =>
      -- nothing but the empty text is above the empty text
      rw [parentPath, hparent, Option.getD_none] at hbelow
      rcases hbelow with heq | ⟨rest, heq⟩
      · exact absurd heq.symm (himage other hother).ne_nil
      · exact absurd heq.symm (by simp [lower])

/-- Coarsening until few are left uncovers nothing, and leaves hints. -/
lemma coarsenTo_covers {target : ℕ} (htarget : target ≤ capacity) (h : ∀ hint ∈ hints, IsHint hint)
    (hresult : coarsenTo capacity target hints = (result, hints')) :
    (∀ path, Covers parent hints path → Covers parent hints' path) ∧
      (∀ hint ∈ hints', IsHint hint) ∧ (result = true → hints'.card ≤ capacity) := by
  induction hn : hints.sup depth using Nat.strong_induction_on generalizing hints with
  | h n ih =>
    rw [coarsenTo] at hresult
    dsimp only at hresult
    split_ifs at hresult with hfew hflat
    · cases hresult
      exact ⟨fun _ hcovers => hcovers, h, fun _ => hfew.trans htarget⟩
    · cases hresult
      exact ⟨fun _ hcovers => hcovers, h, of_decide_eq_true⟩
    · have hdeep : 1 < hints.sup depth := by omega
      obtain ⟨hcovers, hhints⟩ := coarsen_covers h hdeep
      obtain ⟨hcovers', hrest⟩ := ih _ (hn ▸ depth_coarsen_lt hdeep) hhints hresult rfl
      exact ⟨fun path hpath => hcovers' path (hcovers path hpath), hrest⟩

/-- **Queueing a hint** uncovers nothing and covers the hint. -/
lemma queueHint_covers (h : ∀ hint ∈ hints, IsHint hint) (hpath : IsHint path)
    (hresult : queueHint hints path capacity = (result, hints')) :
    (∀ p, Hinted hints p ∨ AtOrBelow path (lower p) → Hinted hints' p) ∧
      (∀ hint ∈ hints', IsHint hint) ∧
      (result = true → hints.card ≤ capacity → hints'.card ≤ capacity) := by
  have hcover : ∀ (s : Finset Path) (p : Path), Hinted s p ↔ Covers parent s (lower p) :=
    fun s p => isHinted_iff.trans (exists_congr fun hint => and_congr_right fun _ => above_iff.symm)
  unfold queueHint at hresult
  by_cases hold : (isHinted path hints 0).1 = true
  · rw [if_pos hold] at hresult
    cases hresult
    refine ⟨fun p hp => hp.elim id fun hbelow => ?_, h, fun _ => id⟩
    obtain ⟨hint, hhint, habove⟩ := isHinted_iff.mp hold
    rw [hpath.folded] at habove
    exact isHinted_iff.mpr ⟨hint, hhint, habove.trans hbelow⟩
  · rw [if_neg hold] at hresult
    dsimp only at hresult
    -- with the new hint among them, the hints cover what they have to
    have hinsert : ∀ p, Hinted hints p ∨ AtOrBelow path (lower p) →
        Covers parent (insert path hints) (lower p) := by
      rintro p (hp | hbelow)
      · exact ((hcover hints p).mp hp).mono (Finset.subset_insert path hints)
      · exact ⟨path, Finset.mem_insert_self path hints, above_iff.mpr hbelow⟩
    have hhints : ∀ hint ∈ insert path hints, IsHint hint := by
      intro hint hmem
      rcases Finset.mem_insert.mp hmem with rfl | hmem
      · exact hpath
      · exact h hint hmem
    split_ifs at hresult with hfits
    · cases hresult
      exact ⟨fun p hp => (hcover _ p).mpr (hinsert p hp), hhints, fun _ _ => hfits⟩
    · have htarget : max (capacity / 2) (min capacity 1) ≤ capacity := by omega
      obtain ⟨hcovers, hhints', hcard⟩ := coarsenTo_covers htarget hhints hresult
      exact ⟨fun p hp => (hcover _ p).mpr (hcovers _ (hinsert p hp)), hhints',
        fun htrue _ => hcard htrue⟩

/-! ## The paths that are accepted -/

/-- No part has a separator. -/
lemma not_mem_splitSlash {text part : List Char} (h : part ∈ splitSlash text) : '/' ∉ part := by
  induction text generalizing part with
  | nil =>
    rw [splitSlash, mem_singleton] at h
    rw [h]
    exact not_mem_nil
  | cons c cs ih =>
    rw [splitSlash] at h
    split_ifs at h with hc
    · rcases List.mem_cons.mp h with rfl | h
      · exact not_mem_nil
      · exact ih h
    · cases hcs : splitSlash cs with
      | nil =>
        rw [hcs, mem_singleton] at h
        rw [h, mem_singleton]
        exact Ne.symm hc
      | cons first parts =>
        rw [hcs] at h ih
        rcases List.mem_cons.mp h with rfl | h
        · rw [mem_cons, not_or]
          exact ⟨Ne.symm hc, ih mem_cons_self⟩
        · exact ih (mem_cons_of_mem _ h)

/-- There is always a part. -/
lemma splitSlash_ne_nil : splitSlash text ≠ [] := by
  cases text with
  | nil => exact cons_ne_nil _ _
  | cons c cs =>
    rw [splitSlash]
    split_ifs
    · exact cons_ne_nil _ _
    · split <;> exact cons_ne_nil _ _

/-- Joining two lists of parts. -/
lemma joinSlash_cons (part : List Char) {parts : List (List Char)} (h : parts ≠ []) :
    joinSlash (part :: parts) = part ++ '/' :: joinSlash parts := by
  rw [joinSlash, intercalate_cons_of_ne_nil h]
  simp [joinSlash]

/-- The parts of a text make up the text. -/
lemma joinSlash_splitSlash : joinSlash (splitSlash text) = text := by
  induction text with
  | nil => rfl
  | cons c cs ih =>
    rw [splitSlash]
    split_ifs with hc
    · rw [joinSlash_cons [] (splitSlash_ne_nil cs), ih, hc]
      rfl
    · cases hcs : splitSlash cs with
      | nil => exact absurd hcs (splitSlash_ne_nil cs)
      | cons first parts =>
        rw [hcs] at ih
        dsimp only
        rw [← ih]
        cases parts with
        | nil => simp [joinSlash]
        | cons second parts =>
          rw [joinSlash_cons _ (cons_ne_nil _ _), joinSlash_cons _ (cons_ne_nil _ _)]
          rfl

/-- The first parts of a text are what the rest of it lies below. -/
lemma atOrBelow_joinSlash {before after : List (List Char)} (h : before ≠ []) :
    AtOrBelow (joinSlash before) (joinSlash (before ++ after)) := by
  induction before with
  | nil => exact absurd rfl h
  | cons part parts ih =>
    cases parts with
    | nil =>
      cases after with
      | nil => exact .inl rfl
      | cons next after =>
        refine .inr ⟨joinSlash (next :: after), ?_⟩
        rw [singleton_append, joinSlash_cons part (cons_ne_nil _ _)]
        simp [joinSlash]
    | cons second parts =>
      have hne : second :: parts ++ after ≠ [] := cons_ne_nil _ _
      rw [cons_append, joinSlash_cons part hne, joinSlash_cons part (cons_ne_nil _ _)]
      rcases ih (cons_ne_nil _ _) with heq | ⟨rest, heq⟩
      · exact .inl (by rw [heq])
      · exact .inr ⟨rest, by rw [heq, append_assoc]; rfl⟩

/-- A path that is accepted does not begin with a separator. -/
lemma head_of_relativePath {path : OsPath} (h : relativePath path = .ok relative) :
    relative.head? ≠ some '/' := by
  unfold relativePath at h
  dsimp only at h
  split_ifs at h
  cases h
  cases hparts : (splitSlash path.text).filter fun part => part ≠ [] ∧ part ≠ ['.'] with
  | nil => simp [joinSlash]
  | cons part parts =>
    have hmem : part ∈ (splitSlash path.text).filter fun part => part ≠ [] ∧ part ≠ ['.'] :=
      hparts ▸ mem_cons_self
    obtain ⟨hpart, hkept⟩ := List.mem_filter.mp hmem
    have hne : part ≠ [] := (of_decide_eq_true hkept).1
    have hslash := not_mem_splitSlash hpart
    have hhead : (joinSlash (part :: parts)).head? = part.head? := by
      cases parts with
      | nil => simp [joinSlash]
      | cons second parts =>
        rw [joinSlash_cons part (cons_ne_nil _ _)]
        exact head?_append_of_ne_nil part hne
    rw [hhead]
    intro hfirst
    exact hslash (mem_of_mem_head? hfirst)

/-- **What a caller queues** for a path that is accepted is empty, or a hint for the path. -/
lemma asciiPrefix_spec (hfolded : lower path = path) (hrelative : path.head? ≠ some '/') :
    asciiPrefix path = [] ∨ (IsHint (asciiPrefix path) ∧ AtOrBelow (asciiPrefix path) path) := by
  by_cases hempty : asciiPrefix path = []
  · exact .inl hempty
  refine .inr ?_
  have hbelow : AtOrBelow (asciiPrefix path) path := by
    unfold asciiPrefix at hempty ⊢
    split_ifs at hempty ⊢ with hascii
    · exact .inl rfl
    · set kept := (splitSlash path).takeWhile fun part => part.all fun c => c.toNat < 128 with hkept
      have hne : kept ≠ [] := by
        intro hnil
        rw [hnil] at hempty
        exact hempty rfl
      obtain ⟨rest, hrest⟩ : ∃ rest, splitSlash path = kept ++ rest :=
        ⟨_, (takeWhile_append_dropWhile).symm⟩
      have hjoin := @atOrBelow_joinSlash kept rest hne
      rw [← hrest, joinSlash_splitSlash] at hjoin
      exact hjoin
  refine ⟨?_, hbelow⟩
  rcases hbelow with heq | ⟨rest, heq⟩
  · rw [← heq] at hempty ⊢
    exact ⟨hempty, hrelative, hfolded⟩
  · rw [heq] at hrelative hfolded
    rw [lower_append] at hfolded
    refine ⟨hempty, ?_, (append_inj hfolded (length_map _)).1⟩
    rwa [head?_append_of_ne_nil _ hempty] at hrelative

/-- What a caller queues for an accepted path. -/
lemma queued_of_relativePath {path : OsPath} (h : relativePath path = .ok relative) :
    asciiPrefix (lower relative) = [] ∨ (IsHint (asciiPrefix (lower relative)) ∧
      AtOrBelow (asciiPrefix (lower relative)) (lower relative)) := by
  refine asciiPrefix_spec (lower_lower relative) ?_
  have hnot := head_of_relativePath h
  cases relative with
  | nil => exact fun hnone => (nomatch hnone)
  | cons c cs =>
    intro hslash
    rw [lower, map_cons, head?_cons, Option.some.injEq] at hslash
    exact hnot (congrArg some (asciiLower_eq_slash.mp hslash))

/-! ## What the callers keep -/

namespace Control

variable {c : Control} {capacity : ℕ}

/-- A path is still to be read: everything is, or the path is hinted. -/
def Due (c : Control) (p : Path) : Prop := c.full = true ∨ Hinted c.hints p

/-- The hints are hints, and not too many. -/
structure Invariant (capacity : ℕ) (c : Control) : Prop where
  hints : ∀ hint ∈ c.hints, IsHint hint
  card_le : c.hints.card ≤ capacity

/-- If everything has to be read, nothing is hinted. -/
lemma Invariant.readAll (c : Control) : c.readAll.Invariant capacity where
  hints hint hmem := absurd hmem (Finset.notMem_empty hint)
  card_le := Nat.zero_le _

/-- Queueing keeps what is due, and makes due what it is called for. -/
lemma Invariant.queue (h : c.Invariant capacity) {path : Path} (hpath : path = [] ∨ IsHint path) :
    (c.queue capacity path).Invariant capacity ∧
      ∀ p, c.Due p ∨ path = [] ∨ AtOrBelow path (lower p) → (c.queue capacity path).Due p := by
  unfold Control.queue
  split_ifs with hfull hempty
  · exact ⟨h, fun _ _ => .inl hfull⟩
  · exact ⟨Invariant.readAll c, fun _ _ => .inl rfl⟩
  · rcases hresult : queueHint c.hints path capacity with ⟨result, hints'⟩
    obtain ⟨hcovers, hhints, hcard⟩ :=
      queueHint_covers h.hints (hpath.resolve_left hempty) hresult
    cases result with
    | false => exact ⟨Invariant.readAll c, fun _ _ => .inl rfl⟩
    | true =>
      refine ⟨⟨hhints, hcard rfl h.card_le⟩, ?_⟩
      rintro p ((hdue | hdue) | hnil | hbelow)
      · exact absurd hdue hfull
      · exact .inr (hcovers p (.inl hdue))
      · exact absurd hnil hempty
      · exact .inr (hcovers p (.inr hbelow))

/-- A new epoch changes neither hints nor what is due. -/
lemma invalidate_cases (c : Control) :
    (∃ e, c.invalidate = (.error e, { c with ready := false })) ∨
      ∃ epoch, c.invalidate = (.ok epoch, { c with ready := false, epoch := epoch }) := by
  unfold invalidate
  dsimp only
  cases Counter.checkedAdd c.epoch 1 with
  | none => exact .inl ⟨_, rfl⟩
  | some epoch => exact .inr ⟨epoch, rfl⟩

/-- **A notification about a path** keeps what is due, and makes due what is at the path or below
it. -/
lemma Invariant.invalidatePath (h : c.Invariant capacity) (path : OsPath) :
    (c.invalidatePath capacity path).2.Invariant capacity ∧
      (∀ p, c.Due p → (c.invalidatePath capacity path).2.Due p) ∧
      ∀ epoch relative, (c.invalidatePath capacity path).1 = .ok epoch →
        relativePath path = .ok relative → ∀ p, AtOrBelow (lower relative) (lower p) →
        (c.invalidatePath capacity path).2.Due p := by
  unfold Control.invalidatePath
  rcases invalidate_cases c with ⟨e, hinvalidate⟩ | ⟨epoch, hinvalidate⟩
  · rw [hinvalidate]
    exact ⟨⟨h.hints, h.card_le⟩, fun _ hdue => hdue, fun _ _ hok => (nomatch hok)⟩
  · rw [hinvalidate]
    dsimp only
    cases hrelative : relativePath path with
    | error e =>
      exact ⟨Invariant.readAll _, fun _ _ => .inl rfl, fun _ _ hok => (nomatch hok)⟩
    | ok relative =>
      have hspec := queued_of_relativePath hrelative
      dsimp only
      set tree := c.tree || (splitSlash (asciiPrefix (lower relative))).any
        (membershipNames.contains ·)
      have hinv : Invariant capacity
          { c with ready := false, epoch := epoch, tree := tree } := ⟨h.hints, h.card_le⟩
      obtain ⟨hqueued, hdue⟩ := hinv.queue (hspec.imp_right And.left)
      refine ⟨hqueued, fun p hp => hdue p (.inl hp), fun _ _ _ heq p hp => hdue p (.inr ?_)⟩
      cases heq
      exact hspec.imp_right fun hhint => hhint.2.trans hp

/-- A step of a fold that puts hints back. -/
lemma restoreHint_spec (h : c.full = true ∨ c.Invariant capacity) {hint : Path}
    (hhint : IsHint hint) :
    ((View.restoreHint capacity c hint).full = true ∨
        (View.restoreHint capacity c hint).Invariant capacity) ∧
      ∀ p, c.Due p ∨ AtOrBelow hint (lower p) → (View.restoreHint capacity c hint).Due p := by
  unfold View.restoreHint
  split_ifs with hfull
  · exact ⟨.inl hfull, fun _ _ => .inl hfull⟩
  · have hinv := h.resolve_left hfull
    rcases hresult : queueHint c.hints hint capacity with ⟨result, hints'⟩
    obtain ⟨hcovers, hhints, hcard⟩ := queueHint_covers hinv.hints hhint hresult
    cases result with
    | false => exact ⟨.inl rfl, fun _ _ => .inl rfl⟩
    | true =>
      refine ⟨.inr ⟨hhints, hcard rfl hinv.card_le⟩, ?_⟩
      rintro p ((hdue | hdue) | hbelow)
      · exact absurd hdue hfull
      · exact .inr (hcovers p (.inl hdue))
      · exact .inr (hcovers p (.inr hbelow))

/-- Putting hints back one by one. -/
lemma foldl_restoreHint {hints : List Path} (hhints : ∀ hint ∈ hints, IsHint hint)
    (h : c.full = true ∨ c.Invariant capacity) :
    ((hints.foldl (View.restoreHint capacity) c).full = true ∨
        (hints.foldl (View.restoreHint capacity) c).Invariant capacity) ∧
      ∀ p, c.Due p ∨ (∃ hint ∈ hints, AtOrBelow hint (lower p)) →
        (hints.foldl (View.restoreHint capacity) c).Due p := by
  induction hints generalizing c with
  | nil =>
    refine ⟨h, ?_⟩
    rintro p (hdue | ⟨hint, hmem, -⟩)
    · exact hdue
    · exact absurd hmem not_mem_nil
  | cons first rest ih =>
    obtain ⟨hone, hdue⟩ := restoreHint_spec h (hhints first mem_cons_self)
    obtain ⟨hall, hdues⟩ := ih (fun hint hmem => hhints hint (mem_cons_of_mem _ hmem)) hone
    refine ⟨hall, ?_⟩
    rintro p (hp | ⟨hint, hmem, hbelow⟩)
    · exact hdues p (.inl (hdue p (.inl hp)))
    · rcases List.mem_cons.mp hmem with rfl | hmem
      · exact hdues p (.inl (hdue p (.inr hbelow)))
      · exact hdues p (.inr ⟨hint, hmem, hbelow⟩)

/-- **A pass that failed** makes due what it had taken. -/
lemma Invariant.restore (h : c.Invariant capacity) {t : TakenHints}
    (ht : ∀ hint ∈ t.hints, IsHint hint) :
    (View.restore capacity c t).Invariant capacity ∧
      ∀ p, c.Due p ∨ (t.armed = true ∧ (t.full = true ∨ Hinted t.hints p)) →
        (View.restore capacity c t).Due p := by
  unfold View.restore
  split_ifs with harmed
  · set c₀ : Control := { c with full := c.full || t.full, tree := true } with hc₀
    have hsorted : ∀ hint ∈ t.hints.sort (· ≤ ·), IsHint hint := fun hint hmem =>
      ht hint ((Finset.mem_sort (· ≤ ·)).mp hmem)
    have hinv₀ : c₀.Invariant capacity := ⟨h.hints, h.card_le⟩
    obtain ⟨hrest, hdue⟩ := foldl_restoreHint hsorted (.inr hinv₀)
    set c₁ := (t.hints.sort (· ≤ ·)).foldl (View.restoreHint capacity) c₀
    have hdue₁ : ∀ p, c.Due p ∨ (t.armed = true ∧ (t.full = true ∨ Hinted t.hints p)) →
        c₁.Due p := by
      rintro p ((hp | hp) | ⟨-, hp | hp⟩)
      · exact hdue p (.inl (.inl (by rw [hc₀, hp]; rfl)))
      · exact hdue p (.inl (.inr hp))
      · exact hdue p (.inl (.inl (by rw [hc₀, hp]; exact Bool.or_true _)))
      · obtain ⟨hint, hmem, hbelow⟩ := isHinted_iff.mp hp
        exact hdue p (.inr ⟨hint, (Finset.mem_sort (· ≤ ·)).mpr hmem, hbelow⟩)
    dsimp only
    split_ifs with hfull
    · exact ⟨⟨fun hint hmem => absurd hmem (Finset.notMem_empty hint), Nat.zero_le _⟩,
        fun _ _ => .inl hfull⟩
    · have hinv₁ := hrest.resolve_left hfull
      exact ⟨⟨hinv₁.hints, hinv₁.card_le⟩, hdue₁⟩
  · exact ⟨h, fun p hp => hp.elim id fun hnot => absurd hnot.1 harmed⟩

end Control

/-! ## Runs of a view -/

namespace View

variable {v v' : View}

/-- What holds of a view in every state. -/
structure Invariant (v : View) : Prop where
  control : v.control.Invariant v.capacity
  taken : ∀ t, v.taken = some t → ∀ hint ∈ t.hints, IsHint hint

/-- A path is still to be read: by the next pass, or by the one under way, which puts its work back
if it fails. -/
def Due (v : View) (p : Path) : Prop :=
  v.control.Due p ∨
    ∃ t, v.taken = some t ∧ t.armed = true ∧ (t.full = true ∨ Hinted t.hints p)

/-- The views that calls and passes lead to. -/
def Reachable (v : View) : Prop :=
  ∃ capacity staleReads,
    Run.Reaches step (fun _ _ => True) ⟨capacity, staleReads, {}, none⟩ v

/-- A change of what is queued alone. -/
lemma Invariant.of_control (h : v.Invariant) {c : Control} (hc : c.Invariant v.capacity)
    (hdue : ∀ p, v.control.Due p → c.Due p) :
    ({ v with control := c } : View).Invariant ∧
      ∀ p, v.Due p → ({ v with control := c } : View).Due p :=
  ⟨⟨hc, h.taken⟩, fun p => Or.imp_left (hdue p)⟩

/-- A pass that begins leaves due what was due. -/
lemma Invariant.start (h : v.Invariant) (hidle : v.taken = none) (reread : Bool) :
    (v.start reread).Invariant ∧ ∀ p, v.Due p → (v.start reread).Due p := by
  have hcontrol := h.control
  have hsource : ∀ p, v.Due p → v.control.Due p := by
    rintro p (hdue | ⟨t, ht, -⟩)
    · exact hdue
    · rw [hidle] at ht
      cases ht
  unfold View.start
  rcases Control.invalidate_cases v.control with ⟨e, hinvalidate⟩ | ⟨epoch, hinvalidate⟩
  · rw [hinvalidate]
    exact h.of_control ⟨hcontrol.hints, hcontrol.card_le⟩ fun _ hdue => hdue
  · rw [hinvalidate]
    dsimp only
    split_ifs
    · -- the pass takes the hints, and puts them back if it fails
      refine ⟨⟨⟨fun hint hmem => absurd hmem (Finset.notMem_empty hint), Nat.zero_le _⟩, ?_⟩, ?_⟩
      · intro t ht
        cases ht
        exact hcontrol.hints
      · intro p hp
        refine .inr ⟨_, rfl, rfl, (hsource p hp).imp_left fun hfull => ?_⟩
        rw [hfull, Bool.or_true]
        rfl
    · refine ⟨⟨⟨hcontrol.hints, hcontrol.card_le⟩, ?_⟩, ?_⟩
      · intro t ht
        cases ht
        exact hcontrol.hints
      · intro p hp
        refine .inl ((hsource p hp).imp_left fun hfull => ?_)
        rw [hfull]
        rfl

/-- A pass that fails leaves due what was due. -/
lemma Invariant.abandon (h : v.Invariant) {t : TakenHints} (ht : v.taken = some t) :
    ({ v with control := restore v.capacity v.control t, taken := none } : View).Invariant ∧
      ∀ p, v.Due p →
        ({ v with control := restore v.capacity v.control t, taken := none } : View).Due p := by
  obtain ⟨hinv, hdue⟩ := h.control.restore (h.taken t ht)
  refine ⟨⟨hinv, fun t ht => (nomatch ht)⟩, ?_⟩
  rintro p (hp | ⟨t', ht', hp⟩)
  · exact .inl (hdue p (.inl hp))
  · rw [ht] at ht'
    cases ht'
    exact .inl (hdue p (.inr hp))

/-- A pass that publishes leaves hints, and not too many. -/
lemma Invariant.publish (h : v.Invariant) {t : TakenHints} (ht : v.taken = some t) :
    (v.publish t).Invariant := by
  have hcontrol := h.control
  unfold View.publish
  dsimp only
  split_ifs
  · exact (h.abandon ht).1
  · exact ⟨⟨fun hint hmem => absurd hmem (Finset.notMem_empty hint), Nat.zero_le _⟩,
      fun t ht => (nomatch ht)⟩
  · exact ⟨⟨hcontrol.hints, hcontrol.card_le⟩, fun t ht => (nomatch ht)⟩

/-- **One event** keeps the invariant, and only a publication makes a path stop being due. -/
lemma Invariant.step (h : v.Invariant) {e : Event} (he : v.step e = some v') :
    v'.Invariant ∧ (e ≠ .publish → ∀ p, v.Due p → v'.Due p) := by
  have hcontrol := h.control
  cases e with
  | invalidatePath path =>
    cases he
    obtain ⟨hinv, hdue, -⟩ := hcontrol.invalidatePath path
    obtain ⟨hinv', hdue'⟩ := h.of_control hinv hdue
    exact ⟨hinv', fun _ => hdue'⟩
  | invalidateTree =>
    cases he
    have htree : v.control.invalidateTree.2.Invariant v.capacity ∧
        ∀ p, v.control.Due p → v.control.invalidateTree.2.Due p := by
      unfold Control.invalidateTree
      rcases Control.invalidate_cases v.control with ⟨e, hinvalidate⟩ | ⟨epoch, hinvalidate⟩ <;>
        rw [hinvalidate] <;>
        exact ⟨⟨hcontrol.hints, hcontrol.card_le⟩, fun _ hdue => hdue⟩
    obtain ⟨hinv', hdue'⟩ := h.of_control htree.1 htree.2
    exact ⟨hinv', fun _ => hdue'⟩
  | invalidateAll =>
    cases he
    have hall : v.control.invalidateAll.2.Invariant v.capacity ∧
        ∀ p, v.control.Due p → v.control.invalidateAll.2.Due p := by
      unfold Control.invalidateAll
      rcases Control.invalidate_cases v.control with ⟨e, hinvalidate⟩ | ⟨epoch, hinvalidate⟩
      · rw [hinvalidate]
        exact ⟨⟨hcontrol.hints, hcontrol.card_le⟩, fun _ hdue => hdue⟩
      · rw [hinvalidate]
        exact ⟨Control.Invariant.readAll _, fun _ _ => .inl rfl⟩
    obtain ⟨hinv', hdue'⟩ := h.of_control hall.1 hall.2
    exact ⟨hinv', fun _ => hdue'⟩
  | readFailed =>
    cases he
    have hall : v.control.readAll.invalidate.2.Invariant v.capacity ∧
        ∀ p, v.control.Due p → v.control.readAll.invalidate.2.Due p := by
      have hempty := @Control.Invariant.readAll v.capacity v.control
      rcases Control.invalidate_cases v.control.readAll with
        ⟨e, hinvalidate⟩ | ⟨epoch, hinvalidate⟩ <;>
        rw [hinvalidate] <;>
        exact ⟨⟨hempty.hints, hempty.card_le⟩, fun _ _ => .inl rfl⟩
    obtain ⟨hinv', hdue'⟩ := h.of_control hall.1 hall.2
    exact ⟨hinv', fun _ => hdue'⟩
  | start reread =>
    unfold View.step at he
    cases hidle : v.taken with
    | some t => rw [hidle] at he; cases he
    | none =>
      rw [hidle] at he
      cases he
      exact ⟨(h.start hidle reread).1, fun _ => (h.start hidle reread).2⟩
  | publish =>
    obtain ⟨t, ht, rfl⟩ := Option.map_eq_some_iff.mp he
    exact ⟨h.publish ht, fun hne => absurd rfl hne⟩
  | abandon =>
    obtain ⟨t, ht, rfl⟩ := Option.map_eq_some_iff.mp he
    exact ⟨(h.abandon ht).1, fun _ => (h.abandon ht).2⟩

/-- The invariant holds in every view that is reached. -/
lemma Reachable.invariant (h : v.Reachable) : v.Invariant := by
  obtain ⟨capacity, staleReads, hreach⟩ := h
  refine hreach.invariant (fun v e v' hv _ he => (hv.step he).1) ⟨⟨?_, Nat.zero_le _⟩, ?_⟩
  · exact fun hint hmem => absurd hmem (Finset.notMem_empty hint)
  · exact fun t ht => (nomatch ht)

/-- **Coarsening never uncovers a path.**

* Queueing, which always ends, a hint in any hints that are not too many: if the result is true,
  every path that was hinted and every path at the new hint or below it is hinted, and the hints
  are not too many.
* The callers, in every view that is reached: the hints are such hints; what they queue for an
  accepted path is empty or such a hint that the path lies below; a notification that returns leaves
  every path due that was due or is at its path or below it; and if the result is false, everything
  is going to be read, and a pass that begins then reads everything.
* Only a publication makes a path stop being due. -/
theorem hints_cover :
    (∀ (hints : Finset Path) (path : Path) (capacity : ℕ) (hints' : Finset Path),
      (∀ hint ∈ hints, IsHint hint) → IsHint path → hints.card ≤ capacity →
      queueHint hints path capacity = (true, hints') →
      (∀ p, Hinted hints p ∨ AtOrBelow path (lower p) → Hinted hints' p) ∧
        hints'.card ≤ capacity) ∧
      ∀ v : View, v.Reachable →
        ((∀ hint ∈ v.control.hints, IsHint hint) ∧ v.control.hints.card ≤ v.capacity ∧
          ∀ t, v.taken = some t → ∀ hint ∈ t.hints, IsHint hint) ∧
        (∀ path relative, relativePath path = .ok relative →
          asciiPrefix (lower relative) = [] ∨ (IsHint (asciiPrefix (lower relative)) ∧
            AtOrBelow (asciiPrefix (lower relative)) (lower relative))) ∧
        (∀ path epoch relative, (v.control.invalidatePath v.capacity path).1 = .ok epoch →
          relativePath path = .ok relative → ∀ p,
          v.control.Due p ∨ AtOrBelow (lower relative) (lower p) →
          (v.control.invalidatePath v.capacity path).2.Due p) ∧
        (∀ (c : Control) (path : Path), c.full = false → path ≠ [] →
          (queueHint c.hints path v.capacity).1 = false →
          (c.queue v.capacity path).full = true ∧ (restoreHint v.capacity c path).full = true) ∧
        (∀ reread v' t, v.step (.start reread) = some v' → v'.taken = some t →
          v.control.full = true → t.full = true) ∧
        ∀ e v', e ≠ .publish → v.step e = some v' → ∀ p, v.Due p → v'.Due p := by
  constructor
  · intro hints path capacity hints' hhints hpath hcard hresult
    obtain ⟨hcovers, -, hbound⟩ := queueHint_covers hhints hpath hresult
    exact ⟨hcovers, hbound rfl hcard⟩
  intro v hv
  have hinv := hv.invariant
  refine ⟨⟨hinv.control.hints, hinv.control.card_le, hinv.taken⟩, ?_, ?_, ?_, ?_, ?_⟩
  · intro path relative hrelative
    exact queued_of_relativePath hrelative
  · intro path epoch relative hok hrelative p hp
    obtain ⟨-, hold, hnew⟩ := hinv.control.invalidatePath path
    exact hp.elim (hold p) (hnew epoch relative hok hrelative p)
  · intro c path hfull hpath hfalse
    rcases hresult : queueHint c.hints path v.capacity with ⟨result, hints'⟩
    rw [hresult] at hfalse
    obtain rfl : result = false := hfalse
    constructor
    · unfold Control.queue
      rw [hfull, hresult, if_neg hpath]
      rfl
    · unfold restoreHint
      rw [hfull, hresult]
      rfl
  · intro reread v' t hstep ht hfull
    unfold View.step at hstep
    cases hidle : v.taken with
    | some t => rw [hidle] at hstep; cases hstep
    | none =>
      rw [hidle] at hstep
      cases hstep
      unfold View.start at ht
      rcases Control.invalidate_cases v.control with ⟨e, hinvalidate⟩ | ⟨epoch, hinvalidate⟩
      · rw [hinvalidate] at ht
        rw [hidle] at ht
        cases ht
      · rw [hinvalidate] at ht
        dsimp only at ht
        split_ifs at ht <;> cases ht <;> rw [hfull, Bool.or_true] <;> rfl
  · intro e v' hne hstep p hp
    exact (hinv.step hstep).2 hne p hp

/-- Two hints. -/
def sampleHints : Finset Path := {"a/b".toList, "a/c".toList}

/-- `hints_cover` where a third hint makes them one too many. -/
theorem hints_cover_sample : Hinted {"a".toList} "A/D/e".toList := by
  have hhint : ∀ path ∈ ({"a/b".toList, "a/c".toList, "a/d".toList} : Finset Path),
      IsHint path := by
    intro path hpath
    rw [Finset.mem_insert, Finset.mem_insert, Finset.mem_singleton] at hpath
    rcases hpath with rfl | rfl | rfl <;> exact ⟨by decide, by decide, by decide⟩
  have hsub : sampleHints ⊆ {"a/b".toList, "a/c".toList, "a/d".toList} := by decide
  have hold : ∀ path ∈ sampleHints, IsHint path := fun path hpath => hhint path (hsub hpath)
  have hcovers := hints_cover.1 sampleHints "a/d".toList 2 {"a".toList} hold
    (hhint _ (by decide)) (by decide) (by decide +kernel)
  exact hcovers.1 _ (.inr (.inr ⟨"e".toList, by decide⟩))

end View

end Tgrep.Worktrees
