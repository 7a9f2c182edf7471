import Tgrep.Trigram

/-!
# One pass is two passes

The table of a file is made in one pass over its windows, in which the lowercased window is merged
too. It is the table that comes from extracting the trigrams of the file, then those of a lowercased
copy, and merging the second table into the first.

## Main definitions

* `Trigram.extractWithMasks`: the trigrams of some bytes with their masks, in the order in which
  they first occur.
* `Trigram.mergedMasksViaCopy`: the table by way of a lowercased copy.
* `Trigram.orMasks`: merging the masks of one trigram.

## Main results

* `Trigram.extractMergedMasks_eq`: both ways make the same table, whose masks are those of the two
  passes merged trigram by trigram.

## Implementation notes

What a table has for one trigram is a fold of what the windows add for it. Merging is associative,
commutative and idempotent, so the order in which the windows of the file and of the copy come does
not matter, and a window that is its own lowercase form may be merged twice.
-/

namespace Tgrep.Trigram

open List FinMap

/-! ## Two passes -/

/-- Extract the windows of a suffix of the content that starts at offset `i`. -/
def extractFrom : ℕ → List UInt8 → TrigramMaskMap × List TrigramHash →
    TrigramMaskMap × List TrigramHash
  | i, a :: b :: c :: rest, (masks, order) =>
    let h := hash a b c
    extractFrom (i + 1) (b :: c :: rest)
      (orEntry masks h (locBit i) (nextBits rest.head?),
        if masks.contains h then order else order ++ [h])
  | _, _, state => state

/-- The trigrams of the content with their masks, in the order in which they first occur. -/
def extractWithMasks (data : List UInt8) : List (TrigramHash × TrigramMasks) :=
  if data.length < 3 then []
  else
    let (masks, order) := extractFrom 0 data (FinMap.empty, [])
    order.map fun h => (h, (masks.get? h).getD {})

/-- The table by way of a lowercased copy. -/
def mergedMasksViaCopy (content : List UInt8) : TrigramMaskMap :=
  (extractWithMasks (content.map toAsciiLowercase)).foldl
    (fun m e => orEntry m e.1 e.2.locMask e.2.nextMask) (FinMap.ofList (extractWithMasks content))

/-! ## Merging masks -/

/-- Merge the masks that two tables have for a trigram. -/
def orMasks : Option TrigramMasks → Option TrigramMasks → Option TrigramMasks
  | none, y => y
  | x, none => x
  | some x, some y => some ⟨x.locMask ||| y.locMask, x.nextMask ||| y.nextMask⟩

variable (x : Option TrigramMasks)

@[simp] lemma orMasks_none_left : orMasks none x = x := by
  cases x <;> rfl

@[simp] lemma orMasks_none_right : orMasks x none = x := by
  cases x <;> rfl

variable (hasUpper : Bool) (m : TrigramMaskMap) (i : ℕ) (content : List UInt8)
  (y : Option TrigramMasks)

lemma orMasks_comm : orMasks x y = orMasks y x := by
  cases x with
  | none => simp
  | some x =>
    cases y with
    | none => simp
    | some y => simp only [orMasks, UInt8.or_comm]

lemma orMasks_assoc (z : Option TrigramMasks) :
    orMasks (orMasks x y) z = orMasks x (orMasks y z) := by
  cases x with
  | none => simp
  | some x =>
    cases y with
    | none => simp
    | some y =>
      cases z with
      | none => simp
      | some z => simp only [orMasks, UInt8.or_assoc]

@[simp] lemma orMasks_self : orMasks x x = x := by
  cases x with
  | none => rfl
  | some x => simp only [orMasks, UInt8.or_self]

/-! ## What the windows add -/

/-- What a window at `h` adds for the trigram `k`. -/
def adds (k h : TrigramHash) (loc next : UInt8) : Option TrigramMasks :=
  if k = h then some ⟨loc, next⟩ else none

/-- Adding bits merges them for their trigram. -/
lemma get?_orEntry (h : TrigramHash) (loc next : UInt8) (k : TrigramHash) :
    (orEntry m h loc next).get? k = orMasks (m.get? k) (adds k h loc next) := by
  rw [orEntry, get?_alter, adds]
  split_ifs with hk
  · subst hk
    cases m.get? k with
    | none => simp [orMasks]
    | some e => rfl
  · simp

/-- What all windows of a suffix add for a trigram. -/
def addsFrom (k : TrigramHash) : ℕ → List UInt8 → Option TrigramMasks
  | i, a :: b :: c :: rest =>
    orMasks (adds k (hash a b c) (locBit i) (nextBits rest.head?))
      (addsFrom k (i + 1) (b :: c :: rest))
  | _, _ => none

/-- Fewer than three bytes have no window. -/
lemma addsFrom_short (k : TrigramHash) (i : ℕ) {content : List UInt8}
    (h : ∀ a b c rest, content = a :: b :: c :: rest → False) : addsFrom k i content = none := by
  match content, h with
  | [], _ | [_], _ | [_, _], _ => rfl
  | a :: b :: c :: rest, h => exact absurd rfl (h a b c rest)

/-- One window adds its own trigram and its lowercased one. -/
lemma get?_mergeWindow (a b c : UInt8) (next : Option UInt8)
    (hself : hasUpper = false → ∀ x ∈ a :: b :: c :: next.toList, toAsciiLowercase x = x)
    (k : TrigramHash) :
    (mergeWindow hasUpper m i a b c next).get? k =
      orMasks (m.get? k) (orMasks (adds k (hash a b c) (locBit i) (nextBits next))
        (adds k (hash (toAsciiLowercase a) (toAsciiLowercase b) (toAsciiLowercase c)) (locBit i)
          (nextBits (next.map toAsciiLowercase)))) := by
  unfold mergeWindow
  dsimp only
  split_ifs with hu hl
  · -- every byte is its own lowercase form
    have hlower := hself (by simpa using hu)
    have hnext : next.map toAsciiLowercase = next := by
      cases next with
      | none => rfl
      | some d => simp [hlower d (by simp)]
    rw [get?_orEntry, hlower a (by simp), hlower b (by simp), hlower c (by simp), hnext,
      orMasks_self]
  · rw [get?_orEntry, hl, adds, adds, adds]
    split_ifs
    · simp only [orMasks, UInt8.or_self]
    · rfl
  · rw [get?_orEntry, get?_orEntry, orMasks_assoc]

/-- **One pass adds what the windows of the content and of its lowercased copy add.**

**Proof sketch.** Induction on the suffix: one window adds both its trigrams, and merging what the
rest adds of one kind in front of what it adds of the other makes no difference. -/
theorem get?_mergeWindows (m : TrigramMaskMap)
    (hself : hasUpper = false → ∀ x ∈ content, toAsciiLowercase x = x) (k : TrigramHash) :
    (mergeWindows hasUpper i content m).get? k =
      orMasks (m.get? k)
        (orMasks (addsFrom k i content) (addsFrom k i (content.map toAsciiLowercase))) := by
  fun_induction mergeWindows hasUpper i content m with
  | case1 i a b c rest m ih =>
    have hwindow : hasUpper = false → ∀ x ∈ a :: b :: c :: rest.head?.toList,
        toAsciiLowercase x = x := by
      intro hu x hx
      refine hself hu x ?_
      cases rest with
      | nil => simpa using hx
      | cons d rest =>
        simp only [head?_cons, Option.toList_some, mem_cons, not_mem_nil,
          or_false] at hx ⊢
        tauto
    rw [ih fun hu x hx => hself hu x (mem_cons_of_mem _ hx),
      get?_mergeWindow hasUpper m i a b c rest.head? hwindow k]
    simp only [map_cons, addsFrom, head?_map]
    rw [orMasks_assoc, orMasks_assoc, orMasks_assoc, ← orMasks_assoc (adds k (hash _ _ _) _ _)
      (addsFrom k _ (_ :: _)), orMasks_comm (adds k (hash (toAsciiLowercase a) _ _) _ _)
      (addsFrom k (i + 1) (b :: c :: rest)), orMasks_assoc]
  | case2 content i m hshort =>
    have hmap : ∀ a b c rest, content.map toAsciiLowercase = a :: b :: c :: rest → False := by
      intro a b c rest hmap
      obtain ⟨x, _, rfl, -, hmap⟩ := map_eq_cons_iff.mp hmap
      obtain ⟨y, _, rfl, -, hmap⟩ := map_eq_cons_iff.mp hmap
      obtain ⟨z, tail, rfl, -, -⟩ := map_eq_cons_iff.mp hmap
      exact hshort x y z tail rfl
    rw [addsFrom_short k i hshort, addsFrom_short k i hmap]
    simp

/-! ## What one extraction yields -/

/-- The table of an extraction has what the windows add, and its trigrams in order are those of the
table, each once. -/
lemma extractFrom_spec (m : TrigramMaskMap) (order : List TrigramHash) (hnodup : order.Nodup)
    (horder : ∀ h, h ∈ order ↔ m.contains h = true) :
    (extractFrom i content (m, order)).2.Nodup ∧
      (∀ h, h ∈ (extractFrom i content (m, order)).2 ↔
        (extractFrom i content (m, order)).1.contains h = true) ∧
      ∀ k, (extractFrom i content (m, order)).1.get? k =
        orMasks (m.get? k) (addsFrom k i content) := by
  induction content generalizing i m order with
  | nil => exact ⟨hnodup, horder, fun k => by simp [extractFrom, addsFrom]⟩
  | cons a content ih =>
    match content, ih with
    | [], _ | [_], _ => exact ⟨hnodup, horder, fun k => by simp [extractFrom, addsFrom]⟩
    | b :: c :: rest, ih =>
      have hcontains : ∀ h, (orEntry m (hash a b c) (locBit i) (nextBits rest.head?)).contains h =
          true ↔ m.contains h = true ∨ h = hash a b c := by
        intro h
        rw [FinMap.contains, get?_orEntry, FinMap.contains, adds]
        by_cases hh : h = hash a b c
        · rw [if_pos hh]
          cases m.get? h <;> simp [orMasks, hh]
        · rw [if_neg hh]
          simp [hh]
      rw [extractFrom]
      obtain ⟨hnodup', hmem, hget⟩ := ih (i + 1)
        (orEntry m (hash a b c) (locBit i) (nextBits rest.head?))
        (if m.contains (hash a b c) then order else order ++ [hash a b c])
        (by
          split_ifs with hin
          · exact hnodup
          · refine List.nodup_append.mpr ⟨hnodup, nodup_singleton _, fun x hx y hy => ?_⟩
            rintro rfl
            obtain rfl := List.mem_singleton.mp hy
            exact hin ((horder _).mp hx))
        (by
          intro h
          rw [hcontains]
          split_ifs with hin
          · rw [horder]
            exact ⟨.inl, fun hor => hor.elim id fun heq => heq ▸ hin⟩
          · rw [mem_append, mem_singleton, horder])
      refine ⟨hnodup', hmem, fun k => ?_⟩
      rw [hget, get?_orEntry, addsFrom, orMasks_assoc]

/-- The trigrams of the content, each once, with what its windows add. -/
lemma extractWithMasks_spec (data : List UInt8) :
    ((extractWithMasks data).map Prod.fst).Nodup ∧
      ∀ k, (FinMap.ofList (extractWithMasks data)).get? k = addsFrom k 0 data := by
  rw [extractWithMasks]
  split_ifs with hshort
  · refine ⟨nodup_nil, fun k => ?_⟩
    rw [addsFrom_short k 0]
    · rfl
    · rintro a b c rest rfl
      simp only [length_cons] at hshort
      omega
  · obtain ⟨hnodup, hmem, hget⟩ := extractFrom_spec 0 data FinMap.empty [] nodup_nil
      (by simp [FinMap.contains])
    simp only [get?_empty, orMasks_none_left] at hget
    have hkeys : ((extractFrom 0 data (FinMap.empty, [])).2.map fun h =>
        (h, ((extractFrom 0 data (FinMap.empty, [])).1.get? h).getD {})).map Prod.fst =
        (extractFrom 0 data (FinMap.empty, [])).2 := by
      rw [map_map]
      exact map_id _
    refine ⟨by rwa [hkeys], fun k => ?_⟩
    rw [← hget k]
    cases hk : (extractFrom 0 data (FinMap.empty, [])).1.get? k with
    | none =>
      refine FinMap.notMem_keys.mp fun hin => ?_
      rw [mem_keys_ofList, hkeys, hmem, FinMap.contains, hk] at hin
      cases hin
    | some e =>
      refine (get?_ofList (by rwa [hkeys])).mpr (List.mem_map.mpr ⟨k, ?_, by rw [hk]; rfl⟩)
      rw [hmem, FinMap.contains, hk]
      rfl

/-- Merging entries one by one merges what they have for a trigram. -/
lemma get?_foldl_orEntry (entries : List (TrigramHash × TrigramMasks)) (m : TrigramMaskMap)
    (hnodup : (entries.map Prod.fst).Nodup) (k : TrigramHash) :
    (entries.foldl (fun m e => orEntry m e.1 e.2.locMask e.2.nextMask) m).get? k =
      orMasks (m.get? k) ((FinMap.ofList entries).get? k) := by
  induction entries using List.reverseRecOn with
  | nil => simp [ofList]
  | append_singleton entries e ih =>
    rw [map_append, nodup_append] at hnodup
    obtain ⟨hentries, -, hne⟩ := hnodup
    rw [foldl_append, foldl_cons, foldl_nil, get?_orEntry, ih hentries,
      ofList_concat, get?_insert, adds]
    split_ifs with hk
    · -- the trigram of the last entry is new
      have hnone : (ofList entries).get? k = none := by
        refine notMem_keys.mp fun hin => ?_
        exact hne k (mem_keys_ofList.mp hin) e.1 (by simp) hk
      rw [hnone, orMasks_none_right]
    · rw [orMasks_none_right]

/-- **One pass makes the table of two passes**: the one by way of a lowercased copy, which merges
trigram by trigram what the windows of the file and those of the copy have. -/
theorem extractMergedMasks_eq (content : List UInt8) :
    extractMergedMasks content = mergedMasksViaCopy content ∧
      ∀ k, (extractMergedMasks content).get? k =
        orMasks ((FinMap.ofList (extractWithMasks content)).get? k)
          ((FinMap.ofList (extractWithMasks (content.map toAsciiLowercase))).get? k) := by
  have hget : ∀ k, (extractMergedMasks content).get? k =
      orMasks ((FinMap.ofList (extractWithMasks content)).get? k)
        ((FinMap.ofList (extractWithMasks (content.map toAsciiLowercase))).get? k) := by
    intro k
    rw [(extractWithMasks_spec content).2, (extractWithMasks_spec _).2, extractMergedMasks]
    split_ifs with hshort
    · have hnone : ∀ bytes : List UInt8, bytes.length < 3 → addsFrom k 0 bytes = none := by
        intro bytes hlen
        refine addsFrom_short k 0 ?_
        rintro a b c rest rfl
        simp only [length_cons] at hlen
        omega
      rw [hnone content hshort, hnone _ (by rwa [length_map])]
      rfl
    · rw [get?_mergeWindows, get?_empty, orMasks_none_left]
      intro hu x hx
      exact toAsciiLowercase_eq_self (by simpa using List.any_eq_false.mp hu x hx)
  refine ⟨ext_get? fun k => ?_, hget⟩
  rw [hget, mergedMasksViaCopy, get?_foldl_orEntry _ _ (extractWithMasks_spec _).1]

end Tgrep.Trigram
