import Tgrep.Build.Merge
import Tgrep.Live.Snapshot

/-!
# Appending an overlay to an index

The posting lists of an index are copied as they are, and those of a snapshot of the overlay follow
them, with the ids of its files after those of the index. The masks of the appended postings filter
nothing.

## Main definitions

* `AppendInput.appendTrigrams`, `appendOverlayToIndex`: the loop over the lookup table and the
  trigrams of the overlay, and the whole.
* `AppendInput.groups`: the posting lists that are written.
* `AppendedTo`: what the index says that is left.

## Main results

* `AppendInput.Sound.appendTrigrams_eq`: the loop walks the outer join of both sides.
* `AppendInput.appendTrigrams_unreadable`: the loop fails if a posting list cannot be read.
* `appendOverlayToIndex_exact`: every posting of the index and of the overlay is there once.
-/

namespace Tgrep

open List Loops Ascending IndexReader UInt32

/-! ## Appending -/

/-- What does not change while an overlay is appended. -/
structure AppendInput where
  /-- The index. -/
  reader : IndexReader
  /-- The first id of the overlay's files. -/
  base : UInt32
  /-- The places of the overlay's files that have each trigram. -/
  overlay : FinMap UInt32 (List UInt32)

namespace AppendInput

/-- The trigrams of the overlay in ascending order. -/
def overlayTrigrams (m : AppendInput) : List UInt32 := m.overlay.keys.sort

/-- The posting of an overlay file, with masks that filter nothing. -/
def overlayEntry (m : AppendInput) (k : UInt32) : Except Error PostingEntry :=
  if 2 ^ 32 ≤ m.base.toNat + k.toNat then
    .error (.indexCorrupted "overlay file id overflow beyond u32")
  else .ok ⟨m.base + k, 0xff, 0xff⟩

/-- Write the postings of the index as they are. -/
def writeReaderPostings (f : OutputFile) : Option (List UInt8) → Except Error OutputFile
  | none => .ok f
  | some rbytes => f.writeAll rbytes

/-- Write the postings of the overlay in chunks. -/
def writeOverlayPostings (m : AppendInput) (f : OutputFile) :
    Option (List UInt32) → Except Error OutputFile
  | none => .ok f
  | some seq =>
    (Loops.chunks POSTING_WRITE_CHUNK_ENTRIES seq).foldlM (fun f chunk => do
      let postingScratch ← chunk.mapM m.overlayEntry
      f.writeAll (postingCodec.encodeAll postingScratch)) f

/-- Write the posting list of a trigram, unless it is empty. -/
def writeTrigram (m : AppendInput) (w : IndexWriter) (trigram : UInt32)
    (readerBytes : Option (List UInt8)) (overlaySeq : Option (List UInt32)) :
    Except Error IndexWriter := do
  let readerLen := readerBytes.elim 0 fun b => b.length / POSTING_ENTRY_SIZE
  let overlayLen := overlaySeq.elim 0 List.length
  let length ← mergedLength trigram readerLen overlayLen
  if length = 0 then .ok w
  else w.append trigram length fun f => do
    let f ← writeReaderPostings f readerBytes
    m.writeOverlayPostings f overlaySeq

/-- The next trigram of the index with its raw postings. -/
def readerNext (m : AppendInput) (ri : ℕ) : Except Error (Option (UInt32 × List UInt8)) :=
  if ri < m.reader.numTrigrams then
    match m.reader.nthTrigramRaw ri with
    | some next => .ok (some next)
    | none =>
      let count := m.reader.numTrigrams
      .error (.indexCorrupted
        s!"reader trigram entry {ri} of {count} has unreadable postings; refusing to publish an incomplete merged index")
  else .ok none

/-- What is written next, and where the cursors are then. -/
structure Step where
  /-- The trigram. -/
  trigram : UInt32
  /-- The postings of the index. -/
  readerBytes : Option (List UInt8)
  /-- The postings of the overlay. -/
  overlaySeq : Option (List UInt32)
  /-- The cursor of the index. -/
  ri : ℕ
  /-- The cursor of the overlay. -/
  oi : ℕ

/-- The side with the smaller trigram is next, or both if the trigrams are equal. -/
def choose (m : AppendInput) (ri oi : ℕ) :
    Option (UInt32 × List UInt8) → Option UInt32 → Option Step
  | some (rt, rbytes), some ot =>
    if rt < ot then some ⟨rt, some rbytes, none, ri + 1, oi⟩
    else if ot < rt then some ⟨ot, none, m.overlay.get? ot, ri, oi + 1⟩
    else some ⟨rt, some rbytes, m.overlay.get? rt, ri + 1, oi + 1⟩
  | some (rt, rbytes), none => some ⟨rt, some rbytes, none, ri + 1, oi⟩
  | none, some ot => some ⟨ot, none, m.overlay.get? ot, ri, oi + 1⟩
  | none, none => none

/-- What the two cursors point at. -/
def next (m : AppendInput) (ri oi : ℕ) : Except Error (Option Step) := do
  let readerNext ← m.readerNext ri
  .ok (m.choose ri oi readerNext m.overlayTrigrams[oi]?)

/-- The cursor of the index points at an entry if there is a next one. -/
lemma readerNext_eq_ok {m : AppendInput} {ri : ℕ} {a : Option (UInt32 × List UInt8)}
    (h : m.readerNext ri = .ok a) :
    (a.isSome ↔ ri < m.reader.numTrigrams) ∧
      (ri < m.reader.numTrigrams → m.reader.nthTrigramRaw ri = a) := by
  rw [readerNext] at h
  split_ifs at h with hri
  · cases hraw : m.reader.nthTrigramRaw ri with
    | none =>
      rw [hraw] at h
      cases h
    | some next =>
      rw [hraw] at h
      cases h
      exact ⟨⟨fun _ => hri, fun _ => rfl⟩, fun _ => rfl⟩
  · cases h
    exact ⟨⟨nofun, fun hlt => absurd hlt hri⟩, fun hlt => absurd hlt hri⟩

/-- **What a round of the loop does to the cursors**: each stays or passes what it points at, and not
both stay. -/
theorem next_eq_some {m : AppendInput} {ri oi : ℕ} {s : Step} (h : m.next ri oi = .ok (some s)) :
    (s.ri = ri ∨
      s.ri = ri + 1 ∧ ri < m.reader.numTrigrams ∧ (m.reader.nthTrigramRaw ri).isSome) ∧
      (s.oi = oi ∨ s.oi = oi + 1 ∧ oi < m.overlayTrigrams.length) ∧ (s.ri ≠ ri ∨ s.oi ≠ oi) := by
  obtain ⟨a, ha, heq⟩ := bind_eq_ok.mp h
  have hchoose := Except.ok.inj heq
  obtain ⟨hsome, hraw⟩ := readerNext_eq_ok ha
  have hreader : a.isSome → ri < m.reader.numTrigrams ∧ (m.reader.nthTrigramRaw ri).isSome :=
    fun hsome' => ⟨hsome.mp hsome', (hraw (hsome.mp hsome')).symm ▸ hsome'⟩
  cases hb : m.overlayTrigrams[oi]? with
  | none =>
    rw [hb] at hchoose
    obtain _ | ⟨rt, rbytes⟩ := a
    · cases hchoose
    · cases hchoose
      exact ⟨.inr ⟨rfl, hreader rfl⟩, .inl rfl, .inl (Nat.succ_ne_self ri)⟩
  | some ot =>
    have hoi := (List.getElem?_eq_some_iff.mp hb).1
    rw [hb] at hchoose
    obtain _ | ⟨rt, rbytes⟩ := a
    · cases hchoose
      exact ⟨.inl rfl, .inr ⟨rfl, hoi⟩, .inr (Nat.succ_ne_self oi)⟩
    · rw [choose] at hchoose
      split_ifs at hchoose
      all_goals cases hchoose
      · exact ⟨.inr ⟨rfl, hreader rfl⟩, .inl rfl, .inl (Nat.succ_ne_self ri)⟩
      · exact ⟨.inl rfl, .inr ⟨rfl, hoi⟩, .inr (Nat.succ_ne_self oi)⟩
      · exact ⟨.inr ⟨rfl, hreader rfl⟩, .inr ⟨rfl, hoi⟩, .inl (Nat.succ_ne_self ri)⟩

/-- The loop over both sides. -/
def appendTrigrams (m : AppendInput) (ri oi : ℕ) (w : IndexWriter) : Except Error IndexWriter :=
  if ri < m.reader.numTrigrams ∨ oi < m.overlayTrigrams.length then
    match _h : m.next ri oi with
    | .error e => .error e
    | .ok none => .ok w
    | .ok (some s) =>
      match m.writeTrigram w s.trigram s.readerBytes s.overlaySeq with
      | .error e => .error e
      | .ok w => m.appendTrigrams s.ri s.oi w
  else .ok w
termination_by (m.reader.numTrigrams - ri) + (m.overlayTrigrams.length - oi)
decreasing_by
  obtain ⟨hr, ho, hne⟩ := next_eq_some _h
  omega

end AppendInput

/-- The number of postings of the overlay. -/
def countOverlayPostings (overlay : FinMap UInt32 (List UInt32)) : Except Error ℕ :=
  (overlay.toList.map Prod.snd).foldlM
    (fun total entries => checkedDiskBytes (total + entries.length)) 0

/-- The first id of the overlay's files. -/
def appendBase (reader : IndexReader) : Except Error UInt32 :=
  if 2 ^ 32 ≤ reader.numFiles then
    let numFiles := reader.numFiles
    .error (.indexCorrupted s!"reader has {numFiles} files, exceeding the u32 file-id limit")
  else .ok (UInt32.ofNat reader.numFiles)

/-- Append an overlay of new files to an index. -/
def appendOverlayToIndex (d : Destination) (reader : IndexReader) (overlayPaths : List String)
    (overlayInverted : FinMap UInt32 (List UInt32)) : Except Error IndexFiles := do
  let overlayPostings ← countOverlayPostings overlayInverted
  let overlayBytes ← indexPayloadDiskBytes overlayPostings overlayInverted.keys.card
  let payload ← checkedDiskBytes (reader.mappedBytes + overlayBytes)
  let fileCount := reader.numFiles + overlayPaths.length
  if 2 ^ 64 ≤ fileCount then .error (.indexCorrupted "file count overflow")
  else
    checkDiskSpace d payload fileCount
    let base ← appendBase reader
    let w ← AppendInput.appendTrigrams ⟨reader, base, overlayInverted⟩ 0 0 .create
    let result ← w.finish
    let files ← writeFileTable (reader.filePaths ++ overlayPaths)
    .ok ⟨result.1, result.2.1, files⟩

/-! ## Posting lists that cannot be read -/

namespace AppendInput

variable {m : AppendInput}

/-- There is nothing left to write only if the cursor of the index is at its end. -/
lemma next_eq_none {ri oi : ℕ} (h : m.next ri oi = .ok none) : m.reader.numTrigrams ≤ ri := by
  obtain ⟨a, ha, heq⟩ := bind_eq_ok.mp h
  have hchoose := Except.ok.inj heq
  by_contra hlt
  obtain ⟨next, rfl⟩ := Option.isSome_iff_exists.mp ((readerNext_eq_ok ha).1.mpr (not_le.mp hlt))
  cases hb : m.overlayTrigrams[oi]? with
  | none =>
    rw [hb] at hchoose
    cases hchoose
  | some ot =>
    rw [hb, choose] at hchoose
    split_ifs at hchoose

/-- **The loop fails at a posting list that cannot be read**, if not before.

**Proof sketch.** The cursor of the index does not pass such a list, and the loop does not end before
the cursor is at the end of the index. -/
theorem appendTrigrams_unreadable {i : ℕ} (hi : i < m.reader.numTrigrams)
    (hraw : m.reader.nthTrigramRaw i = none) {ri : ℕ} (hri : ri ≤ i) (oi : ℕ) (w : IndexWriter) :
    ∃ e, m.appendTrigrams ri oi w = .error e := by
  fun_induction m.appendTrigrams ri oi w with
  | case1 ri oi w hgo e he => exact ⟨e, rfl⟩
  | case2 ri oi w hgo he => exact absurd (next_eq_none he) (by omega)
  | case3 ri oi w hgo s he e hw => exact ⟨e, rfl⟩
  | case4 ri oi w hgo s he w' hw ih =>
    refine ih ?_
    rcases (next_eq_some he).1 with hsame | ⟨hnext, -, hsome⟩
    · omega
    · have hne : ri ≠ i := by
        rintro rfl
        rw [hraw] at hsome
        cases hsome
      omega
  | case5 ri oi w hstop => omega

end AppendInput

/-- **Appending fails if a posting list of the index cannot be read.** -/
theorem appendOverlayToIndex_unreadable (d : Destination) {reader : IndexReader} {i : ℕ}
    (hi : i < reader.numTrigrams) (hraw : reader.nthTrigramRaw i = none) (paths : List String)
    (inverted : FinMap UInt32 (List UInt32)) :
    ∃ e, appendOverlayToIndex d reader paths inverted = .error e := by
  cases h : appendOverlayToIndex d reader paths inverted with
  | error e => exact ⟨e, rfl⟩
  | ok files =>
    exfalso
    obtain ⟨_, -, h⟩ := bind_eq_ok.mp h
    obtain ⟨_, -, h⟩ := bind_eq_ok.mp h
    obtain ⟨_, -, h⟩ := bind_eq_ok.mp h
    dsimp only at h
    split_ifs at h
    obtain ⟨_, -, h⟩ := bind_eq_ok.mp h
    obtain ⟨base, -, h⟩ := bind_eq_ok.mp h
    obtain ⟨w, hw, -⟩ := bind_eq_ok.mp h
    obtain ⟨e, he⟩ := AppendInput.appendTrigrams_unreadable (m := ⟨reader, base, inverted⟩) hi hraw
      (Nat.zero_le i) 0 .create
    rw [he] at hw
    cases hw

/-! ## What is written -/

namespace AppendInput

/-- A well-formed index to which an overlay of known files is appended, whose ids come next. -/
structure Sound (m : AppendInput) (paths : List String) : Prop where
  reader : m.reader.WellFormed
  base : m.base = UInt32.ofNat m.reader.filePaths.length
  base_lt : m.reader.filePaths.length < 2 ^ 32
  total : m.reader.filePaths.length + paths.length ≤ 2 ^ 32
  ascending : ∀ t ids, m.overlay.get? t = some ids → Ascending id ids
  ids_lt : ∀ t ids, m.overlay.get? t = some ids → ∀ k ∈ ids, k.toNat < paths.length

/-- The posting of an overlay file. -/
def appended (m : AppendInput) (k : UInt32) : PostingEntry := ⟨m.base + k, 0xff, 0xff⟩

/-- A trigram with the entry of the index and the postings of the overlay that have it. -/
abbrev Joined := UInt32 × Option LookupEntry × Option (UInt32 × List UInt32)

/-- What the loop has still to write. -/
def left (m : AppendInput) (ri oi : ℕ) : List Joined :=
  Ascending.outerJoin LookupEntry.trigram Prod.fst (m.reader.entries.drop ri)
    (m.overlay.toList.drop oi)

/-- The postings of the overlay in a posting list. -/
def overlayPart (m : AppendInput) (y : Option (UInt32 × List UInt32)) : List PostingEntry :=
  y.elim [] fun g => g.2.map m.appended

/-- The posting list of a trigram. -/
def group (m : AppendInput) (j : Joined) : PostingGroup :=
  (j.1, j.2.1.elim [] m.reader.postingsOf ++ m.overlayPart j.2.2)

/-- Write the posting list of a trigram. -/
def writeJoined (m : AppendInput) (w : IndexWriter) (j : Joined) : Except Error IndexWriter :=
  m.writeTrigram w j.1 (j.2.1.map (MergeInput.rawOf m.reader)) (j.2.2.map Prod.snd)

variable {m : AppendInput} {paths : List String}

/-- What a cursor of the index points at. -/
lemma Sound.readerNext_eq (hm : m.Sound paths) (ri : ℕ) :
    m.readerNext ri =
      .ok (m.reader.entries[ri]?.map fun e => (e.trigram, MergeInput.rawOf m.reader e)) := by
  rw [readerNext, numTrigrams, ← length_entries]
  split_ifs with hri
  · rw [hm.reader.nthTrigramRaw_eq hri, getElem?_eq_getElem hri]
    rfl
  · rw [getElem?_eq_none (not_lt.mp hri)]
    rfl

/-- What a cursor of the overlay points at. -/
lemma getElem?_overlayTrigrams (m : AppendInput) (oi : ℕ) :
    m.overlayTrigrams[oi]? = m.overlay.toList[oi]?.map Prod.fst := by
  rw [overlayTrigrams, m.overlay.toList_eq_map [], getElem?_map, Option.map_map]
  exact Option.map_id.symm ▸ rfl

/-- What is chosen is what the outer join emits first, and the cursors of what is chosen advance. -/
lemma choose_map (m : AppendInput) (ri oi : ℕ) (x : Option LookupEntry)
    {y : Option (UInt32 × List UInt32)} (hy : ∀ g ∈ y, m.overlay.get? g.1 = some g.2) :
    m.choose ri oi (x.map fun e => (e.trigram, MergeInput.rawOf m.reader e)) (y.map Prod.fst) =
      (Ascending.joinHead LookupEntry.trigram Prod.fst x y).map fun j =>
        ⟨j.1, j.2.1.map (MergeInput.rawOf m.reader), j.2.2.map Prod.snd,
          if j.2.1.isSome then ri + 1 else ri, if j.2.2.isSome then oi + 1 else oi⟩ := by
  cases y with
  | none => cases x <;> rfl
  | some g =>
    have hg := hy g rfl
    cases x with
    | none =>
      rw [Option.map_none, Option.map_some, choose, hg]
      rfl
    | some e =>
      rw [Option.map_some, Option.map_some, choose, joinHead]
      split_ifs with hlt hgt
      · rfl
      · rw [hg]
        rfl
      · -- neither is smaller, so the trigrams are equal
        rw [le_antisymm (not_lt.mp hgt) (not_lt.mp hlt), hg]
        rfl

/-- What the cursors point at is the first of what is left. -/
lemma Sound.next_eq (hm : m.Sound paths) (ri oi : ℕ) :
    m.next ri oi = .ok ((Ascending.joinHead LookupEntry.trigram Prod.fst m.reader.entries[ri]?
      m.overlay.toList[oi]?).map fun j =>
        ⟨j.1, j.2.1.map (MergeInput.rawOf m.reader), j.2.2.map Prod.snd,
          if j.2.1.isSome then ri + 1 else ri, if j.2.2.isSome then oi + 1 else oi⟩) := by
  rw [next, hm.readerNext_eq, getElem?_overlayTrigrams, ← m.choose_map]
  · rfl
  · intro g hg
    exact FinMap.mem_toList.mp (mem_of_getElem? hg)

/-- **The loop walks the outer join of both sides.** -/
theorem Sound.appendTrigrams_eq (hm : m.Sound paths) (ri oi : ℕ) (w : IndexWriter) :
    m.appendTrigrams ri oi w = (m.left ri oi).foldlM m.writeJoined w := by
  have hnext := hm.next_eq
  have hleft : ∀ ri oi, m.left ri oi = (joinHead LookupEntry.trigram Prod.fst
      m.reader.entries[ri]? m.overlay.toList[oi]?).elim [] fun j =>
        j :: m.left (if j.2.1.isSome then ri + 1 else ri) (if j.2.2.isSome then oi + 1 else oi) :=
    fun ri oi => outerJoin_drop _ _ _ _ ri oi
  fun_induction m.appendTrigrams ri oi w with
  | case1 ri oi w hgo e he =>
    rw [hnext] at he
    cases he
  | case2 ri oi w hgo he =>
    rw [hnext] at he
    rw [hleft, Option.map_eq_none_iff.mp (Except.ok.inj he)]
    rfl
  | case3 ri oi w hgo s he e hw =>
    rw [hnext] at he
    obtain ⟨j, hj, rfl⟩ := Option.map_eq_some_iff.mp (Except.ok.inj he)
    rw [hleft, hj, Option.elim_some, foldlM_cons, writeJoined, hw]
    rfl
  | case4 ri oi w hgo s he w' hw ih =>
    rw [hnext] at he
    obtain ⟨j, hj, rfl⟩ := Option.map_eq_some_iff.mp (Except.ok.inj he)
    rw [hleft, hj, Option.elim_some, foldlM_cons, writeJoined, hw, ih]
    rfl
  | case5 ri oi w hstop =>
    have hlen : m.overlayTrigrams.length = m.overlay.toList.length := by
      rw [overlayTrigrams, Finset.length_sort, FinMap.length_toList]
    rw [numTrigrams, ← length_entries, hlen, not_or, not_lt, not_lt] at hstop
    rw [hleft, getElem?_eq_none hstop.1, getElem?_eq_none hstop.2]
    rfl

/-! ## One round of the loop -/

/-- What is joined are entries of the index and posting lists of the overlay. -/
structure FromSides (m : AppendInput) (j : Joined) : Prop where
  reader : ∀ e ∈ j.2.1, e ∈ m.reader.entries
  overlay : ∀ g ∈ j.2.2, m.overlay.get? g.1 = some g.2

variable {j : Joined}

/-- The files of a posting list of the overlay are files of the overlay. -/
lemma Sound.overlay_lt (hm : m.Sound paths) (hj : m.FromSides j) :
    ∀ k ∈ j.2.2.elim [] Prod.snd, k.toNat < paths.length := by
  cases hy : j.2.2 with
  | none => exact forall_mem_nil _
  | some g => exact hm.ids_lt g.1 g.2 (hj.overlay g hy)

/-- The ids of the overlay's files come after those of the index. -/
lemma Sound.toNat_appended (hm : m.Sound paths) {k : UInt32} (hk : k.toNat < paths.length) :
    (m.appended k).fileId.toNat = m.reader.filePaths.length + k.toNat := by
  have htotal := hm.total
  rw [appended, hm.base, UInt32.toNat_add, UInt32.toNat_ofNat_of_lt' hm.base_lt]
  exact Nat.mod_eq_of_lt (by omega)

/-- No id of the overlay overflows. -/
lemma Sound.overlayEntry_eq (hm : m.Sound paths) {k : UInt32} (hk : k.toNat < paths.length) :
    m.overlayEntry k = .ok (m.appended k) := by
  have htotal := hm.total
  rw [overlayEntry, hm.base, toNat_ofNat_of_lt' hm.base_lt, if_neg (by omega), appended, hm.base]

/-- The postings of the index are written as they are. -/
lemma writeReaderPostings_eq (m : AppendInput) (x : Option LookupEntry) (f : OutputFile) :
    writeReaderPostings f (x.map (MergeInput.rawOf m.reader)) =
      f.writeAll (postingCodec.encodeAll (x.elim [] m.reader.postingsOf)) := by
  cases x with
  | none => exact OutputFile.foldlM_writeAll [] f
  | some e => rfl

/-- The postings of the overlay are written with their ids after those of the index. -/
lemma Sound.writeOverlayPostings_eq (hm : m.Sound paths) (hj : m.FromSides j) (f : OutputFile) :
    m.writeOverlayPostings f (j.2.2.map Prod.snd) =
      f.writeAll (postingCodec.encodeAll (m.overlayPart j.2.2)) := by
  have hlt := hm.overlay_lt hj
  cases hy : j.2.2 with
  | none => exact OutputFile.foldlM_writeAll [] f
  | some g =>
    rw [hy] at hlt
    have hchunk : ∀ (f : OutputFile), ∀ chunk ∈ chunks POSTING_WRITE_CHUNK_ENTRIES g.2,
        (do
          let postingScratch ← chunk.mapM m.overlayEntry
          f.writeAll (postingCodec.encodeAll postingScratch)) =
        f.writeAll (postingCodec.encodeAll (chunk.map m.appended)) := by
      intro f chunk hchunk
      have hall : chunk.mapM m.overlayEntry = .ok (chunk.map m.appended) :=
        mapM_eq_ok fun k hk =>
          hm.overlayEntry_eq (hlt k (mem_of_mem_chunks (by decide) hchunk hk))
      rw [hall]
      rfl
    rw [Option.map_some, writeOverlayPostings, foldlM_congr hchunk]
    refine OutputFile.foldlM_chunks_writeAll (by decide) rfl (fun a b => ?_) g.2 f
    rw [map_append, FixedCodec.encodeAll_append]

/-- The length of a posting list that is written is the sum of the lengths of its parts, if it fits
its field. -/
lemma writeJoined_length (m : AppendInput) (w : IndexWriter) (j : Joined) :
    m.writeJoined w j = (do
      let length ← mergedLength j.1 (j.2.1.elim [] m.reader.postingsOf).length
        (m.overlayPart j.2.2).length
      if length = 0 then .ok w
      else w.append j.1 length fun f => do
        let f ← writeReaderPostings f (j.2.1.map (MergeInput.rawOf m.reader))
        m.writeOverlayPostings f (j.2.2.map Prod.snd)) := by
  have hreader : ((j.2.1.map (MergeInput.rawOf m.reader)).elim 0
      fun b => b.length / POSTING_ENTRY_SIZE) = (j.2.1.elim [] m.reader.postingsOf).length := by
    cases j.2.1 with
    | none => rfl
    | some e =>
      rw [Option.map_some, Option.elim_some, MergeInput.rawOf, FixedCodec.length_encodeAll,
        postingCodec_width, POSTING_ENTRY_SIZE, Nat.mul_div_cancel _ (by decide), Option.elim_some]
  have hoverlay : (j.2.2.map Prod.snd).elim 0 length = (m.overlayPart j.2.2).length := by
    cases j.2.2 with
    | none => rfl
    | some g =>
      rw [Option.map_some, Option.elim_some, overlayPart, Option.elim_some, length_map]
  rw [writeJoined, writeTrigram, hreader, hoverlay]

/-- A posting list that is written fits its length field. -/
lemma length_of_writeJoined {w w' : IndexWriter} (h : m.writeJoined w j = .ok w') :
    (m.group j).2.length < 2 ^ 32 := by
  rw [writeJoined_length] at h
  obtain ⟨length, hlength, -⟩ := bind_eq_ok.mp h
  rw [mergedLength] at hlength
  split_ifs at hlength with h₁ h₂
  rw [group, length_append]
  exact not_le.mp h₂

/-- **One round of the loop** writes the posting list of a trigram, unless it is empty. -/
theorem Sound.writeJoined_eq (hm : m.Sound paths) (hj : m.FromSides j)
    (hlen : (m.group j).2.length < 2 ^ 32) (w : IndexWriter) :
    m.writeJoined w j = if (m.group j).2.isEmpty then .ok w else w.appendGroup (m.group j) := by
  have hwrite : ∀ f : OutputFile, (do
      let f ← writeReaderPostings f (j.2.1.map (MergeInput.rawOf m.reader))
      m.writeOverlayPostings f (j.2.2.map Prod.snd)) =
      f.writeAll (postingCodec.encodeAll (m.group j).2) := by
    intro f
    rw [group, FixedCodec.encodeAll_append, OutputFile.writeAll_append, m.writeReaderPostings_eq]
    exact congrArg _ (funext fun f' => hm.writeOverlayPostings_eq hj f')
  have hsum : (m.group j).2.length =
      (j.2.1.elim [] m.reader.postingsOf).length + (m.overlayPart j.2.2).length :=
    length_append
  rw [writeJoined_length, mergedLength, ← hsum, if_neg (by omega), if_neg (by omega)]
  change (if ofNat (m.group j).2.length = 0 then _ else _) = _
  simp only [ofNat_length_eq_zero hlen, hwrite]
  rfl

/-! ## The posting lists -/

/-- The posting lists that are written. -/
def groups (m : AppendInput) : List PostingGroup :=
  ((m.left 0 0).filter fun j => !(m.group j).2.isEmpty).map m.group

/-- The postings of a trigram: those of the index, then those of the overlay. -/
def postings (m : AppendInput) (t : UInt32) : List PostingEntry :=
  m.reader.lookupTrigramWithMasks t ++ ((m.overlay.get? t).getD []).map m.appended

/-- The overlay's posting list of a trigram, among those in order. -/
lemma find?_overlay (m : AppendInput) (t : UInt32) :
    (m.overlay.toList.find? fun g => decide (g.1 = t)) = (m.overlay.get? t).map fun ids => (t, ids) := by
  have hasc : Ascending Prod.fst m.overlay.toList := m.overlay.pairwise_toList
  cases hget : m.overlay.get? t with
  | none =>
    refine find?_key_eq_none.mpr fun g hg heq => ?_
    rw [← heq, FinMap.mem_toList.mp hg] at hget
    cases hget
  | some ids => exact (find?_key_eq_some hasc).mpr ⟨FinMap.mem_toList.mpr hget, rfl⟩

variable (hm : m.Sound paths)

include hm

/-- What is left of both sides consists of their posting lists, each under its trigram. -/
lemma Sound.mem_left : j ∈ m.left 0 0 ↔
      j.2.1 = m.reader.entries.find? (fun e => decide (e.trigram = j.1)) ∧
        j.2.2 = ((m.overlay.get? j.1).map fun ids => (j.1, ids)) ∧
        (j.2.1.isSome ∨ j.2.2.isSome) := by
  rw [left, drop_zero, drop_zero, ← find?_overlay]
  exact mem_outerJoin hm.reader.ascending m.overlay.pairwise_toList

/-- What is joined comes from both sides. -/
lemma Sound.fromSides (hj : j ∈ m.left 0 0) : m.FromSides j := by
  obtain ⟨hx, hy, -⟩ := hm.mem_left.mp hj
  refine ⟨fun e he => mem_of_find?_eq_some (hx ▸ he), fun g hg => ?_⟩
  rw [hy] at hg
  obtain ⟨ids, hids, rfl⟩ := Option.map_eq_some_iff.mp hg
  exact hids

/-- The posting list of a trigram has its postings. -/
lemma Sound.group_eq (hj : j ∈ m.left 0 0) : m.group j = (j.1, m.postings j.1) := by
  obtain ⟨hx, hy, -⟩ := hm.mem_left.mp hj
  have hreader := MergeInput.elim_find?_trigram hm.reader j.1
  rw [group, overlayPart, hx, hy, postings, hreader]
  cases m.overlay.get? j.1 <;> rfl

/-- **The posting lists that are written** are the postings of all trigrams that have any. -/
theorem Sound.mem_groups {g : PostingGroup} : g ∈ m.groups ↔ g.2 ≠ [] ∧ g.2 = m.postings g.1 := by
  rw [groups, mem_map]
  constructor
  · rintro ⟨j, hj, rfl⟩
    obtain ⟨hmem, hne⟩ := mem_filter.mp hj
    exact ⟨by simpa using hne, by rw [hm.group_eq hmem]⟩
  · rintro ⟨hne, heq⟩
    set j : Joined := (g.1, m.reader.entries.find? (fun e => decide (e.trigram = g.1)),
      (m.overlay.get? g.1).map fun ids => (g.1, ids)) with hj
    have hmem : j ∈ m.left 0 0 := by
      refine hm.mem_left.mpr ⟨rfl, rfl, ?_⟩
      by_contra hnone
      simp only [hj, not_or, Bool.not_eq_true, Option.isSome_eq_false_iff,
        Option.isNone_iff_eq_none, Option.map_eq_none_iff] at hnone
      rw [heq, postings, ← MergeInput.elim_find?_trigram hm.reader, hnone.1, hnone.2] at hne
      exact hne rfl
    have hgroup : m.group j = g := (hm.group_eq hmem).trans (Prod.ext rfl heq.symm)
    exact ⟨j, mem_filter.mpr ⟨hmem, by rw [hgroup]; simpa using hne⟩, hgroup⟩

/-- The postings of a trigram are in strictly ascending order of known files. -/
lemma Sound.postings_ascending (t : UInt32) : Ascending PostingEntry.fileId (m.postings t) ∧
      ∀ p ∈ m.postings t, p.fileId.toNat < m.reader.filePaths.length + paths.length := by
  have hids : ∀ k ∈ (m.overlay.get? t).getD [], k.toNat < paths.length := by
    cases hget : m.overlay.get? t with
    | none => exact forall_mem_nil _
    | some ids => exact hm.ids_lt t ids hget
  have hasc : Ascending id ((m.overlay.get? t).getD []) := by
    cases hget : m.overlay.get? t with
    | none => exact nil
    | some ids => exact hm.ascending t ids hget
  constructor
  · refine append.mpr ⟨hm.reader.lookup_ascending t, ?_, fun a ha b hb => ?_⟩
    · rw [Ascending, pairwise_map]
      refine List.Pairwise.imp_of_mem (fun ha hb hab => ?_) hasc
      rw [lt_iff_toNat_lt, hm.toNat_appended (hids _ ha), hm.toNat_appended (hids _ hb)]
      exact Nat.add_lt_add_left (lt_iff_toNat_lt.mp hab) _
    · obtain ⟨k, hk, rfl⟩ := mem_map.mp hb
      have hlt := hm.reader.lookup_lt ha
      rw [lt_iff_toNat_lt, hm.toNat_appended (hids k hk)]
      omega
  · intro p hp
    rcases mem_append.mp hp with hp | hp
    · have := hm.reader.lookup_lt hp
      omega
    · obtain ⟨k, hk, rfl⟩ := mem_map.mp hp
      rw [hm.toNat_appended (hids k hk)]
      exact Nat.add_lt_add_left (hids k hk) _

/-- If the loop succeeds, every posting list fits its length field. -/
lemma Sound.length_of_appendTrigrams {w w' : IndexWriter}
    (h : m.appendTrigrams 0 0 w = .ok w') : ∀ j ∈ m.left 0 0, (m.group j).2.length < 2 ^ 32 := by
  rw [hm.appendTrigrams_eq] at h
  refine foldlM_invariant (P := fun done _ => ∀ j ∈ done, (m.group j).2.length < 2 ^ 32)
    (fun done j w w' hdone hj => ?_) (forall_mem_nil _) h
  exact forall_mem_append.mpr ⟨hdone, fun j' hj' => mem_singleton.mp hj' ▸ length_of_writeJoined hj⟩

/-- **The loop writes the posting lists**, if each fits its length field. -/
theorem Sound.appendTrigrams_groups (hlen : ∀ j ∈ m.left 0 0, (m.group j).2.length < 2 ^ 32)
    (w : IndexWriter) : m.appendTrigrams 0 0 w = m.groups.foldlM IndexWriter.appendGroup w := by
  have hstep : ∀ w, ∀ j ∈ m.left 0 0, m.writeJoined w j =
      if (m.group j).2.isEmpty then .ok w else w.appendGroup (m.group j) :=
    fun w j hj => hm.writeJoined_eq (hm.fromSides hj) (hlen j hj) w
  rw [hm.appendTrigrams_eq, foldlM_congr hstep, groups, foldlM_map]
  exact foldlM_skip (fun j => (m.group j).2.isEmpty) (m.left 0 0) w

omit hm

/-- The posting lists that are written fit their length fields if all do. -/
lemma length_lt_of_mem_groups (hlen : ∀ j ∈ m.left 0 0, (m.group j).2.length < 2 ^ 32) :
    ∀ g ∈ m.groups, g.2.length < 2 ^ 32 := by
  intro g hg
  obtain ⟨j, hj, rfl⟩ := mem_map.mp hg
  exact hlen j (mem_filter.mp hj).1

/-- With fewer than `2 ^ 32` files every posting list fits its length field. -/
lemma Sound.length_lt (hm : m.Sound paths)
    (htotal : m.reader.filePaths.length + paths.length < 2 ^ 32) :
    ∀ j ∈ m.left 0 0, (m.group j).2.length < 2 ^ 32 := by
  intro j hj
  obtain ⟨hasc, hlt⟩ := hm.postings_ascending j.1
  rw [hm.group_eq hj]
  exact lt_of_le_of_lt (length_le_of_nodup (map_iff.mpr hasc).nodup hlt) htotal

/-- The posting lists are no longer than those of both sides. -/
lemma Sound.groupsSize_le (hm : m.Sound paths) :
    groupsSize m.groups ≤ (m.reader.entries.map LookupEntry.byteLen).sum +
      (m.overlay.toList.flatMap Prod.snd).length * POSTING_ENTRY_SIZE := by
  have hle : ∀ j ∈ m.left 0 0, (m.group j).2.length * POSTING_ENTRY_SIZE ≤
      j.2.1.elim 0 LookupEntry.byteLen + j.2.2.elim 0 fun g => g.2.length * POSTING_ENTRY_SIZE := by
    intro j hj
    have hreader : (j.2.1.elim [] m.reader.postingsOf).length * POSTING_ENTRY_SIZE ≤
        j.2.1.elim 0 LookupEntry.byteLen := by
      cases hx : j.2.1 with
      | none => exact le_rfl
      | some e =>
        have hmem := (hm.fromSides hj).reader e hx
        have hlen := length_postingsOf (hm.reader.in_bounds e hmem).2
        exact (congrArg (· * POSTING_ENTRY_SIZE) hlen).le
    have hoverlay : (m.overlayPart j.2.2).length * POSTING_ENTRY_SIZE ≤
        j.2.2.elim 0 fun g => g.2.length * POSTING_ENTRY_SIZE := by
      cases j.2.2 with
      | none => exact le_rfl
      | some g =>
        rw [overlayPart, Option.elim_some, length_map]
        exact le_rfl
    rw [group, length_append, Nat.add_mul]
    exact Nat.add_le_add hreader hoverlay
  rw [left, drop_zero, drop_zero] at hle
  have hsum : ∀ l : List (UInt32 × List UInt32),
      (l.map fun g => g.2.length * POSTING_ENTRY_SIZE).sum =
        (l.flatMap Prod.snd).length * POSTING_ENTRY_SIZE := by
    intro l
    induction l with
    | nil => rfl
    | cons g l ih =>
      rw [map_cons, sum_cons, ih, flatMap_cons, length_append, Nat.add_mul]
  rw [groups, left, drop_zero, drop_zero, ← hsum]
  exact groupsSize_outerJoin_le _ hle

/-- The posting lists are in strictly ascending order of their trigrams. -/
lemma Sound.groups_ascending (hm : m.Sound paths) : Ascending Prod.fst m.groups := by
  have hasc : Ascending Prod.fst (m.left 0 0) := by
    rw [left, drop_zero, drop_zero]
    exact outerJoin_ascending hm.reader.ascending m.overlay.pairwise_toList
  rw [groups, Ascending, pairwise_map]
  exact hasc.sublist filter_sublist

/-- The index that is left, if its posting lists fit and its paths are storable and distinct. -/
def Sound.layout (hm : m.Sound paths) (hlen : ∀ g ∈ m.groups, g.2.length < 2 ^ 32)
    (hsize : groupsSize m.groups < 2 ^ 64) (hstorable : ∀ p ∈ paths, Storable p)
    (hnodup : paths.Nodup) (hnew : ∀ p ∈ m.reader.filePaths, p ∉ paths) : Layout where
  groups := m.groups
  paths := m.reader.filePaths ++ paths
  ascending := hm.groups_ascending
  nonempty := fun g hg => (hm.mem_groups.mp hg).1
  length_lt := hlen
  size_lt := hsize
  ids_ascending := fun g hg => (hm.mem_groups.mp hg).2 ▸ (hm.postings_ascending g.1).1
  ids_lt := by
    intro g hg p hp
    rw [(hm.mem_groups.mp hg).2] at hp
    rw [length_append]
    exact (hm.postings_ascending g.1).2 p hp
  storable := List.forall_mem_append.mpr ⟨m.reader.storable, hstorable⟩
  paths_nodup := List.nodup_append.mpr ⟨hm.reader.paths_nodup, hnodup,
    fun p hp q hq heq => hnew p hp (heq ▸ hq)⟩
  paths_le := by
    rw [length_append]
    exact hm.total

end AppendInput

/-! ## The index that is left -/

section Append

variable {d : Destination} {reader r : IndexReader} {paths : List String}
  {inverted : FinMap UInt32 (List UInt32)} {live : LiveIndex}

/-- The base of the overlay's ids is the number of files of the index. -/
lemma appendBase_eq_ok {base : UInt32} :
    appendBase reader = .ok base ↔
      reader.filePaths.length < 2 ^ 32 ∧ base = UInt32.ofNat reader.filePaths.length := by
  rw [appendBase, numFiles]
  split_ifs with h
  · exact iff_of_false (by rintro ⟨⟩) fun heq => absurd heq.1 (not_lt.mpr h)
  · exact ⟨fun heq => ⟨not_le.mp h, (Except.ok.inj heq).symm⟩, fun heq => congrArg _ heq.2.symm⟩

/-- The input of the loop. -/
def appendInput (reader : IndexReader) (inverted : FinMap UInt32 (List UInt32)) : AppendInput :=
  ⟨reader, UInt32.ofNat reader.filePaths.length, inverted⟩

/-- The files of an index to which an overlay was appended. -/
structure AppendedFiles (reader : IndexReader) (paths : List String)
    (inverted : FinMap UInt32 (List UInt32)) (files : IndexFiles) : Prop where
  base_lt : reader.filePaths.length < 2 ^ 32
  loop : ∃ w result, (appendInput reader inverted).appendTrigrams 0 0 .create = .ok w ∧
    w.finish = .ok result ∧ files.lookup = result.1 ∧ files.index = result.2.1
  table : writeFileTable (reader.filePaths ++ paths) = .ok files.files

/-- What appending leaves if it succeeds. -/
lemma appendedFiles {files : IndexFiles}
    (h : appendOverlayToIndex d reader paths inverted = .ok files) :
    AppendedFiles reader paths inverted files := by
  obtain ⟨_, -, h⟩ := bind_eq_ok.mp h
  obtain ⟨_, -, h⟩ := bind_eq_ok.mp h
  obtain ⟨_, -, h⟩ := bind_eq_ok.mp h
  dsimp only at h
  split_ifs at h
  obtain ⟨_, -, h⟩ := bind_eq_ok.mp h
  obtain ⟨base, hbase, h⟩ := bind_eq_ok.mp h
  obtain ⟨w, hw, h⟩ := bind_eq_ok.mp h
  obtain ⟨result, hresult, h⟩ := bind_eq_ok.mp h
  obtain ⟨table, htable, h⟩ := bind_eq_ok.mp h
  cases h
  obtain ⟨hlt, rfl⟩ := appendBase_eq_ok.mp hbase
  exact ⟨hlt, ⟨w, result, hw, hresult, rfl, rfl⟩, htable⟩

/-- What the index says to which an overlay was appended. -/
structure AppendedTo (reader : IndexReader) (live : LiveIndex) (r : IndexReader) : Prop where
  /-- The files of the index come first, then those of the overlay. -/
  paths : ∃ overlayPaths, r.filePaths = reader.filePaths ++ overlayPaths ∧ overlayPaths.Nodup ∧
    ∀ path, path ∈ overlayPaths ↔ ∃ fid, live.filePath fid = some path
  /-- The postings of a trigram are those of the index, as they are, then those of the overlay, with
  masks that filter nothing. -/
  lookup : ∀ t, ∃ overlayPostings,
    r.lookupTrigramWithMasks t = reader.lookupTrigramWithMasks t ++ overlayPostings ∧
    ∀ e, e ∈ overlayPostings ↔ (e.locMask, e.nextMask) = (0xff, 0xff) ∧
      ∃ fid path, live.HasPostingOf t fid ∧ live.filePath fid = some path ∧
        r.filePath e.fileId = some path
  wellFormed : r.WellFormed
  contiguous : r.Contiguous

namespace AppendInput

variable {m : AppendInput}

/-- The input of the loop is sound if the overlay is a snapshot. -/
lemma sound_of_isSnapshot (hr : reader.WellFormed) (hs : live.IsSnapshot paths inverted)
    (hlt : reader.filePaths.length < 2 ^ 32)
    (htotal : reader.filePaths.length + paths.length ≤ 2 ^ 32) :
    (appendInput reader inverted).Sound paths where
  reader := hr
  base := rfl
  base_lt := hlt
  total := htotal
  ascending := hs.ascending
  ids_lt := by
    intro t ids hids k hk
    have hget : inverted.get? t = some ids := hids
    have hmem : k ∈ (inverted.get? t).getD [] := by rwa [hget]
    obtain ⟨_, _, -, -, hget⟩ := (hs.mem_ids t k).mp hmem
    exact (List.getElem?_eq_some_iff.mp hget).1

/-- **A reader of the files that are left says what was appended.** -/
theorem Sound.appendedTo (hm : m.Sound paths) (hs : live.IsSnapshot paths m.overlay)
    {hlen : ∀ g ∈ m.groups, g.2.length < 2 ^ 32} {hsize : groupsSize m.groups < 2 ^ 64}
    {hstorable : ∀ p ∈ paths, Storable p} {hnew : ∀ p ∈ m.reader.filePaths, p ∉ paths}
    (hr : (hm.layout hlen hsize hstorable hs.paths_nodup hnew).Opened r) :
    AppendedTo m.reader live r := by
  have hpaths : r.filePaths = m.reader.filePaths ++ paths := hr.paths
  have hlookup : ∀ t, r.lookupTrigramWithMasks t = m.postings t := by
    intro t
    refine (hr.wellFormed.lookup_ascending t).eq_of_mem_iff (hm.postings_ascending t).1 fun p => ?_
    rw [hr.mem_lookup]
    constructor
    · rintro ⟨g, hg, rfl, hp⟩
      exact (hm.mem_groups.mp hg).2 ▸ hp
    · exact fun hp => ⟨(t, m.postings t), hm.mem_groups.mpr ⟨ne_nil_of_mem hp, rfl⟩, rfl, hp⟩
  have hplace : ∀ k : UInt32, k.toNat < paths.length →
      r.filePath (m.appended k).fileId = paths[k.toNat]? := by
    intro k hk
    rw [filePath, hm.toNat_appended hk, hpaths,
      getElem?_append_right (Nat.le_add_right _ _), Nat.add_sub_cancel_left]
  refine ⟨⟨paths, hpaths, hs.paths_nodup, hs.mem_paths⟩, fun t => ⟨_, hlookup t, fun e => ?_⟩,
    hr.wellFormed, hr.contiguous⟩
  rw [mem_map]
  constructor
  · rintro ⟨k, hk, rfl⟩
    obtain ⟨fid, path, hpost, hpath, hget⟩ := (hs.mem_ids t k).mp hk
    exact ⟨rfl, fid, path, hpost, hpath,
      (hplace k (List.getElem?_eq_some_iff.mp hget).1).trans hget⟩
  · rintro ⟨hmask, fid, path, hpost, hpath, hfile⟩
    -- the path is new, so the file comes after those of the index
    have hge : m.reader.filePaths.length ≤ e.fileId.toNat := by
      by_contra hlt
      rw [filePath, hpaths, getElem?_append_left (not_le.mp hlt)] at hfile
      exact hnew path (mem_of_getElem? hfile) ((hs.mem_paths path).mpr ⟨fid, hpath⟩)
    have hget := hfile
    rw [filePath, hpaths, getElem?_append_right hge] at hget
    have hlt := (List.getElem?_eq_some_iff.mp hget).1
    have htotal := hm.total
    have hk : (UInt32.ofNat (e.fileId.toNat - m.reader.filePaths.length)).toNat =
        e.fileId.toNat - m.reader.filePaths.length :=
      UInt32.toNat_ofNat_of_lt' (show _ < 2 ^ 32 by omega)
    refine ⟨UInt32.ofNat (e.fileId.toNat - m.reader.filePaths.length),
      (hs.mem_ids t _).mpr ⟨fid, path, hpost, hpath, by rw [hk]; exact hget⟩, ?_⟩
    have hid : (m.appended (UInt32.ofNat (e.fileId.toNat - m.reader.filePaths.length))).fileId =
        e.fileId := by
      rw [← UInt32.toNat_inj, hm.toNat_appended (by rw [hk]; exact hlt), hk]
      omega
    obtain ⟨id, loc, next⟩ := e
    obtain ⟨rfl, rfl⟩ := Prod.mk.inj hmask
    exact congrArg (fun id => (⟨id, 0xff, 0xff⟩ : PostingEntry)) hid

end AppendInput

/-- The files that are left open, if the paths are storable and have 32-bit ids. -/
lemma AppendedFiles.opens {files : IndexFiles} (h : AppendedFiles reader paths inverted files)
    (hr : reader.WellFormed) (hs : live.IsSnapshot paths inverted)
    (hnew : ∀ p ∈ reader.filePaths, p ∉ paths) (hstorable : ∀ p ∈ paths, Storable p)
    (htotal : reader.filePaths.length + paths.length ≤ 2 ^ 32) :
    ∃ r, IndexReader.openReader files = .ok r ∧ AppendedTo reader live r := by
  have hm := AppendInput.sound_of_isSnapshot hr hs h.base_lt htotal
  obtain ⟨w, result, hw, hresult, hlookup, hindex⟩ := h.loop
  have hall := hm.length_of_appendTrigrams hw
  have hlen := AppendInput.length_lt_of_mem_groups hall
  rw [hm.appendTrigrams_groups hall] at hw
  have hholds := IndexWriter.appendGroups_holds hlen hw
  obtain ⟨r, hopen, hopened⟩ :=
    (hm.layout hlen hholds.size_lt hstorable hs.paths_nodup hnew).openReader_files h.table
  obtain ⟨flookup, findex, table⟩ := files
  obtain rfl : flookup = result.1 := hlookup
  obtain rfl : findex = result.2.1 := hindex
  rw [hholds.finish hresult]
  exact ⟨r, hopen, hm.appendedTo hs hopened⟩

/-- What the reader says that opens what is left. -/
lemma AppendedFiles.appendedTo {files : IndexFiles}
    (h : AppendedFiles reader paths inverted files) (hr : reader.WellFormed)
    (hs : live.IsSnapshot paths inverted) (hnew : ∀ p ∈ reader.filePaths, p ∉ paths)
    (hopen : IndexReader.openReader files = .ok r) : AppendedTo reader live r := by
  have hread := readFileTable_of_openReader hopen
  have hstorable := storable_of_readFileTable h.table hread
  have htotal := (length_of_readFileTable h.table hread).2
  rw [length_append] at htotal
  obtain ⟨r', hopen', happended⟩ := h.opens hr hs hnew
    (fun p hp => hstorable p (mem_append_right _ hp)) htotal
  rw [hopen] at hopen'
  rwa [Except.ok.inj hopen']

/-- **Appending succeeds if there is enough space and not too many files.** -/
theorem appendOverlayToIndex_ok (hr : reader.WellFormed) (hc : reader.Contiguous)
    (hs : live.IsSnapshot paths inverted) (hstorable : ∀ p ∈ paths, Storable p)
    (htotal : reader.filePaths.length + paths.length < 2 ^ 32) {available : UInt64}
    (havailable : d.available = .ok available)
    (hspace : requiredDiskBytes (reader.mappedBytes +
      ((inverted.toList.flatMap Prod.snd).length * POSTING_ENTRY_SIZE +
        inverted.keys.card * LOOKUP_ENTRY_SIZE)) (reader.filePaths.length + paths.length) ≤
      available.toNat) :
    ∃ files, appendOverlayToIndex d reader paths inverted = .ok files := by
  have hlt := available.toNat_lt
  have hbase : reader.filePaths.length < 2 ^ 32 := by omega
  have hm := AppendInput.sound_of_isSnapshot hr hs hbase htotal.le
  have hall := hm.length_lt htotal
  have hlen := AppendInput.length_lt_of_mem_groups hall
  have hpayload : reader.mappedBytes +
      ((inverted.toList.flatMap Prod.snd).length * POSTING_ENTRY_SIZE +
        inverted.keys.card * LOOKUP_ENTRY_SIZE) < 2 ^ 64 := by
    rw [requiredDiskBytes] at hspace
    omega
  have hcount : (inverted.toList.flatMap Prod.snd).length < 2 ^ 64 := by
    rw [POSTING_ENTRY_SIZE] at hpayload
    omega
  have hsize : groupsSize (appendInput reader inverted).groups < 2 ^ 64 := by
    have hle := hm.groupsSize_le
    have hstop := hc.stop_eq
    rw [mappedBytes] at hpayload
    change groupsSize (appendInput reader inverted).groups ≤ (reader.entries.map _).sum +
      (inverted.toList.flatMap Prod.snd).length * POSTING_ENTRY_SIZE at hle
    omega
  have hgroups : (appendInput reader inverted).groups.length * LOOKUP_ENTRY_SIZE < 2 ^ 64 := by
    have hasc := hm.groups_ascending.length_le
    rw [LOOKUP_ENTRY_SIZE]
    omega
  obtain ⟨w, hw, hholds⟩ := IndexWriter.appendGroups_ok hlen hgroups hsize
  obtain ⟨result, hresult⟩ := IndexWriter.finish_ok hholds hgroups
  obtain ⟨table, htable, -⟩ := readFileTable_writeFileTable
    (forall_mem_append.mpr ⟨reader.storable, hstorable⟩)
    (by rw [length_append]; exact htotal.le)
  refine ⟨⟨result.1, result.2.1, table⟩, ?_⟩
  refine bind_eq_ok.mpr ⟨_, (foldlM_checkedDiskBytes _ (by decide)).mpr ⟨?_, rfl⟩, ?_⟩
  · rw [zero_add, ← flatMap_def]
    exact hcount
  rw [zero_add, ← flatMap_def]
  refine bind_eq_ok.mpr ⟨_, indexPayloadDiskBytes_eq_ok.mpr ⟨by omega, rfl⟩, ?_⟩
  refine bind_eq_ok.mpr ⟨_, checkedDiskBytes_eq_ok.mpr ⟨hpayload, rfl⟩, ?_⟩
  have hfew : ¬ 2 ^ 64 ≤ reader.numFiles + paths.length := by
    rw [numFiles]
    omega
  dsimp only
  rw [if_neg hfew]
  refine bind_eq_ok.mpr ⟨(), checkDiskSpace_ok havailable hspace, ?_⟩
  refine bind_eq_ok.mpr ⟨_, appendBase_eq_ok.mpr ⟨hbase, rfl⟩, ?_⟩
  refine bind_eq_ok.mpr ⟨w, (hm.appendTrigrams_groups hall _).trans hw, ?_⟩
  exact bind_eq_ok.mpr ⟨result, hresult, bind_eq_ok.mpr ⟨_, htable, rfl⟩⟩

end Append

/-- **Appending is exact or fails.** For a well-formed index and the snapshot of an overlay after any
run of mutations none of whose files is in the index, the index that is left says what the index says
and what the overlay says, and nothing else; its files open if the paths are storable and have 32-bit
ids. A contiguous index with fewer files than ids is left if there is enough space. Whatever is
appended, appending fails if a posting list of the index cannot be read.

**Proof sketch.** The loop walks the outer join of the lookup table and the overlay's trigrams, and
what it writes for each is the list of the index followed by that of the overlay, whose ids are all
larger. -/
theorem appendOverlayToIndex_exact (d : Destination) (reader : IndexReader)
    (ops : List LiveIndex.Op) (paths : List String) (inverted : FinMap UInt32 (List UInt32))
    (hr : reader.WellFormed)
    (hsnapshot : (History.run ops).index.snapshotForDisk = (paths, inverted))
    (hnew : ∀ path ∈ reader.filePaths, path ∉ paths) :
    (∀ files, appendOverlayToIndex d reader paths inverted = .ok files →
      (∀ r, IndexReader.openReader files = .ok r → AppendedTo reader (History.run ops).index r) ∧
      ((∀ path ∈ paths, Storable path) → reader.filePaths.length + paths.length ≤ 2 ^ 32 →
        ∃ r, IndexReader.openReader files = .ok r)) ∧
    (reader.Contiguous → (∀ path ∈ paths, Storable path) →
      reader.filePaths.length + paths.length < 2 ^ 32 →
      ∀ available, d.available = .ok available →
      requiredDiskBytes (reader.mappedBytes +
        ((inverted.toList.flatMap Prod.snd).length * POSTING_ENTRY_SIZE +
          inverted.keys.card * LOOKUP_ENTRY_SIZE)) (reader.filePaths.length + paths.length) ≤
        available.toNat →
      ∃ files, appendOverlayToIndex d reader paths inverted = .ok files) ∧
    ∀ (reader' : IndexReader) i paths' inverted', i < reader'.numTrigrams →
      reader'.nthTrigramRaw i = none →
      ∃ e, appendOverlayToIndex d reader' paths' inverted' = .error e := by
  have hs := (History.run_linked ops).isSnapshot
  rw [hsnapshot] at hs
  refine ⟨fun files h => ⟨fun r hopen => ?_, fun hstorable htotal => ?_⟩,
    fun hc hstorable htotal available havailable hspace => ?_,
    fun reader' i paths' inverted' hi hraw =>
      appendOverlayToIndex_unreadable d hi hraw paths' inverted'⟩
  · exact (appendedFiles h).appendedTo hr hs hnew hopen
  · obtain ⟨r, hopen, -⟩ := (appendedFiles h).opens hr hs hnew hstorable htotal
    exact ⟨r, hopen⟩
  · exact appendOverlayToIndex_ok hr hc hs hstorable htotal havailable hspace

/-- The overlay after one file was added. -/
def oneUpsert (path : String) : LiveIndex :=
  (History.run [.upsertFileWithTrigrams path [7] fun _ => 3]).index

/-- Appending an overlay of one file to an index of one file leaves an index. -/
lemma appendOverlayToIndex_oneUpsert {path : String} (hstorable : Storable path)
    (hpaths : (oneUpsert path).snapshotForDisk.1 = [path])
    (hspace : requiredDiskBytes (IndexReader.single.mappedBytes +
      (((oneUpsert path).snapshotForDisk.2.toList.flatMap Prod.snd).length * POSTING_ENTRY_SIZE +
        (oneUpsert path).snapshotForDisk.2.keys.card * LOOKUP_ENTRY_SIZE)) 2 ≤ 2 ^ 40) :
    ∃ files, appendOverlayToIndex ⟨"", .ok (2 ^ 40)⟩ .single (oneUpsert path).snapshotForDisk.1
      (oneUpsert path).snapshotForDisk.2 = .ok files := by
  have hentries : single.entries = [⟨7, 0, 1⟩] := lookupCodec.decodeAll_encodeAll _
  have hcontiguous : single.Contiguous := by
    rw [IndexReader.Contiguous, hentries]
    exact ⟨rfl, rfl⟩
  have hlen : single.filePaths.length + (oneUpsert path).snapshotForDisk.1.length = 2 := by
    rw [hpaths]
    rfl
  refine appendOverlayToIndex_ok single_wellFormed hcontiguous
    (History.run_linked _).isSnapshot (fun p hp => ?_) (by rw [hlen]; decide) rfl
    (by rw [hlen]; exact hspace)
  rw [hpaths] at hp
  rwa [mem_singleton.mp hp]

/-- An overlay of one file is appended to an index of another one. -/
theorem appendOverlayToIndex_exact_single :
    ∃ files r, appendOverlayToIndex ⟨"", .ok (2 ^ 40)⟩ .single (oneUpsert "b").snapshotForDisk.1
        (oneUpsert "b").snapshotForDisk.2 = .ok files ∧
      IndexReader.openReader files = .ok r ∧ AppendedTo .single (oneUpsert "b") r := by
  have hpaths : (oneUpsert "b").snapshotForDisk.1 = ["b"] := by decide +kernel
  have hstorable : Storable "b" := ⟨by decide, by decide⟩
  obtain ⟨files, hfiles⟩ := appendOverlayToIndex_oneUpsert hstorable hpaths (by decide +kernel)
  obtain ⟨hexact, -, -⟩ := appendOverlayToIndex_exact ⟨"", .ok (2 ^ 40)⟩ .single
    [.upsertFileWithTrigrams "b" [7] fun _ => 3] _ _ IndexReader.single_wellFormed rfl
    (by
      change ∀ path ∈ IndexReader.single.filePaths, path ∉ (oneUpsert "b").snapshotForDisk.1
      rw [hpaths]
      decide)
  obtain ⟨happended, hopens⟩ := hexact files hfiles
  obtain ⟨r, hopen⟩ := hopens
    (by
      change ∀ path ∈ (oneUpsert "b").snapshotForDisk.1, Storable path
      rw [hpaths]
      exact fun path hpath => List.mem_singleton.mp hpath ▸ hstorable)
    (by
      change _ + (oneUpsert "b").snapshotForDisk.1.length ≤ _
      rw [hpaths]
      decide)
  exact ⟨files, r, hfiles, hopen, happended r hopen⟩

/-- **Appending a file that the index has leaves an index that is not well formed**: its path is
listed twice. -/
theorem appendOverlayToIndex_duplicates :
    ¬ ∀ (d : Destination) (reader : IndexReader) (ops : List LiveIndex.Op) (files : IndexFiles),
      reader.WellFormed →
      appendOverlayToIndex d reader (History.run ops).index.snapshotForDisk.1
        (History.run ops).index.snapshotForDisk.2 = .ok files →
      ∃ r, IndexReader.openReader files = .ok r ∧ r.WellFormed := by
  intro h
  have hpaths : (oneUpsert "a").snapshotForDisk.1 = ["a"] := by decide +kernel
  obtain ⟨files, hfiles⟩ := appendOverlayToIndex_oneUpsert ⟨by decide, by decide⟩ hpaths
    (by decide +kernel)
  obtain ⟨r, hopen, hr⟩ := h _ _ [.upsertFileWithTrigrams "a" [7] fun _ => 3] files
    IndexReader.single_wellFormed hfiles
  have htable := (appendedFiles hfiles).table
  rw [hpaths] at htable
  have hread := (length_of_readFileTable htable (readFileTable_of_openReader hopen)).1
  have hnodup := hr.paths_nodup
  rw [hread] at hnodup
  exact absurd hnodup (by decide +kernel)

end Tgrep
