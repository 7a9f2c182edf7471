import Mathlib.Data.Prod.Lex
import Tgrep.Build.Output
import Tgrep.Data.Grouping
import Tgrep.Data.Varint

/-!
# Spill segments

A sorted arena is spilled as the groups of its trigrams. Trigrams and file ids are stored as
variable-length differences. A cursor decodes one group at a time through a window of the file,
which the reads of the operating system fill in pieces of any size.

## Main definitions

* `TrigramPosting`, `arenaGroups`: the postings of an arena, and their groups.
* `writeSegment`: the bytes of a segment.
* `ByteSource`, `SegmentCursor`: the window, and the cursor over it.

## Main results

* `writeSegment_eq`: the scratch buffer does not show in a segment.
* `ByteSource.readVarint_spec`, `ByteSource.readU8_spec`: what is decoded does not depend on how
  the file is read.
* `SegmentCursor.advance_spec`, `SegmentCursor.takeGroup_spec`: a cursor returns the groups of its
  segment.

## Implementation notes

The window holds the bytes from `pos` to `filled`. Checks of the permit, the accounting of memory
and failing reads are left out. `usize` is taken to be 64 bits wide, so that every count fits.
-/

namespace Tgrep

open List Loops

/-! ## Postings -/

/-- A single posting prior to grouping. -/
structure TrigramPosting where
  /-- The trigram. -/
  trigram : UInt32
  /-- The posting. -/
  entry : PostingEntry
  deriving DecidableEq

/-- Postings are sorted by trigram, then by file. -/
def TrigramPosting.key (p : TrigramPosting) : UInt32 ×ₗ UInt32 :=
  toLex (p.trigram, p.entry.fileId)

/-- The runs of one trigram in a sorted arena. -/
def arenaGroups (arena : List TrigramPosting) : List PostingGroup :=
  (Grouping.byKey TrigramPosting.trigram arena).map fun g => (g.1, g.2.map TrigramPosting.entry)

/-! ## Writing a segment -/

/-- Flush threshold for the scratch buffer while spilling a segment. -/
def SPILL_SCRATCH_FLUSH_BYTES : ℕ := 128 * 1024

/-- The postings of a group, each file as the difference to the one before. -/
def spillEntries : UInt32 → List PostingEntry → List UInt8
  | _, [] => []
  | prevFileId, entry :: entries =>
    Varint.write (entry.fileId - prevFileId).toUInt64 ++
      (entry.locMask :: entry.nextMask :: spillEntries entry.fileId entries)

/-- A group: the difference to the trigram before, the number of postings, and the postings. -/
def spillGroup (prevTrigram : UInt32) (g : PostingGroup) : List UInt8 :=
  Varint.write (g.1 - prevTrigram).toUInt64 ++
    (Varint.write (UInt64.ofNat g.2.length) ++ spillEntries 0 g.2)

/-- A segment that is being written. -/
structure SegmentOutput where
  /-- The bytes written to the file. -/
  written : List UInt8
  /-- The bytes not yet written. -/
  scratch : List UInt8
  /-- The trigram of the last group. -/
  prevTrigram : UInt32

/-- Encode a group, and flush the scratch buffer if it is large. -/
def SegmentOutput.writeGroup (o : SegmentOutput) (g : PostingGroup) : SegmentOutput :=
  let scratch := o.scratch ++ spillGroup o.prevTrigram g
  if SPILL_SCRATCH_FLUSH_BYTES ≤ scratch.length then ⟨o.written ++ scratch, [], g.1⟩
  else ⟨o.written, scratch, g.1⟩

/-- The bytes of a segment. -/
def writeSegment (groups : List PostingGroup) : List UInt8 :=
  let o := groups.foldl SegmentOutput.writeGroup ⟨[], [], 0⟩
  if o.scratch ≠ [] then o.written ++ o.scratch else o.written

/-- The groups after a trigram, one after another. -/
def segmentBytes : UInt32 → List PostingGroup → List UInt8
  | _, [] => []
  | prevTrigram, g :: groups => spillGroup prevTrigram g ++ segmentBytes g.1 groups

/-- The scratch buffer does not show in a segment. -/
lemma writeSegment_eq (groups : List PostingGroup) :
    writeSegment groups = segmentBytes 0 groups := by
  have hloop : ∀ (groups : List PostingGroup) (o : SegmentOutput),
      (groups.foldl SegmentOutput.writeGroup o).written ++
        (groups.foldl SegmentOutput.writeGroup o).scratch =
      o.written ++ o.scratch ++ segmentBytes o.prevTrigram groups := by
    intro groups
    induction groups with
    | nil => simp [segmentBytes]
    | cons g groups ih =>
      intro o
      rw [foldl_cons, ih, segmentBytes]
      unfold SegmentOutput.writeGroup
      dsimp only
      split_ifs <;> simp
  have hall := hloop groups ⟨[], [], 0⟩
  rw [append_nil, nil_append] at hall
  unfold writeSegment
  dsimp only
  split_ifs with hempty
  · exact hall
  · rw [not_not.mp hempty, append_nil] at hall
    exact hall

/-- Every group takes at least a byte. -/
lemma length_le_segmentBytes (prevTrigram : UInt32) (groups : List PostingGroup) :
    groups.length ≤ (segmentBytes prevTrigram groups).length := by
  induction groups generalizing prevTrigram with
  | nil => exact Nat.zero_le _
  | cons g groups ih =>
    have hpos := Varint.length_write_pos (g.1 - prevTrigram).toUInt64
    have hrest := ih g.1
    simp only [segmentBytes, spillGroup, length_append, length_cons]
    omega

/-! ## Reading bytes -/

/-- A file that is read from the start. -/
structure SegmentFile where
  /-- The bytes not yet read. -/
  unread : List UInt8
  /-- How many bytes the next reads return, if there is room for them. -/
  sizes : ℕ → ℕ

/-- Read into a buffer with some space: at least one byte, unless the file is exhausted. -/
def SegmentFile.read (f : SegmentFile) (space : ℕ) : List UInt8 × SegmentFile :=
  let n := min space (max 1 (f.sizes 0))
  (f.unread.take n, ⟨f.unread.drop n, fun i => f.sizes (i + 1)⟩)

/-- A read returns no more bytes than there is space for. -/
lemma SegmentFile.length_read_le (f : SegmentFile) (space : ℕ) :
    (f.read space).1.length ≤ space := by
  simp only [SegmentFile.read, length_take]
  omega

/-- A read that returns bytes leaves fewer of them. -/
lemma SegmentFile.length_read_lt {f : SegmentFile} {space : ℕ} (h : (f.read space).1 ≠ []) :
    (f.read space).2.unread.length < f.unread.length := by
  have hpos := length_pos_iff.mpr h
  simp only [SegmentFile.read, length_take, length_drop] at hpos ⊢
  omega

/-- Buffered byte reader with a sliding window. -/
structure ByteSource where
  /-- The file. -/
  file : SegmentFile
  /-- The bytes that were read but not yet decoded. -/
  window : List UInt8
  /-- The size of the buffer. -/
  capacity : ℕ

namespace ByteSource

/-- A reader of a file. -/
def fromFile (file : SegmentFile) (capacity : ℕ) : ByteSource :=
  ⟨file, [], max capacity Varint.MAX_LEN⟩

/-- Read until the window has as many bytes as wanted, or the file is exhausted. -/
def fill (want : ℕ) (src : ByteSource) : ByteSource :=
  if src.window.length < want then
    let read := src.file.read (src.capacity - src.window.length)
    if read.1 = [] then { src with file := read.2 }
    else fill want { src with window := src.window ++ read.1, file := read.2 }
  else src
termination_by src.file.unread.length
decreasing_by
  rename_i hread
  exact SegmentFile.length_read_lt hread

/-- Make as many bytes available as wanted, if the file still has them. -/
def ensure (want : ℕ) (src : ByteSource) : ByteSource :=
  if want ≤ src.window.length then src else src.fill want

/-- Decode one number; nothing means a clean end of the segment. -/
def readVarint (src : ByteSource) : Except Error (Option UInt64 × ByteSource) :=
  let src := src.ensure Varint.MAX_LEN
  if src.window.length = 0 then .ok (none, src)
  else
    match Varint.read (.indexCorrupted "spill segment truncated mid-varint")
        (.indexCorrupted "spill segment contains an overlong varint") src.window with
    | .error e => .error e
    | .ok (value, window) => .ok (some value, { src with window })

/-- Read one byte. -/
def readU8 (src : ByteSource) : Except Error (UInt8 × ByteSource) :=
  let src := src.ensure 1
  match src.window with
  | [] => .error (.indexCorrupted "spill segment truncated mid-posting")
  | byte :: window => .ok (byte, { src with window })

/-- The bytes not yet decoded. -/
def stream (src : ByteSource) : List UInt8 := src.window ++ src.file.unread

/-- The reader is at these bytes, and its buffer is large enough for any number. -/
structure At (src : ByteSource) (bytes : List UInt8) : Prop where
  stream : src.stream = bytes
  capacity : Varint.MAX_LEN ≤ src.capacity

/-- A new reader is at the start of its file. -/
lemma fromFile_at (bytes : List UInt8) (sizes : ℕ → ℕ) (capacity : ℕ) :
    (fromFile ⟨bytes, sizes⟩ capacity).At bytes :=
  ⟨rfl, le_max_right _ _⟩

variable {src : ByteSource}

/-- Reading ahead does not move the reader, and makes as many bytes available as wanted unless the
file is exhausted. -/
lemma fill_spec {want : ℕ} {bytes : List UInt8} (h : src.At bytes) (hwant : want ≤ src.capacity) :
    (src.fill want).At bytes ∧
      (want ≤ (src.fill want).window.length ∨ (src.fill want).window = bytes) := by
  fun_induction fill want src with
  | case1 src hlt read hread =>
    have hnil : src.file.unread = [] := by
      have hn : 0 < min (src.capacity - src.window.length) (max 1 (src.file.sizes 0)) := by omega
      rcases take_eq_nil_iff.mp hread with hzero | hnil
      · omega
      · exact hnil
    have hstream := h.stream
    rw [stream, hnil, append_nil] at hstream
    refine ⟨⟨?_, h.capacity⟩, .inr hstream⟩
    simp only [stream, read, SegmentFile.read, hnil, drop_nil, append_nil]
    exact hstream
  | case2 src hlt read hread ih =>
    refine ih ⟨?_, h.capacity⟩ hwant
    have hstream := h.stream
    simp only [stream, read, SegmentFile.read, append_assoc, take_append_drop]
    exact hstream
  | case3 src hge => exact ⟨h, .inl (not_lt.mp hge)⟩

/-- Making bytes available does not move the reader. -/
lemma ensure_spec {want : ℕ} {bytes : List UInt8} (h : src.At bytes) (hwant : want ≤ src.capacity) :
    (src.ensure want).At bytes ∧
      (want ≤ (src.ensure want).window.length ∨ (src.ensure want).window = bytes) := by
  rw [ensure]
  split_ifs with hle
  · exact ⟨h, .inl hle⟩
  · exact fill_spec h hwant

/-- **Decoding a number** does not depend on how the file is read. -/
theorem readVarint_spec {value : UInt64} {rest : List UInt8}
    (h : src.At (Varint.write value ++ rest)) :
    ∃ src', src.readVarint = .ok (some value, src') ∧ src'.At rest := by
  obtain ⟨hat, havail⟩ := ensure_spec h h.capacity
  have hlen := Varint.length_write_le value
  have hpos := Varint.length_write_pos value
  -- the window starts with the whole number
  obtain ⟨window, hwindow, hrest⟩ : ∃ window,
      (src.ensure Varint.MAX_LEN).window = Varint.write value ++ window ∧
        window ++ (src.ensure Varint.MAX_LEN).file.unread = rest := by
    have hstream := hat.stream
    rcases havail with hroom | hall
    · have hprefix := prefix_of_prefix_length_le (prefix_append _ rest)
        (hstream ▸ prefix_append _ _) (hlen.trans hroom)
      obtain ⟨window, hwindow⟩ := hprefix
      rw [stream, ← hwindow, append_assoc] at hstream
      exact ⟨window, hwindow.symm, append_cancel_left hstream⟩
    · refine ⟨rest, hall, ?_⟩
      rw [stream, hall] at hstream
      rw [append_right_eq_self.mp hstream, append_nil]
  refine ⟨{ src.ensure Varint.MAX_LEN with window }, ?_, ⟨hrest, hat.capacity⟩⟩
  have hne : ¬ (Varint.write value ++ window).length = 0 := by
    rw [length_append]
    omega
  unfold readVarint
  simp only [hwindow, if_neg hne, Varint.read_write]

/-- **A number that is cut** is an error. -/
theorem readVarint_cut {value : UInt64} {n : ℕ} (hpos : 0 < n)
    (hcut : n < (Varint.write value).length) (h : src.At ((Varint.write value).take n)) :
    src.readVarint = .error (.indexCorrupted "spill segment truncated mid-varint") := by
  obtain ⟨hat, havail⟩ := ensure_spec h h.capacity
  have hlength := congrArg length hat.stream
  have hmax := Varint.length_write_le value
  rw [stream, length_append, length_take] at hlength
  have hall : (src.ensure Varint.MAX_LEN).window = (Varint.write value).take n :=
    havail.resolve_left (by omega)
  have hne : ¬ ((Varint.write value).take n).length = 0 := by
    rw [length_take]
    omega
  unfold readVarint
  simp only [hall, if_neg hne, Varint.read_take hcut]

/-- At the end of a segment there is no number. -/
lemma readVarint_end (h : src.At []) : ∃ src', src.readVarint = .ok (none, src') := by
  obtain ⟨hat, -⟩ := ensure_spec h h.capacity
  have hnil : (src.ensure Varint.MAX_LEN).window = [] := (append_eq_nil_iff.mp hat.stream).1
  refine ⟨src.ensure Varint.MAX_LEN, ?_⟩
  unfold readVarint
  simp only [hnil, length_nil, if_true]

/-- **Reading a byte** does not depend on how the file is read. -/
theorem readU8_spec {byte : UInt8} {rest : List UInt8} (h : src.At (byte :: rest)) :
    ∃ src', src.readU8 = .ok (byte, src') ∧ src'.At rest := by
  have hone : 1 ≤ src.capacity := le_trans (by decide) h.capacity
  obtain ⟨hat, havail⟩ := ensure_spec h hone
  cases hwindow : (src.ensure 1).window with
  | nil =>
    rw [hwindow] at havail
    rcases havail with hroom | hall
    · simp at hroom
    · cases hall
  | cons byte' window =>
    have hstream := hat.stream
    rw [stream, hwindow, cons_append, cons.injEq] at hstream
    obtain ⟨rfl, hrest⟩ := hstream
    refine ⟨{ src.ensure 1 with window }, ?_, ⟨hrest, hat.capacity⟩⟩
    unfold readU8
    simp only [hwindow]

end ByteSource

/-! ## Cursors -/

/-- A value that must be there. -/
def require {α : Type} (message : String) : Option α → Except Error α
  | some a => .ok a
  | none => .error (.indexCorrupted message)

/-- Add a difference to a 32-bit number, which must fit again. -/
def addDelta (message : String) (prev : UInt32) (delta : UInt64) : Except Error UInt32 :=
  let sum := prev.toUInt64 + delta
  if sum.toNat < 2 ^ 32 then .ok sum.toUInt32 else .error (.indexCorrupted message)

/-- Streaming cursor over one spill segment. -/
structure SegmentCursor where
  /-- The reader. -/
  src : ByteSource
  /-- The trigram of the last group header. -/
  prevTrigram : UInt32
  /-- Postings remaining in the group whose header has been read. -/
  pendingCount : ℕ

namespace SegmentCursor

/-- A cursor at the start of a segment. -/
def fromFile (file : SegmentFile) (bufferBytes : ℕ) : SegmentCursor :=
  ⟨.fromFile file bufferBytes, 0, 0⟩

/-- Read the header of the next group, after its difference. -/
def readHeader (c : SegmentCursor) (src : ByteSource) (delta : UInt64) :
    Except Error (Option UInt32 × SegmentCursor) := do
  let trigram ← addDelta "spill segment trigram delta overflow" c.prevTrigram delta
  let count ← src.readVarint
  let n ← require "spill segment missing group count" count.1
  .ok (some trigram, ⟨count.2, trigram, n.toNat⟩)

/-- Read the next group header; nothing means the segment is exhausted. -/
def advance (c : SegmentCursor) : Except Error (Option UInt32 × SegmentCursor) := do
  let delta ← c.src.readVarint
  match delta.1 with
  | none => .ok (none, { c with src := delta.2 })
  | some value => c.readHeader delta.2 value

/-- Decode a number of postings, appending them to `out`. -/
def takeEntries : ℕ → UInt32 → ByteSource → List PostingEntry →
    Except Error (List PostingEntry × ByteSource)
  | 0, _, src, out => .ok (out, src)
  | n + 1, prevFileId, src, out => do
    let delta ← src.readVarint
    let value ← require "spill segment truncated in group" delta.1
    let fileId ← addDelta "spill segment file id overflow" prevFileId value
    let locMask ← delta.2.readU8
    let nextMask ← locMask.2.readU8
    takeEntries n fileId nextMask.2 (out ++ [⟨fileId, locMask.1, nextMask.1⟩])

/-- Decode the pending group's postings, appending them to `out`. -/
def takeGroup (c : SegmentCursor) (out : List PostingEntry) :
    Except Error (List PostingEntry × SegmentCursor) := do
  let taken ← takeEntries c.pendingCount 0 c.src out
  .ok (taken.1, { c with src := taken.2, pendingCount := 0 })

/-- A difference leads from one number to a larger one. -/
lemma addDelta_sub {message : String} {prev next : UInt32} (hle : prev ≤ next) :
    addDelta message prev (next - prev).toUInt64 = .ok next := by
  have hsum : (prev.toUInt64 + (next - prev).toUInt64).toNat = next.toNat := by
    have hle' := UInt32.le_iff_toNat_le.mp hle
    have hlt := next.toNat_lt
    rw [UInt64.toNat_add, UInt32.toNat_toUInt64, UInt32.toNat_toUInt64, UInt32.toNat_sub_of_le _ _ hle]
    omega
  have hlt := next.toNat_lt
  unfold addDelta
  simp only [hsum, hlt, if_true]
  congr 1
  apply UInt32.toNat_inj.mp
  rw [UInt64.toNat_toUInt32, hsum]
  omega

/-- **Decoding the postings of a group.** -/
theorem takeEntries_spec {entries : List PostingEntry} {prevFileId : UInt32} {src : ByteSource}
    {rest : List UInt8} (out : List PostingEntry) (h : src.At (spillEntries prevFileId entries ++ rest))
    (hids : Ascending PostingEntry.fileId entries)
    (hprev : ∀ e ∈ entries, prevFileId ≤ e.fileId) :
    ∃ src', takeEntries entries.length prevFileId src out = .ok (out ++ entries, src') ∧
      src'.At rest := by
  induction entries generalizing prevFileId src out with
  | nil => exact ⟨src, by rw [append_nil]; rfl, h⟩
  | cons entry entries ih =>
    obtain ⟨hhead, htail⟩ := Ascending.cons.mp hids
    rw [spillEntries, append_assoc] at h
    obtain ⟨src₁, hdelta, h₁⟩ := ByteSource.readVarint_spec h
    obtain ⟨src₂, hloc, h₂⟩ := ByteSource.readU8_spec h₁
    obtain ⟨src₃, hnext, h₃⟩ := ByteSource.readU8_spec h₂
    obtain ⟨src', htaken, h'⟩ := ih (out ++ [entry]) h₃ htail fun e he => le_of_lt (hhead e he)
    refine ⟨src', ?_, h'⟩
    have hadd : addDelta "spill segment file id overflow" prevFileId
        (entry.fileId - prevFileId).toUInt64 = .ok entry.fileId :=
      addDelta_sub (hprev entry (mem_cons_self ..))
    refine bind_eq_ok.mpr ⟨_, hdelta, bind_eq_ok.mpr ⟨_, rfl, ?_⟩⟩
    refine bind_eq_ok.mpr ⟨_, hadd, bind_eq_ok.mpr ⟨_, hloc, ?_⟩⟩
    refine bind_eq_ok.mpr ⟨_, hnext, ?_⟩
    rw [append_assoc, singleton_append] at htaken
    exact htaken

/-- What a cursor holds: the next group, whose header has been read, and those after it. -/
structure Holds (c : SegmentCursor) (g : PostingGroup) (groups : List PostingGroup) : Prop where
  trigram : c.prevTrigram = g.1
  count : c.pendingCount = g.2.length
  src : c.src.At (spillEntries 0 g.2 ++ segmentBytes g.1 groups)

variable {g : PostingGroup} {groups : List PostingGroup} {c : SegmentCursor}

/-- **Reading the header of the next group.** -/
theorem advance_spec (h : c.src.At (segmentBytes c.prevTrigram (g :: groups)))
    (hle : c.prevTrigram ≤ g.1) (hlen : g.2.length < 2 ^ 64) :
    ∃ c', c.advance = .ok (some g.1, c') ∧ c'.Holds g groups := by
  rw [segmentBytes, spillGroup, append_assoc, append_assoc] at h
  obtain ⟨src₁, hdelta, h₁⟩ := ByteSource.readVarint_spec h
  obtain ⟨src₂, hcount, h₂⟩ := ByteSource.readVarint_spec h₁
  have hadd : addDelta "spill segment trigram delta overflow" c.prevTrigram
      (g.1 - c.prevTrigram).toUInt64 = .ok g.1 := addDelta_sub hle
  refine ⟨⟨src₂, g.1, (UInt64.ofNat g.2.length).toNat⟩, ?_, rfl, UInt64.toNat_ofNat_of_lt' hlen, h₂⟩
  refine bind_eq_ok.mpr ⟨_, hdelta, bind_eq_ok.mpr ⟨_, hadd, ?_⟩⟩
  exact bind_eq_ok.mpr ⟨_, hcount, bind_eq_ok.mpr ⟨_, rfl, rfl⟩⟩

/-- At the end of a segment there is no group. -/
lemma advance_end (h : c.src.At []) : ∃ c', c.advance = .ok (none, c') := by
  obtain ⟨src', hdelta⟩ := ByteSource.readVarint_end h
  exact ⟨{ c with src := src' }, bind_eq_ok.mpr ⟨_, hdelta, rfl⟩⟩

/-- **Decoding the pending group.** -/
theorem takeGroup_spec (h : c.Holds g groups) (hids : Ascending PostingEntry.fileId g.2)
    (out : List PostingEntry) :
    ∃ c', c.takeGroup out = .ok (out ++ g.2, c') ∧ c'.prevTrigram = g.1 ∧
      c'.src.At (segmentBytes g.1 groups) := by
  obtain ⟨src', htaken, h'⟩ := takeEntries_spec out h.src hids fun e _ =>
    UInt32.le_iff_toNat_le.mpr (Nat.zero_le _)
  rw [← h.count] at htaken
  exact ⟨⟨src', c.prevTrigram, 0⟩, bind_eq_ok.mpr ⟨_, htaken, rfl⟩, h.trigram, h'⟩

end SegmentCursor

end Tgrep
