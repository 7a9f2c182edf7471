import Tgrep.Data.Ascending
import Tgrep.Data.Loops
import Tgrep.FileTable

/-!
# Writing the files of an index

Lookup entries are buffered, postings are encoded in chunks, and a running offset says where the
postings of the next trigram start. After any sequence of posting lists the two files are the
encodings of these lists and of the lookup entries that point at them.

## Main definitions

* `OutputFile`: a file being written.
* `LookupOutput`: `lookup.bin` with the entries not yet flushed.
* `IndexWriter`: both files with the running offset.
* `PostingGroup`, `lookupEntries`: the posting lists by trigram, and the entries that point at
  them.
* `IndexWriter.Holds`: what was written are the encodings of these groups.

## Main results

* `IndexWriter.Holds.append`: one more posting list.
* `IndexWriter.append_ok`: it is written unless a file grows too large.
* `IndexWriter.appendGroups_holds`, `IndexWriter.appendGroups_ok`: the same for any number of
  posting lists.
* `IndexWriter.Holds.finish`: the files that are left.
* `tiles_lookupEntries`: the entries tile the postings file in order.

## Implementation notes

The operating system counts file sizes in 64 bits, so a write that would take a file to `2 ^ 64`
bytes fails. Other failures of the operating system are not modelled.
-/

namespace Tgrep

open List Loops UInt32

/-! ## Files -/

/-- A file that is being written. -/
structure OutputFile where
  /-- The bytes written so far. -/
  bytes : List UInt8
  /-- File sizes are 64-bit numbers. -/
  size_lt : bytes.length < 2 ^ 64

namespace OutputFile

/-- A new file. -/
def create : OutputFile := ⟨[], by decide⟩

/-- Append bytes. -/
def writeAll (f : OutputFile) (bs : List UInt8) : Except Error OutputFile :=
  if h : (f.bytes ++ bs).length < 2 ^ 64 then .ok ⟨f.bytes ++ bs, h⟩
  else .error (.io "file too large")

/-- What a successful write leaves. -/
lemma bytes_of_writeAll {f f' : OutputFile} {bs : List UInt8} (h : f.writeAll bs = .ok f') :
    f'.bytes = f.bytes ++ bs := by
  rw [writeAll] at h
  split_ifs at h
  cases h
  rfl

/-- A write succeeds if the file stays small enough. -/
lemma writeAll_ok {f : OutputFile} {bs : List UInt8} (h : (f.bytes ++ bs).length < 2 ^ 64) :
    f.writeAll bs = .ok ⟨f.bytes ++ bs, h⟩ := by
  rw [writeAll, dif_pos h]

/-- Writing in pieces is writing all at once. -/
lemma foldlM_writeAll (pieces : List (List UInt8)) (f : OutputFile) :
    pieces.foldlM writeAll f = f.writeAll pieces.flatten := by
  induction pieces generalizing f with
  | nil =>
    have h : (f.bytes ++ ([] : List UInt8)).length < 2 ^ 64 := by
      rw [append_nil]
      exact f.size_lt
    rw [flatten_nil, writeAll_ok h]
    simp only [append_nil]
    rfl
  | cons p pieces ih =>
    rw [foldlM_cons, flatten_cons]
    by_cases hp : (f.bytes ++ p).length < 2 ^ 64
    · rw [writeAll_ok hp]
      change pieces.foldlM writeAll ⟨f.bytes ++ p, hp⟩ = _
      rw [ih, writeAll, writeAll]
      simp only [append_assoc]
    · have hall : ¬ (f.bytes ++ (p ++ pieces.flatten)).length < 2 ^ 64 := by
        simp only [length_append] at hp ⊢
        omega
      rw [writeAll, dif_neg hp, writeAll, dif_neg hall]
      rfl

/-- Writing what is additive chunk by chunk is writing it all at once. -/
lemma foldlM_chunks_writeAll {α : Type} {n : ℕ} (hn : 0 < n) {g : List α → List UInt8}
    (hnil : g [] = []) (happ : ∀ a b, g (a ++ b) = g a ++ g b) (l : List α) (f : OutputFile) :
    (Loops.chunks n l).foldlM (fun f chunk => f.writeAll (g chunk)) f = f.writeAll (g l) := by
  rw [← flatten_map_chunks hn hnil happ l, ← foldlM_writeAll, foldlM_map]

/-- Writing one after the other is writing both. -/
lemma writeAll_append (a b : List UInt8) (f : OutputFile) :
    f.writeAll (a ++ b) = f.writeAll a >>= fun f => f.writeAll b := by
  have hboth := foldlM_writeAll [a, b] f
  simp only [flatten_cons, flatten_nil, append_nil] at hboth
  rw [← hboth, foldlM_cons]
  refine congrArg _ (funext fun f' => ?_)
  rw [foldlM_cons]
  cases f'.writeAll b <;> rfl

end OutputFile

/-- The number of some records, as a word, is zero if there are none. -/
lemma ofNat_length_eq_zero {α : Type} {l : List α} (hlen : l.length < 2 ^ 32) :
    UInt32.ofNat l.length = 0 ↔ l.isEmpty = true := by
  rw [← UInt32.toNat_inj, UInt32.toNat_ofNat_of_lt' hlen, isEmpty_iff_length_eq_zero]
  rfl

/-! ## Postings -/

/-- Write postings in chunks. -/
def writePostingEntries (f : OutputFile) (entries : List PostingEntry) : Except Error OutputFile :=
  (Loops.chunks POSTING_WRITE_CHUNK_ENTRIES entries).foldlM
    (fun f chunk => f.writeAll (postingCodec.encodeAll chunk)) f

/-- The chunks do not show in the file. -/
lemma writePostingEntries_eq (f : OutputFile) (entries : List PostingEntry) :
    writePostingEntries f entries = f.writeAll (postingCodec.encodeAll entries) :=
  OutputFile.foldlM_chunks_writeAll (by decide) postingCodec.encodeAll_nil
    postingCodec.encodeAll_append entries f

/-! ## Lookup entries -/

/-- `lookup.bin` with the encoded entries that are not yet flushed. -/
structure LookupOutput where
  /-- The file. -/
  file : OutputFile
  /-- The buffer. -/
  scratch : List UInt8

namespace LookupOutput

/-- The bytes of the file once the buffer is flushed. -/
def contents (o : LookupOutput) : List UInt8 := o.file.bytes ++ o.scratch

/-- Flush the buffer. -/
def flushLookupEntries (o : LookupOutput) : Except Error LookupOutput :=
  if o.scratch ≠ [] then do
    let file ← o.file.writeAll o.scratch
    .ok ⟨file, []⟩
  else .ok o

/-- Flush the buffer if it is full. -/
def makeRoom (o : LookupOutput) : Except Error LookupOutput :=
  if o.scratch.length = LOOKUP_WRITE_CHUNK_ENTRIES * LOOKUP_ENTRY_SIZE then o.flushLookupEntries
  else .ok o

/-- Buffer an entry, flushing first if the buffer is full. -/
def writeLookupEntry (o : LookupOutput) (entry : LookupEntry) : Except Error LookupOutput := do
  let o ← o.makeRoom
  .ok { o with scratch := o.scratch ++ entry.encode }

variable {o' o : LookupOutput}

/-- Flushing moves the buffer into the file. -/
lemma flush_contents (h : o.flushLookupEntries = .ok o') :
    o'.contents = o.contents ∧ o'.scratch = [] := by
  rw [flushLookupEntries] at h
  split_ifs at h with hempty
  · obtain ⟨file, hfile, heq⟩ := bind_eq_ok.mp h
    cases heq
    rw [contents, contents, OutputFile.bytes_of_writeAll hfile, append_nil]
    exact ⟨rfl, rfl⟩
  · cases h
    exact ⟨rfl, not_not.mp hempty⟩

/-- Flushing succeeds if the file stays small enough. -/
lemma flush_ok (h : o.contents.length < 2 ^ 64) : ∃ o', o.flushLookupEntries = .ok o' := by
  rw [flushLookupEntries]
  split_ifs
  · rw [OutputFile.writeAll_ok h]
    exact ⟨_, rfl⟩
  · exact ⟨o, rfl⟩

/-- Writing an entry appends its encoding. -/
lemma write_contents {entry : LookupEntry} (h : o.writeLookupEntry entry = .ok o') :
    o'.contents = o.contents ++ entry.encode := by
  obtain ⟨o₁, h₁, heq⟩ := bind_eq_ok.mp h
  cases heq
  have hsame : o₁.contents = o.contents := by
    rw [makeRoom] at h₁
    split_ifs at h₁
    · exact (flush_contents h₁).1
    · cases h₁
      rfl
  rw [← hsame, contents, contents, append_assoc]

/-- Writing an entry succeeds if what was written before is small enough. -/
lemma write_ok (h : o.contents.length < 2 ^ 64) (entry : LookupEntry) :
    ∃ o', o.writeLookupEntry entry = .ok o' := by
  have hroom : ∃ o', o.makeRoom = .ok o' := by
    rw [makeRoom]
    split_ifs
    · exact flush_ok h
    · exact ⟨o, rfl⟩
  obtain ⟨o', ho'⟩ := hroom
  rw [writeLookupEntry, ho']
  exact ⟨_, rfl⟩

end LookupOutput

/-! ## Groups -/

/-- The postings of one trigram. -/
abbrev PostingGroup := UInt32 × List PostingEntry

/-- The size of posting groups in `index.bin`. -/
def groupsSize (groups : List PostingGroup) : ℕ :=
  (groups.flatMap Prod.snd).length * POSTING_ENTRY_SIZE

/-- The lookup entries of posting groups that start at an offset. -/
def lookupEntries : ℕ → List PostingGroup → List LookupEntry
  | _, [] => []
  | offset, (trigram, postings) :: groups =>
    ⟨trigram, UInt64.ofNat offset, UInt32.ofNat postings.length⟩ ::
      lookupEntries (offset + postings.length * POSTING_ENTRY_SIZE) groups

/-- The size of a group and of those after it. -/
lemma groupsSize_cons (g : PostingGroup) (groups : List PostingGroup) :
    groupsSize (g :: groups) = g.2.length * POSTING_ENTRY_SIZE + groupsSize groups := by
  rw [groupsSize, groupsSize, flatMap_cons, length_append, Nat.add_mul]

variable (offset : ℕ) (groups : List PostingGroup)

/-- The size of groups one after another. -/
lemma groupsSize_append (groups' : List PostingGroup) :
    groupsSize (groups ++ groups') = groupsSize groups + groupsSize groups' := by
  rw [groupsSize, groupsSize, groupsSize, flatMap_append, length_append, Nat.add_mul]

/-- The size after one more group. -/
lemma groupsSize_append_singleton (g : PostingGroup) :
    groupsSize (groups ++ [g]) = groupsSize groups + g.2.length * POSTING_ENTRY_SIZE := by
  rw [groupsSize_append, groupsSize_cons, groupsSize, groupsSize, flatMap_nil,
    length_nil, Nat.zero_mul, add_zero]

/-- The size of the groups made of what an outer join emits, some of which are left out, is bounded by
what the elements of both lists contribute. -/
lemma groupsSize_outerJoin_le {α β κ : Type} [LinearOrder κ] {ka : α → κ} {kb : β → κ}
    {as : List α} {bs : List β} {size : α → ℕ} {size' : β → ℕ}
    {group : κ × Option α × Option β → PostingGroup} (keep : κ × Option α × Option β → Bool)
    (hle : ∀ j ∈ Ascending.outerJoin ka kb as bs, (group j).2.length * POSTING_ENTRY_SIZE ≤
      j.2.1.elim 0 size + j.2.2.elim 0 size') :
    groupsSize (((Ascending.outerJoin ka kb as bs).filter keep).map group) ≤
      (as.map size).sum + (bs.map size').sum := by
  have hloop : ∀ l : List (κ × Option α × Option β),
      (∀ j ∈ l, (group j).2.length * POSTING_ENTRY_SIZE ≤
        j.2.1.elim 0 size + j.2.2.elim 0 size') →
      groupsSize ((l.filter keep).map group) ≤
        ((l.filterMap fun j => j.2.1).map size).sum +
        ((l.filterMap fun j => j.2.2).map size').sum := by
    intro l
    induction l with
    | nil => exact fun _ => le_rfl
    | cons j l ih =>
      intro hall
      obtain ⟨hgroup, hrest⟩ := List.forall_mem_cons.mp hall
      have htail := ih hrest
      have hhead : groupsSize (((j :: l).filter keep).map group) ≤
          (group j).2.length * POSTING_ENTRY_SIZE + groupsSize ((l.filter keep).map group) := by
        rw [filter_cons]
        split_ifs
        · rw [map_cons, groupsSize_cons]
        · exact Nat.le_add_left _ _
      obtain ⟨t, x, y⟩ := j
      cases x <;> cases y <;>
        simp only [filterMap_cons, map_cons, sum_cons, Option.elim_none,
          Option.elim_some] at * <;> omega
  have h := hloop _ hle
  obtain ⟨hleft, hright⟩ := Ascending.filterMap_outerJoin ka kb as bs
  rwa [hleft, hright] at h

/-- The size of groups is that of their encodings. -/
lemma length_encodeAll_groups :
    (postingCodec.encodeAll (groups.flatMap Prod.snd)).length = groupsSize groups :=
  postingCodec.length_encodeAll _

/-- The lookup entries of groups one after another. -/
lemma lookupEntries_append (groups' : List PostingGroup) :
    lookupEntries offset (groups ++ groups') =
      lookupEntries offset groups ++ lookupEntries (offset + groupsSize groups) groups' := by
  induction groups generalizing offset with
  | nil => rfl
  | cons g groups ih =>
    rw [cons_append, lookupEntries, lookupEntries, ih, groupsSize_cons, add_assoc]
    rfl

@[simp] lemma length_lookupEntries : (lookupEntries offset groups).length = groups.length := by
  induction groups generalizing offset with
  | nil => rfl
  | cons g groups ih => rw [lookupEntries, length_cons, ih, length_cons]

/-- The entries have the trigrams of the groups, in order. -/
lemma map_trigram_lookupEntries :
    (lookupEntries offset groups).map LookupEntry.trigram = groups.map Prod.fst := by
  induction groups generalizing offset with
  | nil => rfl
  | cons g groups ih => rw [lookupEntries, map_cons, ih, map_cons]

/-- Every entry belongs to a group, which starts where the groups before it end, if the offsets and
lengths fit their fields. -/
lemma mem_lookupEntries {groups : List PostingGroup} (hlen : ∀ g ∈ groups, g.2.length < 2 ^ 32)
    (hsize : groupsSize groups < 2 ^ 64) {e : LookupEntry} (he : e ∈ lookupEntries 0 groups) :
    ∃ before g after, groups = before ++ g :: after ∧ e.trigram = g.1 ∧
      e.offset.toNat = groupsSize before ∧ e.length.toNat = g.2.length := by
  have hloop : ∀ (groups : List PostingGroup) (offset : ℕ), e ∈ lookupEntries offset groups →
      ∃ before g after, groups = before ++ g :: after ∧
        e = ⟨g.1, UInt64.ofNat (offset + groupsSize before), ofNat g.2.length⟩ := by
    intro groups
    induction groups with
    | nil =>
      intro offset h
      simp [lookupEntries] at h
    | cons g groups ih =>
      intro offset h
      rcases List.mem_cons.mp h with rfl | h
      · exact ⟨[], g, groups, rfl, by simp [groupsSize]⟩
      · obtain ⟨before, g', after, rfl, rfl⟩ := ih _ h
        refine ⟨g :: before, g', after, rfl, ?_⟩
        rw [groupsSize_cons, add_assoc]
  obtain ⟨before, g, after, rfl, rfl⟩ := hloop groups 0 he
  have hg : g ∈ before ++ g :: after := mem_append_right _ (mem_cons_self ..)
  rw [groupsSize_append] at hsize
  refine ⟨before, g, after, rfl, rfl, ?_, toNat_ofNat_of_lt' (hlen g hg)⟩
  rw [zero_add]
  exact UInt64.toNat_ofNat_of_lt' (show groupsSize before < 2 ^ 64 by omega)

/-- The ranges of the entries follow one another from `lo` to `hi`. -/
def Tiles : ℕ → List LookupEntry → ℕ → Prop
  | lo, [], hi => lo = hi
  | lo, e :: es, hi => e.offset.toNat = lo ∧ Tiles (lo + e.length.toNat * POSTING_ENTRY_SIZE) es hi

/-- **The entries tile the postings file in order**, if the offsets and lengths fit their fields. -/
theorem tiles_lookupEntries {offset : ℕ} {groups : List PostingGroup}
    (hlen : ∀ g ∈ groups, g.2.length < 2 ^ 32) (hsize : offset + groupsSize groups < 2 ^ 64) :
    Tiles offset (lookupEntries offset groups) (offset + groupsSize groups) := by
  induction groups generalizing offset with
  | nil => rfl
  | cons g groups ih =>
    obtain ⟨hg, hgroups⟩ := List.forall_mem_cons.mp hlen
    rw [groupsSize_cons, ← add_assoc] at hsize ⊢
    refine ⟨UInt64.toNat_ofNat_of_lt' (show offset < 2 ^ 64 by omega), ?_⟩
    rw [toNat_ofNat_of_lt' hg]
    exact ih hgroups hsize

/-! ## The index writer -/

/-- `index.bin` and `lookup.bin` while they are written. -/
structure IndexWriter where
  /-- `index.bin`. -/
  postings : OutputFile
  /-- `lookup.bin`. -/
  lookup : LookupOutput
  /-- Where the next postings start. -/
  offset : UInt64
  /-- The number of trigrams written. -/
  trigramCount : ℕ

namespace IndexWriter

/-- Both files empty. -/
def create : IndexWriter := ⟨.create, ⟨.create, []⟩, 0, 0⟩

/-- Write the lookup entry of a trigram, then its postings, and advance the offset. -/
def append (w : IndexWriter) (trigram : UInt32) (length : UInt32)
    (writePostings : OutputFile → Except Error OutputFile) : Except Error IndexWriter := do
  let lookup ← w.lookup.writeLookupEntry ⟨trigram, w.offset, length⟩
  let postings ← writePostings w.postings
  .ok
    { postings
      lookup
      offset := w.offset + length.toUInt64 * UInt64.ofNat POSTING_ENTRY_SIZE
      trigramCount := w.trigramCount + 1 }

/-- Flush both files. Returns `lookup.bin`, `index.bin` and the number of trigrams. -/
def finish (w : IndexWriter) : Except Error (List UInt8 × List UInt8 × ℕ) := do
  let lookup ← w.lookup.flushLookupEntries
  .ok (lookup.file.bytes, w.postings.bytes, w.trigramCount)

/-- What was written are the encodings of the groups and of the lookup entries that point at
them. -/
structure Holds (groups : List PostingGroup) (w : IndexWriter) : Prop where
  lookup : w.lookup.contents = lookupCodec.encodeAll (lookupEntries 0 groups)
  postings : w.postings.bytes = postingCodec.encodeAll (groups.flatMap Prod.snd)
  offset : w.offset.toNat = groupsSize groups
  count : w.trigramCount = groups.length

/-- Nothing was written at first. -/
lemma create_holds : Holds [] create := ⟨rfl, rfl, rfl, rfl⟩

variable {w : IndexWriter} {groups : List PostingGroup}

/-- The groups that were written fit in a file. -/
lemma Holds.size_lt (h : Holds groups w) : groupsSize groups < 2 ^ 64 := by
  rw [← length_encodeAll_groups, ← h.postings]
  exact w.postings.size_lt

/-- **Writing one more posting list.** The offset does not overflow because the postings file
would then have grown too large. -/
theorem Holds.append {w' : IndexWriter} (h : Holds groups w) {trigram : UInt32}
    {entries : List PostingEntry} (hlen : entries.length < 2 ^ 32)
    (happ : w.append trigram (UInt32.ofNat entries.length)
      (fun f => f.writeAll (postingCodec.encodeAll entries)) = .ok w') :
    Holds (groups ++ [(trigram, entries)]) w' := by
  obtain ⟨lookup, hlookup, hrest⟩ := bind_eq_ok.mp happ
  obtain ⟨postings, hpostings, heq⟩ := bind_eq_ok.mp hrest
  cases heq
  have hbytes : postings.bytes =
      postingCodec.encodeAll ((groups ++ [(trigram, entries)]).flatMap Prod.snd) := by
    rw [OutputFile.bytes_of_writeAll hpostings, h.postings, flatMap_append,
      FixedCodec.encodeAll_append]
    simp
  have hsize : groupsSize groups + entries.length * POSTING_ENTRY_SIZE < 2 ^ 64 := by
    have := postings.size_lt
    rwa [hbytes, length_encodeAll_groups, groupsSize_append_singleton] at this
  refine ⟨?_, hbytes, ?_, ?_⟩
  · rw [LookupOutput.write_contents hlookup, h.lookup, lookupEntries_append,
      FixedCodec.encodeAll_append, zero_add, ← h.offset]
    simp only [lookupEntries, FixedCodec.encodeAll_cons, FixedCodec.encodeAll_nil, append_nil,
      UInt64.ofNat_toNat]
    rfl
  · have hsix : (UInt64.ofNat POSTING_ENTRY_SIZE).toNat = POSTING_ENTRY_SIZE := rfl
    have hmul : (ofNat entries.length).toUInt64.toNat = entries.length := by
      rw [toNat_toUInt64, toNat_ofNat_of_lt' hlen]
    have hfits : entries.length * POSTING_ENTRY_SIZE < 2 ^ 64 := by omega
    rw [UInt64.toNat_add, UInt64.toNat_mul, hmul, hsix, h.offset, Nat.mod_eq_of_lt hfits,
      Nat.mod_eq_of_lt hsize, groupsSize_append_singleton]
  · simp only [h.count, length_append, length_singleton]

/-- A posting list is written if both files stay small enough. -/
lemma append_ok (h : Holds groups w) {trigram length : UInt32} {entries : List PostingEntry}
    (hlookup : groups.length * LOOKUP_ENTRY_SIZE < 2 ^ 64)
    (hsize : groupsSize (groups ++ [(trigram, entries)]) < 2 ^ 64) :
    ∃ w', w.append trigram length
      (fun f => f.writeAll (postingCodec.encodeAll entries)) = .ok w' := by
  have hcontents : w.lookup.contents.length < 2 ^ 64 := by
    rw [h.lookup, FixedCodec.length_encodeAll, length_lookupEntries]
    exact hlookup
  obtain ⟨lookup, hl⟩ := LookupOutput.write_ok hcontents ⟨trigram, w.offset, length⟩
  have hfits : (w.postings.bytes ++ postingCodec.encodeAll entries).length < 2 ^ 64 := by
    rw [length_append, h.postings, length_encodeAll_groups, FixedCodec.length_encodeAll]
    rwa [groupsSize_append_singleton] at hsize
  rw [append, hl]
  change ∃ w', (w.postings.writeAll _ >>= _) = _
  rw [OutputFile.writeAll_ok hfits]
  exact ⟨_, rfl⟩

/-- **The files that are left** are the encodings of the groups and of their lookup entries. -/
theorem Holds.finish (h : Holds groups w) {result : List UInt8 × List UInt8 × ℕ}
    (hfin : w.finish = .ok result) :
    result = (lookupCodec.encodeAll (lookupEntries 0 groups),
      postingCodec.encodeAll (groups.flatMap Prod.snd), groups.length) := by
  obtain ⟨lookup, hl, heq⟩ := bind_eq_ok.mp hfin
  cases heq
  obtain ⟨hsame, hempty⟩ := LookupOutput.flush_contents hl
  rw [LookupOutput.contents, hempty, append_nil] at hsame
  rw [hsame, h.lookup, h.postings, h.count]

/-- Write a posting list at once. -/
def appendGroup (w : IndexWriter) (g : PostingGroup) : Except Error IndexWriter :=
  w.append g.1 (UInt32.ofNat g.2.length) fun f => f.writeAll (postingCodec.encodeAll g.2)

/-- **The run lemma**: what was written after any number of posting lists. -/
theorem appendGroups_holds (hlen : ∀ g ∈ groups, g.2.length < 2 ^ 32)
    (h : groups.foldlM appendGroup create = .ok w) : Holds groups w := by
  have hloop : (∀ g ∈ groups, g.2.length < 2 ^ 32) → Holds groups w := by
    refine foldlM_invariant (P := fun done w => (∀ g ∈ done, g.2.length < 2 ^ 32) →
      Holds done w) (fun done g w w' hdone happ hall => ?_) (fun _ => create_holds) h
    obtain ⟨hbefore, hg⟩ := List.forall_mem_append.mp hall
    exact (hdone hbefore).append (hg g (mem_singleton_self g)) happ
  exact hloop hlen

/-- Any number of posting lists is written if both files stay small enough. -/
lemma appendGroups_ok (hlen : ∀ g ∈ groups, g.2.length < 2 ^ 32)
    (hlookup : groups.length * LOOKUP_ENTRY_SIZE < 2 ^ 64) (hsize : groupsSize groups < 2 ^ 64) :
    ∃ w, groups.foldlM appendGroup create = .ok w ∧ Holds groups w := by
  refine foldlM_ok (P := Holds) (fun done g rest w hall hdone => ?_) create_holds
  have hg : g ∈ groups := hall ▸ mem_append_right _ (mem_cons_self ..)
  have hfits : groupsSize (done ++ [g]) < 2 ^ 64 := by
    rw [hall, append_cons, groupsSize_append] at hsize
    omega
  have hdoneLookup : done.length * LOOKUP_ENTRY_SIZE < 2 ^ 64 := by
    rw [hall, length_append, LOOKUP_ENTRY_SIZE] at hlookup
    rw [LOOKUP_ENTRY_SIZE]
    omega
  obtain ⟨w', hw'⟩ : ∃ w', w.appendGroup g = .ok w' := append_ok hdone hdoneLookup hfits
  exact ⟨w', hw', hdone.append (hlen g hg) hw'⟩

/-- Flushing succeeds if the lookup table is small enough. -/
lemma finish_ok (h : Holds groups w) (hlookup : groups.length * LOOKUP_ENTRY_SIZE < 2 ^ 64) :
    ∃ result, w.finish = .ok result := by
  have hcontents : w.lookup.contents.length < 2 ^ 64 := by
    rw [h.lookup, FixedCodec.length_encodeAll, length_lookupEntries]
    exact hlookup
  obtain ⟨lookup, hl⟩ := LookupOutput.flush_ok hcontents
  rw [IndexWriter.finish, hl]
  exact ⟨_, rfl⟩

end IndexWriter

end Tgrep
