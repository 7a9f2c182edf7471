import Tgrep.Data.Splice
import Tgrep.Reader.Spec

/-!
# Reading arbitrary files stays within them

The offsets and lengths of lookup entries come from a file that may hold anything. Here the accesses
of the reader are written with slices that fail outside the file, and with sums that fail outside a
machine word. They never fail, and what they return lies within the files.

## Main definitions

* `sliceAt`: a slice that fails outside the bytes.
* `IndexReader.nthTrigramRawAt`, `IndexReader.readPostingEntriesAt`: the accesses with such slices.

## Main results

* `IndexReader.nthTrigramRawAt_eq`, `IndexReader.readPostingEntriesAt_eq`: the accesses do not fail.
* `IndexReader.nthTrigramRaw_within`, `IndexReader.readPostingEntries_within`: what they return.
-/

namespace Tgrep

open Splice Option List

/-- The bytes from one index up to another, which must be in order and within. -/
def sliceAt (bytes : List UInt8) (start stop : ℕ) : Option (List UInt8) :=
  if start ≤ stop ∧ stop ≤ bytes.length ∧ stop < 2 ^ 64 then some (slice bytes start stop) else none

lemma sliceAt_eq {bytes : List UInt8} {start stop : ℕ} (h : start ≤ stop)
    (hstop : stop ≤ bytes.length) (hword : bytes.length < 2 ^ 64) :
    sliceAt bytes start stop = some (slice bytes start stop) :=
  if_pos ⟨h, hstop, by omega⟩

/-- A loop of accesses that do not fail does not fail. -/
lemma mapM_eq_some {α β : Type*} {f : α → Option β} {g : α → β} {l : List α}
    (h : ∀ a ∈ l, f a = some (g a)) : l.mapM f = some (l.map g) := by
  induction l with
  | nil => rfl
  | cons a l ih =>
    obtain ⟨ha, hl⟩ := forall_mem_cons.mp h
    rw [mapM_cons, ha, ih hl]
    rfl

namespace IndexReader

/-- Decode the lookup entry at an index. -/
def readLookupEntryAt (r : IndexReader) (index : ℕ) : Option LookupEntry :=
  match r.lookup with
  | none => none
  | some lookup =>
    (sliceAt lookup (index * LOOKUP_ENTRY_SIZE)
      (index * LOOKUP_ENTRY_SIZE + LOOKUP_ENTRY_SIZE)).map LookupEntry.decode

/-- The trigram of a lookup entry with its raw posting bytes. The outer `none` is an access outside
a file. -/
def nthTrigramRawAt (r : IndexReader) (i : ℕ) : Option (Option (UInt32 × List UInt8)) :=
  if i ≥ r.numEntries then some none
  else
    match r.readLookupEntryAt i with
    | none => none
    | some entry =>
      match r.postings with
      | none => some none
      | some postings =>
        let start := entry.offset.toNat
        let stop := start + entry.length.toNat * POSTING_ENTRY_SIZE
        if 2 ^ 64 ≤ stop then some none
        else if start > postings.length ∨ stop > postings.length then some none
        else (sliceAt postings start stop).map fun bytes => some (entry.trigram, bytes)

/-- Decode the postings that a lookup entry points at. -/
def readPostingEntriesAt (r : IndexReader) (offset : UInt64) (length : UInt32) :
    Option (List PostingEntry) :=
  match r.postings with
  | none => some []
  | some postings =>
    let start := offset.toNat
    if postings.length < start then some []
    else
      let remaining := postings.length - start
      let count := min length.toNat (remaining / POSTING_ENTRY_SIZE)
      (List.range count).mapM fun i =>
        let pos := start + i * POSTING_ENTRY_SIZE
        (sliceAt postings pos (pos + POSTING_ENTRY_SIZE)).map PostingEntry.decode

/-- The files that a reader maps are no longer than a machine word counts. -/
structure Mapped (r : IndexReader) : Prop where
  lookup_lt : (r.lookup.getD []).length < 2 ^ 64
  postings_lt : (r.postings.getD []).length < 2 ^ 64

variable {r : IndexReader}

/-- A lookup entry lies within `lookup.bin`. -/
lemma readLookupEntryAt_eq (h : r.Mapped) {i : ℕ} (hi : i < r.numEntries) :
    r.readLookupEntryAt i = some (r.readLookupEntry i) := by
  have hlen := r.lookup_length
  rw [LOOKUP_ENTRY_SIZE] at hlen
  rw [readLookupEntryAt, readLookupEntry, FixedCodec.nth]
  cases hlookup : r.lookup with
  | none =>
    rw [hlookup, getD_none, length_nil] at hlen
    omega
  | some lookup =>
    have hword := h.lookup_lt
    rw [hlookup, getD_some] at hlen hword
    have hslice := sliceAt_eq (Nat.le_add_right (i * 16) 16) (by omega) hword
    dsimp only
    rw [LOOKUP_ENTRY_SIZE, hslice, map_some, slice_eq_take]
    rfl

/-- **The raw postings of an entry are read without an access outside the files.** -/
theorem nthTrigramRawAt_eq (h : r.Mapped) (i : ℕ) :
    r.nthTrigramRawAt i = some (r.nthTrigramRaw i) := by
  rw [nthTrigramRawAt, nthTrigramRaw]
  split_ifs with hi
  · rfl
  · rw [readLookupEntryAt_eq h (not_le.mp hi)]
    dsimp only
    cases hpostings : r.postings with
    | none => rfl
    | some postings =>
      have hword := h.postings_lt
      rw [hpostings, getD_some] at hword
      dsimp only
      split_ifs with hstop hwithin
      · rfl
      · rfl
      · have hle := not_or.mp hwithin
        rw [sliceAt_eq (Nat.le_add_right _ _) (not_lt.mp hle.2) hword, map_some,
          slice_eq_take, Nat.add_sub_cancel_left]

/-- **Postings are decoded without an access outside `index.bin`**, whatever the offset and the
length. -/
theorem readPostingEntriesAt_eq (h : r.Mapped) (offset : UInt64) (length : UInt32) :
    r.readPostingEntriesAt offset length = some (r.readPostingEntries offset length) := by
  rw [readPostingEntriesAt, readPostingEntries]
  cases hpostings : r.postings with
  | none => rfl
  | some postings =>
    have hword := h.postings_lt
    rw [hpostings, getD_some] at hword
    dsimp only
    split_ifs with hstart
    · rfl
    · refine mapM_eq_some fun i hi => ?_
      have hlt := lt_min_iff.mp (mem_range.mp hi)
      have hroom := (Nat.lt_div_iff_mul_lt (by decide)).mp hlt.2
      have hstop : offset.toNat + i * POSTING_ENTRY_SIZE + POSTING_ENTRY_SIZE ≤ postings.length := by
        rw [POSTING_ENTRY_SIZE] at hroom ⊢
        omega
      rw [sliceAt_eq (Nat.le_add_right _ _) hstop hword, map_some, slice_eq_take]

/-- **The raw bytes of an entry** are whole postings that lie within `index.bin`, where the entry
says. -/
theorem nthTrigramRaw_within {i : ℕ} {trigram : UInt32} {bytes : List UInt8}
    (h : r.nthTrigramRaw i = some (trigram, bytes)) :
    i < r.numEntries ∧ trigram = (r.readLookupEntry i).trigram ∧
      (r.readLookupEntry i).stop ≤ (r.postings.getD []).length ∧
      (r.readLookupEntry i).stop < 2 ^ 64 ∧
      bytes = slice (r.postings.getD []) (r.readLookupEntry i).offset.toNat
        (r.readLookupEntry i).stop := by
  unfold nthTrigramRaw at h
  split_ifs at h with hi
  cases hpostings : r.postings with
  | none =>
    rw [hpostings] at h
    cases h
  | some postings =>
    rw [hpostings] at h
    dsimp only at h
    split_ifs at h with hstop hwithin
    obtain ⟨rfl, rfl⟩ := Prod.mk.inj (some.inj h)
    have hle := not_or.mp hwithin
    rw [getD_some, LookupEntry.stop]
    refine ⟨not_le.mp hi, rfl, not_lt.mp hle.2, not_le.mp hstop, ?_⟩
    rw [slice_eq_take, Nat.add_sub_cancel_left]

/-- **The postings that are decoded** are whole records that lie within `index.bin`, one after
another from the offset on, and no more than the length says. -/
theorem readPostingEntries_within {offset : UInt64} {length : UInt32} {k : ℕ} {p : PostingEntry}
    (h : (r.readPostingEntries offset length)[k]? = some p) :
    k < length.toNat ∧
      offset.toNat + (k + 1) * POSTING_ENTRY_SIZE ≤ (r.postings.getD []).length ∧
      p = PostingEntry.decode (slice (r.postings.getD []) (offset.toNat + k * POSTING_ENTRY_SIZE)
        (offset.toNat + (k + 1) * POSTING_ENTRY_SIZE)) := by
  unfold readPostingEntries at h
  cases hpostings : r.postings with
  | none =>
    rw [hpostings] at h
    cases h
  | some postings =>
    rw [hpostings] at h
    dsimp only at h
    split_ifs at h with hstart
    · cases h
    · rw [List.getElem?_map, map_eq_some_iff] at h
      obtain ⟨i, hi, rfl⟩ := h
      obtain ⟨hlt, rfl⟩ := List.getElem?_eq_some_iff.mp hi
      rw [List.getElem_range]
      rw [List.length_range] at hlt
      have hlt' := lt_min_iff.mp hlt
      have hroom := (Nat.lt_div_iff_mul_lt (by decide)).mp hlt'.2
      have hstep : offset.toNat + (k + 1) * POSTING_ENTRY_SIZE =
          offset.toNat + k * POSTING_ENTRY_SIZE + POSTING_ENTRY_SIZE := by
        rw [Nat.add_mul, Nat.one_mul, add_assoc]
      rw [getD_some, hstep, slice_eq_take]
      refine ⟨hlt'.1, ?_, rfl⟩
      rw [POSTING_ENTRY_SIZE] at hroom ⊢
      omega

end IndexReader

end Tgrep
