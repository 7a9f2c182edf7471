import Tgrep.Encoding.Decode

/-!
# Searching a mapped file

A large file is searched out of a memory map, without a copy, if its bytes are those to search and
are valid UTF-8. They are validated chunk by chunk, and the first NUL is looked for in the same
pass. A character that a chunk ends within is left to the next chunk.

## Main definitions

* `validateUtf8AndFindNul`: the pass over the bytes.
* `FileText`, `tryMapText`: what is searched, and when it is a map.

## Main results

* `findNulLoop_eq`: the pass behind bytes that are valid.
* `validateUtf8AndFindNul_whole`: the pass agrees with validation in one piece.

## Implementation notes

The pass takes the size of a chunk as an argument. It ends because every round gets further, which
its guard makes sure of for every size. What a map of some length has is a parameter, and a file is
not changed while it is mapped.
-/

namespace Tgrep.Mapped

open Utf8 Splice Bool List

/-! ## The pass over the bytes -/

/-- How far a chunk is valid, none if that is an error: a sequence that the chunk ends within is one
in the last chunk only. -/
def chunkValidLen (chunk : List UInt8) (last : Bool) : Option ℕ :=
  match fromUtf8 chunk with
  | none => some chunk.length
  | some e => if e.errorLen.isNone && !last then some e.validUpTo else none

/-- Validate from a position on, and look for the first NUL. -/
def findNulLoop (chunkSize : ℕ) (bytes : List UInt8) (pos : ℕ) (firstNul : Option ℕ) :
    Option (Option ℕ) :=
  if _hpos : pos < bytes.length then
    let stop := min (pos + chunkSize) bytes.length
    let chunk := slice bytes pos stop
    match chunkValidLen chunk (decide (bytes.length ≤ stop)) with
    | none => none
    | some validLen =>
      if _hzero : validLen = 0 then none
      else
        findNulLoop chunkSize bytes (pos + validLen)
          (firstNul.or (((chunk.take validLen).findIdx? (· == 0)).map (pos + ·)))
  else some firstNul
termination_by bytes.length - pos

/-- Validate bytes and find the first NUL; none if they are not valid. -/
def validateUtf8AndFindNul (chunkSize : ℕ) (bytes : List UInt8) : Option (Option ℕ) :=
  findNulLoop chunkSize bytes 0 none

/-- How long a chunk is. -/
def CHUNK : ℕ := 1 <<< 20

/-- The text of a file. -/
inductive FileText
  | owned (text : Text)
  /-- Bytes that are taken for text as they are. -/
  | mapped (bytes : List UInt8)

/-- A shorter file is read. -/
def MMAP_MIN_BYTES : ℕ := 1024 * 1024

/-- Map a file, or say that it has to be read. -/
def tryMapText (map : ℕ → Option (List UInt8)) (encoding : EncodingMode) (approvedLen : ℕ) :
    Option (FileText × Option ℕ) :=
  if approvedLen < MMAP_MIN_BYTES then none
  else
    match map approvedLen with
    | none => none
    | some bytes =>
      if !borrowsWholeInput bytes encoding then none
      else (validateUtf8AndFindNul CHUNK bytes).map fun firstNul => (.mapped bytes, firstNul)

/-! ## What the pass finds -/

/-- A chunk that is long enough and not the last one begins with something valid, or shows that the
bytes are not. -/
lemma chunkValidLen_eq {chunk more : List UInt8} {last : Bool} (hlast : last = true → more = [])
    (hlong : last = false → 4 ≤ chunk.length) (hne : chunk ≠ []) :
    match chunkValidLen chunk last with
    | none => ¬Valid (chunk ++ more)
    | some n => 0 < n ∧ n ≤ chunk.length ∧ Valid (chunk.take n) := by
  rw [chunkValidLen]
  cases hchunk : fromUtf8 chunk with
  | none => exact ⟨length_pos_iff.mpr hne, le_rfl, by rwa [take_length]⟩
  | some e =>
    obtain ⟨hup, hvalid, hstops⟩ := fromUtf8_cases hchunk
    dsimp only
    split_ifs with hsplit
    · -- fewer than four bytes are left over
      rw [and_eq_true, not_eq_true', Option.isNone_iff_eq_none] at hsplit
      unfold Utf8.Error.Stops at hstops
      rw [hsplit.1] at hstops
      have hthree := scan_truncated hstops.2
      have hfour := hlong hsplit.2
      rw [length_drop] at hthree
      exact ⟨by omega, hup, hvalid⟩
    · refine not_valid_append hchunk ?_
      rw [and_eq_true, not_eq_true', not_and_or, not_eq_false] at hsplit
      rcases hsplit with hsome | hend
      · refine .inl (Option.isSome_iff_ne_none.mpr fun hnone => hsome ?_)
        rw [hnone]
        rfl
      · exact .inr (hlast hend)

/-- The first NUL of two pieces. -/
lemma findIdx?_zero_append (l l' : List UInt8) :
    (l ++ l').findIdx? (· == 0) =
      (l.findIdx? (· == 0)).or ((l'.findIdx? (· == 0)).map (l.length + ·)) := by
  rw [findIdx?_append]
  simp only [Nat.add_comm]

/-- A chunk of the bytes behind those that are valid. -/
lemma chunkValidLen_slice {chunkSize : ℕ} (hchunk : 4 ≤ chunkSize) {bytes : List UInt8} {pos : ℕ}
    (hpos : pos < bytes.length) (hvalid : Valid (bytes.take pos)) :
    let stop := min (pos + chunkSize) bytes.length
    let chunk := slice bytes pos stop
    match chunkValidLen chunk (decide (bytes.length ≤ stop)) with
    | none => ¬Valid bytes
    | some n => 0 < n ∧ pos + n ≤ bytes.length ∧ Valid (bytes.take (pos + n)) ∧
        bytes.take (pos + n) = bytes.take pos ++ chunk.take n := by
  intro stop chunk
  have hle : pos ≤ stop := by omega
  have hroom : stop ≤ bytes.length := by omega
  have hlen : chunk.length = stop - pos := length_slice hle hroom
  have hspec := @chunkValidLen_eq chunk (bytes.drop stop) (decide (bytes.length ≤ stop))
    (fun h => drop_eq_nil_of_le (of_decide_eq_true h))
    (fun h => by have hmore := of_decide_eq_false h; omega)
    (ne_nil_of_length_pos (by omega))
  cases hcase : chunkValidLen chunk (decide (bytes.length ≤ stop)) with
  | none =>
    rw [hcase] at hspec
    intro hall
    rw [← take_append_drop pos bytes] at hall
    have hrest := hvalid.of_append hall
    rw [← slice_append_drop bytes hle] at hrest
    exact hspec hrest
  | some n =>
    rw [hcase] at hspec
    obtain ⟨hzero, hn, hpiece⟩ := hspec
    have htake : bytes.take (pos + n) = bytes.take pos ++ chunk.take n := by
      rw [take_slice bytes (by omega), take_append_slice bytes (by omega)]
    exact ⟨hzero, by omega, htake ▸ hvalid.append hpiece, htake⟩

/-- **The pass goes on behind bytes that are valid.** -/
theorem findNulLoop_eq {chunkSize : ℕ} (hchunk : 4 ≤ chunkSize) (bytes : List UInt8) (pos : ℕ)
    (firstNul : Option ℕ) (hpos : pos ≤ bytes.length) (hvalid : Valid (bytes.take pos))
    (hnul : firstNul = (bytes.take pos).findIdx? (· == 0)) :
    findNulLoop chunkSize bytes pos firstNul =
      if Valid bytes then some (bytes.findIdx? (· == 0)) else none := by
  fun_induction findNulLoop chunkSize bytes pos firstNul with
  | case1 pos firstNul hlt stop chunk hlen =>
    have hspec := chunkValidLen_slice hchunk hlt hvalid
    dsimp only at hspec
    rw [hlen] at hspec
    rw [if_neg hspec]
  | case2 pos firstNul hlt stop chunk hlen =>
    -- a chunk is never left as a whole to the next one
    have hspec := chunkValidLen_slice hchunk hlt hvalid
    dsimp only at hspec
    rw [hlen] at hspec
    exact absurd hspec.1 (lt_irrefl 0)
  | case3 pos firstNul hlt stop chunk n hlen hzero ih =>
    have hspec := chunkValidLen_slice hchunk hlt hvalid
    dsimp only at hspec
    rw [hlen] at hspec
    obtain ⟨-, hle, hnext, htake⟩ := hspec
    refine ih hle hnext ?_
    rw [htake, findIdx?_zero_append, hnul, length_take, min_eq_left hpos]
  | case4 pos firstNul hlt =>
    obtain rfl : pos = bytes.length := by omega
    rw [take_length] at hvalid hnul
    rw [if_pos hvalid, hnul]

/-- **Validation in chunks is validation of the whole.** For every size of a chunk that has room for
a character the pass says whether the bytes are valid, and where their first NUL is. So the bytes
of a map that is searched are valid, and the offset that is returned with it is that of their first
NUL. -/
theorem validateUtf8AndFindNul_whole :
    (∀ (chunkSize : ℕ) (bytes : List UInt8), 4 ≤ chunkSize →
      validateUtf8AndFindNul chunkSize bytes =
        if Valid bytes then some (bytes.findIdx? (· == 0)) else none) ∧
    ∀ (map : ℕ → Option (List UInt8)) (encoding : EncodingMode) (approvedLen : ℕ)
      (text : FileText) (firstNul : Option ℕ),
      tryMapText map encoding approvedLen = some (text, firstNul) →
        ∃ bytes, map approvedLen = some bytes ∧ text = .mapped bytes ∧ Valid bytes ∧
          firstNul = bytes.findIdx? (· == 0) := by
  have hwhole : ∀ (chunkSize : ℕ) (bytes : List UInt8), 4 ≤ chunkSize →
      validateUtf8AndFindNul chunkSize bytes =
        if Valid bytes then some (bytes.findIdx? (· == 0)) else none := fun chunkSize bytes hchunk =>
    findNulLoop_eq hchunk bytes 0 none (Nat.zero_le _) valid_nil rfl
  refine ⟨hwhole, fun map encoding approvedLen text firstNul h => ?_⟩
  rw [tryMapText] at h
  split_ifs at h with hshort
  cases hmap : map approvedLen with
  | none =>
    rw [hmap] at h
    cases h
  | some bytes =>
    rw [hmap] at h
    dsimp only at h
    have hfour : 4 ≤ CHUNK := by decide
    rw [hwhole CHUNK bytes hfour] at h
    split_ifs at h with hborrows hvalid
    · cases h
      exact ⟨bytes, rfl, rfl, hvalid, rfl⟩
    · cases h

/-- A character of two bytes that a chunk ends within, and a NUL behind it. -/
theorem validateUtf8AndFindNul_straddling :
    validateUtf8AndFindNul 4 [0x61, 0x62, 0x63, 0xC3, 0xA9, 0x00] = some (some 5) :=
  (validateUtf8AndFindNul_whole.1 4 _ le_rfl).trans (by decide +kernel)

end Tgrep.Mapped
