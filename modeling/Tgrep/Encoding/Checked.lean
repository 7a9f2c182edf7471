import Tgrep.Encoding.Decode
import Tgrep.Managed.Error

/-!
# Indexed text is the searched text

A file is decoded for the index in one piece, or in chunks between which the caller may stop. Both
yield the text that a search decodes, but for bytes that the index rejects as binary.

## Main definitions

* `StreamDecoder`: a decoder that is given the bytes in chunks.
* `StreamDecoder.Streams`, `Transcodes`: what is relied on of decoders.
* `decodeIndexChecked`: decoding for the index in chunks.
* `firstNul`: what makes a file binary for a search.

## Main results

* `repairedText_eq_standardDecode`: the repair is the decoder of the Encoding Standard.
* `decodeOwnedWithFixups_eq`: reusing the buffer changes nothing.
* `isBinary_decodeForIndex`: decoding does not change what the index takes for binary.
* `validateLoop_eq`, `decodeLoop_eq`: validation and decoding in chunks.
* `indexed_text`: all ways to decode agree.

## Implementation notes

The checks between chunks are taken to pass, and the buffer for the text to be allocated. The
decoders are a parameter.
-/

namespace Tgrep

open Utf8 Splice List

/-! ## Repair -/

variable {chunk : ℕ} (bytes : List UInt8)

/-- **The repair is the decoder of the Encoding Standard.** -/
theorem repairedText_eq_standardDecode : repairedText bytes = standardDecode bytes := by
  unfold repairedText
  fun_induction repairPieces bytes with
  | case1 rest herr =>
    have hall := standardDecode_append herr []
    rw [append_nil, standardDecode, append_nil] at hall
    rw [hall]
    rfl
  | case2 rest err herr n hlen pieces ih =>
    obtain ⟨-, hvalid, hstops⟩ := fromUtf8_cases herr
    unfold Utf8.Error.Stops at hstops
    rw [hlen] at hstops
    have hrest : standardDecode rest = rest.take err.validUpTo ++
        (replacement ++ standardDecode (rest.drop (err.validUpTo + n))) := by
      rw [← drop_drop, ← standardDecode_bad hstops, ← standardDecode_append hvalid,
        take_append_drop]
    rw [hrest, ← ih, textOf_cons]
    simp only [append_assoc]
    rfl
  | case3 rest err herr hlen =>
    obtain ⟨-, hvalid, hstops⟩ := fromUtf8_cases herr
    unfold Utf8.Error.Stops at hstops
    rw [hlen] at hstops
    have hrest : standardDecode rest = rest.take err.validUpTo ++ replacement := by
      rw [← standardDecode_truncated hstops.1 hstops.2, ← standardDecode_append hvalid,
        take_append_drop]
    rw [hrest, textOf_cons, textOf_nil, append_nil, append_nil]
    rfl

/-- The bytes that the repair replaces are not below 128. -/
lemma lost_repairPieces : ∀ piece ∈ (repairPieces bytes).1, ∀ b ∈ piece.2, 0x80 ≤ b := by
  fun_induction repairPieces bytes with
  | case1 rest herr => exact forall_mem_nil _
  | case2 rest err herr n hlen pieces ih =>
    obtain ⟨-, -, hstops⟩ := fromUtf8_cases herr
    have hle := le_of_stops hstops
    rw [hlen, Option.getD_some] at hle
    exact forall_mem_cons.mpr ⟨hle, ih⟩
  | case3 rest err herr hlen =>
    obtain ⟨-, -, hstops⟩ := fromUtf8_cases herr
    have hle := le_of_stops hstops
    rw [hlen, Option.getD_none, take_length] at hle
    exact forall_mem_cons.mpr ⟨hle, forall_mem_nil _⟩

variable {pieces : Pieces UInt8} {tail : List UInt8}

/-- The text of pieces is at most three times as long as their source. -/
lemma length_textOf_le (h : ∀ piece ∈ pieces, 0 < piece.2.length) :
    (textOf REPLACEMENT_CHARACTER pieces).length ≤ 3 * (sourceOf pieces).length := by
  induction pieces with
  | nil => exact Nat.zero_le _
  | cons piece pieces ih =>
    obtain ⟨kept, lost⟩ := piece
    obtain ⟨hlost, hrest⟩ := forall_mem_cons.mp h
    have hih := ih hrest
    have hthree : REPLACEMENT_CHARACTER.length = 3 := rfl
    dsimp only at hlost
    rw [textOf_cons, sourceOf_cons, length_append, length_append, length_append,
      length_append, hthree]
    omega

/-- A repaired text is at most three times as long as the bytes. -/
lemma length_repairedText_le : (repairedText bytes).length ≤ 3 * bytes.length := by
  have hrepair := repairable_repairPieces bytes
  have htext := length_textOf_le fun piece hpiece => (hrepair.lost piece hpiece).1
  have hsource := congrArg length (sourceOf_repairPieces bytes)
  rw [length_append] at hsource
  rw [repairedText, length_append]
  omega

/-! ## Binary files -/

/-- A NUL in the first bytes of a text was in the first bytes of the source. -/
lemma mem_take_of_textOf (hlost : ∀ piece ∈ pieces, piece.2.length ≤ 3) (n : ℕ)
    (h : 0 ∈ (textOf REPLACEMENT_CHARACTER pieces ++ tail).take n) :
    0 ∈ (sourceOf pieces ++ tail).take n := by
  induction pieces generalizing n with
  | nil => exact h
  | cons piece pieces ih =>
    obtain ⟨kept, lost⟩ := piece
    obtain ⟨hfirst, hrest⟩ := forall_mem_cons.mp hlost
    dsimp only at hfirst
    rw [textOf_cons, append_assoc, append_assoc, take_append, mem_append] at h
    rw [sourceOf_cons, append_assoc, append_assoc, take_append, mem_append]
    rcases h with hkept | h
    · exact .inl hkept
    · rw [take_append, mem_append] at h
      rcases h with hreplacement | h
      · exact absurd (mem_of_mem_take hreplacement) (by decide)
      · refine .inr ?_
        rw [take_append, mem_append]
        have hthree : REPLACEMENT_CHARACTER.length = 3 := rfl
        exact .inr (take_subset_take_left _ (by omega) (ih hrest _ h))

/-- The repair neither adds a NUL nor replaces one. -/
lemma zero_mem_repairedText : 0 ∈ repairedText bytes ↔ 0 ∈ bytes := by
  have hlost := lost_repairPieces bytes
  have hsource := sourceOf_repairPieces bytes
  have htext : 0 ∈ textOf REPLACEMENT_CHARACTER (repairPieces bytes).1 ↔
      0 ∈ sourceOf (repairPieces bytes).1 := by
    simp only [textOf, sourceOf, mem_flatMap, mem_append]
    constructor
    · rintro ⟨piece, hpiece, hkept | hreplacement⟩
      · exact ⟨piece, hpiece, .inl hkept⟩
      · exact absurd hreplacement (by decide)
    · rintro ⟨piece, hpiece, hkept | hzero⟩
      · exact ⟨piece, hpiece, .inl hkept⟩
      · exact absurd (hlost piece hpiece 0 hzero) (by decide)
  rw [repairedText, mem_append, htext, ← mem_append, hsource]

/-- The repair of bytes that are not binary is not binary. -/
lemma isBinary_repairedText {bytes : List UInt8} (h : isBinary bytes = false) :
    isBinary (repairedText bytes) = false := by
  rw [isBinary, contains_eq_mem, decide_eq_false_iff_not] at h ⊢
  intro hzero
  refine h ?_
  have hrepair := repairable_repairPieces bytes
  have hsource := mem_take_of_textOf (fun piece hpiece => (hrepair.lost piece hpiece).2) 8192 hzero
  rwa [sourceOf_repairPieces] at hsource

/-- Where a search finds the first NUL of a text, which makes the file binary. -/
def firstNul (text : Text) : Option ℕ := text.bytes.findIdx? (· == 0)

lemma isSome_firstNul (text : Text) : (firstNul text).isSome = true ↔ 0 ∈ text.bytes := by
  rw [firstNul, findIdx?_isSome, any_eq_true]
  constructor
  · rintro ⟨b, hb, hzero⟩
    rw [beq_iff_eq] at hzero
    exact hzero ▸ hb
  · exact fun h => ⟨0, h, rfl⟩

section Decoding

variable (transcode : Encoding → List UInt8 → Text)

/-- The bytes that need no decoding are borrowed. -/
lemma decodeBytes_of_borrowsWholeInput {raw : List UInt8} {mode : EncodingMode}
    (h : borrowsWholeInput raw mode = true) : decodeBytes transcode raw mode = .borrowed raw := by
  cases mode with
  | none => rfl
  | auto =>
    have hbom : Encoding.forBom raw = none := Option.isNone_iff_eq_none.mp h
    simp only [decodeBytes, hbom]
  | explicit enc =>
    obtain ⟨hnone, henc⟩ := Bool.and_eq_true_iff.mp h
    have hbom : Encoding.forBom raw = none := Option.isNone_iff_eq_none.mp hnone
    simp only [decodeBytes, hbom, if_pos (of_decide_eq_true henc)]

variable (raw : List UInt8)

/-- **Reusing the buffer changes nothing.** -/
theorem decodeOwnedWithFixups_eq (mode : EncodingMode) :
    decodeOwnedWithFixups transcode raw mode = decodeWithFixups transcode raw mode := by
  rw [decodeOwnedWithFixups]
  cases hborrows : borrowsWholeInput raw mode with
  | false => rfl
  | true =>
    rw [decodeWithFixups, decodeBytes_of_borrowsWholeInput transcode hborrows]
    simp only [Bool.not_true, Bool.false_eq_true, if_false]
    split_ifs with hvalid
    · rw [lossyUtf8_eq]
      simp only [repairedText_valid hvalid, repairFixups_valid hvalid]
    · rfl

/-- What decoding in one piece yields, by what is decoded. -/
lemma decodeForIndex_cases :
    (∃ body, decodeBytes transcode raw .auto = .owned body ∧
      decodeForIndex transcode raw = .owned body) ∨
    (∃ body, decodeBytes transcode raw .auto = .borrowed body ∧
      (Valid body ∨ isBinary body = true) ∧ decodeForIndex transcode raw = .borrowed body) ∨
    (∃ body, decodeBytes transcode raw .auto = .borrowed body ∧
      ¬ Valid body ∧ isBinary body = false ∧
        decodeForIndex transcode raw = .owned (repairedText body)) := by
  rw [decodeForIndex]
  cases hbytes : decodeBytes transcode raw .auto with
  | owned body => exact .inl ⟨body, rfl, rfl⟩
  | borrowed body =>
    dsimp only
    split_ifs with hvalid hbinary
    · exact .inr (.inl ⟨body, rfl, .inl hvalid, rfl⟩)
    · exact .inr (.inl ⟨body, rfl, .inr hbinary, rfl⟩)
    · rw [lossyUtf8Into_eq]
      exact .inr (.inr ⟨body, rfl, hvalid, Bool.eq_false_of_not_eq_true hbinary, rfl⟩)

/-- The bytes that are transcoded are a text. -/
lemma valid_of_decodeBytes_owned {raw body : List UInt8} {mode : EncodingMode}
    (h : decodeBytes transcode raw mode = .owned body) : Valid body := by
  have hbody : ∀ (enc : Encoding) (bytes : List UInt8),
      (if enc = .utf8 then Cow.borrowed bytes else .owned (transcode enc bytes).bytes) =
        .owned body → Valid body := by
    intro enc bytes hdecode
    split_ifs at hdecode
    exact Cow.owned.inj hdecode ▸ (transcode enc bytes).valid
  cases mode with
  | none => cases h
  | auto =>
    dsimp only [decodeBytes] at h
    split at h
    · exact hbody _ _ h
    · cases h
  | explicit enc =>
    dsimp only [decodeBytes] at h
    split at h
    · exact hbody _ _ h
    · exact hbody enc raw h

/-- The text that a search decodes. -/
lemma bytes_decode :
    (decode transcode raw .auto).bytes =
      match decodeBytes transcode raw .auto with
      | .owned body => body
      | .borrowed body => repairedText body := by
  rw [decode, decodeWithFixups]
  cases hbytes : decodeBytes transcode raw .auto with
  | owned body =>
    dsimp only
    rw [dif_pos (valid_of_decodeBytes_owned transcode hbytes)]
  | borrowed body =>
    dsimp only
    rw [lossyUtf8_eq]

/-- **Indexed text is searched text**, unless the index takes it for binary. -/
theorem bytes_decodeForIndex {raw : List UInt8}
    (h : isBinary (decodeBytes transcode raw .auto).bytes = false) :
    (decodeForIndex transcode raw).bytes = (decode transcode raw .auto).bytes := by
  rw [bytes_decode]
  rcases decodeForIndex_cases transcode raw with ⟨body, hbytes, hindex⟩ |
    ⟨body, hbytes, hsame, hindex⟩ | ⟨body, hbytes, -, -, hindex⟩
  · rw [hbytes, hindex]
    rfl
  · rw [hbytes] at h ⊢
    rw [hindex]
    rcases hsame with hvalid | hbinary
    · exact (repairedText_valid hvalid).symm
    · exact absurd hbinary (Bool.eq_false_iff.mp h)
  · rw [hbytes, hindex]
    rfl

/-- **Decoding does not change what the index takes for binary.** -/
theorem isBinary_decodeForIndex :
    isBinary (decodeForIndex transcode raw).bytes =
      isBinary (decodeBytes transcode raw .auto).bytes := by
  rcases decodeForIndex_cases transcode raw with ⟨body, hbytes, hindex⟩ |
    ⟨body, hbytes, -, hindex⟩ | ⟨body, hbytes, -, hbinary, hindex⟩
  · rw [hbytes, hindex]
  · rw [hbytes, hindex]
  · rw [hbytes, hindex]
    exact (isBinary_repairedText hbinary).trans hbinary.symm

/-- **A search takes a file for binary** iff there is a NUL anywhere in what is decoded. -/
theorem firstNul_decode :
    (firstNul (decode transcode raw .auto)).isSome = true ↔
      0 ∈ (decodeBytes transcode raw .auto).bytes := by
  rw [isSome_firstNul, bytes_decode]
  cases hbytes : decodeBytes transcode raw .auto with
  | owned body => rfl
  | borrowed body => exact zero_mem_repairedText body

end Decoding

/-! ## Decoding in chunks -/

/-- What a decoder does with a chunk. -/
structure StreamResult (σ : Type) where
  /-- Whether the chunk was used up; else there was no more room for the text. -/
  inputEmpty : Bool
  /-- The number of bytes that were read. -/
  read : ℕ
  /-- The text that was written. -/
  written : List UInt8
  state : σ

/-- A decoder that is given the bytes in chunks. -/
structure StreamDecoder (σ : Type) where
  /-- A decoder of an encoding that takes no byte order mark. -/
  newDecoder : Encoding → σ
  /-- Decode a chunk, which may be the last one. -/
  decodeToUtf8 : σ → List UInt8 → Bool → StreamResult σ

/-- Decoders in one piece: UTF-8 as in the Encoding Standard, and no code unit of UTF-16 yields more
than three bytes. -/
structure Transcodes (transcode : Encoding → List UInt8 → Text) : Prop where
  utf8 : ∀ body, (transcode .utf8 body).bytes = standardDecode body
  utf16 : ∀ body, (transcode .utf16le body).bytes.length ≤ 3 * body.length ∧
    (transcode .utf16be body).bytes.length ≤ 3 * body.length

/-- A decoder in chunks writes what the decoder in one piece does, in order, and does not stand
still. Its states are known by the bytes that were read and the text that was written. -/
structure StreamDecoder.Streams {σ : Type} (d : StreamDecoder σ)
    (transcode : Encoding → List UInt8 → Text)
    (holds : Encoding → σ → List UInt8 → List UInt8 → Prop) : Prop where
  new : ∀ enc, holds enc (d.newDecoder enc) [] []
  step : ∀ enc s bytes text chunk isLast, holds enc s bytes text →
    (d.decodeToUtf8 s chunk isLast).read ≤ chunk.length ∧
      (((d.decodeToUtf8 s chunk isLast).inputEmpty && isLast) = false →
        holds enc (d.decodeToUtf8 s chunk isLast).state
          (bytes ++ chunk.take (d.decodeToUtf8 s chunk isLast).read)
          (text ++ (d.decodeToUtf8 s chunk isLast).written))
  progress : ∀ enc s bytes text chunk isLast, holds enc s bytes text →
    if (d.decodeToUtf8 s chunk isLast).inputEmpty then
      (d.decodeToUtf8 s chunk isLast).read = chunk.length
    else 0 < (d.decodeToUtf8 s chunk isLast).read +
      (d.decodeToUtf8 s chunk isLast).written.length
  complete : ∀ enc s bytes text chunk, holds enc s bytes text →
    (d.decodeToUtf8 s chunk true).inputEmpty = true →
      text ++ (d.decodeToUtf8 s chunk true).written = (transcode enc (bytes ++ chunk)).bytes
  inOrder : ∀ enc s bytes text chunk isLast rest, holds enc s bytes text →
    (isLast = true → rest = []) →
      text ++ (d.decodeToUtf8 s chunk isLast).written <+:
        (transcode enc (bytes ++ (chunk ++ rest))).bytes

/-- Validate chunk by chunk, and say how far it goes. A sequence that a chunk ends within is left to
the next one. -/
def validateLoop (chunk : ℕ) (body : List UInt8) : ℕ → ℕ → Option ℕ
  | 0, _ => none
  | fuel + 1, offset =>
    if offset < body.length then
      let stop := offset + min chunk (body.length - offset)
      match fromUtf8 (slice body offset stop) with
      | none => validateLoop chunk body fuel stop
      | some err =>
        if err.errorLen.isNone ∧ stop < body.length then
          validateLoop chunk body fuel (offset + err.validUpTo)
        else some offset
    else some offset

/-- Decode chunk by chunk. -/
def decodeLoop {σ : Type} (d : StreamDecoder σ) (chunk : ℕ) (body : List UInt8) (capacity : ℕ) :
    ℕ → ℕ → σ → List UInt8 → Option (Except Managed.Error (List UInt8))
  | 0, _, _, _ => none
  | fuel + 1, offset, s, decoded =>
    let stop := offset + min chunk (body.length - offset)
    let isLast := decide (stop = body.length)
    let r := d.decodeToUtf8 s (slice body offset stop) isLast
    if capacity < decoded.length + r.written.length then
      some (.error (.corrupt "decoder exceeded the admitted expansion bound"))
    else if r.inputEmpty && isLast then some (.ok (decoded ++ r.written))
    else if r.read = 0 ∧ r.written.length = 0 then
      some (.error (.corrupt "decoder made no progress"))
    else decodeLoop d chunk body capacity fuel (offset + r.read) r.state (decoded ++ r.written)

/-- The encoding of a file for the index, and the bytes behind its byte order mark. -/
def encodingAndBody (bytes : List UInt8) : Encoding × List UInt8 :=
  match Encoding.forBom bytes with
  | some (enc, skip) => (enc, bytes.drop skip)
  | none => (.utf8, bytes)

/-- Decode a file for the index in chunks; none if the loops take more steps than are given. -/
def decodeIndexChecked {σ : Type} (d : StreamDecoder σ) (chunk fuel : ℕ) (bytes : List UInt8) :
    Option (Except Managed.Error Cow) :=
  let enc := (encodingAndBody bytes).1
  let body := (encodingAndBody bytes).2
  let transcoded : Option (Except Managed.Error Cow) :=
    if 2 ^ 64 ≤ body.length * 3 then some (.error (.pressure "decoded-byte-overflow"))
    else (decodeLoop d chunk body (body.length * 3) fuel 0 (d.newDecoder enc) []).map
      fun result => result.map Cow.owned
  if enc = .utf8 then
    if isBinary body then some (.ok (.borrowed body))
    else
      match validateLoop chunk body fuel 0 with
      | none => none
      | some offset => if offset = body.length then some (.ok (.borrowed body)) else transcoded
  else transcoded

/-- **Validation in chunks** goes to the end iff the bytes are valid. -/
theorem validateLoop_eq (hchunk : 4 ≤ chunk) (body : List UInt8) (fuel offset : ℕ)
    (hoffset : offset ≤ body.length) (hvalid : Valid (body.take offset))
    (hfuel : body.length - offset < fuel) :
    ∃ reached, validateLoop chunk body fuel offset = some reached ∧
      (reached = body.length ↔ Valid body) := by
  induction fuel generalizing offset with
  | zero => omega
  | succ fuel ih =>
    rw [validateLoop]
    split_ifs with hlt
    · dsimp only
      set stop := offset + min chunk (body.length - offset) with hstop
      have hle : offset ≤ stop := by omega
      have hroom : stop ≤ body.length := by omega
      have hslice := length_slice hle hroom
      have htake := take_append_slice body hle
      cases hchunkValid : fromUtf8 (slice body offset stop) with
      | none =>
        exact ih stop hroom (htake ▸ hvalid.append hchunkValid) (by omega)
      | some err =>
        obtain ⟨hup, hupValid, hstops⟩ := fromUtf8_cases hchunkValid
        dsimp only
        rw [hslice] at hup
        split_ifs with hsplit
        · -- the chunk ends within a sequence, and is longer than one
          obtain ⟨hnone, hmore⟩ := hsplit
          have hpos : 0 < err.validUpTo := by
            unfold Utf8.Error.Stops at hstops
            rw [Option.isNone_iff_eq_none.mp hnone] at hstops
            have hthree := scan_truncated hstops.2
            rw [length_drop, hslice] at hthree
            omega
          have hup' : body.take offset ++ (slice body offset stop).take err.validUpTo =
              body.take (offset + err.validUpTo) := by
            rw [take_slice body (by omega), take_append_slice body (by omega)]
          exact ih _ (by omega) (hup' ▸ hvalid.append hupValid) (by omega)
        · refine ⟨offset, rfl, fun h => absurd h (by omega), fun hall => ?_⟩
          rw [← take_append_drop offset body] at hall
          have hrest := hvalid.of_append hall
          rw [← slice_append_drop body hle] at hrest
          refine absurd hrest (not_valid_append hchunkValid ?_)
          rcases not_and_or.mp hsplit with hsome | hend
          · exact .inl (Option.isSome_iff_ne_none.mpr (by simpa using hsome))
          · exact .inr (drop_eq_nil_of_le (not_lt.mp hend))
    · obtain rfl : offset = body.length := by omega
      rw [take_length] at hvalid
      exact ⟨_, rfl, fun _ => hvalid, fun _ => rfl⟩

/-- **Decoding in chunks** yields what decoding in one piece does.

**Proof sketch.** What was written is the beginning of that text, so it stays within the capacity.
Every step reads or writes something, and the last one ends with the whole text. -/
theorem decodeLoop_eq {σ : Type} {d : StreamDecoder σ} {transcode : Encoding → List UInt8 → Text}
    {holds : Encoding → σ → List UInt8 → List UInt8 → Prop} (hd : d.Streams transcode holds)
    (hchunk : 0 < chunk) {enc : Encoding} {body : List UInt8} {capacity : ℕ}
    (hcapacity : (transcode enc body).bytes.length ≤ capacity) (fuel offset : ℕ) (s : σ)
    (decoded : List UInt8) (hoffset : offset ≤ body.length)
    (hs : holds enc s (body.take offset) decoded)
    (hfuel : (body.length - offset) + (capacity - decoded.length) < fuel) :
    decodeLoop d chunk body capacity fuel offset s decoded =
      some (.ok (transcode enc body).bytes) := by
  induction fuel generalizing offset s decoded with
  | zero => omega
  | succ fuel ih =>
    rw [decodeLoop]
    set stop := offset + min chunk (body.length - offset) with hstop
    have hle : offset ≤ stop := by omega
    have hroom : stop ≤ body.length := by omega
    have hslice := length_slice hle hroom
    set isLast := decide (stop = body.length) with hisLast
    set r := d.decodeToUtf8 s (slice body offset stop) isLast with hr
    obtain ⟨hread, hnext⟩ := hd.step enc s _ decoded (slice body offset stop) isLast hs
    have hprogress := hd.progress enc s _ decoded (slice body offset stop) isLast hs
    rw [← hr] at hread hnext hprogress
    rw [hslice] at hread hprogress
    rw [take_slice body (by omega), take_append_slice body (by omega)] at hnext
    -- what was written is the beginning of the text
    have hbegin : decoded.length + r.written.length ≤ capacity := by
      have hlast : isLast = true → body.drop stop = [] := by
        intro hlast
        exact drop_eq_nil_of_le (of_decide_eq_true (hisLast ▸ hlast)).ge
      have hprefix := (hd.inOrder enc s _ decoded (slice body offset stop) isLast _ hs
        hlast).length_le
      rw [← hr, slice_append_drop body hle, take_append_drop, length_append] at hprefix
      omega
    rw [if_neg (not_lt.mpr hbegin)]
    by_cases hdone : (r.inputEmpty && isLast) = true
    · rw [if_pos hdone]
      obtain ⟨hempty, hlast⟩ := Bool.and_eq_true_iff.mp hdone
      have hcomplete := hd.complete enc s _ decoded (slice body offset stop) hs
      have hr' : d.decodeToUtf8 s (slice body offset stop) true = r := by rw [hr, hlast]
      rw [hr', take_append_slice body hle] at hcomplete
      have hend : stop = body.length := of_decide_eq_true (hisLast ▸ hlast)
      rw [hcomplete hempty, hend, take_length]
    · rw [if_neg hdone]
      have hmoves : 0 < r.read + r.written.length := by
        split_ifs at hprogress with hempty
        · -- the chunk is not the last one, so it is not empty
          have hnotLast : ¬ stop = body.length := by
            intro hend
            refine hdone ?_
            rw [hempty, hisLast, decide_eq_true hend]
            rfl
          omega
        · exact hprogress
      rw [if_neg (by omega)]
      refine ih (offset + r.read) r.state (decoded ++ r.written) (by omega)
        (hnext (Bool.eq_false_of_not_eq_true hdone)) ?_
      rw [length_append]
      omega

section Files

variable (transcode : Encoding → List UInt8 → Text)

lemma decodeBytes_auto (raw : List UInt8) :
    decodeBytes transcode raw .auto =
      if (encodingAndBody raw).1 = .utf8 then .borrowed (encodingAndBody raw).2
      else .owned (transcode (encodingAndBody raw).1 (encodingAndBody raw).2).bytes := by
  rw [decodeBytes, encodingAndBody]
  cases Encoding.forBom raw with
  | none => rfl
  | some bom => rfl

/-- The text of a file is at most three times as long. -/
lemma length_transcode_le (ht : Transcodes transcode) (raw : List UInt8) :
    (transcode (encodingAndBody raw).1 (encodingAndBody raw).2).bytes.length ≤
      (encodingAndBody raw).2.length * 3 := by
  have hutf8 : ∀ body, (transcode .utf8 body).bytes.length ≤ body.length * 3 := by
    intro body
    rw [ht.utf8, ← repairedText_eq_standardDecode]
    have hle := length_repairedText_le body
    omega
  rw [encodingAndBody, Encoding.forBom]
  split_ifs with h₁ h₂ h₃
  · exact hutf8 _
  · have hle := (ht.utf16 (raw.drop 2)).1
    dsimp only
    omega
  · have hle := (ht.utf16 (raw.drop 2)).2
    dsimp only
    omega
  · exact hutf8 _

lemma length_encodingAndBody_le (raw : List UInt8) :
    (encodingAndBody raw).2.length ≤ raw.length := by
  rw [encodingAndBody]
  split
  · rw [length_drop]
    omega
  · exact le_rfl

/-- **Decoding in chunks yields what decoding in one piece does.** -/
theorem decodeIndexChecked_eq {σ : Type} {d : StreamDecoder σ}
    {holds : Encoding → σ → List UInt8 → List UInt8 → Prop} (ht : Transcodes transcode)
    (hd : d.Streams transcode holds) {chunk fuel : ℕ} (hchunk : 4 ≤ chunk) {raw : List UInt8}
    (hsize : raw.length * 3 < 2 ^ 64) (hfuel : raw.length * 4 < fuel) :
    decodeIndexChecked d chunk fuel raw = some (.ok (decodeForIndex transcode raw)) := by
  have hbody := length_encodingAndBody_le raw
  have hloop : decodeLoop d chunk (encodingAndBody raw).2 ((encodingAndBody raw).2.length * 3) fuel
      0 (d.newDecoder (encodingAndBody raw).1) [] =
        some (.ok (transcode (encodingAndBody raw).1 (encodingAndBody raw).2).bytes) := by
    refine decodeLoop_eq hd (by omega) (length_transcode_le transcode ht raw) fuel 0 _ []
      (Nat.zero_le _) ?_ ?_
    · rw [take_zero]
      exact hd.new _
    · rw [length_nil]
      omega
  have hvalidate := validateLoop_eq hchunk (encodingAndBody raw).2 fuel 0 (Nat.zero_le _)
    (by rw [take_zero]; exact valid_nil) (by omega)
  rw [decodeIndexChecked, decodeForIndex, decodeBytes_auto]
  have hroom : ¬ 2 ^ 64 ≤ (encodingAndBody raw).2.length * 3 := by omega
  rw [if_neg hroom, hloop]
  by_cases hutf8 : (encodingAndBody raw).1 = .utf8
  · rw [if_pos hutf8, if_pos hutf8]
    dsimp only
    obtain ⟨reached, hreached, hend⟩ := hvalidate
    rw [hreached]
    dsimp only
    by_cases hvalid : Valid (encodingAndBody raw).2
    · rw [if_pos (hend.mpr hvalid), if_pos hvalid, ite_self]
    · rw [if_neg fun h => hvalid (hend.mp h), if_neg hvalid]
      split_ifs with hbinary
      · rfl
      · rw [hutf8, ht.utf8, ← repairedText_eq_standardDecode, lossyUtf8Into_eq]
        rfl
  · rw [if_neg hutf8, if_neg hutf8]
    rfl

/-- **Indexed text is searched text**: the bytes that are indexed are those of the text that a
search decodes, unless the index takes the file for binary, which decoding does not change. The
index looks for a NUL in the first bytes, and a search anywhere. Reusing the buffer changes nothing,
and neither does decoding in chunks. -/
theorem indexed_text {σ : Type} {d : StreamDecoder σ}
    {holds : Encoding → σ → List UInt8 → List UInt8 → Prop} (ht : Transcodes transcode)
    (hd : d.Streams transcode holds) (raw : List UInt8) :
    let body := (decodeBytes transcode raw .auto).bytes
    let indexed := decodeForIndex transcode raw
    let text := decode transcode raw .auto
    (isBinary body = false → indexed.bytes = text.bytes) ∧
      isBinary indexed.bytes = isBinary body ∧
      (isBinary body = true → (firstNul text).isSome = true) ∧
      ((firstNul text).isSome = true ↔ 0 ∈ body) ∧
      (∀ mode, decodeOwnedWithFixups transcode raw mode = decodeWithFixups transcode raw mode) ∧
      (∀ chunk fuel, 4 ≤ chunk → raw.length * 3 < 2 ^ 64 → raw.length * 4 < fuel →
        decodeIndexChecked d chunk fuel raw = some (.ok indexed)) := by
  intro body indexed text
  refine ⟨bytes_decodeForIndex transcode, isBinary_decodeForIndex transcode raw, fun hbinary => ?_,
    firstNul_decode transcode raw, decodeOwnedWithFixups_eq transcode raw,
    fun chunk fuel hchunk hsize hfuel => decodeIndexChecked_eq transcode ht hd hchunk hsize hfuel⟩
  rw [isBinary, contains_eq_mem, decide_eq_true_eq] at hbinary
  exact (firstNul_decode transcode raw).mpr (mem_of_mem_take hbinary)

end Files

/-! ### Two files -/

/-- The decoder of the Encoding Standard for UTF-8, which is all that is asked of it here. -/
def transcodeUtf8 : Encoding → List UInt8 → Text
  | .utf8, body =>
    ⟨standardDecode body, repairedText_eq_standardDecode body ▸ valid_repairedText body⟩
  | _, _ => ⟨[], valid_nil⟩

/-- A decoder that writes the text when it has read the last chunk. -/
def lateDecoder : StreamDecoder (Encoding × List UInt8) where
  newDecoder enc := (enc, [])
  decodeToUtf8 s chunk isLast :=
    ⟨true, chunk.length, if isLast then (transcodeUtf8 s.1 (s.2 ++ chunk)).bytes else [],
      (s.1, s.2 ++ chunk)⟩

lemma transcodes_transcodeUtf8 : Transcodes transcodeUtf8 :=
  ⟨fun _ => rfl, fun _ => ⟨Nat.zero_le _, Nat.zero_le _⟩⟩

/-- Its states are the bytes that were read, before anything is written. -/
lemma streams_lateDecoder :
    lateDecoder.Streams transcodeUtf8 fun enc s bytes text => s = (enc, bytes) ∧ text = [] where
  new enc := ⟨rfl, rfl⟩
  step := by
    rintro enc s bytes text chunk isLast ⟨rfl, rfl⟩
    refine ⟨le_rfl, fun hmore => ?_⟩
    obtain rfl : isLast = false := hmore
    refine ⟨?_, rfl⟩
    change (enc, bytes ++ chunk) = (enc, bytes ++ chunk.take chunk.length)
    rw [take_length]
  progress := by
    rintro enc s bytes text chunk isLast ⟨rfl, rfl⟩
    exact rfl
  complete := by
    rintro enc s bytes text chunk ⟨rfl, rfl⟩ -
    exact nil_append _
  inOrder := by
    rintro enc s bytes text chunk isLast rest ⟨rfl, rfl⟩ hlast
    cases isLast with
    | false => exact nil_prefix
    | true =>
      rw [hlast rfl, append_nil]
      exact prefix_rfl

/-- An invalid byte behind a letter, in chunks of the size that the code has. -/
theorem indexed_text_invalid :
    decodeIndexChecked lateDecoder 65536 100 [0x61, 0xFF] =
      some (.ok (decodeForIndex transcodeUtf8 [0x61, 0xFF])) :=
  (indexed_text transcodeUtf8 transcodes_transcodeUtf8 streams_lateDecoder
    [0x61, 0xFF]).2.2.2.2.2 65536 100 (by decide) (by decide) (by decide)

/-- A NUL behind the first bytes is found by a search, and not by the index. -/
theorem isBinary_firstNul_late :
    isBinary (decodeForIndex transcodeUtf8 (List.replicate 8192 0x61 ++ [0])).bytes = false ∧
      (firstNul (decode transcodeUtf8 (List.replicate 8192 0x61 ++ [0]) .auto)).isSome = true := by
  have hbody : (decodeBytes transcodeUtf8 (List.replicate 8192 0x61 ++ [0]) .auto).bytes =
      List.replicate 8192 0x61 ++ [0] := by
    have hborrows : ∀ rest, borrowsWholeInput (0x61 :: rest) .auto = true := fun _ => rfl
    rw [replicate_succ, cons_append, decodeBytes_of_borrowsWholeInput _ (hborrows _)]
    rfl
  rw [isBinary_decodeForIndex, firstNul_decode, hbody]
  refine ⟨?_, mem_append_right _ (mem_singleton_self 0)⟩
  rw [isBinary, contains_eq_mem, decide_eq_false_iff_not]
  intro hzero
  rw [take_append_of_le_length (by rw [length_replicate])] at hzero
  exact absurd (eq_of_mem_replicate (mem_of_mem_take hzero)) (by decide)

end Tgrep
