import Tgrep.Data.FixedCodec
import Tgrep.Data.FixedWidth

/-!
# The records of the index files

`index.bin` is an array of 6-byte postings and `lookup.bin` an array of 16-byte entries, sorted
by trigram, each pointing at the postings of one trigram.

## Main definitions

* `PostingEntry`, `LookupEntry`: the records, with their `encode` and `decode`.
* `postingCodec`, `lookupCodec`: the two encodings as fixed-width codecs.

## Main results

* `PostingEntry.decode_encode`, `PostingEntry.encode_decode` and the same for `LookupEntry` —
  each encoding is a bijection onto the byte strings of its size.
-/

namespace Tgrep

open LittleEndian List

/-- The size of a `lookup.bin` entry in bytes. -/
def LOOKUP_ENTRY_SIZE : ℕ := 16

/-- The size of an `index.bin` posting in bytes. -/
def POSTING_ENTRY_SIZE : ℕ := 6

/-- The number of postings encoded per write. -/
def POSTING_WRITE_CHUNK_ENTRIES : ℕ := 8192

/-- The number of lookup entries buffered per write. -/
def LOOKUP_WRITE_CHUNK_ENTRIES : ℕ := 4096

/-- One posting of `index.bin`: a file and the masks of the trigram in it. -/
structure PostingEntry where
  /-- The file. -/
  fileId : UInt32
  /-- Bit `i` is set if the trigram starts at an offset that is `i` mod 8. -/
  locMask : UInt8
  /-- Bloom filter of the bytes that immediately follow the trigram. -/
  nextMask : UInt8
  deriving DecidableEq

/-- One entry of `lookup.bin`: where a trigram's postings start and how many there are. -/
structure LookupEntry where
  /-- The trigram. -/
  trigram : UInt32
  /-- Byte offset of its postings in `index.bin`. -/
  offset : UInt64
  /-- Number of its postings. -/
  length : UInt32
  deriving DecidableEq

/-! ## Little-endian words -/

/-- `u32::to_le_bytes`. -/
def u32Bytes (n : UInt32) : List UInt8 := toLE 4 n.toNat

/-- `u32::from_le_bytes`. -/
def u32OfBytes (bs : List UInt8) : UInt32 := UInt32.ofNat (ofLE bs)

/-- `u64::to_le_bytes`. -/
def u64Bytes (n : UInt64) : List UInt8 := toLE 8 n.toNat

/-- `u64::from_le_bytes`. -/
def u64OfBytes (bs : List UInt8) : UInt64 := UInt64.ofNat (ofLE bs)

@[simp] lemma length_u32Bytes (n : UInt32) : (u32Bytes n).length = 4 := length_toLE _ _

@[simp] lemma length_u64Bytes (n : UInt64) : (u64Bytes n).length = 8 := length_toLE _ _

@[simp] lemma u32OfBytes_u32Bytes (n : UInt32) : u32OfBytes (u32Bytes n) = n := by
  rw [u32OfBytes, u32Bytes, ofLE_toLE (by simpa using n.toNat_lt), UInt32.ofNat_toNat]

@[simp] lemma u64OfBytes_u64Bytes (n : UInt64) : u64OfBytes (u64Bytes n) = n := by
  rw [u64OfBytes, u64Bytes, ofLE_toLE (by simpa using n.toNat_lt), UInt64.ofNat_toNat]

/-- Four bytes are the encoding of the word they denote. -/
lemma u32Bytes_u32OfBytes {bs : List UInt8} (h : bs.length = 4) :
    u32Bytes (u32OfBytes bs) = bs := by
  have hlt := ofLE_lt bs
  rw [h] at hlt
  rw [u32Bytes, u32OfBytes, UInt32.toNat_ofNat_of_lt' (by simpa using hlt), ← h, toLE_ofLE]

/-- Eight bytes are the encoding of the word they denote. -/
lemma u64Bytes_u64OfBytes {bs : List UInt8} (h : bs.length = 8) :
    u64Bytes (u64OfBytes bs) = bs := by
  have hlt := ofLE_lt bs
  rw [h] at hlt
  rw [u64Bytes, u64OfBytes, UInt64.toNat_ofNat_of_lt' (by simpa using hlt), ← h, toLE_ofLE]

/-! ## Postings -/

namespace PostingEntry

/-- `file_id` in little-endian order, then the two masks. -/
def encode (e : PostingEntry) : List UInt8 := u32Bytes e.fileId ++ [e.locMask, e.nextMask]

/-- Read a posting from its six bytes. -/
def decode (buf : List UInt8) : PostingEntry :=
  ⟨u32OfBytes (buf.take 4), buf.getD 4 0, buf.getD 5 0⟩

@[simp] lemma length_encode (e : PostingEntry) : e.encode.length = 6 := by
  simp [encode]

@[simp] lemma decode_encode (e : PostingEntry) : decode e.encode = e := by
  obtain ⟨id, loc, next⟩ := e
  have h4 : (u32Bytes id).length = 4 := length_u32Bytes id
  simp only [decode, encode, take_left' h4, u32OfBytes_u32Bytes, mk.injEq, true_and]
  simp [getD_eq_getElem?_getD, h4]

/-- Six bytes are the encoding of the posting they denote. -/
lemma encode_decode {buf : List UInt8} (h : buf.length = 6) : (decode buf).encode = buf := by
  obtain ⟨a, b, c, d, e, f, rfl⟩ : ∃ a b c d e f, buf = [a, b, c, d, e, f] := by
    match buf, h with
    | [a, b, c, d, e, f], _ => exact ⟨a, b, c, d, e, f, rfl⟩
  have h4 : u32Bytes (u32OfBytes [a, b, c, d]) = [a, b, c, d] := u32Bytes_u32OfBytes rfl
  simp [encode, decode, h4]

end PostingEntry

/-- Postings as six-byte records. -/
def postingCodec : FixedCodec PostingEntry where
  width := POSTING_ENTRY_SIZE
  encode := PostingEntry.encode
  decode := PostingEntry.decode
  width_pos := by decide
  length_encode := PostingEntry.length_encode
  decode_encode := PostingEntry.decode_encode
  encode_decode _ h := PostingEntry.encode_decode h

@[simp] lemma postingCodec_width : postingCodec.width = 6 := rfl

/-! ## Lookup entries -/

namespace LookupEntry

/-- `trigram`, `offset` and `length` in little-endian order. -/
def encode (e : LookupEntry) : List UInt8 :=
  u32Bytes e.trigram ++ u64Bytes e.offset ++ u32Bytes e.length

/-- Read a lookup entry from its sixteen bytes. -/
def decode (buf : List UInt8) : LookupEntry :=
  ⟨u32OfBytes (buf.take 4), u64OfBytes ((buf.drop 4).take 8), u32OfBytes ((buf.drop 12).take 4)⟩

@[simp] lemma length_encode (e : LookupEntry) : e.encode.length = 16 := by
  simp [encode]

@[simp] lemma decode_encode (e : LookupEntry) : decode e.encode = e := by
  obtain ⟨tri, off, len⟩ := e
  have h4 : (u32Bytes tri).length = 4 := length_u32Bytes tri
  have h8 : (u64Bytes off).length = 8 := length_u64Bytes off
  have hlen : (u32Bytes len).take 4 = u32Bytes len :=
    take_of_length_le (length_u32Bytes len).le
  simp only [decode, encode, append_assoc, mk.injEq]
  refine ⟨?_, ?_, ?_⟩
  · rw [take_left' h4, u32OfBytes_u32Bytes]
  · rw [drop_left' h4, take_left' h8, u64OfBytes_u64Bytes]
  · rw [show 12 = 4 + 8 from rfl, ← drop_drop, drop_left' h4, drop_left' h8, hlen,
      u32OfBytes_u32Bytes]

/-- Sixteen bytes are the encoding of the lookup entry they denote. -/
lemma encode_decode {buf : List UInt8} (h : buf.length = 16) : (decode buf).encode = buf := by
  rw [encode, decode, u32Bytes_u32OfBytes (by simp [h]), u64Bytes_u64OfBytes (by simp [h]),
    u32Bytes_u32OfBytes (by simp [h]), take_of_length_le (by simp [h] : (buf.drop 12).length ≤ 4)]
  have h12 : buf.drop 12 = (buf.drop 4).drop 8 := by rw [drop_drop]
  rw [h12, append_assoc, take_append_drop, take_append_drop]

end LookupEntry

/-- Lookup entries as sixteen-byte records. -/
def lookupCodec : FixedCodec LookupEntry where
  width := LOOKUP_ENTRY_SIZE
  encode := LookupEntry.encode
  decode := LookupEntry.decode
  width_pos := by decide
  length_encode := LookupEntry.length_encode
  decode_encode := LookupEntry.decode_encode
  encode_decode _ h := LookupEntry.encode_decode h

@[simp] lemma lookupCodec_width : lookupCodec.width = 16 := rfl

end Tgrep
