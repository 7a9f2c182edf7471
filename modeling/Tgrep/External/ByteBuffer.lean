import Tgrep.External.Segment

/-!
# The buffer of a segment reader

A segment is decoded in a buffer of a fixed size. What is decoded next lies between two positions of
it; when too little is left there, the rest is moved to the front and the file is read behind it.
None of this shows in the numbers that are decoded: the buffer implements the window of a
`ByteSource`.

## Main definitions

* `ByteBuffer`: the buffer and its two positions.
* `ByteBuffer.ensure`, `ByteBuffer.readVarint`: reading ahead, and decoding a number byte by byte.
* `ByteBuffer.decode`: the results of decoding one number after another.

## Main results

* `ByteBuffer.source_ensure`, `ByteBuffer.source_readVarint`: the buffer refines the window.
* `ByteBuffer.decode_writes`: what was written is decoded, and then the input ends; what was cut
  inside a number is refused there.
-/

namespace Tgrep

open List

/-- Buffered byte reader with a sliding window. -/
structure ByteBuffer where
  /-- The file. -/
  file : SegmentFile
  /-- The buffer. -/
  buf : List UInt8
  /-- Where the bytes that are not yet decoded begin. -/
  pos : ℕ
  /-- Where they end. -/
  filled : ℕ
  /-- They are a range. -/
  pos_le : pos ≤ filled
  /-- The range is in the buffer. -/
  filled_le : filled ≤ buf.length

namespace ByteBuffer

variable (src : ByteBuffer)

/-- A reader of a file. -/
def fromFile (file : SegmentFile) (capacity : ℕ) : ByteBuffer :=
  ⟨file, List.replicate (max capacity Varint.MAX_LEN) 0, 0, 0, Nat.le_refl _, Nat.zero_le _⟩

/-- The bytes not yet decoded. -/
def window : List UInt8 := (src.buf.take src.filled).drop src.pos

/-- The bytes not yet decoded are moved to the front of the buffer. -/
def compact : ByteBuffer where
  file := src.file
  buf := src.window ++ src.buf.drop (src.filled - src.pos)
  pos := 0
  filled := src.filled - src.pos
  pos_le := Nat.zero_le _
  filled_le := by
    have hfilled := src.filled_le
    simp only [window, length_append, length_drop, length_take]
    omega

/-- The file has put bytes behind those not yet decoded. -/
def receive (bytes : List UInt8) (file : SegmentFile) : ByteBuffer where
  file := file
  buf := src.buf.take src.filled ++ bytes ++ src.buf.drop (src.filled + bytes.length)
  pos := src.pos
  filled := src.filled + bytes.length
  pos_le := Nat.le_add_right_of_le src.pos_le
  filled_le := by
    have hfilled := src.filled_le
    simp only [length_append, length_take]
    omega

/-- A byte is decoded. -/
def skip (h : src.pos < src.filled) : ByteBuffer := { src with pos := src.pos + 1, pos_le := h }

/-- Read until so many bytes are in the buffer, or the file is exhausted. -/
def fill (want : ℕ) (src : ByteBuffer) : ByteBuffer :=
  if src.filled < want then
    let read := src.file.read (src.buf.length - src.filled)
    if read.1 = [] then { src with file := read.2 }
    else fill want (src.receive read.1 read.2)
  else src
termination_by src.file.unread.length
decreasing_by
  rename_i hread
  exact SegmentFile.length_read_lt hread

/-- Make at least as many bytes available as wanted, if the file still has them. Returns the number
available. -/
def ensure (want : ℕ) : ℕ × ByteBuffer :=
  if want ≤ src.filled - src.pos then (src.filled - src.pos, src)
  else
    let src := src.compact.fill want
    (src.filled, src)

/-- Decode one number from the bytes that are available. -/
def readFrom (value : UInt64) (shift : ℕ) (src : ByteBuffer) : Except Error (UInt64 × ByteBuffer) :=
  if h : src.pos < src.filled then
    let byte := src.buf.get ⟨src.pos, Nat.lt_of_lt_of_le h src.filled_le⟩
    let src := src.skip h
    let value := value ||| (byte &&& 0x7F).toUInt64 <<< UInt64.ofNat shift
    if byte &&& 0x80 = 0 then .ok (value, src)
    else if 64 ≤ shift + 7 then
      .error (.indexCorrupted "spill segment contains an overlong varint")
    else readFrom value (shift + 7) src
  else .error (.indexCorrupted "spill segment truncated mid-varint")
termination_by src.filled - src.pos
decreasing_by
  simp only [skip]
  omega

/-- Decode one number; nothing means a clean end of the segment. -/
def readVarint : Except Error (Option UInt64 × ByteBuffer) :=
  let (available, src) := src.ensure Varint.MAX_LEN
  if available = 0 then .ok (none, src)
  else (src.readFrom 0 0).map fun r => (some r.1, r.2)

/-- What so many calls return, one after another. None is made after the end or an error. -/
def decode : ℕ → ByteBuffer → List (Except Error (Option UInt64))
  | 0, _ => []
  | calls + 1, src =>
    match src.readVarint with
    | .error e => [.error e]
    | .ok (none, _) => [.ok none]
    | .ok (some value, src) => .ok (some value) :: decode calls src

/-! ## The buffer and its window -/

/-- The window that a buffer implements. -/
def source : ByteSource := ⟨src.file, src.window, src.buf.length⟩

variable {src}

/-- As many bytes are left as lie between the positions. -/
@[simp] lemma length_window : src.window.length = src.filled - src.pos := by
  have hfilled := src.filled_le
  simp only [window, length_drop, length_take]
  omega

variable (want calls : ℕ) {value : UInt64} {bytes : List UInt8} (file : SegmentFile)

/-- A new buffer implements a new window. -/
lemma source_fromFile (capacity : ℕ) :
    (fromFile file capacity).source = ByteSource.fromFile file capacity := by
  simp [source, fromFile, window, ByteSource.fromFile]

/-- Moving the bytes to the front does not show. -/
lemma source_compact : src.compact.source = src.source := by
  have hwindow : src.compact.window = src.window := by
    rw [window, compact, drop_zero, take_left' length_window]
  have hlength : src.compact.buf.length = src.buf.length := by
    have hpos := src.pos_le
    have hfilled := src.filled_le
    simp only [compact, length_append, length_window, length_drop]
    omega
  rw [source, hwindow, hlength]
  rfl

/-- What the file puts behind the bytes of a buffer comes behind those of the window. -/
lemma source_receive (hspace : bytes.length ≤ src.buf.length - src.filled) :
    (src.receive bytes file).source =
      { src.source with window := src.window ++ bytes, file := file } := by
  have hfilled := src.filled_le
  have hlength : (src.buf.take src.filled ++ bytes).length = src.filled + bytes.length := by
    rw [length_append, length_take, Nat.min_eq_left hfilled]
  have hwindow : (src.receive bytes file).window = src.window ++ bytes := by
    rw [window, receive, take_left' hlength, window, drop_append_of_le_length]
    rw [length_take, Nat.min_eq_left hfilled]
    exact src.pos_le
  have hbuf : (src.receive bytes file).buf.length = src.buf.length := by
    simp only [receive, length_append, length_take, length_drop]
    omega
  rw [source, hwindow, hbuf]
  rfl

/-- **Reading ahead** in a buffer whose bytes are at the front reads ahead in the window. -/
theorem source_fill (hpos : src.pos = 0) :
    (src.fill want).source = src.source.fill want ∧ (src.fill want).pos = 0 := by
  fun_induction fill want src with
  | case1 src hlt read hread =>
    have hlength : src.source.window.length = src.filled := by simp [source, hpos]
    rw [ByteSource.fill, hlength, if_pos hlt]
    exact ⟨(if_pos hread).symm, hpos⟩
  | case2 src hlt read hread ih =>
    have hlength : src.source.window.length = src.filled := by simp [source, hpos]
    obtain ⟨hsource, hfront⟩ := ih hpos
    refine ⟨?_, hfront⟩
    rw [hsource, source_receive _ (src.file.length_read_le _), ByteSource.fill.eq_1 want src.source,
      hlength, if_pos hlt]
    exact (if_neg hread).symm
  | case3 src hge =>
    have hlength : src.source.window.length = src.filled := by simp [source, hpos]
    rw [ByteSource.fill, hlength, if_neg hge]
    exact ⟨rfl, hpos⟩

/-- **Making bytes available** is what it is for the window, and the number is that of its bytes. -/
theorem source_ensure : (src.ensure want).2.source = src.source.ensure want ∧
    (src.ensure want).1 = (src.source.ensure want).window.length := by
  have hlength : src.source.window.length = src.filled - src.pos := length_window
  rw [ensure, ByteSource.ensure, hlength]
  split_ifs
  · exact ⟨rfl, length_window.symm⟩
  · obtain ⟨hsource, hfront⟩ := source_fill want (show src.compact.pos = 0 from rfl)
    rw [source_compact] at hsource
    refine ⟨hsource, ?_⟩
    rw [← hsource, source, length_window, hfront, Nat.sub_zero]

/-- The window of a buffer with a byte begins with it. -/
lemma window_eq_cons (h : src.pos < src.filled) : src.window =
    src.buf.get ⟨src.pos, Nat.lt_of_lt_of_le h src.filled_le⟩ :: (src.skip h).window := by
  have hlt : src.pos < (src.buf.take src.filled).length := by
    rw [length_take, Nat.min_eq_left src.filled_le]
    exact h
  rw [window, drop_eq_getElem_cons hlt, getElem_take]
  rfl

/-- **Decoding** byte by byte is decoding from the window. -/
theorem source_readFrom (value : UInt64) (shift : ℕ) :
    (src.readFrom value shift).map (Prod.map id source) =
      (Varint.readFrom (.indexCorrupted "spill segment truncated mid-varint")
        (.indexCorrupted "spill segment contains an overlong varint") value shift src.window).map
          fun r => (r.1, { src.source with window := r.2 }) := by
  fun_induction readFrom value shift src with
  | case1 value shift src h byte src' value' hlast =>
    rw [window_eq_cons h, Varint.readFrom]
    simp only [byte] at hlast
    rw [if_pos hlast]
    rfl
  | case2 value shift src h byte hmore hlong =>
    rw [window_eq_cons h, Varint.readFrom, if_neg hmore, if_pos hlong]
    rfl
  | case3 value shift src h byte src' value' hmore hshort ih =>
    rw [window_eq_cons h, Varint.readFrom, if_neg hmore, if_neg hshort]
    exact ih
  | case4 value shift src h =>
    have hnil : src.window = [] := List.length_eq_zero_iff.mp (by rw [length_window]; omega)
    rw [hnil]
    rfl

/-- **Decoding a number** from the buffer is decoding it from the window. -/
theorem source_readVarint : src.readVarint.map (Prod.map id source) = src.source.readVarint := by
  obtain ⟨hsource, hlength⟩ := @source_ensure src Varint.MAX_LEN
  rw [readVarint, ByteSource.readVarint]
  rcases hensure : src.ensure Varint.MAX_LEN with ⟨available, ready⟩
  rw [hensure] at hsource hlength
  dsimp only at hsource hlength ⊢
  rw [← hsource] at hlength ⊢
  rw [← hlength]
  have hswap : ∀ result : Except Error (UInt64 × ByteBuffer),
      (result.map fun r => (some r.1, r.2)).map (Prod.map id source) =
        (result.map (Prod.map id source)).map fun r => (some r.1, r.2) := by
    rintro (e | r) <;> rfl
  split_ifs with hend
  · rfl
  · rw [hswap, source_readFrom, Varint.read]
    rw [show ready.window = ready.source.window from rfl]
    generalize Varint.readFrom _ _ 0 0 ready.source.window = result
    cases result <;> rfl

/-! ## Decoding what was written -/

/-- A number that the window holds is decoded from the buffer. -/
lemma readVarint_spec {rest : List UInt8} (h : src.source.At (Varint.write value ++ rest)) :
    ∃ src', src.readVarint = .ok (some value, src') ∧ src'.source.At rest := by
  obtain ⟨after, hread, hat⟩ := ByteSource.readVarint_spec h
  rw [← source_readVarint] at hread
  rcases hbuffer : src.readVarint with e | ⟨value', src'⟩
  · rw [hbuffer] at hread
    cases hread
  · rw [hbuffer] at hread
    cases hread
    exact ⟨src', rfl, hat⟩

/-- What is called after the numbers that were written is what is called at the bytes behind. -/
lemma decode_append {calls : ℕ} (values : List UInt64)
    (h : src.source.At (values.flatMap Varint.write ++ bytes)) :
    ∃ src' : ByteBuffer, src'.source.At bytes ∧ src.decode (values.length + calls) =
      values.map (fun value => .ok (some value)) ++ src'.decode calls := by
  induction values generalizing src with
  | nil => exact ⟨src, h, by rw [length_nil, zero_add]; rfl⟩
  | cons value values ih =>
    rw [flatMap_cons, append_assoc] at h
    obtain ⟨next, hread, hat⟩ := readVarint_spec h
    obtain ⟨src', hat', hdecode⟩ := ih hat
    refine ⟨src', hat', ?_⟩
    rw [length_cons, Nat.succ_add, decode, hread, map_cons, cons_append, ← hdecode]

/-- **At the end** of the file one call says so. -/
theorem decode_end (h : src.source.At []) : src.decode (calls + 1) = [.ok none] := by
  obtain ⟨after, hread⟩ := ByteSource.readVarint_end h
  rw [← source_readVarint] at hread
  rw [decode]
  cases hbuffer : src.readVarint with
  | error e =>
    rw [hbuffer] at hread
    cases hread
  | ok result =>
    rw [hbuffer] at hread
    obtain ⟨_ | value, src'⟩ := result
    · rfl
    · cases hread

/-- **Inside a number** that is cut one call says so. -/
theorem decode_cut {n : ℕ} (hpos : 0 < n) (hcut : n < (Varint.write value).length)
    (h : src.source.At ((Varint.write value).take n)) :
    src.decode (calls + 1) = [.error (.indexCorrupted "spill segment truncated mid-varint")] := by
  have hread := ByteSource.readVarint_cut hpos hcut h
  rw [← source_readVarint] at hread
  rw [decode]
  cases hbuffer : src.readVarint with
  | error e =>
    rw [hbuffer] at hread
    cases hread
    rfl
  | ok result =>
    rw [hbuffer] at hread
    cases hread

/-- **Decoding undoes encoding under any buffering**: however the reads are split, and whatever the
size of the buffer, the numbers that were written are decoded, and then the input ends; a file that
is cut inside a number is refused there. -/
theorem decode_writes (values : List UInt64) (sizes : ℕ → ℕ) (capacity calls : ℕ) :
    (fromFile ⟨values.flatMap Varint.write, sizes⟩ capacity).decode (values.length + (calls + 1)) =
        values.map (fun value => .ok (some value)) ++ [.ok none] ∧
      ∀ value n, 0 < n → n < (Varint.write value).length →
        (fromFile ⟨values.flatMap Varint.write ++ (Varint.write value).take n, sizes⟩
            capacity).decode (values.length + (calls + 1)) =
          values.map (fun value => .ok (some value)) ++
            [.error (.indexCorrupted "spill segment truncated mid-varint")] := by
  have hfrom : ∀ bytes, (fromFile ⟨bytes, sizes⟩ capacity).source.At bytes := fun bytes => by
    rw [source_fromFile]
    exact ByteSource.fromFile_at bytes sizes capacity
  constructor
  · obtain ⟨src', hat, hdecode⟩ := @decode_append (fromFile ⟨_, sizes⟩ capacity) [] (calls + 1)
      values (by rw [append_nil]; exact hfrom _)
    rw [hdecode, decode_end calls hat]
  · intro value n hpos hcut
    obtain ⟨src', hat, hdecode⟩ := decode_append values (hfrom _)
    rw [hdecode, decode_cut calls hpos hcut hat]

/-- Reads of three bytes into the least buffer: three numbers, and a second one that is cut. -/
theorem decode_writes_three :
    (fromFile ⟨[1, 300, 2].flatMap Varint.write, fun _ => 3⟩ 1).decode 4 =
        [.ok (some 1), .ok (some 300), .ok (some 2), .ok none] ∧
      (fromFile ⟨[1].flatMap Varint.write ++ (Varint.write 300).take 1, fun _ => 3⟩ 1).decode 2 =
        [.ok (some 1), .error (.indexCorrupted "spill segment truncated mid-varint")] := by
  have hcut : 1 < (Varint.write 300).length := by
    rw [Varint.write, if_pos (by decide), length_cons]
    exact Nat.succ_lt_succ (Varint.length_write_pos _)
  exact ⟨(decode_writes [1, 300, 2] (fun _ => 3) 1 0).1,
    (decode_writes [1] (fun _ => 3) 1 0).2 300 1 Nat.one_pos hcut⟩

end ByteBuffer

end Tgrep
