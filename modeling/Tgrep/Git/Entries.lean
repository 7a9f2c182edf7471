import Tgrep.Git.Index

/-!
# The layout of the entries of a Git index

The entries of an index are laid out one after another: a header, maybe more flags, and the path,
either in full and padded or as what is behind a part of the path before. The walk yields the paths
of every index that is laid out so, with object ids of 20 bytes, and of no other, but for numbers
that do not fit a word.

## Main definitions

* `EntryLayout`, `Entries`, `IndexLayout`: what is laid out as an entry, as entries and as an index.
* `IndexEntry`, `encodeIndex`: the index that Git writes, with object ids of either size.
* `Wraps`: the walk comes to a number that does not fit.

## Main results

* `walkEntries_iff`: what the walk accepts.
* `walkEntries_encodeIndex`: the walk yields the paths that Git wrote.
-/

namespace Tgrep.GitIndex

open Splice BigEndian OffsetVarint List Option

/-! ## Layouts -/

/-- The flags in a header. -/
def headerFlags (header : List UInt8) : ℕ := ofBE (slice header 60 62)

/-- The number of bytes of the second word of flags. -/
def moreFlags (version flags : ℕ) : ℕ := if isExtended version flags then 2 else 0

/-- The number of bytes between an entry and the next one. -/
def padding (version n : ℕ) : ℕ := if 4 ≤ version then 0 else (n + 7) / 8 * 8 - n

/-- The bytes are the entry of a path, behind the entry of another one. -/
inductive EntryLayout (version : ℕ) (previous : List UInt8) : List UInt8 → List UInt8 → Prop
  | full {header more path : List UInt8} :
      version < 4 → header.length = ENTRY_HEADER →
      more.length = moreFlags version (headerFlags header) →
      (headerFlags header % 0x1000 = path.length ∧ path.length < 0x0FFF ∨
        headerFlags header % 0x1000 = 0x0FFF ∧ 0 ∉ path) →
      EntryLayout version previous path (header ++ (more ++ (path ++ [0])))
  | compressed {header more suffix : List UInt8} {strip : ℕ} :
      4 ≤ version → header.length = ENTRY_HEADER →
      more.length = moreFlags version (headerFlags header) →
      strip ≤ previous.length → 0 ∉ suffix →
      EntryLayout version previous (previous.take (previous.length - strip) ++ suffix)
        (header ++ (more ++ (write strip ++ (suffix ++ [0]))))

/-- The bytes begin with the entries of paths, which take a number of bytes. The padding of the last
one may be missing. -/
inductive Entries (version : ℕ) : List UInt8 → List UInt8 → List (List UInt8) → ℕ → Prop
  | nil {previous bytes : List UInt8} : Entries version previous bytes [] 0
  | cons {previous path entry rest : List UInt8} {paths : List (List UInt8)} {length : ℕ} :
      EntryLayout version previous path entry →
      Entries version path (rest.drop (padding version entry.length)) paths length →
      Entries version previous (entry ++ rest) (path :: paths)
        (entry.length + padding version entry.length + length)

/-- The bytes are an index with the entries of paths, which end at an offset. -/
def IndexLayout (bytes : List UInt8) (paths : List (List UInt8)) (stop : ℕ) : Prop :=
  ∃ version body length, 2 ≤ version ∧ version ≤ 4 ∧ paths.length < 2 ^ 32 ∧
    bytes = SIGNATURE ++ (toBE 4 version ++ (toBE 4 paths.length ++ body)) ∧
    Entries version [] body paths length ∧ stop = 12 + length

/-! ## Numbers -/

variable {n len next value length : ℕ} {byte : UInt8} {path rest previous : List UInt8}
  {pos version : ℕ} {bytes : List UInt8}

/-- The number behind a byte is at least the one up to it. -/
lemma le_of_readFrom (h : readFrom bytes byte value length = some (n, len)) : value ≤ n := by
  induction bytes generalizing byte value length with
  | nil =>
    rw [readFrom] at h
    split_ifs at h
    exact (Prod.mk.inj (some.inj h)).1.le
  | cons next bytes ih =>
    rw [readFrom] at h
    split_ifs at h
    · exact (Prod.mk.inj (some.inj h)).1.le
    · have hle := ih h
      omega

/-- A number that fits is read. -/
lemma readVarintFrom_of_readFrom (pos : ℕ)
    (h : readFrom bytes byte value length = some (n, len)) (hfits : n < 2 ^ 64) :
    readVarintFrom bytes byte value pos = some (n, pos + (len - length)) ∧ length ≤ len := by
  induction bytes generalizing byte value length pos with
  | nil =>
    rw [readFrom] at h
    rw [readVarintFrom]
    split_ifs at h ⊢
    obtain ⟨rfl, rfl⟩ := Prod.mk.inj (some.inj h)
    rw [Nat.sub_self, add_zero]
    exact ⟨rfl, le_rfl⟩
  | cons next bytes ih =>
    rw [readFrom] at h
    rw [readVarintFrom]
    split_ifs at h ⊢ with hlast hadd
    · obtain ⟨rfl, rfl⟩ := Prod.mk.inj (some.inj h)
      rw [Nat.sub_self, add_zero]
      exact ⟨rfl, le_rfl⟩
    · have hle := le_of_readFrom h
      omega
    · have hle := le_of_readFrom h
      have hmod : (value + 1) * 2 ^ 7 % 2 ^ 64 = (value + 1) * 128 := by
        rw [Nat.mod_eq_of_lt (by omega)]
        rfl
      obtain ⟨hread, hlen⟩ := ih (pos + 1) h
      dsimp only
      rw [hmod, if_neg (by omega), hread]
      refine ⟨?_, by omega⟩
      have hpos : pos + 1 + (len - (length + 1)) = pos + (len - length) := by omega
      rw [hpos]

/-- What is read is what a number leaves of a word. -/
lemma readFrom_of_readVarintFrom {v : ℕ} (length : ℕ)
    (h : readVarintFrom bytes byte (value % 2 ^ 64) pos = some (v, next)) :
    ∃ n len, readFrom bytes byte value length = some (n, len) ∧ length ≤ len ∧
      next = pos + (len - length) ∧ v = n % 2 ^ 64 := by
  induction bytes generalizing byte value length pos with
  | nil =>
    rw [readVarintFrom] at h
    rw [readFrom]
    split_ifs at h ⊢
    obtain ⟨rfl, rfl⟩ := Prod.mk.inj (some.inj h)
    exact ⟨_, _, rfl, le_rfl, by omega, rfl⟩
  | cons next' bytes ih =>
    rw [readVarintFrom] at h
    rw [readFrom]
    dsimp only at h
    split_ifs at h ⊢ with hlast hadd hsum
    · obtain ⟨rfl, rfl⟩ := Prod.mk.inj (some.inj h)
      exact ⟨_, _, rfl, le_rfl, by omega, rfl⟩
    · have hmod : (value % 2 ^ 64 + 1) * 2 ^ 7 % 2 ^ 64 + next'.toNat % 128 =
          ((value + 1) * 128 + next'.toNat % 128) % 2 ^ 64 := by omega
      rw [hmod] at h
      obtain ⟨n, len, hread, hlen, hnext, hv⟩ := ih (length + 1) h
      exact ⟨n, len, hread, by omega, by omega, hv⟩

/-- **A number that fits is read**, with the offset behind it. -/
theorem readVarint_of_readAt (h : readAt (bytes.drop pos) = some (n, len)) (hfits : n < 2 ^ 64) :
    readVarint bytes pos = some (n, pos + len) := by
  rw [readVarint]
  cases hdrop : bytes.drop pos with
  | nil =>
    rw [hdrop] at h
    cases h
  | cons byte rest =>
    rw [hdrop, readAt] at h
    obtain ⟨hread, hlen⟩ := readVarintFrom_of_readFrom (pos + 1) h hfits
    dsimp only
    have hpos : pos + 1 + (len - 1) = pos + len := by omega
    rw [hread, hpos]

/-- **What is read** is what a number leaves of a word. -/
theorem readAt_of_readVarint {v : ℕ} (h : readVarint bytes pos = some (v, next)) :
    ∃ n len, readAt (bytes.drop pos) = some (n, len) ∧ next = pos + len ∧ v = n % 2 ^ 64 := by
  rw [readVarint] at h
  cases hdrop : bytes.drop pos with
  | nil =>
    rw [hdrop] at h
    cases h
  | cons byte rest =>
    rw [hdrop] at h
    dsimp only at h
    have hsmall : byte.toNat % 128 = byte.toNat % 128 % 2 ^ 64 := by omega
    rw [hsmall] at h
    obtain ⟨n, len, hread, hlen, hnext, hv⟩ := readFrom_of_readVarintFrom 1 h
    exact ⟨n, len, hread, by omega, hv⟩

/-! ## One entry -/

/-- Where the path of an entry begins, behind its flags. -/
def pathStart (bytes : List UInt8) (version pos : ℕ) : ℕ :=
  pos + ENTRY_HEADER + moreFlags version (ofBE (slice bytes (pos + 60) (pos + 62)))

/-- The number of bytes that an entry strips off the path before. -/
def stripAt (bytes : List UInt8) (version pos : ℕ) : Option ℕ :=
  if 4 ≤ version then (readAt (bytes.drop (pathStart bytes version pos))).map Prod.fst else none

/-- The first NUL, where it ends a string. -/
lemma nulFrom_eq {str : List UInt8} (h : bytes.drop pos = str ++ 0 :: rest) (hstr : 0 ∉ str) :
    nulFrom bytes pos = some (pos + str.length) := by
  rw [nulFrom, h, findIdx?_append]
  have hnone : str.findIdx? (· == 0) = none := by
    rw [findIdx?_eq_none_iff]
    exact fun b hb => beq_eq_false_iff_ne.mpr fun heq => hstr (heq ▸ hb)
  rw [hnone, findIdx?_cons]
  simp

/-- What stands in front of the first NUL. -/
lemma nulFrom_eq_some {stop : ℕ} (h : nulFrom bytes pos = some stop) :
    ∃ str rest, bytes.drop pos = str ++ 0 :: rest ∧ 0 ∉ str ∧ stop = pos + str.length ∧
      slice bytes pos stop = str := by
  obtain ⟨i, hi, rfl⟩ := Option.map_eq_some_iff.mp h
  obtain ⟨hlt, hzero, hbefore⟩ := findIdx?_eq_some_iff_getElem.mp hi
  have hget : (bytes.drop pos)[i] = 0 := beq_iff_eq.mp hzero
  have hlen : ((bytes.drop pos).take i).length = i := by
    rw [length_take]
    omega
  refine ⟨(bytes.drop pos).take i, (bytes.drop pos).drop (i + 1), ?_, ?_, ?_, slice_eq_take _ _ _⟩
  · rw [← hget, ← drop_eq_getElem_cons hlt, take_append_drop]
  · intro hmem
    obtain ⟨j, hj, heq⟩ := getElem_of_mem hmem
    rw [hlen] at hj
    rw [getElem_take] at heq
    exact hbefore j hj (beq_iff_eq.mpr heq)
  · rw [hlen]

/-- The flags of the entry at an offset. -/
lemma headerFlags_eq {header : List UInt8} (h : bytes.drop pos = header ++ rest)
    (hheader : header.length = ENTRY_HEADER) :
    ofBE (slice bytes (pos + 60) (pos + 62)) = headerFlags header := by
  have hle : 62 ≤ header.length := hheader.ge
  rw [← slice_drop, h, slice_append_right hle, headerFlags]

/-- What is behind an offset has the rest of the bytes. -/
lemma length_of_drop {front : List UInt8} (h : bytes.drop pos = front ++ rest)
    (hfront : 0 < front.length) : pos + front.length ≤ bytes.length := by
  have hlen := congrArg length h
  rw [length_drop, length_append] at hlen
  omega

lemma drop_of_drop {front : List UInt8} (h : bytes.drop pos = front ++ rest) :
    bytes.drop (pos + front.length) = rest := by
  rw [← drop_drop, h, drop_left]

/-- Where the path of an entry begins. -/
lemma pathStart_eq {header more : List UInt8} (h : bytes.drop pos = header ++ (more ++ rest))
    (hheader : header.length = ENTRY_HEADER)
    (hmore : more.length = moreFlags version (headerFlags header)) :
    pathStart bytes version pos = pos + (header ++ more).length ∧
      bytes.drop (pathStart bytes version pos) = rest ∧
      pathStart bytes version pos ≤ bytes.length := by
  have hstart : pathStart bytes version pos = pos + (header ++ more).length := by
    rw [pathStart, headerFlags_eq h hheader, length_append, hheader, hmore, add_assoc]
  rw [← append_assoc] at h
  have hpos : 0 < (header ++ more).length := by
    rw [length_append, hheader]
    exact Nat.lt_of_lt_of_le (by decide) (Nat.le_add_right _ _)
  rw [hstart]
  exact ⟨rfl, drop_of_drop h, length_of_drop h hpos⟩

/-- How a path in full ends. -/
lemma named_stop {start flags : ℕ} (hdrop : bytes.drop start = path ++ 0 :: rest)
    (hpath : flags % 0x1000 = path.length ∧ path.length < 0x0FFF ∨
      flags % 0x1000 = 0x0FFF ∧ 0 ∉ path) :
    (if flags % 0x1000 < 0x0FFF then
      if bytes[start + flags % 0x1000]? = some 0 then some (start + flags % 0x1000) else none
    else nulFrom bytes start) = some (start + path.length) := by
  rcases hpath with ⟨hnamed, hlt⟩ | ⟨hnamed, hnul⟩
  · have hzero : bytes[start + path.length]? = some 0 := by
      rw [← getElem?_drop, hdrop, getElem?_append_right le_rfl, Nat.sub_self]
      rfl
    rw [hnamed, if_pos hlt, if_pos hzero]
  · rw [hnamed, if_neg (lt_irrefl _), nulFrom_eq hdrop hnul]

/-- What is read behind a part of the path before. -/
lemma readEntry_compressed (hversion : 4 ≤ version) (hheader : pos + ENTRY_HEADER ≤ bytes.length)
    (hstart : pathStart bytes version pos ≤ bytes.length) :
    readEntry bytes version pos previous =
      match readVarint bytes (pathStart bytes version pos) with
      | none => none
      | some (strip, next) =>
        if previous.length < strip then none
        else
          match nulFrom bytes next with
          | none => none
          | some stop =>
            some (previous.take (previous.length - strip) ++ slice bytes next stop, stop + 1) := by
  rw [readEntry, if_neg (not_lt.mpr hheader)]
  exact (if_neg (not_lt.mpr hstart)).trans (if_pos hversion)

/-- What is read in full. -/
lemma readEntry_full (hversion : ¬ 4 ≤ version) (hheader : pos + ENTRY_HEADER ≤ bytes.length)
    (hstart : pathStart bytes version pos ≤ bytes.length) :
    readEntry bytes version pos previous =
      match (if ofBE (slice bytes (pos + 60) (pos + 62)) % 0x1000 < 0x0FFF then
          if bytes[pathStart bytes version pos +
              ofBE (slice bytes (pos + 60) (pos + 62)) % 0x1000]? = some 0 then
            some (pathStart bytes version pos + ofBE (slice bytes (pos + 60) (pos + 62)) % 0x1000)
          else none
        else nulFrom bytes (pathStart bytes version pos)) with
      | none => none
      | some stop =>
        match getRange bytes (pathStart bytes version pos) stop with
        | none => none
        | some path => some (path, pos + (stop + 1 - pos + 7) / 8 * 8) := by
  rw [readEntry, if_neg (not_lt.mpr hheader)]
  exact (if_neg (not_lt.mpr hstart)).trans (if_neg hversion)

/-- **An entry is read**, and the next one begins behind its padding. -/
theorem readEntry_of_layout {entry : List UInt8} (h : bytes.drop pos = entry ++ rest)
    (hlayout : EntryLayout version previous path entry) (hprevious : previous.length < 2 ^ 64) :
    readEntry bytes version pos previous =
      some (path, pos + entry.length + padding version entry.length) ∧
    ∀ strip, stripAt bytes version pos = some strip → strip < 2 ^ 64 := by
  cases hlayout with
  | @full header more path hversion hheader hmore hpath =>
    rw [append_assoc, append_assoc, append_assoc, singleton_append] at h
    have hlen := length_of_drop h (by rw [hheader]; decide)
    obtain ⟨hstart, hdrop, hstartLe⟩ := pathStart_eq h hheader hmore
    rw [hheader] at hlen
    have hnamed : bytes.drop (pathStart bytes version pos) = (path ++ [0]) ++ rest := by
      rw [hdrop, append_assoc, singleton_append]
    have hpathLen := length_of_drop hnamed (by simp)
    have hslice : slice bytes (pathStart bytes version pos)
        (pathStart bytes version pos + path.length) = path := by
      rw [slice_eq_take, hdrop, take_left]
    rw [length_append] at hpathLen
    refine ⟨?_, fun strip hstrip => ?_⟩
    · rw [readEntry_full (by omega) hlen hstartLe, headerFlags_eq h hheader, named_stop hdrop hpath]
      dsimp only
      rw [getRange, if_pos ⟨by omega, by omega⟩, hslice]
      dsimp only
      rw [hstart, padding, if_neg (by omega)]
      simp only [length_append, length_singleton]
      refine congrArg some (Prod.ext rfl ?_)
      dsimp only
      omega
    · rw [stripAt, if_neg (by omega)] at hstrip
      cases hstrip
  | @compressed header more suffix strip hversion hheader hmore hstrip hnul =>
    rw [append_assoc, append_assoc, append_assoc, append_assoc, singleton_append] at h
    have hlen := length_of_drop h (by rw [hheader]; decide)
    obtain ⟨hstart, hdrop, hstartLe⟩ := pathStart_eq h hheader hmore
    rw [hheader] at hlen
    have hread : readAt (bytes.drop (pathStart bytes version pos)) =
        some (strip, (write strip).length) := by
      rw [hdrop, readAt_write]
    have hsuffix := drop_of_drop hdrop
    refine ⟨?_, fun strip' hstrip' => ?_⟩
    · rw [readEntry_compressed hversion hlen hstartLe, readVarint_of_readAt hread (by omega)]
      dsimp only
      rw [if_neg (not_lt.mpr hstrip), nulFrom_eq hsuffix hnul]
      dsimp only
      rw [slice_eq_take, hsuffix, take_left, hstart, padding, if_pos hversion]
      simp only [length_append, length_singleton]
      refine congrArg some (Prod.ext rfl ?_)
      dsimp only
      omega
    · rw [stripAt, if_pos hversion, hread] at hstrip'
      obtain rfl : strip = strip' := some.inj hstrip'
      omega

/-- **What is read is an entry**, if the number in it fits. -/
theorem layout_of_readEntry (h : readEntry bytes version pos previous = some (path, next))
    (hfits : ∀ strip, stripAt bytes version pos = some strip → strip < 2 ^ 64) :
    ∃ entry rest, bytes.drop pos = entry ++ rest ∧ EntryLayout version previous path entry ∧
      next = pos + entry.length + padding version entry.length := by
  by_cases hheader : pos + ENTRY_HEADER ≤ bytes.length
  swap
  · rw [readEntry, if_pos (not_le.mp hheader)] at h
    cases h
  by_cases hstart : pathStart bytes version pos ≤ bytes.length
  swap
  · rw [readEntry, if_neg (not_lt.mpr hheader)] at h
    have hnone := (if_pos (not_le.mp hstart)).symm.trans h
    cases hnone
  -- the header and the second word of flags
  have hle : pos + ENTRY_HEADER ≤ pathStart bytes version pos := by
    rw [pathStart]
    exact Nat.le_add_right _ _
  have hsplit : bytes.drop pos = slice bytes pos (pos + ENTRY_HEADER) ++
      (slice bytes (pos + ENTRY_HEADER) (pathStart bytes version pos) ++
        bytes.drop (pathStart bytes version pos)) := by
    rw [slice_append_drop bytes hle, slice_append_drop bytes (Nat.le_add_right _ _)]
  have hheaderLen : (slice bytes pos (pos + ENTRY_HEADER)).length = ENTRY_HEADER := by
    rw [length_slice (Nat.le_add_right _ _) hheader, Nat.add_sub_cancel_left]
  have hflags := headerFlags_eq hsplit hheaderLen
  have hmoreLen : (slice bytes (pos + ENTRY_HEADER) (pathStart bytes version pos)).length =
      moreFlags version (headerFlags (slice bytes pos (pos + ENTRY_HEADER))) := by
    rw [length_slice hle hstart, ← hflags, pathStart, Nat.add_sub_cancel_left]
  set header := slice bytes pos (pos + ENTRY_HEADER)
  set more := slice bytes (pos + ENTRY_HEADER) (pathStart bytes version pos)
  set start := pathStart bytes version pos with hstartEq
  have hstartLen : start = pos + (header ++ more).length := by
    rw [length_append, hheaderLen, hmoreLen, ← hflags, hstartEq, pathStart, add_assoc]
  by_cases hversion : 4 ≤ version
  · rw [readEntry_compressed hversion hheader hstart] at h
    cases hread : readVarint bytes start with
    | none =>
      rw [hread] at h
      cases h
    | some found =>
      obtain ⟨v, behind⟩ := found
      rw [hread] at h
      dsimp only at h
      obtain ⟨n, len, hexact, rfl, hv⟩ := readAt_of_readVarint hread
      have hsmall := hfits n (by rw [stripAt, if_pos hversion, ← hstartEq, hexact]; rfl)
      rw [Nat.mod_eq_of_lt hsmall] at hv
      subst hv
      obtain ⟨rest, hrest, rfl⟩ := readAt_eq_some hexact
      split_ifs at h with hstrip
      cases hnul : nulFrom bytes (start + (write v).length) with
      | none =>
        rw [hnul] at h
        cases h
      | some stop =>
        rw [hnul] at h
        obtain ⟨rfl, rfl⟩ := Prod.mk.inj (some.inj h)
        obtain ⟨suffix, rest', hsuffix, hzero, rfl, hslice⟩ := nulFrom_eq_some hnul
        rw [drop_of_drop hrest] at hsuffix
        refine ⟨header ++ (more ++ (write v ++ (suffix ++ [0]))), rest', ?_, ?_, ?_⟩
        · rw [hsplit, hrest, hsuffix]
          simp only [append_assoc, singleton_append]
        · rw [hslice]
          exact .compressed hversion hheaderLen hmoreLen (not_lt.mp hstrip) hzero
        · rw [padding, if_pos hversion, hstartLen]
          simp only [length_append, length_singleton]
          omega
  · rw [readEntry_full hversion hheader hstart, hflags] at h
    set flags := headerFlags header with hflagsEq
    -- the path ends at a NUL, and is of the length in the flags or has no other one
    have hends : ∃ path stop rest, (if flags % 0x1000 < 0x0FFF then
          if bytes[start + flags % 0x1000]? = some 0 then some (start + flags % 0x1000) else none
        else nulFrom bytes start) = some stop ∧ bytes.drop start = path ++ 0 :: rest ∧
        stop = start + path.length ∧ slice bytes start stop = path ∧
        (flags % 0x1000 = path.length ∧ path.length < 0x0FFF ∨
          flags % 0x1000 = 0x0FFF ∧ 0 ∉ path) := by
      split_ifs with hnamed hzero
      · obtain ⟨hlt, hget⟩ := List.getElem?_eq_some_iff.mp hzero
        have hpathLen := length_slice (Nat.le_add_right start (flags % 0x1000)) hlt.le
        rw [Nat.add_sub_cancel_left] at hpathLen
        refine ⟨slice bytes start (start + flags % 0x1000), _,
          bytes.drop (start + flags % 0x1000 + 1), rfl, ?_, by rw [hpathLen], rfl,
          .inl ⟨hpathLen.symm, by rw [hpathLen]; exact hnamed⟩⟩
        rw [← hget, ← drop_eq_getElem_cons hlt, slice_append_drop _ (Nat.le_add_right _ _)]
      · rw [if_pos hnamed, if_neg hzero] at h
        cases h
      · rw [if_neg hnamed] at h
        cases hnul : nulFrom bytes start with
        | none =>
          rw [hnul] at h
          cases h
        | some stop =>
          obtain ⟨str, rest, hdrop, hstr, hstop, hslice⟩ := nulFrom_eq_some hnul
          have hmax : flags % 0x1000 = 0x0FFF := by omega
          exact ⟨str, stop, rest, rfl, hdrop, hstop, hslice, .inr ⟨hmax, hstr⟩⟩
    obtain ⟨str, stop, rest, hstop, hdrop, rfl, hslice, hpath⟩ := hends
    rw [hstop] at h
    dsimp only at h
    rw [getRange] at h
    split_ifs at h with hrange
    obtain ⟨rfl, rfl⟩ := Prod.mk.inj (some.inj h)
    rw [hslice]
    refine ⟨header ++ (more ++ (str ++ [0])), rest, ?_, ?_, ?_⟩
    · rw [hsplit, hdrop]
      simp only [append_assoc, singleton_append]
    · exact .full (not_le.mp hversion) hheaderLen hmoreLen hpath
    · rw [padding, if_neg hversion, hstartLen]
      simp only [length_append, length_singleton]
      omega

/-! ## The walk -/

/-- The walk comes to an entry that strips a number of bytes that does not fit. -/
inductive Wraps (bytes : List UInt8) (version : ℕ) : ℕ → ℕ → List UInt8 → Prop
  | here {count pos strip : ℕ} {previous : List UInt8} :
      stripAt bytes version pos = some strip → 2 ^ 64 ≤ strip →
      Wraps bytes version (count + 1) pos previous
  | later {count pos next : ℕ} {previous path : List UInt8} :
      readEntry bytes version pos previous = some (path, next) →
      Wraps bytes version count next path → Wraps bytes version (count + 1) pos previous

/-- The path of an entry is at most that much longer than the one before. -/
lemma EntryLayout.length_le {entry : List UInt8} (h : EntryLayout version previous path entry) :
    path.length ≤ previous.length + entry.length ∧ 0 < entry.length := by
  cases h with
  | full _ hheader _ _ =>
    simp only [length_append, length_singleton]
    omega
  | compressed _ hheader _ hstrip _ =>
    simp only [length_append, length_singleton, length_take]
    omega

/-- **The walk yields the paths of entries that are laid out.** -/
theorem walkFrom_of_entries (hbytes : bytes.length < 2 ^ 64) {suffix : List UInt8}
    {paths : List (List UInt8)} (h : Entries version previous suffix paths length) (pos : ℕ)
    (hsuffix : bytes.drop pos = suffix) (hprevious : previous.length ≤ pos) :
    walkFrom bytes version paths.length pos previous = some (paths, pos + length) ∧
      ¬ Wraps bytes version paths.length pos previous := by
  induction h generalizing pos with
  | nil => exact ⟨rfl, fun hwraps => by cases hwraps⟩
  | @cons previous path entry rest paths length hentry _ ih =>
    obtain ⟨hpath, hpos⟩ := hentry.length_le
    have hlen := length_of_drop hsuffix hpos
    obtain ⟨hread, hstrip⟩ := readEntry_of_layout hsuffix hentry (by omega)
    have hrest : bytes.drop (pos + entry.length + padding version entry.length) =
        rest.drop (padding version entry.length) := by
      rw [← drop_drop, drop_of_drop hsuffix]
    obtain ⟨hwalk, hfits⟩ := ih _ hrest (by omega)
    refine ⟨?_, fun hwraps => ?_⟩
    · rw [length_cons, walkFrom, hread]
      dsimp only
      rw [hwalk]
      simp only [map_some, add_assoc]
    · rw [length_cons] at hwraps
      cases hwraps with
      | here hsome hge => exact absurd (hstrip _ hsome) (not_lt.mpr hge)
      | later hread' hlater =>
        rw [hread] at hread'
        obtain ⟨rfl, rfl⟩ := Prod.mk.inj (some.inj hread')
        exact hfits hlater

/-- **What the walk yields is laid out**, if every number fits. -/
theorem entries_of_walkFrom {count stop : ℕ} {paths : List (List UInt8)}
    (h : walkFrom bytes version count pos previous = some (paths, stop))
    (hfits : ¬ Wraps bytes version count pos previous) :
    count = paths.length ∧ ∃ length, Entries version previous (bytes.drop pos) paths length ∧
      stop = pos + length := by
  induction count generalizing pos previous paths with
  | zero =>
    rw [walkFrom] at h
    obtain ⟨rfl, rfl⟩ := Prod.mk.inj (some.inj h)
    exact ⟨rfl, 0, .nil, rfl⟩
  | succ count ih =>
    rw [walkFrom] at h
    cases hread : readEntry bytes version pos previous with
    | none =>
      rw [hread] at h
      cases h
    | some found =>
      obtain ⟨path, next⟩ := found
      rw [hread] at h
      obtain ⟨⟨rest, stop'⟩, hwalk, heq⟩ := Option.map_eq_some_iff.mp h
      obtain ⟨rfl, rfl⟩ := Prod.mk.inj heq
      obtain ⟨hcount, length, hentries, hstop⟩ := ih hwalk fun hlater => hfits (.later hread hlater)
      obtain ⟨entry, behind, hdrop, hlayout, rfl⟩ := layout_of_readEntry hread
        fun strip hstrip => not_le.mp fun hge => hfits (.here hstrip hge)
      refine ⟨by rw [length_cons, hcount], entry.length + padding version entry.length + length,
        ?_, by rw [hstop]; omega⟩
      rw [hdrop]
      refine .cons hlayout ?_
      rwa [← drop_drop, drop_of_drop hdrop] at hentries

/-- What a header is. -/
lemma indexHeader_eq_some {count : ℕ} :
    indexHeader bytes = some (version, count) ↔
      2 ≤ version ∧ version ≤ 4 ∧ count < 2 ^ 32 ∧
        bytes = SIGNATURE ++ (toBE 4 version ++ (toBE 4 count ++ bytes.drop 12)) := by
  have hmagic : SIGNATURE.length = 4 := by decide
  rw [indexHeader]
  constructor
  · intro h
    dsimp only at h
    split_ifs at h with hshort hversion
    rw [not_or, not_lt, not_not] at hshort
    obtain ⟨hlen, htake⟩ := hshort
    obtain ⟨rfl, rfl⟩ := Prod.mk.inj (some.inj h)
    have hversionLen := length_slice (l := bytes) (i := 4) (j := 8) (by omega) (by omega)
    have hcountLen := length_slice (l := bytes) (i := 8) (j := 12) (by omega) (by omega)
    have hversionBytes := toBE_ofBE (slice bytes 4 8)
    have hcountBytes := toBE_ofBE (slice bytes 8 12)
    have hlt := ofBE_lt (slice bytes 8 12)
    rw [hversionLen] at hversionBytes
    rw [hcountLen] at hcountBytes hlt
    refine ⟨hversion.1, hversion.2, hlt, ?_⟩
    rw [hversionBytes, hcountBytes, ← htake, slice_append_drop bytes (by omega),
      slice_append_drop bytes (by omega), take_append_drop]
  · rintro ⟨hge, hle, hcount, heq⟩
    have htake : bytes.take 4 = SIGNATURE := by
      rw [heq, ← hmagic, take_left]
    have hlen : 12 ≤ bytes.length := by
      have hlength := congrArg length heq
      simp only [length_append, length_toBE, hmagic] at hlength
      omega
    have hversion : slice bytes 4 8 = toBE 4 version := by
      have h := slice_append_left SIGNATURE
        (toBE 4 version ++ (toBE 4 count ++ bytes.drop 12)) 0 4
      rw [hmagic, ← heq] at h
      rw [h, slice, drop_zero, take_left' (length_toBE 4 version)]
    have hcountBytes : slice bytes 8 12 = toBE 4 count := by
      have h := slice_append_left (SIGNATURE ++ toBE 4 version)
        (toBE 4 count ++ bytes.drop 12) 0 4
      rw [append_assoc, ← heq, length_append, hmagic, length_toBE] at h
      rw [h, slice, drop_zero, take_left' (length_toBE 4 count)]
    rw [if_neg (by rw [not_or, not_not]; exact ⟨by omega, htake⟩), hversion, hcountBytes,
      ofBE_toBE (by omega), ofBE_toBE (by omega)]
    exact if_pos ⟨hge, hle⟩

/-- The walk over an index comes to a number that does not fit. -/
def IndexWraps (bytes : List UInt8) : Prop :=
  ∃ version count, indexHeader bytes = some (version, count) ∧ Wraps bytes version count 12 []

/-- **What the walk accepts**: the indexes that are laid out, but where a number does not fit. -/
theorem walkEntries_iff (hbytes : bytes.length < 2 ^ 64) (paths : List (List UInt8)) (stop : ℕ) :
    IndexLayout bytes paths stop ↔
      walkEntries bytes = some (paths, stop) ∧ ¬ IndexWraps bytes := by
  constructor
  · rintro ⟨version, body, length, hge, hle, hcount, hindex, hentries, rfl⟩
    have hbody : bytes.drop 12 = body := by
      have hlen : (SIGNATURE ++ (toBE 4 version ++ toBE 4 paths.length)).length = 12 := by
        simp only [length_append, length_toBE]
        rfl
      rw [hindex, ← append_assoc (toBE 4 version), ← append_assoc, ← hlen, drop_left]
    have hheader : indexHeader bytes = some (version, paths.length) :=
      indexHeader_eq_some.mpr ⟨hge, hle, hcount, by rw [hbody]; exact hindex⟩
    obtain ⟨hwalk, hfits⟩ := walkFrom_of_entries hbytes hentries 12 hbody (Nat.zero_le _)
    refine ⟨by rw [walkEntries, hheader]; exact hwalk, ?_⟩
    rintro ⟨version', count', hheader', hwraps⟩
    rw [hheader] at hheader'
    obtain ⟨rfl, rfl⟩ := Prod.mk.inj (some.inj hheader')
    exact hfits hwraps
  · rintro ⟨hwalk, hfits⟩
    rw [walkEntries] at hwalk
    cases hheader : indexHeader bytes with
    | none =>
      rw [hheader] at hwalk
      cases hwalk
    | some found =>
      obtain ⟨version, count⟩ := found
      rw [hheader] at hwalk
      obtain ⟨hcount, length, hentries, hstop⟩ := entries_of_walkFrom hwalk
        fun hwraps => hfits ⟨version, count, hheader, hwraps⟩
      obtain ⟨hge, hle, hlt, heq⟩ := indexHeader_eq_some.mp hheader
      rw [hcount] at hlt heq
      exact ⟨version, bytes.drop 12, length, hge, hle, hlt, heq, hentries, hstop⟩

/-! ## What Git writes -/

/-- The hashes that object ids are made with. -/
inductive ObjectHash
  | sha1
  | sha256
  deriving DecidableEq

/-- The length of an object id. -/
def ObjectHash.size : ObjectHash → ℕ
  | .sha1 => 20
  | .sha256 => 32

/-- An entry of an index. -/
structure IndexEntry (hash : ObjectHash) where
  stat : List UInt8
  stat_length : stat.length = 40
  oid : List UInt8
  oid_length : oid.length = hash.size
  assumeValid : Bool
  stage : Fin 4
  /-- More flags, which version 2 does not have. -/
  extended : Option UInt16
  path : List UInt8
  path_nul : 0 ∉ path

namespace IndexEntry

variable {hash : ObjectHash}

/-- The second word of flags in a version. -/
def more (version : ℕ) (e : IndexEntry hash) : Option UInt16 :=
  if 3 ≤ version then e.extended else none

/-- The flags, with the length of the path as far as it fits. -/
def flags (version : ℕ) (e : IndexEntry hash) : ℕ :=
  (if e.assumeValid then 0x8000 else 0) + (if (e.more version).isSome then 0x4000 else 0) +
    e.stage.val * 0x1000 + min e.path.length 0x0FFF

/-- The header. -/
def header (version : ℕ) (e : IndexEntry hash) : List UInt8 :=
  e.stat ++ (e.oid ++ toBE 2 (e.flags version))

/-- The bytes of the second word of flags. -/
def moreBytes (version : ℕ) (e : IndexEntry hash) : List UInt8 :=
  match e.more version with
  | some word => toBE 2 word.toNat
  | none => []

end IndexEntry

/-- The length of the front that two paths share. -/
def commonLength : List UInt8 → List UInt8 → ℕ
  | a :: as, b :: bs => if a = b then commonLength as bs + 1 else 0
  | _, _ => 0

/-- An entry without its padding. -/
def encodeEntry {hash : ObjectHash} (version : ℕ) (previous : List UInt8) (e : IndexEntry hash) :
    List UInt8 :=
  if 4 ≤ version then
    let common := commonLength previous e.path
    e.header version ++ (e.moreBytes version ++
      (write (previous.length - common) ++ (e.path.drop common ++ [0])))
  else e.header version ++ (e.moreBytes version ++ (e.path ++ [0]))

/-- Entries one after another. -/
def encodeEntries {hash : ObjectHash} (version : ℕ) : List UInt8 → List (IndexEntry hash) → List UInt8
  | _, [] => []
  | previous, e :: es =>
    encodeEntry version previous e ++
      (List.replicate (padding version (encodeEntry version previous e).length) 0 ++
        encodeEntries version e.path es)

/-- An index, up to the end of its entries. -/
def encodeIndex {hash : ObjectHash} (version : ℕ) (entries : List (IndexEntry hash)) : List UInt8 :=
  SIGNATURE ++ (toBE 4 version ++ (toBE 4 entries.length ++ encodeEntries version [] entries))

lemma commonLength_spec (a b : List UInt8) :
    commonLength a b ≤ a.length ∧ a.take (commonLength a b) = b.take (commonLength a b) := by
  induction a generalizing b with
  | nil => exact ⟨le_rfl, rfl⟩
  | cons x a ih =>
    cases b with
    | nil => exact ⟨Nat.zero_le _, rfl⟩
    | cons y b =>
      rw [commonLength]
      split_ifs with hxy
      · obtain ⟨hle, htake⟩ := ih b
        exact ⟨Nat.succ_le_succ hle, by rw [take_succ_cons, take_succ_cons, htake, hxy]⟩
      · exact ⟨Nat.zero_le _, rfl⟩

/-- The flags of an entry, and what they say. -/
lemma IndexEntry.flags_spec {hash : ObjectHash} (version : ℕ) (e : IndexEntry hash) :
    e.flags version < 2 ^ 16 ∧ (e.flags version).testBit 14 = (e.more version).isSome ∧
      e.flags version % 0x1000 = min e.path.length 0x0FFF := by
  have hstage := e.stage.isLt
  have hmin := Nat.min_le_right e.path.length 0x0FFF
  rw [Nat.testBit_eq_decide_div_mod_eq, flags]
  cases e.assumeValid with
  | true =>
    cases (e.more version).isSome with
    | true =>
      rw [if_pos rfl, if_pos rfl]
      exact ⟨by omega, decide_eq_true (by omega), by omega⟩
    | false =>
      rw [if_pos rfl, if_neg Bool.false_ne_true]
      exact ⟨by omega, decide_eq_false (by omega), by omega⟩
  | false =>
    cases (e.more version).isSome with
    | true =>
      rw [if_neg Bool.false_ne_true, if_pos rfl]
      exact ⟨by omega, decide_eq_true (by omega), by omega⟩
    | false =>
      rw [if_neg Bool.false_ne_true, if_neg Bool.false_ne_true]
      exact ⟨by omega, decide_eq_false (by omega), by omega⟩

/-- The header of an entry with an object id of 20 bytes. -/
lemma IndexEntry.header_spec (version : ℕ) (e : IndexEntry .sha1) :
    (e.header version).length = ENTRY_HEADER ∧ headerFlags (e.header version) = e.flags version ∧
      (e.moreBytes version).length = moreFlags version (headerFlags (e.header version)) := by
  obtain ⟨hlt, hbit, -⟩ := e.flags_spec version
  have hfront : (e.stat ++ e.oid).length = 60 := by
    rw [length_append, e.stat_length, e.oid_length]
    rfl
  have hflags : headerFlags (e.header version) = e.flags version := by
    rw [headerFlags, header, ← append_assoc]
    have hslice := slice_append_left (e.stat ++ e.oid) (toBE 2 (e.flags version)) 0 2
    rw [hfront] at hslice
    rw [hslice, slice, drop_zero, take_of_length_le (length_toBE 2 _).le, ofBE_toBE (by omega)]
  refine ⟨?_, hflags, ?_⟩
  · rw [header, ← append_assoc, length_append, hfront, length_toBE]
    rfl
  · rw [hflags, moreFlags, isExtended, hbit, moreBytes, more]
    by_cases hversion : 3 ≤ version
    · rw [if_pos hversion, decide_eq_true hversion]
      cases e.extended with
      | none => rfl
      | some word => exact length_toBE 2 _
    · rw [if_neg hversion, decide_eq_false hversion]
      rfl

/-- **What Git writes is laid out**, with object ids of 20 bytes. -/
theorem entryLayout_encodeEntry (version : ℕ) (previous : List UInt8) (e : IndexEntry .sha1) :
    EntryLayout version previous e.path (encodeEntry version previous e) := by
  obtain ⟨hlen, hflags, hmore⟩ := e.header_spec version
  obtain ⟨-, -, hnamed⟩ := e.flags_spec version
  rw [encodeEntry]
  split_ifs with hversion
  · obtain ⟨hle, htake⟩ := commonLength_spec previous e.path
    have hpath : e.path = previous.take (previous.length -
        (previous.length - commonLength previous e.path)) ++
          e.path.drop (commonLength previous e.path) := by
      rw [Nat.sub_sub_self hle, htake, take_append_drop]
    have hlayout := @EntryLayout.compressed version previous (e.header version)
      (e.moreBytes version) (e.path.drop (commonLength previous e.path))
      (previous.length - commonLength previous e.path) hversion hlen hmore (Nat.sub_le _ _)
      fun hmem => e.path_nul (mem_of_mem_drop hmem)
    rwa [← hpath] at hlayout
  · refine .full (not_le.mp hversion) hlen hmore ?_
    rw [hflags, hnamed]
    by_cases hlong : e.path.length < 0x0FFF
    · exact .inl ⟨Nat.min_eq_left hlong.le, hlong⟩
    · exact .inr ⟨Nat.min_eq_right (not_lt.mp hlong), e.path_nul⟩

lemma entries_encodeEntries (version : ℕ) (previous : List UInt8)
    (entries : List (IndexEntry .sha1)) (rest : List UInt8) :
    Entries version previous (encodeEntries version previous entries ++ rest)
      (entries.map IndexEntry.path) (encodeEntries version previous entries).length := by
  induction entries generalizing previous with
  | nil => exact .nil
  | cons e entries ih =>
    rw [encodeEntries, map_cons, append_assoc, append_assoc]
    have hrest : Entries version e.path ((replicate
        (padding version (encodeEntry version previous e).length) 0 ++
          (encodeEntries version e.path entries ++ rest)).drop
            (padding version (encodeEntry version previous e).length))
        (entries.map IndexEntry.path) (encodeEntries version e.path entries).length := by
      rw [drop_left' length_replicate]
      exact ih e.path
    have hcons := Entries.cons (entryLayout_encodeEntry version previous e) hrest
    simp only [length_append, length_replicate, add_assoc] at hcons ⊢
    exact hcons

lemma indexLayout_encodeIndex (hge : 2 ≤ version) (hle : version ≤ 4)
    {entries : List (IndexEntry .sha1)} (hcount : entries.length < 2 ^ 32) (rest : List UInt8) :
    IndexLayout (encodeIndex version entries ++ rest) (entries.map IndexEntry.path)
      (encodeIndex version entries).length := by
  refine ⟨version, encodeEntries version [] entries ++ rest,
    (encodeEntries version [] entries).length, hge, hle, by rwa [length_map], ?_,
    entries_encodeEntries version [] entries rest, ?_⟩
  · rw [encodeIndex, length_map]
    simp only [append_assoc]
  · rw [encodeIndex]
    simp only [length_append, length_toBE]
    change 4 + (4 + (4 + _)) = _
    omega

/-! ### Object ids of 32 bytes -/

/-- An entry whose object id is of 32 bytes. -/
def longEntry : IndexEntry .sha256 where
  stat := List.replicate 40 0
  stat_length := by decide
  oid := List.replicate 32 1
  oid_length := by decide
  assumeValid := false
  stage := 0
  extended := none
  path := [0x61]
  path_nul := by decide

/-- The walk does not read it. -/
lemma walkEntries_longEntry (hge : 2 ≤ version) (hle : version ≤ 4) :
    walkEntries (encodeIndex version [longEntry] ++ []) = none := by
  obtain rfl | rfl | rfl : version = 2 ∨ version = 3 ∨ version = 4 := by omega
  · decide +kernel
  · decide +kernel
  · decide +kernel

end Tgrep.GitIndex
