import Tgrep.Data.BigEndian
import Tgrep.Data.Splice
import Tgrep.Data.Utf8
import Tgrep.Trigram

/-!
# The index of a Git repository

The files that Git tracks are read from the index itself: entries one after another, in three
versions, and for a split index the entries of a shared one, of which some are deleted or replaced.

## Main definitions

* `readEntry`, `walkEntries`: the paths of the entries, in order.
* `readEwah`: the positions in a compressed bitmap.
* `extension`, `SplitLink.parse`: the part of an index that links it to a shared one.
* `mergeSplit`, `parseIndexWith`: the files that are tracked.

## Implementation notes

What is visited is the list of the paths, for each caller drops it if the walk fails. The set of
paths is the list of those inserted. Words have 64 bits.
-/

namespace Tgrep.GitIndex

open Splice BigEndian Trigram

/-- Stat data, object id and flags, in front of the path of an entry. -/
def ENTRY_HEADER : ℕ := 62

/-- A checksum at least this long ends an index. -/
def MIN_TRAILER : ℕ := 20

/-- The bytes `DIRC` that an index begins with. -/
def SIGNATURE : List UInt8 := [0x44, 0x49, 0x52, 0x43]

/-- The range of a byte string, if it is within. -/
def getRange (bytes : List UInt8) (start stop : ℕ) : Option (List UInt8) :=
  if start ≤ stop ∧ stop ≤ bytes.length then some (slice bytes start stop) else none

/-- The first NUL from an offset on. -/
def nulFrom (bytes : List UInt8) (start : ℕ) : Option ℕ :=
  ((bytes.drop start).findIdx? (· == 0)).map (start + ·)

/-- The version of an index and the number of its entries. -/
def indexHeader (bytes : List UInt8) : Option (ℕ × ℕ) :=
  if bytes.length < 12 ∨ bytes.take 4 ≠ SIGNATURE then none
  else
    let version := ofBE (slice bytes 4 8)
    if 2 ≤ version ∧ version ≤ 4 then some (version, ofBE (slice bytes 8 12)) else none

/-! ## Entries -/

/-- Go on behind a byte of a number. The product is not checked. -/
def readVarintFrom : List UInt8 → UInt8 → ℕ → ℕ → Option (ℕ × ℕ)
  | [], byte, value, pos => if byte < 0x80 then some (value, pos) else none
  | next :: rest, byte, value, pos =>
    if byte < 0x80 then some (value, pos)
    else if 2 ^ 64 ≤ value + 1 then none
    else
      let shifted := (value + 1) * 2 ^ 7 % 2 ^ 64
      if 2 ^ 64 ≤ shifted + next.toNat % 128 then none
      else readVarintFrom rest next (shifted + next.toNat % 128) (pos + 1)

/-- The number at an offset, and the offset behind it. -/
def readVarint (bytes : List UInt8) (pos : ℕ) : Option (ℕ × ℕ) :=
  match bytes.drop pos with
  | [] => none
  | byte :: rest => readVarintFrom rest byte (byte.toNat % 128) (pos + 1)

/-- Whether there is a second word of flags. -/
def isExtended (version flags : ℕ) : Bool := decide (3 ≤ version) && flags.testBit 14

/-- The path of the entry at an offset, and where the next one begins. -/
def readEntry (bytes : List UInt8) (version pos : ℕ) (previous : List UInt8) :
    Option (List UInt8 × ℕ) :=
  if bytes.length < pos + ENTRY_HEADER then none
  else
    let flags := ofBE (slice bytes (pos + 60) (pos + 62))
    let start := pos + ENTRY_HEADER + if isExtended version flags then 2 else 0
    if bytes.length < start then none
    else if 4 ≤ version then
      match readVarint bytes start with
      | none => none
      | some (strip, next) =>
        if previous.length < strip then none
        else
          match nulFrom bytes next with
          | none => none
          | some stop =>
            some (previous.take (previous.length - strip) ++ slice bytes next stop, stop + 1)
    else
      let named := flags % 0x1000
      let stop :=
        if named < 0x0FFF then
          if bytes[start + named]? = some 0 then some (start + named) else none
        else nulFrom bytes start
      match stop with
      | none => none
      | some stop =>
        match getRange bytes start stop with
        | none => none
        | some path => some (path, pos + (stop + 1 - pos + 7) / 8 * 8)

/-- Walk a number of entries from an offset on. -/
def walkFrom (bytes : List UInt8) (version : ℕ) :
    ℕ → ℕ → List UInt8 → Option (List (List UInt8) × ℕ)
  | 0, pos, _ => some ([], pos)
  | count + 1, pos, previous =>
    match readEntry bytes version pos previous with
    | none => none
    | some (path, next) =>
      (walkFrom bytes version count next path).map fun rest => (path :: rest.1, rest.2)

/-- The paths of the entries of an index, in order, and where they end. -/
def walkEntries (bytes : List UInt8) : Option (List (List UInt8) × ℕ) :=
  match indexHeader bytes with
  | none => none
  | some (version, count) => walkFrom bytes version count 12 []

/-- The number of entries that there is room for. -/
def entryCapacity (bytes : List UInt8) (count : ℕ) : ℕ :=
  min count ((bytes.length - 12) / (ENTRY_HEADER + 1))

/-! ## Bitmaps -/

/-- The length of the bitmap that bytes begin with. -/
def ewahLen (bytes : List UInt8) : Option ℕ :=
  match getRange bytes 4 8 with
  | none => none
  | some words =>
    let len := ofBE words * 8 + 12
    if len ≤ bytes.length then some len else none

/-- The bits of a word that are set, in ascending order. -/
def setBits (word : ℕ) : List ℕ := (List.range 64).filter fun i => word.testBit i

/-- Read the words of a bitmap from a position on, where a number of literal words is left of the
last marker. -/
def readWords (limit : ℕ) (visit : ℕ → Bool) : List ℕ → ℕ → ℕ → Option (List ℕ)
  | [], _, left => if left = 0 then some [] else none
  | marker :: words, position, 0 =>
    let stop := position + (marker >>> 1) % 2 ^ 32 * 64
    if 2 ^ 64 ≤ stop then none
    else if marker.testBit 0 then
      if limit < stop then none
      else if (List.range' position (stop - position)).all visit then
        (readWords limit visit words stop (marker >>> 33)).map
          (List.range' position (stop - position) ++ ·)
      else none
    else readWords limit visit words stop (marker >>> 33)
  | literal :: words, position, left + 1 =>
    let bits := (setBits literal).map (position + ·)
    if bits.all fun bit => decide (bit < 2 ^ 64) && decide (bit < limit) && visit bit then
      if 2 ^ 64 ≤ position + 64 then none
      else (readWords limit visit words (position + 64) left).map (bits ++ ·)
    else none

/-- The positions in a bitmap, which all have to be visited and below a limit. -/
def readEwah (bytes : List UInt8) (limit : ℕ) (visit : ℕ → Bool) : Option (List ℕ) :=
  if bytes = [] then some []
  else
    match ewahLen bytes with
    | none => none
    | some len =>
      let words := (List.range ((len - 12) / 8)).map fun index =>
        ofBE (slice bytes (8 + index * 8) (8 + index * 8 + 8))
      readWords limit visit words 0 0

/-! ## Extensions -/

/-- What links an index to a shared one. -/
structure SplitLink where
  /-- The object id of the shared index. -/
  base : List UInt8
  delete : List UInt8
  replace : List UInt8

/-- Take a link apart that has an object id of a length. -/
def SplitLink.parse (data : List UInt8) (hashLen : ℕ) : Option SplitLink :=
  match getRange data 0 hashLen with
  | none => none
  | some base =>
    let rest := data.drop hashLen
    if rest = [] then some ⟨base, [], []⟩
    else
      match ewahLen rest with
      | none => none
      | some deleteLen =>
        match ewahLen (rest.drop deleteLen) with
        | none => none
        | some replaceLen =>
          if deleteLen + replaceLen ≠ rest.length then none
          else some ⟨base, rest.take deleteLen, rest.drop deleteLen⟩

/-- The data of the first extension of a name, if it leaves room for the checksum. The first number
is how many extensions are looked at. -/
def extensionFrom (bytes signature : List UInt8) : ℕ → ℕ → Option (List UInt8)
  | 0, _ => none
  | fuel + 1, pos =>
    match getRange bytes pos (pos + 8) with
    | none => none
    | some header =>
      let start := pos + 8
      let stop := start + ofBE (header.drop 4)
      if bytes.length < stop + MIN_TRAILER then none
      else if header.take 4 = signature then some (slice bytes start stop)
      else extensionFrom bytes signature fuel stop

/-- The data of the first extension of a name. -/
def extension (bytes : List UInt8) (pos : ℕ) (signature : List UInt8) : Option (List UInt8) :=
  extensionFrom bytes signature (bytes.length + 1) pos

/-! ## Tracked files -/

/-- A path with slashes, none at the ends, and in lower case. -/
def normalise (path : List UInt8) : List UInt8 :=
  let slashes := path.map fun b => if b = 0x5C then 0x2F else b
  (((slashes.dropWhile (· == 0x2F)).reverse.dropWhile (· == 0x2F)).reverse).map toAsciiLowercase

/-- Insert a path, if it is a text. -/
def insertPath (paths : List (List UInt8)) (path : List UInt8) : List (List UInt8) :=
  if Utf8.Valid path then paths ++ [normalise path] else paths

def hexDigit (n : ℕ) : UInt8 := if n < 10 then UInt8.ofNat (0x30 + n) else UInt8.ofNat (0x57 + n)

def hex (bytes : List UInt8) : List UInt8 :=
  bytes.flatMap fun b => [hexDigit (b.toNat / 16), hexDigit (b.toNat % 16)]

/-- The name of the extension that links an index to a shared one. -/
def LINK : List UInt8 := [0x6C, 0x69, 0x6E, 0x6B]

/-- The paths of a split index and its shared one. -/
def mergeSplit (split base : List UInt8) (link : SplitLink) : Option (List (List UInt8)) := do
  if base.length < link.base.length ∨ base.drop (base.length - link.base.length) ≠ link.base then
    none
  let (_, baseCount) ← indexHeader base
  let baseCount := min baseCount (entryCapacity base baseCount)
  let deleted ← readEwah link.delete baseCount fun _ => true
  let replacedAt ← readEwah link.replace baseCount fun position => position ∉ deleted
  let replaced := replacedAt.length
  let (_, splitCount) ← indexHeader split
  if splitCount < replaced then none
  let (basePaths, baseEnd) ← walkEntries base
  let kept := basePaths.zipIdx.filter fun entry => entry.2 < baseCount ∧ entry.2 ∉ deleted
  if (extension base baseEnd LINK).isSome then none
  let (splitPaths, _) ← walkEntries split
  some ((kept.map Prod.fst ++ splitPaths.drop replaced).foldl insertPath [])

/-- Try the object ids of the lengths in order. -/
def linkedPaths (bytes data : List UInt8) (shared : List UInt8 → Option (List UInt8))
    (paths : List (List UInt8)) : List ℕ → Option (List (List UInt8))
  | [] => none
  | hashLen :: hashLens =>
    match SplitLink.parse data hashLen with
    | none => linkedPaths bytes data shared paths hashLens
    | some link =>
      if link.base.all (· == 0) then some (paths.foldl insertPath [])
      else
        match shared (hex link.base) with
        | none => linkedPaths bytes data shared paths hashLens
        | some base => mergeSplit bytes base link

/-- The paths that an index tracks, where a shared one is read by the name of its object id. -/
def parseIndexWith (bytes : List UInt8) (shared : List UInt8 → Option (List UInt8)) :
    Option (List (List UInt8)) :=
  match walkEntries bytes with
  | none => none
  | some (paths, stop) =>
    match extension bytes stop LINK with
    | none => some (paths.foldl insertPath [])
    | some data => linkedPaths bytes data shared paths [20, 32]

end Tgrep.GitIndex
