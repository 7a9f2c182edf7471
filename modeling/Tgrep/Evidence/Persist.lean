import Tgrep.Data.Run
import Tgrep.Evidence
import Tgrep.FileTable

/-!
# Evidence over its life

Evidence is inserted with the read that it was validated around, removed, retained, and stored in
`filestamps.json`. The file has one entry for each stamped path: the stamp, the identity of its text
in hexadecimal digits, and the trusted version in a form of its own. What is malformed, or does not
belong to the stamp, is dropped when the file is read.

## Main definitions

* `Metadata`, `fileVersion`: what a stat says, and the version that is made of it.
* `VersionTime`, `PersistedVersion`: the stored form of a version, with its conversions.
* `ContentId.toHex`, `ContentId.fromHex`: identities as digits.
* `EvidenceJson`: the JSON conversion, with what is relied on in `EvidenceJson.Lawful`.
* `FileEvidence.write`, `FileEvidence.read`: store the evidence, and read it back.
* `EvidenceHistory.step`: the operations on the evidence, with a record of everything that was
  inserted or read.

## Main results

* `FileVersion.decode_persisted`: a trusted version is read back from its stored form.
* `FileEvidence.read_write`: what is read back is what `FileEvidence.persisted` keeps.
* `EvidenceHistory.Tied.step`: each operation keeps the evidence tied to its records.
* `EvidenceHistory.tied_to_stamp`: identities and versions were recorded with the current stamp, and
  storing the evidence and reading it back changes nothing.

## Implementation notes

Times are numbers of nanoseconds. JSON itself is a parameter, because it is not part of the
repository: the conversions of the text of a file, and of the values in it whose shape is not fixed.
The order in which a hash map is walked is an argument of `FileEvidence.write`.
-/

namespace Tgrep

open List FinMap

/-! ## Times and versions -/

/-- The nanoseconds of a second. -/
def NANOS : ℕ := 1000000000

/-- The times that the platform represents: the seconds are a signed 64-bit number. -/
def InTimeRange (t : ℤ) : Prop := -(2 ^ 63 * NANOS : ℤ) ≤ t ∧ t < 2 ^ 63 * NANOS

instance (t : ℤ) : Decidable (InTimeRange t) := inferInstanceAs (Decidable (_ ∧ _))

/-- The whole seconds since the epoch, zero for a time before it. -/
def epochSeconds (t : ℤ) : UInt64 := if 0 ≤ t then UInt64.ofNat (t.toNat / NANOS) else 0

/-- What a stat says about a file. -/
structure Metadata where
  len : UInt64
  modified : Option ℤ
  created : Option ℤ
  dev : UInt64
  ino : UInt64
  ctime : Int64
  ctimeNsec : Int64
  /-- The times are ones that the platform represents. -/
  modified_range : ∀ t, modified = some t → InTimeRange t
  created_range : ∀ t, created = some t → InTimeRange t

/-- The stamp of a file. -/
def fileStamp (m : Metadata) : FileStamp := ⟨(m.modified.map epochSeconds).getD 0, m.len⟩

/-- The version of a file. -/
def fileVersion (m : Metadata) : FileVersion where
  stamp := fileStamp m
  modified := m.modified
  created := m.created
  device := m.dev
  inode := m.ino
  changeSeconds := m.ctime.toInt
  changeNanos := m.ctimeNsec.toInt

/-- The name of the platform. -/
def OS : String := "linux"

/-- A time as it is stored: its distance from the epoch. -/
structure VersionTime where
  beforeEpoch : Bool
  seconds : UInt64
  nanos : UInt32
  deriving DecidableEq

/-- What a Unix stat adds. -/
structure UnixVersion where
  device : UInt64
  inode : UInt64
  changeSeconds : Int64
  changeNanos : Int64
  deriving DecidableEq

/-- A version as it is stored. -/
structure PersistedVersion where
  schema : UInt32
  platform : String
  size : UInt64
  modified : VersionTime
  created : Option VersionTime
  unix : Option UnixVersion
  deriving DecidableEq

/-- The stored form of a time. -/
def VersionTime.ofTime (t : ℤ) : VersionTime where
  beforeEpoch := decide (t < 0)
  seconds := UInt64.ofNat (t.natAbs / NANOS)
  nanos := UInt32.ofNat (t.natAbs % NANOS)

/-- A time, if the platform represents it. -/
def checkedTime (t : ℤ) : Option ℤ := if InTimeRange t then some t else none

/-- The time of a stored form. -/
def VersionTime.decode (v : VersionTime) : Option ℤ :=
  if NANOS ≤ v.nanos.toNat then none
  else
    let duration := v.seconds.toNat * NANOS + v.nanos.toNat
    if v.beforeEpoch then checkedTime (-(duration : ℤ)) else checkedTime duration

/-- The stored form of a version, if it is trusted. -/
def FileVersion.persisted (v : FileVersion) : Option PersistedVersion :=
  if ¬ v.isTrusted then none
  else
    v.modified.map fun modified =>
      { schema := 1
        platform := OS
        size := v.stamp.size
        modified := VersionTime.ofTime modified
        created := v.created.map VersionTime.ofTime
        unix := some
          ⟨v.device, v.inode, Int64.ofInt v.changeSeconds, Int64.ofInt v.changeNanos⟩ }

/-- The birth time of a stored form, which may be unavailable but not malformed. -/
def decodeCreated : Option VersionTime → Option (Option ℤ)
  | none => some none
  | some time => time.decode.map some

/-- The version of a stored form, if it is a trusted one of the stamp. -/
def PersistedVersion.decode (p : PersistedVersion) (stamp : FileStamp) : Option FileVersion :=
  if p.schema ≠ 1 ∨ p.platform ≠ OS ∨ p.size ≠ stamp.size then none
  else
    match p.modified.decode with
    | none => none
    | some modified =>
      if epochSeconds modified ≠ stamp.mtime then none
      else
        match decodeCreated p.created, p.unix with
        | some created, some unix =>
          let version : FileVersion :=
            { stamp, modified := some modified, created, device := unix.device,
              inode := unix.inode, changeSeconds := unix.changeSeconds.toInt,
              changeNanos := unix.changeNanos.toInt }
          if version.isTrusted then some version else none
        | _, _ => none

/-- What every version has, because it is made of a stat or of a stored form. -/
structure FileVersion.Wf (v : FileVersion) : Prop where
  /-- The stamp has the seconds of the modification time. -/
  mtime : ∀ t, v.modified = some t → v.stamp.mtime = epochSeconds t
  modified_range : ∀ t, v.modified = some t → InTimeRange t
  created_range : ∀ t, v.created = some t → InTimeRange t
  changeSeconds : -2 ^ 63 ≤ v.changeSeconds ∧ v.changeSeconds < 2 ^ 63
  changeNanos : -2 ^ 63 ≤ v.changeNanos ∧ v.changeNanos < 2 ^ 63

variable {v : FileVersion} {stamp : FileStamp} {created : Option ℤ}

/-- The range of a signed 64-bit number. -/
lemma int64_range (n : Int64) : -2 ^ 63 ≤ n.toInt ∧ n.toInt < 2 ^ 63 :=
  ⟨n.le_toInt, n.toInt_lt⟩

/-- A version that is made of a stat is well-formed. -/
lemma fileVersion_wf (m : Metadata) : (fileVersion m).Wf where
  mtime t ht := by
    have hmodified : m.modified = some t := ht
    show (m.modified.map epochSeconds).getD 0 = epochSeconds t
    rw [hmodified]
    rfl
  modified_range := m.modified_range
  created_range := m.created_range
  changeSeconds := int64_range _
  changeNanos := int64_range _

/-- A time that is read is one that the platform represents. -/
lemma VersionTime.range_of_decode {v : VersionTime} {t : ℤ} (h : v.decode = some t) :
    InTimeRange t := by
  have hchecked : ∀ u, checkedTime u = some t → InTimeRange t := by
    intro u hu
    unfold checkedTime at hu
    split_ifs at hu with hrange
    exact Option.some.inj hu ▸ hrange
  unfold VersionTime.decode at h
  split_ifs at h
  all_goals exact hchecked _ h

/-- A time is read back from its stored form. -/
lemma VersionTime.decode_ofTime {t : ℤ} (h : InTimeRange t) :
    (VersionTime.ofTime t).decode = some t := by
  obtain ⟨hlow, hhigh⟩ := h
  have hnanosLt : t.natAbs % NANOS < NANOS := Nat.mod_lt _ (by decide)
  have hN : NANOS = 1000000000 := rfl
  have hnanos : (VersionTime.ofTime t).nanos.toNat = t.natAbs % NANOS := by
    show (UInt32.ofNat _).toNat = _
    rw [UInt32.toNat_ofNat']
    exact Nat.mod_eq_of_lt (by omega)
  have hseconds : (VersionTime.ofTime t).seconds.toNat = t.natAbs / NANOS := by
    show (UInt64.ofNat _).toNat = _
    rw [UInt64.toNat_ofNat']
    refine Nat.mod_eq_of_lt ?_
    rw [Nat.div_lt_iff_lt_mul (by decide)]
    omega
  have hsum : t.natAbs / NANOS * NANOS + t.natAbs % NANOS = t.natAbs := Nat.div_add_mod' _ _
  have hrange : InTimeRange t := ⟨hlow, hhigh⟩
  unfold VersionTime.decode
  rw [hnanos, hseconds, if_neg (Nat.not_le.mpr hnanosLt), hsum]
  by_cases hneg : t < 0
  · have hbefore : (VersionTime.ofTime t).beforeEpoch = true := decide_eq_true hneg
    have habs : -(t.natAbs : ℤ) = t := by omega
    simp only [hbefore, if_true, habs, checkedTime, if_pos hrange]
  · have hbefore : (VersionTime.ofTime t).beforeEpoch = false := decide_eq_false hneg
    have habs : (t.natAbs : ℤ) = t := by omega
    simp only [hbefore, Bool.false_eq_true, if_false, habs, checkedTime, if_pos hrange]

/-- The birth time is read back from its stored form. -/
lemma decodeCreated_map (h : ∀ t, created = some t → InTimeRange t) :
    decodeCreated (created.map VersionTime.ofTime) = some created := by
  cases created with
  | none => rfl
  | some t =>
    show (VersionTime.ofTime t).decode.map some = some (some t)
    rw [VersionTime.decode_ofTime (h t rfl)]
    rfl

/-- A trusted version has a modification time. -/
lemma FileVersion.modified_of_trusted (h : v.isTrusted = true) : ∃ t, v.modified = some t := by
  unfold FileVersion.isTrusted at h
  split_ifs at h with hnone
  exact Option.ne_none_iff_exists'.mp fun hmodified => hnone (by rw [hmodified]; rfl)

/-- **A trusted version is read back** from its stored form with its stamp. -/
theorem FileVersion.decode_persisted (hwf : v.Wf) (htrusted : v.isTrusted = true) :
    v.persisted.bind (·.decode v.stamp) = some v := by
  obtain ⟨t, ht⟩ := FileVersion.modified_of_trusted htrusted
  have hmodified := VersionTime.decode_ofTime (hwf.modified_range t ht)
  have hcreated := decodeCreated_map hwf.created_range
  have hseconds : (Int64.ofInt v.changeSeconds).toInt = v.changeSeconds :=
    Int64.toInt_ofInt_of_le hwf.changeSeconds.1 hwf.changeSeconds.2
  have hnanos : (Int64.ofInt v.changeNanos).toInt = v.changeNanos :=
    Int64.toInt_ofInt_of_le hwf.changeNanos.1 hwf.changeNanos.2
  have hsame : (⟨v.stamp, some t, v.created, v.device, v.inode, v.changeSeconds, v.changeNanos⟩ :
      FileVersion) = v := by
    rw [← ht]
  rw [FileVersion.persisted, if_neg (not_not_intro htrusted), ht]
  simp only [Option.map_some, Option.bind_some, PersistedVersion.decode, ne_eq, not_true_eq_false,
    or_self, if_false, hmodified, hcreated, hwf.mtime t ht, hseconds, hnanos, hsame, htrusted,
    if_true]

/-- A version that is read is well-formed. -/
lemma PersistedVersion.decode_wf {p : PersistedVersion} (h : p.decode stamp = some v) : v.Wf := by
  unfold PersistedVersion.decode at h
  split_ifs at h
  split at h
  · cases h
  · rename_i t hmodified
    split_ifs at h with hmtime
    split at h
    · rename_i created unix hcreated _
      simp only at h
      split_ifs at h
      obtain rfl := Option.some.inj h
      refine ⟨fun u hu => ?_, fun u hu => ?_, fun u hu => ?_, int64_range _, int64_range _⟩
      · rw [← Option.some.inj hu]
        exact (not_not.mp hmtime).symm
      · rw [← Option.some.inj hu]
        exact VersionTime.range_of_decode hmodified
      · have hsome : created = some u := hu
        rw [hsome] at hcreated
        cases hc : p.created with
        | none =>
          rw [hc, decodeCreated] at hcreated
          cases hcreated
        | some time =>
          rw [hc, decodeCreated, Option.map_eq_some_iff] at hcreated
          obtain ⟨u', hu', heq⟩ := hcreated
          rw [← Option.some.inj heq]
          exact VersionTime.range_of_decode hu'
    · cases h

/-! ## Identities -/

/-- The identity of a text, a digest of 16 bytes. -/
structure ContentId where
  bytes : List UInt8
  length_bytes : bytes.length = 16
  deriving DecidableEq

namespace ContentId

/-- The digits. -/
def HEX : List Char :=
  ['0', '1', '2', '3', '4', '5', '6', '7', '8', '9', 'a', 'b', 'c', 'd', 'e', 'f']

/-- The digits of a byte. -/
def hexPair (byte : UInt8) : List Char :=
  [HEX.getD (byte >>> 4).toNat '0', HEX.getD (byte &&& 0xf).toNat '0']

/-- An identity as digits. -/
def toHex (id : ContentId) : String := String.ofList (id.bytes.flatMap hexPair)

/-- The value of a digit. -/
def hexDigit (digit : UInt8) : Option UInt8 :=
  if 48 ≤ digit ∧ digit ≤ 57 then some (digit - 48)
  else if 97 ≤ digit ∧ digit ≤ 102 then some (digit - 97 + 10)
  else none

/-- The bytes of pairs of digits. -/
def fromDigits : List UInt8 → Option (List UInt8)
  | high :: low :: rest =>
    match hexDigit high, hexDigit low, fromDigits rest with
    | some high, some low, some bytes => some ((high <<< 4 ||| low) :: bytes)
    | _, _, _ => none
  | _ => some []

/-- The identity of digits. -/
def fromHex (value : String) : Option ContentId :=
  if (pathBytes value).length ≠ 32 then none
  else
    (fromDigits (pathBytes value)).bind fun bytes =>
      if h : bytes.length = 16 then some ⟨bytes, h⟩ else none

/-- The byte of the digit for a value. -/
def digitByte (n : ℕ) : UInt8 := UInt8.ofNat (HEX.getD n '0').toNat

/-- A digit is one byte, and has its value. -/
lemma hexDigit_digitByte {n : ℕ} (h : n < 16) :
    String.utf8EncodeChar (HEX.getD n '0') = [digitByte n] ∧
      hexDigit (digitByte n) = some (UInt8.ofNat n) := by
  have hall : ∀ n : Fin 16, String.utf8EncodeChar (HEX.getD n.val '0') = [digitByte n.val] ∧
      hexDigit (digitByte n.val) = some (UInt8.ofNat n.val) := by decide
  exact hall ⟨n, h⟩

/-- A byte is its two halves. -/
lemma halves (byte : UInt8) : (byte >>> 4) <<< 4 ||| byte &&& 0xf = byte := by
  have hall : ∀ b : BitVec 8, (b >>> 4) <<< 4 ||| b &&& 15 = b := by decide +kernel
  exact UInt8.toBitVec_inj.mp (hall byte.toBitVec)

/-- The digits of a byte have that byte. -/
lemma fromDigits_hexPair (byte : UInt8) (rest : List UInt8) :
    ∃ high low, (hexPair byte).flatMap String.utf8EncodeChar = [high, low] ∧
      fromDigits (high :: low :: rest) = (fromDigits rest).map (byte :: ·) := by
  have hhigh : (byte >>> 4).toNat < 16 := by
    have hlt := byte.toNat_lt
    have hshift : (byte >>> 4).toNat = byte.toNat / 2 ^ 4 := by
      rw [UInt8.toNat_shiftRight]
      exact Nat.shiftRight_eq_div_pow _ _
    omega
  have hlow : (byte &&& 0xf).toNat < 16 := by
    rw [UInt8.toNat_and]
    exact Nat.lt_succ_of_le Nat.and_le_right
  obtain ⟨hhighBytes, hhighValue⟩ := hexDigit_digitByte hhigh
  obtain ⟨hlowBytes, hlowValue⟩ := hexDigit_digitByte hlow
  refine ⟨digitByte (byte >>> 4).toNat, digitByte (byte &&& 0xf).toNat, ?_, ?_⟩
  · simp only [hexPair, flatMap_cons, flatMap_nil, hhighBytes, hlowBytes, cons_append, nil_append]
  · rw [fromDigits, hhighValue, hlowValue, UInt8.ofNat_toNat, UInt8.ofNat_toNat]
    cases fromDigits rest with
    | none => rfl
    | some bytes => exact congrArg (fun b => some (b :: bytes)) (halves byte)

/-- An identity is read back from its digits. -/
lemma fromHex_toHex (id : ContentId) : fromHex id.toHex = some id := by
  have hdigits : ∀ bytes : List UInt8,
      ((bytes.flatMap hexPair).flatMap String.utf8EncodeChar).length = 2 * bytes.length ∧
        fromDigits ((bytes.flatMap hexPair).flatMap String.utf8EncodeChar) = some bytes := by
    intro bytes
    induction bytes with
    | nil => exact ⟨rfl, rfl⟩
    | cons byte bytes ih =>
      obtain ⟨hlen, hbytes⟩ := ih
      obtain ⟨high, low, hpair, hdecode⟩ := fromDigits_hexPair byte
        ((bytes.flatMap hexPair).flatMap String.utf8EncodeChar)
      rw [flatMap_cons, flatMap_append, hpair]
      refine ⟨?_, ?_⟩
      · rw [length_append, hlen, length_cons, length_cons, length_cons, length_nil]
        omega
      · rw [cons_append, cons_append, nil_append, hdecode, hbytes]
        rfl
  have htext : pathBytes id.toHex = (id.bytes.flatMap hexPair).flatMap String.utf8EncodeChar := by
    simp [pathBytes, toHex, utf8Encode]
  obtain ⟨hlen, hbytes⟩ := hdigits id.bytes
  rw [id.length_bytes] at hlen
  rw [fromHex, htext, if_neg (not_not_intro hlen), hbytes, Option.bind_some,
    dif_pos id.length_bytes]

end ContentId

/-! ## The file -/

/-- An entry of a file, as it is read: the shapes of the identity and the version are not fixed. -/
structure EvidenceEntry (J : Type) where
  mtime : UInt64
  size : UInt64
  c : Option J
  v : Option J
  deriving DecidableEq

/-- An entry of a file, as it is written. -/
structure EvidenceEntryRef where
  mtime : UInt64
  size : UInt64
  c : Option String
  v : Option PersistedVersion
  deriving DecidableEq

/-- The JSON conversions, with JSON values of type `J`. -/
structure EvidenceJson (J : Type) where
  /-- The string that a value is, if it is one. -/
  asStr : J → Option String
  /-- The stored version that a value is, if it is one. -/
  toVersion : J → Option PersistedVersion
  /-- The text of entries. -/
  toText : List (String × EvidenceEntryRef) → Except String String
  /-- The entries of a text, in the order in which the hash map of them is walked. -/
  fromText : String → Except String (List (String × EvidenceEntry J))

namespace EvidenceJson

variable {J : Type}

/-- An entry that is read says what one that is written says. -/
structure Reads (json : EvidenceJson J) (ref : String × EvidenceEntryRef)
    (entry : String × EvidenceEntry J) : Prop where
  path : entry.1 = ref.1
  mtime : entry.2.mtime = ref.2.mtime
  size : entry.2.size = ref.2.size
  c : entry.2.c.bind json.asStr = ref.2.c
  v : entry.2.v.bind json.toVersion = ref.2.v

/-- What is relied on: no path is read twice, and the text of entries is read as these entries, in
any order. -/
structure Lawful (json : EvidenceJson J) : Prop where
  nodup : ∀ text entries, json.fromText text = .ok entries → (entries.map Prod.fst).Nodup
  roundTrip : ∀ refs text, (refs.map Prod.fst).Nodup → json.toText refs = .ok text →
    ∃ entries, json.fromText text = .ok entries ∧
      (∀ ref ∈ refs, ∃ entry ∈ entries, json.Reads ref entry) ∧
      ∀ entry ∈ entries, ∃ ref ∈ refs, json.Reads ref entry

end EvidenceJson

/-- What was recorded of a path: the arguments of one insertion. -/
structure EvidenceRecord where
  path : String
  stamp : FileStamp
  contentId : Option ContentId
  version : Option FileVersion

/-- The version of a record that is kept: a trusted one of the stamp. -/
def EvidenceRecord.kept (r : EvidenceRecord) : Option FileVersion :=
  r.version.filter fun v => v.isTrusted && decide (v.stamp = r.stamp)

/-- What an entry that is read records. -/
def entryRecord {J : Type} (json : EvidenceJson J) (entry : String × EvidenceEntry J) :
    EvidenceRecord :=
  let stamp : FileStamp := ⟨entry.2.mtime, entry.2.size⟩
  { path := entry.1
    stamp
    contentId := (entry.2.c.bind json.asStr).bind ContentId.fromHex
    version := (entry.2.v.bind json.toVersion).bind (·.decode stamp) }

namespace FileEvidence

variable {J : Type} {json : EvidenceJson J} {e : FileEvidence ContentId}

/-- Insert what was recorded. -/
def insertRecord (e : FileEvidence ContentId) (r : EvidenceRecord) : FileEvidence ContentId :=
  e.insertVerified r.path r.stamp r.contentId r.version

/-- The digits of the identities of stamped paths. -/
def encodedIds (e : FileEvidence ContentId) : FinMap String String :=
  e.contentIds.filterMap fun path id => if e.stamps.contains path then some id.toHex else none

/-- The entries to write. -/
def entryRefs (e : FileEvidence ContentId) : FinMap String EvidenceEntryRef :=
  e.stamps.filterMap fun path stamp =>
    some ⟨stamp.mtime, stamp.size, e.encodedIds.get? path,
      (e.version path).bind FileVersion.persisted⟩

/-- The entries to write, in the order of some paths. -/
def orderedRefs (e : FileEvidence ContentId) (order : List String) :
    List (String × EvidenceEntryRef) :=
  order.filterMap fun path => (e.entryRefs.get? path).map (path, ·)

/-- The text of the file, with its entries in the order of the paths. -/
def write (json : EvidenceJson J) (e : FileEvidence ContentId) (order : List String) :
    Except String String :=
  json.toText (e.orderedRefs order)

/-- What a file records. -/
def readRecords (json : EvidenceJson J) : Option String → Except String (List EvidenceRecord)
  | none => .ok []
  | some text =>
    match json.fromText text with
    | .error e => .error e
    | .ok entries => .ok (entries.map (entryRecord json))

/-- The evidence of a file, which may be missing. -/
def read (json : EvidenceJson J) (file : Option String) :
    Except String (FileEvidence ContentId) :=
  match readRecords json file with
  | .error e => .error e
  | .ok records => .ok (records.foldl insertRecord empty)

/-! ### Reading -/

/-- What the maps have after the insertion of a record. -/
lemma insertRecord_get? (e : FileEvidence ContentId) (r : EvidenceRecord) (path : String) :
    (e.insertRecord r).stamps.get? path =
        (if path = r.path then some r.stamp else e.stamps.get? path) ∧
      (e.insertRecord r).contentIds.get? path =
        (if path = r.path then r.contentId else e.contentIds.get? path) ∧
      (e.insertRecord r).versions.get? path =
        (if path = r.path then r.kept else e.versions.get? path) := by
  simp only [insertRecord, insertVerified, get?_insert, get?_alter, EvidenceRecord.kept, and_self]

variable {order : List String} {path : String}

/-- Records of other paths leave a path alone. -/
lemma foldl_insertRecord_of_notMem {records : List EvidenceRecord}
    (h : ∀ r ∈ records, r.path ≠ path) (e : FileEvidence ContentId) :
    (records.foldl insertRecord e).stamps.get? path = e.stamps.get? path ∧
      (records.foldl insertRecord e).contentIds.get? path = e.contentIds.get? path ∧
      (records.foldl insertRecord e).versions.get? path = e.versions.get? path := by
  induction records generalizing e with
  | nil => exact ⟨rfl, rfl, rfl⟩
  | cons r records ih =>
    obtain ⟨hr, hrecords⟩ := forall_mem_cons.mp h
    obtain ⟨hstamp, hid, hversion⟩ := e.insertRecord_get? r path
    rw [if_neg hr.symm] at hstamp hid hversion
    have := ih hrecords (e.insertRecord r)
    rwa [hstamp, hid, hversion] at this

/-- After records of distinct paths, a path has what its record says. -/
lemma foldl_insertRecord_of_mem {records : List EvidenceRecord}
    (hnodup : (records.map EvidenceRecord.path).Nodup) {r : EvidenceRecord} (hr : r ∈ records)
    (e : FileEvidence ContentId) :
    (records.foldl insertRecord e).stamps.get? r.path = some r.stamp ∧
      (records.foldl insertRecord e).contentIds.get? r.path = r.contentId ∧
      (records.foldl insertRecord e).versions.get? r.path = r.kept := by
  induction records generalizing e with
  | nil => simp at hr
  | cons a records ih =>
    rw [map_cons, nodup_cons] at hnodup
    rw [foldl_cons]
    rcases mem_cons.mp hr with rfl | hmem
    · have hother : ∀ b ∈ records, b.path ≠ r.path := fun b hb heq =>
        hnodup.1 (mem_map.mpr ⟨b, hb, heq⟩)
      obtain ⟨hstamp, hid, hversion⟩ := e.insertRecord_get? r r.path
      rw [if_pos rfl] at hstamp hid hversion
      have := foldl_insertRecord_of_notMem hother (e.insertRecord r)
      rwa [hstamp, hid, hversion] at this
    · exact ih hnodup.2 hmem _

/-! ### Writing and reading back -/

/-- Every version that is held is well-formed. -/
def VersionsWf (e : FileEvidence ContentId) : Prop :=
  ∀ path v, e.versions.get? path = some v → v.Wf

/-- The entries are those of the stamped paths among the given ones. -/
lemma mem_orderedRefs {ref : EvidenceEntryRef} :
    (path, ref) ∈ e.orderedRefs order ↔
      path ∈ order ∧ ∃ stamp, e.stamps.get? path = some stamp ∧
        ref = ⟨stamp.mtime, stamp.size, e.encodedIds.get? path,
          (e.version path).bind FileVersion.persisted⟩ := by
  rw [orderedRefs, mem_filterMap]
  constructor
  · rintro ⟨path', hmem, hsome⟩
    rw [Option.map_eq_some_iff] at hsome
    obtain ⟨ref', href, heq⟩ := hsome
    obtain ⟨rfl, rfl⟩ := Prod.mk.inj heq
    rw [entryRefs, get?_filterMap, Option.bind_eq_some_iff] at href
    obtain ⟨stamp, hstamp, hsame⟩ := href
    exact ⟨hmem, stamp, hstamp, (Option.some.inj hsame).symm⟩
  · rintro ⟨hmem, stamp, hstamp, rfl⟩
    refine ⟨path, hmem, ?_⟩
    rw [entryRefs, get?_filterMap, hstamp]
    rfl

/-- No path has two entries. -/
lemma nodup_orderedRefs (h : order.Nodup) : ((e.orderedRefs order).map Prod.fst).Nodup := by
  have hsub : ((e.orderedRefs order).map Prod.fst).Sublist order := by
    rw [orderedRefs, map_filterMap]
    have hmap : ∀ path, Option.map Prod.fst ((e.entryRefs.get? path).map (path, ·)) =
        if (e.entryRefs.get? path).isSome then some path else none := by
      intro path
      cases e.entryRefs.get? path <;> rfl
    rw [funext hmap]
    induction order with
    | nil => exact List.Sublist.slnil
    | cons path order ih =>
      rw [filterMap_cons]
      split
      · exact (ih h.of_cons).cons path
      · rename_i b hb
        split_ifs at hb
        obtain rfl := Option.some.inj hb
        exact (ih h.of_cons).cons_cons path
  exact hsub.nodup h

/-- An entry that is read records what the evidence has of its path. -/
lemma entryRecord_of_reads {entry : String × EvidenceEntry J}
    (hwf : e.VersionsWf) (hstamp : e.stamps.get? path = some stamp)
    (h : json.Reads (path, ⟨stamp.mtime, stamp.size, e.encodedIds.get? path,
      (e.version path).bind FileVersion.persisted⟩) entry) :
    entryRecord json entry = ⟨path, stamp, e.contentIds.get? path, e.version path⟩ := by
  have hsame : (⟨entry.2.mtime, entry.2.size⟩ : FileStamp) = stamp := by
    rw [h.mtime, h.size]
  have hid : (entry.2.c.bind json.asStr).bind ContentId.fromHex = e.contentIds.get? path := by
    have hcontains : e.stamps.contains path = true := by rw [FinMap.contains, hstamp]; rfl
    rw [h.c, encodedIds, get?_filterMap]
    cases e.contentIds.get? path with
    | none => rfl
    | some id =>
      rw [Option.bind_some, if_pos hcontains, Option.bind_some]
      exact ContentId.fromHex_toHex id
  have hversion : (entry.2.v.bind json.toVersion).bind (·.decode stamp) = e.version path := by
    rw [h.v]
    cases hv : e.version path with
    | none => rfl
    | some v =>
      rw [version, Option.filter_eq_some_iff, Bool.and_eq_true, decide_eq_true_iff] at hv
      obtain ⟨hget, htrusted, hown⟩ := hv
      obtain rfl : stamp = v.stamp := by
        rw [FileEvidence.stamp, hstamp] at hown
        exact Option.some.inj hown
      exact FileVersion.decode_persisted (hwf path v hget) htrusted
  rw [entryRecord, hsame, hid, hversion, h.path]

/-- What is returned as a version is what is held, if it is trusted and has the stamp. -/
lemma version_eq_some : e.version path = some v ↔
      e.versions.get? path = some v ∧ v.isTrusted = true ∧ e.stamps.get? path = some v.stamp := by
  rw [version, Option.filter_eq_some_iff, Bool.and_eq_true, decide_eq_true_iff]
  exact Iff.rfl

/-- What is stored of the maps. -/
lemma persisted_get? (e : FileEvidence ContentId) (path : String) :
    e.persisted.contentIds.get? path =
        (if e.stamps.contains path then e.contentIds.get? path else none) ∧
      e.persisted.versions.get? path = e.version path := by
  constructor
  · show ((e.contentIds.filter fun path _ => e.stamps.contains path).get? path) = _
    rw [FinMap.filter, get?_filterMap]
    cases e.contentIds.get? path with
    | none => exact (ite_self _).symm
    | some id => rfl
  · refine Option.ext fun v => ?_
    show (e.versions.filter fun path v => decide (e.version path = some v)).get? path = some v ↔ _
    rw [get?_filter_eq_some, decide_eq_true_iff]
    exact ⟨fun h => h.2, fun h => ⟨(version_eq_some.mp h).1, h⟩⟩

/-- A version that is returned is kept. -/
lemma filter_version (hstamp : e.stamps.get? path = some stamp) :
    (e.version path).filter (fun v => v.isTrusted && decide (v.stamp = stamp)) =
      e.version path := by
  cases hv : e.version path with
  | none => rfl
  | some v =>
    obtain ⟨-, htrusted, hown⟩ := version_eq_some.mp hv
    have hsame : v.stamp = stamp := Option.some.inj (hown.symm.trans hstamp)
    rw [Option.filter_some, htrusted, decide_eq_true hsame]
    rfl

/-- **What is read back is what `FileEvidence.persisted` keeps**, in whatever order the entries are
written. -/
theorem read_write (hjson : json.Lawful) (hwf : e.VersionsWf) (hnodup : order.Nodup)
    (horder : ∀ path, path ∈ order ↔ path ∈ e.stamps.keys) {text : String}
    (h : e.write json order = .ok text) : read json (some text) = .ok e.persisted := by
  obtain ⟨entries, htext, hleft, hright⟩ := hjson.roundTrip _ _ (nodup_orderedRefs hnodup) h
  have hpaths : ((entries.map (entryRecord json)).map EvidenceRecord.path).Nodup := by
    rw [map_map]
    exact hjson.nodup text entries htext
  -- each entry is that of a stamped path, and each stamped path has one
  have hof : ∀ r ∈ entries.map (entryRecord json), ∃ stamp,
      e.stamps.get? r.path = some stamp := by
    intro r hr
    obtain ⟨entry, hentry, rfl⟩ := mem_map.mp hr
    obtain ⟨ref, href, hread⟩ := hright entry hentry
    obtain ⟨-, stamp, hstamp, -⟩ := mem_orderedRefs.mp href
    have hpath : (entryRecord json entry).path = ref.1 := hread.path
    exact ⟨stamp, by rw [hpath]; exact hstamp⟩
  have hto : ∀ path stamp, e.stamps.get? path = some stamp →
      (⟨path, stamp, e.contentIds.get? path, e.version path⟩ : EvidenceRecord) ∈
        entries.map (entryRecord json) := by
    intro path stamp hstamp
    obtain ⟨entry, hentry, hread⟩ := hleft _ (mem_orderedRefs.mpr
      ⟨(horder path).mpr (mem_keys_of_get? hstamp), stamp, hstamp, rfl⟩)
    exact mem_map.mpr ⟨entry, hentry, entryRecord_of_reads hwf hstamp hread⟩
  have hlookups : ∀ path,
      ((entries.map (entryRecord json)).foldl insertRecord empty).stamps.get? path =
          e.persisted.stamps.get? path ∧
        ((entries.map (entryRecord json)).foldl insertRecord empty).contentIds.get? path =
          e.persisted.contentIds.get? path ∧
        ((entries.map (entryRecord json)).foldl insertRecord empty).versions.get? path =
          e.persisted.versions.get? path := by
    intro path
    obtain ⟨hids, hversions⟩ := e.persisted_get? path
    rw [hids, hversions, FinMap.contains]
    show _ = e.stamps.get? path ∧ _
    cases hstamp : e.stamps.get? path with
    | some stamp =>
      have hkept : EvidenceRecord.kept ⟨path, stamp, e.contentIds.get? path, e.version path⟩ =
          e.version path := filter_version hstamp
      have := foldl_insertRecord_of_mem hpaths (hto path stamp hstamp) empty
      rwa [hkept] at this
    | none =>
      have hnone : e.version path = none := by
        cases hv : e.version path with
        | none => rfl
        | some v => exact absurd ((version_eq_some.mp hv).2.2.symm.trans hstamp) (by simp)
      rw [hnone]
      refine foldl_insertRecord_of_notMem (fun r hr heq => ?_) empty
      obtain ⟨stamp, hsome⟩ := hof r hr
      rw [heq, hstamp] at hsome
      cases hsome
  have hevidence : (entries.map (entryRecord json)).foldl insertRecord empty = e.persisted := by
    rw [FileEvidence.mk.injEq]
    exact ⟨ext_get? fun path => (hlookups path).1, ext_get? fun path => (hlookups path).2.1,
      ext_get? fun path => (hlookups path).2.2⟩
  rw [read, readRecords, htext]
  exact congrArg Except.ok hevidence

end FileEvidence

/-! ## The operations -/

/-- The evidence, with everything that was inserted or read since the start. -/
structure EvidenceHistory where
  evidence : FileEvidence ContentId
  records : List EvidenceRecord

namespace EvidenceHistory

open FileEvidence

/-- The operations. -/
inductive Event
  | insertVerified (r : EvidenceRecord)
  | remove (path : String)
  | retain (keep : String → FileStamp → Bool)
  /-- Replace the evidence by that of a file, if it can be read. -/
  | load (file : Option String)

variable {J : Type} {json : EvidenceJson J}

/-- No evidence. -/
def init : EvidenceHistory := ⟨FileEvidence.empty, []⟩

/-- One operation. -/
def step (json : EvidenceJson J) (s : EvidenceHistory) : Event → EvidenceHistory
  | .insertVerified r => ⟨s.evidence.insertRecord r, s.records ++ [r]⟩
  | .remove path => { s with evidence := s.evidence.remove path }
  | .retain keep => { s with evidence := s.evidence.retain keep }
  | .load file =>
    match readRecords json file with
    | .error _ => s
    | .ok records => ⟨records.foldl insertRecord FileEvidence.empty, s.records ++ records⟩

/-- A version that is inserted was made of a stat or of a stored form. -/
def Allowed (_ : EvidenceHistory) : Event → Prop
  | .insertVerified r => ∀ v, r.version = some v → v.Wf
  | _ => True

/-- The evidence is tied to its records: what a stamped path has was recorded together with its
stamp, and other paths have nothing. -/
structure Tied (s : EvidenceHistory) : Prop where
  stamped : ∀ path stamp, s.evidence.stamps.get? path = some stamp →
    ∃ r ∈ s.records, r.path = path ∧ r.stamp = stamp ∧
      s.evidence.contentIds.get? path = r.contentId ∧ s.evidence.versions.get? path = r.kept
  unstamped : ∀ path, s.evidence.stamps.get? path = none →
    s.evidence.contentIds.get? path = none ∧ s.evidence.versions.get? path = none
  wf : s.evidence.VersionsWf

/-- What is kept of a record is its version. -/
lemma version_of_kept {r : EvidenceRecord} (h : r.kept = some v) :
    r.version = some v ∧ v.isTrusted = true ∧ v.stamp = r.stamp := by
  rw [EvidenceRecord.kept, Option.filter_eq_some_iff, Bool.and_eq_true, decide_eq_true_iff] at h
  exact h

variable {s : EvidenceHistory}

/-- An insertion ties its path to the new record. -/
lemma Tied.insert (h : s.Tied) {r : EvidenceRecord} (hwf : ∀ v, r.version = some v → v.Wf) :
    (⟨s.evidence.insertRecord r, s.records ++ [r]⟩ : EvidenceHistory).Tied := by
  refine ⟨fun path stamp hstamp => ?_, fun path hnone => ?_, fun path v hv => ?_⟩
  all_goals
    obtain ⟨hs, hid, hversion⟩ := s.evidence.insertRecord_get? r path
    dsimp only at *
  · rw [hs] at hstamp
    rw [hid, hversion]
    split_ifs at hstamp ⊢ with hpath
    · exact ⟨r, by simp, hpath.symm, Option.some.inj hstamp, rfl, rfl⟩
    · obtain ⟨r', hr', hrest⟩ := h.stamped path stamp hstamp
      exact ⟨r', mem_append_left _ hr', hrest⟩
  · rw [hs] at hnone
    rw [hid, hversion]
    split_ifs at hnone ⊢ with hpath
    exact h.unstamped path hnone
  · rw [hversion] at hv
    split_ifs at hv with hpath
    · exact hwf v (version_of_kept hv).1
    · exact h.wf path v hv

/-- A path that is removed has nothing, and the others keep what they have. -/
lemma Tied.remove (h : s.Tied) (path : String) :
    ({ s with evidence := s.evidence.remove path } : EvidenceHistory).Tied := by
  have hget : ∀ p, (s.evidence.remove path).stamps.get? p =
        (if p = path then none else s.evidence.stamps.get? p) ∧
      (s.evidence.remove path).contentIds.get? p =
        (if p = path then none else s.evidence.contentIds.get? p) ∧
      (s.evidence.remove path).versions.get? p =
        (if p = path then none else s.evidence.versions.get? p) := fun p =>
    ⟨get?_erase _ _ _, get?_erase _ _ _, get?_erase _ _ _⟩
  refine ⟨fun p stamp hstamp => ?_, fun p hnone => ?_, fun p v hv => ?_⟩
  all_goals
    obtain ⟨hs, hid, hversion⟩ := hget p
    dsimp only at *
  · rw [hs] at hstamp
    rw [hid, hversion]
    split_ifs at hstamp ⊢
    exact h.stamped p stamp hstamp
  · rw [hs] at hnone
    rw [hid, hversion]
    split_ifs at hnone ⊢
    · exact ⟨rfl, rfl⟩
    · exact h.unstamped p hnone
  · rw [hversion] at hv
    split_ifs at hv
    exact h.wf p v hv

/-- A path whose stamp is kept keeps what it has. -/
lemma Tied.retain (h : s.Tied) (keep : String → FileStamp → Bool) :
    ({ s with evidence := s.evidence.retain keep } : EvidenceHistory).Tied := by
  refine ⟨fun path stamp hstamp => ?_, fun path hnone => ?_, fun path v hv => ?_⟩
  · have hkept : (s.evidence.stamps.filter keep).get? path = some stamp := hstamp
    obtain ⟨r, hr, hpath, hown, hid, hversion⟩ :=
      h.stamped path stamp (FinMap.get?_filter_eq_some.mp hkept).1
    refine ⟨r, hr, hpath, hown, ?_, ?_⟩
    · rw [← hid]
      refine Option.ext fun id => ?_
      show (s.evidence.contentIds.filter fun path _ =>
        (s.evidence.stamps.filter keep).contains path).get? path = some id ↔ _
      rw [get?_filter_eq_some, FinMap.contains, hkept]
      exact and_iff_left rfl
    · rw [← hversion]
      refine Option.ext fun v => ?_
      show (s.evidence.versions.filter fun path v =>
        decide ((s.evidence.stamps.filter keep).get? path = some v.stamp)).get? path = some v ↔ _
      rw [get?_filter_eq_some, hkept, decide_eq_true_iff]
      refine and_iff_left_of_imp fun hv => ?_
      rw [hversion] at hv
      rw [(version_of_kept hv).2.2, hown]
  · have hgone : (s.evidence.stamps.filter keep).get? path = none := hnone
    constructor
    · refine Option.eq_none_iff_forall_ne_some.mpr fun id hid => ?_
      have hboth := FinMap.get?_filter_eq_some.mp hid
      rw [FinMap.contains, hgone] at hboth
      cases hboth.2
    · refine Option.eq_none_iff_forall_ne_some.mpr fun v hv => ?_
      have hboth := FinMap.get?_filter_eq_some.mp hv
      rw [hgone] at hboth
      simp at hboth
  · exact h.wf path v (FinMap.get?_filter_eq_some.mp hv).1

/-- What a file records has distinct paths, and its versions are well-formed. -/
lemma readRecords_spec (hjson : json.Lawful) {file : Option String} {records : List EvidenceRecord}
    (h : readRecords json file = .ok records) :
    (records.map EvidenceRecord.path).Nodup ∧ ∀ r ∈ records, ∀ v, r.version = some v → v.Wf := by
  cases file with
  | none =>
    obtain rfl := Except.ok.inj h
    exact ⟨nodup_nil, by simp⟩
  | some text =>
    rw [readRecords] at h
    split at h
    · cases h
    · rename_i entries htext
      obtain rfl := Except.ok.inj h
      constructor
      · rw [map_map]
        exact hjson.nodup text entries htext
      · intro r hr v hv
        obtain ⟨entry, -, rfl⟩ := mem_map.mp hr
        obtain ⟨p, -, hp⟩ := Option.bind_eq_some_iff.mp hv
        exact PersistedVersion.decode_wf hp

/-- What is read is tied to what the file records. -/
lemma Tied.load {records : List EvidenceRecord} (hnodup : (records.map EvidenceRecord.path).Nodup)
    (hwf : ∀ r ∈ records, ∀ v, r.version = some v → v.Wf) (before : List EvidenceRecord) :
    (⟨records.foldl insertRecord FileEvidence.empty, before ++ records⟩ : EvidenceHistory).Tied := by
  have hcases : ∀ path, (∃ r ∈ records, r.path = path) ∨ ∀ r ∈ records, r.path ≠ path := by
    intro path
    by_cases hex : ∃ r ∈ records, r.path = path
    · exact .inl hex
    · exact .inr fun r hr heq => hex ⟨r, hr, heq⟩
  refine ⟨fun path stamp hstamp => ?_, fun path hnone => ?_, fun path v hv => ?_⟩
  all_goals
    dsimp only at *
    rcases hcases path with ⟨r, hr, rfl⟩ | hother
  · obtain ⟨hs, hid, hversion⟩ := foldl_insertRecord_of_mem hnodup hr FileEvidence.empty
    exact ⟨r, mem_append_right _ hr, rfl, Option.some.inj (hs.symm.trans hstamp), hid, hversion⟩
  · obtain ⟨hs, -, -⟩ := foldl_insertRecord_of_notMem hother FileEvidence.empty
    cases hs.symm.trans hstamp
  · obtain ⟨hs, -, -⟩ := foldl_insertRecord_of_mem hnodup hr FileEvidence.empty
    cases hs.symm.trans hnone
  · obtain ⟨-, hid, hversion⟩ := foldl_insertRecord_of_notMem hother FileEvidence.empty
    exact ⟨hid, hversion⟩
  · obtain ⟨-, -, hversion⟩ := foldl_insertRecord_of_mem hnodup hr FileEvidence.empty
    exact hwf r hr v (version_of_kept (hversion.symm.trans hv)).1
  · obtain ⟨-, -, hversion⟩ := foldl_insertRecord_of_notMem hother FileEvidence.empty
    cases hversion.symm.trans hv

/-- **Each operation keeps the evidence tied to its records.** -/
lemma Tied.step (hjson : json.Lawful) (h : s.Tied) {event : Event} (hallowed : Allowed s event) :
    (step json s event).Tied := by
  cases event with
  | insertVerified r => exact h.insert hallowed
  | remove path => exact h.remove path
  | retain keep => exact h.retain keep
  | load file =>
    rw [EvidenceHistory.step]
    cases hread : readRecords json file with
    | error e => exact h
    | ok records =>
      obtain ⟨hnodup, hwf⟩ := readRecords_spec hjson hread
      exact Tied.load hnodup hwf s.records

/-- A version that is returned is what was kept of the record. -/
lemma Tied.version_eq (h : s.Tied) {path : String}
    (hstamp : s.evidence.stamps.get? path = some stamp) :
    s.evidence.version path = s.evidence.versions.get? path := by
  obtain ⟨r, -, -, hown, -, hversion⟩ := h.stamped path stamp hstamp
  refine Option.ext fun v => ?_
  rw [version_eq_some]
  refine and_iff_left_of_imp fun hv => ?_
  rw [hversion] at hv
  obtain ⟨-, htrusted, hsame⟩ := version_of_kept hv
  exact ⟨htrusted, by rw [hstamp, hsame, hown]⟩

/-- Evidence that is tied to its records is stored as it is. -/
lemma Tied.persisted_eq (h : s.Tied) : s.evidence.persisted = s.evidence := by
  rw [FileEvidence.mk.injEq]
  refine ⟨rfl, ext_get? fun path => ?_, ext_get? fun path => ?_⟩
  · rw [(s.evidence.persisted_get? path).1, FinMap.contains]
    cases hstamp : s.evidence.stamps.get? path with
    | some stamp => rfl
    | none => exact (h.unstamped path hstamp).1.symm
  · rw [(s.evidence.persisted_get? path).2]
    cases hstamp : s.evidence.stamps.get? path with
    | some stamp => exact h.version_eq hstamp
    | none =>
      rw [(h.unstamped path hstamp).2]
      refine Option.eq_none_iff_forall_ne_some.mpr fun v hv => ?_
      cases (version_eq_some.mp hv).2.2.symm.trans hstamp

/-- **Evidence stays tied to its stamp.** After any operations, what a stamped path has was recorded
together with the stamp that it has now: the identity is that of the record, and the version is the
one of the record, if it is trusted and of this stamp. A path without a stamp has neither. Storing
the evidence, in any order of its paths, and reading it back gives the same evidence. -/
theorem tied_to_stamp (json : EvidenceJson J) (hjson : json.Lawful) (events : List Event)
    (hallowed : Run.AllSteps (step json) Allowed init events) :
    let s := events.foldl (step json) init
    (∀ path stamp, s.evidence.stamp path = some stamp →
      ∃ r ∈ s.records, r.path = path ∧ r.stamp = stamp ∧
        s.evidence.contentId path = r.contentId ∧
        s.evidence.version path =
          r.version.filter fun v => v.isTrusted && decide (v.stamp = stamp)) ∧
    (∀ path, s.evidence.stamp path = none →
      s.evidence.contentId path = none ∧ s.evidence.version path = none) ∧
    ∀ order text, order.Nodup → (∀ path, path ∈ order ↔ path ∈ s.evidence.stamps.keys) →
      s.evidence.write json order = .ok text →
        FileEvidence.read json (some text) = .ok s.evidence := by
  intro s
  have h : s.Tied := by
    refine Run.invariant (fun s event hs hok => hs.step hjson hok) ?_ hallowed
    refine ⟨fun path stamp hstamp => ?_, fun path _ => ⟨rfl, rfl⟩, fun path v hv => ?_⟩
    · cases hstamp
    · cases hv
  refine ⟨fun path stamp hstamp => ?_, fun path hnone => ?_, ?_⟩
  · obtain ⟨r, hr, hpath, rfl, hid, hversion⟩ := h.stamped path stamp hstamp
    exact ⟨r, hr, hpath, rfl, hid, (h.version_eq hstamp).trans hversion⟩
  · refine ⟨(h.unstamped path hnone).1, ?_⟩
    refine Option.eq_none_iff_forall_ne_some.mpr fun v hv => ?_
    cases (version_eq_some.mp hv).2.2.symm.trans hnone
  · intro order text hnodup horder hwrite
    have hread := read_write hjson h.wf hnodup horder hwrite
    rwa [h.persisted_eq] at hread

/-! ### A run -/

/-- A stat of a file of three bytes. -/
def sampleMetadata : Metadata where
  len := 3
  modified := some 1500000000
  created := none
  dev := 1
  ino := 2
  ctime := 1
  ctimeNsec := 5
  modified_range t ht := by
    obtain rfl := Option.some.inj ht
    decide
  created_range t ht := by cases ht

/-- The identity of its text. -/
def sampleId : ContentId := ⟨List.replicate 16 0xab, rfl⟩

/-- What is recorded of it. -/
def sampleRecord : EvidenceRecord :=
  ⟨"a.rs", ⟨1, 3⟩, some sampleId, some (fileVersion sampleMetadata)⟩

/-- The entry of the file. -/
def sampleRef : String × EvidenceEntryRef :=
  ("a.rs", ⟨1, 3, some "abababababababababababababababab", (fileVersion sampleMetadata).persisted⟩)

/-- Its text. -/
def sampleText : String :=
  "\x7b\"a.rs\":\x7b\"mtime\":1,\"size\":3,\"c\":\"abababababababababababababababab\"," ++
    "\"v\":\x7b\"schema\":1,\"platform\":\"linux\",\"size\":3," ++
    "\"modified\":\x7b\"before_epoch\":false,\"seconds\":1,\"nanos\":500000000\x7d," ++
    "\"created\":null,\"unix\":\x7b\"device\":1,\"inode\":2,\"change_seconds\":1," ++
    "\"change_nanos\":5\x7d\x7d\x7d\x7d"

/-- The JSON conversions of that text. A value is a string or a stored version. -/
def sampleJson : EvidenceJson (String ⊕ PersistedVersion) where
  asStr value := value.getLeft?
  toVersion value := value.getRight?
  toText refs := if refs = [sampleRef] then .ok sampleText else .error "another file"
  fromText text :=
    if text = sampleText then
      .ok [("a.rs", ⟨1, 3, sampleRef.2.c.map .inl, sampleRef.2.v.map .inr⟩)]
    else .error "another text"

/-- They are lawful. -/
lemma sampleJson_lawful : sampleJson.Lawful where
  nodup text entries h := by
    simp only [sampleJson] at h
    split_ifs at h
    obtain rfl := Except.ok.inj h
    exact nodup_singleton _
  roundTrip refs text _ h := by
    simp only [sampleJson] at h
    split_ifs at h with hrefs
    obtain rfl := Except.ok.inj h
    subst hrefs
    have hreads : sampleJson.Reads sampleRef
        ("a.rs", ⟨1, 3, sampleRef.2.c.map .inl, sampleRef.2.v.map .inr⟩) :=
      ⟨rfl, rfl, rfl, rfl, by rfl⟩
    have hfrom : sampleJson.fromText sampleText =
        .ok [("a.rs", ⟨1, 3, sampleRef.2.c.map .inl, sampleRef.2.v.map .inr⟩)] := by
      simp only [sampleJson, if_true]
    refine ⟨_, hfrom, ?_, ?_⟩
    · intro ref href
      rw [mem_singleton] at href
      exact ⟨_, mem_singleton_self _, href ▸ hreads⟩
    · intro entry hentry
      rw [mem_singleton] at hentry
      exact ⟨_, mem_singleton_self _, hentry ▸ hreads⟩

/-- A path is inserted, another one too and removed, and all stamps are retained. -/
def sampleEvents : List Event :=
  [.insertVerified sampleRecord, .insertVerified ⟨"b.rs", ⟨7, 9⟩, none, none⟩, .remove "b.rs",
    .retain fun _ _ => true]

/-- `tied_to_stamp` for a run of four operations: what it leaves is stored and read back. -/
theorem tied_to_stamp_sample :
    FileEvidence.read sampleJson (some sampleText) =
      .ok (sampleEvents.foldl (step sampleJson) init).evidence := by
  have hallowed : Run.AllSteps (step sampleJson) Allowed init sampleEvents := by
    refine ⟨fun v hv => ?_, fun v hv => ?_, trivial, trivial, trivial⟩
    · obtain rfl := Option.some.inj hv
      exact fileVersion_wf sampleMetadata
    · cases hv
  refine (tied_to_stamp sampleJson sampleJson_lawful sampleEvents hallowed).2.2 ["a.rs"] sampleText
    (nodup_singleton _) (fun path => ?_) (by decide +kernel)
  have hkeys : (sampleEvents.foldl (step sampleJson) init).evidence.stamps.keys = {"a.rs"} := by
    decide +kernel
  rw [hkeys, mem_singleton, Finset.mem_singleton]

end EvidenceHistory

end Tgrep
