import Tgrep.Reader

/-!
# The grammar of file tables

A file table is a header of its layout and records, or, in the layout that the unversioned format
also has, records alone. No record of a valid path begins like a header, so the two are told apart.

## Main definitions

* `IndexLayout`: the layouts of an index, each with a version of the file table.
* `fileTableBodyFor`, `decodeFileTable`: the records of a file table of a layout.
* `fileRecords`: records, one after another.

## Main results

* `decodeFileEntries_eq_ok_iff`: what is decoded are the records of storable paths, and no more.
* `fileTable_exact`: file tables round trip, and the decoder accepts nothing else.
-/

namespace Tgrep

open LittleEndian List

/-- The layouts of an index. -/
inductive IndexLayout
  | legacy
  | managed
  deriving DecidableEq

/-- The version of the file table of a managed index. -/
def MANAGED_FILE_TABLE_VERSION : UInt32 := 0x4d320001

/-- The version of the file table of a layout. -/
def IndexLayout.fileTableVersion : IndexLayout → UInt32
  | .legacy => INDEX_FORMAT_VERSION
  | .managed => MANAGED_FILE_TABLE_VERSION

/-- The header of a file table of a layout. -/
def writeFileTableHeaderFor (layout : IndexLayout) : List UInt8 :=
  FILE_TABLE_MAGIC ++ u32Bytes layout.fileTableVersion

/-- The records of a file table of a layout. Only the layout that the unversioned format also has
goes without a header. -/
def fileTableBodyFor (data : List UInt8) (layout : IndexLayout) : Except Error (List UInt8) :=
  if ¬ FILE_TABLE_MAGIC.isPrefixOf data then
    if layout = .legacy then .ok data
    else .error (.indexCorrupted "managed file table header is missing")
  else if data.length < FILE_TABLE_HEADER_LEN then
    .error (.indexCorrupted "files.bin header is truncated")
  else
    let version := u32OfBytes ((data.drop FILE_TABLE_MAGIC.length).take 4)
    if version ≠ layout.fileTableVersion then
      .error (.indexCorrupted s!"unsupported files.bin format version {version}")
    else .ok (data.drop FILE_TABLE_HEADER_LEN)

/-- The entries of a file table of a layout. -/
def decodeFileTable (layout : IndexLayout) (data : List UInt8) :
    Except Error (List (UInt32 × String)) :=
  match fileTableBodyFor data layout with
  | .error e => .error e
  | .ok body => decodeFileEntries body

/-- The file table of a list of entries. -/
def writeFileTableFor (layout : IndexLayout) (entries : List (UInt32 × String)) :
    Except Error (List UInt8) :=
  match writeFileEntries entries with
  | .error e => .error e
  | .ok records => .ok (writeFileTableHeaderFor layout ++ records)

/-! ## Records -/

/-- One record. -/
def fileRecord (entry : UInt32 × String) : List UInt8 :=
  u32Bytes entry.1 ++ toLE 2 (pathBytes entry.2).length ++ pathBytes entry.2

/-- Records, one after another. -/
def fileRecords (entries : List (UInt32 × String)) : List UInt8 := entries.flatMap fileRecord

@[simp] lemma fileRecords_nil : fileRecords [] = [] := rfl

@[simp] lemma fileRecords_cons (entry : UInt32 × String) (entries : List (UInt32 × String)) :
    fileRecords (entry :: entries) = fileRecord entry ++ fileRecords entries := rfl

variable {layout : IndexLayout} {data : List UInt8} {entries : List (UInt32 × String)}

/-- What is written are the records of the entries, if their paths are short enough. -/
lemma writeFileEntries_eq_ok_iff {records : List UInt8} :
    writeFileEntries entries = .ok records ↔
      (∀ e ∈ entries, (pathBytes e.2).length ≤ MAX_PATH_LEN) ∧ records = fileRecords entries := by
  induction entries generalizing records with
  | nil => simp [writeFileEntries, eq_comm]
  | cons e entries ih =>
    obtain ⟨fileId, path⟩ := e
    rw [writeFileEntries, forall_mem_cons]
    by_cases hshort : (pathBytes path).length ≤ MAX_PATH_LEN
    · rw [writeFileEntry_eq hshort]
      cases hrest : writeFileEntries entries with
      | error e =>
        refine iff_of_false (by rintro ⟨⟩) fun h => ?_
        rw [ih.mpr ⟨h.1.2, rfl⟩] at hrest
        cases hrest
      | ok rest =>
        obtain ⟨hshort', rfl⟩ := ih.mp hrest
        simp only [Except.ok.injEq, fileRecords_cons, fileRecord]
        exact ⟨fun h => ⟨⟨hshort, hshort'⟩, h.symm⟩, fun h => h.2.symm⟩
    · refine ⟨fun h => ?_, fun h => absurd h.1.1 hshort⟩
      rw [writeFileEntry] at h
      simp only [gt_iff_lt, if_pos (not_le.mp hshort)] at h
      cases h

/-- The pieces of a record that is read. -/
lemma take_fileRecord {path : String} {pathLen : ℕ} (hsix : 6 ≤ data.length)
    (hlen : pathLen = ofLE ((data.drop 4).take 2)) (hroom : pathLen ≤ (data.drop 6).length)
    (hpath : pathOfBytes? ((data.drop 6).take pathLen) = some path) :
    data = fileRecord (u32OfBytes (data.take 4), path) ++ (data.drop 6).drop pathLen := by
  have hbytes := pathBytes_of_pathOfBytes? hpath
  have hcount : (pathBytes path).length = pathLen := by
    rw [hbytes, length_take, Nat.min_eq_left hroom]
  have htwo : ((data.drop 4).take 2).length = 2 := by
    rw [length_take, length_drop]
    omega
  have hfour : (data.take 4).length = 4 := by
    rw [length_take]
    omega
  have hfield : toLE 2 pathLen = (data.drop 4).take 2 := by
    rw [hlen]
    nth_rewrite 1 [← htwo]
    exact toLE_ofLE _
  calc data = data.take 4 ++ ((data.drop 4).take 2 ++ (data.drop 4).drop 2) := by
        rw [take_append_drop, take_append_drop]
    _ = data.take 4 ++ ((data.drop 4).take 2 ++
          ((data.drop 6).take pathLen ++ (data.drop 6).drop pathLen)) := by
        rw [drop_drop, take_append_drop]
    _ = fileRecord (u32OfBytes (data.take 4), path) ++ (data.drop 6).drop pathLen := by
        rw [fileRecord, u32Bytes_u32OfBytes hfour, hcount, hfield, hbytes]
        simp only [append_assoc]

/-- **What is decoded are records of storable paths**, and no more. -/
theorem decodeFileEntries_eq_ok_iff :
    decodeFileEntries data = .ok entries ↔
      (∀ e ∈ entries, Storable e.2) ∧ data = fileRecords entries := by
  constructor
  · intro h
    refine ⟨decodeFileEntries_storable h, ?_⟩
    fun_induction decodeFileEntries data generalizing entries with
    | case1 =>
      cases h
      rfl
    | case5 data hne hsix fileId pathLen rest hroom path hpath hvalid more hmore =>
      rename_i ih
      cases h
      rw [fileRecords_cons, ← ih hmore]
      exact take_fileRecord (not_lt.mp hsix) rfl (not_lt.mp hroom) hpath
    | _ => cases h
  · rintro ⟨hstorable, rfl⟩
    induction entries with
    | nil => rw [fileRecords_nil, decodeFileEntries, dif_pos rfl]
    | cons e entries ih =>
      obtain ⟨he, hrest⟩ := forall_mem_cons.mp hstorable
      rw [fileRecords_cons, fileRecord, decodeFileEntries_cons he, ih hrest]

/-- **No record of a valid path begins like a header**: its id is reserved, and its path empty. -/
theorem decodeFileEntries_not_magic (h : decodeFileEntries data = .ok entries) :
    ¬ FILE_TABLE_MAGIC.isPrefixOf data = true := by
  intro hmagic
  obtain ⟨tail, rfl⟩ := isPrefixOf_iff_prefix.mp hmagic
  obtain ⟨hstorable, hdata⟩ := decodeFileEntries_eq_ok_iff.mp h
  cases entries with
  | nil => cases hdata
  | cons e entries =>
    have hvalid := (hstorable e mem_cons_self).valid
    -- the length field of the first record is at 4 and 5, where the magic is zero
    have hfield : toLE 2 (pathBytes e.2).length = [0, 0] := by
      have hid : (u32Bytes e.1).length = 4 := length_u32Bytes _
      have htwo : (toLE 2 (pathBytes e.2).length).length = 2 := length_toLE _ _
      have hcut := congrArg (fun bytes => (bytes.drop 4).take 2) hdata
      rw [fileRecords_cons, fileRecord, append_assoc, append_assoc, drop_left' hid,
        take_left' htwo] at hcut
      exact hcut.symm
    have hempty : (pathBytes e.2).length = 0 := by
      have hshort := (hstorable e mem_cons_self).short
      rw [MAX_PATH_LEN] at hshort
      have hback := congrArg ofLE hfield
      rwa [ofLE_toLE (by omega)] at hback
    rw [validateIndexPath, length_eq_zero_iff.mp hempty] at hvalid
    exact absurd hvalid (by decide)

/-! ## Tables -/

/-- A table with records begins with the header of its layout, or has no header at all. -/
lemma fileTableBodyFor_eq_ok_iff {body : List UInt8} :
    fileTableBodyFor data layout = .ok body ↔
      data = writeFileTableHeaderFor layout ++ body ∨
        (layout = .legacy ∧ data = body ∧ ¬ FILE_TABLE_MAGIC.isPrefixOf data = true) := by
  by_cases hmagic : FILE_TABLE_MAGIC.isPrefixOf data = true
  · obtain ⟨tail, rfl⟩ := isPrefixOf_iff_prefix.mp hmagic
    have hnot : ¬ (layout = .legacy ∧ FILE_TABLE_MAGIC ++ tail = body ∧
        ¬ FILE_TABLE_MAGIC.isPrefixOf (FILE_TABLE_MAGIC ++ tail) = true) := fun h => h.2.2 hmagic
    rw [or_iff_left hnot, fileTableBodyFor, if_neg (not_not.mpr hmagic),
      length_append, FILE_TABLE_HEADER_LEN, drop_left, writeFileTableHeaderFor,
      append_assoc, append_cancel_left_eq]
    dsimp only
    split_ifs with hshort hversion
    · refine ⟨by rintro ⟨⟩, fun h => ?_⟩
      have := congrArg length h
      rw [length_append, length_u32Bytes] at this
      omega
    · refine ⟨by rintro ⟨⟩, fun h => ?_⟩
      rw [h, take_left' (length_u32Bytes _), u32OfBytes_u32Bytes] at hversion
      exact absurd rfl hversion
    · have hfour : (tail.take 4).length = 4 := by
        rw [length_take]
        omega
      have hhead : u32Bytes layout.fileTableVersion = tail.take 4 := by
        rw [← not_not.mp hversion, u32Bytes_u32OfBytes hfour]
      rw [← drop_drop, drop_left, Except.ok.injEq, hhead]
      constructor
      · rintro rfl
        exact (take_append_drop 4 tail).symm
      · intro h
        have hdrop := congrArg (drop 4) h
        rwa [drop_left' hfour] at hdrop
  · have hnot : ¬ data = writeFileTableHeaderFor layout ++ body := by
      rintro rfl
      refine hmagic ( isPrefixOf_iff_prefix.mpr ?_)
      rw [writeFileTableHeaderFor, append_assoc]
      exact prefix_append _ _
    rw [or_iff_right hnot, fileTableBodyFor, if_pos hmagic]
    split_ifs with hlayout
    · rw [Except.ok.injEq]
      exact ⟨fun h => ⟨hlayout, h, hmagic⟩, fun h => h.2.1⟩
    · exact ⟨by rintro ⟨⟩, fun h => absurd h.1 hlayout⟩

/-- **The decoder of file tables accepts** the records of storable paths, behind the header of the
layout, or alone in the layout that the unversioned format also has. -/
theorem decodeFileTable_eq_ok_iff :
    decodeFileTable layout data = .ok entries ↔
      (∀ e ∈ entries, Storable e.2) ∧
        (data = writeFileTableHeaderFor layout ++ fileRecords entries ∨
          (layout = .legacy ∧ data = fileRecords entries)) := by
  constructor
  · intro h
    rw [decodeFileTable] at h
    cases hbody : fileTableBodyFor data layout with
    | error e =>
      rw [hbody] at h
      cases h
    | ok body =>
      rw [hbody] at h
      obtain ⟨hstorable, rfl⟩ := decodeFileEntries_eq_ok_iff.mp h
      refine ⟨hstorable, ?_⟩
      rcases fileTableBodyFor_eq_ok_iff.mp hbody with hheader | ⟨hlayout, hdata, -⟩
      · exact .inl hheader
      · exact .inr ⟨hlayout, hdata⟩
  · rintro ⟨hstorable, hdata⟩
    have hentries : decodeFileEntries (fileRecords entries) = .ok entries :=
      decodeFileEntries_eq_ok_iff.mpr ⟨hstorable, rfl⟩
    have hbody : fileTableBodyFor data layout = .ok (fileRecords entries) := by
      refine fileTableBodyFor_eq_ok_iff.mpr ?_
      rcases hdata with hheader | ⟨hlayout, rfl⟩
      · exact .inl hheader
      · exact .inr ⟨hlayout, rfl, decodeFileEntries_not_magic hentries⟩
    rw [decodeFileTable, hbody]
    exact hentries

/-- A file table is written iff every path is short enough for its length field. -/
lemma writeFileTableFor_eq_ok_iff :
    writeFileTableFor layout entries = .ok data ↔
      (∀ e ∈ entries, (pathBytes e.2).length ≤ MAX_PATH_LEN) ∧
        data = writeFileTableHeaderFor layout ++ fileRecords entries := by
  rw [writeFileTableFor]
  cases hrecords : writeFileEntries entries with
  | error e =>
    refine ⟨(fun h => nomatch h), fun h => ?_⟩
    rw [writeFileEntries_eq_ok_iff.mpr ⟨h.1, rfl⟩] at hrecords
    cases hrecords
  | ok records =>
    obtain ⟨hshort, rfl⟩ := writeFileEntries_eq_ok_iff.mp hrecords
    rw [Except.ok.injEq]
    exact ⟨fun h => ⟨hshort, h.symm⟩, fun h => h.2.symm⟩

/-- **File tables are exact**: entries with valid paths are written iff no path is too long for its
length field, and decode to themselves; the decoder accepts nothing but the records of storable
paths in a layout; and a table without a header that it accepts does not begin like one. -/
theorem fileTable_exact :
    (∀ (layout : IndexLayout) (entries : List (UInt32 × String)),
      (∀ e ∈ entries, validateIndexPath e.2 = true) →
        ((∃ data, writeFileTableFor layout entries = .ok data) ↔
          ∀ e ∈ entries, (pathBytes e.2).length ≤ MAX_PATH_LEN) ∧
        ∀ data, writeFileTableFor layout entries = .ok data →
          decodeFileTable layout data = .ok entries) ∧
    (∀ (layout : IndexLayout) (data : List UInt8) (entries : List (UInt32 × String)),
      decodeFileTable layout data = .ok entries ↔
        (∀ e ∈ entries, Storable e.2) ∧
          (data = writeFileTableHeaderFor layout ++ fileRecords entries ∨
            (layout = .legacy ∧ data = fileRecords entries))) ∧
    (∀ (data : List UInt8) (entries : List (UInt32 × String)),
      decodeFileEntries data = .ok entries → ¬ FILE_TABLE_MAGIC.isPrefixOf data = true) := by
  refine ⟨fun layout entries hvalid => ⟨?_, fun data hdata => ?_⟩,
    fun layout data entries => decodeFileTable_eq_ok_iff,
    fun data entries h => decodeFileEntries_not_magic h⟩
  · exact ⟨fun ⟨_, h⟩ => (writeFileTableFor_eq_ok_iff.mp h).1,
      fun h => ⟨_, writeFileTableFor_eq_ok_iff.mpr ⟨h, rfl⟩⟩⟩
  · obtain ⟨hshort, hdata⟩ := writeFileTableFor_eq_ok_iff.mp hdata
    exact decodeFileTable_eq_ok_iff.mpr
      ⟨fun e he => ⟨hvalid e he, hshort e he⟩, .inl hdata⟩

/-- A table of a managed index with one entry. -/
theorem fileTable_exact_one :
    decodeFileTable .managed
      (writeFileTableHeaderFor .managed ++ fileRecords [(7, "a/b.rs")]) = .ok [(7, "a/b.rs")] :=
  (fileTable_exact.1 .managed [(7, "a/b.rs")] (by decide +kernel)).2 _
    (writeFileTableFor_eq_ok_iff.mpr ⟨by decide +kernel, rfl⟩)

end Tgrep
