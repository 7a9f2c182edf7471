import Tgrep.Build.Layout
import Tgrep.Reader.Checked

/-!
# Opening a snapshot

A snapshot is opened only if its lookup table is sorted and its posting lists tile `index.bin`, each
with ascending ids of known files. So the files of a snapshot are the encodings of posting groups, and
a lookup returns the group of its trigram.

## Main definitions

* `IndexReader.validateSnapshotPostings`, `IndexReader.openSnapshot`: what is checked.
* `SnapshotGroups`: the groups that two files are the encodings of.

## Main results

* `IndexReader.validate_iff`: the files that pass are those of groups.
* `IndexReader.SnapshotGroups.lookup`: a lookup returns the group of the trigram.
* `IndexReader.snapshot_is_exact`: both, with the accesses staying within the files.
-/

namespace Tgrep

open List Ascending Splice

namespace IndexReader

/-! ## The checks -/

/-- Check a posting of an entry; the state is the file before it, and which files have postings. -/
def validatePosting (r : IndexReader) (i : ℕ) (state : Option UInt32 × List Bool)
    (posting : PostingEntry) : Except Error (Option UInt32 × List Bool) :=
  let fileId := posting.fileId
  if (r.filePath fileId).isNone then
    .error (.indexCorrupted
      s!"shared base lookup entry {i} references out-of-range file_id {fileId}")
  else if (state.1.any fun previous => fileId ≤ previous) = true then
    .error (.indexCorrupted s!"shared base lookup entry {i} has non-increasing posting file IDs")
  else if posting.locMask = 0 then
    .error (.indexCorrupted
      s!"shared base lookup entry {i} has a zero location mask for file_id {fileId}")
  else .ok (some fileId, state.2.set fileId.toNat true)

/-- Check a lookup entry and its postings; the state is where its postings must start, and which
files have postings. -/
def validateSnapshotEntry (r : IndexReader) (state : ℕ × List Bool) (i : ℕ) :
    Except Error (ℕ × List Bool) :=
  let entry := r.readLookupEntry i
  let offset := entry.offset
  let expectedOffset := state.1
  if entry.trigram > 0x00ffffff then
    .error (.indexCorrupted s!"shared base lookup entry {i} has an invalid trigram")
  else if offset.toNat ≠ expectedOffset then
    .error (.indexCorrupted
      s!"shared base lookup entry {i} has posting offset {offset}, expected {expectedOffset}")
  else
    match r.nthTrigramRaw i with
    | none =>
      .error (.indexCorrupted s!"shared base lookup entry {i} has an invalid posting range")
    | some (_, bytes) =>
      match (postingCodec.decodeAll bytes).foldlM (r.validatePosting i) (none, state.2) with
      | .error e => .error e
      | .ok (_, fileHasPostings) => .ok (expectedOffset + bytes.length, fileHasPostings)

/-- Check all entries: their postings tile `index.bin`. The result says which files have postings. -/
def validateSnapshotPostings (r : IndexReader) : Except Error (List Bool) :=
  match (List.range r.numEntries).foldlM r.validateSnapshotEntry
      (0, List.replicate r.filePaths.length false) with
  | .error e => .error e
  | .ok (expectedOffset, fileHasPostings) =>
    if expectedOffset ≠ (r.postings.getD []).length then
      .error (.indexCorrupted "shared base index.bin contains unreferenced posting bytes")
    else .ok fileHasPostings

/-- Open a snapshot: either both or none of the two files is empty, and the checks pass. -/
def openSnapshot (f : IndexFiles) : Except Error (IndexReader × List Bool) :=
  if decide (f.lookup.length = 0) ≠ decide (f.index.length = 0) then
    .error (.indexCorrupted
      "shared base has mismatched empty lookup.bin and index.bin sections")
  else
    match openImpl f with
    | .error e => .error e
    | .ok reader =>
      match reader.validateLookup with
      | .error e => .error e
      | .ok () =>
        match reader.validateSnapshotPostings with
        | .error e => .error e
        | .ok fileHasPostings => .ok (reader, fileHasPostings)

end IndexReader

/-! ## What a snapshot is -/

/-- Posting groups whose encodings are two files: trigrams of three bytes strictly ascending, each
with the postings of known files in strictly ascending order, which are not empty. -/
structure SnapshotGroups (lookup index : List UInt8) (files : ℕ) (groups : List PostingGroup) :
    Prop where
  lookup_eq : lookup = lookupCodec.encodeAll (lookupEntries 0 groups)
  index_eq : index = postingCodec.encodeAll (groups.flatMap Prod.snd)
  ascending : Ascending Prod.fst groups
  trigram_le : ∀ g ∈ groups, g.1 ≤ 0x00ffffff
  length_lt : ∀ g ∈ groups, g.2.length < 2 ^ 32
  size_lt : groupsSize groups < 2 ^ 64
  ids_ascending : ∀ g ∈ groups, Ascending PostingEntry.fileId g.2
  ids_lt : ∀ g ∈ groups, ∀ p ∈ g.2, p.fileId.toNat < files
  loc_ne : ∀ g ∈ groups, ∀ p ∈ g.2, p.locMask ≠ 0

namespace IndexReader

variable {r : IndexReader}

/-! ## What the checks say -/

/-- The postings of an entry are in strictly ascending order of known files and not empty. -/
structure PostingsValid (files : ℕ) (ps : List PostingEntry) : Prop where
  known : ∀ p ∈ ps, p.fileId.toNat < files ∧ p.locMask ≠ 0
  ascending : Ascending PostingEntry.fileId ps

variable {hi lo : ℕ} {es : List LookupEntry} {i : ℕ}

/-- Where the check of a posting succeeds. -/
lemma validatePosting_eq_ok {state state' : Option UInt32 × List Bool} {p : PostingEntry} :
    r.validatePosting i state p = .ok state' ↔
      ((p.fileId.toNat < r.filePaths.length ∧ p.locMask ≠ 0) ∧
        ∀ previous, state.1 = some previous → previous < p.fileId) ∧
      state' = (some p.fileId, state.2.set p.fileId.toNat true) := by
  have hknown : (r.filePath p.fileId).isNone = true ↔ ¬ p.fileId.toNat < r.filePaths.length := by
    rw [filePath, Option.isNone_iff_eq_none, getElem?_eq_none_iff, not_lt]
  have habove : (state.1.any fun previous => p.fileId ≤ previous) = true ↔
      ¬ ∀ previous, state.1 = some previous → previous < p.fileId := by
    cases state.1 with
    | none => simp
    | some previous => simp
  rw [validatePosting]
  split_ifs with h₁ h₂ h₃
  · exact iff_of_false (by rintro ⟨⟩) fun h => hknown.mp h₁ h.1.1.1
  · exact iff_of_false (by rintro ⟨⟩) fun h => habove.mp h₂ h.1.2
  · exact iff_of_false (by rintro ⟨⟩) fun h => h.1.1.2 h₃
  · have hvalid := And.intro (And.intro (not_not.mp (mt hknown.mpr h₁)) h₃)
      (not_not.mp (mt habove.mpr h₂))
    constructor
    · intro h
      exact ⟨hvalid, (Except.ok.inj h).symm⟩
    · rintro ⟨-, rfl⟩
      rfl

/-- **Where the check of the postings of an entry succeeds.**

**Proof sketch.** Induction on the postings: the one before is below the first posting, which is
below all others. -/
theorem validatePostings_iff (i : ℕ) (ps : List PostingEntry) (state : Option UInt32 × List Bool) :
    (∃ state', ps.foldlM (r.validatePosting i) state = .ok state') ↔
      PostingsValid r.filePaths.length ps ∧
        ∀ previous, state.1 = some previous → ∀ p ∈ ps, previous < p.fileId := by
  induction ps generalizing state with
  | nil =>
    refine iff_of_true ⟨state, rfl⟩ ⟨⟨forall_mem_nil _, Ascending.nil⟩, fun _ _ => ?_⟩
    exact forall_mem_nil _
  | cons p ps ih =>
    have hstep : (∃ state', (p :: ps).foldlM (r.validatePosting i) state = .ok state') ↔
        ((p.fileId.toNat < r.filePaths.length ∧ p.locMask ≠ 0) ∧
          ∀ previous, state.1 = some previous → previous < p.fileId) ∧
        PostingsValid r.filePaths.length ps ∧ ∀ q ∈ ps, p.fileId < q.fileId := by
      simp only [foldlM_cons, Loops.bind_eq_ok, validatePosting_eq_ok]
      constructor
      · rintro ⟨state', state₁, ⟨hp, rfl⟩, hrest⟩
        obtain ⟨hvalid, hbelow⟩ := (ih _).mp ⟨state', hrest⟩
        exact ⟨hp, hvalid, hbelow p.fileId rfl⟩
      · rintro ⟨hp, hvalid, hbelow⟩
        obtain ⟨state', hrest⟩ := (ih (some p.fileId, state.2.set p.fileId.toNat true)).mpr
          ⟨hvalid, fun previous hprevious => Option.some.inj hprevious ▸ hbelow⟩
        exact ⟨state', _, ⟨hp, rfl⟩, hrest⟩
    rw [hstep]
    constructor
    · rintro ⟨⟨hp, hprevious⟩, hvalid, hbelow⟩
      refine ⟨⟨List.forall_mem_cons.mpr ⟨hp, hvalid.known⟩,
        Ascending.cons.mpr ⟨hbelow, hvalid.ascending⟩⟩, fun previous heq => ?_⟩
      have hlt := hprevious previous heq
      exact List.forall_mem_cons.mpr ⟨hlt, fun q hq => hlt.trans (hbelow q hq)⟩
    · rintro ⟨⟨hknown, hasc⟩, hprevious⟩
      obtain ⟨hp, hknown⟩ := List.forall_mem_cons.mp hknown
      obtain ⟨hbelow, hasc⟩ := Ascending.cons.mp hasc
      exact ⟨⟨hp, fun previous heq => hprevious previous heq p mem_cons_self⟩,
        ⟨hknown, hasc⟩, hbelow⟩

/-- An entry passes: its trigram has three bytes, its postings lie within `index.bin` and are
valid. -/
structure EntryValid (r : IndexReader) (e : LookupEntry) : Prop where
  trigram_le : e.trigram ≤ 0x00ffffff
  stop_lt : e.stop < 2 ^ 64
  stop_le : e.stop ≤ (r.postings.getD []).length
  postings : PostingsValid r.filePaths.length (r.postingsOf e)

/-- The raw bytes of an entry are there iff it lies within `index.bin`, and then they are the
encodings of its postings. -/
lemma nthTrigramRaw_iff (hi : i < r.numEntries) {raw : UInt32 × List UInt8} :
    r.nthTrigramRaw i = some raw ↔
      ((r.readLookupEntry i).stop < 2 ^ 64 ∧
        (r.readLookupEntry i).stop ≤ (r.postings.getD []).length) ∧
      raw = ((r.readLookupEntry i).trigram,
        postingCodec.encodeAll (r.postingsOf (r.readLookupEntry i))) := by
  constructor
  · intro h
    obtain ⟨-, htri, hle, hlt, hbytes⟩ := nthTrigramRaw_within h
    refine ⟨⟨hlt, hle⟩, Prod.ext htri (hbytes.trans ?_)⟩
    rw [encodeAll_postingsOf hle, LookupEntry.stop, slice_eq_take]
  · rintro ⟨⟨hlt, hle⟩, rfl⟩
    exact nthTrigramRaw_of_within hi hlt hle

/-- **Where the check of an entry succeeds**: it passes, and its postings start where they must;
those of the next entry must start where they end. -/
theorem validateSnapshotEntry_iff (hi : i < r.numEntries) (state : ℕ × List Bool) (stop : ℕ) :
    (∃ has, r.validateSnapshotEntry state i = .ok (stop, has)) ↔
      EntryValid r (r.readLookupEntry i) ∧ (r.readLookupEntry i).offset.toNat = state.1 ∧
        stop = (r.readLookupEntry i).stop := by
  set e := r.readLookupEntry i with he
  rw [validateSnapshotEntry, ← he]
  split_ifs with htrigram hoffset
  · refine iff_of_false (by rintro ⟨_, ⟨⟩⟩) fun h => ?_
    exact absurd h.1.trigram_le (not_le.mpr htrigram)
  · exact iff_of_false (by rintro ⟨_, ⟨⟩⟩) fun h => hoffset h.2.1
  · have hpostings := validatePostings_iff (r := r) i (r.postingsOf e) (none, state.2)
    cases hraw : r.nthTrigramRaw i with
    | none =>
      refine iff_of_false (by rintro ⟨_, ⟨⟩⟩) fun h => ?_
      rw [(nthTrigramRaw_iff hi).mpr ⟨⟨h.1.stop_lt, h.1.stop_le⟩, rfl⟩] at hraw
      cases hraw
    | some raw =>
      obtain ⟨⟨hlt, hle⟩, rfl⟩ := (nthTrigramRaw_iff hi).mp hraw
      rw [← he] at hlt hle ⊢
      have hstop : state.1 + (postingCodec.encodeAll (r.postingsOf e)).length = e.stop := by
        rw [postingCodec.length_encodeAll, length_postingsOf hle, LookupEntry.stop,
          not_ne_iff.mp hoffset]
        rfl
      dsimp only
      rw [postingCodec.decodeAll_encodeAll]
      constructor
      · rintro ⟨has, h⟩
        split at h
        · cases h
        · next hloop =>
          cases h
          exact ⟨⟨not_lt.mp htrigram, hlt, hle, (hpostings.mp ⟨_, hloop⟩).1⟩, not_ne_iff.mp hoffset,
            hstop⟩
      · rintro ⟨hvalid, -, rfl⟩
        obtain ⟨⟨previous, has⟩, hloop⟩ := hpostings.mpr ⟨hvalid.postings, by rintro _ ⟨⟩⟩
        exact ⟨has, by rw [hloop, hstop]⟩

/-- **Where the checks of entries one after another succeed**: all pass, and they tile the range. -/
theorem validateSnapshotEntries_iff {indices : List ℕ} (h : ∀ i ∈ indices, i < r.numEntries)
    (state : ℕ × List Bool) (stop : ℕ) :
    (∃ has, indices.foldlM r.validateSnapshotEntry state = .ok (stop, has)) ↔
      (∀ e ∈ indices.map r.readLookupEntry, EntryValid r e) ∧
        Tiles state.1 (indices.map r.readLookupEntry) stop := by
  induction indices generalizing state with
  | nil =>
    constructor
    · rintro ⟨has, h⟩
      cases h
      exact ⟨forall_mem_nil _, rfl⟩
    · rintro ⟨-, htiles⟩
      obtain rfl : state.1 = stop := htiles
      exact ⟨state.2, rfl⟩
  | cons i indices ih =>
    obtain ⟨hi, hindices⟩ := forall_mem_cons.mp h
    rw [map_cons, forall_mem_cons, Tiles]
    simp only [foldlM_cons, Loops.bind_eq_ok]
    constructor
    · rintro ⟨has, ⟨mid, has'⟩, hfirst, hrest⟩
      obtain ⟨hvalid, hoffset, rfl⟩ := (validateSnapshotEntry_iff hi state mid).mp ⟨has', hfirst⟩
      obtain ⟨hall, htiles⟩ := (ih hindices (_, has')).mp ⟨has, hrest⟩
      rw [LookupEntry.stop, hoffset] at htiles
      exact ⟨⟨hvalid, hall⟩, hoffset, htiles⟩
    · rintro ⟨⟨hvalid, hall⟩, hoffset, htiles⟩
      obtain ⟨has', hfirst⟩ := (validateSnapshotEntry_iff hi state _).mpr ⟨hvalid, hoffset, rfl⟩
      rw [← hoffset] at htiles
      obtain ⟨has, hrest⟩ := (ih hindices (_, has')).mpr ⟨hall, htiles⟩
      exact ⟨has, _, hfirst, hrest⟩

/-- Reading all entries by their indices reads the entries. -/
lemma map_readLookupEntry (r : IndexReader) :
    (List.range r.numEntries).map r.readLookupEntry = r.entries := by
  refine ext_getElem (by simp) fun i _ hi => ?_
  rw [getElem_map, getElem_range, readLookupEntry_eq hi]

/-- **Where the postings of a snapshot are valid.** -/
theorem validateSnapshotPostings_iff (r : IndexReader) :
    (∃ has, r.validateSnapshotPostings = .ok has) ↔
      (∀ e ∈ r.entries, EntryValid r e) ∧ Tiles 0 r.entries (r.postings.getD []).length := by
  have hentries := @validateSnapshotEntries_iff r (range r.numEntries)
    (fun i hi => mem_range.mp hi) (0, replicate r.filePaths.length false)
  rw [map_readLookupEntry] at hentries
  rw [← hentries, validateSnapshotPostings]
  constructor
  · rintro ⟨has, h⟩
    split at h
    · cases h
    · next stop has' hloop =>
      split_ifs at h with hstop
      rw [← not_ne_iff.mp hstop]
      exact ⟨has', hloop⟩
  · rintro ⟨has, hloop⟩
    rw [hloop]
    exact ⟨has, if_neg (not_ne_iff.mpr rfl)⟩

/-- The trigrams of a lookup table that passes are strictly ascending, above the one before. -/
lemma validateLookupFrom_ascending {prev : Option UInt32}
    (h : r.validateLookupFrom i prev = .ok ()) :
    Ascending LookupEntry.trigram (r.entries.drop i) ∧
      ∀ p, prev = some p → ∀ e ∈ r.entries.drop i, p < e.trigram := by
  fun_induction r.validateLookupFrom i prev with
  | case1 i prev hi e he => cases h
  | case2 i prev hi he ih =>
    obtain ⟨hasc, hbelow⟩ := ih h
    have hi' : i < r.entries.length := by rwa [length_entries]
    rw [drop_eq_getElem_cons hi', ← readLookupEntry_eq hi']
    have hfirst : ∀ p, prev = some p → p < (r.readLookupEntry i).trigram := by
      rintro p rfl
      by_contra hge
      have hprev : (Option.any (fun prev => decide ((r.readLookupEntry i).trigram ≤ prev))
          (some p)) = true := by simpa using hge
      simp only [validateLookupEntry, if_pos hprev] at he
      cases he
    refine ⟨cons.mpr ⟨hbelow _ rfl, hasc⟩, fun p hp => ?_⟩
    exact forall_mem_cons.mpr ⟨hfirst p hp, fun e he => (hfirst p hp).trans (hbelow _ rfl e he)⟩
  | case3 i prev hi =>
    have hnil : r.entries.drop i = [] := by
      rw [drop_eq_nil_iff, length_entries]
      exact not_lt.mp hi
    rw [hnil]
    exact ⟨nil, fun _ _ => forall_mem_nil _⟩

/-- A lookup table that passes is sorted. -/
lemma ascending_of_validateLookup (h : r.validateLookup = .ok ()) :
    Ascending LookupEntry.trigram r.entries := by
  unfold validateLookup at h
  split at h
  · next hnone =>
    rw [entries_eq_nil hnone]
    exact nil
  · exact (validateLookupFrom_ascending h).1

/-! ## The groups of a snapshot -/

/-- The group of a lookup entry. -/
def groupOf (r : IndexReader) (e : LookupEntry) : PostingGroup := (e.trigram, r.postingsOf e)

/-- Entries that tile a part of `index.bin` are those of their groups, whose encodings are that
part. -/
lemma groups_of_tiles (htiles : Tiles lo es hi)
    (hle : ∀ e ∈ es, e.stop ≤ (r.postings.getD []).length) :
    lookupEntries lo (es.map r.groupOf) = es ∧ lo ≤ hi ∧
      postingCodec.encodeAll ((es.map r.groupOf).flatMap Prod.snd) =
        Splice.slice (r.postings.getD []) lo hi := by
  induction es generalizing lo with
  | nil =>
    obtain rfl : lo = hi := htiles
    refine ⟨rfl, le_rfl, ?_⟩
    rw [slice, drop_eq_nil_of_le (length_take_le _ _)]
    rfl
  | cons e es ih =>
    obtain ⟨rfl, htiles⟩ := htiles
    obtain ⟨he, hes⟩ := forall_mem_cons.mp hle
    obtain ⟨hentries, hlow, hbytes⟩ := ih htiles hes
    have hlen := length_postingsOf he
    have henc := encodeAll_postingsOf he
    have hlow' : e.offset.toNat ≤ hi := (Nat.le_add_right _ _).trans hlow
    refine ⟨?_, hlow', ?_⟩
    · rw [map_cons, groupOf, lookupEntries, hlen, hentries, UInt64.ofNat_toNat, UInt32.ofNat_toNat]
    · rw [map_cons, flatMap_cons, postingCodec.encodeAll_append, hbytes, groupOf, henc,
        ← slice_eq_take, slice_append_slice (Nat.le_add_right _ _) hlow]

/-- Where entries tile a part that is not empty, some entry stops where the part does. -/
lemma exists_stop_of_tiles (htiles : Tiles lo es hi) : lo = hi ∨ ∃ e ∈ es, e.stop = hi := by
  induction es generalizing lo with
  | nil => exact .inl htiles
  | cons e es ih =>
    obtain ⟨rfl, htiles⟩ := htiles
    rcases ih htiles with hstop | ⟨e', he', hstop⟩
    · exact .inr ⟨e, mem_cons_self, hstop⟩
    · exact .inr ⟨e', mem_cons_of_mem _ he', hstop⟩

/-- **The files that pass are those of groups.** -/
theorem validate_iff (r : IndexReader) :
    (r.validateLookup = .ok () ∧ ∃ has, r.validateSnapshotPostings = .ok has) ↔
      ∃ groups, SnapshotGroups (r.lookup.getD []) (r.postings.getD []) r.filePaths.length groups := by
  rw [validateSnapshotPostings_iff]
  have hlookup : r.lookup.getD [] = lookupCodec.encodeAll r.entries :=
    (lookupCodec.encodeAll_decodeAll r.dvd_length_lookup).symm
  constructor
  · rintro ⟨hsorted, hvalid, htiles⟩
    have hasc := ascending_of_validateLookup hsorted
    obtain ⟨hentries, -, hbytes⟩ := groups_of_tiles htiles fun e he => (hvalid e he).stop_le
    have hall : ∀ {P : PostingGroup → Prop}, (∀ e ∈ r.entries, P (r.groupOf e)) →
        ∀ g ∈ r.entries.map r.groupOf, P g := fun h => forall_mem_map.mpr h
    have hindex : r.postings.getD [] =
        postingCodec.encodeAll ((r.entries.map r.groupOf).flatMap Prod.snd) := by
      rw [hbytes, slice, take_length, drop_zero]
    refine ⟨r.entries.map r.groupOf, ⟨by rw [hlookup, hentries], hindex, ?_, ?_, ?_, ?_, ?_, ?_, ?_⟩⟩
    · rw [Ascending, pairwise_map]
      exact hasc
    · exact hall fun e he => (hvalid e he).trigram_le
    · refine hall fun e he => ?_
      rw [groupOf, length_postingsOf (hvalid e he).stop_le]
      exact e.length.toNat_lt
    · rw [← length_encodeAll_groups, ← hindex]
      rcases exists_stop_of_tiles htiles with hzero | ⟨e, he, hstop⟩
      · rw [← hzero]
        decide
      · rw [← hstop]
        exact (hvalid e he).stop_lt
    · exact hall fun e he => (hvalid e he).postings.ascending
    · exact hall fun e he p hp => ((hvalid e he).postings.known p hp).1
    · exact hall fun e he p hp => ((hvalid e he).postings.known p hp).2
  · rintro ⟨groups, hgroups⟩
    have hentries : r.entries = lookupEntries 0 groups := by
      rw [entries, hgroups.lookup_eq, lookupCodec.decodeAll_encodeAll]
    have hpostings : ∀ e ∈ r.entries, (e.stop < 2 ^ 64 ∧ e.stop ≤ (r.postings.getD []).length) ∧
        ∃ g ∈ groups, e.trigram = g.1 ∧ r.postingsOf e = g.2 := fun e he =>
      postingsOf_groups hgroups.index_eq hgroups.length_lt hgroups.size_lt he (hentries ▸ he)
    refine ⟨validateLookup_ok ?_ fun e he => (hpostings e he).1, fun e he => ?_, ?_⟩
    · rw [hentries, ← map_iff, map_trigram_lookupEntries, map_iff]
      exact hgroups.ascending
    · obtain ⟨⟨hlt, hle⟩, g, hg, htri, hps⟩ := hpostings e he
      refine ⟨htri ▸ hgroups.trigram_le g hg, hlt, hle, ?_⟩
      rw [hps]
      exact ⟨fun p hp => ⟨hgroups.ids_lt g hg p hp, hgroups.loc_ne g hg p hp⟩,
        hgroups.ids_ascending g hg⟩
    · have htiles := @tiles_lookupEntries 0 groups hgroups.length_lt
        (by rw [zero_add]; exact hgroups.size_lt)
      rwa [zero_add, ← length_encodeAll_groups, ← hgroups.index_eq, ← hentries] at htiles

/-- A lookup returns the group of its trigram, or nothing if there is none. -/
lemma SnapshotGroups.lookup {groups : List PostingGroup}
    (h : SnapshotGroups (r.lookup.getD []) (r.postings.getD []) r.filePaths.length groups)
    (t : UInt32) :
    r.lookupTrigramWithMasks t = ((groups.find? fun g => g.1 == t).map Prod.snd).getD [] := by
  have hentries : r.entries = lookupEntries 0 groups := by
    rw [entries, h.lookup_eq, lookupCodec.decodeAll_encodeAll]
  have hasc : Ascending LookupEntry.trigram r.entries := by
    rw [hentries, ← map_iff, map_trigram_lookupEntries, map_iff]
    exact h.ascending
  have htrigrams : ∀ g ∈ groups, ∃ e ∈ r.entries, e.trigram = g.1 := by
    intro g hg
    have hmem : g.1 ∈ (lookupEntries 0 groups).map LookupEntry.trigram := by
      rw [map_trigram_lookupEntries]
      exact mem_map_of_mem hg
    rw [hentries]
    exact mem_map.mp hmem
  cases hfind : groups.find? fun g => g.1 == t with
  | none =>
    refine lookupTrigramWithMasks_eq_nil fun e he heq => ?_
    obtain ⟨-, g, hg, htri, -⟩ :=
      postingsOf_groups h.index_eq h.length_lt h.size_lt he (hentries ▸ he)
    exact absurd (htri.symm.trans heq) (by simpa using find?_eq_none.mp hfind g hg)
  | some g =>
    have hg := mem_of_find?_eq_some hfind
    have hkey : g.1 = t := by simpa using find?_some hfind
    obtain ⟨e, he, htri⟩ := htrigrams g hg
    obtain ⟨-, g', hg', htri', hps⟩ :=
      postingsOf_groups h.index_eq h.length_lt h.size_lt he (hentries ▸ he)
    obtain rfl : g' = g := h.ascending.eq_of_key_eq hg' hg (htri'.symm.trans htri)
    rw [← hkey, ← htri, lookupTrigramWithMasks_eq hasc he, hps]
    rfl

/-! ## Opening -/

/-- Two files of which both or none is empty are mapped as they are. -/
lemma openSections_complete {lookup index : List UInt8}
    {s : Option (List UInt8) × Option (List UInt8) × ℕ} (h : openSections lookup index = .ok s)
    (hcomplete : lookup = [] ↔ index = []) : s.1.getD [] = lookup ∧ s.2.1.getD [] = index := by
  unfold openSections at h
  split_ifs at h with hempty hmod
  · cases h
    rcases hempty with hnil | hnil
    · have hlookup := eq_nil_of_length_eq_zero hnil
      rw [hlookup, hcomplete.mp hlookup]
      exact ⟨rfl, rfl⟩
    · have hindex := eq_nil_of_length_eq_zero hnil
      rw [hindex, hcomplete.mpr hindex]
      exact ⟨rfl, rfl⟩
  · cases h
    exact ⟨rfl, rfl⟩

/-- **Where a snapshot opens**, and what it has then. -/
theorem openSnapshot_iff (f : IndexFiles) (r : IndexReader) :
    (∃ has, openSnapshot f = .ok (r, has)) ↔
      (f.lookup = [] ↔ f.index = []) ∧ openImpl f = .ok r ∧
        ∃ groups, SnapshotGroups f.lookup f.index r.filePaths.length groups := by
  have hcomplete : decide (f.lookup.length = 0) ≠ decide (f.index.length = 0) ↔
      ¬ (f.lookup = [] ↔ f.index = []) := by
    rw [Ne, decide_eq_decide, length_eq_zero_iff, length_eq_zero_iff]
  rw [openSnapshot]
  by_cases hsections : f.lookup = [] ↔ f.index = []
  · rw [if_neg (fun h => hcomplete.mp h hsections)]
    cases hopen : openImpl f with
    | error e =>
      refine iff_of_false (fun ⟨_, h⟩ => nomatch h) fun ⟨_, h, _⟩ => nomatch h
    | ok reader =>
      obtain ⟨s, hs, hlookup, hpostings, -⟩ := openImpl_eq_ok hopen
      have hfiles := openSections_complete hs hsections
      have hvalid := validate_iff reader
      rw [hlookup, hpostings, hfiles.1, hfiles.2] at hvalid
      have hboth : (∃ has, (match reader.validateLookup with
          | .error e => .error e
          | .ok () =>
            match reader.validateSnapshotPostings with
            | .error e => .error e
            | .ok fileHasPostings => .ok (reader, fileHasPostings) : Except Error _) = .ok (r, has)) ↔
          reader = r ∧ reader.validateLookup = .ok () ∧
            ∃ has, reader.validateSnapshotPostings = .ok has := by
        cases reader.validateLookup with
        | error e => exact iff_of_false (fun ⟨_, h⟩ => nomatch h) fun ⟨_, h, _⟩ => nomatch h
        | ok u =>
          cases reader.validateSnapshotPostings with
          | error e => exact iff_of_false (fun ⟨_, h⟩ => nomatch h) fun ⟨_, _, _, h⟩ => nomatch h
          | ok fileHasPostings =>
            constructor
            · rintro ⟨has, h⟩
              cases h
              exact ⟨rfl, rfl, _, rfl⟩
            · rintro ⟨rfl, -⟩
              exact ⟨fileHasPostings, rfl⟩
      refine hboth.trans ?_
      constructor
      · rintro ⟨rfl, hok⟩
        exact ⟨hsections, rfl, hvalid.mp hok⟩
      · rintro ⟨-, h, hgroups⟩
        obtain rfl := Except.ok.inj h
        exact ⟨rfl, hvalid.mpr hgroups⟩
  · rw [if_pos (hcomplete.mpr hsections)]
    exact iff_of_false (fun ⟨_, h⟩ => nomatch h) fun h => hsections h.1

/-- The parts of a mapped file are those of the file. -/
lemma mapped_of_openImpl {f : IndexFiles} {r : IndexReader} (h : openImpl f = .ok r) :
    (r.lookup.getD [] = f.lookup ∨ r.lookup = none) ∧
      (r.postings.getD [] = f.index ∨ r.postings = none) := by
  obtain ⟨s, hs, hlookup, hpostings, -⟩ := openImpl_eq_ok h
  rw [hlookup, hpostings]
  unfold openSections at hs
  split_ifs at hs
  · cases hs
    exact ⟨.inr rfl, .inr rfl⟩
  · cases hs
    exact ⟨.inl rfl, .inl rfl⟩

/-- **Reading is safe and exact on arbitrary files.** For any two files that are no longer than a
machine word counts: no access of a reader falls outside them, and what is returned are whole records
within `index.bin`. A snapshot opens iff both or none of the files is empty, the file table is read,
and the files are the encodings of posting groups: trigrams of three bytes strictly ascending, whose
postings tile `index.bin`, each with nonempty location masks for known files in strictly ascending
order. Then a lookup returns the group of the trigram, and nothing if it has none.

**Proof sketch.** Each check of an entry says that its postings lie within `index.bin` and start where
those before end. So the entries tile the file, and the groups that they point at, encoded, are the
file. -/
theorem snapshot_is_exact {f : IndexFiles} (hlookup : f.lookup.length < 2 ^ 64)
    (hindex : f.index.length < 2 ^ 64) :
    (∀ r, openImpl f = .ok r → ∀ i offset length,
      r.nthTrigramRawAt i = some (r.nthTrigramRaw i) ∧
      r.readPostingEntriesAt offset length = some (r.readPostingEntries offset length) ∧
      (∀ trigram bytes, r.nthTrigramRaw i = some (trigram, bytes) →
        ∃ start count, start + count * POSTING_ENTRY_SIZE ≤ f.index.length ∧
          bytes = Splice.slice f.index start (start + count * POSTING_ENTRY_SIZE)) ∧
      ∀ (k : ℕ) p, (r.readPostingEntries offset length)[k]? = some p →
        offset.toNat + (k + 1) * POSTING_ENTRY_SIZE ≤ f.index.length ∧
          p = PostingEntry.decode (Splice.slice f.index (offset.toNat + k * POSTING_ENTRY_SIZE)
            (offset.toNat + (k + 1) * POSTING_ENTRY_SIZE))) ∧
    ((∃ out, openSnapshot f = .ok out) ↔
      (f.lookup = [] ↔ f.index = []) ∧ ∃ r, openImpl f = .ok r ∧
        ∃ groups, SnapshotGroups f.lookup f.index r.filePaths.length groups) ∧
    ∀ r has, openSnapshot f = .ok (r, has) →
      ∃ groups, SnapshotGroups f.lookup f.index r.filePaths.length groups ∧
        ∀ t, r.lookupTrigramWithMasks t =
          ((groups.find? fun g => g.1 == t).map Prod.snd).getD [] := by
  refine ⟨fun r hopen i offset length => ?_, ?_, fun r has hopen => ?_⟩
  · obtain ⟨hl, hp⟩ := mapped_of_openImpl hopen
    have hmapped : r.Mapped := by
      constructor
      · rcases hl with h | h
        · rwa [h]
        · rw [h]
          decide
      · rcases hp with h | h
        · rwa [h]
        · rw [h]
          decide
    have hpostings : ∀ n, n ≤ (r.postings.getD []).length → 0 < n → r.postings.getD [] = f.index := by
      intro n hn hpos
      refine hp.resolve_right fun hnone => ?_
      rw [hnone, Option.getD_none, length_nil] at hn
      omega
    refine ⟨nthTrigramRawAt_eq hmapped i, readPostingEntriesAt_eq hmapped offset length,
      fun trigram bytes h => ?_, fun k p h => ?_⟩
    · obtain ⟨-, -, hle, -, rfl⟩ := nthTrigramRaw_within h
      rw [LookupEntry.stop] at hle
      rcases hp with h | h
      · rw [h] at hle ⊢
        exact ⟨_, _, hle, rfl⟩
      · rw [h]
        exact ⟨0, 0, Nat.zero_le _, by simp [Splice.slice]⟩
    · obtain ⟨-, hle, heq⟩ := readPostingEntries_within h
      have hsame := hpostings _ hle (by rw [POSTING_ENTRY_SIZE]; omega)
      rw [hsame] at hle heq
      exact ⟨hle, heq⟩
  · constructor
    · rintro ⟨⟨r, has⟩, hopen⟩
      obtain ⟨hsections, himpl, hgroups⟩ := (openSnapshot_iff f r).mp ⟨has, hopen⟩
      exact ⟨hsections, r, himpl, hgroups⟩
    · rintro ⟨hsections, r, himpl, hgroups⟩
      obtain ⟨has, hopen⟩ := (openSnapshot_iff f r).mpr ⟨hsections, himpl, hgroups⟩
      exact ⟨_, hopen⟩
  · obtain ⟨hsections, himpl, groups, hgroups⟩ := (openSnapshot_iff f r).mp ⟨has, hopen⟩
    obtain ⟨s, hs, hl, hp, -⟩ := openImpl_eq_ok himpl
    obtain ⟨hl', hp'⟩ := openSections_complete hs hsections
    refine ⟨groups, hgroups, SnapshotGroups.lookup ?_⟩
    rwa [hl, hp, hl', hp']

/-- The files of an index of one file with one posting. -/
def oneFile (trigram : UInt32) (posting : PostingEntry) : IndexFiles :=
  ⟨lookupCodec.encodeAll [⟨trigram, 0, 1⟩], postingCodec.encodeAll [posting],
    fileTableHeader ++ [0, 0, 0, 0, 1, 0, 97]⟩

/-- The files of such an index open. -/
lemma openImpl_oneFile (trigram : UInt32) (posting : PostingEntry) :
    ∃ r, openImpl (oneFile trigram posting) = .ok r ∧ r.filePaths = ["a"] := by
  have htable : readFileTable (oneFile trigram posting).files = .ok ["a"] := by
    change readFileTable (fileTableHeader ++ [0, 0, 0, 0, 1, 0, 97]) = .ok ["a"]
    decide +kernel
  cases hopen : openImpl (oneFile trigram posting) with
  | ok r =>
    obtain ⟨-, -, -, -, hpaths⟩ := openImpl_eq_ok hopen
    rw [htable] at hpaths
    exact ⟨r, rfl, (Except.ok.inj hpaths).symm⟩
  | error e =>
    exfalso
    have hlen : (oneFile trigram posting).lookup.length = LOOKUP_ENTRY_SIZE :=
      lookupCodec.length_encodeAll _
    have hlen' : (oneFile trigram posting).index.length = POSTING_ENTRY_SIZE :=
      postingCodec.length_encodeAll _
    unfold openImpl at hopen
    split at hopen
    · next hs =>
      unfold openSections at hs
      rw [hlen, hlen'] at hs
      simp [LOOKUP_ENTRY_SIZE, POSTING_ENTRY_SIZE] at hs
    · split at hopen
      · next herr =>
        rw [htable] at herr
        cases herr
      · cases hopen

/-- A snapshot of one file opens. -/
theorem snapshot_is_exact_one : ∃ out, openSnapshot (oneFile 7 ⟨0, 255, 255⟩) = .ok out := by
  obtain ⟨r, hopen, hpaths⟩ := openImpl_oneFile 7 ⟨0, 255, 255⟩
  refine (snapshot_is_exact (by decide) (by decide)).2.1.mpr
    ⟨by decide, r, hopen, [(7, [⟨0, 255, 255⟩])], ?_⟩
  rw [hpaths]
  constructor <;> decide

/-- A lookup table that is sorted, with a posting list that tiles `index.bin` and names a known file,
is refused if the trigram has more than three bytes. -/
theorem snapshot_refuses_trigram :
    ¬ ∀ (f : IndexFiles) (r : IndexReader) (groups : List PostingGroup), openImpl f = .ok r →
      f.lookup = lookupCodec.encodeAll (lookupEntries 0 groups) →
      f.index = postingCodec.encodeAll (groups.flatMap Prod.snd) → Ascending Prod.fst groups →
      (∀ g ∈ groups, Ascending PostingEntry.fileId g.2 ∧
        ∀ p ∈ g.2, p.fileId.toNat < r.filePaths.length) →
      ∃ has, r.validateSnapshotPostings = .ok has := by
  intro h
  set f := oneFile 0x01000000 ⟨0, 1, 0⟩ with hf
  obtain ⟨r, hopen, hpaths⟩ := openImpl_oneFile 0x01000000 ⟨0, 1, 0⟩
  have hok := h f r [(0x01000000, [⟨0, 1, 0⟩])] hopen (by decide) (by decide) (by decide)
    (by rw [hpaths]; decide)
  obtain ⟨s, hs, hlookup, -⟩ := openImpl_eq_ok hopen
  have hentries : r.entries = [⟨0x01000000, 0, 1⟩] := by
    rw [entries, hlookup, (openSections_complete hs (by decide)).1]
    exact lookupCodec.decodeAll_encodeAll _
  have hvalid := ((validateSnapshotPostings_iff r).mp hok).1 ⟨0x01000000, 0, 1⟩
    (by rw [hentries]; decide)
  exact absurd hvalid.trigram_le (by decide)

end IndexReader

end Tgrep
