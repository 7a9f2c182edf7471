import Tgrep.Data.LastSeparator
import Tgrep.Live.Lookup
import Tgrep.Serve.Reindex

/-!
# The sweep for removed files

A recovery scan lists directories and indexes what it finds. At its end indexed paths are swept that
the listings show to be gone: a path that a complete listing of its directory does not show, and all
paths below a directory that could not be listed and that a complete listing of its parent does not
show. A path is dropped only if opening it again proves that it does not belong in the index.

## Main definitions

* `ScannedDir`, `collectEvidence`: what is listed, and what the listings show.
* `missing`, `sweepCandidates`: the paths that are considered gone.
* `sweepRemovedFiles`: the sweep.
* `ProvenAbsent`: what it takes for a path to be considered gone.

## Main results

* `mem_collectEvidence`: what the evidence says of the listings.
* `missing_iff`: a path is considered gone exactly when it is proven absent.
* `sweep_exact`: what the sweep drops, and what it leaves.

## Implementation notes

A directory is known by the key of its path below the root, if it has one; an entry by its name, if
that has a key. What the listings give is an argument, an outcome for each time that a directory is
listed, and so is what opening a path gives, and the order in which a set is gone through. What a
scan indexes on its way, and the directories that it subscribes to, are not part of the evidence.
-/

namespace Tgrep.RemovalSweep

open List FinMap LiveIndex

/-! ## Listings -/

/-- The type of an entry. -/
inductive FileType
  | dir
  | file
  /-- A link, or anything else. -/
  | other
  deriving DecidableEq

/-- The name of an entry of a directory. -/
structure FileName where
  /-- The name. -/
  name : String
  /-- It is not empty. -/
  nonempty : name ≠ ""
  /-- It is one component of a path. -/
  plain : '/' ∉ name.toList

/-- An entry of a directory. -/
structure DirEntry where
  /-- Its name, if the path has a key. -/
  name : Option FileName
  /-- Whether it is in the directory of the index. -/
  inIndexDir : Bool := false
  /-- Its type, if it can be determined. -/
  fileType : Option FileType

/-- A directory that is scanned. -/
structure ScannedDir where
  /-- The key of its path, if it has one. -/
  relDir : Option String
  /-- Whether it is in the directory of the index. -/
  inIndexDir : Bool := false
  /-- The entries, each of which can fail, if it can be listed. -/
  listing : Option (List (Option DirEntry))

/-- The directory of a path. -/
def parentOf (rel : String) : String :=
  match Separator.rsplitOnce '/' rel.toList with
  | some (dir, _) => String.ofList dir
  | none => ""

/-- The path of an entry of a directory. -/
def joinKey (relDir name : String) : String := if relDir = "" then name else relDir ++ "/" ++ name

/-- What the listings of a scan show. -/
structure Evidence where
  /-- The directories that were listed completely. -/
  swept : Finset String := ∅
  /-- The files, and the entries whose type is unknown. -/
  present : Finset String := ∅
  /-- The directories. -/
  presentDirs : Finset String := ∅
  /-- The directories that could not be listed. -/
  unreadableDirs : List String := []

/-- Take note of an entry of a directory, and of whether its listing is still complete. -/
def scanEntry (relDir : String) (e : Evidence × Bool) : Option DirEntry → Evidence × Bool
  | none => (e.1, false)
  | some entry =>
    if entry.inIndexDir then e
    else
      match entry.name with
      | none => e
      | some name =>
        let rel := joinKey relDir name.name
        match entry.fileType with
        | none => ({ e.1 with present := insert rel e.1.present }, e.2)
        | some .dir => ({ e.1 with presentDirs := insert rel e.1.presentDirs }, e.2)
        | some .other => e
        | some .file => ({ e.1 with present := insert rel e.1.present }, e.2)

/-- Take note of a directory. -/
def scanDir (e : Evidence) (dir : ScannedDir) : Evidence :=
  if dir.inIndexDir then e
  else
    match dir.relDir with
    | none => e
    | some relDir =>
      match dir.listing with
      | none => { e with unreadableDirs := e.unreadableDirs ++ [relDir] }
      | some entries =>
        let scanned := entries.foldl (scanEntry relDir) (e, true)
        if scanned.2 then { scanned.1 with swept := insert relDir scanned.1.swept } else scanned.1

/-- What the listings of all directories show. -/
def collectEvidence (dirs : List ScannedDir) : Evidence := dirs.foldl scanDir {}

/-- The directories that could not be listed and that a listing of the parent does not show. -/
def vanishedDirs (e : Evidence) : Finset String :=
  (e.unreadableDirs.filter fun rel =>
    decide (parentOf rel ∈ e.swept) && !decide (rel ∈ e.presentDirs) &&
      !decide (rel ∈ e.present)).toFinset

/-- Whether a path is considered gone. -/
def missing (swept present vanished : Finset String) (rel : String) : Bool :=
  if parentOf rel ∈ swept ∧ rel ∉ present then true
  else if vanished = ∅ then false
  else
    Separator.anySelfOrAbove '/' (fun ancestor => decide (String.ofList ancestor ∈ vanished))
      (parentOf rel).toList

/-! ## The sweep -/

section Sweep

variable {κ : Type}

/-- Whether opening a path proves that it does not belong in the index. -/
def provesGone : Opened → Bool
  | .ineligible => true
  | .failed => false
  | .opened isFile _ => !isFile

/-- The paths that are considered gone, of all that can answer a query. -/
def sweepCandidates (s : ServerState κ) (swept present vanished : Finset String) : Finset String :=
  let missing := missing swept present vanished
  (s.fileEvidence.stamps.keys.filter fun rel => missing rel) ∪
    (s.index.reader.filePaths.filter fun rel =>
      missing rel && !s.index.live.isDeleted rel).toFinset ∪
    (s.index.live.pathToId.keys.filter fun rel => missing rel) ∪
    (s.filenameExtraPaths.filter fun rel => missing rel)

/-- Drop a path if opening it proves that it is gone. The result also says what was dropped. -/
def sweepOne (reopen : String → Opened) (s : ServerState κ × List String) (rel : String) :
    ServerState κ × List String :=
  if provesGone (reopen rel) then (s.1.dropIndexedFile rel, s.2 ++ [rel]) else s

/-- Drop the paths that were removed. They are gone through in some order. -/
def sweepRemovedFiles (s : ServerState κ) (e : Evidence) (reopen : String → Opened)
    (order : Finset String → List String) : ServerState κ × List String :=
  if e.swept = ∅ then (s, [])
  else
    (order (sweepCandidates s e.swept e.present (vanishedDirs e))).foldl (sweepOne reopen) (s, [])

end Sweep

/-! ## Paths -/

/-- A directory that a path is in, at any depth. The root is one of a path at the top level only. -/
def IsAncestor (dir rel : String) : Prop :=
  dir = "" ∧ '/' ∉ rel.toList ∨ Separator.Above '/' dir.toList rel.toList

/-- The path of an entry is in its directory. -/
lemma parentOf_joinKey (relDir : String) (name : FileName) :
    parentOf (joinKey relDir name.name) = relDir := by
  rw [parentOf, joinKey]
  split_ifs with hroot
  · rw [Separator.rsplitOnce_eq_none.mpr name.plain, hroot]
  · have hsplit : Separator.rsplitOnce '/' (relDir ++ "/" ++ name.name).toList =
        some (relDir.toList, name.name.toList) := by
      refine Separator.rsplitOnce_eq_some.mpr ⟨?_, name.plain⟩
      rw [String.toList_append, String.toList_append, append_assoc]
      rfl
    rw [hsplit]
    exact String.ofList_toList

/-- The walk up from a path goes through the directories that it is in. -/
lemma anySelfOrAbove_parentOf (p : String → Bool) (rel : String) :
    Separator.anySelfOrAbove '/' (fun ancestor => p (String.ofList ancestor))
        (parentOf rel).toList = true ↔ ∃ dir, IsAncestor dir rel ∧ p dir = true := by
  rw [Separator.anySelfOrAbove_iff, parentOf]
  cases hsplit : Separator.rsplitOnce '/' rel.toList with
  | none =>
    have hplain := Separator.rsplitOnce_eq_none.mp hsplit
    constructor
    · rintro ⟨a, rfl | ⟨rest, hrest⟩, hp⟩
      · exact ⟨"", .inl ⟨rfl, hplain⟩, hp⟩
      · exact absurd hrest (by simp)
    · rintro ⟨dir, ⟨rfl, -⟩ | ⟨rest, hrest⟩, hp⟩
      · exact ⟨[], .inl rfl, hp⟩
      · exact absurd (hrest ▸ mem_append_right _ mem_cons_self) hplain
  | some split =>
    obtain ⟨d, n⟩ := split
    dsimp only
    rw [String.toList_ofList]
    constructor
    · rintro ⟨a, ha, hp⟩
      refine ⟨String.ofList a, .inr ?_, hp⟩
      rw [String.toList_ofList]
      exact (Separator.above_iff hsplit).mpr ha
    · rintro ⟨dir, ⟨rfl, hplain⟩ | habove, hp⟩
      · rw [Separator.rsplitOnce_eq_none.mpr hplain] at hsplit
        cases hsplit
      · refine ⟨dir.toList, (Separator.above_iff hsplit).mp habove, ?_⟩
        rw [String.ofList_toList]
        exact hp

/-! ## What the listings show -/

/-- A directory is listed, with these entries. -/
def Listed (dirs : List ScannedDir) (dir : String) (entries : List (Option DirEntry)) : Prop :=
  ∃ scanned ∈ dirs, scanned.inIndexDir = false ∧ scanned.relDir = some dir ∧
    scanned.listing = some entries

/-- A directory is listed without a failure. -/
def ListedCompletely (dirs : List ScannedDir) (dir : String) : Prop :=
  ∃ entries, Listed dirs dir entries ∧ none ∉ entries

/-- A directory cannot be listed. -/
def CouldNotBeListed (dirs : List ScannedDir) (dir : String) : Prop :=
  ∃ scanned ∈ dirs, scanned.inIndexDir = false ∧ scanned.relDir = some dir ∧
    scanned.listing = none

/-- An entry of a directory is of a path, and has a type or an unknown one. -/
def EntryShows (relDir rel : String) (fileType : Option FileType) (entry : DirEntry) : Prop :=
  entry.inIndexDir = false ∧ (∃ name, entry.name = some name ∧ joinKey relDir name.name = rel) ∧
    entry.fileType = fileType

/-- A listing of the directory of a path shows it, with a type or an unknown one. -/
def Shows (dirs : List ScannedDir) (rel : String) (fileType : Option FileType) : Prop :=
  ∃ entries, Listed dirs (parentOf rel) entries ∧
    ∃ entry, some entry ∈ entries ∧ EntryShows (parentOf rel) rel fileType entry

/-- A path is proven absent: a complete listing of its directory does not show it as a file, nor
does any other listing, or some directory that it is in could not be listed and a complete listing
of its parent does not show that. What is of an unknown type can be anything. -/
def ProvenAbsent (dirs : List ScannedDir) (rel : String) : Prop :=
  ListedCompletely dirs (parentOf rel) ∧ ¬Shows dirs rel (some .file) ∧ ¬Shows dirs rel none ∨
    ∃ dir, IsAncestor dir rel ∧ CouldNotBeListed dirs dir ∧ ListedCompletely dirs (parentOf dir) ∧
      ¬Shows dirs dir (some .dir) ∧ ¬Shows dirs dir (some .file) ∧ ¬Shows dirs dir none

variable {τ σ : Type} {f : σ → τ → σ} (dirs : List ScannedDir)

/-- What a fold finds out step by step. -/
lemma foldl_iff {P : σ → Prop} {Q : τ → Prop} (hstep : ∀ s t, P (f s t) ↔ P s ∨ Q t) (l : List τ)
    (s : σ) : P (l.foldl f s) ↔ P s ∨ ∃ t ∈ l, Q t := by
  induction l generalizing s with
  | nil => simp
  | cons t l ih =>
    rw [foldl_cons, ih, hstep, or_assoc]
    simp only [exists_mem_cons_iff]

/-- What no step of a fold changes. -/
lemma foldl_eq {γ : Type} {g : σ → γ} (hstep : ∀ s t, g (f s t) = g s) (l : List τ) (s : σ) :
    g (l.foldl f s) = g s := by
  induction l generalizing s with
  | nil => rfl
  | cons t l ih => rw [foldl_cons, ih, hstep]

section Entries

variable {relDir rel : String} {e : Evidence × Bool}

/-- Neither the directories that were listed nor those that could not be depend on an entry. -/
lemma scanEntry_dirs (relDir : String) (e : Evidence × Bool) (o : Option DirEntry) :
    (scanEntry relDir e o).1.swept = e.1.swept ∧
      (scanEntry relDir e o).1.unreadableDirs = e.1.unreadableDirs := by
  cases o with
  | none => exact ⟨rfl, rfl⟩
  | some entry =>
    rw [scanEntry]
    split_ifs
    · exact ⟨rfl, rfl⟩
    cases entry.name with
    | none => exact ⟨rfl, rfl⟩
    | some name =>
      cases entry.fileType with
      | none => exact ⟨rfl, rfl⟩
      | some fileType => cases fileType <;> exact ⟨rfl, rfl⟩

/-- A listing is complete until an entry fails. -/
lemma scanEntry_complete (o : Option DirEntry) :
    (scanEntry relDir e o).2 = false ↔ e.2 = false ∨ o = none := by
  cases o with
  | none => exact ⟨fun _ => .inr rfl, fun _ => rfl⟩
  | some entry =>
    have hsame : (scanEntry relDir e (some entry)).2 = e.2 := by
      rw [scanEntry]
      split_ifs
      · rfl
      cases entry.name with
      | none => rfl
      | some name =>
        cases entry.fileType with
        | none => rfl
        | some fileType => cases fileType <;> rfl
    rw [hsame]
    simp

/-- What it takes for an entry that has a name to show a path. -/
lemma entryShows_iff {entry : DirEntry} {name : FileName} {fileType : Option FileType}
    (hindex : entry.inIndexDir = false) (hname : entry.name = some name) :
    EntryShows relDir rel fileType entry ↔
      rel = joinKey relDir name.name ∧ entry.fileType = fileType := by
  constructor
  · rintro ⟨-, ⟨name', hname', hrel⟩, htype⟩
    obtain rfl := Option.some.inj (hname.symm.trans hname')
    exact ⟨hrel.symm, htype⟩
  · rintro ⟨hrel, htype⟩
    exact ⟨hindex, ⟨name, hname, hrel.symm⟩, htype⟩

/-- **What an entry adds** to what is present and to the directories. -/
lemma scanEntry_shows (o : Option DirEntry) :
    (rel ∈ (scanEntry relDir e o).1.present ↔ rel ∈ e.1.present ∨
      ∃ entry, o = some entry ∧ (EntryShows relDir rel (some .file) entry ∨
        EntryShows relDir rel none entry)) ∧
    (rel ∈ (scanEntry relDir e o).1.presentDirs ↔ rel ∈ e.1.presentDirs ∨
      ∃ entry, o = some entry ∧ EntryShows relDir rel (some .dir) entry) := by
  cases o with
  | none => simp [scanEntry]
  | some entry =>
    simp only [Option.some.injEq, exists_eq_left']
    rw [scanEntry]
    cases hindex : entry.inIndexDir with
    | true =>
      have hnone : ∀ fileType, ¬EntryShows relDir rel fileType entry := fun fileType h =>
        Bool.false_ne_true (h.1.symm.trans hindex)
      simp [hnone]
    | false =>
      cases hname : entry.name with
      | none =>
        have hnone : ∀ fileType, ¬EntryShows relDir rel fileType entry := by
          rintro fileType ⟨-, ⟨name, hname', -⟩, -⟩
          rw [hname] at hname'
          cases hname'
        simp [hnone]
      | some name =>
        simp only [entryShows_iff hindex hname]
        cases htype : entry.fileType with
        | none => simp [or_comm]
        | some fileType => cases fileType <;> simp [or_comm]

end Entries

/-- A directory of a scan is looked at, with this outcome. -/
def Looked (scanned : ScannedDir) (dir : String) (listing : Option (List (Option DirEntry))) :
    Prop :=
  scanned.inIndexDir = false ∧ scanned.relDir = some dir ∧ scanned.listing = listing

/-- What a listing shows of a path. -/
def ListingShows (relDir rel : String) (fileType : Option FileType)
    (entries : List (Option DirEntry)) : Prop :=
  ∃ entry, some entry ∈ entries ∧ EntryShows relDir rel fileType entry

/-- **What the listing of a directory adds.** -/
lemma foldl_scanEntry (relDir : String) (e : Evidence) (entries : List (Option DirEntry)) :
    let r := entries.foldl (scanEntry relDir) (e, true)
    r.1.swept = e.swept ∧ r.1.unreadableDirs = e.unreadableDirs ∧
      (r.2 = true ↔ none ∉ entries) ∧
      (∀ rel, rel ∈ r.1.present ↔ rel ∈ e.present ∨
        (ListingShows relDir rel (some .file) entries ∨ ListingShows relDir rel none entries)) ∧
      ∀ rel, rel ∈ r.1.presentDirs ↔
        rel ∈ e.presentDirs ∨ ListingShows relDir rel (some .dir) entries := by
  refine ⟨?_, ?_, ?_, fun rel => ?_, fun rel => ?_⟩
  · exact foldl_eq (g := fun e => e.1.swept) (fun e o => (scanEntry_dirs relDir e o).1) _ _
  · exact foldl_eq (g := fun e => e.1.unreadableDirs) (fun e o => (scanEntry_dirs relDir e o).2) _ _
  · have hfalse := foldl_iff (P := fun e => e.2 = false) (Q := fun o => o = none)
      (fun e o => @scanEntry_complete relDir e o) entries (e, true)
    rw [← Bool.not_eq_false, hfalse]
    simp
  · have hfold := foldl_iff (f := scanEntry relDir) (P := fun e => rel ∈ e.1.present)
      (fun e o => (scanEntry_shows o).1) entries (e, true)
    refine hfold.trans (or_congr_right ⟨?_, ?_⟩)
    · rintro ⟨o, hmem, entry, rfl, h | h⟩
      · exact .inl ⟨entry, hmem, h⟩
      · exact .inr ⟨entry, hmem, h⟩
    · rintro (⟨entry, hmem, h⟩ | ⟨entry, hmem, h⟩)
      · exact ⟨_, hmem, entry, rfl, .inl h⟩
      · exact ⟨_, hmem, entry, rfl, .inr h⟩
  · have hfold := foldl_iff (f := scanEntry relDir) (P := fun e => rel ∈ e.1.presentDirs)
      (fun e o => (scanEntry_shows o).2) entries (e, true)
    refine hfold.trans (or_congr_right ⟨?_, ?_⟩)
    · rintro ⟨o, hmem, entry, rfl, h⟩
      exact ⟨entry, hmem, h⟩
    · rintro ⟨entry, hmem, h⟩
      exact ⟨_, hmem, entry, rfl, h⟩

/-- **What a directory adds.** -/
lemma scanDir_spec (e : Evidence) (scanned : ScannedDir) :
    (∀ dir, dir ∈ (scanDir e scanned).swept ↔ dir ∈ e.swept ∨
      ∃ entries, Looked scanned dir (some entries) ∧ none ∉ entries) ∧
    (∀ dir, dir ∈ (scanDir e scanned).unreadableDirs ↔ dir ∈ e.unreadableDirs ∨
      Looked scanned dir none) ∧
    (∀ rel, rel ∈ (scanDir e scanned).present ↔ rel ∈ e.present ∨
      ∃ dir entries, Looked scanned dir (some entries) ∧
        (ListingShows dir rel (some .file) entries ∨ ListingShows dir rel none entries)) ∧
    ∀ rel, rel ∈ (scanDir e scanned).presentDirs ↔ rel ∈ e.presentDirs ∨
      ∃ dir entries, Looked scanned dir (some entries) ∧
        ListingShows dir rel (some .dir) entries := by
  rw [scanDir]
  cases hindex : scanned.inIndexDir with
  | true => simp [Looked, hindex]
  | false =>
    cases hdir : scanned.relDir with
    | none => simp [Looked, hdir]
    | some relDir =>
      cases hlisting : scanned.listing with
      | none => simp [Looked, hindex, hdir, hlisting, eq_comm]
      | some entries =>
        obtain ⟨hswept, hunreadable, hcomplete, hpresent, hdirs⟩ := foldl_scanEntry relDir e entries
        have hlooked : ∀ dir listing, Looked scanned dir listing ↔
            relDir = dir ∧ some entries = listing := by
          intro dir listing
          rw [Looked, hindex, hdir, hlisting, Option.some.injEq]
          exact and_iff_right rfl
        have hnever : ∀ dir, ¬Looked scanned dir none := fun dir h =>
          nomatch ((hlooked dir none).mp h).2
        have hshows : ∀ P : String → List (Option DirEntry) → Prop,
            (∃ dir entries', Looked scanned dir (some entries') ∧ P dir entries') ↔
              P relDir entries := by
          intro P
          constructor
          · rintro ⟨dir, entries', h, hP⟩
            obtain ⟨rfl, heq⟩ := (hlooked _ _).mp h
            exact Option.some.inj heq ▸ hP
          · exact fun hP => ⟨relDir, entries, (hlooked _ _).mpr ⟨rfl, rfl⟩, hP⟩
        rw [if_neg Bool.false_ne_true]
        dsimp only
        have hstep : ∀ swept' : Finset String,
            (∀ dir, dir ∈ swept' ↔ dir ∈ e.swept ∨ relDir = dir ∧ none ∉ entries) →
            ∀ dir, dir ∈ swept' ↔ dir ∈ e.swept ∨
              ∃ entries', Looked scanned dir (some entries') ∧ none ∉ entries' := by
          intro swept' h dir
          rw [h]
          refine or_congr_right ⟨fun ⟨heq, hnone⟩ => ?_, ?_⟩
          · exact ⟨entries, (hlooked _ _).mpr ⟨heq, rfl⟩, hnone⟩
          · rintro ⟨entries', hlook, hnone⟩
            obtain ⟨heq, hentries⟩ := (hlooked _ _).mp hlook
            exact ⟨heq, Option.some.inj hentries ▸ hnone⟩
        by_cases hnone : none ∈ entries
        · rw [if_neg fun h => hcomplete.mp h hnone]
          refine ⟨hstep _ fun dir => ?_, fun dir => ?_, fun rel => ?_, fun rel => ?_⟩
          · rw [hswept]
            exact (or_iff_left fun h => h.2 hnone).symm
          · rw [hunreadable]
            exact (or_iff_left (hnever dir)).symm
          · rw [hpresent, hshows fun dir entries' => ListingShows dir rel (some .file) entries' ∨
              ListingShows dir rel none entries']
          · rw [hdirs, hshows fun dir entries' => ListingShows dir rel (some .dir) entries']
        · rw [if_pos (hcomplete.mpr hnone)]
          refine ⟨hstep _ fun dir => ?_, fun dir => ?_, fun rel => ?_, fun rel => ?_⟩
          · dsimp only
            rw [Finset.mem_insert, hswept, or_comm]
            exact or_congr_right ⟨fun heq => ⟨heq.symm, hnone⟩, fun h => h.1.symm⟩
          · dsimp only
            rw [hunreadable]
            exact (or_iff_left (hnever dir)).symm
          · dsimp only
            rw [hpresent, hshows fun dir entries' => ListingShows dir rel (some .file) entries' ∨
              ListingShows dir rel none entries']
          · dsimp only
            rw [hdirs, hshows fun dir entries' => ListingShows dir rel (some .dir) entries']

/-- A listing shows a path only if it is of the directory of the path. -/
lemma exists_listingShows {dirs : List ScannedDir} {rel : String} {fileType : Option FileType} :
    (∃ scanned ∈ dirs, ∃ dir entries, Looked scanned dir (some entries) ∧
      ListingShows dir rel fileType entries) ↔ Shows dirs rel fileType := by
  constructor
  · rintro ⟨scanned, hmem, dir, entries, hlooked, entry, hentry, hshows⟩
    obtain ⟨-, ⟨name, -, rfl⟩, -⟩ := id hshows
    have hparent := parentOf_joinKey dir name
    refine ⟨entries, ⟨scanned, hmem, ?_⟩, entry, hentry, ?_⟩
    · rw [hparent]
      exact hlooked
    · rw [hparent]
      exact hshows
  · rintro ⟨entries, ⟨scanned, hmem, hlooked⟩, hshows⟩
    exact ⟨scanned, hmem, _, entries, hlooked, hshows⟩

/-- **What the evidence says** of the listings. -/
theorem mem_collectEvidence :
    (∀ dir, dir ∈ (collectEvidence dirs).swept ↔ ListedCompletely dirs dir) ∧
    (∀ dir, dir ∈ (collectEvidence dirs).unreadableDirs ↔ CouldNotBeListed dirs dir) ∧
    (∀ rel, rel ∈ (collectEvidence dirs).present ↔
      Shows dirs rel (some .file) ∨ Shows dirs rel none) ∧
    ∀ rel, rel ∈ (collectEvidence dirs).presentDirs ↔ Shows dirs rel (some .dir) := by
  refine ⟨fun dir => ?_, fun dir => ?_, fun rel => ?_, fun rel => ?_⟩
  · have hfold := foldl_iff (f := scanDir) (P := fun e => dir ∈ e.swept)
      (fun e scanned => (scanDir_spec e scanned).1 dir) dirs {}
    refine hfold.trans ((or_iff_right (Finset.notMem_empty dir)).trans ⟨?_, ?_⟩)
    · rintro ⟨scanned, hmem, entries, hlooked, hnone⟩
      exact ⟨entries, ⟨scanned, hmem, hlooked⟩, hnone⟩
    · rintro ⟨entries, ⟨scanned, hmem, hlooked⟩, hnone⟩
      exact ⟨scanned, hmem, entries, hlooked, hnone⟩
  · have hfold := foldl_iff (f := scanDir) (P := fun e => dir ∈ e.unreadableDirs)
      (fun e scanned => (scanDir_spec e scanned).2.1 dir) dirs {}
    exact hfold.trans (or_iff_right not_mem_nil)
  · have hfold := foldl_iff (f := scanDir) (P := fun e => rel ∈ e.present)
      (fun e scanned => (scanDir_spec e scanned).2.2.1 rel) dirs {}
    refine hfold.trans ((or_iff_right (Finset.notMem_empty rel)).trans ?_)
    rw [← exists_listingShows, ← exists_listingShows]
    constructor
    · rintro ⟨scanned, hmem, dir, entries, hlooked, h | h⟩
      · exact .inl ⟨scanned, hmem, dir, entries, hlooked, h⟩
      · exact .inr ⟨scanned, hmem, dir, entries, hlooked, h⟩
    · rintro (⟨scanned, hmem, dir, entries, hlooked, h⟩ | ⟨scanned, hmem, dir, entries, hlooked, h⟩)
      · exact ⟨scanned, hmem, dir, entries, hlooked, .inl h⟩
      · exact ⟨scanned, hmem, dir, entries, hlooked, .inr h⟩
  · have hfold := foldl_iff (f := scanDir) (P := fun e => rel ∈ e.presentDirs)
      (fun e scanned => (scanDir_spec e scanned).2.2.2 rel) dirs {}
    exact hfold.trans ((or_iff_right (Finset.notMem_empty rel)).trans exists_listingShows)

/-- **A path is considered gone** exactly when it is proven absent. -/
theorem missing_iff (rel : String) :
    missing (collectEvidence dirs).swept (collectEvidence dirs).present
      (vanishedDirs (collectEvidence dirs)) rel = true ↔ ProvenAbsent dirs rel := by
  obtain ⟨hswept, hunreadable, hpresent, hdirs⟩ := mem_collectEvidence dirs
  have hvanished : ∀ dir, dir ∈ vanishedDirs (collectEvidence dirs) ↔
      CouldNotBeListed dirs dir ∧ ListedCompletely dirs (parentOf dir) ∧
        ¬Shows dirs dir (some .dir) ∧ ¬Shows dirs dir (some .file) ∧ ¬Shows dirs dir none := by
    intro dir
    simp only [vanishedDirs, mem_toFinset, mem_filter, hunreadable, Bool.and_eq_true,
      decide_eq_true_eq, Bool.not_eq_true', decide_eq_false_iff_not, hswept, hpresent, hdirs,
      not_or, and_assoc]
  have hdirectly : (parentOf rel ∈ (collectEvidence dirs).swept ∧
      rel ∉ (collectEvidence dirs).present) ↔ ListedCompletely dirs (parentOf rel) ∧
        ¬Shows dirs rel (some .file) ∧ ¬Shows dirs rel none := by
    rw [hswept, hpresent, not_or]
  rw [missing, ProvenAbsent, ← hdirectly]
  split_ifs with hgone hnone
  · exact ⟨fun _ => .inl hgone, fun _ => rfl⟩
  · refine ⟨fun h => (nomatch h), ?_⟩
    rintro (h | ⟨dir, -, h⟩)
    · exact absurd h hgone
    · exact absurd ((hvanished dir).mpr h) (hnone ▸ Finset.notMem_empty dir)
  · have hwalk := anySelfOrAbove_parentOf
      (fun dir => decide (dir ∈ vanishedDirs (collectEvidence dirs))) rel
    rw [hwalk, or_iff_right hgone]
    simp only [decide_eq_true_eq, hvanished]

/-! ## What the sweep drops -/

section Drop

variable {κ : Type} {s s' s'' : ServerState κ} {rel rel' : String}

/-- A path can answer a query: it has a stamp, it is in the reader and not hidden, it is in the
overlay, or only its name is known. -/
def Indexed (s : ServerState κ) (rel : String) : Prop :=
  rel ∈ s.fileEvidence.stamps.keys ∨
    rel ∈ s.index.reader.filePaths ∧ s.index.live.isDeleted rel = false ∨
    rel ∈ s.index.live.pathToId.keys ∨ rel ∈ s.filenameExtraPaths

/-- Two states agree about a path. -/
structure Agrees (s s' : ServerState κ) (rel : String) : Prop where
  /-- It has the same stamp. -/
  stamp : s'.fileEvidence.stamps.get? rel = s.fileEvidence.stamps.get? rel
  /-- The reader is the same. -/
  reader : s'.index.reader = s.index.reader
  /-- It is hidden in both or in none. -/
  hidden : s'.index.live.isDeleted rel = s.index.live.isDeleted rel
  /-- It has the same overlay entry. -/
  entry : s'.index.live.pathToId.get? rel = s.index.live.pathToId.get? rel
  /-- Only its name is known in both or in none. -/
  name : rel ∈ s'.filenameExtraPaths ↔ rel ∈ s.filenameExtraPaths

/-- A state agrees with itself. -/
lemma Agrees.refl (s : ServerState κ) (rel : String) : Agrees s s rel :=
  ⟨rfl, rfl, rfl, rfl, Iff.rfl⟩

/-- States that agree with one agree. -/
lemma Agrees.trans (h : Agrees s s' rel) (h' : Agrees s' s'' rel) : Agrees s s'' rel :=
  ⟨h'.stamp.trans h.stamp, h'.reader.trans h.reader, h'.hidden.trans h.hidden,
    h'.entry.trans h.entry, h'.name.trans h.name⟩

/-- Where states agree, a path can answer queries in both or in none. -/
lemma Agrees.indexed_iff (h : Agrees s s' rel) : Indexed s' rel ↔ Indexed s rel := by
  rw [Indexed, Indexed, FinMap.mem_keys, FinMap.mem_keys, h.stamp, h.reader, h.hidden, h.name,
    FinMap.mem_keys, FinMap.mem_keys, h.entry]

/-- The overlay after a file was deleted. -/
lemma deleteFile_frame {live : LiveIndex} (h : live.Rep) (rel : String) :
    (∀ rel', (live.deleteFile rel).pathToId.get? rel' =
      if rel' = rel then none else live.pathToId.get? rel') ∧
    (live.deleteFile rel).isDeleted rel = true ∧
    ∀ rel' ≠ rel, (live.deleteFile rel).isDeleted rel' = live.isDeleted rel' := by
  obtain ⟨-, hdeleted, hentry⟩ := removeOverlayEntry_frame h rel
  have hset : (live.deleteFile rel).deletedPaths = insert rel live.deletedPaths := by
    rw [← hdeleted]
    rfl
  refine ⟨hentry, ?_, fun rel' hne => ?_⟩
  · rw [isDeleted, hset]
    exact decide_eq_true (Finset.mem_insert_self _ _)
  · rw [isDeleted, isDeleted, hset]
    exact decide_eq_decide.mpr (Finset.mem_insert.trans (or_iff_right hne))

/-- **Dropping a path**: it does not answer queries any more, and all others are as before. -/
lemma dropIndexedFile_spec (h : s.index.live.Rep) (rel : String) :
    (s.dropIndexedFile rel).index.live.Rep ∧ ¬Indexed (s.dropIndexedFile rel) rel ∧
      ∀ rel' ≠ rel, Agrees s (s.dropIndexedFile rel) rel' := by
  have hstamp : ∀ rel', (s.fileEvidence.remove rel).stamps.get? rel' =
      if rel' = rel then none else s.fileEvidence.stamps.get? rel' := fun rel' =>
    get?_erase _ _ _
  have hnostamp : rel ∉ (s.fileEvidence.remove rel).stamps.keys := by
    rw [FinMap.notMem_keys, hstamp, if_pos rfl]
  have hnoname : rel ∉ s.filenameExtraPaths.erase rel := Finset.notMem_erase _ _
  have hothers : ∀ rel' ≠ rel, (s.fileEvidence.remove rel).stamps.get? rel' =
      s.fileEvidence.stamps.get? rel' ∧
        (rel' ∈ s.filenameExtraPaths.erase rel ↔ rel' ∈ s.filenameExtraPaths) := fun rel' hne =>
    ⟨by rw [hstamp, if_neg hne], Finset.mem_erase.trans (and_iff_right hne)⟩
  rw [ServerState.dropIndexedFile]
  dsimp only
  split_ifs with hdeleted hunknown
  · refine ⟨h, ?_, fun rel' hne => ⟨(hothers rel' hne).1, rfl, rfl, rfl, (hothers rel' hne).2⟩⟩
    rintro (hmem | ⟨-, hvisible⟩ | hmem | hmem)
    · exact hnostamp hmem
    · exact Bool.false_ne_true (hvisible.symm.trans hdeleted)
    · have hentry := h.not_isDeleted (contains_iff.mpr hmem)
      exact Bool.false_ne_true (hentry.symm.trans hdeleted)
    · exact hnoname hmem
  · refine ⟨h, ?_, fun rel' hne => ⟨(hothers rel' hne).1, rfl, rfl, rfl, (hothers rel' hne).2⟩⟩
    simp only [Bool.and_eq_true, Bool.not_eq_true'] at hunknown
    obtain ⟨⟨-, hentry⟩, hreader⟩ := hunknown
    rintro (hmem | ⟨hmem, -⟩ | hmem | hmem)
    · exact hnostamp hmem
    · exact Bool.false_ne_true (hreader.symm.trans (IndexReader.containsPath_iff.mpr hmem))
    · exact Bool.false_ne_true (hentry.symm.trans (contains_iff.mpr hmem))
    · exact hnoname hmem
  · obtain ⟨hentry, hhidden, hvisible⟩ := deleteFile_frame h rel
    refine ⟨deleteFile_rep h rel, ?_, fun rel' hne => ⟨(hothers rel' hne).1, rfl,
      hvisible rel' hne, (hentry rel').trans (if_neg hne), (hothers rel' hne).2⟩⟩
    rintro (hmem | ⟨-, hshown⟩ | hmem | hmem)
    · exact hnostamp hmem
    · exact Bool.false_ne_true (hshown.symm.trans hhidden)
    · rw [FinMap.mem_keys] at hmem
      obtain ⟨id, hid⟩ := hmem
      rw [hentry, if_pos rfl] at hid
      cases hid
    · exact hnoname hmem

/-- **Dropping what proves to be gone**: the paths that do are dropped, and all others are as
before.

**Proof sketch.** By induction on the candidates. What was dropped stays dropped, since a later step
either is about another path or drops it again. -/
lemma foldl_sweepOne (reopen : String → Opened) (order : List String) :
    ∀ (s : ServerState κ) (dropped : List String), s.index.live.Rep →
      let r := order.foldl (sweepOne reopen) (s, dropped)
      r.2 = dropped ++ order.filter (fun rel => provesGone (reopen rel)) ∧
        ∀ rel, (rel ∈ order ∧ provesGone (reopen rel) = true → ¬Indexed r.1 rel) ∧
          (¬(rel ∈ order ∧ provesGone (reopen rel) = true) → Agrees s r.1 rel) := by
  induction order with
  | nil =>
    intro s dropped _
    exact ⟨(append_nil _).symm, fun rel => ⟨fun h => (nomatch h.1), fun _ => .refl s rel⟩⟩
  | cons x order ih =>
    intro s dropped h
    rw [foldl_cons]
    by_cases hx : provesGone (reopen x) = true
    · have hone : sweepOne reopen (s, dropped) x = (s.dropIndexedFile x, dropped ++ [x]) := if_pos hx
      obtain ⟨hrep, hgone, hothers⟩ := dropIndexedFile_spec h x
      obtain ⟨hdropped, hrest⟩ := ih (s.dropIndexedFile x) (dropped ++ [x]) hrep
      rw [hone]
      refine ⟨?_, fun rel => ⟨fun hmem => ?_, fun hmem => ?_⟩⟩
      · rw [hdropped, filter_cons, if_pos hx, append_assoc]
        rfl
      · by_cases hagain : rel ∈ order ∧ provesGone (reopen rel) = true
        · exact (hrest rel).1 hagain
        · rw [((hrest rel).2 hagain).indexed_iff]
          rcases List.mem_cons.mp hmem.1 with rfl | hlater
          · exact hgone
          · exact absurd ⟨hlater, hmem.2⟩ hagain
      · have hne : rel ≠ x := by
          rintro rfl
          exact hmem ⟨mem_cons_self, hx⟩
        exact (hothers rel hne).trans
          ((hrest rel).2 fun hlater => hmem ⟨mem_cons_of_mem _ hlater.1, hlater.2⟩)
    · have hone : sweepOne reopen (s, dropped) x = (s, dropped) := if_neg hx
      obtain ⟨hdropped, hrest⟩ := ih s dropped h
      rw [hone]
      refine ⟨?_, fun rel => ⟨fun hmem => ?_, fun hmem => ?_⟩⟩
      · rw [hdropped, filter_cons, if_neg hx]
      · rcases List.mem_cons.mp hmem.1 with rfl | hlater
        · exact absurd hmem.2 hx
        · exact (hrest rel).1 ⟨hlater, hmem.2⟩
      · exact (hrest rel).2 fun hlater => hmem ⟨mem_cons_of_mem _ hlater.1, hlater.2⟩

/-- The candidates are the paths that can answer a query and are considered gone. -/
lemma mem_sweepCandidates {swept present vanished : Finset String} :
    rel ∈ sweepCandidates s swept present vanished ↔
      Indexed s rel ∧ missing swept present vanished rel = true := by
  simp only [sweepCandidates, Indexed, Finset.mem_union, Finset.mem_filter, mem_toFinset,
    mem_filter, Bool.and_eq_true, Bool.not_eq_true']
  tauto

/-- **The sweep needs proof and misses none.** A path is considered gone exactly when the listings
prove it absent. Of the paths that can answer a query those are dropped that are considered gone
and that prove to be gone when they are opened again; after that they answer no query, and every
other path is as before. -/
theorem sweep_exact {κ : Type} (dirs : List ScannedDir) (s : ServerState κ)
    (hs : s.index.live.Rep) (reopen : String → Opened) (order : Finset String → List String)
    (horder : ∀ paths rel, rel ∈ order paths ↔ rel ∈ paths) :
    let e := collectEvidence dirs
    let r := sweepRemovedFiles s e reopen order
    (∀ rel, missing e.swept e.present (vanishedDirs e) rel = true ↔ ProvenAbsent dirs rel) ∧
      (∀ rel, rel ∈ r.2 ↔
        Indexed s rel ∧ ProvenAbsent dirs rel ∧ provesGone (reopen rel) = true) ∧
      (∀ rel ∈ r.2, ¬Indexed r.1 rel) ∧ ∀ rel ∉ r.2, Agrees s r.1 rel := by
  intro e r
  have hmissing := missing_iff dirs
  have hmem : ∀ rel, rel ∈ sweepCandidates s e.swept e.present (vanishedDirs e) ↔
      Indexed s rel ∧ ProvenAbsent dirs rel := by
    intro rel
    rw [mem_sweepCandidates, hmissing]
  have hr : r = if e.swept = ∅ then (s, [])
      else (order (sweepCandidates s e.swept e.present (vanishedDirs e))).foldl
        (sweepOne reopen) (s, []) := rfl
  by_cases hempty : e.swept = ∅
  · -- without a complete listing nothing is proven
    have hnone : ∀ rel, ¬ProvenAbsent dirs rel := by
      have hlisted : ∀ dir, ¬ListedCompletely dirs dir := fun dir h =>
        absurd (((mem_collectEvidence dirs).1 dir).mpr h) (hempty ▸ Finset.notMem_empty dir)
      rintro rel (⟨h, -⟩ | ⟨dir, -, -, h, -⟩)
      · exact hlisted _ h
      · exact hlisted _ h
    rw [if_pos hempty] at hr
    rw [hr]
    refine ⟨hmissing, fun rel => ?_, fun rel h => (nomatch h), fun rel _ => .refl s rel⟩
    exact ⟨fun h => (nomatch h), fun h => absurd h.2.1 (hnone rel)⟩
  · rw [if_neg hempty] at hr
    obtain ⟨hdropped, hstate⟩ := foldl_sweepOne reopen
      (order (sweepCandidates s e.swept e.present (vanishedDirs e))) s [] hs
    rw [← hr] at hdropped hstate
    have hin : ∀ rel, rel ∈ r.2 ↔
        rel ∈ order (sweepCandidates s e.swept e.present (vanishedDirs e)) ∧
          provesGone (reopen rel) = true := by
      intro rel
      rw [hdropped, nil_append, mem_filter]
    refine ⟨hmissing, fun rel => ?_, fun rel h => ?_, fun rel h => ?_⟩
    · rw [hin, horder, hmem, and_assoc]
    · exact (hstate rel).1 ((hin rel).mp h)
    · exact (hstate rel).2 fun h' => h ((hin rel).mpr h')

end Drop

/-! ## Examples -/

/-- A scan of the root, in which there is nothing. -/
def emptyRoot : List ScannedDir := [{ relDir := some "", listing := some [] }]

/-- A server that knows the name of one file. -/
def oneName : ServerState ℕ where
  index := ⟨IndexReader.empty, LiveIndex.new⟩
  filenameExtraPaths := {"a"}
  filenameIndexReady := true
  filenameIndexDirty := false
  recentReindexes := .new 0 0 0
  fileEvidence := .empty
  unreadable := .empty
  ignoreRulesDirty := false
  stored := .empty

/-- The file was removed, and is dropped. -/
theorem sweep_exact_emptyRoot :
    "a" ∈ (sweepRemovedFiles oneName (collectEvidence emptyRoot) (fun _ => .ineligible)
      fun paths => paths.sort).2 := by
  have hlisted : ListedCompletely emptyRoot (parentOf "a") :=
    ⟨[], ⟨_, mem_singleton_self _, rfl, by decide, rfl⟩, not_mem_nil⟩
  have hshown : ∀ fileType, ¬Shows emptyRoot "a" fileType := by
    rintro fileType ⟨entries, ⟨scanned, hmem, -, -, hlisting⟩, entry, hentry, -⟩
    rw [List.mem_singleton.mp hmem] at hlisting
    cases hlisting
    cases hentry
  exact ((sweep_exact emptyRoot oneName LiveIndex.new_rep (fun _ => .ineligible)
    (fun paths => paths.sort) fun _ _ => Finset.mem_sort _).2.1 "a").mpr
      ⟨.inr (.inr (.inr (Finset.mem_singleton_self _))), .inl ⟨hlisted, hshown _, hshown _⟩, rfl⟩

/-- A listing of the directory of a path has an entry of its name, of whatever type. -/
def Named (dirs : List ScannedDir) (rel : String) : Prop := ∃ fileType, Shows dirs rel fileType

/-- The stricter notion: a complete listing shows that a path is no file, or has no entry for a
directory that the path is in and that could not be listed. -/
def AbsentByName (dirs : List ScannedDir) (rel : String) : Prop :=
  ListedCompletely dirs (parentOf rel) ∧ ¬Shows dirs rel (some .file) ∨
    ∃ dir, IsAncestor dir rel ∧ CouldNotBeListed dirs dir ∧ ListedCompletely dirs (parentOf dir) ∧
      ¬Named dirs dir

/-- The name of a directory. -/
def nameD : FileName := ⟨"d", by decide, by decide⟩

/-- A directory that has been replaced by a link that leads nowhere. -/
def linkedDir : List ScannedDir :=
  [{ relDir := some "", listing := some [some { name := some nameD, fileType := some .other }] },
    { relDir := some "d", listing := none }]

/-- An entry whose type cannot be determined. -/
def unknownType : List ScannedDir :=
  [{ relDir := some "", listing := some [some { name := some nameD, fileType := none }] }]

/-- Below a link that was a directory everything is considered gone, though there is an entry of
that name; and what has an unknown type is not considered gone, though it is not listed as a file. -/
theorem absentByName_ne_missing :
    (missing (collectEvidence linkedDir).swept (collectEvidence linkedDir).present
        (vanishedDirs (collectEvidence linkedDir)) "d/a" = true ∧
      ¬AbsentByName linkedDir "d/a") ∧
    missing (collectEvidence unknownType).swept (collectEvidence unknownType).present
        (vanishedDirs (collectEvidence unknownType)) "d" = false ∧
      AbsentByName unknownType "d" := by
  refine ⟨⟨by decide +kernel, ?_⟩, by decide +kernel, .inl ⟨?_, ?_⟩⟩
  · have hparent : parentOf "d/a" = "d" := by decide +kernel
    rintro (⟨⟨entries, ⟨scanned, hmem, -, hdir, hlisting⟩, -⟩, -⟩ |
      ⟨dir, -, ⟨scanned, hmem, -, hdir, hlisting⟩, -, hname⟩)
    · rw [hparent] at hdir
      rcases List.mem_cons.mp hmem with rfl | hmem
      · exact absurd (Option.some.inj hdir) (by decide)
      · rw [List.mem_singleton.mp hmem] at hlisting
        cases hlisting
    · rcases List.mem_cons.mp hmem with rfl | hmem
      · cases hlisting
      · rw [List.mem_singleton.mp hmem] at hdir
        obtain rfl := Option.some.inj hdir
        have hroot : parentOf "d" = "" := by decide +kernel
        refine hname ⟨some .other, _, ⟨_, mem_cons_self, rfl, ?_, rfl⟩, _,
          mem_singleton_self _, rfl, ⟨nameD, rfl, ?_⟩, rfl⟩
        · rw [hroot]
        · rw [hroot]
          rfl
  · exact ⟨_, ⟨_, mem_singleton_self _, rfl, by decide +kernel, rfl⟩, by simp⟩
  · rintro ⟨entries, ⟨scanned, hmem, -, -, hlisting⟩, entry, hentry, -, -, htype⟩
    rw [List.mem_singleton.mp hmem] at hlisting
    cases hlisting
    cases List.mem_singleton.mp hentry
    cases htype

end Tgrep.RemovalSweep
