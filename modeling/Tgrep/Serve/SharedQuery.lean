import Mathlib.Data.List.SplitBy
import Mathlib.Data.String.Basic
import Tgrep.Data.Loops
import Tgrep.Data.Search
import Tgrep.Serve.GroupSearch

/-!
# A page of a query

The server answers a query on a view page by page. A page searches the candidates from a cursor on,
in windows of groups of siblings, and ends at the first file that a window did not find, because of
the budget of the response or of the time; the cursor of the next page is this file. A page that
would end before its first file searches this file once more, alone. A listing of files is paged in
the same way, path by path.

## Main definitions

* `SharedQuery.Query.searchPage`: a page of a search.
* `SharedQuery.Query.listPage`: a page of a listing.
* `SharedQuery.Served`: what a page is: the beginning of what is left.

## Main results

* `SharedQuery.Query.searchPage_served`, `SharedQuery.Query.listPage_served`: **every page is the
  beginning of what is left**, within the budget and never without progress.
* `SharedQuery.Query.searchPage_unpaged`, `SharedQuery.Query.listPage_unpaged`: an answer without
  pages has everything, iff everything fits.

## Implementation notes

What is found in a file, and how many bytes an answer needs for it, is a parameter. The time is
modelled by the windows that come too late, and the workers of a window by what they found. A source
whose files cannot be read, or whose view is published anew, is not modelled.
-/

namespace Tgrep

open List

namespace SharedQuery

/-! ## Answers -/

/-- What is found in a file. -/
structure FileSearchResult (Row Stats SearchStats : Type*) where
  rows : List Row
  stats : Option Stats
  searchStats : Option SearchStats

/-- The fields of an answer that depend on the page; a field that is not there is `none`. -/
@[ext] structure Answer (Path Row Stats SearchStats : Type*) where
  files : Option (List Path)
  found : Option (List Row)
  fileStats : Option (List Stats)
  searchStats : Option (List SearchStats)
  nextPage : Option Path
  deriving DecidableEq

/-- How a query or its client can fail. -/
inductive QueryError
  | responseLimit
  | outOfBounds
  | cursorStuck
  | fieldsDisagree
  deriving DecidableEq

/-- Charge bytes to a budget. -/
def charge (remaining bytes : ℕ) : Except QueryError ℕ :=
  if bytes ≤ remaining then .ok (remaining - bytes) else .error .responseLimit

/-- A query: how its paths are grouped, what is found in them, and what all this needs. -/
structure Query (Path Parent Row Stats SearchStats : Type*) where
  /-- The directory of a path. -/
  parent : Path → Parent
  /-- The length of a path. -/
  length : Path → ℕ
  /-- What is found in a file, and the bytes it needs. -/
  entry : Path → FileSearchResult Row Stats SearchStats × ℕ
  /-- The bytes that a path of a listing needs. -/
  encoded : Path → ℕ
  /-- The filters of a listing. -/
  passes : Path → Bool
  /-- Statistics of the search are asked for. -/
  wantsSearchStats : Bool
  threads : ℕ
  /-- The bytes of a response, and those of its envelope and of the statistics of the index. -/
  response : ℕ
  metadata : ℕ
  indexStats : ℕ

/-- What is not determined by a query: the windows that come too late, what the workers of a window
find, by its number and its budget, and what is found in a file alone. -/
structure Schedule (Path Result : Type*) where
  late : ℕ → Bool
  run : ℕ → ℕ → List (List Path) → List (List (Result × ℕ))
  alone : ℕ → Path → List (Result × ℕ)

/-- The workers keep to their steps. Only a page has a deadline. -/
structure Schedule.Legal {Path Result : Type*} (entry : Path → Result × ℕ) (paged : Bool)
    (s : Schedule Path Result) : Prop where
  run : ∀ number left window, WindowRun entry paged left window (s.run number left window)
  alone : ∀ left file, WindowRun entry false left [[file]] [s.alone left file]

/-- The workers run one behind the other. -/
def Schedule.serial {Path Result : Type*} (entry : Path → Result × ℕ) : Schedule Path Result where
  late := fun _ => false
  run := fun _ left window => SharedQuery.serial entry left window
  alone := fun left file => (serialGroup entry left [file]).1

/-- They keep to their steps then. -/
lemma Schedule.legal_serial {Path Result : Type*} (entry : Path → Result × ℕ) (paged : Bool) :
    (Schedule.serial entry).Legal entry paged where
  run := fun _ left window => windowRun_serial left window
  alone := fun left file => windowRun_serial left [[file]]

variable {Path Parent Row Stats SearchStats : Type*}

/-! ## Searching -/

/-- What a page has so far. -/
structure Page (Row Stats SearchStats : Type*) where
  remaining : ℕ
  searched : ℕ
  found : List Row
  fileStats : List Stats
  searchStats : List SearchStats

/-- A page with one more file. -/
def Page.push (p : Page Row Stats SearchStats)
    (entry : FileSearchResult Row Stats SearchStats × ℕ) : Page Row Stats SearchStats where
  remaining := p.remaining - entry.2
  searched := p.searched + 1
  found := p.found ++ entry.1.rows
  fileStats := p.fileStats ++ entry.1.stats.toList
  searchStats := p.searchStats ++ entry.1.searchStats.toList

/-- How the loop over the files goes on: with what there is now, with the end of the page in front
of a file, or with an error. -/
inductive Flow (Path Row Stats SearchStats : Type*)
  | go (p : Page Row Stats SearchStats)
  | cut (p : Page Row Stats SearchStats) (next : Path)
  | fail (e : QueryError)

/-- Go on, unless the page has ended. -/
def Flow.andThen (f : Flow Path Row Stats SearchStats)
    (k : Page Row Stats SearchStats → Flow Path Row Stats SearchStats) :
    Flow Path Row Stats SearchStats :=
  match f with
  | .go p => k p
  | .cut p next => .cut p next
  | .fail e => .fail e

section Collect

variable (s : Schedule Path (FileSearchResult Row Stats SearchStats)) (paged : Bool)

/-- Add a file to the page, with what its worker found, if anything. -/
def takeFile (p : Page Row Stats SearchStats) (relative : Path)
    (found : Option (FileSearchResult Row Stats SearchStats × ℕ)) :
    Flow Path Row Stats SearchStats :=
  let found := match found with
    | some found => some found
    | none =>
      -- a page makes progress, unless one file alone does not fit
      if paged && p.searched == 0 then (s.alone p.remaining relative).getLast? else none
  match found.filter fun f => f.2 ≤ p.remaining with
  | some found => .go (p.push found)
  | none => if !paged || p.searched == 0 then .fail .responseLimit else .cut p relative

/-- Add the files of a group. -/
def takeGroup : List Path → List (FileSearchResult Row Stats SearchStats × ℕ) →
    Page Row Stats SearchStats → Flow Path Row Stats SearchStats
  | [], _, p => .go p
  | relative :: siblings, found, p =>
    (takeFile s paged p relative found.head?).andThen (takeGroup siblings found.tail)

/-- Add the files of the groups of a window. -/
def takeWindow : List (List Path) → List (List (FileSearchResult Row Stats SearchStats × ℕ)) →
    Page Row Stats SearchStats → Flow Path Row Stats SearchStats
  | siblings :: window, found :: results, p =>
    (takeGroup s paged siblings found p).andThen (takeWindow window results)
  | _, _, p => .go p

/-- End the page in front of a window. -/
def cutAt (p : Page Row Stats SearchStats) : List (List Path) → Flow Path Row Stats SearchStats
  | (first :: _) :: _ => .cut p first
  | _ => .fail .outOfBounds

/-- Search the windows, each within what is left. -/
def takeWindows : ℕ → List (List (List Path)) → Page Row Stats SearchStats →
    Flow Path Row Stats SearchStats
  | _, [], p => .go p
  | number, window :: windows, p =>
    if paged && decide (0 < number) && s.late number then cutAt p window
    else
      (takeWindow s paged window (s.run number p.remaining window) p).andThen
        (takeWindows (number + 1) windows)

end Collect

/-- The files of a group, at most. -/
def groupFiles (candidates threads : ℕ) : ℕ :=
  let n := max 1 (min threads 6)
  max ((candidates + n - 1) / n) 8

/-- At most this many files are in a batch of siblings. -/
def READ_BATCH_FILES : ℕ := 64

/-- Siblings that stand beside each other, cut into batches. -/
def siblingBatchesSized [DecidableEq Parent] (parent : Path → Parent) (paths : List Path)
    (size : ℕ) : List (List Path) :=
  (paths.splitBy fun left right => parent left == parent right).flatMap
    (Loops.chunks (max 1 (min size READ_BATCH_FILES)))

/-- The candidates that are not in front of the cursor. -/
def fromCursor [LinearOrder Path] (paths : List Path) : Option Path → List Path
  | none => paths
  | some cursor => paths.drop (Search.lowerBound id cursor paths)

namespace Query

variable (q : Query Path Parent Row Stats SearchStats)

/-- Keep room for the cursor that may end a page. -/
def reserveCursor (remaining : ℕ) (paths : List Path) : Except QueryError ℕ :=
  charge remaining ((paths.map q.length).foldr max 0 * 6 + 32)

/-- What is left for the files of a search. -/
def searchLeft (paged : Bool) (paths : List Path) : Except QueryError ℕ := do
  let remaining ← charge q.response q.metadata
  let remaining ← charge remaining q.indexStats
  if paged then q.reserveCursor remaining paths else .ok remaining

/-- The answer of a search. -/
def ofPage (p : Page Row Stats SearchStats) (next : Option Path) :
    Answer Path Row Stats SearchStats :=
  ⟨none, some p.found, some p.fileStats, if q.wantsSearchStats then some p.searchStats else none,
    next⟩

/-- **A page of a search**, or the whole of it if no page is asked for. -/
def searchPage [LinearOrder Path] [DecidableEq Parent]
    (s : Schedule Path (FileSearchResult Row Stats SearchStats)) (page : Option (Option Path))
    (candidates : List Path) : Except QueryError (Answer Path Row Stats SearchStats) :=
  let paths := fromCursor candidates page.join
  match q.searchLeft page.isSome paths with
  | .error e => .error e
  | .ok remaining =>
    let groups := siblingBatchesSized q.parent paths (groupFiles paths.length q.threads)
    let width := max q.threads 1 * 4
    match takeWindows s page.isSome 0 (Loops.chunks width groups) ⟨remaining, 0, [], [], []⟩ with
    | .go p => .ok (q.ofPage p none)
    | .cut p next => .ok (q.ofPage p (some next))
    | .fail e => .error e

/-- What is left for the paths of a listing. -/
def listLeft (paged : Bool) (listed : List Path) : Except QueryError ℕ := do
  let remaining ← charge q.response q.metadata
  if paged then q.reserveCursor remaining listed else .ok remaining

/-- Take the paths of a listing, as long as they fit. -/
def listFrom (paged : Bool) : ℕ → List Path → List Path →
    Except QueryError (Answer Path Row Stats SearchStats)
  | _, taken, [] => .ok ⟨some taken, none, none, none, none⟩
  | remaining, taken, path :: rest =>
    match charge remaining (q.encoded path) with
    | .ok remaining => listFrom paged remaining (taken ++ [path]) rest
    | .error e =>
      if paged && !taken.isEmpty then .ok ⟨some taken, none, none, none, some path⟩
      else .error e

/-- **A page of a listing**, or the whole of it if no page is asked for. -/
def listPage [LinearOrder Path] (page : Option (Option Path)) (listed : List Path) :
    Except QueryError (Answer Path Row Stats SearchStats) :=
  match q.listLeft page.isSome listed with
  | .error e => .error e
  | .ok remaining =>
    q.listFrom page.isSome remaining [] ((fromCursor listed page.join).filter q.passes)

end Query

/-! ## What a page is -/

/-- What a page is, in front of the files that are left: a beginning of them, which is within the
budget, and not empty if any are left; or an error, because the next file alone does not fit, or
not even the fixed parts do. -/
inductive Served (size : Path → ℕ)
    (answer : List Path → Option Path → Answer Path Row Stats SearchStats) (response fixed : ℕ)
    (rest : List Path) : Except QueryError (Answer Path Row Stats SearchStats) → Prop
  | page {taken remaining : List Path} : rest = taken ++ remaining → (rest ≠ [] → taken ≠ []) →
      fixed + (taken.map size).sum ≤ response →
      Served size answer response fixed rest (.ok (answer taken remaining.head?))
  | tooLarge {file : Path} {more : List Path} : rest = file :: more → fixed ≤ response →
      response < fixed + size file →
      Served size answer response fixed rest (.error .responseLimit)
  | overhead : response < fixed → Served size answer response fixed rest (.error .responseLimit)

namespace Query

variable (q : Query Path Parent Row Stats SearchStats)

/-- The bytes that the longest of the paths needs as a cursor. -/
def cursorBytes (paths : List Path) : ℕ := (paths.map q.length).foldr max 0 * 6 + 32

/-- The bytes that an answer to a search needs besides those of its files. -/
def searchFixed (paged : Bool) (paths : List Path) : ℕ :=
  q.metadata + q.indexStats + if paged then q.cursorBytes paths else 0

/-- The bytes that an answer to a listing needs besides those of its paths. -/
def listFixed (paged : Bool) (listed : List Path) : ℕ :=
  q.metadata + if paged then q.cursorBytes listed else 0

/-- What is found in some files. -/
def searchAnswer (files : List Path) (next : Option Path) : Answer Path Row Stats SearchStats where
  files := none
  found := some (files.flatMap fun file => (q.entry file).1.rows)
  fileStats := some (files.flatMap fun file => (q.entry file).1.stats.toList)
  searchStats :=
    if q.wantsSearchStats then some (files.flatMap fun file => (q.entry file).1.searchStats.toList)
    else none
  nextPage := next

end Query

/-- A listing of some paths. -/
def listAnswer (files : List Path) (next : Option Path) : Answer Path Row Stats SearchStats :=
  ⟨some files, none, none, none, next⟩

/-! ### Budgets -/

lemma charge_charge (response a b : ℕ) :
    (charge response a >>= fun remaining => charge remaining b) = charge response (a + b) := by
  by_cases ha : a ≤ response
  · rw [charge, if_pos ha]
    change charge (response - a) b = charge response (a + b)
    rw [charge, charge, Nat.sub_sub]
    exact if_congr (by omega) rfl rfl
  · rw [charge, if_neg ha, charge, if_neg (by omega)]
    rfl

namespace Query

variable (q : Query Path Parent Row Stats SearchStats) (paged : Bool)

/-- Only a page keeps room for a cursor. -/
lemma reserve_eq (paths : List Path) (remaining : ℕ) :
    (if paged = true then q.reserveCursor remaining paths else .ok remaining) =
      charge remaining (if paged = true then q.cursorBytes paths else 0) := by
  cases paged with
  | true => rfl
  | false => exact (if_pos (Nat.zero_le _)).symm

/-- What is left for the files is what the fixed parts leave. -/
lemma searchLeft_eq (paths : List Path) :
    q.searchLeft paged paths = charge q.response (q.searchFixed paged paths) := by
  rw [searchLeft, searchFixed, ← charge_charge, ← charge_charge]
  simp only [reserve_eq, bind_assoc]

/-- What is left for the paths is what the fixed parts leave. -/
lemma listLeft_eq (listed : List Path) :
    q.listLeft paged listed = charge q.response (q.listFixed paged listed) := by
  rw [listLeft, listFixed, ← charge_charge]
  simp only [reserve_eq]

end Query

/-! ### The files of a page -/

/-- A page with some more files. -/
def Page.addAll (entry : Path → FileSearchResult Row Stats SearchStats × ℕ)
    (p : Page Row Stats SearchStats) (files : List Path) : Page Row Stats SearchStats :=
  files.foldl (fun p file => p.push (entry file)) p

section Collected

variable {entry : Path → FileSearchResult Row Stats SearchStats × ℕ}
  {p p' : Page Row Stats SearchStats}

@[simp] lemma Page.addAll_nil : p.addAll entry [] = p := rfl

lemma Page.addAll_singleton (file : Path) : p.addAll entry [file] = p.push (entry file) := rfl

variable {paged : Bool} (files : List Path)

lemma Page.addAll_append (more : List Path) :
    p.addAll entry (files ++ more) = (p.addAll entry files).addAll entry more :=
  foldl_append

@[simp] lemma Page.addAll_searched :
    (p.addAll entry files).searched = p.searched + files.length := by
  induction files generalizing p with
  | nil => rfl
  | cons file files ih =>
    have := @ih (p.push (entry file))
    rw [length_cons]
    exact this.trans (by simp only [Page.push]; omega)

/-- What is left of a page with some more files. -/
@[simp] lemma Page.addAll_remaining :
    (p.addAll entry files).remaining =
      p.remaining - (files.map fun file => (entry file).2).sum := by
  induction files generalizing p with
  | nil => rfl
  | cons file files ih =>
    have := @ih (p.push (entry file))
    rw [map_cons, sum_cons, ← Nat.sub_sub]
    exact this

/-- What is in a page with some more files. -/
lemma Page.addAll_found :
    (p.addAll entry files).found = p.found ++ files.flatMap (fun file => (entry file).1.rows) ∧
    (p.addAll entry files).fileStats =
      p.fileStats ++ files.flatMap (fun file => (entry file).1.stats.toList) ∧
    (p.addAll entry files).searchStats =
      p.searchStats ++ files.flatMap (fun file => (entry file).1.searchStats.toList) := by
  induction files generalizing p with
  | nil => simp
  | cons file files ih =>
    obtain ⟨hfound, hstats, hsearch⟩ := @ih (p.push (entry file))
    simp only [flatMap_cons, ← append_assoc]
    exact ⟨hfound, hstats, hsearch⟩

/-- What a loop over some files comes to: to its end, if all of them fit; to the end of the page in
front of one of them, if the page has any; or to an error. -/
inductive Collected (entry : Path → FileSearchResult Row Stats SearchStats × ℕ) (paged : Bool)
    (p : Page Row Stats SearchStats) (files : List Path) : Flow Path Row Stats SearchStats → Prop
  | all : (files.map fun file => (entry file).2).sum ≤ p.remaining →
      Collected entry paged p files (.go (p.addAll entry files))
  | cut {taken rest : List Path} {next : Path} : paged = true → files = taken ++ next :: rest →
      (taken.map fun file => (entry file).2).sum ≤ p.remaining →
      0 < p.searched + taken.length → Collected entry paged p files (.cut (p.addAll entry taken) next)
  | tooLarge {file : Path} {rest : List Path} : paged = true → p.searched = 0 →
      files = file :: rest → p.remaining < (entry file).2 →
      Collected entry paged p files (.fail .responseLimit)
  | full : paged = false → Collected entry paged p files (.fail .responseLimit)

/-- A page that has some file may end in front of the next one. -/
lemma Collected.cut_here {next : Path} {rest : List Path} (hpaged : paged = true)
    (hpos : 0 < p.searched) : Collected entry paged p (next :: rest) (.cut p next) :=
  @Collected.cut _ _ _ _ entry paged p _ [] rest next hpaged rfl (Nat.zero_le _) hpos

/-- A loop over some files, and then over some more. -/
lemma Collected.andThen {files more : List Path} {f : Flow Path Row Stats SearchStats}
    {k : Page Row Stats SearchStats → Flow Path Row Stats SearchStats}
    (h : Collected entry paged p files f)
    (hk : Collected entry paged (p.addAll entry files) more (k (p.addAll entry files))) :
    Collected entry paged p (files ++ more) (f.andThen k) := by
  cases h with
  | all hsum =>
    rw [Flow.andThen]
    generalize k (p.addAll entry files) = g at hk
    cases hk with
    | all hmore =>
      rw [← Page.addAll_append]
      rw [Page.addAll_remaining] at hmore
      exact .all (by rw [map_append, sum_append]; omega)
    | @cut taken rest next hpaged hsplit hmore hpos =>
      rw [← Page.addAll_append]
      rw [Page.addAll_remaining] at hmore
      rw [Page.addAll_searched] at hpos
      refine @Collected.cut _ _ _ _ entry paged p _ (files ++ taken) rest next hpaged ?_ ?_ ?_
      · rw [hsplit, append_assoc]
      · rw [map_append, sum_append]
        omega
      · rw [length_append]
        omega
    | @tooLarge file rest hpaged hzero hsplit hlarge =>
      rw [Page.addAll_searched] at hzero
      obtain rfl : files = [] := length_eq_zero_iff.mp (by omega)
      exact .tooLarge hpaged (by simpa using hzero) hsplit hlarge
    | full hpaged => exact .full hpaged
  | @cut taken rest next hpaged hsplit hsum hpos =>
    exact .cut hpaged (by rw [hsplit, append_assoc]; rfl) hsum hpos
  | @tooLarge file rest hpaged hzero hsplit hlarge =>
    exact .tooLarge hpaged hzero (by rw [hsplit]; rfl) hlarge
  | full hpaged => exact .full hpaged

end Collected

/-! ### The loops -/

section Loops

variable {entry : Path → FileSearchResult Row Stats SearchStats × ℕ}
  {s : Schedule Path (FileSearchResult Row Stats SearchStats)} {paged : Bool}
  {p : Page Row Stats SearchStats}

/-- A file alone is found iff it fits. -/
lemma Schedule.Legal.alone_eq (h : s.Legal entry paged) (left : ℕ) (file : Path) :
    s.alone left file = if (entry file).2 ≤ left then [entry file] else [] := by
  have houtcome := (h.alone left file).outcome
  by_cases hfits : (entry file).2 ≤ left
  · rw [if_pos hfits]
    simpa using houtcome.complete rfl (by simpa using hfits)
  · rw [if_neg hfits]
    have hfirst : s.alone left file <+: [entry file] := by simpa using houtcome.first
    cases hfound : s.alone left file with
    | nil => rfl
    | cons found rest =>
      rw [hfound] at hfirst
      obtain rfl : found = entry file := (cons_prefix_cons.mp hfirst).1
      have hsum := houtcome.fits
      rw [hfound] at hsum
      simp only [flatten_singleton, map_cons, sum_cons] at hsum
      omega

/-- What is done with a file that has been found. -/
lemma takeFile_some (file : Path) :
    takeFile s paged p file (some (entry file)) =
      if (entry file).2 ≤ p.remaining then .go (p.push (entry file))
      else if (!paged || p.searched == 0) = true then .fail .responseLimit else .cut p file := by
  by_cases hfits : (entry file).2 ≤ p.remaining
  · rw [takeFile, Option.filter_some_pos (by simpa using hfits), if_pos hfits]
  · rw [takeFile, Option.filter_some_neg (by simpa using hfits), if_neg hfits]

/-- What is done with a file that has not been found. -/
lemma takeFile_none (h : s.Legal entry paged) (file : Path) :
    takeFile s paged p file none =
      if (paged && p.searched == 0) = true then takeFile s paged p file (some (entry file))
      else if (!paged || p.searched == 0) = true then .fail .responseLimit else .cut p file := by
  by_cases hempty : (paged && p.searched == 0) = true
  · rw [if_pos hempty, takeFile, takeFile, if_pos hempty, h.alone_eq]
    by_cases hfits : (entry file).2 ≤ p.remaining
    · rw [if_pos hfits]
      rfl
    · rw [if_neg hfits, Option.filter_some_neg (by simpa using hfits)]
      rfl
  · rw [if_neg hempty, takeFile, if_neg hempty]
    rfl

/-- **A file** is added, or it ends the page. -/
theorem collected_takeFile (h : s.Legal entry paged) {file : Path}
    {found : Option (FileSearchResult Row Stats SearchStats × ℕ)}
    (hfound : ∀ f, found = some f → f = entry file) :
    Collected entry paged p [file] (takeFile s paged p file found) := by
  have hsome : Collected entry paged p [file] (takeFile s paged p file (some (entry file))) := by
    rw [takeFile_some]
    by_cases hfits : (entry file).2 ≤ p.remaining
    · rw [if_pos hfits, ← Page.addAll_singleton]
      exact .all (by simpa using hfits)
    · rw [if_neg hfits]
      cases hpaged : paged with
      | false => exact .full rfl
      | true =>
        by_cases hzero : p.searched = 0
        · rw [if_pos (by simp [hzero])]
          exact .tooLarge rfl hzero rfl (not_le.mp hfits)
        · rw [if_neg (by simp [hzero])]
          exact .cut_here rfl (Nat.pos_of_ne_zero hzero)
  cases found with
  | some f => rwa [hfound f rfl]
  | none =>
    rw [takeFile_none h]
    by_cases hempty : (paged && p.searched == 0) = true
    · rwa [if_pos hempty]
    · rw [if_neg hempty]
      cases hpaged : paged with
      | false => exact .full rfl
      | true =>
        rw [hpaged] at hempty
        have hzero : p.searched ≠ 0 := by simpa using hempty
        rw [if_neg (by simp [hzero])]
        exact .cut_here rfl (Nat.pos_of_ne_zero hzero)

variable {siblings : List Path} {window : List (List Path)} {windows : List (List (List Path))}

/-- **A group**: what its worker found is a beginning of it. -/
theorem collected_takeGroup (h : s.Legal entry paged)
    {found : List (FileSearchResult Row Stats SearchStats × ℕ)}
    (hfound : found <+: siblings.map entry) :
    Collected entry paged p siblings (takeGroup s paged siblings found p) := by
  induction siblings generalizing found p with
  | nil => exact .all (Nat.zero_le _)
  | cons file siblings ih =>
    rw [takeGroup, ← singleton_append]
    refine (collected_takeFile h fun f hf => ?_).andThen (ih ?_)
    · cases found with
      | nil => cases hf
      | cons f' rest =>
        obtain rfl := Option.some.inj hf
        exact (cons_prefix_cons.mp hfound).1
    · cases found with
      | nil => exact nil_prefix
      | cons f' rest => exact (cons_prefix_cons.mp hfound).2

/-- **A window.** -/
theorem collected_takeWindow (h : s.Legal entry paged)
    {results : List (List (FileSearchResult Row Stats SearchStats × ℕ))}
    (hresults : List.Forall₂ (fun files found => found <+: files.map entry) window results) :
    Collected entry paged p window.flatten (takeWindow s paged window results p) := by
  induction hresults generalizing p with
  | nil => exact .all (Nat.zero_le _)
  | cons hfound _ ih => exact (collected_takeGroup h hfound).andThen ih

/-- **All windows**: each is searched within what is left. -/
theorem collected_takeWindows (h : s.Legal entry paged)
    (hwindows : ∀ window ∈ windows, window ≠ [] ∧ ∀ siblings ∈ window, siblings ≠ []) (number : ℕ)
    (hnumber : 0 < number → 0 < p.searched) :
    Collected entry paged p windows.flatten.flatten (takeWindows s paged number windows p) := by
  induction windows generalizing number p with
  | nil => exact .all (Nat.zero_le _)
  | cons window windows ih =>
    obtain ⟨⟨hne, hsiblings⟩, hrest⟩ := forall_mem_cons.mp hwindows
    obtain ⟨group, groups, rfl⟩ := exists_cons_of_ne_nil hne
    obtain ⟨first, siblings, rfl⟩ :=
      exists_cons_of_ne_nil (hsiblings group mem_cons_self)
    rw [takeWindows]
    by_cases hlate : (paged && decide (0 < number) && s.late number) = true
    · rw [if_pos hlate]
      obtain ⟨⟨hpaged, hpos⟩, -⟩ : (paged = true ∧ 0 < number) ∧ s.late number = true := by
        simpa using hlate
      exact .cut_here hpaged (hnumber hpos)
    · rw [if_neg hlate, flatten_cons, flatten_append]
      refine (collected_takeWindow h (h.run number p.remaining _).outcome.first).andThen
        (ih hrest (number + 1) fun _ => ?_)
      rw [Page.addAll_searched]
      simp

/-- Files that have been found and fit are added. -/
lemma takeGroup_whole (hsum : (siblings.map fun file => (entry file).2).sum ≤ p.remaining) :
    takeGroup s paged siblings (siblings.map entry) p = .go (p.addAll entry siblings) := by
  induction siblings generalizing p with
  | nil => rfl
  | cons file siblings ih =>
    rw [map_cons, sum_cons] at hsum
    rw [takeGroup, map_cons, head?_cons, takeFile_some, if_pos (by omega)]
    exact ih (by simp only [Page.push]; omega)

/-- Groups that have been found and fit are added. -/
lemma takeWindow_whole (hsum : (window.flatten.map fun file => (entry file).2).sum ≤ p.remaining) :
    takeWindow s paged window (window.map fun files => files.map entry) p =
      .go (p.addAll entry window.flatten) := by
  induction window generalizing p with
  | nil => rfl
  | cons siblings window ih =>
    rw [flatten_cons, map_append, sum_append] at hsum
    rw [map_cons, takeWindow, takeGroup_whole (by omega), Flow.andThen, flatten_cons,
      Page.addAll_append]
    exact ih (by rw [Page.addAll_remaining]; omega)

/-- **An answer without pages has everything, if everything fits.** -/
theorem takeWindows_whole (h : s.Legal entry false)
    (hsum : (windows.flatten.flatten.map fun file => (entry file).2).sum ≤ p.remaining) (number : ℕ)
    : takeWindows s false number windows p = .go (p.addAll entry windows.flatten.flatten) := by
  induction windows generalizing number p with
  | nil => rfl
  | cons window windows ih =>
    rw [flatten_cons, flatten_append, map_append, sum_append] at hsum
    have hcomplete := (h.run number p.remaining window).outcome.complete rfl (by omega)
    rw [takeWindows, if_neg (by simp), hcomplete, takeWindow_whole (by omega), Flow.andThen,
      flatten_cons, flatten_append, Page.addAll_append]
    exact ih (by rw [Page.addAll_remaining]; omega) _

end Loops

/-! ### Pages -/

/-- Batches of siblings concatenate to the paths, and none of them is empty. -/
lemma flatten_siblingBatchesSized [DecidableEq Parent] (parent : Path → Parent)
    (paths : List Path) (size : ℕ) :
    (siblingBatchesSized parent paths size).flatten = paths ∧
      ∀ batch ∈ siblingBatchesSized parent paths size, batch ≠ [] := by
  have hpos : 0 < max 1 (min size READ_BATCH_FILES) := lt_max_of_lt_left one_pos
  constructor
  · conv_rhs => rw [← flatten_splitBy (fun left right => parent left == parent right) paths]
    rw [siblingBatchesSized]
    generalize paths.splitBy (fun left right => parent left == parent right) = groups
    induction groups with
    | nil => rfl
    | cons siblings groups ih =>
      rw [flatMap_cons, flatten_append, ih, Loops.flatten_chunks hpos, flatten_cons]
  · intro batch hbatch
    obtain ⟨siblings, -, hbatch⟩ := mem_flatMap.mp hbatch
    exact Loops.ne_nil_of_mem_chunks hpos hbatch

namespace Query

variable {q : Query Path Parent Row Stats SearchStats}
  {s : Schedule Path (FileSearchResult Row Stats SearchStats)}

variable (remaining : ℕ) (taken rest : List Path)

/-- The answer of a page that has some files. -/
lemma ofPage_addAll (searched : ℕ) (files : List Path) (next : Option Path) :
    q.ofPage (Page.addAll q.entry ⟨remaining, searched, [], [], []⟩ files) next =
      q.searchAnswer files next := by
  obtain ⟨hfound, hstats, hsearch⟩ := @Page.addAll_found _ _ _ _ q.entry
    ⟨remaining, searched, [], [], []⟩ files
  rw [ofPage, hfound, hstats, hsearch]
  rfl

/-- The windows of the candidates have them all, and none of them is empty. -/
lemma windows_spec [DecidableEq Parent] (paths : List Path) :
    (Loops.chunks (max q.threads 1 * 4)
      (siblingBatchesSized q.parent paths (groupFiles paths.length q.threads))).flatten.flatten =
        paths ∧
    ∀ window ∈ Loops.chunks (max q.threads 1 * 4)
      (siblingBatchesSized q.parent paths (groupFiles paths.length q.threads)),
        window ≠ [] ∧ ∀ siblings ∈ window, siblings ≠ [] := by
  have hpos : 0 < max q.threads 1 * 4 := by omega
  obtain ⟨hflatten, hne⟩ :=
    flatten_siblingBatchesSized q.parent paths (groupFiles paths.length q.threads)
  refine ⟨by rw [Loops.flatten_chunks hpos, hflatten], fun window hwindow => ⟨?_, ?_⟩⟩
  · exact Loops.ne_nil_of_mem_chunks hpos hwindow
  · exact fun siblings hsiblings => hne siblings (Loops.mem_of_mem_chunks hpos hwindow hsiblings)

section Search

variable [LinearOrder Path] [DecidableEq Parent]

/-- **Every page of a search** is a beginning of the files from its cursor on. -/
theorem searchPage_served (h : s.Legal q.entry true) (cursor : Option Path)
    (candidates : List Path) :
    Served (fun file => (q.entry file).2) q.searchAnswer q.response
      (q.searchFixed true (fromCursor candidates cursor)) (fromCursor candidates cursor)
      (q.searchPage s (some cursor) candidates) := by
  rw [searchPage]
  dsimp only [Option.isSome_some, Option.join_some]
  generalize fromCursor candidates cursor = paths
  rw [searchLeft_eq, charge]
  by_cases hfixed : q.searchFixed true paths ≤ q.response
  · rw [if_pos hfixed]
    obtain ⟨hflatten, hwindows⟩ := windows_spec (q := q) paths
    have hcollected := collected_takeWindows h
      (p := ⟨q.response - q.searchFixed true paths, 0, [], [], []⟩) hwindows 0
      fun hpos => absurd hpos (lt_irrefl 0)
    rw [hflatten] at hcollected
    dsimp only
    generalize takeWindows s true 0 _ _ = flow at hcollected ⊢
    cases hcollected with
    | all hsum =>
      dsimp only at hsum ⊢
      rw [ofPage_addAll]
      refine @Served.page _ _ _ _ _ _ _ _ _ paths [] (append_nil _).symm id ?_
      omega
    | @cut taken rest next hpaged hsplit hsum hpos =>
      dsimp only at hsum hpos ⊢
      rw [ofPage_addAll]
      refine @Served.page _ _ _ _ _ _ _ _ _ taken (next :: rest) hsplit (fun _ => ?_) ?_
      · exact ne_nil_of_length_pos (by omega)
      · omega
    | tooLarge hpaged hzero hsplit hlarge =>
      dsimp only at hlarge ⊢
      exact .tooLarge hsplit hfixed (by omega)
    | full hpaged => cases hpaged
  · rw [if_neg hfixed]
    exact .overhead (not_le.mp hfixed)

/-- **A search without pages** has everything, and fails iff not everything fits. -/
theorem searchPage_unpaged (h : s.Legal q.entry false) (candidates : List Path) :
    q.searchPage s none candidates =
      if q.response < q.searchFixed false candidates +
          (candidates.map fun file => (q.entry file).2).sum then .error .responseLimit
      else .ok (q.searchAnswer candidates none) := by
  rw [searchPage]
  dsimp only [Option.isSome_none, Option.join_none, fromCursor]
  rw [searchLeft_eq, charge]
  obtain ⟨hflatten, hwindows⟩ := windows_spec (q := q) candidates
  by_cases hfixed : q.searchFixed false candidates ≤ q.response
  · rw [if_pos hfixed]
    dsimp only
    by_cases hfits : (candidates.map fun file => (q.entry file).2).sum ≤
        q.response - q.searchFixed false candidates
    · rw [takeWindows_whole h (by rw [hflatten]; exact hfits), hflatten, if_neg (by omega)]
      dsimp only
      rw [ofPage_addAll]
    · rw [if_pos (by omega)]
      have hcollected := collected_takeWindows h
        (p := ⟨q.response - q.searchFixed false candidates, 0, [], [], []⟩) hwindows 0
        fun hpos => absurd hpos (lt_irrefl 0)
      rw [hflatten] at hcollected
      generalize takeWindows s false 0 _ _ = flow at hcollected ⊢
      cases hcollected with
      | all hsum => exact absurd hsum hfits
      | cut hpaged => cases hpaged
      | tooLarge hpaged => cases hpaged
      | full => rfl
  · rw [if_neg hfixed, if_pos (by omega)]

end Search

/-- How far the paths of a page fit. -/
lemma listFrom_paged :
    (∃ more behind, rest = more ++ behind ∧ (more.map q.encoded).sum ≤ remaining ∧
      (behind ≠ [] → taken ++ more ≠ []) ∧
      q.listFrom true remaining taken rest = .ok (listAnswer (taken ++ more) behind.head?)) ∨
    (taken = [] ∧ ∃ file behind, rest = file :: behind ∧ remaining < q.encoded file ∧
      q.listFrom true remaining taken rest = .error .responseLimit) := by
  induction rest generalizing remaining taken with
  | nil =>
    refine .inl ⟨[], [], rfl, Nat.zero_le _, fun h => absurd rfl h, ?_⟩
    rw [listFrom, append_nil]
    rfl
  | cons file rest ih =>
    rw [listFrom, charge]
    by_cases hfits : q.encoded file ≤ remaining
    · rw [if_pos hfits]
      dsimp only
      rcases ih (remaining - q.encoded file) (taken ++ [file]) with
        ⟨more, behind, rfl, hsum, hne, heq⟩ | ⟨hempty, -⟩
      · refine .inl ⟨file :: more, behind, rfl, ?_, fun _ => by simp, ?_⟩
        · rw [map_cons, sum_cons]
          omega
        · rw [heq, append_assoc, singleton_append]
      · simp at hempty
    · rw [if_neg hfits]
      cases taken with
      | nil => exact .inr ⟨rfl, file, rest, rfl, not_le.mp hfits, rfl⟩
      | cons first taken =>
        refine .inl ⟨[], file :: rest, rfl, Nat.zero_le _, fun _ => by simp, ?_⟩
        rw [append_nil]
        rfl

/-- A listing without pages has all paths, and fails iff not all of them fit. -/
lemma listFrom_unpaged :
    q.listFrom false remaining taken rest =
      if remaining < (rest.map q.encoded).sum then .error .responseLimit
      else .ok (listAnswer (taken ++ rest) none) := by
  induction rest generalizing remaining taken with
  | nil =>
    rw [listFrom, append_nil]
    rfl
  | cons file rest ih =>
    rw [listFrom, charge, map_cons, sum_cons]
    by_cases hfits : q.encoded file ≤ remaining
    · rw [if_pos hfits]
      dsimp only
      rw [ih, append_assoc, singleton_append]
      exact if_congr (by omega) rfl rfl
    · rw [if_neg hfits, if_pos (by omega)]
      rfl

variable [LinearOrder Path]

/-- **Every page of a listing** is a beginning of the paths from its cursor on. -/
theorem listPage_served (cursor : Option Path) (listed : List Path) :
    Served q.encoded listAnswer q.response (q.listFixed true listed)
      ((fromCursor listed cursor).filter q.passes) (q.listPage (some cursor) listed) := by
  rw [listPage]
  dsimp only [Option.isSome_some, Option.join_some]
  generalize (fromCursor listed cursor).filter q.passes = paths
  rw [listLeft_eq, charge]
  by_cases hfixed : q.listFixed true listed ≤ q.response
  · rw [if_pos hfixed]
    dsimp only
    rcases listFrom_paged (q := q) (q.response - q.listFixed true listed) [] paths with
      ⟨more, behind, rfl, hsum, hne, heq⟩ | ⟨-, file, behind, rfl, hlarge, heq⟩
    · rw [heq]
      have hbytes : q.listFixed true listed + (more.map q.encoded).sum ≤ q.response := by omega
      refine .page rfl (fun hpaths => ?_) hbytes
      cases behind with
      | nil => simpa using hpaths
      | cons next behind => exact hne (cons_ne_nil _ _)
    · rw [heq]
      exact .tooLarge rfl hfixed (by omega)
  · rw [if_neg hfixed]
    exact .overhead (not_le.mp hfixed)

/-- **A listing without pages** has everything, and fails iff not everything fits. -/
theorem listPage_unpaged (listed : List Path) :
    q.listPage none listed =
      if q.response < q.listFixed false listed + ((listed.filter q.passes).map q.encoded).sum
      then .error .responseLimit
      else .ok (listAnswer (listed.filter q.passes) none) := by
  rw [listPage]
  dsimp only [Option.isSome_none, Option.join_none, fromCursor]
  rw [listLeft_eq, charge]
  by_cases hfixed : q.listFixed false listed ≤ q.response
  · rw [if_pos hfixed]
    dsimp only
    rw [listFrom_unpaged]
    exact if_congr (by omega) rfl rfl
  · rw [if_neg hfixed, if_pos (by omega)]

end Query

end SharedQuery

end Tgrep
