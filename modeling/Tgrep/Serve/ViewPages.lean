import Tgrep.Serve.SharedQuery

/-!
# Following the pages of a query

The client asks for the first page, and as long as the answer names a next one, for the page from
there on, and appends its rows to what it has.

## Main definitions

* `SharedQuery.viewPages`: the pages of a query, one behind the other.
* `SharedQuery.Complete`: what paging comes to.

## Main results

* `SharedQuery.followPages_spec`: what the client has is what is in front of the next cursor.
* `SharedQuery.viewPages_complete`: **the pages of a query are complete**, however the workers of
  their windows interleave.

## Implementation notes

The candidates stay the same from page to page. A client may stop early; whether it is done is a
parameter. The loop of the client has fuel, and as many pages as there are candidates are enough.
-/

namespace Tgrep

open List

namespace SharedQuery

variable {Path Parent Row Stats SearchStats : Type*}

/-! ## The client -/

/-- Append the rows of a page to those there are. A field that the page does not have stays. -/
def appendRows {α : Type*} : Option (List α) → Option (List α) → Except QueryError (Option (List α))
  | result, none => .ok result
  | some result, some rows => .ok (some (result ++ rows))
  | none, some _ => .error .fieldsDisagree

/-- Append a page. -/
def Answer.append (result page : Answer Path Row Stats SearchStats) :
    Except QueryError (Answer Path Row Stats SearchStats) :=
  match appendRows result.files page.files, appendRows result.found page.found,
      appendRows result.fileStats page.fileStats, appendRows result.searchStats page.searchStats with
  | .ok files, .ok found, .ok fileStats, .ok searchStats =>
    .ok ⟨files, found, fileStats, searchStats, page.nextPage⟩
  | _, _, _, _ => .error .fieldsDisagree

section Client

variable [LinearOrder Path] (done : Answer Path Row Stats SearchStats → Bool)
  (request : ℕ → Option (Option Path) → Except QueryError (Answer Path Row Stats SearchStats))

/-- Request the next page, as long as there is one. -/
def followPages : ℕ → ℕ → Option Path → Answer Path Row Stats SearchStats →
    Option (Except QueryError (Answer Path Row Stats SearchStats))
  | 0, _, _, _ => none
  | fuel + 1, number, cursor, result =>
    match result.nextPage with
    | none => some (.ok result)
    | some next =>
      let result := { result with nextPage := none }
      if done result then some (.ok result)
      else if cursor.all fun previous => decide (previous < next) then
        match request number (some (some next)) with
        | .error e => some (.error e)
        | .ok page =>
          match result.append page with
          | .error e => some (.error e)
          | .ok result => followPages fuel (number + 1) (some next) result
      else some (.error .cursorStuck)

/-- **Request every page of a query**, and append their rows. -/
def viewPages (paged : Bool) (fuel : ℕ) :
    Option (Except QueryError (Answer Path Row Stats SearchStats)) :=
  if !paged then some (request 0 none)
  else
    match request 0 (some none) with
    | .error e => some (.error e)
    | .ok result => followPages done request fuel 1 none result

end Client

/-! ## Candidates in their order -/

section Order

variable [LinearOrder Path]

variable {next : Path} {paths : List Path}

/-- The candidates from a cursor on are those that are not below it. -/
lemma fromCursor_some (hsorted : paths.Pairwise (· < ·)) (cursor : Path) :
    fromCursor paths (some cursor) = paths.filter fun path => decide (cursor ≤ path) := by
  have hle : paths.Pairwise fun a b => id a ≤ id b := hsorted.imp le_of_lt
  rw [fromCursor, Search.drop_lowerBound hle]
  simp only [id_eq]
  clear hle
  induction paths with
  | nil => rfl
  | cons path paths ih =>
    obtain ⟨hpath, hsorted⟩ := pairwise_cons.mp hsorted
    rw [dropWhile_cons, filter_cons]
    by_cases hlt : path < cursor
    · rw [if_pos (decide_eq_true hlt), if_neg (by simpa using hlt), ih hsorted]
    · rw [if_neg (by simpa using hlt), if_pos (by simpa using hlt), filter_eq_self.mpr]
      exact fun other hother => decide_eq_true ((not_lt.mp hlt).trans (hpath other hother).le)

/-- A filter and a cursor may be swapped. -/
lemma filter_fromCursor (hsorted : paths.Pairwise (· < ·)) (passes : Path → Bool)
    (cursor : Option Path) :
    (fromCursor paths cursor).filter passes = fromCursor (paths.filter passes) cursor := by
  cases cursor with
  | none => rfl
  | some cursor =>
    rw [fromCursor_some hsorted, fromCursor_some (hsorted.filter passes), filter_filter,
      filter_filter]
    exact filter_congr fun _ _ => Bool.and_comm _ _

/-- The candidates from one of them on. -/
lemma fromCursor_of_split {before rest : List Path}
    (hsorted : (before ++ next :: rest).Pairwise (· < ·)) :
    fromCursor (before ++ next :: rest) (some next) = next :: rest := by
  obtain ⟨-, hrest, hcross⟩ := pairwise_append.mp hsorted
  obtain ⟨hnext, -⟩ := pairwise_cons.mp hrest
  rw [fromCursor_some hsorted, filter_append, filter_eq_nil_iff.mpr, filter_eq_self.mpr, nil_append]
  · rintro path hpath
    rcases mem_cons.mp hpath with rfl | hpath
    · exact decide_eq_true le_rfl
    · exact decide_eq_true (hnext path hpath).le
  · intro path hpath
    simpa using hcross path hpath next mem_cons_self

/-- The candidates from a cursor on are in their order, and not below it. -/
lemma fromCursor_sorted (hsorted : paths.Pairwise (· < ·)) (cursor : Option Path) :
    (fromCursor paths cursor).Pairwise (· < ·) ∧
      ∀ path ∈ fromCursor paths cursor, ∀ previous, cursor = some previous → previous ≤ path := by
  cases cursor with
  | none => exact ⟨hsorted, fun _ _ _ h => nomatch h⟩
  | some cursor =>
    rw [fromCursor_some hsorted]
    refine ⟨hsorted.filter _, fun path hpath previous hprevious => ?_⟩
    obtain rfl := Option.some.inj hprevious
    exact of_decide_eq_true (mem_filter.mp hpath).2

/-- **The cursors increase**: behind a page that takes something is a greater path. -/
theorem lt_next (hsorted : paths.Pairwise (· < ·)) {cursor : Option Path}
    {taken behind : List Path} (hsplit : fromCursor paths cursor = taken ++ next :: behind)
    (htaken : taken ≠ []) : ∀ previous, cursor = some previous → previous < next := by
  intro previous hprevious
  obtain ⟨hrest, hle⟩ := fromCursor_sorted hsorted cursor
  rw [hsplit] at hrest hle
  obtain ⟨first, taken, rfl⟩ := exists_cons_of_ne_nil htaken
  have hfirst := hle first (by simp) previous hprevious
  exact hfirst.trans_lt ((pairwise_append.mp hrest).2.2 first mem_cons_self next mem_cons_self)

end Order

/-! ## Following the pages -/

/-- What paging comes to. -/
structure Complete [LinearOrder Path] (size : Path → ℕ)
    (answer : List Path → Option Path → Answer Path Row Stats SearchStats) (response : ℕ)
    (fixed : Option Path → ℕ) (wholeFixed : ℕ) (paths : List Path)
    (request : ℕ → Option (Option Path) → Except QueryError (Answer Path Row Stats SearchStats))
    (whole : Except QueryError (Answer Path Row Stats SearchStats)) : Prop where
  /-- Every page is a beginning of what is left. -/
  served : ∀ number cursor, Served size answer response (fixed cursor) (fromCursor paths cursor)
    (request number (some cursor))
  /-- The cursors increase. -/
  advances : ∀ number previous a next, request number (some (some previous)) = .ok a →
    a.nextPage = some next → previous < next
  /-- Following the pages comes to an end, and what the client has then is everything, unless a page
  has failed. -/
  followed : ∀ fuel, paths.length < fuel → ∃ result,
    viewPages (fun _ => false) request true fuel = some result ∧
      (result = .ok (answer paths none) ∨
        ∃ number cursor e, request number (some cursor) = .error e ∧ result = .error e)
  /-- Without pages the client has everything, or fails because not everything fits. -/
  unpaged : ∀ done fuel, viewPages done (fun _ _ => whole) false fuel =
    some (if response < wholeFixed + (paths.map size).sum then .error .responseLimit
      else .ok (answer paths none))

section Follow

variable [LinearOrder Path] {size : Path → ℕ}
  {answer : List Path → Option Path → Answer Path Row Stats SearchStats} {response : ℕ}
  {fixed : Option Path → ℕ} {paths : List Path}
  {request : ℕ → Option (Option Path) → Except QueryError (Answer Path Row Stats SearchStats)}

variable (hsorted : paths.Pairwise (· < ·))
  (hserved : ∀ number cursor, Served size answer response (fixed cursor)
    (fromCursor paths cursor) (request number (some cursor)))
  (hnext : ∀ files next, (answer files next).nextPage = next)
  (hrestart : ∀ files next, { answer files next with nextPage := none } = answer files none)
  (happend : ∀ files more next, (answer files none).append (answer more next) =
    .ok (answer (files ++ more) next))

include hsorted hserved hnext hrestart happend

/-- **What the client has**: everything in front of the next cursor. Each page takes at least one
candidate, so the fuel is enough. -/
theorem followPages_spec {fuel number : ℕ} {cursor : Option Path} {taken rest : List Path}
    (hpaths : paths = taken ++ rest) (hfuel : rest.length < fuel)
    (hcursor : ∀ previous, cursor = some previous → ∀ path ∈ rest, previous < path) :
    ∃ result, followPages (fun _ => false) request fuel number cursor (answer taken rest.head?) =
        some result ∧
      (result = .ok (answer paths none) ∨
        ∃ number cursor e, request number (some cursor) = .error e ∧ result = .error e) := by
  induction fuel generalizing number cursor taken rest with
  | zero => exact absurd hfuel (Nat.not_lt_zero _)
  | succ fuel ih =>
    rw [followPages, hnext]
    cases rest with
    | nil =>
      rw [append_nil] at hpaths
      exact ⟨_, rfl, .inl (by rw [hpaths]; rfl)⟩
    | cons next rest =>
      have hadvance : (cursor.all fun previous => decide (previous < next)) = true := by
        cases cursor with
        | none => rfl
        | some previous => exact decide_eq_true (hcursor previous rfl next mem_cons_self)
      have hfrom : fromCursor paths (some next) = next :: rest := by
        rw [hpaths] at hsorted ⊢
        exact fromCursor_of_split hsorted
      have hpage := hserved number (some next)
      rw [hfrom] at hpage
      rw [head?_cons]
      dsimp only
      rw [if_neg (by simp), if_pos hadvance, hrestart]
      generalize hanswer : request number (some (some next)) = page at hpage
      cases hpage with
      | @page more remaining hsplit hmore hfits =>
        dsimp only
        rw [happend]
        have hmore := hmore (cons_ne_nil _ _)
        have hlength := congrArg length hsplit
        have hpos := length_pos_iff.mpr hmore
        rw [length_append] at hlength
        refine ih (by rw [hpaths, hsplit, append_assoc]) (by omega) ?_
        intro previous hprevious path hpath
        obtain ⟨before, behind, rfl⟩ := append_of_mem hpath
        have htaken : fromCursor paths (some next) = (more ++ before) ++ path :: behind := by
          rw [hfrom, hsplit, append_assoc]
        exact lt_next hsorted htaken (by simp [hmore]) previous hprevious
      | tooLarge hsplit hfixed hlarge => exact ⟨_, rfl, .inr ⟨_, _, _, hanswer, rfl⟩⟩
      | overhead hfixed => exact ⟨_, rfl, .inr ⟨_, _, _, hanswer, rfl⟩⟩

/-- Paging is complete, if every page is a beginning of what is left. -/
lemma complete_of_served {wholeFixed : ℕ}
    {whole : Except QueryError (Answer Path Row Stats SearchStats)}
    (hwhole : whole = if response < wholeFixed + (paths.map size).sum then .error .responseLimit
      else .ok (answer paths none)) :
    Complete size answer response fixed wholeFixed paths request whole := by
  refine ⟨hserved, fun number previous a next ha hpage => ?_, fun fuel hfuel => ?_,
    fun done fuel => ?_⟩
  · have hserve := hserved number (some previous)
    rw [ha] at hserve
    generalize hrest : fromCursor paths (some previous) = rest at hserve
    cases hserve with
    | @page taken remaining hsplit htaken hfits =>
      rw [hnext] at hpage
      obtain ⟨behind, rfl⟩ := head?_eq_some_iff.mp hpage
      refine lt_next hsorted (hrest.trans hsplit) (htaken ?_) previous rfl
      rw [hsplit]
      simp
  · have hserve := hserved 0 none
    rw [viewPages, Bool.not_true, if_neg Bool.false_ne_true]
    generalize hanswer : request 0 (some none) = page at hserve
    cases hserve with
    | @page taken remaining hsplit htaken hfits =>
      have hpaths : paths = taken ++ remaining := hsplit
      refine followPages_spec hsorted hserved hnext hrestart happend hpaths ?_ fun _ h => nomatch h
      have hlength := congrArg length hpaths
      rw [length_append] at hlength
      omega
    | tooLarge hsplit hfixed hlarge => exact ⟨_, rfl, .inr ⟨_, _, _, hanswer, rfl⟩⟩
    | overhead hfixed => exact ⟨_, rfl, .inr ⟨_, _, _, hanswer, rfl⟩⟩
  · rw [viewPages, hwhole]
    rfl

end Follow

/-- The answers to two searches, one behind the other. -/
lemma Query.append_searchAnswer (q : Query Path Parent Row Stats SearchStats)
    (files more : List Path) (next : Option Path) :
    (q.searchAnswer files none).append (q.searchAnswer more next) =
      .ok (q.searchAnswer (files ++ more) next) := by
  simp only [searchAnswer, Answer.append, flatMap_append, appendRows]
  cases q.wantsSearchStats <;> rfl

/-- **The pages of a query are complete**, those of a search however the workers of their windows
interleave, and those of a listing: each is a beginning of what is left, within the budget and never
without progress; the cursors increase; one behind the other they are everything; and without pages
the answer is everything, iff everything fits. -/
theorem viewPages_complete [LinearOrder Path] [DecidableEq Parent]
    (q : Query Path Parent Row Stats SearchStats) {candidates listed : List Path}
    (hcandidates : candidates.Pairwise (· < ·)) (hlisted : listed.Pairwise (· < ·))
    {s : ℕ → Schedule Path (FileSearchResult Row Stats SearchStats)}
    (hs : ∀ number, (s number).Legal q.entry true)
    {w : Schedule Path (FileSearchResult Row Stats SearchStats)} (hw : w.Legal q.entry false) :
    Complete (fun file => (q.entry file).2) q.searchAnswer q.response
      (fun cursor => q.searchFixed true (fromCursor candidates cursor))
      (q.searchFixed false candidates) candidates
      (fun number page => q.searchPage (s number) page candidates)
      (q.searchPage w none candidates) ∧
    Complete q.encoded (listAnswer : _ → _ → Answer Path Row Stats SearchStats) q.response
      (fun _ => q.listFixed true listed) (q.listFixed false listed) (listed.filter q.passes)
      (fun _ page => q.listPage page listed) (q.listPage none listed) := by
  constructor
  · exact complete_of_served hcandidates
      (fun number cursor => Query.searchPage_served (hs number) cursor candidates)
      (fun _ _ => rfl) (fun _ _ => rfl) q.append_searchAnswer (Query.searchPage_unpaged hw candidates)
  · refine complete_of_served (hlisted.filter _) (fun _ cursor => ?_) (fun _ _ => rfl)
      (fun _ _ => rfl) (fun _ _ _ => rfl) (Query.listPage_unpaged listed)
    rw [← filter_fromCursor hlisted]
    exact Query.listPage_served cursor listed

/-- Three files of one directory, two of which fit into an answer. -/
def threeFiles : Query ℕ Unit ℕ ℕ ℕ :=
  ⟨fun _ => (), fun _ => 1, fun file => (⟨[file], none, none⟩, 10), fun _ => 10, fun _ => true, false,
    4, 70, 5, 5⟩

/-- The pages of a query over three files. -/
theorem viewPages_complete_threeFiles :
    ∃ result, viewPages (fun _ => false)
        (fun _ page => threeFiles.searchPage (.serial threeFiles.entry) page [1, 2, 3]) true 4 =
      some result ∧
      (result = .ok (threeFiles.searchAnswer [1, 2, 3] none) ∨
        ∃ (cursor : Option ℕ) (e : QueryError),
          threeFiles.searchPage (.serial threeFiles.entry) (some cursor) [1, 2, 3] = .error e ∧
            result = .error e) := by
  have hlisted : ([1, 2, 3] : List ℕ).Pairwise (· < ·) := by decide
  have hcomplete := viewPages_complete threeFiles hlisted hlisted
    (fun _ => Schedule.legal_serial threeFiles.entry true)
    (Schedule.legal_serial threeFiles.entry false)
  obtain ⟨result, hresult, hdone⟩ := hcomplete.1.followed 4 (by decide)
  exact ⟨result, hresult, hdone.imp_right fun ⟨_, hfailed⟩ => hfailed⟩

/-- A query whose answer has no room for a cursor. -/
def noRoom : Query ℕ Unit ℕ ℕ ℕ :=
  ⟨fun _ => (), fun _ => 1, fun file => (⟨[file], none, none⟩, 0), fun _ => 0, fun _ => true, false,
    4, 40, 5, 5⟩

/-- A page may neither search a file nor fail because a file alone does not fit: it fails because
its fixed parts do not fit, or has no file to search. -/
theorem page_without_progress :
    (¬ ((∃ taken next, taken ≠ [] ∧
          noRoom.searchPage (.serial noRoom.entry) (some none) [1] =
            .ok (noRoom.searchAnswer taken next)) ∨
        ∃ file left, [1].head? = some file ∧ left < (noRoom.entry file).2 ∧
          noRoom.searchPage (.serial noRoom.entry) (some none) [1] = .error .responseLimit)) ∧
    threeFiles.searchPage (.serial threeFiles.entry) (some none) [] =
      .ok (threeFiles.searchAnswer [] none) := by
  have hpage : noRoom.searchPage (.serial noRoom.entry) (some none) [1] =
      .error .responseLimit := by decide
  refine ⟨?_, by decide +kernel⟩
  rintro (⟨taken, next, -, hok⟩ | ⟨file, left, -, hless, -⟩)
  · rw [hpage] at hok
    cases hok
  · exact absurd hless (Nat.not_lt_zero left)

end SharedQuery

end Tgrep
