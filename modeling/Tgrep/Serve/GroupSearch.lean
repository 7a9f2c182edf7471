import Tgrep.Data.Ledger
import Tgrep.Data.Run

/-!
# The workers of a window

A query searches its candidates window by window. In a window each group of files has a worker, and
the workers share what is left of the budget of the response. A worker searches a file within what is
left, and then claims what the answer needs; one that cannot, or that is late, stops the window.

## Main definitions

* `SharedQuery.Worker.step`: one step of a worker, each access to what is shared by itself.
* `SharedQuery.Window.step`: one step of any worker.
* `SharedQuery.WindowRun`: a run of all workers to their ends, and what they found.
* `SharedQuery.Outcome`: what is known of the results, however the workers interleave.
* `SharedQuery.serial`: what the workers find if each runs to its end before the next one starts.

## Main results

* `SharedQuery.Worker.step_effect`: what one step does.
* `SharedQuery.inv_run`: what every run keeps.
* `SharedQuery.WindowRun.outcome`: **what a window finds**: the beginning of each group, within the
  budget; and everything, if there is no deadline and everything fits.
* `SharedQuery.windowRun_serial`: a run of the workers, one behind the other.

## Implementation notes

What is found in a file and how many bytes it takes is a parameter. A file that cannot be read is not
modelled, and so neither is a budget that is given back. That a worker learns late that another has
stopped is a choice. Comparing and exchanging may fail for no reason.
-/

namespace Tgrep

open List Ledger

namespace SharedQuery

open Run

/-- What the workers of a window share. -/
structure Shared where
  remaining : ℕ
  stopped : Bool
  deriving DecidableEq

/-- Where a worker is: before its first file, before a file, about to search it, about to claim its
bytes with what was left when it looked, about to stop the window, or at its end. -/
inductive Phase
  | entering
  | looping
  | reading
  | claiming
  | trying (left : ℕ)
  | leaving
  | finished
  deriving DecidableEq

/-- A worker: the files it still has, what it found in those before, and where it is. -/
structure Worker (Path Result : Type*) where
  todo : List Path
  found : List (Result × ℕ)
  phase : Phase
  deriving DecidableEq

/-- How a step goes: as usual, as one that sees a deadline or a stop, or with an exchange that fails
for no reason. -/
inductive Choice
  | go
  | halt
  | spurious
  deriving DecidableEq

variable {Path Result : Type*} (entry : Path → Result × ℕ) (deadline : Bool)

/-- Stop, if there is a reason to. -/
def Worker.halt (s : Shared) (w : Worker Path Result) : Option (Shared × Worker Path Result) :=
  if deadline || s.stopped then some (s, { w with phase := .leaving }) else none

/-- Claim the bytes of a file, with what was left when the worker looked. -/
def Worker.tryClaim (s : Shared) (w : Worker Path Result) (left : ℕ) :
    List Path → Choice → Option (Shared × Worker Path Result)
  | file :: rest, choice =>
    if left < (entry file).2 then some (s, { w with phase := .leaving })
    else
      match choice with
      | .go =>
        if s.remaining = left then
          some ({ s with remaining := left - (entry file).2 },
            ⟨rest, w.found ++ [entry file], .looping⟩)
        else some (s, { w with phase := .trying s.remaining })
      | .spurious => some (s, { w with phase := .trying s.remaining })
      | .halt => none
  | [], _ => none

/-- One step of a worker. -/
def Worker.step (s : Shared) (w : Worker Path Result) (choice : Choice) :
    Option (Shared × Worker Path Result) :=
  match w.phase, w.todo, choice with
  | .entering, _, .go => some (s, { w with phase := .looping })
  | .entering, _, .halt => w.halt deadline s
  | .looping, [], .go => some (s, { w with phase := .finished })
  | .looping, _ :: _, .go => some (s, { w with phase := .reading })
  | .looping, _ :: _, .halt => w.halt deadline s
  | .reading, file :: _, .go =>
    if (entry file).2 ≤ s.remaining then some (s, { w with phase := .claiming })
    else some (s, { w with phase := .leaving })
  | .claiming, _, .go => some (s, { w with phase := .trying s.remaining })
  | .trying left, todo, choice => w.tryClaim entry s left todo choice
  | .leaving, _, .go => some ({ s with stopped := true }, { w with phase := .finished })
  | _, _, _ => none

/-- A window: what is shared, and the workers. -/
structure Window (Path Result : Type*) where
  shared : Shared
  workers : List (Worker Path Result)

/-- A step of one of the workers. -/
def Window.step (c : Window Path Result) (a : ℕ × Choice) : Option (Window Path Result) :=
  match c.workers[a.1]? with
  | none => none
  | some w =>
    (w.step entry deadline c.shared a.2).map fun r => ⟨r.1, c.workers.set a.1 r.2⟩

/-- A window before it is searched. -/
def Window.start (budget : ℕ) (groups : List (List Path)) : Window Path Result :=
  ⟨⟨budget, false⟩, groups.map fun files => ⟨files, [], .entering⟩⟩

/-- The workers have run to their ends, and this is what each of them found. -/
def WindowRun (budget : ℕ) (groups : List (List Path)) (results : List (List (Result × ℕ))) : Prop :=
  ∃ c : Window Path Result,
    Reaches (Window.step entry deadline) (fun _ _ => True) (Window.start budget groups) c ∧
      (∀ w ∈ c.workers, w.phase = .finished) ∧ results = c.workers.map Worker.found

/-- What is known of the results of a window. -/
structure Outcome (budget : ℕ) (groups : List (List Path)) (results : List (List (Result × ℕ))) :
    Prop where
  /-- A worker found what is in the first files of its group. -/
  first : List.Forall₂ (fun files found => found <+: files.map entry) groups results
  /-- All of it fits. -/
  fits : (results.flatten.map Prod.snd).sum ≤ budget
  /-- Without a deadline, everything is found if everything fits. -/
  complete : deadline = false → (groups.flatten.map fun file => (entry file).2).sum ≤ budget →
    results = groups.map fun files => files.map entry

variable {entry deadline}

/-! ## One step -/

/-- What one step of a worker does. -/
inductive Effect (entry : Path → Result × ℕ) (deadline : Bool) (s : Shared)
    (w : Worker Path Result) : Shared → Worker Path Result → Prop
  /-- It goes on. -/
  | move (phase : Phase) : phase ≠ .leaving → (∀ left, phase ≠ .trying left) →
      (phase = .finished → w.todo = []) → Effect entry deadline s w s { w with phase := phase }
  /-- It looks what is left. -/
  | load : Effect entry deadline s w s { w with phase := .trying s.remaining }
  /-- It gives up, because of a deadline or a stop, or because a file does not fit. -/
  | giveUp : (deadline = true ∨ s.stopped = true ∨ ∃ file ∈ w.todo,
        s.remaining < (entry file).2 ∨ ∃ left, w.phase = .trying left ∧ left < (entry file).2) →
      Effect entry deadline s w s { w with phase := .leaving }
  /-- It claims the bytes of a file. -/
  | claim {file : Path} {rest : List Path} : w.todo = file :: rest → (entry file).2 ≤ s.remaining →
      Effect entry deadline s w { s with remaining := s.remaining - (entry file).2 }
        ⟨rest, w.found ++ [entry file], .looping⟩
  /-- It stops the window. -/
  | stop : w.phase = .leaving →
      Effect entry deadline s w { s with stopped := true } { w with phase := .finished }

variable {s' : Shared} {budget : ℕ} {s : Shared} {w' : Worker Path Result}

lemma Worker.halt_effect {w : Worker Path Result} (h : w.halt deadline s = some (s', w')) :
    Effect entry deadline s w s' w' := by
  rw [Worker.halt] at h
  split_ifs at h with hreason
  cases h
  rw [Bool.or_eq_true] at hreason
  exact .giveUp (hreason.imp_right .inl)

lemma Worker.tryClaim_effect {todo : List Path} {found : List (Result × ℕ)} {left : ℕ}
    {choice : Choice}
    (h : Worker.tryClaim entry s ⟨todo, found, .trying left⟩ left todo choice = some (s', w')) :
    Effect entry deadline s ⟨todo, found, .trying left⟩ s' w' := by
  cases todo with
  | nil => cases h
  | cons file rest =>
    rw [Worker.tryClaim.eq_def] at h
    dsimp only at h
    by_cases hless : left < (entry file).2
    · rw [if_pos hless] at h
      cases h
      exact .giveUp (.inr (.inr ⟨file, mem_cons_self, .inr ⟨left, rfl, hless⟩⟩))
    · rw [if_neg hless] at h
      cases choice with
      | go =>
        dsimp only at h
        split_ifs at h with hsame
        · cases h
          subst hsame
          exact .claim rfl (not_lt.mp hless)
        · cases h
          exact .load
      | spurious =>
        cases h
        exact .load
      | halt => cases h

/-- **What one step does.** -/
theorem Worker.step_effect {w : Worker Path Result} {choice : Choice}
    (h : w.step entry deadline s choice = some (s', w')) : Effect entry deadline s w s' w' := by
  obtain ⟨todo, found, phase⟩ := w
  rw [Worker.step.eq_def] at h
  dsimp only at h
  cases phase with
  | entering =>
    cases choice with
    | go =>
      cases h
      exact .move .looping (by simp) (by simp) (by simp)
    | halt => exact halt_effect h
    | spurious => cases h
  | looping =>
    cases todo with
    | nil =>
      cases choice with
      | go =>
        cases h
        exact .move .finished (by simp) (by simp) fun _ => rfl
      | halt => cases h
      | spurious => cases h
    | cons file rest =>
      cases choice with
      | go =>
        cases h
        exact .move .reading (by simp) (by simp) (by simp)
      | halt => exact halt_effect h
      | spurious => cases h
  | reading =>
    cases todo with
    | nil => cases choice <;> cases h
    | cons file rest =>
      cases choice with
      | go =>
        dsimp only at h
        split_ifs at h with hfits
        · cases h
          exact .move .claiming (by simp) (by simp) (by simp)
        · cases h
          exact .giveUp (.inr (.inr ⟨file, mem_cons_self, .inl (not_le.mp hfits)⟩))
      | halt => cases h
      | spurious => cases h
  | claiming =>
    cases choice with
    | go =>
      cases h
      exact .load
    | halt => cases h
    | spurious => cases h
  | trying left => exact tryClaim_effect h
  | leaving =>
    cases choice with
    | go =>
      cases h
      exact .stop rfl
    | halt => cases h
    | spurious => cases h
  | finished => cases h

/-! ## Runs -/

/-- The bytes of what a worker has found. -/
def Worker.claimed (w : Worker Path Result) : ℕ := (w.found.map Prod.snd).sum

variable (entry) in
/-- The bytes of the files that a worker still has. -/
def Worker.pending (w : Worker Path Result) : ℕ := (w.todo.map fun file => (entry file).2).sum

/-- A worker that has no reason to stop: what was left when it looked is still enough, and it is at
its end only behind its last file. -/
structure Fine (s : Shared) (w : Worker Path Result) : Prop where
  stays : w.phase ≠ .leaving
  looked : ∀ left, w.phase = .trying left → s.remaining ≤ left
  ended : w.phase = .finished → w.todo = []

/-- What every run keeps. -/
structure Inv (entry : Path → Result × ℕ) (deadline : Bool) (budget : ℕ)
    (groups : List (List Path)) (c : Window Path Result) : Prop where
  /-- Each worker has its group, and found what is in the files in front of those it still has. -/
  parts : List.Forall₂ (fun files w => w.found ++ w.todo.map entry = files.map entry) groups
    c.workers
  /-- Nothing is claimed twice, and nothing is lost. -/
  accounted : c.shared.remaining + Ledger.total Worker.claimed c.workers = budget
  /-- Without a deadline nobody stops, if everything fits. -/
  smooth : deadline = false → (groups.flatten.map fun file => (entry file).2).sum ≤ budget →
    c.shared.stopped = false ∧ ∀ w ∈ c.workers, Fine c.shared w

variable {groups : List (List Path)} {w : Worker Path Result}

/-- What the files of all groups need is what is claimed and what is still to be claimed. -/
lemma sum_groups {workers : List (Worker Path Result)}
    (h : List.Forall₂ (fun files w => w.found ++ w.todo.map entry = files.map entry) groups workers)
    :
    (groups.flatten.map fun file => (entry file).2).sum =
      Ledger.total Worker.claimed workers + Ledger.total (Worker.pending entry) workers := by
  induction h with
  | nil => rfl
  | @cons files w groups workers heq _ ih =>
    have hsum := congrArg (fun l : List (Result × ℕ) => (l.map Prod.snd).sum) heq
    simp only [map_append, sum_append, map_map] at hsum
    rw [flatten_cons, map_append, sum_append, ih, total_cons,
      total_cons, Worker.claimed, Worker.pending]
    have hfiles : (files.map fun file => (entry file).2) = files.map (Prod.snd ∘ entry) := rfl
    have htodo : (w.todo.map fun file => (entry file).2) = w.todo.map (Prod.snd ∘ entry) := rfl
    rw [hfiles, htodo, ← hsum]
    omega

/-- A file that a worker still has fits, if everything fits. -/
lemma Inv.fits {c : Window Path Result} (h : Inv entry deadline budget groups c)
    (hall : (groups.flatten.map fun file => (entry file).2).sum ≤ budget) (hw : w ∈ c.workers)
    {file : Path} (hfile : file ∈ w.todo) : (entry file).2 ≤ c.shared.remaining := by
  have hsum := sum_groups h.parts
  have hbudget := h.accounted
  have hpending := le_total (Worker.pending entry) hw
  have hone : (entry file).2 ≤ w.pending entry :=
    single_le_sum (fun _ _ => Nat.zero_le _) _ (mem_map.mpr ⟨file, hfile, rfl⟩)
  omega

lemma inv_start (budget : ℕ) (groups : List (List Path)) :
    Inv entry deadline budget groups (Window.start budget groups : Window Path Result) := by
  refine ⟨?_, ?_, fun _ _ => ⟨rfl, fun w hw => ?_⟩⟩
  · exact forall₂_map_right_iff.mpr (forall₂_same.mpr fun _ _ => rfl)
  · have hzero : total Worker.claimed
        (Window.start budget groups : Window Path Result).workers = 0 := by
      refine total_of_forall_eq_zero fun w hw => ?_
      obtain ⟨files, -, rfl⟩ := mem_map.mp hw
      rfl
    rw [hzero]
    rfl
  · obtain ⟨files, -, rfl⟩ := mem_map.mp hw
    exact ⟨by simp, by simp, by simp⟩

/-- One entry is replaced by one that stands in the same relation. -/
lemma forall₂_set {α β : Type*} {R : α → β → Prop} {as : List α} {bs : List β}
    (h : List.Forall₂ R as bs) {i : ℕ} {b b' : β} (hb : bs[i]? = some b)
    (himp : ∀ a, R a b → R a b') : List.Forall₂ R as (bs.set i b') := by
  induction h generalizing i with
  | nil => cases hb
  | cons hab hrest ih =>
    cases i with
    | zero =>
      obtain rfl := Option.some.inj hb
      exact List.Forall₂.cons (himp _ hab) hrest
    | succ i => exact List.Forall₂.cons hab (ih hb)

section Effects

variable {s s' : Shared} {w w' : Worker Path Result}

/-- What is found moves over from what is still to do. -/
lemma Effect.parts (h : Effect entry deadline s w s' w') :
    w'.found ++ w'.todo.map entry = w.found ++ w.todo.map entry := by
  cases h with
  | claim htodo _ =>
    rw [htodo, append_assoc]
    rfl
  | _ => rfl

/-- What is claimed is taken from what is left. -/
lemma Effect.accounted (h : Effect entry deadline s w s' w') :
    s'.remaining + w'.claimed = s.remaining + w.claimed := by
  cases h with
  | @claim file rest _ hfits =>
    have hclaimed : Worker.claimed ⟨rest, w.found ++ [entry file], .looping⟩ =
        w.claimed + (entry file).2 := by
      rw [Worker.claimed, Worker.claimed, map_append, sum_append]
      simp
    rw [hclaimed]
    dsimp only
    omega
  | _ => rfl

/-- A worker whose files all fit has no reason to stop. -/
lemma Effect.fine (h : Effect entry deadline s w s' w') (hdeadline : deadline = false)
    (hstopped : s.stopped = false) (hfine : Fine s w)
    (hfits : ∀ file ∈ w.todo, (entry file).2 ≤ s.remaining) :
    s'.stopped = false ∧ s'.remaining ≤ s.remaining ∧ Fine s' w' := by
  cases h with
  | move phase hstays hlooked hended =>
    exact ⟨hstopped, le_rfl, hstays, fun left hphase => absurd hphase (hlooked left), hended⟩
  | load =>
    refine ⟨hstopped, le_rfl, by simp, fun left hphase => ?_, by simp⟩
    cases hphase
    exact le_rfl
  | giveUp hreason =>
    rcases hreason with hlate | hstop | ⟨file, hfile, hless | ⟨left, hphase, hless⟩⟩
    · rw [hdeadline] at hlate
      cases hlate
    · rw [hstopped] at hstop
      cases hstop
    · exact absurd (hfits file hfile) (not_le.mpr hless)
    · have hlooked := hfine.looked left hphase
      exact absurd (hfits file hfile) (not_le.mpr (lt_of_le_of_lt hlooked hless))
  | claim htodo hle => exact ⟨hstopped, Nat.sub_le _ _, by simp, by simp, by simp⟩
  | stop hphase => exact absurd hphase hfine.stays

end Effects

/-- **Every step keeps it.** -/
theorem Inv.step {c c' : Window Path Result}
    (h : Inv entry deadline budget groups c) {a : ℕ × Choice}
    (hstep : c.step entry deadline a = some c') : Inv entry deadline budget groups c' := by
  rw [Window.step] at hstep
  cases hw : c.workers[a.1]? with
  | none =>
    rw [hw] at hstep
    cases hstep
  | some w =>
    rw [hw] at hstep
    obtain ⟨⟨s', w'⟩, hone, rfl⟩ := Option.map_eq_some_iff.mp hstep
    have heffect := Worker.step_effect hone
    have hmem := mem_of_getElem? hw
    refine ⟨forall₂_set h.parts hw fun _ => heffect.parts.trans, ?_, fun hdeadline hall => ?_⟩
    · have htotal := total_set Worker.claimed hw w'
      have hbefore := h.accounted
      have hafter := heffect.accounted
      dsimp only
      omega
    · obtain ⟨hstopped, hfine⟩ := h.smooth hdeadline hall
      obtain ⟨hstopped', hle, hfine'⟩ := heffect.fine hdeadline hstopped (hfine w hmem)
        fun file hfile => h.fits hall hmem hfile
      refine ⟨hstopped', fun other hother => ?_⟩
      rcases mem_or_eq_of_mem_set hother with hother | rfl
      · have hother := hfine other hother
        exact ⟨hother.stays, fun left hphase => hle.trans (hother.looked left hphase), hother.ended⟩
      · exact hfine'

/-- **What every run keeps.** -/
theorem inv_run {c : Window Path Result}
    (h : Reaches (Window.step entry deadline) (fun _ _ => True) (Window.start budget groups) c) :
    Inv entry deadline budget groups c :=
  h.invariant (fun _ _ _ hinv _ hstep => hinv.step hstep) (inv_start budget groups)

/-- Workers at their ends that had no reason to stop found everything. -/
lemma found_of_fine {workers : List (Worker Path Result)}
    (hparts : List.Forall₂ (fun files w => w.found ++ w.todo.map entry = files.map entry) groups
      workers) (hend : ∀ w ∈ workers, w.phase = .finished) (hfine : ∀ w ∈ workers, Fine s w) :
    workers.map Worker.found = groups.map fun files => files.map entry := by
  induction hparts with
  | nil => rfl
  | @cons files w groups workers heq _ ih =>
    rw [forall_mem_cons] at hend hfine
    rw [hfine.1.ended hend.1, map_nil, append_nil] at heq
    rw [map_cons, map_cons, heq, ih hend.2 hfine.2]

/-- **What a window finds**, however its workers interleave: the beginning of each group, within the
budget; and everything, if there is no deadline and everything fits. -/
theorem WindowRun.outcome {results : List (List (Result × ℕ))}
    (h : WindowRun entry deadline budget groups results) :
    Outcome entry deadline budget groups results := by
  obtain ⟨c, hreach, hend, rfl⟩ := h
  have hinv := inv_run hreach
  refine ⟨?_, ?_, fun hdeadline hall => ?_⟩
  · refine forall₂_map_right_iff.mpr (hinv.parts.imp fun files w heq => ?_)
    exact ⟨_, heq⟩
  · have haccounted := hinv.accounted
    have hclaimed : ((c.workers.map Worker.found).flatten.map Prod.snd).sum =
        total Worker.claimed c.workers := by
      rw [map_flatten, sum_flatten, map_map, map_map]
      rfl
    omega
  · obtain ⟨-, hfine⟩ := hinv.smooth hdeadline hall
    exact found_of_fine hinv.parts hend hfine

/-! ## One worker behind the other -/

variable (entry)

/-- What a worker finds that runs alone, and what it leaves. -/
def serialGroup : ℕ → List Path → List (Result × ℕ) × ℕ
  | left, [] => ([], left)
  | left, file :: rest =>
    if (entry file).2 ≤ left then
      let r := serialGroup (left - (entry file).2) rest
      (entry file :: r.1, r.2)
    else ([], left)

/-- What the workers find if each runs to its end before the next one starts. -/
def serial : ℕ → List (List Path) → List (List (Result × ℕ))
  | _, [] => []
  | left, files :: groups =>
    let r := serialGroup entry left files
    r.1 :: serial r.2 groups

variable {entry}

/-- A step of the worker in the middle. -/
lemma Window.step_middle {before behind : List (Worker Path Result)}
    (choice : Choice) (h : w.step entry deadline s choice = some (s', w')) :
    Window.step entry deadline ⟨s, before ++ w :: behind⟩ (before.length, choice) =
      some ⟨s', before ++ w' :: behind⟩ := by
  simp [Window.step, h]

variable (entry deadline) in
/-- A worker that is not disturbed comes to its end. -/
lemma reaches_serialGroup (before behind : List (Worker Path Result)) (files : List Path)
    (left : ℕ) (stopped : Bool) (found : List (Result × ℕ)) :
    ∃ stopped' todo, Reaches (Window.step entry deadline) (fun _ _ => True)
      ⟨⟨left, stopped⟩, before ++ ⟨files, found, .looping⟩ :: behind⟩
      ⟨⟨(serialGroup entry left files).2, stopped'⟩,
        before ++ ⟨todo, found ++ (serialGroup entry left files).1, .finished⟩ :: behind⟩ := by
  induction files generalizing left found with
  | nil =>
    refine ⟨stopped, [], (Reaches.refl _).next trivial (Window.step_middle .go ?_)⟩
    rw [serialGroup, append_nil]
    rfl
  | cons file rest ih =>
    have hread : Reaches (Window.step entry deadline) (fun _ _ => True)
        ⟨⟨left, stopped⟩, before ++ ⟨file :: rest, found, .looping⟩ :: behind⟩
        ⟨⟨left, stopped⟩, before ++ ⟨file :: rest, found, .reading⟩ :: behind⟩ :=
      (Reaches.refl _).next trivial (Window.step_middle .go rfl)
    rw [serialGroup]
    by_cases hfits : (entry file).2 ≤ left
    · rw [if_pos hfits]
      obtain ⟨stopped', todo, hrest⟩ := ih (left - (entry file).2) (found ++ [entry file])
      refine ⟨stopped', todo, ?_⟩
      have hclaiming : Reaches (Window.step entry deadline) (fun _ _ => True)
          ⟨⟨left, stopped⟩, before ++ ⟨file :: rest, found, .looping⟩ :: behind⟩
          ⟨⟨left, stopped⟩, before ++ ⟨file :: rest, found, .claiming⟩ :: behind⟩ :=
        hread.next trivial (Window.step_middle .go (if_pos hfits))
      have htrying : Reaches (Window.step entry deadline) (fun _ _ => True)
          ⟨⟨left, stopped⟩, before ++ ⟨file :: rest, found, .looping⟩ :: behind⟩
          ⟨⟨left, stopped⟩, before ++ ⟨file :: rest, found, .trying left⟩ :: behind⟩ :=
        hclaiming.next trivial (Window.step_middle .go rfl)
      have hclaimed := htrying.next trivial
        (Window.step_middle .go ((if_neg (not_lt.mpr hfits)).trans (if_pos rfl)))
      rw [append_assoc] at hrest
      exact hclaimed.trans hrest
    · rw [if_neg hfits]
      refine ⟨true, file :: rest, ?_⟩
      have hleaving : Reaches (Window.step entry deadline) (fun _ _ => True)
          ⟨⟨left, stopped⟩, before ++ ⟨file :: rest, found, .looping⟩ :: behind⟩
          ⟨⟨left, stopped⟩, before ++ ⟨file :: rest, found, .leaving⟩ :: behind⟩ :=
        hread.next trivial (Window.step_middle .go (if_neg hfits))
      rw [append_nil]
      exact hleaving.next trivial (Window.step_middle .go rfl)

variable (entry deadline) in
/-- Workers that run one behind the other come to their ends. -/
lemma reaches_serial (before : List (Worker Path Result)) (groups : List (List Path)) (left : ℕ)
    (stopped : Bool) (hend : ∀ w ∈ before, w.phase = .finished) :
    ∃ c : Window Path Result,
      Reaches (Window.step entry deadline) (fun _ _ => True)
        ⟨⟨left, stopped⟩, before ++ groups.map fun files => ⟨files, [], .entering⟩⟩ c ∧
      (∀ w ∈ c.workers, w.phase = .finished) ∧
      c.workers.map Worker.found = before.map Worker.found ++ serial entry left groups := by
  induction groups generalizing before left stopped with
  | nil =>
    refine ⟨_, Reaches.refl _, ?_, ?_⟩
    · simpa using hend
    · simp [serial]
  | cons files groups ih =>
    have henter : Reaches (Window.step entry deadline) (fun _ _ => True)
        ⟨⟨left, stopped⟩, before ++ (files :: groups).map fun files => ⟨files, [], .entering⟩⟩
        ⟨⟨left, stopped⟩, before ++ ⟨files, [], .looping⟩ ::
          groups.map fun files => ⟨files, [], .entering⟩⟩ :=
      (Reaches.refl _).next trivial (Window.step_middle .go rfl)
    obtain ⟨stopped', todo, hgroup⟩ := reaches_serialGroup entry deadline before
      (groups.map fun files => ⟨files, [], .entering⟩) files left stopped []
    obtain ⟨c, hrest, hall, hfound⟩ := ih
      (before ++ [⟨todo, [] ++ (serialGroup entry left files).1, .finished⟩])
      (serialGroup entry left files).2 stopped' (List.forall_mem_append.mpr ⟨hend, by simp⟩)
    rw [← append_cons] at hrest
    refine ⟨c, (henter.trans hgroup).trans hrest, hall, ?_⟩
    rw [hfound, serial]
    simp

/-- **A window can always be searched**: its workers may run one behind the other. -/
theorem windowRun_serial (budget : ℕ) (groups : List (List Path)) :
    WindowRun entry deadline budget groups (serial entry budget groups) := by
  obtain ⟨c, hreach, hend, hfound⟩ :=
    reaches_serial entry deadline [] groups budget false (by simp)
  exact ⟨c, hreach, hend, hfound.symm⟩

end SharedQuery

end Tgrep
