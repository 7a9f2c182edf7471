import Tgrep.Data.Keyset
import Tgrep.Managed.CollectionCursor

/-!
# A collection traversal visits every object once

A pass takes up the saved cursor, selects one object after another, saves the cursor before it
deals with the selected object, and saves it at its end. It ends at a bound of its own, with an
error, or with the process. In between, objects are created, used, change their state and are
removed, by this pass and by others.

## Main definitions

* `CollectionTraversal.Traversal`: a cursor, with the selections that led to it.
* `CollectionTraversal.Pc`, `CollectionTraversal.State`, `CollectionTraversal.step`: a pass, the
  catalog with what is saved, and every step of both.
* `CollectionTraversal.Sound`, `CollectionTraversal.Inv`: what the place of the cursor says about
  the selections.

## Main results

* `CollectionTraversal.step_inv`: every step keeps the invariant.
* `CollectionTraversal.traversal_complete`: the order of the selections, the mark, and completion.

## Implementation notes

The selections of a traversal are not part of the cursor: they are its history. An object counts
as selected when the query returns it for the cursor; a pass that finds it in the saved cursor
continues with that selection. A pass that ends without saving has not moved the saved cursor, so
its last selections do not belong to the traversal; none of those objects was dealt with.
-/

namespace Tgrep.Managed

open Option List

namespace CollectionTraversal

/-- A cursor, with the selections that led to it. -/
structure Traversal where
  /-- The cursor. -/
  cursor : CollectionCursor
  /-- What was selected, in order. -/
  selected : List Selection
  deriving DecidableEq

/-- Where a pass is. -/
inductive Pc
  /-- No pass runs. -/
  | idle
  /-- At the top of the loop. -/
  | loop (T : Traversal)
  /-- An object is selected, and not looked at yet. -/
  | chosen (T : Traversal) (id : Id)
  /-- It is there, and the cursor is about to be saved. -/
  | found (T : Traversal) (id : Id)
  /-- The cursor is saved, and the object is dealt with. -/
  | collecting (T : Traversal) (id : Id)
  /-- Out of the loop. -/
  | ending (T : Traversal) (complete : Bool)
  deriving DecidableEq

/-- The traversal of the pass that runs. -/
def Pc.traversal : Pc → Option Traversal
  | .idle => none
  | .loop T | .chosen T _ | .found T _ | .collecting T _ | .ending T _ => some T

/-- The catalog, what the last pass saved, and the pass that runs. -/
structure State where
  /-- The objects. -/
  table : ObjectTable
  /-- The traversal under way, as it was saved last. -/
  saved : Option Traversal
  /-- The pass. -/
  pc : Pc

/-- The traversal under way: that of the pass, and otherwise the saved one. -/
def State.traversal (s : State) : Option Traversal := s.pc.traversal <|> s.saved

/-- What may happen. -/
inductive Event
  /-- A pass takes up the saved cursor. -/
  | begin
  /-- The pass asks for the next object. -/
  | next
  /-- It looks at the selected object. -/
  | look
  /-- It saves the cursor. -/
  | save
  /-- It has dealt with the selected object, one way or the other. -/
  | pass
  /-- It leaves the loop: a bound is reached, it is cancelled, or it has to wait. -/
  | leave
  /-- It saves its result. -/
  | finish
  /-- It ends with an error, or with the process. -/
  | abort
  | createObject (kind : ObjectKind)
  | touchObject (id : Id)
  | saveObject (id : Id) (state : ObjectState)
  | removeObject (id : Id)
  deriving DecidableEq

/-- A write to the table of objects, by whomever. -/
def State.write (s : State) (t : Except Error ObjectTable) : Option State :=
  t.toOption.map fun t => { s with table := t }

/-- The error of a selected object without its use sequence. -/
def orderingMissing : Error := .corrupt "collection ordering evidence missing"

/-- The pass goes on with a new cursor, and ends if there is none. -/
def State.goOn (s : State) (r : Except Error Pc) : State :=
  { s with pc := r.toOption.getD .idle }

/-- The pass asks for the next object. At the end of a phase it goes on to the next one, and
leaves the loop at the end of the last. -/
def Traversal.next (T : Traversal) (t : ObjectTable) : Except Error Pc := do
  match ← T.cursor.nextCollectionObject t with
  | (none, c) =>
    if c.phase = 3 then .ok (.ending ⟨c, T.selected⟩ true)
    else .ok (.loop ⟨c.nextPhase, T.selected⟩)
  | (some id, c) =>
    let selected := match T.cursor.current with
      | some _ => T.selected
      | none => T.selected ++ [⟨c.phase, c.currentUse.getD 0, id⟩]
    .ok (.chosen ⟨{ c with current := some id }, selected⟩ id)

/-- One step. -/
def step (s : State) : Event → Option State
  | .begin => match s.pc with
    | .idle =>
      some <| s.goOn do
        let c ← CollectionCursor.resume (s.saved.map (·.cursor)) s.table.revision
        .ok (.loop ⟨c, s.saved.elim [] (·.selected)⟩)
    | _ => none
  | .next => match s.pc with
    | .loop T => some <| s.goOn (T.next s.table)
    | _ => none
  | .look => match s.pc with
    | .chosen T id =>
      some <| s.goOn do
        match ← T.cursor.look s.table id with
        | (true, c) => .ok (.found ⟨c, T.selected⟩ id)
        | (false, c) => .ok (.loop ⟨c, T.selected⟩)
    | _ => none
  | .save => match s.pc with
    | .found T id => some { s with saved := some T, pc := .collecting T id }
    | _ => none
  | .pass => match s.pc with
    | .collecting T id =>
      some <| s.goOn do
        let c ← T.cursor.advance id orderingMissing
        .ok (.loop ⟨c, T.selected⟩)
    | _ => none
  | .leave => match s.pc with
    | .loop T | .collecting T _ => some { s with pc := .ending T false }
    | _ => none
  | .finish => match s.pc with
    | .ending T complete => some { s with saved := if complete then none else some T, pc := .idle }
    | _ => none
  | .abort => some { s with pc := .idle }
  | .createObject kind => s.write (s.table.createObject kind)
  | .touchObject id => s.write (s.table.touchObject id)
  | .saveObject id state => s.write (s.table.saveObject id state)
  | .removeObject id => s.write (s.table.removeObject id)

/-- The state of a catalog that no traversal is under way in. -/
def start (t : ObjectTable) : State := ⟨t, none, .idle⟩

/-! ## What one step can do -/

/-- What a step of a pass does to its traversal. -/
inductive Move (t : ObjectTable) (T : Traversal) : Traversal → Prop
  /-- The cursor stays where it is. -/
  | stay {c : CollectionCursor} (hplace : c.place = T.cursor.place)
      (hmark : c.throughUse = T.cursor.throughUse)
      (hordered : c.current.isSome → c.currentUse.isSome) : Move t T ⟨c, T.selected⟩
  /-- The phase has no candidate left. -/
  | nextPhase {m : ℕ} (hmark : T.cursor.throughUse = some m) (hcurrent : T.cursor.current = none)
      (hnone : ∀ e : Selection, e.phase = T.cursor.phase → ¬ t.Candidate m T.cursor.place e) :
      Move t T ⟨T.cursor.nextPhase, T.selected⟩
  /-- The least candidate is selected. -/
  | select {m use : ℕ} {id : Id} (hmark : T.cursor.throughUse = some m)
      (hcandidate : t.Candidate m T.cursor.place ⟨T.cursor.phase, use, id⟩)
      (hleast : ∀ e : Selection, e.phase = T.cursor.phase → t.Candidate m T.cursor.place e →
        (⟨T.cursor.phase, use, id⟩ : Selection).place ≤ e.place) :
      Move t T ⟨{ T.cursor with current := some id, currentUse := some use },
        T.selected ++ [⟨T.cursor.phase, use, id⟩]⟩

/-- The pass knows the object that it has selected. -/
def Pc.Selected : Pc → Prop
  | .chosen T id | .found T id | .collecting T id => T.cursor.current = some id
  | _ => True

/-- What a step does to the pass and to what is saved. -/
inductive Change (s : State) : Pc → Option Traversal → Prop
  /-- The pass ends and saves nothing. -/
  | abort : Change s .idle s.saved
  /-- A pass begins with the saved cursor, or a new traversal does. -/
  | begin {m : ℕ} (hpc : s.pc = .idle) (hm : m ≤ s.table.revision)
      (hmark : ∀ T, s.saved = some T → ∀ n, T.cursor.throughUse = some n → m = n)
      (hnew : s.saved = none → m = s.table.revision) :
      Change s (.loop ⟨{ (s.saved.map (·.cursor)).getD {} with throughUse := some m },
        s.saved.elim [] (·.selected)⟩) s.saved
  /-- The pass goes on. -/
  | move {T T' : Traversal} {pc : Pc} (hpc : s.pc.traversal = some T) (hmove : Move s.table T T')
      (hpc' : pc.traversal = some T') (hselected : pc.Selected)
      (hcollecting : ∀ T id, pc ≠ .collecting T id) (hending : ∀ T, pc ≠ .ending T true) :
      Change s pc s.saved
  /-- The last phase has no candidate left. -/
  | complete {T : Traversal} {m : ℕ} (hpc : s.pc.traversal = some T)
      (hmark : T.cursor.throughUse = some m) (hphase : T.cursor.phase = 3)
      (hnone : ∀ e : Selection, e.phase = T.cursor.phase →
        ¬ s.table.Candidate m T.cursor.place e) : Change s (.ending T true) s.saved
  /-- The cursor is saved. -/
  | save {T : Traversal} {id : Id} (hpc : s.pc = .found T id) :
      Change s (.collecting T id) (some T)
  /-- The pass ends and saves its result. -/
  | finish {T : Traversal} {complete : Bool} (hpc : s.pc = .ending T complete) :
      Change s .idle (if complete then none else some T)

/-- What the place of a cursor says about the selections, for a catalog and a mark. -/
structure Sound (t : ObjectTable) (m : ℕ) (T : Traversal) : Prop where
  /-- The cursor has the mark. -/
  mark : T.cursor.throughUse = some m
  /-- The mark is a revision that has been given out. -/
  mark_le : m ≤ t.revision
  /-- A selected object has its use sequence. -/
  ordered : T.cursor.current.isSome → T.cursor.currentUse.isSome
  /-- The selections ascend, up to the place of the cursor. -/
  walked : Keyset.Walked Selection.place T.cursor.place T.selected
  /-- A selected object was not used after the mark, or it was after its selection. -/
  settled : ∀ e ∈ T.selected, e.use ≤ m ∧
    ∀ o, t.objects.get? e.id = some o → o.useSequence = e.use ∨ m < o.useSequence
  /-- No phase selects an object again. -/
  distinct : T.selected.Pairwise fun e e' => e.phase = e'.phase → e.id ≠ e'.id

section Cases

variable {s s' : State} {a : Event} {T T' : Traversal} {m : ℕ} {id : Id} {pc : Pc}

/-- A pass that goes on is where the outcome says, or has ended. -/
lemma change_goOn {r : Except Error Pc} (h : ∀ pc, r = .ok pc → Change s pc s.saved) :
    Change s (s.goOn r).pc (s.goOn r).saved := by
  cases r with
  | error e => exact .abort
  | ok pc => exact h pc rfl

/-- **The next object** moves the traversal, or completes it. -/
theorem next_change (hpc : s.pc.traversal = some T) (hsound : Sound s.table m T)
    (h : T.next s.table = .ok pc) : Change s pc s.saved := by
  obtain ⟨⟨next, c⟩, hnext, h⟩ := Loops.bind_eq_ok.mp h
  obtain ⟨-, hcases⟩ := CollectionCursor.nextCollectionObject_ok hsound.mark hnext
  rcases hcases with ⟨id, hcurrent, rfl, rfl⟩ | ⟨hcurrent, rfl, rfl, hnone⟩ |
    ⟨id, use, hcurrent, rfl, rfl, hcandidate, hleast⟩
  · -- the pass continues with the selection of the saved cursor
    simp only [hcurrent] at h
    cases h
    have hsame : { T.cursor with current := some id } = T.cursor := by rw [← hcurrent]
    rw [hsame]
    exact .move hpc (.stay rfl rfl hsound.ordered) rfl hcurrent (by simp) (by simp)
  · dsimp only at h
    split_ifs at h with hphase
    · cases h
      exact .complete hpc hsound.mark hphase hnone
    · cases h
      exact .move hpc (.nextPhase hsound.mark hcurrent hnone) rfl trivial (by simp) (by simp)
  · simp only [hcurrent] at h
    cases h
    exact .move hpc (.select hsound.mark hcandidate hleast) rfl rfl (by simp) (by simp)

/-- Dealing with the selected object leaves the traversal where it is. -/
lemma stay_of_advance {t : ObjectTable} {c : CollectionCursor} (hplace : c.place = T.cursor.place)
    (hmark : c.throughUse = T.cursor.throughUse) (hcurrent : c.current = none) :
    Move t T ⟨c, T.selected⟩ := by
  refine .stay hplace hmark fun hsome => ?_
  rw [hcurrent] at hsome
  cases hsome

/-- **What a step can do**: a write to the table, by whomever, or a change of the pass. -/
theorem step_cases (hsound : ∀ T, s.pc.traversal = some T → ∃ m, Sound s.table m T)
    (hselected : s.pc.Selected) (h : step s a = some s') :
    (s'.pc = s.pc ∧ s'.saved = s.saved ∧ s.table.Later s'.table) ∨
      (s'.table = s.table ∧ Change s s'.pc s'.saved) := by
  have hwrite : ∀ {r : Except Error ObjectTable}, (∀ t, r = .ok t → s.table.Later t) →
      s.write r = some s' → s'.pc = s.pc ∧ s'.saved = s.saved ∧ s.table.Later s'.table := by
    intro r hlater hr
    cases r with
    | error e => cases hr
    | ok t =>
      cases hr
      exact ⟨rfl, rfl, hlater t rfl⟩
  cases a with
  | begin =>
    cases hpc : s.pc with
    | idle =>
      simp only [step, hpc, some.injEq] at h
      subst h
      refine .inr ⟨rfl, change_goOn fun pc hok => ?_⟩
      obtain ⟨c, hresume, hok⟩ := Loops.bind_eq_ok.mp hok
      cases hok
      obtain ⟨m, hle, rfl, hmark, hnew⟩ := CollectionCursor.resume_ok hresume
      exact .begin hpc hle (fun T hT => hmark T.cursor (by rw [hT]; rfl))
        fun hT => hnew (by rw [hT]; rfl)
    | loop _ | chosen _ _ | found _ _ | collecting _ _ | ending _ _ => simp [step, hpc] at h
  | next =>
    cases hpc : s.pc with
    | loop T =>
      simp only [step, hpc, some.injEq] at h
      subst h
      obtain ⟨m, hm⟩ := hsound T (by rw [hpc]; rfl)
      exact .inr ⟨rfl, change_goOn fun pc hok => next_change (by rw [hpc]; rfl) hm hok⟩
    | idle | chosen _ _ | found _ _ | collecting _ _ | ending _ _ => simp [step, hpc] at h
  | look =>
    cases hpc : s.pc with
    | chosen T id =>
      simp only [step, hpc, some.injEq] at h
      subst h
      have htraversal : s.pc.traversal = some T := by rw [hpc]; rfl
      obtain ⟨m, hm⟩ := hsound T htraversal
      have hcurrent : T.cursor.current = some id := by rw [hpc] at hselected; exact hselected
      have huse := hm.ordered (by rw [hcurrent]; rfl)
      refine .inr ⟨rfl, change_goOn fun pc hok => ?_⟩
      obtain ⟨⟨found, c⟩, hlook, hok⟩ := Loops.bind_eq_ok.mp hok
      rcases CollectionCursor.look_ok hcurrent huse hlook with
        ⟨rfl, rfl⟩ | ⟨rfl, hplace, -, hmark, hnone⟩
      · cases hok
        exact .move htraversal (.stay rfl rfl hm.ordered) rfl hcurrent (by simp) (by simp)
      · cases hok
        exact .move htraversal (stay_of_advance hplace hmark hnone) rfl trivial (by simp) (by simp)
    | idle | loop _ | found _ _ | collecting _ _ | ending _ _ => simp [step, hpc] at h
  | save =>
    cases hpc : s.pc with
    | found T id =>
      simp only [step, hpc, some.injEq] at h
      subst h
      exact .inr ⟨rfl, .save hpc⟩
    | idle | loop _ | chosen _ _ | collecting _ _ | ending _ _ => simp [step, hpc] at h
  | pass =>
    cases hpc : s.pc with
    | collecting T id =>
      simp only [step, hpc, some.injEq] at h
      subst h
      have hcurrent : T.cursor.current = some id := by rw [hpc] at hselected; exact hselected
      refine .inr ⟨rfl, change_goOn fun pc hok => ?_⟩
      obtain ⟨c, hadvance, hok⟩ := Loops.bind_eq_ok.mp hok
      cases hok
      obtain ⟨hplace, -, hmark, hnone⟩ := CollectionCursor.advance_ok hcurrent hadvance
      exact .move (by rw [hpc]; rfl) (stay_of_advance hplace hmark hnone) rfl trivial (by simp)
        (by simp)
    | idle | loop _ | chosen _ _ | found _ _ | ending _ _ => simp [step, hpc] at h
  | leave =>
    have hleave : ∀ T, s.pc.traversal = some T → some { s with pc := .ending T false } = some s' →
        s'.table = s.table ∧ Change s s'.pc s'.saved := by
      intro T htraversal heq
      cases heq
      obtain ⟨m, hm⟩ := hsound T htraversal
      exact ⟨rfl, .move htraversal (.stay rfl rfl hm.ordered) rfl trivial (by simp) (by simp)⟩
    cases hpc : s.pc with
    | loop T => exact .inr (hleave T (by rw [hpc]; rfl) (by simpa only [step, hpc] using h))
    | collecting T id =>
      exact .inr (hleave T (by rw [hpc]; rfl) (by simpa only [step, hpc] using h))
    | idle | chosen _ _ | found _ _ | ending _ _ => simp [step, hpc] at h
  | finish =>
    cases hpc : s.pc with
    | ending T complete =>
      simp only [step, hpc, some.injEq] at h
      subst h
      exact .inr ⟨rfl, .finish hpc⟩
    | idle | loop _ | chosen _ _ | found _ _ | collecting _ _ => simp [step, hpc] at h
  | abort =>
    cases h
    exact .inr ⟨rfl, .abort⟩
  | createObject kind =>
    exact .inl (hwrite (fun t ht => ObjectTable.createObject_later ht) h)
  | touchObject id => exact .inl (hwrite (fun t ht => ObjectTable.touchObject_later ht) h)
  | saveObject id state => exact .inl (hwrite (fun t ht => ObjectTable.saveObject_later ht) h)
  | removeObject id => exact .inl (hwrite (fun t ht => ObjectTable.removeObject_later ht) h)

end Cases

/-! ## The invariant -/

section Sound

variable {t t' : ObjectTable} {m : ℕ} {T T' : Traversal} {id : Id}

/-- Writes to the table do not touch what the place of the cursor says. -/
lemma Sound.later (h : Sound t m T) (hlater : t.Later t') : Sound t' m T := by
  refine ⟨h.mark, h.mark_le.trans hlater.revision, h.ordered, h.walked, fun e he => ?_, h.distinct⟩
  obtain ⟨hle, hsettled⟩ := h.settled e he
  refine ⟨hle, fun o' hget' => ?_⟩
  rcases hlater.use e.id o' hget' with ⟨o, hget, huse⟩ | hlt
  · exact huse ▸ hsettled o hget
  · exact .inr (h.mark_le.trans_lt hlt)

/-- The cursor of a new traversal is before every object. -/
lemma Sound.new (hle : m ≤ t.revision) : Sound t m ⟨{ throughUse := some m }, []⟩ :=
  ⟨rfl, hle, nofun, Keyset.Walked.nil, nofun, List.Pairwise.nil⟩

/-- The next phase begins beyond every object of this one. -/
lemma place_lt_nextPhase {c : CollectionCursor} (hcurrent : c.current = none) :
    c.place < c.nextPhase.place := by
  have hplace : c.place = .of c.phase c.afterUse c.after := by rw [CollectionCursor.place, hcurrent]
  have hplace' : c.nextPhase.place = .of (c.phase + 1) 0 none := by
    simp only [CollectionCursor.place, CollectionCursor.nextPhase, hcurrent]
  rw [hplace, hplace']
  exact Place.of_lt_of_phase (Nat.lt_succ_self _)

/-- **A selected object is new to its phase**: if it had been selected before, it would have been
used after the mark since. -/
theorem Sound.fresh (h : Sound t m T) {e : Selection} (he : t.Candidate m T.cursor.place e) :
    ∀ e' ∈ T.selected, e'.phase = e.phase → e'.id ≠ e.id := by
  intro e' he' hphase hid
  obtain ⟨o, hget, -, huse⟩ := he.condition
  rcases (h.settled e' he').2 o (hid ▸ hget) with hsame | hlt
  · -- it has the use sequence of the selection before, and so its place
    have heq : e' = e := by
      obtain ⟨p, u, i⟩ := e'
      obtain ⟨p', u', i'⟩ := e
      dsimp only at hphase hid hsame huse
      rw [hphase, hid, ← hsame, huse]
    exact (he.beyond.trans_le (heq ▸ h.walked.within e' he')).false
  · exact absurd he.use_le (Nat.not_le_of_lt (huse ▸ hlt))

/-- **A move keeps what the place of the cursor says.** -/
theorem Sound.move (h : Sound t m T) (hmove : Move t T T') : Sound t m T' := by
  cases hmove with
  | stay hplace hmark hordered =>
    exact ⟨hmark.trans h.mark, h.mark_le, hordered, h.walked.skip hplace.ge, h.settled, h.distinct⟩
  | nextPhase _ hcurrent _ =>
    exact ⟨h.mark, h.mark_le, h.ordered, h.walked.skip (place_lt_nextPhase hcurrent).le, h.settled,
      h.distinct⟩
  | select hmark hcandidate _ =>
    obtain rfl : m = _ := some.inj (h.mark.symm.trans hmark)
    refine ⟨h.mark, h.mark_le, fun _ => rfl, h.walked.take hcandidate.beyond, ?_, ?_⟩
    · intro e he
      rcases mem_append.mp he with he | he
      · exact h.settled e he
      · obtain rfl := mem_singleton.mp he
        obtain ⟨o, hget, -, huse⟩ := hcandidate.condition
        refine ⟨hcandidate.use_le, fun o' hget' => .inl ?_⟩
        exact some.inj (hget'.symm.trans hget) ▸ huse
    · refine pairwise_append.mpr ⟨h.distinct, pairwise_singleton _ _, ?_⟩
      intro e he e' he'
      obtain rfl := mem_singleton.mp he'
      exact h.fresh hcandidate e he

/-- A move keeps the mark. -/
lemma Move.mark (hmove : Move t T T') : T'.cursor.throughUse = T.cursor.throughUse := by
  cases hmove with
  | stay _ hmark _ => exact hmark
  | nextPhase _ _ _ => rfl
  | select _ _ _ => rfl

/-- A move only adds to the selections. -/
lemma Move.grows (hmove : Move t T T') : T.selected <+: T'.selected := by
  cases hmove with
  | stay _ _ _ => exact prefix_rfl
  | nextPhase _ _ _ => exact prefix_rfl
  | select _ _ _ => exact prefix_append _ _

end Sound

/-- What holds in every state. -/
structure Inv (s : State) : Prop where
  /-- The traversal of the pass. -/
  pass : ∀ T, s.pc.traversal = some T → ∃ m, Sound s.table m T
  /-- The saved traversal. -/
  saved : ∀ T, s.saved = some T → ∃ m, Sound s.table m T
  /-- The pass continues the saved traversal. -/
  continues : ∀ T T', s.saved = some T → s.pc.traversal = some T' →
    T'.cursor.throughUse = T.cursor.throughUse ∧ T.selected <+: T'.selected
  /-- The pass knows the object that it has selected. -/
  selected : s.pc.Selected
  /-- What is dealt with has been saved. -/
  collecting : ∀ T id, s.pc = .collecting T id → s.saved = some T

variable {id : Id} {m : ℕ} {a : Event} {s' : State} {S : Set Selection} {s : State} {T : Traversal}
  {t : ObjectTable}

/-- **Every step keeps the invariant.** -/
theorem step_inv (hinv : Inv s) (h : step s a = some s') : Inv s' := by
  rcases step_cases hinv.pass hinv.selected h with ⟨hpc, hsaved, hlater⟩ | ⟨htable, hchange⟩
  · refine ⟨fun T hT => ?_, fun T hT => ?_, ?_, hpc ▸ hinv.selected, ?_⟩
    · obtain ⟨m, hm⟩ := hinv.pass T (hpc ▸ hT)
      exact ⟨m, hm.later hlater⟩
    · obtain ⟨m, hm⟩ := hinv.saved T (hsaved ▸ hT)
      exact ⟨m, hm.later hlater⟩
    · rw [hpc, hsaved]
      exact hinv.continues
    · rw [hpc, hsaved]
      exact hinv.collecting
  · obtain ⟨table, saved, pc⟩ := s'
    dsimp only at htable hchange
    subst htable
    cases hchange with
    | abort => exact ⟨nofun, hinv.saved, nofun, trivial, nofun⟩
    | @begin m _ hm hmark hnew =>
      cases hsaved : s.saved with
      | none =>
        refine ⟨fun T hT => ?_, nofun, nofun, trivial, nofun⟩
        cases hT
        exact ⟨m, Sound.new hm⟩
      | some T₀ =>
        obtain ⟨n, hn⟩ := hinv.saved T₀ hsaved
        obtain rfl : m = n := hmark T₀ hsaved n hn.mark
        have hsame : { T₀.cursor with throughUse := some m } = T₀.cursor := by rw [← hn.mark]
        refine ⟨fun T hT => ?_, fun T hT => ?_, fun T T' hT hT' => ?_, trivial, nofun⟩
        · cases hT
          rw [map_some, getD_some, hsame]
          exact ⟨m, hn⟩
        · cases hT
          exact ⟨m, hn⟩
        · cases hT
          cases hT'
          exact ⟨hn.mark.symm, prefix_rfl⟩
    | move hpc hmove hpc' hselected hcollecting _ =>
      refine ⟨fun T hT => ?_, hinv.saved, fun T T' hT hT' => ?_, hselected, ?_⟩
      · obtain rfl := some.inj (hpc'.symm.trans hT)
        obtain ⟨m, hm⟩ := hinv.pass _ hpc
        exact ⟨m, hm.move hmove⟩
      · obtain rfl := some.inj (hpc'.symm.trans hT')
        obtain ⟨hmark, hgrows⟩ := hinv.continues T _ hT hpc
        exact ⟨hmove.mark.trans hmark, hgrows.trans hmove.grows⟩
      · intro T id heq
        exact absurd heq (hcollecting T id)
    | complete hpc _ _ _ =>
      refine ⟨fun T hT => ?_, hinv.saved, fun T T' hT hT' => ?_, trivial, nofun⟩
      · cases hT
        exact hinv.pass _ hpc
      · cases hT'
        exact hinv.continues T _ hT hpc
    | save hpc =>
      have htraversal := congrArg Pc.traversal hpc
      refine ⟨fun T hT => ?_, fun T hT => ?_, fun T T' hT hT' => ?_, ?_, fun T id heq => ?_⟩
      · cases hT
        exact hinv.pass _ htraversal
      · cases hT
        exact hinv.pass _ htraversal
      · cases hT
        cases hT'
        exact ⟨rfl, prefix_rfl⟩
      · have hselected := hinv.selected
        rw [hpc] at hselected
        exact hselected
      · cases heq
        rfl
    | @finish T complete hpc =>
      refine ⟨nofun, fun T' hT' => ?_, nofun, trivial, nofun⟩
      split_ifs at hT'
      cases hT'
      exact hinv.pass T (congrArg Pc.traversal hpc)

/-- It holds before any pass. -/
lemma start_inv (t : ObjectTable) : Inv (start t) :=
  ⟨nofun, nofun, nofun, trivial, nofun⟩

/-- The invariant holds in every state of every run. -/
lemma reach_inv (hreach : Run.Reaches step (fun _ _ => True) (start t) s) : Inv s :=
  hreach.invariant (fun _ _ _ hinv _ hstep => step_inv hinv hstep) (start_inv t)

/-! ## Completion -/

/-- A traversal has selected every object of a set that it has come to, and none of them was used
after its mark. -/
structure Covered (S : Set Selection) (T : Traversal) : Prop where
  /-- None of them was used after the mark. -/
  use_le : ∀ m, T.cursor.throughUse = some m → ∀ e ∈ S, e.use ≤ m
  /-- Those up to the place of the cursor have been selected. -/
  covers : Keyset.Covers Selection.place S T.cursor.place T.selected

/-- If no object of a phase is a candidate, the steady ones are not beyond the cursor. -/
lemma Covered.not_beyond (h : Covered S T) (hmeets : ∀ e ∈ S, t.Meets e)
    (hmark : T.cursor.throughUse = some m)
    (hnone : ∀ e : Selection, e.phase = T.cursor.phase → ¬ t.Candidate m T.cursor.place e)
    {e : Selection} (he : e ∈ S) (hle : e.phase ≤ T.cursor.phase) : e.place ≤ T.cursor.place := by
  by_contra hbeyond
  have hlt : T.cursor.place < e.place := lt_of_not_ge hbeyond
  have hphase : T.cursor.phase ≤ e.phase := by
    unfold CollectionCursor.place at hlt
    split at hlt <;> exact Place.phase_le hlt
  exact hnone e (le_antisymm hle hphase) ⟨hmeets e he, h.use_le m hmark e he, hlt⟩

/-- **A move jumps over no steady object.** -/
theorem Covered.move {T' : Traversal} (h : Covered S T) (hmeets : ∀ e ∈ S, t.Meets e)
    (hmove : Move t T T') : Covered S T' := by
  refine ⟨fun m hm => h.use_le m (hmove.mark.symm.trans hm), ?_⟩
  cases hmove with
  | stay hplace _ _ => exact h.covers.skip fun e _ hle => hplace ▸ hle
  | nextPhase hmark hcurrent hnone =>
    refine h.covers.skip fun e he hle => h.not_beyond hmeets hmark hnone he ?_
    -- an object of a later phase is beyond the beginning of the next
    have hplace : T.cursor.nextPhase.place = .of (T.cursor.phase + 1) 0 none := by
      simp only [CollectionCursor.place, CollectionCursor.nextPhase, hcurrent]
    by_contra hlater
    rcases Nat.lt_or_eq_of_le (Nat.lt_of_not_le hlater) with hlt | heq
    · exact (hle.trans_lt (hplace ▸ Place.of_lt_of_phase hlt)).false
    · rw [hplace, ← Nat.succ_eq_add_one, heq] at hle
      exact (hle.trans_lt Place.begin_lt).false
  | @select m use id hmark _ hleast =>
    have htake := h.covers.take (a := ⟨T.cursor.phase, use, id⟩) Selection.place_injective
    refine htake fun e he hlt => ?_
    rcases Nat.lt_or_ge T.cursor.phase e.phase with hphase | hphase
    · exact (Place.of_lt_of_phase hphase).le
    · have hge : T.cursor.phase ≤ e.phase := by
        unfold CollectionCursor.place at hlt
        split at hlt <;> exact Place.phase_le hlt
      exact hleast e (le_antisymm hphase hge) ⟨hmeets e he, h.use_le _ hmark e he, hlt⟩

/-- Every traversal of a state has selected what it has come to, and all if it is complete. -/
structure Covering (S : Set Selection) (s : State) : Prop where
  /-- The traversal of the pass. -/
  pass : ∀ T, s.pc.traversal = some T → Covered S T
  /-- The saved traversal. -/
  saved : ∀ T, s.saved = some T → Covered S T
  /-- A complete traversal has selected all. -/
  complete : ∀ T, s.pc = .ending T true → ∀ e ∈ S, e ∈ T.selected

/-- Every step whose objects are steady keeps it so. -/
lemma step_covering (hinv : Inv s) (hcover : Covering S s) (hmeets : ∀ e ∈ S, s.table.Meets e)
    (h : step s a = some s') : Covering S s' := by
  rcases step_cases hinv.pass hinv.selected h with ⟨hpc, hsaved, -⟩ | ⟨-, hchange⟩
  · exact ⟨hpc ▸ hcover.pass, hsaved ▸ hcover.saved, hpc ▸ hcover.complete⟩
  · obtain ⟨table, saved, pc⟩ := s'
    dsimp only at hchange
    cases hchange with
    | abort => exact ⟨by rintro _ ⟨⟩, hcover.saved, by rintro _ ⟨⟩⟩
    | @begin m _ hm hmark hnew =>
      refine ⟨fun T hT => ?_, hcover.saved, by rintro _ ⟨⟩⟩
      cases hT
      cases hsaved : s.saved with
      | none =>
        refine ⟨fun n hn e he => ?_, fun e he hle => ?_⟩
        · obtain ⟨o, hget, -, huse⟩ := hmeets e he
          cases hn
          exact hnew hsaved ▸ huse ▸ s.table.used e.id o hget
        · -- a new traversal has come to nothing
          have hlt : Place.of 0 0 none < e.place := by
            rcases Nat.eq_zero_or_pos e.phase with hzero | hpos
            · rw [Selection.place, hzero]
              exact Place.begin_lt
            · exact Place.of_lt_of_phase hpos
          exact absurd hlt (not_lt_of_ge hle)
      | some T₀ =>
        obtain ⟨n, hn⟩ := hinv.saved T₀ hsaved
        obtain rfl : m = n := hmark T₀ hsaved n hn.mark
        have hsame : { T₀.cursor with throughUse := some m } = T₀.cursor := by rw [← hn.mark]
        rw [map_some, getD_some, hsame]
        exact hcover.saved T₀ hsaved
    | move hpc hmove hpc' _ _ hending =>
      refine ⟨fun T hT => ?_, hcover.saved, fun T heq => absurd heq (hending T)⟩
      obtain rfl := some.inj (hpc'.symm.trans hT)
      exact (hcover.pass _ hpc).move hmeets hmove
    | complete hpc hmark hphase hnone =>
      have hcovered := hcover.pass _ hpc
      refine ⟨fun T hT => ?_, hcover.saved, fun T heq => ?_⟩
      · cases hT
        exact hcovered
      · cases heq
        refine hcovered.covers.all fun e he => hcovered.not_beyond hmeets hmark hnone he ?_
        obtain ⟨o, -, hcondition, -⟩ := hmeets e he
        exact hphase ▸ phase_le_of_phaseCondition hcondition
    | save hpc =>
      have hcovered := hcover.pass _ (congrArg Pc.traversal hpc)
      refine ⟨fun T hT => ?_, fun T hT => ?_, by rintro _ ⟨⟩⟩
      · cases hT
        exact hcovered
      · cases hT
        exact hcovered
    | @finish T complete hpc =>
      refine ⟨by rintro _ ⟨⟩, fun T' hT' => ?_, by rintro _ ⟨⟩⟩
      split_ifs at hT'
      cases hT'
      exact hcover.pass T (congrArg Pc.traversal hpc)

/-! ## The mark -/

/-- A traversal has selected the object at most where a list says, and its mark is what it was. -/
structure Barred (m : ℕ) (id : Id) (selected : List Selection) (T : Traversal) : Prop where
  /-- The mark. -/
  mark : T.cursor.throughUse = some m
  /-- The selections of the object. -/
  old : ∀ e ∈ T.selected, e.id = id → e ∈ selected

/-- An object was used after the mark of the traversal under way. -/
structure Barring (m : ℕ) (id : Id) (selected : List Selection) (s : State) : Prop where
  /-- The object was used after the mark. -/
  used : ∀ o, s.table.objects.get? id = some o → m < o.useSequence
  /-- The mark is a revision that has been given out. -/
  mark_le : m ≤ s.table.revision
  /-- The traversal of the pass. -/
  pass : ∀ T, s.pc.traversal = some T → Barred m id selected T
  /-- The saved traversal. -/
  saved : ∀ T, s.saved = some T → Barred m id selected T

/-- A move does not select an object that was used after the mark. -/
lemma Barred.move {selected : List Selection} {T' : Traversal} (h : Barred m id selected T)
    (hused : ∀ o, t.objects.get? id = some o → m < o.useSequence) (hmove : Move t T T') :
    Barred m id selected T' := by
  refine ⟨hmove.mark.trans h.mark, ?_⟩
  cases hmove with
  | stay _ _ _ => exact h.old
  | nextPhase _ _ _ => exact h.old
  | select hmark hcandidate _ =>
    obtain rfl : m = _ := some.inj (h.mark.symm.trans hmark)
    intro e he hid
    rcases mem_append.mp he with he | he
    · exact h.old e he hid
    · obtain rfl := mem_singleton.mp he
      obtain ⟨o, hget, -, huse⟩ := hcandidate.condition
      have hlt := hused o (hid ▸ hget)
      exact absurd hcandidate.use_le (Nat.not_le_of_lt (huse ▸ hlt))

/-- As long as the traversal goes on, no step selects the object. -/
lemma step_barring {selected : List Selection} (hinv : Inv s) (hbar : Barring m id selected s)
    (hgoes : s.traversal.isSome) (h : step s a = some s') : Barring m id selected s' := by
  rcases step_cases hinv.pass hinv.selected h with ⟨hpc, hsaved, hlater⟩ | ⟨htable, hchange⟩
  · refine ⟨fun o' hget' => ?_, hbar.mark_le.trans hlater.revision, hpc ▸ hbar.pass,
      hsaved ▸ hbar.saved⟩
    rcases hlater.use id o' hget' with ⟨o, hget, huse⟩ | hlt
    · exact huse ▸ hbar.used o hget
    · exact hbar.mark_le.trans_lt hlt
  · obtain ⟨table, saved, pc⟩ := s'
    dsimp only at htable hchange
    subst htable
    cases hchange with
    | abort => exact ⟨hbar.used, hbar.mark_le, nofun, hbar.saved⟩
    | @begin n hpc hn hmark _ =>
      refine ⟨hbar.used, hbar.mark_le, fun T hT => ?_, hbar.saved⟩
      cases hT
      cases hsaved : s.saved with
      | none =>
        rw [State.traversal, hpc, hsaved] at hgoes
        cases hgoes
      | some T₀ =>
        have hbarred := hbar.saved T₀ hsaved
        obtain rfl : n = m := hmark T₀ hsaved m hbarred.mark
        exact ⟨rfl, hbarred.old⟩
    | move hpc hmove hpc' _ _ _ =>
      refine ⟨hbar.used, hbar.mark_le, fun T hT => ?_, hbar.saved⟩
      obtain rfl := some.inj (hpc'.symm.trans hT)
      exact (hbar.pass _ hpc).move hbar.used hmove
    | complete hpc _ _ _ =>
      refine ⟨hbar.used, hbar.mark_le, fun T hT => ?_, hbar.saved⟩
      cases hT
      exact hbar.pass _ hpc
    | save hpc =>
      have hbarred := hbar.pass _ (congrArg Pc.traversal hpc)
      refine ⟨hbar.used, hbar.mark_le, fun T hT => ?_, fun T hT => ?_⟩
      · cases hT
        exact hbarred
      · cases hT
        exact hbarred
    | @finish T complete hpc =>
      refine ⟨hbar.used, hbar.mark_le, nofun, fun T' hT' => ?_⟩
      split_ifs at hT'
      cases hT'
      exact hbar.pass T (congrArg Pc.traversal hpc)

/-- The event is the creation of the object, or an access to it. -/
def State.Uses (s : State) (id : Id) : Event → Prop
  | .createObject _ => id = s.table.objectSequence + 1
  | .touchObject id' => id = id'
  | _ => False

/-- **A created or touched object** has a use sequence beyond every revision before. -/
theorem uses_lt (huses : s.Uses id a) (h : step s a = some s') :
    (∃ o, s'.table.objects.get? id = some o ∧ s.table.revision < o.useSequence) ∧
      s.table.revision ≤ s'.table.revision ∧ s'.pc = s.pc ∧ s'.saved = s.saved := by
  cases a with
  | createObject kind =>
    obtain rfl := huses
    cases hcreate : s.table.createObject kind with
    | error e => simp [step, State.write, hcreate, Except.toOption] at h
    | ok t =>
      simp only [step, State.write, hcreate, Except.toOption, map_some, some.injEq] at h
      subst h
      obtain ⟨hobjects, hrevision⟩ := ObjectTable.createObject_ok hcreate
      have hget : t.objects.get? (s.table.objectSequence + 1) =
          some ⟨kind, .preparing, s.table.revision + 1⟩ := by
        rw [hobjects, FinMap.get?_insert_self]
      exact ⟨⟨_, hget, Nat.lt_succ_self _⟩, hrevision ▸ Nat.le_succ _, rfl, rfl⟩
  | touchObject id' =>
    obtain rfl : id = id' := huses
    cases htouch : s.table.touchObject id with
    | error e => simp [step, State.write, htouch, Except.toOption] at h
    | ok t =>
      simp only [step, State.write, htouch, Except.toOption, map_some, some.injEq] at h
      subst h
      obtain ⟨o, -, hobjects, hrevision⟩ := ObjectTable.touchObject_ok htouch
      have hget : t.objects.get? id = some { o with useSequence := s.table.revision + 1 } := by
        rw [hobjects, FinMap.get?_insert_self]
      exact ⟨⟨_, hget, Nat.lt_succ_self _⟩, hrevision ▸ Nat.le_add_right _ _, rfl, rfl⟩
  | begin | next | look | save | pass | leave | finish | abort | saveObject _ _
  | removeObject _ => exact huses.elim

/-! ## The traversal -/

/-- Each selection is of the same phase with a greater use sequence and identity, or of a later
phase, than those before it. -/
def Traversal.Ascending (T : Traversal) : Prop :=
  T.selected.Pairwise fun e e' => e.phase < e'.phase ∨
    e.phase = e'.phase ∧ (e.use < e'.use ∨ e.use = e'.use ∧ e.id < e'.id)

/-- The order of places is that of phases, use sequences and identities. -/
lemma Sound.ascending (h : Sound t m T) : T.Ascending := by
  refine h.walked.sorted.imp fun {e e'} hlt => ?_
  rcases Prod.Lex.toLex_lt_toLex.mp hlt with hphase | ⟨hphase, hlt⟩
  · exact .inl hphase
  · rcases Prod.Lex.toLex_lt_toLex.mp hlt with huse | ⟨huse, hid⟩
    · exact .inr ⟨hphase, .inl huse⟩
    · exact .inr ⟨hphase, .inr ⟨huse, WithBot.coe_lt_coe.mp hid⟩⟩

/-- The traversal under way is that of the pass, or it is saved. -/
lemma State.traversal_eq_some (h : s.traversal = some T) :
    s.pc.traversal = some T ∨ s.saved = some T := by
  unfold State.traversal at h
  cases hpc : s.pc.traversal with
  | none =>
    rw [hpc] at h
    exact .inr h
  | some T' =>
    rw [hpc] at h
    exact .inl h

/-- **The traversal of every run**, for every catalog: the selections ascend in each phase, no
phase selects an object twice, and none has a use sequence beyond the mark of the traversal; an
object that is created or touched while a traversal is under way is not selected by it any more;
what a pass deals with has been saved as selected; and a traversal that is found complete has
selected every object that met the condition of a phase with one use sequence, ever since no
traversal was under way.

**Proof sketch.** The invariant relates the selections to the place of the cursor. A selected
object is beyond that place, so the selections ascend; had it been selected in this phase before,
its use sequence would be the same, and then it would not be beyond the place, or it would be
beyond the mark. Use sequences change only to revisions given out then, which are beyond the mark.
A move selects the least candidate or finds none, so it does not jump over a steady object. -/
theorem traversal_complete (t : ObjectTable) {s : State}
    (hreach : Run.Reaches step (fun _ _ => True) (start t) s) :
    (∀ T, s.traversal = some T → T.Ascending ∧
      (T.selected.Pairwise fun e e' => e.phase = e'.phase → e.id ≠ e'.id) ∧
      ∃ m, T.cursor.throughUse = some m ∧ ∀ e ∈ T.selected, e.use ≤ m) ∧
    (∀ T a id s₁ s₂ T₂, s.traversal = some T → s.Uses id a → step s a = some s₁ →
      Run.Reaches step (fun s' _ => s'.traversal.isSome) s₁ s₂ → s₂.traversal = some T₂ →
      ∀ e ∈ T₂.selected, e.id = id → e ∈ T.selected) ∧
    (∀ T id, s.pc = .collecting T id → s.saved = some T) ∧
    (s.traversal = none → ∀ (S : Set Selection) s' T,
      Run.Reaches step (fun s'' _ => ∀ e ∈ S, s''.table.Meets e) s s' →
      s'.pc = .ending T true → ∀ e ∈ S, e ∈ T.selected) := by
  have hinv := reach_inv hreach
  have hsound : ∀ T, s.traversal = some T → ∃ m, Sound s.table m T := fun T hT =>
    (State.traversal_eq_some hT).elim (hinv.pass T) (hinv.saved T)
  refine ⟨fun T hT => ?_, ?_, hinv.collecting, ?_⟩
  · obtain ⟨m, hm⟩ := hsound T hT
    exact ⟨hm.ascending, hm.distinct, m, hm.mark, fun e he => (hm.settled e he).1⟩
  · intro T a id s₁ s₂ T₂ hT huses hstep hrun hT₂
    obtain ⟨m, hm⟩ := hsound T hT
    obtain ⟨⟨o, hget, hlt⟩, hle, hpc, hsaved⟩ := uses_lt huses hstep
    have hbar : Barring m id T.selected s₁ := by
      refine ⟨fun o' hget' => ?_, hm.mark_le.trans hle, fun T' hT' => ?_, fun T' hT' => ?_⟩
      · obtain rfl := some.inj (hget.symm.trans hget')
        exact hm.mark_le.trans_lt hlt
      · -- the pass has the traversal under way
        rw [hpc] at hT'
        rw [State.traversal, hT'] at hT
        cases hT
        exact ⟨hm.mark, fun e he _ => he⟩
      · rw [hsaved] at hT'
        cases hpass : s.pc.traversal with
        | none =>
          rw [State.traversal, hpass, hT'] at hT
          cases hT
          exact ⟨hm.mark, fun e he _ => he⟩
        | some T'' =>
          rw [State.traversal, hpass] at hT
          cases hT
          obtain ⟨hmark, hgrows⟩ := hinv.continues T' T hT' hpass
          exact ⟨hmark.symm.trans hm.mark, fun e he _ => hgrows.subset he⟩
    have hboth : Inv s₂ ∧ Barring m id T.selected s₂ :=
      hrun.invariant (P := fun s => Inv s ∧ Barring m id T.selected s) (fun _ _ _ hs hgoes hone =>
        ⟨step_inv hs.1 hone, step_barring hs.1 hs.2 hgoes hone⟩) ⟨step_inv hinv hstep, hbar⟩
    exact ((State.traversal_eq_some hT₂).elim (hboth.2.pass T₂) (hboth.2.saved T₂)).old
  · intro hnone S s' T hrun hending
    have hcover : Covering S s := by
      unfold State.traversal at hnone
      cases hpass : s.pc.traversal with
      | some T' =>
        rw [hpass] at hnone
        cases hnone
      | none =>
        rw [hpass] at hnone
        have hsaved : s.saved = none := hnone
        refine ⟨fun T' hT' => ?_, fun T' hT' => ?_, fun T' hpc => ?_⟩
        · rw [hpass] at hT'
          cases hT'
        · rw [hsaved] at hT'
          cases hT'
        · rw [hpc] at hpass
          cases hpass
    have hboth : Inv s' ∧ Covering S s' :=
      hrun.invariant (P := fun s => Inv s ∧ Covering S s) (fun _ _ _ hs hmeets hone =>
        ⟨step_inv hs.1 hone, step_covering hs.1 hs.2 hmeets hone⟩) ⟨hinv, hcover⟩
    exact hboth.2.complete T hending

/-- Two passes: a generation and a checkpoint are created; the first pass selects the checkpoint
and ends while it deals with it, the checkpoint and another generation are used and created, and
the second pass goes on to the end of the last phase. -/
def twoPasses : List Event :=
  [.createObject .generation, .createObject .checkpoint, .saveObject 2 .published,
    .begin, .next, .next, .look, .save, .leave, .finish,
    .touchObject 2, .createObject .generation,
    .begin, .next, .look, .save, .pass, .next, .next, .next, .look, .save, .pass, .next]

/-- `traversal_complete` after two passes. -/
theorem traversal_complete_twoPasses :
    ∃ s T, Run.exec step (start .empty) twoPasses = some s ∧ s.pc = .ending T true ∧
      T.selected = [⟨1, 2, 2⟩, ⟨3, 1, 1⟩] ∧ T.Ascending := by
  have hpc : (Run.exec step (start .empty) twoPasses).map (·.pc) =
      some (.ending ⟨⟨3, some 1, 1, none, none, some 3⟩, [⟨1, 2, 2⟩, ⟨3, 1, 1⟩]⟩ true) := by
    decide +kernel
  obtain ⟨s, hs, hending⟩ := Option.map_eq_some_iff.mp hpc
  refine ⟨s, _, hs, hending, rfl, ?_⟩
  have hall := traversal_complete .empty (Run.Reaches.of_exec hs)
  exact (hall.1 _ (by rw [State.traversal, hending]; rfl)).1

end CollectionTraversal

end Tgrep.Managed
