import Mathlib.Data.Finset.Max
import Mathlib.Data.Prod.Lex
import Mathlib.Order.WithBot
import Tgrep.Managed.Operations

/-!
# The cursor of a collection traversal

A collection visits the objects of the catalog in four phases, in each of them the objects that
meet the condition of the phase, the least recently used first. A pass is bounded; what it leaves
to the next one is a cursor. It holds the use sequence and the identity of the last object that
was dealt with, the object that is selected now with the use sequence it was selected for, and the
catalog revision that no use sequence may exceed.

## Main definitions

* `ObjectUse`, `ObjectTable`: the columns of `objects` that a traversal reads, with the sequence
  of identities and the revision of the catalog.
* `ObjectTable.createObject`, `ObjectTable.touchObject`, `ObjectTable.saveObject`,
  `ObjectTable.removeObject`: the writes to the table.
* `CollectionCursor`, `CollectionCursor.nextCollectionObject`, `CollectionCursor.look`,
  `CollectionCursor.advance`: the cursor, and what a pass does with it.
* `Selection`, `Selection.place`, `CollectionCursor.place`: where a selected object and a cursor
  stand in the order of a whole traversal.

## Main results

* `ObjectTable.query_eq_some`, `ObjectTable.query_eq_none`: the query returns the least object
  beyond the cursor.
* `ObjectTable.createObject_ok`, `ObjectTable.touchObject_ok`: a created or touched object has a
  use sequence beyond the revision before.
* `ObjectTable.createObject_later`, `ObjectTable.touchObject_later`, … — the other objects keep
  theirs.
* `CollectionCursor.nextCollectionObject_ok`, `CollectionCursor.look_ok`: what the two steps of
  a selection do to the cursor.

## Implementation notes

The identity of an object is its number in the sequence of identities, in 16 hexadecimal digits,
with a digest of that number. Identities are compared as texts; that is the order of the numbers,
so the number stands for the identity, and the empty text, which is before all of them, for none.
The table keeps what every transaction that writes it establishes: identities have been allocated,
and use sequences are revisions that have been given out.
-/

namespace Tgrep.Managed

open Option Finset FinMap Loops

/-- The columns of a row of `objects` that a traversal reads. -/
structure ObjectUse where
  /-- What the object is for. -/
  kind : ObjectKind
  /-- Where it is in its life. -/
  state : ObjectState
  /-- The revision of its creation, or of the last access since. -/
  useSequence : ℕ
  deriving DecidableEq

/-- The table of objects, with the counters of the catalog. -/
structure ObjectTable where
  /-- The objects. -/
  objects : FinMap Id ObjectUse
  /-- The number of the identity given out last. -/
  objectSequence : ℕ
  /-- The revision of the catalog. -/
  revision : ℕ
  /-- Every object has an identity that was given out. -/
  allocated : ∀ id o, objects.get? id = some o → id ≤ objectSequence
  /-- Every use sequence is a revision that was given out. -/
  used : ∀ id o, objects.get? id = some o → o.useSequence ≤ revision
  /-- The revision fits its column. -/
  revision_le : revision ≤ i64Max

namespace ObjectTable

variable {t t' : ObjectTable} {id id' : Id} {o o' : ObjectUse}

/-- A catalog without objects. -/
def empty : ObjectTable := ⟨.empty, 0, 0, by simp, by simp, Nat.zero_le _⟩

/-- The error of an object whose row has been deleted. -/
def objectCollected : Error :=
  ⟨.cacheEvicted, "object-collected", "the physical incarnation was collected", none⟩

/-- The error of an identity that was never given out. -/
def objectMissing : Error :=
  ⟨.cacheMissing, "object-missing", "no such managed incarnation", none⟩

/-- The error of an access to an object that is not published. -/
def objectRetired : Error :=
  ⟨.cacheEvicted, "object-retired", "object was withdrawn before access registration", none⟩

/-- The object of an identity. -/
def object (t : ObjectTable) (id : Id) : Except Error ObjectUse :=
  match t.objects.get? id with
  | some o => .ok o
  | none => .error (if id ≠ 0 ∧ id ≤ t.objectSequence then objectCollected else objectMissing)

/-- An object becomes known: its use sequence is the revision of its creation. -/
def createObject (t : ObjectTable) (kind : ObjectKind) : Except Error ObjectTable :=
  if h : t.objectSequence < i64Max ∧ t.revision < i64Max then
    .ok
      { objects := t.objects.insert (t.objectSequence + 1) ⟨kind, .preparing, t.revision + 1⟩
        objectSequence := t.objectSequence + 1
        revision := t.revision + 1
        allocated := by
          intro id o hget
          rw [get?_insert] at hget
          split_ifs at hget with heq
          · exact heq.le
          · exact Nat.le_succ_of_le (t.allocated id o hget)
        used := by
          intro id o hget
          rw [get?_insert] at hget
          split_ifs at hget
          · obtain rfl := some.inj hget
            exact le_rfl
          · exact Nat.le_succ_of_le (t.used id o hget)
        revision_le := h.2 }
  else .error noRows

/-- Write the row of an object that is there, in a transaction that gives out so many revisions. -/
def write (t : ObjectTable) (id : Id) (revisions : ℕ) (o : ObjectUse) : Except Error ObjectTable :=
  if h : (t.objects.get? id).isSome ∧ o.useSequence ≤ t.revision + revisions ∧
      t.revision + revisions ≤ i64Max then
    .ok
      { objects := t.objects.insert id o
        objectSequence := t.objectSequence
        revision := t.revision + revisions
        allocated := by
          intro id' o' hget
          rw [get?_insert] at hget
          split_ifs at hget with heq
          · obtain ⟨p, hp⟩ := Option.isSome_iff_exists.mp h.1
            exact heq ▸ t.allocated id p hp
          · exact t.allocated id' o' hget
        used := by
          intro id' o' hget
          rw [get?_insert] at hget
          split_ifs at hget
          · obtain rfl := some.inj hget
            exact h.2.1
          · exact Nat.le_add_right_of_le (t.used id' o' hget)
        revision_le := h.2.2 }
  else .error noRows

/-- Register an access: the object becomes the most recently used one. Its use sequence is one
revision, and the row is saved under the next. -/
def touchObject (t : ObjectTable) (id : Id) : Except Error ObjectTable := do
  let o ← t.object id
  require (o.state = .published) objectRetired
  t.write id 2 { o with useSequence := t.revision + 1 }

/-- Save an object in another state. -/
def saveObject (t : ObjectTable) (id : Id) (state : ObjectState) : Except Error ObjectTable := do
  let o ← t.object id
  t.write id 1 { o with state := state }

/-- Delete the row of an object that has been removed. -/
def removeObject (t : ObjectTable) (id : Id) : Except Error ObjectTable := do
  let o ← t.object id
  if o.state = .removed then
    .ok
      { t with
        objects := t.objects.erase id
        allocated := by
          intro id' o' hget
          rw [get?_erase] at hget
          split_ifs at hget
          exact t.allocated id' o' hget
        used := by
          intro id' o' hget
          rw [get?_erase] at hget
          split_ifs at hget
          exact t.used id' o' hget }
  else .ok t

/-! ### What the writes can do -/

/-- The object of an identity, if there is one, is the one of the table. -/
lemma object_ok : t.object id = .ok o ↔ t.objects.get? id = some o := by
  unfold object
  cases t.objects.get? id <;> simp

/-- **Creation**: the new object has a use sequence beyond the revision before. -/
theorem createObject_ok {kind : ObjectKind} (h : t.createObject kind = .ok t') :
    t'.objects = t.objects.insert (t.objectSequence + 1) ⟨kind, .preparing, t.revision + 1⟩ ∧
      t'.revision = t.revision + 1 := by
  unfold createObject at h
  split_ifs at h
  cases h
  exact ⟨rfl, rfl⟩

/-- Writing a row. -/
lemma write_ok {revisions : ℕ} (h : t.write id revisions o = .ok t') :
    t'.objects = t.objects.insert id o ∧ t'.revision = t.revision + revisions := by
  unfold write at h
  split_ifs at h
  cases h
  exact ⟨rfl, rfl⟩

/-- **An access**: the object gets a use sequence beyond the revision before. -/
theorem touchObject_ok (h : t.touchObject id = .ok t') :
    ∃ o, t.objects.get? id = some o ∧
      t'.objects = t.objects.insert id { o with useSequence := t.revision + 1 } ∧
      t'.revision = t.revision + 2 := by
  obtain ⟨o, hobject, h⟩ := bind_eq_ok.mp h
  obtain ⟨-, h⟩ := require_bind_eq_ok.mp h
  obtain ⟨hobjects, hrevision⟩ := write_ok h
  exact ⟨o, object_ok.mp hobject, hobjects, hrevision⟩

/-- **Another state**: the use sequence stays. -/
theorem saveObject_ok {state : ObjectState} (h : t.saveObject id state = .ok t') :
    ∃ o, t.objects.get? id = some o ∧ t'.objects = t.objects.insert id { o with state := state } ∧
      t'.revision = t.revision + 1 := by
  obtain ⟨o, hobject, h⟩ := bind_eq_ok.mp h
  obtain ⟨hobjects, hrevision⟩ := write_ok h
  exact ⟨o, object_ok.mp hobject, hobjects, hrevision⟩

/-- **Removal**: no other object changes. -/
theorem removeObject_ok (h : t.removeObject id = .ok t') :
    (∀ id' o, t'.objects.get? id' = some o → t.objects.get? id' = some o) ∧
      t'.revision = t.revision := by
  obtain ⟨o, -, h⟩ := bind_eq_ok.mp h
  split_ifs at h
  · cases h
    refine ⟨fun id' o' hget => ?_, rfl⟩
    rw [get?_erase] at hget
    split_ifs at hget
    exact hget
  · cases h
    exact ⟨fun _ _ hget => hget, rfl⟩

/-- What every write leaves: the revision does not fall, and an object keeps its use sequence or
has one beyond the revision before. -/
structure Later (t t' : ObjectTable) : Prop where
  /-- Revisions are given out once. -/
  revision : t.revision ≤ t'.revision
  /-- Use sequences change only to revisions that are given out now. -/
  use : ∀ id o', t'.objects.get? id = some o' →
    (∃ o, t.objects.get? id = some o ∧ o.useSequence = o'.useSequence) ∨
      t.revision < o'.useSequence

/-- An object is written that keeps its use sequence or gets one beyond the revision. -/
lemma Later.of_insert (hobjects : t'.objects = t.objects.insert id o)
    (hrevision : t.revision ≤ t'.revision)
    (huse : (∃ p, t.objects.get? id = some p ∧ p.useSequence = o.useSequence) ∨
      t.revision < o.useSequence) : Later t t' := by
  refine ⟨hrevision, fun id' o' hget => ?_⟩
  rw [hobjects, get?_insert] at hget
  split_ifs at hget with heq
  · obtain rfl := some.inj hget
    exact heq ▸ huse
  · exact .inl ⟨o', hget, rfl⟩

/-- Creation leaves the other objects. -/
lemma createObject_later {kind : ObjectKind} (h : t.createObject kind = .ok t') : Later t t' := by
  obtain ⟨hobjects, hrevision⟩ := createObject_ok h
  exact .of_insert hobjects (hrevision ▸ Nat.le_succ _) (.inr (Nat.lt_succ_self _))

/-- An access leaves the other objects. -/
lemma touchObject_later (h : t.touchObject id = .ok t') : Later t t' := by
  obtain ⟨o, -, hobjects, hrevision⟩ := touchObject_ok h
  exact .of_insert hobjects (hrevision ▸ Nat.le_add_right _ _) (.inr (Nat.lt_succ_self _))

/-- Another state leaves the use sequences. -/
lemma saveObject_later {state : ObjectState} (h : t.saveObject id state = .ok t') : Later t t' := by
  obtain ⟨o, hget, hobjects, hrevision⟩ := saveObject_ok h
  exact .of_insert hobjects (hrevision ▸ Nat.le_succ _) (.inl ⟨o, hget, rfl⟩)

/-- Removal leaves the use sequences. -/
lemma removeObject_later (h : t.removeObject id = .ok t') : Later t t' := by
  obtain ⟨hobjects, hrevision⟩ := removeObject_ok h
  exact ⟨hrevision.ge, fun id' o' hget => .inl ⟨o', hobjects id' o' hget, rfl⟩⟩

end ObjectTable

/-! ## Places -/

/-- A place in the order of a traversal: a phase, a use sequence, and an identity or the place
before every identity. -/
abbrev Place := ℕ ×ₗ ℕ ×ₗ WithBot Id

/-- The place of a phase, a use sequence and perhaps an identity. -/
def Place.of (phase use : ℕ) (id : Option Id) : Place := toLex (phase, toLex (use, id))

/-- An object that a phase has selected, and the use sequence it was selected for. -/
structure Selection where
  /-- The phase. -/
  phase : ℕ
  /-- The use sequence that the object had. -/
  use : ℕ
  /-- The object. -/
  id : Id
  deriving DecidableEq

/-- Where a selection is in the order of the traversal. -/
def Selection.place (e : Selection) : Place := .of e.phase e.use (some e.id)

/-- A place determines its selection. -/
lemma Selection.place_injective : Function.Injective Selection.place := by
  rintro ⟨p, u, a⟩ ⟨p', u', a'⟩ h
  simp only [place, Place.of, EmbeddingLike.apply_eq_iff_eq, Prod.mk.injEq] at h
  obtain ⟨rfl, rfl, rfl⟩ := h
  rfl

variable {use' use phase : ℕ}

/-- The places of a phase are before those of a later one. -/
lemma Place.of_lt_of_phase {phase' : ℕ} {a a' : Option Id} (h : phase < phase') :
    Place.of phase use a < Place.of phase' use' a' :=
  Prod.Lex.toLex_lt_toLex.mpr (.inl h)

/-- A place beyond another is in no earlier phase. -/
lemma Place.phase_le {phase' : ℕ} {a a' : Option Id}
    (h : Place.of phase use a < Place.of phase' use' a') : phase ≤ phase' := by
  by_contra hlt
  exact (h.trans (Place.of_lt_of_phase (Nat.lt_of_not_le hlt))).false

/-- Places of one phase are in the order of the query. -/
lemma Place.of_lt_of {after : Option Id} {id : Id} :
    Place.of phase use after < Place.of phase use' (some id) ↔
      use < use' ∨ use = use' ∧ after.all (· < id) := by
  have hid : @LT.lt (WithBot Id) _ after (some id) ↔ after.all (· < id) = true := by
    cases after with
    | none => exact iff_of_true (WithBot.bot_lt_coe id) rfl
    | some a => exact WithBot.coe_lt_coe.trans (decide_eq_true_iff).symm
  simp only [Place.of, Prod.Lex.toLex_lt_toLex, lt_self_iff_false, true_and, false_or, hid]

/-- Every object of a phase is beyond its beginning. -/
lemma Place.begin_lt {id : Id} : Place.of phase 0 none < Place.of phase use (some id) := by
  refine Place.of_lt_of.mpr ?_
  rcases Nat.eq_zero_or_pos use with rfl | hpos
  · exact .inr ⟨rfl, rfl⟩
  · exact .inl hpos

/-! ## The query -/

/-- The condition of a phase: withdrawn objects first, then checkpoints, what unfinished work has
left, and generations. -/
def phaseCondition (phase : ℕ) (o : ObjectUse) : Bool :=
  match phase with
  | 0 => o.state ∈ [.retired, .pendingDeletion]
  | 1 => o.kind = .checkpoint ∧ o.state ∈ [.preparing, .published]
  | 2 => o.kind ∈ [.buildStage, .migrationStage, .checkpointStage] ∧
      o.state ∈ [.preparing, .published]
  | 3 => o.kind = .generation ∧ o.state ∈ [.preparing, .published]
  | _ => false

/-- A later phase than the last selects nothing. -/
lemma phase_le_of_phaseCondition {o : ObjectUse} (h : phaseCondition phase o = true) :
    phase ≤ 3 := by
  unfold phaseCondition at h
  split at h
  · exact Nat.zero_le _
  · exact Nat.le_of_ble_eq_true rfl
  · exact Nat.le_of_ble_eq_true rfl
  · exact Nat.le_refl _
  · cases h

namespace ObjectTable

/-- A row meets the condition of the query. -/
def matchesRow (phase : ℕ) (after : Option Id) (afterUse through : ℕ) (id : Id) (o : ObjectUse) :
    Bool :=
  phaseCondition phase o ∧ o.useSequence ≤ through ∧
    (afterUse < o.useSequence ∨ afterUse = o.useSequence ∧ after.all (· < id))

/-- The columns of the rows that meet the condition, in the order that they are sorted in. -/
def matching (t : ObjectTable) (phase : ℕ) (after : Option Id) (afterUse through : ℕ) :
    Finset (ℕ ×ₗ Id) :=
  (t.objects.keys.filter fun id =>
    (t.objects.get? id).any (matchesRow phase after afterUse through id)).image fun id =>
      toLex ((t.objects.get? id).elim 0 (·.useSequence), id)

/-- The first row that meets the condition: its use sequence and its identity. -/
def query (t : ObjectTable) (phase : ℕ) (after : Option Id) (afterUse through : ℕ) :
    Option (ℕ ×ₗ Id) :=
  if h : (t.matching phase after afterUse through).Nonempty then
    some ((t.matching phase after afterUse through).min' h)
  else none

/-- The object is in the condition of the phase, with that use sequence. -/
def Meets (t : ObjectTable) (e : Selection) : Prop :=
  ∃ o, t.objects.get? e.id = some o ∧ phaseCondition e.phase o = true ∧ o.useSequence = e.use

/-- An object that the query may return: it is in the phase's condition, not beyond the mark, and
beyond the place of the cursor. -/
structure Candidate (t : ObjectTable) (through : ℕ) (place : Place) (e : Selection) : Prop where
  /-- The object meets the condition. -/
  condition : t.Meets e
  /-- It was not used after the mark. -/
  use_le : e.use ≤ through
  /-- The cursor has not come to it. -/
  beyond : place < e.place

variable {t : ObjectTable} {phase afterUse through use : ℕ} {after : Option Id} {id : Id}

/-- The rows that meet the condition are the candidates of the phase. -/
lemma mem_matching :
    toLex (use, id) ∈ t.matching phase after afterUse through ↔
      t.Candidate through (.of phase afterUse after) ⟨phase, use, id⟩ := by
  simp only [matching, mem_image, Finset.mem_filter, EmbeddingLike.apply_eq_iff_eq, Prod.mk.injEq]
  constructor
  · rintro ⟨id', ⟨-, hmatch⟩, huse, rfl⟩
    cases hget : t.objects.get? id' with
    | none => simp [hget] at hmatch
    | some o =>
      rw [hget, any_some, matchesRow, decide_eq_true_iff] at hmatch
      rw [hget, elim_some] at huse
      subst huse
      exact ⟨⟨o, hget, hmatch.1, rfl⟩, hmatch.2.1, Place.of_lt_of.mpr hmatch.2.2⟩
  · rintro ⟨⟨o, hget, hcondition, huse⟩, hle, hbeyond⟩
    dsimp only at hget hcondition huse hle
    subst huse
    refine ⟨id, ⟨mem_keys_of_get? hget, ?_⟩, by rw [hget, elim_some], rfl⟩
    rw [hget, any_some, matchesRow, decide_eq_true_iff]
    exact ⟨hcondition, hle, Place.of_lt_of.mp hbeyond⟩

/-- **The query selects the least candidate.** -/
theorem query_eq_some (h : t.query phase after afterUse through = some (toLex (use, id))) :
    t.Candidate through (.of phase afterUse after) ⟨phase, use, id⟩ ∧
      ∀ e : Selection, e.phase = phase → t.Candidate through (.of phase afterUse after) e →
        (⟨phase, use, id⟩ : Selection).place ≤ e.place := by
  unfold query at h
  split_ifs at h with hnonempty
  have hmin := some.inj h
  refine ⟨mem_matching.mp (hmin ▸ min'_mem _ hnonempty), ?_⟩
  rintro ⟨p, u, a⟩ rfl he
  have hle : toLex (use, id) ≤ toLex (u, a) := hmin ▸ min'_le _ _ (mem_matching.mpr he)
  refine Prod.Lex.toLex_le_toLex.mpr (.inr ⟨rfl, Prod.Lex.toLex_le_toLex.mpr ?_⟩)
  rcases Prod.Lex.toLex_le_toLex.mp hle with hlt | ⟨heq, hid⟩
  · exact .inl hlt
  · exact .inr ⟨heq, WithBot.coe_le_coe.mpr hid⟩

/-- **The query selects nothing** when there is no candidate. -/
theorem query_eq_none (h : t.query phase after afterUse through = none) (e : Selection)
    (hphase : e.phase = phase) : ¬ t.Candidate through (.of phase afterUse after) e := by
  unfold query at h
  split_ifs at h with hnonempty
  obtain ⟨p, u, a⟩ := e
  obtain rfl := hphase
  exact fun he => hnonempty ⟨_, mem_matching.mpr he⟩

end ObjectTable

/-! ## The cursor -/

/-- What one pass leaves to the next. -/
structure CollectionCursor where
  /-- The phase. -/
  phase : ℕ := 0
  /-- The object that was dealt with last. -/
  after : Option Id := none
  /-- The use sequence it was selected for. -/
  afterUse : ℕ := 0
  /-- The object that is selected now. -/
  current : Option Id := none
  /-- The use sequence it is selected for. -/
  currentUse : Option ℕ := none
  /-- The high-water mark: the revision that no use sequence may exceed. -/
  throughUse : Option ℕ := none
  deriving DecidableEq

namespace CollectionCursor

/-- Where the cursor stands: at the selected object, and otherwise at the last one. -/
def place (c : CollectionCursor) : Place :=
  match c.current with
  | some id => .of c.phase (c.currentUse.getD 0) (some id)
  | none => .of c.phase c.afterUse c.after

/-- A pass takes up a cursor. The first pass of a traversal sets the mark. -/
def resume (saved : Option CollectionCursor) (revision : ℕ) : Except Error CollectionCursor := do
  let c := saved.getD {}
  require (c.throughUse.all (· ≤ revision))
    (.invalid "collection high-water mark exceeds the catalog revision")
  .ok { c with throughUse := some (c.throughUse.getD revision) }

/-- The object to deal with next: the selected one, and otherwise the first that the query
returns. -/
def nextCollectionObject (c : CollectionCursor) (t : ObjectTable) :
    Except Error (Option Id × CollectionCursor) := do
  require (c.phase ≤ 3) (.invalid "invalid collection cursor phase")
  match c.current with
  | some current => .ok (some current, c)
  | none =>
    sqlInteger c.afterUse
    match c.throughUse with
    | none => .error (.invalid "collection traversal has no high-water mark")
    | some through =>
      sqlInteger through
      match t.query c.phase c.after c.afterUse through with
      | none => .ok (none, c)
      | some row => .ok (some (ofLex row).2, { c with currentUse := some (ofLex row).1 })

/-- The next phase begins before all objects. -/
def nextPhase (c : CollectionCursor) : CollectionCursor :=
  { c with phase := c.phase + 1, after := none, afterUse := 0 }

/-- The selected object is dealt with. The cursor needs the use sequence it was selected for. -/
def advance (c : CollectionCursor) (id : Id) (missing : Error) : Except Error CollectionCursor :=
  match c.currentUse with
  | none => .error missing
  | some use =>
    .ok { c with after := some id, afterUse := use, current := none, currentUse := none }

/-- The error of a cursor of an earlier format whose object has gone. -/
def objectEvicted : Error :=
  ⟨.recoveryRequired, "collection-cursor-object-evicted",
    "the old cursor has no ordering evidence; start a new collection traversal", none⟩

/-- A look at the selected object: it may have been collected since, and the cursor moves on. -/
def look (c : CollectionCursor) (t : ObjectTable) (id : Id) :
    Except Error (Bool × CollectionCursor) :=
  match t.object id with
  | .ok o => .ok (true, { c with currentUse := some (c.currentUse.getD o.useSequence) })
  | .error e =>
    if e.category = .cacheEvicted then do
      let c ← c.advance id objectEvicted
      .ok (false, c)
    else .error e

/-! ### What the steps do to the cursor -/

variable {c c' : CollectionCursor} {t : ObjectTable} {id : Id}

/-- **A pass begins** with the saved cursor, or before all objects, and its mark is a revision. -/
theorem resume_ok {saved : Option CollectionCursor} {revision : ℕ}
    (h : resume saved revision = .ok c) :
    ∃ m, m ≤ revision ∧ c = { saved.getD {} with throughUse := some m } ∧
      (∀ p, saved = some p → ∀ n, p.throughUse = some n → m = n) ∧
      (saved = none → m = revision) := by
  obtain ⟨hmark, h⟩ := require_bind_eq_ok.mp h
  cases h
  refine ⟨_, ?_, rfl, ?_, ?_⟩
  · cases hthrough : (saved.getD {}).throughUse with
    | none => exact le_rfl
    | some m => simpa [hthrough] using hmark
  · rintro p rfl n hn
    exact congrArg (Option.getD · revision) hn
  · rintro rfl
    rfl

/-- **The next object**: the selected one, or the least candidate, whose use sequence the cursor
notes; there is none only if there is no candidate. -/
theorem nextCollectionObject_ok {next : Option Id} {m : ℕ} (hmark : c.throughUse = some m)
    (h : c.nextCollectionObject t = .ok (next, c')) :
    c.phase ≤ 3 ∧
      ((∃ id, c.current = some id ∧ next = some id ∧ c' = c) ∨
        (c.current = none ∧ next = none ∧ c' = c ∧
          ∀ e : Selection, e.phase = c.phase → ¬ t.Candidate m c.place e) ∨
        ∃ id use, c.current = none ∧ next = some id ∧ c' = { c with currentUse := some use } ∧
          t.Candidate m c.place ⟨c.phase, use, id⟩ ∧
          ∀ e : Selection, e.phase = c.phase → t.Candidate m c.place e →
            (⟨c.phase, use, id⟩ : Selection).place ≤ e.place) := by
  obtain ⟨hphase, h⟩ := require_bind_eq_ok.mp h
  refine ⟨hphase, ?_⟩
  cases hcurrent : c.current with
  | some id =>
    rw [hcurrent] at h
    cases h
    exact .inl ⟨id, rfl, rfl, rfl⟩
  | none =>
    have hplace : c.place = .of c.phase c.afterUse c.after := by rw [place, hcurrent]
    simp only [hcurrent, hmark] at h
    obtain ⟨-, -, h⟩ := bind_eq_ok.mp h
    obtain ⟨-, -, h⟩ := bind_eq_ok.mp h
    right
    cases hquery : t.query c.phase c.after c.afterUse m with
    | none =>
      rw [hquery] at h
      cases h
      exact .inl ⟨rfl, rfl, rfl, fun e he => hplace ▸ ObjectTable.query_eq_none hquery e he⟩
    | some row =>
      rw [hquery] at h
      cases h
      obtain ⟨hcandidate, hleast⟩ := ObjectTable.query_eq_some hquery
      exact .inr ⟨_, (ofLex row).1, rfl, rfl, by rw [hmark], hplace ▸ hcandidate, hplace ▸ hleast⟩

/-- Dealing with the selected object leaves the cursor where it stands. -/
lemma advance_ok {missing : Error} (hcurrent : c.current = some id)
    (h : c.advance id missing = .ok c') :
    c'.place = c.place ∧ c'.phase = c.phase ∧ c'.throughUse = c.throughUse ∧
      c'.current = none := by
  unfold advance at h
  split at h
  · cases h
  · rename_i use huse
    cases h
    refine ⟨?_, rfl, rfl, rfl⟩
    simp only [place, hcurrent, huse, getD_some]

/-- **A look** at the selected object leaves the cursor where it stands, and as it is if the
object is there. -/
theorem look_ok {found : Bool} (hcurrent : c.current = some id) (huse : c.currentUse.isSome)
    (h : c.look t id = .ok (found, c')) :
    (found = true ∧ c' = c) ∨
      (found = false ∧ c'.place = c.place ∧ c'.phase = c.phase ∧ c'.throughUse = c.throughUse ∧
        c'.current = none) := by
  unfold look at h
  split at h
  · obtain ⟨use, huse⟩ := Option.isSome_iff_exists.mp huse
    cases h
    refine .inl ⟨rfl, ?_⟩
    rw [huse, getD_some, ← huse]
  · split_ifs at h
    obtain ⟨c₁, hadvance, h⟩ := bind_eq_ok.mp h
    cases h
    exact .inr ⟨rfl, advance_ok hcurrent hadvance⟩

end CollectionCursor

end Tgrep.Managed
