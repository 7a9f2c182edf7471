import Tgrep.Data.Ascending
import Tgrep.Data.Run
import Tgrep.Managed.CollectionCursor

/-!
# The pages of a catalog listing

A listing of the catalog is cut into pages. Its cursor holds the revision that the first page found
and the last object examined; a page examines the next rows of `objects` and takes the version of
each that `object_history` has for the revision. Between pages objects are created, saved and
removed, cleanup prunes the history and deletes removed objects, and other cursors come and go.

## Main definitions

* `ObjectRecord`, `ObjectRow`, `Catalog`: the objects, their versions and the counters.
* `Catalog.createObject`, `Catalog.saveObject`, `Catalog.touchObject`: the writes of a life.
* `Catalog.pruneHistory`, `Catalog.deleteObject`: what cleanup does.
* `Namespace.openCursor`, `Namespace.resume`: a listing begins, and a page of it.
* `Event`, `step`, `Allowed`: everything that may happen between two pages.
* `Listing`: a chain of pages that is followed to its end.

## Implementation notes

`page(None)` registers its cursor and goes on as `page(Some(cursor))` does, without letting go of
the registry in between. Allowing any other call there only adds runs. A version is designated by
its revision, which no other version has, and `drawn` counts what `Id::new` has drawn. Time passes
by the event that takes a cursor out of the registry, whoever does it.
-/

namespace Tgrep.Managed.Paging

variable {ρ : Type}

/-- The record of an object. -/
structure ObjectRecord (ρ : Type) where
  /-- The object. -/
  id : Id
  /-- Where it is in its life. -/
  state : ObjectState
  /-- The revision of its creation, or of the last access since. -/
  useSequence : ℕ
  /-- What is known about its age, as JSON. -/
  idleEvidence : Option String
  /-- The revision that wrote the record. -/
  revision : ℕ
  /-- What neither a listing nor cleanup looks at. -/
  rest : ρ
  deriving DecidableEq

/-- A row of `objects`. -/
structure ObjectRow (ρ : Type) where
  /-- The revision that created the object. -/
  createdRevision : ℕ
  /-- Its record. -/
  record : ObjectRecord ρ

/-- The row with its record replaced, if the record is its object's. -/
def ObjectRow.put (object : ObjectRecord ρ) (row : ObjectRow ρ) : ObjectRow ρ :=
  if row.record.id = object.id then { row with record := object } else row

/-- A row stays that of its object. -/
@[simp] theorem ObjectRow.id_put (object : ObjectRecord ρ) (row : ObjectRow ρ) :
    (row.put object).record.id = row.record.id := by
  unfold ObjectRow.put
  split_ifs with h
  · exact h.symm
  · rfl

/-- A row keeps the revision of its object's creation. -/
@[simp] theorem ObjectRow.createdRevision_put (object : ObjectRecord ρ) (row : ObjectRow ρ) :
    (row.put object).createdRevision = row.createdRevision := by
  unfold ObjectRow.put
  split_ifs <;> rfl

/-- The tables of the catalog that a listing reads. A revision writes one version only. -/
structure Catalog (ρ : Type) where
  /-- The objects, in the order of their identities. -/
  objects : List (ObjectRow ρ)
  /-- The versions of the objects, the newest first. -/
  history : List (ObjectRecord ρ)
  /-- The number of the identity given out last. -/
  objectSequence : ℕ
  /-- The revision of the catalog. -/
  revision : ℕ
  /-- The identity is the key of the objects. -/
  ordered : Ascending (fun row => row.record.id) objects
  /-- Every object has an identity that was given out. -/
  allocated : ∀ row ∈ objects, row.record.id ≤ objectSequence
  /-- Every object was created by a revision that there was. -/
  created : ∀ row ∈ objects, row.createdRevision ≤ revision
  /-- The revisions of the versions descend. -/
  newestFirst : history.Pairwise fun newer older => older.revision < newer.revision
  /-- Every version was written by a revision that there was. -/
  recorded : ∀ version ∈ history, version.revision ≤ revision

namespace Catalog

variable (c : Catalog ρ)

/-- A catalog without objects. -/
def empty : Catalog ρ := ⟨[], [], 0, 0, by simp, by simp, by simp, by simp, by simp⟩

/-- The error of a version of an object that has no row. -/
def foreignKey : Error := ⟨.io, "catalog-io", "FOREIGN KEY constraint failed", none⟩

/-- `object_row`: the record of an object. -/
def objectRow (id : Id) : Except Error (ObjectRecord ρ) :=
  match c.objects.find? (fun row => row.record.id = id) with
  | some row => .ok row.record
  | none => .error (if id ≠ 0 ∧ id ≤ c.objectSequence then ObjectTable.objectCollected
      else ObjectTable.objectMissing)

/-- `next_revision`: the revision is given out. -/
def nextRevision : Except Error (Catalog ρ) :=
  if c.revision < i64Max then
    .ok { c with
      revision := c.revision + 1
      created := fun row hrow => Nat.le_succ_of_le (c.created row hrow)
      recorded := fun version hversion => Nat.le_succ_of_le (c.recorded version hversion) }
  else .error noRows

/-- The transaction of `create_object_inner`: a row and its first version. -/
def createObject (rest : ρ) : Except Error (Catalog ρ) :=
  if c.objectSequence < i64Max ∧ c.revision < i64Max then
    let object := ⟨c.objectSequence + 1, .preparing, c.revision + 1, none, c.revision + 1, rest⟩
    .ok
      { objects := c.objects ++ [⟨c.revision + 1, object⟩]
        history := object :: c.history
        objectSequence := c.objectSequence + 1
        revision := c.revision + 1
        ordered := by
          refine Ascending.append.mpr ⟨c.ordered, List.pairwise_singleton _ _, fun row hrow _ h => ?_⟩
          obtain rfl := List.mem_singleton.mp h
          exact Nat.lt_succ_of_le (c.allocated row hrow)
        allocated := by
          intro row hrow
          rcases List.mem_append.mp hrow with hrow | hrow
          · exact Nat.le_succ_of_le (c.allocated row hrow)
          · exact (List.mem_singleton.mp hrow) ▸ le_rfl
        created := by
          intro row hrow
          rcases List.mem_append.mp hrow with hrow | hrow
          · exact Nat.le_succ_of_le (c.created row hrow)
          · exact (List.mem_singleton.mp hrow) ▸ le_rfl
        newestFirst := List.pairwise_cons.mpr
          ⟨fun version h => Nat.lt_succ_of_le (c.recorded version h), c.newestFirst⟩
        recorded := List.forall_mem_cons.mpr
          ⟨le_rfl, fun version h => Nat.le_succ_of_le (c.recorded version h)⟩ }
  else .error noRows

/-- `save_object`: the record is written with the next revision, and is a new version. -/
def saveObject (object : ObjectRecord ρ) : Except Error (Catalog ρ) :=
  if c.revision < i64Max then
    if c.objects.any (fun row => row.record.id = object.id) then
      let object := { object with revision := c.revision + 1 }
      .ok
        { objects := c.objects.map (ObjectRow.put object)
          history := object :: c.history
          objectSequence := c.objectSequence
          revision := c.revision + 1
          ordered := List.pairwise_map.mpr (by simpa only [Ascending, ObjectRow.id_put] using c.ordered)
          allocated := List.forall_mem_map.mpr (by simpa using c.allocated)
          created := List.forall_mem_map.mpr fun row hrow => by
            simpa using Nat.le_succ_of_le (c.created row hrow)
          newestFirst := List.pairwise_cons.mpr
            ⟨fun version h => Nat.lt_succ_of_le (c.recorded version h), c.newestFirst⟩
          recorded := List.forall_mem_cons.mpr
            ⟨le_rfl, fun version h => Nat.le_succ_of_le (c.recorded version h)⟩ }
    else .error foreignKey
  else .error noRows

/-- `touch_object`: an access to a published object takes a revision, and the save another. -/
def touchObject (id : Id) : Except Error (Catalog ρ) := do
  let object ← c.objectRow id
  require (object.state = .published) ObjectTable.objectRetired
  let c ← c.nextRevision
  c.saveObject { object with useSequence := c.revision, idleEvidence := none }

/-- A version may be pruned: below the floor there is, or at it, a newer one of its object. -/
def prunable (floor : ℕ) (version : ObjectRecord ρ) : Bool :=
  version.revision < floor && c.history.any fun newer =>
    newer.id = version.id && version.revision < newer.revision && newer.revision ≤ floor

/-- Phase 4 of `cleanup_row`: the version with a revision is deleted, if it may be pruned. -/
def pruneHistory (floor revision : ℕ) : Catalog ρ :=
  { c with
    history := c.history.filter fun version =>
      !(version.revision = revision && c.prunable floor version)
    newestFirst := c.newestFirst.filter _
    recorded := fun version h => c.recorded version (List.mem_of_mem_filter h) }

/-- The transaction of phase 6 of `cleanup_row`: all versions, and the row if it is removed. -/
def deleteObject (id : Id) : Catalog ρ :=
  { c with
    history := c.history.filter fun version => version.id ≠ id
    objects := c.objects.filter fun row => !(row.record.id = id && row.record.state = .removed)
    ordered := c.ordered.filter _
    allocated := fun row h => c.allocated row (List.mem_of_mem_filter h)
    created := fun row h => c.created row (List.mem_of_mem_filter h)
    newestFirst := c.newestFirst.filter _
    recorded := fun version h => c.recorded version (List.mem_of_mem_filter h) }

/-- The newest version that an object has at a revision. -/
def versionAt (revision : ℕ) (id : Id) : Option (ObjectRecord ρ) :=
  c.history.find? fun version => version.id = id && version.revision ≤ revision

/-- The rows of a page: the objects that existed, as they were, unless they were removed. -/
def versions (revision : ℕ) : List (ObjectRow ρ) → Except Error (List (ObjectRecord ρ))
  | [] => .ok []
  | row :: rows =>
    if row.createdRevision ≤ revision then
      match c.versionAt revision row.record.id with
      | none => .error noRows
      | some object => do
        let objects ← versions revision rows
        .ok (if object.state ≠ .removed then object :: objects else objects)
    else versions revision rows

end Catalog

/-! ## Cursors and pages -/

/-- What the registry holds of a cursor. -/
structure CursorLifetime where
  /-- The cursor. -/
  ticket : Id
  /-- The revision that it lists. -/
  revision : ℕ
  deriving DecidableEq

/-- The cursor of a listing. -/
structure CatalogCursor where
  /-- The process that opened it. -/
  process : Id
  /-- Its entry in the registry. -/
  ticket : Id
  /-- The revision that it lists. -/
  revision : ℕ
  /-- The last object examined. -/
  after : Option Id
  deriving DecidableEq

/-- The object is beyond the cursor. -/
def CatalogCursor.beyond (cursor : CatalogCursor) (id : Id) : Bool := cursor.after.all (· < id)

/-- The cursor after so many rows. -/
def CatalogCursor.advance (cursor : CatalogCursor) (rows : List (ObjectRow ρ)) : CatalogCursor :=
  { cursor with after := (rows.getLast?.map fun row => row.record.id).or cursor.after }

/-- A page of a listing. -/
structure CatalogPage (ρ : Type) where
  /-- The revision that is listed. -/
  revision : ℕ
  /-- The number of rows examined. -/
  examined : ℕ
  /-- The objects. -/
  objects : List (ObjectRecord ρ)
  /-- The cursor of the next page, if there may be more objects. -/
  next : Option CatalogCursor

/-- A namespace: its catalog, and what the process holds that has it open. -/
structure Namespace (ρ : Type) where
  /-- The catalog. -/
  catalog : Catalog ρ
  /-- The process. -/
  process : Id
  /-- The registry of cursors. -/
  cursors : List CursorLifetime
  /-- The number of identities that were drawn. -/
  drawn : ℕ
  /-- The records that cleanup has read, to see whether their objects can be deleted. -/
  read : List (ObjectRecord ρ)

namespace Namespace

variable (s : Namespace ρ)

/-- A namespace without objects. -/
def new : Namespace ρ := ⟨.empty, 0, [], 1, []⟩

/-- The error of a cursor that is not, or not any more, in the registry. -/
def cursorExpired : Error :=
  ⟨.staleIdentity, "cursor-expired", "start a new bounded catalog snapshot", none⟩

/-- The first half of `page(None)`: a cursor at the revision of the catalog is registered. -/
def openCursor (maxCursors inventories : ℕ) : Except Error (CatalogCursor × Namespace ρ) := do
  require (s.cursors.length + inventories < maxCursors) (.pressure "catalog-cursor-limit")
  let cursor : CatalogCursor := ⟨s.process, s.drawn, s.catalog.revision, none⟩
  .ok (cursor, { s with
    cursors := ⟨s.drawn, s.catalog.revision⟩ :: s.cursors
    drawn := s.drawn + 1 })

/-- The registry has the cursor, at its revision. -/
def Live (ticket : Id) (revision : ℕ) : Prop :=
  s.cursors.find? (fun lifetime => lifetime.ticket = ticket) = some ⟨ticket, revision⟩

instance (ticket : Id) (revision : ℕ) : Decidable (s.Live ticket revision) :=
  inferInstanceAs (Decidable (_ = _))

/-- A cursor is taken out of the registry. -/
def remove (ticket : Id) : Namespace ρ :=
  { s with cursors := s.cursors.filter fun lifetime => lifetime.ticket ≠ ticket }

/-- The page after a cursor, of so many rows at most. -/
def readPage (c : Catalog ρ) (limit : ℕ) (cursor : CatalogCursor) :
    Except Error (CatalogPage ρ) := do
  let rows := (c.objects.filter fun row => cursor.beyond row.record.id).take limit
  let objects ← c.versions cursor.revision rows
  let cursor := cursor.advance rows
  let more := c.objects.any fun row => cursor.beyond row.record.id
  .ok ⟨cursor.revision, rows.length, objects, if more then some cursor else none⟩

/-- `page(Some(cursor))`: the cursor is looked up, a page is read, and after the last one the
cursor is dropped. -/
def resume (limit : ℕ) (cursor : CatalogCursor) : Except Error (CatalogPage ρ × Namespace ρ) := do
  require (cursor.process = s.process ∧ s.Live cursor.ticket cursor.revision) cursorExpired
  let page ← readPage s.catalog limit cursor
  .ok (page, if page.next.isNone then s.remove cursor.ticket else s)

/-- The least revision that a registered cursor lists. -/
def floor : ℕ := ((s.cursors.map CursorLifetime.revision).min?).getD i64Max

/-- Phase 6 of `cleanup_row`, for a record that was read before. Other tables may hold on to the
object. -/
def cleanupObject (object : ObjectRecord ρ) (blocked : Bool) : Namespace ρ :=
  if object.state ≠ .removed then s
  else if s.cursors.any fun lifetime => lifetime.revision < object.revision then s
  else if blocked then s
  else { s with catalog := s.catalog.deleteObject object.id }

end Namespace

/-! ## Runs -/

/-- What happens to a namespace. -/
inductive Event (ρ : Type)
  /-- An object is created. -/
  | create (rest : ρ)
  /-- A record is saved. -/
  | save (object : ObjectRecord ρ)
  /-- An access is registered. -/
  | touch (id : Id)
  /-- Something else takes a revision. -/
  | revise
  /-- Cleanup comes to a version. -/
  | prune (revision : ℕ)
  /-- Cleanup reads the row of an object. -/
  | look (id : Id)
  /-- Cleanup treats a row that it has read. -/
  | cleanup (position : ℕ) (blocked : Bool)
  /-- A listing begins. -/
  | begin (maxCursors inventories : ℕ)
  /-- A page is read. -/
  | page (limit : ℕ) (cursor : CatalogCursor)
  /-- A cursor is closed, or expires. -/
  | close (ticket : Id)
  /-- Another process opens the namespace. -/
  | restart

/-- What a write makes of the namespace. -/
def Namespace.write (s : Namespace ρ) (result : Except Error (Catalog ρ)) : Option (Namespace ρ) :=
  result.toOption.map fun c => { s with catalog := c }

/-- One call. A call that fails changes nothing, and is no step. -/
def step (s : Namespace ρ) : Event ρ → Option (Namespace ρ)
  | .create rest => s.write (s.catalog.createObject rest)
  | .save object => s.write (s.catalog.saveObject object)
  | .touch id => s.write (s.catalog.touchObject id)
  | .revise => s.write s.catalog.nextRevision
  | .prune revision => some { s with catalog := s.catalog.pruneHistory s.floor revision }
  | .look id => (s.catalog.objectRow id).toOption.map fun object =>
      { s with read := object :: s.read }
  | .cleanup position blocked => s.read[position]?.map (s.cleanupObject · blocked)
  | .begin maxCursors inventories => (s.openCursor maxCursors inventories).toOption.map Prod.snd
  | .page limit cursor => (s.resume limit cursor).toOption.map Prod.snd
  | .close ticket => some (s.remove ticket)
  | .restart => some { s with process := s.drawn, cursors := [], drawn := s.drawn + 1, read := [] }

/-- **Removed is the end of a life**: whoever saves a record has its object's guard, or has read
its state in the same transaction, so no save brings an object back that was removed. -/
def Allowed (s : Namespace ρ) : Event ρ → Prop
  | .save object => ∀ row ∈ s.catalog.objects, row.record.id = object.id →
      row.record.state = .removed → object.state = .removed
  | _ => True

/-- A listing that holds a cursor is followed to its end, whatever happens between its pages. -/
inductive Listing : Namespace ρ → CatalogCursor → List (CatalogPage ρ) → Prop
  /-- The last page has no cursor. -/
  | last {s s₁ s₂ : Namespace ρ} {cursor : CatalogCursor} {limit : ℕ} {page : CatalogPage ρ}
      (hrun : Run.Reaches step Allowed s s₁) (hpage : s₁.resume limit cursor = .ok (page, s₂))
      (hnext : page.next = none) : Listing s cursor [page]
  /-- Another page has the cursor of the rest. -/
  | more {s s₁ s₂ : Namespace ρ} {cursor cursor' : CatalogCursor} {limit : ℕ}
      {page : CatalogPage ρ} {pages : List (CatalogPage ρ)}
      (hrun : Run.Reaches step Allowed s s₁) (hpage : s₁.resume limit cursor = .ok (page, s₂))
      (hnext : page.next = some cursor') (hrest : Listing s₂ cursor' pages) :
      Listing s cursor (page :: pages)

end Tgrep.Managed.Paging
