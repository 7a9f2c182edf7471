import Tgrep.Managed.AccountingChange

/-!
# The invariant of the catalog

The counters are the tallies over the tables, operations are unique among the reservations, and
the storage of an operation is that of its objects. The storage table keeps only a bound on the
floors of an operation's objects, since removing the largest one does not lower it.

## Main definitions

* `StorageMatches`: the storage of each operation is that of its objects.
* `Catalog.Working`: the invariant while a trigger is at work on a given table of objects.
* `Catalog.Consistent`: the invariant between statements.

## Main results

* `Catalog.Consistent.putObject`, `Catalog.Consistent.putReservation`,
  `Catalog.Consistent.putReference`, … — writing a row keeps the invariant, or is refused for
  another reason than a negative column.
-/

namespace Tgrep.Managed

open Option FinMap

/-! ## The storage of an operation -/

/-- The object has not been removed, and the operation prepares it. -/
def ObjectRow.InOperation (o : ObjectRow) (operation : Id) : Prop :=
  o.state ≠ .removed ∧ o.operation = some operation

instance (o : ObjectRow) (operation : Id) : Decidable (o.InOperation operation) :=
  inferInstanceAs (Decidable (_ ∧ _))

/-- An amount, summed over the objects of an operation. -/
def operationTally (f : ObjectRow → ℤ) (objects : FinMap Id ObjectRow) (operation : Id) : ℤ :=
  objects.tally fun _ o => if o.InOperation operation then f o else 0

/-- The logical bytes of the objects of an operation. -/
def operationBytes : FinMap Id ObjectRow → Id → ℤ := operationTally fun o => o.logicalBytes

/-- The number of the objects of an operation. -/
def operationCount : FinMap Id ObjectRow → Id → ℤ := operationTally fun _ => 1

/-- The number of the objects of an operation that have a floor. -/
def operationUnsealed : FinMap Id ObjectRow → Id → ℤ :=
  operationTally fun o => indicator (o.accountingFloor > 0)

/-- A row of `operation_storage` sums the objects of its operation, and bounds their floors. -/
structure OperationStorage.Sums (s : OperationStorage) (objects : FinMap Id ObjectRow)
    (operation : Id) : Prop where
  /-- The bytes. -/
  logical : s.logical = operationBytes objects operation
  /-- The number. -/
  count : s.objects = operationCount objects operation
  /-- The number of those with a floor. -/
  unsealed : s.unsealed = operationUnsealed objects operation
  /-- The floors are bounded. -/
  floor_le : ∀ id o, objects.get? id = some o → o.InOperation operation →
    (o.accountingFloor : ℤ) ≤ s.floor
  /-- The bound is not negative. -/
  floor_nonneg : 0 ≤ s.floor
  /-- Without floors the bound is zero. -/
  floor_zero : operationUnsealed objects operation = 0 → s.floor = 0

/-- The storage of each operation is that of its objects; an operation without objects has none. -/
def StorageMatches (storage : FinMap Id OperationStorage) (objects : FinMap Id ObjectRow) : Prop :=
  ∀ operation,
    match storage.get? operation with
    | none => operationCount objects operation = 0
    | some s => s.Sums objects operation ∧ 0 < operationCount objects operation

section OperationTally

variable {objects : FinMap Id ObjectRow} {operation id : Id} {o : ObjectRow} {f : ObjectRow → ℤ}

/-- The sums after an object of the operation is taken out. -/
lemma operationTally_remove (hget : objects.get? id = some o) (hin : o.InOperation operation) :
    operationTally f (objects.put id none) operation = operationTally f objects operation - f o := by
  unfold operationTally
  rw [tally_put, hget, map_some, getD_some, if_pos hin]
  simp

/-- The sums after an object of the operation is put in. -/
lemma operationTally_add (hget : objects.get? id = none) (hin : o.InOperation operation) :
    operationTally f (objects.put id (some o)) operation =
      operationTally f objects operation + f o := by
  unfold operationTally
  rw [tally_put, hget, map_some, getD_some, if_pos hin]
  simp

/-- The sums after rows outside the operation are written. -/
lemma operationTally_put_of_not {row : Option ObjectRow}
    (hold : ∀ o, objects.get? id = some o → ¬ o.InOperation operation)
    (hnew : ∀ o, row = some o → ¬ o.InOperation operation) :
    operationTally f (objects.put id row) operation = operationTally f objects operation := by
  have hzero : ∀ row : Option ObjectRow, (∀ o, row = some o → ¬ o.InOperation operation) →
      (row.map fun o => if o.InOperation operation then f o else 0).getD 0 = 0 := by
    intro row hrow
    cases row with
    | none => rfl
    | some o => exact if_neg (hrow o rfl)
  unfold operationTally
  rw [tally_put, hzero _ hold, hzero _ hnew]
  omega

/-- A sum of amounts that are not negative is not negative. -/
lemma operationTally_nonneg (hf : ∀ o, 0 ≤ f o) (objects : FinMap Id ObjectRow) (operation : Id) :
    0 ≤ operationTally f objects operation := by
  refine tally_nonneg fun _ o => ?_
  split_ifs
  · exact hf o
  · exact le_rfl

/-- The amount of an object is at most the sum. -/
lemma le_operationTally (hf : ∀ o, 0 ≤ f o) (hget : objects.get? id = some o)
    (hin : o.InOperation operation) : f o ≤ operationTally f objects operation := by
  have hremove := operationTally_remove (f := f) hget hin
  have hrest := operationTally_nonneg hf (objects.put id none) operation
  omega

/-- An operation that has no object has none in a row. -/
lemma not_inOperation (hcount : operationCount objects operation = 0)
    (hget : objects.get? id = some o) : ¬ o.InOperation operation := by
  intro hin
  have hle := le_operationTally (f := fun _ => 1) (fun _ => by omega) hget hin
  have : (1 : ℤ) ≤ 0 := hcount ▸ hle
  omega

/-- The sums of an operation without objects. -/
lemma operationTally_eq_zero (hcount : operationCount objects operation = 0)
    (f : ObjectRow → ℤ) : operationTally f objects operation = 0 := by
  refine Finset.sum_eq_zero fun j _ => ?_
  cases hj : objects.get? j with
  | none => rw [contribution_of_none hj]
  | some o' =>
    rw [contribution_of_some hj]
    exact if_neg (not_inOperation hcount hj)

/-- An indicator is zero or one. -/
lemma indicator_nonneg (p : Prop) [Decidable p] : 0 ≤ indicator p := by
  unfold indicator
  split_ifs <;> omega

end OperationTally

namespace OperationStorage.Sums

variable {s : OperationStorage} {objects : FinMap Id ObjectRow} {operation id : Id} {o : ObjectRow}

/-- The sums of an operation are not negative. -/
lemma nonneg (h : s.Sums objects operation) :
    0 ≤ s.logical ∧ 0 ≤ s.objects ∧ 0 ≤ s.unsealed ∧ 0 ≤ s.floor := by
  refine ⟨?_, ?_, ?_, h.floor_nonneg⟩
  · rw [h.logical]
    exact operationTally_nonneg (fun o => by omega) _ _
  · rw [h.count]
    exact operationTally_nonneg (fun o => by omega) _ _
  · rw [h.unsealed]
    exact operationTally_nonneg (fun o => indicator_nonneg _) _ _

/-- Without unsealed objects every floor is zero. -/
lemma floor_eq_zero (hunsealed : operationUnsealed objects operation = 0)
    (hget : objects.get? id = some o) (hin : o.InOperation operation) : o.accountingFloor = 0 := by
  have hle := le_operationTally (f := fun o => indicator (o.accountingFloor > 0))
    (fun o => indicator_nonneg _) hget hin
  have hzero : indicator (o.accountingFloor > 0) ≤ 0 := hunsealed ▸ hle
  unfold indicator at hzero
  split_ifs at hzero with hpos
  · omega
  · omega

/-- Taking an object out of the storage of its operation. -/
lemma remove (h : s.Sums objects operation) (hget : objects.get? id = some o)
    (hin : o.InOperation operation) :
    Sums
      { logical := s.logical - o.logicalBytes
        objects := s.objects - 1
        unsealed := s.unsealed - indicator (o.accountingFloor > 0)
        floor := if s.unsealed - indicator (o.accountingFloor > 0) = 0 then 0 else s.floor }
      (objects.put id none) operation := by
  have hunsealed : operationUnsealed (objects.put id none) operation =
      s.unsealed - indicator (o.accountingFloor > 0) := by
    rw [h.unsealed]
    exact operationTally_remove hget hin
  have hrest : ∀ j o', (objects.put id none).get? j = some o' → objects.get? j = some o' := by
    intro j o' hj
    rw [get?_put] at hj
    split_ifs at hj
    exact hj
  refine ⟨?_, ?_, hunsealed.symm, ?_, ?_, ?_⟩
  · simp only [h.logical]
    exact (operationTally_remove hget hin).symm
  · simp only [h.count]
    exact (operationTally_remove hget hin).symm
  · intro j o' hj hin'
    simp only
    split_ifs with hzero
    · rw [← hunsealed] at hzero
      have := floor_eq_zero hzero hj hin'
      omega
    · exact h.floor_le j o' (hrest j o' hj) hin'
  · simp only
    split_ifs
    · exact le_rfl
    · exact h.floor_nonneg
  · intro hzero
    simp only
    rw [hunsealed] at hzero
    exact if_pos hzero

/-- Adding an object to the storage of its operation. -/
lemma add (h : s.Sums objects operation) (hget : objects.get? id = none)
    (hin : o.InOperation operation) :
    Sums
      { logical := s.logical + o.logicalBytes
        objects := s.objects + 1
        unsealed := s.unsealed + indicator (o.accountingFloor > 0)
        floor := max s.floor o.accountingFloor }
      (objects.put id (some o)) operation := by
  have hunsealed : operationUnsealed (objects.put id (some o)) operation =
      s.unsealed + indicator (o.accountingFloor > 0) := by
    rw [h.unsealed]
    exact operationTally_add hget hin
  refine ⟨?_, ?_, hunsealed.symm, ?_, ?_, ?_⟩
  · simp only [h.logical]
    exact (operationTally_add hget hin).symm
  · simp only [h.count]
    exact (operationTally_add hget hin).symm
  · intro j o' hj hin'
    rw [get?_put] at hj
    split_ifs at hj with hji
    · cases hj
      exact le_max_right _ _
    · exact (h.floor_le j o' hj hin').trans (le_max_left _ _)
  · exact h.floor_nonneg.trans (le_max_left _ _)
  · intro hzero
    rw [hunsealed] at hzero
    have hnonneg := h.nonneg.2.2.1
    have hindicator := indicator_nonneg (o.accountingFloor > 0)
    have hfloor : s.floor = 0 := by
      refine h.floor_zero ?_
      rw [← h.unsealed]
      omega
    have hzero' : indicator (o.accountingFloor > 0) = 0 := by omega
    unfold indicator at hzero'
    simp only [hfloor]
    split_ifs at hzero' <;> omega

/-- The storage of the first object of an operation. -/
lemma first (hcount : operationCount objects operation = 0) (hget : objects.get? id = none)
    (hin : o.InOperation operation) :
    Sums
      { logical := o.logicalBytes
        objects := 1
        unsealed := indicator (o.accountingFloor > 0)
        floor := o.accountingFloor }
      (objects.put id (some o)) operation := by
  -- an operation without objects has the empty sums
  have hempty := operationTally_eq_zero hcount
  have hsums : Sums ⟨0, 0, 0, 0⟩ objects operation :=
    ⟨(hempty _).symm, (hempty _).symm, (hempty _).symm,
      fun j o' hj hin' => absurd hin' (not_inOperation hcount hj), le_rfl, fun _ => rfl⟩
  have hadd := hsums.add hget hin
  simpa using hadd

/-- Rows outside the operation may be written. -/
lemma put_of_not (h : s.Sums objects operation) {row : Option ObjectRow}
    (hold : ∀ o, objects.get? id = some o → ¬ o.InOperation operation)
    (hnew : ∀ o, row = some o → ¬ o.InOperation operation) :
    s.Sums (objects.put id row) operation := by
  refine ⟨?_, ?_, ?_, ?_, h.floor_nonneg, fun hzero => h.floor_zero ?_⟩
  · rw [h.logical]
    exact (operationTally_put_of_not hold hnew).symm
  · rw [h.count]
    exact (operationTally_put_of_not hold hnew).symm
  · rw [h.unsealed]
    exact (operationTally_put_of_not hold hnew).symm
  · intro j o' hj hin'
    rw [get?_put] at hj
    split_ifs at hj
    · exact absurd hin' (hnew o' hj)
    · exact h.floor_le j o' hj hin'
  · rw [← hzero]
    exact (operationTally_put_of_not hold hnew).symm

end OperationStorage.Sums

/-! ## The triggers that keep the storage -/

namespace StorageMatches

variable {storage : FinMap Id OperationStorage} {objects : FinMap Id ObjectRow} {id : Id}

/-- The stored sums are not negative. -/
lemma logical_nonneg (h : StorageMatches storage objects) {operation : Id}
    {s : OperationStorage} (hget : storage.get? operation = some s) : 0 ≤ s.logical := by
  have hs := h operation
  rw [hget] at hs
  exact hs.1.nonneg.1

variable {row : Option ObjectRow} {operation : Id}

/-- The storage of an operation stays that of its objects while the rows of others are written. -/
lemma keeps (h : StorageMatches storage objects) {k : Id}
    (hold : ∀ o, objects.get? id = some o → ¬ o.InOperation k)
    (hnew : ∀ o, row = some o → ¬ o.InOperation k) :
    match storage.get? k with
    | none => operationCount (objects.put id row) k = 0
    | some s => s.Sums (objects.put id row) k ∧ 0 < operationCount (objects.put id row) k := by
  have hkeep := h k
  cases hs : storage.get? k with
  | none =>
    rw [hs] at hkeep
    exact (operationTally_put_of_not hold hnew).trans hkeep
  | some s =>
    rw [hs] at hkeep
    exact ⟨hkeep.1.put_of_not hold hnew,
      hkeep.2.trans_eq (operationTally_put_of_not hold hnew).symm⟩

/-- One operation changes: its own storage matches, and the rows written are in no other one. -/
lemma put (h : StorageMatches storage objects)
    {new : Option OperationStorage}
    (hself : match new with
      | none => operationCount (objects.put id row) operation = 0
      | some s => s.Sums (objects.put id row) operation ∧
        0 < operationCount (objects.put id row) operation)
    (hold : ∀ o k, k ≠ operation → objects.get? id = some o → ¬ o.InOperation k)
    (hnew : ∀ o k, k ≠ operation → row = some o → ¬ o.InOperation k) :
    StorageMatches (storage.put operation new) (objects.put id row) := by
  intro k
  by_cases hk : k = operation
  · rw [hk, get?_put_self]
    exact hself
  · rw [get?_put_of_ne _ hk]
    exact h.keeps (fun o => hold o k hk) fun o => hnew o k hk

/-- Rows outside every operation may be written. -/
lemma put_of_not (h : StorageMatches storage objects)
    (hold : ∀ o k, objects.get? id = some o → ¬ o.InOperation k)
    (hnew : ∀ o k, row = some o → ¬ o.InOperation k) :
    StorageMatches storage (objects.put id row) :=
  fun k => h.keeps (fun o => hold o k) fun o => hnew o k

end StorageMatches

namespace Catalog

variable {c : Catalog} {id operation : Id} {objects : FinMap Id ObjectRow} {o : ObjectRow}

/-- The counters are right, operations are unique, and the storage is that of the given objects:
those of before, while a trigger is at work. -/
structure Working (c : Catalog) (objects : FinMap Id ObjectRow) : Prop where
  /-- The counters are right. -/
  tallied : c.Tallied
  /-- Operations are unique. -/
  unique : c.tables.UniqueOperations
  /-- The storage is that of the objects. -/
  storage : StorageMatches c.tables.operationStorage objects

/-- At most the storage of operations differs between two catalogs. -/
def SameObjects (c c' : Catalog) : Prop :=
  ∃ storage, c'.tables = { c.tables with operationStorage := storage }

/-- A catalog has its own objects. -/
lemma SameObjects.refl (c : Catalog) : c.SameObjects c := ⟨c.tables.operationStorage, rfl⟩

/-- Two steps that keep the objects. -/
lemma SameObjects.trans {c₁ c₂ c₃ : Catalog} (h₁ : c₁.SameObjects c₂)
    (h₂ : c₂.SameObjects c₃) : c₁.SameObjects c₃ := by
  obtain ⟨s₁, h₁⟩ := h₁
  obtain ⟨s₂, h₂⟩ := h₂
  exact ⟨s₂, by rw [h₂, h₁]⟩

/-- Writing a row of `operation_storage`. -/
lemma Tallied.putStorage (h : c.Tallied) (hunique : c.tables.UniqueOperations)
    {new : Option OperationStorage}
    (hold : ∀ s, c.tables.operationStorage.get? operation = some s → 0 ≤ s.logical)
    (hnew : ∀ s, new = some s → 0 ≤ s.logical ∧ 0 ≤ s.objects ∧ 0 ≤ s.unsealed ∧ 0 ≤ s.floor) :
    Executes (c.putStorage operation new) fun c' => c'.Tallied ∧
      c'.tables = { c.tables with
        operationStorage := c.tables.operationStorage.put operation new } := by
  unfold Catalog.putStorage
  have hcheck : (new.any fun s => s.logical < 0 || s.objects < 0 || s.unsealed < 0 || s.floor < 0) =
      false := by
    cases new with
    | none => rfl
    | some s =>
      obtain ⟨h₁, h₂, h₃, h₄⟩ := hnew s rfl
      simp only [any_some, Bool.or_eq_false_iff, decide_eq_false_iff_not, not_lt]
      exact ⟨⟨⟨h₁, h₂⟩, h₃⟩, h₄⟩
  rw [hcheck]
  simp only [Bool.false_eq_true, if_false]
  refine executes_recount (by decide) c.tables h (fun name => ?_) fun name hname t k row => ?_
  · have hpart : ∀ row, rowValue (fun _ => true) (storageMetric name
        { c.tables with operationStorage := c.tables.operationStorage.put operation new }
        operation) row = rowValue (fun _ => true) (storageMetric name c.tables operation) row := by
      intro row
      cases name <;> rfl
    rw [hpart, hpart]
    exact Tables.recompute_putStorage hunique operation hold (fun s hs => (hnew s hs).1) name
  · cases name <;> first | rfl | exact absurd (by decide) hname

/-- Writing the storage of an operation while a trigger is at work. -/
lemma Working.putStorage (h : c.Working objects) {new : Option OperationStorage}
    (hnew : ∀ s, new = some s → 0 ≤ s.logical ∧ 0 ≤ s.objects ∧ 0 ≤ s.unsealed ∧ 0 ≤ s.floor) :
    Executes (c.putStorage operation new) fun c' => c'.Tallied ∧ c'.tables.UniqueOperations ∧
      c'.tables.operationStorage = c.tables.operationStorage.put operation new ∧
      c.SameObjects c' := by
  refine (h.tallied.putStorage h.unique (fun s hs => h.storage.logical_nonneg hs) hnew).mono ?_
  rintro c' ⟨htallied, htables⟩
  rw [htables]
  exact ⟨htallied, h.unique, rfl, ⟨_, htables⟩⟩

/-- An object that is in no operation can be taken out or put in without the storage. -/
lemma Working.put_of_not (h : c.Working objects) {row : Option ObjectRow}
    (hold : ∀ o k, objects.get? id = some o → ¬ o.InOperation k)
    (hnew : ∀ o k, row = some o → ¬ o.InOperation k) : c.Working (objects.put id row) :=
  ⟨h.tallied, h.unique, h.storage.put_of_not hold hnew⟩

/-- **Taking an object out of the storage of its operation.** -/
theorem Working.removeOperation (h : c.Working objects) (hget : objects.get? id = some o) :
    Executes (c.removeOperation o) fun c' =>
      c'.Working (objects.put id none) ∧ c.SameObjects c' := by
  have hnone : ∀ (o' : ObjectRow) (k : Id), (none : Option ObjectRow) = some o' →
      ¬ o'.InOperation k := fun _ _ hn => nomatch hn
  unfold Catalog.removeOperation
  cases hop : o.operation with
  | none =>
    refine ⟨h.put_of_not (fun o' k ho' hin => ?_) hnone, SameObjects.refl c⟩
    rw [hget, some.injEq] at ho'
    rw [← ho'] at hin
    rw [hin.2] at hop
    cases hop
  | some operation =>
    simp only [subtractOperation]
    by_cases hremoved : o.state = .removed
    · -- a removed object is in no storage, and a storage with objects is not dropped
      rw [if_pos hremoved]
      have hkeep : c.Working (objects.put id none) := by
        refine h.put_of_not (fun o' k ho' hin => ?_) hnone
        rw [hget, some.injEq] at ho'
        exact hin.1 (ho' ▸ hremoved)
      show Executes (c.dropOperation operation) _
      unfold dropOperation
      cases hs : c.tables.operationStorage.get? operation with
      | none => exact ⟨hkeep, SameObjects.refl c⟩
      | some s =>
        have hmatch := h.storage operation
        rw [hs] at hmatch
        have hpos : s.objects ≠ 0 := by
          rw [hmatch.1.count]
          exact hmatch.2.ne'
        simp only [if_neg hpos]
        exact ⟨hkeep, SameObjects.refl c⟩
    · rw [if_neg hremoved]
      have hin : o.InOperation operation := ⟨hremoved, hop⟩
      have hmatch := h.storage operation
      cases hs : c.tables.operationStorage.get? operation with
      | none =>
        -- the operation has this object, so it has a storage
        rw [hs] at hmatch
        have hle := le_operationTally (f := fun _ => 1) (fun _ => by omega) hget hin
        have : (1 : ℤ) ≤ 0 := hmatch ▸ hle
        omega
      | some s =>
        rw [hs] at hmatch
        simp only
        have hsums := hmatch.1.remove hget hin
        have hcount : operationCount (objects.put id none) operation = s.objects - 1 :=
          hsums.count.symm
        refine (h.putStorage fun s' hs' => ?_).bind ?_
        · cases hs'
          exact hsums.nonneg
        rintro c₁ ⟨htallied, hunique, hstorage, hsame⟩
        have hself : ∀ o' k, k ≠ operation → objects.get? id = some o' → ¬ o'.InOperation k := by
          intro o' k hk ho' hin'
          rw [hget, some.injEq] at ho'
          rw [← ho'] at hin'
          rw [hin'.2, some.injEq] at hop
          exact hk hop
        have hnone' := fun o' k (_ : k ≠ operation) => hnone o' k
        unfold dropOperation
        rw [hstorage, get?_put_self]
        simp only
        by_cases hzero : s.objects - 1 = 0
        · -- no object is left: the storage is dropped
          rw [if_pos hzero]
          have hold : ∀ s', c₁.tables.operationStorage.get? operation = some s' →
              0 ≤ s'.logical := by
            intro s' hs'
            rw [hstorage, get?_put_self, some.injEq] at hs'
            rw [← hs']
            exact hsums.nonneg.1
          refine (htallied.putStorage hunique hold fun s' hs' => absurd hs' (by simp)).mono ?_
          rintro c₂ ⟨htallied₂, htables₂⟩
          refine ⟨⟨htallied₂, ?_, ?_⟩, hsame.trans ⟨_, htables₂⟩⟩
          · rw [htables₂]
            exact hunique
          · rw [htables₂, hstorage]
            simp only [put_put]
            exact h.storage.put (hcount.trans hzero) hself hnone'
        · rw [if_neg hzero]
          refine ⟨⟨htallied, hunique, ?_⟩, hsame⟩
          rw [hstorage]
          refine h.storage.put ⟨hsums, ?_⟩ hself hnone'
          have hnonneg := hsums.nonneg.2.1
          simp only at hnonneg
          omega

/-- **Adding an object to the storage of its operation.** -/
theorem Working.addOperation (h : c.Working objects) (hget : objects.get? id = none) :
    Executes (c.addOperation o) fun c' =>
      c'.Working (objects.put id (some o)) ∧ c.SameObjects c' := by
  have hnone : ∀ o' k, objects.get? id = some o' → ¬ o'.InOperation k := by
    intro o' k ho'
    rw [hget] at ho'
    cases ho'
  unfold Catalog.addOperation
  cases hop : o.operation with
  | none =>
    refine ⟨h.put_of_not hnone fun o' k ho' hin => ?_, SameObjects.refl c⟩
    cases ho'
    rw [hin.2] at hop
    cases hop
  | some operation =>
    simp only
    by_cases hremoved : o.state = .removed
    · rw [if_pos hremoved]
      refine ⟨h.put_of_not hnone fun o' k ho' hin => ?_, SameObjects.refl c⟩
      cases ho'
      exact hin.1 hremoved
    · rw [if_neg hremoved]
      have hin : o.InOperation operation := ⟨hremoved, hop⟩
      have hself : ∀ o' k, k ≠ operation → some o = some o' → ¬ o'.InOperation k := by
        intro o' k hk ho' hin'
        cases ho'
        rw [hin'.2, some.injEq] at hop
        exact hk hop
      have hnone' := fun o' k (_ : k ≠ operation) => hnone o' k
      have hmatch := h.storage operation
      have hpos : 0 < operationCount (objects.put id (some o)) operation := by
        have hadd : operationCount (objects.put id (some o)) operation =
            operationCount objects operation + 1 := operationTally_add hget hin
        have hnonneg : 0 ≤ operationCount objects operation :=
          operationTally_nonneg (fun _ => by omega) _ _
        omega
      have hkeeps : ∀ {s : OperationStorage}, s.Sums (objects.put id (some o)) operation →
          Executes (c.putStorage operation (some s)) fun c' =>
            c'.Working (objects.put id (some o)) ∧ c.SameObjects c' := by
        intro s hsums
        refine (h.putStorage fun s' hs' => ?_).mono ?_
        · cases hs'
          exact hsums.nonneg
        rintro c₁ ⟨htallied, hunique, hstorage, hsame⟩
        refine ⟨⟨htallied, hunique, ?_⟩, hsame⟩
        rw [hstorage]
        exact h.storage.put ⟨hsums, hpos⟩ hnone' hself
      cases hs : c.tables.operationStorage.get? operation with
      | none =>
        rw [hs] at hmatch
        exact hkeeps (OperationStorage.Sums.first hmatch hget hin)
      | some s =>
        rw [hs] at hmatch
        exact hkeeps (hmatch.1.add hget hin)

/-! ## Statements -/

/-- The invariant of the catalog: the counters are right, operations are unique, and the storage of
operations is that of the objects. -/
def Consistent (c : Catalog) : Prop := c.Working c.tables.objects

/-- The storage of two catalogs that agree otherwise. -/
lemma SameObjects.tables_objects {c c' : Catalog} (h : c.SameObjects c') :
    c'.tables.objects = c.tables.objects := by
  obtain ⟨storage, hs⟩ := h
  rw [hs]

/-- A row that does not fire a trigger counts nothing before and after. -/
lemma rowValue_of_not_fires {ρ : Type} {condition : ρ → Bool} {old new : Option ρ}
    (h : ¬ fires condition old new = true) :
    (∀ metric, rowValue condition metric old = 0) ∧ ∀ metric, rowValue condition metric new = 0 := by
  have hzero : ∀ row : Option ρ, row.any condition = false → ∀ metric,
      rowValue condition metric row = 0 := by
    intro row hrow metric
    cases row with
    | none => rfl
    | some r =>
      rw [any_some] at hrow
      simp [rowValue, hrow]
  unfold fires at h
  rw [Bool.not_eq_true, Bool.or_eq_false_iff] at h
  exact ⟨hzero _ h.1, hzero _ h.2⟩

/-- Writing a row of `objects`. -/
lemma Consistent.putObject (h : c.Consistent) (new : Option ObjectRow) :
    Executes (c.putObject id new) Consistent := by
  set c₀ : Catalog := { c with tables.objects := c.tables.objects.put id new } with hc₀
  have hchange := fun name => Tables.recompute_putObject c.tables id new name
  have hmetric : ∀ name row, rowValue objectCounts (objectMetric name c₀.tables id) row =
      rowValue objectCounts (objectMetric name c.tables id) row := by
    intro name row
    cases name <;> rfl
  show Executes (if fires objectCounts (c.tables.objects.get? id) new then
    objectTrigger id (c.tables.objects.get? id) new c₀ else .ok c₀) Consistent
  split_ifs with hfires
  · unfold objectTrigger
    have hcounters : Executes (counterTriggers objectTotals objectMetric objectCounts id
        (c.tables.objects.get? id) new c₀) fun c' => c'.Tallied ∧ c'.tables = c₀.tables := by
      refine executes_recount (by decide) c.tables h.tallied (fun name => ?_)
        fun name hname t k row => ?_
      · rw [hmetric, hmetric]
        exact hchange name
      · cases name <;> first | rfl | exact absurd (by decide) hname
    refine hcounters.bind ?_
    rintro c₁ ⟨htallied, htables⟩
    have hworking : c₁.Working c.tables.objects := by
      refine ⟨htallied, ?_, ?_⟩
      · rw [htables]
        exact h.unique
      · rw [htables]
        exact h.storage
    have hobjects₁ : c₁.tables.objects = c.tables.objects.put id new := by rw [htables]
    -- the old row leaves its operation, then the new one enters its own
    have hremove : Executes ((c.tables.objects.get? id).elim (.ok c₁) c₁.removeOperation)
        fun c' => c'.Working (c.tables.objects.put id none) ∧ c₁.SameObjects c' := by
      cases hget : c.tables.objects.get? id with
      | none =>
        have hsame : c.tables.objects.put id none = c.tables.objects := by
          rw [← hget, put_get?]
        rw [hsame]
        exact ⟨hworking, SameObjects.refl c₁⟩
      | some old => exact hworking.removeOperation hget
    refine hremove.bind ?_
    rintro c₂ ⟨hworking₂, hsame₂⟩
    have hobjects₂ : c₂.tables.objects = c.tables.objects.put id new :=
      hsame₂.tables_objects.trans hobjects₁
    cases new with
    | none =>
      show c₂.Working c₂.tables.objects
      rw [hobjects₂]
      exact hworking₂
    | some o =>
      refine (hworking₂.addOperation (get?_put_self _ _ _)).mono ?_
      rintro c₃ ⟨hworking₃, hsame₃⟩
      rw [put_put] at hworking₃
      show c₃.Working c₃.tables.objects
      rw [hsame₃.tables_objects, hobjects₂]
      exact hworking₃
  · -- the row is removed before and after, so it counts nowhere
    obtain ⟨hold, hnew⟩ := rowValue_of_not_fires hfires
    have hremoved : ∀ row : Option ObjectRow, row.any objectCounts = false →
        ∀ o k, row = some o → ¬ o.InOperation k := by
      rintro row hrow o k rfl hin
      rw [any_some, objectCounts, decide_eq_false_iff_not, not_not] at hrow
      exact hin.1 hrow
    unfold fires at hfires
    rw [Bool.not_eq_true, Bool.or_eq_false_iff] at hfires
    refine ⟨fun name => ?_, h.unique,
      h.storage.put_of_not (hremoved _ hfires.1) (hremoved _ hfires.2)⟩
    show c.totals name = c₀.tables.recompute name
    have hname : c₀.tables.recompute name = _ := hchange name
    rw [h.tallied name, hname, hold, hnew]
    omega

/-- **A trigger that only counts** keeps the invariant, when the recomputed values have changed by
what the row counts. -/
lemma Consistent.counted {ρ : Type} {names : List Total} {metric : Total → Tables → Id → ρ → ℤ}
    {condition : ρ → Bool} {key : Id} {old new : Option ρ} {t : Tables} (h : c.Consistent)
    (hnodup : names.Nodup) (hunique : t.UniqueOperations)
    (hstorage : StorageMatches t.operationStorage t.objects)
    (hmetric : ∀ name row, rowValue condition (metric name t key) row =
      rowValue condition (metric name c.tables key) row)
    (hchange : ∀ name, t.recompute name = c.tables.recompute name -
      rowValue condition (metric name c.tables key) old +
      rowValue condition (metric name c.tables key) new)
    (hout : ∀ name, name ∉ names → ∀ t id row, metric name t id row = 0) :
    Executes (if fires condition old new then
      counterTriggers names metric condition key old new { c with tables := t }
        else .ok { c with tables := t }) Consistent := by
  split_ifs with hfires
  · refine Executes.mono (executes_recount hnodup c.tables h.tallied (fun name => ?_) hout) ?_
    · rw [hmetric, hmetric]
      exact hchange name
    · rintro c' ⟨htallied, htables⟩
      refine ⟨htallied, ?_, ?_⟩ <;> rw [htables]
      · exact hunique
      · exact hstorage
  · obtain ⟨hold, hnew⟩ := rowValue_of_not_fires hfires
    refine ⟨fun name => ?_, hunique, hstorage⟩
    show c.totals name = t.recompute name
    rw [h.tallied name, hchange name, hold, hnew]
    omega

/-- Writing a row of `control_files`. -/
lemma Consistent.putControlFile (h : c.Consistent) (new : Option ControlFileRow) :
    Executes (c.putControlFile id new) Consistent := by
  unfold Catalog.putControlFile
  refine h.counted (by decide) h.unique h.storage (fun name row => ?_)
    (Tables.recompute_putControlFile c.tables id new) fun name hname t k row => ?_
  · cases name <;> rfl
  · cases name <;> first | rfl | exact absurd (by decide) hname

/-- Writing a row of `records`. -/
lemma Consistent.putRecord (h : c.Consistent) (new : Option RecordRow) :
    Executes (c.putRecord id new) Consistent := by
  unfold Catalog.putRecord
  refine h.counted (by decide) h.unique h.storage (fun name row => ?_)
    (Tables.recompute_putRecord c.tables id new) fun name hname t k row => ?_
  · cases name <;> rfl
  · cases name <;> first | rfl | exact absurd (by decide) hname

/-- The unique index: no other row has the operation. -/
lemma operationTaken_eq_false {new : Option ReservationRow}
    (h : c.operationTaken id new = false) : ∀ r, new = some r → ∀ j r', j ≠ id →
      c.tables.reservations.get? j = some r' → r'.operation ≠ r.operation := by
  rintro r rfl j r' hj hget heq
  unfold operationTaken at h
  rw [any_some, decide_eq_false_iff_not] at h
  exact h ⟨j, mem_keys_of_get? hget, hj, by rw [hget, map_some, heq]⟩

/-- Writing a row of `reservations`. -/
lemma Consistent.putReservation (h : c.Consistent) (new : Option ReservationRow) :
    Executes (c.putReservation id new) Consistent := by
  unfold Catalog.putReservation
  split_ifs with htaken
  · exact fun heq => nomatch heq
  · have hfree := operationTaken_eq_false (Bool.not_eq_true _ ▸ htaken)
    set c₀ : Catalog := { c with tables.reservations := c.tables.reservations.put id new } with hc₀
    have hmetric : ∀ name row, rowValue (fun _ => true) (reservationMetric name c₀.tables id) row =
        rowValue (fun _ => true) (reservationMetric name c.tables id) row := by
      intro name row
      cases name <;> rfl
    refine Executes.mono (executes_recount (by decide) c.tables h.tallied (fun name => ?_)
      fun name hname t k row => ?_) ?_
    · rw [hmetric, hmetric]
      exact Tables.recompute_putReservation h.unique id new hfree name
    · cases name <;> first | rfl | exact absurd (by decide) hname
    · rintro c' ⟨htallied, htables⟩
      refine ⟨htallied, ?_, ?_⟩ <;> rw [htables]
      · intro i j r r' hi hj heq
        simp only [hc₀, get?_put] at hi hj
        split_ifs at hi hj with hi' hj' hj'
        · rw [hi', hj']
        · exact absurd heq.symm (hfree r hi j r' hj' hj)
        · exact absurd heq (hfree r' hj i r hi' hi)
        · exact h.unique i j r r' hi hj heq
      · exact h.storage

/-- Writing a row of `refs`. -/
lemma Consistent.putReference (h : c.Consistent) (new : Option Id) :
    Executes (c.putReference id new) Consistent := by
  set c₀ : Catalog := { c with tables.refs := c.tables.refs.put id new } with hc₀
  set t₁ : Tables := { c.tables with refs := c.tables.refs.put id none } with ht₁
  -- a trigger that moves the protected bytes to the new tally
  have hdone : ∀ old now, (∀ name, c₀.tables.recompute name = c.tables.recompute name -
        (if name = .objectProtected then old else 0) +
        (if name = .objectProtected then now else 0)) →
      Executes (c₀.bump .objectProtected old now) Consistent := by
    intro old now hchange
    have hself := hchange .objectProtected
    rw [if_pos rfl, if_pos rfl, ← h.tallied] at hself
    refine (executes_bump c₀ .objectProtected ?_).mono ?_
    · show 0 ≤ c.totals .objectProtected - old + now
      rw [← hself]
      exact Tables.recompute_nonneg _ _
    · rintro c' rfl
      refine ⟨fun name => ?_, h.unique, h.storage⟩
      show Function.update c.totals .objectProtected (c.totals .objectProtected - old + now) name =
        c₀.tables.recompute name
      by_cases hname : name = .objectProtected
      · rw [hname, Function.update_self, hself]
      · rw [Function.update_of_ne hname, hchange name, if_neg hname, if_neg hname, h.tallied]
        omega
  have hkeep : (∀ name, c₀.tables.recompute name = c.tables.recompute name) → c₀.Consistent :=
    fun hchange => ⟨fun name => (h.tallied name).trans (hchange name).symm, h.unique, h.storage⟩
  -- the counters after the row, through the table without it
  have hother : ∀ target, c₀.tables.referencedByOther target id = t₁.referenced target :=
    fun target => Bool.eq_iff_iff.mpr (Tables.referencedByOther_iff id new)
  have hnone : t₁.refs.get? id = none := get?_put_self _ _ _
  have hinsert : ∀ target, new = some target → ∀ name,
      c₀.tables.recompute name = t₁.recompute name +
        (if name = .objectProtected ∧ t₁.referenced target = false then
          c.tables.liveBytes target else 0) := by
    intro target hnew name
    have hput : c₀.tables = { t₁ with refs := t₁.refs.put id (some target) } := by
      rw [hc₀, ht₁, hnew]
      simp only [put_put]
    rw [hput]
    exact Tables.recompute_insertReference t₁ hnone target name
  have hdelete : ∀ target, c.tables.refs.get? id = some target → ∀ name,
      t₁.recompute name = c.tables.recompute name -
        (if name = .objectProtected ∧ t₁.referenced target = false then
          c.tables.liveBytes target else 0) :=
    fun target hget name => Tables.recompute_deleteReference hget name
  show Executes (referenceTrigger id (c.tables.refs.get? id) new c₀) Consistent
  cases hold : c.tables.refs.get? id with
  | none =>
    have hsame : t₁ = c.tables := by
      rw [ht₁, ← hold, put_get?]
    cases hnew : new with
    | none =>
      refine hkeep fun name => ?_
      have hput : c₀.tables = t₁ := by rw [hc₀, hnew]
      rw [hput, hsame]
    | some target =>
      have hafter := hinsert target hnew
      rw [hsame] at hafter
      simp only [referenceTrigger, hother, hsame]
      cases hreferenced : c.tables.referenced target with
      | true =>
        refine hkeep fun name => ?_
        rw [hafter, hreferenced]
        simp
      | false =>
        refine hdone _ _ fun name => ?_
        rw [hafter, hreferenced]
        simp only [and_true, ite_self, sub_zero]
        rfl
  | some before =>
    have hgone := hdelete before hold
    cases hnew : new with
    | none =>
      have hput : c₀.tables = t₁ := by rw [hc₀, hnew]
      simp only [referenceTrigger]
      rw [hput]
      cases hreferenced : t₁.referenced before with
      | true =>
        refine hkeep fun name => ?_
        rw [hput, hgone, hreferenced]
        simp
      | false =>
        refine hdone _ _ fun name => ?_
        rw [hput, hgone, hreferenced]
        simp only [and_true, ite_self, add_zero]
        rfl
    | some after =>
      have hafter := hinsert after hnew
      simp only [referenceTrigger, hother]
      by_cases hsame : after = before
      · -- nothing changes
        rw [if_pos hsame]
        refine hkeep fun name => ?_
        rw [hafter, hgone, hsame]
        omega
      · -- the row names another object, so the old one is referenced as without the row
        have hbefore : c₀.tables.referenced before = t₁.referenced before := by
          have hput : c₀.tables = { t₁ with refs := t₁.refs.put id (some after) } := by
            rw [hc₀, ht₁, hnew]
            simp only [put_put]
          rw [hput]
          refine Tables.referenced_putReference ?_ ?_
          · rw [hnone]
            exact (some_ne_none _).symm
          · rw [Ne, some.injEq]
            exact hsame
        rw [if_neg hsame, hbefore]
        refine hdone _ _ fun name => ?_
        rw [hafter, hgone]
        have hlive : ∀ target, c₀.tables.liveBytes target = c.tables.liveBytes target :=
          fun _ => rfl
        rw [hlive, hlive]
        by_cases hname : name = .objectProtected
        · cases t₁.referenced before <;> cases t₁.referenced after <;> simp [hname]
        · simp [hname]

end Catalog

end Tgrep.Managed
