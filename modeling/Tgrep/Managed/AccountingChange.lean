import Tgrep.Managed.Accounting

/-!
# How the counters change with the tables

Every counter is a tally over the rows of the tables. The tally of two counters speaks of two
tables at once: what a reservation has not consumed depends on the storage of its operation, and
what an operation may still come to on whether it is reserved. The trigger of each table moves
the counter by its own part of the change.

## Main definitions

* `Executes`: a statement is not refused because a column would be negative, and leaves a catalog
  with a property behind otherwise.
* `Tables.recompute`: the value of a counter as a tally over the tables.
* `Catalog.Tallied`: every counter has that value.

## Main results

* `Tables.recompute_putObject`, `Tables.recompute_putStorage`, `Tables.recompute_putReservation`,
  `Tables.recompute_insertReference`, … — the tallies after a row is written.
* `Catalog.executes_recount`: a trigger moves the counters to the new tallies.
-/

namespace Tgrep.Managed

open FinMap Function Option List

/-- A statement leaves a catalog with the property `P` behind, or is refused for another reason
than a negative column. -/
def Executes (result : Except Refusal Catalog) (P : Catalog → Prop) : Prop :=
  match result with
  | .ok c => P c
  | .error e => e ≠ .negative

namespace Executes

variable {result : Except Refusal Catalog} {P Q : Catalog → Prop}

/-- One computation after another. -/
lemma bind {f : Catalog → Except Refusal Catalog} (h : Executes result P)
    (hf : ∀ c, P c → Executes (f c) Q) : Executes (result >>= f) Q := by
  cases result with
  | error e => exact h
  | ok c => exact hf c h

/-- A weaker property. -/
lemma mono (h : Executes result P) (himp : ∀ c, P c → Q c) : Executes result Q := by
  cases result with
  | error e => exact h
  | ok c => exact himp c h

end Executes

/-! ## What the counters should be -/

namespace Tables

/-- The part of a counter that the rows of `objects` make up. -/
def objectPart (t : Tables) (name : Total) (id : Id) (o : ObjectRow) : ℤ :=
  if Catalog.objectCounts o then objectMetric name t id o else 0

/-- The part of a counter that the rows of `control_files` make up. -/
def controlPart (t : Tables) (name : Total) (id : Id) (f : ControlFileRow) : ℤ :=
  if !f.removed then controlMetric name t id f else 0

/-- The part of a counter that the rows of `records` make up. -/
def recordPart (t : Tables) (name : Total) (id : Id) (r : RecordRow) : ℤ :=
  if r.compatibilityGeneration then recordMetric name t id r else 0

/-- The part of a counter that the rows of `reservations` make up. What operations may still come
to is tallied over the operations instead. -/
def reservationPart (t : Tables) (name : Total) (id : Id) (r : ReservationRow) : ℤ :=
  if name = .uncertainStaging then 0 else reservationMetric name t id r

/-- The part of a counter that the rows of `operation_storage` make up. What reservations have not
consumed is tallied over the reservations instead. -/
def storagePart (t : Tables) (name : Total) (id : Id) (s : OperationStorage) : ℤ :=
  if name = .uncertainStaging then storageMetric name t id s else 0

/-- The value of a counter as a tally over the tables. -/
def recompute (t : Tables) (name : Total) : ℤ :=
  t.objects.tally (t.objectPart name) + t.controlFiles.tally (t.controlPart name) +
    t.records.tally (t.recordPart name) + t.reservations.tally (t.reservationPart name) +
    t.operationStorage.tally (t.storagePart name)

/-- No metric of a row is negative where it is tallied. -/
lemma recompute_nonneg (t : Tables) (name : Total) : 0 ≤ t.recompute name := by
  have hind : ∀ (p : Prop) [Decidable p], 0 ≤ indicator p := by
    intro p _
    unfold indicator
    split_ifs <;> omega
  have hvalue : ∀ m : Measurement, 0 ≤ m.value := by
    intro m
    cases m <;> simp [Measurement.value]
  have hmissing : ∀ m : Measurement, 0 ≤ m.missing := by
    intro m
    cases m <;> simp [Measurement.missing]
  have hobjects : 0 ≤ t.objects.tally (t.objectPart name) := by
    refine tally_nonneg fun id o => ?_
    unfold objectPart
    split_ifs
    · cases name <;> simp only [objectMetric, hind, hvalue, hmissing] <;> (try split_ifs) <;>
        omega
    · exact le_rfl
  have hcontrol : 0 ≤ t.controlFiles.tally (t.controlPart name) := by
    refine tally_nonneg fun id f => ?_
    unfold controlPart
    split_ifs
    · cases name <;> simp only [controlMetric, hvalue, hmissing] <;> omega
    · exact le_rfl
  have hrecords : 0 ≤ t.records.tally (t.recordPart name) := by
    refine tally_nonneg fun id r => ?_
    unfold recordPart
    split_ifs
    · cases name <;> simp only [recordMetric, hvalue, hmissing] <;> omega
    · exact le_rfl
  have hreservations : 0 ≤ t.reservations.tally (t.reservationPart name) := by
    refine tally_nonneg fun id r => ?_
    unfold reservationPart
    split_ifs with h
    · exact le_rfl
    · cases name <;> simp only [reservationMetric] <;> first | omega | exact absurd rfl h
  have hstorage : 0 ≤ t.operationStorage.tally (t.storagePart name) := by
    refine tally_nonneg fun id s => ?_
    unfold storagePart
    split_ifs with h
    · rw [h]
      simp only [storageMetric]
      split_ifs
      · exact le_max_left _ _
      · exact le_rfl
    · exact le_rfl
  unfold recompute
  omega

/-- No two reservations have the same operation. -/
def UniqueOperations (t : Tables) : Prop :=
  ∀ i j r r', t.reservations.get? i = some r → t.reservations.get? j = some r' →
    r.operation = r'.operation → i = j

/-- The reservation of an operation, when operations are unique. -/
lemma reservationOf_eq_some {t : Tables} (hunique : t.UniqueOperations) {operation : Id}
    {r : ReservationRow} :
    t.reservationOf operation = some r ↔
      ∃ id, t.reservations.get? id = some r ∧ r.operation = operation := by
  unfold reservationOf
  rw [map_eq_some_iff]
  constructor
  · rintro ⟨⟨id, r'⟩, hfind, rfl⟩
    refine ⟨id, mem_toList.mp (mem_of_find?_eq_some hfind), ?_⟩
    simpa using find?_some hfind
  · rintro ⟨id, hget, hop⟩
    cases hfind : t.reservations.toList.find? fun row => row.2.operation == operation with
    | none =>
      have := find?_eq_none.mp hfind (id, r) (mem_toList.mpr hget)
      simp [hop] at this
    | some row =>
      obtain ⟨j, r'⟩ := row
      have hget' := mem_toList.mp (mem_of_find?_eq_some hfind)
      have hop' : r'.operation = operation := by simpa using find?_some hfind
      have hij : id = j := hunique id j r r' hget hget' (hop.trans hop'.symm)
      rw [hij, hget', some.injEq] at hget
      exact ⟨(j, r'), rfl, hget⟩

/-- An operation has no reservation iff no row has it. -/
lemma reservationOf_eq_none {t : Tables} {operation : Id} :
    t.reservationOf operation = none ↔
      ∀ id r, t.reservations.get? id = some r → r.operation ≠ operation := by
  unfold reservationOf
  rw [map_eq_none_iff, find?_eq_none]
  constructor
  · intro h id r hget
    simpa using h (id, r) (mem_toList.mpr hget)
  · rintro h ⟨id, r⟩ hmem
    simpa using h id r (mem_toList.mp hmem)

end Tables

namespace Catalog

/-- Every counter has the recomputed value. -/
def Tallied (c : Catalog) : Prop := ∀ name, c.totals name = c.tables.recompute name

/-- One counter moves to a value that is not negative. -/
lemma executes_bump (c : Catalog) (name : Total) {old new : ℤ}
    (hnonneg : 0 ≤ c.totals name - old + new) :
    Executes (c.bump name old new) fun c' => c' =
      { c with totals := Function.update c.totals name (c.totals name - old + new) } := by
  unfold bump
  simp only
  split_ifs with hnegative hoverflow
  · exact absurd hnonneg (not_le.mpr hnegative)
  · exact fun h => nomatch h
  · rfl

variable {key : Id} {ρ : Type} {new old : Option ρ} {condition : ρ → Bool}
  {metric : Total → Tables → Id → ρ → ℤ} {c : Catalog} {names : List Total}

/-- **The counters of a trigger.** If a new value of every counter differs from the present one by
what the row counts after and before, and is not negative, the trigger moves the counters there. -/
theorem executes_counterTriggers (hnodup : names.Nodup) {target : Total → ℤ}
    (hnonneg : ∀ name, 0 ≤ target name) (hin : ∀ name ∈ names, target name = c.totals name -
      rowValue condition (metric name c.tables key) old +
      rowValue condition (metric name c.tables key) new)
    (hout : ∀ name, name ∉ names → target name = c.totals name) :
    Executes (counterTriggers names metric condition key old new c)
      fun c' => c' = { c with totals := target } := by
  unfold counterTriggers
  induction names generalizing c with
  | nil =>
    have htotals : c.totals = target := funext fun name => (hout name not_mem_nil).symm
    show c = { c with totals := target }
    rw [← htotals]
  | cons name names ih =>
    obtain ⟨hname, hnames⟩ := nodup_cons.mp hnodup
    have hself := hin name (mem_cons_self ..)
    rw [foldlM_cons]
    refine (executes_bump c name (hself ▸ hnonneg name)).bind ?_
    rintro c' rfl
    refine (ih hnames ?_ ?_).mono fun c' hc' => hc'
    · intro other hother
      have hne : other ≠ name := fun heq => hname (heq ▸ hother)
      show target other = Function.update c.totals name _ other - _ + _
      rw [update_of_ne hne]
      exact hin other (mem_cons_of_mem _ hother)
    · intro other hother
      show target other = Function.update c.totals name _ other
      by_cases heq : other = name
      · rw [heq, update_self, hself]
      · rw [update_of_ne heq]
        exact hout other fun hmem => (mem_cons.mp hmem).elim heq hother

/-- The counters of a trigger, when the recomputed values have changed by what the row counts. -/
lemma executes_recount (hnodup : names.Nodup) (before : Tables)
    (hbefore : ∀ name, c.totals name = before.recompute name)
    (hchange : ∀ name, c.tables.recompute name = before.recompute name -
      rowValue condition (metric name c.tables key) old +
      rowValue condition (metric name c.tables key) new)
    (hout : ∀ name, name ∉ names → ∀ t id row, metric name t id row = 0) :
    Executes (counterTriggers names metric condition key old new c)
      fun c' => c'.Tallied ∧ c'.tables = c.tables := by
  have hzero : ∀ name, name ∉ names → ∀ row,
      rowValue condition (metric name c.tables key) row = 0 := by
    intro name hname row
    cases row with
    | none => rfl
    | some row => simp [rowValue, hout name hname]
  refine (executes_counterTriggers hnodup c.tables.recompute_nonneg (fun name _ => ?_)
    fun name hname => ?_).mono ?_
  · rw [hchange, hbefore]
  · rw [hchange, hbefore, hzero name hname, hzero name hname]
    omega
  · rintro c' rfl
    exact ⟨fun _ => rfl, rfl⟩

end Catalog

/-! ## Tables that no other table's metrics read -/

namespace Tables

variable {t t' : Tables} {name : Total}

/-- Being referenced depends on the references. -/
lemma referenced_congr (h : t'.refs = t.refs) : t'.referenced = t.referenced := by
  funext id
  apply Bool.eq_iff_iff.mpr
  unfold referenced
  rw [decide_eq_true_iff, decide_eq_true_iff, h]

/-- The metrics of objects read the references. -/
lemma objectPart_congr (h : t'.refs = t.refs) : t'.objectPart name = t.objectPart name := by
  funext id o
  unfold objectPart
  cases name <;> simp only [objectMetric, referenced_congr h]

/-- The metrics of control files read no table. -/
lemma controlPart_congr (t t' : Tables) : t'.controlPart name = t.controlPart name := by
  funext id f
  unfold controlPart
  cases name <;> rfl

/-- The metrics of records read no table. -/
lemma recordPart_congr (t t' : Tables) : t'.recordPart name = t.recordPart name := by
  funext id r
  unfold recordPart
  cases name <;> rfl

/-- The metrics of reservations read the storage of the operations. -/
lemma reservationPart_congr (h : t'.operationStorage = t.operationStorage) :
    t'.reservationPart name = t.reservationPart name := by
  funext id r
  unfold reservationPart
  cases name <;> simp only [reservationMetric, h]

/-- The metrics of operations read the reservations. -/
lemma storagePart_congr (h : t'.reservations = t.reservations) :
    t'.storagePart name = t.storagePart name := by
  have hof : t'.reservationOf = t.reservationOf := by
    funext id
    unfold reservationOf
    rw [h]
  funext id s
  unfold storagePart
  cases name <;> simp only [storageMetric, hof]

/-- The counters when the tables that other tables' metrics read have not changed. -/
lemma recompute_frame (t t' : Tables) (name : Total) (hrefs : t'.refs = t.refs)
    (hstorage : t'.operationStorage = t.operationStorage)
    (hreservations : t'.reservations = t.reservations) :
    t'.recompute name = t'.objects.tally (t.objectPart name) +
      t'.controlFiles.tally (t.controlPart name) + t'.records.tally (t.recordPart name) +
      t.reservations.tally (t.reservationPart name) +
      t.operationStorage.tally (t.storagePart name) := by
  unfold recompute
  rw [objectPart_congr hrefs, controlPart_congr t t', recordPart_congr t t',
    reservationPart_congr hstorage, storagePart_congr hreservations, hstorage, hreservations]

/-- The counters after a row of `objects` is written. -/
lemma recompute_putObject (t : Tables) (id : Id) (new : Option ObjectRow) (name : Total) :
    { t with objects := t.objects.put id new }.recompute name = t.recompute name -
      rowValue Catalog.objectCounts (objectMetric name t id) (t.objects.get? id) +
      rowValue Catalog.objectCounts (objectMetric name t id) new := by
  have hrow : ∀ row, rowValue Catalog.objectCounts (objectMetric name t id) row =
      (row.map (t.objectPart name id)).getD 0 := fun row => by cases row <;> rfl
  have htally := tally_put (t.objectPart name) t.objects id new
  rw [recompute_frame t { t with objects := t.objects.put id new } name rfl rfl rfl, hrow, hrow,
    recompute]
  dsimp only
  omega

/-- The counters after a row of `control_files` is written. -/
lemma recompute_putControlFile (t : Tables) (id : Id) (new : Option ControlFileRow) (name : Total) :
    { t with controlFiles := t.controlFiles.put id new }.recompute name = t.recompute name -
      rowValue (fun f => !f.removed) (controlMetric name t id) (t.controlFiles.get? id) +
      rowValue (fun f => !f.removed) (controlMetric name t id) new := by
  have hrow : ∀ row, rowValue (fun f => !f.removed) (controlMetric name t id) row =
      (row.map (t.controlPart name id)).getD 0 := fun row => by cases row <;> rfl
  have htally := tally_put (t.controlPart name) t.controlFiles id new
  rw [recompute_frame t { t with controlFiles := t.controlFiles.put id new } name rfl rfl rfl, hrow,
    hrow, recompute]
  dsimp only
  omega

/-- The counters after a row of `records` is written. -/
lemma recompute_putRecord (t : Tables) (id : Id) (new : Option RecordRow) (name : Total) :
    { t with records := t.records.put id new }.recompute name = t.recompute name -
      rowValue RecordRow.compatibilityGeneration (recordMetric name t id) (t.records.get? id) +
      rowValue RecordRow.compatibilityGeneration (recordMetric name t id) new := by
  have hrow : ∀ row, rowValue RecordRow.compatibilityGeneration (recordMetric name t id) row =
      (row.map (t.recordPart name id)).getD 0 := fun row => by cases row <;> rfl
  have htally := tally_put (t.recordPart name) t.records id new
  rw [recompute_frame t { t with records := t.records.put id new } name rfl rfl rfl, hrow, hrow,
    recompute]
  dsimp only
  omega

/-! ## Operations and their reservations -/

/-- What a reservation has not consumed of `bytes`, when its operation holds `logical`. -/
lemma unconsumed_sub (bytes logical : ℤ) : max 0 (bytes - logical) = bytes - min logical bytes := by
  omega

/-- What a row of `operation_storage` counts as consumed. -/
lemma rowValue_unconsumed (t : Tables) (id : Id) (row : Option OperationStorage) :
    rowValue (fun _ => true) (storageMetric .unconsumedStaging t id) row =
      -(min ((row.map OperationStorage.logical).getD 0)
        (((t.reservationOf id).map fun r => (r.bytes : ℤ)).getD 0)) := by
  cases row with
  | some s => rfl
  | none => cases t.reservationOf id <;> simp [rowValue]

variable {object id : Id}

/-- What the reservations have not consumed, after the storage of an operation has changed. -/
lemma tally_unconsumed_putStorage (hunique : t.UniqueOperations) (t' : Tables)
    {new : Option OperationStorage} (ht' : t'.operationStorage = t.operationStorage.put id new)
    (hold : ∀ s, t.operationStorage.get? id = some s → 0 ≤ s.logical)
    (hnew : ∀ s, new = some s → 0 ≤ s.logical) :
    t.reservations.tally (t'.reservationPart .unconsumedStaging) =
      t.reservations.tally (t.reservationPart .unconsumedStaging) -
        rowValue (fun _ => true) (storageMetric .unconsumedStaging t id)
          (t.operationStorage.get? id) +
        rowValue (fun _ => true) (storageMetric .unconsumedStaging t id) new := by
  have hpart : ∀ (u : Tables) (j : Id) (r : ReservationRow),
      u.reservationPart .unconsumedStaging j r = max 0 (r.bytes -
        ((u.operationStorage.get? r.operation).map OperationStorage.logical).getD 0) :=
    fun _ _ _ => rfl
  -- the other reservations see the storage of their own operations, which is as it was
  have hother : ∀ j r, t.reservations.get? j = some r → r.operation ≠ id →
      t.reservations.contribution (t'.reservationPart .unconsumedStaging) j =
        t.reservations.contribution (t.reservationPart .unconsumedStaging) j := by
    intro j r hget hne
    rw [contribution_of_some hget, contribution_of_some hget, hpart, hpart, ht',
      get?_put_of_ne _ hne]
  have hlogical : ∀ row : Option OperationStorage, (∀ s, row = some s → 0 ≤ s.logical) →
      0 ≤ (row.map OperationStorage.logical).getD 0 := by
    intro row hrow
    cases row with
    | none => exact le_rfl
    | some s => exact hrow s rfl
  have holdLogical := hlogical _ hold
  have hnewLogical := hlogical _ hnew
  rw [rowValue_unconsumed, rowValue_unconsumed]
  cases hof : t.reservationOf id with
  | none =>
    have hsame : t.reservations.tally (t'.reservationPart .unconsumedStaging) =
        t.reservations.tally (t.reservationPart .unconsumedStaging) := by
      refine tally_congr fun j => ?_
      cases hget : t.reservations.get? j with
      | none => rw [contribution_of_none hget, contribution_of_none hget]
      | some r => exact hother j r hget (reservationOf_eq_none.mp hof j r hget)
    rw [hsame, map_none, getD_none, min_eq_right holdLogical, min_eq_right hnewLogical]
    omega
  | some r =>
    obtain ⟨k, hget, hop⟩ := (reservationOf_eq_some hunique).mp hof
    have hchange : t.reservations.tally (t'.reservationPart .unconsumedStaging) =
        t.reservations.tally (t.reservationPart .unconsumedStaging) -
          t.reservations.contribution (t.reservationPart .unconsumedStaging) k +
          t.reservations.contribution (t'.reservationPart .unconsumedStaging) k := by
      refine tally_change k fun j hj => ?_
      cases hget' : t.reservations.get? j with
      | none => rw [contribution_of_none hget', contribution_of_none hget']
      | some r' =>
        refine hother j r' hget' fun hop' => hj ?_
        exact hunique j k r' r hget' hget (hop'.trans hop.symm)
    rw [hchange, contribution_of_some hget, contribution_of_some hget, hpart, hpart,
      ht', hop, get?_put_self, map_some, getD_some, unconsumed_sub,
      unconsumed_sub]
    omega

/-- The counters after a row of `operation_storage` is written: what the reservation of the
operation has not consumed, and what the operation may still come to. -/
lemma recompute_putStorage (hunique : t.UniqueOperations) (id : Id) {new : Option OperationStorage}
    (hold : ∀ s, t.operationStorage.get? id = some s → 0 ≤ s.logical)
    (hnew : ∀ s, new = some s → 0 ≤ s.logical) (name : Total) :
    { t with operationStorage := t.operationStorage.put id new }.recompute name =
      t.recompute name -
      rowValue (fun _ => true) (storageMetric name t id) (t.operationStorage.get? id) +
      rowValue (fun _ => true) (storageMetric name t id) new := by
  set t' : Tables := { t with operationStorage := t.operationStorage.put id new } with ht'
  have hafter : t'.recompute name =
      t.objects.tally (t.objectPart name) + t.controlFiles.tally (t.controlPart name) +
        t.records.tally (t.recordPart name) + t.reservations.tally (t'.reservationPart name) +
        (t.operationStorage.put id new).tally (t.storagePart name) := by
    unfold recompute
    rw [objectPart_congr (show t'.refs = t.refs from rfl), controlPart_congr t t',
      recordPart_congr t t', storagePart_congr (show t'.reservations = t.reservations from rfl)]
  have hstorage := tally_put (t.storagePart name) t.operationStorage id new
  have hrow : ∀ row, (row.map (t.storagePart name id)).getD 0 =
      if name = .uncertainStaging then
        rowValue (fun _ => true) (storageMetric name t id) row else 0 := by
    intro row
    cases row with
    | none =>
      simp only [map_none, getD_none, rowValue]
      split_ifs <;> rfl
    | some s => rfl
  rw [hrow, hrow] at hstorage
  rw [hafter, hstorage, recompute]
  by_cases hunconsumed : name = .unconsumedStaging
  · subst hunconsumed
    rw [tally_unconsumed_putStorage hunique t' rfl hold hnew, if_neg (by decide),
      if_neg (by decide)]
    omega
  · have hpart : t'.reservationPart name = t.reservationPart name := by
      funext j r
      unfold reservationPart
      cases name <;> first | rfl | exact absurd rfl hunconsumed
    have hzero : name ≠ .uncertainStaging → ∀ row,
        rowValue (fun _ => true) (storageMetric name t id) row = 0 := by
      intro huncertain row
      cases row with
      | none => rfl
      | some s =>
        cases name <;> first | rfl | exact absurd rfl hunconsumed | exact absurd rfl huncertain
    rw [hpart]
    split_ifs with huncertain
    · omega
    · rw [hzero huncertain, hzero huncertain]
      omega

/-- Whether an operation is reserved, for the tallies: no row has it. -/
lemma isNone_reservationOf {operation : Id} :
    (t.reservationOf operation).isNone = true ↔
      ∀ id r, t.reservations.get? id = some r → r.operation ≠ operation := by
  rw [isNone_iff_eq_none, reservationOf_eq_none]

/-- What an operation may still come to, in the tally. -/
lemma contribution_uncertain (t t' : Tables) (operation : Id) :
    t.operationStorage.contribution (t'.storagePart .uncertainStaging) operation =
      if (t'.reservationOf operation).isNone then
        ((t.operationStorage.get? operation).map OperationStorage.uncertain).getD 0 else 0 := by
  unfold contribution
  cases t.operationStorage.get? operation with
  | none => simp
  | some s =>
    show (if (t'.reservationOf operation).isNone = true ∧ s.unsealed > 0 then _ else 0) =
      if (t'.reservationOf operation).isNone = true then s.uncertain else 0
    unfold OperationStorage.uncertain
    by_cases hnone : (t'.reservationOf operation).isNone = true <;> simp [hnone]

/-- What operations may still come to, when the reservation of one of them appears or goes. -/
lemma tally_uncertain_change (t t' : Tables) (operation : Id)
    (hother : ∀ k, k ≠ operation →
      ((t'.reservationOf k).isNone = true ↔ (t.reservationOf k).isNone = true)) :
    t.operationStorage.tally (t'.storagePart .uncertainStaging) =
      t.operationStorage.tally (t.storagePart .uncertainStaging) -
        (if (t.reservationOf operation).isNone then
          ((t.operationStorage.get? operation).map OperationStorage.uncertain).getD 0 else 0) +
        (if (t'.reservationOf operation).isNone then
          ((t.operationStorage.get? operation).map OperationStorage.uncertain).getD 0 else 0) := by
  rw [← contribution_uncertain t t, ← contribution_uncertain t t']
  refine tally_change operation fun k hk => ?_
  rw [contribution_uncertain, contribution_uncertain]
  simp only [hother k hk]

/-- The counters after a reservation is written, when its metrics are tallied apart from what
operations may still come to. -/
lemma recompute_reservations (t t' : Tables) (name : Total) (hobjects : t'.objects = t.objects)
    (hcontrol : t'.controlFiles = t.controlFiles) (hrecords : t'.records = t.records)
    (hrefs : t'.refs = t.refs) (hstorage : t'.operationStorage = t.operationStorage) :
    t'.recompute name = t.objects.tally (t.objectPart name) +
      t.controlFiles.tally (t.controlPart name) + t.records.tally (t.recordPart name) +
      t'.reservations.tally (t.reservationPart name) +
      t.operationStorage.tally (t'.storagePart name) := by
  unfold recompute
  rw [objectPart_congr hrefs, controlPart_congr t t', recordPart_congr t t',
    reservationPart_congr hstorage, hobjects, hcontrol, hrecords, hstorage]

/-- The counters move by the metrics of a reservation, if what operations may still come to moves
by its metric. -/
lemma recompute_putReservation_aux (t : Tables) (id : Id) (new : Option ReservationRow)
    (name : Total)
    (huncertain : t.operationStorage.tally
        ({ t with reservations := t.reservations.put id new }.storagePart .uncertainStaging) =
      t.operationStorage.tally (t.storagePart .uncertainStaging) -
        rowValue (fun _ => true) (reservationMetric .uncertainStaging t id)
          (t.reservations.get? id) +
        rowValue (fun _ => true) (reservationMetric .uncertainStaging t id) new) :
    { t with reservations := t.reservations.put id new }.recompute name = t.recompute name -
      rowValue (fun _ => true) (reservationMetric name t id) (t.reservations.get? id) +
      rowValue (fun _ => true) (reservationMetric name t id) new := by
  set t' : Tables := { t with reservations := t.reservations.put id new } with ht'
  have htally := tally_put (t.reservationPart name) t.reservations id new
  have hrow : ∀ row, (row.map (t.reservationPart name id)).getD 0 =
      if name = .uncertainStaging then 0 else
        rowValue (fun _ => true) (reservationMetric name t id) row := by
    intro row
    cases row with
    | none =>
      simp only [map_none, getD_none, rowValue]
      split_ifs <;> rfl
    | some r => rfl
  rw [hrow, hrow] at htally
  rw [recompute_reservations t t' name rfl rfl rfl rfl rfl, recompute]
  show _ + (t.reservations.put id new).tally (t.reservationPart name) + _ = _
  rw [htally]
  by_cases hname : name = .uncertainStaging
  · subst hname
    rw [if_pos rfl, if_pos rfl, huncertain]
    omega
  · have hpart : t'.storagePart name = t.storagePart name := by
      funext k s
      unfold storagePart
      rw [if_neg hname, if_neg hname]
    rw [if_neg hname, if_neg hname, hpart]
    omega

/-- The counters after a reservation is deleted. -/
lemma recompute_deleteReservation (hunique : t.UniqueOperations) {r : ReservationRow}
    (hget : t.reservations.get? id = some r) (name : Total) :
    { t with reservations := t.reservations.put id none }.recompute name = t.recompute name -
      reservationMetric name t id r := by
  have h := recompute_putReservation_aux t id none name ?_
  · rw [h, hget]
    simp [rowValue]
  · have hself : (t.reservationOf r.operation).isNone = false := by
      rw [(reservationOf_eq_some hunique).mpr ⟨id, hget, rfl⟩]
      rfl
    have hrows : ∀ j r', (t.reservations.put id none).get? j = some r' ↔
        j ≠ id ∧ t.reservations.get? j = some r' := by
      intro j r'
      rw [get?_put]
      split_ifs with hj <;> simp [hj]
    have hgone : ({ t with reservations := t.reservations.put id none }.reservationOf
        r.operation).isNone = true := by
      refine isNone_reservationOf.mpr fun j r' hj heq => ?_
      obtain ⟨hne, hj'⟩ := (hrows j r').mp hj
      exact hne (hunique j id r' r hj' hget heq)
    rw [tally_uncertain_change t _ r.operation ?_, hself, hgone, hget]
    · simp [rowValue, reservationMetric]
    · intro k hk
      rw [isNone_reservationOf, isNone_reservationOf]
      constructor
      · intro hfree j r' hj heq
        by_cases hji : j = id
        · rw [hji, hget, some.injEq] at hj
          exact hk (by rw [hj, heq])
        · exact hfree j r' ((hrows j r').mpr ⟨hji, hj⟩) heq
      · intro hfree j r' hj
        exact hfree j r' ((hrows j r').mp hj).2

/-- The counters after a reservation is inserted for an operation that has none. -/
lemma recompute_insertReservation (t : Tables) {r : ReservationRow}
    (hget : t.reservations.get? id = none) (hfree : (t.reservationOf r.operation).isNone = true)
    (name : Total) :
    { t with reservations := t.reservations.put id (some r) }.recompute name = t.recompute name +
      reservationMetric name t id r := by
  have h := recompute_putReservation_aux t id (some r) name ?_
  · rw [h, hget]
    simp [rowValue]
  · have hself : ({ t with reservations := t.reservations.put id (some r) }.reservationOf
        r.operation).isNone = false := by
      rw [Bool.eq_false_iff]
      intro hnone
      exact isNone_reservationOf.mp hnone id r (get?_put_self _ _ _) rfl
    rw [tally_uncertain_change t _ r.operation ?_, hself, hfree, hget]
    · simp only [rowValue, reservationMetric, if_true, Bool.false_eq_true, if_false]
      omega
    · intro k hk
      rw [isNone_reservationOf, isNone_reservationOf]
      constructor
      · intro hnone j r' hj
        have hji : j ≠ id := by
          rintro rfl
          rw [hget] at hj
          cases hj
        exact hnone j r' (by rw [get?_put_of_ne _ hji]; exact hj)
      · intro hnone j r' hj heq
        simp only [get?_put] at hj
        split_ifs at hj with hji
        · cases hj
          exact hk heq.symm
        · exact hnone j r' hj heq

/-- **Writing a reservation.** The counters move by its metrics, when no other row has its
operation. -/
theorem recompute_putReservation (hunique : t.UniqueOperations) (id : Id)
    (new : Option ReservationRow)
    (hfree : ∀ r, new = some r → ∀ j r', j ≠ id → t.reservations.get? j = some r' →
      r'.operation ≠ r.operation) (name : Total) :
    { t with reservations := t.reservations.put id new }.recompute name = t.recompute name -
      rowValue (fun _ => true) (reservationMetric name t id) (t.reservations.get? id) +
      rowValue (fun _ => true) (reservationMetric name t id) new := by
  -- first without the old row, then with the new one
  set t₀ : Tables := { t with reservations := t.reservations.put id none } with ht₀
  have hdelete : t₀.recompute name = t.recompute name -
      rowValue (fun _ => true) (reservationMetric name t id) (t.reservations.get? id) := by
    cases hget : t.reservations.get? id with
    | none =>
      have hsame : t₀ = t := by
        rw [ht₀, ← hget, put_get?]
      rw [hsame]
      simp [rowValue]
    | some r => exact recompute_deleteReservation hunique hget name
  cases new with
  | none =>
    rw [hdelete]
    simp [rowValue]
  | some r =>
    have hnone : t₀.reservations.get? id = none := get?_put_self _ _ _
    have hinsert := recompute_insertReservation t₀ (r := r) hnone ?_ name
    · have hput : { t₀ with reservations := t₀.reservations.put id (some r) } =
          { t with reservations := t.reservations.put id (some r) } := by
        rw [ht₀]
        simp only [put_put]
      rw [hput] at hinsert
      rw [hinsert, hdelete]
      cases name <;> rfl
    · refine isNone_reservationOf.mpr fun j r' hj => ?_
      simp only [ht₀, get?_put] at hj
      split_ifs at hj with hji
      exact hfree r rfl j r' hji hj

/-! ## References -/

/-- The counters after the references have changed: only the protected bytes of the objects whose
being referenced changes. -/
lemma recompute_refs (t t' : Tables) (object : Id) (hobjects : t'.objects = t.objects)
    (hcontrol : t'.controlFiles = t.controlFiles) (hrecords : t'.records = t.records)
    (hreservations : t'.reservations = t.reservations)
    (hstorage : t'.operationStorage = t.operationStorage)
    (hother : ∀ k, k ≠ object → t'.referenced k = t.referenced k) (name : Total) :
    t'.recompute name = t.recompute name -
      (if name = .objectProtected ∧ t.referenced object then t.liveBytes object else 0) +
      (if name = .objectProtected ∧ t'.referenced object then t.liveBytes object else 0) := by
  have hafter : t'.recompute name = t.objects.tally (t'.objectPart name) +
      t.controlFiles.tally (t.controlPart name) + t.records.tally (t.recordPart name) +
      t.reservations.tally (t.reservationPart name) +
      t.operationStorage.tally (t.storagePart name) := by
    unfold recompute
    rw [controlPart_congr t t', recordPart_congr t t', reservationPart_congr hstorage,
      storagePart_congr hreservations, hobjects, hcontrol, hrecords, hreservations, hstorage]
  rw [hafter, recompute]
  by_cases hname : name = .objectProtected
  · subst hname
    have hcontribution : ∀ (u : Tables) (k : Id),
        t.objects.contribution (u.objectPart .objectProtected) k =
          if u.referenced k then t.liveBytes k else 0 := by
      intro u k
      unfold contribution liveBytes
      cases t.objects.get? k with
      | none => simp
      | some o =>
        simp only [map_some, getD_some, objectPart, Catalog.objectCounts,
          objectMetric, decide_eq_true_eq]
        split_ifs <;> rfl
    have hchange : t.objects.tally (t'.objectPart .objectProtected) =
        t.objects.tally (t.objectPart .objectProtected) -
          t.objects.contribution (t.objectPart .objectProtected) object +
          t.objects.contribution (t'.objectPart .objectProtected) object := by
      refine tally_change object fun k hk => ?_
      rw [hcontribution, hcontribution, hother k hk]
    rw [hchange, hcontribution, hcontribution]
    simp only [true_and]
    omega
  · have hpart : t'.objectPart name = t.objectPart name := by
      funext id o
      unfold objectPart
      cases name <;> first | rfl | exact absurd rfl hname
    rw [hpart]
    simp only [hname, false_and, if_false]
    omega

/-- An object is referenced iff some row names it. -/
lemma referenced_iff : t.referenced object = true ↔ ∃ id, t.refs.get? id = some object := by
  unfold referenced
  rw [decide_eq_true_iff]
  constructor
  · rintro ⟨id, -, h⟩
    exact ⟨id, h⟩
  · rintro ⟨id, h⟩
    exact ⟨id, mem_keys_of_get? h, h⟩

/-- An object is referenced by another row than the given one iff it is without that row. -/
lemma referencedByOther_iff (id : Id) (row : Option Id) :
    { t with refs := t.refs.put id row }.referencedByOther object id = true ↔
      { t with refs := t.refs.put id none }.referenced object = true := by
  rw [referenced_iff]
  unfold referencedByOther
  rw [decide_eq_true_iff]
  constructor
  · rintro ⟨k, -, h, hne⟩
    refine ⟨k, ?_⟩
    rw [get?_put_of_ne _ hne] at h ⊢
    exact h
  · rintro ⟨k, h⟩
    simp only [get?_put] at h
    split_ifs at h with hk
    have hrow : (t.refs.put id row).get? k = some object :=
      (get?_put_of_ne _ hk row).trans h
    exact ⟨k, mem_keys_of_get? hrow, hrow, hk⟩

/-- Writing a reference changes being referenced only of the target that it gains or loses. -/
lemma referenced_putReference {row : Option Id} (hold : t.refs.get? id ≠ some object)
    (hnew : row ≠ some object) :
    { t with refs := t.refs.put id row }.referenced object = t.referenced object := by
  apply Bool.eq_iff_iff.mpr
  rw [referenced_iff, referenced_iff]
  constructor
  · rintro ⟨k, h⟩
    simp only [get?_put] at h
    split_ifs at h with hk
    · exact absurd h hnew
    · exact ⟨k, h⟩
  · rintro ⟨k, h⟩
    refine ⟨k, ?_⟩
    have hk : k ≠ id := by
      rintro rfl
      exact hold h
    exact (get?_put_of_ne _ hk row).trans h

/-- The counters after a reference is deleted. -/
lemma recompute_deleteReference {target : Id} (hget : t.refs.get? id = some target) (name : Total) :
    { t with refs := t.refs.put id none }.recompute name = t.recompute name -
      (if name = .objectProtected ∧
          { t with refs := t.refs.put id none }.referenced target = false then
        t.liveBytes target else 0) := by
  have hself : t.referenced target = true := referenced_iff.mpr ⟨id, hget⟩
  have hother : ∀ k, k ≠ target →
      { t with refs := t.refs.put id none }.referenced k = t.referenced k := by
    intro k hk
    refine referenced_putReference ?_ (some_ne_none k).symm
    rw [hget, Ne, some.injEq]
    exact hk.symm
  rw [recompute_refs t { t with refs := t.refs.put id none } target rfl rfl rfl rfl rfl hother name,
    hself]
  by_cases hname : name = .objectProtected
  · cases hreferenced : { t with refs := t.refs.put id none }.referenced target <;>
      simp [hname]
  · simp [hname]

/-- The counters after a reference is inserted. -/
lemma recompute_insertReference (t : Tables) (hget : t.refs.get? id = none) (target : Id)
    (name : Total) :
    { t with refs := t.refs.put id (some target) }.recompute name = t.recompute name +
      (if name = .objectProtected ∧ t.referenced target = false then t.liveBytes target
        else 0) := by
  have hself : { t with refs := t.refs.put id (some target) }.referenced target = true :=
    referenced_iff.mpr ⟨id, get?_put_self _ _ _⟩
  have hother : ∀ k, k ≠ target →
      { t with refs := t.refs.put id (some target) }.referenced k = t.referenced k := by
    intro k hk
    refine referenced_putReference ?_ ?_
    · rw [hget]
      exact (some_ne_none k).symm
    · rw [Ne, some.injEq]
      exact hk.symm
  rw [recompute_refs t { t with refs := t.refs.put id (some target) } target rfl rfl rfl rfl rfl
    hother name, hself]
  by_cases hname : name = .objectProtected
  · cases hreferenced : t.referenced target <;> simp [hname]
  · simp [hname]

end Tables

end Tgrep.Managed
