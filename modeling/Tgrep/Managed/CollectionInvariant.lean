import Tgrep.Managed.Collection

/-!
# The accounts of a collection

What the catalog says of an object, its members and the passes fits together in every state that
is ever committed: the bytes of an object are those of its members, a member has lost what was
credited to it, and the credits of a pass add up to its progress.

## Main definitions

* `Inventory.Inv`: the invariant of the catalog.
* `PhaseInv`, `State.Inv`: what a running pass knows about the catalog.

## Main results

* `Inventory.Inv.saveState`, `Inventory.Inv.saveRow`, `Inventory.Inv.credit`: the three kinds of
  changes keep the invariant.
* `step_inv`, `run_inv`: so does every event, and every run.
-/

namespace Tgrep.Managed

open Option Function FinMap

namespace Collection

/-! ## Reading rows that were written -/

namespace Inventory

variable (inv : Inventory) (id id' : Id) (o : ObjectRecord) (name name' : String) (m : FileRecord)
  (operation : Id) (progress : Progress)

@[simp] lemma objects_saveMember : (inv.saveMember id name m).objects = inv.objects := rfl

@[simp] lemma credits_saveMember : (inv.saveMember id name m).credits = inv.credits := rfl

@[simp] lemma operations_saveMember :
    (inv.saveMember id name m).operations = inv.operations := rfl

@[simp] lemma members_saveObject : (inv.saveObject id o).members = inv.members := rfl

@[simp] lemma credits_saveObject : (inv.saveObject id o).credits = inv.credits := rfl

@[simp] lemma operations_saveObject : (inv.saveObject id o).operations = inv.operations := rfl

@[simp] lemma objects_saveProgress :
    (inv.saveProgress operation progress).objects = inv.objects := rfl

@[simp] lemma members_saveProgress :
    (inv.saveProgress operation progress).members = inv.members := rfl

@[simp] lemma credits_saveProgress :
    (inv.saveProgress operation progress).credits = inv.credits := rfl

lemma members_saveMember : (inv.saveMember id name m).members =
    Function.update inv.members id ((inv.members id).put name (some m)) := rfl

/-- The row of an object after one is written. -/
lemma get?_saveObject :
    (inv.saveObject id o).objects.get? id' = if id' = id then some o else inv.objects.get? id' :=
  get?_insert _ _ _ _

/-- The row of a member after one is written. -/
lemma get?_saveMember :
    ((inv.saveMember id name m).members id').get? name' =
      if id' = id ∧ name' = name then some m else (inv.members id').get? name' := by
  rw [members_saveMember]
  by_cases h : id' = id
  · subst h
    rw [update_self, get?_put]
    simp only [true_and]
  · rw [update_of_ne h, if_neg fun hn => h hn.1]

/-- The members of another object. -/
lemma members_saveMember_of_ne (h : id' ≠ id) :
    (inv.saveMember id name m).members id' = inv.members id' :=
  update_of_ne h _ _

/-- The record of an operation after its progress is written. -/
lemma get?_saveProgress (operation' : Id) :
    (inv.saveProgress operation progress).operations.get? operation' =
      if operation' = operation then
        (inv.operations.get? operation).map ({ · with progress })
      else inv.operations.get? operation' :=
  get?_alter _ _ _ _

/-- The bytes of the members after one is written. -/
lemma memberBytes_saveMember :
    (inv.saveMember id name m).memberBytes id =
      inv.memberBytes id - (((inv.members id).get? name).map fun r => (r.logicalBytes : ℤ)).getD 0 +
        m.logicalBytes := by
  unfold memberBytes
  rw [members_saveMember, update_self, tally_put]
  rfl

/-- The bytes of the members of another object. -/
lemma memberBytes_saveMember_of_ne (h : id' ≠ id) :
    (inv.saveMember id name m).memberBytes id' = inv.memberBytes id' := by
  unfold memberBytes
  rw [members_saveMember_of_ne _ _ _ _ _ h]

end Inventory

/-! ## The invariant of the catalog -/

/-- A credit is of this byte of this member. -/
def Credit.covers (id : Id) (name : String) (b : ℕ) (c : Credit) : Bool :=
  c.object == id && c.name == name && decide (c.after ≤ b ∧ b < c.before)

/-- The bytes that a credit adds to the recovered, or to the reclaimed, bytes of an operation. -/
def Credit.amountOf (recovered : Bool) (operation : Id) (c : Credit) : ℕ :=
  if c.operation = operation ∧ c.recovered = recovered then c.before - c.after else 0

/-- The bytes that a pass has recovered, or reclaimed. -/
def Progress.amountOf (recovered : Bool) (progress : Progress) : ℕ :=
  match recovered with
  | true => progress.recoveredLogicalBytes
  | false => progress.logicalBytesReclaimed

/-- One if the byte of a member was credited according to its row. -/
def coverage (row : Option FileRecord) (b : ℕ) : ℕ :=
  match row with
  | none => 0
  | some m => if m.logicalBytes ≤ b ∧ b < m.logicalBytes + m.creditedLogicalBytes then 1 else 0

/-- What holds of the row of a member. -/
structure FileRecord.Inv (m : FileRecord) : Prop where
  /-- Nothing is deleted of a member that is still written. -/
  untouched : m.producerOpen = true →
    m.pendingLength = none ∧ m.removed = false ∧ m.creditedLogicalBytes = 0
  /-- A closed member has its intended length, less what was credited. -/
  original : m.producerOpen = false → ∃ memberSeal, m.memberSeal = some memberSeal ∧
    m.creditedLogicalBytes + m.logicalBytes = memberSeal.length
  /-- A member that is gone has no bytes and no intent. -/
  gone : m.removed = true → m.logicalBytes = 0 ∧ m.pendingLength = none
  /-- An intent does not extend the member. -/
  pending : ∀ target, m.pendingLength = some target → target ≤ m.logicalBytes

/-- **The invariant of the catalog.** -/
structure Inventory.Inv (inv : Inventory) : Prop where
  /-- The bytes of an object are those of its members. -/
  total : ∀ id o, inv.objects.get? id = some o → (o.logicalBytes : ℤ) = inv.memberBytes id
  /-- Only objects have members. -/
  vacant : ∀ id, inv.objects.get? id = none → inv.members id = .empty
  /-- The rows of the members. -/
  row : ∀ id name m, (inv.members id).get? name = some m → m.Inv
  /-- All members of a removed object are gone. -/
  removed : ∀ id o, inv.objects.get? id = some o → o.state = .removed →
    ∀ name m, (inv.members id).get? name = some m → m.removed = true
  /-- Every byte was credited once if it was, and not at all otherwise. -/
  covered : ∀ id name b, inv.credits.countP (Credit.covers id name b) =
    coverage ((inv.members id).get? name) b
  /-- The credits of an operation are its progress. -/
  credited : ∀ operation recovered,
    Ledger.total (Credit.amountOf recovered operation) inv.credits =
      ((inv.operations.get? operation).map (·.progress.amountOf recovered)).getD 0

namespace Inventory

variable {inv inv' : Inventory} {id : Id} {o o' : ObjectRecord} {name : String}
  {m m' : FileRecord}

/-- Nothing is recorded at first. -/
lemma inv_empty : Inv {} where
  total _ _ h := by cases h
  vacant _ _ := rfl
  row _ _ _ h := by cases h
  removed _ _ h := by cases h
  covered _ _ _ := rfl
  credited _ _ := rfl

/-- The invariant only looks at the rows. -/
lemma Inv.of_eq (hi : inv.Inv) (hobjects : inv'.objects = inv.objects)
    (hmembers : inv'.members = inv.members) (hoperations : inv'.operations = inv.operations)
    (hcredits : inv'.credits = inv.credits) : inv'.Inv where
  total := by
    unfold memberBytes
    rw [hobjects, hmembers]
    exact hi.total
  vacant := by
    rw [hobjects, hmembers]
    exact hi.vacant
  row := by
    rw [hmembers]
    exact hi.row
  removed := by
    rw [hobjects, hmembers]
    exact hi.removed
  covered := by
    rw [hcredits, hmembers]
    exact hi.covered
  credited := by
    rw [hcredits, hoperations]
    exact hi.credited

/-- **A change of the state of an object**, or of its bytes to what its members have. -/
theorem Inv.saveState (hi : inv.Inv) (hbytes : (o.logicalBytes : ℤ) = inv.memberBytes id)
    (hremoved : o.state = .removed →
      ∀ name m, (inv.members id).get? name = some m → m.removed = true) :
    (inv.saveObject id o).Inv where
  total id' o' h := by
    rw [get?_saveObject] at h
    split_ifs at h with heq
    · obtain rfl := some.inj h
      rw [heq]
      exact hbytes
    · exact hi.total id' o' h
  vacant id' h := by
    rw [get?_saveObject] at h
    split_ifs at h
    exact hi.vacant id' h
  row := hi.row
  removed id' o' h hstate := by
    rw [get?_saveObject] at h
    split_ifs at h with heq
    · obtain rfl := some.inj h
      rw [heq]
      exact hremoved hstate
    · exact hi.removed id' o' h hstate
  covered := hi.covered
  credited := hi.credited

/-- **A change of a row that leaves its bytes as they are.** -/
theorem Inv.saveRow (hi : inv.Inv) (hrow : (inv.members id).get? name = some m) (hm' : m'.Inv)
    (hlogical : m'.logicalBytes = m.logicalBytes)
    (hcredited : m'.creditedLogicalBytes = m.creditedLogicalBytes)
    (hgone : m.removed = true → m'.removed = true) : (inv.saveMember id name m').Inv where
  total id' o h := by
    by_cases heq : id' = id
    · subst heq
      rw [memberBytes_saveMember, hrow, hlogical, map_some, getD_some, Int.sub_add_cancel]
      exact hi.total id' o h
    · rw [memberBytes_saveMember_of_ne _ _ _ _ _ heq]
      exact hi.total id' o h
  vacant id' h := by
    have hmembers := hi.vacant id' h
    have hne : id' ≠ id := by
      rintro rfl
      rw [hmembers] at hrow
      cases hrow
    rw [members_saveMember_of_ne _ _ _ _ _ hne, hmembers]
  row id' name' r h := by
    rw [get?_saveMember] at h
    split_ifs at h
    · obtain rfl := some.inj h
      exact hm'
    · exact hi.row id' name' r h
  removed id' o h hstate name' r hr := by
    rw [get?_saveMember] at hr
    split_ifs at hr with heq
    · obtain ⟨rfl, rfl⟩ := heq
      obtain rfl := some.inj hr
      exact hgone (hi.removed id' o h hstate name' m hrow)
    · exact hi.removed id' o h hstate name' r hr
  covered id' name' b := by
    rw [credits_saveMember, hi.covered, get?_saveMember]
    split_ifs with heq
    · obtain ⟨rfl, rfl⟩ := heq
      rw [hrow]
      simp only [coverage, hlogical, hcredited]
    · rfl
  credited := hi.credited

/-- Writing progress with the same credits. -/
lemma Inv.saveProgress (hi : inv.Inv) {operation : Id} {r : PassRecord} {progress : Progress}
    (hr : inv.operations.get? operation = some r)
    (hsame : ∀ recovered, progress.amountOf recovered = r.progress.amountOf recovered) :
    (inv.saveProgress operation progress).Inv where
  total := hi.total
  vacant := hi.vacant
  row := hi.row
  removed := hi.removed
  covered := hi.covered
  credited operation' recovered := by
    rw [credits_saveProgress, hi.credited, get?_saveProgress]
    split_ifs with heq
    · rw [heq, hr, map_some, map_some, map_some, getD_some, getD_some]
      exact (hsame recovered).symm
    · rfl

/-- **A member is recorded by its producer**, and the bytes of its object summed up again. -/
theorem Inv.record (hi : inv.Inv) (ho : inv.objects.get? id = some o) (hm' : m'.Inv)
    (hcredited : m'.creditedLogicalBytes = 0)
    (hold : ∀ m, (inv.members id).get? name = some m → m.creditedLogicalBytes = 0)
    (hstate : o'.state ≠ .removed)
    (hbytes : (o'.logicalBytes : ℤ) = (inv.saveMember id name m').memberBytes id) :
    ((inv.saveMember id name m').saveObject id o').Inv where
  total id' r h := by
    rw [get?_saveObject] at h
    split_ifs at h with heq
    · obtain rfl := some.inj h
      rw [heq]
      exact hbytes
    · exact (hi.total id' r h).trans (memberBytes_saveMember_of_ne _ _ _ _ _ heq).symm
  vacant id' h := by
    rw [get?_saveObject] at h
    split_ifs at h with heq
    rw [members_saveObject, members_saveMember_of_ne _ _ _ _ _ heq]
    exact hi.vacant id' h
  row id' name' r h := by
    rw [members_saveObject, get?_saveMember] at h
    split_ifs at h
    · obtain rfl := some.inj h
      exact hm'
    · exact hi.row id' name' r h
  removed id' r h hremoved name' m hm := by
    rw [get?_saveObject] at h
    split_ifs at h with heq
    · obtain rfl := some.inj h
      exact absurd hremoved hstate
    · rw [members_saveObject, members_saveMember_of_ne _ _ _ _ _ heq] at hm
      exact hi.removed id' r h hremoved name' m hm
  covered id' name' b := by
    rw [credits_saveObject, credits_saveMember, hi.covered, members_saveObject, get?_saveMember]
    split_ifs with heq
    · obtain ⟨rfl, rfl⟩ := heq
      have hzero : ∀ r : FileRecord, r.creditedLogicalBytes = 0 → coverage (some r) b = 0 := by
        intro r hr
        simp only [coverage, hr, ite_eq_right_iff]
        omega
      rw [hzero m' hcredited]
      cases hrow : (inv.members id').get? name' with
      | none => rfl
      | some r => exact hzero r (hold r hrow)
    · rfl
  credited := hi.credited

/-- What a new credit covers: the bytes between the lengths before and after. -/
lemma coverage_credit {b : ℕ} {c : Credit} (hobject : c.object = id) (hname : c.name = name)
    (hbefore : c.before = m.logicalBytes) (hafter : c.after = m'.logicalBytes)
    (hle : m'.logicalBytes ≤ m.logicalBytes)
    (hcredited : m'.creditedLogicalBytes + m'.logicalBytes =
      m.creditedLogicalBytes + m.logicalBytes) :
    coverage (some m) b + (if c.covers id name b then 1 else 0) = coverage (some m') b := by
  have hcovers : c.covers id name b = decide (m'.logicalBytes ≤ b ∧ b < m.logicalBytes) := by
    rw [Credit.covers, hobject, hname, hbefore, hafter, beq_self_eq_true, beq_self_eq_true,
      Bool.true_and, Bool.true_and]
  simp only [coverage, hcovers, decide_eq_true_eq]
  split_ifs <;> omega

/-- **A chunk is credited** to the member, the object and the pass. -/
theorem Inv.credit (hi : inv.Inv) (ho : inv.objects.get? id = some o)
    (hrow : (inv.members id).get? name = some m) (hm' : m'.Inv)
    (hle : m'.logicalBytes ≤ m.logicalBytes)
    (hcredited : m'.creditedLogicalBytes + m'.logicalBytes =
      m.creditedLogicalBytes + m.logicalBytes)
    (hlive : m.removed = false) (hstate : o'.state = o.state)
    (hbytes : o'.logicalBytes + (m.logicalBytes - m'.logicalBytes) = o.logicalBytes)
    {c : Credit} (hobject : c.object = id) (hname : c.name = name)
    (hbefore : c.before = m.logicalBytes) (hafter : c.after = m'.logicalBytes)
    {r : PassRecord} (hr : inv.operations.get? c.operation = some r) {progress : Progress}
    (hamount : ∀ recovered, progress.amountOf recovered = r.progress.amountOf recovered +
      if c.recovered = recovered then m.logicalBytes - m'.logicalBytes else 0) :
    ((({ inv with credits := inv.credits ++ [c] } : Inventory).saveMember id name m').saveObject id
      o' |>.saveProgress c.operation progress).Inv := by
  set next : Inventory := { inv with credits := inv.credits ++ [c] } with hnext
  have hmembers : next.members = inv.members := rfl
  have hobjects : next.objects = inv.objects := rfl
  refine ⟨fun id' x h => ?_, fun id' h => ?_, fun id' name' x h => ?_,
    fun id' x h hremoved name' y hy => ?_, fun id' name' b => ?_, fun operation recovered => ?_⟩
  · rw [objects_saveProgress, get?_saveObject] at h
    split_ifs at h with heq
    · obtain rfl := some.inj h
      have hsum := hi.total id o ho
      have hwritten := memberBytes_saveMember next id name m'
      rw [hmembers, hrow, map_some, getD_some] at hwritten
      have hsame : next.memberBytes id = inv.memberBytes id := rfl
      rw [heq]
      show (o'.logicalBytes : ℤ) = (next.saveMember id name m').memberBytes id
      rw [hwritten, hsame, ← hsum]
      omega
    · have hother := memberBytes_saveMember_of_ne next id id' name m' heq
      exact (hi.total id' x h).trans hother.symm
  · rw [objects_saveProgress, get?_saveObject] at h
    split_ifs at h with heq
    rw [members_saveProgress, members_saveObject, members_saveMember_of_ne _ _ _ _ _ heq]
    exact hi.vacant id' h
  · rw [members_saveProgress, members_saveObject, get?_saveMember] at h
    split_ifs at h
    · obtain rfl := some.inj h
      exact hm'
    · exact hi.row id' name' x h
  · rw [objects_saveProgress, get?_saveObject] at h
    split_ifs at h with heq
    · -- the object is not removed: it has a member that is not
      obtain rfl := some.inj h
      have := hi.removed id o ho (hstate ▸ hremoved) name m hrow
      rw [hlive] at this
      cases this
    · rw [members_saveProgress, members_saveObject, members_saveMember_of_ne _ _ _ _ _ heq] at hy
      exact hi.removed id' x h hremoved name' y hy
  · have hcount : next.credits.countP (Credit.covers id' name' b) =
        inv.credits.countP (Credit.covers id' name' b) + if c.covers id' name' b then 1 else 0 := by
      rw [hnext, List.countP_append, List.countP_singleton]
    rw [credits_saveProgress, credits_saveObject, credits_saveMember, hcount, hi.covered,
      members_saveProgress, members_saveObject, get?_saveMember, hmembers]
    split_ifs with hcovers heq heq
    · obtain ⟨rfl, rfl⟩ := heq
      have := coverage_credit (b := b) hobject hname hbefore hafter hle hcredited
      rw [if_pos hcovers] at this
      rw [hrow, this]
    · -- a credit is of its own member only
      simp only [Credit.covers, Bool.and_eq_true, beq_iff_eq] at hcovers
      exact absurd ⟨hcovers.1.1.symm.trans hobject, hcovers.1.2.symm.trans hname⟩ heq
    · obtain ⟨rfl, rfl⟩ := heq
      have := coverage_credit (b := b) hobject hname hbefore hafter hle hcredited
      rw [if_neg hcovers] at this
      rw [hrow, this]
    · rfl
  · rw [credits_saveProgress, credits_saveObject, credits_saveMember, get?_saveProgress]
    have htotal : Ledger.total (Credit.amountOf recovered operation) next.credits =
        Ledger.total (Credit.amountOf recovered operation) inv.credits +
          c.amountOf recovered operation := by
      rw [hnext, Ledger.total_append, Ledger.total_cons, Ledger.total_nil, add_zero]
    rw [htotal, hi.credited, Credit.amountOf, hbefore, hafter]
    by_cases hop : operation = c.operation
    · subst hop
      rw [if_pos rfl]
      show _ = ((inv.operations.get? c.operation).map ({ · with progress })
        |>.map (·.progress.amountOf recovered)).getD 0
      rw [hr, map_some, map_some, map_some, getD_some, getD_some, hamount]
      simp only [true_and]
    · rw [if_neg hop, if_neg fun h => hop h.1.symm, add_zero]
      rfl

end Inventory

end Collection

end Tgrep.Managed
