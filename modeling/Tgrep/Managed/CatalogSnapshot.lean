import Tgrep.Managed.CatalogPages

/-!
# A listing of the catalog is a snapshot

The pages of a listing that is followed to its end hold the objects that existed, and were not
removed, when the first page read its revision, each as it was then. While the cursor is registered
no version that it needs is pruned, because the floor is not above its revision, and no object that
it lists is deleted, because the object's removal is newer.

## Main definitions

* `Catalog.IsVersion`: the newest version of an object at a revision.
* `Catalog.Written`: what a save and a creation do.
* `Sound`: the newest version of every object is its record.
* `Since`: what later states keep of a catalog, while a cursor at its revision is registered.

## Main results

* `Since.written`, `Since.pruned`, `Since.deleted`: what every write keeps.
* `Listed.step`: every call keeps the invariant.
* `Since.listed_eq`: what a page takes from the tables is what there was.
* `listing_is_snapshot`: the pages together.
-/

namespace Tgrep.Managed.Paging

open List

variable {ρ : Type} {c c' o : Catalog ρ} {s s' : Namespace ρ} {object version : ObjectRecord ρ}
  {r : ℕ} {id : Id}

namespace Catalog

/-! ## Versions -/

/-- A version is the newest of its object that a revision knows. -/
structure IsVersion (c : Catalog ρ) (r : ℕ) (version : ObjectRecord ρ) : Prop where
  /-- The version is kept. -/
  mem : version ∈ c.history
  /-- The revision knows it. -/
  le : version.revision ≤ r
  /-- None is newer. -/
  newest : ∀ v ∈ c.history, v.id = version.id → v.revision ≤ r → v.revision ≤ version.revision

/-- An object has one newest version. -/
lemma IsVersion.unique {version' : ObjectRecord ρ} (h : c.IsVersion r version)
    (h' : c.IsVersion r version') (hid : version.id = version'.id) : version = version' := by
  have hnodup : (c.history.map ObjectRecord.revision).Nodup :=
    pairwise_map.mpr (c.newestFirst.imp fun hlt => hlt.ne')
  exact inj_on_of_nodup_map hnodup h.mem h'.mem
    ((h'.newest _ h.mem hid h.le).antisymm (h.newest _ h'.mem hid.symm h'.le))

/-- The query for a version finds the newest. -/
lemma isVersion_of_versionAt (h : c.versionAt r id = some version) :
    version.id = id ∧ c.IsVersion r version := by
  obtain ⟨hp, before, after, hsplit, hbefore⟩ := find?_eq_some_iff_append.mp h
  simp only [Bool.and_eq_true, decide_eq_true_eq] at hp
  refine ⟨hp.1, hsplit ▸ by simp, hp.2, fun v hv hid hle => ?_⟩
  have hdesc := c.newestFirst
  rw [hsplit] at hv hdesc
  rcases mem_append.mp hv with hv | hv
  · have hnot := hbefore v hv
    simp [hid, hp.1, hle] at hnot
  · rcases mem_cons.mp hv with rfl | hv
    · exact le_rfl
    · exact ((pairwise_cons.mp (pairwise_append.mp hdesc).2.1).1 v hv).le

/-- What is the newest version now is so at any later revision. -/
lemma IsVersion.later (h : c.IsVersion c.revision version) (hr : c.revision ≤ r) :
    c.IsVersion r version :=
  ⟨h.mem, h.le.trans hr, fun v hv hid _ => h.newest v hv hid (c.recorded v hv)⟩

/-- A version stays the newest if it is kept and no version is added that the revision knows. -/
lemma IsVersion.of_history (h : c.IsVersion r version) (hmem : version ∈ c'.history)
    (hold : ∀ v ∈ c'.history, v.revision ≤ r → v ∈ c.history) : c'.IsVersion r version :=
  ⟨hmem, h.le, fun v hv hid hle => h.newest v (hold v hv hle) hid hle⟩

/-! ## Writes -/

/-- A record is written: it is the newest version, and the row of its object, if there was one,
keeps the rest. Nothing removed comes back. -/
structure Written (c c' : Catalog ρ) (object : ObjectRecord ρ) : Prop where
  /-- A revision is given out. -/
  revision : c'.revision = c.revision + 1
  /-- The record has it. -/
  version : object.revision = c.revision + 1
  /-- The record is a version. -/
  history : c'.history = object :: c.history
  /-- Identities are not given out again. -/
  sequence : c.objectSequence ≤ c'.objectSequence
  /-- A row is an old one, or that of the record. -/
  rows : ∀ row ∈ c'.objects, row ∈ c.objects ∧ row.record.id ≠ object.id ∨ row.record = object ∧
    (c.revision < row.createdRevision ∧ c.objectSequence < object.id ∨
      ∃ old ∈ c.objects, old.record.id = object.id ∧ old.createdRevision = row.createdRevision ∧
        (old.record.state = .removed → object.state = .removed))
  /-- No object is lost. -/
  kept : ∀ old ∈ c.objects, ∃ row ∈ c'.objects, row.record.id = old.record.id ∧
    row.createdRevision = old.createdRevision

/-- **A creation** writes the record of an object that there was not. -/
lemma createObject_ok {rest : ρ} (h : c.createObject rest = .ok c') :
    ∃ object, Written c c' object := by
  unfold createObject at h
  split_ifs at h with hlt
  cases h
  refine ⟨_, rfl, rfl, rfl, Nat.le_succ _, fun row hrow => ?_, fun old hold =>
    ⟨old, mem_append_left _ hold, rfl, rfl⟩⟩
  rcases mem_append.mp hrow with hrow | hrow
  · exact .inl ⟨hrow, (Nat.lt_succ_of_le (c.allocated row hrow)).ne⟩
  · obtain rfl := mem_singleton.mp hrow
    exact .inr ⟨rfl, .inl ⟨Nat.lt_succ_self _, Nat.lt_succ_self _⟩⟩

/-- **A save** writes the record with the next revision. -/
lemma saveObject_ok (h : c.saveObject object = .ok c')
    (hlife : ∀ row ∈ c.objects, row.record.id = object.id → row.record.state = .removed →
      object.state = .removed) : Written c c' { object with revision := c.revision + 1 } := by
  unfold saveObject at h
  split_ifs at h with hlt hany
  cases h
  refine ⟨rfl, rfl, rfl, le_rfl, fun row hrow => ?_, fun old hold =>
    ⟨_, mem_map_of_mem hold, ObjectRow.id_put _ _, ObjectRow.createdRevision_put _ _⟩⟩
  obtain ⟨old, hold, rfl⟩ := mem_map.mp hrow
  by_cases hid : old.record.id = object.id
  · refine .inr ⟨by rw [ObjectRow.put, if_pos hid], .inr ⟨old, hold, hid, ?_, hlife old hold hid⟩⟩
    rw [ObjectRow.createdRevision_put]
  · have hput : old.put { object with revision := c.revision + 1 } = old := if_neg hid
    rw [hput]
    exact .inl ⟨hold, hid⟩

/-- **A revision** without a write keeps the tables. -/
lemma nextRevision_ok (h : c.nextRevision = .ok c') : c'.objects = c.objects ∧
    c'.history = c.history ∧ c'.objectSequence = c.objectSequence ∧
      c'.revision = c.revision + 1 := by
  unfold nextRevision at h
  split_ifs at h
  cases h
  exact ⟨rfl, rfl, rfl, rfl⟩

/-- **An access** to an object takes a revision and saves a record that is not removed. -/
lemma touchObject_ok (h : c.touchObject id = .ok c') :
    ∃ c₁ object, c.nextRevision = .ok c₁ ∧ c₁.saveObject object = .ok c' ∧
      ∀ row ∈ c₁.objects, row.record.id = object.id → row.record.state ≠ .removed := by
  rw [touchObject] at h
  obtain ⟨object, hobject, h⟩ := Loops.bind_eq_ok.mp h
  obtain ⟨hpublished, h⟩ := require_bind_eq_ok.mp h
  obtain ⟨c₁, hnext, h⟩ := Loops.bind_eq_ok.mp h
  refine ⟨c₁, _, hnext, h, fun row hrow hid hremoved => ?_⟩
  rw [objectRow] at hobject
  split at hobject
  · rename_i found hfind
    cases hobject
    have hfound := find?_some hfind
    rw [(nextRevision_ok hnext).1] at hrow
    obtain rfl := c.ordered.eq_of_key_eq hrow (mem_of_find?_eq_some hfind) hid
    rw [hremoved] at hpublished
    cases hpublished
  · cases hobject

end Catalog

/-! ## The invariant -/

/-- What holds in every state. -/
structure Sound (s : Namespace ρ) : Prop where
  /-- The newest version of an object is its record. -/
  current : ∀ row ∈ s.catalog.objects, s.catalog.IsVersion s.catalog.revision row.record
  /-- What cleanup has read is about an object that there was. -/
  known : ∀ object ∈ s.read, object.id ≤ s.catalog.objectSequence
  /-- What cleanup has read to be removed is still removed. -/
  withdrawn : ∀ object ∈ s.read, object.state = .removed → ∀ row ∈ s.catalog.objects,
    row.record.id = object.id → row.record.state = .removed

/-- What a state keeps of a catalog, while a cursor is registered at its revision. -/
structure Since (o : Catalog ρ) (s : Namespace ρ) : Prop where
  /-- Revisions go up. -/
  revision_le : o.revision ≤ s.catalog.revision
  /-- No object is lost that was not removed. -/
  kept : ∀ old ∈ o.objects, old.record.state ≠ .removed → ∃ row ∈ s.catalog.objects,
    row.record.id = old.record.id ∧ row.createdRevision = old.createdRevision
  /-- An object that was created by then has its version of then. -/
  version : ∀ row ∈ s.catalog.objects, row.createdRevision ≤ o.revision →
    ∃ old ∈ o.objects, old.record.id = row.record.id ∧
      s.catalog.IsVersion o.revision old.record
  /-- A record that was not saved since is that of then. -/
  same : ∀ row ∈ s.catalog.objects, row.record.revision ≤ o.revision →
    ∃ old ∈ o.objects, old.record = row.record
  /-- What cleanup has read of then, and read to be removed, was removed. -/
  withdrawn : ∀ object ∈ s.read, object.state = .removed → object.revision ≤ o.revision →
    ∀ old ∈ o.objects, old.record.id = object.id → old.record.state = .removed

/-- **Opening**: a catalog keeps everything of itself. -/
lemma Sound.since (h : Sound s) : Since s.catalog s where
  revision_le := le_rfl
  kept := fun old hold _ => ⟨old, hold, rfl, rfl⟩
  version := fun row hrow _ => ⟨row, hrow, rfl, h.current row hrow⟩
  same := fun row hrow _ => ⟨row, hrow, rfl⟩
  withdrawn := fun object hobject hremoved _ => h.withdrawn object hobject hremoved

/-! ### Writes -/

/-- The newest versions stay the newest when a record is written that is newer. -/
lemma Catalog.Written.isVersion (hw : c.Written c' object) (hr : r ≤ c.revision)
    (h : c.IsVersion r version) : c'.IsVersion r version := by
  refine h.of_history (hw.history ▸ mem_cons_of_mem _ h.mem) fun v hv hle => ?_
  rw [hw.history] at hv
  rcases mem_cons.mp hv with rfl | hv
  · have hversion := hw.version
    omega
  · exact hv

/-- **A write** keeps the newest versions and what cleanup has read. -/
lemma Sound.written (h : Sound s) (hw : s.catalog.Written c' object) :
    Sound { s with catalog := c' } where
  current := by
    intro row hrow
    have hnew : object ∈ c'.history := hw.history ▸ mem_cons_self
    have hle : ∀ v ∈ s.catalog.history, v.revision ≤ object.revision := fun v hv =>
      (s.catalog.recorded v hv).trans (hw.version ▸ Nat.le_succ _)
    rcases hw.rows row hrow with ⟨hold, hne⟩ | ⟨hrecord, -⟩
    · have hversion := h.current row hold
      refine ⟨hw.history ▸ mem_cons_of_mem _ hversion.mem,
        hversion.le.trans (hw.revision ▸ Nat.le_succ _), fun v hv hid _ => ?_⟩
      rw [show c'.history = _ from hw.history] at hv
      rcases mem_cons.mp hv with rfl | hv
      · exact absurd hid.symm hne
      · exact hversion.newest v hv hid (s.catalog.recorded v hv)
    · rw [hrecord]
      refine ⟨hnew, (hw.version.trans hw.revision.symm).le, fun v hv _ _ => ?_⟩
      rw [show c'.history = _ from hw.history] at hv
      rcases mem_cons.mp hv with rfl | hv
      · exact le_rfl
      · exact hle v hv
  known := fun v hv => (h.known v hv).trans hw.sequence
  withdrawn := by
    intro v hv hremoved row hrow hid
    rcases hw.rows row hrow with ⟨hold, -⟩ | ⟨hrecord, hnew | ⟨old, hold, hsame, -, hlife⟩⟩
    · exact h.withdrawn v hv hremoved row hold hid
    · rw [hrecord] at hid
      exact absurd (hid ▸ h.known v hv) (Nat.not_le.mpr hnew.2)
    · rw [hrecord] at hid ⊢
      exact hlife (h.withdrawn v hv hremoved old hold (hsame.trans hid))

/-- **A write** is not seen at an earlier revision. -/
lemma Since.written (h : Since o s) (hw : s.catalog.Written c' object) :
    Since o { s with catalog := c' } where
  revision_le := h.revision_le.trans (hw.revision ▸ Nat.le_succ _)
  kept := by
    intro old hold hremoved
    obtain ⟨row, hrow, hid, hcreated⟩ := h.kept old hold hremoved
    obtain ⟨row', hrow', hid', hcreated'⟩ := hw.kept row hrow
    exact ⟨row', hrow', hid'.trans hid, hcreated'.trans hcreated⟩
  version := by
    intro row hrow hcreated
    rcases hw.rows row hrow with ⟨hold, -⟩ | ⟨hrecord, hnew | ⟨old, hold, hsame, hsince, -⟩⟩
    · obtain ⟨old, hold, hid, hversion⟩ := h.version row hold hcreated
      exact ⟨old, hold, hid, hw.isVersion h.revision_le hversion⟩
    · have hle := h.revision_le
      omega
    · obtain ⟨then', hthen, hid, hversion⟩ := h.version old hold (hsince ▸ hcreated)
      exact ⟨then', hthen, hid.trans (hsame.trans (hrecord ▸ rfl)),
        hw.isVersion h.revision_le hversion⟩
  same := by
    intro row hrow hle
    rcases hw.rows row hrow with ⟨hold, -⟩ | ⟨hrecord, -⟩
    · exact h.same row hold hle
    · have hversion := hw.version
      have hlower := h.revision_le
      rw [hrecord] at hle
      omega
  withdrawn := h.withdrawn

/-! ### Cleanup -/

/-- **Pruning** keeps the newest version at a revision that the floor is not above, and at a
revision that no version is above. -/
lemma Catalog.IsVersion.pruned (h : c.IsVersion r version) {floor n : ℕ}
    (hr : floor ≤ r ∨ c.revision ≤ r) : (c.pruneHistory floor n).IsVersion r version := by
  have hkept : c.prunable floor version = false := by
    rw [Catalog.prunable, Bool.and_eq_false_iff, any_eq_false]
    refine .inr fun newer hnewer hall => ?_
    simp only [Bool.and_eq_true, decide_eq_true_eq] at hall
    have hle : newer.revision ≤ r :=
      hr.elim hall.2.trans fun hle => (c.recorded newer hnewer).trans hle
    exact absurd (h.newest newer hnewer hall.1.1 hle) (Nat.not_le.mpr hall.1.2)
  refine h.of_history (mem_filter.mpr ⟨h.mem, ?_⟩) fun v hv _ => mem_of_mem_filter hv
  rw [hkept, Bool.and_false, Bool.not_false]

/-- The floor is not above the revision of a cursor that is registered. -/
lemma Namespace.Live.floor_le {ticket : Id} (h : s.Live ticket r) : s.floor ≤ r := by
  have hmem : r ∈ s.cursors.map CursorLifetime.revision :=
    mem_map_of_mem (mem_of_find?_eq_some h)
  unfold Namespace.floor
  cases hmin : (s.cursors.map CursorLifetime.revision).min? with
  | none => simp [min?_eq_none_iff.mp hmin] at hmem
  | some least => exact (min?_eq_some_iff.mp hmin).2 r hmem

/-- **Pruning** keeps the newest versions. -/
lemma Sound.pruned (h : Sound s) {floor n : ℕ} :
    Sound { s with catalog := s.catalog.pruneHistory floor n } :=
  ⟨fun row hrow => (h.current row hrow).pruned (.inr le_rfl), h.known, h.withdrawn⟩

/-- **Pruning** keeps the versions of a revision that the floor is not above. -/
lemma Since.pruned (h : Since o s) {floor n : ℕ} (hfloor : floor ≤ o.revision) :
    Since o { s with catalog := s.catalog.pruneHistory floor n } where
  revision_le := h.revision_le
  kept := h.kept
  version := by
    intro row hrow hcreated
    obtain ⟨old, hold, hid, hversion⟩ := h.version row hrow hcreated
    exact ⟨old, hold, hid, hversion.pruned (.inl hfloor)⟩
  same := h.same
  withdrawn := h.withdrawn

/-- A row that is left after a deletion is of another object, if the object was removed. -/
lemma Sound.ne_of_deleted (h : Sound s) (hread : object ∈ s.read)
    (hremoved : object.state = .removed) {row : ObjectRow ρ}
    (hrow : row ∈ (s.catalog.deleteObject object.id).objects) :
    row ∈ s.catalog.objects ∧ row.record.id ≠ object.id := by
  obtain ⟨hmem, hkept⟩ := mem_filter.mp hrow
  refine ⟨hmem, fun hid => ?_⟩
  simp [hid, h.withdrawn object hread hremoved row hmem hid] at hkept

/-- **Deletion** keeps the versions of the other objects. -/
lemma Catalog.IsVersion.deleted (h : c.IsVersion r version) (hne : version.id ≠ id) :
    (c.deleteObject id).IsVersion r version :=
  h.of_history (mem_filter.mpr ⟨h.mem, decide_eq_true hne⟩)
    fun _ hv _ => mem_of_mem_filter hv

/-- **Deletion** of an object that was removed keeps the newest versions of the rest. -/
lemma Sound.deleted (h : Sound s) (hread : object ∈ s.read) (hremoved : object.state = .removed) :
    Sound { s with catalog := s.catalog.deleteObject object.id } where
  current := by
    intro row hrow
    obtain ⟨hmem, hne⟩ := h.ne_of_deleted hread hremoved hrow
    exact (h.current row hmem).deleted hne
  known := h.known
  withdrawn := fun v hv hv' row hrow => h.withdrawn v hv hv' row (mem_of_mem_filter hrow)

/-- **Deletion** of an object that was removed by then keeps what there was. -/
lemma Since.deleted (h : Since o s) (hs : Sound s) (hread : object ∈ s.read)
    (hremoved : object.state = .removed) (hle : object.revision ≤ o.revision) :
    Since o { s with catalog := s.catalog.deleteObject object.id } where
  revision_le := h.revision_le
  kept := by
    intro old hold hlives
    obtain ⟨row, hrow, hid, hcreated⟩ := h.kept old hold hlives
    refine ⟨row, mem_filter.mpr ⟨hrow, ?_⟩, hid, hcreated⟩
    have hne : row.record.id ≠ object.id := fun hsame =>
      hlives (h.withdrawn object hread hremoved hle old hold (hid.symm.trans hsame))
    simp [hne]
  version := by
    intro row hrow hcreated
    obtain ⟨hmem, hne⟩ := hs.ne_of_deleted hread hremoved hrow
    obtain ⟨old, hold, hid, hversion⟩ := h.version row hmem hcreated
    exact ⟨old, hold, hid, hversion.deleted (hid ▸ hne)⟩
  same := fun row hrow => h.same row (mem_of_mem_filter hrow)
  withdrawn := h.withdrawn

/-! ### Calls -/

/-- The invariant of a listing: what is kept while its cursor is registered. -/
structure Listed (o : Catalog ρ) (ticket : Id) (s : Namespace ρ) : Prop where
  /-- The tables are sound. -/
  sound : Sound s
  /-- The identity of the cursor was drawn. -/
  drawn : ticket < s.drawn
  /-- As long as the cursor is registered, the catalog is kept. -/
  since : s.Live ticket o.revision → Since o s

variable {ticket : Id}

variable (h : Listed o ticket s)

include h

/-- **A write** of a record keeps the invariant. -/
lemma Listed.written (hw : s.catalog.Written c' object) :
    Listed o ticket { s with catalog := c' } :=
  ⟨h.sound.written hw, h.drawn, fun hlive => (h.since hlive).written hw⟩

/-- **The registry** and the counters may change in any way that does not register the cursor. -/
lemma Listed.registry (hobjects : s'.catalog.objects = s.catalog.objects)
    (hhistory : s'.catalog.history = s.catalog.history)
    (hsequence : s.catalog.objectSequence ≤ s'.catalog.objectSequence)
    (hrevision : s.catalog.revision ≤ s'.catalog.revision) (hread : s'.read ⊆ s.read)
    (hdrawn : s.drawn ≤ s'.drawn)
    (hlive : s'.Live ticket o.revision → s.Live ticket o.revision) : Listed o ticket s' := by
  have hversion : ∀ {r : ℕ} {version : ObjectRecord ρ}, s.catalog.IsVersion r version →
      s'.catalog.IsVersion r version := fun hv =>
    hv.of_history (hhistory ▸ hv.mem) fun v hmem _ => hhistory ▸ hmem
  have hsound := h.sound
  refine ⟨⟨fun row hrow => hversion ((hsound.current row (hobjects ▸ hrow)).later hrevision),
    fun v hv => (hsound.known v (hread hv)).trans hsequence,
    fun v hv => hobjects ▸ hsound.withdrawn v (hread hv)⟩, h.drawn.trans_le hdrawn, fun hl => ?_⟩
  have hsince := h.since (hlive hl)
  refine ⟨hsince.revision_le.trans hrevision, hobjects ▸ hsince.kept, fun row hrow hcreated => ?_,
    hobjects ▸ hsince.same, fun v hv => hsince.withdrawn v (hread hv)⟩
  obtain ⟨old, hold, hid, hthen⟩ := hsince.version row (hobjects ▸ hrow) hcreated
  exact ⟨old, hold, hid, hversion hthen⟩

/-- **A revision** keeps the invariant. -/
lemma Listed.revised (hnext : s.catalog.nextRevision = .ok c') :
    Listed o ticket { s with catalog := c' } := by
  obtain ⟨hobjects, hhistory, hsequence, hrevision⟩ := Catalog.nextRevision_ok hnext
  exact h.registry hobjects hhistory hsequence.ge (hrevision ▸ Nat.le_succ _) (Subset.refl _)
    le_rfl id

/-- A cursor that is registered after another was taken out was so before. -/
lemma Listed.removed (other : Id) : Listed o ticket (s.remove other) := by
  refine h.registry rfl rfl le_rfl le_rfl (Subset.refl _) le_rfl fun hlive => ?_
  rw [Namespace.Live, Namespace.remove, find?_filter] at hlive
  have hne : ticket ≠ other := by
    rintro rfl
    have hfound := find?_some hlive
    simp at hfound
  rw [Namespace.Live, ← hlive]
  congr 1
  funext lifetime
  by_cases heq : lifetime.ticket = ticket <;> simp [heq, hne]

/-- **Cleanup** of a row keeps the invariant. -/
lemma Listed.cleaned (hread : object ∈ s.read) (blocked : Bool) :
    Listed o ticket (s.cleanupObject object blocked) := by
  unfold Namespace.cleanupObject
  split_ifs with hremoved hcursors
  · exact h
  · exact h
  · exact h
  · rw [not_not] at hremoved
    refine ⟨h.sound.deleted hread hremoved, h.drawn, fun hlive => ?_⟩
    refine (h.since hlive).deleted h.sound hread hremoved (Nat.le_of_not_lt fun hlt => hcursors ?_)
    exact any_eq_true.mpr ⟨_, mem_of_find?_eq_some hlive, decide_eq_true hlt⟩

/-- **Reading a row** keeps the invariant: a removed record of then is that of then. -/
lemma Listed.looked (hrow : s.catalog.objectRow id = .ok object) :
    Listed o ticket { s with read := object :: s.read } := by
  rw [Catalog.objectRow] at hrow
  split at hrow
  · rename_i row hfind
    cases hrow
    have hmem := mem_of_find?_eq_some hfind
    refine ⟨⟨h.sound.current, forall_mem_cons.mpr
      ⟨s.catalog.allocated row hmem, h.sound.known⟩, forall_mem_cons.mpr
      ⟨fun hremoved row' hmem' hid => ?_, h.sound.withdrawn⟩⟩, h.drawn, fun hlive => ?_⟩
    · obtain rfl := s.catalog.ordered.eq_of_key_eq hmem' hmem hid
      exact hremoved
    · have hsince := h.since hlive
      refine ⟨hsince.revision_le, hsince.kept, hsince.version, hsince.same,
        forall_mem_cons.mpr ⟨fun hremoved hle old hold hid => ?_, hsince.withdrawn⟩⟩
      obtain ⟨same, hsame, hrecord⟩ := hsince.same row hmem hle
      obtain rfl := o.ordered.eq_of_key_eq hold hsame (hid.trans (hrecord ▸ rfl))
      exact hrecord ▸ hremoved
  · cases hrow

omit h

/-! ### Cursors -/

/-- **Opening** a cursor registers it at the revision of the catalog. -/
lemma openCursor_ok {maxCursors inventories : ℕ} {cursor : CatalogCursor}
    (h : s.openCursor maxCursors inventories = .ok (cursor, s')) :
    cursor = ⟨s.process, s.drawn, s.catalog.revision, none⟩ ∧
      s' = { s with
        cursors := ⟨s.drawn, s.catalog.revision⟩ :: s.cursors
        drawn := s.drawn + 1 } := by
  obtain ⟨-, h⟩ := require_bind_eq_ok.mp h
  cases h
  exact ⟨rfl, rfl⟩

/-- **A page** is read for a cursor that is registered, which the last page takes out. -/
lemma resume_ok {limit : ℕ} {cursor : CatalogCursor} {page : CatalogPage ρ}
    (h : s.resume limit cursor = .ok (page, s')) : s.Live cursor.ticket cursor.revision ∧
      Namespace.readPage s.catalog limit cursor = .ok page ∧
        s' = if page.next.isNone then s.remove cursor.ticket else s := by
  obtain ⟨⟨-, hlive⟩, h⟩ := require_bind_eq_ok.mp h
  obtain ⟨page', hpage, h⟩ := Loops.bind_eq_ok.mp h
  cases h
  exact ⟨hlive, hpage, rfl⟩

/-- **Opening** another cursor does not register one that was drawn before. -/
lemma Listed.opened (h : Listed o ticket s) {maxCursors inventories : ℕ} {cursor : CatalogCursor}
    (hopen : s.openCursor maxCursors inventories = .ok (cursor, s')) : Listed o ticket s' := by
  obtain ⟨-, rfl⟩ := openCursor_ok hopen
  refine h.registry rfl rfl le_rfl le_rfl (Subset.refl _) (Nat.le_succ _) fun hlive => ?_
  rwa [Namespace.Live, find?_cons_of_neg (by simpa using h.drawn.ne')] at hlive

/-- **A page** keeps the invariant. -/
lemma Listed.resumed (h : Listed o ticket s) {limit : ℕ} {cursor : CatalogCursor}
    {page : CatalogPage ρ} (hpage : s.resume limit cursor = .ok (page, s')) :
    Listed o ticket s' := by
  obtain ⟨-, -, rfl⟩ := resume_ok hpage
  split_ifs
  · exact h.removed cursor.ticket
  · exact h

/-- What a call that may fail makes. -/
lemma map_toOption_eq_some {α β : Type} {result : Except Error α} {f : α → β} {b : β} :
    result.toOption.map f = some b ↔ ∃ a, result = .ok a ∧ f a = b := by
  cases result <;> simp [Except.toOption]

/-- **Every call keeps the invariant.** -/
theorem Listed.step {a : Event ρ} (h : Listed o ticket s) (hok : Allowed s a)
    (hstep : step s a = some s') : Listed o ticket s' := by
  cases a with
  | create rest =>
    obtain ⟨c', hc, rfl⟩ := map_toOption_eq_some.mp hstep
    obtain ⟨object, hw⟩ := Catalog.createObject_ok hc
    exact h.written hw
  | save object =>
    obtain ⟨c', hc, rfl⟩ := map_toOption_eq_some.mp hstep
    exact h.written (Catalog.saveObject_ok hc hok)
  | touch id =>
    obtain ⟨c', hc, rfl⟩ := map_toOption_eq_some.mp hstep
    obtain ⟨c₁, object, hnext, hsave, hlives⟩ := Catalog.touchObject_ok hc
    exact (h.revised hnext).written (Catalog.saveObject_ok hsave fun row hrow hid hremoved =>
      absurd hremoved (hlives row hrow hid))
  | revise =>
    obtain ⟨c', hc, rfl⟩ := map_toOption_eq_some.mp hstep
    exact h.revised hc
  | prune revision =>
    cases hstep
    exact ⟨h.sound.pruned, h.drawn, fun hlive => (h.since hlive).pruned
      (Namespace.Live.floor_le (s := s) hlive)⟩
  | look id =>
    obtain ⟨object, hobject, rfl⟩ := map_toOption_eq_some.mp hstep
    exact h.looked hobject
  | cleanup position blocked =>
    obtain ⟨object, hobject, rfl⟩ := Option.map_eq_some_iff.mp hstep
    exact h.cleaned (mem_of_getElem? hobject) blocked
  | begin maxCursors inventories =>
    obtain ⟨result, hopen, rfl⟩ := map_toOption_eq_some.mp hstep
    exact h.opened hopen
  | page limit cursor =>
    obtain ⟨result, hpage, rfl⟩ := map_toOption_eq_some.mp hstep
    exact h.resumed hpage
  | close other =>
    cases hstep
    exact h.removed other
  | restart =>
    cases hstep
    exact h.registry rfl rfl le_rfl le_rfl (nil_subset _) (Nat.le_succ _) fun hl => by cases hl

/-- The invariant along a run. -/
lemma Listed.run (h : Listed o ticket s) (hrun : Run.Reaches Paging.step Allowed s s') :
    Listed o ticket s' :=
  hrun.invariant (fun _ _ _ h hok hstep => h.step hok hstep) h

/-- Every state that is reached from a new namespace is sound. -/
lemma Sound.of_reaches (h : Run.Reaches step Allowed Namespace.new s) : Sound s := by
  have hnew : Listed (Catalog.empty : Catalog ρ) 0 Namespace.new :=
    ⟨⟨by simp [Namespace.new, Catalog.empty], by simp [Namespace.new], by simp [Namespace.new]⟩,
      Nat.one_pos, fun hlive => by cases hlive⟩
  exact (hnew.run h).sound

/-! ## Pages -/

/-- The objects that a catalog has, unless they were removed. -/
def Catalog.listed (c : Catalog ρ) : List (ObjectRecord ρ) :=
  (c.objects.map ObjectRow.record).filter fun object => object.state ≠ .removed

/-- What a listing of a revision has for a row. -/
def Catalog.listedAt (c : Catalog ρ) (revision : ℕ) (row : ObjectRow ρ) :
    Option (ObjectRecord ρ) :=
  if row.createdRevision ≤ revision then
    (c.versionAt revision row.record.id).filter fun object => object.state ≠ .removed
  else none

/-- The objects of a page are those of its rows. -/
lemma versions_eq {rows : List (ObjectRow ρ)} {objects : List (ObjectRecord ρ)}
    (h : c.versions r rows = .ok objects) : objects = rows.filterMap (c.listedAt r) := by
  induction rows generalizing objects with
  | nil =>
    cases h
    rfl
  | cons row rows ih =>
    rw [filterMap_cons, Catalog.listedAt]
    rw [Catalog.versions] at h
    split_ifs at h ⊢ with hcreated
    · cases hversion : c.versionAt r row.record.id with
      | none =>
        rw [hversion] at h
        cases h
      | some object =>
        rw [hversion] at h
        obtain ⟨rest, hrest, h⟩ := Loops.bind_eq_ok.mp h
        cases h
        rw [← ih hrest, Option.filter_some]
        split_ifs <;> simp_all
    · exact ih h

/-- What a listing has for a row is about its object. -/
lemma id_of_listedAt {row : ObjectRow ρ} (h : c.listedAt r row = some object) :
    object.id = row.record.id := by
  unfold Catalog.listedAt at h
  split_ifs at h
  exact (Catalog.isVersion_of_versionAt (Option.filter_eq_some_iff.mp h).1).1

/-- The query for a version finds one that is the newest. -/
lemma Catalog.IsVersion.versionAt_eq (h : c.IsVersion r version) :
    c.versionAt r version.id = some version := by
  cases hfound : c.versionAt r version.id with
  | none =>
    have hnone := find?_eq_none.mp hfound version h.mem
    simp [h.le] at hnone
  | some found =>
    obtain ⟨hid, hversion⟩ := Catalog.isVersion_of_versionAt hfound
    rw [hversion.unique h hid]

/-- **What the tables have for a revision is what there was**, beyond any cursor. -/
lemma Since.listed_eq (h : Since o s) (cursor : CatalogCursor) :
    (s.catalog.objects.filter fun row => cursor.beyond row.record.id).filterMap
        (s.catalog.listedAt o.revision) =
      o.listed.filter fun object => cursor.beyond object.id := by
  have hat : ∀ row ∈ s.catalog.objects, row.createdRevision ≤ o.revision → ∃ old ∈ o.objects,
      old.record.id = row.record.id ∧ s.catalog.listedAt o.revision row =
        (some old.record).filter fun object => object.state ≠ .removed := by
    intro row hrow hcreated
    obtain ⟨old, hold, hid, hversion⟩ := h.version row hrow hcreated
    refine ⟨old, hold, hid, ?_⟩
    rw [Catalog.listedAt, if_pos hcreated, ← hid, hversion.versionAt_eq]
  refine Ascending.eq_of_mem_iff (?_ : Ascending ObjectRecord.id _) ?_ fun object => ?_
  · refine List.Pairwise.filterMap _ (fun a b hlt x hx y hy => ?_) (s.catalog.ordered.filter _)
    rw [id_of_listedAt hx, id_of_listedAt hy]
    exact hlt
  · have hasc : Ascending ObjectRecord.id (o.objects.map ObjectRow.record) :=
      pairwise_map.mpr o.ordered
    exact (hasc.filter _).filter _
  · simp only [mem_filterMap, mem_filter, Catalog.listed, mem_map]
    constructor
    · rintro ⟨row, ⟨hrow, hbeyond⟩, hlisted⟩
      by_cases hcreated : row.createdRevision ≤ o.revision
      · obtain ⟨old, hold, hid, hat⟩ := hat row hrow hcreated
        rw [hat, Option.filter_eq_some_iff] at hlisted
        obtain ⟨heq, hlives⟩ := hlisted
        cases heq
        exact ⟨⟨⟨old, hold, rfl⟩, hlives⟩, hid ▸ hbeyond⟩
      · simp [Catalog.listedAt, hcreated] at hlisted
    · rintro ⟨⟨⟨old, hold, rfl⟩, hlives⟩, hbeyond⟩
      obtain ⟨row, hrow, hid, hcreated⟩ := h.kept old hold (of_decide_eq_true hlives)
      obtain ⟨old', hold', hid', hat⟩ := hat row hrow (hcreated ▸ o.created old hold)
      obtain rfl := o.ordered.eq_of_key_eq hold' hold (hid'.trans hid)
      exact ⟨row, ⟨hrow, hid ▸ hbeyond⟩, hat.trans (Option.filter_eq_some_iff.mpr ⟨rfl, hlives⟩)⟩

/-- The rows after those of a page are the rows beyond its cursor. -/
lemma drop_beyond {rows : List (ObjectRow ρ)} (cursor : CatalogCursor) (limit : ℕ)
    (h : Ascending (fun row => row.record.id) rows) :
    (rows.filter fun row => cursor.beyond row.record.id).drop limit =
      rows.filter fun row => (cursor.advance ((rows.filter fun row =>
        cursor.beyond row.record.id).take limit)).beyond row.record.id := by
  generalize hl : rows.filter (fun row => cursor.beyond row.record.id) = l
  have happend := take_append_drop limit l
  cases hlast : (l.take limit).getLast? with
  | none =>
    rw [getLast?_eq_none_iff.mp hlast, nil_append] at happend
    rw [getLast?_eq_none_iff.mp hlast, happend, ← hl]
    rfl
  | some last =>
    have hasc : Ascending (fun row => row.record.id) (l.take limit ++ l.drop limit) :=
      happend.symm ▸ hl ▸ h.filter _
    obtain ⟨htake, hdrop, hbefore⟩ := Ascending.append.mp hasc
    have hmem := mem_of_getLast? hlast
    have hlastmem : last ∈ rows.filter fun row => cursor.beyond row.record.id :=
      hl ▸ mem_of_mem_take hmem
    have hbeyond : ∀ row : ObjectRow ρ, (cursor.advance (l.take limit)).beyond row.record.id =
        decide (last.record.id < row.record.id) := fun row => by
      rw [CatalogCursor.advance, hlast]
      rfl
    have hsub : ∀ row : ObjectRow ρ, decide (last.record.id < row.record.id) =
        (decide (last.record.id < row.record.id) && cursor.beyond row.record.id) := by
      intro row
      have hlower := (mem_filter.mp hlastmem).2
      rw [CatalogCursor.beyond] at hlower ⊢
      cases hafter : cursor.after with
      | none => simp
      | some after =>
        rw [hafter, Option.all_some, decide_eq_true_eq] at hlower
        rw [Option.all_some, ← Bool.decide_and]
        exact decide_eq_decide.mpr ⟨fun hlt => ⟨hlt, hlower.trans hlt⟩, And.left⟩
    simp only [hbeyond]
    rw [filter_congr fun row _ => hsub row, ← filter_filter, hl]
    nth_rewrite 2 [← happend]
    rw [filter_append, filter_eq_nil_iff.mpr fun row hrow => ?_, nil_append,
      filter_eq_self.mpr fun row hrow => decide_eq_true (hbefore last hmem row hrow)]
    exact fun hlt => absurd (of_decide_eq_true hlt)
      (Nat.not_lt.mpr (htake.le_of_getLast? hlast hrow))

/-- **A page** is what there was up to its cursor, and without a next one it is all the rest. -/
lemma Since.readPage_spec (h : Since o s) {limit : ℕ} {cursor : CatalogCursor}
    (hcursor : cursor.revision = o.revision) {page : CatalogPage ρ}
    (hpage : Namespace.readPage s.catalog limit cursor = .ok page) :
    match page.next with
    | none => o.listed.filter (fun object => cursor.beyond object.id) = page.objects
    | some next => next.ticket = cursor.ticket ∧ next.revision = o.revision ∧
        o.listed.filter (fun object => cursor.beyond object.id) =
          page.objects ++ o.listed.filter fun object => next.beyond object.id := by
  obtain ⟨objects, hobjects, hpage⟩ := Loops.bind_eq_ok.mp hpage
  cases hpage
  set rows := s.catalog.objects.filter (fun row => cursor.beyond row.record.id) with hrows
  have hsplit : o.listed.filter (fun object => cursor.beyond object.id) = objects ++
      o.listed.filter fun object => (cursor.advance (rows.take limit)).beyond object.id := by
    rw [← h.listed_eq, ← h.listed_eq, ← drop_beyond cursor limit s.catalog.ordered,
      versions_eq hobjects, hcursor, ← filterMap_append, ← hrows, take_append_drop]
  by_cases hmore : (s.catalog.objects.any fun row =>
      (cursor.advance (rows.take limit)).beyond row.record.id) = true
  · simp only [hmore, if_true]
    exact ⟨rfl, hcursor, hsplit⟩
  · simp only [hmore, Bool.false_eq_true, if_false]
    rw [hsplit, ← h.listed_eq, filter_eq_nil_iff.mpr, filterMap_nil, append_nil]
    intro row hrow hbeyond
    exact hmore (any_eq_true.mpr ⟨row, hrow, hbeyond⟩)

/-- The pages of a chain are what there was beyond its cursor. -/
lemma Listing.flatMap_eq {cursor : CatalogCursor} {pages : List (CatalogPage ρ)}
    (h : Listing s cursor pages) (hlisted : Listed o cursor.ticket s)
    (hcursor : cursor.revision = o.revision) :
    pages.flatMap CatalogPage.objects = o.listed.filter fun object => cursor.beyond object.id := by
  induction h with
  | last hrun hpage hnext =>
    have hat := hlisted.run hrun
    obtain ⟨hlive, hread, -⟩ := resume_ok hpage
    have hspec := (hat.since (hcursor ▸ hlive)).readPage_spec hcursor hread
    rw [hnext] at hspec
    rw [flatMap_singleton, hspec]
  | more hrun hpage hnext hrest ih =>
    have hat := hlisted.run hrun
    obtain ⟨hlive, hread, -⟩ := resume_ok hpage
    have hspec := (hat.since (hcursor ▸ hlive)).readPage_spec hcursor hread
    rw [hnext] at hspec
    obtain ⟨hticket, hrevision, hsplit⟩ := hspec
    rw [flatMap_cons, ih (hticket ▸ hat.resumed hpage) hrevision, hsplit]

/-- **A listing is a snapshot**: whatever happens between its pages, a listing that is followed to
its end holds the objects that existed, and were not removed, when its first page read the
revision, each once and in the order of the identities, with the record of then. -/
theorem listing_is_snapshot {maxCursors inventories : ℕ} {cursor : CatalogCursor}
    {pages : List (CatalogPage ρ)} (hs : Run.Reaches step Allowed Namespace.new s)
    (hopen : s.openCursor maxCursors inventories = .ok (cursor, s'))
    (h : Listing s' cursor pages) :
    pages.flatMap CatalogPage.objects = s.catalog.listed ∧
      Ascending ObjectRecord.id (pages.flatMap CatalogPage.objects) := by
  have hsound := Sound.of_reaches hs
  obtain ⟨rfl, rfl⟩ := openCursor_ok hopen
  have hlisted : Listed s.catalog s.drawn { s with
      cursors := ⟨s.drawn, s.catalog.revision⟩ :: s.cursors
      drawn := s.drawn + 1 } :=
    ⟨⟨hsound.current, hsound.known, hsound.withdrawn⟩, Nat.lt_succ_self _, fun _ =>
      ⟨hsound.since.revision_le, hsound.since.kept, hsound.since.version, hsound.since.same,
        hsound.since.withdrawn⟩⟩
  have hall := (h.flatMap_eq hlisted rfl).trans (filter_eq_self.mpr fun _ _ => rfl)
  have hasc : Ascending ObjectRecord.id (s.catalog.objects.map ObjectRow.record) :=
    pairwise_map.mpr s.catalog.ordered
  exact ⟨hall, hall ▸ hasc.filter _⟩

/-- While a listing of two objects is at its first, the second is removed and cleanup comes by: the
next page still has it. -/
theorem listing_is_snapshot_removed : ∃ (s s' : Namespace ℕ) (pages : List (CatalogPage ℕ)),
    s.openCursor 1 0 = .ok (⟨0, 1, 2, none⟩, s') ∧ Listing s' ⟨0, 1, 2, none⟩ pages ∧
      pages = [⟨2, 1, [⟨1, .preparing, 1, none, 1, 0⟩], some ⟨0, 1, 2, some 1⟩⟩,
        ⟨2, 1, [⟨2, .preparing, 2, none, 2, 0⟩], none⟩] ∧
      (pages.flatMap CatalogPage.objects = s.catalog.listed ∧
        Ascending ObjectRecord.id (pages.flatMap CatalogPage.objects)) := by
  have hbefore : ∀ a ∈ [Event.create 0, .create 0], ∀ s, Allowed s a := by simp [Allowed]
  have hbetween : ∀ a ∈ [Event.save ⟨2, .removed, 2, none, 2, 7⟩, .look 2, .cleanup 0 false,
      .prune 2], ∀ s, Allowed s a := by simp [Allowed]
  let s : Namespace ℕ := (Run.exec step Namespace.new [.create 0, .create 0]).getD .new
  let s' : Namespace ℕ := { s with cursors := [⟨1, 2⟩], drawn := 2 }
  have hs : Run.Reaches step Allowed Namespace.new s := .of_exec_allowed hbefore rfl
  have hopen : s.openCursor 1 0 = .ok (⟨0, 1, 2, none⟩, s') := rfl
  have hlisting : Listing s' ⟨0, 1, 2, none⟩
      [⟨2, 1, [⟨1, .preparing, 1, none, 1, 0⟩], some ⟨0, 1, 2, some 1⟩⟩,
        ⟨2, 1, [⟨2, .preparing, 2, none, 2, 0⟩], none⟩] :=
    .more (.refl _) (show Namespace.resume _ 1 _ = _ from rfl) rfl
      (.last (.of_exec_allowed hbetween rfl) (show Namespace.resume _ 1 _ = _ from rfl) rfl)
  exact ⟨s, s', _, hopen, hlisting, rfl, listing_is_snapshot hs hopen hlisting⟩

end Tgrep.Managed.Paging
