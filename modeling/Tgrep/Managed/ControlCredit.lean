import Tgrep.Managed.ControlRemoval
import Tgrep.Managed.VerificationPages

/-!
# The removal of a control file is credited once

Whatever the calls do and whoever gets in between, the credited bytes grow by the recorded length
when the row becomes removed, and never again. Until then the row is as its producer wrote it, but
for an intent; and an intent is stored by a call that has read the recorded content.

## Main definitions

* `Intended`, `Live`: a row with an intent, and a row that is not removed.
* `AsRecorded`: a file that is as its producer recorded it.
* `CallOk`, `Inv`: what holds of a call, and of everything.
* `Step`: what the next step of a call can do.
* `Looked`: a call has seen the file as recorded, just before it decided to unlink it.

## Main results

* `next_step`, `step_inv`: every step keeps the invariant.
* `looked_of_reaches`: who is about to unlink has looked.
* `recovers`: a call that finds no file but the intent credits it.
* `control_removal_credited_once`: the accounts of every run.
-/

namespace Tgrep.Managed.ControlRemoval

open Function Loops Option List

open Authentication (Digest MemberSeal)

section Credit

variable {η : Type} (blake3 : IncrementalHash UInt8 η Digest) {process : ℕ → ℕ}

/-! ## What the looks say -/

variable {u : Unit} {phase : Phase} {d : Disk} {memberSeal : MemberSeal} {row : ControlFile}

/-- What the producer has recorded. -/
lemma registerControl_ok {producer : ℕ} {intended : List UInt8} {allocated : Measurement}
    (h : registerControl blake3 d producer intended allocated = .ok row) :
    ∃ memberSeal, MemberSeal.bounded blake3 intended = .ok memberSeal ∧
      row.memberSeal = some memberSeal ∧ row.checksum = blake3.hash intended ∧
      row.logicalBytes = intended.length ∧ intended.length ≤ 4096 ∧ row.pendingLength = none ∧
      row.pendingManifest = none ∧ row.removed = false := by
  unfold registerControl at h
  split at h
  · cases h
  · rw [bind_eq_ok] at h
    obtain ⟨_, -, h⟩ := h
    rw [require_bind_eq_ok] at h
    obtain ⟨hlength, h⟩ := h
    rw [bind_eq_ok] at h
    obtain ⟨memberSeal, hbounded, h⟩ := h
    rw [require_bind_eq_ok] at h
    obtain ⟨⟨rfl, hbytes⟩, h⟩ := h
    rw [bind_eq_ok] at h
    obtain ⟨ownership, -, h⟩ := h
    rw [Except.ok.injEq] at h
    subst h
    exact ⟨memberSeal, hbounded, rfl, rfl, congrArg length hbytes, hbytes ▸ hlength, rfl, rfl,
      rfl⟩

variable {w : Work} {e : Event} {f : Inode} {stage : Stage} {n : NativeFile}
  {credit : Option (ℕ × ℕ)}

/-- The name stands for the file that is observed. -/
lemma observeFile_ok {i : ℕ} (h : d.observeFile = .ok i) : d.named = some i := by
  unfold Disk.observeFile at h
  split at h
  · cases h
  · rename_i j hj
    rw [require_bind_eq_ok, Except.ok.injEq] at h
    rw [hj, h.2]

/-- A handle is opened of the file as it is. -/
lemma open_ok (h : NativeFile.open d = .ok (some n)) : n.change = (d.inode n.file).change := by
  unfold NativeFile.open at h
  split at h
  · cases h
  · rw [bind_eq_ok] at h
    obtain ⟨_, -, h⟩ := h
    rw [Except.ok.injEq, some.injEq] at h
    subst h
    rfl

/-- What a look at an open file says. -/
lemma recheck_ok (h : recheck d row n = .ok u) :
    (d.inode n.file).change = n.change ∧ n.file = row.identity ∧
      (d.inode n.file).bytes.length = row.logicalBytes ∧ (d.inode n.file).regular = true ∧
      (d.inode n.file).links = 1 ∧ (d.inode n.file).ownership = row.ownership ∧
      d.named = some row.identity := by
  simp only [recheck, NativeFile.check, bind_eq_ok, require_eq_ok] at h
  obtain ⟨_, hchange, _, ⟨hfile, hlength⟩, ownership, hcapture, _, hownership, observed, hobserved,
    _, hsame, -⟩ := h
  rw [Inode.capture, bind_eq_ok] at hcapture
  obtain ⟨_, hplain, hcapture⟩ := hcapture
  rw [Inode.plain, require_bind_eq_ok, require_eq_ok] at hplain
  obtain ⟨hregular, hlinks⟩ := hplain
  rw [Except.ok.injEq] at hcapture
  exact ⟨hchange, hfile, hlength, hregular, hlinks, hcapture.trans hownership,
    hsame ▸ observeFile_ok hobserved⟩

/-- The seal that a deletion needs is that of the row, and of its length. -/
lemma deletionSeal_ok (h : row.deletionSeal blake3 = .ok memberSeal) :
    row.memberSeal = some memberSeal ∧ memberSeal.length.toNat = row.logicalBytes := by
  unfold ControlFile.deletionSeal at h
  split at h
  · cases h
  · rename_i found hfound
    rw [bind_eq_ok] at h
    obtain ⟨_, -, h⟩ := h
    rw [require_bind_eq_ok, Except.ok.injEq] at h
    obtain ⟨hchecks, rfl⟩ := h
    simp only [not_or, ne_eq, Decidable.not_not] at hchecks
    exact ⟨hfound, hchecks.1⟩

/-- The file begins with what its producer intended. -/
def Authentic (row : ControlFile) (memberSeal : MemberSeal) (bytes : List UInt8) : Prop :=
  blake3.hash (bytes.take memberSeal.length.toNat) = row.checksum ∧
    MemberSeal.bounded blake3 (bytes.take memberSeal.length.toNat) = .ok memberSeal

/-- Only such a file is authentic. -/
lemma authenticate_ok (h : authenticate blake3 f row memberSeal = .ok u) :
    Authentic blake3 row memberSeal f.bytes := by
  simp only [authenticate, bind_eq_ok, require_eq_ok] at h
  obtain ⟨_, -, _, hhash, found, hfound, hsame⟩ := h
  exact ⟨hhash, hsame ▸ hfound⟩

/-- Unlinking leaves every file as it was, but for its names. -/
lemma unlink_ok {d' : Disk} (h : d.unlink = .ok d') : d.Follows d' := by
  unfold Disk.unlink at h
  split at h
  · cases h
  · rename_i i hi
    rw [Except.ok.injEq] at h
    subst h
    intro j
    by_cases hj : j = i
    · subst hj
      right
      simp
    · left
      exact update_of_ne hj _ _

/-- Nothing has changed. -/
lemma Disk.Follows.refl (d : Disk) : d.Follows d := fun _ => .inl rfl

/-! ## The row -/

/-- The row has an intent for exactly what the producer recorded. -/
def Intended (r₀ row : ControlFile) : Prop :=
  row.pendingLength = some r₀.logicalBytes ∧
    ∃ memberSeal, r₀.memberSeal = some memberSeal ∧ row.pendingManifest = some memberSeal.manifest

/-- The row is as the producer wrote it, but for an intent. -/
structure Live (r₀ row : ControlFile) : Prop where
  evidence : row.SameEvidence r₀
  length : row.logicalBytes = r₀.logicalBytes
  intent : row.pendingLength = none ∧ row.pendingManifest = none ∨ Intended r₀ row

/-- What the row must say when the file is about to be unlinked, and from then on. -/
def Stored (r₀ row : ControlFile) : Prop := row.removed = true ∨ Intended r₀ row

/-- Storing an intent. -/
lemma intend_of_live {r₀ : ControlFile} (hseal : r₀.memberSeal = some memberSeal)
    (hlive : row.removed = false → Live r₀ row) :
    (row.intend memberSeal).removed = row.removed ∧ Stored r₀ (row.intend memberSeal) ∧
      (row.removed = false → Live r₀ (row.intend memberSeal)) := by
  unfold ControlFile.intend
  cases hremoved : row.removed with
  | true =>
    rw [if_pos rfl]
    exact ⟨hremoved, .inl hremoved, nofun⟩
  | false =>
    have hl := hlive hremoved
    have hintended : Intended r₀
        { row with
          pendingLength := some row.logicalBytes
          pendingManifest := some memberSeal.manifest } :=
      ⟨congrArg some hl.length, memberSeal, hseal, rfl⟩
    rw [if_neg (by simp)]
    exact ⟨rfl, .inr hintended, fun _ => ⟨hl.evidence, hl.length, .inr hintended⟩⟩

/-- A removal that a call reports: it has credited the length, all in one way, or nothing. -/
def Removal.Of (r : Removal) (length : ℕ) : Prop :=
  (r.removed = true → r.logicalBytes + r.recoveredLogicalBytes = length ∧
      (r.logicalBytes = 0 ∨ r.recoveredLogicalBytes = 0)) ∧
    (r.removed = false → r.logicalBytes = 0 ∧ r.recoveredLogicalBytes = 0)

/-- What the crediting transaction does: nothing if the row is removed, else it credits what the
intent says. -/
lemma creditRemoval_ok {row' : ControlFile} {credit' : Option (ℕ × ℕ)} {recovered : Bool}
    {verificationBytes : ℕ} {removal : Removal}
    (h : creditRemoval row credit recovered verificationBytes = .ok (row', credit', removal)) :
    row.removed = true ∧ row' = row ∧ credit' = credit ∧ removal = {} ∨
      ∃ bytes, row.removed = false ∧ row.pendingLength = some bytes ∧ row'.removed = true ∧
        credit' = some ((credit.getD (0, 0)).1 + bytes,
          (credit.getD (0, 0)).2 + if recovered then bytes else 0) ∧
        removal.removed = true ∧ removal.Of bytes := by
  unfold creditRemoval at h
  split at h
  · rename_i hremoved
    simp only [Except.ok.injEq, Prod.mk.injEq] at h
    exact .inl ⟨hremoved, h.1.symm, h.2.1.symm, h.2.2.symm⟩
  · rename_i hremoved
    split at h
    · cases h
    · rename_i bytes hbytes
      dsimp only at h
      split at h
      · cases h
      · cases h
      · rename_i total recoveredTotal htotal hrecovered
        rw [Counter.checkedAdd_eq_some] at htotal hrecovered
        simp only [Except.ok.injEq, Prod.mk.injEq] at h
        obtain ⟨rfl, rfl, rfl⟩ := h
        refine .inr ⟨bytes, by simpa using hremoved, hbytes, rfl, ?_, rfl, ?_, nofun⟩
        · rw [htotal.1, hrecovered.1]
        · intro _
          cases recovered <;> simp

/-- A removal whose intent is stored can be credited, while the credit fits. -/
lemma creditRemoval_of_intent {bytes : ℕ} (recovered : Bool) (verificationBytes : ℕ)
    (hremoved : row.removed = false) (hbytes : row.pendingLength = some bytes)
    (htotal : (credit.getD (0, 0)).1 + bytes < Counter.size)
    (hrecovered : (credit.getD (0, 0)).2 + bytes < Counter.size) :
    ∃ row' credit', creditRemoval row credit recovered verificationBytes =
      .ok (row', credit', ⟨true, if recovered then 0 else bytes, if recovered then bytes else 0,
        verificationBytes⟩) ∧ row'.removed = true := by
  have hsome : (credit.getD (0, 0)).2 + (if recovered then bytes else 0) < Counter.size := by
    cases recovered <;> simp only [Bool.false_eq_true, if_false, if_true] <;> omega
  have h₁ := Counter.checkedAdd_eq_some.mpr ⟨rfl, htotal⟩
  have h₂ := Counter.checkedAdd_eq_some.mpr ⟨rfl, hsome⟩
  unfold creditRemoval
  rw [hremoved, hbytes]
  simp only [Bool.false_eq_true, if_false, h₁, h₂]
  exact ⟨_, _, rfl, rfl⟩

/-! ## The invariant -/

/-- How many steps a call has done since it opened the file. -/
def Stage.rank : Stage → ℕ
  | .opened => 0
  | .checked => 1
  | .authenticated => 2
  | .rechecked => 3
  | .intended => 4
  | .admitted => 5
  | .cleared => 6
  | .verified => 7
  | .unlinked => 8
  | .settled => 9

/-- What holds of a call that has the file open. -/
structure HeldOk (r₀ row : ControlFile) (d : Disk) (stage : Stage) (w : Work) : Prop where
  live : Live r₀ w.row
  sealed : r₀.memberSeal = some w.memberSeal
  length : w.memberSeal.length.toNat = r₀.logicalBytes
  later : w.native.change ≤ (d.inode w.native.file).change
  authentic : 2 ≤ stage.rank → (d.inode w.native.file).change = w.native.change →
    Authentic blake3 w.row w.memberSeal (d.inode w.native.file).bytes
  stored : 4 ≤ stage.rank → Stored r₀ row

/-- What holds of a call, given the row and the files. -/
def CallOk (r₀ row : ControlFile) (d : Disk) : Phase → Prop
  | .current r => Live r₀ r
  | .validated r memberSeal _ =>
    Live r₀ r ∧ r₀.memberSeal = some memberSeal ∧ memberSeal.length.toNat = r₀.logicalBytes
  | .held stage w => HeldOk blake3 r₀ row d stage w
  | .missing _ memberSeal => r₀.memberSeal = some memberSeal
  | .crediting _ _ => Stored r₀ row
  | .finished (.ok r) => row.removed = true ∧ r.Of r₀.logicalBytes
  | _ => True

/-- What holds of the row and of the credit, given the first ones. -/
structure SharedInv (r₀ : ControlFile) (credit₀ : Option (ℕ × ℕ)) (s : Shared) : Prop where
  live : s.row.removed = false → Live r₀ s.row
  uncredited : s.row.removed = false → s.credit = credit₀
  credited : s.row.removed = true → ∃ recovered : Bool,
    s.credit = some ((credit₀.getD (0, 0)).1 + r₀.logicalBytes,
      (credit₀.getD (0, 0)).2 + if recovered then r₀.logicalBytes else 0)

/-- What every step leaves to the other calls. -/
structure Later (r₀ : ControlFile) (s s' : Shared) : Prop where
  disk : s.disk.Follows s'.disk
  stored : Stored r₀ s.row → Stored r₀ s'.row
  removed : s.row.removed = true → s'.row.removed = true

/-- What holds of everything. -/
structure Inv (r₀ : ControlFile) (credit₀ : Option (ℕ × ℕ)) (s : State) : Prop where
  shared : SharedInv r₀ credit₀ s.shared
  calls : ∀ c, CallOk blake3 r₀ s.shared.row s.shared.disk (s.calls c)
  once : ∀ c c' r r', s.calls c = .finished (.ok r) → s.calls c' = .finished (.ok r') →
    r.removed = true → r'.removed = true → c = c'

/-- What the next step of a call can do. -/
structure Step (r₀ : ControlFile) (credit₀ : Option (ℕ × ℕ)) (s : Shared) (phase : Phase)
    (next : Shared × Phase) : Prop where
  shared : SharedInv r₀ credit₀ next.1
  later : Later r₀ s next.1
  call : CallOk blake3 r₀ next.1.row next.1.disk next.2
  first : ∀ r, next.2 = .finished (.ok r) → r.removed = true → s.row.removed = false
  disk : next.1.disk = s.disk ∨
    ∃ w, phase = .held .verified w ∧ s.disk.unlink = .ok next.1.disk
  intended : s.row.removed = false → next.1.row.removed = true → Intended r₀ s.row
  held : ∀ stage w, next.2 = .held stage w → 6 ≤ stage.rank →
    (∃ stage', phase = .held stage' w ∧ 6 ≤ stage'.rank) ∨
      phase = .held .admitted w ∧ stage = .cleared ∧ recheck s.disk w.row w.native = .ok ()

variable {blake3} {r₀ : ControlFile} {credit₀ : Option (ℕ × ℕ)} {c : ℕ}

/-- What holds of a call goes on to hold. -/
lemma CallOk.mono {s s' : Shared} (h : CallOk blake3 r₀ s.row s.disk phase) (hl : Later r₀ s s') :
    CallOk blake3 r₀ s'.row s'.disk phase := by
  cases phase with
  | held stage w =>
    have hlater := h.later
    -- The file is the same, or it has changed for good.
    rcases hl.disk w.native.file with heq | hlt
    · refine ⟨h.live, h.sealed, h.length, ?_, ?_, fun hrank => hl.stored (h.stored hrank)⟩
      · rw [heq]
        exact hlater
      · rw [heq]
        exact h.authentic
    · exact ⟨h.live, h.sealed, h.length, by omega, fun _ hchange => by omega,
        fun hrank => hl.stored (h.stored hrank)⟩
  | crediting recovered verificationBytes => exact hl.stored h
  | finished result =>
    cases result with
    | ok r => exact ⟨hl.removed h.1, h.2⟩
    | error e => trivial
  | _ => exact h

/-! ## The steps of a call -/

section Steps

variable {s : Shared} {phase : Phase}

/-- A step that changes only the phase. -/
lemma Step.quiet {phase' : Phase} (hs : SharedInv r₀ credit₀ s)
    (hcall : CallOk blake3 r₀ s.row s.disk phase')
    (hfirst : ∀ r, phase' = .finished (.ok r) → r.removed = true → s.row.removed = false)
    (hheld : ∀ stage w, phase' = .held stage w → 6 ≤ stage.rank →
      (∃ stage', phase = .held stage' w ∧ 6 ≤ stage'.rank) ∨
        phase = .held .admitted w ∧ stage = .cleared ∧
          recheck s.disk w.row w.native = .ok ()) :
    Step blake3 r₀ credit₀ s phase (s, phase') where
  shared := hs
  later := ⟨.refl _, id, id⟩
  call := hcall
  first := hfirst
  disk := .inl rfl
  intended h h' := Bool.noConfusion (h.symm.trans h')
  held := hheld

/-- A phase in which the call does not have the file open and has not returned a removal. -/
def Phase.Plain : Phase → Prop
  | .held _ _ | .finished (.ok _) => False
  | _ => True

variable (hs : SharedInv r₀ credit₀ s)

include hs

/-- A step to such a phase. -/
lemma Step.plain {phase' : Phase}
    (hcall : CallOk blake3 r₀ s.row s.disk phase') (hplain : phase'.Plain) :
    Step blake3 r₀ credit₀ s phase (s, phase') := by
  refine .quiet hs hcall ?_ ?_
  · rintro r rfl
    exact hplain.elim
  · rintro stage w rfl
    exact hplain.elim

/-- The call returns an error. -/
lemma Step.error (e : Error) :
    Step blake3 r₀ credit₀ s phase (s, .finished (.error e)) := .plain hs trivial trivial

/-- The call returns because the removal was credited already. -/
lemma Step.already (h : s.row.removed = true) :
    Step blake3 r₀ credit₀ s phase (s, .finished (.ok {})) := by
  refine .quiet hs ⟨h, nofun, fun _ => ⟨rfl, rfl⟩⟩ (fun r hr hremoved => ?_)
    fun _ _ h => (nomatch h)
  cases hr
  cases hremoved

/-- A call that has the file open goes on if the look is good. -/
lemma Step.look {stage stage' : Stage} {w : Work} {look : Except Error Unit}
    (hw : HeldOk blake3 r₀ s.row s.disk stage w)
    (hauthentic : look = .ok () → 2 ≤ stage'.rank → 2 ≤ stage.rank ∨
      Authentic blake3 w.row w.memberSeal (s.disk.inode w.native.file).bytes)
    (hstored : 4 ≤ stage'.rank → 4 ≤ stage.rank)
    (hheld : look = .ok () → 6 ≤ stage'.rank → 6 ≤ stage.rank ∨
      stage = .admitted ∧ stage' = .cleared ∧ recheck s.disk w.row w.native = .ok ()) :
    Step blake3 r₀ credit₀ s (.held stage w) (s, proceed look (.held stage' w)) := by
  cases look with
  | error e => exact .error hs e
  | ok u =>
    refine .quiet hs ⟨hw.live, hw.sealed, hw.length, hw.later, fun hrank hchange => ?_,
      fun hrank => hw.stored (hstored hrank)⟩ (fun _ h => (nomatch h)) ?_
    · rcases hauthentic rfl hrank with h | h
      · exact hw.authentic h hchange
      · exact h
    · intro stage'' w' h hrank
      cases h
      rcases hheld rfl hrank with h | ⟨rfl, rfl, h⟩
      · exact .inl ⟨stage, rfl, h⟩
      · exact .inr ⟨rfl, rfl, h⟩

/-- A step of a call that has the file open. -/
lemma nextHeld_step {stage : Stage} {w : Work} (hw : HeldOk blake3 r₀ s.row s.disk stage w) :
    Step blake3 r₀ credit₀ s (.held stage w) (nextHeld blake3 s stage w) := by
  cases stage with
  | opened => exact .look hs hw (fun _ => nofun) (by decide) fun _ => nofun
  | checked =>
    exact .look hs hw (fun h _ => .inr (authenticate_ok blake3 h)) (by decide) fun _ => nofun
  | authenticated => exact .look hs hw (fun _ _ => .inl le_rfl) (by decide) fun _ => nofun
  | rechecked =>
    -- From here on the row has the intent, whoever else is at work.
    obtain ⟨hremoved, hstored, hlive⟩ := intend_of_live hw.sealed hs.live
    exact
      { shared := ⟨fun h => hlive (hremoved ▸ h), fun h => hs.uncredited (hremoved ▸ h),
          fun h => hs.credited (hremoved ▸ h)⟩
        later := ⟨.refl _, fun _ => hstored, fun h => hremoved.trans h⟩
        call := ⟨hw.live, hw.sealed, hw.length, hw.later, fun _ => hw.authentic (by decide),
          fun _ => hstored⟩
        first := fun _ h => (nomatch h)
        disk := .inl rfl
        intended := fun h h' => Bool.noConfusion (h.symm.trans (hremoved.symm.trans h'))
        held := fun _ _ h hrank => by
          cases h
          exact absurd hrank (by decide) }
  | intended =>
    exact .look hs hw (fun _ _ => .inl (by decide)) (by decide) fun _ => nofun
  | admitted =>
    exact .look hs hw (fun _ _ => .inl (by decide)) (by decide) fun h _ =>
      .inr ⟨rfl, rfl, h⟩
  | cleared =>
    exact .look hs hw (fun _ _ => .inl (by decide)) (by decide) fun _ _ => .inl le_rfl
  | verified =>
    rw [nextHeld]
    split
    · exact .error hs _
    · rename_i disk hdisk
      have hlater : Later r₀ s { s with disk := disk } := ⟨unlink_ok hdisk, id, id⟩
      have hcall : CallOk blake3 r₀ s.row s.disk (.held .unlinked w) :=
        ⟨hw.live, hw.sealed, hw.length, hw.later, fun _ => hw.authentic (by decide),
          fun _ => hw.stored (by decide)⟩
      exact
        { shared := ⟨hs.live, hs.uncredited, hs.credited⟩
          later := hlater
          call := hcall.mono hlater
          first := fun _ h => (nomatch h)
          disk := .inr ⟨w, rfl, hdisk⟩
          intended := fun h h' => Bool.noConfusion (h.symm.trans h')
          held := fun _ _ h _ => by
            cases h
            exact .inl ⟨_, rfl, by decide⟩ }
  | unlinked =>
    exact .look hs hw (fun _ _ => .inl (by decide)) (by decide) fun _ _ => .inl (by decide)
  | settled =>
    rw [nextHeld]
    cases s.disk.confirmUnlinked with
    | error e => exact .error hs e
    | ok u => exact .plain hs (hw.stored (by decide)) trivial

/-- The crediting step. -/
lemma credit_step (hstored : Stored r₀ s.row)
    {recovered : Bool} {verificationBytes : ℕ} {row : ControlFile} {credit : Option (ℕ × ℕ)}
    {removal : Removal}
    (h : creditRemoval s.row s.credit recovered verificationBytes = .ok (row, credit, removal)) :
    Step blake3 r₀ credit₀ s phase
      ({ s with row := row, credit := credit }, .finished (.ok removal)) := by
  rcases creditRemoval_ok h with
    ⟨hremoved, rfl, rfl, rfl⟩ | ⟨bytes, hremoved, hbytes, hgone, hcredit, -, hof⟩
  · exact .already hs hremoved
  · -- The row is not removed, so it has the intent for the recorded length.
    have hintended : Intended r₀ s.row :=
      hstored.resolve_left fun h => Bool.noConfusion (h.symm.trans hremoved)
    obtain rfl : bytes = r₀.logicalBytes := some.inj (hbytes.symm.trans hintended.1)
    have hgone' : row.removed = false → False := fun h => Bool.noConfusion (h.symm.trans hgone)
    exact
      { shared := ⟨fun h => (hgone' h).elim, fun h => (hgone' h).elim,
          fun _ => ⟨recovered, by rw [hcredit, hs.uncredited hremoved]⟩⟩
        later := ⟨.refl _, fun _ => .inl hgone, fun _ => hgone⟩
        call := ⟨hgone, hof⟩
        first := fun _ _ _ => hremoved
        disk := .inl rfl
        intended := fun _ _ => hintended
        held := fun _ _ h => (nomatch h) }

/-- **The step of a call**, in whatever phase it is. -/
theorem next_step (hc : CallOk blake3 r₀ s.row s.disk phase) (hnot : ¬ phase.Ended) (free : Bool) :
    Step blake3 r₀ credit₀ s phase (next blake3 s free phase) := by
  cases phase with
  | started =>
    rw [next]
    split
    · rename_i hremoved
      exact .already hs hremoved
    · exact .plain hs trivial trivial
  | observed row =>
    rw [next]
    split
    · exact .plain hs trivial trivial
    · exact .error hs _
  | entered row =>
    rw [next]
    split_ifs with hsame hremoved
    · exact .already hs hremoved
    · exact .plain hs (hs.live (by simpa using hremoved)) trivial
    · exact .error hs _
  | current row =>
    have hlive : Live r₀ row := hc
    rw [next]
    split
    · exact .error hs _
    · rename_i memberSeal hseal
      obtain ⟨hsealed, hlength⟩ := deletionSeal_ok blake3 hseal
      exact .plain hs
        ⟨hlive, hlive.evidence.2.2.1.symm.trans hsealed, hlength.trans hlive.length⟩ trivial
  | validated row memberSeal versions =>
    obtain ⟨hlive, hsealed, hlength⟩ := hc
    rw [next]
    split
    · exact .error hs _
    · exact .plain hs hsealed trivial
    · rename_i native hopen
      have hheld : HeldOk blake3 r₀ s.row s.disk .opened ⟨row, memberSeal, versions, native⟩ :=
        ⟨hlive, hsealed, hlength, (open_ok hopen).le, fun h => absurd h (by decide),
          fun h => absurd h (by decide)⟩
      refine .quiet hs hheld (fun _ h => (nomatch h)) ?_
      intro stage w h hrank
      cases h
      exact absurd hrank (by decide)
  | held stage w => exact nextHeld_step hs hc
  | missing row memberSeal =>
    have hsealed : r₀.memberSeal = some memberSeal := hc
    rw [next]
    split_ifs with hsame hremoved hintent
    · exact .already hs hremoved
    · exact .error hs _
    · simp only [ne_eq, not_or, Decidable.not_not] at hintent
      have hlive := hs.live (by simpa using hremoved)
      refine .plain hs (.inr ⟨?_, memberSeal, hsealed, hintent.2⟩) trivial
      exact hintent.1.trans (congrArg some hlive.length)
    · exact .error hs _
  | crediting recovered verificationBytes =>
    rw [next]
    split
    · exact .error hs _
    · rename_i row credit removal hcredit
      exact credit_step hs hc hcredit
  | finished result => exact absurd trivial hnot
  | stopped => exact absurd trivial hnot

end Steps

/-! ## Everything that may happen -/

variable {process : ℕ → ℕ} {s s' : State}

/-- The phases after a call has come to a phase. -/
lemma put_calls (shared : Shared) (phase : Phase) (c' : ℕ) :
    ({ s with shared := shared }.put process c phase).calls c' =
      if c' = c then phase else s.calls c' := update_apply ..

/-- A call comes to a phase. Only the first one that returns a removal does so. -/
lemma Inv.put (process : ℕ → ℕ) (c : ℕ) (hi : Inv blake3 r₀ credit₀ s) {shared : Shared}
    (hs : SharedInv r₀ credit₀ shared) (hl : Later r₀ s.shared shared)
    (hcall : CallOk blake3 r₀ shared.row shared.disk phase)
    (hfirst : ∀ r, phase = .finished (.ok r) → r.removed = true → s.shared.row.removed = false) :
    Inv blake3 r₀ credit₀ ({ s with shared := shared }.put process c phase) where
  shared := hs
  calls c' := by
    rw [put_calls]
    split_ifs
    · exact hcall
    · exact (hi.calls c').mono hl
  once c₁ c₂ r₁ r₂ h₁ h₂ hr₁ hr₂ := by
    have hnone : phase = .finished (.ok r₁) ∨ phase = .finished (.ok r₂) → ∀ c' r',
        s.calls c' ≠ .finished (.ok r') := by
      intro hphase c' r' hc'
      have hok := hi.calls c'
      rw [hc'] at hok
      rcases hphase with h | h
      · exact Bool.noConfusion (hok.1.symm.trans (hfirst r₁ h hr₁))
      · exact Bool.noConfusion (hok.1.symm.trans (hfirst r₂ h hr₂))
    rw [put_calls] at h₁ h₂
    split_ifs at h₁ h₂ with e₁ e₂ e₂
    · rw [e₁, e₂]
    · exact absurd h₂ (hnone (.inl h₁) c₂ r₂)
    · exact absurd h₁ (hnone (.inr h₂) c₁ r₁)
    · exact hi.once c₁ c₂ r₁ r₂ h₁ h₂ hr₁ hr₂

/-- Calls are stopped, and then it does not matter what the files are. -/
lemma Inv.stop (hi : Inv blake3 r₀ credit₀ s) (gone : ℕ → Prop) [DecidablePred gone] (d : Disk)
    (hd : (∀ c, gone c) ∨ d = s.shared.disk) :
    Inv blake3 r₀ credit₀ { s.stop gone with shared.disk := d } where
  shared := ⟨hi.shared.live, hi.shared.uncredited, hi.shared.credited⟩
  calls c := by
    have hc := hi.calls c
    show CallOk blake3 r₀ s.shared.row d
      (if gone c ∧ ¬ (s.calls c).Ended then .stopped else s.calls c)
    split
    · trivial
    · rename_i hnot
      rcases hd with hall | rfl
      · -- What holds of a call that has ended does not depend on the files.
        have hended : (s.calls c).Ended := not_not.mp fun h => hnot ⟨hall c, h⟩
        cases hphase : s.calls c with
        | finished result =>
          rw [hphase] at hc
          cases result with
          | ok r => exact hc
          | error e => trivial
        | stopped => trivial
        | _ =>
          rw [hphase] at hended
          exact hended.elim
      · exact hc
  once c₁ c₂ r₁ r₂ h₁ h₂ := by
    have hsame : ∀ c r, (s.stop gone).calls c = .finished (.ok r) →
        s.calls c = .finished (.ok r) := by
      intro c r h
      unfold State.stop at h
      dsimp only at h
      split at h
      · cases h
      · exact h
    exact hi.once c₁ c₂ r₁ r₂ (hsame c₁ r₁ h₁) (hsame c₂ r₂ h₂)

/-- What everything that may happen can do. -/
structure Effect (blake3 : IncrementalHash UInt8 η Digest) (r₀ : ControlFile)
    (credit₀ : Option (ℕ × ℕ)) (s s' : State) (e : Event) : Prop where
  inv : Inv blake3 r₀ credit₀ s'
  removed : s.shared.row.removed = true → s'.shared.row.removed = true
  intended : s.shared.row.removed = false → s'.shared.row.removed = true → Intended r₀ s.shared.row
  disk : (∀ d, e ≠ .outside d) → (∀ d, e ≠ .powerLoss d) → s'.shared.disk = s.shared.disk ∨
    ∃ c w, s.calls c = .held .verified w ∧ s.shared.disk.unlink = .ok s'.shared.disk
  held : ∀ c stage w, s'.calls c = .held stage w → 6 ≤ stage.rank →
    (∃ stage', s.calls c = .held stage' w ∧ 6 ≤ stage'.rank) ∨
      e = .next c ∧ s.calls c = .held .admitted w ∧ stage = .cleared ∧
        recheck s.shared.disk w.row w.native = .ok ()

/-- An event that is not the step of a call. -/
lemma Effect.other (hi : Inv blake3 r₀ credit₀ s') (hrow : s'.shared.row = s.shared.row)
    (hdisk : (∀ d, e ≠ .outside d) → (∀ d, e ≠ .powerLoss d) → s'.shared.disk = s.shared.disk)
    (hcalls : ∀ c stage w, s'.calls c = .held stage w → s.calls c = .held stage w) :
    Effect blake3 r₀ credit₀ s s' e where
  inv := hi
  removed h := hrow ▸ h
  intended h h' := Bool.noConfusion (h.symm.trans (hrow ▸ h'))
  disk h h' := .inl (hdisk h h')
  held c stage w h hrank := .inl ⟨stage, hcalls c stage w h, hrank⟩

/-- **One step**: whatever happens keeps the invariant. -/
theorem step_effect (hi : Inv blake3 r₀ credit₀ s) (hok : Allowed s e)
    (h : step blake3 process s e = some s') : Effect blake3 r₀ credit₀ s s' e := by
  have hstopped : ∀ (gone : ℕ → Prop) [DecidablePred gone] (c : ℕ) (stage : Stage) (w : Work),
      (s.stop gone).calls c = .held stage w → s.calls c = .held stage w := by
    intro gone _ c stage w h
    unfold State.stop at h
    dsimp only at h
    split at h
    · cases h
    · exact h
  cases e with
  | next c =>
    simp only [step] at h
    split at h
    · cases h
    · rename_i hnot
      obtain rfl := some.inj h
      have hs := next_step hi.shared (hi.calls c) hnot (s.serial (process c)).isNone
      exact
        { inv := hi.put process c hs.shared hs.later hs.call hs.first
          removed := hs.later.removed
          intended := hs.intended
          disk := fun _ _ => hs.disk.imp id fun ⟨w, hw⟩ => ⟨c, w, hw⟩
          held := fun c' stage w hc' hrank => by
            rw [State.advance, put_calls] at hc'
            split_ifs at hc' with heq
            · subst heq
              exact (hs.held stage w hc' hrank).imp id fun h => ⟨rfl, h⟩
            · exact .inl ⟨stage, hc', hrank⟩ }
  | fail c error happened =>
    simp only [step] at h
    split at h
    · cases h
    · rename_i hnot
      obtain rfl := some.inj h
      have hs := next_step hi.shared (hi.calls c) hnot (s.serial (process c)).isNone
      have hfailed : ∀ s₁ : State, (∀ c', c' ≠ c → s₁.calls c' = s.calls c') →
          ∀ c' stage w, (s₁.put process c (.finished (.error error))).calls c' = .held stage w →
            s.calls c' = .held stage w := by
        intro s₁ hothers c' stage w hc'
        rw [show s₁ = { s₁ with shared := s₁.shared } from rfl, put_calls] at hc'
        split_ifs at hc' with heq
        exact hothers c' heq ▸ hc'
      have hlate : ∀ shared, Later r₀ shared shared := fun _ => ⟨.refl _, id, id⟩
      cases happened with
      | true =>
        have hi' := hi.put process c hs.shared hs.later hs.call hs.first
        have hothers : ∀ c', c' ≠ c → (s.advance blake3 process c).calls c' = s.calls c' :=
          fun _ h => update_of_ne h ..
        exact
          { inv := hi'.put process c hi'.shared (hlate _) trivial fun _ h => (nomatch h)
            removed := hs.later.removed
            intended := hs.intended
            disk := fun _ _ => hs.disk.imp id fun ⟨w, hw⟩ => ⟨c, w, hw⟩
            held := fun c' stage w hc' hrank =>
              .inl ⟨stage, hfailed _ hothers c' stage w hc', hrank⟩ }
      | false =>
        exact .other (hi.put process c hi.shared (hlate _) trivial fun _ h => (nomatch h)) rfl
          (fun _ _ => rfl) (hfailed s fun _ _ => rfl)
  | crash p =>
    obtain rfl := some.inj h
    exact .other (hi.stop (fun c => process c = p) s.shared.disk (.inr rfl)) rfl
      (fun _ _ => rfl) (hstopped _)
  | outside d =>
    obtain rfl := some.inj h
    have hl : Later r₀ s.shared { s.shared with disk := d } := ⟨hok, id, id⟩
    have hs : SharedInv r₀ credit₀ { s.shared with disk := d } :=
      ⟨hi.shared.live, hi.shared.uncredited, hi.shared.credited⟩
    exact .other ⟨hs, fun c => (hi.calls c).mono hl, hi.once⟩ rfl
      (fun hnot => absurd rfl (hnot d)) fun _ _ _ => id
  | replan versions =>
    obtain rfl := some.inj h
    have hs : SharedInv r₀ credit₀ { s.shared with versions := versions } :=
      ⟨hi.shared.live, hi.shared.uncredited, hi.shared.credited⟩
    exact .other ⟨hs, hi.calls, hi.once⟩ rfl (fun _ _ => rfl) fun _ _ _ => id
  | powerLoss d =>
    obtain rfl := some.inj h
    exact .other (hi.stop (fun _ => True) d (.inl fun _ => trivial)) rfl
      (fun _ hnot => absurd rfl (hnot d)) (hstopped fun _ => True)

/-! ## Runs -/

/-- The file is as its producer recorded it. -/
structure AsRecorded (blake3 : IncrementalHash UInt8 η Digest) (row : ControlFile) (d : Disk) :
    Prop where
  named : d.named = some row.identity
  regular : (d.inode row.identity).regular = true
  links : (d.inode row.identity).links = 1
  ownership : (d.inode row.identity).ownership = row.ownership
  length : (d.inode row.identity).bytes.length = row.logicalBytes
  checksum : blake3.hash (d.inode row.identity).bytes = row.checksum
  content : ∃ memberSeal, row.memberSeal = some memberSeal ∧
    MemberSeal.bounded blake3 (d.inode row.identity).bytes = .ok memberSeal

/-- The last look before the unlinking decides that the file is as recorded. -/
lemma asRecorded_of_recheck (hw : HeldOk blake3 r₀ row d stage w) (hstage : 2 ≤ stage.rank)
    (h : recheck d w.row w.native = .ok u) : AsRecorded blake3 r₀ d := by
  obtain ⟨hchange, hfile, hlength, hregular, hlinks, hownership, hnamed⟩ := recheck_ok h
  obtain ⟨hhash, hbounded⟩ := hw.authentic hstage hchange
  obtain ⟨hidentity, howner, hseal, hchecksum⟩ := hw.live.evidence
  have hi : w.native.file = r₀.identity := hfile.trans hidentity
  -- The file is exactly as long as the seal, so what was read is all of it.
  have hwhole : (d.inode w.native.file).bytes.take w.memberSeal.length.toNat =
      (d.inode w.native.file).bytes := by
    apply take_of_length_le
    rw [hlength, hw.live.length, hw.length]
  rw [hwhole] at hhash hbounded
  rw [hi] at hlength hregular hlinks hownership hhash hbounded
  exact
    { named := hnamed.trans (congrArg some hidentity)
      regular := hregular
      links := hlinks
      ownership := hownership.trans howner
      length := hlength.trans hw.live.length
      checksum := hhash.trans hchecksum
      content := ⟨w.memberSeal, hw.sealed, hbounded⟩ }

/-- Earlier in the run, the call has taken its last look at the file, which was as recorded. -/
def Looked (blake3 : IncrementalHash UInt8 η Digest) (process : ℕ → ℕ) (s₀ s : State) (c : ℕ) :
    Prop :=
  ∃ s₁ s₂ w, Run.Reaches (step blake3 process) Allowed s₀ s₁ ∧ s₁.calls c = .held .admitted w ∧
    step blake3 process s₁ (.next c) = some s₂ ∧ s₂.calls c = .held .cleared w ∧
    Run.Reaches (step blake3 process) Allowed s₂ s ∧ AsRecorded blake3 s₀.shared.row s₁.shared.disk

variable {s₀ : State} {intended : List UInt8}

/-- It holds when the file has been registered. -/
lemma registered_inv (h : Registered blake3 intended s₀) :
    Inv blake3 s₀.shared.row s₀.shared.credit s₀ := by
  obtain ⟨d, producer, allocated, hrow⟩ := h.row
  obtain ⟨memberSeal, -, -, -, -, -, hlength, hmanifest, hremoved⟩ :=
    registerControl_ok blake3 hrow
  exact
    { shared := ⟨fun _ => ⟨⟨rfl, rfl, rfl, rfl⟩, rfl, .inl ⟨hlength, hmanifest⟩⟩, fun _ => rfl,
        fun h => Bool.noConfusion (h.symm.trans hremoved)⟩
      calls := fun c => by
        rw [h.calls c]
        trivial
      once := fun c _ r _ hc => by
        rw [h.calls c] at hc
        cases hc }

/-- **Every run** keeps it. -/
theorem reaches_inv (h₀ : Registered blake3 intended s₀)
    (h : Run.Reaches (step blake3 process) Allowed s₀ s) :
    Inv blake3 s₀.shared.row s₀.shared.credit s :=
  Run.Reaches.invariant (fun _ _ _ hi hok hstep => (step_effect hi hok hstep).inv)
    (registered_inv h₀) h

/-- **Who is about to unlink has looked**: at its last look, the file was as recorded. -/
theorem looked_of_reaches (h₀ : Registered blake3 intended s₀)
    (h : Run.Reaches (step blake3 process) Allowed s₀ s) (hc : s.calls c = .held stage w)
    (hstage : 6 ≤ stage.rank) : Looked blake3 process s₀ s c := by
  induction h generalizing stage w with
  | refl =>
    rw [h₀.calls c] at hc
    cases hc
  | tail hbefore hlast ih =>
    obtain ⟨e, hok, hstep⟩ := hlast
    have heffect := step_effect (reaches_inv h₀ hbefore) hok hstep
    rcases heffect.held c stage w hc hstage with ⟨stage', hc', hstage'⟩ | ⟨rfl, hc', rfl, hlook⟩
    · obtain ⟨s₁, s₂, w₁, h₁, hcall, hone, hcleared, h₂, hrecorded⟩ := ih hc' hstage'
      exact ⟨s₁, s₂, w₁, h₁, hcall, hone, hcleared, h₂.next hok hstep, hrecorded⟩
    · have hheld := (reaches_inv h₀ hbefore).calls c
      rw [hc'] at hheld
      exact ⟨_, _, w, hbefore, hc', hstep, hc, .refl _,
        asRecorded_of_recheck hheld (by decide) hlook⟩

/-- The seal of a small content is valid, and of its length. -/
lemma bounded_ok {bytes : List UInt8} (h : MemberSeal.bounded blake3 bytes = .ok memberSeal) :
    memberSeal.validate blake3 = .ok () ∧ memberSeal.length.toNat = bytes.length ∧
      bytes.length ≤ 4096 := by
  unfold MemberSeal.bounded at h
  rw [require_bind_eq_ok, Except.ok.injEq] at h
  obtain ⟨hsmall, rfl⟩ := h
  have hsmall : bytes.length ≤ 4096 := hsmall
  have hlength : (UInt64.ofNat bytes.length).toNat = bytes.length := by
    rw [UInt64.toNat_ofNat', Nat.mod_eq_of_lt (by omega)]
  refine ⟨?_, hlength, hsmall⟩
  unfold MemberSeal.validate
  dsimp only
  rw [hlength, if_neg]
  rintro (hformat | hblocks | ⟨hzero, hmanifest⟩)
  · exact hformat rfl
  · refine hblocks ?_
    unfold Collection.divCeil Collection.BLOCK_BYTES
    cases bytes with
    | nil => rfl
    | cons byte bytes =>
      rw [length_cons] at hsmall ⊢
      rw [if_pos (cons_ne_nil _ _)]
      show 1 = _
      omega
  · cases bytes with
    | nil => exact hmanifest rfl
    | cons byte bytes =>
      rw [if_pos (cons_ne_nil _ _)] at hzero
      exact absurd hzero (by decide)

/-- A call comes to a phase in one step that changes nothing else. -/
lemma reaches_put (h : Run.Reaches (step blake3 process) Allowed s₀ s)
    (hnot : ¬ (s.calls c).Ended)
    (hnext : next blake3 s.shared (s.serial (process c)).isNone (s.calls c) =
      (s.shared, phase)) :
    Run.Reaches (step blake3 process) Allowed s₀ (s.put process c phase) := by
  refine h.next (a := .next c) trivial ((if_neg hnot).trans ?_)
  rw [State.advance, hnext]

/-- The same, if only the phase of the call matters. -/
lemma exists_reaches_put (h : Run.Reaches (step blake3 process) Allowed s₀ s)
    (hnot : ¬ (s.calls c).Ended)
    (hnext : next blake3 s.shared (s.serial (process c)).isNone (s.calls c) =
      (s.shared, phase)) :
    ∃ s', Run.Reaches (step blake3 process) Allowed s₀ s' ∧ s'.calls c = phase ∧
      s'.shared = s.shared :=
  ⟨_, reaches_put h hnot hnext, update_self .., rfl⟩

/-- **Recovery**: where an intent is left, the file is gone and nobody is at work, a call that is
not disturbed credits the recorded length. -/
theorem recovers (h₀ : Registered blake3 intended s₀)
    (h : Run.Reaches (step blake3 process) Allowed s₀ s) (hremoved : s.shared.row.removed = false)
    (hintent : s.shared.row.pendingLength ≠ none) (hgone : s.shared.disk.named = none)
    (hc : s.calls c = .started) (hfree : s.serial (process c) = none)
    (htotal : (s₀.shared.credit.getD (0, 0)).1 + intended.length < Counter.size)
    (hrecovered : (s₀.shared.credit.getD (0, 0)).2 + intended.length < Counter.size) :
    ∃ s', Run.Reaches (step blake3 process) Allowed s₀ s' ∧ s'.shared.row.removed = true ∧
      s'.calls c = .finished (.ok ⟨true, 0, intended.length, 0⟩) := by
  obtain ⟨d, producer, allocated, hrow⟩ := h₀.row
  obtain ⟨memberSeal, hbounded, hseal, -, hlogical, -⟩ := registerControl_ok blake3 hrow
  obtain ⟨hvalid, hlength, hsmall⟩ := bounded_ok hbounded
  have hi := (reaches_inv h₀ h).shared
  have hlive := hi.live hremoved
  -- The intent that is left is for exactly the recorded content.
  obtain ⟨hpending, found, hfound, hmanifest⟩ :=
    hlive.intent.resolve_left fun hn => hintent hn.1
  obtain rfl : memberSeal = found := some.inj (hseal.symm.trans hfound)
  have hsealed : s.shared.row.memberSeal = some memberSeal := hlive.evidence.2.2.1.trans hseal
  have hneeded : s.shared.row.deletionSeal blake3 = .ok memberSeal := by
    have hlogical' : s.shared.row.logicalBytes = intended.length := hlive.length.trans hlogical
    unfold ControlFile.deletionSeal
    rw [hsealed]
    dsimp only
    rw [hvalid, hpending, hmanifest, hlogical', hlength, require, if_pos]
    · rfl
    · simp only [isSome_some, ne_eq, not_true_eq_false, and_false, or_false, false_or]
      omega
  have hopen : NativeFile.open s.shared.disk = .ok none := by rw [NativeFile.open, hgone]
  have hnot : ¬ s.shared.row.removed = true := by simp [hremoved]
  have hsame : ¬ ¬ s.shared.row.SameEvidence s.shared.row := not_not.mpr ⟨rfl, rfl, rfl, rfl⟩
  -- The call reads the row, gets the access, and reads the row again.
  have h₁ := reaches_put h (by rw [hc]; exact id) (by rw [hc, next, if_neg hnot])
  have hc₁ : (s.put process c (.observed s.shared.row)).calls c = .observed s.shared.row :=
    update_self ..
  obtain ⟨s₂, h₂, hc₂, hs₂⟩ := exists_reaches_put h₁ (by rw [hc₁]; exact id) (by
    rw [hc₁]
    show next blake3 s.shared (s.serial (process c)).isNone _ =
      (s.shared, .entered s.shared.row)
    rw [hfree]
    rfl)
  have hs₂ : s₂.shared = s.shared := hs₂
  obtain ⟨s₃, h₃, hc₃, hs₃⟩ := exists_reaches_put h₂ (by rw [hc₂]; exact id)
    (by rw [hc₂, hs₂, next, if_neg hsame, if_neg hnot])
  -- The seal is valid, there is no file, and the intent is there.
  obtain ⟨s₄, h₄, hc₄, hs₄⟩ := exists_reaches_put h₃ (by rw [hc₃]; exact id)
    (by rw [hc₃, hs₃, hs₂, next, hneeded])
  obtain ⟨s₅, h₅, hc₅, hs₅⟩ := exists_reaches_put h₄ (by rw [hc₄]; exact id)
    (by rw [hc₄, hs₄, hs₃, hs₂, next, hopen])
  obtain ⟨s₆, h₆, hc₆, hs₆⟩ := exists_reaches_put h₅ (by rw [hc₅]; exact id) (by
    rw [hc₅, hs₅, hs₄, hs₃, hs₂, next, if_neg hsame, if_neg hnot,
      if_neg (by rw [hpending, hmanifest, hlive.length]; simp)])
  have hs₆ : s₆.shared = s.shared := by rw [hs₆, hs₅, hs₄, hs₃, hs₂]
  -- So the transaction credits the length.
  rw [← hi.uncredited hremoved] at htotal hrecovered
  rw [hlogical] at hpending
  obtain ⟨row, credit, hlast, hdone⟩ :=
    creditRemoval_of_intent true 0 hremoved hpending htotal hrecovered
  refine ⟨_, h₆.next (a := .next c) trivial (if_neg (by rw [hc₆]; exact id)), ?_⟩
  rw [State.advance, hc₆, hs₆, next, hlast]
  exact ⟨hdone, update_self ..⟩

/-- **Control-file removal is credited once.** In every run, the credit grows by the recorded
length when the row becomes removed, as reclaimed or as recovered, and never again; a call that
returns a removal is the only one that does so. The row becomes removed only where an intent for
exactly the recorded content is stored. A call takes the name away only after its last look, at
which the file was as recorded. And what an interrupted call leaves undone, a later one can do.

**Proof sketch.** `reaches_inv` carries the accounts and what each call knows, `looked_of_reaches`
finds the last look in the run, `step_effect` says what a step can do, and `recovers` runs a
call on what is left. -/
theorem control_removal_credited_once (h₀ : Registered blake3 intended s₀)
    (h : Run.Reaches (step blake3 process) Allowed s₀ s) :
    (s.shared.row.removed = false → s.shared.credit = s₀.shared.credit) ∧
    (s.shared.row.removed = true → ∃ recovered : Bool,
      s.shared.credit = some ((s₀.shared.credit.getD (0, 0)).1 + intended.length,
        (s₀.shared.credit.getD (0, 0)).2 + if recovered then intended.length else 0)) ∧
    (∀ c r, s.calls c = .finished (.ok r) → s.shared.row.removed = true ∧ r.Of intended.length) ∧
    (∀ c c' r r', s.calls c = .finished (.ok r) → s.calls c' = .finished (.ok r') →
      r.removed = true → r'.removed = true → c = c') ∧
    (∀ e s', Allowed s e → step blake3 process s e = some s' →
      (s.shared.row.removed = true → s'.shared.row.removed = true) ∧
      (s.shared.row.removed = false → s'.shared.row.removed = true →
        ∃ memberSeal, MemberSeal.bounded blake3 intended = .ok memberSeal ∧
          s.shared.row.pendingLength = some intended.length ∧
          s.shared.row.pendingManifest = some memberSeal.manifest) ∧
      ((∀ d, e ≠ .outside d) → (∀ d, e ≠ .powerLoss d) → s'.shared.disk = s.shared.disk ∨
        ∃ c, Looked blake3 process s₀ s c ∧ s.shared.disk.unlink = .ok s'.shared.disk)) ∧
    (s.shared.row.removed = false → s.shared.row.pendingLength ≠ none → s.shared.disk.named = none →
      ∀ c, s.calls c = .started → s.serial (process c) = none →
        (s₀.shared.credit.getD (0, 0)).1 + intended.length < Counter.size →
        (s₀.shared.credit.getD (0, 0)).2 + intended.length < Counter.size →
        ∃ s', Run.Reaches (step blake3 process) Allowed s₀ s' ∧ s'.shared.row.removed = true ∧
          s'.calls c = .finished (.ok ⟨true, 0, intended.length, 0⟩)) := by
  have hi := reaches_inv h₀ h
  obtain ⟨d, producer, allocated, hrow⟩ := h₀.row
  obtain ⟨memberSeal, hbounded, hseal, -, hlogical, -⟩ := registerControl_ok blake3 hrow
  refine ⟨hi.shared.uncredited, ?_, ?_, hi.once, ?_, ?_⟩
  · intro hremoved
    obtain ⟨recovered, hcredit⟩ := hi.shared.credited hremoved
    rw [hlogical] at hcredit
    exact ⟨recovered, hcredit⟩
  · intro c r hc
    have hok := hi.calls c
    rw [hc] at hok
    exact ⟨hok.1, hlogical ▸ hok.2⟩
  · intro e s' hok hstep
    have heffect := step_effect hi hok hstep
    refine ⟨heffect.removed, fun hnot hremoved => ?_, fun hinside hpower => ?_⟩
    · obtain ⟨hpending, found, hfound, hmanifest⟩ := heffect.intended hnot hremoved
      obtain rfl : memberSeal = found := some.inj (hseal.symm.trans hfound)
      exact ⟨memberSeal, hbounded, hlogical ▸ hpending, hmanifest⟩
    · refine (heffect.disk hinside hpower).imp id fun ⟨c, w, hc, hunlink⟩ => ?_
      exact ⟨c, looked_of_reaches h₀ h hc (by decide), hunlink⟩
  · intro hremoved hintent hgone c hc hfree htotal hrecovered
    exact recovers h₀ h hremoved hintent hgone hc hfree htotal hrecovered

end Credit

/-! ## A run -/

open Authentication.Session (sampleBlake3 sampleDigest sampleManifest)

/-- A control file of two bytes, and another file. -/
def sampleDisk : Disk where
  named := some 7
  inode i := ⟨true, 1, 0, if i = 7 then [104, 105] else [120], 0⟩

/-- What its producer has recorded. -/
def sampleRow : ControlFile where
  identity := 7
  ownership := 0
  memberSeal := some ⟨1, 2, 1, sampleManifest⟩
  checksum := sampleDigest
  logicalBytes := 2
  allocatedBytes := .observed 4096
  pendingLength := none
  pendingManifest := none
  removed := false
  creditedLogicalBytes := 0
  creditedAllocatedBytes := 0

/-- The file is registered, and ten bytes were credited before. -/
def sampleState : State where
  shared := ⟨sampleRow, some (10, 3), sampleDisk, (1, 1)⟩
  serial _ := none
  calls _ := .started

lemma sample_bounded :
    MemberSeal.bounded sampleBlake3 [104, 105] = .ok ⟨1, 2, 1, sampleManifest⟩ := by
  decide +kernel

lemma sampleState_registered : Registered sampleBlake3 [104, 105] sampleState :=
  ⟨⟨sampleDisk, 7, .observed 4096, by
    simp only [registerControl, sampleDisk]
    rw [sample_bounded]
    rfl⟩, fun _ => rfl, fun _ => rfl⟩

/-- Steps of calls are always allowed. -/
lemma reaches_of_steps {n : ℕ} {s : State}
    (h : Run.exec (step sampleBlake3 id) sampleState (List.replicate n (.next 0)) = some s) :
    Run.Reaches (step sampleBlake3 id) Allowed sampleState s := by
  refine Run.Reaches.of_exec_allowed (fun e he _ => ?_) h
  obtain rfl := eq_of_mem_replicate he
  trivial

/-- One call removes the file and credits its two bytes. -/
theorem control_removal_credited_once_call : ∃ (s : State) (recovered : Bool),
    Run.Reaches (step sampleBlake3 id) Allowed sampleState s ∧ s.shared.row.removed = true ∧
      s.shared.disk.named = none ∧ s.shared.credit = some (12, 3 + if recovered then 2 else 0) := by
  have hrun : ((Run.exec (step sampleBlake3 id) sampleState (List.replicate 16 (.next 0))).map
      fun s => (s.shared.row.removed, s.shared.disk.named)) = some (true, none) := by
    decide +kernel
  rw [map_eq_some_iff] at hrun
  obtain ⟨s, hexec, hends⟩ := hrun
  rw [Prod.mk.injEq] at hends
  have hreaches := reaches_of_steps hexec
  obtain ⟨recovered, hcredit⟩ :=
    (control_removal_credited_once sampleState_registered hreaches).2.1 hends.1
  exact ⟨s, recovered, hreaches, hends.1, hends.2, hcredit⟩

/-- The other file is renamed to the name. -/
def renamed (d : Disk) : Disk where
  named := some 8
  inode := Function.update d.inode 7
    { d.inode 7 with links := 0, change := (d.inode 7).change + 1 }

lemma renamed_follows (d : Disk) : d.Follows (renamed d) := by
  intro i
  by_cases hi : i = 7
  · subst hi
    right
    simp [renamed]
  · left
    exact update_of_ne hi _ _

/-- **A look is not the unlinking**: somebody puts another file in the place of the recorded one
after the last look, and this other file loses its name. -/
theorem replaced_file_unlinked : ¬ ∀ (s₀ s s' : State) (intended : List UInt8) (c : ℕ),
    Registered sampleBlake3 intended s₀ →
    Run.Reaches (step sampleBlake3 id) Allowed s₀ s →
    (∀ i, s.shared.disk.named = some i →
      i ≠ s₀.shared.row.identity ∧ (s.shared.disk.inode i).bytes ≠ intended) →
    step sampleBlake3 id s (.next c) = some s' → s'.shared.disk.named = s.shared.disk.named := by
  intro hleft
  -- The call has checked everything, and is about to unlink the name.
  have hrun : ((Run.exec (step sampleBlake3 id) sampleState (List.replicate 12 (.next 0))).map
      fun s => ((match s.calls 0 with | .held .verified _ => true | _ => false),
        (s.shared.disk.inode 8).bytes)) = some (true, [120]) := by
    decide +kernel
  rw [map_eq_some_iff] at hrun
  obtain ⟨s, hexec, hends⟩ := hrun
  rw [Prod.mk.injEq] at hends
  obtain ⟨hphase, hother⟩ := hends
  have hverified : ∃ w, s.calls 0 = .held .verified w := by
    split at hphase
    · exact ⟨_, by assumption⟩
    · cases hphase
  obtain ⟨w, hw⟩ := hverified
  -- Now the other file gets the name.
  have hallowed : Allowed s (.outside (renamed s.shared.disk)) := renamed_follows s.shared.disk
  have hreaches := (reaches_of_steps hexec).next hallowed rfl
  have hone : step sampleBlake3 id { s with shared.disk := renamed s.shared.disk } (.next 0) =
      some ({ s with shared.disk := renamed s.shared.disk }.advance sampleBlake3 id 0) := by
    refine if_neg ?_
    dsimp only
    rw [hw]
    exact id
  have hstays := hleft sampleState _ _ [104, 105] 0 sampleState_registered hreaches ?_ hone
  · simp [State.advance, State.put, hw, next, nextHeld, Disk.unlink, renamed] at hstays
  · intro i hi
    obtain rfl := some.inj hi
    refine ⟨by decide, ?_⟩
    simp [renamed, hother]

end Tgrep.Managed.ControlRemoval
