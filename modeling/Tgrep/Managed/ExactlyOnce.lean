import Tgrep.Managed.OperationsRun

/-!
# Operations are accepted once

A number that was accepted is spent: its receipt is kept, or it is at or below the floor of its
scope, or the scope is closed, or the scope is gone for good. A spent number is not accepted
again, and every call keeps the numbers spent.

## Main definitions

* `Operations.Spent`, `Operations.FloorFrom`: what stays true of numbers and floors.
* `Operations.Log.Inv`: the invariant of a run.

## Main results

* `Operations.step_spec`: every call keeps the invariant and advances.
* `Operations.Log.Inv.step`, `Operations.run_inv`: the step and run lemmas.
* `Operations.acceptance_run`: acceptance, replays, floors and acknowledgements over every run.
-/

namespace Tgrep.Managed

open Option List

namespace Operations

variable {ρ δ : Type} [DecidableEq δ] {c : RequestCodec ρ δ} {s s' : Operations ρ δ}

/-! ## One call -/

variable {call : Call ρ} {scope : Id}

/-- **Every call keeps the invariant and advances.** -/
theorem step_spec (hi : s.Inv c) (hfresh : call.Fresh s) :
    (s.step c call).Inv c ∧ Advances s (s.step c call) := by
  have hrewrites : ∀ {s' : Operations ρ δ}, Rewrites s s' → s'.Inv c ∧ Advances s s' :=
    fun h => ⟨h.inv hi, h.advances⟩
  have hkeep : s.Inv c ∧ Advances s s := ⟨hi, Advances.refl s⟩
  cases call with
  | accept a =>
    show (s.orKeep (s.acceptOperation c a)).Inv c ∧ Advances s (s.orKeep (s.acceptOperation c a))
    cases h : s.acceptOperation c a with
    | error e => exact hkeep
    | ok result => exact acceptOperation_spec hi hfresh h
  | acknowledge scope through =>
    show (s.orKeep (s.acknowledgeOperations scope through)).Inv c ∧
      Advances s (s.orKeep (s.acknowledgeOperations scope through))
    cases h : s.acknowledgeOperations scope through with
    | error e => exact hkeep
    | ok result => exact acknowledgeOperations_spec hi h
  | cancel id =>
    refine hrewrites (rewrites_updateOperation hi fun op => ?_)
    unfold cancelled
    split_ifs <;> exact ⟨rfl, rfl, rfl, rfl⟩
  | fail id e =>
    refine hrewrites (rewrites_updateOperation hi fun op => ?_)
    split_ifs <;> exact ⟨rfl, rfl, rfl, rfl⟩
  | recordResult id result isCommitted =>
    refine hrewrites (rewrites_updateOperation hi fun op => ?_)
    cases result <;> exact ⟨rfl, rfl, rfl, rfl⟩
  | advance id cancelled committedState state result error =>
    exact hrewrites (rewrites_updateOperation hi fun op => ⟨rfl, rfl, rfl, rfl⟩)
  | prepareOwner fresh admitted =>
    show ((s.prepareOwner fresh admitted).toOption.getD s).Inv c ∧
      Advances s ((s.prepareOwner fresh admitted).toOption.getD s)
    cases h : s.prepareOwner fresh admitted with
    | error e => exact hkeep
    | ok s' => exact hrewrites (rewrites_prepareOwner hi hfresh h)
  | registerOwner id record held =>
    show ((s.registerOwner id record held).toOption.getD s).Inv c ∧
      Advances s ((s.registerOwner id record held).toOption.getD s)
    cases h : s.registerOwner id record held with
    | error e => exact hkeep
    | ok s' =>
      obtain ⟨_, -, h⟩ := Loops.bind_eq_ok.mp h
      cases hcurrent : s.owners.get? id with
      | none =>
        rw [hcurrent] at h
        cases h
      | some current =>
        rw [hcurrent] at h
        obtain ⟨-, heq⟩ := require_bind_eq_ok.mp h
        obtain rfl := (Except.ok.inj heq).symm
        exact hrewrites (Rewrites.of_eq hi rfl rfl rfl rfl rfl rfl)
  | releaseOwner id record => exact hrewrites (rewrites_commitOwnerRelease hi id record)
  | reopen fresh => exact hrewrites (rewrites_openNamespace hi hfresh)
  | activate =>
    show (s.activate.toOption.getD s).Inv c ∧ Advances s (s.activate.toOption.getD s)
    cases h : s.activate with
    | error e => exact hkeep
    | ok s' => exact hrewrites (rewrites_activate hi h)
  | hold id limit =>
    show ((s.holdOperation id limit).toOption.getD s).Inv c ∧
      Advances s ((s.holdOperation id limit).toOption.getD s)
    cases h : s.holdOperation id limit with
    | error e => exact hkeep
    | ok s' =>
      obtain ⟨-, h⟩ := require_bind_eq_ok.mp h
      obtain ⟨-, heq⟩ := require_bind_eq_ok.mp h
      obtain rfl := (Except.ok.inj heq).symm
      exact hrewrites (Rewrites.of_eq hi rfl rfl rfl rfl rfl rfl)
  | dropReader id => exact hrewrites (Rewrites.of_eq hi rfl rfl rfl rfl rfl rfl)
  | inspectReceipt id guardEnded =>
    show ((s.inspectReceipt id guardEnded).toOption.getD s).Inv c ∧
      Advances s ((s.inspectReceipt id guardEnded).toOption.getD s)
    cases h : s.inspectReceipt id guardEnded with
    | error e => exact hkeep
    | ok s' => exact inspectReceipt_spec hi h
  | cleanupReceipt id => exact cleanupReceipt_spec hi id
  | cleanupOwner id clear =>
    show (s.cleanupOwner id clear).Inv c ∧ Advances s (s.cleanupOwner id clear)
    unfold cleanupOwner
    cases s.owners.get? id with
    | none => exact hkeep
    | some owner =>
      dsimp only
      split_ifs
      · exact hkeep
      · exact hrewrites (Rewrites.of_eq hi rfl rfl rfl rfl rfl rfl)
  | cleanupScope id => exact cleanupScope_spec hi id
  | others reserved preparing referenced admission service =>
    exact hrewrites (Rewrites.of_eq hi rfl rfl rfl rfl rfl rfl)

/-! ## What stays true -/

omit [DecidableEq δ] in
/-- A scope that is gone, and was not that of the namespace or the process, stays gone. -/
lemma Advances.gone (h : Advances s s') (hissued : scope ∈ s.issued)
    (hnone : s.scopes.get? scope = none) (hheader : scope ≠ s.header)
    (hprocess : scope ≠ s.process) :
    s'.scopes.get? scope = none ∧ scope ≠ s'.header ∧ scope ≠ s'.process := by
  have hheader' : scope ≠ s'.header := h.header ▸ hheader
  have hprocess' : scope ≠ s'.process := by
    rintro rfl
    obtain hsame | hnew := h.process
    · exact hprocess hsame
    · exact hnew hissued
  obtain hnone' | heq | heq | hnew := h.absent scope hnone
  · exact ⟨hnone', hheader', hprocess'⟩
  · exact absurd heq hheader'
  · exact absurd heq hprocess'
  · exact absurd hissued hnew

/-- The number is spent: its receipt is kept, or it is at or below the floor of its scope, or the
scope is closed or gone for good. -/
def Spent (s : Operations ρ δ) (scope : Id) (sequence : ℕ) : Prop :=
  scope ∈ s.issued ∧
    ((∃ id op, s.operations.get? id = some op ∧ op.token.scope = scope ∧
        op.token.sequence = sequence) ∨
      (∃ row, s.scopes.get? scope = some row ∧ (sequence ≤ row.floor ∨ row.closed = true)) ∨
      (s.scopes.get? scope = none ∧ scope ≠ s.header ∧ scope ≠ s.process))

variable {floor sequence : ℕ} {log : Log ρ δ} {calls : List (Call ρ)}

omit [DecidableEq δ] in
/-- **A spent number stays spent.** -/
theorem Spent.advances (hspent : Spent s scope sequence) (h : Advances s s') :
    Spent s' scope sequence := by
  obtain ⟨hissued, hwhy⟩ := hspent
  refine ⟨h.issued hissued, ?_⟩
  obtain ⟨id, op, hop, rfl, rfl⟩ | ⟨row, hrow, hwhy⟩ | ⟨hnone, hheader, hprocess⟩ := hwhy
  · obtain ⟨op', hop', htoken, -⟩ | hrow := h.receipts id op hop
    · exact .inl ⟨id, op', hop', by rw [htoken], by rw [htoken]⟩
    · exact .inr (.inl hrow)
  · obtain ⟨row', hrow', hfloor, hclosed⟩ | hgone := h.scopes scope row hrow
    · exact .inr (.inl ⟨row', hrow', hwhy.imp hfloor.trans' hclosed⟩)
    · exact .inr (.inr hgone)
  · exact .inr (.inr (h.gone hissued hnone hheader hprocess))

/-- The floor of the scope is at least the given one, or the scope is gone for good. -/
def FloorFrom (s : Operations ρ δ) (scope : Id) (floor : ℕ) : Prop :=
  scope ∈ s.issued ∧
    ((∃ row, s.scopes.get? scope = some row ∧ floor ≤ row.floor) ∨
      (s.scopes.get? scope = none ∧ scope ≠ s.header ∧ scope ≠ s.process))

omit [DecidableEq δ] in
/-- **A floor does not fall.** -/
theorem FloorFrom.advances (hfrom : FloorFrom s scope floor) (h : Advances s s') :
    FloorFrom s' scope floor := by
  obtain ⟨hissued, hwhy⟩ := hfrom
  refine ⟨h.issued hissued, ?_⟩
  obtain ⟨row, hrow, hle⟩ | ⟨hnone, hheader, hprocess⟩ := hwhy
  · obtain ⟨row', hrow', hfloor, -⟩ | hgone := h.scopes scope row hrow
    · exact .inl ⟨row', hrow', hle.trans hfloor⟩
    · exact .inr hgone
  · exact .inr (h.gone hissued hnone hheader hprocess)

/-- A number accepted as new work was not spent, and is now. -/
lemma acceptedBy_spec (hi : s.Inv c) (h : s.acceptedBy c call = some (scope, sequence)) :
    ¬ Spent s scope sequence ∧ Spent (s.step c call) scope sequence := by
  cases call with
  | accept a =>
    simp only [acceptedBy] at h
    cases haccept : s.acceptOperation c a with
    | error e =>
      simp only [haccept] at h
      cases h
    | ok result =>
      obtain ⟨⟨id, op⟩, s'⟩ := result
      simp only [haccept] at h
      by_cases hold : s.operations.contains id = true
      · rw [if_pos hold] at h
        cases h
      · rw [if_neg hold] at h
        obtain ⟨rfl, rfl⟩ := Prod.mk.inj (some.inj h)
        obtain ⟨-, hop, -⟩ | ⟨-, -, ⟨row, hrow, hfloor, hopen⟩, hprior, rfl, rfl, rfl⟩ :=
          acceptOperation_cases haccept
        · exact absurd (FinMap.contains_iff.mpr (FinMap.mem_keys_of_get? hop)) hold
        · constructor
          · rintro ⟨-, ⟨id, op, hop, hscope, hsequence⟩ | ⟨row', hrow', hwhy⟩ | ⟨hnone, -⟩⟩
            · refine prior_eq_none hprior hop ?_
              unfold matching
              exact decide_eq_true ⟨hscope, .inl hsequence⟩
            · have hscope : s.scopes.get? a.token.scope = some row' := hrow'
              rw [hrow] at hscope
              obtain rfl := some.inj hscope
              obtain hle | hclosed := hwhy
              · exact absurd hle (not_le.mpr hfloor)
              · rw [hopen] at hclosed
                cases hclosed
            · have hscope : s.scopes.get? a.token.scope = none := hnone
              rw [hrow] at hscope
              cases hscope
          · show Spent (s.orKeep (s.acceptOperation c a)) _ _
            rw [haccept]
            refine ⟨Finset.mem_insert_of_mem (hi.scopes_issued _ row hrow), .inl ⟨a.fresh, _, ?_,
              rfl, rfl⟩⟩
            exact FinMap.get?_insert_self _ _ _
  | _ => cases h

/-! ## Runs -/

/-- The invariant of a run: no number was accepted twice, and those accepted are spent. -/
structure Log.Inv (c : RequestCodec ρ δ) (log : Log ρ δ) : Prop where
  state : log.state.Inv c
  nodup : log.accepted.Nodup
  spent : ∀ scope sequence, (scope, sequence) ∈ log.accepted → Spent log.state scope sequence

/-- **The step lemma.** -/
theorem Log.Inv.step (h : log.Inv c) (hfresh : call.Fresh log.state) : (log.step c call).Inv c := by
  obtain ⟨hi, hadvances⟩ := step_spec h.state hfresh
  cases haccepted : log.state.acceptedBy c call with
  | none =>
    have heq : (log.step c call).accepted = log.accepted := by
      simp [Log.step, haccepted]
    refine ⟨hi, heq ▸ h.nodup, fun scope sequence hmem => ?_⟩
    exact (h.spent scope sequence (heq ▸ hmem)).advances hadvances
  | some number =>
    obtain ⟨scope, sequence⟩ := number
    obtain ⟨hnew, hspent⟩ := acceptedBy_spec h.state haccepted
    have heq : (log.step c call).accepted = log.accepted ++ [(scope, sequence)] := by
      simp [Log.step, haccepted]
    refine ⟨hi, ?_, fun scope' sequence' hmem => ?_⟩
    · rw [heq]
      refine nodup_append.mpr ⟨h.nodup, nodup_singleton _, fun p hp q hq heq => ?_⟩
      rw [heq, mem_singleton.mp hq] at hp
      exact hnew (h.spent scope sequence hp)
    · rw [heq, mem_append, mem_singleton] at hmem
      obtain hold | hlast := hmem
      · exact (h.spent scope' sequence' hold).advances hadvances
      · obtain ⟨rfl, rfl⟩ := Prod.mk.inj hlast
        exact hspent

/-- **The run lemma.** -/
theorem run_inv {header process : Id} (h : FreshRun c header process calls) :
    (run c header process calls).Inv c :=
  Run.invariant (P := Log.Inv c) (fun _ _ hlog hfresh => hlog.step hfresh)
    ⟨create_inv h.1, nodup_nil, fun _ _ hmem => by cases hmem⟩ h.2

/-- A floor does not fall in what follows a run. -/
lemma floorFrom_run (hlog : log.Inv c) (hfrom : FloorFrom log.state scope floor)
    (h : Run.AllSteps (Log.step c) (fun log call => call.Fresh log.state) log calls) :
    FloorFrom (calls.foldl (Log.step c) log).state scope floor := by
  refine (Run.invariant (P := fun log => Log.Inv c log ∧ FloorFrom log.state scope floor)
    (fun log call hboth hfresh => ⟨hboth.1.step hfresh, ?_⟩) ⟨hlog, hfrom⟩ h).2
  exact hboth.2.advances (step_spec hboth.1.state hfresh).2

/-- **Operations are accepted exactly once.** In every run whose identities are fresh: no number of
a scope is accepted as new work twice; while a receipt is kept, its token and request are answered
with it, and any other request or token for its number or its token is refused; the floor of a
scope does not fall; and an acknowledgement removes only operations that have ended and that no
reservation, no preparation and no reader needs. -/
theorem acceptance_run
    (hdigest : ∀ kind kind' request request', c.digest kind request = c.digest kind' request' →
      kind = kind' ∧ request = request') {header process : Id} {calls : List (Call ρ)}
    (hfresh : FreshRun c header process calls) :
    (run c header process calls).accepted.Nodup ∧
    (∀ id op, (run c header process calls).state.operations.get? id = some op →
      ∀ a : AcceptRequest ρ,
        (a.token = op.token → a.kind = op.kind → a.request = op.request →
          (∃ limits, a.limits = .ok limits) → a.now = .ok () →
            (run c header process calls).state.acceptOperation c a =
              .ok ((id, op), (run c header process calls).state)) ∧
        (a.token.scope = op.token.scope →
          (a.token.sequence = op.token.sequence ∨ a.token.token = op.token.token) →
          ¬ (a.token = op.token ∧ a.kind = op.kind ∧ a.request = op.request) →
            ∃ e, (run c header process calls).state.acceptOperation c a = .error e)) ∧
    (∀ later, FreshRun c header process (calls ++ later) → ∀ scope row row',
      (run c header process calls).state.scopes.get? scope = some row →
      (run c header process (calls ++ later)).state.scopes.get? scope = some row' →
        row.floor ≤ row'.floor) ∧
    ∀ scope through n s', (run c header process calls).state.acknowledgeOperations scope through =
      .ok (n, s') → ∀ id op, (run c header process calls).state.operations.get? id = some op →
        s'.operations.get? id = none → Removable (run c header process calls).state id op := by
  have hinv := run_inv hfresh
  refine ⟨hinv.nodup, fun id op hop a => ⟨fun htoken hkind hrequest hlimits hnow =>
      acceptOperation_replay hinv.state hop htoken hkind hrequest hlimits hnow,
    fun hscope hnumber hother => acceptOperation_conflict hinv.state hdigest hop ?_ hother⟩,
    fun later hlater scope row row' hrow hrow' => ?_,
    fun scope through n s' hack id op hop hremoved =>
      acknowledgeOperations_removed hack hop hremoved⟩
  · unfold matching
    exact decide_eq_true ⟨hscope.symm, hnumber.imp Eq.symm Eq.symm⟩
  · have hsteps := (Run.AllSteps.append.mp hlater.2).2
    have hfrom : FloorFrom (run c header process calls).state scope row.floor :=
      ⟨hinv.state.scopes_issued scope row hrow, .inl ⟨row, hrow, le_rfl⟩⟩
    obtain ⟨-, ⟨row'', hrow'', hle⟩ | ⟨hnone, -⟩⟩ := floorFrom_run hinv hfrom hsteps
    · have heq : (run c header process (calls ++ later)).state.scopes.get? scope = some row'' := by
        rw [run, List.foldl_append]
        exact hrow''
      rw [hrow'] at heq
      obtain rfl := some.inj heq
      exact hle
    · have heq : (run c header process (calls ++ later)).state.scopes.get? scope = none := by
        rw [run, List.foldl_append]
        exact hnone
      rw [hrow'] at heq
      cases heq

/-- Requests that are numbers, each its own digest. -/
def numberCodec : RequestCodec ℕ (String × ℕ) := ⟨fun kind request => (kind, request),
  fun _ _ => 1, fun _ => none⟩

/-- The first request of the process `1`; the random identity is drawn anew each time. -/
def firstRequest (fresh : Id) : AcceptRequest ℕ :=
  ⟨⟨1, 1, "first"⟩, "index", 7, .ok ⟨8, 8, 1⟩, .ok (), .ok (), fresh⟩

/-- The process takes up service, and its first request is sent twice. -/
theorem acceptance_run_replay :
    (run numberCodec 0 1 [.activate, .accept (firstRequest 2), .accept (firstRequest 3)]).accepted =
        [(1, 1)] ∧
      (run numberCodec 0 1
        [.activate, .accept (firstRequest 2), .accept (firstRequest 3)]).accepted.Nodup := by
  have hfresh : FreshRun numberCodec 0 1
      [.activate, .accept (firstRequest 2), .accept (firstRequest 3)] := by
    refine ⟨by decide, trivial, ?_, ?_, trivial⟩
    · show (2 : Id) ∉ Operations.issued _
      decide +kernel
    · show (3 : Id) ∉ Operations.issued _
      decide +kernel
  exact ⟨by decide +kernel, (acceptance_run (fun _ _ _ _ h => Prod.mk.inj h) hfresh).1⟩

end Operations

end Tgrep.Managed
