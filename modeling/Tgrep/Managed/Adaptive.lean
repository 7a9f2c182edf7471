import Tgrep.Data.Counter
import Tgrep.Managed.Error

/-!
# Adaptive advancement

A view may move its base to the current commit when that makes its overlay smaller. An evaluation
decides whether it is worth it: not within a cooldown of what was recorded last, not below a high
watermark, and not for evidence that has not changed, unless the last attempt at it may be retried.
What it measures has to reach two bounds on the reduction. After an attempt the view is disarmed
until its reducible part has been small again.

## Main definitions

* `Adaptive.sufficient`, `Adaptive.elapsed`: the bounds on a reduction, and the time since a stamp.
* `Adaptive.measureAll`: the reduction that the tracked paths allow.
* `Adaptive.evaluate`: one evaluation.
* `Adaptive.recordFailure`: what is recorded of a failure.
* `Adaptive.step`: evaluations, and the ends of migrations, on the recorded state.

## Main results

* `Adaptive.evaluate_saved`: what an evaluation records, and what an eligible one has found.

## Implementation notes

What an evaluation reads is its argument: the cost of the overlay with the stamp, the target, the
tracked evidence with its signature, and whether the result could be saved, each of them possibly an
error. The deferral of an eligible decision to a later execution of the operation does not change the
record, so that an execution is an evaluation, the end of a migration, or both. The root and the
profile of the migration, and the JSON forms, are left out.
-/

namespace Tgrep.Managed.Adaptive

open Bool

/-! ## Stamps and bounds -/

/-- A reading of the clocks: the boot clock with its identity, and the wall clock. -/
structure Stamp where
  boot : String
  millis : ℕ
  wallMillis : ℕ
  deriving DecidableEq

/-- The adaptive advancement of a policy, with the ranges that its validation ensures. -/
structure Advancement where
  highBytes : ℕ
  lowBytes : ℕ
  minReductionBytes : ℕ
  minReductionPercent : ℕ
  cooldownMs : ℕ
  maxReadBytes : ℕ
  maxAttempts : ℕ
  one_le_maxAttempts : 1 ≤ maxAttempts
  maxAttempts_le : maxAttempts ≤ 64

/-- The reduction of the overlay reaches both bounds. -/
def sufficient (before after absolute percent : ℕ) : Bool :=
  (Counter.checkedSub before after).any fun reduction =>
    absolute ≤ reduction && before * percent ≤ reduction * 100

/-- The time between two stamps, unless the clocks do not tell. -/
def elapsed (previous now : Stamp) : Option ℕ :=
  if previous.boot = now.boot ∧ previous.wallMillis ≤ now.wallMillis then
    Counter.checkedSub now.millis previous.millis
  else none

/-! ## The recorded state -/

/-- What an evaluation decides. -/
structure AdaptiveDecision where
  eligible : Bool
  reasonCode : String
  sourceVersion : ℕ
  targetCommit : Option String
  overlayBytes : ℕ
  expectedReductionBytes : Option ℕ
  pathsExamined : ℕ
  targetBlobBytesRead : ℕ
  deriving DecidableEq

/-- What the records have of a view. -/
structure AdaptiveState where
  stamp : Stamp
  signature : Option String
  armed : Bool
  attempts : ℕ
  decision : Option AdaptiveDecision
  sourceVersion : ℕ
  inputEpoch : ℕ
  policyVersion : ℕ
  allocationVersion : ℕ
  owner : Id
  lastError : Option Error
  deriving DecidableEq

/-- What is constant while nothing else changes: the policy, the request and the input epoch. -/
structure Context where
  /-- The advancement of the policy, if it is adaptive. -/
  policy : Option Advancement
  policyVersion : ℕ
  /-- The bytes that one blob may have. -/
  blobBytes : ℕ
  expectedVersion : ℕ
  allocationVersion : ℕ
  owner : Id
  inputEpoch : ℕ

/-- The reason of a conflict with a participant whose pin is fixed. -/
def FIXED_PIN : String := "fixed-pin-participant"

/-- The state was recorded for another policy, allocation, source or owner. -/
def AdaptiveState.other (s : AdaptiveState) (ctx : Context) : Prop :=
  s.policyVersion ≠ ctx.policyVersion ∨ s.allocationVersion ≠ ctx.allocationVersion ∨
    s.sourceVersion ≠ ctx.expectedVersion ∨ s.owner ≠ ctx.owner

instance (s : AdaptiveState) (ctx : Context) : Decidable (s.other ctx) :=
  inferInstanceAs (Decidable (_ ∨ _))

/-- The last failure was a conflict with a fixed pin. -/
def AdaptiveState.fixedPin (s : AdaptiveState) : Bool :=
  s.lastError.any fun e => e.reasonCode = FIXED_PIN

/-- What was attempted last may be retried. -/
def AdaptiveState.retryable (s : AdaptiveState) : Bool :=
  match s.lastError with
  | none => s.decision.any (·.eligible)
  | some e => e.retryable

/-- The time since the last record, if there is one, is known to be the cooldown. -/
def cooled (cooldownMs : ℕ) (previous : Option AdaptiveState) (now : Stamp) : Bool :=
  previous.all fun previous => (elapsed previous.stamp now).any (cooldownMs ≤ ·)

/-! ## Measuring -/

/-- What the target has at a tracked path. -/
inductive TargetContent (κ : Type)
  /-- Nothing that is indexed. -/
  | absent
  /-- The blob of the generation, with its content. -/
  | sameBlob (content : Option κ)
  /-- Another blob, with its content once it is read. -/
  | blob (size : Option ℕ) (decoded : Except Error (Option κ))

/-- The evidence of a tracked path. -/
structure Tracked (κ : Type) where
  /-- The check of the permit before the path. -/
  check : Except Error Unit
  bytes : ℕ
  content : Option κ
  target : TargetContent κ

/-- The sums of a measurement. -/
structure Measure where
  pathsExamined : ℕ := 0
  blobBytesRead : ℕ := 0
  reduced : ℕ := 0

section Measure

variable {κ : Type} [DecidableEq κ]

/-- Content that the target has too would not be needed any more. -/
def Measure.compare (m : Measure) (t : Tracked κ) (content : Option κ) : Except Error Measure :=
  if content = t.content then
    match Counter.checkedAdd m.reduced t.bytes with
    | none => .error (.corrupt "adaptive accounting overflow")
    | some reduced => .ok { m with reduced }
  else .ok m

/-- Measure one path. -/
def measureOne (maxReadBytes blobBytes : ℕ) (m : Measure) (t : Tracked κ) : Except Error Measure :=
  match t.check with
  | .error e => .error e
  | .ok () =>
    let m := { m with pathsExamined := m.pathsExamined + 1 }
    match t.target with
    | .absent => m.compare t none
    | .sameBlob content => m.compare t content
    | .blob none _ => .error (.corrupt "regular target blob has no size")
    | .blob (some size) decoded =>
      if (Counter.checkedAdd m.blobBytesRead size).all (maxReadBytes < ·) ∨ blobBytes < size then
        .error (.pressure "adaptive-blob-read-limit")
      else
        match decoded with
        | .error e => .error e
        | .ok content => { m with blobBytesRead := m.blobBytesRead + size }.compare t content

/-- Measure all paths. -/
def measureAll (maxReadBytes blobBytes : ℕ) : Measure → List (Tracked κ) → Except Error Measure
  | m, [] => .ok m
  | m, t :: ts =>
    match measureOne maxReadBytes blobBytes m t with
    | .error e => .error e
    | .ok m => measureAll maxReadBytes blobBytes m ts

/-! ## Evaluations -/

/-- What an evaluation reads. -/
structure Evaluation (κ : Type) where
  /-- The cost of the overlay, and the clocks. -/
  prepared : Except Error (ℕ × Stamp)
  /-- The commit, and whether its tree is that of the view. -/
  target : Except Error (String × Bool)
  /-- The tracked evidence, behind its signature. -/
  evidence : Except Error (String × List (Tracked κ))
  /-- The last checks, and the transaction that saves the result. -/
  saved : Except Error Unit

/-- The decision before anything is found. -/
def startDecision (ctx : Context) (cost : ℕ) : AdaptiveDecision where
  eligible := false
  reasonCode := "below-high-watermark"
  sourceVersion := ctx.expectedVersion
  targetCommit := none
  overlayBytes := cost
  expectedReductionBytes := none
  pathsExamined := 0
  targetBlobBytesRead := 0

/-- The attempts that count. -/
def startAttempts (ctx : Context) (previous : Option AdaptiveState) : ℕ :=
  if previous.any fun s => decide (s.other ctx) || s.fixedPin then 0
  else (previous.map AdaptiveState.attempts).getD 0

/-- The state before anything is found. -/
def startState (ctx : Context) (p : Advancement) (previous : Option AdaptiveState) (cost : ℕ)
    (stamp : Stamp) : AdaptiveState where
  stamp
  signature := previous.bind AdaptiveState.signature
  armed := previous.all AdaptiveState.armed || decide (cost ≤ p.lowBytes)
  attempts := startAttempts ctx previous
  decision := some (startDecision ctx cost)
  sourceVersion := ctx.expectedVersion
  inputEpoch := ctx.inputEpoch
  policyVersion := ctx.policyVersion
  allocationVersion := ctx.allocationVersion
  owner := ctx.owner
  lastError := none

/-- Save the state with the decision. -/
def conclude (input : Evaluation κ) (state : AdaptiveState) (decision : AdaptiveDecision) :
    Except Error (AdaptiveDecision × Option AdaptiveState) :=
  match input.saved with
  | .error e => .error e
  | .ok () => .ok (decision, some { state with decision := some decision })

/-- Judge a measurement. -/
def judge (p : Advancement) (state : AdaptiveState) (decision : AdaptiveDecision) (retry : Bool)
    (signature : String) (m : Measure) : AdaptiveState × AdaptiveDecision :=
  let armed := state.armed || decide (m.reduced ≤ p.lowBytes)
  let attempts := if state.signature = some signature then state.attempts else 0
  let eligible := (armed || retry) && sufficient decision.overlayBytes
    (decision.overlayBytes - m.reduced) p.minReductionBytes p.minReductionPercent
  ({ state with
      signature := some signature
      armed := if eligible then false else armed
      attempts := if eligible then attempts + 1 else attempts },
    { decision with
      eligible
      reasonCode :=
        if eligible then "reducible-tracked-divergence"
        else if !armed then "adaptive-hysteresis"
        else "insufficient-reducible-cost"
      expectedReductionBytes := some m.reduced
      pathsExamined := m.pathsExamined
      targetBlobBytesRead := m.blobBytesRead })

/-- The part of an evaluation that looks at the tracked evidence. -/
def evaluateEvidence (ctx : Context) (p : Advancement) (previous : Option AdaptiveState)
    (input : Evaluation κ) (state : AdaptiveState) (decision : AdaptiveDecision) :
    Except Error (AdaptiveDecision × Option AdaptiveState) :=
  match input.evidence with
  | .error e => .error e
  | .ok (signature, tracked) =>
    let unchanged := decide (state.signature = some signature)
    let retry := unchanged && previous.any AdaptiveState.retryable
    if unchanged ∧ (¬ retry ∨ p.maxAttempts ≤ state.attempts) then
      conclude input state { decision with reasonCode := "unchanged-tracked-evidence" }
    else
      match measureAll p.maxReadBytes ctx.blobBytes {} tracked with
      | .error e => .error e
      | .ok m =>
        let judged := judge p state decision retry signature m
        conclude input judged.1 judged.2

/-- The part of an evaluation behind the high watermark. -/
def evaluateTarget (ctx : Context) (p : Advancement) (previous : Option AdaptiveState)
    (input : Evaluation κ) (state : AdaptiveState) (decision : AdaptiveDecision) :
    Except Error (AdaptiveDecision × Option AdaptiveState) :=
  match input.target with
  | .error e => .error e
  | .ok (commit, current) =>
    let decision := { decision with targetCommit := some commit }
    if current then
      conclude input { state with armed := true }
        { decision with
          reasonCode := "current-generation-key"
          expectedReductionBytes := some 0 }
    else evaluateEvidence ctx p previous input state decision

/-- One evaluation: the decision, and the state to record, if there is one. -/
def evaluate (ctx : Context) (previous : Option AdaptiveState) (input : Evaluation κ) :
    Except Error (AdaptiveDecision × Option AdaptiveState) :=
  match ctx.policy with
  | none => .error ⟨.incompatible, "incompatible-storage", "adaptive advancement is not enabled", none⟩
  | some p =>
    match input.prepared with
    | .error e => .error e
    | .ok (cost, stamp) =>
      let decision := startDecision ctx cost
      let state := startState ctx p previous cost stamp
      if cooled p.cooldownMs previous stamp then
        if cost < p.highBytes then conclude input state decision
        else evaluateTarget ctx p previous input state decision
      else
        let decision := { decision with reasonCode := "adaptive-cooldown" }
        if previous.any fun previous => (elapsed previous.stamp stamp).isSome then
          .ok (decision, none)
        else conclude input state decision

end Measure

/-! ## Failures and migrations -/

/-- The circumstances in which a failure is recorded: the version of the view, and the clocks, if
they can be read and the record can be saved. -/
structure Failure where
  currentVersion : ℕ
  stamp : Option Stamp

/-- The attempts after a failure. -/
def failedAttempts (ctx : Context) (previous : Option AdaptiveState) (attemptCounted : Bool) : ℕ :=
  match previous with
  | none => 1
  | some s =>
    if s.inputEpoch ≠ ctx.inputEpoch ∨ s.other ctx then 1
    else max (min (s.attempts + if attemptCounted then 0 else 1) (2 ^ 32 - 1)) 1

/-- Record a failure, unless the view has another version by now. -/
def recordFailure (ctx : Context) (previous : Option AdaptiveState) (error : Error)
    (attemptCounted : Bool) (failure : Failure) : Option AdaptiveState :=
  if failure.currentVersion ≠ ctx.expectedVersion then previous
  else
    match failure.stamp with
    | none => previous
    | some stamp =>
      some
        { stamp
          signature := previous.bind AdaptiveState.signature
          armed := previous.all AdaptiveState.armed
          attempts := failedAttempts ctx previous attemptCounted
          decision := previous.bind AdaptiveState.decision
          sourceVersion := failure.currentVersion
          inputEpoch := ctx.inputEpoch
          policyVersion := ctx.policyVersion
          allocationVersion := ctx.allocationVersion
          owner := ctx.owner
          lastError := some error }

/-- What happens to a view. -/
inductive Event (κ : Type)
  /-- An evaluation, with the circumstances in which it is recorded should it fail. -/
  | evaluate (input : Evaluation κ) (failure : Failure)
  | migrationFailed (error : Error) (failure : Failure)
  | migrationSucceeded

/-- One step, seen from outside. -/
structure Observation (κ : Type) where
  before : Option AdaptiveState
  event : Event κ
  /-- The decision of an evaluation that does not fail. -/
  decision : Option AdaptiveDecision
  /-- The error of an evaluation or a migration that fails. -/
  error : Option Error
  after : Option AdaptiveState

section Step

variable {κ : Type} [DecidableEq κ]

/-- One step. -/
def step (ctx : Context) (s : Option AdaptiveState) (event : Event κ) : Observation κ :=
  match event with
  | .evaluate input failure =>
    match evaluate ctx s input with
    | .ok (decision, saved) => ⟨s, event, some decision, none, saved.or s⟩
    | .error e => ⟨s, event, none, some e, recordFailure ctx s e false failure⟩
  | .migrationFailed e failure => ⟨s, event, none, some e, recordFailure ctx s e true failure⟩
  | .migrationSucceeded => ⟨s, event, none, none, s.map fun s => { s with armed := true }⟩

/-- The steps of a run. -/
def trace (ctx : Context) : Option AdaptiveState → List (Event κ) → List (Observation κ)
  | _, [] => []
  | s, e :: es => step ctx s e :: trace ctx (step ctx s e).after es

/-- The state after a run. -/
def exec (ctx : Context) : Option AdaptiveState → List (Event κ) → Option AdaptiveState
  | s, [] => s
  | s, e :: es => exec ctx (step ctx s e).after es

end Step

/-! ## What an evaluation records -/

section Spec

variable {κ : Type} {ctx : Context} {p : Advancement} {previous : Option AdaptiveState}
  {input : Evaluation κ} {cost : ℕ} {stamp : Stamp} {d : AdaptiveDecision}
  {saved : Option AdaptiveState}

/-- What an eligible evaluation has found. -/
structure Justified (ctx : Context) (p : Advancement) (previous : Option AdaptiveState) (cost : ℕ)
    (d : AdaptiveDecision) (st : AdaptiveState) : Prop where
  /-- A retry of the same signature is below the maximum number of attempts. -/
  below : previous.bind AdaptiveState.signature = st.signature →
    startAttempts ctx previous < p.maxAttempts
  /-- For another signature the view is armed. -/
  rearmed : previous.bind AdaptiveState.signature ≠ st.signature →
    previous.all AdaptiveState.armed = true ∨ cost ≤ p.lowBytes ∨
      ∃ r, d.expectedReductionBytes = some r ∧ r ≤ p.lowBytes
  /-- The reduction reaches both bounds. -/
  bounds : ∃ r, d.expectedReductionBytes = some r ∧
    sufficient cost (cost - r) p.minReductionBytes p.minReductionPercent = true

/-- What an evaluation records. -/
structure Recorded (ctx : Context) (p : Advancement) (previous : Option AdaptiveState) (cost : ℕ)
    (stamp : Stamp) (d : AdaptiveDecision) (st : AdaptiveState) : Prop where
  same : ¬ st.other ctx
  inputEpoch : st.inputEpoch = ctx.inputEpoch
  lastError : st.lastError = none
  stamp : st.stamp = stamp
  attempts : st.attempts =
    (if previous.bind AdaptiveState.signature = st.signature then startAttempts ctx previous
      else 0) + if d.eligible then 1 else 0
  disarmed : d.eligible = true → st.armed = false
  armed : st.armed = true → previous.all AdaptiveState.armed = true ∨ cost ≤ p.lowBytes ∨
    ∃ r, d.expectedReductionBytes = some r ∧ r ≤ p.lowBytes
  eligible : d.eligible = true → Justified ctx p previous cost d st

variable {decision : AdaptiveDecision}

/-- What is saved is the state with the decision. -/
lemma conclude_eq_ok {state : AdaptiveState} (h : conclude input state decision = .ok (d, saved)) :
    d = decision ∧ saved = some { state with decision := some decision } := by
  unfold conclude at h
  split at h
  · cases h
  · rw [Except.ok.injEq, Prod.mk.injEq] at h
    exact ⟨h.1.symm, h.2.symm⟩

/-- The start state is recorded for what the request says. -/
lemma startState_same (ctx : Context) (p : Advancement) (previous : Option AdaptiveState)
    (cost : ℕ) (stamp : Stamp) : ¬ (startState ctx p previous cost stamp).other ctx := by
  simp [AdaptiveState.other, startState]

/-- A decision that is not eligible records the start state, except that it may arm the view. -/
lemma recorded_start {armed : Bool} (heligible : decision.eligible = false)
    (harmed : armed = true → previous.all AdaptiveState.armed = true ∨ cost ≤ p.lowBytes ∨
      ∃ r, decision.expectedReductionBytes = some r ∧ r ≤ p.lowBytes) :
    Recorded ctx p previous cost stamp decision
      { startState ctx p previous cost stamp with armed, decision := some decision } where
  same := startState_same ctx p previous cost stamp
  inputEpoch := rfl
  lastError := rfl
  stamp := rfl
  attempts := by
    show startAttempts ctx previous = (if previous.bind AdaptiveState.signature =
      previous.bind AdaptiveState.signature then startAttempts ctx previous else 0) + _
    rw [if_pos rfl, heligible]
    rfl
  disarmed h := absurd h (by simp [heligible])
  armed := harmed
  eligible h := absurd h (by simp [heligible])

/-- The start state is armed if the view was, or if the overlay is small. -/
lemma startState_armed (h : (startState ctx p previous cost stamp).armed = true) :
    previous.all AdaptiveState.armed = true ∨ cost ≤ p.lowBytes := by
  have hor : (previous.all AdaptiveState.armed || decide (cost ≤ p.lowBytes)) = true := h
  rw [or_eq_true, decide_eq_true_iff] at hor
  exact hor

/-- What a judged measurement records. -/
lemma recorded_judge {retry : Bool} {signature : String} {m : Measure}
    (hover : decision.overlayBytes = cost)
    (hretry : retry = true → previous.bind AdaptiveState.signature = some signature)
    (hbelow : previous.bind AdaptiveState.signature = some signature →
      startAttempts ctx previous < p.maxAttempts) :
    let judged := judge p (startState ctx p previous cost stamp) decision retry signature m
    Recorded ctx p previous cost stamp judged.2 { judged.1 with decision := some judged.2 } := by
  intro judged
  have hsmall : (judged.2.expectedReductionBytes = some m.reduced) := rfl
  have hsignature : judged.1.signature = some signature := rfl
  have harmed : ((startState ctx p previous cost stamp).armed ||
      decide (m.reduced ≤ p.lowBytes)) = true →
      previous.all AdaptiveState.armed = true ∨ cost ≤ p.lowBytes ∨
        ∃ r, judged.2.expectedReductionBytes = some r ∧ r ≤ p.lowBytes := by
    intro h
    rw [or_eq_true, decide_eq_true_iff] at h
    rcases h with h | h
    · exact (startState_armed h).imp id .inl
    · exact .inr (.inr ⟨m.reduced, hsmall, h⟩)
  refine ⟨startState_same ctx p previous cost stamp, rfl, rfl, rfl, ?_, ?_, ?_, fun he => ?_⟩
  · show (if judged.2.eligible then _ else _) = _
    have hsame : (startState ctx p previous cost stamp).signature =
        previous.bind AdaptiveState.signature := rfl
    simp only [hsignature, hsame]
    cases judged.2.eligible <;> rfl
  · intro he
    show (if judged.2.eligible then false else _) = false
    rw [if_pos he]
  · intro ha
    have hnot : (if judged.2.eligible then false else
        ((startState ctx p previous cost stamp).armed || decide (m.reduced ≤ p.lowBytes))) = true :=
      ha
    split_ifs at hnot
    exact harmed hnot
  · have hboth : (((startState ctx p previous cost stamp).armed ||
        decide (m.reduced ≤ p.lowBytes)) || retry) = true ∧
        sufficient decision.overlayBytes (decision.overlayBytes - m.reduced) p.minReductionBytes
          p.minReductionPercent = true := by
      rw [← and_eq_true]
      exact he
    refine ⟨hbelow, fun hne => ?_, m.reduced, hsmall, hover ▸ hboth.2⟩
    rcases (or_eq_true _ _).mp hboth.1 with ha | hr
    · exact harmed ha
    · exact absurd (hretry hr) hne

variable [DecidableEq κ]

/-- What the part of an evaluation that looks at the evidence records. -/
lemma evaluateEvidence_recorded (hover : decision.overlayBytes = cost)
    (hineligible : decision.eligible = false)
    (h : evaluateEvidence ctx p previous input (startState ctx p previous cost stamp) decision =
      .ok (d, saved)) :
    d.overlayBytes = cost ∧ ∃ st, saved = some st ∧
      Recorded ctx p previous cost stamp d st := by
  unfold evaluateEvidence at h
  split at h
  · cases h
  · rename_i signature tracked _
    dsimp only at h
    split_ifs at h with hsame
    · obtain ⟨rfl, rfl⟩ := conclude_eq_ok h
      refine ⟨hover, _, rfl, recorded_start hineligible fun ha => ?_⟩
      exact (startState_armed ha).imp id .inl
    · split at h
      · cases h
      · rename_i m _
        obtain ⟨rfl, rfl⟩ := conclude_eq_ok h
        refine ⟨hover, _, rfl, recorded_judge hover (fun hr => ?_) fun hunchanged => ?_⟩
        · rw [and_eq_true, decide_eq_true_iff] at hr
          exact hr.1
        · by_contra hmax
          exact hsame ⟨decide_eq_true hunchanged, .inr (Nat.not_lt.mp hmax)⟩

/-- What the part of an evaluation behind the watermark records. -/
lemma evaluateTarget_recorded (hover : decision.overlayBytes = cost)
    (hineligible : decision.eligible = false)
    (h : evaluateTarget ctx p previous input (startState ctx p previous cost stamp) decision =
      .ok (d, saved)) :
    d.overlayBytes = cost ∧ ∃ st, saved = some st ∧
      Recorded ctx p previous cost stamp d st := by
  unfold evaluateTarget at h
  split at h
  · cases h
  · dsimp only at h
    split_ifs at h
    · obtain ⟨rfl, rfl⟩ := conclude_eq_ok h
      exact ⟨hover, _, rfl, recorded_start hineligible fun _ =>
        .inr (.inr ⟨0, rfl, Nat.zero_le _⟩)⟩
    · refine evaluateEvidence_recorded ?_ ?_ h
      · exact hover
      · exact hineligible

/-- **What an evaluation records.** Either nothing is saved, and the evaluation is not eligible, or
the state that is saved is as described, and an eligible evaluation is not within the cooldown. -/
theorem evaluate_saved (h : evaluate ctx previous input = .ok (d, saved)) :
    (saved = none ∧ d.eligible = false) ∨
      ∃ p cost stamp st, ctx.policy = some p ∧ input.prepared = .ok (cost, stamp) ∧
        saved = some st ∧ d.overlayBytes = cost ∧ Recorded ctx p previous cost stamp d st ∧
        (d.eligible = true → cooled p.cooldownMs previous stamp = true) := by
  unfold evaluate at h
  split at h
  · cases h
  · rename_i p hp
    split at h
    · cases h
    · rename_i cost stamp hprepared
      dsimp only at h
      split_ifs at h with hcooled hhigh hclock
      · obtain ⟨rfl, rfl⟩ := conclude_eq_ok h
        refine .inr ⟨p, cost, stamp, _, hp, hprepared, rfl, rfl, recorded_start rfl fun ha => ?_,
          fun _ => hcooled⟩
        exact (startState_armed ha).imp id .inl
      · obtain ⟨hover, st, rfl, hrecorded⟩ := evaluateTarget_recorded rfl rfl h
        exact .inr ⟨p, cost, stamp, st, hp, hprepared, rfl, hover, hrecorded, fun _ => hcooled⟩
      · rw [Except.ok.injEq, Prod.mk.injEq] at h
        exact .inl ⟨h.2.symm, h.1 ▸ rfl⟩
      · obtain ⟨rfl, rfl⟩ := conclude_eq_ok h
        refine .inr ⟨p, cost, stamp, _, hp, hprepared, rfl, rfl, recorded_start rfl fun ha => ?_,
          fun he => absurd he false_ne_true⟩
        exact (startState_armed ha).imp id .inl

end Spec

end Tgrep.Managed.Adaptive
