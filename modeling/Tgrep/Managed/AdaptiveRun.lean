import Tgrep.Managed.Adaptive

/-!
# Adaptive advancement over a run

While the policy, the request and the input epoch stay the same, the attempts at one signature are
limited, eligible evaluations are apart, the view has to be armed again between them, and each of
them promises enough. This holds in any order of evaluations, failures and successes, from any
recorded state.

## Main definitions

* `Observation.eligible`, `Observation.Rearms`: an eligible evaluation, and what arms a view.
* `Event.readings`: the clock readings of an event.
* `Adaptive.Counted`, `Adaptive.NotBefore`, `Adaptive.ArmedBy`: what is known of the record after
  some eligible evaluations, after a stamp, and after an evaluation disarmed the view.

## Main results

* `Adaptive.step_cases`: what one step does to the record.
* `Adaptive.limits`: the four limits.
* `Adaptive.boot_clock_back`: a boot clock that goes back brings two evaluations closer together.
-/

namespace Tgrep.Managed.Adaptive

open List Option

variable {κ : Type}

/-! ## What is observed -/

/-- The evaluation was eligible. -/
def Observation.eligible (o : Observation κ) : Bool := o.decision.any (·.eligible)

/-- The signature that is recorded after a step. -/
def Observation.signature (o : Observation κ) : Option String :=
  o.after.bind AdaptiveState.signature

/-- The clock readings of an event. -/
def Event.readings : Event κ → List Stamp
  | .evaluate input failure =>
    (match input.prepared with
      | .ok (_, stamp) => [stamp]
      | .error _ => []) ++ failure.stamp.toList
  | .migrationFailed _ failure => failure.stamp.toList
  | .migrationSucceeded => []

/-- The clocks as an evaluation reads them. -/
def Event.stamp : Event κ → Option Stamp
  | .evaluate ⟨.ok (_, stamp), _, _, _⟩ _ => some stamp
  | _ => none

/-- The overlay is at or below the low watermark, or its reducible part is, which is nothing if the
target tree is current, or a migration succeeded. -/
def Observation.Rearms (p : Advancement) (o : Observation κ) : Prop :=
  match o.event with
  | .evaluate input _ =>
    (∃ cost stamp, input.prepared = .ok (cost, stamp) ∧ cost ≤ p.lowBytes) ∨
      ∃ d r, o.decision = some d ∧ d.expectedReductionBytes = some r ∧ r ≤ p.lowBytes
  | .migrationFailed _ _ => False
  | .migrationSucceeded => True

/-- What is recorded of a failure. -/
structure Failed (ctx : Context) (previous : Option AdaptiveState) (error : Error)
    (st : AdaptiveState) : Prop where
  same : ¬ st.other ctx
  inputEpoch : st.inputEpoch = ctx.inputEpoch
  lastError : st.lastError = some error
  signature : st.signature = previous.bind AdaptiveState.signature
  armed : st.armed = previous.all AdaptiveState.armed
  attempts : ∃ counted, st.attempts = failedAttempts ctx previous counted

/-- A failure is recorded with a reading of the clocks, or not at all. -/
lemma recordFailure_cases (ctx : Context) (previous : Option AdaptiveState) (error : Error)
    (counted : Bool) (failure : Failure) :
    recordFailure ctx previous error counted failure = previous ∨
      ∃ st, recordFailure ctx previous error counted failure = some st ∧
        Failed ctx previous error st ∧ failure.stamp = some st.stamp := by
  unfold recordFailure
  split_ifs with hversion
  · exact .inl rfl
  · cases hstamp : failure.stamp with
    | none => exact .inl rfl
    | some stamp =>
      refine .inr ⟨_, rfl, ⟨?_, rfl, rfl, rfl, rfl, counted, rfl⟩, rfl⟩
      simpa [AdaptiveState.other] using hversion

section Step

variable {ctx : Context} {s : Option AdaptiveState} {p : Advancement}

/-- The record of an evaluation, in a step. -/
structure Evaluated (ctx : Context) (p : Advancement) (s : Option AdaptiveState) (e : Event κ)
    (o : Observation κ) (cost : ℕ) (d : AdaptiveDecision) (st : AdaptiveState) : Prop where
  event : ∃ input failure, e = .evaluate input failure ∧ input.prepared = .ok (cost, st.stamp)
  decision : o.decision = some d
  after : o.after = some st
  overlay : d.overlayBytes = cost
  recorded : Recorded ctx p s cost st.stamp d st
  cooled : d.eligible = true → cooled p.cooldownMs s st.stamp = true

variable {n cost millis : ℕ} {boot : String} {e : Event κ} {st : AdaptiveState}

variable {d : AdaptiveDecision} {events : List (Event κ)} {signature : Option String}
  {os : List (Observation κ)}

/-- The readings of an evaluation are among those of its event. -/
lemma Evaluated.stamp_mem {o : Observation κ} (h : Evaluated ctx p s e o cost d st) :
    st.stamp ∈ e.readings ∧ e.stamp = some st.stamp := by
  obtain ⟨⟨prepared, target, evidence, saved⟩, failure, rfl, hprepared⟩ := h.event
  obtain rfl : prepared = .ok (cost, st.stamp) := hprepared
  exact ⟨mem_append_left _ (mem_singleton_self _), rfl⟩

variable [DecidableEq κ]

/-- **What a step does**: nothing to the record, or it records an evaluation or a failure, or arms
the view. -/
theorem step_cases (hp : ctx.policy = some p) (s : Option AdaptiveState) (e : Event κ) :
    ((step ctx s e).after = s ∧ (step ctx s e).eligible = false) ∨
      (∃ cost d st, Evaluated ctx p s e (step ctx s e) cost d st) ∨
      (∃ error st, (step ctx s e).error = some error ∧ (step ctx s e).decision = none ∧
        (step ctx s e).after = some st ∧ Failed ctx s error st ∧ st.stamp ∈ e.readings) ∨
      (e = .migrationSucceeded ∧ (step ctx s e).decision = none ∧
        (step ctx s e).after = s.map fun st => { st with armed := true }) := by
  cases e with
  | evaluate input failure =>
    rw [step]
    cases heval : evaluate ctx s input with
    | error error =>
      rcases recordFailure_cases ctx s error false failure with hsame | ⟨st, hst, hfailed, hstamp⟩
      · exact .inl ⟨hsame, rfl⟩
      · refine .inr (.inr (.inl ⟨error, st, rfl, rfl, hst, hfailed, ?_⟩))
        rw [Event.readings, hstamp]
        exact mem_append_right _ (mem_singleton_self _)
    | ok result =>
      obtain ⟨d, saved⟩ := result
      rcases evaluate_saved heval with ⟨rfl, hd⟩ |
        ⟨p', cost, stamp, st, hp', hprepared, rfl, hoverlay, hrecorded, hcooled⟩
      · exact .inl ⟨rfl, hd⟩
      · obtain rfl := some.inj (hp'.symm.trans hp)
        obtain rfl := hrecorded.stamp
        exact .inr (.inl ⟨cost, d, st, ⟨input, failure, rfl, hprepared⟩, rfl, rfl, hoverlay,
          hrecorded, hcooled⟩)
  | migrationFailed error failure =>
    rw [step]
    rcases recordFailure_cases ctx s error true failure with hsame | ⟨st, hst, hfailed, hstamp⟩
    · exact .inl ⟨hsame, rfl⟩
    · refine .inr (.inr (.inl ⟨error, st, rfl, rfl, hst, hfailed, ?_⟩))
      rw [Event.readings, hstamp]
      exact mem_singleton_self _
  | migrationSucceeded => exact .inr (.inr (.inr ⟨rfl, rfl, rfl⟩))

/-- An eligible step is an evaluation that is recorded. -/
lemma evaluated_of_eligible (hp : ctx.policy = some p) (h : (step ctx s e).eligible = true) :
    ∃ cost d st, Evaluated ctx p s e (step ctx s e) cost d st ∧ d.eligible = true := by
  rcases step_cases hp s e with ⟨-, hno⟩ | ⟨cost, d, st, hev⟩ | ⟨_, _, -, hnone, -⟩ | ⟨-, hnone, -⟩
  · rw [hno] at h
    cases h
  · refine ⟨cost, d, st, hev, ?_⟩
    rwa [Observation.eligible, hev.decision] at h
  · rw [Observation.eligible, hnone] at h
    cases h
  · rw [Observation.eligible, hnone] at h
    cases h

/-! ## Attempts -/

/-- After `n` eligible evaluations of the signature: they are counted as attempts, and no more than
the maximum. -/
def Counted (ctx : Context) (p : Advancement) (signature : Option String) (n : ℕ)
    (s : Option AdaptiveState) : Prop :=
  n = 0 ∨ ∃ st, s = some st ∧ ¬ st.other ctx ∧ st.inputEpoch = ctx.inputEpoch ∧
    st.fixedPin = false ∧ st.signature = signature ∧ n ≤ st.attempts ∧ n ≤ p.maxAttempts

/-- The attempts of a record for the same request count. -/
lemma startAttempts_of_same (hsame : ¬ st.other ctx) (hpin : st.fixedPin = false) :
    startAttempts ctx (some st) = st.attempts := by
  have hnot : ((some st).any fun s => decide (s.other ctx) || s.fixedPin) = false := by
    rw [any_some, decide_eq_false hsame, hpin]
    rfl
  rw [startAttempts, hnot]
  rfl

/-- The attempts do not fall at a failure. -/
lemma le_failedAttempts (hsame : ¬ st.other ctx) (hepoch : st.inputEpoch = ctx.inputEpoch)
    (hn : n ≤ st.attempts) (hmax : n ≤ 64) (counted : Bool) :
    n ≤ failedAttempts ctx (some st) counted := by
  have hnot : ¬ (st.inputEpoch ≠ ctx.inputEpoch ∨ st.other ctx) := by
    rintro (h | h)
    · exact h hepoch
    · exact hsame h
  rw [failedAttempts, if_neg hnot]
  omega

/-- **One step counts its attempt.** -/
lemma Counted.step (hp : ctx.policy = some p) (h : Counted ctx p signature n s)
    (hsignature : (step ctx s e).signature = signature)
    (hpin : ∀ error, (step ctx s e).error = some error → error.reasonCode ≠ FIXED_PIN) :
    Counted ctx p signature (n + if (step ctx s e).eligible then 1 else 0) (step ctx s e).after := by
  rcases step_cases hp s e with ⟨hafter, hno⟩ | ⟨cost, d, st, hev⟩ |
    ⟨error, st, herror, hnone, hafter, hfailed, -⟩ | ⟨-, hnone, hafter⟩
  · rwa [hno, hafter, if_neg Bool.false_ne_true, Nat.add_zero]
  · have heligible : (Adaptive.step ctx s e).eligible = d.eligible := by
      rw [Observation.eligible, hev.decision]
      rfl
    have hst : st.signature = signature := by
      rw [← hsignature, Observation.signature, hev.after]
      rfl
    have hfixed : st.fixedPin = false := by rw [AdaptiveState.fixedPin, hev.recorded.lastError]; rfl
    rw [heligible, hev.after]
    have hattempts := hev.recorded.attempts
    -- the attempts before, as far as they were at this signature
    have hbefore : n ≤ (if s.bind AdaptiveState.signature = st.signature then startAttempts ctx s
        else 0) ∧ n ≤ p.maxAttempts := by
      rcases h with rfl | ⟨st₀, rfl, hsame, -, hpin₀, hsig, hn, hmax⟩
      · exact ⟨Nat.zero_le _, Nat.zero_le _⟩
      · have heq : (some st₀).bind AdaptiveState.signature = st.signature := hsig.trans hst.symm
        rw [if_pos heq, startAttempts_of_same hsame hpin₀]
        exact ⟨hn, hmax⟩
    refine .inr ⟨st, rfl, hev.recorded.same, hev.recorded.inputEpoch, hfixed, hst, ?_, ?_⟩
    · rw [hattempts]
      exact Nat.add_le_add_right hbefore.1 _
    · cases hd : d.eligible with
      | false => simpa using hbefore.2
      | true =>
        have hjust := hev.recorded.eligible hd
        by_cases heq : s.bind AdaptiveState.signature = st.signature
        · have hlt := hjust.below heq
          rw [if_pos heq] at hbefore
          rw [if_pos rfl]
          omega
        · have hone := p.one_le_maxAttempts
          rw [if_neg heq] at hbefore
          rw [if_pos rfl]
          omega
  · have hno : (Adaptive.step ctx s e).eligible = false := by
      rw [Observation.eligible, hnone]
      rfl
    rw [hno, hafter, if_neg Bool.false_ne_true, Nat.add_zero]
    rcases h with rfl | ⟨st₀, rfl, hsame, hepoch, -, hsig, hn, hmax⟩
    · exact .inl rfl
    · obtain ⟨counted, hattempts⟩ := hfailed.attempts
      refine .inr ⟨st, rfl, hfailed.same, hfailed.inputEpoch, ?_, hfailed.signature.trans hsig, ?_,
        hmax⟩
      · rw [AdaptiveState.fixedPin, hfailed.lastError, any_some]
        exact decide_eq_false (hpin error herror)
      · rw [hattempts]
        exact le_failedAttempts hsame hepoch hn (Nat.le_trans hmax p.maxAttempts_le) counted
  · have hno : (Adaptive.step ctx s e).eligible = false := by
      rw [Observation.eligible, hnone]
      rfl
    rw [hno, hafter, if_neg Bool.false_ne_true, Nat.add_zero]
    rcases h with rfl | ⟨st₀, rfl, hsame, hepoch, hpin₀, hsig, hn, hmax⟩
    · exact .inl rfl
    · exact .inr ⟨_, rfl, hsame, hepoch, hpin₀, hsig, hn, hmax⟩

/-- **Attempts are limited.** By induction on the run: the eligible evaluations so far are
counted. -/
lemma Counted.trace (hp : ctx.policy = some p) (h : Counted ctx p signature n s)
    (hsignature : ∀ o ∈ trace ctx s events, o.signature = signature)
    (hpin : ∀ o ∈ trace ctx s events, ∀ error, o.error = some error → error.reasonCode ≠ FIXED_PIN)
    : n + ((trace ctx s events).filter Observation.eligible).length ≤ p.maxAttempts := by
  induction events generalizing n s with
  | nil =>
    rcases h with rfl | ⟨-, -, -, -, -, -, -, hmax⟩
    · exact Nat.zero_le _
    · exact hmax
  | cons e events ih =>
    obtain ⟨hsig, hsigs⟩ := List.forall_mem_cons.mp hsignature
    obtain ⟨hno, hnos⟩ := List.forall_mem_cons.mp hpin
    have := ih (h.step hp hsig hno) hsigs hnos
    rw [Adaptive.trace, filter_cons]
    split_ifs at this ⊢ with heligible
    · rw [length_cons]
      omega
    · exact this

/-! ## The cooldown -/

/-- There is a record, and if it was made under the boot clock, it is not before `millis`. -/
def NotBefore (boot : String) (millis : ℕ) (s : Option AdaptiveState) : Prop :=
  ∃ st, s = some st ∧ (st.stamp.boot = boot → millis ≤ st.stamp.millis)

/-- A step does not go before `millis` unless its clock reading does. -/
lemma NotBefore.step (hp : ctx.policy = some p) (h : NotBefore boot millis s)
    (hreadings : ∀ r ∈ e.readings, r.boot = boot → millis ≤ r.millis) :
    NotBefore boot millis (step ctx s e).after := by
  rcases step_cases hp s e with ⟨hafter, -⟩ | ⟨cost, d, st, hev⟩ | ⟨_, st, -, -, hafter, -, hmem⟩ |
    ⟨-, -, hafter⟩
  · rwa [hafter]
  · exact ⟨st, hev.after, hreadings _ hev.stamp_mem.1⟩
  · exact ⟨st, hafter, hreadings _ hmem⟩
  · obtain ⟨st, rfl, hst⟩ := h
    exact ⟨_, hafter, hst⟩

/-- A run does not go before `millis` unless a clock reading does. -/
lemma NotBefore.exec (hp : ctx.policy = some p) (h : NotBefore boot millis s)
    (hreadings : ∀ e ∈ events, ∀ r ∈ e.readings, r.boot = boot → millis ≤ r.millis) :
    NotBefore boot millis (exec ctx s events) := by
  induction events generalizing s with
  | nil => exact h
  | cons e events ih =>
    obtain ⟨he, hrest⟩ := List.forall_mem_cons.mp hreadings
    exact ih (h.step hp he) hrest

/-- An eligible evaluation is the cooldown behind what is recorded. -/
lemma le_millis_of_eligible {stamp : Stamp} (h : NotBefore boot millis s)
    (hboot : stamp.boot = boot) (hcooled : cooled p.cooldownMs s stamp = true) :
    millis + p.cooldownMs ≤ stamp.millis := by
  obtain ⟨st, rfl, hst⟩ := h
  rw [cooled, all_some, Option.any_eq_true] at hcooled
  obtain ⟨gap, hgap, hle⟩ := hcooled
  rw [decide_eq_true_iff] at hle
  unfold elapsed at hgap
  split_ifs at hgap with hclock
  have hsum := Counter.checkedSub_eq_some.mp hgap
  have := hst (hclock.1.trans hboot)
  omega

/-! ## Arming -/

/-- The view is disarmed, unless one of the observations armed it. -/
def ArmedBy (p : Advancement) (os : List (Observation κ)) (s : Option AdaptiveState) : Prop :=
  (∃ st, s = some st ∧ st.armed = false) ∨ ∃ o ∈ os, o.Rearms p

/-- What an evaluation finds small arms the view. -/
lemma Evaluated.rearms (h : Evaluated ctx p s e (Adaptive.step ctx s e) cost d st)
    (hsmall : cost ≤ p.lowBytes ∨ ∃ r, d.expectedReductionBytes = some r ∧ r ≤ p.lowBytes) :
    (Adaptive.step ctx s e).Rearms p := by
  obtain ⟨input, failure, rfl, hprepared⟩ := h.event
  have hevent : (Adaptive.step ctx s (.evaluate input failure)).event =
      .evaluate input failure := by
    rw [Adaptive.step]
    split <;> rfl
  unfold Observation.Rearms
  rw [hevent]
  rcases hsmall with hcost | ⟨r, hr, hle⟩
  · exact .inl ⟨cost, _, hprepared, hcost⟩
  · exact .inr ⟨d, r, h.decision, hr, hle⟩

/-- A step leaves the view disarmed, or arms it. -/
lemma ArmedBy.step (hp : ctx.policy = some p) (h : ArmedBy p os s) (e : Event κ) :
    ArmedBy p (os ++ [step ctx s e]) (step ctx s e).after := by
  rcases h with ⟨st, rfl, harmed⟩ | ⟨o, ho, hrearms⟩
  · rcases step_cases hp (some st) e with ⟨hafter, -⟩ | ⟨cost, d, st', hev⟩ |
      ⟨_, st', -, -, hafter, hfailed, -⟩ | ⟨rfl, -, -⟩
    · exact .inl ⟨st, hafter, harmed⟩
    · cases harmed' : st'.armed with
      | false => exact .inl ⟨st', hev.after, harmed'⟩
      | true =>
        rcases hev.recorded.armed harmed' with hbefore | hsmall
        · rw [all_some, harmed] at hbefore
          cases hbefore
        · exact .inr ⟨_, mem_append_right _ (mem_singleton_self _), hev.rearms hsmall⟩
    · refine .inl ⟨st', hafter, ?_⟩
      rw [hfailed.armed]
      exact harmed
    · exact .inr ⟨_, mem_append_right _ (mem_singleton_self _), trivial⟩
  · exact .inr ⟨o, mem_append_left _ ho, hrearms⟩

/-- A run leaves the view disarmed, or arms it. -/
lemma ArmedBy.exec (hp : ctx.policy = some p) (h : ArmedBy p os s) (events : List (Event κ)) :
    ArmedBy p (os ++ trace ctx s events) (exec ctx s events) := by
  induction events generalizing os s with
  | nil =>
    rw [trace, append_nil]
    exact h
  | cons e events ih =>
    have := ih (h.step hp e)
    rwa [append_assoc] at this

/-! ## The limits -/

/-- A sufficient reduction reaches both bounds. -/
lemma bounds_of_sufficient {r absolute percent : ℕ}
    (h : sufficient cost (cost - r) absolute percent = true) :
    absolute ≤ min cost r ∧ cost * percent ≤ min cost r * 100 := by
  rw [sufficient, Option.any_eq_true] at h
  obtain ⟨reduction, hsub, hboth⟩ := h
  rw [Bool.and_eq_true, decide_eq_true_iff, decide_eq_true_iff] at hboth
  obtain rfl : reduction = min cost r := by
    have := Counter.checkedSub_eq_some.mp hsub
    omega
  exact hboth

/-- **Adaptive advancement is limited.** Let the policy, the request and the input epoch stay the
same.

* As long as the recorded signature does not change, and no failure is a conflict with a fixed pin,
  at most `maxAttempts` evaluations are eligible.
* Two eligible evaluations under one boot clock are the cooldown apart, unless this clock reads less
  than at the first of them in between.
* After an eligible evaluation, one of another signature is only eligible if the overlay or its
  reducible part was at or below the low watermark since then, or is in this evaluation, or a
  migration succeeded.
* The reduction of an eligible evaluation reaches both bounds. -/
theorem limits (ctx : Context) (p : Advancement) (hp : ctx.policy = some p) :
    (∀ (s : Option AdaptiveState) (events : List (Event κ)) (signature : Option String),
      (∀ o ∈ trace ctx s events, o.signature = signature) →
      (∀ o ∈ trace ctx s events, ∀ e, o.error = some e → e.reasonCode ≠ FIXED_PIN) →
        ((trace ctx s events).filter Observation.eligible).length ≤ p.maxAttempts) ∧
    (∀ (s : Option AdaptiveState) (first last : Event κ) (events : List (Event κ)) (t u : Stamp),
      (step ctx s first).eligible = true →
      (step ctx (exec ctx (step ctx s first).after events) last).eligible = true →
      first.stamp = some t → last.stamp = some u → t.boot = u.boot →
      (∀ e ∈ events, ∀ r ∈ e.readings, r.boot = t.boot → t.millis ≤ r.millis) →
        t.millis + p.cooldownMs ≤ u.millis) ∧
    (∀ (s : Option AdaptiveState) (first last : Event κ) (events : List (Event κ)),
      (step ctx s first).eligible = true →
      (step ctx (exec ctx (step ctx s first).after events) last).eligible = true →
      (step ctx (exec ctx (step ctx s first).after events) last).signature ≠
        (exec ctx (step ctx s first).after events).bind AdaptiveState.signature →
        ∃ o ∈ trace ctx (step ctx s first).after (events ++ [last]), o.Rearms p) ∧
    ∀ (s : Option AdaptiveState) (e : Event κ), (step ctx s e).eligible = true →
      ∃ d r, (step ctx s e).decision = some d ∧ d.expectedReductionBytes = some r ∧
        p.minReductionBytes ≤ min d.overlayBytes r ∧
        d.overlayBytes * p.minReductionPercent ≤ min d.overlayBytes r * 100 := by
  refine ⟨fun s events signature hsignature hpin => ?_, fun s first last events t u => ?_,
    fun s first last events => ?_, fun s e he => ?_⟩
  · have hstart : Counted ctx p signature 0 s := .inl rfl
    have := hstart.trace hp hsignature hpin
    rwa [Nat.zero_add] at this
  · intro hfirst hlast ht hu hboot hreadings
    obtain ⟨cost, d, st, hev, -⟩ := evaluated_of_eligible hp hfirst
    obtain ⟨cost', d', st', hev', hd'⟩ := evaluated_of_eligible hp hlast
    obtain rfl : st.stamp = t := some.inj (hev.stamp_mem.2.symm.trans ht)
    obtain rfl : st'.stamp = u := some.inj (hev'.stamp_mem.2.symm.trans hu)
    have hafter : NotBefore st.stamp.boot st.stamp.millis (step ctx s first).after :=
      ⟨st, hev.after, fun _ => Nat.le_refl _⟩
    exact le_millis_of_eligible (hafter.exec hp hreadings) hboot.symm (hev'.cooled hd')
  · intro hfirst hlast hsignature
    obtain ⟨cost, d, st, hev, hd⟩ := evaluated_of_eligible hp hfirst
    obtain ⟨cost', d', st', hev', hd'⟩ := evaluated_of_eligible hp hlast
    have htrace : ∀ (s : Option AdaptiveState) (es : List (Event κ)),
        trace ctx s (es ++ [last]) = trace ctx s es ++ [step ctx (exec ctx s es) last] := by
      intro s es
      induction es generalizing s with
      | nil => rfl
      | cons e es ih => exact congrArg (step ctx s e :: ·) (ih _)
    have hstart : ArmedBy p ([] : List (Observation κ)) (step ctx s first).after :=
      .inl ⟨st, hev.after, hev.recorded.disarmed hd⟩
    rw [htrace]
    rcases hstart.exec hp events with ⟨st₀, hst₀, harmed⟩ | ⟨o, ho, hrearms⟩
    · -- the view was disarmed, so this evaluation found something small
      have hne : (exec ctx (step ctx s first).after events).bind AdaptiveState.signature ≠
          st'.signature := by
        intro heq
        refine hsignature ?_
        rw [Observation.signature, hev'.after]
        exact heq.symm
      refine ⟨_, mem_append_right _ (mem_singleton_self _), hev'.rearms ?_⟩
      refine ((hev'.recorded.eligible hd').rearmed hne).resolve_left fun hall => ?_
      rw [hst₀, all_some, harmed] at hall
      cases hall
    · exact ⟨o, mem_append_left _ ho, hrearms⟩
  · obtain ⟨cost, d, st, hev, hd⟩ := evaluated_of_eligible hp he
    obtain ⟨r, hr, hsufficient⟩ := (hev.recorded.eligible hd).bounds
    exact ⟨d, r, hev.decision, hr, hev.overlay ▸ bounds_of_sufficient hsufficient⟩

end Step

/-! ### Runs -/

/-- A policy with a cooldown of 600 milliseconds and two attempts. -/
def samplePolicy : Advancement := ⟨500, 100, 50, 10, 600, 1000, 2, by decide, by decide⟩

/-- A request under that policy. -/
def sampleContext : Context := ⟨some samplePolicy, 1, 1000, 1, 1, 1, 1⟩

/-- An evaluation that finds 800 of 1000 bytes reducible. -/
def sampleEvent (millis wallMillis : ℕ) (signature : String) : Event ℕ :=
  .evaluate ⟨.ok (1000, ⟨"boot", millis, wallMillis⟩), .ok ("commit", false),
    .ok (signature, [⟨.ok (), 800, some 1, .sameBlob (some 1)⟩]), .ok ()⟩ ⟨1, none⟩

/-- `limits` for two eligible evaluations with a migration between them. -/
theorem limits_sample :
    ((trace sampleContext none [sampleEvent 1000 1 "a"]).filter Observation.eligible).length ≤ 2 ∧
      1000 + 600 ≤ 1700 ∧
      (∃ o ∈ trace sampleContext (step sampleContext none (sampleEvent 1000 1 "a")).after
        ([.migrationSucceeded] ++ [sampleEvent 1700 2 "b"]), o.Rearms samplePolicy) ∧
      ∃ d r, (step sampleContext none (sampleEvent 1000 1 "a")).decision = some d ∧
        d.expectedReductionBytes = some r ∧ 50 ≤ min d.overlayBytes r ∧
        d.overlayBytes * 10 ≤ min d.overlayBytes r * 100 := by
  obtain ⟨hattempts, hcooldown, harmed, hbounds⟩ :=
    @limits ℕ _ sampleContext samplePolicy rfl
  refine ⟨hattempts none [sampleEvent 1000 1 "a"] (some "a") ?_ ?_, ?_, ?_, ?_⟩
  · intro o ho
    rw [List.mem_singleton.mp ho]
    rfl
  · intro o ho e he
    rw [List.mem_singleton.mp ho] at he
    cases he
  · refine hcooldown none (sampleEvent 1000 1 "a") (sampleEvent 1700 2 "b") [.migrationSucceeded]
      ⟨"boot", 1000, 1⟩ ⟨"boot", 1700, 2⟩ (by decide +kernel) (by decide +kernel) rfl rfl rfl ?_
    intro e he r hr
    rw [List.mem_singleton.mp he] at hr
    cases hr
  · exact harmed none (sampleEvent 1000 1 "a") (sampleEvent 1700 2 "b") [.migrationSucceeded]
      (by decide +kernel) (by decide +kernel) (by decide +kernel)
  · exact hbounds none (sampleEvent 1000 1 "a") (by decide +kernel)

/-- A boot clock that goes back brings two eligible evaluations closer together than the
cooldown. -/
theorem boot_clock_back :
    ∃ (first last : Event ℕ) (events : List (Event ℕ)) (t u : Stamp),
      (step sampleContext none first).eligible = true ∧
      (step sampleContext (exec sampleContext (step sampleContext none first).after events)
        last).eligible = true ∧
      first.stamp = some t ∧ last.stamp = some u ∧ t.boot = u.boot ∧
      ¬ t.millis + samplePolicy.cooldownMs ≤ u.millis ∧
      ¬ u.millis + samplePolicy.cooldownMs ≤ t.millis :=
  ⟨sampleEvent 1000 1 "a", sampleEvent 1100 3 "b", [.migrationSucceeded, sampleEvent 500 2 "a"],
    ⟨"boot", 1000, 1⟩, ⟨"boot", 1100, 3⟩, by decide +kernel, by decide +kernel, rfl, rfl, rfl,
    by decide, by decide⟩

end Tgrep.Managed.Adaptive
