import Gwead.ReturnSignal

/-!
# The result of a `try` step

The documented rule composes the result of a `try` step from the block that decided it: the `try`
block when it succeeded, the handlers when they recovered it, nothing when an empty `catch`
swallowed the failure.  The code combines what the handlers left with what the `try` block left, so
the rule holds exactly where a block that failed part-way has nothing to leave.
-/

namespace Gwead

open Program

/-- What the last of a list of steps has stored. -/
def lastStored (steps : List StepDef) (s : ExecutionState) : Option Value :=
  steps.getLast?.bind fun step => s.stepResults.get? step.id

section Rule

variable (host : Host) (run : StepDef → Nat → Exec Bool) (step : StepDef)

/-- What the handlers of a `try` step leave after a failure: nothing when there are none. -/
def handledResult (s : ExecutionState) : Option Value :=
  match step.params.get "catch" with
  | none => none
  | some body =>
    let handlers := StepDef.bodySteps (some body)
    if handlers.isEmpty then none
    else
      match runHandlers host run step handlers s with
      | .ok _ s' => lastStored handlers s'
      | .error _ _ => none

/-- The documented result: the last step of the `try` block where that block succeeded, else the
last handler, and `Null` where that step stored nothing. -/
def documentedTryResult (s : ExecutionState) : Value :=
  let body := StepDef.bodySteps (step.params.get "try")
  match runBlock host run body s with
  | .ok (.failed, _) s₁ => (handledResult host run step s₁).getD .null
  | .ok _ s₁ => (lastStored body s₁).getD .null
  | .error _ _ => .null

end Rule

/-! ### Blocks -/

section Blocks

variable {host : Host} {run : StepDef → Nat → Exec Bool}

/-- What is left of a list of steps that ran to its end is the result of its last step. -/
theorem runSteps_completed {steps : List StepDef} {idx : Nat} {last r : Option Value}
    {s s' : ExecutionState} (h : runSteps host run steps idx last s = .ok (.completed, r) s') :
    r = if steps.isEmpty then last else lastStored steps s' := by
  induction steps generalizing idx last s with
  | nil =>
    cases h
    rfl
  | cons inner rest ih =>
    obtain ⟨_, s₁, -, h⟩ := bind_ok.mp h
    obtain ⟨ok, s₂, -, h⟩ := bind_ok.mp h
    cases ok with
    | false =>
      obtain ⟨_, s₃, -, h⟩ := bind_ok.mp h
      cases h
    | true =>
      obtain ⟨t, s₃, hget, h⟩ := bind_ok.mp h
      cases hget
      split at h
      · cases h
      · have hrest := ih h
        cases rest with
        | nil =>
          cases h
          simp [lastStored]
        | cons next more => simpa [lastStored] using hrest

theorem runSteps_returned {steps : List StepDef} {idx : Nat} {last r : Option Value}
    {s s' : ExecutionState} (h : runSteps host run steps idx last s = .ok (.returned, r) s') :
    s'.returnSignal.isSome := by
  induction steps generalizing idx last s with
  | nil => cases h
  | cons inner rest ih =>
    obtain ⟨_, s₁, -, h⟩ := bind_ok.mp h
    obtain ⟨ok, s₂, -, h⟩ := bind_ok.mp h
    cases ok with
    | false =>
      obtain ⟨_, s₃, -, h⟩ := bind_ok.mp h
      cases h
    | true =>
      obtain ⟨t, s₃, hget, h⟩ := bind_ok.mp h
      cases hget
      split at h
      · rename_i hsignal
        cases h
        exact hsignal
      · exact ih h

/-- A block is its steps, run on the action they are spliced onto. -/
theorem runBlock_ok {steps : List StepDef} {ended : BodyEnd} {r : Option Value}
    {s s' : ExecutionState} (h : runBlock host run steps s = .ok (ended, r) s') :
    steps = [] ∧ ended = .completed ∧ r = none ∧ s' = s ∨
      ∃ t, runSteps host run steps s.action.steps.length none (s.spliceSteps steps) =
        .ok (ended, r) t ∧ s' = t.truncateSteps s.action.steps.length := by
  unfold runBlock at h
  split at h
  · rename_i hempty
    cases h
    exact Or.inl ⟨List.isEmpty_iff.mp hempty, rfl, rfl, rfl⟩
  · unfold withSpliced at h
    dsimp only at h
    split at h
    · rename_i heq
      cases h
      exact Or.inr ⟨_, heq, rfl⟩
    · cases h

theorem runBlock_completed {steps : List StepDef} {r : Option Value} {s s' : ExecutionState}
    (h : runBlock host run steps s = .ok (.completed, r) s') : r = lastStored steps s' := by
  obtain ⟨rfl, -, rfl, rfl⟩ | ⟨t, ht, rfl⟩ := runBlock_ok h
  · rfl
  · have hr := runSteps_completed ht
    cases steps with
    | nil => simpa [lastStored] using hr
    | cons inner rest => simpa [lastStored, ExecutionState.truncateSteps] using hr

theorem runBlock_returned {steps : List StepDef} {r : Option Value} {s s' : ExecutionState}
    (h : runBlock host run steps s = .ok (.returned, r) s') : s'.returnSignal.isSome := by
  obtain ⟨-, hended, -, -⟩ | ⟨t, ht, rfl⟩ := runBlock_ok h
  · cases hended
  · have hsignal := runSteps_returned ht
    exact hsignal

/-- Handlers are a block, run with the failure's message on the error stack. -/
theorem runHandlers_ok {step : StepDef} {handlers : List StepDef} {a : BodyEnd × Option Value}
    {s s' : ExecutionState} (h : runHandlers host run step handlers s = .ok a s') :
    ∃ t, runBlock host run handlers
        ((s.pushError (s.lastError.getD ("step '" ++ step.id ++ "' failed"))).clearFailure) =
          .ok a t ∧ s' = t.popError := by
  unfold runHandlers at h
  dsimp only at h
  split at h
  · rename_i heq
    cases h
    exact ⟨_, heq, rfl⟩
  · cases h

end Blocks

/-! ### The stored result -/

/-- Unless it is refused, a stored result is there afterwards. -/
theorem get?_storeStepResult {s : ExecutionState} {id : String} {v : Value}
    (h : escapingViolation (s.storeStepResult id v) = none) :
    (s.storeStepResult id v).stepResults.get? id = some v := by
  unfold ExecutionState.storeStepResult at h ⊢
  dsimp only at h ⊢
  split at h
  · cases h
  · rename_i hfits
    rw [if_neg hfits]
    exact s.stepResults.get?_insert_self id v

theorem returnSignal_storeStepResult (s : ExecutionState) (id : String) (v : Value) :
    (s.storeStepResult id v).returnSignal = s.returnSignal := by
  obtain ⟨f, r, b, m, h⟩ := s.storeStepResult_eq id v
  rw [h]

section Stored

variable {host : Host} {run : StepDef → Nat → Exec Bool} {step : StepDef}

/-- A `try` that did not fail in the end stored what its blocks left. -/
theorem finishTry_stored {failed : Bool} {result : Option Value} {s s' : ExecutionState}
    (h : finishTry host run step failed result s = .ok true s') (hret : s'.returnSignal = none)
    (hraise : escapingViolation s' = none) :
    failed = false ∧ s.returnSignal = none ∧
      s'.stepResults.get? step.id = some (result.getD .null) := by
  obtain ⟨ok, s₁, hfinally, h⟩ := bind_ok.mp h
  split at h
  · cases h
  · rename_i hgo
    have hfailed : failed = false := by
      cases failed
      · rfl
      · simp at hgo
    obtain ⟨_, s₂, hstore, h⟩ := bind_ok.mp h
    cases h
    cases hstore
    rw [returnSignal_storeStepResult] at hret
    refine ⟨hfailed, ?_, get?_storeStepResult hraise⟩
    -- `finally` is skipped under a return signal, which then stays
    obtain ⟨returned, t, hreturned, hfinally⟩ := bind_ok.mp hfinally
    cases hreturned
    split at hfinally
    · cases hfinally
      exact hret
    · rename_i hnot
      simpa using hnot

/-- How a failure was recovered without a return: swallowed, or handled to the end. -/
theorem runCatch_recovered {last : Option Value} {s s' : ExecutionState}
    (h : runCatch host run step s = .ok (false, last) s') (hret : s'.returnSignal = none) :
    last = handledResult host run step s := by
  unfold runCatch at h
  unfold handledResult
  cases hbody : step.params.get "catch" with
  | none =>
    rw [hbody] at h
    cases h
  | some body =>
    simp only [hbody] at h ⊢
    by_cases hempty : (StepDef.bodySteps (some body)).isEmpty
    · rw [if_pos hempty] at h ⊢
      obtain ⟨_, s₁, -, h⟩ := bind_ok.mp h
      cases h
      rfl
    · rw [if_neg hempty] at h ⊢
      obtain ⟨⟨ended, r⟩, s₁, hhandlers, h⟩ := bind_ok.mp h
      obtain ⟨t, hblock, rfl⟩ := runHandlers_ok hhandlers
      rw [hhandlers]
      cases ended with
      | completed =>
        cases h
        have hlast := runBlock_completed hblock
        exact hlast
      | returned =>
        cases h
        have hsignal := runBlock_returned hblock
        rw [show t.returnSignal = none from hret] at hsignal
        cases hsignal
      | failed => cases h

/-- However a `try` step succeeds without a return, it stores what the handlers left, or else what
the `try` block left. -/
theorem runTry_stored {s s' : ExecutionState} (h : runTry host run step s = .ok true s')
    (hret : s'.returnSignal = none) (hraise : escapingViolation s' = none) :
    ∃ ended lastTry s₁,
      runBlock host run (StepDef.bodySteps (step.params.get "try")) s = .ok (ended, lastTry) s₁ ∧
        (ended = .completed ∧ s'.stepResults.get? step.id = some (lastTry.getD .null) ∨
          ended = .failed ∧ s'.stepResults.get? step.id =
            some (((handledResult host run step s₁).or lastTry).getD .null)) := by
  obtain ⟨⟨ended, lastTry⟩, s₁, hblock, h⟩ := bind_ok.mp h
  obtain ⟨returned, t, hreturned, h⟩ := bind_ok.mp h
  cases hreturned
  refine ⟨ended, lastTry, s₁, hblock, ?_⟩
  by_cases hsignal : s₁.returnSignal.isSome
  · simp only [hsignal, if_true] at h
    cases h
    simp [hret] at hsignal
  · simp only [hsignal, if_false, Bool.false_eq_true] at h
    split at h
    · rename_i hfailed
      obtain ⟨⟨failed, lastCatch⟩, s₂, hcatch, h⟩ := bind_ok.mp h
      obtain ⟨hrecovered, hnone, hstored⟩ := finishTry_stored h hret hraise
      dsimp only at hrecovered hstored
      subst hrecovered
      rw [runCatch_recovered hcatch hnone] at hstored
      exact Or.inr ⟨hfailed, hstored⟩
    · rename_i hfailed
      obtain ⟨-, -, hstored⟩ := finishTry_stored h hret hraise
      cases ended with
      | completed => exact Or.inl ⟨rfl, hstored⟩
      | returned => exact absurd (runBlock_returned hblock) hsignal
      | failed => exact absurd rfl hfailed

/-- A `try` step that succeeds without a return stores its documented result exactly where a `try`
block that failed left no value behind its last step that succeeded, or the handlers left one. -/
theorem try_result_iff {depth idx : Nat} {s s' : ExecutionState} (hkind : step.kind = .guarded)
    (hrun : runStepTo host (depth + 1) step idx s = .ok true s') (hret : s'.returnSignal = none) :
    s'.stepResults.get? step.id =
        some (documentedTryResult host (runStepTo host depth) step s) ↔
      ∀ v s₁, runBlock host (runStepTo host depth) (StepDef.bodySteps (step.params.get "try")) s =
        .ok (.failed, some v) s₁ → handledResult host (runStepTo host depth) step s₁ = none →
          v = .null := by
  obtain ⟨ok, t, htry, hraise⟩ := bind_ok.mp hrun
  have hnone : escapingViolation s' = none ∧ t = s' ∧ ok = true := by
    unfold raiseEscaping at hraise
    split at hraise
    · cases hraise
    · rename_i hviolation
      cases hraise
      exact ⟨hviolation, rfl, rfl⟩
  obtain ⟨hviolation, rfl, rfl⟩ := hnone
  rw [dispatchStep, hkind] at htry
  obtain ⟨ended, lastTry, s₁, hblock, ⟨rfl, hstored⟩ | ⟨rfl, hstored⟩⟩ :=
    runTry_stored htry hret hviolation
  · rw [hstored, documentedTryResult, hblock, runBlock_completed hblock]
    constructor
    · rintro - v t₁ hfailed
      cases hfailed
    · exact fun _ => rfl
  · have hrule : documentedTryResult host (runStepTo host depth) step s =
        (handledResult host (runStepTo host depth) step s₁).getD .null := by
      rw [documentedTryResult, hblock]
    rw [hstored, hrule]
    cases hhandled : handledResult host (runStepTo host depth) step s₁ with
    | some v =>
      constructor
      · rintro - w t₁ hfailed hnone
        rw [hblock] at hfailed
        cases hfailed
        rw [hhandled] at hnone
        cases hnone
      · exact fun _ => rfl
    | none =>
      cases lastTry with
      | none =>
        constructor
        · rintro - w t₁ hfailed
          rw [hblock] at hfailed
          cases hfailed
        · exact fun _ => rfl
      | some v =>
        constructor
        · intro hsame w t₁ hfailed _
          rw [hblock] at hfailed
          cases hfailed
          simpa using hsame
        · intro hcond
          simpa using hcond v s₁ hblock hhandled

end Stored

/-! ### A block that leaves a result and then fails -/

/-- `try` around a step that leaves a result and one that fails, with an empty `catch`. -/
def partialGuard : StepDef :=
  .new "guard" "try" (.object [
    ("try", .array [
      .object [("id", .string "first"), ("type", .string "let"),
        ("params", .object [("value", .string "partial")])],
      .object [("id", .string "fail"), ("type", .string "throw_error")]]),
    ("catch", .array [])])

/-- The same `try` with a handler that leaves a result. -/
def handledGuard : StepDef :=
  .new "guard" "try" (.object [
    ("try", .array [
      .object [("id", .string "first"), ("type", .string "let"),
        ("params", .object [("value", .string "partial")])],
      .object [("id", .string "fail"), ("type", .string "throw_error")]]),
    ("catch", .array [
      .object [("id", .string "recover"), ("type", .string "let"),
        ("params", .object [("value", .string "handled")])]])])

def singleStepState (step : StepDef) : ExecutionState :=
  .new "demo" (.ofSteps [step]) .null .null .null none ⟨1000000, 64⟩

/-- The result stored under an id by a successful call that nobody returned from. -/
def storedBy (host : Host) (step : StepDef) (s : ExecutionState) (id : String) : Option Value :=
  match runStep host step 0 s with
  | .ok true s' => if s'.returnSignal.isSome then none else s'.stepResults.get? id
  | _ => none

/-- The swallowed failure leaves the first step's result as the result of the `try`. -/
theorem swallowed_failure_keeps_partial :
    storedBy (quietHost Binary64.display) partialGuard (singleStepState partialGuard) "guard" =
        some (.string "partial") ∧
      documentedTryResult (quietHost Binary64.display)
        (runStepTo (quietHost Binary64.display) partialGuard.params.depth) partialGuard
        (singleStepState partialGuard) = .null := by
  decide +kernel

/-- With a handler that recovers, the result of the handler is stored. -/
theorem try_result_handled : ∃ s', runStep (quietHost Binary64.display) handledGuard 0
      (singleStepState handledGuard) = .ok true s' ∧
    s'.stepResults.get? "guard" = some (.string "handled") := by
  have hkind : handledGuard.kind = .guarded := by decide
  have hran : returnsWith (fun ok s' => ok && s'.returnSignal.isNone)
      (runStep (quietHost Binary64.display) handledGuard 0 (singleStepState handledGuard)) =
        true := by decide +kernel
  obtain ⟨ok, s', hrun, hquiet⟩ := exists_of_returnsWith hran
  simp only [Bool.and_eq_true, Option.isNone_iff_eq_none] at hquiet
  obtain ⟨rfl, hquiet⟩ := hquiet
  have hrule : documentedTryResult (quietHost Binary64.display)
      (runStepTo (quietHost Binary64.display) handledGuard.params.depth) handledGuard
      (singleStepState handledGuard) = .string "handled" := by decide +kernel
  refine ⟨s', hrun, hrule ▸ (try_result_iff hkind hrun hquiet).mpr fun v s₁ hblock hnone => ?_⟩
  have hrecovers : returnsWith (fun _ s₁ => (handledResult (quietHost Binary64.display)
      (runStepTo (quietHost Binary64.display) handledGuard.params.depth) handledGuard s₁).isSome)
      (runBlock (quietHost Binary64.display)
        (runStepTo (quietHost Binary64.display) handledGuard.params.depth)
        (StepDef.bodySteps (handledGuard.params.get "try")) (singleStepState handledGuard)) =
          true := by decide +kernel
  rw [hblock, returnsWith, hnone] at hrecovers
  cases hrecovers

end Gwead
