import Gwead.RunObeys

/-!
# What a `try` handles

A `try` with a `catch` handles the failure of its block, and its `finally` follows, as long as every
step the block and the handlers call is runnable, every expression they evaluate parses, and none of
them returns.  A step that is not runnable, or an expression that does not parse, is an error that
unwinds past the `try` like a cancellation.
-/

namespace Gwead

section Handled

variable (host : Host) (depth : Nat) (step : StepDef)

/-- The run of the block of a `try` step. -/
def tryBody (s : ExecutionState) :
    EStateM.Result KernelError ExecutionState (BodyEnd × Option Value) × List RunEvent :=
  Watched.runBlock host (Watched.runStepTo host depth) (StepDef.bodySteps (step.params.get "try")) s

/-- The run of its handlers. -/
def tryCatch (s : ExecutionState) :
    EStateM.Result KernelError ExecutionState (Bool × Option Value) × List RunEvent :=
  Watched.runCatch host (Watched.runStepTo host depth) step s

def tryRun (s : ExecutionState) : EStateM.Result KernelError ExecutionState Bool × List RunEvent :=
  Watched.runTry host (Watched.runStepTo host depth) step s

/-- Only a cancellation or the budget unwinds past the `try`; any other failure of its block is
handled, and `finally` is entered once the handlers are through. -/
structure FailureHandled (s : ExecutionState) : Prop where
  escapes : ∀ e s₁ es, tryBody host depth step s = (.error e s₁, es) → e.EndsInvocation
  handled : ∀ last s₁ es, tryBody host depth step s = (.ok (.failed, last) s₁, es) →
    ∃ hs, (tryCatch host depth step s₁).2 = .handling s.task step.id :: hs ∧
      ((∃ cleanup, (tryRun host depth step s).2 =
        es ++ .handling s.task step.id :: hs ++ .finalizing s.task step.id :: cleanup) ∨
      ∃ e s₂, tryRun host depth step s = (.error e s₂, es ++ .handling s.task step.id :: hs) ∧
        e.EndsInvocation)

/-- No return is under way or raised by a block that fails or by its handlers, every step they call
is runnable and every expression they evaluate parses. -/
structure Undisturbed (s : ExecutionState) : Prop where
  signal : s.returnSignal = none
  body : Unhindered host (tryBody host depth step s).2
  unreturned : ∀ last s₁, (tryBody host depth step s).1 = .ok (.failed, last) s₁ →
    returns (tryBody host depth step s).2 = []
  handlers : ∀ last s₁, (tryBody host depth step s).1 = .ok (.failed, last) s₁ →
    Unhindered host (tryCatch host depth step s₁).2 ∧ returns (tryCatch host depth step s₁).2 = []

end Handled

section Laws

variable {host : Host} {depth : Nat} {step : StepDef} {s : ExecutionState}

theorem inner_law (hdepth : step.params.depth ≤ depth) :
    InnerLaw host (Watched.runStepTo host depth) step := fun _ hin i t =>
  (runStepTo_law host depth (Nat.lt_of_lt_of_le hin hdepth) i t).mono (fun _ _ h => h.2)
    fun _ _ => id

/-- A failed block without a return leaves the task free to go on. -/
theorem tryBody_passes (hdepth : step.params.depth ≤ depth) (hs : s.returnSignal = none)
    {last : Option Value} {s₁ : ExecutionState} {es : List RunEvent}
    (hbody : tryBody host depth step s = (.ok (.failed, last) s₁, es)) (hes : returns es = []) :
    Passes s es s₁ := by
  have hlaw : BodyLaw host True (tryBody host depth step) s :=
    runBlock_law ((inner_law hdepth).body "try") s
  have hdone := Traced.Ends.ok hlaw hbody
  refine hdone.continues.passes (hdone.stopped.resolve_right id) ?_
  rw [hdone.continues.signal hs, hes]
  rfl

variable (host depth) in
/-- With a `catch`, whatever the handlers do comes after the failure is handled. -/
theorem tryCatch_handling (hcatch : (step.params.get "catch").isSome) (s : ExecutionState) :
    ∃ hs, (tryCatch host depth step s).2 = .handling s.task step.id :: hs := by
  obtain ⟨body, hbody⟩ := Option.isSome_iff_exists.mp hcatch
  unfold tryCatch Watched.runCatch
  rw [hbody]
  exact ⟨_, rfl⟩

/-- A failed block is followed by the handlers, and they by the end of the `try`. -/
theorem tryRun_failed {last : Option Value} {s₁ : ExecutionState} {es : List RunEvent}
    (hbody : tryBody host depth step s = (.ok (.failed, last) s₁, es))
    (hsignal : s₁.returnSignal = none) :
    tryRun host depth step s = (((Watched.runCatch host (Watched.runStepTo host depth) step >>= fun c =>
        Watched.finishTry host (Watched.runStepTo host depth) step c.1 (c.2.or last)) s₁).1,
      es ++ ((Watched.runCatch host (Watched.runStepTo host depth) step >>= fun c =>
        Watched.finishTry host (Watched.runStepTo host depth) step c.1 (c.2.or last)) s₁).2) := by
  have htry : tryRun host depth step s =
      ((Watched.afterTry host (Watched.runStepTo host depth) step .failed last s₁).1,
        es ++ (Watched.afterTry host (Watched.runStepTo host depth) step .failed last s₁).2) :=
    Traced.bind_ok hbody
  have hafter : Watched.afterTry host (Watched.runStepTo host depth) step .failed last s₁ =
      (Watched.runCatch host (Watched.runStepTo host depth) step >>= fun c =>
        Watched.finishTry host (Watched.runStepTo host depth) step c.1 (c.2.or last)) s₁ := by
    unfold Watched.afterTry
    rw [Traced.lift_bind_ok hasReturned_ok, hsignal]
    rfl
  rw [htry, hafter]

variable (host step) in
/-- Without a return signal the end of a `try` enters `finally`. -/
theorem finishTry_finalizes (run : StepDef → Nat → Watch Bool) (failed : Bool)
    (result : Option Value) (hs : s.returnSignal = none) :
    ∃ cleanup, (Watched.finishTry host run step failed result s).2 =
      .finalizing s.task step.id :: cleanup := by
  have hfinally : ∃ r cleanup, Watched.runFinally host run step s =
      (r, .finalizing s.task step.id :: cleanup) := by
    unfold Watched.runFinally
    rw [Traced.lift_bind_ok hasReturned_ok, hs]
    exact ⟨_, _, rfl⟩
  obtain ⟨r, cleanup, hfinally⟩ := hfinally
  unfold Watched.finishTry
  cases r with
  | ok ok s₁ =>
    rw [Traced.bind_ok hfinally]
    exact ⟨_, rfl⟩
  | error e s₁ =>
    rw [Traced.bind_error hfinally]
    exact ⟨cleanup, rfl⟩

/-- In every run of a `try` with a `catch` that nothing disturbs, a failure of the block is
handled. -/
theorem undisturbed_failure_handled (hdepth : step.params.depth ≤ depth)
    (hcatch : (step.params.get "catch").isSome) (h : Undisturbed host depth step s) :
    FailureHandled host depth step s := by
  constructor
  · intro e s₁ es hbody
    have hlaw : BodyLaw host True (tryBody host depth step) s :=
      runBlock_law ((inner_law hdepth).body "try") s
    have hall := h.body
    rw [hbody] at hall
    exact (Traced.Ends.error hlaw hbody).ends trivial hall
  · intro last s₁ es hbody
    have hreturns := h.unreturned last s₁ (by rw [hbody])
    rw [hbody] at hreturns
    have hpasses := tryBody_passes hdepth h.signal hbody hreturns
    have hsignal : s₁.returnSignal = none := by rw [hpasses.unmoved.signal, h.signal]
    obtain ⟨hall, hcaught⟩ := h.handlers last s₁ (by rw [hbody])
    obtain ⟨hs, hhandling⟩ := tryCatch_handling host depth hcatch s₁
    rw [hpasses.unmoved.task] at hhandling
    have hlaw : Law host True (fun _ _ => False) (fun _ _ => False) (tryCatch host depth step) s₁ :=
      runCatch_law ((inner_law hdepth).body "catch")
    refine ⟨hs, hhandling, ?_⟩
    rw [tryRun_failed hbody hsignal]
    cases hrun : tryCatch host depth step s₁ with
    | mk r es' =>
      rw [hrun] at hall hcaught hhandling
      dsimp only at hall hcaught hhandling
      subst hhandling
      unfold tryCatch at hrun
      cases r with
      | error e s₂ =>
        rw [Traced.bind_error hrun]
        exact Or.inr ⟨e, s₂, rfl, (Traced.Ends.error hlaw hrun).ends trivial hall⟩
      | ok c s₂ =>
        have hdone := Traced.Ends.ok hlaw hrun
        have hnone : s₂.returnSignal = none := by
          rw [hdone.continues.signal hsignal, hcaught]
          rfl
        obtain ⟨cleanup, hcleanup⟩ := finishTry_finalizes host step
          (Watched.runStepTo host depth) c.1 (c.2.or last) hnone
        rw [hdone.continues.task, hpasses.unmoved.task] at hcleanup
        rw [Traced.bind_ok hrun, hcleanup]
        exact Or.inl ⟨cleanup, (List.append_assoc _ _ _).symm⟩

end Laws

/-! ### A malformed count, and a failure that is handled -/

/-- `try` around a `repeat` whose count comes from the input, with an empty `catch`. -/
def countedGuard : StepDef :=
  .new "guard" "try" (.object [
    ("try", .array [.object [("id", .string "loop"), ("type", .string "repeat"),
      ("params", .object [("count", .string "\x7b\x7b$input.n\x7d\x7d"), ("steps", .array [])])]]),
    ("catch", .array [])])

def guardState (guard : StepDef) : ExecutionState :=
  .new "demo" (.ofSteps [guard]) (.object [("n", .string "many")]) .null .null none ⟨1000000, 64⟩

/-- The count is not a number, which is a failure of the block, but an error unwinds past the empty
`catch` and out of the call of the `try`. -/
theorem malformed_count_unwinds :
    (countedGuard.params.get "catch").isSome ∧
      ¬FailureHandled (quietHost Binary64.display) countedGuard.params.depth countedGuard
        (guardState countedGuard) ∧
      ∃ message s', runStep (quietHost Binary64.display) countedGuard 0 (guardState countedGuard) =
        .error (.execution message) s' := by
  refine ⟨by decide, fun hhandled => ?_, ?_⟩
  · have hbody : (match (tryBody (quietHost Binary64.display) countedGuard.params.depth countedGuard
        (guardState countedGuard)).1 with
      | .error (.execution _) _ => true
      | _ => false) = true := by decide +kernel
    cases hrun : tryBody (quietHost Binary64.display) countedGuard.params.depth countedGuard
        (guardState countedGuard) with
    | mk r es =>
      rw [hrun] at hbody
      cases r with
      | ok => cases hbody
      | error e s₁ =>
        have hends := hhandled.escapes e s₁ es hrun
        cases e <;> first | exact hends | cases hbody
  · have hcall : (match runStep (quietHost Binary64.display) countedGuard 0
        (guardState countedGuard) with
      | .error (.execution _) _ => true
      | _ => false) = true := by decide +kernel
    cases hrun : runStep (quietHost Binary64.display) countedGuard 0 (guardState countedGuard) with
    | ok =>
      rw [hrun] at hcall
      cases hcall
    | error e s' =>
      rw [hrun] at hcall
      cases e with
      | execution message => exact ⟨message, s', rfl⟩
      | _ => cases hcall

/-- `try` around a step that fails, with a handler. -/
def throwGuard : StepDef :=
  .new "guard" "try" (.object [
    ("try", .array [.object [("id", .string "fail"), ("type", .string "throw_error")]]),
    ("catch", .array [.object [("id", .string "recover"), ("type", .string "let")]])])

/-- Every event is the call of a leaf step with a body, or no call and no evaluation. -/
def onlyLeaves (host : Host) (es : List RunEvent) : Bool :=
  es.all fun e =>
    match e with
    | .dispatched step _ _ =>
      step.kind = .leaf && ((host.resolveStepType step.stepType).bind host.bodies).isSome
    | .evaluated .. => false
    | _ => true

theorem unhindered_of_onlyLeaves {host : Host} {es : List RunEvent} (h : onlyLeaves host es = true) :
    Unhindered host es := by
  intro e he
  have hone := List.all_eq_true.mp h e he
  cases e with
  | dispatched step idx before =>
    simp only [Bool.and_eq_true, decide_eq_true_eq] at hone
    simp only [RunEvent.unhindered, Runnable, hone.1]
    exact hone.2
  | evaluated => cases hone
  | _ => trivial

theorem thrown_failure_handled :
    FailureHandled (quietHost Binary64.display) throwGuard.params.depth throwGuard
      (guardState throwGuard) := by
  have hfinal : ∀ last s₁, (tryBody (quietHost Binary64.display) throwGuard.params.depth throwGuard
      (guardState throwGuard)).1 = .ok (.failed, last) s₁ →
        s₁ = Program.finalState (tryBody (quietHost Binary64.display) throwGuard.params.depth
          throwGuard (guardState throwGuard)).1 := fun last s₁ h => by rw [h]; rfl
  refine undisturbed_failure_handled le_rfl (by decide) ⟨rfl,
    unhindered_of_onlyLeaves (by decide +kernel), fun _ _ _ => by decide +kernel,
    fun last s₁ h => ?_⟩
  rw [hfinal last s₁ h]
  exact ⟨unhindered_of_onlyLeaves (by decide +kernel), by decide +kernel⟩

end Gwead
