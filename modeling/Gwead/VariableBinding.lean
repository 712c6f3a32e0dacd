import Gwead.TryResult

/-!
# Binding a result to a variable

Every step definition may name a variable for its result.  Only the dispatch of a leaf step reads
that field: the step types the interpreter runs itself store their results in places of their own,
and bind nothing.
-/

namespace Gwead

open Program

section Binding

variable (host : Host)

/-- What the body of a leaf step sets while it runs. -/
def leafSets (step : StepDef) (idx : Nat) (s : ExecutionState) : List (String × Value) :=
  match (host.resolveStepType step.stepType).bind host.bodies with
  | none => []
  | some body =>
    let s := { s with currentStepIdx := some idx }
    match host.ownerSecrets s step.stepType with
    | some (.error _) => []
    | some (.ok view) =>
      (body (ExecutionState.resetMarkers { s with bodySecrets := some view }) step.params).sets
    | none => (body s.resetMarkers step.params).sets

/-- The variables after a step but for the binding: as the body of a leaf step left them, or as the
bodies of any other step did, which sets nothing itself. -/
def varsUnbound (step : StepDef) (idx : Nat) (s s' : ExecutionState) : IndexMap String Value :=
  match step.kind with
  | .leaf => s.vars.extend (leafSets host step idx s)
  | _ => s'.vars

/-- A step that succeeded stored a result of its own: `ifs` never does, and a `try` does not when a
block of it returned. -/
structure StoredOwn (step : StepDef) (s' : ExecutionState) (v : Value) : Prop where
  kind : step.kind ≠ .ifs
  unreturned : step.kind = .guarded → s'.returnSignal = none
  stored : s'.stepResults.get? step.id = some v

/-- A step type binds: every step of it that names a variable and stores a result leaves exactly
that variable changed, to that result. -/
def BindsResult (kind : StepKind) : Prop :=
  ∀ (host : Host) (step : StepDef) (idx : Nat) (s s' : ExecutionState) (x : String) (v : Value),
    step.kind = kind → step.storeToVariable = some x → s.action.steps[idx]? = some step →
      runStep host step idx s = .ok true s' → StoredOwn step s' v →
        s'.vars = (varsUnbound host step idx s s').insert x v

end Binding

/-! ### Leaf steps -/

section Leaf

variable {host : Host} {step : StepDef} {s s' : ExecutionState}

theorem finishOutput_bound {output : StepOutput} {x : String} {v : Value}
    (hfield : step.storeToVariable = some x)
    (h : finishOutput host step output s = (true, s'))
    (hstored : s'.stepResults.get? step.id = some v) : s'.vars = s.vars.insert x v := by
  unfold finishOutput at h
  dsimp only at h
  split at h
  · cases h
  · cases h
    have hresults : ∀ t : ExecutionState,
        (addMetadata t step.id output.metadata).stepResults = t.stepResults := by
      intro t
      unfold addMetadata
      split <;> rfl
    have hvars : ∀ t : ExecutionState,
        (addMetadata t step.id output.metadata).vars = t.vars := by
      intro t
      unfold addMetadata
      split <;> rfl
    simp only [bindVariable, hfield, ExecutionState.setVariable, hresults, hvars,
      ExecutionState.vars_storeStepResult] at hstored ⊢
    rw [hstored, Option.getD_some]

theorem runBody_vars (body : StepBody) (params : Value) (s : ExecutionState) :
    (runBody body params s).2.vars = s.vars.extend (body s params).sets := by
  unfold runBody
  dsimp only
  split <;> exact s.vars_setVariables _

theorem dispatchWithSecrets_bound {body : StepBody} {x : String} {v : Value}
    (hfield : step.storeToVariable = some x)
    (h : dispatchWithSecrets host step body s = (true, s'))
    (hstored : s'.stepResults.get? step.id = some v) :
    s'.vars = (s.vars.extend (body s.resetMarkers step.params).sets).insert x v := by
  unfold dispatchWithSecrets at h
  dsimp only at h
  split at h
  · rw [finishOutput_bound hfield h hstored, runBody_vars]
    rfl
  · cases h

/-- A leaf step binds its result, on top of what its body set. -/
theorem runLeaf_bound {idx : Nat} {x : String} {v : Value} (hkind : step.kind = .leaf)
    (hfield : step.storeToVariable = some x) (hat : s.action.steps[idx]? = some step)
    (h : runLeaf host step idx s = .ok true s')
    (hstored : s'.stepResults.get? step.id = some v) :
    s'.vars = (varsUnbound host step idx s s').insert x v := by
  simp only [varsUnbound, hkind, leafSets]
  unfold runLeaf at h
  cases hkey : host.resolveStepType step.stepType with
  | none => simp [hkey] at h
  | some key =>
    cases hbody : host.bodies key with
    | none => simp [hkey, hbody] at h
    | some body =>
      simp only [hkey, hbody, Option.bind_some] at h ⊢
      have hran : dispatchTraitStep host body idx s = (true, s') := by
        cases hd : dispatchTraitStep host body idx s with
        | mk ok t =>
          rw [hd] at h
          cases h
          rfl
      unfold dispatchTraitStep at hran
      rw [hat] at hran
      dsimp only at hran
      generalize host.ownerSecrets { s with currentStepIdx := some idx } step.stepType = view
        at hran ⊢
      match view with
      | some (.error e) => cases hran
      | some (.ok view) => exact dispatchWithSecrets_bound hfield hran hstored
      | none => exact dispatchWithSecrets_bound hfield hran hstored

end Leaf

/-- What a successful call of `run_step` raised nothing after. -/
theorem runStep_ok {host : Host} {step : StepDef} {idx : Nat} {ok : Bool} {s s' : ExecutionState}
    (h : runStep host step idx s = .ok ok s') :
    dispatchStep host (runStepTo host step.params.depth) step idx s = .ok ok s' ∧
      escapingViolation s' = none := by
  obtain ⟨ok', t, hdispatch, hraise⟩ := bind_ok.mp h
  unfold raiseEscaping at hraise
  split at hraise
  · cases hraise
  · rename_i hviolation
    cases hraise
    exact ⟨hdispatch, hviolation⟩

theorem leaf_binds : BindsResult .leaf := by
  intro host step idx s s' x v hkind hfield hat hrun hown
  obtain ⟨hdispatch, -⟩ := runStep_ok hrun
  rw [dispatchStep, hkind] at hdispatch
  exact runLeaf_bound hkind hfield hat hdispatch hown.stored

/-- `ifs` leaves no result of its own to bind. -/
theorem ifs_binds : BindsResult .ifs := fun _ _ _ _ _ _ _ hkind _ _ _ hown =>
  absurd hkind hown.kind

/-! ### The step types the interpreter runs itself -/

/-- A step that names the variable `out` for its result. -/
def binding (stepType : String) (params : Value) : StepDef :=
  { StepDef.new "step" stepType params with storeToVariable := some "out" }

/-- A run of the step alone succeeds, stores a result, and leaves the variable absent. -/
def leavesUnbound (step : StepDef) : Bool :=
  match runStep (quietHost Binary64.display) step 0 (singleStepState step) with
  | .ok true s' =>
    (step.kind != .guarded || s'.returnSignal.isNone) && (s'.stepResults.get? step.id).isSome &&
      (s'.vars.get? "out").isNone
  | _ => false

theorem not_bindsResult {kind : StepKind} (stepType : String) (params : Value)
    (hkind : (binding stepType params).kind = kind) (hne : kind ≠ .ifs)
    (h : leavesUnbound (binding stepType params) = true) : ¬BindsResult kind := by
  intro hbinds
  unfold leavesUnbound at h
  split at h
  · rename_i s' hrun
    simp only [Bool.and_eq_true, Bool.or_eq_true, bne_iff_ne, ne_eq, Option.isNone_iff_eq_none] at h
    obtain ⟨⟨hret, hsome⟩, hnone⟩ := h
    obtain ⟨v, hv⟩ := Option.isSome_iff_exists.mp hsome
    have hvars := hbinds _ _ _ _ _ "out" v hkind rfl rfl hrun
      ⟨fun hifs => hne (hkind ▸ hifs), fun hguarded => hret.resolve_left fun hn => hn hguarded, hv⟩
    have hget := congrArg (IndexMap.get? · "out") hvars
    simp only [IndexMap.get?_insert_self, hnone] at hget
    cases hget
  · cases h

/-- A `for_each` step over nothing stores `[]`, and leaves the variable it names absent. -/
theorem forEach_not_binds : ¬BindsResult .forEach :=
  not_bindsResult "for_each" (.object []) (by decide) (by decide) (by decide +kernel)

/-- The step types that bind the result of their steps are the ones that are no control flow. -/
theorem bindsResult_iff (kind : StepKind) : BindsResult kind ↔ kind = .leaf ∨ kind = .ifs := by
  constructor
  · intro h
    cases kind with
    | leaf => exact Or.inl rfl
    | ifs => exact Or.inr rfl
    | forEach =>
      exact (not_bindsResult "for_each" (.object []) (by decide) (by decide) (by decide +kernel)
        h).elim
    | repetition =>
      exact (not_bindsResult "repeat" (.object [("count", .number (.posInt 1 (by decide)))])
        (by decide) (by decide) (by decide +kernel) h).elim
    | returning =>
      exact (not_bindsResult "return" (.object [("value", .bool true)]) (by decide) (by decide)
        (by decide +kernel) h).elim
    | guarded =>
      exact (not_bindsResult "try" (.object []) (by decide) (by decide) (by decide +kernel) h).elim
    | parallel =>
      exact (not_bindsResult "parallel" (.object []) (by decide) (by decide) (by decide +kernel)
        h).elim
  · rintro (rfl | rfl)
    · exact leaf_binds
    · exact ifs_binds

end Gwead
