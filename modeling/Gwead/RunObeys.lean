import Gwead.RunLaws

/-!
# The interpreter keeps the laws

One lemma for each function of the interpreter, given the law for the steps it runs.
-/

namespace Gwead

open Traced (lift observe emit nested Ends)

/-! ### Leaf steps -/

section Leaf

variable {host : Host} {demand : Prop} (step : StepDef) (body : StepBody) (s : ExecutionState)

theorem runBody_unmoved (params : Value) : Unmoved s (runBody body params s).2 := by
  have hsets := Unmoved.setVariables s (body s params).sets
  unfold runBody
  dsimp only
  split
  · exact ⟨hsets.task, hsets.signal⟩
  · exact ⟨hsets.task, hsets.signal⟩

theorem bindVariable_unmoved : Unmoved s (bindVariable s step) := by
  unfold bindVariable
  split
  · exact ⟨rfl, rfl⟩
  · exact .refl s

theorem bindVariable_escaping (h : Escaping s) : Escaping (bindVariable s step) := by
  unfold bindVariable
  split
  · exact h
  · exact h

theorem addMetadata_unmoved (id : String) (m : IndexMap String Value) :
    Unmoved s (addMetadata s id m) := by
  unfold addMetadata
  split
  · exact .refl s
  · exact ⟨rfl, rfl⟩

theorem addMetadata_escaping (id : String) (m : IndexMap String Value) (h : Escaping s) :
    Escaping (addMetadata s id m) := by
  unfold addMetadata
  split
  · exact h
  · exact h

variable (host) in
theorem finishOutput_unmoved (output : StepOutput) :
    Unmoved s (finishOutput host step output s).2 := by
  have hstore := Unmoved.store s step.id output.value
  unfold finishOutput
  dsimp only
  split
  · exact ⟨hstore.task, hstore.signal⟩
  · exact hstore.trans ((addMetadata_unmoved _ _ _).trans (bindVariable_unmoved step _))

variable (host) in
/-- The violation of a refused output is there when the step ends. -/
theorem finishOutput_escaping (output : StepOutput)
    (h : Escaping (s.storeStepResult step.id output.value)) :
    Escaping (finishOutput host step output s).2 := by
  unfold finishOutput
  dsimp only
  split
  · exact h
  · exact bindVariable_escaping step _ (addMetadata_escaping _ _ _ h)

theorem finishError_unmoved (e : StepError) : Unmoved s (finishError step s e) := by
  cases e <;> exact ⟨rfl, rfl⟩

/-- The marks a leaf step leaves for its caller. -/
def Marked (ok : Bool) (s' : ExecutionState) : Prop :=
  Escaping s' ∨ ok = false ∧ s'.cancelled = true

variable (host) in
theorem dispatchWithSecrets_trailing :
    Trailing s (bodyEvents step body s) (dispatchWithSecrets host step body s).2 ∧
      (Unstopped (bodyEvents step body s) ∨ Marked (dispatchWithSecrets host step body s).1
        (dispatchWithSecrets host step body s).2) := by
  have hreset : Unmoved s s.resetMarkers := ⟨rfl, rfl⟩
  have hran := hreset.trans (runBody_unmoved body s.resetMarkers step.params)
  unfold bodyEvents dispatchWithSecrets
  dsimp only
  cases hbody : (runBody body step.params s.resetMarkers).1 with
  | ok output =>
    obtain ⟨htrail, hflag⟩ := storeEvents_trailing
      (runBody body step.params s.resetMarkers).2 step.id output.value
    refine ⟨⟨hran.trans (finishOutput_unmoved host step _ output), ?_⟩, ?_⟩
    · rw [← hran.task]
      exact htrail.own
    · exact hflag.imp_right fun h => Or.inl (finishOutput_escaping host step _ output h)
  | error e =>
    have hend := hran.trans (finishError_unmoved step (runBody body step.params s.resetMarkers).2 e)
    cases e with
    | cancelled =>
      exact ⟨⟨hend, List.forall_mem_singleton.mpr ⟨rfl, rfl, rfl⟩⟩, Or.inr (Or.inr ⟨rfl, rfl⟩)⟩
    | failed => exact ⟨⟨hend, List.forall_mem_nil _⟩, Or.inl unstopped_nil⟩
    | thrown => exact ⟨⟨hend, List.forall_mem_nil _⟩, Or.inl unstopped_nil⟩
    | callee => exact ⟨⟨hend, List.forall_mem_nil _⟩, Or.inl unstopped_nil⟩

variable (host) in
theorem dispatchTraitStep_trailing (idx : Nat) :
    Trailing s (traitStepEvents host body idx s) (dispatchTraitStep host body idx s).2 ∧
      (Unstopped (traitStepEvents host body idx s) ∨ Marked (dispatchTraitStep host body idx s).1
        (dispatchTraitStep host body idx s).2) := by
  unfold traitStepEvents dispatchTraitStep
  cases s.action.steps[idx]? with
  | none => exact ⟨⟨⟨rfl, rfl⟩, List.forall_mem_nil _⟩, Or.inl unstopped_nil⟩
  | some step =>
    dsimp only
    have hcursor : Unmoved s { s with currentStepIdx := some idx } := ⟨rfl, rfl⟩
    cases host.ownerSecrets { s with currentStepIdx := some idx } step.stepType with
    | none =>
      obtain ⟨htrail, hflag⟩ := dispatchWithSecrets_trailing host step body
        { s with currentStepIdx := some idx }
      exact ⟨⟨hcursor.trans htrail.unmoved, htrail.own⟩, hflag⟩
    | some pulled =>
      cases pulled with
      | error e => exact ⟨⟨⟨rfl, rfl⟩, List.forall_mem_nil _⟩, Or.inl unstopped_nil⟩
      | ok view =>
        have hpulled : Unmoved s { s with currentStepIdx := some idx, bodySecrets := some view } :=
          ⟨rfl, rfl⟩
        obtain ⟨htrail, hflag⟩ := dispatchWithSecrets_trailing host step body
          { s with currentStepIdx := some idx, bodySecrets := some view }
        exact ⟨⟨hpulled.trans htrail.unmoved, htrail.own⟩, hflag⟩

/-- A leaf step shows what its own body did, and raises an error only when there is no body. -/
theorem runLeaf_law (idx : Nat)
    (hdemand : demand → ((host.resolveStepType step.stepType).bind host.bodies).isSome) :
    Law host demand Marked (fun _ _ => False) (Watched.runLeaf host step idx) s := by
  have hnothing : ∀ s' : ExecutionState, Obeys s [] := fun _ => (Unmoved.refl s).passes.obeys
  unfold Law Ends Watched.runLeaf observe Gwead.runLeaf leafEvents
  cases htype : host.resolveStepType step.stepType with
  | none => exact ⟨hnothing s, fun hmet => by simp [htype] at hdemand; exact absurd hmet hdemand⟩
  | some key =>
    cases hbody : host.bodies key with
    | none =>
      simp only [hbody, Option.bind_some]
      exact ⟨hnothing s, fun hmet => by simp [htype, hbody] at hdemand; exact absurd hmet hdemand⟩
    | some body =>
      obtain ⟨htrail, hflag⟩ := dispatchTraitStep_trailing host body s idx
      simp only [hbody, Option.bind_some]
      exact ⟨htrail.continues, hflag, False.elim⟩

end Leaf

/-! ### Bodies of control-flow steps -/

section Interpreter

variable {host : Host} {demand : Prop} {run : StepDef → Nat → Watch Bool}

/-- The law of a call of `run_step`: what stopped the step is an error, or the step's own body was
cancelled. -/
def RunLaw (host : Host) (x : Watch Bool) : Prop :=
  ∀ s, Law host True (fun ok s' => ok = false ∧ s'.cancelled = true) (fun _ _ => False) x s

/-- The law of a body of steps: nothing in it stopped, and all of it ran only if nothing returned. -/
def BodyLaw (host : Host) (demand : Prop) (x : Watch (BodyEnd × Option Value))
    (s : ExecutionState) : Prop :=
  Law host demand (fun _ _ => False) (fun a _ => a.1 = .completed) x s

theorem runSteps_law {steps : List StepDef} (hrun : ∀ inner ∈ steps, ∀ i, RunLaw host (run inner i))
    (idx : Nat) (last : Option Value) (s : ExecutionState) :
    BodyLaw host demand (Watched.runSteps host run steps idx last) s := by
  induction steps generalizing idx last s with
  | nil => exact law_pure _
  | cons inner rest ih =>
    refine Law.lift_bind (checkCancelled_silent s inner.id) fun _ s₁ _ _ => ?_
    refine Law.bind ((hrun inner List.mem_cons_self idx s₁).weaken fun _ => trivial)
      fun ok s₂ es _ hdone => ?_
    cases ok with
    | false =>
      simp only [Bool.false_eq_true, if_false]
      rw [Traced.ends_lift_bind]
      unfold Program.Ends escapeIfCancelled
      -- a step that stopped on the token is an error here, so that no handler sees it
      by_cases hcancelled : s₂.cancelled
      · simp only [hcancelled, if_true, List.append_nil]
        exact ⟨hdone.continues.obeys, fun _ _ => trivial⟩
      · simp only [hcancelled, Bool.false_eq_true, if_false]
        have hes : Unstopped es := hdone.stopped.resolve_right fun h => hcancelled h.2
        rw [Traced.ends_pure, List.append_nil]
        exact ⟨hdone.continues, Or.inl hes, nofun⟩
    | true =>
      have hes : Unstopped es := hdone.stopped.resolve_right nofun
      simp only [if_true]
      rw [Traced.ends_lift_bind]
      change Ends (if s₂.returnSignal.isSome then _ else _) s₂ _ _
      by_cases hreturned : s₂.returnSignal.isSome
      · simp only [hreturned, if_true]
        rw [Traced.ends_pure, List.append_nil]
        exact ⟨hdone.continues, Or.inl hes, nofun⟩
      · simp only [hreturned, Bool.false_eq_true, if_false]
        have hpasses := hdone.continues.passes hes (by simpa using hreturned)
        exact hpasses.law (ih (fun step hstep => hrun step (List.mem_cons_of_mem _ hstep)) _ _ s₂)

/-- Entering and leaving another view of the state changes nothing the laws speak of. -/
theorem nested_law {α : Type} {flag pass : α → Prop} {enter : ExecutionState → ExecutionState}
    {leave : ExecutionState → ExecutionState → ExecutionState} {x : ExecutionState → Watch α}
    {s : ExecutionState} (henter : Unmoved s (enter s)) (hleave : ∀ t, Unmoved t (leave s t))
    (h : Law host demand (fun a _ => flag a) (fun a _ => pass a) (x s) (enter s)) :
    Law host demand (fun a _ => flag a) (fun a _ => pass a) (nested enter leave x) s := by
  unfold Law
  rw [Traced.ends_nested]
  exact Ends.mono h
    (fun _ s' _ hd => ⟨hd.continues.congr henter.symm (hleave s'), hd.stopped,
      fun hp => (hd.passes hp).congr henter.symm (hleave s')⟩)
    fun _ _ _ hf => ⟨hf.obeys.congr henter.symm, hf.ends⟩

theorem withSpliced_law {α : Type} (flag pass : α → Prop) {steps : List StepDef}
    {x : Nat → Watch α} {s : ExecutionState}
    (h : ∀ offset t, Law host demand (fun a _ => flag a) (fun a _ => pass a) (x offset) t) :
    Law host demand (fun a _ => flag a) (fun a _ => pass a) (Watched.withSpliced steps x) s :=
  nested_law ⟨rfl, rfl⟩ (fun _ => ⟨rfl, rfl⟩) (h _ _)

theorem runBlock_law {steps : List StepDef} (hrun : ∀ inner ∈ steps, ∀ i, RunLaw host (run inner i))
    (s : ExecutionState) : BodyLaw host demand (Watched.runBlock host run steps) s := by
  unfold Watched.runBlock
  split
  · exact law_pure _
  · exact withSpliced_law _ _ fun offset t => runSteps_law hrun offset none t

/-! ### `try` -/

section Try

variable {step : StepDef} {s : ExecutionState}

theorem runHandlers_law {handlers : List StepDef}
    (hrun : ∀ inner ∈ handlers, ∀ i, RunLaw host (run inner i)) :
    BodyLaw host demand (Watched.runHandlers host run step handlers) s :=
  nested_law ⟨rfl, rfl⟩ (fun _ => ⟨rfl, rfl⟩) (runBlock_law hrun _)

theorem own_passes {e : RunEvent} (htask : e.task = s.task) (hcalls : e.dispatches = false)
    (hhalts : e.halts = false) : Passes s [e] s where
  unmoved := .refl s
  within := List.forall_mem_singleton.mpr (htask ▸ List.suffix_rfl)
  quiet := List.forall_mem_singleton.mpr hhalts
  fresh _ := List.forall_mem_singleton.mpr (RunEvent.fresh_of_not_dispatches hcalls)

theorem runCatch_law
    (hrun : ∀ inner ∈ StepDef.bodySteps (step.params.get "catch"), ∀ i, RunLaw host (run inner i)) :
    Law host demand (fun _ _ => False) (fun _ _ => False) (Watched.runCatch host run step) s := by
  unfold Watched.runCatch
  cases hcatch : step.params.get "catch" with
  | none => exact law_pure _
  | some body =>
    rw [hcatch] at hrun
    refine Law.emit_bind (own_passes rfl rfl rfl) ?_
    by_cases hempty : (StepDef.bodySteps (some body)).isEmpty
    · simp only [hempty, if_true]
      exact Law.lift_bind (clearFailure_silent s) fun _ _ _ _ => law_pure _
    · simp only [hempty, Bool.false_eq_true, if_false]
      exact Law.bind (runHandlers_law hrun) fun _ _ _ _ hd => hd.last

theorem runFinally_law
    (hrun : ∀ inner ∈ StepDef.bodySteps (step.params.get "finally"), ∀ i,
      RunLaw host (run inner i)) :
    Law host demand (fun _ _ => False) (fun _ _ => False) (Watched.runFinally host run step) s := by
  refine Law.lift_bind (hasReturned_silent s) fun returned s' _ _ => ?_
  cases returned with
  | true => exact law_pure _
  | false =>
    refine Law.emit_bind (own_passes rfl rfl rfl) ?_
    exact Law.bind (runBlock_law hrun s') fun _ _ _ _ hd => hd.last

variable (host s) in
/-- The end of a `try`: its result is stored unless it failed. -/
theorem storeUnless_trails (fails : Bool) (id : String) (v : Value) :
    Trails host (fun _ s' => Escaping s')
      (if fails then Pure.pure false else do
        Watched.storeResult id v
        Pure.pure true) s := by
  cases fails with
  | true => exact trails_pure _
  | false =>
    refine Trails.bind (storeResult_trails s id v) (fun _ _ => trails_pure _) ?_
    rintro a s' b s'' es hescaping ⟨⟩
    exact hescaping

theorem finishTry_law {failed : Bool} {result : Option Value}
    (hrun : ∀ inner ∈ StepDef.bodySteps (step.params.get "finally"), ∀ i,
      RunLaw host (run inner i)) :
    Law host demand (fun _ s' => Escaping s') (fun _ _ => False)
      (Watched.finishTry host run step failed result) s :=
  Law.bind (runFinally_law hrun) fun _ _ _ _ hd =>
    hd.continues.trails (hd.stopped.resolve_right id) (storeUnless_trails _ _ _ _ _) fun _ _ => id

theorem hasReturned_ok : hasReturned s = .ok s.returnSignal.isSome s := rfl

/-- Under a return signal `finally` is skipped. -/
theorem finishTry_trails {failed : Bool} {result : Option Value} (hs : s.returnSignal.isSome) :
    Trails host (fun _ s' => Escaping s') (Watched.finishTry host run step failed result) s := by
  have hskip : Watched.runFinally host run step s = (.ok true s, []) := by
    unfold Watched.runFinally
    rw [Traced.lift_bind_ok hasReturned_ok, hs]
    rfl
  have hrest := storeUnless_trails host s (!true || failed) step.id
    (result.getD .null)
  unfold Watched.finishTry Trails
  rw [Traced.ends_bind]
  unfold Ends
  rw [hskip]
  exact hrest

theorem afterTry_law {ended : BodyEnd} {lastTry : Option Value}
    (hcatch : ∀ inner ∈ StepDef.bodySteps (step.params.get "catch"), ∀ i,
      RunLaw host (run inner i))
    (hfinally : ∀ inner ∈ StepDef.bodySteps (step.params.get "finally"), ∀ i,
      RunLaw host (run inner i)) :
    Law host demand (fun _ s' => Escaping s') (fun _ _ => False)
      (Watched.afterTry host run step ended lastTry) s := by
  refine Law.lift_bind (hasReturned_silent s) fun returned s₁ _ _ => ?_
  cases returned with
  | true => exact law_pure _
  | false =>
    simp only [Bool.false_eq_true, if_false]
    by_cases hfailed : ended = .failed
    · simp only [hfailed, if_true]
      refine Law.bind (runCatch_law hcatch) fun c s₂ es _ hd => ?_
      have hes := hd.stopped.resolve_right id
      by_cases hreturned : s₂.returnSignal = none
      · exact (hd.continues.passes hes hreturned).law (finishTry_law hfinally)
      · exact hd.continues.trails hes
          (finishTry_trails (Option.isSome_iff_ne_none.mpr hreturned)) fun _ _ => id
    · simp only [hfailed, if_false]
      exact finishTry_law hfinally

/-- Under a return signal a `try` ends with its block. -/
theorem afterTry_trails {flag : Bool → ExecutionState → Prop} {ended : BodyEnd}
    {lastTry : Option Value} (hs : s.returnSignal.isSome) :
    Trails host flag (Watched.afterTry host run step ended lastTry) s := by
  have hskip : Watched.afterTry host run step ended lastTry s = (.ok true s, []) := by
    unfold Watched.afterTry
    rw [Traced.lift_bind_ok hasReturned_ok, hs]
    rfl
  unfold Trails Ends
  rw [hskip]
  exact ⟨(Unmoved.refl s).trailing, Or.inl unstopped_nil⟩

/-- The interpreter for the inner steps of a step obeys the law. -/
def InnerLaw (host : Host) (run : StepDef → Nat → Watch Bool) (step : StepDef) : Prop :=
  ∀ inner : StepDef, inner.params.depth < step.params.depth → ∀ i, RunLaw host (run inner i)

theorem InnerLaw.body (h : InnerLaw host run step) (key : String) :
    ∀ inner ∈ StepDef.bodySteps (step.params.get key), ∀ i, RunLaw host (run inner i) :=
  fun inner hin => h inner (StepDef.bodySteps_get_depth hin)

theorem runTry_law (h : InnerLaw host run step) (s : ExecutionState) :
    Law host demand (fun _ s' => Escaping s') (fun _ _ => False) (Watched.runTry host run step) s := by
  refine Law.bind (runBlock_law (h.body "try") s) fun block s₁ es _ hd => ?_
  have hes := hd.stopped.resolve_right id
  by_cases hreturned : s₁.returnSignal = none
  · exact (hd.continues.passes hes hreturned).law (afterTry_law (h.body "catch") (h.body "finally"))
  · exact hd.continues.trails hes
      (afterTry_trails (Option.isSome_iff_ne_none.mpr hreturned)) fun _ _ => id

end Try

/-! ### `parallel` -/

section Merge

variable (c task : ExecutionState)

theorem Escaping.setVariables {s : ExecutionState} (h : Escaping s)
    (entries : List (String × Value)) : Escaping (s.setVariables entries) := by
  unfold ExecutionState.setVariables
  induction entries generalizing s with
  | nil => exact h
  | cons e rest ih => exact ih (s := s.setVariable e.1 e.2) h

theorem Escaping.takeSignals {c : ExecutionState} (h : Escaping c) :
    Escaping (c.takeSignals task) := by
  unfold Escaping escapingViolation ExecutionState.takeSignals at *
  cases hviolation : c.resourceViolation with
  | none =>
    rw [hviolation] at h
    cases h
  | some v =>
    rw [hviolation] at h
    exact h

variable (takesFailure : Bool) (ids : List String) (vars : IndexMap String Value)

/-- What the merge of a branch stores. -/
def branchEntries (ids : List String) (task : ExecutionState) : List (String × Value) :=
  task.stepResults.entries.filter fun e => !ids.contains e.1

/-- A merge keeps the task and takes the branch's return signal unless there is one. -/
theorem merge_moves :
    (mergeParallelBranchState c task takesFailure ids vars).task = c.task ∧
      (mergeParallelBranchState c task takesFailure ids vars).returnSignal =
        c.returnSignal.or task.returnSignal := by
  have hstore := Unmoved.storeAll c (branchEntries ids task)
  have hentries : Unmoved c (mergeBranchEntries c task ids) := ⟨hstore.task, hstore.signal⟩
  have hvars := hentries.trans (Unmoved.setVariables _ (introduced vars task))
  unfold mergeParallelBranchState
  cases takesFailure with
  | true => exact ⟨hvars.task, congrArg (·.or task.returnSignal) hvars.signal⟩
  | false => exact ⟨hvars.task, congrArg (·.or task.returnSignal) hvars.signal⟩

theorem merge_escaping (h : Escaping (c.storeStepResults (branchEntries ids task))) :
    Escaping (mergeParallelBranchState c task takesFailure ids vars) := by
  have hentries : Escaping (mergeBranchEntries c task ids) := h
  have hvars := hentries.setVariables (introduced vars task)
  unfold mergeParallelBranchState
  cases takesFailure with
  | true => exact Escaping.takeSignals task (c := ((mergeBranchEntries c task ids).setVariables
      (introduced vars task)).takeFailure task) hvars
  | false => exact hvars.takeSignals task

end Merge

section Parallel

variable {s : ExecutionState}

/-- What is known of a branch. -/
structure BranchLaw (host : Host) (s : ExecutionState) (slot : Nat)
    (o : BranchOutcome × List RunEvent) : Prop where
  obeys : Obeys (s.fork slot) o.2
  error : ∀ e, o.1.error = some e → Unhindered host o.2 → e.EndsInvocation
  ok : o.1.error = none → Continues (s.fork slot) o.2 o.1.state ∧ Unstopped o.2

theorem runBranch_law {steps : List StepDef} (hrun : ∀ inner ∈ steps, ∀ i, RunLaw host (run inner i))
    (slot : Nat) : BranchLaw host s slot (Watched.runBranch host run s slot steps) := by
  have hspliced : Unmoved ((s.fork slot).spliceSteps steps) (s.fork slot) := ⟨rfl, rfl⟩
  have hlaw : BodyLaw host True (Watched.runSteps host run steps s.action.steps.length none)
      ((s.fork slot).spliceSteps steps) := runSteps_law hrun _ none _
  unfold Watched.runBranch
  unfold BodyLaw Law Ends at hlaw
  dsimp only
  rcases hsteps : Watched.runSteps host run steps s.action.steps.length none
    ((s.fork slot).spliceSteps steps) with ⟨⟨⟨ended, last⟩, s'⟩ | ⟨e, s'⟩, es⟩
  · rw [hsteps] at hlaw
    exact ⟨hlaw.continues.obeys.congr hspliced, nofun, fun _ =>
      ⟨hlaw.continues.congr hspliced (.refl s'), hlaw.stopped.resolve_right id⟩⟩
  · rw [hsteps] at hlaw
    refine ⟨hlaw.obeys.congr hspliced, ?_, nofun⟩
    rintro _ ⟨⟩
    exact hlaw.ends trivial

/-- What the forks of a state show is orderly, since their tasks run concurrently. -/
theorem forks_obey {shown : List (List RunEvent)} {k : Nat}
    (h : ∀ i es, shown[i]? = some es → Obeys (s.fork (k + i)) es) :
    (∀ e ∈ shown.flatten, ∃ slot, k ≤ slot ∧ slot :: s.clock :: s.task <:+ e.task) ∧
      Orderly shown.flatten ∧ (s.returnSignal = none → ∀ e ∈ shown.flatten, e.fresh) := by
  induction shown generalizing k with
  | nil => exact ⟨List.forall_mem_nil _, List.Pairwise.nil, fun _ => List.forall_mem_nil _⟩
  | cons es rest ih =>
    obtain ⟨hwithin, horderly, hfresh⟩ := ih (k := k + 1) fun i es' hi => by
      have := h (i + 1) es' hi
      rwa [Nat.add_comm i 1, ← Nat.add_assoc] at this
    have hes : Obeys (s.fork k) es := h 0 es rfl
    rw [List.flatten_cons]
    refine ⟨List.forall_mem_append.mpr ⟨fun e he => ⟨k, le_rfl, hes.within e he⟩, fun e he => ?_⟩,
      hes.orderly.append horderly fun e he e' he' _ _ => ?_,
      fun hs => List.forall_mem_append.mpr ⟨hes.fresh hs, hfresh hs⟩⟩
    · obtain ⟨slot, hslot, htask⟩ := hwithin e he
      exact ⟨slot, by omega, htask⟩
    · obtain ⟨slot, hslot, htask⟩ := hwithin e' he'
      exact ⟨s.clock :: s.task, k, slot, by omega, hes.within e he, htask⟩

/-- The forks belong to the task that forked. -/
theorem obeys_forks {shown : List (List RunEvent)}
    (h : ∀ i es, shown[i]? = some es → Obeys (s.fork i) es) : Obeys s shown.flatten := by
  obtain ⟨hwithin, horderly, hfresh⟩ := forks_obey (k := 0) fun i es hi => by
    rw [Nat.zero_add]
    exact h i es hi
  refine ⟨fun e he => ?_, horderly, hfresh⟩
  obtain ⟨slot, -, htask⟩ := hwithin e he
  exact ((List.suffix_cons _ _).trans (List.suffix_cons _ _)).trans htask

/-- What the merges of the branches make of a join. -/
structure JoinLaw (host : Host) (s : ExecutionState) (join final : BranchJoin)
    (branchEs joinEs : List RunEvent) : Prop where
  task : final.state.task = join.state.task
  signal : s.returnSignal = none → final.error = none →
    final.state.returnSignal = join.state.returnSignal.or (returns branchEs).head?
  keeps : join.state.returnSignal.isSome → final.state.returnSignal.isSome
  own : ∀ e ∈ joinEs, e.task = join.state.task ∧ e.dispatches = false ∧ e.value? = none
  refused : Unstopped joinEs ∨ Escaping final.state
  escaping : Escaping join.state → Escaping final.state
  sticky : final.error = none → join.error = none ∧ Unstopped branchEs
  ends : ∀ e, final.error = some e →
    join.error = some e ∨ (Unhindered host branchEs → e.EndsInvocation)

theorem joinBranch_law {outcomes : List (Option (BranchOutcome × List RunEvent))} {k : Nat}
    (h : ∀ i o, outcomes[i]? = some (some o) → BranchLaw host s (k + i) o) (ids : List String)
    (vars : IndexMap String Value) (join : BranchJoin) :
    JoinLaw host s join
      ((outcomes.map fun outcome => outcome.map (·.1)).foldl (joinBranch ids vars) join)
      (Watched.branchesEvents outcomes) (Watched.joinEvents ids vars join outcomes) := by
  induction outcomes generalizing k join with
  | nil =>
    refine ⟨rfl, fun _ _ => ?_, id, List.forall_mem_nil _, Or.inl unstopped_nil, id,
      fun he => ⟨he, unstopped_nil⟩, fun _ => Or.inl⟩
    exact (Option.or_none).symm
  | cons outcome rest ih =>
    have hrest : ∀ i o, rest[i]? = some (some o) → BranchLaw host s (k + 1 + i) o := fun i o ho => by
      have := h (i + 1) o ho
      rwa [Nat.add_comm i 1, ← Nat.add_assoc] at this
    have ih := fun join' => ih hrest join'
    cases outcome with
    | none =>
      have := ih (joinBranch ids vars join none)
      exact ⟨this.task, this.signal, this.keeps, this.own, this.refused, this.escaping, this.sticky,
        this.ends⟩
    | some o =>
      obtain ⟨branch, es⟩ := o
      have ho : BranchLaw host s k (branch, es) := h 0 _ rfl
      obtain ⟨htask, hsignal⟩ := merge_moves join.state branch.state
        (!branch.ok && !join.anyFailed) ids vars
      have hescape := merge_escaping join.state branch.state (!branch.ok && !join.anyFailed) ids vars
      obtain ⟨hstores, hflag⟩ := storesEvents_trailing join.state (branchEntries ids branch.state)
      have hnext := ih (joinBranch ids vars join (some branch))
      have hsplit : (returns (es ++ Watched.branchesEvents rest)).head? =
          (returns es).head?.or (returns (Watched.branchesEvents rest)).head? := by
        rw [returns_append, List.head?_append]
      constructor
      · exact hnext.task.trans htask
      · intro hs hnone
        have hbranch : branch.error = none :=
          (Option.or_eq_none_iff.mp (hnext.sticky hnone).1).2
        have hreturned := (ho.ok hbranch).1.signal hs
        refine (hnext.signal hs hnone).trans ?_
        change ((mergeParallelBranchState join.state branch.state (!branch.ok && !join.anyFailed)
          ids vars).returnSignal).or _ = join.state.returnSignal.or
            (returns (es ++ Watched.branchesEvents rest)).head?
        rw [hsignal, hreturned, hsplit, Option.or_assoc]
      · intro hs
        apply hnext.keeps
        change (mergeParallelBranchState join.state branch.state (!branch.ok && !join.anyFailed)
          ids vars).returnSignal.isSome
        rw [hsignal, Option.isSome_or, hs]
        rfl
      · refine List.forall_mem_append.mpr ⟨hstores.own, fun e he => ?_⟩
        have := hnext.own e he
        rwa [show (joinBranch ids vars join (some branch)).state.task = join.state.task from htask]
          at this
      · rcases hflag with hes | hmark
        · exact hnext.refused.imp_left hes.append
        · exact Or.inr (hnext.escaping (hescape hmark))
      · exact fun hjoin => hnext.escaping (hescape (hjoin.storeAll _))
      · intro hnone
        obtain ⟨herror, hes⟩ := hnext.sticky hnone
        obtain ⟨hjoin, hbranch⟩ := Option.or_eq_none_iff.mp herror
        exact ⟨hjoin, (ho.ok hbranch).2.append hes⟩
      · intro e he
        rcases hnext.ends e he with hjoin | hends
        · change join.error.or branch.error = some e at hjoin
          rcases Option.or_eq_some_iff.mp hjoin with hjoin | ⟨-, hbranch⟩
          · exact Or.inl hjoin
          · exact Or.inr fun hall => ho.error e hbranch (unhindered_append.mp hall).1
        · exact Or.inr fun hall => hends (unhindered_append.mp hall).2

theorem runParallel_law {step : StepDef} (h : InnerLaw host run step)
    (hdemand : demand → branchSteps step ≠ [] →
      (branchSteps step).length ≤ s.limits.maxParallelBranches ∧ host.branchJoin s = none) :
    Law host demand (fun _ s' => Escaping s') (fun _ _ => False)
      (Watched.runParallel host run step) s := by
  have hbranches : ∀ i o, (Watched.branchOutcomes host run s (branchSteps step))[i]? =
      some (some o) → BranchLaw host s (0 + i) o := by
    intro i o ho
    rw [Watched.branchOutcomes, List.getElem?_mapIdx, Option.map_eq_some_iff] at ho
    obtain ⟨steps, hsteps, ho⟩ := ho
    split at ho
    · cases ho
    · cases ho
      rw [Nat.zero_add]
      exact runBranch_law (fun inner hin =>
        h inner (mem_branchSteps_depth (List.mem_of_getElem? hsteps) hin)) i
  generalize hout : Watched.branchOutcomes host run s (branchSteps step) = outcomes at hbranches
  have hobeys : Obeys s (Watched.branchesEvents outcomes) := by
    refine obeys_forks fun i es hi => ?_
    rw [List.getElem?_map, Option.map_eq_some_iff] at hi
    obtain ⟨outcome, ho, rfl⟩ := hi
    cases outcome with
    | none => exact (Unmoved.refl _).passes.obeys
    | some o =>
      have := (hbranches i o ho).obeys
      rwa [Nat.zero_add] at this
  have hjoin := joinBranch_law hbranches s.stepResults.keys s.vars (Watched.emptyJoin s)
  have hjoinEs : Obeys s (Watched.branchesEvents outcomes ++
      Watched.joinEvents s.stepResults.keys s.vars (Watched.emptyJoin s) outcomes) :=
    hobeys.own hjoin.own
  unfold Law Ends Watched.runParallel
  dsimp only
  rw [hout]
  by_cases hempty : (branchSteps step).isEmpty
  · obtain ⟨htrail, hflag⟩ := storeEvents_trailing s step.id (.array [])
    simp only [hempty, if_true]
    exact ⟨htrail.continues, hflag, False.elim⟩
  · have hsome : branchSteps step ≠ [] := by simpa [List.isEmpty_iff] using hempty
    by_cases hwide : s.limits.maxParallelBranches < (branchSteps step).length
    · simp only [hempty, hwide, Bool.false_eq_true, if_false, if_true]
      refine ⟨(Unmoved.refl s).passes.obeys, fun hmet => ?_⟩
      have := (hdemand hmet hsome).1
      omega
    · simp only [hempty, hwide, Bool.false_eq_true, if_false]
      cases hfail : host.branchJoin s with
      | some failure =>
        refine ⟨hobeys, fun hmet => ?_⟩
        rw [hfail] at hdemand
        cases (hdemand hmet hsome).2
      | none =>
        dsimp only
        cases herror : (Watched.joinBranches s outcomes).error with
        | some e =>
          refine ⟨hjoinEs, fun _ hall => ?_⟩
          rcases hjoin.ends e herror with hnone | hends
          · cases hnone
          · exact hends (unhindered_append.mp hall).1
        | none =>
          obtain ⟨-, hes⟩ := hjoin.sticky herror
          obtain ⟨hstore, hflag⟩ := storeEvents_trailing (Watched.joinBranches s outcomes).state
            step.id (.array (Watched.joinBranches s outcomes).results)
          have hown : Trailing (Watched.joinBranches s outcomes).state
              (Watched.joinEvents s.stepResults.keys s.vars (Watched.emptyJoin s) outcomes)
              (Watched.joinBranches s outcomes).state :=
            ⟨.refl _, by rw [show (Watched.joinBranches s outcomes).state.task = s.task from
              hjoin.task]; exact hjoin.own⟩
          have hcont : Continues s (Watched.branchesEvents outcomes)
              (Watched.joinBranches s outcomes).state := by
            refine ⟨hobeys, hjoin.task, fun hs => ?_, hjoin.keeps⟩
            refine (hjoin.signal hs herror).trans ?_
            change s.returnSignal.or _ = _
            rw [hs]
            rfl
          refine ⟨(hcont.trailing hown).trailing hstore, ?_, False.elim⟩
          rcases hjoin.refused with hjoinEs | hmark
          · exact hflag.imp_left (hes.append hjoinEs).append
          · exact Or.inr (Escaping.store hmark _ _)

end Parallel

/-! ### `return`, `ifs` and loops -/

section Rest

variable {step : StepDef} {s : ExecutionState}

theorem runReturn_law :
    Law host demand (fun _ s' => Escaping s') (fun _ _ => False) (Watched.runReturn host step) s := by
  obtain ⟨hstore, hflag⟩ := storeEvents_trailing s step.id (returnedValue host step s)
  have hvalue : returns (storeEvents s step.id (returnedValue host step s) ++
      [.returned s.task (returnedValue host step s)]) = [returnedValue host step s] := by
    rw [returns_append, hstore.returns]
    rfl
  have hobeys : Obeys s (storeEvents s step.id (returnedValue host step s) ++
      [.returned s.task (returnedValue host step s)]) := by
    refine ⟨List.forall_mem_append.mpr ⟨hstore.obeys.within,
      List.forall_mem_singleton.mpr List.suffix_rfl⟩, Orderly.of_calls_nothing
        (List.forall_mem_append.mpr ⟨fun e he => (hstore.own e he).2.1,
          List.forall_mem_singleton.mpr rfl⟩), fun hs => List.forall_mem_append.mpr
            ⟨hstore.obeys.fresh hs, List.forall_mem_singleton.mpr trivial⟩⟩
  refine ⟨⟨hobeys, hstore.unmoved.task, fun _ => ?_, fun _ => rfl⟩, ?_, False.elim⟩
  · rw [hvalue]
    rfl
  · exact hflag.imp_left fun hes => hes.append (List.forall_mem_singleton.mpr rfl)

theorem evalIfCondition_trails (condition : String) :
    Trails host (fun _ _ => False) (Watched.evalIfCondition condition) s := by
  have hevent : Trailing s [.evaluated s.task condition] s :=
    ⟨.refl s, List.forall_mem_singleton.mpr ⟨rfl, rfl, rfl⟩⟩
  unfold Trails Ends Watched.evalIfCondition observe Gwead.evalIfCondition
  cases hexpr : s.evalDslExpression condition "ifs step" with
  | ok v => exact ⟨hevent, Or.inl (List.forall_mem_singleton.mpr rfl)⟩
  | error e =>
    refine ⟨hevent, fun hall => ?_⟩
    obtain ⟨expr, hparse⟩ := hall _ (List.mem_singleton_self _)
    rw [ExecutionState.evalDslExpression, hparse] at hexpr
    cases hexpr

theorem collectValue_trails (expr : Option String) (acc : Collected) :
    Trails host (fun _ _ => False) (Watched.collectValue expr acc) s := by
  unfold Trails Ends Watched.collectValue observe Gwead.collectValue
  cases expr with
  | none => exact ⟨(Unmoved.refl s).trailing, Or.inl unstopped_nil⟩
  | some text =>
    have hevent : Trailing s [.evaluated s.task text] s :=
      ⟨.refl s, List.forall_mem_singleton.mpr ⟨rfl, rfl, rfl⟩⟩
    dsimp only
    cases hexpr : s.evalDslExpression text "collect" with
    | error e =>
      refine ⟨hevent, fun hall => ?_⟩
      obtain ⟨expr, hparse⟩ := hall (.evaluated s.task text) (List.mem_singleton_self _)
      rw [ExecutionState.evalDslExpression, hparse] at hexpr
      cases hexpr
    | ok v =>
      dsimp only
      by_cases hover : s.limits.maxStepResultsBytes <
          satAdd s.stepResultsBytes (satAdd acc.bytes (approxValueBytes v))
      · simp only [hover, if_true]
        exact ⟨hevent, fun _ => trivial⟩
      · simp only [hover, if_false]
        exact ⟨hevent, Or.inl (List.forall_mem_singleton.mpr rfl)⟩

theorem untilHolds_trails (expr : Option String) :
    Trails host (fun _ _ => False) (Watched.untilHolds expr) s := by
  cases expr with
  | none => exact trails_pure _
  | some text => exact evalIfCondition_trails text

theorem chooseBranch_trails (branches : List Value) (s : ExecutionState) :
    Trails host (fun _ _ => False) (Watched.chooseBranch branches) s := by
  induction branches generalizing s with
  | nil => exact trails_pure _
  | cons branch rest ih =>
    have hmatches : Trails host (fun _ _ => False) (Watched.branchMatches branch) s := by
      unfold Watched.branchMatches
      cases (branch.get "test").bind Value.asStr with
      | none => exact trails_pure _
      | some condition => exact evalIfCondition_trails condition
    refine Trails.bind hmatches (fun matched s' => ?_) fun _ _ _ _ _ h => h.elim
    cases matched with
    | true => exact trails_pure _
    | false => exact ih s'

theorem finishIteration_trails (idx : Nat) (collects : Bool) (acc : Collected) :
    Trails host (fun _ s' => Escaping s') (Watched.finishIteration step idx collects acc) s := by
  have hrest : ∀ s, Trails host (fun _ s' => Escaping s') (do
      Watched.storeCollected step collects acc
      Pure.pure true) s := by
    intro s
    cases collects with
    | false => exact trails_pure _
    | true => exact storeUnless_trails _ _ false step.id (.array acc.values)
  refine Trails.bind (hostEndForeach_trails s idx) (fun _ s' => hrest s') ?_
  -- a refusal by the first store is still recorded after the second
  intro _ s' b s'' es hmark hstored
  cases collects with
  | false =>
    cases hstored
    exact hmark
  | true =>
    cases hstored
    exact Escaping.store hmark _ _

theorem runIfs_law (h : InnerLaw host run step) (s : ExecutionState) :
    Law host demand (fun _ _ => False) (fun _ _ => False) (Watched.runIfs host run step) s := by
  unfold Watched.runIfs
  cases hbranches : (step.params.get "ifs").bind Value.asArray with
  | none => exact law_pure _
  | some branches =>
    obtain ⟨v, hv, hitems⟩ := Option.bind_eq_some_iff.mp hbranches
    have hd : ∀ branch ∈ branches, branch.depth ≤ step.params.depth := fun branch hb =>
      ((Value.depth_mem hitems hb).trans (Value.depth_get hv)).le
    refine Law.bind (Trails.law (chooseBranch_trails branches s))
      fun steps s₁ es hchosen hdone => ?_
    have hchoose : chooseBranch branches s = .ok steps s₁ := by
      rw [← Watched.erase_chooseBranch, Traced.erase, hchosen]
    refine (hdone.passes trivial).law (Law.bind (runBlock_law (fun inner hin =>
      h inner (chooseBranch_depth hd hchoose inner hin)) s₁) fun _ _ _ _ hblock =>
        hblock.last)

theorem runPasses_law {steps : List StepDef} (hrun : ∀ inner ∈ steps, ∀ i, RunLaw host (run inner i))
    (offset : Nat) (untilExpr collectExpr : Option String) (passes : Nat) (acc : Collected)
    (s : ExecutionState) :
    Law host demand (fun _ _ => False) (fun _ _ => False)
      (Watched.runPasses host run steps offset untilExpr collectExpr passes acc) s := by
  induction passes generalizing acc s with
  | zero => exact Law.lift_bind (hostNextForeach_silent s) fun _ _ _ _ => law_pure _
  | succ n ih =>
    refine Law.lift_bind (hostNextForeach_silent s) fun hasItem s₁ _ _ => ?_
    cases hasItem with
    | false => exact law_pure _
    | true =>
      refine Law.lift_bind (clearResults_silent s₁ steps) fun _ s₂ _ _ => ?_
      refine Law.bind (runSteps_law hrun offset none s₂) fun block s₃ es _ hd => ?_
      obtain ⟨ended, last⟩ := block
      cases ended with
      | failed => exact hd.last
      | returned => exact hd.last
      | completed =>
        -- the pass is over without a return, so the next one may run
        refine (hd.passes rfl).law (Law.bind (Trails.law
          (collectValue_trails collectExpr acc)) fun acc s₄ es₄ _ hcollect => ?_)
        refine (hcollect.passes trivial).law (Law.bind (Trails.law
          (untilHolds_trails untilExpr)) fun stop s₅ es₅ _ huntil => ?_)
        refine (huntil.passes trivial).law ?_
        cases stop with
        | true => exact law_pure _
        | false => exact ih acc s₅

theorem runIteration_law (h : InnerLaw host run step) (idx : Nat) (name : String)
    {begins : Nat → Exec Int} (hbegins : Silent (begins idx) s) (hdemand : demand → CountAccepted begins idx s) :
    Law host demand (fun _ s' => Escaping s') (fun _ _ => False)
      (Watched.runIteration host run step idx name begins) s := by
  refine Law.lift_bind hbegins fun count s₁ hcount _ => ?_
  by_cases hnegative : count < 0
  · simp only [hnegative, if_true]
    unfold Law
    rw [Traced.ends_lift]
    refine ⟨(Unmoved.refl s₁).passes.obeys, fun hmet => ?_⟩
    have := hdemand hmet count s₁ hcount
    omega
  · simp only [hnegative, if_false]
    refine Law.lift_bind (loopLength_silent s₁) fun passes s₂ _ _ => ?_
    refine Law.bind (withSpliced_law (fun _ => False) (fun _ => False)
      fun offset t => ?_) fun result s₃ es _ hd => ?_
    · by_cases hpositive : 0 < count
      · simp only [hpositive, if_true]
        exact runPasses_law (h.body "steps") offset _ _ passes _ t
      · simp only [hpositive, if_false]
        exact law_pure _
    · have hes := hd.stopped.resolve_right id
      obtain ⟨ok, acc⟩ := result
      cases ok with
      | true => exact hd.continues.trails hes (finishIteration_trails idx _ acc) fun _ _ => id
      | false =>
        have hpop : Trails host (fun (_ : Bool) s' => Escaping s') (do
            lift popLoop
            Pure.pure false) s₃ :=
          (popLoop_silent s₃).trails.bind (fun _ _ => trails_pure _) fun _ _ _ _ _ => False.elim
        exact hd.continues.trails hes hpop fun _ _ => id

end Rest

/-! ### `run_step` -/

theorem dispatchStep_law {step : StepDef} (h : InnerLaw host run step) (idx : Nat)
    (s : ExecutionState) :
    Law host (Runnable host step idx s)
      (fun ok s' => Escaping s' ∨ step.kind = .leaf ∧ ok = false ∧ s'.cancelled = true)
      (fun _ _ => False) (Watched.dispatchStep host run step idx) s := by
  have hcontrol : ∀ {x : Watch Bool}, Law host (Runnable host step idx s)
      (fun _ s' => Escaping s') (fun _ _ => False) x s → Law host (Runnable host step idx s)
      (fun ok s' => Escaping s' ∨ step.kind = .leaf ∧ ok = false ∧ s'.cancelled = true)
      (fun _ _ => False) x s := fun hx => hx.mono (fun _ _ => Or.inl) fun _ _ => id
  unfold Watched.dispatchStep
  cases hkind : step.kind with
  | forEach =>
    rw [hkind] at hcontrol
    exact hcontrol (runIteration_law h idx _ (hostBeginForeach_silent s idx) fun hmet => by
      simpa only [Runnable, hkind] using hmet)
  | repetition =>
    rw [hkind] at hcontrol
    exact hcontrol (runIteration_law h idx _ (hostBeginRepeat_silent s idx) fun hmet => by
      simpa only [Runnable, hkind] using hmet)
  | ifs =>
    rw [hkind] at hcontrol
    exact hcontrol ((runIfs_law h s).mono (fun _ _ => False.elim) fun _ _ => id)
  | returning =>
    rw [hkind] at hcontrol
    exact hcontrol runReturn_law
  | guarded =>
    rw [hkind] at hcontrol
    exact hcontrol (runTry_law h s)
  | parallel =>
    rw [hkind] at hcontrol
    exact hcontrol (runParallel_law h fun hmet => by simpa only [Runnable, hkind] using hmet)
  | leaf =>
    exact (runLeaf_law step s idx fun hmet => by simpa only [Runnable, hkind] using hmet).mono
      (fun _ _ => Or.imp_right fun h => ⟨rfl, h⟩) fun _ _ => id

end Interpreter

/-- A violation that ends the invocation is raised, so the call that recorded it fails. -/
theorem raiseEscaping_ends {ok : Bool} {s : ExecutionState} :
    Program.Ends (raiseEscaping ok) s (fun ok' s' => ok' = ok ∧ s' = s ∧ ¬Escaping s)
      fun e s' => s' = s ∧ e.EndsInvocation := by
  unfold Program.Ends raiseEscaping
  cases hescaping : escapingViolation s with
  | none => exact ⟨rfl, rfl, by simp [Escaping, hescaping]⟩
  | some e =>
    refine ⟨rfl, ?_⟩
    obtain ⟨v, hv, rfl⟩ := Option.map_eq_some_iff.mp hescaping
    obtain ⟨-, hstops⟩ := Option.filter_eq_some_iff.mp hv
    cases v with
    | stepResultsLimit => trivial
    | fuelExhausted => cases hstops
    | memoryLimit => cases hstops

/-- The law of `run_step`, with the step whose own body was cancelled the only one that may answer
after something stopped it. -/
theorem runStepTo_law (host : Host) (depth : Nat) {step : StepDef} (hdepth : step.params.depth < depth)
    (idx : Nat) (s : ExecutionState) :
    Law host True (fun ok s' => step.kind = .leaf ∧ ok = false ∧ s'.cancelled = true)
      (fun _ _ => False) (Watched.runStepTo host depth step idx) s := by
  induction depth generalizing step idx s with
  | zero => omega
  | succ depth ih =>
    have hinner : InnerLaw host (Watched.runStepTo host depth) step := fun inner hin i t =>
      (ih (show inner.params.depth < depth by omega) i t).mono (fun _ _ h => h.2) fun _ _ => id
    have hcall : Obeys s [.dispatched step idx s] := by
      refine ⟨List.forall_mem_singleton.mpr List.suffix_rfl, Orderly.of_quiet
        (List.forall_mem_singleton.mpr rfl), fun hs => List.forall_mem_singleton.mpr hs⟩
    have hpasses : Passes s [.dispatched step idx s] s :=
      ⟨.refl s, hcall.within, List.forall_mem_singleton.mpr rfl, hcall.fresh⟩
    unfold Watched.runStepTo Law
    rw [Traced.ends_emit_bind]
    have hlaw := dispatchStep_law hinner idx s
    rw [Traced.ends_bind]
    refine Ends.imp hlaw (fun ok s' es _ hd => ?_) fun e s' es hf =>
      ⟨hpasses.then_obeys hf.obeys, fun _ hall => ?_⟩
    · rw [Traced.ends_lift]
      refine Program.Ends.mono raiseEscaping_ends ?_ ?_
      · rintro _ _ ⟨rfl, rfl, hnot⟩
        rw [List.append_nil]
        exact ⟨hpasses.then_continues hd.continues,
          (hd.stopped.imp_left hpasses.unstopped.append).imp_right fun h => h.resolve_left hnot,
          False.elim⟩
      · rintro e _ ⟨rfl, hends⟩
        rw [List.append_nil]
        exact ⟨hpasses.then_obeys hd.continues.obeys, fun _ _ => hends⟩
    · obtain ⟨hmet, hall⟩ := unhindered_append.mp hall
      exact hf.ends (hmet _ (List.mem_singleton_self _)) hall

end Gwead
