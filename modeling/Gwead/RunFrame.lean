import Gwead.Runtime

/-!
# What running a step leaves alone

A relation between states that every single change of the interpreter respects is respected by
whole runs.  The action and the variables nobody wrote are two such relations.
-/

namespace Gwead

open Program

/-- A preorder on states that contains every single change the interpreter makes. -/
structure Preserved (R : ExecutionState → ExecutionState → Prop) : Prop where
  refl : ∀ s, R s s
  trans : ∀ s₁ s₂ s₃, R s₁ s₂ → R s₂ s₃ → R s₁ s₃
  spliced : ∀ (α : Type) steps (x : Nat → Exec α), (∀ o, Respects R (x o)) →
    Respects R (withSpliced steps x)
  tick : ∀ s, R s { s with clock := s.clock + 1 }
  cursor : ∀ s i b, R s { s with currentStepIdx := i, bodySecrets := b }
  store : ∀ s id v, R s (s.storeStepResult id v)
  first : ∀ s id, R s { s with firstStepId := id }
  metadata : ∀ s m, R s { s with stepMetadata := m }
  setVariable : ∀ s k v, R s (s.setVariable k v)
  returning : ∀ s v, R s { s with returnSignal := v }
  violation : ∀ s v, R s { s with resourceViolation := v }
  marks : ∀ s e p c callee, R s { s with
    lastError := e, pluginError := p, cancelled := c, calleeError := callee }
  errors : ∀ s stack, R s { s with errorStack := stack }
  loops : ∀ s stack, R s { s with foreachStack := stack }
  forget : ∀ s id, R s { s with
    stepResults := s.stepResults.shiftRemove id, stepMetadata := s.stepMetadata.shiftRemove id }

namespace Preserved

variable {host : Host} {R : ExecutionState → ExecutionState → Prop} (h : Preserved R)
  {run : StepDef → Nat → Exec Bool} (hrun : ∀ step idx, Respects R (run step idx))
include h

theorem bind {α β : Type} {x : Exec α} {f : α → Exec β} (hx : Respects R x)
    (hf : ∀ a, Respects R (f a)) : Respects R (x >>= f) :=
  Respects.bind h.trans hx hf

theorem pure {α : Type} (a : α) : Respects R (Pure.pure a : Exec α) := Respects.pure h.refl a

theorem message (s : ExecutionState) (m : Option String) : R s { s with lastError := m } :=
  h.marks s m _ _ _

theorem clear (s : ExecutionState) : R s s.clearFailure :=
  h.trans _ _ _ (h.violation s none) (h.marks _ none none _ none)

theorem setVariables (s : ExecutionState) (entries : List (String × Value)) :
    R s (s.setVariables entries) := by
  unfold ExecutionState.setVariables
  induction entries generalizing s with
  | nil => exact h.refl s
  | cons e rest ih => exact h.trans _ _ _ (h.setVariable s e.1 e.2) (ih _)

theorem storeStepResults (s : ExecutionState) (entries : List (String × Value)) :
    R s (s.storeStepResults entries) := by
  unfold ExecutionState.storeStepResults
  induction entries generalizing s with
  | nil => exact h.refl s
  | cons e rest ih => exact h.trans _ _ _ (h.store s e.1 e.2) (ih _)

theorem takeFailure (c t : ExecutionState) : R c (c.takeFailure t) := h.marks c _ _ _ _

theorem takeSignals (c t : ExecutionState) : R c (c.takeSignals t) := by
  have hviolation := h.violation c (c.resourceViolation.or t.resourceViolation)
  exact h.trans _ _ _ hviolation (h.returning _ (c.returnSignal.or t.returnSignal))

theorem metadataFirst (s : ExecutionState) (m : IndexMap String (IndexMap String Value))
    (id : Option String) : R s { s with stepMetadata := m, firstStepId := id } :=
  h.trans _ _ _ (h.metadata s m) (h.first _ id)

theorem merge (c t : ExecutionState) (takesFailure : Bool) (ids : List String)
    (vars : IndexMap String Value) :
    R c (mergeParallelBranchState c t takesFailure ids vars) := by
  have hentries : R c (mergeBranchEntries c t ids) :=
    h.trans _ _ _ (h.storeStepResults c _) (h.metadataFirst _ _ _)
  have hvars := h.trans _ _ _ hentries (h.setVariables _ (introduced vars t))
  unfold mergeParallelBranchState
  dsimp only
  split
  · exact h.trans _ _ _ hvars (h.trans _ _ _ (h.takeFailure _ t) (h.takeSignals _ t))
  · exact h.trans _ _ _ hvars (h.takeSignals _ t)

theorem runBody (body : StepBody) (params : Value) (s : ExecutionState) :
    R s (Gwead.runBody body params s).2 := by
  have hsets := h.setVariables s (body s params).sets
  have hleave : ∀ t, R t { t with bodySecrets := none, currentStepIdx := none, clock := t.clock + 1 } :=
    fun t => h.trans _ _ _ (h.cursor t none none) (h.tick _)
  unfold Gwead.runBody
  dsimp only
  split
  · exact h.trans _ _ _ hsets (h.trans _ _ _ (h.violation _ _) (hleave _))
  · exact h.trans _ _ _ hsets (hleave _)

theorem addMetadata (s : ExecutionState) (id : String) (metadata : IndexMap String Value) :
    R s (Gwead.addMetadata s id metadata) := by
  unfold Gwead.addMetadata
  split
  · exact h.refl s
  · exact h.metadata s _

theorem bindVariable (s : ExecutionState) (step : StepDef) : R s (Gwead.bindVariable s step) := by
  unfold Gwead.bindVariable
  split
  · exact h.setVariable s _ _
  · exact h.refl s

theorem finishOutput (step : StepDef) (output : StepOutput) (s : ExecutionState) :
    R s (Gwead.finishOutput host step output s).2 := by
  unfold Gwead.finishOutput
  dsimp only
  refine h.trans _ _ _ (h.store s step.id output.value) ?_
  split
  · exact h.message _ _
  · exact h.trans _ _ _ (h.addMetadata _ _ _) (h.bindVariable _ step)

theorem finishError (step : StepDef) (s : ExecutionState) (e : StepError) :
    R s (Gwead.finishError step s e) := by
  cases e with
  | failed message => exact h.message s _
  | thrown payload => exact h.marks s _ _ _ _
  | cancelled => exact h.marks s _ _ _ _
  | callee plugin action source => exact h.marks s _ _ _ _

theorem dispatchWithSecrets (step : StepDef) (body : StepBody) (s : ExecutionState) :
    R s (Gwead.dispatchWithSecrets host step body s).2 := by
  have hreset : R s s.resetMarkers := h.marks s _ _ _ _
  have hran := h.trans _ _ _ hreset (h.runBody body step.params _)
  unfold Gwead.dispatchWithSecrets
  dsimp only
  split
  · exact h.trans _ _ _ hran (h.finishOutput _ _ _)
  · exact h.trans _ _ _ hran (h.finishError _ _ _)

theorem dispatchTraitStep (body : StepBody) (idx : Nat) (s : ExecutionState) :
    R s (Gwead.dispatchTraitStep host body idx s).2 := by
  unfold Gwead.dispatchTraitStep
  split
  · exact h.message s _
  · rename_i step _
    dsimp only
    split
    · exact h.trans _ _ _ (h.cursor s none _) (h.message _ _)
    · exact h.trans _ _ _ (h.cursor s _ _) (h.dispatchWithSecrets step body _)
    · exact h.trans _ _ _ (h.cursor s _ _) (h.dispatchWithSecrets step body _)

theorem leaf (step : StepDef) (idx : Nat) : Respects R (runLeaf host step idx) := by
  intro s
  unfold runLeaf
  split
  · exact h.message s _
  · split
    · exact h.refl s
    · exact h.dispatchTraitStep _ idx s

theorem checkCancelled (id : String) : Respects R (checkCancelled host id) := by
  intro s
  unfold Gwead.checkCancelled
  split
  · exact h.tick s
  · exact h.tick s

theorem escapeIfCancelled (id : String) : Respects R (escapeIfCancelled id) := by
  intro s
  unfold Gwead.escapeIfCancelled
  split
  · exact h.refl s
  · exact h.refl s

theorem hasReturned : Respects R hasReturned := h.refl

theorem storeResult (id : String) (v : Value) : Respects R (storeResult id v) :=
  fun s => h.store s id v

theorem raiseEscaping (ok : Bool) : Respects R (raiseEscaping ok) := by
  intro s
  unfold Gwead.raiseEscaping
  split
  · exact h.refl s
  · exact h.refl s

include hrun

theorem runSteps (steps : List StepDef) (idx : Nat) (last : Option Value) :
    Respects R (runSteps host run steps idx last) := by
  induction steps generalizing idx last with
  | nil => exact h.pure _
  | cons inner rest ih =>
    refine h.bind (h.checkCancelled inner.id) fun _ => h.bind (hrun inner idx) fun ok => ?_
    split
    · refine h.bind h.refl fun s => ?_
      split
      · exact h.pure _
      · exact ih _ _
    · exact h.bind (h.escapeIfCancelled inner.id) fun _ => h.pure _

theorem runBlock (steps : List StepDef) : Respects R (runBlock host run steps) := by
  unfold Gwead.runBlock
  split
  · exact h.pure _
  · exact h.spliced _ _ _ fun o => h.runSteps hrun steps o none

theorem runHandlers (step : StepDef) (handlers : List StepDef) :
    Respects R (runHandlers host run step handlers) := by
  intro s
  unfold Gwead.runHandlers
  dsimp only
  generalize s.lastError.getD ("step '" ++ step.id ++ "' failed") = message
  have hstart : R s (s.pushError message).clearFailure :=
    h.trans _ _ _ (h.errors s _) (h.clear _)
  have hblock : R _ (finalState (Gwead.runBlock host run handlers
      (s.pushError message).clearFailure)) := h.runBlock hrun handlers _
  split
  · rename_i heq
    rw [heq] at hblock
    exact h.trans _ _ _ (h.trans _ _ _ hstart hblock) (h.errors _ _)
  · rename_i heq
    rw [heq] at hblock
    exact h.trans _ _ _ (h.trans _ _ _ hstart hblock) (h.errors _ _)

theorem runCatch (step : StepDef) : Respects R (runCatch host run step) := by
  unfold Gwead.runCatch
  split
  · exact h.pure _
  · dsimp only
    split
    · exact h.bind (fun s => h.clear s) fun _ => h.pure _
    · exact h.bind (h.runHandlers hrun step _) fun _ => h.pure _

theorem runFinally (step : StepDef) : Respects R (runFinally host run step) := by
  refine h.bind h.hasReturned fun returned => ?_
  split
  · exact h.pure _
  · exact h.bind (h.runBlock hrun _) fun _ => h.pure _

theorem finishTry (step : StepDef) (failed : Bool) (result : Option Value) :
    Respects R (finishTry host run step failed result) := by
  refine h.bind (h.runFinally hrun step) fun ok => ?_
  split
  · exact h.pure _
  · exact h.bind (h.storeResult _ _) fun _ => h.pure _

theorem runTry (step : StepDef) : Respects R (runTry host run step) := by
  refine h.bind (h.runBlock hrun _) fun block => h.bind h.hasReturned fun returned => ?_
  split
  · exact h.pure _
  · split
    · exact h.bind (h.runCatch hrun step) fun c => h.finishTry hrun step _ _
    · exact h.finishTry hrun step _ _

omit hrun in
theorem joinBranches (s : ExecutionState) (branches : List (List StepDef)) :
    R s (joinBranches host run s branches).state := by
  unfold Gwead.joinBranches
  generalize branchOutcomes host run s branches = outcomes
  generalize hj : BranchJoin.mk { s with clock := s.clock + 1 } [] false none = join
  have hs : R s join.state := by
    rw [← hj]
    exact h.tick s
  clear hj
  induction outcomes generalizing join with
  | nil => exact hs
  | cons outcome rest ih =>
    apply ih
    cases outcome with
    | none => exact hs
    | some branch => exact h.trans _ _ _ hs (h.merge _ _ _ _ _)

omit hrun in
theorem runParallel (step : StepDef) : Respects R (runParallel host run step) := by
  intro s
  unfold Gwead.runParallel
  dsimp only
  split
  · exact h.store s _ _
  · split
    · exact h.refl s
    · split
      · exact h.refl s
      · split
        · exact h.joinBranches s _
        · exact h.trans _ _ _ (h.joinBranches s _) (h.store _ _ _)

omit hrun in
theorem runReturn (step : StepDef) : Respects R (runReturn host step) :=
  fun s => h.trans _ _ _ (h.store s _ _) (h.returning _ _)

omit hrun in
theorem evalIfCondition (condition : String) : Respects R (evalIfCondition condition) := by
  intro s
  unfold Gwead.evalIfCondition
  split
  · exact h.refl s
  · exact h.refl s

omit hrun in
theorem chooseBranch (branches : List Value) : Respects R (chooseBranch branches) := by
  induction branches with
  | nil => exact h.pure _
  | cons branch rest ih =>
    refine h.bind ?_ fun matched => ?_
    · unfold branchMatches
      split
      · exact h.evalIfCondition _
      · exact h.pure _
    · split
      · exact h.pure _
      · exact ih

theorem runIfs (step : StepDef) : Respects R (runIfs host run step) := by
  unfold Gwead.runIfs
  split
  · exact h.pure _
  · exact h.bind (h.chooseBranch _) fun steps => h.bind (h.runBlock hrun steps) fun _ => h.pure _

omit hrun in
theorem hostNextForeach : Respects R hostNextForeach := by
  intro s
  unfold Gwead.hostNextForeach
  split
  · exact h.refl s
  · split
    · exact h.loops s _
    · exact h.loops s _

omit hrun in
theorem hostEndForeach (idx : Nat) : Respects R (hostEndForeach idx) := by
  intro s
  unfold Gwead.hostEndForeach
  split
  · exact h.refl s
  · split
    · exact h.refl s
    · exact h.trans _ _ _ (h.loops s _) (h.store _ _ _)

omit hrun in
theorem clearResults (steps : List StepDef) : Respects R (clearResults steps) := by
  intro s
  change R s (steps.foldl _ s)
  induction steps generalizing s with
  | nil => exact h.refl s
  | cons step rest ih => exact h.trans _ _ _ (h.forget s step.id) (ih _)

omit hrun in
theorem collectValue (expr : Option String) (acc : Collected) :
    Respects R (collectValue expr acc) := by
  intro s
  unfold Gwead.collectValue
  split
  · exact h.refl s
  · split
    · exact h.refl s
    · dsimp only
      split
      · exact h.refl s
      · exact h.refl s

omit hrun in
theorem untilHolds (expr : Option String) : Respects R (untilHolds expr) := by
  unfold Gwead.untilHolds
  split
  · exact h.pure _
  · exact h.evalIfCondition _

theorem runPasses (steps : List StepDef) (offset : Nat) (untilExpr collectExpr : Option String)
    (passes : Nat) (acc : Collected) :
    Respects R (runPasses host run steps offset untilExpr collectExpr passes acc) := by
  induction passes generalizing acc with
  | zero => exact h.bind h.hostNextForeach fun _ => h.pure _
  | succ n ih =>
    refine h.bind h.hostNextForeach fun hasItem => ?_
    split
    · refine h.bind (h.clearResults steps) fun _ => h.bind (h.runSteps hrun _ _ _) fun ended => ?_
      obtain ⟨ended, last⟩ := ended
      cases ended with
      | failed => exact h.pure _
      | returned => exact h.pure _
      | completed =>
        refine h.bind (h.collectValue _ _) fun acc => h.bind (h.untilHolds _) fun stop => ?_
        split
        · exact h.pure _
        · exact ih acc
    · exact h.pure _

omit hrun in
theorem finishIteration (step : StepDef) (idx : Nat) (collects : Bool) (acc : Collected) :
    Respects R (finishIteration step idx collects acc) := by
  refine h.bind (h.hostEndForeach idx) fun _ => h.bind ?_ fun _ => h.pure _
  unfold storeCollected
  split
  · exact h.storeResult _ _
  · exact h.pure _

theorem runIteration (step : StepDef) (idx : Nat) (name : String) {begins : Nat → Exec Int}
    (hbegins : ∀ i, Respects R (begins i)) :
    Respects R (runIteration host run step idx name begins) := by
  unfold Gwead.runIteration
  dsimp only
  refine h.bind (hbegins idx) fun count => ?_
  split
  · exact h.refl
  · refine h.bind h.refl fun passes => h.bind ?_ fun ended => ?_
    · refine h.spliced _ _ _ fun o => ?_
      split
      · exact h.runPasses hrun _ _ _ _ _ _
      · exact h.pure _
    · split
      · exact h.finishIteration _ _ _ _
      · exact h.bind (fun s => h.loops s _) fun _ => h.pure _

omit hrun in
theorem hostBeginForeach (idx : Nat) : Respects R (hostBeginForeach idx) := by
  intro s
  unfold Gwead.hostBeginForeach
  split
  · exact h.refl s
  · exact h.loops s _

omit hrun in
theorem hostBeginRepeat (idx : Nat) : Respects R (hostBeginRepeat host idx) := by
  intro s
  unfold Gwead.hostBeginRepeat
  split
  · exact h.refl s
  · dsimp only
    split
    · exact h.message s _
    · split
      · exact h.message s _
      · exact h.loops s _

theorem dispatchStep (step : StepDef) (idx : Nat) :
    Respects R (dispatchStep host run step idx) := by
  unfold Gwead.dispatchStep
  split
  · exact h.runIteration hrun step idx _ h.hostBeginForeach
  · exact h.runIteration hrun step idx _ h.hostBeginRepeat
  · exact h.runIfs hrun step
  · exact h.runReturn step
  · exact h.runTry hrun step
  · exact h.runParallel step
  · exact h.leaf step idx

omit hrun in
theorem runStepTo (depth : Nat) (step : StepDef) (idx : Nat) :
    Respects R (runStepTo host depth step idx) := by
  induction depth generalizing step idx with
  | zero => exact h.refl
  | succ depth ih => exact h.bind (h.dispatchStep ih step idx) fun ok => h.raiseEscaping ok

omit hrun in
/-- Whole steps respect what every change respects. -/
theorem runStep (step : StepDef) (idx : Nat) : Respects R (runStep host step idx) :=
  h.runStepTo _ step idx

end Preserved

/-! ### The setting of a run -/

/-- What no step changes: the action and everything else a run was started with. -/
structure SameSetting (s t : ExecutionState) : Prop where
  pluginName : t.pluginName = s.pluginName
  action : t.action = s.action
  input : t.input = s.input
  config : t.config = s.config
  secrets : t.secrets = s.secrets
  limits : t.limits = s.limits
  trigger : t.trigger = s.trigger
  overrides : t.activeFanoutOverrides = s.activeFanoutOverrides
  task : t.task = s.task

theorem SameSetting.refl (s : ExecutionState) : SameSetting s s :=
  ⟨rfl, rfl, rfl, rfl, rfl, rfl, rfl, rfl, rfl⟩

theorem SameSetting.trans {s t u : ExecutionState} (h : SameSetting s t) (h' : SameSetting t u) :
    SameSetting s u :=
  ⟨h'.pluginName.trans h.pluginName, h'.action.trans h.action, h'.input.trans h.input,
    h'.config.trans h.config, h'.secrets.trans h.secrets, h'.limits.trans h.limits,
    h'.trigger.trans h.trigger, h'.overrides.trans h.overrides, h'.task.trans h.task⟩

namespace ExecutionState

/-- Storing a result touches the results, their size, the first id and the violation. -/
theorem storeStepResult_eq (s : ExecutionState) (id : String) (v : Value) :
    ∃ f r b m, s.storeStepResult id v = { s with
      firstStepId := f, resourceViolation := r, stepResultsBytes := b, stepResults := m } := by
  unfold storeStepResult
  dsimp only
  split
  · exact ⟨_, _, _, _, rfl⟩
  · exact ⟨_, _, _, _, rfl⟩

theorem vars_storeStepResult (s : ExecutionState) (id : String) (v : Value) :
    (s.storeStepResult id v).vars = s.vars := by
  obtain ⟨f, r, b, m, h⟩ := s.storeStepResult_eq id v
  rw [h]

theorem vars_setVariables (s : ExecutionState) (entries : List (String × Value)) :
    (s.setVariables entries).vars = s.vars.extend entries := by
  unfold setVariables
  induction entries generalizing s with
  | nil => rfl
  | cons e rest ih => exact ih (s.setVariable e.1 e.2)

theorem truncate_splice {s t : ExecutionState} {steps : List StepDef}
    (h : t.action = (s.spliceSteps steps).action) :
    (t.truncateSteps s.action.steps.length).action = s.action := by
  unfold truncateSteps
  dsimp only
  rw [h]
  simp [spliceSteps]

end ExecutionState

theorem sameSetting_preserved : Preserved SameSetting where
  refl := SameSetting.refl
  trans _ _ _ h h' := h.trans h'
  spliced α steps x hx s := by
    have h := hx s.action.steps.length (s.spliceSteps steps)
    unfold withSpliced
    dsimp only
    split
    · rename_i a t heq
      rw [heq] at h
      exact ⟨h.1, ExecutionState.truncate_splice h.2, h.3, h.4, h.5, h.6, h.7, h.8, h.9⟩
    · rename_i e t heq
      rw [heq] at h
      exact ⟨h.1, ExecutionState.truncate_splice h.2, h.3, h.4, h.5, h.6, h.7, h.8, h.9⟩
  tick s := ⟨rfl, rfl, rfl, rfl, rfl, rfl, rfl, rfl, rfl⟩
  cursor s _ _ := ⟨rfl, rfl, rfl, rfl, rfl, rfl, rfl, rfl, rfl⟩
  store s id v := by
    obtain ⟨f, r, b, m, h⟩ := s.storeStepResult_eq id v
    rw [h]
    exact ⟨rfl, rfl, rfl, rfl, rfl, rfl, rfl, rfl, rfl⟩
  first s _ := ⟨rfl, rfl, rfl, rfl, rfl, rfl, rfl, rfl, rfl⟩
  metadata s _ := ⟨rfl, rfl, rfl, rfl, rfl, rfl, rfl, rfl, rfl⟩
  setVariable s _ _ := ⟨rfl, rfl, rfl, rfl, rfl, rfl, rfl, rfl, rfl⟩
  returning s _ := ⟨rfl, rfl, rfl, rfl, rfl, rfl, rfl, rfl, rfl⟩
  violation s _ := ⟨rfl, rfl, rfl, rfl, rfl, rfl, rfl, rfl, rfl⟩
  marks s _ _ _ _ := ⟨rfl, rfl, rfl, rfl, rfl, rfl, rfl, rfl, rfl⟩
  errors s _ := ⟨rfl, rfl, rfl, rfl, rfl, rfl, rfl, rfl, rfl⟩
  loops s _ := ⟨rfl, rfl, rfl, rfl, rfl, rfl, rfl, rfl, rfl⟩
  forget s _ := ⟨rfl, rfl, rfl, rfl, rfl, rfl, rfl, rfl, rfl⟩

/-- However a step ends, the setting is the one it started in. -/
theorem runStep_sameSetting (host : Host) (step : StepDef) (idx : Nat) :
    Respects SameSetting (runStep host step idx) :=
  sameSetting_preserved.runStep step idx

/-! ### Variables -/

/-- The later state has the variables of the earlier one but for those written since. -/
structure OnlyWritten (s t : ExecutionState) : Prop where
  grows : ∀ k ∈ s.writtenVars, k ∈ t.writtenVars
  same : ∀ k, k ∉ t.writtenVars → t.vars.get? k = s.vars.get? k

theorem OnlyWritten.refl (s : ExecutionState) : OnlyWritten s s := ⟨fun _ h => h, fun _ _ => rfl⟩

theorem OnlyWritten.trans {s t u : ExecutionState} (h : OnlyWritten s t)
    (h' : OnlyWritten t u) : OnlyWritten s u :=
  ⟨fun k hk => h'.grows k (h.grows k hk), fun k hk =>
    (h'.same k hk).trans (h.same k fun hkt => hk (h'.grows k hkt))⟩

theorem OnlyWritten.of_eq {s t : ExecutionState} (hv : t.vars = s.vars)
    (hw : t.writtenVars = s.writtenVars) : OnlyWritten s t :=
  ⟨fun _ hk => hw ▸ hk, fun _ _ => hv ▸ rfl⟩

theorem onlyWritten_preserved : Preserved OnlyWritten where
  refl := OnlyWritten.refl
  trans _ _ _ h h' := h.trans h'
  spliced α steps x hx s := by
    have h := hx s.action.steps.length (s.spliceSteps steps)
    unfold withSpliced
    dsimp only
    split
    · rename_i a t heq
      rw [heq] at h
      exact ⟨h.grows, h.same⟩
    · rename_i e t heq
      rw [heq] at h
      exact ⟨h.grows, h.same⟩
  tick _ := .of_eq rfl rfl
  cursor _ _ _ := .of_eq rfl rfl
  store s id v := by
    obtain ⟨f, r, b, m, h⟩ := s.storeStepResult_eq id v
    rw [h]
    exact .of_eq rfl rfl
  first _ _ := .of_eq rfl rfl
  metadata _ _ := .of_eq rfl rfl
  setVariable s k v := by
    refine ⟨fun k' hk' => List.mem_cons_of_mem k hk', fun k' hk' => ?_⟩
    have hne : k' ≠ k := fun he => hk' (he ▸ List.mem_cons_self)
    exact s.vars.get?_insert_ne hne v
  returning _ _ := .of_eq rfl rfl
  violation _ _ := .of_eq rfl rfl
  marks _ _ _ _ _ := .of_eq rfl rfl
  errors _ _ := .of_eq rfl rfl
  loops _ _ := .of_eq rfl rfl
  forget _ _ := .of_eq rfl rfl

/-- A step leaves every variable it does not write as it was. -/
theorem runStep_onlyWritten (host : Host) (step : StepDef) (idx : Nat) :
    Respects OnlyWritten (runStep host step idx) :=
  onlyWritten_preserved.runStep step idx

end Gwead
