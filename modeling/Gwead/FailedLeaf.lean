import Gwead.BranchResults
import Gwead.ResultBytes
import Gwead.VariableBinding

/-!
# What a leaf step leaves behind

The output of a body goes to four places, one after the other: the result, the counter, the
metadata and a variable.  A step can still fail between them, and what is there stays.
-/

namespace Gwead

open Program

/-- The places of a state that the output of a step goes to. -/
structure Outputs where
  results : IndexMap String Value
  metadata : IndexMap String (IndexMap String Value)
  bytes : Nat
  vars : IndexMap String Value

def ExecutionState.outputs (s : ExecutionState) : Outputs :=
  ⟨s.stepResults, s.stepMetadata, s.stepResultsBytes, s.vars⟩

section Entry

variable (host : Host)

/-- The step and the body that the dispatch of a leaf step runs, with the state the body sees. -/
def leafEntry (step : StepDef) (idx : Nat) (s : ExecutionState) :
    Option (StepDef × StepBody × ExecutionState) :=
  match (host.resolveStepType step.stepType).bind host.bodies, s.action.steps[idx]? with
  | some body, some own =>
    let s := { s with currentStepIdx := some idx }
    match host.ownerSecrets s own.stepType with
    | some (.error _) => none
    | some (.ok view) => some (own, body, ExecutionState.resetMarkers { s with bodySecrets := some view })
    | none => some (own, body, s.resetMarkers)
  | _, _ => none

/-- The body answered with a metadata key that the step's type does not declare. -/
def Undeclared (own : StepDef) (output : StepOutput) (s : ExecutionState) : Prop :=
  ∃ declared, host.declaredMetadataKeys s.task (s.clock + 1) own.stepType = some declared ∧
    ∃ key ∈ output.metadata.keys, key ∉ declared

/-- The result is over the budget, or a violation that ends the invocation was there before and the
body hit no cap of its own. -/
def Violating (own : StepDef) (output : StepOutput) (answer : BodyResult) (s : ExecutionState) :
    Prop :=
  s.Refuses own.id output.value ∨ answer.cap = none ∧ Escaping s

/-- The result is over the budget, or the step holds it already and is charged for it. -/
def ResultThere (own : StepDef) (output : StepOutput) (s : ExecutionState) : Prop :=
  s.Refuses own.id output.value ∨ s.stepResults.get? own.id = some output.value ∧
    s.projectedBytes own.id output.value = s.stepResultsBytes

/-- The step has every metadata key already, with the same value. -/
def MetadataThere (own : StepDef) (output : StepOutput) (s : ExecutionState) : Prop :=
  ∀ key v, (key, v) ∈ output.metadata.entries →
    (s.stepMetadata.get? own.id).bind (·.get? key) = some v

/-- The last value that each variable is set to is the one it has. -/
def VarsThere (sets : List (String × Value)) (s : ExecutionState) : Prop :=
  ∀ x v, sets.reverse.lookup x = some v → s.vars.get? x = some v

/-- What `storeToVariable` sets: the result, or what the step held before where it is refused. -/
def bindingOf (own : StepDef) (output : StepOutput) (s : ExecutionState) : List (String × Value) :=
  match own.storeToVariable with
  | some x => [(x, if s.Refuses own.id output.value then (s.stepResults.get? own.id).getD .null
      else output.value)]
  | none => []

/-- If the step fails, then before its body runs; or its body fails and has set nothing; or what is
stored of its output before the failure is there already. -/
def LeavesNothing (step : StepDef) (idx : Nat) (s : ExecutionState) : Prop :=
  match leafEntry host step idx s with
  | none => True
  | some (own, body, entered) =>
    let answer := body entered own.params
    match answer.outcome with
    | .error _ => VarsThere answer.sets s
    | .ok output =>
      (Undeclared host own output s → ResultThere own output s ∧ VarsThere answer.sets s) ∧
      (¬Undeclared host own output s → Violating own output answer s →
        ResultThere own output s ∧ MetadataThere own output s ∧
          VarsThere (answer.sets ++ bindingOf own output s) s)

end Entry

/-! ### Each way a body can end -/

section Ways

variable {host : Host} {own : StepDef} {s t : ExecutionState}

theorem storeStepResult_rest (s : ExecutionState) (id : String) (v : Value) :
    (s.storeStepResult id v).stepMetadata = s.stepMetadata ∧
      (s.Refuses id v → (s.storeStepResult id v).stepResultsBytes = s.stepResultsBytes) ∧
      (¬s.Refuses id v → (s.storeStepResult id v).stepResultsBytes = s.projectedBytes id v) := by
  unfold ExecutionState.Refuses ExecutionState.storeStepResult
  refine ⟨?_, fun h => by simp [h], fun h => by simp [h]⟩
  dsimp only
  split <;> rfl

/-- The result and the counter stay exactly where the result is there. -/
theorem stored_same_iff (s : ExecutionState) (output : StepOutput) :
    (s.storeStepResult own.id output.value).stepResults = s.stepResults ∧
      (s.storeStepResult own.id output.value).stepResultsBytes = s.stepResultsBytes ↔
        ResultThere own output s := by
  obtain ⟨hin, hout⟩ := storeStepResult_results s own.id output.value
  obtain ⟨-, hsame, hcharged⟩ := storeStepResult_rest s own.id output.value
  by_cases hrefused : s.Refuses own.id output.value
  · exact ⟨fun _ => Or.inl hrefused, fun _ => ⟨hin hrefused, hsame hrefused⟩⟩
  · rw [hout hrefused, hcharged hrefused, IndexMap.insert_eq_self_iff, ResultThere,
      or_iff_right hrefused]

/-- The metadata stays exactly where it is there. -/
theorem metadata_same_iff (hmetadata : t.stepMetadata = s.stepMetadata) (output : StepOutput) :
    (addMetadata t own.id output.metadata).stepMetadata = s.stepMetadata ↔
      MetadataThere own output s := by
  have hlast : ∀ key v, output.metadata.entries.reverse.lookup key = some v ↔
      (key, v) ∈ output.metadata.entries := by
    intro key v
    have hnodup : (output.metadata.entries.reverse.map Prod.fst).Nodup := by
      rw [List.map_reverse]
      exact List.nodup_reverse.mpr output.metadata.nodup
    rw [← List.mem_reverse]
    exact ⟨AssocMap.mem_of_lookup, AssocMap.lookup_of_mem hnodup⟩
  unfold addMetadata MetadataThere
  by_cases hempty : output.metadata.entries = []
  · simp [hempty, hmetadata]
  · rw [if_neg (by simpa using hempty), hmetadata]
    dsimp only
    rw [IndexMap.insert_eq_self_iff]
    cases hheld : s.stepMetadata.get? own.id with
    | none =>
      obtain ⟨⟨key, v⟩, rest, hentries⟩ := List.exists_cons_of_ne_nil hempty
      refine ⟨fun hnone => absurd hnone (by simp), fun h => ?_⟩
      have hfirst := h key v (by rw [hentries]; exact List.mem_cons_self)
      cases hfirst
    | some held =>
      simp only [Option.getD_some, Option.some.injEq, Option.bind_some]
      rw [eq_comm, IndexMap.extend_eq_self_iff]
      exact forall_congr' fun key => forall_congr' fun v => by rw [hlast]

theorem extend_append (m : IndexMap String Value) (sets binding : List (String × Value)) :
    m.extend (sets ++ binding) = (m.extend sets).extend binding := List.foldl_append

theorem bindVariable_stepMetadata (s : ExecutionState) (step : StepDef) :
    (bindVariable s step).stepMetadata = s.stepMetadata := by
  unfold bindVariable
  split <;> rfl

theorem vars_addMetadata (s : ExecutionState) (id : String) (metadata : IndexMap String Value) :
    (addMetadata s id metadata).vars = s.vars := by
  unfold addMetadata
  split <;> rfl

theorem refuses_congr (hbooks : t.books = s.books) (id : String) (v : Value) :
    t.Refuses id v ↔ s.Refuses id v := by
  have hresults : t.stepResults = s.stepResults := congrArg Books.results hbooks
  have hbytes : t.stepResultsBytes = s.stepResultsBytes := congrArg Books.bytes hbooks
  have hbudget : t.limits.maxStepResultsBytes = s.limits.maxStepResultsBytes :=
    congrArg Books.budget hbooks
  simp only [ExecutionState.Refuses, ExecutionState.projectedBytes, hresults, hbytes, hbudget]

/-- The state once a body has answered. -/
structure BodyRan (s : ExecutionState) (answer : BodyResult) (t : ExecutionState) : Prop where
  books : t.books = s.books
  metadata : t.stepMetadata = s.stepMetadata
  vars : t.vars = s.vars.extend answer.sets
  task : t.task = s.task
  clock : t.clock = s.clock + 1
  violation : t.resourceViolation = (answer.cap.map (·.toViolation)).or s.resourceViolation

theorem BodyRan.stored_same_iff {answer : BodyResult} (h : BodyRan s answer t) (own : StepDef)
    (output : StepOutput) :
    (t.storeStepResult own.id output.value).stepResults = s.stepResults ∧
      (t.storeStepResult own.id output.value).stepResultsBytes = s.stepResultsBytes ↔
        ResultThere own output s := by
  have hresults : t.stepResults = s.stepResults := congrArg Books.results h.books
  have hbytes : t.stepResultsBytes = s.stepResultsBytes := congrArg Books.bytes h.books
  have hprojected : t.projectedBytes own.id output.value = s.projectedBytes own.id output.value := by
    simp only [ExecutionState.projectedBytes, hresults, hbytes]
  rw [← hresults, ← hbytes, Gwead.stored_same_iff, ResultThere, ResultThere,
    refuses_congr h.books, hprojected, hresults, hbytes]

/-- Binding reads what the store left. -/
theorem BodyRan.bound {answer : BodyResult} (h : BodyRan s answer t) (output : StepOutput)
    (m : IndexMap String Value) :
    (bindVariable (addMetadata (t.storeStepResult own.id output.value) own.id m) own).vars =
      s.vars.extend (answer.sets ++ bindingOf own output s) := by
  have hresults : t.stepResults = s.stepResults := congrArg Books.results h.books
  have hrefuses := refuses_congr h.books own.id output.value
  have hstored := t.vars_storeStepResult own.id output.value
  obtain ⟨hin, hout⟩ := storeStepResult_results t own.id output.value
  rw [extend_append]
  unfold bindVariable bindingOf
  cases own.storeToVariable with
  | none =>
    dsimp only
    rw [vars_addMetadata, hstored, h.vars]
    rfl
  | some x =>
    dsimp only [ExecutionState.setVariable]
    rw [vars_addMetadata, hstored, h.vars, stepResults_addMetadata, IndexMap.extend_cons]
    by_cases hrefused : s.Refuses own.id output.value
    · rw [if_pos hrefused, hin (hrefuses.mpr hrefused), hresults]
      rfl
    · rw [if_neg hrefused, hout (mt hrefuses.mp hrefused), IndexMap.get?_insert_self,
        Option.getD_some]
      rfl

/-- The check of the metadata finds a key exactly where one is not declared. -/
theorem firstUndeclared_isSome_iff (host : Host) (own : StepDef) (output : StepOutput)
    (htask : t.task = s.task) (hclock : t.clock = s.clock + 1) :
    (firstUndeclared host t own output.metadata).isSome ↔ Undeclared host own output s := by
  unfold firstUndeclared Undeclared
  rw [htask, hclock]
  cases host.declaredMetadataKeys s.task (s.clock + 1) own.stepType with
  | none => simp
  | some declared => simp [List.find?_isSome]

theorem moment_storeStepResult (s : ExecutionState) (id : String) (v : Value) :
    (s.storeStepResult id v).task = s.task ∧ (s.storeStepResult id v).clock = s.clock := by
  unfold ExecutionState.storeStepResult
  dsimp only
  split <;> exact ⟨rfl, rfl⟩

/-- What stays of an output that is refused for its metadata. -/
theorem BodyRan.refused_same_iff {answer : BodyResult} (h : BodyRan s answer t)
    (output : StepOutput) (message : String) :
    ({ t.storeStepResult own.id output.value with lastError := some message } :
      ExecutionState).outputs = s.outputs ↔ ResultThere own output s ∧ VarsThere answer.sets s := by
  have hresult := h.stored_same_iff own output
  have hkept := (storeStepResult_rest t own.id output.value).1.trans h.metadata
  have hset := (t.vars_storeStepResult own.id output.value).trans h.vars
  rw [VarsThere, ← IndexMap.extend_eq_self_iff, ← hresult, ExecutionState.outputs,
    ExecutionState.outputs, Outputs.mk.injEq]
  dsimp only
  rw [hkept, hset]
  exact ⟨fun h => ⟨⟨h.1, h.2.2.1⟩, h.2.2.2⟩, fun h => ⟨h.1.1, rfl, h.1.2, h.2⟩⟩

/-- What stays of an output that is written back whole. -/
theorem BodyRan.written_same_iff {answer : BodyResult} (h : BodyRan s answer t)
    (output : StepOutput) :
    (bindVariable (addMetadata (t.storeStepResult own.id output.value) own.id output.metadata)
      own).outputs = s.outputs ↔
        ResultThere own output s ∧ MetadataThere own output s ∧
          VarsThere (answer.sets ++ bindingOf own output s) s := by
  have hresult := h.stored_same_iff own output
  have hkept := (storeStepResult_rest t own.id output.value).1.trans h.metadata
  have hbytes : ∀ u : ExecutionState, (bindVariable (addMetadata u own.id output.metadata)
      own).stepResultsBytes = u.stepResultsBytes := fun u => by
    have hsame : (bindVariable (addMetadata u own.id output.metadata) own).books = u.books := by
      rw [ExecutionState.books_bindVariable, ExecutionState.books_addMetadata]
    exact congrArg Books.bytes hsame
  rw [VarsThere, ← IndexMap.extend_eq_self_iff, ← hresult, ← metadata_same_iff hkept,
    ExecutionState.outputs, ExecutionState.outputs, Outputs.mk.injEq, hbytes,
    stepResults_bindVariable, stepResults_addMetadata, bindVariable_stepMetadata, h.bound]
  exact ⟨fun h => ⟨⟨h.1, h.2.2.1⟩, h.2.1, h.2.2.2⟩, fun h => ⟨h.1.1, h.2.1, h.1.2, h.2.2⟩⟩

/-- Writing an output back whole leaves a violation that ends the invocation exactly where the budget
refuses the result or there was one before. -/
theorem BodyRan.escaping_iff {answer : BodyResult} (h : BodyRan s answer t) (own : StepDef)
    (output : StepOutput) :
    Escaping (bindVariable (addMetadata (t.storeStepResult own.id output.value) own.id
      output.metadata) own) ↔ Violating own output answer s := by
  have hsame : (bindVariable (addMetadata (t.storeStepResult own.id output.value) own.id
      output.metadata) own).resourceViolation =
        (t.storeStepResult own.id output.value).resourceViolation := by
    unfold bindVariable addMetadata
    split <;> split <;> rfl
  rw [Escaping, escapingViolation, hsame, Violating, ← refuses_congr h.books]
  unfold ExecutionState.Refuses ExecutionState.storeStepResult
  dsimp only
  split
  · rename_i hover
    exact ⟨fun _ => Or.inl hover, fun _ => rfl⟩
  · rename_i hfits
    rw [or_iff_right hfits, h.violation]
    cases answer.cap with
    | none => simp [Escaping, escapingViolation]
    | some cap => cases cap <;> simp [ResourceCap.toViolation, ResourceViolation.escapesTry]

theorem outputs_finishError (own : StepDef) (s : ExecutionState) (e : StepError) :
    (finishError own s e).outputs = s.outputs := by
  cases e <;> rfl

/-- A failed body leaves the variables it set. -/
theorem BodyRan.failed_same_iff {answer : BodyResult} (h : BodyRan s answer t) (e : StepError) :
    (finishError own t e).outputs = s.outputs ↔ VarsThere answer.sets s := by
  have hresults := congrArg Books.results h.books
  have hbytes := congrArg Books.bytes h.books
  rw [outputs_finishError, VarsThere, ← IndexMap.extend_eq_self_iff, ← h.vars,
    ExecutionState.outputs, ExecutionState.outputs, Outputs.mk.injEq]
  exact ⟨fun h => h.2.2.2, fun hvars => ⟨hresults, h.metadata, hbytes, hvars⟩⟩

theorem stepMetadata_setVariables (s : ExecutionState) (entries : List (String × Value)) :
    (s.setVariables entries).stepMetadata = s.stepMetadata := by
  unfold ExecutionState.setVariables
  induction entries generalizing s with
  | nil => rfl
  | cons e rest ih =>
    rw [List.foldl_cons, ih]
    rfl

theorem moment_setVariables (s : ExecutionState) (entries : List (String × Value)) :
    (s.setVariables entries).task = s.task ∧ (s.setVariables entries).clock = s.clock ∧
      (s.setVariables entries).resourceViolation = s.resourceViolation := by
  unfold ExecutionState.setVariables
  induction entries generalizing s with
  | nil => exact ⟨rfl, rfl, rfl⟩
  | cons e rest ih => exact ih (s.setVariable e.1 e.2)

theorem stepMetadata_runBody (body : StepBody) (params : Value) (s : ExecutionState) :
    (runBody body params s).2.stepMetadata = s.stepMetadata := by
  unfold runBody
  dsimp only
  split <;> exact stepMetadata_setVariables s _

end Ways

/-! ### Whole dispatches -/

section Dispatch

variable {host : Host} {step : StepDef} {idx : Nat} {s : ExecutionState}

/-- How a dispatch that runs no body ends. -/
theorem outputs_of_no_entry (h : leafEntry host step idx s = none) :
    (finalState (runLeaf host step idx s)).outputs = s.outputs := by
  unfold leafEntry at h
  unfold runLeaf
  cases hkey : host.resolveStepType step.stepType with
  | none => rfl
  | some key =>
    cases hbody : host.bodies key with
    | none =>
      simp only [hbody]
      rfl
    | some body =>
      simp only [hkey, hbody, Option.bind_some, finalState_ok] at h ⊢
      unfold dispatchTraitStep
      cases hat : s.action.steps[idx]? with
      | none => rfl
      | some own =>
        simp only [hat] at h ⊢
        generalize host.ownerSecrets { s with currentStepIdx := some idx } own.stepType = view at h ⊢
        rcases view with _ | e | view
        · cases h
        · rfl
        · cases h

/-- A body is run on a state that only the cursor, the secrets and the markers tell from the one
its step is dispatched on. -/
theorem answered_of_entry {own : StepDef} {body : StepBody} {entered : ExecutionState}
    (h : leafEntry host step idx s = some (own, body, entered)) :
    BodyRan s (body entered own.params) (runBody body own.params entered).2 := by
  have hentered : entered.books = s.books ∧ entered.stepMetadata = s.stepMetadata ∧
      entered.vars = s.vars ∧ entered.task = s.task ∧ entered.clock = s.clock ∧
        entered.resourceViolation = s.resourceViolation := by
    unfold leafEntry at h
    dsimp only at h
    split at h
    · split at h
      · cases h
      · cases h
        exact ⟨rfl, rfl, rfl, rfl, rfl, rfl⟩
      · cases h
        exact ⟨rfl, rfl, rfl, rfl, rfl, rfl⟩
    · cases h
  obtain ⟨hbooks, hmetadata, hvars, htask, hclock, hviolation⟩ := hentered
  have hset := moment_setVariables entered (body entered own.params).sets
  refine ⟨(ExecutionState.books_runBody body own.params entered).trans hbooks,
    (stepMetadata_runBody body own.params entered).trans hmetadata, ?_, ?_, ?_, ?_⟩
  · rw [runBody_vars, hvars]
  · rw [← htask, ← hset.1]
    unfold runBody
    dsimp only
    split <;> rfl
  · rw [← hclock, ← hset.2.1]
    unfold runBody
    dsimp only
    split <;> rfl
  · rw [← hviolation, ← hset.2.2]
    cases hcap : (body entered own.params).cap with
    | none => simp [runBody, hcap]
    | some cap => simp [runBody, hcap]

theorem dispatchWithSecrets_eq (host : Host) (own : StepDef) (body : StepBody)
    (view : ExecutionState) :
    (EStateM.Result.ok (dispatchWithSecrets host own body view).1
      (dispatchWithSecrets host own body view).2 : EStateM.Result KernelError ExecutionState Bool) =
      match (body view.resetMarkers own.params).outcome with
      | .ok output =>
        .ok (finishOutput host own output (runBody body own.params view.resetMarkers).2).1
          (finishOutput host own output (runBody body own.params view.resetMarkers).2).2
      | .error e =>
        .ok false (finishError own (runBody body own.params view.resetMarkers).2 e) := by
  have hanswer : (runBody body own.params view.resetMarkers).1 =
      (body view.resetMarkers own.params).outcome := rfl
  unfold dispatchWithSecrets
  dsimp only
  rw [hanswer]
  cases (body view.resetMarkers own.params).outcome <;> rfl

/-- A dispatch that runs a body ends as the body's answer is written back. -/
theorem runLeaf_of_entry {own : StepDef} {body : StepBody} {entered : ExecutionState}
    (h : leafEntry host step idx s = some (own, body, entered)) :
    runLeaf host step idx s =
      match (body entered own.params).outcome with
      | .ok output =>
        .ok (finishOutput host own output (runBody body own.params entered).2).1
          (finishOutput host own output (runBody body own.params entered).2).2
      | .error e => .ok false (finishError own (runBody body own.params entered).2 e) := by
  unfold leafEntry at h
  unfold runLeaf
  cases hkey : host.resolveStepType step.stepType with
  | none => simp [hkey] at h
  | some key =>
    cases hbody : host.bodies key with
    | none => simp [hkey, hbody] at h
    | some imported =>
      simp only [hkey, hbody, Option.bind_some] at h ⊢
      unfold dispatchTraitStep
      cases hat : s.action.steps[idx]? with
      | none => simp [hat] at h
      | some found =>
        simp only [hat] at h ⊢
        generalize host.ownerSecrets { s with currentStepIdx := some idx } found.stepType = view
          at h ⊢
        rcases view with _ | e | view
        · cases h
          exact dispatchWithSecrets_eq host own body _
        · cases h
        · cases h
          exact dispatchWithSecrets_eq host own body _

/-- Raising a violation changes nothing. -/
theorem finalState_runStep (host : Host) (step : StepDef) (idx : Nat) (s : ExecutionState) :
    finalState (runStep host step idx s) =
      finalState (dispatchStep host (runStepTo host step.params.depth) step idx s) := by
  have hraise : ∀ ok t, finalState (raiseEscaping ok t) = t := by
    intro ok t
    unfold raiseEscaping
    split <;> rfl
  change finalState ((dispatchStep host (runStepTo host step.params.depth) step idx >>=
    raiseEscaping) s) = _
  cases hran : dispatchStep host (runStepTo host step.params.depth) step idx s with
  | ok ok t => simp only [bind, EStateM.bind, hran, hraise, finalState_ok]
  | error e t => simp only [bind, EStateM.bind, hran, finalState_error]

/-- A call on a leaf step fails unless its dispatch succeeds without a violation. -/
theorem runStep_fails_iff (hkind : step.kind = .leaf) :
    (∀ s', runStep host step idx s ≠ .ok true s') ↔
      ∀ t, runLeaf host step idx s = .ok true t → Escaping t := by
  have hrun : ∀ s', runStep host step idx s = .ok true s' ↔
      runLeaf host step idx s = .ok true s' ∧ ¬Escaping s' := by
    intro s'
    rw [runStep_eq, dispatchStep, hkind, bind_ok]
    unfold Escaping raiseEscaping
    constructor
    · rintro ⟨ok, t, hleaf, hraise⟩
      split at hraise
      · cases hraise
      · rename_i hnone
        cases hraise
        exact ⟨hleaf, by simp [hnone]⟩
    · rintro ⟨hleaf, hnone⟩
      refine ⟨true, s', hleaf, ?_⟩
      rw [Option.not_isSome_iff_eq_none.mp hnone]
  simp only [ne_eq, hrun, not_and, not_not]

/-- If a call of `run_step` on a leaf step fails, the results, the metadata, the counter and the
variables are exactly what they were, if and only if the failure comes before the body, or the body
that failed set nothing, or what was stored of its output before the failure was there already. -/
theorem leaf_leaves_nothing_iff (host : Host) (step : StepDef) (hkind : step.kind = .leaf) (idx : Nat)
    (s : ExecutionState) :
    ((∀ s', runStep host step idx s ≠ .ok true s') →
      (finalState (runStep host step idx s)).outputs = s.outputs) ↔
        LeavesNothing host step idx s := by
  rw [runStep_fails_iff hkind, finalState_runStep, dispatchStep, hkind]
  dsimp only
  unfold LeavesNothing
  cases hentry : leafEntry host step idx s with
  | none => exact ⟨fun _ => trivial, fun _ _ => outputs_of_no_entry hentry⟩
  | some found =>
    obtain ⟨own, body, entered⟩ := found
    have hanswered := answered_of_entry hentry
    rw [runLeaf_of_entry hentry]
    dsimp only
    cases (body entered own.params).outcome with
    | error e =>
      dsimp only
      rw [finalState_ok, hanswered.failed_same_iff]
      exact ⟨fun h => h fun t hok => (by cases hok), fun h _ => h⟩
    | ok output =>
      obtain ⟨htask, hclock⟩ := moment_storeStepResult (runBody body own.params entered).2 own.id
        output.value
      have hundeclared := firstUndeclared_isSome_iff host own output
        (htask.trans hanswered.task) (hclock.trans hanswered.clock)
      dsimp only
      unfold finishOutput
      dsimp only
      cases hfirst : firstUndeclared host
          ((runBody body own.params entered).2.storeStepResult own.id output.value) own
          output.metadata with
      | some bad =>
        have hbad : Undeclared host own output s := hundeclared.mp (by rw [hfirst]; rfl)
        dsimp only
        rw [finalState_ok, hanswered.refused_same_iff]
        exact ⟨fun h => ⟨fun _ => h fun t hok => (by cases hok), fun hgood => absurd hbad hgood⟩,
          fun h _ => h.1 hbad⟩
      | none =>
        have hgood : ¬Undeclared host own output s := fun hbad => by
          have hsome := hundeclared.mpr hbad
          rw [hfirst] at hsome
          cases hsome
        dsimp only
        rw [finalState_ok, hanswered.written_same_iff]
        have hescapes := hanswered.escaping_iff own output
        constructor
        · intro h
          refine ⟨fun hbad => absurd hbad hgood, fun _ hviolating => h fun t hok => ?_⟩
          cases hok
          exact hescapes.mpr hviolating
        · intro h hfails
          exact h.2 hgood (hescapes.mp (hfails _ rfl))

end Dispatch

/-! ### Steps that fail after their output is stored -/

/-- The quiet host with a step type that emits a metadata key it does not declare. -/
def emittingHost : Host :=
  { quietHost Binary64.display with
    resolveStepType := some
    bodies := fun key =>
      if key = "emit" then
        some fun _ _ => ⟨.ok ⟨.string "page", IndexMap.empty.insert "status" (.bool true)⟩, [], none⟩
      else (quietHost Binary64.display).bodies key
    declaredMetadataKeys := fun _ _ stepType => if stepType = "emit" then some [] else none }

def emitStep : StepDef := .new "fetch" "emit" .null

/-- A step whose result is over the budget, and which names a variable for it. -/
def bigStep : StepDef :=
  { StepDef.new "big" "let" (.object [("value", .string "0123456789abcdef")]) with
    storeToVariable := some "x" }

def bigState : ExecutionState :=
  ExecutionState.setVariable (.new "demo" (.ofSteps [bigStep]) .null .null .null none ⟨20, 64⟩) "x"
    (.string "kept")

/-- A step rejected for its metadata has stored its result, and one refused by the budget has set its
variable to null. -/
theorem failed_leaf_leaves_output :
    (∃ s', runStep emittingHost emitStep 0 (singleStepState emitStep) = .ok false s' ∧
        (singleStepState emitStep).stepResults.get? "fetch" = none ∧
        s'.stepResults.get? "fetch" = some (.string "page")) ∧
      ∃ e s', runStep (quietHost Binary64.display) bigStep 0 bigState = .error e s' ∧
        bigState.vars.get? "x" = some (.string "kept") ∧ s'.vars.get? "x" = some .null := by
  constructor
  · have hran : returnsWith (fun ok s' => !ok && s'.stepResults.get? "fetch" == some (.string "page"))
        (runStep emittingHost emitStep 0 (singleStepState emitStep)) = true := by decide +kernel
    obtain ⟨ok, s', hrun, hresult⟩ := exists_of_returnsWith hran
    simp only [Bool.and_eq_true, Bool.not_eq_true', beq_iff_eq] at hresult
    obtain ⟨rfl, hresult⟩ := hresult
    exact ⟨s', hrun, rfl, hresult⟩
  · have hran : failsWith (fun _ s' => s'.vars.get? "x" == some .null)
        (runStep (quietHost Binary64.display) bigStep 0 bigState) = true := by decide +kernel
    obtain ⟨e, s', hrun, hvar⟩ := exists_of_failsWith hran
    exact ⟨e, s', hrun, rfl, by simpa using hvar⟩

/-- A body that fails and sets nothing leaves nothing. -/
theorem throwing_leaves_nothing :
    (∃ s', runStep (quietHost Binary64.display) (.new "cry" "throw_error" .null) 0
      (singleStepState (.new "cry" "throw_error" .null)) = .ok false s') ∧
    (finalState (runStep (quietHost Binary64.display) (.new "cry" "throw_error" .null) 0
        (singleStepState (.new "cry" "throw_error" .null)))).outputs =
      (singleStepState (.new "cry" "throw_error" .null)).outputs := by
  have hran : returnsWith (fun ok _ => !ok) (runStep (quietHost Binary64.display)
      (.new "cry" "throw_error" .null) 0 (singleStepState (.new "cry" "throw_error" .null))) =
        true := by decide +kernel
  obtain ⟨ok, s', hrun, hfalse⟩ := exists_of_returnsWith hran
  obtain rfl : ok = false := by simpa using hfalse
  refine ⟨⟨s', hrun⟩, (leaf_leaves_nothing_iff (quietHost Binary64.display)
    (.new "cry" "throw_error" .null) (by decide) 0
      (singleStepState (.new "cry" "throw_error" .null))).mpr ?_ fun t ht => ?_⟩
  · rintro x v ⟨⟩
  · rw [hrun] at ht
    cases ht

end Gwead
