import Gwead.Lib.Traced
import Gwead.RunDepth

/-!
# What a run of the interpreter shows

The interpreter once more, as programs that list the calls of `run_step` they make, the expressions
they evaluate, the values the store refuses, the bodies that stop on the token, the values returned
and the handlers entered.  Concurrent branches are listed in declaration order.  Without the list it
is the interpreter.
-/

namespace Gwead

open Traced (lift observe emit nested erase)

/-- `task` names the copy of the state an event belongs to. -/
inductive RunEvent where
  /-- `run_step` is called. -/
  | dispatched (step : StepDef) (idx : Nat) (before : ExecutionState)
  /-- A test, an `until` or a `collect` is evaluated. -/
  | evaluated (task : List Nat) (text : String)
  /-- A step body answers that it was cancelled. -/
  | bodyCancelled (task : List Nat) (stepId : String)
  /-- `store_step_result` refuses a value over the budget. -/
  | refused (task : List Nat) (stepId : String)
  /-- A `return` step raises the return signal. -/
  | returned (task : List Nat) (value : Value)
  /-- A `try` handles or swallows the failure of its block. -/
  | handling (task : List Nat) (stepId : String)
  /-- A `try` enters its `finally`. -/
  | finalizing (task : List Nat) (stepId : String)

abbrev Watch (α : Type) := Traced RunEvent KernelError ExecutionState α

/-! ### Stores -/

def storeEvents (s : ExecutionState) (stepId : String) (value : Value) : List RunEvent :=
  if s.limits.maxStepResultsBytes < s.projectedBytes stepId value then [.refused s.task stepId]
  else []

/-- The refusals of stores made one after the other. -/
def storesEvents : ExecutionState → List (String × Value) → List RunEvent
  | _, [] => []
  | s, e :: rest => storeEvents s e.1 e.2 ++ storesEvents (s.storeStepResult e.1 e.2) rest

/-! ### Leaf steps -/

section Leaf

variable (host : Host)

def bodyEvents (step : StepDef) (body : StepBody) (s : ExecutionState) : List RunEvent :=
  let ran := runBody body step.params s.resetMarkers
  match ran.1 with
  | .ok output => storeEvents ran.2 step.id output.value
  | .error .cancelled => [.bodyCancelled s.task step.id]
  | .error _ => []

def traitStepEvents (body : StepBody) (idx : Nat) (s : ExecutionState) : List RunEvent :=
  match s.action.steps[idx]? with
  | none => []
  | some step =>
    let s := { s with currentStepIdx := some idx }
    match host.ownerSecrets s step.stepType with
    | some (.error _) => []
    | some (.ok view) => bodyEvents step body { s with bodySecrets := some view }
    | none => bodyEvents step body s

def leafEvents (step : StepDef) (idx : Nat) (s : ExecutionState) : List RunEvent :=
  match (host.resolveStepType step.stepType).bind host.bodies with
  | none => []
  | some body => traitStepEvents host body idx s

end Leaf

/-- What a `return` step returns. -/
def returnedValue (host : Host) (step : StepDef) (s : ExecutionState) : Value :=
  resolveValue host.floatText ((step.params.get "value").getD .null) s.resolutionContext

def endEvents (idx : Nat) (s : ExecutionState) : List RunEvent :=
  match s.action.steps[idx]? with
  | none => []
  | some step =>
    match s.foreachStack with
    | [] => []
    | frame :: outer => storeEvents { s with foreachStack := outer } step.id (.array frame.results)

namespace Watched

def storeResult (stepId : String) (value : Value) : Watch Unit :=
  observe (Gwead.storeResult stepId value) fun s => storeEvents s stepId value

def runLeaf (host : Host) (step : StepDef) (idx : Nat) : Watch Bool :=
  observe (Gwead.runLeaf host step idx) (leafEvents host step idx)

def runReturn (host : Host) (step : StepDef) : Watch Bool :=
  observe (Gwead.runReturn host step) fun s =>
    storeEvents s step.id (returnedValue host step s) ++
      [.returned s.task (returnedValue host step s)]

def evalIfCondition (condition : String) : Watch Bool :=
  observe (Gwead.evalIfCondition condition) fun s => [.evaluated s.task condition]

def collectValue (expr : Option String) (acc : Collected) : Watch Collected :=
  observe (Gwead.collectValue expr acc) fun s => expr.toList.map (.evaluated s.task)

def hostEndForeach (idx : Nat) : Watch Unit :=
  observe (Gwead.hostEndForeach idx) (endEvents idx)

/-! ### Bodies of control-flow steps -/

section Interpreter

variable (host : Host) (run : StepDef → Nat → Watch Bool)

def runSteps : List StepDef → Nat → Option Value → Watch (BodyEnd × Option Value)
  | [], _, last => pure (.completed, last)
  | inner :: rest, idx, last => do
    lift (checkCancelled host inner.id)
    let ok ← run inner idx
    if ok then do
      let s ← lift get
      let last := s.stepResults.get? inner.id
      if s.returnSignal.isSome then pure (.returned, last)
      else runSteps rest (idx + 1) last
    else do
      lift (escapeIfCancelled inner.id)
      pure (.failed, last)

def withSpliced {α : Type} (steps : List StepDef) (x : Nat → Watch α) : Watch α :=
  nested (·.spliceSteps steps) (fun s s' => s'.truncateSteps s.action.steps.length)
    fun s => x s.action.steps.length

def runBlock (steps : List StepDef) : Watch (BodyEnd × Option Value) :=
  if steps.isEmpty then pure (.completed, none)
  else withSpliced steps fun offset => runSteps host run steps offset none

/-! ### `try` -/

def runHandlers (step : StepDef) (handlers : List StepDef) : Watch (BodyEnd × Option Value) :=
  nested
    (fun s => (s.pushError (s.lastError.getD ("step '" ++ step.id ++ "' failed"))).clearFailure)
    (fun _ s' => s'.popError) fun _ => runBlock host run handlers

def runCatch (step : StepDef) : Watch (Bool × Option Value) :=
  match step.params.get "catch" with
  | none => pure (true, none)
  | some body => do
    emit fun s => [.handling s.task step.id]
    let handlers := StepDef.bodySteps (some body)
    if handlers.isEmpty then do
      lift (modify ExecutionState.clearFailure)
      pure (false, none)
    else do
      let (ended, last) ← runHandlers host run step handlers
      pure (ended = .failed, last)

def runFinally (step : StepDef) : Watch Bool := do
  let returned ← lift hasReturned
  if returned then pure true
  else do
    emit fun s => [.finalizing s.task step.id]
    let (ended, _) ← runBlock host run (StepDef.bodySteps (step.params.get "finally"))
    pure (ended ≠ .failed)

def finishTry (step : StepDef) (failed : Bool) (result : Option Value) : Watch Bool := do
  let finallyOk ← runFinally host run step
  if !finallyOk || failed then pure false
  else do
    storeResult step.id (result.getD .null)
    pure true

/-- What follows the `try` block. -/
def afterTry (step : StepDef) (ended : BodyEnd) (lastTry : Option Value) : Watch Bool := do
  let returned ← lift hasReturned
  if returned then pure true
  else if ended = .failed then do
    let (failed, lastCatch) ← runCatch host run step
    finishTry host run step failed (lastCatch.or lastTry)
  else finishTry host run step false lastTry

def runTry (step : StepDef) : Watch Bool := do
  let (ended, lastTry) ← runBlock host run (StepDef.bodySteps (step.params.get "try"))
  afterTry host run step ended lastTry

/-! ### `parallel` -/

def runBranch (s : ExecutionState) (slot : Nat) (steps : List StepDef) :
    BranchOutcome × List RunEvent :=
  let forked := (s.fork slot).spliceSteps steps
  match runSteps host run steps s.action.steps.length none forked with
  | (.ok (ended, last) s', es) => (⟨s', last, ended ≠ .failed, none⟩, es)
  | (.error e s', es) => (⟨s', none, false, some e⟩, es)

def branchOutcomes (s : ExecutionState) (branches : List (List StepDef)) :
    List (Option (BranchOutcome × List RunEvent)) :=
  branches.mapIdx fun slot steps =>
    if steps.isEmpty then none else some (runBranch host run s slot steps)

/-- What the branches show. -/
def branchesEvents (outcomes : List (Option (BranchOutcome × List RunEvent))) : List RunEvent :=
  (outcomes.map fun outcome => (outcome.map (·.2)).getD []).flatten

/-- What the merges of the branches refuse. -/
def joinEvents (baselineStepIds : List String) (baselineVariables : IndexMap String Value) :
    BranchJoin → List (Option (BranchOutcome × List RunEvent)) → List RunEvent
  | _, [] => []
  | join, none :: rest => joinEvents baselineStepIds baselineVariables
      (joinBranch baselineStepIds baselineVariables join none) rest
  | join, some (branch, _) :: rest =>
    storesEvents join.state
        (branch.state.stepResults.entries.filter fun e => !baselineStepIds.contains e.1) ++
      joinEvents baselineStepIds baselineVariables
        (joinBranch baselineStepIds baselineVariables join (some branch)) rest

/-- The join before the first branch. -/
def emptyJoin (s : ExecutionState) : BranchJoin := ⟨{ s with clock := s.clock + 1 }, [], false, none⟩

def joinBranches (s : ExecutionState)
    (outcomes : List (Option (BranchOutcome × List RunEvent))) : BranchJoin :=
  (outcomes.map fun outcome => outcome.map (·.1)).foldl
    (joinBranch s.stepResults.keys s.vars) (emptyJoin s)

def runParallel (step : StepDef) : Watch Bool := fun s =>
  let branches := branchSteps step
  if branches.isEmpty then
    (.ok true (s.storeStepResult step.id (.array [])), storeEvents s step.id (.array []))
  else if s.limits.maxParallelBranches < branches.length then
    (.error (.validation (tooManyBranches step branches.length s.limits.maxParallelBranches)) s, [])
  else
    let outcomes := branchOutcomes host run s branches
    let es := branchesEvents outcomes
    match host.branchJoin s with
    | some failure => (.error (joinError "Parallel branch task" failure) s, es)
    | none =>
      let join := joinBranches s outcomes
      let es := es ++ joinEvents s.stepResults.keys s.vars (emptyJoin s) outcomes
      match join.error with
      | some e => (.error e join.state, es)
      | none =>
        (.ok (!join.anyFailed) (join.state.storeStepResult step.id (.array join.results)),
          es ++ storeEvents join.state step.id (.array join.results))

/-! ### `ifs` -/

def branchMatches (branch : Value) : Watch Bool :=
  match (branch.get "test").bind Value.asStr with
  | some condition => evalIfCondition condition
  | none => pure true

def chooseBranch : List Value → Watch (List StepDef)
  | [] => pure []
  | branch :: rest => do
    let matched ← branchMatches branch
    if matched then pure (StepDef.bodySteps (branch.get "then")) else chooseBranch rest

def runIfs (step : StepDef) : Watch Bool :=
  match (step.params.get "ifs").bind Value.asArray with
  | none => pure true
  | some branches => do
    let steps ← chooseBranch branches
    let (ended, _) ← runBlock host run steps
    pure (ended ≠ .failed)

/-! ### `for_each` and `repeat` -/

def untilHolds (expr : Option String) : Watch Bool :=
  match expr with
  | none => pure false
  | some text => evalIfCondition text

def runPasses (steps : List StepDef) (offset : Nat) (untilExpr collectExpr : Option String) :
    Nat → Collected → Watch (Bool × Collected)
  | 0, acc => do
    let _ ← lift hostNextForeach
    pure (true, acc)
  | n + 1, acc => do
    let hasItem ← lift hostNextForeach
    if hasItem then do
      lift (clearResults steps)
      let (ended, _) ← runSteps host run steps offset none
      match ended with
      | .failed => pure (false, acc)
      | .returned => pure (true, acc)
      | .completed => do
        let acc ← collectValue collectExpr acc
        let stop ← untilHolds untilExpr
        if stop then pure (true, acc)
        else runPasses steps offset untilExpr collectExpr n acc
    else pure (true, acc)

def storeCollected (step : StepDef) (collects : Bool) (acc : Collected) : Watch Unit :=
  if collects then storeResult step.id (.array acc.values) else pure ()

def finishIteration (step : StepDef) (idx : Nat) (collects : Bool) (acc : Collected) :
    Watch Bool := do
  hostEndForeach idx
  storeCollected step collects acc
  pure true

def runIteration (step : StepDef) (idx : Nat) (beginName : String) (begins : Nat → Exec Int) :
    Watch Bool := do
  let steps := StepDef.bodySteps (step.params.get "steps")
  let count ← lift (begins idx)
  if count < 0 then lift (negativeCount beginName)
  else do
    let untilExpr := if beginName = "begin_repeat" then
      (step.params.get "until").bind Value.asStr else none
    let collectExpr := (step.params.get "collect").bind Value.asStr
    let passes ← lift loopLength
    let (ok, acc) ← withSpliced steps fun offset =>
      if 0 < count then runPasses host run steps offset untilExpr collectExpr passes ⟨[], 0⟩
      else pure (true, ⟨[], 0⟩)
    if ok then finishIteration step idx collectExpr.isSome acc
    else do
      lift popLoop
      pure false

/-! ### `run_step` -/

def dispatchStep (step : StepDef) (idx : Nat) : Watch Bool :=
  match step.kind with
  | .forEach => runIteration host run step idx "begin_foreach" hostBeginForeach
  | .repetition => runIteration host run step idx "begin_repeat" (hostBeginRepeat host)
  | .ifs => runIfs host run step
  | .returning => runReturn host step
  | .guarded => runTry host run step
  | .parallel => runParallel host run step
  | .leaf => runLeaf host step idx

end Interpreter

def runStepTo (host : Host) : Nat → StepDef → Nat → Watch Bool
  | 0, _, _ => lift (throw (.runtime "step nesting"))
  | depth + 1, step, idx => do
    emit fun s => [.dispatched step idx s]
    let ok ← dispatchStep host (runStepTo host depth) step idx
    lift (raiseEscaping ok)

def runStep (host : Host) (step : StepDef) (idx : Nat) : Watch Bool :=
  runStepTo host (step.params.depth + 1) step idx

/-! ### The list changes nothing -/

section Erasure

variable (host : Host) {run : StepDef → Nat → Watch Bool} {run' : StepDef → Nat → Exec Bool}
  (hrun : ∀ step idx, erase (run step idx) = run' step idx)
include hrun

theorem erase_runSteps (steps : List StepDef) (idx : Nat) (last : Option Value) :
    erase (runSteps host run steps idx last) = Gwead.runSteps host run' steps idx last := by
  induction steps generalizing idx last with
  | nil => rfl
  | cons inner rest ih =>
    simp only [runSteps, Gwead.runSteps, Traced.erase_bind, Traced.erase_lift, hrun]
    congr
    funext _
    congr
    funext ok
    cases ok with
    | false => simp [Traced.erase_bind]
    | true =>
      simp only [if_true, Traced.erase_bind, Traced.erase_lift]
      congr
      funext s
      by_cases hreturned : s.returnSignal.isSome
      · simp only [hreturned, if_true, Traced.erase_pure]
      · simp only [hreturned, if_false, ih, Bool.false_eq_true]

omit hrun in
theorem erase_withSpliced {α : Type} (steps : List StepDef) {x : Nat → Watch α}
    {x' : Nat → Exec α} (h : ∀ offset, erase (x offset) = x' offset) :
    erase (withSpliced steps x) = Gwead.withSpliced steps x' := by
  funext s
  simp only [Gwead.withSpliced, ← h, erase, withSpliced, nested]
  rcases x s.action.steps.length (s.spliceSteps steps) with ⟨⟨a, s'⟩ | ⟨e, s'⟩, es⟩ <;> rfl

theorem erase_runBlock (steps : List StepDef) :
    erase (runBlock host run steps) = Gwead.runBlock host run' steps := by
  unfold runBlock Gwead.runBlock
  split
  · rfl
  · exact erase_withSpliced steps fun offset => erase_runSteps host hrun steps offset none

theorem erase_runHandlers (step : StepDef) (handlers : List StepDef) :
    erase (runHandlers host run step handlers) = Gwead.runHandlers host run' step handlers := by
  funext s
  simp only [Gwead.runHandlers, ← erase_runBlock host hrun, erase, runHandlers, nested]
  generalize (s.pushError (s.lastError.getD ("step '" ++ step.id ++ "' failed"))).clearFailure = t
  rcases runBlock host run handlers t with ⟨⟨a, s'⟩ | ⟨e, s'⟩, es⟩ <;> rfl

theorem erase_runCatch (step : StepDef) :
    erase (runCatch host run step) = Gwead.runCatch host run' step := by
  unfold runCatch Gwead.runCatch
  cases step.params.get "catch" with
  | none => rfl
  | some body =>
    rw [Traced.erase_emit_bind]
    by_cases hempty : (StepDef.bodySteps (some body)).isEmpty
    · simp [hempty]
    · simp [hempty, erase_runHandlers host hrun]

theorem erase_runFinally (step : StepDef) :
    erase (runFinally host run step) = Gwead.runFinally host run' step := by
  simp only [runFinally, Gwead.runFinally, Traced.erase_bind, Traced.erase_lift]
  congr
  funext returned
  cases returned with
  | true => rfl
  | false =>
    simp only [Bool.false_eq_true, if_false, Traced.erase_bind, erase_runBlock host hrun]
    rfl

theorem erase_finishTry (step : StepDef) (failed : Bool) (result : Option Value) :
    erase (finishTry host run step failed result) =
      Gwead.finishTry host run' step failed result := by
  simp only [finishTry, Gwead.finishTry, Traced.erase_bind, erase_runFinally host hrun]
  congr
  funext finallyOk
  split
  · rfl
  · rfl

theorem erase_runTry (step : StepDef) :
    erase (runTry host run step) = Gwead.runTry host run' step := by
  simp only [runTry, Gwead.runTry, afterTry, Traced.erase_bind, Traced.erase_lift,
    erase_runBlock host hrun]
  congr
  funext block
  congr
  funext returned
  split
  · rfl
  · split
    · simp only [Traced.erase_bind, erase_runCatch host hrun, erase_finishTry host hrun]
    · exact erase_finishTry host hrun step false block.2

theorem erase_runBranch (s : ExecutionState) (slot : Nat) (steps : List StepDef) :
    (runBranch host run s slot steps).1 = Gwead.runBranch host run' s slot steps := by
  simp only [Gwead.runBranch, ← erase_runSteps host hrun, erase, runBranch]
  generalize (s.fork slot).spliceSteps steps = t
  rcases runSteps host run steps s.action.steps.length none t with ⟨⟨⟨ended, last⟩, s'⟩ | ⟨e, s'⟩, es⟩
    <;> rfl

theorem erase_branchOutcomes (s : ExecutionState) (branches : List (List StepDef)) :
    ((branchOutcomes host run s branches).map fun outcome => outcome.map (·.1)) =
      Gwead.branchOutcomes host run' s branches := by
  apply List.ext_getElem
  · simp [branchOutcomes, Gwead.branchOutcomes]
  · intro slot h₁ h₂
    simp only [branchOutcomes, Gwead.branchOutcomes, List.getElem_map, List.getElem_mapIdx]
    split
    · rfl
    · simp only [Option.map_some, erase_runBranch host hrun]

theorem erase_runParallel (step : StepDef) :
    erase (runParallel host run step) = Gwead.runParallel host run' step := by
  funext s
  have hjoin : joinBranches s (branchOutcomes host run s (branchSteps step)) =
      Gwead.joinBranches host run' s (branchSteps step) := by
    rw [joinBranches, erase_branchOutcomes host hrun]
    rfl
  simp only [erase, runParallel, Gwead.runParallel, hjoin]
  by_cases hempty : (branchSteps step).isEmpty
  · simp only [hempty, if_true]
  · by_cases hwide : s.limits.maxParallelBranches < (branchSteps step).length
    · simp only [hempty, hwide, if_true, Bool.false_eq_true, if_false]
    · simp only [hempty, hwide, Bool.false_eq_true, if_false]
      cases host.branchJoin s with
      | some failure => rfl
      | none => cases (Gwead.joinBranches host run' s (branchSteps step)).error <;> rfl

omit hrun in
theorem erase_chooseBranch (branches : List Value) :
    erase (chooseBranch branches) = Gwead.chooseBranch branches := by
  induction branches with
  | nil => rfl
  | cons branch rest ih =>
    have hmatches : erase (branchMatches branch) = Gwead.branchMatches branch := by
      unfold branchMatches Gwead.branchMatches
      cases (branch.get "test").bind Value.asStr <;> rfl
    simp only [chooseBranch, Gwead.chooseBranch, Traced.erase_bind, hmatches]
    congr
    funext matched
    cases matched with
    | true => rfl
    | false => exact ih

theorem erase_runIfs (step : StepDef) :
    erase (runIfs host run step) = Gwead.runIfs host run' step := by
  unfold runIfs Gwead.runIfs
  cases (step.params.get "ifs").bind Value.asArray with
  | none => rfl
  | some branches =>
    simp only [Traced.erase_bind, Traced.erase_pure, erase_chooseBranch, erase_runBlock host hrun]

theorem erase_runPasses (steps : List StepDef) (offset : Nat)
    (untilExpr collectExpr : Option String) (passes : Nat) (acc : Collected) :
    erase (runPasses host run steps offset untilExpr collectExpr passes acc) =
      Gwead.runPasses host run' steps offset untilExpr collectExpr passes acc := by
  induction passes generalizing acc with
  | zero => simp only [runPasses, Gwead.runPasses, Traced.erase_bind, Traced.erase_lift,
      Traced.erase_pure]
  | succ n ih =>
    have huntil : erase (untilHolds untilExpr) = Gwead.untilHolds untilExpr := by
      cases untilExpr <;> rfl
    simp only [runPasses, Gwead.runPasses, Traced.erase_bind, Traced.erase_lift]
    congr
    funext hasItem
    cases hasItem with
    | false => rfl
    | true =>
      simp only [if_true, Traced.erase_bind, Traced.erase_lift, erase_runSteps host hrun]
      congr
      funext _
      congr
      funext block
      obtain ⟨ended, last⟩ := block
      cases ended with
      | failed => rfl
      | returned => rfl
      | completed =>
        simp only [Traced.erase_bind, huntil]
        congr
        funext acc
        congr
        funext stop
        cases stop with
        | true => rfl
        | false => exact ih acc

theorem erase_runIteration (step : StepDef) (idx : Nat) (name : String)
    (begins : Nat → Exec Int) :
    erase (runIteration host run step idx name begins) =
      Gwead.runIteration host run' step idx name begins := by
  simp only [runIteration, Gwead.runIteration, Traced.erase_bind, Traced.erase_lift]
  congr
  funext count
  split
  · rfl
  · simp only [Traced.erase_bind, Traced.erase_lift]
    congr
    funext passes
    congr
    · refine erase_withSpliced _ fun offset => ?_
      split
      · exact erase_runPasses host hrun _ _ _ _ _ _
      · rfl
    · funext block
      split
      · simp only [finishIteration, storeCollected, Gwead.finishIteration, Gwead.storeCollected,
          Traced.erase_bind, Traced.erase_pure]
        cases ((step.params.get "collect").bind Value.asStr).isSome <;> rfl
      · simp only [Traced.erase_bind, Traced.erase_lift, Traced.erase_pure]

theorem erase_dispatchStep (step : StepDef) (idx : Nat) :
    erase (dispatchStep host run step idx) = Gwead.dispatchStep host run' step idx := by
  unfold dispatchStep Gwead.dispatchStep
  cases step.kind with
  | forEach => exact erase_runIteration host hrun step idx _ _
  | repetition => exact erase_runIteration host hrun step idx _ _
  | ifs => exact erase_runIfs host hrun step
  | returning => rfl
  | guarded => exact erase_runTry host hrun step
  | parallel => exact erase_runParallel host hrun step
  | leaf => rfl

end Erasure

theorem erase_runStepTo (host : Host) (depth : Nat) (step : StepDef) (idx : Nat) :
    erase (runStepTo host depth step idx) = Gwead.runStepTo host depth step idx := by
  induction depth generalizing step idx with
  | zero => rfl
  | succ depth ih =>
    rw [runStepTo, Traced.erase_emit_bind, Traced.erase_bind, erase_dispatchStep host ih]
    rfl

/-- Without what it shows, the watched interpreter is the interpreter. -/
theorem erase_runStep (host : Host) (step : StepDef) (idx : Nat) :
    erase (runStep host step idx) = Gwead.runStep host step idx :=
  erase_runStepTo host _ step idx

end Watched

/-- What a call of `run_step` shows. -/
def runTrace (host : Host) (step : StepDef) (idx : Nat) (s : ExecutionState) : List RunEvent :=
  (Watched.runStep host step idx s).2

end Gwead
