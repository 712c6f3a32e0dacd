import Gwead.Lib.Program
import Gwead.Lib.Wrap
import Gwead.State
import Mathlib.Data.Int.Basic

/-!
# The step interpreter

`run_step` and everything it recurses into.  The code around the interpreter (step bodies, the
linker, the secret resolver, the cancellation token, task panics) is a `Host`; what it answers
may depend on the whole state, so on the fork and the moment it is asked at.
-/

namespace Gwead

open Wrap (asI32)

structure StepOutput where
  value : Value
  metadata : IndexMap String Value

inductive StepError where
  | failed (message : String)
  | thrown (payload : PluginErrorPayload)
  | cancelled
  | callee (plugin action : String) (source : KernelError)

/-- A cap a guest ran into, as the host types it. -/
inductive ResourceCap where
  | fuel (budget : Nat) (detail : String)
  | memory (bytes : Nat) (detail : String)

def ResourceCap.toViolation : ResourceCap → ResourceViolation
  | fuel budget detail => .fuelExhausted budget detail
  | memory bytes detail => .memoryLimit bytes detail

/-- What a step body did: how it ended, the variables it set on the way, and the cap it hit. -/
structure BodyResult where
  outcome : Except StepError StepOutput
  sets : List (String × Value)
  cap : Option ResourceCap

/-- A body sees the state and its parameters. -/
abbrev StepBody := ExecutionState → Value → BodyResult

/-- How a spawned task can fail to hand back its state. -/
inductive JoinError where
  | panicked (text : String)
  | cancelled (text : String)

/-- Why a wave's tasks were not all collected. -/
inductive WaveInterrupt where
  | cancelled
  | join (failure : JoinError)

def joinError (what : String) : JoinError → KernelError
  | .panicked text => .execution (what ++ " panicked: " ++ text)
  | .cancelled text => .execution (what ++ " was cancelled: " ++ text)

structure Host where
  floatText : Binary64 → String
  /-- `{:?}` of a value. -/
  debugValue : Value → String
  /-- `{:?}` of a list of strings. -/
  debugKeys : List String → String
  /-- The key of a written step type this plugin may use. -/
  resolveStepType : String → Option String
  refusal : String → String
  /-- The imports of the linker, by resolved step type. -/
  bodies : String → Option StepBody
  /-- The metadata keys that the registry declares for a step type, at a time of a task. -/
  declaredMetadataKeys : List Nat → Nat → String → Option (List String)
  /-- The pulled secrets of the foreign plugin that ships a step type. -/
  ownerSecrets : ExecutionState → String → Option (Except String Value)
  /-- Whether the token has fired when the state polls it. -/
  cancelFired : ExecutionState → Bool
  /-- Whether a branch of the `parallel` step about to fork fails to join. -/
  branchJoin : ExecutionState → Option JoinError
  /-- Whether collecting the tasks of the wave about to fork is interrupted. -/
  waveInterrupt : ExecutionState → Option WaveInterrupt
  /-- Whether a handle is an open readable of the stream registry. -/
  readableOpen : ExecutionState → Nat → Bool
  /-- Split a readable into branches. -/
  fanOut : ExecutionState → Nat → Nat → Except String (List Nat)
  /-- The readable end of the pipe opened for a long-running step. -/
  pipeReadable : ExecutionState → Nat

abbrev Exec := EStateM KernelError ExecutionState

/-- The recorded violation as the error that ends the invocation, if it is one that does. -/
def escapingViolation (s : ExecutionState) : Option KernelError :=
  (s.resourceViolation.filter (·.escapesTry)).map (·.toError)

/-- The failure markers of a state as the step's error, the most specific one first. -/
def stepFailureToError (s : ExecutionState) (step : StepDef) : KernelError :=
  match s.resourceViolation with
  | some violation => violation.toError
  | none =>
    if s.cancelled then .cancelled step.id
    else
      match s.calleeError with
      | some callee => .calleeFailed step.id callee.plugin callee.action callee.source
      | none =>
        match s.pluginError with
        | some payload => .pluginError payload.code payload.message payload.params
        | none => .execution (s.lastError.getD ("Step '" ++ step.id ++ "' failed"))

/-! ### Leaf steps -/

section Leaf

variable (host : Host)

/-- Run a body and apply what it did to the state. -/
def runBody (body : StepBody) (params : Value) (s : ExecutionState) :
    Except StepError StepOutput × ExecutionState :=
  let result := body s params
  let s := s.setVariables result.sets
  let s := match result.cap with
    | some cap => { s with resourceViolation := some cap.toViolation }
    | none => s
  (result.outcome, { s with bodySecrets := none, currentStepIdx := none, clock := s.clock + 1 })

def undeclaredMetadata (step : StepDef) (bad : String) (declared : List String) : String :=
  "step '" ++ step.id ++ "' (type '" ++ step.stepType ++ "') emitted undeclared metadata key '" ++
    bad ++ "'; metadataSchema declares: " ++ host.debugKeys declared

/-- The first metadata key outside the step type's allow-list, with the list. -/
def firstUndeclared (s : ExecutionState) (step : StepDef) (metadata : IndexMap String Value) :
    Option (String × List String) :=
  match host.declaredMetadataKeys s.task s.clock step.stepType with
  | none => none
  | some allowed => (metadata.keys.find? fun k => !allowed.contains k).map fun bad => (bad, allowed)

def addMetadata (s : ExecutionState) (id : String) (metadata : IndexMap String Value) :
    ExecutionState :=
  if metadata.entries.isEmpty then s
  else
    let entry := (s.stepMetadata.get? id).getD .empty
    { s with stepMetadata := s.stepMetadata.insert id (entry.extend metadata.entries) }

/-- `store_to_variable` mirrors the stored result into a variable. -/
def bindVariable (s : ExecutionState) (step : StepDef) : ExecutionState :=
  match step.storeToVariable with
  | some name => s.setVariable name ((s.stepResults.get? step.id).getD .null)
  | none => s

/-- Write back what a body returned. -/
def finishOutput (step : StepDef) (output : StepOutput) (s : ExecutionState) :
    Bool × ExecutionState :=
  let s := s.storeStepResult step.id output.value
  match firstUndeclared host s step output.metadata with
  | some (bad, declared) =>
    (false, { s with lastError := some (undeclaredMetadata host step bad declared) })
  | none => (true, bindVariable (addMetadata s step.id output.metadata) step)

def formatThrown (payload : PluginErrorPayload) : String :=
  if payload.message.isEmpty then "PluginError " ++ payload.code
  else "PluginError " ++ payload.code ++ ": " ++ payload.message

/-- Record how a body failed. -/
def finishError (step : StepDef) (s : ExecutionState) : StepError → ExecutionState
  | .failed message => { s with lastError := some message }
  | .thrown payload =>
    { s with pluginError := some payload, lastError := some (formatThrown payload) }
  | .cancelled =>
    { s with lastError := some ("step '" ++ step.id ++ "' cancelled"), cancelled := true }
  | .callee plugin action source =>
    { s with
      lastError := some ("step '" ++ step.id ++ "' → " ++ plugin ++ "." ++ action ++
        " failed: " ++ source.display)
      calleeError := some ⟨plugin, action, source⟩ }

/-- The typed failure markers belong to one dispatch. -/
def ExecutionState.resetMarkers (s : ExecutionState) : ExecutionState :=
  { s with cancelled := false, calleeError := none }

/-- Run the body of a step whose secrets are in place. -/
def dispatchWithSecrets (step : StepDef) (body : StepBody) (s : ExecutionState) :
    Bool × ExecutionState :=
  let ran := runBody body step.params s.resetMarkers
  match ran.1 with
  | .ok output => finishOutput host step output ran.2
  | .error e => (false, finishError step ran.2 e)

/-- The core of the host function of a step type: look the step up by index, pull the body
owner's secrets, run the body and write its outcome back. -/
def dispatchTraitStep (body : StepBody) (idx : Nat) (s : ExecutionState) : Bool × ExecutionState :=
  match s.action.steps[idx]? with
  | none =>
    (false, { s with lastError := some ("Step index " ++ idx.repr ++ " out of bounds") })
  | some step =>
    let s := { s with currentStepIdx := some idx }
    match host.ownerSecrets s step.stepType with
    | some (.error e) =>
      (false, { s with
        currentStepIdx := none
        lastError := some ("step '" ++ step.id ++ "' (" ++ step.stepType ++
          "): could not resolve the body owner's secrets: " ++ e) })
    | some (.ok view) => dispatchWithSecrets host step body { s with bodySecrets := some view }
    | none => dispatchWithSecrets host step body s

/-- A step of any type but the control-flow ones. -/
def runLeaf (step : StepDef) (idx : Nat) : Exec Bool := fun s =>
  match host.resolveStepType step.stepType with
  | none =>
    let reason := host.refusal step.stepType
    .error (.validation reason) { s with lastError := some reason }
  | some key =>
    match host.bodies key with
    | none => .error (.runtime ("Host function 'step_" ++ key ++ "' not registered")) s
    | some body =>
      let (ok, s) := dispatchTraitStep host body idx s
      .ok ok s

end Leaf

/-! ### Bodies of control-flow steps -/

/-- Poll the token. -/
def checkCancelled (host : Host) (stepId : String) : Exec Unit := fun s =>
  let polled := { s with clock := s.clock + 1 }
  if host.cancelFired s then .error (.cancelled stepId) polled else .ok () polled

/-- A step that stopped on the token did not fail. -/
def escapeIfCancelled (stepId : String) : Exec Unit := fun s =>
  if s.cancelled then .error (.cancelled stepId) s else .ok () s

/-- How a body of steps ended. -/
inductive BodyEnd where
  | completed
  | returned
  | failed
  deriving DecidableEq

/-- Run the steps of a body one after the other, until one fails or raises the return signal.
The last step that succeeded leaves its result. -/
def runSteps (host : Host) (run : StepDef → Nat → Exec Bool) :
    List StepDef → Nat → Option Value → Exec (BodyEnd × Option Value)
  | [], _, last => pure (.completed, last)
  | inner :: rest, idx, last => do
    checkCancelled host inner.id
    let ok ← run inner idx
    if ok then do
      let s ← get
      let last := s.stepResults.get? inner.id
      if s.returnSignal.isSome then pure (.returned, last)
      else runSteps host run rest (idx + 1) last
    else do
      escapeIfCancelled inner.id
      pure (.failed, last)

def ExecutionState.spliceSteps (s : ExecutionState) (steps : List StepDef) : ExecutionState :=
  { s with action := { s.action with steps := s.action.steps ++ steps } }

def ExecutionState.truncateSteps (s : ExecutionState) (n : Nat) : ExecutionState :=
  { s with action := { s.action with steps := s.action.steps.take n } }

/-- Append steps to the action for the time of a program, which gets the index of the first. -/
def withSpliced {α : Type} (steps : List StepDef) (x : Nat → Exec α) : Exec α := fun s =>
  let offset := s.action.steps.length
  match x offset (s.spliceSteps steps) with
  | .ok a s' => .ok a (s'.truncateSteps offset)
  | .error e s' => .error e (s'.truncateSteps offset)

def runBlock (host : Host) (run : StepDef → Nat → Exec Bool) (steps : List StepDef) :
    Exec (BodyEnd × Option Value) :=
  if steps.isEmpty then pure (.completed, none)
  else withSpliced steps fun offset => runSteps host run steps offset none

def storeResult (stepId : String) (value : Value) : Exec Unit :=
  modify fun s => s.storeStepResult stepId value

def hasReturned : Exec Bool := fun s => .ok s.returnSignal.isSome s

/-! ### `try` -/

section Try

variable (host : Host) (run : StepDef → Nat → Exec Bool)

def ExecutionState.clearFailure (s : ExecutionState) : ExecutionState :=
  { s with lastError := none, pluginError := none, resourceViolation := none, calleeError := none }

def ExecutionState.pushError (s : ExecutionState) (message : String) : ExecutionState :=
  { s with errorStack := message :: s.errorStack }

def ExecutionState.popError (s : ExecutionState) : ExecutionState :=
  { s with errorStack := s.errorStack.tail }

/-- Run the handlers with the failure's message on the error stack. -/
def runHandlers (step : StepDef) (handlers : List StepDef) : Exec (BodyEnd × Option Value) :=
  fun s =>
    let message := s.lastError.getD ("step '" ++ step.id ++ "' failed")
    match runBlock host run handlers ((s.pushError message).clearFailure) with
    | .ok a s' => .ok a s'.popError
    | .error e s' => .error e s'.popError

/-- What follows a failed `try` block: propagate, swallow, or handle.  The answer says whether
the failure propagates and what the last handler left. -/
def runCatch (step : StepDef) : Exec (Bool × Option Value) :=
  match step.params.get "catch" with
  | none => pure (true, none)
  | some body =>
    let handlers := StepDef.bodySteps (some body)
    if handlers.isEmpty then do
      modify ExecutionState.clearFailure
      pure (false, none)
    else do
      let (ended, last) ← runHandlers host run step handlers
      pure (ended = .failed, last)

/-- Run `finally` unless a return is under way; the answer is whether it succeeded. -/
def runFinally (step : StepDef) : Exec Bool := do
  let returned ← hasReturned
  if returned then pure true
  else do
    let (ended, _) ← runBlock host run (StepDef.bodySteps (step.params.get "finally"))
    pure (ended ≠ .failed)

def finishTry (step : StepDef) (failed : Bool) (result : Option Value) : Exec Bool := do
  let finallyOk ← runFinally host run step
  if !finallyOk || failed then pure false
  else do
    storeResult step.id (result.getD .null)
    pure true

def runTry (step : StepDef) : Exec Bool := do
  let (ended, lastTry) ← runBlock host run (StepDef.bodySteps (step.params.get "try"))
  let returned ← hasReturned
  if returned then pure true
  else if ended = .failed then do
    let (failed, lastCatch) ← runCatch host run step
    finishTry host run step failed (lastCatch.or lastTry)
  else finishTry host run step false lastTry

end Try

/-! ### `parallel` -/

section Parallel

variable (host : Host) (run : StepDef → Nat → Exec Bool)

structure BranchOutcome where
  state : ExecutionState
  last : Option Value
  ok : Bool
  error : Option KernelError

/-- A copy of the state for a task of its own, which has written nothing yet. -/
def ExecutionState.fork (s : ExecutionState) (slot : Nat) : ExecutionState :=
  { s with task := slot :: s.clock :: s.task, clock := 0, writtenVars := [] }

def runBranch (s : ExecutionState) (slot : Nat) (steps : List StepDef) : BranchOutcome :=
  let forked := (s.fork slot).spliceSteps steps
  match runSteps host run steps s.action.steps.length none forked with
  | .ok (ended, last) s' => ⟨s', last, ended ≠ .failed, none⟩
  | .error e s' => ⟨s', none, false, some e⟩

/-- The variables of a task that were not there when it was forked. -/
def introduced (baseline : IndexMap String Value) (task : ExecutionState) :
    List (String × Value) :=
  task.vars.entries.filter fun e => !baseline.contains e.1

/-- Merge the results and metadata a branch stored under new ids. -/
def mergeBranchEntries (canonical task : ExecutionState) (baselineStepIds : List String) :
    ExecutionState :=
  let fresh := fun e : String × Value => !baselineStepIds.contains e.1
  let c := canonical.storeStepResults (task.stepResults.entries.filter fresh)
  let metadata := task.stepMetadata.entries.filter fun e => !baselineStepIds.contains e.1
  { c with
    stepMetadata := c.stepMetadata.extend metadata
    firstStepId := c.firstStepId.or task.firstStepId }

def ExecutionState.takeFailure (c task : ExecutionState) : ExecutionState :=
  { c with
    lastError := task.lastError, pluginError := task.pluginError, calleeError := task.calleeError }

/-- A violation or return signal already there stays. -/
def ExecutionState.takeSignals (c task : ExecutionState) : ExecutionState :=
  { c with
    resourceViolation := c.resourceViolation.or task.resourceViolation
    returnSignal := c.returnSignal.or task.returnSignal }

/-- Merge what a branch wrote: results and metadata under new ids, new variables, the failure
of the first branch that failed, a violation and the return signal. -/
def mergeParallelBranchState (canonical task : ExecutionState) (takesFailure : Bool)
    (baselineStepIds : List String) (baselineVariables : IndexMap String Value) :
    ExecutionState :=
  let c := (mergeBranchEntries canonical task baselineStepIds).setVariables
    (introduced baselineVariables task)
  (if takesFailure then c.takeFailure task else c).takeSignals task

/-- The join of the branches, in declaration order.  An empty branch has no outcome. -/
structure BranchJoin where
  state : ExecutionState
  results : List Value
  anyFailed : Bool
  error : Option KernelError

def joinBranch (baselineStepIds : List String) (baselineVariables : IndexMap String Value)
    (join : BranchJoin) : Option BranchOutcome → BranchJoin
  | none => { join with results := join.results ++ [.null] }
  | some branch =>
    { state := mergeParallelBranchState join.state branch.state (!branch.ok && !join.anyFailed)
        baselineStepIds baselineVariables
      results := join.results ++ [branch.last.getD .null]
      anyFailed := join.anyFailed || !branch.ok
      error := join.error.or branch.error }

def branchOutcomes (s : ExecutionState) (branches : List (List StepDef)) :
    List (Option BranchOutcome) :=
  branches.mapIdx fun slot steps =>
    if steps.isEmpty then none else some (runBranch host run s slot steps)

def joinBranches (s : ExecutionState) (branches : List (List StepDef)) : BranchJoin :=
  (branchOutcomes host run s branches).foldl
    (joinBranch s.stepResults.keys s.vars) ⟨{ s with clock := s.clock + 1 }, [], false, none⟩

def tooManyBranches (step : StepDef) (count limit : Nat) : String :=
  "parallel step '" ++ step.id ++ "': " ++ count.repr ++ " branches exceeds the " ++ limit.repr ++
    "-branch limit. Each branch forks the whole execution state, so width multiplies host " ++
    "memory; raise RuntimeLimits::max_parallel_branches if this fan-out is intended"

def branchSteps (step : StepDef) : List (List StepDef) :=
  (((step.params.get "branches").bind Value.asArray).getD []).map fun branch =>
    StepDef.bodySteps (some branch)

def runParallel (step : StepDef) : Exec Bool := fun s =>
  let branches := branchSteps step
  if branches.isEmpty then .ok true (s.storeStepResult step.id (.array []))
  else if s.limits.maxParallelBranches < branches.length then
    .error (.validation (tooManyBranches step branches.length s.limits.maxParallelBranches)) s
  else
    match host.branchJoin s with
    | some failure => .error (joinError "Parallel branch task" failure) s
    | none =>
      let join := joinBranches host run s branches
      match join.error with
      | some e => .error e join.state
      | none => .ok (!join.anyFailed) (join.state.storeStepResult step.id (.array join.results))

end Parallel

/-! ### `return` and `ifs` -/

def runReturn (host : Host) (step : StepDef) : Exec Bool := fun s =>
  let resolved := resolveValue host.floatText ((step.params.get "value").getD .null)
    s.resolutionContext
  .ok true { s.storeStepResult step.id resolved with returnSignal := some resolved }

def evalIfCondition (condition : String) : Exec Bool := fun s =>
  match s.evalDslExpression condition "ifs step" with
  | .ok v => .ok (Dsl.isTruthy v) s
  | .error e => .error e s

/-- A branch without a test always matches. -/
def branchMatches (branch : Value) : Exec Bool :=
  match (branch.get "test").bind Value.asStr with
  | some condition => evalIfCondition condition
  | none => pure true

/-- The `then` body of the first branch that matches. -/
def chooseBranch : List Value → Exec (List StepDef)
  | [] => pure []
  | branch :: rest => do
    let matched ← branchMatches branch
    if matched then pure (StepDef.bodySteps (branch.get "then")) else chooseBranch rest

def runIfs (host : Host) (run : StepDef → Nat → Exec Bool) (step : StepDef) : Exec Bool :=
  match (step.params.get "ifs").bind Value.asArray with
  | none => pure true
  | some branches => do
    let steps ← chooseBranch branches
    let (ended, _) ← runBlock host run steps
    pure (ended ≠ .failed)

/-! ### `for_each` and `repeat` -/

def ExecutionState.pushLoop (s : ExecutionState) (items : ForEachItems) : ExecutionState :=
  { s with foreachStack := ⟨items, none, 0, none, []⟩ :: s.foreachStack }

def foreachItems : Value → List Value
  | .array items => items
  | .null => []
  | .object [] => []
  | single => [single]

def hostBeginForeach (idx : Nat) : Exec Int := fun s =>
  match s.action.steps[idx]? with
  | none => .ok 0 s
  | some step =>
    let path := ((step.params.get "path").bind Value.asStr).getD "$"
    let source := (step.params.get "source").bind Value.asStr
    let items := foreachItems (s.evalPath path (s.getSourceResult source))
    .ok (asI32 items.length) (s.pushLoop (.values items))

/-- `str::parse::<u64>`. -/
def parseU64 (text : String) : Option Nat :=
  let digits := match text.toList with
    | '+' :: rest => rest
    | cs => cs
  if digits.isEmpty || !digits.all Char.isDigit then none
  else
    let n := digits.foldl (fun n c => 10 * n + (c.toNat - '0'.toNat)) 0
    if n < 2 ^ 64 then some n else none

/-- The bound of a `repeat`, or what is wrong with it. -/
def repeatCount (host : Host) : Value → Except String Nat
  | .number (.posInt n _) => .ok n
  | .number (.negInt _ _) => .error "count must be a non-negative integer"
  | .string text =>
    match parseU64 text with
    | some n => .ok n
    | none => .error ("count string '" ++ text ++ "' did not parse as a non-negative integer")
  | other => .error ("count must be an integer or a template resolving to one; got " ++
      host.debugValue other)

def hostBeginRepeat (host : Host) (idx : Nat) : Exec Int := fun s =>
  match s.action.steps[idx]? with
  | none => .ok 0 s
  | some step =>
    let fail := fun message : String =>
      EStateM.Result.ok (-1)
        { s with lastError := some ("repeat step '" ++ step.id ++ "': " ++ message) }
    let resolved := resolveValue host.floatText ((step.params.get "count").getD .null)
      s.resolutionContext
    match repeatCount host resolved with
    | .error message => fail message
    | .ok count =>
      if 2 ^ 31 - 1 < count then
        fail ("count " ++ count.repr ++ " exceeds i32::MAX — refuse to expand")
      else .ok count (s.pushLoop (.count count))

/-- Move the innermost loop to its next item. -/
def hostNextForeach : Exec Bool := fun s =>
  match s.foreachStack with
  | [] => .ok false s
  | frame :: outer =>
    if frame.index < frame.items.len then
      .ok true { s with foreachStack :=
        { frame with
          current := some frame.index
          currentValue := frame.items.itemAt frame.index
          index := frame.index + 1 } :: outer }
    else
      .ok false { s with foreachStack :=
        { frame with current := none, currentValue := none } :: outer }

def hostEndForeach (idx : Nat) : Exec Unit := fun s =>
  match s.action.steps[idx]? with
  | none => .ok () s
  | some step =>
    match s.foreachStack with
    | [] => .ok () s
    | frame :: outer =>
      .ok () ({ s with foreachStack := outer }.storeStepResult step.id (.array frame.results))

def popLoop : Exec Unit := modify fun s => { s with foreachStack := s.foreachStack.tail }

/-- Forget what the body's own steps left in the previous pass. -/
def clearResults (steps : List StepDef) : Exec Unit := modify fun s =>
  steps.foldl (fun s step => { s with
    stepResults := s.stepResults.shiftRemove step.id
    stepMetadata := s.stepMetadata.shiftRemove step.id }) s

/-- What `collect` has gathered so far, with its size. -/
structure Collected where
  values : List Value
  bytes : Nat

/-- Evaluate `collect` and charge the value on top of what the invocation already holds. -/
def collectValue (expr : Option String) (acc : Collected) : Exec Collected := fun s =>
  match expr with
  | none => .ok acc s
  | some text =>
    match s.evalDslExpression text "collect" with
    | .error e => .error e s
    | .ok v =>
      let bytes := satAdd acc.bytes (approxValueBytes v)
      let projected := satAdd s.stepResultsBytes bytes
      if s.limits.maxStepResultsBytes < projected then
        .error (.stepResultsLimitExceeded s.limits.maxStepResultsBytes projected) s
      else .ok ⟨acc.values ++ [v], bytes⟩ s

def untilHolds (expr : Option String) : Exec Bool :=
  match expr with
  | none => pure false
  | some text => evalIfCondition text

section Iteration

variable (host : Host) (run : StepDef → Nat → Exec Bool)

/-- The passes of a loop, at most as many as the counter says.  The answer is whether no body
failed, with what was collected. -/
def runPasses (steps : List StepDef) (offset : Nat) (untilExpr collectExpr : Option String) :
    Nat → Collected → Exec (Bool × Collected)
  | 0, acc => do
    let _ ← hostNextForeach
    pure (true, acc)
  | n + 1, acc => do
    let hasItem ← hostNextForeach
    if hasItem then do
      clearResults steps
      let (ended, _) ← runSteps host run steps offset none
      match ended with
      | .failed => pure (false, acc)
      | .returned => pure (true, acc)
      | .completed => do
        let acc ← collectValue collectExpr acc
        let stop ← untilHolds untilExpr
        if stop then pure (true, acc)
        else runPasses steps offset untilExpr collectExpr n acc
    else pure (true, acc)

/-- The items of the loop just begun. -/
def loopLength : Exec Nat := fun s => .ok (((s.foreachStack.head?).map (·.items.len)).getD 0) s

def storeCollected (step : StepDef) (collects : Bool) (acc : Collected) : Exec Unit :=
  if collects then storeResult step.id (.array acc.values) else pure ()

def finishIteration (step : StepDef) (idx : Nat) (collects : Bool) (acc : Collected) :
    Exec Bool := do
  hostEndForeach idx
  storeCollected step collects acc
  pure true

/-- The begin functions answer a negative count on bad input. -/
def negativeCount (beginName : String) : Exec Bool := fun s =>
  .error (.execution (s.lastError.getD (beginName ++ " returned negative count"))) s

/-- A loop over what `begins` put on the loop stack. -/
def runIteration (step : StepDef) (idx : Nat) (beginName : String) (begins : Nat → Exec Int) :
    Exec Bool := do
  let steps := StepDef.bodySteps (step.params.get "steps")
  let count ← begins idx
  if count < 0 then negativeCount beginName
  else do
    let untilExpr := if beginName = "begin_repeat" then
      (step.params.get "until").bind Value.asStr else none
    let collectExpr := (step.params.get "collect").bind Value.asStr
    let passes ← loopLength
    let (ok, acc) ← withSpliced steps fun offset =>
      if 0 < count then runPasses host run steps offset untilExpr collectExpr passes ⟨[], 0⟩
      else pure (true, ⟨[], 0⟩)
    if ok then finishIteration step idx collectExpr.isSome acc
    else do
      popLoop
      pure false

def runForeach (step : StepDef) (idx : Nat) : Exec Bool :=
  runIteration host run step idx "begin_foreach" hostBeginForeach

def runRepeat (step : StepDef) (idx : Nat) : Exec Bool :=
  runIteration host run step idx "begin_repeat" (hostBeginRepeat host)

end Iteration

/-! ### `run_step` -/

/-- The step types the interpreter runs itself; every other type is a leaf. -/
inductive StepKind where
  | forEach
  | repetition
  | ifs
  | returning
  | guarded
  | parallel
  | leaf
  deriving DecidableEq

def StepDef.kind (step : StepDef) : StepKind :=
  if step.stepType = "for_each" then .forEach
  else if step.stepType = "repeat" then .repetition
  else if step.stepType = "ifs" then .ifs
  else if step.stepType = "return" then .returning
  else if step.stepType = "try" then .guarded
  else if step.stepType = "parallel" then .parallel
  else .leaf

def dispatchStep (host : Host) (run : StepDef → Nat → Exec Bool) (step : StepDef) (idx : Nat) :
    Exec Bool :=
  match step.kind with
  | .forEach => runForeach host run step idx
  | .repetition => runRepeat host run step idx
  | .ifs => runIfs host run step
  | .returning => runReturn host step
  | .guarded => runTry host run step
  | .parallel => runParallel host run step
  | .leaf => runLeaf host step idx

/-- A violation that ends the invocation is raised whatever the step answered. -/
def raiseEscaping (ok : Bool) : Exec Bool := fun s =>
  match escapingViolation s with
  | some e => .error e s
  | none => .ok ok s

/-- Run a step, whose bodies nest at most as deep as the counter says. -/
def runStepTo (host : Host) : Nat → StepDef → Nat → Exec Bool
  | 0, _, _ => throw (.runtime "step nesting")
  | depth + 1, step, idx => do
    let ok ← dispatchStep host (runStepTo host depth) step idx
    raiseEscaping ok

/-- Bodies nest less deeply than the parameters they are part of. -/
def runStep (host : Host) (step : StepDef) (idx : Nat) : Exec Bool :=
  runStepTo host (step.params.depth + 1) step idx

/-! ### Step bodies of the kernel -/

section Bodies

variable (floatText : Binary64 → String)

def bodyOk (value : Value) : BodyResult := ⟨.ok ⟨value, .empty⟩, [], none⟩

/-- `let`: the resolved `value` is the result. -/
def stepLet : StepBody := fun s params =>
  match params.get "value" with
  | some v => bodyOk (resolveValue floatText v s.resolutionContext)
  | none => bodyOk .null

def resolveText (s : ExecutionState) (v : Option Value) (default : String) : String :=
  match v.bind Value.asStr with
  | some text => resolve floatText text s.resolutionContext
  | none => default

/-- `throw_error`: fail with a payload a handler can read. -/
def stepThrowError : StepBody := fun s params =>
  let payload : PluginErrorPayload :=
    { code := resolveText floatText s (params.get "code") "PLUGIN_ERROR"
      message := resolveText floatText s (params.get "message") ""
      params := ((params.get "params").map fun v =>
        resolveValue floatText v s.resolutionContext).getD .null }
  ⟨.error (.thrown payload), [], none⟩

/-- The bodies above behind their own names, with nothing outside acting on the run. -/
def quietHost : Host where
  floatText := floatText
  debugValue := fun _ => ""
  debugKeys := fun _ => ""
  resolveStepType := fun t => if t = "let" ∨ t = "throw_error" then some t else none
  refusal := fun t => "plugin may not use step type '" ++ t ++ "'"
  bodies := fun key =>
    if key = "let" then some (stepLet floatText)
    else if key = "throw_error" then some (stepThrowError floatText)
    else none
  declaredMetadataKeys := fun _ _ _ => none
  ownerSecrets := fun _ _ => none
  cancelFired := fun _ => false
  branchJoin := fun _ => none
  waveInterrupt := fun _ => none
  readableOpen := fun _ _ => false
  fanOut := fun _ _ _ => .ok []
  pipeReadable := fun _ => 1

end Bodies

end Gwead
