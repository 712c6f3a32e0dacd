import Gwead.Resolve
import Gwead.Types

/-!
# Execution state

The state one run of an action carries, the two ways expressions read it, the one funnel step
results go through, and the output rule.  Fields that only engine internals read are left out.
-/

namespace Gwead

open Dsl

inductive KernelError where
  | boot (message : String)
  | notFound (message : String)
  | validation (message : String)
  | runtime (message : String)
  | execution (message : String)
  | fuelExhausted (budget : Nat) (detail : String)
  | memoryLimitExceeded (limitBytes : Nat) (detail : String)
  | stepResultsLimitExceeded (limitBytes attemptedBytes : Nat)
  | executionTimeout (timeoutMs : Nat)
  | cancelled (atStep : String)
  | calleeFailed (stepId plugin action : String) (source : KernelError)
  | pluginError (code message : String) (params : Value)
  deriving DecidableEq

namespace KernelError

def display : KernelError → String
  | boot m => "Kernel boot failed: " ++ m
  | notFound m => "Plugin/action not found: " ++ m
  | validation m => "Manifest validation failed: " ++ m
  | runtime m => "Wasm runtime error: " ++ m
  | execution m => "Execution error: " ++ m
  | fuelExhausted budget detail =>
      "Wasm fuel exhausted (" ++ budget.repr ++ " unit budget): " ++ detail
  | memoryLimitExceeded limitBytes detail =>
      "Wasm memory limit exceeded (" ++ limitBytes.repr ++ " bytes): " ++ detail
  | stepResultsLimitExceeded limitBytes attemptedBytes =>
      "Step results exceeded the " ++ limitBytes.repr ++ "-byte budget (needed " ++
      attemptedBytes.repr ++ "). Step results accumulate across an action and one step may " ++
      "reference another's result more than once, so a chain of them grows geometrically; " ++
      "raise RuntimeLimits::max_step_results_bytes if this action legitimately holds this much."
  | executionTimeout timeoutMs =>
      "Action wallclock timeout exceeded (" ++ timeoutMs.repr ++ " ms)"
  | cancelled atStep => "Action cancelled at step '" ++ atStep ++ "'"
  | calleeFailed stepId plugin action source =>
      "step '" ++ stepId ++ "' → " ++ plugin ++ "." ++ action ++ " failed: " ++ source.display
  | pluginError code message _ => "Plugin error " ++ code ++ ": " ++ message

end KernelError

inductive ResourceViolation where
  | fuelExhausted (budget : Nat) (detail : String)
  | memoryLimit (bytes : Nat) (detail : String)
  | stepResultsLimit (limitBytes attemptedBytes : Nat)
  deriving DecidableEq

namespace ResourceViolation

/-- The fuel and memory caps fail one step; the result budget is the invocation's. -/
def escapesTry : ResourceViolation → Bool
  | fuelExhausted .. => false
  | memoryLimit .. => false
  | stepResultsLimit .. => true

def toError : ResourceViolation → KernelError
  | fuelExhausted budget detail => .fuelExhausted budget detail
  | memoryLimit bytes detail => .memoryLimitExceeded bytes detail
  | stepResultsLimit limitBytes attemptedBytes =>
      .stepResultsLimitExceeded limitBytes attemptedBytes

end ResourceViolation

structure PluginErrorPayload where
  code : String
  message : String
  params : Value
  deriving DecidableEq

structure CalleeError where
  plugin : String
  action : String
  source : KernelError
  deriving DecidableEq

/-- Where a loop's items come from: a list, or a count whose items are produced on demand. -/
inductive ForEachItems where
  | values (items : List Value)
  | count (n : Nat)
  deriving DecidableEq

namespace ForEachItems

def len : ForEachItems → Nat
  | values items => items.length
  | count n => n

def itemAt (items : ForEachItems) (idx : Nat) : Option Value :=
  match items with
  | values vs => vs[idx]?
  | count n => if idx < n then some (.ofNat idx) else none

end ForEachItems

structure ForEachState where
  items : ForEachItems
  currentValue : Option Value
  index : Nat
  current : Option Nat
  results : List Value
  deriving DecidableEq

structure RuntimeLimits where
  maxStepResultsBytes : Nat
  maxParallelBranches : Nat
  deriving DecidableEq

/-- `foreachStack` and `errorStack` have their top first.  `task` is the path of forks that led
to this copy of the state and `clock` counts its dispatches and token polls; together they name
the moments at which the outside world may act.  `writtenVars` records the variables written
since the fork. -/
structure ExecutionState where
  pluginName : String
  action : Action
  input : Value
  config : Value
  secrets : Value
  vars : IndexMap String Value
  stepResults : IndexMap String Value
  stepMetadata : IndexMap String (IndexMap String Value)
  firstStepId : Option String
  lastError : Option String
  resourceViolation : Option ResourceViolation
  stepResultsBytes : Nat
  pluginError : Option PluginErrorPayload
  cancelled : Bool
  calleeError : Option CalleeError
  foreachStack : List ForEachState
  errorStack : List String
  limits : RuntimeLimits
  trigger : Option Value
  activeFanoutOverrides : List (String × Nat)
  currentStepIdx : Option Nat
  returnSignal : Option Value
  bodySecrets : Option Value
  task : List Nat
  clock : Nat
  writtenVars : List String

def satAdd (a b : Nat) : Nat := min (a + b) (2 ^ 64 - 1)

/-- The charge for one node of a stored value. -/
def nodeOverhead : Nat := 16

mutual

def approxValueBytes : Value → Nat
  | .string s => nodeOverhead + byteLen s.toList
  | .array items => nodeOverhead + approxItemsBytes items
  | .object fields => nodeOverhead + approxFieldsBytes fields
  | _ => nodeOverhead

def approxItemsBytes : List Value → Nat
  | [] => 0
  | v :: rest => approxValueBytes v + approxItemsBytes rest

def approxFieldsBytes : List (String × Value) → Nat
  | [] => 0
  | (k, v) :: rest =>
    nodeOverhead + byteLen k.toList + approxValueBytes v + approxFieldsBytes rest

end

namespace ExecutionState

/-- The state an invocation starts in. -/
def new (pluginName : String) (action : Action) (input config secrets : Value)
    (trigger : Option Value) (limits : RuntimeLimits) : ExecutionState where
  pluginName := pluginName
  action := action
  input := input
  config := config
  secrets := secrets
  vars := .empty
  stepResults := .empty
  stepMetadata := .empty
  firstStepId := none
  lastError := none
  resourceViolation := none
  stepResultsBytes := 0
  pluginError := none
  cancelled := false
  calleeError := none
  foreachStack := []
  errorStack := []
  limits := limits
  trigger := trigger
  activeFanoutOverrides := []
  currentStepIdx := none
  returnSignal := none
  bodySecrets := none
  task := []
  clock := 0
  writtenVars := []

/-- The value of the loop the body is in. -/
def currentItem (s : ExecutionState) : Option Value :=
  s.foreachStack.head?.bind (·.currentValue)

/-- A step's result as this consumer sees it: its own branch of a fanned-out stream, if any. -/
def effectiveResult (s : ExecutionState) (id : String) (stored : Value) : Value :=
  match s.activeFanoutOverrides.lookup id with
  | some branch => .ofNat branch
  | none => stored

/-- Metadata keys of a step with `result` laid over them. -/
def wrapStep (s : ExecutionState) (id : String) (result : Value) : Value :=
  let metadata := ((s.stepMetadata.get? id).map (·.entries)).getD []
  .object (AssocMap.insertSorted "result" result (AssocMap.ofEntries metadata))

/-- Stored results with the overrides applied, or nothing when there are no overrides. -/
def stepResultsViewWithOverrides (s : ExecutionState) : Option (List (String × Value)) :=
  if s.activeFanoutOverrides.isEmpty then none
  else some (s.stepResults.entries.map fun e => (e.1, s.effectiveResult e.1 e.2))

/-- The `$steps` object of structural expressions. -/
def buildDslStepsView (s : ExecutionState) : Value :=
  let source := s.stepResultsViewWithOverrides.getD s.stepResults.entries
  .ofFields (source.map fun e => (e.1, s.wrapStep e.1 e.2))

def varsAsValue (s : ExecutionState) : Value := .ofFields s.vars.entries

def insertSome (key : String) (v : Option Value) (bag : List (String × Value)) :
    List (String × Value) :=
  match v with
  | some v => AssocMap.insertSorted key v bag
  | none => bag

/-- The fields of the variables bag, from the first namespace inserted to the last. -/
def bagFields (s : ExecutionState) : List (String × Value) :=
  let inputFields := s.input.asObject.getD []
  let steps := Value.ofFields <| s.stepResults.entries.map fun e =>
    (e.1, s.wrapStep e.1 (s.effectiveResult e.1 e.2))
  insertSome "trigger" s.trigger <|
    insertSome "error" (s.errorStack.head?.map Value.string) <|
      insertSome "item" s.currentItem <|
        AssocMap.insertSorted "steps" steps <|
          AssocMap.insertSorted "vars" s.varsAsValue <|
            AssocMap.insertSorted "secrets" s.secrets <|
              AssocMap.insertSorted "config" s.config inputFields

/-- The variables bag: the input's fields with the kernel's namespaces inserted over them. -/
def resolutionContext (s : ExecutionState) : Value := .object s.bagFields

def getSourceResult (s : ExecutionState) : Option String → Option Value
  | some source => s.stepResults.get? source
  | none => s.firstStepId.bind s.stepResults.get?

/-- The context of structural expressions, which keeps the namespaces apart. -/
def structuralContext (s : ExecutionState) (implicitSource : Option Value) : EvalContext where
  input := some s.input
  steps := some s.buildDslStepsView
  config := some s.config
  secrets := some s.secrets
  trigger := s.trigger
  vars := some s.varsAsValue
  item := s.currentItem
  implicitSource := implicitSource

def evalPath (s : ExecutionState) (path : String) (implicitSource : Option Value) : Value :=
  match Dsl.parseReference path with
  | .ok reference => evalReference reference (s.structuralContext implicitSource)
  | .error _ => .null

def evalDslExpression (s : ExecutionState) (expression contextLabel : String) :
    Except KernelError Value :=
  match Dsl.parseExpression expression with
  | .ok expr => .ok (evalExpression expr (s.structuralContext none))
  | .error e => .error (.execution (contextLabel ++ ": expression '" ++ expression ++
      "' parse error: " ++ e.display))

/-- The bytes held once a result is stored in place of the one the step has. -/
def projectedBytes (s : ExecutionState) (stepId : String) (value : Value) : Nat :=
  let replaced := ((s.stepResults.get? stepId).map approxValueBytes).getD 0
  satAdd (s.stepResultsBytes - replaced) (approxValueBytes value)

/-- Store a result within the invocation's budget; a value over it is refused and recorded. -/
def storeStepResult (s : ExecutionState) (stepId : String) (value : Value) : ExecutionState :=
  let projected := s.projectedBytes stepId value
  let firstStepId := s.firstStepId.or (some stepId)
  if s.limits.maxStepResultsBytes < projected then
    { s with
      firstStepId := firstStepId
      resourceViolation := some (.stepResultsLimit s.limits.maxStepResultsBytes projected) }
  else
    { s with
      firstStepId := firstStepId
      stepResultsBytes := projected
      stepResults := s.stepResults.insert stepId value }

def setVariable (s : ExecutionState) (name : String) (value : Value) : ExecutionState :=
  { s with vars := s.vars.insert name value, writtenVars := name :: s.writtenVars }

/-- `variables[k] := v` for each entry, in order. -/
def setVariables (s : ExecutionState) (entries : List (String × Value)) : ExecutionState :=
  entries.foldl (fun s e => s.setVariable e.1 e.2) s

/-- Store each entry through the one funnel, in order. -/
def storeStepResults (s : ExecutionState) (entries : List (String × Value)) : ExecutionState :=
  entries.foldl (fun s e => s.storeStepResult e.1 e.2) s

section Output

variable (floatText : Binary64 → String)

mutual

/-- One field of a result mapping: a literal, a template, a path with an optional fallback, or
an object of such fields. -/
def extractFieldValue (s : ExecutionState) (ctx : Value) : Value → Value
  | .object fields =>
    let nested := extractFields s ctx fields
    match fields.lookup "literal" with
    | some (.string text) => .string (resolve floatText text ctx)
    | some other => resolveValue floatText other ctx
    | none =>
      match (fields.lookup "template").bind Value.asStr with
      | some text => .string (resolve floatText text ctx)
      | none =>
        match (fields.lookup "path").bind Value.asStr with
        | some path =>
          let source := (fields.lookup "source").bind Value.asStr
          let value := s.evalPath path (s.getSourceResult source)
          if value.isNull then (nested.lookup "fallback").getD value else value
        | none => .object nested
  | other => other

def extractFields (s : ExecutionState) (ctx : Value) :
    List (String × Value) → List (String × Value)
  | [] => []
  | (k, v) :: rest => (k, extractFieldValue s ctx v) :: extractFields s ctx rest

end

def applyResultMapping (s : ExecutionState) : Value :=
  .ofFields (extractFields floatText s s.resolutionContext s.action.resultMapping)

def collectOutput (s : ExecutionState) : Value :=
  if !s.action.resultMapping.isEmpty then applyResultMapping floatText s
  else
    match s.action.resultsPath with
    | some path => s.evalPath path (s.getSourceResult none)
    | none => ((s.stepResults.entries.getLast?).map Prod.snd).getD .null

end Output

end ExecutionState

end Gwead
