import Gwead.InvokeGraph

/-!
# Step shapes

The walk over every step of an action, nested bodies included, that refuses what the runtime
would silently skip.
-/

namespace Gwead

open Identity

def jsonKind : Value → String
  | .object _ => "an object"
  | .array _ => "an array"
  | .string _ => "a string"
  | .number _ => "a number"
  | .bool _ => "a boolean"
  | .null => "null"

/-! ### Fields of the steps of a branch -/

/-- The bodies inside the params of a step of the given type, as arrays of step values. -/
def paramBodies (stepType : String) (params : Value) : List (List Value) :=
  if stepType = "for_each" ∨ stepType = "repeat" then [arrayAt params "steps"]
  else if stepType = "ifs" then (arrayAt params "ifs").map fun branch => arrayAt branch "then"
  else if stepType = "try" then ["try", "catch", "finally"].map (arrayAt params)
  else if stepType = "parallel" then
    (arrayAt params "branches").map fun branch => branch.asArray.getD []
  else []

/-- The strings under `field` in a step value and in the steps of its bodies, down to a depth. -/
def collectStepFieldTo (field : String) : Nat → Value → List String
  | 0, _ => []
  | n + 1, step =>
    match (step.get "type").bind Value.asStr with
    | none => []
    | some stepType =>
      ((step.get field).bind Value.asStr).toList ++
        match step.get "params" with
        | none => []
        | some params =>
          (paramBodies stepType params).flatMap fun body =>
            body.flatMap (collectStepFieldTo field n)

def collectStepFieldRecursive (step : Value) (field : String) : List String :=
  collectStepFieldTo field (step.depth + 1) step

/-- The first value that a branch has after an earlier branch had it, with both branches. -/
def findCollision (seen : List (String × Nat)) : List (String × Nat) → Option (String × Nat × Nat)
  | [] => none
  | (value, branch) :: rest =>
    match seen.lookup value with
    | some prev =>
      if prev = branch then findCollision seen rest else some (value, prev, branch)
    | none => findCollision ((value, branch) :: seen) rest

/-- The values of a field of the steps of each branch, with the branch's index. -/
def branchFields (field : String) (branches : List Value) : List (String × Nat) :=
  branches.zipIdx.flatMap fun b =>
    (b.1.asArray.getD []).flatMap fun step =>
      (collectStepFieldRecursive step field).map fun value => (value, b.2)

/-! ### The walk -/

section Shapes

variable (describe : Value → String) (actionName : String) (languageHasImpl : String → Bool)
  (supported : List String)

def atStep (step : StepDef) : String := "action '" ++ actionName ++ "' step '" ++ step.id ++ "'"

/-- Literal targets must follow the name grammar; templates are left to the run. -/
def checkInvokeTarget (step : StepDef) : Except String Unit :=
  if step.stepType = "invoke" then
    match (step.params.get "plugin").bind Value.asStr with
    | none => .ok ()
    | some target =>
      if isTemplated target then .ok ()
      else
        match validateReference .plugin target with
        | .ok () => .ok ()
        | .error e => .error (atStep actionName step ++ ": " ++ e.display)
  else .ok ()

def checkScript (step : StepDef) : Except String Unit :=
  if step.stepType = "script" then
    match (step.params.get "language").bind Value.asStr with
    | none =>
      .error (atStep actionName step ++ ": `script` step requires a `language` param naming a " ++
        "registered script runtime")
    | some language =>
      if languageHasImpl language then .ok ()
      else
        .error (atStep actionName step ++ " uses script language '" ++ language ++ "' but no " ++
          "plugin has registered an implementation; supported languages: [" ++
          ", ".intercalate (((supported.mergeSort (· ≤ ·)).dedup).map fun l => "\"" ++ l ++ "\"") ++
          "]")
  else .ok ()

/-- Every entry of a body must read as a step. -/
def parseBodyFrom (step : StepDef) (keyPath : String) : Nat → List Value →
    Except String (List StepDef)
  | _, [] => .ok []
  | i, v :: rest =>
    match StepDef.fromInnerValue v with
    | none =>
      .error (atStep actionName step ++ " " ++ keyPath ++ "[" ++ toString i ++
        "]: malformed step: " ++ describe v)
    | some parsed =>
      match parseBodyFrom step keyPath (i + 1) rest with
      | .error e => .error e
      | .ok steps => .ok (parsed :: steps)

/-- A body key that is present must be an array. -/
def requireArray (step : StepDef) (keyPath : String) : Option Value →
    Except String (Option (List Value))
  | none => .ok none
  | some (.array items) => .ok (some items)
  | some other =>
    .error (atStep actionName step ++ " " ++ keyPath ++ ": must be an array of steps, got " ++
      jsonKind other)

/-- Walk a body under a key path, if there is one. -/
def walkBody (inner : List StepDef → Except String Unit) (step : StepDef) (keyPath : String)
    (body : Option Value) : Except String Unit :=
  match requireArray actionName step keyPath body with
  | .error e => .error e
  | .ok none => .ok ()
  | .ok (some items) =>
    match parseBodyFrom describe actionName step keyPath 0 items with
    | .error e => .error e
    | .ok steps => inner steps

def branchPath (step : StepDef) (i : Nat) : String :=
  atStep actionName step ++ " ifs[" ++ toString i ++ "]"

/-- A branch's test is a string, or absent in the last branch. -/
def checkTest (step : StepDef) (lastIdx : Nat) (branch : Value) (i : Nat) : Except String Unit :=
  match branch.get "test" with
  | some (.string _) => .ok ()
  | none | some .null =>
    if i = lastIdx then .ok ()
    else
      .error (branchPath actionName step i ++ ": a branch with no `test` always matches, so it " ++
        "must be the last branch (found " ++ toString (lastIdx - i) ++ " after it)")
  | some other =>
    .error (branchPath actionName step i ++ ".test: must be a DSL condition string (or null / " ++
      "omitted for the final else branch), got " ++ jsonKind other)

def walkIfsBranch (inner : List StepDef → Except String Unit) (step : StepDef) (lastIdx : Nat)
    (branch : Value × Nat) : Except String Unit :=
  match branch.1 with
  | .object _ =>
    match checkTest actionName step lastIdx branch.1 branch.2 with
    | .error e => .error e
    | .ok () =>
      walkBody describe actionName inner step ("ifs[" ++ toString branch.2 ++ "].then")
        (branch.1.get "then")
  | other =>
    .error (branchPath actionName step branch.2 ++ ": must be a branch object with `test` and " ++
      "`then`, got " ++ jsonKind other)

def walkIfs (inner : List StepDef → Except String Unit) (step : StepDef) : Except String Unit :=
  match step.params.get "ifs" with
  | none =>
    .error (atStep actionName step ++ ": `ifs` step requires an `ifs` array of branch objects")
  | some (.array branches) =>
    firstError (walkIfsBranch describe actionName inner step (branches.length - 1))
      branches.zipIdx
  | some other =>
    .error (atStep actionName step ++ " ifs: must be an array of branch objects, got " ++
      jsonKind other)

def parallelPath (step : StepDef) : String :=
  "action '" ++ actionName ++ "' parallel step '" ++ step.id ++ "'"

def inBothBranches (prev branch : Nat) : String :=
  "appears in both branch " ++ toString prev ++ " and branch " ++ toString branch

/-- Branches share one result keyspace and one variable keyspace. -/
def checkBranchCollisions (step : StepDef) (branches : List Value) : Except String Unit :=
  match findCollision [] (branchFields "id" branches) with
  | some (id, prev, branch) =>
    .error (parallelPath actionName step ++ ": step id '" ++ id ++ "' " ++
      inBothBranches prev branch ++ "; branches execute concurrently and merge into one result " ++
      "keyspace, so step ids must be unique across branches")
  | none =>
    match findCollision [] (branchFields "storeToVariable" branches) with
    | some (var, prev, branch) =>
      .error (parallelPath actionName step ++ ": storeToVariable '" ++ var ++ "' " ++
        inBothBranches prev branch ++ "; branches execute concurrently and merge new variables " ++
        "into one keyspace, so a variable may be introduced by at most one branch (and writes to " ++
        "a variable that already existed before the parallel are discarded at merge, so this " ++
        "write cannot take effect either way)")
    | none => .ok ()

def walkBranch (inner : List StepDef → Except String Unit) (step : StepDef)
    (branch : Value × Nat) : Except String Unit :=
  match branch.1.asArray with
  | none =>
    .error (atStep actionName step ++ " branches[" ++ toString branch.2 ++
      "]: must be an array of steps")
  | some items =>
    match parseBodyFrom describe actionName step ("branches[" ++ toString branch.2 ++ "]") 0
        items with
    | .error e => .error e
    | .ok steps => inner steps

def walkParallel (inner : List StepDef → Except String Unit) (step : StepDef) :
    Except String Unit :=
  match step.params.get "branches" with
  | none => .ok ()
  | some (.array branches) =>
    match checkBranchCollisions actionName step branches with
    | .error e => .error e
    | .ok () => firstError (walkBranch describe actionName inner step) branches.zipIdx
  | some other =>
    .error (atStep actionName step ++ " branches: must be an array of step arrays, got " ++
      jsonKind other)

def walkBodies (inner : List StepDef → Except String Unit) (step : StepDef) :
    Except String Unit :=
  if step.stepType = "for_each" ∨ step.stepType = "repeat" then
    walkBody describe actionName inner step "steps" (step.params.get "steps")
  else if step.stepType = "ifs" then walkIfs describe actionName inner step
  else if step.stepType = "try" then
    firstError (fun key => walkBody describe actionName inner step key (step.params.get key))
      ["try", "catch", "finally"]
  else if step.stepType = "parallel" then walkParallel describe actionName inner step
  else .ok ()

def walkStep (inner : List StepDef → Except String Unit) (step : StepDef) : Except String Unit :=
  match validateName .stepId step.id with
  | .error e => .error ("action '" ++ actionName ++ "': " ++ e.display)
  | .ok () =>
    match checkInvokeTarget actionName step with
    | .error e => .error e
    | .ok () =>
      match checkScript actionName languageHasImpl supported step with
      | .error e => .error e
      | .ok () => walkBodies describe actionName inner step

/-- Steps whose bodies nest less than `n` deep. -/
def walkStepsTo : Nat → List StepDef → Except String Unit
  | 0, _ => .ok ()
  | n + 1, steps =>
    firstError (walkStep describe actionName languageHasImpl supported (walkStepsTo n)) steps

end Shapes

/-- A language has an implementation in the registry or in the manifest itself. -/
def languageHasImpl (registry : PluginRegistry) (localImpls : List StepTypeImpl)
    (language : String) : Bool :=
  (registry.stepTypeImplOwner "script" (some language)).isSome ||
    localImpls.any fun i => i.stepType == "script" && i.matches == some language

def supportedLanguages (registry : PluginRegistry) (localImpls : List StepTypeImpl) :
    List String :=
  registry.stepTypeImplMatches "script" ++
    localImpls.filterMap fun i => if i.stepType = "script" then i.matches else none

def validateStepShapes (describe : Value → String) (actionName : String) (steps : List StepDef)
    (registry : PluginRegistry) (localImpls : List StepTypeImpl) : Except String Unit :=
  walkStepsTo describe actionName (languageHasImpl registry localImpls)
    (supportedLanguages registry localImpls) (stepsDepth steps) steps

end Gwead
