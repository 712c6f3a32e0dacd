import Gwead.Lib.Layering
import Gwead.Resolve
import Gwead.Types

/-!
# Dependency planning

Dependencies are read off the strings of a step's parameters: every `$steps.<id>` is an edge
unless the id is that of a step in the step's own bodies.  The plan layers the steps into waves.
-/

namespace Gwead

open Dsl

inductive DagError where
  | duplicateStepId (id : String)
  | unknownStepRef (source target : String)
  | forwardRef (source target : String)
  | selfRef (id : String)
  | cycle (ids : String)
  | unrootedStepsReference (step : String)
  deriving DecidableEq

namespace DagError

def display : DagError → String
  | duplicateStepId id => "duplicate step id: '" ++ id ++ "'"
  | unknownStepRef source target =>
      "step '" ++ source ++ "' references unknown step '" ++ target ++ "'"
  | forwardRef source target =>
      "step '" ++ source ++ "' references step '" ++ target ++
      "' which appears later in the manifest (forward references are not allowed)"
  | selfRef id => "step '" ++ id ++ "' references itself"
  | cycle ids => "step graph contains a cycle involving: " ++ ids
  | unrootedStepsReference step => "step '" ++ step ++ "' uses `\x7b\x7bsteps.…\x7d\x7d` without " ++
      "the `$`: write `\x7b\x7b$steps.<id>.result…\x7d\x7d`. " ++
      "The unrooted form is not a reference and would render as an empty string"

end DagError

/-- The text after a literal prefix. -/
def afterPrefix : List Char → List Char → Option (List Char)
  | [], cs => some cs
  | _ :: _, [] => none
  | p :: ps, c :: cs => if p = c then afterPrefix ps cs else none

def dollarSteps : List Char := ['$', 's', 't', 'e', 'p', 's', '.']

/-- What `\$steps\.([A-Za-z_][A-Za-z0-9_-]*)` captures when it matches at the head. -/
def stepsRefAt (cs : List Char) : Option (List Char) :=
  match afterPrefix dollarSteps cs with
  | some (c :: rest) => if isIdentStart c then some (c :: rest.takeWhile isIdentChar) else none
  | _ => none

/-- Successive captures, from left to right; `skip` counts what is left of the last match. -/
def captureStepsRefs : Nat → List Char → List String
  | _, [] => []
  | skip + 1, _ :: cs => captureStepsRefs skip cs
  | 0, c :: cs =>
    match stepsRefAt (c :: cs) with
    | some id => String.ofList id :: captureStepsRefs (id.length + 6) cs
    | none => captureStepsRefs 0 cs

def scanString (s : String) : List String := captureStepsRefs 0 s.toList

mutual

/-- Every step id the strings of a value mention, in order; keys are not scanned. -/
def scanValue : Value → List String
  | .string s => scanString s
  | .array items => scanItems items
  | .object fields => scanFields fields
  | _ => []

def scanItems : List Value → List String
  | [] => []
  | v :: rest => scanValue v ++ scanItems rest

def scanFields : List (String × Value) → List String
  | [] => []
  | (_, v) :: rest => scanValue v ++ scanFields rest

end

/-- Whether `\{\{\s*steps\.` matches at the head. -/
def unrootedAt (cs : List Char) : Bool :=
  match cs with
  | '{' :: '{' :: rest =>
    (afterPrefix ['s', 't', 'e', 'p', 's', '.'] (rest.dropWhile isWhiteSpace)).isSome
  | _ => false

def matchesSomewhere (p : List Char → Bool) : List Char → Bool
  | [] => p []
  | c :: cs => p (c :: cs) || matchesSomewhere p cs

mutual

/-- Whether a string of a value satisfies a test. -/
def anyString (p : String → Bool) : Value → Bool
  | .string s => p s
  | .array items => anyStringItems p items
  | .object fields => anyStringFields p fields
  | _ => false

def anyStringItems (p : String → Bool) : List Value → Bool
  | [] => false
  | v :: rest => anyString p v || anyStringItems p rest

def anyStringFields (p : String → Bool) : List (String × Value) → Bool
  | [] => false
  | (_, v) :: rest => anyString p v || anyStringFields p rest

end

def containsUnrootedStepsTemplate (v : Value) : Bool :=
  anyString (fun s => matchesSomewhere unrootedAt s.toList) v

def innerBodyKeys : List String := ["steps", "then", "try", "catch", "finally"]

/-- The ids of an array of steps and, through `inner`, of the bodies of each of them. -/
def stepIdsInArray (inner : Value → List String) (v : Value) : List String :=
  match v.asArray with
  | none => []
  | some items => items.flatMap fun item =>
      ((item.get "id").bind Value.asStr).toList ++
        match item.get "params" with
        | some params => inner params
        | none => []

def arrayAt (v : Value) (key : String) : List Value :=
  ((v.get key).bind Value.asArray).getD []

theorem asArray_eq_some {v : Value} {items : List Value} :
    v.asArray = some items ↔ v = .array items := by
  cases v <;> simp [Value.asArray]

theorem mem_arrayAt {params item : Value} {key : String} :
    item ∈ arrayAt params key ↔ ∃ items, params.get key = some (.array items) ∧ item ∈ items := by
  unfold arrayAt
  cases hget : params.get key with
  | none => simp
  | some v => cases v <;> simp [Value.asArray]

/-- The step ids defined inside parameters, down to a nesting depth. -/
def innerStepIdsTo : Nat → Value → List String
  | 0, _ => []
  | n + 1, params =>
    (arrayAt params "ifs").flatMap (innerStepIdsTo n) ++
      ((arrayAt params "branches").flatMap (stepIdsInArray (innerStepIdsTo n)) ++
        innerBodyKeys.flatMap fun key =>
          match params.get key with
          | some v => stepIdsInArray (innerStepIdsTo n) v
          | none => [])

/-- Every step id defined inside parameters.  Bodies nest less deeply than the value does. -/
def collectInnerStepIds (params : Value) : List String := innerStepIdsTo params.depth params

def pushUnique (out : List String) (id : String) : List String :=
  if out.contains id then out else out ++ [id]

/-- Declared dependencies first, then the references that leave the step's own bodies. -/
def extractStepDeps (step : StepDef) : List String :=
  let scopedLocal := collectInnerStepIds step.params
  let localOut := (scanValue step.params).foldl pushUnique []
  (localOut.filter fun id => !scopedLocal.contains id).foldl pushUnique
    (step.dependsOn.foldl pushUnique [])

structure DagPlan where
  waves : List (List Nat)
  deps : List (List Nat)
  consumers : List (List Nat)
  deriving DecidableEq

/-- The id of the first step whose id an earlier step has. -/
def firstDuplicate (seen : List String) : List StepDef → Option String
  | [] => none
  | step :: rest =>
    if seen.contains step.id then some step.id else firstDuplicate (step.id :: seen) rest

/-- Turn references into step indices, in order and without repetition. -/
def resolveRefs (ids : List String) (i : Nat) (stepId : String) :
    List String → List Nat → Except DagError (List Nat)
  | [], acc => .ok acc
  | refId :: rest, acc =>
    if refId = stepId then .error (.selfRef stepId)
    else
      match ids.idxOf? refId with
      | none => .error (.unknownStepRef stepId refId)
      | some target =>
        if i < target then .error (.forwardRef stepId refId)
        else resolveRefs ids i stepId rest (if acc.contains target then acc else acc ++ [target])

def planStep (ids : List String) (i : Nat) (step : StepDef) : Except DagError (List Nat) :=
  if containsUnrootedStepsTemplate step.params then .error (.unrootedStepsReference step.id)
  else resolveRefs ids i step.id (extractStepDeps step) []

def planSteps (ids : List String) : Nat → List StepDef → Except DagError (List (List Nat))
  | _, [] => .ok []
  | i, step :: rest =>
    match planStep ids i step with
    | .error e => .error e
    | .ok ds =>
      match planSteps ids (i + 1) rest with
      | .error e => .error e
      | .ok dss => .ok (ds :: dss)

/-- The steps that depend on `target`, in declaration order. -/
def consumersOf (deps : List (List Nat)) (target : Nat) : List Nat :=
  (List.range deps.length).filter fun i => (deps.getD i []).contains target

/-- Drain the ready steps round by round.  Every round schedules a step, so as many rounds as
there are steps suffice. -/
def layerFrom (deps : List (List Nat)) (ids : List String) :
    Nat → List Nat → Except DagError (List (List Nat))
  | 0, _ => .ok []
  | rounds + 1, scheduled =>
    if scheduled.length = deps.length then .ok []
    else
      let wave := Layering.round (fun i => deps.getD i []) deps.length scheduled
      if wave.isEmpty then
        let stuck := (List.range deps.length).filter fun i => !scheduled.contains i
        .error (.cycle (", ".intercalate (stuck.map fun i => ids.getD i "")))
      else
        match layerFrom deps ids rounds (scheduled ++ wave) with
        | .error e => .error e
        | .ok waves => .ok (wave :: waves)

def layerIntoWaves (deps : List (List Nat)) (ids : List String) :
    Except DagError (List (List Nat)) :=
  layerFrom deps ids deps.length []

def buildPlan (action : Action) : Except DagError DagPlan :=
  match firstDuplicate [] action.steps with
  | some id => .error (.duplicateStepId id)
  | none =>
    let ids := action.steps.map (·.id)
    match planSteps ids 0 action.steps with
    | .error e => .error e
    | .ok deps =>
      match layerIntoWaves deps ids with
      | .error e => .error e
      | .ok waves =>
        .ok ⟨waves, deps, (List.range deps.length).map (consumersOf deps)⟩

end Gwead
