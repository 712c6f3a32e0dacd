import Gwead.Value

/-!
# Steps and actions

The parts of a manifest that scheduling and execution read.
-/

namespace Gwead

structure StepDef where
  id : String
  stepType : String
  params : Value
  storeToVariable : Option String
  dependsOn : List String
  longRunning : Bool
  deriving DecidableEq

namespace StepDef

/-- A step with the default of every optional field. -/
def new (id stepType : String) (params : Value) : StepDef :=
  ⟨id, stepType, params, none, [], false⟩

def knownFields : List String :=
  ["id", "type", "params", "storeToVariable", "dependsOn", "longRunning"]

def readStringList : List Value → Option (List String)
  | [] => some []
  | v :: rest => do
    let s ← v.asStr
    let ss ← readStringList rest
    some (s :: ss)

def readVariable : Option Value → Option (Option String)
  | none => some none
  | some .null => some none
  | some (.string s) => some (some s)
  | some _ => none

def readDependsOn : Option Value → Option (List String)
  | none => some []
  | some (.array items) => readStringList items
  | some _ => none

def readLongRunning : Option Value → Option Bool
  | none => some false
  | some (.bool b) => some b
  | some _ => none

/-- Read a step from a body array.  Unknown fields are refused, and so is an array, which would
otherwise be read by position. -/
def fromInnerValue (v : Value) : Option StepDef :=
  match v with
  | .object fields =>
    if fields.all fun e => knownFields.contains e.1 then do
      let id ← (v.get "id").bind Value.asStr
      let stepType ← (v.get "type").bind Value.asStr
      let storeToVariable ← readVariable (v.get "storeToVariable")
      let dependsOn ← readDependsOn (v.get "dependsOn")
      let longRunning ← readLongRunning (v.get "longRunning")
      some ⟨id, stepType, (v.get "params").getD Value.emptyObject, storeToVariable, dependsOn,
        longRunning⟩
    else none
  | _ => none

/-- The steps of a body array; malformed entries and anything but an array give none. -/
def bodySteps (v : Option Value) : List StepDef :=
  match v.bind Value.asArray with
  | some items => items.filterMap fromInnerValue
  | none => []

/-- What a step read from a value has of it. -/
theorem fromInnerValue_some {v : Value} {step : StepDef} (h : fromInnerValue v = some step) :
    (v.get "id").bind Value.asStr = some step.id ∧
      (v.get "type").bind Value.asStr = some step.stepType ∧
        step.params = (v.get "params").getD Value.emptyObject := by
  cases v with
  | object fields =>
    simp only [fromInnerValue] at h
    split at h
    · simp only [Option.bind_eq_bind, Option.bind_eq_some_iff] at h
      obtain ⟨id, hid, ty, hty, _, -, _, -, _, -, h⟩ := h
      cases h
      exact ⟨Option.bind_eq_some_iff.mpr hid, Option.bind_eq_some_iff.mpr hty, rfl⟩
    · cases h
  | _ => cases h

end StepDef

structure Action where
  steps : List StepDef
  resultsPath : Option String
  resultMapping : List (String × Value)
  parallelWaves : Bool
  dataflow : Bool
  deriving DecidableEq

namespace Action

/-- A sequential action with no output rule. -/
def ofSteps (steps : List StepDef) : Action := ⟨steps, none, [], false, false⟩

/-- The step a plan's index names; the indices of a plan are in range. -/
def stepAt (action : Action) (idx : Nat) : StepDef :=
  action.steps.getD idx (.new "" "" .null)

end Action

end Gwead
