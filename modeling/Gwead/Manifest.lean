import Gwead.Dag
import Gwead.State

/-!
# Manifests

What a plugin manifest and an SPI definition declare.
-/

namespace Gwead

def supportedFormatVersion : Nat := 1

structure SecretDecl where
  key : String
  overridable : Bool
  deriving DecidableEq

/-- Keys of a step's params that hold the plugin and the action it refers to. -/
structure StepReference where
  plugin : String
  action : String
  deriving DecidableEq

structure StepTypeDef where
  name : String
  freelyUsable : Bool
  metadataSchema : Option Value
  references : List StepReference
  deriving DecidableEq

inductive StepTypeImplKind where
  | wasm | native | intrinsic
  deriving DecidableEq

structure StepTypeImpl where
  stepType : String
  «matches» : Option String
  kind : StepTypeImplKind
  wasmModule : Option String
  implRef : Option String
  deriving DecidableEq

inductive WasmModuleSpec where
  | inline (base64 : String)
  | path (path : String)
  deriving DecidableEq

/-- An action with the fields that only registration reads. -/
structure ManifestAction extends Action where
  subscribesTo : List String
  continuous : Bool
  wallclockTimeoutMs : Option Nat
  deriving DecidableEq

structure PluginManifest where
  formatVersion : Option Nat
  name : String
  roles : List String
  actions : IndexMap String ManifestAction
  stepTypes : IndexMap String String
  permissions : List String
  usesSecrets : List SecretDecl
  stepTypeDefs : List StepTypeDef
  wasmModules : IndexMap String WasmModuleSpec
  stepTypeImpls : List StepTypeImpl
  deriving DecidableEq

structure SpiAction where
  description : Option String
  input : Value
  output : Value
  optional : Bool

def SpiAction.eqv (a b : SpiAction) : Bool :=
  a.description == b.description && a.input.eqv b.input && a.output.eqv b.output &&
    a.optional == b.optional

structure SpiDefinition where
  formatVersion : Option Nat
  name : String
  displayName : Option String
  version : Option String
  description : Option String
  actions : IndexMap String SpiAction
  definitions : IndexMap String Value
  streamEventShape : Option Value

namespace SpiDefinition

/-- Maps are equal when they have as many entries and each key has equal values in both. -/
def eqvMaps {α : Type} (eqv : α → α → Bool) (m m' : IndexMap String α) : Bool :=
  m.entries.length == m'.entries.length &&
    m.entries.all fun e =>
      match m'.get? e.1 with
      | some v => eqv e.2 v
      | none => false

def eqvOptions {α : Type} (eqv : α → α → Bool) : Option α → Option α → Bool
  | some a, some b => eqv a b
  | none, none => true
  | _, _ => false

def eqv (a b : SpiDefinition) : Bool :=
  a.formatVersion == b.formatVersion && a.name == b.name && a.displayName == b.displayName &&
    a.version == b.version && a.description == b.description &&
      eqvMaps SpiAction.eqv a.actions b.actions && eqvMaps Value.eqv a.definitions b.definitions &&
        eqvOptions Value.eqv a.streamEventShape b.streamEventShape

end SpiDefinition

end Gwead
