import Gwead.Spi
import Gwead.StepShapes

/-!
# Registering a plugin

Registration checks everything against the kernel as it is and resolves every reference first;
only then does it commit, and no commit can fail.
-/

namespace Gwead

open Identity

/-- What the libraries behind the loader compute, and what the embedder configured at boot. -/
structure Setup where
  parseJson : String → Except String Value
  validatePluginManifest : Value → Except String Unit
  validateSpiDefinition : Value → Except String Unit
  readManifest : Value → Except String PluginManifest
  readSpi : String → Except String SpiDefinition
  describeStep : Value → String
  decodeBase64 : String → Except String (List UInt8)
  compileWasm : List UInt8 → Except String Unit
  nativeStepImpls : List String
  intrinsicStepImpls : List String
  trustedStepTypeProviders : List String
  nativeImplBindings : List (String × String)
  appPermissionCategories : List AppPermissionCategory

/-- The body a linker import runs, known by the reference it was resolved from. -/
inductive LinkedBody where
  | plugin (implRef : String)
  | intrinsic (implRef : String)
  | aliasDispatch
  deriving DecidableEq

inductive ManifestPayload where
  | spiDef (json : String)
  | plugin (manifest : PluginManifest)
  deriving DecidableEq

structure ManifestRecord where
  identifier : String
  «namespace» : String
  payload : ManifestPayload
  immutable : Bool
  deriving DecidableEq

abbrev ManifestHandle := Nat

structure Kernel where
  registry : PluginRegistry
  spiRegistry : SpiRegistry
  additionalImports : List (String × LinkedBody)
  stepImportOwners : List (String × String)
  nextManifestId : Nat
  loadedManifests : List (ManifestHandle × ManifestRecord)
  spiRoleUsers : List (String × List ManifestHandle)

inductive PreparedStepImpl where
  | wasm (stepType : String) («matches» : Option String) (wasmModule : String)
  | native (stepType : String) (implRef : String)
  | intrinsic (stepType : String) (implRef : String)
  deriving DecidableEq

/-- What the checks hand to the commit; the manifest carries its qualified name. -/
structure Prepared where
  manifest : PluginManifest
  permissions : List Permission
  planned : List (String × ActionRegistration)
  compiledWasm : List (String × WasmModule)
  newEdges : List InvokeEdge
  defs : List StepTypeDef
  impls : List PreparedStepImpl

def reservedStepTypeNames : List String :=
  ["ifs", "for_each", "repeat", "parallel", "return", "try", "script", "throw_error", "invoke",
    "wasm", "let"]

namespace Registration

abbrev Check := Except KernelError Unit

def validation {α : Type} (message : String) : Except KernelError α := .error (.validation message)

/-- The error prefix of everything refused about a plugin. -/
def plugin (name : String) : String := "Plugin '" ++ name ++ "'"

/-- Turn the text of a failed check into a validation error. -/
def labelled {α ε : Type} (label : ε → String) : Except ε α → Except KernelError α
  | .ok a => .ok a
  | .error e => validation (label e)

/-- Apply a fallible function to every element, stopping at the first error. -/
def traverse {α β ε : Type} (f : α → Except ε β) : List α → Except ε (List β)
  | [] => .ok []
  | a :: rest =>
    match f a with
    | .error e => .error e
    | .ok b =>
      match traverse f rest with
      | .error e => .error e
      | .ok bs => .ok (b :: bs)

/-! ### Names and secrets -/

def checkNamespace (ns : String) : Check :=
  labelled NameError.display (validateNamespace ns)

def checkFormatVersion (manifest : PluginManifest) : Check :=
  match manifest.formatVersion with
  | none => .ok ()
  | some v =>
    if v = supportedFormatVersion then .ok ()
    else
      validation (plugin manifest.name ++ ": formatVersion " ++ toString v ++ " is not supported " ++
        "by this kernel (supports " ++ toString supportedFormatVersion ++ ")")

def checkImplName (decl : StepTypeImpl) : Except NameError Unit :=
  match validateStepTypeReference decl.stepType with
  | .error e => .error e
  | .ok () =>
    match decl.matches with
    | none => .ok ()
    | some selector => validateName .stepTypeSelector selector

def validateManifestNames (manifest : PluginManifest) (kernelOwned : Bool) : Check := do
  let named (e : NameError) : String := plugin manifest.name ++ ": " ++ e.display
  labelled NameError.display (validateName .plugin manifest.name)
  labelled named (firstError (validateName .role) manifest.roles)
  labelled named (firstError
    (fun d => validateStepTypeName d.name manifest.name kernelOwned) manifest.stepTypeDefs)
  labelled named (firstError checkImplName manifest.stepTypeImpls)

/-- The first key that was declared before. -/
def firstRepeated {α : Type} [DecidableEq α] (seen : List α) : List α → Option α
  | [] => none
  | a :: rest => if a ∈ seen then some a else firstRepeated (a :: seen) rest

def checkSecrets (ns : String) (manifest : PluginManifest) : Check :=
  match firstRepeated [] (manifest.usesSecrets.map SecretDecl.key) with
  | some key =>
    validation (plugin manifest.name ++ ": `usesSecrets` declares '" ++ key ++ "' more than once")
  | none =>
    match manifest.usesSecrets.find? SecretDecl.overridable with
    | none => .ok ()
    | some marked =>
      if ns = "" then .ok ()
      else
        validation (plugin manifest.name ++ ": `usesSecrets` marks '" ++ marked.key ++ "' " ++
          "overridable, which only a root-namespace manifest may do (this one is loaded into " ++
          "namespace '" ++ ns ++ "'). Only the level that owns a secret may mark it overridable by " ++
          "the levels below it")

/-! ### Checks against the kernel; from here on the manifest's name is the qualified one -/

def checkNotRegistered (k : Kernel) (m : PluginManifest) : Check :=
  if k.registry.hasPlugin m.name then
    validation (plugin m.name ++ " is already registered. Reload it via `reload_manifest` (for " ++
      "manifests loaded through `load_manifest`) or unload it first")
  else .ok ()

def checkContracts (k : Kernel) (ns : String) (m : PluginManifest) : Check :=
  let errors := validateManifest m ns k.spiRegistry
  if errors.isEmpty then .ok ()
  else
    validation (plugin m.name ++ " failed SPI validation: " ++
      "; ".intercalate (errors.map ValidationError.display))

def checkPermissions (setup : Setup) (m : PluginManifest) : Except KernelError (List Permission) :=
  labelled (fun e => plugin m.name ++ ": permission parse error: " ++ e.display)
    (Permission.parseManifestPermissions m.permissions setup.appPermissionCategories)

def validateStepTypeAlias (aliasName declaringPlugin : String) (kernelOwned : Bool) :
    Except String Unit :=
  match validateStepTypeName aliasName declaringPlugin kernelOwned with
  | .error e => .error e.display
  | .ok () =>
    if reservedStepTypeNames.contains aliasName then
      .error ("step_types alias '" ++ aliasName ++ "' is reserved by the kernel")
    else .ok ()

def checkAlias (k : Kernel) (m : PluginManifest) (localName : String) (kernelOwned : Bool)
    (entry : String × String) : Check := do
  labelled (fun e => plugin m.name ++ ": " ++ e)
    (validateStepTypeAlias entry.1 localName kernelOwned)
  if ¬ m.actions.contains entry.2 then
    validation (plugin m.name ++ ": step_types alias '" ++ entry.1 ++ "' targets action '" ++
      entry.2 ++ "' which is not defined in this plugin")
  else
    match k.registry.stepTypeAliasCandidates (PluginRegistry.stepTypeKey m.name entry.1) with
    | none => .ok ()
    | some existing =>
      validation (plugin m.name ++ ": step_types alias '" ++ entry.1 ++ "' already registered by " ++
        "plugin '" ++ existing.1 ++ "' (action '" ++ existing.2 ++ "')")

def checkAliases (k : Kernel) (m : PluginManifest) (localName : String) (kernelOwned : Bool) :
    Check :=
  firstError (checkAlias k m localName kernelOwned) m.stepTypes.entries

/-- The names that will be linker imports: native and intrinsic implementations, then aliases.
Implementations of kind `wasm` route through selector dispatch. -/
def importNames (m : PluginManifest) : List String :=
  (m.stepTypeImpls.filterMap fun decl =>
    if decl.kind = .wasm then none else some decl.stepType) ++ m.stepTypes.keys

def checkImportsFrom (k : Kernel) (m : PluginManifest) (pending : List String) :
    List String → Check
  | [] => .ok ()
  | name :: rest =>
    let key := PluginRegistry.stepTypeKey m.name name
    match (k.stepImportOwners.lookup key).filter (· ≠ m.name) with
    | some owner =>
      validation (plugin m.name ++ ": step type '" ++ name ++ "' is already implemented by plugin " ++
        "'" ++ owner ++ "' — unload '" ++ owner ++ "' first or rename the step type")
    | none =>
      if pending.contains key then
        validation (plugin m.name ++ ": step type '" ++ name ++ "' is declared more than once in " ++
          "this manifest (stepTypeImpls entries and step_types aliases share one namespace)")
      else checkImportsFrom k m (key :: pending) rest

def checkImports (k : Kernel) (m : PluginManifest) : Check :=
  checkImportsFrom k m [] (importNames m)

/-! ### Actions -/

def atAction (m : PluginManifest) (actionName : String) : String :=
  plugin m.name ++ " action '" ++ actionName ++ "': "

def checkActionFlags (m : PluginManifest) (entry : String × ManifestAction) : Check :=
  let action := entry.2
  if action.dataflow ∧ action.continuous then
    validation (atAction m entry.1 ++ "action cannot be both `dataflow: true` and `continuous: " ++
      "true` — dataflow IS the long-running form")
  else if action.dataflow ∧ ¬ action.steps.any StepDef.longRunning then
    validation (atAction m entry.1 ++ "action is `dataflow: true` but no step is marked " ++
      "`long_running: true` — a dataflow action needs at least one long-running producer for the " ++
      "scheduler to provision streams against")
  else
    match if action.dataflow then none else action.steps.find? StepDef.longRunning with
    | some step =>
      validation (atAction m entry.1 ++ "step '" ++ step.id ++ "' is marked `long_running: true` " ++
        "but the action is not `dataflow: true` — long_running is only meaningful in a " ++
        "streaming-dataflow action")
    | none =>
      if action.wallclockTimeoutMs = some 0 then
        validation (atAction m entry.1 ++ "`wallclock_timeout_ms: 0` is invalid (would trip " ++
          "ExecutionTimeout immediately). Omit the field or set `null` to fall through to the " ++
          "deployment default; mark the action `dataflow: true` for the uncapped variant")
      else .ok ()

def planAction (m : PluginManifest) (entry : String × ManifestAction) :
    Except KernelError (String × ActionRegistration) :=
  match buildPlan entry.2.toAction with
  | .error e => validation (atAction m entry.1 ++ e.display)
  | .ok plan => .ok (entry.1, ⟨entry.2, plan⟩)

def checkShapes (setup : Setup) (k : Kernel) (m : PluginManifest)
    (entry : String × ManifestAction) : Check :=
  labelled (fun e => plugin m.name ++ ": " ++ e)
    (validateStepShapes setup.describeStep entry.1 entry.2.steps k.registry m.stepTypeImpls)

def compileModule (setup : Setup) (m : PluginManifest) (entry : String × WasmModuleSpec) :
    Except KernelError (String × WasmModule) :=
  let label := plugin m.name ++ " wasm_module '" ++ entry.1 ++ "': "
  match entry.2 with
  | .path _ =>
    validation (label ++ "path-based wasm modules are not supported by this kernel; use the " ++
      "base64-inline form")
  | .inline base64 =>
    match setup.decodeBase64 base64 with
    | .error e => validation (label ++ "base64 decode failed: " ++ e)
    | .ok bytes =>
      match setup.compileWasm bytes with
      | .error e => validation (label ++ "compile failed: " ++ e)
      | .ok () => .ok (entry.1, ⟨bytes⟩)

/-! ### Invoke edges -/

/-- An alias of the manifest itself, or the nearest one on the plugin's chain. -/
def aliasResolver (k : Kernel) (m : PluginManifest) : AliasResolver := fun aliasName =>
  match m.stepTypes.get? aliasName with
  | some target => some (m.name, target)
  | none =>
    if ¬ aliasName.toList.contains stepTypeSeparator then none
    else
      (ancestorNamespaces (namespaceOf m.name)).findSome? fun ns =>
        k.registry.stepTypeAliasCandidates (qualify ns aliasName)

/-- A definition of the manifest itself, the last of its name, or a registered one. -/
def defResolver (k : Kernel) (m : PluginManifest) (stepType : String) : Option StepTypeDef :=
  match m.stepTypeDefs.reverse.find? (·.name == stepType) with
  | some definition => some definition
  | none => (k.registry.getStepTypeDef stepType).map Prod.snd

def pluginExists (k : Kernel) (m : PluginManifest) (name : String) : Bool :=
  name == m.name || k.registry.hasPlugin name

def actionExists (k : Kernel) (m : PluginManifest) (targetPlugin targetAction : String) : Bool :=
  if targetPlugin = m.name then m.actions.contains targetAction
  else (k.registry.getAction targetPlugin targetAction).isSome

def actionEdges (setup : Setup) (k : Kernel) (m : PluginManifest)
    (entry : String × ActionRegistration) : Except KernelError (List InvokeEdge) :=
  labelled (fun e => plugin m.name ++ ": " ++ e.display)
    (collectEdges setup.describeStep m.name entry.1 (aliasResolver k m) entry.2.action.steps)

def actionReferences (k : Kernel) (m : PluginManifest) (entry : String × ActionRegistration) :
    Except KernelError (List InvokeEdge) :=
  labelled (fun e => plugin m.name ++ ": " ++ e.display)
    (collectDeclaredReferences m.name entry.1 (defResolver k m) (pluginExists k m)
      (actionExists k m) entry.2.action.steps)

def collectNewEdges (setup : Setup) (k : Kernel) (m : PluginManifest)
    (planned : List (String × ActionRegistration)) : Except KernelError (List InvokeEdge) := do
  let edges ← collectAll (actionEdges setup k m) planned
  let declared ← collectAll (actionReferences k m) planned
  labelled (fun e => plugin m.name ++ ": " ++ e.display)
    (checkAcyclic k.registry.invokeEdges (edges ++ declared))
  return edges ++ declared

/-! ### Step types -/

def declaresResult (definition : StepTypeDef) : Bool :=
  match (definition.metadataSchema.bind fun schema => schema.get "properties") with
  | some (.object props) => (props.lookup "result").isSome
  | _ => false

def prepareDefs (k : Kernel) (m : PluginManifest) (localDefs : List String) :
    List StepTypeDef → Check
  | [] => .ok ()
  | d :: rest =>
    if declaresResult d then
      validation (plugin m.name ++ ": step type '" ++ d.name ++ "' metadataSchema declares the " ++
        "reserved key 'result' — that is the value slot " ++
        "(`\x7b\x7b$steps.<id>.result\x7d\x7d`), not a metadata sidecar")
    else
      match k.registry.getStepTypeDef (PluginRegistry.stepTypeKey m.name d.name) with
      | some existing =>
        validation (plugin m.name ++ ": step_type_defs entry '" ++ d.name ++ "' already registered " ++
          "by plugin '" ++ existing.1 ++ "'")
      | none =>
        if localDefs.contains d.name then
          validation (plugin m.name ++ ": step_type_defs entry '" ++ d.name ++ "' is declared " ++
            "twice in this manifest")
        else prepareDefs k m (d.name :: localDefs) rest

def implEntry (m : PluginManifest) (subject : String) : String :=
  plugin m.name ++ ": step_type_impls entry for '" ++ subject ++ "' "

/-- Supplying the body of a step type another plugin defines takes the manifest's permission and
the embedder's trust. -/
def checkStepTypeImplClaim (setup : Setup) (k : Kernel) (m : PluginManifest)
    (decl : StepTypeImpl) (definesLocally : Bool) (perms : List Permission) : Check :=
  if definesLocally then .ok ()
  else
    let slot :=
      match decl.matches with
      | some s => decl.stepType ++ ":" ++ s
      | none => decl.stepType
    let owner :=
      ((k.registry.getStepTypeDef (PluginRegistry.stepTypeKey m.name decl.stepType)).map
        Prod.fst).getD "another plugin"
    if ¬ perms.contains (.provideStepType decl.stepType decl.matches) then
      validation (implEntry m slot ++ "claims a step type defined by '" ++ owner ++ "', but the " ++
        "manifest does not declare the matching permission. Add \"provide:step_type:" ++ slot ++
        "\" to `permissions`. Supplying an implementation means every plugin's steps of this type " ++
        "execute inside your code, so the claim has to be stated in the manifest an operator " ++
        "reviews")
    else if ¬ setup.trustedStepTypeProviders.contains m.name then
      validation (implEntry m slot ++ "declares \"provide:step_type:" ++ slot ++ "\" but '" ++
        m.name ++ "' is not in the embedder's `trusted_step_type_providers`. Supplying the " ++
        "implementation behind a step type defined by '" ++ owner ++ "' means every plugin's steps " ++
        "of this type run inside this plugin's code; add it to " ++
        "KernelConfig::trusted_step_type_providers to authorise that")
    else .ok ()

def requireImplRef (m : PluginManifest) (decl : StepTypeImpl) (kind : String) :
    Except KernelError String :=
  match decl.implRef with
  | none =>
    validation (implEntry m decl.stepType ++ "has kind: \"" ++ kind ++ "\" but no `implRef` field")
  | some implRef =>
    if decl.wasmModule.isSome then
      validation (implEntry m decl.stepType ++ "has kind: \"" ++ kind ++ "\" but also sets " ++
        "`wasmModule` — fields are mutually exclusive")
    else if decl.matches.isSome then
      validation (implEntry m decl.stepType ++ "has kind: \"" ++ kind ++ "\" with `matches` set; " ++
        kind ++ " impls are selector-less (dispatch goes through the wasmtime linker by step type " ++
        "name, which has no per-selector routing)")
    else .ok implRef

/-- Whose body a native reference names, for the errors of a binding that is not its owner's. -/
def bodyOwner (ns localName : String) (owner : Option String) : String :=
  if owner = some localName then
    "plugin '" ++ localName ++ "' as shipped by the embedder. This plugin is also named '" ++
      localName ++ "', but it is registered in namespace '" ++ ns ++ "' rather than the root " ++
      "namespace, so it is not the party that shipped the body and does not inherit ownership of it"
  else
    match owner with
    | some o => "plugin '" ++ o ++ "'"
    | none => "another plugin (the implRef is not in <owner>.<plugin>.<step> form, so no owner can " ++
        "be derived from it)"

def checkNativeImplBinding (setup : Setup) (m : PluginManifest) (stepType implRef : String)
    (perms : List Permission) : Check :=
  let ns := namespaceOf m.name
  let localName := localNameOf m.name
  let owner := implRefOwner implRef
  if owner = some localName ∧ ns = "" then .ok ()
  else if ¬ perms.contains (.bindNativeImpl implRef) then
    validation (implEntry m stepType ++ "binds native implRef '" ++ implRef ++ "', which belongs " ++
      "to " ++ bodyOwner ns localName owner ++ ", but the manifest does not declare the matching " ++
      "permission. Add \"bind:native_impl:" ++ implRef ++ "\" to `permissions`. Binding another " ++
      "plugin's native body means running privileged code you did not ship, so the claim has to be " ++
      "stated in the manifest an operator reviews")
  else if ¬ setup.nativeImplBindings.contains (m.name, implRef) then
    validation (implEntry m stepType ++ "declares \"bind:native_impl:" ++ implRef ++ "\" but the " ++
      "embedder has not authorised that binding. The body belongs to " ++
      bodyOwner ns localName owner ++ "; add the pair via " ++
      "KernelConfig::allowing_native_impl_binding(\"" ++ m.name ++ "\", \"" ++ implRef ++ "\") to " ++
      "permit it")
  else .ok ()

def selectorText (decl : StepTypeImpl) : String :=
  match decl.matches with
  | some s => " (matches: '" ++ s ++ "')"
  | none => ""

def prepareWasmImpl (k : Kernel) (m : PluginManifest) (decl : StepTypeImpl) :
    Except KernelError PreparedStepImpl :=
  match decl.wasmModule with
  | none =>
    validation (implEntry m decl.stepType ++ "has kind: \"wasm\" but no `wasmModule` field")
  | some wasmModule =>
    if decl.implRef.isSome then
      validation (implEntry m decl.stepType ++ "has kind: \"wasm\" but also sets `implRef` — " ++
        "fields are mutually exclusive")
    else if ¬ m.wasmModules.contains wasmModule then
      validation (implEntry m decl.stepType ++ "references wasm_module '" ++ wasmModule ++ "' which " ++
        "isn't declared in this manifest's `wasm_modules`")
    else
      match k.registry.stepTypeImplOwner (PluginRegistry.stepTypeKey m.name decl.stepType)
          decl.matches with
      | some existing =>
        validation (plugin m.name ++ ": step_type_impls entry for '" ++ decl.stepType ++ "'" ++
          selectorText decl ++ " already registered by plugin '" ++ existing.plugin ++
          "' (wasm_module '" ++ existing.wasmModule ++ "')")
      | none => .ok (.wasm decl.stepType decl.matches wasmModule)

def prepareNativeImpl (setup : Setup) (m : PluginManifest) (decl : StepTypeImpl)
    (perms : List Permission) : Except KernelError PreparedStepImpl := do
  let implRef ← requireImplRef m decl "native"
  checkNativeImplBinding setup m decl.stepType implRef perms
  if setup.nativeStepImpls.contains implRef then
    return .native decl.stepType implRef
  else
    validation (implEntry m decl.stepType ++ "references native implRef '" ++ implRef ++ "' which " ++
      "no plugin crate submitted via inventory::submit!. Check that the providing crate is compiled " ++
      "into the host binary and uses the same name string")

def prepareIntrinsicImpl (setup : Setup) (m : PluginManifest) (decl : StepTypeImpl) :
    Except KernelError PreparedStepImpl := do
  let implRef ← requireImplRef m decl "intrinsic"
  if setup.intrinsicStepImpls.contains implRef then
    return .intrinsic decl.stepType implRef
  else
    validation (implEntry m decl.stepType ++ "references intrinsic implRef '" ++ implRef ++ "' " ++
      "which the engine did not submit via inventory::submit!. Intrinsic bodies are kernel-internal " ++
      "— only gwead.intrinsics.* names exist")

def prepareImpl (setup : Setup) (k : Kernel) (m : PluginManifest) (perms : List Permission)
    (decl : StepTypeImpl) : Except KernelError PreparedStepImpl :=
  match decl.kind with
  | .wasm => prepareWasmImpl k m decl
  | .native => prepareNativeImpl setup m decl perms
  | .intrinsic => prepareIntrinsicImpl setup m decl

/-- Every implementation has a definition, may claim its slot, and claims it once. -/
def prepareImpls (setup : Setup) (k : Kernel) (m : PluginManifest) (perms : List Permission)
    (localSlots : List (String × Option String)) :
    List StepTypeImpl → Except KernelError (List PreparedStepImpl)
  | [] => .ok []
  | decl :: rest => do
    let definesLocally := (m.stepTypeDefs.map StepTypeDef.name).contains decl.stepType
    if ¬ definesLocally ∧ ¬ (k.registry.getStepTypeDef
        (PluginRegistry.stepTypeKey m.name decl.stepType)).isSome then
      validation (implEntry m decl.stepType ++ "has no StepTypeDef — every step type must declare " ++
        "a contract. Add a `stepTypeDefs` entry named '" ++ decl.stepType ++ "' to this manifest " ++
        "(or reference an intrinsic / already-registered def).")
    else
      checkStepTypeImplClaim setup k m decl definesLocally perms
      if localSlots.contains (decl.stepType, decl.matches) then
        validation (plugin m.name ++ ": step_type_impls entry for '" ++ decl.stepType ++ "'" ++
          selectorText decl ++ " is declared twice in this manifest")
      else
        let entry ← prepareImpl setup k m perms decl
        let entries ←
          prepareImpls setup k m perms ((decl.stepType, decl.matches) :: localSlots) rest
        return entry :: entries

def prepareStepTypes (setup : Setup) (k : Kernel) (m : PluginManifest) (perms : List Permission) :
    Except KernelError (List PreparedStepImpl) := do
  prepareDefs k m [] m.stepTypeDefs
  prepareImpls setup k m perms [] m.stepTypeImpls

/-- Everything of a registration that can fail. -/
def prepare (setup : Setup) (k : Kernel) (ns : String) (manifest : PluginManifest)
    (kernelOwned : Bool) : Except KernelError Prepared := do
  checkNamespace ns
  checkFormatVersion manifest
  validateManifestNames manifest kernelOwned
  checkSecrets ns manifest
  let m := { manifest with name := qualify ns manifest.name }
  checkNotRegistered k m
  checkContracts k ns m
  let perms ← checkPermissions setup m
  checkAliases k m manifest.name kernelOwned
  checkImports k m
  firstError (checkActionFlags m) m.actions.entries
  let planned ← traverse (planAction m) m.actions.entries
  firstError (checkShapes setup k m) m.actions.entries
  let compiledWasm ← traverse (compileModule setup m) m.wasmModules.entries
  let newEdges ← collectNewEdges setup k m planned
  let impls ← prepareStepTypes setup k m perms
  return ⟨m, perms, planned, compiledWasm, newEdges, m.stepTypeDefs, impls⟩

end Registration

end Gwead
