import Gwead.Lib.Transition
import Gwead.Registration

/-!
# The kernel's manifests

Committing a prepared plugin, and the calls that load, unload and reload manifests.
-/

namespace Gwead

open Identity

namespace Kernel

def new : Kernel := ⟨.empty, [], [], [], 1, [], []⟩

/-! ### Commit -/

/-- Apply a registry commit to each entry of a list. -/
def withEach {α : Type} (f : PluginRegistry → α → PluginRegistry) (entries : List α)
    (k : Kernel) : Kernel :=
  { k with registry := entries.foldl f k.registry }

def importName (key : String) : String := "step_" ++ key

/-- Own a step type key and run `body` for it. -/
def claimImport (plugin : String) (k : Kernel) (claim : String × LinkedBody) : Kernel :=
  { k with
    stepImportOwners := AssocMap.put claim.1 plugin k.stepImportOwners
    additionalImports := AssocMap.put (importName claim.1) claim.2 k.additionalImports }

def commitImpl (plugin : String) (k : Kernel) : PreparedStepImpl → Kernel
  | .wasm stepType «matches» wasmModule =>
    { k with registry := k.registry.commitStepTypeImpl plugin stepType «matches» wasmModule }
  | .native stepType implRef =>
    claimImport plugin k (PluginRegistry.stepTypeKey plugin stepType, .plugin implRef)
  | .intrinsic stepType implRef =>
    claimImport plugin k (PluginRegistry.stepTypeKey plugin stepType, .intrinsic implRef)

/-- The contract each role binds to: the nearest defined one on the chain, else the role in the
namespace itself; a key once. -/
def roleKeysFor (spi : SpiRegistry) (ns : String) (roles : List String) : List String :=
  (roles.map fun role => ((spi.resolve ns role).map Prod.fst).getD (qualify ns role)).foldl
    pushUnique []

def commitAlias (plugin : String) (k : Kernel) (entry : String × String) : Kernel :=
  claimImport plugin
    { k with registry := k.registry.commitStepTypeAlias entry.1 plugin entry.2 }
    (PluginRegistry.stepTypeKey plugin entry.1, .aliasDispatch)

/-- The events of a manifest's actions, with the action that subscribes. -/
def subscriptions (m : PluginManifest) : List (String × String) :=
  m.actions.entries.flatMap fun e => e.2.subscribesTo.map fun event => (event, e.1)

/-- The infallible half of a registration. -/
def commit (k : Kernel) (ns : String) (p : Prepared) : Kernel :=
  let plugin := p.manifest.name
  let k := k.withEach (fun r e => r.registerAction plugin e.1 e.2) p.planned
  let k := k.withEach (fun r e => r.registerPluginWasmModule plugin e.1 e.2) p.compiledWasm
  let k := k.withEach (fun r d => r.commitStepTypeDef plugin d) p.defs
  let k := p.impls.foldl (commitImpl plugin) k
  let k := { k with registry := k.registry.extendInvokeEdges p.newEdges }
  let k := { k with registry := k.registry.registerManifest p.manifest }
  let k := k.withEach (fun r key => r.registerRole key plugin)
    (roleKeysFor k.spiRegistry ns p.manifest.roles)
  let k := { k with registry := k.registry.setPermissions plugin p.permissions }
  let k := p.manifest.stepTypes.entries.foldl (commitAlias plugin) k
  k.withEach (fun r e => r.registerSubscription e.1 plugin e.2) (subscriptions p.manifest)

/-- Register a plugin into a namespace.  The manifest's name is still its local one. -/
def registerPluginInAs (setup : Setup) (k : Kernel) (ns : String) (manifest : PluginManifest)
    (kernelOwned : Bool) : Except KernelError Kernel :=
  match Registration.prepare setup k ns manifest kernelOwned with
  | .error e => .error e
  | .ok p => .ok (k.commit ns p)

/-! ### Loading -/

inductive ClassifiedManifest where
  | spiDef (role : String)
  | plugin (manifest : PluginManifest)

def readPlugin (setup : Setup) (value : Value) : Except KernelError ClassifiedManifest := do
  Registration.labelled id (setup.validatePluginManifest value)
  let manifest ← Registration.labelled (fun e => "manifest fails PluginManifest parse: " ++ e)
    (setup.readManifest value)
  return .plugin manifest

def readSpiRole (setup : Setup) (value : Value) : Except KernelError ClassifiedManifest := do
  Registration.labelled id (setup.validateSpiDefinition value)
  match (value.get "name").bind Value.asStr with
  | none => Registration.validation "SPI definition manifest missing top-level `name` field"
  | some role => return .spiDef role

/-- A manifest with `actions` none of which has steps is an SPI definition; one without
`actions` must contribute some extension point. -/
def classifyManifest (setup : Setup) (json : String) : Except KernelError ClassifiedManifest :=
  match setup.parseJson json with
  | .error e => Registration.validation ("manifest is not valid JSON: " ++ e)
  | .ok value =>
    match value.get "actions" with
    | some (.object actions) =>
      if actions.any fun e => (e.2.get "steps").isSome then readPlugin setup value
      else readSpiRole setup value
    | _ =>
      if ["stepTypeDefs", "wasmModules", "stepTypeImpls"].any fun key => (value.get key).isSome then
        readPlugin setup value
      else
        Registration.validation ("manifest is not a recognized shape: no top-level `actions`, " ++
          "and no `stepTypeDefs`/`wasmModules`")

/-- Register whatever a text classifies as, with the record that describes it. -/
def registerClassifiedManifest (setup : Setup) (k : Kernel) (json ns : String)
    (kernelOwned : Bool) : Except KernelError (Kernel × ManifestRecord) :=
  match classifyManifest setup json with
  | .error e => .error e
  | .ok (.spiDef role) =>
    match Registration.checkNamespace ns with
    | .error e => .error e
    | .ok () =>
      let key := qualify ns role
      match k.spiRegistry.register setup.readSpi key json with
      | .error e => .error e
      | .ok spi => .ok ({ k with spiRegistry := spi }, ⟨key, ns, .spiDef json, false⟩)
  | .ok (.plugin manifest) =>
    match registerPluginInAs setup k ns manifest kernelOwned with
    | .error e => .error e
    | .ok k' => .ok (k', ⟨qualify ns manifest.name, ns, .plugin manifest, false⟩)

/-- The users of a role, a set that is kept as the list of its members. -/
def roleUsers (k : Kernel) (key : String) : List ManifestHandle :=
  (k.spiRoleUsers.lookup key).getD []

def addRoleUser (handle : ManifestHandle) (users : List (String × List ManifestHandle))
    (key : String) : List (String × List ManifestHandle) :=
  let bucket := (users.lookup key).getD []
  AssocMap.put key (if bucket.contains handle then bucket else bucket ++ [handle]) users

def trackManifest (k : Kernel) (handle : ManifestHandle) (record : ManifestRecord) : Kernel :=
  let users :=
    match record.payload with
    | .plugin manifest =>
      (roleKeysFor k.spiRegistry record.namespace manifest.roles).foldl (addRoleUser handle)
        k.spiRoleUsers
    | .spiDef _ => k.spiRoleUsers
  { k with
    spiRoleUsers := users
    loadedManifests := AssocMap.put handle record k.loadedManifests }

/-- Remove a handle from every bucket: the keys it was put under may resolve elsewhere now. -/
def untrackManifest (k : Kernel) (handle : ManifestHandle) : Kernel :=
  { k with spiRoleUsers := PluginRegistry.retainBuckets (fun h => h != handle) k.spiRoleUsers }

/-- `saturating_add(1)` on a `u64`. -/
def nextId (id : Nat) : Nat := min (id + 1) (2 ^ 64 - 1)

def loadManifest (setup : Setup) (k : Kernel) (json ns : String) (immutable : Bool) :
    Except KernelError (Kernel × ManifestHandle) :=
  match registerClassifiedManifest setup k json ns immutable with
  | .error e => .error e
  | .ok (k', record) =>
    let handle := k'.nextManifestId
    .ok (trackManifest { k' with nextManifestId := nextId k'.nextManifestId } handle
      { record with immutable := immutable }, handle)

/-! ### Unloading -/

def isImmutable (k : Kernel) (handle : ManifestHandle) : Bool :=
  ((k.loadedManifests.lookup handle).map ManifestRecord.immutable).getD false

def handleText (handle : ManifestHandle) : String := "ManifestHandle(" ++ toString handle ++ ")"

def forget (k : Kernel) (handle : ManifestHandle) : Kernel :=
  { k with loadedManifests := AssocMap.without handle k.loadedManifests }

def releaseImport (plugin : String) (k : Kernel) (name : String) : Kernel :=
  let key := PluginRegistry.stepTypeKey plugin name
  if k.stepImportOwners.lookup key = some plugin then
    { k with
      stepImportOwners := AssocMap.without key k.stepImportOwners
      additionalImports := AssocMap.without (importName key) k.additionalImports }
  else k

/-- Release the imports a manifest registered, if the plugin still owns them. -/
def releaseStepImports (k : Kernel) (plugin : String) (manifest : PluginManifest) : Kernel :=
  (Registration.importNames manifest).foldl (releaseImport plugin) k

def drift (kind identifier table : String) : KernelError :=
  .runtime ("Lifecycle index drift: " ++ kind ++ " '" ++ identifier ++ "' was tracked but missing " ++
    "from " ++ table ++ " registry")

/-- The registry-side half of taking a manifest out; none when the registry does not have it. -/
def scrub (k : Kernel) (record : ManifestRecord) : Except KernelError Kernel :=
  match record.payload with
  | .spiDef _ =>
    if (k.spiRegistry.get record.identifier).isSome then
      .ok { k with spiRegistry := k.spiRegistry.unregister record.identifier }
    else .error (drift "SPI def" record.identifier "SPI")
  | .plugin manifest =>
    match k.registry.unregisterPlugin record.identifier with
    | none => .error (drift "plugin" record.identifier "plugin")
    | some registry =>
      .ok (releaseStepImports { k with registry := registry } record.identifier manifest)

/-- The plugins that were bound to an SPI definition when they were loaded. -/
def dependents (k : Kernel) (record : ManifestRecord) : List ManifestHandle :=
  match record.payload with
  | .spiDef _ => k.roleUsers record.identifier
  | .plugin _ => []

def unloadManifest (k : Kernel) (handle : ManifestHandle) : Except KernelError Unit × Kernel :=
  if k.isImmutable handle then
    (.error (.validation (handleText handle ++ " is kernel-immutable (intrinsic step types or " ++
      "other boot-required manifest); cannot unload")), k)
  else
    match k.loadedManifests.lookup handle with
    | none =>
      (.error (.notFound (handleText handle ++ " not loaded (already unloaded, or never registered " ++
        "via load_manifest)")), k)
    | some record =>
      if ¬ (k.dependents record).isEmpty then
        let names := (k.dependents record).filterMap fun h =>
          ((k.forget handle).loadedManifests.lookup h).map ManifestRecord.identifier
        (.error (.validation ("Cannot unload SPI def '" ++ record.identifier ++ "' — still claimed " ++
          "by plugin(s): " ++ ", ".intercalate names)), k)
      else
        match (k.forget handle).scrub record with
        | .error e => (.error e, k.forget handle)
        | .ok k' => (.ok (), k'.untrackManifest handle)

/-! ### Reloading -/

/-- Put the old manifest back after its replacement was refused. -/
def rollback (setup : Setup) (k : Kernel) (record : ManifestRecord) :
    Except KernelError Kernel :=
  match record.payload with
  | .spiDef json =>
    match k.spiRegistry.register setup.readSpi record.identifier json with
    | .error e => .error e
    | .ok spi => .ok { k with spiRegistry := spi }
  | .plugin manifest => registerPluginInAs setup k record.namespace manifest false

/-- Register the replacement of a manifest that has been taken out, or put the old one back. -/
def replaceManifest (setup : Setup) (k : Kernel) (handle : ManifestHandle)
    (old : ManifestRecord) (newJson : String) : Except KernelError Unit × Kernel :=
  match registerClassifiedManifest setup k newJson old.namespace false with
  | .ok (k', record) => (.ok (), k'.trackManifest handle record)
  | .error registerErr =>
    match rollback setup k old with
    | .ok k' => (.error registerErr, k'.trackManifest handle old)
    | .error rollbackErr =>
      (.error (.runtime ("reload failed and rollback also failed — kernel state is inconsistent. " ++
        "original error: " ++ registerErr.display ++ ". rollback error: " ++ rollbackErr.display)),
        k)

def reloadManifest (setup : Setup) (k : Kernel) (handle : ManifestHandle) (newJson : String) :
    Except KernelError Unit × Kernel :=
  if k.isImmutable handle then
    (.error (.validation (handleText handle ++ " is kernel-immutable (intrinsic step types or " ++
      "other boot-required manifest); cannot reload")), k)
  else
    match k.loadedManifests.lookup handle with
    | none =>
      (.error (.notFound (handleText handle ++ " not loaded (cannot reload an unknown handle)")), k)
    | some old =>
      match (k.forget handle).scrub old with
      | .error e =>
        (.error e, { k with
          loadedManifests := AssocMap.put handle old (k.forget handle).loadedManifests })
      | .ok k' => replaceManifest setup (k'.untrackManifest handle) handle old newJson

/-! ### Calls -/

def registerSpiFromJson (setup : Setup) (k : Kernel) (role json : String) :
    Except KernelError Kernel := do
  Registration.labelled NameError.display (validateName .role role)
  let value ← Registration.labelled (fun e => "manifest is not valid JSON: " ++ e)
    (setup.parseJson json)
  Registration.labelled id (setup.validateSpiDefinition value)
  let declared := ((value.get "name").bind Value.asStr).getD role
  if declared ≠ role then
    Registration.validation ("SPI definition declares name '" ++ declared ++ "' but was registered " ++
      "under role '" ++ role ++ "'. The two must agree — the role is the key that 'invoke:role:' " ++
      "grants name, and the document is what an operator reads.")
  else
    match k.spiRegistry.register setup.readSpi role json with
    | .error e => .error e
    | .ok spi => return { k with spiRegistry := spi }

/-- The embedder's calls that change what is registered. -/
inductive Call where
  | registerPlugin (manifest : PluginManifest)
  | registerSpi (role json : String)
  | load (ns json : String)
  | unload (handle : ManifestHandle)
  | reload (handle : ManifestHandle) (json : String)

/-- The state after a fallible call that changes nothing when it fails. -/
def orUnchanged (k : Kernel) {α : Type} (next : α → Kernel) : Except KernelError α → Kernel
  | .ok a => next a
  | .error _ => k

/-- The state after a call, whether it succeeded or not. -/
def after (setup : Setup) (k : Kernel) : Call → Kernel
  | .registerPlugin manifest => k.orUnchanged id (registerPluginInAs setup k "" manifest false)
  | .registerSpi role json => k.orUnchanged id (registerSpiFromJson setup k role json)
  | .load ns json => k.orUnchanged Prod.fst (loadManifest setup k json ns false)
  | .unload handle => (k.unloadManifest handle).2
  | .reload handle json => (k.reloadManifest setup handle json).2

/-- The plugin a record is of, if it is of one. -/
def recordedPlugin (record : ManifestRecord) : List String :=
  match record.payload with
  | .plugin _ => [record.identifier]
  | .spiDef _ => []

/-- The plugin that putting a replacement in place registers: the new one, or the old one again. -/
def replacementRegisters (setup : Setup) (k : Kernel) (old : ManifestRecord) (newJson : String) :
    List String :=
  match registerClassifiedManifest setup k newJson old.namespace false with
  | .ok (_, record) => recordedPlugin record
  | .error _ =>
    match rollback setup k old with
    | .ok _ => recordedPlugin old
    | .error _ => []

/-- The plugin a call registers, if it registers one. -/
def registers (setup : Setup) (k : Kernel) : Call → List String
  | .registerPlugin manifest =>
    match registerPluginInAs setup k "" manifest false with
    | .ok _ => [manifest.name]
    | .error _ => []
  | .registerSpi _ _ => []
  | .load ns json =>
    match registerClassifiedManifest setup k json ns false with
    | .ok (_, record) => recordedPlugin record
    | .error _ => []
  | .unload _ => []
  | .reload handle newJson =>
    if k.isImmutable handle then []
    else
      match k.loadedManifests.lookup handle with
      | none => []
      | some old =>
        match (k.forget handle).scrub old with
        | .ok k' => replacementRegisters setup (k'.untrackManifest handle) old newJson
        | .error _ => []

/-- Boot loads the intrinsic step types as the immutable manifest of a fresh kernel. -/
def boot (setup : Setup) (intrinsics : String) : Except KernelError Kernel :=
  match loadManifest setup .new intrinsics "" true with
  | .ok (k, _) => .ok k
  | .error e => .error (.boot ("intrinsics manifest: " ++ e.display))

def CallStep (setup : Setup) (k : Kernel) (c : Call) (k' : Kernel) : Prop := k' = k.after setup c

/-- A kernel that some sequence of calls leads to after boot. -/
def Reachable (setup : Setup) (k : Kernel) : Prop :=
  ∃ intrinsics k₀ calls, boot setup intrinsics = .ok k₀ ∧
    Transition.Run (CallStep setup) k₀ calls k

/-- The state after calls, one after the other. -/
def afterAll (setup : Setup) (k : Kernel) (calls : List Call) : Kernel :=
  calls.foldl (after setup) k

theorem afterAll_concat (setup : Setup) (k : Kernel) (calls : List Call) (c : Call) :
    k.afterAll setup (calls ++ [c]) = (k.afterAll setup calls).after setup c := by
  simp [afterAll]

theorem afterAll_append (setup : Setup) (k : Kernel) (calls calls' : List Call) :
    k.afterAll setup (calls ++ calls') = (k.afterAll setup calls).afterAll setup calls' :=
  List.foldl_append

theorem run_afterAll (setup : Setup) (k : Kernel) (calls : List Call) :
    Transition.Run (CallStep setup) k calls (k.afterAll setup calls) := by
  induction calls using List.reverseRecOn with
  | nil => exact .nil
  | append_singleton calls c ih => exact .snoc ih (afterAll_concat setup k calls c)

theorem reachable_afterAll {setup : Setup} {k : Kernel} {intrinsics : String}
    (hboot : boot setup intrinsics = .ok k) (calls : List Call) :
    (k.afterAll setup calls).Reachable setup :=
  ⟨intrinsics, k, calls, hboot, run_afterAll setup k calls⟩

end Kernel

end Gwead
