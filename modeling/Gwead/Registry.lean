import Gwead.Manifest
import Gwead.Permissions

/-!
# The plugin registry

Action plans, role bindings and the indices built from each manifest.  Committing a plugin
overwrites slots; unregistering it scrubs every table by owner.
-/

namespace Gwead

open Identity

/-- A plugin and one of its actions. -/
abbrev NodeRef := String × String

structure InvokeEdge where
  «from» : NodeRef
  «to» : NodeRef
  deriving DecidableEq

structure ActionRegistration where
  action : ManifestAction
  plan : DagPlan
  deriving DecidableEq

/-- A compiled module, known by the bytes it was compiled from. -/
structure WasmModule where
  bytes : List UInt8
  deriving DecidableEq

structure StepTypeImplEntry where
  plugin : String
  wasmModule : String
  deriving DecidableEq

structure PluginRegistry where
  modules : List (NodeRef × ActionRegistration)
  roles : List (String × List String)
  manifests : List (String × PluginManifest)
  invokeEdges : List InvokeEdge
  subscriptions : List (String × List NodeRef)
  stepTypeAliases : List (String × NodeRef)
  permissions : List (String × List Permission)
  pluginWasmModules : List ((String × String) × WasmModule)
  stepTypeDefs : List (String × (String × StepTypeDef))
  stepTypeImpls : List ((String × Option String) × StepTypeImplEntry)

namespace PluginRegistry

def empty : PluginRegistry := ⟨[], [], [], [], [], [], [], [], [], []⟩

/-- A dotted name belongs to the namespace of the plugin that writes it; a bare one is the
kernel's. -/
def stepTypeKey (plugin written : String) : String :=
  if written.toList.contains stepTypeSeparator then qualify (namespaceOf plugin) written
  else written

/-! ### Lookups -/

def stepTypeImplOwner (r : PluginRegistry) (stepType : String) («matches» : Option String) :
    Option StepTypeImplEntry :=
  r.stepTypeImpls.lookup (stepType, «matches»)

/-- The selectors a step type has implementations for. -/
def stepTypeImplMatches (r : PluginRegistry) (stepType : String) : List String :=
  r.stepTypeImpls.filterMap fun e => if e.1.1 = stepType then e.1.2 else none

def getStepTypeDef (r : PluginRegistry) (key : String) : Option (String × StepTypeDef) :=
  r.stepTypeDefs.lookup key

def stepTypeAliasCandidates (r : PluginRegistry) (aliasName : String) : Option NodeRef :=
  r.stepTypeAliases.lookup aliasName

def getPluginWasmModule (r : PluginRegistry) (plugin moduleName : String) : Option WasmModule :=
  r.pluginWasmModules.lookup (plugin, moduleName)

def subscribersFor (r : PluginRegistry) (eventType : String) : List NodeRef :=
  (r.subscriptions.lookup eventType).getD []

def getAction (r : PluginRegistry) (plugin action : String) : Option ActionRegistration :=
  r.modules.lookup (plugin, action)

def pluginsForRole (r : PluginRegistry) (role : String) : List String :=
  (r.roles.lookup role).getD []

def getManifest (r : PluginRegistry) (plugin : String) : Option PluginManifest :=
  r.manifests.lookup plugin

def hasPlugin (r : PluginRegistry) (plugin : String) : Bool := (r.getManifest plugin).isSome

def permissionsFor (r : PluginRegistry) (plugin : String) : List Permission :=
  (r.permissions.lookup plugin).getD []

/-! ### Commits -/

def registerAction (r : PluginRegistry) (plugin action : String) (entry : ActionRegistration) :
    PluginRegistry :=
  { r with modules := AssocMap.put (plugin, action) entry r.modules }

def registerPluginWasmModule (r : PluginRegistry) (plugin moduleName : String)
    (compiled : WasmModule) : PluginRegistry :=
  { r with pluginWasmModules := AssocMap.put (plugin, moduleName) compiled r.pluginWasmModules }

def commitStepTypeDef (r : PluginRegistry) (plugin : String) (definition : StepTypeDef) :
    PluginRegistry :=
  { r with stepTypeDefs :=
      AssocMap.put (stepTypeKey plugin definition.name) (plugin, definition) r.stepTypeDefs }

def commitStepTypeImpl (r : PluginRegistry) (plugin stepType : String)
    («matches» : Option String) (wasmModule : String) : PluginRegistry :=
  { r with stepTypeImpls :=
      AssocMap.put (stepTypeKey plugin stepType, «matches») ⟨plugin, wasmModule⟩ r.stepTypeImpls }

def commitStepTypeAlias (r : PluginRegistry) (aliasName plugin action : String) : PluginRegistry :=
  { r with stepTypeAliases :=
      AssocMap.put (stepTypeKey plugin aliasName) (plugin, action) r.stepTypeAliases }

def extendInvokeEdges (r : PluginRegistry) (edges : List InvokeEdge) : PluginRegistry :=
  { r with invokeEdges := r.invokeEdges ++ edges }

def registerManifest (r : PluginRegistry) (manifest : PluginManifest) : PluginRegistry :=
  { r with manifests := AssocMap.put manifest.name manifest r.manifests }

def registerRole (r : PluginRegistry) (role plugin : String) : PluginRegistry :=
  { r with roles := AssocMap.put role (r.pluginsForRole role ++ [plugin]) r.roles }

def setPermissions (r : PluginRegistry) (plugin : String) (perms : List Permission) :
    PluginRegistry :=
  { r with permissions := AssocMap.put plugin perms r.permissions }

/-- A pair is subscribed to an event once. -/
def registerSubscription (r : PluginRegistry) (eventType plugin action : String) :
    PluginRegistry :=
  let bucket := r.subscribersFor eventType
  let bucket' := if bucket.contains (plugin, action) then bucket else bucket ++ [(plugin, action)]
  { r with subscriptions := AssocMap.put eventType bucket' r.subscriptions }

/-- Empty the buckets of a multimap of what does not satisfy `keep`, and drop the empty ones. -/
def retainBuckets {α : Type} (keep : α → Bool) (buckets : List (String × List α)) :
    List (String × List α) :=
  (buckets.map fun e => (e.1, e.2.filter keep)).filter fun e => !e.2.isEmpty

/-- Scrub a plugin from every table.  Edges go by where they start: an edge into the plugin
stays, to be resolved again when the name comes back. -/
def unregisterPlugin (r : PluginRegistry) (plugin : String) : Option PluginRegistry :=
  if r.hasPlugin plugin then
    some
      { modules := r.modules.filter fun e => e.1.1 != plugin
        manifests := AssocMap.without plugin r.manifests
        permissions := AssocMap.without plugin r.permissions
        pluginWasmModules := r.pluginWasmModules.filter fun e => e.1.1 != plugin
        stepTypeAliases := r.stepTypeAliases.filter fun e => e.2.1 != plugin
        stepTypeDefs := r.stepTypeDefs.filter fun e => e.2.1 != plugin
        stepTypeImpls := r.stepTypeImpls.filter fun e => e.2.plugin != plugin
        roles := retainBuckets (fun p => p != plugin) r.roles
        subscriptions := retainBuckets (fun p => p.1 != plugin) r.subscriptions
        invokeEdges := r.invokeEdges.filter fun e => e.from.1 != plugin }
  else none

end PluginRegistry

end Gwead
