import Gwead.Registry

/-!
# Step types of an execution

Which step types a plugin's steps may run, decided once when an execution is set up.
-/

namespace Gwead

open Identity

/-- The plugin that ships a step type's body, and the secrets it declares. -/
structure BodyOwner where
  identity : String
  declaredKeys : List String
  overridableKeys : List String

/-- Written names to registry keys, and to the foreign owners of their bodies. -/
structure StepTypeAccess where
  allowed : List (String × String)
  bodyOwners : List (String × BodyOwner)

def PluginManifest.declaredSecretKeys (m : PluginManifest) : List String :=
  m.usesSecrets.map SecretDecl.key

def PluginManifest.overridableSecretKeys (m : PluginManifest) : List String :=
  (m.usesSecrets.filter SecretDecl.overridable).map SecretDecl.key

namespace PluginRegistry

variable (r : PluginRegistry) (plugin : String)

def addBodyOwner (owner written : String) (owners : List (String × BodyOwner)) :
    List (String × BodyOwner) :=
  if owner = plugin then owners
  else
    match r.getManifest owner with
    | some m =>
      AssocMap.put written ⟨owner, m.declaredSecretKeys, m.overridableSecretKeys⟩ owners
    | none => owners

/-- A definition of this level, if its name is not taken by a nearer one. -/
def admitDef (ns : String) (access : StepTypeAccess) (e : String × (String × StepTypeDef)) :
    StepTypeAccess :=
  let (key, owner, definition) := e
  if namespaceOf owner ≠ ns ∨ (access.allowed.lookup definition.name).isSome then access
  else if owner = plugin ∨ definition.freelyUsable ∨
      (checkStepType (r.permissionsFor plugin) definition.name).isGranted then
    { allowed := AssocMap.put definition.name key access.allowed
      bodyOwners := r.addBodyOwner plugin owner definition.name access.bodyOwners }
  else access

/-- An alias of this level; no alias is freely usable. -/
def admitAlias (ns : String) (access : StepTypeAccess) (e : String × NodeRef) : StepTypeAccess :=
  let (key, owner, _) := e
  let written := localNameOf key
  if namespaceOf owner ≠ ns ∨ (access.allowed.lookup written).isSome then access
  else if owner = plugin ∨ (checkStepType (r.permissionsFor plugin) written).isGranted then
    { access with allowed := AssocMap.put written key access.allowed }
  else access

/-- The nearest namespace first, and in each the definitions before the aliases. -/
def stepTypeAccessFor : StepTypeAccess :=
  (ancestorNamespaces (namespaceOf plugin)).foldl
    (fun access ns =>
      r.stepTypeAliases.foldl (r.admitAlias plugin ns)
        (r.stepTypeDefs.foldl (r.admitDef plugin ns) access))
    ⟨[], []⟩

end PluginRegistry

end Gwead
