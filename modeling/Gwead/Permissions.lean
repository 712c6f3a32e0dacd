import Gwead.Identity
import Gwead.Resolve

/-!
# Permissions

A manifest's permissions are strings `<category>:<segments>`; the registry stores what they
parse to.
-/

namespace Gwead

open Identity

inductive BlobOp where
  | read | write | delete | list | stat | watch
  deriving DecidableEq

inductive NamePattern where
  | any
  | exact (name : String)
  deriving DecidableEq

def NamePattern.matches : NamePattern → String → Bool
  | any, _ => true
  | exact n, name => n == name

inductive HostPattern where
  | any
  | suffix (s : String)
  | exact (s : String)
  deriving DecidableEq

inductive PathPattern where
  | any
  | prefixed (s : String)
  | exact (s : String)
  deriving DecidableEq

inductive Permission where
  | networkEgress (host : HostPattern)
  | blobs (op : BlobOp) (path : PathPattern)
  | stepType (name : String)
  | invokePlugin (pattern : NamePattern)
  | invokeRole (pattern : NamePattern)
  | provideStepType (stepType : String) (selector : Option String)
  | bindNativeImpl (implRef : String)
  | appDefined (kind : String) (value : String)
  deriving DecidableEq

/-- An embedder category: its name and what checks a value of it, if anything does. -/
structure AppPermissionCategory where
  name : String
  validator : Option (String → Except String Unit)

def AppPermissionCategory.checkValue (category : AppPermissionCategory) (value : String) :
    Except String Unit :=
  match category.validator with
  | some f => f value
  | none => .ok ()

inductive PermissionParseError where
  | empty
  | reservedCategory (raw category : String)
  | unknownAppCategory (raw category known : String)
  | appValueRejected (raw category reason : String)
  | malformed (raw reason : String)
  deriving DecidableEq

def PermissionParseError.display : PermissionParseError → String
  | empty => "empty permission entry"
  | reservedCategory raw category =>
    "'" ++ raw ++ "' uses the unrecognised category '" ++ category ++ "'. Category names without " ++
      "a dot are reserved for the kernel (network, blobs, step_type, invoke, provide, bind); " ++
      "embedder-defined categories must be namespaced, e.g. 'acme." ++ category ++ ":...'"
  | unknownAppCategory raw category known =>
    "'" ++ raw ++ "' uses the embedder category '" ++ category ++ "', which this kernel does not " ++
      "define. " ++ known
  | appValueRejected raw category reason =>
    "'" ++ raw ++ "' is not a valid '" ++ category ++ "' permission: " ++ reason
  | malformed raw reason => "malformed permission '" ++ raw ++ "': " ++ reason

namespace Permission

/-- `splitn(2, ':')`: the text before the first colon and the text after it. -/
def splitColon (s : String) : String × String :=
  match splitOnce ':' s.toList with
  | some (a, b) => (String.ofList a, String.ofList b)
  | none => (s, "")

def globChars : List Char := ['*', '?', '[']

def rejectGlobChars (raw field s : String) : Except PermissionParseError Unit :=
  match s.toList.find? globChars.contains with
  | some c =>
    .error (.malformed raw (field ++ " contains reserved character '" ++ String.singleton c ++
      "' outside a supported wildcard position. Supported shapes are '*' alone, '*.suffix' for " ++
      "hosts, and 'prefix/*' for paths; '*', '?' and '[' are reserved elsewhere for a future glob " ++
      "syntax"))
  | none => .ok ()

/-- A name error inside a permission is a malformed permission. -/
def nameError (raw : String) {α : Type} : Except NameError α → Except PermissionParseError α
  | .ok a => .ok a
  | .error e => .error (.malformed raw e.display)

def parseHostPattern (raw s : String) : Except PermissionParseError HostPattern :=
  if s = "*" then .ok .any
  else if s.toList.contains ':' then
    .error (.malformed raw ("host pattern contains ':'. Ports are not expressible in a host pattern " ++
      "and ':' is reserved so that port syntax can be added without reinterpreting deployed grants; " ++
      "grant the host alone"))
  else
    match s.toList with
    | '*' :: '.' :: suffix =>
      if suffix = [] then
        .error (.malformed raw
          "`*.` needs a suffix (`*.example.com`); for any host write `*`")
      else do
        rejectGlobChars raw "host pattern suffix" (String.ofList suffix)
        return .suffix (String.ofList suffix)
    | _ => do
      rejectGlobChars raw "host pattern" s
      return .exact s

def parsePathPattern (raw s : String) : Except PermissionParseError PathPattern :=
  if s = "*" then .ok .any
  else
    match s.toList.reverse with
    | '*' :: '/' :: reversed => do
      let start := String.ofList reversed.reverse
      rejectGlobChars raw "path pattern prefix" start
      return .prefixed start
    | _ => do
      rejectGlobChars raw "path pattern" s
      return .exact s

def parseBlobOp : String → Option BlobOp
  | "read" => some .read
  | "write" => some .write
  | "delete" => some .delete
  | "list" => some .list
  | "stat" => some .stat
  | "watch" => some .watch
  | _ => none

def parseNetwork (raw rest : String) : Except PermissionParseError Permission :=
  let (kind, pattern) := splitColon rest
  if kind ≠ "egress" then
    .error (.malformed raw ("network category supports 'egress' only, got '" ++ kind ++ "'"))
  else if pattern = "" then .error (.malformed raw "network:egress requires a host pattern")
  else do
    return networkEgress (← parseHostPattern raw pattern)

def parseBlobs (raw rest : String) : Except PermissionParseError Permission :=
  let (opStr, path) := splitColon rest
  match parseBlobOp opStr with
  | none =>
    .error (.malformed raw
      ("blobs op must be one of read/write/delete/list/stat/watch, got '" ++ opStr ++ "'"))
  | some op =>
    if path = "" then .error (.malformed raw "blobs permission requires a path pattern")
    else do
      return blobs op (← parsePathPattern raw path)

def parseStepType (raw rest : String) : Except PermissionParseError Permission :=
  if rest = "" then .error (.malformed raw "step_type permission requires a step type name")
  else do
    rejectGlobChars raw "step type name" rest
    nameError raw (validateStepTypeReference rest)
    return stepType rest

/-- The step type and the selector of a `provide:step_type:` target. -/
def provideTarget (raw target : String) : Except PermissionParseError (String × Option String) :=
  match splitOnce ':' target.toList with
  | some (t, []) =>
    .error (.malformed raw ("provide:step_type:" ++ String.ofList t ++ ": has a trailing colon but " ++
      "no selector — drop the colon for a selector-less claim"))
  | some (t, sel) => .ok (String.ofList t, some (String.ofList sel))
  | none => .ok (target, none)

def checkSelector (raw : String) : Option String → Except PermissionParseError Unit
  | none => .ok ()
  | some sel => do
    rejectGlobChars raw "provided step type selector" sel
    nameError raw (validateReference .stepTypeSelector sel)

def parseProvide (raw rest : String) : Except PermissionParseError Permission :=
  let (what, target) := splitColon rest
  if what ≠ "step_type" then
    .error (.malformed raw ("provide category supports 'step_type' only, got '" ++ what ++ "'"))
  else if target = "" then
    .error (.malformed raw ("provide:step_type requires a step type, e.g. " ++
      "provide:step_type:script:lua"))
  else do
    let (ty, selector) ← provideTarget raw target
    rejectGlobChars raw "provided step type" ty
    nameError raw (validateStepTypeReference ty)
    checkSelector raw selector
    return provideStepType ty selector

def parseBind (raw rest : String) : Except PermissionParseError Permission :=
  let (what, target) := splitColon rest
  if what ≠ "native_impl" then
    .error (.malformed raw ("bind category supports 'native_impl' only, got '" ++ what ++ "'"))
  else if target = "" then
    .error (.malformed raw ("bind:native_impl requires an implRef, e.g. " ++
      "bind:native_impl:myapp.vault.sign"))
  else do
    rejectGlobChars raw "bound implRef" target
    nameError raw (validateImplRef target)
    return bindNativeImpl target

def parseTargetName (raw name : String) (kind : NameKind) :
    Except PermissionParseError NamePattern :=
  if name = "*" then .ok .any
  else do
    rejectGlobChars raw "invoke target name" name
    nameError raw (validateReference kind name)
    return .exact name

def parseInvoke (raw rest : String) : Except PermissionParseError Permission :=
  let (kind, name) := splitColon rest
  if name = "" then
    .error (.malformed raw ("invoke permission requires a target, e.g. invoke:plugin:<name|*> or " ++
      "invoke:role:<name|*>"))
  else if kind = "plugin" then do
    return invokePlugin (← parseTargetName raw name .plugin)
  else if kind = "role" then do
    return invokeRole (← parseTargetName raw name .role)
  else
    .error (.malformed raw ("invoke category supports 'plugin' or 'role', got '" ++ kind ++ "'"))

def parseApp (raw category rest : String) : Except PermissionParseError Permission :=
  if category = "" then .error .empty
  else if ¬ category.toList.contains '.' then .error (.reservedCategory raw category)
  else if rest = "" then
    .error (.malformed raw
      ("'" ++ category ++ "' has no value — a permission is '<category>:<value>'"))
  else .ok (appDefined category rest)

/-- The parser of one category; a category the kernel does not know is the embedder's. -/
def parseCategory (raw category rest : String) : Except PermissionParseError Permission :=
  match category with
  | "network" => parseNetwork raw rest
  | "blobs" => parseBlobs raw rest
  | "step_type" => parseStepType raw rest
  | "provide" => parseProvide raw rest
  | "bind" => parseBind raw rest
  | "invoke" => parseInvoke raw rest
  | _ => parseApp raw category rest

def parsePermission (raw : String) : Except PermissionParseError Permission :=
  let trimmed := String.ofList (trim raw.toList)
  if trimmed = "" then .error .empty
  else
    let (category, rest) := splitColon trimmed
    parseCategory trimmed category rest

def describeKnownCategories (categories : List AppPermissionCategory) : String :=
  if categories.isEmpty then
    "This kernel declares no embedder permission categories at all. If the category is yours, " ++
      "declare it at boot: " ++
      "`KernelConfig::default().defining_app_permission_category(\"acme.events\")`"
  else
    "Declared categories: " ++
      ", ".intercalate ((categories.map AppPermissionCategory.name).mergeSort (· ≤ ·)) ++
      ". Check for a typo, or declare this one at boot with " ++
        "`KernelConfig::defining_app_permission_category`"

/-- An embedder permission must be of a declared category, with a value it accepts. -/
def checkAppCategory (categories : List AppPermissionCategory) (raw : String) :
    Permission → Except PermissionParseError Unit
  | appDefined kind value =>
    match categories.find? (·.name == kind) with
    | none => .error (.unknownAppCategory raw kind (describeKnownCategories categories))
    | some category =>
      match category.checkValue value with
      | .ok () => .ok ()
      | .error reason => .error (.appValueRejected raw kind reason)
  | _ => .ok ()

def parseManifestPermission (categories : List AppPermissionCategory) (entry : String) :
    Except PermissionParseError Permission := do
  let parsed ← parsePermission entry
  checkAppCategory categories (String.ofList (trim entry.toList)) parsed
  return parsed

def parseManifestPermissions (raw : List String) (categories : List AppPermissionCategory) :
    Except PermissionParseError (List Permission) :=
  raw.mapM (parseManifestPermission categories)

end Permission

/-! ### Checks -/

inductive PermissionCheck where
  | granted
  | denied (requested : String)
  deriving DecidableEq

def PermissionCheck.isGranted : PermissionCheck → Bool
  | granted => true
  | denied _ => false

/-- Granted when some grant of the set covers the request. -/
def PermissionCheck.ofGrants (grants : List Permission) (covers : Permission → Bool)
    (requested : String) : PermissionCheck :=
  if grants.any covers then granted else denied requested

def checkInvokeRole (grants : List Permission) (role : String) : PermissionCheck :=
  .ofGrants grants
    (fun
      | .invokeRole pattern => pattern.matches role
      | _ => false)
    ("invoke:role:" ++ role)

def checkStepType (grants : List Permission) (stepType : String) : PermissionCheck :=
  .ofGrants grants
    (fun
      | .stepType name => name == stepType
      | _ => false)
    ("step_type:" ++ stepType)

theorem PermissionCheck.isGranted_ofGrants {grants : List Permission} {covers : Permission → Bool}
    {requested : String} :
    (PermissionCheck.ofGrants grants covers requested).isGranted = true ↔
      ∃ grant ∈ grants, covers grant = true := by
  rw [← List.any_eq_true, ofGrants]
  cases grants.any covers <;> simp [isGranted]

theorem checkInvokeRole_granted {grants : List Permission} {role : String} :
    (checkInvokeRole grants role).isGranted = true ↔
      ∃ pattern, Permission.invokeRole pattern ∈ grants ∧ pattern.matches role = true := by
  rw [checkInvokeRole, PermissionCheck.isGranted_ofGrants]
  constructor
  · rintro ⟨grant, hmem, hcovers⟩
    cases grant with
    | invokeRole pattern => exact ⟨pattern, hmem, hcovers⟩
    | _ => cases hcovers
  · rintro ⟨pattern, hmem, hm⟩
    exact ⟨_, hmem, hm⟩

theorem checkStepType_granted {grants : List Permission} {stepType : String} :
    (checkStepType grants stepType).isGranted = true ↔ Permission.stepType stepType ∈ grants := by
  rw [checkStepType, PermissionCheck.isGranted_ofGrants]
  constructor
  · rintro ⟨grant, hmem, hcovers⟩
    cases grant with
    | stepType name => exact (beq_iff_eq.mp hcovers) ▸ hmem
    | _ => cases hcovers
  · intro hmem
    exact ⟨_, hmem, beq_self_eq_true stepType⟩

end Gwead
