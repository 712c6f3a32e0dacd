import Gwead.Registry
import Gwead.Runtime

/-!
# Dispatching to another plugin

The three ways a running step reaches another plugin: the `invoke` step, an alias step and a
dispatch by role.  Each checks the request, asks the embedder's orchestrator for a plan and
authorises the plan before the callee runs.
-/

namespace Gwead

open Identity

def invokeMaxDepth : Nat := 16

inductive DispatchRequest where
  | byRole (role action : String) (input hints : Value)
  | byPlugin (plugin action : String) (input hints : Value)

structure DispatchPlan where
  plugin : String
  action : String
  config : Value

inductive DispatchError where
  | roleUnbound (message : String)
  | selectionFailed (message : String)
  | configResolutionFailed (message : String)

/-- What an orchestrator is shown; `ξ` is the embedder's execution context. -/
structure DispatchContext (ξ : Type) where
  registry : PluginRegistry
  execCtx : ξ
  callerPlugin : Option String
  callerConfig : Value
  roleCandidates : List String

abbrev DispatchOrchestrator (ξ : Type) :=
  DispatchRequest → DispatchContext ξ → Except DispatchError DispatchPlan

/-- The kernel's own orchestrator: the first reachable fulfiller, and the caller's config. -/
def defaultOrchestrator {ξ : Type} : DispatchOrchestrator ξ := fun request ctx =>
  match request with
  | .byPlugin plugin action _ _ => .ok ⟨plugin, action, ctx.callerConfig⟩
  | .byRole role action _ _ =>
    match ctx.roleCandidates.head? with
    | some plugin => .ok ⟨plugin, action, ctx.callerConfig⟩
    | none =>
      .error (.roleUnbound ("No plugin registered for role '" ++ role ++ "' reachable from " ++
        match ctx.callerPlugin with
        | some caller => "'" ++ caller ++ "'"
        | none => "the embedder"))

/-- What a dispatch reads of the execution it is made from. -/
structure Execution (ξ : Type) where
  plugin : String
  config : Value
  execCtx : ξ
  bag : Value
  stepTypeAccess : List (String × String)
  stepId : String
  stepType : String
  invokeDepth : Nat
  dispatchDepth : Nat

/-- The arguments of a call of `execute_action_invoked`. -/
structure InvokedCall (ξ : Type) where
  plugin : String
  action : String
  input : Value
  config : Value
  execCtx : ξ
  parentDepth : Nat

namespace PluginRegistry

/-- The nearest registered plugin of that name on the caller's chain, else the nearest name. -/
def resolvePluginReference (r : PluginRegistry) (caller reference : String) :
    Except NameError String :=
  match pluginReferenceCandidates caller reference with
  | .error e => .error e
  | .ok candidates => .ok ((candidates.find? r.hasPlugin).getD (candidates.headD reference))

def grantCovers (r : PluginRegistry) (caller target : String) : Permission → Bool
  | .invokePlugin .any => sameNamespace caller target
  | .invokePlugin (.exact name) =>
    match r.resolvePluginReference caller name with
    | .ok resolved => resolved == target
    | .error _ => false
  | _ => false

def checkInvokePlugin (r : PluginRegistry) (caller target : String) : PermissionCheck :=
  .ofGrants (r.permissionsFor caller) (r.grantCovers caller target)
    ("invoke:plugin:" ++ localNameOf target)

def lacks (caller requested : String) : String :=
  "plugin '" ++ caller ++ "' lacks " ++ requested ++ " permission (add it to the manifest's " ++
    "`permissions` list)"

/-- The check of a request, before the orchestrator runs. -/
def checkInvokeGrant (r : PluginRegistry) (caller : String) (request : DispatchRequest) :
    Except String Unit :=
  let check :=
    match request with
    | .byPlugin plugin .. =>
      if plugin = caller then PermissionCheck.granted else r.checkInvokePlugin caller plugin
    | .byRole role .. => checkInvokeRole (r.permissionsFor caller) role
  match check with
  | .granted => .ok ()
  | .denied requested => .error (lacks caller requested)

/-- How an orchestrator's answer differs from the request, for the message of a refusal. -/
def redirection (request : DispatchRequest) (plan : DispatchPlan) : String :=
  match request with
  | .byPlugin plugin .. =>
    if plugin ≠ plan.plugin then
      " (the dispatch orchestrator resolved the request for '" ++ plugin ++ "' to '" ++
        plan.plugin ++ "')"
    else ""
  | .byRole role .. => " (role '" ++ role ++ "' resolved to '" ++ plan.plugin ++ "')"

def grantedRole (r : PluginRegistry) (caller : String) : DispatchRequest → Bool
  | .byRole role .. => (checkInvokeRole (r.permissionsFor caller) role).isGranted
  | .byPlugin .. => false

/-- The check of the plan: containment before every shortcut. -/
def authorizeResolvedDispatch (r : PluginRegistry) (caller : String) (request : DispatchRequest)
    (plan : DispatchPlan) (alsoAllowed : Option String) : Except String Unit :=
  if ¬ isOnChain plan.plugin caller then
    .error ("plugin '" ++ caller ++ "' may not dispatch to '" ++ plan.plugin ++ "': a plugin may " ++
      "only dispatch within its own namespace or into one enclosing it, never into a sibling or a " ++
      "descendant, and no permission grants passage otherwise")
  else if plan.plugin = caller ∨ alsoAllowed = some plan.plugin then .ok ()
  else if (r.checkInvokePlugin caller plan.plugin).isGranted then .ok ()
  else if r.grantedRole caller request then .ok ()
  else
    .error ("plugin '" ++ caller ++ "' lacks invoke:plugin:" ++ plan.plugin ++ " permission" ++
      redirection request plan ++ " (add it to the manifest's `permissions` list)")

/-- The reachable fulfillers of a role at the first level of the chain that has any, the nearest
first. -/
def roleCandidates (r : PluginRegistry) (callerPlugin : Option String) (role : String) :
    List String :=
  let caller := callerPlugin.getD ""
  let levels := (ancestorNamespaces (namespaceOf caller)).map fun ns =>
    (r.pluginsForRole (qualify ns role)).filter fun candidate => isOnChain candidate caller
  let found := (levels.find? fun candidates => ¬ candidates.isEmpty).getD []
  found.mergeSort fun a b =>
    decide ((ancestorNamespaces (namespaceOf b)).length ≤ (ancestorNamespaces (namespaceOf a)).length)

end PluginRegistry

section Dispatch

variable {ξ : Type} (floatText : Binary64 → String) (orchestrator : DispatchOrchestrator ξ)
  (r : PluginRegistry)

def DispatchError.toKernelError : DispatchError → KernelError
  | .roleUnbound m => .notFound m
  | .selectionFailed m => .execution m
  | .configResolutionFailed m => .execution m

def prepareDispatchViaOrchestrator (request : DispatchRequest) (execCtx : ξ)
    (callerPlugin : Option String) (callerConfig : Value) : Except KernelError DispatchPlan :=
  let candidates :=
    match request with
    | .byRole role .. => r.roleCandidates callerPlugin role
    | .byPlugin .. => []
  match orchestrator request ⟨r, execCtx, callerPlugin, callerConfig, candidates⟩ with
  | .ok plan => .ok plan
  | .error e => .error e.toKernelError

/-- The callee of an authorised plan, called with the caller's depth. -/
def Execution.call (ex : Execution ξ) (plan : DispatchPlan) (input : Value) : InvokedCall ξ :=
  ⟨plan.plugin, plan.action, input, plan.config, ex.execCtx, ex.invokeDepth⟩

/-! ### The `invoke` step -/

/-- A parameter resolved to a string. -/
def Execution.field (ex : Execution ξ) (params : Value) (key : String) : Option String :=
  (params.get key).bind fun raw => (resolveValue floatText raw ex.bag).asStr

def Execution.valueField (ex : Execution ξ) (params : Value) (key : String) : Value :=
  resolveValue floatText ((params.get key).getD .null) ex.bag

/-- The request of an `invoke` step: exactly one of `plugin` and `role`; a plugin name means the
nearest one on the caller's chain. -/
def invokeRequest (ex : Execution ξ) (params : Value) : Except StepError DispatchRequest :=
  let failed (message : String) : Except StepError DispatchRequest :=
    .error (.failed ("invoke step '" ++ ex.stepId ++ "'" ++ message))
  match ex.field floatText params "action" with
  | none => failed " missing required `action`"
  | some action =>
    let input := ex.valueField floatText params "input"
    let hints := ex.valueField floatText params "hints"
    match ex.field floatText params "plugin", ex.field floatText params "role" with
    | some _, some _ => failed " specifies both `plugin` and `role`; use exactly one"
    | none, none => failed " specifies neither `plugin` nor `role`"
    | some raw, none =>
      match r.resolvePluginReference ex.plugin raw with
      | .error e => failed (": " ++ e.display)
      | .ok plugin => .ok (.byPlugin plugin action input hints)
    | none, some role => .ok (.byRole role action input hints)

def invokePlanError (ex : Execution ξ) (request : DispatchRequest) : KernelError → StepError
  | .notFound m =>
    match request with
    | .byRole role .. =>
      .failed ("invoke step '" ++ ex.stepId ++ "' role '" ++ role ++ "' has no registered plugin")
    | .byPlugin .. => .failed ("invoke step '" ++ ex.stepId ++ "': " ++ m)
  | e => .failed ("invoke step '" ++ ex.stepId ++ "' dispatch policy: " ++ e.display)

/-- An `invoke` step up to its call; `kernel` is none when the kernel was never wrapped. -/
def stepInvoke (kernel : Option PluginRegistry) (ex : Execution ξ) (params : Value) :
    Except StepError (InvokedCall ξ) :=
  let failed (message : String) : Except StepError (InvokedCall ξ) :=
    .error (.failed ("invoke step '" ++ ex.stepId ++ "': " ++ message))
  if invokeMaxDepth ≤ ex.invokeDepth then
    .error (.failed ("invoke recursion cap (" ++ toString invokeMaxDepth ++ ") exceeded at step '" ++
      ex.stepId ++ "'"))
  else
    match kernel with
    | none =>
      .error (.failed ("invoke step requires a kernel constructed via Kernel::into_arc; this kernel " ++
        "was never wrapped"))
    | some r =>
      match invokeRequest floatText r ex params with
      | .error e => .error e
      | .ok request =>
        match r.checkInvokeGrant ex.plugin request with
        | .error reason => failed reason
        | .ok () =>
          match prepareDispatchViaOrchestrator orchestrator r request ex.execCtx (some ex.plugin)
              ex.config with
          | .error e => .error (invokePlanError ex request e)
          | .ok plan =>
            match r.authorizeResolvedDispatch ex.plugin request plan none with
            | .error reason => failed reason
            | .ok () => .ok (ex.call plan (ex.valueField floatText params "input"))

/-! ### Alias steps -/

/-- An alias step up to its call: the parameters as a whole are the callee's input. -/
def stepAliasDispatch (kernel : Option PluginRegistry) (ex : Execution ξ) (params : Value) :
    Except StepError (InvokedCall ξ) :=
  let failed (message : String) : Except StepError (InvokedCall ξ) :=
    .error (.failed ("alias step '" ++ ex.stepId ++ "'" ++ message))
  let unknown := failed (" resolves to unknown step type '" ++ ex.stepType ++ "'")
  let typed := " ('" ++ ex.stepType ++ "')"
  if invokeMaxDepth ≤ ex.invokeDepth then
    .error (.failed ("invoke recursion cap (" ++ toString invokeMaxDepth ++ ") exceeded at alias " ++
      "step '" ++ ex.stepId ++ "'"))
  else
    match kernel with
    | none =>
      failed " requires a kernel constructed via Kernel::into_arc; this kernel was never wrapped"
    | some r =>
      match (ex.stepTypeAccess.lookup ex.stepType).bind r.stepTypeAliasCandidates with
      | none => unknown
      | some (owner, action) =>
        let input := resolveValue floatText params ex.bag
        if owner ≠ ex.plugin ∧
            ¬ (checkStepType (r.permissionsFor ex.plugin) ex.stepType).isGranted then
          failed (": " ++ PluginRegistry.lacks ex.plugin ("step_type:" ++ ex.stepType))
        else
          let request : DispatchRequest := .byPlugin owner action input .null
          match prepareDispatchViaOrchestrator orchestrator r request ex.execCtx (some ex.plugin)
              ex.config with
          | .error e => failed (typed ++ " dispatch policy: " ++ e.display)
          | .ok plan =>
            match r.authorizeResolvedDispatch ex.plugin request plan (some owner) with
            | .error reason => failed (typed ++ ": " ++ reason)
            | .ok () => .ok (ex.call plan input)

/-! ### Dispatch by role -/

/-- A native body's dispatch by role, up to its call. -/
def dispatchRoleInner (ex : Execution ξ) (role action : String) (input hints : Value) :
    Except KernelError (InvokedCall ξ) :=
  let request : DispatchRequest := .byRole role action input hints
  match r.checkInvokeGrant ex.plugin request with
  | .error reason => .error (.validation reason)
  | .ok () =>
    if invokeMaxDepth ≤ ex.invokeDepth then
      .error (.validation ("invoke recursion cap (" ++ toString invokeMaxDepth ++ ") exceeded: '" ++
        ex.plugin ++ "' dispatching role '" ++ role ++ "'"))
    else
      match prepareDispatchViaOrchestrator orchestrator r request ex.execCtx (some ex.plugin)
          ex.config with
      | .error e => .error e
      | .ok plan =>
        match r.authorizeResolvedDispatch ex.plugin request plan none with
        | .error reason => .error (.validation reason)
        | .ok () => .ok (ex.call plan input)

end Dispatch

end Gwead
