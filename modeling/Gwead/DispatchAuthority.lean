import Gwead.Consistency
import Gwead.Dispatch

/-!
# Who a dispatch may reach

Whatever the orchestrator answers, a call is made only to a plugin in the caller's namespace or
one enclosing it, and only under the caller's own name, an alias it may use, or a grant of its own.
-/

namespace Gwead

open Identity

/-- A plugin the caller may invoke as such: itself, or one its grants name. -/
inductive Entitled (r : PluginRegistry) (caller : String) : String → Prop
  | self : Entitled r caller caller
  | byName {name target : String}
      (hgrant : Permission.invokePlugin (.exact name) ∈ r.permissionsFor caller)
      (hres : r.resolvePluginReference caller name = .ok target) : Entitled r caller target
  | sameNamespace {target : String}
      (hgrant : Permission.invokePlugin .any ∈ r.permissionsFor caller)
      (hns : namespaceOf target = namespaceOf caller) : Entitled r caller target

theorem checkInvokePlugin_granted {r : PluginRegistry} {caller target : String}
    (h : (r.checkInvokePlugin caller target).isGranted = true) : Entitled r caller target := by
  obtain ⟨grant, hmem, hcovers⟩ := PermissionCheck.isGranted_ofGrants.mp h
  cases grant with
  | invokePlugin pattern =>
    cases pattern with
    | any =>
      have hns : namespaceOf caller = namespaceOf target := eq_of_beq hcovers
      exact .sameNamespace hmem hns.symm
    | exact name =>
      simp only [PluginRegistry.grantCovers] at hcovers
      cases hres : r.resolvePluginReference caller name with
      | error e => simp [hres] at hcovers
      | ok resolved =>
        simp only [hres, beq_iff_eq] at hcovers
        exact .byName hmem (hcovers ▸ hres)
  | _ => cases hcovers

/-- A plan that is authorised is on the caller's chain, and something authorised it. -/
theorem authorizeResolvedDispatch_ok {r : PluginRegistry} {caller : String}
    {request : DispatchRequest} {plan : DispatchPlan} {alsoAllowed : Option String}
    (h : r.authorizeResolvedDispatch caller request plan alsoAllowed = .ok ()) :
    Encloses (namespaceOf plan.plugin) (namespaceOf caller) ∧
      (Entitled r caller plan.plugin ∨ alsoAllowed = some plan.plugin ∨
        r.grantedRole caller request = true) := by
  rw [PluginRegistry.authorizeResolvedDispatch] at h
  split at h
  · cases h
  · rename_i hchain
    have hon : isOnChain plan.plugin caller = true := by simpa using hchain
    refine ⟨encloses_of_mem_ancestorNamespaces _ _ (isOnChain_iff.mp hon), ?_⟩
    split at h
    · rename_i hshort
      rcases hshort with hself | halso
      · exact Or.inl (hself ▸ .self)
      · exact Or.inr (Or.inl halso)
    · split at h
      · rename_i hgranted
        exact Or.inl (checkInvokePlugin_granted hgranted)
      · split at h
        · rename_i hrole
          exact Or.inr (Or.inr hrole)
        · cases h

section Surfaces

variable {ξ : Type} {floatText : Binary64 → String} {orchestrator : DispatchOrchestrator ξ}
  {r : PluginRegistry} {ex : Execution ξ}

/-- A request of a running plugin, by the way it is made. -/
inductive Surface where
  | invoke (params : Value)
  | aliasStep (params : Value)
  | dispatchRole (role action : String) (input hints : Value)

/-- The role that is asked for, if one is. -/
def Surface.role (floatText : Binary64 → String) (ex : Execution ξ) : Surface → Option String
  | .invoke params => ex.field floatText params "role"
  | .aliasStep _ => none
  | .dispatchRole role .. => some role

/-- A request reaches `execute_action_invoked` with a call. -/
def Surface.Calls (floatText : Binary64 → String) (orchestrator : DispatchOrchestrator ξ)
    (r : PluginRegistry) (ex : Execution ξ) (call : InvokedCall ξ) : Surface → Prop
  | .invoke params => stepInvoke floatText orchestrator (some r) ex params = .ok call
  | .aliasStep params => stepAliasDispatch floatText orchestrator (some r) ex params = .ok call
  | .dispatchRole role action input hints =>
    dispatchRoleInner orchestrator r ex role action input hints = .ok call

/-- Why a request may reach a plugin: it is the caller or the caller's grants name it; it owns
the alias, which the caller may use; or the caller holds a grant for the role it asked for. -/
inductive Authorised (floatText : Binary64 → String) (r : PluginRegistry) (ex : Execution ξ) :
    Surface → String → Prop
  | entitled {surface : Surface} {target : String} (h : Entitled r ex.plugin target) :
      Authorised floatText r ex surface target
  | aliasOwner {params : Value} {key owner action : String}
      (hkey : ex.stepTypeAccess.lookup ex.stepType = some key)
      (howner : r.stepTypeAliasCandidates key = some (owner, action))
      (hgrant : Permission.stepType ex.stepType ∈ r.permissionsFor ex.plugin) :
      Authorised floatText r ex (.aliasStep params) owner
  | byRole {surface : Surface} {target role : String} {pattern : NamePattern}
      (hrole : surface.role floatText ex = some role)
      (hgrant : Permission.invokeRole pattern ∈ r.permissionsFor ex.plugin)
      (hmatches : pattern.matches role = true) : Authorised floatText r ex surface target

theorem authorised_of_plan {surface : Surface} {request : DispatchRequest} {plan : DispatchPlan}
    (hrole : ∀ role action input hints, request = .byRole role action input hints →
      surface.role floatText ex = some role)
    (h : r.authorizeResolvedDispatch ex.plugin request plan none = .ok ()) :
    Encloses (namespaceOf plan.plugin) (namespaceOf ex.plugin) ∧
      Authorised floatText r ex surface plan.plugin := by
  obtain ⟨hchain, hwhy⟩ := authorizeResolvedDispatch_ok h
  refine ⟨hchain, ?_⟩
  rcases hwhy with hentitled | halso | hgranted
  · exact .entitled hentitled
  · cases halso
  · cases request with
    | byPlugin plugin action input hints => cases hgranted
    | byRole role action input hints =>
      obtain ⟨pattern, hmem, hm⟩ := checkInvokeRole_granted.mp hgranted
      exact .byRole (hrole role action input hints rfl) hmem hm

theorem invokeRequest_role {params : Value} {request : DispatchRequest}
    (h : invokeRequest floatText r ex params = .ok request) {role action : String}
    {input hints : Value} (hrequest : request = .byRole role action input hints) :
    ex.field floatText params "role" = some role := by
  subst hrequest
  simp only [invokeRequest] at h
  split at h
  · cases h
  · split at h
    · cases h
    · cases h
    · split at h <;> cases h
    · cases h
      assumption

theorem stepInvoke_ok {params : Value} {call : InvokedCall ξ}
    (h : stepInvoke floatText orchestrator (some r) ex params = .ok call) :
    ∃ request plan, invokeRequest floatText r ex params = .ok request ∧
      r.authorizeResolvedDispatch ex.plugin request plan none = .ok () ∧
        call = ex.call plan (ex.valueField floatText params "input") ∧
          ex.invokeDepth < invokeMaxDepth := by
  simp only [stepInvoke] at h
  split at h
  · cases h
  · rename_i hdepth
    cases hrequest : invokeRequest floatText r ex params with
    | error e => simp [hrequest] at h
    | ok request =>
      simp only [hrequest] at h
      split at h
      · cases h
      · split at h
        · cases h
        · rename_i plan _
          split at h
          · cases h
          · rename_i hauth
            cases h
            exact ⟨request, plan, rfl, hauth, rfl, Nat.lt_of_not_le hdepth⟩

theorem stepAliasDispatch_ok {params : Value} {call : InvokedCall ξ}
    (h : stepAliasDispatch floatText orchestrator (some r) ex params = .ok call) :
    ∃ key owner action plan, ex.stepTypeAccess.lookup ex.stepType = some key ∧
      r.stepTypeAliasCandidates key = some (owner, action) ∧
      (owner = ex.plugin ∨ Permission.stepType ex.stepType ∈ r.permissionsFor ex.plugin) ∧
      r.authorizeResolvedDispatch ex.plugin
        (.byPlugin owner action (resolveValue floatText params ex.bag) .null) plan (some owner) =
          .ok () ∧
      call = ex.call plan (resolveValue floatText params ex.bag) ∧
      ex.invokeDepth < invokeMaxDepth := by
  simp only [stepAliasDispatch] at h
  split at h
  · cases h
  · rename_i hdepth
    cases hc : (ex.stepTypeAccess.lookup ex.stepType).bind r.stepTypeAliasCandidates with
    | none => simp [hc] at h
    | some target =>
      obtain ⟨owner, action⟩ := target
      obtain ⟨key, hkey, howner⟩ := Option.bind_eq_some_iff.mp hc
      simp only [hc] at h
      split at h
      · cases h
      · rename_i hgate
        split at h
        · cases h
        · rename_i plan _
          split at h
          · cases h
          · rename_i hauth
            cases h
            refine ⟨key, owner, action, plan, hkey, howner, ?_, hauth, rfl,
              Nat.lt_of_not_le hdepth⟩
            by_cases hown : owner = ex.plugin
            · exact Or.inl hown
            · refine Or.inr (checkStepType_granted.mp ?_)
              by_contra hdenied
              exact hgate ⟨hown, hdenied⟩

theorem dispatchRoleInner_ok {role action : String} {input hints : Value} {call : InvokedCall ξ}
    (h : dispatchRoleInner orchestrator r ex role action input hints = .ok call) :
    ∃ plan, r.authorizeResolvedDispatch ex.plugin (.byRole role action input hints) plan none =
        .ok () ∧ call = ex.call plan input ∧ ex.invokeDepth < invokeMaxDepth := by
  simp only [dispatchRoleInner] at h
  split at h
  · cases h
  · split at h
    · cases h
    · rename_i hdepth
      split at h
      · cases h
      · rename_i plan _
        split at h
        · cases h
        · rename_i hauth
          cases h
          exact ⟨plan, hauth, rfl, Nat.lt_of_not_le hdepth⟩

/-- No request reaches a plugin outside the caller's chain, or one that neither the caller's
identity, nor an alias it may use, nor a grant of its own authorises. -/
theorem dispatch_contained_and_authorised (surface : Surface) (call : InvokedCall ξ)
    (h : surface.Calls floatText orchestrator r ex call) :
    Encloses (namespaceOf call.plugin) (namespaceOf ex.plugin) ∧
      Authorised floatText r ex surface call.plugin := by
  cases surface with
  | invoke params =>
    obtain ⟨request, plan, hrequest, hauth, rfl, -⟩ := stepInvoke_ok h
    exact authorised_of_plan (fun _ _ _ _ heq => invokeRequest_role hrequest heq) hauth
  | dispatchRole role action input hints =>
    obtain ⟨plan, hauth, rfl, -⟩ := dispatchRoleInner_ok h
    refine authorised_of_plan ?_ hauth
    rintro _ _ _ _ heq
    cases heq
    rfl
  | aliasStep params =>
    obtain ⟨key, owner, action, plan, hkey, howner, hgrant, hauth, rfl, -⟩ :=
      stepAliasDispatch_ok h
    obtain ⟨hchain, hwhy⟩ := authorizeResolvedDispatch_ok hauth
    refine ⟨hchain, ?_⟩
    rcases hwhy with hentitled | halso | hrole
    · exact .entitled hentitled
    · cases halso
      rcases hgrant with hself | hgrant
      · have hentitled : Entitled r ex.plugin plan.plugin := by
          rw [hself]
          exact .self
        exact .entitled hentitled
      · exact .aliasOwner hkey howner hgrant
    · cases hrole

end Surfaces

/-! ### A granted invoke -/

def archiveManifest : PluginManifest :=
  { plainManifest "archive" with
    actions := IndexMap.empty.insert "put" (plainAction [.new "done" "return" .emptyObject]) }

def clientManifest : PluginManifest :=
  { plainManifest "client" with permissions := ["invoke:plugin:archive"] }

def clientSetup : Setup :=
  textSetup [("kernel", plainManifest "kernel"), ("archive", archiveManifest),
    ("client", clientManifest)] []

def clientExecution : Execution Unit :=
  ⟨"team/client", .emptyObject, (), .emptyObject, [], "send", "invoke", 0, 0⟩

def archiveInvoke : Value :=
  .object [("plugin", .string "archive"), ("action", .string "put")]

/-- A plugin of a namespace reaches the root plugin it holds a grant for. -/
theorem dispatch_contained_and_authorised_client : ∃ k call,
    Kernel.boot clientSetup "kernel" = .ok k ∧
    (Surface.invoke archiveInvoke).Calls (fun _ => "") defaultOrchestrator
      (k.afterAll clientSetup [.load "" "archive", .load "team" "client"]).registry
      clientExecution call ∧
    call.plugin = "archive" ∧
    Authorised (fun _ => "")
      (k.afterAll clientSetup [.load "" "archive", .load "team" "client"]).registry
      clientExecution (.invoke archiveInvoke) "archive" := by
  have hrun : ∃ k call, Kernel.boot clientSetup "kernel" = .ok k ∧
      (Surface.invoke archiveInvoke).Calls (fun _ => "") defaultOrchestrator
        (k.afterAll clientSetup [.load "" "archive", .load "team" "client"]).registry
        clientExecution call ∧ call.plugin = "archive" := ⟨_, _, rfl, rfl, by decide⟩
  obtain ⟨k, call, hboot, hcalls, hplugin⟩ := hrun
  have hauthorised := (dispatch_contained_and_authorised (.invoke archiveInvoke) call hcalls).2
  exact ⟨k, call, hboot, hcalls, hplugin, hplugin ▸ hauthorised⟩

end Gwead
