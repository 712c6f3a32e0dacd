import Gwead.Consistency
import Gwead.Dispatch

/-!
# Cycles of invokes

Registration records an invoke under the name that is written, and dispatch resolves that name on
the caller's chain.  Between root plugins the two agree, so the check covers them; an invoke
within another namespace is checked as if it left the namespace.
-/

namespace Gwead

open Identity Registration

/-- The target of an `invoke` step that names a plugin and an action without templates. -/
def literalInvoke (step : StepDef) : Option NodeRef :=
  if step.stepType = "invoke" then
    (invokeTarget step.params).filter fun t => !isTemplated t.1 && !isTemplated t.2
  else none

/-- From a registered action to the action that one of its literal invokes denotes. -/
inductive Denotes (r : PluginRegistry) : NodeRef → NodeRef → Prop
  | invoke {plugin action written target callee : String} {m : PluginManifest}
      {a : ManifestAction} {step : StepDef} (hm : r.getManifest plugin = some m)
      (ha : m.actions.get? action = some a) (hn : Nested a.steps step)
      (hlit : literalInvoke step = some (written, target))
      (hres : r.resolvePluginReference plugin written = .ok callee) :
      Denotes r (plugin, action) (callee, target)

/-- No plugin outside the root namespace invokes a registered plugin of its own namespace. -/
def NoInvokeWithinNamespace (r : PluginRegistry) : Prop :=
  ∀ x y, Denotes r x y → namespaceOf x.1 ≠ "" → r.hasPlugin y.1 = true →
    namespaceOf y.1 ≠ namespaceOf x.1

/-- An invoke between two plugins of one namespace. -/
def DenotesWithin (r : PluginRegistry) (ns : String) (x y : NodeRef) : Prop :=
  Denotes r x y ∧ namespaceOf x.1 = ns ∧ namespaceOf y.1 = ns

section Resolution

variable {r : PluginRegistry} {caller reference resolved : String}

theorem validateReference_noSeparator {kind : NameKind}
    (h : validateReference kind reference = .ok ()) : namespaceSeparator ∉ reference.toList :=
  validateName_noSeparator h

/-- A reference resolves to that name in a namespace of the caller's chain. -/
theorem resolvePluginReference_ok (h : r.resolvePluginReference caller reference = .ok resolved) :
    namespaceSeparator ∉ reference.toList ∧
      ∃ ns ∈ ancestorNamespaces (namespaceOf caller), resolved = qualify ns reference := by
  rw [PluginRegistry.resolvePluginReference] at h
  cases hc : pluginReferenceCandidates caller reference with
  | error e => simp [hc] at h
  | ok candidates =>
    simp only [hc, Except.ok.injEq] at h
    rw [pluginReferenceCandidates] at hc
    cases hvalid : validateReference .plugin reference with
    | error e => simp [hvalid] at hc
    | ok u =>
      simp only [hvalid, Except.ok.injEq] at hc
      have hmem : resolved ∈ candidates := by
        rw [← h]
        cases hfind : candidates.find? r.hasPlugin with
        | some found => exact List.mem_of_find?_eq_some hfind
        | none =>
          have hself := self_mem_ancestorNamespaces (namespaceOf caller)
          cases candidates with
          | nil =>
            rw [List.map_eq_nil_iff] at hc
            simp [hc] at hself
          | cons head rest => simp
      rw [← hc] at hmem
      obtain ⟨ns, hns, heq⟩ := List.mem_map.mp hmem
      exact ⟨validateReference_noSeparator hvalid, ns, hns, heq.symm⟩

/-- A step along the chain leaves the namespace as it is or shortens it. -/
theorem length_of_mem_ancestorNamespaces {ns inner : String} (h : ns ∈ ancestorNamespaces inner) :
    ns = inner ∨ ns.length < inner.length := by
  induction hn : inner.length using Nat.strong_induction_on generalizing inner with
  | _ n ih =>
    subst hn
    by_cases hempty : inner = ""
    · subst hempty
      exact Or.inl (by simpa using h)
    · rw [ancestorNamespaces_of_ne hempty] at h
      rcases List.mem_cons.mp h with rfl | h
      · exact Or.inl rfl
      · have hlt := namespaceOf_length hempty
        rcases ih _ hlt h rfl with rfl | hshorter
        · exact Or.inr hlt
        · exact Or.inr (hshorter.trans hlt)

end Resolution

section Cycles

variable {setup : Setup} {k : Kernel} {r : PluginRegistry} {x y : NodeRef}

/-- An invoke stays in its namespace or goes to a shorter one. -/
theorem Denotes.namespace (h : Denotes r x y) :
    DenotesWithin r (namespaceOf x.1) x y ∨
      (namespaceOf y.1).length < (namespaceOf x.1).length := by
  have hedge := h
  cases h with
  | invoke hm ha hn hlit hres =>
    obtain ⟨hsep, ns, hns, rfl⟩ := resolvePluginReference_ok hres
    have hcallee : namespaceOf (qualify ns _) = ns := namespaceOf_qualify hsep
    rcases length_of_mem_ancestorNamespaces hns with heq | hlt
    · exact Or.inl ⟨hedge, rfl, hcallee.trans heq⟩
    · exact Or.inr (by rw [hcallee]; exact hlt)

/-- A path of invokes stays in one namespace or ends in a shorter one. -/
theorem path_namespace (h : Relation.TransGen (Denotes r) x y) :
    (namespaceOf y.1 = namespaceOf x.1 ∧
        Relation.TransGen (DenotesWithin r (namespaceOf x.1)) x y) ∨
      (namespaceOf y.1).length < (namespaceOf x.1).length := by
  induction h with
  | single hxy =>
    rcases hxy.namespace with hwithin | hshorter
    · exact Or.inl ⟨hwithin.2.2, .single hwithin⟩
    · exact Or.inr hshorter
  | tail _ hyz ih =>
    rcases ih with ⟨hns, hpath⟩ | hshorter <;> rcases hyz.namespace with hwithin | hless
    · rw [hns] at hwithin
      exact Or.inl ⟨hwithin.2.2, hpath.tail hwithin⟩
    · exact Or.inr (hns ▸ hless)
    · exact Or.inr (hwithin.2.2 ▸ hshorter)
    · exact Or.inr (hless.trans hshorter)

/-- A cycle of invokes lies in one namespace. -/
theorem cycle_within (h : Relation.TransGen (Denotes r) x x) :
    Relation.TransGen (DenotesWithin r (namespaceOf x.1)) x x := by
  rcases path_namespace h with ⟨-, hpath⟩ | hshorter
  · exact hpath
  · exact absurd hshorter (Nat.lt_irrefl _)

/-- Between root plugins the recorded edge is the edge that dispatch takes. -/
theorem recorded_of_root (hk : Consistent setup k) (h : DenotesWithin k.registry "" x y) :
    EdgeBetween k.registry.invokeEdges x y := by
  obtain ⟨hedge, hroot, -⟩ := h
  cases hedge with
  | @invoke plugin action written target callee m a step hm ha hn hlit hres =>
    have hroot' : namespaceOf plugin = "" := hroot
    obtain ⟨-, met, -, -, -, hedges⟩ := hk.registered plugin m hm
    obtain ⟨-, ns, hns, rfl⟩ := resolvePluginReference_ok hres
    rw [hroot', ancestorNamespaces_root, List.mem_singleton] at hns
    subst hns
    have htarget : stepTarget (aliasResolver met m) step = some (written, target) := by
      simp only [literalInvoke] at hlit
      split at hlit
      · rename_i hinvoke
        obtain ⟨hmem, -⟩ := Option.filter_eq_some_iff.mp hlit
        simp [stepTarget, hinvoke, hmem]
      · cases hlit
    rw [qualify_root]
    exact (hedges action (written, target)).mpr
      ⟨a, ha, namesNode_iff.mpr (Or.inl ⟨step, hn, htarget⟩)⟩

/-- As long as no plugin outside root invokes one of its own namespace, the literal invokes of
the registered actions have no cycle, in every kernel that any calls lead to. -/
theorem literal_invokes_acyclic (hk : k.Reachable setup)
    (hwithin : NoInvokeWithinNamespace k.registry) (x : NodeRef) :
    ¬Relation.TransGen (Denotes k.registry) x x := by
  intro hcycle
  obtain ⟨regs, hmanaged⟩ := managed_of_reachable hk
  have hwhole := cycle_within hcycle
  by_cases hroot : namespaceOf x.1 = ""
  · rw [hroot] at hwhole
    have hrecorded : Acyclic k.registry.invokeEdges := hmanaged.listed.edges ▸ hmanaged.listed.acyclic
    exact hrecorded x (Relation.TransGen.mono
      (fun a b hab => recorded_of_root hmanaged.consistent hab) _ _ hwhole)
  · obtain ⟨first, ⟨hfirst, -, -⟩, -⟩ := Relation.TransGen.head'_iff.mp hwhole
    obtain ⟨last, -, ⟨hlast, hns, -⟩⟩ := Relation.TransGen.tail'_iff.mp hwhole
    -- the start of the cycle has an invoke, so it is registered
    have hregistered : k.registry.hasPlugin x.1 = true := by
      cases hfirst with
      | invoke hm ha hn hlit hres => simp [PluginRegistry.hasPlugin, hm]
    exact hwithin last x hlast (by rwa [hns]) hregistered hns.symm

end Cycles

/-! ### Two plugins that invoke each other -/

def invokeStep (plugin action : String) : StepDef :=
  .new "call" "invoke" (.object [("plugin", .string plugin), ("action", .string action)])

/-- One action, `run`, that invokes `run` of another plugin. -/
def callingManifest (name callee : String) : PluginManifest :=
  { plainManifest name with
    actions := IndexMap.empty.insert "run" (plainAction [invokeStep callee "run"]) }

def callingSetup : Setup :=
  textSetup [("kernel", plainManifest "kernel"), ("ping", callingManifest "ping" "pong"),
    ("pong", callingManifest "pong" "ping")] []

def callingCalls : List Kernel.Call := [.load "team" "ping", .load "team" "pong"]

/-- An invoke of `run` in a plugin of the namespace denotes `run` of the other. -/
theorem denotes_calling {r : PluginRegistry} {plugin callee written : String} {m : PluginManifest}
    (hm : r.getManifest plugin = some m)
    (ha : m.actions.get? "run" = some (plainAction [invokeStep written "run"]))
    (hlit : literalInvoke (invokeStep written "run") = some (written, "run"))
    (hres : r.resolvePluginReference plugin written = .ok callee) :
    Denotes r (plugin, "run") (callee, "run") :=
  .invoke hm ha (.top (List.mem_singleton_self _)) hlit hres

/-- Both are loaded into a namespace, and each invokes the other. -/
theorem invoke_cycle_in_namespace : ∃ k : Kernel, k.Reachable callingSetup ∧
    Relation.TransGen (Denotes k.registry) ("team/ping", "run") ("team/ping", "run") := by
  have hrun : ∃ k, Kernel.boot callingSetup "kernel" = .ok k ∧
      (∃ m, (k.afterAll callingSetup callingCalls).registry.getManifest "team/ping" = some m ∧
        m.actions.get? "run" = some (plainAction [invokeStep "pong" "run"])) ∧
      (∃ m, (k.afterAll callingSetup callingCalls).registry.getManifest "team/pong" = some m ∧
        m.actions.get? "run" = some (plainAction [invokeStep "ping" "run"])) ∧
      (k.afterAll callingSetup callingCalls).registry.resolvePluginReference "team/ping" "pong" =
        .ok "team/pong" ∧
      (k.afterAll callingSetup callingCalls).registry.resolvePluginReference "team/pong" "ping" =
        .ok "team/ping" := ⟨_, rfl, ⟨_, rfl, rfl⟩, ⟨_, rfl, rfl⟩, by decide, by decide⟩
  obtain ⟨k, hboot, ⟨m, hping, hrun⟩, ⟨m', hpong, hrun'⟩, hres, hres'⟩ := hrun
  have hcalls := Kernel.reachable_afterAll hboot callingCalls
  have hthere := denotes_calling hping hrun (by decide) hres
  have hback := denotes_calling hpong hrun' (by decide) hres'
  exact ⟨_, hcalls, .tail (.single hthere) hback⟩

/-- The same plugins in the root namespace are refused, and what is there has no cycle. -/
theorem literal_invokes_acyclic_root : ∃ k : Kernel, k.Reachable callingSetup ∧
    k.registry.hasPlugin "ping" = true ∧ k.registry.hasPlugin "pong" = false ∧
    ∀ x, ¬Relation.TransGen (Denotes k.registry) x x := by
  have hrun : ∃ k, Kernel.boot callingSetup "kernel" = .ok k ∧
      (k.afterAll callingSetup [.load "" "ping", .load "" "pong"]).registry.manifests.map
        Prod.fst = ["kernel", "ping"] := ⟨_, rfl, by decide⟩
  obtain ⟨k, hboot, hmanifests⟩ := hrun
  have hcalls := Kernel.reachable_afterAll hboot [.load "" "ping", .load "" "pong"]
  generalize k.afterAll callingSetup [.load "" "ping", .load "" "pong"] = k' at hmanifests hcalls
  have hkeys : ∀ plugin, (k'.registry.getManifest plugin).isSome ↔ plugin ∈ ["kernel", "ping"] := by
    intro plugin
    rw [PluginRegistry.getManifest, AssocMap.lookup_isSome_iff_mem_keys, hmanifests]
  refine ⟨k', hcalls, (hkeys "ping").mpr (by decide), ?_, literal_invokes_acyclic hcalls ?_⟩
  · rw [PluginRegistry.hasPlugin, Bool.eq_false_iff]
    exact fun hpong => absurd ((hkeys "pong").mp hpong) (by decide)
  · intro x y hedge houtside
    cases hedge with
    | @invoke plugin _ _ _ _ m _ _ hm _ _ _ _ =>
      have hmem := (hkeys plugin).mp (by rw [hm]; rfl)
      have hroot : ∀ name ∈ ["kernel", "ping"], namespaceOf name = "" := by decide
      exact absurd (hroot plugin hmem) houtside

end Gwead
