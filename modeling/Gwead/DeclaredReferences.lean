import Gwead.Dispatch
import Gwead.RoleCandidates
import Gwead.StepTypeResolution

/-!
# Declared references at load and at run time

Registration looks a reference's plugin up by the registry key that is written, and a step type's
definition too; at run time both are looked for along the plugin's chain.
-/

namespace Gwead

open Identity Registration

/-- The manifest under the qualified name it is registered by. -/
def PluginManifest.qualifiedIn (source : PluginManifest) (ns : String) : PluginManifest :=
  { source with name := qualify ns source.name }

/-- The kernel with a plugin's manifest, grants, step types and aliases in it, as it would be once
the plugin is registered. -/
def Kernel.preview (k : Kernel) (ns : String) (source : PluginManifest)
    (permissions : List Permission) : Kernel :=
  k.commit ns ⟨source.qualifiedIn ns, permissions, [], [], [], source.stepTypeDefs, []⟩

/-- The checks that come before the references are looked at. -/
structure BeingRegistered (setup : Setup) (k : Kernel) (ns : String) (source : PluginManifest)
    (permissions : List Permission) : Prop where
  namespaced : checkNamespace ns = .ok ()
  localName : validateName .plugin source.name = .ok ()
  notRegistered : k.registry.hasPlugin (qualify ns source.name) = false
  permissions : Permission.parseManifestPermissions source.permissions
    setup.appPermissionCategories = .ok permissions

/-- A top-level step of an action of the plugin, whose type, as the runtime would resolve it for the
plugin in some order of its tables, declares a reference with a literal target. -/
structure DeclaredPair (setup : Setup) (k : Kernel) (ns : String) (source : PluginManifest)
    (permissions : List Permission) (actionName : String) (step : StepDef)
    (reference : StepReference) (t : NodeRef) : Prop where
  registering : BeingRegistered setup k ns source permissions
  inAction : ∃ action, source.actions.get? actionName = some action ∧ step ∈ action.steps
  definition : ∃ defs aliases key owner definition,
    defs.Perm (k.preview ns source permissions).registry.stepTypeDefs ∧
    aliases.Perm (k.preview ns source permissions).registry.stepTypeAliases ∧
    (((k.preview ns source permissions).registry.iterated defs aliases).stepTypeAccessFor
      (qualify ns source.name)).resolve step.stepType = some key ∧
    (k.preview ns source permissions).registry.getStepTypeDef key = some (owner, definition) ∧
    reference ∈ definition.references
  literal : literalReferenceTarget step.params reference = some t

/-- What the check makes of one reference of one step: nothing, if the definition that it finds for
the step type does not declare it. -/
def pairCheck (k : Kernel) (m : PluginManifest) (actionName : String) (step : StepDef)
    (reference : StepReference) : Except DeclaredReferenceError (List InvokeEdge) :=
  match defResolver k m step.stepType with
  | none => .ok []
  | some definition =>
    if reference ∈ definition.references then
      collectReference m.name actionName (pluginExists k m) (actionExists k m) step reference
    else .ok []

/-- A registered plugin, or the one being registered, with such an action. -/
def HasAction (k : Kernel) (m : PluginManifest) (plugin action : String) : Prop :=
  (plugin = m.name ∧ m.actions.contains action = true) ∨
    (k.registry.getAction plugin action).isSome = true

/-- The check accepts a pair exactly if the plugin's own reference finds the action, and the edge it
adds is to what is found. -/
structure ResolvesAlike (k : Kernel) (ns : String) (source : PluginManifest)
    (permissions : List Permission) (actionName : String) (step : StepDef)
    (reference : StepReference) (t : NodeRef) : Prop where
  verdict : (∃ edges, pairCheck k (source.qualifiedIn ns) actionName step reference = .ok edges) ↔
    ∃ q, (k.preview ns source permissions).registry.resolvePluginReference
      (qualify ns source.name) t.1 = .ok q ∧ HasAction k (source.qualifiedIn ns) q t.2
  edge : ∀ edges, pairCheck k (source.qualifiedIn ns) actionName step reference = .ok edges →
    ∃ q, (k.preview ns source permissions).registry.resolvePluginReference
        (qualify ns source.name) t.1 = .ok q ∧
      edges = [edgeTo (qualify ns source.name) actionName (q, t.2)]

/-- The definition that is found by the written step type declares the reference; and either the
written plugin is a plain name that no plugin of the plugin's own namespace has, root apart, or
neither what has the written name as its key nor that plugin has the action. -/
structure FoundAsWritten (k : Kernel) (ns : String) (source : PluginManifest) (step : StepDef)
    (reference : StepReference) (t : NodeRef) : Prop where
  definition : ∃ d, defResolver k (source.qualifiedIn ns) step.stepType = some d ∧
    reference ∈ d.references
  target :
    (validateName .plugin t.1 = .ok () ∧
      (ns = "" ∨ qualify ns t.1 ≠ qualify ns source.name ∧
        k.registry.hasPlugin (qualify ns t.1) = false)) ∨
    (¬HasAction k (source.qualifiedIn ns) t.1 t.2 ∧
      (validateName .plugin t.1 = .ok () →
        ¬HasAction k (source.qualifiedIn ns) (qualify ns t.1) t.2))

/-! ### The walk over the references -/

/-- What the walk over an action's steps collects is made of what it makes of each pair. -/
theorem collectDeclaredReferences_pair {k : Kernel} {m : PluginManifest} {actionName : String}
    {steps : List StepDef} {edges : List InvokeEdge}
    (h : collectDeclaredReferences m.name actionName (defResolver k m) (pluginExists k m)
      (actionExists k m) steps = .ok edges) {step : StepDef} (hstep : step ∈ steps)
    (reference : StepReference) :
    ∃ out, pairCheck k m actionName step reference = .ok out ∧ ∀ e ∈ out, e ∈ edges := by
  obtain ⟨stepEdges, hstepEdges⟩ := collectAll_ok h step hstep
  rw [pairCheck]
  cases hdef : defResolver k m step.stepType with
  | none => exact ⟨[], rfl, nofun⟩
  | some definition =>
    simp only [hdef] at hstepEdges ⊢
    by_cases href : reference ∈ definition.references
    · rw [if_pos href]
      obtain ⟨out, hout⟩ := collectAll_ok hstepEdges reference href
      refine ⟨out, hout, fun e he => ?_⟩
      have hstepEdge := (mem_collectAll hstepEdges).mpr ⟨reference, href, out, hout, he⟩
      refine (mem_collectAll h).mpr ⟨step, hstep, stepEdges, ?_, hstepEdge⟩
      simp only [hdef]
      exact hstepEdges
    · rw [if_neg href]
      exact ⟨[], rfl, nofun⟩

/-! ### Both lookups -/

section Lookups

variable {setup : Setup} {k : Kernel} {ns : String} {source : PluginManifest}
  {permissions : List Permission} {actionName : String} {step : StepDef}
  {reference : StepReference} {t : NodeRef}

theorem preview_hasPlugin (k : Kernel) (ns : String) (source : PluginManifest)
    (permissions : List Permission) (plugin : String) :
    (k.preview ns source permissions).registry.hasPlugin plugin =
      (plugin == qualify ns source.name || k.registry.hasPlugin plugin) := by
  have hmanifests : (k.preview ns source permissions).registry.manifests =
      AssocMap.put (qualify ns source.name) (source.qualifiedIn ns) k.registry.manifests := by
    rw [Kernel.preview, Kernel.commit_eq k ns _ _ rfl]
    rfl
  rw [PluginRegistry.hasPlugin, PluginRegistry.getManifest, hmanifests, AssocMap.lookup_put]
  cases heq : plugin == qualify ns source.name <;> simp [PluginRegistry.hasPlugin,
    PluginRegistry.getManifest]

theorem BeingRegistered.namespaceOf_name (h : BeingRegistered setup k ns source permissions) :
    namespaceOf (qualify ns source.name) = ns :=
  namespaceOf_qualify (validateName_noSeparator h.localName)

/-- A plain name is not that of a plugin outside of root. -/
theorem BeingRegistered.ne_name (h : BeingRegistered setup k ns source permissions) {name : String}
    (hns : ns ≠ "") (hplain : validateName .plugin name = .ok ()) :
    name ≠ qualify ns source.name := by
  intro heq
  have hroot : namespaceOf name = "" := by
    simp [namespaceOf, rsplitOnce_eq_none.mpr (validateName_noSeparator hplain)]
  rw [heq, h.namespaceOf_name] at hroot
  exact hns hroot

/-- In root a plain name denotes itself. -/
theorem BeingRegistered.resolve_root (h : BeingRegistered setup k ns source permissions)
    (hns : ns = "") {name : String} (hplain : validateName .plugin name = .ok ()) :
    (k.preview ns source permissions).registry.resolvePluginReference (qualify ns source.name)
      name = .ok name := by
  have hvalid : validateReference .plugin name = .ok () := hplain
  subst hns
  simp only [PluginRegistry.resolvePluginReference, pluginReferenceCandidates, hvalid,
    h.namespaceOf_name, ancestorNamespaces_root, List.map_singleton, List.headD_cons]
  rw [qualify_root]
  cases hfound : (k.preview "" source permissions).registry.hasPlugin name <;> simp [hfound]

/-- Elsewhere it denotes the plugin of that name in the namespace itself, but for one in root where
the namespace has none. -/
theorem BeingRegistered.resolve_nested (h : BeingRegistered setup k ns source permissions)
    (hns : ns ≠ "") {name : String} (hplain : validateName .plugin name = .ok ()) :
    (k.preview ns source permissions).registry.resolvePluginReference (qualify ns source.name)
      name = .ok (if qualify ns name ≠ qualify ns source.name ∧
          k.registry.hasPlugin (qualify ns name) = false ∧ k.registry.hasPlugin name = true then name
        else qualify ns name) := by
  have hvalid : validateReference .plugin name = .ok () := hplain
  have hchain : ancestorNamespaces ns = [ns, ""] :=
    ancestorNamespaces_plain hns ((checkNamespace_plain h.namespaced).resolve_left hns)
  have hown : (name == qualify ns source.name) = false :=
    beq_eq_false_iff_ne.mpr (h.ne_name hns hplain)
  simp only [PluginRegistry.resolvePluginReference, pluginReferenceCandidates, hvalid,
    h.namespaceOf_name, hchain, List.map_cons, List.map_nil, qualify_root, List.find?_cons,
    List.find?_nil, preview_hasPlugin, hown, Bool.false_or, List.headD_cons]
  by_cases hself : qualify ns name = qualify ns source.name
  · simp [hself]
  · have hne : (qualify ns name == qualify ns source.name) = false :=
      beq_eq_false_iff_ne.mpr hself
    cases hnear : k.registry.hasPlugin (qualify ns name) <;>
      cases habove : k.registry.hasPlugin name <;> simp [hself, hne]

/-- A name that is not plain denotes nothing. -/
theorem resolve_invalid {r : PluginRegistry} {caller name q : String}
    (hplain : ¬validateName .plugin name = .ok ()) :
    r.resolvePluginReference caller name ≠ .ok q := by
  rw [PluginRegistry.resolvePluginReference, pluginReferenceCandidates, validateReference]
  cases hname : validateName .plugin name with
  | error e => rintro ⟨⟩
  | ok u => exact absurd hname hplain

/-- Only a plugin that is registered, or the one being registered, has an action. -/
theorem hasAction_registered (hk : k.Reachable setup) {m : PluginManifest} {plugin action : String}
    (hne : plugin ≠ m.name) (h : HasAction k m plugin action) :
    k.registry.hasPlugin plugin = true := by
  obtain ⟨regs, hmanaged⟩ := managed_of_reachable hk
  rcases h with ⟨heq, -⟩ | hsome
  · exact absurd heq hne
  · obtain ⟨entry, hentry⟩ := Option.isSome_iff_exists.mp hsome
    obtain ⟨m', hm', -⟩ := (hmanaged.consistent.actions plugin action entry).mp hentry
    simp [PluginRegistry.hasPlugin, hm']

/-- The check accepts a reference it looks at if what has the written name as its key has the
action, and adds the edge to it. -/
theorem collectReference_iff (hk : k.Reachable setup)
    (h : BeingRegistered setup k ns source permissions)
    (ht : literalReferenceTarget step.params reference = some t) {edges : List InvokeEdge} :
    collectReference (qualify ns source.name) actionName (pluginExists k (source.qualifiedIn ns))
        (actionExists k (source.qualifiedIn ns)) step reference = .ok edges ↔
      HasAction k (source.qualifiedIn ns) t.1 t.2 ∧
        edges = [edgeTo (qualify ns source.name) actionName t] := by
  have hknown : pluginExists k (source.qualifiedIn ns) t.1 = true ∧
      actionExists k (source.qualifiedIn ns) t.1 t.2 = true ↔
        HasAction k (source.qualifiedIn ns) t.1 t.2 := by
    have hname : (source.qualifiedIn ns).name = qualify ns source.name := rfl
    by_cases hself : t.1 = qualify ns source.name
    · have hnone : k.registry.getAction (qualify ns source.name) t.2 = none := by
        obtain ⟨regs, hmanaged⟩ := managed_of_reachable hk
        rw [Option.eq_none_iff_forall_ne_some]
        intro entry hentry
        obtain ⟨m', hm', -⟩ := (hmanaged.consistent.actions _ _ _).mp hentry
        have hfree := h.notRegistered
        simp [PluginRegistry.hasPlugin, hm'] at hfree
      simp [pluginExists, actionExists, HasAction, hname, hself, hnone]
    · constructor
      · rintro ⟨-, haction⟩
        rw [actionExists, hname, if_neg hself] at haction
        exact Or.inr haction
      · intro haction
        have hplugin := hasAction_registered hk (hname ▸ hself) haction
        rcases haction with ⟨heq, -⟩ | hsome
        · exact absurd heq hself
        · rw [pluginExists, actionExists, hname, if_neg hself, hplugin, Bool.or_true]
          exact ⟨rfl, hsome⟩
  rw [collectReference, ht, ← hknown]
  cases hplugin : pluginExists k (source.qualifiedIn ns) t.1 with
  | false => simp [hplugin]
  | true =>
    cases haction : actionExists k (source.qualifiedIn ns) t.1 t.2 with
    | false => simp [hplugin, haction]
    | true =>
      simp only [hplugin, haction, not_true, if_false, and_self, true_and, Except.ok.injEq]
      exact eq_comm

/-- A pair is looked at if the definition found for the step type declares it. -/
theorem pairCheck_iff (hk : k.Reachable setup)
    (h : BeingRegistered setup k ns source permissions)
    (ht : literalReferenceTarget step.params reference = some t)
    (hdef : ∃ d, defResolver k (source.qualifiedIn ns) step.stepType = some d ∧
      reference ∈ d.references) {edges : List InvokeEdge} :
    pairCheck k (source.qualifiedIn ns) actionName step reference = .ok edges ↔
      HasAction k (source.qualifiedIn ns) t.1 t.2 ∧
        edges = [edgeTo (qualify ns source.name) actionName t] := by
  obtain ⟨d, hd, href⟩ := hdef
  rw [pairCheck, hd]
  simp only [if_pos href]
  exact collectReference_iff hk h ht

theorem pairCheck_unseen {m : PluginManifest}
    (hdef : ¬∃ d, defResolver k m step.stepType = some d ∧ reference ∈ d.references) :
    pairCheck k m actionName step reference = .ok [] := by
  rw [pairCheck]
  cases hd : defResolver k m step.stepType with
  | none => rfl
  | some d =>
    simp only
    rw [if_neg fun href => hdef ⟨d, hd, href⟩]

/-- Where the reference denotes a plugin, what has the written name as its key must be as good. -/
theorem resolvesAlike_iff (hk : k.Reachable setup)
    (h : BeingRegistered setup k ns source permissions)
    (ht : literalReferenceTarget step.params reference = some t)
    (hdef : ∃ d, defResolver k (source.qualifiedIn ns) step.stepType = some d ∧
      reference ∈ d.references) {q : String}
    (hq : (k.preview ns source permissions).registry.resolvePluginReference
      (qualify ns source.name) t.1 = .ok q) :
    ResolvesAlike k ns source permissions actionName step reference t ↔
      (HasAction k (source.qualifiedIn ns) t.1 t.2 ↔ HasAction k (source.qualifiedIn ns) q t.2) ∧
        (HasAction k (source.qualifiedIn ns) t.1 t.2 → q = t.1) := by
  have hcheck := fun edges => @pairCheck_iff _ _ _ _ _ actionName _ _ _ hk h ht hdef edges
  have hfound : (∃ q', (k.preview ns source permissions).registry.resolvePluginReference
      (qualify ns source.name) t.1 = .ok q' ∧ HasAction k (source.qualifiedIn ns) q' t.2) ↔
      HasAction k (source.qualifiedIn ns) q t.2 := by
    constructor
    · rintro ⟨q', hq', haction⟩
      rwa [Except.ok.inj (hq.symm.trans hq')]
    · exact fun haction => ⟨q, hq, haction⟩
  constructor
  · intro halike
    have hverdict := halike.verdict
    rw [hfound] at hverdict
    refine ⟨⟨fun hraw => ?_, fun hnear => ?_⟩, fun hraw => ?_⟩
    · exact hverdict.mp ⟨_, (hcheck _).mpr ⟨hraw, rfl⟩⟩
    · obtain ⟨edges, hedges⟩ := hverdict.mpr hnear
      exact ((hcheck edges).mp hedges).1
    · obtain ⟨q', hq', hedge⟩ := halike.edge _ ((hcheck _).mpr ⟨hraw, rfl⟩)
      rw [← Except.ok.inj (hq.symm.trans hq')] at hedge
      have hto := congrArg InvokeEdge.to (List.singleton_inj.mp hedge)
      exact (congrArg Prod.fst hto).symm
  · rintro ⟨hsame, hraw⟩
    refine ⟨?_, ?_⟩
    · rw [hfound, ← hsame]
      constructor
      · rintro ⟨edges, hedges⟩
        exact ((hcheck edges).mp hedges).1
      · exact fun haction => ⟨_, (hcheck _).mpr ⟨haction, rfl⟩⟩
    · intro edges hedges
      obtain ⟨haction, rfl⟩ := (hcheck edges).mp hedges
      exact ⟨q, hq, by rw [hraw haction]⟩

/-- A reference of a plugin outside of root is as it is written where its namespace has no plugin of
that name, or where it leads nowhere either way. -/
theorem resolvesAlike_nested (hk : k.Reachable setup)
    (h : BeingRegistered setup k ns source permissions) (hns : ns ≠ "")
    (hplain : validateName .plugin t.1 = .ok ())
    (ht : literalReferenceTarget step.params reference = some t)
    (hdef : ∃ d, defResolver k (source.qualifiedIn ns) step.stepType = some d ∧
      reference ∈ d.references) :
    ResolvesAlike k ns source permissions actionName step reference t ↔
      (qualify ns t.1 ≠ qualify ns source.name ∧
          k.registry.hasPlugin (qualify ns t.1) = false) ∨
        (¬HasAction k (source.qualifiedIn ns) t.1 t.2 ∧
          ¬HasAction k (source.qualifiedIn ns) (qualify ns t.1) t.2) := by
  rw [resolvesAlike_iff hk h ht hdef (h.resolve_nested hns hplain)]
  by_cases hfree : qualify ns t.1 ≠ qualify ns source.name ∧
      k.registry.hasPlugin (qualify ns t.1) = false
  · refine ⟨fun _ => Or.inl hfree, fun _ => ?_⟩
    cases habove : k.registry.hasPlugin t.1 with
    | true => simp [hfree.1, hfree.2]
    | false =>
      -- nobody has the name, in root or in the namespace
      have hraw : ¬HasAction k (source.qualifiedIn ns) t.1 t.2 := by
        intro haction
        rw [hasAction_registered hk (h.ne_name hns hplain) haction] at habove
        cases habove
      have hnear : ¬HasAction k (source.qualifiedIn ns) (qualify ns t.1) t.2 := by
        intro haction
        have hplugin := hasAction_registered hk hfree.1 haction
        rw [hfree.2] at hplugin
        cases hplugin
      simp [hraw, hnear]
  · have hnear : ¬(qualify ns t.1 ≠ qualify ns source.name ∧
        k.registry.hasPlugin (qualify ns t.1) = false ∧ k.registry.hasPlugin t.1 = true) :=
      fun hall => hfree ⟨hall.1, hall.2.1⟩
    rw [if_neg hnear]
    have hne : qualify ns t.1 ≠ t.1 := by
      intro heq
      have hroot : namespaceOf t.1 = "" := by
        simp [namespaceOf, rsplitOnce_eq_none.mpr (validateName_noSeparator hplain)]
      rw [← heq, namespaceOf_qualify (validateName_noSeparator hplain)] at hroot
      exact hns hroot
    constructor
    · rintro ⟨hsame, hraw⟩
      have hnot : ¬HasAction k (source.qualifiedIn ns) t.1 t.2 := fun haction => hne (hraw haction)
      exact Or.inr ⟨hnot, fun haction => hnot (hsame.mpr haction)⟩
    · rintro (hfree' | ⟨hraw, hnear⟩)
      · exact absurd hfree' hfree
      · exact ⟨⟨fun haction => absurd haction hraw, fun haction => absurd haction hnear⟩,
          fun haction => absurd haction hraw⟩

/-- In every reachable kernel and for every plugin that is being registered: a reference is checked as
it would resolve exactly when it is found as it is written. -/
theorem declared_references_iff (hk : k.Reachable setup)
    (h : DeclaredPair setup k ns source permissions actionName step reference t) :
    ResolvesAlike k ns source permissions actionName step reference t ↔
      FoundAsWritten k ns source step reference t := by
  have hreg := h.registering
  by_cases hdef : ∃ d, defResolver k (source.qualifiedIn ns) step.stepType = some d ∧
      reference ∈ d.references
  · have hfound : FoundAsWritten k ns source step reference t ↔ _ :=
      ⟨fun hwritten => hwritten.target, fun htarget => ⟨hdef, htarget⟩⟩
    rw [hfound]
    by_cases hplain : validateName .plugin t.1 = .ok ()
    · by_cases hns : ns = ""
      · rw [resolvesAlike_iff hk hreg h.literal hdef (hreg.resolve_root hns hplain)]
        simp [hplain, hns]
      · rw [resolvesAlike_nested hk hreg hns hplain h.literal hdef]
        simp [hplain, hns]
    · -- the reference denotes nothing, so the check must refuse it
      have hcheck := fun edges =>
        @pairCheck_iff _ _ _ _ _ actionName _ _ _ hk hreg h.literal hdef edges
      constructor
      · intro halike
        refine Or.inr ⟨fun haction => ?_, fun hvalid => absurd hvalid hplain⟩
        obtain ⟨q, hq, -⟩ := halike.verdict.mp ⟨_, (hcheck _).mpr ⟨haction, rfl⟩⟩
        exact resolve_invalid hplain hq
      · rintro (⟨hvalid, -⟩ | ⟨hnone, -⟩)
        · exact absurd hvalid hplain
        · refine ⟨⟨?_, ?_⟩, ?_⟩
          · rintro ⟨edges, hedges⟩
            exact absurd ((hcheck edges).mp hedges).1 hnone
          · rintro ⟨q, hq, -⟩
            exact absurd hq (resolve_invalid hplain)
          · intro edges hedges
            exact absurd ((hcheck edges).mp hedges).1 hnone
  · -- a reference that is not looked at adds no edge
    refine ⟨fun halike => ?_, fun hwritten => absurd hwritten.definition hdef⟩
    obtain ⟨q, -, hedge⟩ := halike.edge _ (pairCheck_unseen hdef)
    cases hedge

end Lookups

/-! ### A desk that refers to notes -/

def deskReference : StepReference := ⟨"target", "call"⟩

def deskStep : StepDef :=
  .new "go" "desk.use" (.object [("target", .string "notes"), ("call", .string "save")])

def deskManifest : PluginManifest :=
  { plainManifest "desk" with
    stepTypeDefs := [⟨"desk.use", false, none, [deskReference]⟩]
    actions := IndexMap.empty.insert "run" (plainAction [deskStep]) }

/-- The desk is registered into a team, and its step type is its own. -/
theorem declaredPair_desk {k : Kernel} (hfree : k.registry.hasPlugin "team/desk" = false)
    (hresolve : ((k.preview "team" deskManifest []).registry.stepTypeAccessFor
      "team/desk").resolve "desk.use" = some "team/desk.use")
    (hdef : (k.preview "team" deskManifest []).registry.getStepTypeDef "team/desk.use" =
      some ("team/desk", ⟨"desk.use", false, none, [deskReference]⟩)) :
    DeclaredPair notesSetup k "team" deskManifest [] "run" deskStep deskReference
      ("notes", "save") where
  registering := ⟨by decide, by decide, hfree, by decide⟩
  inAction := ⟨plainAction [deskStep], by decide, List.mem_singleton_self _⟩
  definition := ⟨_, _, _, _, _, List.Perm.refl _, List.Perm.refl _, hresolve, hdef,
    List.mem_singleton_self _⟩
  literal := by decide

/-- Notes in root are found either way by a desk of a team. -/
theorem declared_references_root : ∃ k : Kernel, k.Reachable notesSetup ∧
    DeclaredPair notesSetup k "team" deskManifest [] "run" deskStep deskReference
      ("notes", "save") ∧
    ResolvesAlike k "team" deskManifest [] "run" deskStep deskReference ("notes", "save") := by
  have hkernel : ∃ k₀ k : Kernel, Kernel.boot notesSetup "kernel" = .ok k₀ ∧
      k = k₀.afterAll notesSetup [.load "" "notes"] ∧
      k.registry.hasPlugin "team/desk" = false ∧
      ((k.preview "team" deskManifest []).registry.stepTypeAccessFor
        "team/desk").resolve "desk.use" = some "team/desk.use" ∧
      (k.preview "team" deskManifest []).registry.getStepTypeDef "team/desk.use" =
        some ("team/desk", ⟨"desk.use", false, none, [deskReference]⟩) ∧
      k.registry.hasPlugin "team/notes" = false :=
    ⟨_, _, rfl, rfl, by decide, by decide, by decide, by decide⟩
  obtain ⟨k₀, k, hboot, hk, hfree, hresolve, hdef, hnone⟩ := hkernel
  have hreach : k.Reachable notesSetup := hk ▸ Kernel.reachable_afterAll hboot _
  have hpair := declaredPair_desk hfree hresolve hdef
  refine ⟨k, hreach, hpair, (declared_references_iff hreach hpair).mpr ⟨⟨_, rfl, ?_⟩, ?_⟩⟩
  · exact List.mem_singleton_self _
  · exact Or.inl ⟨by decide, Or.inr ⟨by decide, hnone⟩⟩

/-- Notes of the desk's own team are refused, though the reference resolves to them. -/
theorem reference_refused : ∃ k : Kernel, k.Reachable notesSetup ∧
    DeclaredPair notesSetup k "team" deskManifest [] "run" deskStep deskReference
      ("notes", "save") ∧
    (k.preview "team" deskManifest []).registry.resolvePluginReference "team/desk" "notes" =
      .ok "team/notes" ∧
    HasAction k (deskManifest.qualifiedIn "team") "team/notes" "save" ∧
    pairCheck k (deskManifest.qualifiedIn "team") "run" deskStep deskReference =
      .error (.unknownPlugin "run" "desk.use" "notes" "target") ∧
    ¬ResolvesAlike k "team" deskManifest [] "run" deskStep deskReference ("notes", "save") := by
  have hkernel : ∃ k₀ k : Kernel, Kernel.boot notesSetup "kernel" = .ok k₀ ∧
      k = k₀.afterAll notesSetup [.load "team" "notes"] ∧
      k.registry.hasPlugin "team/desk" = false ∧
      ((k.preview "team" deskManifest []).registry.stepTypeAccessFor
        "team/desk").resolve "desk.use" = some "team/desk.use" ∧
      (k.preview "team" deskManifest []).registry.getStepTypeDef "team/desk.use" =
        some ("team/desk", ⟨"desk.use", false, none, [deskReference]⟩) ∧
      (k.preview "team" deskManifest []).registry.resolvePluginReference "team/desk" "notes" =
        .ok "team/notes" ∧
      (k.registry.getAction "team/notes" "save").isSome = true ∧
      pairCheck k (deskManifest.qualifiedIn "team") "run" deskStep deskReference =
        .error (.unknownPlugin "run" "desk.use" "notes" "target") :=
    ⟨_, _, rfl, rfl, by decide, by decide, by decide, by decide, by decide, by decide⟩
  obtain ⟨k₀, k, hboot, hk, hfree, hresolve, hdef, hnear, haction, hcheck⟩ := hkernel
  refine ⟨k, hk ▸ Kernel.reachable_afterAll hboot _, declaredPair_desk hfree hresolve hdef, hnear,
    Or.inr haction, hcheck, fun halike => ?_⟩
  obtain ⟨edges, hedges⟩ := halike.verdict.mpr ⟨"team/notes", hnear, Or.inr haction⟩
  cases hcheck.symm.trans hedges

end Gwead
