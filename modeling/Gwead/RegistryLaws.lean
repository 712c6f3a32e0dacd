import Gwead.ImplAuthority

/-!
# The registry as a function of its manifests

What the tables say is settled by the manifests in force: neither the order they came in nor what
has come and gone leaves a trace.  Only roles and invoke edges remember, which are resolved against
what was there at the time.  And the tables are closed: whatever one of them names is there.
-/

namespace Gwead

open Identity Registration

/-! ### No history -/

/-- Every lookup answers the same, and an event has the same subscribers. -/
structure SameTables (k k' : Kernel) : Prop where
  actions : ∀ plugin action, k.registry.getAction plugin action = k'.registry.getAction plugin action
  wasmModules : ∀ plugin name,
    k.registry.getPluginWasmModule plugin name = k'.registry.getPluginWasmModule plugin name
  stepTypeDefs : ∀ key, k.registry.getStepTypeDef key = k'.registry.getStepTypeDef key
  stepTypeImpls : ∀ key selector,
    k.registry.stepTypeImplOwner key selector = k'.registry.stepTypeImplOwner key selector
  stepTypeAliases : ∀ key,
    k.registry.stepTypeAliasCandidates key = k'.registry.stepTypeAliasCandidates key
  permissions : ∀ plugin, k.registry.permissions.lookup plugin = k'.registry.permissions.lookup plugin
  importOwners : ∀ key, k.stepImportOwners.lookup key = k'.stepImportOwners.lookup key
  imports : ∀ name, k.additionalImports.lookup name = k'.additionalImports.lookup name
  subscribers : ∀ event node,
    node ∈ k.registry.subscribersFor event ↔ node ∈ k'.registry.subscribersFor event

section History

variable {setup : Setup} {k k' : Kernel}

theorem sameTables_of_consistent (hk : Consistent setup k) (hk' : Consistent setup k')
    (hsame : ∀ plugin, k.registry.getManifest plugin = k'.registry.getManifest plugin) :
    SameTables k k' := by
  constructor
  case actions =>
    intro plugin action
    apply Option.ext
    intro entry
    rw [hk.actions, hk'.actions, hsame]
  case wasmModules =>
    intro plugin name
    apply Option.ext
    intro compiled
    rw [hk.wasmModules, hk'.wasmModules, hsame]
  case stepTypeDefs =>
    intro key
    apply Option.ext
    rintro ⟨plugin, definition⟩
    rw [hk.stepTypeDefs, hk'.stepTypeDefs, hsame]
  case stepTypeImpls =>
    intro key selector
    apply Option.ext
    rintro ⟨plugin, wasmModule⟩
    rw [hk.stepTypeImpls, hk'.stepTypeImpls, hsame]
  case stepTypeAliases =>
    intro key
    apply Option.ext
    rintro ⟨plugin, action⟩
    rw [hk.stepTypeAliases, hk'.stepTypeAliases, hsame]
  case permissions =>
    intro plugin
    apply Option.ext
    intro perms
    rw [hk.permissions, hk'.permissions, hsame]
  case importOwners =>
    intro key
    apply Option.ext
    intro plugin
    rw [hk.importOwners, hk'.importOwners, hsame]
  case imports =>
    intro name
    apply Option.ext
    intro body
    have hkey : ∀ {k₁ : Kernel}, Consistent setup k₁ → k₁.additionalImports.lookup name = some body →
        ∃ key, name = Kernel.importName key := fun h => h.importsOnly name body
    constructor
    · intro h
      obtain ⟨key, rfl⟩ := hkey hk h
      simpa only [hk.imports, hk'.imports, hsame] using h
    · intro h
      obtain ⟨key, rfl⟩ := hkey hk' h
      simpa only [hk.imports, hk'.imports, hsame] using h
  case subscribers =>
    rintro event ⟨plugin, action⟩
    rw [hk.subscriptions, hk'.subscriptions, hsame]

/-- Two kernels with the same manifests in force have the same tables, however each came by them. -/
theorem tables_history_free (hk : k.Reachable setup) (hk' : k'.Reachable setup)
    (hsame : ∀ plugin, k.registry.getManifest plugin = k'.registry.getManifest plugin) :
    SameTables k k' := by
  obtain ⟨regs, hmanaged⟩ := managed_of_reachable hk
  obtain ⟨regs', hmanaged'⟩ := managed_of_reachable hk'
  exact sameTables_of_consistent hmanaged.consistent hmanaged'.consistent hsame

theorem Kernel.Reachable.then (hk : k.Reachable setup) (calls : List Kernel.Call) :
    (k.afterAll setup calls).Reachable setup := by
  obtain ⟨intrinsics, k₀, before, hboot, rfl⟩ := hk.afterAll
  rw [← Kernel.afterAll_append]
  exact Kernel.reachable_afterAll hboot _

/-- The load would go through. -/
def Loads (setup : Setup) (k : Kernel) (ns json : String) : Prop :=
  ∃ k' handle, Kernel.loadManifest setup k json ns false = .ok (k', handle)

/-- The manifest that a text puts in force. -/
def manifestOf (setup : Setup) (ns json : String) : Option PluginManifest :=
  match Kernel.classifyManifest setup json with
  | .ok (.plugin m) => some { m with name := qualify ns m.name }
  | _ => none

/-- A load puts the manifest of its text under its name, which was free. -/
theorem Loads.manifests {ns json : String} (h : Loads setup k ns json) :
    (∀ plugin, (k.after setup (.load ns json)).registry.getManifest plugin =
      if (manifestOf setup ns json).map PluginManifest.name = some plugin then
        manifestOf setup ns json
      else k.registry.getManifest plugin) ∧
    ∀ m, manifestOf setup ns json = some m → k.registry.getManifest m.name = none := by
  obtain ⟨k', handle, hload⟩ := h
  rw [Kernel.after, hload]
  unfold Kernel.loadManifest at hload
  cases hreg : Kernel.registerClassifiedManifest setup k json ns false with
  | error e =>
    rw [hreg] at hload
    cases hload
  | ok out =>
    obtain ⟨k₁, record⟩ := out
    rw [hreg] at hload
    cases hload
    cases registerClassifiedManifest_ok hreg with
    | spiDef hclass hput =>
      have hnone : manifestOf setup ns json = none := by rw [manifestOf, hclass]
      rw [hnone]
      exact ⟨fun plugin => rfl, by rintro _ ⟨⟩⟩
    | @plugin m _ hclass hplugin =>
      have hsome : manifestOf setup ns json = some { m with name := qualify ns m.name } := by
        rw [manifestOf, hclass]
      obtain ⟨p, hp, rfl⟩ := registerPluginInAs_ok hplugin
      have hpassed := prepare_ok hp
      rw [hsome, ← hpassed.renamed]
      constructor
      · intro plugin
        change (k.commit ns p).registry.manifests.lookup plugin = _
        rw [Kernel.manifests_commit, AssocMap.lookup_put, Option.map_some]
        by_cases hname : p.manifest.name = plugin
        · subst hname
          rw [if_pos rfl, if_pos (beq_self_eq_true _)]
        · rw [if_neg (fun h => hname (Option.some.inj h)),
            if_neg (fun h => hname (eq_of_beq h).symm)]
          rfl
      · rintro _ ⟨⟩
        exact Option.not_isSome_iff_eq_none.mp (Bool.eq_false_iff.mp hpassed.notRegistered)

/-- Two loads that go through in either order leave the same tables. -/
theorem loads_commute (hk : k.Reachable setup) {ns ns' json json' : String}
    (hfirst : Loads setup k ns json)
    (hthen : Loads setup (k.after setup (.load ns json)) ns' json')
    (hother : Loads setup k ns' json')
    (hthen' : Loads setup (k.after setup (.load ns' json')) ns json) :
    SameTables (k.afterAll setup [.load ns json, .load ns' json'])
      (k.afterAll setup [.load ns' json', .load ns json]) := by
  apply tables_history_free (hk.then _) (hk.then _)
  intro plugin
  change ((k.after setup (.load ns json)).after setup (.load ns' json')).registry.getManifest plugin =
    ((k.after setup (.load ns' json')).after setup (.load ns json)).registry.getManifest plugin
  rw [hthen.manifests.1, hthen'.manifests.1, hfirst.manifests.1, hother.manifests.1]
  by_cases hname : (manifestOf setup ns json).map PluginManifest.name = some plugin
  · by_cases hname' : (manifestOf setup ns' json').map PluginManifest.name = some plugin
    · -- the second of two manifests of one name would have been refused
      obtain ⟨m, hm, rfl⟩ := Option.map_eq_some_iff.mp hname
      obtain ⟨m', hm', hsame⟩ := Option.map_eq_some_iff.mp hname'
      have htaken := hthen.manifests.2 m' hm'
      rw [hfirst.manifests.1, hsame, if_pos hname, hm] at htaken
      cases htaken
    · rw [if_neg hname', if_pos hname, if_pos hname]
  · by_cases hname' : (manifestOf setup ns' json').map PluginManifest.name = some plugin
    · rw [if_pos hname', if_neg hname, if_pos hname']
    · rw [if_neg hname', if_neg hname, if_neg hname, if_neg hname']

end History

/-- What came and went in another namespace leaves no trace. -/
theorem tables_history_free_notes : ∃ k₀, Kernel.boot notesSetup "kernel" = .ok k₀ ∧
    (k₀.afterAll notesSetup [.load "team" "notes"]).registry.hasPlugin "team/notes" = true ∧
    SameTables (k₀.afterAll notesSetup [.load "team" "notes"])
      (k₀.afterAll notesSetup [.load "other" "notes", .load "team" "notes", .unload 2]) := by
  have hboot : ∃ k₀, Kernel.boot notesSetup "kernel" = .ok k₀ ∧
      (k₀.afterAll notesSetup [.load "team" "notes"]).registry.hasPlugin "team/notes" = true ∧
      (k₀.afterAll notesSetup [.load "team" "notes"]).registry.manifests =
        (k₀.afterAll notesSetup
          [.load "other" "notes", .load "team" "notes", .unload 2]).registry.manifests :=
    ⟨_, rfl, by decide +kernel, by decide +kernel⟩
  obtain ⟨k₀, hk, hnotes, hmanifests⟩ := hboot
  refine ⟨k₀, hk, hnotes, tables_history_free (Kernel.reachable_afterAll hk _)
    (Kernel.reachable_afterAll hk _) fun plugin => ?_⟩
  rw [PluginRegistry.getManifest, PluginRegistry.getManifest, hmanifests]

/-- One text in two namespaces, in either order. -/
theorem loads_commute_notes : ∃ k₀, Kernel.boot notesSetup "kernel" = .ok k₀ ∧
    SameTables (k₀.afterAll notesSetup [.load "team" "notes", .load "other" "notes"])
      (k₀.afterAll notesSetup [.load "other" "notes", .load "team" "notes"]) := by
  have hboot : ∃ k₀, Kernel.boot notesSetup "kernel" = .ok k₀ ∧
      Loads notesSetup k₀ "team" "notes" ∧
      Loads notesSetup (k₀.after notesSetup (.load "team" "notes")) "other" "notes" ∧
      Loads notesSetup k₀ "other" "notes" ∧
      Loads notesSetup (k₀.after notesSetup (.load "other" "notes")) "team" "notes" :=
    ⟨_, rfl, ⟨_, _, rfl⟩, ⟨_, _, rfl⟩, ⟨_, _, rfl⟩, ⟨_, _, rfl⟩⟩
  obtain ⟨k₀, hk, hfirst, hthen, hother, hthen'⟩ := hboot
  exact ⟨k₀, hk, loads_commute (Kernel.reachable_afterAll hk []) hfirst hthen hother hthen'⟩

/-! ### No loose ends -/

/-- What the tables name is there. -/
structure Closed (k : Kernel) : Prop where
  aliasAction : ∀ key plugin action,
    k.registry.stepTypeAliasCandidates key = some (plugin, action) →
      (k.registry.getAction plugin action).isSome = true
  aliasImport : ∀ key plugin action,
    k.registry.stepTypeAliasCandidates key = some (plugin, action) →
      k.stepImportOwners.lookup key = some plugin ∧
        k.additionalImports.lookup (Kernel.importName key) = some .aliasDispatch
  importAlias : ∀ key, k.additionalImports.lookup (Kernel.importName key) = some .aliasDispatch →
    ∃ plugin action, k.registry.stepTypeAliasCandidates key = some (plugin, action)
  importOwner : ∀ key, (k.stepImportOwners.lookup key).isSome = true ↔
    (k.additionalImports.lookup (Kernel.importName key)).isSome = true
  subscriber : ∀ event plugin action, (plugin, action) ∈ k.registry.subscribersFor event →
    (k.registry.getAction plugin action).isSome = true
  edge : ∀ e ∈ k.registry.invokeEdges, (k.registry.getAction e.from.1 e.from.2).isSome = true
  slot : ∀ key selector entry, k.registry.stepTypeImplOwner key selector = some entry →
    (k.registry.getPluginWasmModule entry.plugin entry.wasmModule).isSome = true
  role : ∀ key, ∀ plugin ∈ k.registry.pluginsForRole key, k.registry.hasPlugin plugin = true
  permissions : ∀ plugin, (k.registry.permissions.lookup plugin).isSome = true ↔
    k.registry.hasPlugin plugin = true

section Closed

variable {setup : Setup} {k : Kernel}

/-- The actions of a manifest have plans, its aliases name actions, its imports name bodies, and its
permissions parse. -/
structure Answered (setup : Setup) (m : PluginManifest) : Prop where
  planned : ∀ name a, m.actions.get? name = some a → ∃ plan, buildPlan a.toAction = .ok plan
  aliased : ∀ aliasName action, m.stepTypes.get? aliasName = some action →
    ∃ a, m.actions.get? action = some a
  bound : ∀ decl ∈ m.stepTypeImpls, decl.kind ≠ .wasm → ∃ implRef, decl.implRef = some implRef
  permitted : ∃ perms, Permission.parseManifestPermissions m.permissions
    setup.appPermissionCategories = .ok perms

theorem prepare_answered {ns : String} {source : PluginManifest} {kernelOwned : Bool} {p : Prepared}
    (h : prepare setup k ns source kernelOwned = .ok p) : Answered setup p.manifest := by
  have hpassed := prepare_ok h
  refine ⟨fun name a hget => ?_, fun aliasName action hget => ?_, fun decl hdecl hkind => ?_, _,
    hpassed.permissions⟩
  · have hentry := (IndexMap.mem_entries_iff _ _ _).mpr hget
    obtain ⟨reg, -, hplan⟩ := forall₂_mem_left hpassed.planned hentry
    exact ⟨_, (planAction_name hplan).2.2⟩
  · rw [prepare] at h
    obtain ⟨-, -, h⟩ := bind_ok h
    obtain ⟨-, -, h⟩ := bind_ok h
    obtain ⟨-, -, h⟩ := bind_ok h
    obtain ⟨-, -, h⟩ := bind_ok h
    obtain ⟨-, -, h⟩ := bind_ok h
    obtain ⟨-, -, h⟩ := bind_ok h
    obtain ⟨_, -, h⟩ := bind_ok h
    obtain ⟨_, haliases, -⟩ := bind_ok h
    rw [hpassed.renamed] at hget ⊢
    have hentry := (IndexMap.mem_entries_iff _ _ _).mpr hget
    obtain ⟨-, -, htarget⟩ := bind_ok (firstError_ok haliases _ hentry)
    split at htarget
    · exact absurd htarget not_validation_ok
    · rename_i hdefined
      exact Option.isSome_iff_exists.mp (not_not.mp hdefined)
  · obtain ⟨entry, -, hprep⟩ := forall₂_mem_left hpassed.impls hdecl
    cases hprep with
    | wasm hwasm _ _ => exact absurd hwasm hkind
    | native _ hRef => exact ⟨_, hRef⟩
    | intrinsic _ hRef => exact ⟨_, hRef⟩

theorem Answered.importBody {m : PluginManifest} (h : Answered setup m) {name : String}
    (hname : name ∈ importNames m) : ∃ body, DeclaresImport m name body := by
  rcases List.mem_append.mp hname with hname | hname
  · obtain ⟨decl, hdecl, hfilter⟩ := List.mem_filterMap.mp hname
    split at hfilter
    · cases hfilter
    · rename_i hkind
      cases hfilter
      obtain ⟨implRef, hRef⟩ := h.bound decl hdecl hkind
      cases hcase : decl.kind with
      | wasm => exact absurd hcase hkind
      | native => exact ⟨_, .native hdecl hcase hRef⟩
      | intrinsic => exact ⟨_, .intrinsic hdecl hcase hRef⟩
  · obtain ⟨⟨aliasName, action⟩, hentry, rfl⟩ := List.mem_map.mp hname
    exact ⟨_, .aliasDispatch ((IndexMap.mem_entries_iff _ _ _).mp hentry)⟩

theorem registered_answered (hk : k.Reachable setup) {plugin : String} {m : PluginManifest}
    (hm : k.registry.getManifest plugin = some m) : Answered setup m :=
  Kernel.manifest_checked (P := Answered setup) (fun _ _ _ _ _ h => prepare_answered h) hk hm

theorem action_registered (hk : k.Reachable setup) (hc : Consistent setup k)
    {plugin action : String} {m : PluginManifest} {a : ManifestAction}
    (hm : k.registry.getManifest plugin = some m) (ha : m.actions.get? action = some a) :
    (k.registry.getAction plugin action).isSome = true := by
  obtain ⟨plan, hplan⟩ := (registered_answered hk hm).planned action a ha
  exact Option.isSome_iff_exists.mpr
    ⟨⟨a, plan⟩, (hc.actions plugin action ⟨a, plan⟩).mpr ⟨m, hm, ha, hplan⟩⟩

/-- Nothing in the tables of a kernel points at what is not there. -/
theorem registry_closed (hk : k.Reachable setup) : Closed k := by
  obtain ⟨regs, hmanaged⟩ := managed_of_reachable hk
  have hc := hmanaged.consistent
  constructor
  case aliasAction =>
    intro key plugin action h
    obtain ⟨m, hm, aliasName, hget, -⟩ := (hc.stepTypeAliases _ _ _).mp h
    obtain ⟨a, ha⟩ := (registered_answered hk hm).aliased aliasName action hget
    exact action_registered hk hc hm ha
  case aliasImport =>
    intro key plugin action h
    obtain ⟨m, hm, aliasName, hget, hkey⟩ := (hc.stepTypeAliases _ _ _).mp h
    have hdecl := DeclaresImport.aliasDispatch hget
    exact ⟨(hc.importOwners key plugin).mpr ⟨m, hm, aliasName, hdecl.mem_importNames, hkey⟩,
      (hc.imports key _).mpr ⟨plugin, m, aliasName, hm, hdecl, hkey⟩⟩
  case importAlias =>
    intro key h
    obtain ⟨plugin, m, name, hm, hdecl, hkey⟩ := (hc.imports key _).mp h
    cases hdecl with
    | @aliasDispatch _ action hget =>
      exact ⟨plugin, action, (hc.stepTypeAliases _ _ _).mpr ⟨m, hm, name, hget, hkey⟩⟩
  case importOwner =>
    intro key
    constructor
    · intro h
      obtain ⟨plugin, howner⟩ := Option.isSome_iff_exists.mp h
      obtain ⟨m, hm, name, hname, hkey⟩ := (hc.importOwners key plugin).mp howner
      obtain ⟨body, hdecl⟩ := (registered_answered hk hm).importBody hname
      exact Option.isSome_iff_exists.mpr
        ⟨body, (hc.imports key body).mpr ⟨plugin, m, name, hm, hdecl, hkey⟩⟩
    · intro h
      obtain ⟨body, hbody⟩ := Option.isSome_iff_exists.mp h
      obtain ⟨plugin, m, name, hm, hdecl, hkey⟩ := (hc.imports key body).mp hbody
      exact Option.isSome_iff_exists.mpr
        ⟨plugin, (hc.importOwners key plugin).mpr ⟨m, hm, name, hdecl.mem_importNames, hkey⟩⟩
  case subscriber =>
    intro event plugin action h
    obtain ⟨m, hm, a, ha, -⟩ := (hc.subscriptions _ _ _).mp h
    exact action_registered hk hc hm ha
  case edge =>
    intro e he
    obtain ⟨m, hm⟩ := Option.isSome_iff_exists.mp (hc.edgesOwned e he)
    obtain ⟨-, met, -, -, -, hedges⟩ := hc.registered _ m hm
    obtain ⟨a, ha, -⟩ := (hedges e.from.2 e.to).mp he
    exact action_registered hk hc hm ha
  case slot =>
    rintro key selector ⟨plugin, wasmModule⟩ h
    exact slot_module hk hc h
  case role => exact hc.rolesOwned
  case permissions =>
    intro plugin
    constructor
    · intro h
      obtain ⟨perms, hperms⟩ := Option.isSome_iff_exists.mp h
      obtain ⟨m, hm, -⟩ := (hc.permissions _ _).mp hperms
      exact Option.isSome_iff_exists.mpr ⟨m, hm⟩
    · intro h
      obtain ⟨m, hm⟩ := Option.isSome_iff_exists.mp h
      obtain ⟨perms, hperms⟩ := (registered_answered hk hm).permitted
      exact Option.isSome_iff_exists.mpr ⟨perms, (hc.permissions _ _).mpr ⟨m, hm, hperms⟩⟩

end Closed

/-- A kernel with an alias. -/
theorem registry_closed_notes : ∃ k₀, Kernel.boot notesSetup "kernel" = .ok k₀ ∧
    (k₀.afterAll notesSetup [.load "team" "notes"]).registry.stepTypeAliasCandidates
      "team/notes.save" = some ("team/notes", "save") ∧
    Closed (k₀.afterAll notesSetup [.load "team" "notes"]) := by
  have hboot : ∃ k₀, Kernel.boot notesSetup "kernel" = .ok k₀ ∧
      (k₀.afterAll notesSetup [.load "team" "notes"]).registry.stepTypeAliasCandidates
        "team/notes.save" = some ("team/notes", "save") := ⟨_, rfl, by decide +kernel⟩
  obtain ⟨k₀, hk, halias⟩ := hboot
  exact ⟨k₀, hk, halias, registry_closed (Kernel.reachable_afterAll hk _)⟩

end Gwead
