import Gwead.Kernel
import Gwead.Lib.Ledger
import Gwead.RegistrationSpec

/-!
# The registrations in force

Abstractly the kernel keeps a list of registrations, the oldest first.  Each table is what the
registrations of that list declare for it; registering appends to the list, and taking a
plugin out removes its registration and nothing else.
-/

namespace Gwead

open Identity

/-- A registration in force: what was prepared, and the contracts there were to bind its roles
to. -/
structure Registered where
  ns : String
  prepared : Prepared
  spi : SpiRegistry

namespace Registered

def manifest (e : Registered) : PluginManifest := e.prepared.manifest

def plugin (e : Registered) : String := e.manifest.name

def roleKeys (e : Registered) : List String :=
  Kernel.roleKeysFor e.spi e.ns e.manifest.roles

/-! ### What a registration declares for each table -/

def actionRow (plugin : String) (a : String × ActionRegistration) : NodeRef × ActionRegistration :=
  ((plugin, a.1), a.2)

def wasmRow (plugin : String) (a : String × WasmModule) : (String × String) × WasmModule :=
  ((plugin, a.1), a.2)

def defRow (plugin : String) (d : StepTypeDef) : String × (String × StepTypeDef) :=
  (PluginRegistry.stepTypeKey plugin d.name, (plugin, d))

def aliasRow (plugin : String) (a : String × String) : String × NodeRef :=
  (PluginRegistry.stepTypeKey plugin a.1, (plugin, a.2))

def aliasImport (plugin : String) (a : String × String) : String × LinkedBody :=
  (PluginRegistry.stepTypeKey plugin a.1, .aliasDispatch)

def subscriptionRow (plugin : String) (s : String × String) : String × NodeRef :=
  (s.1, (plugin, s.2))

def ownerRow (plugin : String) (i : String × LinkedBody) : String × String := (i.1, plugin)

def importRow (i : String × LinkedBody) : String × LinkedBody := (Kernel.importName i.1, i.2)

def roleRow (plugin key : String) : String × String := (key, plugin)

def implSlot (plugin : String) :
    PreparedStepImpl → Option ((String × Option String) × StepTypeImplEntry)
  | .wasm stepType «matches» wasmModule =>
    some ((PluginRegistry.stepTypeKey plugin stepType, «matches»), ⟨plugin, wasmModule⟩)
  | _ => none

def implImport (plugin : String) : PreparedStepImpl → Option (String × LinkedBody)
  | .wasm .. => none
  | .native stepType implRef =>
    some (PluginRegistry.stepTypeKey plugin stepType, .plugin implRef)
  | .intrinsic stepType implRef =>
    some (PluginRegistry.stepTypeKey plugin stepType, .intrinsic implRef)

def moduleRows (e : Registered) : List (NodeRef × ActionRegistration) :=
  e.prepared.planned.map (actionRow e.plugin)

def wasmRows (e : Registered) : List ((String × String) × WasmModule) :=
  e.prepared.compiledWasm.map (wasmRow e.plugin)

def defRows (e : Registered) : List (String × (String × StepTypeDef)) :=
  e.prepared.defs.map (defRow e.plugin)

def implRows (e : Registered) : List ((String × Option String) × StepTypeImplEntry) :=
  e.prepared.impls.filterMap (implSlot e.plugin)

def aliasRows (e : Registered) : List (String × NodeRef) :=
  e.manifest.stepTypes.entries.map (aliasRow e.plugin)

/-- The step types the runtime imports for the plugin, with their bodies. -/
def imports (e : Registered) : List (String × LinkedBody) :=
  e.prepared.impls.filterMap (implImport e.plugin) ++
    e.manifest.stepTypes.entries.map (aliasImport e.plugin)

def ownerRows (e : Registered) : List (String × String) := e.imports.map (ownerRow e.plugin)

def importRows (e : Registered) : List (String × LinkedBody) := e.imports.map importRow

def manifestRows (e : Registered) : List (String × PluginManifest) := [(e.plugin, e.manifest)]

def permissionRows (e : Registered) : List (String × List Permission) :=
  [(e.plugin, e.prepared.permissions)]

def roleRows (e : Registered) : List (String × String) := e.roleKeys.map (roleRow e.plugin)

def edgeRows (e : Registered) : List InvokeEdge := e.prepared.newEdges

/-- A pair is subscribed to an event once, however often the manifest says so. -/
def subscriptionRows (e : Registered) : List (String × NodeRef) :=
  ((Kernel.subscriptions e.manifest).map (subscriptionRow e.plugin)).foldl Ledger.addNew []

end Registered

/-- Every table of the kernel holds what the registrations declare for it. -/
structure Listed (k : Kernel) (regs : List Registered) : Prop where
  names : (regs.map Registered.plugin).Nodup
  importKeys : ∀ e ∈ regs, e.imports.map Prod.fst =
    (Registration.importNames e.manifest).map (PluginRegistry.stepTypeKey e.plugin)
  modules : Ledger.Holds k.registry.modules (regs.flatMap Registered.moduleRows)
  manifests : Ledger.Holds k.registry.manifests (regs.flatMap Registered.manifestRows)
  permissions : Ledger.Holds k.registry.permissions (regs.flatMap Registered.permissionRows)
  wasm : Ledger.Holds k.registry.pluginWasmModules (regs.flatMap Registered.wasmRows)
  defs : Ledger.Holds k.registry.stepTypeDefs (regs.flatMap Registered.defRows)
  impls : Ledger.Holds k.registry.stepTypeImpls (regs.flatMap Registered.implRows)
  aliases : Ledger.Holds k.registry.stepTypeAliases (regs.flatMap Registered.aliasRows)
  owners : Ledger.Holds k.stepImportOwners (regs.flatMap Registered.ownerRows)
  imports : Ledger.Holds k.additionalImports (regs.flatMap Registered.importRows)
  edges : k.registry.invokeEdges = regs.flatMap Registered.edgeRows
  edgeSources : ∀ e ∈ regs, ∀ b ∈ e.edgeRows, b.from.1 = e.plugin
  acyclic : Acyclic (regs.flatMap Registered.edgeRows)
  roles : Ledger.Files k.registry.roles (regs.flatMap Registered.roleRows)
  subscriptions :
    Ledger.Files k.registry.subscriptions (regs.flatMap Registered.subscriptionRows)

theorem listed_new : Listed Kernel.new [] :=
  ⟨List.nodup_nil, nofun, .nil, .nil, .nil, .nil, .nil, .nil, .nil, .nil, .nil, rfl, nofun,
    acyclic_nil, .nil, .nil⟩

/-! ### Commits -/

namespace Kernel

open Registered

section Folds

variable (plugin : String)

theorem foldl_registerAction (r : PluginRegistry) (l : List (String × ActionRegistration)) :
    l.foldl (fun r e => r.registerAction plugin e.1 e.2) r =
      { r with modules := Ledger.putAll (l.map (actionRow plugin)) r.modules } := by
  induction l generalizing r with
  | nil => rfl
  | cons a rest ih => exact ih _

theorem foldl_registerWasm (r : PluginRegistry) (l : List (String × WasmModule)) :
    l.foldl (fun r e => r.registerPluginWasmModule plugin e.1 e.2) r =
      { r with pluginWasmModules := Ledger.putAll (l.map (wasmRow plugin)) r.pluginWasmModules } := by
  induction l generalizing r with
  | nil => rfl
  | cons a rest ih => exact ih _

theorem foldl_commitDef (r : PluginRegistry) (l : List StepTypeDef) :
    l.foldl (fun r d => r.commitStepTypeDef plugin d) r =
      { r with stepTypeDefs := Ledger.putAll (l.map (defRow plugin)) r.stepTypeDefs } := by
  induction l generalizing r with
  | nil => rfl
  | cons a rest ih => exact ih _

theorem foldl_registerRole (r : PluginRegistry) (keys : List String) :
    keys.foldl (fun r key => r.registerRole key plugin) r =
      { r with roles := (keys.map (roleRow plugin)).foldl Ledger.file r.roles } := by
  induction keys generalizing r with
  | nil => rfl
  | cons a rest ih => exact ih _

theorem foldl_registerSubscription (r : PluginRegistry) (l : List (String × String)) :
    l.foldl (fun r e => r.registerSubscription e.1 plugin e.2) r =
      { r with subscriptions :=
          (l.map (subscriptionRow plugin)).foldl Ledger.fileNew r.subscriptions } := by
  induction l generalizing r with
  | nil => rfl
  | cons a rest ih => exact ih _

/-- Claim a list of imports. -/
def claimAll (k : Kernel) (claims : List (String × LinkedBody)) : Kernel :=
  { k with
    stepImportOwners := Ledger.putAll (claims.map (ownerRow plugin)) k.stepImportOwners
    additionalImports := Ledger.putAll (claims.map importRow) k.additionalImports }

theorem foldl_commitImpl (k : Kernel) (impls : List PreparedStepImpl) :
    impls.foldl (commitImpl plugin) k =
      claimAll plugin
        { k with
          registry :=
            { k.registry with
              stepTypeImpls :=
                Ledger.putAll (impls.filterMap (implSlot plugin)) k.registry.stepTypeImpls } }
        (impls.filterMap (implImport plugin)) := by
  induction impls generalizing k with
  | nil => rfl
  | cons a rest ih => cases a <;> exact ih _

theorem foldl_commitAlias (k : Kernel) (l : List (String × String)) :
    l.foldl (commitAlias plugin) k =
      claimAll plugin
        { k with
          registry :=
            { k.registry with
              stepTypeAliases :=
                Ledger.putAll (l.map (aliasRow plugin)) k.registry.stepTypeAliases } }
        (l.map (aliasImport plugin)) := by
  induction l generalizing k with
  | nil => rfl
  | cons a rest ih => exact ih _

end Folds

/-- A commit fills each table with what the registration declares for it. -/
theorem commit_eq (k : Kernel) (ns : String) (p : Prepared) (e : Registered)
    (he : e = ⟨ns, p, k.spiRegistry⟩) :
    k.commit ns p =
      { k with
        registry :=
          { modules := Ledger.putAll e.moduleRows k.registry.modules
            roles := e.roleRows.foldl Ledger.file k.registry.roles
            manifests := Ledger.putAll e.manifestRows k.registry.manifests
            invokeEdges := k.registry.invokeEdges ++ e.edgeRows
            subscriptions :=
              ((subscriptions e.manifest).map (subscriptionRow e.plugin)).foldl Ledger.fileNew
                k.registry.subscriptions
            stepTypeAliases := Ledger.putAll e.aliasRows k.registry.stepTypeAliases
            permissions := Ledger.putAll e.permissionRows k.registry.permissions
            pluginWasmModules := Ledger.putAll e.wasmRows k.registry.pluginWasmModules
            stepTypeDefs := Ledger.putAll e.defRows k.registry.stepTypeDefs
            stepTypeImpls := Ledger.putAll e.implRows k.registry.stepTypeImpls }
        stepImportOwners := Ledger.putAll e.ownerRows k.stepImportOwners
        additionalImports := Ledger.putAll e.importRows k.additionalImports } := by
  subst he
  simp only [commit, withEach, foldl_registerAction, foldl_registerWasm, foldl_commitDef,
    foldl_commitImpl, foldl_registerRole, foldl_registerSubscription, foldl_commitAlias]
  simp only [ownerRows, importRows, imports, List.map_append, Ledger.putAll_append]
  rfl

end Kernel

/-! ### Registering appends -/

section Append

variable {setup : Setup} {k : Kernel} {ns : String} {source : PluginManifest} {p : Prepared}
  {regs : List Registered}

open Registration Registered

theorem planAction_name {m : PluginManifest} {a : String × ManifestAction}
    {b : String × ActionRegistration} (h : planAction m a = .ok b) :
    b.1 = a.1 ∧ b.2.action = a.2 ∧ buildPlan a.2.toAction = .ok b.2.plan := by
  rw [planAction] at h
  cases hplan : buildPlan a.2.toAction with
  | error e =>
    simp only [hplan] at h
    exact absurd h not_validation_ok
  | ok plan =>
    simp only [hplan] at h
    cases h
    exact ⟨rfl, rfl, rfl⟩

theorem compileModule_ok {m : PluginManifest} {a : String × WasmModuleSpec}
    {b : String × WasmModule} (h : compileModule setup m a = .ok b) :
    b.1 = a.1 ∧ ∃ base64, a.2 = .inline base64 ∧ setup.decodeBase64 base64 = .ok b.2.bytes := by
  rw [compileModule] at h
  cases hspec : a.2 with
  | path _ =>
    simp only [hspec] at h
    exact absurd h not_validation_ok
  | inline base64 =>
    simp only [hspec] at h
    cases hbytes : setup.decodeBase64 base64 with
    | error e =>
      simp only [hbytes] at h
      exact absurd h not_validation_ok
    | ok bytes =>
      simp only [hbytes] at h
      cases hcompile : setup.compileWasm bytes with
      | error e =>
        simp only [hcompile] at h
        exact absurd h not_validation_ok
      | ok u =>
        simp only [hcompile] at h
        cases h
        exact ⟨rfl, base64, rfl, hbytes⟩

theorem forall₂_map_eq {α β γ : Type} {R : α → β → Prop} {f : α → γ} {g : β → γ} {l : List α}
    {l' : List β} (hR : ∀ a b, R a b → g b = f a) (h : List.Forall₂ R l l') :
    l'.map g = l.map f := by
  induction h with
  | nil => rfl
  | cons hab _ ih => rw [List.map_cons, List.map_cons, hR _ _ hab, ih]

theorem forall₂_mem_right {α β : Type} {R : α → β → Prop} {l : List α} {l' : List β}
    (h : List.Forall₂ R l l') {b : β} (hb : b ∈ l') : ∃ a ∈ l, R a b := by
  induction h with
  | nil => cases hb
  | cons hab _ ih =>
    rcases List.mem_cons.mp hb with rfl | hb
    · exact ⟨_, List.mem_cons_self, hab⟩
    · obtain ⟨a, ha, hR⟩ := ih hb
      exact ⟨a, List.mem_cons_of_mem _ ha, hR⟩

/-- The import keys of a prepared plugin are those of the names it was checked for. -/
theorem keys_imports (hp : Passed setup k ns source p) (spi : SpiRegistry) :
    (imports ⟨ns, p, spi⟩).map Prod.fst =
      (importNames p.manifest).map (PluginRegistry.stepTypeKey p.manifest.name) := by
  have himpls : ∀ (decls : List StepTypeImpl) (entries : List PreparedStepImpl),
      List.Forall₂ (Prepares k p.manifest) decls entries →
        (entries.filterMap (implImport p.manifest.name)).map Prod.fst =
          (decls.filterMap fun decl =>
            if decl.kind = .wasm then none else some decl.stepType).map
              (PluginRegistry.stepTypeKey p.manifest.name) := by
    intro decls entries h
    induction h with
    | nil => rfl
    | cons hab _ ih =>
      cases hab with
      | wasm hkind _ _ => simpa [List.filterMap_cons, implImport, hkind] using ih
      | native hkind _ => simpa [List.filterMap_cons, implImport, hkind] using ih
      | intrinsic hkind _ => simpa [List.filterMap_cons, implImport, hkind] using ih
  have haliases : (p.manifest.stepTypes.entries.map (aliasImport p.manifest.name)).map Prod.fst =
      p.manifest.stepTypes.keys.map (PluginRegistry.stepTypeKey p.manifest.name) := by
    rw [IndexMap.keys, List.map_map, List.map_map]
    rfl
  rw [imports, List.map_append, importNames, List.map_append]
  exact congrArg₂ _ (himpls _ _ hp.impls) haliases

theorem notMem_names (h : Listed k regs) (hp : Passed setup k ns source p) :
    p.manifest.name ∉ regs.map Registered.plugin := by
  intro hmem
  obtain ⟨e, he, heq⟩ := List.mem_map.mp hmem
  have hrow : (p.manifest.name, e.manifest) ∈ regs.flatMap manifestRows :=
    List.mem_flatMap.mpr ⟨e, he, by simp [manifestRows, heq]⟩
  have hfree := hp.notRegistered
  rw [PluginRegistry.hasPlugin, PluginRegistry.getManifest, h.manifests.lookup_iff.mpr hrow] at hfree
  cases hfree

/-- No row of a registration in force is of a plugin that is not registered. -/
theorem owner_ne {β : Type} {rows : Registered → List β} {owner : β → String}
    (hrows : ∀ e, ∀ b ∈ rows e, owner b = e.plugin) {name : String}
    (hname : name ∉ regs.map Registered.plugin) : ∀ b ∈ regs.flatMap rows, owner b ≠ name := by
  rintro b hb rfl
  obtain ⟨e, he, hbe⟩ := List.mem_flatMap.mp hb
  exact hname (hrows e b hbe ▸ List.mem_map_of_mem he)

/-! Who a row belongs to. -/

theorem moduleRows_owner (e : Registered) : ∀ b ∈ e.moduleRows, b.1.1 = e.plugin := by
  intro b hb
  obtain ⟨a, -, rfl⟩ := List.mem_map.mp hb
  rfl

theorem wasmRows_owner (e : Registered) : ∀ b ∈ e.wasmRows, b.1.1 = e.plugin := by
  intro b hb
  obtain ⟨a, -, rfl⟩ := List.mem_map.mp hb
  rfl

theorem defRows_owner (e : Registered) : ∀ b ∈ e.defRows, b.2.1 = e.plugin := by
  intro b hb
  obtain ⟨a, -, rfl⟩ := List.mem_map.mp hb
  rfl

theorem implRows_owner (e : Registered) : ∀ b ∈ e.implRows, b.2.plugin = e.plugin := by
  intro b hb
  obtain ⟨i, -, hi⟩ := List.mem_filterMap.mp hb
  cases i <;> cases hi
  rfl

theorem aliasRows_owner (e : Registered) : ∀ b ∈ e.aliasRows, b.2.1 = e.plugin := by
  intro b hb
  obtain ⟨a, -, rfl⟩ := List.mem_map.mp hb
  rfl

theorem ownerRows_owner (e : Registered) : ∀ b ∈ e.ownerRows, b.2 = e.plugin := by
  intro b hb
  obtain ⟨a, -, rfl⟩ := List.mem_map.mp hb
  rfl

theorem manifestRows_owner (e : Registered) : ∀ b ∈ e.manifestRows, b.1 = e.plugin := by
  simp [manifestRows]

theorem permissionRows_owner (e : Registered) : ∀ b ∈ e.permissionRows, b.1 = e.plugin := by
  simp [permissionRows]

theorem roleRows_owner (e : Registered) : ∀ b ∈ e.roleRows, b.2 = e.plugin := by
  intro b hb
  obtain ⟨a, -, rfl⟩ := List.mem_map.mp hb
  rfl

theorem subscriptionRows_owner (e : Registered) :
    ∀ b ∈ e.subscriptionRows, b.2.1 = e.plugin := by
  intro b hb
  rw [subscriptionRows, Ledger.mem_foldl_addNew] at hb
  obtain ⟨s, -, rfl⟩ := List.mem_map.mp (hb.resolve_left List.not_mem_nil)
  rfl

theorem importName_injective : Function.Injective Kernel.importName := by
  intro a b h
  have hl : (Kernel.importName a).toList = (Kernel.importName b).toList := congrArg _ h
  simp only [Kernel.importName, String.toList_append] at hl
  exact String.toList_inj.mp (List.append_cancel_left hl)

theorem moduleRows_nodup (hp : Passed setup k ns source p) (spi : SpiRegistry) :
    ((moduleRows ⟨ns, p, spi⟩).map Prod.fst).Nodup := by
  have hnames : p.planned.map Prod.fst = p.manifest.actions.keys :=
    forall₂_map_eq (fun _ _ h => (planAction_name h).1) hp.planned
  have hkeys : ((moduleRows ⟨ns, p, spi⟩).map Prod.fst) =
      (p.planned.map Prod.fst).map fun a => (p.manifest.name, a) := by
    rw [moduleRows, List.map_map, List.map_map]
    rfl
  rw [hkeys, hnames]
  exact p.manifest.actions.nodup.map fun a b hab => (Prod.ext_iff.mp hab).2

theorem wasmRows_nodup (hp : Passed setup k ns source p) (spi : SpiRegistry) :
    ((wasmRows ⟨ns, p, spi⟩).map Prod.fst).Nodup := by
  have hnames : p.compiledWasm.map Prod.fst = p.manifest.wasmModules.keys :=
    forall₂_map_eq (fun _ _ h => (compileModule_ok h).1) hp.compiled
  have hkeys : ((wasmRows ⟨ns, p, spi⟩).map Prod.fst) =
      (p.compiledWasm.map Prod.fst).map fun a => (p.manifest.name, a) := by
    rw [wasmRows, List.map_map, List.map_map]
    rfl
  rw [hkeys, hnames]
  exact p.manifest.wasmModules.nodup.map fun a b hab => (Prod.ext_iff.mp hab).2

theorem defRows_nodup (hp : Passed setup k ns source p) (spi : SpiRegistry) :
    ((defRows ⟨ns, p, spi⟩).map Prod.fst).Nodup := by
  have hkeys : ((defRows ⟨ns, p, spi⟩).map Prod.fst) =
      (p.defs.map StepTypeDef.name).map (PluginRegistry.stepTypeKey p.manifest.name) := by
    rw [defRows, List.map_map, List.map_map]
    rfl
  rw [hkeys]
  exact hp.defNames.map (stepTypeKey_injective _)

theorem aliasRows_nodup (p : Prepared) (spi : SpiRegistry) :
    ((aliasRows ⟨ns, p, spi⟩).map Prod.fst).Nodup := by
  have hkeys : ((aliasRows ⟨ns, p, spi⟩).map Prod.fst) =
      p.manifest.stepTypes.keys.map (PluginRegistry.stepTypeKey p.manifest.name) := by
    rw [aliasRows, IndexMap.keys, List.map_map, List.map_map]
    rfl
  rw [hkeys]
  exact p.manifest.stepTypes.nodup.map (stepTypeKey_injective _)

theorem implRows_spec (hp : Passed setup k ns source p) (spi : SpiRegistry) :
    ((implRows ⟨ns, p, spi⟩).map Prod.fst).Nodup ∧
      ∀ b ∈ implRows ⟨ns, p, spi⟩, k.registry.stepTypeImpls.lookup b.1 = none := by
  have hslots : ∀ (decls : List StepTypeImpl) (entries : List PreparedStepImpl),
      List.Forall₂ (Prepares k p.manifest) decls entries →
        List.Sublist ((entries.filterMap (implSlot p.manifest.name)).map Prod.fst)
          ((decls.map fun d => (d.stepType, d.matches)).map fun s =>
            (PluginRegistry.stepTypeKey p.manifest.name s.1, s.2)) := by
    intro decls entries h
    induction h with
    | nil => exact .slnil
    | cons hab _ ih =>
      cases hab with
      | wasm _ _ _ => exact ih.cons_cons _
      | native _ _ => exact ih.cons _
      | intrinsic _ _ => exact ih.cons _
  refine ⟨(List.Nodup.map ?_ hp.implSlots).sublist (hslots _ _ hp.impls), ?_⟩
  · intro a b hab
    obtain ⟨hkey, hsel⟩ := Prod.ext_iff.mp hab
    exact Prod.ext (stepTypeKey_injective _ hkey) hsel
  · intro b hb
    obtain ⟨i, hi, hslot⟩ := List.mem_filterMap.mp hb
    obtain ⟨decl, -, hprep⟩ := forall₂_mem_right hp.impls hi
    cases hprep with
    | wasm _ _ hfree =>
      cases hslot
      exact hfree
    | native _ _ => cases hslot
    | intrinsic _ _ => cases hslot

/-- The registration that a commit of `p` puts in force. -/
def Kernel.registered (k : Kernel) (ns : String) (p : Prepared) : Registered :=
  ⟨ns, p, k.spiRegistry⟩

/-- Registering a plugin that passed the checks appends its registration. -/
theorem Listed.commit (h : Listed k regs) (hp : Passed setup k ns source p) :
    Listed (k.commit ns p) (regs ++ [k.registered ns p]) := by
  have hfresh := notMem_names h hp
  have hone : ∀ {β : Type} (rows : Registered → List β),
      (regs ++ [k.registered ns p]).flatMap rows =
        regs.flatMap rows ++ rows (k.registered ns p) := by
    intro β rows
    simp
  have howners : ∀ b ∈ (k.registered ns p).ownerRows, k.stepImportOwners.lookup b.1 = none := by
    intro b hb
    obtain ⟨i, hi, rfl⟩ := List.mem_map.mp hb
    have hkey : i.1 ∈ (importNames p.manifest).map (PluginRegistry.stepTypeKey p.manifest.name) := by
      rw [← keys_imports hp]
      exact List.mem_map_of_mem hi
    obtain ⟨name, hname, hkey⟩ := List.mem_map.mp hkey
    cases hlook : k.stepImportOwners.lookup i.1 with
    | none => exact hlook
    | some owner =>
      -- the check lets its own imports pass, and a plugin that is not registered has none
      have hown := hp.importOwners name hname owner (hkey ▸ hlook)
      have hrow := h.owners.lookup_iff.mp hlook
      exact absurd hown (owner_ne ownerRows_owner hfresh _ hrow)
  have hkeys : ((k.registered ns p).imports.map Prod.fst).Nodup :=
    keys_imports hp _ ▸ hp.importKeys
  rw [Kernel.commit_eq k ns p (k.registered ns p) rfl]
  constructor
  case names =>
    rw [List.map_append, List.nodup_append]
    refine ⟨h.names, List.nodup_singleton _, ?_⟩
    rintro a ha b hb rfl
    have hname : a = p.manifest.name := List.mem_singleton.mp hb
    exact hfresh (hname ▸ ha)
  case importKeys =>
    intro e he
    rcases List.mem_append.mp he with he | he
    · exact h.importKeys e he
    · rw [List.mem_singleton.mp he]
      exact keys_imports hp _
  case modules =>
    rw [hone]
    refine h.modules.commit (moduleRows_nodup hp _) fun e he => ?_
    refine h.modules.lookup_eq_none.mpr fun b hb heq => ?_
    exact owner_ne moduleRows_owner hfresh b hb (heq ▸ moduleRows_owner _ e he)
  case manifests =>
    rw [hone]
    refine h.manifests.commit (List.nodup_singleton _) fun e he => ?_
    refine h.manifests.lookup_eq_none.mpr fun b hb heq => ?_
    exact owner_ne manifestRows_owner hfresh b hb (heq ▸ manifestRows_owner _ e he)
  case permissions =>
    rw [hone]
    refine h.permissions.commit (List.nodup_singleton _) fun e he => ?_
    refine h.permissions.lookup_eq_none.mpr fun b hb heq => ?_
    exact owner_ne permissionRows_owner hfresh b hb (heq ▸ permissionRows_owner _ e he)
  case wasm =>
    rw [hone]
    refine h.wasm.commit (wasmRows_nodup hp _) fun e he => ?_
    refine h.wasm.lookup_eq_none.mpr fun b hb heq => ?_
    exact owner_ne wasmRows_owner hfresh b hb (heq ▸ wasmRows_owner _ e he)
  case defs =>
    rw [hone]
    refine h.defs.commit (defRows_nodup hp _) fun e he => ?_
    obtain ⟨d, hd, rfl⟩ := List.mem_map.mp he
    exact hp.defFree d hd
  case impls =>
    rw [hone]
    exact h.impls.commit (implRows_spec hp _).1 (implRows_spec hp _).2
  case aliases =>
    rw [hone]
    refine h.aliases.commit (aliasRows_nodup p _) fun e he => ?_
    obtain ⟨a, ha, rfl⟩ := List.mem_map.mp he
    exact hp.aliasFree a ha
  case owners =>
    rw [hone]
    refine h.owners.commit ?_ howners
    rw [ownerRows, List.map_map]
    exact hkeys
  case imports =>
    rw [hone]
    refine h.imports.commit ?_ fun e he => ?_
    · have hnames : ((k.registered ns p).importRows.map Prod.fst) =
          ((k.registered ns p).imports.map Prod.fst).map Kernel.importName := by
        rw [importRows, List.map_map, List.map_map]
        rfl
      rw [hnames]
      exact hkeys.map importName_injective
    · obtain ⟨i, hi, rfl⟩ := List.mem_map.mp he
      refine h.imports.lookup_eq_none.mpr fun b hb heq => ?_
      obtain ⟨e', he', hb⟩ := List.mem_flatMap.mp hb
      obtain ⟨i', hi', rfl⟩ := List.mem_map.mp hb
      have hnone := howners (ownerRow _ i) (List.mem_map_of_mem hi)
      refine h.owners.lookup_eq_none.mp hnone (ownerRow e'.plugin i') ?_ (importName_injective heq)
      exact List.mem_flatMap.mpr ⟨e', he', List.mem_map_of_mem hi'⟩
  case edges =>
    rw [hone]
    exact congrArg (· ++ _) h.edges
  case edgeSources =>
    intro e he
    rcases List.mem_append.mp he with he | he
    · exact h.edgeSources e he
    · rw [List.mem_singleton.mp he]
      exact collectNewEdges_from hp.edges
  case acyclic =>
    rw [hone, ← h.edges]
    exact collectNewEdges_acyclic hp.edges
  case roles =>
    rw [hone]
    exact h.roles.foldl_file _
  case subscriptions =>
    rw [hone]
    have hfiles := h.subscriptions.foldl_fileNew
      ((Kernel.subscriptions p.manifest).map (subscriptionRow p.manifest.name))
    have hnew : ∀ b ∈ (Kernel.subscriptions p.manifest).map (subscriptionRow p.manifest.name),
        b ∉ regs.flatMap subscriptionRows := by
      intro b hb hmem
      obtain ⟨s, -, rfl⟩ := List.mem_map.mp hb
      exact owner_ne subscriptionRows_owner hfresh _ hmem rfl
    have happend := Ledger.foldl_addNew_append [] hnew
    rw [List.append_nil] at happend
    rwa [happend] at hfiles

end Append

/-! ### Taking a plugin out -/

namespace Kernel

open Registration

/-- Releasing names that the plugin owns removes exactly their keys. -/
theorem foldl_releaseImport {plugin : String} {names : List String} {k : Kernel}
    (hnodup : (names.map (PluginRegistry.stepTypeKey plugin)).Nodup)
    (howned : ∀ name ∈ names,
      k.stepImportOwners.lookup (PluginRegistry.stepTypeKey plugin name) = some plugin) :
    names.foldl (releaseImport plugin) k =
      { k with
        stepImportOwners := k.stepImportOwners.filter fun b =>
          !(names.map (PluginRegistry.stepTypeKey plugin)).contains b.1
        additionalImports := k.additionalImports.filter fun b =>
          !((names.map (PluginRegistry.stepTypeKey plugin)).map importName).contains b.1 } := by
  induction names generalizing k with
  | nil => simp
  | cons name rest ih =>
    rw [List.map_cons, List.nodup_cons] at hnodup
    have hstep : releaseImport plugin k name =
        { k with
          stepImportOwners :=
            AssocMap.without (PluginRegistry.stepTypeKey plugin name) k.stepImportOwners
          additionalImports := AssocMap.without
            (importName (PluginRegistry.stepTypeKey plugin name)) k.additionalImports } := by
      rw [releaseImport, if_pos (howned name List.mem_cons_self)]
    rw [List.foldl_cons, hstep, ih hnodup.2]
    · simp only [AssocMap.without, List.filter_filter, List.map_cons, List.contains_cons,
        Bool.not_or, bne, Bool.and_comm]
    · intro name' hname'
      have hne : PluginRegistry.stepTypeKey plugin name' ≠ PluginRegistry.stepTypeKey plugin name :=
        fun heq => hnodup.1 (heq ▸ List.mem_map_of_mem hname')
      rw [AssocMap.lookup_without_ne hne]
      exact howned name' (List.mem_cons_of_mem _ hname')

end Kernel

section Remove

variable {k : Kernel} {regs : List Registered}

open Registration Registered

/-- A registration in force is known by its plugin. -/
theorem Listed.eq_of_plugin (h : Listed k regs) {e e' : Registered} (he : e ∈ regs)
    (he' : e' ∈ regs) (heq : e'.plugin = e.plugin) : e' = e :=
  List.inj_on_of_nodup_map h.names he' he heq

theorem Listed.hasPlugin_iff (h : Listed k regs) {name : String} :
    k.registry.hasPlugin name = true ↔ name ∈ regs.map Registered.plugin := by
  rw [PluginRegistry.hasPlugin, PluginRegistry.getManifest, Option.isSome_iff_exists]
  constructor
  · rintro ⟨m, hm⟩
    obtain ⟨e, he, hrow⟩ := List.mem_flatMap.mp (h.manifests.lookup_iff.mp hm)
    have hname : name = e.plugin := manifestRows_owner e _ hrow
    rw [hname]
    exact List.mem_map_of_mem he
  · intro hmem
    obtain ⟨e, he, rfl⟩ := List.mem_map.mp hmem
    exact ⟨e.manifest, h.manifests.lookup_iff.mpr
      (List.mem_flatMap.mpr ⟨e, he, List.mem_singleton_self _⟩)⟩

/-- The registrations of the other plugins. -/
def others (plugin : String) (regs : List Registered) : List Registered :=
  regs.filter fun e => e.plugin != plugin

/-- Scrubbing the rows of a plugin leaves the rows of the others. -/
theorem flatMap_others {β : Type} {rows : Registered → List β} {owner : β → String}
    (hrows : ∀ e, ∀ b ∈ rows e, owner b = e.plugin) (plugin : String) :
    (regs.flatMap rows).filter (fun b => owner b != plugin) = (others plugin regs).flatMap rows :=
  Ledger.filter_flatMap fun e _ b hb => by rw [hrows e b hb]

/-- Taking a plugin out and releasing its imports removes its registration. -/
theorem Listed.remove (h : Listed k regs) {e : Registered} (he : e ∈ regs) {m : PluginManifest}
    (hm : importNames m = importNames e.manifest) :
    ∃ r, k.registry.unregisterPlugin e.plugin = some r ∧
      Listed (Kernel.releaseStepImports { k with registry := r } e.plugin m)
        (others e.plugin regs) := by
  have hhas : k.registry.hasPlugin e.plugin = true :=
    h.hasPlugin_iff.mpr (List.mem_map_of_mem he)
  rw [PluginRegistry.unregisterPlugin, if_pos hhas]
  refine ⟨_, rfl, ?_⟩
  have hkeys := h.importKeys e he
  have howned : ∀ name ∈ importNames m,
      k.stepImportOwners.lookup (PluginRegistry.stepTypeKey e.plugin name) = some e.plugin := by
    intro name hname
    have hkey : PluginRegistry.stepTypeKey e.plugin name ∈ e.imports.map Prod.fst := by
      rw [hkeys]
      exact List.mem_map_of_mem (hm ▸ hname)
    obtain ⟨i, hi, hkey⟩ := List.mem_map.mp hkey
    refine h.owners.lookup_iff.mpr (List.mem_flatMap.mpr ⟨e, he, ?_⟩)
    exact hkey ▸ List.mem_map_of_mem (f := ownerRow e.plugin) hi
  -- the keys of an import belong to one registration
  have hdisjoint : ∀ e' ∈ regs, ∀ i ∈ e'.imports,
      (i.1 ∈ e.imports.map Prod.fst ↔ e'.plugin = e.plugin) := by
    intro e' he' i hi
    constructor
    · intro hmem
      obtain ⟨i', hi', hkey⟩ := List.mem_map.mp hmem
      have h₁ := h.owners.lookup_iff.mpr
        (List.mem_flatMap.mpr ⟨e', he', List.mem_map_of_mem (f := ownerRow e'.plugin) hi⟩)
      have h₂ := h.owners.lookup_iff.mpr
        (List.mem_flatMap.mpr ⟨e, he, List.mem_map_of_mem (f := ownerRow e.plugin) hi'⟩)
      rw [hkey] at h₂
      exact Option.some.inj (h₁.symm.trans h₂)
    · intro heq
      rw [← h.eq_of_plugin he he' heq]
      exact List.mem_map_of_mem hi
  have hkept : ∀ e' ∈ regs, ∀ i ∈ e'.imports,
      (!(e.imports.map Prod.fst).contains i.1) = (e'.plugin != e.plugin) := by
    intro e' he' i hi
    rw [bne, Bool.not_inj_iff, Bool.eq_iff_iff, List.contains_iff_mem, beq_iff_eq]
    exact hdisjoint e' he' i hi
  have hnames : ((importNames m).map (PluginRegistry.stepTypeKey e.plugin)) =
      e.imports.map Prod.fst := by rw [hm, hkeys]
  have hnodup : ((importNames m).map (PluginRegistry.stepTypeKey e.plugin)).Nodup := by
    rw [hnames]
    have hall := h.owners.nodup
    have hsub : List.Sublist (e.ownerRows.map Prod.fst)
        ((regs.flatMap ownerRows).map Prod.fst) := by
      obtain ⟨a, b, rfl⟩ := List.append_of_mem he
      simp
    have hrow : e.ownerRows.map Prod.fst = e.imports.map Prod.fst := by
      rw [ownerRows, List.map_map]
      rfl
    exact hrow ▸ hall.sublist hsub
  have hrelease := fun r : PluginRegistry =>
    Kernel.foldl_releaseImport (k := { k with registry := r }) hnodup howned
  rw [Kernel.releaseStepImports, hrelease, hnames]
  constructor
  case names => exact h.names.sublist (List.filter_sublist.map _)
  case importKeys => exact fun e' he' => h.importKeys e' (List.mem_of_mem_filter he')
  case modules => exact flatMap_others moduleRows_owner e.plugin ▸ h.modules.scrub _
  case manifests => exact flatMap_others manifestRows_owner e.plugin ▸ h.manifests.scrub _
  case permissions => exact flatMap_others permissionRows_owner e.plugin ▸ h.permissions.scrub _
  case wasm => exact flatMap_others wasmRows_owner e.plugin ▸ h.wasm.scrub _
  case defs => exact flatMap_others defRows_owner e.plugin ▸ h.defs.scrub _
  case impls => exact flatMap_others implRows_owner e.plugin ▸ h.impls.scrub _
  case aliases => exact flatMap_others aliasRows_owner e.plugin ▸ h.aliases.scrub _
  case owners =>
    have hscrub := h.owners.scrub fun b => !(e.imports.map Prod.fst).contains b.1
    rwa [Ledger.filter_flatMap] at hscrub
    intro e' he' b hb
    obtain ⟨i, hi, rfl⟩ := List.mem_map.mp hb
    exact hkept e' he' i hi
  case imports =>
    have hscrub := h.imports.scrub fun b =>
      !((e.imports.map Prod.fst).map Kernel.importName).contains b.1
    rwa [Ledger.filter_flatMap] at hscrub
    intro e' he' b hb
    obtain ⟨i, hi, rfl⟩ := List.mem_map.mp hb
    rw [← hkept e' he' i hi, importRow]
    simp only [List.contains_eq_mem, List.mem_map_of_injective importName_injective]
  case edges =>
    simp only [h.edges]
    exact Ledger.filter_flatMap fun e' he' b hb => by rw [h.edgeSources e' he' b hb]
  case edgeSources => exact fun e' he' => h.edgeSources e' (List.mem_of_mem_filter he')
  case acyclic =>
    refine h.acyclic.subset fun b hb => ?_
    obtain ⟨e', he', hb⟩ := List.mem_flatMap.mp hb
    exact List.mem_flatMap.mpr ⟨e', List.mem_of_mem_filter he', hb⟩
  case roles => exact flatMap_others roleRows_owner e.plugin ▸ h.roles.scrub _
  case subscriptions =>
    exact flatMap_others subscriptionRows_owner e.plugin ▸ h.subscriptions.scrub _

end Remove

end Gwead
