import Gwead.KernelVocabulary
import Gwead.PermissionGrants

/-!
# Who may supply a body

A step type's body runs for every plugin that writes the step type.  Only the plugin that defines
the type may supply it freely; another needs an entry of its manifest and the embedder's trust.  A
native body belongs to the plugin its reference names, and another needs both again to bind it.
-/

namespace Gwead

open Identity Registration

/-! ### What registration has checked -/

/-- An entry of the manifest is how the permission is written. -/
def Spells (m : PluginManifest) (p : Permission) : Prop :=
  ∃ entry ∈ m.permissions, trim entry.toList = p.text.toList

/-- The manifest asks for the slot, and the embedder trusts the plugin with bodies. -/
def TrustedWith (setup : Setup) (m : PluginManifest) (stepType : String)
    (selector : Option String) : Prop :=
  m.name ∈ setup.trustedStepTypeProviders ∧ Spells m (.provideStepType stepType selector)

/-- The body is the root plugin's own, or the manifest asks for it and the embedder allows the
binding. -/
def MayBind (setup : Setup) (m : PluginManifest) (implRef : String) : Prop :=
  (namespaceOf m.name = "" ∧ implRefOwner implRef = some (localNameOf m.name)) ∨
    ((m.name, implRef) ∈ setup.nativeImplBindings ∧ Spells m (.bindNativeImpl implRef))

/-- What an implementation has passed. -/
structure Supplied (setup : Setup) (m : PluginManifest) (decl : StepTypeImpl) : Prop where
  claim : decl.stepType ∈ m.stepTypeDefs.map StepTypeDef.name ∨
    TrustedWith setup m decl.stepType decl.matches
  wasm : ∀ name, decl.kind = .wasm → decl.wasmModule = some name →
    m.wasmModules.contains name = true
  native : ∀ implRef, decl.kind = .native → decl.implRef = some implRef →
    decl.matches = none ∧ MayBind setup m implRef ∧ implRef ∈ setup.nativeStepImpls
  intrinsic : ∀ implRef, decl.kind = .intrinsic → decl.implRef = some implRef →
    decl.matches = none ∧ implRef ∈ setup.intrinsicStepImpls

section Checks

variable {setup : Setup} {k : Kernel} {m : PluginManifest} {perms : List Permission}

theorem spells_of_mem (h : Permission.parseManifestPermissions m.permissions
    setup.appPermissionCategories = .ok perms) {p : Permission} (hp : p ∈ perms) : Spells m p := by
  obtain ⟨entry, hentry, hparse, -⟩ := (mem_grants_iff h).mp hp
  exact ⟨entry, hentry, (Permission.parsePermission_iff.mp hparse).2.symm⟩

/-- A slot of another plugin's step type takes the permission and the trust. -/
theorem checkStepTypeImplClaim_ok (hperms : Permission.parseManifestPermissions m.permissions
    setup.appPermissionCategories = .ok perms) {decl : StepTypeImpl} {definesLocally : Bool}
    (h : checkStepTypeImplClaim setup k m decl definesLocally perms = .ok ()) :
    definesLocally = true ∨ TrustedWith setup m decl.stepType decl.matches := by
  rw [checkStepTypeImplClaim] at h
  split at h
  · exact Or.inl ‹_›
  · dsimp only at h
    split at h
    · exact absurd h not_validation_ok
    · rename_i hgrant
      split at h
      · exact absurd h not_validation_ok
      · rename_i htrust
        rw [not_not, List.contains_iff_mem] at hgrant htrust
        exact Or.inr ⟨htrust, spells_of_mem hperms hgrant⟩

theorem checkNativeImplBinding_ok (hperms : Permission.parseManifestPermissions m.permissions
    setup.appPermissionCategories = .ok perms) {stepType implRef : String}
    (h : checkNativeImplBinding setup m stepType implRef perms = .ok ()) :
    MayBind setup m implRef := by
  rw [checkNativeImplBinding] at h
  split at h
  · rename_i hown
    exact Or.inl hown.symm
  · split at h
    · exact absurd h not_validation_ok
    · rename_i hgrant
      split at h
      · exact absurd h not_validation_ok
      · rename_i hallowed
        rw [not_not, List.contains_iff_mem] at hgrant hallowed
        exact Or.inr ⟨hallowed, spells_of_mem hperms hgrant⟩

theorem requireImplRef_matches {decl : StepTypeImpl} {kind implRef : String}
    (h : requireImplRef m decl kind = .ok implRef) : decl.matches = none := by
  rw [requireImplRef] at h
  split at h
  · exact absurd h not_validation_ok
  · split at h
    · exact absurd h not_validation_ok
    · split at h
      · exact absurd h not_validation_ok
      · rename_i hmatches
        simpa using hmatches

theorem prepareImpl_supplied (hperms : Permission.parseManifestPermissions m.permissions
    setup.appPermissionCategories = .ok perms) {decl : StepTypeImpl} {entry : PreparedStepImpl}
    (hclaim : decl.stepType ∈ m.stepTypeDefs.map StepTypeDef.name ∨
      TrustedWith setup m decl.stepType decl.matches)
    (h : prepareImpl setup k m perms decl = .ok entry) : Supplied setup m decl := by
  rw [prepareImpl] at h
  cases hkind : decl.kind with
  | wasm =>
    simp only [hkind, prepareWasmImpl] at h
    refine ⟨hclaim, fun name _ hmodule => ?_, by simp [hkind], by simp [hkind]⟩
    simp only [hmodule] at h
    split at h
    · exact absurd h not_validation_ok
    · split at h
      · exact absurd h not_validation_ok
      · rename_i hdeclared
        exact not_not.mp hdeclared
  | native =>
    simp only [hkind, prepareNativeImpl] at h
    obtain ⟨bound, hbound, h⟩ := bind_ok h
    obtain ⟨_, hmay, h⟩ := bind_ok h
    refine ⟨hclaim, by simp [hkind], fun implRef _ hRef => ?_, by simp [hkind]⟩
    cases (requireImplRef_ok hbound).symm.trans hRef
    split at h
    · rename_i hsubmitted
      exact ⟨requireImplRef_matches hbound, checkNativeImplBinding_ok hperms hmay, List.contains_iff_mem.mp hsubmitted⟩
    · exact absurd h not_validation_ok
  | intrinsic =>
    simp only [hkind, prepareIntrinsicImpl] at h
    obtain ⟨bound, hbound, h⟩ := bind_ok h
    refine ⟨hclaim, by simp [hkind], by simp [hkind], fun implRef _ hRef => ?_⟩
    cases (requireImplRef_ok hbound).symm.trans hRef
    split at h
    · rename_i hsubmitted
      exact ⟨requireImplRef_matches hbound, List.contains_iff_mem.mp hsubmitted⟩
    · exact absurd h not_validation_ok

theorem prepareImpls_supplied (hperms : Permission.parseManifestPermissions m.permissions
    setup.appPermissionCategories = .ok perms) {decls : List StepTypeImpl}
    {entries : List PreparedStepImpl} {localSlots : List (String × Option String)}
    (h : prepareImpls setup k m perms localSlots decls = .ok entries) :
    ∀ decl ∈ decls, Supplied setup m decl := by
  induction decls generalizing localSlots entries with
  | nil => exact nofun
  | cons d rest ih =>
    simp only [prepareImpls] at h
    split at h
    · exact absurd h not_validation_ok
    · obtain ⟨_, hclaim, h⟩ := bind_ok h
      split at h
      · exact absurd h not_validation_ok
      · obtain ⟨entry, hentry, h⟩ := bind_ok h
        obtain ⟨entries', hrest, -⟩ := bind_ok h
        intro decl hdecl
        rcases List.mem_cons.mp hdecl with rfl | hdecl
        · have hmay := checkStepTypeImplClaim_ok hperms hclaim
          rw [List.contains_iff_mem] at hmay
          exact prepareImpl_supplied hperms hmay hentry
        · exact ih hrest decl hdecl

/-- Every implementation of a manifest that registers has passed. -/
theorem prepare_supplied {ns : String} {source : PluginManifest} {kernelOwned : Bool} {p : Prepared}
    (h : prepare setup k ns source kernelOwned = .ok p) :
    ∀ decl ∈ p.manifest.stepTypeImpls, Supplied setup p.manifest decl := by
  have hpassed := prepare_ok h
  rw [prepare] at h
  obtain ⟨-, -, h⟩ := bind_ok h
  obtain ⟨-, -, h⟩ := bind_ok h
  obtain ⟨-, -, h⟩ := bind_ok h
  obtain ⟨-, -, h⟩ := bind_ok h
  obtain ⟨-, -, h⟩ := bind_ok h
  obtain ⟨-, -, h⟩ := bind_ok h
  obtain ⟨perms, hperms, h⟩ := bind_ok h
  obtain ⟨-, -, h⟩ := bind_ok h
  obtain ⟨-, -, h⟩ := bind_ok h
  obtain ⟨-, -, h⟩ := bind_ok h
  obtain ⟨planned, -, h⟩ := bind_ok h
  obtain ⟨-, -, h⟩ := bind_ok h
  obtain ⟨compiled, -, h⟩ := bind_ok h
  obtain ⟨edges, -, h⟩ := bind_ok h
  obtain ⟨impls, himpls, h⟩ := bind_ok h
  obtain ⟨-, -, himpls⟩ := bind_ok himpls
  rw [hpassed.renamed]
  exact prepareImpls_supplied (labelled_ok hperms) himpls

/-- Its modules are inline and decode. -/
theorem prepare_modules {ns : String} {source : PluginManifest} {kernelOwned : Bool} {p : Prepared}
    (h : prepare setup k ns source kernelOwned = .ok p) {name : String} {spec : WasmModuleSpec}
    (hspec : p.manifest.wasmModules.get? name = some spec) :
    ∃ base64 bytes, spec = .inline base64 ∧ setup.decodeBase64 base64 = .ok bytes := by
  have hentry := (IndexMap.mem_entries_iff _ _ _).mpr hspec
  obtain ⟨compiled, -, hcompile⟩ := forall₂_mem_left (prepare_ok h).compiled hentry
  obtain ⟨-, base64, hinline, hbytes⟩ := compileModule_ok hcompile
  exact ⟨base64, _, hinline, hbytes⟩

end Checks

/-! ### Bodies in force -/

/-- The plugin supplies a body for a step type: a module behind a selector, or an import that is
not the dispatch of an alias. -/
inductive Supplies (k : Kernel) (key plugin : String) : Option String → Prop
  | wasm {selector : Option String} {wasmModule : String}
      (h : k.registry.stepTypeImplOwner key selector = some ⟨plugin, wasmModule⟩) :
      Supplies k key plugin selector
  | import {body : LinkedBody} (howner : k.stepImportOwners.lookup key = some plugin)
      (hbody : k.additionalImports.lookup (Kernel.importName key) = some body)
      (hcode : body ≠ .aliasDispatch) : Supplies k key plugin none

/-- Every body in force was allowed.  `k₀` is the kernel after boot. -/
structure BodiesAllowed (setup : Setup) (k₀ k : Kernel) : Prop where
  claimed : ∀ key plugin selector, Supplies k key plugin selector →
    ∃ m written, k.registry.getManifest plugin = some m ∧
      PluginRegistry.stepTypeKey plugin written = key ∧
        ((∃ definition, k.registry.getStepTypeDef key = some (plugin, definition)) ∨
          TrustedWith setup m written selector)
  wasm : ∀ key selector plugin wasmModule,
    k.registry.stepTypeImplOwner key selector = some ⟨plugin, wasmModule⟩ →
      (k.registry.getPluginWasmModule plugin wasmModule).isSome = true
  native : ∀ key implRef,
    k.additionalImports.lookup (Kernel.importName key) = some (.plugin implRef) →
      implRef ∈ setup.nativeStepImpls ∧ ∃ plugin m, k.stepImportOwners.lookup key = some plugin ∧
        k.registry.getManifest plugin = some m ∧ MayBind setup m implRef
  intrinsic : ∀ key implRef,
    k.additionalImports.lookup (Kernel.importName key) = some (.intrinsic implRef) →
      implRef ∈ setup.intrinsicStepImpls
  bare : ∀ word plugin selector, stepTypeSeparator ∉ word.toList →
    Supplies k word plugin selector →
      k₀.registry.hasPlugin plugin = true ∨ plugin ∈ setup.trustedStepTypeProviders

section Bodies

variable {setup : Setup} {k : Kernel}

theorem registered_supplied (hk : k.Reachable setup) {plugin : String} {m : PluginManifest}
    (hm : k.registry.getManifest plugin = some m) :
    ∀ decl ∈ m.stepTypeImpls, Supplied setup m decl :=
  Kernel.manifest_checked (P := fun m => ∀ decl ∈ m.stepTypeImpls, Supplied setup m decl)
    (fun _ _ _ _ _ h => prepare_supplied h) hk hm

theorem registered_modules (hk : k.Reachable setup) {plugin : String} {m : PluginManifest}
    (hm : k.registry.getManifest plugin = some m) {name : String} {spec : WasmModuleSpec}
    (hspec : m.wasmModules.get? name = some spec) :
    ∃ base64 bytes, spec = .inline base64 ∧ setup.decodeBase64 base64 = .ok bytes :=
  Kernel.manifest_checked (P := fun m => ∀ name spec, m.wasmModules.get? name = some spec →
    ∃ base64 bytes, spec = .inline base64 ∧ setup.decodeBase64 base64 = .ok bytes)
    (fun _ _ _ _ _ h _ _ => prepare_modules h) hk hm name spec hspec

/-- The module a slot names is compiled. -/
theorem slot_module (hk : k.Reachable setup) (hc : Consistent setup k) {key : String}
    {selector : Option String} {plugin wasmModule : String}
    (h : k.registry.stepTypeImplOwner key selector = some ⟨plugin, wasmModule⟩) :
    (k.registry.getPluginWasmModule plugin wasmModule).isSome = true := by
  obtain ⟨m, hm, decl, hdecl, hkind, hmodule, -, -⟩ := (hc.stepTypeImpls _ _ _ _).mp h
  have hdeclared := (registered_supplied hk hm decl hdecl).wasm wasmModule hkind hmodule
  obtain ⟨spec, hspec⟩ := Option.isSome_iff_exists.mp hdeclared
  obtain ⟨base64, bytes, rfl, hbytes⟩ := registered_modules hk hm hspec
  exact Option.isSome_iff_exists.mpr
    ⟨⟨bytes⟩, (hc.wasmModules _ _ _).mpr ⟨m, hm, base64, hspec, hbytes⟩⟩

/-- The names a manifest imports are those it gives a body. -/
theorem DeclaresImport.mem_importNames {m : PluginManifest} {name : String} {body : LinkedBody}
    (h : DeclaresImport m name body) : name ∈ importNames m := by
  cases h with
  | native hdecl hkind _ =>
    exact List.mem_append_left _ (List.mem_filterMap.mpr ⟨_, hdecl, if_neg (by simp [hkind])⟩)
  | intrinsic hdecl hkind _ =>
    exact List.mem_append_left _ (List.mem_filterMap.mpr ⟨_, hdecl, if_neg (by simp [hkind])⟩)
  | aliasDispatch hget =>
    exact List.mem_append_right _ (List.mem_map_of_mem ((IndexMap.mem_entries_iff _ _ _).mpr hget))

/-- An import that runs code is declared by the manifest of its owner. -/
theorem import_declared (hc : Consistent setup k) {key : String} {body : LinkedBody}
    (hbody : k.additionalImports.lookup (Kernel.importName key) = some body)
    (hcode : body ≠ .aliasDispatch) :
    ∃ plugin m decl, k.stepImportOwners.lookup key = some plugin ∧
      k.registry.getManifest plugin = some m ∧ decl ∈ m.stepTypeImpls ∧
      PluginRegistry.stepTypeKey plugin decl.stepType = key ∧
        ((∃ implRef, decl.kind = .native ∧ decl.implRef = some implRef ∧ body = .plugin implRef) ∨
          ∃ implRef, decl.kind = .intrinsic ∧ decl.implRef = some implRef ∧
            body = .intrinsic implRef) := by
  obtain ⟨plugin, m, name, hm, hdecl, hkey⟩ := (hc.imports key body).mp hbody
  have howner : k.stepImportOwners.lookup key = some plugin :=
    (hc.importOwners key plugin).mpr ⟨m, hm, name, hdecl.mem_importNames, hkey⟩
  cases hdecl with
  | @native decl implRef hmem hkind hRef =>
    exact ⟨plugin, m, decl, howner, hm, hmem, hkey, Or.inl ⟨_, hkind, hRef, rfl⟩⟩
  | @intrinsic decl implRef hmem hkind hRef =>
    exact ⟨plugin, m, decl, howner, hm, hmem, hkey, Or.inr ⟨_, hkind, hRef, rfl⟩⟩
  | aliasDispatch hget => exact absurd rfl hcode

/-- Behind every body there is an implementation of a registered manifest, with its selector. -/
theorem supplies_declared (hk : k.Reachable setup) (hc : Consistent setup k) {key plugin : String}
    {selector : Option String} (h : Supplies k key plugin selector) :
    ∃ m decl, k.registry.getManifest plugin = some m ∧ decl ∈ m.stepTypeImpls ∧
      decl.matches = selector ∧ PluginRegistry.stepTypeKey plugin decl.stepType = key := by
  cases h with
  | wasm h =>
    obtain ⟨m, hm, decl, hdecl, -, -, hmatches, hkey⟩ := (hc.stepTypeImpls _ _ _ _).mp h
    exact ⟨m, decl, hm, hdecl, hmatches, hkey⟩
  | «import» howner hbody hcode =>
    obtain ⟨plugin', m, decl, howner', hm, hdecl, hkey, hbody⟩ := import_declared hc hbody hcode
    cases howner.symm.trans howner'
    have hsupplied := registered_supplied hk hm decl hdecl
    refine ⟨m, decl, hm, hdecl, ?_, hkey⟩
    obtain ⟨implRef, hkind, hRef, -⟩ | ⟨implRef, hkind, hRef, -⟩ := hbody
    · exact (hsupplied.native implRef hkind hRef).1
    · exact (hsupplied.intrinsic implRef hkind hRef).1

end Bodies

section Allowed

variable {setup : Setup} {k₀ : Kernel} {intrinsics : String}

/-- After any calls, whoever supplies a body for a step type defines the type, or asks for it and
is trusted with it; the native bodies bound are the plugin's own or allowed to it; and step types
without a dot run the boot manifest's bodies or a trusted plugin's. -/
theorem bodies_allowed (hboot : Kernel.boot setup intrinsics = .ok k₀) (calls : List Kernel.Call) :
    BodiesAllowed setup k₀ (k₀.afterAll setup calls) := by
  have hk : (k₀.afterAll setup calls).Reachable setup := Kernel.reachable_afterAll hboot calls
  obtain ⟨regs, hmanaged⟩ := managed_of_reachable hk
  have hc := hmanaged.consistent
  have hclaimed : ∀ key plugin selector, Supplies (k₀.afterAll setup calls) key plugin selector →
      ∃ m written, (k₀.afterAll setup calls).registry.getManifest plugin = some m ∧
        PluginRegistry.stepTypeKey plugin written = key ∧
          ((∃ definition ∈ m.stepTypeDefs, definition.name = written) ∨
            TrustedWith setup m written selector) := by
    intro key plugin selector h
    obtain ⟨m, decl, hm, hdecl, hmatches, hkey⟩ := supplies_declared hk hc h
    refine ⟨m, decl.stepType, hm, hkey, ?_⟩
    rw [← hmatches]
    exact (registered_supplied hk hm decl hdecl).claim.imp_left List.mem_map.mp
  constructor
  case claimed =>
    intro key plugin selector h
    obtain ⟨m, written, hm, hkey, hclaim⟩ := hclaimed key plugin selector h
    refine ⟨m, written, hm, hkey, hclaim.imp_left ?_⟩
    rintro ⟨definition, hdef, rfl⟩
    exact ⟨definition, (hc.stepTypeDefs _ _ _).mpr ⟨m, hm, hdef, hkey⟩⟩
  case wasm =>
    exact fun key selector plugin wasmModule => slot_module hk hc
  case native =>
    intro key implRef h
    obtain ⟨plugin, m, decl, howner, hm, hdecl, -, hbody⟩ := import_declared hc h nofun
    obtain ⟨implRef', hkind, hRef, hsame⟩ | ⟨implRef', -, -, hsame⟩ := hbody
    · cases hsame
      obtain ⟨-, hmay, hsubmitted⟩ :=
        (registered_supplied hk hm decl hdecl).native implRef hkind hRef
      exact ⟨hsubmitted, plugin, m, howner, hm, hmay⟩
    · cases hsame
  case intrinsic =>
    intro key implRef h
    obtain ⟨plugin, m, decl, -, hm, hdecl, -, hbody⟩ := import_declared hc h nofun
    obtain ⟨implRef', -, -, hsame⟩ | ⟨implRef', hkind, hRef, hsame⟩ := hbody
    · cases hsame
    · cases hsame
      exact ((registered_supplied hk hm decl hdecl).intrinsic implRef hkind hRef).2
  case bare =>
    intro word plugin selector hword h
    obtain ⟨m, written, hm, hkey, hclaim⟩ := hclaimed word plugin selector h
    obtain ⟨definition, hdef, rfl⟩ | ⟨htrusted, -⟩ := hclaim
    · subst hkey
      obtain hold | hown := (manifests_since_boot hboot calls).2 plugin m hm
      · exact Or.inl (Option.isSome_iff_exists.mpr ⟨m, hold⟩)
      · exact absurd (separator_mem_stepTypeKey (hown.defs definition hdef)) hword
    · obtain ⟨hname, -⟩ := hc.registered plugin m hm
      exact Or.inr (hname ▸ htrusted)

end Allowed

/-- A plugin at the root that brings its own body for the kernel's word. -/
def engineManifest : PluginManifest :=
  { plainManifest "engine" with
    permissions := ["provide:step_type:let"]
    stepTypeImpls := [⟨"let", none, .native, none, some "acme.engine.let"⟩] }

def engineSetup : Setup :=
  { textSetup [("kernel", { plainManifest "kernel" with
      stepTypeDefs := [⟨"let", false, none, []⟩] }), ("engine", engineManifest)] [] with
    nativeStepImpls := ["acme.engine.let"]
    trustedStepTypeProviders := ["engine"] }

/-- The trusted plugin's body is the one that runs. -/
theorem bodies_allowed_engine : ∃ k₀, Kernel.boot engineSetup "kernel" = .ok k₀ ∧
    (k₀.afterAll engineSetup [.load "" "engine"]).additionalImports.lookup
      (Kernel.importName "let") = some (.plugin "acme.engine.let") ∧
    BodiesAllowed engineSetup k₀ (k₀.afterAll engineSetup [.load "" "engine"]) := by
  have hboot : ∃ k₀, Kernel.boot engineSetup "kernel" = .ok k₀ ∧
      (k₀.afterAll engineSetup [.load "" "engine"]).additionalImports.lookup
        (Kernel.importName "let") = some (.plugin "acme.engine.let") := ⟨_, rfl, by decide +kernel⟩
  obtain ⟨k₀, hk, hbody⟩ := hboot
  exact ⟨k₀, hk, hbody, bodies_allowed hk _⟩

end Gwead
