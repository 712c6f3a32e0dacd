import Gwead.InvokeCycleCheck
import Gwead.Registration

/-!
# What the checks of a registration establish

One lemma for each check, and together what is known of a plugin that was prepared.
-/

namespace Gwead

open Identity

namespace Registration

theorem bind_ok {α β ε : Type} {x : Except ε α} {f : α → Except ε β} {b : β}
    (h : x >>= f = .ok b) : ∃ a, x = .ok a ∧ f a = .ok b := by
  cases x with
  | error e => cases h
  | ok a => exact ⟨a, rfl, h⟩

theorem labelled_ok {α ε : Type} {label : ε → String} {x : Except ε α} {a : α}
    (h : labelled label x = .ok a) : x = .ok a := by
  cases x with
  | error e => cases h
  | ok b => exact congrArg Except.ok (Except.ok.inj h)

theorem not_validation_ok {α : Type} {message : String} {a : α} :
    ¬ (validation message : Except KernelError α) = .ok a := nofun

theorem firstError_ok {α ε : Type} {check : α → Except ε Unit} {l : List α}
    (h : firstError check l = .ok ()) : ∀ a ∈ l, check a = .ok () := by
  induction l with
  | nil => nofun
  | cons a rest ih =>
    rw [firstError] at h
    cases ha : check a with
    | error e => simp [ha] at h
    | ok u =>
      simp only [ha] at h
      intro b hb
      rcases List.mem_cons.mp hb with rfl | hb
      · exact ha
      · exact ih h b hb

/-- A traversal that succeeds has the result of every element, in order. -/
theorem traverse_ok {α β ε : Type} {f : α → Except ε β} {l : List α} {bs : List β}
    (h : traverse f l = .ok bs) : List.Forall₂ (fun a b => f a = .ok b) l bs := by
  induction l generalizing bs with
  | nil =>
    cases h
    exact .nil
  | cons a rest ih =>
    rw [traverse] at h
    cases ha : f a with
    | error e => simp [ha] at h
    | ok b =>
      simp only [ha] at h
      cases hrest : traverse f rest with
      | error e => simp [hrest] at h
      | ok bs' =>
        simp only [hrest] at h
        cases h
        exact .cons ha (ih hrest)

/-! ### Step type keys -/

theorem stepTypeKey_injective (plugin : String) :
    Function.Injective (PluginRegistry.stepTypeKey plugin) := by
  have hdot : ∀ a : String, stepTypeSeparator ∈ a.toList →
      stepTypeSeparator ∈ (qualify (namespaceOf plugin) a).toList := by
    intro a ha
    by_cases hns : namespaceOf plugin = ""
    · simpa [hns] using ha
    · rw [toList_qualify a hns]
      simp [ha]
  intro a b h
  simp only [PluginRegistry.stepTypeKey] at h
  by_cases ha : stepTypeSeparator ∈ a.toList <;> by_cases hb : stepTypeSeparator ∈ b.toList
  · simp only [List.contains_iff_mem, ha, hb, if_true] at h
    exact qualify_injective _ h
  · simp only [List.contains_iff_mem, ha, hb, if_true, if_false] at h
    exact absurd (h ▸ hdot a ha) hb
  · simp only [List.contains_iff_mem, ha, hb, if_true, if_false] at h
    exact absurd (h.symm ▸ hdot b hb) ha
  · simpa [List.contains_iff_mem, ha, hb] using h

/-! ### Free slots -/

theorem checkImportsFrom_ok {k : Kernel} {m : PluginManifest} {names pending : List String}
    (h : checkImportsFrom k m pending names = .ok ()) :
    (names.map (PluginRegistry.stepTypeKey m.name)).Nodup ∧
      (∀ name ∈ names, PluginRegistry.stepTypeKey m.name name ∉ pending) ∧
        ∀ name ∈ names, ∀ owner,
          k.stepImportOwners.lookup (PluginRegistry.stepTypeKey m.name name) = some owner →
            owner = m.name := by
  induction names generalizing pending with
  | nil => exact ⟨List.nodup_nil, nofun, nofun⟩
  | cons name rest ih =>
    simp only [checkImportsFrom] at h
    cases hfilter : (k.stepImportOwners.lookup
        (PluginRegistry.stepTypeKey m.name name)).filter (· ≠ m.name) with
    | some owner =>
      simp only [hfilter] at h
      exact absurd h not_validation_ok
    | none =>
      simp only [hfilter] at h
      split at h
      · exact absurd h not_validation_ok
      · rename_i hpending
        obtain ⟨hnodup, hfresh, howners⟩ := ih h
        have hnot : PluginRegistry.stepTypeKey m.name name ∉ pending := by
          simpa [List.contains_iff_mem] using hpending
        refine ⟨?_, ?_, ?_⟩
        · rw [List.map_cons, List.nodup_cons]
          refine ⟨?_, hnodup⟩
          intro hmem
          obtain ⟨name', hname', heq⟩ := List.mem_map.mp hmem
          exact hfresh name' hname' (heq ▸ List.mem_cons_self)
        · intro name' hname'
          rcases List.mem_cons.mp hname' with rfl | hname'
          · exact hnot
          · exact fun hin => hfresh name' hname' (List.mem_cons_of_mem _ hin)
        · intro name' hname' owner howner
          rcases List.mem_cons.mp hname' with rfl | hname'
          · rw [howner] at hfilter
            simpa using hfilter
          · exact howners name' hname' owner howner

theorem prepareDefs_ok {k : Kernel} {m : PluginManifest} {defs : List StepTypeDef}
    {localDefs : List String} (h : prepareDefs k m localDefs defs = .ok ()) :
    (defs.map StepTypeDef.name).Nodup ∧ (∀ d ∈ defs, d.name ∉ localDefs) ∧
      ∀ d ∈ defs,
        k.registry.stepTypeDefs.lookup (PluginRegistry.stepTypeKey m.name d.name) = none := by
  induction defs generalizing localDefs with
  | nil => exact ⟨List.nodup_nil, nofun, nofun⟩
  | cons d rest ih =>
    rw [prepareDefs] at h
    split at h
    · exact absurd h not_validation_ok
    · cases hdef : k.registry.getStepTypeDef (PluginRegistry.stepTypeKey m.name d.name) with
      | some existing => simp [hdef, validation] at h
      | none =>
        simp only [hdef] at h
        split at h
        · exact absurd h not_validation_ok
        · rename_i hlocal
          obtain ⟨hnodup, hfresh, hfree⟩ := ih h
          have hnot : d.name ∉ localDefs := by simpa [List.contains_iff_mem] using hlocal
          refine ⟨?_, ?_, ?_⟩
          · rw [List.map_cons, List.nodup_cons]
            refine ⟨?_, hnodup⟩
            intro hmem
            obtain ⟨d', hd', heq⟩ := List.mem_map.mp hmem
            exact hfresh d' hd' (heq ▸ List.mem_cons_self)
          · intro d' hd'
            rcases List.mem_cons.mp hd' with rfl | hd'
            · exact hnot
            · exact fun hin => hfresh d' hd' (List.mem_cons_of_mem _ hin)
          · intro d' hd'
            rcases List.mem_cons.mp hd' with rfl | hd'
            · exact hdef
            · exact hfree d' hd'

/-- What an implementation entry was prepared to: its kind and its fields, as declared. -/
inductive Prepares (k : Kernel) (m : PluginManifest) : StepTypeImpl → PreparedStepImpl → Prop
  | wasm {decl : StepTypeImpl} {wasmModule : String} (hkind : decl.kind = .wasm)
      (hmodule : decl.wasmModule = some wasmModule)
      (hfree : k.registry.stepTypeImpls.lookup
        (PluginRegistry.stepTypeKey m.name decl.stepType, decl.matches) = none) :
      Prepares k m decl (.wasm decl.stepType decl.matches wasmModule)
  | native {decl : StepTypeImpl} {implRef : String} (hkind : decl.kind = .native)
      (hRef : decl.implRef = some implRef) : Prepares k m decl (.native decl.stepType implRef)
  | intrinsic {decl : StepTypeImpl} {implRef : String} (hkind : decl.kind = .intrinsic)
      (hRef : decl.implRef = some implRef) : Prepares k m decl (.intrinsic decl.stepType implRef)

theorem requireImplRef_ok {m : PluginManifest} {decl : StepTypeImpl} {kind implRef : String}
    (h : requireImplRef m decl kind = .ok implRef) : decl.implRef = some implRef := by
  rw [requireImplRef] at h
  cases hRef : decl.implRef with
  | none => simp [hRef, validation] at h
  | some r =>
    simp only [hRef] at h
    split at h
    · exact absurd h not_validation_ok
    · split at h
      · exact absurd h not_validation_ok
      · cases h
        rfl

theorem prepareImpl_ok {setup : Setup} {k : Kernel} {m : PluginManifest}
    {perms : List Permission} {decl : StepTypeImpl} {entry : PreparedStepImpl}
    (h : prepareImpl setup k m perms decl = .ok entry) : Prepares k m decl entry := by
  rw [prepareImpl] at h
  cases hkind : decl.kind with
  | wasm =>
    simp only [hkind, prepareWasmImpl] at h
    cases hmodule : decl.wasmModule with
    | none => simp [hmodule, validation] at h
    | some wasmModule =>
      simp only [hmodule] at h
      split at h
      · exact absurd h not_validation_ok
      · split at h
        · exact absurd h not_validation_ok
        · cases hfree : k.registry.stepTypeImplOwner
              (PluginRegistry.stepTypeKey m.name decl.stepType) decl.matches with
          | some existing => simp [hfree, validation] at h
          | none =>
            simp only [hfree] at h
            cases h
            exact .wasm hkind hmodule hfree
  | native =>
    simp only [hkind, prepareNativeImpl] at h
    obtain ⟨implRef, hRef, h⟩ := bind_ok h
    obtain ⟨-, -, h⟩ := bind_ok h
    split at h
    · cases h
      exact .native hkind (requireImplRef_ok hRef)
    · exact absurd h not_validation_ok
  | intrinsic =>
    simp only [hkind, prepareIntrinsicImpl] at h
    obtain ⟨implRef, hRef, h⟩ := bind_ok h
    split at h
    · cases h
      exact .intrinsic hkind (requireImplRef_ok hRef)
    · exact absurd h not_validation_ok

theorem prepareImpls_ok {setup : Setup} {k : Kernel} {m : PluginManifest}
    {perms : List Permission} {decls : List StepTypeImpl} {entries : List PreparedStepImpl}
    {localSlots : List (String × Option String)}
    (h : prepareImpls setup k m perms localSlots decls = .ok entries) :
    List.Forall₂ (Prepares k m) decls entries ∧
      (decls.map fun d => (d.stepType, d.matches)).Nodup ∧
        ∀ d ∈ decls, (d.stepType, d.matches) ∉ localSlots := by
  induction decls generalizing localSlots entries with
  | nil =>
    cases h
    exact ⟨.nil, List.nodup_nil, nofun⟩
  | cons d rest ih =>
    simp only [prepareImpls] at h
    split at h
    · exact absurd h not_validation_ok
    · obtain ⟨-, -, h⟩ := bind_ok h
      split at h
      · exact absurd h not_validation_ok
      · rename_i hlocal
        obtain ⟨entry, hentry, h⟩ := bind_ok h
        obtain ⟨entries', hrest, h⟩ := bind_ok h
        cases h
        obtain ⟨hall, hnodup, hfresh⟩ := ih hrest
        have hnot : (d.stepType, d.matches) ∉ localSlots := by
          simpa [List.contains_iff_mem] using hlocal
        refine ⟨.cons (prepareImpl_ok hentry) hall, ?_, ?_⟩
        · rw [List.map_cons, List.nodup_cons]
          refine ⟨?_, hnodup⟩
          intro hmem
          obtain ⟨d', hd', heq⟩ := List.mem_map.mp hmem
          exact hfresh d' hd' (heq ▸ List.mem_cons_self)
        · intro d' hd'
          rcases List.mem_cons.mp hd' with rfl | hd'
          · exact hnot
          · exact fun hin => hfresh d' hd' (List.mem_cons_of_mem _ hin)

/-! ### Edges -/

/-- New edges are those of the steps, then those of the declared references. -/
theorem collectNewEdges_parts {setup : Setup} {k : Kernel} {m : PluginManifest}
    {planned : List (String × ActionRegistration)} {edges : List InvokeEdge}
    (h : collectNewEdges setup k m planned = .ok edges) :
    ∃ literal declared, collectAll (actionEdges setup k m) planned = .ok literal ∧
      collectAll (actionReferences k m) planned = .ok declared ∧ edges = literal ++ declared := by
  rw [collectNewEdges] at h
  obtain ⟨literal, hliteral, h⟩ := bind_ok h
  obtain ⟨declared, hdeclared, h⟩ := bind_ok h
  obtain ⟨_, -, h⟩ := bind_ok h
  cases h
  exact ⟨literal, declared, hliteral, hdeclared, rfl⟩

/-- New edges start at the plugin. -/
theorem collectNewEdges_from {setup : Setup} {k : Kernel} {m : PluginManifest}
    {planned : List (String × ActionRegistration)} {edges : List InvokeEdge}
    (h : collectNewEdges setup k m planned = .ok edges) : ∀ e ∈ edges, e.from.1 = m.name := by
  obtain ⟨literal, declared, hliteral, hdeclared, rfl⟩ := collectNewEdges_parts h
  intro e he
  rcases List.mem_append.mp he with he | he
  · obtain ⟨entry, -, out, hout, he⟩ := (mem_collectAll hliteral).mp he
    rw [collectEdges_from (labelled_ok hout) e he]
  · obtain ⟨entry, -, out, hout, he⟩ := (mem_collectAll hdeclared).mp he
    rw [collectDeclaredReferences_from (labelled_ok hout) e he]

/-- With the edges already there, new edges have no cycle. -/
theorem collectNewEdges_acyclic {setup : Setup} {k : Kernel} {m : PluginManifest}
    {planned : List (String × ActionRegistration)} {edges : List InvokeEdge}
    (h : collectNewEdges setup k m planned = .ok edges) :
    Acyclic (k.registry.invokeEdges ++ edges) := by
  rw [collectNewEdges] at h
  obtain ⟨literal, -, h⟩ := bind_ok h
  obtain ⟨declared, -, h⟩ := bind_ok h
  obtain ⟨_, hcheck, h⟩ := bind_ok h
  cases h
  exact checkAcyclic_ok_iff.mp (labelled_ok hcheck)

theorem validateStepTypeAlias_noSeparator {aliasName declaringPlugin : String} {kernelOwned : Bool}
    (h : validateStepTypeAlias aliasName declaringPlugin kernelOwned = .ok ()) :
    namespaceSeparator ∉ aliasName.toList := by
  rw [validateStepTypeAlias] at h
  cases hname : validateStepTypeName aliasName declaringPlugin kernelOwned with
  | error e => simp [hname] at h
  | ok _ => exact validateStepTypeName_noSeparator hname

/-! ### Together -/

/-- What is known of a plugin that passed every check against a kernel. -/
structure Passed (setup : Setup) (k : Kernel) (ns : String) (source : PluginManifest)
    (p : Prepared) : Prop where
  renamed : p.manifest = { source with name := qualify ns source.name }
  ns : checkNamespace ns = .ok ()
  localName : validateName .plugin source.name = .ok ()
  notRegistered : k.registry.hasPlugin p.manifest.name = false
  permissions : Permission.parseManifestPermissions p.manifest.permissions
    setup.appPermissionCategories = .ok p.permissions
  aliasFree : ∀ e ∈ p.manifest.stepTypes.entries, k.registry.stepTypeAliases.lookup
    (PluginRegistry.stepTypeKey p.manifest.name e.1) = none
  aliasNames : ∀ e ∈ p.manifest.stepTypes.entries, namespaceSeparator ∉ e.1.toList
  importKeys : ((importNames p.manifest).map
    (PluginRegistry.stepTypeKey p.manifest.name)).Nodup
  importOwners : ∀ name ∈ importNames p.manifest, ∀ owner,
    k.stepImportOwners.lookup (PluginRegistry.stepTypeKey p.manifest.name name) = some owner →
      owner = p.manifest.name
  planned : List.Forall₂ (fun a b => planAction p.manifest a = .ok b) p.manifest.actions.entries
    p.planned
  shapes : ∀ e ∈ p.manifest.actions.entries, validateStepShapes setup.describeStep e.1 e.2.steps
    k.registry p.manifest.stepTypeImpls = .ok ()
  compiled : List.Forall₂ (fun a b => compileModule setup p.manifest a = .ok b)
    p.manifest.wasmModules.entries p.compiledWasm
  edges : collectNewEdges setup k p.manifest p.planned = .ok p.newEdges
  defs : p.defs = p.manifest.stepTypeDefs
  defNames : (p.defs.map StepTypeDef.name).Nodup
  defFree : ∀ d ∈ p.defs,
    k.registry.stepTypeDefs.lookup (PluginRegistry.stepTypeKey p.manifest.name d.name) = none
  impls : List.Forall₂ (Prepares k p.manifest) p.manifest.stepTypeImpls p.impls
  implSlots : (p.manifest.stepTypeImpls.map fun d => (d.stepType, d.matches)).Nodup

theorem prepare_ok {setup : Setup} {k : Kernel} {ns : String} {manifest : PluginManifest}
    {kernelOwned : Bool} {p : Prepared} (h : prepare setup k ns manifest kernelOwned = .ok p) :
    Passed setup k ns manifest p := by
  rw [prepare] at h
  obtain ⟨_, hns, h⟩ := bind_ok h
  obtain ⟨-, -, h⟩ := bind_ok h
  obtain ⟨_, hnames, h⟩ := bind_ok h
  obtain ⟨-, -, h⟩ := bind_ok h
  obtain ⟨_, hfresh, h⟩ := bind_ok h
  obtain ⟨-, -, h⟩ := bind_ok h
  obtain ⟨perms, hperms, h⟩ := bind_ok h
  obtain ⟨_, haliases, h⟩ := bind_ok h
  obtain ⟨_, himports, h⟩ := bind_ok h
  obtain ⟨-, -, h⟩ := bind_ok h
  obtain ⟨planned, hplanned, h⟩ := bind_ok h
  obtain ⟨_, hshapes, h⟩ := bind_ok h
  obtain ⟨compiled, hcompiled, h⟩ := bind_ok h
  obtain ⟨edges, hedges, h⟩ := bind_ok h
  obtain ⟨impls, himpls, h⟩ := bind_ok h
  cases h
  obtain ⟨_, hdefs, himpls⟩ := bind_ok himpls
  obtain ⟨_, hlocal, -⟩ := bind_ok hnames
  obtain ⟨hkeys, -, howners⟩ := checkImportsFrom_ok himports
  obtain ⟨hdefNames, -, hdefFree⟩ := prepareDefs_ok hdefs
  obtain ⟨hall, hslots, -⟩ := prepareImpls_ok himpls
  refine ⟨rfl, hns, labelled_ok hlocal, ?_, labelled_ok hperms, ?_, ?_, hkeys, howners,
    traverse_ok hplanned, ?_, traverse_ok hcompiled, hedges, rfl, hdefNames, hdefFree, hall, hslots⟩
  · rw [checkNotRegistered] at hfresh
    split at hfresh
    · exact absurd hfresh not_validation_ok
    · rename_i hnot
      simpa using hnot
  · intro e he
    have halias := firstError_ok haliases e he
    obtain ⟨-, -, halias⟩ := bind_ok halias
    split at halias
    · exact absurd halias not_validation_ok
    · cases hc : k.registry.stepTypeAliasCandidates
          (PluginRegistry.stepTypeKey (qualify ns manifest.name) e.1) with
      | some existing => simp [hc, validation] at halias
      | none => exact hc
  · intro e he
    obtain ⟨_, halias, -⟩ := bind_ok (firstError_ok haliases e he)
    exact validateStepTypeAlias_noSeparator (labelled_ok halias)
  · intro e he
    exact labelled_ok (firstError_ok hshapes e he)

/-- The roles of a plugin that passed every check are plain names. -/
theorem prepare_roleNames {setup : Setup} {k : Kernel} {ns : String} {manifest : PluginManifest}
    {kernelOwned : Bool} {p : Prepared} (h : prepare setup k ns manifest kernelOwned = .ok p) :
    ∀ role ∈ manifest.roles, namespaceSeparator ∉ role.toList := by
  intro role hrole
  rw [prepare] at h
  obtain ⟨-, -, h⟩ := bind_ok h
  obtain ⟨-, -, h⟩ := bind_ok h
  obtain ⟨_, hnames, -⟩ := bind_ok h
  obtain ⟨-, -, hnames⟩ := bind_ok hnames
  obtain ⟨_, hroles, -⟩ := bind_ok hnames
  exact validateName_noSeparator (firstError_ok (labelled_ok hroles) role hrole)

end Registration

end Gwead
