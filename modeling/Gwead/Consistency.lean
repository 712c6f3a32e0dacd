import Gwead.DagPlan
import Gwead.Lifecycle

/-!
# Registry consistency

Every table says exactly what the registered manifests declare: an entry belongs to a registered
plugin whose manifest declares it, and every declaration of a registered manifest is there under
its own plugin.
-/

namespace Gwead

open Identity Registration Registered

/-! ### What a manifest declares -/

/-- The body a manifest gives an import of its own. -/
inductive DeclaresImport (m : PluginManifest) : String → LinkedBody → Prop
  | native {decl : StepTypeImpl} {implRef : String} (hdecl : decl ∈ m.stepTypeImpls)
      (hkind : decl.kind = .native) (hRef : decl.implRef = some implRef) :
      DeclaresImport m decl.stepType (.plugin implRef)
  | intrinsic {decl : StepTypeImpl} {implRef : String} (hdecl : decl ∈ m.stepTypeImpls)
      (hkind : decl.kind = .intrinsic) (hRef : decl.implRef = some implRef) :
      DeclaresImport m decl.stepType (.intrinsic implRef)
  | aliasDispatch {aliasName action : String}
      (hget : m.stepTypes.get? aliasName = some action) :
      DeclaresImport m aliasName .aliasDispatch

/-- What a table has under a name in the nearest namespace of the chain that has any. -/
def NearestOnChain {α : Type} (table : String → Option α) (ns name found : String) (a : α) : Prop :=
  ∃ nearer farther, ancestorNamespaces ns = nearer ++ found :: farther ∧
    table (qualify found name) = some a ∧ ∀ closer ∈ nearer, table (qualify closer name) = none

/-- The key a role stands for in a namespace: the nearest contract of that name, or the role in the
namespace itself where the chain has no contract. -/
inductive BindsRole (spi : SpiRegistry) (ns role : String) : String → Prop
  | contract {found : String} {definition : SpiDefinition}
      (h : NearestOnChain spi.get ns role found definition) :
      BindsRole spi ns role (qualify found role)
  | plain (h : ∀ n ∈ ancestorNamespaces ns, spi.get (qualify n role) = none) :
      BindsRole spi ns role (qualify ns role)

/-- A list of steps in the parameters of a step that runs other steps. -/
inductive HasBody (step : StepDef) : List Value → Prop
  | ifs {branches body : List Value} {branch : Value} (htype : step.stepType = "ifs")
      (h : step.params.get "ifs" = some (.array branches)) (hbranch : branch ∈ branches)
      (hbody : branch.get "then" = some (.array body)) : HasBody step body
  | «try» {key : String} {body : List Value} (htype : step.stepType = "try")
      (hkey : key ∈ ["try", "catch", "finally"])
      (hbody : step.params.get key = some (.array body)) : HasBody step body
  | parallel {branches body : List Value} (htype : step.stepType = "parallel")
      (h : step.params.get "branches" = some (.array branches))
      (hbody : .array body ∈ branches) : HasBody step body
  | loop {body : List Value} (htype : step.stepType = "for_each" ∨ step.stepType = "repeat")
      (hbody : step.params.get "steps" = some (.array body)) : HasBody step body

/-- A step of an action, at any depth. -/
inductive Within : List StepDef → StepDef → Prop
  | top {steps : List StepDef} {step : StepDef} (h : step ∈ steps) : Within steps step
  | inner {steps : List StepDef} {parent step : StepDef} {body : List Value}
      (hparent : parent ∈ steps) (hbody : HasBody parent body)
      (hin : Within (body.filterMap StepDef.fromInnerValue) step) : Within steps step

/-- A step whose type is looked up: neither an `invoke` nor one that runs other steps. -/
def Looked (step : StepDef) : Prop :=
  step.stepType ∉ ["invoke", "ifs", "try", "parallel"] ∧
    (step.stepType = "for_each" ∨ step.stepType = "repeat" →
      ∀ body, step.params.get "steps" ≠ some (.array body))

/-- Text that no template is in, and that is no path. -/
def Literal (s : String) : Prop := ¬['{', '{'] <:+: s.toList ∧ s.toList.head? ≠ some '$'

/-- What a step type's name means where it is written: the last definition of the manifest of that
name, or the one registered under it. -/
inductive DefinedAs (k : Kernel) (m : PluginManifest) (name : String) : StepTypeDef → Prop
  | own {definition : StepTypeDef} {earlier later : List StepTypeDef}
      (h : m.stepTypeDefs = earlier ++ definition :: later) (hname : definition.name = name)
      (hlast : ∀ d ∈ later, d.name ≠ name) : DefinedAs k m name definition
  | registered {definition : StepTypeDef} {owner : String}
      (hnone : ∀ d ∈ m.stepTypeDefs, d.name ≠ name)
      (h : k.registry.getStepTypeDef name = some (owner, definition)) :
      DefinedAs k m name definition

/-- A node that an action of a manifest names: in an `invoke` step at any depth, by a step of an
alias of the manifest or, where the manifest has none of that name, of the nearest one on its
chain, or in a reference that the type of a top-level step declares. -/
inductive NamesNode (k : Kernel) (m : PluginManifest) (action : ManifestAction) : NodeRef → Prop
  | invoke {step : StepDef} {plugin target : String} (hin : Within action.steps step)
      (htype : step.stepType = "invoke") (hplugin : step.params.get "plugin" = some (.string plugin))
      (haction : step.params.get "action" = some (.string target)) :
      NamesNode k m action (plugin, target)
  | ownAlias {step : StepDef} {target : String} (hin : Within action.steps step)
      (hlooked : Looked step) (h : m.stepTypes.get? step.stepType = some target) :
      NamesNode k m action (m.name, target)
  | chainAlias {step : StepDef} {found : String} {t : NodeRef} (hin : Within action.steps step)
      (hlooked : Looked step) (hown : m.stepTypes.get? step.stepType = none)
      (hdot : stepTypeSeparator ∈ step.stepType.toList)
      (h : NearestOnChain k.registry.stepTypeAliasCandidates (namespaceOf m.name) step.stepType
        found t) : NamesNode k m action t
  | reference {step : StepDef} {definition : StepTypeDef} {reference : StepReference}
      {plugin target : String} (hstep : step ∈ action.steps)
      (hdef : DefinedAs k m step.stepType definition) (href : reference ∈ definition.references)
      (hplugin : step.params.get reference.plugin = some (.string plugin))
      (haction : step.params.get reference.action = some (.string target))
      (hliteral : Literal plugin ∧ Literal target) : NamesNode k m action (plugin, target)

/-- The tables against the registered manifests.  Roles and edges depend on what else was there
when the plugin was registered, which `met` is: the plugin itself was not. -/
structure Consistent (setup : Setup) (k : Kernel) : Prop where
  actions : ∀ plugin action entry, k.registry.getAction plugin action = some entry ↔
    ∃ m, k.registry.getManifest plugin = some m ∧ m.actions.get? action = some entry.action ∧
      buildPlan entry.action.toAction = .ok entry.plan
  wasmModules : ∀ plugin name compiled,
    k.registry.getPluginWasmModule plugin name = some compiled ↔
      ∃ m, k.registry.getManifest plugin = some m ∧ ∃ base64,
        m.wasmModules.get? name = some (.inline base64) ∧
          setup.decodeBase64 base64 = .ok compiled.bytes
  stepTypeDefs : ∀ key plugin definition,
    k.registry.getStepTypeDef key = some (plugin, definition) ↔
      ∃ m, k.registry.getManifest plugin = some m ∧ definition ∈ m.stepTypeDefs ∧
        PluginRegistry.stepTypeKey plugin definition.name = key
  stepTypeImpls : ∀ key selector plugin wasmModule,
    k.registry.stepTypeImplOwner key selector = some ⟨plugin, wasmModule⟩ ↔
      ∃ m, k.registry.getManifest plugin = some m ∧ ∃ decl ∈ m.stepTypeImpls,
        decl.kind = .wasm ∧ decl.wasmModule = some wasmModule ∧ decl.matches = selector ∧
          PluginRegistry.stepTypeKey plugin decl.stepType = key
  stepTypeAliases : ∀ key plugin action,
    k.registry.stepTypeAliasCandidates key = some (plugin, action) ↔
      ∃ m, k.registry.getManifest plugin = some m ∧ ∃ aliasName,
        m.stepTypes.get? aliasName = some action ∧
          PluginRegistry.stepTypeKey plugin aliasName = key
  permissions : ∀ plugin perms, k.registry.permissions.lookup plugin = some perms ↔
    ∃ m, k.registry.getManifest plugin = some m ∧
      Permission.parseManifestPermissions m.permissions setup.appPermissionCategories = .ok perms
  subscriptions : ∀ event plugin action,
    (plugin, action) ∈ k.registry.subscribersFor event ↔
      ∃ m, k.registry.getManifest plugin = some m ∧ ∃ a, m.actions.get? action = some a ∧
        event ∈ a.subscribesTo
  importOwners : ∀ key plugin, k.stepImportOwners.lookup key = some plugin ↔
    ∃ m, k.registry.getManifest plugin = some m ∧ ∃ name ∈ importNames m,
      PluginRegistry.stepTypeKey plugin name = key
  imports : ∀ key body, k.additionalImports.lookup (Kernel.importName key) = some body ↔
    ∃ plugin m name, k.registry.getManifest plugin = some m ∧ DeclaresImport m name body ∧
      PluginRegistry.stepTypeKey plugin name = key
  importsOnly : ∀ name body, k.additionalImports.lookup name = some body →
    ∃ key, name = Kernel.importName key
  registered : ∀ plugin m, k.registry.getManifest plugin = some m →
    m.name = plugin ∧ ∃ met : Kernel, met.Met setup ∧ met.registry.hasPlugin plugin = false ∧
      (∀ key, plugin ∈ k.registry.pluginsForRole key ↔
        ∃ role ∈ m.roles, BindsRole met.spiRegistry (namespaceOf plugin) role key) ∧
      ∀ action t, ⟨(plugin, action), t⟩ ∈ k.registry.invokeEdges ↔
        ∃ a, m.actions.get? action = some a ∧ NamesNode met m a t
  rolesOwned : ∀ key, ∀ plugin ∈ k.registry.pluginsForRole key,
    k.registry.hasPlugin plugin = true
  edgesOwned : ∀ e ∈ k.registry.invokeEdges, k.registry.hasPlugin e.from.1 = true

/-! ### The declarations against the collectors -/

section Declarations

/-- A walk up the chain stops at the nearest namespace that has the name. -/
theorem findSome?_chain {α : Type} {table : String → Option α} {ns name : String} {a : α} :
    ((ancestorNamespaces ns).findSome? fun n => table (qualify n name)) = some a ↔
      ∃ found, NearestOnChain table ns name found a := by
  rw [List.findSome?_eq_some_iff]
  constructor
  · rintro ⟨nearer, found, farther, hchain, hfound, hnone⟩
    exact ⟨found, nearer, farther, hchain, hfound, hnone⟩
  · rintro ⟨found, nearer, farther, hchain, hfound, hnone⟩
    exact ⟨nearer, found, farther, hchain, hfound, hnone⟩

theorem resolve_iff {spi : SpiRegistry} {ns role key : String} {definition : SpiDefinition} :
    spi.resolve ns role = some (key, definition) ↔
      ∃ found, NearestOnChain spi.get ns role found definition ∧ qualify found role = key := by
  rw [SpiRegistry.resolve, List.findSome?_map, List.findSome?_eq_some_iff]
  simp only [Function.comp_apply, Option.map_eq_some_iff, Option.map_eq_none_iff, Prod.mk.injEq]
  constructor
  · rintro ⟨nearer, found, farther, hchain, ⟨_, hget, rfl, rfl⟩, hcloser⟩
    exact ⟨found, ⟨nearer, farther, hchain, hget, hcloser⟩, rfl⟩
  · rintro ⟨found, ⟨nearer, farther, hchain, hget, hcloser⟩, rfl⟩
    exact ⟨nearer, found, farther, hchain, ⟨definition, hget, rfl, rfl⟩, hcloser⟩

theorem Kernel.mem_roleKeysFor {spi : SpiRegistry} {ns key : String} {roles : List String} :
    key ∈ Kernel.roleKeysFor spi ns roles ↔
      ∃ role ∈ roles, ((spi.resolve ns role).map Prod.fst).getD (qualify ns role) = key := by
  rw [Kernel.roleKeysFor, mem_foldl_pushUnique, List.mem_map]
  simp

theorem bindsRole_iff {spi : SpiRegistry} {ns role key : String} :
    ((spi.resolve ns role).map Prod.fst).getD (qualify ns role) = key ↔
      BindsRole spi ns role key := by
  have hnone : spi.resolve ns role = none ↔
      ∀ n ∈ ancestorNamespaces ns, spi.get (qualify n role) = none := by
    rw [SpiRegistry.resolve, List.findSome?_map, List.findSome?_eq_none_iff]
    simp only [Function.comp_apply, Option.map_eq_none_iff]
  constructor
  · rintro rfl
    cases hres : spi.resolve ns role with
    | none => exact .plain (hnone.mp hres)
    | some entry =>
      obtain ⟨found, hfound, hkey⟩ := resolve_iff.mp hres
      have hbinds := BindsRole.contract hfound
      rwa [hkey] at hbinds
  · intro h
    cases h with
    | contract h => rw [resolve_iff.mpr ⟨_, h, rfl⟩]; rfl
    | plain h => rw [hnone.mpr h]; rfl

theorem hasBody_iff {step : StepDef} {body : List Value} :
    HasBody step body ↔ ∃ bodies, stepBodies step = some bodies ∧ body ∈ bodies := by
  have hat : ∀ {v : Value} {key : String} {items : List Value},
      (v.get key).bind Value.asArray = some items ↔ v.get key = some (.array items) := by
    intro v key items
    rw [Option.bind_eq_some_iff]
    simp only [asArray_eq_some, exists_eq_right]
  constructor
  · intro h
    cases h with
    | ifs htype h hbranch hbody =>
      rw [stepBodies, if_pos htype]
      exact ⟨_, rfl, List.mem_filterMap.mpr
        ⟨_, mem_arrayAt.mpr ⟨_, h, hbranch⟩, hat.mpr hbody⟩⟩
    | «try» htype hkey hbody =>
      rw [stepBodies, if_neg (by simp [htype]), if_pos htype]
      exact ⟨_, rfl, List.mem_filterMap.mpr ⟨_, hkey, hat.mpr hbody⟩⟩
    | parallel htype h hbody =>
      rw [stepBodies, if_neg (by simp [htype]), if_neg (by simp [htype]), if_pos htype]
      exact ⟨_, rfl, List.mem_filterMap.mpr ⟨_, mem_arrayAt.mpr ⟨_, h, hbody⟩, rfl⟩⟩
    | loop htype hbody =>
      refine ⟨[body], ?_, List.mem_singleton_self _⟩
      rw [stepBodies, if_neg (by rcases htype with h | h <;> simp [h]),
        if_neg (by rcases htype with h | h <;> simp [h]),
        if_neg (by rcases htype with h | h <;> simp [h]), if_pos htype, hat.mpr hbody]
      rfl
  · rintro ⟨bodies, hbodies, hmem⟩
    rw [stepBodies] at hbodies
    split at hbodies
    · rename_i htype
      cases hbodies
      obtain ⟨branch, hbranch, hbody⟩ := List.mem_filterMap.mp hmem
      obtain ⟨branches, h, hbranch⟩ := mem_arrayAt.mp hbranch
      exact .ifs htype h hbranch (hat.mp hbody)
    · split at hbodies
      · rename_i htype
        cases hbodies
        obtain ⟨key, hkey, hbody⟩ := List.mem_filterMap.mp hmem
        exact .try htype hkey (hat.mp hbody)
      · split at hbodies
        · rename_i htype
          cases hbodies
          obtain ⟨v, hv, hbody⟩ := List.mem_filterMap.mp hmem
          obtain ⟨branches, h, hbranch⟩ := mem_arrayAt.mp hv
          rw [asArray_eq_some.mp hbody] at hbranch
          exact .parallel htype h hbranch
        · split at hbodies
          · rename_i htype
            obtain ⟨items, hitems, rfl⟩ := Option.map_eq_some_iff.mp hbodies
            cases List.mem_singleton.mp hmem
            exact .loop htype (hat.mp hitems)
          · cases hbodies

/-- By the lists the collectors walk. -/
theorem within_iff {steps : List StepDef} {step : StepDef} :
    Within steps step ↔ Nested steps step := by
  constructor
  · intro h
    induction h with
    | top h => exact .top h
    | inner hparent hbody _ ih =>
      obtain ⟨bodies, hbodies, hmem⟩ := hasBody_iff.mp hbody
      exact .inner hparent hbodies hmem ih
  · intro h
    induction h with
    | top h => exact .top h
    | inner hparent hbodies hbody _ ih =>
      exact .inner hparent (hasBody_iff.mpr ⟨_, hbodies, hbody⟩) ih

theorem looked_iff {step : StepDef} :
    Looked step ↔ step.stepType ≠ "invoke" ∧ stepBodies step = none := by
  have hnone : stepBodies step = none ↔ step.stepType ∉ ["ifs", "try", "parallel"] ∧
      (step.stepType = "for_each" ∨ step.stepType = "repeat" →
        ∀ body, step.params.get "steps" ≠ some (.array body)) := by
    unfold stepBodies
    split
    · simp [*]
    · split
      · simp [*]
      · split
        · simp [*]
        · split
          · rename_i hifs htry hparallel hloop
            rw [Option.map_eq_none_iff, Option.bind_eq_none_iff]
            simp only [List.mem_cons, List.not_mem_nil, hifs, htry, hparallel, or_self,
              not_false_eq_true, hloop, forall_const, true_and]
            constructor
            · intro h body hbody
              exact absurd (h _ hbody) (by simp [Value.asArray])
            · intro h v hv
              cases v with
              | array body => exact absurd hv (h body)
              | _ => rfl
          · simp_all
  rw [hnone, Looked, List.mem_cons, not_or]
  exact and_assoc

theorem containsBraces_iff {cs : List Char} :
    containsBraces cs = true ↔ ['{', '{'] <:+: cs := by
  fun_induction containsBraces cs with
  | case1 rest => exact iff_of_true rfl ⟨[], rest, rfl⟩
  | case2 c cs hnot ih =>
    rw [ih, List.infix_cons_iff]
    refine (or_iff_right ?_).symm
    intro hprefix
    obtain ⟨rest, hrest⟩ := hprefix
    cases hrest
    exact hnot rest rfl rfl
  | case3 => simp

theorem literal_iff {s : String} : isTemplated s = false ↔ Literal s := by
  rw [isTemplated, Bool.or_eq_false_iff, Literal, ← containsBraces_iff, Bool.not_eq_true,
    beq_eq_false_iff_ne]

theorem string_at_iff {v : Value} {key s : String} :
    (v.get key).bind Value.asStr = some s ↔ v.get key = some (.string s) := by
  cases v.get key with
  | none => simp
  | some w => cases w <;> simp [Value.asStr]

theorem last_named_iff {defs : List StepTypeDef} {name : String} {definition : StepTypeDef} :
    defs.reverse.find? (·.name == name) = some definition ↔ definition.name = name ∧
      ∃ earlier later, defs = earlier ++ definition :: later ∧ ∀ d ∈ later, d.name ≠ name := by
  rw [List.find?_eq_some_iff_append]
  constructor
  · rintro ⟨hname, later, earlier, hdefs, hlast⟩
    refine ⟨eq_of_beq hname, earlier.reverse, later.reverse, ?_, fun d hd => ?_⟩
    · rw [← List.reverse_inj, hdefs]
      simp
    · simpa using hlast d (List.mem_reverse.mp hd)
  · rintro ⟨rfl, earlier, later, rfl, hlast⟩
    refine ⟨beq_self_eq_true _, later.reverse, earlier.reverse, by simp, fun d hd => ?_⟩
    simpa using hlast d (List.mem_reverse.mp hd)

theorem definedAs_iff {k : Kernel} {m : PluginManifest} {name : String}
    {definition : StepTypeDef} :
    defResolver k m name = some definition ↔ DefinedAs k m name definition := by
  rw [defResolver]
  cases hown : m.stepTypeDefs.reverse.find? (·.name == name) with
  | none =>
    have hnone : ∀ d ∈ m.stepTypeDefs, d.name ≠ name := fun d hd => by
      simpa using List.find?_eq_none.mp hown d (List.mem_reverse.mpr hd)
    simp only [Option.map_eq_some_iff, Prod.exists, exists_eq_right]
    constructor
    · rintro ⟨owner, h⟩
      exact .registered hnone h
    · intro h
      cases h with
      | own h hname hlast =>
        rw [last_named_iff.mpr ⟨hname, _, _, h, hlast⟩] at hown
        cases hown
      | registered _ h => exact ⟨_, h⟩
  | some last =>
    obtain ⟨hname, earlier, later, h, hlast⟩ := last_named_iff.mp hown
    rw [Option.some.injEq]
    constructor
    · rintro rfl
      exact .own h hname hlast
    · intro h'
      cases h' with
      | own h' hname' hlast' =>
        exact Option.some.inj (hown.symm.trans (last_named_iff.mpr ⟨hname', _, _, h', hlast'⟩))
      | registered hnone _ =>
        exact absurd hname (hnone _ (h ▸ List.mem_append_right _ List.mem_cons_self))

/-- What the resolver of aliases answers: the manifest's own target, or the nearest on the chain. -/
theorem aliasResolver_iff {k : Kernel} {m : PluginManifest} {name : String} {t : NodeRef} :
    aliasResolver k m name = some t ↔
      (∃ target, m.stepTypes.get? name = some target ∧ (m.name, target) = t) ∨
        m.stepTypes.get? name = none ∧ stepTypeSeparator ∈ name.toList ∧
          ∃ found, NearestOnChain k.registry.stepTypeAliasCandidates (namespaceOf m.name) name
            found t := by
  rw [aliasResolver]
  cases m.stepTypes.get? name with
  | some target => simp
  | none =>
    by_cases hdot : stepTypeSeparator ∈ name.toList
    · simp [hdot, findSome?_chain]
    · simp [hdot]

theorem stepTarget_iff {k : Kernel} {m : PluginManifest} {step : StepDef} {t : NodeRef} :
    stepTarget (aliasResolver k m) step = some t ↔
      step.stepType = "invoke" ∧ step.params.get "plugin" = some (.string t.1) ∧
          step.params.get "action" = some (.string t.2) ∨
        Looked step ∧ aliasResolver k m step.stepType = some t := by
  rw [stepTarget, looked_iff]
  by_cases hinvoke : step.stepType = "invoke"
  · rw [if_pos hinvoke, ← string_at_iff, ← string_at_iff, invokeTarget]
    simp only [hinvoke, true_and, ne_eq, not_true_eq_false, false_and, or_false]
    split
    · rename_i hplugin haction
      rw [hplugin, haction, Option.some.injEq, Option.some.injEq, Option.some.injEq, Prod.ext_iff]
    · rename_i hmissing
      exact iff_of_false (by rintro ⟨⟩) fun h => hmissing _ _ h.1 h.2
  · rw [if_neg hinvoke]
    cases hbodies : stepBodies step <;> simp [hinvoke]

theorem literalReferenceTarget_iff {params : Value} {reference : StepReference} {t : NodeRef} :
    literalReferenceTarget params reference = some t ↔
      params.get reference.plugin = some (.string t.1) ∧
        params.get reference.action = some (.string t.2) ∧ Literal t.1 ∧ Literal t.2 := by
  rw [← string_at_iff, ← string_at_iff, ← literal_iff, ← literal_iff, literalReferenceTarget]
  split
  · rename_i plugin action hplugin haction
    rw [hplugin, haction, Option.some.injEq, Option.some.injEq]
    split
    · rename_i htemplated
      refine iff_of_false (by rintro ⟨⟩) ?_
      rintro ⟨rfl, rfl, hplain, hplain'⟩
      rw [hplain, hplain'] at htemplated
      cases htemplated
    · rename_i hplain
      rw [Bool.not_eq_true, Bool.or_eq_false_iff] at hplain
      rw [Option.some.injEq, Prod.ext_iff]
      constructor
      · rintro ⟨rfl, rfl⟩
        exact ⟨rfl, rfl, hplain⟩
      · rintro ⟨rfl, rfl, -⟩
        exact ⟨rfl, rfl⟩
  · rename_i hmissing
    exact iff_of_false (by rintro ⟨⟩) fun h => hmissing _ _ h.1 h.2.1

/-- The nodes an action names are the targets that are collected from it. -/
theorem namesNode_iff {k : Kernel} {m : PluginManifest} {action : ManifestAction} {t : NodeRef} :
    NamesNode k m action t ↔
      (∃ step, Nested action.steps step ∧ stepTarget (aliasResolver k m) step = some t) ∨
        ∃ step ∈ action.steps, ∃ definition, defResolver k m step.stepType = some definition ∧
          ∃ reference ∈ definition.references,
            literalReferenceTarget step.params reference = some t := by
  constructor
  · intro h
    cases h with
    | invoke hin htype hplugin haction =>
      exact Or.inl ⟨_, within_iff.mp hin, stepTarget_iff.mpr (Or.inl ⟨htype, hplugin, haction⟩)⟩
    | ownAlias hin hlooked h =>
      exact Or.inl ⟨_, within_iff.mp hin, stepTarget_iff.mpr
        (Or.inr ⟨hlooked, aliasResolver_iff.mpr (Or.inl ⟨_, h, rfl⟩)⟩)⟩
    | chainAlias hin hlooked hown hdot h =>
      exact Or.inl ⟨_, within_iff.mp hin, stepTarget_iff.mpr
        (Or.inr ⟨hlooked, aliasResolver_iff.mpr (Or.inr ⟨hown, hdot, _, h⟩)⟩)⟩
    | reference hstep hdef href hplugin haction hliteral =>
      exact Or.inr ⟨_, hstep, _, definedAs_iff.mpr hdef, _, href,
        literalReferenceTarget_iff.mpr ⟨hplugin, haction, hliteral⟩⟩
  · rintro (⟨step, hin, htarget⟩ | ⟨step, hstep, definition, hdef, reference, href, htarget⟩)
    · rcases stepTarget_iff.mp htarget with ⟨htype, hplugin, haction⟩ | ⟨hlooked, halias⟩
      · exact .invoke (within_iff.mpr hin) htype hplugin haction
      · rcases aliasResolver_iff.mp halias with ⟨target, h, rfl⟩ | ⟨hown, hdot, found, h⟩
        · exact .ownAlias (within_iff.mpr hin) hlooked h
        · exact .chainAlias (within_iff.mpr hin) hlooked hown hdot h
    · obtain ⟨hplugin, haction, hliteral⟩ := literalReferenceTarget_iff.mp htarget
      exact .reference hstep (definedAs_iff.mp hdef) href hplugin haction hliteral

end Declarations

/-! ### The rows of a registration -/

section Rows

variable {setup : Setup} {e : Registered}

theorem forall₂_mem_left {α β : Type} {R : α → β → Prop} {l : List α} {l' : List β}
    (h : List.Forall₂ R l l') {a : α} (ha : a ∈ l) : ∃ b ∈ l', R a b := by
  induction h with
  | nil => cases ha
  | cons hab _ ih =>
    rcases List.mem_cons.mp ha with rfl | ha
    · exact ⟨_, List.mem_cons_self, hab⟩
    · obtain ⟨b, hb, hR⟩ := ih ha
      exact ⟨b, List.mem_cons_of_mem _ hb, hR⟩

theorem mem_moduleRows (he : e.Sound setup) {plugin action : String} {entry : ActionRegistration} :
    ((plugin, action), entry) ∈ e.moduleRows ↔ e.plugin = plugin ∧
      e.manifest.actions.get? action = some entry.action ∧
        buildPlan entry.action.toAction = .ok entry.plan := by
  obtain ⟨k, source, -, hp, -⟩ := he
  rw [moduleRows, List.mem_map]
  constructor
  · rintro ⟨⟨name, reg⟩, hmem, heq⟩
    cases heq
    obtain ⟨a, ha, hplan⟩ := forall₂_mem_right hp.planned hmem
    obtain ⟨hname, haction, hbuild⟩ := planAction_name hplan
    refine ⟨rfl, ?_, haction ▸ hbuild⟩
    rw [haction, hname]
    exact (IndexMap.mem_entries_iff _ _ _).mp ha
  · rintro ⟨rfl, hget, hbuild⟩
    have ha := (IndexMap.mem_entries_iff _ _ _).mpr hget
    obtain ⟨⟨name, reg⟩, hmem, hplan⟩ := forall₂_mem_left hp.planned ha
    refine ⟨(name, reg), hmem, ?_⟩
    obtain ⟨hname, haction, hbuild'⟩ := planAction_name hplan
    rw [hbuild] at hbuild'
    obtain ⟨regAction, plan⟩ := reg
    cases hname
    cases haction
    cases hbuild'
    rfl

theorem mem_wasmRows (he : e.Sound setup) {plugin name : String} {compiled : WasmModule} :
    ((plugin, name), compiled) ∈ e.wasmRows ↔ e.plugin = plugin ∧
      ∃ base64, e.manifest.wasmModules.get? name = some (.inline base64) ∧
        setup.decodeBase64 base64 = .ok compiled.bytes := by
  obtain ⟨k, source, -, hp, -⟩ := he
  rw [wasmRows, List.mem_map]
  constructor
  · rintro ⟨⟨name, compiled⟩, hmem, heq⟩
    cases heq
    obtain ⟨a, ha, hcompile⟩ := forall₂_mem_right hp.compiled hmem
    obtain ⟨hname, base64, hspec, hbytes⟩ := compileModule_ok hcompile
    refine ⟨rfl, base64, ?_, hbytes⟩
    rw [hname, ← hspec]
    exact (IndexMap.mem_entries_iff _ _ _).mp ha
  · rintro ⟨rfl, base64, hget, hbytes⟩
    have ha := (IndexMap.mem_entries_iff _ _ _).mpr hget
    obtain ⟨⟨name', compiled'⟩, hmem, hcompile⟩ := forall₂_mem_left hp.compiled ha
    refine ⟨(name', compiled'), hmem, ?_⟩
    obtain ⟨hname, base64', hspec, hbytes'⟩ := compileModule_ok hcompile
    cases hspec
    rw [hbytes] at hbytes'
    obtain ⟨bytes⟩ := compiled'
    cases hname
    cases hbytes'
    rfl

theorem mem_defRows (he : e.Sound setup) {key plugin : String} {definition : StepTypeDef} :
    (key, (plugin, definition)) ∈ e.defRows ↔ e.plugin = plugin ∧
      definition ∈ e.manifest.stepTypeDefs ∧
        PluginRegistry.stepTypeKey plugin definition.name = key := by
  obtain ⟨k, source, -, hp, -⟩ := he
  have hdefs : e.prepared.defs = e.manifest.stepTypeDefs := hp.defs
  rw [defRows, List.mem_map, hdefs]
  constructor
  · rintro ⟨d, hmem, heq⟩
    cases heq
    exact ⟨rfl, hmem, rfl⟩
  · rintro ⟨rfl, hmem, rfl⟩
    exact ⟨definition, hmem, rfl⟩

theorem mem_implRows (he : e.Sound setup) {key plugin wasmModule : String}
    {selector : Option String} :
    ((key, selector), ⟨plugin, wasmModule⟩) ∈ e.implRows ↔ e.plugin = plugin ∧
      ∃ decl ∈ e.manifest.stepTypeImpls, decl.kind = .wasm ∧ decl.wasmModule = some wasmModule ∧
        decl.matches = selector ∧ PluginRegistry.stepTypeKey plugin decl.stepType = key := by
  obtain ⟨k, source, -, hp, -⟩ := he
  rw [implRows, List.mem_filterMap]
  constructor
  · rintro ⟨i, hi, hslot⟩
    obtain ⟨decl, hdecl, hprep⟩ := forall₂_mem_right hp.impls hi
    cases hprep with
    | wasm hkind hmodule _ =>
      cases hslot
      exact ⟨rfl, decl, hdecl, hkind, hmodule, rfl, rfl⟩
    | native _ _ => cases hslot
    | intrinsic _ _ => cases hslot
  · rintro ⟨rfl, decl, hdecl, hkind, hmodule, rfl, rfl⟩
    obtain ⟨i, hi, hprep⟩ := forall₂_mem_left hp.impls hdecl
    refine ⟨i, hi, ?_⟩
    cases hprep with
    | wasm _ hmodule' _ =>
      cases hmodule.symm.trans hmodule'
      rfl
    | native hkind' _ => cases hkind.symm.trans hkind'
    | intrinsic hkind' _ => cases hkind.symm.trans hkind'

theorem mem_aliasRows {key plugin action : String} :
    (key, (plugin, action)) ∈ e.aliasRows ↔ e.plugin = plugin ∧
      ∃ aliasName, e.manifest.stepTypes.get? aliasName = some action ∧
        PluginRegistry.stepTypeKey plugin aliasName = key := by
  rw [aliasRows, List.mem_map]
  constructor
  · rintro ⟨⟨aliasName, action⟩, hmem, heq⟩
    cases heq
    exact ⟨rfl, aliasName, (IndexMap.mem_entries_iff _ _ _).mp hmem, rfl⟩
  · rintro ⟨rfl, aliasName, hget, rfl⟩
    exact ⟨(aliasName, action), (IndexMap.mem_entries_iff _ _ _).mpr hget, rfl⟩

theorem mem_permissionRows (he : e.Sound setup) {plugin : String} {perms : List Permission} :
    (plugin, perms) ∈ e.permissionRows ↔ e.plugin = plugin ∧
      Permission.parseManifestPermissions e.manifest.permissions setup.appPermissionCategories =
        .ok perms := by
  obtain ⟨k, source, -, hp, -⟩ := he
  have hparse : Permission.parseManifestPermissions e.manifest.permissions
      setup.appPermissionCategories = .ok e.prepared.permissions := hp.permissions
  rw [permissionRows, List.mem_singleton, Prod.mk.injEq, hparse, Except.ok.injEq]
  exact and_congr eq_comm eq_comm

theorem mem_subscriptionRows {event plugin action : String} :
    (event, (plugin, action)) ∈ e.subscriptionRows ↔ e.plugin = plugin ∧
      ∃ a, e.manifest.actions.get? action = some a ∧ event ∈ a.subscribesTo := by
  have hsub : (event, action) ∈ Kernel.subscriptions e.manifest ↔
      ∃ a, e.manifest.actions.get? action = some a ∧ event ∈ a.subscribesTo := by
    simp only [Kernel.subscriptions, List.mem_flatMap, List.mem_map, Prod.exists, Prod.mk.injEq]
    constructor
    · rintro ⟨_, a, hmem, _, hevent, rfl, rfl⟩
      exact ⟨a, (IndexMap.mem_entries_iff _ _ _).mp hmem, hevent⟩
    · rintro ⟨a, hget, hevent⟩
      exact ⟨action, a, (IndexMap.mem_entries_iff _ _ _).mpr hget, event, hevent, rfl, rfl⟩
  rw [subscriptionRows, Ledger.mem_foldl_addNew, List.mem_map, ← hsub]
  constructor
  · rintro (h | ⟨s, hmem, heq⟩)
    · cases h
    · cases heq
      exact ⟨rfl, hmem⟩
  · rintro ⟨rfl, hmem⟩
    exact Or.inr ⟨_, hmem, rfl⟩

theorem mem_imports (he : e.Sound setup) {key : String} {body : LinkedBody} :
    (key, body) ∈ e.imports ↔ ∃ name, DeclaresImport e.manifest name body ∧
      PluginRegistry.stepTypeKey e.plugin name = key := by
  obtain ⟨k, source, -, hp, -⟩ := he
  rw [imports, List.mem_append, List.mem_filterMap, List.mem_map]
  constructor
  · rintro (⟨i, hi, himport⟩ | ⟨⟨aliasName, action⟩, hmem, heq⟩)
    · obtain ⟨decl, hdecl, hprep⟩ := forall₂_mem_right hp.impls hi
      cases hprep with
      | wasm _ _ _ => cases himport
      | native hkind hRef =>
        cases himport
        exact ⟨decl.stepType, .native hdecl hkind hRef, rfl⟩
      | intrinsic hkind hRef =>
        cases himport
        exact ⟨decl.stepType, .intrinsic hdecl hkind hRef, rfl⟩
    · cases heq
      exact ⟨aliasName, .aliasDispatch ((IndexMap.mem_entries_iff _ _ _).mp hmem), rfl⟩
  · rintro ⟨name, hdecl, rfl⟩
    cases hdecl with
    | @native decl implRef hdecl hkind hRef =>
      obtain ⟨i, hi, hprep⟩ := forall₂_mem_left hp.impls hdecl
      refine Or.inl ⟨i, hi, ?_⟩
      cases hprep with
      | wasm hkind' _ _ => cases hkind.symm.trans hkind'
      | native _ hRef' =>
        cases hRef.symm.trans hRef'
        rfl
      | intrinsic hkind' _ => cases hkind.symm.trans hkind'
    | @intrinsic decl implRef hdecl hkind hRef =>
      obtain ⟨i, hi, hprep⟩ := forall₂_mem_left hp.impls hdecl
      refine Or.inl ⟨i, hi, ?_⟩
      cases hprep with
      | wasm hkind' _ _ => cases hkind.symm.trans hkind'
      | native hkind' _ => cases hkind.symm.trans hkind'
      | intrinsic _ hRef' =>
        cases hRef.symm.trans hRef'
        rfl
    | @aliasDispatch _ action hget =>
      exact Or.inr ⟨(name, action), (IndexMap.mem_entries_iff _ _ _).mpr hget, rfl⟩

theorem mem_ownerRows (hkeys : e.imports.map Prod.fst =
    (importNames e.manifest).map (PluginRegistry.stepTypeKey e.plugin)) {key plugin : String} :
    (key, plugin) ∈ e.ownerRows ↔ e.plugin = plugin ∧ ∃ name ∈ importNames e.manifest,
      PluginRegistry.stepTypeKey plugin name = key := by
  have hmem : key ∈ e.imports.map Prod.fst ↔ ∃ name ∈ importNames e.manifest,
      PluginRegistry.stepTypeKey e.plugin name = key := by rw [hkeys, List.mem_map]
  rw [ownerRows, List.mem_map]
  constructor
  · rintro ⟨i, hi, heq⟩
    cases heq
    exact ⟨rfl, hmem.mp (List.mem_map_of_mem hi)⟩
  · rintro ⟨rfl, hname⟩
    obtain ⟨i, hi, rfl⟩ := List.mem_map.mp (hmem.mpr hname)
    exact ⟨i, hi, rfl⟩

theorem mem_edgeRows {k : Kernel} {ns : String} {source : PluginManifest}
    (hp : Passed setup k ns source e.prepared) {plugin action : String} {t : NodeRef} :
    ⟨(plugin, action), t⟩ ∈ e.edgeRows ↔ e.plugin = plugin ∧
      ∃ a, e.manifest.actions.get? action = some a ∧ NamesNode k e.manifest a t := by
  have hplanned : ∀ name reg, (name, reg) ∈ e.prepared.planned →
      e.manifest.actions.get? name = some reg.action := by
    intro name reg hmem
    obtain ⟨⟨name', a⟩, ha, hplan⟩ := forall₂_mem_right hp.planned hmem
    obtain ⟨hname, haction, -⟩ := planAction_name hplan
    cases hname
    cases haction
    exact (IndexMap.mem_entries_iff _ _ _).mp ha
  have hactions : ∀ name a, e.manifest.actions.get? name = some a →
      ∃ reg, (name, reg) ∈ e.prepared.planned ∧ reg.action = a := by
    intro name a hget
    have ha := (IndexMap.mem_entries_iff _ _ _).mpr hget
    obtain ⟨⟨name', reg⟩, hmem, hplan⟩ := forall₂_mem_left hp.planned ha
    obtain ⟨hname, haction, -⟩ := planAction_name hplan
    cases hname
    exact ⟨reg, hmem, haction⟩
  obtain ⟨literal, declared, hliteral, hdeclared, hedges⟩ := collectNewEdges_parts hp.edges
  rw [edgeRows, hedges, List.mem_append, mem_collectAll hliteral, mem_collectAll hdeclared]
  constructor
  · rintro (⟨⟨name, reg⟩, hmem, out, hout, hedge⟩ | ⟨⟨name, reg⟩, hmem, out, hout, hedge⟩)
    · obtain ⟨step, hn, t', ht', heq⟩ := (mem_collectEdges (labelled_ok hout)).mp hedge
      cases heq
      exact ⟨rfl, reg.action, hplanned name reg hmem, namesNode_iff.mpr (Or.inl ⟨step, hn, ht'⟩)⟩
    · obtain ⟨step, hstep, definition, hdef, reference, href, t', ht', heq⟩ :=
        (mem_collectDeclaredReferences (labelled_ok hout)).mp hedge
      cases heq
      exact ⟨rfl, reg.action, hplanned name reg hmem,
        namesNode_iff.mpr (Or.inr ⟨step, hstep, definition, hdef, reference, href, ht'⟩)⟩
  · rintro ⟨rfl, a, hget, hnode⟩
    obtain ⟨reg, hmem, rfl⟩ := hactions action a hget
    rcases namesNode_iff.mp hnode with
      ⟨step, hn, ht⟩ | ⟨step, hstep, definition, hdef, reference, href, ht⟩
    · obtain ⟨out, hout⟩ := collectAll_ok hliteral _ hmem
      exact Or.inl ⟨_, hmem, out, hout,
        (mem_collectEdges (labelled_ok hout)).mpr ⟨step, hn, t, ht, rfl⟩⟩
    · obtain ⟨out, hout⟩ := collectAll_ok hdeclared _ hmem
      exact Or.inr ⟨_, hmem, out, hout, (mem_collectDeclaredReferences (labelled_ok hout)).mpr
        ⟨step, hstep, definition, hdef, reference, href, t, ht, rfl⟩⟩

end Rows

/-! ### The tables of the kernel -/

section Tables

variable {setup : Setup} {k : Kernel} {regs : List Registered}

theorem Listed.getManifest_iff (h : Listed k regs) {plugin : String} {m : PluginManifest} :
    k.registry.getManifest plugin = some m ↔ ∃ e ∈ regs, e.plugin = plugin ∧ e.manifest = m := by
  rw [PluginRegistry.getManifest, h.manifests.lookup_iff, List.mem_flatMap]
  constructor
  · rintro ⟨e, he, hrow⟩
    cases List.mem_singleton.mp hrow
    exact ⟨e, he, rfl, rfl⟩
  · rintro ⟨e, he, rfl, rfl⟩
    exact ⟨e, he, List.mem_singleton_self _⟩

/-- A row that its registration declares by its manifest is one of a registered manifest. -/
theorem Listed.declared (h : Listed k regs) {β : Type} {rows : Registered → List β} {b : β}
    {plugin : String} {D : PluginManifest → Prop}
    (hrow : ∀ e ∈ regs, b ∈ rows e ↔ e.plugin = plugin ∧ D e.manifest) :
    b ∈ regs.flatMap rows ↔ ∃ m, k.registry.getManifest plugin = some m ∧ D m := by
  simp only [List.mem_flatMap, h.getManifest_iff]
  constructor
  · rintro ⟨e, he, hb⟩
    obtain ⟨hplugin, hD⟩ := (hrow e he).mp hb
    exact ⟨e.manifest, ⟨e, he, hplugin, rfl⟩, hD⟩
  · rintro ⟨_, ⟨e, he, hplugin, rfl⟩, hD⟩
    exact ⟨e, he, (hrow e he).mpr ⟨hplugin, hD⟩⟩

/-- The name of a registered plugin is qualified by the namespace it was registered into. -/
theorem Registered.namespaceOf_plugin {e : Registered} (he : e.Sound setup) :
    namespaceOf e.plugin = e.ns := by
  obtain ⟨k, source, -, hp, -⟩ := he
  have hname : e.plugin = qualify e.ns source.name := by
    rw [Registered.plugin, Registered.manifest, hp.renamed]
  rw [hname]
  exact namespaceOf_qualify (validateName_noSeparator hp.localName)

theorem Managed.consistent (h : Managed setup k regs) : Consistent setup k := by
  have hb := h.listed
  constructor
  case actions =>
    intro plugin action entry
    exact hb.modules.lookup_iff.trans (hb.declared fun e he => mem_moduleRows (h.sound e he))
  case wasmModules =>
    intro plugin name compiled
    exact hb.wasm.lookup_iff.trans (hb.declared fun e he => mem_wasmRows (h.sound e he))
  case stepTypeDefs =>
    intro key plugin definition
    exact hb.defs.lookup_iff.trans (hb.declared fun e he => mem_defRows (h.sound e he))
  case stepTypeImpls =>
    intro key selector plugin wasmModule
    exact hb.impls.lookup_iff.trans (hb.declared fun e he => mem_implRows (h.sound e he))
  case stepTypeAliases =>
    intro key plugin action
    exact hb.aliases.lookup_iff.trans (hb.declared fun e _ => mem_aliasRows)
  case permissions =>
    intro plugin perms
    exact hb.permissions.lookup_iff.trans
      (hb.declared fun e he => mem_permissionRows (h.sound e he))
  case subscriptions =>
    intro event plugin action
    rw [PluginRegistry.subscribersFor, hb.subscriptions.bucket, Ledger.mem_bucket]
    exact hb.declared fun e _ => mem_subscriptionRows
  case importOwners =>
    intro key plugin
    exact hb.owners.lookup_iff.trans
      (hb.declared fun e he => mem_ownerRows (hb.importKeys e he))
  case imports =>
    intro key body
    rw [hb.imports.lookup_iff, List.mem_flatMap]
    constructor
    · rintro ⟨e, he, hrow⟩
      obtain ⟨i, hi, heq⟩ := List.mem_map.mp hrow
      obtain ⟨hkey, rfl⟩ := Prod.ext_iff.mp heq
      obtain ⟨name, hdecl, hname⟩ := (mem_imports (h.sound e he)).mp hi
      exact ⟨e.plugin, e.manifest, name, hb.getManifest_iff.mpr ⟨e, he, rfl, rfl⟩, hdecl,
        hname.trans (importName_injective hkey)⟩
    · rintro ⟨plugin, m, name, hm, hdecl, rfl⟩
      obtain ⟨e, he, rfl, rfl⟩ := hb.getManifest_iff.mp hm
      exact ⟨e, he, List.mem_map_of_mem (f := importRow)
        ((mem_imports (h.sound e he)).mpr ⟨name, hdecl, rfl⟩)⟩
  case importsOnly =>
    intro name body hlook
    obtain ⟨e, -, hrow⟩ := List.mem_flatMap.mp (hb.imports.lookup_iff.mp hlook)
    obtain ⟨i, -, heq⟩ := List.mem_map.mp hrow
    exact ⟨i.1, (Prod.ext_iff.mp heq).1.symm⟩
  case registered =>
    intro plugin m hm
    obtain ⟨e, he, rfl, rfl⟩ := hb.getManifest_iff.mp hm
    have hns := namespaceOf_plugin (h.sound e he)
    obtain ⟨met, source, hmet, hp, hspi⟩ := h.sound e he
    refine ⟨rfl, met, hmet, hp.notRegistered, ?_, ?_⟩
    · intro key
      simp only [← bindsRole_iff, ← Kernel.mem_roleKeysFor]
      rw [PluginRegistry.pluginsForRole, hb.roles.bucket, Ledger.mem_bucket, List.mem_flatMap,
        hns, hspi]
      constructor
      · rintro ⟨e', he', hrow⟩
        obtain ⟨key', hkey, heq⟩ := List.mem_map.mp hrow
        obtain ⟨rfl, hplugin⟩ := Prod.ext_iff.mp heq
        rw [← hb.eq_of_plugin he he' hplugin]
        exact hkey
      · exact fun hkey => ⟨e, he, List.mem_map_of_mem (f := roleRow e.plugin) hkey⟩
    · intro action t
      have hrow : (⟨(e.plugin, action), t⟩ : InvokeEdge) ∈ e.edgeRows ↔ _ := mem_edgeRows hp
      rw [hb.edges, List.mem_flatMap]
      constructor
      · rintro ⟨e', he', hedge⟩
        have hplugin : e.plugin = e'.plugin := hb.edgeSources e' he' _ hedge
        rw [hb.eq_of_plugin he he' hplugin.symm] at hedge
        exact (hrow.mp hedge).2
      · exact fun hnode => ⟨e, he, hrow.mpr ⟨rfl, hnode⟩⟩
  case rolesOwned =>
    intro key plugin hmem
    rw [PluginRegistry.pluginsForRole, hb.roles.bucket, Ledger.mem_bucket] at hmem
    obtain ⟨e, he, hrow⟩ := List.mem_flatMap.mp hmem
    have hname : plugin = e.plugin := roleRows_owner e _ hrow
    rw [hname]
    exact hb.hasPlugin_iff.mpr (List.mem_map_of_mem he)
  case edgesOwned =>
    intro edge hmem
    rw [hb.edges] at hmem
    obtain ⟨e, he, hrow⟩ := List.mem_flatMap.mp hmem
    rw [hb.edgeSources e he edge hrow]
    exact hb.hasPlugin_iff.mpr (List.mem_map_of_mem he)

/-- Two kernels answer every lookup of the plugin tables alike. -/
structure Agree (k k' : Kernel) : Prop where
  actions : ∀ plugin action, k.registry.getAction plugin action = k'.registry.getAction plugin action
  manifests : ∀ plugin, k.registry.getManifest plugin = k'.registry.getManifest plugin
  permissions : ∀ plugin, k.registry.permissionsFor plugin = k'.registry.permissionsFor plugin
  wasmModules : ∀ plugin name,
    k.registry.getPluginWasmModule plugin name = k'.registry.getPluginWasmModule plugin name
  stepTypeDefs : ∀ key, k.registry.getStepTypeDef key = k'.registry.getStepTypeDef key
  stepTypeImpls : ∀ key selector,
    k.registry.stepTypeImplOwner key selector = k'.registry.stepTypeImplOwner key selector
  stepTypeAliases : ∀ key,
    k.registry.stepTypeAliasCandidates key = k'.registry.stepTypeAliasCandidates key
  roles : ∀ key, k.registry.pluginsForRole key = k'.registry.pluginsForRole key
  subscriptions : ∀ event, k.registry.subscribersFor event = k'.registry.subscribersFor event
  invokeEdges : k.registry.invokeEdges = k'.registry.invokeEdges
  importOwners : ∀ key, k.stepImportOwners.lookup key = k'.stepImportOwners.lookup key
  imports : ∀ name, k.additionalImports.lookup name = k'.additionalImports.lookup name

/-- Kernels with the same registrations in force have the same tables. -/
theorem Listed.agree {k' : Kernel} (h : Listed k regs) (h' : Listed k' regs) : Agree k k' := by
  have hmodules := h.modules.eq.trans h'.modules.eq.symm
  have hmanifests := h.manifests.eq.trans h'.manifests.eq.symm
  have hpermissions := h.permissions.eq.trans h'.permissions.eq.symm
  have hwasm := h.wasm.eq.trans h'.wasm.eq.symm
  have hdefs := h.defs.eq.trans h'.defs.eq.symm
  have himpls := h.impls.eq.trans h'.impls.eq.symm
  have haliases := h.aliases.eq.trans h'.aliases.eq.symm
  have howners := h.owners.eq.trans h'.owners.eq.symm
  have himports := h.imports.eq.trans h'.imports.eq.symm
  constructor
  case actions => intro plugin action; rw [PluginRegistry.getAction, hmodules]; rfl
  case manifests => intro plugin; rw [PluginRegistry.getManifest, hmanifests]; rfl
  case permissions => intro plugin; rw [PluginRegistry.permissionsFor, hpermissions]; rfl
  case wasmModules => intro plugin name; rw [PluginRegistry.getPluginWasmModule, hwasm]; rfl
  case stepTypeDefs => intro key; rw [PluginRegistry.getStepTypeDef, hdefs]; rfl
  case stepTypeImpls => intro key sel; rw [PluginRegistry.stepTypeImplOwner, himpls]; rfl
  case stepTypeAliases =>
    intro key
    rw [PluginRegistry.stepTypeAliasCandidates, haliases]
    rfl
  case roles => exact fun key => (h.roles.bucket key).trans (h'.roles.bucket key).symm
  case subscriptions =>
    exact fun event => (h.subscriptions.bucket event).trans (h'.subscriptions.bucket event).symm
  case invokeEdges => exact h.edges.trans h'.edges.symm
  case importOwners => intro key; rw [howners]
  case imports => intro name; rw [himports]

end Tables

/-! ### A library that knows a few texts -/

def plainManifest (name : String) : PluginManifest :=
  ⟨none, name, [], .empty, .empty, [], [], [], .empty, []⟩

def plainAction (steps : List StepDef) : ManifestAction :=
  { Action.ofSteps steps with subscribesTo := [], continuous := false, wallclockTimeoutMs := none }

/-- Reads the texts it has a manifest or a contract for, and nothing else. -/
def textSetup (manifests : List (String × PluginManifest))
    (contracts : List (String × SpiDefinition)) : Setup where
  parseJson json :=
    match manifests.lookup json, contracts.lookup json with
    | some _, _ => .ok (.object [("text", .string json),
        ("actions", .object [("run", .object [("steps", .array [])])])])
    | none, some definition => .ok (.object [("text", .string json),
        ("name", .string definition.name), ("actions", .object [])])
    | none, none => .error "unknown text"
  validatePluginManifest _ := .ok ()
  validateSpiDefinition _ := .ok ()
  readManifest value :=
    match ((value.get "text").bind Value.asStr).bind fun text => manifests.lookup text with
    | some manifest => .ok manifest
    | none => .error "not a manifest"
  readSpi json :=
    match contracts.lookup json with
    | some definition => .ok definition
    | none => .error "not a contract"
  describeStep _ := "malformed step"
  decodeBase64 _ := .error "no modules"
  compileWasm _ := .ok ()
  nativeStepImpls := []
  intrinsicStepImpls := []
  trustedStepTypeProviders := []
  nativeImplBindings := []
  appPermissionCategories := []

def notesManifest : PluginManifest :=
  { plainManifest "notes" with
    roles := ["storage"]
    actions := IndexMap.empty.insert "save" (plainAction [.new "done" "return" .emptyObject])
    stepTypes := IndexMap.empty.insert "notes.save" "save" }

def notesSetup : Setup :=
  textSetup [("kernel", plainManifest "kernel"), ("notes", notesManifest)] []

end Gwead
