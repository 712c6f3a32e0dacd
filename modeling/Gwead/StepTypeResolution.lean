import Gwead.Access
import Gwead.Consistency

/-!
# Which registration a written step type reaches

The walk of the chain admits a name at the first level with a registration that the plugin may
use.  That is the nearest registration exactly when the plugin may use that one, or none at all.
-/

namespace Gwead

open Identity Registration

namespace StepTypeAccess

/-- The registry key of a written name, if it may be used at all. -/
def resolve (access : StepTypeAccess) (stepType : String) : Option String :=
  if reservedStepTypeNames.contains stepType then some stepType else access.allowed.lookup stepType

def bodyOwner (access : StepTypeAccess) (stepType : String) : Option BodyOwner :=
  access.bodyOwners.lookup stepType

end StepTypeAccess

/-! ### What is registered, and what may be used -/

/-- A plugin that registers a written name, and whether everyone may use the name. -/
inductive Offers (r : PluginRegistry) (written : String) : String → Bool → Prop
  | definition {owner : String} {m : PluginManifest} {d : StepTypeDef}
      (hm : r.getManifest owner = some m) (hd : d ∈ m.stepTypeDefs) (hname : d.name = written) :
      Offers r written owner d.freelyUsable
  | aliasOf {owner action : String} {m : PluginManifest} (hm : r.getManifest owner = some m)
      (halias : m.stepTypes.get? written = some action) : Offers r written owner false

section Use

variable (r : PluginRegistry) (plugin written : String)

def MayUse (owner : String) (free : Bool) : Prop :=
  owner = plugin ∨ free = true ∨ .stepType written ∈ r.permissionsFor plugin

instance (owner : String) (free : Bool) : Decidable (MayUse r plugin written owner free) :=
  inferInstanceAs (Decidable (_ ∨ _ ∨ _))

def RegisteredIn (ns : String) : Prop :=
  ∃ owner free, Offers r written owner free ∧ namespaceOf owner = ns

def UsableIn (ns : String) : Prop :=
  ∃ owner free, Offers r written owner free ∧ namespaceOf owner = ns ∧
    MayUse r plugin written owner free

/-- The nearest namespace on the plugin's chain that registers the name. -/
def Nearest (ns : String) : Prop :=
  ∃ nearer farther, ancestorNamespaces (namespaceOf plugin) = nearer ++ ns :: farther ∧
    (∀ closer ∈ nearer, ¬RegisteredIn r written closer) ∧ RegisteredIn r written ns

/-- The registry key of a name that a plugin of the namespace registers. -/
def keyIn (ns written : String) : String :=
  if written.toList.contains stepTypeSeparator then qualify ns written else written

/-- The definition a plugin reaches in a namespace by a written name. -/
structure ReachesDef (ns owner : String) (d : StepTypeDef) : Prop where
  found : r.getStepTypeDef (keyIn ns written) = some (owner, d)
  name : d.name = written
  «namespace» : namespaceOf owner = ns
  usable : MayUse r plugin written owner d.freelyUsable

/-- The nearest registration decides: what it is resolves if it may be used, and otherwise
nothing does; a body runs for its owner exactly if a definition of another plugin was reached. -/
structure NearestFirst (ns : String) : Prop where
  usable : UsableIn r plugin written ns →
    (r.stepTypeAccessFor plugin).resolve written = some (keyIn ns written)
  refused : ¬UsableIn r plugin written ns →
    (r.stepTypeAccessFor plugin).resolve written = none
  body : ∀ b, (r.stepTypeAccessFor plugin).bodyOwner written = some b ↔
    ∃ owner d m, ReachesDef r plugin written ns owner d ∧ owner ≠ plugin ∧
      r.getManifest owner = some m ∧
        b = ⟨owner, m.declaredSecretKeys, m.overridableSecretKeys⟩

end Use

/-! ### The walk -/

section Walk

variable (r : PluginRegistry) (plugin written ns : String)

/-- What the walk has found for the name. -/
def reached (access : StepTypeAccess) : Option (String × Option BodyOwner) :=
  (access.allowed.lookup written).map fun key => (key, access.bodyOwners.lookup written)

/-- An owner is recorded together with the key. -/
def Attached (access : StepTypeAccess) : Prop :=
  access.allowed.lookup written = none → access.bodyOwners.lookup written = none

/-- The plugin that ships a body, unless that is the plugin itself. -/
def foreignOwner (owner : String) : Option BodyOwner :=
  if owner = plugin then none
  else (r.getManifest owner).map fun m =>
    ⟨owner, m.declaredSecretKeys, m.overridableSecretKeys⟩

/-- What a definition offers to the name at a level. -/
def offerDef (e : String × (String × StepTypeDef)) :
    Option (String × Option BodyOwner) :=
  if e.2.2.name = written ∧ namespaceOf e.2.1 = ns ∧
      MayUse r plugin written e.2.1 e.2.2.freelyUsable then
    some (e.1, foreignOwner r plugin e.2.1)
  else none

/-- What an alias offers to the name at a level. -/
def offerAlias (e : String × NodeRef) : Option (String × Option BodyOwner) :=
  if localNameOf e.1 = written ∧ namespaceOf e.2.1 = ns ∧ MayUse r plugin written e.2.1 false then
    some (e.1, none)
  else none

/-- What a level offers to the name, the definitions first. -/
def offerIn : Option (String × Option BodyOwner) :=
  (r.stepTypeDefs.findSome? (offerDef r plugin written ns)).or
    (r.stepTypeAliases.findSome? (offerAlias r plugin written ns))

variable {r plugin written ns}

theorem lookup_addBodyOwner (owner name : String) (owners : List (String × BodyOwner)) :
    (r.addBodyOwner plugin owner name owners).lookup written =
      if written = name then (foreignOwner r plugin owner).or (owners.lookup written)
      else owners.lookup written := by
  unfold PluginRegistry.addBodyOwner foreignOwner
  by_cases howner : owner = plugin
  · simp [howner]
  · cases r.getManifest owner <;> simp [howner, AssocMap.lookup_put]

theorem mayUse_iff {owner : String} {free : Bool} : MayUse r plugin written owner free ↔
    owner = plugin ∨ free ∨ (checkStepType (r.permissionsFor plugin) written).isGranted := by
  rw [checkStepType_granted, MayUse]

variable (r plugin ns) in
/-- A definition is admitted if its name is still free and it may be used. -/
theorem reached_admitDef {access : StepTypeAccess} (h : Attached written access)
    (e : String × (String × StepTypeDef)) :
    Attached written (r.admitDef plugin ns access e) ∧
      reached written (r.admitDef plugin ns access e) =
        (reached written access).or (offerDef r plugin written ns e) := by
  obtain ⟨key, owner, d⟩ := e
  by_cases hname : d.name = written
  · subst hname
    cases hlookup : access.allowed.lookup d.name with
    | some found =>
      have hsame : r.admitDef plugin ns access (key, owner, d) = access := by
        simp [PluginRegistry.admitDef, hlookup]
      rw [hsame]
      simp [h, reached, hlookup]
    | none =>
      by_cases hoffer : namespaceOf owner = ns ∧ MayUse r plugin d.name owner d.freelyUsable
      · have hoffers := mayUse_iff.mp hoffer.2
        simp only [PluginRegistry.admitDef, hoffer.1, hlookup, offerDef, reached, Attached]
        simp [hoffers, hoffer.2, lookup_addBodyOwner, h hlookup, AssocMap.lookup_put]
      · have hsame : r.admitDef plugin ns access (key, owner, d) = access := by
          simp only [PluginRegistry.admitDef, hlookup]
          rw [mayUse_iff] at hoffer
          grind
        rw [hsame]
        simp [h, offerDef, hoffer]
  · have hlookup : (r.admitDef plugin ns access (key, owner, d)).allowed.lookup written =
        access.allowed.lookup written ∧
        (r.admitDef plugin ns access (key, owner, d)).bodyOwners.lookup written =
          access.bodyOwners.lookup written := by
      unfold PluginRegistry.admitDef
      dsimp only
      split_ifs
      · simp
      · simp [AssocMap.lookup_put, lookup_addBodyOwner, Ne.symm hname]
      · simp
    refine ⟨fun hnone => ?_, by simp [reached, hlookup, offerDef, hname]⟩
    rw [hlookup.2]
    exact h (hlookup.1 ▸ hnone)

variable (r plugin ns) in
theorem reached_admitAlias {access : StepTypeAccess} (h : Attached written access)
    (e : String × NodeRef) :
    Attached written (r.admitAlias plugin ns access e) ∧
      reached written (r.admitAlias plugin ns access e) =
        (reached written access).or (offerAlias r plugin written ns e) := by
  obtain ⟨key, owner, action⟩ := e
  by_cases hname : localNameOf key = written
  · subst hname
    cases hlookup : access.allowed.lookup (localNameOf key) with
    | some found =>
      have hsame : r.admitAlias plugin ns access (key, owner, action) = access := by
        simp [PluginRegistry.admitAlias, hlookup]
      rw [hsame]
      simp [h, reached, hlookup]
    | none =>
      by_cases hoffer : namespaceOf owner = ns ∧ MayUse r plugin (localNameOf key) owner false
      · have hoffers := mayUse_iff.mp hoffer.2
        simp only [Bool.false_eq_true, false_or] at hoffers
        simp only [PluginRegistry.admitAlias, hoffer.1, hlookup, offerAlias, reached, Attached]
        simp [hoffers, hoffer.2, h hlookup, AssocMap.lookup_put]
      · have hsame : r.admitAlias plugin ns access (key, owner, action) = access := by
          simp only [PluginRegistry.admitAlias, hlookup]
          rw [mayUse_iff] at hoffer
          grind
        rw [hsame]
        simp [h, offerAlias, hoffer]
  · have hlookup : (r.admitAlias plugin ns access (key, owner, action)).allowed.lookup written =
        access.allowed.lookup written ∧
        (r.admitAlias plugin ns access (key, owner, action)).bodyOwners.lookup written =
          access.bodyOwners.lookup written := by
      unfold PluginRegistry.admitAlias
      dsimp only
      split_ifs
      · simp
      · simp [AssocMap.lookup_put, Ne.symm hname]
      · simp
    refine ⟨fun hnone => ?_, by simp [reached, hlookup, offerAlias, hname]⟩
    rw [hlookup.2]
    exact h (hlookup.1 ▸ hnone)

variable (r plugin ns) in
/-- A level adds what it offers to a name that is still free. -/
theorem reached_level {access : StepTypeAccess} (h : Attached written access) :
    let access' := r.stepTypeAliases.foldl (r.admitAlias plugin ns)
      (r.stepTypeDefs.foldl (r.admitDef plugin ns) access)
    Attached written access' ∧ reached written access' =
      (reached written access).or (offerIn r plugin written ns) := by
  intro access'
  obtain ⟨hdefs, hreached⟩ := AssocMap.foldl_fills
    (fun access e (h : Attached written access) => reached_admitDef r plugin ns h e)
    r.stepTypeDefs h
  obtain ⟨haliases, hreached'⟩ := AssocMap.foldl_fills
    (fun access e (h : Attached written access) => reached_admitAlias r plugin ns h e)
    r.stepTypeAliases hdefs
  refine ⟨haliases, ?_⟩
  rw [hreached', hreached, Option.or_assoc]
  rfl

theorem attached_empty : Attached written ⟨[], []⟩ := fun _ => rfl

variable (r plugin written) in
/-- The walk finds the first offer along the chain. -/
theorem reached_access : Attached written (r.stepTypeAccessFor plugin) ∧
    reached written (r.stepTypeAccessFor plugin) =
      (ancestorNamespaces (namespaceOf plugin)).findSome? (offerIn r plugin written) :=
  AssocMap.foldl_fills (fun _ ns h => reached_level r plugin ns h)
    (ancestorNamespaces (namespaceOf plugin)) attached_empty

end Walk

/-! ### Levels -/

/-- The step type tables hold what the manifests declare, a key once, in any order. -/
structure Tabled (r : PluginRegistry) : Prop where
  defs : ∀ key owner d, (key, (owner, d)) ∈ r.stepTypeDefs ↔
    ∃ m, r.getManifest owner = some m ∧ d ∈ m.stepTypeDefs ∧
      PluginRegistry.stepTypeKey owner d.name = key
  aliases : ∀ key owner action, (key, (owner, action)) ∈ r.stepTypeAliases ↔
    ∃ m, r.getManifest owner = some m ∧ ∃ aliasName, m.stepTypes.get? aliasName = some action ∧
      PluginRegistry.stepTypeKey owner aliasName = key
  aliasNames : ∀ owner m aliasName action, r.getManifest owner = some m →
    m.stepTypes.get? aliasName = some action → namespaceSeparator ∉ aliasName.toList
  keys : (r.stepTypeDefs.map Prod.fst).Nodup

section Levels

variable {r : PluginRegistry} {plugin written ns : String}

theorem localNameOf_stepTypeKey (owner : String) {aliasName : String}
    (h : namespaceSeparator ∉ aliasName.toList) :
    localNameOf (PluginRegistry.stepTypeKey owner aliasName) = aliasName := by
  unfold PluginRegistry.stepTypeKey
  split
  · exact localNameOf_qualify h
  · simp [localNameOf, rsplitOnce_eq_none.mpr h]

theorem offerDef_some (h : Tabled r) {e : String × (String × StepTypeDef)}
    (he : e ∈ r.stepTypeDefs) {found : String × Option BodyOwner}
    (hoffer : offerDef r plugin written ns e = some found) :
    ReachesDef r plugin written ns e.2.1 e.2.2 ∧
      found = (keyIn ns written, foreignOwner r plugin e.2.1) := by
  obtain ⟨key, owner, d⟩ := e
  obtain ⟨m, hm, hd, rfl⟩ := (h.defs key owner d).mp he
  simp only [offerDef, Option.ite_none_right_eq_some, Option.some.injEq] at hoffer
  obtain ⟨⟨rfl, rfl, huse⟩, rfl⟩ := hoffer
  exact ⟨⟨AssocMap.lookup_of_mem h.keys he, rfl, rfl, huse⟩, rfl⟩

theorem ReachesDef.offer {owner : String} {d : StepTypeDef}
    (hreach : ReachesDef r plugin written ns owner d) :
    (keyIn ns written, (owner, d)) ∈ r.stepTypeDefs ∧
      offerDef r plugin written ns (keyIn ns written, (owner, d)) =
        some (keyIn ns written, foreignOwner r plugin owner) := by
  refine ⟨AssocMap.mem_of_lookup hreach.found, ?_⟩
  simp [offerDef, hreach.name, hreach.namespace, hreach.usable]

theorem ReachesDef.usableIn (h : Tabled r) {owner : String} {d : StepTypeDef}
    (hreach : ReachesDef r plugin written ns owner d) : UsableIn r plugin written ns := by
  obtain ⟨m, hm, hd, -⟩ := (h.defs _ owner d).mp hreach.offer.1
  exact ⟨owner, _, .definition hm hd hreach.name, hreach.namespace, hreach.usable⟩

theorem offerAlias_some (h : Tabled r) {e : String × NodeRef} (he : e ∈ r.stepTypeAliases)
    {found : String × Option BodyOwner} (hoffer : offerAlias r plugin written ns e = some found) :
    Offers r written e.2.1 false ∧ namespaceOf e.2.1 = ns ∧
      MayUse r plugin written e.2.1 false ∧ found = (keyIn ns written, none) := by
  obtain ⟨key, owner, action⟩ := e
  obtain ⟨m, hm, aliasName, hget, rfl⟩ := (h.aliases key owner action).mp he
  have hname := localNameOf_stepTypeKey owner (h.aliasNames _ _ _ _ hm hget)
  simp only [offerAlias, hname, Option.ite_none_right_eq_some, Option.some.injEq] at hoffer
  obtain ⟨⟨rfl, rfl, huse⟩, rfl⟩ := hoffer
  exact ⟨.aliasOf hm hget, rfl, huse, rfl⟩

/-- A level offers something exactly if the plugin may use a registration of the name there. -/
theorem offerIn_isSome (h : Tabled r) :
    (offerIn r plugin written ns).isSome ↔ UsableIn r plugin written ns := by
  rw [offerIn, Option.isSome_or, Bool.or_eq_true, List.findSome?_isSome_iff,
    List.findSome?_isSome_iff]
  constructor
  · rintro (⟨e, he, hsome⟩ | ⟨e, he, hsome⟩)
    · obtain ⟨found, hoffer⟩ := Option.isSome_iff_exists.mp hsome
      exact (offerDef_some h he hoffer).1.usableIn h
    · obtain ⟨found, hoffer⟩ := Option.isSome_iff_exists.mp hsome
      obtain ⟨hoffers, hns, huse, -⟩ := offerAlias_some h he hoffer
      exact ⟨_, _, hoffers, hns, huse⟩
  · rintro ⟨owner, free, hoffers, rfl, huse⟩
    cases hoffers with
    | @definition m d hm hd hname =>
      have hrow := (h.defs _ owner d).mpr ⟨m, hm, hd, rfl⟩
      exact Or.inl ⟨_, hrow, by simp [offerDef, hname, huse]⟩
    | @aliasOf action m hm halias =>
      have hrow := (h.aliases _ owner action).mpr ⟨m, hm, written, halias, rfl⟩
      have hname := localNameOf_stepTypeKey owner (h.aliasNames _ _ _ _ hm halias)
      exact Or.inr ⟨_, hrow, by simp [offerAlias, hname, huse]⟩

/-- What a level offers is the key of the name there, and the owner of the definition reached. -/
theorem offerIn_some (h : Tabled r) {key : String} {body : Option BodyOwner}
    (hoffer : offerIn r plugin written ns = some (key, body)) :
    key = keyIn ns written ∧ ∀ b, body = some b ↔
      ∃ owner d m, ReachesDef r plugin written ns owner d ∧ owner ≠ plugin ∧
        r.getManifest owner = some m ∧
          b = ⟨owner, m.declaredSecretKeys, m.overridableSecretKeys⟩ := by
  rw [offerIn] at hoffer
  cases hdefs : r.stepTypeDefs.findSome? (offerDef r plugin written ns) with
  | some found =>
    obtain ⟨e, he, hfound⟩ := List.exists_of_findSome?_eq_some hdefs
    obtain ⟨hreach, rfl⟩ := offerDef_some h he hfound
    simp only [hdefs, Option.some_or, Option.some.injEq, Prod.mk.injEq] at hoffer
    obtain ⟨rfl, rfl⟩ := hoffer
    refine ⟨rfl, fun b => ?_⟩
    unfold foreignOwner
    constructor
    · intro hb
      split_ifs at hb with howner
      obtain ⟨m, hm, rfl⟩ := Option.map_eq_some_iff.mp hb
      exact ⟨_, _, m, hreach, howner, hm, rfl⟩
    · rintro ⟨owner, d, m, hreach', howner, hm, rfl⟩
      -- a key has one definition
      have hsame := hreach.found.symm.trans hreach'.found
      simp only [Option.some.injEq, Prod.mk.injEq] at hsame
      simp [hsame.1, howner, hm]
  | none =>
    simp only [hdefs, Option.none_or] at hoffer
    obtain ⟨e, he, hfound⟩ := List.exists_of_findSome?_eq_some hoffer
    obtain ⟨-, -, -, heq⟩ := offerAlias_some h he hfound
    cases heq
    refine ⟨rfl, fun b => ⟨nofun, ?_⟩⟩
    rintro ⟨owner, d, m, hreach, -⟩
    obtain ⟨hmem, hsome⟩ := hreach.offer
    simp [List.findSome?_eq_none_iff.mp hdefs _ hmem] at hsome

end Levels

/-! ### The walk against the nearest registration -/

section Chain

variable {r : PluginRegistry} {plugin written ns : String}

/-- Every level before the nearest one offers nothing. -/
theorem UsableIn.registered (h : UsableIn r plugin written ns) : RegisteredIn r written ns := by
  obtain ⟨owner, free, hoffers, hns, -⟩ := h
  exact ⟨owner, free, hoffers, hns⟩

theorem offerIn_none (h : Tabled r) (hns : ¬UsableIn r plugin written ns) :
    offerIn r plugin written ns = none := by
  rw [← Option.not_isSome_iff_eq_none, offerIn_isSome h]
  exact hns

theorem resolve_eq (hwritten : written ∉ reservedStepTypeNames) (access : StepTypeAccess) :
    access.resolve written = (reached written access).map Prod.fst := by
  simp [StepTypeAccess.resolve, hwritten, reached, Function.comp_def]

/-- Nothing closer than the nearest registration offers anything. -/
theorem reached_nearest (h : Tabled r) (hnearest : Nearest r plugin written ns) :
    ∃ farther : List String, reached written (r.stepTypeAccessFor plugin) =
      (offerIn r plugin written ns).or (farther.findSome? (offerIn r plugin written)) := by
  obtain ⟨nearer, farther, hchain, hcloser, -⟩ := hnearest
  refine ⟨farther, ?_⟩
  have hnothing : nearer.findSome? (offerIn r plugin written) = none :=
    List.findSome?_eq_none_iff.mpr fun ns' hns' =>
      offerIn_none h fun huse => hcloser ns' hns' huse.registered
  rw [(reached_access r plugin written).2, hchain, List.findSome?_append, hnothing, Option.none_or,
    List.findSome?_cons]
  cases offerIn r plugin written ns <;> rfl

/-- A nearest registration that the plugin may use is what the name resolves to. -/
theorem nearest_first_of_usable (h : Tabled r) (hwritten : written ∉ reservedStepTypeNames)
    (hnearest : Nearest r plugin written ns) (huse : UsableIn r plugin written ns) :
    NearestFirst r plugin written ns := by
  obtain ⟨farther, hreached⟩ := reached_nearest h hnearest
  obtain ⟨⟨key, body⟩, hoffer⟩ := Option.isSome_iff_exists.mp ((offerIn_isSome h).mpr huse)
  obtain ⟨rfl, hbody⟩ := offerIn_some h hoffer
  rw [hoffer, Option.some_or] at hreached
  obtain ⟨key, hkey, heq⟩ := Option.map_eq_some_iff.mp hreached
  refine ⟨fun _ => ?_, fun hnot => absurd huse hnot, fun b => ?_⟩
  · rw [resolve_eq hwritten, hreached]
    rfl
  · rw [← hbody b, StepTypeAccess.bodyOwner]
    simp only [Prod.mk.injEq] at heq
    rw [heq.2]

/-- Where no registration may be used, the name resolves to nothing. -/
theorem nearest_first_of_refused (h : Tabled r) (hwritten : written ∉ reservedStepTypeNames)
    (hnone : ∀ ns' ∈ ancestorNamespaces (namespaceOf plugin), ¬UsableIn r plugin written ns')
    (hnearest : Nearest r plugin written ns) : NearestFirst r plugin written ns := by
  have hreached : reached written (r.stepTypeAccessFor plugin) = none := by
    rw [(reached_access r plugin written).2, List.findSome?_eq_none_iff]
    exact fun ns' hns' => offerIn_none h (hnone ns' hns')
  have hns : ns ∈ ancestorNamespaces (namespaceOf plugin) := by
    obtain ⟨nearer, farther, hchain, -⟩ := hnearest
    simp [hchain]
  refine ⟨fun huse => absurd huse (hnone ns hns), fun _ => ?_, fun b => ?_⟩
  · rw [resolve_eq hwritten, hreached]
    rfl
  · have hfree : (r.stepTypeAccessFor plugin).allowed.lookup written = none := by
      simpa [reached] using hreached
    have hnobody := (reached_access r plugin written).1 hfree
    rw [StepTypeAccess.bodyOwner, hnobody]
    refine ⟨nofun, ?_⟩
    rintro ⟨owner, d, m, hreach, -⟩
    exact absurd (hreach.usableIn h) (hnone ns hns)

/-- Past a refused registration the walk goes on, and any registration it may use then counts. -/
theorem resolve_past_refusal (h : Tabled r) (hwritten : written ∉ reservedStepTypeNames)
    {ns' : String} (hchain : ns' ∈ ancestorNamespaces (namespaceOf plugin))
    (huse : UsableIn r plugin written ns') :
    (r.stepTypeAccessFor plugin).resolve written ≠ none := by
  rw [resolve_eq hwritten, Ne, Option.map_eq_none_iff,
    (reached_access r plugin written).2, List.findSome?_eq_none_iff]
  intro hnone
  have hsome := (offerIn_isSome h).mpr huse
  simp [hnone ns' hchain] at hsome

end Chain

/-! ### Reachable kernels -/

/-- The tables as some iteration order of their maps lists them. -/
def PluginRegistry.iterated (r : PluginRegistry) (defs : List (String × (String × StepTypeDef)))
    (aliases : List (String × NodeRef)) : PluginRegistry :=
  { r with stepTypeDefs := defs, stepTypeAliases := aliases }

section Reachable

variable {setup : Setup} {k : Kernel} {defs : List (String × (String × StepTypeDef))}
  {aliases : List (String × NodeRef)}

theorem tabled_of_reachable (h : k.Reachable setup) (hdefs : defs.Perm k.registry.stepTypeDefs)
    (haliases : aliases.Perm k.registry.stepTypeAliases) :
    Tabled (k.registry.iterated defs aliases) := by
  obtain ⟨regs, hmanaged⟩ := managed_of_reachable h
  have hb := hmanaged.listed
  constructor
  case defs =>
    intro key owner d
    exact hdefs.mem_iff.trans (hb.defs.eq ▸
      hb.declared fun e he => mem_defRows (hmanaged.sound e he))
  case aliases =>
    intro key owner action
    exact haliases.mem_iff.trans (hb.aliases.eq ▸ hb.declared fun e he => mem_aliasRows)
  case aliasNames =>
    intro owner m aliasName action hm halias
    obtain ⟨e, he, -, rfl⟩ := hb.getManifest_iff.mp hm
    obtain ⟨_, _, -, hp, -⟩ := hmanaged.sound e he
    exact hp.aliasNames _ ((IndexMap.mem_entries_iff _ _ _).mpr halias)
  case keys =>
    have hkeys : (k.registry.stepTypeDefs.map Prod.fst).Nodup := hb.defs.eq ▸ hb.defs.nodup
    exact (hdefs.map Prod.fst).nodup_iff.mpr hkeys

/-- In every reachable kernel, in whatever order its tables are walked: the nearest registration
of a name decides exactly if the plugin may use that registration, or none on its chain. -/
theorem nearest_first_iff (h : k.Reachable setup) (hdefs : defs.Perm k.registry.stepTypeDefs)
    (haliases : aliases.Perm k.registry.stepTypeAliases) {plugin written ns : String}
    (hwritten : written ∉ reservedStepTypeNames)
    (hnearest : Nearest (k.registry.iterated defs aliases) plugin written ns) :
    NearestFirst (k.registry.iterated defs aliases) plugin written ns ↔
      (UsableIn (k.registry.iterated defs aliases) plugin written ns ∨
        ∀ ns' ∈ ancestorNamespaces (namespaceOf plugin),
          ¬UsableIn (k.registry.iterated defs aliases) plugin written ns') := by
  have htabled := tabled_of_reachable h hdefs haliases
  constructor
  · intro hfirst
    by_cases huse : UsableIn (k.registry.iterated defs aliases) plugin written ns
    · exact Or.inl huse
    · exact Or.inr fun ns' hchain huse' =>
        resolve_past_refusal htabled hwritten hchain huse' (hfirst.refused huse)
  · rintro (huse | hnone)
    · exact nearest_first_of_usable htabled hwritten hnearest huse
    · exact nearest_first_of_refused htabled hwritten hnone hnearest

end Reachable

/-! ### A team's step type and a global one -/

def signDef (freelyUsable : Bool) : StepTypeDef := ⟨"vault.sign", freelyUsable, none, []⟩

/-- The team's `vault` keeps its step type to those with a grant, the global one does not. -/
def vaultSetup : Setup :=
  textSetup [("kernel", plainManifest "kernel"),
    ("open", { plainManifest "vault" with stepTypeDefs := [signDef true] }),
    ("closed", { plainManifest "vault" with stepTypeDefs := [signDef false] }),
    ("app", plainManifest "app")] []

def vaultCalls : List Kernel.Call := [.load "" "open", .load "team" "closed", .load "team" "app"]

/-- What the app and the owner of the team's step type find. -/
theorem vault_booted : ∃ k₀ k, Kernel.boot vaultSetup "kernel" = .ok k₀ ∧
    k = k₀.afterAll vaultSetup vaultCalls ∧ k.registry.hasPlugin "team/app" = true ∧
    k.registry.getManifest "team/vault" =
      some { plainManifest "team/vault" with stepTypeDefs := [signDef false] } ∧
    offerIn k.registry "team/app" "vault.sign" "team" = none ∧
    (k.registry.stepTypeAccessFor "team/app").resolve "vault.sign" = some "vault.sign" ∧
    (offerIn k.registry "team/vault" "vault.sign" "team").isSome :=
  ⟨_, _, rfl, rfl, by decide, by decide, by decide, by decide, by decide⟩

theorem nearest_vault {r : PluginRegistry} {plugin : String}
    (hm : r.getManifest "team/vault" =
      some { plainManifest "team/vault" with stepTypeDefs := [signDef false] })
    (hplugin : namespaceOf plugin = "team") : Nearest r plugin "vault.sign" "team" := by
  refine ⟨[], [""], by rw [hplugin]; decide, by simp, "team/vault", false, ?_, by decide⟩
  exact .definition (d := signDef false) hm List.mem_cons_self rfl

/-- The app is refused the nearest registration and reaches the global one. -/
theorem refusal_bypassed : ¬∀ (setup : Setup) (k : Kernel), k.Reachable setup →
    ∀ plugin written ns, written ∉ reservedStepTypeNames →
      Nearest k.registry plugin written ns → NearestFirst k.registry plugin written ns := by
  intro hall
  obtain ⟨k₀, k, hboot, hk, -, hm, hoffer, hresolve, -⟩ := vault_booted
  have hreach : k.Reachable vaultSetup := hk ▸ Kernel.reachable_afterAll hboot _
  have hrefused : ¬UsableIn k.registry "team/app" "vault.sign" "team" := by
    have htabled : Tabled k.registry := tabled_of_reachable hreach (.refl _) (.refl _)
    simp [← offerIn_isSome htabled, hoffer]
  have hfirst := hall _ k hreach "team/app" "vault.sign" "team" (by decide)
    (nearest_vault hm (by decide))
  rw [hfirst.refused hrefused] at hresolve
  cases hresolve

/-- The owner of the nearest registration reaches it, in the other order of the table too. -/
theorem nearest_first_vault : ∃ k : Kernel, k.Reachable vaultSetup ∧
    NearestFirst (k.registry.iterated k.registry.stepTypeDefs.reverse k.registry.stepTypeAliases)
      "team/vault" "vault.sign" "team" := by
  obtain ⟨k₀, k, hboot, hk, -, hm, -, -, hoffer⟩ := vault_booted
  have hreach : k.Reachable vaultSetup := hk ▸ Kernel.reachable_afterAll hboot _
  have huse : UsableIn k.registry "team/vault" "vault.sign" "team" :=
    (offerIn_isSome (tabled_of_reachable hreach (.refl _) (.refl _))).mp hoffer
  refine ⟨k, hreach, (nearest_first_iff hreach (List.reverse_perm _) (.refl _) (by decide)
    (nearest_vault hm (by decide))).mpr (Or.inl ?_)⟩
  obtain ⟨owner, free, hoffers, hns, hmay⟩ := huse
  refine ⟨owner, free, ?_, hns, hmay⟩
  cases hoffers with
  | definition hm hd hname => exact .definition hm hd hname
  | aliasOf hm halias => exact .aliasOf hm halias

end Gwead
