import Gwead.ContractGuard

/-!
# A reload that fails

The old manifest is out before the new one is tried, and is put back by registering it again.
Nothing has changed then exactly when it registers as before and was the last to be filed.
-/

namespace Gwead

open Identity Registration Registered

/-- Two kernels answer every lookup alike, those of contracts and handles included.  The users of a
role are a set. -/
structure Unchanged (k k' : Kernel) : Prop where
  tables : Agree k k'
  contracts : ∀ key, k.spiRegistry.get key = k'.spiRegistry.get key
  roleUsers : ∀ key user, user ∈ k.roleUsers key ↔ user ∈ k'.roleUsers key
  loaded : ∀ handle, k.loadedManifests.lookup handle = k'.loadedManifests.lookup handle

/-- A bucket has `a` at its end if `here`, and nowhere else. -/
def FiledLast {α : Type} [BEq α] (bucket : List α) (a : α) (here : Prop) [Decidable here] : Prop :=
  bucket = (bucket.filter fun b => b != a) ++ if here then [a] else []

/-- What is the plugin's own comes after everything of others. -/
def OwnLast {α : Type} (bucket : List α) (own : α → Bool) : Prop :=
  bucket = (bucket.filter fun b => !own b) ++ bucket.filter own

/-- The old plugin would register again with the edges it has, and is last wherever its roles
and subscriptions file it. -/
structure PluginReturns (setup : Setup) (k : Kernel) (handle : ManifestHandle)
    (old : ManifestRecord) (m : PluginManifest) : Prop where
  passes : ∃ k' p, (k.forget handle).scrub old = .ok k' ∧
    prepare setup (k'.untrackManifest handle) old.namespace m false = .ok p ∧
    k.registry.invokeEdges =
      (k.registry.invokeEdges.filter fun e => e.from.1 != old.identifier) ++ p.newEdges
  roles : ∀ key, FiledLast (k.registry.pluginsForRole key) old.identifier
    (key ∈ Kernel.roleKeysFor k.spiRegistry old.namespace m.roles)
  subscriptions : ∀ event,
    OwnLast (k.registry.subscribersFor event) fun s => s.1 == old.identifier
  users : ∀ key, handle ∈ k.roleUsers key ↔
    key ∈ Kernel.roleKeysFor k.spiRegistry old.namespace m.roles

/-- The old manifest can be put back as it was: a contract if it is what its text says, or is not
there at all. -/
def Returns (setup : Setup) (k : Kernel) (handle : ManifestHandle) (old : ManifestRecord) : Prop :=
  match old.payload with
  | .spiDef json =>
    k.spiRegistry.get old.identifier = none ∨
      (∃ definition, setup.readSpi json = .ok definition ∧
        k.spiRegistry.get old.identifier = some definition) ∧
      ∀ key, handle ∉ k.roleUsers key
  | .plugin m => PluginReturns setup k handle old m

section Lookups

variable {setup : Setup} {k k' : Kernel} {regs : List Registered}

/-- In a consistent kernel every table but the ordered ones is a function of the manifests. -/
theorem Consistent.agree (h : Consistent setup k) (h' : Consistent setup k')
    (hmanifests : ∀ plugin, k.registry.getManifest plugin = k'.registry.getManifest plugin)
    (hroles : ∀ key, k.registry.pluginsForRole key = k'.registry.pluginsForRole key)
    (hsubs : ∀ event, k.registry.subscribersFor event = k'.registry.subscribersFor event)
    (hedges : k.registry.invokeEdges = k'.registry.invokeEdges) : Agree k k' := by
  refine ⟨?_, hmanifests, ?_, ?_, ?_, ?_, ?_, hroles, hsubs, hedges, ?_, ?_⟩
  · intro plugin action
    ext entry
    rw [h.actions, h'.actions, hmanifests]
  · intro plugin
    have hperms : k.registry.permissions.lookup plugin = k'.registry.permissions.lookup plugin := by
      ext perms
      rw [h.permissions, h'.permissions, hmanifests]
    rw [PluginRegistry.permissionsFor, hperms]
    rfl
  · intro plugin name
    ext compiled
    rw [h.wasmModules, h'.wasmModules, hmanifests]
  · intro key
    ext ⟨plugin, definition⟩
    rw [h.stepTypeDefs, h'.stepTypeDefs, hmanifests]
  · intro key selector
    ext ⟨plugin, wasmModule⟩
    rw [h.stepTypeImpls, h'.stepTypeImpls, hmanifests]
  · intro key
    ext ⟨plugin, action⟩
    rw [h.stepTypeAliases, h'.stepTypeAliases, hmanifests]
  · intro key
    ext plugin
    rw [h.importOwners, h'.importOwners, hmanifests]
  · intro name
    ext body
    constructor
    · intro hlook
      obtain ⟨key, rfl⟩ := h.importsOnly name body hlook
      rw [h.imports] at hlook
      rw [h'.imports]
      simpa only [hmanifests] using hlook
    · intro hlook
      obtain ⟨key, rfl⟩ := h'.importsOnly name body hlook
      rw [h'.imports] at hlook
      rw [h.imports]
      simpa only [hmanifests] using hlook

end Lookups

/-! ### Taken out and put back -/

section Torn

variable {setup : Setup} {k k' : Kernel} {regs : List Registered} {handle : ManifestHandle}
  {old : ManifestRecord} {m : PluginManifest}

/-- A fold of new users adds the handle once, at the end, where it is not yet. -/
theorem lookup_foldl_addRoleUser {keys : List String} {users : List (String × List ManifestHandle)}
    {key : String} (hnew : handle ∉ (users.lookup key).getD []) :
    ((keys.foldl (Kernel.addRoleUser handle) users).lookup key).getD [] =
      (users.lookup key).getD [] ++ if key ∈ keys then [handle] else [] := by
  have hthere : ∀ (keys : List String) (users : List (String × List ManifestHandle)),
      handle ∈ (users.lookup key).getD [] →
        ((keys.foldl (Kernel.addRoleUser handle) users).lookup key).getD [] =
          (users.lookup key).getD [] := by
    intro keys
    induction keys with
    | nil => exact fun _ _ => rfl
    | cons key' rest ih =>
      intro users hmem
      have hstep : ((Kernel.addRoleUser handle users key').lookup key).getD [] =
          (users.lookup key).getD [] := by
        rw [Kernel.addRoleUser, AssocMap.lookup_put]
        by_cases hkey : key = key'
        · subst hkey
          simp [hmem]
        · simp [hkey]
      rw [List.foldl_cons, ih _ (by rw [hstep]; exact hmem), hstep]
  induction keys generalizing users with
  | nil => simp
  | cons key' rest ih =>
    rw [List.foldl_cons]
    by_cases hkey : key = key'
    · subst hkey
      have hstep : ((Kernel.addRoleUser handle users key).lookup key).getD [] =
          (users.lookup key).getD [] ++ [handle] := by
        rw [Kernel.addRoleUser, AssocMap.lookup_put]
        simp [hnew]
      rw [hthere rest _ (by simp [hstep]), hstep]
      simp
    · have hstep : ((Kernel.addRoleUser handle users key').lookup key).getD [] =
          (users.lookup key).getD [] := by
        rw [Kernel.addRoleUser, AssocMap.lookup_put]
        simp [hkey]
      rw [ih (by rwa [hstep]), hstep]
      simp [hkey]

theorem nodup_roleKeysFor (spi : SpiRegistry) (ns : String) (roles : List String) :
    (Kernel.roleKeysFor spi ns roles).Nodup := by
  rw [Kernel.roleKeysFor]
  generalize (roles.map fun role =>
    ((spi.resolve ns role).map Prod.fst).getD (qualify ns role)) = keys
  have hfold : keys.foldl pushUnique [] = keys.foldl Ledger.addNew [] := by
    congr 1
    funext acc key
    simp [pushUnique, Ledger.addNew]
  rw [hfold]
  exact Ledger.nodup_foldl_addNew List.nodup_nil keys

theorem bucket_roleRow {keys : List String} (hnodup : keys.Nodup) (plugin key : String) :
    Ledger.bucket (keys.map (roleRow plugin)) key = if key ∈ keys then [plugin] else [] := by
  induction keys with
  | nil => rfl
  | cons key' rest ih =>
    rw [List.nodup_cons] at hnodup
    rw [List.map_cons, Ledger.bucket_cons, ih hnodup.2]
    by_cases hkey : key' = key
    · subst hkey
      simp [hnodup.1, roleRow]
    · simp [hkey, Ne.symm hkey, roleRow]

/-- What one registration declares is what is left when the rest is scrubbed. -/
theorem Listed.own_rows (h : Listed k regs) {e : Registered} (he : e ∈ regs) {β : Type}
    {rows : Registered → List β} {owner : β → String}
    (hrows : ∀ e, ∀ b ∈ rows e, owner b = e.plugin) :
    (regs.flatMap rows).filter (fun b => owner b == e.plugin) = rows e := by
  have hfilter : (regs.flatMap rows).filter (fun b => owner b == e.plugin) =
      (regs.filter fun e' => e'.plugin == e.plugin).flatMap rows :=
    Ledger.filter_flatMap fun e' _ b hb => by rw [hrows e' b hb]
  have hone : regs.filter (fun e' => e'.plugin == e.plugin) = [e] := by
    obtain ⟨pre, post, rfl⟩ := List.append_of_mem he
    have hnames := h.names
    rw [List.map_append, List.map_cons, List.nodup_append, List.nodup_cons] at hnames
    obtain ⟨-, ⟨hpost, -⟩, hpre⟩ := hnames
    rw [List.filter_append, List.filter_cons, if_pos (beq_self_eq_true _)]
    rw [List.filter_eq_nil_iff.mpr, List.filter_eq_nil_iff.mpr, List.nil_append]
    · intro e' he' heq
      exact hpost (eq_of_beq heq ▸ List.mem_map_of_mem he')
    · intro e' he' heq
      exact hpre _ (List.mem_map_of_mem he') _ List.mem_cons_self (eq_of_beq heq)
  rw [hfilter, hone, List.flatMap_singleton]

/-- The kernel with the manifest of a handle taken out. -/
structure Torn (setup : Setup) (k : Kernel) (regs : List Registered) (handle : ManifestHandle)
    (old : ManifestRecord) (k₀ : Kernel) : Prop where
  managed : Managed setup k₀ (others old.identifier regs)
  spi : k₀.spiRegistry = k.spiRegistry
  loaded : k₀.loadedManifests = AssocMap.without handle k.loadedManifests
  users : ∀ key, k₀.roleUsers key = (k.roleUsers key).filter fun h => h != handle

theorem Managed.torn (h : Managed setup k regs) (hr : k.loadedManifests.lookup handle = some old)
    (hm : old.payload = .plugin m) (hscrub : (k.forget handle).scrub old = .ok k') :
    Torn setup k regs handle old (k'.untrackManifest handle) := by
  have hmanaged := h.scrub hr hscrub
  rw [without, hm] at hmanaged
  obtain ⟨registry, owners, imports, -, heq, -⟩ := h.scrubPlugin hr hm
  rw [heq] at hscrub
  cases hscrub
  refine ⟨hmanaged, rfl, rfl, fun key => ?_⟩
  exact Ledger.Files.lookup_retain h.users key

variable {k₀ : Kernel} {p : Prepared} {e : Registered}

theorem Torn.roles (h : Torn setup k regs handle old k₀) (hk : Managed setup k regs)
    (key : String) : k₀.registry.pluginsForRole key =
      (k.registry.pluginsForRole key).filter fun plugin => plugin != old.identifier := by
  rw [PluginRegistry.pluginsForRole, PluginRegistry.pluginsForRole, h.managed.listed.roles.bucket,
    hk.listed.roles.bucket, ← flatMap_others roleRows_owner, ← Ledger.bucket_filter]

theorem Torn.subscribers (h : Torn setup k regs handle old k₀) (hk : Managed setup k regs)
    (event : String) : k₀.registry.subscribersFor event =
      (k.registry.subscribersFor event).filter fun s => s.1 != old.identifier := by
  rw [PluginRegistry.subscribersFor, PluginRegistry.subscribersFor,
    h.managed.listed.subscriptions.bucket, hk.listed.subscriptions.bucket,
    ← flatMap_others subscriptionRows_owner, ← Ledger.bucket_filter]

theorem Torn.edges (h : Torn setup k regs handle old k₀) (hk : Managed setup k regs) :
    k₀.registry.invokeEdges =
      k.registry.invokeEdges.filter fun e => e.from.1 != old.identifier := by
  rw [h.managed.listed.edges, hk.listed.edges]
  exact (Ledger.filter_flatMap fun e he b hb => by rw [hk.listed.edgeSources e he b hb]).symm

/-- The kernel after the old plugin was registered and tracked again. -/
structure Restored (k k₀ : Kernel) (handle : ManifestHandle) (old : ManifestRecord)
    (m : PluginManifest) (p : Prepared) (k₁ : Kernel) : Prop where
  roles : ∀ key, k₁.registry.pluginsForRole key = k₀.registry.pluginsForRole key ++
    if key ∈ Kernel.roleKeysFor k.spiRegistry old.namespace m.roles then [old.identifier] else []
  subscribers : ∀ event, k₁.registry.subscribersFor event = k₀.registry.subscribersFor event ++
    (k.registry.subscribersFor event).filter fun s => s.1 == old.identifier
  edges : k₁.registry.invokeEdges = k₀.registry.invokeEdges ++ p.newEdges
  users : ∀ key, k₁.roleUsers key = k₀.roleUsers key ++
    if key ∈ Kernel.roleKeysFor k.spiRegistry old.namespace m.roles then [handle] else []
  contracts : k₁.spiRegistry = k.spiRegistry
  loaded : ∀ handle', k₁.loadedManifests.lookup handle' = k.loadedManifests.lookup handle'
  manifests : ∀ plugin, k₁.registry.getManifest plugin = k.registry.getManifest plugin

theorem Torn.restored (h : Torn setup k regs handle old k₀) (hk : Managed setup k regs)
    (hr : k.loadedManifests.lookup handle = some old) (hm : old.payload = .plugin m)
    (he : e ∈ regs) (hdesc : Describes old m e)
    (hp : prepare setup k₀ old.namespace m false = .ok p) :
    Restored k k₀ handle old m p ((k₀.commit old.namespace p).trackManifest handle old) := by
  have hpassed := prepare_ok hp
  have hlisted := h.managed.listed.commit hpassed
  have hreg : Kernel.registerPluginInAs setup k₀ old.namespace m false =
      .ok (k₀.commit old.namespace p) := by rw [Kernel.registerPluginInAs, hp]
  obtain ⟨hloaded, hspi, husers⟩ := registerPluginInAs_frame hreg
  -- the registration put back declares what the old one did
  have hmanifest : (k₀.registered old.namespace p).manifest = e.manifest := by
    rw [hdesc.manifest, hdesc.identifier]
    exact hpassed.renamed
  have hplugin : (k₀.registered old.namespace p).plugin = old.identifier := by
    rw [← hdesc.plugin_eq, Registered.plugin, hmanifest]
    rfl
  constructor
  case roles =>
    intro key
    have hrows : (k₀.registered old.namespace p).roleRows =
        (Kernel.roleKeysFor k.spiRegistry old.namespace m.roles).map (roleRow old.identifier) := by
      rw [roleRows, hplugin, roleKeys, hmanifest, hdesc.manifest, ← h.spi]
      rfl
    have hbucket := hlisted.roles.bucket key
    rw [List.flatMap_append, Ledger.bucket_append, List.flatMap_singleton, hrows,
      bucket_roleRow (nodup_roleKeysFor _ _ _), ← h.managed.listed.roles.bucket] at hbucket
    exact hbucket
  case subscribers =>
    intro event
    have hrows : (k₀.registered old.namespace p).subscriptionRows = e.subscriptionRows := by
      rw [subscriptionRows, subscriptionRows, hmanifest, hplugin, hdesc.plugin_eq]
    have hown : Ledger.bucket e.subscriptionRows event =
        (k.registry.subscribersFor event).filter fun s => s.1 == old.identifier := by
      rw [PluginRegistry.subscribersFor, hk.listed.subscriptions.bucket, ← Ledger.bucket_filter,
        ← hdesc.plugin_eq, ← hk.listed.own_rows he subscriptionRows_owner]
    have hbucket := hlisted.subscriptions.bucket event
    rw [List.flatMap_append, Ledger.bucket_append, List.flatMap_singleton, hrows,
      ← h.managed.listed.subscriptions.bucket, hown] at hbucket
    exact hbucket
  case edges =>
    have hedges := hlisted.edges
    rw [List.flatMap_append, List.flatMap_singleton, ← h.managed.listed.edges] at hedges
    exact hedges
  case users =>
    intro key
    have hnew : handle ∉ (k₀.spiRoleUsers.lookup key).getD [] := by
      have hfilter := h.users key
      rw [Kernel.roleUsers] at hfilter
      rw [hfilter]
      simp
    rw [Kernel.roleUsers, Kernel.trackManifest, hm]
    simp only [husers, hspi, h.spi]
    exact lookup_foldl_addRoleUser hnew
  case contracts => exact hspi.trans h.spi
  case loaded =>
    intro handle'
    rw [Kernel.trackManifest, AssocMap.lookup_put, hloaded, h.loaded]
    by_cases heq : handle' = handle
    · rw [heq, if_pos (beq_self_eq_true _), hr]
    · rw [if_neg (by simpa using heq), AssocMap.lookup_without_ne heq]
  case manifests =>
    intro plugin
    ext m'
    have htracked : ((k₀.commit old.namespace p).trackManifest handle old).registry =
        (k₀.commit old.namespace p).registry := rfl
    rw [htracked, hlisted.getManifest_iff, hk.listed.getManifest_iff]
    constructor
    · rintro ⟨e', he', rfl, rfl⟩
      rcases List.mem_append.mp he' with he' | he'
      · exact ⟨e', List.mem_of_mem_filter he', rfl, rfl⟩
      · rw [List.mem_singleton.mp he']
        exact ⟨e, he, hdesc.plugin_eq.trans hplugin.symm, hmanifest.symm⟩
    · rintro ⟨e', he', rfl, rfl⟩
      by_cases heq : e'.plugin = old.identifier
      · have hsame : e' = e := hk.listed.eq_of_plugin he he' (heq.trans hdesc.plugin_eq.symm)
        refine ⟨k₀.registered old.namespace p, List.mem_append_right _ List.mem_cons_self, ?_, ?_⟩
        · rw [hplugin, heq]
        · rw [hmanifest, hsame]
      · refine ⟨e', List.mem_append_left _ (List.mem_filter.mpr ⟨he', ?_⟩), rfl, rfl⟩
        rwa [bne_iff_ne]

end Torn

/-! ### A failed reload -/

section Failed

variable {setup : Setup} {k k' : Kernel} {regs : List Registered} {handle : ManifestHandle}
  {old : ManifestRecord} {m : PluginManifest} {k₀ k₁ : Kernel} {p : Prepared}

theorem Agree.of_eq (hregistry : k.registry = k'.registry)
    (howners : k.stepImportOwners = k'.stepImportOwners)
    (himports : k.additionalImports = k'.additionalImports) : Agree k k' := by
  constructor <;> simp only [hregistry, howners, himports, implies_true]

/-- What was put back is what was there exactly when it was last everywhere. -/
theorem Restored.unchanged_iff (h : Restored k k₀ handle old m p k₁)
    (ht : Torn setup k regs handle old k₀) (hk : Managed setup k regs)
    (hconsistent : Consistent setup k₁) :
    Unchanged k k₁ ↔
      k.registry.invokeEdges =
          (k.registry.invokeEdges.filter fun e => e.from.1 != old.identifier) ++ p.newEdges ∧
        (∀ key, FiledLast (k.registry.pluginsForRole key) old.identifier
          (key ∈ Kernel.roleKeysFor k.spiRegistry old.namespace m.roles)) ∧
        (∀ event, OwnLast (k.registry.subscribersFor event) fun s => s.1 == old.identifier) ∧
        ∀ key, handle ∈ k.roleUsers key ↔
          key ∈ Kernel.roleKeysFor k.spiRegistry old.namespace m.roles := by
  have hedges := h.edges
  rw [ht.edges hk] at hedges
  have hroles := fun key => (h.roles key).trans (by rw [ht.roles hk key])
  have hsubs := fun event => (h.subscribers event).trans (by rw [ht.subscribers hk event])
  have husers : ∀ key user, user ∈ k₁.roleUsers key ↔ user ∈ k.roleUsers key ∧ user ≠ handle ∨
      user = handle ∧ key ∈ Kernel.roleKeysFor k.spiRegistry old.namespace m.roles := by
    intro key user
    rw [h.users key, ht.users key, List.mem_append, List.mem_filter, bne_iff_ne,
      List.mem_ite_nil_right, List.mem_singleton, and_comm (a := user = handle)]
  constructor
  · intro hsame
    exact ⟨hsame.tables.invokeEdges.trans hedges,
      fun key => (hsame.tables.roles key).trans (hroles key),
      fun event => (hsame.tables.subscriptions event).trans (hsubs event),
      fun key => (hsame.roleUsers key handle).trans ((husers key handle).trans (by simp))⟩
  · rintro ⟨hedgesLast, hrolesLast, hsubsLast, husersBack⟩
    refine ⟨hk.consistent.agree hconsistent (fun plugin => (h.manifests plugin).symm)
      (fun key => (hrolesLast key).trans (hroles key).symm)
      (fun event => (hsubsLast event).trans (hsubs event).symm)
      (hedgesLast.trans hedges.symm), fun key => ?_, fun key user => ?_,
      fun h' => (h.loaded h').symm⟩
    · rw [h.contracts]
    · rw [husers]
      by_cases heq : user = handle
      · simp [heq, husersBack]
      · simp [heq]

/-- A failed reload of a plugin changes nothing exactly when the plugin returns. -/
theorem failed_reload_plugin (hreach : k.Reachable setup) (hk : Managed setup k regs)
    (hr : k.loadedManifests.lookup handle = some old) (hm : old.payload = .plugin m)
    (hscrub : (k.forget handle).scrub old = .ok k') {json : String} {e : KernelError}
    (hreg : Kernel.registerClassifiedManifest setup (k'.untrackManifest handle) json old.namespace
      false = .error e) :
    Unchanged k ((k'.untrackManifest handle).replaceManifest setup handle old json).2 ↔
      PluginReturns setup k handle old m := by
  have ht := hk.torn hr hm hscrub
  obtain ⟨entry, he, hdesc⟩ := hk.described handle old m hr hm
  cases hp : prepare setup (k'.untrackManifest handle) old.namespace m false with
  | error e' =>
    have hresult : ((k'.untrackManifest handle).replaceManifest setup handle old json).2 =
        k'.untrackManifest handle := by
      simp [Kernel.replaceManifest, hreg, Kernel.rollback, hm, Kernel.registerPluginInAs, hp]
    rw [hresult]
    constructor
    · intro hsame
      have hgone := hsame.loaded handle
      rw [hr, ht.loaded, AssocMap.lookup_without_self] at hgone
      cases hgone
    · intro hreturns
      obtain ⟨k'', p, hscrub', hp', -⟩ := hreturns.passes
      cases hscrub.symm.trans hscrub'
      cases hp.symm.trans hp'
  | ok p =>
    have hresult : ((k'.untrackManifest handle).replaceManifest setup handle old json).2 =
        ((k'.untrackManifest handle).commit old.namespace p).trackManifest handle old := by
      simp [Kernel.replaceManifest, hreg, Kernel.rollback, hm, Kernel.registerPluginInAs, hp]
    have hback : Kernel.rollback setup (k'.untrackManifest handle) old =
        .ok ((k'.untrackManifest handle).commit old.namespace p) := by
      simp only [Kernel.rollback, hm, Kernel.registerPluginInAs, hp]
    have hid : ∀ m', old.payload = .plugin m' → old.identifier = qualify old.namespace m'.name := by
      intro m' hm'
      cases hm.symm.trans hm'
      exact hdesc.identifier
    obtain ⟨regs', hmanaged, -⟩ := ht.managed.restore (.reloading hreach hr hscrub) hid hback
    rw [hresult, (ht.restored hk hr hm he hdesc hp).unchanged_iff ht hk hmanaged.consistent]
    constructor
    · rintro ⟨hedges, hroles, hsubs, husers⟩
      exact ⟨⟨k', p, hscrub, hp, hedges⟩, hroles, hsubs, husers⟩
    · intro hreturns
      obtain ⟨k'', p', hscrub', hp', hedges⟩ := hreturns.passes
      cases hscrub.symm.trans hscrub'
      cases hp.symm.trans hp'
      exact ⟨hedges, hreturns.roles, hreturns.subscriptions, hreturns.users⟩

/-- A failed reload of a contract puts back what its text says. -/
theorem failed_reload_contract (hk : Managed setup k regs)
    (hr : k.loadedManifests.lookup handle = some old) {text : String}
    (hm : old.payload = .spiDef text) (hscrub : (k.forget handle).scrub old = .ok k')
    {json : String} {e : KernelError}
    (hreg : Kernel.registerClassifiedManifest setup (k'.untrackManifest handle) json old.namespace
      false = .error e) :
    Unchanged k ((k'.untrackManifest handle).replaceManifest setup handle old json).2 ↔
      (∃ definition, setup.readSpi text = .ok definition ∧
        k.spiRegistry.get old.identifier = some definition) ∧ ∀ key, handle ∉ k.roleUsers key := by
  have hscrubbed := Kernel.scrub_spi hm hscrub
  obtain ⟨definition, hread⟩ := hk.readable handle old text hr hm
  have hfree : (k'.untrackManifest handle).spiRegistry.get old.identifier = none := by
    rw [hscrubbed]
    exact AssocMap.lookup_without_self _ _
  have hresult : ((k'.untrackManifest handle).replaceManifest setup handle old json).2 =
      Kernel.trackManifest { k'.untrackManifest handle with
        spiRegistry := AssocMap.put old.identifier definition
          (k'.untrackManifest handle).spiRegistry } handle old := by
    simp only [Kernel.replaceManifest, hreg, Kernel.rollback, hm,
      SpiRegistry.register_free hread hfree]
  have husers : ∀ key, Kernel.roleUsers (Kernel.trackManifest { k'.untrackManifest handle with
      spiRegistry := AssocMap.put old.identifier definition
        (k'.untrackManifest handle).spiRegistry } handle old) key =
          (k.roleUsers key).filter fun h => h != handle := by
    intro key
    rw [Kernel.roleUsers, Kernel.trackManifest, hm, hscrubbed]
    exact Ledger.Files.lookup_retain hk.users key
  have hunused : (∀ key, handle ∉ k.roleUsers key) ↔ ∀ key user,
      user ∈ k.roleUsers key ↔ user ∈ (k.roleUsers key).filter fun h => h != handle := by
    refine forall_congr' fun key => ?_
    simp only [List.mem_filter, bne_iff_ne, iff_self_and]
    exact ⟨fun hnot a ha heq => hnot (heq ▸ ha), fun hall hmem => hall handle hmem rfl⟩
  have hcontracts : ∀ key, SpiRegistry.get (AssocMap.put old.identifier definition
      (k'.untrackManifest handle).spiRegistry) key =
        if key = old.identifier then some definition else k.spiRegistry.get key := by
    intro key
    rw [SpiRegistry.get, AssocMap.lookup_put, hscrubbed]
    by_cases hkey : key = old.identifier
    · simp [hkey]
    · rw [if_neg (by simpa using hkey), if_neg hkey]
      exact AssocMap.lookup_without_ne hkey _
  rw [hresult, hunused]
  constructor
  · intro hsame
    refine ⟨⟨definition, hread, ?_⟩, fun key user => husers key ▸ hsame.roleUsers key user⟩
    exact (hsame.contracts old.identifier).trans ((hcontracts _).trans (if_pos rfl))
  · rintro ⟨⟨definition', hread', hget⟩, hkept⟩
    cases hread.symm.trans hread'
    refine ⟨.of_eq ?_ ?_ ?_, fun key => ?_, fun key user => (husers key).symm ▸ hkept key user,
      fun handle' => ?_⟩
    · rw [hscrubbed]
      rfl
    · rw [hscrubbed]
      rfl
    · rw [hscrubbed]
      rfl
    · refine Eq.trans ?_ (hcontracts key).symm
      by_cases hkey : key = old.identifier
      · rw [if_pos hkey, hkey, hget]
      · rw [if_neg hkey]
    · rw [Kernel.trackManifest, AssocMap.lookup_put, hscrubbed]
      by_cases heq : handle' = handle
      · rw [heq, if_pos (beq_self_eq_true _), hr]
      · rw [if_neg (by simpa using heq)]
        exact (AssocMap.lookup_without_ne heq _).symm

/-- A failed reload of a manifest that may be reloaded changes no lookup exactly when the old
manifest returns to where it was. -/
theorem failed_reload_unchanged_iff (hreach : k.Reachable setup)
    (hr : k.loadedManifests.lookup handle = some old) (himm : old.immutable = false)
    {json : String} {e : KernelError} (herr : (k.reloadManifest setup handle json).1 = .error e) :
    Unchanged k (k.reloadManifest setup handle json).2 ↔ Returns setup k handle old := by
  obtain ⟨regs, hk⟩ := managed_of_reachable hreach
  have hmutable : k.isImmutable handle = false := by simp [Kernel.isImmutable, hr, himm]
  cases hscrub : (k.forget handle).scrub old with
  | error drift =>
    have hresult : (k.reloadManifest setup handle json).2 = { k with
        loadedManifests := AssocMap.put handle old (k.forget handle).loadedManifests } := by
      simp only [Kernel.reloadManifest, hmutable, hr, hscrub]
      rfl
    have hsame : Unchanged k (k.reloadManifest setup handle json).2 := by
      rw [hresult]
      refine ⟨.of_eq rfl rfl rfl, fun _ => rfl, fun _ _ => Iff.rfl, fun handle' => ?_⟩
      rw [AssocMap.lookup_put, Kernel.forget]
      by_cases heq : handle' = handle
      · rw [heq, if_pos (beq_self_eq_true _), hr]
      · rw [if_neg (by simpa using heq), AssocMap.lookup_without_ne heq]
    refine iff_of_true hsame ?_
    cases hm : old.payload with
    | plugin m =>
      obtain ⟨_, _, _, -, hok, -⟩ := hk.scrubPlugin hr hm
      cases hscrub.symm.trans hok
    | spiDef text =>
      rw [Returns, hm]
      refine Or.inl ?_
      simp only [Kernel.scrub, hm] at hscrub
      split at hscrub
      · cases hscrub
      · rename_i hgone
        simpa [Kernel.forget] using hgone
  | ok k' =>
    rw [Kernel.reloadManifest_replaced hmutable hr hscrub] at herr ⊢
    cases hreg : Kernel.registerClassifiedManifest setup (k'.untrackManifest handle) json
        old.namespace false with
    | ok out => simp [Kernel.replaceManifest, hreg] at herr
    | error refused =>
      cases hm : old.payload with
      | plugin m =>
        rw [failed_reload_plugin hreach hk hr hm hscrub hreg, Returns, hm]
      | spiDef text =>
        have hthere : k.spiRegistry.get old.identifier ≠ none := by
          intro hnone
          have hget : ((k.forget handle).spiRegistry.get old.identifier).isSome = false := by
            rw [Kernel.forget, hnone]
            rfl
          simp [Kernel.scrub, hm, hget] at hscrub
        rw [failed_reload_contract hk hr hm hscrub hreg, Returns, hm]
        exact (or_iff_right hthere).symm

end Failed

/-! ### Two plugins of one role -/

def sharedRoleSetup : Setup :=
  textSetup [("kernel", plainManifest "kernel"),
    ("notes", { plainManifest "notes" with roles := ["storage"] }),
    ("tasks", { plainManifest "tasks" with roles := ["storage"] })]
    [("storage", Kernel.storageContract "storage")]

/-- The first plugin of a role is the last one after its reload has failed. -/
theorem failed_reload_reorders : ∃ k₀ k old e, Kernel.boot sharedRoleSetup "kernel" = .ok k₀ ∧
    k = k₀.afterAll sharedRoleSetup [.load "" "notes", .load "" "tasks"] ∧
    k.loadedManifests.lookup 2 = some old ∧ old.immutable = false ∧
    (k.reloadManifest sharedRoleSetup 2 "missing").1 = .error e ∧
    k.registry.pluginsForRole "storage" = ["notes", "tasks"] ∧
    (k.reloadManifest sharedRoleSetup 2 "missing").2.registry.pluginsForRole "storage" =
      ["tasks", "notes"] ∧
    ¬Unchanged k (k.reloadManifest sharedRoleSetup 2 "missing").2 := by
  have hrun : ∃ k₀ k : Kernel, ∃ old e, Kernel.boot sharedRoleSetup "kernel" = .ok k₀ ∧
      k = k₀.afterAll sharedRoleSetup [.load "" "notes", .load "" "tasks"] ∧
      k.loadedManifests.lookup 2 = some old ∧ old.immutable = false ∧
      (k.reloadManifest sharedRoleSetup 2 "missing").1 = .error e ∧
      k.registry.pluginsForRole "storage" = ["notes", "tasks"] ∧
      (k.reloadManifest sharedRoleSetup 2 "missing").2.registry.pluginsForRole "storage" =
        ["tasks", "notes"] :=
    ⟨_, _, _, _, rfl, rfl, rfl, rfl, rfl, by decide, by decide⟩
  obtain ⟨k₀, k, old, e, hboot, hk, hold, himm, herr, hbefore, hafter⟩ := hrun
  refine ⟨k₀, k, old, e, hboot, hk, hold, himm, herr, hbefore, hafter, fun hsame => ?_⟩
  have hroles := hsame.tables.roles "storage"
  rw [hbefore, hafter] at hroles
  exact absurd hroles (by decide)

/-- The plugin loaded last returns. -/
theorem pluginReturns_tasks : ∃ k₀ k old m e,
    Kernel.boot sharedRoleSetup "kernel" = .ok k₀ ∧
    k = k₀.afterAll sharedRoleSetup [.load "" "notes", .load "" "tasks"] ∧
    k.loadedManifests.lookup 3 = some old ∧ old.immutable = false ∧ old.payload = .plugin m ∧
    k.registry.pluginsForRole "storage" = ["notes", "tasks"] ∧
    (k.reloadManifest sharedRoleSetup 3 "missing").1 = .error e ∧
    PluginReturns sharedRoleSetup k 3 old m := by
  have hrun : ∃ k₀ k : Kernel, ∃ old m e k' p, Kernel.boot sharedRoleSetup "kernel" = .ok k₀ ∧
      k = k₀.afterAll sharedRoleSetup [.load "" "notes", .load "" "tasks"] ∧
      k.loadedManifests.lookup 3 = some old ∧ old.immutable = false ∧ old.payload = .plugin m ∧
      (k.reloadManifest sharedRoleSetup 3 "missing").1 = .error e ∧
      (k.forget 3).scrub old = .ok k' ∧
      prepare sharedRoleSetup (k'.untrackManifest 3) old.namespace m false = .ok p ∧
      k.registry.invokeEdges = [] ∧ p.newEdges = [] ∧ k.registry.subscriptions = [] ∧
      k.registry.roles = [("storage", ["notes", "tasks"])] ∧ old.identifier = "tasks" ∧
      Kernel.roleKeysFor k.spiRegistry old.namespace m.roles = ["storage"] ∧
      k.spiRoleUsers = [("storage", [2, 3])] :=
    ⟨_, _, _, _, _, _, _, rfl, rfl, rfl, rfl, rfl, rfl, rfl, rfl, rfl, rfl, rfl, rfl, rfl, rfl, rfl⟩
  obtain ⟨k₀, k, old, m, e, k', p, hboot, hk, hold, himm, hm, herr, hscrub, hp, hedges, hnew, hsubs,
    hroles, hid, hkeys, husers⟩ := hrun
  refine ⟨k₀, k, old, m, e, hboot, hk, hold, himm, hm, ?_, herr, ⟨k', p, hscrub, hp, ?_⟩, ?_, ?_, ?_⟩
  · rw [PluginRegistry.pluginsForRole, hroles]
    rfl
  · rw [hedges, hnew]
    rfl
  · intro key
    rw [FiledLast, PluginRegistry.pluginsForRole, hroles, hid, hkeys]
    by_cases hkey : key = "storage"
    · rw [hkey]
      decide
    · simp [List.lookup_cons, beq_false_of_ne hkey, hkey]
  · intro event
    rw [OwnLast, PluginRegistry.subscribersFor, hsubs]
    rfl
  · intro key
    rw [Kernel.roleUsers, husers, hkeys]
    by_cases hkey : key = "storage"
    · rw [hkey]
      decide
    · simp [List.lookup_cons, beq_false_of_ne hkey, hkey]

/-- A contract that no plugin uses returns, and so does the last plugin of a role. -/
theorem failed_reload_unchanged_storage :
    (∃ k : Kernel, k.Reachable sharedRoleSetup ∧ k.loadedManifests.lookup 2 ≠ none ∧
      Unchanged k (k.reloadManifest sharedRoleSetup 2 "missing").2) ∧
    ∃ k : Kernel, k.Reachable sharedRoleSetup ∧
      k.registry.pluginsForRole "storage" = ["notes", "tasks"] ∧
      Unchanged k (k.reloadManifest sharedRoleSetup 3 "missing").2 := by
  have hrun : ∃ k₀ k : Kernel, ∃ e, Kernel.boot sharedRoleSetup "kernel" = .ok k₀ ∧
      k = k₀.afterAll sharedRoleSetup [.load "" "storage"] ∧
      k.loadedManifests.lookup 2 = some ⟨"storage", "", .spiDef "storage", false⟩ ∧
      (k.reloadManifest sharedRoleSetup 2 "missing").1 = .error e ∧
      k.spiRegistry.get "storage" = some (Kernel.storageContract "storage") ∧ k.spiRoleUsers = [] :=
    ⟨_, _, _, rfl, rfl, by decide, rfl, rfl, by decide⟩
  constructor
  case left =>
    obtain ⟨k₀, k, e, hboot, hk, hold, herr, hget, husers⟩ := hrun
    have hreach : k.Reachable sharedRoleSetup := hk ▸ Kernel.reachable_afterAll hboot _
    refine ⟨k, hreach, by simp [hold], ?_⟩
    refine (failed_reload_unchanged_iff hreach hold rfl herr).mpr (Or.inr ⟨⟨_, rfl, hget⟩, ?_⟩)
    intro key
    simp [Kernel.roleUsers, husers]
  case right =>
    obtain ⟨k₀, k, old, m, e, hboot, hk, hold, himm, hm, hroles, herr, hreturns⟩ :=
      pluginReturns_tasks
    have hreach : k.Reachable sharedRoleSetup := hk ▸ Kernel.reachable_afterAll hboot _
    refine ⟨k, hreach, hroles, (failed_reload_unchanged_iff hreach hold himm herr).mpr ?_⟩
    rwa [Returns, hm]

end Gwead
