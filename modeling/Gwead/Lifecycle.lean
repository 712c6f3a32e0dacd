import Gwead.Registrations

/-!
# The life of a manifest

What each call does to the registrations in force and to the loaded records, and the invariant
every reachable kernel has: the tables hold the registrations, and each loaded plugin record
describes one of them.
-/

namespace Gwead

open Identity Registration

/-- A kernel that a registration can meet: before boot, between calls, or within a reload, when
the old manifest has been taken out. -/
inductive Kernel.Met (setup : Setup) : Kernel → Prop
  | new : Met setup .new
  | reachable {k : Kernel} (h : Reachable setup k) : Met setup k
  | reloading {k k' : Kernel} {handle : ManifestHandle} {r : ManifestRecord}
      (h : Reachable setup k) (hr : k.loadedManifests.lookup handle = some r)
      (hscrub : (k.forget handle).scrub r = .ok k') : Met setup (k'.untrackManifest handle)

/-- All checks passed, against the kernel the registration met. -/
def Registered.Sound (setup : Setup) (e : Registered) : Prop :=
  ∃ k source, k.Met setup ∧ Passed setup k e.ns source e.prepared ∧ k.spiRegistry = e.spi

/-- A record of a loaded plugin describes a registration. -/
structure Describes (r : ManifestRecord) (m : PluginManifest) (e : Registered) : Prop where
  ns : e.ns = r.namespace
  identifier : r.identifier = qualify r.namespace m.name
  manifest : e.manifest = { m with name := r.identifier }

theorem Describes.plugin_eq {r : ManifestRecord} {m : PluginManifest} {e : Registered}
    (h : Describes r m e) : e.plugin = r.identifier := by
  rw [Registered.plugin, h.manifest]

theorem Describes.importNames_eq {r : ManifestRecord} {m : PluginManifest} {e : Registered}
    (h : Describes r m e) : importNames m = importNames e.manifest := by
  rw [h.manifest]
  rfl

structure Managed (setup : Setup) (k : Kernel) (regs : List Registered) : Prop where
  listed : Listed k regs
  sound : ∀ e ∈ regs, e.Sound setup
  described : ∀ handle r m, k.loadedManifests.lookup handle = some r → r.payload = .plugin m →
    ∃ e ∈ regs, Describes r m e
  apart : ∀ handle handle' r r' m m', k.loadedManifests.lookup handle = some r →
    k.loadedManifests.lookup handle' = some r' → r.payload = .plugin m → r'.payload = .plugin m' →
      r.identifier = r'.identifier → handle = handle'
  readable : ∀ handle r json, k.loadedManifests.lookup handle = some r →
    r.payload = .spiDef json → ∃ definition, setup.readSpi json = .ok definition
  users : (k.spiRoleUsers.map Prod.fst).Nodup

section Frame

variable {setup : Setup} {k k' : Kernel} {regs : List Registered}

/-- The registrations in force do not depend on contracts, handles and role users. -/
theorem Listed.congr (h : Listed k regs) (hregistry : k'.registry = k.registry)
    (howners : k'.stepImportOwners = k.stepImportOwners)
    (himports : k'.additionalImports = k.additionalImports) : Listed k' regs := by
  obtain ⟨a, b, c, d, e, f, g, i, j, l, m, n, o, p, q, t⟩ := h
  rw [← hregistry] at c d e f g i j n q t
  rw [← howners] at l
  rw [← himports] at m
  exact ⟨a, b, c, d, e, f, g, i, j, l, m, n, o, p, q, t⟩

theorem Managed.congr (h : Managed setup k regs) (hregistry : k'.registry = k.registry)
    (howners : k'.stepImportOwners = k.stepImportOwners)
    (himports : k'.additionalImports = k.additionalImports)
    (hloaded : ∀ handle, k'.loadedManifests.lookup handle = k.loadedManifests.lookup handle)
    (husers : (k'.spiRoleUsers.map Prod.fst).Nodup) : Managed setup k' regs := by
  obtain ⟨listed, sound, described, apart, readable, -⟩ := h
  simp only [← hloaded] at described apart readable
  exact ⟨listed.congr hregistry howners himports, sound, described, apart, readable, husers⟩

theorem managed_new : Managed setup Kernel.new [] :=
  ⟨listed_new, nofun, nofun, nofun, nofun, List.nodup_nil⟩

/-- A plugin that is not registered has no loaded record. -/
theorem Managed.not_loaded (h : Managed setup k regs) {name : String}
    (hfree : name ∉ regs.map Registered.plugin) {handle : ManifestHandle} {r : ManifestRecord}
    {m : PluginManifest} (hr : k.loadedManifests.lookup handle = some r)
    (hm : r.payload = .plugin m) : r.identifier ≠ name := by
  rintro rfl
  obtain ⟨e, he, hdesc⟩ := h.described handle r m hr hm
  exact hfree (hdesc.plugin_eq ▸ List.mem_map_of_mem he)

/-- Forgetting a handle keeps the rest. -/
theorem Managed.forget (h : Managed setup k regs) (handle : ManifestHandle) :
    Managed setup (k.forget handle) regs := by
  have hsub : ∀ h' r, (k.forget handle).loadedManifests.lookup h' = some r →
      k.loadedManifests.lookup h' = some r := by
    intro h' r hr
    by_cases heq : h' = handle
    · subst heq
      rw [Kernel.forget, AssocMap.lookup_without_self] at hr
      cases hr
    · rwa [Kernel.forget, AssocMap.lookup_without_ne heq] at hr
  exact ⟨h.listed.congr rfl rfl rfl, h.sound,
    fun h' r m hr hm => h.described h' r m (hsub h' r hr) hm,
    fun h₁ h₂ r₁ r₂ m₁ m₂ hr₁ hr₂ => h.apart h₁ h₂ r₁ r₂ m₁ m₂ (hsub h₁ r₁ hr₁) (hsub h₂ r₂ hr₂),
    fun h' r json hr => h.readable h' r json (hsub h' r hr), h.users⟩

theorem nodup_users_track {handle : ManifestHandle} {r : ManifestRecord}
    (h : (k.spiRoleUsers.map Prod.fst).Nodup) :
    ((k.trackManifest handle r).spiRoleUsers.map Prod.fst).Nodup := by
  rw [Kernel.trackManifest]
  cases r.payload with
  | spiDef json => exact h
  | plugin m =>
    simp only
    generalize k.spiRoleUsers = users at h ⊢
    induction Kernel.roleKeysFor k.spiRegistry r.namespace m.roles generalizing users with
    | nil => exact h
    | cons key rest ih => exact ih _ (AssocMap.nodup_keys_put key _ h)

theorem nodup_users_untrack {handle : ManifestHandle} (h : (k.spiRoleUsers.map Prod.fst).Nodup) :
    ((k.untrackManifest handle).spiRoleUsers.map Prod.fst).Nodup := by
  have hmap : (k.spiRoleUsers.map fun e => (e.1, e.2.filter fun h => h != handle)).map Prod.fst =
      k.spiRoleUsers.map Prod.fst := by
    rw [List.map_map]
    rfl
  exact (hmap ▸ h).sublist (List.filter_sublist.map _)

/-- What a record must say of the registrations before a handle may denote it. -/
structure Trackable (setup : Setup) (k : Kernel) (regs : List Registered)
    (handle : ManifestHandle) (r : ManifestRecord) : Prop where
  described : ∀ m, r.payload = .plugin m → ∃ e ∈ regs, Describes r m e
  apart : ∀ m, r.payload = .plugin m → ∀ h' r' m', k.loadedManifests.lookup h' = some r' →
    r'.payload = .plugin m' → r'.identifier = r.identifier → h' = handle
  readable : ∀ json, r.payload = .spiDef json → ∃ definition, setup.readSpi json = .ok definition

/-- A record may be marked immutable. -/
theorem Trackable.marked {handle : ManifestHandle} {r : ManifestRecord}
    (h : Trackable setup k regs handle r) (immutable : Bool) :
    Trackable setup k regs handle { r with immutable := immutable } := by
  refine ⟨fun m hm => ?_, h.apart, h.readable⟩
  obtain ⟨e, he, hdesc⟩ := h.described m hm
  exact ⟨e, he, hdesc.ns, hdesc.identifier, hdesc.manifest⟩

theorem Managed.track (h : Managed setup k regs) {handle : ManifestHandle} {r : ManifestRecord}
    (ht : Trackable setup k regs handle r) : Managed setup (k.trackManifest handle r) regs := by
  have hlook : ∀ h' r', (k.trackManifest handle r).loadedManifests.lookup h' = some r' →
      (h' = handle ∧ r' = r) ∨ k.loadedManifests.lookup h' = some r' := by
    intro h' r' hr
    rw [Kernel.trackManifest, AssocMap.lookup_put] at hr
    split at hr
    · rename_i heq
      exact Or.inl ⟨eq_of_beq heq, (Option.some.inj hr).symm⟩
    · exact Or.inr hr
  refine ⟨h.listed.congr rfl rfl rfl, h.sound, ?_, ?_, ?_, nodup_users_track h.users⟩
  · intro h' r' m hr hm
    rcases hlook h' r' hr with ⟨rfl, rfl⟩ | hr
    · exact ht.described m hm
    · exact h.described h' r' m hr hm
  · intro h₁ h₂ r₁ r₂ m₁ m₂ hr₁ hr₂ hm₁ hm₂ heq
    rcases hlook h₁ r₁ hr₁ with ⟨rfl, rfl⟩ | old₁ <;>
      rcases hlook h₂ r₂ hr₂ with ⟨rfl, rfl⟩ | old₂
    · rfl
    · exact (ht.apart m₁ hm₁ h₂ r₂ m₂ old₂ hm₂ heq.symm).symm
    · exact ht.apart m₂ hm₂ h₁ r₁ m₁ old₁ hm₁ heq
    · exact h.apart h₁ h₂ r₁ r₂ m₁ m₂ old₁ old₂ hm₁ hm₂ heq
  · intro h' r' json hr hjson
    rcases hlook h' r' hr with ⟨rfl, rfl⟩ | hr
    · exact ht.readable json hjson
    · exact h.readable h' r' json hr hjson

end Frame

/-! ### Taking in -/

section Register

variable {setup : Setup} {k k' : Kernel} {regs : List Registered}

theorem registerPluginInAs_ok {ns : String} {m : PluginManifest} {kernelOwned : Bool}
    (h : Kernel.registerPluginInAs setup k ns m kernelOwned = .ok k') :
    ∃ p, prepare setup k ns m kernelOwned = .ok p ∧ k' = k.commit ns p := by
  rw [Kernel.registerPluginInAs] at h
  cases hp : prepare setup k ns m kernelOwned with
  | error e => simp [hp] at h
  | ok p =>
    simp only [hp] at h
    cases h
    exact ⟨p, rfl, rfl⟩

theorem registerSpiFromJson_ok {role json : String}
    (h : Kernel.registerSpiFromJson setup k role json = .ok k') :
    ∃ spi, k.spiRegistry.register setup.readSpi role json = .ok spi ∧
      k' = { k with spiRegistry := spi } := by
  rw [Kernel.registerSpiFromJson] at h
  obtain ⟨_, -, h⟩ := bind_ok h
  obtain ⟨value, -, h⟩ := bind_ok h
  obtain ⟨_, -, h⟩ := bind_ok h
  dsimp only at h
  split at h
  · exact absurd h not_validation_ok
  · cases hput : k.spiRegistry.register setup.readSpi role json with
    | error e =>
      simp only [hput] at h
      cases h
    | ok spi =>
      simp only [hput] at h
      cases h
      exact ⟨spi, rfl, rfl⟩

/-- Registering a plugin changes the plugin tables only. -/
theorem registerPluginInAs_frame {ns : String} {m : PluginManifest} {kernelOwned : Bool}
    (h : Kernel.registerPluginInAs setup k ns m kernelOwned = .ok k') :
    k'.loadedManifests = k.loadedManifests ∧ k'.spiRegistry = k.spiRegistry ∧
      k'.spiRoleUsers = k.spiRoleUsers := by
  obtain ⟨p, -, rfl⟩ := registerPluginInAs_ok h
  rw [Kernel.commit_eq k ns p (k.registered ns p) rfl]
  exact ⟨rfl, rfl, rfl⟩

/-- A registration appends one entry, of the plugin under its qualified name. -/
theorem Managed.register (h : Managed setup k regs) (hmet : k.Met setup) {ns : String} {m : PluginManifest}
    {kernelOwned : Bool} (hreg : Kernel.registerPluginInAs setup k ns m kernelOwned = .ok k') :
    ∃ e, Managed setup k' (regs ++ [e]) ∧ e.ns = ns ∧ e.spi = k.spiRegistry ∧
      e.manifest = { m with name := qualify ns m.name } ∧
      e.plugin ∉ regs.map Registered.plugin ∧
      ∀ role ∈ m.roles, namespaceSeparator ∉ role.toList := by
  obtain ⟨p, hp, rfl⟩ := registerPluginInAs_ok hreg
  have hpassed := prepare_ok hp
  have hloaded := (registerPluginInAs_frame hreg).1
  refine ⟨k.registered ns p, ⟨h.listed.commit hpassed, ?_, ?_, ?_, ?_, ?_⟩, rfl, rfl,
    hpassed.renamed, notMem_names h.listed hpassed, prepare_roleNames hp⟩
  · intro e he
    rcases List.mem_append.mp he with he | he
    · exact h.sound e he
    · rw [List.mem_singleton.mp he]
      exact ⟨k, m, hmet, hpassed, rfl⟩
  · intro handle r m' hr hm
    rw [hloaded] at hr
    obtain ⟨e, he, hdesc⟩ := h.described handle r m' hr hm
    exact ⟨e, List.mem_append_left _ he, hdesc⟩
  · rw [hloaded]
    exact h.apart
  · rw [hloaded]
    exact h.readable
  · rw [(registerPluginInAs_frame hreg).2.2]
    exact h.users

/-- What a call makes of the registrations in force: some are taken out, and one, of a name none of the
rest has, is appended or none. -/
inductive Moves (regs : List Registered) : List Registered → List String → Prop
  | taken {base : List Registered} (h : base.Sublist regs) : Moves regs base []
  | appended {base : List Registered} {e : Registered} (h : base.Sublist regs)
      (hfresh : e.plugin ∉ base.map Registered.plugin)
      (hroles : ∀ role ∈ e.manifest.roles, namespaceSeparator ∉ role.toList) :
      Moves regs (base ++ [e]) [e.plugin]

theorem Moves.of_sublist {regs₀ regs regs' : List Registered} {names : List String}
    (h : Moves regs regs' names) (hsub : regs.Sublist regs₀) : Moves regs₀ regs' names := by
  cases h with
  | taken h => exact .taken (h.trans hsub)
  | appended h hfresh hroles => exact .appended (h.trans hsub) hfresh hroles

/-- What registering a text does: a contract is put, or a plugin appended. -/
inductive Registers (setup : Setup) (k : Kernel) (json ns : String) (kernelOwned : Bool) :
    Kernel → ManifestRecord → Prop
  | spiDef {role : String} {spi : SpiRegistry}
      (hclass : Kernel.classifyManifest setup json = .ok (.spiDef role))
      (hput : k.spiRegistry.register setup.readSpi (qualify ns role) json = .ok spi) :
      Registers setup k json ns kernelOwned { k with spiRegistry := spi }
        ⟨qualify ns role, ns, .spiDef json, false⟩
  | plugin {m : PluginManifest} {k' : Kernel}
      (hclass : Kernel.classifyManifest setup json = .ok (.plugin m))
      (hreg : Kernel.registerPluginInAs setup k ns m kernelOwned = .ok k') :
      Registers setup k json ns kernelOwned k' ⟨qualify ns m.name, ns, .plugin m, false⟩

theorem registerClassifiedManifest_ok {json ns : String} {kernelOwned : Bool}
    {record : ManifestRecord}
    (h : Kernel.registerClassifiedManifest setup k json ns kernelOwned = .ok (k', record)) :
    Registers setup k json ns kernelOwned k' record := by
  rw [Kernel.registerClassifiedManifest] at h
  cases hclass : Kernel.classifyManifest setup json with
  | error e => simp [hclass] at h
  | ok c =>
    simp only [hclass] at h
    cases c with
    | spiDef role =>
      cases hns : checkNamespace ns with
      | error e => simp [hns] at h
      | ok u =>
        cases hput : k.spiRegistry.register setup.readSpi (qualify ns role) json with
        | error e => simp [hns, hput] at h
        | ok spi =>
          simp only [hns, hput] at h
          cases h
          exact .spiDef hclass hput
    | plugin m =>
      cases hreg : Kernel.registerPluginInAs setup k ns m kernelOwned with
      | error e => simp [hreg] at h
      | ok k'' =>
        simp only [hreg] at h
        cases h
        exact .plugin hclass hreg

theorem register_readable {spi spi' : SpiRegistry} {role json : String}
    (h : spi.register setup.readSpi role json = .ok spi') :
    ∃ definition, setup.readSpi json = .ok definition := by
  rw [SpiRegistry.register] at h
  cases hread : setup.readSpi json with
  | error e => simp [hread] at h
  | ok definition => exact ⟨definition, rfl⟩

/-- Registering a text appends the plugin, if it is one, and any handle may denote it. -/
theorem Managed.install (h : Managed setup k regs) (hmet : k.Met setup) {json ns : String} {kernelOwned : Bool}
    {record : ManifestRecord} (hreg : Registers setup k json ns kernelOwned k' record) :
    ∃ added, Managed setup k' (regs ++ added) ∧
      Moves regs (regs ++ added) (Kernel.recordedPlugin record) ∧
      (∀ e ∈ added, e.plugin ∉ regs.map Registered.plugin) ∧
      (∀ m, record.payload = .plugin m → ∃ e, added = [e] ∧ Describes record m e) ∧
      (∀ json', record.payload = .spiDef json' → added = []) ∧
      ∀ handle, Trackable setup k' (regs ++ added) handle record := by
  cases hreg with
  | @spiDef role spi hclass hput =>
    have hkept : Managed setup { k with spiRegistry := spi } regs := h.congr rfl rfl rfl (fun _ => rfl) h.users
    refine ⟨[], by rwa [List.append_nil], .taken (by rw [List.append_nil]), nofun, nofun,
      fun _ _ => rfl, fun handle => ?_⟩
    refine ⟨nofun, nofun, ?_⟩
    rintro json' heq
    cases heq
    exact register_readable hput
  | @plugin m k' hclass hreg =>
    obtain ⟨e, hmanaged, hns, -, hmanifest, hfresh, hroles⟩ := h.register hmet hreg
    have hdesc : ∀ m', (ManifestPayload.plugin m) = .plugin m' →
        Describes ⟨qualify ns m.name, ns, .plugin m, false⟩ m' e := by
      rintro m' heq
      cases heq
      exact ⟨hns, rfl, hmanifest⟩
    have hloaded := (registerPluginInAs_frame hreg).1
    have hmoves : Moves regs (regs ++ [e]) [qualify ns m.name] := by
      have happended : Moves regs (regs ++ [e]) [e.plugin] :=
        .appended (List.Sublist.refl regs) hfresh (by rwa [hmanifest])
      rwa [(hdesc m rfl).plugin_eq] at happended
    refine ⟨[e], hmanaged, hmoves, by simpa using hfresh, fun m' heq => ⟨e, rfl, hdesc m' heq⟩, nofun,
      fun handle => ⟨?_, ?_, nofun⟩⟩
    · exact fun m' heq => ⟨e, by simp, hdesc m' heq⟩
    · intro m' heq h' r' m'' hr' hm'' hid
      -- the name was free, so no loaded record has it
      rw [hloaded] at hr'
      have hname := (hdesc m' heq).plugin_eq
      exact absurd (hid.trans hname.symm) (h.not_loaded hfresh hr' hm'')

end Register

/-! ### Taking out -/

section Unregister

variable {setup : Setup} {k k' : Kernel} {regs : List Registered}

/-- Releasing imports touches nothing but the imports. -/
theorem releaseStepImports_frame (k : Kernel) (plugin : String) (m : PluginManifest) :
    ∃ owners imports, k.releaseStepImports plugin m =
      { k with stepImportOwners := owners, additionalImports := imports } := by
  rw [Kernel.releaseStepImports]
  generalize importNames m = names
  induction names generalizing k with
  | nil => exact ⟨_, _, rfl⟩
  | cons name rest ih =>
    rw [List.foldl_cons, Kernel.releaseImport]
    split
    · obtain ⟨owners, imports, heq⟩ := ih { k with
        stepImportOwners :=
          AssocMap.without (PluginRegistry.stepTypeKey plugin name) k.stepImportOwners
        additionalImports := AssocMap.without
          (Kernel.importName (PluginRegistry.stepTypeKey plugin name)) k.additionalImports }
      exact ⟨owners, imports, heq⟩
    · exact ih k

/-- Scrubbing leaves the records and the role users. -/
theorem scrub_frame {r : ManifestRecord} (h : k.scrub r = .ok k') :
    k'.loadedManifests = k.loadedManifests ∧ k'.spiRoleUsers = k.spiRoleUsers := by
  cases hm : r.payload with
  | spiDef json =>
    simp only [Kernel.scrub, hm] at h
    split at h
    · cases h
      exact ⟨rfl, rfl⟩
    · cases h
  | plugin m =>
    simp only [Kernel.scrub, hm] at h
    cases hreg : k.registry.unregisterPlugin r.identifier with
    | none => simp [hreg] at h
    | some registry =>
      obtain ⟨owners, imports, hframe⟩ := releaseStepImports_frame
        { k with registry := registry } r.identifier m
      simp only [hreg, hframe] at h
      cases h
      exact ⟨rfl, rfl⟩

/-- Scrubbing a plugin that a handle denotes succeeds and removes its registration. -/
theorem Managed.scrubPlugin (h : Managed setup k regs) {handle : ManifestHandle}
    {r : ManifestRecord} {m : PluginManifest} (hr : k.loadedManifests.lookup handle = some r)
    (hm : r.payload = .plugin m) :
    ∃ registry owners imports, k.registry.unregisterPlugin r.identifier = some registry ∧
      (k.forget handle).scrub r = .ok { k.forget handle with
        registry := registry
        stepImportOwners := owners
        additionalImports := imports } ∧
      Managed setup { k.forget handle with
        registry := registry
        stepImportOwners := owners
        additionalImports := imports } (others r.identifier regs) := by
  obtain ⟨e, he, hdesc⟩ := h.described handle r m hr hm
  have hforgot := h.forget handle
  obtain ⟨registry, hreg, hlisted⟩ := hforgot.listed.remove he hdesc.importNames_eq
  rw [hdesc.plugin_eq] at hreg hlisted
  obtain ⟨owners, imports, hframe⟩ := releaseStepImports_frame
    { k.forget handle with registry := registry } r.identifier m
  rw [hframe] at hlisted
  refine ⟨registry, owners, imports, hreg, ?_, hlisted, ?_, ?_, ?_, ?_, ?_⟩
  · simp only [Kernel.scrub, hm, hreg, hframe]
  · exact fun e he => h.sound e (List.mem_of_mem_filter he)
  · intro h' r' m' hr' hm'
    obtain ⟨e', he', hdesc'⟩ := hforgot.described h' r' m' hr' hm'
    refine ⟨e', List.mem_filter.mpr ⟨he', ?_⟩, hdesc'⟩
    rw [bne_iff_ne, hdesc'.plugin_eq]
    intro hid
    -- another handle of the same plugin would be the one that is forgotten
    have hne : h' ≠ handle := by
      rintro rfl
      rw [Kernel.forget, AssocMap.lookup_without_self] at hr'
      cases hr'
    rw [Kernel.forget, AssocMap.lookup_without_ne hne] at hr'
    exact hne (h.apart h' handle r' r m' m hr' hr hm' hm hid)
  · exact hforgot.apart
  · exact hforgot.readable
  · exact h.users

/-- Scrubbing a contract leaves the plugins alone. -/
theorem Kernel.scrub_spi {handle : ManifestHandle} {r : ManifestRecord} {json : String}
    (hm : r.payload = .spiDef json) (hscrub : (k.forget handle).scrub r = .ok k') :
    k' = { k.forget handle with spiRegistry := k.spiRegistry.unregister r.identifier } := by
  simp only [Kernel.scrub, hm] at hscrub
  split at hscrub
  · cases hscrub
    rfl
  · cases hscrub

/-- The registrations left when what a record stands for is taken out. -/
def without (r : ManifestRecord) (regs : List Registered) : List Registered :=
  match r.payload with
  | .plugin _ => others r.identifier regs
  | .spiDef _ => regs

theorem without_sublist (r : ManifestRecord) (regs : List Registered) :
    (without r regs).Sublist regs := by
  unfold without
  cases r.payload with
  | plugin m => exact List.filter_sublist
  | spiDef json => exact List.Sublist.refl regs

theorem Managed.scrub (h : Managed setup k regs) {handle : ManifestHandle} {r : ManifestRecord}
    (hr : k.loadedManifests.lookup handle = some r)
    (hscrub : (k.forget handle).scrub r = .ok k') :
    Managed setup (k'.untrackManifest handle) (without r regs) := by
  cases hm : r.payload with
  | plugin m =>
    obtain ⟨registry, owners, imports, -, heq, hmanaged⟩ := h.scrubPlugin hr hm
    rw [heq] at hscrub
    cases hscrub
    rw [without, hm]
    exact hmanaged.congr rfl rfl rfl (fun _ => rfl) (nodup_users_untrack hmanaged.users)
  | spiDef json =>
    rw [Kernel.scrub_spi hm hscrub, without, hm]
    exact (h.forget handle).congr rfl rfl rfl (fun _ => rfl) (nodup_users_untrack h.users)

theorem Managed.unload (h : Managed setup k regs) (handle : ManifestHandle) :
    ∃ regs', Managed setup (k.unloadManifest handle).2 regs' ∧ regs'.Sublist regs ∧
      ∀ r, k.loadedManifests.lookup handle = some r → regs' = regs ∨ regs' = without r regs := by
  have hsame := List.Sublist.refl regs
  rw [Kernel.unloadManifest]
  split
  · exact ⟨regs, h, hsame, fun _ _ => Or.inl rfl⟩
  · cases hr : k.loadedManifests.lookup handle with
    | none => exact ⟨regs, h, hsame, nofun⟩
    | some r =>
      simp only
      split
      · exact ⟨regs, h, hsame, fun _ _ => Or.inl rfl⟩
      · cases hscrub : (k.forget handle).scrub r with
        | error e => exact ⟨regs, h.forget handle, hsame, fun _ _ => Or.inl rfl⟩
        | ok k' =>
          refine ⟨without r regs, h.scrub hr hscrub, without_sublist r regs, fun r' hr' => Or.inr ?_⟩
          rw [Option.some.inj hr']

end Unregister

/-! ### Replacing -/

section Replace

variable {setup : Setup} {k k' : Kernel} {regs : List Registered}

theorem Managed.load (h : Managed setup k regs) (hmet : k.Met setup) {json ns : String} {immutable : Bool}
    {handle : ManifestHandle}
    (hload : Kernel.loadManifest setup k json ns immutable = .ok (k', handle)) :
    ∃ record added, Managed setup k' (regs ++ added) ∧
      (∃ k₁ plain, Kernel.registerClassifiedManifest setup k json ns immutable = .ok (k₁, plain) ∧
        Moves regs (regs ++ added) (Kernel.recordedPlugin plain)) ∧
      k'.loadedManifests.lookup handle = some record ∧ record.immutable = immutable ∧
      (∀ e ∈ added, e.plugin ∉ regs.map Registered.plugin) ∧
      (∀ m, record.payload = .plugin m → ∃ e, added = [e] ∧ Describes record m e) ∧
      ∀ json', record.payload = .spiDef json' → added = [] := by
  rw [Kernel.loadManifest] at hload
  cases hreg : Kernel.registerClassifiedManifest setup k json ns immutable with
  | error e => simp [hreg] at hload
  | ok out =>
    obtain ⟨k₁, record⟩ := out
    simp only [hreg] at hload
    cases hload
    obtain ⟨added, hmanaged, hmoves, hfresh, hplugin, hspi, htrack⟩ :=
      h.install hmet (registerClassifiedManifest_ok hreg)
    have hnext : Managed setup { k₁ with nextManifestId := Kernel.nextId k₁.nextManifestId }
        (regs ++ added) := hmanaged.congr rfl rfl rfl (fun _ => rfl) hmanaged.users
    have hmarked := (htrack k₁.nextManifestId).marked immutable
    refine ⟨_, added, hnext.track ⟨hmarked.described, hmarked.apart, hmarked.readable⟩,
      ⟨k₁, record, rfl, hmoves⟩, AssocMap.lookup_put_self _ _ _, rfl, hfresh, ?_, hspi⟩
    intro m hm
    obtain ⟨e, heq, hdesc⟩ := hplugin m hm
    exact ⟨e, heq, hdesc.ns, hdesc.identifier, hdesc.manifest⟩

/-- Putting the old record back, where that succeeds, tracks it again. -/
theorem Managed.restore (h : Managed setup k regs) (hmet : k.Met setup) {handle : ManifestHandle} {r : ManifestRecord}
    (hid : ∀ m, r.payload = .plugin m → r.identifier = qualify r.namespace m.name)
    (hback : Kernel.rollback setup k r = .ok k') :
    ∃ regs', Managed setup (k'.trackManifest handle r) regs' ∧
      Moves regs regs' (Kernel.recordedPlugin r) := by
  have hsame := List.Sublist.refl regs
  rw [Kernel.rollback] at hback
  rw [Kernel.recordedPlugin]
  cases hm : r.payload with
  | spiDef json =>
    simp only [hm] at hback
    cases hput : k.spiRegistry.register setup.readSpi r.identifier json with
    | error e => simp [hput] at hback
    | ok spi =>
      simp only [hput] at hback
      cases hback
      have hkept : Managed setup { k with spiRegistry := spi } regs :=
        h.congr rfl rfl rfl (fun _ => rfl) h.users
      refine ⟨regs, hkept.track ⟨by simp [hm], by simp [hm], ?_⟩, .taken hsame⟩
      intro json' heq
      cases hm.symm.trans heq
      exact register_readable hput
  | plugin m =>
    simp only [hm] at hback
    obtain ⟨e, hmanaged, hns, -, hmanifest, hfresh, hroles⟩ := h.register hmet hback
    have hdesc : Describes r m e := ⟨hns, hid m hm, by rw [hmanifest, hid m hm]⟩
    have hloaded := (registerPluginInAs_frame hback).1
    have hmoves : Moves regs (regs ++ [e]) [e.plugin] := .appended hsame hfresh (by rwa [hmanifest])
    refine ⟨regs ++ [e], hmanaged.track ⟨?_, ?_, by simp [hm]⟩, hdesc.plugin_eq ▸ hmoves⟩
    · intro m' heq
      cases hm.symm.trans heq
      exact ⟨e, by simp, hdesc⟩
    · intro m' _ h' r' m'' hr' hm'' heq
      rw [hloaded] at hr'
      exact absurd (heq.trans hdesc.plugin_eq.symm) (h.not_loaded hfresh hr' hm'')

theorem Managed.replace (h : Managed setup k regs) (hmet : k.Met setup) {handle : ManifestHandle} {r : ManifestRecord}
    (hid : ∀ m, r.payload = .plugin m → r.identifier = qualify r.namespace m.name)
    (json : String) : ∃ regs', Managed setup (k.replaceManifest setup handle r json).2 regs' ∧
      Moves regs regs' (Kernel.replacementRegisters setup k r json) := by
  rw [Kernel.replaceManifest, Kernel.replacementRegisters]
  cases hreg : Kernel.registerClassifiedManifest setup k json r.namespace false with
  | ok out =>
    obtain ⟨k₁, record⟩ := out
    obtain ⟨added, hmanaged, hmoves, -, -, -, htrack⟩ :=
      h.install hmet (registerClassifiedManifest_ok hreg)
    exact ⟨_, hmanaged.track (htrack handle), hmoves⟩
  | error e =>
    cases hback : Kernel.rollback setup k r with
    | ok k₁ => exact h.restore hmet hid hback
    | error e' => exact ⟨regs, h, .taken (List.Sublist.refl regs)⟩

theorem Managed.reload (h : Managed setup k regs) (hk : k.Reachable setup) (handle : ManifestHandle) (json : String) :
    ∃ regs', Managed setup (k.reloadManifest setup handle json).2 regs' ∧
      Moves regs regs' (Kernel.registers setup k (.reload handle json)) := by
  have hsame : Moves regs regs [] := .taken (List.Sublist.refl regs)
  rw [Kernel.reloadManifest, Kernel.registers]
  split
  · exact ⟨regs, h, hsame⟩
  · cases hr : k.loadedManifests.lookup handle with
    | none => exact ⟨regs, h, hsame⟩
    | some r =>
      have hid : ∀ m, r.payload = .plugin m → r.identifier = qualify r.namespace m.name := by
        intro m hm
        obtain ⟨e, -, hdesc⟩ := h.described handle r m hr hm
        exact hdesc.identifier
      simp only
      cases hscrub : (k.forget handle).scrub r with
      | error e =>
        refine ⟨regs, h.congr rfl rfl rfl (fun h' => ?_) h.users, hsame⟩
        rw [AssocMap.lookup_put, Kernel.forget]
        by_cases heq : h' = handle
        · rw [heq, if_pos (beq_self_eq_true _), hr]
        · rw [if_neg (by simpa using heq), AssocMap.lookup_without_ne heq]
      | ok k' =>
        obtain ⟨regs', hmanaged, hmoves⟩ :=
          (h.scrub hr hscrub).replace (.reloading hk hr hscrub) hid json
        exact ⟨regs', hmanaged, hmoves.of_sublist (without_sublist r regs)⟩

end Replace

/-! ### Runs -/

/-- Every call keeps the invariant. -/
theorem Managed.after {setup : Setup} {k : Kernel} {regs : List Registered}
    (h : Managed setup k regs) (hk : k.Reachable setup) (c : Kernel.Call) :
    ∃ regs', Managed setup (k.after setup c) regs' ∧ Moves regs regs' (k.registers setup c) := by
  have hmet : k.Met setup := .reachable hk
  have hsame : Moves regs regs [] := .taken (List.Sublist.refl regs)
  cases c with
  | registerPlugin m =>
    rw [Kernel.after, Kernel.registers]
    cases hreg : Kernel.registerPluginInAs setup k "" m false with
    | error e => exact ⟨regs, h, hsame⟩
    | ok k' =>
      obtain ⟨e, hmanaged, -, -, hmanifest, hfresh, hroles⟩ := h.register hmet hreg
      have hname : e.plugin = m.name := by rw [Registered.plugin, hmanifest, qualify_root]
      exact ⟨_, hmanaged, hname ▸ .appended (List.Sublist.refl regs) hfresh (by rwa [hmanifest])⟩
  | registerSpi role json =>
    rw [Kernel.after]
    cases hreg : Kernel.registerSpiFromJson setup k role json with
    | error e => exact ⟨regs, h, hsame⟩
    | ok k' =>
      obtain ⟨spi, -, rfl⟩ := registerSpiFromJson_ok hreg
      exact ⟨regs, h.congr rfl rfl rfl (fun _ => rfl) h.users, hsame⟩
  | load ns json =>
    rw [Kernel.after, Kernel.registers]
    cases hload : Kernel.loadManifest setup k json ns false with
    | error e =>
      rw [Kernel.loadManifest] at hload
      cases hreg : Kernel.registerClassifiedManifest setup k json ns false with
      | error e' => exact ⟨regs, h, hsame⟩
      | ok out =>
        rw [hreg] at hload
        cases hload
    | ok out =>
      obtain ⟨_, _, hmanaged, ⟨k₁, plain, hreg, hmoves⟩, -⟩ := h.load hmet hload
      rw [hreg]
      exact ⟨_, hmanaged, hmoves⟩
  | unload handle =>
    obtain ⟨regs', hmanaged, hsub, -⟩ := h.unload handle
    exact ⟨regs', hmanaged, .taken hsub⟩
  | reload handle json => exact h.reload hk handle json

/-- In every reachable kernel the tables hold the registrations in force. -/
theorem managed_of_reachable {setup : Setup} {k : Kernel} (h : Kernel.Reachable setup k) :
    ∃ regs, Managed setup k regs := by
  obtain ⟨intrinsics, k₀, calls, hboot, hrun⟩ := h
  have hstart : ∃ regs, Managed setup k₀ regs := by
    rw [Kernel.boot] at hboot
    cases hload : Kernel.loadManifest setup .new intrinsics "" true with
    | error e => simp [hload] at hboot
    | ok out =>
      obtain ⟨k₁, handle⟩ := out
      simp only [hload] at hboot
      cases hboot
      obtain ⟨_, _, hmanaged, -⟩ := managed_new.load .new hload
      exact ⟨_, hmanaged⟩
  refine (hrun.invariant (P := fun calls k => Transition.Run (Kernel.CallStep setup) k₀ calls k ∧
    ∃ regs, Managed setup k regs) ⟨.nil, hstart⟩ ?_).2
  rintro calls k c _ ⟨hcalls, regs, h⟩ rfl
  obtain ⟨regs', hmanaged, -⟩ := h.after ⟨intrinsics, k₀, calls, hboot, hcalls⟩ c
  exact ⟨.snoc hcalls rfl, regs', hmanaged⟩

end Gwead
