import Gwead.ContractGuard

/-!
# The lifecycle index

The records of the loaded handles against the two registries.  Plugins are registered once, but an
SPI definition that is registered again unchanged is accepted, and then a second handle denotes
what a first one does.
-/

namespace Gwead

open Identity Registration

namespace Kernel

/-! ### What the index says -/

/-- The entry that a record names is in its registry. -/
def HasEntry (k : Kernel) (r : ManifestRecord) : Prop :=
  match r.payload with
  | .spiDef _ => (k.spiRegistry.get r.identifier).isSome
  | .plugin _ => k.registry.hasPlugin r.identifier = true

/-- The index does not drift: the records of the loaded handles name entries that are there and
that no other handle names, so no call meets a drift error, and unloading one handle leaves every
other one with its entry. -/
structure IndexExact (k : Kernel) : Prop where
  present : ∀ handle r, k.loadedManifests.lookup handle = some r → k.HasEntry r
  apart : ∀ handle handle' r r', k.loadedManifests.lookup handle = some r →
    k.loadedManifests.lookup handle' = some r' → r.payload.kind = r'.payload.kind →
      r.identifier = r'.identifier → handle = handle'
  noDrift : ∀ handle r e, k.loadedManifests.lookup handle = some r →
    (k.forget handle).scrub r ≠ .error e
  unload : ∀ handle handle' r, handle' ≠ handle → k.loadedManifests.lookup handle' = some r →
    (k.unloadManifest handle).2.loadedManifests.lookup handle' = some r ∧
      (k.unloadManifest handle).2.HasEntry r

/-- The contract that a handle denotes. -/
def Denotes (k : Kernel) (handle : ManifestHandle) (key : String) : Prop :=
  ∃ r, k.loadedManifests.lookup handle = some r ∧ r.payload.kind = .spiDef ∧ r.identifier = key

/-- Registering a text for a handle repeats a contract: the text has the definition that is
registered under the same key, and another handle denotes that contract. -/
def RepeatsContract (setup : Setup) (k : Kernel) (handle : ManifestHandle) (ns json : String) :
    Prop :=
  ∃ role definition existing other, classifyManifest setup json = .ok (.spiDef role) ∧
    checkNamespace ns = .ok () ∧ setup.readSpi json = .ok definition ∧
    k.spiRegistry.get (qualify ns role) = some existing ∧ existing.eqv definition = true ∧
    other ≠ handle ∧ k.Denotes other (qualify ns role)

/-- A load or a reload that repeats a contract. -/
def Call.Repeats (setup : Setup) (k : Kernel) : Call → Prop
  | .load ns json => k.RepeatsContract setup k.nextManifestId ns json
  | .reload handle json => k.isImmutable handle = false ∧
      ∃ old, k.loadedManifests.lookup handle = some old ∧
        k.RepeatsContract setup handle old.namespace json
  | _ => False

/-! ### Contracts and handles -/

/-- Each contract that a handle denotes is registered, and no other handle denotes it. -/
structure ContractsIndexed (k : Kernel) : Prop where
  there : ∀ handle key, k.Denotes handle key → (k.spiRegistry.get key).isSome
  apart : ∀ handle handle' key, k.Denotes handle key → k.Denotes handle' key → handle = handle'

section Index

variable {setup : Setup} {k k' : Kernel} {regs : List Registered} {handle handle' : ManifestHandle}
  {r : ManifestRecord} {key ns json : String}

theorem Denotes.congr (h : k.Denotes handle key) (hloaded : k'.loadedManifests = k.loadedManifests) :
    k'.Denotes handle key := by
  obtain ⟨r, hr, h⟩ := h
  exact ⟨r, hloaded ▸ hr, h⟩

theorem denotes_track : (k.trackManifest handle' r).Denotes handle key ↔
    (handle = handle' ∧ r.payload.kind = .spiDef ∧ r.identifier = key) ∨
      (handle ≠ handle' ∧ k.Denotes handle key) := by
  simp only [Denotes, trackManifest, AssocMap.lookup_put]
  by_cases heq : handle = handle' <;> simp [heq]

theorem denotes_forget :
    (k.forget handle').Denotes handle key ↔ handle ≠ handle' ∧ k.Denotes handle key := by
  by_cases heq : handle = handle'
  · subst heq
    simp [Denotes, forget, AssocMap.lookup_without_self]
  · simp [Denotes, forget, AssocMap.lookup_without_ne heq, heq]

/-- What a manifest that is taken out leaves denotes what it did before. -/
theorem denotes_scrub (hscrub : (k.forget handle').scrub r = .ok k') :
    (k'.untrackManifest handle').Denotes handle key ↔ handle ≠ handle' ∧ k.Denotes handle key := by
  rw [← denotes_forget]
  exact ⟨fun h => h.congr (scrub_frame hscrub).1.symm, fun h => h.congr (scrub_frame hscrub).1⟩

theorem contractsIndexed_new : ContractsIndexed Kernel.new :=
  ⟨fun _ _ ⟨_, hr, _⟩ => (by cases hr), fun _ _ _ ⟨_, hr, _⟩ => (by cases hr)⟩

theorem ContractsIndexed.congr (h : k.ContractsIndexed)
    (hloaded : k'.loadedManifests = k.loadedManifests)
    (hspi : ∀ key, (k.spiRegistry.get key).isSome → (k'.spiRegistry.get key).isSome) :
    k'.ContractsIndexed :=
  ⟨fun handle key hd => hspi key (h.there handle key (hd.congr hloaded.symm)),
    fun handle handle' key hd hd' =>
      h.apart handle handle' key (hd.congr hloaded.symm) (hd'.congr hloaded.symm)⟩

theorem ContractsIndexed.forget (h : k.ContractsIndexed) (handle : ManifestHandle) :
    (k.forget handle).ContractsIndexed :=
  ⟨fun h' key hd => h.there h' key (denotes_forget.mp hd).2, fun h₁ h₂ key hd₁ hd₂ =>
    h.apart h₁ h₂ key (denotes_forget.mp hd₁).2 (denotes_forget.mp hd₂).2⟩

/-- A handle may denote a contract that is registered and that no other handle denotes. -/
theorem ContractsIndexed.track (h : k.ContractsIndexed) (hr : r.payload.kind = .spiDef →
    (k.spiRegistry.get r.identifier).isSome ∧
      ∀ other, other ≠ handle → ¬k.Denotes other r.identifier) :
    (k.trackManifest handle r).ContractsIndexed := by
  constructor
  · intro h' key hd
    rcases denotes_track.mp hd with ⟨-, hkind, rfl⟩ | ⟨-, hd⟩
    · exact (hr hkind).1
    · exact h.there h' key hd
  · intro h₁ h₂ key hd₁ hd₂
    rcases denotes_track.mp hd₁ with ⟨rfl, hkind, rfl⟩ | ⟨hne₁, old₁⟩ <;>
      rcases denotes_track.mp hd₂ with ⟨rfl, hkind₂, hkey⟩ | ⟨hne₂, old₂⟩
    · rfl
    · exact absurd old₂ ((hr hkind).2 h₂ hne₂)
    · exact absurd (hkey ▸ old₁) ((hr hkind₂).2 h₁ hne₁)
    · exact h.apart h₁ h₂ key old₁ old₂

/-- A contract that another handle denotes stays when a manifest is taken out. -/
theorem ContractsIndexed.get_scrub (h : k.ContractsIndexed) (hk : Managed setup k regs)
    (hr : k.loadedManifests.lookup handle = some r) (hscrub : (k.forget handle).scrub r = .ok k')
    {other : ManifestHandle} (hne : other ≠ handle) (hd : k.Denotes other key) :
    (k'.untrackManifest handle).spiRegistry.get key = k.spiRegistry.get key := by
  cases hm : r.payload with
  | plugin m =>
    obtain ⟨registry, owners, imports, -, heq, -⟩ := hk.scrubPlugin hr hm
    rw [heq] at hscrub
    cases hscrub
    rfl
  | spiDef json =>
    have hown : k.Denotes handle r.identifier := ⟨r, hr, by rw [hm]; rfl, rfl⟩
    have hkey : key ≠ r.identifier := by
      rintro rfl
      exact hne (h.apart other handle r.identifier hd hown)
    rw [Kernel.scrub_spi hm hscrub]
    exact AssocMap.lookup_without_ne hkey _

theorem ContractsIndexed.scrub (h : k.ContractsIndexed) (hk : Managed setup k regs)
    (hr : k.loadedManifests.lookup handle = some r)
    (hscrub : (k.forget handle).scrub r = .ok k') : (k'.untrackManifest handle).ContractsIndexed := by
  constructor
  · intro other key hd
    obtain ⟨hne, hd⟩ := (denotes_scrub hscrub).mp hd
    rw [h.get_scrub hk hr hscrub hne hd]
    exact h.there other key hd
  · intro h₁ h₂ key hd₁ hd₂
    exact h.apart h₁ h₂ key ((denotes_scrub hscrub).mp hd₁).2 ((denotes_scrub hscrub).mp hd₂).2

/-! ### Registering and taking out -/

/-- What is registered again unchanged was there already, and a second definition is refused. -/
theorem register_again {readSpi : String → Except String SpiDefinition} {spi spi' : SpiRegistry}
    {existing : SpiDefinition} (hget : spi.get key = some existing) :
    spi.register readSpi key json = .ok spi' ↔
      (∃ definition, readSpi json = .ok definition ∧ existing.eqv definition = true) ∧ spi' = spi := by
  rw [SpiRegistry.register]
  cases hread : readSpi json with
  | error e => simp
  | ok definition =>
    simp only [hget]
    cases heqv : existing.eqv definition with
    | false => simp [heqv]
    | true => simpa [heqv] using eq_comm

theorem registerClassifiedManifest_spiDef {role : String} {kernelOwned : Bool}
    (hclass : classifyManifest setup json = .ok (.spiDef role)) {record : ManifestRecord} :
    registerClassifiedManifest setup k json ns kernelOwned = .ok (k', record) ↔
      checkNamespace ns = .ok () ∧ ∃ spi,
        k.spiRegistry.register setup.readSpi (qualify ns role) json = .ok spi ∧
          k' = { k with spiRegistry := spi } ∧ record = ⟨qualify ns role, ns, .spiDef json, false⟩ := by
  rw [registerClassifiedManifest, hclass]
  cases hns : checkNamespace ns with
  | error e => simp
  | ok u =>
    simp only
    cases hput : k.spiRegistry.register setup.readSpi (qualify ns role) json with
    | error e => simp
    | ok spi =>
      simp only [Except.ok.injEq, Prod.mk.injEq, true_and, exists_eq_left']
      exact and_congr eq_comm eq_comm

/-- What a registered text gives a handle may be tracked, unless it repeats a contract. -/
theorem ContractsIndexed.registers (h : k.ContractsIndexed) {kernelOwned : Bool}
    (hreg : registerClassifiedManifest setup k json ns kernelOwned = .ok (k', r))
    (hrepeats : r.payload.kind = .spiDef → ∀ other, other ≠ handle → ¬k.Denotes other r.identifier) :
    k'.ContractsIndexed ∧ (r.payload.kind = .spiDef → (k'.spiRegistry.get r.identifier).isSome ∧
      ∀ other, other ≠ handle → ¬k'.Denotes other r.identifier) := by
  cases registerClassifiedManifest_ok hreg with
  | spiDef hclass hput =>
    obtain ⟨hthere, hkept⟩ := SpiRegistry.register_ok hput
    exact ⟨h.congr rfl hkept, fun hkind => ⟨hthere, hrepeats hkind⟩⟩
  | plugin hclass hplugin =>
    obtain ⟨hloaded, hspi, -⟩ := registerPluginInAs_frame hplugin
    exact ⟨h.congr hloaded fun key hkey => hspi ▸ hkey, nofun⟩

/-- A text that is registered as a contract of another handle repeats that contract. -/
theorem repeats_of_registers {k₀ : Kernel} {kernelOwned : Bool}
    (hreg : registerClassifiedManifest setup k₀ json ns kernelOwned = .ok (k', r))
    (hkind : r.payload.kind = .spiDef) {other : ManifestHandle} (hne : other ≠ handle)
    (hd : k.Denotes other r.identifier) {existing : SpiDefinition}
    (hget : k.spiRegistry.get r.identifier = some existing)
    (hget₀ : k₀.spiRegistry.get r.identifier = some existing) :
    k.RepeatsContract setup handle ns json := by
  cases registerClassifiedManifest_ok hreg with
  | plugin hclass hplugin => cases hkind
  | @spiDef role spi hclass hput =>
    obtain ⟨hns, -⟩ := (registerClassifiedManifest_spiDef hclass).mp hreg
    obtain ⟨⟨definition, hread, heqv⟩, -⟩ := (register_again hget₀).mp hput
    exact ⟨role, definition, existing, other, hclass, hns, hread, hget, heqv, hne, hd⟩

/-- A text that repeats a contract is registered, and its record names that contract. -/
theorem RepeatsContract.registers (h : k.RepeatsContract setup handle ns json) {k₀ : Kernel}
    (hsame : ∀ other key, other ≠ handle → k.Denotes other key →
      k₀.spiRegistry.get key = k.spiRegistry.get key) (kernelOwned : Bool) :
    ∃ record other, registerClassifiedManifest setup k₀ json ns kernelOwned = .ok (k₀, record) ∧
      record.payload.kind = .spiDef ∧ other ≠ handle ∧ k.Denotes other record.identifier := by
  obtain ⟨role, definition, existing, other, hclass, hns, hread, hget, heqv, hne, hd⟩ := h
  have hput := (register_again ((hsame other _ hne hd).trans hget)).mpr
    ⟨⟨definition, hread, heqv⟩, rfl⟩
  exact ⟨_, other, (registerClassifiedManifest_spiDef hclass).mpr ⟨hns, _, hput, rfl, rfl⟩, rfl, hne,
    hd⟩

/-! ### Calls -/

theorem ContractsIndexed.load (h : k.ContractsIndexed) {immutable : Bool}
    (hload : loadManifest setup k json ns immutable = .ok (k', handle))
    (hrepeats : ¬k.RepeatsContract setup k.nextManifestId ns json) : k'.ContractsIndexed := by
  rw [loadManifest] at hload
  cases hreg : registerClassifiedManifest setup k json ns immutable with
  | error e => simp [hreg] at hload
  | ok out =>
    obtain ⟨k₁, record⟩ := out
    simp only [hreg] at hload
    cases hload
    have hnext : k₁.nextManifestId = k.nextManifestId := by
      cases registerClassifiedManifest_ok hreg with
      | spiDef _ _ => rfl
      | plugin _ hplugin =>
        obtain ⟨p, -, rfl⟩ := registerPluginInAs_ok hplugin
        rw [Kernel.commit_eq k ns p (k.registered ns p) rfl]
    have hfree : record.payload.kind = .spiDef →
        ∀ other, other ≠ k₁.nextManifestId → ¬k.Denotes other record.identifier := by
      intro hkind other hne hd
      obtain ⟨existing, hget⟩ := Option.isSome_iff_exists.mp (h.there other _ hd)
      exact hrepeats (repeats_of_registers hreg hkind (hnext ▸ hne) hd hget hget)
    obtain ⟨hindexed, htrack⟩ := h.registers hreg hfree
    have hcounted : ContractsIndexed
        { k₁ with nextManifestId := nextId k₁.nextManifestId } := hindexed.congr rfl fun _ => id
    exact hcounted.track htrack

theorem ContractsIndexed.unload (h : k.ContractsIndexed) (hk : Managed setup k regs)
    (handle : ManifestHandle) : (k.unloadManifest handle).2.ContractsIndexed := by
  rw [unloadManifest]
  split
  · exact h
  · cases hr : k.loadedManifests.lookup handle with
    | none => exact h
    | some r =>
      simp only
      split
      · exact h
      · cases hscrub : (k.forget handle).scrub r with
        | error e => exact h.forget handle
        | ok k' => exact h.scrub hk hr hscrub

theorem ContractsIndexed.replace (h : k.ContractsIndexed) (hk : Managed setup k regs)
    (hr : k.loadedManifests.lookup handle = some r) (hscrub : (k.forget handle).scrub r = .ok k')
    (hrepeats : ¬k.RepeatsContract setup handle r.namespace json) :
    ((k'.untrackManifest handle).replaceManifest setup handle r json).2.ContractsIndexed := by
  have hclean := h.scrub hk hr hscrub
  rw [replaceManifest]
  cases hreg : registerClassifiedManifest setup (k'.untrackManifest handle) json r.namespace
      false with
  | ok out =>
    obtain ⟨k₁, record⟩ := out
    have hfree : record.payload.kind = .spiDef → ∀ other, other ≠ handle →
        ¬(k'.untrackManifest handle).Denotes other record.identifier := by
      intro hkind other hne hd
      have hd' := ((denotes_scrub hscrub).mp hd).2
      obtain ⟨existing, hget⟩ := Option.isSome_iff_exists.mp (h.there other _ hd')
      exact hrepeats (repeats_of_registers hreg hkind hne hd' hget
        ((h.get_scrub hk hr hscrub hne hd').trans hget))
    obtain ⟨hindexed, htrack⟩ := hclean.registers hreg hfree
    exact hindexed.track htrack
  | error e =>
    cases hback : rollback setup (k'.untrackManifest handle) r with
    | error e' => exact hclean
    | ok k₁ =>
      rw [rollback] at hback
      cases hm : r.payload with
      | plugin m =>
        simp only [hm] at hback
        obtain ⟨hloaded, hspi, -⟩ := registerPluginInAs_frame hback
        refine (hclean.congr hloaded fun key hkey => hspi ▸ hkey).track ?_
        rw [hm]
        rintro ⟨⟩
      | spiDef json' =>
        simp only [hm] at hback
        cases hput : (k'.untrackManifest handle).spiRegistry.register setup.readSpi r.identifier
            json' with
        | error e => simp [hput] at hback
        | ok spi =>
          simp only [hput] at hback
          cases hback
          obtain ⟨hthere, hkept⟩ := SpiRegistry.register_ok hput
          have hrestored : ContractsIndexed { k'.untrackManifest handle with spiRegistry := spi } :=
            hclean.congr rfl hkept
          refine hrestored.track fun hkind => ⟨hthere, fun other hne hd => ?_⟩
          exact hne (h.apart other handle _ ((denotes_scrub hscrub).mp hd).2 ⟨r, hr, hkind, rfl⟩)

/-- The manifest of a loaded handle can be taken out. -/
theorem ContractsIndexed.scrub_ok (h : k.ContractsIndexed) (hk : Managed setup k regs)
    (hr : k.loadedManifests.lookup handle = some r) : ∃ k', (k.forget handle).scrub r = .ok k' := by
  cases hm : r.payload with
  | plugin m =>
    obtain ⟨registry, owners, imports, -, hscrub, -⟩ := hk.scrubPlugin hr hm
    exact ⟨_, hscrub⟩
  | spiDef json =>
    have hthere := h.there handle r.identifier ⟨r, hr, by rw [hm]; rfl, rfl⟩
    refine ⟨{ k.forget handle with spiRegistry := k.spiRegistry.unregister r.identifier }, ?_⟩
    simp only [Kernel.scrub, hm]
    exact if_pos hthere

theorem ContractsIndexed.reload (h : k.ContractsIndexed) (hk : Managed setup k regs)
    (hrepeats : ¬(Call.reload handle json).Repeats setup k) :
    (k.reloadManifest setup handle json).2.ContractsIndexed := by
  cases himm : k.isImmutable handle with
  | true => simpa [reloadManifest, himm] using h
  | false =>
    cases hr : k.loadedManifests.lookup handle with
    | none => simpa [reloadManifest, himm, hr] using h
    | some r =>
      obtain ⟨k', hscrub⟩ := h.scrub_ok hk hr
      rw [reloadManifest_replaced himm hr hscrub]
      exact h.replace hk hr hscrub fun hagain => hrepeats ⟨himm, r, hr, hagain⟩

/-- A call that repeats no contract keeps the contracts indexed. -/
theorem ContractsIndexed.after (h : k.ContractsIndexed) (hk : Managed setup k regs) {c : Call}
    (hrepeats : ¬c.Repeats setup k) : (k.after setup c).ContractsIndexed := by
  cases c with
  | registerPlugin m =>
    rw [Kernel.after]
    cases hreg : registerPluginInAs setup k "" m false with
    | error e => exact h
    | ok k' =>
      obtain ⟨hloaded, hspi, -⟩ := registerPluginInAs_frame hreg
      exact h.congr hloaded fun key hkey => hspi ▸ hkey
  | registerSpi role json =>
    rw [Kernel.after]
    cases hreg : registerSpiFromJson setup k role json with
    | error e => exact h
    | ok k' =>
      obtain ⟨spi, hput, rfl⟩ := registerSpiFromJson_ok hreg
      exact h.congr rfl (SpiRegistry.register_ok hput).2
  | load ns json =>
    rw [Kernel.after]
    cases hload : loadManifest setup k json ns false with
    | error e => exact h
    | ok out => exact h.load hload hrepeats
  | unload handle => exact h.unload hk handle
  | reload handle json => exact h.reload hk hrepeats

/-! ### The index -/

theorem ContractsIndexed.hasEntry (h : k.ContractsIndexed) (hk : Managed setup k regs)
    (hr : k.loadedManifests.lookup handle = some r) : k.HasEntry r := by
  rw [HasEntry]
  cases hm : r.payload with
  | spiDef json => exact h.there handle r.identifier ⟨r, hr, by rw [hm]; rfl, rfl⟩
  | plugin m =>
    obtain ⟨registry, owners, imports, hout, -, -⟩ := hk.scrubPlugin hr hm
    by_contra hgone
    simp [PluginRegistry.unregisterPlugin, hgone] at hout

/-- Unloading a handle leaves the records of the others. -/
theorem lookup_unload (hne : handle' ≠ handle) :
    (k.unloadManifest handle).2.loadedManifests.lookup handle' =
      k.loadedManifests.lookup handle' := by
  rw [unloadManifest]
  split
  · rfl
  · cases hr : k.loadedManifests.lookup handle with
    | none => rfl
    | some r =>
      simp only
      split
      · rfl
      · cases hscrub : (k.forget handle).scrub r with
        | error e => exact AssocMap.lookup_without_ne hne _
        | ok k' =>
          simp only [untrackManifest, (scrub_frame hscrub).1]
          exact AssocMap.lookup_without_ne hne _

theorem ContractsIndexed.exact (h : k.ContractsIndexed) (hk : Managed setup k regs) :
    k.IndexExact where
  present handle r hr := h.hasEntry hk hr
  apart handle handle' r r' hr hr' hkind hid := by
    cases hm : r.payload with
    | spiDef json =>
      have hown : r.payload.kind = .spiDef := by rw [hm]; rfl
      exact h.apart handle handle' r.identifier ⟨r, hr, hown, rfl⟩
        ⟨r', hr', hkind.symm.trans hown, hid.symm⟩
    | plugin m =>
      cases hm' : r'.payload with
      | spiDef json => simp [hm, hm', ManifestPayload.kind] at hkind
      | plugin m' => exact hk.apart handle handle' r r' m m' hr hr' hm hm' hid
  noDrift handle r e hr herr := by
    obtain ⟨k', hok⟩ := h.scrub_ok hk hr
    cases hok.symm.trans herr
  unload handle handle' r hne hr := by
    obtain ⟨regs', hk', -⟩ := hk.unload handle
    have hr' := (lookup_unload (k := k) hne).trans hr
    exact ⟨hr', (h.unload hk handle).hasEntry hk' hr'⟩

theorem IndexExact.contractsIndexed (h : k.IndexExact) : k.ContractsIndexed := by
  constructor
  · rintro handle key ⟨r, hr, hkind, rfl⟩
    have hentry := h.present handle r hr
    rw [HasEntry] at hentry
    cases hm : r.payload with
    | spiDef json => simpa [hm] using hentry
    | plugin m => simp [hm, ManifestPayload.kind] at hkind
  · rintro handle handle' key ⟨r, hr, hkind, hkey⟩ ⟨r', hr', hkind', hkey'⟩
    exact h.apart handle handle' r r' hr hr' (hkind.trans hkind'.symm) (hkey.trans hkey'.symm)

/-- A call that repeats a contract gives it a second handle. -/
theorem Call.Repeats.breaks {c : Call} (h : k.ContractsIndexed) (hk : Managed setup k regs)
    (hrepeats : c.Repeats setup k) : ¬(k.after setup c).IndexExact := by
  cases c with
  | load ns json =>
    obtain ⟨record, other, hreg, hkind, hne, hd⟩ :=
      RepeatsContract.registers hrepeats (fun _ _ _ _ => rfl) false
    intro hexact
    have hload : k.after setup (.load ns json) =
        Kernel.trackManifest { k with nextManifestId := nextId k.nextManifestId }
          k.nextManifestId { record with immutable := false } := by
      rw [Kernel.after, loadManifest, hreg]
      rfl
    rw [hload] at hexact
    refine hne (hexact.contractsIndexed.apart _ _ _ ?_ (denotes_track.mpr (Or.inl ⟨rfl, hkind, rfl⟩)))
    exact denotes_track.mpr (Or.inr ⟨hne, hd⟩)
  | reload handle json =>
    obtain ⟨himm, old, hr, hagain⟩ := hrepeats
    obtain ⟨k', hscrub⟩ := h.scrub_ok hk hr
    obtain ⟨record, other, hreg, hkind, hne, hd⟩ :=
      hagain.registers (fun _ _ hne hd => h.get_scrub hk hr hscrub hne hd) false
    intro hexact
    have hreload : k.after setup (.reload handle json) =
        (k'.untrackManifest handle).trackManifest handle record := by
      rw [Kernel.after, reloadManifest_replaced himm hr hscrub, replaceManifest, hreg]
    rw [hreload] at hexact
    refine hne (hexact.contractsIndexed.apart _ _ _ ?_ (denotes_track.mpr (Or.inl ⟨rfl, hkind, rfl⟩)))
    exact denotes_track.mpr (Or.inr ⟨hne, (denotes_scrub hscrub).mpr ⟨hne, hd⟩⟩)
  | _ => exact hrepeats.elim

end Index

/-! ### Runs -/

section Runs

variable {setup : Setup} {k : Kernel} {intrinsics : String}

theorem contractsIndexed_boot (hboot : boot setup intrinsics = .ok k) : k.ContractsIndexed := by
  rw [boot] at hboot
  cases hload : loadManifest setup .new intrinsics "" true with
  | error e => simp [hload] at hboot
  | ok out =>
    obtain ⟨k₁, handle⟩ := out
    simp only [hload] at hboot
    cases hboot
    refine contractsIndexed_new.load hload ?_
    rintro ⟨role, definition, existing, other, -, -, -, -, -, -, r, hr, -⟩
    cases hr

/-- The index does not drift in any state of a run exactly when no load or reload of the run gives
a contract that another handle denotes a second one. -/
theorem index_exact_iff (hboot : boot setup intrinsics = .ok k) (calls : List Call) :
    (∀ pre post, calls = pre ++ post → (k.afterAll setup pre).IndexExact) ↔
      ∀ pre c post, calls = pre ++ c :: post → ¬c.Repeats setup (k.afterAll setup pre) := by
  have hmanaged : ∀ pre, ∃ regs, Managed setup (k.afterAll setup pre) regs := fun pre =>
    managed_of_reachable (reachable_afterAll hboot pre)
  constructor
  · intro hexact pre c post hcalls hrepeats
    obtain ⟨regs, hk⟩ := hmanaged pre
    have hindexed := (hexact pre (c :: post) hcalls).contractsIndexed
    refine hrepeats.breaks hindexed hk ?_
    rw [← afterAll_concat]
    exact hexact (pre ++ [c]) post (by simp [hcalls])
  · intro hnone
    have hindexed : ∀ pre post, calls = pre ++ post → (k.afterAll setup pre).ContractsIndexed := by
      intro pre
      induction pre using List.reverseRecOn with
      | nil => exact fun _ _ => contractsIndexed_boot hboot
      | append_singleton pre c ih =>
        intro post hcalls
        rw [List.append_assoc, List.singleton_append] at hcalls
        obtain ⟨regs, hk⟩ := hmanaged pre
        rw [afterAll_concat]
        exact (ih (c :: post) hcalls).after hk (hnone pre c post hcalls)
    intro pre post hcalls
    obtain ⟨regs, hk⟩ := hmanaged pre
    exact (hindexed pre post hcalls).exact hk

end Runs

/-! ### A contract with two handles -/

/-- The contract is loaded as 2 and again as 3, and 2 is unloaded. -/
def twiceCalls : List Call := [.load "" "storage", .load "" "storage", .unload 2]

/-- The second handle is loaded and its contract is gone: unloading it meets the drift error. -/
theorem second_handle_drifts : ∃ k, boot contractSetup "kernel" = .ok k ∧
    ((k.afterAll contractSetup twiceCalls).loadedManifests.lookup 3).map
      ManifestRecord.identifier = some "storage" ∧
    (k.afterAll contractSetup twiceCalls).spiRegistry.get "storage" = none ∧
    ((k.afterAll contractSetup twiceCalls).unloadManifest 3).1 =
      .error (drift "SPI def" "storage" "SPI") ∧
    ¬(k.afterAll contractSetup twiceCalls).IndexExact := by
  have hrun : ∃ k, boot contractSetup "kernel" = .ok k ∧
      (k.afterAll contractSetup twiceCalls).loadedManifests.lookup 3 =
        some ⟨"storage", "", .spiDef "storage", false⟩ ∧
      (k.afterAll contractSetup twiceCalls).spiRegistry.get "storage" = none ∧
      ((k.afterAll contractSetup twiceCalls).unloadManifest 3).1 =
        .error (drift "SPI def" "storage" "SPI") := ⟨_, rfl, by decide, by decide, by decide⟩
  obtain ⟨k, hboot, hloaded, hgone, hdrift⟩ := hrun
  refine ⟨k, hboot, by rw [hloaded]; rfl, hgone, hdrift, fun hexact => ?_⟩
  have hthere : ((k.afterAll contractSetup twiceCalls).spiRegistry.get "storage").isSome :=
    hexact.present 3 _ hloaded
  rw [hgone] at hthere
  cases hthere

/-- A contract that is reloaded under its own handle has one handle. -/
theorem index_exact_reloaded : ∃ k, boot contractSetup "kernel" = .ok k ∧
    ∀ pre post, [Call.load "" "storage", .load "" "notes", .reload 2 "storage"] = pre ++ post →
      (k.afterAll contractSetup pre).IndexExact := by
  have hrun : ∃ k, boot contractSetup "kernel" = .ok k ∧ k.spiRegistry.get "storage" = none ∧
      ∀ e ∈ (k.afterAll contractSetup [.load "" "storage", .load "" "notes"]).loadedManifests,
        e.2.payload.kind = .spiDef → e.1 = 2 := ⟨_, rfl, by decide, by decide⟩
  obtain ⟨k, hboot, hfree, honly⟩ := hrun
  refine ⟨k, hboot, (index_exact_iff hboot _).mpr ?_⟩
  intro pre c post hcalls hrepeats
  rcases pre with _ | ⟨a, _ | ⟨b, _ | ⟨c', rest⟩⟩⟩
  · simp only [List.nil_append, List.cons.injEq] at hcalls
    obtain ⟨rfl, -⟩ := hcalls
    obtain ⟨role, definition, existing, other, hclass, -, -, hget, -⟩ := hrepeats
    cases hclass
    cases hfree.symm.trans hget
  · simp only [List.cons_append, List.nil_append, List.cons.injEq] at hcalls
    obtain ⟨rfl, rfl, -⟩ := hcalls
    obtain ⟨role, definition, existing, other, hclass, -⟩ := hrepeats
    cases hclass
  · simp only [List.cons_append, List.nil_append, List.cons.injEq] at hcalls
    obtain ⟨rfl, rfl, rfl, -⟩ := hcalls
    obtain ⟨-, old, -, role, definition, existing, other, -, -, -, -, -, hne, r, hr, hkind, -⟩ :=
      hrepeats
    exact hne (honly (other, r) (AssocMap.mem_of_lookup hr) hkind)
  · simp at hcalls

end Kernel

end Gwead
