import Gwead.Consistency

/-!
# Identity and contracts over a manifest's life

A reload is meant to swap contents and nothing else, and a contract a loaded plugin was bound to
is meant to stay.  Both hold of a run exactly when every replacement that goes in has the kind and
the name of what it replaces; nothing checks that it has.
-/

namespace Gwead

open Identity Registration

inductive ManifestKind where
  | spiDef | plugin
  deriving DecidableEq

def ManifestPayload.kind : ManifestPayload → ManifestKind
  | .spiDef _ => .spiDef
  | .plugin _ => .plugin

namespace Kernel

def ClassifiedManifest.kind : ClassifiedManifest → ManifestKind
  | .spiDef _ => .spiDef
  | .plugin _ => .plugin

def ClassifiedManifest.localName : ClassifiedManifest → String
  | .spiDef role => role
  | .plugin manifest => manifest.name

/-- A call that takes the manifest of a handle out, or may. -/
def Call.Touches (handle : ManifestHandle) : Call → Prop
  | .unload handle' => handle' = handle
  | .reload handle' _ => handle' = handle
  | _ => False

/-- A call that registers what a handle denotes afterwards. -/
def Call.Registers (setup : Setup) (k : Kernel) (handle : ManifestHandle) : Call → Prop
  | .load ns json => ∃ k', loadManifest setup k json ns false = .ok (k', handle)
  | .reload handle' _ => handle' = handle ∧ k.isImmutable handle = false
  | _ => False

/-- The plugin a handle denotes declares a role that the contract under `key` stands for. -/
def BoundTo (k : Kernel) (handle : ManifestHandle) (key : String) : Prop :=
  ∃ r m role definition, k.loadedManifests.lookup handle = some r ∧ r.payload = .plugin m ∧
    role ∈ m.roles ∧ k.spiRegistry.resolve r.namespace role = some (key, definition)

/-- A reload that succeeds leaves the kind and the identifier. -/
def KeepsIdentity (setup : Setup) (k : Kernel) (handle : ManifestHandle) (json : String) : Prop :=
  (k.reloadManifest setup handle json).1 = .ok () →
    ∀ old, k.loadedManifests.lookup handle = some old →
      ∃ new, (k.reloadManifest setup handle json).2.loadedManifests.lookup handle = some new ∧
        new.payload.kind = old.payload.kind ∧ new.identifier = old.identifier

/-- A reload that succeeds is given a text of the same kind, with the name of the record. -/
def SameKindAndName (setup : Setup) (k : Kernel) (handle : ManifestHandle) (json : String) :
    Prop :=
  (k.reloadManifest setup handle json).1 = .ok () →
    ∀ old, k.loadedManifests.lookup handle = some old →
      ∃ c, classifyManifest setup json = .ok c ∧ c.kind = old.payload.kind ∧
        qualify old.namespace c.localName = old.identifier

/-- Over a run: reloads keep identities, and a contract that a plugin was bound to when it was
registered is there as long as the plugin is. -/
structure LifecycleKept (setup : Setup) (k : Kernel) (calls : List Call) : Prop where
  identity : ∀ pre handle json post, calls = pre ++ .reload handle json :: post →
    KeepsIdentity setup (k.afterAll setup pre) handle json
  contract : ∀ pre c mid post handle key, calls = pre ++ [c] ++ mid ++ post →
    c.Registers setup (k.afterAll setup pre) handle →
      BoundTo (k.afterAll setup (pre ++ [c])) handle key → (∀ c' ∈ mid, ¬c'.Touches handle) →
        ((k.afterAll setup (pre ++ [c] ++ mid)).spiRegistry.get key).isSome

/-! ### Role users -/

section Users

variable {setup : Setup} {k : Kernel} {handle handle' : ManifestHandle} {key : String}

theorem mem_foldl_addRoleUser {keys : List String} {users : List (String × List ManifestHandle)} :
    handle ∈ ((keys.foldl (addRoleUser handle') users).lookup key).getD [] ↔
      handle ∈ (users.lookup key).getD [] ∨ (handle = handle' ∧ key ∈ keys) := by
  induction keys generalizing users with
  | nil => simp
  | cons key' rest ih =>
    have hstep : handle ∈ ((addRoleUser handle' users key').lookup key).getD [] ↔
        handle ∈ (users.lookup key).getD [] ∨ (handle = handle' ∧ key = key') := by
      rw [addRoleUser, AssocMap.lookup_put]
      by_cases hkey : key = key'
      · subst hkey
        by_cases hmem : handle' ∈ (users.lookup key).getD []
        · simp only [beq_self_eq_true, if_true, List.contains_iff_mem.mpr hmem, Option.getD_some,
            and_true]
          exact ⟨Or.inl, fun h => h.elim id fun heq => heq ▸ hmem⟩
        · simp [hmem]
      · simp [hkey]
    rw [List.foldl_cons, ih, hstep, List.mem_cons]
    tauto

/-- Tracking a plugin makes it a user of what its roles stand for, and drops no user. -/
theorem mem_roleUsers_track {r : ManifestRecord} :
    handle ∈ (k.trackManifest handle' r).roleUsers key ↔ handle ∈ k.roleUsers key ∨
      (handle = handle' ∧ ∃ m, r.payload = .plugin m ∧
        key ∈ roleKeysFor k.spiRegistry r.namespace m.roles) := by
  rw [roleUsers, trackManifest]
  cases hm : r.payload with
  | spiDef json => simp [roleUsers]
  | plugin m =>
    simp only [mem_foldl_addRoleUser, roleUsers]
    simp

/-- Untracking a handle leaves the others. -/
theorem mem_roleUsers_untrack (hne : handle ≠ handle') (h : handle ∈ k.roleUsers key) :
    handle ∈ (k.untrackManifest handle').roleUsers key := by
  rw [roleUsers] at h ⊢
  rw [untrackManifest]
  generalize k.spiRoleUsers = users at h ⊢
  induction users with
  | nil => cases h
  | cons e rest ih =>
    obtain ⟨key', bucket⟩ := e
    have hcons : PluginRegistry.retainBuckets (fun h => h != handle') ((key', bucket) :: rest) =
        (if (bucket.filter fun h => h != handle').isEmpty then []
          else [(key', bucket.filter fun h => h != handle')]) ++
            PluginRegistry.retainBuckets (fun h => h != handle') rest := by
      cases hempty : (bucket.filter fun h => h != handle').isEmpty <;>
        simp only [PluginRegistry.retainBuckets, List.map_cons, List.filter_cons, hempty] <;> rfl
    rw [hcons]
    by_cases hkey : key = key'
    · subst hkey
      rw [List.lookup_cons, beq_self_eq_true] at h
      have hmem : handle ∈ bucket.filter fun h => h != handle' :=
        List.mem_filter.mpr ⟨h, by simpa using hne⟩
      have hfull : (bucket.filter fun h => h != handle').isEmpty = false := by
        rw [List.isEmpty_eq_false_iff]
        exact List.ne_nil_of_mem hmem
      rw [hfull]
      simpa using hmem
    · rw [List.lookup_cons, beq_eq_false_iff_ne.mpr hkey] at h
      cases hempty : (bucket.filter fun h => h != handle').isEmpty with
      | true => simpa using ih h
      | false => simpa [List.lookup_cons, beq_eq_false_iff_ne.mpr hkey] using ih h

/-- A plugin that is tracked is a user of the contracts its roles resolve to. -/
theorem BoundTo.mem_roleUsers {r : ManifestRecord} (h : BoundTo (k.trackManifest handle r) handle key) :
    handle ∈ (k.trackManifest handle r).roleUsers key := by
  obtain ⟨r', m, role, definition, hr, hm, hrole, hres⟩ := h
  rw [trackManifest, AssocMap.lookup_put_self] at hr
  cases hr
  refine mem_roleUsers_track.mpr (Or.inr ⟨rfl, m, hm, mem_roleKeysFor.mpr ⟨role, hrole, ?_⟩⟩)
  have hres' : k.spiRegistry.resolve r.namespace role = some (key, definition) := hres
  rw [hres']
  rfl

end Users

/-! ### A contract in use -/

/-- A contract that is registered and has the plugin of a handle for a user. -/
structure Held (k : Kernel) (handle : ManifestHandle) (key : String) : Prop where
  user : handle ∈ k.roleUsers key
  there : (k.spiRegistry.get key).isSome

section Held

variable {setup : Setup} {k k' : Kernel} {regs : List Registered} {handle : ManifestHandle}
  {key : String}

theorem Held.congr (h : Held k handle key) (husers : k'.spiRoleUsers = k.spiRoleUsers)
    (hspi : k'.spiRegistry = k.spiRegistry) : Held k' handle key := by
  refine ⟨?_, hspi ▸ h.there⟩
  rw [roleUsers, husers]
  exact h.user

theorem Held.track (h : Held k handle key) (handle' : ManifestHandle) (r : ManifestRecord) :
    Held (k.trackManifest handle' r) handle key :=
  ⟨mem_roleUsers_track.mpr (Or.inl h.user), h.there⟩

theorem Held.untrack (h : Held k handle key) {handle' : ManifestHandle} (hne : handle ≠ handle') :
    Held (k.untrackManifest handle') handle key :=
  ⟨mem_roleUsers_untrack hne h.user, h.there⟩

theorem Held.registers (h : Held k handle key) {json ns : String} {kernelOwned : Bool}
    {record : ManifestRecord} (hreg : Registers setup k json ns kernelOwned k' record) :
    Held k' handle key := by
  cases hreg with
  | spiDef _ hput => exact ⟨h.user, (SpiRegistry.register_ok hput).2 key h.there⟩
  | plugin _ hreg =>
    obtain ⟨-, hspi, husers⟩ := registerPluginInAs_frame hreg
    exact h.congr husers hspi

/-- Taking out anything but the contract itself leaves it held. -/
theorem Held.scrub (h : Held k handle key) (hk : Managed setup k regs) {handle' : ManifestHandle}
    {r : ManifestRecord} (hr : k.loadedManifests.lookup handle' = some r)
    (hscrub : (k.forget handle').scrub r = .ok k')
    (hother : r.payload.kind = .spiDef → r.identifier ≠ key) : Held k' handle key := by
  cases hm : r.payload with
  | plugin m =>
    obtain ⟨registry, owners, imports, -, heq, -⟩ := hk.scrubPlugin hr hm
    rw [heq] at hscrub
    cases hscrub
    exact ⟨h.user, h.there⟩
  | spiDef json =>
    have hne : r.identifier ≠ key := hother (by rw [hm]; rfl)
    rw [Kernel.scrub_spi hm hscrub]
    refine ⟨h.user, ?_⟩
    rw [SpiRegistry.get, SpiRegistry.unregister, AssocMap.lookup_without_ne hne.symm]
    exact h.there

theorem Held.unload (h : Held k handle key) (hk : Managed setup k regs)
    {handle' : ManifestHandle} (hne : handle ≠ handle') :
    Held (k.unloadManifest handle').2 handle key := by
  rw [unloadManifest]
  split
  · exact h
  · cases hr : k.loadedManifests.lookup handle' with
    | none => exact h
    | some r =>
      simp only
      split
      · exact h
      · rename_i hfree
        cases hscrub : (k.forget handle').scrub r with
        | error e => exact ⟨h.user, h.there⟩
        | ok k' =>
          refine (h.scrub hk hr hscrub ?_).untrack hne
          -- the guard: a contract with users is not unloaded
          rintro hkind rfl
          cases hm : r.payload with
          | plugin m => simp [hm, ManifestPayload.kind] at hkind
          | spiDef json =>
            have hmem : handle ∈ k.dependents r := by
              rw [dependents, hm]
              exact h.user
            cases hdeps : k.dependents r with
            | nil => simp [hdeps] at hmem
            | cons a rest => simp [hdeps] at hfree

theorem reloadManifest_replaced {handle' : ManifestHandle} {json : String} {r : ManifestRecord}
    (himm : k.isImmutable handle' = false) (hr : k.loadedManifests.lookup handle' = some r)
    (hscrub : (k.forget handle').scrub r = .ok k') :
    k.reloadManifest setup handle' json =
      replaceManifest setup (k'.untrackManifest handle') handle' r json := by
  simp [reloadManifest, himm, hr, hscrub]

/-- A replacement keeps a contract that is there once the old manifest is out. -/
theorem Held.replace (h : Held k handle key) (handle' : ManifestHandle) (r : ManifestRecord)
    (json : String) : Held (k.replaceManifest setup handle' r json).2 handle key := by
  rw [replaceManifest]
  cases hreg : registerClassifiedManifest setup k json r.namespace false with
  | ok out => exact (h.registers (registerClassifiedManifest_ok hreg)).track handle' out.2
  | error e =>
    cases hback : rollback setup k r with
    | error e' => exact h
    | ok k₁ =>
      refine Held.track ?_ handle' r
      rw [rollback] at hback
      cases hm : r.payload with
      | spiDef json' =>
        simp only [hm] at hback
        cases hput : k.spiRegistry.register setup.readSpi r.identifier json' with
        | error e => simp [hput] at hback
        | ok spi =>
          simp only [hput] at hback
          cases hback
          exact ⟨h.user, (SpiRegistry.register_ok hput).2 key h.there⟩
      | plugin m =>
        simp only [hm] at hback
        obtain ⟨-, hspi, husers⟩ := registerPluginInAs_frame hback
        exact h.congr husers hspi

/-- A contract that is taken out comes back: with the replacement, which has its name, or with
the old definition, which was readable before. -/
theorem held_replace_contract {handle' : ManifestHandle} {r : ManifestRecord} {json json' : String}
    (huser : handle ∈ k.roleUsers r.identifier) (hm : r.payload = .spiDef json')
    (hread : ∃ definition, setup.readSpi json' = .ok definition)
    (hfree : k.spiRegistry.get r.identifier = none)
    (hsame : (k.replaceManifest setup handle' r json).1 = .ok () →
      ∃ c, classifyManifest setup json = .ok c ∧ c.kind = r.payload.kind ∧
        qualify r.namespace c.localName = r.identifier) :
    Held (k.replaceManifest setup handle' r json).2 handle r.identifier := by
  rw [replaceManifest] at hsame ⊢
  cases hreg : registerClassifiedManifest setup k json r.namespace false with
  | ok out =>
    obtain ⟨k₁, record⟩ := out
    simp only [hreg, true_implies] at hsame
    obtain ⟨c, hclass, hkind, hname⟩ := hsame
    refine Held.track ?_ handle' record
    cases registerClassifiedManifest_ok hreg with
    | spiDef hclass' hput =>
      cases hclass.symm.trans hclass'
      rw [← hname] at huser ⊢
      exact ⟨huser, (SpiRegistry.register_ok hput).1⟩
    | plugin hclass' _ =>
      cases hclass.symm.trans hclass'
      rw [hm] at hkind
      cases hkind
  | error e =>
    obtain ⟨definition, hread⟩ := hread
    have hback : rollback setup k r = .ok
        { k with spiRegistry := AssocMap.put r.identifier definition k.spiRegistry } := by
      simp only [rollback, hm, SpiRegistry.register_free hread hfree]
    have hput : Held { k with
        spiRegistry := AssocMap.put r.identifier definition k.spiRegistry } handle r.identifier :=
      ⟨huser, by simp [SpiRegistry.get, AssocMap.lookup_put_self]⟩
    simp only [hback]
    exact hput.track handle' r

theorem Held.reload (h : Held k handle key) (hk : Managed setup k regs)
    {handle' : ManifestHandle} (hne : handle ≠ handle') {json : String}
    (hsame : SameKindAndName setup k handle' json) :
    Held (k.reloadManifest setup handle' json).2 handle key := by
  cases himm : k.isImmutable handle' with
  | true => simpa [reloadManifest, himm] using h
  | false =>
    cases hr : k.loadedManifests.lookup handle' with
    | none => simpa [reloadManifest, himm, hr] using h
    | some r =>
      cases hscrub : (k.forget handle').scrub r with
      | error e =>
        simp only [reloadManifest, himm, hr, hscrub]
        exact ⟨h.user, h.there⟩
      | ok k' =>
        have heq : k.reloadManifest setup handle' json = _ :=
          reloadManifest_replaced himm hr hscrub
        rw [heq]
        by_cases hown : r.payload.kind = .spiDef ∧ r.identifier = key
        · obtain ⟨hkind, rfl⟩ := hown
          cases hm : r.payload with
          | plugin m => simp [hm, ManifestPayload.kind] at hkind
          | spiDef json' =>
            have hscrubbed := Kernel.scrub_spi hm hscrub
            refine held_replace_contract ?_ hm (hk.readable handle' r json' hr hm) ?_ ?_
            · rw [hscrubbed]
              exact mem_roleUsers_untrack hne h.user
            · rw [hscrubbed]
              exact AssocMap.lookup_without_self _ _
            · intro hok
              exact hsame (by rw [heq]; exact hok) r hr
        · have hkept := h.scrub hk hr hscrub fun hkind heq => hown ⟨hkind, heq⟩
          exact (hkept.untrack hne).replace handle' r json

/-- A call keeps a contract that a plugin it does not touch is bound to. -/
theorem Held.after (h : Held k handle key) (hk : Managed setup k regs) {c : Call}
    (hc : ¬c.Touches handle)
    (hsame : ∀ handle' json, c = .reload handle' json → SameKindAndName setup k handle' json) :
    Held (k.after setup c) handle key := by
  cases c with
  | registerPlugin m =>
    rw [Kernel.after]
    cases hreg : registerPluginInAs setup k "" m false with
    | error e => exact h
    | ok k' =>
      obtain ⟨-, hspi, husers⟩ := registerPluginInAs_frame hreg
      exact h.congr husers hspi
  | registerSpi role json =>
    rw [Kernel.after]
    cases hreg : registerSpiFromJson setup k role json with
    | error e => exact h
    | ok k' =>
      obtain ⟨spi, hput, rfl⟩ := registerSpiFromJson_ok hreg
      exact ⟨h.user, (SpiRegistry.register_ok hput).2 key h.there⟩
  | load ns json =>
    rw [Kernel.after]
    cases hload : loadManifest setup k json ns false with
    | error e => exact h
    | ok out =>
      rw [loadManifest] at hload
      cases hreg : registerClassifiedManifest setup k json ns false with
      | error e => simp [hreg] at hload
      | ok out' =>
        simp only [hreg] at hload
        cases hload
        have hregistered := h.registers (registerClassifiedManifest_ok hreg)
        have hnext : Held { out'.1 with nextManifestId := nextId out'.1.nextManifestId }
          handle key := ⟨hregistered.user, hregistered.there⟩
        exact hnext.track _ _
  | unload handle' => exact h.unload hk fun heq => hc heq.symm
  | reload handle' json => exact h.reload hk (fun heq => hc heq.symm) (hsame handle' json rfl)

end Held

/-! ### Successful reloads -/

section Runs

variable {setup : Setup} {k k' : Kernel} {regs : List Registered} {handle : ManifestHandle}
  {key json : String}

/-- A reload that succeeds has put in what the text classifies as. -/
theorem reloadManifest_ok (h : (k.reloadManifest setup handle json).1 = .ok ()) :
    ∃ old c record, k.loadedManifests.lookup handle = some old ∧
      classifyManifest setup json = .ok c ∧ record.payload.kind = c.kind ∧
      record.identifier = qualify old.namespace c.localName ∧
      (k.reloadManifest setup handle json).2.loadedManifests.lookup handle = some record := by
  cases himm : k.isImmutable handle with
  | true => simp [reloadManifest, himm] at h
  | false =>
    cases hr : k.loadedManifests.lookup handle with
    | none => simp [reloadManifest, himm, hr] at h
    | some old =>
      cases hscrub : (k.forget handle).scrub old with
      | error e => simp [reloadManifest, himm, hr, hscrub] at h
      | ok k' =>
        rw [reloadManifest_replaced himm hr hscrub] at h ⊢
        rw [replaceManifest] at h ⊢
        cases hreg : registerClassifiedManifest setup (k'.untrackManifest handle) json
            old.namespace false with
        | error e =>
          cases hback : rollback setup (k'.untrackManifest handle) old with
          | error e' => simp [hreg, hback] at h
          | ok k₁ => simp [hreg, hback] at h
        | ok out =>
          obtain ⟨k₁, record⟩ := out
          have hlook : (k₁.trackManifest handle record).loadedManifests.lookup handle =
              some record := AssocMap.lookup_put_self _ _ _
          cases registerClassifiedManifest_ok hreg with
          | spiDef hclass _ => exact ⟨old, _, _, rfl, hclass, rfl, rfl, hlook⟩
          | plugin hclass _ => exact ⟨old, _, _, rfl, hclass, rfl, rfl, hlook⟩

theorem keepsIdentity_iff :
    KeepsIdentity setup k handle json ↔ SameKindAndName setup k handle json := by
  constructor
  · intro h hok old hold
    obtain ⟨old', c, record, hold', hclass, hkind, hname, hlook⟩ := reloadManifest_ok hok
    cases hold.symm.trans hold'
    obtain ⟨new, hnew, hsameKind, hsameName⟩ := h hok old hold
    cases hlook.symm.trans hnew
    exact ⟨c, hclass, hkind.symm.trans hsameKind, hname.symm.trans hsameName⟩
  · intro h hok old hold
    obtain ⟨old', c, record, hold', hclass, hkind, hname, hlook⟩ := reloadManifest_ok hok
    cases hold.symm.trans hold'
    obtain ⟨c', hclass', hsameKind, hsameName⟩ := h hok old hold
    cases hclass.symm.trans hclass'
    exact ⟨record, hlook, hkind.trans hsameKind, hname.trans hsameName⟩

/-- A contract is held by the plugin that a call registers with a role it stands for. -/
theorem held_of_registers (hk : Managed setup k regs) {c : Call}
    (hc : c.Registers setup k handle) (hbound : BoundTo (k.after setup c) handle key) :
    Held (k.after setup c) handle key := by
  have hthere : ((k.after setup c).spiRegistry.get key).isSome := by
    obtain ⟨r, m, role, definition, -, -, -, hres⟩ := hbound
    rw [(SpiRegistry.resolve_some hres).2]
    rfl
  refine ⟨?_, hthere⟩
  cases c with
  | registerPlugin m => exact hc.elim
  | registerSpi role json => exact hc.elim
  | unload handle' => exact hc.elim
  | load ns json =>
    obtain ⟨k', hload⟩ := hc
    rw [after, hload] at hbound ⊢
    rw [loadManifest] at hload
    cases hreg : registerClassifiedManifest setup k json ns false with
    | error e => simp [hreg] at hload
    | ok out =>
      simp only [hreg] at hload
      cases hload
      exact hbound.mem_roleUsers
  | reload handle' json =>
    obtain ⟨rfl, himm⟩ := hc
    have hdenoted : ∃ r' m, (k.reloadManifest setup handle' json).2.loadedManifests.lookup handle' =
        some r' ∧ r'.payload = .plugin m := by
      obtain ⟨r', m, -, -, hr', hm', -, -⟩ := hbound
      exact ⟨r', m, hr', hm'⟩
    obtain ⟨r', m, hr', hm'⟩ := hdenoted
    rw [after] at hbound ⊢
    cases hr : k.loadedManifests.lookup handle' with
    | none =>
      simp only [reloadManifest, himm, hr] at hr'
      cases hr.symm.trans hr'
    | some r =>
      cases hscrub : (k.forget handle').scrub r with
      | error e =>
        simp only [reloadManifest, himm, hr, hscrub] at hr'
        rw [if_neg Bool.false_ne_true, AssocMap.lookup_put_self] at hr'
        cases hr'
        obtain ⟨registry, owners, imports, -, heq, -⟩ := hk.scrubPlugin hr hm'
        cases hscrub.symm.trans heq
      | ok k' =>
        rw [reloadManifest_replaced himm hr hscrub] at hbound hr' ⊢
        rw [replaceManifest] at hbound hr' ⊢
        cases hreg : registerClassifiedManifest setup (k'.untrackManifest handle') json
            r.namespace false with
        | ok out =>
          simp only [hreg] at hbound ⊢
          exact hbound.mem_roleUsers
        | error e =>
          simp only [hreg] at hbound hr' ⊢
          cases hback : rollback setup (k'.untrackManifest handle') r with
          | ok k₁ =>
            simp only [hback] at hbound ⊢
            exact hbound.mem_roleUsers
          | error e' =>
            -- the handle is gone
            simp only [hback] at hr'
            simp only [untrackManifest, (scrub_frame hscrub).1, forget] at hr'
            rw [AssocMap.lookup_without_self] at hr'
            cases hr'

/-- Calls that leave the handle alone, and reload with the same kind and name, keep a contract
that is held. -/
theorem Held.afterAll (hreach : ∀ calls, (k.afterAll setup calls).Reachable setup)
    {pre mid : List Call} (h : Held (k.afterAll setup pre) handle key)
    (hmid : ∀ c ∈ mid, ¬c.Touches handle)
    (hsame : ∀ pre' handle' json post, mid = pre' ++ .reload handle' json :: post →
      SameKindAndName setup (k.afterAll setup (pre ++ pre')) handle' json) :
    Held (k.afterAll setup (pre ++ mid)) handle key := by
  induction mid using List.reverseRecOn with
  | nil => simpa using h
  | append_singleton mid c ih =>
    have hbefore := ih (fun c' hc' => hmid c' (List.mem_append_left _ hc'))
      fun pre' handle' json post heq => hsame pre' handle' json (post ++ [c]) (by simp [heq])
    obtain ⟨regs, hmanaged⟩ := managed_of_reachable (hreach (pre ++ mid))
    rw [← List.append_assoc, afterAll_concat]
    refine hbefore.after hmanaged (hmid c (by simp)) ?_
    rintro handle' json rfl
    exact hsame mid handle' json [] rfl

/-- A run keeps identities and contracts exactly when every reload that succeeds in it replaces a
manifest by one of the same kind and name. -/
theorem lifecycle_kept_iff {intrinsics : String} (hboot : boot setup intrinsics = .ok k)
    (calls : List Call) :
    LifecycleKept setup k calls ↔
      ∀ pre handle json post, calls = pre ++ .reload handle json :: post →
        SameKindAndName setup (k.afterAll setup pre) handle json := by
  have hreach : ∀ calls, (k.afterAll setup calls).Reachable setup := reachable_afterAll hboot
  constructor
  · exact fun h pre handle json post hcalls =>
      keepsIdentity_iff.mp (h.identity pre handle json post hcalls)
  · intro h
    refine ⟨fun pre handle json post hcalls => keepsIdentity_iff.mpr (h pre handle json post hcalls),
      ?_⟩
    intro pre c mid post handle key hcalls hc hbound hmid
    obtain ⟨regs, hmanaged⟩ := managed_of_reachable (hreach pre)
    rw [afterAll_concat] at hbound
    have hheld := held_of_registers hmanaged hc hbound
    rw [← afterAll_concat] at hheld
    refine (hheld.afterAll hreach hmid ?_).there
    intro pre' handle' json post' hmid'
    exact h (pre ++ [c] ++ pre') handle' json (post' ++ post) (by simp [hcalls, hmid'])

end Runs

/-! ### A contract replaced by another -/

def storageContract (name : String) : SpiDefinition :=
  ⟨none, name, none, none, none, .empty, .empty, none⟩

def contractSetup : Setup :=
  textSetup [("kernel", plainManifest "kernel"),
    ("notes", { plainManifest "notes" with roles := ["storage"] })]
    [("storage", storageContract "storage"), ("archive", storageContract "archive")]

/-- Handle 1 is the kernel's own; the contract is 2 and the plugin 3. -/
def replacingCalls : List Call := [.load "" "storage", .load "" "notes", .reload 2 "archive"]

/-- A reload with another name moves the identifier, and the contract the plugin was bound to is
gone while the plugin is loaded. -/
theorem reload_moves_contract : ∃ k, boot contractSetup "kernel" = .ok k ∧
    ¬LifecycleKept contractSetup k replacingCalls ∧
    ((k.afterAll contractSetup replacingCalls).loadedManifests.lookup 2).map
      ManifestRecord.identifier = some "archive" ∧
    ((k.afterAll contractSetup replacingCalls).loadedManifests.lookup 3).map
      ManifestRecord.identifier = some "notes" ∧
    ((k.afterAll contractSetup replacingCalls).spiRegistry.get "storage").isSome = false := by
  have hrun : ∃ k, boot contractSetup "kernel" = .ok k ∧
      (Call.load "" "notes").Registers contractSetup
        (k.afterAll contractSetup [.load "" "storage"]) 3 ∧
      BoundTo (k.afterAll contractSetup [.load "" "storage", .load "" "notes"]) 3 "storage" ∧
      ((k.afterAll contractSetup replacingCalls).loadedManifests.lookup 2).map
        ManifestRecord.identifier = some "archive" ∧
      ((k.afterAll contractSetup replacingCalls).loadedManifests.lookup 3).map
        ManifestRecord.identifier = some "notes" ∧
      ((k.afterAll contractSetup replacingCalls).spiRegistry.get "storage").isSome = false :=
    ⟨_, rfl, ⟨_, rfl⟩, ⟨_, _, "storage", _, rfl, rfl, by decide, rfl⟩, by decide, by decide,
      by decide⟩
  obtain ⟨k, hboot, hregisters, hbound, hmoved, hloaded, hgone⟩ := hrun
  refine ⟨k, hboot, fun hkept => ?_, hmoved, hloaded, hgone⟩
  have hthere := hkept.contract [.load "" "storage"] (.load "" "notes") [.reload 2 "archive"] [] 3
    "storage" rfl hregisters hbound (by simp [Call.Touches])
  rw [show [Call.load "" "storage"] ++ [.load "" "notes"] ++ [.reload 2 "archive"] =
    replacingCalls from rfl, hgone] at hthere
  cases hthere

/-- A reload with the same name keeps it. -/
theorem lifecycle_kept_same_name : ∃ k, boot contractSetup "kernel" = .ok k ∧
    LifecycleKept contractSetup k [.load "" "storage", .load "" "notes", .reload 2 "storage"] := by
  have hrun : ∃ k, boot contractSetup "kernel" = .ok k ∧
      (k.afterAll contractSetup [.load "" "storage", .load "" "notes"]).loadedManifests.lookup 2 =
        some ⟨"storage", "", .spiDef "storage", false⟩ := ⟨_, rfl, by decide⟩
  obtain ⟨k, hboot, hcontract⟩ := hrun
  refine ⟨k, hboot, (lifecycle_kept_iff hboot _).mpr ?_⟩
  intro pre handle json post hcalls hok old hold
  -- only the third call is a reload
  rcases pre with _ | ⟨a, _ | ⟨b, _ | ⟨c, rest⟩⟩⟩
  · simp at hcalls
  · simp at hcalls
  · simp only [List.cons_append, List.nil_append, List.cons.injEq, Call.reload.injEq] at hcalls
    obtain ⟨rfl, rfl, ⟨rfl, rfl⟩, -⟩ := hcalls
    cases hcontract.symm.trans hold
    exact ⟨.spiDef "storage", rfl, rfl, by decide⟩
  · simp at hcalls

end Kernel

end Gwead
