import Gwead.Consistency
import Mathlib.Logic.Relation

/-!
# What the calls of a kernel are made of

Every call, whether it succeeds or fails, is a sequence of a few moves.  What each move keeps holds
of every reachable kernel, and so does what registration checks of a manifest.
-/

namespace Gwead

open Identity Registration

namespace Kernel

/-- The moves of the calls.  Only handles that are not immutable are let go or written over. -/
inductive Move (setup : Setup) (k : Kernel) : Kernel → Prop
  | register {ns : String} {m : PluginManifest} {k' : Kernel}
      (hreg : registerPluginInAs setup k ns m false = .ok k') : Move setup k k'
  | contracts (spi : SpiRegistry) : Move setup k { k with spiRegistry := spi }
  | load (r : ManifestRecord) : Move setup k
      (trackManifest { k with nextManifestId := nextId k.nextManifestId } k.nextManifestId r)
  | forget {handle : ManifestHandle} (hfree : k.isImmutable handle = false) :
      Move setup k (k.forget handle)
  | scrub {r : ManifestRecord} {k' : Kernel} (hscrub : k.scrub r = .ok k') : Move setup k k'
  | untrack (handle : ManifestHandle) : Move setup k (k.untrackManifest handle)
  | track {handle : ManifestHandle} (hfree : k.isImmutable handle = false) (r : ManifestRecord) :
      Move setup k (k.trackManifest handle r)
  | putBack {handle : ManifestHandle} {r : ManifestRecord}
      (hr : k.loadedManifests.lookup handle = some r) : Move setup k
        { k with loadedManifests := AssocMap.put handle r (k.forget handle).loadedManifests }

section Moves

variable {setup : Setup} {k k' : Kernel}

open Relation (ReflTransGen)

abbrev Moves (setup : Setup) : Kernel → Kernel → Prop := ReflTransGen (Move setup)

theorem isImmutable_forget (k : Kernel) (handle : ManifestHandle) :
    (k.forget handle).isImmutable handle = false := by
  rw [isImmutable, forget, AssocMap.lookup_without_self]
  rfl

theorem isImmutable_congr (h : k'.loadedManifests = k.loadedManifests) (handle : ManifestHandle) :
    k'.isImmutable handle = k.isImmutable handle := by
  rw [isImmutable, isImmutable, h]

/-- A registration is one move, and leaves the records. -/
theorem registerClassifiedManifest_moves {json ns : String} {record : ManifestRecord}
    (h : registerClassifiedManifest setup k json ns false = .ok (k', record)) :
    Moves setup k k' ∧ k'.loadedManifests = k.loadedManifests := by
  cases registerClassifiedManifest_ok h with
  | spiDef hclass hput => exact ⟨.single (.contracts _), rfl⟩
  | plugin hclass hreg => exact ⟨.single (.register hreg), (registerPluginInAs_frame hreg).1⟩

theorem rollback_moves {r : ManifestRecord} (h : rollback setup k r = .ok k') :
    Moves setup k k' ∧ k'.loadedManifests = k.loadedManifests := by
  unfold rollback at h
  cases hm : r.payload with
  | spiDef json =>
    rw [hm] at h
    dsimp only at h
    split at h
    · cases h
    · cases h
      exact ⟨.single (.contracts _), rfl⟩
  | plugin m =>
    rw [hm] at h
    exact ⟨.single (.register h), (registerPluginInAs_frame h).1⟩

theorem replaceManifest_moves {handle : ManifestHandle} (hfree : k.isImmutable handle = false)
    (old : ManifestRecord) (json : String) :
    Moves setup k (replaceManifest setup k handle old json).2 := by
  unfold replaceManifest
  cases hreg : registerClassifiedManifest setup k json old.namespace false with
  | ok out =>
    obtain ⟨hmoves, hloaded⟩ := registerClassifiedManifest_moves hreg
    exact hmoves.tail (.track ((isImmutable_congr hloaded handle).trans hfree) _)
  | error e =>
    dsimp only
    cases hback : rollback setup k old with
    | ok k' =>
      obtain ⟨hmoves, hloaded⟩ := rollback_moves hback
      exact hmoves.tail (.track ((isImmutable_congr hloaded handle).trans hfree) _)
    | error e' => exact .refl

theorem unloadManifest_moves (k : Kernel) (handle : ManifestHandle) :
    Moves setup k (k.unloadManifest handle).2 := by
  unfold unloadManifest
  split
  · exact .refl
  · rename_i hfree
    have hforget : Moves setup k (k.forget handle) := .single (.forget (by simpa using hfree))
    split
    · exact .refl
    · split
      · exact .refl
      · split
        · exact hforget
        · rename_i k' hscrub
          exact (hforget.tail (.scrub hscrub)).tail (.untrack handle)

theorem reloadManifest_moves (k : Kernel) (handle : ManifestHandle) (json : String) :
    Moves setup k (k.reloadManifest setup handle json).2 := by
  unfold reloadManifest
  split
  · exact .refl
  · rename_i hfree
    have hforget : Moves setup k (k.forget handle) := .single (.forget (by simpa using hfree))
    split
    · exact .refl
    · rename_i old hold
      split
      · exact .single (.putBack hold)
      · rename_i k' hscrub
        have hgone : (k'.untrackManifest handle).isImmutable handle = false :=
          (isImmutable_congr (scrub_frame hscrub).1 handle).trans (isImmutable_forget k handle)
        exact ((hforget.tail (.scrub hscrub)).tail (.untrack handle)).trans
          (replaceManifest_moves hgone old json)

/-- A call is a sequence of moves, whatever comes of it. -/
theorem after_moves (k : Kernel) (c : Call) : Moves setup k (k.after setup c) := by
  cases c with
  | registerPlugin m =>
    rw [after]
    cases hreg : registerPluginInAs setup k "" m false with
    | error e => exact .refl
    | ok k' => exact .single (.register hreg)
  | registerSpi role json =>
    rw [after]
    cases hreg : registerSpiFromJson setup k role json with
    | error e => exact .refl
    | ok k' =>
      obtain ⟨spi, -, rfl⟩ := registerSpiFromJson_ok hreg
      exact .single (.contracts spi)
  | load ns json =>
    rw [after, loadManifest]
    cases hreg : registerClassifiedManifest setup k json ns false with
    | error e => exact .refl
    | ok out => exact (registerClassifiedManifest_moves hreg).1.tail (.load _)
  | unload handle => exact unloadManifest_moves k handle
  | reload handle json => exact reloadManifest_moves k handle json

/-- What every move keeps, every sequence of calls keeps. -/
theorem keeps_of_moves {P : Kernel → Prop} (hmove : ∀ k k', P k → Move setup k k' → P k')
    (h : P k) (calls : List Call) : P (k.afterAll setup calls) := by
  have hmoves : ∀ {k k'}, Moves setup k k' → P k → P k' := by
    intro k k' hsteps hk
    induction hsteps with
    | refl => exact hk
    | tail _ hstep ih => exact hmove _ _ ih hstep
  induction calls using List.reverseRecOn with
  | nil => exact h
  | append_singleton calls c ih =>
    rw [afterAll_concat]
    exact hmoves (after_moves _ c) ih

theorem Reachable.afterAll (h : k.Reachable setup) :
    ∃ intrinsics k₀ calls, boot setup intrinsics = .ok k₀ ∧ k = k₀.afterAll setup calls := by
  obtain ⟨intrinsics, k₀, calls, hboot, hrun⟩ := h
  refine ⟨intrinsics, k₀, calls, hboot, ?_⟩
  induction hrun with
  | nil => rfl
  | snoc _ hstep ih =>
    rw [afterAll_concat, ← ih]
    exact hstep

end Moves

/-! ### The registered manifests -/

section Manifests

variable {setup : Setup} {k k' : Kernel}

theorem manifests_commit (k : Kernel) (ns : String) (p : Prepared) :
    (k.commit ns p).registry.manifests = AssocMap.put p.manifest.name p.manifest
      k.registry.manifests := by
  rw [commit_eq k ns p _ rfl]
  rfl

theorem manifests_scrub {r : ManifestRecord} (h : k.scrub r = .ok k') :
    k'.registry.manifests.Sublist k.registry.manifests := by
  unfold scrub at h
  cases hm : r.payload with
  | spiDef json =>
    rw [hm] at h
    dsimp only at h
    split at h
    · cases h
      exact List.Sublist.refl _
    · cases h
  | plugin m =>
    rw [hm] at h
    dsimp only at h
    cases hreg : k.registry.unregisterPlugin r.identifier with
    | none =>
      rw [hreg] at h
      cases h
    | some registry =>
      rw [hreg] at h
      obtain ⟨owners, imports, hframe⟩ := releaseStepImports_frame
        { k with registry := registry } r.identifier m
      dsimp only at h
      rw [hframe] at h
      cases h
      unfold PluginRegistry.unregisterPlugin at hreg
      split at hreg
      · cases hreg
        exact List.filter_sublist
      · cases hreg

theorem mem_put {κ α : Type} [DecidableEq κ] {k : κ} {v : α} {m : List (κ × α)} {e : κ × α}
    (h : e ∈ AssocMap.put k v m) : e = (k, v) ∨ e ∈ m := by
  induction m with
  | nil => exact Or.inl (List.mem_singleton.mp h)
  | cons head rest ih =>
    obtain ⟨k', v'⟩ := head
    rw [AssocMap.put] at h
    split at h
    · rename_i hk
      rcases List.mem_cons.mp h with rfl | h
      · exact Or.inl (by rw [eq_of_beq hk])
      · exact Or.inr (List.mem_cons_of_mem _ h)
    · rcases List.mem_cons.mp h with rfl | h
      · exact Or.inr List.mem_cons_self
      · exact (ih h).imp id (List.mem_cons_of_mem _)

/-- A move adds no manifest but one that registration has just accepted. -/
theorem Move.manifests (h : Move setup k k') : ∀ row ∈ k'.registry.manifests,
    row ∈ k.registry.manifests ∨ ∃ ns source p, prepare setup k ns source false = .ok p ∧
      row = (p.manifest.name, p.manifest) := by
  intro row hrow
  cases h with
  | register hreg =>
    obtain ⟨p, hp, rfl⟩ := registerPluginInAs_ok hreg
    rw [manifests_commit] at hrow
    rcases mem_put hrow with rfl | hrow
    · exact Or.inr ⟨_, _, p, hp, rfl⟩
    · exact Or.inl hrow
  | scrub hscrub => exact Or.inl ((manifests_scrub hscrub).subset hrow)
  | _ => exact Or.inl hrow

/-- After boot nothing is registered but what the boot manifest may be. -/
theorem manifests_boot {intrinsics : String} (h : boot setup intrinsics = .ok k) :
    ∀ row ∈ k.registry.manifests, ∃ ns source p, prepare setup .new ns source true = .ok p ∧
      row = (p.manifest.name, p.manifest) := by
  intro row hrow
  unfold boot loadManifest at h
  cases hreg : registerClassifiedManifest setup .new intrinsics "" true with
  | error e =>
    rw [hreg] at h
    cases h
  | ok out =>
    obtain ⟨k₁, record⟩ := out
    rw [hreg] at h
    cases h
    change row ∈ k₁.registry.manifests at hrow
    cases registerClassifiedManifest_ok hreg with
    | spiDef hclass hput => cases hrow
    | plugin hclass hplugin =>
      obtain ⟨p, hp, rfl⟩ := registerPluginInAs_ok hplugin
      rw [manifests_commit] at hrow
      exact ⟨_, _, p, hp, List.mem_singleton.mp hrow⟩

/-- What registration checks of a manifest is so of every manifest in force. -/
theorem manifest_checked {P : PluginManifest → Prop}
    (hP : ∀ k ns source kernelOwned p, prepare setup k ns source kernelOwned = .ok p → P p.manifest)
    (h : k.Reachable setup) {plugin : String} {m : PluginManifest}
    (hm : k.registry.getManifest plugin = some m) : P m := by
  obtain ⟨intrinsics, k₀, calls, hboot, rfl⟩ := h.afterAll
  have hall : ∀ row ∈ (k₀.afterAll setup calls).registry.manifests, P row.2 := by
    refine keeps_of_moves (P := fun k => ∀ row ∈ k.registry.manifests, P row.2) ?_ ?_ calls
    · intro k k' hk hmove row hrow
      obtain hrow | ⟨ns, source, p, hp, rfl⟩ := hmove.manifests row hrow
      · exact hk row hrow
      · exact hP _ _ _ _ p hp
    · intro row hrow
      obtain ⟨ns, source, p, hp, rfl⟩ := manifests_boot hboot row hrow
      exact hP _ _ _ _ p hp
  exact hall (plugin, m) (AssocMap.mem_of_lookup hm)

end Manifests

end Kernel

end Gwead
