import Gwead.KernelMoves
import Gwead.NameGrammar
import Gwead.NamespaceLaws

/-!
# The kernel's own words

The boot manifest is immutable, and only it may use names without a dot.  So what it registered
stands through every sequence of calls, and no call gives a bare step type another meaning.
-/

namespace Gwead

open Identity Registration

/-! ### Names of one's own -/

/-- Every step type and every alias of a manifest is named with a dot. -/
structure OwnNames (m : PluginManifest) : Prop where
  defs : ∀ d ∈ m.stepTypeDefs, stepTypeSeparator ∈ d.name.toList
  aliases : ∀ aliasName ∈ m.stepTypes.keys, stepTypeSeparator ∈ aliasName.toList

theorem separator_of_validateStepTypeName {w plugin : String}
    (h : validateStepTypeName w plugin false = .ok ()) : stepTypeSeparator ∈ w.toList := by
  obtain ⟨localName, hsplit⟩ := validateStepTypeName_owner h
  by_contra hnot
  rw [splitOnce_eq_none.mpr hnot] at hsplit
  cases hsplit

/-- Registration accepts bare names from the boot manifest alone. -/
theorem prepare_ownNames {setup : Setup} {k : Kernel} {ns : String} {source : PluginManifest}
    {p : Prepared} (h : prepare setup k ns source false = .ok p) : OwnNames p.manifest := by
  have hpassed := prepare_ok h
  rw [prepare] at h
  obtain ⟨-, -, h⟩ := bind_ok h
  obtain ⟨-, -, h⟩ := bind_ok h
  obtain ⟨_, hnames, h⟩ := bind_ok h
  obtain ⟨-, -, h⟩ := bind_ok h
  obtain ⟨-, -, h⟩ := bind_ok h
  obtain ⟨-, -, h⟩ := bind_ok h
  obtain ⟨_, -, h⟩ := bind_ok h
  obtain ⟨_, haliases, -⟩ := bind_ok h
  obtain ⟨-, -, hnames⟩ := bind_ok hnames
  obtain ⟨-, -, hnames⟩ := bind_ok hnames
  obtain ⟨_, hdefs, -⟩ := bind_ok hnames
  rw [hpassed.renamed]
  constructor
  · intro d hd
    exact separator_of_validateStepTypeName (firstError_ok (labelled_ok hdefs) d hd)
  · intro aliasName hname
    obtain ⟨e, he, rfl⟩ := List.mem_map.mp hname
    obtain ⟨_, halias, -⟩ := bind_ok (firstError_ok haliases e he)
    have hvalid := labelled_ok halias
    unfold validateStepTypeAlias at hvalid
    cases hstep : validateStepTypeName e.1 source.name false with
    | error err =>
      rw [hstep] at hvalid
      cases hvalid
    | ok u => exact separator_of_validateStepTypeName hstep

theorem separator_mem_stepTypeKey {plugin written : String}
    (h : stepTypeSeparator ∈ written.toList) :
    stepTypeSeparator ∈ (PluginRegistry.stepTypeKey plugin written).toList := by
  have hcontains : written.toList.contains stepTypeSeparator = true := List.contains_iff_mem.mpr h
  rw [PluginRegistry.stepTypeKey, if_pos hcontains]
  by_cases hns : namespaceOf plugin = ""
  · rwa [hns, qualify_root]
  · rw [toList_qualify written hns]
    simp [h]

/-! ### What boot leaves in force -/

/-- The record is a plugin's, and its manifest is registered under that name. -/
def ManifestRecord.Names (r : ManifestRecord) (plugin : String) : Prop :=
  plugin = r.identifier ∧ ∃ m, r.payload = .plugin m

namespace Kernel

/-- The boot manifest is held under its handle, and everything else in force has names of its own. -/
structure BootKept (boot : ManifestRecord) (k : Kernel) : Prop where
  held : k.loadedManifests.lookup 1 = some boot
  next : 1 < k.nextManifestId
  named : ∀ row ∈ k.registry.manifests, boot.Names row.1 ∨ OwnNames row.2

section Kept

variable {setup : Setup} {k k' : Kernel} {bootRecord : ManifestRecord}

theorem loadedManifests_forget_ne {handle other : ManifestHandle} (h : other ≠ handle) :
    (k.forget handle).loadedManifests.lookup other = k.loadedManifests.lookup other :=
  AssocMap.lookup_without_ne h _

theorem commit_frame (k : Kernel) (ns : String) (p : Prepared) :
    (k.commit ns p).loadedManifests = k.loadedManifests ∧
      (k.commit ns p).nextManifestId = k.nextManifestId := by
  rw [commit_eq k ns p _ rfl]
  exact ⟨rfl, rfl⟩

theorem scrub_nextManifestId {r : ManifestRecord} (h : k.scrub r = .ok k') :
    k'.nextManifestId = k.nextManifestId := by
  unfold scrub at h
  cases hm : r.payload with
  | spiDef json =>
    rw [hm] at h
    dsimp only at h
    split at h
    · cases h
      rfl
    · cases h
  | plugin m =>
    rw [hm] at h
    dsimp only at h
    cases hreg : k.registry.unregisterPlugin r.identifier with
    | none =>
      rw [hreg] at h
      cases h
    | some registry =>
      rw [hreg] at h
      obtain ⟨owners, imports, hframe⟩ := releaseStepImports_frame
        { k with registry := registry } r.identifier m
      dsimp only at h
      rw [hframe] at h
      cases h
      rfl

/-- The handle of an immutable record is not one that a move may write over. -/
theorem BootKept.ne_of_free (h : k.BootKept bootRecord) (himm : bootRecord.immutable = true)
    {handle : ManifestHandle} (hfree : k.isImmutable handle = false) : 1 ≠ handle := by
  rintro rfl
  rw [isImmutable, h.held] at hfree
  cases himm.symm.trans hfree

theorem BootKept.move (himm : bootRecord.immutable = true) (h : k.BootKept bootRecord)
    (hmove : Move setup k k') : k'.BootKept bootRecord := by
  have hnamed : ∀ row ∈ k'.registry.manifests, bootRecord.Names row.1 ∨ OwnNames row.2 := by
    intro row hrow
    obtain hrow | ⟨ns, source, p, hp, rfl⟩ := hmove.manifests row hrow
    · exact h.named row hrow
    · exact Or.inr (prepare_ownNames hp)
  cases hmove with
  | register hreg =>
    obtain ⟨p, -, rfl⟩ := registerPluginInAs_ok hreg
    obtain ⟨hloaded, hnext⟩ := commit_frame k _ p
    exact ⟨hloaded ▸ h.held, hnext ▸ h.next, hnamed⟩
  | contracts spi => exact ⟨h.held, h.next, hnamed⟩
  | load r =>
    have hnext : 1 < nextId k.nextManifestId := by
      have := h.next
      unfold nextId
      omega
    refine ⟨?_, hnext, hnamed⟩
    have hne : 1 ≠ k.nextManifestId := Nat.ne_of_lt h.next
    exact (AssocMap.lookup_put_ne hne r k.loadedManifests).trans h.held
  | forget hfree =>
    exact ⟨(loadedManifests_forget_ne (h.ne_of_free himm hfree)).trans h.held, h.next, hnamed⟩
  | scrub hscrub =>
    exact ⟨(scrub_frame hscrub).1 ▸ h.held, scrub_nextManifestId hscrub ▸ h.next, hnamed⟩
  | untrack handle => exact ⟨h.held, h.next, hnamed⟩
  | track hfree r =>
    exact ⟨(AssocMap.lookup_put_ne (h.ne_of_free himm hfree) r k.loadedManifests).trans h.held,
      h.next, hnamed⟩
  | @putBack handle r hr =>
    refine ⟨?_, h.next, hnamed⟩
    by_cases hhandle : 1 = handle
    · subst hhandle
      exact (AssocMap.lookup_put_self 1 r _).trans (hr.symm.trans h.held)
    · exact (AssocMap.lookup_put_ne hhandle r _).trans
        ((loadedManifests_forget_ne hhandle).trans h.held)

/-- What boot holds, and the only manifest it has registered. -/
theorem bootKept_boot {intrinsics : String} (h : boot setup intrinsics = .ok k) :
    ∃ bootRecord : ManifestRecord, bootRecord.immutable = true ∧ k.BootKept bootRecord ∧
      ∀ row ∈ k.registry.manifests, bootRecord.Names row.1 := by
  unfold boot loadManifest at h
  cases hreg : registerClassifiedManifest setup .new intrinsics "" true with
  | error e =>
    rw [hreg] at h
    cases h
  | ok out =>
    obtain ⟨k₁, record⟩ := out
    rw [hreg] at h
    cases h
    have hstart : k₁.nextManifestId = 1 ∧ ∀ row ∈ k₁.registry.manifests, record.Names row.1 := by
      cases registerClassifiedManifest_ok hreg with
      | spiDef hclass hput => exact ⟨rfl, nofun⟩
      | plugin hclass hplugin =>
        obtain ⟨p, hp, rfl⟩ := registerPluginInAs_ok hplugin
        refine ⟨(commit_frame .new "" p).2, fun row hrow => ?_⟩
        rw [manifests_commit] at hrow
        rw [List.mem_singleton.mp hrow, (prepare_ok hp).renamed]
        exact ⟨rfl, _, rfl⟩
    obtain ⟨hnext, hrows⟩ := hstart
    refine ⟨{ record with immutable := true }, rfl, ⟨?_, ?_, ?_⟩, hrows⟩
    · rw [hnext]
      exact AssocMap.lookup_put_self 1 _ k₁.loadedManifests
    · change 1 < nextId k₁.nextManifestId
      rw [hnext]
      decide
    · exact fun row hrow => Or.inl (hrows row hrow)

/-- The manifest in force is as the record under the boot's handle has it. -/
theorem BootKept.manifest (h : k.BootKept bootRecord) (hk : k.Reachable setup) {m : PluginManifest}
    (hm : bootRecord.payload = .plugin m) :
    k.registry.getManifest bootRecord.identifier =
      some { m with name := bootRecord.identifier } := by
  obtain ⟨regs, hmanaged⟩ := managed_of_reachable hk
  obtain ⟨e, he, hdesc⟩ := hmanaged.described 1 bootRecord m h.held hm
  exact hmanaged.listed.getManifest_iff.mpr ⟨e, he, hdesc.plugin_eq, hdesc.manifest⟩

theorem BootKept.manifest_same (h : k.BootKept bootRecord) (h' : k'.BootKept bootRecord)
    (hk : k.Reachable setup) (hk' : k'.Reachable setup) {plugin : String}
    (hnames : bootRecord.Names plugin) :
    k'.registry.getManifest plugin = k.registry.getManifest plugin := by
  obtain ⟨rfl, m, hm⟩ := hnames
  exact (h'.manifest hk' hm).trans (h.manifest hk hm).symm

end Kept

/-! ### Entries -/

/-- The entry of a table is there and nothing replaces it. -/
def Keeps {α β : Type} (before after : α → Option β) : Prop :=
  ∀ key value, before key = some value → after key = some value

/-- What the first kernel has registered the second still has, and a word without a dot means the
same to both. -/
structure VocabularyKept (before after : Kernel) : Prop where
  manifests : Keeps before.registry.getManifest after.registry.getManifest
  actions : ∀ plugin, Keeps (before.registry.getAction plugin) (after.registry.getAction plugin)
  wasmModules : ∀ plugin, Keeps (before.registry.getPluginWasmModule plugin)
    (after.registry.getPluginWasmModule plugin)
  stepTypeDefs : Keeps before.registry.getStepTypeDef after.registry.getStepTypeDef
  stepTypeImpls : ∀ key, Keeps (before.registry.stepTypeImplOwner key)
    (after.registry.stepTypeImplOwner key)
  stepTypeAliases : Keeps before.registry.stepTypeAliasCandidates
    after.registry.stepTypeAliasCandidates
  permissions : Keeps (fun plugin => before.registry.permissions.lookup plugin)
    fun plugin => after.registry.permissions.lookup plugin
  importOwners : Keeps (fun key => before.stepImportOwners.lookup key)
    fun key => after.stepImportOwners.lookup key
  imports : Keeps (fun name => before.additionalImports.lookup name)
    fun name => after.additionalImports.lookup name
  subscriptions : ∀ event, ∀ node ∈ before.registry.subscribersFor event,
    node ∈ after.registry.subscribersFor event
  bareDefs : ∀ word : String, stepTypeSeparator ∉ word.toList →
    after.registry.getStepTypeDef word = before.registry.getStepTypeDef word
  bareAliases : ∀ word : String, stepTypeSeparator ∉ word.toList →
    after.registry.stepTypeAliasCandidates word = before.registry.stepTypeAliasCandidates word

section Entries

variable {setup : Setup} {k k' : Kernel} {bootRecord : ManifestRecord}

/-- The tables say what the manifests declare, so they keep what the manifests keep. -/
theorem vocabularyKept_of (hk : Consistent setup k) (hk' : Consistent setup k')
    (hm : Keeps k.registry.getManifest k'.registry.getManifest)
    (hbare : ∀ plugin m, k'.registry.getManifest plugin = some m →
      k.registry.getManifest plugin = some m ∨ OwnNames m) : VocabularyKept k k' := by
  have hdefs : Keeps k.registry.getStepTypeDef k'.registry.getStepTypeDef := by
    rintro key ⟨plugin, definition⟩ h
    obtain ⟨m, hreg, hdecl⟩ := (hk.stepTypeDefs _ _ _).mp h
    exact (hk'.stepTypeDefs _ _ _).mpr ⟨m, hm _ _ hreg, hdecl⟩
  have haliases : Keeps k.registry.stepTypeAliasCandidates
      k'.registry.stepTypeAliasCandidates := by
    rintro key ⟨plugin, action⟩ h
    obtain ⟨m, hreg, hdecl⟩ := (hk.stepTypeAliases _ _ _).mp h
    exact (hk'.stepTypeAliases _ _ _).mpr ⟨m, hm _ _ hreg, hdecl⟩
  constructor
  case manifests => exact hm
  case actions =>
    intro plugin action entry h
    obtain ⟨m, hreg, hdecl⟩ := (hk.actions _ _ _).mp h
    exact (hk'.actions _ _ _).mpr ⟨m, hm _ _ hreg, hdecl⟩
  case wasmModules =>
    intro plugin name compiled h
    obtain ⟨m, hreg, hdecl⟩ := (hk.wasmModules _ _ _).mp h
    exact (hk'.wasmModules _ _ _).mpr ⟨m, hm _ _ hreg, hdecl⟩
  case stepTypeDefs => exact hdefs
  case stepTypeImpls =>
    rintro key selector ⟨plugin, wasmModule⟩ h
    obtain ⟨m, hreg, hdecl⟩ := (hk.stepTypeImpls _ _ _ _).mp h
    exact (hk'.stepTypeImpls _ _ _ _).mpr ⟨m, hm _ _ hreg, hdecl⟩
  case stepTypeAliases => exact haliases
  case permissions =>
    intro plugin perms h
    obtain ⟨m, hreg, hdecl⟩ := (hk.permissions _ _).mp h
    exact (hk'.permissions _ _).mpr ⟨m, hm _ _ hreg, hdecl⟩
  case importOwners =>
    intro key plugin h
    obtain ⟨m, hreg, hdecl⟩ := (hk.importOwners _ _).mp h
    exact (hk'.importOwners _ _).mpr ⟨m, hm _ _ hreg, hdecl⟩
  case imports =>
    intro name body h
    obtain ⟨key, rfl⟩ := hk.importsOnly name body h
    obtain ⟨plugin, m, written, hreg, hdecl⟩ := (hk.imports _ _).mp h
    exact (hk'.imports _ _).mpr ⟨plugin, m, written, hm _ _ hreg, hdecl⟩
  case subscriptions =>
    rintro event ⟨plugin, action⟩ h
    obtain ⟨m, hreg, hdecl⟩ := (hk.subscriptions _ _ _).mp h
    exact (hk'.subscriptions _ _ _).mpr ⟨m, hm _ _ hreg, hdecl⟩
  case bareDefs =>
    intro word hbareWord
    cases h : k'.registry.getStepTypeDef word with
    | some found =>
      obtain ⟨plugin, definition⟩ := found
      obtain ⟨m, hreg, hmem, rfl⟩ := (hk'.stepTypeDefs _ _ _).mp h
      obtain hreg | hown := hbare plugin m hreg
      · exact ((hk.stepTypeDefs _ _ _).mpr ⟨m, hreg, hmem, rfl⟩).symm
      · exact absurd (separator_mem_stepTypeKey (hown.defs definition hmem)) hbareWord
    | none =>
      cases hold : k.registry.getStepTypeDef word with
      | none => rfl
      | some found => exact absurd (h.symm.trans (hdefs word found hold)) nofun
  case bareAliases =>
    intro word hbareWord
    cases h : k'.registry.stepTypeAliasCandidates word with
    | some found =>
      obtain ⟨plugin, action⟩ := found
      obtain ⟨m, hreg, aliasName, hget, rfl⟩ := (hk'.stepTypeAliases _ _ _).mp h
      obtain hreg | hown := hbare plugin m hreg
      · exact ((hk.stepTypeAliases _ _ _).mpr ⟨m, hreg, aliasName, hget, rfl⟩).symm
      · have hname : aliasName ∈ m.stepTypes.keys :=
          List.mem_map_of_mem ((IndexMap.mem_entries_iff _ _ _).mpr hget)
        exact absurd (separator_mem_stepTypeKey (hown.aliases aliasName hname)) hbareWord
    | none =>
      cases hold : k.registry.stepTypeAliasCandidates word with
      | none => rfl
      | some found => exact absurd (h.symm.trans (haliases word found hold)) nofun

end Entries

end Kernel

section Fixed

variable {setup : Setup} {k₀ : Kernel} {intrinsics : String}

/-- The boot manifest stays in force, and what else is in force has names of its own. -/
theorem manifests_since_boot (hboot : Kernel.boot setup intrinsics = .ok k₀)
    (calls : List Kernel.Call) :
    Kernel.Keeps k₀.registry.getManifest (k₀.afterAll setup calls).registry.getManifest ∧
      ∀ plugin m, (k₀.afterAll setup calls).registry.getManifest plugin = some m →
        k₀.registry.getManifest plugin = some m ∨ OwnNames m := by
  obtain ⟨bootRecord, himm, hkept, hrows⟩ := Kernel.bootKept_boot hboot
  have hkept' : (k₀.afterAll setup calls).BootKept bootRecord :=
    Kernel.keeps_of_moves (fun _ _ h hmove => h.move himm hmove) hkept calls
  have hsame : ∀ {plugin}, bootRecord.Names plugin →
      (k₀.afterAll setup calls).registry.getManifest plugin = k₀.registry.getManifest plugin :=
    hkept.manifest_same hkept' (Kernel.reachable_afterAll hboot [])
      (Kernel.reachable_afterAll hboot calls)
  constructor
  · intro plugin m hm
    exact (hsame (hrows (plugin, m) (AssocMap.mem_of_lookup hm))).trans hm
  · intro plugin m hm
    exact (hkept'.named (plugin, m) (AssocMap.mem_of_lookup hm)).imp_left
      fun hnames => (hsame hnames).symm.trans hm

/-- Whatever calls follow boot, and whichever of them fail, what the boot manifest registered stays
in force, and a step type or an alias written without a dot means what it meant after boot. -/
theorem kernel_vocabulary_fixed (hboot : Kernel.boot setup intrinsics = .ok k₀)
    (calls : List Kernel.Call) : Kernel.VocabularyKept k₀ (k₀.afterAll setup calls) := by
  obtain ⟨regs, hstart⟩ := managed_of_reachable (Kernel.reachable_afterAll hboot [])
  obtain ⟨regs', hend⟩ := managed_of_reachable (Kernel.reachable_afterAll hboot calls)
  obtain ⟨hkeeps, hnamed⟩ := manifests_since_boot hboot calls
  exact Kernel.vocabularyKept_of hstart.consistent hend.consistent hkeeps hnamed

end Fixed

/-- Boots with one word of its own. -/
def wordSetup : Setup :=
  textSetup [("kernel", { plainManifest "kernel" with stepTypeDefs := [⟨"let", false, none, []⟩] }),
    ("notes", notesManifest)] []

/-- A plugin comes and the boot manifest is asked to go, and the word is as it was. -/
theorem kernel_vocabulary_fixed_let : ∃ k₀, Kernel.boot wordSetup "kernel" = .ok k₀ ∧
    (k₀.registry.getStepTypeDef "let").isSome = true ∧
    Kernel.VocabularyKept k₀ (k₀.afterAll wordSetup
      [.load "team" "notes", .unload 1, .reload 1 "notes", .unload 2]) := by
  have hboot : ∃ k₀, Kernel.boot wordSetup "kernel" = .ok k₀ ∧
      (k₀.registry.getStepTypeDef "let").isSome = true := ⟨_, rfl, by decide⟩
  obtain ⟨k₀, hk, hlet⟩ := hboot
  exact ⟨k₀, hk, hlet, kernel_vocabulary_fixed hk _⟩

end Gwead
