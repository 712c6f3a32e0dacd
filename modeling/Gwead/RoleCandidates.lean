import Gwead.Dispatch
import Gwead.Lib.Recency
import Gwead.ReloadRollback

/-!
# Who fulfils a role

A role is looked for along the caller's chain, each time under the contract of that namespace, and
only plugins on the chain are taken, deeper namespaces first.
-/

namespace Gwead

open Identity Registration Registered Recency

namespace Kernel

/-- The plugins bound to a contract that are on the chain of `caller`. -/
def onChainFor (k : Kernel) (caller key : String) : List String :=
  (k.registry.pluginsForRole key).filter fun candidate => isOnChain candidate caller

/-- What is taken at the first contract up the chain for which anything is. -/
def nearestLevel (k : Kernel) (caller role : String) : List String :=
  (((ancestorNamespaces (namespaceOf caller)).map fun ns =>
    k.onChainFor caller (qualify ns role)).find? fun candidates => ¬candidates.isEmpty).getD []

/-- The plugins that calls register, one after the other. -/
def registeredBy (setup : Setup) (k : Kernel) : List Call → List String
  | [] => []
  | c :: calls => k.registers setup c ++ registeredBy setup (k.after setup c) calls

/-- The plugin that boot registers. -/
def bootRegisters (setup : Setup) (intrinsics : String) : List String :=
  match registerClassifiedManifest setup .new intrinsics "" true with
  | .ok (_, record) => recordedPlugin record
  | .error _ => []

/-- A registered plugin whose manifest lists the role. -/
def DeclaresRole (k : Kernel) (plugin role : String) : Prop :=
  ∃ m, k.registry.getManifest plugin = some m ∧ role ∈ m.roles

end Kernel

/-- What a caller may expect of the candidates for a role. -/
structure FulfilsRole (log : List String) (k : Kernel) (caller : Option String) (role : String) :
    Prop where
  confined : ∀ p ∈ k.registry.roleCandidates caller role,
    k.DeclaresRole p role ∧ Encloses (namespaceOf p) (namespaceOf (caller.getD ""))
  complete : k.registry.roleCandidates caller role ≠ [] ↔
    ∃ p, k.DeclaresRole p role ∧ Encloses (namespaceOf p) (namespaceOf (caller.getD ""))
  nearest : ∀ p, (k.registry.roleCandidates caller role).head? = some p →
    ∃ nearer farther, ancestorNamespaces (namespaceOf (caller.getD "")) =
        nearer ++ namespaceOf p :: farther ∧
      ∀ q, k.DeclaresRole q role → namespaceOf q ∉ nearer
  ordered : (k.registry.roleCandidates caller role).Pairwise fun p q =>
    namespaceOf p = namespaceOf q → Before log p q

/-! ### Chains -/

/-- The chain of a namespace is it and all that enclose it. -/
theorem mem_ancestorNamespaces_iff (outer inner : String) :
    outer ∈ ancestorNamespaces inner ↔ Encloses outer inner := by
  refine ⟨encloses_of_mem_ancestorNamespaces outer inner, ?_⟩
  induction hn : inner.length using Nat.strong_induction_on generalizing inner with
  | _ n ih =>
    intro h
    by_cases hempty : inner = ""
    · subst hempty
      rcases h with rfl | rfl | ⟨rest, hrest⟩
      · simp
      · simp
      · simp at hrest
    · have hlt := hn ▸ namespaceOf_length hempty
      have hparent : Encloses outer (namespaceOf inner) → outer ∈ ancestorNamespaces inner := by
        intro h
        rw [ancestorNamespaces_of_ne hempty]
        exact List.mem_cons_of_mem _ (ih _ hlt _ rfl h)
      rcases h with rfl | rfl | ⟨rest, hrest⟩
      · exact self_mem_ancestorNamespaces _
      · exact hparent (Or.inr (Or.inl rfl))
      · cases hr : rsplitOnce namespaceSeparator rest with
        | none =>
          have hns : namespaceOf inner = outer := by
            rw [namespaceOf, hrest, rsplitOnce_append _ (rsplitOnce_eq_none.mp hr)]
            exact String.ofList_toList
          exact hparent (hns ▸ Or.inl rfl)
        | some p =>
          obtain ⟨a, b⟩ := p
          obtain ⟨rfl, hb⟩ := rsplitOnce_some hr
          have hns : (namespaceOf inner).toList = outer.toList ++ namespaceSeparator :: a := by
            rw [namespaceOf, hrest, ← List.cons_append, ← List.append_assoc,
              rsplitOnce_append _ hb]
            exact String.toList_ofList
          exact hparent (Or.inr (Or.inr ⟨a, hns⟩))

theorem Identity.Encloses.trans {a b c : String} (h : Encloses a b) (h' : Encloses b c) : Encloses a c := by
  rcases h with rfl | rfl | ⟨rest, hrest⟩
  · exact h'
  · exact Or.inr (Or.inl rfl)
  · rcases h' with rfl | rfl | ⟨rest', hrest'⟩
    · exact Or.inr (Or.inr ⟨rest, hrest⟩)
    · simp at hrest
    · exact Or.inr (Or.inr ⟨rest ++ namespaceSeparator :: rest', by rw [hrest', hrest]; simp⟩)

/-- Going up a chain the chains get shorter. -/
theorem pairwise_ancestorNamespaces (ns : String) : (ancestorNamespaces ns).Pairwise fun a b =>
    (ancestorNamespaces b).length < (ancestorNamespaces a).length := by
  induction hn : ns.length using Nat.strong_induction_on generalizing ns with
  | _ n ih =>
    by_cases hempty : ns = ""
    · subst hempty
      simp
    · have hparent := ih _ (hn ▸ namespaceOf_length hempty) (namespaceOf ns) rfl
      have hself := ancestorNamespaces_of_ne hempty
      rw [hself, List.pairwise_cons]
      refine ⟨fun b hb => ?_, hparent⟩
      -- the parent is the longest of what is above
      have hle : (ancestorNamespaces b).length ≤ (ancestorNamespaces (namespaceOf ns)).length := by
        by_cases hroot : namespaceOf ns = ""
        · rw [hroot, ancestorNamespaces_root, List.mem_singleton] at hb
          rw [hb, hroot]
        · rw [ancestorNamespaces_of_ne hroot] at hb hparent
          rcases List.mem_cons.mp hb with rfl | hb
          · exact Nat.le_refl _
          · exact Nat.le_of_lt ((List.pairwise_cons.mp hparent).1 b hb)
      rw [hself, List.length_cons]
      omega

/-- The namespace of a name without a separator in it is enclosed by root only. -/
theorem ancestorNamespaces_plain {ns : String} (hne : ns ≠ "")
    (h : namespaceSeparator ∉ ns.toList) : ancestorNamespaces ns = [ns, ""] := by
  have hroot : namespaceOf ns = "" := by simp [namespaceOf, rsplitOnce_eq_none.mpr h]
  rw [ancestorNamespaces_of_ne hne, hroot, ancestorNamespaces_root]

/-- A name with a separator in it, qualified, is in a namespace with one. -/
theorem separator_mem_namespaceOf {ns name : String} (hne : ns ≠ "")
    (h : namespaceSeparator ∈ name.toList) :
    namespaceSeparator ∈ (namespaceOf (qualify ns name)).toList := by
  cases hr : rsplitOnce namespaceSeparator name.toList with
  | none => exact absurd h (rsplitOnce_eq_none.mp hr)
  | some p =>
    obtain ⟨a, b⟩ := p
    obtain ⟨hname, hb⟩ := rsplitOnce_some hr
    rw [namespaceOf, toList_qualify name hne, hname, ← List.cons_append, ← List.append_assoc,
      rsplitOnce_append _ hb]
    simp

theorem checkNamespace_plain {ns : String} (h : checkNamespace ns = .ok ()) :
    ns = "" ∨ namespaceSeparator ∉ ns.toList := by
  have hvalid := labelled_ok h
  rw [validateNamespace] at hvalid
  split at hvalid
  · exact Or.inl ‹_›
  · exact Or.inr (validateName_noSeparator hvalid)

/-! ### Registrations in force and the order they came in -/

/-- The registrations stand in the order their plugins were last registered in. -/
structure Logged (regs : List Registered) (log : List String) : Prop where
  ordered : (regs.map Registered.plugin).Pairwise (Before log)
  named : ∀ e ∈ regs, e.plugin ∈ log
  roleNames : ∀ e ∈ regs, ∀ role ∈ e.manifest.roles, namespaceSeparator ∉ role.toList

section Log

variable {setup : Setup} {k : Kernel} {regs regs' : List Registered} {log names : List String}

theorem logged_nil : Logged [] [] := ⟨List.Pairwise.nil, nofun, nofun⟩

theorem Logged.sublist (h : Logged regs log) (hsub : regs'.Sublist regs) : Logged regs' log :=
  ⟨h.ordered.sublist (hsub.map _), fun e he => h.named e (hsub.subset he),
    fun e he => h.roleNames e (hsub.subset he)⟩

/-- Taking out keeps the order, and what is appended comes last. -/
theorem Logged.moves (h : Logged regs log) (hmoves : Moves regs regs' names) :
    Logged regs' (log ++ names) := by
  cases hmoves with
  | taken hsub =>
    rw [List.append_nil]
    exact h.sublist hsub
  | @appended base e hsub hfresh hroles =>
    obtain ⟨hordered, hnamed, hplain⟩ := h.sublist hsub
    have hne : ∀ p ∈ base.map Registered.plugin, p ≠ e.plugin := by
      rintro p hp rfl
      exact hfresh hp
    have hlog : ∀ p ∈ base.map Registered.plugin, p ∈ log := by
      intro p hp
      obtain ⟨e', he', rfl⟩ := List.mem_map.mp hp
      exact hnamed e' he'
    refine ⟨?_, ?_, ?_⟩
    · rw [List.map_append, List.pairwise_append]
      refine ⟨hordered.imp_of_mem fun hp _ hbefore => hbefore.append (hne _ hp), by simp, ?_⟩
      intro p hp q hq
      rw [List.map_singleton, List.mem_singleton] at hq
      rw [hq]
      exact before_append (hlog p hp) (hne p hp)
    · intro e' he'
      rcases List.mem_append.mp he' with he' | he'
      · exact List.mem_append_left _ (hnamed e' he')
      · simp [List.mem_singleton.mp he']
    · intro e' he'
      rcases List.mem_append.mp he' with he' | he'
      · exact hplain e' he'
      · rwa [List.mem_singleton.mp he']

theorem logged_boot {intrinsics : String} (hboot : Kernel.boot setup intrinsics = .ok k) :
    ∃ regs, Managed setup k regs ∧ Logged regs (Kernel.bootRegisters setup intrinsics) := by
  rw [Kernel.boot] at hboot
  cases hload : Kernel.loadManifest setup .new intrinsics "" true with
  | error e => simp [hload] at hboot
  | ok out =>
    obtain ⟨k₁, handle⟩ := out
    simp only [hload] at hboot
    cases hboot
    obtain ⟨_, added, hmanaged, ⟨_, record, hreg, hmoves⟩, -⟩ := managed_new.load .new hload
    refine ⟨_, hmanaged, ?_⟩
    simp only [Kernel.bootRegisters, hreg]
    exact logged_nil.moves hmoves

theorem registeredBy_concat (setup : Setup) (k : Kernel) (calls : List Kernel.Call)
    (c : Kernel.Call) : k.registeredBy setup (calls ++ [c]) =
      k.registeredBy setup calls ++ (k.afterAll setup calls).registers setup c := by
  induction calls generalizing k with
  | nil => simp [Kernel.registeredBy, Kernel.afterAll]
  | cons c' calls ih =>
    have hafter : k.afterAll setup (c' :: calls) = (k.after setup c').afterAll setup calls := rfl
    rw [List.cons_append, Kernel.registeredBy, ih, Kernel.registeredBy, List.append_assoc, hafter]

/-- Over any calls the registrations in force stay in the order they came in. -/
theorem logged_afterAll {intrinsics : String} (hboot : Kernel.boot setup intrinsics = .ok k)
    (calls : List Kernel.Call) : ∃ regs, Managed setup (k.afterAll setup calls) regs ∧
      Logged regs (Kernel.bootRegisters setup intrinsics ++ k.registeredBy setup calls) := by
  induction calls using List.reverseRecOn with
  | nil =>
    obtain ⟨regs, hmanaged, hlogged⟩ := logged_boot hboot
    exact ⟨regs, hmanaged, by simpa [Kernel.registeredBy] using hlogged⟩
  | append_singleton calls c ih =>
    obtain ⟨regs, hmanaged, hlogged⟩ := ih
    obtain ⟨regs', hnext, hmoves⟩ := hmanaged.after (Kernel.reachable_afterAll hboot calls) c
    refine ⟨regs', ?_, ?_⟩
    · rw [Kernel.afterAll_concat]
      exact hnext
    · rw [registeredBy_concat, ← List.append_assoc]
      exact hlogged.moves hmoves

end Log

/-! ### The plugins bound to a contract -/

section Bound

variable {setup : Setup} {k : Kernel} {regs : List Registered} {log : List String}
  {caller key role p : String}

/-- A contract lists the plugins bound to it in the order of their registrations. -/
theorem Listed.pluginsForRole_eq (h : Listed k regs) (key : String) :
    k.registry.pluginsForRole key =
      (regs.filter fun e => key ∈ e.roleKeys).map Registered.plugin := by
  rw [PluginRegistry.pluginsForRole, h.roles.bucket]
  clear h
  induction regs with
  | nil => rfl
  | cons e rest ih =>
    have hnodup : e.roleKeys.Nodup := nodup_roleKeysFor _ _ _
    rw [List.flatMap_cons, Ledger.bucket_append, ih, roleRows, bucket_roleRow hnodup]
    by_cases hkey : key ∈ e.roleKeys <;> simp [hkey]

theorem Managed.declaresRole_iff (h : Managed setup k regs) :
    k.DeclaresRole p role ↔ ∃ e ∈ regs, e.plugin = p ∧ role ∈ e.manifest.roles := by
  constructor
  · rintro ⟨m, hm, hrole⟩
    obtain ⟨e, he, hplugin, rfl⟩ := h.listed.getManifest_iff.mp hm
    exact ⟨e, he, hplugin, hrole⟩
  · rintro ⟨e, he, hplugin, hrole⟩
    exact ⟨e.manifest, h.listed.getManifest_iff.mpr ⟨e, he, hplugin, rfl⟩, hrole⟩

/-- A plugin is registered in root or in a namespace that only root encloses. -/
theorem Managed.plain (h : Managed setup k regs) {e : Registered} (he : e ∈ regs) :
    e.ns = "" ∨ namespaceSeparator ∉ e.ns.toList := by
  obtain ⟨_, _, -, hp, -⟩ := h.sound e he
  exact checkNamespace_plain hp.ns

/-- A binding is to a role the manifest lists, in a namespace that encloses the plugin's. -/
theorem Registered.mem_roleKeys {e : Registered} (h : key ∈ e.roleKeys) :
    ∃ role ∈ e.manifest.roles, ∃ n, Encloses n e.ns ∧ key = qualify n role := by
  obtain ⟨role, hrole, hkey⟩ := Kernel.mem_roleKeysFor.mp h
  refine ⟨role, hrole, ?_⟩
  cases hresolve : e.spi.resolve e.ns role with
  | none =>
    rw [hresolve] at hkey
    exact ⟨e.ns, Or.inl rfl, hkey.symm⟩
  | some found =>
    obtain ⟨key', definition⟩ := found
    obtain ⟨⟨n, hn, rfl⟩, -⟩ := SpiRegistry.resolve_some hresolve
    rw [hresolve] at hkey
    exact ⟨n, (mem_ancestorNamespaces_iff _ _).mp hn, hkey.symm⟩

/-- Every role a manifest lists is bound somewhere on the plugin's chain. -/
theorem Registered.bound {e : Registered} (hrole : role ∈ e.manifest.roles) :
    ∃ n, Encloses n e.ns ∧ qualify n role ∈ e.roleKeys := by
  cases hresolve : e.spi.resolve e.ns role with
  | none =>
    exact ⟨e.ns, Or.inl rfl, Kernel.mem_roleKeysFor.mpr ⟨role, hrole, by rw [hresolve]; rfl⟩⟩
  | some found =>
    obtain ⟨key', definition⟩ := found
    obtain ⟨⟨n, hn, rfl⟩, -⟩ := SpiRegistry.resolve_some hresolve
    exact ⟨n, (mem_ancestorNamespaces_iff _ _).mp hn,
      Kernel.mem_roleKeysFor.mpr ⟨role, hrole, by rw [hresolve]; rfl⟩⟩

/-- A plugin is taken at a contract if it is bound to it and its namespace encloses the caller's. -/
theorem Managed.mem_onChainFor (h : Managed setup k regs) :
    p ∈ k.onChainFor caller key ↔ ∃ e ∈ regs, e.plugin = p ∧ key ∈ e.roleKeys ∧
      Encloses e.ns (namespaceOf caller) := by
  have hchain : ∀ e ∈ regs, isOnChain e.plugin caller = true ↔ Encloses e.ns (namespaceOf caller) := by
    intro e he
    rw [isOnChain_iff, mem_ancestorNamespaces_iff, namespaceOf_plugin (h.sound e he)]
  rw [Kernel.onChainFor, List.mem_filter, h.listed.pluginsForRole_eq, List.mem_map]
  constructor
  · rintro ⟨⟨e, he, rfl⟩, hon⟩
    obtain ⟨he, hkey⟩ := List.mem_filter.mp he
    exact ⟨e, he, rfl, of_decide_eq_true hkey, (hchain e he).mp hon⟩
  · rintro ⟨e, he, rfl, hkey, hon⟩
    exact ⟨⟨e, List.mem_filter.mpr ⟨he, decide_eq_true hkey⟩, rfl⟩, (hchain e he).mpr hon⟩

/-- A plugin taken at the contract of a plain role lists that role, and was bound in the namespace
of the contract. -/
theorem Logged.bound_plain (h : Logged regs log) (hplain : namespaceSeparator ∉ role.toList)
    {e : Registered} (he : e ∈ regs) {ns : String} (hkey : qualify ns role ∈ e.roleKeys) :
    role ∈ e.manifest.roles ∧ Encloses ns e.ns := by
  obtain ⟨role', hrole', n, hn, heq⟩ := mem_roleKeys hkey
  have hplain' := h.roleNames e he role' hrole'
  have hns : ns = n := by
    rw [← @namespaceOf_qualify ns role hplain, heq, namespaceOf_qualify hplain']
  have hname : role = role' := by
    rw [← @localNameOf_qualify ns role hplain, heq, localNameOf_qualify hplain']
  rw [hns, hname]
  exact ⟨hrole', hn⟩

/-- No plugin is bound to the contract of a role with a separator in it, but where it is written out
as the contract of a namespace. -/
theorem Managed.unbound_qualified (h : Managed setup k regs) (hlog : Logged regs log)
    (hsep : namespaceSeparator ∈ role.toList) {ns : String} (hne : ns ≠ "") :
    k.onChainFor caller (qualify ns role) = [] := by
  rw [List.eq_nil_iff_forall_not_mem]
  intro p hp
  obtain ⟨e, he, -, hkey, -⟩ := h.mem_onChainFor.mp hp
  obtain ⟨role', hrole', n, hn, heq⟩ := mem_roleKeys hkey
  have hmem := separator_mem_namespaceOf hne hsep
  rw [heq, namespaceOf_qualify (hlog.roleNames e he role' hrole')] at hmem
  -- the namespace of a binding encloses a plugin's, and so has no separator in it
  rcases h.plain he with hroot | hplain
  · rcases hn with rfl | rfl | ⟨rest, hrest⟩
    · simp [hroot] at hmem
    · simp at hmem
    · simp [hroot] at hrest
  · rcases hn with rfl | rfl | ⟨rest, hrest⟩
    · exact hplain hmem
    · simp at hmem
    · exact hplain (by simp [hrest])

end Bound

/-! ### The walk -/

section Walk

variable {setup : Setup} {k : Kernel} {regs : List Registered} {log : List String}
  {caller : Option String} {role : String}

/-- How many namespaces an identity's chain has. -/
def chainDepth (identity : String) : Nat := (ancestorNamespaces (namespaceOf identity)).length

/-- A deeper namespace is closer to the caller. -/
def nearerFirst (a b : String) : Bool := decide (chainDepth b ≤ chainDepth a)

theorem nearerFirst_trans (a b c : String) (hab : nearerFirst a b) (hbc : nearerFirst b c) :
    nearerFirst a c :=
  decide_eq_true (Nat.le_trans (of_decide_eq_true hbc) (of_decide_eq_true hab))

theorem nearerFirst_total (a b : String) : nearerFirst a b || nearerFirst b a := by
  simp only [nearerFirst, Bool.or_eq_true, decide_eq_true_eq]
  exact Nat.le_total (chainDepth b) (chainDepth a)

theorem roleCandidates_eq (k : Kernel) (caller : Option String) (role : String) :
    k.registry.roleCandidates caller role =
      (k.nearestLevel (caller.getD "") role).mergeSort nearerFirst := rfl

/-- The walk stops in the first namespace with a plugin, or ends with none in any. -/
theorem roleCandidates_cases (k : Kernel) (caller : Option String) (role : String) :
    (k.registry.roleCandidates caller role = [] ∧
        ∀ ns ∈ ancestorNamespaces (namespaceOf (caller.getD "")),
          k.onChainFor (caller.getD "") (qualify ns role) = []) ∨
      ∃ nearer ns farther,
        ancestorNamespaces (namespaceOf (caller.getD "")) = nearer ++ ns :: farther ∧
        (∀ n ∈ nearer, k.onChainFor (caller.getD "") (qualify n role) = []) ∧
        k.onChainFor (caller.getD "") (qualify ns role) ≠ [] ∧
        k.registry.roleCandidates caller role =
          (k.onChainFor (caller.getD "") (qualify ns role)).mergeSort nearerFirst := by
  rw [roleCandidates_eq, Kernel.nearestLevel]
  generalize ancestorNamespaces (namespaceOf (caller.getD "")) = chain
  induction chain with
  | nil => exact Or.inl ⟨by simp, nofun⟩
  | cons ns outer ih =>
    rw [List.map_cons, List.find?_cons]
    by_cases hempty : k.onChainFor (caller.getD "") (qualify ns role) = []
    · simp only [hempty, List.isEmpty_nil, not_true, decide_false]
      rcases ih with ⟨hnone, hall⟩ | ⟨nearer, n, farther, hchain, hbefore, hfound, hsorted⟩
      · exact Or.inl ⟨hnone, by simpa using ⟨hempty, hall⟩⟩
      · refine Or.inr ⟨ns :: nearer, n, farther, by rw [hchain]; rfl, ?_, hfound, hsorted⟩
        simpa using ⟨hempty, hbefore⟩
    · refine Or.inr ⟨[], ns, outer, rfl, nofun, hempty, ?_⟩
      simp [hempty]

theorem mem_roleCandidates {p : String} (h : p ∈ k.registry.roleCandidates caller role) :
    ∃ ns, p ∈ k.onChainFor (caller.getD "") (qualify ns role) := by
  rcases roleCandidates_cases k caller role with
    ⟨hnone, -⟩ | ⟨nearer, ns, farther, -, -, -, hsorted⟩
  · rw [hnone] at h
    cases h
  · rw [hsorted, List.mem_mergeSort] at h
    exact ⟨ns, h⟩

theorem roleCandidates_ne_nil {ns : String}
    (hns : ns ∈ ancestorNamespaces (namespaceOf (caller.getD "")))
    (h : k.onChainFor (caller.getD "") (qualify ns role) ≠ []) :
    k.registry.roleCandidates caller role ≠ [] := by
  rcases roleCandidates_cases k caller role with
    ⟨-, hall⟩ | ⟨nearer, ns', farther, -, -, hfound, hsorted⟩
  · exact absurd (hall ns hns) h
  · rw [hsorted]
    intro hnil
    exact hfound (List.perm_nil.mp (hnil ▸ (List.mergeSort_perm _ _).symm))

/-- A plugin on the chain that lists the role is taken at the contract it is bound to. -/
theorem Managed.taken (h : Managed setup k regs) {e : Registered} (he : e ∈ regs)
    (hrole : role ∈ e.manifest.roles) {caller : String} (hon : Encloses e.ns (namespaceOf caller)) :
    ∃ n, Encloses n e.ns ∧ n ∈ ancestorNamespaces (namespaceOf caller) ∧
      e.plugin ∈ k.onChainFor caller (qualify n role) := by
  obtain ⟨n, hn, hkey⟩ := bound hrole
  exact ⟨n, hn, (mem_ancestorNamespaces_iff _ _).mpr (hn.trans hon),
    h.mem_onChainFor.mpr ⟨e, he, rfl, hkey, hon⟩⟩

/-- In the order of registrations the plugins of one namespace are what they are in the log. -/
theorem Managed.candidates_ordered (h : Managed setup k regs) (hlog : Logged regs log) :
    (k.registry.roleCandidates caller role).Pairwise fun p q =>
      namespaceOf p = namespaceOf q → Before log p q := by
  rcases roleCandidates_cases k caller role with
    ⟨hnone, -⟩ | ⟨nearer, ns, farther, -, -, -, hsorted⟩
  · rw [hnone]
    exact List.Pairwise.nil
  · rw [hsorted]
    have hsub : (k.onChainFor (caller.getD "") (qualify ns role)).Sublist
        (regs.map Registered.plugin) := by
      rw [Kernel.onChainFor, h.listed.pluginsForRole_eq]
      exact List.filter_sublist.trans (List.filter_sublist.map _)
    refine (pairwise_mergeSort_stable nearerFirst_trans nearerFirst_total
      (h.listed.names.sublist hsub) (hlog.ordered.sublist hsub)).imp fun hstable hns => hstable ?_
    simp [nearerFirst, chainDepth, hns]

theorem depth_plain {ns : String} (h : ns = "" ∨ namespaceSeparator ∉ ns.toList) :
    ns = "" ∨ ancestorNamespaces ns = [ns, ""] := by
  by_cases hne : ns = ""
  · exact Or.inl hne
  · exact Or.inr (ancestorNamespaces_plain hne (h.resolve_left hne))

/-- No plugin that lists the role is in a namespace of the chain before the head's. -/
theorem Managed.candidates_nearest (h : Managed setup k regs) (hlog : Logged regs log)
    (hplain : namespaceSeparator ∉ role.toList) {p : String}
    (hhead : (k.registry.roleCandidates caller role).head? = some p) :
    ∃ nearer farther, ancestorNamespaces (namespaceOf (caller.getD "")) =
        nearer ++ namespaceOf p :: farther ∧
      ∀ q, k.DeclaresRole q role → namespaceOf q ∉ nearer := by
  have hdepth := pairwise_ancestorNamespaces (namespaceOf (caller.getD ""))
  rcases roleCandidates_cases k caller role with
    ⟨hnone, -⟩ | ⟨before, ns, after, hstop, hbefore, -, hsorted⟩
  · simp [hnone] at hhead
  · rw [hsorted] at hhead
    generalize caller.getD "" = c at *
    obtain ⟨rest, hcons⟩ := List.head?_eq_some_iff.mp hhead
    have hp : p ∈ k.onChainFor c (qualify ns role) := by
      have hsome : p ∈ (k.onChainFor c (qualify ns role)).mergeSort nearerFirst := by
        rw [hcons]
        exact List.mem_cons_self
      exact List.mem_mergeSort.mp hsome
    obtain ⟨e, he, rfl, hkey, hon⟩ := h.mem_onChainFor.mp hp
    obtain ⟨-, hns⟩ := hlog.bound_plain hplain he hkey
    have hename := namespaceOf_plugin (h.sound e he)
    obtain ⟨nearer, farther, hchain⟩ :=
      List.append_of_mem ((mem_ancestorNamespaces_iff _ _).mpr hon)
    refine ⟨nearer, farther, by rw [hename, hchain], ?_⟩
    intro q hq hmem
    obtain ⟨e', he', rfl, hrole'⟩ := h.declaresRole_iff.mp hq
    have hename' := namespaceOf_plugin (h.sound e' he')
    rw [hename'] at hmem
    -- two namespaces of registered plugins differ in depth only if one is root
    have hlt : (ancestorNamespaces e.ns).length < (ancestorNamespaces e'.ns).length := by
      rw [hchain, List.pairwise_append] at hdepth
      exact hdepth.2.2 _ hmem _ List.mem_cons_self
    have hroot : e.ns = "" := by
      rcases depth_plain (h.plain he) with hroot | htwo
      · exact hroot
      · rcases depth_plain (h.plain he') with hroot' | htwo' <;> simp_all
    have hne : e'.ns ≠ "" := by
      intro hroot'
      simp [hroot, hroot'] at hlt
    have htwo : ancestorNamespaces e'.ns = [e'.ns, ""] :=
      (depth_plain (h.plain he')).resolve_left hne
    have hns : ns = "" := by
      rw [← mem_ancestorNamespaces_iff, hroot] at hns
      simpa using hns
    have hon' : Encloses e'.ns (namespaceOf c) := by
      rw [← mem_ancestorNamespaces_iff, hchain]
      exact List.mem_append_left _ hmem
    obtain ⟨n, hn, -, htaken⟩ := h.taken he' hrole' hon'
    rw [← mem_ancestorNamespaces_iff, htwo] at hn
    rcases List.mem_cons.mp hn with rfl | hn
    · -- bound in its own namespace, it would have been found before root
      have hmem' : e'.ns ∈ before ++ ns :: after := by
        rw [← hstop, hchain]
        exact List.mem_append_left _ hmem
      rcases List.mem_append.mp hmem' with hin | hin
      · rw [hbefore _ hin] at htaken
        cases htaken
      · rcases List.mem_cons.mp hin with heq | hin
        · exact hne (heq.trans hns)
        · rw [hstop, List.pairwise_append, List.pairwise_cons, hns] at hdepth
          have hlt' := hdepth.2.1.1 _ hin
          simp [htwo] at hlt'
    · -- bound in root, it would have been sorted before the head
      rw [List.mem_singleton.mp hn, ← hns] at htaken
      have hmem' : e'.plugin ∈ e.plugin :: rest := by
        rw [← hcons, List.mem_mergeSort]
        exact htaken
      have hpair := List.pairwise_mergeSort nearerFirst_trans nearerFirst_total
        (k.onChainFor c (qualify ns role))
      rw [hcons, List.pairwise_cons] at hpair
      rcases List.mem_cons.mp hmem' with heq | hin
      · rw [h.listed.eq_of_plugin he he' heq] at hlt
        omega
      · have hle : chainDepth e'.plugin ≤ chainDepth e.plugin := of_decide_eq_true (hpair.1 _ hin)
        rw [chainDepth, chainDepth, hename, hename'] at hle
        omega

/-- For a role by its plain name the candidates are those that fulfil it. -/
theorem Managed.fulfilsRole (h : Managed setup k regs) (hlog : Logged regs log)
    (hplain : namespaceSeparator ∉ role.toList) : FulfilsRole log k caller role := by
  have hconfined : ∀ p ∈ k.registry.roleCandidates caller role,
      k.DeclaresRole p role ∧ Encloses (namespaceOf p) (namespaceOf (caller.getD "")) := by
    intro p hp
    obtain ⟨ns, hp⟩ := mem_roleCandidates hp
    obtain ⟨e, he, rfl, hkey, hon⟩ := h.mem_onChainFor.mp hp
    rw [namespaceOf_plugin (h.sound e he)]
    exact ⟨h.declaresRole_iff.mpr ⟨e, he, rfl, (hlog.bound_plain hplain he hkey).1⟩, hon⟩
  refine ⟨hconfined, ⟨?_, ?_⟩, fun p => h.candidates_nearest hlog hplain, h.candidates_ordered hlog⟩
  · intro hne
    obtain ⟨p, hp⟩ := List.exists_mem_of_ne_nil _ hne
    exact ⟨p, hconfined p hp⟩
  · rintro ⟨p, hp, hon⟩
    obtain ⟨e, he, rfl, hrole⟩ := h.declaresRole_iff.mp hp
    rw [namespaceOf_plugin (h.sound e he)] at hon
    obtain ⟨n, -, hn, htaken⟩ := h.taken he hrole hon
    exact roleCandidates_ne_nil hn (List.ne_nil_of_mem htaken)

/-- A role with a separator in it is no manifest's, so nothing should be taken for it; what is
taken is what is bound to a contract that is written so in full. -/
theorem Managed.fulfils_qualified_iff (h : Managed setup k regs) (hlog : Logged regs log)
    (hsep : namespaceSeparator ∈ role.toList) :
    FulfilsRole log k caller role ↔
      ∀ p ∈ k.registry.pluginsForRole role, isOnChain p (caller.getD "") = false := by
  have hnone : ∀ p, ¬k.DeclaresRole p role := by
    intro p hp
    obtain ⟨e, he, -, hrole⟩ := h.declaresRole_iff.mp hp
    exact hlog.roleNames e he role hrole hsep
  have hroot : ∀ p, p ∈ k.onChainFor (caller.getD "") role ↔
      p ∈ k.registry.pluginsForRole role ∧ isOnChain p (caller.getD "") = true := by
    intro p
    rw [Kernel.onChainFor, List.mem_filter]
  constructor
  · intro hfulfils p hp
    by_contra hon
    rw [Bool.not_eq_false] at hon
    have htaken : k.onChainFor (caller.getD "") (qualify "" role) ≠ [] := by
      rw [qualify_root]
      exact List.ne_nil_of_mem ((hroot p).mpr ⟨hp, hon⟩)
    have hmem : "" ∈ ancestorNamespaces (namespaceOf (caller.getD "")) :=
      (mem_ancestorNamespaces_iff _ _).mpr (Or.inr (Or.inl rfl))
    obtain ⟨q, hq, -⟩ := hfulfils.complete.mp (roleCandidates_ne_nil hmem htaken)
    exact hnone q hq
  · intro hoff
    have hnil : k.registry.roleCandidates caller role = [] := by
      rw [List.eq_nil_iff_forall_not_mem]
      intro p hp
      obtain ⟨ns, hp⟩ := mem_roleCandidates hp
      by_cases hne : ns = ""
      · rw [hne, qualify_root, hroot] at hp
        simp [hoff p hp.1] at hp
      · rw [h.unbound_qualified hlog hsep hne] at hp
        cases hp
    refine ⟨?_, ?_, ?_, ?_⟩ <;> simp only [hnil]
    · nofun
    · simpa using fun p hp => absurd hp (hnone p)
    · nofun
    · exact List.Pairwise.nil

end Walk

/-- After boot and any calls, the candidates for a role are as they should be exactly when the role is
written by its plain name, or nothing is bound to a contract of that full name. -/
theorem role_candidates_iff {setup : Setup} {intrinsics : String} {k : Kernel}
    (hboot : Kernel.boot setup intrinsics = .ok k) (calls : List Kernel.Call)
    (caller : Option String) (role : String) :
    FulfilsRole (Kernel.bootRegisters setup intrinsics ++ k.registeredBy setup calls)
        (k.afterAll setup calls) caller role ↔
      namespaceSeparator ∉ role.toList ∨
        ∀ p ∈ (k.afterAll setup calls).registry.pluginsForRole role,
          isOnChain p (caller.getD "") = false := by
  obtain ⟨regs, hmanaged, hlog⟩ := logged_afterAll hboot calls
  by_cases hsep : namespaceSeparator ∈ role.toList
  · rw [hmanaged.fulfils_qualified_iff hlog hsep]
    exact ⟨Or.inr, fun h => h.resolve_left (not_not_intro hsep)⟩
  · exact ⟨fun _ => Or.inl hsep, fun _ => hmanaged.fulfilsRole hlog hsep⟩

/-- The same plugin in two namespaces, of a role that one contract is for. -/
def sharedNotesSetup : Setup :=
  textSetup [("kernel", plainManifest "kernel"), ("notes", notesManifest)]
    [("storage", Kernel.storageContract "storage")]

def sharedNotesCalls : List Kernel.Call :=
  [.load "" "storage", .load "" "notes", .load "team" "notes"]

/-- A plugin of a team is given its team's plugin of the role first, and then the global one, though
that was registered first. -/
theorem role_candidates_storage : ∃ k, Kernel.boot sharedNotesSetup "kernel" = .ok k ∧
    k.registeredBy sharedNotesSetup sharedNotesCalls = ["notes", "team/notes"] ∧
    (k.afterAll sharedNotesSetup sharedNotesCalls).registry.roleCandidates (some "team/desk")
      "storage" = ["team/notes", "notes"] ∧
    FulfilsRole (Kernel.bootRegisters sharedNotesSetup "kernel" ++
        k.registeredBy sharedNotesSetup sharedNotesCalls)
      (k.afterAll sharedNotesSetup sharedNotesCalls) (some "team/desk") "storage" := by
  have hboot : ∃ k, Kernel.boot sharedNotesSetup "kernel" = .ok k ∧
      k.registeredBy sharedNotesSetup sharedNotesCalls = ["notes", "team/notes"] ∧
      (k.afterAll sharedNotesSetup sharedNotesCalls).nearestLevel "team/desk" "storage" =
        ["notes", "team/notes"] := ⟨_, rfl, by decide, by decide⟩
  obtain ⟨k, hk, hregisters, hlevel⟩ := hboot
  refine ⟨k, hk, hregisters, ?_, (role_candidates_iff hk sharedNotesCalls (some "team/desk")
    "storage").mpr (Or.inl (by decide))⟩
  have hfarther : nearerFirst "notes" "team/notes" = false := by decide +kernel
  rw [roleCandidates_eq, Option.getD_some, hlevel]
  simp [List.mergeSort, List.MergeSort.Internal.splitInTwo, hfarther]

/-- Asked for a role by the full name of a team's contract, a plugin of the team is given one that
lists the role by its plain name. -/
theorem role_taken_qualified : ∃ k, Kernel.boot notesSetup "kernel" = .ok k ∧
    (k.afterAll notesSetup [.load "team" "notes"]).registry.roleCandidates (some "team/desk")
      "team/storage" = ["team/notes"] ∧
    ¬(k.afterAll notesSetup [.load "team" "notes"]).DeclaresRole "team/notes" "team/storage" ∧
    ¬FulfilsRole (Kernel.bootRegisters notesSetup "kernel" ++
        k.registeredBy notesSetup [.load "team" "notes"])
      (k.afterAll notesSetup [.load "team" "notes"]) (some "team/desk") "team/storage" := by
  have hboot : ∃ k, Kernel.boot notesSetup "kernel" = .ok k ∧
      (k.afterAll notesSetup [.load "team" "notes"]).nearestLevel "team/desk" "team/storage" =
        ["team/notes"] ∧
      ((k.afterAll notesSetup [.load "team" "notes"]).registry.getManifest "team/notes").all
        (fun m => !m.roles.contains "team/storage") = true := ⟨_, rfl, by decide, by decide⟩
  obtain ⟨k, hk, hlevel, hlists⟩ := hboot
  have hfound : (k.afterAll notesSetup [.load "team" "notes"]).registry.roleCandidates
      (some "team/desk") "team/storage" = ["team/notes"] := by
    rw [roleCandidates_eq, Option.getD_some, hlevel, List.mergeSort_singleton]
  have hnot : ¬(k.afterAll notesSetup [.load "team" "notes"]).DeclaresRole "team/notes"
      "team/storage" := by
    rintro ⟨m, hm, hrole⟩
    rw [hm] at hlists
    simp [hrole] at hlists
  refine ⟨k, hk, hfound, hnot, fun hfulfils => hnot ?_⟩
  exact (hfulfils.confined "team/notes" (by rw [hfound]; simp)).1

end Gwead
