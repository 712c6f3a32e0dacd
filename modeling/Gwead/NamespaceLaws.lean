import Gwead.Lib.Iterator
import Gwead.RoleCandidates
import Gwead.StepTypeResolution

/-!
# The laws of names and namespaces

An identity is one string, and everything about isolation is read back out of it: what a plugin is
called, which namespace it lives in, and who is above whom.
-/

namespace Gwead

open Identity

namespace Identity

/-- The closure of `ancestorNamespaces`: what is current, until root has been yielded. -/
def nextAncestor : Option String → Option (String × Option String)
  | none => none
  | some here => some (here, if here = "" then none else some (namespaceOf here))

/-- `outer` is `inner` up to its last separator, and root if it has none. -/
def ParentOf (outer inner : String) : Prop :=
  (∃ last, inner.toList = outer.toList ++ namespaceSeparator :: last ∧
      namespaceSeparator ∉ last) ∨
    (namespaceSeparator ∉ inner.toList ∧ outer = "")

/-- A name that one of the checks has passed: of a plugin or a role, or a step type or an alias
as it is declared or referred to. -/
inductive Validated (name : String) : Prop
  | name (kind : NameKind) (h : validateName kind name = .ok ())
  | declared (plugin : String) (kernelOwned : Bool)
      (h : validateStepTypeName name plugin kernelOwned = .ok ())
  | referred (h : validateStepTypeReference name = .ok ())

/-- A step type as a manifest writes it, declared or referred to. -/
inductive Written (name : String) : Prop
  | declared (plugin : String) (kernelOwned : Bool)
      (h : validateStepTypeName name plugin kernelOwned = .ok ())
  | referred (h : validateStepTypeReference name = .ok ())

/-- What walks up from `ns` to root. -/
structure WalksUp (ns : String) (items : List String) : Prop where
  starts : items.head? = some ns
  ends : items.getLast? = some ""
  up : items.IsChain fun inner outer => inner ≠ "" ∧ ParentOf outer inner

/-- A name belongs to a tenant's namespace. -/
def OfTenant (tenant identity : String) : Prop :=
  tenant ≠ "" ∧ validateNamespace tenant = .ok () ∧ namespaceOf identity = tenant

/-- What the kernel takes for granted about names. -/
structure NamespaceLaws : Prop where
  namespaceOf : ∀ ns name, Validated name → namespaceOf (qualify ns name) = ns
  localNameOf : ∀ ns name, Validated name → localNameOf (qualify ns name) = name
  injective : ∀ ns ns' name name', Validated name → Validated name' →
    qualify ns name = qualify ns' name' → ns = ns' ∧ name = name'
  key : ∀ p q w v, Written w → Written v →
    PluginRegistry.stepTypeKey p w = PluginRegistry.stepTypeKey q v →
      w = v ∧ (stepTypeSeparator ∈ w.toList → Identity.namespaceOf p = Identity.namespaceOf q)
  registered : ∀ p q w v,
    validateStepTypeName w (Identity.localNameOf p) false = .ok () →
    validateStepTypeName v (Identity.localNameOf q) false = .ok () →
    PluginRegistry.stepTypeKey p w = PluginRegistry.stepTypeKey q v →
      Identity.namespaceOf p = Identity.namespaceOf q ∧
        Identity.localNameOf p = Identity.localNameOf q
  walk : ∀ ns, Yields nextAncestor (some ns) (ancestorNamespaces ns) ∧
    ∀ items, Yields nextAncestor (some ns) items → WalksUp ns items
  refl : ∀ a, isOnChain a a = true
  trans : ∀ a b c, isOnChain a b = true → isOnChain b c = true → isOnChain a c = true
  antisymm : ∀ a b, isOnChain a b = true → isOnChain b a = true →
    Identity.namespaceOf a = Identity.namespaceOf b
  root : ∀ a b, Identity.namespaceOf a = "" → isOnChain a b = true
  tenants : ∀ tenant other a b, OfTenant tenant a → OfTenant other b → tenant ≠ other →
    isOnChain a b = false
  belowRoot : ∀ tenant a b, OfTenant tenant a → Identity.namespaceOf b = "" →
    isOnChain a b = false

/-! ### Names -/

theorem validateStepTypeReference_noSeparator {name : String}
    (h : validateStepTypeReference name = .ok ()) : namespaceSeparator ∉ name.toList := by
  rw [validateStepTypeReference] at h
  cases hsplit : splitOnce stepTypeSeparator name.toList with
  | none =>
    simp only [hsplit] at h
    exact validateName_noSeparator h
  | some parts =>
    obtain ⟨owner, localName⟩ := parts
    simp only [hsplit] at h
    cases howner : validateName .plugin (String.ofList owner) with
    | error e => simp [howner] at h
    | ok _ =>
      simp only [howner] at h
      have howner := validateName_noSeparator howner
      have hlocal := validateName_noSeparator h
      rw [String.toList_ofList] at howner hlocal
      rw [splitOnce_some hsplit, List.mem_append, List.mem_cons]
      rintro (hmem | hmem | hmem)
      · exact howner hmem
      · cases hmem
      · exact hlocal hmem

theorem Validated.noSeparator {name : String} (h : Validated name) :
    namespaceSeparator ∉ name.toList := by
  cases h with
  | name kind h => exact validateName_noSeparator h
  | declared plugin kernelOwned h => exact validateStepTypeName_noSeparator h
  | referred h => exact validateStepTypeReference_noSeparator h

theorem Written.validated {name : String} (h : Written name) : Validated name := by
  cases h with
  | declared plugin kernelOwned h => exact .declared plugin kernelOwned h
  | referred h => exact .referred h

theorem qualify_inj {ns ns' name name' : String} (h : Validated name) (h' : Validated name')
    (heq : qualify ns name = qualify ns' name') : ns = ns' ∧ name = name' := by
  have hns := congrArg Identity.namespaceOf heq
  have hname := congrArg Identity.localNameOf heq
  rw [namespaceOf_qualify h.noSeparator, namespaceOf_qualify h'.noSeparator] at hns
  rw [localNameOf_qualify h.noSeparator, localNameOf_qualify h'.noSeparator] at hname
  exact ⟨hns, hname⟩

/-! ### Keys -/

theorem namespaceOf_stepTypeKey (p : String) {w : String} (h : Validated w)
    (hdot : stepTypeSeparator ∈ w.toList) :
    Identity.namespaceOf (PluginRegistry.stepTypeKey p w) = Identity.namespaceOf p := by
  have hcontains : w.toList.contains stepTypeSeparator = true := List.contains_iff_mem.mpr hdot
  rw [PluginRegistry.stepTypeKey, if_pos hcontains]
  exact namespaceOf_qualify h.noSeparator

theorem stepTypeKey_inj {p q w v : String} (hw : Written w) (hv : Written v)
    (h : PluginRegistry.stepTypeKey p w = PluginRegistry.stepTypeKey q v) :
    w = v ∧ (stepTypeSeparator ∈ w.toList → Identity.namespaceOf p = Identity.namespaceOf q) := by
  have hname := congrArg Identity.localNameOf h
  rw [localNameOf_stepTypeKey p hw.validated.noSeparator,
    localNameOf_stepTypeKey q hv.validated.noSeparator] at hname
  subst hname
  refine ⟨rfl, fun hdot => ?_⟩
  have hns := congrArg Identity.namespaceOf h
  rwa [namespaceOf_stepTypeKey p hw.validated hdot,
    namespaceOf_stepTypeKey q hv.validated hdot] at hns

/-- A plugin other than the kernel's own declares under its own name. -/
theorem validateStepTypeName_owner {w plugin : String}
    (h : validateStepTypeName w plugin false = .ok ()) :
    ∃ localName, splitOnce stepTypeSeparator w.toList = some (plugin.toList, localName) := by
  rw [validateStepTypeName] at h
  cases hsplit : splitOnce stepTypeSeparator w.toList with
  | none =>
    simp only [hsplit] at h
    cases hname : validateName .stepType w with
    | error e => simp [hname] at h
    | ok _ => simp [hname] at h
  | some parts =>
    obtain ⟨owner, localName⟩ := parts
    simp only [hsplit] at h
    cases howner : validateName .plugin (String.ofList owner) with
    | error e => simp [howner] at h
    | ok _ =>
      cases hlocal : validateName .stepType (String.ofList localName) with
      | error e => simp [howner, hlocal] at h
      | ok _ =>
        simp only [howner, hlocal] at h
        split at h
        · rename_i hown
          exact ⟨localName, by rw [← hown, String.toList_ofList]⟩
        · cases h

theorem registered_inj {p q w v : String}
    (hw : validateStepTypeName w (Identity.localNameOf p) false = .ok ())
    (hv : validateStepTypeName v (Identity.localNameOf q) false = .ok ())
    (h : PluginRegistry.stepTypeKey p w = PluginRegistry.stepTypeKey q v) :
    Identity.namespaceOf p = Identity.namespaceOf q ∧
      Identity.localNameOf p = Identity.localNameOf q := by
  obtain ⟨rfl, hns⟩ := stepTypeKey_inj (.declared _ _ hw) (.declared _ _ hv) h
  obtain ⟨_, hp⟩ := validateStepTypeName_owner hw
  obtain ⟨_, hq⟩ := validateStepTypeName_owner hv
  have hdot : stepTypeSeparator ∈ w.toList := by
    rw [splitOnce_some hp]
    simp
  have howners : (Identity.localNameOf p).toList = (Identity.localNameOf q).toList := by
    have hboth := hp.symm.trans hq
    rw [Option.some.injEq, Prod.mk.injEq] at hboth
    exact hboth.1
  exact ⟨hns hdot, String.toList_inj.mp howners⟩

/-! ### The walk -/

theorem parentOf_namespaceOf (inner : String) : ParentOf (Identity.namespaceOf inner) inner := by
  cases hr : rsplitOnce namespaceSeparator inner.toList with
  | none =>
    refine Or.inr ⟨rsplitOnce_eq_none.mp hr, ?_⟩
    simp [Identity.namespaceOf, hr]
  | some p =>
    obtain ⟨outer, last⟩ := p
    obtain ⟨hinner, hlast⟩ := rsplitOnce_some hr
    refine Or.inl ⟨last, ?_, hlast⟩
    simpa [Identity.namespaceOf, hr] using hinner

theorem nextAncestor_some {s s' : Option String} {a : String}
    (h : nextAncestor s = some (a, s')) :
    s = some a ∧ s' = if a = "" then none else some (Identity.namespaceOf a) := by
  cases s with
  | none => cases h
  | some here =>
    rw [nextAncestor, Option.some.injEq, Prod.mk.injEq] at h
    obtain ⟨rfl, rfl⟩ := h
    exact ⟨rfl, rfl⟩

/-- The walk ends because the namespaces on it get shorter. -/
theorem yields_ancestorNamespaces (ns : String) :
    Yields nextAncestor (some ns) (ancestorNamespaces ns) := by
  induction hn : ns.length using Nat.strong_induction_on generalizing ns with
  | _ n ih =>
    by_cases hempty : ns = ""
    · subst hempty
      exact .item rfl (.done rfl)
    · have hlt := hn ▸ namespaceOf_length hempty
      have hnext : nextAncestor (some ns) = some (ns, some (Identity.namespaceOf ns)) := by
        rw [nextAncestor, if_neg hempty]
      rw [ancestorNamespaces_of_ne hempty]
      exact .item hnext (ih _ hlt _ rfl)

theorem head?_ancestorNamespaces (ns : String) : (ancestorNamespaces ns).head? = some ns := by
  by_cases hempty : ns = ""
  · subst hempty
    rfl
  · rw [ancestorNamespaces_of_ne hempty, List.head?_cons]

theorem getLast?_ancestorNamespaces (ns : String) :
    (ancestorNamespaces ns).getLast? = some "" := by
  induction hn : ns.length using Nat.strong_induction_on generalizing ns with
  | _ n ih =>
    by_cases hempty : ns = ""
    · subst hempty
      rfl
    · have hlt := hn ▸ namespaceOf_length hempty
      rw [ancestorNamespaces_of_ne hempty, List.getLast?_cons, ih _ hlt _ rfl]
      rfl

theorem walksUp {ns : String} {items : List String}
    (h : Yields nextAncestor (some ns) items) : WalksUp ns items := by
  have heq := h.unique (yields_ancestorNamespaces ns)
  refine ⟨?_, ?_, ?_⟩
  · rw [heq, head?_ancestorNamespaces]
  · rw [heq, getLast?_ancestorNamespaces]
  · apply h.isChain
    intro s s' s'' a b ha hb
    have hs' := (nextAncestor_some ha).2
    have hb := (nextAncestor_some hb).1
    by_cases hempty : a = ""
    · rw [hs', if_pos hempty] at hb
      cases hb
    · rw [hs', if_neg hempty, Option.some.injEq] at hb
      exact ⟨hempty, hb ▸ parentOf_namespaceOf a⟩

/-! ### Containment -/

theorem isOnChain_iff_encloses {a b : String} :
    isOnChain a b = true ↔ Encloses (Identity.namespaceOf a) (Identity.namespaceOf b) := by
  rw [isOnChain_iff, mem_ancestorNamespaces_iff]

theorem isOnChain_trans {a b c : String} (hab : isOnChain a b = true)
    (hbc : isOnChain b c = true) : isOnChain a c = true := by
  rw [isOnChain_iff_encloses] at *
  exact hab.trans hbc

theorem Encloses.length_le {outer inner : String} (h : Encloses outer inner) :
    outer.length ≤ inner.length := by
  rcases h with rfl | rfl | ⟨rest, hrest⟩
  · exact Nat.le_refl _
  · exact Nat.zero_le _
  · rw [← String.length_toList, ← String.length_toList, hrest, List.length_append]
    exact Nat.le_add_right _ _

theorem Encloses.antisymm {a b : String} (hab : Encloses a b) (hba : Encloses b a) : a = b := by
  have hle := hba.length_le
  rcases hab with rfl | rfl | ⟨rest, hrest⟩
  · rfl
  · exact (String.length_eq_zero_iff.mp (Nat.le_zero.mp hle)).symm
  · rw [← String.length_toList, ← String.length_toList, hrest, List.length_append,
      List.length_cons] at hle
    omega

/-- What encloses a namespace without a separator is that namespace or root. -/
theorem Encloses.eq_of_noSeparator {outer inner : String} (h : Encloses outer inner)
    (hsep : namespaceSeparator ∉ inner.toList) : outer = inner ∨ outer = "" := by
  rcases h with heq | hroot | ⟨rest, hrest⟩
  · exact Or.inl heq
  · exact Or.inr hroot
  · exact absurd (by rw [hrest]; simp) hsep

theorem validateNamespace_noSeparator {ns : String} (h : validateNamespace ns = .ok ()) :
    namespaceSeparator ∉ ns.toList := by
  rw [validateNamespace] at h
  split at h
  · rename_i hempty
    simp [hempty]
  · exact validateName_noSeparator h

/-- A tenant's name is on the chain of nobody in a namespace without a separator but its own. -/
theorem isOnChain_tenant {tenant a b : String} (ha : OfTenant tenant a)
    (hsep : namespaceSeparator ∉ (Identity.namespaceOf b).toList)
    (hne : tenant ≠ Identity.namespaceOf b) : isOnChain a b = false := by
  obtain ⟨hroot, -, rfl⟩ := ha
  rw [Bool.eq_false_iff]
  intro hchain
  rcases (isOnChain_iff_encloses.mp hchain).eq_of_noSeparator hsep with heq | hempty
  · exact hne heq
  · exact hroot hempty

theorem namespace_laws : NamespaceLaws where
  namespaceOf ns name h := namespaceOf_qualify h.noSeparator
  localNameOf ns name h := localNameOf_qualify h.noSeparator
  injective ns ns' name name' h h' heq := qualify_inj h h' heq
  key p q w v hw hv h := stepTypeKey_inj hw hv h
  registered p q w v hw hv h := registered_inj hw hv h
  walk ns := ⟨yields_ancestorNamespaces ns, fun _ h => walksUp h⟩
  refl := isOnChain_self
  trans a b c := isOnChain_trans
  antisymm a b hab hba :=
    (isOnChain_iff_encloses.mp hab).antisymm (isOnChain_iff_encloses.mp hba)
  root a b h := isOnChain_iff_encloses.mpr (Or.inr (Or.inl h))
  tenants tenant other a b ha hb hne := by
    obtain ⟨-, hvalid, hns⟩ := hb
    apply isOnChain_tenant ha
    · rw [hns]
      exact validateNamespace_noSeparator hvalid
    · rwa [hns]
  belowRoot tenant a b ha hb := by
    apply isOnChain_tenant ha
    · simp [hb]
    · rw [hb]
      exact ha.1

end Identity

end Gwead
