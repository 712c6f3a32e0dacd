import Mathlib.Algebra.Group.Int.Defs
import Mathlib.Algebra.GroupWithZero.Nat
import Mathlib.Data.List.Basic
import Mathlib.Data.String.Basic
import Mathlib.Order.Lattice

/-!
# Plugin identities

A plugin, a role and a step type are named in a namespace; the identity is the namespace, the
separator and the local name.  References resolve along the referring plugin's chain: its own
namespace, then each one enclosing it, then root.
-/

namespace Gwead.Identity

def namespaceSeparator : Char := '/'

def stepTypeSeparator : Char := '.'

def maxNameLen : Nat := 128

/-- The parts around the first separator. -/
def splitOnce (sep : Char) : List Char → Option (List Char × List Char)
  | [] => none
  | c :: cs => if c = sep then some ([], cs) else (splitOnce sep cs).map fun p => (c :: p.1, p.2)

/-- The parts around the last separator. -/
def rsplitOnce (sep : Char) : List Char → Option (List Char × List Char)
  | [] => none
  | c :: cs =>
    match rsplitOnce sep cs with
    | some p => some (c :: p.1, p.2)
    | none => if c = sep then some ([], cs) else none

/-- The parts between all the separators. -/
def splitAll (sep : Char) : List Char → List (List Char)
  | [] => [[]]
  | c :: cs =>
    if c = sep then [] :: splitAll sep cs
    else
      match splitAll sep cs with
      | [] => [[c]]
      | part :: parts => (c :: part) :: parts

inductive NameKind where
  | plugin | role | stepType | stepTypeSelector | namespace | nativeImplRef
  | nativeImplRefSegment | appCategorySegment | stepId
  deriving DecidableEq

def NameKind.display : NameKind → String
  | plugin => "plugin name"
  | role => "role name"
  | stepType => "step type name"
  | stepTypeSelector => "step type selector"
  | «namespace» => "namespace"
  | nativeImplRef => "native implRef"
  | nativeImplRefSegment => "native implRef segment"
  | appCategorySegment => "permission category segment"
  | stepId => "step id"

inductive NameError where
  | empty (kind : NameKind)
  | tooLong (kind : NameKind) (name : String) (len max : Nat)
  | invalidChar (kind : NameKind) (name : String) (ch : Char)
  | leadingDigit (kind : NameKind) (name : String)
  | qualifiedReserved (kind : NameKind) (name : String)
  | stepTypeNotOwned (name plugin : String)
  deriving DecidableEq

def NameError.display : NameError → String
  | empty kind => kind.display ++ " must not be empty"
  | tooLong kind name len max =>
    kind.display ++ " '" ++ name ++ "' is " ++ toString len ++ " bytes, over the " ++
      toString max ++ "-byte limit"
  | invalidChar kind name ch =>
    kind.display ++ " '" ++ name ++ "' contains invalid character '" ++ String.singleton ch ++
      "'; allowed: ASCII letters, digits, '_' and '-' (first character may not be '-')"
  | leadingDigit kind name =>
    kind.display ++ " '" ++ name ++ "' starts with a digit; a step id must start with an ASCII " ++
      "letter or '_' so that `$steps." ++ name ++ "` is parseable"
  | qualifiedReserved kind name =>
    kind.display ++ " '" ++ name ++ "' uses the reserved namespace separator '" ++
      String.singleton namespaceSeparator ++ "'. Qualified names are reserved syntax and are " ++
      "rejected so that deployed manifests cannot change meaning if the syntax is ever defined. " ++
      "References resolve along the referring plugin's own ancestor chain; the embedder supplies " ++
      "that namespace at registration"
  | stepTypeNotOwned name plugin =>
    "step type '" ++ name ++ "' may not be declared by plugin '" ++ plugin ++ "': a " ++
      "plugin-defined step type is named '<plugin>.<name>' under its own local name (here '" ++
      plugin ++ ".<name>'); dot-free names are reserved for the kernel"

def nameChar (first : Bool) (ch : Char) : Bool :=
  ch.isAlphanum || ch == '_' || (ch == '-' && !first)

/-- The first character a name may not have. -/
def invalidChar? : List Char → Option Char
  | [] => none
  | c :: cs => if nameChar true c then cs.find? fun d => !nameChar false d else some c

def validateName (kind : NameKind) (name : String) : Except NameError Unit :=
  if name = "" then .error (.empty kind)
  else if maxNameLen < name.utf8ByteSize then
    .error (.tooLong kind name name.utf8ByteSize maxNameLen)
  else if name.toList.contains namespaceSeparator then .error (.qualifiedReserved kind name)
  else if kind = .stepId ∧ (name.toList.head?.any Char.isDigit) = true then
    .error (.leadingDigit kind name)
  else
    match invalidChar? name.toList with
    | some ch => .error (.invalidChar kind name ch)
    | none => .ok ()

def validateReference (kind : NameKind) (reference : String) : Except NameError Unit :=
  validateName kind reference

def validateNamespace (ns : String) : Except NameError Unit :=
  if ns = "" then .ok () else validateName .namespace ns

def qualify (ns name : String) : String :=
  if ns = "" then name else ns ++ String.singleton namespaceSeparator ++ name

def namespaceOf (identity : String) : String :=
  match rsplitOnce namespaceSeparator identity.toList with
  | some (ns, _) => String.ofList ns
  | none => ""

def localNameOf (identity : String) : String :=
  match rsplitOnce namespaceSeparator identity.toList with
  | some (_, name) => String.ofList name
  | none => identity

def sameNamespace (a b : String) : Bool := namespaceOf a == namespaceOf b

/-- The namespace and each one enclosing it, root last.  Every step up is shorter, so a budget
of the name's length is never exhausted. -/
def ancestorsFrom : Nat → String → List String
  | 0, ns => [ns]
  | budget + 1, ns => ns :: if ns = "" then [] else ancestorsFrom budget (namespaceOf ns)

def ancestorNamespaces (ns : String) : List String := ancestorsFrom ns.length ns

/-- Upward only: the target's namespace is the other plugin's own or one enclosing it. -/
def isOnChain (target of : String) : Bool :=
  (ancestorNamespaces (namespaceOf of)).any fun ns => ns == namespaceOf target

def pluginReferenceCandidates (caller reference : String) : Except NameError (List String) :=
  match validateReference .plugin reference with
  | .error e => .error e
  | .ok () =>
    .ok ((ancestorNamespaces (namespaceOf caller)).map fun ns => qualify ns reference)

def validateStepTypeName (name declaringPlugin : String) (kernelOwned : Bool) :
    Except NameError Unit :=
  match splitOnce stepTypeSeparator name.toList with
  | none =>
    match validateName .stepType name with
    | .error e => .error e
    | .ok () => if kernelOwned then .ok () else .error (.stepTypeNotOwned name declaringPlugin)
  | some (owner, localName) =>
    match validateName .plugin (String.ofList owner) with
    | .error e => .error e
    | .ok () =>
      match validateName .stepType (String.ofList localName) with
      | .error e => .error e
      | .ok () =>
        if String.ofList owner = declaringPlugin then .ok ()
        else .error (.stepTypeNotOwned name declaringPlugin)

def validateStepTypeReference (name : String) : Except NameError Unit :=
  match splitOnce stepTypeSeparator name.toList with
  | none => validateName .stepType name
  | some (owner, localName) =>
    match validateName .plugin (String.ofList owner) with
    | .error e => .error e
    | .ok () => validateName .stepType (String.ofList localName)

/-- The first error of a list of checks. -/
def firstError {α ε : Type} (check : α → Except ε Unit) : List α → Except ε Unit
  | [] => .ok ()
  | a :: rest =>
    match check a with
    | .error e => .error e
    | .ok () => firstError check rest

def implRefSegments : Nat := 3

def validateImplRef (reference : String) : Except NameError Unit :=
  if reference = "" then .error (.empty .nativeImplRef)
  else if reference.toList.contains namespaceSeparator then
    .error (.qualifiedReserved .nativeImplRef reference)
  else
    firstError (fun segment => validateName .nativeImplRefSegment (String.ofList segment))
      (splitAll '.' reference.toList)

def implRefOwner (reference : String) : Option String :=
  let segments := splitAll '.' reference.toList
  if segments.length = implRefSegments then segments[1]?.map String.ofList else none

/-! ### Splitting -/

theorem rsplitOnce_eq_none {sep : Char} {cs : List Char} :
    rsplitOnce sep cs = none ↔ sep ∉ cs := by
  induction cs with
  | nil => simp [rsplitOnce]
  | cons c cs ih =>
    rw [rsplitOnce, List.mem_cons, not_or]
    cases hr : rsplitOnce sep cs with
    | some p =>
      have hcs : sep ∈ cs := by simpa [hr] using ih
      simp [hcs]
    | none =>
      have hcs : sep ∉ cs := ih.mp hr
      by_cases hc : c = sep
      · simp [hc]
      · simp [hc, hcs, Ne.symm hc]

theorem rsplitOnce_append {sep : Char} {b : List Char} (a : List Char) (h : sep ∉ b) :
    rsplitOnce sep (a ++ sep :: b) = some (a, b) := by
  induction a with
  | nil => simp [rsplitOnce, rsplitOnce_eq_none.mpr h]
  | cons c a ih => simp [rsplitOnce, ih]

theorem rsplitOnce_some {sep : Char} {cs a b : List Char} (h : rsplitOnce sep cs = some (a, b)) :
    cs = a ++ sep :: b ∧ sep ∉ b := by
  induction cs generalizing a with
  | nil => cases h
  | cons c cs ih =>
    rw [rsplitOnce] at h
    cases hr : rsplitOnce sep cs with
    | some p =>
      obtain ⟨a', b'⟩ := p
      rw [hr] at h
      cases h
      obtain ⟨hcs, hb⟩ := ih hr
      exact ⟨by rw [hcs, List.cons_append], hb⟩
    | none =>
      simp only [hr] at h
      split at h
      · rename_i hc
        cases h
        exact ⟨by rw [hc, List.nil_append], rsplitOnce_eq_none.mp hr⟩
      · cases h

theorem splitOnce_some {sep : Char} {cs a b : List Char} (h : splitOnce sep cs = some (a, b)) :
    cs = a ++ sep :: b := by
  induction cs generalizing a with
  | nil => cases h
  | cons c cs ih =>
    rw [splitOnce] at h
    by_cases hc : c = sep
    · simp only [hc, if_true, Option.some.injEq, Prod.mk.injEq] at h
      simp [← h.1, ← h.2, hc]
    · rw [if_neg hc, Option.map_eq_some_iff] at h
      obtain ⟨⟨a', b'⟩, hsplit, heq⟩ := h
      cases heq
      simp [ih hsplit]

theorem validateName_noSeparator {kind : NameKind} {name : String}
    (h : validateName kind name = .ok ()) : namespaceSeparator ∉ name.toList := by
  intro hmem
  have hcontains : name.toList.contains namespaceSeparator = true :=
    List.contains_iff_mem.mpr hmem
  unfold validateName at h
  simp only [hcontains, if_true] at h
  split at h
  · cases h
  · split at h <;> cases h

theorem validateStepTypeName_noSeparator {name plugin : String} {kernelOwned : Bool}
    (h : validateStepTypeName name plugin kernelOwned = .ok ()) :
    namespaceSeparator ∉ name.toList := by
  rw [validateStepTypeName] at h
  cases hsplit : splitOnce stepTypeSeparator name.toList with
  | none =>
    simp only [hsplit] at h
    cases hname : validateName .stepType name with
    | error e => simp [hname] at h
    | ok _ => exact validateName_noSeparator hname
  | some parts =>
    obtain ⟨owner, localName⟩ := parts
    simp only [hsplit] at h
    cases howner : validateName .plugin (String.ofList owner) with
    | error e => simp [howner] at h
    | ok _ =>
      cases hlocal : validateName .stepType (String.ofList localName) with
      | error e => simp [howner, hlocal] at h
      | ok _ =>
        have howner := validateName_noSeparator howner
        have hlocal := validateName_noSeparator hlocal
        rw [String.toList_ofList] at howner hlocal
        rw [splitOnce_some hsplit, List.mem_append, List.mem_cons]
        rintro (hmem | hmem | hmem)
        · exact howner hmem
        · cases hmem
        · exact hlocal hmem

/-! ### Identities -/

theorem toList_qualify {ns : String} (name : String) (h : ns ≠ "") :
    (qualify ns name).toList = ns.toList ++ namespaceSeparator :: name.toList := by
  simp [qualify, h, String.toList_append]

@[simp] theorem qualify_root (name : String) : qualify "" name = name := by simp [qualify]

theorem namespaceOf_qualify {ns name : String} (h : namespaceSeparator ∉ name.toList) :
    namespaceOf (qualify ns name) = ns := by
  by_cases hns : ns = ""
  · subst hns
    simp [namespaceOf, rsplitOnce_eq_none.mpr h]
  · rw [namespaceOf, toList_qualify name hns, rsplitOnce_append _ h]
    exact String.ofList_toList

theorem localNameOf_qualify {ns name : String} (h : namespaceSeparator ∉ name.toList) :
    localNameOf (qualify ns name) = name := by
  by_cases hns : ns = ""
  · subst hns
    simp [localNameOf, rsplitOnce_eq_none.mpr h]
  · rw [localNameOf, toList_qualify name hns, rsplitOnce_append _ h]
    exact String.ofList_toList

theorem qualify_injective (ns : String) : Function.Injective (qualify ns) := by
  intro a b h
  by_cases hns : ns = ""
  · simpa [hns] using h
  · have hl : (qualify ns a).toList = (qualify ns b).toList := congrArg String.toList h
    rw [toList_qualify a hns, toList_qualify b hns] at hl
    have hab : a.toList = b.toList := by simpa using hl
    exact String.toList_inj.mp hab

/-- A namespace is its own identity's namespace only at root. -/
theorem namespaceOf_length {ns : String} (h : ns ≠ "") : (namespaceOf ns).length < ns.length := by
  rw [namespaceOf]
  cases hr : rsplitOnce namespaceSeparator ns.toList with
  | none =>
    have hpos : 0 < ns.length := by
      rw [Nat.pos_iff_ne_zero]
      intro h0
      exact h (String.length_eq_zero_iff.mp h0)
    simpa using hpos
  | some p =>
    obtain ⟨a, b⟩ := p
    obtain ⟨hcs, -⟩ := rsplitOnce_some hr
    have hlen : ns.length = a.length + (b.length + 1) := by
      rw [← String.length_toList, hcs]
      simp
    simp only [String.length_ofList]
    omega

/-! ### Chains -/

theorem ancestorsFrom_of_le {budget : Nat} {ns : String} (h : ns.length ≤ budget) :
    ancestorsFrom budget ns = ancestorNamespaces ns := by
  suffices key : ∀ m n : Nat, ∀ ns : String, ns.length ≤ m → ns.length ≤ n →
      ancestorsFrom m ns = ancestorsFrom n ns from key _ _ ns h (Nat.le_refl _)
  intro m
  induction m with
  | zero =>
    intro n ns hm _
    have hempty : ns = "" := String.length_eq_zero_iff.mp (by omega)
    cases n <;> simp [ancestorsFrom, hempty]
  | succ m ih =>
    intro n ns hm hn
    by_cases hempty : ns = ""
    · cases n <;> simp [ancestorsFrom, hempty]
    · have hlt := namespaceOf_length hempty
      cases n with
      | zero => omega
      | succ n =>
        simp only [ancestorsFrom, if_neg hempty]
        rw [ih n _ (by omega) (by omega)]

@[simp] theorem ancestorNamespaces_root : ancestorNamespaces "" = [""] := rfl

theorem ancestorNamespaces_of_ne {ns : String} (h : ns ≠ "") :
    ancestorNamespaces ns = ns :: ancestorNamespaces (namespaceOf ns) := by
  have hlt := namespaceOf_length h
  rw [ancestorNamespaces]
  cases hn : ns.length with
  | zero => omega
  | succ n =>
    rw [ancestorsFrom, if_neg h, ancestorsFrom_of_le (by omega)]

theorem self_mem_ancestorNamespaces (ns : String) : ns ∈ ancestorNamespaces ns := by
  by_cases h : ns = ""
  · simp [h]
  · rw [ancestorNamespaces_of_ne h]
    exact List.mem_cons_self

/-- The namespace `outer` is `inner` itself or one that encloses it: root, or a prefix of
`inner` that ends at a separator. -/
def Encloses (outer inner : String) : Prop :=
  outer = inner ∨ outer = "" ∨ ∃ rest, inner.toList = outer.toList ++ namespaceSeparator :: rest

theorem Encloses.of_parent {outer inner : String} (h : Encloses outer (namespaceOf inner)) :
    Encloses outer inner := by
  rcases h with rfl | rfl | ⟨rest, hrest⟩
  · cases hr : rsplitOnce namespaceSeparator inner.toList with
    | none => exact Or.inr (Or.inl (by simp [namespaceOf, hr]))
    | some p =>
      obtain ⟨a, b⟩ := p
      refine Or.inr (Or.inr ⟨b, ?_⟩)
      simpa [namespaceOf, hr] using (rsplitOnce_some hr).1
  · exact Or.inr (Or.inl rfl)
  · cases hr : rsplitOnce namespaceSeparator inner.toList with
    | none => simp [namespaceOf, hr] at hrest
    | some p =>
      obtain ⟨a, b⟩ := p
      have ha : a = outer.toList ++ namespaceSeparator :: rest := by
        simpa [namespaceOf, hr] using hrest
      refine Or.inr (Or.inr ⟨rest ++ namespaceSeparator :: b, ?_⟩)
      rw [(rsplitOnce_some hr).1, ha]
      simp

/-- Every namespace of the chain encloses the one it starts from. -/
theorem encloses_of_mem_ancestorNamespaces (outer inner : String)
    (h : outer ∈ ancestorNamespaces inner) : Encloses outer inner := by
  induction hn : inner.length using Nat.strong_induction_on generalizing inner with
  | _ n ih =>
    by_cases hempty : inner = ""
    · subst hempty
      exact Or.inl (by simpa using h)
    · rw [ancestorNamespaces_of_ne hempty] at h
      rcases List.mem_cons.mp h with rfl | h
      · exact Or.inl rfl
      · have hlt := namespaceOf_length hempty
        exact (ih _ (hn ▸ hlt) _ h rfl).of_parent

theorem isOnChain_iff {target of : String} :
    isOnChain target of = true ↔ namespaceOf target ∈ ancestorNamespaces (namespaceOf of) := by
  simp [isOnChain]

theorem isOnChain_self (identity : String) : isOnChain identity identity = true :=
  isOnChain_iff.mpr (self_mem_ancestorNamespaces _)

end Gwead.Identity
