import Gwead.Lib.Segments
import Gwead.PermissionGrammar

/-!
# What a grant covers

The checks of a host and of a blob key against the grants, and what a manifest's list of permissions
comes to: which entries of it cover a request.
-/

namespace Gwead

open Identity

/-! ### Matching -/

/-- ASCII letters in lower case, every other character as it is. -/
def toAsciiLowercase (s : String) : List Char := s.toList.map Char.toLower

def eqIgnoreAsciiCase (a b : String) : Bool := toAsciiLowercase a == toAsciiLowercase b

def HostPattern.matches : HostPattern → String → Bool
  | any, _ => true
  | exact h, host => eqIgnoreAsciiCase h host
  | suffix s, host =>
    if eqIgnoreAsciiCase host s then true
    else (toAsciiLowercase ("." ++ s)).isSuffixOf (toAsciiLowercase host)

def PathPattern.matches : PathPattern → String → Bool
  | any, _ => true
  | exact p, key => p == key
  | prefixed s, key => if key = s then true else (s ++ "/").toList.isPrefixOf key.toList

def checkNetworkEgress (grants : List Permission) (host : String) : PermissionCheck :=
  .ofGrants grants
    (fun
      | .networkEgress pattern => pattern.matches host
      | _ => false)
    ("network:egress:" ++ host)

def checkBlobs (grants : List Permission) (op : BlobOp) (key : String) : PermissionCheck :=
  .ofGrants grants
    (fun
      | .blobs grantOp pattern => grantOp == op && pattern.matches key
      | _ => false)
    ("blobs:" ++ op.display ++ ":" ++ key)

/-! ### Embedder categories -/

/-- A category name is checked at boot. -/
def validateAppCategoryName (name : String) : Except String Unit :=
  if name = "" then .error "category name is empty"
  else if ¬ name.toList.contains '.' then
    .error ("'" ++ name ++ "' has no dot. Dot-free category names are reserved for the kernel, so " ++
      "no manifest could ever name this one — use a namespaced form such as 'acme." ++ name ++ "'")
  else if name.toList.contains ':' then
    .error ("'" ++ name ++ "' contains ':', which separates the category from its value. Declare " ++
      "the category alone: '" ++ (Permission.splitColon name).1 ++ "'")
  else
    match firstError (fun segment => validateName .appCategorySegment (String.ofList segment))
        (splitAll '.' name.toList) with
    | .error e => .error e.display
    | .ok () => .ok ()

/-- The categories of a configuration after one more is declared: the last declaration of a name
is the one that stands. -/
def definingAppPermissionCategoryAs (categories : List AppPermissionCategory)
    (category : AppPermissionCategory) : List AppPermissionCategory :=
  categories.filter (fun existing => existing.name != category.name) ++ [category]

/-! ### Labels and segments -/

/-- The labels of a host name, in lower case. -/
def hostLabels (host : String) : List (List Char) := (toAsciiLowercase host).splitOn '.'

/-- The segments of a blob key. -/
def keySegments (key : String) : List (List Char) := key.toList.splitOn '/'

/-- A host is covered by a name of all its labels, or by the last ones of them. -/
def HostPattern.Covers : HostPattern → String → Prop
  | any, _ => True
  | exact h, host => hostLabels h = hostLabels host
  | suffix s, host => hostLabels s <:+ hostLabels host

/-- A key is covered by a name of all its segments, or by the first ones of them. -/
def PathPattern.Covers : PathPattern → String → Prop
  | any, _ => True
  | exact p, key => keySegments p = keySegments key
  | prefixed s, key => keySegments s <+: keySegments key

theorem HostPattern.matches_iff {pattern : HostPattern} {host : String} :
    pattern.matches host = true ↔ pattern.Covers host := by
  cases pattern with
  | any => exact iff_of_true rfl trivial
  | exact h =>
    rw [HostPattern.matches, Covers, eqIgnoreAsciiCase, beq_iff_eq]
    exact (Segments.splitOn_injective.eq_iff).symm
  | suffix s =>
    have hdot : toAsciiLowercase ("." ++ s) = '.' :: toAsciiLowercase s := by
      simp [toAsciiLowercase, String.toList_append]
    rw [HostPattern.matches, Covers, hostLabels, hostLabels, Segments.suffix_iff, hdot]
    by_cases heq : toAsciiLowercase host = toAsciiLowercase s
    · simp [eqIgnoreAsciiCase, heq]
    · simp [eqIgnoreAsciiCase, heq]

theorem PathPattern.matches_iff {pattern : PathPattern} {key : String} :
    pattern.matches key = true ↔ pattern.Covers key := by
  cases pattern with
  | any => exact iff_of_true rfl trivial
  | exact p =>
    rw [PathPattern.matches, Covers, beq_iff_eq]
    exact (Segments.splitOn_injective.eq_iff.trans String.toList_inj).symm
  | prefixed s =>
    have hslash : (s ++ "/").toList = s.toList ++ ['/'] := by simp
    rw [PathPattern.matches, Covers, keySegments, keySegments, Segments.prefix_iff, hslash,
      String.toList_inj]
    by_cases heq : key = s
    · simp [heq]
    · simp [heq]

theorem checkNetworkEgress_granted {grants : List Permission} {host : String} :
    (checkNetworkEgress grants host).isGranted = true ↔
      ∃ pattern, Permission.networkEgress pattern ∈ grants ∧ pattern.Covers host := by
  rw [checkNetworkEgress, PermissionCheck.isGranted_ofGrants]
  constructor
  · rintro ⟨grant, hmem, hcovers⟩
    cases grant with
    | networkEgress pattern => exact ⟨pattern, hmem, HostPattern.matches_iff.mp hcovers⟩
    | _ => cases hcovers
  · rintro ⟨pattern, hmem, hcovers⟩
    exact ⟨_, hmem, HostPattern.matches_iff.mpr hcovers⟩

theorem checkBlobs_granted {grants : List Permission} {op : BlobOp} {key : String} :
    (checkBlobs grants op key).isGranted = true ↔
      ∃ pattern, Permission.blobs op pattern ∈ grants ∧ pattern.Covers key := by
  rw [checkBlobs, PermissionCheck.isGranted_ofGrants]
  constructor
  · rintro ⟨grant, hmem, hcovers⟩
    cases grant with
    | blobs grantOp pattern =>
      obtain ⟨hop, hmatch⟩ := Bool.and_eq_true_iff.mp hcovers
      rw [beq_iff_eq] at hop
      subst hop
      exact ⟨pattern, hmem, PathPattern.matches_iff.mp hmatch⟩
    | _ => cases hcovers
  · rintro ⟨pattern, hmem, hcovers⟩
    exact ⟨_, hmem, Bool.and_eq_true_iff.mpr
      ⟨beq_self_eq_true op, PathPattern.matches_iff.mpr hcovers⟩⟩

/-! ### The list of a manifest -/

/-- A permission of an embedder category is one of a declared category, with a value it accepts. -/
def Permission.Addressed (categories : List AppPermissionCategory) : Permission → Prop
  | appDefined kind value => ∃ category,
      categories.find? (fun category => category.name == kind) = some category ∧
        category.checkValue value = .ok ()
  | _ => True

theorem Permission.checkAppCategory_ok {categories : List AppPermissionCategory} {raw : String}
    {p : Permission} : checkAppCategory categories raw p = .ok () ↔ p.Addressed categories := by
  cases p with
  | appDefined kind value =>
    rw [checkAppCategory, Addressed]
    cases hfind : categories.find? (fun category => category.name == kind) with
    | none => simp
    | some category =>
      cases hcheck : category.checkValue value with
      | error e => simp [hcheck]
      | ok _ => simp [hcheck]
  | _ => exact iff_of_true rfl trivial

theorem Permission.parseManifestPermission_iff {categories : List AppPermissionCategory}
    {entry : String} {p : Permission} : parseManifestPermission categories entry = .ok p ↔
      p.WellFormed ∧ p.text.toList = trim entry.toList ∧ p.Addressed categories := by
  rw [parseManifestPermission, ← and_assoc, ← parsePermission_iff]
  cases hparse : parsePermission entry with
  | error e => exact iff_of_false (fun h => nomatch h) fun h => nomatch h.1
  | ok q =>
    refine bind_unit_ok.trans ?_
    rw [checkAppCategory_ok]
    constructor
    · rintro ⟨haddressed, hval⟩
      cases hval
      exact ⟨rfl, haddressed⟩
    · rintro ⟨hval, haddressed⟩
      cases hval
      exact ⟨haddressed, rfl⟩

theorem mapM_ok {α β ε : Type} {f : α → Except ε β} {as : List α} {bs : List β} :
    as.mapM f = .ok bs ↔ List.Forall₂ (fun a b => f a = .ok b) as bs := by
  induction as generalizing bs with
  | nil =>
    rw [List.mapM_nil]
    constructor
    · intro h
      cases h
      exact .nil
    · intro h
      cases h
      rfl
  | cons a as ih =>
    rw [List.mapM_cons]
    cases ha : f a with
    | error e =>
      refine iff_of_false (fun h => nomatch h) fun h => ?_
      cases h with
      | cons hb _ => rw [ha] at hb; cases hb
    | ok b =>
      refine (Permission.bind_pure_ok (r := as.mapM f)).trans ?_
      constructor
      · rintro ⟨rest, hrest, rfl⟩
        exact .cons ha (ih.mp hrest)
      · intro h
        cases h with
        | cons hb hrest =>
          rw [ha] at hb
          cases hb
          exact ⟨_, ih.mpr hrest, rfl⟩

/-- A list of permissions is accepted exactly when every entry is how a well-formed permission is
written, an embedder's one of a declared category. -/
theorem Permission.parseManifestPermissions_iff {categories : List AppPermissionCategory}
    {raw : List String} {grants : List Permission} :
    parseManifestPermissions raw categories = .ok grants ↔
      List.Forall₂ (fun entry p => p.WellFormed ∧ p.text.toList = trim entry.toList ∧
        p.Addressed categories) raw grants := by
  rw [parseManifestPermissions, mapM_ok]
  simp only [parseManifestPermission_iff]

theorem mem_grants_iff {categories : List AppPermissionCategory} {raw : List String}
    {grants : List Permission}
    (h : Permission.parseManifestPermissions raw categories = .ok grants) {p : Permission} :
    p ∈ grants ↔ ∃ entry ∈ raw, Permission.parsePermission entry = .ok p ∧
      p.Addressed categories := by
  rw [Permission.parseManifestPermissions_iff] at h
  induction h with
  | nil => simp
  | cons hp _ ih =>
    rw [List.mem_cons, ih, List.exists_mem_cons_iff]
    refine or_congr ⟨?_, ?_⟩ Iff.rfl
    · rintro rfl
      exact ⟨Permission.parsePermission_iff.mpr ⟨hp.1, hp.2.1⟩, hp.2.2⟩
    · rintro ⟨hparse, -⟩
      rw [Permission.parsePermission_iff.mpr ⟨hp.1, hp.2.1⟩] at hparse
      exact (Except.ok.inj hparse).symm

/-- What the checks grant, told by the entries of the manifest. -/
structure GrantedByEntries (raw : List String) (grants : List Permission) : Prop where
  egress : ∀ host, (checkNetworkEgress grants host).isGranted = true ↔
    ∃ entry ∈ raw, ∃ pattern : HostPattern, pattern.WellFormed ∧
      trim entry.toList = ("network:egress:" ++ pattern.text).toList ∧ pattern.Covers host
  blobs : ∀ op key, (checkBlobs grants op key).isGranted = true ↔
    ∃ entry ∈ raw, ∃ pattern : PathPattern, pattern.WellFormed ∧
      trim entry.toList = ("blobs:" ++ op.display ++ ":" ++ pattern.text).toList ∧
        pattern.Covers key
  stepType : ∀ name, (checkStepType grants name).isGranted = true ↔
    IsStepTypeName name.toList ∧
      ∃ entry ∈ raw, trim entry.toList = ("step_type:" ++ name).toList
  invokeRole : ∀ role, (checkInvokeRole grants role).isGranted = true ↔
    ∃ entry ∈ raw, trim entry.toList = "invoke:role:*".toList ∨
      IsName role.toList ∧ trim entry.toList = ("invoke:role:" ++ role).toList

section Entries

variable {categories : List AppPermissionCategory} {raw : List String} {grants : List Permission}

/-- A grant of the kernel's comes from an entry that spells it out. -/
theorem mem_grants_kernel (h : Permission.parseManifestPermissions raw categories = .ok grants)
    {p : Permission} {text : String} (htext : p.text.toList = text.toList)
    (hkernel : p.Addressed categories) :
    p ∈ grants ↔ p.WellFormed ∧ ∃ entry ∈ raw, trim entry.toList = text.toList := by
  rw [mem_grants_iff h]
  constructor
  · rintro ⟨entry, hentry, hparse, -⟩
    obtain ⟨hwf, hsame⟩ := Permission.parsePermission_iff.mp hparse
    exact ⟨hwf, entry, hentry, hsame.symm.trans htext⟩
  · rintro ⟨hwf, entry, hentry, hsame⟩
    exact ⟨entry, hentry, Permission.parsePermission_iff.mpr ⟨hwf, htext.trans hsame.symm⟩, hkernel⟩

/-- The checks grant what an entry of the manifest covers, host names label by label and keys
segment by segment, and nothing else. -/
theorem granted_by_entries (h : Permission.parseManifestPermissions raw categories = .ok grants) :
    GrantedByEntries raw grants where
  egress host := by
    rw [checkNetworkEgress_granted]
    constructor
    · rintro ⟨pattern, hmem, hcovers⟩
      have htext : (Permission.networkEgress pattern).text.toList =
          ("network:egress:" ++ pattern.text).toList := by
        simp [Permission.text, Permission.category, Permission.rest]
      obtain ⟨hwf, entry, hentry, hsame⟩ := (mem_grants_kernel h htext trivial).mp hmem
      exact ⟨entry, hentry, pattern, hwf, hsame, hcovers⟩
    · rintro ⟨entry, hentry, pattern, hwf, hsame, hcovers⟩
      have htext : (Permission.networkEgress pattern).text.toList =
          ("network:egress:" ++ pattern.text).toList := by
        simp [Permission.text, Permission.category, Permission.rest]
      exact ⟨pattern, (mem_grants_kernel h htext trivial).mpr ⟨hwf, entry, hentry, hsame⟩, hcovers⟩
  blobs op key := by
    rw [checkBlobs_granted]
    constructor
    · rintro ⟨pattern, hmem, hcovers⟩
      have htext : (Permission.blobs op pattern).text.toList =
          ("blobs:" ++ op.display ++ ":" ++ pattern.text).toList := by
        simp [Permission.text, Permission.category, Permission.rest]
      obtain ⟨hwf, entry, hentry, hsame⟩ := (mem_grants_kernel h htext trivial).mp hmem
      exact ⟨entry, hentry, pattern, hwf, hsame, hcovers⟩
    · rintro ⟨entry, hentry, pattern, hwf, hsame, hcovers⟩
      have htext : (Permission.blobs op pattern).text.toList =
          ("blobs:" ++ op.display ++ ":" ++ pattern.text).toList := by
        simp [Permission.text, Permission.category, Permission.rest]
      exact ⟨pattern, (mem_grants_kernel h htext trivial).mpr ⟨hwf, entry, hentry, hsame⟩, hcovers⟩
  stepType name := by
    have htext : (Permission.stepType name).text.toList = ("step_type:" ++ name).toList := by
      simp [Permission.text, Permission.category, Permission.rest]
    rw [checkStepType_granted]
    exact mem_grants_kernel h htext trivial
  invokeRole role := by
    have htext : ∀ pattern, (Permission.invokeRole pattern).text.toList =
        ("invoke:role:" ++ pattern.text).toList := fun pattern => by
      simp [Permission.text, Permission.category, Permission.rest]
    rw [checkInvokeRole_granted]
    constructor
    · rintro ⟨pattern, hmem, hmatches⟩
      obtain ⟨hwf, entry, hentry, hsame⟩ := (mem_grants_kernel h (htext pattern) trivial).mp hmem
      cases pattern with
      | any => exact ⟨entry, hentry, Or.inl hsame⟩
      | exact name =>
        have hname : name = role := beq_iff_eq.mp hmatches
        subst hname
        exact ⟨entry, hentry, Or.inr ⟨hwf, hsame⟩⟩
    · rintro ⟨entry, hentry, hsame | ⟨hname, hsame⟩⟩
      · exact ⟨.any, (mem_grants_kernel h (htext .any) trivial).mpr
          ⟨trivial, entry, hentry, hsame⟩, rfl⟩
      · exact ⟨.exact role, (mem_grants_kernel h (htext (.exact role)) trivial).mpr
          ⟨hname, entry, hentry, hsame⟩, beq_self_eq_true role⟩

end Entries

theorem granted_by_entries_example : GrantedByEntries ["network:egress:*.example.com"]
    [.networkEgress (.suffix "example.com")] := by
  have hparse : Permission.parseManifestPermissions ["network:egress:*.example.com"] [] =
      .ok [.networkEgress (.suffix "example.com")] :=
    Permission.parseManifestPermissions_iff.mpr
      (.cons ⟨⟨by decide, by decide, by decide⟩, by decide, trivial⟩ .nil)
  exact granted_by_entries hparse

/-! ### The categories a manifest can name -/

theorem validateAppCategoryName_ok {name : String} (h : validateAppCategoryName name = .ok ()) :
    ':' ∉ name.toList ∧ '.' ∈ name.toList ∧
      ∀ segment ∈ splitAll '.' name.toList, IsName segment := by
  unfold validateAppCategoryName at h
  split at h
  · cases h
  · split at h
    · cases h
    · rename_i hdot
      split at h
      · cases h
      · rename_i hcolon
        cases hsegments : firstError
            (fun segment => validateName .appCategorySegment (String.ofList segment))
            (splitAll '.' name.toList) with
        | error e => simp [hsegments] at h
        | ok _ =>
          refine ⟨by simpa using hcolon, by simpa using hdot, fun segment hmem => ?_⟩
          have hname := firstError_eq_ok.mp hsegments segment hmem
          rwa [validateName_iff_isName (by decide), String.toList_ofList] at hname

theorem find?_defining (categories : List AppPermissionCategory)
    (category : AppPermissionCategory) :
    (definingAppPermissionCategoryAs categories category).find? (·.name == category.name) =
      some category := by
  rw [definingAppPermissionCategoryAs, List.find?_append]
  have hnone : (categories.filter (fun existing => existing.name != category.name)).find?
      (·.name == category.name) = none := by
    rw [List.find?_eq_none]
    intro existing hmem hname
    have hne := (List.mem_filter.mp hmem).2
    rw [beq_iff_eq.mp hname] at hne
    simp at hne
  rw [hnone]
  simp

/-- Whatever was declared before, a category of a valid name can be granted: an entry of it is
accepted with exactly the values that the category accepts. -/
theorem declared_category_grantable (categories : List AppPermissionCategory)
    {category : AppPermissionCategory} (hname : validateAppCategoryName category.name = .ok ())
    {value : String} (hne : value ≠ "")
    (htrim : value.toList.rdropWhile isWhiteSpace = value.toList) :
    Permission.parseManifestPermission (definingAppPermissionCategoryAs categories category)
        (category.name ++ ":" ++ value) = .ok (.appDefined category.name value) ↔
      category.checkValue value = .ok () := by
  obtain ⟨hcolon, hdot, hsegments⟩ := validateAppCategoryName_ok hname
  have hplain : ∀ c ∈ category.name.toList, isWhiteSpace c = false := by
    refine plain_of_dotted fun c hc => ?_
    by_cases hdotc : c = '.'
    · exact Or.inr hdotc
    · obtain ⟨segment, hmem, hin⟩ := mem_of_mem_splitAll hdotc hc
      exact Or.inl ((hsegments segment hmem).later c hin)
  have htext : (Permission.appDefined category.name value).text.toList =
      trim (category.name ++ ":" ++ value).toList := by
    have hshape : (category.name ++ ":" ++ value).toList =
        category.name.toList ++ ':' :: value.toList := by simp
    rw [hshape, trim_colon, htrim, dropWhile_of_plain hplain, toList_text]
    rfl
  rw [Permission.parseManifestPermission_iff]
  constructor
  · rintro ⟨-, -, found, hfind, hcheck⟩
    rw [find?_defining, Option.some.injEq] at hfind
    rw [hfind]
    exact hcheck
  · intro hcheck
    exact ⟨⟨hcolon, hdot, hne⟩, htext, category, find?_defining categories category, hcheck⟩

/-- Only what is published may be granted. -/
def publishEvents : AppPermissionCategory where
  name := "acme.events"
  validator := some fun value =>
    if "publish:".toList.isPrefixOf value.toList then .ok () else .error "publish only"

/-- A category of the same name that grants nothing, and another. -/
def earlierCategories : List AppPermissionCategory :=
  [{ name := "acme.events", validator := some fun _ => .error "closed" },
    { name := "acme.mail", validator := none }]

/-- The category declared last grants the value its own validator accepts and no other. -/
theorem declared_category_grantable_events :
    Permission.parseManifestPermission
        (definingAppPermissionCategoryAs earlierCategories publishEvents)
        (publishEvents.name ++ ":" ++ "publish:x") = .ok (.appDefined publishEvents.name "publish:x") ∧
      Permission.parseManifestPermission
        (definingAppPermissionCategoryAs earlierCategories publishEvents)
        (publishEvents.name ++ ":" ++ "drop:x") ≠ .ok (.appDefined publishEvents.name "drop:x") := by
  have hname : validateAppCategoryName publishEvents.name = .ok () := by decide +kernel
  constructor
  · exact (declared_category_grantable earlierCategories hname (by decide) (by decide)).mpr
      (by decide)
  · intro hgranted
    have haccepted := (declared_category_grantable earlierCategories hname (by decide)
      (by decide)).mp hgranted
    exact absurd haccepted (by decide)

end Gwead
