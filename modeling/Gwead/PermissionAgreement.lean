import Gwead.PermissionFormats

/-!
# The meta-schema against the parser

A manifest read from JSON meets the meta-schema before the parser, one handed over as a value the
parser alone.  Both describe texts of permissions; where the two descriptions part is told here.
-/

namespace Gwead

open Identity MetaSchema

/-- Whether text that is added at the end becomes part of the value. -/
def Permission.OpenEnded : Permission → Prop
  | networkEgress .any => False
  | networkEgress _ => True
  | blobs _ (.exact _) => True
  | appDefined _ _ => True
  | _ => False

def Blank (s : String) : Prop := ∀ c ∈ s.toList, isWhiteSpace c = true

/-- A permission of the meta-schema that is none once it is trimmed, or has a port. -/
def Permission.Vain : Permission → Prop
  | networkEgress (.suffix s) => ':' ∈ s.toList ∨ Blank s
  | networkEgress (.exact s) => ':' ∈ s.toList ∨ Blank s
  | blobs _ (.exact s) => Blank s
  | appDefined _ value => Blank value
  | _ => False

/-- The meta-schema takes the text, the parser does not. -/
def SchemaOnly (s : String) : Prop :=
  OneLine s.toList ∧
    ((∃ p, PermissionForm p ∧ p.text = s ∧ p.Vain) ∨
      ∃ a b, b ≠ [] ∧ s.toList = ':' :: (a ++ ':' :: b))

/-- The parser takes the text, the meta-schema does not. -/
def ParserOnly (s : String) : Prop :=
  ∃ p : Permission, p.WellFormed ∧ p.text.toList = trim s.toList ∧
    (¬ OneLine s.toList ∨
      (p.category ∈ Permission.kernelCategories ∧ s.toList.takeWhile isWhiteSpace ≠ []) ∨
      (¬ p.OpenEnded ∧ s.toList.rtakeWhile isWhiteSpace ≠ []) ∨
      ∃ op, p = .blobs op (.prefixed ""))

/-- The categories of the kernel start with no space and have no dot. -/
theorem kernelCategory_plain : ∀ category ∈ Permission.kernelCategories,
    category.toList.dropWhile isWhiteSpace = category.toList ∧ '.' ∉ category.toList := by decide

theorem Permission.WellFormed.network {p : Permission} (hwf : p.WellFormed)
    (h : p.category = "network") : ∃ host, p = .networkEgress host := by
  cases p with
  | networkEgress host => exact ⟨host, rfl⟩
  | appDefined kind value =>
    exact absurd (show kind ∈ kernelCategories by rw [show kind = "network" from h]; decide)
      (not_mem_kernelCategories hwf.2.1)
  | _ => simp [category] at h

theorem Permission.WellFormed.blobs {p : Permission} (hwf : p.WellFormed)
    (h : p.category = "blobs") : ∃ op path, p = .blobs op path := by
  cases p with
  | blobs op path => exact ⟨op, path, rfl⟩
  | appDefined kind value =>
    exact absurd (show kind ∈ kernelCategories by rw [show kind = "blobs" from h]; decide)
      (not_mem_kernelCategories hwf.2.1)
  | _ => simp [category] at h

/-! ### What the parser makes of a text of the meta-schema -/

theorem wellFormed_of_closed {p : Permission} (h : PermissionForm p) (hopen : ¬ p.OpenEnded) :
    p.WellFormed := by
  cases p with
  | networkEgress host =>
    cases host with
    | any => trivial
    | suffix x => exact absurd trivial hopen
    | exact x => exact absurd trivial hopen
  | blobs op path =>
    cases path with
    | any => trivial
    | prefixed x => exact h.2
    | exact x => exact absurd trivial hopen
  | appDefined kind value => exact absurd trivial hopen
  | _ => exact h

theorem IsName.plain {cs : List Char} (h : IsName cs) : ∀ c ∈ cs, isWhiteSpace c = false :=
  fun c hc => notWhiteSpace_of_nameChar (Or.inl (h.later c hc))

theorem NamePattern.WellFormed.plain {p : NamePattern} (h : p.WellFormed) :
    ∀ c ∈ p.text.toList, isWhiteSpace c = false := by
  cases p with
  | any => decide
  | exact x => exact IsName.plain h

/-- What ends with its last segment has nothing to trim there. -/
theorem rdropWhile_closed {p : Permission} (hwf : p.WellFormed) (hopen : ¬ p.OpenEnded) :
    p.rest.toList.rdropWhile isWhiteSpace = p.rest.toList := by
  have happend : ∀ {a b : List Char}, (∀ c ∈ a, isWhiteSpace c = false) →
      (∀ c ∈ b, isWhiteSpace c = false) → ∀ c ∈ a ++ b, isWhiteSpace c = false :=
    fun ha hb c hc => (List.mem_append.mp hc).elim (ha c) (hb c)
  cases p with
  | networkEgress host =>
    cases host with
    | any => exact rdropWhile_of_plain (by decide)
    | suffix x => exact absurd trivial hopen
    | exact x => exact absurd trivial hopen
  | blobs op path =>
    cases path with
    | any => cases op <;> exact rdropWhile_of_plain (by decide)
    | prefixed x =>
      have hshape : (Permission.blobs op (.prefixed x)).rest.toList =
          (op.display.toList ++ ':' :: (x.toList ++ ['/'])) ++ ['*'] := by
        simp [Permission.rest, PathPattern.text]
      rw [hshape]
      exact List.rdropWhile_concat_neg _ _ _ (by decide)
    | exact x => exact absurd trivial hopen
  | stepType name => exact rdropWhile_of_plain (plain_of_dotted (IsStepTypeName.nameChars hwf))
  | invokePlugin pattern =>
    refine rdropWhile_of_plain ?_
    rw [Permission.rest, String.toList_append]
    exact happend (by decide) (NamePattern.WellFormed.plain hwf)
  | invokeRole pattern =>
    refine rdropWhile_of_plain ?_
    rw [Permission.rest, String.toList_append]
    exact happend (by decide) (NamePattern.WellFormed.plain hwf)
  | provideStepType ty selector =>
    refine rdropWhile_of_plain ?_
    have htail : (ty ++ selectorText selector).toList =
        ty.toList ++ (selectorText selector).toList := String.toList_append
    rw [Permission.rest, String.toList_append, htail]
    refine happend (by decide) (happend (plain_of_dotted hwf.1.nameChars) ?_)
    cases selector with
    | none => simp [selectorText]
    | some sel =>
      rw [selectorText, String.toList_append]
      exact happend (by decide) (hwf.2 sel rfl).plain
  | bindNativeImpl implRef =>
    refine rdropWhile_of_plain ?_
    rw [Permission.rest, String.toList_append]
    exact happend (by decide) (plain_of_dotted (IsImplRef.nameChars hwf))
  | appDefined kind value => exact absurd trivial hopen

def trimEnd (s : String) : String := String.ofList (s.toList.rdropWhile isWhiteSpace)

theorem toList_trimEnd (s : String) :
    (trimEnd s).toList = s.toList.rdropWhile isWhiteSpace := String.toList_ofList

theorem trimEnd_ne_iff {s : String} : trimEnd s ≠ "" ↔ ¬ Blank s := by
  rw [ne_eq, ← String.toList_inj, toList_trimEnd, Blank, ← List.rdropWhile_eq_nil_iff]
  rfl

theorem GlobFree.trimEnd {s : String} (h : GlobFree s) : GlobFree (trimEnd s) := fun c hc => by
  rw [toList_trimEnd] at hc
  exact h c ((List.rdropWhile_prefix _ s.toList).subset hc)

theorem noColon_trimEnd {s : String} : ':' ∉ (trimEnd s).toList ↔ ':' ∉ s.toList := by
  rw [toList_trimEnd, mem_rdropWhile_iff (by decide)]

/-- The rests of the open-ended forms, their value after what is never trimmed. -/
theorem rdropWhile_rest_suffix (x : String) :
    (Permission.networkEgress (.suffix x)).rest.toList.rdropWhile isWhiteSpace =
      (Permission.networkEgress (.suffix (trimEnd x))).rest.toList := by
  have hshape : ∀ y : String, (Permission.networkEgress (.suffix y)).rest.toList =
      "egress:*".toList ++ '.' :: y.toList := by simp [Permission.rest, HostPattern.text]
  rw [hshape, hshape, rdropWhile_append_stop (by decide), toList_trimEnd]

theorem rdropWhile_rest_exactHost (x : String) :
    (Permission.networkEgress (.exact x)).rest.toList.rdropWhile isWhiteSpace =
      (Permission.networkEgress (.exact (trimEnd x))).rest.toList := by
  have hshape : ∀ y : String, (Permission.networkEgress (.exact y)).rest.toList =
      "egress".toList ++ ':' :: y.toList := by simp [Permission.rest, HostPattern.text]
  rw [hshape, hshape, rdropWhile_append_stop (by decide), toList_trimEnd]

theorem rdropWhile_rest_exactPath (op : BlobOp) (x : String) :
    (Permission.blobs op (.exact x)).rest.toList.rdropWhile isWhiteSpace =
      (Permission.blobs op (.exact (trimEnd x))).rest.toList := by
  have hshape : ∀ y : String, (Permission.blobs op (.exact y)).rest.toList =
      op.display.toList ++ ':' :: y.toList := by simp [Permission.rest, PathPattern.text]
  rw [hshape, hshape, rdropWhile_append_stop (by decide), toList_trimEnd]

theorem host_text_inj {h h' : HostPattern}
    (heq : (Permission.networkEgress h).rest = (Permission.networkEgress h').rest) :
    h.text = h'.text := by
  have hshape : ∀ q : HostPattern, (Permission.networkEgress q).rest.toList =
      "egress:".toList ++ q.text.toList := by simp [Permission.rest]
  have hlist := congrArg String.toList heq
  rw [hshape, hshape] at hlist
  exact String.toList_inj.mp (List.append_cancel_left hlist)

theorem path_text_inj {op op' : BlobOp} {p p' : PathPattern}
    (heq : (Permission.blobs op p).rest = (Permission.blobs op' p').rest) :
    op.display = op'.display ∧ p.text = p'.text := by
  have hcolon : ∀ o : BlobOp, ':' ∉ o.display.toList := by intro o; cases o <;> decide
  have hshape : ∀ (o : BlobOp) (q : PathPattern), (Permission.blobs o q).rest.toList =
      o.display.toList ++ ':' :: q.text.toList := by simp [Permission.rest]
  have hlist := congrArg String.toList heq
  rw [hshape, hshape] at hlist
  have hsplit : splitOnce ':' (op.display.toList ++ ':' :: p.text.toList) =
      some (op.display.toList, p.text.toList) := splitOnce_iff.mpr ⟨hcolon op, rfl⟩
  rw [hlist, splitOnce_iff.mpr ⟨hcolon op', rfl⟩, Option.some.injEq, Prod.mk.injEq] at hsplit
  exact ⟨(String.toList_inj.mp hsplit.1).symm, (String.toList_inj.mp hsplit.2).symm⟩

/-- A host is not what a host with a port, or nothing but space, is trimmed to. -/
theorem host_text_ne {host : HostPattern} (hwf : host.WellFormed) {x : String} (hglob : GlobFree x)
    (hvain : ':' ∈ x.toList ∨ Blank x) :
    host.text ≠ (HostPattern.suffix (trimEnd x)).text ∧
      host.text ≠ (HostPattern.exact (trimEnd x)).text := by
  have hbad : ∀ y : String, y = trimEnd x → y ≠ "" → ':' ∉ y.toList → False := by
    rintro _ rfl hne hcolon
    rcases hvain with hport | hblank
    · exact noColon_trimEnd.mp hcolon hport
    · exact trimEnd_ne_iff.mp hne hblank
  have hnotHead : ∀ cs, (trimEnd x).toList ≠ '*' :: cs := fun cs => hglob.trimEnd.not_head
  constructor
  · intro heq
    rw [← String.toList_inj] at heq
    cases host with
    | any =>
      simp [HostPattern.text] at heq
    | suffix y =>
      have hy : y.toList = (trimEnd x).toList := by simpa [HostPattern.text] using heq
      exact hbad y (String.toList_inj.mp hy) hwf.1 hwf.2.2
    | exact y => exact hwf.2.1.not_head (by simpa [HostPattern.text] using heq)
  · intro heq
    rw [← String.toList_inj] at heq
    cases host with
    | any => exact hnotHead [] heq.symm
    | suffix y =>
      exact hnotHead ('.' :: y.toList) (by rw [← show _ = (trimEnd x).toList from heq]; simp [HostPattern.text])
    | exact y => exact hbad y (String.toList_inj.mp heq) hwf.1 hwf.2.2

/-- The parser refuses exactly the vain ones of what the meta-schema takes. -/
theorem parse_form {p : Permission} (h : PermissionForm p) :
    (∃ q, Permission.parsePermission p.text = .ok q) ↔ ¬ p.Vain := by
  rw [parse_split (toList_text p) h.category_noColon]
  have hkernel : ∀ {q : Permission}, q.category ∈ Permission.kernelCategories →
      q.category.toList.dropWhile isWhiteSpace = q.category.toList :=
    fun hq => (kernelCategory_plain _ hq).1
  by_cases hopen : p.OpenEnded
  · cases p with
    | networkEgress host =>
      rw [hkernel (q := .networkEgress host) (show "network" ∈ _ by decide)]
      cases host with
      | any => cases hopen
      | suffix x =>
        rw [rdropWhile_rest_suffix]
        constructor
        · rintro ⟨q, hwf, hcategory, hrest⟩ hvain
          obtain ⟨host, rfl⟩ := hwf.network (String.toList_inj.mp hcategory)
          exact (host_text_ne hwf h.2 hvain).1 (host_text_inj (String.toList_inj.mp hrest))
        · intro hvain
          rw [Permission.Vain, not_or] at hvain
          exact ⟨.networkEgress (.suffix (trimEnd x)),
            ⟨trimEnd_ne_iff.mpr hvain.2, h.2.trimEnd, noColon_trimEnd.mpr hvain.1⟩, rfl, rfl⟩
      | exact x =>
        rw [rdropWhile_rest_exactHost]
        constructor
        · rintro ⟨q, hwf, hcategory, hrest⟩ hvain
          obtain ⟨host, rfl⟩ := hwf.network (String.toList_inj.mp hcategory)
          exact (host_text_ne hwf h.2 hvain).2 (host_text_inj (String.toList_inj.mp hrest))
        · intro hvain
          rw [Permission.Vain, not_or] at hvain
          exact ⟨.networkEgress (.exact (trimEnd x)),
            ⟨trimEnd_ne_iff.mpr hvain.2, h.2.trimEnd, noColon_trimEnd.mpr hvain.1⟩, rfl, rfl⟩
    | blobs op path =>
      rw [hkernel (q := .blobs op path) (show "blobs" ∈ _ by decide)]
      cases path with
      | any => cases hopen
      | prefixed x => cases hopen
      | exact x =>
        rw [rdropWhile_rest_exactPath]
        constructor
        · rintro ⟨q, hwf, hcategory, hrest⟩ hvain
          obtain ⟨op', path, rfl⟩ := hwf.blobs (String.toList_inj.mp hcategory)
          have htext : path.text = trimEnd x := (path_text_inj (String.toList_inj.mp hrest)).2
          exact trimEnd_ne_iff.mp (htext ▸ PathPattern.WellFormed.text_ne hwf) hvain
        · intro hvain
          exact ⟨.blobs op (.exact (trimEnd x)), ⟨trimEnd_ne_iff.mpr hvain, h.2.trimEnd⟩, rfl, rfl⟩
    | appDefined kind value =>
      have hdot : '.' ∈ kind.toList.dropWhile isWhiteSpace :=
        (mem_dropWhile_iff (by decide)).mpr h.2.1
      constructor
      · rintro ⟨q, hwf, hcategory, hrest⟩ hvain
        have hvalue : q.rest = trimEnd value := by
          rw [← String.toList_inj, toList_trimEnd]
          exact hrest
        exact trimEnd_ne_iff.mp (hvalue ▸ hwf.rest_ne) hvain
      · intro hvain
        refine ⟨.appDefined (String.ofList (kind.toList.dropWhile isWhiteSpace)) (trimEnd value),
          ⟨?_, ?_, trimEnd_ne_iff.mpr hvain⟩, String.toList_ofList, toList_trimEnd value⟩
        · rw [String.toList_ofList, mem_dropWhile_iff (by decide)]
          exact h.1
        · rwa [String.toList_ofList]
    | _ => cases hopen
  · have hwf := wellFormed_of_closed h hopen
    have hcategory : p.category ∈ Permission.kernelCategories := by
      rcases Permission.category_mem p with hmem | ⟨kind, value, rfl⟩
      · exact hmem
      · exact absurd trivial hopen
    have hvain : ¬ p.Vain := by
      cases p with
      | networkEgress host =>
        cases host with
        | any => exact id
        | suffix x => exact absurd trivial hopen
        | exact x => exact absurd trivial hopen
      | blobs op path =>
        cases path with
        | exact x => exact absurd trivial hopen
        | _ => exact id
      | appDefined kind value => exact absurd trivial hopen
      | _ => exact id
    exact iff_of_true ⟨p, hwf, (hkernel hcategory).symm, (rdropWhile_closed hwf hopen).symm⟩ hvain

theorem category_ne_nil {p : Permission} (hwf : p.WellFormed) : p.category.toList ≠ [] := by
  rcases Permission.category_mem p with hmem | ⟨kind, value, rfl⟩
  · have hne : ∀ category ∈ Permission.kernelCategories, category.toList ≠ [] := by decide
    exact hne _ hmem
  · exact List.ne_nil_of_mem hwf.2.1

/-- The meta-schema takes only texts that the parser takes, the vain ones aside. -/
theorem schemaOnly_iff {s : String} :
    SchemaOnly s ↔ permission.accepts s = true ∧ ¬ ∃ p, Permission.parsePermission s = .ok p := by
  rw [permission_accepts_iff, SchemaOnly, and_assoc]
  refine and_congr_right fun _ => ?_
  constructor
  · rintro (⟨p, hform, rfl, hvain⟩ | ⟨a, b, hb, hs⟩)
    · exact ⟨Or.inl ⟨p, hform, rfl⟩, fun hparse => (parse_form hform).mp hparse hvain⟩
    · refine ⟨Or.inr ⟨a, b, hb, hs⟩, fun hparse => ?_⟩
      obtain ⟨p, hwf, hcategory, -⟩ := (parse_split (show s.toList = [] ++ _ from hs) (by simp)).mp hparse
      exact category_ne_nil hwf hcategory
  · rintro ⟨⟨p, hform, rfl⟩ | hempty, hparse⟩
    · refine Or.inl ⟨p, hform, rfl, ?_⟩
      by_contra hvain
      exact hparse ((parse_form hform).mpr hvain)
    · exact Or.inr hempty

/-! ### What the meta-schema makes of a text of the parser -/

/-- A kernel category with space before it is no category of the meta-schema. -/
theorem no_space_before {p q : Permission} (hp : p.category ∈ Permission.kernelCategories)
    (hq : PermissionForm q) {c : List Char} (hc : p.category.toList = c.dropWhile isWhiteSpace)
    (hqc : q.category.toList = c) : c.takeWhile isWhiteSpace = [] := by
  have hcat : c = c.takeWhile isWhiteSpace ++ p.category.toList := by
    rw [hc, List.takeWhile_append_dropWhile]
  rcases Permission.category_mem q with hmem | ⟨kind, value, rfl⟩
  · have hplain := (kernelCategory_plain _ hmem).1
    rw [hqc] at hplain
    have hlen := congrArg List.length (List.takeWhile_append_dropWhile (p := isWhiteSpace) (l := c))
    rw [hplain, List.length_append] at hlen
    exact List.eq_nil_of_length_eq_zero (by omega)
  · have hdot : '.' ∈ c := hqc ▸ hq.2.1
    rw [hcat, List.mem_append] at hdot
    rcases hdot with hdot | hdot
    · cases List.mem_takeWhile_imp hdot
    · exact absurd hdot (kernelCategory_plain _ hp).2

theorem category_of_closed {p : Permission} (hopen : ¬ p.OpenEnded) :
    p.category ∈ Permission.kernelCategories := by
  rcases Permission.category_mem p with hmem | ⟨kind, value, rfl⟩
  · exact hmem
  · exact absurd trivial hopen

/-- What is trimmed to a form that ends with its last segment is such a form itself. -/
theorem closed_of_trimmed {p q : Permission} (hp : p.WellFormed) (hopen : ¬ p.OpenEnded)
    (hq : PermissionForm q) (hcategory : p.category = q.category)
    (hrest : q.rest.toList.rdropWhile isWhiteSpace = p.rest.toList) : ¬ q.OpenEnded := by
  intro hqopen
  cases q with
  | networkEgress host =>
    obtain ⟨host', rfl⟩ := hp.network hcategory
    cases host' with
    | any =>
      cases host with
      | any => exact hqopen
      | suffix x =>
        rw [rdropWhile_rest_suffix] at hrest
        have htext := congrArg String.toList (host_text_inj (String.toList_inj.mp hrest))
        simp [HostPattern.text] at htext
      | exact x =>
        rw [rdropWhile_rest_exactHost] at hrest
        exact hq.2.trimEnd.ne_star (host_text_inj (String.toList_inj.mp hrest))
    | suffix y => exact hopen trivial
    | exact y => exact hopen trivial
  | blobs op path =>
    obtain ⟨op', path', rfl⟩ := hp.blobs hcategory
    cases path with
    | any => exact hqopen
    | prefixed x => exact hqopen
    | exact x =>
      rw [rdropWhile_rest_exactPath] at hrest
      have htext : trimEnd x = path'.text := (path_text_inj (String.toList_inj.mp hrest)).2
      cases path' with
      | any => exact hq.2.trimEnd.ne_star htext
      | prefixed y =>
        have hlast : (trimEnd x).toList.reverse = '*' :: '/' :: y.toList.reverse := by
          rw [htext]
          simp [PathPattern.text]
        exact hq.2.trimEnd.not_last hlast
      | exact y => exact hopen trivial
  | appDefined kind value =>
    have hmem := category_of_closed hopen
    rw [hcategory] at hmem
    exact (kernelCategory_plain _ hmem).2 hq.2.1
  | _ => exact hqopen

theorem GlobFree.append_space {s : String} (h : GlobFree s) {ws : List Char}
    (hws : ∀ c ∈ ws, isWhiteSpace c = true) : GlobFree (s ++ String.ofList ws) := by
  have hglob : ∀ d ∈ Permission.globChars, isWhiteSpace d = false := by decide
  intro c hc hmem
  rw [String.toList_append, String.toList_ofList, List.mem_append] at hc
  rcases hc with hc | hc
  · exact h c hc hmem
  · have hplain := hglob c hmem
    rw [hws c hc] at hplain
    cases hplain

/-- With the space at the end as a part of the value, an open-ended form is one still. -/
theorem form_append_space {p : Permission} (hwf : p.WellFormed) (hopen : p.OpenEnded)
    (hkernel : p.category ∈ Permission.kernelCategories) {ws : List Char}
    (hws : ∀ c ∈ ws, isWhiteSpace c = true) :
    ∃ q, PermissionForm q ∧ q.category = p.category ∧ q.rest.toList = p.rest.toList ++ ws := by
  cases p with
  | networkEgress host =>
    cases host with
    | any => cases hopen
    | suffix x =>
      refine ⟨.networkEgress (.suffix (x ++ String.ofList ws)),
        ⟨append_ne_empty_left hwf.1, hwf.2.1.append_space hws⟩, rfl, ?_⟩
      simp [Permission.rest, HostPattern.text]
    | exact x =>
      refine ⟨.networkEgress (.exact (x ++ String.ofList ws)),
        ⟨append_ne_empty_left hwf.1, hwf.2.1.append_space hws⟩, rfl, ?_⟩
      simp [Permission.rest, HostPattern.text]
  | blobs op path =>
    cases path with
    | any => cases hopen
    | prefixed x => cases hopen
    | exact x =>
      refine ⟨.blobs op (.exact (x ++ String.ofList ws)),
        ⟨append_ne_empty_left hwf.1, hwf.2.append_space hws⟩, rfl, ?_⟩
      simp [Permission.rest, PathPattern.text]
  | appDefined kind value => exact absurd hwf.2.1 (kernelCategory_plain _ hkernel).2
  | _ => cases hopen

theorem form_of_wellFormed {p : Permission} (hwf : p.WellFormed)
    (hprefixed : ¬ ∃ op, p = .blobs op (.prefixed "")) : PermissionForm p := by
  cases p with
  | networkEgress host =>
    cases host with
    | any => trivial
    | suffix x => exact ⟨hwf.1, hwf.2.1⟩
    | exact x => exact ⟨hwf.1, hwf.2.1⟩
  | blobs op path =>
    cases path with
    | any => trivial
    | prefixed x =>
      refine ⟨?_, hwf⟩
      rintro rfl
      exact hprefixed ⟨op, rfl⟩
    | exact x => exact hwf
  | _ => exact hwf

/-- The forms around a well-formed permission: which of them are the meta-schema's. -/
theorem exists_form {p : Permission} (hwf : p.WellFormed) {c v : List Char} (hc : ':' ∉ c)
    (hcategory : p.category.toList = c.dropWhile isWhiteSpace)
    (hrest : p.rest.toList = v.rdropWhile isWhiteSpace) :
    (∃ q, PermissionForm q ∧ q.category.toList = c ∧ q.rest.toList = v) ↔
      ¬ (p.category ∈ Permission.kernelCategories ∧ c.takeWhile isWhiteSpace ≠ []) ∧
      ¬ (¬ p.OpenEnded ∧ v.rtakeWhile isWhiteSpace ≠ []) ∧
      ¬ ∃ op, p = .blobs op (.prefixed "") := by
  have hv : v = p.rest.toList ++ v.rtakeWhile isWhiteSpace := by
    rw [hrest, List.rdropWhile_append_rtakeWhile]
  have hcs : c = c.takeWhile isWhiteSpace ++ p.category.toList := by
    rw [hcategory, List.takeWhile_append_dropWhile]
  have hsame : c.takeWhile isWhiteSpace = [] → c = p.category.toList := fun hnil => by
    rw [hcs, hnil, List.nil_append]
  constructor
  · rintro ⟨q, hq, hqc, hqv⟩
    have hbefore : p.category ∈ Permission.kernelCategories → c.takeWhile isWhiteSpace = [] :=
      fun hkernel => no_space_before hkernel hq hcategory hqc
    have hclosed : ¬ p.OpenEnded → ¬ q.OpenEnded ∧ v = p.rest.toList := fun hopen => by
      have hqcat : p.category = q.category := by
        rw [← String.toList_inj, hqc]
        exact (hsame (hbefore (category_of_closed hopen))).symm
      have hqopen := closed_of_trimmed hwf hopen hq hqcat (by rw [hqv, hrest])
      refine ⟨hqopen, ?_⟩
      rw [hrest, ← hqv, rdropWhile_closed (wellFormed_of_closed hq hqopen) hqopen]
    refine ⟨fun h => h.2 (hbefore h.1), fun h => h.2 ?_, ?_⟩
    · have hself := hv
      rw [← (hclosed h.1).2] at hself
      exact List.self_eq_append_right.mp hself
    · rintro ⟨op, rfl⟩
      obtain ⟨hqopen, hself⟩ := hclosed id
      have hqcat : q.category = "blobs" := by
        rw [← String.toList_inj, hqc]
        exact hsame (hbefore (show "blobs" ∈ _ by decide))
      obtain ⟨op', path, rfl⟩ := (wellFormed_of_closed hq hqopen).blobs hqcat
      have htext : path.text = "/*" :=
        (path_text_inj (String.toList_inj.mp (hqv.trans hself))).2
      cases path with
      | any => exact absurd htext (by decide)
      | prefixed y =>
        rw [← String.toList_inj] at htext
        exact hq.1 (by simpa [PathPattern.text] using htext)
      | exact y => exact hqopen trivial
  · rintro ⟨hbefore, hafter, hprefixed⟩
    rcases Permission.category_mem p with hkernel | ⟨kind, value, rfl⟩
    · have hnil : c.takeWhile isWhiteSpace = [] := by
        by_contra hne
        exact hbefore ⟨hkernel, hne⟩
      by_cases hopen : p.OpenEnded
      · have hspace : ∀ d ∈ v.rtakeWhile isWhiteSpace, isWhiteSpace d = true :=
          fun d hd => List.mem_rtakeWhile_imp hd
        obtain ⟨q, hq, hqc, hqv⟩ := form_append_space hwf hopen hkernel hspace
        exact ⟨q, hq, by rw [hqc, hsame hnil], by rw [hqv, ← hv]⟩
      · have hspace : v.rtakeWhile isWhiteSpace = [] := by
          by_contra hne
          exact hafter ⟨hopen, hne⟩
        refine ⟨p, form_of_wellFormed hwf hprefixed, (hsame hnil).symm, ?_⟩
        rw [hv, hspace, List.append_nil]
    · refine ⟨.appDefined (String.ofList c) (String.ofList v), ⟨?_, ?_, ?_⟩,
        String.toList_ofList, String.toList_ofList⟩
      · rwa [String.toList_ofList]
      · rw [String.toList_ofList, ← mem_dropWhile_iff (by decide), ← hcategory]
        exact hwf.2.1
      · intro hempty
        have hnil : v = [] := by simpa using hempty
        rw [hnil] at hrest
        exact hwf.2.2 (String.toList_inj.mp hrest)

/-- The parser takes only texts that the meta-schema takes, but for what is listed. -/
theorem parserOnly_iff {s : String} :
    ParserOnly s ↔ (∃ p, Permission.parsePermission s = .ok p) ∧ ¬ permission.accepts s = true := by
  have hone : ∀ p : Permission, p.WellFormed → p.text.toList = trim s.toList →
      (permission.accepts s = true ↔ OneLine s.toList ∧
        ¬ (p.category ∈ Permission.kernelCategories ∧ s.toList.takeWhile isWhiteSpace ≠ []) ∧
        ¬ (¬ p.OpenEnded ∧ s.toList.rtakeWhile isWhiteSpace ≠ []) ∧
        ¬ ∃ op, p = .blobs op (.prefixed "")) := by
    intro p hwf htext
    cases hsplit : splitOnce ':' s.toList with
    | none =>
      have hcolon : ':' ∈ trim s.toList := by simp [← htext, toList_text]
      have hmem : ':' ∈ s.toList :=
        List.dropWhile_subset _ ((List.rdropWhile_prefix _ _).subset hcolon)
      exact absurd hmem (splitOnce_eq_none.mp hsplit)
    | some parts =>
      obtain ⟨c, v⟩ := parts
      obtain ⟨hc, hs⟩ := splitOnce_iff.mp hsplit
      have hc' : ':' ∉ c.dropWhile isWhiteSpace := (mem_dropWhile_iff (by decide)).not.mpr hc
      rw [hs, trim_colon, text_eq_iff hwf.category_noColon hc'] at htext
      rw [permission_accepts_iff, hs, takeWhile_append_colon, rtakeWhile_append_stop (by decide),
        ← exists_form hwf hc htext.1 htext.2]
      refine and_congr_right fun _ => ?_
      have hempty : ¬ ∃ a b, b ≠ [] ∧ c ++ ':' :: v = ':' :: (a ++ ':' :: b) := by
        rintro ⟨a, b, -, heq⟩
        cases c with
        | nil => exact category_ne_nil hwf htext.1
        | cons d c =>
          rw [List.cons_append, List.cons.injEq] at heq
          exact hc (heq.1 ▸ List.mem_cons_self)
      rw [or_iff_left hempty]
      refine exists_congr fun q => and_congr_right fun hq => ?_
      rw [← String.toList_inj, hs, text_eq_iff hq.category_noColon hc]
  constructor
  · rintro ⟨p, hwf, htext, hbad⟩
    refine ⟨⟨p, Permission.parsePermission_iff.mpr ⟨hwf, htext⟩⟩, fun haccepts => ?_⟩
    obtain ⟨hline, hbefore, hafter, hprefixed⟩ := (hone p hwf htext).mp haccepts
    rcases hbad with h | h | h | h
    · exact h hline
    · exact hbefore h
    · exact hafter h
    · exact hprefixed h
  · rintro ⟨⟨p, hparse⟩, haccepts⟩
    obtain ⟨hwf, htext⟩ := Permission.parsePermission_iff.mp hparse
    refine ⟨p, hwf, htext, ?_⟩
    by_contra hbad
    rw [not_or, not_or, not_or, not_not] at hbad
    exact haccepts ((hone p hwf htext).mpr hbad)

/-- One grammar told twice: the same texts, and a permission of the kernel determines its text. -/
structure GrammarsAgree (s : String) : Prop where
  accepted : permission.accepts s = true ↔ ∃ p, Permission.parsePermission s = .ok p
  determined : ∀ p, Permission.parsePermission s = .ok p → (∀ kind value, p ≠ .appDefined kind value) →
    ∀ s', Permission.parsePermission s' = .ok p → trim s.toList = trim s'.toList

/-- The two grammars agree on a text unless it is listed as one that only the meta-schema takes, or
as one that only the parser takes. -/
theorem grammars_agree_iff (s : String) : GrammarsAgree s ↔ ¬ SchemaOnly s ∧ ¬ ParserOnly s := by
  rw [schemaOnly_iff, parserOnly_iff]
  constructor
  · rintro ⟨haccepted, -⟩
    exact ⟨fun h => h.2 (haccepted.mp h.1), fun h => h.2 (haccepted.mpr h.1)⟩
  · rintro ⟨hschema, hparser⟩
    refine ⟨⟨fun h => ?_, fun h => ?_⟩, fun p hp _ s' hp' => ?_⟩
    · by_contra hnot
      exact hschema ⟨h, hnot⟩
    · by_contra hnot
      exact hparser ⟨h, hnot⟩
    · rw [← (Permission.parsePermission_iff.mp hp).2, (Permission.parsePermission_iff.mp hp').2]

/-- A host with a port is a permission of the meta-schema and none of the parser. -/
theorem grammars_disagree : ¬ ∀ s : String, GrammarsAgree s := by
  intro h
  have hport : SchemaOnly "network:egress:example.com:8080" :=
    ⟨by decide, Or.inl ⟨.networkEgress (.exact "example.com:8080"), ⟨by decide, by decide⟩, rfl,
      Or.inl (by decide)⟩⟩
  obtain ⟨haccepts, hrefused⟩ := schemaOnly_iff.mp hport
  exact hrefused ((h "network:egress:example.com:8080").accepted.mp haccepts)

end Gwead
