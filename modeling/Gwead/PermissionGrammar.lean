import Gwead.NameGrammar
import Gwead.Permissions

/-!
# The grammar of permissions

How a permission is written, and which permissions there are to write: the parser accepts these
texts and no others, whitespace around them aside.
-/

namespace Gwead

open Identity

/-- No character that is kept for a future glob syntax. -/
def GlobFree (s : String) : Prop := ∀ c ∈ s.toList, c ∉ Permission.globChars

instance (s : String) : Decidable (GlobFree s) :=
  inferInstanceAs (Decidable (∀ c ∈ s.toList, c ∉ Permission.globChars))

def NamePattern.text : NamePattern → String
  | any => "*"
  | exact name => name

def HostPattern.text : HostPattern → String
  | any => "*"
  | suffix s => "*." ++ s
  | exact s => s

def PathPattern.text : PathPattern → String
  | any => "*"
  | prefixed s => s ++ "/*"
  | exact s => s

def BlobOp.display : BlobOp → String
  | read => "read"
  | write => "write"
  | delete => "delete"
  | list => "list"
  | stat => "stat"
  | watch => "watch"

def selectorText : Option String → String
  | none => ""
  | some sel => ":" ++ sel

/-- What stands before the first colon. -/
def Permission.category : Permission → String
  | networkEgress _ => "network"
  | blobs _ _ => "blobs"
  | stepType _ => "step_type"
  | invokePlugin _ => "invoke"
  | invokeRole _ => "invoke"
  | provideStepType _ _ => "provide"
  | bindNativeImpl _ => "bind"
  | appDefined kind _ => kind

/-- What stands after it. -/
def Permission.rest : Permission → String
  | networkEgress host => "egress" ++ ":" ++ host.text
  | blobs op path => op.display ++ ":" ++ path.text
  | stepType name => name
  | invokePlugin pattern => "plugin" ++ ":" ++ pattern.text
  | invokeRole pattern => "role" ++ ":" ++ pattern.text
  | provideStepType ty selector => "step_type" ++ ":" ++ (ty ++ selectorText selector)
  | bindNativeImpl implRef => "native_impl" ++ ":" ++ implRef
  | appDefined _ value => value

def Permission.text (p : Permission) : String := p.category ++ ":" ++ p.rest

def NamePattern.WellFormed : NamePattern → Prop
  | any => True
  | exact name => IsName name.toList

def HostPattern.WellFormed : HostPattern → Prop
  | any => True
  | suffix s => s ≠ "" ∧ GlobFree s ∧ ':' ∉ s.toList
  | exact s => s ≠ "" ∧ GlobFree s ∧ ':' ∉ s.toList

def PathPattern.WellFormed : PathPattern → Prop
  | any => True
  | prefixed s => GlobFree s
  | exact s => s ≠ "" ∧ GlobFree s

def Permission.WellFormed : Permission → Prop
  | networkEgress host => host.WellFormed
  | blobs _ path => path.WellFormed
  | stepType name => IsStepTypeName name.toList
  | invokePlugin pattern => pattern.WellFormed
  | invokeRole pattern => pattern.WellFormed
  | provideStepType ty selector =>
    IsStepTypeName ty.toList ∧ ∀ sel, selector = some sel → IsName sel.toList
  | bindNativeImpl implRef => IsImplRef implRef.toList
  | appDefined kind value => ':' ∉ kind.toList ∧ '.' ∈ kind.toList ∧ value ≠ ""

/-! ### Splitting and the reserved characters -/

namespace Permission

theorem splitColon_iff {s a b : String} (hb : b ≠ "") :
    splitColon s = (a, b) ↔ ':' ∉ a.toList ∧ s = a ++ ":" ++ b := by
  rw [splitColon]
  cases hsplit : splitOnce ':' s.toList with
  | none =>
    have hcolon := splitOnce_eq_none.mp hsplit
    refine iff_of_false (fun h => hb (Prod.mk.inj h).2.symm) ?_
    rintro ⟨-, rfl⟩
    exact hcolon (by simp)
  | some parts =>
    obtain ⟨x, y⟩ := parts
    have hs : (':' ∉ a.toList ∧ s = a ++ ":" ++ b) ↔
        splitOnce ':' s.toList = some (a.toList, b.toList) := by
      rw [splitOnce_iff, ← String.toList_inj]
      simp
    rw [hs, hsplit]
    simp only [Prod.mk.injEq, Option.some.injEq, ← String.toList_inj, String.toList_ofList]

theorem rejectGlobChars_ok {raw field s : String} :
    rejectGlobChars raw field s = .ok () ↔ GlobFree s := by
  rw [rejectGlobChars]
  cases hfind : s.toList.find? globChars.contains with
  | some c =>
    refine iff_of_false (by simp) fun h => ?_
    exact h c (List.mem_of_find?_eq_some hfind) (by simpa using List.find?_some hfind)
  | none =>
    refine iff_of_true rfl fun c hc hmem => ?_
    have hnot := List.find?_eq_none.mp hfind c hc
    exact hnot (List.contains_iff_mem.mpr hmem)

theorem nameError_ok {raw : String} {α : Type} {r : Except NameError α} {a : α} :
    nameError raw r = .ok a ↔ r = .ok a := by
  cases r <;> simp [nameError]

/-- A check that is passed leaves what follows it. -/
theorem bind_unit_ok {ε β : Type} {check : Except ε Unit} {next : Except ε β} {b : β} :
    (check >>= fun _ => next) = .ok b ↔ check = .ok () ∧ next = .ok b := by
  cases check with
  | error e => exact iff_of_false (fun h => nomatch h) fun h => nomatch h.1
  | ok u => exact (and_iff_right rfl).symm

theorem bind_pure_ok {ε α β : Type} {r : Except ε α} {f : α → β} {b : β} :
    (r >>= fun a => (pure (f a) : Except ε β)) = .ok b ↔ ∃ a, r = .ok a ∧ f a = b := by
  cases r with
  | error e => exact iff_of_false (fun h => nomatch h) fun ⟨_, h, _⟩ => nomatch h
  | ok a =>
    constructor
    · intro h
      cases h
      exact ⟨a, rfl, rfl⟩
    · rintro ⟨_, h, rfl⟩
      cases h
      rfl

end Permission

theorem globFree_of_nameChars {s : String} (h : ∀ c ∈ s.toList, nameChar false c = true ∨ c = '.') :
    GlobFree s := fun c hc hmem => by
  have hglob : ∀ d ∈ Permission.globChars, nameChar false d = false ∧ d ≠ '.' := by decide
  rcases h c hc with h | h
  · rw [(hglob c hmem).1] at h
    cases h
  · exact (hglob c hmem).2 h

theorem IsName.globFree {s : String} (h : IsName s.toList) : GlobFree s :=
  globFree_of_nameChars fun c hc => Or.inl (h.later c hc)

theorem IsStepTypeName.nameChars {cs : List Char} (h : IsStepTypeName cs) :
    ∀ c ∈ cs, nameChar false c = true ∨ c = '.' := by
  rcases h with h | ⟨a, b, ha, hb, rfl⟩
  · exact fun c hc => Or.inl (h.later c hc)
  · intro c hc
    rcases List.mem_append.mp hc with hc | hc
    · exact Or.inl (ha.later c hc)
    · rcases List.mem_cons.mp hc with rfl | hc
      · exact Or.inr rfl
      · exact Or.inl (hb.later c hc)

theorem IsImplRef.nameChars {cs : List Char} (h : IsImplRef cs) :
    ∀ c ∈ cs, nameChar false c = true ∨ c = '.' := by
  intro c hc
  by_cases hdot : c = '.'
  · exact Or.inr hdot
  · obtain ⟨part, hpart, hin⟩ := mem_of_mem_splitAll hdot hc
    exact Or.inl ((h part hpart).later c hin)

theorem not_mem_colon {cs : List Char} (h : ∀ c ∈ cs, nameChar false c = true ∨ c = '.') :
    ':' ∉ cs := fun hmem => by
  rcases h _ hmem with h | h
  · cases h
  · cases h

theorem IsStepTypeName.ne_nil {cs : List Char} (h : IsStepTypeName cs) : cs ≠ [] := by
  rcases h with h | ⟨a, b, -, -, rfl⟩
  · exact h.ne_nil
  · simp

theorem IsImplRef.ne_nil {cs : List Char} (h : IsImplRef cs) : cs ≠ [] := by
  rintro rfl
  exact (h [] (by simp [splitAll])).ne_nil rfl

theorem ne_empty_of_toList {s : String} (h : s.toList ≠ []) : s ≠ "" := by
  rintro rfl
  exact h rfl

/-! ### The patterns -/

theorem GlobFree.ne_star {s : String} (h : GlobFree s) : s ≠ "*" := by
  rintro rfl
  exact h '*' (by simp) (by simp [Permission.globChars])

theorem GlobFree.not_head {s : String} (h : GlobFree s) {cs : List Char} :
    s.toList ≠ '*' :: cs := fun heq =>
  h '*' (by simp [heq]) (by simp [Permission.globChars])

theorem GlobFree.not_last {s : String} (h : GlobFree s) {cs : List Char} :
    s.toList.reverse ≠ '*' :: cs := fun heq =>
  h '*' (by rw [← List.mem_reverse, heq]; exact List.mem_cons_self)
    (by simp [Permission.globChars])

namespace Permission

theorem parseHostPattern_ok {raw s : String} (hs : s ≠ "") {h : HostPattern} :
    parseHostPattern raw s = .ok h ↔ h.WellFormed ∧ h.text = s := by
  constructor
  · intro hparse
    unfold parseHostPattern at hparse
    split at hparse
    · rename_i hany
      cases hparse
      exact ⟨trivial, hany.symm⟩
    · split at hparse
      · cases hparse
      · rename_i hcolon
        have hcolon : ':' ∉ s.toList := by simpa using hcolon
        split at hparse
        · rename_i suffix heq
          split at hparse
          · cases hparse
          · rename_i hne
            obtain ⟨hglob, hval⟩ := bind_unit_ok.mp hparse
            cases hval
            refine ⟨⟨?_, rejectGlobChars_ok.mp hglob, ?_⟩, ?_⟩
            · simpa [← String.toList_inj] using hne
            · rw [String.toList_ofList]
              exact fun hmem => hcolon (by simp [heq, hmem])
            · simp [HostPattern.text, ← String.toList_inj, heq]
        · obtain ⟨hglob, hval⟩ := bind_unit_ok.mp hparse
          cases hval
          exact ⟨⟨hs, rejectGlobChars_ok.mp hglob, hcolon⟩, rfl⟩
  · rintro ⟨hwf, rfl⟩
    unfold parseHostPattern
    cases h with
    | any => rfl
    | suffix x =>
      obtain ⟨hne, hglob, hcolon⟩ := hwf
      have htext : (HostPattern.suffix x).text.toList = '*' :: '.' :: x.toList := by
        simp [HostPattern.text]
      have hstar : (HostPattern.suffix x).text ≠ "*" := fun h => by
        rw [← String.toList_inj, htext] at h
        cases h
      have hlist : x.toList ≠ [] := by simpa using hne
      rw [if_neg hstar, htext, if_neg (by simpa using hcolon)]
      simp only [if_neg hlist, String.ofList_toList]
      exact bind_unit_ok.mpr ⟨rejectGlobChars_ok.mpr hglob, rfl⟩
    | exact x =>
      obtain ⟨-, hglob, hcolon⟩ := hwf
      have htext : (HostPattern.exact x).text = x := rfl
      rw [htext, if_neg hglob.ne_star, if_neg (by simpa using hcolon)]
      split
      · rename_i heq
        exact absurd heq hglob.not_head
      · exact bind_unit_ok.mpr ⟨rejectGlobChars_ok.mpr hglob, rfl⟩

theorem parsePathPattern_ok {raw s : String} (hs : s ≠ "") {p : PathPattern} :
    parsePathPattern raw s = .ok p ↔ p.WellFormed ∧ p.text = s := by
  constructor
  · intro hparse
    unfold parsePathPattern at hparse
    split at hparse
    · rename_i hany
      cases hparse
      exact ⟨trivial, hany.symm⟩
    · split at hparse
      · rename_i reversed heq
        obtain ⟨hglob, hval⟩ := bind_unit_ok.mp hparse
        cases hval
        refine ⟨rejectGlobChars_ok.mp hglob, ?_⟩
        have hlist := congrArg List.reverse heq
        rw [List.reverse_reverse] at hlist
        simp [PathPattern.text, ← String.toList_inj, hlist]
      · obtain ⟨hglob, hval⟩ := bind_unit_ok.mp hparse
        cases hval
        exact ⟨⟨hs, rejectGlobChars_ok.mp hglob⟩, rfl⟩
  · rintro ⟨hwf, rfl⟩
    unfold parsePathPattern
    cases p with
    | any => rfl
    | prefixed x =>
      have htext : (PathPattern.prefixed x).text.toList = x.toList ++ ['/', '*'] := by
        simp [PathPattern.text]
      have hstar : (PathPattern.prefixed x).text ≠ "*" := fun h => by
        rw [← String.toList_inj, htext] at h
        cases hx : x.toList with
        | nil => rw [hx] at h; cases h
        | cons c cs => rw [hx] at h; cases cs <;> cases h
      have hreverse : (x.toList ++ ['/', '*']).reverse = '*' :: '/' :: x.toList.reverse := by simp
      rw [if_neg hstar, htext, hreverse]
      simp only [List.reverse_reverse, String.ofList_toList]
      exact bind_unit_ok.mpr ⟨rejectGlobChars_ok.mpr hwf, rfl⟩
    | exact x =>
      obtain ⟨-, hglob⟩ := hwf
      have htext : (PathPattern.exact x).text = x := rfl
      rw [htext, if_neg hglob.ne_star]
      split
      · rename_i heq
        exact absurd heq hglob.not_last
      · exact bind_unit_ok.mpr ⟨rejectGlobChars_ok.mpr hglob, rfl⟩

theorem parseTargetName_ok {raw name : String} {kind : NameKind} (hkind : kind ≠ .stepId)
    {p : NamePattern} :
    parseTargetName raw name kind = .ok p ↔ p.WellFormed ∧ p.text = name := by
  rw [parseTargetName]
  by_cases hstar : name = "*"
  · rw [if_pos hstar, hstar]
    constructor
    · intro h
      cases h
      exact ⟨trivial, rfl⟩
    · rintro ⟨hwf, htext⟩
      cases p with
      | any => rfl
      | exact x =>
        have hx : x = "*" := htext
        subst hx
        exact absurd rfl (IsName.globFree hwf).ne_star
  · rw [if_neg hstar, bind_unit_ok, bind_unit_ok, rejectGlobChars_ok, nameError_ok,
      validateReference, validateName_iff_isName hkind]
    constructor
    · rintro ⟨-, hname, hval⟩
      cases hval
      exact ⟨hname, rfl⟩
    · rintro ⟨hwf, htext⟩
      cases p with
      | any => exact absurd htext.symm hstar
      | exact x =>
        cases htext
        exact ⟨IsName.globFree hwf, hwf, rfl⟩

end Permission

/-! ### What is written is not empty -/

theorem append_ne_empty_left {a b : String} (h : a ≠ "") : a ++ b ≠ "" := by
  intro heq
  rw [← String.toList_inj, String.toList_append] at heq
  exact h (String.toList_inj.mp (List.append_eq_nil_iff.mp heq).1)

theorem append_ne_empty_right {a b : String} (h : b ≠ "") : a ++ b ≠ "" := by
  intro heq
  rw [← String.toList_inj, String.toList_append] at heq
  exact h (String.toList_inj.mp (List.append_eq_nil_iff.mp heq).2)

theorem HostPattern.WellFormed.text_ne {h : HostPattern} (hwf : h.WellFormed) : h.text ≠ "" := by
  cases h with
  | any => decide
  | suffix x => exact append_ne_empty_left (by decide)
  | exact x => exact hwf.1

theorem PathPattern.WellFormed.text_ne {p : PathPattern} (hwf : p.WellFormed) : p.text ≠ "" := by
  cases p with
  | any => decide
  | prefixed x => exact append_ne_empty_right (by decide)
  | exact x => exact hwf.1

theorem NamePattern.WellFormed.text_ne {p : NamePattern} (hwf : p.WellFormed) : p.text ≠ "" := by
  cases p with
  | any => decide
  | exact x => exact ne_empty_of_toList (IsName.ne_nil hwf)

/-! ### The categories -/

namespace Permission

theorem parseNetwork_ok {raw rest : String} {p : Permission} : parseNetwork raw rest = .ok p ↔
    ∃ host : HostPattern, host.WellFormed ∧ "egress" ++ ":" ++ host.text = rest ∧
      networkEgress host = p := by
  constructor
  · intro h
    rcases hsplit : splitColon rest with ⟨kind, pattern⟩
    simp only [parseNetwork, hsplit] at h
    split at h
    · cases h
    · rename_i hkind
      rw [not_not] at hkind
      split at h
      · cases h
      · rename_i hne
        obtain ⟨host, hhost, hp⟩ := bind_pure_ok.mp h
        obtain ⟨hwf, htext⟩ := (parseHostPattern_ok hne).mp hhost
        refine ⟨host, hwf, ?_, hp⟩
        rw [((splitColon_iff hne).mp hsplit).2, hkind, htext]
  · rintro ⟨host, hwf, rfl, rfl⟩
    have hsplit : splitColon ("egress" ++ ":" ++ host.text) = ("egress", host.text) :=
      (splitColon_iff hwf.text_ne).mpr ⟨by decide, rfl⟩
    simp only [parseNetwork, hsplit, ne_eq, not_true_eq_false, if_false, if_neg hwf.text_ne]
    exact bind_pure_ok.mpr ⟨host, (parseHostPattern_ok hwf.text_ne).mpr ⟨hwf, rfl⟩, rfl⟩

theorem parseBlobOp_eq {s : String} {op : BlobOp} : parseBlobOp s = some op ↔ op.display = s := by
  constructor
  · intro h
    unfold parseBlobOp at h
    split at h <;> cases h <;> rfl
  · rintro rfl
    cases op <;> rfl

theorem parseBlobs_ok {raw rest : String} {p : Permission} : parseBlobs raw rest = .ok p ↔
    ∃ (op : BlobOp) (path : PathPattern), path.WellFormed ∧
      op.display ++ ":" ++ path.text = rest ∧ blobs op path = p := by
  constructor
  · intro h
    rcases hsplit : splitColon rest with ⟨opStr, path⟩
    simp only [parseBlobs, hsplit] at h
    split at h
    · cases h
    · rename_i op hop
      split at h
      · cases h
      · rename_i hne
        obtain ⟨pattern, hpath, hp⟩ := bind_pure_ok.mp h
        obtain ⟨hwf, htext⟩ := (parsePathPattern_ok hne).mp hpath
        refine ⟨op, pattern, hwf, ?_, hp⟩
        rw [((splitColon_iff hne).mp hsplit).2, parseBlobOp_eq.mp hop, htext]
  · rintro ⟨op, path, hwf, rfl, rfl⟩
    have hsplit : splitColon (op.display ++ ":" ++ path.text) = (op.display, path.text) :=
      (splitColon_iff hwf.text_ne).mpr ⟨by cases op <;> decide, rfl⟩
    simp only [parseBlobs, hsplit, parseBlobOp_eq.mpr rfl, if_neg hwf.text_ne]
    exact bind_pure_ok.mpr ⟨path, (parsePathPattern_ok hwf.text_ne).mpr ⟨hwf, rfl⟩, rfl⟩

theorem parseStepType_ok {raw rest : String} {p : Permission} : parseStepType raw rest = .ok p ↔
    IsStepTypeName rest.toList ∧ stepType rest = p := by
  rw [parseStepType]
  by_cases hne : rest = ""
  · rw [if_pos hne, hne]
    exact iff_of_false (fun h => nomatch h) fun h => h.1.ne_nil rfl
  · rw [if_neg hne, bind_unit_ok, bind_unit_ok, rejectGlobChars_ok, nameError_ok,
      validateStepTypeReference_iff]
    constructor
    · rintro ⟨-, hname, hp⟩
      cases hp
      exact ⟨hname, rfl⟩
    · rintro ⟨hname, rfl⟩
      exact ⟨globFree_of_nameChars hname.nameChars, hname, rfl⟩

theorem provideTarget_ok {raw target ty : String} {selector : Option String} :
    provideTarget raw target = .ok (ty, selector) ↔
      ':' ∉ ty.toList ∧ (∀ sel, selector = some sel → sel ≠ "") ∧
        ty ++ selectorText selector = target := by
  rw [provideTarget]
  cases hsplit : splitOnce ':' target.toList with
  | none =>
    have hcolon := splitOnce_eq_none.mp hsplit
    constructor
    · intro h
      cases h
      refine ⟨hcolon, (fun sel h => nomatch h), ?_⟩
      simp [selectorText]
    · rintro ⟨-, -, rfl⟩
      cases selector with
      | none => simp [selectorText]
      | some sel => exact absurd (by simp [selectorText]) hcolon
  | some parts =>
    obtain ⟨t, sel⟩ := parts
    obtain ⟨hcolon, htarget⟩ := splitOnce_iff.mp hsplit
    have hiff : (':' ∉ ty.toList ∧ (∀ sel, selector = some sel → sel ≠ "") ∧
        ty ++ selectorText selector = target) ↔
        sel ≠ [] ∧ ty = String.ofList t ∧ selector = some (String.ofList sel) := by
      constructor
      · rintro ⟨hty, hsel, rfl⟩
        cases selector with
        | none =>
          have hmem : ':' ∈ (ty ++ selectorText none).toList := by simp [htarget]
          exact absurd (by simpa [selectorText] using hmem) hty
        | some x =>
          have hx : splitOnce ':' (ty ++ selectorText (some x)).toList = some (ty.toList, x.toList) :=
            splitOnce_iff.mpr ⟨hty, by simp [selectorText]⟩
          rw [hsplit, Option.some.injEq, Prod.mk.injEq] at hx
          obtain ⟨rfl, rfl⟩ := hx
          refine ⟨?_, by simp, by simp⟩
          simpa using hsel x rfl
      · rintro ⟨hne, rfl, rfl⟩
        refine ⟨by simpa using hcolon, ?_, ?_⟩
        · intro x hx
          cases hx
          simpa [← String.toList_inj] using hne
        · simp [selectorText, ← String.toList_inj, htarget]
    rw [hiff]
    cases sel with
    | nil => exact iff_of_false (fun h => nomatch h) fun h => h.1 rfl
    | cons c cs =>
      simp only [Except.ok.injEq, Prod.mk.injEq, ne_eq, reduceCtorEq, not_false_eq_true, true_and]
      exact ⟨fun ⟨ha, hb⟩ => ⟨ha.symm, hb.symm⟩, fun ⟨ha, hb⟩ => ⟨ha.symm, hb.symm⟩⟩

theorem checkSelector_ok {raw : String} {selector : Option String} :
    checkSelector raw selector = .ok () ↔ ∀ sel, selector = some sel → IsName sel.toList := by
  cases selector with
  | none => simp [checkSelector]
  | some sel =>
    rw [checkSelector, bind_unit_ok, rejectGlobChars_ok, nameError_ok, validateReference,
      validateName_iff_isName (by decide)]
    constructor
    · rintro ⟨-, hname⟩ _ h
      cases h
      exact hname
    · intro h
      exact ⟨IsName.globFree (h sel rfl), h sel rfl⟩

theorem parseProvide_ok {raw rest : String} {p : Permission} : parseProvide raw rest = .ok p ↔
    ∃ (ty : String) (selector : Option String), (provideStepType ty selector).WellFormed ∧
      "step_type" ++ ":" ++ (ty ++ selectorText selector) = rest ∧
        provideStepType ty selector = p := by
  constructor
  · intro h
    rcases hsplit : splitColon rest with ⟨what, target⟩
    simp only [parseProvide, hsplit] at h
    split at h
    · cases h
    · rename_i hwhat
      rw [not_not] at hwhat
      split at h
      · cases h
      · rename_i hne
        cases htarget : provideTarget raw target with
        | error e => rw [htarget] at h; cases h
        | ok parts =>
          obtain ⟨ty, selector⟩ := parts
          rw [htarget] at h
          obtain ⟨-, h⟩ := bind_unit_ok.mp h
          obtain ⟨hty, h⟩ := bind_unit_ok.mp h
          obtain ⟨hsel, hp⟩ := bind_unit_ok.mp h
          cases hp
          obtain ⟨-, -, htext⟩ := provideTarget_ok.mp htarget
          refine ⟨ty, selector, ⟨?_, checkSelector_ok.mp hsel⟩, ?_, rfl⟩
          · exact validateStepTypeReference_iff.mp (nameError_ok.mp hty)
          · rw [((splitColon_iff hne).mp hsplit).2, hwhat, htext]
  · rintro ⟨ty, selector, ⟨hty, hsel⟩, rfl, rfl⟩
    have hne : ty ++ selectorText selector ≠ "" :=
      append_ne_empty_left (ne_empty_of_toList hty.ne_nil)
    have hsplit : splitColon ("step_type" ++ ":" ++ (ty ++ selectorText selector)) =
        ("step_type", ty ++ selectorText selector) := (splitColon_iff hne).mpr ⟨by decide, rfl⟩
    have htarget : provideTarget raw (ty ++ selectorText selector) = .ok (ty, selector) :=
      provideTarget_ok.mpr ⟨not_mem_colon hty.nameChars,
        (fun sel h => ne_empty_of_toList (hsel sel h).ne_nil), rfl⟩
    simp only [parseProvide, hsplit, ne_eq, not_true_eq_false, if_false, if_neg hne, htarget]
    exact bind_unit_ok.mpr ⟨rejectGlobChars_ok.mpr (globFree_of_nameChars hty.nameChars),
      bind_unit_ok.mpr ⟨nameError_ok.mpr (validateStepTypeReference_iff.mpr hty),
        bind_unit_ok.mpr ⟨checkSelector_ok.mpr hsel, rfl⟩⟩⟩

theorem parseBind_ok {raw rest : String} {p : Permission} : parseBind raw rest = .ok p ↔
    ∃ implRef : String, IsImplRef implRef.toList ∧ "native_impl" ++ ":" ++ implRef = rest ∧
      bindNativeImpl implRef = p := by
  constructor
  · intro h
    rcases hsplit : splitColon rest with ⟨what, target⟩
    simp only [parseBind, hsplit] at h
    split at h
    · cases h
    · rename_i hwhat
      rw [not_not] at hwhat
      split at h
      · cases h
      · rename_i hne
        obtain ⟨-, h⟩ := bind_unit_ok.mp h
        obtain ⟨href, hp⟩ := bind_unit_ok.mp h
        cases hp
        refine ⟨target, validateImplRef_iff.mp (nameError_ok.mp href), ?_, rfl⟩
        rw [((splitColon_iff hne).mp hsplit).2, hwhat]
  · rintro ⟨implRef, href, rfl, rfl⟩
    have hne : implRef ≠ "" := ne_empty_of_toList href.ne_nil
    have hsplit : splitColon ("native_impl" ++ ":" ++ implRef) = ("native_impl", implRef) :=
      (splitColon_iff hne).mpr ⟨by decide, rfl⟩
    simp only [parseBind, hsplit, ne_eq, not_true_eq_false, if_false, if_neg hne]
    exact bind_unit_ok.mpr ⟨rejectGlobChars_ok.mpr (globFree_of_nameChars href.nameChars),
      bind_unit_ok.mpr ⟨nameError_ok.mpr (validateImplRef_iff.mpr href), rfl⟩⟩

theorem parseInvoke_ok {raw rest : String} {p : Permission} : parseInvoke raw rest = .ok p ↔
    ∃ pattern : NamePattern, pattern.WellFormed ∧
      ("plugin" ++ ":" ++ pattern.text = rest ∧ invokePlugin pattern = p ∨
        "role" ++ ":" ++ pattern.text = rest ∧ invokeRole pattern = p) := by
  constructor
  · intro h
    rcases hsplit : splitColon rest with ⟨kind, name⟩
    simp only [parseInvoke, hsplit] at h
    split at h
    · cases h
    · rename_i hne
      have hrest := ((splitColon_iff hne).mp hsplit).2
      split at h
      · rename_i hkind
        obtain ⟨pattern, hname, hp⟩ := bind_pure_ok.mp h
        obtain ⟨hwf, htext⟩ := (parseTargetName_ok (by decide)).mp hname
        exact ⟨pattern, hwf, Or.inl ⟨by rw [hrest, hkind, htext], hp⟩⟩
      · split at h
        · rename_i hkind
          obtain ⟨pattern, hname, hp⟩ := bind_pure_ok.mp h
          obtain ⟨hwf, htext⟩ := (parseTargetName_ok (by decide)).mp hname
          exact ⟨pattern, hwf, Or.inr ⟨by rw [hrest, hkind, htext], hp⟩⟩
        · cases h
  · rintro ⟨pattern, hwf, ⟨rfl, rfl⟩ | ⟨rfl, rfl⟩⟩
    · have hsplit : splitColon ("plugin" ++ ":" ++ pattern.text) = ("plugin", pattern.text) :=
        (splitColon_iff hwf.text_ne).mpr ⟨by decide, rfl⟩
      simp only [parseInvoke, hsplit, if_neg hwf.text_ne, if_true]
      exact bind_pure_ok.mpr ⟨pattern, (parseTargetName_ok (by decide)).mpr ⟨hwf, rfl⟩, rfl⟩
    · have hsplit : splitColon ("role" ++ ":" ++ pattern.text) = ("role", pattern.text) :=
        (splitColon_iff hwf.text_ne).mpr ⟨by decide, rfl⟩
      have hkind : ¬ ("role" : String) = "plugin" := by decide
      simp only [parseInvoke, hsplit, if_neg hwf.text_ne, if_neg hkind, if_true]
      exact bind_pure_ok.mpr ⟨pattern, (parseTargetName_ok (by decide)).mpr ⟨hwf, rfl⟩, rfl⟩

theorem parseApp_ok {raw category rest : String} {p : Permission} :
    parseApp raw category rest = .ok p ↔
      '.' ∈ category.toList ∧ rest ≠ "" ∧ appDefined category rest = p := by
  rw [parseApp]
  by_cases hempty : category = ""
  · rw [if_pos hempty, hempty]
    exact iff_of_false (fun h => nomatch h) fun h => nomatch h.1
  · by_cases hdot : '.' ∈ category.toList
    · rw [if_neg hempty, if_neg (by simpa using hdot)]
      by_cases hrest : rest = ""
      · rw [if_pos hrest]
        exact iff_of_false (fun h => nomatch h) fun h => h.2.1 hrest
      · rw [if_neg hrest, Except.ok.injEq]
        exact ⟨fun h => ⟨hdot, hrest, h⟩, fun h => h.2.2⟩
    · rw [if_neg hempty, if_pos (by simpa using hdot)]
      exact iff_of_false (fun h => nomatch h) fun h => hdot h.1

/-- The categories of the kernel. -/
def kernelCategories : List String :=
  ["network", "blobs", "step_type", "provide", "bind", "invoke"]

theorem parseCategory_app {raw category rest : String} (h : category ∉ kernelCategories) :
    parseCategory raw category rest = parseApp raw category rest := by
  simp only [kernelCategories, List.mem_cons, List.not_mem_nil, or_false, not_or] at h
  obtain ⟨h1, h2, h3, h4, h5, h6⟩ := h
  unfold parseCategory
  split <;> first | contradiction | rfl

theorem not_mem_kernelCategories {kind : String} (h : '.' ∈ kind.toList) :
    kind ∉ kernelCategories := by
  have hdots : ∀ category ∈ kernelCategories, '.' ∉ category.toList := by decide
  exact fun hmem => hdots kind hmem h

theorem category_mem (p : Permission) :
    p.category ∈ kernelCategories ∨ ∃ kind value, p = appDefined kind value := by
  cases p <;> simp [category, kernelCategories]

/-- The category is read off the text before the first colon, the rest by the category's parser. -/
theorem parseCategory_ok {raw category rest : String} (hcolon : ':' ∉ category.toList)
    {p : Permission} : parseCategory raw category rest = .ok p ↔
      p.WellFormed ∧ p.category = category ∧ p.rest = rest := by
  by_cases hkernel : category ∈ kernelCategories
  · have happ : ∀ kind value, (appDefined kind value).WellFormed → kind ≠ category := by
      rintro kind value ⟨-, hdot, -⟩ rfl
      exact not_mem_kernelCategories hdot hkernel
    simp only [kernelCategories, List.mem_cons, List.not_mem_nil, or_false] at hkernel
    rcases hkernel with rfl | rfl | rfl | rfl | rfl | rfl
    · refine (@parseNetwork_ok raw rest p).trans ⟨?_, ?_⟩
      · rintro ⟨host, hwf, hrest, rfl⟩
        exact ⟨hwf, rfl, hrest⟩
      · rintro ⟨hwf, hcategory, hrest⟩
        cases p with
        | networkEgress host => exact ⟨host, hwf, hrest, rfl⟩
        | appDefined kind value => exact absurd hcategory (happ kind value hwf)
        | _ => simp [category] at hcategory
    · refine (@parseBlobs_ok raw rest p).trans ⟨?_, ?_⟩
      · rintro ⟨op, path, hwf, hrest, rfl⟩
        exact ⟨hwf, rfl, hrest⟩
      · rintro ⟨hwf, hcategory, hrest⟩
        cases p with
        | blobs op path => exact ⟨op, path, hwf, hrest, rfl⟩
        | appDefined kind value => exact absurd hcategory (happ kind value hwf)
        | _ => simp [category] at hcategory
    · refine (@parseStepType_ok raw rest p).trans ⟨?_, ?_⟩
      · rintro ⟨hwf, rfl⟩
        exact ⟨hwf, rfl, rfl⟩
      · rintro ⟨hwf, hcategory, hrest⟩
        cases p with
        | stepType name =>
          cases hrest
          exact ⟨hwf, rfl⟩
        | appDefined kind value => exact absurd hcategory (happ kind value hwf)
        | _ => simp [category] at hcategory
    · refine (@parseProvide_ok raw rest p).trans ⟨?_, ?_⟩
      · rintro ⟨ty, selector, hwf, hrest, rfl⟩
        exact ⟨hwf, rfl, hrest⟩
      · rintro ⟨hwf, hcategory, hrest⟩
        cases p with
        | provideStepType ty selector => exact ⟨ty, selector, hwf, hrest, rfl⟩
        | appDefined kind value => exact absurd hcategory (happ kind value hwf)
        | _ => simp [category] at hcategory
    · refine (@parseBind_ok raw rest p).trans ⟨?_, ?_⟩
      · rintro ⟨implRef, hwf, hrest, rfl⟩
        exact ⟨hwf, rfl, hrest⟩
      · rintro ⟨hwf, hcategory, hrest⟩
        cases p with
        | bindNativeImpl implRef => exact ⟨implRef, hwf, hrest, rfl⟩
        | appDefined kind value => exact absurd hcategory (happ kind value hwf)
        | _ => simp [category] at hcategory
    · refine (@parseInvoke_ok raw rest p).trans ⟨?_, ?_⟩
      · rintro ⟨pattern, hwf, ⟨hrest, rfl⟩ | ⟨hrest, rfl⟩⟩
        · exact ⟨hwf, rfl, hrest⟩
        · exact ⟨hwf, rfl, hrest⟩
      · rintro ⟨hwf, hcategory, hrest⟩
        cases p with
        | invokePlugin pattern => exact ⟨pattern, hwf, Or.inl ⟨hrest, rfl⟩⟩
        | invokeRole pattern => exact ⟨pattern, hwf, Or.inr ⟨hrest, rfl⟩⟩
        | appDefined kind value => exact absurd hcategory (happ kind value hwf)
        | _ => simp [category] at hcategory
  · rw [parseCategory_app hkernel, parseApp_ok]
    constructor
    · rintro ⟨hdot, hrest, rfl⟩
      exact ⟨⟨hcolon, hdot, hrest⟩, rfl, rfl⟩
    · rintro ⟨hwf, hcategory, hrest⟩
      rcases category_mem p with hmem | ⟨kind, value, rfl⟩
      · exact absurd (hcategory ▸ hmem) hkernel
      · cases hcategory
        cases hrest
        exact ⟨hwf.2.1, hwf.2.2, rfl⟩

/-- Nothing is written with an empty rest, and no category has a colon. -/
theorem WellFormed.rest_ne {p : Permission} (hwf : p.WellFormed) : p.rest ≠ "" := by
  cases p with
  | networkEgress host => exact append_ne_empty_right (HostPattern.WellFormed.text_ne hwf)
  | blobs op path => exact append_ne_empty_right (PathPattern.WellFormed.text_ne hwf)
  | stepType name => exact ne_empty_of_toList (IsStepTypeName.ne_nil hwf)
  | invokePlugin pattern => exact append_ne_empty_right (NamePattern.WellFormed.text_ne hwf)
  | invokeRole pattern => exact append_ne_empty_right (NamePattern.WellFormed.text_ne hwf)
  | provideStepType ty selector =>
    exact append_ne_empty_right (append_ne_empty_left (ne_empty_of_toList hwf.1.ne_nil))
  | bindNativeImpl implRef =>
    exact append_ne_empty_right (ne_empty_of_toList (IsImplRef.ne_nil hwf))
  | appDefined kind value => exact hwf.2.2

theorem WellFormed.category_noColon {p : Permission} (hwf : p.WellFormed) :
    ':' ∉ p.category.toList := by
  rcases category_mem p with hmem | ⟨kind, value, rfl⟩
  · have hcolons : ∀ category ∈ kernelCategories, ':' ∉ category.toList := by decide
    exact hcolons _ hmem
  · exact hwf.1

theorem WellFormed.text_ne {p : Permission} (hwf : p.WellFormed) : p.text ≠ "" :=
  append_ne_empty_right hwf.rest_ne

theorem splitColon_fst_noColon (s : String) : ':' ∉ (splitColon s).1.toList := by
  rw [splitColon]
  cases hsplit : splitOnce ':' s.toList with
  | none => exact splitOnce_eq_none.mp hsplit
  | some parts => simpa using (splitOnce_iff.mp hsplit).1

/-- The parser accepts a text exactly when it is, whitespace around it aside, how some permission
is written, and it is that permission it returns. -/
theorem parsePermission_iff {s : String} {p : Permission} : parsePermission s = .ok p ↔
    p.WellFormed ∧ p.text.toList = trim s.toList := by
  have htext : (p.text.toList = trim s.toList) ↔ p.text = String.ofList (trim s.toList) := by
    rw [← String.toList_inj, String.toList_ofList]
  rw [htext, parsePermission]
  by_cases hempty : String.ofList (trim s.toList) = ""
  · simp only [if_pos hempty]
    exact iff_of_false (fun h => nomatch h) fun h => h.1.text_ne (h.2.trans hempty)
  · simp only [if_neg hempty]
    rcases hsplit : splitColon (String.ofList (trim s.toList)) with ⟨category, rest⟩
    have hcolon := splitColon_fst_noColon (String.ofList (trim s.toList))
    rw [hsplit] at hcolon
    refine (parseCategory_ok hcolon).trans (and_congr_right fun hwf => ?_)
    constructor
    · rintro ⟨rfl, rfl⟩
      exact ((splitColon_iff hwf.rest_ne).mp hsplit).2.symm
    · intro h
      have hwritten := (splitColon_iff hwf.rest_ne).mpr ⟨hwf.category_noColon, h.symm⟩
      rw [hsplit, Prod.mk.injEq] at hwritten
      exact ⟨hwritten.1.symm, hwritten.2.symm⟩

end Permission

/-! ### Trimming around a colon -/

theorem rdropWhile_append_stop {a v : List Char} {d : Char} (hd : isWhiteSpace d = false) :
    (a ++ d :: v).rdropWhile isWhiteSpace = a ++ d :: v.rdropWhile isWhiteSpace := by
  induction v using List.reverseRecOn with
  | nil => exact List.rdropWhile_concat_neg _ _ _ (by simp [hd])
  | append_singleton v e ih =>
    have hshape : a ++ d :: (v ++ [e]) = (a ++ d :: v) ++ [e] := by simp
    by_cases he : isWhiteSpace e = true
    · rw [hshape, List.rdropWhile_concat_pos _ _ _ he, List.rdropWhile_concat_pos _ _ _ he, ih]
    · rw [hshape, List.rdropWhile_concat_neg _ _ _ he, List.rdropWhile_concat_neg _ _ _ he, hshape]

theorem dropWhile_append_stop {c : List Char} {d : Char} {v : List Char}
    (hd : isWhiteSpace d = false) :
    (c ++ d :: v).dropWhile isWhiteSpace = c.dropWhile isWhiteSpace ++ d :: v := by
  induction c with
  | nil => simp [hd]
  | cons e c ih =>
    by_cases he : isWhiteSpace e = true
    · simpa [he] using ih
    · simp [he]

theorem takeWhile_append_colon {c v : List Char} :
    (c ++ ':' :: v).takeWhile isWhiteSpace = c.takeWhile isWhiteSpace := by
  induction c with
  | nil => rfl
  | cons e c ih =>
    by_cases he : isWhiteSpace e = true
    · simpa [he] using ih
    · simp [he]

theorem rtakeWhile_append_stop {a v : List Char} {d : Char} (hd : isWhiteSpace d = false) :
    (a ++ d :: v).rtakeWhile isWhiteSpace = v.rtakeWhile isWhiteSpace := by
  induction v using List.reverseRecOn with
  | nil => exact List.rtakeWhile_concat_neg _ _ _ (by simp [hd])
  | append_singleton v e ih =>
    have hshape : a ++ d :: (v ++ [e]) = (a ++ d :: v) ++ [e] := by simp
    by_cases he : isWhiteSpace e = true
    · rw [hshape, List.rtakeWhile_concat_pos _ _ _ he, List.rtakeWhile_concat_pos _ _ _ he, ih]
    · rw [hshape, List.rtakeWhile_concat_neg _ _ _ he, List.rtakeWhile_concat_neg _ _ _ he]

/-- A colon is never trimmed, so each side of it is trimmed at its own end. -/
theorem trim_colon {c v : List Char} : trim (c ++ ':' :: v) =
    c.dropWhile isWhiteSpace ++ ':' :: v.rdropWhile isWhiteSpace := by
  rw [trim, dropWhile_append_stop (by decide), rdropWhile_append_stop (by decide)]

theorem mem_dropWhile_iff {c : List Char} {d : Char} (hd : isWhiteSpace d = false) :
    d ∈ c.dropWhile isWhiteSpace ↔ d ∈ c := by
  constructor
  · exact fun h => List.dropWhile_subset _ h
  · intro h
    rw [← List.takeWhile_append_dropWhile (p := isWhiteSpace) (l := c), List.mem_append] at h
    rcases h with h | h
    · rw [List.mem_takeWhile_imp h] at hd
      cases hd
    · exact h

theorem mem_rdropWhile_iff {v : List Char} {d : Char} (hd : isWhiteSpace d = false) :
    d ∈ v.rdropWhile isWhiteSpace ↔ d ∈ v := by
  rw [List.rdropWhile, List.mem_reverse, mem_dropWhile_iff hd, List.mem_reverse]

/-! ### The category and the rest -/

theorem toList_text (p : Permission) :
    p.text.toList = p.category.toList ++ ':' :: p.rest.toList := by
  simp [Permission.text]

theorem text_eq_iff {p : Permission} (hp : ':' ∉ p.category.toList) {c r : List Char}
    (hc : ':' ∉ c) :
    p.text.toList = c ++ ':' :: r ↔ p.category.toList = c ∧ p.rest.toList = r := by
  rw [toList_text]
  constructor
  · intro h
    have hfirst : splitOnce ':' (p.category.toList ++ ':' :: p.rest.toList) =
        some (p.category.toList, p.rest.toList) := splitOnce_iff.mpr ⟨hp, rfl⟩
    rw [h, splitOnce_iff.mpr ⟨hc, rfl⟩, Option.some.injEq, Prod.mk.injEq] at hfirst
    exact ⟨hfirst.1.symm, hfirst.2.symm⟩
  · rintro ⟨hcategory, hrest⟩
    rw [hcategory, hrest]

theorem parse_split {s : String} {c v : List Char} (hs : s.toList = c ++ ':' :: v)
    (hc : ':' ∉ c) :
    (∃ p, Permission.parsePermission s = .ok p) ↔ ∃ p : Permission, p.WellFormed ∧
      p.category.toList = c.dropWhile isWhiteSpace ∧
        p.rest.toList = v.rdropWhile isWhiteSpace := by
  have hc' : ':' ∉ c.dropWhile isWhiteSpace := (mem_dropWhile_iff (by decide)).not.mpr hc
  refine exists_congr fun p => ?_
  rw [Permission.parsePermission_iff, hs, trim_colon]
  exact and_congr_right fun hwf => text_eq_iff hwf.category_noColon hc'

/-! ### Text without space -/

theorem notWhiteSpace_of_nameChar {c : Char} (h : nameChar false c = true ∨ c = '.' ∨ c = ':') :
    isWhiteSpace c = false := by
  rcases h with h | rfl | rfl
  · by_contra hspace
    rw [Bool.not_eq_false] at hspace
    simp only [isWhiteSpace, Bool.or_eq_true, Bool.and_eq_true, decide_eq_true_eq,
      beq_iff_eq] at hspace
    simp only [nameChar, Bool.or_eq_true, Bool.and_eq_true, Ascii.isAlphanum_iff, beq_iff_eq,
      Bool.not_false, and_true] at h
    rcases h with (h | rfl) | rfl
    · omega
    · revert hspace
      decide
    · revert hspace
      decide
  · decide
  · decide

theorem rdropWhile_of_plain {cs : List Char} (h : ∀ c ∈ cs, isWhiteSpace c = false) :
    cs.rdropWhile isWhiteSpace = cs := by
  rw [List.rdropWhile_eq_self_iff]
  intro hne
  rw [h _ (List.getLast_mem hne)]
  exact Bool.false_ne_true

theorem plain_of_dotted {cs : List Char} (h : ∀ c ∈ cs, nameChar false c = true ∨ c = '.') :
    ∀ c ∈ cs, isWhiteSpace c = false := fun c hc =>
  notWhiteSpace_of_nameChar ((h c hc).imp_right Or.inl)

theorem dropWhile_of_plain {cs : List Char} (h : ∀ c ∈ cs, isWhiteSpace c = false) :
    cs.dropWhile isWhiteSpace = cs := by
  cases cs with
  | nil => rfl
  | cons c cs => rw [List.dropWhile_cons_of_neg (by simp [h c List.mem_cons_self])]

end Gwead
