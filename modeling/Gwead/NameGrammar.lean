import Gwead.Identity
import Gwead.Lib.Ascii
import Gwead.Lib.Regex

/-!
# The grammar of names

What the name validators accept, and the patterns by which the meta-schema describes the same
names.
-/

namespace Gwead

open Identity

/-- A letter, digit or underscore, then at most 127 of these or hyphens. -/
structure IsName (cs : List Char) : Prop where
  first : ∃ c ∈ cs.head?, nameChar true c = true
  later : ∀ c ∈ cs, nameChar false c = true
  length : cs.length ≤ maxNameLen

/-! ### Characters of a name -/

theorem nameChar_false_of_true {c : Char} (h : nameChar true c = true) :
    nameChar false c = true := by
  simp only [nameChar, Bool.not_true, Bool.and_false, Bool.or_false, Bool.or_eq_true] at h
  rcases h with h | h <;> simp [nameChar, h]

theorem utf8Size_of_nameChar {c : Char} (h : nameChar false c = true) : c.utf8Size = 1 := by
  have hle : c.val ≤ 0x7f := by
    simp only [nameChar, Bool.or_eq_true, Bool.and_eq_true, Ascii.isAlphanum_iff, beq_iff_eq,
      Bool.not_false, and_true] at h
    refine UInt32.le_iff_toNat_le.mpr (show c.toNat ≤ 127 from ?_)
    rcases h with (h | rfl) | rfl
    · omega
    · decide
    · decide
  exact Char.utf8Size_eq_one_iff.mpr hle

theorem utf8ByteSize_of_nameChars {name : String}
    (h : ∀ c ∈ name.toList, nameChar false c = true) :
    name.utf8ByteSize = name.toList.length := by
  obtain ⟨cs, rfl⟩ : ∃ cs, name = String.ofList cs := ⟨name.toList, String.ofList_toList.symm⟩
  rw [String.toList_ofList] at h ⊢
  induction cs with
  | nil => rfl
  | cons c cs ih =>
    obtain ⟨hc, hcs⟩ := List.forall_mem_cons.mp h
    rw [String.ofList_cons, String.utf8ByteSize_append, String.utf8ByteSize_singleton, ih hcs,
      utf8Size_of_nameChar hc, List.length_cons, Nat.add_comm]

theorem not_mem_of_nameChars {cs : List Char} (h : ∀ c ∈ cs, nameChar false c = true) {d : Char}
    (hd : nameChar false d = false) : d ∉ cs := fun hmem => by
  rw [h d hmem] at hd
  cases hd

theorem IsName.not_mem {cs : List Char} (h : IsName cs) {d : Char}
    (hd : nameChar false d = false) : d ∉ cs := not_mem_of_nameChars h.later hd

theorem IsName.ne_nil {cs : List Char} (h : IsName cs) : cs ≠ [] := by
  rintro rfl
  obtain ⟨c, hc, _⟩ := h.first
  cases hc

/-! ### The validators -/

theorem invalidChar?_none_iff {cs : List Char} (hne : cs ≠ []) : invalidChar? cs = none ↔
    (∃ c ∈ cs.head?, nameChar true c = true) ∧ ∀ c ∈ cs, nameChar false c = true := by
  obtain ⟨c, cs, rfl⟩ := List.exists_cons_of_ne_nil hne
  by_cases hc : nameChar true c = true
  · simp [invalidChar?, hc, nameChar_false_of_true hc]
  · simp [invalidChar?, hc]

theorem validateName_iff {kind : NameKind} {name : String} : validateName kind name = .ok () ↔
    IsName name.toList ∧ (kind = .stepId → ∀ c ∈ name.toList.head?, c.isDigit = false) := by
  by_cases hempty : name = ""
  · subst hempty
    refine iff_of_false (by simp [validateName]) fun h => h.1.ne_nil rfl
  · have hne : name.toList ≠ [] := by simpa using hempty
    constructor
    · intro h
      have hsep := validateName_noSeparator h
      unfold validateName at h
      rw [if_neg hempty] at h
      split at h
      · cases h
      · rename_i hlen
        rw [if_neg (by simpa using hsep)] at h
        split at h
        · cases h
        · rename_i hdigit
          cases hinvalid : invalidChar? name.toList with
          | some d => simp [hinvalid] at h
          | none =>
            obtain ⟨hfirst, hlater⟩ := (invalidChar?_none_iff hne).mp hinvalid
            refine ⟨⟨hfirst, hlater, ?_⟩, fun hkind c hc => ?_⟩
            · rw [← utf8ByteSize_of_nameChars hlater]
              omega
            · rw [hkind, hc] at hdigit
              simpa using hdigit
    · rintro ⟨hname, hdigit⟩
      have hinvalid := (invalidChar?_none_iff hne).mpr ⟨hname.first, hname.later⟩
      have hlen := hname.length
      rw [← utf8ByteSize_of_nameChars hname.later] at hlen
      have hsep : namespaceSeparator ∉ name.toList := hname.not_mem (by decide)
      have hdigit : ¬ (kind = .stepId ∧ (name.toList.head?.any Char.isDigit) = true) := by
        rintro ⟨hkind, hany⟩
        obtain ⟨c, hc, hcd⟩ := (Option.any_eq_true _ _).mp hany
        rw [hdigit hkind c hc] at hcd
        cases hcd
      rw [validateName, if_neg hempty, if_neg (by omega), if_neg (by simpa using hsep),
        if_neg hdigit, hinvalid]

theorem validateName_iff_isName {kind : NameKind} (hkind : kind ≠ .stepId) {name : String} :
    validateName kind name = .ok () ↔ IsName name.toList := by
  rw [validateName_iff]
  exact and_iff_left fun h => absurd h hkind

theorem splitOnce_eq_none {sep : Char} {cs : List Char} : splitOnce sep cs = none ↔ sep ∉ cs := by
  induction cs with
  | nil => simp [splitOnce]
  | cons c cs ih =>
    rw [splitOnce, List.mem_cons, not_or, ← ih]
    by_cases hc : c = sep
    · simp [hc]
    · simp [hc, Ne.symm hc]

/-- The first part has no separator: the split is at the first one. -/
theorem splitOnce_iff {sep : Char} {cs a b : List Char} :
    splitOnce sep cs = some (a, b) ↔ sep ∉ a ∧ cs = a ++ sep :: b := by
  induction cs generalizing a with
  | nil => simp [splitOnce]
  | cons c cs ih =>
    rw [splitOnce]
    by_cases hc : c = sep
    · rw [if_pos hc, hc]
      cases a with
      | nil => simp [eq_comm]
      | cons d a =>
        refine iff_of_false (by simp) ?_
        rintro ⟨hnot, heq⟩
        rw [List.cons_append, List.cons.injEq] at heq
        exact hnot (heq.1 ▸ List.mem_cons_self)
    · rw [if_neg hc, Option.map_eq_some_iff]
      constructor
      · rintro ⟨⟨a', b'⟩, hsplit, heq⟩
        cases heq
        obtain ⟨hnot, hcs⟩ := ih.mp hsplit
        refine ⟨?_, by rw [hcs, List.cons_append]⟩
        rw [List.mem_cons, not_or]
        exact ⟨Ne.symm hc, hnot⟩
      · rintro ⟨hnot, heq⟩
        cases a with
        | nil => exact absurd (List.cons.inj heq).1 hc
        | cons d a =>
          rw [List.cons_append, List.cons.injEq] at heq
          obtain ⟨rfl, hcs⟩ := heq
          refine ⟨(a, b), ih.mpr ⟨fun hmem => hnot (List.mem_cons_of_mem _ hmem), hcs⟩, rfl⟩

/-- A name, or two around a dot. -/
def IsStepTypeName (cs : List Char) : Prop :=
  IsName cs ∨ ∃ a b, IsName a ∧ IsName b ∧ cs = a ++ stepTypeSeparator :: b

theorem stepTypeSeparator_not_nameChar : nameChar false stepTypeSeparator = false := by decide

theorem validateStepTypeReference_iff {name : String} :
    validateStepTypeReference name = .ok () ↔ IsStepTypeName name.toList := by
  rw [validateStepTypeReference, IsStepTypeName]
  cases hsplit : splitOnce stepTypeSeparator name.toList with
  | none =>
    have hdot := splitOnce_eq_none.mp hsplit
    have hnot : ¬ ∃ a b, IsName a ∧ IsName b ∧ name.toList = a ++ stepTypeSeparator :: b := by
      rintro ⟨a, b, -, -, heq⟩
      exact hdot (by simp [heq])
    rw [or_iff_left hnot]
    exact validateName_iff_isName (by decide)
  | some parts =>
    obtain ⟨owner, localName⟩ := parts
    obtain ⟨hdot, heq⟩ := splitOnce_iff.mp hsplit
    have hnot : ¬ IsName name.toList := fun h =>
      h.not_mem stepTypeSeparator_not_nameChar (by simp [heq])
    rw [or_iff_right hnot]
    have howner := @validateName_iff_isName .plugin (by decide) (String.ofList owner)
    have hlocal := @validateName_iff_isName .stepType (by decide) (String.ofList localName)
    rw [String.toList_ofList] at howner hlocal
    constructor
    · intro h
      cases hvalid : validateName .plugin (String.ofList owner) with
      | error e => simp [hvalid] at h
      | ok _ =>
        simp only [hvalid] at h
        exact ⟨owner, localName, howner.mp hvalid, hlocal.mp h, heq⟩
    · rintro ⟨a, b, ha, hb, hab⟩
      have hsame := splitOnce_iff.mpr ⟨ha.not_mem stepTypeSeparator_not_nameChar, hab⟩
      rw [hsplit, Option.some.injEq, Prod.mk.injEq] at hsame
      rw [← hsame.1] at ha
      rw [← hsame.2] at hb
      simp only [howner.mpr ha]
      exact hlocal.mpr hb

theorem firstError_eq_ok {α ε : Type} {check : α → Except ε Unit} {items : List α} :
    firstError check items = .ok () ↔ ∀ a ∈ items, check a = .ok () := by
  induction items with
  | nil => simp [firstError]
  | cons a items ih =>
    rw [firstError, List.forall_mem_cons, ← ih]
    cases hcheck : check a with
    | error e => simp
    | ok _ => simp

theorem splitAll_eq_splitOn (sep : Char) (cs : List Char) : splitAll sep cs = cs.splitOn sep := by
  induction cs with
  | nil => rfl
  | cons c cs ih =>
    rw [splitAll, List.splitOn_cons_eq_if_modifyHead, ih]
    by_cases hc : c = sep
    · simp [hc]
    · rw [if_neg hc, if_neg (by simpa using hc)]
      cases hsplit : cs.splitOn sep with
      | nil => exact absurd hsplit (List.splitOn_ne_nil sep cs)
      | cons part parts => rfl

theorem mem_of_mem_splitAll {sep c : Char} {cs : List Char} (hc : c ≠ sep) :
    c ∈ cs → ∃ part ∈ splitAll sep cs, c ∈ part := by
  induction cs with
  | nil => simp
  | cons d cs ih =>
    intro hmem
    rw [splitAll]
    by_cases hd : d = sep
    · rw [if_pos hd]
      rcases List.mem_cons.mp hmem with rfl | hmem
      · exact absurd hd hc
      · obtain ⟨part, hpart, hin⟩ := ih hmem
        exact ⟨part, List.mem_cons_of_mem _ hpart, hin⟩
    · rw [if_neg hd]
      cases hsplit : splitAll sep cs with
      | nil =>
        rw [hsplit] at ih
        rcases List.mem_cons.mp hmem with rfl | hmem
        · exact ⟨[c], List.mem_cons_self, List.mem_cons_self⟩
        · obtain ⟨part, hpart, -⟩ := ih hmem
          cases hpart
      | cons part parts =>
        rw [hsplit] at ih
        rcases List.mem_cons.mp hmem with rfl | hmem
        · exact ⟨c :: part, List.mem_cons_self, List.mem_cons_self⟩
        · obtain ⟨other, hother, hin⟩ := ih hmem
          rcases List.mem_cons.mp hother with rfl | hother
          · exact ⟨d :: other, List.mem_cons_self, List.mem_cons_of_mem _ hin⟩
          · exact ⟨other, List.mem_cons_of_mem _ hother, hin⟩

/-- Names with a dot between each two. -/
def IsImplRef (cs : List Char) : Prop := ∀ part ∈ splitAll '.' cs, IsName part

theorem validateImplRef_iff {reference : String} :
    validateImplRef reference = .ok () ↔ IsImplRef reference.toList := by
  have hsegments : firstError
      (fun segment => validateName .nativeImplRefSegment (String.ofList segment))
      (splitAll '.' reference.toList) = .ok () ↔ IsImplRef reference.toList := by
    rw [firstError_eq_ok, IsImplRef]
    refine forall₂_congr fun part _ => ?_
    rw [validateName_iff_isName (by decide), String.toList_ofList]
  constructor
  · intro h
    unfold validateImplRef at h
    split at h
    · cases h
    · split at h
      · cases h
      · exact hsegments.mp h
  · intro h
    have hempty : reference ≠ "" := by
      rintro rfl
      exact (h [] (by simp [splitAll])).ne_nil rfl
    have hsep : namespaceSeparator ∉ reference.toList := fun hmem => by
      obtain ⟨part, hpart, hin⟩ := mem_of_mem_splitAll (show namespaceSeparator ≠ '.' by decide) hmem
      exact (h part hpart).not_mem (by decide) hin
    rw [validateImplRef, if_neg hempty, if_neg (by simpa using hsep)]
    exact hsegments.mpr h

end Gwead
