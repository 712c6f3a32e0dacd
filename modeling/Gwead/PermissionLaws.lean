import Gwead.PermissionAgreement

/-!
# Reading and writing permissions

A permission that is written down is read back as it was, and an entry that is refused is quoted in
the refusal.
-/

namespace Gwead

open Identity

/-! ### Errors -/

/-- The error quotes the entry it refuses. -/
def PermissionParseError.Quotes (raw : String) : PermissionParseError → Prop
  | empty => True
  | reservedCategory r _ => r = raw
  | unknownAppCategory r _ _ => r = raw
  | appValueRejected r _ _ => r = raw
  | malformed r _ => r = raw

namespace Permission

def Quoting {α : Type} (raw : String) (r : Except PermissionParseError α) : Prop :=
  ∀ e, r = .error e → e.Quotes raw

section Quoting

variable {α β : Type} {raw : String}

theorem quoting_ok {a : α} : Quoting raw (.ok a) := fun _ h => nomatch h

theorem quoting_malformed {reason : String} :
    Quoting raw (.error (.malformed raw reason) : Except PermissionParseError α) := by
  intro e h
  cases h
  rfl

theorem quoting_bind {r : Except PermissionParseError α} {f : α → Except PermissionParseError β}
    (hr : Quoting raw r) (hf : ∀ a, Quoting raw (f a)) : Quoting raw (r >>= f) := by
  intro e h
  cases r with
  | error d =>
    have hd : d = e := by
      cases h
      rfl
    exact hd ▸ hr d rfl
  | ok a => exact hf a e h

theorem quoting_rejectGlobChars {field s : String} : Quoting raw (rejectGlobChars raw field s) := by
  unfold rejectGlobChars
  split
  · exact quoting_malformed
  · exact quoting_ok

theorem quoting_nameError {r : Except NameError α} : Quoting raw (nameError raw r) := by
  cases r with
  | error e => exact quoting_malformed
  | ok a => exact quoting_ok

theorem quoting_parseHostPattern {s : String} : Quoting raw (parseHostPattern raw s) := by
  unfold parseHostPattern
  split
  · exact quoting_ok
  · split
    · exact quoting_malformed
    · split
      · split
        · exact quoting_malformed
        · exact quoting_bind quoting_rejectGlobChars fun _ => quoting_ok
      · exact quoting_bind quoting_rejectGlobChars fun _ => quoting_ok

theorem quoting_parsePathPattern {s : String} : Quoting raw (parsePathPattern raw s) := by
  unfold parsePathPattern
  split
  · exact quoting_ok
  · split
    · exact quoting_bind quoting_rejectGlobChars fun _ => quoting_ok
    · exact quoting_bind quoting_rejectGlobChars fun _ => quoting_ok

theorem quoting_parseTargetName {name : String} {kind : NameKind} :
    Quoting raw (parseTargetName raw name kind) := by
  unfold parseTargetName
  split
  · exact quoting_ok
  · exact quoting_bind quoting_rejectGlobChars fun _ =>
      quoting_bind quoting_nameError fun _ => quoting_ok

theorem quoting_provideTarget {target : String} : Quoting raw (provideTarget raw target) := by
  unfold provideTarget
  split
  · exact quoting_malformed
  · exact quoting_ok
  · exact quoting_ok

theorem quoting_checkSelector {selector : Option String} :
    Quoting raw (checkSelector raw selector) := by
  cases selector with
  | none => exact quoting_ok
  | some sel => exact quoting_bind quoting_rejectGlobChars fun _ => quoting_nameError

theorem quoting_parseCategory {category rest : String} :
    Quoting raw (parseCategory raw category rest) := by
  unfold parseCategory
  split
  · unfold parseNetwork
    split
    split
    · exact quoting_malformed
    · split
      · exact quoting_malformed
      · exact quoting_bind quoting_parseHostPattern fun _ => quoting_ok
  · unfold parseBlobs
    split
    split
    · exact quoting_malformed
    · split
      · exact quoting_malformed
      · exact quoting_bind quoting_parsePathPattern fun _ => quoting_ok
  · unfold parseStepType
    split
    · exact quoting_malformed
    · exact quoting_bind quoting_rejectGlobChars fun _ =>
        quoting_bind quoting_nameError fun _ => quoting_ok
  · unfold parseProvide
    split
    split
    · exact quoting_malformed
    · split
      · exact quoting_malformed
      · exact quoting_bind quoting_provideTarget fun _ =>
          quoting_bind quoting_rejectGlobChars fun _ => quoting_bind quoting_nameError fun _ =>
            quoting_bind quoting_checkSelector fun _ => quoting_ok
  · unfold parseBind
    split
    split
    · exact quoting_malformed
    · split
      · exact quoting_malformed
      · exact quoting_bind quoting_rejectGlobChars fun _ =>
          quoting_bind quoting_nameError fun _ => quoting_ok
  · unfold parseInvoke
    split
    split
    · exact quoting_malformed
    · split
      · exact quoting_bind quoting_parseTargetName fun _ => quoting_ok
      · split
        · exact quoting_bind quoting_parseTargetName fun _ => quoting_ok
        · exact quoting_malformed
  · unfold parseApp
    split
    · intro e h
      cases h
      trivial
    · split
      · intro e h
        cases h
        rfl
      · split
        · exact quoting_malformed
        · exact quoting_ok

end Quoting

end Permission

/-! ### Around a permission -/

theorem trim_padded (p : Permission) {before after : String} (hbefore : Blank before)
    (hafter : Blank after) :
    trim (before ++ p.text ++ after).toList = trim p.text.toList := by
  have hshape : (before ++ p.text ++ after).toList =
      (before.toList ++ p.category.toList) ++ ':' :: (p.rest.toList ++ after.toList) := by
    rw [String.toList_append, String.toList_append, toList_text, List.append_assoc,
      List.append_assoc, List.append_assoc, List.cons_append]
  have hreversed : ∀ c ∈ after.toList.reverse, isWhiteSpace c = true := fun c hc =>
    hafter c (List.mem_reverse.mp hc)
  rw [hshape, toList_text, trim_colon, trim_colon, List.dropWhile_append_of_pos hbefore,
    List.rdropWhile, List.reverse_append, List.dropWhile_append_of_pos hreversed, List.rdropWhile]

/-- A permission that ends with its last segment has no whitespace at its ends. -/
theorem trim_closed {p : Permission} (hwf : p.WellFormed) (hopen : ¬p.OpenEnded) :
    trim p.text.toList = p.text.toList := by
  have hcategory : p.category ∈ Permission.kernelCategories := by
    rcases Permission.category_mem p with hmem | ⟨kind, value, rfl⟩
    · exact hmem
    · exact absurd trivial hopen
  rw [toList_text, trim_colon, (kernelCategory_plain _ hcategory).1, rdropWhile_closed hwf hopen]

theorem text_injective {p q : Permission} (hp : p.WellFormed) (hq : q.WellFormed)
    (hpq : p.text = q.text) : p = q := by
  have hsame := (text_eq_iff hp.category_noColon hq.category_noColon).mp
    ((congrArg String.toList hpq).trans (toList_text q))
  have hparse : Permission.parseCategory q.text q.category q.rest = .ok p :=
    (Permission.parseCategory_ok hq.category_noColon).mpr
      ⟨hp, String.toList_inj.mp hsame.1, String.toList_inj.mp hsame.2⟩
  have hother : Permission.parseCategory q.text q.category q.rest = .ok q :=
    (Permission.parseCategory_ok hq.category_noColon).mpr ⟨hq, rfl, rfl⟩
  exact Except.ok.inj (hparse.symm.trans hother)

/-! ### The grammar -/

/-- The texts of permissions: what is accepted, when a permission that is written down is read back
as itself, and what a refusal says. -/
structure PermissionGrammar : Prop where
  accepted : ∀ s, (∃ p, Permission.parsePermission s = .ok p) ↔
    ∃ p : Permission, p.WellFormed ∧ p.text.toList = trim s.toList
  round : ∀ p : Permission, p.WellFormed → ∀ before after, Blank before → Blank after →
    (Permission.parsePermission (before ++ p.text ++ after) = .ok p ↔
      trim p.text.toList = p.text.toList)
  closed : ∀ p : Permission, p.WellFormed → ¬p.OpenEnded → trim p.text.toList = p.text.toList
  unique : ∀ p q : Permission, p.WellFormed → q.WellFormed → p.text = q.text → p = q
  quoted : ∀ s e, Permission.parsePermission s = .error e →
    e.Quotes (String.ofList (trim s.toList))

theorem permission_grammar : PermissionGrammar where
  accepted s := exists_congr fun _ => Permission.parsePermission_iff
  round p hwf before after hbefore hafter := by
    rw [Permission.parsePermission_iff, trim_padded p hbefore hafter, and_iff_right hwf, eq_comm]
  closed _ := trim_closed
  unique _ _ := text_injective
  quoted s e h := by
    unfold Permission.parsePermission at h
    dsimp only at h
    split at h
    · cases h
      trivial
    · exact Permission.quoting_parseCategory e h

end Gwead
