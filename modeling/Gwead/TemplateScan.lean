import Gwead.Resolve

/-!
# The template matcher over pieces of text

What one match of the template pattern captures, and what the left-to-right replacement makes of
a text put together from pieces.
-/

namespace Gwead

/-- The two characters that stand around a template, each written twice. -/
def opening : List Char := ['{', '{']

def closing : List Char := ['}', '}']

/-- A pair is found exactly where it stands somewhere in the text. -/
theorem hasDouble_iff {c : Char} {cs : List Char} : hasDouble c cs = true ↔ [c, c] <:+: cs := by
  induction cs with
  | nil => simp [hasDouble]
  | cons a cs ih =>
    cases cs with
    | nil => simp [hasDouble, List.infix_cons_iff]
    | cons b rest =>
      rw [List.infix_cons_iff, ← ih, hasDouble, List.cons_prefix_cons, List.cons_prefix_cons,
        @eq_comm _ c a, @eq_comm _ c b]
      simp

/-- A closing brace behind a text completes no opening pair. -/
theorem opening_infix_concat {cs : List Char} (h : opening <:+: cs ++ ['}']) : opening <:+: cs := by
  obtain ⟨before, h⟩ | h := List.infix_concat_iff.mp h
  · have hlast := congrArg List.getLast? h
    simp [opening] at hlast
  · exact h

section Scan

variable {f : List Char → List Char} {text body rest : List Char}

theorem replaceTemplates_skip (n : Nat) (cs : List Char) :
    replaceTemplates f n cs = replaceTemplates f 0 (cs.drop n) := by
  induction n generalizing cs with
  | zero => rfl
  | succ n ih =>
    cases cs with
    | nil => simp [replaceTemplates]
    | cons c cs => simp [replaceTemplates, ih]

/-- A match starts with the opening pair. -/
theorem opening_of_templateAt {cs : List Char} (h : templateAt cs = some body) :
    opening <+: cs := by
  unfold templateAt at h
  split at h
  · exact ⟨_, rfl⟩
  · cases h

/-- A text in which no opening pair starts is copied. -/
theorem replaceTemplates_text (h : ¬ opening <:+: text ++ rest.take 1) :
    replaceTemplates f 0 (text ++ rest) = text ++ replaceTemplates f 0 rest := by
  induction text with
  | nil => rfl
  | cons c text ih =>
    have hnone : templateAt (c :: (text ++ rest)) = none := by
      cases hat : templateAt (c :: (text ++ rest)) with
      | none => rfl
      | some body =>
        have hpair := opening_of_templateAt hat
        refine absurd ?_ h
        cases text with
        | nil =>
          cases rest with
          | nil => simp [opening] at hpair
          | cons d rest =>
            simp only [opening, List.nil_append, List.cons_prefix_cons, List.nil_prefix,
              and_true] at hpair
            obtain ⟨rfl, rfl⟩ := hpair
            exact ⟨[], [], rfl⟩
        | cons d text =>
          simp only [opening, List.cons_append, List.cons_prefix_cons, List.nil_prefix,
            and_true] at hpair
          obtain ⟨rfl, rfl⟩ := hpair
          exact ⟨[], text ++ rest.take 1, rfl⟩
    have htail : ¬ opening <:+: text ++ rest.take 1 := fun ht => h (List.infix_cons ht)
    simp [replaceTemplates, hnone, ih htail]

/-- The captured text ends at the first closing pair, and a line feed before it ends the search. -/
theorem lazyBody_body (h : ¬ closing <:+: body ++ ['}']) :
    lazyBody (body ++ closing ++ rest) = if '\n' ∈ body then none else some body := by
  induction body with
  | nil => simp [closing, lazyBody]
  | cons c body ih =>
    have htail : ¬ closing <:+: body ++ ['}'] := fun ht => h (List.infix_cons ht)
    have hpair : ¬ (c = '}' ∧ (body ++ closing ++ rest).head? = some '}') := by
      rintro ⟨rfl, hhead⟩
      refine h ?_
      cases body with
      | nil => exact ⟨[], [], rfl⟩
      | cons d body =>
        cases hhead
        exact ⟨[], body ++ ['}'], rfl⟩
    rw [List.cons_append, List.cons_append, lazyBody, if_neg hpair, ih htail]
    by_cases hc : c = '\n'
    · simp [hc]
    · by_cases hm : '\n' ∈ body <;> simp [hc, hm, eq_comm]

/-- What a template standing at the head captures. -/
theorem templateAt_body (hne : body ≠ []) (h : ¬ closing <:+: body ++ ['}']) :
    templateAt (opening ++ body ++ closing ++ rest) =
      if '\n' ∈ body then none else some body := by
  cases body with
  | nil => exact absurd rfl hne
  | cons c body =>
    have htail : ¬ closing <:+: body ++ ['}'] := fun ht => h (List.infix_cons ht)
    have hbody := @lazyBody_body body rest htail
    simp only [opening, List.cons_append, List.nil_append, templateAt, hbody]
    by_cases hc : c = '\n'
    · simp [hc]
    · by_cases hm : '\n' ∈ body <;> simp [hc, hm, eq_comm]

end Scan

end Gwead
