import Gwead.TemplateSpec

/-!
# Where templates and evaluation agree

The string literals of an expression stand in its source, so against an empty bag no rendering
starts like a template.  That decides where the rendered path goes wrong: exactly at the
placeholders with a line feed.
-/

namespace Gwead

open Dsl

/-! ### String literals -/

/-- The contents of the string literals of an expression. -/
def Dsl.Written.Expression.strings : Written.Expression → List String
  | .string s => [s]
  | .not e => e.strings
  | .binary _ l r => l.strings ++ r.strings
  | _ => []

/-- A terminal of a sequence is the text. -/
def Quotes (ls : List Lexeme) (s : String) : Prop :=
  ∃ unquoted : '\'' ∉ s.toList, Lexeme.text s.toList unquoted ∈ ls

theorem Quotes.mono {ls ls' : List Lexeme} {s : String} (h : Quotes ls s)
    (hsub : ∀ l ∈ ls, l ∈ ls') : Quotes ls' s :=
  ⟨h.1, hsub _ h.2⟩

/-- The literals of a phrase are among its terminals. -/
def Quoted (ls : List Lexeme) (e : Written.Expression) : Prop := ∀ s ∈ e.strings, Quotes ls s

theorem Quoted.of_leaf {ls : List Lexeme} {e : Written.Expression} (h : IsLeaf ls e) :
    Quoted ls e := by
  intro s hs
  cases h with
  | string cs unquoted =>
    cases List.mem_singleton.mp hs
    refine ⟨by rwa [String.toList_ofList], ?_⟩
    simp
  | _ => cases hs

section Levels

variable {operators : Operators} {operand : List Lexeme → Written.Expression → Prop}

theorem Quoted.of_rounds (hoperand : ∀ ls e, operand ls e → Quoted ls e)
    {left e : Written.Expression} {ls : List Lexeme} (h : Rounds operators operand left ls e) :
    ∀ s ∈ e.strings, s ∈ left.strings ∨ Quotes ls s := by
  induction h with
  | done => exact fun s hs => Or.inl hs
  | more listed hop hright tail ih =>
    intro s hs
    obtain hs | hs := ih s hs
    · obtain hs | hs := List.mem_append.mp hs
      · exact Or.inl hs
      · refine Or.inr ((hoperand _ _ hright s hs).mono fun l hl => ?_)
        exact List.mem_cons_of_mem _ (List.mem_append_left _ hl)
    · refine Or.inr (hs.mono fun l hl => ?_)
      exact List.mem_cons_of_mem _ (List.mem_append_right _ hl)

theorem Quoted.of_level (hoperand : ∀ ls e, operand ls e → Quoted ls e) (ls : List Lexeme)
    (e : Written.Expression) (h : IsLevel operators operand ls e) : Quoted ls e := by
  cases h with
  | mk hfirst tail =>
    intro s hs
    obtain hs | hs := Quoted.of_rounds hoperand tail s hs
    · exact (hoperand _ _ hfirst s hs).mono fun l hl => List.mem_append_left _ hl
    · exact hs.mono fun l hl => List.mem_append_right _ hl

theorem Quoted.of_binary {unary : List Lexeme → Written.Expression → Prop}
    (hunary : ∀ ls e, unary ls e → Quoted ls e) : ∀ ls e, IsBinary unary ls e → Quoted ls e := by
  refine List.foldlRecOn (motive := fun operand : List Lexeme → Written.Expression → Prop =>
    ∀ ls e, operand ls e → Quoted ls e) precedence _ hunary fun operand hoperand operators _ => ?_
  exact Quoted.of_level hoperand

end Levels

theorem Quoted.of_unary {depth : Nat} : ∀ ls e, IsUnary depth ls e → Quoted ls e := by
  induction depth with
  | zero => exact fun ls e h => Quoted.of_leaf h
  | succ depth ih =>
    rintro ls e (h | ⟨inner, e', h, rfl, rfl⟩ | ⟨inner, h, rfl⟩)
    · exact Quoted.of_leaf h
    · intro s hs
      exact (ih _ _ h s hs).mono fun l hl => List.mem_cons_of_mem _ hl
    · intro s hs
      refine (Quoted.of_binary ih _ _ h s hs).mono fun l hl => ?_
      exact List.mem_cons_of_mem _ (List.mem_append_left _ hl)

theorem infix_spelling_of {l : Lexeme} {ls : List Lexeme} {cs : List Char} (h : Spelled ls cs)
    (hl : l ∈ ls) : l.spelling <:+: cs := by
  induction h with
  | nil => cases hl
  | cons blank tail ih =>
    obtain rfl | hl := List.mem_cons.mp hl
    · exact ⟨_, _, List.append_assoc ..⟩
    · exact (ih hl).trans ((List.suffix_append _ _).trans (List.suffix_append _ _)).isInfix

/-- The literals of a placeholder stand in its source. -/
theorem infix_literal_of {ls : List Lexeme} {cs : List Char} {s : String} (h : Spelled ls cs)
    (hs : Quotes ls s) : s.toList <:+: cs := by
  refine List.IsInfix.trans ?_ (infix_spelling_of h hs.2)
  exact ⟨['\''], ['\''], rfl⟩

/-! ### Evaluation against an empty bag -/

/-- A value that is no array and no object, and one of the texts where it is a string. -/
def Among (texts : List String) : Value → Prop
  | .string s => s ∈ texts
  | .array _ => False
  | .object _ => False
  | _ => True

theorem Among.mono {texts texts' : List String} {v : Value} (h : Among texts v)
    (hsub : ∀ s ∈ texts, s ∈ texts') : Among texts' v := by
  cases v with
  | string s => exact hsub s h
  | array items => exact h
  | object fields => exact h
  | _ => trivial

theorem applySegment_null (seg : PathSegment) : applySegment seg [.null] = [] := by
  cases seg <;> rfl

theorem evalReference_null (r : Reference) :
    evalReference r (buildDslContext .null) = .null := by
  have hselect : collapse (select r.path [.null]) = .null := by
    cases r.path with
    | nil => rfl
    | cons seg path => rw [select_cons, applySegment_null, select_nil, collapse]
  obtain ⟨root, path⟩ := r
  cases root with
  | implicit => exact hselect
  | input => exact hselect
  | _ => rfl

theorem among_literal (w : Written.Expression) {reading : Numeral → Option Nat} {e : Expression}
    (hread : w.read reading = some e) :
    Among w.strings (evalExpression e (buildDslContext .null)) := by
  induction w generalizing e with
  | string s =>
    cases hread
    exact List.mem_singleton_self s
  | number n =>
    cases hread
    simp only [evalExpression, literalToValue]
    split
    · trivial
    · split <;> trivial
  | bool b =>
    cases hread
    trivial
  | null =>
    cases hread
    trivial
  | ref r =>
    obtain ⟨r', -, rfl⟩ := Option.map_eq_some_iff.mp hread
    rw [evalExpression, evalReference_null]
    trivial
  | not w ih =>
    obtain ⟨e', -, rfl⟩ := Option.map_eq_some_iff.mp hread
    trivial
  | binary op l r ihl ihr =>
    obtain ⟨a, hl, hread⟩ := Option.bind_eq_some_iff.mp hread
    obtain ⟨b, hr, rfl⟩ := Option.map_eq_some_iff.mp hread
    cases op with
    | and =>
      rw [evalExpression]
      split <;> trivial
    | or =>
      rw [evalExpression]
      split <;> trivial
    | coalesce =>
      rw [evalExpression]
      split
      · exact (ihr hr).mono fun s hs => List.mem_append_right _ hs
      · exact (ihl hl).mono fun s hs => List.mem_append_left _ hs
    | _ => trivial

section Rendering

variable {floatText : Binary64 → String}

theorem numberText_noBrace (hfloat : ∀ x, '{' ∉ (floatText x).toList) (n : Number) :
    '{' ∉ (numberText floatText n).toList := by
  have hnat : ∀ k : Nat, '{' ∉ k.repr.toList := by
    intro k hk
    rw [Nat.toList_repr] at hk
    exact absurd (Nat.isDigit_of_mem_toDigits (by decide) (by decide) hk) (by decide)
  cases n with
  | posInt k range => exact hnat k
  | negInt i range => simpa [numberText] using hnat i.natAbs
  | float f finite => exact hfloat f

/-- Against an empty bag the text of a placeholder holds no opening pair. -/
theorem text_null (hfloat : ∀ x, '{' ∉ (floatText x).toList) (e : Placeholder) :
    ¬ opening <:+: (e.text floatText .null).toList := by
  obtain ⟨w, ⟨ls, hspelled, hphrase⟩, -, hread⟩ := parseExpression_ok.mp e.accepted
  have hamong := among_literal w hread
  intro h
  have hmem : ∀ cs : List Char, opening <:+: cs → '{' ∈ cs := fun cs hcs =>
    hcs.subset List.mem_cons_self
  rw [Placeholder.text, Placeholder.value] at h
  cases hv : evalExpression e.parsed (buildDslContext .null) with
  | null =>
    rw [hv] at h
    exact absurd (hmem _ h) (by simp [valueToString])
  | bool b =>
    rw [hv] at h
    refine absurd (hmem _ h) ?_
    cases b <;> simp [valueToString]
  | number n =>
    rw [hv] at h
    exact numberText_noBrace hfloat n (hmem _ h)
  | string s =>
    rw [hv] at h hamong
    have hquotes := Quoted.of_binary Quoted.of_unary ls w hphrase s hamong
    exact e.noOpening (h.trans (infix_literal_of hspelled hquotes))
  | array items =>
    rw [hv] at hamong
    exact hamong
  | object fields =>
    rw [hv] at hamong
    exact hamong

/-- With a letter before every placeholder and behind the last, the copy of a placeholder is told
from its text against an empty bag. -/
theorem noFeed_of_rendered (hfloat : ∀ x, '{' ∉ (floatText x).toList) (es : List Placeholder)
    (h : es.flatMap (fun e => 'a' :: replacement floatText .null e) ++ ['a'] =
      es.flatMap (fun e => 'a' :: (e.text floatText .null).toList) ++ ['a']) :
    ∀ e ∈ es, '\n' ∉ e.source.toList := by
  induction es with
  | nil => exact fun e he => absurd he List.not_mem_nil
  | cons e es ih =>
    rw [List.flatMap_cons, List.flatMap_cons, List.cons_append, List.cons_append,
      List.cons_append, List.cons_append, List.append_assoc, List.append_assoc] at h
    have htail := (List.cons.inj h).2
    have hfeed : '\n' ∉ e.source.toList := by
      intro hfeed
      have hnone := text_null hfloat e
      rw [replacement, if_pos hfeed, e.toList_braced, opening] at htail
      -- what follows the text starts with the letter
      obtain ⟨rest, hrest⟩ : ∃ rest, es.flatMap (fun e => 'a' :: (e.text floatText .null).toList) ++
          ['a'] = 'a' :: rest := by
        cases es with
        | nil => exact ⟨_, rfl⟩
        | cons e' es => exact ⟨_, rfl⟩
      rw [hrest] at htail
      cases htext : (e.text floatText .null).toList with
      | nil => simp [htext] at htail
      | cons c cs =>
        rw [htext] at htail hnone
        cases cs with
        | nil => simp at htail
        | cons d cs =>
          simp only [List.cons_append, List.cons.injEq] at htail
          obtain ⟨rfl, rfl, -⟩ := htail
          exact hnone ⟨[], cs, rfl⟩
    refine List.forall_mem_cons.mpr ⟨hfeed, ih ?_⟩
    rw [replacement, if_neg hfeed] at htail
    exact List.append_cancel_left htail

end Rendering

/-- What substitution promises for some placeholders: alone each gives its value, and between
texts without braces each gives the text of that value. -/
def Agrees (floatText : Binary64 → String) (es : List Placeholder) : Prop :=
  ∀ bag, (∀ e ∈ es, resolveValue floatText (.string e.braced) bag = e.typedValue bag) ∧
    ∀ ts tail, ts.map Prod.snd = es → (∀ t ∈ ts, NoBrace t.1) → NoBrace tail →
      resolve floatText (template ts tail) bag = rendered floatText bag ts tail

/-- Substitution agrees with evaluation exactly where no placeholder has a line feed; a string
that is one template gives the value in any case. -/
theorem template_agrees_iff (floatText : Binary64 → String)
    (hfloat : ∀ x, '{' ∉ (floatText x).toList) (es : List Placeholder) :
    (∀ e bag, resolveValue floatText (.string (Placeholder.braced e)) bag = e.typedValue bag) ∧
      (Agrees floatText es ↔ ∀ e ∈ es, '\n' ∉ e.source.toList) := by
  refine ⟨fun e bag => resolveValue_braced floatText bag e, fun h => ?_, fun hfeed bag => ?_⟩
  · have hplain : NoBrace "a" := by decide
    have hboth := (h .null).2 (es.map fun e => ("a", e)) "a" (by simp [Function.comp_def])
      (by simpa using fun _ _ => hplain) hplain
    refine noFeed_of_rendered hfloat es ?_
    have htext := congrArg String.toList hboth
    rw [toList_resolve_template floatText .null _ _ (by simpa using fun _ _ => hplain) hplain,
      toList_rendered] at htext
    simpa [List.flatMap_map] using htext
  · refine ⟨fun e _ => resolveValue_braced floatText bag e, ?_⟩
    rintro ts tail rfl hts htail
    exact resolve_template floatText bag ts tail hts htail fun t ht =>
      hfeed _ (List.mem_map_of_mem ht)

theorem accepted_line : parseExpression "$vars.x" = .ok (.ref ⟨.vars, [.field "x"]⟩) := by
  rw [parseExpression]
  decide +kernel

theorem accepted_secondLine :
    parseExpression "\n$vars.x" = .ok (.ref ⟨.vars, [.field "x"]⟩) := by
  rw [parseExpression]
  decide +kernel

/-- A reference on a line of its own. -/
def secondLine : Placeholder where
  source := "\n$vars.x"
  parsed := .ref ⟨.vars, [.field "x"]⟩
  accepted := accepted_secondLine
  noOpening := by decide +kernel
  noClosing := by decide +kernel

def firstLine : Placeholder where
  source := "$vars.x"
  parsed := .ref ⟨.vars, [.field "x"]⟩
  accepted := accepted_line
  noOpening := by decide +kernel
  noClosing := by decide +kernel

theorem template_agrees_firstLine :
    Agrees (fun _ => "1.5") [firstLine] ∧ ¬ Agrees (fun _ => "1.5") [firstLine, secondLine] := by
  have hplain : ∀ _ : Binary64, '{' ∉ "1.5".toList := fun _ => by decide +kernel
  constructor
  · exact (template_agrees_iff _ hplain [firstLine]).2.mpr (by decide +kernel)
  · intro h
    exact absurd ((template_agrees_iff _ hplain [firstLine, secondLine]).2.mp h) (by decide +kernel)

def oneVariable : Value := .object [("vars", .object [("x", .string "on")])]

/-- Alone the reference is resolved; inside other text it is left as it stands. -/
theorem template_not_agrees :
    ¬ (∀ (floatText : Binary64 → String), (∀ x, '{' ∉ (floatText x).toList) →
      ∀ (es : List Placeholder), Agrees floatText es) ∧
    resolveValue (fun _ => "1.5") (.string secondLine.braced) oneVariable = .string "on" ∧
    resolve (fun _ => "1.5") "a\x7b\x7b\n$vars.x\x7d\x7db" oneVariable =
      "a\x7b\x7b\n$vars.x\x7d\x7db" := by
  refine ⟨fun h => ?_, by decide +kernel, by decide +kernel⟩
  have hboth := (h (fun _ => "1.5") (fun _ => by decide) [secondLine] oneVariable).2
    [("a", secondLine)] "b" rfl (by decide) (by decide)
  revert hboth
  decide +kernel

end Gwead
