import Gwead.TemplateScan
import Gwead.Dsl.ParserGrammar
import Gwead.Lib.Ascii

/-!
# Templates against evaluation

A template is resolved on two paths: as the whole of a string, where the value keeps its type, and
inside other text, where it is rendered.  Both read the expression between the braces; only the
second looks for it with a pattern, whose dot stops at a line feed.
-/

namespace Gwead

open Dsl

/-! ### The ends of a spelled source -/

/-- A character that trimming keeps and that is no brace. -/
def Visible (c : Char) : Prop := isWhiteSpace c = false ∧ c ≠ '{' ∧ c ≠ '}'

instance (c : Char) : Decidable (Visible c) := inferInstanceAs (Decidable (_ ∧ _))

theorem visible_of_isIdentChar {c : Char} (h : isIdentChar c) : Visible c := by
  refine ⟨?_, ?_, ?_⟩
  · have hrange : 45 ≤ c.toNat ∧ c.toNat ≤ 122 := by
      simp only [isIdentChar, Bool.or_eq_true, Ascii.isAlphanum_iff, beq_iff_eq] at h
      obtain (h | rfl) | rfl := h
      · omega
      · decide
      · decide
    rw [← Bool.not_eq_true]
    simp only [isWhiteSpace, Bool.or_eq_true, Bool.and_eq_true, decide_eq_true_eq, beq_iff_eq]
    omega
  · rintro rfl
    simp [isIdentChar] at h
  · rintro rfl
    simp [isIdentChar] at h

theorem visible_of_isDigit {c : Char} (h : c.isDigit) : Visible c :=
  visible_of_isIdentChar (by simp [isIdentChar, Char.isAlphanum, h])

theorem isWhiteSpace_of_isSpace {c : Char} (h : isSpace c) : isWhiteSpace c := by
  simp only [isSpace, Bool.or_eq_true, beq_iff_eq] at h
  obtain ((rfl | rfl) | rfl) | rfl := h <;> decide

/-- A text that starts and ends with visible characters. -/
structure Framed (cs : List Char) : Prop where
  head : ∃ c ∈ cs.head?, Visible c
  last : ∃ c ∈ cs.getLast?, Visible c

theorem Framed.of_all {cs : List Char} (hne : cs ≠ []) (h : ∀ c ∈ cs, Visible c) : Framed cs where
  head := ⟨cs.head hne, List.head?_eq_some_head hne, h _ (List.head_mem hne)⟩
  last := ⟨cs.getLast hne, List.getLast?_eq_some_getLast hne, h _ (List.getLast_mem hne)⟩

theorem Framed.append {cs ds : List Char} (h : Framed cs) (h' : Framed ds) (ws : List Char) :
    Framed (cs ++ (ws ++ ds)) where
  head := by
    obtain ⟨c, hc, hv⟩ := h.head
    exact ⟨c, by simp [List.head?_append, Option.mem_def.mp hc], hv⟩
  last := by
    obtain ⟨c, hc, hv⟩ := h'.last
    exact ⟨c, by simp [List.getLast?_append, Option.mem_def.mp hc], hv⟩

/-- Trimming takes exactly the whitespace around a text with none at its ends. -/
theorem trim_between {ws cs ws' : List Char} (hws : ∀ c ∈ ws, isSpace c)
    (hws' : ∀ c ∈ ws', isSpace c) (hhead : ∃ c ∈ cs.head?, isWhiteSpace c = false)
    (hlast : ∃ c ∈ cs.getLast?, isWhiteSpace c = false) : trim (ws ++ cs ++ ws') = cs := by
  have hdrop : (ws ++ cs ++ ws').dropWhile isWhiteSpace = cs ++ ws' := by
    rw [List.append_assoc]
    refine (takeWhile_append_stop (fun c hc => isWhiteSpace_of_isSpace (hws c hc)) ?_).2
    obtain ⟨c, hc, hplain⟩ := hhead
    intro d hd
    rw [List.head?_append, Option.mem_def.mp hc] at hd
    cases hd
    exact hplain
  have hback : (ws'.reverse ++ cs.reverse).dropWhile isWhiteSpace = cs.reverse := by
    refine (takeWhile_append_stop (fun c hc =>
      isWhiteSpace_of_isSpace (hws' c (List.mem_reverse.mp hc))) ?_).2
    obtain ⟨c, hc, hplain⟩ := hlast
    intro d hd
    rw [List.head?_reverse, Option.mem_def.mp hc] at hd
    cases hd
    exact hplain
  rw [trim, hdrop, List.rdropWhile, List.reverse_append, hback, List.reverse_reverse]

theorem Framed.trim {ws cs ws' : List Char} (h : Framed cs) (hws : ∀ c ∈ ws, isSpace c)
    (hws' : ∀ c ∈ ws', isSpace c) : trim (ws ++ cs ++ ws') = cs := by
  obtain ⟨c, hc, hv, -⟩ := h.head
  obtain ⟨d, hd, hv', -⟩ := h.last
  exact trim_between hws hws' ⟨c, hc, hv⟩ ⟨d, hd, hv'⟩

theorem display_visible : ∀ k ∈ symbols, k.display.toList ≠ [] ∧ ∀ c ∈ k.display.toList, Visible c := by
  decide

theorem Dsl.Numeral.spelling_visible (n : Numeral) : ∀ c ∈ n.spelling, Visible c := by
  intro c hc
  simp only [Numeral.spelling, List.mem_append] at hc
  obtain (hc | hc) | hc := hc
  · split at hc
    · cases List.mem_singleton.mp hc
      decide
    · cases hc
  · exact visible_of_isDigit (n.whole_digits c hc)
  · split at hc
    · cases hc
    · obtain rfl | hc := List.mem_cons.mp hc
      · decide
      · exact visible_of_isDigit (n.frac_digits c hc)

theorem framed_spelling (l : Lexeme) : Framed l.spelling := by
  cases l with
  | symbol k listed =>
    obtain ⟨hne, hall⟩ := display_visible k listed
    exact .of_all hne hall
  | word cs shape =>
    obtain ⟨⟨c, hc, -⟩, hall⟩ := isWord_iff.mp shape
    refine .of_all ?_ fun c hc => visible_of_isIdentChar (hall c hc)
    rintro rfl
    cases hc
  | numeral n =>
    refine .of_all ?_ (Numeral.spelling_visible n)
    simp [Lexeme.spelling, Numeral.spelling, n.nonempty]
  | text cs unquoted =>
    refine ⟨⟨'\'', rfl, by decide⟩, '\'', ?_, by decide⟩
    exact List.getLast?_concat

theorem Dsl.Spelled.of_blank {ls : List Lexeme} {ws cs : List Char} (hws : ∀ c ∈ ws, isSpace c)
    (h : Spelled ls cs) : Spelled ls (ws ++ cs) := by
  cases h with
  | nil blank =>
    exact .nil fun c hc => (List.mem_append.mp hc).elim (hws c) (blank c)
  | cons blank tail =>
    rw [← List.append_assoc]
    exact .cons (fun c hc => (List.mem_append.mp hc).elim (hws c) (blank c)) tail

/-- A spelled source is a framed text, spelling the same, between whitespace. -/
theorem Dsl.Spelled.core {l : Lexeme} {ls : List Lexeme} {cs : List Char} (h : Spelled (l :: ls) cs) :
    ∃ ws core ws', cs = ws ++ core ++ ws' ∧ (∀ c ∈ ws, isSpace c) ∧ (∀ c ∈ ws', isSpace c) ∧
      Framed core ∧ Spelled (l :: ls) core := by
  induction ls generalizing l cs with
  | nil =>
    cases h with
    | cons blank tail =>
      cases tail with
      | nil blank' =>
        have hcore : Spelled [l] ([] ++ (l.spelling ++ [])) := .cons (by simp) (.nil (by simp))
        rw [List.nil_append, List.append_nil] at hcore
        exact ⟨_, l.spelling, _, (List.append_assoc ..).symm, blank, blank', framed_spelling l,
          hcore⟩
  | cons l' ls ih =>
    cases h with
    | cons blank tail =>
      obtain ⟨ws, core, ws', rfl, hws, hws', hframed, hcore⟩ := ih tail
      have hwhole : Spelled (l :: l' :: ls) ([] ++ (l.spelling ++ (ws ++ core))) :=
        .cons (by simp) (hcore.of_blank hws)
      exact ⟨_, l.spelling ++ (ws ++ core), ws', by simp, blank, hws',
        (framed_spelling l).append hframed ws, hwhole⟩

/-! ### Placeholders -/

/-- An expression that can stand between the braces of a template. -/
structure Placeholder where
  source : String
  parsed : Expression
  accepted : parseExpression source = .ok parsed
  noOpening : ¬ opening <:+: source.toList
  noClosing : ¬ closing <:+: source.toList

namespace Placeholder

/-- The value of the expression in the context of a bag. -/
def value (e : Placeholder) (bag : Value) : Value := evalExpression e.parsed (buildDslContext bag)

/-- The value, with the empty string for null. -/
def typedValue (e : Placeholder) (bag : Value) : Value :=
  if (e.value bag).isNull then .string "" else e.value bag

/-- The value as text. -/
def text (floatText : Binary64 → String) (e : Placeholder) (bag : Value) : String :=
  valueToString floatText (e.value bag)

def braced (e : Placeholder) : String := "\x7b\x7b" ++ e.source ++ "\x7d\x7d"

theorem toList_braced (e : Placeholder) :
    e.braced.toList = opening ++ e.source.toList ++ closing := by
  simp [braced, opening, closing]

/-- The source is whitespace around a framed text with the same tree. -/
theorem core (e : Placeholder) : ∃ ws core ws', e.source.toList = ws ++ core ++ ws' ∧
    (∀ c ∈ ws, isSpace c) ∧ (∀ c ∈ ws', isSpace c) ∧ Framed core ∧
      Parser.runAll Parser.parseExpression core = .ok e.parsed := by
  obtain ⟨w, ⟨ls, hspelled, hphrase⟩, hops, hread⟩ := parseExpression_ok.mp e.accepted
  obtain ⟨l, hl, -⟩ := (IsBinary.spaced IsUnary.spaced ls w hphrase).opens
  cases ls with
  | nil => cases hl
  | cons l' ls =>
    obtain ⟨ws, core, ws', hsplit, hws, hws', hframed, hcore⟩ := hspelled.core
    refine ⟨ws, core, ws', hsplit, hws, hws', hframed, ?_⟩
    have hwrites : WritesExpression maxExprDepth (String.ofList core) w :=
      ⟨l' :: ls, by rwa [String.toList_ofList], hphrase⟩
    have hparse := parseExpression_ok.mpr ⟨w, hwrites, hops, hread⟩
    rwa [parseExpression, String.toList_ofList] at hparse

theorem parse_trim (e : Placeholder) :
    Parser.runAll Parser.parseExpression (trim e.source.toList) = .ok e.parsed := by
  obtain ⟨ws, core, ws', hsplit, hws, hws', hframed, hparse⟩ := e.core
  rw [hsplit, hframed.trim hws hws']
  exact hparse

/-- A bare word is no expression, so no placeholder is the marker of the other layer. -/
theorem trim_ne_value (e : Placeholder) : trim e.source.toList ≠ ['v', 'a', 'l', 'u', 'e'] := by
  intro h
  have hparse := e.parse_trim
  rw [h] at hparse
  have hword : (Parser.runAll Parser.parseExpression ['v', 'a', 'l', 'u', 'e']).isOk = false := by
    decide +kernel
  rw [hparse] at hword
  cases hword

/-- No brace stands at an end of the source. -/
theorem ends (e : Placeholder) :
    (∃ c ∈ e.source.toList.head?, c ≠ '{') ∧ ∃ c ∈ e.source.toList.getLast?, c ≠ '}' := by
  obtain ⟨ws, core, ws', hsplit, hws, hws', ⟨⟨c, hc, -, hopen, -⟩, d, hd, -, -, hclose⟩, -⟩ :=
    e.core
  rw [hsplit]
  constructor
  · cases ws with
    | nil => exact ⟨c, by simp [List.head?_append, Option.mem_def.mp hc], hopen⟩
    | cons a ws =>
      refine ⟨a, rfl, ?_⟩
      rintro rfl
      exact absurd (hws '{' List.mem_cons_self) (by decide)
  · rw [List.getLast?_append]
    cases hlast : ws'.getLast? with
    | none => exact ⟨d, by simp [List.getLast?_append, Option.mem_def.mp hd], hclose⟩
    | some a =>
      refine ⟨a, rfl, ?_⟩
      rintro rfl
      exact absurd (hws' _ (List.mem_of_getLast? hlast)) (by decide)

theorem source_ne_nil (e : Placeholder) : e.source.toList ≠ [] := by
  obtain ⟨⟨c, hc, -⟩, -⟩ := e.ends
  intro h
  rw [h] at hc
  cases hc

/-- The closing pair of the template is the first one. -/
theorem closing_first (e : Placeholder) : ¬ closing <:+: e.source.toList ++ ['}'] := by
  intro h
  obtain hsuffix | hinside := List.infix_concat_iff.mp h
  · obtain ⟨-, c, hc, hne⟩ := e.ends
    obtain ⟨before, hbefore⟩ := hsuffix
    have hsplit : before ++ ['}'] ++ ['}'] = e.source.toList ++ ['}'] := by
      rw [← hbefore, closing]
      simp
    rw [← List.append_cancel_right hsplit, List.getLast?_concat] at hc
    cases hc
    exact hne rfl
  · exact e.noClosing hinside

/-- No opening pair starts after the first character of the template. -/
theorem opening_first (e : Placeholder) : ¬ opening <:+: '{' :: (e.source.toList ++ closing) := by
  have hend : ¬ opening <:+: e.source.toList ++ closing := by
    intro h
    have hconcat : e.source.toList ++ closing = e.source.toList ++ ['}'] ++ ['}'] := by
      simp [closing]
    rw [hconcat] at h
    exact e.noOpening (opening_infix_concat (opening_infix_concat h))
  intro h
  obtain hpair | h := List.infix_cons_iff.mp h
  · obtain ⟨c, hc, hne⟩ := e.ends.1
    cases hsource : e.source.toList with
    | nil => exact e.source_ne_nil hsource
    | cons d rest =>
      rw [hsource] at hc hpair
      cases hc
      simp only [opening, List.cons_append, List.cons_prefix_cons] at hpair
      exact hne hpair.2.1.symm
  · exact hend h

theorem singleTemplateExpression_braced (e : Placeholder) :
    singleTemplateExpression e.braced.toList = some (trim e.source.toList) := by
  have htrim : trim e.braced.toList = e.braced.toList := by
    have h := @trim_between [] e.braced.toList [] (by simp) (by simp)
    rw [List.nil_append, List.append_nil] at h
    refine h ⟨'{', ?_, by decide⟩ ⟨'}', ?_, by decide⟩
    · rw [toList_braced]
      rfl
    · rw [toList_braced, closing]
      simp [List.getLast?_append]
  have hopening : hasDouble '{' e.source.toList = false := by
    rw [← Bool.not_eq_true, hasDouble_iff]
    exact e.noOpening
  have hclosing : hasDouble '}' e.source.toList = false := by
    rw [← Bool.not_eq_true, hasDouble_iff]
    exact e.noClosing
  have hfront : stripPrefixPair '{' (opening ++ e.source.toList ++ closing) =
      some (e.source.toList ++ closing) := rfl
  have hback : stripPrefixPair '}' (e.source.toList ++ closing).reverse =
      some e.source.toList.reverse := by
    rw [List.reverse_append]
    rfl
  simp only [singleTemplateExpression, htrim]
  simp only [toList_braced, hfront, hback, List.reverse_reverse, hopening, hclosing,
    Bool.or_self, Bool.false_eq_true, if_false]

end Placeholder

section Resolve

variable (floatText : Binary64 → String) (bag : Value)

/-- A string that is one template resolves to the value of its expression. -/
theorem resolveValue_braced (e : Placeholder) :
    resolveValue floatText (.string e.braced) bag = e.typedValue bag := by
  simp only [resolveValue, resolveStringAsValue, e.singleTemplateExpression_braced,
    if_neg e.trim_ne_value, e.parse_trim]
  rfl

/-- What the pattern's replacement makes of one placeholder. -/
def replacement (e : Placeholder) : List Char :=
  if '\n' ∈ e.source.toList then e.braced.toList else (e.text floatText bag).toList

/-- A text that is put together from texts, each followed by a placeholder, and a tail. -/
def template : List (String × Placeholder) → String → String
  | [], tail => tail
  | (before, e) :: rest, tail => before ++ e.braced ++ template rest tail

/-- The same text with every placeholder rendered. -/
def rendered : List (String × Placeholder) → String → String
  | [], tail => tail
  | (before, e) :: rest, tail => before ++ e.text floatText bag ++ rendered rest tail

def NoBrace (s : String) : Prop := '{' ∉ s.toList ∧ '}' ∉ s.toList

instance (s : String) : Decidable (NoBrace s) := inferInstanceAs (Decidable (_ ∧ _))

theorem not_opening_of_noBrace {s : String} (h : NoBrace s) (cs : List Char) :
    ¬ opening <:+: s.toList ++ cs.take 1 := by
  rintro ⟨before, after, hsplit⟩
  have hcount := congrArg (List.count '{') hsplit
  have hfree : List.count '{' s.toList = 0 := List.count_eq_zero.mpr h.1
  have hone : List.count '{' (cs.take 1) ≤ 1 :=
    List.count_le_length.trans (by simp)
  simp only [opening, List.count_append, List.count_cons_self, List.count_nil, hfree] at hcount
  omega

theorem resolveExpressionToString_trim (e : Placeholder) :
    resolveExpressionToString floatText (trim e.source.toList) bag =
      (e.text floatText bag).toList := by
  simp only [resolveExpressionToString, if_neg e.trim_ne_value, e.parse_trim]
  rfl

/-- One placeholder of a text: rendered where the pattern finds it, copied where a line feed keeps
the pattern from it. -/
theorem replaceTemplates_braced (e : Placeholder) (rest : List Char) :
    replaceTemplates (fun body => resolveExpressionToString floatText (trim body) bag) 0
        (e.braced.toList ++ rest) =
      replacement floatText bag e ++
        replaceTemplates (fun body => resolveExpressionToString floatText (trim body) bag) 0
          rest := by
  have hat := @templateAt_body _ rest e.source_ne_nil e.closing_first
  by_cases hfeed : '\n' ∈ e.source.toList
  · rw [if_pos hfeed] at hat
    have hcopy := @replaceTemplates_text
      (fun body => resolveExpressionToString floatText (trim body) bag)
      ('{' :: (e.source.toList ++ ['}'])) ('}' :: rest) (by simpa [closing] using e.opening_first)
    have hsplit : opening ++ e.source.toList ++ closing ++ rest =
        '{' :: ('{' :: (e.source.toList ++ ['}']) ++ '}' :: rest) := by
      simp [opening, closing]
    rw [replacement, if_pos hfeed, e.toList_braced, hsplit, replaceTemplates, ← hsplit, hat]
    simp only [hcopy]
    simp [replaceTemplates, templateAt, opening, closing]
  · rw [if_neg hfeed] at hat
    have hsplit : opening ++ e.source.toList ++ closing ++ rest =
        '{' :: ('{' :: (e.source.toList ++ closing) ++ rest) := by
      simp [opening]
    have hlength : e.source.toList.length + 3 = ('{' :: (e.source.toList ++ closing)).length := by
      simp [closing]
    rw [replacement, if_neg hfeed, e.toList_braced, hsplit, replaceTemplates, ← hsplit, hat]
    simp only
    rw [replaceTemplates_skip, hlength, List.drop_left, resolveExpressionToString_trim]

/-- The whole text: every piece between the placeholders is copied. -/
theorem toList_resolve_template (ts : List (String × Placeholder)) (tail : String)
    (hts : ∀ t ∈ ts, NoBrace t.1) (htail : NoBrace tail) :
    (resolve floatText (template ts tail) bag).toList =
      ts.flatMap (fun t => t.1.toList ++ replacement floatText bag t.2) ++ tail.toList := by
  rw [resolve, String.toList_ofList]
  induction ts with
  | nil =>
    have htext := @replaceTemplates_text
      (fun body => resolveExpressionToString floatText (trim body) bag) tail.toList []
      (not_opening_of_noBrace htail [])
    simpa [template, replaceTemplates] using htext
  | cons t ts ih =>
    obtain ⟨before, e⟩ := t
    have htext := @replaceTemplates_text
      (fun body => resolveExpressionToString floatText (trim body) bag) before.toList
      (e.braced.toList ++ (template ts tail).toList)
      (not_opening_of_noBrace (hts _ List.mem_cons_self) _)
    rw [template, String.toList_append, String.toList_append, List.append_assoc, htext,
      replaceTemplates_braced, ih fun t ht => hts t (List.mem_cons_of_mem _ ht)]
    simp

theorem toList_rendered (ts : List (String × Placeholder)) (tail : String) :
    (rendered floatText bag ts tail).toList =
      ts.flatMap (fun t => t.1.toList ++ (t.2.text floatText bag).toList) ++ tail.toList := by
  induction ts with
  | nil => rfl
  | cons t ts ih =>
    obtain ⟨before, e⟩ := t
    simp [rendered, ih]

/-- Without a line feed in any placeholder the text is rendered. -/
theorem resolve_template (ts : List (String × Placeholder)) (tail : String)
    (hts : ∀ t ∈ ts, NoBrace t.1) (htail : NoBrace tail)
    (hfeed : ∀ t ∈ ts, '\n' ∉ t.2.source.toList) :
    resolve floatText (template ts tail) bag = rendered floatText bag ts tail := by
  refine String.toList_injective ?_
  rw [toList_resolve_template floatText bag ts tail hts htail, toList_rendered]
  congr 1
  refine List.flatMap_congr fun t ht => ?_
  rw [replacement, if_neg (hfeed t ht)]

end Resolve

end Gwead
