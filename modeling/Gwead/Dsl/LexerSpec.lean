import Gwead.Dsl.Grammar
import Gwead.Lib.Ascii
import Mathlib.Data.List.Chain
import Mathlib.Data.List.TakeWhile

/-!
# The lexer reads the terminals a source spells

Where the terminals of a sequence cannot run together, the lexer gives their tokens and no other
sequence is spelled by the same source.  What the lexer accepts is spelled by some sequence.
-/

namespace Gwead.Dsl

/-- The token the lexer makes of a terminal. -/
def Lexeme.kind : Lexeme → TokenKind
  | .symbol k _ => k
  | .word cs _ => keyword (String.ofList cs)
  | .numeral n => .number n.value
  | .text cs _ => .string (String.ofList cs)

theorem Lexeme.kind_ne_eof (l : Lexeme) : l.kind ≠ .eof := by
  cases l with
  | symbol k listed =>
    rintro rfl
    exact absurd listed (by decide)
  | word cs shape =>
    simp only [kind, keyword]
    split_ifs <;> simp
  | numeral n => simp [kind]
  | text cs unquoted => simp [kind]

theorem keyword_not_symbol (raw : String) : keyword raw ∉ symbols := by
  unfold keyword
  split_ifs <;> simp [symbols]

/-- A token of punctuation comes from the symbol. -/
theorem Lexeme.eq_sym {l : Lexeme} {k : TokenKind} (hk : k ∈ symbols) (h : l.kind = k) :
    l = sym k hk := by
  cases l with
  | symbol k' listed =>
    cases h
    rfl
  | word cs shape => exact absurd (h.symm ▸ hk) (keyword_not_symbol _)
  | numeral n =>
    subst h
    simp [kind, symbols] at hk
  | text cs unquoted =>
    subst h
    simp [kind, symbols] at hk

theorem takeWhile_append_stop {p : Char → Bool} {xs ys : List Char} (hx : ∀ c ∈ xs, p c)
    (hy : ∀ c ∈ ys.head?, p c = false) :
    (xs ++ ys).takeWhile p = xs ∧ (xs ++ ys).dropWhile p = ys := by
  rw [List.takeWhile_append_of_pos hx, List.dropWhile_append_of_pos hx]
  cases ys with
  | nil => simp
  | cons c ys =>
    have hc : p c = false := hy c rfl
    simp [hc]

theorem head?_dropWhile_stop {p : Char → Bool} {xs : List Char} :
    ∀ c ∈ (xs.dropWhile p).head?, p c = false := by
  intro c hc
  have := List.head?_dropWhile_not p xs
  rw [Option.mem_def.mp hc] at this
  simpa using this

theorem isIdentChar_of_start {c : Char} (h : isIdentStart c) : isIdentChar c := by
  simp only [isIdentStart, Bool.or_eq_true] at h
  simp only [isIdentChar, Char.isAlphanum, Bool.or_eq_true]
  exact Or.inl (h.imp_left Or.inl)

theorem isWord_iff {cs : List Char} :
    IsWord cs ↔ (∃ c ∈ cs.head?, isIdentStart c) ∧ ∀ c ∈ cs, isIdentChar c := by
  simp [IsWord, isIdentStart, isIdentChar, Char.isAlphanum, or_assoc]

/-- The following text does not continue a terminal. -/
def Ends : Lexeme → List Char → Prop
  | .symbol k _, rest =>
    k ∈ [.lt, .gt, .not, .question] → ∀ c ∈ rest.head?, c ≠ '=' ∧ c ≠ '?'
  | .word .., rest => ∀ c ∈ rest.head?, isIdentChar c = false
  | .numeral _, rest => ∀ c ∈ rest.head?, c.isDigit = false ∧ c ≠ '.'
  | .text .., _ => True

/-! ### One terminal -/

theorem punctuation_sound {cs : List Char} {k : TokenKind} {n : Nat}
    (h : punctuation cs = some (k, n)) : k ∈ symbols ∧ cs = k.display.toList ++ cs.drop n := by
  unfold punctuation at h
  split at h <;> simp only [Option.some.injEq, Prod.mk.injEq, reduceCtorEq] at h <;>
    obtain ⟨rfl, rfl⟩ := h <;> exact ⟨by decide, rfl⟩

theorem punctuation_complete {k : TokenKind} {rest : List Char} (hk : k ∈ symbols)
    (h : k ∈ [.lt, .gt, .not, .question] → ∀ c ∈ rest.head?, c ≠ '=' ∧ c ≠ '?') :
    punctuation (k.display.toList ++ rest) = some (k, k.display.toList.length) := by
  by_cases hmunch : k ∈ [.lt, .gt, .not, .question]
  · cases rest with
    | nil =>
      simp only [List.mem_cons, List.not_mem_nil, or_false] at hmunch
      obtain rfl | rfl | rfl | rfl := hmunch <;> rfl
    | cons c rest =>
      -- the only symbols that are the beginning of a longer one
      obtain ⟨heq, hquestion⟩ := h hmunch c rfl
      have hlt : punctuation ('<' :: c :: rest) = some (.lt, 1) := by simp [punctuation, heq]
      have hgt : punctuation ('>' :: c :: rest) = some (.gt, 1) := by simp [punctuation, heq]
      have hnot : punctuation ('!' :: c :: rest) = some (.not, 1) := by simp [punctuation, heq]
      have hask : punctuation ('?' :: c :: rest) = some (.question, 1) := by
        simp [punctuation, hquestion]
      simp only [List.mem_cons, List.not_mem_nil, or_false] at hmunch
      obtain rfl | rfl | rfl | rfl := hmunch
      · exact hlt
      · exact hgt
      · exact hnot
      · exact hask
  · simp only [symbols, List.mem_cons, List.not_mem_nil, or_false] at hk hmunch
    obtain rfl | rfl | rfl | rfl | rfl | rfl | rfl | rfl | rfl | rfl | rfl | rfl | rfl | rfl |
      rfl | rfl | rfl | rfl | rfl := hk
    all_goals first
      | (simp at hmunch; done)
      | rfl

/-- A number's digits, read off the text. -/
theorem lexNumber_sound (start : Nat) {cs : List Char}
    (h : (∃ c ∈ cs.head?, c.isDigit) ∨ ∃ d tail, cs = '-' :: d :: tail ∧ d.isDigit) :
    ∃ (n : Numeral) (rest : List Char) (stop : Nat),
      lexNumber start cs = (⟨.number n.value, start⟩, rest, stop) ∧ cs = n.spelling ++ rest := by
  obtain ⟨neg, body, hneg, hbody, hsplit, d, tail, rfl, hd⟩ : ∃ (neg : Bool) (body : List Char),
      neg = (cs.head? == some '-') ∧ body = (if neg then cs.drop 1 else cs) ∧
        cs = (if neg then ['-'] else []) ++ body ∧
          ∃ d tail, body = d :: tail ∧ d.isDigit = true := by
    obtain ⟨c, hc, hdigit⟩ | ⟨d, tail, rfl, hd⟩ := h
    · cases cs with
      | nil => simp at hc
      | cons c' tail =>
        cases hc
        have hne : c ≠ '-' := by
          rintro rfl
          simp at hdigit
        exact ⟨false, c :: tail, by simp [hne], rfl, rfl, c, tail, rfl, hdigit⟩
    · exact ⟨true, d :: tail, rfl, rfl, rfl, d, tail, rfl, hd⟩
  have hwhole : (d :: tail).takeWhile Char.isDigit ++ (d :: tail).dropWhile Char.isDigit = d :: tail :=
    List.takeWhile_append_dropWhile
  have hdigits : ∀ c ∈ (d :: tail).takeWhile Char.isDigit, c.isDigit := fun c hc =>
    List.mem_takeWhile_imp hc
  have hnonempty : (d :: tail).takeWhile Char.isDigit ≠ [] := by simp [hd]
  unfold lexNumber
  dsimp only
  rw [← hneg, ← hbody]
  split
  · rename_i c tail' hafter
    split
    · rename_i hc
      refine ⟨⟨neg, _, _, hnonempty, hdigits, fun c hc => List.mem_takeWhile_imp hc⟩, _, _, rfl, ?_⟩
      have hne : (c :: tail').takeWhile Char.isDigit ≠ [] := by simp [hc]
      simp only [Numeral.spelling, hne, if_false, List.append_assoc, List.cons_append,
        List.takeWhile_append_dropWhile]
      rw [hsplit, ← hafter, hwhole]
    · refine ⟨⟨neg, _, [], hnonempty, hdigits, by simp⟩, _, _, rfl, ?_⟩
      simp only [Numeral.spelling, if_true, List.append_assoc, List.nil_append]
      rw [hsplit, hwhole]
  · refine ⟨⟨neg, _, [], hnonempty, hdigits, by simp⟩, _, _, rfl, ?_⟩
    simp only [Numeral.spelling, if_true, List.append_assoc, List.nil_append]
    rw [hsplit, hwhole]

theorem Numeral.whole_head (n : Numeral) : ∃ d tail, n.whole = d :: tail ∧ d.isDigit := by
  obtain ⟨d, tail, hw⟩ := List.exists_cons_of_ne_nil n.nonempty
  exact ⟨d, tail, hw, n.whole_digits d (by simp [hw])⟩

theorem isDigit_ne_minus {c : Char} (h : c.isDigit) : c ≠ '-' := by
  rintro rfl
  simp at h

theorem lexNumber_complete (n : Numeral) {rest : List Char} (start : Nat)
    (h : ∀ c ∈ rest.head?, c.isDigit = false ∧ c ≠ '.') :
    lexNumber start (n.spelling ++ rest) =
      (⟨.number n.value, start⟩, rest, start + ((n.spelling ++ rest).length - rest.length)) := by
  obtain ⟨d, tail, hwhole, hd⟩ := n.whole_head
  have hsign : (((n.spelling ++ rest).head? == some '-') = n.neg) ∧
      (if n.neg then (n.spelling ++ rest).drop 1 else n.spelling ++ rest) =
        n.whole ++ ((if n.frac = [] then [] else '.' :: n.frac) ++ rest) := by
    have hne := isDigit_ne_minus hd
    cases hneg : n.neg with
    | true => simp [Numeral.spelling, hneg]
    | false => simp [Numeral.spelling, hneg, hwhole, hne]
  have hrest : ∀ c ∈ rest.head?, c.isDigit = false := fun c hc => (h c hc).1
  have hstop : ∀ c ∈ ((if n.frac = [] then [] else '.' :: n.frac) ++ rest).head?,
      c.isDigit = false := by
    by_cases hf : n.frac = []
    · simpa [hf] using hrest
    · simp [hf]
  obtain ⟨htake, hdrop⟩ := takeWhile_append_stop n.whole_digits hstop
  unfold lexNumber
  dsimp only
  rw [hsign.1, hsign.2, htake, hdrop]
  by_cases hf : n.frac = []
  · simp only [hf, if_true, List.nil_append]
    split
    · exact absurd rfl (h '.' (by simp)).2
    · simp [Numeral.value, hf]
  · obtain ⟨f, fs, hfrac⟩ := List.exists_cons_of_ne_nil hf
    have hfd : f.isDigit := n.frac_digits f (by simp [hfrac])
    obtain ⟨htake', hdrop'⟩ := takeWhile_append_stop n.frac_digits hrest
    rw [hfrac] at htake' hdrop'
    simp only [hfrac, reduceCtorEq, if_false, List.cons_append, hfd, if_true]
    rw [List.cons_append] at htake' hdrop'
    rw [htake', hdrop', ← hfrac]
    rfl

theorem lexToken_sound {cs rest : List Char} {start stop : Nat} {t : Token}
    (h : lexToken cs start = .ok (t, rest, stop)) :
    (cs = [] ∧ rest = [] ∧ t.kind = .eof) ∨
      ∃ l : Lexeme, cs = l.spelling ++ rest ∧ t.kind = l.kind := by
  unfold lexToken at h
  split at h
  · cases h
    exact Or.inl ⟨rfl, rfl, rfl⟩
  · rename_i c tail
    refine Or.inr ?_
    split at h
    · rename_i kind n hp
      cases h
      obtain ⟨hlisted, hcs⟩ := punctuation_sound hp
      exact ⟨.symbol kind hlisted, hcs, rfl⟩
    · split at h
      · -- a string literal, up to the first quote
        rename_i hquote
        unfold lexString at h
        dsimp only at h
        split at h
        · cases h
        · rename_i q rest' hdrop
          cases h
          have hunquoted : '\'' ∉ tail.takeWhile (· != '\'') := fun hm => by
            have := List.mem_takeWhile_imp hm
            simp at this
          have hq : q = '\'' := by
            have := @head?_dropWhile_stop (· != '\'') tail q (by simp [hdrop])
            simpa using this
          refine ⟨.text _ hunquoted, ?_, rfl⟩
          have hsplit : tail.takeWhile (· != '\'') ++ tail.dropWhile (· != '\'') = tail :=
            List.takeWhile_append_dropWhile
          rw [hdrop, hq] at hsplit
          simp only [Lexeme.spelling, List.cons_append, List.append_assoc, List.nil_append, hsplit]
          simpa using hquote
      · split at h
        · rename_i hnumber
          obtain ⟨n, rest', stop', hlex, hcs⟩ := @lexNumber_sound start (c :: tail) (by
            simp only [Bool.or_eq_true, Bool.and_eq_true, beq_iff_eq] at hnumber
            obtain hd | ⟨rfl, hany⟩ := hnumber
            · exact Or.inl ⟨c, rfl, hd⟩
            · cases tail with
              | nil => simp at hany
              | cons d tail => exact Or.inr ⟨d, tail, rfl, by simpa using hany⟩)
          rw [hlex] at h
          cases h
          exact ⟨.numeral n, hcs, rfl⟩
        · split at h
          · rename_i hstart
            cases h
            have hsplit : (c :: tail).takeWhile isIdentChar ++ (c :: tail).dropWhile isIdentChar =
                c :: tail := List.takeWhile_append_dropWhile
            have hic : isIdentChar c := isIdentChar_of_start hstart
            have hshape : IsWord ((c :: tail).takeWhile isIdentChar) := by
              rw [isWord_iff]
              refine ⟨⟨c, by simp [hic], hstart⟩, fun d hd => List.mem_takeWhile_imp hd⟩
            exact ⟨.word _ hshape, hsplit.symm, rfl⟩
          · cases h

/-- The characters a symbol starts with. -/
def signs : List Char := ['$', '.', '[', ']', '(', ')', '@', '*', '=', '!', '&', '|', '?', '<', '>']

theorem punctuation_head {c : Char} {tail : List Char} {k : TokenKind} {n : Nat}
    (h : punctuation (c :: tail) = some (k, n)) : c ∈ signs := by
  unfold punctuation at h
  split at h <;> simp_all [signs]

theorem signs_plain : ∀ c ∈ signs,
    isIdentChar c = false ∧ c.isDigit = false ∧ c ≠ '-' ∧ c ≠ '\'' ∧ isSpace c = false := by
  decide

/-- A text that no symbol starts. -/
theorem punctuation_none {c : Char} {tail : List Char} (h : c ∉ signs) :
    punctuation (c :: tail) = none := by
  cases hp : punctuation (c :: tail) with
  | none => rfl
  | some v => exact absurd (punctuation_head hp) h

theorem isIdentStart_plain {c : Char} (h : isIdentStart c) :
    c.isDigit = false ∧ c ≠ '-' ∧ c ≠ '\'' := by
  refine ⟨?_, ?_, ?_⟩
  · rw [isIdentStart, Bool.or_eq_true, Ascii.isAlpha_iff, beq_iff_eq] at h
    rw [← Bool.not_eq_true, Ascii.isDigit_iff]
    obtain h | rfl := h
    · omega
    · decide
  · rintro rfl
    simp [isIdentStart] at h
  · rintro rfl
    simp [isIdentStart] at h

/-- The first character of a terminal decides what the lexer takes it for. -/
theorem lexToken_complete (l : Lexeme) {rest : List Char} (start : Nat) (h : Ends l rest) :
    ∃ stop, lexToken (l.spelling ++ rest) start = .ok (⟨l.kind, start⟩, rest, stop) := by
  cases l with
  | symbol k listed =>
    have hp := @punctuation_complete k rest listed h
    simp only [Lexeme.spelling, lexToken]
    cases hcs : k.display.toList ++ rest with
    | nil =>
      rw [hcs] at hp
      simp [punctuation] at hp
    | cons c tail =>
      rw [hcs] at hp
      simp only [hp]
      refine ⟨start + k.display.toList.length, ?_⟩
      rw [← hcs, List.drop_left]
      rfl
  | word cs shape =>
    obtain ⟨⟨c, hc, hstart⟩, hall⟩ := isWord_iff.mp shape
    cases cs with
    | nil => simp at hc
    | cons c' tail =>
      cases hc
      obtain ⟨htake, hdrop⟩ := takeWhile_append_stop hall h
      have hnone : punctuation (c :: (tail ++ rest)) = none := punctuation_none fun hm => by
        have := (signs_plain c hm).1
        rw [isIdentChar_of_start hstart] at this
        cases this
      obtain ⟨hdigit, hminus, hquote⟩ := isIdentStart_plain hstart
      refine ⟨start + (c :: tail).length, ?_⟩
      simp only [Lexeme.spelling, List.cons_append, lexToken, hnone, lexIdent, hdigit, hstart,
        beq_eq_false_iff_ne.mpr hminus, beq_eq_false_iff_ne.mpr hquote, Bool.false_and,
        Bool.or_false, Bool.false_eq_true, if_false, if_true]
      rw [List.cons_append] at htake hdrop
      rw [htake, hdrop]
      rfl
  | numeral n =>
    have hlex := lexNumber_complete n start h
    obtain ⟨d, tail, hwhole, hd⟩ := n.whole_head
    -- the text starts with a digit, or with a minus and a digit
    obtain ⟨c, tail', hcs, hplain, hstart⟩ : ∃ c tail', n.spelling ++ rest = c :: tail' ∧
        (c ∉ signs ∧ c ≠ '\'') ∧ (c.isDigit || (c == '-' && tail'.head?.any Char.isDigit)) = true := by
      cases hneg : n.neg with
      | true =>
        exact ⟨'-', d :: (tail ++ ((if n.frac = [] then [] else '.' :: n.frac) ++ rest)),
          by simp [Numeral.spelling, hneg, hwhole], by decide, by simp [hd]⟩
      | false =>
        refine ⟨d, tail ++ ((if n.frac = [] then [] else '.' :: n.frac) ++ rest),
          by simp [Numeral.spelling, hneg, hwhole], ⟨fun hm => ?_, ?_⟩, by simp [hd]⟩
        · have := (signs_plain d hm).2.1
          rw [hd] at this
          cases this
        · rintro rfl
          simp at hd
    simp only [Lexeme.spelling, lexToken]
    rw [hcs] at hlex ⊢
    simp only [punctuation_none hplain.1, beq_eq_false_iff_ne.mpr hplain.2, Bool.false_eq_true,
      if_false, hstart, if_true, hlex]
    exact ⟨_, rfl⟩
  | text cs unquoted =>
    have hne : ∀ c ∈ cs, (c != '\'') = true := fun c hc => by
      rw [bne_iff_ne]
      rintro rfl
      exact unquoted hc
    have hstop : ∀ c ∈ (('\'' :: rest).head?), (c != '\'') = false := by simp
    obtain ⟨htake, hdrop⟩ := takeWhile_append_stop hne hstop
    have hnone : punctuation ('\'' :: (cs ++ '\'' :: rest)) = none := punctuation_none (by decide)
    simp only [Lexeme.spelling, List.cons_append, List.append_assoc, List.nil_append, lexToken,
      hnone, beq_self_eq_true, if_true, lexString, htake, hdrop]
    exact ⟨_, rfl⟩

/-! ### Whole sources -/

theorem symbol_head {k : TokenKind} (hk : k ∈ symbols) : ∃ c tail, k.display.toList = c :: tail ∧
    c ∈ signs ∧ (c = '=' → k = .eq) ∧ (c = '?' → k = .question ∨ k = .coalesce) ∧
      (c = '.' → k = .dot) := by
  simp only [symbols, List.mem_cons, List.not_mem_nil, or_false] at hk
  obtain rfl | rfl | rfl | rfl | rfl | rfl | rfl | rfl | rfl | rfl | rfl | rfl | rfl | rfl |
    rfl | rfl | rfl | rfl | rfl := hk
  all_goals exact ⟨_, _, rfl, by decide, by decide, by decide, by decide⟩

/-- A terminal takes a character, and does not start with whitespace. -/
theorem Lexeme.spelling_head (l : Lexeme) :
    ∃ c tail, l.spelling = c :: tail ∧ isSpace c = false := by
  cases l with
  | symbol k listed =>
    obtain ⟨c, tail, hcs, hc, -⟩ := symbol_head listed
    exact ⟨c, tail, hcs, (signs_plain c hc).2.2.2.2⟩
  | word cs shape =>
    obtain ⟨⟨c, hc, hstart⟩, -⟩ := isWord_iff.mp shape
    cases cs with
    | nil => simp at hc
    | cons c' tail =>
      cases hc
      refine ⟨c, tail, rfl, ?_⟩
      rw [Bool.eq_false_iff]
      intro hspace
      simp only [isSpace, Bool.or_eq_true, beq_iff_eq] at hspace
      obtain ((rfl | rfl) | rfl) | rfl := hspace <;> simp [isIdentStart] at hstart
  | numeral n =>
    obtain ⟨d, tail, hwhole, hd⟩ := n.whole_head
    cases hneg : n.neg with
    | true => exact ⟨'-', _, by simp [spelling, Numeral.spelling, hneg]; rfl, by decide⟩
    | false =>
      refine ⟨d, _, by simp [spelling, Numeral.spelling, hneg, hwhole]; rfl, ?_⟩
      rw [Bool.eq_false_iff]
      intro hspace
      simp only [isSpace, Bool.or_eq_true, beq_iff_eq] at hspace
      obtain ((rfl | rfl) | rfl) | rfl := hspace <;> simp at hd
  | text cs unquoted => exact ⟨'\'', _, rfl, by decide⟩

/-- The first terminal of a source, after its leading whitespace. -/
theorem Spelled.cons_inv {l : Lexeme} {ls : List Lexeme} {cs : List Char}
    (h : Spelled (l :: ls) cs) :
    ∃ rest, cs.dropWhile isSpace = l.spelling ++ rest ∧ rest.length < cs.length ∧
      Spelled ls rest := by
  cases h with
  | cons blank tail =>
    rename_i ws rest
    obtain ⟨c, body, hc, hspace⟩ := l.spelling_head
    obtain ⟨-, hdrop⟩ := @takeWhile_append_stop _ _ (l.spelling ++ rest) blank (by simp [hc, hspace])
    refine ⟨rest, hdrop, ?_, tail⟩
    simp [hc]
    omega

theorem Spelled.nil_inv {cs : List Char} (h : Spelled [] cs) : cs.dropWhile isSpace = [] := by
  cases h with
  | nil blank => simpa using blank

theorem tokenizeFrom_sound {budget : Nat} {cs : List Char} {pos : Nat} {toks : List Token}
    (hb : cs.length < budget) (h : tokenizeFrom budget cs pos = .ok toks) :
    ∃ ls, Spelled ls cs ∧ toks.map Token.kind = ls.map Lexeme.kind ++ [.eof] := by
  induction budget generalizing cs pos toks with
  | zero => omega
  | succ budget ih =>
    rw [tokenizeFrom] at h
    split at h
    · cases h
    · rename_i tok rest pos' hnext
      have hsplit : cs.takeWhile isSpace ++ cs.dropWhile isSpace = cs :=
        List.takeWhile_append_dropWhile
      have hblank : ∀ c ∈ cs.takeWhile isSpace, isSpace c := fun c hc => List.mem_takeWhile_imp hc
      obtain ⟨hnil, -, heof⟩ | ⟨l, hl, hkind⟩ := lexToken_sound hnext
      · rw [if_pos heof] at h
        cases h
        rw [hnil, List.append_nil] at hsplit
        rw [hsplit] at hblank
        exact ⟨[], .nil hblank, by simp [heof]⟩
      · rw [if_neg (hkind ▸ l.kind_ne_eof)] at h
        split at h
        · cases h
        · rename_i toks' htoks
          cases h
          obtain ⟨c, body, hc, -⟩ := l.spelling_head
          have hlen : rest.length < cs.length := by
            rw [← hsplit, hl, hc]
            simp
            omega
          obtain ⟨ls, hspelled, hkinds⟩ := ih (by omega) htoks
          refine ⟨l :: ls, ?_, by simp [hkind, hkinds]⟩
          have hcs := Spelled.cons (l := l) hblank hspelled
          rwa [← hl, hsplit] at hcs

/-- Two terminals that stay two with nothing between them. -/
def Apart : Lexeme → Lexeme → Prop
  | .symbol k _, l =>
    k ∈ [.lt, .gt, .not, .question] → l.kind ≠ .eq ∧ l.kind ≠ .question ∧ l.kind ≠ .coalesce
  | .word .., l => l.kind ∈ symbols
  | .numeral _, l => l.kind ∈ symbols ∧ l.kind ≠ .dot
  | .text .., _ => True

theorem space_plain {c : Char} (h : isSpace c) :
    (c ≠ '=' ∧ c ≠ '?') ∧ isIdentChar c = false ∧ c.isDigit = false ∧ c ≠ '.' := by
  simp only [isSpace, Bool.or_eq_true, beq_iff_eq] at h
  obtain ((rfl | rfl) | rfl) | rfl := h <;> decide

theorem ends_of_blank (l : Lexeme) {rest : List Char} (h : ∀ c ∈ rest.head?, isSpace c) :
    Ends l rest := by
  cases l with
  | symbol k listed => exact fun _ c hc => (space_plain (h c hc)).1
  | word cs shape => exact fun c hc => (space_plain (h c hc)).2.1
  | numeral n => exact fun c hc => (space_plain (h c hc)).2.2
  | text cs unquoted => trivial

theorem word_head_plain {c : Char} {cs : List Char} (shape : IsWord cs) (hc : c ∈ cs.head?) :
    c ≠ '=' ∧ c ≠ '?' := by
  obtain ⟨⟨c', hc', hstart⟩, -⟩ := isWord_iff.mp shape
  cases Option.mem_unique hc hc'
  constructor <;> rintro rfl <;> simp [isIdentStart] at hstart

theorem ends_of_apart {l l' : Lexeme} {tail : List Char} (h : Apart l l') :
    Ends l (l'.spelling ++ tail) := by
  have hhead : ∀ c ∈ (l'.spelling ++ tail).head?, c ∈ l'.spelling.head? := by
    obtain ⟨c, body, hc, -⟩ := l'.spelling_head
    simp [hc]
  cases l with
  | symbol k listed =>
    intro hk c hc
    obtain ⟨hne, hquestion, hcoalesce⟩ := h hk
    have hc' := hhead c hc
    cases l' with
    | symbol k' listed' =>
      obtain ⟨c', body, hcs, -, heq, hask, -⟩ := symbol_head listed'
      rw [Lexeme.spelling, hcs] at hc'
      cases hc'
      exact ⟨fun he => hne (heq he), fun hq => (hask hq).elim hquestion hcoalesce⟩
    | word cs shape => exact word_head_plain shape hc'
    | numeral n =>
      obtain ⟨d, body, hwhole, hd⟩ := n.whole_head
      cases hneg : n.neg with
      | true =>
        simp only [Lexeme.spelling, Numeral.spelling, hneg] at hc'
        cases hc'
        decide
      | false =>
        simp only [Lexeme.spelling, Numeral.spelling, hneg, hwhole] at hc'
        cases hc'
        constructor <;> rintro rfl <;> simp at hd
    | text cs unquoted =>
      cases hc'
      decide
  | word cs shape =>
    obtain ⟨k, listed, rfl⟩ : ∃ k listed, l' = .symbol k listed := ⟨_, h, Lexeme.eq_sym h rfl⟩
    intro c hc
    obtain ⟨c', body, hcs, hsign, -⟩ := symbol_head listed
    have hc' := hhead c hc
    rw [Lexeme.spelling, hcs] at hc'
    cases hc'
    exact (signs_plain _ hsign).1
  | numeral n =>
    obtain ⟨hlisted, hk⟩ := h
    obtain ⟨k, listed, rfl⟩ : ∃ k listed, l' = .symbol k listed :=
      ⟨_, hlisted, Lexeme.eq_sym hlisted rfl⟩
    intro c hc
    obtain ⟨c', body, hcs, hsign, -, -, hdot⟩ := symbol_head listed
    have hc' := hhead c hc
    rw [Lexeme.spelling, hcs] at hc'
    cases hc'
    exact ⟨(signs_plain _ hsign).2.1, fun hd => hk (hdot hd)⟩
  | text cs unquoted => trivial

/-- What follows the first of a sequence of terminals that stay apart does not continue it. -/
theorem ends_of_isChain {l : Lexeme} {ls : List Lexeme} {rest : List Char}
    (hchain : (l :: ls).IsChain Apart) (h : Spelled ls rest) : Ends l rest := by
  cases h with
  | nil blank =>
    refine ends_of_blank l fun c hc => blank c ?_
    exact List.mem_of_mem_head? hc
  | cons blank tail =>
    rename_i l' ls' ws rest'
    cases ws with
    | nil => exact ends_of_apart ((List.isChain_cons.mp hchain).1 l' rfl)
    | cons c ws =>
      refine ends_of_blank l fun c' hc' => ?_
      cases hc'
      exact blank c (by simp)

theorem tokenizeFrom_complete {budget : Nat} {ls : List Lexeme} {cs : List Char}
    (hb : cs.length < budget) (hchain : ls.IsChain Apart) (h : Spelled ls cs) (pos : Nat) :
    ∃ toks, tokenizeFrom budget cs pos = .ok toks ∧
      toks.map Token.kind = ls.map Lexeme.kind ++ [.eof] := by
  induction ls generalizing budget cs pos with
  | nil =>
    cases budget with
    | zero => omega
    | succ budget =>
      rw [tokenizeFrom, nextToken, h.nil_inv]
      exact ⟨_, rfl, rfl⟩
  | cons l ls ih =>
    cases budget with
    | zero => omega
    | succ budget =>
      obtain ⟨rest, hdrop, hlen, hrest⟩ := h.cons_inv
      obtain ⟨stop, hlex⟩ := lexToken_complete l (pos + (cs.takeWhile isSpace).length)
        (ends_of_isChain hchain hrest)
      have hb' : rest.length < budget := by omega
      obtain ⟨toks, htoks, hkinds⟩ := ih hb' hchain.tail hrest stop
      rw [tokenizeFrom, nextToken, hdrop, hlex]
      simp only [if_neg l.kind_ne_eof, htoks]
      exact ⟨_, rfl, by simp [hkinds]⟩

theorem Numeral.spelling_inj {n m : Numeral} (h : n.spelling = m.spelling) : n = m := by
  obtain ⟨d, tail, hd, hdigit⟩ := n.whole_head
  obtain ⟨d', tail', hd', hdigit'⟩ := m.whole_head
  have hne := isDigit_ne_minus hdigit
  have hne' := isDigit_ne_minus hdigit'
  have hneg : n.neg = m.neg := by
    cases hn : n.neg with
    | true =>
      cases hm : m.neg with
      | true => rfl
      | false =>
        simp only [spelling, hn, hm, hd', if_true, List.cons_append] at h
        exact absurd (List.cons.inj h).1.symm hne'
    | false =>
      cases hm : m.neg with
      | true =>
        simp only [spelling, hn, hm, hd, if_true, List.cons_append] at h
        exact absurd (List.cons.inj h).1 hne
      | false => rfl
  -- both have the same digits up to the first other character
  have hbody : n.whole ++ (if n.frac = [] then [] else '.' :: n.frac) =
      m.whole ++ (if m.frac = [] then [] else '.' :: m.frac) := by
    simp only [spelling, hneg, List.append_assoc] at h
    exact List.append_cancel_left h
  have hstop : ∀ k : Numeral, ∀ c ∈ (if k.frac = [] then [] else '.' :: k.frac).head?,
      c.isDigit = false := by
    intro k c hc
    split at hc
    · cases hc
    · cases hc
      decide
  obtain ⟨htake, hdrop⟩ := takeWhile_append_stop n.whole_digits (hstop n)
  obtain ⟨htake', hdrop'⟩ := takeWhile_append_stop m.whole_digits (hstop m)
  have hwhole : n.whole = m.whole := by rw [← htake, ← htake', hbody]
  have hfrac : n.frac = m.frac := by
    rw [hbody, hdrop'] at hdrop
    split_ifs at hdrop <;> simp_all
  cases n
  cases m
  simp_all

/-- A terminal is known from its text and its token. -/
theorem Lexeme.eq_of_spelling {l l' : Lexeme} (hs : l.spelling = l'.spelling)
    (hk : l.kind = l'.kind) : l = l' := by
  have hword : ∀ raw, (∀ v, keyword raw ≠ .number v) ∧ ∀ s, keyword raw ≠ .string s := by
    intro raw
    unfold keyword
    split_ifs <;> simp
  by_cases hl : l.kind ∈ symbols
  · rw [Lexeme.eq_sym hl rfl, Lexeme.eq_sym hl hk.symm]
  · have hl' : l'.kind ∉ symbols := hk ▸ hl
    cases l with
    | symbol k listed => exact absurd listed hl
    | word cs shape =>
      cases l' with
      | symbol k' listed' => exact absurd listed' hl'
      | word cs' shape' =>
        cases hs
        rfl
      | numeral n' => exact absurd hk ((hword _).1 _)
      | text cs' unquoted' => exact absurd hk ((hword _).2 _)
    | numeral n =>
      cases l' with
      | symbol k' listed' => exact absurd listed' hl'
      | word cs' shape' => exact absurd hk.symm ((hword _).1 _)
      | numeral n' => rw [Numeral.spelling_inj hs]
      | text cs' unquoted' => cases hk
    | text cs unquoted =>
      cases l' with
      | symbol k' listed' => exact absurd listed' hl'
      | word cs' shape' => exact absurd hk.symm ((hword _).2 _)
      | numeral n' => cases hk
      | text cs' unquoted' =>
        have : cs = cs' := by simpa [spelling] using hs
        cases this
        rfl

/-- A source spells one sequence of terminals that stay apart. -/
theorem Spelled.unique {ls ls' : List Lexeme} {cs : List Char} (hchain : ls.IsChain Apart)
    (hchain' : ls'.IsChain Apart) (h : Spelled ls cs) (h' : Spelled ls' cs) : ls = ls' := by
  induction ls generalizing ls' cs with
  | nil =>
    cases ls' with
    | nil => rfl
    | cons l' ls' =>
      obtain ⟨rest, hdrop, -, -⟩ := h'.cons_inv
      obtain ⟨c, body, hc, -⟩ := l'.spelling_head
      rw [h.nil_inv, hc] at hdrop
      cases hdrop
  | cons l ls ih =>
    obtain ⟨rest, hdrop, -, hrest⟩ := h.cons_inv
    cases ls' with
    | nil =>
      obtain ⟨c, body, hc, -⟩ := l.spelling_head
      rw [h'.nil_inv, hc] at hdrop
      cases hdrop
    | cons l' ls' =>
      obtain ⟨rest', hdrop', -, hrest'⟩ := h'.cons_inv
      obtain ⟨stop, hlex⟩ := lexToken_complete l 0 (ends_of_isChain hchain hrest)
      obtain ⟨stop', hlex'⟩ := lexToken_complete l' 0 (ends_of_isChain hchain' hrest')
      have hsame : l.spelling ++ rest = l'.spelling ++ rest' := hdrop.symm.trans hdrop'
      rw [hsame, hlex'] at hlex
      simp only [Except.ok.injEq, Prod.mk.injEq, Token.mk.injEq, and_true] at hlex
      obtain ⟨hkind, hrests, -⟩ := hlex
      subst hrests
      have hls : ls = ls' := ih hchain.tail hchain'.tail hrest hrest'
      rw [Lexeme.eq_of_spelling (List.append_cancel_right hsame) hkind.symm, hls]

end Gwead.Dsl
