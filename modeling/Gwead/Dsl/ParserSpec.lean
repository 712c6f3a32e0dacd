import Gwead.Dsl.StepsRefs
import Gwead.Dsl.Unambiguous

/-!
# The parser derives

Each parsing function reads a phrase of its production off the tokens, and reads every phrase that
nothing after it continues, with the indices it takes through binary64.
-/

namespace Gwead.Dsl

namespace Parser

/-- A sequence goes on from what its first part returns. -/
theorem bind_run {α β : Type} {p : Parser α} {f : α → Parser β} {s s' : ParserState} {a : α}
    (h : p s = .ok (a, s')) : (p >>= f) s = f a s' := by
  simp only [bind, StateT.bind, Except.bind, h]

/-- The parser stands before a sequence of terminals, with so many operators counted. -/
structure At (ls : List Lexeme) (ops : Nat) (s : ParserState) : Prop where
  kinds : s.tokens.map Token.kind = ls.map Lexeme.kind ++ [.eof]
  counted : s.ops = ops

/-- The kind of the next token. -/
def nextKind : List Lexeme → TokenKind
  | [] => .eof
  | l :: _ => l.kind

theorem At.cons_inv {l : Lexeme} {ls : List Lexeme} {n : Nat} {s : ParserState}
    (h : At (l :: ls) n s) : ∃ t rest, s.tokens = t :: rest ∧ t.kind = l.kind ∧
      At ls n { s with tokens := rest } := by
  have hkinds := h.kinds
  cases hts : s.tokens with
  | nil => simp [hts] at hkinds
  | cons t rest =>
    rw [hts] at hkinds
    simp only [List.map_cons, List.cons_append, List.cons.injEq] at hkinds
    exact ⟨t, rest, rfl, hkinds.1, hkinds.2, h.counted⟩

theorem At.nil_inv {n : Nat} {s : ParserState} (h : At [] n s) :
    ∃ t, s.tokens = [t] ∧ t.kind = .eof := by
  have hkinds := h.kinds
  cases hts : s.tokens with
  | nil => simp [hts] at hkinds
  | cons t rest =>
    rw [hts] at hkinds
    simp only [List.map_cons, List.map_nil, List.nil_append, List.cons.injEq,
      List.map_eq_nil_iff] at hkinds
    exact ⟨t, by rw [hkinds.2], hkinds.1⟩

theorem peek_at {ls : List Lexeme} {n : Nat} {s : ParserState} (h : At ls n s) :
    ∃ start, peek s = .ok (⟨nextKind ls, start⟩, s) := by
  cases ls with
  | nil =>
    obtain ⟨t, hts, hk⟩ := h.nil_inv
    exact ⟨t.start, by simp [peek, hts, nextKind, ← hk]⟩
  | cons l ls =>
    obtain ⟨t, rest, hts, hk, -⟩ := h.cons_inv
    exact ⟨t.start, by simp [peek, hts, nextKind, ← hk]⟩

theorem bump_at {l : Lexeme} {ls : List Lexeme} {n : Nat} {s : ParserState}
    (h : At (l :: ls) n s) : ∃ start s', bump s = .ok (⟨l.kind, start⟩, s') ∧ At ls n s' := by
  obtain ⟨t, rest, hts, hk, hrest⟩ := h.cons_inv
  refine ⟨t.start, { s with tokens := rest }, ?_, hrest⟩
  have hne : t.kind ≠ .eof := hk ▸ l.kind_ne_eof
  simp only [bump, hts, if_neg hne, ← hk]

theorem bump_end {n : Nat} {s : ParserState} (h : At [] n s) :
    ∃ start, bump s = .ok (⟨.eof, start⟩, s) := by
  obtain ⟨t, hts, hk⟩ := h.nil_inv
  refine ⟨t.start, ?_⟩
  simp only [bump, hts, hk, if_true]
  rw [← hk]

theorem expect_at {l : Lexeme} {ls : List Lexeme} {n : Nat} {s : ParserState} {k : TokenKind}
    (h : At (l :: ls) n s) (hk : l.kind = k) :
    ∃ t s', expect k s = .ok (t, s') ∧ At ls n s' := by
  obtain ⟨start, hpeek⟩ := peek_at h
  obtain ⟨start', s', hbump, hs'⟩ := bump_at h
  refine ⟨⟨l.kind, start'⟩, s', ?_, hs'⟩
  rw [expect, bind_run hpeek, nextKind, if_pos hk]
  exact hbump

theorem expect_sym {k : TokenKind} {hk : k ∈ symbols} {ls : List Lexeme} {n : Nat}
    {s : ParserState} (h : At (sym k hk :: ls) n s) :
    ∃ t s', expect k s = .ok (t, s') ∧ At ls n s' := expect_at h rfl

theorem expect_inv {ls : List Lexeme} {n : Nat} {s s' : ParserState} {k : TokenKind} {t : Token}
    (h : At ls n s) (hk : k ≠ .eof) (hok : expect k s = .ok (t, s')) :
    ∃ l ls', ls = l :: ls' ∧ l.kind = k ∧ At ls' n s' := by
  obtain ⟨start, hpeek⟩ := peek_at h
  obtain ⟨_, _, hpeek', hok⟩ := bind_ok.mp hok
  rw [hpeek] at hpeek'
  cases hpeek'
  split at hok
  · rename_i hkind
    cases ls with
    | nil => exact absurd hkind.symm hk
    | cons l ls =>
      obtain ⟨_, _, hbump, hs'⟩ := bump_at h
      rw [hbump] at hok
      cases hok
      exact ⟨l, ls, rfl, hkind, hs'⟩
  · simp at hok

/-- An identifier token comes from a word that is not reserved. -/
theorem ident_of_kind {l : Lexeme} {name : String} (h : l.kind = .ident name) : Ident l name := by
  cases l with
  | symbol k listed =>
    cases h
    simp [symbols] at listed
  | word cs shape =>
    simp only [Lexeme.kind, keyword] at h
    split_ifs at h with ht hf hn
    cases h
    exact .mk (by simp [reservedWords, ht, hf, hn])
  | numeral n => cases h
  | text cs unquoted => cases h

theorem kind_of_ident {l : Lexeme} {name : String} (h : Ident l name) : l.kind = .ident name := by
  cases h with
  | mk free =>
    simp only [reservedWords, List.mem_cons, List.not_mem_nil, or_false, not_or] at free
    simp [Lexeme.kind, keyword, free]

/-- A string token comes from a string literal. -/
theorem text_of_kind {l : Lexeme} {value : String} (h : l.kind = .string value) :
    ∃ cs unquoted, l = .text cs unquoted ∧ value = String.ofList cs := by
  cases l with
  | symbol k listed =>
    cases h
    simp [symbols] at listed
  | word cs shape =>
    simp only [Lexeme.kind, keyword] at h
    split_ifs at h
  | numeral n => cases h
  | text cs unquoted =>
    cases h
    exact ⟨cs, unquoted, rfl, rfl⟩

theorem numeral_of_kind {l : Lexeme} {v : Binary64} (h : l.kind = .number v) :
    ∃ n, l = .numeral n ∧ n.value = v := by
  cases l with
  | symbol k listed =>
    cases h
    simp [symbols] at listed
  | word cs shape =>
    simp only [Lexeme.kind, keyword] at h
    split_ifs at h
  | numeral n =>
    cases h
    exact ⟨n, rfl, rfl⟩
  | text cs unquoted => cases h

theorem identOr_at {l : Lexeme} {ls : List Lexeme} {n : Nat} {s : ParserState} {name : String}
    (m : String) (h : At (l :: ls) n s) (hid : Ident l name) :
    ∃ s', identOr m s = .ok (name, s') ∧ At ls n s' := by
  obtain ⟨start, s', hbump, hs'⟩ := bump_at h
  refine ⟨s', ?_, hs'⟩
  rw [identOr, bind_run hbump]
  simp only [kind_of_ident hid, TokenKind.ident?]
  rfl

theorem identOr_inv {ls : List Lexeme} {n : Nat} {s s' : ParserState} {name m : String}
    (h : At ls n s) (hok : identOr m s = .ok (name, s')) :
    ∃ l ls', ls = l :: ls' ∧ Ident l name ∧ At ls' n s' := by
  obtain ⟨_, _, hbump', hok⟩ := bind_ok.mp hok
  cases ls with
  | nil =>
    obtain ⟨start, hbump⟩ := bump_end h
    rw [hbump] at hbump'
    cases hbump'
    simp [TokenKind.ident?] at hok
  | cons l ls =>
    obtain ⟨start, s₁, hbump, hs₁⟩ := bump_at h
    rw [hbump] at hbump'
    cases hbump'
    cases hk : l.kind.ident? with
    | none => simp [hk] at hok
    | some name' =>
      simp only [hk] at hok
      cases pure_ok.mp hok
      exact ⟨l, ls, rfl, ident_of_kind (ident?_eq_some hk), hs₁⟩

/-! ### What a parsing function does -/

/-- Whatever a parser returns is the value of a phrase it has read. -/
def Sound {α β : Type} (phrase : List Lexeme → β → Prop) (value : β → Option α) (ops : β → Nat)
    (p : Parser α) : Prop :=
  ∀ ls n s a s', At ls n s → p s = .ok (a, s') → ∃ used rest b, ls = used ++ rest ∧
    phrase used b ∧ value b = some a ∧ At rest (n + ops b) s' ∧
      (n ≤ maxExprOps → n + ops b ≤ maxExprOps)

/-- Every phrase that has a value and stays within the operator limit is read to its end, when
nothing after it continues it. -/
def Complete {α β : Type} (level : Nat) (phrase : List Lexeme → β → Prop) (value : β → Option α)
    (ops : β → Nat) (p : Parser α) : Prop :=
  ∀ used b a rest n s, phrase used b → value b = some a → Stops level rest →
    At (used ++ rest) n s → n + ops b ≤ maxExprOps →
      ∃ s', p s = .ok (a, s') ∧ At rest (n + ops b) s'

/-! ### References -/

theorem parseFilter_sound {ls : List Lexeme} {n : Nat} {s s' : ParserState} {seg : PathSegment}
    (h : At ls n s) (hok : parseFilter s = .ok (seg, s')) : ∃ used rest field value,
      ls = used ++ rest ∧ IsSegment (sym .lBracket :: sym .question :: (used ++ [sym .rBracket]))
        (.filterEq field value) ∧ seg = .filterEq field value ∧ At rest n s' := by
  obtain ⟨_, s₁, h₁, hok⟩ := bind_ok.mp hok
  obtain ⟨_, s₂, h₂, hok⟩ := bind_ok.mp hok
  obtain ⟨_, s₃, h₃, hok⟩ := bind_ok.mp hok
  obtain ⟨field, s₄, h₄, hok⟩ := bind_ok.mp hok
  obtain ⟨_, s₅, h₅, hok⟩ := bind_ok.mp hok
  obtain ⟨tok, s₆, h₆, hok⟩ := bind_ok.mp hok
  obtain ⟨l₁, ls₁, rfl, hk₁, ha₁⟩ := expect_inv h (by decide) h₁
  obtain ⟨l₂, ls₂, rfl, hk₂, ha₂⟩ := expect_inv ha₁ (by decide) h₂
  obtain ⟨l₃, ls₃, rfl, hk₃, ha₃⟩ := expect_inv ha₂ (by decide) h₃
  obtain ⟨l₄, ls₄, rfl, hid, ha₄⟩ := identOr_inv ha₃ h₄
  obtain ⟨l₅, ls₅, rfl, hk₅, ha₅⟩ := expect_inv ha₄ (by decide) h₅
  cases ls₅ with
  | nil =>
    obtain ⟨start, hbump⟩ := bump_end ha₅
    rw [hbump] at h₆
    cases h₆
    simp at hok
  | cons l₆ ls₆ =>
    obtain ⟨start, _, hbump, ha₆⟩ := bump_at ha₅
    rw [hbump] at h₆
    cases h₆
    cases hvalue : l₆.kind with
    | string value =>
      simp only [hvalue] at hok
      obtain ⟨_, s₇, h₇, hok⟩ := bind_ok.mp hok
      cases pure_ok.mp hok
      obtain ⟨l₇, ls₇, rfl, hk₇, ha₇⟩ := expect_inv ha₆ (by decide) h₇
      obtain ⟨cs, unquoted, rfl, rfl⟩ := text_of_kind hvalue
      rw [Lexeme.eq_sym (by decide) hk₁, Lexeme.eq_sym (by decide) hk₂,
        Lexeme.eq_sym (by decide) hk₃, Lexeme.eq_sym (by decide) hk₅,
        Lexeme.eq_sym (by decide) hk₇]
      exact ⟨[_, _, _, _, _, _, _], _, field, _, rfl, .filter hid, rfl, ha₇⟩
    | _ => simp [hvalue] at hok

/-- The parser's reading of the number in brackets. -/
abbrev indexOf : Numeral → Option Nat := Numeral.indexThroughF64

/-- What stands between brackets, with the closing one. -/
theorem parseBracketSegment_sound {ls : List Lexeme} {n : Nat} {s s' : ParserState}
    {seg : PathSegment} (h : At ls n s) (hok : parseBracketSegment s = .ok (seg, s')) :
    ∃ used rest written, ls = used ++ rest ∧ IsSegment (sym .lBracket :: used) written ∧
      written.read indexOf = some seg ∧ At rest n s' := by
  obtain ⟨tok, s₁, h₁, hok⟩ := bind_ok.mp hok
  obtain ⟨_, s₂, h₂, hok⟩ := bind_ok.mp hok
  obtain ⟨_, s₃, h₃, hok⟩ := bind_ok.mp hok
  cases pure_ok.mp hok
  cases ls with
  | nil =>
    obtain ⟨start, hbump⟩ := bump_end h
    rw [hbump] at h₁
    cases h₁
    simp [bracketSegment] at h₂
  | cons l ls =>
    obtain ⟨start, _, hbump, ha₁⟩ := bump_at h
    rw [hbump] at h₁
    cases h₁
    -- the closing bracket after a segment of one terminal
    have hclosed : At ls n s₂ → ∃ rest, ls = sym .rBracket :: rest ∧ At rest n s' := by
      intro ha₂
      obtain ⟨l', rest, rfl, hk', ha₃⟩ := expect_inv ha₂ (by decide) h₃
      exact ⟨rest, by rw [Lexeme.eq_sym (by decide) hk'], ha₃⟩
    unfold bracketSegment at h₂
    cases hk : l.kind with
    | star =>
      simp only [hk] at h₂
      cases pure_ok.mp h₂
      obtain ⟨rest, rfl, ha₃⟩ := hclosed ha₁
      rw [Lexeme.eq_sym (by decide) hk]
      exact ⟨[_, _], rest, .wildcard, rfl, .wildcard, rfl, ha₃⟩
    | number v =>
      simp only [hk] at h₂
      obtain ⟨m, rfl, hv⟩ := numeral_of_kind hk
      by_cases hbad : v.lt Binary64.zero || !v.isInteger
      · simp [hbad] at h₂
      · simp only [hbad, Bool.false_eq_true, if_false] at h₂
        cases pure_ok.mp h₂
        obtain ⟨rest, rfl, ha₃⟩ := hclosed ha₁
        refine ⟨[_, _], rest, .index m, rfl, .index m, ?_, ha₃⟩
        simp [Written.Segment.read, Numeral.indexThroughF64, hv, hbad]
    | question =>
      simp only [hk] at h₂
      obtain ⟨used, rest, field, value, rfl, hseg, rfl, ha₂⟩ := parseFilter_sound ha₁ h₂
      obtain ⟨l', rest', rfl, hk', ha₃⟩ := expect_inv ha₂ (by decide) h₃
      rw [Lexeme.eq_sym (by decide) hk, Lexeme.eq_sym (by decide) hk']
      exact ⟨sym .question :: (used ++ [sym .rBracket]), rest', _, by simp, hseg, rfl, ha₃⟩
    | _ => simp [hk] at h₂

theorem parsePathSegments_sound (budget : Nat) :
    Sound IsPath (Written.readPath indexOf) (fun _ => 0) (parsePathSegments budget) := by
  induction budget with
  | zero =>
    intro ls n s path s' h hok
    cases pure_ok.mp hok
    exact ⟨[], ls, [], rfl, .nil, rfl, h, id⟩
  | succ budget ih =>
    intro ls n s path s' h hok
    obtain ⟨start, hpeek⟩ := peek_at h
    obtain ⟨_, _, hpeek', hok⟩ := bind_ok.mp hok
    rw [hpeek] at hpeek'
    cases hpeek'
    cases ls with
    | nil =>
      simp only [nextKind] at hok
      cases pure_ok.mp hok
      exact ⟨[], [], [], rfl, .nil, rfl, h, id⟩
    | cons l ls =>
      simp only [nextKind] at hok
      obtain ⟨start', s₁, hbump, ha₁⟩ := bump_at h
      by_cases hdot : l.kind = .dot
      · simp only [hdot] at hok hbump
        rw [bind_run hbump] at hok
        obtain ⟨name, s₂, hname, hok⟩ := bind_ok.mp hok
        obtain ⟨rest', s₃, hrest, hok⟩ := bind_ok.mp hok
        cases pure_ok.mp hok
        obtain ⟨l', ls', rfl, hid, ha₂⟩ := identOr_inv ha₁ hname
        obtain ⟨used, rest, path, rfl, hpath, hread, ha₃, -⟩ := ih _ _ _ _ _ ha₂ hrest
        rw [Lexeme.eq_sym (by decide) hdot]
        refine ⟨[sym .dot, l'] ++ used, rest, _, rfl, .cons (.field hid) hpath, ?_, ha₃, id⟩
        simp [Written.readPath, Written.Segment.read, hread]
      · by_cases hbracket : l.kind = .lBracket
        · simp only [hbracket] at hok hbump
          rw [bind_run hbump] at hok
          obtain ⟨seg, s₂, hseg, hok⟩ := bind_ok.mp hok
          obtain ⟨rest', s₃, hrest, hok⟩ := bind_ok.mp hok
          cases pure_ok.mp hok
          obtain ⟨used, ls', written, rfl, hwritten, hvalue, ha₂⟩ :=
            parseBracketSegment_sound ha₁ hseg
          obtain ⟨used', rest, path, rfl, hpath, hread, ha₃, -⟩ := ih _ _ _ _ _ ha₂ hrest
          rw [Lexeme.eq_sym (by decide) hbracket]
          refine ⟨(sym .lBracket :: used) ++ used', rest, _, by simp, .cons hwritten hpath, ?_,
            ha₃, id⟩
          simp [Written.readPath, hvalue, hread]
        · have hstop : (pure [] : Parser (List PathSegment)) s = .ok (path, s') := by
            cases hk : l.kind <;> simp_all
          cases pure_ok.mp hstop
          exact ⟨[], l :: ls, [], rfl, .nil, rfl, h, id⟩

theorem text_eq_of_ident {cs : List Char} {shape : IsWord cs} {name : String}
    (h : Ident (.word cs shape) name) : name = String.ofList cs := by
  cases h
  rfl

/-- The word an identifier is. -/
theorem quoted_of_ident {l : Lexeme} {text : String} (shape : IsWord text.toList)
    (hid : Ident l text) : l = quoted text shape := by
  obtain ⟨cs, hshape, rfl⟩ := hid.is_word
  have htext : cs = text.toList := by rw [text_eq_of_ident hid, String.toList_ofList]
  subst htext
  rfl

theorem rootName_of_plain {l : Lexeme} {name : String} {root : Root} (hid : Ident l name)
    (h : plainRoot name = some root) : RootName [l] root := by
  unfold plainRoot at h
  split at h
  · cases h
    rw [quoted_of_ident (by decide) hid]
    exact .input
  · cases h
    rw [quoted_of_ident (by decide) hid]
    exact .config
  · cases h
    rw [quoted_of_ident (by decide) hid]
    exact .secrets
  · cases h
    rw [quoted_of_ident (by decide) hid]
    exact .trigger
  · cases h
    rw [quoted_of_ident (by decide) hid]
    exact .vars
  · cases h
    rw [quoted_of_ident (by decide) hid]
    exact .item
  · cases h

theorem parseRoot_sound {ls : List Lexeme} {n : Nat} {s s' : ParserState} {root : Root}
    (h : At ls n s) (hok : parseRoot s = .ok (root, s')) :
    (root = .implicit ∧ At ls n s') ∨
      ∃ used rest, ls = used ++ rest ∧ RootName used root ∧ At rest n s' := by
  obtain ⟨start, hpeek⟩ := peek_at h
  obtain ⟨_, _, hpeek', hok⟩ := bind_ok.mp hok
  rw [hpeek] at hpeek'
  cases hpeek'
  cases hname : (nextKind ls).ident? with
  | none =>
    simp only [hname] at hok
    cases pure_ok.mp hok
    exact Or.inl ⟨rfl, h⟩
  | some name =>
    simp only [hname] at hok
    cases ls with
    | nil => simp [nextKind, TokenKind.ident?] at hname
    | cons l ls =>
      have hid := ident_of_kind (ident?_eq_some hname)
      obtain ⟨start', s₁, hbump, ha₁⟩ := bump_at h
      refine Or.inr ?_
      cases hplain : plainRoot name with
      | some root' =>
        simp only [hplain] at hok
        rw [bind_run hbump] at hok
        cases pure_ok.mp hok
        exact ⟨[l], ls, rfl, rootName_of_plain hid hplain, ha₁⟩
      | none =>
        simp only [hplain] at hok
        by_cases hsteps : name = "steps"
        · subst hsteps
          rw [if_pos rfl, bind_run hbump] at hok
          obtain ⟨_, s₂, hdot, hok⟩ := bind_ok.mp hok
          obtain ⟨id, s₃, hident, hok⟩ := bind_ok.mp hok
          cases pure_ok.mp hok
          obtain ⟨l₂, ls₂, rfl, hk₂, ha₂⟩ := expect_inv ha₁ (by decide) hdot
          obtain ⟨l₃, ls₃, rfl, hid₃, ha₃⟩ := identOr_inv ha₂ hident
          rw [Lexeme.eq_sym (by decide) hk₂, quoted_of_ident (by decide) hid]
          exact ⟨[_, _, l₃], ls₃, rfl, .steps hid₃, ha₃⟩
        · rw [if_neg hsteps] at hok
          simp at hok

theorem parseReference_sound : Sound IsReference (Written.Reference.read indexOf) (fun _ => 0)
    parseReference := by
  intro ls n s r s' h hok
  obtain ⟨_, s₁, hdollar, hok⟩ := bind_ok.mp hok
  obtain ⟨root, s₂, hroot, hok⟩ := bind_ok.mp hok
  obtain ⟨_, s₃, hget, hok⟩ := bind_ok.mp hok
  obtain ⟨path, s₄, hpath, hok⟩ := bind_ok.mp hok
  cases pure_ok.mp hok
  cases hget
  obtain ⟨l, ls, rfl, hk, ha₁⟩ := expect_inv h (by decide) hdollar
  rw [Lexeme.eq_sym (by decide) hk]
  obtain ⟨rfl, ha₂⟩ | ⟨rs, rest, rfl, hname, ha₂⟩ := parseRoot_sound ha₁ hroot
  · obtain ⟨used, rest, written, rfl, hwritten, hread, ha₃, -⟩ :=
      parsePathSegments_sound _ _ _ _ _ _ ha₂ hpath
    refine ⟨_, rest, ⟨.implicit, written⟩, rfl, .implicit hwritten, ?_, ha₃, id⟩
    simp [Written.Reference.read, hread]
  · obtain ⟨used, rest, written, rfl, hwritten, hread, ha₃, -⟩ :=
      parsePathSegments_sound _ _ _ _ _ _ ha₂ hpath
    refine ⟨_, rest, ⟨root, written⟩, by simp, .rooted hname hwritten, ?_, ha₃, id⟩
    simp [Written.Reference.read, hread]

theorem parseFilter_complete {l : Lexeme} {name : String} {cs : List Char} {unquoted : '\'' ∉ cs}
    {rest : List Lexeme} {n : Nat} {s : ParserState} (hname : Ident l name)
    (h : At (sym .lParen :: sym .at :: sym .dot :: l :: sym .eq :: .text cs unquoted ::
      sym .rParen :: rest) n s) :
    ∃ s', parseFilter s = .ok (.filterEq name (String.ofList cs), s') ∧ At rest n s' := by
  obtain ⟨_, s₁, h₁, ha₁⟩ := expect_sym h
  obtain ⟨_, s₂, h₂, ha₂⟩ := expect_sym ha₁
  obtain ⟨_, s₃, h₃, ha₃⟩ := expect_sym ha₂
  obtain ⟨s₄, h₄, ha₄⟩ := identOr_at "expected field name in filter" ha₃ hname
  obtain ⟨_, s₅, h₅, ha₅⟩ := expect_sym ha₄
  obtain ⟨start, s₆, h₆, ha₆⟩ := bump_at ha₅
  obtain ⟨_, s₇, h₇, ha₇⟩ := expect_sym ha₆
  refine ⟨s₇, ?_, ha₇⟩
  rw [parseFilter, bind_run h₁, bind_run h₂, bind_run h₃, bind_run h₄, bind_run h₅, bind_run h₆]
  simp only [Lexeme.kind]
  rw [bind_run h₇]
  rfl

theorem parseBracketSegment_complete {used rest : List Lexeme} {written : Written.Segment}
    {seg : PathSegment} {n : Nat} {s : ParserState}
    (hwritten : IsSegment (sym .lBracket :: used) written) (hread : written.read indexOf = some seg)
    (h : At (used ++ rest) n s) :
    ∃ s', parseBracketSegment s = .ok (seg, s') ∧ At rest n s' := by
  generalize hall : sym .lBracket :: used = all at hwritten
  cases hwritten with
  | field hname => cases hall
  | index m =>
    cases hall
    obtain ⟨v, hv, rfl⟩ := Option.map_eq_some_iff.mp hread
    unfold indexOf Numeral.indexThroughF64 at hv
    by_cases hbad : m.value.lt Binary64.zero || !m.value.isInteger
    · simp [hbad] at hv
    · simp only [hbad, Bool.false_eq_true, if_false, Option.some.injEq] at hv
      obtain ⟨start, s₁, hbump, ha₁⟩ := bump_at h
      obtain ⟨_, s₂, hclose, ha₂⟩ := expect_sym ha₁
      refine ⟨s₂, ?_, ha₂⟩
      rw [parseBracketSegment, bind_run hbump]
      simp only [Lexeme.kind, bracketSegment, hbad, Bool.false_eq_true, if_false, hv, pure_bind]
      rw [bind_run hclose]
      rfl
  | wildcard =>
    cases hall
    cases hread
    obtain ⟨start, s₁, hbump, ha₁⟩ := bump_at h
    obtain ⟨_, s₂, hclose, ha₂⟩ := expect_sym ha₁
    refine ⟨s₂, ?_, ha₂⟩
    rw [parseBracketSegment, bind_run hbump]
    simp only [sym, Lexeme.kind, bracketSegment, pure_bind]
    rw [bind_run hclose]
    rfl
  | filter hname =>
    cases hall
    cases hread
    obtain ⟨start, s₁, hbump, ha₁⟩ := bump_at h
    obtain ⟨s₂, hfilter, ha₂⟩ := parseFilter_complete hname ha₁
    obtain ⟨_, s₃, hclose, ha₃⟩ := expect_sym ha₂
    refine ⟨s₃, ?_, ha₃⟩
    rw [parseBracketSegment, bind_run hbump]
    simp only [sym, Lexeme.kind, bracketSegment]
    rw [bind_run hfilter, bind_run hclose]
    rfl

theorem parsePathSegments_complete {used : List Lexeme} {written : List Written.Segment}
    (hpath : IsPath used written) : ∀ (budget : Nat) (path : List PathSegment) (rest : List Lexeme)
      (n : Nat) (s : ParserState), Written.readPath indexOf written = some path → Stops 1 rest →
      At (used ++ rest) n s → used.length ≤ budget →
        ∃ s', parsePathSegments budget s = .ok (path, s') ∧ At rest n s' := by
  induction hpath with
  | nil =>
    intro budget path rest n s hread hstops h _
    cases hread
    refine ⟨s, ?_, h⟩
    cases budget with
    | zero => rfl
    | succ budget =>
      obtain ⟨start, hpeek⟩ := peek_at h
      rw [parsePathSegments, bind_run hpeek, List.nil_append]
      cases rest with
      | nil => rfl
      | cons l rest =>
        have hrank := stops_cons.mp hstops
        simp only [nextKind]
        cases hk : l.kind <;> first
          | rfl
          | simp [hk, TokenKind.rank] at hrank
  | @cons ls ls' seg written head tail ih =>
    intro budget path rest n s hread hstops h hbudget
    rw [Written.readPath, Option.bind_eq_some_iff] at hread
    obtain ⟨first, hfirst, hmap⟩ := hread
    obtain ⟨more, hmore, rfl⟩ := Option.map_eq_some_iff.mp hmap
    rw [List.append_assoc] at h
    rw [List.length_append] at hbudget
    cases budget with
    | zero =>
      cases head <;> simp at hbudget
    | succ budget =>
      obtain ⟨start, hpeek⟩ := peek_at h
      rw [parsePathSegments, bind_run hpeek]
      by_cases hdot : ∃ l name, Ident l name ∧ ls = [sym .dot, l] ∧ seg = .field name
      · obtain ⟨l, name, hname, rfl, rfl⟩ := hdot
        cases hfirst
        obtain ⟨start', s₁, hbump, ha₁⟩ := bump_at h
        obtain ⟨s₂, hident, ha₂⟩ := identOr_at "expected field name after `.`" ha₁ hname
        obtain ⟨s', hrest, ha'⟩ := ih budget more rest n s₂ hmore hstops ha₂ (by
          simp only [List.length_cons, List.length_nil] at hbudget
          omega)
        refine ⟨s', ?_, ha'⟩
        simp only [List.cons_append, nextKind, sym, Lexeme.kind]
        rw [bind_run hbump, bind_run hident, bind_run hrest]
        rfl
      · -- every other segment starts with a bracket
        obtain ⟨inner, rfl⟩ : ∃ inner, ls = sym .lBracket :: inner := by
          cases head with
          | field hname => exact absurd ⟨_, _, hname, rfl, rfl⟩ hdot
          | _ => exact ⟨_, rfl⟩
        obtain ⟨start', s₁, hbump, ha₁⟩ := bump_at h
        obtain ⟨s₂, hseg, ha₂⟩ := parseBracketSegment_complete head hfirst ha₁
        obtain ⟨s', hrest, ha'⟩ := ih budget more rest n s₂ hmore hstops ha₂ (by
          simp only [List.length_cons] at hbudget
          omega)
        refine ⟨s', ?_, ha'⟩
        simp only [List.cons_append, nextKind, sym, Lexeme.kind]
        rw [bind_run hbump, bind_run hseg, bind_run hrest]
        rfl

theorem nextKind_path {ls rest : List Lexeme} {path : List Written.Segment} (h : IsPath ls path)
    (hstops : Stops 1 rest) : (nextKind (ls ++ rest)).ident? = none := by
  cases h with
  | nil =>
    cases rest with
    | nil => rfl
    | cons l rest =>
      have hrank := stops_cons.mp hstops
      cases hk : l.kind <;> simp_all [nextKind, TokenKind.ident?, TokenKind.rank]
  | cons head tail =>
    cases head <;> rfl

theorem kind_quoted {text : String} {shape : IsWord text.toList} (hfree : text ∉ reservedWords) :
    (quoted text shape).kind = .ident text := by
  have hid : Ident (quoted text shape) (String.ofList text.toList) :=
    .mk (by rwa [String.ofList_toList])
  rw [kind_of_ident hid, String.ofList_toList]

theorem parseRoot_complete {rs rest : List Lexeme} {root : Root} {n : Nat} {s : ParserState}
    (hroot : RootName rs root) (h : At (rs ++ rest) n s) :
    ∃ s', parseRoot s = .ok (root, s') ∧ At rest n s' := by
  -- a root that is one word
  have hplain : ∀ (text : String) (shape : IsWord text.toList), text ∉ reservedWords →
      rs = [quoted text shape] → plainRoot text = some root →
        ∃ s', parseRoot s = .ok (root, s') ∧ At rest n s' := by
    rintro text shape hfree rfl hname
    obtain ⟨start, hpeek⟩ := peek_at h
    obtain ⟨start', s', hbump, ha'⟩ := bump_at h
    refine ⟨s', ?_, ha'⟩
    rw [parseRoot, bind_run hpeek]
    simp only [List.cons_append, nextKind, kind_quoted hfree, TokenKind.ident?, hname]
    rw [bind_run hbump]
    rfl
  cases hroot with
  | input => exact hplain "input" _ (by decide) rfl rfl
  | config => exact hplain "config" _ (by decide) rfl rfl
  | trigger => exact hplain "trigger" _ (by decide) rfl rfl
  | secrets => exact hplain "secrets" _ (by decide) rfl rfl
  | vars => exact hplain "vars" _ (by decide) rfl rfl
  | item => exact hplain "item" _ (by decide) rfl rfl
  | steps hid =>
    obtain ⟨start, hpeek⟩ := peek_at h
    obtain ⟨start', s₁, hbump, ha₁⟩ := bump_at h
    obtain ⟨_, s₂, hdot, ha₂⟩ := expect_sym ha₁
    obtain ⟨s₃, hident, ha₃⟩ := identOr_at "expected step id after `$steps.`" ha₂ hid
    refine ⟨s₃, ?_, ha₃⟩
    have hfree : "steps" ∉ reservedWords := by decide
    have hnone : plainRoot "steps" = none := rfl
    rw [parseRoot, bind_run hpeek]
    simp only [List.cons_append, nextKind, kind_quoted hfree, TokenKind.ident?, hnone, if_true]
    rw [bind_run hbump, bind_run hdot, bind_run hident]
    rfl

theorem At.length {ls : List Lexeme} {n : Nat} {s : ParserState} (h : At ls n s) :
    s.tokens.length = ls.length + 1 := by
  have := congrArg List.length h.kinds
  simpa using this

theorem parseReference_complete : Complete 1 IsReference (Written.Reference.read indexOf)
    (fun _ => 0) parseReference := by
  intro used w r rest n s hphrase hread hstops h _
  obtain ⟨path, hpath', rfl⟩ := Option.map_eq_some_iff.mp hread
  cases hphrase with
  | implicit hpath =>
    rw [List.cons_append] at h
    obtain ⟨_, s₁, hdollar, ha₁⟩ := expect_sym h
    obtain ⟨start, hpeek⟩ := peek_at ha₁
    have hroot : parseRoot s₁ = .ok (.implicit, s₁) := by
      rw [parseRoot, bind_run hpeek]
      simp only [nextKind_path hpath hstops]
      rfl
    obtain ⟨s', hrest, ha'⟩ := parsePathSegments_complete hpath s₁.tokens.length path rest n s₁
      hpath' hstops ha₁ (by
        have := ha₁.length
        simp only [List.length_append] at this
        omega)
    refine ⟨s', ?_, ha'⟩
    rw [parseReference, bind_run hdollar, bind_run hroot]
    have hget : (get : Parser ParserState) s₁ = .ok (s₁, s₁) := rfl
    rw [bind_run hget, bind_run hrest]
    rfl
  | rooted hroot hpath =>
    rw [List.cons_append, List.append_assoc] at h
    obtain ⟨_, s₁, hdollar, ha₁⟩ := expect_sym h
    obtain ⟨s₂, hroot', ha₂⟩ := parseRoot_complete hroot ha₁
    obtain ⟨s', hrest, ha'⟩ := parsePathSegments_complete hpath s₂.tokens.length path rest n s₂
      hpath' hstops ha₂ (by
        have := ha₂.length
        simp only [List.length_append] at this
        omega)
    refine ⟨s', ?_, ha'⟩
    rw [parseReference, bind_run hdollar, bind_run hroot']
    have hget : (get : Parser ParserState) s₂ = .ok (s₂, s₂) := rfl
    rw [bind_run hget, bind_run hrest]
    rfl

/-! ### Expressions -/

abbrev readExpr : Written.Expression → Option Expression := Written.Expression.read indexOf

theorem countOp_at {ls : List Lexeme} {n : Nat} {s : ParserState} (position : Nat)
    (h : At ls n s) (hn : n + 1 ≤ maxExprOps) :
    ∃ s', countOp position s = .ok ((), s') ∧ At ls (n + 1) s' := by
  refine ⟨{ s with ops := s.ops + 1 }, ?_, h.kinds, by rw [← h.counted]⟩
  rw [countOp, if_neg (by rw [h.counted]; omega)]

theorem countOp_inv {ls : List Lexeme} {n : Nat} {s s' : ParserState} {position : Nat} {u : Unit}
    (h : At ls n s) (hok : countOp position s = .ok (u, s')) :
    At ls (n + 1) s' ∧ n + 1 ≤ maxExprOps := by
  unfold countOp at hok
  split at hok
  · cases hok
  · rename_i hle
    cases hok
    rw [h.counted] at hle
    exact ⟨⟨h.kinds, by rw [← h.counted]⟩, by omega⟩

section Levels

/-- The operators of a level are the ones its loop looks for. -/
structure Recognises (operators : Operators) (opOf : TokenKind → Option BinaryOp) : Prop where
  listed : ∀ p ∈ operators, p.1 ∈ symbols
  found : ∀ k op, opOf k = some op ↔ (k, op) ∈ operators

variable {operators : Operators} {opOf : TokenKind → Option BinaryOp}
  {phrase : List Lexeme → Written.Expression → Prop} {operand : Parser Expression}

theorem binaryLoop_sound (hreads : Recognises operators opOf)
    (hoperand : Sound phrase readExpr Written.Expression.ops operand) (budget : Nat) :
    ∀ (left : Expression) (written : Written.Expression) (ls : List Lexeme) (n : Nat)
      (s : ParserState) (e : Expression) (s' : ParserState), readExpr written = some left →
      At ls n s → binaryLoop opOf operand budget left s = .ok (e, s') →
        ∃ used rest w added, ls = used ++ rest ∧ Rounds operators phrase written used w ∧
          readExpr w = some e ∧ w.ops = written.ops + added ∧ At rest (n + added) s' ∧
            (n ≤ maxExprOps → n + added ≤ maxExprOps) := by
  induction budget with
  | zero =>
    intro left written ls n s e s' hleft h hok
    obtain ⟨start, hpeek⟩ := peek_at h
    rw [binaryLoop, bind_run hpeek] at hok
    cases hop : opOf (nextKind ls) with
    | none =>
      simp only [hop] at hok
      cases pure_ok.mp hok
      exact ⟨[], ls, written, 0, rfl, .done, hleft, rfl, h, id⟩
    | some op => simp [hop] at hok
  | succ budget ih =>
    intro left written ls n s e s' hleft h hok
    obtain ⟨start, hpeek⟩ := peek_at h
    rw [binaryLoop, bind_run hpeek] at hok
    cases hop : opOf (nextKind ls) with
    | none =>
      simp only [hop] at hok
      cases pure_ok.mp hok
      exact ⟨[], ls, written, 0, rfl, .done, hleft, rfl, h, id⟩
    | some op =>
      simp only [hop] at hok
      have hmem := (hreads.found _ _).mp hop
      have hlisted := hreads.listed _ hmem
      cases ls with
      | nil => exact absurd hlisted (by simp [nextKind, symbols])
      | cons l ls =>
        obtain ⟨_, s₁, hcount, hok⟩ := bind_ok.mp hok
        obtain ⟨ha₁, hle₁⟩ := countOp_inv h hcount
        obtain ⟨start', s₂, hbump, ha₂⟩ := bump_at ha₁
        rw [bind_run hbump] at hok
        obtain ⟨right, s₃, hright, hok⟩ := bind_ok.mp hok
        obtain ⟨us, rs, wr, rfl, hphrase, hread, ha₃, hle₃⟩ := hoperand _ _ _ _ _ ha₂ hright
        have hboth : readExpr (.binary op written wr) = some (.binary op left right) := by
          simp only [readExpr] at hleft hread
          simp [Written.Expression.read, hleft, hread]
        obtain ⟨us', rest, w, added, rfl, hrounds, hw, hops, ha₄, hle₄⟩ :=
          ih _ _ _ _ _ _ _ hboth ha₃ hok
        have hl : l = sym l.kind hlisted := Lexeme.eq_sym hlisted rfl
        refine ⟨l :: (us ++ us'), rest, w, 1 + wr.ops + added, by simp, ?_, hw, ?_, ?_, ?_⟩
        · rw [hl]
          exact .more hlisted hmem hphrase hrounds
        · rw [hops]
          simp only [Written.Expression.ops]
          omega
        · have hsum : n + (1 + wr.ops + added) = n + 1 + wr.ops + added := by omega
          rw [hsum]
          exact ha₄
        · intro _
          have := hle₄ (hle₃ hle₁)
          omega

theorem binaryLevel_sound (hreads : Recognises operators opOf)
    (hoperand : Sound phrase readExpr Written.Expression.ops operand) :
    Sound (IsLevel operators phrase) readExpr Written.Expression.ops
      (binaryLevel opOf operand) := by
  intro ls n s e s' h hok
  obtain ⟨left, s₁, hleft, hok⟩ := bind_ok.mp hok
  obtain ⟨us, rs, wl, rfl, hphrase, hread, ha₁, hle₁⟩ := hoperand _ _ _ _ _ h hleft
  obtain ⟨us', rest, w, added, rfl, hrounds, hw, hops, ha₂, hle₂⟩ :=
    binaryLoop_sound hreads hoperand _ _ _ _ _ _ _ _ hread ha₁ hok
  refine ⟨us ++ us', rest, w, by simp, .mk hphrase hrounds, hw, ?_, ?_⟩
  · rw [hops, ← Nat.add_assoc]
    exact ha₂
  · intro hn
    have := hle₂ (hle₁ hn)
    omega

/-- What has been read so far has a value and no more operators than the whole. -/
theorem rounds_left {left w : Written.Expression} {used : List Lexeme} {e : Expression}
    (h : Rounds operators phrase left used w) (hread : readExpr w = some e) :
    (∃ l, readExpr left = some l) ∧ left.ops ≤ w.ops := by
  induction h with
  | done => exact ⟨⟨e, hread⟩, Nat.le_refl _⟩
  | more listed hop hright tail ih =>
    obtain ⟨⟨both, hboth⟩, hops⟩ := ih hread
    rw [readExpr, Written.Expression.read, Option.bind_eq_some_iff] at hboth
    obtain ⟨l, hl, -⟩ := hboth
    simp only [Written.Expression.ops] at hops
    exact ⟨⟨l, hl⟩, by omega⟩

/-- The loop reads the rounds of a level, and stops where nothing continues them. -/
theorem binaryLoop_complete {level : Nat} (hreads : Recognises operators opOf)
    (hrank : ∀ p ∈ operators, p.1.rank = level)
    (hoperand : Complete level phrase readExpr Written.Expression.ops operand)
    {written w : Written.Expression} {used : List Lexeme}
    (hrounds : Rounds operators phrase written used w) : ∀ (budget : Nat) (left e : Expression)
      (rest : List Lexeme) (n : Nat) (s : ParserState), readExpr written = some left →
      readExpr w = some e → Stops (level + 1) rest → At (used ++ rest) n s →
      maxExprOps ≤ budget + n → n + (w.ops - written.ops) ≤ maxExprOps →
        ∃ s', binaryLoop opOf operand budget left s = .ok (e, s') ∧
          At rest (n + (w.ops - written.ops)) s' := by
  induction hrounds with
  | @done written =>
    intro budget left e rest n s hleft hread hstops h hbudget hn
    cases hleft.symm.trans hread
    obtain ⟨start, hpeek⟩ := peek_at h
    have hnone : opOf (nextKind rest) = none := by
      cases hop : opOf (nextKind rest) with
      | none => rfl
      | some op =>
        have hmem := (hreads.found _ _).mp hop
        cases rest with
        | nil => exact absurd (hreads.listed _ hmem) (by simp [nextKind, symbols])
        | cons l rest =>
          have hlevel : l.kind.rank = level := hrank _ hmem
          have := stops_cons.mp hstops
          omega
    refine ⟨s, ?_, by rw [Nat.sub_self]; exact h⟩
    cases budget with
    | zero =>
      rw [binaryLoop, bind_run hpeek]
      simp only [List.nil_append, hnone]
      rfl
    | succ budget =>
      rw [binaryLoop, bind_run hpeek]
      simp only [List.nil_append, hnone]
      rfl
  | @more written wr w k op rs ls listed hmem hright tail ih =>
    intro budget left e rest n s hleft hread hstops h hbudget hn
    obtain ⟨⟨both, hboth⟩, hops⟩ := rounds_left tail hread
    simp only [Written.Expression.ops] at hops
    obtain ⟨right, hright', rfl⟩ : ∃ right, readExpr wr = some right ∧
        both = .binary op left right := by
      rw [readExpr, Written.Expression.read, Option.bind_eq_some_iff] at hboth
      obtain ⟨l, hl, hmap⟩ := hboth
      obtain ⟨r, hr, rfl⟩ := Option.map_eq_some_iff.mp hmap
      cases hl.symm.trans hleft
      exact ⟨r, hr, rfl⟩
    rw [List.cons_append, List.append_assoc] at h
    obtain ⟨start, hpeek⟩ := peek_at h
    have hop : opOf (nextKind (sym k listed :: (rs ++ (ls ++ rest)))) = some op :=
      (hreads.found _ _).mpr hmem
    obtain ⟨s₁, hcount, ha₁⟩ := countOp_at start h (by omega)
    obtain ⟨start', s₂, hbump, ha₂⟩ := bump_at ha₁
    obtain ⟨s₃, hoperand', ha₃⟩ := hoperand _ _ _ _ _ _ hright hright' (tail.stops hrank hstops) ha₂
      (by omega)
    cases budget with
    | zero => omega
    | succ budget =>
      obtain ⟨s', hloop, ha'⟩ := ih budget _ e rest _ s₃ hboth hread hstops ha₃ (by omega) (by
        simp only [Written.Expression.ops]
        omega)
      refine ⟨s', ?_, ?_⟩
      · rw [binaryLoop, bind_run hpeek]
        simp only [hop]
        rw [bind_run hcount, bind_run hbump, bind_run hoperand']
        exact hloop
      · have hsum : n + 1 + wr.ops + (w.ops - (Written.Expression.binary op written wr).ops) =
            n + (w.ops - written.ops) := by
          simp only [Written.Expression.ops]
          omega
        rw [← hsum]
        exact ha'

theorem binaryLevel_complete {level : Nat} (hreads : Recognises operators opOf)
    (hrank : ∀ p ∈ operators, p.1.rank = level)
    (hoperand : Complete level phrase readExpr Written.Expression.ops operand) :
    Complete (level + 1) (IsLevel operators phrase) readExpr Written.Expression.ops
      (binaryLevel opOf operand) := by
  intro used w e rest n s hphrase hread hstops h hn
  cases hphrase with
  | mk hfirst tail =>
    obtain ⟨⟨left, hleft⟩, hops⟩ := rounds_left tail hread
    rw [List.append_assoc] at h
    obtain ⟨s₁, hoperand', ha₁⟩ := hoperand _ _ _ _ _ _ hfirst hleft (tail.stops hrank hstops) h
      (by omega)
    obtain ⟨s', hloop, ha'⟩ := binaryLoop_complete hreads hrank hoperand tail maxExprOps left e rest
      _ s₁ hleft hread hstops ha₁ (by omega) (by omega)
    refine ⟨s', ?_, ?_⟩
    · rw [binaryLevel, bind_run hoperand']
      exact hloop
    · rw [Nat.add_assoc, Nat.add_sub_cancel' hops] at ha'
      exact ha'

end Levels

/-- The words that are literals. -/
theorem quoted_of_keyword {l : Lexeme} {text : String} (shape : IsWord text.toList)
    (h : l.kind = keyword text) (hreserved : text ∈ reservedWords) : l = quoted text shape := by
  cases l with
  | symbol k listed =>
    have hk : k = keyword text := h
    exact absurd (hk ▸ listed) (keyword_not_symbol text)
  | word cs hshape =>
    have htext : String.ofList cs = text := by
      simp only [reservedWords, List.mem_cons, List.not_mem_nil, or_false] at hreserved
      simp only [Lexeme.kind, keyword] at h
      obtain rfl | rfl | rfl := hreserved <;> split_ifs at h <;> simp_all
    have hcs : cs = text.toList := by rw [← htext, String.toList_ofList]
    subst hcs
    rfl
  | numeral m =>
    unfold Lexeme.kind keyword at h
    split_ifs at h
  | text cs unquoted =>
    unfold Lexeme.kind keyword at h
    split_ifs at h

theorem parseLeaf_sound : Sound IsLeaf readExpr Written.Expression.ops parseLeaf := by
  intro ls n s e s' h hok
  obtain ⟨start, hpeek⟩ := peek_at h
  rw [parseLeaf, bind_run hpeek] at hok
  cases ls with
  | nil => simp [nextKind] at hok
  | cons l ls =>
    obtain ⟨start', s₁, hbump, ha₁⟩ := bump_at h
    simp only [nextKind] at hok
    -- a leaf of one terminal
    have hone : ∀ (e' : Expression) (w : Written.Expression), IsLeaf [l] w →
        readExpr w = some e' → w.ops = 0 →
        (do let _ ← bump; pure e' : Parser Expression) s = .ok (e, s') →
          ∃ used rest b, l :: ls = used ++ rest ∧ IsLeaf used b ∧ readExpr b = some e ∧
            At rest (n + b.ops) s' ∧ (n ≤ maxExprOps → n + b.ops ≤ maxExprOps) := by
      intro e' w hleaf hread hops hrun
      rw [bind_run hbump] at hrun
      cases pure_ok.mp hrun
      refine ⟨[l], ls, w, rfl, hleaf, hread, ?_, ?_⟩ <;> rw [hops]
      · exact ha₁
      · exact id
    cases hk : l.kind with
    | dollar =>
      simp only [hk] at hok
      obtain ⟨r, s₂, hr, hok⟩ := bind_ok.mp hok
      cases pure_ok.mp hok
      obtain ⟨used, rest, w, hls, hphrase, hread, ha₂, hle⟩ := parseReference_sound _ _ _ _ _ h hr
      refine ⟨used, rest, .ref w, hls, .reference hphrase, ?_, ha₂, hle⟩
      simp [readExpr, Written.Expression.read, hread]
    | string text =>
      obtain ⟨cs, unquoted, rfl, rfl⟩ := text_of_kind hk
      simp only [Lexeme.kind] at hok
      exact hone _ _ (.string cs unquoted) rfl rfl hok
    | number v =>
      obtain ⟨m, rfl, rfl⟩ := numeral_of_kind hk
      simp only [Lexeme.kind] at hok
      exact hone _ _ (.number m) rfl rfl hok
    | trueLit =>
      have hl := quoted_of_keyword (by decide) (hk.trans rfl : l.kind = keyword "true") (by decide)
      simp only [hk] at hok
      exact hone _ _ (by rw [hl]; exact .trueLit) rfl rfl hok
    | falseLit =>
      have hl := quoted_of_keyword (by decide) (hk.trans rfl : l.kind = keyword "false") (by decide)
      simp only [hk] at hok
      exact hone _ _ (by rw [hl]; exact .falseLit) rfl rfl hok
    | nullLit =>
      have hl := quoted_of_keyword (by decide) (hk.trans rfl : l.kind = keyword "null") (by decide)
      simp only [hk] at hok
      exact hone _ _ (by rw [hl]; exact .nullLit) rfl rfl hok
    | _ => simp [hk] at hok

theorem parseLeaf_complete : Complete 1 IsLeaf readExpr Written.Expression.ops parseLeaf := by
  intro used w e rest n s hphrase hread hstops h hn
  obtain ⟨start, hpeek⟩ := peek_at h
  rw [parseLeaf, bind_run hpeek]
  cases hphrase with
  | reference href =>
    obtain ⟨r, hr, rfl⟩ := Option.map_eq_some_iff.mp hread
    obtain ⟨tail, rfl⟩ := href.head
    obtain ⟨s', hparse, ha'⟩ := parseReference_complete _ _ _ _ _ _ href hr hstops h hn
    refine ⟨s', ?_, ha'⟩
    simp only [List.cons_append, nextKind, sym, Lexeme.kind]
    rw [bind_run hparse]
    rfl
  | trueLit =>
    cases hread
    obtain ⟨start', s', hbump, ha'⟩ := bump_at h
    refine ⟨s', ?_, ha'⟩
    have hk : nextKind ([quoted "true"] ++ rest) = .trueLit := rfl
    simp only [hk]
    rw [bind_run hbump]
    rfl
  | falseLit =>
    cases hread
    obtain ⟨start', s', hbump, ha'⟩ := bump_at h
    refine ⟨s', ?_, ha'⟩
    have hk : nextKind ([quoted "false"] ++ rest) = .falseLit := rfl
    simp only [hk]
    rw [bind_run hbump]
    rfl
  | nullLit =>
    cases hread
    obtain ⟨start', s', hbump, ha'⟩ := bump_at h
    refine ⟨s', ?_, ha'⟩
    have hk : nextKind ([quoted "null"] ++ rest) = .nullLit := rfl
    simp only [hk]
    rw [bind_run hbump]
    rfl
  | number m =>
    cases hread
    obtain ⟨start', s', hbump, ha'⟩ := bump_at h
    refine ⟨s', ?_, ha'⟩
    simp only [List.cons_append, nextKind, Lexeme.kind]
    rw [bind_run hbump]
    rfl
  | string cs unquoted =>
    cases hread
    obtain ⟨start', s', hbump, ha'⟩ := bump_at h
    refine ⟨s', ?_, ha'⟩
    simp only [List.cons_append, nextKind, Lexeme.kind]
    rw [bind_run hbump]
    rfl

theorem recognises_precedence :
    Recognises [(.lt, .lt), (.le, .le), (.gt, .gt), (.ge, .ge)] comparisonOp ∧
      Recognises [(.eq, .eq), (.notEq, .notEq)] equalityOp ∧ Recognises [(.and, .and)] andOp ∧
        Recognises [(.or, .or)] orOp ∧ Recognises [(.coalesce, .coalesce)] coalesceOp := by
  refine ⟨⟨by decide, ?_⟩, ⟨by decide, ?_⟩, ⟨by decide, ?_⟩, ⟨by decide, ?_⟩, ⟨by decide, ?_⟩⟩ <;>
    intro k op <;> cases k <;>
      simp [comparisonOp, equalityOp, andOp, orOp, coalesceOp, eq_comm]

theorem parseCoalesce_sound {unary : List Lexeme → Written.Expression → Prop}
    {operand : Parser Expression}
    (h : Sound unary readExpr Written.Expression.ops operand) :
    Sound (IsBinary unary) readExpr Written.Expression.ops (parseCoalesce operand) := by
  obtain ⟨hcomparison, hequality, hand, hor, hcoalesce⟩ := recognises_precedence
  exact binaryLevel_sound hcoalesce <| binaryLevel_sound hor <| binaryLevel_sound hand <|
    binaryLevel_sound hequality <| binaryLevel_sound hcomparison h

theorem parseCoalesce_complete {unary : List Lexeme → Written.Expression → Prop}
    {operand : Parser Expression}
    (h : Complete 1 unary readExpr Written.Expression.ops operand) :
    Complete 6 (IsBinary unary) readExpr Written.Expression.ops (parseCoalesce operand) := by
  obtain ⟨hcomparison, hequality, hand, hor, hcoalesce⟩ := recognises_precedence
  exact binaryLevel_complete hcoalesce (by decide) <| binaryLevel_complete hor (by decide) <|
    binaryLevel_complete hand (by decide) <| binaryLevel_complete hequality (by decide) <|
      binaryLevel_complete hcomparison (by decide) h

theorem parseUnary_sound (room : Nat) :
    Sound (IsUnary room) readExpr Written.Expression.ops (parseUnary room) := by
  induction room with
  | zero =>
    intro ls n s e s' h hok
    obtain ⟨start, hpeek⟩ := peek_at h
    rw [parseUnary, bind_run hpeek] at hok
    cases hk : nextKind ls <;> simp only [hk] at hok <;>
      first | exact absurd hok (by simp) | exact parseLeaf_sound _ _ _ _ _ h hok
  | succ room ih =>
    intro ls n s e s' h hok
    obtain ⟨start, hpeek⟩ := peek_at h
    rw [parseUnary, bind_run hpeek] at hok
    -- a leaf, whatever its first terminal
    have hleaf : parseLeaf s = .ok (e, s') → ∃ used rest b, ls = used ++ rest ∧
        IsUnary (room + 1) used b ∧ readExpr b = some e ∧ At rest (n + b.ops) s' ∧
          (n ≤ maxExprOps → n + b.ops ≤ maxExprOps) := by
      intro hrun
      obtain ⟨used, rest, b, hls, hphrase, hrest⟩ := parseLeaf_sound _ _ _ _ _ h hrun
      exact ⟨used, rest, b, hls, Or.inl hphrase, hrest⟩
    cases ls with
    | nil => exact hleaf hok
    | cons l ls =>
      obtain ⟨start', s₁, hbump, ha₁⟩ := bump_at h
      simp only [nextKind] at hok
      by_cases hnot : l.kind = .not
      · simp only [hnot] at hok hbump
        rw [bind_run hbump] at hok
        obtain ⟨inner, s₂, hinner, hok⟩ := bind_ok.mp hok
        cases pure_ok.mp hok
        obtain ⟨used, rest, w, rfl, hphrase, hread, ha₂, hle⟩ := ih _ _ _ _ _ ha₁ hinner
        rw [Lexeme.eq_sym (by decide) hnot]
        refine ⟨sym .not :: used, rest, .not w, rfl, Or.inr (Or.inl ⟨used, w, hphrase, rfl, rfl⟩),
          ?_, ha₂, hle⟩
        simp [Written.Expression.read, hread]
      · by_cases hparen : l.kind = .lParen
        · simp only [hparen] at hok hbump
          rw [bind_run hbump] at hok
          obtain ⟨inner, s₂, hinner, hok⟩ := bind_ok.mp hok
          obtain ⟨_, s₃, hclose, hok⟩ := bind_ok.mp hok
          cases pure_ok.mp hok
          obtain ⟨used, rest, w, rfl, hphrase, hread, ha₂, hle⟩ :=
            parseCoalesce_sound ih _ _ _ _ _ ha₁ hinner
          obtain ⟨l', rest', rfl, hk', ha₃⟩ := expect_inv ha₂ (by decide) hclose
          rw [Lexeme.eq_sym (by decide) hparen, Lexeme.eq_sym (by decide) hk']
          exact ⟨sym .lParen :: (used ++ [sym .rParen]), rest', w, by simp,
            Or.inr (Or.inr ⟨used, hphrase, rfl⟩), hread, ha₃, hle⟩
        · exact hleaf (by cases hk : l.kind <;> simp_all)

theorem IsLeaf.nextKind_plain {ls : List Lexeme} {w : Written.Expression} (h : IsLeaf ls w)
    (rest : List Lexeme) :
    nextKind (ls ++ rest) ≠ .not ∧ nextKind (ls ++ rest) ≠ .lParen := by
  cases h with
  | reference href =>
    obtain ⟨tail, rfl⟩ := href.head
    exact ⟨by simp [nextKind, sym, Lexeme.kind], by simp [nextKind, sym, Lexeme.kind]⟩
  | trueLit =>
    have hk : nextKind ([quoted "true"] ++ rest) = .trueLit := rfl
    rw [hk]
    exact ⟨by decide, by decide⟩
  | falseLit =>
    have hk : nextKind ([quoted "false"] ++ rest) = .falseLit := rfl
    rw [hk]
    exact ⟨by decide, by decide⟩
  | nullLit =>
    have hk : nextKind ([quoted "null"] ++ rest) = .nullLit := rfl
    rw [hk]
    exact ⟨by decide, by decide⟩
  | number m => exact ⟨by simp [nextKind, Lexeme.kind], by simp [nextKind, Lexeme.kind]⟩
  | string cs unquoted => exact ⟨by simp [nextKind, Lexeme.kind], by simp [nextKind, Lexeme.kind]⟩

/-- Where a leaf stands, the parser of unary expressions reads the leaf. -/
theorem parseUnary_leaf {ls rest : List Lexeme} {w : Written.Expression} {n room : Nat}
    {s : ParserState} (hleaf : IsLeaf ls w) (h : At (ls ++ rest) n s) :
    parseUnary room s = parseLeaf s := by
  obtain ⟨start, hpeek⟩ := peek_at h
  obtain ⟨hnot, hparen⟩ := IsLeaf.nextKind_plain hleaf rest
  cases room with
  | zero =>
    rw [parseUnary, bind_run hpeek]
    cases hk : nextKind (ls ++ rest) <;> simp_all
  | succ room =>
    rw [parseUnary, bind_run hpeek]
    cases hk : nextKind (ls ++ rest) <;> simp_all

theorem parseUnary_complete (room : Nat) :
    Complete 1 (IsUnary room) readExpr Written.Expression.ops (parseUnary room) := by
  induction room with
  | zero =>
    intro used w e rest n s hphrase hread hstops h hn
    obtain ⟨s', hrun, ha'⟩ := parseLeaf_complete _ _ _ _ _ _ hphrase hread hstops h hn
    exact ⟨s', (parseUnary_leaf hphrase h).trans hrun, ha'⟩
  | succ room ih =>
    intro used w e rest n s hphrase hread hstops h hn
    obtain hleaf | ⟨inner, w, hinner, rfl, rfl⟩ | ⟨inner, hinner, rfl⟩ := hphrase
    · obtain ⟨s', hrun, ha'⟩ := parseLeaf_complete _ _ _ _ _ _ hleaf hread hstops h hn
      exact ⟨s', (parseUnary_leaf hleaf h).trans hrun, ha'⟩
    · obtain ⟨e, hread', rfl⟩ := Option.map_eq_some_iff.mp hread
      rw [List.cons_append] at h
      obtain ⟨start, hpeek⟩ := peek_at h
      obtain ⟨start', s₁, hbump, ha₁⟩ := bump_at h
      obtain ⟨s', hrun, ha'⟩ := ih _ _ _ _ _ _ hinner hread' hstops ha₁ hn
      refine ⟨s', ?_, ha'⟩
      rw [parseUnary, bind_run hpeek]
      simp only [nextKind, sym, Lexeme.kind]
      rw [bind_run hbump, bind_run hrun]
      rfl
    · have hcons : sym .lParen :: (inner ++ [sym .rParen]) ++ rest =
          sym .lParen :: (inner ++ (sym .rParen :: rest)) := by simp
      rw [hcons] at h
      obtain ⟨start, hpeek⟩ := peek_at h
      obtain ⟨start', s₁, hbump, ha₁⟩ := bump_at h
      have hclosed : Stops 6 (sym .rParen :: rest) := stops_cons.mpr (by decide)
      obtain ⟨s₂, hrun, ha₂⟩ :=
        parseCoalesce_complete ih _ _ _ _ _ _ hinner hread hclosed ha₁ hn
      obtain ⟨_, s', hclose, ha'⟩ := expect_sym ha₂
      refine ⟨s', ?_, ha'⟩
      rw [parseUnary, bind_run hpeek]
      simp only [nextKind, sym, Lexeme.kind]
      rw [bind_run hbump, bind_run hrun, bind_run hclose]
      rfl

theorem parseExpression_sound :
    Sound (IsExpression maxExprDepth) readExpr Written.Expression.ops parseExpression :=
  parseCoalesce_sound (parseUnary_sound maxExprDepth)

theorem parseExpression_complete :
    Complete 6 (IsExpression maxExprDepth) readExpr Written.Expression.ops parseExpression :=
  parseCoalesce_complete (parseUnary_complete maxExprDepth)

end Parser

end Gwead.Dsl
