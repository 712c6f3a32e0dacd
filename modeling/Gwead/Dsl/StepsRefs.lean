import Gwead.Dsl.Parser
import Mathlib.Data.List.TakeWhile

/-!
# Where a step reference comes from

A parsed expression refers to a step only through four consecutive tokens `$` `steps` `.` `id`.
When nothing separates those tokens, the source contains the text `$steps.id` as it stands, and
the identifier ends there.
-/

namespace Gwead.Dsl

/-- The tokens of a reference to the step `id`, with their positions. -/
def stepsWindow (p₀ p₁ p₂ p₃ : Nat) (id : String) : List Token :=
  [⟨.dollar, p₀⟩, ⟨.ident "steps", p₁⟩, ⟨.dot, p₂⟩, ⟨.ident id, p₃⟩]

def HasWindow (toks : List Token) (id : String) : Prop :=
  ∃ p₀ p₁ p₂ p₃, stepsWindow p₀ p₁ p₂ p₃ id <:+: toks

theorem HasWindow.mono {toks toks' : List Token} {id : String} (h : HasWindow toks' id)
    (hs : toks' <:+ toks) : HasWindow toks id := by
  obtain ⟨p₀, p₁, p₂, p₃, hw⟩ := h
  exact ⟨p₀, p₁, p₂, p₃, hw.trans hs.isInfix⟩

namespace Parser

/-- A parser leaves a suffix of its tokens, and every step reference of its result was read from
them. -/
def Reads {α : Type} (refsOf : α → List Reference) (p : Parser α) : Prop :=
  ∀ s a s', p s = .ok (a, s') → s'.tokens <:+ s.tokens ∧
    ∀ r ∈ refsOf a, ∀ id, r.root = .steps id → HasWindow s.tokens id

/-- A parser whose result has no references. -/
abbrev Skips {α : Type} (p : Parser α) : Prop := Reads (fun _ => []) p

theorem skips_pure {α : Type} (a : α) : Skips (pure a : Parser α) := by
  intro s b s' h
  cases pure_ok.mp h
  exact ⟨List.suffix_rfl, by simp⟩

theorem skips_fail {α : Type} (m : String) (p : Nat) : Skips (fail m p : Parser α) := by
  intro s a s' h
  simp at h

theorem skips_peek : Skips peek := by
  intro s a s' h
  cases peek_ok.mp h
  exact ⟨List.suffix_rfl, by simp⟩

theorem skips_bump : Skips bump := fun _ _ _ h => ⟨bump_suffix h, by simp⟩

/-- Sequencing after a parser with no references. -/
theorem reads_seq {α β : Type} {refsOf : β → List Reference} {p : Parser α} {f : α → Parser β}
    (hp : Skips p) (hf : ∀ a, Reads refsOf (f a)) : Reads refsOf (p >>= f) := by
  intro s b s' h
  obtain ⟨a, s₁, h₁, h₂⟩ := bind_ok.mp h
  obtain ⟨hs₁, -⟩ := hp s a s₁ h₁
  obtain ⟨hs₂, hr₂⟩ := hf a s₁ b s' h₂
  exact ⟨hs₂.trans hs₁, fun r hr id hid => (hr₂ r hr id hid).mono hs₁⟩

/-- A result whose references were all accounted for before. -/
theorem reads_pure {α : Type} {refsOf : α → List Reference} {a : α} (h : refsOf a = []) :
    Reads refsOf (pure a) := by
  intro s b s' hb
  cases pure_ok.mp hb
  exact ⟨List.suffix_rfl, by simp [h]⟩

theorem reads_fail {α : Type} {refsOf : α → List Reference} (m : String) (p : Nat) :
    Reads refsOf (fail m p : Parser α) := by
  intro s a s' h
  simp at h

theorem skips_expect (want : TokenKind) : Skips (expect want) := by
  refine reads_seq skips_peek fun tok => ?_
  split
  · exact skips_bump
  · exact skips_fail _ _

theorem skips_identOr (m : String) : Skips (identOr m) := by
  refine reads_seq skips_bump fun tok => ?_
  split
  · exact skips_pure _
  · exact skips_fail _ _

theorem skips_parseFilter : Skips parseFilter := by
  refine reads_seq (skips_expect _) fun _ => ?_
  refine reads_seq (skips_expect _) fun _ => ?_
  refine reads_seq (skips_expect _) fun _ => ?_
  refine reads_seq (skips_identOr _) fun _ => ?_
  refine reads_seq (skips_expect _) fun _ => ?_
  refine reads_seq skips_bump fun tok => ?_
  split
  · exact reads_seq (skips_expect _) fun _ => skips_pure _
  · exact skips_fail _ _

theorem skips_bracketSegment (tok : Token) : Skips (bracketSegment tok) := by
  unfold bracketSegment
  split
  · exact skips_pure _
  · split
    · exact skips_fail _ _
    · exact skips_pure _
  · exact skips_parseFilter
  · exact skips_fail _ _

theorem skips_parseBracketSegment : Skips parseBracketSegment := by
  refine reads_seq skips_bump fun tok => ?_
  exact reads_seq (skips_bracketSegment tok) fun _ => reads_seq (skips_expect _) fun _ => skips_pure _

theorem skips_parsePathSegments (budget : Nat) : Skips (parsePathSegments budget) := by
  induction budget with
  | zero => exact skips_pure _
  | succ budget ih =>
    refine reads_seq skips_peek fun tok => ?_
    split
    · refine reads_seq skips_bump fun _ => ?_
      refine reads_seq (skips_identOr _) fun _ => ?_
      exact reads_seq ih fun _ => skips_pure _
    · refine reads_seq skips_bump fun _ => ?_
      refine reads_seq skips_parseBracketSegment fun _ => ?_
      exact reads_seq ih fun _ => skips_pure _
    · exact skips_pure _

theorem skips_countOp (p : Nat) : Skips (countOp p) := by
  intro s a s' h
  unfold countOp at h
  split at h
  · cases h
  · cases h
    exact ⟨List.suffix_rfl, by simp⟩

theorem expect_ok {want : TokenKind} {s s' : ParserState} {t : Token} (hw : want ≠ .eof)
    (h : expect want s = .ok (t, s')) : t.kind = want ∧ s.tokens = t :: s'.tokens := by
  obtain ⟨tok, s₁, hpeek, h⟩ := bind_ok.mp h
  cases peek_ok.mp hpeek
  split at h
  · rename_i hk
    cases hts : s.tokens with
    | nil =>
      rw [hts] at hk
      exact absurd hk.symm hw
    | cons hd tl =>
      rw [hts] at hk
      have hk' : hd.kind = want := hk
      have hne : hd.kind ≠ .eof := by rwa [hk']
      simp only [bump, hts, if_neg hne] at h
      cases h
      exact ⟨hk', rfl⟩
  · simp at h

theorem ident?_eq_some {k : TokenKind} {name : String} (h : k.ident? = some name) :
    k = .ident name := by
  cases k <;> simp_all [TokenKind.ident?]

theorem identOr_ok {m name : String} {s s' : ParserState} (h : identOr m s = .ok (name, s')) :
    ∃ p, s.tokens = ⟨.ident name, p⟩ :: s'.tokens := by
  obtain ⟨⟨kind, start⟩, s₁, hbump, h⟩ := bind_ok.mp h
  cases hk : kind.ident? with
  | none => simp [hk] at h
  | some name' =>
    simp only [hk] at h
    cases pure_ok.mp h
    have hkind := ident?_eq_some hk
    subst hkind
    exact ⟨start, (bump_ok hbump (by simp)).1⟩

/-- Peeking at an identifier and taking it takes that identifier. -/
theorem bump_peeked {s s' : ParserState} {t : Token} {name : String}
    (hp : (s.tokens.headD ⟨.eof, 0⟩).kind.ident? = some name) (hb : bump s = .ok (t, s')) :
    s.tokens = ⟨.ident name, t.start⟩ :: s'.tokens := by
  have hkind := ident?_eq_some hp
  cases hts : s.tokens with
  | nil =>
    rw [hts] at hkind
    cases hkind
  | cons hd tl =>
    rw [hts] at hkind
    have hk : hd.kind = .ident name := hkind
    have hne : hd.kind ≠ .eof := by rw [hk]; simp
    simp only [bump, hts, if_neg hne] at hb
    cases hb
    rw [← hk]

/-- Parsing the root of a step reference reads `steps`, `.` and the id. -/
theorem parseRoot_ok {s s' : ParserState} {root : Root} (h : parseRoot s = .ok (root, s')) :
    s'.tokens <:+ s.tokens ∧ ∀ id, root = .steps id → ∃ p₁ p₂ p₃,
      s.tokens = ⟨.ident "steps", p₁⟩ :: ⟨.dot, p₂⟩ :: ⟨.ident id, p₃⟩ :: s'.tokens := by
  obtain ⟨tok, s₀, hpeek, h⟩ := bind_ok.mp h
  cases peek_ok.mp hpeek
  cases hname : (s.tokens.headD ⟨.eof, 0⟩).kind.ident? with
  | none =>
    simp only [hname] at h
    cases pure_ok.mp h
    exact ⟨List.suffix_rfl, by simp⟩
  | some name =>
    simp only [hname] at h
    cases hplain : plainRoot name with
    | some root' =>
      simp only [hplain] at h
      obtain ⟨_, s₁, hbump, h⟩ := bind_ok.mp h
      cases pure_ok.mp h
      refine ⟨bump_suffix hbump, ?_⟩
      rintro id rfl
      unfold plainRoot at hplain
      split at hplain <;> simp at hplain
    | none =>
      simp only [hplain] at h
      by_cases hsteps : name = "steps"
      · subst hsteps
        rw [if_pos rfl] at h
        obtain ⟨t₁, s₁, hbump, h⟩ := bind_ok.mp h
        obtain ⟨⟨kind₂, start₂⟩, s₂, hdot, h⟩ := bind_ok.mp h
        obtain ⟨id', s₃, hid, h⟩ := bind_ok.mp h
        cases pure_ok.mp h
        obtain ⟨hk₂, hts₂⟩ := expect_ok (by simp) hdot
        obtain ⟨p₃, hts₃⟩ := identOr_ok hid
        have hts₁ := bump_peeked hname hbump
        cases hk₂
        have hall : s.tokens = ⟨.ident "steps", t₁.start⟩ :: ⟨.dot, start₂⟩ ::
            ⟨.ident id', p₃⟩ :: s'.tokens := by
          rw [hts₁, hts₂, hts₃]
        refine ⟨?_, ?_⟩
        · rw [hall]
          exact ⟨[_, _, _], rfl⟩
        · intro id he
          cases he
          exact ⟨t₁.start, start₂, p₃, hall⟩
      · rw [if_neg hsteps] at h
        simp at h

theorem reads_parseReference : Reads (fun r => [r]) parseReference := by
  intro s r s' h
  obtain ⟨⟨kind, start⟩, s₁, hdollar, h⟩ := bind_ok.mp h
  obtain ⟨root, s₂, hroot, h⟩ := bind_ok.mp h
  obtain ⟨sg, s₃, hget, h⟩ := bind_ok.mp h
  obtain ⟨path, s₄, hpath, h⟩ := bind_ok.mp h
  cases pure_ok.mp h
  cases hget
  obtain ⟨hk₀, hts₀⟩ := expect_ok (by simp) hdollar
  obtain ⟨hsuf, hwin⟩ := parseRoot_ok hroot
  obtain ⟨hsuf', -⟩ := skips_parsePathSegments _ _ _ _ hpath
  have hs₁ : s₁.tokens <:+ s.tokens := by
    rw [hts₀]
    exact List.suffix_cons _ _
  refine ⟨hsuf'.trans (hsuf.trans hs₁), ?_⟩
  intro r hr id hid
  rw [List.mem_singleton] at hr
  subst hr
  cases hk₀
  obtain ⟨p₁, p₂, p₃, hts₁⟩ := hwin id hid
  refine ⟨start, p₁, p₂, p₃, ⟨[], s₂.tokens, ?_⟩⟩
  rw [hts₀, hts₁]
  rfl

theorem reads_parseLeaf : Reads Expression.refs parseLeaf := by
  refine reads_seq skips_peek fun tok => ?_
  split
  · intro s e s' h
    obtain ⟨r, s₁, h₁, h⟩ := bind_ok.mp h
    cases pure_ok.mp h
    have hread := reads_parseReference _ _ _ h₁
    exact hread
  all_goals first
    | exact reads_seq skips_bump fun _ => reads_pure rfl
    | exact reads_fail _ _

/-- A loop adds the references of its operands to those of the expression built so far. -/
theorem binaryLoop_ok {opOf : TokenKind → Option BinaryOp} {operand : Parser Expression}
    (ho : Reads Expression.refs operand) (budget : Nat) :
    ∀ (left : Expression) (s : ParserState) (e : Expression) (s' : ParserState),
      binaryLoop opOf operand budget left s = .ok (e, s') → s'.tokens <:+ s.tokens ∧
        ∀ r ∈ e.refs, r ∈ left.refs ∨ ∀ id, r.root = .steps id → HasWindow s.tokens id := by
  induction budget with
  | zero =>
    intro left s e s' h
    obtain ⟨tok, s₀, hpeek, h⟩ := bind_ok.mp h
    cases peek_ok.mp hpeek
    cases hop : opOf (s.tokens.headD ⟨.eof, 0⟩).kind with
    | none =>
      simp only [hop] at h
      cases pure_ok.mp h
      exact ⟨List.suffix_rfl, fun r hr => Or.inl hr⟩
    | some op =>
      simp only [hop] at h
      simp at h
  | succ budget ih =>
    intro left s e s' h
    obtain ⟨tok, s₀, hpeek, h⟩ := bind_ok.mp h
    cases peek_ok.mp hpeek
    cases hop : opOf (s.tokens.headD ⟨.eof, 0⟩).kind with
    | none =>
      simp only [hop] at h
      cases pure_ok.mp h
      exact ⟨List.suffix_rfl, fun r hr => Or.inl hr⟩
    | some op =>
      simp only [hop] at h
      obtain ⟨_, s₁, hcount, h⟩ := bind_ok.mp h
      obtain ⟨_, s₂, hbump, h⟩ := bind_ok.mp h
      obtain ⟨right, s₃, hright, h⟩ := bind_ok.mp h
      obtain ⟨hs₁, -⟩ := skips_countOp _ _ _ _ hcount
      have hs₂ := (bump_suffix hbump).trans hs₁
      obtain ⟨hs₃, hr₃⟩ := ho _ _ _ hright
      obtain ⟨hs', hr'⟩ := ih _ _ _ _ h
      refine ⟨hs'.trans (hs₃.trans hs₂), ?_⟩
      intro r hr
      rcases hr' r hr with hmem | hwin
      · rcases List.mem_append.mp hmem with hl | hr
        · exact Or.inl hl
        · exact Or.inr fun id hid => (hr₃ r hr id hid).mono hs₂
      · exact Or.inr fun id hid => (hwin id hid).mono (hs₃.trans hs₂)

theorem reads_binaryLevel {opOf : TokenKind → Option BinaryOp} {operand : Parser Expression}
    (ho : Reads Expression.refs operand) : Reads Expression.refs (binaryLevel opOf operand) := by
  intro s e s' h
  obtain ⟨left, s₁, hleft, h⟩ := bind_ok.mp h
  obtain ⟨hs₁, hr₁⟩ := ho _ _ _ hleft
  obtain ⟨hs', hr'⟩ := binaryLoop_ok ho _ _ _ _ _ h
  refine ⟨hs'.trans hs₁, ?_⟩
  intro r hr id hid
  rcases hr' r hr with hl | hwin
  · exact hr₁ r hl id hid
  · exact (hwin id hid).mono hs₁

theorem reads_parseCoalesce {unary : Parser Expression} (hu : Reads Expression.refs unary) :
    Reads Expression.refs (parseCoalesce unary) :=
  reads_binaryLevel (reads_binaryLevel (reads_binaryLevel (reads_binaryLevel (reads_binaryLevel hu))))

theorem reads_parseUnary (room : Nat) : Reads Expression.refs (parseUnary room) := by
  induction room with
  | zero =>
    refine reads_seq skips_peek fun tok => ?_
    split
    · exact reads_fail _ _
    · exact reads_fail _ _
    · exact reads_parseLeaf
  | succ room ih =>
    refine reads_seq skips_peek fun tok => ?_
    split
    · refine reads_seq skips_bump fun _ => ?_
      intro s e s' h
      obtain ⟨inner, s₁, hinner, h⟩ := bind_ok.mp h
      cases pure_ok.mp h
      have hread := ih _ _ _ hinner
      exact hread
    · refine reads_seq skips_bump fun _ => ?_
      intro s e s' h
      obtain ⟨inner, s₁, hinner, h⟩ := bind_ok.mp h
      obtain ⟨_, s₂, hparen, h⟩ := bind_ok.mp h
      cases pure_ok.mp h
      obtain ⟨hs₁, hr₁⟩ := reads_parseCoalesce ih _ _ _ hinner
      exact ⟨(skips_expect _ _ _ _ hparen).1.trans hs₁, hr₁⟩
    · exact reads_parseLeaf

/-- Every step reference of a parsed source is a window of its tokens. -/
theorem runAll_window {src : List Char} {toks : List Token} {e : Expression}
    (ht : tokenize src = .ok toks) (h : runAll parseExpression src = .ok e) {r : Reference}
    (hr : r ∈ e.refs) {id : String} (hid : r.root = .steps id) : HasWindow toks id := by
  simp only [runAll, ht] at h
  split at h
  · cases h
  · rename_i a s' hrun
    cases h
    obtain ⟨e', s₁, he, hrest⟩ := bind_ok.mp hrun
    obtain ⟨_, s₂, heof, hpure⟩ := bind_ok.mp hrest
    cases pure_ok.mp hpure
    exact (reads_parseCoalesce (reads_parseUnary _) _ _ _ he).2 r hr id hid

end Parser

/-- The text of a source from the first character of a token on, and where it goes on. -/
theorem nextToken_ok {cs rest : List Char} {pos pos' : Nat} {t : Token}
    (h : nextToken cs pos = .ok (t, rest, pos')) :
    ∃ ws body, cs = ws ++ body ∧ lexToken body (pos + ws.length) = .ok (t, rest, pos') :=
  ⟨cs.takeWhile isSpace, cs.dropWhile isSpace, List.takeWhile_append_dropWhile.symm, h⟩

theorem punctuation_sign {cs : List Char} {n : Nat} {k : TokenKind}
    (h : punctuation cs = some (k, n)) :
    (k = .dollar → ∃ rest, cs = '$' :: rest ∧ n = 1) ∧
      (k = .dot → ∃ rest, cs = '.' :: rest ∧ n = 1) ∧ ∀ name, k ≠ .ident name := by
  unfold punctuation at h
  split at h <;> simp at h <;> obtain ⟨rfl, rfl⟩ := h <;> simp

theorem keyword_eq_ident {raw name : String} (h : keyword raw = .ident name) : raw = name := by
  unfold keyword at h
  split at h
  · cases h
  · split at h
    · cases h
    · split at h
      · cases h
      · cases h
        rfl

theorem keyword_ne_sign (raw : String) : keyword raw ≠ .dollar ∧ keyword raw ≠ .dot := by
  unfold keyword
  split
  · simp
  · split
    · simp
    · split <;> simp

/-- The three token shapes a step reference is made of, read off the text. -/
theorem lexToken_ok {body rest : List Char} {start pos' : Nat} {t : Token}
    (h : lexToken body start = .ok (t, rest, pos')) :
    (t.kind = .dollar → t.start = start ∧ body = '$' :: rest ∧ pos' = start + 1) ∧
      (t.kind = .dot → t.start = start ∧ body = '.' :: rest ∧ pos' = start + 1) ∧
        ∀ name, t.kind = .ident name → t.start = start ∧ body = name.toList ++ rest ∧
          pos' = start + name.toList.length ∧ (∀ c ∈ rest.head?, isIdentChar c = false) ∧
            (∃ c cs, name.toList = c :: cs ∧ isIdentStart c = true) ∧
              ∀ c ∈ name.toList, isIdentChar c = true := by
  unfold lexToken at h
  split at h
  · cases h
    simp
  · rename_i c tail
    split at h
    · rename_i kind n hp
      cases h
      obtain ⟨hdollar, hdot, hident⟩ := punctuation_sign hp
      refine ⟨fun hk => ?_, fun hk => ?_, fun name hk => absurd hk (hident name)⟩
      · obtain ⟨r, hr, rfl⟩ := hdollar hk
        exact ⟨rfl, by rw [hr]; rfl, rfl⟩
      · obtain ⟨r, hr, rfl⟩ := hdot hk
        exact ⟨rfl, by rw [hr]; rfl, rfl⟩
    · split at h
      · unfold lexString at h
        dsimp only at h
        split at h
        · cases h
        · cases h
          simp
      · split at h
        · cases h
          simp
        · split at h
          · rename_i hstart
            cases h
            obtain ⟨hd, hdot⟩ := keyword_ne_sign (String.ofList ((c :: tail).takeWhile isIdentChar))
            refine ⟨fun hk => absurd hk hd, fun hk => absurd hk hdot, fun name hk => ?_⟩
            have hname := keyword_eq_ident hk
            subst hname
            have hsplit : c :: tail = (c :: tail).takeWhile isIdentChar ++
                (c :: tail).dropWhile isIdentChar := List.takeWhile_append_dropWhile.symm
            have hic : isIdentChar c = true := by
              simp only [isIdentStart, Bool.or_eq_true] at hstart
              simp only [isIdentChar, Char.isAlphanum, Bool.or_eq_true]
              rcases hstart with h | h
              · exact Or.inl (Or.inl (Or.inl h))
              · exact Or.inl (Or.inr h)
            rw [String.toList_ofList]
            refine ⟨rfl, hsplit, rfl, ?_, ⟨c, tail.takeWhile isIdentChar, ?_, hstart⟩, ?_⟩
            · intro d hd
              have := List.head?_dropWhile_not isIdentChar (c :: tail)
              rw [Option.mem_def.mp hd] at this
              simpa using this
            · rw [List.takeWhile_cons_of_pos hic]
            · intro d hd
              exact List.mem_takeWhile_imp hd
          · cases h

/-- One round of the token loop. -/
theorem tokenizeFrom_cons {budget pos : Nat} {cs : List Char} {t : Token} {ts : List Token}
    (h : tokenizeFrom budget cs pos = .ok (t :: ts)) (hne : t.kind ≠ .eof) :
    ∃ budget' rest pos', nextToken cs pos = .ok (t, rest, pos') ∧
      tokenizeFrom budget' rest pos' = .ok ts := by
  cases budget with
  | zero =>
    cases h
    exact absurd rfl hne
  | succ budget =>
    rw [tokenizeFrom] at h
    split at h
    · cases h
    · rename_i tok rest pos' hnext
      split at h
      · rename_i heof
        cases h
        exact absurd heof hne
      · split at h
        · cases h
        · rename_i toks htoks
          cases h
          exact ⟨budget, rest, pos', hnext, htoks⟩

theorem tokenizeFrom_eof {budget pos : Nat} {cs : List Char} {t : Token} {ts : List Token}
    (h : tokenizeFrom budget cs pos = .ok (t :: ts)) (he : t.kind = .eof) : ts = [] := by
  cases budget with
  | zero =>
    cases h
    rfl
  | succ budget =>
    rw [tokenizeFrom] at h
    split at h
    · cases h
    · split at h
      · cases h
        rfl
      · split at h
        · cases h
        · cases h
          contradiction

theorem lexNumber_suffix (start : Nat) (cs : List Char) : (lexNumber start cs).2.1 <:+ cs := by
  have hsign : (if (cs.head? == some '-') = true then cs.drop 1 else cs) <:+ cs := by
    split
    · exact List.drop_suffix _ _
    · exact List.suffix_rfl
  have hwhole := (List.dropWhile_suffix Char.isDigit).trans hsign
  unfold lexNumber
  dsimp only
  split
  · rename_i c tail heq
    split
    · have hdot : c :: tail <:+ '.' :: c :: tail := List.suffix_cons _ _
      exact (List.dropWhile_suffix _).trans (hdot.trans (heq ▸ hwhole))
    · exact hwhole
  · exact hwhole

theorem lexToken_suffix {body rest : List Char} {start pos' : Nat} {t : Token}
    (h : lexToken body start = .ok (t, rest, pos')) : rest <:+ body := by
  unfold lexToken at h
  split at h
  · cases h
    exact List.suffix_rfl
  · rename_i c tail
    split at h
    · cases h
      exact List.drop_suffix _ _
    · split at h
      · unfold lexString at h
        dsimp only at h
        split at h
        · cases h
        · rename_i hd
          cases h
          exact ((hd ▸ List.suffix_cons _ _).trans (List.dropWhile_suffix _)).trans
            (List.suffix_cons _ _)
      · split at h
        · cases h
          exact lexNumber_suffix start _
        · split at h
          · cases h
            exact List.dropWhile_suffix _
          · cases h

/-- The text `$steps.id`, with the identifier ending there. -/
def SpelledIn (cs : List Char) (id : String) : Prop :=
  ∃ pre post, cs = pre ++ ('$' :: 's' :: 't' :: 'e' :: 'p' :: 's' :: '.' :: (id.toList ++ post)) ∧
    (∀ c ∈ post.head?, isIdentChar c = false) ∧
      (∃ c cs, id.toList = c :: cs ∧ isIdentStart c = true) ∧ ∀ c ∈ id.toList, isIdentChar c = true

/-- Tokens with nothing between them are a contiguous text. -/
theorem spelledIn_of_tight {budget pos p : Nat} {cs : List Char} {id : String} {toks : List Token}
    (h : tokenizeFrom budget cs pos = .ok toks)
    (hw : stepsWindow p (p + 1) (p + 6) (p + 7) id <:+: toks) : SpelledIn cs id := by
  obtain ⟨before, after, rfl⟩ := hw
  induction before generalizing budget cs pos with
  | nil =>
    rw [List.nil_append] at h
    obtain ⟨b₁, r₁, q₁, hn₁, h₁⟩ := tokenizeFrom_cons h (by simp)
    obtain ⟨b₂, r₂, q₂, hn₂, h₂⟩ := tokenizeFrom_cons h₁ (by simp)
    obtain ⟨b₃, r₃, q₃, hn₃, h₃⟩ := tokenizeFrom_cons h₂ (by simp)
    obtain ⟨b₄, r₄, q₄, hn₄, h₄⟩ := tokenizeFrom_cons h₃ (by simp)
    obtain ⟨w₁, t₁, rfl, hl₁⟩ := nextToken_ok hn₁
    obtain ⟨w₂, t₂, rfl, hl₂⟩ := nextToken_ok hn₂
    obtain ⟨w₃, t₃, rfl, hl₃⟩ := nextToken_ok hn₃
    obtain ⟨w₄, t₄, rfl, hl₄⟩ := nextToken_ok hn₄
    obtain ⟨hp₁, rfl, hq₁⟩ := (lexToken_ok hl₁).1 rfl
    obtain ⟨hp₂, rfl, hq₂, -⟩ := (lexToken_ok hl₂).2.2 "steps" rfl
    obtain ⟨hp₃, rfl, hq₃⟩ := (lexToken_ok hl₃).2.1 rfl
    obtain ⟨hp₄, rfl, hq₄, hend, hstart, hall⟩ := (lexToken_ok hl₄).2.2 id rfl
    dsimp only at hp₁ hp₂ hp₃ hp₄
    have hlen : "steps".toList.length = 5 := by decide
    have hw₂ : w₂ = [] := List.length_eq_zero_iff.mp (by omega)
    have hw₃ : w₃ = [] := List.length_eq_zero_iff.mp (by omega)
    have hw₄ : w₄ = [] := List.length_eq_zero_iff.mp (by omega)
    subst hw₂ hw₃ hw₄
    have hsteps : "steps".toList = ['s', 't', 'e', 'p', 's'] := by decide
    exact ⟨w₁, r₄, by simp [hsteps], hend, hstart, hall⟩
  | cons t before ih =>
    by_cases he : t.kind = .eof
    · have := tokenizeFrom_eof h he
      simp [stepsWindow] at this
    · obtain ⟨b, r, q, hn, hrest⟩ := tokenizeFrom_cons h he
      obtain ⟨pre, post, hr, hprops⟩ := ih hrest
      obtain ⟨ws, body, rfl, hl⟩ := nextToken_ok hn
      obtain ⟨taken, rfl⟩ := lexToken_suffix hl
      exact ⟨ws ++ taken ++ pre, post, by rw [hr]; simp, hprops⟩

end Gwead.Dsl
