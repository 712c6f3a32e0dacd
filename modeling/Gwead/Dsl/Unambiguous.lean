import Gwead.Dsl.LexerSpec

/-!
# The grammar is unambiguous

Terminals that the productions put next to each other stay apart when nothing is written between
them, and a sequence of terminals derives with one tree only.
-/

namespace Gwead.Dsl

open List (IsChain)

/-! ### Spacing -/

/-- A sequence of terminals that stay apart, also from an allowed one after them. -/
structure Closed (allowed : TokenKind → Prop) (ls : List Lexeme) : Prop where
  chain : IsChain Apart ls
  ends : ∀ l ∈ ls.getLast?, ∀ l', allowed l'.kind → Apart l l'

/-- What can follow such a sequence, and be one itself. -/
structure Trails (allowed : TokenKind → Prop) (ls : List Lexeme) : Prop extends
    Closed allowed ls where
  head : ∀ l ∈ ls.head?, allowed l.kind

theorem Closed.append {allowed : TokenKind → Prop} {ls ls' : List Lexeme} (h : Closed allowed ls)
    (h' : Trails allowed ls') : Closed allowed (ls ++ ls') := by
  refine ⟨h.chain.append h'.chain fun l hl l' hl' => h.ends l hl l' (h'.head l' hl'), ?_⟩
  intro l hl
  rw [List.getLast?_append] at hl
  cases hls : ls'.getLast? with
  | none => exact h.ends l (by simpa [hls] using hl)
  | some a => exact h'.ends l (by simpa [hls] using hl)

theorem Trails.append {allowed : TokenKind → Prop} {ls ls' : List Lexeme} (h : Trails allowed ls)
    (h' : Trails allowed ls') : Trails allowed (ls ++ ls') := by
  refine ⟨h.toClosed.append h', fun l hl => ?_⟩
  rw [List.head?_append] at hl
  cases hls : ls.head? with
  | none => exact h'.head l (by simpa [hls] using hl)
  | some a => exact h.head l (by simpa [hls] using hl)

theorem Closed.mono {allowed allowed' : TokenKind → Prop} {ls : List Lexeme}
    (h : Closed allowed ls) (hle : ∀ k, allowed' k → allowed k) : Closed allowed' ls :=
  ⟨h.chain, fun l hl l' hl' => h.ends l hl l' (hle _ hl')⟩

/-- What path segments start with. -/
def AfterRoot (k : TokenKind) : Prop := k ∈ symbols

/-- What operators and closing brackets are. -/
def AfterOperand (k : TokenKind) : Prop := k ∈ symbols ∧ k ≠ .dot

theorem Ident.is_word {l : Lexeme} {name : String} (h : Ident l name) :
    ∃ cs shape, l = .word cs shape := by
  cases h
  exact ⟨_, _, rfl⟩

theorem IsSegment.trails {ls : List Lexeme} {seg : Written.Segment} (h : IsSegment ls seg) :
    Trails AfterRoot ls := by
  cases h with
  | field hname =>
    obtain ⟨cs, shape, rfl⟩ := hname.is_word
    constructor; constructor
    all_goals simp [sym, Apart, Lexeme.kind, AfterRoot, symbols]
  | index n =>
    constructor; constructor
    all_goals simp [sym, Apart, Lexeme.kind, AfterRoot, symbols]
  | wildcard =>
    constructor; constructor
    all_goals simp [sym, Apart, Lexeme.kind, AfterRoot, symbols]
  | filter hname =>
    obtain ⟨cs, shape, rfl⟩ := hname.is_word
    constructor; constructor
    all_goals simp [sym, Apart, Lexeme.kind, AfterRoot, symbols]

theorem IsPath.trails {ls : List Lexeme} {path : List Written.Segment} (h : IsPath ls path) :
    Trails AfterRoot ls := by
  induction h with
  | nil =>
    constructor; constructor
    all_goals simp
  | cons head tail ih => exact head.trails.append ih

theorem RootName.closed {rs : List Lexeme} {root : Root} (h : RootName rs root) :
    Closed AfterRoot (sym .dollar :: rs) := by
  cases h with
  | steps hid =>
    obtain ⟨cs, shape, rfl⟩ := hid.is_word
    constructor <;> simp [sym, quoted, Apart, Lexeme.kind, AfterRoot, symbols]
  | _ => constructor <;> simp [sym, quoted, Apart, AfterRoot]

/-- A sequence of terminals that can stand as an operand. -/
structure Spaced (ls : List Lexeme) : Prop extends Closed AfterOperand ls where
  opens : ∃ l ∈ ls.head?, l.kind ≠ .eq ∧ l.kind ≠ .question ∧ l.kind ≠ .coalesce

theorem Spaced.append {ls ls' : List Lexeme} (h : Spaced ls) (h' : Trails AfterOperand ls') :
    Spaced (ls ++ ls') := by
  obtain ⟨l, hl, hopens⟩ := h.opens
  refine ⟨h.toClosed.append h', l, ?_, hopens⟩
  rw [List.head?_append, Option.mem_def.mp hl]
  rfl

/-- An operand after a symbol that the operand does not continue. -/
theorem Spaced.cons {ls : List Lexeme} (h : Spaced ls) {k : TokenKind} (hk : k ∈ symbols) :
    Closed AfterOperand (sym k hk :: ls) := by
  obtain ⟨l, hl, hopens⟩ := h.opens
  refine ⟨h.chain.cons fun l' hl' => ?_, fun l' hl' => h.ends l' ?_⟩
  · cases Option.mem_unique hl hl'
    exact fun _ => hopens
  · cases ls with
    | nil => cases hl
    | cons a ls => simpa using hl'

theorem IsReference.spaced {ls : List Lexeme} {r : Written.Reference} (h : IsReference ls r) :
    Spaced ls := by
  have hle : ∀ k, AfterOperand k → AfterRoot k := fun k hk => hk.1
  cases h with
  | implicit hpath =>
    have hroot : Closed AfterRoot [sym .dollar] := by constructor <;> simp [sym, Apart]
    exact ⟨(hroot.append hpath.trails).mono hle, _, rfl, by simp [sym, Lexeme.kind]⟩
  | rooted hroot hpath =>
    exact ⟨(hroot.closed.append hpath.trails).mono hle, _, rfl, by simp [sym, Lexeme.kind]⟩

theorem IsLeaf.spaced {ls : List Lexeme} {e : Written.Expression} (h : IsLeaf ls e) :
    Spaced ls := by
  cases h with
  | reference href => exact href.spaced
  | number n => exact ⟨⟨by simp, by simp +contextual [Apart, AfterOperand]⟩, _, rfl, by simp [Lexeme.kind]⟩
  | string cs unquoted => exact ⟨⟨by simp, by simp [Apart]⟩, _, rfl, by simp [Lexeme.kind]⟩
  | _ =>
    exact ⟨⟨by simp, by simp +contextual [quoted, Apart, AfterOperand]⟩, _, rfl,
      by simp [quoted, Lexeme.kind, keyword]⟩

section Levels

variable {operators : Operators} {operand : List Lexeme → Written.Expression → Prop}

theorem Rounds.trails (hdot : ∀ p ∈ operators, p.1 ≠ .dot)
    (hoperand : ∀ ls e, operand ls e → Spaced ls) {left e : Written.Expression}
    {ls : List Lexeme} (h : Rounds operators operand left ls e) : Trails AfterOperand ls := by
  induction h with
  | done =>
    constructor; constructor
    all_goals simp
  | more listed hop hright tail ih =>
    refine ⟨((hoperand _ _ hright).cons listed).append ih, fun l hl => ?_⟩
    cases hl
    exact ⟨listed, hdot _ hop⟩

theorem IsLevel.spaced (hdot : ∀ p ∈ operators, p.1 ≠ .dot)
    (hoperand : ∀ ls e, operand ls e → Spaced ls) (ls : List Lexeme) (e : Written.Expression)
    (h : IsLevel operators operand ls e) : Spaced ls := by
  cases h with
  | mk hfirst tail => exact (hoperand _ _ hfirst).append (tail.trails hdot hoperand)

theorem IsBinary.spaced {unary : List Lexeme → Written.Expression → Prop}
    (hunary : ∀ ls e, unary ls e → Spaced ls) : ∀ ls e, IsBinary unary ls e → Spaced ls := by
  have hdot : ∀ operators ∈ precedence, ∀ p ∈ operators, p.1 ≠ .dot := by decide
  refine List.foldlRecOn (motive := fun operand : List Lexeme → Written.Expression → Prop =>
    ∀ ls e, operand ls e → Spaced ls) precedence _ hunary fun operand hoperand operators hmem => ?_
  exact IsLevel.spaced (hdot operators hmem) hoperand

end Levels

theorem IsUnary.spaced {depth : Nat} : ∀ ls e, IsUnary depth ls e → Spaced ls := by
  induction depth with
  | zero => exact fun ls e h => IsLeaf.spaced h
  | succ depth ih =>
    rintro ls e (h | ⟨inner, e', h, rfl, rfl⟩ | ⟨inner, h, rfl⟩)
    · exact h.spaced
    · exact ⟨(ih _ _ h).cons _, _, rfl, by simp [sym, Lexeme.kind]⟩
    · have hparen : Trails AfterOperand [sym .rParen] := by
        constructor; constructor
        all_goals simp [sym, Apart, Lexeme.kind, AfterOperand, symbols]
      have hinner := (IsBinary.spaced ih _ _ h).append hparen
      exact ⟨hinner.cons _, _, rfl, by simp [sym, Lexeme.kind]⟩

theorem IsExpression.isChain {depth : Nat} {ls : List Lexeme} {e : Written.Expression}
    (h : IsExpression depth ls e) : IsChain Apart ls :=
  (IsBinary.spaced IsUnary.spaced ls e h).chain

/-! ### Determinism -/

/-- How tightly a token continues what is before it. -/
def TokenKind.rank : TokenKind → Nat
  | .dot | .lBracket | .ident _ => 0
  | .lt | .le | .gt | .ge => 1
  | .eq | .notEq => 2
  | .and => 3
  | .or => 4
  | .coalesce => 5
  | _ => 6

/-- Nothing of what follows continues a phrase of a level. -/
def Stops (level : Nat) (rest : List Lexeme) : Prop := ∀ l ∈ rest.head?, level ≤ l.kind.rank

theorem Stops.mono {level level' : Nat} {rest : List Lexeme} (h : Stops level rest)
    (hle : level' ≤ level) : Stops level' rest := fun l hl => hle.trans (h l hl)

theorem stops_cons {level : Nat} {l : Lexeme} {rest : List Lexeme} :
    Stops level (l :: rest) ↔ level ≤ l.kind.rank := by
  simp [Stops]

/-- Where phrases of a level start alike and nothing continues them, they are the same. -/
def Determined {α : Type} (level : Nat) (phrase : List Lexeme → α → Prop) : Prop :=
  ∀ ls ls' a a' rest rest', phrase ls a → phrase ls' a' → Stops level rest → Stops level rest' →
    ls ++ rest = ls' ++ rest' → ls = ls' ∧ a = a'

theorem Ident.unique {l : Lexeme} {name name' : String} (h : Ident l name) (h' : Ident l name') :
    name = name' := by
  cases h
  cases h'
  rfl

theorem determined_segment : Determined 0 IsSegment := by
  intro ls ls' seg seg' rest rest' h h' _ _ heq
  cases h with
  | field hname =>
    cases h' with
    | field hname' =>
      simp [sym] at heq
      obtain ⟨rfl, -⟩ := heq
      exact ⟨rfl, by rw [hname.unique hname']⟩
    | _ => simp [sym] at heq
  | index n => cases h' <;> simp_all [sym]
  | wildcard => cases h' <;> simp_all [sym]
  | filter hname =>
    cases h' with
    | filter hname' =>
      simp [sym] at heq
      obtain ⟨rfl, rfl, -⟩ := heq
      exact ⟨rfl, by rw [hname.unique hname']⟩
    | _ => simp [sym] at heq

theorem IsSegment.head_rank {ls rest : List Lexeme} {seg : Written.Segment} (h : IsSegment ls seg)
    (hstops : Stops 1 (ls ++ rest)) : False := by
  cases h <;> simp [Stops, sym, Lexeme.kind, TokenKind.rank] at hstops

theorem determined_path : Determined 1 IsPath := by
  intro ls ls' path path' rest rest' h
  induction h generalizing ls' path' with
  | nil =>
    intro h' hstops _ heq
    cases h' with
    | nil => exact ⟨rfl, rfl⟩
    | cons head tail =>
      rw [List.nil_append, List.append_assoc] at heq
      exact (head.head_rank (heq ▸ hstops)).elim
  | cons head tail ih =>
    intro h' hstops hstops' heq
    cases h' with
    | nil =>
      rw [List.nil_append, List.append_assoc] at heq
      exact (head.head_rank (heq ▸ hstops')).elim
    | cons head' tail' =>
      rw [List.append_assoc, List.append_assoc] at heq
      obtain ⟨rfl, rfl⟩ := determined_segment _ _ _ _ _ _ head head' (fun _ _ => Nat.zero_le _)
        (fun _ _ => Nat.zero_le _) heq
      obtain ⟨rfl, rfl⟩ := ih _ _ tail' hstops hstops' (List.append_cancel_left heq)
      exact ⟨rfl, rfl⟩

theorem IsPath.stops {ls rest : List Lexeme} {path : List Written.Segment} (h : IsPath ls path)
    (hstops : Stops 1 rest) : ∀ l ∈ (ls ++ rest).head?, ∀ cs shape, l = .word cs shape →
      1 ≤ l.kind.rank := by
  cases h with
  | nil => exact fun l hl _ _ _ => hstops l hl
  | cons head tail =>
    intro l hl cs shape hw
    subst hw
    cases head <;> simp [sym] at hl

theorem RootName.head {rs : List Lexeme} {root : Root} (h : RootName rs root) :
    ∃ cs shape tail, rs = .word cs shape :: tail ∧ (Lexeme.word cs shape).kind.rank = 0 := by
  cases h <;> exact ⟨_, _, _, rfl, by decide⟩

theorem determined_root : Determined 0 RootName := by
  intro rs rs' root root' rest rest' h h' _ _ heq
  cases h with
  | steps hid =>
    cases h' with
    | steps hid' =>
      simp [quoted, sym] at heq
      obtain ⟨rfl, -⟩ := heq
      exact ⟨rfl, by rw [hid.unique hid']⟩
    | _ => simp [quoted] at heq
  | _ => cases h' <;> simp_all [quoted]

theorem determined_reference : Determined 1 IsReference := by
  intro ls ls' r r' rest rest' h h' hstops hstops' heq
  have himplicit : ∀ {path tail rs more : List Lexeme} {segs root}, IsPath path segs →
      Stops 1 tail → RootName rs root → path ++ tail = rs ++ more → False := by
    intro path tail rs more segs root hpath htail hroot he
    obtain ⟨cs, shape, _, rfl, hrank⟩ := hroot.head
    have := hpath.stops htail (.word cs shape) (by simp [he]) cs shape rfl
    omega
  cases h with
  | implicit hpath =>
    cases h' with
    | implicit hpath' =>
      obtain ⟨rfl, rfl⟩ := determined_path _ _ _ _ _ _ hpath hpath' hstops hstops'
        (List.cons.inj heq).2
      exact ⟨rfl, rfl⟩
    | rooted hroot' hpath' =>
      have htail := (List.cons.inj heq).2
      exact (himplicit hpath hstops hroot' (htail.trans (List.append_assoc ..))).elim
  | rooted hroot hpath =>
    cases h' with
    | implicit hpath' =>
      have htail := (List.cons.inj heq).2
      exact (himplicit hpath' hstops' hroot (htail.symm.trans (List.append_assoc ..))).elim
    | rooted hroot' hpath' =>
      simp only [List.cons_append, List.cons.injEq, List.append_assoc, true_and] at heq
      obtain ⟨rfl, rfl⟩ := determined_root _ _ _ _ _ _ hroot hroot' (fun _ _ => Nat.zero_le _)
        (fun _ _ => Nat.zero_le _) heq
      obtain ⟨rfl, rfl⟩ := determined_path _ _ _ _ _ _ hpath hpath' hstops hstops'
        (List.append_cancel_left heq)
      exact ⟨rfl, rfl⟩

theorem IsReference.head {ls : List Lexeme} {r : Written.Reference} (h : IsReference ls r) :
    ∃ tail, ls = sym .dollar :: tail := by
  cases h <;> exact ⟨_, rfl⟩

theorem determined_leaf : Determined 1 IsLeaf := by
  intro ls ls' e e' rest rest' h h' hstops hstops' heq
  cases h with
  | reference href =>
    cases h' with
    | reference href' =>
      obtain ⟨rfl, rfl⟩ := determined_reference _ _ _ _ _ _ href href' hstops hstops' heq
      exact ⟨rfl, rfl⟩
    | _ =>
      obtain ⟨tail, rfl⟩ := href.head
      simp [sym, quoted] at heq
  | _ =>
    cases h' with
    | reference href' =>
      obtain ⟨tail, rfl⟩ := href'.head
      simp [sym, quoted] at heq
    | _ => simp_all [quoted]

section Levels

variable {operators : Operators} {operand : List Lexeme → Written.Expression → Prop} {level : Nat}

theorem Rounds.stops (hrank : ∀ p ∈ operators, p.1.rank = level) {left e : Written.Expression}
    {ls rest : List Lexeme} (h : Rounds operators operand left ls e)
    (hstops : Stops (level + 1) rest) : Stops level (ls ++ rest) := by
  cases h with
  | done => exact hstops.mono (Nat.le_succ _)
  | more listed hop hright tail => exact stops_cons.mpr (hrank _ hop).ge

/-- The rounds of a level are read off what follows the first operand. -/
theorem Rounds.determined (hrank : ∀ p ∈ operators, p.1.rank = level)
    (hop : ∀ p ∈ operators, ∀ q ∈ operators, p.1 = q.1 → p = q)
    (hoperand : Determined level operand) {left e e' : Written.Expression}
    {ls ls' rest rest' : List Lexeme} (h : Rounds operators operand left ls e)
    (h' : Rounds operators operand left ls' e') (hstops : Stops (level + 1) rest)
    (hstops' : Stops (level + 1) rest') (heq : ls ++ rest = ls' ++ rest') :
    ls = ls' ∧ e = e' := by
  have hnone : ∀ {k : TokenKind} {op : BinaryOp} {listed : k ∈ symbols} {tail after : List Lexeme},
      (k, op) ∈ operators → Stops (level + 1) after → after ≠ sym k listed :: tail := by
    rintro k op listed tail after hk hafter rfl
    have hlt : level + 1 ≤ k.rank := stops_cons.mp hafter
    have hlevel : k.rank = level := hrank _ hk
    omega
  induction h generalizing ls' e' with
  | done =>
    cases h' with
    | done => exact ⟨rfl, rfl⟩
    | more listed hk hright tail => exact (hnone hk hstops heq).elim
  | more listed hk hright tail ih =>
    cases h' with
    | done => exact (hnone hk hstops' heq.symm).elim
    | more listed' hk' hright' tail' =>
      simp only [List.cons_append, List.cons.injEq, List.append_assoc, sym,
        Lexeme.symbol.injEq] at heq
      obtain ⟨rfl, heq⟩ := heq
      cases hop _ hk _ hk' rfl
      obtain ⟨rfl, rfl⟩ := hoperand _ _ _ _ _ _ hright hright' (tail.stops hrank hstops)
        (tail'.stops hrank hstops') heq
      obtain ⟨rfl, rfl⟩ := ih tail' (List.append_cancel_left heq)
      exact ⟨rfl, rfl⟩

theorem determined_level (hrank : ∀ p ∈ operators, p.1.rank = level)
    (hop : ∀ p ∈ operators, ∀ q ∈ operators, p.1 = q.1 → p = q)
    (hoperand : Determined level operand) : Determined (level + 1) (IsLevel operators operand) := by
  intro ls ls' e e' rest rest' h h' hstops hstops' heq
  cases h with
  | mk hfirst tail =>
    cases h' with
    | mk hfirst' tail' =>
      rw [List.append_assoc, List.append_assoc] at heq
      obtain ⟨rfl, rfl⟩ := hoperand _ _ _ _ _ _ hfirst hfirst' (tail.stops hrank hstops)
        (tail'.stops hrank hstops') heq
      obtain ⟨rfl, rfl⟩ := tail.determined hrank hop hoperand tail' hstops hstops'
        (List.append_cancel_left heq)
      exact ⟨rfl, rfl⟩

end Levels

theorem determined_binary {unary : List Lexeme → Written.Expression → Prop}
    (h : Determined 1 unary) : Determined 6 (IsBinary unary) :=
  determined_level (by decide) (by decide) <| determined_level (by decide) (by decide) <|
    determined_level (by decide) (by decide) <| determined_level (by decide) (by decide) <|
      determined_level (by decide) (by decide) h

theorem IsLeaf.head {ls rest : List Lexeme} {e : Written.Expression} {l : Lexeme}
    {tail : List Lexeme} (h : IsLeaf ls e) (heq : ls ++ rest = l :: tail) :
    l.kind ≠ .not ∧ l.kind ≠ .lParen := by
  cases h with
  | reference href =>
    obtain ⟨tail', rfl⟩ := href.head
    cases heq
    decide
  | _ =>
    cases heq
    simp [quoted, Lexeme.kind, keyword]

theorem determined_unary (depth : Nat) : Determined 1 (IsUnary depth) := by
  induction depth with
  | zero => exact determined_leaf
  | succ depth ih =>
    intro ls ls' e e' rest rest' h h' hstops hstops' heq
    obtain h | ⟨inner, x, h, rfl, rfl⟩ | ⟨inner, h, rfl⟩ := h
    · obtain h' | ⟨inner', x', h', rfl, rfl⟩ | ⟨inner', h', rfl⟩ := h'
      · exact determined_leaf _ _ _ _ _ _ h h' hstops hstops' heq
      · exact absurd rfl (h.head heq).1
      · exact absurd rfl (h.head heq).2
    · obtain h' | ⟨inner', x', h', rfl, rfl⟩ | ⟨inner', h', rfl⟩ := h'
      · exact absurd rfl (h'.head heq.symm).1
      · obtain ⟨rfl, rfl⟩ := ih _ _ _ _ _ _ h h' hstops hstops' (List.cons.inj heq).2
        exact ⟨rfl, rfl⟩
      · simp [sym] at heq
    · obtain h' | ⟨inner', x', h', rfl, rfl⟩ | ⟨inner', h', rfl⟩ := h'
      · exact absurd rfl (h'.head heq.symm).2
      · simp [sym] at heq
      · simp only [List.cons_append, List.cons.injEq, List.append_assoc, true_and] at heq
        have hparen : ∀ after, Stops 6 ([sym .rParen] ++ after) := fun after =>
          stops_cons.mpr (by decide)
        obtain ⟨rfl, rfl⟩ := determined_binary ih _ _ _ _ _ _ h h' (hparen _) (hparen _) heq
        exact ⟨rfl, rfl⟩

/-! ### More room -/

section Room

variable {operators : Operators} {operand operand' : List Lexeme → Written.Expression → Prop}

theorem Rounds.mono (hle : ∀ ls e, operand ls e → operand' ls e) {left e : Written.Expression}
    {ls : List Lexeme} (h : Rounds operators operand left ls e) :
    Rounds operators operand' left ls e := by
  induction h with
  | done => exact .done
  | more listed hop hright _ ih => exact .more listed hop (hle _ _ hright) ih

theorem IsLevel.mono (hle : ∀ ls e, operand ls e → operand' ls e) (ls : List Lexeme)
    (e : Written.Expression) (h : IsLevel operators operand ls e) :
    IsLevel operators operand' ls e := by
  cases h with
  | mk hfirst tail => exact .mk (hle _ _ hfirst) (tail.mono hle)

theorem IsBinary.mono (hle : ∀ ls e, operand ls e → operand' ls e) :
    ∀ ls e, IsBinary operand ls e → IsBinary operand' ls e :=
  IsLevel.mono <| IsLevel.mono <| IsLevel.mono <| IsLevel.mono <| IsLevel.mono hle

end Room

theorem IsUnary.succ {depth : Nat} : ∀ ls e, IsUnary depth ls e → IsUnary (depth + 1) ls e := by
  induction depth with
  | zero => exact fun ls e h => Or.inl h
  | succ depth ih =>
    rintro ls e (h | ⟨inner, e', h, hls, he⟩ | ⟨inner, h, hls⟩)
    · exact Or.inl h
    · exact Or.inr (Or.inl ⟨inner, e', ih _ _ h, hls, he⟩)
    · exact Or.inr (Or.inr ⟨inner, IsBinary.mono ih _ _ h, hls⟩)

theorem IsExpression.mono {depth depth' : Nat} (hle : depth ≤ depth') {ls : List Lexeme}
    {e : Written.Expression} (h : IsExpression depth ls e) : IsExpression depth' ls e := by
  induction hle with
  | refl => exact h
  | step _ ih => exact IsBinary.mono IsUnary.succ _ _ ih

/-- Whatever room two derivations of a sequence of terminals use, they give one tree. -/
theorem IsExpression.unique {depth depth' : Nat} {ls : List Lexeme} {e e' : Written.Expression}
    (h : IsExpression depth ls e) (h' : IsExpression depth' ls e') : e = e' :=
  (determined_binary (determined_unary (max depth depth')) ls ls e e' [] []
    (h.mono (Nat.le_max_left _ _)) (h'.mono (Nat.le_max_right _ _)) (by simp [Stops])
    (by simp [Stops]) rfl).2

theorem IsReference.unique {ls : List Lexeme} {r r' : Written.Reference} (h : IsReference ls r)
    (h' : IsReference ls r') : r = r' :=
  (determined_reference ls ls r r' [] [] h h' (by simp [Stops]) (by simp [Stops]) rfl).2

theorem WritesReference.unique {src : String} {r r' : Written.Reference}
    (h : WritesReference src r) (h' : WritesReference src r') : r = r' := by
  obtain ⟨ls, hspelled, hr⟩ := h
  obtain ⟨ls', hspelled', hr'⟩ := h'
  cases Spelled.unique hr.spaced.chain hr'.spaced.chain hspelled hspelled'
  exact hr.unique hr'

theorem WritesExpression.unique {depth depth' : Nat} {src : String} {e e' : Written.Expression}
    (h : WritesExpression depth src e) (h' : WritesExpression depth' src e') : e = e' := by
  obtain ⟨ls, hspelled, he⟩ := h
  obtain ⟨ls', hspelled', he'⟩ := h'
  cases Spelled.unique he.isChain he'.isChain hspelled hspelled'
  exact he.unique he'

end Gwead.Dsl
