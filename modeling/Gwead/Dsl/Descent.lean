import Gwead.Dsl.ParserGrammar

/-!
# The parser's descent

The productions of the parser once more, as calls: with the depth counter, which goes up and down
around the two that nest, and with a count of the calls that are under way.  A failing run keeps
its counters, so that they can be compared with the limit for every source.
-/

namespace Gwead.Dsl

/-- The parser's state; `stack` is how many calls are under way and `peak` the most there have
been at one time. -/
structure Descending where
  tokens : List Token
  depth : Nat
  ops : Nat
  stack : Nat
  peak : Nat

def Descending.plain (m : Descending) : ParserState := ⟨m.tokens, m.ops⟩

def Descent (α : Type) := Descending → Except ParseError α × Descending

namespace Descent

variable {α β : Type}

protected def pure (a : α) : Descent α := fun m => (.ok a, m)

protected def bind (p : Descent α) (f : α → Descent β) : Descent β := fun m =>
  match p m with
  | (.ok a, m) => f a m
  | (.error e, m) => (.error e, m)

instance : Monad Descent where
  pure := Descent.pure
  bind := Descent.bind

/-- A call: it stands on the stack while it runs, however it ends. -/
def frame (p : Descent α) : Descent α := fun m =>
  let (r, m) := p { m with stack := m.stack + 1, peak := max m.peak (m.stack + 1) }
  (r, { m with stack := m.stack - 1 })

/-- Code that does not recurse and stacks at most so many calls. -/
def calls (frames : Nat) (q : Parser α) : Descent α := fun m =>
  let peak := max m.peak (m.stack + frames)
  match q m.plain with
  | .ok (a, s) => (.ok a, { m with tokens := s.tokens, ops := s.ops, peak })
  | .error e => (.error e, { m with peak })

def ofExcept (r : Except ParseError α) : Descent α := fun m => (r, m)

/-- Run without passing an error on. -/
def attempt (p : Descent α) : Descent (Except ParseError α) := fun m => (.ok (p m).1, (p m).2)

def depthError : String := "expression nesting exceeds the maximum depth of 128"

def opsError : String := "expression uses more than the maximum of 256 operators"

def descend (position : Nat) : Descent Unit := frame fun m =>
  let m := { m with depth := m.depth + 1 }
  if maxExprDepth < m.depth then (.error (.unexpected depthError position), m) else (.ok (), m)

def ascend : Descent Unit := frame fun m => (.ok (), { m with depth := m.depth - 1 })

def countOp (position : Nat) : Descent Unit := frame fun m =>
  let m := { m with ops := m.ops + 1 }
  if maxExprOps < m.ops then (.error (.unexpected opsError position), m) else (.ok (), m)

def peek : Descent Token := calls 1 Parser.peek

def bump : Descent Token := calls 1 Parser.bump

/-- It peeks and bumps. -/
def expect (want : TokenKind) : Descent Token := calls 2 (Parser.expect want)

/-- What stands behind `!` or an opening parenthesis, one level down. -/
def nested (position : Nat) (inner : Descent α) : Descent α := do
  descend position
  let _ ← bump
  let r ← attempt inner
  ascend
  ofExcept r

section Levels

variable (opOf : TokenKind → Option BinaryOp) (operand : Descent Expression)

def binaryLoop : Nat → Expression → Descent Expression
  | 0, left => do
    let tok ← peek
    match opOf tok.kind with
    | none => pure left
    | some _ => calls 1 (Parser.fail opsError tok.start)
  | budget + 1, left => do
    let tok ← peek
    match opOf tok.kind with
    | none => pure left
    | some op => do
      countOp tok.start
      let _ ← bump
      let right ← operand
      binaryLoop budget (.binary op left right)

def binaryLevel : Descent Expression := frame do
  let left ← operand
  binaryLoop opOf operand maxExprOps left

end Levels

/-- `parse_coalesce` down to `parse_comparison`, five calls. -/
def parseCoalesce (unary : Descent Expression) : Descent Expression :=
  binaryLevel Parser.coalesceOp <| binaryLevel Parser.orOp <| binaryLevel Parser.andOp <|
    binaryLevel Parser.equalityOp <| binaryLevel Parser.comparisonOp unary

def expression (unary : Descent Expression) : Descent Expression := frame (parseCoalesce unary)

/-- A primary that does not nest stacks `parse_reference`, `parse_path_segments`,
`parse_bracket_segment`, `expect` and `bump` at most. -/
def parsePrimary (unary : Descent Expression) : Descent Expression := frame do
  let tok ← peek
  match tok.kind with
  | .lParen => do
    let e ← nested tok.start (expression unary)
    let _ ← expect .rParen
    pure e
  | _ => calls 5 Parser.parseLeaf

def unary (unary : Descent Expression) : Descent Expression := frame do
  let tok ← peek
  match tok.kind with
  | .not => do
    let inner ← nested tok.start unary
    pure (.not inner)
  | _ => parsePrimary unary

/-- `parse_unary` with `room` levels left.  Without room nothing is nested: the depth counter
stands at its limit. -/
def parseUnary : Nat → Descent Expression
  | 0 => unary (ofExcept (.error (.unexpected depthError 0)))
  | room + 1 => unary (parseUnary room)

def parseExpression : Descent Expression := expression (parseUnary maxExprDepth)

/-- `parse_expression` over a whole source, with the parser's last state. -/
def run (src : String) : Except ParseError Expression × Descending :=
  match tokenize src.toList with
  | .error e => (.error (.lex e), ⟨[], 0, 0, 0, 0⟩)
  | .ok tokens =>
    (do let e ← parseExpression; calls 2 Parser.expectEof; pure e : Descent Expression)
      ⟨tokens, 0, 0, 0, 0⟩

/-! ### A descent follows its parser -/

/-- What a descent from `m` that uses at most `need` calls comes to, where its parser comes to
`r`. -/
inductive Ran (m : Descending) (need : Nat) :
    Except ParseError (α × ParserState) → Except ParseError α × Descending → Prop
  | ok {a : α} {s : ParserState} {m' : Descending} (hplain : m'.plain = s)
      (hdepth : m'.depth = m.depth) (hstack : m'.stack = m.stack)
      (hpeak : m'.peak ≤ max m.peak (m.stack + need)) : Ran m need (.ok (a, s)) (.ok a, m')
  | error {e : ParseError} {m' : Descending} (hdepth : m.depth ≤ m'.depth)
      (hstack : m'.stack = m.stack) (hpeak : m'.peak ≤ max m.peak (m.stack + need)) :
      Ran m need (.error e) (.error e, m')

/-- With `room` levels left the descent gives what the parser gives, on `need` calls. -/
def Follows (room need : Nat) (p : Descent α) (q : Parser α) : Prop :=
  ∀ m : Descending, m.depth + room = maxExprDepth → Ran m need (q m.plain) (p m)

variable {room need need' : Nat}

theorem Ran.mono {m : Descending} {r : Except ParseError (α × ParserState)}
    {r' : Except ParseError α × Descending} (h : Ran m need r r') (hle : need ≤ need') :
    Ran m need' r r' := by
  cases h with
  | ok hplain hdepth hstack hpeak => exact .ok hplain hdepth hstack (by omega)
  | error hdepth hstack hpeak => exact .error hdepth hstack (by omega)

theorem Follows.mono {p : Descent α} {q : Parser α} (h : Follows room need p q)
    (hle : need ≤ need') : Follows room need' p q := fun m hm => (h m hm).mono hle

theorem follows_pure (a : α) : Follows room need (pure a) (pure a) :=
  fun _ _ => .ok rfl rfl rfl (Nat.le_max_left ..)

theorem Follows.bind {p : Descent α} {q : Parser α} {f : α → Descent β} {g : α → Parser β}
    (h : Follows room need p q) (hf : ∀ a, Follows room need (f a) (g a)) :
    Follows room need (p >>= f) (q >>= g) := by
  intro m hm
  have hp := h m hm
  change Ran m need ((q m.plain).bind fun v => g v.1 v.2)
    (match p m with
    | (.ok a, m) => f a m
    | (.error e, m) => (.error e, m))
  generalize q m.plain = r at hp ⊢
  generalize p m = r' at hp ⊢
  cases hp with
  | error hdepth hstack hpeak => exact .error hdepth hstack hpeak
  | ok hplain hdepth hstack hpeak =>
    rename_i a s m'
    subst hplain
    have hrest := hf a m' (by omega)
    change Ran m need (g a m'.plain) (f a m')
    generalize g a m'.plain = r at hrest ⊢
    generalize f a m' = r' at hrest ⊢
    cases hrest with
    | ok hplain hdepth' hstack' hpeak' => exact .ok hplain (by omega) (by omega) (by omega)
    | error hdepth' hstack' hpeak' => exact .error (by omega) (by omega) (by omega)

theorem Follows.frame {p : Descent α} {q : Parser α} (h : Follows room need p q) :
    Follows room (need + 1) (frame p) q := by
  intro m hm
  have hp := h { m with stack := m.stack + 1, peak := max m.peak (m.stack + 1) } hm
  unfold Descent.frame
  change Ran m (need + 1) (q m.plain) _
  change Ran _ need (q m.plain) _ at hp
  generalize q m.plain = r at hp ⊢
  generalize p { m with stack := m.stack + 1, peak := max m.peak (m.stack + 1) } = r' at hp ⊢
  cases hp with
  | ok hplain hdepth hstack hpeak =>
    exact .ok hplain hdepth (by simp only [hstack]; omega) (by simp only at hpeak ⊢; omega)
  | error hdepth hstack hpeak =>
    exact .error hdepth (by simp only [hstack]; omega) (by simp only at hpeak ⊢; omega)

theorem follows_calls (frames : Nat) (q : Parser α) : Follows room frames (calls frames q) q := by
  intro m _
  rw [calls]
  cases q m.plain with
  | error e => exact .error le_rfl rfl le_rfl
  | ok v => exact .ok rfl rfl rfl le_rfl

/-! ### Nesting -/

/-- Without room the counter is at its limit and refuses. -/
theorem follows_nested_zero (position : Nat) (inner : Descent α) :
    Follows 0 1 (nested position inner) (Parser.fail depthError position) := by
  intro m hm
  have hover : maxExprDepth < m.depth + 1 := by omega
  have hrun : nested position inner m = (.error (.unexpected depthError position),
      { m with depth := m.depth + 1, peak := max m.peak (m.stack + 1) }) := by
    change Descent.bind (descend position) _ m = _
    simp only [Descent.bind, descend, Descent.frame, if_pos hover, Nat.add_sub_cancel]
  rw [hrun]
  exact .error (Nat.le_succ _) rfl le_rfl

theorem bump_total (s : ParserState) : ∃ t s', Parser.bump s = .ok (t, s') := by
  rw [Parser.bump]
  split
  · exact ⟨_, _, rfl⟩
  · split <;> exact ⟨_, _, rfl⟩

/-- One level down and up again; an error inside gives its level back too. -/
theorem Follows.nested {inner : Descent α} {q : Parser α} (h : Follows room need inner q)
    (hneed : 1 ≤ need) (position : Nat) :
    Follows (room + 1) need (nested position inner) (do let _ ← Parser.bump; q) := by
  intro m hm
  have hfits : ¬ maxExprDepth < m.depth + 1 := by omega
  obtain ⟨t, s, hbump⟩ := bump_total m.plain
  -- the state behind the token, one level down
  let m₁ : Descending :=
    ⟨s.tokens, m.depth + 1, s.ops, m.stack, max (max m.peak (m.stack + 1)) (m.stack + 1)⟩
  have hrun : Descent.nested position inner m = ((inner m₁).1,
      { (inner m₁).2 with
        depth := (inner m₁).2.depth - 1
        stack := (inner m₁).2.stack + 1 - 1
        peak := max (inner m₁).2.peak ((inner m₁).2.stack + 1) }) := by
    have hbump' : Parser.bump ⟨m.tokens, m.ops⟩ = .ok (t, s) := hbump
    change Descent.bind (descend position) _ m = _
    simp only [Descent.bind, descend, Descent.frame, if_neg hfits, Nat.add_sub_cancel]
    change Descent.bind bump _ _ = _
    simp only [Descent.bind, bump, calls, Descending.plain, hbump']
    rfl
  have hparser : (do let _ ← Parser.bump; q : Parser α) m.plain = q s :=
    Parser.bind_run hbump
  have hinner := h m₁ (by simp only [m₁]; omega)
  have hplain : m₁.plain = s := rfl
  rw [hplain] at hinner
  rw [hrun, hparser]
  generalize q s = r at hinner ⊢
  generalize inner m₁ = r' at hinner ⊢
  have hstack₁ : m₁.stack = m.stack := rfl
  have hpeak₁ : m₁.peak = max (max m.peak (m.stack + 1)) (m.stack + 1) := rfl
  have hdepth₁ : m₁.depth = m.depth + 1 := rfl
  cases hinner with
  | ok hplain hdepth hstack hpeak =>
    exact .ok hplain (by simp only; omega) (by simp only; omega) (by simp only; omega)
  | error hdepth hstack hpeak =>
    exact .error (by simp only; omega) (by simp only; omega) (by simp only; omega)

/-! ### The levels -/

section Levels

variable {opOf : TokenKind → Option BinaryOp} {operand : Descent Expression}
  {q : Parser Expression}

theorem follows_countOp (position : Nat) :
    Follows room 1 (countOp position) (Parser.countOp position) := by
  intro m _
  by_cases h : maxExprOps < m.ops + 1
  · have hparser : Parser.countOp position m.plain = .error (.unexpected opsError position) :=
      if_pos h
    rw [hparser]
    simp only [countOp, Descent.frame, if_pos h]
    exact .error le_rfl rfl le_rfl
  · have hparser : Parser.countOp position m.plain = .ok ((), ⟨m.tokens, m.ops + 1⟩) := if_neg h
    rw [hparser]
    simp only [countOp, Descent.frame, if_neg h]
    exact .ok rfl rfl rfl le_rfl

/-- The rounds of one level run in the level's own call. -/
theorem Follows.binaryLoop (h : Follows room need operand q) (hneed : 1 ≤ need) (budget : Nat)
    (left : Expression) :
    Follows room need (binaryLoop opOf operand budget left)
      (Parser.binaryLoop opOf q budget left) := by
  have hpeek : Follows room need peek Parser.peek := (follows_calls 1 _).mono hneed
  induction budget generalizing left with
  | zero =>
    refine hpeek.bind fun tok => ?_
    cases opOf tok.kind with
    | none => exact follows_pure left
    | some op => exact (follows_calls 1 _).mono hneed
  | succ budget ih =>
    refine hpeek.bind fun tok => ?_
    cases opOf tok.kind with
    | none => exact follows_pure left
    | some op =>
      refine ((follows_countOp tok.start).mono hneed).bind fun _ => ?_
      refine ((follows_calls 1 _).mono hneed).bind fun _ => ?_
      exact h.bind fun right => ih (.binary op left right)

theorem Follows.binaryLevel (h : Follows room need operand q) (hneed : 1 ≤ need) :
    Follows room (need + 1) (binaryLevel opOf operand) (Parser.binaryLevel opOf q) :=
  (h.bind fun left => h.binaryLoop hneed maxExprOps left).frame

theorem Follows.parseCoalesce (h : Follows room need operand q) (hneed : 1 ≤ need) :
    Follows room (need + 5) (parseCoalesce operand) (Parser.parseCoalesce q) := by
  have hcomparison := @Follows.binaryLevel _ _ Parser.comparisonOp _ _ h hneed
  have hequality := @Follows.binaryLevel _ _ Parser.equalityOp _ _ hcomparison (by omega)
  have hand := @Follows.binaryLevel _ _ Parser.andOp _ _ hequality (by omega)
  have hor := @Follows.binaryLevel _ _ Parser.orOp _ _ hand (by omega)
  exact @Follows.binaryLevel _ _ Parser.coalesceOp _ _ hor (by omega)

theorem Follows.expression (h : Follows room need operand q) (hneed : 1 ≤ need) :
    Follows room (need + 6) (expression operand) (Parser.parseCoalesce q) :=
  (h.parseCoalesce hneed).frame

end Levels

/-! ### Unary and primary -/

/-- What the parser makes of a parenthesis, a level of nesting down. -/
def parenthesis : Nat → Nat → Parser Expression
  | 0, position => Parser.fail depthError position
  | room + 1, _ => do
    let _ ← Parser.bump
    let e ← Parser.parseCoalesce (Parser.parseUnary room)
    let _ ← Parser.expect .rParen
    pure e

def negation : Nat → Nat → Parser Expression
  | 0, position => Parser.fail depthError position
  | room + 1, _ => do
    let _ ← Parser.bump
    let inner ← Parser.parseUnary room
    pure (.not inner)

def primary (room : Nat) : Parser Expression := do
  let tok ← Parser.peek
  match tok.kind with
  | .lParen => parenthesis room tok.start
  | _ => Parser.parseLeaf

/-- The parser's unary in two parts, as the source has it. -/
theorem parseUnary_eq (room : Nat) : Parser.parseUnary room = (do
    let tok ← Parser.peek
    match tok.kind with
    | .not => negation room tok.start
    | _ => primary room : Parser Expression) := by
  funext s
  have hpeek : Parser.peek s = .ok (s.tokens.headD ⟨.eof, 0⟩, s) := rfl
  cases room with
  | zero =>
    rw [Parser.parseUnary, Parser.bind_run hpeek, Parser.bind_run hpeek]
    cases hkind : (s.tokens.headD ⟨.eof, 0⟩).kind <;>
      simp only [primary, Parser.bind_run hpeek, hkind] <;> rfl
  | succ room =>
    rw [Parser.parseUnary, Parser.bind_run hpeek, Parser.bind_run hpeek]
    cases hkind : (s.tokens.headD ⟨.eof, 0⟩).kind <;>
      simp only [primary, Parser.bind_run hpeek, hkind] <;> rfl

/-- The calls `parse_unary` uses with so many levels left: eight for each. -/
def unaryCalls (room : Nat) : Nat := 7 + 8 * room

section Operands

variable {inner : Descent Expression}

/-- What is nested, where there is room for it, is the parser one level down. -/
def OneDown (inner : Descent Expression) : Nat → Prop
  | 0 => True
  | room + 1 => Follows room (unaryCalls room) inner (Parser.parseUnary room)

theorem follows_parenthesis (h : OneDown inner room) (position : Nat) :
    Follows room (unaryCalls room - 2)
      (do
        let e ← nested position (expression inner)
        let _ ← expect .rParen
        pure e)
      (parenthesis room position) := by
  have hclose : ∀ e : Expression, Follows room (unaryCalls room - 2)
      (do let _ ← expect .rParen; pure e) (do let _ ← Parser.expect .rParen; pure e) := fun e =>
    ((follows_calls 2 _).mono (by rw [unaryCalls]; omega)).bind fun _ => follows_pure e
  cases room with
  | zero =>
    have hnested := (follows_nested_zero position (expression inner)).mono
      (show 1 ≤ unaryCalls 0 - 2 by decide)
    exact hnested.bind hclose
  | succ room =>
    have hexpression := Follows.expression h (show 1 ≤ unaryCalls room by rw [unaryCalls]; omega)
    have hnested := (hexpression.nested (by omega) position).mono
      (show unaryCalls room + 6 ≤ unaryCalls (room + 1) - 2 by simp only [unaryCalls]; omega)
    have hparser : parenthesis (room + 1) position =
        ((do let _ ← Parser.bump; Parser.parseCoalesce (Parser.parseUnary room)) >>= fun e => do
          let _ ← Parser.expect .rParen
          pure e) := by
      rw [parenthesis, bind_assoc]
    rw [hparser]
    exact hnested.bind hclose

theorem follows_negation (h : OneDown inner room) (position : Nat) :
    Follows room (unaryCalls room - 2)
      (do
        let e ← nested position inner
        pure (.not e))
      (negation room position) := by
  have hclose : ∀ e : Expression, Follows room (unaryCalls room - 2)
      (pure (Expression.not e)) (pure (Expression.not e)) := fun e => follows_pure _
  cases room with
  | zero =>
    have hnested := (follows_nested_zero position inner).mono
      (show 1 ≤ unaryCalls 0 - 2 by decide)
    exact hnested.bind hclose
  | succ room =>
    have hnested := (Follows.nested h (show 1 ≤ unaryCalls room by rw [unaryCalls]; omega)
      position).mono
      (show unaryCalls room ≤ unaryCalls (room + 1) - 2 by simp only [unaryCalls]; omega)
    have hparser : negation (room + 1) position =
        ((do let _ ← Parser.bump; Parser.parseUnary room) >>= fun e => pure (.not e)) := by
      rw [negation, bind_assoc]
    rw [hparser]
    exact hnested.bind hclose

theorem follows_parsePrimary (h : OneDown inner room) :
    Follows room (unaryCalls room - 1) (parsePrimary inner) (primary room) := by
  have hbody : Follows room (unaryCalls room - 2)
      (do
        let tok ← peek
        match tok.kind with
        | .lParen => do
          let e ← nested tok.start (expression inner)
          let _ ← expect .rParen
          pure e
        | _ => calls 5 Parser.parseLeaf) (primary room) := by
    refine ((follows_calls 1 _).mono (by rw [unaryCalls]; omega)).bind fun tok => ?_
    have hleaf : Follows room (unaryCalls room - 2) (calls 5 Parser.parseLeaf) Parser.parseLeaf :=
      (follows_calls 5 _).mono (by rw [unaryCalls]; omega)
    cases tok.kind with
    | lParen => exact follows_parenthesis h tok.start
    | _ => exact hleaf
  exact hbody.frame.mono (by rw [unaryCalls]; omega)

theorem follows_unary (h : OneDown inner room) :
    Follows room (unaryCalls room) (unary inner) (Parser.parseUnary room) := by
  rw [parseUnary_eq]
  have hbody : Follows room (unaryCalls room - 1)
      (do
        let tok ← peek
        match tok.kind with
        | .not => do
          let e ← nested tok.start inner
          pure (.not e)
        | _ => parsePrimary inner)
      (do
        let tok ← Parser.peek
        match tok.kind with
        | .not => negation room tok.start
        | _ => primary room) := by
    refine ((follows_calls 1 _).mono (by rw [unaryCalls]; omega)).bind fun tok => ?_
    have hprimary := follows_parsePrimary h
    cases tok.kind with
    | not => exact (follows_negation h tok.start).mono (by omega)
    | _ => exact hprimary
  exact hbody.frame.mono (by rw [unaryCalls]; omega)

end Operands

theorem follows_parseUnary (room : Nat) :
    Follows room (unaryCalls room) (parseUnary room) (Parser.parseUnary room) := by
  induction room with
  | zero => exact follows_unary trivial
  | succ room ih => exact follows_unary ih

/-- The whole descent: the parser's result, on a number of calls that does not depend on the
source. -/
theorem follows_parseExpression :
    Follows maxExprDepth (unaryCalls maxExprDepth + 6) parseExpression Parser.parseExpression :=
  (follows_parseUnary maxExprDepth).expression (by decide)

/-- Over a whole source the descent comes to what the parser comes to. -/
theorem run_follows (src : String) : (run src).1 = Dsl.parseExpression src ∧
    (run src).2.peak ≤ unaryCalls maxExprDepth + 6 ∧
    ∀ e, Dsl.parseExpression src = .ok e → (run src).2.depth = 0 ∧ (run src).2.stack = 0 := by
  unfold run Dsl.parseExpression Parser.runAll
  cases tokenize src.toList with
  | error e => exact ⟨rfl, Nat.zero_le _, nofun⟩
  | ok tokens =>
    have hrun := (follows_parseExpression.bind fun e =>
      ((follows_calls 2 Parser.expectEof).mono (by decide)).bind fun _ => follows_pure e)
      ⟨tokens, 0, 0, 0, 0⟩ (Nat.zero_add _)
    simp only
    change Ran _ _ ((do let a ← Parser.parseExpression; Parser.expectEof; pure a : Parser Expression)
      ⟨tokens, 0⟩) _ at hrun
    generalize (do let a ← Parser.parseExpression; Parser.expectEof; pure a : Parser Expression)
      ⟨tokens, 0⟩ = r at hrun ⊢
    generalize (do let e ← parseExpression; calls 2 Parser.expectEof; pure e : Descent Expression)
      ⟨tokens, 0, 0, 0, 0⟩ = r' at hrun ⊢
    cases hrun with
    | error hdepth hstack hpeak => exact ⟨rfl, by simpa using hpeak, nofun⟩
    | ok hplain hdepth hstack hpeak => exact ⟨rfl, by simpa using hpeak, fun _ _ => ⟨hdepth, hstack⟩⟩

end Descent

end Gwead.Dsl
