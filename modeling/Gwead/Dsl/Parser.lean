import Gwead.Dsl.Lexer

/-!
# Parser of the reference language

Recursive descent over the token list.  The two self-recursive productions recurse on what is
left of the depth limit and the operator loops on what is left of the operator limit, so the
limits the parser enforces are also what makes it total.
-/

namespace Gwead.Dsl

inductive ParseError where
  | lex (e : LexError)
  | unexpected (message : String) (position : Nat)
  deriving DecidableEq

def LexError.display (e : LexError) : String :=
  "lex error at byte " ++ e.position.repr ++ ": " ++ e.message

def ParseError.display : ParseError → String
  | lex e => e.display
  | unexpected message position =>
      "parse error at byte " ++ position.repr ++ ": " ++ message

def maxExprDepth : Nat := 128

def maxExprOps : Nat := 256

/-- What is left to read, and how many binary operators were read so far. -/
structure ParserState where
  tokens : List Token
  ops : Nat

abbrev Parser := StateT ParserState (Except ParseError)

namespace Parser

/-- Every successful run of a sequence is a successful run of its parts. -/
theorem bind_ok {α β : Type} {p : Parser α} {f : α → Parser β} {s : ParserState}
    {r : β × ParserState} :
    (p >>= f) s = .ok r ↔ ∃ a s', p s = .ok (a, s') ∧ f a s' = .ok r := by
  simp only [bind, StateT.bind, Except.bind]
  cases p s with
  | error e => simp
  | ok v => exact ⟨fun h => ⟨v.1, v.2, rfl, h⟩, fun ⟨a, s', he, h⟩ => by cases he; exact h⟩

theorem pure_ok {α : Type} {a : α} {s : ParserState} {r : α × ParserState} :
    (pure a : Parser α) s = .ok r ↔ r = (a, s) :=
  ⟨fun h => by cases h; rfl, fun h => by rw [h]; rfl⟩

def fail {α : Type} (message : String) (position : Nat) : Parser α :=
  fun _ => .error (.unexpected message position)

@[simp] theorem fail_ok {α : Type} {m : String} {p : Nat} {s : ParserState}
    {r : α × ParserState} : (fail m p : Parser α) s = .ok r ↔ False := by
  simp [fail]

def peek : Parser Token := fun s => .ok (s.tokens.headD ⟨.eof, 0⟩, s)

theorem peek_ok {s : ParserState} {r : Token × ParserState} :
    peek s = .ok r ↔ r = (s.tokens.headD ⟨.eof, 0⟩, s) :=
  ⟨fun h => by cases h; rfl, fun h => by rw [h]; rfl⟩

/-- Take the next token; the end of input stays where it is. -/
def bump : Parser Token := fun s =>
  match s.tokens with
  | [] => .ok (⟨.eof, 0⟩, s)
  | t :: rest => if t.kind = .eof then .ok (t, s) else .ok (t, { s with tokens := rest })

theorem bump_ok {s s' : ParserState} {t : Token} (h : bump s = .ok (t, s'))
    (ht : t.kind ≠ .eof) : s.tokens = t :: s'.tokens ∧ s'.ops = s.ops := by
  unfold bump at h
  split at h
  · cases h
    exact absurd rfl ht
  · rename_i hd rest heq
    split at h
    · cases h
      contradiction
    · cases h
      exact ⟨heq, rfl⟩

/-- Whatever `bump` returns, what is left is a suffix of what there was. -/
theorem bump_suffix {s s' : ParserState} {t : Token} (h : bump s = .ok (t, s')) :
    s'.tokens <:+ s.tokens := by
  unfold bump at h
  split at h
  · cases h
    exact List.suffix_rfl
  · rename_i hd rest heq
    split at h
    · cases h
      exact List.suffix_rfl
    · cases h
      rw [heq]
      exact List.suffix_cons _ _

def expect (want : TokenKind) : Parser Token := do
  let tok ← peek
  if tok.kind = want then bump
  else fail ("expected `" ++ want.display ++ "`, found `" ++ tok.kind.display ++ "`") tok.start

def expectEof : Parser Unit := do
  let tok ← peek
  if tok.kind = .eof then pure ()
  else fail ("expected end of input, found `" ++ tok.kind.display ++ "`") tok.start

/-- Take an identifier, or fail with the message of the position it is wanted at. -/
def identOr (message : String) : Parser String := do
  let tok ← bump
  match tok.kind.ident? with
  | some name => pure name
  | none => fail message tok.start

def parseFilter : Parser PathSegment := do
  let _ ← expect .lParen
  let _ ← expect .at
  let _ ← expect .dot
  let field ← identOr "expected field name in filter"
  let _ ← expect .eq
  let tok ← bump
  match tok.kind with
  | .string value => do
    let _ ← expect .rParen
    pure (.filterEq field value)
  | _ => fail "filter only supports equality against a string literal" tok.start

/-- What the first token inside brackets stands for. -/
def bracketSegment (tok : Token) : Parser PathSegment :=
  match tok.kind with
  | .star => pure .wildcard
  | .number n =>
    if n.lt Binary64.zero || !n.isInteger then
      fail ("array index must be a non-negative integer, got " ++ n.display) tok.start
    else pure (.index (n.toUnsigned 64))
  | .question => parseFilter
  | other => fail ("unexpected `" ++ other.display ++ "` inside `[…]`") tok.start

/-- A bracketed segment, after its opening bracket. -/
def parseBracketSegment : Parser PathSegment := do
  let tok ← bump
  let seg ← bracketSegment tok
  let _ ← expect .rBracket
  pure seg

/-- Path segments; every one takes a token, so the budget is the number of tokens. -/
def parsePathSegments : Nat → Parser (List PathSegment)
  | 0 => pure []
  | budget + 1 => do
    let tok ← peek
    match tok.kind with
    | .dot => do
      let _ ← bump
      let name ← identOr "expected field name after `.`"
      let rest ← parsePathSegments budget
      pure (.field name :: rest)
    | .lBracket => do
      let _ ← bump
      let seg ← parseBracketSegment
      let rest ← parsePathSegments budget
      pure (seg :: rest)
    | _ => pure []

/-- The roots that are a single word. -/
def plainRoot : String → Option Root
  | "input" => some .input
  | "config" => some .config
  | "secrets" => some .secrets
  | "trigger" => some .trigger
  | "vars" => some .vars
  | "item" => some .item
  | _ => none

def parseRoot : Parser Root := do
  let tok ← peek
  match tok.kind.ident? with
  | none => pure .implicit
  | some name =>
    match plainRoot name with
    | some root => do
      let _ ← bump
      pure root
    | none =>
      if name = "steps" then do
        let _ ← bump
        let _ ← expect .dot
        let id ← identOr "expected step id after `$steps.`"
        pure (.steps id)
      else
        fail ("unknown reference root `$" ++ name ++
          "` (expected input/steps/config/secrets/trigger/vars/item or `.`)") tok.start

def parseReference : Parser Reference := do
  let _ ← expect .dollar
  let root ← parseRoot
  let s ← get
  let path ← parsePathSegments s.tokens.length
  pure ⟨root, path⟩

def countOp (position : Nat) : Parser Unit := fun s =>
  if maxExprOps < s.ops + 1 then
    .error (.unexpected "expression uses more than the maximum of 256 operators" position)
  else .ok ((), { s with ops := s.ops + 1 })

/-- A left-associative run of operators.  Each round counts one operator, so after `maxExprOps`
rounds the next one is refused. -/
def binaryLoop (opOf : TokenKind → Option BinaryOp) (operand : Parser Expression) :
    Nat → Expression → Parser Expression
  | 0, left => do
    let tok ← peek
    match opOf tok.kind with
    | none => pure left
    | some _ => fail "expression uses more than the maximum of 256 operators" tok.start
  | budget + 1, left => do
    let tok ← peek
    match opOf tok.kind with
    | none => pure left
    | some op => do
      countOp tok.start
      let _ ← bump
      let right ← operand
      binaryLoop opOf operand budget (.binary op left right)

def binaryLevel (opOf : TokenKind → Option BinaryOp) (operand : Parser Expression) :
    Parser Expression := do
  let left ← operand
  binaryLoop opOf operand maxExprOps left

def comparisonOp : TokenKind → Option BinaryOp
  | .lt => some .lt
  | .le => some .le
  | .gt => some .gt
  | .ge => some .ge
  | _ => none

def equalityOp : TokenKind → Option BinaryOp
  | .eq => some .eq
  | .notEq => some .notEq
  | _ => none

def andOp : TokenKind → Option BinaryOp
  | .and => some .and
  | _ => none

def orOp : TokenKind → Option BinaryOp
  | .or => some .or
  | _ => none

def coalesceOp : TokenKind → Option BinaryOp
  | .coalesce => some .coalesce
  | _ => none

/-- The precedence levels over a given unary parser, from the loosest down. -/
def parseCoalesce (unary : Parser Expression) : Parser Expression :=
  binaryLevel coalesceOp <| binaryLevel orOp <| binaryLevel andOp <|
    binaryLevel equalityOp <| binaryLevel comparisonOp unary

/-- The primaries that do not nest. -/
def parseLeaf : Parser Expression := do
  let tok ← peek
  match tok.kind with
  | .dollar => do
    let r ← parseReference
    pure (.ref r)
  | .string s => do
    let _ ← bump
    pure (.literal (.string s))
  | .number n => do
    let _ ← bump
    pure (.literal (.number n))
  | .trueLit => do
    let _ ← bump
    pure (.literal (.bool true))
  | .falseLit => do
    let _ ← bump
    pure (.literal (.bool false))
  | .nullLit => do
    let _ ← bump
    pure (.literal .null)
  | other => fail ("expected expression, found `" ++ other.display ++ "`") tok.start

/-- `!`, a parenthesis or a primary, with `room` levels of nesting left. -/
def parseUnary : Nat → Parser Expression
  | 0 => do
    let tok ← peek
    match tok.kind with
    | .not | .lParen => fail "expression nesting exceeds the maximum depth of 128" tok.start
    | _ => parseLeaf
  | room + 1 => do
    let tok ← peek
    match tok.kind with
    | .not => do
      let _ ← bump
      let inner ← parseUnary room
      pure (.not inner)
    | .lParen => do
      let _ ← bump
      let e ← parseCoalesce (parseUnary room)
      let _ ← expect .rParen
      pure e
    | _ => parseLeaf

def parseExpression : Parser Expression := parseCoalesce (parseUnary maxExprDepth)

/-- Run a parser over a whole source. -/
def runAll {α : Type} (p : Parser α) (src : List Char) : Except ParseError α :=
  match tokenize src with
  | .error e => .error (.lex e)
  | .ok tokens =>
    match (do let a ← p; expectEof; pure a : Parser α) ⟨tokens, 0⟩ with
    | .error e => .error e
    | .ok (a, _) => .ok a

end Parser

def parseReference (src : String) : Except ParseError Reference :=
  Parser.runAll Parser.parseReference src.toList

def parseExpression (src : String) : Except ParseError Expression :=
  Parser.runAll Parser.parseExpression src.toList

end Gwead.Dsl
