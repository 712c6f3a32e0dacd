import Gwead.Dsl.Lexer

/-!
# The published grammar

The productions of the language's README over terminals.  A derivation gives the tree as it is
written, with its numbers still numerals; `read` turns the numerals into numbers and so gives the
tree of the abstract syntax.
-/

namespace Gwead.Dsl

/-- A property of the characters of a list is decided along the list. -/
instance (priority := high) decidableAllChars (p : Char → Prop) [DecidablePred p]
    (cs : List Char) : Decidable (∀ c ∈ cs, p c) :=
  List.decidableBAll p cs

instance (priority := high) decidableAnyChar (p : Char → Prop) [DecidablePred p]
    (c? : Option Char) : Decidable (∃ c ∈ c?, p c) :=
  Option.decidableExistsMem c?

/-- `number = [ "-" ] 1*DIGIT [ "." 1*DIGIT ]`; an absent fraction is an empty one. -/
structure Numeral where
  neg : Bool
  whole : List Char
  frac : List Char
  nonempty : whole ≠ []
  whole_digits : ∀ c ∈ whole, c.isDigit
  frac_digits : ∀ c ∈ frac, c.isDigit
  deriving DecidableEq

namespace Numeral

def spelling (n : Numeral) : List Char :=
  (if n.neg then ['-'] else []) ++ n.whole ++ (if n.frac = [] then [] else '.' :: n.frac)

/-- The binary64 value of a number literal. -/
def value (n : Numeral) : Binary64 := .ofDecimal n.neg n.whole n.frac

/-- `index = 1*DIGIT`, and the tolerated integer-valued float: the natural number a numeral
writes, where it writes one. -/
def index (n : Numeral) : Option Nat :=
  if (∀ c ∈ n.frac, c = '0') ∧ (n.neg → ∀ c ∈ n.whole, c = '0') then
    some (Binary64.digitsValue n.whole)
  else none

/-- The index the parser takes from a numeral, which it has as a binary64 value by then. -/
def indexThroughF64 (n : Numeral) : Option Nat :=
  if n.value.lt Binary64.zero || !n.value.isInteger then none else some (n.value.toUnsigned 64)

end Numeral

/-- `( ALPHA / "_" ) *( ALPHA / DIGIT / "_" / "-" )`. -/
def IsWord (cs : List Char) : Prop :=
  (∃ c ∈ cs.head?, c.isAlpha ∨ c = '_') ∧ ∀ c ∈ cs, c.isAlpha ∨ c.isDigit ∨ c = '_' ∨ c = '-'

instance (cs : List Char) : Decidable (IsWord cs) := inferInstanceAs (Decidable (_ ∧ _))

/-- The quoted terminals of the productions that are not words. -/
def symbols : List TokenKind :=
  [.dollar, .dot, .lBracket, .rBracket, .lParen, .rParen, .question, .at, .star, .eq, .notEq,
    .lt, .le, .gt, .ge, .not, .and, .or, .coalesce]

/-- A terminal: what whitespace may separate but not split. -/
inductive Lexeme where
  | symbol (kind : TokenKind) (listed : kind ∈ symbols)
  | word (text : List Char) (shape : IsWord text)
  | numeral (n : Numeral)
  | text (content : List Char) (unquoted : '\'' ∉ content)
  deriving DecidableEq

namespace Lexeme

def spelling : Lexeme → List Char
  | symbol k _ => k.display.toList
  | word cs _ => cs
  | numeral n => n.spelling
  | text cs _ => '\'' :: cs ++ ['\'']

end Lexeme

/-- A terminal of punctuation. -/
def sym (k : TokenKind) (listed : k ∈ symbols := by decide) : Lexeme := .symbol k listed

/-- A terminal that is a fixed word. -/
def quoted (s : String) (shape : IsWord s.toList := by decide) : Lexeme := .word s.toList shape

/-- A source spells a sequence of terminals: whitespace may stand before each of them and at the
end. -/
inductive Spelled : List Lexeme → List Char → Prop
  | nil {ws : List Char} (blank : ∀ c ∈ ws, isSpace c) : Spelled [] ws
  | cons {l : Lexeme} {ls : List Lexeme} {ws rest : List Char} (blank : ∀ c ∈ ws, isSpace c)
      (tail : Spelled ls rest) : Spelled (l :: ls) (ws ++ (l.spelling ++ rest))

namespace Written

inductive Segment where
  | field (name : String)
  | index (n : Numeral)
  | wildcard
  | filterEq (field value : String)

structure Reference where
  root : Root
  path : List Segment

inductive Expression where
  | string (s : String)
  | number (n : Numeral)
  | bool (b : Bool)
  | null
  | ref (r : Reference)
  | not (e : Expression)
  | binary (op : BinaryOp) (l r : Expression)

/-- The number in brackets, where the segment has one. -/
def Segment.numerals : Segment → List Numeral
  | .index n => [n]
  | _ => []

def Reference.numerals (r : Reference) : List Numeral := r.path.flatMap Segment.numerals

/-- The numbers an expression has in brackets. -/
def Expression.numerals : Expression → List Numeral
  | .ref r => r.numerals
  | .not e => e.numerals
  | .binary _ l r => l.numerals ++ r.numerals
  | _ => []

/-- How many binary operators an expression has. -/
def Expression.ops : Expression → Nat
  | .not e => e.ops
  | .binary _ l r => l.ops + r.ops + 1
  | _ => 0

section Read

variable (reading : Numeral → Option Nat)

/-- The segment a written one stands for, by a reading of the number in brackets. -/
def Segment.read : Segment → Option PathSegment
  | .field name => some (.field name)
  | .index n => (reading n).map .index
  | .wildcard => some .wildcard
  | .filterEq name value => some (.filterEq name value)

def readPath : List Segment → Option (List PathSegment)
  | [] => some []
  | seg :: path => (seg.read reading).bind fun s => (readPath path).map (s :: ·)

def Reference.read (r : Reference) : Option Dsl.Reference :=
  (readPath reading r.path).map (Dsl.Reference.mk r.root)

def Expression.read : Expression → Option Dsl.Expression
  | .string s => some (.literal (.string s))
  | .number n => some (.literal (.number n.value))
  | .bool b => some (.literal (.bool b))
  | .null => some (.literal .null)
  | .ref r => (r.read reading).map .ref
  | .not e => e.read.map .not
  | .binary op l r => l.read.bind fun a => r.read.map (.binary op a)

end Read

end Written

/-! ### Productions -/

/-- `reserved-word`. -/
def reservedWords : List String := ["true", "false", "null"]

/-- `ident`, and the name it spells. -/
inductive Ident : Lexeme → String → Prop
  | mk {cs : List Char} {shape : IsWord cs} (free : String.ofList cs ∉ reservedWords) :
      Ident (.word cs shape) (String.ofList cs)

/-- `root-name`. -/
inductive RootName : List Lexeme → Root → Prop
  | input : RootName [quoted "input"] .input
  | config : RootName [quoted "config"] .config
  | trigger : RootName [quoted "trigger"] .trigger
  | secrets : RootName [quoted "secrets"] .secrets
  | vars : RootName [quoted "vars"] .vars
  | item : RootName [quoted "item"] .item
  | steps {l : Lexeme} {id : String} (hid : Ident l id) :
      RootName [quoted "steps", sym .dot, l] (.steps id)

/-- `path-segment`, with `index` and `filter` in place. -/
inductive IsSegment : List Lexeme → Written.Segment → Prop
  | field {l : Lexeme} {name : String} (hname : Ident l name) :
      IsSegment [sym .dot, l] (.field name)
  | index (n : Numeral) : IsSegment [sym .lBracket, .numeral n, sym .rBracket] (.index n)
  | wildcard : IsSegment [sym .lBracket, sym .star, sym .rBracket] .wildcard
  | filter {l : Lexeme} {name : String} {cs : List Char} {unquoted : '\'' ∉ cs}
      (hname : Ident l name) :
      IsSegment [sym .lBracket, sym .question, sym .lParen, sym .at, sym .dot, l, sym .eq,
        .text cs unquoted, sym .rParen, sym .rBracket] (.filterEq name (String.ofList cs))

/-- `*path-segment`. -/
inductive IsPath : List Lexeme → List Written.Segment → Prop
  | nil : IsPath [] []
  | cons {ls rest : List Lexeme} {seg : Written.Segment} {path : List Written.Segment}
      (head : IsSegment ls seg) (tail : IsPath rest path) : IsPath (ls ++ rest) (seg :: path)

/-- `reference`. -/
inductive IsReference : List Lexeme → Written.Reference → Prop
  | implicit {ls : List Lexeme} {path : List Written.Segment} (hpath : IsPath ls path) :
      IsReference (sym .dollar :: ls) ⟨.implicit, path⟩
  | rooted {rs ls : List Lexeme} {root : Root} {path : List Written.Segment}
      (hroot : RootName rs root) (hpath : IsPath ls path) :
      IsReference (sym .dollar :: (rs ++ ls)) ⟨root, path⟩

/-- The alternatives of `literal` and `primary` that do not nest. -/
inductive IsLeaf : List Lexeme → Written.Expression → Prop
  | trueLit : IsLeaf [quoted "true"] (.bool true)
  | falseLit : IsLeaf [quoted "false"] (.bool false)
  | nullLit : IsLeaf [quoted "null"] .null
  | number (n : Numeral) : IsLeaf [.numeral n] (.number n)
  | string (cs : List Char) (unquoted : '\'' ∉ cs) :
      IsLeaf [.text cs unquoted] (.string (String.ofList cs))
  | reference {ls : List Lexeme} {r : Written.Reference} (href : IsReference ls r) :
      IsLeaf ls (.ref r)

/-- The operators of one precedence level. -/
abbrev Operators := List (TokenKind × BinaryOp)

/-- `*( operator operand )` after what has been read so far, associating to the left. -/
inductive Rounds (operators : Operators) (operand : List Lexeme → Written.Expression → Prop) :
    Written.Expression → List Lexeme → Written.Expression → Prop
  | done {left : Written.Expression} : Rounds operators operand left [] left
  | more {left right e : Written.Expression} {k : TokenKind} {op : BinaryOp}
      {rs ls : List Lexeme} (listed : k ∈ symbols) (hop : (k, op) ∈ operators)
      (hright : operand rs right) (tail : Rounds operators operand (.binary op left right) ls e) :
      Rounds operators operand left (sym k listed :: (rs ++ ls)) e

/-- `operand *( operator operand )`. -/
inductive IsLevel (operators : Operators) (operand : List Lexeme → Written.Expression → Prop) :
    List Lexeme → Written.Expression → Prop
  | mk {fs ls : List Lexeme} {first e : Written.Expression} (hfirst : operand fs first)
      (tail : Rounds operators operand first ls e) : IsLevel operators operand (fs ++ ls) e

/-- The binary operators, from the tightest level to the loosest. -/
def precedence : List Operators :=
  [[(.lt, .lt), (.le, .le), (.gt, .gt), (.ge, .ge)],
    [(.eq, .eq), (.notEq, .notEq)],
    [(.and, .and)],
    [(.or, .or)],
    [(.coalesce, .coalesce)]]

/-- `comparison-expr` up to `coalesce-expr`, over a given `unary-expr`. -/
def IsBinary (unary : List Lexeme → Written.Expression → Prop) :
    List Lexeme → Written.Expression → Prop :=
  precedence.foldl (fun operand operators => IsLevel operators operand) unary

/-- `unary-expr` with at most `depth` nested `!` and `(`. -/
def IsUnary : Nat → List Lexeme → Written.Expression → Prop
  | 0, ls, e => IsLeaf ls e
  | depth + 1, ls, e =>
    IsLeaf ls e ∨
      (∃ inner e', IsUnary depth inner e' ∧ ls = sym .not :: inner ∧ e = .not e') ∨
      ∃ inner, IsBinary (IsUnary depth) inner e ∧ ls = sym .lParen :: (inner ++ [sym .rParen])

/-- `expression` with at most `depth` nested `!` and `(`. -/
def IsExpression (depth : Nat) : List Lexeme → Written.Expression → Prop :=
  IsBinary (IsUnary depth)

/-- A source derives from `reference`, with the tree it writes. -/
def WritesReference (src : String) (r : Written.Reference) : Prop :=
  ∃ ls, Spelled ls src.toList ∧ IsReference ls r

/-- A source derives from `expression` within a nesting depth, with the tree it writes. -/
def WritesExpression (depth : Nat) (src : String) (e : Written.Expression) : Prop :=
  ∃ ls, Spelled ls src.toList ∧ IsExpression depth ls e

end Gwead.Dsl
