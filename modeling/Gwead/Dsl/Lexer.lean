import Gwead.Dsl.Ast

/-!
# Lexer of the reference language

The source is a list of characters with the byte offset of its head, so that every token and
every error carries the position it starts at.  Outside string literals only ASCII has a
meaning, so reading characters and reading bytes agree.
-/

namespace Gwead.Dsl

inductive TokenKind where
  | dollar | dot | lBracket | rBracket | lParen | rParen | question | at | star
  | eq | notEq | lt | le | gt | ge | not | and | or | coalesce
  | ident (s : String)
  | string (s : String)
  | number (n : Binary64)
  | trueLit | falseLit | nullLit
  | eof
  deriving DecidableEq

def TokenKind.display : TokenKind → String
  | dollar => "$"
  | dot => "."
  | lBracket => "["
  | rBracket => "]"
  | lParen => "("
  | rParen => ")"
  | question => "?"
  | «at» => "@"
  | star => "*"
  | eq => "=="
  | notEq => "!="
  | lt => "<"
  | le => "<="
  | gt => ">"
  | ge => ">="
  | not => "!"
  | and => "&&"
  | or => "||"
  | coalesce => "??"
  | ident s => "ident(" ++ s ++ ")"
  | string s => "\"" ++ s ++ "\""
  | number n => n.display
  | trueLit => "true"
  | falseLit => "false"
  | nullLit => "null"
  | eof => "<eof>"

def TokenKind.ident? : TokenKind → Option String
  | ident s => some s
  | _ => none

structure Token where
  kind : TokenKind
  start : Nat
  deriving DecidableEq

structure LexError where
  message : String
  position : Nat
  deriving DecidableEq

/-- Bytes a run of characters takes in UTF-8. -/
def byteLen (cs : List Char) : Nat := (cs.map Char.utf8Size).sum

def isSpace (c : Char) : Bool := c == ' ' || c == '\t' || c == '\n' || c == '\r'

def isIdentStart (c : Char) : Bool := c.isAlpha || c == '_'

def isIdentChar (c : Char) : Bool := c.isAlphanum || c == '_' || c == '-'

/-- The first byte of a character's UTF-8 form, read as a character. -/
def leadByte (c : Char) : Char :=
  let n := c.toNat
  if n < 0x80 then c
  else if n < 0x800 then Char.ofNat (0xC0 + n / 0x40)
  else if n < 0x10000 then Char.ofNat (0xE0 + n / 0x1000)
  else Char.ofNat (0xF0 + n / 0x40000)

/-- How a byte shows in the error for an unexpected one. -/
def debugByte (c : Char) : String :=
  if c == '\\' then "'\\\\'"
  else if c.toNat = 0 then "'\\0'"
  else if c.toNat < 0x20 || c.toNat == 0x7f then
    "'\\u\x7b" ++ String.ofList (Nat.toDigits 16 c.toNat) ++ "\x7d'"
  else "'" ++ String.singleton c ++ "'"

def lexString (start : Nat) (cs : List Char) : Except LexError (Token × List Char × Nat) :=
  let content := cs.takeWhile (· != '\'')
  match cs.dropWhile (· != '\'') with
  | [] => .error ⟨"unterminated string literal", start⟩
  | _ :: rest => .ok (⟨.string (String.ofList content), start⟩, rest, start + byteLen content + 2)

def lexNumber (start : Nat) (cs : List Char) : Token × List Char × Nat :=
  let neg := cs.head? == some '-'
  let afterSign := if neg then cs.drop 1 else cs
  let whole := afterSign.takeWhile Char.isDigit
  let afterWhole := afterSign.dropWhile Char.isDigit
  let (frac, rest) : List Char × List Char :=
    match afterWhole with
    | '.' :: c :: tail =>
      if c.isDigit then ((c :: tail).takeWhile Char.isDigit, (c :: tail).dropWhile Char.isDigit)
      else ([], afterWhole)
    | _ => ([], afterWhole)
  (⟨.number (Binary64.ofDecimal neg whole frac), start⟩, rest, start + (cs.length - rest.length))

def keyword (raw : String) : TokenKind :=
  if raw = "true" then .trueLit
  else if raw = "false" then .falseLit
  else if raw = "null" then .nullLit
  else .ident raw

def lexIdent (start : Nat) (cs : List Char) : Token × List Char × Nat :=
  let raw := cs.takeWhile isIdentChar
  (⟨keyword (String.ofList raw), start⟩, cs.dropWhile isIdentChar, start + raw.length)

/-- Punctuation: its kind and how many characters it takes. -/
def punctuation : List Char → Option (TokenKind × Nat)
  | '$' :: _ => some (.dollar, 1)
  | '.' :: _ => some (.dot, 1)
  | '[' :: _ => some (.lBracket, 1)
  | ']' :: _ => some (.rBracket, 1)
  | '(' :: _ => some (.lParen, 1)
  | ')' :: _ => some (.rParen, 1)
  | '@' :: _ => some (.at, 1)
  | '*' :: _ => some (.star, 1)
  | '=' :: '=' :: _ => some (.eq, 2)
  | '!' :: '=' :: _ => some (.notEq, 2)
  | '&' :: '&' :: _ => some (.and, 2)
  | '|' :: '|' :: _ => some (.or, 2)
  | '?' :: '?' :: _ => some (.coalesce, 2)
  | '<' :: '=' :: _ => some (.le, 2)
  | '>' :: '=' :: _ => some (.ge, 2)
  | '<' :: _ => some (.lt, 1)
  | '>' :: _ => some (.gt, 1)
  | '!' :: _ => some (.not, 1)
  | '?' :: _ => some (.question, 1)
  | _ => none

/-- The token at the head of a source with no leading whitespace. -/
def lexToken (cs : List Char) (start : Nat) : Except LexError (Token × List Char × Nat) :=
  match cs with
  | [] => .ok (⟨.eof, start⟩, [], start)
  | c :: tail =>
    match punctuation (c :: tail) with
    | some (kind, n) => .ok (⟨kind, start⟩, (c :: tail).drop n, start + n)
    | none =>
      if c == '\'' then lexString start tail
      else if c.isDigit || (c == '-' && (tail.head?.any Char.isDigit)) then
        .ok (lexNumber start (c :: tail))
      else if isIdentStart c then .ok (lexIdent start (c :: tail))
      else .error ⟨"unexpected byte " ++ debugByte (leadByte c), start⟩

def nextToken (cs : List Char) (pos : Nat) : Except LexError (Token × List Char × Nat) :=
  lexToken (cs.dropWhile isSpace) (pos + (cs.takeWhile isSpace).length)

/-- Tokens up to the end of input.  Every token but the last takes a character, so a budget of
one more than the source's length is never exhausted. -/
def tokenizeFrom : Nat → List Char → Nat → Except LexError (List Token)
  | 0, _, pos => .ok [⟨.eof, pos⟩]
  | budget + 1, cs, pos =>
    match nextToken cs pos with
    | .error e => .error e
    | .ok (tok, rest, pos') =>
      if tok.kind = .eof then .ok [tok]
      else
        match tokenizeFrom budget rest pos' with
        | .error e => .error e
        | .ok toks => .ok (tok :: toks)

def tokenize (src : List Char) : Except LexError (List Token) :=
  tokenizeFrom (src.length + 1) src 0

end Gwead.Dsl
