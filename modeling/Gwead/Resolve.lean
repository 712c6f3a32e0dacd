import Gwead.Dsl.Eval
import Gwead.Dsl.Parser
import Mathlib.Data.List.DropRight

/-!
# Template resolution

`{{expression}}` placeholders inside the strings of a value.  The text between the braces is an
expression of the reference language, evaluated against one object, the variables bag.
-/

namespace Gwead

open Dsl

/-- The Unicode `White_Space` property, which is what trimming removes. -/
def isWhiteSpace (c : Char) : Bool :=
  let n := c.toNat
  (9 ≤ n && n ≤ 13) || n == 0x20 || n == 0x85 || n == 0xA0 || n == 0x1680 ||
    (0x2000 ≤ n && n ≤ 0x200A) || n == 0x2028 || n == 0x2029 || n == 0x202F || n == 0x205F ||
    n == 0x3000

def trim (cs : List Char) : List Char := (cs.dropWhile isWhiteSpace).rdropWhile isWhiteSpace

/-- The shortest text up to the first `}}`, on one line. -/
def lazyBody : List Char → Option (List Char)
  | [] => none
  | c :: cs =>
    if c = '}' ∧ cs.head? = some '}' then some []
    else if c = '\n' then none
    else (lazyBody cs).map (c :: ·)

/-- The text captured by `\{\{(.+?)}}` when it matches at the head. -/
def templateAt : List Char → Option (List Char)
  | '{' :: '{' :: c :: cs => if c = '\n' then none else (lazyBody cs).map (c :: ·)
  | _ => none

/-- Replace every match, from left to right; `skip` counts what is left of the last match. -/
def replaceTemplates (f : List Char → List Char) : Nat → List Char → List Char
  | _, [] => []
  | skip + 1, _ :: cs => replaceTemplates f skip cs
  | 0, c :: cs =>
    match templateAt (c :: cs) with
    | some body => f body ++ replaceTemplates f (body.length + 3) cs
    | none => c :: replaceTemplates f 0 cs

/-- The captured texts, in the order they are replaced. -/
def templateBodies : Nat → List Char → List (List Char)
  | _, [] => []
  | skip + 1, _ :: cs => templateBodies skip cs
  | 0, c :: cs =>
    match templateAt (c :: cs) with
    | some body => body :: templateBodies (body.length + 3) cs
    | none => templateBodies 0 cs

def hasDouble (c : Char) : List Char → Bool
  | a :: b :: rest => (a == c && b == c) || hasDouble c (b :: rest)
  | _ => false

def stripPrefixPair (c : Char) : List Char → Option (List Char)
  | a :: b :: rest => if a == c && b == c then some rest else none
  | _ => none

/-- The expression of a string that is one template and nothing else. -/
def singleTemplateExpression (s : List Char) : Option (List Char) :=
  match stripPrefixPair '{' (trim s) with
  | none => none
  | some afterOpen =>
    match stripPrefixPair '}' afterOpen.reverse with
    | none => none
    | some innerReversed =>
      let inner := innerReversed.reverse
      if hasDouble '{' inner || hasDouble '}' inner then none else some (trim inner)

/-- The implicit root and `$input` are the bag itself; every other root is one of its fields. -/
def buildDslContext (bag : Value) : EvalContext where
  input := some bag
  steps := bag.get "steps"
  config := bag.get "config"
  secrets := bag.get "secrets"
  trigger := bag.get "trigger"
  vars := bag.get "vars"
  item := bag.get "item"
  implicitSource := some bag

section Text

variable (floatText : Binary64 → String)

def numberText : Number → String
  | .posInt n _ => n.repr
  | .negInt i _ => "-" ++ i.natAbs.repr
  | .float f _ => floatText f

def hexDigit (n : Nat) : Char := Nat.digitChar n

def escapeChar (c : Char) : List Char :=
  if c = '"' then ['\\', '"']
  else if c = '\\' then ['\\', '\\']
  else if c.toNat = 8 then ['\\', 'b']
  else if c.toNat = 12 then ['\\', 'f']
  else if c = '\n' then ['\\', 'n']
  else if c = '\r' then ['\\', 'r']
  else if c = '\t' then ['\\', 't']
  else if c.toNat < 0x20 then
    ['\\', 'u', '0', '0', hexDigit (c.toNat / 16), hexDigit (c.toNat % 16)]
  else [c]

def quoteText (s : String) : String :=
  "\"" ++ String.ofList (s.toList.flatMap escapeChar) ++ "\""

mutual

/-- Compact JSON. -/
def jsonText : Value → String
  | .null => "null"
  | .bool b => if b then "true" else "false"
  | .number n => numberText floatText n
  | .string s => quoteText s
  | .array items => "[" ++ ",".intercalate (jsonItems items) ++ "]"
  | .object fields => "\x7b" ++ ",".intercalate (jsonFields fields) ++ "\x7d"

def jsonItems : List Value → List String
  | [] => []
  | v :: rest => jsonText v :: jsonItems rest

def jsonFields : List (String × Value) → List String
  | [] => []
  | (k, v) :: rest => (quoteText k ++ ":" ++ jsonText v) :: jsonFields rest

end

def valueToString : Value → String
  | .string s => s
  | .number n => numberText floatText n
  | .bool b => if b then "true" else "false"
  | .null => ""
  | other => jsonText floatText other

/-- `{{value}}` is a marker of another layer and stays as it is. -/
def resolveExpressionToString (expr : List Char) (bag : Value) : List Char :=
  if expr = ['v', 'a', 'l', 'u', 'e'] then "\x7b\x7bvalue\x7d\x7d".toList
  else
    match Parser.runAll Parser.parseExpression expr with
    | .ok parsed =>
      (valueToString floatText (evalExpression parsed (buildDslContext bag))).toList
    | .error _ => []

def resolve (template : String) (bag : Value) : String :=
  String.ofList <|
    replaceTemplates (fun body => resolveExpressionToString floatText (trim body) bag) 0
      template.toList

def resolveStringAsValue (s : String) (bag : Value) : Value :=
  match singleTemplateExpression s.toList with
  | none => .string (resolve floatText s bag)
  | some expr =>
    if expr = ['v', 'a', 'l', 'u', 'e'] then .string s
    else
      match Parser.runAll Parser.parseExpression expr with
      | .error _ => .string (resolve floatText s bag)
      | .ok parsed =>
        let value := evalExpression parsed (buildDslContext bag)
        if value.isNull then .string "" else value

mutual

/-- Resolve the templates of every string of a value; object keys are left alone. -/
def resolveValue (value bag : Value) : Value :=
  match value with
  | .string s => resolveStringAsValue floatText s bag
  | .object fields => .object (resolveFields fields bag)
  | .array items => .array (resolveItems items bag)
  | other => other

def resolveItems (items : List Value) (bag : Value) : List Value :=
  match items with
  | [] => []
  | v :: rest => resolveValue v bag :: resolveItems rest bag

def resolveFields (fields : List (String × Value)) (bag : Value) : List (String × Value) :=
  match fields with
  | [] => []
  | (k, v) :: rest => (k, resolveValue v bag) :: resolveFields rest bag

end

end Text

end Gwead
