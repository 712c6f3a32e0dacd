import Gwead.Lib.Binary64

/-!
# Syntax of the reference language

A reference is a root and a path; an expression combines references and literals with boolean
and comparison operators.
-/

namespace Gwead.Dsl

/-- Which part of the execution context a path starts from.  `implicit` is a bare `$`. -/
inductive Root where
  | input
  | steps (id : String)
  | config
  | secrets
  | trigger
  | vars
  | item
  | implicit
  deriving DecidableEq

inductive PathSegment where
  | field (name : String)
  | index (i : Nat)
  | wildcard
  | filterEq (field value : String)
  deriving DecidableEq

structure Reference where
  root : Root
  path : List PathSegment
  deriving DecidableEq

inductive Literal where
  | string (s : String)
  | number (n : Binary64)
  | bool (b : Bool)
  | null
  deriving DecidableEq

inductive BinaryOp where
  | eq | notEq | lt | le | gt | ge | and | or | coalesce
  deriving DecidableEq

inductive Expression where
  | literal (l : Literal)
  | ref (r : Reference)
  | not (e : Expression)
  | binary (op : BinaryOp) (l r : Expression)
  deriving DecidableEq

/-- The references an expression contains, from left to right. -/
def Expression.refs : Expression → List Reference
  | literal _ => []
  | ref r => [r]
  | not e => e.refs
  | binary _ l r => l.refs ++ r.refs

end Gwead.Dsl
