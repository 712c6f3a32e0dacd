import Gwead.Value
import Gwead.Dsl.Ast

/-!
# Evaluator of the reference language

A reference selects values from its root, one path segment at a time.  An empty selection reads
as null, a single value as itself and anything longer as an array.
-/

namespace Gwead.Dsl

/-- What the roots of a reference stand for.  `steps` is an object keyed by step id. -/
structure EvalContext where
  input : Option Value
  steps : Option Value
  config : Option Value
  secrets : Option Value
  trigger : Option Value
  vars : Option Value
  item : Option Value
  implicitSource : Option Value

def resolveRoot (root : Root) (ctx : EvalContext) : Option Value :=
  match root with
  | .implicit => ctx.implicitSource
  | .input => ctx.input
  | .config => ctx.config
  | .secrets => ctx.secrets
  | .trigger => ctx.trigger
  | .vars => ctx.vars
  | .item => ctx.item
  | .steps id => ctx.steps.bind fun s => s.get id

def fieldEqualsString (v : Value) (field expected : String) : Bool :=
  match v.get field with
  | some (.string s) => s == expected
  | _ => false

/-- What one selected value contributes to the next selection. -/
def applyOne (seg : PathSegment) (v : Value) : List Value :=
  match seg, v with
  | .field name, .object fields => (fields.lookup name).toList
  | .index i, .array items => items[i]?.toList
  | .wildcard, .array items => items
  | .filterEq field value, .array items => items.filter (fieldEqualsString · field value)
  | _, _ => []

def applySegment (seg : PathSegment) (sel : List Value) : List Value :=
  sel.flatMap (applyOne seg)

/-- Follow a path; an empty selection stays empty. -/
def select (path : List PathSegment) (sel : List Value) : List Value :=
  path.foldl (fun sel seg => applySegment seg sel) sel

/-- The unwrap-singleton convention. -/
def collapse : List Value → Value
  | [] => .null
  | [v] => v
  | sel => .array sel

def evalReference (r : Reference) (ctx : EvalContext) : Value :=
  match resolveRoot r.root ctx with
  | none => .null
  | some root => collapse (select r.path [root])

def literalToValue : Literal → Value
  | .string s => .string s
  | .number n =>
    -- A whole number in the signed 64-bit range becomes an integer again.  The upper bound is
    -- compared as a float, where it rounds up to 2^63; the conversion saturates there.
    if n.isInteger && (Binary64.ofInt (-2 ^ 63)).le n && n.le (Binary64.ofInt (2 ^ 63 - 1)) then
      .number (Number.ofI64 (n.toSigned 64))
    else if h : n.isFinite = true then .number (.float n h) else .null
  | .bool b => .bool b
  | .null => .null

def valuesEqual (a b : Value) : Bool :=
  match a.asF64, b.asF64 with
  | some la, some lb => la.eq lb
  | _, _ => a.eqv b

def valuesOrdered (op : BinaryOp) (a b : Value) : Bool :=
  match a.asF64, b.asF64 with
  | some la, some lb =>
    match op with
    | .lt => la.lt lb
    | .le => la.le lb
    | .gt => lb.lt la
    | .ge => lb.le la
    | _ => false
  | _, _ => false

/-- Null, false, zero and empty strings, arrays and objects are falsy. -/
def isTruthy : Value → Bool
  | .null => false
  | .bool b => b
  | .number n => !n.asF64.eq Binary64.zero
  | .string s => !s.isEmpty
  | .array items => !items.isEmpty
  | .object fields => !fields.isEmpty

def evalExpression (e : Expression) (ctx : EvalContext) : Value :=
  match e with
  | .literal l => literalToValue l
  | .ref r => evalReference r ctx
  | .not inner => .bool (!isTruthy (evalExpression inner ctx))
  | .binary op l r =>
    let left := evalExpression l ctx
    match op with
    | .eq => .bool (valuesEqual left (evalExpression r ctx))
    | .notEq => .bool (!valuesEqual left (evalExpression r ctx))
    | .lt | .le | .gt | .ge => .bool (valuesOrdered op left (evalExpression r ctx))
    | .and => if isTruthy left then .bool (isTruthy (evalExpression r ctx)) else .bool false
    | .or => if isTruthy left then .bool true else .bool (isTruthy (evalExpression r ctx))
    | .coalesce => if left.isNull then evalExpression r ctx else left

@[simp] theorem applySegment_nil (seg : PathSegment) : applySegment seg [] = [] := rfl

@[simp] theorem select_nil_path (sel : List Value) : select [] sel = sel := rfl

@[simp] theorem select_cons (seg : PathSegment) (path : List PathSegment) (sel : List Value) :
    select (seg :: path) sel = select path (applySegment seg sel) := rfl

@[simp] theorem select_nil (path : List PathSegment) : select path [] = [] := by
  induction path with
  | nil => rfl
  | cons seg path ih => simpa using ih

theorem applySegment_singleton (seg : PathSegment) (v : Value) :
    applySegment seg [v] = applyOne seg v := by
  simp [applySegment]

/-- An expression reads its context only through the references it contains. -/
theorem evalExpression_congr (e : Expression) (c c' : EvalContext)
    (h : ∀ r ∈ e.refs, evalReference r c = evalReference r c') :
    evalExpression e c = evalExpression e c' := by
  induction e with
  | literal l => rfl
  | ref r => exact h r List.mem_cons_self
  | not e ih =>
    have he := ih h
    simp only [evalExpression, he]
  | binary op l r ihl ihr =>
    have hl := ihl fun x hx => h x (List.mem_append_left _ hx)
    have hr := ihr fun x hx => h x (List.mem_append_right _ hx)
    simp only [evalExpression, hl, hr]

end Gwead.Dsl
