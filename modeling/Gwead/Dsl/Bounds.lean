import Gwead.Dsl.Descent

/-!
# How deep an accepted expression is

A nested operand costs a level of depth and a binary operator one of the operators, so both limits
together bound the height of the tree.  The parser itself recurses along the nesting alone.
-/

namespace Gwead.Dsl

/-- The nodes on the longest way from the root to a leaf. -/
def Expression.height : Expression → Nat
  | .not e => e.height + 1
  | .binary _ l r => max l.height r.height + 1
  | _ => 1

/-- How many binary nodes there are. -/
def Expression.binaries : Expression → Nat
  | .not e => e.binaries
  | .binary _ l r => l.binaries + r.binaries + 1
  | _ => 0

def Written.Expression.height : Written.Expression → Nat
  | .not e => e.height + 1
  | .binary _ l r => max l.height r.height + 1
  | _ => 1

/-- Reading the numbers keeps the shape of the tree. -/
theorem Written.Expression.read_shape {reading : Numeral → Option Nat} {w : Written.Expression}
    {e : Dsl.Expression} (h : w.read reading = some e) :
    e.height = w.height ∧ e.binaries = w.ops := by
  induction w generalizing e with
  | ref r =>
    obtain ⟨r', -, rfl⟩ := Option.map_eq_some_iff.mp h
    exact ⟨rfl, rfl⟩
  | not w ih =>
    obtain ⟨e', he, rfl⟩ := Option.map_eq_some_iff.mp h
    obtain ⟨hheight, hops⟩ := ih he
    exact ⟨congrArg (· + 1) hheight, hops⟩
  | binary op l r ihl ihr =>
    obtain ⟨a, hl, h⟩ := Option.bind_eq_some_iff.mp h
    obtain ⟨b, hr, rfl⟩ := Option.map_eq_some_iff.mp h
    obtain ⟨hheight, hops⟩ := ihl hl
    obtain ⟨hheight', hops'⟩ := ihr hr
    constructor
    · simp only [Dsl.Expression.height, Written.Expression.height, hheight, hheight']
    · simp only [Dsl.Expression.binaries, Written.Expression.ops, hops, hops']
  | _ =>
    cases h
    exact ⟨rfl, rfl⟩

/-- As high as its operators and so many levels of nesting allow. -/
def Written.Expression.Within (depth : Nat) (w : Written.Expression) : Prop :=
  w.height ≤ depth + w.ops + 1

theorem IsLeaf.within {ls : List Lexeme} {w : Written.Expression} (h : IsLeaf ls w) (depth : Nat) :
    w.Within depth := by
  cases h <;> simp [Written.Expression.Within, Written.Expression.height, Written.Expression.ops]

section Levels

variable {operators : Operators} {operand : List Lexeme → Written.Expression → Prop} {depth : Nat}

/-- One more operator pays for the node above both operands. -/
theorem Rounds.within (hoperand : ∀ ls w, operand ls w → w.Within depth)
    {left w : Written.Expression} {ls : List Lexeme} (h : Rounds operators operand left ls w)
    (hleft : left.Within depth) : w.Within depth := by
  induction h with
  | done => exact hleft
  | more listed hop hright tail ih =>
    refine ih ?_
    have hr := hoperand _ _ hright
    simp only [Written.Expression.Within, Written.Expression.height, Written.Expression.ops]
      at hleft hr ⊢
    omega

theorem IsLevel.within (hoperand : ∀ ls w, operand ls w → w.Within depth) (ls : List Lexeme)
    (w : Written.Expression) (h : IsLevel operators operand ls w) : w.Within depth := by
  cases h with
  | mk hfirst tail => exact tail.within hoperand (hoperand _ _ hfirst)

theorem IsBinary.within {unary : List Lexeme → Written.Expression → Prop}
    (hunary : ∀ ls w, unary ls w → w.Within depth) : ∀ ls w, IsBinary unary ls w → w.Within depth := by
  refine List.foldlRecOn (motive := fun operand : List Lexeme → Written.Expression → Prop =>
    ∀ ls w, operand ls w → w.Within depth) precedence _ hunary fun operand hoperand operators _ => ?_
  exact IsLevel.within hoperand

end Levels

theorem IsUnary.within {depth : Nat} : ∀ ls w, IsUnary depth ls w → w.Within depth := by
  induction depth with
  | zero => exact fun ls w h => IsLeaf.within h 0
  | succ depth ih =>
    rintro ls w (h | ⟨inner, w', h, -, rfl⟩ | ⟨inner, h, -⟩)
    · exact h.within _
    · have hinner := ih _ _ h
      simp only [Written.Expression.Within, Written.Expression.height, Written.Expression.ops]
        at hinner ⊢
      omega
    · have hinner := IsBinary.within ih _ _ h
      simp only [Written.Expression.Within] at hinner ⊢
      omega

/-- An accepted expression is bounded by both limits. -/
theorem parseExpression_within {src : String} {e : Expression} (h : parseExpression src = .ok e) :
    e.binaries ≤ maxExprOps ∧ e.height ≤ maxExprDepth + maxExprOps + 1 := by
  obtain ⟨w, ⟨ls, -, hphrase⟩, hops, hread⟩ := parseExpression_ok.mp h
  obtain ⟨hheight, hbinaries⟩ := Written.Expression.read_shape hread
  have hwithin := IsBinary.within IsUnary.within ls w hphrase
  rw [Written.Expression.Within] at hwithin
  exact ⟨by omega, by omega⟩

/-- For every source the descent gives the parser's result, on at most nine calls for each level
of nesting the limit allows; an accepted expression is bounded in operators and height, and the
depth counter is back at zero. -/
theorem parse_bounded (src : String) :
    (Descent.run src).1 = parseExpression src ∧
      (Descent.run src).2.peak ≤ 9 * maxExprDepth ∧
      ∀ e, (Descent.run src).1 = .ok e →
        e.binaries ≤ maxExprOps ∧ e.height ≤ maxExprDepth + maxExprOps + 1 ∧
          (Descent.run src).2.depth = 0 := by
  obtain ⟨hresult, hpeak, hback⟩ := Descent.run_follows src
  refine ⟨hresult, hpeak.trans (by decide), fun e he => ?_⟩
  rw [hresult] at he
  obtain ⟨hbinaries, hheight⟩ := parseExpression_within he
  exact ⟨hbinaries, hheight, (hback e he).1⟩

end Gwead.Dsl
