import Mathlib.Algebra.Group.Int.Defs
import Mathlib.Algebra.GroupWithZero.Nat
import Mathlib.Data.List.Basic
import Mathlib.Order.Lattice

/-!
# Iterators

An iterator is a state and what it yields next.  What it yields until it ends is a relation, so
that an iterator that never ends yields no list.
-/

variable {σ α : Type} {next : σ → Option (α × σ)}

inductive Yields (next : σ → Option (α × σ)) : σ → List α → Prop
  | done {s : σ} (h : next s = none) : Yields next s []
  | item {s s' : σ} {a : α} {items : List α} (h : next s = some (a, s'))
      (rest : Yields next s' items) : Yields next s (a :: items)

namespace Yields

theorem unique {s : σ} {items items' : List α} (h : Yields next s items)
    (h' : Yields next s items') : items = items' := by
  induction h generalizing items' with
  | done hnone =>
    cases h' with
    | done _ => rfl
    | item hsome _ => cases hnone.symm.trans hsome
  | item hsome _ ih =>
    cases h' with
    | done hnone => cases hsome.symm.trans hnone
    | item hsome' rest =>
      cases hsome.symm.trans hsome'
      rw [ih rest]

/-- What relates each item to the one that is yielded after it relates the neighbours. -/
theorem isChain {R : α → α → Prop} {s : σ} {items : List α} (h : Yields next s items)
    (hstep : ∀ s s' s'' a b, next s = some (a, s') → next s' = some (b, s'') → R a b) :
    items.IsChain R := by
  induction h with
  | done _ => exact .nil
  | item hsome rest ih =>
    cases rest with
    | done _ => exact .singleton _
    | item hsome' _ => exact .cons_cons (hstep _ _ _ _ _ hsome hsome') ih

end Yields
