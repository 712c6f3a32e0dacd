import Mathlib.Algebra.Group.Int.Defs
import Mathlib.Algebra.GroupWithZero.Nat
import Mathlib.Logic.Function.Basic
import Mathlib.Order.Lattice

/-!
# A gate

Parties in phases, some of which lie behind a gate.  The gate is exclusive when its holder is the
one party behind it.
-/

namespace Gate

variable {φ : Type} {inside : φ → Prop} {gate : Option Nat} {phase : Nat → φ} {r : Nat} {p : φ}

def Exclusive (inside : φ → Prop) (gate : Option Nat) (phase : Nat → φ) : Prop :=
  ∀ r, inside (phase r) ↔ gate = some r

theorem exclusive_start (h : ∀ r, ¬inside (phase r)) : Exclusive inside none phase :=
  fun r => iff_of_false (h r) nofun

/-- A party that stays on its side of the gate. -/
theorem Exclusive.keep (h : Exclusive inside gate phase) (hsame : inside p ↔ inside (phase r)) :
    Exclusive inside gate (Function.update phase r p) := by
  intro q
  by_cases hq : q = r
  · subst hq
    rw [Function.update_self, hsame, h q]
  · rw [Function.update_of_ne hq, h q]

theorem Exclusive.enter (h : Exclusive inside none phase) (hp : inside p) :
    Exclusive inside (some r) (Function.update phase r p) := by
  intro q
  by_cases hq : q = r
  · subst hq
    rw [Function.update_self]
    exact iff_of_true hp rfl
  · rw [Function.update_of_ne hq, h q]
    exact iff_of_false nofun fun he => hq (Option.some.inj he).symm

theorem Exclusive.leave (h : Exclusive inside gate phase) (hr : inside (phase r))
    (hp : ¬inside p) : Exclusive inside none (Function.update phase r p) := by
  intro q
  by_cases hq : q = r
  · subst hq
    rw [Function.update_self]
    exact iff_of_false hp nofun
  · rw [Function.update_of_ne hq, h q, (h r).mp hr]
    exact iff_of_false (fun he => hq (Option.some.inj he).symm) nofun

/-- Nobody else is behind the gate. -/
theorem Exclusive.unique (h : Exclusive inside gate phase) {q : Nat} (hr : inside (phase r))
    (hq : inside (phase q)) : q = r := by
  have hgate := (h r).mp hr
  rw [(h q).mp hq] at hgate
  exact Option.some.inj hgate

end Gate
