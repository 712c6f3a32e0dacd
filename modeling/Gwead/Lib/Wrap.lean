import Mathlib.Algebra.Group.Int.Defs
import Mathlib.Algebra.GroupWithZero.Nat
import Mathlib.Data.Int.Basic
import Mathlib.Order.Lattice

/-!
# Casts to `i32`

A length cast to a 32-bit signed integer wraps around.
-/

namespace Wrap

/-- `n as i32`. -/
def asI32 (n : Nat) : Int := Int.bmod n (2 ^ 32)

theorem asI32_eq (n : Nat) : asI32 n =
    if (n : Int) % 4294967296 < 2147483648 then (n : Int) % 4294967296
    else (n : Int) % 4294967296 - 4294967296 := by
  have h : asI32 n = Int.bmod n 4294967296 := rfl
  rw [h, Int.bmod_def]
  rfl

/-- The lengths an `i32` holds. -/
def FitsI32 (n : Nat) : Prop := n < 2 ^ 31

instance (n : Nat) : Decidable (FitsI32 n) := inferInstanceAs (Decidable (n < 2 ^ 31))

theorem asI32_of_fits {n : Nat} (h : FitsI32 n) : asI32 n = n := by
  unfold FitsI32 at h
  rw [asI32_eq, if_pos (by omega)]
  omega

theorem asI32_lt {n : Nat} (h : ¬FitsI32 n) : 1 < n ∧ asI32 n < n := by
  unfold FitsI32 at h
  refine ⟨by omega, ?_⟩
  rw [asI32_eq]
  split <;> omega

theorem asI32_eq_zero {n : Nat} : asI32 n = 0 ↔ 2 ^ 32 ∣ n := by
  rw [asI32_eq]
  split <;> omega

attribute [irreducible] asI32

end Wrap
