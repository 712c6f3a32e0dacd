import Mathlib.Algebra.Group.Int.Defs
import Mathlib.Algebra.GroupWithZero.Nat
import Mathlib.Order.Lattice

/-!
# ASCII classes as ranges

The tests of `Char` on ASCII letters and digits, as bounds on the character's number.
-/

namespace Ascii

variable {c : Char}

theorem isUpper_iff : c.isUpper = true ↔ 65 ≤ c.toNat ∧ c.toNat ≤ 90 := by
  change decide _ = true ↔ _
  rw [decide_eq_true_iff]
  exact and_congr UInt32.le_iff_toNat_le UInt32.le_iff_toNat_le

theorem isLower_iff : c.isLower = true ↔ 97 ≤ c.toNat ∧ c.toNat ≤ 122 := by
  change (decide _ && decide _) = true ↔ _
  rw [Bool.and_eq_true, decide_eq_true_iff, decide_eq_true_iff]
  exact and_congr UInt32.le_iff_toNat_le UInt32.le_iff_toNat_le

theorem isDigit_iff : c.isDigit = true ↔ 48 ≤ c.toNat ∧ c.toNat ≤ 57 := by
  change (decide _ && decide _) = true ↔ _
  rw [Bool.and_eq_true, decide_eq_true_iff, decide_eq_true_iff]
  exact and_congr UInt32.le_iff_toNat_le UInt32.le_iff_toNat_le

theorem isAlpha_iff :
    c.isAlpha = true ↔ (65 ≤ c.toNat ∧ c.toNat ≤ 90) ∨ (97 ≤ c.toNat ∧ c.toNat ≤ 122) :=
  (Bool.or_eq_true _ _).to_iff.trans (or_congr isUpper_iff isLower_iff)

theorem isAlphanum_iff : c.isAlphanum = true ↔
    ((65 ≤ c.toNat ∧ c.toNat ≤ 90) ∨ (97 ≤ c.toNat ∧ c.toNat ≤ 122)) ∨
      (48 ≤ c.toNat ∧ c.toNat ≤ 57) :=
  (Bool.or_eq_true _ _).to_iff.trans (or_congr isAlpha_iff isDigit_iff)

end Ascii
