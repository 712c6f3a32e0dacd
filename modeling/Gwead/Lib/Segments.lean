import Mathlib.Algebra.Group.Int.Defs
import Mathlib.Algebra.GroupWithZero.Nat
import Mathlib.Data.List.Basic
import Mathlib.Order.Lattice

/-!
# Segments of a text

A text between separators.  One text ends, or starts, with whole segments of another exactly when it
is the other, or stands there after, or before, a separator.
-/

namespace Segments

variable {α : Type} {sep : α}

theorem intercalate_append {l m : List (List α)} (hl : l ≠ []) (hm : m ≠ []) :
    [sep].intercalate (l ++ m) = [sep].intercalate l ++ sep :: [sep].intercalate m := by
  induction l with
  | nil => exact absurd rfl hl
  | cons a l ih =>
    cases l with
    | nil => simp [List.intercalate_cons_of_ne_nil hm]
    | cons b l =>
      have hne : b :: l ≠ [] := List.cons_ne_nil b l
      rw [List.cons_append, List.intercalate_cons_of_ne_nil (List.append_ne_nil_of_left_ne_nil hne m),
        ih hne, List.intercalate_cons_of_ne_nil hne]
      simp only [List.append_assoc]

variable [BEq α] [LawfulBEq α]

theorem splitOn_injective : Function.Injective (List.splitOn sep : List α → List (List α)) :=
  Function.LeftInverse.injective fun _ => List.intercalate_splitOn sep

theorem suffix_iff {s text : List α} :
    s.splitOn sep <:+ text.splitOn sep ↔ text = s ∨ (sep :: s) <:+ text := by
  constructor
  · rintro ⟨front, hfront⟩
    by_cases hnil : front = []
    · rw [hnil, List.nil_append] at hfront
      exact Or.inl (splitOn_injective hfront).symm
    · refine Or.inr ⟨[sep].intercalate front, ?_⟩
      have htext := congrArg [sep].intercalate hfront
      rw [intercalate_append hnil (List.splitOn_ne_nil sep s), List.intercalate_splitOn,
        List.intercalate_splitOn] at htext
      exact htext
  · rintro (rfl | ⟨front, rfl⟩)
    · exact List.suffix_refl _
    · rw [List.splitOn_append_cons_self]
      exact List.suffix_append _ _

theorem prefix_iff {s text : List α} :
    s.splitOn sep <+: text.splitOn sep ↔ text = s ∨ (s ++ [sep]) <+: text := by
  constructor
  · rintro ⟨back, hback⟩
    by_cases hnil : back = []
    · rw [hnil, List.append_nil] at hback
      exact Or.inl (splitOn_injective hback).symm
    · refine Or.inr ⟨[sep].intercalate back, ?_⟩
      have htext := congrArg [sep].intercalate hback
      rw [intercalate_append (List.splitOn_ne_nil sep s) hnil, List.intercalate_splitOn,
        List.intercalate_splitOn] at htext
      rw [List.append_assoc]
      exact htext
  · rintro (rfl | ⟨back, rfl⟩)
    · exact List.prefix_refl _
    · rw [List.append_assoc, List.singleton_append, List.splitOn_append_cons_self]
      exact List.prefix_append _ _

end Segments
