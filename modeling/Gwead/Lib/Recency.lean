import Mathlib.Algebra.Group.Int.Defs
import Mathlib.Algebra.GroupWithZero.Nat
import Mathlib.Data.List.Basic
import Mathlib.Data.List.Nodup
import Mathlib.Order.Lattice

/-!
# Who came last

A log names things, some more than once, and orders them by when each was last named.  A stable sort
keeps an order of what it does not tell apart.
-/

namespace Recency

variable {α : Type}

/-- `p` is in the log, and `q` after every `p`. -/
def Before (log : List α) (p q : α) : Prop :=
  ∃ pre post, log = pre ++ q :: post ∧ p ∈ pre ∧ p ∉ q :: post

theorem Before.append {log : List α} {p q r : α} (h : Before log p q) (hne : p ≠ r) :
    Before (log ++ [r]) p q := by
  obtain ⟨pre, post, rfl, hpre, hpost⟩ := h
  refine ⟨pre, post ++ [r], by simp, hpre, ?_⟩
  simp only [List.mem_cons, List.mem_append, List.not_mem_nil, or_false, not_or] at hpost ⊢
  exact ⟨hpost.1, hpost.2, hne⟩

theorem before_append {log : List α} {p q : α} (hin : p ∈ log) (hne : p ≠ q) :
    Before (log ++ [q]) p q :=
  ⟨log, [], rfl, hin, by simpa using hne⟩

/-- In a list without repetitions no two elements follow each other both ways. -/
theorem not_sublist_swap {l : List α} (hnodup : l.Nodup) {p q : α} (h : [p, q].Sublist l) :
    ¬[q, p].Sublist l := by
  induction l with
  | nil => cases h
  | cons x l ih =>
    rw [List.nodup_cons] at hnodup
    intro h'
    cases h with
    | cons _ h =>
      cases h' with
      | cons _ h' => exact ih hnodup.2 h h'
      | cons_cons _ h' => exact hnodup.1 (h.subset (by simp))
    | cons_cons _ h =>
      cases h' with
      | cons _ h' => exact hnodup.1 (h'.subset (by simp))
      | cons_cons _ h' => exact hnodup.1 (h.subset (by simp))

/-- Of two elements of a list one follows the other. -/
theorem pair_sublist_or {l : List α} {p q : α} (hp : p ∈ l) (hq : q ∈ l) (hne : p ≠ q) :
    [p, q].Sublist l ∨ [q, p].Sublist l := by
  induction l with
  | nil => cases hp
  | cons x l ih =>
    rcases List.mem_cons.mp hp with rfl | hpl <;> rcases List.mem_cons.mp hq with rfl | hql
    · exact absurd rfl hne
    · exact .inl ((List.singleton_sublist.mpr hql).cons_cons _)
    · exact .inr ((List.singleton_sublist.mpr hpl).cons_cons _)
    · exact (ih hpl hql).imp (List.Sublist.cons _) (List.Sublist.cons _)

/-- A stable sort keeps the order of what it may leave in place. -/
theorem pairwise_mergeSort_stable {le : α → α → Bool} {R : α → α → Prop} {l : List α}
    (htrans : ∀ a b c, le a b → le b c → le a c) (htotal : ∀ a b, le a b || le b a)
    (hnodup : l.Nodup) (h : l.Pairwise R) :
    (l.mergeSort le).Pairwise fun p q => le q p = true → R p q := by
  rw [List.pairwise_iff_forall_sublist]
  intro p q hsub hle
  have hperm := List.mergeSort_perm l le
  have hp : p ∈ l := hperm.subset (hsub.subset (by simp))
  have hq : q ∈ l := hperm.subset (hsub.subset (by simp))
  have hsorted : (l.mergeSort le).Nodup := hperm.nodup_iff.mpr hnodup
  have hne : p ≠ q := by
    rintro rfl
    simpa using hsorted.sublist hsub
  -- one of the two comes first in the list, and where sorting may keep that, it does
  rcases pair_sublist_or hp hq hne with hpq | hqp
  · exact List.pairwise_iff_forall_sublist.mp h hpq
  · exact absurd (List.pair_sublist_mergeSort htrans htotal hle hqp) (not_sublist_swap hsorted hsub)

end Recency
