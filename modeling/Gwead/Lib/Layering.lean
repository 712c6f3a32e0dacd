import Mathlib.Algebra.Group.Int.Defs
import Mathlib.Algebra.GroupWithZero.Nat
import Mathlib.Data.List.Basic
import Mathlib.Data.List.GetD
import Mathlib.Data.List.Perm.Subperm
import Mathlib.Data.List.Range
import Mathlib.Order.Bounds.Basic
import Mathlib.Order.Lattice

/-!
# Layered topological order

Nodes are numbered so that every dependency of a node has a smaller number.  The level of a node
is the length of the longest dependency chain that ends in it.  Draining the ready nodes round by
round schedules exactly level `k` in round `k`, and a round with work left is never empty.
-/

namespace Layering

variable (deps : Nat → List Nat)

/-- Every dependency has a smaller number. -/
def Backward (n : Nat) : Prop := ∀ i < n, ∀ d ∈ deps i, d < i

/-- The levels of the first `n` nodes. -/
def levels : Nat → List Nat
  | 0 => []
  | n + 1 => levels n ++ [(deps n).foldr (fun d m => max ((levels n).getD d 0 + 1) m) 0]

/-- The length of the longest dependency chain ending in a node. -/
def level (i : Nat) : Nat := (levels deps (i + 1)).getD i 0

@[simp] theorem length_levels (n : Nat) : (levels deps n).length = n := by
  induction n with
  | zero => rfl
  | succ n ih => simp [levels, ih]

theorem getD_levels {n i : Nat} (h : i < n) : (levels deps n).getD i 0 = level deps i := by
  induction n with
  | zero => omega
  | succ n ih =>
    by_cases hi : i = n
    · subst hi
      rfl
    · have hlt : i < n := by omega
      rw [levels, List.getD_append _ _ _ _ (by simpa using hlt)]
      exact ih hlt

theorem foldr_max_congr {f g : Nat → Nat} {xs : List Nat} (h : ∀ x ∈ xs, f x = g x) :
    xs.foldr (fun d m => max (f d) m) 0 = xs.foldr (fun d m => max (g d) m) 0 := by
  induction xs with
  | nil => rfl
  | cons x xs ih =>
    rw [List.foldr_cons, List.foldr_cons, h x List.mem_cons_self,
      ih fun y hy => h y (List.mem_cons_of_mem x hy)]

theorem foldr_max_le_iff {f : Nat → Nat} {xs : List Nat} {k : Nat} :
    xs.foldr (fun d m => max (f d) m) 0 ≤ k ↔ ∀ x ∈ xs, f x ≤ k := by
  induction xs with
  | nil => simp
  | cons x xs ih => simp [ih]

/-- A level is one more than the largest level of a dependency, or zero. -/
theorem level_eq {n i : Nat} (hb : Backward deps n) (hi : i < n) :
    level deps i = (deps i).foldr (fun d m => max (level deps d + 1) m) 0 := by
  have hlen : i = (levels deps i).length := (length_levels deps i).symm
  have hlast : level deps i = (deps i).foldr (fun d m => max ((levels deps i).getD d 0 + 1) m) 0 := by
    rw [level, levels, List.getD_append_right _ _ _ _ (by simp)]
    simp
  rw [hlast]
  exact foldr_max_congr fun d hd => by rw [getD_levels deps (hb i hi d hd)]

theorem level_le_iff {n i k : Nat} (hb : Backward deps n) (hi : i < n) :
    level deps i ≤ k ↔ ∀ d ∈ deps i, level deps d < k := by
  rw [level_eq deps hb hi, foldr_max_le_iff]
  exact Iff.rfl

theorem level_lt_of_dep {n i d : Nat} (hb : Backward deps n) (hi : i < n) (hd : d ∈ deps i) :
    level deps d < level deps i :=
  (level_le_iff deps hb hi).mp le_rfl d hd

/-- A dependency chain of a length that ends in a node. -/
inductive Chain : Nat → Nat → Prop
  | source (i : Nat) : Chain 0 i
  | step {k i d : Nat} (hd : d ∈ deps i) (h : Chain k d) : Chain (k + 1) i

/-- A level is the length of the longest chain. -/
theorem level_isGreatest {n i : Nat} (hb : Backward deps n) (hi : i < n) :
    IsGreatest {k | Chain deps k i} (level deps i) := by
  induction i using Nat.strong_induction_on with
  | _ i ih =>
    constructor
    · cases hlevel : level deps i with
      | zero => exact Chain.source i
      | succ k =>
        -- some dependency has the level below, or the level would be smaller
        have hdep : ∃ d ∈ deps i, k ≤ level deps d := by
          by_contra hnone
          push Not at hnone
          have hle := (level_le_iff deps hb hi).mpr hnone
          omega
        obtain ⟨d, hd, hkd⟩ := hdep
        have hlt := level_lt_of_dep deps hb hi hd
        have heq : level deps d = k := by omega
        exact Chain.step hd (heq ▸ (ih d (hb i hi d hd) ((hb i hi d hd).trans hi)).1)
    · rintro k hk
      cases hk with
      | source => exact Nat.zero_le _
      | step hd h =>
        have hle := (ih _ (hb i hi _ hd) ((hb i hi _ hd).trans hi)).2 h
        have hlt := level_lt_of_dep deps hb hi hd
        omega

/-- Not scheduled yet, with every dependency scheduled. -/
def ready (scheduled : List Nat) (i : Nat) : Bool :=
  !scheduled.contains i && (deps i).all scheduled.contains

/-- What one round drains. -/
def round (n : Nat) (scheduled : List Nat) : List Nat :=
  (List.range n).filter (ready deps scheduled)

/-- The nodes below a level are exactly the scheduled ones. -/
def Drained (n k : Nat) (scheduled : List Nat) : Prop :=
  ∀ i, i ∈ scheduled ↔ i < n ∧ level deps i < k

theorem mem_round_iff {n k : Nat} {scheduled : List Nat} (hb : Backward deps n)
    (h : Drained deps n k scheduled) (i : Nat) :
    i ∈ round deps n scheduled ↔ i < n ∧ level deps i = k := by
  rw [round, List.mem_filter, List.mem_range]
  constructor
  · rintro ⟨hi, hr⟩
    simp only [ready, Bool.and_eq_true, Bool.not_eq_true', List.all_eq_true] at hr
    obtain ⟨hnot, hall⟩ := hr
    have hge : ¬ level deps i < k := fun hlt => by
      have hm : i ∈ scheduled := (h i).mpr ⟨hi, hlt⟩
      rw [List.contains_iff_mem.mpr hm] at hnot
      cases hnot
    have hle : level deps i ≤ k := (level_le_iff deps hb hi).mpr fun d hd =>
      ((h d).mp (List.contains_iff_mem.mp (hall d hd))).2
    exact ⟨hi, by omega⟩
  · rintro ⟨hi, hk⟩
    refine ⟨hi, ?_⟩
    simp only [ready, Bool.and_eq_true, Bool.not_eq_true', List.all_eq_true]
    constructor
    · rw [Bool.eq_false_iff]
      intro hc
      have := ((h i).mp (List.contains_iff_mem.mp hc)).2
      omega
    · intro d hd
      have hlt := level_lt_of_dep deps hb hi hd
      have hdi := hb i hi d hd
      exact List.contains_iff_mem.mpr ((h d).mpr ⟨by omega, by omega⟩)

theorem drained_append {n k : Nat} {scheduled : List Nat} (hb : Backward deps n)
    (h : Drained deps n k scheduled) :
    Drained deps n (k + 1) (scheduled ++ round deps n scheduled) := by
  intro i
  rw [List.mem_append, h i, mem_round_iff deps hb h i]
  omega

/-- When as many nodes are scheduled as there are, no level from `k` on is inhabited. -/
theorem level_lt_of_full {n k : Nat} {scheduled : List Nat} (h : Drained deps n k scheduled)
    (hn : scheduled.Nodup) (hlen : n ≤ scheduled.length) {i : Nat} (hi : i < n) :
    level deps i < k := by
  have hsub : scheduled ⊆ List.range n := fun j hj => List.mem_range.mpr ((h j).mp hj).1
  have hperm := (hn.subperm hsub).perm_of_length_le (by simpa using hlen)
  exact ((h i).mp (hperm.mem_iff.mpr (List.mem_range.mpr hi))).2

/-- A round adds no node twice. -/
theorem nodup_append_round {n k : Nat} {scheduled : List Nat} (hb : Backward deps n)
    (h : Drained deps n k scheduled) (hn : scheduled.Nodup) :
    (scheduled ++ round deps n scheduled).Nodup := by
  refine List.nodup_append.mpr ⟨hn, List.nodup_range.filter _, ?_⟩
  rintro a ha b hb' rfl
  have hlt := ((h a).mp ha).2
  have heq := ((mem_round_iff deps hb h a).mp hb').2
  omega

/-- A round is the list of the nodes of its level, in increasing order. -/
theorem round_eq {n k : Nat} {scheduled : List Nat} (hb : Backward deps n)
    (h : Drained deps n k scheduled) :
    round deps n scheduled = (List.range n).filter fun i => level deps i == k := by
  apply List.filter_congr
  intro i hi
  have hmem := mem_round_iff deps hb h i
  rw [round, List.mem_filter] at hmem
  rw [Bool.eq_iff_iff, beq_iff_eq]
  constructor
  · exact fun hr => (hmem.mp ⟨hi, hr⟩).2
  · exact fun hk => (hmem.mpr ⟨List.mem_range.mp hi, hk⟩).2

/-- A round with a node left to schedule is not empty. -/
theorem round_ne_nil {n k i : Nat} {scheduled : List Nat} (hb : Backward deps n)
    (h : Drained deps n k scheduled) (hi : i < n) (hnot : i ∉ scheduled) :
    round deps n scheduled ≠ [] := by
  -- The unscheduled node of least number is ready: everything it depends on is smaller.
  induction i using Nat.strong_induction_on with
  | _ i ih =>
    by_cases hall : ∀ d ∈ deps i, d ∈ scheduled
    · have hge : ¬ level deps i < k := fun hlt => hnot ((h i).mpr ⟨hi, hlt⟩)
      have hle : level deps i ≤ k := (level_le_iff deps hb hi).mpr fun d hd => ((h d).mp (hall d hd)).2
      have hmem := (mem_round_iff deps hb h i).mpr ⟨hi, by omega⟩
      exact List.ne_nil_of_mem hmem
    · push Not at hall
      obtain ⟨d, hd, hds⟩ := hall
      have hlt := hb i hi d hd
      exact ih d hlt (by omega) hds

end Layering
