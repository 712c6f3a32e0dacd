import Mathlib.Algebra.Group.Int.Defs
import Mathlib.Algebra.GroupWithZero.Nat
import Mathlib.Data.List.Basic
import Mathlib.Data.List.GetD
import Mathlib.Data.List.Nodup
import Mathlib.Order.Lattice

/-!
# Dependency counters

The bookkeeping of a scheduler that starts a node once a counter of unfinished dependencies has
reached zero.  `S`, `J` and `R` list the nodes started, joined and released so far; while a
release is under way its remaining consumers are pending.
-/

namespace Countdown

/-! ### Started, running, joined -/

/-- Each of `n` nodes is started at most once, and a started one is running or joined. -/
structure Booked (n : Nat) (S J running : List Nat) (flags : List Bool) : Prop where
  length_flags : flags.length = n
  flag : ∀ i, flags.getD i false = true ↔ i ∈ S
  bound : ∀ i ∈ S, i < n
  once : S.Nodup
  joined : ∀ i ∈ J, i ∈ S
  active : ∀ i ∈ running, i ∈ S ∧ i ∉ J
  ends : ∀ i ∈ S, i ∈ J ∨ i ∈ running

variable {n : Nat} {S J running : List Nat} {flags : List Bool}

theorem booked_start (n : Nat) : Booked n [] [] [] (List.replicate n false) where
  length_flags := List.length_replicate
  flag i := by
    rw [List.getD_eq_getElem?_getD, List.getElem?_replicate]
    split <;> simp
  bound := by simp
  once := List.nodup_nil
  joined := by simp
  active := by simp
  ends := by simp

theorem Booked.spawn (h : Booked n S J running flags) {i : Nat} (hi : i < n) (hnew : i ∉ S) :
    Booked n (S ++ [i]) J (running ++ [i]) (flags.set i true) where
  length_flags := by rw [List.length_set, h.length_flags]
  flag j := by
    rw [List.getD_eq_getElem?_getD, List.getElem?_set, List.mem_append, List.mem_singleton]
    by_cases hij : i = j
    · subst hij
      simp [h.length_flags, hi]
    · rw [if_neg hij, ← List.getD_eq_getElem?_getD, h.flag j]
      simp [eq_comm, hij]
  bound j hj := by
    rcases List.mem_append.mp hj with hj | hj
    · exact h.bound j hj
    · rwa [List.mem_singleton.mp hj]
  once := by
    rw [List.nodup_append]
    refine ⟨h.once, List.nodup_singleton i, fun a ha b hb => ?_⟩
    rw [List.mem_singleton.mp hb]
    rintro rfl
    exact hnew ha
  joined j hj := List.mem_append_left _ (h.joined j hj)
  active j hj := by
    rcases List.mem_append.mp hj with hj | hj
    · exact ⟨List.mem_append_left _ (h.active j hj).1, (h.active j hj).2⟩
    · rw [List.mem_singleton.mp hj]
      exact ⟨by simp, fun hin => hnew (h.joined i hin)⟩
  ends j hj := by
    rcases List.mem_append.mp hj with hj | hj
    · exact (h.ends j hj).imp_right (List.mem_append_left _)
    · exact Or.inr (List.mem_append_right _ hj)

theorem Booked.join (h : Booked n S J running flags) {i : Nat} (hi : i ∈ running)
    {running' : List Nat} (hrunning : ∀ j, j ∈ running' ↔ j ∈ running ∧ j ≠ i) :
    Booked n S (J ++ [i]) running' flags where
  length_flags := h.length_flags
  flag := h.flag
  bound := h.bound
  once := h.once
  joined j hj := by
    rcases List.mem_append.mp hj with hj | hj
    · exact h.joined j hj
    · rw [List.mem_singleton.mp hj]
      exact (h.active i hi).1
  active j hj := by
    obtain ⟨hmem, hne⟩ := (hrunning j).mp hj
    refine ⟨(h.active j hmem).1, fun hin => ?_⟩
    rcases List.mem_append.mp hin with hin | hin
    · exact (h.active j hmem).2 hin
    · exact hne (List.mem_singleton.mp hin)
  ends j hj := by
    rcases h.ends j hj with hin | hin
    · exact Or.inl (List.mem_append_left _ hin)
    · by_cases hji : j = i
      · exact Or.inl (by simp [hji])
      · exact Or.inr ((hrunning j).mpr ⟨hin, hji⟩)

/-! ### Counters -/

/-- Whether dependency `d` has been counted down at node `i`. -/
def credited (R : List Nat) (pending : Option (Nat × List Nat)) (d i : Nat) : Bool :=
  R.contains d && !(pending.any fun p => p.1 == d && p.2.contains i)

/-- Each counter is the number of dependencies not counted down yet. -/
structure Counts (deps : Nat → List Nat) (n : Nat) (awaiting R : List Nat)
    (pending : Option (Nat × List Nat)) : Prop where
  length_awaiting : awaiting.length = n
  count : ∀ i < n, awaiting.getD i 0 = ((deps i).filter fun d => !credited R pending d i).length

variable {deps : Nat → List Nat} {awaiting R : List Nat} {pending : Option (Nat × List Nat)}

theorem counts_start (deps : Nat → List Nat) (n : Nat) :
    Counts deps n ((List.range n).map fun i => (deps i).length) [] none where
  length_awaiting := by simp
  count i hi := by
    rw [List.getD_eq_getElem?_getD, List.getElem?_map, List.getElem?_range hi]
    simp [credited]

/-- A counter is zero when every dependency has been counted down. -/
theorem Counts.zero_iff (h : Counts deps n awaiting R pending) {i : Nat} (hi : i < n) :
    awaiting.getD i 0 = 0 ↔ ∀ d ∈ deps i, credited R pending d i = true := by
  rw [h.count i hi, List.length_eq_zero_iff, List.filter_eq_nil_iff]
  simp

/-- Releasing a node leaves every counter right, with all of its consumers pending. -/
theorem Counts.release (h : Counts deps n awaiting R none) {d : Nat} {consumers : List Nat}
    (hd : d ∉ R) (hall : ∀ i < n, d ∈ deps i → i ∈ consumers) :
    Counts deps n awaiting (R ++ [d]) (some (d, consumers)) where
  length_awaiting := h.length_awaiting
  count i hi := by
    rw [h.count i hi]
    congr 1
    apply List.filter_congr
    intro d' hd'
    by_cases heq : d = d'
    · subst heq
      have hnot : R.contains d = false := by simpa using hd
      simp [credited, hd, hall i hi hd']
    · have hne : d' ≠ d := fun he => heq he.symm
      simp [credited, heq, hne]

/-- Counting a pending consumer down keeps the counters right. -/
theorem Counts.consumer {d j : Nat} {rest : List Nat}
    (h : Counts deps n awaiting R (some (d, j :: rest))) (hnodup : ∀ i, (deps i).Nodup)
    (hd : d ∈ R) (hdep : d ∈ deps j) (hj : j ∉ rest) (hjn : j < n) :
    Counts deps n (awaiting.set j (awaiting.getD j 0 - 1)) R (some (d, rest)) where
  length_awaiting := by rw [List.length_set, h.length_awaiting]
  count i hi := by
    rw [List.getD_eq_getElem?_getD, List.getElem?_set]
    by_cases hij : j = i
    · subst hij
      rw [if_pos rfl, if_pos (by rw [h.length_awaiting]; exact hjn), Option.getD_some,
        h.count j hjn]
      have hbefore : credited R (some (d, j :: rest)) d j = false := by simp [credited]
      have hafter : credited R (some (d, rest)) d j = true := by simp [credited, hd, hj]
      have herase : ((deps j).filter fun d' => !credited R (some (d, rest)) d' j) =
          ((deps j).filter fun d' => !credited R (some (d, j :: rest)) d' j).erase d := by
        rw [List.Nodup.erase_eq_filter ((hnodup j).filter _), List.filter_filter]
        apply List.filter_congr
        intro d' _
        by_cases heq : d' = d
        · simp [heq, hafter]
        · have hne : (d == d') = false := by simpa using fun he => heq he.symm
          have hne' : (d' != d) = true := by simpa using heq
          simp [credited, hne, hne']
      have hmem : d ∈ (deps j).filter fun d' => !credited R (some (d, j :: rest)) d' j :=
        List.mem_filter.mpr ⟨hdep, by simp [hbefore]⟩
      rw [herase, List.length_erase_of_mem hmem]
    · rw [if_neg hij, ← List.getD_eq_getElem?_getD, h.count i hi]
      congr 1
      apply List.filter_congr
      intro d' _
      have hne : i ≠ j := fun he => hij he.symm
      simp [credited, hne]

/-- A release with no consumer left is over. -/
theorem Counts.done {d : Nat} (h : Counts deps n awaiting R (some (d, []))) :
    Counts deps n awaiting R none where
  length_awaiting := h.length_awaiting
  count i hi := by
    rw [h.count i hi]
    congr 1
    apply List.filter_congr
    intro d' _
    simp [credited]

end Countdown
