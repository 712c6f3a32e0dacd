import Mathlib.Algebra.Group.Int.Defs
import Mathlib.Algebra.GroupWithZero.Nat
import Mathlib.Data.List.Nodup
import Mathlib.Data.List.Perm.Basic
import Mathlib.Order.Lattice

/-!
# Results collected into slots

Tasks finish in some order, and each puts its result into the slot it was given when it was
started.  What the slots hold in the end does not tell the order.
-/

namespace Slots

variable {α : Type}

/-- What has been put into some of the slots, each with its slot. -/
def placed (slots : List (Option α)) : List (Nat × α) :=
  slots.zipIdx.filterMap fun e => e.1.map fun a => (e.2, a)

/-- Put one result after the other into its slot. -/
def place (slots : List (Option α)) (order : List (Nat × α)) : List (Option α) :=
  order.foldl (fun slots task => slots.set task.1 (some task.2)) slots

/-- Start with `n` empty slots. -/
def fill (n : Nat) (order : List (Nat × α)) : List (Option α) := place (List.replicate n none) order

theorem place_cons (slots : List (Option α)) (task : Nat × α) (rest : List (Nat × α)) :
    place slots (task :: rest) = place (slots.set task.1 (some task.2)) rest := rfl

@[simp] theorem length_place (slots : List (Option α)) (order : List (Nat × α)) :
    (place slots order).length = slots.length := by
  induction order generalizing slots with
  | nil => rfl
  | cons task rest ih => rw [place_cons, ih, List.length_set]

theorem mem_placed {slots : List (Option α)} {i : Nat} {a : α} :
    (i, a) ∈ placed slots ↔ slots[i]? = some (some a) := by
  rw [placed, List.mem_filterMap]
  constructor
  · rintro ⟨⟨slot, j⟩, hmem, hsome⟩
    obtain ⟨b, hb, hpair⟩ := Option.map_eq_some_iff.mp hsome
    have hslot := List.mk_mem_zipIdx_iff_getElem?.mp hmem
    cases hpair
    rw [hslot]
    exact congrArg some hb
  · intro h
    exact ⟨(some a, i), List.mk_mem_zipIdx_iff_getElem?.mpr h, rfl⟩

/-- A slot takes one result. -/
theorem nodup_placed (slots : List (Option α)) : ((placed slots).map Prod.fst).Nodup := by
  have hsub : List.Sublist ((placed slots).map Prod.fst) (slots.zipIdx.map Prod.snd) := by
    unfold placed
    induction slots.zipIdx with
    | nil => exact .slnil
    | cons e rest ih =>
      cases hslot : e.1 with
      | none => simpa [hslot] using ih.cons e.2
      | some a => simpa [hslot] using ih
  refine hsub.nodup ?_
  rw [List.zipIdx_map_snd]
  exact List.nodup_range'

theorem getElem?_place_of_notMem {slots : List (Option α)} {order : List (Nat × α)} {i : Nat}
    (h : i ∉ order.map Prod.fst) : (place slots order)[i]? = slots[i]? := by
  induction order generalizing slots with
  | nil => rfl
  | cons task rest ih =>
    rw [List.map_cons, List.mem_cons, not_or] at h
    rw [place_cons, ih h.2, List.getElem?_set_ne (Ne.symm h.1)]

theorem getElem?_place_of_mem {slots : List (Option α)} {order : List (Nat × α)} {i : Nat} {a : α}
    (hnodup : (order.map Prod.fst).Nodup) (hmem : (i, a) ∈ order) (hlt : i < slots.length) :
    (place slots order)[i]? = some (some a) := by
  induction order generalizing slots with
  | nil => cases hmem
  | cons task rest ih =>
    rw [List.map_cons, List.nodup_cons] at hnodup
    rw [place_cons]
    rcases List.mem_cons.mp hmem with rfl | hmem
    · rw [getElem?_place_of_notMem hnodup.1, List.getElem?_set_self hlt]
    · exact ih hnodup.2 hmem (by simpa using hlt)

/-- Whatever the order the results come in, they end up in the slots they were made for. -/
theorem fill_of_perm {slots : List (Option α)} {order : List (Nat × α)}
    (h : order.Perm (placed slots)) : fill slots.length order = slots := by
  have hkeys := h.map Prod.fst
  have hnodup := hkeys.nodup_iff.mpr (nodup_placed slots)
  apply List.ext_getElem?
  intro i
  cases hslot : slots[i]? with
  | none =>
    rw [List.getElem?_eq_none_iff] at hslot ⊢
    simpa [fill] using hslot
  | some slot =>
    obtain ⟨hlt, -⟩ := List.getElem?_eq_some_iff.mp hslot
    cases slot with
    | none =>
      have hfree : i ∉ order.map Prod.fst := by
        rw [hkeys.mem_iff, List.mem_map]
        rintro ⟨⟨j, a⟩, hmem, rfl⟩
        rw [mem_placed, hslot] at hmem
        cases hmem
      rw [fill, getElem?_place_of_notMem hfree, List.getElem?_replicate, if_pos hlt]
    | some a =>
      exact getElem?_place_of_mem hnodup (h.mem_iff.mpr (mem_placed.mpr hslot)) (by simpa using hlt)

end Slots
