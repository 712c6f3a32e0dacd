import Gwead.Lib.AssocMap

/-!
# Tables of handles

A table names what is put into it by numbers that it counts up, so that no handle is given out twice
while it is in use.
-/

/-- `next` is above every handle in use. -/
structure HandleTable (α : Type) where
  entries : List (Nat × α)
  next : Nat
  nodup : (entries.map Prod.fst).Nodup
  below : ∀ handle ∈ entries.map Prod.fst, handle < next

namespace HandleTable

variable {α : Type}

/-- An empty table that counts from `first`. -/
def new (first : Nat) : HandleTable α := ⟨[], first, List.nodup_nil, nofun⟩

def get (t : HandleTable α) (handle : Nat) : Option α := t.entries.lookup handle

def size (t : HandleTable α) : Nat := t.entries.length

/-- Put `a` under the next handle. -/
def mint (t : HandleTable α) (a : α) : HandleTable α where
  entries := AssocMap.put t.next a t.entries
  next := t.next + 1
  nodup := AssocMap.nodup_keys_put t.next a t.nodup
  below := by
    intro handle hmem
    rw [AssocMap.keys_put] at hmem
    split at hmem
    · exact Nat.lt_succ_of_lt (t.below handle hmem)
    · rcases List.mem_append.mp hmem with hmem | hmem
      · exact Nat.lt_succ_of_lt (t.below handle hmem)
      · rw [List.mem_singleton.mp hmem]
        exact Nat.lt_succ_self _

/-- Forget a handle; its number stays spent. -/
def remove (t : HandleTable α) (handle : Nat) : HandleTable α where
  entries := t.entries.filter fun e => e.1 != handle
  next := t.next
  nodup := t.nodup.sublist (List.filter_sublist.map Prod.fst)
  below := fun handle' hmem => t.below handle' ((List.filter_sublist.map Prod.fst).subset hmem)

/-- Change what a handle names. -/
def modify (t : HandleTable α) (handle : Nat) (f : α → α) : HandleTable α where
  entries := t.entries.map fun e => (e.1, if e.1 = handle then f e.2 else e.2)
  next := t.next
  nodup := by
    rw [List.map_map]
    exact t.nodup
  below := by
    rw [List.map_map]
    exact t.below

@[simp] theorem get_mint (t : HandleTable α) (a : α) (handle : Nat) :
    (t.mint a).get handle = if handle = t.next then some a else t.get handle := by
  rw [get, mint, AssocMap.lookup_put]
  simp [get]

@[simp] theorem next_mint (t : HandleTable α) (a : α) : (t.mint a).next = t.next + 1 := rfl

@[simp] theorem next_remove (t : HandleTable α) (handle : Nat) :
    (t.remove handle).next = t.next := rfl

@[simp] theorem get_remove (t : HandleTable α) (handle handle' : Nat) :
    (t.remove handle).get handle' = if handle' = handle then none else t.get handle' := by
  rw [get, get, remove]
  dsimp only
  induction t.entries with
  | nil => simp
  | cons e rest ih =>
    obtain ⟨k, a⟩ := e
    by_cases hk : k = handle
    · subst hk
      rw [List.filter_cons_of_neg (by simp), ih, List.lookup_cons]
      by_cases hh : handle' = k
      · simp [hh]
      · simp [hh, beq_eq_false_iff_ne.mpr hh]
    · rw [List.filter_cons_of_pos (by simpa using hk), List.lookup_cons, ih, List.lookup_cons]
      by_cases hh : handle' = k
      · subst hh
        simp [hk]
      · simp [beq_eq_false_iff_ne.mpr hh]

theorem get_lt {t : HandleTable α} {handle : Nat} {a : α} (h : t.get handle = some a) :
    handle < t.next := by
  refine t.below handle ?_
  rw [← AssocMap.lookup_isSome_iff_mem_keys]
  rw [get] at h
  rw [h]
  rfl

@[simp] theorem size_mint (t : HandleTable α) (a : α) : (t.mint a).size = t.size + 1 := by
  have hfree : t.next ∉ t.entries.map Prod.fst := fun hmem => Nat.lt_irrefl _ (t.below _ hmem)
  have hkeys := congrArg List.length (AssocMap.keys_put t.next a t.entries)
  rw [if_neg (by rwa [List.contains_iff_mem])] at hkeys
  simpa [size, mint] using hkeys

@[simp] theorem size_modify (t : HandleTable α) (handle : Nat) (f : α → α) :
    (t.modify handle f).size = t.size := by simp [size, modify]

end HandleTable
