import Mathlib.Algebra.Group.Int.Defs
import Mathlib.Algebra.GroupWithZero.Nat
import Mathlib.Data.List.Nodup
import Mathlib.Data.List.Perm.Lattice
import Mathlib.Order.Basic
import Mathlib.Order.Lattice

/-!
# Association lists as finite maps

Two disciplines over `List (κ × α)`.  `put` and `without` keep insertion order and replace a
value in place; `insertSorted` keeps strictly increasing keys.  An `IndexMap` packages the
first with the proof that no key occurs twice.
-/

namespace AssocMap

variable {κ α : Type} [BEq κ] [LawfulBEq κ]

/-- Replace the value of the first entry of `k`, or append a new entry. -/
def put (k : κ) (v : α) : List (κ × α) → List (κ × α)
  | [] => [(k, v)]
  | (k', v') :: rest => if k == k' then (k', v) :: rest else (k', v') :: put k v rest

/-- Remove every entry of `k`, keeping the order of the others. -/
def without (k : κ) (entries : List (κ × α)) : List (κ × α) :=
  entries.filter fun e => e.1 != k

/-- Insert into an increasing list, replacing the entry of an equal key. -/
def insertSorted [LT κ] [DecidableLT κ] (k : κ) (v : α) : List (κ × α) → List (κ × α)
  | [] => [(k, v)]
  | (k', v') :: rest =>
    if k == k' then (k', v) :: rest
    else if k < k' then (k, v) :: (k', v') :: rest
    else (k', v') :: insertSorted k v rest

/-- Build an increasing list, later entries winning. -/
def ofEntries [LT κ] [DecidableLT κ] (entries : List (κ × α)) : List (κ × α) :=
  entries.foldl (fun acc e => insertSorted e.1 e.2 acc) []

theorem lookup_put_self (k : κ) (v : α) (m : List (κ × α)) : (put k v m).lookup k = some v := by
  induction m with
  | nil => simp [put]
  | cons e rest ih =>
    obtain ⟨k', v'⟩ := e
    by_cases h : k = k'
    · subst h
      simp [put]
    · have hb : (k == k') = false := beq_eq_false_iff_ne.mpr h
      simp [put, hb, List.lookup_cons, ih]

theorem lookup_put_ne {k k' : κ} (h : k' ≠ k) (v : α) (m : List (κ × α)) :
    (put k v m).lookup k' = m.lookup k' := by
  induction m with
  | nil => simpa [put] using h
  | cons e rest ih =>
    obtain ⟨k₁, v₁⟩ := e
    by_cases h₁ : k = k₁
    · subst h₁
      simp [put, List.lookup_cons, beq_eq_false_iff_ne.mpr h]
    · simp [put, beq_eq_false_iff_ne.mpr h₁, List.lookup_cons, ih]

theorem lookup_put (k k' : κ) (v : α) (m : List (κ × α)) :
    (put k v m).lookup k' = if k' == k then some v else m.lookup k' := by
  by_cases h : k' = k
  · subst h
    simp [lookup_put_self]
  · simp [lookup_put_ne h, beq_eq_false_iff_ne.mpr h]

theorem put_eq_self {k : κ} {v : α} {m : List (κ × α)} (h : m.lookup k = some v) :
    put k v m = m := by
  induction m with
  | nil => cases h
  | cons e rest ih =>
    obtain ⟨k', v'⟩ := e
    by_cases hk : k = k'
    · subst hk
      simp only [List.lookup_cons, beq_self_eq_true] at h
      cases h
      simp [put]
    · have hb : (k == k') = false := beq_eq_false_iff_ne.mpr hk
      simp only [List.lookup_cons, hb] at h
      simp only [put, hb, Bool.false_eq_true, if_false, ih h]

theorem lookup_without_self (k : κ) (m : List (κ × α)) :
    (without k m).lookup k = none := by
  rw [List.lookup_eq_none_iff]
  intro e he
  have hne : e.1 ≠ k := by simpa only [bne_iff_ne] using (List.mem_filter.mp he).2
  exact bne_iff_ne.mpr hne.symm

theorem lookup_without_ne {k k' : κ} (h : k' ≠ k) (m : List (κ × α)) :
    (without k m).lookup k' = m.lookup k' := by
  induction m with
  | nil => rfl
  | cons e rest ih =>
    obtain ⟨k₁, v₁⟩ := e
    by_cases h₁ : k₁ = k
    · subst h₁
      simpa [without, List.lookup_cons, beq_eq_false_iff_ne.mpr h] using ih
    · have hk : (k₁ != k) = true := by simpa using h₁
      simp only [without, List.filter_cons, hk, if_true, List.lookup_cons]
      rw [← without, ih]

/-- The keys after a `put`: unchanged if the key was there, one more at the end if not. -/
theorem keys_put (k : κ) (v : α) (m : List (κ × α)) :
    (put k v m).map Prod.fst =
      if (m.map Prod.fst).contains k then m.map Prod.fst else m.map Prod.fst ++ [k] := by
  induction m with
  | nil => simp [put]
  | cons e rest ih =>
    obtain ⟨k₁, v₁⟩ := e
    by_cases h : k = k₁
    · subst h
      simp [put]
    · have hb : (k == k₁) = false := beq_eq_false_iff_ne.mpr h
      simp only [put, hb, Bool.false_eq_true, if_false, List.map_cons, ih, List.contains_cons,
        Bool.false_or]
      split <;> simp

theorem nodup_keys_put (k : κ) (v : α) {m : List (κ × α)} (h : (m.map Prod.fst).Nodup) :
    ((put k v m).map Prod.fst).Nodup := by
  rw [keys_put]
  split
  · exact h
  · rename_i hk
    rw [List.nodup_append]
    refine ⟨h, List.nodup_singleton k, ?_⟩
    intro a ha b hb
    rw [List.mem_singleton] at hb
    subst hb
    rintro rfl
    exact hk (List.contains_iff_mem.mpr ha)

omit [LawfulBEq κ] in
theorem nodup_keys_without (k : κ) {m : List (κ × α)} (h : (m.map Prod.fst).Nodup) :
    ((without k m).map Prod.fst).Nodup :=
  h.sublist (List.Sublist.map _ List.filter_sublist)

theorem mem_of_lookup {k : κ} {v : α} {m : List (κ × α)} (h : m.lookup k = some v) :
    (k, v) ∈ m := by
  obtain ⟨l₁, l₂, rfl, -⟩ := List.lookup_eq_some_iff.mp h
  simp

theorem lookup_of_mem {k : κ} {v : α} {m : List (κ × α)} (hn : (m.map Prod.fst).Nodup)
    (h : (k, v) ∈ m) : m.lookup k = some v := by
  induction m with
  | nil => cases h
  | cons e rest ih =>
    obtain ⟨k₁, v₁⟩ := e
    rw [List.map_cons, List.nodup_cons] at hn
    rcases List.mem_cons.mp h with heq | hmem
    · cases heq
      simp
    · have hne : k ≠ k₁ := by
        rintro rfl
        exact hn.1 (List.mem_map.mpr ⟨(k, v), hmem, rfl⟩)
      rw [List.lookup_cons, beq_eq_false_iff_ne.mpr hne]
      exact ih hn.2 hmem

/-- Mapping the values of a map maps its lookups. -/
theorem lookup_map_values {β : Type} (g : κ → α → β) (m : List (κ × α)) (k : κ) :
    (m.map fun e => (e.1, g e.1 e.2)).lookup k = (m.lookup k).map (g k) := by
  induction m with
  | nil => rfl
  | cons e rest ih =>
    obtain ⟨k₁, v₁⟩ := e
    rw [List.map_cons, List.lookup_cons, List.lookup_cons]
    by_cases h : k = k₁
    · subst h
      simp
    · rw [beq_eq_false_iff_ne.mpr h]
      exact ih

theorem lookup_isSome_iff_mem_keys {k : κ} {m : List (κ × α)} :
    (m.lookup k).isSome ↔ k ∈ m.map Prod.fst := by
  rw [List.lookup_isSome_iff]
  constructor
  · rintro ⟨p, hp, he⟩
    have : k = p.1 := by simpa using he
    exact List.mem_map.mpr ⟨p, hp, this.symm⟩
  · rintro h
    obtain ⟨p, hp, rfl⟩ := List.mem_map.mp h
    exact ⟨p, hp, by simp⟩

/-- Maps with the same keys in the same order and the same values are the same. -/
theorem eq_of_lookup {m m' : List (κ × α)} (hkeys : m.map Prod.fst = m'.map Prod.fst)
    (hnodup : (m.map Prod.fst).Nodup) (h : ∀ k ∈ m.map Prod.fst, m.lookup k = m'.lookup k) : m = m' := by
  induction m generalizing m' with
  | nil =>
    cases m' with
    | nil => rfl
    | cons e rest => cases hkeys
  | cons e rest ih =>
    cases m' with
    | nil => cases hkeys
    | cons e' rest' =>
      obtain ⟨k, v⟩ := e
      obtain ⟨k', v'⟩ := e'
      simp only [List.map_cons, List.cons.injEq] at hkeys
      obtain ⟨rfl, htail⟩ := hkeys
      rw [List.map_cons, List.nodup_cons] at hnodup
      have hv : v = v' := by
        have hhead := h k List.mem_cons_self
        simpa [List.lookup_cons] using hhead
      subst hv
      refine congrArg _ (ih htail hnodup.2 fun j hj => ?_)
      have hne : (j == k) = false := beq_eq_false_iff_ne.mpr fun hjk => hnodup.1 (hjk ▸ hj)
      simpa [List.lookup_cons, hne] using h j (List.mem_cons_of_mem _ hj)

section Weigh

/-- What the values of a map come to, each measured on its own. -/
def weigh (size : α → Nat) (m : List (κ × α)) : Nat := (m.map fun e => size e.2).sum

variable (size : α → Nat)

/-- What the value of a key comes to, nothing if there is none. -/
def weightAt (k : κ) (m : List (κ × α)) : Nat := ((m.lookup k).map size).getD 0

theorem weigh_put (k : κ) (v : α) (m : List (κ × α)) :
    weigh size (put k v m) + weightAt size k m = weigh size m + size v := by
  induction m with
  | nil => simp [put, weigh, weightAt]
  | cons e rest ih =>
    obtain ⟨k₁, v₁⟩ := e
    by_cases h : k = k₁
    · subst h
      simp only [put, weigh, weightAt, beq_self_eq_true, if_true, List.map_cons, List.sum_cons,
        List.lookup_cons, Option.map_some, Option.getD_some]
      omega
    · have hb : (k == k₁) = false := beq_eq_false_iff_ne.mpr h
      simp only [weigh, weightAt, put, hb, Bool.false_eq_true, if_false, List.map_cons,
        List.sum_cons, List.lookup_cons] at ih ⊢
      omega

/-- Removing a key takes away what its value came to. -/
theorem weigh_without (k : κ) {m : List (κ × α)} (hnodup : (m.map Prod.fst).Nodup) :
    weigh size (without k m) + weightAt size k m = weigh size m := by
  induction m with
  | nil => rfl
  | cons e rest ih =>
    obtain ⟨k₁, v₁⟩ := e
    rw [List.map_cons, List.nodup_cons] at hnodup
    by_cases h : k = k₁
    · subst h
      have habsent : rest.lookup k = none := by
        rw [← Option.not_isSome_iff_eq_none, lookup_isSome_iff_mem_keys]
        exact hnodup.1
      have hrest := ih hnodup.2
      simp only [weigh, weightAt, without, habsent, Option.map_none, Option.getD_none, Nat.add_zero,
        List.filter_cons, bne_self_eq_false, Bool.false_eq_true, if_false, List.lookup_cons,
        beq_self_eq_true, Option.map_some, Option.getD_some, List.map_cons, List.sum_cons]
        at hrest ⊢
      omega
    · have hb : (k == k₁) = false := beq_eq_false_iff_ne.mpr h
      have hne : (k₁ != k) = true := by simpa using Ne.symm h
      have hrest := ih hnodup.2
      simp only [weigh, weightAt, without, List.filter_cons, hne, if_true, List.lookup_cons, hb,
        List.map_cons, List.sum_cons] at hrest ⊢
      omega

end Weigh

section Sorted

variable [LinearOrder κ]

theorem lookup_insertSorted (k k' : κ) (v : α) (m : List (κ × α)) :
    (insertSorted k v m).lookup k' = if k' == k then some v else m.lookup k' := by
  induction m with
  | nil =>
    simp only [insertSorted, List.lookup_cons, List.lookup_nil]
    cases k' == k <;> rfl
  | cons e rest ih =>
    obtain ⟨k₁, v₁⟩ := e
    simp only [insertSorted]
    by_cases h : k = k₁
    · subst h
      simp only [beq_self_eq_true, if_true, List.lookup_cons]
      cases k' == k <;> rfl
    · rw [beq_eq_false_iff_ne.mpr h]
      simp only [Bool.false_eq_true, if_false]
      by_cases hlt : k < k₁
      · simp only [hlt, if_true, List.lookup_cons]
        cases hk : k' == k <;> simp
      · simp only [hlt, if_false, List.lookup_cons, ih]
        by_cases hk : k' = k
        · subst hk
          simp [beq_eq_false_iff_ne.mpr h]
        · simp [beq_eq_false_iff_ne.mpr hk]

theorem lookup_foldl_insertSorted (entries : List (κ × α)) (acc : List (κ × α)) (k : κ)
    (h : (entries.map Prod.fst).Nodup) :
    (entries.foldl (fun acc e => insertSorted e.1 e.2 acc) acc).lookup k =
      (entries.lookup k).or (acc.lookup k) := by
  induction entries generalizing acc with
  | nil => simp
  | cons e rest ih =>
    obtain ⟨k₁, v₁⟩ := e
    rw [List.map_cons, List.nodup_cons] at h
    rw [List.foldl_cons, ih _ h.2, lookup_insertSorted, List.lookup_cons]
    by_cases hk : k = k₁
    · subst hk
      have hnone : rest.lookup k = none := by
        rw [← Option.not_isSome_iff_eq_none, lookup_isSome_iff_mem_keys]
        exact h.1
      simp [hnone]
    · rw [beq_eq_false_iff_ne.mpr hk]
      simp

/-- Sorting the entries of a map changes no lookup. -/
theorem lookup_ofEntries (entries : List (κ × α)) (k : κ) (h : (entries.map Prod.fst).Nodup) :
    (ofEntries entries).lookup k = entries.lookup k := by
  rw [ofEntries, lookup_foldl_insertSorted entries [] k h]
  simp

end Sorted

section Fill

variable {σ β : Type} {view : σ → Option β} {offer : α → Option β} {f : σ → α → σ} {I : σ → Prop}

omit [BEq κ] [LawfulBEq κ] in
/-- A walk that only fills gaps leaves what was there, or what the first offer holds. -/
theorem foldl_fills (hf : ∀ s a, I s → I (f s a) ∧ view (f s a) = (view s).or (offer a)) (l : List α)
    {s : σ} (hs : I s) : I (l.foldl f s) ∧ view (l.foldl f s) = (view s).or (l.findSome? offer) := by
  induction l generalizing s with
  | nil => simp [hs]
  | cons a rest ih =>
    obtain ⟨hI, hview⟩ := hf s a hs
    obtain ⟨hI', hview'⟩ := ih hI
    refine ⟨hI', ?_⟩
    rw [List.foldl_cons, hview', hview, Option.or_assoc, List.findSome?_cons]
    cases offer a <;> simp

end Fill

end AssocMap

/-- An insertion-ordered map: entries in the order their keys were first inserted. -/
structure IndexMap (κ α : Type) [BEq κ] [LawfulBEq κ] where
  entries : List (κ × α)
  nodup : (entries.map Prod.fst).Nodup

namespace IndexMap

variable {κ α : Type} [BEq κ] [LawfulBEq κ]

def empty : IndexMap κ α := ⟨[], List.nodup_nil⟩

def get? (m : IndexMap κ α) (k : κ) : Option α := m.entries.lookup k

def contains (m : IndexMap κ α) (k : κ) : Bool := (m.get? k).isSome

def keys (m : IndexMap κ α) : List κ := m.entries.map Prod.fst

def insert (m : IndexMap κ α) (k : κ) (v : α) : IndexMap κ α :=
  ⟨AssocMap.put k v m.entries, AssocMap.nodup_keys_put k v m.nodup⟩

/-- Remove an entry and close the gap. -/
def shiftRemove (m : IndexMap κ α) (k : κ) : IndexMap κ α :=
  ⟨AssocMap.without k m.entries, AssocMap.nodup_keys_without k m.nodup⟩

/-- Insert a list of entries one after another. -/
def extend (m : IndexMap κ α) (entries : List (κ × α)) : IndexMap κ α :=
  entries.foldl (fun acc e => acc.insert e.1 e.2) m

@[ext] theorem ext {m m' : IndexMap κ α} (h : m.entries = m'.entries) : m = m' := by
  cases m
  cases m'
  cases h
  rfl

instance [DecidableEq κ] [DecidableEq α] : DecidableEq (IndexMap κ α) := fun m m' =>
  decidable_of_iff (m.entries = m'.entries) ⟨ext, fun h => h ▸ rfl⟩

@[simp] theorem get?_empty (k : κ) : (empty : IndexMap κ α).get? k = none := rfl

@[simp] theorem entries_empty : (empty : IndexMap κ α).entries = [] := rfl

@[simp] theorem get?_insert_self (m : IndexMap κ α) (k : κ) (v : α) :
    (m.insert k v).get? k = some v :=
  AssocMap.lookup_put_self k v m.entries

theorem get?_insert_ne (m : IndexMap κ α) {k k' : κ} (h : k' ≠ k) (v : α) :
    (m.insert k v).get? k' = m.get? k' :=
  AssocMap.lookup_put_ne h v m.entries

theorem get?_insert (m : IndexMap κ α) (k k' : κ) (v : α) :
    (m.insert k v).get? k' = if k' == k then some v else m.get? k' :=
  AssocMap.lookup_put k k' v m.entries

/-- An insertion changes nothing exactly where the key has the value. -/
theorem insert_eq_self_iff (m : IndexMap κ α) (k : κ) (v : α) :
    m.insert k v = m ↔ m.get? k = some v :=
  ⟨fun h => by rw [← h, get?_insert_self], fun h => ext (AssocMap.put_eq_self h)⟩

@[simp] theorem get?_shiftRemove_self (m : IndexMap κ α) (k : κ) :
    (m.shiftRemove k).get? k = none :=
  AssocMap.lookup_without_self k m.entries

theorem get?_shiftRemove_ne (m : IndexMap κ α) {k k' : κ} (h : k' ≠ k) :
    (m.shiftRemove k).get? k' = m.get? k' :=
  AssocMap.lookup_without_ne h m.entries

theorem mem_entries_iff (m : IndexMap κ α) (k : κ) (v : α) :
    (k, v) ∈ m.entries ↔ m.get? k = some v :=
  ⟨AssocMap.lookup_of_mem m.nodup, AssocMap.mem_of_lookup⟩

theorem mem_keys_iff (m : IndexMap κ α) (k : κ) : k ∈ m.keys ↔ (m.get? k).isSome :=
  AssocMap.lookup_isSome_iff_mem_keys.symm

/-- The keys of an insertion: a key already present keeps its place. -/
theorem keys_insert (m : IndexMap κ α) (k : κ) (v : α) :
    (m.insert k v).keys = if m.keys.contains k then m.keys else m.keys ++ [k] :=
  AssocMap.keys_put k v m.entries

theorem extend_cons (m : IndexMap κ α) (e : κ × α) (entries : List (κ × α)) :
    m.extend (e :: entries) = (m.insert e.1 e.2).extend entries := rfl

theorem get?_extend_of_notMem (m : IndexMap κ α) {entries : List (κ × α)} {k : κ}
    (h : ∀ e ∈ entries, e.1 ≠ k) : (m.extend entries).get? k = m.get? k := by
  induction entries generalizing m with
  | nil => rfl
  | cons e rest ih =>
    rw [extend_cons, ih _ fun e' he' => h e' (List.mem_cons_of_mem e he')]
    exact m.get?_insert_ne (h e List.mem_cons_self).symm e.2

theorem get?_extend_of_mem (m : IndexMap κ α) {entries : List (κ × α)}
    (hnodup : (entries.map Prod.fst).Nodup) {k : κ} {v : α} (h : (k, v) ∈ entries) :
    (m.extend entries).get? k = some v := by
  induction entries generalizing m with
  | nil => cases h
  | cons e rest ih =>
    rw [List.map_cons, List.nodup_cons] at hnodup
    rw [extend_cons]
    rcases List.mem_cons.mp h with rfl | h
    · have hrest : ∀ e ∈ rest, e.1 ≠ k := by
        intro e he hek
        exact hnodup.1 (List.mem_map.mpr ⟨e, he, hek⟩)
      rw [get?_extend_of_notMem _ hrest]
      exact m.get?_insert_self k v
    · exact ih _ hnodup.2 h

/-- The last entry of a key wins. -/
theorem get?_extend (m : IndexMap κ α) (entries : List (κ × α)) (k : κ) :
    (m.extend entries).get? k = (entries.reverse.lookup k).or (m.get? k) := by
  induction entries generalizing m with
  | nil => rfl
  | cons e rest ih =>
    obtain ⟨k', v⟩ := e
    rw [extend_cons, ih, get?_insert, List.reverse_cons, List.lookup_append, Option.or_assoc]
    congr 1
    cases hk : k == k' <;> simp [List.lookup_cons, hk]

theorem keys_extend {m : IndexMap κ α} {entries : List (κ × α)} (h : ∀ e ∈ entries, e.1 ∈ m.keys) :
    (m.extend entries).keys = m.keys := by
  induction entries generalizing m with
  | nil => rfl
  | cons e rest ih =>
    have hkept : (m.insert e.1 e.2).keys = m.keys := by
      rw [keys_insert, if_pos (List.contains_iff_mem.mpr (h e List.mem_cons_self))]
    rw [extend_cons, ih fun e' he' => ?_, hkept]
    rw [hkept]
    exact h e' (List.mem_cons_of_mem _ he')

/-- An extension changes nothing exactly where the last value of each key is the one it has. -/
theorem extend_eq_self_iff (m : IndexMap κ α) (entries : List (κ × α)) :
    m.extend entries = m ↔ ∀ k v, entries.reverse.lookup k = some v → m.get? k = some v := by
  constructor
  · intro h k v hv
    rw [← h, get?_extend, hv, Option.some_or]
  · intro h
    have hkeys : (m.extend entries).keys = m.keys := by
      refine keys_extend fun e he => ?_
      have hmem : e.1 ∈ entries.reverse.map Prod.fst :=
        List.mem_map_of_mem (List.mem_reverse.mpr he)
      obtain ⟨v, hv⟩ := Option.isSome_iff_exists.mp (AssocMap.lookup_isSome_iff_mem_keys.mpr hmem)
      rw [mem_keys_iff, h e.1 v hv, Option.isSome_some]
    refine ext (AssocMap.eq_of_lookup hkeys (m.extend entries).nodup fun k _ => ?_)
    change (m.extend entries).get? k = m.get? k
    rw [get?_extend]
    cases hlast : entries.reverse.lookup k with
    | none => rfl
    | some v => rw [h k v hlast, Option.some_or]

end IndexMap
