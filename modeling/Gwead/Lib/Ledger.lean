import Gwead.Lib.AssocMap

/-!
# Tables kept by owners

Several owners share a table.  An owner fills slots that are free, and later everything that is
its own is scrubbed.  As long as no slot is filled twice, the table is the concatenation of what
its owners declare, in the order they came.
-/

namespace Ledger

variable {κ α β ε : Type} [BEq κ] [LawfulBEq κ]

/-- Fill slots one after the other. -/
def putAll (entries table : List (κ × α)) : List (κ × α) :=
  entries.foldl (fun t e => AssocMap.put e.1 e.2 t) table

omit [LawfulBEq κ] in
theorem putAll_append (a b table : List (κ × α)) :
    putAll (a ++ b) table = putAll b (putAll a table) := List.foldl_append

omit [LawfulBEq κ] in
theorem put_fresh {k : κ} {table : List (κ × α)} (v : α) (h : table.lookup k = none) :
    AssocMap.put k v table = table ++ [(k, v)] := by
  induction table with
  | nil => rfl
  | cons e rest ih =>
    obtain ⟨k', v'⟩ := e
    rw [List.lookup_cons] at h
    cases hk : k == k' with
    | true => simp [hk] at h
    | false =>
      simp only [hk] at h
      simp [AssocMap.put, hk, ih h]

omit [LawfulBEq κ] in
theorem lookup_append_none {k : κ} {t t' : List (κ × α)} :
    (t ++ t').lookup k = none ↔ t.lookup k = none ∧ t'.lookup k = none := by
  rw [List.lookup_append, Option.or_eq_none_iff]

/-- Free slots with different keys end up at the end of the table, in order. -/
theorem putAll_fresh {entries table : List (κ × α)} (hkeys : (entries.map Prod.fst).Nodup)
    (hfree : ∀ e ∈ entries, table.lookup e.1 = none) :
    putAll entries table = table ++ entries := by
  induction entries generalizing table with
  | nil => simp [putAll]
  | cons e rest ih =>
    rw [List.map_cons, List.nodup_cons] at hkeys
    have hstep : putAll (e :: rest) table = putAll rest (AssocMap.put e.1 e.2 table) := rfl
    rw [hstep, put_fresh e.2 (hfree e List.mem_cons_self), ih hkeys.2]
    · simp
    · intro e' he'
      rw [lookup_append_none]
      refine ⟨hfree e' (List.mem_cons_of_mem _ he'), ?_⟩
      have hne : e'.1 ≠ e.1 := fun h => hkeys.1 (List.mem_map.mpr ⟨e', he', h⟩)
      rw [List.lookup_cons, beq_eq_false_iff_ne.mpr hne, List.lookup_nil]

/-- A table that holds exactly the given entries, each key once. -/
structure Holds (table content : List (κ × α)) : Prop where
  eq : table = content
  nodup : (content.map Prod.fst).Nodup

namespace Holds

variable {table content entries : List (κ × α)}

omit [BEq κ] [LawfulBEq κ] in
theorem nil : Holds ([] : List (κ × α)) [] := ⟨rfl, List.nodup_nil⟩

theorem lookup_iff (h : Holds table content) {k : κ} {v : α} :
    table.lookup k = some v ↔ (k, v) ∈ content := by
  rw [h.eq]
  exact ⟨AssocMap.mem_of_lookup, AssocMap.lookup_of_mem h.nodup⟩

theorem lookup_eq_none (h : Holds table content) {k : κ} :
    table.lookup k = none ↔ ∀ e ∈ content, e.1 ≠ k := by
  rw [h.eq, ← Option.not_isSome_iff_eq_none, AssocMap.lookup_isSome_iff_mem_keys, List.mem_map]
  exact ⟨fun hno e he heq => hno ⟨e, he, heq⟩, fun hall ⟨e, he, heq⟩ => hall e he heq⟩

theorem commit (h : Holds table content) (hkeys : (entries.map Prod.fst).Nodup)
    (hfree : ∀ e ∈ entries, table.lookup e.1 = none) :
    Holds (putAll entries table) (content ++ entries) := by
  refine ⟨by rw [putAll_fresh hkeys hfree, h.eq], ?_⟩
  rw [List.map_append, List.nodup_append]
  refine ⟨h.nodup, hkeys, ?_⟩
  rintro k hk _ hk' rfl
  obtain ⟨e, he, rfl⟩ := List.mem_map.mp hk'
  have hnone := hfree e he
  rw [h.eq, ← Option.not_isSome_iff_eq_none, AssocMap.lookup_isSome_iff_mem_keys] at hnone
  exact hnone hk

omit [BEq κ] [LawfulBEq κ] in
theorem scrub (h : Holds table content) (p : κ × α → Bool) :
    Holds (table.filter p) (content.filter p) :=
  ⟨by rw [h.eq], h.nodup.sublist (List.filter_sublist.map _)⟩

end Holds

/-! ### What the owners declare -/

/-- Scrubbing what one owner declares leaves what the others declare. -/
theorem filter_flatMap {owners : List ε} {declared : ε → List β} {keep : ε → Bool} {p : β → Bool}
    (h : ∀ e ∈ owners, ∀ b ∈ declared e, p b = keep e) :
    (owners.flatMap declared).filter p = (owners.filter keep).flatMap declared := by
  induction owners with
  | nil => rfl
  | cons e rest ih =>
    have hrest := ih fun e' he' => h e' (List.mem_cons_of_mem _ he')
    have hhead : (declared e).filter p = if keep e then declared e else [] := by
      cases hk : keep e with
      | true =>
        rw [if_pos rfl, List.filter_eq_self]
        exact fun b hb => (h e List.mem_cons_self b hb).trans hk
      | false =>
        rw [if_neg Bool.false_ne_true, List.filter_eq_nil_iff]
        intro b hb
        rw [h e List.mem_cons_self b hb, hk]
        exact Bool.false_ne_true
    rw [List.flatMap_cons, List.filter_append, hhead, hrest, List.filter_cons]
    cases keep e <;> simp

/-- Append what is not there yet. -/
def addNew [DecidableEq β] (acc : List β) (b : β) : List β := if b ∈ acc then acc else acc ++ [b]

/-- Adding a list of new elements does not look at what was there before. -/
theorem foldl_addNew_append [DecidableEq β] {c : List β} (acc : List β) {l : List β}
    (h : ∀ b ∈ l, b ∉ c) : l.foldl addNew (c ++ acc) = c ++ l.foldl addNew acc := by
  induction l generalizing acc with
  | nil => rfl
  | cons b rest ih =>
    have hb : b ∉ c := h b List.mem_cons_self
    have hstep : addNew (c ++ acc) b = c ++ addNew acc b := by
      by_cases hacc : b ∈ acc <;> simp [addNew, hb, hacc]
    rw [List.foldl_cons, hstep, ih _ fun b' hb' => h b' (List.mem_cons_of_mem _ hb')]
    rfl

theorem mem_foldl_addNew [DecidableEq β] (acc : List β) {l : List β} {b : β} :
    b ∈ l.foldl addNew acc ↔ b ∈ acc ∨ b ∈ l := by
  induction l generalizing acc with
  | nil => simp
  | cons a rest ih =>
    rw [List.foldl_cons, ih]
    by_cases ha : a ∈ acc
    · by_cases hb : b = a
      · simp [addNew, ha, hb]
      · simp [addNew, ha, hb]
    · simp [addNew, ha, or_assoc]

theorem nodup_foldl_addNew [DecidableEq β] {acc : List β} (hacc : acc.Nodup) (l : List β) :
    (l.foldl addNew acc).Nodup := by
  induction l generalizing acc with
  | nil => exact hacc
  | cons a rest ih =>
    apply ih
    by_cases ha : a ∈ acc
    · simpa [addNew, ha] using hacc
    · rw [addNew, if_neg ha, List.nodup_append]
      refine ⟨hacc, List.nodup_singleton a, ?_⟩
      rintro x hx y hy rfl
      exact ha (List.mem_singleton.mp hy ▸ hx)

/-! ### Tables of buckets -/

/-- The values filed under a key, in order. -/
def bucket (content : List (κ × α)) (k : κ) : List α :=
  content.filterMap fun e => if e.1 == k then some e.2 else none

/-- Each bucket of the table holds the values filed under its key. -/
structure Files (table : List (κ × List α)) (content : List (κ × α)) : Prop where
  keys : (table.map Prod.fst).Nodup
  bucket : ∀ k, (table.lookup k).getD [] = Ledger.bucket content k

/-- Drop what does not satisfy `keep` from every bucket, and the buckets left empty. -/
def retain (keep : α → Bool) (table : List (κ × List α)) : List (κ × List α) :=
  (table.map fun e => (e.1, e.2.filter keep)).filter fun e => !e.2.isEmpty

/-- File a value under a key. -/
def file (table : List (κ × List α)) (e : κ × α) : List (κ × List α) :=
  AssocMap.put e.1 ((table.lookup e.1).getD [] ++ [e.2]) table

/-- File a value under a key unless it is there. -/
def fileNew [BEq α] (table : List (κ × List α)) (e : κ × α) : List (κ × List α) :=
  AssocMap.put e.1
    (if ((table.lookup e.1).getD []).contains e.2 then (table.lookup e.1).getD []
      else (table.lookup e.1).getD [] ++ [e.2]) table

omit [LawfulBEq κ] in
@[simp] theorem bucket_append (c c' : List (κ × α)) (k : κ) :
    bucket (c ++ c') k = bucket c k ++ bucket c' k := by
  simp [bucket]

omit [LawfulBEq κ] in
theorem bucket_cons (e : κ × α) (content : List (κ × α)) (k : κ) :
    bucket (e :: content) k = (if e.1 == k then [e.2] else []) ++ bucket content k := by
  cases he : e.1 == k <;> simp [bucket, he]

theorem mem_bucket {content : List (κ × α)} {k : κ} {v : α} :
    v ∈ bucket content k ↔ (k, v) ∈ content := by
  simp only [bucket, List.mem_filterMap, Option.ite_none_right_eq_some, Option.some.injEq,
    beq_iff_eq, Prod.exists]
  constructor
  · rintro ⟨_, _, hmem, rfl, rfl⟩
    exact hmem
  · intro hmem
    exact ⟨k, v, hmem, rfl, rfl⟩

omit [LawfulBEq κ] in
theorem bucket_filter (content : List (κ × α)) (keep : α → Bool) (k : κ) :
    bucket (content.filter fun e => keep e.2) k = (bucket content k).filter keep := by
  induction content with
  | nil => rfl
  | cons e rest ih =>
    rw [List.filter_cons, bucket_cons e rest, List.filter_append, ← ih]
    cases hkeep : keep e.2 <;> cases he : e.1 == k <;> simp [bucket_cons, hkeep, he]

namespace Files

variable {table : List (κ × List α)} {content : List (κ × α)}

omit [LawfulBEq κ] in
theorem nil : Files ([] : List (κ × List α)) ([] : List (κ × α)) :=
  ⟨List.nodup_nil, fun _ => rfl⟩

/-- File a value under a key. -/
theorem push (h : Files table content) (k : κ) (v : α) :
    Files (AssocMap.put k ((table.lookup k).getD [] ++ [v]) table) (content ++ [(k, v)]) := by
  refine ⟨AssocMap.nodup_keys_put k _ h.keys, ?_⟩
  intro k'
  rw [AssocMap.lookup_put, bucket_append]
  by_cases hk : k' = k
  · subst hk
    simp [h.bucket, Ledger.bucket]
  · have hne : k ≠ k' := Ne.symm hk
    simp [hk, h.bucket, Ledger.bucket, hne]

/-- Filing what is already there again changes nothing. -/
theorem same (h : Files table content) (k : κ) :
    Files (AssocMap.put k ((table.lookup k).getD []) table) content := by
  refine ⟨AssocMap.nodup_keys_put k _ h.keys, ?_⟩
  intro k'
  rw [AssocMap.lookup_put]
  by_cases hk : k' = k
  · subst hk
    simp [h.bucket]
  · simp [hk, h.bucket]

/-- Filing what is new files what `addNew` appends. -/
theorem foldl_fileNew [DecidableEq κ] [BEq α] [LawfulBEq α] [DecidableEq α] (h : Files table content)
    (l : List (κ × α)) : Files (l.foldl fileNew table) (l.foldl addNew content) := by
  induction l generalizing table content with
  | nil => exact h
  | cons e rest ih =>
    apply ih
    have hmem : e.2 ∈ (table.lookup e.1).getD [] ↔ e ∈ content := by
      rw [h.bucket, mem_bucket]
    by_cases he : e ∈ content
    · rw [fileNew, addNew, if_pos (List.contains_iff_mem.mpr (hmem.mpr he)), if_pos he]
      exact h.same e.1
    · rw [fileNew, addNew, if_neg (fun hc => he (hmem.mp (List.contains_iff_mem.mp hc))), if_neg he]
      exact h.push e.1 e.2

theorem foldl_file (h : Files table content) (l : List (κ × α)) :
    Files (l.foldl file table) (content ++ l) := by
  induction l generalizing table content with
  | nil => simpa using h
  | cons e rest ih =>
    have hrest := ih (h.push e.1 e.2)
    rwa [List.append_assoc] at hrest

theorem lookup_retain {keep : α → Bool} (hkeys : (table.map Prod.fst).Nodup) (k : κ) :
    ((retain keep table).lookup k).getD [] = ((table.lookup k).getD []).filter keep := by
  induction table with
  | nil => rfl
  | cons e rest ih =>
    obtain ⟨k', vs⟩ := e
    rw [List.map_cons, List.nodup_cons] at hkeys
    have hrest := ih hkeys.2
    have hcons : retain keep ((k', vs) :: rest) =
        (if (vs.filter keep).isEmpty then [] else [(k', vs.filter keep)]) ++ retain keep rest := by
      cases hempty : (vs.filter keep).isEmpty <;>
        simp only [retain, List.map_cons, List.filter_cons, hempty] <;> rfl
    rw [hcons, List.lookup_cons]
    by_cases hk : k = k'
    · subst hk
      have hnone : rest.lookup k = none := by
        rw [← Option.not_isSome_iff_eq_none, AssocMap.lookup_isSome_iff_mem_keys]
        exact hkeys.1
      rw [hnone] at hrest
      cases hempty : (vs.filter keep).isEmpty with
      | true => simpa [List.isEmpty_iff.mp hempty] using hrest
      | false => simp
    · rw [beq_eq_false_iff_ne.mpr hk]
      cases hempty : (vs.filter keep).isEmpty with
      | true => simpa using hrest
      | false => simpa [List.lookup_cons, beq_eq_false_iff_ne.mpr hk] using hrest

theorem scrub (h : Files table content) (keep : α → Bool) :
    Files (retain keep table) (content.filter fun e => keep e.2) := by
  refine ⟨?_, ?_⟩
  · have hmap : (table.map fun e => (e.1, e.2.filter keep)).map Prod.fst = table.map Prod.fst := by
      simp
    exact (hmap ▸ h.keys).sublist (List.filter_sublist.map _)
  · intro k
    rw [lookup_retain h.keys, h.bucket, bucket_filter]

end Files

end Ledger
