import Mathlib.Algebra.Group.Int.Defs
import Mathlib.Algebra.GroupWithZero.Nat
import Mathlib.Computability.Language
import Mathlib.Order.Lattice

/-!
# Regular expressions over character classes

The language of an expression, and a matcher by derivatives that decides it.
-/

open Computability

inductive Regex (α : Type) where
  | nothing
  | empty
  | chars (p : α → Bool)
  | seq (r s : Regex α)
  | alt (r s : Regex α)
  | star (r : Regex α)

namespace Regex

variable {α : Type}

def lang : Regex α → Language α
  | nothing => 0
  | empty => 1
  | chars p => {w | ∃ c, p c = true ∧ w = [c]}
  | seq r s => r.lang * s.lang
  | alt r s => r.lang + s.lang
  | star r => r.lang∗

def nullable : Regex α → Bool
  | nothing => false
  | empty => true
  | chars _ => false
  | seq r s => r.nullable && s.nullable
  | alt r s => r.nullable || s.nullable
  | star _ => true

/-- What is left to match after one character. -/
def deriv (c : α) : Regex α → Regex α
  | nothing => nothing
  | empty => nothing
  | chars p => if p c then empty else nothing
  | seq r s => if r.nullable then alt (seq (r.deriv c) s) (s.deriv c) else seq (r.deriv c) s
  | alt r s => alt (r.deriv c) (s.deriv c)
  | star r => seq (r.deriv c) (star r)

def accepts (r : Regex α) (w : List α) : Bool := (w.foldl (fun r c => r.deriv c) r).nullable

/-! ### Derived forms -/

def literal [DecidableEq α] : List α → Regex α
  | [] => empty
  | c :: cs => seq (chars fun d => decide (d = c)) (literal cs)

def plus (r : Regex α) : Regex α := seq r (star r)

def opt (r : Regex α) : Regex α := alt r empty

def upTo (r : Regex α) : Nat → Regex α
  | 0 => empty
  | n + 1 => opt (seq r (upTo r n))

def oneOf : List (Regex α) → Regex α
  | [] => nothing
  | r :: rs => alt r (oneOf rs)

def anything : Regex α := star (chars fun _ => true)

/-! ### Membership, one equation a form -/

@[simp] theorem mem_nothing {w : List α} : w ∈ (nothing : Regex α).lang ↔ False := Iff.rfl

@[simp] theorem mem_empty {w : List α} : w ∈ (empty : Regex α).lang ↔ w = [] := Iff.rfl

@[simp] theorem mem_chars {p : α → Bool} {w : List α} :
    w ∈ (chars p).lang ↔ ∃ c, p c = true ∧ w = [c] := Iff.rfl

theorem mem_seq {r s : Regex α} {w : List α} :
    w ∈ (seq r s).lang ↔ ∃ a ∈ r.lang, ∃ b ∈ s.lang, a ++ b = w := Language.mem_mul

@[simp] theorem mem_alt {r s : Regex α} {w : List α} :
    w ∈ (alt r s).lang ↔ w ∈ r.lang ∨ w ∈ s.lang := Iff.rfl

theorem mem_star {r : Regex α} {w : List α} : w ∈ (star r).lang ↔ w ∈ r.lang∗ := Iff.rfl

@[simp] theorem mem_opt {r : Regex α} {w : List α} :
    w ∈ (opt r).lang ↔ w ∈ r.lang ∨ w = [] := Iff.rfl

@[simp] theorem mem_literal [DecidableEq α] {text w : List α} :
    w ∈ (literal text).lang ↔ w = text := by
  induction text generalizing w with
  | nil => rfl
  | cons c cs ih =>
    rw [literal, mem_seq]
    constructor
    · rintro ⟨_, ⟨d, hd, rfl⟩, b, hb, rfl⟩
      rw [of_decide_eq_true hd, ih.mp hb]
      rfl
    · rintro rfl
      exact ⟨[c], ⟨c, decide_eq_true rfl, rfl⟩, cs, ih.mpr rfl, rfl⟩

/-- A literal is matched once and at the front. -/
theorem mem_literal_seq [DecidableEq α] {text : List α} {r : Regex α} {w : List α} :
    w ∈ (seq (literal text) r).lang ↔ ∃ rest ∈ r.lang, text ++ rest = w := by
  rw [mem_seq]
  constructor
  · rintro ⟨a, ha, rest, hrest, hw⟩
    rw [mem_literal.mp ha] at hw
    exact ⟨rest, hrest, hw⟩
  · rintro ⟨rest, hrest, hw⟩
    exact ⟨text, mem_literal.mpr rfl, rest, hrest, hw⟩

theorem mem_oneOf {rs : List (Regex α)} {w : List α} :
    w ∈ (oneOf rs).lang ↔ ∃ r ∈ rs, w ∈ r.lang := by
  induction rs with
  | nil => simp [oneOf]
  | cons r rs ih => simp [oneOf, ih]

theorem nil_mem_star {r : Regex α} : [] ∈ (star r).lang := Language.nil_mem_kstar r.lang

theorem append_mem_star {r : Regex α} {a b : List α} (ha : a ∈ r.lang) (hb : b ∈ (star r).lang) :
    a ++ b ∈ (star r).lang := by
  obtain ⟨parts, rfl, hparts⟩ := Language.mem_kstar.mp (mem_star.mp hb)
  exact Language.mem_kstar.mpr ⟨a :: parts, rfl, List.forall_mem_cons.mpr ⟨ha, hparts⟩⟩

/-- A star that matches a character matches it at the start of one of its rounds. -/
theorem cons_mem_star {r : Regex α} {c : α} {w : List α} :
    c :: w ∈ (star r).lang ↔ ∃ a b, c :: a ∈ r.lang ∧ b ∈ (star r).lang ∧ a ++ b = w := by
  rw [mem_star, Language.mem_kstar_iff_exists_nonempty]
  constructor
  · rintro ⟨parts, hw, hparts⟩
    cases parts with
    | nil => cases hw
    | cons part parts =>
      obtain ⟨hpart, hne⟩ := hparts part (by simp)
      cases part with
      | nil => exact absurd rfl hne
      | cons d a =>
        rw [List.flatten_cons, List.cons_append, List.cons.injEq] at hw
        obtain ⟨rfl, rfl⟩ := hw
        refine ⟨a, parts.flatten, hpart, ?_, rfl⟩
        exact Language.join_mem_kstar fun y hy => (hparts y (List.mem_cons_of_mem _ hy)).1
  · rintro ⟨a, b, ha, hb, rfl⟩
    obtain ⟨parts, rfl, hparts⟩ := Language.mem_kstar_iff_exists_nonempty.mp (mem_star.mp hb)
    refine ⟨(c :: a) :: parts, by simp, fun y hy => ?_⟩
    cases hy with
    | head => exact ⟨ha, by simp⟩
    | tail _ hy => exact hparts y hy

theorem mem_star_chars {p : α → Bool} {w : List α} :
    w ∈ (star (chars p)).lang ↔ ∀ c ∈ w, p c = true := by
  induction w with
  | nil => simp [nil_mem_star]
  | cons c w ih =>
    rw [cons_mem_star, List.forall_mem_cons, ← ih]
    constructor
    · rintro ⟨a, b, ⟨d, hd, ha⟩, hb, rfl⟩
      cases ha
      exact ⟨hd, hb⟩
    · rintro ⟨hc, hw⟩
      exact ⟨[], w, ⟨c, hc, rfl⟩, hw, rfl⟩

theorem mem_plus_chars {p : α → Bool} {w : List α} :
    w ∈ (plus (chars p)).lang ↔ w ≠ [] ∧ ∀ c ∈ w, p c = true := by
  rw [plus, mem_seq]
  constructor
  · rintro ⟨_, ⟨c, hc, rfl⟩, b, hb, rfl⟩
    exact ⟨by simp, List.forall_mem_cons.mpr ⟨hc, mem_star_chars.mp hb⟩⟩
  · rintro ⟨hne, hall⟩
    obtain ⟨c, cs, rfl⟩ := List.exists_cons_of_ne_nil hne
    obtain ⟨hc, hcs⟩ := List.forall_mem_cons.mp hall
    exact ⟨[c], ⟨c, hc, rfl⟩, cs, mem_star_chars.mpr hcs, rfl⟩

theorem mem_upTo_chars {p : α → Bool} {n : Nat} {w : List α} :
    w ∈ (upTo (chars p) n).lang ↔ w.length ≤ n ∧ ∀ c ∈ w, p c = true := by
  induction n generalizing w with
  | zero => cases w <;> simp [upTo]
  | succ n ih =>
    rw [upTo, mem_opt, mem_seq]
    constructor
    · rintro (⟨_, ⟨c, hc, rfl⟩, b, hb, rfl⟩ | rfl)
      · obtain ⟨hlen, hall⟩ := ih.mp hb
        exact ⟨Nat.succ_le_succ hlen, List.forall_mem_cons.mpr ⟨hc, hall⟩⟩
      · exact ⟨Nat.zero_le _, by simp⟩
    · rintro ⟨hlen, hall⟩
      cases w with
      | nil => exact Or.inr rfl
      | cons c cs =>
        obtain ⟨hc, hcs⟩ := List.forall_mem_cons.mp hall
        exact Or.inl ⟨[c], ⟨c, hc, rfl⟩, cs, ih.mpr ⟨Nat.le_of_succ_le_succ hlen, hcs⟩, rfl⟩

theorem mem_anything (w : List α) : w ∈ (anything : Regex α).lang :=
  mem_star_chars.mpr fun _ _ => rfl

/-- Matching at the front of a text is matching a text of which the rest is free. -/
theorem mem_seq_anything {r : Regex α} {w : List α} :
    w ∈ (seq r anything).lang ↔ ∃ a ∈ r.lang, a <+: w := by
  rw [mem_seq]
  constructor
  · rintro ⟨a, ha, b, _, hw⟩
    exact ⟨a, ha, b, hw⟩
  · rintro ⟨a, ha, b, hw⟩
    exact ⟨a, ha, b, mem_anything b, hw⟩

/-! ### The matcher decides the language -/

theorem nullable_iff {r : Regex α} : r.nullable = true ↔ [] ∈ r.lang := by
  induction r with
  | nothing => simp [nullable]
  | empty => simp [nullable]
  | chars p => simp [nullable]
  | seq r s ihr ihs =>
    rw [nullable, Bool.and_eq_true, ihr, ihs, mem_seq]
    constructor
    · rintro ⟨hr, hs⟩
      exact ⟨[], hr, [], hs, rfl⟩
    · rintro ⟨a, ha, b, hb, hab⟩
      obtain ⟨rfl, rfl⟩ := List.append_eq_nil_iff.mp hab
      exact ⟨ha, hb⟩
  | alt r s ihr ihs => rw [nullable, Bool.or_eq_true, ihr, ihs, mem_alt]
  | star r _ => exact iff_of_true rfl nil_mem_star

/-- What follows a character in a sequence: the rest of the first part and the second, or the rest
of the second when the first part may be empty. -/
theorem cons_mem_seq {r s : Regex α} {c : α} {w : List α} :
    c :: w ∈ (seq r s).lang ↔
      (∃ a b, c :: a ∈ r.lang ∧ b ∈ s.lang ∧ a ++ b = w) ∨ [] ∈ r.lang ∧ c :: w ∈ s.lang := by
  rw [mem_seq]
  constructor
  · rintro ⟨a, ha, b, hb, hab⟩
    cases a with
    | nil =>
      rw [List.nil_append] at hab
      exact Or.inr ⟨ha, hab ▸ hb⟩
    | cons d a =>
      rw [List.cons_append, List.cons.injEq] at hab
      obtain ⟨rfl, rfl⟩ := hab
      exact Or.inl ⟨a, b, ha, hb, rfl⟩
  · rintro (⟨a, b, ha, hb, rfl⟩ | ⟨hr, hs⟩)
    · exact ⟨c :: a, ha, b, hb, rfl⟩
    · exact ⟨[], hr, c :: w, hs, rfl⟩

theorem mem_deriv {r : Regex α} {c : α} {w : List α} :
    w ∈ (r.deriv c).lang ↔ c :: w ∈ r.lang := by
  induction r generalizing w with
  | nothing => simp [deriv]
  | empty => simp [deriv]
  | chars p =>
    by_cases hc : p c = true
    · simp [deriv, hc]
    · simp [deriv, hc]
  | seq r s ihr ihs =>
    have hfirst : w ∈ (seq (r.deriv c) s).lang ↔
        ∃ a b, c :: a ∈ r.lang ∧ b ∈ s.lang ∧ a ++ b = w := by
      rw [mem_seq]
      constructor
      · rintro ⟨a, ha, b, hb, hab⟩
        exact ⟨a, b, ihr.mp ha, hb, hab⟩
      · rintro ⟨a, b, ha, hb, hab⟩
        exact ⟨a, ihr.mpr ha, b, hb, hab⟩
    rw [cons_mem_seq, ← hfirst, ← nullable_iff, deriv]
    by_cases hnull : r.nullable = true
    · simp [hnull, ihs]
    · simp [hnull]
  | alt r s ihr ihs => rw [deriv, mem_alt, mem_alt, ihr, ihs]
  | star r ih =>
    rw [deriv, mem_seq, cons_mem_star]
    constructor
    · rintro ⟨a, ha, b, hb, hab⟩
      exact ⟨a, b, ih.mp ha, hb, hab⟩
    · rintro ⟨a, b, ha, hb, hab⟩
      exact ⟨a, ih.mpr ha, b, hb, hab⟩

theorem accepts_iff {r : Regex α} {w : List α} : r.accepts w = true ↔ w ∈ r.lang := by
  induction w generalizing r with
  | nil => exact nullable_iff
  | cons c w ih => exact ih.trans mem_deriv

end Regex
