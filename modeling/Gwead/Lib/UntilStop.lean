import Mathlib.Algebra.Group.Int.Defs
import Mathlib.Algebra.GroupWithZero.Nat
import Mathlib.Data.List.Basic
import Mathlib.Order.Lattice

/-!
# Loops that can stop early

A loop over a list whose body hands on a state and may stop it.
-/

namespace UntilStop

variable {α σ τ : Type}

/-- Run the body on every element until it stops. -/
def run (body : α → σ → σ × Option τ) : List α → σ → σ × Option τ
  | [], s => (s, none)
  | a :: rest, s =>
    match body a s with
    | (s', some stop) => (s', some stop)
    | (s', none) => run body rest s'

variable {body : α → σ → σ × Option τ}

@[simp] theorem run_nil (s : σ) : run body [] s = (s, none) := rfl

theorem run_cons_stop {a : α} {rest : List α} {s s' : σ} {stop : τ}
    (h : body a s = (s', some stop)) : run body (a :: rest) s = (s', some stop) := by
  simp only [run, h]

theorem run_cons_next {a : α} {rest : List α} {s s' : σ} (h : body a s = (s', none)) :
    run body (a :: rest) s = run body rest s' := by
  simp only [run, h]

theorem run_singleton (a : α) (s : σ) : run body [a] s = body a s := by
  cases hstep : body a s with
  | mk s' stop =>
    cases stop with
    | some stop => exact run_cons_stop hstep
    | none => exact run_cons_next hstep

/-- `P` holds whenever the body is about to run, and `Q` wherever the loop ends. -/
theorem run_rule {P Q : σ → Prop} {as : List α} (hPQ : ∀ s, P s → Q s)
    (hbody : ∀ a ∈ as, ∀ s, P s → Q (body a s).1 ∧ ((body a s).2 = none → P (body a s).1))
    {s : σ} (hs : P s) : Q (run body as s).1 ∧ ((run body as s).2 = none → P (run body as s).1) := by
  induction as generalizing s with
  | nil => exact ⟨hPQ s hs, fun _ => hs⟩
  | cons a rest ih =>
    obtain ⟨hQ, hP⟩ := hbody a List.mem_cons_self s hs
    cases hstep : body a s with
    | mk s' stop =>
      rw [hstep] at hQ hP
      cases stop with
      | some stop =>
        rw [run_cons_stop hstep]
        exact ⟨hQ, nofun⟩
      | none =>
        rw [run_cons_next hstep]
        exact ih (fun b hb => hbody b (List.mem_cons_of_mem a hb)) (hP rfl)

/-- What relates the loop to its answer while it goes on is related to it where it ends. -/
theorem run_ends {Q : σ → Option τ → Prop} {as : List α}
    (hbody : ∀ a ∈ as, ∀ s, Q s none → Q (body a s).1 (body a s).2) {s : σ} (hs : Q s none) :
    Q (run body as s).1 (run body as s).2 := by
  induction as generalizing s with
  | nil => exact hs
  | cons a rest ih =>
    have ha := hbody a List.mem_cons_self s hs
    cases hstep : body a s with
    | mk s' stop =>
      rw [hstep] at ha
      cases stop with
      | some stop =>
        rw [run_cons_stop hstep]
        exact ha
      | none =>
        rw [run_cons_next hstep]
        exact ih (fun b hb => hbody b (List.mem_cons_of_mem a hb)) ha

/-- A loop that carries more than another and does the same on what they share. -/
theorem run_project {ρ : Type} (proj : ρ → σ) {body' : α → ρ → ρ × Option τ}
    (hbody : ∀ a r, body a (proj r) = (proj (body' a r).1, (body' a r).2)) (as : List α) (r : ρ) :
    run body as (proj r) = (proj (run body' as r).1, (run body' as r).2) := by
  induction as generalizing r with
  | nil => rfl
  | cons a rest ih =>
    have ha := hbody a r
    cases hstep : body' a r with
    | mk r' stop =>
      rw [hstep] at ha
      cases stop with
      | some stop => rw [run_cons_stop ha, run_cons_stop hstep]
      | none => rw [run_cons_next ha, run_cons_next hstep, ih]

/-- An invariant of the body is an invariant of the loop. -/
theorem run_invariant {P : σ → Prop} {as : List α}
    (hbody : ∀ a ∈ as, ∀ s, P s → P (body a s).1) {s : σ} (hs : P s) : P (run body as s).1 :=
  (run_rule (Q := P) (fun _ h => h)
    (fun a ha s h => ⟨hbody a ha s h, fun _ => hbody a ha s h⟩) hs).1

/-- `P` holds of what has been run and the state whenever the body is about to run. -/
theorem run_along {P : List α → σ → Prop} {Q : σ → Prop} {as : List α}
    (hPQ : ∀ done s, P done s → Q s)
    (hbody : ∀ done a rest, as = done ++ a :: rest → ∀ s, P done s →
      Q (body a s).1 ∧ ((body a s).2 = none → P (done ++ [a]) (body a s).1))
    {s : σ} (hs : P [] s) :
    Q (run body as s).1 ∧ ((run body as s).2 = none → P as (run body as s).1) := by
  have hfrom : ∀ (rest done : List α) (s : σ), as = done ++ rest → P done s →
      Q (run body rest s).1 ∧ ((run body rest s).2 = none → P as (run body rest s).1) := by
    intro rest
    induction rest with
    | nil =>
      intro done s has hs
      rw [List.append_nil] at has
      exact ⟨hPQ done s hs, fun _ => has ▸ hs⟩
    | cons a rest ih =>
      intro done s has hs
      obtain ⟨hQ, hP⟩ := hbody done a rest has s hs
      cases hstep : body a s with
      | mk s' stop =>
        rw [hstep] at hQ hP
        cases stop with
        | some stop =>
          rw [run_cons_stop hstep]
          exact ⟨hQ, nofun⟩
        | none =>
          rw [run_cons_next hstep]
          exact ih (done ++ [a]) s' (by rw [has, List.append_assoc]; rfl) (hP rfl)
  exact hfrom as [] s rfl hs

/-- What the body appends to an output, the loop appends one element after the other: a prefix
of the whole when it stops, the whole when it does not. -/
theorem run_output {β : Type} {out : σ → List β} {g : α → List β}
    (hbody : ∀ a s, ∃ p, out (body a s).1 = out s ++ p ∧ p <+: g a ∧
      ((body a s).2 = none → p = g a)) (as : List α) (s : σ) :
    ∃ p, out (run body as s).1 = out s ++ p ∧ p <+: as.flatMap g ∧
      ((run body as s).2 = none → p = as.flatMap g) := by
  induction as generalizing s with
  | nil => exact ⟨[], by simp, List.nil_prefix, fun _ => rfl⟩
  | cons a rest ih =>
    obtain ⟨p, hout, hprefix, hfull⟩ := hbody a s
    cases hstep : body a s with
    | mk s' stop =>
      rw [hstep] at hout hfull
      cases stop with
      | some stop =>
        rw [run_cons_stop hstep]
        exact ⟨p, hout, hprefix.trans (List.prefix_append _ _), nofun⟩
      | none =>
        obtain rfl := hfull rfl
        obtain ⟨q, hout', hprefix', hfull'⟩ := ih s'
        rw [run_cons_next hstep]
        refine ⟨g a ++ q, ?_, ?_, fun h => ?_⟩
        · rw [hout', hout, List.append_assoc]
        · rw [List.flatMap_cons]
          exact List.prefix_append_right_inj _ |>.mpr hprefix'
        · rw [List.flatMap_cons, hfull' h]

end UntilStop
