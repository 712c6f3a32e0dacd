import Mathlib.Algebra.Group.Int.Defs
import Mathlib.Algebra.GroupWithZero.Nat
import Mathlib.Data.List.Basic
import Mathlib.Order.Lattice

/-!
# Runs of labelled transition systems

A run is a finite sequence of steps together with the events they show.
-/

namespace Transition

variable {σ ε : Type}

/-- The states a step relation reaches from `s`, with the events on the way. -/
inductive Run (step : σ → ε → σ → Prop) (s : σ) : List ε → σ → Prop
  | nil : Run step s [] s
  | snoc {es : List ε} {t u : σ} {e : ε} (h : Run step s es t) (hstep : step t e u) :
      Run step s (es ++ [e]) u

variable {step step' : σ → ε → σ → Prop} {s t u : σ}

/-- What holds at the start and is kept by every step holds of every run. -/
theorem Run.invariant {P : List ε → σ → Prop} (hstart : P [] s)
    (hkeep : ∀ es t e u, P es t → step t e u → P (es ++ [e]) u) {es : List ε}
    (h : Run step s es t) : P es t := by
  induction h with
  | nil => exact hstart
  | snoc h hstep ih => exact hkeep _ _ _ _ ih hstep

theorem Run.mono (hsub : ∀ t e u, step t e u → step' t e u) {es : List ε}
    (h : Run step s es t) : Run step' s es t := by
  induction h with
  | nil => exact .nil
  | snoc h hstep ih => exact .snoc ih (hsub _ _ _ hstep)

theorem Run.single {e : ε} (h : step s e t) : Run step s [e] t := .snoc .nil h

theorem Run.trans {es es' : List ε} (h : Run step s es t) (h' : Run step t es' u) :
    Run step s (es ++ es') u := by
  induction h' with
  | nil => rwa [List.append_nil]
  | snoc h' hstep ih =>
    rw [← List.append_assoc]
    exact .snoc ih hstep

/-- Every event of a run is the event of one of its steps. -/
theorem Run.split {es pre post : List ε} {e : ε} (h : Run step s es u)
    (hes : es = pre ++ e :: post) :
    ∃ t t', Run step s pre t ∧ step t e t' ∧ Run step t' post u := by
  induction h generalizing post with
  | nil => exact nomatch (List.append_eq_nil_iff.mp hes.symm).2
  | @snoc es t u e' h hstep ih =>
    rcases List.eq_nil_or_concat post with rfl | ⟨post', last, rfl⟩
    · obtain ⟨rfl, he⟩ := List.append_inj' hes rfl
      cases he
      exact ⟨t, u, h, hstep, .nil⟩
    · rw [List.concat_eq_append, ← List.cons_append, ← List.append_assoc] at hes
      obtain ⟨hinit, hlast⟩ := List.append_inj' hes rfl
      cases hlast
      obtain ⟨a, b, hpre, hab, hpost⟩ := ih hinit
      exact ⟨a, b, hpre, hab, by rw [List.concat_eq_append]; exact .snoc hpost hstep⟩

/-! ### Runs that end -/

section Ends

variable {counted : ε → Bool} {measure : List ε → σ → Nat} {P : List ε → σ → Prop}

/-- A measure that every counted event lowers, and no other raises, bounds how many there are. -/
theorem Run.countP_le (hstart : P [] s)
    (hkeep : ∀ es t e u, P es t → step t e u → P (es ++ [e]) u)
    (hdown : ∀ es t e u, P es t → step t e u →
      measure (es ++ [e]) u + (if counted e then 1 else 0) ≤ measure es t)
    {es : List ε} (h : Run step s es t) : es.countP counted + measure es t ≤ measure [] s := by
  have hboth : P es t ∧ es.countP counted + measure es t ≤ measure [] s := by
    refine h.invariant (P := fun es t => P es t ∧ es.countP counted + measure es t ≤ measure [] s)
      ⟨hstart, by simp⟩ ?_
    rintro es t e u ⟨hP, hle⟩ hstep
    have hlower := hdown es t e u hP hstep
    rw [List.countP_append, List.countP_singleton]
    exact ⟨hkeep es t e u hP hstep, by omega⟩
  exact hboth.2

/-- If a run can always go on by a counted event until it is done, it can be brought to an end by
counted events alone. -/
theorem Run.reaches_end {Q : σ → Prop}
    (hkeep : ∀ es t e u, P es t → step t e u → P (es ++ [e]) u)
    (hdown : ∀ es t e u, P es t → step t e u →
      measure (es ++ [e]) u + (if counted e then 1 else 0) ≤ measure es t)
    (hprogress : ∀ es t, P es t → ¬Q t → ∃ e u, counted e = true ∧ step t e u)
    (es : List ε) (hP : P es t) :
    ∃ es' u, Run step t es' u ∧ (∀ e ∈ es', counted e = true) ∧ Q u := by
  induction hm : measure es t using Nat.strongRecOn generalizing es t with
  | ind m ih =>
    by_cases hdone : Q t
    · exact ⟨[], t, .nil, fun e he => absurd he List.not_mem_nil, hdone⟩
    · obtain ⟨e, u, hcounted, hstep⟩ := hprogress es t hP hdone
      have hlower := hdown es t e u hP hstep
      rw [hcounted, if_pos rfl, hm] at hlower
      obtain ⟨es', v, hrun, hall, hend⟩ := ih _ hlower (es ++ [e]) (hkeep es t e u hP hstep) rfl
      refine ⟨[e] ++ es', v, (Run.single hstep).trans hrun, fun e' he' => ?_, hend⟩
      rcases List.mem_append.mp he' with he' | he'
      · rw [List.mem_singleton.mp he', hcounted]
      · exact hall e' he'

end Ends

/-! ### Driven runs -/

variable {κ : Type} {next : σ → κ → Option (ε × σ)}

/-- Make the choices one after the other. -/
def drive (next : σ → κ → Option (ε × σ)) : List κ → σ → Option (List ε × σ)
  | [], s => some ([], s)
  | choice :: rest, s =>
    (next s choice).bind fun (e, t) => (drive next rest t).map fun (es, u) => (e :: es, u)

theorem drive_run {choices : List κ} {es : List ε}
    (hstep : ∀ choice ∈ choices, ∀ s e t, next s choice = some (e, t) → step s e t)
    (h : drive next choices s = some (es, u)) : Run step s es u := by
  induction choices generalizing s es with
  | nil =>
    cases h
    exact .nil
  | cons choice rest ih =>
    obtain ⟨⟨e, t⟩, hnext, h⟩ := Option.bind_eq_some_iff.mp h
    obtain ⟨⟨es', u'⟩, hrest, h⟩ := Option.map_eq_some_iff.mp h
    cases h
    have hfirst := hstep choice List.mem_cons_self s e t hnext
    exact (Run.single hfirst).trans
      (ih (fun choice' hin => hstep choice' (List.mem_cons_of_mem choice hin)) hrest)

end Transition
