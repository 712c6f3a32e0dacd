import Mathlib.Algebra.Group.Int.Defs
import Mathlib.Algebra.GroupWithZero.Nat
import Mathlib.Data.List.Basic
import Mathlib.Order.Lattice

/-!
# Contracts along a run

A machine takes one step for each event of a list.  A contract relates a state to the event taken
there; it holds along a run when it holds at every step.
-/

namespace StepContract

variable {σ ε : Type} (step : σ → ε → σ)

/-- The contract holds at every step of the run from a state. -/
def Along (K : σ → ε → Prop) : σ → List ε → Prop
  | _, [] => True
  | s, e :: events => K s e ∧ Along K (step s e) events

variable {step} {K H : σ → ε → Prop}

/-- A contract along a run speaks of each event in the state reached before it. -/
theorem along_iff {s : σ} {events : List ε} : Along step K s events ↔
    ∀ before e after, events = before ++ e :: after → K (before.foldl step s) e := by
  induction events generalizing s with
  | nil =>
    refine ⟨fun _ before e after h => ?_, fun _ => trivial⟩
    simp at h
  | cons e events ih =>
    rw [Along, ih]
    constructor
    · rintro ⟨hhead, htail⟩ before e' after h
      cases before with
      | nil =>
        cases h
        exact hhead
      | cons e'' before =>
        cases h
        exact htail before e' after rfl
    · intro h
      exact ⟨h [] e events rfl, fun before e' after hsplit =>
        h (e :: before) e' after (by rw [hsplit]; rfl)⟩

/-- Two contracts that are one under an invariant, which either of them keeps, hold along the same
runs. -/
theorem along_congr (I : σ → Prop) (hK : ∀ s e, I s → (K s e ↔ H s e))
    (hI : ∀ s e, I s → K s e → I (step s e)) {s : σ} (hs : I s) {events : List ε} :
    Along step K s events ↔ Along step H s events := by
  induction events generalizing s with
  | nil => exact Iff.rfl
  | cons e events ih =>
    constructor
    · rintro ⟨hhead, htail⟩
      exact ⟨(hK s e hs).mp hhead, (ih (hI s e hs hhead)).mp htail⟩
    · rintro ⟨hhead, htail⟩
      have hkept := (hK s e hs).mpr hhead
      exact ⟨hkept, (ih (hI s e hs hkept)).mpr htail⟩

end StepContract
