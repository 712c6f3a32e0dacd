import Mathlib.Algebra.Group.Int.Defs
import Mathlib.Algebra.GroupWithZero.Nat
import Mathlib.Logic.Basic
import Mathlib.Order.Lattice

/-!
# Programs over a state

`EStateM` programs keep the state they reached when they fail.  `Ends` is what holds of every
way a program can end, and `Respects` a relation between the state a program starts in and the
one it ends in, failures included.
-/

namespace Program

universe u

variable {ε σ α β : Type u}

/-- The state a run ended in, whichever way it ended. -/
def finalState : EStateM.Result ε σ α → σ
  | .ok _ s => s
  | .error _ s => s

@[simp] theorem finalState_ok (a : α) (s : σ) :
    finalState (.ok a s : EStateM.Result ε σ α) = s := rfl

@[simp] theorem finalState_error (e : ε) (s : σ) :
    finalState (.error e s : EStateM.Result ε σ α) = s := rfl

/-- The run returned, with an answer and a state that pass `p`. -/
def returnsWith (p : α → σ → Bool) : EStateM.Result ε σ α → Bool
  | .ok a s => p a s
  | .error _ _ => false

/-- The run failed, with an error and a state that pass `p`. -/
def failsWith (p : ε → σ → Bool) : EStateM.Result ε σ α → Bool
  | .ok _ _ => false
  | .error e s => p e s

theorem exists_of_returnsWith {p : α → σ → Bool} {r : EStateM.Result ε σ α}
    (h : returnsWith p r = true) : ∃ a s, r = .ok a s ∧ p a s = true := by
  cases r with
  | ok a s => exact ⟨a, s, rfl, h⟩
  | error e s => cases h

theorem exists_of_failsWith {p : ε → σ → Bool} {r : EStateM.Result ε σ α}
    (h : failsWith p r = true) : ∃ e s, r = .error e s ∧ p e s = true := by
  cases r with
  | ok a s => cases h
  | error e s => exact ⟨e, s, rfl, h⟩

/-- A successful end satisfies `post` and a failed one `fail`. -/
def Ends (x : EStateM ε σ α) (s : σ) (post : α → σ → Prop) (fail : ε → σ → Prop) : Prop :=
  match x s with
  | .ok a s' => post a s'
  | .error e s' => fail e s'

variable {post : α → σ → Prop} {fail : ε → σ → Prop} {x : EStateM ε σ α} {s : σ}

theorem Ends.mono {post' : α → σ → Prop} {fail' : ε → σ → Prop} (h : Ends x s post fail)
    (hp : ∀ a s', post a s' → post' a s') (hf : ∀ e s', fail e s' → fail' e s') :
    Ends x s post' fail' := by
  unfold Ends at h ⊢
  cases hx : x s with
  | ok a s' => exact hp a s' (by simpa only [hx] using h)
  | error e s' => exact hf e s' (by simpa only [hx] using h)

/-- A run of a sequence that ends well ran both parts well. -/
theorem bind_ok {f : α → EStateM ε σ β} {b : β} {s'' : σ} :
    (x >>= f) s = .ok b s'' ↔ ∃ a s', x s = .ok a s' ∧ f a s' = .ok b s'' := by
  simp only [bind, EStateM.bind]
  cases x s <;> simp [and_assoc]

/-- A run of a sequence fails in its first part, or in its second after the first ended well. -/
theorem bind_error {f : α → EStateM ε σ β} {e : ε} {s'' : σ} :
    (x >>= f) s = .error e s'' ↔
      x s = .error e s'' ∨ ∃ a s', x s = .ok a s' ∧ f a s' = .error e s'' := by
  simp only [bind, EStateM.bind]
  cases x s <;> simp [and_assoc]

/-- However the program ends, its last state is related to its first. -/
def Respects (R : σ → σ → Prop) (x : EStateM ε σ α) : Prop :=
  ∀ s, R s (finalState (x s))

section Respects

variable {R : σ → σ → Prop}

theorem Respects.pure (hrefl : ∀ s, R s s) (a : α) :
    Respects R (Pure.pure a : EStateM ε σ α) := hrefl

theorem Respects.bind (htrans : ∀ s₁ s₂ s₃, R s₁ s₂ → R s₂ s₃ → R s₁ s₃)
    {f : α → EStateM ε σ β} (hx : Respects R x) (hf : ∀ a, Respects R (f a)) :
    Respects R (x >>= f) := by
  intro s
  have h := hx s
  simp only [Bind.bind, EStateM.bind]
  cases hxs : x s with
  | ok a s' =>
    rw [hxs] at h
    exact htrans _ _ _ h (hf a s')
  | error e s' => rwa [hxs] at h

theorem Respects.ok (h : Respects R x) {a : α} {s' : σ} (hx : x s = .ok a s') : R s s' := by
  simpa [hx] using h s

end Respects

end Program
