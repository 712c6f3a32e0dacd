import Gwead.Lib.Program

/-!
# Programs that show what they do

A traced program runs like a program over a state and lists, however it ends, the events it showed
on the way.  `erase` forgets the list; `Ends` is what holds of every way a run can end, together
with what it showed.
-/

universe u

/-- Programs over a state that show events of type `τ`. -/
def Traced (τ ε σ α : Type u) : Type u := σ → EStateM.Result ε σ α × List τ

namespace Traced

variable {τ ε σ α β : Type u}

def pure (a : α) : Traced τ ε σ α := fun s => (.ok a s, [])

def bind (x : Traced τ ε σ α) (f : α → Traced τ ε σ β) : Traced τ ε σ β := fun s =>
  match x s with
  | (.ok a s', es) => ((f a s').1, es ++ (f a s').2)
  | (.error e s', es) => (.error e s', es)

instance : Monad (Traced τ ε σ) where
  pure := Traced.pure
  bind := Traced.bind

/-- A program together with what it shows, given the state it starts in. -/
def observe (x : EStateM ε σ α) (shows : σ → List τ) : Traced τ ε σ α := fun s => (x s, shows s)

/-- A program that shows nothing. -/
def lift (x : EStateM ε σ α) : Traced τ ε σ α := observe x fun _ => []

/-- Only show. -/
def emit (shows : σ → List τ) : Traced τ ε σ PUnit := observe (Pure.pure ⟨⟩) shows

/-- Enter another state for the time of a program and leave it however the program ends; both may
look at the state outside. -/
def nested (enter : σ → σ) (leave : σ → σ → σ) (x : σ → Traced τ ε σ α) : Traced τ ε σ α :=
  fun s =>
    match x s (enter s) with
    | (.ok a s', es) => (.ok a (leave s s'), es)
    | (.error e s', es) => (.error e (leave s s'), es)

/-- The program alone. -/
def erase (x : Traced τ ε σ α) : EStateM ε σ α := fun s => (x s).1

@[simp] theorem erase_pure (a : α) : erase (Pure.pure a : Traced τ ε σ α) = Pure.pure a := rfl

@[simp] theorem erase_bind (x : Traced τ ε σ α) (f : α → Traced τ ε σ β) :
    erase (x >>= f) = erase x >>= fun a => erase (f a) := by
  funext s
  simp only [erase, Bind.bind, Traced.bind, EStateM.bind]
  rcases x s with ⟨a | e, es⟩ <;> rfl

@[simp] theorem erase_observe (x : EStateM ε σ α) (shows : σ → List τ) :
    erase (observe x shows) = x := rfl

@[simp] theorem erase_lift (x : EStateM ε σ α) : erase (lift x : Traced τ ε σ α) = x := rfl

/-- Showing changes nothing. -/
@[simp] theorem erase_emit_bind (shows : σ → List τ) (f : PUnit → Traced τ ε σ β) :
    erase (emit shows >>= f) = erase (f ⟨⟩) := by
  simp only [emit, erase_bind, erase_observe]
  rfl

/-- However the run ends, what it showed satisfies `fail` with its error, or `post` with its
answer. -/
def Ends (x : Traced τ ε σ α) (s : σ) (post : α → σ → List τ → Prop)
    (fail : ε → σ → List τ → Prop) : Prop :=
  match x s with
  | (.ok a s', es) => post a s' es
  | (.error e s', es) => fail e s' es

variable {x : Traced τ ε σ α} {s : σ} {post : α → σ → List τ → Prop}
  {fail : ε → σ → List τ → Prop}

/-- The second program of a sequence adds to what the first one showed. -/
theorem bind_ok {x : Traced τ ε σ α} {f : α → Traced τ ε σ β} {s s' : σ} {a : α} {es : List τ}
    (h : x s = (.ok a s', es)) : (x >>= f) s = ((f a s').1, es ++ (f a s').2) := by
  simp only [Bind.bind, Traced.bind, h]

theorem bind_error {x : Traced τ ε σ α} {f : α → Traced τ ε σ β} {s s' : σ} {e : ε} {es : List τ}
    (h : x s = (.error e s', es)) : (x >>= f) s = (.error e s', es) := by
  simp only [Bind.bind, Traced.bind, h]

/-- A program that shows nothing and succeeds hands its answer and its state on. -/
theorem lift_bind_ok {x : EStateM ε σ α} {f : α → Traced τ ε σ β} {s s' : σ} {a : α}
    (h : x s = .ok a s') : (lift x >>= f) s = f a s' := by
  simp only [Bind.bind, Traced.bind, lift, observe, h, List.nil_append]

theorem ends_pure {a : α} : Ends (Pure.pure a : Traced τ ε σ α) s post fail ↔ post a s [] :=
  Iff.rfl

/-- The second program of a sequence goes on from what the first one showed. -/
theorem ends_bind {f : α → Traced τ ε σ β} {post : β → σ → List τ → Prop} :
    Ends (x >>= f) s post fail ↔
      Ends x s (fun a s' es => Ends (f a) s' (fun b s'' es' => post b s'' (es ++ es'))
        fun e s'' es' => fail e s'' (es ++ es')) fail := by
  simp only [Ends, Bind.bind, Traced.bind]
  rcases x s with ⟨⟨a, s'⟩ | ⟨e, s'⟩, es⟩
  · dsimp only
    rcases f a s' with ⟨⟨b, s''⟩ | ⟨e, s''⟩, es'⟩ <;> rfl
  · rfl

theorem ends_map {f : α → β} {post : β → σ → List τ → Prop} :
    Ends (f <$> x) s post fail ↔ Ends x s (fun a => post (f a)) fail := by
  have hrun : (f <$> x) s = (x >>= fun a => Pure.pure (f a)) s := rfl
  simp only [Ends, hrun, Bind.bind, Traced.bind]
  rcases x s with ⟨⟨a, s'⟩ | ⟨e, s'⟩, es⟩
  · have hnil : es ++ ((Pure.pure (f a) : Traced τ ε σ β) s').2 = es := List.append_nil es
    simp only [hnil]
    exact Iff.rfl
  · exact Iff.rfl

theorem ends_observe {x : EStateM ε σ α} {shows : σ → List τ} :
    Ends (observe x shows) s post fail ↔
      Program.Ends x s (fun a s' => post a s' (shows s)) fun e s' => fail e s' (shows s) := by
  simp only [Ends, observe, Program.Ends]
  cases x s <;> rfl

theorem ends_lift {x : EStateM ε σ α} : Ends (lift x : Traced τ ε σ α) s post fail ↔
    Program.Ends x s (fun a s' => post a s' []) fun e s' => fail e s' [] :=
  ends_observe

theorem ends_emit {shows : σ → List τ} {post : PUnit → σ → List τ → Prop} :
    Ends (emit shows : Traced τ ε σ PUnit) s post fail ↔ post ⟨⟩ s (shows s) := Iff.rfl

theorem ends_lift_bind {x : EStateM ε σ α} {f : α → Traced τ ε σ β}
    {post : β → σ → List τ → Prop} :
    Ends (lift x >>= f) s post fail ↔
      Program.Ends x s (fun a s' => Ends (f a) s' post fail) fun e s' => fail e s' [] := by
  simp only [ends_bind, ends_lift, List.nil_append]

theorem ends_emit_bind {shows : σ → List τ} {f : PUnit → Traced τ ε σ β}
    {post : β → σ → List τ → Prop} :
    Ends (emit shows >>= f) s post fail ↔
      Ends (f ⟨⟩) s (fun b s' es => post b s' (shows s ++ es))
        fun e s' es => fail e s' (shows s ++ es) := by
  simp only [ends_bind, ends_emit]

theorem ends_nested {enter : σ → σ} {leave : σ → σ → σ} {x : σ → Traced τ ε σ α} :
    Ends (nested enter leave x) s post fail ↔
      Ends (x s) (enter s) (fun a s' es => post a (leave s s') es)
        fun e s' es => fail e (leave s s') es := by
  simp only [Ends, nested]
  rcases x s (enter s) with ⟨⟨a, s'⟩ | ⟨e, s'⟩, es⟩ <;> rfl

/-- A run may be looked at to weaken what is said of it. -/
theorem Ends.imp {post' : α → σ → List τ → Prop} {fail' : ε → σ → List τ → Prop}
    (h : Ends x s post fail) (hp : ∀ a s' es, x s = (.ok a s', es) → post a s' es → post' a s' es)
    (hf : ∀ e s' es, fail e s' es → fail' e s' es) : Ends x s post' fail' := by
  unfold Ends at h ⊢
  rcases hx : x s with ⟨⟨a, s'⟩ | ⟨e, s'⟩, es⟩
  · exact hp a s' es hx (by simpa only [hx] using h)
  · exact hf e s' es (by simpa only [hx] using h)

theorem Ends.mono {post' : α → σ → List τ → Prop} {fail' : ε → σ → List τ → Prop}
    (h : Ends x s post fail) (hp : ∀ a s' es, post a s' es → post' a s' es)
    (hf : ∀ e s' es, fail e s' es → fail' e s' es) : Ends x s post' fail' :=
  h.imp (fun a s' es _ => hp a s' es) hf

theorem Ends.ok {a : α} {s' : σ} {es : List τ} (h : Ends x s post fail)
    (hx : x s = (.ok a s', es)) : post a s' es := by
  simpa only [Ends, hx] using h

theorem Ends.error {e : ε} {s' : σ} {es : List τ} (h : Ends x s post fail)
    (hx : x s = (.error e s', es)) : fail e s' es := by
  simpa only [Ends, hx] using h

/-! ### Events of a kind -/

/-- Whatever state a program starts in, it shows only events of a kind. -/
def Only (P : τ → Prop) (x : Traced τ ε σ α) : Prop := ∀ s, ∀ e ∈ (x s).2, P e

section Only

variable {P : τ → Prop} {y : EStateM ε σ α}

theorem only_pure (a : α) : Only P (Pure.pure a : Traced τ ε σ α) := fun _ => List.forall_mem_nil _

/-- The second program only has to be looked at for the answers of the first one. -/
theorem only_bind_of {f : α → Traced τ ε σ β} {A : α → Prop} (hx : Only P x)
    (hanswer : ∀ s a s' es, x s = (.ok a s', es) → A a) (hf : ∀ a, A a → Only P (f a)) :
    Only P (x >>= f) := by
  intro s e he
  have hxs := hx s
  simp only [Bind.bind, Traced.bind] at he
  rcases hrun : x s with ⟨⟨a, s'⟩ | ⟨err, s'⟩, es⟩
  · rw [hrun] at he hxs
    rcases List.mem_append.mp he with he | he
    · exact hxs e he
    · exact hf a (hanswer s a s' es hrun) s' e he
  · rw [hrun] at he hxs
    exact hxs e he

theorem only_bind {f : α → Traced τ ε σ β} (hx : Only P x) (hf : ∀ a, Only P (f a)) :
    Only P (x >>= f) :=
  only_bind_of hx (fun _ _ _ _ _ => trivial) fun a _ => hf a

theorem only_observe {shows : σ → List τ} (h : ∀ s, ∀ e ∈ shows s, P e) :
    Only P (observe y shows) := h

theorem only_lift : Only P (lift y : Traced τ ε σ α) := fun _ => List.forall_mem_nil _

theorem only_emit {shows : σ → List τ} (h : ∀ s, ∀ e ∈ shows s, P e) :
    Only P (emit shows : Traced τ ε σ PUnit) := h

theorem only_nested {enter : σ → σ} {leave : σ → σ → σ} {x : σ → Traced τ ε σ α}
    (h : ∀ s, Only P (x s)) : Only P (nested enter leave x) := by
  intro s e he
  have hs := h s (enter s)
  unfold nested at he
  rcases hrun : x s (enter s) with ⟨⟨a, s'⟩ | ⟨err, s'⟩, es⟩ <;> rw [hrun] at he hs <;> exact hs e he

/-! ### Events shown from a state -/

/-- From a state, a program shows only events of a kind. -/
def OnlyFrom (P : τ → Prop) (x : Traced τ ε σ α) (s : σ) : Prop := ∀ e ∈ (x s).2, P e

theorem onlyFrom_pure (a : α) : OnlyFrom P (Pure.pure a : Traced τ ε σ α) s :=
  List.forall_mem_nil _

/-- The second program only has to be looked at where the first one ends. -/
theorem onlyFrom_bind {f : α → Traced τ ε σ β} (hx : OnlyFrom P x s)
    (hf : ∀ a s', erase x s = .ok a s' → OnlyFrom P (f a) s') : OnlyFrom P (x >>= f) s := by
  intro e he
  simp only [Bind.bind, Traced.bind] at he
  rcases hrun : x s with ⟨⟨a, s'⟩ | ⟨err, s'⟩, es⟩
  · rw [hrun] at he
    rcases List.mem_append.mp he with he | he
    · exact hx e (by rw [hrun]; exact he)
    · exact hf a s' (by rw [erase, hrun]) e he
  · rw [hrun] at he
    exact hx e (by rw [hrun]; exact he)

theorem onlyFrom_observe {shows : σ → List τ} (h : ∀ e ∈ shows s, P e) :
    OnlyFrom P (observe y shows) s := h

theorem onlyFrom_lift : OnlyFrom P (lift y : Traced τ ε σ α) s := List.forall_mem_nil _

theorem onlyFrom_lift_bind {f : α → Traced τ ε σ β}
    (hf : ∀ a s', y s = .ok a s' → OnlyFrom P (f a) s') : OnlyFrom P (lift y >>= f) s :=
  onlyFrom_bind onlyFrom_lift hf

theorem onlyFrom_emit_bind {shows : σ → List τ} {f : PUnit → Traced τ ε σ β}
    (h : ∀ e ∈ shows s, P e) (hf : OnlyFrom P (f ⟨⟩) s) : OnlyFrom P (emit shows >>= f) s := by
  refine onlyFrom_bind h fun _ s' hs' => ?_
  cases hs'
  exact hf

theorem onlyFrom_nested {enter : σ → σ} {leave : σ → σ → σ} {x : σ → Traced τ ε σ α}
    (h : OnlyFrom P (x s) (enter s)) : OnlyFrom P (nested enter leave x) s := by
  intro e he
  unfold nested at he
  rcases hrun : x s (enter s) with ⟨⟨a, s'⟩ | ⟨err, s'⟩, es⟩ <;> rw [hrun] at he <;>
    exact h e (by rw [hrun]; exact he)

end Only

end Traced
