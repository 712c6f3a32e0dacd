import Gwead.RunTrace

/-!
# The order of what a run shows

A task runs no further step once one of its step bodies was cancelled, a value it stores was
refused, or a `return` was executed: whatever is called later belongs to a task that runs
concurrently.  This file says so of lists of events and composes it; the interpreter keeps it.
-/

namespace Gwead

namespace RunEvent

@[simp] def task : RunEvent → List Nat
  | dispatched _ _ before => before.task
  | evaluated t _ => t
  | bodyCancelled t _ => t
  | refused t _ => t
  | returned t _ => t
  | handling t _ => t
  | finalizing t _ => t

@[simp] def dispatches : RunEvent → Bool
  | dispatched .. => true
  | _ => false

@[simp] def value? : RunEvent → Option Value
  | returned _ v => some v
  | _ => none

/-- What no `try` may catch: a cancelled body, or a value the budget refuses. -/
@[simp] def stops : RunEvent → Bool
  | bodyCancelled .. => true
  | refused .. => true
  | _ => false

/-- What ends the task it belongs to. -/
def halts (e : RunEvent) : Bool := e.stops || e.value?.isSome

/-- A step is not called under a return signal. -/
@[simp] def fresh : RunEvent → Prop
  | dispatched _ _ before => before.returnSignal = none
  | _ => True

end RunEvent

/-- The values returned, in the order of the list. -/
def returns (es : List RunEvent) : List Value := es.filterMap (·.value?)

@[simp] theorem returns_append (es es' : List RunEvent) :
    returns (es ++ es') = returns es ++ returns es' := List.filterMap_append

/-- Two tasks below different forks of one `parallel` step or wave. -/
def Concurrent (t t' : List Nat) : Prop :=
  ∃ fork slot slot', slot ≠ slot' ∧ slot :: fork <:+ t ∧ slot' :: fork <:+ t'

/-- After an event that ends its task, only concurrent tasks run steps. -/
def Orderly (es : List RunEvent) : Prop :=
  es.Pairwise fun e e' => e.halts = true → e'.dispatches = true → Concurrent e.task e'.task

def Unstopped (es : List RunEvent) : Prop := ∀ e ∈ es, e.stops = false

/-- A violation that ends the invocation is recorded. -/
def Escaping (s : ExecutionState) : Prop := (escapingViolation s).isSome

/-- The later state belongs to the same task and carries the same return signal. -/
structure Unmoved (s t : ExecutionState) : Prop where
  task : t.task = s.task
  signal : t.returnSignal = s.returnSignal

theorem Unmoved.refl (s : ExecutionState) : Unmoved s s := ⟨rfl, rfl⟩

theorem Unmoved.trans {s t u : ExecutionState} (h : Unmoved s t) (h' : Unmoved t u) :
    Unmoved s u :=
  ⟨h'.task.trans h.task, h'.signal.trans h.signal⟩

theorem Unmoved.symm {s t : ExecutionState} (h : Unmoved s t) : Unmoved t s :=
  ⟨h.task.symm, h.signal.symm⟩

/-- What a run may show, however it ends. -/
structure Obeys (s : ExecutionState) (es : List RunEvent) : Prop where
  within : ∀ e ∈ es, s.task <:+ e.task
  orderly : Orderly es
  fresh : s.returnSignal = none → ∀ e ∈ es, e.fresh

/-- A run that ended without an error has kept its task, and its return signal says whether
somebody returned. -/
structure Continues (s : ExecutionState) (es : List RunEvent) (s' : ExecutionState) : Prop where
  obeys : Obeys s es
  task : s'.task = s.task
  signal : s.returnSignal = none → s'.returnSignal = (returns es).head?
  keeps : s.returnSignal.isSome → s'.returnSignal.isSome

/-- A run after which the task goes on. -/
structure Passes (s : ExecutionState) (es : List RunEvent) (s' : ExecutionState) : Prop where
  unmoved : Unmoved s s'
  within : ∀ e ∈ es, s.task <:+ e.task
  quiet : ∀ e ∈ es, e.halts = false
  fresh : s.returnSignal = none → ∀ e ∈ es, e.fresh

/-- A run of the task's own that calls no step and returns nothing. -/
structure Trailing (s : ExecutionState) (es : List RunEvent) (s' : ExecutionState) : Prop where
  unmoved : Unmoved s s'
  own : ∀ e ∈ es, e.task = s.task ∧ e.dispatches = false ∧ e.value? = none

variable {s s' s'' t t' : ExecutionState} {es es' : List RunEvent}

theorem RunEvent.halts_eq_false {e : RunEvent} :
    e.halts = false ↔ e.stops = false ∧ e.value? = none := by
  simp [RunEvent.halts]

theorem Unstopped.append (h : Unstopped es) (h' : Unstopped es') : Unstopped (es ++ es') :=
  List.forall_mem_append.mpr ⟨h, h'⟩

theorem returns_eq_nil : returns es = [] ↔ ∀ e ∈ es, e.value? = none := by
  simp [returns, List.filterMap_eq_nil_iff]

theorem RunEvent.fresh_of_not_dispatches {e : RunEvent} (h : e.dispatches = false) : e.fresh := by
  cases e <;> trivial

/-- Nothing of the second list is a call, or nothing of the first ends a task. -/
theorem Orderly.append (h : Orderly es) (h' : Orderly es')
    (hbetween : ∀ e ∈ es, ∀ e' ∈ es', e.halts = true → e'.dispatches = true →
      Concurrent e.task e'.task) : Orderly (es ++ es') :=
  List.pairwise_append.mpr ⟨h, h', hbetween⟩

theorem Orderly.of_quiet (h : ∀ e ∈ es, e.halts = false) : Orderly es :=
  List.pairwise_of_forall_mem_list fun e he _ _ hhalts => by
    rw [h e he] at hhalts
    cases hhalts

theorem Orderly.of_calls_nothing (h : ∀ e ∈ es, e.dispatches = false) : Orderly es :=
  List.pairwise_of_forall_mem_list fun _ _ e' he' _ hcalls => by
    rw [h e' he'] at hcalls
    cases hcalls

/-! ### Lists that belong to the same task -/

theorem Obeys.congr (h : Obeys s es) (hst : Unmoved s t) : Obeys t es :=
  ⟨by rw [hst.task]; exact h.within, h.orderly, by rw [hst.signal]; exact h.fresh⟩

theorem Continues.congr (h : Continues s es s') (hst : Unmoved s t) (hst' : Unmoved s' t') :
    Continues t es t' where
  obeys := h.obeys.congr hst
  task := by rw [hst'.task, h.task, hst.task]
  signal := by
    rw [hst.signal, hst'.signal]
    exact h.signal
  keeps := by
    rw [hst.signal, hst'.signal]
    exact h.keeps

theorem Passes.congr (h : Passes s es s') (hst : Unmoved s t) (hst' : Unmoved s' t') :
    Passes t es t' where
  unmoved := hst.symm.trans (h.unmoved.trans hst')
  within := by rw [hst.task]; exact h.within
  quiet := h.quiet
  fresh := by rw [hst.signal]; exact h.fresh

/-! ### One run after the other -/

theorem Unmoved.passes (h : Unmoved s s') : Passes s [] s' := 
  ⟨h, List.forall_mem_nil _, List.forall_mem_nil _, fun _ => List.forall_mem_nil _⟩

theorem Passes.obeys (h : Passes s es s') : Obeys s es :=
  ⟨h.within, Orderly.of_quiet h.quiet, h.fresh⟩

theorem Passes.unstopped (h : Passes s es s') : Unstopped es := fun e he =>
  (RunEvent.halts_eq_false.mp (h.quiet e he)).1

theorem Passes.returns (h : Passes s es s') : returns es = [] :=
  returns_eq_nil.mpr fun e he => (RunEvent.halts_eq_false.mp (h.quiet e he)).2

theorem Passes.then_obeys (h : Passes s es s') (h' : Obeys s' es') : Obeys s (es ++ es') where
  within := List.forall_mem_append.mpr ⟨h.within, by rw [← h.unmoved.task]; exact h'.within⟩
  orderly := h.obeys.orderly.append h'.orderly fun e he _ _ hhalts => by
    rw [h.quiet e he] at hhalts
    cases hhalts
  fresh hs := List.forall_mem_append.mpr
    ⟨h.fresh hs, h'.fresh (by rw [h.unmoved.signal, hs])⟩

theorem Passes.then_continues (h : Passes s es s') (h' : Continues s' es' s'') :
    Continues s (es ++ es') s'' where
  obeys := h.then_obeys h'.obeys
  task := h'.task.trans h.unmoved.task
  signal hs := by
    rw [returns_append, h.returns, List.nil_append]
    exact h'.signal (by rw [h.unmoved.signal, hs])
  keeps hs := h'.keeps (by rwa [h.unmoved.signal])

theorem Passes.trans (h : Passes s es s') (h' : Passes s' es' s'') : Passes s (es ++ es') s'' where
  unmoved := h.unmoved.trans h'.unmoved
  within := (h.then_obeys h'.obeys).within
  quiet := List.forall_mem_append.mpr ⟨h.quiet, h'.quiet⟩
  fresh := (h.then_obeys h'.obeys).fresh

theorem Passes.continues (h : Passes s es s') : Continues s es s' where
  obeys := h.obeys
  task := h.unmoved.task
  signal hs := by rw [h.unmoved.signal, hs, h.returns]; rfl
  keeps hs := by rwa [h.unmoved.signal]

/-- A run that neither stopped nor left a return signal lets the task go on. -/
theorem Continues.passes (h : Continues s es s') (hes : Unstopped es)
    (hsignal : s'.returnSignal = none) : Passes s es s' := by
  have hs : s.returnSignal = none := by
    cases hs : s.returnSignal with
    | none => rfl
    | some v =>
      have := h.keeps (by simp [hs])
      simp [hsignal] at this
  have hnothing : Gwead.returns es = [] := by
    have := h.signal hs
    rw [hsignal] at this
    exact List.head?_eq_none_iff.mp this.symm
  refine ⟨⟨h.task, by rw [hsignal, hs]⟩, h.obeys.within, fun e he => ?_, h.obeys.fresh⟩
  exact RunEvent.halts_eq_false.mpr ⟨hes e he, returns_eq_nil.mp hnothing e he⟩

theorem Trailing.obeys (h : Trailing s es s') : Obeys s es where
  within e he := by
    exact (h.own e he).1 ▸ List.suffix_rfl
  orderly := Orderly.of_calls_nothing fun e he => (h.own e he).2.1
  fresh _ e he := RunEvent.fresh_of_not_dispatches (h.own e he).2.1

theorem Trailing.returns (h : Trailing s es s') : returns es = [] :=
  returns_eq_nil.mpr fun e he => (h.own e he).2.2

theorem Trailing.passes (h : Trailing s es s') (hes : Unstopped es) : Passes s es s' where
  unmoved := h.unmoved
  within := h.obeys.within
  quiet e he := RunEvent.halts_eq_false.mpr ⟨hes e he, (h.own e he).2.2⟩
  fresh := h.obeys.fresh

theorem Trailing.trans (h : Trailing s es s') (h' : Trailing s' es' s'') :
    Trailing s (es ++ es') s'' where
  unmoved := h.unmoved.trans h'.unmoved
  own := List.forall_mem_append.mpr ⟨h.own, by rw [← h.unmoved.task]; exact h'.own⟩

/-- What the task itself shows without calling a step can be added at the end. -/
theorem Obeys.own (h : Obeys s es)
    (hown : ∀ e ∈ es', e.task = s.task ∧ e.dispatches = false ∧ e.value? = none) :
    Obeys s (es ++ es') := by
  have hlast : Trailing s es' s := ⟨.refl s, hown⟩
  refine ⟨List.forall_mem_append.mpr ⟨h.within, hlast.obeys.within⟩,
    h.orderly.append hlast.obeys.orderly fun _ _ e' he' _ hcalls => ?_,
    fun hs => List.forall_mem_append.mpr ⟨h.fresh hs, hlast.obeys.fresh hs⟩⟩
  rw [(hown e' he').2.1] at hcalls
  cases hcalls

theorem Continues.trailing (h : Continues s es s') (h' : Trailing s' es' s'') :
    Continues s (es ++ es') s'' where
  obeys := h.obeys.own (by rw [← h.task]; exact h'.own)
  task := h'.unmoved.task.trans h.task
  signal hs := by
    rw [h'.unmoved.signal, h.signal hs, returns_append, h'.returns, List.append_nil]
  keeps hs := by
    rw [h'.unmoved.signal]
    exact h.keeps hs

theorem Trailing.continues (h : Trailing s es s') : Continues s es s' :=
  (Unmoved.refl s).passes.continues.trailing h

end Gwead
