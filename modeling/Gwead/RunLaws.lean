import Gwead.TraceLaws

/-!
# Laws of the interpreter's runs

Every call of `run_step` shows an orderly list, keeps its task, and answers the return signal that
was raised first.  When it shows a cancelled body or a refused value it fails, but for a leaf step
whose own body was cancelled, and when it fails although nothing it ran was malformed, the error is
one that ends the invocation.
-/

namespace Gwead

open Traced (lift observe emit nested Ends)

/-- The errors no handler is meant to see: a cancellation and the step-results budget. -/
def KernelError.EndsInvocation : KernelError → Prop
  | cancelled _ => True
  | stepResultsLimitExceeded _ _ => True
  | _ => False

/-- The begin function of a loop does not refuse its input. -/
def CountAccepted (begins : Nat → Exec Int) (idx : Nat) (s : ExecutionState) : Prop :=
  ∀ n s', begins idx s = .ok n s' → 0 ≤ n

/-- What `run_step` demands of a step it is about to run, by raising an error where it is missing:
an importable step type, a count, a `parallel` that is not too wide and whose branches join. -/
def Runnable (host : Host) (step : StepDef) (idx : Nat) (s : ExecutionState) : Prop :=
  match step.kind with
  | .leaf => ((host.resolveStepType step.stepType).bind host.bodies).isSome
  | .forEach => CountAccepted hostBeginForeach idx s
  | .repetition => CountAccepted (hostBeginRepeat host) idx s
  | .parallel => branchSteps step ≠ [] →
      (branchSteps step).length ≤ s.limits.maxParallelBranches ∧ host.branchJoin s = none
  | _ => True

def RunEvent.unhindered (host : Host) : RunEvent → Prop
  | dispatched step idx before => Runnable host step idx before
  | evaluated _ text => ∃ expr, Dsl.parseExpression text = .ok expr
  | _ => True

/-- Every step called is runnable and every expression evaluated parses. -/
def Unhindered (host : Host) (es : List RunEvent) : Prop := ∀ e ∈ es, e.unhindered host

/-- What is known of a run that ended without an error, `flagged` saying that it carries a mark its
caller looks for. -/
structure Done (s : ExecutionState) (flagged passed : Prop) (s' : ExecutionState)
    (es : List RunEvent) : Prop where
  continues : Continues s es s'
  stopped : Unstopped es ∨ flagged
  passes : passed → Passes s es s'

/-- What is known of a run that ended with an error, `demand` being what the step that was called
had to meet. -/
structure Fails (host : Host) (demand : Prop) (s : ExecutionState) (e : KernelError)
    (es : List RunEvent) : Prop where
  obeys : Obeys s es
  ends : demand → Unhindered host es → e.EndsInvocation

variable {α β : Type} (host : Host) (demand : Prop)

def Law (flag pass : α → ExecutionState → Prop) (x : Watch α) (s : ExecutionState) : Prop :=
  Ends x s (fun a s' es => Done s (flag a s') (pass a s') s' es) fun e _ es => Fails host demand s e es

/-- A program of the task's own that calls no step. -/
def Trails (flag : α → ExecutionState → Prop) (x : Watch α) (s : ExecutionState) : Prop :=
  Ends x s (fun a s' es => Trailing s es s' ∧ (Unstopped es ∨ flag a s'))
    fun e s' es => Trailing s es s' ∧ (Unhindered host es → e.EndsInvocation)

/-- A program that shows nothing and fails only where the invocation ends. -/
def Silent (x : Exec α) (s : ExecutionState) : Prop :=
  Program.Ends x s (fun _ s' => Unmoved s s') fun e s' => Unmoved s s' ∧ e.EndsInvocation

section Rules

variable {host demand} {flag pass : α → ExecutionState → Prop} {flag' pass' : β → ExecutionState → Prop}
  {x : Watch α} {y : Watch β} {f : α → Watch β} {s s' : ExecutionState} {es es' : List RunEvent}

theorem unhindered_append : Unhindered host (es ++ es') ↔ Unhindered host es ∧ Unhindered host es' :=
  List.forall_mem_append

theorem Unmoved.trailing (h : Unmoved s s') : Trailing s [] s' := ⟨h, List.forall_mem_nil _⟩

theorem unstopped_nil : Unstopped [] := List.forall_mem_nil _

theorem Done.pure {flagged passed passed' : Prop} (h : Done s flagged passed s' es)
    (hpass : passed' → passed) : Done s flagged passed' s' (es ++ []) := by
  rw [List.append_nil]
  exact ⟨h.continues, h.stopped, fun hp => h.passes (hpass hp)⟩

/-- A block is over: what follows it does not ask whether it may go on. -/
theorem Done.last {flagged passed : Prop} (h : Done s flagged passed s' es) :
    Done s flagged False s' (es ++ []) :=
  h.pure False.elim

theorem Passes.done {flagged passed : Prop} (h : Passes s es s') : Done s flagged passed s' es :=
  ⟨h.continues, Or.inl h.unstopped, fun _ => h⟩

theorem Passes.fails {e : KernelError} (h : Passes s es s') (h' : Fails host demand s' e es') :
    Fails host demand s e (es ++ es') :=
  ⟨h.then_obeys h'.obeys, fun hmet hall => h'.ends hmet (unhindered_append.mp hall).2⟩

theorem Law.mono {flag' pass' : α → ExecutionState → Prop} (h : Law host demand flag pass x s)
    (hflag : ∀ a s', flag a s' → flag' a s') (hpass : ∀ a s', pass' a s' → pass a s') :
    Law host demand flag' pass' x s :=
  Ends.mono h (fun a s' _ hd => ⟨hd.continues, hd.stopped.imp_right (hflag a s'),
    fun hp => hd.passes (hpass a s' hp)⟩) fun _ _ _ hf => hf

theorem Law.weaken {demand' : Prop} (h : Law host demand flag pass x s) (hmet : demand' → demand) :
    Law host demand' flag pass x s :=
  Ends.mono h (fun _ _ _ hd => hd) fun _ _ _ hf => ⟨hf.obeys, fun hd => hf.ends (hmet hd)⟩

/-- Go on after a run that ended without an error. -/
theorem Law.bind (hx : Law host demand flag pass x s)
    (hf : ∀ a s' es, x s = (.ok a s', es) → Done s (flag a s') (pass a s') s' es →
      Ends (f a) s' (fun b s'' es' => Done s (flag' b s'') (pass' b s'') s'' (es ++ es'))
        fun e _ es' => Fails host demand s e (es ++ es')) : Law host demand flag' pass' (x >>= f) s := by
  unfold Law
  rw [Traced.ends_bind]
  exact Ends.imp hx hf fun _ _ _ hfail => hfail

/-- The rest of the task, when nothing has halted it. -/
theorem Passes.law (h : Passes s es s') (hy : Law host demand flag' pass' y s') :
    Ends y s' (fun b s'' es' => Done s (flag' b s'') (pass' b s'') s'' (es ++ es'))
      fun e _ es' => Fails host demand s e (es ++ es') :=
  Ends.mono hy
    (fun _ _ _ hd => ⟨h.then_continues hd.continues, hd.stopped.imp_left h.unstopped.append,
      fun hp => h.trans (hd.passes hp)⟩)
    fun _ _ _ hf => h.fails hf

/-- The rest of the task, when it calls no further step. -/
theorem Continues.trails (h : Continues s es s') (hes : Unstopped es) (hy : Trails host flag' y s')
    (hpass : ∀ b s'', ¬pass' b s'') :
    Ends y s' (fun b s'' es' => Done s (flag' b s'') (pass' b s'') s'' (es ++ es'))
      fun e _ es' => Fails host demand s e (es ++ es') :=
  Ends.mono hy
    (fun b s'' _ hd => ⟨h.trailing hd.1, hd.2.imp_left hes.append, fun hp => absurd hp (hpass b s'')⟩)
    fun _ _ _ hf => ⟨(h.trailing hf.1).obeys, fun _ hall => hf.2 (unhindered_append.mp hall).2⟩

theorem Trails.law (h : Trails host (fun _ _ => False) x s) :
    Law host demand (fun _ _ => False) (fun _ _ => True) x s :=
  Ends.mono h
    (fun _ _ _ hd => (hd.1.passes (hd.2.resolve_right id)).done)
    fun _ _ _ hf => ⟨hf.1.obeys, fun _ => hf.2⟩

theorem law_pure (a : α) : Law host demand flag pass (Pure.pure a) s := (Unmoved.refl s).passes.done

theorem Law.lift_bind {x : Exec α} (hx : Silent x s)
    (hf : ∀ a s', x s = .ok a s' → Unmoved s s' → Law host demand flag' pass' (f a) s') :
    Law host demand flag' pass' (lift x >>= f) s := by
  unfold Law
  rw [Traced.ends_lift_bind]
  unfold Silent Program.Ends at hx
  unfold Program.Ends
  cases hxs : x s with
  | ok a s' =>
    rw [hxs] at hx
    simpa using hx.passes.law (hf a s' hxs hx)
  | error e s' =>
    rw [hxs] at hx
    exact ⟨hx.1.passes.obeys, fun _ _ => hx.2⟩

theorem Law.emit_bind {shows : ExecutionState → List RunEvent} {f : PUnit → Watch β}
    (hshows : Passes s (shows s) s) (hf : Law host demand flag' pass' (f ⟨⟩) s) :
    Law host demand flag' pass' (emit shows >>= f) s := by
  unfold Law
  rw [Traced.ends_emit_bind]
  exact hshows.law hf

theorem trails_pure (a : α) : Trails host flag (Pure.pure a) s :=
  ⟨(Unmoved.refl s).trailing, Or.inl unstopped_nil⟩

theorem Silent.trails {x : Exec α} (hx : Silent x s) : Trails host flag (lift x) s := by
  unfold Trails
  rw [Traced.ends_lift]
  exact Program.Ends.mono hx (fun _ _ h => ⟨h.trailing, Or.inl unstopped_nil⟩)
    fun _ _ h => ⟨h.1.trailing, fun _ => h.2⟩

theorem Trails.bind (hx : Trails host flag x s)
    (hf : ∀ a s', Trails host flag' (f a) s')
    (hflag : ∀ a s' b s'' es, flag a s' → f a s' = (.ok b s'', es) → flag' b s'') :
    Trails host flag' (x >>= f) s := by
  unfold Trails
  rw [Traced.ends_bind]
  refine Ends.mono hx (fun a s' es hd => ?_) fun _ _ _ hfail => hfail
  have hfa := hf a s'
  unfold Trails Ends at hfa
  unfold Ends
  rcases hrest : f a s' with ⟨⟨b, s''⟩ | ⟨e, s''⟩, es'⟩
  · rw [hrest] at hfa
    refine ⟨hd.1.trans hfa.1, ?_⟩
    rcases hd.2 with hes | hmark
    · exact hfa.2.imp_left hes.append
    · exact Or.inr (hflag a s' b s'' es' hmark hrest)
  · rw [hrest] at hfa
    exact ⟨hd.1.trans hfa.1, fun hall => hfa.2 (unhindered_append.mp hall).2⟩

end Rules

/-! ### What leaves task and signal alone -/

namespace Unmoved

variable (s : ExecutionState)

theorem store (id : String) (v : Value) : Unmoved s (s.storeStepResult id v) := by
  obtain ⟨f, r, b, m, h⟩ := s.storeStepResult_eq id v
  rw [h]
  exact ⟨rfl, rfl⟩

theorem storeAll (entries : List (String × Value)) : Unmoved s (s.storeStepResults entries) := by
  unfold ExecutionState.storeStepResults
  induction entries generalizing s with
  | nil => exact .refl s
  | cons e rest ih => exact (store s e.1 e.2).trans (ih _)

theorem setVariables (entries : List (String × Value)) : Unmoved s (s.setVariables entries) := by
  unfold ExecutionState.setVariables
  induction entries generalizing s with
  | nil => exact .refl s
  | cons e rest ih => exact (Unmoved.mk rfl rfl : Unmoved s (s.setVariable e.1 e.2)).trans (ih _)

theorem clear (steps : List StepDef) :
    Unmoved s (steps.foldl (fun s step => { s with
      stepResults := s.stepResults.shiftRemove step.id
      stepMetadata := s.stepMetadata.shiftRemove step.id }) s) := by
  induction steps generalizing s with
  | nil => exact .refl s
  | cons step rest ih =>
    have hforget : Unmoved s { s with
        stepResults := s.stepResults.shiftRemove step.id
        stepMetadata := s.stepMetadata.shiftRemove step.id } := ⟨rfl, rfl⟩
    exact hforget.trans (ih _)

end Unmoved

section Silent

variable {host} (s : ExecutionState)

theorem checkCancelled_silent (id : String) : Silent (checkCancelled host id) s := by
  unfold Silent Program.Ends checkCancelled
  by_cases hfired : host.cancelFired s
  · simp only [hfired, if_true]
    exact ⟨⟨rfl, rfl⟩, trivial⟩
  · simp only [hfired, Bool.false_eq_true, if_false]
    exact ⟨rfl, rfl⟩

theorem hasReturned_silent : Silent hasReturned s := Unmoved.refl s

theorem clearFailure_silent : Silent (modify ExecutionState.clearFailure : Exec Unit) s :=
  Unmoved.mk rfl rfl

theorem hostNextForeach_silent : Silent hostNextForeach s := by
  unfold Silent Program.Ends hostNextForeach
  cases s.foreachStack with
  | nil => exact .refl s
  | cons frame outer =>
    by_cases hmore : frame.index < frame.items.len
    · simp only [hmore, if_true]
      exact ⟨rfl, rfl⟩
    · simp only [hmore, if_false]
      exact ⟨rfl, rfl⟩

theorem clearResults_silent (steps : List StepDef) : Silent (clearResults steps) s :=
  Unmoved.clear s steps

theorem loopLength_silent : Silent loopLength s := Unmoved.refl s

theorem popLoop_silent : Silent popLoop s := Unmoved.mk rfl rfl

theorem hostBeginForeach_silent (idx : Nat) : Silent (hostBeginForeach idx) s := by
  unfold Silent Program.Ends hostBeginForeach
  cases s.action.steps[idx]? with
  | none => exact .refl s
  | some step => exact ⟨rfl, rfl⟩

theorem hostBeginRepeat_silent (idx : Nat) : Silent (hostBeginRepeat host idx) s := by
  unfold Silent Program.Ends hostBeginRepeat
  cases s.action.steps[idx]? with
  | none => exact .refl s
  | some step =>
    dsimp only
    cases repeatCount host _ with
    | error message => exact ⟨rfl, rfl⟩
    | ok count =>
      by_cases hmany : 2 ^ 31 - 1 < count
      · simp only [hmany, if_true]
        exact ⟨rfl, rfl⟩
      · simp only [hmany, if_false]
        exact ⟨rfl, rfl⟩

end Silent

/-! ### Stores -/

section Stores

variable (s : ExecutionState)

/-- A refused value is recorded as a violation that ends the invocation. -/
theorem storeEvents_trailing (id : String) (v : Value) :
    Trailing s (storeEvents s id v) (s.storeStepResult id v) ∧
      (Unstopped (storeEvents s id v) ∨ Escaping (s.storeStepResult id v)) := by
  refine ⟨⟨.store s id v, ?_⟩, ?_⟩
  · unfold storeEvents
    split
    · exact List.forall_mem_singleton.mpr ⟨rfl, rfl, rfl⟩
    · exact List.forall_mem_nil _
  · unfold storeEvents ExecutionState.storeStepResult
    by_cases hover : s.limits.maxStepResultsBytes < s.projectedBytes id v
    · simp only [hover, if_true]
      exact Or.inr rfl
    · simp only [hover, if_false]
      exact Or.inl unstopped_nil

theorem Escaping.store {s : ExecutionState} (h : Escaping s) (id : String) (v : Value) :
    Escaping (s.storeStepResult id v) := by
  unfold ExecutionState.storeStepResult
  dsimp only
  split
  · exact rfl
  · exact h

theorem Escaping.storeAll {s : ExecutionState} (h : Escaping s) (entries : List (String × Value)) :
    Escaping (s.storeStepResults entries) := by
  unfold ExecutionState.storeStepResults
  induction entries generalizing s with
  | nil => exact h
  | cons e rest ih => exact ih (h.store e.1 e.2)

theorem storesEvents_trailing (entries : List (String × Value)) :
    Trailing s (storesEvents s entries) (s.storeStepResults entries) ∧
      (Unstopped (storesEvents s entries) ∨ Escaping (s.storeStepResults entries)) := by
  induction entries generalizing s with
  | nil => exact ⟨(Unmoved.refl s).trailing, Or.inl unstopped_nil⟩
  | cons e rest ih =>
    obtain ⟨hfirst, hflag⟩ := storeEvents_trailing s e.1 e.2
    obtain ⟨hrest, hflag'⟩ := ih (s.storeStepResult e.1 e.2)
    refine ⟨hfirst.trans hrest, ?_⟩
    rcases hflag with hes | hescaping
    · exact hflag'.imp_left hes.append
    · exact Or.inr (hescaping.storeAll rest)

variable {host}

/-- A step's own store, whose caller looks for the violation. -/
theorem storeResult_trails (id : String) (v : Value) :
    Trails host (fun _ s' => Escaping s') (Watched.storeResult id v) s :=
  storeEvents_trailing s id v

theorem hostEndForeach_trails (idx : Nat) :
    Trails host (fun _ s' => Escaping s') (Watched.hostEndForeach idx) s := by
  unfold Trails Ends Watched.hostEndForeach observe Gwead.hostEndForeach endEvents
  cases s.action.steps[idx]? with
  | none => exact ⟨(Unmoved.refl s).trailing, Or.inl unstopped_nil⟩
  | some step =>
    cases s.foreachStack with
    | nil => exact ⟨(Unmoved.refl s).trailing, Or.inl unstopped_nil⟩
    | cons frame outer =>
      obtain ⟨htrail, hflag⟩ :=
        storeEvents_trailing { s with foreachStack := outer } step.id (.array frame.results)
      have hpop : Unmoved s { s with foreachStack := outer } := ⟨rfl, rfl⟩
      exact ⟨⟨hpop.trans htrail.unmoved, htrail.own⟩, hflag⟩

end Stores

end Gwead
