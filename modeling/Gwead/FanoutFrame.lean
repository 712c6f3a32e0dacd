import Gwead.BranchResults
import Gwead.FanoutReads
import Gwead.SchedulerCalls

/-!
# Who sees the branches of a fan-out

The wave loop lays the overrides of a step on the state it is called on, a fork or the state itself,
and every call below sees the same ones.  Nothing takes the overrides of the last step off the state
again, so the output is read through them.
-/

namespace Gwead

open Program Dsl

/-! ### What the calls below a step see -/

/-- What a state shows of a producer: its overrides, and the result itself. -/
def sight (b : String) (s : ExecutionState) : List (String × Nat) × Option Value :=
  (s.activeFanoutOverrides, s.stepResults.get? b)

theorem overrides_forget (s : ExecutionState) (steps : List StepDef) :
    (s.forget steps).activeFanoutOverrides = s.activeFanoutOverrides := by
  unfold ExecutionState.forget
  induction steps generalizing s with
  | nil => rfl
  | cons step rest ih => rw [List.foldl_cons, ih]

theorem sight_ofHoldings (b : String) (shown : List (String × Nat) × Option Value) :
    OfHoldings fun s => sight b s = shown := by
  intro s t hs hsame
  rw [sight, show t.stepResults = s.stepResults from congrArg Holdings.results hsame,
    show t.activeFanoutOverrides = s.activeFanoutOverrides from congrArg Holdings.overrides hsame]
  exact hs

/-- A step below which no step has the id: every call below it sees what the step sees, and so does
what comes after the call, unless it was the step's own. -/
theorem Reaches.sight {host : Host} {C : StepDef → Prop} {b : String}
    (hclosed : ∀ step inner, C step → Splices step inner → C inner)
    (hne : ∀ step, C step → step.id ≠ b) {depth : Nat} {step last : StepDef} {idx j : Nat}
    {s u : ExecutionState} {pending : Bool} (hbelow : ∀ inner, Splices step inner → C inner)
    (hat : s.action.steps[idx]? = some step)
    (h : Reaches host depth step idx s pending last j u) :
    Gwead.sight b u = Gwead.sight b s ∧ (C last → ∀ ok u', runStep host last j u = .ok ok u' →
      Gwead.sight b u' = Gwead.sight b s) := by
  induction h with
  | @self depth step idx s =>
    refine ⟨rfl, fun hC ok u' hran => Prod.ext ((runStep_sameSetting host step idx).ok hran).overrides ?_⟩
    exact runStepTo_keeps_result hclosed hne _ step idx s ok u' hC hat hran
  | @inner depth step inner last idx i j s t u pending below hcall _ ih =>
    have hset : ∀ inner i, Respects SameSetting (runStepTo host depth inner i) :=
      sameSetting_preserved.runStepTo depth
    have hin : C inner := hbelow inner hcall.splices
    have hsight : Gwead.sight b t = Gwead.sight b s := by
      refine hcall.kept (J := fun t => Gwead.sight b t = Gwead.sight b s) (sight_ofHoldings b _) rfl
        (fun _ first i t ok t' hmade ht hran => ?_) fun hkind _ before _ hbefore => ?_
      · have hfirst : C first := hbelow first hmade.splices
        have hsame : Gwead.sight b t' = Gwead.sight b t := Prod.ext ((hset first i).ok hran).overrides
          (runStepTo_keeps_result hclosed hne depth first i t ok t' hfirst (hmade.located hset) hran)
        exact hsame.trans ht
      · have hbody : ∀ first ∈ loopBody step, first.id ≠ b := fun first hfirst =>
          hne first (hbelow first (.loop hkind hfirst))
        have hsame : Gwead.sight b (before.forget (loopBody step)) = Gwead.sight b before :=
          Prod.ext (overrides_forget before _) (get?_forget_ne hbody)
        exact hsame.trans hbefore
    rw [← hsight]
    exact ih (fun first hfirst => hclosed inner first hin hfirst) (hcall.located hset)

/-! ### The bodies of an action -/

/-- A step that is written in a body of the action, at any depth. -/
def InBody (action : Action) (inner : StepDef) : Prop :=
  ∃ top ∈ action.steps, ∃ bodies body, stepBodies top = some bodies ∧ body ∈ bodies ∧
    Nested (body.filterMap StepDef.fromInnerValue) inner

theorem InBody.closed {action : Action} {step inner : StepDef} (h : InBody action step)
    (hin : Splices step inner) : InBody action inner := by
  obtain ⟨top, htop, bodies, body, hbodies, hbody, hn⟩ := h
  exact ⟨top, htop, bodies, body, hbodies, hbody, hn.splice hin⟩

theorem inBody_of_splices {action : Action} {top inner : StepDef} (htop : top ∈ action.steps)
    (h : Splices top inner) : InBody action inner := by
  obtain ⟨bodies, hbodies, body, hbody, hin⟩ := h.mem_body
  exact ⟨top, htop, bodies, body, hbodies, hbody, .top hin⟩

end Gwead
