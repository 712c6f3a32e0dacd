import Gwead.ReturnSignal

/-!
# Cancellations and the budget are not caught

A cancelled body or a refused value makes every control-flow step around it fail with an error and
ends the action, under the wave scheduler always.  In a dataflow pipeline somebody follows a task that
stops on the token after it has fired is winding down, which is not an error; any other task that
stopped ends the action with one.
-/

namespace Gwead

open Program

/-! ### One call of `run_step` -/

/-- A control-flow step that shows a cancelled body or a refused value fails with an error; a leaf
step may also answer that its own body was cancelled. -/
theorem runStep_stopped {host : Host} {step : StepDef} {idx : Nat} {s : ExecutionState}
    (hstop : ∃ e ∈ runTrace host step idx s, e.stops = true) :
    (∃ e s', runStep host step idx s = .error e s') ∨
      step.kind = .leaf ∧ ∃ s', runStep host step idx s = .ok false s' ∧ s'.cancelled = true := by
  obtain ⟨e, he, hstops⟩ := hstop
  cases hrun : runStep host step idx s with
  | error e s' => exact Or.inl ⟨e, s', rfl⟩
  | ok ok s' =>
    rcases (runTrace_ok hrun).stopped with hes | ⟨hleaf, rfl, hcancelled⟩
    · rw [hes e he] at hstops
      cases hstops
    · exact Or.inr ⟨hleaf, s', rfl, hcancelled⟩

/-! ### The waves -/

theorem executeDag_stopped {host : Host} {action : Action} {plan : DagPlan} {pluginName : String}
    {input config secrets : Value} {trigger : Option Value} {limits : RuntimeLimits}
    (hstop : ∃ e ∈ actionTrace host action plan
      (.new pluginName action input config secrets trigger limits), e.stops = true) :
    ∃ e, executeDag host pluginName action plan input config secrets trigger limits = .error e := by
  generalize hs : ExecutionState.new pluginName action input config secrets trigger limits = s
    at hstop
  obtain ⟨e, he, hstops⟩ := hstop
  have hlaw := runWaves_law host action plan s
  unfold executeDag
  rw [hs, Watched.erase_runWaves]
  have hcontra : ¬Unstopped (actionTrace host action plan s) := fun hes => by
    rw [hes e he] at hstops
    cases hstops
  cases hstop : (Watched.runWaves host action plan s).2 with
  | none =>
    rw [hstop] at hlaw
    exact absurd hlaw.unstopped hcontra
  | some stop =>
    rw [hstop] at hlaw
    cases stop with
    | failed e => exact ⟨e, rfl⟩
    | returned => exact absurd hlaw.2 hcontra

/-! ### Dataflow -/

/-- A task that stopped on the token. -/
def EndedCancelled : EStateM.Result KernelError ExecutionState Bool → Prop
  | .ok false s => s.cancelled = true
  | .error (.cancelled _) _ => True
  | _ => False

/-- In a pipeline somebody follows, a task joined after `pre` stopped on the token that had fired,
and no refused value is recorded once it is merged. -/
def WindingDown (listened token : Bool) (pre : List PipelineEvent)
    (result : EStateM.Result KernelError ExecutionState Bool) (merged : ExecutionState) : Prop :=
  listened = true ∧ (token = true ∨ .fired ∈ pre) ∧ EndedCancelled result ∧ ¬Escaping merged

section Pipeline

variable {host : Host} {action : Action} {plan : DagPlan} {listened : Bool} {s : ExecutionState}
  {fanout : List (Nat × List Nat)} {token : Bool} {es : List PipelineEvent} {c : Pipeline}

/-- What one event of a pipeline shows. -/
def PipelineEvent.shows (host : Host) (action : Action) (c : ExecutionState) :
    PipelineEvent → List RunEvent
  | .joined task result _ =>
    runTrace host (action.stepAt task.idx) task.idx task.fork ++
      mergeEntryEvents c (finalState result) (action.stepAt task.idx).id
  | _ => []

/-- A join without a report: nothing stopped, or the task stopped on the token and is winding
down. -/
theorem joined_unreported {c c' : Pipeline} {task : Task}
    (hjoin : joinTask host action listened c task =
      (.joined task (runStep host (action.stepAt task.idx) task.idx task.fork) none, c'))
    (herror : c.firstError = none) :
    Unstopped (PipelineEvent.shows host action c.canonical
      (.joined task (runStep host (action.stepAt task.idx) task.idx task.fork) none)) ∨
      c.cancelled = true ∧ listened = true ∧
        EndedCancelled (runStep host (action.stepAt task.idx) task.idx task.fork) ∧
          ¬Escaping c'.canonical := by
  have hreport := (Prod.ext_iff.mp hjoin).1
  simp only [joinTask, PipelineEvent.joined.injEq, true_and, herror, Option.isNone_none,
    if_true] at hreport
  obtain ⟨htask, htripped⟩ := Option.or_eq_none_iff.mp hreport
  have hfits : ¬Escaping c'.canonical := fun hmark => by
    have hnext : (joinTask host action listened c task).2 = c' := (Prod.ext_iff.mp hjoin).2
    rw [← hnext] at hmark
    exact Option.isSome_iff_ne_none.mp hmark htripped
  have hmerge := (mergeTaskState_escaping c.canonical
    (finalState (runStep host (action.stepAt task.idx) task.idx task.fork))
      (action.stepAt task.idx).id c.baselineVariables).2.resolve_right fun hmark =>
    Option.isSome_iff_ne_none.mp hmark htripped
  cases hrun : runStep host (action.stepAt task.idx) task.idx task.fork with
  | ok ok t =>
    rw [hrun] at htask hmerge
    cases ok with
    | true =>
      have hes := (runTrace_ok hrun).stopped.resolve_right fun h => by cases h.2.1
      exact Or.inl (hes.append hmerge)
    | false =>
      simp only [taskReport] at htask
      by_cases hwinding : (t.cancelled && (c.cancelled && listened)) = true
      · simp only [Bool.and_eq_true] at hwinding
        exact Or.inr ⟨hwinding.2.1, hwinding.2.2, hwinding.1, hfits⟩
      · rw [if_neg hwinding] at htask
        cases htask
  | error e t =>
    rw [hrun] at htask
    cases e with
    | cancelled at_ =>
      simp only [taskReport] at htask
      by_cases hwinding : (c.cancelled && listened) = true
      · rw [Bool.and_eq_true] at hwinding
        exact Or.inr ⟨hwinding.1, hwinding.2, trivial, hfits⟩
      · rw [if_neg hwinding] at htask
        cases htask
    | _ => cases htask

/-- While no error was reported, each task that stopped was winding down. -/
theorem unreported_of_run
    (hrun : PipelineRun host action plan listened (startPipeline action plan s fanout token) es c)
    (hnone : c.firstError = none) {pre post : List PipelineEvent} {task : Task}
    {result : EStateM.Result KernelError ExecutionState Bool} {report : Option KernelError}
    (hes : es = pre ++ .joined task result report :: post) :
    Unstopped (PipelineEvent.shows host action (mergedState action s pre)
        (.joined task result report)) ∨
      WindingDown listened token pre result
        (mergedState action s (pre ++ [.joined task result report])) := by
  have hreports : NoReports es := (reflected_of_run hrun).firstError.mp hnone
  obtain ⟨t, t', hpre, hstep, -⟩ := hrun.split hes
  have hbefore := reflected_of_run hpre
  have hafter := reflected_of_run (hpre.snoc hstep)
  have hquiet : NoReports pre := fun task result report hmem =>
    hreports task result report (by rw [hes]; exact List.mem_append_left _ hmem)
  have herror : t.firstError = none := hbefore.firstError.mpr hquiet
  obtain rfl : report = none := hreports task result report (by rw [hes]; simp)
  rw [← hbefore.canonical, ← hafter.canonical]
  cases hstep.move host action plan with
  | join _ hphase htask _ _ hjoin =>
    refine (joined_unreported hjoin herror).imp_right ?_
    rintro ⟨htoken, hlistened, hcancelled, hfits⟩
    have hfired := (hbefore.cancelled htoken).imp_right fun h =>
      h.resolve_right (not_not_intro hquiet)
    exact ⟨hlistened, hfired, hcancelled, hfits⟩

/-- A pipeline that ended well reported no error. -/
theorem ended_unreported {result : ActionResult}
    (hrun : PipelineRun host action plan listened (startPipeline action plan s fanout token) es c)
    (hended : c.phase = .ended (.ok result)) : c.firstError = none := by
  have hinv : (∃ outcome, c.phase = .ended (.ok outcome)) → c.firstError = none := by
    refine hrun.invariant (P := fun _ c => (∃ outcome, c.phase = .ended (.ok outcome)) →
      c.firstError = none) (fun _ => rfl) fun _ t e u ih hstep => ?_
    cases hstep.move host action plan with
    | fire => exact ih
    | finish hphase hrunning =>
      rintro ⟨outcome, hphase'⟩
      have hfinish : finishPipeline host action t = .ok outcome := Phase.ended.inj hphase'
      unfold finishPipeline at hfinish
      cases herror : t.firstError with
      | none => rfl
      | some e =>
        rw [herror] at hfinish
        cases hfinish
    | join task hphase htask report c' hjoin =>
      cases hjoin
      rintro ⟨_, h⟩
      cases h
    | _ =>
      rintro ⟨_, h⟩
      cases h
  exact hinv ⟨result, hended⟩

end Pipeline

/-- Once a step body answers that it was cancelled or a store refuses a value, only concurrent
tasks run steps, the control-flow steps around fail with an error, and the action ends with an error,
but for a task of a dataflow pipeline somebody follows that stopped on the token after it had fired:
that task alone does not make the action fail. -/
theorem cancellation_and_budget_uncaught (host : Host) (action : Action) (plan : DagPlan) :
    (∀ step idx s, Orderly (runTrace host step idx s) ∧
      ((∃ e ∈ runTrace host step idx s, e.stops = true) →
        (∃ e s', runStep host step idx s = .error e s') ∨ step.kind = .leaf ∧
          ∃ s', runStep host step idx s = .ok false s' ∧ s'.cancelled = true)) ∧
    (∀ pluginName input config secrets trigger limits,
      Orderly (actionTrace host action plan
        (.new pluginName action input config secrets trigger limits)) ∧
      ((∃ e ∈ actionTrace host action plan
        (.new pluginName action input config secrets trigger limits), e.stops = true) →
        ∃ e, executeDag host pluginName action plan input config secrets trigger limits = .error e)) ∧
    ∀ listened s fanout token es c outcome,
      PipelineRun host action plan listened (startPipeline action plan s fanout token) es c →
        c.phase = .ended outcome →
          ∀ pre task result report post, es = pre ++ .joined task result report :: post →
            (∃ e ∈ PipelineEvent.shows host action (mergedState action s pre)
              (.joined task result report), e.stops = true) →
              (∃ e, outcome = .error e) ∨ WindingDown listened token pre result
                (mergedState action s (pre ++ [.joined task result report])) := by
  refine ⟨fun step idx s => ⟨runTrace_obeys.orderly, runStep_stopped⟩,
    fun pluginName input config secrets trigger limits => ⟨?_, executeDag_stopped⟩, ?_⟩
  · have hlaw := runWaves_law host action plan
      (.new pluginName action input config secrets trigger limits)
    unfold actionTrace
    cases hstop : (Watched.runWaves host action plan
        (.new pluginName action input config secrets trigger limits)).2 with
    | none =>
      rw [hstop] at hlaw
      exact hlaw.obeys.orderly
    | some stop =>
      rw [hstop] at hlaw
      cases stop with
      | failed e => exact hlaw.orderly
      | returned => exact hlaw.1.obeys.orderly
  · intro listened s fanout token es c outcome hrun hended pre task result report post hes hstop
    obtain ⟨e, he, hstops⟩ := hstop
    cases outcome with
    | error e => exact Or.inl ⟨e, rfl⟩
    | ok outcome =>
      rcases unreported_of_run hrun (ended_unreported hrun hended) hes with hquiet | hwinding
      · rw [hquiet e he] at hstops
        cases hstops
      · exact Or.inr hwinding

/-! ### A pipeline that winds down -/

/-- Every step body answers that it was cancelled. -/
def stoppingHost : Host :=
  { quietHost Binary64.display with
    resolveStepType := some
    bodies := fun _ => some fun _ _ => ⟨.error .cancelled, [], none⟩ }

def sourceAction : Action :=
  { Action.ofSteps [{ StepDef.new "source" "poll" .null with longRunning := true }] with
    dataflow := true }

def sourceState : ExecutionState :=
  provisioned stoppingHost sourceAction ⟨[[0]], [[]], [[]]⟩
    (.new "demo" sourceAction .null .null .null none ⟨1000000, 64⟩)

def sourceStart : Pipeline := startPipeline sourceAction ⟨[[0]], [[]], [[]]⟩ sourceState [] false

/-- Whether a run ended well, and the tasks whose body was cancelled. -/
def observedStop (choices : List Choice) : Option (List Bool) :=
  (drive stoppingHost sourceAction ⟨[[0]], [[]], [[]]⟩ true choices sourceStart).bind fun r =>
    match r.2.phase with
    | .ended (.ok _) =>
      some ((pipelineTrace stoppingHost sourceAction .empty sourceState r.1).map (·.stops))
    | _ => none

/-- The token of a followed pipeline fires, the body of its step answers that it was cancelled, and
the pipeline ends well. -/
theorem cancelled_pipeline_ends_well :
    buildPlan sourceAction = .ok ⟨[[0]], [[]], [[]]⟩ ∧
      ∃ es c result,
        PipelineRun stoppingHost sourceAction ⟨[[0]], [[]], [[]]⟩ true sourceStart es c ∧
        c.phase = .ended (.ok result) ∧
        ∃ e ∈ pipelineTrace stoppingHost sourceAction .empty sourceState es, e.stops = true := by
  refine ⟨by decide +kernel, ?_⟩
  have hobserved : observedStop [.advance, .fire, .advance, .join 0, .advance, .advance] =
      some [false, true] := by decide +kernel
  obtain ⟨⟨es, c⟩, hdrive, h⟩ := Option.bind_eq_some_iff.mp hobserved
  cases hphase : c.phase with
  | ended outcome =>
    simp only [hphase] at h
    cases outcome with
    | error e => cases h
    | ok result =>
      refine ⟨es, c, result, drive_run _ _ _ hdrive, hphase, ?_⟩
      have hmem : true ∈ (pipelineTrace stoppingHost sourceAction .empty sourceState es).map
          (·.stops) := by
        rw [Option.some.inj h]
        decide
      exact List.mem_map.mp hmem
  | _ =>
    simp only [hphase] at h
    cases h

end Gwead
