import Gwead.DataflowSafety
import Gwead.WaveTrace

/-!
# `return` under the three schedulers

Under the wave scheduler, sequential or parallel, the first value returned is the action's output
and nothing but concurrent tasks runs afterwards.  The dataflow scheduler never looks at the return
signal: its output is what the output rule makes of the merged results.
-/

namespace Gwead

open Program

/-- What a run of an action shows under the wave scheduler. -/
def actionTrace (host : Host) (action : Action) (plan : DagPlan) (s : ExecutionState) :
    List RunEvent :=
  (Watched.runWaves host action plan s).1.2

/-- What the joined tasks of a pipeline show, each followed by what its merge refuses. -/
def pipelineTrace (host : Host) (action : Action) (baseline : IndexMap String Value) :
    ExecutionState → List PipelineEvent → List RunEvent
  | _, [] => []
  | c, .joined task result report :: rest =>
    runTrace host (action.stepAt task.idx) task.idx task.fork ++
      mergeEntryEvents c (finalState result) (action.stepAt task.idx).id ++
        pipelineTrace host action baseline
          (PipelineEvent.merge action baseline c (.joined task result report)) rest
  | c, _ :: rest => pipelineTrace host action baseline c rest

/-- The first value returned, if any, is the output; a call made later belongs to a task that ran
concurrently, and no step is called under the return signal. -/
structure ReturnHonoured (es : List RunEvent) (output : Value) : Prop where
  output : ∀ v rest, returns es = v :: rest → output = v
  after : es.Pairwise fun e e' => e.value?.isSome → e'.dispatches = true → Concurrent e.task e'.task
  fresh : ∀ e ∈ es, e.fresh

theorem ReturnHonoured.of_obeys {s : ExecutionState} {es : List RunEvent} {output : Value}
    (h : Obeys s es) (hs : s.returnSignal = none)
    (houtput : ∀ v rest, returns es = v :: rest → output = v) : ReturnHonoured es output :=
  ⟨houtput, h.orderly.imp fun hpair hvalue hcalls =>
    hpair (by rw [RunEvent.halts, hvalue, Bool.or_true]) hcalls, h.fresh hs⟩

/-- The result of a pipeline that ended well is read off the merged state. -/
theorem ended_result {host : Host} {action : Action} {plan : DagPlan} {listened : Bool}
    {s : ExecutionState} {fanout : List (Nat × List Nat)} {token : Bool}
    {es : List PipelineEvent} {c : Pipeline} {result : ActionResult}
    (hrun : PipelineRun host action plan listened (startPipeline action plan s fanout token) es c)
    (hended : c.phase = .ended (.ok result)) : result = pipelineResult host c.canonical := by
  have hinv : ∀ outcome, c.phase = .ended (.ok outcome) → outcome = pipelineResult host c.canonical := by
    refine hrun.invariant (P := fun _ c => ∀ outcome, c.phase = .ended (.ok outcome) →
      outcome = pipelineResult host c.canonical) (fun _ h => by cases h) fun _ t e u ih hstep => ?_
    cases hstep.move host action plan with
    | fire => exact ih
    | finish hphase hrunning =>
      intro outcome hphase'
      have hfinish : finishPipeline host action t = .ok outcome := Phase.ended.inj hphase'
      unfold finishPipeline at hfinish
      split at hfinish
      · cases hfinish
      · dsimp only at hfinish
        split at hfinish
        · cases hfinish
        · cases hfinish
          rfl
    | join task hphase htask report c' hjoin =>
      cases hjoin
      exact fun _ h => by cases h
    | panic => exact fun _ h => by cases h
    | _ => exact fun _ h => by cases h
  exact hinv result hended

/-- Under the wave scheduler a `return` ends the action with its value, and in every run of a
dataflow pipeline that ends well the output is the one of the output rule, whatever was returned. -/
theorem return_honoured_by_waves (host : Host) (action : Action) (plan : DagPlan) :
    (∀ pluginName input config secrets trigger limits result,
      executeDag host pluginName action plan input config secrets trigger limits = .ok result →
        ReturnHonoured (actionTrace host action plan
          (.new pluginName action input config secrets trigger limits)) result.output) ∧
    ∀ listened s fanout token es c result,
      PipelineRun host action plan listened (startPipeline action plan s fanout token) es c →
        c.phase = .ended (.ok result) →
          result.output = (mergedState action s es).collectOutput host.floatText := by
  constructor
  · intro pluginName input config secrets trigger limits result hresult
    generalize hs : ExecutionState.new pluginName action input config secrets trigger limits = s
    have hnone : s.returnSignal = none := by rw [← hs]; rfl
    have hlaw := runWaves_law host action plan s
    unfold executeDag at hresult
    rw [hs, Watched.erase_runWaves] at hresult
    unfold actionTrace
    cases hstop : (Watched.runWaves host action plan s).2 with
    | none =>
      rw [hstop] at hlaw hresult
      cases hresult
      refine .of_obeys hlaw.obeys hnone fun v rest hv => ?_
      rw [hlaw.returns] at hv
      cases hv
    | some stop =>
      rw [hstop] at hlaw hresult
      cases stop with
      | failed e => cases hresult
      | returned =>
        cases hresult
        refine .of_obeys hlaw.1.obeys hnone fun v rest hv => ?_
        have hsignal := hlaw.1.signal hnone
        rw [hv] at hsignal
        simp only [actionResult, hsignal, List.head?_cons, Option.getD_some]
  · intro listened s fanout token es c result hrun hended
    rw [ended_result hrun hended, (reflected_of_run hrun).canonical]
    rfl

/-- `late` waits for the `return` before it. -/
def earlySteps : List StepDef :=
  [.new "done" "return" (.object [("value", .string "returned")]),
    { StepDef.new "late" "let" (.object [("value", .string "late")]) with dependsOn := ["done"] }]

def earlyReturn : Action := Action.ofSteps earlySteps

def earlyPlan : DagPlan := ⟨[[0], [1]], [[], [0]], [[1], []]⟩

/-- The same steps beside the long-running one that a dataflow action must have. -/
def earlyDataflow : Action :=
  { Action.ofSteps (earlySteps ++ [{ StepDef.new "feed" "let" .null with longRunning := true }]) with
    dataflow := true }

def streamedPlan : DagPlan := ⟨[[0, 2], [1]], [[], [0], []], [[1], [], []]⟩

def earlyState : ExecutionState :=
  provisioned (quietHost Binary64.display) earlyDataflow streamedPlan
    (.new "demo" earlyDataflow .null .null .null none ⟨1000000, 64⟩)

def earlyStart : Pipeline := startPipeline earlyDataflow streamedPlan earlyState [] false

/-- The output a run ended well with, and the values returned on the way. -/
def observedReturn (choices : List Choice) : Option (Value × List Value) :=
  (drive (quietHost Binary64.display) earlyDataflow streamedPlan true choices earlyStart).bind fun r =>
    match r.2.phase with
    | .ended (.ok result) => some (result.output,
        returns (pipelineTrace (quietHost Binary64.display) earlyDataflow .empty earlyState r.1))
    | _ => none

/-- A dataflow run in which `return` executes: its consumer still runs, and the output is the
consumer's result. -/
theorem dataflow_drops_return :
    buildPlan earlyDataflow = .ok streamedPlan ∧
      ∃ es c result,
        PipelineRun (quietHost Binary64.display) earlyDataflow streamedPlan true earlyStart es c ∧
        c.phase = .ended (.ok result) ∧ result.output = .string "late" ∧
        ¬ReturnHonoured (pipelineTrace (quietHost Binary64.display) earlyDataflow .empty earlyState es)
          result.output := by
  refine ⟨by decide +kernel, ?_⟩
  have hobserved : observedReturn [.advance, .advance, .advance, .advance, .join 0, .advance,
      .advance, .advance, .join 2, .advance, .join 1, .advance, .advance, .advance] =
        some (.string "late", [.string "returned"]) := by decide +kernel
  obtain ⟨⟨es, c⟩, hdrive, h⟩ := Option.bind_eq_some_iff.mp hobserved
  cases hphase : c.phase with
  | ended outcome =>
    simp only [hphase] at h
    cases outcome with
    | error e => cases h
    | ok result =>
      have houtput : result.output = .string "late" := (Prod.ext_iff.mp (Option.some.inj h)).1
      have hreturns : returns (pipelineTrace (quietHost Binary64.display) earlyDataflow .empty
          earlyState es) = [.string "returned"] := (Prod.ext_iff.mp (Option.some.inj h)).2
      refine ⟨es, c, result, drive_run _ _ _ hdrive, hphase, houtput, fun hhonoured => ?_⟩
      have hsame := hhonoured.output _ _ hreturns
      rw [houtput] at hsame
      exact absurd hsame (by decide)
  | _ =>
    simp only [hphase] at h
    cases h

/-- The same steps under the wave scheduler answer the returned value. -/
theorem early_return_honoured :
    ∃ result, executeDag (quietHost Binary64.display) "demo" earlyReturn earlyPlan .null .null .null
        none ⟨1000000, 64⟩ = .ok result ∧ result.output = .string "returned" ∧
      ReturnHonoured (actionTrace (quietHost Binary64.display) earlyReturn earlyPlan
        (.new "demo" earlyReturn .null .null .null none ⟨1000000, 64⟩)) result.output := by
  have hrun : ((executeDag (quietHost Binary64.display) "demo" earlyReturn earlyPlan .null .null
      .null none ⟨1000000, 64⟩).toOption.map (·.output)) = some (.string "returned") := by
    decide +kernel
  obtain ⟨result, hok, houtput⟩ := Option.map_eq_some_iff.mp hrun
  have hresult : executeDag (quietHost Binary64.display) "demo" earlyReturn earlyPlan .null .null
      .null none ⟨1000000, 64⟩ = .ok result := by
    cases hexec : executeDag (quietHost Binary64.display) "demo" earlyReturn earlyPlan .null .null
        .null none ⟨1000000, 64⟩ with
    | ok r =>
      rw [hexec] at hok
      cases hok
      rfl
    | error e =>
      rw [hexec] at hok
      cases hok
  exact ⟨result, hresult, houtput, (return_honoured_by_waves (quietHost Binary64.display)
    earlyReturn earlyPlan).1 _ _ _ _ _ _ result hresult⟩

end Gwead
