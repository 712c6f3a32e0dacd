import Gwead.Lib.Transition
import Gwead.Waves

/-!
# The dataflow scheduler

`execute_dag_dataflow` as a transition system.  Every step is a task on its own fork; a choice
says what happens next: the scheduler goes on, a task finishes or panics, or somebody fires the
cancellation token.  No task of the set is ever aborted, so a join brings an answer or a panic.
-/

namespace Gwead

structure Task where
  idx : Nat
  fork : ExecutionState

/-- Where the scheduler is: in the initial spawn loop, waiting for a task, about to decide
whether the step just joined releases its consumers, in the release loop, or done. -/
inductive Phase where
  | starting (next : Nat)
  | waiting
  | deciding (idx : Nat)
  | releasing (idx : Nat) (consumers : List Nat)
  | ended (outcome : Except KernelError ActionResult)

structure Pipeline where
  canonical : ExecutionState
  fanout : List (Nat × List Nat)
  baselineVariables : IndexMap String Value
  awaiting : List Nat
  spawned : List Bool
  running : List Task
  firstError : Option KernelError
  cancelled : Bool
  phase : Phase

inductive PipelineEvent where
  /-- Somebody fires the token. -/
  | fired
  | spawned (idx : Nat) (fork : ExecutionState)
  /-- A task is joined and merged; `report` is the error it is reported with. -/
  | joined (task : Task) (result : EStateM.Result KernelError ExecutionState Bool)
      (report : Option KernelError)
  | released (idx : Nat)
  | panicked (idx : Nat)
  | passed

/-- What happens next. -/
inductive Choice where
  | fire
  | advance
  | join (idx : Nat)
  | panic (idx : Nat) (text : String)

section Scheduler

variable (host : Host) (action : Action) (plan : DagPlan)

/-! ### Provisioning -/

/-- Open the pipe of a long-running step and show its readable end as the step's result.  A step
whose writable the caller supplies gets no pipe and must have no consumers. -/
def provisionStep (preAllocated : List String) (idx : Nat) (step : StepDef)
    (acc : ExecutionState × List (Nat × List Nat)) :
    Except KernelError (ExecutionState × List (Nat × List Nat)) :=
  let (s, fanout) := acc
  let consumers := plan.consumersAt idx
  let first := { s with firstStepId := s.firstStepId.or (some step.id) }
  if !step.longRunning then .ok acc
  else if preAllocated.contains step.id then
    if consumers.isEmpty then .ok (first, fanout)
    else
      .error (.validation ("io.invoke_streaming: step '" ++ step.id ++ "' has " ++
        consumers.length.repr ++ " in-action consumer(s); pre-allocated output is only valid " ++
        "when consumers is empty"))
  else
    let handle := host.pipeReadable s
    let s := { first with stepResults := first.stepResults.insert step.id (.ofNat handle) }
    if consumers.length < 2 then .ok (s, fanout)
    else
      match host.fanOut s handle consumers.length with
      | .ok branches => .ok (s, AssocMap.put idx branches fanout)
      | .error e =>
        .error (.execution ("Dataflow fan-out setup failed for long-running producer '" ++
          step.id ++ "': " ++ e))

def provisionFrom (preAllocated : List String) : Nat → List StepDef →
    ExecutionState × List (Nat × List Nat) →
      Except KernelError (ExecutionState × List (Nat × List Nat))
  | _, [], acc => .ok acc
  | idx, step :: rest, acc => do
    let acc ← provisionStep host plan preAllocated idx step acc
    provisionFrom preAllocated (idx + 1) rest acc

/-- Every long-running step has its pipe before the first task is spawned. -/
def provisionDataflowStreams (preAllocated : List String) (s : ExecutionState) :
    Except KernelError (ExecutionState × List (Nat × List Nat)) :=
  provisionFrom host plan preAllocated 0 action.steps (s, [])

/-- The state in which a pipeline whose pre-flight succeeds without caller-supplied outputs
starts. -/
def provisioned (s : ExecutionState) : ExecutionState :=
  match provisionDataflowStreams host action plan [] s with
  | .ok (s', _) => s'
  | .error _ => s

/-! ### Scheduling -/

/-- The dependencies whose value a step waits for. -/
def valueDeps (idx : Nat) : List Nat :=
  (plan.depsOf idx).filter fun d => !(action.stepAt d).longRunning

def initialAwaiting : List Nat :=
  (List.range action.steps.length).map fun idx => (valueDeps action plan idx).length

/-- The pipeline before its first spawn. -/
def startPipeline (s : ExecutionState) (fanout : List (Nat × List Nat)) (cancelled : Bool) :
    Pipeline where
  canonical := s
  fanout := fanout
  baselineVariables := s.vars
  awaiting := initialAwaiting action plan
  spawned := List.replicate action.steps.length false
  running := []
  firstError := none
  cancelled := cancelled
  phase := .starting 0

/-- The state a step's task starts in: a fork of the canonical state with the step's branch
handles. -/
def forkFor (canonical : ExecutionState) (fanout : List (Nat × List Nat)) (idx : Nat) :
    ExecutionState :=
  (canonical.fork idx).setOverrides (fanoutOverrides plan action fanout idx)

/-- Spawn a step's task and go on in `phase`. -/
def spawnDataflowStep (c : Pipeline) (idx : Nat) (phase : Phase) : PipelineEvent × Pipeline :=
  let fork := forkFor action plan c.canonical c.fanout idx
  (.spawned idx fork,
    { c with
      running := c.running ++ [⟨idx, fork⟩]
      spawned := c.spawned.set idx true
      phase := phase })

/-- How a joined task is reported.  A step that stopped on the token of a pipeline somebody
listens to is winding down, not failing. -/
def taskReport (windingDown : Bool) (step : StepDef) :
    EStateM.Result KernelError ExecutionState Bool → Option KernelError
  | .ok true _ => none
  | .ok false s => if s.cancelled && windingDown then none else some (stepFailureToError s step)
  | .error (.cancelled at_) _ => if windingDown then none else some (.cancelled at_)
  | .error e _ => some e

/-- Join a finished task: merge it, report it, and fire the token on the first error. -/
def joinTask (listened : Bool) (c : Pipeline) (task : Task) : PipelineEvent × Pipeline :=
  let step := action.stepAt task.idx
  let result := runStep host step task.idx task.fork
  let canonical := mergeTaskState c.canonical (Program.finalState result) step.id
    c.baselineVariables
  let tripped := if c.firstError.isNone then escapingViolation canonical else none
  let report := (taskReport (c.cancelled && listened) step result).or tripped
  (.joined task result report,
    { c with
      canonical := canonical
      running := c.running.filter fun t => t.idx != task.idx
      firstError := c.firstError.or report
      cancelled := c.cancelled || (c.firstError.isNone && report.isSome)
      phase := .deciding task.idx })

def neverRan (c : Pipeline) : List String :=
  ((List.range action.steps.length).filter fun idx => !c.spawned.getD idx false).map fun idx =>
    (action.stepAt idx).id

def schedulerBug (ids : List String) : KernelError :=
  .execution ("Dataflow scheduler bug: step(s) [" ++ ", ".intercalate ids ++
    "] never became runnable, but the pipeline neither failed nor was cancelled. Their " ++
    "dependencies were never satisfied.")

/-- A dataflow action's result.  The return signal is not consulted. -/
def pipelineResult (s : ExecutionState) : ActionResult where
  output := s.collectOutput host.floatText
  vars := s.vars
  stepResults := s.stepResults

def finishPipeline (c : Pipeline) : Except KernelError ActionResult :=
  match c.firstError with
  | some e => .error e
  | none =>
    let missing := neverRan action c
    if !c.cancelled && !missing.isEmpty then .error (schedulerBug missing)
    else .ok (pipelineResult host c.canonical)

/-- Count one dependency of a step as satisfied. -/
def Pipeline.countDown (c : Pipeline) (idx : Nat) : Pipeline :=
  { c with awaiting := c.awaiting.set idx (c.awaiting.getD idx 0 - 1) }

/-- One consumer of a step that finished: it is spawned if that was its last dependency. -/
def releaseConsumer (c : Pipeline) (idx consumer : Nat) (rest : List Nat) :
    PipelineEvent × Pipeline :=
  if c.awaiting.getD consumer 0 - 1 = 0 ∧ c.spawned.getD consumer false = false then
    spawnDataflowStep action plan (c.countDown consumer) consumer (.releasing idx rest)
  else (.passed, { c.countDown consumer with phase := .releasing idx rest })

/-- The scheduler's own next step, when it is not waiting for a task. -/
def advance (c : Pipeline) : Option (PipelineEvent × Pipeline) :=
  match c.phase with
  | .starting next =>
    if next < action.steps.length then
      if c.awaiting.getD next 0 = 0 then
        some (spawnDataflowStep action plan c next (.starting (next + 1)))
      else some (.passed, { c with phase := .starting (next + 1) })
    else some (.passed, { c with phase := .waiting })
  | .waiting =>
    if c.running.isEmpty then
      some (.passed, { c with phase := .ended (finishPipeline host action c) })
    else none
  | .deciding idx =>
    if !(action.stepAt idx).longRunning && c.firstError.isNone && !c.cancelled then
      some (.released idx, { c with phase := .releasing idx (plan.consumersAt idx) })
    else some (.passed, { c with phase := .waiting })
  | .releasing _ [] => some (.passed, { c with phase := .waiting })
  | .releasing idx (consumer :: rest) => some (releaseConsumer action plan c idx consumer rest)
  | .ended _ => none

/-- The task of a step, when the scheduler is waiting for one. -/
def waitingTask (c : Pipeline) (idx : Nat) : Option Task :=
  match c.phase with
  | .waiting => c.running.find? fun t => t.idx == idx
  | _ => none

def panicError (text : String) : KernelError := .execution ("Dataflow task panicked: " ++ text)

/-- One step of the pipeline; `listened` says whether the caller follows its events. -/
def pipelineStep (listened : Bool) (c : Pipeline) : Choice → Option (PipelineEvent × Pipeline)
  | .fire => some (.fired, { c with cancelled := true })
  | .advance => advance host action plan c
  | .join idx => (waitingTask c idx).map fun task => joinTask host action listened c task
  | .panic idx text => (waitingTask c idx).map fun _ =>
      (.panicked idx, { c with phase := .ended (.error (panicError text)) })

/-- Whatever is chosen. -/
def PipelineStep (listened : Bool) (c : Pipeline) (e : PipelineEvent) (c' : Pipeline) : Prop :=
  ∃ choice, pipelineStep host action plan listened c choice = some (e, c')

/-- The runs of a pipeline, with the events they show. -/
abbrev PipelineRun (listened : Bool) : Pipeline → List PipelineEvent → Pipeline → Prop :=
  Transition.Run (PipelineStep host action plan listened)

/-- Make the choices one after the other. -/
def drive (listened : Bool) : List Choice → Pipeline → Option (List PipelineEvent × Pipeline) :=
  Transition.drive (pipelineStep host action plan listened)

theorem drive_run {listened : Bool} {choices : List Choice} {c c' : Pipeline}
    {es : List PipelineEvent} (h : drive host action plan listened choices c = some (es, c')) :
    PipelineRun host action plan listened c es c' :=
  Transition.drive_run (fun choice _ _ _ _ hstep => ⟨choice, hstep⟩) h

/-- Everything one step can be, with what the scheduler has checked before it. -/
inductive Move (listened : Bool) (c : Pipeline) : PipelineEvent → Pipeline → Prop
  | fire : Move listened c .fired { c with cancelled := true }
  | start (i : Nat) (hphase : c.phase = .starting i) (hi : i < action.steps.length)
      (hready : c.awaiting.getD i 0 = 0) :
      Move listened c (.spawned i (forkFor action plan c.canonical c.fanout i))
        (spawnDataflowStep action plan c i (.starting (i + 1))).2
  | skip (i : Nat) (hphase : c.phase = .starting i) (hi : i < action.steps.length)
      (hready : c.awaiting.getD i 0 ≠ 0) :
      Move listened c .passed { c with phase := .starting (i + 1) }
  | started (i : Nat) (hphase : c.phase = .starting i) (hi : action.steps.length ≤ i) :
      Move listened c .passed { c with phase := .waiting }
  | finish (hphase : c.phase = .waiting) (hrunning : c.running = []) :
      Move listened c .passed { c with phase := .ended (finishPipeline host action c) }
  | join (task : Task) (hphase : c.phase = .waiting) (htask : task ∈ c.running)
      (report : Option KernelError) (c' : Pipeline)
      (hjoin : joinTask host action listened c task =
        (.joined task (runStep host (action.stepAt task.idx) task.idx task.fork) report, c')) :
      Move listened c
        (.joined task (runStep host (action.stepAt task.idx) task.idx task.fork) report) c'
  | panic (i : Nat) (text : String) (hphase : c.phase = .waiting) :
      Move listened c (.panicked i) { c with phase := .ended (.error (panicError text)) }
  | release (i : Nat) (hphase : c.phase = .deciding i)
      (hvalue : (action.stepAt i).longRunning = false) (herror : c.firstError = none)
      (htoken : c.cancelled = false) :
      Move listened c (.released i) { c with phase := .releasing i (plan.consumersAt i) }
  | retain (i : Nat) (hphase : c.phase = .deciding i)
      (hwhy : (action.stepAt i).longRunning = true ∨ c.firstError ≠ none ∨ c.cancelled = true) :
      Move listened c .passed { c with phase := .waiting }
  | releasedAll (i : Nat) (hphase : c.phase = .releasing i []) :
      Move listened c .passed { c with phase := .waiting }
  | spawnConsumer (i j : Nat) (rest : List Nat) (hphase : c.phase = .releasing i (j :: rest))
      (hlast : c.awaiting.getD j 0 - 1 = 0) (hfresh : c.spawned.getD j false = false) :
      Move listened c (.spawned j (forkFor action plan c.canonical c.fanout j))
        (spawnDataflowStep action plan (c.countDown j) j (.releasing i rest)).2
  | passConsumer (i j : Nat) (rest : List Nat) (hphase : c.phase = .releasing i (j :: rest))
      (hwhy : c.awaiting.getD j 0 - 1 ≠ 0 ∨ c.spawned.getD j false = true) :
      Move listened c .passed { c.countDown j with phase := .releasing i rest }

theorem advance_move {listened : Bool} {c c' : Pipeline} {e : PipelineEvent}
    (h : advance host action plan c = some (e, c')) : Move host action plan listened c e c' := by
  unfold advance at h
  split at h
  · rename_i next hphase
    split at h
    · rename_i hi
      split at h
      · rename_i hready
        cases h
        exact .start next hphase hi hready
      · rename_i hready
        cases h
        exact .skip next hphase hi hready
    · rename_i hi
      cases h
      exact .started next hphase (by omega)
  · rename_i hphase
    split at h
    · rename_i hrunning
      cases h
      exact .finish hphase (List.isEmpty_iff.mp hrunning)
    · cases h
  · rename_i idx hphase
    split at h
    · rename_i hgo
      cases h
      simp only [Bool.and_eq_true, Bool.not_eq_true', Option.isNone_iff_eq_none] at hgo
      exact .release idx hphase hgo.1.1 hgo.1.2 hgo.2
    · rename_i hstay
      cases h
      refine .retain idx hphase ?_
      cases hvalue : (action.stepAt idx).longRunning with
      | true => exact Or.inl rfl
      | false =>
        cases htoken : c.cancelled with
        | true => exact Or.inr (Or.inr rfl)
        | false =>
          refine Or.inr (Or.inl fun herror => hstay ?_)
          simp [hvalue, htoken, herror]
  · rename_i idx hphase
    cases h
    exact .releasedAll idx hphase
  · rename_i idx consumer rest hphase
    unfold releaseConsumer at h
    split at h
    · rename_i hgo
      cases h
      exact .spawnConsumer idx consumer rest hphase hgo.1 hgo.2
    · rename_i hstay
      cases h
      refine .passConsumer idx consumer rest hphase ?_
      by_cases hlast : c.awaiting.getD consumer 0 - 1 = 0
      · exact Or.inr (Bool.of_not_eq_false fun hfresh => hstay ⟨hlast, hfresh⟩)
      · exact Or.inl hlast
  · cases h

theorem waitingTask_some {c : Pipeline} {idx : Nat} {task : Task}
    (h : waitingTask c idx = some task) : c.phase = .waiting ∧ task ∈ c.running := by
  unfold waitingTask at h
  split at h
  · rename_i hphase
    exact ⟨hphase, List.mem_of_find?_eq_some h⟩
  · cases h

/-- A step of the pipeline is one of the moves. -/
theorem PipelineStep.move {listened : Bool} {c c' : Pipeline} {e : PipelineEvent}
    (h : PipelineStep host action plan listened c e c') :
    Move host action plan listened c e c' := by
  obtain ⟨choice, h⟩ := h
  cases choice with
  | fire =>
    cases h
    exact .fire
  | advance => exact advance_move host action plan h
  | join idx =>
    obtain ⟨task, htask, hjoin⟩ := Option.map_eq_some_iff.mp h
    obtain ⟨hphase, hmem⟩ := waitingTask_some htask
    cases hjoin
    exact .join task hphase hmem _ _ rfl
  | panic idx text =>
    obtain ⟨task, htask, hpanic⟩ := Option.map_eq_some_iff.mp h
    obtain ⟨hphase, -⟩ := waitingTask_some htask
    cases hpanic
    exact .panic idx text hphase

end Scheduler

end Gwead
