import Gwead.DagPlan
import Gwead.Lib.UntilStop
import Gwead.RunDepth

/-!
# The wave scheduler

`execute_dag` for actions that are not dataflow actions: the waves of the plan one after the
other, the steps of a wave in declaration order or, when the wave allows it, each on its own fork
of the state.  `dispatched` keeps every call of `run_step`, in the order the calls are made.
-/

namespace Gwead

/-- A call of `run_step`: the step, the state it is called on, and how it ends. -/
structure Dispatch where
  idx : Nat
  forked : Bool
  before : ExecutionState
  result : EStateM.Result KernelError ExecutionState Bool

/-- The state the call ends in. -/
def Dispatch.after (d : Dispatch) : ExecutionState := Program.finalState d.result

structure WaveLoop where
  state : ExecutionState
  fanout : List (Nat × List Nat)
  dispatched : List Dispatch

/-- Why the wave loop ends before the last wave. -/
inductive Stop where
  | returned
  | failed (error : KernelError)

def DagPlan.consumersAt (plan : DagPlan) (idx : Nat) : List Nat := plan.consumers.getD idx []

/-- The branch handles a step sees in place of its producers' handles. -/
def fanoutOverrides (plan : DagPlan) (action : Action) (fanout : List (Nat × List Nat))
    (idx : Nat) : List (String × Nat) :=
  (plan.depsOf idx).filterMap fun dep =>
    (fanout.lookup dep).bind fun branches =>
      ((plan.consumersAt dep).idxOf? idx).bind fun pos =>
        branches[pos]?.map fun branch => ((action.stepAt dep).id, branch)

def ExecutionState.setOverrides (s : ExecutionState) (overrides : List (String × Nat)) :
    ExecutionState :=
  { s with activeFanoutOverrides := overrides }

/-- A stored result that can be a stream handle. -/
def streamHandle : Option Value → Option Nat
  | some (.number (.posInt n _)) => if 0 < n ∧ n < 2 ^ 32 then some n else none
  | _ => none

section Scheduler

variable (host : Host) (action : Action) (plan : DagPlan)

/-- Split a step's result into one branch for each consumer if it is an open readable that has
more than one. -/
def maybeInstallFanout (idx : Nat) (l : WaveLoop) : Except KernelError WaveLoop :=
  let consumers := plan.consumersAt idx
  let id := (action.stepAt idx).id
  if consumers.length < 2 then .ok l
  else
    match streamHandle (l.state.stepResults.get? id) with
    | none => .ok l
    | some handle =>
      if host.readableOpen l.state handle then
        match host.fanOut l.state handle consumers.length with
        | .ok branches => .ok { l with fanout := AssocMap.put idx branches l.fanout }
        | .error e =>
          .error (.execution ("Internal: stream fan-out setup failed for step '" ++ id ++
            "': " ++ e))
      else .ok l

def installFanouts : List Nat → WaveLoop → Except KernelError WaveLoop
  | [], l => .ok l
  | idx :: rest, l => do
    let l ← maybeInstallFanout host action plan idx l
    installFanouts rest l

def tickState (s : ExecutionState) : ExecutionState := { s with clock := s.clock + 1 }

def WaveLoop.polled (l : WaveLoop) : WaveLoop := { l with state := tickState l.state }

def stopOnReturn (l : WaveLoop) : WaveLoop × Option Stop :=
  (l, if l.state.returnSignal.isSome then some .returned else none)

/-- Install fan-outs, then see whether a return is under way. -/
def afterSteps (steps : List Nat) (l : WaveLoop) : WaveLoop × Option Stop :=
  match installFanouts host action plan steps l with
  | .error e => (l, some (.failed e))
  | .ok l' => stopOnReturn l'

theorem installFanouts_ok {steps : List Nat} {l l' : WaveLoop}
    (h : installFanouts host action plan steps l = .ok l') :
    l'.state = l.state ∧ l'.dispatched = l.dispatched := by
  induction steps generalizing l with
  | nil =>
    cases h
    exact ⟨rfl, rfl⟩
  | cons idx rest ih =>
    rw [installFanouts] at h
    cases hone : maybeInstallFanout host action plan idx l with
    | error e =>
      rw [hone] at h
      cases h
    | ok m =>
      rw [hone] at h
      obtain ⟨hstate, hdispatched⟩ := ih h
      have hm : m.state = l.state ∧ m.dispatched = l.dispatched := by
        unfold maybeInstallFanout at hone
        dsimp only at hone
        split at hone
        · cases hone
          exact ⟨rfl, rfl⟩
        · split at hone
          · cases hone
            exact ⟨rfl, rfl⟩
          · split at hone
            · split at hone
              · cases hone
                exact ⟨rfl, rfl⟩
              · cases hone
            · cases hone
              exact ⟨rfl, rfl⟩
      exact ⟨hstate.trans hm.1, hdispatched.trans hm.2⟩

/-- Installing fan-outs changes neither the state nor the record of calls. -/
theorem afterSteps_eq (steps : List Nat) (l : WaveLoop) :
    (afterSteps host action plan steps l).1.state = l.state ∧
      (afterSteps host action plan steps l).1.dispatched = l.dispatched := by
  unfold afterSteps
  split
  · exact ⟨rfl, rfl⟩
  · rename_i l' h
    exact installFanouts_ok host action plan h

/-- Run one step of a sequential wave on the state itself. -/
def runSequentialStep (idx : Nat) (l : WaveLoop) : WaveLoop × Option Stop :=
  let step := action.stepAt idx
  if host.cancelFired l.state then
    (l.polled, some (.failed (.cancelled step.id)))
  else
    let before := (tickState l.state).setOverrides (fanoutOverrides plan action l.fanout idx)
    let result := runStep host step idx before
    let l := { l with
      state := Program.finalState result
      dispatched := l.dispatched ++ [⟨idx, false, before, result⟩] }
    match result with
    | .error e _ => (l, some (.failed e))
    | .ok false s => (l, some (.failed (stepFailureToError s step)))
    | .ok true _ => afterSteps host action plan [idx] l

/-- Merge the result and the metadata of a task's one step. -/
def mergeStepEntry (canonical task : ExecutionState) (stepId : String) : ExecutionState :=
  let c := match task.stepResults.get? stepId with
    | some result => canonical.storeStepResult stepId result
    | none => canonical
  match task.stepMetadata.get? stepId with
  | some metadata => { c with stepMetadata := c.stepMetadata.insert stepId metadata }
  | none => c

/-- Failure messages already there stay. -/
def ExecutionState.keepFailure (c task : ExecutionState) : ExecutionState :=
  { c with
    lastError := c.lastError.or task.lastError
    pluginError := c.pluginError.or task.pluginError }

/-- Merge what a task wrote for its one step, its new variables, failure markers and signals. -/
def mergeTaskState (canonical task : ExecutionState) (stepId : String)
    (baselineVariables : IndexMap String Value) : ExecutionState :=
  let c := (mergeStepEntry canonical task stepId).setVariables (introduced baselineVariables task)
  (c.keepFailure task).takeSignals task

/-- A merge adds the task's new variables and leaves every other variable alone. -/
theorem mergeTaskState_vars (c t : ExecutionState) (id : String)
    (baseline : IndexMap String Value) :
    (mergeTaskState c t id baseline).vars = c.vars.extend (introduced baseline t) := by
  have hentry : (mergeStepEntry c t id).vars = c.vars := by
    unfold mergeStepEntry
    dsimp only
    cases t.stepMetadata.get? id <;> cases t.stepResults.get? id <;>
      simp only [ExecutionState.vars_storeStepResult]
  have hset := (mergeStepEntry c t id).vars_setVariables (introduced baseline t)
  rw [hentry] at hset
  exact hset

/-- A merge takes over a variable that was not there when the task was forked. -/
theorem get?_extend_introduced (m : IndexMap String Value) (t : ExecutionState)
    (baseline : IndexMap String Value) (k : String) :
    (m.extend (introduced baseline t)).get? k =
      if baseline.contains k then m.get? k else (t.vars.get? k).or (m.get? k) := by
  have hnodup : ((introduced baseline t).map Prod.fst).Nodup :=
    t.vars.nodup.sublist (List.filter_sublist.map Prod.fst)
  cases hb : baseline.contains k with
  | true =>
    rw [if_pos rfl]
    apply IndexMap.get?_extend_of_notMem
    rintro e he rfl
    have hnot := (List.mem_filter.mp he).2
    rw [hb] at hnot
    cases hnot
  | false =>
    rw [if_neg Bool.false_ne_true]
    cases ht : t.vars.get? k with
    | some v =>
      have hmem : (k, v) ∈ introduced baseline t :=
        List.mem_filter.mpr ⟨(t.vars.mem_entries_iff k v).mpr ht, by simp [hb]⟩
      exact IndexMap.get?_extend_of_mem _ hnodup hmem
    | none =>
      apply IndexMap.get?_extend_of_notMem
      rintro ⟨k', v⟩ he rfl
      have hmem := (t.vars.mem_entries_iff k' v).mp (List.mem_filter.mp he).1
      rw [ht] at hmem
      cases hmem

theorem Preserved.mergeStepEntry {R : ExecutionState → ExecutionState → Prop} (h : Preserved R)
    (c t : ExecutionState) (id : String) : R c (Gwead.mergeStepEntry c t id) := by
  have hresult : R c (match t.stepResults.get? id with
      | some result => c.storeStepResult id result
      | none => c) := by
    split
    · exact h.store c id _
    · exact h.refl c
  unfold Gwead.mergeStepEntry
  dsimp only
  split
  · exact h.trans _ _ _ hresult (h.metadata _ _)
  · exact hresult

theorem Preserved.mergeTaskState {R : ExecutionState → ExecutionState → Prop} (h : Preserved R)
    (c t : ExecutionState) (id : String) (baseline : IndexMap String Value) :
    R c (Gwead.mergeTaskState c t id baseline) := by
  have hentry := h.trans _ _ _ (h.mergeStepEntry c t id)
    (h.setVariables _ (introduced baseline t))
  have hkeep : ∀ s : ExecutionState, R s (s.keepFailure t) := fun s => h.marks s _ _ _ _
  exact h.trans _ _ _ hentry (h.trans _ _ _ (hkeep _) (h.takeSignals _ t))

/-- What a task of a wave reports. -/
def taskError (step : StepDef) : EStateM.Result KernelError ExecutionState Bool → Option KernelError
  | .error e _ => some e
  | .ok true _ => none
  | .ok false s => some (stepFailureToError s step)

/-- The tasks of a wave, each on its own fork. -/
def forkWave (wave : List Nat) (l : WaveLoop) : List Dispatch :=
  wave.mapIdx fun slot idx =>
    let before := (l.state.fork slot).setOverrides (fanoutOverrides plan action l.fanout idx)
    ⟨idx, true, before, runStep host (action.stepAt idx) idx before⟩

def mergeDispatch (baselineVariables : IndexMap String Value) (c : ExecutionState) (d : Dispatch) :
    ExecutionState :=
  mergeTaskState c d.after (action.stepAt d.idx).id baselineVariables

def mergeWave (tasks : List Dispatch) (s : ExecutionState) : ExecutionState :=
  tasks.foldl (mergeDispatch action s.vars) s

theorem Preserved.mergeWave {R : ExecutionState → ExecutionState → Prop} (h : Preserved R)
    (tasks : List Dispatch) (s : ExecutionState) : R s (Gwead.mergeWave action tasks s) := by
  unfold Gwead.mergeWave
  generalize s.vars = baseline
  induction tasks generalizing s with
  | nil => exact h.refl s
  | cons d rest ih => exact h.trans _ _ _ (h.mergeTaskState s _ _ _) (ih _)

def firstId (wave : List Nat) : String :=
  match wave with
  | [] => ""
  | idx :: _ => (action.stepAt idx).id

/-- Merge the tasks in declaration order, whichever finished first, then raise the first error. -/
def joinWave (wave : List Nat) (tasks : List Dispatch) (l : WaveLoop) : WaveLoop × Option Stop :=
  let l := { l with state := mergeWave action tasks l.state }
  match tasks.findSome? fun d => taskError (action.stepAt d.idx) d.result with
  | some e => (l, some (.failed e))
  | none =>
    match escapingViolation l.state with
    | some e => (l, some (.failed e))
    | none => afterSteps host action plan wave l

/-- Run the steps of a wave on forks of the state. -/
def runParallelWave (wave : List Nat) (l : WaveLoop) : WaveLoop × Option Stop :=
  let polled := l.polled
  if host.cancelFired l.state then (polled, some (.failed (.cancelled (firstId action wave))))
  else
    let tasks := forkWave host action plan wave polled
    let spawned := { polled with dispatched := polled.dispatched ++ tasks }
    match host.waveInterrupt polled.state with
    | some .cancelled => (spawned, some (.failed (.cancelled (firstId action wave))))
    | some (.join failure) => (spawned, some (.failed (joinError "Parallel wave task" failure)))
    | none => joinWave host action plan wave tasks spawned

/-- Whether `\{\{\s*vars\.` or `\$vars\.` matches at the head. -/
def varsRefAt (cs : List Char) : Bool :=
  match cs with
  | '{' :: '{' :: rest =>
    (afterPrefix ['v', 'a', 'r', 's', '.'] (rest.dropWhile isWhiteSpace)).isSome
  | _ => (afterPrefix ['$', 'v', 'a', 'r', 's', '.'] cs).isSome

def paramsReferencesVars (v : Value) : Bool :=
  anyString (fun s => matchesSomewhere varsRefAt s.toList) v

def stepRequiresSequential (step : StepDef) : Bool :=
  step.storeToVariable.isSome || ["for_each", "repeat", "ifs"].contains step.stepType ||
    paramsReferencesVars step.params

/-- Whether a step of the wave has side effects the plan does not track. -/
def waveRequiresSequential (wave : List Nat) : Bool :=
  wave.any fun idx => stepRequiresSequential (action.stepAt idx)

def parallelizes (wave : List Nat) : Bool :=
  decide (1 < wave.length) && action.parallelWaves && !waveRequiresSequential action wave

def runWave (wave : List Nat) (l : WaveLoop) : WaveLoop × Option Stop :=
  if parallelizes action wave then runParallelWave host action plan wave l
  else UntilStop.run (runSequentialStep host action plan) wave l

def runWaves (s : ExecutionState) : WaveLoop × Option Stop :=
  UntilStop.run (runWave host action plan) plan.waves ⟨s, [], []⟩

end Scheduler

structure ActionResult where
  output : Value
  vars : IndexMap String Value
  stepResults : IndexMap String Value

/-- What a completed action hands back: a return's value wins over the output rule. -/
def actionResult (floatText : Binary64 → String) (s : ExecutionState) : ActionResult where
  output := s.returnSignal.getD (s.collectOutput floatText)
  vars := s.vars
  stepResults := s.stepResults

/-- Run an action that is not a dataflow action. -/
def executeDag (host : Host) (pluginName : String) (action : Action) (plan : DagPlan)
    (input config secrets : Value) (trigger : Option Value) (limits : RuntimeLimits) :
    Except KernelError ActionResult :=
  match runWaves host action plan (.new pluginName action input config secrets trigger limits) with
  | (_, some (.failed e)) => .error e
  | (l, _) => .ok (actionResult host.floatText l.state)

end Gwead
