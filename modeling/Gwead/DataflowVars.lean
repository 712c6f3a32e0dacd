import Gwead.Dataflow

/-!
# Variables across the joins of a pipeline

A join inserts every variable of the task's state that was not there before the pipeline started,
whether the task wrote it or inherited it from the state it was forked from.
-/

namespace Gwead

open Program

section Moves

variable {host : Host} {action : Action} {plan : DagPlan} {listened : Bool}

theorem Move.baseline {c c' : Pipeline} {e : PipelineEvent}
    (h : Move host action plan listened c e c') :
    c'.baselineVariables = c.baselineVariables := by
  cases h with
  | join task _ _ report c' hjoin =>
    cases hjoin
    rfl
  | _ => rfl

/-- A running task was running before or has just been forked from the canonical state. -/
theorem Move.running {c c' : Pipeline} {e : PipelineEvent}
    (h : Move host action plan listened c e c') {t : Task} (ht : t ∈ c'.running) :
    t ∈ c.running ∨ e = .spawned t.idx t.fork ∧
      t.fork = forkFor action plan c.canonical c.fanout t.idx := by
  cases h with
  | start i hphase hi hready =>
    rcases List.mem_append.mp ht with ht | ht
    · exact Or.inl ht
    · rw [List.mem_singleton.mp ht]
      exact Or.inr ⟨rfl, rfl⟩
  | join task _ _ report c' hjoin =>
    cases hjoin
    exact Or.inl (List.mem_filter.mp ht).1
  | spawnConsumer i j rest hphase hlast hfresh =>
    rcases List.mem_append.mp ht with ht | ht
    · exact Or.inl ht
    · rw [List.mem_singleton.mp ht]
      exact Or.inr ⟨rfl, rfl⟩
  | _ => exact Or.inl ht

/-- The merge's baseline is the start's, and no running task has written when it is forked. -/
structure Forked (s : ExecutionState) (c : Pipeline) : Prop where
  baseline : c.baselineVariables = s.vars
  fresh : ∀ t ∈ c.running, t.fork.writtenVars = []

theorem Forked.move {s : ExecutionState} {c c' : Pipeline} {e : PipelineEvent}
    (h : Forked s c) (hmove : Move host action plan listened c e c') : Forked s c' := by
  refine ⟨hmove.baseline.trans h.baseline, fun t ht => ?_⟩
  rcases hmove.running ht with ht | ⟨-, hfork⟩
  · exact h.fresh t ht
  · rw [hfork]
    rfl

theorem forked_of_run {s : ExecutionState} {fanout : List (Nat × List Nat)} {cancelled : Bool}
    {es : List PipelineEvent} {c : Pipeline}
    (h : PipelineRun host action plan listened (startPipeline action plan s fanout cancelled) es c) :
    Forked s c :=
  h.invariant (P := fun _ c => Forked s c) ⟨rfl, fun _ ht => absurd ht List.not_mem_nil⟩ fun _ _ _ _ ih hstep =>
    ih.move (hstep.move host action plan)

end Moves

/-- What a merge makes of a variable. -/
theorem mergeTaskState_get? (c t : ExecutionState) (id : String) (baseline : IndexMap String Value)
    (k : String) : (mergeTaskState c t id baseline).vars.get? k =
      if baseline.contains k then c.vars.get? k else (t.vars.get? k).or (c.vars.get? k) := by
  rw [mergeTaskState_vars, get?_extend_introduced]

/-- The join leaves every variable the task did not write as the canonical state has it. -/
def KeepsUnwritten (c c' t : ExecutionState) : Prop :=
  ∀ k, k ∉ t.writtenVars → c'.vars.get? k = c.vars.get? k

/-- A variable the task inherited and did not write is still, when the task is joined, what it
was when the task was forked, unless it was there before the pipeline started. -/
def InheritedIsCurrent (baseline : IndexMap String Value) (c fork t : ExecutionState) : Prop :=
  ∀ k, k ∉ t.writtenVars → ∀ v, fork.vars.get? k = some v →
    baseline.contains k = true ∨ c.vars.get? k = some v

theorem mergeTaskState_keepsUnwritten_iff {c fork t : ExecutionState} (id : String)
    (baseline : IndexMap String Value) (hwritten : OnlyWritten fork t) :
    KeepsUnwritten c (mergeTaskState c t id baseline) t ↔ InheritedIsCurrent baseline c fork t := by
  have hget : ∀ k, k ∉ t.writtenVars → ((mergeTaskState c t id baseline).vars.get? k =
      c.vars.get? k ↔ ∀ v, fork.vars.get? k = some v →
        baseline.contains k = true ∨ c.vars.get? k = some v) := by
    intro k hk
    rw [mergeTaskState_get?, hwritten.same k hk]
    cases hb : baseline.contains k with
    | true => simp
    | false =>
      cases hf : fork.vars.get? k with
      | none => simp
      | some v => simp [eq_comm]
  exact forall_congr' fun k => forall_congr' fun hk => hget k hk

/-- A join of any run keeps the variables its task did not write exactly when none of those the
task inherited has changed since the fork. -/
theorem join_keepsUnwritten_iff {host : Host} {action : Action} {plan : DagPlan} {listened : Bool}
    {s : ExecutionState} {fanout : List (Nat × List Nat)} {cancelled : Bool}
    {es : List PipelineEvent} {c c' : Pipeline} {task : Task}
    {result : EStateM.Result KernelError ExecutionState Bool} {report : Option KernelError}
    (hrun : PipelineRun host action plan listened (startPipeline action plan s fanout cancelled) es c)
    (hjoin : PipelineStep host action plan listened c (.joined task result report) c') :
    KeepsUnwritten c.canonical c'.canonical (finalState result) ↔
      InheritedIsCurrent s.vars c.canonical task.fork (finalState result) := by
  have hforked := forked_of_run hrun
  cases hjoin.move host action plan with
  | join _ hphase htask _ _ hjoined =>
    cases hjoined
    have hwritten := runStep_onlyWritten host (action.stepAt task.idx) task.idx task.fork
    rw [← hforked.baseline]
    exact mergeTaskState_keepsUnwritten_iff _ _ hwritten

/-- `b` and `c` are forked together once `a` has bound `x`, and `b` binds it again; `c` streams. -/
def staleCopy : Action :=
  { Action.ofSteps [
      { StepDef.new "a" "let" (.object [("value", .ofNat 1)]) with storeToVariable := some "x" },
      { StepDef.new "b" "let" (.object [("value", .ofNat 2)]) with
        storeToVariable := some "x", dependsOn := ["a"] },
      { StepDef.new "c" "let" (.object [("value", .ofNat 3)]) with
        dependsOn := ["a"], longRunning := true }] with
    dataflow := true }

def stalePlan : DagPlan := ⟨[[0], [1, 2]], [[], [0], [0]], [[1, 2], [], []]⟩

/-- The pipeline of `staleCopy` before its first spawn. -/
def staleStart : Pipeline :=
  startPipeline staleCopy stalePlan
    (provisioned (quietHost Binary64.display) staleCopy stalePlan
      (.new "demo" staleCopy .null .null .null none ⟨1000000, 64⟩)) [] false

/-- The spawn of `a`, its join, the spawns of `b` and `c`, and with `rest` what follows. -/
def staleChoices (rest : List Choice) : List Choice :=
  [.advance, .advance, .advance, .advance, .join 0, .advance, .advance, .advance, .advance] ++ rest

/-- What a join shows of a variable: whether the task wrote it, whether the fork still has the
variables of the canonical state, and the variable's value before and after. -/
def observeJoin (x : String) (c c' : Pipeline) :
    PipelineEvent → Option (Bool × Bool × Option Value × Option Value)
  | .joined task result _ => some ((finalState result).writtenVars.contains x,
      decide (task.fork.vars = c.canonical.vars), c.canonical.vars.get? x,
      c'.canonical.vars.get? x)
  | _ => none

def observedJoin (choices : List Choice) (i : Nat) :
    Option (Bool × Bool × Option Value × Option Value) :=
  (drive (quietHost Binary64.display) staleCopy stalePlan true choices staleStart).bind fun r =>
    (pipelineStep (quietHost Binary64.display) staleCopy stalePlan true r.2 (.join i)).bind fun j =>
      observeJoin "x" r.2 j.2 j.1

theorem observedJoin_some {choices : List Choice} {i : Nat} {written current : Bool}
    {before after : Option Value}
    (h : observedJoin choices i = some (written, current, before, after)) :
    ∃ es c c' task result report,
      PipelineRun (quietHost Binary64.display) staleCopy stalePlan true staleStart es c ∧
      PipelineStep (quietHost Binary64.display) staleCopy stalePlan true c
        (.joined task result report) c' ∧
      (finalState result).writtenVars.contains "x" = written ∧
      decide (task.fork.vars = c.canonical.vars) = current ∧
      c.canonical.vars.get? "x" = before ∧ c'.canonical.vars.get? "x" = after := by
  obtain ⟨⟨es, c⟩, hdrive, h⟩ := Option.bind_eq_some_iff.mp h
  obtain ⟨⟨e, c'⟩, hstep, h⟩ := Option.bind_eq_some_iff.mp h
  have hrun := drive_run _ _ _ hdrive
  cases e with
  | joined task result report =>
    cases h
    exact ⟨es, c, c', task, result, report, hrun, ⟨_, hstep⟩, rfl, rfl, rfl, rfl⟩
  | _ => cases h

/-- After the join of `b` the join of `c`, which never writes `x`, puts the old value back. -/
theorem stale_copy_overwrites :
    buildPlan staleCopy = .ok stalePlan ∧
      ∃ es c c' task result report,
        PipelineRun (quietHost Binary64.display) staleCopy stalePlan true staleStart es c ∧
        PipelineStep (quietHost Binary64.display) staleCopy stalePlan true c
          (.joined task result report) c' ∧
        c.canonical.vars.get? "x" = some (.ofNat 2) ∧
        c'.canonical.vars.get? "x" = some (.ofNat 1) ∧
        ¬KeepsUnwritten c.canonical c'.canonical (finalState result) := by
  refine ⟨by decide +kernel, ?_⟩
  have hobserved : observedJoin (staleChoices [.join 1, .advance, .advance]) 2 =
      some (false, false, some (.ofNat 2), some (.ofNat 1)) := by decide +kernel
  obtain ⟨es, c, c', task, result, report, hrun, hjoin, hwritten, -, hbefore, hafter⟩ :=
    observedJoin_some hobserved
  refine ⟨es, c, c', task, result, report, hrun, hjoin, hbefore, hafter, fun hkeeps => ?_⟩
  have hsame := hkeeps "x" (by simpa using hwritten)
  rw [hbefore, hafter] at hsame
  exact absurd hsame (by decide)

/-- The join of `b`, first of the two, finds the variables it was forked with. -/
theorem first_join_keeps :
    ∃ es c c' task result report,
      PipelineRun (quietHost Binary64.display) staleCopy stalePlan true staleStart es c ∧
      PipelineStep (quietHost Binary64.display) staleCopy stalePlan true c
        (.joined task result report) c' ∧
      c.canonical.vars.get? "x" = some (.ofNat 1) ∧
      c'.canonical.vars.get? "x" = some (.ofNat 2) ∧
      KeepsUnwritten c.canonical c'.canonical (finalState result) := by
  have hobserved : observedJoin (staleChoices []) 1 =
      some (true, true, some (.ofNat 1), some (.ofNat 2)) := by decide +kernel
  obtain ⟨es, c, c', task, result, report, hrun, hjoin, -, hcurrent, hbefore, hafter⟩ :=
    observedJoin_some hobserved
  refine ⟨es, c, c', task, result, report, hrun, hjoin, hbefore, hafter, ?_⟩
  refine (join_keepsUnwritten_iff hrun hjoin).mpr fun k _ v hv => Or.inr ?_
  rwa [of_decide_eq_true hcurrent] at hv

end Gwead
