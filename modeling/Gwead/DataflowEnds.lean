import Gwead.DataflowSafety

/-!
# The dataflow scheduler ends

However its tasks finish and whenever the token is fired, the scheduler makes a bounded number of
steps.  A task may never finish: a step that reads a stream to its end and another one beside it can
wait for each other, and nothing here is said of that.  Whichever tasks do finish, the scheduler
goes on until it has ended, or has nothing but such tasks left to wait for.
-/

namespace Gwead

open Transition

/-- How many steps the scheduler has ahead of it in its present loop, `n` being the number of
steps of the action. -/
def Phase.ahead (n : Nat) : Phase → Nat
  | .starting k => (n - k) + 2
  | .waiting => 1
  | .deciding _ => n + 3
  | .releasing _ rest => rest.length + 2
  | .ended _ => 0

/-- Each step not spawned yet and each task not joined yet costs one more loop. -/
def Pipeline.ahead (n : Nat) (es : List PipelineEvent) (c : Pipeline) : Nat :=
  (n - (spawnedIdxs es).length) * (n + 3) + c.running.length * (n + 3) + c.phase.ahead n

/-- The step whose task an event shows to have finished, by an answer or by a panic. -/
def PipelineEvent.finishedIdx : PipelineEvent → Option Nat
  | .joined task _ _ => some task.idx
  | .panicked i => some i
  | _ => none

/-- A step of the pipeline, if the tasks of `Finishes` are the ones that ever finish. -/
def FinishingStep (host : Host) (action : Action) (plan : DagPlan) (listened : Bool)
    (Finishes : Nat → Prop) (c : Pipeline) (e : PipelineEvent) (c' : Pipeline) : Prop :=
  PipelineStep host action plan listened c e c' ∧ ∀ i, e.finishedIdx = some i → Finishes i

/-- The scheduler waits, and none of the tasks it waits for ever finishes. -/
def Parked (Finishes : Nat → Prop) (c : Pipeline) : Prop :=
  c.phase = .waiting ∧ c.running ≠ [] ∧ ∀ task ∈ c.running, ¬Finishes task.idx

section Ends

variable {host : Host} {action : Action} {plan : DagPlan} {listened : Bool}
  {Finishes : Nat → Prop} {s : ExecutionState} {fanout : List (Nat × List Nat)} {token : Bool}
  {es : List PipelineEvent} {c c' : Pipeline} {e : PipelineEvent}

theorem length_le_of_nodup {l : List Nat} {n : Nat} (hnodup : l.Nodup) (hlt : ∀ i ∈ l, i < n) :
    l.length ≤ n := by
  have hsub : l ⊆ List.range n := fun i hi => List.mem_range.mpr (hlt i hi)
  have hle := (hnodup.subperm hsub).length_le
  rwa [List.length_range] at hle

/-- A spawn moves a step from those to spawn to those to join. -/
theorem ahead_spawn {n k r p p' : Nat} (hk : k + 1 ≤ n) (hp : p' + 1 ≤ p) :
    (n - (k + 1)) * (n + 3) + (r + 1) * (n + 3) + p' + 1 ≤ (n - k) * (n + 3) + r * (n + 3) + p := by
  have hsplit : n - k = n - (k + 1) + 1 := by omega
  rw [hsplit, Nat.add_mul, Nat.add_mul]
  omega

theorem length_filter_lt {running : List Task} {task : Task} (h : task ∈ running) :
    (running.filter fun t => t.idx != task.idx).length + 1 ≤ running.length := by
  apply List.length_filter_lt_length_iff_exists.mpr
  exact ⟨task, h, by simp⟩

/-- A step that spawns nothing costs a step of the loop under way or ends a loop. -/
theorem ahead_unspawned {n : Nat} (hspawned : e.spawnedIdx = none) (hfired : e.isFired = false)
    (h : c'.running.length * (n + 3) + c'.phase.ahead n + 1 ≤
      c.running.length * (n + 3) + c.phase.ahead n) :
    c'.ahead n (es ++ [e]) + (if !e.isFired then 1 else 0) ≤ c.ahead n es := by
  rw [Pipeline.ahead, Pipeline.ahead, spawnedIdxs_snoc, hspawned, hfired, Option.toList_none,
    List.append_nil, Bool.not_false, if_pos rfl]
  omega

/-- A step that keeps the tasks and comes nearer to the end of its loop. -/
theorem ahead_phase {n : Nat} (hspawned : e.spawnedIdx = none) (hfired : e.isFired = false)
    (hrunning : c'.running = c.running) (h : c'.phase.ahead n + 1 ≤ c.phase.ahead n) :
    c'.ahead n (es ++ [e]) + (if !e.isFired then 1 else 0) ≤ c.ahead n es := by
  apply ahead_unspawned hspawned hfired
  rw [hrunning]
  omega

/-- A step that spawns one and comes nearer to the end of its loop. -/
theorem ahead_spawned {n i : Nat} (hbound : (spawnedIdxs (es ++ [e])).length ≤ n)
    (hspawned : e.spawnedIdx = some i) (hfired : e.isFired = false)
    (hrunning : c'.running.length = c.running.length + 1)
    (h : c'.phase.ahead n + 1 ≤ c.phase.ahead n) :
    c'.ahead n (es ++ [e]) + (if !e.isFired then 1 else 0) ≤ c.ahead n es := by
  rw [spawnedIdxs_snoc, hspawned, Option.toList_some, List.length_append,
    List.length_singleton] at hbound
  rw [Pipeline.ahead, Pipeline.ahead, spawnedIdxs_snoc, hspawned, hfired, hrunning,
    Option.toList_some, List.length_append, List.length_singleton, Bool.not_false, if_pos rfl]
  exact ahead_spawn hbound h

/-- Every step of a pipeline but the firing of its token brings it nearer to the end. -/
theorem Scheduled.ahead_move
    (h' : Scheduled host action plan s fanout token (es ++ [e]) c')
    (hmove : Move host action plan listened c e c') :
    c'.ahead action.steps.length (es ++ [e]) + (if !e.isFired then 1 else 0) ≤
      c.ahead action.steps.length es := by
  have hspawned : (spawnedIdxs (es ++ [e])).length ≤ action.steps.length :=
    length_le_of_nodup h'.spawned.booked.once h'.spawned.booked.bound
  cases hmove with
  | fire =>
    have hsame : spawnedIdxs (es ++ [.fired]) = spawnedIdxs es := by
      rw [spawnedIdxs_snoc]
      exact List.append_nil _
    rw [Pipeline.ahead, Pipeline.ahead, hsame]
    exact le_refl _
  | start i hphase hi hready =>
    refine ahead_spawned hspawned rfl rfl (by rw [spawnDataflowStep, List.length_append]; rfl) ?_
    rw [hphase, spawnDataflowStep]
    simp only [Phase.ahead]
    omega
  | skip i hphase hi hready =>
    refine ahead_phase rfl rfl rfl ?_
    rw [hphase]
    simp only [Phase.ahead]
    omega
  | started i hphase hi =>
    refine ahead_phase rfl rfl rfl ?_
    rw [hphase]
    simp only [Phase.ahead]
    omega
  | finish hphase hrunning =>
    refine ahead_phase rfl rfl rfl ?_
    rw [hphase]
    exact le_refl 1
  | join task hphase htask report c' hjoin =>
    cases hjoin
    refine ahead_unspawned rfl rfl ?_
    rw [hphase]
    have hfewer := length_filter_lt htask
    have hmul := Nat.mul_le_mul_right (action.steps.length + 3) hfewer
    rw [Nat.add_mul] at hmul
    simp only [Phase.ahead]
    omega
  | panic i text hphase =>
    refine ahead_phase rfl rfl rfl ?_
    rw [hphase]
    exact le_refl 1
  | release i hphase hvalue herror htoken =>
    obtain ⟨-, -, hnodup, hconsumers⟩ := h'.released.releasing i (plan.consumersAt i) rfl
    have hfew := length_le_of_nodup hnodup fun j hj => (hconsumers j hj).1
    refine ahead_phase rfl rfl rfl ?_
    rw [hphase]
    simp only [Phase.ahead]
    omega
  | retain i hphase hwhy =>
    refine ahead_phase rfl rfl rfl ?_
    rw [hphase]
    simp only [Phase.ahead]
    omega
  | releasedAll i hphase =>
    refine ahead_phase rfl rfl rfl ?_
    rw [hphase]
    exact le_refl 2
  | spawnConsumer i j rest hphase hlast hfresh =>
    refine ahead_spawned hspawned rfl rfl (by rw [spawnDataflowStep, List.length_append]; rfl) ?_
    rw [hphase, spawnDataflowStep]
    simp only [Phase.ahead, List.length_cons]
    omega
  | passConsumer i j rest hphase hwhy =>
    refine ahead_phase rfl rfl rfl ?_
    rw [hphase]
    simp only [Phase.ahead, List.length_cons]
    omega

theorem advance_finishedIdx (h : advance host action plan c = some (e, c')) :
    e.finishedIdx = none := by
  unfold advance releaseConsumer spawnDataflowStep at h
  split at h
  all_goals try split at h
  all_goals try split at h
  all_goals cases h
  all_goals rfl

theorem waitingTask_idx {task : Task} {i : Nat} (h : waitingTask c i = some task) :
    task.idx = i := by
  unfold waitingTask at h
  split at h
  · have hfound := List.find?_some h
    exact beq_iff_eq.mp hfound
  · cases h

/-- Until a pipeline has ended or is parked there is something to do that is not the firing of its
token. -/
theorem goes_on (c : Pipeline) (hrun : ∀ outcome, c.phase ≠ .ended outcome)
    (hparked : ¬Parked Finishes c) :
    ∃ e c', (!e.isFired) = true ∧ FinishingStep host action plan listened Finishes c e c' := by
  have hadvance : ∀ {e : PipelineEvent} {c' : Pipeline}, advance host action plan c = some (e, c') →
      ∃ e c', (!e.isFired) = true ∧ FinishingStep host action plan listened Finishes c e c' := by
    intro e c' h
    refine ⟨e, c', ?_, ⟨.advance, h⟩, fun i hi => ?_⟩
    · have hne := advance_ne_fired h
      cases e with
      | fired => exact absurd rfl hne
      | _ => rfl
    · rw [advance_finishedIdx h] at hi
      cases hi
  cases hphase : c.phase with
  | starting next =>
    by_cases hnext : next < action.steps.length
    · by_cases hready : c.awaiting.getD next 0 = 0
      · exact hadvance (by rw [advance, hphase]; exact (if_pos hnext).trans (if_pos hready))
      · exact hadvance (by rw [advance, hphase]; exact (if_pos hnext).trans (if_neg hready))
    · exact hadvance (by rw [advance, hphase]; exact if_neg hnext)
  | waiting =>
    by_cases hrunning : c.running = []
    · exact hadvance (by rw [advance, hphase, hrunning]; rfl)
    · -- some task that it waits for finishes, and is joined
      have hsome : ∃ task ∈ c.running, Finishes task.idx := by
        by_contra hnone
        exact hparked ⟨hphase, hrunning, fun task htask hfinishes => hnone ⟨task, htask, hfinishes⟩⟩
      obtain ⟨task, htask, hfinishes⟩ := hsome
      have hfound : (c.running.find? fun t => t.idx == task.idx).isSome :=
        List.find?_isSome.mpr ⟨task, htask, beq_self_eq_true _⟩
      obtain ⟨joined, hjoined⟩ := Option.isSome_iff_exists.mp hfound
      have hwaiting : waitingTask c task.idx = some joined := by rw [waitingTask, hphase, hjoined]
      have hjoin : pipelineStep host action plan listened c (.join task.idx) =
          some (joinTask host action listened c joined) := by
        rw [pipelineStep, hwaiting, Option.map_some]
      refine ⟨_, _, rfl, ⟨.join task.idx, hjoin⟩, fun i hi => ?_⟩
      cases hi
      rwa [waitingTask_idx hwaiting]
  | deciding idx =>
    by_cases hgo : (!(action.stepAt idx).longRunning && c.firstError.isNone && !c.cancelled) = true
    · exact hadvance (by rw [advance, hphase]; exact if_pos hgo)
    · exact hadvance (by rw [advance, hphase]; exact if_neg hgo)
  | releasing idx rest =>
    cases rest with
    | nil => exact hadvance (by rw [advance, hphase])
    | cons consumer rest => exact hadvance (by rw [advance, hphase])
  | ended outcome => exact absurd hphase (hrun outcome)

/-- A parked pipeline stays parked, whoever fires its token. -/
theorem parked_stays (hparked : Parked Finishes c)
    (hstep : FinishingStep host action plan listened Finishes c e c') :
    e = .fired ∧ Parked Finishes c' := by
  obtain ⟨hphase, hrunning, hnone⟩ := hparked
  have hwaiting : ∀ {i : Nat} {task : Task}, waitingTask c i = some task → ¬Finishes i := by
    intro i task htask
    rw [← waitingTask_idx htask]
    exact hnone task (waitingTask_some htask).2
  obtain ⟨⟨choice, hchoice⟩, hfinishes⟩ := hstep
  cases choice with
  | fire =>
    cases hchoice
    exact ⟨rfl, hphase, hrunning, hnone⟩
  | advance =>
    rw [pipelineStep, advance, hphase] at hchoice
    dsimp only at hchoice
    rw [if_neg (by simpa using hrunning)] at hchoice
    cases hchoice
  | join i =>
    obtain ⟨task, htask, hjoin⟩ := Option.map_eq_some_iff.mp hchoice
    cases hjoin
    exact absurd (hfinishes task.idx rfl) (hnone task (waitingTask_some htask).2)
  | panic i text =>
    obtain ⟨task, htask, hpanic⟩ := Option.map_eq_some_iff.mp hchoice
    cases hpanic
    exact absurd (hfinishes i rfl) (hwaiting htask)

/-- A pipeline that has ended stays as it ended. -/
theorem ended_stays {outcome : Except KernelError ActionResult} (hended : c.phase = .ended outcome)
    (hstep : PipelineStep host action plan listened c e c') :
    e = .fired ∧ c'.phase = .ended outcome := by
  cases hstep.move host action plan with
  | fire => exact ⟨rfl, hended⟩
  | _ => simp_all

/-- In a run that has ended, nothing but firings of the token follows. -/
theorem ended_run {outcome : Except KernelError ActionResult} (hended : c.phase = .ended outcome)
    {es' : List PipelineEvent} (hrun : PipelineRun host action plan listened c es' c') :
    (∀ e ∈ es', e = .fired) ∧ c'.phase = .ended outcome := by
  induction hrun with
  | nil => exact ⟨fun e he => absurd he List.not_mem_nil, hended⟩
  | snoc hrun hstep ih =>
    obtain ⟨hfired, hphase⟩ := ended_stays ih.2 hstep
    refine ⟨fun e he => ?_, hphase⟩
    rcases List.mem_append.mp he with he | he
    · exact ih.1 e he
    · rw [List.mem_singleton.mp he, hfired]

/-- What a pipeline can still do, wherever a run has brought it, if the tasks of `Finishes` are the
ones that ever finish. -/
structure ComesToAnEnd (host : Host) (action : Action) (plan : DagPlan) (listened : Bool)
    (Finishes : Nat → Prop) (es : List PipelineEvent) (c : Pipeline) : Prop where
  /-- Nothing the tasks do makes the scheduler go round for ever. -/
  bounded : es.countP (fun e => !e.isFired) ≤ action.steps.length * (action.steps.length + 4) + 2
  /-- It has ended, or waits for nothing but tasks that never finish, or goes on. -/
  goesOn : (∃ outcome, c.phase = .ended outcome) ∨ Parked Finishes c ∨
    ∃ e c', e.isFired = false ∧ FinishingStep host action plan listened Finishes c e c'
  /-- From anywhere it can be brought to where it ends or parks, though the token be never fired
  again. -/
  settles : ∃ es' c',
    Run (FinishingStep host action plan listened Finishes) c es' c' ∧
      (∀ e ∈ es', e.isFired = false) ∧
      ((∃ outcome, c'.phase = .ended outcome) ∨ Parked Finishes c')
  /-- While no task that finishes is left, nothing but the token moves. -/
  parked : Parked Finishes c → ∀ es' c',
    Run (FinishingStep host action plan listened Finishes) c es' c' →
      (∀ e ∈ es', e = .fired) ∧ Parked Finishes c'
  /-- Once it has answered, the answer stands and no task is started or joined. -/
  stays : ∀ outcome, c.phase = .ended outcome →
    ∀ es' c', PipelineRun host action plan listened c es' c' →
      (∀ e ∈ es', e = .fired) ∧ c'.phase = .ended outcome

/-- In a parked run, nothing but firings of the token follows. -/
theorem parked_run (hparked : Parked Finishes c) {es' : List PipelineEvent}
    (hrun : Run (FinishingStep host action plan listened Finishes) c es' c') :
    (∀ e ∈ es', e = .fired) ∧ Parked Finishes c' := by
  induction hrun with
  | nil => exact ⟨fun e he => absurd he List.not_mem_nil, hparked⟩
  | snoc hrun hstep ih =>
    obtain ⟨hfired, hstill⟩ := parked_stays ih.2 hstep
    refine ⟨fun e he => ?_, hstill⟩
    rcases List.mem_append.mp he with he | he
    · exact ih.1 e he
    · rw [List.mem_singleton.mp he, hfired]

end Ends

/-- However its tasks answer, whichever of them ever do, and whenever the token is fired, a dataflow
pipeline makes a bounded number of steps, and goes on until it has ended or is parked. -/
theorem pipeline_ends {host : Host} {action : Action} {plan : DagPlan}
    (hplan : buildPlan action = .ok plan) {listened : Bool} {s : ExecutionState}
    {fanout : List (Nat × List Nat)} {token : Bool} {es : List PipelineEvent} {c : Pipeline}
    (hrun : PipelineRun host action plan listened (startPipeline action plan s fanout token) es c)
    (Finishes : Nat → Prop) : ComesToAnEnd host action plan listened Finishes es c := by
  have hvalid := buildPlan_valid hplan
  have hkeep : ∀ es t e u, Scheduled host action plan s fanout token es t →
      PipelineStep host action plan listened t e u →
        Scheduled host action plan s fanout token (es ++ [e]) u :=
    fun es t e u h hstep => h.step hvalid hstep
  have hdown : ∀ es t e u, Scheduled host action plan s fanout token es t →
      PipelineStep host action plan listened t e u →
        Pipeline.ahead action.steps.length (es ++ [e]) u + (if !e.isFired then 1 else 0) ≤
          Pipeline.ahead action.steps.length es t :=
    fun es t e u h hstep => (h.step hvalid hstep).ahead_move (hstep.move host action plan)
  refine ⟨?_, ?_, ?_, fun hparked es' c' hrun' => parked_run hparked hrun',
    fun outcome hended es' c' hrun' => ended_run hended hrun'⟩
  · have hle := Transition.Run.countP_le (scheduled_start host) hkeep hdown hrun
    have hmul : action.steps.length * (action.steps.length + 4) =
        action.steps.length * (action.steps.length + 3) + action.steps.length := by
      rw [Nat.mul_add, Nat.mul_add]
      omega
    simp only [Pipeline.ahead, startPipeline, Phase.ahead, spawnedIdxs, List.filterMap_nil,
      List.length_nil, Nat.zero_mul, Nat.sub_zero] at hle
    omega
  · by_cases hended : ∃ outcome, c.phase = .ended outcome
    · exact Or.inl hended
    · by_cases hparked : Parked Finishes c
      · exact Or.inr (Or.inl hparked)
      · have hgo : ∃ e c', (!e.isFired) = true ∧
            FinishingStep host action plan listened Finishes c e c' :=
          goes_on c (fun outcome h => hended ⟨outcome, h⟩) hparked
        obtain ⟨e, c', hfired, hstep⟩ := hgo
        exact Or.inr (Or.inr ⟨e, c', by simpa using hfired, hstep⟩)
  · obtain ⟨es', c', hrun', hall, hsettled⟩ :=
      Transition.Run.reaches_end
        (Q := fun c => (∃ outcome, c.phase = .ended outcome) ∨ Parked Finishes c)
        (fun es t e u h hstep => hkeep es t e u h hstep.1)
        (fun es t e u h hstep => hdown es t e u h hstep.1)
        (fun es t _ hnot => goes_on t (fun outcome h => hnot (Or.inl ⟨outcome, h⟩))
          fun hparked => hnot (Or.inr hparked))
        es (scheduled_of_run hvalid hrun)
    exact ⟨es', c', hrun', fun e he => by simpa using hall e he, hsettled⟩

/-- The scheduler waits for the tasks of these steps. -/
def waitsFor (c : Pipeline) (idxs : List Nat) : Bool :=
  match c.phase with
  | .waiting => c.running.map (·.idx) == idxs
  | _ => false

/-- Where the long-running step of `staleCopy` never finishes, the pipeline parks on it. -/
theorem pipeline_ends_staleCopy : ∃ es c,
    PipelineRun (quietHost Binary64.display) staleCopy stalePlan true staleStart es c ∧
      Parked (· ≠ 2) c ∧
      ComesToAnEnd (quietHost Binary64.display) staleCopy stalePlan true (· ≠ 2) es c := by
  have hplan : buildPlan staleCopy = .ok stalePlan := by decide +kernel
  have hparks : (drive (quietHost Binary64.display) staleCopy stalePlan true
      (staleChoices [.join 1, .advance, .advance]) staleStart).any
        (fun r => waitsFor r.2 [2]) = true := by decide +kernel
  obtain ⟨⟨es, c⟩, hdrive, hwaits⟩ := (Option.any_eq_true _ _).mp hparks
  have hrun := drive_run _ _ _ hdrive
  refine ⟨es, c, hrun, ?_, pipeline_ends hplan hrun (· ≠ 2)⟩
  unfold waitsFor at hwaits
  split at hwaits
  · rename_i hphase
    have hidxs : c.running.map (·.idx) = [2] := beq_iff_eq.mp hwaits
    refine ⟨hphase, fun hnil => ?_, fun task htask hne => ?_⟩
    · rw [hnil] at hidxs
      cases hidxs
    · have hidx : task.idx ∈ [2] := hidxs ▸ List.mem_map_of_mem htask
      exact hne (List.mem_singleton.mp hidx)
  · cases hwaits

end Gwead
