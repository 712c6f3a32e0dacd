import Gwead.RunObeys
import Gwead.Waves

/-!
# What a run of the waves shows

The wave loop together with what its calls of `run_step` show and what its merges refuse.  The
steps of a wave that runs in parallel are listed in declaration order.
-/

namespace Gwead

open UntilStop

/-! ### One call -/

section Call

variable {host : Host} {step : StepDef} {idx : Nat} {s s' : ExecutionState}

variable (host step idx s) in
theorem runTrace_law : Law host True
    (fun ok s' => step.kind = .leaf ∧ ok = false ∧ s'.cancelled = true) (fun _ _ => False)
      (Watched.runStep host step idx) s :=
  runStepTo_law host _ (Nat.lt_succ_self _) idx s

theorem watched_runStep : Watched.runStep host step idx s =
    (runStep host step idx s, runTrace host step idx s) := by
  rw [← Watched.erase_runStep]
  rfl

theorem runTrace_ok {ok : Bool} (h : runStep host step idx s = .ok ok s') :
    Done s (step.kind = .leaf ∧ ok = false ∧ s'.cancelled = true) False s'
      (runTrace host step idx s) := by
  have hlaw := runTrace_law host step idx s
  unfold Law Traced.Ends at hlaw
  rwa [watched_runStep, h] at hlaw

theorem runTrace_error {e : KernelError} (h : runStep host step idx s = .error e s') :
    Fails host True s e (runTrace host step idx s) := by
  have hlaw := runTrace_law host step idx s
  unfold Law Traced.Ends at hlaw
  rwa [watched_runStep, h] at hlaw

theorem runTrace_obeys : Obeys s (runTrace host step idx s) := by
  cases h : runStep host step idx s with
  | ok ok s' => exact (runTrace_ok h).continues.obeys
  | error e s' => exact (runTrace_error h).obeys

end Call

section Waves

variable (host : Host) (action : Action) (plan : DagPlan)

/-- What the call of a dispatch shows. -/
def Dispatch.trace (d : Dispatch) : List RunEvent :=
  runTrace host (action.stepAt d.idx) d.idx d.before

def stepBefore (idx : Nat) (l : WaveLoop) : ExecutionState :=
  (tickState l.state).setOverrides (fanoutOverrides plan action l.fanout idx)

def sequentialEvents (idx : Nat) (l : WaveLoop) : List RunEvent :=
  if host.cancelFired l.state then []
  else runTrace host (action.stepAt idx) idx (stepBefore action plan idx l)

/-- What the merge of a task's result refuses. -/
def mergeEntryEvents (canonical task : ExecutionState) (stepId : String) : List RunEvent :=
  match task.stepResults.get? stepId with
  | some result => storeEvents canonical stepId result
  | none => []

def mergeEvents (baselineVariables : IndexMap String Value) :
    ExecutionState → List Dispatch → List RunEvent
  | _, [] => []
  | c, d :: rest =>
    mergeEntryEvents c d.after (action.stepAt d.idx).id ++
      mergeEvents baselineVariables (mergeDispatch action baselineVariables c d) rest

def parallelEvents (wave : List Nat) (l : WaveLoop) : List RunEvent :=
  if host.cancelFired l.state then []
  else
    let tasks := forkWave host action plan wave l.polled
    let shown := (tasks.map fun d => d.trace host action).flatten
    match host.waveInterrupt l.polled.state with
    | some _ => shown
    | none => shown ++ mergeEvents action l.polled.state.vars l.polled.state tasks

/-- The loop with what it has shown so far. -/
abbrev Watching := WaveLoop × List RunEvent

namespace Watched

def runSequentialStep (idx : Nat) (w : Watching) : Watching × Option Stop :=
  let (l, stop) := Gwead.runSequentialStep host action plan idx w.1
  ((l, w.2 ++ sequentialEvents host action plan idx w.1), stop)

def runParallelWave (wave : List Nat) (w : Watching) : Watching × Option Stop :=
  let (l, stop) := Gwead.runParallelWave host action plan wave w.1
  ((l, w.2 ++ parallelEvents host action plan wave w.1), stop)

def runWave (wave : List Nat) (w : Watching) : Watching × Option Stop :=
  if parallelizes action wave then runParallelWave host action plan wave w
  else UntilStop.run (runSequentialStep host action plan) wave w

def runWaves (s : ExecutionState) : Watching × Option Stop :=
  UntilStop.run (runWave host action plan) plan.waves (⟨s, [], []⟩, [])

/-- Without what it shows, the watched loop is the wave loop. -/
theorem erase_runWaves (s : ExecutionState) :
    Gwead.runWaves host action plan s =
      ((runWaves host action plan s).1.1, (runWaves host action plan s).2) := by
  have hwave : ∀ wave w, Gwead.runWave host action plan wave w.1 =
      ((runWave host action plan wave w).1.1, (runWave host action plan wave w).2) := by
    intro wave w
    unfold Gwead.runWave runWave
    split
    · rfl
    · exact UntilStop.run_project Prod.fst (fun idx w => rfl) wave w
  exact UntilStop.run_project Prod.fst hwave plan.waves ((⟨s, [], []⟩ : WaveLoop), [])

end Watched

/-! ### Merges -/

theorem mergeTaskState_moves (c t : ExecutionState) (id : String)
    (baseline : IndexMap String Value) :
    (mergeTaskState c t id baseline).task = c.task ∧
      (mergeTaskState c t id baseline).returnSignal = c.returnSignal.or t.returnSignal := by
  have hentry : Unmoved c (mergeStepEntry c t id) := by
    unfold mergeStepEntry
    dsimp only
    cases t.stepResults.get? id with
    | none => cases t.stepMetadata.get? id <;> exact ⟨rfl, rfl⟩
    | some result =>
      have hstore := Unmoved.store c id result
      cases t.stepMetadata.get? id <;> exact ⟨hstore.task, hstore.signal⟩
  have hvars := hentry.trans (Unmoved.setVariables _ (introduced baseline t))
  exact ⟨hvars.task, congrArg (·.or t.returnSignal) hvars.signal⟩

theorem mergeEntryEvents_own (c t : ExecutionState) (id : String) :
    ∀ e ∈ mergeEntryEvents c t id, e.task = c.task ∧ e.dispatches = false ∧ e.value? = none := by
  unfold mergeEntryEvents
  cases t.stepResults.get? id with
  | none => exact List.forall_mem_nil _
  | some result => exact (storeEvents_trailing c id result).1.own

theorem mergeTaskState_escaping (c t : ExecutionState) (id : String)
    (baseline : IndexMap String Value) :
    (Escaping c → Escaping (mergeTaskState c t id baseline)) ∧
      (Unstopped (mergeEntryEvents c t id) ∨ Escaping (mergeTaskState c t id baseline)) := by
  have hmerged : Escaping (mergeStepEntry c t id) → Escaping (mergeTaskState c t id baseline) :=
    fun h => Escaping.takeSignals t (c := ((mergeStepEntry c t id).setVariables
      (introduced baseline t)).keepFailure t) (h.setVariables _)
  unfold mergeEntryEvents
  cases hresult : t.stepResults.get? id with
  | none =>
    refine ⟨fun h => hmerged ?_, Or.inl unstopped_nil⟩
    unfold mergeStepEntry
    rw [hresult]
    cases t.stepMetadata.get? id <;> exact h
  | some result =>
    have hentry : Escaping (c.storeStepResult id result) → Escaping (mergeStepEntry c t id) := by
      intro h
      unfold mergeStepEntry
      rw [hresult]
      cases t.stepMetadata.get? id <;> exact h
    exact ⟨fun h => hmerged (hentry (h.store id result)),
      (storeEvents_trailing c id result).2.imp_right fun h => hmerged (hentry h)⟩

/-- What merging the tasks of a wave makes of the canonical state. -/
structure MergeLaw (c final : ExecutionState) (tasks : List Dispatch) (joinEs : List RunEvent) :
    Prop where
  task : final.task = c.task
  signal : final.returnSignal =
    tasks.foldl (fun signal d => signal.or d.after.returnSignal) c.returnSignal
  own : ∀ e ∈ joinEs, e.task = c.task ∧ e.dispatches = false ∧ e.value? = none
  refused : Unstopped joinEs ∨ Escaping final
  escaping : Escaping c → Escaping final

theorem mergeDispatch_law (baseline : IndexMap String Value) (c : ExecutionState)
    (tasks : List Dispatch) :
    MergeLaw c (tasks.foldl (mergeDispatch action baseline) c) tasks
      (mergeEvents action baseline c tasks) := by
  induction tasks generalizing c with
  | nil => exact ⟨rfl, rfl, List.forall_mem_nil _, Or.inl unstopped_nil, id⟩
  | cons d rest ih =>
    obtain ⟨htask, hsignal⟩ := mergeTaskState_moves c d.after (action.stepAt d.idx).id baseline
    obtain ⟨hkeeps, hflag⟩ := mergeTaskState_escaping c d.after (action.stepAt d.idx).id baseline
    have hrest := ih (mergeDispatch action baseline c d)
    refine ⟨hrest.task.trans htask, hrest.signal.trans ?_, List.forall_mem_append.mpr
      ⟨mergeEntryEvents_own _ _ _, ?_⟩, ?_, fun h => hrest.escaping (hkeeps h)⟩
    · rw [List.foldl_cons, mergeDispatch, hsignal]
    · rw [← show (mergeDispatch action baseline c d).task = c.task from htask]
      exact hrest.own
    · rcases hflag with hes | hmark
      · exact hrest.refused.imp_left hes.append
      · exact Or.inr (hrest.escaping hmark)

/-! ### The loop -/

section Loop

variable {host action plan}

/-- What is known of a part of the loop, by how it ended. -/
def WaveLaw (s : ExecutionState) (w : Watching) : Option Stop → Prop
  | none => Passes s w.2 w.1.state
  | some .returned => Continues s w.2 w.1.state ∧ Unstopped w.2
  | some (.failed _) => Obeys s w.2

variable {s : ExecutionState} {l : WaveLoop} {es : List RunEvent}

/-- Once the steps of a wave have run, the loop goes on unless one of them returned. -/
theorem afterSteps_law (steps : List Nat) (h : Continues s es l.state) (hes : Unstopped es) :
    WaveLaw s ((afterSteps host action plan steps l).1, es)
      (afterSteps host action plan steps l).2 := by
  unfold afterSteps
  cases hfan : installFanouts host action plan steps l with
  | error e => exact h.obeys
  | ok l' =>
    rw [← (installFanouts_ok host action plan hfan).1] at h
    unfold stopOnReturn
    by_cases hreturned : l'.state.returnSignal.isSome
    · simp only [hreturned, if_true]
      exact ⟨h, hes⟩
    · simp only [hreturned, Bool.false_eq_true, if_false]
      exact h.passes hes (by simpa using hreturned)

theorem runSequentialStep_law (idx : Nat) {w : Watching} (h : Passes s w.2 w.1.state) :
    WaveLaw s (Watched.runSequentialStep host action plan idx w).1
      (Watched.runSequentialStep host action plan idx w).2 := by
  obtain ⟨l, es⟩ := w
  unfold Watched.runSequentialStep sequentialEvents Gwead.runSequentialStep
  dsimp only at h ⊢
  by_cases hfired : host.cancelFired l.state
  · simp only [hfired, if_true, List.append_nil]
    exact h.obeys
  · simp only [hfired, Bool.false_eq_true, if_false]
    have hstart : Passes s es (stepBefore action plan idx l) := h.congr (.refl s) ⟨rfl, rfl⟩
    change Passes s es (stepBefore action plan idx l) at hstart
    rw [show (tickState l.state).setOverrides (fanoutOverrides plan action l.fanout idx) =
      stepBefore action plan idx l from rfl]
    cases hrun : runStep host (action.stepAt idx) idx (stepBefore action plan idx l) with
    | error e s' => exact hstart.then_obeys (runTrace_error hrun).obeys
    | ok ok s' =>
      have hdone := runTrace_ok hrun
      cases ok with
      | false => exact hstart.then_obeys hdone.continues.obeys
      | true =>
        have hes := hstart.unstopped.append (hdone.stopped.resolve_right fun h => nomatch h.2.1)
        exact afterSteps_law [idx] (hstart.then_continues hdone.continues) hes

/-- The signals of tasks that all ended well, merged in order. -/
theorem merged_signal {tasks : List Dispatch} (signal : Option Value)
    (h : ∀ d ∈ tasks, d.after.returnSignal = (returns (d.trace host action)).head?) :
    tasks.foldl (fun signal d => signal.or d.after.returnSignal) signal =
      signal.or (returns (tasks.map fun d => d.trace host action).flatten).head? := by
  induction tasks generalizing signal with
  | nil => exact Option.or_none.symm
  | cons d rest ih =>
    rw [List.foldl_cons, ih _ fun d hd => h d (List.mem_cons_of_mem _ hd), List.map_cons,
      List.flatten_cons, returns_append, List.head?_append, h d List.mem_cons_self, Option.or_assoc]

theorem merged_keeps {tasks : List Dispatch} {signal : Option Value} (h : signal.isSome) :
    (tasks.foldl (fun signal d => signal.or d.after.returnSignal) signal).isSome := by
  induction tasks generalizing signal with
  | nil => exact h
  | cons d rest ih => exact ih (by rw [Option.isSome_or, h]; rfl)

theorem runParallelWave_law (wave : List Nat) {w : Watching} (h : Passes s w.2 w.1.state) :
    WaveLaw s (Watched.runParallelWave host action plan wave w).1
      (Watched.runParallelWave host action plan wave w).2 := by
  obtain ⟨l, es⟩ := w
  unfold Watched.runParallelWave parallelEvents Gwead.runParallelWave
  dsimp only at h ⊢
  by_cases hfired : host.cancelFired l.state
  · simp only [hfired, if_true, List.append_nil]
    exact h.obeys
  · simp only [hfired, Bool.false_eq_true, if_false]
    have hpolled : Passes s es l.polled.state := h.congr (.refl s) ⟨rfl, rfl⟩
    generalize l.polled = p at hpolled ⊢
    generalize htasks : forkWave host action plan wave p = tasks
    have hfork : ∀ i d, tasks[i]? = some d → Unmoved d.before (p.state.fork i) ∧
        d.result = runStep host (action.stepAt d.idx) d.idx d.before := by
      intro i d hd
      rw [← htasks, forkWave, List.getElem?_mapIdx, Option.map_eq_some_iff] at hd
      obtain ⟨idx, -, rfl⟩ := hd
      exact ⟨⟨rfl, rfl⟩, rfl⟩
    have hgenuine : ∀ d ∈ tasks, d.before.returnSignal = p.state.returnSignal ∧
        d.result = runStep host (action.stepAt d.idx) d.idx d.before := fun d hd => by
      obtain ⟨i, hi⟩ := List.mem_iff_getElem?.mp hd
      exact ⟨(hfork i d hi).1.signal.symm, (hfork i d hi).2⟩
    have hshown : Obeys p.state (tasks.map fun d => d.trace host action).flatten := by
      refine obeys_forks fun i es' hi => ?_
      rw [List.getElem?_map, Option.map_eq_some_iff] at hi
      obtain ⟨d, hd, rfl⟩ := hi
      exact runTrace_obeys.congr (hfork i d hd).1
    cases hinterrupt : host.waveInterrupt p.state with
    | some interrupt => cases interrupt <;> exact hpolled.then_obeys hshown
    | none =>
      have hmerge := mergeDispatch_law action p.state.vars p.state tasks
      have hall : Obeys s (es ++ ((tasks.map fun d => d.trace host action).flatten ++
          mergeEvents action p.state.vars p.state tasks)) :=
        hpolled.then_obeys (hshown.own hmerge.own)
      unfold joinWave
      dsimp only
      cases hfind : tasks.findSome? fun d => taskError (action.stepAt d.idx) d.result with
      | some e => exact hall
      | none =>
        dsimp only
        cases hescaping : escapingViolation (mergeWave action tasks p.state) with
        | some e => exact hall
        | none =>
          have hended : ∀ d ∈ tasks, Continues d.before (d.trace host action) d.after ∧
              Unstopped (d.trace host action) := fun d hd => by
            have hnone := List.findSome?_eq_none_iff.mp hfind d hd
            rw [(hgenuine d hd).2] at hnone
            unfold Dispatch.after Dispatch.trace
            rw [(hgenuine d hd).2]
            cases hrun : runStep host (action.stepAt d.idx) d.idx d.before with
            | error e t =>
              rw [hrun] at hnone
              cases hnone
            | ok ok t =>
              rw [hrun] at hnone
              cases ok with
              | false => cases hnone
              | true => exact ⟨(runTrace_ok hrun).continues,
                  (runTrace_ok hrun).stopped.resolve_right fun h => nomatch h.2.1⟩
          have hes : Unstopped (tasks.map fun d => d.trace host action).flatten := by
            intro e he
            obtain ⟨shown, hmem, he⟩ := List.mem_flatten.mp he
            obtain ⟨d, hd, rfl⟩ := List.mem_map.mp hmem
            exact (hended d hd).2 e he
          have hcont : Continues p.state (tasks.map fun d => d.trace host action).flatten
              (mergeWave action tasks p.state) := by
            refine ⟨hshown, hmerge.task, fun hs => ?_, fun hs => ?_⟩
            · have hsignals := merged_signal p.state.returnSignal fun d hd =>
                (hended d hd).1.signal (by rw [(hgenuine d hd).1, hs])
              refine hmerge.signal.trans (hsignals.trans ?_)
              rw [hs]
              rfl
            · change (tasks.foldl _ _ : ExecutionState).returnSignal.isSome
              rw [hmerge.signal]
              exact merged_keeps hs
          have hown : Trailing (mergeWave action tasks p.state)
              (mergeEvents action p.state.vars p.state tasks) (mergeWave action tasks p.state) :=
            ⟨.refl _, by rw [hcont.task]; exact hmerge.own⟩
          have hrefused : Unstopped (mergeEvents action p.state.vars p.state tasks) :=
            hmerge.refused.resolve_right fun hmark => by
              change (escapingViolation (mergeWave action tasks p.state)).isSome at hmark
              rw [hescaping] at hmark
              cases hmark
          exact afterSteps_law wave (hpolled.then_continues (hcont.trailing hown))
            (hpolled.unstopped.append (hes.append hrefused))

theorem runWave_law (wave : List Nat) {w : Watching} (h : Passes s w.2 w.1.state) :
    WaveLaw s (Watched.runWave host action plan wave w).1
      (Watched.runWave host action plan wave w).2 := by
  unfold Watched.runWave
  split
  · exact runParallelWave_law wave h
  · exact run_ends (fun idx _ _ hw => runSequentialStep_law idx hw) h

variable (host action plan) in
/-- A whole run of the waves. -/
theorem runWaves_law (s : ExecutionState) :
    WaveLaw s (Watched.runWaves host action plan s).1 (Watched.runWaves host action plan s).2 :=
  run_ends (Q := WaveLaw s) (fun wave _ _ hw => runWave_law wave hw) (Unmoved.refl s).passes

end Loop

end Waves

end Gwead
