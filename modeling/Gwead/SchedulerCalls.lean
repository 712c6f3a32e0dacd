import Gwead.RunReached

/-!
# The calls of the schedulers

The calls of `run_step` in a run of an action: those the wave loop and the dataflow scheduler make,
and those made below them.  What the wave loop keeps between its calls is stated once.
-/

namespace Gwead

open Program

section Calls

variable (host : Host) (action : Action) (plan : DagPlan)

/-- A call of `run_step` in a run of an action from a state; the mark says whether it is inside a
`finally` that runs with a failure pending. -/
inductive RunCalls (start : ExecutionState) : Bool → StepDef → Nat → ExecutionState → Prop
  | wave {d : Dispatch} {pending : Bool} {step : StepDef} {idx : Nat} {before : ExecutionState}
      (hd : d ∈ (runWaves host action plan start).1.dispatched)
      (h : Reaches host ((action.stepAt d.idx).params.depth + 1) (action.stepAt d.idx) d.idx
        d.before pending step idx before) : RunCalls start pending step idx before
  | dataflow {listened token : Bool} {fanout : List (Nat × List Nat)} {es : List PipelineEvent}
      {c : Pipeline} {i idx : Nat} {fork before : ExecutionState} {pending : Bool} {step : StepDef}
      (hrun : PipelineRun host action plan listened (startPipeline action plan start fanout token)
        es c)
      (hspawned : .spawned i fork ∈ es)
      (h : Reaches host ((action.stepAt i).params.depth + 1) (action.stepAt i) i fork pending step
        idx before) : RunCalls start pending step idx before

/-- Whatever the wave loop does between its calls keeps a property of states. -/
structure WaveKeeps (J : ExecutionState → Prop) : Prop where
  tick : ∀ s, J s → J (tickState s)
  fork : ∀ s slot, J s → J (s.fork slot)
  overrides : ∀ s overrides, J s → J (s.setOverrides overrides)
  ran : ∀ idx < action.steps.length, ∀ s s', J s →
    runStep host (action.stepAt idx) idx s = .ok true s' → s'.returnSignal = none → J s'
  merged : ∀ c t id baseline, J c → J t → ¬Escaping (mergeTaskState c t id baseline) →
    J (mergeTaskState c t id baseline)

/-- The same, if the calls the loop makes are as `D` says. -/
structure WaveKeepsIf (D : Nat → ExecutionState → Prop) (J : ExecutionState → Prop) : Prop where
  tick : ∀ s, J s → J (tickState s)
  fork : ∀ s slot, J s → J (s.fork slot)
  overrides : ∀ s overrides, J s → J (s.setOverrides overrides)
  ran : ∀ idx < action.steps.length, ∀ s s', D idx s → J s →
    runStep host (action.stepAt idx) idx s = .ok true s' → s'.returnSignal = none → J s'
  merged : ∀ c t id baseline, J c → J t → ¬Escaping (mergeTaskState c t id baseline) →
    J (mergeTaskState c t id baseline)

end Calls

section Waves

variable {host : Host} {action : Action} {plan : DagPlan} {J : ExecutionState → Prop}
  {D : Nat → ExecutionState → Prop}

theorem WaveKeeps.keepsIf (h : WaveKeeps host action J) :
    WaveKeepsIf host action (fun _ _ => True) J where
  tick := h.tick
  fork := h.fork
  overrides := h.overrides
  ran idx hidx s s' _ := h.ran idx hidx s s'
  merged := h.merged

/-- A call the loop recorded: of a step of the action, on a state with the property. -/
structure Recorded (host : Host) (action : Action) (J : ExecutionState → Prop) (d : Dispatch) :
    Prop where
  idx_lt : d.idx < action.steps.length
  before : J d.before
  result : d.result = runStep host (action.stepAt d.idx) d.idx d.before

/-- A return or a violation that ends the invocation stays through the merges. -/
theorem merges_keep {baseline : IndexMap String Value} {tasks : List Dispatch}
    {c : ExecutionState} :
    ((tasks.foldl (mergeDispatch action baseline) c).returnSignal = none →
        c.returnSignal = none ∧ ∀ d ∈ tasks, d.after.returnSignal = none) ∧
      (Escaping c → Escaping (tasks.foldl (mergeDispatch action baseline) c)) := by
  induction tasks generalizing c with
  | nil => exact ⟨fun h => ⟨h, by simp⟩, id⟩
  | cons d rest ih =>
    obtain ⟨hsignal, hescapes⟩ := @ih (mergeDispatch action baseline c d)
    have hmerged := (mergeTaskState_moves c d.after (action.stepAt d.idx).id baseline).2
    refine ⟨fun h => ?_, fun h => ?_⟩
    · obtain ⟨hfirst, hrest⟩ := hsignal h
      obtain ⟨hc, hd⟩ := Option.or_eq_none_iff.mp (hmerged.symm.trans hfirst)
      exact ⟨hc, List.forall_mem_cons.mpr ⟨hd, hrest⟩⟩
    · exact hescapes ((mergeTaskState_escaping c d.after (action.stepAt d.idx).id baseline).1 h)

theorem WaveKeepsIf.merges (h : WaveKeepsIf host action D J) {baseline : IndexMap String Value}
    {tasks : List Dispatch} {c : ExecutionState} (hc : J c) (htasks : ∀ d ∈ tasks, J d.after)
    (hescapes : ¬Escaping (tasks.foldl (mergeDispatch action baseline) c)) :
    J (tasks.foldl (mergeDispatch action baseline) c) := by
  induction tasks generalizing c with
  | nil => exact hc
  | cons d rest ih =>
    obtain ⟨hd, hrest⟩ := List.forall_mem_cons.mp htasks
    refine ih (h.merged c d.after _ baseline hc hd fun hone => ?_) hrest hescapes
    have hkept : Escaping (rest.foldl (mergeDispatch action baseline)
        (mergeDispatch action baseline c d)) := merges_keep.2 hone
    exact hescapes hkept

/-- Unless it stops, the loop goes on with the state it had and no return signal. -/
theorem afterSteps_next {steps : List Nat} {l : WaveLoop}
    (h : (afterSteps host action plan steps l).2 = none) :
    (afterSteps host action plan steps l).1.state = l.state ∧ l.state.returnSignal = none := by
  refine ⟨(afterSteps_eq host action plan steps l).1, ?_⟩
  unfold afterSteps at h
  cases hinstall : installFanouts host action plan steps l with
  | error e => simp [hinstall] at h
  | ok l' =>
    rw [hinstall] at h
    simpa [stopOnReturn, (installFanouts_ok host action plan hinstall).1] using h

/-- Every call recorded so far is as `D` says. -/
def CallsAre (D : Nat → ExecutionState → Prop) (l : WaveLoop) : Prop :=
  ∀ d ∈ l.dispatched, D d.idx d.before

/-- What is recorded before a wave's step, and what holds if the loop goes on after it. -/
theorem WaveKeepsIf.sequential (plan : DagPlan) (h : WaveKeepsIf host action D J) {idx : Nat}
    (hidx : idx < action.steps.length) {l : WaveLoop}
    (hl : CallsAre D l → J l.state ∧ ∀ d ∈ l.dispatched, Recorded host action J d)
    (hcalls : CallsAre D (runSequentialStep host action plan idx l).1) :
    (∀ d ∈ (runSequentialStep host action plan idx l).1.dispatched, Recorded host action J d) ∧
      ((runSequentialStep host action plan idx l).2 = none →
        J (runSequentialStep host action plan idx l).1.state) := by
  unfold runSequentialStep at hcalls ⊢
  dsimp only at hcalls ⊢
  by_cases hfired : host.cancelFired l.state
  · simp only [hfired, if_true] at hcalls ⊢
    exact ⟨(hl hcalls).2, nofun⟩
  · simp only [hfired, Bool.false_eq_true, if_false] at hcalls ⊢
    generalize hb : (tickState l.state).setOverrides (fanoutOverrides plan action l.fanout idx) = before
      at hcalls ⊢
    have hbefore : J l.state → J before := fun hstate => hb ▸ h.overrides _ _ (h.tick _ hstate)
    have hall : ∀ result, result = runStep host (action.stepAt idx) idx before →
        (∀ d ∈ l.dispatched ++ [⟨idx, false, before, result⟩], D d.idx d.before) →
        D idx before ∧ J before ∧
          ∀ d ∈ l.dispatched ++ [⟨idx, false, before, result⟩], Recorded host action J d := by
      intro result hresult hD
      obtain ⟨hearlier, hown⟩ := List.forall_mem_append.mp hD
      obtain ⟨hstate, hrecorded⟩ := hl hearlier
      exact ⟨hown _ (List.mem_singleton_self _), hbefore hstate, List.forall_mem_append.mpr
        ⟨hrecorded, List.forall_mem_singleton.mpr ⟨hidx, hbefore hstate, hresult⟩⟩⟩
    cases hrun : runStep host (action.stepAt idx) idx before with
    | error e s' =>
      rw [hrun] at hcalls
      exact ⟨(hall _ hrun.symm hcalls).2.2, nofun⟩
    | ok ok s' =>
      rw [hrun] at hcalls
      cases ok with
      | false => exact ⟨(hall _ hrun.symm hcalls).2.2, nofun⟩
      | true =>
        dsimp only at hcalls ⊢
        unfold CallsAre at hcalls
        rw [(afterSteps_eq host action plan _ _).2] at hcalls ⊢
        obtain ⟨hD, hJ, hrecorded⟩ := hall _ hrun.symm hcalls
        refine ⟨hrecorded, fun hnext => ?_⟩
        obtain ⟨hsame, hsignal⟩ := afterSteps_next hnext
        rw [hsame]
        exact h.ran idx hidx _ s' hD hJ hrun hsignal

/-- The same of a wave whose steps run on forks. -/
theorem WaveKeepsIf.parallel (plan : DagPlan) (h : WaveKeepsIf host action D J) {wave : List Nat}
    (hwave : ∀ idx ∈ wave, idx < action.steps.length) {l : WaveLoop}
    (hl : CallsAre D l → J l.state ∧ ∀ d ∈ l.dispatched, Recorded host action J d)
    (hcalls : CallsAre D (runParallelWave host action plan wave l).1) :
    (∀ d ∈ (runParallelWave host action plan wave l).1.dispatched, Recorded host action J d) ∧
      ((runParallelWave host action plan wave l).2 = none →
        J (runParallelWave host action plan wave l).1.state) := by
  unfold runParallelWave at hcalls ⊢
  dsimp only at hcalls ⊢
  by_cases hfired : host.cancelFired l.state
  · simp only [hfired, if_true] at hcalls ⊢
    exact ⟨(hl hcalls).2, nofun⟩
  · simp only [hfired, Bool.false_eq_true, if_false] at hcalls ⊢
    have hall : (∀ d ∈ l.polled.dispatched ++ forkWave host action plan wave l.polled,
          D d.idx d.before) →
        J l.polled.state ∧ (∀ d ∈ forkWave host action plan wave l.polled,
          D d.idx d.before ∧ Recorded host action J d) ∧
        ∀ d ∈ l.polled.dispatched ++ forkWave host action plan wave l.polled,
          Recorded host action J d := by
      intro hD
      obtain ⟨hearlier, hown⟩ := List.forall_mem_append.mp hD
      obtain ⟨hstate, hrecorded⟩ := hl hearlier
      have hpolled : J l.polled.state := h.tick _ hstate
      have htasks : ∀ d ∈ forkWave host action plan wave l.polled, Recorded host action J d := by
        intro d hd
        obtain ⟨slot, hslot, rfl⟩ := List.mem_mapIdx.mp hd
        exact ⟨hwave _ (List.getElem_mem hslot), h.overrides _ _ (h.fork _ slot hpolled), rfl⟩
      exact ⟨hpolled, fun d hd => ⟨hown d hd, htasks d hd⟩,
        List.forall_mem_append.mpr ⟨hrecorded, htasks⟩⟩
    cases hinterrupt : host.waveInterrupt l.polled.state with
    | some interrupt =>
      rw [hinterrupt] at hcalls
      cases interrupt <;> exact ⟨(hall hcalls).2.2, nofun⟩
    | none =>
      rw [hinterrupt] at hcalls
      unfold joinWave at hcalls ⊢
      dsimp only at hcalls ⊢
      cases hfind : (forkWave host action plan wave l.polled).findSome? fun d =>
        taskError (action.stepAt d.idx) d.result with
      | some e =>
        rw [hfind] at hcalls
        exact ⟨(hall hcalls).2.2, nofun⟩
      | none =>
        rw [hfind] at hcalls
        dsimp only at hcalls ⊢
        cases hviolation : escapingViolation
          (mergeWave action (forkWave host action plan wave l.polled) l.polled.state) with
        | some e =>
          rw [hviolation] at hcalls
          exact ⟨(hall hcalls).2.2, nofun⟩
        | none =>
          rw [hviolation] at hcalls
          dsimp only at hcalls ⊢
          unfold CallsAre at hcalls
          rw [(afterSteps_eq host action plan _ _).2] at hcalls ⊢
          obtain ⟨hpolled, htasks, hrecorded⟩ := hall hcalls
          refine ⟨hrecorded, fun hnext => ?_⟩
          have hescapes : ¬Escaping (mergeWave action (forkWave host action plan wave l.polled)
              l.polled.state) := by
            simp [Escaping, hviolation]
          obtain ⟨hsame, hsignal⟩ := afterSteps_next hnext
          rw [hsame]
          have hsignals := (merges_keep.1 hsignal).2
          refine h.merges hpolled (fun d hd => ?_) hescapes
          -- every task ended well, as none of them reports an error
          have hnone := List.findSome?_eq_none_iff.mp hfind d hd
          have hsignal := hsignals d hd
          obtain ⟨hD, hd⟩ := htasks d hd
          unfold Dispatch.after at hsignal ⊢
          rw [hd.result] at hnone hsignal ⊢
          cases hrun : runStep host (action.stepAt d.idx) d.idx d.before with
          | error e t =>
            rw [hrun] at hnone
            cases hnone
          | ok ok t =>
            rw [hrun] at hnone hsignal
            cases ok with
            | false => cases hnone
            | true => exact h.ran d.idx hd.idx_lt d.before t hD hd.before hrun hsignal

/-- If the calls of the wave loop are as `D` says, each is of a step of the action, on a state with
the property, and so is the state after the last wave. -/
theorem WaveKeepsIf.recorded (h : WaveKeepsIf host action D J) (hvalid : plan.Valid action.steps)
    {s : ExecutionState} (hs : J s) (hcalls : CallsAre D (runWaves host action plan s).1) :
    (∀ d ∈ (runWaves host action plan s).1.dispatched, Recorded host action J d) ∧
      ((runWaves host action plan s).2 = none → J (runWaves host action plan s).1.state) := by
  have hstep : ∀ wave ∈ plan.waves, ∀ idx ∈ wave, idx < action.steps.length :=
    fun wave hwave idx hidx => hvalid.wave_lt hwave hidx
  -- an earlier loop has recorded no more calls, so it may use what is known of the later one
  have hwaves := @UntilStop.run_rule _ _ _ (runWave host action plan)
    (fun l : WaveLoop => CallsAre D l → J l.state ∧ ∀ d ∈ l.dispatched, Recorded host action J d)
    (fun l : WaveLoop => CallsAre D l → ∀ d ∈ l.dispatched, Recorded host action J d)
    plan.waves (fun _ hl hD => (hl hD).2) ?_ ⟨s, [], []⟩ (fun _ => ⟨hs, List.forall_mem_nil _⟩)
  · exact ⟨hwaves.1 hcalls, fun hnone => (hwaves.2 hnone hcalls).1⟩
  · intro wave hwave l hl
    unfold runWave
    split
    · refine ⟨fun hD => (h.parallel plan (hstep wave hwave) hl hD).1, fun hgo hD => ?_⟩
      obtain ⟨hall, hnext⟩ := h.parallel plan (hstep wave hwave) hl hD
      exact ⟨hnext hgo, hall⟩
    · refine UntilStop.run_rule
        (P := fun l : WaveLoop =>
          CallsAre D l → J l.state ∧ ∀ d ∈ l.dispatched, Recorded host action J d)
        (Q := fun l : WaveLoop => CallsAre D l → ∀ d ∈ l.dispatched, Recorded host action J d)
        (fun _ hl hD => (hl hD).2) ?_ hl
      intro idx hidx l hl
      refine ⟨fun hD => (h.sequential plan (hstep wave hwave idx hidx) hl hD).1, fun hgo hD => ?_⟩
      obtain ⟨hall, hnext⟩ := h.sequential plan (hstep wave hwave idx hidx) hl hD
      exact ⟨hnext hgo, hall⟩

/-- Every call of the wave loop is of a step of the action, on a state with the property. -/
theorem WaveKeeps.recorded (h : WaveKeeps host action J) (hvalid : plan.Valid action.steps)
    {s : ExecutionState} (hs : J s) :
    ∀ d ∈ (runWaves host action plan s).1.dispatched, Recorded host action J d :=
  (h.keepsIf.recorded hvalid hs fun _ _ => trivial).1

/-! ### What shows is called -/

theorem dispatched_sequential (idx : Nat) (l : WaveLoop) (hfired : host.cancelFired l.state = false) :
    (runSequentialStep host action plan idx l).1.dispatched =
      l.dispatched ++ [⟨idx, false, stepBefore action plan idx l,
        runStep host (action.stepAt idx) idx (stepBefore action plan idx l)⟩] := by
  unfold runSequentialStep
  simp only [hfired, Bool.false_eq_true, if_false]
  change _ = l.dispatched ++ [⟨idx, false, (tickState l.state).setOverrides _, _⟩]
  unfold stepBefore
  cases runStep host (action.stepAt idx) idx
      ((tickState l.state).setOverrides (fanoutOverrides plan action l.fanout idx)) with
  | error e s' => rfl
  | ok ok s' =>
    cases ok with
    | false => rfl
    | true => exact (afterSteps_eq host action plan _ _).2

theorem dispatched_parallel (wave : List Nat) (l : WaveLoop)
    (hfired : host.cancelFired l.state = false) :
    (runParallelWave host action plan wave l).1.dispatched =
      l.dispatched ++ forkWave host action plan wave l.polled := by
  unfold runParallelWave
  simp only [hfired, Bool.false_eq_true, if_false]
  cases host.waveInterrupt l.polled.state with
  | some interrupt => cases interrupt <;> rfl
  | none =>
    unfold joinWave
    dsimp only
    split
    · rfl
    · split
      · rfl
      · exact (afterSteps_eq host action plan _ _).2

/-- The calls among the events are made below recorded calls. -/
def ShownBelow (host : Host) (action : Action) (ds : List Dispatch) (es : List RunEvent) : Prop :=
  ∀ e ∈ es, e.dispatches = true → ∃ d ∈ ds, e ∈ d.trace host action

theorem ShownBelow.append {ds more : List Dispatch} {es es' : List RunEvent}
    (h : ShownBelow host action ds es) (h' : ShownBelow host action more es') :
    ShownBelow host action (ds ++ more) (es ++ es') := by
  intro e he hcalls
  rcases List.mem_append.mp he with he | he
  · obtain ⟨d, hd, hin⟩ := h e he hcalls
    exact ⟨d, List.mem_append_left _ hd, hin⟩
  · obtain ⟨d, hd, hin⟩ := h' e he hcalls
    exact ⟨d, List.mem_append_right _ hd, hin⟩

theorem shownBelow_sequential (idx : Nat) {w : Watching}
    (h : ShownBelow host action w.1.dispatched w.2) :
    ShownBelow host action (Watched.runSequentialStep host action plan idx w).1.1.dispatched
      (Watched.runSequentialStep host action plan idx w).1.2 := by
  unfold Watched.runSequentialStep sequentialEvents
  by_cases hfired : host.cancelFired w.1.state
  · simpa [runSequentialStep, hfired, WaveLoop.polled] using h
  · have hquiet : host.cancelFired w.1.state = false := by simpa using hfired
    dsimp only
    rw [dispatched_sequential idx w.1 hquiet, if_neg hfired]
    exact h.append fun e he _ => ⟨_, List.mem_singleton_self _, he⟩

theorem shownBelow_parallel (wave : List Nat) {w : Watching}
    (h : ShownBelow host action w.1.dispatched w.2) :
    ShownBelow host action (Watched.runParallelWave host action plan wave w).1.1.dispatched
      (Watched.runParallelWave host action plan wave w).1.2 := by
  unfold Watched.runParallelWave parallelEvents
  by_cases hfired : host.cancelFired w.1.state
  · simpa [runParallelWave, hfired, WaveLoop.polled] using h
  · have hquiet : host.cancelFired w.1.state = false := by simpa using hfired
    dsimp only
    rw [dispatched_parallel wave w.1 hquiet, if_neg hfired]
    have hshown : ∀ e ∈ ((forkWave host action plan wave w.1.polled).map fun d =>
        d.trace host action).flatten,
        ∃ d ∈ forkWave host action plan wave w.1.polled, e ∈ d.trace host action := by
      intro e he
      obtain ⟨es, hes, he⟩ := List.mem_flatten.mp he
      obtain ⟨d, hd, rfl⟩ := List.mem_map.mp hes
      exact ⟨d, hd, he⟩
    refine h.append fun e he hcalls => ?_
    split at he
    · exact hshown e he
    · rcases List.mem_append.mp he with he | he
      · exact hshown e he
      · -- merging calls nothing
        have hnot := ((mergeDispatch_law action _ _ _).own e he).2.1
        rw [hcalls] at hnot
        cases hnot

/-- Every call that shows in a run of the wave loop is one of the run's calls. -/
theorem actionTrace_calls_made (s : ExecutionState) :
    ∀ e ∈ actionTrace host action plan s, e.Makes fun step idx before =>
      ∃ pending, RunCalls host action plan s pending step idx before := by
  have hbelow : ShownBelow host action (runWaves host action plan s).1.dispatched
      (actionTrace host action plan s) := by
    rw [Watched.erase_runWaves]
    refine UntilStop.run_invariant (P := fun w : Watching =>
      ShownBelow host action w.1.dispatched w.2) (fun wave _ w hw => ?_)
      (fun e he => absurd he List.not_mem_nil)
    unfold Watched.runWave
    split
    · exact shownBelow_parallel wave hw
    · exact UntilStop.run_invariant (P := fun w : Watching =>
        ShownBelow host action w.1.dispatched w.2) (fun idx _ w hw => shownBelow_sequential idx hw) hw
  intro e he
  cases e with
  | dispatched step idx before =>
    obtain ⟨d, hd, hin⟩ := hbelow _ he rfl
    obtain ⟨pending, hreaches⟩ := runTrace_reaches hin
    exact ⟨pending, .wave hd hreaches⟩
  | _ => trivial

end Waves

end Gwead
