import Gwead.DataflowSafety
import Gwead.InvokeGraph
import Gwead.ReturnSignal

/-!
# The steps that are called

Every call of `run_step` in a run of an action, under any scheduler, is of a step that is written
in the action: at the top level, or in a body of another such step.
-/

namespace Gwead

open Traced

/-- A step of a body that running another step may splice in. -/
inductive Splices (step inner : StepDef) : Prop
  | loop (hkind : step.kind = .forEach ∨ step.kind = .repetition)
      (h : inner ∈ StepDef.bodySteps (step.params.get "steps")) : Splices step inner
  | chosen {branches : List Value} {branch : Value} (hkind : step.kind = .ifs)
      (hbranches : (step.params.get "ifs").bind Value.asArray = some branches)
      (hbranch : branch ∈ branches) (h : inner ∈ StepDef.bodySteps (branch.get "then")) :
      Splices step inner
  | guarded {key : String} (hkind : step.kind = .guarded) (hkey : key ∈ ["try", "catch", "finally"])
      (h : inner ∈ StepDef.bodySteps (step.params.get key)) : Splices step inner
  | parallel {steps : List StepDef} (hkind : step.kind = .parallel) (hsteps : steps ∈ branchSteps step)
      (h : inner ∈ steps) : Splices step inner

/-- If the event is a call of `run_step`, the step called is one of `C`. -/
def RunEvent.Calls (C : StepDef → Prop) : RunEvent → Prop
  | .dispatched step _ _ => C step
  | _ => True

theorem RunEvent.calls_of_not_dispatches {C : StepDef → Prop} {e : RunEvent}
    (h : e.dispatches = false) : e.Calls C := by
  cases e with
  | dispatched step idx before => cases h
  | _ => trivial

/-! ### The interpreter -/

namespace Watched

section Interpreter

variable {host : Host} {C : StepDef → Prop} {run : StepDef → Nat → Watch Bool}

theorem storeEvents_calls (s : ExecutionState) (id : String) (v : Value) :
    ∀ e ∈ storeEvents s id v, e.Calls C := by
  exact fun e he =>
    RunEvent.calls_of_not_dispatches ((storeEvents_trailing s id v).1.own e he).2.1

theorem endEvents_calls (idx : Nat) (s : ExecutionState) :
    ∀ e ∈ endEvents idx s, e.Calls C := by
  unfold endEvents
  split
  · exact List.forall_mem_nil _
  · split
    · exact List.forall_mem_nil _
    · exact storeEvents_calls _ _ _

theorem storesEvents_calls (s : ExecutionState) (entries : List (String × Value)) :
    ∀ e ∈ storesEvents s entries, e.Calls C := fun e he =>
  RunEvent.calls_of_not_dispatches ((storesEvents_trailing s entries).1.own e he).2.1

theorem runSteps_calls {steps : List StepDef}
    (hrun : ∀ inner ∈ steps, ∀ i, Only (RunEvent.Calls C) (run inner i)) (idx : Nat)
    (last : Option Value) : Only (RunEvent.Calls C) (runSteps host run steps idx last) := by
  induction steps generalizing idx last with
  | nil => exact only_pure _
  | cons inner rest ih =>
    have hrest := ih fun step hstep => hrun step (List.mem_cons_of_mem _ hstep)
    refine only_bind only_lift fun _ => only_bind (hrun inner List.mem_cons_self idx) fun ok => ?_
    cases ok with
    | true =>
      refine only_bind only_lift fun s => ?_
      dsimp only
      split
      · exact only_pure _
      · exact hrest _ _
    | false => exact only_bind only_lift fun _ => only_pure _

theorem runBlock_calls {steps : List StepDef}
    (hrun : ∀ inner ∈ steps, ∀ i, Only (RunEvent.Calls C) (run inner i)) :
    Only (RunEvent.Calls C) (runBlock host run steps) := by
  unfold runBlock
  split
  · exact only_pure _
  · exact only_nested fun s => runSteps_calls hrun _ none

theorem runCatch_calls {step : StepDef}
    (hrun : ∀ inner ∈ StepDef.bodySteps (step.params.get "catch"), ∀ i,
      Only (RunEvent.Calls C) (run inner i)) :
    Only (RunEvent.Calls C) (runCatch host run step) := by
  unfold runCatch
  split
  · exact only_pure _
  · rename_i body hbody
    rw [hbody] at hrun
    refine only_bind (only_emit fun s e he => ?_) fun _ => ?_
    · rw [List.mem_singleton.mp he]
      trivial
    · dsimp only
      split
      · exact only_bind only_lift fun _ => only_pure _
      · exact only_bind (only_nested fun s => runBlock_calls hrun) fun _ => only_pure _

theorem finishTry_calls {step : StepDef} {failed : Bool} {result : Option Value}
    (hrun : ∀ inner ∈ StepDef.bodySteps (step.params.get "finally"), ∀ i,
      Only (RunEvent.Calls C) (run inner i)) :
    Only (RunEvent.Calls C) (finishTry host run step failed result) := by
  refine only_bind (only_bind only_lift fun returned => ?_) fun finallyOk => ?_
  · split
    · exact only_pure _
    · refine only_bind (only_emit fun s e he => ?_) fun _ =>
        only_bind (runBlock_calls hrun) fun _ => only_pure _
      rw [List.mem_singleton.mp he]
      trivial
  · split
    · exact only_pure _
    · exact only_bind (only_observe fun s => storeEvents_calls s _ _) fun _ => only_pure _

theorem runTry_calls {step : StepDef}
    (hrun : ∀ key ∈ ["try", "catch", "finally"],
      ∀ inner ∈ StepDef.bodySteps (step.params.get key), ∀ i,
        Only (RunEvent.Calls C) (run inner i)) :
    Only (RunEvent.Calls C) (runTry host run step) := by
  have htry := hrun "try" (by simp)
  have hcatch := hrun "catch" (by simp)
  have hfinally := hrun "finally" (by simp)
  refine only_bind (runBlock_calls htry) fun block => only_bind only_lift fun returned => ?_
  split
  · exact only_pure _
  · split
    · exact only_bind (runCatch_calls hcatch) fun _ => finishTry_calls hfinally
    · exact finishTry_calls hfinally

theorem chooseBranch_calls (branches : List Value) :
    Only (RunEvent.Calls C) (chooseBranch branches) := by
  induction branches with
  | nil => exact only_pure _
  | cons branch rest ih =>
    refine only_bind ?_ fun matched => ?_
    · unfold branchMatches
      split
      · refine only_observe fun s e he => ?_
        rw [List.mem_singleton.mp he]
        trivial
      · exact only_pure _
    · split
      · exact only_pure _
      · exact ih

/-- The chosen body is the `then` of a branch, or there is none. -/
theorem mem_chooseBranch {branches : List Value} {s s' : ExecutionState} {steps : List StepDef}
    {es : List RunEvent} (h : chooseBranch branches s = (.ok steps s', es)) :
    ∀ inner ∈ steps, ∃ branch ∈ branches, inner ∈ StepDef.bodySteps (branch.get "then") := by
  induction branches generalizing s es with
  | nil =>
    cases h
    exact List.forall_mem_nil _
  | cons branch rest ih =>
    rw [chooseBranch] at h
    rcases hmatched : branchMatches branch s with ⟨⟨matched, s₁⟩ | ⟨e, s₁⟩, es₁⟩
    · rw [Traced.bind_ok hmatched] at h
      cases matched with
      | true =>
        cases h
        exact fun inner hin => ⟨branch, List.mem_cons_self, hin⟩
      | false =>
        rcases hrest : chooseBranch rest s₁ with ⟨r, es₂⟩
        simp only [Bool.false_eq_true, if_false, hrest, Prod.mk.injEq] at h
        intro inner hin
        obtain ⟨b, hb, hin⟩ := ih (hrest.trans (by rw [h.1])) inner hin
        exact ⟨b, List.mem_cons_of_mem _ hb, hin⟩
    · rw [Traced.bind_error hmatched] at h
      cases h

theorem runIfs_calls {step : StepDef} (hrun : ∀ branches,
    (step.params.get "ifs").bind Value.asArray = some branches → ∀ branch ∈ branches,
      ∀ inner ∈ StepDef.bodySteps (branch.get "then"), ∀ i, Only (RunEvent.Calls C) (run inner i)) :
    Only (RunEvent.Calls C) (runIfs host run step) := by
  unfold runIfs
  split
  · exact only_pure _
  · rename_i branches hbranches
    refine only_bind_of (chooseBranch_calls branches)
      (fun s steps s' es hchoose => mem_chooseBranch hchoose) fun steps hsteps => ?_
    refine only_bind (runBlock_calls fun inner hin i => ?_) fun _ => only_pure _
    obtain ⟨branch, hbranch, hin⟩ := hsteps inner hin
    exact hrun branches hbranches branch hbranch inner hin i

theorem evalIfCondition_calls (text : String) : Only (RunEvent.Calls C) (evalIfCondition text) := by
  refine only_observe fun s e he => ?_
  rw [List.mem_singleton.mp he]
  trivial

theorem runPasses_calls {steps : List StepDef}
    (hrun : ∀ inner ∈ steps, ∀ i, Only (RunEvent.Calls C) (run inner i)) (offset : Nat)
    (untilExpr collectExpr : Option String) (passes : Nat) (acc : Collected) :
    Only (RunEvent.Calls C) (runPasses host run steps offset untilExpr collectExpr passes acc) := by
  induction passes generalizing acc with
  | zero => exact only_bind only_lift fun _ => only_pure _
  | succ n ih =>
    refine only_bind only_lift fun hasItem => ?_
    split
    · refine only_bind only_lift fun _ => only_bind (runSteps_calls hrun offset none) fun block => ?_
      obtain ⟨ended, last⟩ := block
      cases ended with
      | failed => exact only_pure _
      | returned => exact only_pure _
      | completed =>
        refine only_bind (only_observe fun s e he => ?_) fun acc => only_bind ?_ fun stop => ?_
        · obtain ⟨text, -, rfl⟩ := List.mem_map.mp he
          trivial
        · unfold untilHolds
          split
          · exact only_pure _
          · exact evalIfCondition_calls _
        · split
          · exact only_pure _
          · exact ih acc
    · exact only_pure _

theorem runIteration_calls {step : StepDef}
    (hrun : ∀ inner ∈ StepDef.bodySteps (step.params.get "steps"), ∀ i,
      Only (RunEvent.Calls C) (run inner i)) (idx : Nat) (name : String) (begins : Nat → Exec Int) :
    Only (RunEvent.Calls C) (runIteration host run step idx name begins) := by
  refine only_bind only_lift fun count => ?_
  split
  · exact only_lift
  · refine only_bind only_lift fun passes => only_bind (only_nested fun s => ?_) fun result => ?_
    · split
      · exact runPasses_calls hrun _ _ _ _ _
      · exact only_pure _
    · obtain ⟨ok, acc⟩ := result
      cases ok with
      | true =>
        refine only_bind (only_observe fun s => endEvents_calls idx s) fun _ =>
          only_bind ?_ fun _ => only_pure _
        unfold storeCollected
        split
        · exact only_observe fun s => storeEvents_calls s _ _
        · exact only_pure _
      | false => exact only_bind only_lift fun _ => only_pure _

/-- What a branch shows, it shows on its fork. -/
theorem branchesEvents_calls {s : ExecutionState} {branches : List (List StepDef)}
    (hrun : ∀ steps ∈ branches, ∀ inner ∈ steps, ∀ i, Only (RunEvent.Calls C) (run inner i)) :
    ∀ e ∈ branchesEvents (branchOutcomes host run s branches), e.Calls C := by
  intro e he
  obtain ⟨es, hes, he⟩ := List.mem_flatten.mp he
  obtain ⟨outcome, houtcome, rfl⟩ := List.mem_map.mp hes
  unfold branchOutcomes at houtcome
  obtain ⟨slot, hslot, rfl⟩ := List.mem_mapIdx.mp houtcome
  have hsteps : Only (RunEvent.Calls C)
      (runSteps host run branches[slot] s.action.steps.length none) :=
    runSteps_calls (hrun _ (List.getElem_mem hslot)) _ none
  split at he
  · cases he
  · refine hsteps ((s.fork slot).spliceSteps branches[slot]) e ?_
    unfold runBranch at he
    rcases hran : runSteps host run branches[slot] s.action.steps.length none
      ((s.fork slot).spliceSteps branches[slot]) with ⟨⟨⟨ended, last⟩, s'⟩ | ⟨err, s'⟩, es⟩
    · simpa [hran] using he
    · simpa [hran] using he

theorem joinEvents_calls (ids : List String) (vars : IndexMap String Value)
    (outcomes : List (Option (BranchOutcome × List RunEvent))) (join : BranchJoin) :
    ∀ e ∈ joinEvents ids vars join outcomes, e.Calls C := by
  induction outcomes generalizing join with
  | nil => exact List.forall_mem_nil _
  | cons outcome rest ih =>
    cases outcome with
    | none => exact ih _
    | some branch => exact List.forall_mem_append.mpr ⟨storesEvents_calls _ _, ih _⟩

theorem runParallel_calls {step : StepDef}
    (hrun : ∀ steps ∈ branchSteps step, ∀ inner ∈ steps, ∀ i,
      Only (RunEvent.Calls C) (run inner i)) :
    Only (RunEvent.Calls C) (runParallel host run step) := by
  intro s
  have hshown : ∀ e ∈ branchesEvents (branchOutcomes host run s (branchSteps step)), e.Calls C :=
    branchesEvents_calls hrun
  have hjoined := List.forall_mem_append.mpr ⟨hshown, joinEvents_calls s.stepResults.keys s.vars
    (branchOutcomes host run s (branchSteps step)) (emptyJoin s)⟩
  unfold runParallel
  dsimp only
  split
  · exact storeEvents_calls s _ _
  · split
    · exact List.forall_mem_nil _
    · split
      · exact hshown
      · split
        · exact hjoined
        · exact List.forall_mem_append.mpr ⟨hjoined, storeEvents_calls _ _ _⟩

theorem leafEvents_calls (step : StepDef) (idx : Nat) (s : ExecutionState) :
    ∀ e ∈ leafEvents host step idx s, e.Calls C := by
  unfold leafEvents
  split
  · exact List.forall_mem_nil _
  · exact fun e he => RunEvent.calls_of_not_dispatches
      ((dispatchTraitStep_trailing host _ s idx).1.own e he).2.1

/-- Dispatching a step calls nothing but what it splices. -/
theorem dispatchStep_calls {step : StepDef}
    (hrun : ∀ inner, Splices step inner → ∀ i, Only (RunEvent.Calls C) (run inner i)) (idx : Nat) :
    Only (RunEvent.Calls C) (dispatchStep host run step idx) := by
  unfold dispatchStep
  cases hkind : step.kind with
  | forEach => exact runIteration_calls (fun inner h => hrun inner (.loop (.inl hkind) h)) idx _ _
  | repetition => exact runIteration_calls (fun inner h => hrun inner (.loop (.inr hkind) h)) idx _ _
  | ifs =>
    exact runIfs_calls fun branches hbranches branch hbranch inner h =>
      hrun inner (.chosen hkind hbranches hbranch h)
  | returning =>
    refine only_observe fun s => List.forall_mem_append.mpr ⟨storeEvents_calls _ _ _, ?_⟩
    exact List.forall_mem_singleton.mpr trivial
  | guarded => exact runTry_calls fun key hkey inner h => hrun inner (.guarded hkind hkey h)
  | parallel =>
    exact runParallel_calls fun steps hsteps inner h => hrun inner (.parallel hkind hsteps h)
  | leaf => exact only_observe (leafEvents_calls step idx)

end Interpreter

/-- A kind of steps that contains what its members splice contains every step they call. -/
theorem runStepTo_calls (host : Host) {C : StepDef → Prop}
    (hclosed : ∀ step inner, C step → Splices step inner → C inner) (depth : Nat) {step : StepDef}
    (hstep : C step) (idx : Nat) : Only (RunEvent.Calls C) (runStepTo host depth step idx) := by
  induction depth generalizing step idx with
  | zero => exact only_lift
  | succ depth ih =>
    refine only_bind (only_emit fun s => List.forall_mem_singleton.mpr hstep) fun _ =>
      only_bind ?_ fun ok => only_lift
    exact dispatchStep_calls (fun inner h i => ih (hclosed step inner hstep h) i) idx

end Watched

/-! ### Bodies -/

theorem mem_bodySteps {body : Option Value} {inner : StepDef} :
    inner ∈ StepDef.bodySteps body ↔ ∃ items, body.bind Value.asArray = some items ∧
      inner ∈ items.filterMap StepDef.fromInnerValue := by
  unfold StepDef.bodySteps
  cases body.bind Value.asArray <;> simp

/-- The type that a step's dispatch was chosen by. -/
theorem stepType_of_kind (step : StepDef) :
    match step.kind with
    | .forEach => step.stepType = "for_each"
    | .repetition => step.stepType = "repeat"
    | .ifs => step.stepType = "ifs"
    | .returning => step.stepType = "return"
    | .guarded => step.stepType = "try"
    | .parallel => step.stepType = "parallel"
    | .leaf => True := by
  unfold StepDef.kind
  split_ifs <;> first | assumption | trivial

/-- What a step splices is in one of its bodies. -/
theorem Splices.mem_body {step inner : StepDef} (h : Splices step inner) :
    ∃ bodies, stepBodies step = some bodies ∧ ∃ body ∈ bodies,
      inner ∈ body.filterMap StepDef.fromInnerValue := by
  have htype := stepType_of_kind step
  cases h with
  | loop hkind h =>
    obtain ⟨items, hitems, hin⟩ := mem_bodySteps.mp h
    have hbodies : stepBodies step = some [items] := by
      rcases hkind with hkind | hkind <;> simp only [hkind] at htype <;>
        simp [stepBodies, htype, hitems]
    exact ⟨[items], hbodies, items, List.mem_singleton_self _, hin⟩
  | @chosen branches branch hkind hbranches hbranch h =>
    obtain ⟨items, hitems, hin⟩ := mem_bodySteps.mp h
    simp only [hkind] at htype
    have hbodies : stepBodies step = some (branches.filterMap fun branch =>
        (branch.get "then").bind Value.asArray) := by
      simp [stepBodies, htype, arrayAt, hbranches]
    exact ⟨_, hbodies, items, List.mem_filterMap.mpr ⟨branch, hbranch, hitems⟩, hin⟩
  | @guarded key hkind hkey h =>
    obtain ⟨items, hitems, hin⟩ := mem_bodySteps.mp h
    simp only [hkind] at htype
    have hbodies : stepBodies step = some (["try", "catch", "finally"].filterMap fun key =>
        (step.params.get key).bind Value.asArray) := by
      simp [stepBodies, htype]
    exact ⟨_, hbodies, items, List.mem_filterMap.mpr ⟨key, hkey, hitems⟩, hin⟩
  | @parallel steps hkind hsteps h =>
    obtain ⟨branch, hbranch, rfl⟩ := List.mem_map.mp hsteps
    obtain ⟨items, hitems, hin⟩ := mem_bodySteps.mp h
    simp only [hkind] at htype
    have hbodies : stepBodies step =
        some ((arrayAt step.params "branches").filterMap Value.asArray) := by
      simp [stepBodies, htype]
    exact ⟨_, hbodies, items, List.mem_filterMap.mpr ⟨branch, hbranch, hitems⟩, hin⟩

theorem Nested.splice {steps : List StepDef} {step inner : StepDef} (h : Nested steps step)
    (hsplices : Splices step inner) : Nested steps inner := by
  induction h with
  | top hmem =>
    obtain ⟨bodies, hbodies, body, hbody, hin⟩ := hsplices.mem_body
    exact .inner hmem hbodies hbody (.top hin)
  | inner hparent hbodies hbody _ ih => exact .inner hparent hbodies hbody (ih hsplices)

theorem runTrace_calls (host : Host) {steps : List StepDef} {step : StepDef} (h : step ∈ steps)
    (idx : Nat) (s : ExecutionState) : ∀ e ∈ runTrace host step idx s, e.Calls (Nested steps) :=
  Watched.runStepTo_calls host (fun _ _ => Nested.splice) _ (.top h) idx s

/-! ### The schedulers -/

section Schedulers

variable (host : Host) (action : Action) (plan : DagPlan)

/-- `run_step` is called with the step in some run of the action: by the wave scheduler, or by a
task that the dataflow scheduler spawned. -/
inductive CallsStep (step : StepDef) : Prop
  | wave {s before : ExecutionState} {idx : Nat}
      (h : .dispatched step idx before ∈ actionTrace host action plan s) : CallsStep step
  | dataflow {listened token : Bool} {s fork before : ExecutionState}
      {fanout : List (Nat × List Nat)} {es : List PipelineEvent} {c : Pipeline} {i idx : Nat}
      (hrun : PipelineRun host action plan listened (startPipeline action plan s fanout token) es c)
      (hspawned : .spawned i fork ∈ es)
      (h : .dispatched step idx before ∈ runTrace host (action.stepAt i) i fork) : CallsStep step

variable {action plan}

theorem stepAt_mem {idx : Nat} (h : idx < action.steps.length) :
    action.stepAt idx ∈ action.steps := by
  rw [Action.stepAt, List.getD_eq_getElem _ _ h]
  exact List.getElem_mem h

theorem DagPlan.Valid.wave_lt (h : plan.Valid action.steps) {wave : List Nat}
    (hwave : wave ∈ plan.waves) {idx : Nat} (hidx : idx ∈ wave) : idx < action.steps.length := by
  obtain ⟨k, hk, rfl⟩ := List.getElem_of_mem hwave
  have hlevel := h.waves_eq k
  rw [List.getD_eq_getElem _ _ hk] at hlevel
  rw [hlevel] at hidx
  exact List.mem_range.mp (List.mem_filter.mp hidx).1

/-- The call made for an index of the plan calls only steps of the action. -/
theorem runTrace_stepAt {idx : Nat} (h : idx < action.steps.length) (s : ExecutionState) :
    ∀ e ∈ runTrace host (action.stepAt idx) idx s, e.Calls (Nested action.steps) :=
  runTrace_calls host (stepAt_mem h) idx s

theorem sequentialEvents_calls {idx : Nat} (h : idx < action.steps.length) (l : WaveLoop) :
    ∀ e ∈ sequentialEvents host action plan idx l, e.Calls (Nested action.steps) := by
  unfold sequentialEvents
  split
  · exact List.forall_mem_nil _
  · exact runTrace_stepAt host h _

theorem parallelEvents_calls {wave : List Nat} (h : ∀ idx ∈ wave, idx < action.steps.length)
    (l : WaveLoop) :
    ∀ e ∈ parallelEvents host action plan wave l, e.Calls (Nested action.steps) := by
  have hshown : ∀ e ∈ ((forkWave host action plan wave l.polled).map fun d =>
      d.trace host action).flatten, e.Calls (Nested action.steps) := by
    intro e he
    obtain ⟨es, hes, he⟩ := List.mem_flatten.mp he
    obtain ⟨d, hd, rfl⟩ := List.mem_map.mp hes
    obtain ⟨i, hi, rfl⟩ := List.mem_mapIdx.mp hd
    exact runTrace_stepAt host (h _ (List.getElem_mem hi)) _ e he
  unfold parallelEvents
  split
  · exact List.forall_mem_nil _
  · dsimp only
    split
    · exact hshown
    · refine List.forall_mem_append.mpr ⟨hshown, fun e he => ?_⟩
      exact RunEvent.calls_of_not_dispatches ((mergeDispatch_law _ _ _ _).own e he).2.1

theorem actionTrace_calls (hvalid : plan.Valid action.steps) (s : ExecutionState) :
    ∀ e ∈ actionTrace host action plan s, e.Calls (Nested action.steps) := by
  refine UntilStop.run_invariant (P := fun w : Watching => ∀ e ∈ w.2, e.Calls (Nested action.steps))
    (fun wave hwave w hw => ?_) (List.forall_mem_nil _)
  have hlt := fun idx (hidx : idx ∈ wave) => hvalid.wave_lt hwave hidx
  unfold Watched.runWave
  split
  · exact List.forall_mem_append.mpr ⟨hw, parallelEvents_calls host hlt w.1⟩
  · refine UntilStop.run_invariant
      (P := fun w : Watching => ∀ e ∈ w.2, e.Calls (Nested action.steps))
      (fun idx hidx w hw => ?_) hw
    exact List.forall_mem_append.mpr ⟨hw, sequentialEvents_calls host (hlt idx hidx) w.1⟩

/-- Whatever is called is written in the action. -/
theorem CallsStep.nested (hvalid : plan.Valid action.steps) {step : StepDef}
    (h : CallsStep host action plan step) : Nested action.steps step := by
  cases h with
  | wave h => exact actionTrace_calls host hvalid _ _ h
  | dataflow hrun hspawned h =>
    obtain ⟨pre, post, hes⟩ := List.append_of_mem hspawned
    obtain ⟨t, t', hpre, hstep, -⟩ := hrun.split hes
    have hlt := (scheduled_of_run hvalid hpre).spawned_lt (hstep.move host action plan)
    exact runTrace_stepAt host hlt _ _ h

end Schedulers

end Gwead
