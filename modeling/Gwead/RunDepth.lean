import Gwead.RunFrame

/-!
# The interpreter never runs out of depth

Bodies nest less deeply than the parameters that hold them, so the counter of `runStepTo` only
makes the recursion structural: running a step is dispatching on its type with the interpreter
itself for the inner steps.
-/

namespace Gwead

theorem StepDef.bodySteps_depth {v : Value} {inner : StepDef}
    (h : inner ∈ StepDef.bodySteps (some v)) : inner.params.depth < v.depth := by
  unfold StepDef.bodySteps at h
  split at h
  · rename_i items hitems
    obtain ⟨item, hitem, hread⟩ := List.mem_filterMap.mp h
    have hdepth : item.depth < v.depth := Value.depth_mem (by simpa using hitems) hitem
    obtain ⟨hid, -, hparams⟩ := StepDef.fromInnerValue_some hread
    rw [hparams]
    cases hget : item.get "params" with
    | some params => exact (Value.depth_get hget).trans hdepth
    | none =>
      obtain ⟨w, hw, -⟩ := Option.bind_eq_some_iff.mp hid
      have hpos := Value.depth_get hw
      have hempty : Value.emptyObject.depth = 1 := rfl
      simp only [Option.getD_none]
      omega
  · cases h

theorem StepDef.bodySteps_get_depth {v : Value} {key : String} {inner : StepDef}
    (h : inner ∈ StepDef.bodySteps (v.get key)) : inner.params.depth < v.depth := by
  cases hget : v.get key with
  | none =>
    rw [hget] at h
    cases h
  | some w =>
    rw [hget] at h
    exact (StepDef.bodySteps_depth h).trans (Value.depth_get hget)

section Congruence

variable (host : Host) {run run' : StepDef → Nat → Exec Bool}

theorem runSteps_congr {steps : List StepDef} (h : ∀ inner ∈ steps, run inner = run' inner)
    (idx : Nat) (last : Option Value) :
    runSteps host run steps idx last = runSteps host run' steps idx last := by
  induction steps generalizing idx last with
  | nil => rfl
  | cons inner rest ih =>
    have ih := ih fun step hstep => h step (List.mem_cons_of_mem _ hstep)
    simp only [runSteps, h inner List.mem_cons_self, ih]

theorem runBlock_congr {steps : List StepDef} (h : ∀ inner ∈ steps, run inner = run' inner) :
    runBlock host run steps = runBlock host run' steps := by
  simp only [runBlock, runSteps_congr host h]

theorem runCatch_congr (step : StepDef)
    (h : ∀ inner : StepDef, inner.params.depth < step.params.depth → run inner = run' inner) :
    runCatch host run step = runCatch host run' step := by
  unfold runCatch
  split
  · rfl
  · rename_i body hbody
    have hblock : runBlock host run (StepDef.bodySteps (some body)) =
        runBlock host run' (StepDef.bodySteps (some body)) :=
      runBlock_congr host fun inner hin =>
        h inner ((StepDef.bodySteps_depth hin).trans (Value.depth_get hbody))
    have hhandlers : runHandlers host run step (StepDef.bodySteps (some body)) =
        runHandlers host run' step (StepDef.bodySteps (some body)) := by
      funext s
      simp only [runHandlers, hblock]
    simp only [hhandlers]

theorem runTry_congr (step : StepDef)
    (h : ∀ inner : StepDef, inner.params.depth < step.params.depth → run inner = run' inner) :
    runTry host run step = runTry host run' step := by
  have hblock : ∀ key, runBlock host run (StepDef.bodySteps (step.params.get key)) =
      runBlock host run' (StepDef.bodySteps (step.params.get key)) := fun key =>
    runBlock_congr host fun inner hin => h inner (StepDef.bodySteps_get_depth hin)
  simp only [runTry, finishTry, runFinally, hblock, runCatch_congr host step h]

theorem mem_branchSteps_depth {step inner : StepDef} {steps : List StepDef}
    (hsteps : steps ∈ branchSteps step) (h : inner ∈ steps) :
    inner.params.depth < step.params.depth := by
  obtain ⟨branch, hbranch, rfl⟩ := List.mem_map.mp hsteps
  cases harr : (step.params.get "branches").bind Value.asArray with
  | none =>
    rw [harr] at hbranch
    cases hbranch
  | some items =>
    rw [harr] at hbranch
    obtain ⟨v, hv, hitems⟩ := Option.bind_eq_some_iff.mp harr
    exact ((StepDef.bodySteps_depth h).trans (Value.depth_mem hitems hbranch)).trans
      (Value.depth_get hv)

theorem runParallel_congr (step : StepDef)
    (h : ∀ inner : StepDef, inner.params.depth < step.params.depth → run inner = run' inner) :
    runParallel host run step = runParallel host run' step := by
  have houtcomes : ∀ s, branchOutcomes host run s (branchSteps step) =
      branchOutcomes host run' s (branchSteps step) := by
    intro s
    unfold branchOutcomes
    apply List.ext_getElem
    · simp
    · intro i h₁ h₂
      have hi : i < (branchSteps step).length := by simpa using h₁
      have hsteps : ∀ idx last, runSteps host run (branchSteps step)[i] idx last =
          runSteps host run' (branchSteps step)[i] idx last :=
        runSteps_congr host fun inner hin =>
          h inner (mem_branchSteps_depth (List.getElem_mem hi) hin)
      simp only [List.getElem_mapIdx, runBranch, hsteps]
  funext s
  simp only [runParallel, joinBranches, houtcomes]

/-- The chosen body is one of the branches' `then` bodies. -/
theorem chooseBranch_depth {branches : List Value} {s s' : ExecutionState}
    {steps : List StepDef} {d : Nat} (hd : ∀ branch ∈ branches, branch.depth ≤ d)
    (h : chooseBranch branches s = .ok steps s') : ∀ inner ∈ steps, inner.params.depth < d := by
  induction branches generalizing s with
  | nil =>
    cases h
    exact fun inner hin => nomatch hin
  | cons branch rest ih =>
    rw [chooseBranch, Program.bind_ok] at h
    obtain ⟨matched, s₁, -, h⟩ := h
    cases matched with
    | true =>
      cases h
      exact fun inner hin =>
        (StepDef.bodySteps_get_depth hin).trans_le (hd branch List.mem_cons_self)
    | false => exact ih (fun b hb => hd b (List.mem_cons_of_mem _ hb)) h

theorem runIfs_congr (step : StepDef)
    (h : ∀ inner : StepDef, inner.params.depth < step.params.depth → run inner = run' inner) :
    runIfs host run step = runIfs host run' step := by
  unfold runIfs
  split
  · rfl
  · rename_i branches hbranches
    obtain ⟨v, hv, hitems⟩ := Option.bind_eq_some_iff.mp hbranches
    have hd : ∀ branch ∈ branches, branch.depth ≤ step.params.depth := fun branch hb =>
      ((Value.depth_mem hitems hb).trans (Value.depth_get hv)).le
    funext s
    simp only [bind, EStateM.bind]
    cases hchoose : chooseBranch branches s with
    | error e s' => rfl
    | ok steps s' =>
      simp only [runBlock_congr host fun inner hin => h inner (chooseBranch_depth hd hchoose inner hin)]

theorem runPasses_congr {steps : List StepDef} (h : ∀ inner ∈ steps, run inner = run' inner)
    (offset : Nat) (untilExpr collectExpr : Option String) (passes : Nat) (acc : Collected) :
    runPasses host run steps offset untilExpr collectExpr passes acc =
      runPasses host run' steps offset untilExpr collectExpr passes acc := by
  induction passes generalizing acc with
  | zero => rfl
  | succ n ih => simp only [runPasses, runSteps_congr host h, ih]

theorem runIteration_congr (step : StepDef) (idx : Nat) (name : String)
    (begins : Nat → Exec Int)
    (h : ∀ inner : StepDef, inner.params.depth < step.params.depth → run inner = run' inner) :
    runIteration host run step idx name begins = runIteration host run' step idx name begins := by
  have hsteps : ∀ inner ∈ StepDef.bodySteps (step.params.get "steps"), run inner = run' inner :=
    fun inner hin => h inner (StepDef.bodySteps_get_depth hin)
  have hpasses := fun offset u c passes acc => runPasses_congr host hsteps offset u c passes acc
  simp only [runIteration, hpasses]

theorem dispatchStep_congr (step : StepDef)
    (h : ∀ inner : StepDef, inner.params.depth < step.params.depth → run inner = run' inner) :
    dispatchStep host run step = dispatchStep host run' step := by
  funext idx
  unfold dispatchStep
  split
  · exact runIteration_congr host step idx _ _ h
  · exact runIteration_congr host step idx _ _ h
  · exact runIfs_congr host step h
  · rfl
  · exact runTry_congr host step h
  · exact runParallel_congr host step h
  · rfl

end Congruence

/-- Every counter above the depth of a step's parameters runs it alike. -/
theorem runStepTo_eq (host : Host) {n m : Nat} {step : StepDef} (hn : step.params.depth < n)
    (hm : step.params.depth < m) : runStepTo host n step = runStepTo host m step := by
  induction n generalizing m step with
  | zero => omega
  | succ n ih =>
    obtain ⟨m, rfl⟩ := Nat.exists_eq_succ_of_ne_zero (show m ≠ 0 by omega)
    funext idx
    have hdispatch : dispatchStep host (runStepTo host n) step =
        dispatchStep host (runStepTo host m) step :=
      dispatchStep_congr host step fun inner hin => ih (by omega) (by omega)
    simp only [runStepTo, hdispatch]

/-- `run_step`: dispatch on the type, inner steps being run the same way, then raise a
violation that ends the invocation. -/
theorem runStep_eq (host : Host) (step : StepDef) (idx : Nat) :
    runStep host step idx =
      dispatchStep host (runStep host) step idx >>= fun ok => raiseEscaping ok := by
  have hdispatch : dispatchStep host (runStepTo host step.params.depth) step =
      dispatchStep host (runStep host) step :=
    dispatchStep_congr host step fun inner hin => runStepTo_eq host hin (by omega)
  rw [runStep, runStepTo, hdispatch]

end Gwead
