import Gwead.RunCalls
import Gwead.StepCalls

/-!
# Every call that shows is reached

The calls a run shows are the calls it reaches: the events of the watched interpreter, taken apart
construct by construct, against the relation that says which call makes which.
-/

namespace Gwead

open Traced

/-- If the event is a call of `run_step`, it is one of `C`. -/
def RunEvent.Makes (C : StepDef → Nat → ExecutionState → Prop) : RunEvent → Prop
  | .dispatched step idx before => C step idx before
  | _ => True

variable {C : StepDef → Nat → ExecutionState → Prop}

theorem RunEvent.makes_of_not_dispatches {e : RunEvent} (h : e.dispatches = false) :
    e.Makes C := by
  cases e with
  | dispatched step idx before => cases h
  | _ => trivial

namespace Watched

section Stores

theorem storeEvents_makes (s : ExecutionState) (id : String) (v : Value) :
    ∀ e ∈ storeEvents s id v, e.Makes C := fun e he =>
  RunEvent.makes_of_not_dispatches ((storeEvents_trailing s id v).1.own e he).2.1

theorem endEvents_makes (idx : Nat) (s : ExecutionState) : ∀ e ∈ endEvents idx s, e.Makes C := by
  unfold endEvents
  split
  · exact List.forall_mem_nil _
  · split
    · exact List.forall_mem_nil _
    · exact storeEvents_makes _ _ _

theorem joinEvents_makes (ids : List String) (vars : IndexMap String Value)
    (outcomes : List (Option (BranchOutcome × List RunEvent))) (join : BranchJoin) :
    ∀ e ∈ joinEvents ids vars join outcomes, e.Makes C := by
  induction outcomes generalizing join with
  | nil => exact List.forall_mem_nil _
  | cons outcome rest ih =>
    cases outcome with
    | none => exact ih _
    | some branch =>
      refine List.forall_mem_append.mpr ⟨fun e he => ?_, ih _⟩
      exact RunEvent.makes_of_not_dispatches ((storesEvents_trailing _ _).1.own e he).2.1

theorem leafEvents_makes (host : Host) (step : StepDef) (idx : Nat) (s : ExecutionState) :
    ∀ e ∈ leafEvents host step idx s, e.Makes C := by
  unfold leafEvents
  split
  · exact List.forall_mem_nil _
  · exact fun e he => RunEvent.makes_of_not_dispatches
      ((dispatchTraitStep_trailing host _ s idx).1.own e he).2.1

theorem evalIfCondition_makes (text : String) (s : ExecutionState) :
    OnlyFrom (RunEvent.Makes C) (evalIfCondition text) s :=
  onlyFrom_observe (List.forall_mem_singleton.mpr trivial)

theorem chooseBranch_makes (branches : List Value) (s : ExecutionState) :
    OnlyFrom (RunEvent.Makes C) (chooseBranch branches) s := by
  induction branches generalizing s with
  | nil => exact onlyFrom_pure _
  | cons branch rest ih =>
    refine onlyFrom_bind ?_ fun matched s' _ => ?_
    · unfold branchMatches
      split
      · exact evalIfCondition_makes _ s
      · exact onlyFrom_pure _
    · split
      · exact onlyFrom_pure _
      · exact ih s'

end Stores

section Interpreter

variable {host : Host} {run : StepDef → Nat → Watch Bool} {run' : StepDef → Nat → Exec Bool}
  (hrun : ∀ step idx, erase (run step idx) = run' step idx)
include hrun

theorem runSteps_from_makes {all steps : List StepDef} {first idx : Nat} {last : Option Value}
    {s₀ s : ExecutionState} (hreach : StepsReach host run' all first s₀ steps idx s)
    (hcall : ∀ inner i t, StepsCall host run' all first s₀ inner i t →
      OnlyFrom (RunEvent.Makes C) (run inner i) t) :
    OnlyFrom (RunEvent.Makes C) (runSteps host run steps idx last) s := by
  induction steps generalizing idx last s with
  | nil => exact onlyFrom_pure _
  | cons inner rest ih =>
    refine onlyFrom_lift_bind fun _ s₁ hpoll => ?_
    obtain ⟨hfired, rfl⟩ := checkCancelled_ok hpoll
    refine onlyFrom_bind (hcall inner idx _ (.mk hreach hfired)) fun ok s₂ hran => ?_
    rw [hrun] at hran
    cases ok with
    | false => exact onlyFrom_lift_bind fun _ _ _ => onlyFrom_pure _
    | true =>
      refine onlyFrom_lift_bind fun t s₃ hget => ?_
      cases hget
      dsimp only
      split
      · exact onlyFrom_pure _
      · rename_i hsignal
        exact ih (.next hreach hfired hran (by simpa using hsignal))

theorem runBlock_makes {steps : List StepDef} {s : ExecutionState}
    (hcall : ∀ inner i t, BlockCall host run' steps s inner i t →
      OnlyFrom (RunEvent.Makes C) (run inner i) t) :
    OnlyFrom (RunEvent.Makes C) (runBlock host run steps) s := by
  unfold runBlock
  split
  · exact onlyFrom_pure _
  · exact onlyFrom_nested (runSteps_from_makes hrun .start hcall)

/-! ### `try` -/

variable {step : StepDef} {idx : Nat} {s : ExecutionState}

theorem runFinally_makes
    (hcall : s.returnSignal = none → ∀ inner i t,
      BlockCall host run' (StepDef.bodySteps (step.params.get "finally")) s inner i t →
        OnlyFrom (RunEvent.Makes C) (run inner i) t) :
    OnlyFrom (RunEvent.Makes C) (runFinally host run step) s := by
  refine onlyFrom_lift_bind fun returned t hreturned => ?_
  cases hreturned
  split
  · exact onlyFrom_pure _
  · rename_i hsignal
    refine onlyFrom_emit_bind (List.forall_mem_singleton.mpr trivial) ?_
    refine onlyFrom_bind (runBlock_makes hrun (hcall (by simpa using hsignal))) fun _ _ _ => ?_
    exact onlyFrom_pure _

theorem runCatch_makes
    (hcall : ∀ body inner i t, step.params.get "catch" = some body →
      BlockCall host run' (StepDef.bodySteps (some body)) (s.handling step) inner i t →
        OnlyFrom (RunEvent.Makes C) (run inner i) t) :
    OnlyFrom (RunEvent.Makes C) (runCatch host run step) s := by
  unfold runCatch
  cases hcatch : step.params.get "catch" with
  | none => exact onlyFrom_pure _
  | some body =>
    refine onlyFrom_emit_bind (List.forall_mem_singleton.mpr trivial) ?_
    dsimp only
    split
    · exact onlyFrom_lift_bind fun _ _ _ => onlyFrom_pure _
    · refine onlyFrom_bind (onlyFrom_nested (runBlock_makes hrun fun inner i t => ?_))
        fun _ _ _ => onlyFrom_pure _
      exact hcall body inner i t hcatch

theorem finishTry_makes {failed : Bool} {result : Option Value}
    (hcall : s.returnSignal = none → ∀ inner i t,
      BlockCall host run' (StepDef.bodySteps (step.params.get "finally")) s inner i t →
        OnlyFrom (RunEvent.Makes C) (run inner i) t) :
    OnlyFrom (RunEvent.Makes C) (finishTry host run step failed result) s := by
  refine onlyFrom_bind (runFinally_makes hrun hcall) fun finallyOk t _ => ?_
  split
  · exact onlyFrom_pure _
  · exact onlyFrom_bind (onlyFrom_observe (storeEvents_makes t _ _)) fun _ _ _ => onlyFrom_pure _

theorem runTry_makes (hkind : step.kind = .guarded)
    (hcall : ∀ pending inner i t, DirectCall host run' step idx s pending inner i t →
      OnlyFrom (RunEvent.Makes C) (run inner i) t) :
    OnlyFrom (RunEvent.Makes C) (runTry host run step) s := by
  have hcleanup : ∀ pending t, FinallyFrom host run' step s pending t → ∀ failed result,
      OnlyFrom (RunEvent.Makes C) (finishTry host run step failed result) t :=
    fun pending t hbefore failed result => finishTry_makes hrun fun hgo inner i u hmade =>
      hcall pending inner i u (.cleanup hkind hbefore hgo hmade)
  refine onlyFrom_bind (runBlock_makes hrun fun inner i t hmade =>
    hcall false inner i t (.tried hkind hmade)) fun block t hblock => ?_
  rw [erase_runBlock host hrun] at hblock
  obtain ⟨ended, lastTry⟩ := block
  have hended := runBlock_end hblock
  refine onlyFrom_lift_bind fun returned u hreturned => ?_
  cases hreturned
  split
  · exact onlyFrom_pure _
  · rename_i hsignal
    have hgo : t.returnSignal = none := by simpa using hsignal
    split
    · rename_i hfailed
      change ended = .failed at hfailed
      subst hfailed
      refine onlyFrom_bind (runCatch_makes hrun fun body inner i u hcatch hmade =>
        hcall false inner i u (.handler hkind hended hgo hcatch hmade)) fun caught u hcaught => ?_
      rw [erase_runCatch host hrun] at hcaught
      exact hcleanup _ u (.failed hended hgo (runCatch_end hcaught)) _ _
    · rename_i hfailed
      cases ended with
      | completed => exact hcleanup _ t (.succeeded hended hgo) _ _
      | returned =>
        obtain ⟨v, ⟨inner, i, w, -, -, hreturned⟩, rfl⟩ := hended
        exact absurd hreturned hsignal
      | failed => exact absurd rfl hfailed

/-! ### `parallel`, `ifs` and loops -/

theorem branchesEvents_makes {branches : List (List StepDef)}
    (hcall : ∀ slot steps inner i t, branches[slot]? = some steps →
      StepsCall host run' steps s.action.steps.length ((s.fork slot).spliceSteps steps) inner i t →
        OnlyFrom (RunEvent.Makes C) (run inner i) t) :
    ∀ e ∈ branchesEvents (branchOutcomes host run s branches), e.Makes C := by
  intro e he
  obtain ⟨es, hes, he⟩ := List.mem_flatten.mp he
  obtain ⟨outcome, houtcome, rfl⟩ := List.mem_map.mp hes
  unfold branchOutcomes at houtcome
  obtain ⟨slot, hslot, rfl⟩ := List.mem_mapIdx.mp houtcome
  have hsteps : OnlyFrom (RunEvent.Makes C)
      (runSteps host run branches[slot] s.action.steps.length none)
      ((s.fork slot).spliceSteps branches[slot]) :=
    runSteps_from_makes hrun .start fun inner i t =>
      hcall slot branches[slot] inner i t (List.getElem?_eq_getElem hslot)
  split at he
  · cases he
  · refine hsteps e ?_
    unfold runBranch at he
    rcases hran : runSteps host run branches[slot] s.action.steps.length none
      ((s.fork slot).spliceSteps branches[slot]) with ⟨⟨⟨ended, last⟩, s'⟩ | ⟨err, s'⟩, es⟩
    · simpa [hran] using he
    · simpa [hran] using he

theorem runParallel_makes (hkind : step.kind = .parallel)
    (hcall : ∀ pending inner i t, DirectCall host run' step idx s pending inner i t →
      OnlyFrom (RunEvent.Makes C) (run inner i) t) :
    OnlyFrom (RunEvent.Makes C) (runParallel host run step) s := by
  unfold OnlyFrom runParallel
  dsimp only
  split
  · exact storeEvents_makes s _ _
  · split
    · exact List.forall_mem_nil _
    · rename_i hwidth
      have hshown : ∀ e ∈ branchesEvents (branchOutcomes host run s (branchSteps step)),
          e.Makes C :=
        branchesEvents_makes hrun fun slot steps inner i t hslot hmade =>
          hcall false inner i t (.branch hkind hslot (Nat.le_of_not_lt hwidth) hmade)
      have hjoined := List.forall_mem_append.mpr ⟨hshown, joinEvents_makes s.stepResults.keys
        s.vars (branchOutcomes host run s (branchSteps step)) (emptyJoin s)⟩
      split
      · exact hshown
      · split
        · exact hjoined
        · exact List.forall_mem_append.mpr ⟨hjoined, storeEvents_makes _ _ _⟩

theorem runIfs_makes (hkind : step.kind = .ifs)
    (hcall : ∀ pending inner i t, DirectCall host run' step idx s pending inner i t →
      OnlyFrom (RunEvent.Makes C) (run inner i) t) :
    OnlyFrom (RunEvent.Makes C) (runIfs host run step) s := by
  unfold runIfs
  cases hbranches : (step.params.get "ifs").bind Value.asArray with
  | none => exact onlyFrom_pure _
  | some branches =>
    refine onlyFrom_bind (chooseBranch_makes branches s) fun steps t hchoose => ?_
    rw [erase_chooseBranch] at hchoose
    cases chooseBranch_ok hchoose
    refine onlyFrom_bind (runBlock_makes hrun fun inner i u hmade => ?_) fun _ _ _ =>
      onlyFrom_pure _
    exact hcall false inner i u (.chosen hkind hbranches hchoose hmade)

theorem runPasses_from_makes {steps : List StepDef} {offset n₀ n : Nat}
    {untilExpr collectExpr : Option String} {acc₀ acc : Collected} {s₀ : ExecutionState}
    (hreach : PassReach host run' steps offset untilExpr collectExpr n₀ acc₀ s₀ n acc s)
    (hcall : ∀ m c t t₁ inner i u,
      PassReach host run' steps offset untilExpr collectExpr n₀ acc₀ s₀ (m + 1) c t →
      hostNextForeach t = .ok true t₁ →
      StepsCall host run' steps offset (t₁.forget steps) inner i u →
        OnlyFrom (RunEvent.Makes C) (run inner i) u) :
    OnlyFrom (RunEvent.Makes C) (runPasses host run steps offset untilExpr collectExpr n acc) s := by
  induction n generalizing acc s with
  | zero => exact onlyFrom_lift_bind fun _ _ _ => onlyFrom_pure _
  | succ n ih =>
    refine onlyFrom_lift_bind fun more t hnext => ?_
    cases more with
    | false => exact onlyFrom_pure _
    | true =>
      simp only [if_true]
      refine onlyFrom_lift_bind fun _ t₁ hclear => ?_
      rw [clearResults_eq] at hclear
      cases hclear
      refine onlyFrom_bind (runSteps_from_makes hrun .start fun inner i u hmade =>
        hcall n acc s t inner i u hreach hnext hmade) fun block t₂ hsteps => ?_
      rw [erase_runSteps host hrun] at hsteps
      obtain ⟨ended, r⟩ := block
      have hended := runSteps_end hsteps
      cases ended with
      | failed => exact onlyFrom_pure _
      | returned => exact onlyFrom_pure _
      | completed =>
        refine onlyFrom_bind (onlyFrom_observe ?_) fun acc₂ t₃ hcollect => ?_
        · cases collectExpr with
          | none => exact List.forall_mem_nil _
          | some text => exact List.forall_mem_singleton.mpr trivial
        · change Gwead.collectValue collectExpr acc t₂ = .ok acc₂ t₃ at hcollect
          cases collectValue_ok hcollect
          refine onlyFrom_bind ?_ fun stop t₄ huntil => ?_
          · cases untilExpr with
            | none => exact onlyFrom_pure _
            | some text => exact evalIfCondition_makes text t₂
          · have hholds : Gwead.untilHolds untilExpr t₂ = .ok stop t₄ := by
              cases untilExpr with
              | none => exact huntil
              | some text => exact huntil
            cases untilHolds_ok hholds
            cases stop with
            | true => exact onlyFrom_pure _
            | false => exact ih (.next hreach hnext hended hcollect hholds)

theorem runIteration_makes {name : String} {begins : Nat → Exec Int}
    (hkind : step.kind = .forEach ∨ step.kind = .repetition) (hbegins : begins = beginOf host step)
    (huntil : (if name = "begin_repeat" then (step.params.get "until").bind Value.asStr else none) =
      untilOf step)
    (hcall : ∀ pending inner i t, DirectCall host run' step idx s pending inner i t →
      OnlyFrom (RunEvent.Makes C) (run inner i) t) :
    OnlyFrom (RunEvent.Makes C) (runIteration host run step idx name begins) s := by
  unfold runIteration
  rw [huntil, hbegins]
  refine onlyFrom_lift_bind fun count s₁ hbegin => ?_
  split
  · exact onlyFrom_lift
  · refine onlyFrom_lift_bind fun passes t hlength => ?_
    cases hlength
    refine onlyFrom_bind (onlyFrom_nested ?_) fun result t _ => ?_
    · split
      · rename_i hpos
        exact runPasses_from_makes hrun .start fun m c t t₁ inner i u hpass hnext hmade =>
          hcall false inner i u (.pass hkind hbegin hpos hpass hnext hmade)
      · exact onlyFrom_pure _
    · obtain ⟨ok, acc⟩ := result
      cases ok with
      | true =>
        refine onlyFrom_bind (onlyFrom_observe (endEvents_makes idx t)) fun _ u _ =>
          onlyFrom_bind ?_ fun _ _ _ => onlyFrom_pure _
        unfold storeCollected
        split
        · exact onlyFrom_observe (storeEvents_makes u _ _)
        · exact onlyFrom_pure _
      | false => exact onlyFrom_lift_bind fun _ _ _ => onlyFrom_pure _

/-- What dispatching a step calls, it calls directly. -/
theorem dispatchStep_makes
    (hcall : ∀ pending inner i t, DirectCall host run' step idx s pending inner i t →
      OnlyFrom (RunEvent.Makes C) (run inner i) t) :
    OnlyFrom (RunEvent.Makes C) (dispatchStep host run step idx) s := by
  unfold dispatchStep
  cases hkind : step.kind with
  | forEach =>
    exact runIteration_makes hrun (.inl hkind) (by simp [beginOf, hkind])
      (by simp [untilOf, hkind]) hcall
  | repetition =>
    exact runIteration_makes hrun (.inr hkind) (by simp [beginOf, hkind])
      (by simp [untilOf, hkind]) hcall
  | ifs => exact runIfs_makes hrun hkind hcall
  | returning =>
    refine onlyFrom_observe (List.forall_mem_append.mpr ⟨storeEvents_makes _ _ _, ?_⟩)
    exact List.forall_mem_singleton.mpr trivial
  | guarded => exact runTry_makes hrun hkind hcall
  | parallel => exact runParallel_makes hrun hkind hcall
  | leaf => exact onlyFrom_observe (leafEvents_makes host step idx s)

end Interpreter

/-- Every call that shows in a run of a step is reached. -/
theorem runStepTo_makes (host : Host) (depth : Nat) (step : StepDef) (idx : Nat)
    (s : ExecutionState) :
    OnlyFrom (RunEvent.Makes fun last j u => ∃ pending, Reaches host depth step idx s pending last j u)
      (runStepTo host depth step idx) s := by
  induction depth generalizing step idx s with
  | zero => exact onlyFrom_lift
  | succ depth ih =>
    refine onlyFrom_emit_bind (List.forall_mem_singleton.mpr ⟨false, .self⟩) ?_
    refine onlyFrom_bind (dispatchStep_makes (erase_runStepTo host depth)
      fun pending inner i t hmade e he => ?_) fun _ _ _ => onlyFrom_lift
    have hbelow := ih inner i t e he
    cases e with
    | dispatched last j u =>
      obtain ⟨below, hreaches⟩ := hbelow
      exact ⟨_, .inner hmade hreaches⟩
    | _ => trivial

end Watched

/-- A call that shows in the trace of a call of `run_step` is reached from it. -/
theorem runTrace_reaches {host : Host} {step last : StepDef} {idx j : Nat} {s u : ExecutionState}
    (h : .dispatched last j u ∈ runTrace host step idx s) :
    ∃ pending, Reaches host (step.params.depth + 1) step idx s pending last j u :=
  Watched.runStepTo_makes host _ step idx s _ h

end Gwead
