import Gwead.RunDepth

/-!
# The calls of a run

How far a list of steps, a loop and a step get, and which calls of `run_step` they make on the way.
A run that ends without an error is read off the calls it made; what every call keeps is kept by
the run.
-/

namespace Gwead

open Program

/-- The state after the token was polled. -/
def ExecutionState.ticked (s : ExecutionState) : ExecutionState := { s with clock := s.clock + 1 }

/-- The state without what some steps left. -/
def ExecutionState.forget (s : ExecutionState) (steps : List StepDef) : ExecutionState :=
  steps.foldl (fun s step => { s with
    stepResults := s.stepResults.shiftRemove step.id
    stepMetadata := s.stepMetadata.shiftRemove step.id }) s

theorem clearResults_eq (steps : List StepDef) (s : ExecutionState) :
    clearResults steps s = .ok ⟨⟩ (s.forget steps) := rfl

/-- The state in which the handlers of a failed step start. -/
def ExecutionState.handling (s : ExecutionState) (step : StepDef) : ExecutionState :=
  (s.pushError (s.lastError.getD ("step '" ++ step.id ++ "' failed"))).clearFailure

/-- How many items the innermost loop has. -/
def ExecutionState.loopLen (s : ExecutionState) : Nat :=
  ((s.foreachStack.head?).map (·.items.len)).getD 0

section Calls

variable (host : Host) (run : StepDef → Nat → Exec Bool)

/-- A list of steps is run up to what is left of it. -/
inductive StepsReach (steps : List StepDef) (idx : Nat) (s : ExecutionState) :
    List StepDef → Nat → ExecutionState → Prop
  | start : StepsReach steps idx s steps idx s
  | next {inner : StepDef} {rest : List StepDef} {i : Nat} {t t' : ExecutionState}
      (before : StepsReach steps idx s (inner :: rest) i t) (hpoll : host.cancelFired t = false)
      (hran : run inner i t.ticked = .ok true t') (hgo : t'.returnSignal = none) :
      StepsReach steps idx s rest (i + 1) t'

/-- A list of steps calls `run_step`. -/
inductive StepsCall (steps : List StepDef) (idx : Nat) (s : ExecutionState) :
    StepDef → Nat → ExecutionState → Prop
  | mk {inner : StepDef} {rest : List StepDef} {i : Nat} {t : ExecutionState}
      (before : StepsReach host run steps idx s (inner :: rest) i t)
      (hpoll : host.cancelFired t = false) : StepsCall steps idx s inner i t.ticked

/-- A list of steps ends without an error. -/
def StepsEnd (steps : List StepDef) (idx : Nat) (s : ExecutionState) (ended : BodyEnd)
    (s' : ExecutionState) : Prop :=
  match ended with
  | .completed => ∃ i, StepsReach host run steps idx s [] i s'
  | .returned => ∃ inner i t, StepsCall host run steps idx s inner i t ∧
      run inner i t = .ok true s' ∧ s'.returnSignal.isSome
  | .failed => ∃ inner i t, StepsCall host run steps idx s inner i t ∧
      run inner i t = .ok false s' ∧ s'.cancelled = false

/-- The calls of a list of steps appended to the action. -/
def BlockCall (steps : List StepDef) (s : ExecutionState) :
    StepDef → Nat → ExecutionState → Prop :=
  StepsCall host run steps s.action.steps.length (s.spliceSteps steps)

def BlockEnd (steps : List StepDef) (s : ExecutionState) (ended : BodyEnd) (s' : ExecutionState) :
    Prop :=
  ∃ t, StepsEnd host run steps s.action.steps.length (s.spliceSteps steps) ended t ∧
    s' = t.truncateSteps s.action.steps.length

/-! ### `try` -/

/-- What becomes of a failure: whether it propagates, and the state then. -/
inductive CatchEnd (step : StepDef) (s : ExecutionState) : Bool → ExecutionState → Prop
  | unhandled (hcatch : step.params.get "catch" = none) : CatchEnd step s true s
  | swallowed {body : Value} (hcatch : step.params.get "catch" = some body)
      (hempty : StepDef.bodySteps (some body) = []) : CatchEnd step s false s.clearFailure
  | handled {body : Value} {ended : BodyEnd} {t : ExecutionState}
      (hcatch : step.params.get "catch" = some body)
      (hblock : BlockEnd host run (StepDef.bodySteps (some body)) (s.handling step) ended t) :
      CatchEnd step s (ended = .failed) t.popError

/-- What a `try` step comes to before its `finally`: whether a failure is pending, and the state. -/
inductive FinallyFrom (step : StepDef) (s : ExecutionState) : Bool → ExecutionState → Prop
  | succeeded {t : ExecutionState}
      (hblock : BlockEnd host run (StepDef.bodySteps (step.params.get "try")) s .completed t)
      (hgo : t.returnSignal = none) : FinallyFrom step s false t
  | failed {t t' : ExecutionState} {pending : Bool}
      (hblock : BlockEnd host run (StepDef.bodySteps (step.params.get "try")) s .failed t)
      (hgo : t.returnSignal = none) (hcatch : CatchEnd host run step t pending t') :
      FinallyFrom step s pending t'

/-- `finally` ends well, or is skipped under a return signal. -/
inductive CleanupEnd (step : StepDef) (s : ExecutionState) : ExecutionState → Prop
  | skipped (hsignal : s.returnSignal.isSome) : CleanupEnd step s s
  | ended {ended : BodyEnd} {t : ExecutionState} (hgo : s.returnSignal = none)
      (hok : ended ≠ .failed)
      (hblock : BlockEnd host run (StepDef.bodySteps (step.params.get "finally")) s ended t) :
      CleanupEnd step s t

inductive TryEnd (step : StepDef) (s : ExecutionState) : Bool → ExecutionState → Prop
  | returned {ended : BodyEnd} {t : ExecutionState}
      (hblock : BlockEnd host run (StepDef.bodySteps (step.params.get "try")) s ended t)
      (hsignal : t.returnSignal.isSome) : TryEnd step s true t
  | superseded {pending : Bool} {t t' : ExecutionState}
      (hbefore : FinallyFrom host run step s pending t) (hgo : t.returnSignal = none)
      (hblock : BlockEnd host run (StepDef.bodySteps (step.params.get "finally")) t .failed t') :
      TryEnd step s false t'
  | unrecovered {t t' : ExecutionState} (hbefore : FinallyFrom host run step s true t)
      (hcleanup : CleanupEnd host run step t t') : TryEnd step s false t'
  | stored {t t' : ExecutionState} {v : Value} (hbefore : FinallyFrom host run step s false t)
      (hcleanup : CleanupEnd host run step t t') :
      TryEnd step s true (t'.storeStepResult step.id v)

/-! ### Loops -/

/-- A loop gets to the start of a pass, with so many passes left. -/
inductive PassReach (steps : List StepDef) (offset : Nat) (untilExpr collectExpr : Option String)
    (n : Nat) (acc : Collected) (s : ExecutionState) : Nat → Collected → ExecutionState → Prop
  | start : PassReach steps offset untilExpr collectExpr n acc s n acc s
  | next {m : Nat} {c c' : Collected} {t t₁ t' : ExecutionState}
      (before : PassReach steps offset untilExpr collectExpr n acc s (m + 1) c t)
      (hnext : hostNextForeach t = .ok true t₁)
      (hbody : StepsEnd host run steps offset (t₁.forget steps) .completed t')
      (hcollect : collectValue collectExpr c t' = .ok c' t')
      (huntil : untilHolds untilExpr t' = .ok false t') :
      PassReach steps offset untilExpr collectExpr n acc s m c' t'

/-- The passes of a loop end without an error: whether none failed, and the state then. -/
inductive PassesEnd (steps : List StepDef) (offset : Nat) (untilExpr collectExpr : Option String)
    (n : Nat) (acc : Collected) (s : ExecutionState) : Bool → ExecutionState → Prop
  | exhausted {m : Nat} {c : Collected} {t t' : ExecutionState} {more : Bool}
      (before : PassReach host run steps offset untilExpr collectExpr n acc s m c t)
      (hnext : hostNextForeach t = .ok more t') :
      PassesEnd steps offset untilExpr collectExpr n acc s true t'
  | broken {m : Nat} {c : Collected} {t t₁ t' : ExecutionState} {ended : BodyEnd}
      (before : PassReach host run steps offset untilExpr collectExpr n acc s (m + 1) c t)
      (hnext : hostNextForeach t = .ok true t₁)
      (hbody : StepsEnd host run steps offset (t₁.forget steps) ended t') :
      PassesEnd steps offset untilExpr collectExpr n acc s (ended ≠ .failed) t'

/-- The state after `end_foreach`. -/
def endForeach (idx : Nat) (s : ExecutionState) : ExecutionState :=
  match s.action.steps[idx]? with
  | none => s
  | some step =>
    match s.foreachStack with
    | [] => s
    | frame :: outer =>
      ({ s with foreachStack := outer }).storeStepResult step.id (.array frame.results)

/-- What a loop stores when it is over: its own results, and then what it collected. -/
def loopFinished (step : StepDef) (idx : Nat) (collected : Option (List Value))
    (s : ExecutionState) : ExecutionState :=
  match collected with
  | none => endForeach idx s
  | some values => (endForeach idx s).storeStepResult step.id (.array values)

/-- The body of a loop. -/
def loopBody (step : StepDef) : List StepDef := StepDef.bodySteps (step.params.get "steps")

/-- The passes of a loop that has begun, from the state its begin function left. -/
def LoopPass (step : StepDef) (untilExpr : Option String) (s : ExecutionState) :
    Nat → Collected → ExecutionState → Prop :=
  PassReach host run (loopBody step) s.action.steps.length untilExpr
    ((step.params.get "collect").bind Value.asStr) s.loopLen ⟨[], 0⟩ (s.spliceSteps (loopBody step))

def LoopPassesEnd (step : StepDef) (untilExpr : Option String) (s : ExecutionState) :
    Bool → ExecutionState → Prop :=
  PassesEnd host run (loopBody step) s.action.steps.length untilExpr
    ((step.params.get "collect").bind Value.asStr) s.loopLen ⟨[], 0⟩ (s.spliceSteps (loopBody step))

inductive LoopEnd (step : StepDef) (idx : Nat) (untilExpr : Option String) (begins : Nat → Exec Int)
    (s : ExecutionState) : Bool → ExecutionState → Prop
  | failed {count : Int} {s₁ t : ExecutionState} (hbegin : begins idx s = .ok count s₁)
      (hcount : 0 < count) (hpasses : LoopPassesEnd host run step untilExpr s₁ false t) :
      LoopEnd step idx untilExpr begins s false
        { t.truncateSteps s₁.action.steps.length with foreachStack := t.foreachStack.tail }
  | ended {count : Int} {s₁ t : ExecutionState} (collected : Option (List Value))
      (hbegin : begins idx s = .ok count s₁) (hcount : 0 < count)
      (hpasses : LoopPassesEnd host run step untilExpr s₁ true t) :
      LoopEnd step idx untilExpr begins s true
        (loopFinished step idx collected (t.truncateSteps s₁.action.steps.length))
  | empty {s₁ : ExecutionState} (collected : Option (List Value))
      (hbegin : begins idx s = .ok 0 s₁) :
      LoopEnd step idx untilExpr begins s true (loopFinished step idx collected s₁)

/-! ### `parallel` and `ifs` -/

inductive ParallelEnd (step : StepDef) (s : ExecutionState) : Bool → ExecutionState → Prop
  | empty (hempty : branchSteps step = []) :
      ParallelEnd step s true (s.storeStepResult step.id (.array []))
  | joined (hjoin : host.branchJoin s = none)
      (hwidth : (branchSteps step).length ≤ s.limits.maxParallelBranches)
      (herror : (joinBranches host run s (branchSteps step)).error = none) :
      ParallelEnd step s (!(joinBranches host run s (branchSteps step)).anyFailed)
        ((joinBranches host run s (branchSteps step)).state.storeStepResult step.id
          (.array (joinBranches host run s (branchSteps step)).results))

inductive IfsEnd (step : StepDef) (s : ExecutionState) : Bool → ExecutionState → Prop
  | absent (habsent : (step.params.get "ifs").bind Value.asArray = none) : IfsEnd step s true s
  | chosen {branches : List Value} {steps : List StepDef} {ended : BodyEnd} {t : ExecutionState}
      (hbranches : (step.params.get "ifs").bind Value.asArray = some branches)
      (hchoose : chooseBranch branches s = .ok steps s)
      (hblock : BlockEnd host run steps s ended t) : IfsEnd step s (ended ≠ .failed) t

/-! ### Leaf steps -/

/-- The state a body is run in, with the view of secrets that is in place. -/
def ExecutionState.entered (s : ExecutionState) (idx : Nat) (view : Option Value) :
    ExecutionState :=
  ExecutionState.resetMarkers { s with currentStepIdx := some idx, bodySecrets := view }

/-- How the dispatch of a leaf step ends; `own` is the step its index names. -/
inductive LeafEnd (idx : Nat) (s : ExecutionState) : Bool → ExecutionState → Prop
  | astray (hat : s.action.steps[idx]? = none) :
      LeafEnd idx s false { s with lastError := some ("Step index " ++ idx.repr ++ " out of bounds") }
  | uncredentialed {own : StepDef} (message : String) (hat : s.action.steps[idx]? = some own) :
      LeafEnd idx s false { s with currentStepIdx := none, lastError := some message }
  | succeeded {own : StepDef} {key : String} {body : StepBody} {view : Option Value}
      {output : StepOutput} {t : ExecutionState} (hat : s.action.steps[idx]? = some own)
      (hbody : host.bodies key = some body)
      (hran : runBody body own.params (s.entered idx view) = (.ok output, t)) :
      LeafEnd idx s true (bindVariable
        (addMetadata (t.storeStepResult own.id output.value) own.id output.metadata) own)
  | undeclared {own : StepDef} {key : String} {body : StepBody} {view : Option Value}
      {output : StepOutput} {t : ExecutionState} (message : String)
      (hat : s.action.steps[idx]? = some own) (hbody : host.bodies key = some body)
      (hran : runBody body own.params (s.entered idx view) = (.ok output, t)) :
      LeafEnd idx s false { t.storeStepResult own.id output.value with lastError := some message }
  | failed {own : StepDef} {key : String} {body : StepBody} {view : Option Value} {e : StepError}
      {t : ExecutionState} (hat : s.action.steps[idx]? = some own)
      (hbody : host.bodies key = some body)
      (hran : runBody body own.params (s.entered idx view) = (.error e, t)) :
      LeafEnd idx s false (finishError own t e)

/-! ### `run_step` -/

/-- The `until` of a step, which only a `repeat` has. -/
def untilOf (step : StepDef) : Option String :=
  if step.kind = .repetition then (step.params.get "until").bind Value.asStr else none

/-- How a loop of the step's kind begins. -/
def beginOf (step : StepDef) : Nat → Exec Int :=
  if step.kind = .repetition then hostBeginRepeat host else hostBeginForeach

/-- How a step ends without an error. -/
inductive StepEnd (step : StepDef) (idx : Nat) (s : ExecutionState) : Bool → ExecutionState → Prop
  | loop {ok : Bool} {t : ExecutionState} (hkind : step.kind = .forEach ∨ step.kind = .repetition)
      (h : LoopEnd host run step idx (untilOf step) (beginOf host step) s ok t) :
      StepEnd step idx s ok t
  | ifs {ok : Bool} {t : ExecutionState} (hkind : step.kind = .ifs)
      (h : IfsEnd host run step s ok t) : StepEnd step idx s ok t
  | returning (value : Value) (hkind : step.kind = .returning) :
      StepEnd step idx s true { s.storeStepResult step.id value with returnSignal := some value }
  | guarded {ok : Bool} {t : ExecutionState} (hkind : step.kind = .guarded)
      (h : TryEnd host run step s ok t) : StepEnd step idx s ok t
  | parallel {ok : Bool} {t : ExecutionState} (hkind : step.kind = .parallel)
      (h : ParallelEnd host run step s ok t) : StepEnd step idx s ok t
  | leaf {ok : Bool} {t : ExecutionState} (hkind : step.kind = .leaf) (h : LeafEnd host idx s ok t) :
      StepEnd step idx s ok t

/-- A step calls `run_step` itself, in a `finally` with a pending failure or not. -/
inductive DirectCall (step : StepDef) (idx : Nat) (s : ExecutionState) :
    Bool → StepDef → Nat → ExecutionState → Prop
  | tried {inner : StepDef} {i : Nat} {t : ExecutionState} (hkind : step.kind = .guarded)
      (hcall : BlockCall host run (StepDef.bodySteps (step.params.get "try")) s inner i t) :
      DirectCall step idx s false inner i t
  | handler {body : Value} {inner : StepDef} {i : Nat} {s₁ t : ExecutionState}
      (hkind : step.kind = .guarded)
      (hblock : BlockEnd host run (StepDef.bodySteps (step.params.get "try")) s .failed s₁)
      (hgo : s₁.returnSignal = none) (hcatch : step.params.get "catch" = some body)
      (hcall : BlockCall host run (StepDef.bodySteps (some body)) (s₁.handling step) inner i t) :
      DirectCall step idx s false inner i t
  | cleanup {pending : Bool} {inner : StepDef} {i : Nat} {s₁ t : ExecutionState}
      (hkind : step.kind = .guarded) (hbefore : FinallyFrom host run step s pending s₁)
      (hgo : s₁.returnSignal = none)
      (hcall : BlockCall host run (StepDef.bodySteps (step.params.get "finally")) s₁ inner i t) :
      DirectCall step idx s pending inner i t
  | chosen {branches : List Value} {steps : List StepDef} {inner : StepDef} {i : Nat}
      {t : ExecutionState} (hkind : step.kind = .ifs)
      (hbranches : (step.params.get "ifs").bind Value.asArray = some branches)
      (hchoose : chooseBranch branches s = .ok steps s)
      (hcall : BlockCall host run steps s inner i t) : DirectCall step idx s false inner i t
  | pass {count : Int} {m : Nat} {c : Collected} {inner : StepDef} {i : Nat}
      {s₁ t t₁ t₂ : ExecutionState} (hkind : step.kind = .forEach ∨ step.kind = .repetition)
      (hbegin : beginOf host step idx s = .ok count s₁) (hcount : 0 < count)
      (hpass : LoopPass host run step (untilOf step) s₁ (m + 1) c t)
      (hnext : hostNextForeach t = .ok true t₁)
      (hcall : StepsCall host run (loopBody step) s₁.action.steps.length
        (t₁.forget (loopBody step)) inner i t₂) : DirectCall step idx s false inner i t₂
  | branch {slot : Nat} {steps : List StepDef} {inner : StepDef} {i : Nat} {t : ExecutionState}
      (hkind : step.kind = .parallel) (hslot : (branchSteps step)[slot]? = some steps)
      (hwidth : (branchSteps step).length ≤ s.limits.maxParallelBranches)
      (hcall : StepsCall host run steps s.action.steps.length ((s.fork slot).spliceSteps steps)
        inner i t) : DirectCall step idx s false inner i t

end Calls

/-- A call of `run_step` makes another one, itself or through the calls it makes; the mark says
whether that one is inside a `finally` that runs with a failure pending. -/
inductive Reaches (host : Host) : Nat → StepDef → Nat → ExecutionState → Bool → StepDef → Nat →
    ExecutionState → Prop
  | self {depth : Nat} {step : StepDef} {idx : Nat} {s : ExecutionState} :
      Reaches host (depth + 1) step idx s false step idx s
  | inner {depth : Nat} {step inner last : StepDef} {idx i j : Nat} {s t u : ExecutionState}
      {pending below : Bool}
      (hcall : DirectCall host (runStepTo host depth) step idx s pending inner i t)
      (hbelow : Reaches host depth inner i t below last j u) :
      Reaches host (depth + 1) step idx s (pending || below) last j u

/-! ### A run without an error -/

section Ends

variable {host : Host} {run : StepDef → Nat → Exec Bool}

theorem checkCancelled_ok {id : String} {s s' : ExecutionState} {u : Unit}
    (h : checkCancelled host id s = .ok u s') : host.cancelFired s = false ∧ s' = s.ticked := by
  unfold checkCancelled at h
  dsimp only at h
  split at h
  · cases h
  · rename_i hfired
    cases h
    exact ⟨by simpa using hfired, rfl⟩

theorem escapeIfCancelled_ok {id : String} {s s' : ExecutionState} {u : Unit}
    (h : escapeIfCancelled id s = .ok u s') : s.cancelled = false ∧ s' = s := by
  unfold escapeIfCancelled at h
  split at h
  · cases h
  · rename_i hcancelled
    cases h
    exact ⟨by simpa using hcancelled, rfl⟩

theorem runSteps_from {all steps : List StepDef} {first idx : Nat} {last r : Option Value}
    {ended : BodyEnd} {s₀ s s' : ExecutionState}
    (hreach : StepsReach host run all first s₀ steps idx s)
    (h : runSteps host run steps idx last s = .ok (ended, r) s') :
    StepsEnd host run all first s₀ ended s' := by
  induction steps generalizing idx last s with
  | nil =>
    cases h
    exact ⟨idx, hreach⟩
  | cons inner rest ih =>
    obtain ⟨_, s₁, hpoll, hcalled⟩ := bind_ok.mp h
    obtain ⟨hfired, rfl⟩ := checkCancelled_ok hpoll
    obtain ⟨ok, s₂, hran, h⟩ := bind_ok.mp hcalled
    cases ok with
    | false =>
      simp only [Bool.false_eq_true, if_false] at h
      obtain ⟨_, s₃, hescape, hlast⟩ := bind_ok.mp h
      obtain ⟨hcancelled, rfl⟩ := escapeIfCancelled_ok hescape
      cases hlast
      exact ⟨inner, idx, _, .mk hreach hfired, hran, hcancelled⟩
    | true =>
      obtain ⟨t, s₃, hget, hrest⟩ := bind_ok.mp h
      cases hget
      by_cases hsignal : s₂.returnSignal.isSome
      · simp only [hsignal, if_true] at hrest
        cases hrest
        exact ⟨inner, idx, _, .mk hreach hfired, hran, hsignal⟩
      · simp only [hsignal, if_false, Bool.false_eq_true] at hrest
        exact ih (.next hreach hfired hran (by simpa using hsignal)) hrest

theorem runSteps_end {steps : List StepDef} {idx : Nat} {last r : Option Value} {ended : BodyEnd}
    {s s' : ExecutionState} (h : runSteps host run steps idx last s = .ok (ended, r) s') :
    StepsEnd host run steps idx s ended s' :=
  runSteps_from .start h

/-- Steps appended and cut off again leave nothing. -/
theorem truncate_splice_self (s : ExecutionState) (steps : List StepDef) :
    (s.spliceSteps steps).truncateSteps s.action.steps.length = s := by
  simp [ExecutionState.spliceSteps, ExecutionState.truncateSteps]

theorem runBlock_end {steps : List StepDef} {r : Option Value} {ended : BodyEnd}
    {s s' : ExecutionState} (h : runBlock host run steps s = .ok (ended, r) s') :
    BlockEnd host run steps s ended s' := by
  unfold runBlock at h
  split at h
  · rename_i hempty
    cases h
    rw [List.isEmpty_iff.mp hempty]
    exact ⟨s.spliceSteps [], ⟨_, .start⟩, (truncate_splice_self s []).symm⟩
  · unfold withSpliced at h
    dsimp only at h
    split at h
    · rename_i heq
      cases h
      exact ⟨_, runSteps_end heq, rfl⟩
    · cases h

theorem runCatch_end {step : StepDef} {failed : Bool} {r : Option Value} {s s' : ExecutionState}
    (h : runCatch host run step s = .ok (failed, r) s') : CatchEnd host run step s failed s' := by
  unfold runCatch at h
  cases hcatch : step.params.get "catch" with
  | none =>
    simp only [hcatch] at h
    cases h
    exact .unhandled hcatch
  | some body =>
    simp only [hcatch] at h
    split at h
    · rename_i hempty
      obtain ⟨_, s₁, hclear, h⟩ := bind_ok.mp h
      cases hclear
      cases h
      exact .swallowed hcatch (List.isEmpty_iff.mp hempty)
    · obtain ⟨⟨ended, last⟩, s₁, hhandlers, h⟩ := bind_ok.mp h
      cases h
      unfold runHandlers at hhandlers
      dsimp only at hhandlers
      split at hhandlers
      · rename_i heq
        cases hhandlers
        exact .handled hcatch (runBlock_end heq)
      · cases hhandlers

theorem runFinally_end {step : StepDef} {ok : Bool} {s s' : ExecutionState}
    (h : runFinally host run step s = .ok ok s') :
    ok = true ∧ CleanupEnd host run step s s' ∨ ok = false ∧ s.returnSignal = none ∧
      BlockEnd host run (StepDef.bodySteps (step.params.get "finally")) s .failed s' := by
  obtain ⟨returned, t, hreturned, h⟩ := bind_ok.mp h
  cases hreturned
  split at h
  · rename_i hsignal
    cases h
    exact Or.inl ⟨rfl, .skipped hsignal⟩
  · rename_i hsignal
    have hgo : s.returnSignal = none := by simpa using hsignal
    obtain ⟨⟨ended, r⟩, t, hblock, h⟩ := bind_ok.mp h
    cases h
    by_cases hfailed : ended = .failed
    · subst hfailed
      exact Or.inr ⟨by decide, hgo, runBlock_end hblock⟩
    · exact Or.inl ⟨by simpa using hfailed, .ended hgo hfailed (runBlock_end hblock)⟩

theorem finishTry_end {step : StepDef} {pending ok : Bool} {result : Option Value}
    {s₀ s s' : ExecutionState} (hbefore : FinallyFrom host run step s₀ pending s)
    (h : finishTry host run step pending result s = .ok ok s') :
    TryEnd host run step s₀ ok s' := by
  obtain ⟨fine, t, hfinally, h⟩ := bind_ok.mp h
  obtain ⟨rfl, hcleanup⟩ | ⟨rfl, hgo, hblock⟩ := runFinally_end hfinally
  · cases pending with
    | true =>
      cases h
      exact .unrecovered hbefore hcleanup
    | false =>
      obtain ⟨_, u, hstore, h⟩ := bind_ok.mp h
      cases hstore
      cases h
      exact .stored hbefore hcleanup
  · cases h
    exact .superseded hbefore hgo hblock

theorem runTry_end {step : StepDef} {ok : Bool} {s s' : ExecutionState}
    (h : runTry host run step s = .ok ok s') : TryEnd host run step s ok s' := by
  obtain ⟨⟨ended, lastTry⟩, s₁, hblock, hafter⟩ := bind_ok.mp h
  obtain ⟨returned, t, hreturned, hrest⟩ := bind_ok.mp hafter
  cases hreturned
  have hbody := runBlock_end hblock
  by_cases hsignal : s₁.returnSignal.isSome
  · simp only [hsignal, if_true] at hrest
    cases hrest
    exact .returned hbody hsignal
  · simp only [hsignal, if_false, Bool.false_eq_true] at hrest
    have hgo : s₁.returnSignal = none := by simpa using hsignal
    by_cases hfailed : ended = .failed
    · subst hfailed
      simp only [if_true] at hrest
      obtain ⟨⟨pending, lastCatch⟩, s₂, hcatch, hfinish⟩ := bind_ok.mp hrest
      exact finishTry_end (.failed hbody hgo (runCatch_end hcatch)) hfinish
    · simp only [hfailed, if_false] at hrest
      cases ended with
      | completed => exact finishTry_end (.succeeded hbody hgo) hrest
      | returned =>
        obtain ⟨u, ⟨inner, i, t, -, -, hreturned⟩, rfl⟩ := hbody
        exact absurd hreturned hsignal
      | failed => exact absurd rfl hfailed

theorem evalIfCondition_ok {text : String} {b : Bool} {s s' : ExecutionState}
    (h : evalIfCondition text s = .ok b s') : s' = s := by
  unfold evalIfCondition at h
  split at h
  · cases h
    rfl
  · cases h

theorem untilHolds_ok {text : Option String} {b : Bool} {s s' : ExecutionState}
    (h : untilHolds text s = .ok b s') : s' = s := by
  cases text with
  | none =>
    cases h
    rfl
  | some text => exact evalIfCondition_ok h

theorem collectValue_ok {text : Option String} {acc acc' : Collected} {s s' : ExecutionState}
    (h : collectValue text acc s = .ok acc' s') : s' = s := by
  cases text with
  | none =>
    cases h
    rfl
  | some text =>
    simp only [collectValue] at h
    cases hvalue : s.evalDslExpression text "collect" with
    | error e =>
      simp only [hvalue] at h
      cases h
    | ok v =>
      simp only [hvalue] at h
      by_cases hover : s.limits.maxStepResultsBytes <
          satAdd s.stepResultsBytes (satAdd acc.bytes (approxValueBytes v))
      · simp only [hover, if_true] at h
        cases h
      · simp only [hover, if_false] at h
        cases h
        rfl

theorem branchMatches_ok {branch : Value} {b : Bool} {s s' : ExecutionState}
    (h : branchMatches branch s = .ok b s') : s' = s := by
  unfold branchMatches at h
  cases htest : (branch.get "test").bind Value.asStr with
  | none =>
    simp only [htest] at h
    cases h
    rfl
  | some condition =>
    simp only [htest] at h
    exact evalIfCondition_ok h

theorem chooseBranch_ok {branches : List Value} {steps : List StepDef} {s s' : ExecutionState}
    (h : chooseBranch branches s = .ok steps s') : s' = s := by
  induction branches generalizing s with
  | nil =>
    cases h
    rfl
  | cons branch rest ih =>
    obtain ⟨matched, t, hmatched, hrest⟩ := bind_ok.mp h
    cases branchMatches_ok hmatched
    split at hrest
    · cases hrest
      rfl
    · exact ih hrest

theorem runIfs_end {step : StepDef} {ok : Bool} {s s' : ExecutionState}
    (h : runIfs host run step s = .ok ok s') : IfsEnd host run step s ok s' := by
  unfold runIfs at h
  cases hbranches : (step.params.get "ifs").bind Value.asArray with
  | none =>
    simp only [hbranches] at h
    cases h
    exact .absent hbranches
  | some branches =>
    simp only [hbranches] at h
    obtain ⟨steps, t, hchoose, hrest⟩ := bind_ok.mp h
    cases chooseBranch_ok hchoose
    obtain ⟨⟨ended, r⟩, u, hblock, hlast⟩ := bind_ok.mp hrest
    cases hlast
    exact .chosen hbranches hchoose (runBlock_end hblock)

theorem runPasses_from {steps : List StepDef} {offset n₀ n : Nat}
    {untilExpr collectExpr : Option String} {acc₀ acc acc' : Collected} {ok : Bool}
    {s₀ s s' : ExecutionState}
    (hreach : PassReach host run steps offset untilExpr collectExpr n₀ acc₀ s₀ n acc s)
    (h : runPasses host run steps offset untilExpr collectExpr n acc s = .ok (ok, acc') s') :
    PassesEnd host run steps offset untilExpr collectExpr n₀ acc₀ s₀ ok s' := by
  induction n generalizing acc s with
  | zero =>
    obtain ⟨more, t, hnext, hlast⟩ := bind_ok.mp h
    cases hlast
    exact .exhausted hreach hnext
  | succ n ih =>
    obtain ⟨more, t, hnext, hrest⟩ := bind_ok.mp h
    cases more with
    | false =>
      cases hrest
      exact .exhausted hreach hnext
    | true =>
      simp only [if_true] at hrest
      obtain ⟨_, t₁, hclear, hbody⟩ := bind_ok.mp hrest
      rw [clearResults_eq] at hclear
      cases hclear
      obtain ⟨⟨ended, r⟩, t₂, hsteps, hafter⟩ := bind_ok.mp hbody
      have hended := runSteps_end hsteps
      cases ended with
      | failed =>
        cases hafter
        exact .broken hreach hnext hended
      | returned =>
        cases hafter
        exact .broken hreach hnext hended
      | completed =>
        obtain ⟨acc₂, t₃, hcollect, huntil⟩ := bind_ok.mp hafter
        cases collectValue_ok hcollect
        obtain ⟨stop, t₄, hholds, hlast⟩ := bind_ok.mp huntil
        cases untilHolds_ok hholds
        cases stop with
        | true =>
          cases hlast
          exact .broken hreach hnext hended
        | false => exact ih (.next hreach hnext hended hcollect hholds) hlast

theorem hostEndForeach_eq (idx : Nat) (s : ExecutionState) :
    hostEndForeach idx s = .ok ⟨⟩ (endForeach idx s) := by
  unfold hostEndForeach endForeach
  cases s.action.steps[idx]? with
  | none => rfl
  | some step =>
    cases s.foreachStack with
    | nil => rfl
    | cons frame outer => rfl

theorem finishIteration_ok {step : StepDef} {idx : Nat} {collects ok : Bool} {acc : Collected}
    {s s' : ExecutionState} (h : finishIteration step idx collects acc s = .ok ok s') :
    ok = true ∧ ∃ collected, s' = loopFinished step idx collected s := by
  obtain ⟨_, t, hend, hrest⟩ := bind_ok.mp h
  rw [hostEndForeach_eq] at hend
  cases hend
  obtain ⟨_, u, hstore, hlast⟩ := bind_ok.mp hrest
  cases hlast
  refine ⟨rfl, ?_⟩
  unfold storeCollected at hstore
  split at hstore
  · cases hstore
    exact ⟨some acc.values, rfl⟩
  · cases hstore
    exact ⟨none, rfl⟩

theorem runIteration_end {step : StepDef} {idx : Nat} {name : String} {begins : Nat → Exec Int}
    {ok : Bool} {s s' : ExecutionState}
    (h : runIteration host run step idx name begins s = .ok ok s') :
    LoopEnd host run step idx
      (if name = "begin_repeat" then (step.params.get "until").bind Value.asStr else none) begins
      s ok s' := by
  obtain ⟨count, s₁, hbegin, hrest⟩ := bind_ok.mp h
  split at hrest
  · cases hrest
  · rename_i hcount
    obtain ⟨passes, t, hlength, hloop⟩ := bind_ok.mp hrest
    cases hlength
    obtain ⟨⟨fine, acc⟩, t, hspliced, hlast⟩ := bind_ok.mp hloop
    unfold withSpliced at hspliced
    dsimp only at hspliced
    by_cases hpos : 0 < count
    · simp only [hpos, if_true] at hspliced
      split at hspliced
      · rename_i heq
        cases hspliced
        have hpasses := runPasses_from .start heq
        cases fine with
        | true =>
          obtain ⟨rfl, collected, rfl⟩ := finishIteration_ok hlast
          exact .ended collected hbegin hpos hpasses
        | false =>
          cases hlast
          exact .failed hbegin hpos hpasses
      · cases hspliced
    · simp only [hpos, if_false] at hspliced
      cases hspliced
      have hzero : count = 0 := by omega
      subst hzero
      obtain ⟨rfl, collected, rfl⟩ := finishIteration_ok hlast
      rw [truncate_splice_self]
      exact .empty collected hbegin

/-- A loop that begins pushes a frame, unless its index names no step. -/
theorem beginOf_ok {step : StepDef} {idx : Nat} {count : Int} {s s' : ExecutionState}
    (h : beginOf host step idx s = .ok count s') (hcount : 0 ≤ count) :
    s.action.steps[idx]? = none ∧ count = 0 ∧ s' = s ∨ ∃ items, s' = s.pushLoop items := by
  unfold beginOf at h
  split at h
  · unfold hostBeginRepeat at h
    cases hat : s.action.steps[idx]? with
    | none =>
      simp only [hat] at h
      cases h
      exact Or.inl ⟨rfl, rfl, rfl⟩
    | some own =>
      simp only [hat] at h
      split at h
      · cases h
        omega
      · split at h
        · cases h
          omega
        · cases h
          exact Or.inr ⟨_, rfl⟩
  · unfold hostBeginForeach at h
    cases hat : s.action.steps[idx]? with
    | none =>
      simp only [hat] at h
      cases h
      exact Or.inl ⟨rfl, rfl, rfl⟩
    | some own =>
      simp only [hat] at h
      cases h
      exact Or.inr ⟨_, rfl⟩

theorem runParallel_end {step : StepDef} {ok : Bool} {s s' : ExecutionState}
    (h : runParallel host run step s = .ok ok s') : ParallelEnd host run step s ok s' := by
  unfold runParallel at h
  dsimp only at h
  split at h
  · rename_i hempty
    cases h
    exact .empty (List.isEmpty_iff.mp hempty)
  · split at h
    · cases h
    · rename_i hwidth
      split at h
      · cases h
      · rename_i hjoin
        split at h
        · cases h
        · rename_i herror
          cases h
          exact .joined hjoin (Nat.le_of_not_lt hwidth) herror

theorem dispatchWithSecrets_end {idx : Nat} {step : StepDef} {body : StepBody}
    {view : Option Value} {ok : Bool} {s s' : ExecutionState}
    {key : String} (hat : s.action.steps[idx]? = some step) (hbody : host.bodies key = some body)
    (h : dispatchWithSecrets host step body
      { s with currentStepIdx := some idx, bodySecrets := view } = (ok, s')) :
    LeafEnd host idx s ok s' := by
  unfold dispatchWithSecrets at h
  dsimp only at h
  rcases hran : runBody body step.params (s.entered idx view) with ⟨output | e, t⟩
  · unfold ExecutionState.entered at hran
    rw [hran] at h
    cases h
    exact .failed hat hbody hran
  · unfold ExecutionState.entered at hran
    rw [hran] at h
    dsimp only at h
    unfold finishOutput at h
    dsimp only at h
    split at h
    · cases h
      exact .undeclared _ hat hbody hran
    · cases h
      exact .succeeded hat hbody hran

theorem runLeaf_end {step : StepDef} {idx : Nat} {ok : Bool} {s s' : ExecutionState}
    (h : runLeaf host step idx s = .ok ok s') : LeafEnd host idx s ok s' := by
  unfold runLeaf at h
  split at h
  · cases h
  · split at h
    · cases h
    · rename_i body hbody
      have hran : dispatchTraitStep host body idx s = (ok, s') := by
        rcases hd : dispatchTraitStep host body idx s with ⟨ok', t⟩
        rw [hd] at h
        cases h
        rfl
      unfold dispatchTraitStep at hran
      cases hat : s.action.steps[idx]? with
      | none =>
        simp only [hat] at hran
        cases hran
        exact .astray hat
      | some own =>
        simp only [hat] at hran
        split at hran
        · cases hran
          exact .uncredentialed _ hat
        · exact dispatchWithSecrets_end hat hbody hran
        · exact dispatchWithSecrets_end hat hbody hran

theorem dispatchStep_end {step : StepDef} {idx : Nat} {ok : Bool} {s s' : ExecutionState}
    (h : dispatchStep host run step idx s = .ok ok s') : StepEnd host run step idx s ok s' := by
  unfold dispatchStep at h
  cases hkind : step.kind with
  | forEach =>
    rw [hkind] at h
    have hloop := runIteration_end h
    refine .loop (.inl hkind) ?_
    simpa [untilOf, beginOf, hkind] using hloop
  | repetition =>
    rw [hkind] at h
    have hloop := runIteration_end h
    refine .loop (.inr hkind) ?_
    simpa [untilOf, beginOf, hkind] using hloop
  | ifs =>
    rw [hkind] at h
    exact .ifs hkind (runIfs_end h)
  | returning =>
    rw [hkind] at h
    cases h
    exact .returning _ hkind
  | guarded =>
    rw [hkind] at h
    exact .guarded hkind (runTry_end h)
  | parallel =>
    rw [hkind] at h
    exact .parallel hkind (runParallel_end h)
  | leaf =>
    rw [hkind] at h
    exact .leaf hkind (runLeaf_end h)

/-- A call that answers was dispatched, and left no violation that ends the invocation. -/
theorem runStepTo_dispatched {depth : Nat} {step : StepDef} {idx : Nat} {ok : Bool}
    {s s' : ExecutionState} (h : runStepTo host (depth + 1) step idx s = .ok ok s') :
    dispatchStep host (runStepTo host depth) step idx s = .ok ok s' ∧
      escapingViolation s' = none := by
  obtain ⟨ok', t, hdispatch, hraise⟩ := bind_ok.mp h
  unfold raiseEscaping at hraise
  split at hraise
  · cases hraise
  · rename_i hviolation
    cases hraise
    exact ⟨hdispatch, hviolation⟩

/-- A call of `run_step` that returns ended as its step does, and no violation was left that ends
the invocation. -/
theorem runStepTo_end {depth : Nat} {step : StepDef} {idx : Nat} {ok : Bool}
    {s s' : ExecutionState} (h : runStepTo host (depth + 1) step idx s = .ok ok s') :
    StepEnd host (runStepTo host depth) step idx s ok s' ∧ escapingViolation s' = none := by
  obtain ⟨hdispatch, hviolation⟩ := runStepTo_dispatched h
  exact ⟨dispatchStep_end hdispatch, hviolation⟩

/-- A branch that ended without an error ended as its steps do. -/
theorem runBranch_end {s : ExecutionState} {slot : Nat} {steps : List StepDef}
    (h : (runBranch host run s slot steps).error = none) :
    ∃ ended, StepsEnd host run steps s.action.steps.length ((s.fork slot).spliceSteps steps) ended
        (runBranch host run s slot steps).state ∧
      (runBranch host run s slot steps).ok = decide (ended ≠ .failed) := by
  unfold runBranch at h ⊢
  dsimp only at h ⊢
  split at h
  · rename_i ended last t heq
    exact ⟨ended, runSteps_end heq, rfl⟩
  · cases h

end Ends

/-! ### What every call keeps -/

/-- A list of steps stands at the end of the action, from an index on. -/
structure Spliced (steps : List StepDef) (idx : Nat) (s : ExecutionState) : Prop where
  found : ∀ k, s.action.steps[idx + k]? = steps[k]?

theorem spliced_splice (s : ExecutionState) (steps : List StepDef) :
    Spliced steps s.action.steps.length (s.spliceSteps steps) :=
  ⟨fun k => by simp [ExecutionState.spliceSteps, List.getElem?_append_right]⟩

theorem Spliced.of_action {steps : List StepDef} {idx : Nat} {s t : ExecutionState}
    (h : Spliced steps idx s) (haction : t.action = s.action) : Spliced steps idx t :=
  ⟨fun k => by rw [haction, h.found]⟩

section Keeps

variable {host : Host} {run : StepDef → Nat → Exec Bool} {steps : List StepDef} {idx : Nat}
  {s : ExecutionState}

theorem StepsReach.mem {rest : List StepDef} {i : Nat} {t : ExecutionState}
    (h : StepsReach host run steps idx s rest i t) : ∀ inner ∈ rest, inner ∈ steps := by
  induction h with
  | start => exact fun _ h => h
  | next before _ _ _ ih => exact fun inner h => ih inner (List.mem_cons_of_mem _ h)

theorem StepsCall.mem {inner : StepDef} {i : Nat} {t : ExecutionState}
    (h : StepsCall host run steps idx s inner i t) : inner ∈ steps := by
  cases h with
  | mk before hpoll => exact before.mem inner List.mem_cons_self

/-- A leaf step calls no other. -/
theorem DirectCall.kind_ne {step inner : StepDef} {s t : ExecutionState} {pending : Bool} {i : Nat}
    (h : DirectCall host run step idx s pending inner i t) : step.kind ≠ .leaf := by
  cases h with
  | pass hkind => rcases hkind with hkind | hkind <;> simp [hkind]
  | tried hkind | handler hkind | cleanup hkind | chosen hkind | branch hkind => simp [hkind]

theorem StepsReach.position {rest : List StepDef} {i : Nat} {t : ExecutionState}
    (h : StepsReach host run steps idx s rest i t) :
    ∃ done, steps = done ++ rest ∧ i = idx + done.length := by
  induction h with
  | start => exact ⟨[], rfl, rfl⟩
  | @next inner rest i t t' _ _ _ _ ih =>
    obtain ⟨done, hsteps, hi⟩ := ih
    refine ⟨done ++ [inner], by simp [hsteps], ?_⟩
    simp only [List.length_append, List.length_singleton]
    omega

theorem StepsReach.action (hset : ∀ inner i, Respects SameSetting (run inner i))
    {rest : List StepDef} {i : Nat} {t : ExecutionState}
    (h : StepsReach host run steps idx s rest i t) : t.action = s.action := by
  induction h with
  | start => rfl
  | next _ _ hran _ ih => exact ((hset _ _).ok hran).action.trans ih

/-- Each step is called at the index it was appended at. -/
theorem StepsReach.located (hset : ∀ inner i, Respects SameSetting (run inner i))
    (hat : Spliced steps idx s) {inner : StepDef} {rest : List StepDef} {i : Nat}
    {t : ExecutionState} (h : StepsReach host run steps idx s (inner :: rest) i t) :
    t.action.steps[i]? = some inner ∧ inner ∈ steps := by
  obtain ⟨done, hsteps, rfl⟩ := h.position
  refine ⟨?_, by simp [hsteps]⟩
  rw [h.action hset, hat.found, hsteps]
  simp

/-- What polling and every step that succeeds without a return keep, a list of steps keeps. -/
theorem StepsReach.keeps {J : ExecutionState → Prop}
    (hset : ∀ inner i, Respects SameSetting (run inner i)) (hat : Spliced steps idx s)
    (htick : ∀ t, J t → J t.ticked)
    (hcall : ∀ inner ∈ steps, ∀ i t t', t.action.steps[i]? = some inner → J t →
      run inner i t = .ok true t' → t'.returnSignal = none → J t')
    (hstart : J s) {rest : List StepDef} {i : Nat} {t : ExecutionState}
    (h : StepsReach host run steps idx s rest i t) : J t := by
  induction h with
  | start => exact hstart
  | @next inner rest i t t' before _ hran hgo ih =>
    obtain ⟨hfound, hmem⟩ := before.located hset hat
    exact hcall inner hmem i t.ticked t' hfound (htick t ih) hran hgo

theorem StepsCall.located (hset : ∀ inner i, Respects SameSetting (run inner i))
    (hat : Spliced steps idx s) {inner : StepDef} {i : Nat} {t : ExecutionState}
    (h : StepsCall host run steps idx s inner i t) :
    t.action.steps[i]? = some inner ∧ inner ∈ steps := by
  cases h with
  | mk before hpoll => exact before.located hset hat

theorem StepsCall.keeps {J : ExecutionState → Prop}
    (hset : ∀ inner i, Respects SameSetting (run inner i)) (hat : Spliced steps idx s)
    (htick : ∀ t, J t → J t.ticked)
    (hcall : ∀ inner ∈ steps, ∀ i t t', t.action.steps[i]? = some inner → J t →
      run inner i t = .ok true t' → t'.returnSignal = none → J t')
    (hstart : J s) {inner : StepDef} {i : Nat} {t : ExecutionState}
    (h : StepsCall host run steps idx s inner i t) : J t := by
  cases h with
  | mk before hpoll => exact htick _ (before.keeps hset hat htick hcall hstart)

theorem StepsCall.action (hset : ∀ inner i, Respects SameSetting (run inner i)) {inner : StepDef}
    {i : Nat} {t : ExecutionState} (h : StepsCall host run steps idx s inner i t) :
    t.action = s.action := by
  cases h with
  | mk before hpoll => exact before.action hset

theorem StepsEnd.action (hset : ∀ inner i, Respects SameSetting (run inner i)) {ended : BodyEnd}
    {s' : ExecutionState} (h : StepsEnd host run steps idx s ended s') : s'.action = s.action := by
  cases ended with
  | completed =>
    obtain ⟨i, hreach⟩ := h
    exact hreach.action hset
  | returned =>
    obtain ⟨inner, i, t, hcall, hran, -⟩ := h
    exact ((hset inner i).ok hran).action.trans (hcall.action hset)
  | failed =>
    obtain ⟨inner, i, t, hcall, hran, -⟩ := h
    exact ((hset inner i).ok hran).action.trans (hcall.action hset)

/-- What polling and every step keep, however it answers, a list of steps keeps to its end. -/
theorem StepsEnd.keeps {J : ExecutionState → Prop}
    (hset : ∀ inner i, Respects SameSetting (run inner i)) (hat : Spliced steps idx s)
    (htick : ∀ t, J t → J t.ticked)
    (hcall : ∀ inner ∈ steps, ∀ i t ok t', t.action.steps[i]? = some inner → J t →
      run inner i t = .ok ok t' → J t')
    (hstart : J s) {ended : BodyEnd} {s' : ExecutionState}
    (h : StepsEnd host run steps idx s ended s') : J s' := by
  have hgoes := fun inner hin i t t' hfound hJ hran (_ : t'.returnSignal = none) =>
    hcall inner hin i t true t' hfound hJ hran
  cases ended with
  | completed =>
    obtain ⟨i, hreach⟩ := h
    exact hreach.keeps hset hat htick hgoes hstart
  | returned =>
    obtain ⟨inner, i, t, hmade, hran, -⟩ := h
    obtain ⟨hfound, hmem⟩ := hmade.located hset hat
    exact hcall inner hmem i t true s' hfound (hmade.keeps hset hat htick hgoes hstart) hran
  | failed =>
    obtain ⟨inner, i, t, hmade, hran, -⟩ := h
    obtain ⟨hfound, hmem⟩ := hmade.located hset hat
    exact hcall inner hmem i t false s' hfound (hmade.keeps hset hat htick hgoes hstart) hran

/-- The next item of a loop changes nothing but the innermost frame. -/
theorem hostNextForeach_ok {more : Bool} {s s' : ExecutionState}
    (h : hostNextForeach s = .ok more s') : s.foreachStack = [] ∧ more = false ∧ s' = s ∨
      ∃ frame frame' outer, s.foreachStack = frame :: outer ∧
        s' = { s with foreachStack := frame' :: outer } := by
  unfold hostNextForeach at h
  cases hstack : s.foreachStack with
  | nil =>
    simp only [hstack] at h
    cases h
    exact Or.inl ⟨rfl, rfl, rfl⟩
  | cons frame outer =>
    simp only [hstack] at h
    split at h
    · cases h
      exact Or.inr ⟨frame, _, outer, rfl, rfl⟩
    · cases h
      exact Or.inr ⟨frame, _, outer, rfl, rfl⟩

theorem action_hostNextForeach {more : Bool} {s s' : ExecutionState}
    (h : hostNextForeach s = .ok more s') : s'.action = s.action := by
  obtain ⟨-, -, rfl⟩ | ⟨frame, frame', outer, -, rfl⟩ := hostNextForeach_ok h <;> rfl

theorem action_forget (s : ExecutionState) (steps : List StepDef) :
    (s.forget steps).action = s.action := by
  unfold ExecutionState.forget
  induction steps generalizing s with
  | nil => rfl
  | cons step rest ih => rw [List.foldl_cons, ih]

section Passes

variable {untilExpr collectExpr : Option String} {n : Nat} {acc : Collected}

theorem PassReach.action (hset : ∀ inner i, Respects SameSetting (run inner i)) {m : Nat}
    {c : Collected} {t : ExecutionState}
    (h : PassReach host run steps idx untilExpr collectExpr n acc s m c t) :
    t.action = s.action := by
  induction h with
  | start => rfl
  | next _ hnext hbody _ _ ih =>
    rw [hbody.action hset, action_forget, action_hostNextForeach hnext, ih]

/-- What polling, the next item, clearing, and every step that succeeds without a return keep,
every pass keeps. -/
theorem PassReach.keeps {J : ExecutionState → Prop}
    (hset : ∀ inner i, Respects SameSetting (run inner i)) (hat : Spliced steps idx s)
    (htick : ∀ t, J t → J t.ticked)
    (hitem : ∀ t t' more, J t → hostNextForeach t = .ok more t' → J t')
    (hforget : ∀ t, J t → J (t.forget steps))
    (hcall : ∀ inner ∈ steps, ∀ i t t', t.action.steps[i]? = some inner → J t →
      run inner i t = .ok true t' → t'.returnSignal = none → J t')
    (hstart : J s) {m : Nat} {c : Collected} {t : ExecutionState}
    (h : PassReach host run steps idx untilExpr collectExpr n acc s m c t) : J t := by
  induction h with
  | start => exact hstart
  | next before hnext hbody _ _ ih =>
    have haction := before.action hset
    obtain ⟨i, hreach⟩ := hbody
    refine hreach.keeps hset (hat.of_action ?_) htick hcall (hforget _ (hitem _ _ _ ih hnext))
    rw [action_forget, action_hostNextForeach hnext, haction]

end Passes

section Passes

variable {untilExpr collectExpr : Option String} {n : Nat} {acc : Collected}

theorem PassesEnd.action (hset : ∀ inner i, Respects SameSetting (run inner i)) {ok : Bool}
    {s' : ExecutionState}
    (h : PassesEnd host run steps idx untilExpr collectExpr n acc s ok s') :
    s'.action = s.action := by
  cases h with
  | exhausted before hnext => rw [action_hostNextForeach hnext, before.action hset]
  | broken before hnext hbody =>
    rw [hbody.action hset, action_forget, action_hostNextForeach hnext, before.action hset]

/-- What polling, the next item, clearing, and every step keep, a loop keeps to its end. -/
theorem PassesEnd.keeps {J : ExecutionState → Prop}
    (hset : ∀ inner i, Respects SameSetting (run inner i)) (hat : Spliced steps idx s)
    (htick : ∀ t, J t → J t.ticked)
    (hitem : ∀ t t' more, J t → hostNextForeach t = .ok more t' → J t')
    (hforget : ∀ t, J t → J (t.forget steps))
    (hcall : ∀ inner ∈ steps, ∀ i t ok t', t.action.steps[i]? = some inner → J t →
      run inner i t = .ok ok t' → J t')
    (hstart : J s) {ok : Bool} {s' : ExecutionState}
    (h : PassesEnd host run steps idx untilExpr collectExpr n acc s ok s') : J s' := by
  have hgoes := fun inner hin i t t' hfound hJ hran (_ : t'.returnSignal = none) =>
    hcall inner hin i t true t' hfound hJ hran
  cases h with
  | exhausted before hnext =>
    exact hitem _ _ _ (before.keeps hset hat htick hitem hforget hgoes hstart) hnext
  | broken before hnext hbody =>
    have hJ := before.keeps hset hat htick hitem hforget hgoes hstart
    refine hbody.keeps hset (hat.of_action ?_) htick hcall (hforget _ (hitem _ _ _ hJ hnext))
    rw [action_forget, action_hostNextForeach hnext, before.action hset]

end Passes

/-- A join without an error joined only branches that ended without one. -/
theorem foldl_joinBranch_error {ids : List String} {vars : IndexMap String Value}
    {outcomes : List (Option BranchOutcome)} {join : BranchJoin}
    (h : (outcomes.foldl (joinBranch ids vars) join).error = none) :
    join.error = none ∧ ∀ b, some b ∈ outcomes → b.error = none := by
  induction outcomes generalizing join with
  | nil => exact ⟨h, fun b hb => by cases hb⟩
  | cons outcome rest ih =>
    obtain ⟨hjoin, hrest⟩ := ih h
    cases outcome with
    | none =>
      refine ⟨hjoin, fun b hb => hrest b ?_⟩
      simpa using hb
    | some branch =>
      have hor : join.error.or branch.error = none := hjoin
      rw [Option.or_eq_none_iff] at hor
      refine ⟨hor.1, fun b hb => ?_⟩
      rcases List.mem_cons.mp hb with hb | hb
      · cases hb
        exact hor.2
      · exact hrest b hb

/-- An invariant of the join of the branches, from each branch that ran on its own. -/
theorem joinBranches_keeps {P : BranchJoin → Prop} {branches : List (List StepDef)}
    (hstart : P ⟨s.ticked, [], false, none⟩)
    (hempty : ∀ join, P join → P { join with results := join.results ++ [.null] })
    (hbranch : ∀ join slot steps, branches[slot]? = some steps →
      (runBranch host run s slot steps).error = none → P join →
        P (joinBranch s.stepResults.keys s.vars join (some (runBranch host run s slot steps))))
    (herror : (joinBranches host run s branches).error = none) :
    P (joinBranches host run s branches) := by
  unfold joinBranches at herror ⊢
  have hnone := (foldl_joinBranch_error herror).2
  -- the outcomes are those of the branches, in their places
  have houtcomes : ∀ b, some b ∈ branchOutcomes host run s branches →
      ∃ slot steps, branches[slot]? = some steps ∧ b = runBranch host run s slot steps := by
    intro b hmem
    unfold branchOutcomes at hmem
    obtain ⟨slot, hslot, houtcome⟩ := List.mem_mapIdx.mp hmem
    split at houtcome
    · cases houtcome
    · cases houtcome
      exact ⟨slot, branches[slot], List.getElem?_eq_getElem hslot, rfl⟩
  clear herror
  generalize branchOutcomes host run s branches = outcomes at hnone houtcomes
  change P (outcomes.foldl _ (⟨s.ticked, [], false, none⟩ : BranchJoin))
  generalize (⟨s.ticked, [], false, none⟩ : BranchJoin) = join at hstart
  induction outcomes generalizing join with
  | nil => exact hstart
  | cons outcome rest ih =>
    refine ih (fun b hb => hnone b (List.mem_cons_of_mem _ hb))
      (fun b hb => houtcomes b (List.mem_cons_of_mem _ hb)) _ ?_
    cases outcome with
    | none => exact hempty join hstart
    | some b =>
      obtain ⟨slot, steps, hget, rfl⟩ := houtcomes b List.mem_cons_self
      exact hbranch join slot steps hget (hnone _ List.mem_cons_self) hstart

end Keeps

end Gwead
