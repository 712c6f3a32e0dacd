import Gwead.SchedulerCalls

/-!
# What a step leaves of its frame

A control-flow step appends its bodies to the action, pushes loops and errors, and a leaf opens the
secrets of its body's owner.  Whatever ends a body early, a step that answers has undone all of it;
so the steps appended and the stacks are there for exactly as long as a body runs, and the index a
step is called with names that step.
-/

namespace Gwead

open Program

/-- The part of a state that belongs to the steps under way. -/
structure Frame where
  steps : List StepDef
  loops : List ForEachState
  errors : List String
  view : Option Value
  cursor : Option Nat

def ExecutionState.frame (s : ExecutionState) : Frame :=
  ⟨s.action.steps, s.foreachStack, s.errorStack, s.bodySecrets, s.currentStepIdx⟩

/-- No body is running. -/
structure Idle (s : ExecutionState) : Prop where
  view : s.bodySecrets = none
  cursor : s.currentStepIdx = none

theorem Idle.of_frame {s t : ExecutionState} (h : Idle s) (hframe : t.frame = s.frame) : Idle t :=
  ⟨(congrArg Frame.view hframe).trans h.view, (congrArg Frame.cursor hframe).trans h.cursor⟩

namespace ExecutionState

@[simp] theorem frame_storeStepResult (s : ExecutionState) (id : String) (v : Value) :
    (s.storeStepResult id v).frame = s.frame := by
  obtain ⟨f, r, b, m, h⟩ := s.storeStepResult_eq id v
  rw [h]
  rfl

@[simp] theorem frame_storeStepResults (s : ExecutionState) (entries : List (String × Value)) :
    (s.storeStepResults entries).frame = s.frame := by
  unfold storeStepResults
  induction entries generalizing s with
  | nil => rfl
  | cons e rest ih => rw [List.foldl_cons, ih, frame_storeStepResult]

@[simp] theorem frame_setVariables (s : ExecutionState) (entries : List (String × Value)) :
    (s.setVariables entries).frame = s.frame := by
  unfold setVariables
  induction entries generalizing s with
  | nil => rfl
  | cons e rest ih =>
    rw [List.foldl_cons, ih]
    rfl

@[simp] theorem frame_forget (s : ExecutionState) (steps : List StepDef) :
    (s.forget steps).frame = s.frame := by
  unfold forget
  induction steps generalizing s with
  | nil => rfl
  | cons step rest ih =>
    rw [List.foldl_cons, ih]
    rfl

@[simp] theorem frame_ticked (s : ExecutionState) : s.ticked.frame = s.frame := rfl

@[simp] theorem frame_clearFailure (s : ExecutionState) : s.clearFailure.frame = s.frame := rfl

@[simp] theorem frame_fork (s : ExecutionState) (slot : Nat) : (s.fork slot).frame = s.frame := rfl

@[simp] theorem frame_merge (c task : ExecutionState) (takesFailure : Bool) (ids : List String)
    (vars : IndexMap String Value) :
    (mergeParallelBranchState c task takesFailure ids vars).frame = c.frame := by
  have hentries : ((mergeBranchEntries c task ids).setVariables (introduced vars task)).frame =
      c.frame := by
    rw [frame_setVariables]
    exact frame_storeStepResults c _
  cases takesFailure with
  | true => exact hentries
  | false => exact hentries

@[simp] theorem frame_addMetadata (s : ExecutionState) (id : String)
    (m : IndexMap String Value) : (addMetadata s id m).frame = s.frame := by
  unfold addMetadata
  split <;> rfl

@[simp] theorem frame_bindVariable (s : ExecutionState) (step : StepDef) :
    (bindVariable s step).frame = s.frame := by
  unfold bindVariable
  split <;> rfl

@[simp] theorem frame_finishError (s : ExecutionState) (step : StepDef) (e : StepError) :
    (finishError step s e).frame = s.frame := by
  cases e <;> rfl

/-- A body that ran is over. -/
theorem frame_runBody (body : StepBody) (params : Value) (s : ExecutionState) :
    (runBody body params s).2.frame = { s.frame with view := none, cursor := none } := by
  have hended := congrArg (fun f : Frame => { f with view := none, cursor := none })
    (s.frame_setVariables (body s params).sets)
  unfold runBody
  dsimp only
  split
  · exact hended
  · exact hended

/-- Cutting off what was appended leaves the steps there were. -/
theorem frame_truncateSteps {s : ExecutionState} {before steps : List StepDef}
    (h : s.action.steps = before ++ steps) :
    (s.truncateSteps before.length).frame = { s.frame with steps := before } := by
  simp [frame, truncateSteps, h]

/-- Steps appended and cut off again leave the frame as it was. -/
theorem frame_truncate {s t : ExecutionState} {steps : List StepDef}
    (h : t.frame = (s.spliceSteps steps).frame) :
    (t.truncateSteps s.action.steps.length).frame = s.frame := by
  have hsteps : t.action.steps = s.action.steps ++ steps := congrArg Frame.steps h
  rw [frame_truncateSteps hsteps, h]
  rfl

end ExecutionState

/-! ### Each construct -/

section Constructs

variable {host : Host} {run : StepDef → Nat → Exec Bool} {steps : List StepDef} {idx : Nat}
  {s s' : ExecutionState}

theorem LeafEnd.frame {ok : Bool} (hidle : Idle s) (h : LeafEnd host idx s ok s') :
    s'.frame = s.frame := by
  have hview := hidle.view
  have hcursor := hidle.cursor
  have hran : ∀ {own : StepDef} {body : StepBody} {view : Option Value}
      {out : Except StepError StepOutput} {t : ExecutionState},
      runBody body own.params (s.entered idx view) = (out, t) → t.frame = s.frame := by
    intro own body view out t hbody
    have ht := (s.entered idx view).frame_runBody body own.params
    rw [hbody] at ht
    refine ht.trans ?_
    simp [ExecutionState.frame, ExecutionState.entered, ExecutionState.resetMarkers, hview, hcursor]
  cases h with
  | astray hat => rfl
  | uncredentialed message hat => simp [ExecutionState.frame, hcursor]
  | succeeded hat _ hbody => simp [hran hbody]
  | undeclared message hat _ hbody =>
    exact (ExecutionState.frame_storeStepResult _ _ _).trans (hran hbody)
  | failed hat _ hbody => simp [hran hbody]

variable (hset : ∀ inner i, Respects SameSetting (run inner i))
  (hcall : ∀ inner i t ok t', t.action.steps[i]? = some inner → Idle t → run inner i t = .ok ok t' →
    t'.frame = t.frame)
include hset hcall

theorem StepsReach.frame (hat : Spliced steps idx s) (hidle : Idle s) {rest : List StepDef}
    {i : Nat} {t : ExecutionState} (h : StepsReach host run steps idx s rest i t) :
    t.frame = s.frame :=
  h.keeps (J := fun t => t.frame = s.frame) hset hat (fun _ ht => ht)
    (fun inner _ i t t' hfound ht hran _ =>
      (hcall inner i t true t' hfound (hidle.of_frame ht) hran).trans ht) rfl

theorem StepsCall.frame (hat : Spliced steps idx s) (hidle : Idle s) {inner : StepDef} {i : Nat}
    {t : ExecutionState} (h : StepsCall host run steps idx s inner i t) : t.frame = s.frame := by
  cases h with
  | mk before hpoll => exact before.frame hset hcall hat hidle

theorem StepsEnd.frame (hat : Spliced steps idx s) (hidle : Idle s) {ended : BodyEnd}
    (h : StepsEnd host run steps idx s ended s') : s'.frame = s.frame :=
  h.keeps (J := fun t => t.frame = s.frame) hset hat (fun _ ht => ht)
    (fun inner _ i t ok t' hfound ht hran =>
      (hcall inner i t ok t' hfound (hidle.of_frame ht) hran).trans ht) rfl

theorem BlockEnd.frame (hidle : Idle s) {ended : BodyEnd}
    (h : BlockEnd host run steps s ended s') : s'.frame = s.frame := by
  obtain ⟨t, hended, rfl⟩ := h
  have hframe := hended.frame hset hcall (spliced_splice s steps) ⟨hidle.view, hidle.cursor⟩
  exact ExecutionState.frame_truncate hframe

variable {step : StepDef}

theorem CatchEnd.frame (hidle : Idle s) {pending : Bool}
    (h : CatchEnd host run step s pending s') : s'.frame = s.frame := by
  cases h with
  | unhandled hcatch => rfl
  | swallowed hcatch hempty => rfl
  | handled hcatch hblock =>
    have hhandling : Idle (s.handling step) := ⟨hidle.view, hidle.cursor⟩
    have hhandled := hblock.frame hset hcall hhandling
    -- the message pushed for the handlers is the one popped after them
    have hpopped := congrArg (fun f : Frame => { f with errors := f.errors.tail }) hhandled
    exact hpopped

theorem FinallyFrom.frame (hidle : Idle s) {pending : Bool}
    (h : FinallyFrom host run step s pending s') : s'.frame = s.frame := by
  cases h with
  | succeeded hblock hgo => exact hblock.frame hset hcall hidle
  | failed hblock hgo hcatch =>
    have htried := hblock.frame hset hcall hidle
    exact (hcatch.frame hset hcall (hidle.of_frame htried)).trans htried

theorem CleanupEnd.frame (hidle : Idle s) (h : CleanupEnd host run step s s') :
    s'.frame = s.frame := by
  cases h with
  | skipped hsignal => rfl
  | ended hgo hok hblock => exact hblock.frame hset hcall hidle

theorem TryEnd.frame (hidle : Idle s) {ok : Bool} (h : TryEnd host run step s ok s') :
    s'.frame = s.frame := by
  cases h with
  | returned hblock hsignal => exact hblock.frame hset hcall hidle
  | superseded hbefore hgo hblock =>
    have hpending := hbefore.frame hset hcall hidle
    exact (hblock.frame hset hcall (hidle.of_frame hpending)).trans hpending
  | unrecovered hbefore hcleanup =>
    have hpending := hbefore.frame hset hcall hidle
    exact (hcleanup.frame hset hcall (hidle.of_frame hpending)).trans hpending
  | stored hbefore hcleanup =>
    have hpending := hbefore.frame hset hcall hidle
    rw [ExecutionState.frame_storeStepResult]
    exact (hcleanup.frame hset hcall (hidle.of_frame hpending)).trans hpending

theorem IfsEnd.frame (hidle : Idle s) {ok : Bool} (h : IfsEnd host run step s ok s') :
    s'.frame = s.frame := by
  cases h with
  | absent habsent => rfl
  | chosen hbranches hchoose hblock => exact hblock.frame hset hcall hidle

omit hset hcall in
theorem ParallelEnd.frame {ok : Bool} (h : ParallelEnd host run step s ok s') :
    s'.frame = s.frame := by
  cases h with
  | empty hempty => simp
  | joined hjoin hwidth herror =>
    rw [ExecutionState.frame_storeStepResult]
    refine joinBranches_keeps (P := fun join => join.state.frame = s.frame) rfl (fun _ h => h) ?_
      herror
    intro join slot steps _ _ hjoined
    exact (ExecutionState.frame_merge _ _ _ _ _).trans hjoined

/-! ### Loops -/

omit hset hcall in
/-- The next item stays within the innermost loop. -/
theorem frame_hostNextForeach {more : Bool} {frame : ForEachState} {outer : List ForEachState}
    {f : Frame} (hin : s.frame = { f with loops := frame :: outer })
    (h : hostNextForeach s = .ok more s') :
    ∃ frame', s'.frame = { f with loops := frame' :: outer } := by
  have hstack : s.foreachStack = frame :: outer := congrArg Frame.loops hin
  obtain ⟨hnil, -, -⟩ | ⟨old, new, below, hold, rfl⟩ := hostNextForeach_ok h
  · rw [hstack] at hnil
    cases hnil
  · rw [hstack] at hold
    cases hold
    exact ⟨new, congrArg (fun f : Frame => { f with loops := new :: outer }) hin⟩

/-- A loop keeps everything but the innermost frame, which is its own. -/
theorem PassReach.frame (hat : Spliced steps idx s) (hidle : Idle s) {frame : ForEachState}
    {outer : List ForEachState} (hin : s.foreachStack = frame :: outer)
    {untilExpr collectExpr : Option String} {n m : Nat} {acc c : Collected} {t : ExecutionState}
    (h : PassReach host run steps idx untilExpr collectExpr n acc s m c t) :
    ∃ frame', t.frame = { s.frame with loops := frame' :: outer } := by
  have hstart : s.frame = { s.frame with loops := frame :: outer } := by
    rw [← hin]
    rfl
  refine h.keeps (J := fun t => ∃ frame', t.frame = { s.frame with loops := frame' :: outer })
    hset hat (fun _ ht => ht) (fun t t' more ⟨frame', ht⟩ hnext => frame_hostNextForeach ht hnext)
    (fun t ⟨frame', ht⟩ => ⟨frame', by rw [ExecutionState.frame_forget, ht]⟩) ?_ ⟨frame, hstart⟩
  rintro inner - i t t' hfound ⟨frame', ht⟩ hran -
  have hidle' : Idle t := ⟨(congrArg Frame.view ht).trans hidle.view,
    (congrArg Frame.cursor ht).trans hidle.cursor⟩
  exact ⟨frame', (hcall inner i t true t' hfound hidle' hran).trans ht⟩

theorem PassesEnd.frame (hat : Spliced steps idx s) (hidle : Idle s) {frame : ForEachState}
    {outer : List ForEachState} (hin : s.foreachStack = frame :: outer)
    {untilExpr collectExpr : Option String} {n : Nat} {acc : Collected} {ok : Bool}
    (h : PassesEnd host run steps idx untilExpr collectExpr n acc s ok s') :
    ∃ frame', s'.frame = { s.frame with loops := frame' :: outer } := by
  have hstart : s.frame = { s.frame with loops := frame :: outer } := by
    rw [← hin]
    rfl
  refine h.keeps (J := fun t => ∃ frame', t.frame = { s.frame with loops := frame' :: outer })
    hset hat (fun _ ht => ht) (fun t t' more ⟨frame', ht⟩ hnext => frame_hostNextForeach ht hnext)
    (fun t ⟨frame', ht⟩ => ⟨frame', by rw [ExecutionState.frame_forget, ht]⟩) ?_ ⟨frame, hstart⟩
  rintro inner - i t ok t' hfound ⟨frame', ht⟩ hran
  have hidle' : Idle t := ⟨(congrArg Frame.view ht).trans hidle.view,
    (congrArg Frame.cursor ht).trans hidle.cursor⟩
  exact ⟨frame', (hcall inner i t ok t' hfound hidle' hran).trans ht⟩

omit hset hcall in
/-- A loop whose step stands at its index begins by pushing a frame. -/
theorem beginOf_pushes {count : Int} {own : StepDef} (hat : s.action.steps[idx]? = some own)
    (h : beginOf host step idx s = .ok count s') (hcount : 0 ≤ count) :
    ∃ items, s' = s.pushLoop items := by
  obtain ⟨hnone, -, -⟩ | hpushed := beginOf_ok h hcount
  · rw [hat] at hnone
    cases hnone
  · exact hpushed

omit hset hcall in
/-- A loop that is over has popped its frame. -/
theorem frame_loopFinished {own : StepDef} {frame : ForEachState} {outer : List ForEachState}
    (collected : Option (List Value)) (hat : s.action.steps[idx]? = some own)
    (hin : s.foreachStack = frame :: outer) :
    (loopFinished step idx collected s).frame = { s.frame with loops := outer } := by
  have hend : (endForeach idx s).frame = { s.frame with loops := outer } := by
    simp only [endForeach, hat, hin, ExecutionState.frame_storeStepResult]
    rfl
  unfold loopFinished
  cases collected with
  | none => exact hend
  | some values => rw [ExecutionState.frame_storeStepResult, hend]

/-- The passes of a loop leave its own frame on top of what was there. -/
theorem LoopPassesEnd.frame (hidle : Idle s) {items : ForEachItems} {untilExpr : Option String}
    {ok : Bool} {t : ExecutionState}
    (h : LoopPassesEnd host run step untilExpr (s.pushLoop items) ok t) :
    ∃ frame', (t.truncateSteps s.action.steps.length).frame =
      { s.frame with loops := frame' :: s.foreachStack } := by
  have hidle' : Idle ((s.pushLoop items).spliceSteps (loopBody step)) := ⟨hidle.view, hidle.cursor⟩
  obtain ⟨frame', ht⟩ := PassesEnd.frame hset hcall (spliced_splice (s.pushLoop items) _) hidle' rfl h
  refine ⟨frame', ?_⟩
  have hsteps : t.action.steps = s.action.steps ++ loopBody step := congrArg Frame.steps ht
  rw [ExecutionState.frame_truncateSteps hsteps, ht]
  rfl

theorem LoopEnd.frame (hat : s.action.steps[idx]? = some step) (hidle : Idle s)
    {untilExpr : Option String} {ok : Bool}
    (h : LoopEnd host run step idx untilExpr (beginOf host step) s ok s') : s'.frame = s.frame := by
  cases h with
  | failed hbegin hcount hpasses =>
    obtain ⟨items, rfl⟩ := beginOf_pushes hat hbegin (Int.le_of_lt hcount)
    obtain ⟨frame', ht⟩ := LoopPassesEnd.frame hset hcall hidle hpasses
    have hpopped := congrArg (fun f : Frame => { f with loops := f.loops.tail }) ht
    exact hpopped
  | @ended count s₁ t collected hbegin hcount hpasses =>
    obtain ⟨items, rfl⟩ := beginOf_pushes hat hbegin (Int.le_of_lt hcount)
    obtain ⟨frame', ht⟩ := LoopPassesEnd.frame hset hcall hidle hpasses
    have hsteps : (t.truncateSteps s.action.steps.length).action.steps = s.action.steps :=
      congrArg Frame.steps ht
    have hstack : (t.truncateSteps s.action.steps.length).foreachStack =
        frame' :: s.foreachStack := congrArg Frame.loops ht
    refine (frame_loopFinished collected (hsteps ▸ hat) hstack).trans ?_
    rw [ht]
    rfl
  | empty collected hbegin =>
    obtain ⟨items, rfl⟩ := beginOf_pushes hat hbegin (Int.le_refl 0)
    have hstack : (s.pushLoop items).foreachStack =
        ⟨items, none, 0, none, []⟩ :: s.foreachStack := rfl
    exact frame_loopFinished collected hat hstack

/-- Whatever a step that stands at its index does, it leaves the frame as it was. -/
theorem StepEnd.frame (hat : s.action.steps[idx]? = some step) (hidle : Idle s) {ok : Bool}
    (h : StepEnd host run step idx s ok s') : s'.frame = s.frame := by
  cases h with
  | loop hkind h => exact h.frame hset hcall hat hidle
  | ifs hkind h => exact h.frame hset hcall hidle
  | returning value hkind => exact s.frame_storeStepResult step.id value
  | guarded hkind h => exact h.frame hset hcall hidle
  | parallel hkind h => exact h.frame
  | leaf hkind h => exact h.frame hidle

end Constructs

/-- A call of `run_step` that answers leaves the frame as it found it. -/
theorem runStepTo_frame (host : Host) (depth : Nat) {step : StepDef} {idx : Nat}
    {s s' : ExecutionState} {ok : Bool} (hat : s.action.steps[idx]? = some step) (hidle : Idle s)
    (h : runStepTo host depth step idx s = .ok ok s') : s'.frame = s.frame := by
  induction depth generalizing step idx s s' ok with
  | zero => cases h
  | succ depth ih =>
    exact (runStepTo_end h).1.frame (sameSetting_preserved.runStepTo depth)
      (fun _ _ _ _ _ hfound hidle' hran => ih hfound hidle' hran) hat hidle

/-! ### Every call -/

/-- A call stands at its index, and no body is running when it is made. -/
structure Held (step : StepDef) (idx : Nat) (s : ExecutionState) : Prop where
  found : s.action.steps[idx]? = some step
  idle : Idle s

section Held

variable {host : Host} {run : StepDef → Nat → Exec Bool}
  (hset : ∀ inner i, Respects SameSetting (run inner i))
  (hcall : ∀ inner i t ok t', t.action.steps[i]? = some inner → Idle t → run inner i t = .ok ok t' →
    t'.frame = t.frame)
include hset hcall

theorem StepsCall.held {steps : List StepDef} {idx : Nat} {s : ExecutionState}
    (hat : Spliced steps idx s) (hidle : Idle s) {inner : StepDef} {i : Nat} {t : ExecutionState}
    (h : StepsCall host run steps idx s inner i t) : Held inner i t :=
  ⟨(h.located hset hat).1, hidle.of_frame (h.frame hset hcall hat hidle)⟩

theorem BlockCall.held {steps : List StepDef} {s : ExecutionState} (hidle : Idle s)
    {inner : StepDef} {i : Nat} {t : ExecutionState}
    (h : BlockCall host run steps s inner i t) : Held inner i t :=
  StepsCall.held hset hcall (spliced_splice s steps) ⟨hidle.view, hidle.cursor⟩ h

theorem DirectCall.held {step inner : StepDef} {idx i : Nat} {s t : ExecutionState}
    {pending : Bool} (hat : s.action.steps[idx]? = some step) (hidle : Idle s)
    (h : DirectCall host run step idx s pending inner i t) : Held inner i t := by
  cases h with
  | tried hkind hmade => exact BlockCall.held hset hcall hidle hmade
  | @handler body inner i s₁ t hkind hblock hgo hcatch hmade =>
    have htried := hidle.of_frame (hblock.frame hset hcall hidle)
    have hhandling : Idle (s₁.handling step) := ⟨htried.view, htried.cursor⟩
    exact BlockCall.held hset hcall hhandling hmade
  | cleanup hkind hbefore hgo hmade =>
    exact BlockCall.held hset hcall (hidle.of_frame (hbefore.frame hset hcall hidle)) hmade
  | chosen hkind hbranches hchoose hmade => exact BlockCall.held hset hcall hidle hmade
  | @pass count m c inner i s₁ t t₁ t₂ hkind hbegin hcount hpass hnext hmade =>
    obtain ⟨items, rfl⟩ := beginOf_pushes hat hbegin (Int.le_of_lt hcount)
    have hpushed : Idle ((s.pushLoop items).spliceSteps (loopBody step)) :=
      ⟨hidle.view, hidle.cursor⟩
    obtain ⟨frame', ht⟩ := PassReach.frame hset hcall (spliced_splice (s.pushLoop items) _) hpushed
      rfl hpass
    obtain ⟨frame'', ht₁⟩ := frame_hostNextForeach ht hnext
    have hframe : (t₁.forget (loopBody step)).frame = t₁.frame := t₁.frame_forget _
    have hsteps : (t₁.forget (loopBody step)).action.steps =
        (s.pushLoop items).action.steps ++ loopBody step :=
      congrArg Frame.steps (hframe.trans ht₁)
    have hspliced : Spliced (loopBody step) (s.pushLoop items).action.steps.length
        (t₁.forget (loopBody step)) :=
      ⟨fun k => by rw [hsteps]; simp [List.getElem?_append_right]⟩
    refine hmade.held hset hcall hspliced ⟨?_, ?_⟩
    · exact (congrArg Frame.view (hframe.trans ht₁)).trans hidle.view
    · exact (congrArg Frame.cursor (hframe.trans ht₁)).trans hidle.cursor
  | @branch slot steps inner i t hkind hslot hwidth hmade =>
    exact BlockCall.held hset hcall (s := s.fork slot) ⟨hidle.view, hidle.cursor⟩ hmade

end Held

/-- Every call below a call that stands at its index stands at its own. -/
theorem Reaches.held {host : Host} {depth : Nat} {step last : StepDef} {idx j : Nat}
    {s u : ExecutionState} {pending : Bool} (hat : s.action.steps[idx]? = some step)
    (hidle : Idle s) (h : Reaches host depth step idx s pending last j u) : Held last j u := by
  induction h with
  | self => exact ⟨hat, hidle⟩
  | @inner depth step inner last idx i j s t u pending below hcall hbelow ih =>
    have hmade := hcall.held (sameSetting_preserved.runStepTo depth)
      (fun _ _ _ _ _ hfound hidle' hran => runStepTo_frame host depth hfound hidle' hran) hat hidle
    exact ih hmade.found hmade.idle

@[simp] theorem ExecutionState.frame_mergeTaskState (c t : ExecutionState) (id : String)
    (baseline : IndexMap String Value) : (mergeTaskState c t id baseline).frame = c.frame := by
  have hentry : (mergeStepEntry c t id).frame = c.frame := by
    unfold mergeStepEntry
    dsimp only
    cases t.stepMetadata.get? id <;> cases t.stepResults.get? id <;>
      first | rfl | exact c.frame_storeStepResult id _
  exact ((mergeStepEntry c t id).frame_setVariables (introduced baseline t)).trans hentry

section Runs

variable {host : Host} {action : Action} {plan : DagPlan} {start : ExecutionState}

theorem Action.getElem?_stepAt {idx : Nat} (h : idx < action.steps.length) :
    action.steps[idx]? = some (action.stepAt idx) := by
  rw [Action.stepAt, List.getD_eq_getElem _ _ h, List.getElem?_eq_getElem h]

theorem held_of_frame (haction : start.action = action) (hidle : Idle start) {s : ExecutionState}
    (hframe : s.frame = start.frame) {idx : Nat} (hidx : idx < action.steps.length) :
    Held (action.stepAt idx) idx s := by
  have hsteps : s.action.steps = start.action.steps := congrArg Frame.steps hframe
  refine ⟨?_, hidle.of_frame hframe⟩
  rw [hsteps, haction]
  exact Action.getElem?_stepAt hidx

/-- Between its calls the wave loop has the frame it started with. -/
theorem waveKeeps_frame (haction : start.action = action) (hidle : Idle start) :
    WaveKeeps host action fun s => s.frame = start.frame where
  tick s h := h
  fork s slot h := h
  overrides s overrides h := h
  ran idx hidx s s' h hran _ := by
    have hheld := held_of_frame haction hidle h hidx
    exact (runStepTo_frame host _ hheld.found hheld.idle hran).trans h
  merged c t id baseline hc _ _ := (c.frame_mergeTaskState t id baseline).trans hc

theorem frame_mergedState (es : List PipelineEvent) :
    (mergedState action start es).frame = start.frame := by
  unfold mergedState
  generalize start.vars = baseline
  induction es generalizing start with
  | nil => rfl
  | cons e rest ih =>
    rw [List.foldl_cons, ih]
    cases e with
    | joined task result report => exact start.frame_mergeTaskState _ _ _
    | _ => rfl

/-- Each step of a run is called at its own index, with no step under way. -/
theorem RunCalls.held (hplan : buildPlan action = .ok plan) (haction : start.action = action)
    (hidle : Idle start) {pending : Bool} {step : StepDef} {idx : Nat} {before : ExecutionState}
    (hcall : RunCalls host action plan start pending step idx before) : Held step idx before := by
  have hvalid := buildPlan_valid hplan
  cases hcall with
  | wave hd h =>
    have hrecorded := (waveKeeps_frame haction hidle).recorded hvalid rfl _ hd
    have htop := held_of_frame haction hidle hrecorded.before hrecorded.idx_lt
    exact h.held htop.found htop.idle
  | @dataflow listened token fanout es c i idx fork before pending step hrun hspawned h =>
    obtain ⟨pre, post, hes⟩ := List.append_of_mem hspawned
    obtain ⟨t, t', hpre, hstep, -⟩ := hrun.split hes
    have hscheduled := scheduled_of_run hvalid hpre
    have hmove := hstep.move host action plan
    have hfork : fork.frame = start.frame := by
      rw [(hscheduled.spawnedInTime hvalid hmove).fork_eq]
      exact frame_mergedState pre
    have htop := held_of_frame haction hidle hfork (hscheduled.spawned_lt hmove)
    exact h.held htop.found htop.idle

/-- In every run of an action, each step is called at its own index, and a call that answers leaves
the steps, the loops, the errors and the view of secrets as they were, with no step under way. -/
theorem run_frame_restored (host : Host) {action : Action} {plan : DagPlan}
    (hplan : buildPlan action = .ok plan) {start : ExecutionState} (haction : start.action = action)
    (hidle : Idle start) {pending : Bool} {step : StepDef} {idx : Nat} {before : ExecutionState}
    (hcall : RunCalls host action plan start pending step idx before) :
    before.action.steps[idx]? = some step ∧
      ∀ ok after, runStep host step idx before = .ok ok after →
        after.action.steps = before.action.steps ∧ after.foreachStack = before.foreachStack ∧
          after.errorStack = before.errorStack ∧ after.bodySecrets = before.bodySecrets ∧
          after.currentStepIdx = none := by
  have hheld := hcall.held hplan haction hidle
  refine ⟨hheld.found, fun ok after hran => ?_⟩
  have hframe := runStepTo_frame host _ hheld.found hheld.idle hran
  exact ⟨congrArg Frame.steps hframe, congrArg Frame.loops hframe, congrArg Frame.errors hframe,
    congrArg Frame.view hframe, (congrArg Frame.cursor hframe).trans hheld.idle.cursor⟩

end Runs

/-- A loop over the input's items whose body is a `try` with a `finally`. -/
def guardedLoop : Action :=
  Action.ofSteps [.new "loop" "for_each" (.object [
    ("path", .string "$input.items"),
    ("steps", .array [.object [("id", .string "guard"), ("type", .string "try"),
      ("params", .object [
        ("try", .array [.object [("id", .string "work"), ("type", .string "throw_error")]]),
        ("catch", .array []),
        ("finally", .array [.object [("id", .string "close"), ("type", .string "let")]])])]])])]

def guardedPlan : DagPlan := ⟨[[0]], [[]], [[]]⟩

def guardedState : ExecutionState :=
  .new "demo" guardedLoop (.object [("items", .array [.null, .null])]) .null .null none ⟨1000000, 64⟩

/-- The loop is called at its index, and what it pushed and appended is gone when it answers. -/
theorem run_frame_restored_guarded : ∃ idx before after,
    RunCalls (quietHost Binary64.display) guardedLoop guardedPlan guardedState false
      (guardedLoop.stepAt idx) idx before ∧
    runStep (quietHost Binary64.display) (guardedLoop.stepAt idx) idx before = .ok true after ∧
    before.action.steps[idx]? = some (guardedLoop.stepAt idx) ∧
    after.action.steps = before.action.steps ∧ after.foreachStack = before.foreachStack ∧
    after.errorStack = before.errorStack ∧ after.bodySecrets = before.bodySecrets ∧
    after.currentStepIdx = none := by
  have hrecorded : ((runWaves (quietHost Binary64.display) guardedLoop guardedPlan
      guardedState).1.dispatched.head?.map fun d =>
        match runStep (quietHost Binary64.display) (guardedLoop.stepAt d.idx) d.idx d.before with
        | .ok true _ => true
        | _ => false) = some true := by decide +kernel
  obtain ⟨d, hd, hran⟩ := Option.map_eq_some_iff.mp hrecorded
  have hcall : RunCalls (quietHost Binary64.display) guardedLoop guardedPlan guardedState false
      (guardedLoop.stepAt d.idx) d.idx d.before := .wave (List.mem_of_head? hd) .self
  have hplan : buildPlan guardedLoop = .ok guardedPlan := by decide +kernel
  have hframe := run_frame_restored (quietHost Binary64.display) hplan rfl ⟨rfl, rfl⟩ hcall
  cases hrun : runStep (quietHost Binary64.display) (guardedLoop.stepAt d.idx) d.idx d.before with
  | error e s' =>
    rw [hrun] at hran
    cases hran
  | ok ok s' =>
    rw [hrun] at hran
    cases ok with
    | false => cases hran
    | true => exact ⟨d.idx, d.before, s', hcall, hrun, hframe.1, hframe.2 true s' hrun⟩

end Gwead
