import Gwead.SchedulerCalls

/-!
# Failure markers between steps

A failing step leaves its failure in five fields of the state, and nothing but a handler, a swallow
or the end of the run takes them out again.  Between steps that succeed they are empty: a call of
`run_step` finds a failure recorded only inside a `finally` that runs with one pending.  The one gap
is a `try` whose block fails while a return is under way: it reports success with the failure still
recorded, and the dataflow scheduler, which does not stop on a return, goes on from there.
-/

namespace Gwead

open Program

/-- What a failure leaves in the state. -/
structure Markers where
  lastError : Option String
  pluginError : Option PluginErrorPayload
  calleeError : Option CalleeError
  violation : Option ResourceViolation
  cancelled : Bool

def ExecutionState.markers (s : ExecutionState) : Markers :=
  ⟨s.lastError, s.pluginError, s.calleeError, s.resourceViolation, s.cancelled⟩

/-- No failure is recorded. -/
def Clean (s : ExecutionState) : Prop := s.markers = ⟨none, none, none, none, false⟩

/-- A body that succeeds records no violation. -/
def Host.FailsByAnswer (host : Host) : Prop :=
  ∀ key body s params output, host.bodies key = some body →
    (body s params).outcome = .ok output → (body s params).cap = none

/-- No failure is recorded, unless failures may be left under a return signal and there is one. -/
def Settled (strict : Prop) (s : ExecutionState) : Prop :=
  Clean s ∨ ¬strict ∧ s.returnSignal.isSome

namespace ExecutionState

theorem markers_storeStepResult {s : ExecutionState} {id : String} {v : Value}
    (h : ¬Escaping (s.storeStepResult id v)) : (s.storeStepResult id v).markers = s.markers := by
  unfold storeStepResult at h ⊢
  dsimp only at h ⊢
  split
  · rename_i hover
    rw [if_pos hover] at h
    exact absurd rfl h
  · rfl

theorem markers_storeStepResults {s : ExecutionState} {entries : List (String × Value)}
    (h : ¬Escaping (s.storeStepResults entries)) :
    (s.storeStepResults entries).markers = s.markers := by
  unfold storeStepResults at h ⊢
  induction entries generalizing s with
  | nil => rfl
  | cons e rest ih =>
    rw [List.foldl_cons] at h ⊢
    rw [ih h]
    exact markers_storeStepResult fun hone => h (hone.storeAll rest)

@[simp] theorem markers_setVariables (s : ExecutionState) (entries : List (String × Value)) :
    (s.setVariables entries).markers = s.markers := by
  unfold setVariables
  induction entries generalizing s with
  | nil => rfl
  | cons e rest ih =>
    rw [List.foldl_cons, ih]
    rfl

@[simp] theorem markers_forget (s : ExecutionState) (steps : List StepDef) :
    (s.forget steps).markers = s.markers := by
  unfold forget
  induction steps generalizing s with
  | nil => rfl
  | cons step rest ih =>
    rw [List.foldl_cons, ih]
    rfl

@[simp] theorem markers_addMetadata (s : ExecutionState) (id : String)
    (m : IndexMap String Value) : (addMetadata s id m).markers = s.markers := by
  unfold addMetadata
  split <;> rfl

@[simp] theorem markers_bindVariable (s : ExecutionState) (step : StepDef) :
    (bindVariable s step).markers = s.markers := by
  unfold bindVariable
  split <;> rfl

/-- A body that hits no cap records nothing itself. -/
theorem markers_runBody {body : StepBody} {params : Value} {s : ExecutionState}
    (h : (body s params).cap = none) : (runBody body params s).2.markers = s.markers := by
  simp only [runBody, h]
  exact s.markers_setVariables _

/-- What comes out of a branch that succeeded: at most its violation. -/
theorem markers_merge {c task : ExecutionState} {ids : List String}
    {vars : IndexMap String Value}
    (h : ¬Escaping (mergeParallelBranchState c task false ids vars)) :
    (mergeParallelBranchState c task false ids vars).markers =
      { c.markers with violation := c.resourceViolation.or task.resourceViolation } := by
  have hstores := markers_storeStepResults fun hstore => h (merge_escaping _ _ _ _ _ hstore)
  have hentries : ((mergeBranchEntries c task ids).setVariables (introduced vars task)).markers =
      c.markers := ((mergeBranchEntries c task ids).markers_setVariables _).trans hstores
  exact congrArg (fun m : Markers =>
    { m with violation := m.violation.or task.resourceViolation }) hentries

end ExecutionState

theorem Clean.of_markers {s t : ExecutionState} (h : Clean s) (hmarkers : t.markers = s.markers) :
    Clean t := hmarkers.trans h

theorem Clean.violation {s : ExecutionState} (h : Clean s) : s.resourceViolation = none :=
  congrArg Markers.violation h

/-- A failure that did not stop on the token leaves nothing once it is cleared. -/
theorem clean_clearFailure {s : ExecutionState} (h : s.cancelled = false) : Clean s.clearFailure := by
  simp [Clean, ExecutionState.markers, ExecutionState.clearFailure, h]

theorem Settled.clean {strict : Prop} {s : ExecutionState} (h : Settled strict s)
    (hgo : s.returnSignal = none) : Clean s := by
  rcases h with h | ⟨-, hsignal⟩
  · exact h
  · rw [hgo] at hsignal
    cases hsignal

theorem Settled.store {strict : Prop} {s : ExecutionState} {id : String} {v : Value}
    (h : Settled strict s) (hescapes : ¬Escaping (s.storeStepResult id v)) :
    Settled strict (s.storeStepResult id v) := by
  rcases h with h | ⟨hloose, hsignal⟩
  · exact Or.inl (h.of_markers (ExecutionState.markers_storeStepResult hescapes))
  · refine Or.inr ⟨hloose, ?_⟩
    rwa [(Unmoved.store s id v).signal]

/-! ### Each construct -/

section Constructs

variable {host : Host} {run : StepDef → Nat → Exec Bool} {steps : List StepDef} {idx : Nat}
  {s s' : ExecutionState} {strict : Prop}

/-- A body that runs and succeeds forgets what belonged to the dispatch before it. -/
theorem LeafEnd.markers (hanswers : host.FailsByAnswer) (h : LeafEnd host idx s true s')
    (hescapes : ¬Escaping s') :
    s'.markers = { s.markers with calleeError := none, cancelled := false } := by
  cases h with
  | @succeeded own key body view output t hat hbody hran =>
    have hcap : (body (s.entered idx view) own.params).cap = none :=
      hanswers key body _ _ output hbody (congrArg Prod.fst hran)
    have hbodied := ExecutionState.markers_runBody (s := s.entered idx view) hcap
    rw [hran] at hbodied
    have hstored : ¬Escaping (t.storeStepResult own.id output.value) := fun h =>
      hescapes (bindVariable_escaping own _ (addMetadata_escaping _ own.id output.metadata h))
    rw [ExecutionState.markers_bindVariable, ExecutionState.markers_addMetadata,
      ExecutionState.markers_storeStepResult hstored, hbodied]
    rfl

theorem LeafEnd.clean (hanswers : host.FailsByAnswer) (hs : Clean s)
    (h : LeafEnd host idx s true s') (hescapes : ¬Escaping s') : Clean s' := by
  rw [Clean, h.markers hanswers hescapes]
  exact congrArg (fun m : Markers => { m with calleeError := none, cancelled := false }) hs

/-- What is said of the markers and kept by every step that succeeds without a return. -/
theorem StepsReach.marked {J : Markers → Prop} (hs : J s.markers)
    (hcall : ∀ inner i t t', StepsCall host run steps idx s inner i t → J t.markers →
      run inner i t = .ok true t' → t'.returnSignal = none → J t'.markers)
    {rest : List StepDef} {i : Nat} {t : ExecutionState}
    (h : StepsReach host run steps idx s rest i t) : J t.markers := by
  induction h with
  | start => exact hs
  | next before hpoll hran hgo ih => exact hcall _ _ _ _ (.mk before hpoll) ih hran hgo

theorem StepsReach.clean (hs : Clean s)
    (hcall : ∀ inner i t t', StepsCall host run steps idx s inner i t → Clean t →
      run inner i t = .ok true t' → Settled strict t')
    {rest : List StepDef} {i : Nat} {t : ExecutionState}
    (h : StepsReach host run steps idx s rest i t) : Clean t :=
  h.marked (J := fun m => m = ⟨none, none, none, none, false⟩) hs
    fun inner i t t' hmade ht hran hgo => (hcall inner i t t' hmade ht hran).clean hgo

theorem StepsCall.clean (hs : Clean s)
    (hcall : ∀ inner i t t', StepsCall host run steps idx s inner i t → Clean t →
      run inner i t = .ok true t' → Settled strict t')
    {inner : StepDef} {i : Nat} {t : ExecutionState}
    (h : StepsCall host run steps idx s inner i t) : Clean t := by
  cases h with
  | mk before hpoll => exact before.clean hs hcall

theorem BlockCall.clean (hs : Clean s)
    (hcall : ∀ inner i t t', BlockCall host run steps s inner i t → Clean t →
      run inner i t = .ok true t' → Settled strict t')
    {inner : StepDef} {i : Nat} {t : ExecutionState}
    (h : BlockCall host run steps s inner i t) : Clean t :=
  StepsCall.clean (s := s.spliceSteps steps) hs hcall h

theorem StepsEnd.settled (hs : Clean s)
    (hcall : ∀ inner i t t', StepsCall host run steps idx s inner i t → Clean t →
      run inner i t = .ok true t' → Settled strict t')
    {ended : BodyEnd} (hended : ended ≠ .failed) (h : StepsEnd host run steps idx s ended s') :
    Settled strict s' := by
  cases ended with
  | completed =>
    obtain ⟨i, hreach⟩ := h
    exact Or.inl (hreach.clean hs hcall)
  | returned =>
    obtain ⟨inner, i, t, hmade, hran, -⟩ := h
    exact hcall inner i t s' hmade (hmade.clean hs hcall) hran
  | failed => exact absurd rfl hended

theorem BlockEnd.settled (hs : Clean s)
    (hcall : ∀ inner i t t', BlockCall host run steps s inner i t → Clean t →
      run inner i t = .ok true t' → Settled strict t')
    {ended : BodyEnd} (hended : ended ≠ .failed) (h : BlockEnd host run steps s ended s') :
    Settled strict s' := by
  obtain ⟨t, hsteps, rfl⟩ := h
  have hdone : Settled strict t := hsteps.settled (s := s.spliceSteps steps) hs hcall hended
  exact hdone

theorem BlockEnd.not_cancelled (h : BlockEnd host run steps s .failed s') :
    s'.cancelled = false := by
  obtain ⟨t, ⟨inner, i, u, -, -, hcancelled⟩, rfl⟩ := h
  exact hcancelled

/-! ### `try` -/

variable {step : StepDef}

/-- What every call of the step that is not made with a failure pending comes to. -/
def InnerSettled (host : Host) (run : StepDef → Nat → Exec Bool) (strict : Prop) (step : StepDef)
    (idx : Nat) (s : ExecutionState) : Prop :=
  ∀ inner i t t', DirectCall host run step idx s false inner i t → Clean t →
    run inner i t = .ok true t' → Settled strict t'

theorem clean_handling {s : ExecutionState} (h : s.cancelled = false) : Clean (s.handling step) :=
  clean_clearFailure h

theorem FinallyFrom.settled (hkind : step.kind = .guarded) (hs : Clean s)
    (hcall : InnerSettled host run strict step idx s)
    (h : FinallyFrom host run step s false s') : Settled strict s' := by
  cases h with
  | succeeded hblock hgo =>
    exact hblock.settled hs (fun inner i t t' hmade => hcall inner i t t' (.tried hkind hmade))
      (by decide)
  | @failed t _ _ hblock hgo hcatch =>
    have hcancelled := hblock.not_cancelled
    generalize hpending : false = pending at hcatch
    cases hcatch with
    | unhandled => cases hpending
    | swallowed => exact Or.inl (clean_clearFailure hcancelled)
    | @handled body ended u hbody hhandlers =>
      have hended : ended ≠ .failed := by
        rintro rfl
        cases hpending
      have hdone : Settled strict u := hhandlers.settled (clean_handling hcancelled)
        (fun inner i v v' hmade => hcall inner i v v' (.handler hkind hblock hgo hbody hmade)) hended
      exact hdone

theorem CleanupEnd.settled (hkind : step.kind = .guarded)
    (hcall : InnerSettled host run strict step idx s) {t : ExecutionState}
    (hbefore : FinallyFrom host run step s false t) (ht : Settled strict t)
    (h : CleanupEnd host run step t s') : Settled strict s' := by
  cases h with
  | skipped hsignal => exact ht
  | ended hgo hok hblock =>
    exact hblock.settled (ht.clean hgo)
      (fun inner i u u' hmade => hcall inner i u u' (.cleanup hkind hbefore hgo hmade)) hok

/-- The block of a `try` failed while a return was under way. -/
def MasksFailure (host : Host) (run : StepDef → Nat → Exec Bool) (step : StepDef)
    (s : ExecutionState) : Prop :=
  ∃ t, BlockEnd host run (StepDef.bodySteps (step.params.get "try")) s .failed t ∧
    t.returnSignal.isSome

theorem TryEnd.settled (hkind : step.kind = .guarded) (hs : Clean s)
    (hcall : InnerSettled host run strict step idx s)
    (hmask : strict → ¬MasksFailure host run step s) (h : TryEnd host run step s true s')
    (hescapes : ¬Escaping s') : Settled strict s' := by
  cases h with
  | @returned ended t hblock hsignal =>
    by_cases hfailed : ended = .failed
    · subst hfailed
      exact Or.inr ⟨fun hstrict => hmask hstrict ⟨_, hblock, hsignal⟩, hsignal⟩
    · exact hblock.settled hs (fun inner i t t' hmade => hcall inner i t t' (.tried hkind hmade))
        hfailed
  | stored hbefore hcleanup =>
    have ht := hbefore.settled hkind hs hcall
    exact (hcleanup.settled hkind hcall hbefore ht).store hescapes

/-! ### `ifs`, loops and `parallel` -/

theorem IfsEnd.settled (hkind : step.kind = .ifs) (hs : Clean s)
    (hcall : InnerSettled host run strict step idx s) {ok : Bool} (hok : ok = true)
    (h : IfsEnd host run step s ok s') : Settled strict s' := by
  cases h with
  | absent habsent => exact Or.inl hs
  | chosen hbranches hchoose hblock =>
    exact hblock.settled hs (fun inner i t t' hmade =>
      hcall inner i t t' (.chosen hkind hbranches hchoose hmade)) (of_decide_eq_true hok)

theorem markers_hostNextForeach {more : Bool} (h : hostNextForeach s = .ok more s') :
    s'.markers = s.markers := by
  obtain ⟨-, -, rfl⟩ | ⟨frame, frame', outer, -, rfl⟩ := hostNextForeach_ok h <;> rfl

theorem PassReach.marked {J : Markers → Prop} {offset : Nat} {untilExpr collectExpr : Option String}
    {n : Nat} {acc : Collected} (hs : J s.markers)
    (hcall : ∀ m c t t₁ inner i u u',
      PassReach host run steps offset untilExpr collectExpr n acc s (m + 1) c t →
      hostNextForeach t = .ok true t₁ →
      StepsCall host run steps offset (t₁.forget steps) inner i u → J u.markers →
      run inner i u = .ok true u' → u'.returnSignal = none → J u'.markers)
    {m : Nat} {c : Collected} {t : ExecutionState}
    (h : PassReach host run steps offset untilExpr collectExpr n acc s m c t) : J t.markers := by
  induction h with
  | start => exact hs
  | @next m c c' t t₁ t' before hnext hbody _ _ ih =>
    obtain ⟨i, hreach⟩ := hbody
    refine hreach.marked ?_ fun inner i u u' => hcall m c t t₁ inner i u u' before hnext
    rwa [ExecutionState.markers_forget, markers_hostNextForeach hnext]

theorem PassReach.clean {offset : Nat} {untilExpr collectExpr : Option String} {n : Nat}
    {acc : Collected} (hs : Clean s)
    (hcall : ∀ m c t t₁ inner i u u',
      PassReach host run steps offset untilExpr collectExpr n acc s (m + 1) c t →
      hostNextForeach t = .ok true t₁ →
      StepsCall host run steps offset (t₁.forget steps) inner i u → Clean u →
      run inner i u = .ok true u' → Settled strict u')
    {m : Nat} {c : Collected} {t : ExecutionState}
    (h : PassReach host run steps offset untilExpr collectExpr n acc s m c t) : Clean t :=
  h.marked (J := fun m => m = ⟨none, none, none, none, false⟩) hs
    fun m c t t₁ inner i u u' before hnext hmade hu hran hgo =>
      (hcall m c t t₁ inner i u u' before hnext hmade hu hran).clean hgo

/-- The state a loop begins in. -/
theorem markers_beginOf {count : Int} (h : beginOf host step idx s = .ok count s')
    (hcount : 0 ≤ count) : s'.markers = s.markers := by
  obtain ⟨-, -, rfl⟩ | ⟨items, rfl⟩ := beginOf_ok h hcount
  · rfl
  · rfl

theorem clean_beginOf {count : Int} (hs : Clean s) (h : beginOf host step idx s = .ok count s')
    (hcount : 0 ≤ count) : Clean s' :=
  hs.of_markers (markers_beginOf h hcount)

theorem Settled.loopFinished (h : Settled strict s) (collected : Option (List Value))
    (hescapes : ¬Escaping (loopFinished step idx collected s)) :
    Settled strict (loopFinished step idx collected s) := by
  have hend : ¬Escaping (endForeach idx s) → Settled strict (endForeach idx s) := by
    unfold endForeach
    intro hend
    split
    · exact h
    · rename_i own hat
      split
      · exact h
      · rename_i frame outer hstack
        simp only [hat, hstack] at hend
        have hpopped : Settled strict { s with foreachStack := outer } := h
        exact hpopped.store hend
  unfold Gwead.loopFinished at hescapes ⊢
  cases collected with
  | none => exact hend hescapes
  | some values =>
    refine (hend fun hone => hescapes ?_).store hescapes
    exact hone.store _ _

theorem LoopEnd.settled (hkind : step.kind = .forEach ∨ step.kind = .repetition) (hs : Clean s)
    (hcall : InnerSettled host run strict step idx s)
    (h : LoopEnd host run step idx (untilOf step) (beginOf host step) s true s')
    (hescapes : ¬Escaping s') : Settled strict s' := by
  cases h with
  | @ended count s₁ t collected hbegin hcount hpasses =>
    have hmade : ∀ m c t t₁ inner i u u', LoopPass host run step (untilOf step) s₁ (m + 1) c t →
        hostNextForeach t = .ok true t₁ →
        StepsCall host run (loopBody step) s₁.action.steps.length (t₁.forget (loopBody step))
          inner i u →
        Clean u → run inner i u = .ok true u' → Settled strict u' :=
      fun m c t t₁ inner i u u' hpass hnext hin =>
        hcall inner i u u' (.pass hkind hbegin hcount hpass hnext hin)
    have hbegun := clean_beginOf hs hbegin (Int.le_of_lt hcount)
    have hstart : Clean (s₁.spliceSteps (loopBody step)) := hbegun
    have hdone : Settled strict t := by
      generalize hgood : true = good at hpasses
      cases hpasses with
      | exhausted before hnext =>
        have hclean := before.clean hstart hmade
        exact Or.inl (hclean.of_markers (markers_hostNextForeach hnext))
      | @broken m c t t₁ t' ended before hnext hbody =>
        have hclean := before.clean hstart hmade
        refine hbody.settled (hclean.of_markers ?_)
          (fun inner i u u' => hmade m c t t₁ inner i u u' before hnext) ?_
        · rw [ExecutionState.markers_forget, markers_hostNextForeach hnext]
        · exact of_decide_eq_true hgood.symm
    have hcut : Settled strict (t.truncateSteps s₁.action.steps.length) := hdone
    exact hcut.loopFinished collected hescapes
  | empty collected hbegin =>
    exact Settled.loopFinished (Or.inl (clean_beginOf hs hbegin (Int.le_refl 0))) collected hescapes

theorem ParallelEnd.settled (hkind : step.kind = .parallel) (hs : Clean s)
    (hcall : InnerSettled host run strict step idx s) {ok : Bool} (hok : ok = true)
    (h : ParallelEnd host run step s ok s') (hescapes : ¬Escaping s') : Settled strict s' := by
  cases h with
  | empty hempty => exact Settled.store (Or.inl hs) hescapes
  | joined hjoin hwidth herror =>
    refine Settled.store ?_ hescapes
    have hgood : (joinBranches host run s (branchSteps step)).anyFailed = false := by simpa using hok
    have hjoined : ¬Escaping (joinBranches host run s (branchSteps step)).state := fun h =>
      hescapes (h.store _ _)
    refine joinBranches_keeps (P := fun join => join.anyFailed = false → ¬Escaping join.state →
      Settled strict join.state) (fun _ _ => Or.inl hs) (fun _ h => h) ?_ herror hgood hjoined
    intro join slot steps hslot hnone ih hfine hkept
    simp only [joinBranch, Bool.or_eq_false_iff, Bool.not_eq_false'] at hfine
    obtain ⟨hbefore, hbranch⟩ := hfine
    simp only [joinBranch, hbranch, Bool.not_true, Bool.false_and] at hkept ⊢
    have hthen := ih hbefore fun h => hkept (merge_escaping _ _ _ _ _ (h.storeAll _))
    -- the branch ended well, from a fork that was clean
    obtain ⟨ended, hended, hanswer⟩ := runBranch_end hnone
    have hown : Settled strict (runBranch host run s slot steps).state :=
      hended.settled (s := (s.fork slot).spliceSteps steps) hs
        (fun inner i u u' hmade => hcall inner i u u' (.branch hkind hslot hwidth hmade))
        (of_decide_eq_true (hanswer.symm.trans hbranch))
    have hsignal := (merge_moves join.state (runBranch host run s slot steps).state false
      s.stepResults.keys s.vars).2
    rcases hthen with hclean | ⟨hloose, hreturned⟩
    · rcases hown with howned | ⟨hloose, hreturned⟩
      · refine Or.inl ?_
        rw [Clean, ExecutionState.markers_merge hkept, hclean.violation, howned.violation, hclean]
        rfl
      · refine Or.inr ⟨hloose, ?_⟩
        rw [hsignal, Option.isSome_or, hreturned, Bool.or_true]
    · refine Or.inr ⟨hloose, ?_⟩
      rw [hsignal, Option.isSome_or, hreturned, Bool.true_or]

/-- A step that succeeds from a clean state leaves one, or there is a return under way. -/
theorem StepEnd.settled (hanswers : host.FailsByAnswer) (hs : Clean s)
    (hcall : InnerSettled host run strict step idx s)
    (hmask : strict → step.kind = .guarded → ¬MasksFailure host run step s)
    (h : StepEnd host run step idx s true s') (hescapes : ¬Escaping s') : Settled strict s' := by
  cases h with
  | loop hkind h => exact h.settled hkind hs hcall hescapes
  | ifs hkind h => exact h.settled hkind hs hcall rfl
  | returning value hkind =>
    have hstored : ¬Escaping (s.storeStepResult step.id value) := hescapes
    exact Or.inl (hs.of_markers (ExecutionState.markers_storeStepResult hstored))
  | guarded hkind h => exact h.settled hkind hs hcall (fun hstrict => hmask hstrict hkind) hescapes
  | parallel hkind h => exact h.settled hkind hs hcall rfl hescapes
  | leaf hkind h => exact Or.inl (h.clean hanswers hs hescapes)

end Constructs

/-! ### Whole calls -/

/-- No `try` in a call masks a failure of its block. -/
def Unmasked (host : Host) : Nat → StepDef → Nat → ExecutionState → Prop
  | 0, _, _, _ => True
  | depth + 1, step, idx, s =>
    (step.kind = .guarded → ¬MasksFailure host (runStepTo host depth) step s) ∧
      ∀ inner i t, DirectCall host (runStepTo host depth) step idx s false inner i t →
        Unmasked host depth inner i t

theorem runStepTo_settled {host : Host} (hanswers : host.FailsByAnswer) {strict : Prop}
    (depth : Nat) {step : StepDef} {idx : Nat} {s s' : ExecutionState} (hs : Clean s)
    (hmask : strict → Unmasked host depth step idx s)
    (h : runStepTo host depth step idx s = .ok true s') : Settled strict s' := by
  induction depth generalizing step idx s s' with
  | zero => cases h
  | succ depth ih =>
    obtain ⟨hend, hviolation⟩ := runStepTo_end h
    have hescapes : ¬Escaping s' := by simp [Escaping, hviolation]
    refine hend.settled hanswers hs (fun inner i t t' hmade ht hran => ?_)
      (fun hstrict => (hmask hstrict).1) hescapes
    exact ih ht (fun hstrict => (hmask hstrict).2 inner i t hmade) hran

/-- A call that is not made with a failure pending is made on a clean state. -/
theorem DirectCall.clean {host : Host} {run : StepDef → Nat → Exec Bool} {step inner : StepDef}
    {idx i : Nat} {s t : ExecutionState} {strict : Prop} (hs : Clean s)
    (hcall : InnerSettled host run strict step idx s)
    (h : DirectCall host run step idx s false inner i t) : Clean t := by
  generalize hpending : false = pending at h
  cases h with
  | tried hkind hmade =>
    exact BlockCall.clean hs (fun inner i t t' hin => hcall inner i t t' (.tried hkind hin)) hmade
  | @handler body inner i s₁ t hkind hblock hgo hcatch hmade =>
    exact BlockCall.clean (clean_handling hblock.not_cancelled)
      (fun inner i t t' hin => hcall inner i t t' (.handler hkind hblock hgo hcatch hin)) hmade
  | @cleanup pending inner i s₁ t hkind hbefore hgo hmade =>
    subst hpending
    have hclean := (hbefore.settled hkind hs hcall).clean hgo
    exact BlockCall.clean hclean
      (fun inner i t t' hin => hcall inner i t t' (.cleanup hkind hbefore hgo hin)) hmade
  | chosen hkind hbranches hchoose hmade =>
    exact BlockCall.clean hs
      (fun inner i t t' hin => hcall inner i t t' (.chosen hkind hbranches hchoose hin)) hmade
  | @pass count m c inner i s₁ t t₁ t₂ hkind hbegin hcount hpass hnext hmade =>
    have hbegun := clean_beginOf hs hbegin (Int.le_of_lt hcount)
    have hstart : Clean (s₁.spliceSteps (loopBody step)) := hbegun
    have hclean := PassReach.clean hstart (fun m c t t₁ inner i u u' hpass hnext hin =>
      hcall inner i u u' (.pass hkind hbegin hcount hpass hnext hin)) hpass
    refine StepsCall.clean (hclean.of_markers ?_) (fun inner i u u' hin =>
      hcall inner i u u' (.pass hkind hbegin hcount hpass hnext hin)) hmade
    rw [ExecutionState.markers_forget, markers_hostNextForeach hnext]
  | @branch slot steps inner i t hkind hslot hwidth hmade =>
    exact StepsCall.clean (s := (s.fork slot).spliceSteps steps) hs
      (fun inner i t t' hin => hcall inner i t t' (.branch hkind hslot hwidth hin)) hmade

/-- Below a call on a clean state, every call outside a `finally` with a failure pending is made on
one. -/
theorem Reaches.clean {host : Host} (hanswers : host.FailsByAnswer) {depth : Nat}
    {step last : StepDef} {idx j : Nat} {s u : ExecutionState} (hs : Clean s)
    (h : Reaches host depth step idx s false last j u) : Clean u := by
  generalize hpending : false = pending at h
  induction h with
  | self => exact hs
  | @inner depth step inner last idx i j s t u pending below hcall _ ih =>
    rw [eq_comm, Bool.or_eq_false_iff] at hpending
    obtain ⟨rfl, rfl⟩ := hpending
    have hinner : InnerSettled host (runStepTo host depth) False step idx s :=
      fun inner i t t' _ ht hran =>
        runStepTo_settled hanswers depth ht (fun hstrict => hstrict.elim) hran
    exact ih (hcall.clean hs hinner) rfl

/-! ### Where no failure is masked -/

section Unmasked

variable {host : Host} {run : StepDef → Nat → Exec Bool} {steps : List StepDef} {idx : Nat}
  {s s' : ExecutionState} {step : StepDef}

theorem entered_unmoved {body : StepBody} {params : Value} {view : Option Value}
    {answer : Except StepError StepOutput}
    (h : runBody body params (s.entered idx view) = (answer, s')) : Unmoved s s' := by
  have hentered : Unmoved s (s.entered idx view) := ⟨rfl, rfl⟩
  have hbody := runBody_unmoved body (s.entered idx view) params
  rw [h] at hbody
  exact hentered.trans hbody

/-- A leaf step gives no return signal and takes none away. -/
theorem LeafEnd.unmoved {ok : Bool} (h : LeafEnd host idx s ok s') : Unmoved s s' := by
  cases h with
  | astray => exact ⟨rfl, rfl⟩
  | uncredentialed => exact ⟨rfl, rfl⟩
  | @succeeded own key body view output t hat hbody hran =>
    have hstored := (entered_unmoved hran).trans (Unmoved.store t own.id output.value)
    exact hstored.trans ((addMetadata_unmoved _ _ _).trans (bindVariable_unmoved own _))
  | @undeclared own key body view output t message hat hbody hran =>
    have hstored := (entered_unmoved hran).trans (Unmoved.store t own.id output.value)
    exact ⟨hstored.task, hstored.signal⟩
  | @failed own key body view e t hat hbody hran =>
    exact (entered_unmoved hran).trans (finishError_unmoved own t e)

theorem runStepTo_leaf_signal {depth : Nat} {ok : Bool} (hkind : step.kind = .leaf)
    (h : runStepTo host depth step idx s = .ok ok s') : s'.returnSignal = s.returnSignal := by
  cases depth with
  | zero => cases h
  | succ depth =>
    obtain ⟨hend, -⟩ := runStepTo_end h
    cases hend with
    | leaf _ hleaf => exact hleaf.unmoved.signal
    | loop hother => rcases hother with hother | hother <;> simp [hkind] at hother
    | _ => simp_all

/-- No step is called once there is a return. -/
theorem StepsCall.signal {inner : StepDef} {i : Nat} {t : ExecutionState}
    (hs : s.returnSignal = none) (h : StepsCall host run steps idx s inner i t) :
    t.returnSignal = none := by
  cases h with
  | mk before hpoll =>
    cases before with
    | start => exact hs
    | next _ _ _ hgo => exact hgo

/-- A leaf step calls no other. -/
theorem Unmasked.leaf (depth : Nat) (hkind : step.kind = .leaf) : Unmasked host depth step idx s := by
  cases depth with
  | zero => trivial
  | succ depth =>
    exact ⟨fun h => by simp [hkind] at h, fun inner i t hcall => absurd hkind hcall.kind_ne⟩

/-- A `try` whose blocks hold nothing but leaf steps masks nothing, since none of them returns. -/
theorem Unmasked.guarded (depth : Nat) (hkind : step.kind = .guarded)
    (hs : s.returnSignal = none)
    (hleaves : ∀ block ∈ ["try", "catch", "finally"],
      ∀ inner ∈ StepDef.bodySteps (step.params.get block), inner.kind = .leaf) :
    Unmasked host depth step idx s := by
  cases depth with
  | zero => trivial
  | succ depth =>
    refine ⟨fun _ hmasks => ?_, fun inner i t hcall => ?_⟩
    · obtain ⟨t, ⟨u, ⟨inner, i, v, hmade, hran, -⟩, rfl⟩, hsignal⟩ := hmasks
      have hsame := runStepTo_leaf_signal (hleaves "try" (by simp) inner hmade.mem) hran
      have hstart : (s.spliceSteps (StepDef.bodySteps (step.params.get "try"))).returnSignal = none :=
        hs
      have hnone : u.returnSignal = none := hsame.trans (hmade.signal hstart)
      change u.returnSignal.isSome at hsignal
      rw [hnone] at hsignal
      cases hsignal
    · refine Unmasked.leaf depth ?_
      generalize hpending : false = pending at hcall
      cases hcall with
      | tried _ hmade => exact hleaves "try" (by simp) inner (StepsCall.mem hmade)
      | @handler body _ _ _ _ _ _ _ hcatch hmade =>
        rw [← hcatch] at hmade
        exact hleaves "catch" (by simp) inner (StepsCall.mem hmade)
      | cleanup _ _ _ hmade => exact hleaves "finally" (by simp) inner (StepsCall.mem hmade)
      | pass hother => rcases hother with hother | hother <;> simp [hkind] at hother
      | _ => simp_all

end Unmasked

/-! ### Runs -/

/-- What a clean task brings to a clean state is clean. -/
theorem clean_mergeTaskState {c t : ExecutionState} {id : String}
    {baseline : IndexMap String Value} (hc : Clean c) (ht : Clean t)
    (hescapes : ¬Escaping (mergeTaskState c t id baseline)) :
    Clean (mergeTaskState c t id baseline) := by
  have hentry : ¬Escaping (mergeStepEntry c t id) := fun h => hescapes
    (Escaping.takeSignals t (c := ((mergeStepEntry c t id).setVariables
      (introduced baseline t)).keepFailure t) (h.setVariables _))
  have hmarkers : (mergeStepEntry c t id).markers = c.markers := by
    unfold mergeStepEntry at hentry ⊢
    cases hresult : t.stepResults.get? id with
    | none => cases t.stepMetadata.get? id <;> rfl
    | some result =>
      rw [hresult] at hentry
      have hstored : ¬Escaping (c.storeStepResult id result) := fun h => hentry (by
        cases t.stepMetadata.get? id <;> exact h)
      have hsame := ExecutionState.markers_storeStepResult hstored
      cases t.stepMetadata.get? id <;> exact hsame
  have hset : Clean ((mergeStepEntry c t id).setVariables (introduced baseline t)) := by
    rw [Clean, ExecutionState.markers_setVariables, hmarkers, hc]
  have hlast := congrArg Markers.lastError hset
  have hplugin := congrArg Markers.pluginError hset
  have hcallee := congrArg Markers.calleeError hset
  have hviolation := congrArg Markers.violation hset
  have hcancelled := congrArg Markers.cancelled hset
  have htlast := congrArg Markers.lastError ht
  have htplugin := congrArg Markers.pluginError ht
  have htviolation := congrArg Markers.violation ht
  simp only [ExecutionState.markers] at *
  simp [Clean, ExecutionState.markers, mergeTaskState, ExecutionState.takeSignals,
    ExecutionState.keepFailure, *]

section Runs

variable {host : Host} {action : Action} {plan : DagPlan} {start : ExecutionState}

theorem waveKeeps_clean (hanswers : host.FailsByAnswer) : WaveKeeps host action Clean where
  tick _ h := h
  fork _ _ h := h
  overrides _ _ h := h
  ran _ _ _ _ h hran hgo := by
    have hdone : Settled False _ := runStepTo_settled hanswers _ h (fun hstrict => hstrict.elim) hran
    exact hdone.clean hgo
  merged _ _ _ _ hc ht hescapes := clean_mergeTaskState hc ht hescapes

/-- The scheduler may still spawn a task. -/
def Pipeline.GoesOn (c : Pipeline) : Prop :=
  match c.phase with
  | .starting _ => True
  | .releasing _ _ => True
  | .waiting => c.firstError = none ∧ c.cancelled = false
  | .deciding _ => c.firstError = none ∧ c.cancelled = false
  | .ended _ => False

/-- While the scheduler goes on no failure is recorded, nor in the forks of the tasks it waits
for. -/
structure CleanPipeline (es : List PipelineEvent) (c : Pipeline) : Prop where
  canonical : c.GoesOn → Clean c.canonical
  running : ∀ task ∈ c.running, .spawned task.idx task.fork ∈ es ∧ Clean task.fork

theorem CleanPipeline.keep {es : List PipelineEvent} {c c' : Pipeline} (h : CleanPipeline es c)
    (e : PipelineEvent) (hcanonical : c'.canonical = c.canonical) (hgo : c'.GoesOn → c.GoesOn)
    (hrunning : c'.running = c.running) : CleanPipeline (es ++ [e]) c' := by
  refine ⟨fun hgo' => ?_, fun task htask => ?_⟩
  · rw [hcanonical]
    exact h.canonical (hgo hgo')
  · rw [hrunning] at htask
    obtain ⟨hmem, hclean⟩ := h.running task htask
    exact ⟨List.mem_append_left _ hmem, hclean⟩

/-- A task that is spawned starts on a clean fork. -/
theorem CleanPipeline.spawn {es : List PipelineEvent} {c c' : Pipeline} (h : CleanPipeline es c)
    (hgo : c.GoesOn) {i : Nat} (hcanonical : c'.canonical = c.canonical)
    (hrunning : c'.running = c.running ++ [⟨i, forkFor action plan c.canonical c.fanout i⟩]) :
    CleanPipeline (es ++ [.spawned i (forkFor action plan c.canonical c.fanout i)]) c' := by
  have hclean := h.canonical hgo
  refine ⟨fun _ => by rw [hcanonical]; exact hclean, fun task htask => ?_⟩
  rw [hrunning] at htask
  rcases List.mem_append.mp htask with htask | htask
  · obtain ⟨hmem, hfork⟩ := h.running task htask
    exact ⟨List.mem_append_left _ hmem, hfork⟩
  · cases List.mem_singleton.mp htask
    exact ⟨by simp, hclean⟩

theorem CleanPipeline.join (listened : Bool) {es : List PipelineEvent} {c : Pipeline} {task : Task}
    (hanswers : host.FailsByAnswer) (h : CleanPipeline es c) (hphase : c.phase = .waiting)
    (htask : task ∈ c.running)
    (hunmasked : Unmasked host ((action.stepAt task.idx).params.depth + 1) (action.stepAt task.idx)
      task.idx task.fork) (e : PipelineEvent) :
    CleanPipeline (es ++ [e]) (joinTask host action listened c task).2 := by
  refine ⟨fun hgo => ?_, fun other hother => ?_⟩
  · obtain ⟨herror, htoken⟩ : (joinTask host action listened c task).2.firstError = none ∧
      (joinTask host action listened c task).2.cancelled = false := hgo
    simp only [joinTask, Option.or_eq_none_iff] at herror htoken ⊢
    obtain ⟨hfirst, hreport, htripped⟩ := herror
    simp only [hfirst, Option.isNone_none, if_true] at htripped
    simp only [Bool.or_eq_false_iff] at htoken
    rw [htoken.1, Bool.false_and] at hreport
    obtain ⟨t, hran⟩ := taskReport_none hreport
    have hcanonical : Clean c.canonical := h.canonical (by
      rw [Pipeline.GoesOn, hphase]
      exact ⟨hfirst, htoken.1⟩)
    have hdone : Settled True t := runStepTo_settled hanswers _ (h.running task htask).2
      (fun _ => hunmasked) hran
    have hclean : Clean t := hdone.resolve_right fun hloose => hloose.1 trivial
    rw [hran] at htripped ⊢
    refine clean_mergeTaskState hcanonical hclean fun hescapes => ?_
    rw [Escaping] at hescapes
    rw [finalState] at htripped
    simp [htripped] at hescapes
  · obtain ⟨hmem, hfork⟩ := h.running other (List.mem_filter.mp hother).1
    exact ⟨List.mem_append_left _ hmem, hfork⟩

theorem CleanPipeline.move {es : List PipelineEvent} {listened : Bool} {c c' : Pipeline}
    {e : PipelineEvent} (hanswers : host.FailsByAnswer)
    (hunmasked : ∀ i fork, .spawned i fork ∈ es →
      Unmasked host ((action.stepAt i).params.depth + 1) (action.stepAt i) i fork)
    (h : CleanPipeline es c) (hmove : Move host action plan listened c e c') :
    CleanPipeline (es ++ [e]) c' := by
  cases hmove with
  | fire =>
    refine h.keep _ rfl (fun hgo => ?_) rfl
    unfold Pipeline.GoesOn at hgo ⊢
    revert hgo
    cases c.phase <;> simp
  | start i hphase hi hready =>
    exact h.spawn (by rw [Pipeline.GoesOn, hphase]; trivial) rfl rfl
  | skip i hphase hi hready =>
    exact h.keep _ rfl (fun _ => by rw [Pipeline.GoesOn, hphase]; trivial) rfl
  | started i hphase hi =>
    exact h.keep _ rfl (fun _ => by rw [Pipeline.GoesOn, hphase]; trivial) rfl
  | finish hphase hrunning => exact h.keep _ rfl (fun hgo => hgo.elim) rfl
  | join task hphase htask report c' hjoin =>
    have hnext := h.join listened hanswers hphase htask
      (hunmasked _ _ (h.running task htask).1)
      (.joined task (runStep host (action.stepAt task.idx) task.idx task.fork) report)
    rwa [hjoin] at hnext
  | panic i text hphase => exact h.keep _ rfl (fun hgo => hgo.elim) rfl
  | release i hphase hvalue herror htoken =>
    exact h.keep _ rfl (fun _ => by rw [Pipeline.GoesOn, hphase]; exact ⟨herror, htoken⟩) rfl
  | retain i hphase hwhy =>
    exact h.keep _ rfl (fun hgo => by rw [Pipeline.GoesOn, hphase]; exact hgo) rfl
  | releasedAll i hphase =>
    exact h.keep _ rfl (fun _ => by rw [Pipeline.GoesOn, hphase]; trivial) rfl
  | spawnConsumer i j rest hphase hlast hfresh =>
    exact h.spawn (by rw [Pipeline.GoesOn, hphase]; trivial) rfl rfl
  | passConsumer i j rest hphase hwhy =>
    exact h.keep _ rfl (fun _ => by rw [Pipeline.GoesOn, hphase]; trivial) rfl

/-- Every task of a run without masked failures starts on a clean fork. -/
theorem clean_spawned {listened token : Bool} {fanout : List (Nat × List Nat)}
    {es : List PipelineEvent} {c : Pipeline} (hanswers : host.FailsByAnswer) (hstart : Clean start)
    (hrun : PipelineRun host action plan listened (startPipeline action plan start fanout token) es c)
    (hunmasked : ∀ i fork, .spawned i fork ∈ es →
      Unmasked host ((action.stepAt i).params.depth + 1) (action.stepAt i) i fork) :
    CleanPipeline es c ∧ ∀ i fork, .spawned i fork ∈ es → Clean fork := by
  induction hrun with
  | nil => exact ⟨⟨fun _ => hstart, fun _ htask => absurd htask List.not_mem_nil⟩,
      fun _ _ hmem => absurd hmem List.not_mem_nil⟩
  | @snoc es t u e _ hstep ih =>
    obtain ⟨hclean, hforks⟩ := ih fun i fork hmem => hunmasked i fork (List.mem_append_left _ hmem)
    have hmove := hstep.move host action plan
    refine ⟨hclean.move hanswers (fun i fork hmem => hunmasked i fork (List.mem_append_left _ hmem))
      hmove, fun i fork hmem => ?_⟩
    rcases List.mem_append.mp hmem with hmem | hmem
    · exact hforks i fork hmem
    · cases List.mem_singleton.mp hmem
      cases hmove with
      | start i hphase hi hready =>
        exact hclean.canonical (by rw [Pipeline.GoesOn, hphase]; trivial)
      | spawnConsumer i j rest hphase hlast hfresh =>
        exact hclean.canonical (by rw [Pipeline.GoesOn, hphase]; trivial)

/-- In every run of the wave scheduler, and in every run of the dataflow scheduler in which no `try`
masks a failure of its block behind a return, a step is called with no failure recorded, unless the
call is inside a `finally` that runs with one pending. -/
theorem calls_clean (host : Host) (hanswers : host.FailsByAnswer) {action : Action} {plan : DagPlan}
    (hplan : buildPlan action = .ok plan) {start : ExecutionState} (hstart : Clean start) :
    (∀ d ∈ (runWaves host action plan start).1.dispatched, ∀ step idx before,
      Reaches host ((action.stepAt d.idx).params.depth + 1) (action.stepAt d.idx) d.idx d.before
        false step idx before → Clean before) ∧
    ∀ listened fanout token es c,
      PipelineRun host action plan listened (startPipeline action plan start fanout token) es c →
      (∀ i fork, .spawned i fork ∈ es →
        Unmasked host ((action.stepAt i).params.depth + 1) (action.stepAt i) i fork) →
      ∀ i fork, .spawned i fork ∈ es → ∀ step idx before,
        Reaches host ((action.stepAt i).params.depth + 1) (action.stepAt i) i fork false step idx
          before → Clean before := by
  refine ⟨fun d hd step idx before hreaches => ?_, ?_⟩
  · have hrecorded := (waveKeeps_clean hanswers).recorded (buildPlan_valid hplan) hstart d hd
    exact hreaches.clean hanswers hrecorded.before
  · intro listened fanout token es c hrun hunmasked i fork hspawned step idx before hreaches
    exact hreaches.clean hanswers ((clean_spawned hanswers hstart hrun hunmasked).2 i fork hspawned)

end Runs

/-! ### A failure behind a return -/

/-- The quiet host with a step type that fails without a payload. -/
def refusingHost : Host :=
  { quietHost Binary64.display with
    resolveStepType := some
    bodies := fun key =>
      if key = "refuse" then some fun _ _ => ⟨.error (.failed "refused"), [], none⟩
      else (quietHost Binary64.display).bodies key }

theorem refusingHost_answers : refusingHost.FailsByAnswer := by
  intro key body s params output hbody hok
  simp only [refusingHost, quietHost] at hbody
  split at hbody
  · cases hbody
    cases hok
  · split at hbody
    · cases hbody
      unfold stepLet at hok ⊢
      split <;> rfl
    · split at hbody
      · cases hbody
        cases hok
      · cases hbody

/-- `late` fails on its own after a `try` whose block returned in one branch and threw in another. -/
def maskedReturn : Action :=
  { Action.ofSteps [
    .new "guard" "try" (.object [("try", .array [.object [("id", .string "fork"),
      ("type", .string "parallel"), ("params", .object [("branches", .array [
        .array [.object [("id", .string "done"), ("type", .string "return"),
          ("params", .object [("value", .null)])]],
        .array [.object [("id", .string "cry"), ("type", .string "throw_error"),
          ("params", .object [("code", .string "EARLIER")])]]])])]])]),
    { StepDef.new "late" "refuse" (.object []) with
      dependsOn := ["guard"], longRunning := true }] with dataflow := true }

def maskedPlan : DagPlan := ⟨[[0], [1]], [[], [0]], [[1], []]⟩

def maskedState : ExecutionState :=
  provisioned refusingHost maskedReturn maskedPlan
    (.new "demo" maskedReturn .null .null .null none ⟨1000000, 64⟩)

def maskedStart : Pipeline := startPipeline maskedReturn maskedPlan maskedState [] false

/-- What `late` finds recorded when it is spawned, and the error the run ends with. -/
def observedMask (choices : List Choice) : Option (Option String × KernelError) :=
  (drive refusingHost maskedReturn maskedPlan true choices maskedStart).bind fun r =>
    match r.2.phase, r.1.filterMap (fun e => match e with
      | .spawned 1 fork => some fork.lastError
      | _ => none) with
    | .ended (.error e), [found] => some (found, e)
    | _, _ => none

/-- A dataflow run in which `late` is called with the failure of the `try` before it recorded, and
which reports that failure for it. -/
theorem masked_failure_reported :
    refusingHost.FailsByAnswer ∧ buildPlan maskedReturn = .ok maskedPlan ∧ Clean maskedState ∧
      ∃ es c fork, PipelineRun refusingHost maskedReturn maskedPlan true maskedStart es c ∧
        .spawned 1 fork ∈ es ∧
        RunCalls refusingHost maskedReturn maskedPlan maskedState false (maskedReturn.stepAt 1) 1
          fork ∧
        ¬Clean fork ∧ c.phase = .ended (.error (.pluginError "EARLIER" "" .null)) := by
  refine ⟨refusingHost_answers, by decide +kernel, rfl, ?_⟩
  have hobserved : observedMask [.advance, .advance, .advance, .join 0, .advance, .advance, .advance,
      .join 1, .advance, .advance] =
        some (some "PluginError EARLIER", .pluginError "EARLIER" "" .null) := by decide +kernel
  obtain ⟨⟨es, c⟩, hdrive, h⟩ := Option.bind_eq_some_iff.mp hobserved
  have hrun := drive_run _ _ _ hdrive
  split at h
  · rename_i e found hphase hfound
    cases h
    have hmem : some "PluginError EARLIER" ∈ es.filterMap (fun e => match e with
        | .spawned 1 fork => some fork.lastError
        | _ => none) := by
      rw [hfound]
      exact List.mem_singleton_self _
    obtain ⟨event, hevent, hmatch⟩ := List.mem_filterMap.mp hmem
    split at hmatch
    · rename_i fork
      have hlast : fork.lastError = some "PluginError EARLIER" := Option.some.inj hmatch
      refine ⟨es, c, fork, hrun, hevent, .dataflow hrun hevent .self, fun hclean => ?_, hphase⟩
      have hnone := congrArg Markers.lastError hclean
      change fork.lastError = none at hnone
      rw [hlast] at hnone
      cases hnone
    · cases hmatch
  · cases h

/-- `late` fails on its own after a `try` that swallowed what its block threw. -/
def recoveredSteps (longRunning : Bool) : List StepDef :=
  [.new "guard" "try" (.object [("catch", .array []),
    ("try", .array [.object [("id", .string "cry"), ("type", .string "throw_error"),
      ("params", .object [("code", .string "EARLIER")])]])]),
    { StepDef.new "late" "refuse" (.object []) with
      dependsOn := ["guard"], longRunning := longRunning }]

def recovered : Action := Action.ofSteps (recoveredSteps false)

def recoveredState : ExecutionState :=
  .new "demo" recovered .null .null .null none ⟨1000000, 64⟩

def streamed : Action := { Action.ofSteps (recoveredSteps true) with dataflow := true }

def streamedState : ExecutionState :=
  provisioned refusingHost streamed maskedPlan
    (.new "demo" streamed .null .null .null none ⟨1000000, 64⟩)

def streamedStart : Pipeline := startPipeline streamed maskedPlan streamedState [] false

/-- The steps spawned, each with whether its fork is free of a return. -/
def observedForks (choices : List Choice) : Option (List (Nat × Bool)) :=
  (drive refusingHost streamed maskedPlan true choices streamedStart).map fun r =>
    r.1.filterMap fun e => match e with
      | .spawned i fork => some (i, fork.returnSignal.isNone)
      | _ => none

/-- Neither step of `streamed` masks a failure. -/
theorem streamed_unmasked {i : Nat} (hi : i < 2) (depth : Nat) {fork : ExecutionState}
    (hfork : fork.returnSignal = none) :
    Unmasked refusingHost depth (streamed.stepAt i) i fork := by
  obtain rfl | rfl : i = 0 ∨ i = 1 := by omega
  · exact Unmasked.guarded depth (by decide +kernel) hfork (by decide +kernel)
  · exact Unmasked.leaf depth (by decide +kernel)

/-- Under either scheduler `late` is called with nothing recorded. -/
theorem recovered_failure_gone :
    (∃ d ∈ (runWaves refusingHost recovered maskedPlan recoveredState).1.dispatched,
      d.idx = 1 ∧ Clean d.before) ∧
    ∃ es c fork, PipelineRun refusingHost streamed maskedPlan true streamedStart es c ∧
      .spawned 1 fork ∈ es ∧ Clean fork := by
  constructor
  · have hcalled : ((runWaves refusingHost recovered maskedPlan
        recoveredState).1.dispatched[1]?).map (·.idx) = some 1 := by decide +kernel
    obtain ⟨d, hd, hidx⟩ := Option.map_eq_some_iff.mp hcalled
    have hplan : buildPlan recovered = .ok maskedPlan := by decide +kernel
    have hclean : Clean recoveredState := rfl
    have hmem := List.mem_of_getElem? hd
    exact ⟨d, hmem, hidx, (calls_clean refusingHost refusingHost_answers hplan hclean).1 d hmem _ _
      _ .self⟩
  · have hplan : buildPlan streamed = .ok maskedPlan := by decide +kernel
    have hobserved : observedForks [.advance, .advance, .advance, .join 0, .advance, .advance] =
        some [(0, true), (1, true)] := by decide +kernel
    obtain ⟨⟨es, c⟩, hdrive, h⟩ := Option.map_eq_some_iff.mp hobserved
    have hrun := drive_run _ _ _ hdrive
    have hforks : ∀ i fork, .spawned i fork ∈ es → (i, fork.returnSignal.isNone) ∈
        [(0, true), (1, true)] := fun i fork hmem => by
      rw [← h]
      exact List.mem_filterMap.mpr ⟨_, hmem, rfl⟩
    have hunmasked : ∀ i fork, .spawned i fork ∈ es →
        Unmasked refusingHost ((streamed.stepAt i).params.depth + 1) (streamed.stepAt i) i fork := by
      intro i fork hmem
      have hin := hforks i fork hmem
      simp only [List.mem_cons, List.not_mem_nil, or_false, Prod.mk.injEq] at hin
      refine streamed_unmasked (by omega) _ ?_
      rcases hin with ⟨-, hnone⟩ | ⟨-, hnone⟩
      · simpa using hnone
      · simpa using hnone
    have hlate : (1, true) ∈ es.filterMap fun e => match e with
        | .spawned i fork => some (i, fork.returnSignal.isNone)
        | _ => none := by
      rw [h]
      simp
    obtain ⟨e, he, hspawn⟩ := List.mem_filterMap.mp hlate
    cases e with
    | spawned i fork =>
      simp only [Option.some.injEq, Prod.mk.injEq] at hspawn
      obtain ⟨rfl, -⟩ := hspawn
      have hclean : Clean streamedState := rfl
      exact ⟨es, c, fork, hrun, he, (calls_clean refusingHost refusingHost_answers hplan hclean).2
        true [] false es c hrun hunmasked 1 fork he _ _ _ .self⟩
    | _ => cases hspawn

end Gwead
