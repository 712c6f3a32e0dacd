import Gwead.CleanMarkers
import Gwead.Iterations
import Gwead.TryResult

/-!
# A pending failure across `finally`

While `finally` runs with a failure pending, the failure stands in the markers of the state and
nowhere else.  Steps that succeed leave the markers alone, but for two: a leaf step forgets the
failed callee, and a `try` that takes care of a failure of its own forgets everything.
-/

namespace Gwead

open Program

/-! ### What steps that succeed do to the markers -/

section Constructs

variable {host : Host} {run : StepDef → Nat → Exec Bool} {steps : List StepDef} {idx : Nat}
  {s s' : ExecutionState} {J : Markers → Prop}

theorem StepsEnd.marked (hs : J s.markers)
    (hcall : ∀ inner i t t', StepsCall host run steps idx s inner i t → J t.markers →
      run inner i t = .ok true t' → J t'.markers)
    {ended : BodyEnd} (hended : ended ≠ .failed) (h : StepsEnd host run steps idx s ended s') :
    J s'.markers := by
  have hgoes := fun inner i t t' hmade ht hran (_ : t'.returnSignal = none) =>
    hcall inner i t t' hmade ht hran
  cases ended with
  | completed =>
    obtain ⟨i, hreach⟩ := h
    exact hreach.marked hs hgoes
  | returned =>
    obtain ⟨inner, i, t, ⟨before, hpoll⟩, hran, -⟩ := h
    exact hcall inner i _ s' (.mk before hpoll) (before.marked hs hgoes) hran
  | failed => exact absurd rfl hended

theorem BlockEnd.marked (hs : J s.markers)
    (hcall : ∀ inner i t t', BlockCall host run steps s inner i t → J t.markers →
      run inner i t = .ok true t' → J t'.markers)
    {ended : BodyEnd} (hended : ended ≠ .failed) (h : BlockEnd host run steps s ended s') :
    J s'.markers := by
  obtain ⟨t, hsteps, rfl⟩ := h
  have hdone : J t.markers := hsteps.marked (s := s.spliceSteps steps) hs hcall hended
  exact hdone

variable {step : StepDef}

/-- Every call of the step that is not made with a failure pending keeps what is said of the
markers. -/
def InnerMarked (host : Host) (run : StepDef → Nat → Exec Bool) (J : Markers → Prop)
    (step : StepDef) (idx : Nat) (s : ExecutionState) : Prop :=
  ∀ inner i t t', DirectCall host run step idx s false inner i t → J t.markers →
    run inner i t = .ok true t' → J t'.markers

theorem markers_store {id : String} {v : Value} (hs : J s.markers)
    (hescapes : ¬Escaping (s.storeStepResult id v)) : J (s.storeStepResult id v).markers := by
  rwa [ExecutionState.markers_storeStepResult hescapes]

theorem markers_loopFinished {collected : Option (List Value)} (hs : J s.markers)
    (hescapes : ¬Escaping (loopFinished step idx collected s)) :
    J (loopFinished step idx collected s).markers := by
  have hend : ¬Escaping (endForeach idx s) → J (endForeach idx s).markers := by
    unfold endForeach
    intro hend
    split
    · exact hs
    · rename_i own hat
      split
      · exact hs
      · rename_i frame outer hstack
        simp only [hat, hstack] at hend
        exact markers_store (s := { s with foreachStack := outer }) hs hend
  unfold loopFinished at hescapes ⊢
  cases collected with
  | none => exact hend hescapes
  | some values => exact markers_store (hend fun hone => hescapes (hone.store _ _)) hescapes

theorem LoopEnd.marked (hkind : step.kind = .forEach ∨ step.kind = .repetition) (hs : J s.markers)
    (hcall : InnerMarked host run J step idx s)
    (h : LoopEnd host run step idx (untilOf step) (beginOf host step) s true s')
    (hescapes : ¬Escaping s') : J s'.markers := by
  cases h with
  | @ended count s₁ t collected hbegin hcount hpasses =>
    have hmade : ∀ m c t t₁ inner i u u', LoopPass host run step (untilOf step) s₁ (m + 1) c t →
        hostNextForeach t = .ok true t₁ →
        StepsCall host run (loopBody step) s₁.action.steps.length (t₁.forget (loopBody step))
          inner i u →
        J u.markers → run inner i u = .ok true u' → J u'.markers :=
      fun m c t t₁ inner i u u' hpass hnext hin =>
        hcall inner i u u' (.pass hkind hbegin hcount hpass hnext hin)
    have hgoes := fun m c t t₁ inner i u u' hpass hnext hin hu hran
      (_ : u'.returnSignal = none) => hmade m c t t₁ inner i u u' hpass hnext hin hu hran
    have hstart : J (s₁.spliceSteps (loopBody step)).markers :=
      (markers_beginOf hbegin (Int.le_of_lt hcount)).symm ▸ hs
    have hdone : J t.markers := by
      generalize hgood : true = good at hpasses
      cases hpasses with
      | exhausted before hnext =>
        rw [markers_hostNextForeach hnext]
        exact before.marked hstart hgoes
      | @broken m c t t₁ t' ended before hnext hbody =>
        refine hbody.marked ?_ (fun inner i u u' => hmade m c t t₁ inner i u u' before hnext)
          (of_decide_eq_true hgood.symm)
        rw [ExecutionState.markers_forget, markers_hostNextForeach hnext]
        exact before.marked hstart hgoes
    exact markers_loopFinished (s := t.truncateSteps s₁.action.steps.length) hdone hescapes
  | empty collected hbegin =>
    exact markers_loopFinished ((markers_beginOf hbegin (Int.le_refl 0)).symm ▸ hs) hescapes

/-- What becomes of the markers when the block of a `try` fails and the `try` does not. -/
def BlockMarked (host : Host) (run : StepDef → Nat → Exec Bool) (J : Markers → Prop)
    (step : StepDef) (s : ExecutionState) : Prop :=
  ∀ t, BlockEnd host run (StepDef.bodySteps (step.params.get "try")) s .failed t →
    (t.returnSignal.isSome → J t.markers) ∧
      (t.returnSignal = none → J ⟨none, none, none, none, false⟩)

theorem FinallyFrom.marked (hkind : step.kind = .guarded) (hs : J s.markers)
    (hcall : InnerMarked host run J step idx s) (hblocks : BlockMarked host run J step s)
    (h : FinallyFrom host run step s false s') : J s'.markers := by
  cases h with
  | succeeded hblock hgo =>
    exact hblock.marked hs (fun inner i t t' hmade => hcall inner i t t' (.tried hkind hmade))
      (by decide)
  | @failed t _ _ hblock hgo hcatch =>
    have hcleared : J t.clearFailure.markers :=
      (clean_clearFailure hblock.not_cancelled).symm ▸ (hblocks t hblock).2 hgo
    generalize hpending : false = pending at hcatch
    cases hcatch with
    | unhandled => cases hpending
    | swallowed => exact hcleared
    | @handled body ended u hbody hhandlers =>
      have hended : ended ≠ .failed := by
        rintro rfl
        cases hpending
      have hdone : J u.markers := hhandlers.marked (s := t.handling step) hcleared
        (fun inner i v v' hmade => hcall inner i v v' (.handler hkind hblock hgo hbody hmade)) hended
      exact hdone

theorem TryEnd.marked (hkind : step.kind = .guarded) (hs : J s.markers)
    (hcall : InnerMarked host run J step idx s) (hblocks : BlockMarked host run J step s)
    (h : TryEnd host run step s true s') (hescapes : ¬Escaping s') : J s'.markers := by
  cases h with
  | @returned ended t hblock hsignal =>
    by_cases hfailed : ended = .failed
    · subst hfailed
      exact (hblocks _ hblock).1 hsignal
    · exact hblock.marked hs (fun inner i t t' hmade => hcall inner i t t' (.tried hkind hmade))
        hfailed
  | @stored t t' v hbefore hcleanup =>
    have ht := hbefore.marked hkind hs hcall hblocks
    refine markers_store ?_ hescapes
    cases hcleanup with
    | skipped hsignal => exact ht
    | ended hgo hok hblock =>
      exact hblock.marked ht
        (fun inner i u u' hmade => hcall inner i u u' (.cleanup hkind hbefore hgo hmade)) hok

/-- What the join of branches that succeeded does to the markers. -/
theorem joinBranches_marked (hs : J s.markers)
    (hmerge : ∀ slot branch, (branchSteps step)[slot]? = some branch →
      (runBranch host run s slot branch).error = none →
      (runBranch host run s slot branch).ok = true → ∀ m, J m →
        J { m with violation :=
          m.violation.or (runBranch host run s slot branch).state.resourceViolation })
    (herror : (joinBranches host run s (branchSteps step)).error = none)
    (hgood : (joinBranches host run s (branchSteps step)).anyFailed = false)
    (hescapes : ¬Escaping (joinBranches host run s (branchSteps step)).state) :
    J (joinBranches host run s (branchSteps step)).state.markers := by
  refine joinBranches_keeps (P := fun join => join.anyFailed = false → ¬Escaping join.state →
    J join.state.markers) (fun _ _ => hs) (fun _ h => h) ?_ herror hgood hescapes
  intro join slot branch hslot hnone ih hfine hkept
  simp only [joinBranch, Bool.or_eq_false_iff, Bool.not_eq_false'] at hfine
  obtain ⟨hbefore, hbranch⟩ := hfine
  simp only [joinBranch, hbranch, Bool.not_true, Bool.false_and] at hkept ⊢
  have hthen := ih hbefore fun h => hkept (merge_escaping _ _ _ _ _ (h.storeAll _))
  rw [ExecutionState.markers_merge hkept]
  exact hmerge slot branch hslot hnone hbranch _ hthen

/-- A step that succeeds, by what it does itself. -/
theorem StepEnd.marked (hanswers : host.FailsByAnswer) (hs : J s.markers)
    (hcall : step.kind ≠ .parallel → InnerMarked host run J step idx s)
    (hleaf : step.kind = .leaf → J { s.markers with calleeError := none, cancelled := false })
    (hblocks : step.kind = .guarded → BlockMarked host run J step s)
    (hmerge : step.kind = .parallel → ∀ slot branch, (branchSteps step)[slot]? = some branch →
      (branchSteps step).length ≤ s.limits.maxParallelBranches →
      (runBranch host run s slot branch).error = none →
      (runBranch host run s slot branch).ok = true → ∀ m, J m →
        J { m with violation :=
          m.violation.or (runBranch host run s slot branch).state.resourceViolation })
    (h : StepEnd host run step idx s true s') (hescapes : ¬Escaping s') : J s'.markers := by
  cases h with
  | loop hkind h =>
    refine h.marked hkind hs (hcall ?_) hescapes
    rcases hkind with hkind | hkind <;> simp [hkind]
  | ifs hkind h =>
    generalize hok : true = ok at h
    cases h with
    | absent habsent => exact hs
    | chosen hbranches hchoose hblock =>
      exact hblock.marked hs (fun inner i t t' hmade => hcall (by simp [hkind]) inner i t t'
        (.chosen hkind hbranches hchoose hmade)) (of_decide_eq_true hok.symm)
  | returning value hkind =>
    have hstored : ¬Escaping (s.storeStepResult step.id value) := hescapes
    exact markers_store hs hstored
  | guarded hkind h => exact h.marked hkind hs (hcall (by simp [hkind])) (hblocks hkind) hescapes
  | parallel hkind h =>
    generalize hok : true = ok at h
    cases h with
    | empty hempty => exact markers_store hs hescapes
    | joined hjoin hwidth herror =>
      have hjoined : ¬Escaping (joinBranches host run s (branchSteps step)).state := fun h =>
        hescapes (h.store _ _)
      exact markers_store (joinBranches_marked hs
        (fun slot branch hslot => hmerge hkind slot branch hslot hwidth) herror
        (by simpa using hok.symm) hjoined) hescapes
  | leaf hkind h =>
    rw [h.markers hanswers hescapes]
    exact hleaf hkind

end Constructs

/-! ### Branches -/

/-- The block of a `try` failed on a violation while a return was under way. -/
def HidesViolation (host : Host) (run : StepDef → Nat → Exec Bool) (step : StepDef)
    (s : ExecutionState) : Prop :=
  ∃ t, BlockEnd host run (StepDef.bodySteps (step.params.get "try")) s .failed t ∧
    t.returnSignal.isSome ∧ t.resourceViolation.isSome

/-- No `try` in a call hides a violation behind a return. -/
def Unhidden (host : Host) : Nat → StepDef → Nat → ExecutionState → Prop
  | 0, _, _, _ => True
  | depth + 1, step, idx, s =>
    (step.kind = .guarded → ¬HidesViolation host (runStepTo host depth) step s) ∧
      ∀ inner i t, DirectCall host (runStepTo host depth) step idx s false inner i t →
        Unhidden host depth inner i t

/-- A branch that succeeds brings no violation, if its steps leave none. -/
theorem runBranch_noViolation {host : Host} {run : StepDef → Nat → Exec Bool} {step : StepDef}
    {idx slot : Nat} {branch : List StepDef} {s : ExecutionState} (hs : s.resourceViolation = none)
    (hkind : step.kind = .parallel) (hslot : (branchSteps step)[slot]? = some branch)
    (hwidth : (branchSteps step).length ≤ s.limits.maxParallelBranches)
    (hcall : InnerMarked host run (fun m => m.violation = none) step idx s)
    (hnone : (runBranch host run s slot branch).error = none)
    (hok : (runBranch host run s slot branch).ok = true) :
    (runBranch host run s slot branch).state.resourceViolation = none := by
  obtain ⟨ended, hended, hanswer⟩ := runBranch_end hnone
  exact hended.marked (J := fun m => m.violation = none) (s := (s.fork slot).spliceSteps branch) hs
    (fun inner i u u' hmade => hcall inner i u u' (.branch hkind hslot hwidth hmade))
    (of_decide_eq_true (hanswer.symm.trans hok))

theorem runStepTo_noViolation {host : Host} (hanswers : host.FailsByAnswer) (depth : Nat)
    {step : StepDef} {idx : Nat} {s s' : ExecutionState} (hs : s.resourceViolation = none)
    (hhidden : Unhidden host depth step idx s) (h : runStepTo host depth step idx s = .ok true s') :
    s'.resourceViolation = none := by
  induction depth generalizing step idx s s' with
  | zero => cases h
  | succ depth ih =>
    obtain ⟨hend, hviolation⟩ := runStepTo_end h
    have hinner : InnerMarked host (runStepTo host depth) (fun m => m.violation = none) step idx s :=
      fun inner i t t' hmade ht hran => ih ht (hhidden.2 inner i t hmade) hran
    refine hend.marked (J := fun m => m.violation = none) hanswers hs (fun _ => hinner) (fun _ => hs)
      (fun hkind t hblock => ⟨fun hsignal => ?_, fun _ => rfl⟩)
      (fun hkind slot branch hslot hwidth hnone hok m hm => ?_) (by simp [Escaping, hviolation])
    · exact Option.not_isSome_iff_eq_none.mp fun hsome =>
        hhidden.1 hkind ⟨t, hblock, hsignal, hsome⟩
    · rw [runBranch_noViolation hs hkind hslot hwidth hinner hnone hok, Option.or_none]
      exact hm

/-! ### The pending failure -/

/-- The failure is reported as that of a callee. -/
def CalleeDecides (s : ExecutionState) : Prop :=
  s.resourceViolation = none ∧ s.calleeError.isSome

/-- A call does nothing that forgets a pending failure: it runs no body while a failed callee
decides, no `try` in it takes care of a failure of its own, and no branch brings a violation. -/
def KeepsFailure (host : Host) : Nat → StepDef → Nat → ExecutionState → Prop
  | 0, _, _, _ => True
  | depth + 1, step, idx, s =>
    (step.kind = .leaf → ¬CalleeDecides s) ∧
    (step.kind = .guarded → ∀ t,
      ¬BlockEnd host (runStepTo host depth) (StepDef.bodySteps (step.params.get "try")) s .failed t) ∧
    (step.kind = .parallel → s.resourceViolation = none →
      ∀ inner i t, DirectCall host (runStepTo host depth) step idx s false inner i t →
        Unhidden host depth inner i t) ∧
    (step.kind ≠ .parallel →
      ∀ inner i t, DirectCall host (runStepTo host depth) step idx s false inner i t →
        KeepsFailure host depth inner i t)

/-- The markers still say what they said, but for a callee that does not decide. -/
def Markers.Says (pending m : Markers) : Prop :=
  m = pending ∨ pending.violation.isSome ∧ m = { pending with calleeError := none }

theorem Markers.Says.leaf {pending m : Markers} (h : pending.Says m)
    (hcancelled : pending.cancelled = false)
    (hdecides : ¬(m.violation = none ∧ m.calleeError.isSome)) :
    pending.Says { m with calleeError := none, cancelled := false } := by
  obtain ⟨last, plugin, callee, violation, cancelled⟩ := pending
  cases hcancelled
  rcases h with rfl | ⟨hviolation, rfl⟩
  · cases violation with
    | some v => exact Or.inr ⟨rfl, rfl⟩
    | none =>
      cases callee with
      | some c => exact absurd ⟨rfl, rfl⟩ hdecides
      | none => exact Or.inl rfl
  · exact Or.inr ⟨hviolation, rfl⟩

theorem Markers.Says.merge {pending m : Markers} {violation : Option ResourceViolation}
    (h : pending.Says m) (hnone : pending.violation = none → violation = none) :
    pending.Says { m with violation := m.violation.or violation } := by
  cases hpending : pending.violation with
  | none =>
    rw [hnone hpending, Option.or_none]
    exact h
  | some v =>
    rcases h with rfl | ⟨hviolation, rfl⟩
    · refine Or.inl ?_
      rw [hpending, Option.some_or, ← hpending]
    · refine Or.inr ⟨hviolation, ?_⟩
      simp only [hpending, Option.some_or]

theorem Markers.Says.violation {pending m : Markers} (h : pending.Says m) :
    m.violation = pending.violation := by
  rcases h with rfl | ⟨-, rfl⟩ <;> rfl

/-- The error is that of the pending failure. -/
theorem Markers.Says.error {s t : ExecutionState} (h : s.markers.Says t.markers) (step : StepDef) :
    stepFailureToError t step = stepFailureToError s step := by
  have hviolation : t.resourceViolation = s.resourceViolation := h.violation
  unfold stepFailureToError
  rw [hviolation]
  rcases h with hsame | ⟨hsome, -⟩
  · have hlast : t.lastError = s.lastError := congrArg Markers.lastError hsame
    have hplugin : t.pluginError = s.pluginError := congrArg Markers.pluginError hsame
    have hcallee : t.calleeError = s.calleeError := congrArg Markers.calleeError hsame
    have hcancelled : t.cancelled = s.cancelled := congrArg Markers.cancelled hsame
    rw [hlast, hplugin, hcallee, hcancelled]
  · obtain ⟨violation, hv⟩ := Option.isSome_iff_exists.mp hsome
    have hv' : s.resourceViolation = some violation := hv
    rw [hv']

theorem runStepTo_says {host : Host} (hanswers : host.FailsByAnswer) {pending : Markers}
    (hcancelled : pending.cancelled = false) (depth : Nat) {step : StepDef} {idx : Nat}
    {s s' : ExecutionState} (hs : pending.Says s.markers) (hkeeps : KeepsFailure host depth step idx s)
    (h : runStepTo host depth step idx s = .ok true s') : pending.Says s'.markers := by
  induction depth generalizing step idx s s' with
  | zero => cases h
  | succ depth ih =>
    obtain ⟨hend, hviolation⟩ := runStepTo_end h
    obtain ⟨hleaf, hblocks, hbranches, hinner⟩ := hkeeps
    refine hend.marked hanswers hs
      (fun hkind inner i t t' hmade ht hran => ih ht (hinner hkind inner i t hmade) hran)
      (fun hkind => hs.leaf hcancelled (hleaf hkind))
      (fun hkind t hblock => absurd hblock (hblocks hkind t))
      (fun hkind slot branch hslot hwidth hnone hok m hm => hm.merge fun hpending => ?_)
      (by simp [Escaping, hviolation])
    have hnow : s.resourceViolation = none := hs.violation.trans hpending
    have hbranch : InnerMarked host (runStepTo host depth) (fun m => m.violation = none) step idx s :=
      fun inner i t t' hmade ht hran =>
        runStepTo_noViolation hanswers depth ht (hbranches hkind hnow inner i t hmade) hran
    exact runBranch_noViolation hnow hkind hslot hwidth hbranch hnone hok

/-! ### `finally` -/

/-- A `try` step fails in its block and is not recovered, and its `finally` is done without a
failure: the states before and after `finally`. -/
structure FailsAcrossFinally (host : Host) (depth : Nat) (step : StepDef)
    (s before after : ExecutionState) : Prop where
  unrecovered : ∃ s₁ r r',
    runBlock host (runStepTo host depth) (StepDef.bodySteps (step.params.get "try")) s =
      .ok (.failed, r) s₁ ∧ s₁.returnSignal = none ∧
    runCatch host (runStepTo host depth) step s₁ = .ok (true, r') before
  cleanup : runFinally host (runStepTo host depth) step before = .ok true after

/-- The step itself then fails in the state after `finally`. -/
theorem FailsAcrossFinally.fails {host : Host} {depth : Nat} {step : StepDef}
    {s before after : ExecutionState} (h : FailsAcrossFinally host depth step s before after) :
    runTry host (runStepTo host depth) step s = .ok false after := by
  obtain ⟨⟨s₁, r, r', hblock, hgo, hcatch⟩, hcleanup⟩ := h
  have hreturned : hasReturned s₁ = .ok false s₁ := by rw [hasReturned, hgo]; rfl
  have hfinish : finishTry host (runStepTo host depth) step true (r'.or r) before =
      .ok false after := bind_ok.mpr ⟨true, after, hcleanup, rfl⟩
  refine bind_ok.mpr ⟨_, _, hblock, bind_ok.mpr ⟨_, _, hreturned, ?_⟩⟩
  exact bind_ok.mpr ⟨_, _, hcatch, hfinish⟩

theorem FailsAcrossFinally.not_cancelled {host : Host} {depth : Nat} {step : StepDef}
    {s before after : ExecutionState} (h : FailsAcrossFinally host depth step s before after) :
    before.cancelled = false := by
  obtain ⟨⟨s₁, r, r', hblock, -, hcatch⟩, -⟩ := h
  have hfailed := (runBlock_end hblock).not_cancelled
  generalize hpending : true = pending at hcatch
  have hend := runCatch_end hcatch
  cases hend with
  | unhandled => exact hfailed
  | swallowed => cases hpending
  | @handled body ended u hbody hhandlers =>
    have hended : ended = .failed := of_decide_eq_true hpending.symm
    subst hended
    exact hhandlers.not_cancelled

/-- No call that `finally` makes on the state forgets the failure. -/
def FinallyKeeps (host : Host) (depth : Nat) (step : StepDef) (before : ExecutionState) : Prop :=
  ∀ inner i t, BlockCall host (runStepTo host depth)
      (StepDef.bodySteps (step.params.get "finally")) before inner i t →
    KeepsFailure host depth inner i t

/-! ### A run of `try` on fixed inputs -/

/-- The step fails across its `finally`, and the states before and after pass `p`. -/
def acrossFinally (host : Host) (depth : Nat) (step : StepDef) (s : ExecutionState)
    (p : ExecutionState → ExecutionState → Bool) : Bool :=
  returnsWith (fun tried s₁ => decide (tried.1 = .failed) && s₁.returnSignal.isNone &&
    returnsWith (fun caught before => caught.1 &&
      returnsWith (fun ok after => ok && p before after)
        (runFinally host (runStepTo host depth) step before))
      (runCatch host (runStepTo host depth) step s₁))
    (runBlock host (runStepTo host depth) (StepDef.bodySteps (step.params.get "try")) s)

theorem exists_of_acrossFinally {host : Host} {depth : Nat} {step : StepDef} {s : ExecutionState}
    {p : ExecutionState → ExecutionState → Bool} (h : acrossFinally host depth step s p = true) :
    ∃ before after, FailsAcrossFinally host depth step s before after ∧ p before after = true := by
  obtain ⟨⟨ended, r⟩, s₁, hblock, hrest⟩ := exists_of_returnsWith h
  simp only [Bool.and_eq_true, decide_eq_true_eq, Option.isNone_iff_eq_none] at hrest
  obtain ⟨⟨rfl, hgo⟩, hrest⟩ := hrest
  obtain ⟨⟨pending, r'⟩, before, hcatch, hlast⟩ := exists_of_returnsWith hrest
  rw [Bool.and_eq_true] at hlast
  obtain ⟨rfl, hlast⟩ := hlast
  obtain ⟨ok, after, hfinally, hp⟩ := exists_of_returnsWith hlast
  rw [Bool.and_eq_true] at hp
  obtain ⟨rfl, hp⟩ := hp
  exact ⟨before, after, ⟨⟨s₁, r, r', hblock, hgo, hcatch⟩, hfinally⟩, hp⟩

theorem StepsReach.length_le {host : Host} {run : StepDef → Nat → Exec Bool} {steps : List StepDef}
    {idx : Nat} {s : ExecutionState} {rest : List StepDef} {i : Nat} {t : ExecutionState}
    (h : StepsReach host run steps idx s rest i t) : rest.length ≤ steps.length := by
  induction h with
  | start => exact Nat.le_refl _
  | next before hpoll hran hgo ih => exact (Nat.le_succ _).trans ih

/-- A list of one step calls that step. -/
theorem StepsCall.of_single {host : Host} {run : StepDef → Nat → Exec Bool} {step inner : StepDef}
    {idx i : Nat} {s t : ExecutionState} (h : StepsCall host run [step] idx s inner i t) :
    inner = step ∧ t = s.ticked := by
  obtain ⟨before, hpoll⟩ := h
  cases before with
  | start => exact ⟨rfl, rfl⟩
  | next before hpoll hran hgo => exact absurd before.length_le (by simp)

/-- A leaf step is no more than its own dispatch. -/
theorem keepsFailure_leaf {host : Host} {depth : Nat} {step : StepDef} {idx : Nat}
    {s : ExecutionState} (hkind : step.kind = .leaf) (hdecides : ¬CalleeDecides s) :
    KeepsFailure host depth step idx s := by
  cases depth with
  | zero => trivial
  | succ depth =>
    refine ⟨fun _ => hdecides, fun h => ?_, fun h => ?_, fun _ inner i t hcall => ?_⟩
    · simp [hkind] at h
    · simp [hkind] at h
    · cases hcall with
      | pass h => simp [hkind] at h
      | tried h | handler h | cleanup h | chosen h | branch h => simp [hkind] at h

/-- The quiet host with an `invoke` whose callee fails. -/
def calleeHost : Host :=
  { quietHost Binary64.display with
    resolveStepType := some
    bodies := fun key =>
      if key = "invoke" then
        some fun _ _ => ⟨.error (.callee "store" "fetch" (.execution "refused")), [], none⟩
      else (quietHost Binary64.display).bodies key }

theorem calleeHost_answers : calleeHost.FailsByAnswer := by
  intro key body s params output hbody hok
  simp only [calleeHost, quietHost] at hbody
  split at hbody
  · cases hbody
    cases hok
  · split at hbody
    · cases hbody
      unfold stepLet at hok ⊢
      split <;> rfl
    · split at hbody
      · cases hbody
        cases hok
      · cases hbody

/-- `try` around a step that fails, with a note in `finally`. -/
def notedGuard (failing : Value) : StepDef :=
  .new "guard" "try" (.object [
    ("try", .array [failing]),
    ("finally", .array [.object [("id", .string "note"), ("type", .string "let"),
      ("params", .object [("value", .null)])]])])

def callGuard : StepDef :=
  notedGuard (.object [("id", .string "call"), ("type", .string "invoke"),
    ("params", .object [("plugin", .string "store"), ("action", .string "fetch")])])

def cryGuard : StepDef :=
  notedGuard (.object [("id", .string "cry"), ("type", .string "throw_error"),
    ("params", .object [("code", .string "EARLIER")])])

/-- The state in which the only step of an action is called. -/
def guardBefore (guard : StepDef) : ExecutionState :=
  (tickState (singleStepState guard)).setOverrides []

/-- A `finally` that does not fail leaves the pending failure, if nothing it calls forgets it. -/
theorem finally_keeps_failure (host : Host) (hanswers : host.FailsByAnswer) {depth : Nat}
    {step : StepDef} {s before after : ExecutionState}
    (h : FailsAcrossFinally host depth step s before after)
    (hkeeps : FinallyKeeps host depth step before) :
    stepFailureToError after step = stepFailureToError before step := by
  refine Markers.Says.error ?_ step
  have hcancelled : before.markers.cancelled = false := h.not_cancelled
  obtain ⟨-, hcleanup⟩ | ⟨hfailed, -, -⟩ := runFinally_end h.cleanup
  · cases hcleanup with
    | skipped hsignal => exact Or.inl rfl
    | ended hgo hok hblock =>
      exact hblock.marked (Or.inl rfl) (fun inner i t t' hmade ht hran =>
        runStepTo_says hanswers hcancelled depth ht (hkeeps inner i t hmade) hran) hok
  · cases hfailed

/-- A thrown payload is still there after the note. -/
theorem finally_keeps_failure_thrown : ∃ before after,
    FailsAcrossFinally calleeHost cryGuard.params.depth cryGuard (guardBefore cryGuard) before
      after ∧
    FinallyKeeps calleeHost cryGuard.params.depth cryGuard before ∧
    stepFailureToError before cryGuard = .pluginError "EARLIER" "" .null ∧
    stepFailureToError after cryGuard = stepFailureToError before cryGuard := by
  have hran : acrossFinally calleeHost cryGuard.params.depth cryGuard (guardBefore cryGuard)
      (fun before _ => before.calleeError.isNone &&
        decide (stepFailureToError before cryGuard = .pluginError "EARLIER" "" .null)) = true := by
    decide +kernel
  obtain ⟨before, after, hacross, hbefore⟩ := exists_of_acrossFinally hran
  rw [Bool.and_eq_true, Option.isNone_iff_eq_none, decide_eq_true_eq] at hbefore
  have hkeeps : FinallyKeeps calleeHost cryGuard.params.depth cryGuard before := by
    intro inner i t hmade
    obtain ⟨rfl, rfl⟩ := StepsCall.of_single hmade
    refine keepsFailure_leaf (by decide) fun hdecides => ?_
    have hsome : before.calleeError.isSome := hdecides.2
    rw [hbefore.1] at hsome
    cases hsome
  exact ⟨before, after, hacross, hkeeps, hbefore.2,
    finally_keeps_failure calleeHost calleeHost_answers hacross hkeeps⟩

/-- The note makes a failed callee a plain failure. -/
theorem note_forgets_callee :
    buildPlan (.ofSteps [callGuard]) = .ok onlyPlan ∧
    RunCalls calleeHost (.ofSteps [callGuard]) onlyPlan (singleStepState callGuard) false callGuard 0
      (guardBefore callGuard) ∧
    ∃ before after,
      FailsAcrossFinally calleeHost callGuard.params.depth callGuard (guardBefore callGuard) before
        after ∧
      stepFailureToError before callGuard =
        .calleeFailed "guard" "store" "fetch" (.execution "refused") ∧
      stepFailureToError after callGuard =
        .execution "step 'call' → store.fetch failed: Execution error: refused" := by
  refine ⟨by decide +kernel, onlyStep_called (.ofSteps [callGuard]) _ rfl, ?_⟩
  have hran : acrossFinally calleeHost callGuard.params.depth callGuard (guardBefore callGuard)
      (fun before after => decide (stepFailureToError before callGuard =
          .calleeFailed "guard" "store" "fetch" (.execution "refused")) &&
        decide (stepFailureToError after callGuard =
          .execution "step 'call' → store.fetch failed: Execution error: refused")) = true := by
    decide +kernel
  obtain ⟨before, after, hacross, herrors⟩ := exists_of_acrossFinally hran
  rw [Bool.and_eq_true, decide_eq_true_eq, decide_eq_true_eq] at herrors
  exact ⟨before, after, hacross, herrors⟩

end Gwead
