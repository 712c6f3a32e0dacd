import Gwead.FanoutFrame

/-!
# The branches of a fan-out over a run

A producer is called before every consumer of it and its branches are made of what that call stored,
so the overrides of a call are those the fan-outs give its step, and no other call sees anything but
what was stored.
-/

namespace Gwead

open Program

section Waves

variable (action : Action) (plan : DagPlan) (p : Nat)

/-- What stands under the id of the producer `p`. -/
def slot (s : ExecutionState) : Option Value := s.stepResults.get? (action.stepAt p).id

/-- What stands there is what a call of the producer left. -/
def ShowsStored (calls : List Dispatch) (s : ExecutionState) : Prop :=
  ∃ d ∈ calls, d.idx = p ∧ slot action p s = slot action p d.after

/-- The producer's call has ended when the call at a place is made; calls on forks of one wave are
made side by side. -/
def Ended (calls : List Dispatch) (i : Nat) (d : Dispatch) : Prop :=
  p ∈ (calls.take i).map Dispatch.idx ∧ (d.forked = true → plan.level p < plan.level d.idx)

/-- What the record of calls and fan-outs says of a producer. -/
structure FanoutRecord (l : WaveLoop) : Prop where
  overrides : ∀ d ∈ l.dispatched,
    d.before.activeFanoutOverrides = fanoutOverrides plan action l.fanout d.idx
  stored : ∀ i d, l.dispatched[i]? = some d → Ended plan p l.dispatched i d →
    ShowsStored action p l.dispatched d.before
  absent : ∀ i d, l.dispatched[i]? = some d → ¬Ended plan p l.dispatched i d →
    slot action p d.before = none
  consumers : ∀ d ∈ l.dispatched, p ∈ plan.depsOf d.idx →
    ShowsStored action p l.dispatched d.before
  split : ∀ branches, l.fanout.lookup p = some branches →
    ∃ d ∈ l.dispatched, d.idx = p ∧ ∃ handle,
      streamHandle (slot action p d.after) = some handle ∧
        Branches handle (plan.consumersAt p).length branches

/-- The overrides that the last call on the state itself was given. -/
def lastOverrides (calls : List Dispatch) : List (String × Nat) :=
  ((calls.filter fun d => !d.forked).getLast?.map (·.before.activeFanoutOverrides)).getD []

/-- The invariant of the wave loop while it goes on: every step below a level has been called, none
from another on. -/
structure FanoutLive (below upto : Nat) (l : WaveLoop) : Prop
    extends FanoutRecord action plan p l where
  called : ∀ i < action.steps.length, plan.level i < below → i ∈ calledSteps l
  levels : ∀ i ∈ calledSteps l, i < action.steps.length ∧ plan.level i < upto
  action_eq : l.state.action = action
  shown : p ∈ calledSteps l → ShowsStored action p l.dispatched l.state
  unshown : p ∉ calledSteps l → slot action p l.state = none
  laid : l.state.activeFanoutOverrides = lastOverrides l.dispatched

variable {action plan p}

theorem ShowsStored.mono {calls more : List Dispatch} {s : ExecutionState}
    (h : ShowsStored action p calls s) : ShowsStored action p (calls ++ more) s := by
  obtain ⟨d, hd, hidx, hslot⟩ := h
  exact ⟨d, List.mem_append_left _ hd, hidx, hslot⟩

theorem ShowsStored.of_slot {calls : List Dispatch} {s t : ExecutionState}
    (h : ShowsStored action p calls s) (hslot : slot action p t = slot action p s) :
    ShowsStored action p calls t := by
  obtain ⟨d, hd, hidx, hstored⟩ := h
  exact ⟨d, hd, hidx, hslot.trans hstored⟩

theorem mem_calledSteps {l : WaveLoop} {i : Nat} :
    i ∈ calledSteps l ↔ ∃ d ∈ l.dispatched, d.idx = i := List.mem_map

/-! ### Installing fan-outs -/

theorem maybeInstallFanout_cases {host : Host} {idx : Nat} {l l' : WaveLoop}
    (h : maybeInstallFanout host action plan idx l = .ok l') :
    l' = l ∨ ∃ handle branches,
      streamHandle (l.state.stepResults.get? (action.stepAt idx).id) = some handle ∧
        host.fanOut l.state handle (plan.consumersAt idx).length = .ok branches ∧
          l' = { l with fanout := AssocMap.put idx branches l.fanout } := by
  unfold maybeInstallFanout at h
  dsimp only at h
  split at h
  · exact .inl (Except.ok.inj h).symm
  · cases hhandle : streamHandle (l.state.stepResults.get? (action.stepAt idx).id) with
    | none =>
      rw [hhandle] at h
      exact .inl (Except.ok.inj h).symm
    | some handle =>
      rw [hhandle] at h
      dsimp only at h
      split at h
      · cases hfan : host.fanOut l.state handle (plan.consumersAt idx).length with
        | error e =>
          rw [hfan] at h
          cases h
        | ok branches =>
          rw [hfan] at h
          exact .inr ⟨handle, branches, rfl, hfan, (Except.ok.inj h).symm⟩
      · exact .inl (Except.ok.inj h).symm

/-- A fan-out changes the overrides of its consumers only. -/
theorem fanoutOverrides_put {idx i : Nat} (h : idx ∉ plan.depsOf i) (branches : List Nat)
    (fanout : List (Nat × List Nat)) :
    fanoutOverrides plan action (AssocMap.put idx branches fanout) i =
      fanoutOverrides plan action fanout i := by
  unfold fanoutOverrides
  refine List.filterMap_congr fun dep hdep => ?_
  rw [AssocMap.lookup_put_ne]
  rintro rfl
  exact h hdep

variable {host : Host} {streams : ExecutionState → StreamTable}

/-- A fan-out of a step that no recorded call depends on keeps the record. -/
theorem FanoutRecord.install {idx : Nat} {l l' : WaveLoop} (h : FanoutRecord action plan p l)
    (hdue : ∀ d ∈ l.dispatched, idx ∉ plan.depsOf d.idx)
    (hown : idx = p → ShowsStored action p l.dispatched l.state)
    (hinstall : maybeInstallFanout (host.onStreams streams) action plan idx l = .ok l') :
    FanoutRecord action plan p l' := by
  obtain rfl | ⟨handle, branches, hhandle, hfan, rfl⟩ := maybeInstallFanout_cases hinstall
  · exact h
  · refine ⟨fun d hd => ?_, h.stored, h.absent, h.consumers, fun branches' hlookup => ?_⟩
    · rw [h.overrides d hd]
      exact (fanoutOverrides_put (hdue d hd) branches l.fanout).symm
    · rw [AssocMap.lookup_put] at hlookup
      by_cases hidx : p = idx
      · subst hidx
        obtain ⟨d, hd, hdidx, hslot⟩ := hown rfl
        rw [beq_self_eq_true, if_pos rfl] at hlookup
        obtain rfl := Option.some.inj hlookup
        exact ⟨d, hd, hdidx, handle, hslot ▸ hhandle, fanOut_branches hfan⟩
      · rw [beq_eq_false_iff_ne.mpr hidx, if_neg Bool.false_ne_true] at hlookup
        exact h.split branches' hlookup

theorem FanoutRecord.installs {steps : List Nat} {l l' : WaveLoop}
    (h : FanoutRecord action plan p l)
    (hdue : ∀ idx ∈ steps, ∀ d ∈ l.dispatched, idx ∉ plan.depsOf d.idx)
    (hown : p ∈ steps → ShowsStored action p l.dispatched l.state)
    (hinstall : installFanouts (host.onStreams streams) action plan steps l = .ok l') :
    FanoutRecord action plan p l' := by
  induction steps generalizing l with
  | nil =>
    cases hinstall
    exact h
  | cons idx rest ih =>
    rw [installFanouts] at hinstall
    cases hone : maybeInstallFanout (host.onStreams streams) action plan idx l with
    | error e =>
      rw [hone] at hinstall
      cases hinstall
    | ok m =>
      rw [hone] at hinstall
      have hm := h.install (hdue idx List.mem_cons_self) (fun he => hown (he ▸ List.mem_cons_self))
        hone
      have hsame : m.state = l.state ∧ m.dispatched = l.dispatched := by
        obtain rfl | ⟨_, _, _, _, rfl⟩ := maybeInstallFanout_cases hone <;> exact ⟨rfl, rfl⟩
      refine ih hm ?_ ?_ hinstall
      · rw [hsame.2]
        exact fun i hi => hdue i (List.mem_cons_of_mem _ hi)
      · rw [hsame.1, hsame.2]
        exact fun hp => hown (List.mem_cons_of_mem _ hp)

theorem FanoutRecord.afterSteps {steps : List Nat} {l : WaveLoop} (h : FanoutRecord action plan p l)
    (hdue : ∀ idx ∈ steps, ∀ d ∈ l.dispatched, idx ∉ plan.depsOf d.idx)
    (hown : p ∈ steps → ShowsStored action p l.dispatched l.state) :
    FanoutRecord action plan p
      (Gwead.afterSteps (host.onStreams streams) action plan steps l).1 := by
  unfold Gwead.afterSteps
  cases hinstall : installFanouts (host.onStreams streams) action plan steps l with
  | error e => exact h
  | ok l' => exact h.installs hdue hown hinstall

theorem FanoutLive.afterSteps {below upto : Nat} {steps : List Nat} {l : WaveLoop}
    (h : FanoutLive action plan p below upto l)
    (hdue : ∀ idx ∈ steps, ∀ d ∈ l.dispatched, idx ∉ plan.depsOf d.idx)
    (hown : p ∈ steps → ShowsStored action p l.dispatched l.state) :
    FanoutLive action plan p below upto
      (Gwead.afterSteps (host.onStreams streams) action plan steps l).1 := by
  obtain ⟨hstate, hcalls⟩ := afterSteps_eq (host.onStreams streams) action plan steps l
  have hcalled : calledSteps (Gwead.afterSteps (host.onStreams streams) action plan steps l).1 =
      calledSteps l := congrArg (List.map Dispatch.idx) hcalls
  refine ⟨h.toFanoutRecord.afterSteps hdue hown, ?_, ?_, ?_, ?_, ?_, ?_⟩
  · exact hcalled ▸ h.called
  · exact hcalled ▸ h.levels
  · exact hstate ▸ h.action_eq
  · rw [hcalled, hcalls, hstate]
    exact h.shown
  · rw [hcalled, hstate]
    exact h.unshown
  · rw [hcalls, hstate]
    exact h.laid

/-! ### Calls -/

theorem ended_append_left {calls more : List Dispatch} {i : Nat} {d : Dispatch}
    (hi : i < calls.length) : Ended plan p (calls ++ more) i d ↔ Ended plan p calls i d := by
  rw [Ended, List.take_append_of_le_length hi.le, Ended]

theorem FanoutRecord.append {l : WaveLoop} {ds : List Dispatch} (h : FanoutRecord action plan p l)
    (hoverrides : ∀ d ∈ ds,
      d.before.activeFanoutOverrides = fanoutOverrides plan action l.fanout d.idx)
    (hstored : ∀ i d, ds[i]? = some d →
      Ended plan p (l.dispatched ++ ds) (l.dispatched.length + i) d →
        ShowsStored action p l.dispatched d.before)
    (habsent : ∀ i d, ds[i]? = some d →
      ¬Ended plan p (l.dispatched ++ ds) (l.dispatched.length + i) d → slot action p d.before = none)
    (hconsumers : ∀ d ∈ ds, p ∈ plan.depsOf d.idx → ShowsStored action p l.dispatched d.before)
    (s : ExecutionState) : FanoutRecord action plan p ⟨s, l.fanout, l.dispatched ++ ds⟩ := by
  refine ⟨List.forall_mem_append.mpr ⟨h.overrides, hoverrides⟩, fun i d hd hended => ?_,
    fun i d hd hnot => ?_, ?_, fun branches hlookup => ?_⟩
  · rcases Nat.lt_or_ge i l.dispatched.length with hi | hi
    · rw [List.getElem?_append_left hi] at hd
      exact (h.stored i d hd ((ended_append_left hi).mp hended)).mono
    · obtain ⟨j, rfl⟩ := Nat.exists_eq_add_of_le hi
      rw [List.getElem?_append_right hi, Nat.add_sub_cancel_left] at hd
      exact (hstored j d hd hended).mono
  · rcases Nat.lt_or_ge i l.dispatched.length with hi | hi
    · rw [List.getElem?_append_left hi] at hd
      exact h.absent i d hd fun hended => hnot ((ended_append_left hi).mpr hended)
    · obtain ⟨j, rfl⟩ := Nat.exists_eq_add_of_le hi
      rw [List.getElem?_append_right hi, Nat.add_sub_cancel_left] at hd
      exact habsent j d hd hnot
  · exact List.forall_mem_append.mpr ⟨fun d hd hdep => (h.consumers d hd hdep).mono,
      fun d hd hdep => (hconsumers d hd hdep).mono⟩
  · obtain ⟨d, hd, hsplit⟩ := h.split branches hlookup
    exact ⟨d, List.mem_append_left _ hd, hsplit⟩

/-- A call on the state itself is made when every earlier one has ended. -/
theorem ended_sequential {calls : List Dispatch} {d : Dispatch} (hd : d.forked = false) (i : Nat)
    (e : Dispatch) (he : [d][i]? = some e) :
    Ended plan p (calls ++ [d]) (calls.length + i) e ↔ p ∈ calls.map Dispatch.idx := by
  have hi : i = 0 := by
    have := (List.getElem?_eq_some_iff.mp he).1
    simpa using this
  subst hi
  obtain rfl : d = e := by simpa using he
  simp [Ended, hd]

/-- A call on a fork is made when every call of an earlier wave has ended. -/
theorem ended_forked {k : Nat} {l : WaveLoop} {ds : List Dispatch}
    (h : FanoutLive action plan p k k l)
    (hds : ∀ d ∈ ds, d.forked = true ∧ plan.level d.idx = k) (i : Nat) (d : Dispatch)
    (hd : ds[i]? = some d) :
    Ended plan p (l.dispatched ++ ds) (l.dispatched.length + i) d ↔ p ∈ calledSteps l := by
  obtain ⟨hforked, hlevel⟩ := hds d (List.mem_of_getElem? hd)
  have htake : (l.dispatched ++ ds).take (l.dispatched.length + i) = l.dispatched ++ ds.take i :=
    List.take_length_add_append i
  rw [Ended, htake, List.map_append, List.mem_append, hlevel]
  constructor
  · rintro ⟨hin | hin, hless⟩
    · exact hin
    · obtain ⟨e, he, rfl⟩ := List.mem_map.mp hin
      have heq := (hds e (List.mem_of_mem_take he)).2
      exact absurd (hless hforked) (by omega)
  · exact fun hin => ⟨.inl hin, fun _ => (h.levels p hin).2⟩

section Steps

variable (hvalid : plan.Valid action.steps)
include hvalid

/-- No call made so far depends on a step of the wave under way. -/
theorem FanoutLive.not_due {below k idx : Nat} {l : WaveLoop}
    (h : FanoutLive action plan p below (k + 1) l) (hlevel : plan.level idx = k) :
    ∀ d ∈ l.dispatched, idx ∉ plan.depsOf d.idx := by
  intro d hd hdep
  obtain ⟨hlt, hupto⟩ := h.levels d.idx (mem_calledSteps.mpr ⟨d, hd, rfl⟩)
  have hless : plan.level idx < plan.level d.idx :=
    Layering.level_lt_of_dep plan.depsOf hvalid.deps_lt hlt hdep
  omega

/-- Calls of steps of the wave under way, which are shown what the state shows. -/
theorem FanoutLive.spawn {k upto : Nat} {l : WaveLoop} {ds : List Dispatch}
    (h : FanoutLive action plan p k upto l)
    (hstep : ∀ d ∈ ds, d.idx < action.steps.length ∧ plan.level d.idx = k)
    (hended : ∀ i d, ds[i]? = some d →
      (Ended plan p (l.dispatched ++ ds) (l.dispatched.length + i) d ↔ p ∈ calledSteps l))
    (hoverrides : ∀ d ∈ ds,
      d.before.activeFanoutOverrides = fanoutOverrides plan action l.fanout d.idx)
    (hslot : ∀ d ∈ ds, slot action p d.before = slot action p l.state) (s : ExecutionState) :
    FanoutRecord action plan p ⟨s, l.fanout, l.dispatched ++ ds⟩ := by
  have hshown : ∀ d ∈ ds, p ∈ calledSteps l → ShowsStored action p l.dispatched d.before :=
    fun d hd hcalled => (h.shown hcalled).of_slot (hslot d hd)
  refine h.toFanoutRecord.append hoverrides (fun i d hd hend => ?_) (fun i d hd hnot => ?_)
    (fun d hd hdep => ?_) s
  · exact hshown d (List.mem_of_getElem? hd) ((hended i d hd).mp hend)
  · have habsent : p ∉ calledSteps l := fun hcalled => hnot ((hended i d hd).mpr hcalled)
    exact (hslot d (List.mem_of_getElem? hd)).trans (h.unshown habsent)
  · obtain ⟨hlt, hlevel⟩ := hstep d hd
    have hless : plan.level p < plan.level d.idx :=
      Layering.level_lt_of_dep plan.depsOf hvalid.deps_lt hlt hdep
    exact hshown d hd (h.called p ((hvalid.deps_lt d.idx hlt p hdep).trans hlt) (hlevel ▸ hless))

variable (hp : p < action.steps.length)
  (hids : ∀ inner, InBody action inner → inner.id ≠ (action.stepAt p).id)
include hp hids

/-- Another step leaves the producer's result as it is. -/
theorem slot_runStep {idx : Nat} (hidx : idx < action.steps.length) (hne : idx ≠ p)
    {s s' : ExecutionState} {ok : Bool} (haction : s.action = action)
    (hran : runStep host (action.stepAt idx) idx s = .ok ok s') :
    slot action p s' = slot action p s := by
  have hat : s.action.steps[idx]? = some (action.stepAt idx) := by
    rw [haction, Action.stepAt, List.getD_eq_getElem _ _ hidx, List.getElem?_eq_getElem hidx]
  have htop : action.stepAt idx ∈ action.steps := by
    rw [Action.stepAt, List.getD_eq_getElem _ _ hidx]
    exact List.getElem_mem hidx
  refine @runStepTo_keeps_result (action.stepAt p).id host
    (fun step => step = action.stepAt idx ∨ InBody action step) ?_ ?_ _ _ idx s ok s' (.inl rfl) hat
    hran
  · rintro step inner (rfl | hin) hsplices
    · exact .inr (inBody_of_splices htop hsplices)
    · exact .inr (hin.closed hsplices)
  · rintro step (rfl | hin)
    · exact fun heq => hne (stepAt_inj hvalid hidx hp heq)
    · exact hids step hin

/-- A step of a wave that is run on the state itself. -/
theorem fanoutLive_sequential {k idx : Nat} (hidx : idx < action.steps.length)
    (hlevel : plan.level idx = k) {l : WaveLoop} (h : FanoutLive action plan p k (k + 1) l) :
    FanoutRecord action plan p (runSequentialStep (host.onStreams streams) action plan idx l).1 ∧
      ((runSequentialStep (host.onStreams streams) action plan idx l).2 = none →
        FanoutLive action plan p k (k + 1)
          (runSequentialStep (host.onStreams streams) action plan idx l).1) := by
  unfold runSequentialStep
  dsimp only
  split
  · exact ⟨⟨h.overrides, h.stored, h.absent, h.consumers, h.split⟩, nofun⟩
  · generalize hb : (tickState l.state).setOverrides (fanoutOverrides plan action l.fanout idx) =
      before
    have hover : before.activeFanoutOverrides = fanoutOverrides plan action l.fanout idx := by
      rw [← hb]
      rfl
    have hslot : slot action p before = slot action p l.state := by
      rw [← hb]
      rfl
    have haction : before.action = action := by
      rw [← hb]
      exact h.action_eq
    have hspawn : ∀ result s, FanoutRecord action plan p
        ⟨s, l.fanout, l.dispatched ++ [⟨idx, false, before, result⟩]⟩ := fun result s =>
      h.spawn hvalid (List.forall_mem_singleton.mpr ⟨hidx, hlevel⟩) (ended_sequential rfl)
        (List.forall_mem_singleton.mpr hover) (List.forall_mem_singleton.mpr hslot) s
    cases hran : runStep (host.onStreams streams) (action.stepAt idx) idx before with
    | error e s => exact ⟨hspawn _ _, nofun⟩
    | ok ok s =>
      cases ok with
      | false => exact ⟨hspawn _ _, nofun⟩
      | true =>
        have hset := (runStep_sameSetting (host.onStreams streams) (action.stepAt idx) idx).ok hran
        have hcalled : calledSteps ⟨s, l.fanout, l.dispatched ++ [⟨idx, false, before, .ok true s⟩]⟩ =
            calledSteps l ++ [idx] := List.map_append
        have hown : p ∈ calledSteps l ++ [idx] → ShowsStored action p
            (l.dispatched ++ [⟨idx, false, before, .ok true s⟩]) s := by
          intro hmem
          by_cases hip : idx = p
          · exact ⟨_, List.mem_append_right _ (List.mem_singleton_self _), hip, rfl⟩
          · have hcalled : p ∈ calledSteps l := by
              simpa [Ne.symm hip] using hmem
            have hkept := slot_runStep hvalid hp hids hidx hip haction hran
            exact ((h.shown hcalled).of_slot (hkept.trans hslot)).mono
        have hlive : FanoutLive action plan p k (k + 1)
            ⟨s, l.fanout, l.dispatched ++ [⟨idx, false, before, .ok true s⟩]⟩ := by
          refine ⟨hspawn _ _, ?_, ?_, ?_, ?_, ?_, ?_⟩
          · rw [hcalled]
            exact fun i hi hbelow => List.mem_append_left _ (h.called i hi hbelow)
          · rw [hcalled]
            refine List.forall_mem_append.mpr ⟨h.levels, ?_⟩
            exact List.forall_mem_singleton.mpr ⟨hidx, by omega⟩
          · exact hset.action.trans haction
          · rw [hcalled]
            exact hown
          · rw [hcalled]
            intro hnot
            rw [List.mem_append, List.mem_singleton, not_or] at hnot
            have hkept := slot_runStep hvalid hp hids hidx (Ne.symm hnot.2) haction hran
            rw [hkept, hslot, h.unshown hnot.1]
          · rw [hset.overrides]
            simp [lastOverrides]
        have hnext : FanoutLive action plan p k (k + 1) (afterSteps (host.onStreams streams) action
            plan [idx] ⟨s, l.fanout, l.dispatched ++ [⟨idx, false, before, .ok true s⟩]⟩).1 :=
          hlive.afterSteps (List.forall_mem_singleton.mpr (hlive.not_due hvalid hlevel))
            fun hmem => hown (List.mem_append_right _ hmem)
        exact ⟨hnext.toFanoutRecord, fun _ => hnext⟩

end Steps

/-! ### Merges -/

theorem stepResults_mergeTaskState (c t : ExecutionState) (id : String)
    (baseline : IndexMap String Value) :
    (mergeTaskState c t id baseline).stepResults = (mergeStepEntry c t id).stepResults :=
  stepResults_setVariables (mergeStepEntry c t id) (introduced baseline t)

/-- A merge leaves every result but that of the task's own step. -/
theorem get?_mergeTaskState_ne {c t : ExecutionState} {id b : String}
    {baseline : IndexMap String Value} (h : id ≠ b) :
    (mergeTaskState c t id baseline).stepResults.get? b = c.stepResults.get? b := by
  rw [stepResults_mergeTaskState]
  unfold mergeStepEntry
  cases t.stepResults.get? id with
  | none => cases t.stepMetadata.get? id <;> rfl
  | some result => cases t.stepMetadata.get? id <;> exact get?_store_ne h

/-- Unless a store is refused, a merge takes the result of the task's own step over. -/
theorem get?_mergeTaskState_self {c t : ExecutionState} {id : String}
    {baseline : IndexMap String Value} (h : ¬Escaping (mergeTaskState c t id baseline)) :
    (mergeTaskState c t id baseline).stepResults.get? id =
      (t.stepResults.get? id).or (c.stepResults.get? id) := by
  have hentry : ¬Escaping (mergeStepEntry c t id) := fun hs =>
    h (Escaping.takeSignals t (c := ((mergeStepEntry c t id).setVariables
      (introduced baseline t)).keepFailure t) (hs.setVariables _))
  rw [stepResults_mergeTaskState]
  unfold mergeStepEntry at hentry ⊢
  cases hresult : t.stepResults.get? id with
  | none => cases t.stepMetadata.get? id <;> rfl
  | some result =>
    have hstored : ¬Escaping (c.storeStepResult id result) := by
      intro hs
      rw [hresult] at hentry
      cases hmetadata : t.stepMetadata.get? id <;> rw [hmetadata] at hentry <;> exact hentry hs
    have hget : (c.storeStepResult id result).stepResults.get? id = some result :=
      get?_storeStepResult (by simpa [Escaping] using hstored)
    cases t.stepMetadata.get? id <;> exact hget

theorem slot_merges_absent {baseline : IndexMap String Value} {tasks : List Dispatch}
    {c : ExecutionState} (h : ∀ d ∈ tasks, (action.stepAt d.idx).id ≠ (action.stepAt p).id) :
    slot action p (tasks.foldl (mergeDispatch action baseline) c) = slot action p c := by
  induction tasks generalizing c with
  | nil => rfl
  | cons d rest ih =>
    rw [List.foldl_cons, ih fun e he => h e (List.mem_cons_of_mem _ he)]
    exact get?_mergeTaskState_ne (h d List.mem_cons_self)

/-- Of the tasks of a wave, the one of the producer gives the producer's result. -/
theorem slot_merges {baseline : IndexMap String Value} {tasks : List Dispatch} {c : ExecutionState}
    (hother : ∀ d ∈ tasks, (action.stepAt d.idx).id = (action.stepAt p).id → d.idx = p)
    (hnodup : (tasks.map Dispatch.idx).Nodup) (hc : slot action p c = none)
    (hfits : ¬Escaping (tasks.foldl (mergeDispatch action baseline) c)) {d : Dispatch}
    (hd : d ∈ tasks) (hidx : d.idx = p) :
    slot action p (tasks.foldl (mergeDispatch action baseline) c) = slot action p d.after := by
  induction tasks generalizing c with
  | nil => cases hd
  | cons e rest ih =>
    obtain ⟨hfresh, hnodup⟩ := List.nodup_cons.mp hnodup
    rw [List.foldl_cons] at hfits ⊢
    by_cases he : e.idx = p
    · have hde : d = e := by
        rcases List.mem_cons.mp hd with rfl | hd
        · rfl
        · exact absurd (List.mem_map.mpr ⟨d, hd, hidx.trans he.symm⟩) hfresh
      subst hde
      have hrest : ∀ f ∈ rest, (action.stepAt f.idx).id ≠ (action.stepAt p).id := by
        intro f hf heq
        have hfp := hother f (List.mem_cons_of_mem _ hf) heq
        exact hfresh (List.mem_map.mpr ⟨f, hf, hfp.trans he.symm⟩)
      have hone : ¬Escaping (mergeDispatch action baseline c d) := fun hs => hfits (merges_keep.2 hs)
      have hself := get?_mergeTaskState_self hone
      rw [slot_merges_absent hrest, ← Option.or_none (o := slot action p d.after), ← hc]
      unfold slot
      rw [← he]
      exact hself
    · have hd' : d ∈ rest := by
        rcases List.mem_cons.mp hd with rfl | hd
        · exact absurd hidx he
        · exact hd
      refine ih (fun f hf => hother f (List.mem_cons_of_mem _ hf)) hnodup ?_ hfits hd'
      rw [← hc]
      exact get?_mergeTaskState_ne fun heq => he (hother e List.mem_cons_self heq)

/-! ### The run -/

theorem mem_forkWave {wave : List Nat} {l : WaveLoop} {d : Dispatch}
    (hd : d ∈ forkWave host action plan wave l) : d.idx ∈ wave ∧ d.forked = true ∧
      slot action p d.before = slot action p l.state ∧
      d.before.activeFanoutOverrides = fanoutOverrides plan action l.fanout d.idx := by
  obtain ⟨i, hi, rfl⟩ := List.mem_mapIdx.mp hd
  exact ⟨List.getElem_mem hi, rfl, rfl, rfl⟩

/-- Calls on forks lay nothing on the state itself. -/
theorem lastOverrides_forks {calls tasks : List Dispatch} (h : ∀ d ∈ tasks, d.forked = true) :
    lastOverrides (calls ++ tasks) = lastOverrides calls := by
  have hnone : (tasks.filter fun d => !d.forked) = [] :=
    List.filter_eq_nil_iff.mpr fun d hd => by simp [h d hd]
  rw [lastOverrides, List.filter_append, hnone, List.append_nil, lastOverrides]

theorem FanoutLive.polled {below upto : Nat} {l : WaveLoop}
    (h : FanoutLive action plan p below upto l) : FanoutLive action plan p below upto l.polled :=
  ⟨⟨h.overrides, h.stored, h.absent, h.consumers, h.split⟩, h.called, h.levels, h.action_eq, h.shown,
    h.unshown, h.laid⟩

theorem FanoutLive.mono {below upto upto' : Nat} {l : WaveLoop} (hle : upto ≤ upto')
    (h : FanoutLive action plan p below upto l) : FanoutLive action plan p below upto' l :=
  ⟨h.toFanoutRecord, h.called, fun i hi => ⟨(h.levels i hi).1, (h.levels i hi).2.trans_le hle⟩,
    h.action_eq, h.shown, h.unshown, h.laid⟩

/-- When every step of a level has been called, the next wave is under way. -/
theorem FanoutLive.raise {k : Nat} {l : WaveLoop} (h : FanoutLive action plan p k (k + 1) l)
    (hall : ∀ i < action.steps.length, plan.level i = k → i ∈ calledSteps l) :
    FanoutLive action plan p (k + 1) (k + 1) l := by
  refine ⟨h.toFanoutRecord, fun i hi hlevel => ?_, h.levels, h.action_eq, h.shown, h.unshown, h.laid⟩
  rcases Nat.lt_succ_iff_lt_or_eq.mp hlevel with hlt | heq
  · exact h.called i hi hlt
  · exact hall i hi heq

section Run

variable (hvalid : plan.Valid action.steps) (hp : p < action.steps.length)
include hvalid hp

/-- A wave whose steps are run on forks. -/
theorem fanoutLive_parallel {k : Nat} {wave : List Nat} (hnodup : wave.Nodup)
    (hwave : ∀ idx ∈ wave, idx < action.steps.length ∧ plan.level idx = k) {l : WaveLoop}
    (h : FanoutLive action plan p k k l) :
    FanoutRecord action plan p (runParallelWave (host.onStreams streams) action plan wave l).1 ∧
      ((runParallelWave (host.onStreams streams) action plan wave l).2 = none →
        FanoutLive action plan p k (k + 1)
          (runParallelWave (host.onStreams streams) action plan wave l).1) := by
  unfold runParallelWave
  dsimp only
  split
  · exact ⟨h.polled.toFanoutRecord, nofun⟩
  · have hpolled := h.polled
    have hmap := map_idx_forkWave (host.onStreams streams) action plan wave l.polled
    have htasks : ∀ d ∈ forkWave (host.onStreams streams) action plan wave l.polled,
        d.idx ∈ wave ∧ d.forked = true ∧ slot action p d.before = slot action p l.polled.state ∧
          d.before.activeFanoutOverrides = fanoutOverrides plan action l.polled.fanout d.idx :=
      fun _ => mem_forkWave
    generalize l.polled = polled at hpolled hmap htasks ⊢
    generalize forkWave (host.onStreams streams) action plan wave polled = tasks at hmap htasks ⊢
    have hstep : ∀ d ∈ tasks, d.idx < action.steps.length ∧ plan.level d.idx = k := fun d hd =>
      hwave d.idx (htasks d hd).1
    have hspawn : ∀ s, FanoutRecord action plan p ⟨s, polled.fanout, polled.dispatched ++ tasks⟩ :=
      hpolled.spawn hvalid hstep
        (ended_forked hpolled fun d hd => ⟨(htasks d hd).2.1, (hstep d hd).2⟩)
        (fun d hd => (htasks d hd).2.2.2) fun d hd => (htasks d hd).2.2.1
    split
    · exact ⟨hspawn _, nofun⟩
    · exact ⟨hspawn _, nofun⟩
    · unfold joinWave
      dsimp only
      split
      · exact ⟨hspawn _, nofun⟩
      · cases hviolation : escapingViolation (mergeWave action tasks polled.state) with
        | some e => exact ⟨hspawn _, nofun⟩
        | none =>
          dsimp only
          have hfits : ¬Escaping (mergeWave action tasks polled.state) := by
            simp [Escaping, hviolation]
          have hother : ∀ d ∈ tasks, (action.stepAt d.idx).id = (action.stepAt p).id → d.idx = p :=
            fun d hd => stepAt_inj hvalid (hstep d hd).1 hp
          have hcalled : calledSteps ⟨mergeWave action tasks polled.state, polled.fanout,
              polled.dispatched ++ tasks⟩ = calledSteps polled ++ wave := by
            rw [calledSteps, List.map_append, hmap]
            rfl
          have hown : p ∈ wave → ShowsStored action p (polled.dispatched ++ tasks)
              (mergeWave action tasks polled.state) := by
            intro hmem
            -- no step of the wave has been called before
            have hnot : p ∉ calledSteps polled := fun hin =>
              absurd (hpolled.levels p hin).2 (by rw [(hwave p hmem).2]; exact lt_irrefl k)
            obtain ⟨d, hd, hidx⟩ := List.mem_map.mp (hmap ▸ hmem)
            exact ⟨d, List.mem_append_right _ hd, hidx, slot_merges hother (hmap ▸ hnodup)
              (hpolled.unshown hnot) hfits hd hidx⟩
          have hkept : p ∉ wave → slot action p (mergeWave action tasks polled.state) =
              slot action p polled.state := fun hnot =>
            slot_merges_absent fun d hd heq => hnot (hother d hd heq ▸ (htasks d hd).1)
          have hset := sameSetting_preserved.mergeWave action tasks polled.state
          have hlive : FanoutLive action plan p k (k + 1) ⟨mergeWave action tasks polled.state,
              polled.fanout, polled.dispatched ++ tasks⟩ := by
            refine ⟨hspawn _, ?_, ?_, ?_, ?_, ?_, ?_⟩
            · rw [hcalled]
              exact fun i hi hbelow => List.mem_append_left _ (hpolled.called i hi hbelow)
            · rw [hcalled]
              refine List.forall_mem_append.mpr ⟨fun i hi => ?_, fun i hi => ?_⟩
              · exact ⟨(hpolled.levels i hi).1, (hpolled.levels i hi).2.trans k.lt_succ_self⟩
              · exact ⟨(hwave i hi).1, (hwave i hi).2 ▸ k.lt_succ_self⟩
            · exact hset.action.trans hpolled.action_eq
            · rw [hcalled]
              intro hmem
              by_cases hin : p ∈ wave
              · exact hown hin
              · have hin' : p ∈ calledSteps polled := by simpa [hin] using hmem
                exact ((hpolled.shown hin').of_slot (hkept hin)).mono
            · rw [hcalled]
              intro hnot
              rw [List.mem_append, not_or] at hnot
              exact (hkept hnot.2).trans (hpolled.unshown hnot.1)
            · rw [lastOverrides_forks fun d hd => (htasks d hd).2.1]
              exact hset.overrides.trans hpolled.laid
          have hnext : FanoutLive action plan p k (k + 1) (afterSteps (host.onStreams streams) action
              plan wave ⟨mergeWave action tasks polled.state, polled.fanout,
                polled.dispatched ++ tasks⟩).1 :=
            hlive.afterSteps (fun idx hidx => hlive.not_due hvalid (hwave idx hidx).2) hown
          exact ⟨hnext.toFanoutRecord, fun _ => hnext⟩

variable (hids : ∀ inner, InBody action inner → inner.id ≠ (action.stepAt p).id)
include hids

theorem fanoutLive_wave {k : Nat} (hk : k < plan.waves.length) {l : WaveLoop}
    (h : FanoutLive action plan p k k l) :
    FanoutRecord action plan p (runWave (host.onStreams streams) action plan plan.waves[k] l).1 ∧
      ((runWave (host.onStreams streams) action plan plan.waves[k] l).2 = none →
        FanoutLive action plan p (k + 1) (k + 1)
          (runWave (host.onStreams streams) action plan plan.waves[k] l).1) := by
  have hwave : ∀ idx ∈ plan.waves[k], idx < action.steps.length ∧ plan.level idx = k :=
    fun idx hidx => (hvalid.mem_wave_iff hk).mp hidx
  have hnodup : plan.waves[k].Nodup := by
    rw [hvalid.getElem_wave hk]
    exact List.nodup_range.filter _
  have hone : FanoutRecord action plan p
      (runWave (host.onStreams streams) action plan plan.waves[k] l).1 ∧
        ((runWave (host.onStreams streams) action plan plan.waves[k] l).2 = none →
          FanoutLive action plan p k (k + 1)
            (runWave (host.onStreams streams) action plan plan.waves[k] l).1) := by
    unfold runWave
    split
    · exact fanoutLive_parallel hvalid hp hnodup hwave h
    · exact UntilStop.run_rule (P := fun l => FanoutLive action plan p k (k + 1) l)
        (Q := fun l => FanoutRecord action plan p l) (fun _ hl => hl.toFanoutRecord)
        (fun idx hidx l hl => fanoutLive_sequential hvalid hp hids (hwave idx hidx).1
          (hwave idx hidx).2 hl) (h.mono k.le_succ)
  refine ⟨hone.1, fun hgo => (hone.2 hgo).raise fun i hi hlevel => ?_⟩
  obtain ⟨called, hcalled, -, hfull⟩ :=
    calledSteps_runWave (host.onStreams streams) action plan plan.waves[k] l
  rw [hcalled, hfull hgo]
  exact List.mem_append_right _ ((hvalid.mem_wave_iff hk).mpr ⟨hi, hlevel⟩)

/-- In every run the overrides of a call are those the fan-outs give its step; and so are those of
the state at the end, with the step of the last call on the state itself. -/
theorem fanoutLive_runWaves {s : ExecutionState} (haction : s.action = action)
    (hoverrides : s.activeFanoutOverrides = []) (hresults : slot action p s = none) :
    FanoutRecord action plan p (runWaves (host.onStreams streams) action plan s).1 ∧
      ((runWaves (host.onStreams streams) action plan s).2 = none →
        FanoutLive action plan p plan.waves.length plan.waves.length
          (runWaves (host.onStreams streams) action plan s).1) := by
  refine UntilStop.run_along
    (P := fun done l => FanoutLive action plan p done.length done.length l)
    (Q := fun l => FanoutRecord action plan p l) (fun _ _ hl => hl.toFanoutRecord) ?_ ?_
  · intro done wave rest hwaves l hl
    have hk : done.length < plan.waves.length := by simp [hwaves]
    have hat : plan.waves[done.length] = wave := by simp [hwaves]
    rw [List.length_append, List.length_singleton, ← hat]
    exact fanoutLive_wave hvalid hp hids hk hl
  · have hnone : ∀ d : Dispatch, d ∉ ([] : List Dispatch) := fun _ => List.not_mem_nil
    refine ⟨⟨?_, ?_, ?_, ?_, ?_⟩, ?_, ?_, haction, ?_, fun _ => hresults, hoverrides⟩
    · exact fun d hd => absurd hd (hnone d)
    · exact fun i d hd => absurd (List.mem_of_getElem? hd) (hnone d)
    · exact fun i d hd => absurd (List.mem_of_getElem? hd) (hnone d)
    · exact fun d hd => absurd hd (hnone d)
    · exact fun branches hlookup => by cases hlookup
    · exact fun i _ hlt => absurd hlt (Nat.not_lt_zero _)
    · exact fun i hi => absurd hi List.not_mem_nil
    · exact fun hi => absurd hi List.not_mem_nil

end Run

end Waves

end Gwead
