import Gwead.Surfaces
import Gwead.Waves

/-!
# Writers before readers of a variable

A reference to a variable gives no dependency edge, so whether a writer runs before a reader
declared after it is decided by the levels the other references give the two steps.
-/

namespace Gwead

open Dsl

/-! ### Binding a variable -/

namespace ExecutionState

/-- A result is stored unless the invocation's budget is exceeded. -/
theorem get_storeStepResult {s : ExecutionState} {id : String} {v : Value}
    (h : escapingViolation (s.storeStepResult id v) = none) :
    (s.storeStepResult id v).stepResults.get? id = some v := by
  unfold storeStepResult at h ⊢
  dsimp only at h ⊢
  split at h
  · cases h
  · rename_i hfits
    rw [if_neg hfits]
    exact IndexMap.get?_insert_self _ id v

end ExecutionState

/-- A step that binds a variable to its result. -/
def Binds (step : StepDef) (x : String) (s : ExecutionState) : Prop :=
  ∃ v, s.stepResults.get? step.id = some v ∧ s.vars.get? x = some v

theorem addMetadata_eq (s : ExecutionState) (id : String) (metadata : IndexMap String Value) :
    ∃ m, addMetadata s id metadata = { s with stepMetadata := m } := by
  unfold addMetadata
  split
  · exact ⟨_, rfl⟩
  · exact ⟨_, rfl⟩

theorem finishOutput_binds {host : Host} {step : StepDef} {output : StepOutput} {x : String}
    {s t : ExecutionState} (hx : step.storeToVariable = some x)
    (h : finishOutput host step output s = (true, t)) (hfits : escapingViolation t = none) :
    Binds step x t := by
  unfold finishOutput at h
  dsimp only at h
  split at h
  · cases h
  · obtain ⟨m, hm⟩ := addMetadata_eq (s.storeStepResult step.id output.value) step.id output.metadata
    simp only [Prod.mk.injEq, true_and] at h
    rw [hm, bindVariable, hx] at h
    subst h
    have hget : (s.storeStepResult step.id output.value).stepResults.get? step.id =
        some output.value := ExecutionState.get_storeStepResult hfits
    refine ⟨output.value, hget, ?_⟩
    simp only [ExecutionState.setVariable, hget, IndexMap.get?_insert_self, Option.getD_some]

theorem dispatchWithSecrets_binds {host : Host} {step : StepDef} {body : StepBody} {x : String}
    {s t : ExecutionState} (hx : step.storeToVariable = some x)
    (h : dispatchWithSecrets host step body s = (true, t)) (hfits : escapingViolation t = none) :
    Binds step x t := by
  unfold dispatchWithSecrets at h
  dsimp only at h
  split at h
  · exact finishOutput_binds hx h hfits
  · cases h

theorem dispatchTraitStep_binds {host : Host} {step : StepDef} {body : StepBody} {x : String}
    {idx : Nat} {s t : ExecutionState} (hstep : s.action.steps[idx]? = some step)
    (hx : step.storeToVariable = some x)
    (h : dispatchTraitStep host body idx s = (true, t)) (hfits : escapingViolation t = none) :
    Binds step x t := by
  unfold dispatchTraitStep at h
  rw [hstep] at h
  dsimp only at h
  split at h
  · cases h
  · exact dispatchWithSecrets_binds hx h hfits
  · exact dispatchWithSecrets_binds hx h hfits

/-- A run of a leaf step that ends well has bound the step's variable to its result. -/
theorem runStep_leaf_binds {host : Host} {step : StepDef} {x : String} {idx : Nat}
    {s t : ExecutionState} (hkind : step.kind = .leaf) (hstep : s.action.steps[idx]? = some step)
    (hx : step.storeToVariable = some x) (h : runStep host step idx s = .ok true t) :
    Binds step x t := by
  rw [runStep_eq, Program.bind_ok] at h
  obtain ⟨ok, u, hleaf, hraise⟩ := h
  unfold raiseEscaping at hraise
  split at hraise
  · cases hraise
  · rename_i hfits
    cases hraise
    simp only [dispatchStep, hkind, runLeaf] at hleaf
    split at hleaf
    · cases hleaf
    · split at hleaf
      · cases hleaf
      · rename_i body _
        cases hdispatch : dispatchTraitStep host body idx s with
        | mk ok' u' =>
          rw [hdispatch] at hleaf
          cases hleaf
          exact dispatchTraitStep_binds hstep hx hdispatch hfits

/-! ### Merging keeps the variables that were there -/

/-- Merging a task leaves every variable of the baseline as the canonical state has it. -/
theorem mergeTaskState_get (c t : ExecutionState) (id : String)
    {baseline : IndexMap String Value} {x : String} (hx : baseline.contains x = true) :
    (mergeTaskState c t id baseline).vars.get? x = c.vars.get? x := by
  have hnew : ∀ e ∈ introduced baseline t, e.1 ≠ x := by
    rintro e he rfl
    have hnot := (List.mem_filter.mp he).2
    rw [hx] at hnot
    cases hnot
  rw [mergeTaskState_vars]
  exact c.vars.get?_extend_of_notMem hnew

theorem mergeWave_get (action : Action) (tasks : List Dispatch) (s : ExecutionState) {x : String}
    (hx : s.vars.contains x = true) :
    (mergeWave action tasks s).vars.get? x = s.vars.get? x := by
  unfold mergeWave
  generalize hb : s.vars = baseline at hx
  have hs : s.vars.get? x = baseline.get? x := by rw [hb]
  clear hb
  induction tasks generalizing s with
  | nil => exact hs
  | cons d rest ih =>
    apply ih
    rw [mergeDispatch, mergeTaskState_get _ _ _ hx]
    exact hs

/-! ### What a run carries from step to step -/

/-- The variable has the same value after the call as before it. -/
def Dispatch.Leaves (d : Dispatch) (x : String) : Prop := d.after.vars.get? x = d.before.vars.get? x

/-- What a call on the state itself left in a variable is still there unless a later call changed
it. -/
def Carried (calls : List Dispatch) (s : ExecutionState) : Prop :=
  ∀ pre d mid, calls = pre ++ d :: mid → d.forked = false → ∀ x v,
    d.after.vars.get? x = some v → (∀ m ∈ mid, m.Leaves x) → s.vars.get? x = some v

/-- Every call on the state itself succeeded. -/
def AllSucceeded (calls : List Dispatch) : Prop :=
  ∀ d ∈ calls, d.forked = false → ∃ s, d.result = .ok true s

/-- A call of `run_step` for a step of the action. -/
structure Dispatch.Genuine (host : Host) (action : Action) (d : Dispatch) : Prop where
  result : d.result = runStep host (action.stepAt d.idx) d.idx d.before
  action : d.before.action = action

/-- Each call happened on a state that carries what the earlier calls left. -/
def History (host : Host) (action : Action) (calls : List Dispatch) : Prop :=
  ∀ pre e post, calls = pre ++ e :: post →
    Carried pre e.before ∧ AllSucceeded pre ∧ e.Genuine host action

/-- The invariant of the wave loop while it goes on. -/
structure Live (host : Host) (action : Action) (l : WaveLoop) : Prop where
  history : History host action l.dispatched
  carried : Carried l.dispatched l.state
  succeeded : AllSucceeded l.dispatched
  action : l.state.action = action

theorem Carried.of_vars {calls : List Dispatch} {s t : ExecutionState} (h : Carried calls s)
    (hv : t.vars = s.vars) : Carried calls t := by
  intro pre d mid hcalls hd x v hx hmid
  rw [hv]
  exact h pre d mid hcalls hd x v hx hmid

/-- A split of a list with one more element is a split at that element or one before it. -/
theorem eq_append_cons_snoc {α : Type} {xs pre mid : List α} {a b : α}
    (h : xs ++ [b] = pre ++ a :: mid) :
    (pre = xs ∧ a = b ∧ mid = []) ∨ ∃ mid', mid = mid' ++ [b] ∧ xs = pre ++ a :: mid' := by
  rcases List.eq_nil_or_concat mid with rfl | ⟨mid', c, rfl⟩
  · obtain ⟨rfl, hb⟩ := List.append_inj' h rfl
    cases hb
    exact Or.inl ⟨rfl, rfl, rfl⟩
  · rw [List.concat_eq_append, ← List.cons_append, ← List.append_assoc] at h
    obtain ⟨hxs, hb⟩ := List.append_inj' h rfl
    cases hb
    exact Or.inr ⟨mid', by simp, hxs⟩

theorem History.snoc {host : Host} {action : Action} {calls : List Dispatch} {d : Dispatch}
    (h : History host action calls) (hc : Carried calls d.before) (hs : AllSucceeded calls)
    (hd : d.Genuine host action) : History host action (calls ++ [d]) := by
  intro pre e post hsplit
  rcases eq_append_cons_snoc hsplit with ⟨rfl, rfl, -⟩ | ⟨post', -, hcalls⟩
  · exact ⟨hc, hs, hd⟩
  · exact h pre e post' hcalls

/-- A call on the state itself hands on what it was given. -/
theorem Carried.snoc {calls : List Dispatch} {d : Dispatch} (h : Carried calls d.before) :
    Carried (calls ++ [d]) d.after := by
  intro pre e mid hsplit he x v hx hmid
  rcases eq_append_cons_snoc hsplit with ⟨-, rfl, -⟩ | ⟨mid', rfl, hcalls⟩
  · exact hx
  · have hlast : d.Leaves x := hmid d (by simp)
    rw [hlast]
    exact h pre e mid' hcalls he x v hx fun m hm => hmid m (by simp [hm])

theorem Carried.append_forked {calls ds : List Dispatch} {s : ExecutionState}
    (h : Carried calls s) (hd : ∀ d ∈ ds, d.forked = true) : Carried (calls ++ ds) s := by
  intro pre e mid hsplit he x v hx hmid
  rcases List.append_eq_append_iff.mp hsplit with ⟨as, rfl, hds⟩ | ⟨bs, hcalls, hmids⟩
  · have hin : e ∈ ds := by rw [hds]; simp
    rw [hd e hin] at he
    cases he
  · cases bs with
    | nil =>
      have hin : e ∈ ds := by rw [← List.nil_append ds, ← hmids]; simp
      rw [hd e hin] at he
      cases he
    | cons b bs =>
      obtain ⟨rfl, rfl⟩ := List.cons.inj hmids
      exact h pre e bs hcalls he x v hx fun m hm => hmid m (by simp [hm])

theorem AllSucceeded.append_forked {calls ds : List Dispatch} (h : AllSucceeded calls)
    (hd : ∀ d ∈ ds, d.forked = true) : AllSucceeded (calls ++ ds) := by
  intro d hin hf
  rcases List.mem_append.mp hin with hin | hin
  · exact h d hin hf
  · rw [hd d hin] at hf
    cases hf

/-- A batch of forked calls, each on a copy of what the state carries. -/
theorem History.append_forked {host : Host} {action : Action} {calls ds : List Dispatch}
    {s : ExecutionState} (h : History host action calls) (hc : Carried calls s)
    (hs : AllSucceeded calls) (hd : ∀ d ∈ ds, d.forked = true)
    (hvars : ∀ d ∈ ds, d.before.vars = s.vars) (hgen : ∀ d ∈ ds, d.Genuine host action) :
    History host action (calls ++ ds) := by
  induction ds using List.reverseRecOn with
  | nil => simpa using h
  | append_singleton ds d ih =>
    have hmem : ∀ e ∈ ds, e ∈ ds ++ [d] := fun e he => List.mem_append_left _ he
    have hlast : d ∈ ds ++ [d] := by simp
    rw [← List.append_assoc]
    apply History.snoc
    · exact ih (fun e he => hd e (hmem e he)) (fun e he => hvars e (hmem e he))
        fun e he => hgen e (hmem e he)
    · exact (hc.append_forked fun e he => hd e (hmem e he)).of_vars (hvars d hlast)
    · exact hs.append_forked fun e he => hd e (hmem e he)
    · exact hgen d hlast

section Loop

variable {host : Host} {action : Action} {plan : DagPlan}

theorem Live.of_eq {l l' : WaveLoop} (h : Live host action l) (hs : l'.state = l.state)
    (hd : l'.dispatched = l.dispatched) : Live host action l' := by
  obtain ⟨s, f, ds⟩ := l'
  obtain ⟨s', f', ds'⟩ := l
  subst hs hd
  exact ⟨h.history, h.carried, h.succeeded, h.action⟩

/-- A step of a sequential wave adds one call to the history, and the loop goes on only if it
succeeded. -/
theorem live_runSequentialStep (idx : Nat) {l : WaveLoop} (h : Live host action l) :
    History host action (runSequentialStep host action plan idx l).1.dispatched ∧
      ((runSequentialStep host action plan idx l).2 = none →
        Live host action (runSequentialStep host action plan idx l).1) := by
  unfold runSequentialStep
  dsimp only
  split
  · exact ⟨h.history, nofun⟩
  · generalize hb : (tickState l.state).setOverrides (fanoutOverrides plan action l.fanout idx) =
      before
    have hvars : before.vars = l.state.vars := by rw [← hb]; rfl
    have hact : before.action = action := by rw [← hb]; exact h.action
    have hcarried : Carried l.dispatched before := h.carried.of_vars hvars
    generalize hr : runStep host (action.stepAt idx) idx before = result
    have hgen : Dispatch.Genuine host action ⟨idx, false, before, result⟩ := ⟨hr.symm, hact⟩
    have hhistory := h.history.snoc hcarried h.succeeded hgen
    split
    · exact ⟨hhistory, nofun⟩
    · exact ⟨hhistory, nofun⟩
    · rename_i s
      have hsetting := (runStep_sameSetting host (action.stepAt idx) idx).ok hr
      have hlive : Live host action ⟨s, l.fanout, l.dispatched ++ [⟨idx, false, before, .ok true s⟩]⟩ := by
        refine ⟨hhistory, hcarried.snoc (d := ⟨idx, false, before, .ok true s⟩), ?_, ?_⟩
        · intro d hd hf
          rcases List.mem_append.mp hd with hd | hd
          · exact h.succeeded d hd hf
          · rw [List.mem_singleton.mp hd]
            exact ⟨s, rfl⟩
        · exact hsetting.action.trans hact
      obtain ⟨hs, hd⟩ := afterSteps_eq host action plan [idx]
        ⟨s, l.fanout, l.dispatched ++ [⟨idx, false, before, .ok true s⟩]⟩
      exact ⟨hd ▸ hhistory, fun _ => hlive.of_eq hs hd⟩

/-- A wave on forks adds its tasks to the history, and the merge keeps what was there. -/
theorem live_runParallelWave (wave : List Nat) {l : WaveLoop} (h : Live host action l) :
    History host action (runParallelWave host action plan wave l).1.dispatched ∧
      ((runParallelWave host action plan wave l).2 = none →
        Live host action (runParallelWave host action plan wave l).1) := by
  unfold runParallelWave
  dsimp only
  split
  · exact ⟨h.history, nofun⟩
  · have hlive : Live host action l.polled :=
      ⟨h.history, h.carried.of_vars rfl, h.succeeded, h.action⟩
    generalize l.polled = polled at hlive ⊢
    have htasks : ∀ d ∈ forkWave host action plan wave polled, d.forked = true ∧
        d.before.vars = polled.state.vars ∧ d.Genuine host action := by
      intro d hd
      obtain ⟨slot, hslot, rfl⟩ := List.mem_mapIdx.mp hd
      exact ⟨rfl, rfl, rfl, hlive.action⟩
    have hhistory := hlive.history.append_forked hlive.carried hlive.succeeded
      (fun d hd => (htasks d hd).1) (fun d hd => (htasks d hd).2.1) fun d hd => (htasks d hd).2.2
    split
    · exact ⟨hhistory, nofun⟩
    · exact ⟨hhistory, nofun⟩
    · generalize forkWave host action plan wave polled = tasks at htasks hhistory
      have hmerged : Live host action ⟨mergeWave action tasks polled.state, polled.fanout,
          polled.dispatched ++ tasks⟩ := by
        have hcarried := hlive.carried.append_forked fun d hd => (htasks d hd).1
        refine ⟨hhistory, ?_, hlive.succeeded.append_forked fun d hd => (htasks d hd).1, ?_⟩
        · intro pre d mid hsplit hd x v hx hmid
          have hv := hcarried pre d mid hsplit hd x v hx hmid
          rw [mergeWave_get action tasks polled.state (by simp [IndexMap.contains, hv])]
          exact hv
        · exact (sameSetting_preserved.mergeWave action tasks polled.state).action.trans hlive.action
      unfold joinWave
      dsimp only
      split
      · exact ⟨hhistory, nofun⟩
      · split
        · exact ⟨hhistory, nofun⟩
        · obtain ⟨hs, hd⟩ := afterSteps_eq host action plan wave
            ⟨mergeWave action tasks polled.state, polled.fanout, polled.dispatched ++ tasks⟩
          exact ⟨hd ▸ hhistory, fun _ => hmerged.of_eq hs hd⟩

theorem live_runWave (wave : List Nat) {l : WaveLoop} (h : Live host action l) :
    History host action (runWave host action plan wave l).1.dispatched ∧
      ((runWave host action plan wave l).2 = none →
        Live host action (runWave host action plan wave l).1) := by
  unfold runWave
  split
  · exact live_runParallelWave wave h
  · exact UntilStop.run_rule (Q := fun l : WaveLoop => History host action l.dispatched)
      (fun l hl => hl.history) (fun idx _ l hl => live_runSequentialStep idx hl) h

/-- In every run each call happened on a state that carries what the earlier calls left. -/
theorem history_runWaves {s : ExecutionState} (hs : s.action = action) :
    History host action (runWaves host action plan s).1.dispatched := by
  have hstart : Live host action ⟨s, [], []⟩ := by
    refine ⟨fun pre e post h => ?_, fun pre d mid h => ?_, fun d hd => ?_, hs⟩
    · exact nomatch (List.append_eq_nil_iff.mp h.symm).2
    · exact nomatch (List.append_eq_nil_iff.mp h.symm).2
    · exact nomatch hd
  exact (UntilStop.run_rule (Q := fun l : WaveLoop => History host action l.dispatched)
    (fun l hl => hl.history) (fun wave _ l hl => live_runWave wave hl) hstart).1

end Loop

/-! ### The order of calls -/

/-- The plan's order: by level, and within a level as declared. -/
def DagPlan.Before (plan : DagPlan) (i j : Nat) : Prop :=
  plan.level i < plan.level j ∨ plan.level i = plan.level j ∧ i < j

namespace DagPlan.Valid

variable {plan : DagPlan} {steps : List StepDef} (h : plan.Valid steps)
include h

theorem getElem_wave {k : Nat} (hk : k < plan.waves.length) :
    plan.waves[k] = (List.range steps.length).filter fun i => plan.level i == k := by
  have hw := h.waves_eq k
  rwa [List.getD_eq_getElem?_getD, List.getElem?_eq_getElem hk] at hw

theorem mem_wave_iff {k i : Nat} (hk : k < plan.waves.length) :
    i ∈ plan.waves[k] ↔ i < steps.length ∧ plan.level i = k := by
  rw [h.getElem_wave hk, List.mem_filter, List.mem_range, beq_iff_eq]

theorem pairwise_wave {k : Nat} (hk : k < plan.waves.length) :
    plan.waves[k].Pairwise plan.Before := by
  have hlt : plan.waves[k].Pairwise (· < ·) := by
    rw [h.getElem_wave hk]
    exact List.pairwise_lt_range.filter _
  refine hlt.imp_of_mem fun {i j} hi hj hij => Or.inr ⟨?_, hij⟩
  rw [((h.mem_wave_iff hk).mp hi).2, ((h.mem_wave_iff hk).mp hj).2]

/-- The waves one after the other list the steps in the plan's order. -/
theorem pairwise_flatten : plan.waves.flatten.Pairwise plan.Before := by
  rw [List.pairwise_flatten]
  constructor
  · intro wave hwave
    obtain ⟨k, hk, rfl⟩ := List.getElem_of_mem hwave
    exact h.pairwise_wave hk
  · rw [List.pairwise_iff_getElem]
    intro a b ha hb hab i hi j hj
    have hia := ((h.mem_wave_iff ha).mp hi).2
    have hjb := ((h.mem_wave_iff hb).mp hj).2
    exact Or.inl (by omega)

theorem mem_flatten {i : Nat} (hi : i < steps.length) : i ∈ plan.waves.flatten := by
  have hlevel := h.level_lt i hi
  exact List.mem_flatten.mpr ⟨_, List.getElem_mem hlevel, (h.mem_wave_iff hlevel).mpr ⟨hi, rfl⟩⟩

/-- In a prefix of the plan's order, what stands before a step is what has a lower level or the
same level and an earlier declaration. -/
theorem mem_before_iff {pre post : List Nat} {w r : Nat} (hw : w < steps.length) (hwr : w < r)
    (hpre : pre ++ r :: post <+: plan.waves.flatten) : w ∈ pre ↔ plan.level w ≤ plan.level r := by
  obtain ⟨rest, hrest⟩ := hpre
  have hsplit : plan.waves.flatten = pre ++ r :: (post ++ rest) := by rw [← hrest]; simp
  have hsorted := h.pairwise_flatten
  rw [hsplit, List.pairwise_append, List.pairwise_cons] at hsorted
  obtain ⟨-, ⟨hafter, -⟩, hcross⟩ := hsorted
  constructor
  · intro hin
    rcases hcross w hin r List.mem_cons_self with hlt | ⟨heq, -⟩
    · exact hlt.le
    · exact heq.le
  · intro hle
    have hmem := h.mem_flatten hw
    rw [hsplit] at hmem
    rcases List.mem_append.mp hmem with hin | hin
    · exact hin
    · rcases List.mem_cons.mp hin with rfl | hin
      · omega
      · rcases hafter w hin with hlt | ⟨heq, hlt⟩ <;> omega

end DagPlan.Valid

section Order

variable (host : Host) (action : Action) (plan : DagPlan)

def calledSteps (l : WaveLoop) : List Nat := l.dispatched.map (·.idx)

theorem calledSteps_runSequentialStep (idx : Nat) (l : WaveLoop) :
    ∃ p, calledSteps (runSequentialStep host action plan idx l).1 = calledSteps l ++ p ∧
      p <+: [idx] ∧ ((runSequentialStep host action plan idx l).2 = none → p = [idx]) := by
  unfold runSequentialStep
  dsimp only
  split
  · exact ⟨[], by simp [calledSteps, WaveLoop.polled], List.nil_prefix, nofun⟩
  · split
    · exact ⟨[idx], by simp [calledSteps], List.prefix_rfl, nofun⟩
    · exact ⟨[idx], by simp [calledSteps], List.prefix_rfl, nofun⟩
    · refine ⟨[idx], ?_, List.prefix_rfl, fun _ => rfl⟩
      rw [calledSteps, (afterSteps_eq host action plan [idx] _).2]
      simp [calledSteps]

theorem map_idx_forkWave (wave : List Nat) (l : WaveLoop) :
    (forkWave host action plan wave l).map (·.idx) = wave := by
  apply List.ext_getElem
  · simp [forkWave]
  · intro i h₁ h₂
    simp [forkWave]

theorem calledSteps_runParallelWave (wave : List Nat) (l : WaveLoop) :
    ∃ p, calledSteps (runParallelWave host action plan wave l).1 = calledSteps l ++ p ∧
      p <+: wave ∧ ((runParallelWave host action plan wave l).2 = none → p = wave) := by
  unfold runParallelWave
  dsimp only
  split
  · exact ⟨[], by simp [calledSteps, WaveLoop.polled], List.nil_prefix, nofun⟩
  · have hspawned : (l.polled.dispatched ++ forkWave host action plan wave l.polled).map (·.idx) =
        calledSteps l ++ wave := by
      rw [List.map_append, map_idx_forkWave]
      rfl
    split
    · exact ⟨wave, hspawned, List.prefix_rfl, nofun⟩
    · exact ⟨wave, hspawned, List.prefix_rfl, nofun⟩
    · refine ⟨wave, ?_, List.prefix_rfl, fun _ => rfl⟩
      unfold joinWave calledSteps
      dsimp only
      split
      · exact hspawned
      · split
        · exact hspawned
        · rw [(afterSteps_eq host action plan wave _).2]
          exact hspawned

theorem calledSteps_runWave (wave : List Nat) (l : WaveLoop) :
    ∃ p, calledSteps (runWave host action plan wave l).1 = calledSteps l ++ p ∧
      p <+: wave ∧ ((runWave host action plan wave l).2 = none → p = wave) := by
  unfold runWave
  split
  · exact calledSteps_runParallelWave host action plan wave l
  · have h := UntilStop.run_output (g := fun idx => [idx])
      (calledSteps_runSequentialStep host action plan) wave l
    simpa using h

/-- The steps a run calls are a prefix of the plan's waves, one after the other. -/
theorem calledSteps_runWaves (s : ExecutionState) :
    calledSteps (runWaves host action plan s).1 <+: plan.waves.flatten := by
  obtain ⟨p, hout, hprefix, -⟩ := UntilStop.run_output (g := fun wave => wave)
    (calledSteps_runWave host action plan) plan.waves ⟨s, [], []⟩
  have hp : calledSteps (runWaves host action plan s).1 = p := by
    rw [runWaves, hout]
    rfl
  rw [hp]
  simpa using hprefix

/-- A step the planner cannot see through is never called on a fork. -/
def SequentialStay (l : WaveLoop) : Prop :=
  ∀ d ∈ l.dispatched, stepRequiresSequential (action.stepAt d.idx) = true → d.forked = false

theorem sequentialStay_runSequentialStep (idx : Nat) {l : WaveLoop} (h : SequentialStay action l) :
    SequentialStay action (runSequentialStep host action plan idx l).1 := by
  have hnew : ∀ before result, ∀ d ∈ l.dispatched ++ [⟨idx, false, before, result⟩],
      stepRequiresSequential (action.stepAt d.idx) = true → d.forked = false := by
    intro before result d hd hreq
    rcases List.mem_append.mp hd with hd | hd
    · exact h d hd hreq
    · rw [List.mem_singleton.mp hd]
  unfold runSequentialStep
  dsimp only
  split
  · exact h
  · split
    · exact hnew _ _
    · exact hnew _ _
    · unfold SequentialStay
      rw [(afterSteps_eq host action plan [idx] _).2]
      exact hnew _ _

theorem sequentialStay_runWave (wave : List Nat) {l : WaveLoop} (h : SequentialStay action l) :
    SequentialStay action (runWave host action plan wave l).1 := by
  unfold runWave
  split
  · rename_i hparallel
    have hfree : ∀ idx ∈ wave, stepRequiresSequential (action.stepAt idx) = false := by
      simp only [parallelizes, Bool.and_eq_true, Bool.not_eq_true'] at hparallel
      have hany := hparallel.2
      rw [waveRequiresSequential, List.any_eq_false] at hany
      exact fun idx hidx => by simpa using hany idx hidx
    have hspawned : ∀ d ∈ l.polled.dispatched ++ forkWave host action plan wave l.polled,
        stepRequiresSequential (action.stepAt d.idx) = true → d.forked = false := by
      intro d hd hreq
      rcases List.mem_append.mp hd with hd | hd
      · exact h d hd hreq
      · obtain ⟨slot, hslot, rfl⟩ := List.mem_mapIdx.mp hd
        rw [hfree _ (List.getElem_mem hslot)] at hreq
        cases hreq
    unfold runParallelWave
    dsimp only
    split
    · exact h
    · split
      · exact hspawned
      · exact hspawned
      · unfold joinWave SequentialStay
        dsimp only
        split
        · exact hspawned
        · split
          · exact hspawned
          · rw [(afterSteps_eq host action plan wave _).2]
            exact hspawned
  · exact UntilStop.run_invariant (fun idx _ l hl =>
      sequentialStay_runSequentialStep host action plan idx hl) h

theorem sequentialStay_runWaves (s : ExecutionState) :
    SequentialStay action (runWaves host action plan s).1 :=
  UntilStop.run_invariant (fun wave _ _ hl => sequentialStay_runWave host action plan wave hl)
    fun _ hd => nomatch hd

end Order

/-- A variable that is bound is what `$vars` reads, in a template and in an expression alike. -/
theorem templateValue_vars {s : ExecutionState} {x : String} {v : Value}
    (h : s.vars.get? x = some v) : s.templateValue ⟨.vars, [.field x]⟩ = v := by
  have hbag : s.resolutionContext.get "vars" = some s.varsAsValue := by
    simp [ExecutionState.resolutionContext_get, ExecutionState.kernelBinding]
  have hfield : applyOne (.field x) s.varsAsValue = [v] := by
    have hget : s.varsAsValue.get x = some v := by
      rw [ExecutionState.varsAsValue, Value.ofFields, Value.get_object,
        AssocMap.lookup_ofEntries _ _ s.vars.nodup]
      exact h
    have happ : applyOne (.field x) s.varsAsValue = (s.varsAsValue.get x).toList := rfl
    rw [happ, hget]
    rfl
  simp only [ExecutionState.templateValue, ExecutionState.evalReference_eq, resolveRoot,
    buildDslContext, hbag, Option.toList_some, select_cons, applySegment_singleton, hfield]
  rfl

/-- Among the calls before `e` there is one of the writer on the state itself; it bound the
variable, and `e` reads that value unless a call in between changed the variable. -/
def SeesWriter (action : Action) (w : Nat) (x : String) (earlier : List Dispatch) (e : Dispatch) :
    Prop :=
  ∃ before d between v, earlier = before ++ d :: between ∧ d.idx = w ∧
    d.after.stepResults.get? (action.stepAt w).id = some v ∧ d.after.vars.get? x = some v ∧
      ((∀ m ∈ between, m.Leaves x) → e.before.templateValue ⟨.vars, [.field x]⟩ = v)

/-- A writer is called before a reader declared after it exactly when the plan does not place it
on a later level, and then the reader reads what the writer, if a leaf step, bound. -/
theorem writer_before_reader (host : Host) {action : Action} {plan : DagPlan}
    (hplan : buildPlan action = .ok plan) {s : ExecutionState} (hs : s.action = action)
    {w r : Nat} (hwr : w < r) (hr : r < action.steps.length) {x : String}
    (hx : (action.stepAt w).storeToVariable = some x) {pre post : List Dispatch} {e : Dispatch}
    (hrun : (runWaves host action plan s).1.dispatched = pre ++ e :: post) (he : e.idx = r) :
    ((∃ d ∈ pre, d.idx = w) ↔ plan.level w ≤ plan.level r) ∧
      (plan.level w ≤ plan.level r → (action.stepAt w).kind = .leaf →
        SeesWriter action w x pre e) := by
  have hvalid := buildPlan_valid hplan
  have hcalled : pre.map (·.idx) ++ r :: post.map (·.idx) <+: plan.waves.flatten := by
    have h := calledSteps_runWaves host action plan s
    rw [calledSteps, hrun] at h
    simpa [he] using h
  have hiff : (∃ d ∈ pre, d.idx = w) ↔ plan.level w ≤ plan.level r := by
    rw [← hvalid.mem_before_iff (by omega) hwr hcalled, List.mem_map]
  refine ⟨hiff, fun hlevel hleaf => ?_⟩
  obtain ⟨d, hd, rfl⟩ := hiff.mpr hlevel
  obtain ⟨before, between, rfl⟩ := List.append_of_mem hd
  have hhistory : History host action (runWaves host action plan s).1.dispatched :=
    history_runWaves hs
  rw [hrun] at hhistory
  obtain ⟨hcarried, hsucceeded, -⟩ := hhistory _ e post rfl
  have hdirect : d.forked = false := by
    apply sequentialStay_runWaves host action plan s d
    · rw [hrun]
      simp
    · simp [stepRequiresSequential, hx]
  obtain ⟨t, ht⟩ := hsucceeded d (by simp) hdirect
  obtain ⟨-, -, hgen⟩ := hhistory before d (between ++ e :: post) (by simp)
  have hstep : d.before.action.steps[d.idx]? = some (action.stepAt d.idx) := by
    have hlt : d.idx < action.steps.length := by omega
    rw [hgen.action, Action.stepAt, List.getD_eq_getElem?_getD, List.getElem?_eq_getElem hlt]
    rfl
  obtain ⟨v, hresult, hvar⟩ := runStep_leaf_binds hleaf hstep hx (hgen.result.symm.trans ht)
  have hafter : d.after = t := by rw [Dispatch.after, ht]; rfl
  rw [← hafter] at hresult hvar
  exact ⟨before, d, between, v, rfl, rfl, hresult, hvar, fun hleaves =>
    templateValue_vars (hcarried before d between rfl hdirect x v hvar hleaves)⟩

/-- `w` waits for `a`, while `r` waits for nothing. -/
def lateWriter : Action :=
  .ofSteps [.new "a" "let" (.object [("value", .ofNat 1)]),
    { StepDef.new "w" "let" (.object [("value", .string "\x7b\x7b$steps.a.result\x7d\x7d")]) with
      storeToVariable := some "x" },
    .new "r" "let" (.object [("value", .string "\x7b\x7b$vars.x\x7d\x7d")])]

def startState (action : Action) : ExecutionState :=
  .new "demo" action .null .null .null none ⟨1000000, 64⟩

def callsOf (action : Action) (plan : DagPlan) : List Dispatch :=
  (runWaves (quietHost Binary64.display) action plan (startState action)).1.dispatched

/-- The reader is called before the writer and reads nothing. -/
theorem late_writer_misses_reader :
    buildPlan lateWriter = .ok ⟨[[0, 2], [1]], [[], [0], []], [[1], [], []]⟩ ∧
      ∃ pre e post, callsOf lateWriter ⟨[[0, 2], [1]], [[], [0], []], [[1], [], []]⟩ =
          pre ++ e :: post ∧ e.idx = 2 ∧ (∀ d ∈ pre, d.idx ≠ 1) ∧ (∃ d ∈ post, d.idx = 1) ∧
            e.before.templateValue ⟨.vars, [.field "x"]⟩ = .null := by
  refine ⟨by decide +kernel, ?_⟩
  generalize hc : callsOf lateWriter ⟨[[0, 2], [1]], [[], [0], []], [[1], [], []]⟩ = calls
  have hidx : calls.map (·.idx) = [0, 2, 1] := by
    rw [← hc]
    decide +kernel
  have hread : (calls.map fun d => d.before.templateValue ⟨.vars, [.field "x"]⟩)[1]? =
      some .null := by
    rw [← hc]
    decide +kernel
  obtain ⟨a, rest, rfl, ha, hrest⟩ := List.map_eq_cons_iff.mp hidx
  obtain ⟨r, rest, rfl, hr, hrest⟩ := List.map_eq_cons_iff.mp hrest
  obtain ⟨w, rest, rfl, hw, -⟩ := List.map_eq_cons_iff.mp hrest
  refine ⟨[a], r, w :: rest, rfl, hr, fun d hd => ?_, ⟨w, List.mem_cons_self, hw⟩, ?_⟩
  · rw [List.mem_singleton.mp hd, ha]
    decide
  · simpa using hread

/-- Both steps are on one level, and the writer is declared first. -/
def earlyWriter : Action :=
  .ofSteps [{ StepDef.new "w" "let" (.object [("value", .ofNat 1)]) with
      storeToVariable := some "x" },
    .new "r" "let" (.object [("value", .string "\x7b\x7b$vars.x\x7d\x7d")])]

theorem early_writer_meets_reader :
    ∃ pre e post, callsOf earlyWriter ⟨[[0, 1]], [[], []], [[], []]⟩ = pre ++ e :: post ∧
      e.idx = 1 ∧ SeesWriter earlyWriter 0 "x" pre e := by
  generalize hc : callsOf earlyWriter ⟨[[0, 1]], [[], []], [[], []]⟩ = calls
  have hidx : calls.map (·.idx) = [0, 1] := by
    rw [← hc]
    decide +kernel
  obtain ⟨w, rest, rfl, hw, hrest⟩ := List.map_eq_cons_iff.mp hidx
  obtain ⟨r, rest, rfl, hr, -⟩ := List.map_eq_cons_iff.mp hrest
  have hplan : buildPlan earlyWriter = .ok ⟨[[0, 1]], [[], []], [[], []]⟩ := by decide +kernel
  have hlevel : DagPlan.level ⟨[[0, 1]], [[], []], [[], []]⟩ 0 ≤
      DagPlan.level ⟨[[0, 1]], [[], []], [[], []]⟩ 1 := by decide +kernel
  have hstart : (startState earlyWriter).action = earlyWriter := rfl
  have hbinds : (earlyWriter.stepAt 0).storeToVariable = some "x" := rfl
  have hrun : (runWaves (quietHost Binary64.display) earlyWriter ⟨[[0, 1]], [[], []], [[], []]⟩
      (startState earlyWriter)).1.dispatched = [w] ++ r :: rest := hc
  have hleaf : (earlyWriter.stepAt 0).kind = .leaf := by decide
  exact ⟨[w], r, rest, rfl, hr, (writer_before_reader (quietHost Binary64.display) hplan hstart
    Nat.zero_lt_one (by decide) hbinds hrun hr).2 hlevel hleaf⟩

end Gwead
