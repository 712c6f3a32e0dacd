import Gwead.WriterOrder

/-!
# Each step once, after its dependencies

The wave scheduler calls no step twice, calls a step only when everything it depends on has
succeeded, and calls nothing after a step that did not succeed but the tasks already forked beside
it.  A run that goes through all waves has called every step.
-/

namespace Gwead

def Dispatch.Succeeded (d : Dispatch) : Prop := ∃ s, d.result = .ok true s

/-- The calls run side by side, as tasks of one wave. -/
def DagPlan.Beside (plan : DagPlan) (d d' : Dispatch) : Prop :=
  d.forked = true ∧ d'.forked = true ∧ plan.level d.idx = plan.level d'.idx

/-- A call comes after what its step depends on, and after failures only of tasks beside it. -/
def Ordered (plan : DagPlan) (calls : List Dispatch) : Prop :=
  ∀ pre d post, calls = pre ++ d :: post →
    (∀ dep ∈ plan.depsOf d.idx, ∃ d' ∈ pre, d'.idx = dep ∧ d'.Succeeded) ∧
      ∀ d' ∈ pre, d'.Succeeded ∨ plan.Beside d' d

/-- What the wave loop owes to the order of the plan. -/
structure OnceInOrder (host : Host) (action : Action) (plan : DagPlan) (s : ExecutionState) :
    Prop where
  once : (calledSteps (runWaves host action plan s).1).Nodup
  ordered : Ordered plan (runWaves host action plan s).1.dispatched
  succeeded : (∀ e, (runWaves host action plan s).2 ≠ some (.failed e)) →
    ∀ d ∈ (runWaves host action plan s).1.dispatched, d.Succeeded
  all : (runWaves host action plan s).2 = none →
    ∀ i < action.steps.length, i ∈ calledSteps (runWaves host action plan s).1

section Order

variable {plan : DagPlan} {calls ds : List Dispatch}

theorem Ordered.nil : Ordered plan [] := by
  intro pre d post h
  simp at h

/-- A call on the state itself, after calls that all succeeded. -/
theorem Ordered.snoc (h : Ordered plan calls) (hall : ∀ d ∈ calls, d.Succeeded) {d : Dispatch}
    (hdeps : ∀ dep ∈ plan.depsOf d.idx, dep ∈ calls.map (·.idx)) : Ordered plan (calls ++ [d]) := by
  intro pre e post hsplit
  rcases eq_append_cons_snoc hsplit with ⟨rfl, rfl, -⟩ | ⟨post', -, hcalls⟩
  · refine ⟨fun dep hdep => ?_, fun d' hd' => Or.inl (hall d' hd')⟩
    obtain ⟨d', hd', rfl⟩ := List.mem_map.mp (hdeps dep hdep)
    exact ⟨d', hd', rfl, hall d' hd'⟩
  · exact h pre e post' hcalls

/-- A wave of tasks, after calls that all succeeded. -/
theorem Ordered.append (h : Ordered plan calls) (hall : ∀ d ∈ calls, d.Succeeded)
    (hbeside : ∀ d ∈ ds, ∀ d' ∈ ds, plan.Beside d d')
    (hdeps : ∀ d ∈ ds, ∀ dep ∈ plan.depsOf d.idx, dep ∈ calls.map (·.idx)) :
    Ordered plan (calls ++ ds) := by
  intro pre d post hsplit
  rcases List.append_eq_append_iff.mp hsplit with ⟨as, rfl, hds⟩ | ⟨bs, hcalls, hmids⟩
  · have hin : d ∈ ds := by rw [hds]; simp
    constructor
    · intro dep hdep
      obtain ⟨d', hd', rfl⟩ := List.mem_map.mp (hdeps d hin dep hdep)
      exact ⟨d', List.mem_append_left _ hd', rfl, hall d' hd'⟩
    · intro d' hd'
      rcases List.mem_append.mp hd' with hd' | hd'
      · exact Or.inl (hall d' hd')
      · exact Or.inr (hbeside d' (by rw [hds]; exact List.mem_append_left _ hd') d hin)
  · cases bs with
    | nil =>
      -- the split is where the tasks begin
      rw [List.append_nil] at hcalls
      subst hcalls
      have hin : d ∈ ds := by rw [← List.nil_append ds, ← hmids]; simp
      refine ⟨fun dep hdep => ?_, fun d' hd' => Or.inl (hall d' hd')⟩
      obtain ⟨d', hd', rfl⟩ := List.mem_map.mp (hdeps d hin dep hdep)
      exact ⟨d', hd', rfl, hall d' hd'⟩
    | cons b bs =>
      obtain ⟨rfl, -⟩ := List.cons.inj hmids
      exact h pre d bs hcalls

/-- A step depends on steps of earlier waves. -/
theorem DagPlan.Valid.deps_done {steps : List StepDef} (hvalid : plan.Valid steps)
    {done rest : List (List Nat)} {wave : List Nat} (hwaves : plan.waves = done ++ wave :: rest)
    {i dep : Nat} (hi : i ∈ wave) (hdep : dep ∈ plan.depsOf i) : dep ∈ done.flatten := by
  have hk : done.length < plan.waves.length := by
    rw [hwaves, List.length_append, List.length_cons]
    omega
  have hwave : plan.waves[done.length] = wave := by simp [hwaves]
  obtain ⟨hlt, hlevel⟩ := (hvalid.mem_wave_iff hk).mp (hwave ▸ hi)
  have hdlt := hvalid.deps_lt i hlt dep hdep
  have hdlevel := Layering.level_lt_of_dep plan.depsOf hvalid.deps_lt hlt hdep
  have hdk : plan.level dep < done.length := by
    rw [← hlevel]
    exact hdlevel
  have hmem := (hvalid.mem_wave_iff (hdk.trans hk)).mpr ⟨hdlt.trans hlt, rfl⟩
  have hdone : plan.waves[plan.level dep] = done[plan.level dep] := by
    simp [hwaves, hdk]
  exact List.mem_flatten.mpr ⟨_, List.getElem_mem hdk, hdone ▸ hmem⟩

end Order

/-! ### The loop -/

/-- The loop goes on: what it has called is in order and has succeeded. -/
structure GoesWell (plan : DagPlan) (called : List Nat) (l : WaveLoop) : Prop where
  called : calledSteps l = called
  succeeded : ∀ d ∈ l.dispatched, d.Succeeded
  ordered : Ordered plan l.dispatched

section Loop

variable {host : Host} {action : Action} {plan : DagPlan}

theorem ordered_sequential {called : List Nat} {idx : Nat} {l : WaveLoop}
    (h : GoesWell plan called l) (hdeps : ∀ dep ∈ plan.depsOf idx, dep ∈ called) :
    Ordered plan (runSequentialStep host action plan idx l).1.dispatched ∧
      ((runSequentialStep host action plan idx l).2 = none →
        GoesWell plan (called ++ [idx]) (runSequentialStep host action plan idx l).1) := by
  have hmem : ∀ dep ∈ plan.depsOf idx, dep ∈ l.dispatched.map (·.idx) := fun dep hdep => by
    have := hdeps dep hdep
    rwa [← h.called] at this
  have hnew : ∀ before result, Ordered plan (l.dispatched ++ [⟨idx, false, before, result⟩]) :=
    fun before result => h.ordered.snoc h.succeeded hmem
  unfold runSequentialStep
  dsimp only
  split
  · exact ⟨h.ordered, nofun⟩
  · split
    · exact ⟨hnew _ _, nofun⟩
    · exact ⟨hnew _ _, nofun⟩
    · rename_i t hran
      rw [(afterSteps_eq host action plan [idx] _).2]
      refine ⟨hnew _ _, fun _ => ⟨?_, ?_, ?_⟩⟩
      · rw [calledSteps, (afterSteps_eq host action plan [idx] _).2, List.map_append]
        exact congrArg (· ++ [idx]) h.called
      · rw [(afterSteps_eq host action plan [idx] _).2]
        intro d hd
        rcases List.mem_append.mp hd with hd | hd
        · exact h.succeeded d hd
        · rw [List.mem_singleton.mp hd]
          exact ⟨t, hran⟩
      · rw [(afterSteps_eq host action plan [idx] _).2]
        exact hnew _ _

theorem forkWave_beside (wave : List Nat) (l : WaveLoop) {k : Nat}
    (hlevel : ∀ i ∈ wave, plan.level i = k) :
    ∀ d ∈ forkWave host action plan wave l, ∀ d' ∈ forkWave host action plan wave l,
      plan.Beside d d' := by
  have hone : ∀ d ∈ forkWave host action plan wave l, d.forked = true ∧ plan.level d.idx = k := by
    intro d hd
    have hidx : d.idx ∈ wave := by
      rw [← map_idx_forkWave host action plan wave l]
      exact List.mem_map_of_mem hd
    obtain ⟨i, hi, rfl⟩ := List.mem_mapIdx.mp hd
    exact ⟨rfl, hlevel _ hidx⟩
  intro d hd d' hd'
  exact ⟨(hone d hd).1, (hone d' hd').1, (hone d hd).2.trans (hone d' hd').2.symm⟩

theorem taskError_none {step : StepDef} {d : Dispatch} (h : taskError step d.result = none) :
    d.Succeeded := by
  unfold taskError at h
  split at h
  · cases h
  · rename_i t hran
    exact ⟨t, hran⟩
  · cases h

theorem ordered_parallel {called wave : List Nat} {k : Nat} {l : WaveLoop}
    (h : GoesWell plan called l) (hlevel : ∀ i ∈ wave, plan.level i = k)
    (hdeps : ∀ i ∈ wave, ∀ dep ∈ plan.depsOf i, dep ∈ called) :
    Ordered plan (runParallelWave host action plan wave l).1.dispatched ∧
      ((runParallelWave host action plan wave l).2 = none →
        GoesWell plan (called ++ wave) (runParallelWave host action plan wave l).1) := by
  unfold runParallelWave
  dsimp only
  split
  · exact ⟨h.ordered, nofun⟩
  · have hidx : ∀ d ∈ forkWave host action plan wave l.polled, d.idx ∈ wave := by
      intro d hd
      rw [← map_idx_forkWave host action plan wave l.polled]
      exact List.mem_map_of_mem hd
    have hspawned : Ordered plan (l.polled.dispatched ++ forkWave host action plan wave l.polled) := by
      refine Ordered.append h.ordered h.succeeded (forkWave_beside wave l.polled hlevel) ?_
      intro d hd dep hdep
      have := hdeps d.idx (hidx d hd) dep hdep
      rwa [← h.called] at this
    split
    · exact ⟨hspawned, nofun⟩
    · exact ⟨hspawned, nofun⟩
    · unfold joinWave
      dsimp only
      split
      · exact ⟨hspawned, nofun⟩
      · rename_i herrors
        split
        · exact ⟨hspawned, nofun⟩
        · rw [(afterSteps_eq host action plan wave _).2]
          refine ⟨hspawned, fun _ => ⟨?_, ?_, ?_⟩⟩
          · rw [calledSteps, (afterSteps_eq host action plan wave _).2, List.map_append,
              map_idx_forkWave]
            exact congrArg (· ++ wave) h.called
          · rw [(afterSteps_eq host action plan wave _).2]
            intro d hd
            rcases List.mem_append.mp hd with hd | hd
            · exact h.succeeded d hd
            · exact taskError_none (List.findSome?_eq_none_iff.mp herrors d hd)
          · rw [(afterSteps_eq host action plan wave _).2]
            exact hspawned

theorem ordered_wave {called wave : List Nat} {k : Nat} {l : WaveLoop}
    (h : GoesWell plan called l) (hlevel : ∀ i ∈ wave, plan.level i = k)
    (hdeps : ∀ i ∈ wave, ∀ dep ∈ plan.depsOf i, dep ∈ called) :
    Ordered plan (runWave host action plan wave l).1.dispatched ∧
      ((runWave host action plan wave l).2 = none →
        GoesWell plan (called ++ wave) (runWave host action plan wave l).1) := by
  unfold runWave
  split
  · exact ordered_parallel h hlevel hdeps
  · refine UntilStop.run_along (P := fun done l => GoesWell plan (called ++ done) l)
      (Q := fun l => Ordered plan l.dispatched) (fun _ _ h => h.ordered) ?_
      (by rwa [List.append_nil])
    intro done idx rest hwave l hl
    rw [← List.append_assoc]
    refine ordered_sequential hl fun dep hdep => List.mem_append_left _ (hdeps idx ?_ dep hdep)
    rw [hwave]
    simp

/-- Every wave is called after the ones before it, and its steps are of one level. -/
theorem ordered_runWaves (hvalid : plan.Valid action.steps) (s : ExecutionState) :
    Ordered plan (runWaves host action plan s).1.dispatched ∧
      ((runWaves host action plan s).2 = none →
        GoesWell plan plan.waves.flatten (runWaves host action plan s).1) := by
  have hstart : GoesWell plan [] ⟨s, [], []⟩ :=
    ⟨rfl, fun d hd => absurd hd List.not_mem_nil, Ordered.nil⟩
  apply UntilStop.run_along (P := fun (done : List (List Nat)) l => GoesWell plan done.flatten l)
    (Q := fun l : WaveLoop => Ordered plan l.dispatched) (fun _ _ h => h.ordered) ?_ hstart
  intro done wave rest hwaves l hl
  have hk : done.length < plan.waves.length := by
    rw [hwaves, List.length_append, List.length_cons]
    omega
  have hwave : plan.waves[done.length] = wave := by simp [hwaves]
  rw [List.flatten_append, List.flatten_singleton]
  exact ordered_wave hl (fun i hi => ((hvalid.mem_wave_iff hk).mp (hwave ▸ hi)).2)
    fun i hi dep hdep => hvalid.deps_done hwaves hi hdep

/-! ### Where the loop ends without an error -/

/-- Unless it ends with an error, the loop has called only what succeeded. -/
def EndsWell (l : WaveLoop) (stop : Option Stop) : Prop :=
  (∀ e, stop ≠ some (.failed e)) → ∀ d ∈ l.dispatched, d.Succeeded

theorem endsWell_of_failed {l : WaveLoop} {e : KernelError} : EndsWell l (some (.failed e)) :=
  fun h => absurd rfl (h e)

theorem endsWell_afterSteps {steps : List Nat} {l : WaveLoop}
    (h : ∀ d ∈ l.dispatched, d.Succeeded) :
    EndsWell (afterSteps host action plan steps l).1 (afterSteps host action plan steps l).2 := by
  intro _ d hd
  rw [(afterSteps_eq host action plan steps l).2] at hd
  exact h d hd

theorem endsWell_sequential {idx : Nat} {l : WaveLoop} (h : EndsWell l none) :
    EndsWell (runSequentialStep host action plan idx l).1
      (runSequentialStep host action plan idx l).2 := by
  unfold runSequentialStep
  dsimp only
  split
  · exact endsWell_of_failed
  · split
    · exact endsWell_of_failed
    · exact endsWell_of_failed
    · rename_i t hran
      apply endsWell_afterSteps
      intro d hd
      rcases List.mem_append.mp hd with hd | hd
      · exact h nofun d hd
      · rw [List.mem_singleton.mp hd]
        exact ⟨t, hran⟩

theorem endsWell_parallel {wave : List Nat} {l : WaveLoop} (h : EndsWell l none) :
    EndsWell (runParallelWave host action plan wave l).1
      (runParallelWave host action plan wave l).2 := by
  unfold runParallelWave
  dsimp only
  split
  · exact endsWell_of_failed
  · split
    · exact endsWell_of_failed
    · exact endsWell_of_failed
    · unfold joinWave
      dsimp only
      split
      · exact endsWell_of_failed
      · rename_i herrors
        split
        · exact endsWell_of_failed
        · apply endsWell_afterSteps
          intro d hd
          rcases List.mem_append.mp hd with hd | hd
          · exact h nofun d hd
          · exact taskError_none (List.findSome?_eq_none_iff.mp herrors d hd)

theorem endsWell_runWaves (s : ExecutionState) :
    EndsWell (runWaves host action plan s).1 (runWaves host action plan s).2 := by
  refine UntilStop.run_ends (fun wave _ l hl => ?_) (fun _ d hd => absurd hd List.not_mem_nil)
  unfold runWave
  split
  · exact endsWell_parallel hl
  · exact UntilStop.run_ends (fun idx _ l hl => endsWell_sequential hl) hl

end Loop

/-- Whatever the host does and however the run ends, the scheduler calls each step at most once and
after its dependencies have succeeded, and a run that ends by itself has called them all. -/
theorem waves_once_in_order {host : Host} {action : Action} {plan : DagPlan}
    (hplan : buildPlan action = .ok plan) (s : ExecutionState) : OnceInOrder host action plan s := by
  have hvalid := buildPlan_valid hplan
  obtain ⟨hordered, hlive⟩ : _ ∧ (_ → GoesWell plan _ (runWaves host action plan s).1) :=
    ordered_runWaves hvalid s
  refine ⟨?_, hordered, endsWell_runWaves s, fun hend i hi => ?_⟩
  · have hsorted := hvalid.pairwise_flatten.sublist
      (calledSteps_runWaves host action plan s).sublist
    refine hsorted.imp fun {i j} hbefore => ?_
    rintro rfl
    rcases hbefore with hlt | ⟨-, hlt⟩
    · exact lt_irrefl _ hlt
    · exact lt_irrefl _ hlt
  · rw [(hlive hend).called]
    exact hvalid.mem_flatten hi

/-- The second step reads the first. -/
def chainAction : Action :=
  Action.ofSteps [.new "a" "let" .emptyObject,
    .new "b" "let" (.ofFields [("value", .string "\x7b\x7b$steps.a.result\x7d\x7d")])]

theorem waves_once_in_order_chain :
    buildPlan chainAction = .ok ⟨[[0], [1]], [[], [0]], [[1], []]⟩ ∧
      OnceInOrder (quietHost Binary64.display) chainAction ⟨[[0], [1]], [[], [0]], [[1], []]⟩
        (startState chainAction) := by
  have hplan : buildPlan chainAction = .ok ⟨[[0], [1]], [[], [0]], [[1], []]⟩ := by decide +kernel
  exact ⟨hplan, waves_once_in_order hplan _⟩

end Gwead
