import Gwead.FanoutWaves

/-!
# What is seen of a fanned-out result

A consumer sees its own branch and every other step what the producer stored.  The output is read on
the state the last direct call was made on, through the overrides of that call.
-/

namespace Gwead

open Program

/-! ### The calls on the state itself -/

section Direct

variable (host : Host) (action : Action) (plan : DagPlan)

/-- The steps that are run on the state itself, in the order they are called. -/
def directSteps : List Nat := (plan.waves.filter fun wave => !parallelizes action wave).flatten

def directCalls (l : WaveLoop) : List Nat :=
  (l.dispatched.filter fun d => !d.forked).map Dispatch.idx

theorem directCalls_runSequentialStep (idx : Nat) (l : WaveLoop) :
    ∃ q, directCalls (runSequentialStep host action plan idx l).1 = directCalls l ++ q ∧
      q <+: [idx] ∧ ((runSequentialStep host action plan idx l).2 = none → q = [idx]) := by
  cases hfired : host.cancelFired l.state with
  | true =>
    refine ⟨[], ?_, List.nil_prefix, ?_⟩
    · simp [runSequentialStep, hfired, directCalls, WaveLoop.polled]
    · simp [runSequentialStep, hfired]
  | false =>
    refine ⟨[idx], ?_, List.prefix_rfl, fun _ => rfl⟩
    rw [directCalls, dispatched_sequential idx l hfired]
    simp [directCalls]

theorem directCalls_runParallelWave (wave : List Nat) (l : WaveLoop) :
    directCalls (runParallelWave host action plan wave l).1 = directCalls l := by
  cases hfired : host.cancelFired l.state with
  | true => simp [runParallelWave, hfired, directCalls, WaveLoop.polled]
  | false =>
    have hforks : ((forkWave host action plan wave l.polled).filter fun d => !d.forked) = [] := by
      refine List.filter_eq_nil_iff.mpr fun d hd => ?_
      have hforked : d.forked = true := by
        obtain ⟨i, hi, rfl⟩ := List.mem_mapIdx.mp hd
        rfl
      simp [hforked]
    rw [directCalls, dispatched_parallel wave l hfired, List.filter_append, hforks, List.append_nil,
      directCalls]

theorem directCalls_runWave (wave : List Nat) (l : WaveLoop) :
    ∃ q, directCalls (runWave host action plan wave l).1 = directCalls l ++ q ∧
      q <+: (if parallelizes action wave then [] else wave) ∧
        ((runWave host action plan wave l).2 = none →
          q = if parallelizes action wave then [] else wave) := by
  unfold runWave
  split
  · exact ⟨[], by rw [directCalls_runParallelWave, List.append_nil], List.nil_prefix, fun _ => rfl⟩
  · have hran := UntilStop.run_output (g := fun idx => [idx])
      (directCalls_runSequentialStep host action plan) wave l
    simpa using hran

/-- A run that is not stopped has called every one of them. -/
theorem directCalls_runWaves {s : ExecutionState} (h : (runWaves host action plan s).2 = none) :
    directCalls (runWaves host action plan s).1 = directSteps action plan := by
  obtain ⟨q, hout, -, hfull⟩ :=
    UntilStop.run_output (directCalls_runWave host action plan) plan.waves ⟨s, [], []⟩
  have hcalls : directCalls (runWaves host action plan s).1 = q := hout
  rw [hcalls, hfull h, directSteps]
  induction plan.waves with
  | nil => rfl
  | cons wave rest ih =>
    rw [List.flatMap_cons, ih]
    by_cases hpar : parallelizes action wave <;> simp [hpar]

end Direct

/-! ### The branch of a step -/

section Branch

variable {action : Action} {plan : DagPlan} {p idx : Nat} {branches : List Nat}

/-- The branch a step is given. -/
def branchOf (plan : DagPlan) (p : Nat) (branches : List Nat) (idx : Nat) : Option Nat :=
  ((plan.consumersAt p).idxOf? idx).bind (branches[·]?)

theorem branchOf_consumer (hvalid : plan.Valid action.steps) (hp : p < action.steps.length) {k : Nat}
    (hk : (plan.consumersAt p)[k]? = some idx) : branchOf plan p branches idx = branches[k]? := by
  have hpos : (plan.consumersAt p).idxOf? idx = some k := by
    obtain ⟨hlt, hget⟩ := List.getElem?_eq_some_iff.mp hk
    refine List.idxOf?_eq_some_iff.mpr ⟨hlt, hget, fun j hj heq => ?_⟩
    exact absurd ((nodup_consumersAt hvalid hp).getElem_inj_iff.mp (heq.trans hget.symm)) hj.ne
  rw [branchOf, hpos, Option.bind_some]

/-- With a branch for each consumer, a step is given one exactly when it is a consumer. -/
theorem branchOf_eq_none_iff (hlength : branches.length = (plan.consumersAt p).length) :
    branchOf plan p branches idx = none ↔ idx ∉ plan.consumersAt p := by
  unfold branchOf
  cases hpos : (plan.consumersAt p).idxOf? idx with
  | none => simp [List.idxOf?_eq_none_iff.mp hpos]
  | some k =>
    obtain ⟨hlt, rfl, -⟩ := List.idxOf?_eq_some_iff.mp hpos
    have hbranch : branches[k]? = some branches[k] := List.getElem?_eq_getElem (hlength ▸ hlt)
    simp [hbranch]

end Branch

/-! ### What the calls see -/

/-- At every call below a dispatched one, and after every call of a step in a body. -/
def Dispatch.During (host : Host) (action : Action) (d : Dispatch) (J : ExecutionState → Prop) :
    Prop :=
  ∀ pending step idx before, Reaches host ((action.stepAt d.idx).params.depth + 1)
    (action.stepAt d.idx) d.idx d.before pending step idx before →
      J before ∧ (InBody action step →
        ∀ ok after, runStep host step idx before = .ok ok after → J after)

/-- Each consumer sees the branch at its place and nobody else does: while the other steps run, and
when the output is collected, the producer's result is what the producer stored. -/
structure FanoutSeen (host : Host) (action : Action) (plan : DagPlan) (p : Nat) (l : WaveLoop)
    (stop : Option Stop) (branches : List Nat) (stored : Value) : Prop where
  length : branches.length = (plan.consumersAt p).length
  distinct : branches.Nodup
  consumers : ∀ k : Nat, ∀ d ∈ l.dispatched, (plan.consumersAt p)[k]? = some d.idx →
    ∃ branch, branches[k]? = some branch ∧
      d.During host action fun s => ReadsAs s (action.stepAt p).id (.ofNat branch)
  later : ∀ i d, l.dispatched[i]? = some d → d.idx ∉ plan.consumersAt p →
    Ended plan p l.dispatched i d →
      d.During host action fun s => ReadsAs s (action.stepAt p).id stored
  earlier : ∀ i d, l.dispatched[i]? = some d → ¬Ended plan p l.dispatched i d →
    d.During host action fun s => s.effectiveStepResult (action.stepAt p).id = none
  output : stop = none → ReadsAs l.state (action.stepAt p).id stored

section Seen

variable {host : Host} {action : Action} {plan : DagPlan} {p : Nat}
  (hvalid : plan.Valid action.steps) (hp : p < action.steps.length)
  (hids : ∀ inner, InBody action inner → inner.id ≠ (action.stepAt p).id)
include hids

/-- What the state of a call shows of the producer, the whole call shows. -/
theorem During.of_sight {d : Dispatch} {J : ExecutionState → Prop}
    (hlt : d.idx < action.steps.length) (haction : d.before.action = action)
    (hJ : ∀ u, sight (action.stepAt p).id u = sight (action.stepAt p).id d.before → J u) :
    d.During host action J := by
  intro pending step idx before hreaches
  have hat : d.before.action.steps[d.idx]? = some (action.stepAt d.idx) := by
    rw [haction, Action.stepAt, List.getD_eq_getElem _ _ hlt, List.getElem?_eq_getElem hlt]
  have htop : action.stepAt d.idx ∈ action.steps := by
    rw [Action.stepAt, List.getD_eq_getElem _ _ hlt]
    exact List.getElem_mem hlt
  obtain ⟨hbefore, hafter⟩ := hreaches.sight (C := InBody action)
    (fun _ _ hin hsplices => hin.closed hsplices) hids (fun _ => inBody_of_splices htop) hat
  exact ⟨hJ before hbefore, fun hin ok after hran => hJ after (hafter hin ok after hran)⟩

variable {l : WaveLoop} (hrecord : FanoutRecord action plan p l)
  (hcalls : ∀ d ∈ l.dispatched, d.idx < action.steps.length ∧ d.before.action = action)
  {branches : List Nat} (hfan : l.fanout.lookup p = some branches)
  (hlength : branches.length = (plan.consumersAt p).length) {stored : Value}
  (hstored : ∀ d ∈ l.dispatched, d.idx = p → slot action p d.after = some stored)
include hvalid hp hrecord hcalls hfan

omit hids in
/-- The override of a call is the branch of its step. -/
theorem lookup_before {d : Dispatch} (hd : d ∈ l.dispatched) :
    d.before.activeFanoutOverrides.lookup (action.stepAt p).id = branchOf plan p branches d.idx := by
  rw [hrecord.overrides d hd, lookup_fanoutOverrides hvalid hp (hcalls d hd).1, hfan, Option.bind_some,
    branchOf]

include hlength hstored

theorem consumer_during {k : Nat} {d : Dispatch} (hd : d ∈ l.dispatched)
    (hk : (plan.consumersAt p)[k]? = some d.idx) :
    (∃ branch, branches[k]? = some branch ∧
      d.During host action fun s => ReadsAs s (action.stepAt p).id (.ofNat branch)) ∧
      d.During host action fun s => s.getSourceResult (some (action.stepAt p).id) = some stored := by
  obtain ⟨hidx, haction⟩ := hcalls d hd
  have hdep : p ∈ plan.depsOf d.idx :=
    ((mem_consumersAt hvalid hp).mp (List.mem_of_getElem? hk)).2
  have hlt : k < branches.length := hlength ▸ (List.getElem?_eq_some_iff.mp hk).1
  obtain ⟨dp, hdp, hpidx, hslot⟩ := hrecord.consumers d hd hdep
  have hshown : slot action p d.before = some stored := hslot.trans (hstored dp hdp hpidx)
  have hbranch : d.before.activeFanoutOverrides.lookup (action.stepAt p).id = some branches[k] := by
    rw [lookup_before hvalid hp hrecord hcalls hfan hd, branchOf_consumer hvalid hp hk,
      List.getElem?_eq_getElem hlt]
  refine ⟨⟨branches[k], List.getElem?_eq_getElem hlt, ?_⟩, ?_⟩
  · refine During.of_sight hids hidx haction fun u hu => ?_
    obtain ⟨hover, hget⟩ := Prod.ext_iff.mp hu
    exact readsAs_override (hget.trans hshown) ((congrArg (List.lookup _) hover).trans hbranch)
  · exact During.of_sight hids hidx haction fun u hu => (Prod.ext_iff.mp hu).2.trans hshown

theorem other_during {i : Nat} {d : Dispatch} (hd : l.dispatched[i]? = some d)
    (hother : d.idx ∉ plan.consumersAt p) (hended : Ended plan p l.dispatched i d) :
    d.During host action fun s => ReadsAs s (action.stepAt p).id stored := by
  have hmem := List.mem_of_getElem? hd
  obtain ⟨hidx, haction⟩ := hcalls d hmem
  obtain ⟨dp, hdp, hpidx, hslot⟩ := hrecord.stored i d hd hended
  have hshown : slot action p d.before = some stored := hslot.trans (hstored dp hdp hpidx)
  have hnone : d.before.activeFanoutOverrides.lookup (action.stepAt p).id = none := by
    rw [lookup_before hvalid hp hrecord hcalls hfan hmem]
    exact (branchOf_eq_none_iff hlength).mpr hother
  refine During.of_sight hids hidx haction fun u hu => ?_
  obtain ⟨hover, hget⟩ := Prod.ext_iff.mp hu
  exact readsAs_stored (hget.trans hshown) ((congrArg (List.lookup _) hover).trans hnone)

theorem earlier_during {i : Nat} {d : Dispatch} (hd : l.dispatched[i]? = some d)
    (hnot : ¬Ended plan p l.dispatched i d) :
    d.During host action fun s => s.effectiveStepResult (action.stepAt p).id = none := by
  have hmem := List.mem_of_getElem? hd
  obtain ⟨hidx, haction⟩ := hcalls d hmem
  have habsent := hrecord.absent i d hd hnot
  -- a consumer is called when the producer has stored its result
  have hother : d.idx ∉ plan.consumersAt p := by
    intro hin
    obtain ⟨dp, hdp, hpidx, hslot⟩ := hrecord.consumers d hmem ((mem_consumersAt hvalid hp).mp hin).2
    rw [hstored dp hdp hpidx, habsent] at hslot
    cases hslot
  have hnone : d.before.activeFanoutOverrides.lookup (action.stepAt p).id = none := by
    rw [lookup_before hvalid hp hrecord hcalls hfan hmem]
    exact (branchOf_eq_none_iff hlength).mpr hother
  refine During.of_sight hids hidx haction fun u hu => ?_
  obtain ⟨hover, hget⟩ := Prod.ext_iff.mp hu
  have hlookup : u.activeFanoutOverrides.lookup (action.stepAt p).id = none :=
    (congrArg (List.lookup (action.stepAt p).id) hover).trans hnone
  rw [ExecutionState.effectiveStepResult, hlookup]
  exact hget.trans habsent

end Seen

/-! ### The output -/

section Output

variable {action : Action} {plan : DagPlan} {p : Nat} {l : WaveLoop} {branches : List Nat}
  {stored : Value}

theorem streamHandle_ofNat {b handle : Nat} (hb : b ≤ maxStreamHandle)
    (h : streamHandle (some (.ofNat b)) = some handle) : b = handle := by
  have hmod : b % 2 ^ 64 = b := Nat.mod_eq_of_lt (hb.trans_lt (by decide))
  simp only [streamHandle, Value.ofNat, Number.ofU64, hmod] at h
  split at h
  · exact Option.some.inj h
  · cases h

/-- At the end the state has the overrides of its last direct call. -/
theorem lookup_at_end (hvalid : plan.Valid action.steps) (hp : p < action.steps.length) {upto : Nat}
    (h : FanoutLive action plan p upto upto l) (hfan : l.fanout.lookup p = some branches) :
    l.state.activeFanoutOverrides.lookup (action.stepAt p).id =
      (directCalls l).getLast?.bind (branchOf plan p branches) := by
  rw [h.laid, lastOverrides, directCalls, List.getLast?_map]
  cases hlast : (l.dispatched.filter fun d => !d.forked).getLast? with
  | none => rfl
  | some d =>
    have hd : d ∈ l.dispatched := List.mem_of_mem_filter (List.mem_of_getLast? hlast)
    have hidx := (h.levels d.idx (mem_calledSteps.mpr ⟨d, hd, rfl⟩)).1
    rw [Option.map_some, Option.getD_some, Option.map_some, Option.bind_some, h.overrides d hd,
      lookup_fanoutOverrides hvalid hp hidx, hfan, Option.bind_some, branchOf]

/-- The output reads what the producer stored exactly when the last direct call was not a
consumer's. -/
theorem output_iff (hvalid : plan.Valid action.steps) (hp : p < action.steps.length) {upto : Nat}
    (h : FanoutLive action plan p upto upto l) (hfan : l.fanout.lookup p = some branches)
    {handle : Nat} (hbranches : Branches handle (plan.consumersAt p).length branches)
    (hshown : slot action p l.state = some stored)
    (hhandle : streamHandle (some stored) = some handle) :
    ReadsAs l.state (action.stepAt p).id stored ↔
      ∀ idx ∈ (directCalls l).getLast?, idx ∉ plan.consumersAt p := by
  have hend := lookup_at_end hvalid hp h hfan
  constructor
  · intro hreads idx hidx hin
    rw [hidx, Option.bind_some] at hend
    cases hbranch : branchOf plan p branches idx with
    | none => exact (branchOf_eq_none_iff hbranches.length).mp hbranch hin
    | some branch =>
      rw [hbranch] at hend
      obtain rfl := hreads.unique (readsAs_override hshown hend)
      obtain ⟨k, -, hk⟩ := Option.bind_eq_some_iff.mp hbranch
      have hmem := List.mem_of_getElem? hk
      rw [streamHandle_ofNat (hbranches.bounded branch hmem) hhandle] at hmem
      exact hbranches.fresh hmem
  · intro hother
    refine readsAs_stored hshown ?_
    rw [hend]
    cases hlast : (directCalls l).getLast? with
    | none => rfl
    | some idx => exact (branchOf_eq_none_iff hbranches.length).mpr (hother idx hlast)

end Output

/-- Each fan-out consumer sees its own branch and only consumers do exactly when the last step that
is run on the state itself is no consumer, unless the run ends before an output is collected.  A
result that a step names as its source is what the producer stored, for a consumer as well. -/
theorem fanout_seen_iff (host : Host) {action : Action} {plan : DagPlan}
    (hplan : buildPlan action = .ok plan) (streams : ExecutionState → StreamTable)
    (pluginName : String) (input config secrets : Value) (trigger : Option Value)
    (limits : RuntimeLimits) {l : WaveLoop} {stop : Option Stop}
    (hrun : runWaves (host.onStreams streams) action plan
      (.new pluginName action input config secrets trigger limits) = (l, stop))
    {p : Nat} (hp : p < action.steps.length)
    (hids : ∀ inner, InBody action inner → inner.id ≠ (action.stepAt p).id) {branches : List Nat}
    (hfan : l.fanout.lookup p = some branches) :
    ∃ d ∈ l.dispatched, d.idx = p ∧ ∃ stored,
      d.after.stepResults.get? (action.stepAt p).id = some stored ∧
      (FanoutSeen (host.onStreams streams) action plan p l stop branches stored ↔
        (stop = none → ∀ idx ∈ (directSteps action plan).getLast?, idx ∉ plan.consumersAt p)) ∧
      ∀ c ∈ l.dispatched, c.idx ∈ plan.consumersAt p →
        c.During (host.onStreams streams) action fun s =>
          s.getSourceResult (some (action.stepAt p).id) = some stored := by
  have hvalid := buildPlan_valid hplan
  obtain ⟨hrecord, hlive⟩ := @fanoutLive_runWaves action plan p host streams hvalid hp hids
    (.new pluginName action input config secrets trigger limits) rfl rfl rfl
  have hordered := calledSteps_runWaves (host.onStreams streams) action plan
    (.new pluginName action input config secrets trigger limits)
  have hhistory := @history_runWaves (host.onStreams streams) action plan
    (.new pluginName action input config secrets trigger limits) rfl
  have hdirect := @directCalls_runWaves (host.onStreams streams) action plan
    (.new pluginName action input config secrets trigger limits)
  rw [hrun] at hrecord hlive hordered hhistory hdirect
  dsimp only at hrecord hlive hordered hhistory hdirect
  have hcalls : ∀ d ∈ l.dispatched, d.idx < action.steps.length ∧ d.before.action = action := by
    intro d hd
    obtain ⟨pre, post, hsplit⟩ := List.append_of_mem hd
    obtain ⟨wave, hwave, hidx⟩ := List.mem_flatten.mp
      (hordered.subset (mem_calledSteps.mpr ⟨d, hd, rfl⟩))
    exact ⟨hvalid.wave_lt hwave hidx, (hhistory pre d post hsplit).2.2.action⟩
  have hnodup : (calledSteps l).Nodup := by
    refine hordered.sublist.nodup (hvalid.pairwise_flatten.imp ?_)
    rintro i j hbefore rfl
    rcases hbefore with hlt | ⟨-, hlt⟩ <;> exact lt_irrefl _ hlt
  obtain ⟨dp, hdp, hidx, handle, hhandle, hbranches⟩ := hrecord.split branches hfan
  cases hafter : slot action p dp.after with
  | none =>
    rw [hafter] at hhandle
    cases hhandle
  | some stored =>
    rw [hafter] at hhandle
    have hstored : ∀ d ∈ l.dispatched, d.idx = p → slot action p d.after = some stored := by
      intro d hd hd'
      rw [List.inj_on_of_nodup_map hnodup hd hdp (hd'.trans hidx.symm), hafter]
    have hconsumer := fun k d hd =>
      @consumer_during (host.onStreams streams) action plan p hvalid hp hids l hrecord hcalls branches
        hfan hbranches.length stored hstored k d hd
    have houtput : stop = none → (ReadsAs l.state (action.stepAt p).id stored ↔
        ∀ idx ∈ (directSteps action plan).getLast?, idx ∉ plan.consumersAt p) := by
      intro hnone
      have hl := hlive hnone
      obtain ⟨d, hd, hd', hslot⟩ := hl.shown (mem_calledSteps.mpr ⟨dp, hdp, hidx⟩)
      rw [← hdirect hnone]
      exact output_iff hvalid hp hl hfan hbranches (hslot.trans (hstored d hd hd')) hhandle
    refine ⟨dp, hdp, hidx, stored, hafter, ⟨fun hseen hnone => ?_, fun hlast => ?_⟩, ?_⟩
    · exact (houtput hnone).mp (hseen.output hnone)
    · exact {
        length := hbranches.length
        distinct := hbranches.nodup
        consumers := fun k d hd hk => (hconsumer k d hd hk).1
        later := fun i d hd hother hended => other_during hvalid hp hids hrecord hcalls hfan
          hbranches.length hstored hd hother hended
        earlier := fun i d hd hnot => earlier_during hvalid hp hids hrecord hcalls hfan
          hbranches.length hstored hd hnot
        output := fun hnone => (houtput hnone).mpr (hlast hnone) }
    · intro c hc hin
      obtain ⟨k, hk⟩ := List.getElem?_of_mem hin
      exact (hconsumer k c hc hk).2

/-! ### Two consumers -/

/-- A step that passes a result on. -/
def passOn (id ref : String) : StepDef :=
  .new id "let" (.object [("value", .string ("\x7b\x7b$steps." ++ ref ++ ".result\x7d\x7d"))])

/-- A stream `1` with two consumers, whose result is the output. -/
def sharedStream (rest : List StepDef) : Action :=
  { Action.ofSteps (.new "open" "let" (.object [("value", .ofNat 1)]) ::
      passOn "left" "open" :: passOn "right" "open" :: rest) with
    resultsPath := some "$steps.open.result" }

/-- A table in which `1` is an open readable. -/
def openedStream (_ : ExecutionState) : StreamTable :=
  (HandleTable.new 1).mint (.register "text/plain" (.readable (.live [.chunk [1]]) none))

def sharedRun (rest : List StepDef) (plan : DagPlan) : WaveLoop × Option Stop :=
  runWaves ((quietHost Binary64.display).onStreams openedStream) (sharedStream rest) plan
    (startState (sharedStream rest))

theorem sharedStream_no_bodies {rest : List StepDef}
    (h : ∀ step ∈ rest, stepBodies step = none) (inner : StepDef) :
    ¬InBody (sharedStream rest) inner := by
  rintro ⟨top, htop, bodies, body, hbodies, -, -⟩
  have hnone : ∀ step ∈ (sharedStream rest).steps, stepBodies step = none := by
    refine List.forall_mem_cons.mpr ⟨by decide +kernel, List.forall_mem_cons.mpr ⟨by decide +kernel,
      List.forall_mem_cons.mpr ⟨by decide +kernel, h⟩⟩⟩
  rw [hnone top htop] at hbodies
  cases hbodies

/-- With a step after the consumers, the output is what was stored. -/
theorem shared_stream_seen : ∃ (l : WaveLoop) (d : Dispatch) (stored : Value),
    sharedRun [passOn "last" "left"] ⟨[[0], [1, 2], [3]], [[], [0], [0], [1]], [[1, 2], [3], [], []]⟩ =
      (l, none) ∧ d.after.stepResults.get? "open" = some stored ∧
      FanoutSeen ((quietHost Binary64.display).onStreams openedStream)
        (sharedStream [passOn "last" "left"])
        ⟨[[0], [1, 2], [3]], [[], [0], [0], [1]], [[1, 2], [3], [], []]⟩ 0 l none [2, 3] stored := by
  have hplan : buildPlan (sharedStream [passOn "last" "left"]) =
      .ok ⟨[[0], [1, 2], [3]], [[], [0], [0], [1]], [[1, 2], [3], [], []]⟩ := by decide +kernel
  generalize hplan' : (⟨[[0], [1, 2], [3]], [[], [0], [0], [1]], [[1, 2], [3], [], []]⟩ : DagPlan) =
    plan at hplan ⊢
  cases hrun : sharedRun [passOn "last" "left"] plan with
  | mk l stop =>
    have hstop : stop.isNone = true ∧ l.fanout.lookup 0 = some [2, 3] := by
      have hends : (sharedRun [passOn "last" "left"] plan).2.isNone = true ∧
          (sharedRun [passOn "last" "left"] plan).1.fanout.lookup 0 = some [2, 3] := by
        subst hplan'
        decide +kernel
      rwa [hrun] at hends
    obtain ⟨hnone, hfan⟩ := hstop
    obtain rfl := Option.isNone_iff_eq_none.mp hnone
    obtain ⟨d, -, -, stored, hstored, hiff, -⟩ := fanout_seen_iff (quietHost Binary64.display) hplan
      openedStream "demo" .null .null .null none ⟨1000000, 64⟩ hrun (by decide)
      (fun inner hin => absurd hin (sharedStream_no_bodies (by decide +kernel) inner)) hfan
    refine ⟨l, d, stored, rfl, hstored, hiff.mpr fun _ => ?_⟩
    subst hplan'
    decide +kernel

/-- Where a consumer is called last, the output is the consumer's branch. -/
theorem last_consumer_is_output :
    buildPlan (sharedStream []) = .ok ⟨[[0], [1, 2]], [[], [0], [0]], [[1, 2], [], []]⟩ ∧
      ∃ l, sharedRun [] ⟨[[0], [1, 2]], [[], [0], [0]], [[1, 2], [], []]⟩ = (l, none) ∧
        l.fanout.lookup 0 = some [2, 3] ∧ l.state.stepResults.get? "open" = some (.ofNat 1) ∧
        (actionResult Binary64.display l.state).output = .ofNat 3 ∧
        ∀ branches, ¬FanoutSeen ((quietHost Binary64.display).onStreams openedStream)
          (sharedStream []) ⟨[[0], [1, 2]], [[], [0], [0]], [[1, 2], [], []]⟩ 0 l none branches
            (.ofNat 1) := by
  refine ⟨by decide +kernel, ?_⟩
  generalize hplan : (⟨[[0], [1, 2]], [[], [0], [0]], [[1, 2], [], []]⟩ : DagPlan) = plan
  cases hrun : sharedRun [] plan with
  | mk l stop =>
    have hends : stop.isNone = true ∧ l.fanout.lookup 0 = some [2, 3] ∧
        l.state.stepResults.get? "open" = some (.ofNat 1) ∧
        (actionResult Binary64.display l.state).output = .ofNat 3 ∧
        l.state.effectiveStepResult "open" = some (.ofNat 3) := by
      have hends : (sharedRun [] plan).2.isNone = true ∧
          (sharedRun [] plan).1.fanout.lookup 0 = some [2, 3] ∧
          (sharedRun [] plan).1.state.stepResults.get? "open" = some (.ofNat 1) ∧
          (actionResult Binary64.display (sharedRun [] plan).1.state).output = .ofNat 3 ∧
          (sharedRun [] plan).1.state.effectiveStepResult "open" = some (.ofNat 3) := by
        subst hplan
        decide +kernel
      rwa [hrun] at hends
    obtain ⟨hnone, hfan, hstored, houtput, hread⟩ := hends
    obtain rfl := Option.isNone_iff_eq_none.mp hnone
    refine ⟨l, rfl, hfan, hstored, houtput, fun branches hseen => ?_⟩
    have hreads := (hseen.output rfl).body
    have hsame := hreads.symm.trans hread
    revert hsame
    decide +kernel

end Gwead
