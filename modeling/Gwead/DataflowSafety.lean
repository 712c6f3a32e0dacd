import Gwead.Lib.Countdown
import Gwead.DagPlan
import Gwead.DataflowVars

/-!
# Safety of the dataflow scheduler

Which steps a run spawns, when, and from which state, whatever the order in which the tasks
finish.
-/

namespace Gwead

open Program Countdown

/-! ### What a run shows -/

@[simp] def PipelineEvent.spawnedIdx : PipelineEvent → Option Nat
  | .spawned idx _ => some idx
  | _ => none

@[simp] def PipelineEvent.joinedIdx : PipelineEvent → Option Nat
  | .joined task _ _ => some task.idx
  | _ => none

@[simp] def PipelineEvent.releasedIdx : PipelineEvent → Option Nat
  | .released idx => some idx
  | _ => none

def spawnedIdxs (es : List PipelineEvent) : List Nat := es.filterMap (·.spawnedIdx)

def joinedIdxs (es : List PipelineEvent) : List Nat := es.filterMap (·.joinedIdx)

def releasedIdxs (es : List PipelineEvent) : List Nat := es.filterMap (·.releasedIdx)

/-- A task of the step was joined with success and reported without an error. -/
def Succeeded (es : List PipelineEvent) (idx : Nat) : Prop :=
  ∃ task t, .joined task (.ok true t) none ∈ es ∧ task.idx = idx

/-- Every join was reported without an error. -/
def NoReports (es : List PipelineEvent) : Prop :=
  ∀ task result report, .joined task result report ∈ es → report = none

/-- What an event makes of the canonical state. -/
def PipelineEvent.merge (action : Action) (baseline : IndexMap String Value) (s : ExecutionState) :
    PipelineEvent → ExecutionState
  | .joined task result _ =>
    mergeTaskState s (finalState result) (action.stepAt task.idx).id baseline
  | _ => s

/-- The canonical state after the joins of a run that started in `s`. -/
def mergedState (action : Action) (s : ExecutionState) (es : List PipelineEvent) :
    ExecutionState :=
  es.foldl (fun acc e => e.merge action s.vars acc) s

section Shown

variable (es : List PipelineEvent) (e : PipelineEvent)

@[simp] theorem spawnedIdxs_snoc :
    spawnedIdxs (es ++ [e]) = spawnedIdxs es ++ e.spawnedIdx.toList := by
  cases e <;> simp [spawnedIdxs]

@[simp] theorem joinedIdxs_snoc : joinedIdxs (es ++ [e]) = joinedIdxs es ++ e.joinedIdx.toList := by
  cases e <;> simp [joinedIdxs]

@[simp] theorem releasedIdxs_snoc :
    releasedIdxs (es ++ [e]) = releasedIdxs es ++ e.releasedIdx.toList := by
  cases e <;> simp [releasedIdxs]

theorem mergedState_snoc (action : Action) (s : ExecutionState) :
    mergedState action s (es ++ [e]) = e.merge action s.vars (mergedState action s es) := by
  rw [mergedState, List.foldl_append]
  rfl

theorem NoReports.snoc_iff : NoReports (es ++ [e]) ↔
    NoReports es ∧ ∀ task result report, e = .joined task result report → report = none := by
  constructor
  · intro h
    exact ⟨fun t r p hm => h t r p (List.mem_append_left _ hm),
      fun t r p he => h t r p (by simp [he])⟩
  · rintro ⟨h, hlast⟩ t r p hm
    rcases List.mem_append.mp hm with hm | hm
    · exact h t r p hm
    · exact hlast t r p (List.mem_singleton.mp hm).symm

end Shown

theorem Succeeded.snoc {es : List PipelineEvent} {idx : Nat} (h : Succeeded es idx)
    (e : PipelineEvent) : Succeeded (es ++ [e]) idx := by
  obtain ⟨task, t, hmem, hidx⟩ := h
  exact ⟨task, t, List.mem_append_left _ hmem, hidx⟩

section Invariants

variable {host : Host} {action : Action} {plan : DagPlan} {listened : Bool}

/-! ### State, errors and token -/

/-- The pipeline carries what the run has shown: the merged state, whether an error was reported,
and whether the token was fired, before the start (`token`), by somebody else or by an error. -/
structure Reflected (action : Action) (s : ExecutionState) (fanout : List (Nat × List Nat))
    (token : Bool) (es : List PipelineEvent) (c : Pipeline) : Prop where
  baseline : c.baselineVariables = s.vars
  canonical : c.canonical = mergedState action s es
  fanout : c.fanout = fanout
  firstError : c.firstError = none ↔ NoReports es
  fired : token = true ∨ .fired ∈ es → c.cancelled = true
  cancelled : c.cancelled = true → token = true ∨ .fired ∈ es ∨ ¬NoReports es

variable {s : ExecutionState} {fanout : List (Nat × List Nat)} {token : Bool}
  {es : List PipelineEvent} {c c' : Pipeline} {e : PipelineEvent}

/-- A step of the scheduler that joins nothing and fires nothing. -/
theorem Reflected.keep (h : Reflected action s fanout token es c) (hjoin : e.joinedIdx = none)
    (hfire : e ≠ .fired) (hbaseline : c'.baselineVariables = c.baselineVariables)
    (hcanonical : c'.canonical = c.canonical) (hfanout : c'.fanout = c.fanout)
    (herror : c'.firstError = c.firstError) (htoken : c'.cancelled = c.cancelled) :
    Reflected action s fanout token (es ++ [e]) c' := by
  have hreports : NoReports (es ++ [e]) ↔ NoReports es := by
    rw [NoReports.snoc_iff]
    refine and_iff_left fun task result report he => ?_
    rw [he] at hjoin
    cases hjoin
  have hfired : .fired ∈ es ++ [e] ↔ .fired ∈ es := by
    simp [hfire.symm]
  have hmerge : mergedState action s (es ++ [e]) = mergedState action s es := by
    rw [mergedState_snoc]
    cases e with
    | joined => cases hjoin
    | _ => rfl
  constructor
  · rw [hbaseline, h.baseline]
  · rw [hcanonical, h.canonical, hmerge]
  · rw [hfanout, h.fanout]
  · rw [herror, h.firstError, hreports]
  · rw [hfired, htoken]
    exact h.fired
  · rw [hfired, htoken, hreports]
    exact h.cancelled

theorem Reflected.move (h : Reflected action s fanout token es c)
    (hmove : Move host action plan listened c e c') : Reflected action s fanout token (es ++ [e]) c' := by
  cases hmove with
  | fire =>
    have hreports : NoReports (es ++ [.fired]) ↔ NoReports es := by
      rw [NoReports.snoc_iff]
      exact and_iff_left fun _ _ _ he => nomatch he
    refine ⟨h.baseline, ?_, h.fanout, h.firstError.trans hreports.symm, fun _ => rfl,
      fun _ => Or.inr (Or.inl (by simp))⟩
    rw [mergedState_snoc]
    exact h.canonical
  | join task hphase htask report c' hjoin =>
    cases hjoin
    have hfired : ∀ r, PipelineEvent.fired ∈ es ++
        [.joined task (runStep host (action.stepAt task.idx) task.idx task.fork) r] ↔
          .fired ∈ es := by simp
    refine ⟨h.baseline, ?_, h.fanout, ?_, fun hmem => ?_, fun htoken => ?_⟩
    · rw [mergedState_snoc, ← h.canonical, ← h.baseline]
      rfl
    · rw [NoReports.snoc_iff, ← h.firstError]
      simp only [Option.or_eq_none_iff]
      refine and_congr_right fun herror => ?_
      constructor
      · rintro hnone _ _ _ ⟨⟩
        exact Option.or_eq_none_iff.mpr hnone
      · intro hall
        exact Option.or_eq_none_iff.mp (hall _ _ _ rfl)
    · simp only [h.fired (hmem.imp_right (hfired _).mp), Bool.true_or]
    · rw [hfired]
      simp only [Bool.or_eq_true, Bool.and_eq_true] at htoken
      rcases htoken with htoken | ⟨-, hreport⟩
      · rcases h.cancelled htoken with hstart | hfire | herror
        · exact Or.inl hstart
        · exact Or.inr (Or.inl hfire)
        · exact Or.inr (Or.inr fun hall => herror ((NoReports.snoc_iff _ _).mp hall).1)
      · refine Or.inr (Or.inr fun hall => ?_)
        have hnone := ((NoReports.snoc_iff _ _).mp hall).2 _ _ _ rfl
        rw [hnone] at hreport
        cases hreport
  | _ => exact h.keep rfl (fun he => nomatch he) rfl rfl rfl rfl rfl

/-! ### Spawns and joins -/

/-- The loops in which the scheduler spawns. -/
def Phase.spawns : Phase → Prop
  | .starting _ => True
  | .releasing _ _ => True
  | _ => False

/-- Each step is spawned at most once and is then running or joined; the initial loop spawns in
order, before any join. -/
structure Spawned (action : Action) (es : List PipelineEvent) (c : Pipeline) : Prop where
  booked : Booked action.steps.length (spawnedIdxs es) (joinedIdxs es) (c.running.map (·.idx))
    c.spawned
  starting : ∀ k, c.phase = .starting k → (∀ i ∈ spawnedIdxs es, i < k) ∧ joinedIdxs es = []

theorem Spawned.move (h : Spawned action es c)
    (hpending : ∀ d rest, c.phase = .releasing d rest → ∀ j ∈ rest, j < action.steps.length)
    (hmove : Move host action plan listened c e c') : Spawned action (es ++ [e]) c' := by
  cases hmove with
  | fire => exact ⟨by simpa using h.booked, by simpa using h.starting⟩
  | start i hphase hi hready =>
    obtain ⟨hbefore, hjoins⟩ := h.starting i hphase
    have hnew : i ∉ spawnedIdxs es := fun hin => Nat.lt_irrefl i (hbefore i hin)
    refine ⟨by simpa [spawnDataflowStep] using h.booked.spawn hi hnew, ?_⟩
    rintro _ ⟨⟩
    refine ⟨fun j hj => ?_, by simpa using hjoins⟩
    simp only [spawnedIdxs_snoc, PipelineEvent.spawnedIdx, Option.toList_some, List.mem_append,
      List.mem_singleton] at hj
    rcases hj with hj | rfl
    · exact Nat.lt_succ_of_lt (hbefore j hj)
    · exact Nat.lt_succ_self j
  | skip i hphase hi hready =>
    obtain ⟨hbefore, hjoins⟩ := h.starting i hphase
    refine ⟨by simpa using h.booked, ?_⟩
    rintro _ ⟨⟩
    exact ⟨by simpa using fun j hj => Nat.lt_succ_of_lt (hbefore j hj), by simpa using hjoins⟩
  | join task hphase htask report c' hjoin =>
    cases hjoin
    refine ⟨?_, fun _ hstart => nomatch hstart⟩
    have hmem : task.idx ∈ c.running.map (·.idx) := List.mem_map_of_mem htask
    have hrest : ∀ j, j ∈ (c.running.filter fun t => t.idx != task.idx).map (·.idx) ↔
        j ∈ c.running.map (·.idx) ∧ j ≠ task.idx := by
      intro j
      simp only [List.mem_map, List.mem_filter, bne_iff_ne, ne_eq]
      constructor
      · rintro ⟨t, ⟨ht, hne⟩, rfl⟩
        exact ⟨⟨t, ht, rfl⟩, hne⟩
      · rintro ⟨⟨t, ht, rfl⟩, hne⟩
        exact ⟨t, ⟨ht, hne⟩, rfl⟩
    simpa using h.booked.join hmem hrest
  | spawnConsumer i j rest hphase hlast hfresh =>
    have hj := hpending i _ hphase j List.mem_cons_self
    have hnew : j ∉ spawnedIdxs es := by
      rw [← h.booked.flag j, hfresh]
      exact Bool.false_ne_true
    exact ⟨by simpa [spawnDataflowStep, Pipeline.countDown] using h.booked.spawn hj hnew,
      fun _ hstart => nomatch hstart⟩
  | _ => exact ⟨by simpa [Pipeline.countDown] using h.booked, fun _ hstart => nomatch hstart⟩

/-! ### Releases -/

/-- Only steps that succeeded are released, each once, and while nothing has failed every joined
step is released before the next join. -/
structure Released (action : Action) (plan : DagPlan) (es : List PipelineEvent) (c : Pipeline) :
    Prop where
  succeeded : ∀ d ∈ releasedIdxs es, d ∈ joinedIdxs es ∧ Succeeded es d
  deciding : ∀ d, c.phase = .deciding d → d ∈ joinedIdxs es ∧ d ∉ releasedIdxs es ∧
    (c.firstError = none → c.cancelled = false → Succeeded es d)
  releasing : ∀ d rest, c.phase = .releasing d rest → d ∈ releasedIdxs es ∧
    (action.stepAt d).longRunning = false ∧ rest.Nodup ∧
      ∀ j ∈ rest, j < action.steps.length ∧ d ∈ plan.depsOf j
  noError : c.phase.spawns → c.firstError = none
  settled : c.firstError = none → c.cancelled = false → ∀ d ∈ joinedIdxs es,
    (action.stepAt d).longRunning = false → d ∈ releasedIdxs es ∨ c.phase = .deciding d

/-- A step of the scheduler that neither joins nor releases. -/
theorem Released.keep (h : Released action plan es c) {p p' : Phase} (hphase : c.phase = p)
    (hphase' : c'.phase = p') (hjoin : e.joinedIdx = none) (hrelease : e.releasedIdx = none)
    (herror : c'.firstError = c.firstError) (htoken : c'.cancelled = c.cancelled)
    (hspawns : p'.spawns → p.spawns) (hdeciding : ∀ d, p' ≠ .deciding d)
    (hwas : ∀ d, p = .deciding d →
      (action.stepAt d).longRunning = true ∨ c.firstError ≠ none ∨ c.cancelled = true)
    (hreleasing : ∀ d rest, p' = .releasing d rest → ∃ more, p = .releasing d (more ++ rest)) :
    Released action plan (es ++ [e]) c' where
  succeeded d hd := by
    simp only [releasedIdxs_snoc, hrelease, Option.toList_none, List.append_nil] at hd
    simp only [joinedIdxs_snoc, hjoin, Option.toList_none, List.append_nil]
    exact ⟨(h.succeeded d hd).1, (h.succeeded d hd).2.snoc e⟩
  deciding d hd := absurd (hphase'.symm.trans hd) (hdeciding d)
  releasing d rest hd := by
    rw [releasedIdxs_snoc, hrelease, Option.toList_none, List.append_nil]
    obtain ⟨more, hp⟩ := hreleasing d rest (hphase'.symm.trans hd)
    obtain ⟨hin, hvalue, hnodup, hconsumers⟩ := h.releasing d (more ++ rest) (hphase.trans hp)
    exact ⟨hin, hvalue, (List.nodup_append.mp hnodup).2.1,
      fun j hj => hconsumers j (List.mem_append_right more hj)⟩
  noError hs := by
    rw [hphase'] at hs
    rw [herror]
    exact h.noError (by rw [hphase]; exact hspawns hs)
  settled he ht d hd hvalue := by
    rw [herror] at he
    rw [htoken] at ht
    simp only [joinedIdxs_snoc, hjoin, Option.toList_none, List.append_nil] at hd
    simp only [releasedIdxs_snoc, hrelease, Option.toList_none, List.append_nil]
    rcases h.settled he ht d hd hvalue with hin | hd
    · exact Or.inl hin
    · rcases hwas d (hphase.symm.trans hd) with hlong | hne | hcancelled
      · rw [hvalue] at hlong
        cases hlong
      · exact absurd he hne
      · rw [ht] at hcancelled
        cases hcancelled

theorem taskReport_none {step : StepDef} {result : EStateM.Result KernelError ExecutionState Bool}
    (h : taskReport false step result = none) : ∃ t, result = .ok true t := by
  cases result with
  | ok finished t =>
    cases finished with
    | true => exact ⟨t, rfl⟩
    | false => simp [taskReport] at h
  | error err t => cases err <;> simp [taskReport] at h

/-- A join without an error in a pipeline whose token has not fired is a success. -/
theorem joinTask_succeeded (task : Task) {report : Option KernelError}
    (hjoin : joinTask host action listened c task =
      (.joined task (runStep host (action.stepAt task.idx) task.idx task.fork) report, c'))
    (herror : c'.firstError = none) (htoken : c'.cancelled = false) :
    Succeeded (es ++ [.joined task (runStep host (action.stepAt task.idx) task.idx task.fork)
      report]) task.idx := by
  have hcancelled : c.cancelled = false := by
    have hjoined : (joinTask host action listened c task).2.cancelled = false := by
      rw [hjoin]
      exact htoken
    exact (Bool.or_eq_false_iff.mp hjoined).1
  have hreport : c.firstError.or report = none := by
    cases hjoin
    exact herror
  obtain ⟨-, rfl⟩ := Option.or_eq_none_iff.mp hreport
  have hstep : taskReport false (action.stepAt task.idx)
      (runStep host (action.stepAt task.idx) task.idx task.fork) = none := by
    have hnone := (Prod.ext_iff.mp hjoin).1
    simp only [joinTask, PipelineEvent.joined.injEq, Option.or_eq_none_iff, hcancelled,
      Bool.false_and, true_and] at hnone
    exact hnone.1
  obtain ⟨t, hok⟩ := taskReport_none hstep
  exact ⟨task, t, List.mem_append_right _ (by rw [hok, List.mem_singleton]), rfl⟩

theorem Released.move (hvalid : plan.Valid action.steps) (hspawned : Spawned action es c)
    (h : Released action plan es c) (hmove : Move host action plan listened c e c') :
    Released action plan (es ++ [e]) c' := by
  cases hmove with
  | fire =>
    refine ⟨fun d hd => ?_, fun d hd => ?_, ?_, h.noError, fun _ htoken => nomatch htoken⟩
    · obtain ⟨hjoined, hok⟩ := h.succeeded d (by simpa using hd)
      exact ⟨by simpa using hjoined, hok.snoc _⟩
    · obtain ⟨hjoined, hnot, -⟩ := h.deciding d hd
      exact ⟨by simpa using hjoined, by simpa using hnot, fun _ htoken => nomatch htoken⟩
    · simpa using h.releasing
  | start i hphase hi hready | skip i hphase hi hready =>
    exact h.keep hphase rfl rfl rfl rfl rfl id (fun _ hd => nomatch hd) (fun _ hd => nomatch hd)
      fun _ _ hr => nomatch hr
  | started i hphase | finish hphase | panic i text hphase | releasedAll i hphase =>
    exact h.keep hphase rfl rfl rfl rfl rfl False.elim (fun _ hd => nomatch hd)
      (fun _ hd => nomatch hd) fun _ _ hr => nomatch hr
  | join task hphase htask report c' hjoin =>
    have hphase' : c'.phase = .deciding task.idx := by
      cases hjoin
      rfl
    have hfresh : task.idx ∉ joinedIdxs es :=
      (hspawned.booked.active task.idx (List.mem_map_of_mem htask)).2
    refine ⟨fun d hd => ?_, ?_, fun d rest hd => ?_, fun hs => ?_, fun he ht d hd hvalue => ?_⟩
    · obtain ⟨hjoined, hok⟩ := h.succeeded d (by simpa using hd)
      exact ⟨by simp [hjoined], hok.snoc _⟩
    · rintro d hd
      cases hphase'.symm.trans hd
      refine ⟨by simp, ?_, fun he ht => joinTask_succeeded task hjoin he ht⟩
      simpa using fun hin => hfresh (h.succeeded _ hin).1
    · exact nomatch hphase'.symm.trans hd
    · rw [hphase'] at hs
      exact hs.elim
    · simp only [joinedIdxs_snoc, PipelineEvent.joinedIdx, Option.toList_some, List.mem_append,
        List.mem_singleton] at hd
      rcases hd with hd | rfl
      · have herror : c.firstError = none := by
          cases hjoin
          exact (Option.or_eq_none_iff.mp he).1
        have htoken : c.cancelled = false := by
          cases hjoin
          exact (Bool.or_eq_false_iff.mp ht).1
        rcases h.settled herror htoken d hd hvalue with hin | hd
        · exact Or.inl (by simpa using hin)
        · exact nomatch hphase.symm.trans hd
      · exact Or.inr hphase'
  | release i hphase hvalue herror htoken =>
    obtain ⟨hjoined, hfresh, hok⟩ := h.deciding i hphase
    have hi : i < action.steps.length := hspawned.booked.bound i (hspawned.booked.joined i hjoined)
    have hconsumers : plan.consumersAt i =
        (List.range action.steps.length).filter fun j => (plan.depsOf j).contains i :=
      hvalid.consumers_eq i hi
    refine ⟨fun d hd => ?_, fun _ hd => (nomatch hd), ?_, fun _ => herror, fun he ht d hd hv => ?_⟩
    · simp only [releasedIdxs_snoc, PipelineEvent.releasedIdx, Option.toList_some, List.mem_append,
        List.mem_singleton] at hd
      simp only [joinedIdxs_snoc, PipelineEvent.joinedIdx, Option.toList_none, List.append_nil]
      rcases hd with hd | rfl
      · exact ⟨(h.succeeded d hd).1, (h.succeeded d hd).2.snoc _⟩
      · exact ⟨hjoined, (hok herror htoken).snoc _⟩
    · rintro _ _ ⟨⟩
      refine ⟨by simp, hvalue, ?_, fun j hj => ?_⟩
      · rw [hconsumers]
        exact List.nodup_range.filter _
      · rw [hconsumers, List.mem_filter, List.mem_range, List.contains_iff_mem] at hj
        exact hj
    · rcases h.settled he ht d (by simpa using hd) hv with hin | hdeciding
      · exact Or.inl (by simp [hin])
      · cases hphase.symm.trans hdeciding
        exact Or.inl (by simp)
  | retain i hphase hwhy =>
    refine h.keep hphase rfl rfl rfl rfl rfl False.elim (fun _ hd => nomatch hd) ?_
      fun _ _ hr => nomatch hr
    rintro _ ⟨⟩
    exact hwhy
  | spawnConsumer i j rest hphase | passConsumer i j rest hphase =>
    refine h.keep hphase rfl rfl rfl rfl rfl id (fun _ hd => nomatch hd) (fun _ hd => nomatch hd) ?_
    rintro _ _ ⟨⟩
    exact ⟨[j], rfl⟩

/-! ### Counters -/

/-- The consumers a release loop has not counted down yet. -/
@[simp] def Phase.pending : Phase → Option (Nat × List Nat)
  | .releasing d rest => some (d, rest)
  | _ => none

/-- Whether the scheduler has had a chance to spawn the step. -/
def Phase.passed : Phase → Nat → Prop
  | .starting k, i => i < k
  | _, _ => True

/-- The counters are right, and a step that waits for nothing has been spawned. -/
structure Counted (action : Action) (plan : DagPlan) (es : List PipelineEvent) (c : Pipeline) :
    Prop where
  counts : Counts (valueDeps action plan) action.steps.length c.awaiting (releasedIdxs es)
    c.phase.pending
  ready : ∀ i < action.steps.length, c.phase.passed i → c.awaiting.getD i 0 = 0 →
    i ∈ spawnedIdxs es

/-- A step of the scheduler that touches no counter. -/
theorem Counted.keep (h : Counted action plan es c) (hspawn : e.spawnedIdx = none)
    (hrelease : e.releasedIdx = none) (hawaiting : c'.awaiting = c.awaiting)
    (hcounts : Counts (valueDeps action plan) action.steps.length c.awaiting (releasedIdxs es)
      c'.phase.pending)
    (hpassed : ∀ i < action.steps.length, c'.phase.passed i → c.awaiting.getD i 0 = 0 →
      c.phase.passed i) : Counted action plan (es ++ [e]) c' where
  counts := by
    rw [releasedIdxs_snoc, hrelease, Option.toList_none, List.append_nil, hawaiting]
    exact hcounts
  ready i hi hp hzero := by
    rw [hawaiting] at hzero
    rw [spawnedIdxs_snoc, hspawn, Option.toList_none, List.append_nil]
    exact h.ready i hi (hpassed i hi hp hzero) hzero

theorem countDown_self (c : Pipeline) {j : Nat} (hj : j < c.awaiting.length) :
    (c.countDown j).awaiting.getD j 0 = c.awaiting.getD j 0 - 1 := by
  simp [Pipeline.countDown, hj]

theorem countDown_other (c : Pipeline) {j k : Nat} (h : k ≠ j) :
    (c.countDown j).awaiting.getD k 0 = c.awaiting.getD k 0 := by
  simp [Pipeline.countDown, List.getD_eq_getElem?_getD, List.getElem?_set_ne h.symm]

/-- Counting down the next consumer of a release leaves every counter right. -/
theorem Counted.consumer (h : Counted action plan es c)
    (hdeps : ∀ i, (valueDeps action plan i).Nodup) (hreleased : Released action plan es c)
    {d j : Nat} {rest : List Nat} (hphase : c.phase = .releasing d (j :: rest)) :
    Counts (valueDeps action plan) action.steps.length (c.countDown j).awaiting (releasedIdxs es)
      (some (d, rest)) := by
  obtain ⟨hin, hvalue, hnodup, hconsumers⟩ := hreleased.releasing d (j :: rest) hphase
  obtain ⟨hj, hdep⟩ := hconsumers j List.mem_cons_self
  have hcounts := h.counts
  rw [hphase] at hcounts
  exact hcounts.consumer hdeps hin (List.mem_filter.mpr ⟨hdep, by simp [hvalue]⟩)
    (List.nodup_cons.mp hnodup).1 hj

theorem Counted.move (hvalid : plan.Valid action.steps) (hspawned : Spawned action es c)
    (hreleased : Released action plan es c) (hcounted : Counted action plan es c) (hmove : Move host action plan listened c e c') :
    Counted action plan (es ++ [e]) c' := by
  have hdeps : ∀ i, (valueDeps action plan i).Nodup := fun i => (hvalid.deps_nodup i).filter _
  have hcounts : ∀ {p q}, c.phase = p → p.pending = q → Counts (valueDeps action plan)
      action.steps.length c.awaiting (releasedIdxs es) q := by
    rintro _ _ rfl rfl
    exact hcounted.counts
  cases hmove with
  | fire => exact hcounted.keep rfl rfl rfl hcounted.counts fun _ _ hp _ => hp
  | start i hphase hi hready =>
    refine ⟨by simpa [spawnDataflowStep] using hcounts hphase rfl, fun j hj hp hzero => ?_⟩
    rw [spawnedIdxs_snoc]
    rcases Nat.lt_succ_iff_lt_or_eq.mp hp with hlt | rfl
    · exact List.mem_append_left _ (hcounted.ready j hj (by rwa [hphase]) hzero)
    · exact List.mem_append_right _ (by simp)
  | skip i hphase hi hready =>
    refine hcounted.keep rfl rfl rfl (hcounts hphase rfl) fun j hj hp hzero => ?_
    rw [hphase]
    rcases Nat.lt_succ_iff_lt_or_eq.mp hp with hlt | rfl
    · exact hlt
    · exact absurd hzero hready
  | started i hphase hi =>
    refine hcounted.keep rfl rfl rfl (hcounts hphase rfl) fun j hj _ _ => ?_
    rw [hphase]
    exact Nat.lt_of_lt_of_le hj hi
  | join task hphase htask report c' hjoin =>
    cases hjoin
    refine hcounted.keep rfl rfl rfl (hcounts hphase rfl) fun j hj _ _ => ?_
    rw [hphase]
    trivial
  | finish hphase | panic i text hphase | retain i hphase =>
    refine hcounted.keep rfl rfl rfl (hcounts hphase rfl) fun j hj _ _ => ?_
    rw [hphase]
    trivial
  | release i hphase hvalue herror htoken =>
    obtain ⟨hjoined, hfresh, -⟩ := hreleased.deciding i hphase
    have hall : ∀ j < action.steps.length, i ∈ valueDeps action plan j →
        j ∈ plan.consumersAt i := by
      intro j hj hdep
      have hmem : i ∈ plan.depsOf j := (List.mem_filter.mp hdep).1
      have hi : i < action.steps.length := Nat.lt_trans (hvalid.deps_lt j hj i hmem) hj
      rw [DagPlan.consumersAt, hvalid.consumers_eq i hi, List.mem_filter, List.mem_range,
        List.contains_iff_mem]
      exact ⟨hj, hmem⟩
    refine ⟨by simpa using (hcounts hphase rfl).release hfresh hall, fun j hj _ hzero => ?_⟩
    simpa using hcounted.ready j hj (by rw [hphase]; trivial) hzero
  | releasedAll i hphase =>
    refine hcounted.keep rfl rfl rfl (hcounts hphase rfl).done fun j hj _ _ => ?_
    rw [hphase]
    trivial
  | spawnConsumer i j rest hphase hlast hfresh =>
    refine ⟨by simpa [spawnDataflowStep] using
      hcounted.consumer hdeps hreleased hphase, fun k hk _ hzero => ?_⟩
    rw [spawnedIdxs_snoc]
    by_cases hkj : k = j
    · exact List.mem_append_right _ (by simp [hkj])
    · rw [show (spawnDataflowStep action plan (c.countDown j) j (.releasing i rest)).2.awaiting =
        (c.countDown j).awaiting from rfl, countDown_other c hkj] at hzero
      exact List.mem_append_left _ (hcounted.ready k hk (by rw [hphase]; trivial) hzero)
  | passConsumer i j rest hphase hwhy =>
    refine ⟨by simpa using hcounted.consumer hdeps hreleased hphase, fun k hk _ hzero => ?_⟩
    simp only [spawnedIdxs_snoc, PipelineEvent.spawnedIdx, Option.toList_none, List.append_nil]
    by_cases hkj : k = j
    · subst hkj
      have hlength : k < c.awaiting.length := by
        rw [hcounted.counts.length_awaiting]
        exact hk
      rw [countDown_self c hlength] at hzero
      rcases hwhy with hnot | hspawned'
      · exact absurd hzero hnot
      · exact (hspawned.booked.flag k).mp hspawned'
    · rw [countDown_other c hkj] at hzero
      exact hcounted.ready k hk (by rw [hphase]; trivial) hzero

/-! ### The end -/

/-- A pipeline ends with a panic or once nothing runs any more. -/
structure Finished (host : Host) (action : Action) (es : List PipelineEvent) (c : Pipeline) :
    Prop where
  ended : ∀ outcome, c.phase = .ended outcome → (∃ i, .panicked i ∈ es) ∨
    c.running = [] ∧ (.fired ∉ es → outcome = finishPipeline host action c)

theorem Finished.move (h : Finished host action es c)
    (hmove : Move host action plan listened c e c') : Finished host action (es ++ [e]) c' := by
  refine ⟨fun outcome hended => ?_⟩
  cases hmove with
  | fire =>
    rcases h.ended outcome hended with ⟨i, hpanic⟩ | ⟨hrunning, -⟩
    · exact Or.inl ⟨i, List.mem_append_left _ hpanic⟩
    · exact Or.inr ⟨hrunning, fun hnot => absurd (by simp) hnot⟩
  | finish hphase hrunning =>
    cases hended
    exact Or.inr ⟨hrunning, fun _ => rfl⟩
  | panic i text hphase => exact Or.inl ⟨i, by simp⟩
  | join task hphase htask report c' hjoin =>
    cases hjoin
    cases hended
  | _ => cases hended

/-- What every run of a pipeline keeps. -/
structure Scheduled (host : Host) (action : Action) (plan : DagPlan) (s : ExecutionState)
    (fanout : List (Nat × List Nat)) (token : Bool) (es : List PipelineEvent) (c : Pipeline) :
    Prop where
  reflected : Reflected action s fanout token es c
  spawned : Spawned action es c
  released : Released action plan es c
  counted : Counted action plan es c
  finished : Finished host action es c

variable (host) in
theorem scheduled_start : Scheduled host action plan s fanout token []
    (startPipeline action plan s fanout token) where
  reflected := by
    refine ⟨rfl, rfl, rfl, iff_of_true rfl fun _ _ _ hm => absurd hm List.not_mem_nil,
      fun hm => hm.elim id fun hin => absurd hin List.not_mem_nil, Or.inl⟩
  spawned := by
    refine ⟨booked_start _, fun k _ => ⟨fun i hi => absurd hi List.not_mem_nil, rfl⟩⟩
  released := by
    refine ⟨fun d hd => absurd hd List.not_mem_nil, fun _ hd => (nomatch hd),
      fun _ _ hd => (nomatch hd), fun _ => rfl, fun _ _ d hd => absurd hd List.not_mem_nil⟩
  counted := by
    refine ⟨counts_start (valueDeps action plan) action.steps.length, fun i hi hp hzero => ?_⟩
    exact absurd hp (Nat.not_lt_zero i)
  finished := ⟨fun _ hended => nomatch hended⟩

theorem reflected_of_run
    (hrun : PipelineRun host action plan listened (startPipeline action plan s fanout token) es c) :
    Reflected action s fanout token es c :=
  hrun.invariant (P := Reflected action s fanout token) (scheduled_start host).reflected
    fun _ _ _ _ h hstep => h.move (hstep.move host action plan)

theorem Scheduled.step (hvalid : plan.Valid action.steps)
    (h : Scheduled host action plan s fanout token es c)
    (hstep : PipelineStep host action plan listened c e c') :
    Scheduled host action plan s fanout token (es ++ [e]) c' := by
  have hmove := hstep.move host action plan
  have hpending : ∀ d rest, c.phase = .releasing d rest → ∀ j ∈ rest, j < action.steps.length :=
    fun d rest hphase j hj => ((h.released.releasing d rest hphase).2.2.2 j hj).1
  exact ⟨h.reflected.move hmove, h.spawned.move hpending hmove,
    h.released.move hvalid h.spawned hmove,
    h.counted.move hvalid h.spawned h.released hmove, h.finished.move hmove⟩

theorem scheduled_of_run (hvalid : plan.Valid action.steps)
    (hrun : PipelineRun host action plan listened (startPipeline action plan s fanout token) es c) :
    Scheduled host action plan s fanout token es c :=
  hrun.invariant (P := Scheduled host action plan s fanout token) (scheduled_start host)
    fun _ _ _ _ h hstep => h.step hvalid hstep

/-! ### Spawns -/

/-- The loop under way has a step to spawn. -/
def Pipeline.spawnsNext (action : Action) (c : Pipeline) : Prop :=
  match c.phase with
  | .starting k => ∃ i, k ≤ i ∧ i < action.steps.length ∧ c.awaiting.getD i 0 = 0
  | .releasing _ rest =>
    ∃ j ∈ rest, c.awaiting.getD j 0 - 1 = 0 ∧ c.spawned.getD j false = false
  | _ => False

/-- A step that does not fire the token while the loop under way has a step to spawn. -/
def QuietStep (host : Host) (action : Action) (plan : DagPlan) (listened : Bool) (c : Pipeline)
    (e : PipelineEvent) (c' : Pipeline) : Prop :=
  PipelineStep host action plan listened c e c' ∧ (e = .fired → ¬c.spawnsNext action)

/-- What holds when a step of the action is spawned, given what the run has shown so far. -/
structure SpawnedInTime (action : Action) (plan : DagPlan) (s : ExecutionState)
    (fanout : List (Nat × List Nat)) (es : List PipelineEvent) (i : Nat) (fork : ExecutionState) :
    Prop where
  first : i ∉ spawnedIdxs es
  depended : ∀ d ∈ plan.depsOf i, (action.stepAt d).longRunning = false → Succeeded es d
  fork_eq : fork = forkFor action plan (mergedState action s es) fanout i
  noError : NoReports es

/-- Once the counter of a step is down to its last pending dependency, all of them succeeded. -/
theorem Scheduled.depended (h : Scheduled host action plan s fanout token es c) {i : Nat}
    (hcredited : ∀ d ∈ valueDeps action plan i, d ∈ releasedIdxs es) :
    ∀ d ∈ plan.depsOf i, (action.stepAt d).longRunning = false → Succeeded es d := by
  intro d hd hvalue
  have hdep : d ∈ valueDeps action plan i := List.mem_filter.mpr ⟨hd, by simp [hvalue]⟩
  exact (h.released.succeeded d (hcredited d hdep)).2

theorem credited_released {R : List Nat} {pending : Option (Nat × List Nat)} {d i : Nat}
    (h : credited R pending d i = true) : d ∈ R := by
  simp only [credited, Bool.and_eq_true, List.contains_iff_mem] at h
  exact h.1

/-- Every spawn comes after the step's dependencies and before any error. -/
theorem Scheduled.spawnedInTime (hvalid : plan.Valid action.steps)
    (h : Scheduled host action plan s fanout token es c) {i : Nat} {fork : ExecutionState}
    (hmove : Move host action plan listened c (.spawned i fork) c') :
    SpawnedInTime action plan s fanout es i fork := by
  have hfork : forkFor action plan c.canonical c.fanout i =
      forkFor action plan (mergedState action s es) fanout i := by
    rw [h.reflected.canonical, h.reflected.fanout]
  have hdeps : ∀ i, (valueDeps action plan i).Nodup := fun i => (hvalid.deps_nodup i).filter _
  cases hmove with
  | start i hphase hi hready =>
    obtain ⟨hbefore, -⟩ := h.spawned.starting i hphase
    refine ⟨fun hin => Nat.lt_irrefl i (hbefore i hin), h.depended fun d hd => ?_, hfork,
      h.reflected.firstError.mp (h.released.noError (by rw [hphase]; trivial))⟩
    exact credited_released ((h.counted.counts.zero_iff hi).mp hready d hd)
  | spawnConsumer d _ rest hphase hlast hfresh =>
    obtain ⟨-, -, -, hconsumers⟩ := h.released.releasing d (i :: rest) hphase
    have hi := (hconsumers i List.mem_cons_self).1
    refine ⟨fun hin => ?_, h.depended fun d' hd' => ?_, hfork,
      h.reflected.firstError.mp (h.released.noError (by rw [hphase]; trivial))⟩
    · rw [(h.spawned.booked.flag i).mpr hin] at hfresh
      cases hfresh
    · have hcounts := h.counted.consumer hdeps h.released hphase
      have hzero : (c.countDown i).awaiting.getD i 0 = 0 := by
        rwa [countDown_self c (by rw [h.counted.counts.length_awaiting]; exact hi)]
      exact credited_released ((hcounts.zero_iff hi).mp hzero d' hd')

/-- Only steps of the action are spawned. -/
theorem Scheduled.spawned_lt (h : Scheduled host action plan s fanout token es c) {i : Nat}
    {fork : ExecutionState} (hmove : Move host action plan listened c (.spawned i fork) c') :
    i < action.steps.length := by
  cases hmove with
  | start i hphase hi hready => exact hi
  | spawnConsumer d _ rest hphase hlast hfresh =>
    obtain ⟨-, -, -, hconsumers⟩ := h.released.releasing d (i :: rest) hphase
    exact (hconsumers i List.mem_cons_self).1

/-- The spawn shows that the loop had a step to spawn. -/
theorem Move.spawnsNext {i : Nat} {fork : ExecutionState}
    (hmove : Move host action plan listened c (.spawned i fork) c') : c.spawnsNext action := by
  unfold Pipeline.spawnsNext
  cases hmove with
  | start i hphase hi hready =>
    rw [hphase]
    exact ⟨i, Nat.le_refl i, hi, hready⟩
  | spawnConsumer d j rest hphase hlast hfresh =>
    rw [hphase]
    exact ⟨i, List.mem_cons_self, hlast, hfresh⟩

/-- A loop that has a step to spawn had one before, unless it has just begun, and only somebody
else fires the token meanwhile. -/
theorem Move.spawnsNext_before (hreleased : Released action plan es c)
    (hmove : Move host action plan listened c e c') (hnext : c'.spawnsNext action) :
    c.spawnsNext action ∧ (e = .fired ∨ c'.cancelled = c.cancelled) ∨ c'.cancelled = false := by
  have hrest : ∀ d j rest, c.phase = .releasing d (j :: rest) →
      (∃ k ∈ rest, (c.countDown j).awaiting.getD k 0 - 1 = 0 ∧ c.spawned.getD k false = false) →
        c.spawnsNext action := by
    rintro d j rest hphase ⟨k, hk, hlast, hfresh⟩
    have hnodup := (hreleased.releasing d (j :: rest) hphase).2.2.1
    have hne : k ≠ j := by
      rintro rfl
      exact (List.nodup_cons.mp hnodup).1 hk
    rw [countDown_other c hne] at hlast
    unfold Pipeline.spawnsNext
    rw [hphase]
    exact ⟨k, List.mem_cons_of_mem j hk, hlast, hfresh⟩
  cases hmove with
  | fire => exact Or.inl ⟨hnext, Or.inl rfl⟩
  | start i hphase hi | skip i hphase hi =>
    obtain ⟨j, hij, hj, hzero⟩ := hnext
    refine Or.inl ⟨?_, Or.inr rfl⟩
    unfold Pipeline.spawnsNext
    rw [hphase]
    exact ⟨j, Nat.le_of_succ_le hij, hj, hzero⟩
  | release i hphase hvalue herror htoken => exact Or.inr htoken
  | spawnConsumer i j rest hphase hlast hfresh =>
    obtain ⟨k, hk, hlast, hfresh⟩ := hnext
    refine Or.inl ⟨hrest i j rest hphase ⟨k, hk, hlast, ?_⟩, Or.inr rfl⟩
    have hnodup := (hreleased.releasing i (j :: rest) hphase).2.2.1
    have hne : j ≠ k := by
      rintro rfl
      exact (List.nodup_cons.mp hnodup).1 hk
    rw [List.getD_eq_getElem?_getD] at hfresh ⊢
    rwa [spawnDataflowStep, List.getElem?_set_ne hne] at hfresh
  | passConsumer i j rest hphase hwhy => exact Or.inl ⟨hrest i j rest hphase hnext, Or.inr rfl⟩
  | join task hphase htask report c' hjoin =>
    cases hjoin
    exact hnext.elim
  | _ => exact hnext.elim

/-- In a quiet run a fired token finds nothing left to spawn in the loop under way. -/
theorem quiet_of_run (hvalid : plan.Valid action.steps)
    (hstart : token = true → ¬(startPipeline action plan s fanout token).spawnsNext action)
    (hrun : Transition.Run (QuietStep host action plan listened)
      (startPipeline action plan s fanout token) es c) :
    Scheduled host action plan s fanout token es c ∧
      (c.cancelled = true → ¬c.spawnsNext action) := by
  induction hrun with
  | nil => exact ⟨scheduled_start host, hstart⟩
  | @snoc es t u e hrun hstep ih =>
    obtain ⟨hscheduled, hquiet⟩ := ih
    have hmove := hstep.1.move host action plan
    refine ⟨?_, fun hcancelled hnext => ?_⟩
    · have hplain := (hrun.mono fun _ _ _ h => h.1).snoc hstep.1
      exact scheduled_of_run hvalid hplain
    · rcases hmove.spawnsNext_before hscheduled.released hnext with ⟨hbefore, he | he⟩ | htoken
      · exact hstep.2 he hbefore
      · exact hquiet (he.symm.trans hcancelled) hbefore
      · rw [htoken] at hcancelled
        cases hcancelled

/-- A finished run without errors, panics or a fired token has spawned every step. -/
theorem Scheduled.all_spawned (hvalid : plan.Valid action.steps)
    (h : Scheduled host action plan s fanout false es c) (hreports : NoReports es)
    (hfired : .fired ∉ es) (hpanic : ∀ i, .panicked i ∉ es)
    {outcome : Except KernelError ActionResult} (hended : c.phase = .ended outcome) :
    (∀ i < action.steps.length, i ∈ spawnedIdxs es) ∧
      outcome = .ok (pipelineResult host c.canonical) := by
  have herror : c.firstError = none := h.reflected.firstError.mpr hreports
  have htoken : c.cancelled = false := by
    cases hc : c.cancelled with
    | false => rfl
    | true =>
      rcases h.reflected.cancelled hc with hstart | hin | hnot
      · cases hstart
      · exact absurd hin hfired
      · exact absurd hreports hnot
  obtain ⟨i, hin⟩ | ⟨hrunning, houtcome⟩ := h.finished.ended outcome hended
  · exact absurd hin (hpanic i)
  have hjoined : ∀ i ∈ spawnedIdxs es, i ∈ joinedIdxs es := by
    intro i hi
    rcases h.spawned.booked.ends i hi with hin | hin
    · exact hin
    · rw [hrunning] at hin
      exact absurd hin List.not_mem_nil
  have hall : ∀ i < action.steps.length, i ∈ spawnedIdxs es := by
    intro i
    induction i using Nat.strong_induction_on with
    | _ i ih =>
      intro hi
      refine h.counted.ready i hi (by rw [hended]; trivial) ?_
      refine (h.counted.counts.zero_iff hi).mpr fun d hd => ?_
      obtain ⟨hdep, hvalue⟩ := List.mem_filter.mp hd
      have hlt : d < i := hvalid.deps_lt i hi d hdep
      have hdone := hjoined d (ih d hlt (Nat.lt_trans hlt hi))
      rcases h.released.settled herror htoken d hdone (by simpa using hvalue) with hin | hphase
      · simp [credited, hended, hin]
      · rw [hended] at hphase
        cases hphase
  refine ⟨hall, ?_⟩
  have hnone : neverRan action c = [] := by
    rw [neverRan, List.map_eq_nil_iff, List.filter_eq_nil_iff]
    intro i hi
    rw [(h.spawned.booked.flag i).mpr (hall i (List.mem_range.mp hi))]
    exact Bool.false_ne_true
  rw [houtcome hfired, finishPipeline, herror]
  simp only [hnone, List.isEmpty_nil, Bool.not_true, Bool.and_false, Bool.false_eq_true, if_false]

end Invariants

/-- In every run whose token is not fired while the loop under way has a step to spawn, no step
is spawned twice, each is spawned from the merged state after its dependencies and before any
error or token, and without errors, panics and token all of them are. -/
theorem quiet_run_safe {host : Host} {action : Action} {plan : DagPlan} {listened : Bool}
    {s : ExecutionState} {fanout : List (Nat × List Nat)} {token : Bool}
    {es : List PipelineEvent} {c : Pipeline} (hplan : buildPlan action = .ok plan)
    (hstart : token = true → ¬(startPipeline action plan s fanout token).spawnsNext action)
    (hrun : Transition.Run (QuietStep host action plan listened)
      (startPipeline action plan s fanout token) es c) :
    (spawnedIdxs es).Nodup ∧
      (∀ pre i fork post, es = pre ++ .spawned i fork :: post →
        SpawnedInTime action plan s fanout pre i fork ∧ token = false ∧ .fired ∉ pre) ∧
      (NoReports es → .fired ∉ es → token = false → (∀ i, .panicked i ∉ es) →
        ∀ outcome, c.phase = .ended outcome →
          (∀ i < action.steps.length, i ∈ spawnedIdxs es) ∧
            outcome = .ok (pipelineResult host c.canonical)) := by
  have hvalid := buildPlan_valid hplan
  obtain ⟨hscheduled, -⟩ := quiet_of_run hvalid hstart hrun
  refine ⟨hscheduled.spawned.booked.once, fun pre i fork post hes => ?_, ?_⟩
  · obtain ⟨t, t', hpre, hstep, -⟩ := hrun.split hes
    obtain ⟨hbefore, hquiet⟩ := quiet_of_run hvalid hstart hpre
    have hmove := hstep.1.move host action plan
    have hnot : t.cancelled = false := by
      cases hc : t.cancelled with
      | false => rfl
      | true => exact absurd hmove.spawnsNext (hquiet hc)
    refine ⟨hbefore.spawnedInTime hvalid hmove, ?_, fun hfired => ?_⟩
    · cases ht : token with
      | false => rfl
      | true =>
        rw [hbefore.reflected.fired (Or.inl ht)] at hnot
        cases hnot
    · rw [hbefore.reflected.fired (Or.inr hfired)] at hnot
      cases hnot
  · rintro hreports hfired rfl hpanic outcome hended
    exact hscheduled.all_spawned hvalid hreports hfired hpanic hended


theorem advance_ne_fired {host : Host} {action : Action} {plan : DagPlan} {c c' : Pipeline}
    {e : PipelineEvent} (h : advance host action plan c = some (e, c')) : e ≠ .fired := by
  rintro rfl
  unfold advance releaseConsumer spawnDataflowStep at h
  split at h
  all_goals try split at h
  all_goals try split at h
  all_goals cases h

/-- Choices that never fire the token make a quiet run. -/
theorem drive_quiet {host : Host} {action : Action} {plan : DagPlan} {listened : Bool}
    {choices : List Choice} {c c' : Pipeline} {es : List PipelineEvent}
    (hfire : .fire ∉ choices)
    (h : drive host action plan listened choices c = some (es, c')) :
    Transition.Run (QuietStep host action plan listened) c es c' := by
  refine Transition.drive_run (fun choice hin s e t hstep => ⟨⟨choice, hstep⟩, fun he => ?_⟩) h
  subst he
  cases choice with
  | fire => exact absurd hin hfire
  | advance => exact absurd rfl (advance_ne_fired hstep)
  | join idx =>
    obtain ⟨task, -, hjoin⟩ := Option.map_eq_some_iff.mp hstep
    cases hjoin
  | panic idx text =>
    obtain ⟨task, -, hpanic⟩ := Option.map_eq_some_iff.mp hstep
    cases hpanic

def PipelineEvent.isFired : PipelineEvent → Bool
  | .fired => true
  | _ => false

/-- Once `a` is joined, what `choices` bring and then the step spawned by the scheduler. -/
def observedSpawn (choices : List Choice) : Option (Bool × Nat) :=
  (drive (quietHost Binary64.display) staleCopy stalePlan true choices staleStart).bind fun r =>
    (pipelineStep (quietHost Binary64.display) staleCopy stalePlan true r.2 .advance).bind fun j =>
      j.1.spawnedIdx.map fun i => (r.1.any (·.isFired), i)

/-- The token is fired in the release loop of `a`; `b` is spawned all the same. -/
theorem spawns_after_token :
    buildPlan staleCopy = .ok stalePlan ∧
      ∃ es c c' fork,
        PipelineRun (quietHost Binary64.display) staleCopy stalePlan true staleStart es c ∧
        .fired ∈ es ∧
        PipelineStep (quietHost Binary64.display) staleCopy stalePlan true c (.spawned 1 fork)
          c' := by
  refine ⟨by decide +kernel, ?_⟩
  have hobserved : observedSpawn [.advance, .advance, .advance, .advance, .join 0, .advance,
      .fire] = some (true, 1) := by decide +kernel
  obtain ⟨⟨es, c⟩, hdrive, h⟩ := Option.bind_eq_some_iff.mp hobserved
  obtain ⟨⟨e, c'⟩, hstep, h⟩ := Option.bind_eq_some_iff.mp h
  obtain ⟨i, hspawned, h⟩ := Option.map_eq_some_iff.mp h
  obtain ⟨hfired, rfl⟩ := Prod.ext_iff.mp h
  obtain ⟨event, hmem, hisFired⟩ := List.any_eq_true.mp hfired
  cases event with
  | fired =>
    cases e with
    | spawned idx fork =>
      cases hspawned
      exact ⟨es, c, c', fork, drive_run _ _ _ hdrive, hmem, ⟨_, hstep⟩⟩
    | _ => cases hspawned
  | _ => cases hisFired

/-- Both consumers wait for `a`, are joined in the other order, and the pipeline ends. -/
theorem staleCopy_safe :
    ∃ es c, Transition.Run (QuietStep (quietHost Binary64.display) staleCopy stalePlan true)
        staleStart es c ∧ spawnedIdxs es = [0, 1, 2] ∧ joinedIdxs es = [0, 2, 1] ∧
      ∀ pre i fork post, es = pre ++ .spawned i fork :: post →
        ∀ d ∈ stalePlan.depsOf i, (staleCopy.stepAt d).longRunning = false → Succeeded pre d := by
  have hdriven : ((drive (quietHost Binary64.display) staleCopy stalePlan true
      (staleChoices [.join 2, .advance, .join 1, .advance, .advance, .advance])
      staleStart).map fun r => (spawnedIdxs r.1, joinedIdxs r.1)) =
        some ([0, 1, 2], [0, 2, 1]) := by decide +kernel
  obtain ⟨⟨es, c⟩, hdrive, h⟩ := Option.map_eq_some_iff.mp hdriven
  obtain ⟨hspawned, hjoined⟩ := Prod.ext_iff.mp h
  have hrun := drive_quiet (by simp [staleChoices]) hdrive
  refine ⟨es, c, hrun, hspawned, hjoined, fun pre i fork post hes d hd => ?_⟩
  have hplan : buildPlan staleCopy = .ok stalePlan := by decide +kernel
  have hsafe := quiet_run_safe hplan (fun ht : false = true => nomatch ht) hrun
  exact (hsafe.2.1 pre i fork post hes).1.depended d hd

end Gwead
