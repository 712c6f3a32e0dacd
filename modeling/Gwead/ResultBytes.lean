import Gwead.RunKept
import Gwead.SchedulerCalls

/-!
# What the stored results come to

The budget of an invocation is checked against a counter.  Every store charges it, and so do the
merges, which store; the clearing at the top of a pass and the pipes of a dataflow action change
what is held and leave the counter alone.
-/

namespace Gwead

open Program

/-- What the results a state holds come to, each measured on its own. -/
def ExecutionState.heldBytes (s : ExecutionState) : Nat :=
  AssocMap.weigh approxValueBytes s.stepResults.entries

/-- What they come to once a value is stored. -/
def ExecutionState.heldWith (s : ExecutionState) (id : String) (v : Value) : Nat :=
  AssocMap.weigh approxValueBytes (s.stepResults.insert id v).entries

/-- The counter says what is held. -/
def CountsHeld (s : ExecutionState) : Prop := s.stepResultsBytes = s.heldBytes

/-- `store_step_result` refuses the value. -/
def ExecutionState.Refuses (s : ExecutionState) (id : String) (v : Value) : Prop :=
  s.limits.maxStepResultsBytes < s.projectedBytes id v

instance (s : ExecutionState) (id : String) (v : Value) : Decidable (s.Refuses id v) :=
  inferInstanceAs (Decidable (s.limits.maxStepResultsBytes < s.projectedBytes id v))

/-- A refused value is not stored, and any other one is. -/
theorem storeStepResult_results (s : ExecutionState) (id : String) (v : Value) :
    (s.Refuses id v → (s.storeStepResult id v).stepResults = s.stepResults) ∧
      (¬s.Refuses id v → (s.storeStepResult id v).stepResults = s.stepResults.insert id v) := by
  unfold ExecutionState.Refuses ExecutionState.storeStepResult
  exact ⟨fun h => by simp [h], fun h => by simp [h]⟩

/-- What a state says about its results: those it holds, the counter and the budget. -/
structure Books where
  results : IndexMap String Value
  bytes : Nat
  budget : Nat

def ExecutionState.books (s : ExecutionState) : Books :=
  ⟨s.stepResults, s.stepResultsBytes, s.limits.maxStepResultsBytes⟩

/-- The counter says what is held, under a budget below the largest count there is. -/
def Books.Balanced (b : Books) : Prop :=
  b.bytes = AssocMap.weigh approxValueBytes b.results.entries ∧ b.budget < 2 ^ 64 - 1

def Balanced (s : ExecutionState) : Prop := s.books.Balanced

theorem Balanced.counts {s : ExecutionState} (h : Balanced s) : CountsHeld s := h.1

theorem Balanced.of_books {s t : ExecutionState} (h : Balanced s) (hbooks : t.books = s.books) :
    Balanced t := by
  rw [Balanced, hbooks]
  exact h

theorem approxValueBytes_pos (v : Value) : 0 < approxValueBytes v := by
  cases v <;> simp [approxValueBytes, nodeOverhead]

theorem weightAt_le (s : ExecutionState) (id : String) :
    AssocMap.weightAt approxValueBytes id s.stepResults.entries ≤ s.heldBytes := by
  have hwithout := AssocMap.weigh_without approxValueBytes id s.stepResults.nodup
  unfold ExecutionState.heldBytes
  omega

/-! ### Stores -/

/-- While the counter says what is held, the projection says what will be. -/
theorem projectedBytes_eq {s : ExecutionState} (h : CountsHeld s) (id : String) (v : Value) :
    s.projectedBytes id v = min (s.heldWith id v) (2 ^ 64 - 1) := by
  have hput := AssocMap.weigh_put approxValueBytes id v s.stepResults.entries
  have hle := weightAt_le s id
  have hcounts : s.stepResultsBytes = AssocMap.weigh approxValueBytes s.stepResults.entries := h
  have hreplaced : ((s.stepResults.get? id).map approxValueBytes).getD 0 =
      AssocMap.weightAt approxValueBytes id s.stepResults.entries := rfl
  have hwith : s.heldWith id v =
      AssocMap.weigh approxValueBytes (AssocMap.put id v s.stepResults.entries) := rfl
  unfold ExecutionState.heldBytes at hle
  unfold ExecutionState.projectedBytes satAdd
  rw [hreplaced, hwith, hcounts]
  dsimp only
  congr 1
  omega

/-- A value is refused exactly when storing it would take what is held over the budget. -/
theorem Balanced.refuses_iff {s : ExecutionState} (h : Balanced s) (id : String) (v : Value) :
    s.Refuses id v ↔ s.limits.maxStepResultsBytes < s.heldWith id v := by
  have hbudget : s.limits.maxStepResultsBytes < 2 ^ 64 - 1 := h.2
  rw [ExecutionState.Refuses, projectedBytes_eq h.counts]
  omega

theorem Balanced.store {s : ExecutionState} (h : Balanced s) (id : String) (v : Value) :
    Balanced (s.storeStepResult id v) := by
  have hprojected := projectedBytes_eq h.counts id v
  have hbudget : s.limits.maxStepResultsBytes < 2 ^ 64 - 1 := h.2
  unfold ExecutionState.storeStepResult
  dsimp only
  split
  · exact h
  · rename_i hfits
    refine ⟨?_, hbudget⟩
    change s.projectedBytes id v = s.heldWith id v
    omega

theorem Balanced.storeAll {s : ExecutionState} (h : Balanced s) (entries : List (String × Value)) :
    Balanced (s.storeStepResults entries) := by
  unfold ExecutionState.storeStepResults
  induction entries generalizing s with
  | nil => exact h
  | cons e rest ih => exact ih (h.store e.1 e.2)

/-! ### Clearing -/

/-- Clearing takes away what it removes, and leaves the counter. -/
theorem heldBytes_forget (s : ExecutionState) (steps : List StepDef) :
    (s.forget steps).stepResultsBytes = s.stepResultsBytes ∧
      (s.forget steps).limits = s.limits ∧ (s.forget steps).heldBytes ≤ s.heldBytes ∧
      ((s.forget steps).heldBytes = s.heldBytes ↔
        ∀ step ∈ steps, s.stepResults.get? step.id = none) := by
  unfold ExecutionState.forget
  induction steps generalizing s with
  | nil => simp
  | cons step rest ih =>
    rw [List.foldl_cons]
    obtain ⟨hbytes, hlimits, hle, hiff⟩ := ih { s with
      stepResults := s.stepResults.shiftRemove step.id
      stepMetadata := s.stepMetadata.shiftRemove step.id }
    have hwithout : AssocMap.weigh approxValueBytes (s.stepResults.shiftRemove step.id).entries +
        AssocMap.weightAt approxValueBytes step.id s.stepResults.entries = s.heldBytes :=
      AssocMap.weigh_without approxValueBytes step.id s.stepResults.nodup
    have hmid : ExecutionState.heldBytes { s with
        stepResults := s.stepResults.shiftRemove step.id
        stepMetadata := s.stepMetadata.shiftRemove step.id } =
          AssocMap.weigh approxValueBytes (s.stepResults.shiftRemove step.id).entries := rfl
    refine ⟨hbytes, hlimits, by omega, ?_⟩
    cases hgot : s.stepResults.get? step.id with
    | some v =>
      have hweight : AssocMap.weightAt approxValueBytes step.id s.stepResults.entries =
          approxValueBytes v := by
        change ((s.stepResults.get? step.id).map approxValueBytes).getD 0 = approxValueBytes v
        rw [hgot]
        rfl
      have hpos := approxValueBytes_pos v
      refine ⟨fun heq => by omega, fun hnone => ?_⟩
      rw [hnone step List.mem_cons_self] at hgot
      cases hgot
    | none =>
      have hweight : AssocMap.weightAt approxValueBytes step.id s.stepResults.entries = 0 := by
        change ((s.stepResults.get? step.id).map approxValueBytes).getD 0 = 0
        rw [hgot]
        rfl
      have hsame : ExecutionState.heldBytes { s with
          stepResults := s.stepResults.shiftRemove step.id
          stepMetadata := s.stepMetadata.shiftRemove step.id } = s.heldBytes := by omega
      rw [← hsame, hiff, List.forall_mem_cons]
      have hget : ∀ id, (s.stepResults.shiftRemove step.id).get? id = s.stepResults.get? id := by
        intro id
        by_cases hid : id = step.id
        · rw [hid, hgot]
          exact s.stepResults.get?_shiftRemove_self _
        · exact s.stepResults.get?_shiftRemove_ne hid
      simp only [hget, hgot, true_and]

/-- Clearing keeps the count exactly where it drops nothing. -/
theorem countsHeld_forget_iff {s : ExecutionState} (h : CountsHeld s) (steps : List StepDef) :
    CountsHeld (s.forget steps) ↔ ∀ step ∈ steps, s.stepResults.get? step.id = none := by
  obtain ⟨hbytes, -, -, hiff⟩ := heldBytes_forget s steps
  rw [← hiff, CountsHeld, hbytes, h, eq_comm]

theorem Balanced.forget {s : ExecutionState} (h : Balanced s) {steps : List StepDef}
    (hclear : ∀ step ∈ steps, s.stepResults.get? step.id = none) : Balanced (s.forget steps) := by
  refine ⟨(countsHeld_forget_iff h.counts steps).mpr hclear, ?_⟩
  have hlimits := (heldBytes_forget s steps).2.1
  change (s.forget steps).limits.maxStepResultsBytes < 2 ^ 64 - 1
  rw [hlimits]
  exact h.2

/-! ### Each construct -/

namespace ExecutionState

@[simp] theorem books_setVariables (s : ExecutionState) (entries : List (String × Value)) :
    (s.setVariables entries).books = s.books := by
  unfold setVariables
  induction entries generalizing s with
  | nil => rfl
  | cons e rest ih =>
    rw [List.foldl_cons, ih]
    rfl

@[simp] theorem books_addMetadata (s : ExecutionState) (id : String)
    (m : IndexMap String Value) : (addMetadata s id m).books = s.books := by
  unfold addMetadata
  split <;> rfl

@[simp] theorem books_bindVariable (s : ExecutionState) (step : StepDef) :
    (bindVariable s step).books = s.books := by
  unfold bindVariable
  split <;> rfl

@[simp] theorem books_finishError (s : ExecutionState) (step : StepDef) (e : StepError) :
    (finishError step s e).books = s.books := by
  cases e <;> rfl

@[simp] theorem books_runBody (body : StepBody) (params : Value) (s : ExecutionState) :
    (runBody body params s).2.books = s.books := by
  unfold runBody
  dsimp only
  split <;> exact s.books_setVariables _

end ExecutionState

theorem Balanced.merge {c : ExecutionState} (h : Balanced c) (task : ExecutionState)
    (takesFailure : Bool) (ids : List String) (vars : IndexMap String Value) :
    Balanced (mergeParallelBranchState c task takesFailure ids vars) := by
  have hentries : Balanced (mergeBranchEntries c task ids) := h.storeAll (branchEntries ids task)
  have hvars := hentries.of_books
    ((mergeBranchEntries c task ids).books_setVariables (introduced vars task))
  cases takesFailure <;> exact hvars

section Constructs

variable {host : Host} {run : StepDef → Nat → Exec Bool} {steps : List StepDef} {idx : Nat}
  {step : StepDef} {s s' : ExecutionState} {ok : Bool}

theorem LeafEnd.balanced (hs : Balanced s) (h : LeafEnd host idx s ok s') : Balanced s' := by
  have hbody : ∀ {body : StepBody} {params : Value} {view : Option Value}
      {outcome : Except StepError StepOutput} {t : ExecutionState},
      runBody body params (s.entered idx view) = (outcome, t) → Balanced t := by
    intro body params view outcome t hran
    have hbooks := ExecutionState.books_runBody body params (s.entered idx view)
    rw [hran] at hbooks
    exact hs.of_books hbooks
  cases h with
  | astray => exact hs
  | uncredentialed => exact hs
  | @succeeded own key body view output t hat hfound hran =>
    refine ((hbody hran).store own.id output.value).of_books ?_
    rw [ExecutionState.books_bindVariable, ExecutionState.books_addMetadata]
  | @undeclared own key body view output t message hat hfound hran =>
    exact (hbody hran).store own.id output.value
  | @failed own key body view e t hat hfound hran =>
    exact (hbody hran).of_books (t.books_finishError own e)

theorem balanced_ofHoldings : OfHoldings Balanced := fun _ _ hs hsame =>
  hs.of_books (congrArg (fun h : Holdings =>
    Books.mk h.results h.bytes h.limits.maxStepResultsBytes) hsame)

theorem balanced_keptByMerge : KeptByMerge Balanced := fun _ task takesFailure ids vars hc _ =>
  hc.merge task takesFailure ids vars

/-! ### Loops -/

/-- Whenever a pass of a loop begins, nothing its body's own steps stored is held, so clearing drops
nothing. -/
def ClearsNothing (host : Host) (run : StepDef → Nat → Exec Bool) (step : StepDef) (idx : Nat)
    (s : ExecutionState) : Prop :=
  ∀ k before, IterationStarts host run step idx s k before →
    ∀ own ∈ loopBody step, before.stepResults.get? own.id = none

theorem ClearsNothing.balanced (h : ClearsNothing host run step idx s) (k : Nat)
    (before : ExecutionState) (hstarts : IterationStarts host run step idx s k before)
    (hbefore : Balanced before) : Balanced (before.forget (loopBody step)) :=
  hbefore.forget (h k before hstarts)

end Constructs

/-! ### Whole calls -/

/-- No loop that a call reaches clears anything. -/
def Unwiped (host : Host) : Nat → StepDef → Nat → ExecutionState → Prop
  | 0, _, _, _ => True
  | depth + 1, step, idx, s =>
    (step.kind = .forEach ∨ step.kind = .repetition →
        ClearsNothing host (runStepTo host depth) step idx s) ∧
      ∀ pending inner i t, DirectCall host (runStepTo host depth) step idx s pending inner i t →
        Unwiped host depth inner i t

theorem runStepTo_balanced {host : Host} (depth : Nat) {step : StepDef} {idx : Nat} {ok : Bool}
    {s s' : ExecutionState} (hs : Balanced s) (hunwiped : Unwiped host depth step idx s)
    (h : runStepTo host depth step idx s = .ok ok s') : Balanced s' := by
  induction depth generalizing step idx ok s s' with
  | zero => cases h
  | succ depth ih =>
    refine (runStepTo_end h).1.kept (sameSetting_preserved.runStepTo depth) balanced_ofHoldings
      balanced_keptByMerge hs (fun pending inner i t ok t' hmade ht hran => ?_)
      (fun hkind => (hunwiped.1 hkind).balanced) (fun _ hend => hend.balanced hs)
      fun _ _ _ id _ t v ht => ht.store id v
    exact ih ht (hunwiped.2 pending inner i t hmade) hran

/-- Below a call that finds the count right, every call does. -/
theorem Reaches.balanced {host : Host} {depth : Nat} {step last : StepDef} {idx j : Nat}
    {s u : ExecutionState} {pending : Bool} (hs : Balanced s)
    (hunwiped : Unwiped host depth step idx s)
    (h : Reaches host depth step idx s pending last j u) : Balanced u := by
  induction h with
  | self => exact hs
  | @inner depth step inner last idx i j s t u pending below hcall _ ih =>
    have hinner : InnerKept host (runStepTo host depth) step idx s Balanced :=
      fun pending inner i t ok t' hmade ht hran =>
        runStepTo_balanced depth ht (hunwiped.2 pending inner i t hmade) hran
    exact ih (hcall.kept balanced_ofHoldings hs hinner fun hkind => (hunwiped.1 hkind).balanced)
      (hunwiped.2 _ _ _ _ hcall)

/-! ### Runs -/

/-- The counter says what is held, and a value is refused exactly when storing it would take what is
held over the budget. -/
def Accounted (s : ExecutionState) : Prop :=
  CountsHeld s ∧ ∀ id v, s.Refuses id v ↔ s.limits.maxStepResultsBytes < s.heldWith id v

theorem Balanced.accounted {s : ExecutionState} (h : Balanced s) : Accounted s :=
  ⟨h.counts, h.refuses_iff⟩

theorem balanced_new (pluginName : String) (action : Action) (input config secrets : Value)
    (trigger : Option Value) {limits : RuntimeLimits} (h : limits.maxStepResultsBytes < 2 ^ 64 - 1) :
    Balanced (.new pluginName action input config secrets trigger limits) := ⟨rfl, h⟩

/-- A merge stores, whatever the task brings. -/
theorem Balanced.mergeTaskState {c : ExecutionState} (h : Balanced c) (t : ExecutionState)
    (id : String) (baseline : IndexMap String Value) :
    Balanced (mergeTaskState c t id baseline) := by
  have hentry : Balanced (mergeStepEntry c t id) := by
    unfold mergeStepEntry
    cases t.stepResults.get? id with
    | none => cases t.stepMetadata.get? id <;> exact h
    | some result =>
      have hstored := h.store id result
      cases t.stepMetadata.get? id <;> exact hstored
  have hset := hentry.of_books
    ((mergeStepEntry c t id).books_setVariables (introduced baseline t))
  exact hset

section Runs

variable {host : Host} {action : Action} {plan : DagPlan} {start : ExecutionState}

theorem waveKeeps_balanced : WaveKeepsIf host action
    (fun idx before => Unwiped host ((action.stepAt idx).params.depth + 1) (action.stepAt idx) idx
      before) Balanced where
  tick _ h := h
  fork _ _ h := h
  overrides _ _ h := h
  ran _ _ _ _ hunwiped h hran _ := runStepTo_balanced _ h hunwiped hran
  merged _ t id baseline h _ _ := h.mergeTaskState t id baseline

/-- Every long-running step writes to an output the caller supplies. -/
def OpensNoPipe (action : Action) (preAllocated : List String) : Prop :=
  ∀ step ∈ action.steps, step.longRunning = true → preAllocated.contains step.id = true

/-- A step that gets a pipe gets a result with it; nothing else of the accounts changes. -/
theorem provisionStep_books {preAllocated : List String} {idx : Nat} {step : StepDef}
    {acc acc' : ExecutionState × List (Nat × List Nat)}
    (h : provisionStep host plan preAllocated idx step acc = .ok acc') :
    acc'.1.stepResultsBytes = acc.1.stepResultsBytes ∧ acc'.1.limits = acc.1.limits ∧
      acc'.1.stepResults =
        if step.longRunning = true → preAllocated.contains step.id = true then acc.1.stepResults
        else acc.1.stepResults.insert step.id (.ofNat (host.pipeReadable acc.1)) := by
  obtain ⟨s, fanout⟩ := acc
  unfold provisionStep at h
  cases hlong : step.longRunning with
  | false =>
    simp only [hlong, Bool.not_false, if_true] at h
    cases h
    simp
  | true =>
    simp only [hlong, Bool.not_true, Bool.false_eq_true, if_false] at h
    cases hgiven : preAllocated.contains step.id with
    | true =>
      simp only [hgiven, if_true] at h
      split at h
      · cases h
        simp
      · cases h
    | false =>
      simp only [hgiven, Bool.false_eq_true, if_false] at h
      split at h
      · cases h
        simp
      · split at h
        · cases h
          simp
        · cases h

theorem entries_insert_ne_nil (m : IndexMap String Value) (id : String) (v : Value) :
    (m.insert id v).entries ≠ [] := by
  intro hnil
  have hget := m.get?_insert_self id v
  rw [IndexMap.get?, hnil] at hget
  cases hget

/-- Opening pipes leaves the counter, and the results only where it opens none. -/
theorem provisionFrom_books {preAllocated : List String} {idx : Nat} {steps : List StepDef}
    {acc acc' : ExecutionState × List (Nat × List Nat)}
    (h : provisionFrom host plan preAllocated idx steps acc = .ok acc') :
    acc'.1.stepResultsBytes = acc.1.stepResultsBytes ∧ acc'.1.limits = acc.1.limits ∧
      (acc.1.stepResults.entries ≠ [] → acc'.1.stepResults.entries ≠ []) ∧
      ((∀ step ∈ steps, step.longRunning = true → preAllocated.contains step.id = true) →
        acc'.1.stepResults = acc.1.stepResults) ∧
      (¬(∀ step ∈ steps, step.longRunning = true → preAllocated.contains step.id = true) →
        acc'.1.stepResults.entries ≠ []) := by
  induction steps generalizing idx acc with
  | nil =>
    cases h
    simp
  | cons step rest ih =>
    cases hstep : provisionStep host plan preAllocated idx step acc with
    | error e =>
      rw [provisionFrom, hstep] at h
      cases h
    | ok mid =>
      rw [provisionFrom, hstep] at h
      obtain ⟨hbytes, hlimits, hresults⟩ := provisionStep_books hstep
      obtain ⟨hbytes', hlimits', hkept, hsame, hopened⟩ := ih h
      refine ⟨hbytes'.trans hbytes, hlimits'.trans hlimits, fun hne => hkept ?_, fun hall => ?_,
        fun hsome => ?_⟩
      · rw [hresults]
        split
        · exact hne
        · exact entries_insert_ne_nil _ _ _
      · obtain ⟨hfirst, hrest⟩ := List.forall_mem_cons.mp hall
        rw [hsame hrest, hresults, if_pos hfirst]
      · by_cases hfirst : step.longRunning = true → preAllocated.contains step.id = true
        · exact hopened fun hrest => hsome (List.forall_mem_cons.mpr ⟨hfirst, hrest⟩)
        · refine hkept ?_
          rw [hresults, if_neg hfirst]
          exact entries_insert_ne_nil _ _ _

/-- From a state without results, the count is right once the pipes are open exactly where none
is opened. -/
theorem countsHeld_provision_iff {preAllocated : List String} {fanout : List (Nat × List Nat)}
    {s : ExecutionState} (hstart : CountsHeld start) (hnone : start.stepResults.entries = [])
    (h : provisionDataflowStreams host action plan preAllocated start = .ok (s, fanout)) :
    CountsHeld s ↔ OpensNoPipe action preAllocated := by
  obtain ⟨hbytes, -, -, hsame, hopened⟩ := provisionFrom_books h
  have hzero : s.stepResultsBytes = 0 := by
    rw [hbytes, hstart, ExecutionState.heldBytes, hnone]
    rfl
  constructor
  · intro hcounts
    by_contra hpipe
    have hne := hopened hpipe
    rw [CountsHeld, hzero, ExecutionState.heldBytes] at hcounts
    cases hentries : s.stepResults.entries with
    | nil => exact hne hentries
    | cons e rest =>
      rw [hentries] at hcounts
      have hpos := approxValueBytes_pos e.2
      simp only [AssocMap.weigh, List.map_cons, List.sum_cons] at hcounts
      omega
  · intro hpipe
    have hresults : s.stepResults = start.stepResults := hsame hpipe
    rw [CountsHeld, hzero, ExecutionState.heldBytes, hresults, hnone]
    rfl

/-- The task an event spawns, with the state it starts in. -/
def PipelineEvent.spawns : PipelineEvent → Option (Nat × ExecutionState)
  | .spawned i fork => some (i, fork)
  | _ => none

/-- A move merges a task into the canonical state or leaves it. -/
theorem Move.canonical {listened : Bool} {c c' : Pipeline} {e : PipelineEvent}
    (h : Move host action plan listened c e c') :
    c'.canonical = c.canonical ∨
      ∃ t id, c'.canonical = mergeTaskState c.canonical t id c.baselineVariables := by
  cases h with
  | join task hphase htask report _ hjoin =>
    exact Or.inr ⟨_, _, congrArg Pipeline.canonical (congrArg Prod.snd hjoin).symm⟩
  | _ => exact Or.inl rfl

/-- A task that is spawned starts on a fork of the canonical state. -/
theorem Move.spawns {listened : Bool} {c c' : Pipeline} {e : PipelineEvent} {i : Nat}
    {fork : ExecutionState} (h : Move host action plan listened c e c')
    (he : e.spawns = some (i, fork)) : fork = forkFor action plan c.canonical c.fanout i := by
  cases h with
  | start | spawnConsumer =>
    cases he
    rfl
  | _ => cases he

/-- Through the merges the canonical state keeps its count, and so do the forks. -/
theorem balanced_pipeline {listened token : Bool} {fanout : List (Nat × List Nat)}
    {es : List PipelineEvent} {c : Pipeline} (hstart : Balanced start)
    (hrun : PipelineRun host action plan listened (startPipeline action plan start fanout token) es
      c) : Balanced c.canonical ∧ ∀ i fork, .spawned i fork ∈ es → Balanced fork := by
  induction hrun with
  | nil => exact ⟨hstart, fun _ _ hmem => absurd hmem List.not_mem_nil⟩
  | @snoc es t u e _ hstep ih =>
    obtain ⟨hcanonical, hspawned⟩ := ih
    have hmove := hstep.move host action plan
    refine ⟨?_, fun i fork hmem => ?_⟩
    · obtain hsame | ⟨task, id, hmerged⟩ := hmove.canonical
      · rw [hsame]
        exact hcanonical
      · rw [hmerged]
        exact hcanonical.mergeTaskState task id _
    · rcases List.mem_append.mp hmem with hmem | hmem
      · exact hspawned i fork hmem
      · have hown : e.spawns = some (i, fork) := by rw [← List.mem_singleton.mp hmem]; rfl
        rw [hmove.spawns hown]
        exact hcanonical

/-- In every run in which no pass of a loop begins with a result of its own body held and no pipe
is opened for a long-running step, the counter says what is held wherever a step is called, in the
state the wave loop ends in and in the canonical state of a dataflow run throughout. -/
theorem counter_exact (host : Host) {action : Action} {plan : DagPlan}
    (hplan : buildPlan action = .ok plan) {start : ExecutionState} (hstart : Balanced start) :
    ((∀ d ∈ (runWaves host action plan start).1.dispatched,
        Unwiped host ((action.stepAt d.idx).params.depth + 1) (action.stepAt d.idx) d.idx d.before) →
      (∀ d ∈ (runWaves host action plan start).1.dispatched, ∀ pending step idx before,
        Reaches host ((action.stepAt d.idx).params.depth + 1) (action.stepAt d.idx) d.idx d.before
          pending step idx before → Accounted before) ∧
      ((runWaves host action plan start).2 = none →
        Accounted (runWaves host action plan start).1.state)) ∧
    ∀ preAllocated s fanout,
      provisionDataflowStreams host action plan preAllocated start = .ok (s, fanout) →
      OpensNoPipe action preAllocated →
      ∀ listened token es c,
        PipelineRun host action plan listened (startPipeline action plan s fanout token) es c →
        Accounted c.canonical ∧ ∀ i fork, .spawned i fork ∈ es →
          Unwiped host ((action.stepAt i).params.depth + 1) (action.stepAt i) i fork →
          ∀ pending step idx before,
            Reaches host ((action.stepAt i).params.depth + 1) (action.stepAt i) i fork pending step
              idx before → Accounted before := by
  refine ⟨fun hunwiped => ?_, ?_⟩
  · obtain ⟨hrecorded, hlast⟩ := waveKeeps_balanced.recorded (buildPlan_valid hplan) hstart hunwiped
    refine ⟨fun d hd pending step idx before hreaches => ?_, fun hnone => (hlast hnone).accounted⟩
    exact (hreaches.balanced (hrecorded d hd).before (hunwiped d hd)).accounted
  · intro preAllocated s fanout hprovision hpipe listened token es c hrun
    obtain ⟨hbytes, hlimits, -, hsame, -⟩ := provisionFrom_books hprovision
    have hs : Balanced s := by
      have hresults : s.stepResults = start.stepResults := hsame hpipe
      refine hstart.of_books ?_
      rw [ExecutionState.books, hresults, hbytes, hlimits]
      rfl
    obtain ⟨hcanonical, hspawned⟩ := balanced_pipeline hs hrun
    refine ⟨hcanonical.accounted, fun i fork hmem hunwiped pending step idx before hreaches => ?_⟩
    exact (hreaches.balanced (hspawned i fork hmem) hunwiped).accounted

end Runs

/-! ### A loop that fills its budget with nothing -/

/-- A loop over four items whose body stores 32 bytes. -/
def fillLoop : Action :=
  Action.ofSteps [.new "loop" "for_each" (.object [
    ("path", .string "$input.items"),
    ("steps", .array [.object [("id", .string "x"), ("type", .string "let"),
      ("params", .object [("value", .string "0123456789abcdef")])]])])]

def fillPlan : DagPlan := ⟨[[0]], [[]], [[]]⟩

def fillState : ExecutionState :=
  .new "demo" fillLoop (.object [("items", .array [.null, .null, .null, .null])]) .null .null none
    ⟨100, 64⟩

/-- The event is a call of a step, made in a state that passes `p`. -/
def RunEvent.dispatchedIn (p : ExecutionState → Bool) : RunEvent → Bool
  | .dispatched _ _ before => p before
  | _ => false

/-- In the fourth pass nothing is held, the counter says 96, and the 32 bytes of the body's step are
refused under a budget of 100. -/
theorem drifted_counter_refuses :
    buildPlan fillLoop = .ok fillPlan ∧ Balanced fillState ∧
      ∃ pending step idx before,
        RunCalls (quietHost Binary64.display) fillLoop fillPlan fillState pending step idx before ∧
        before.stepResultsBytes = 96 ∧ before.heldBytes = 0 ∧
        before.Refuses "x" (.string "0123456789abcdef") ∧
        before.heldWith "x" (.string "0123456789abcdef") ≤ before.limits.maxStepResultsBytes := by
  refine ⟨by decide +kernel, ⟨rfl, by decide⟩, ?_⟩
  have hshown : ((actionTrace (quietHost Binary64.display) fillLoop fillPlan fillState).any
      (·.dispatchedIn fun before => before.stepResultsBytes = 96 ∧ before.heldBytes = 0 ∧
        before.Refuses "x" (.string "0123456789abcdef") ∧
        before.heldWith "x" (.string "0123456789abcdef") ≤ before.limits.maxStepResultsBytes)) =
      true := by decide +kernel
  obtain ⟨e, he, hdrifted⟩ := List.any_eq_true.mp hshown
  have hmade := actionTrace_calls_made fillState e he
  cases e with
  | dispatched step idx before =>
    obtain ⟨pending, hcall⟩ := hmade
    exact ⟨pending, step, idx, before, hcall, of_decide_eq_true hdrifted⟩
  | _ => cases hdrifted

/-- Leaf steps clear nothing. -/
theorem unwiped_leaf (host : Host) (depth : Nat) {step : StepDef} (hkind : step.kind = .leaf)
    (idx : Nat) (s : ExecutionState) : Unwiped host depth step idx s := by
  cases depth with
  | zero => trivial
  | succ depth =>
    refine ⟨fun hloop => ?_, fun pending inner i t hcall => ?_⟩
    · rw [hkind] at hloop
      obtain h | h := hloop <;> cases h
    · cases hcall with
      | pass h =>
        rw [hkind] at h
        obtain h | h := h <;> cases h
      | tried h | handler h | cleanup h | chosen h | branch h =>
        rw [hkind] at h
        cases h

/-- Two steps that each store a result. -/
def twoResults : Action :=
  Action.ofSteps [.new "a" "let" (.object [("value", .string "one")]),
    { StepDef.new "b" "let" (.object [("value", .string "two")]) with dependsOn := ["a"] }]

def twoResultsPlan : DagPlan := ⟨[[0], [1]], [[], [0]], [[1], []]⟩

def twoResultsState : ExecutionState :=
  .new "demo" twoResults .null .null .null none ⟨100, 64⟩

/-- The second step finds the first one's 19 bytes counted, and so does the end of the run. -/
theorem counter_exact_twoResults :
    (∃ d ∈ (runWaves (quietHost Binary64.display) twoResults twoResultsPlan
        twoResultsState).1.dispatched, d.before.heldBytes = 19 ∧ Accounted d.before) ∧
      Accounted (runWaves (quietHost Binary64.display) twoResults twoResultsPlan
        twoResultsState).1.state := by
  have hplan : buildPlan twoResults = .ok twoResultsPlan := by decide +kernel
  have hstart : Balanced twoResultsState := ⟨rfl, by decide⟩
  have hwaves := (counter_exact (quietHost Binary64.display) hplan hstart).1
  have hleaf : ∀ idx, (twoResults.stepAt idx).kind = .leaf := by
    intro idx
    match idx with
    | 0 => decide +kernel
    | 1 => decide +kernel
    | idx + 2 => rfl
  obtain ⟨hcalls, hlast⟩ := hwaves fun d _ => unwiped_leaf _ _ (hleaf d.idx) d.idx d.before
  have hends : (runWaves (quietHost Binary64.display) twoResults twoResultsPlan
      twoResultsState).2.isNone = true := by decide +kernel
  have hcalled : ((runWaves (quietHost Binary64.display) twoResults twoResultsPlan
      twoResultsState).1.dispatched[1]?).map (·.before.heldBytes) = some 19 := by decide +kernel
  obtain ⟨d, hd, hheld⟩ := Option.map_eq_some_iff.mp hcalled
  have hmem := List.mem_of_getElem? hd
  exact ⟨⟨d, hmem, hheld, hcalls d hmem false _ _ _ .self⟩,
    hlast (Option.isNone_iff_eq_none.mp hends)⟩

end Gwead
