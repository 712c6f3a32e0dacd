import Gwead.RunKept

/-!
# The results of the branches of a `parallel` step

A branch runs on a copy of the state, and the join keeps only what the copy stored under ids that
had no result when the step started.  So a branch's result is seen afterwards exactly where no
earlier result stood in its way, as the one of an earlier iteration of an enclosing loop does.
-/

namespace Gwead

open Program

/-! ### Only the steps of a body store results -/

section Avoids

variable {b : String}

theorem get?_store_ne {s : ExecutionState} {id : String} {v : Value} (h : id ≠ b) :
    (s.storeStepResult id v).stepResults.get? b = s.stepResults.get? b := by
  unfold ExecutionState.storeStepResult
  dsimp only
  split
  · rfl
  · exact s.stepResults.get?_insert_ne h.symm v

theorem get?_forget_ne {s : ExecutionState} {steps : List StepDef} (h : ∀ step ∈ steps, step.id ≠ b) :
    (s.forget steps).stepResults.get? b = s.stepResults.get? b := by
  unfold ExecutionState.forget
  induction steps generalizing s with
  | nil => rfl
  | cons step rest ih =>
    rw [List.foldl_cons, ih fun inner hin => h inner (List.mem_cons_of_mem _ hin)]
    exact s.stepResults.get?_shiftRemove_ne (h step List.mem_cons_self).symm

/-- Stores of what an id has already, or of nothing under it, leave it. -/
theorem get?_stores_same {s : ExecutionState} {entries : List (String × Value)}
    {found : Option Value} (hs : s.stepResults.get? b = found)
    (h : ∀ v, (b, v) ∈ entries → found = some v) :
    (s.storeStepResults entries).stepResults.get? b = found := by
  unfold ExecutionState.storeStepResults
  induction entries generalizing s with
  | nil => exact hs
  | cons e rest ih =>
    refine ih ?_ fun v hin => h v (List.mem_cons_of_mem _ hin)
    by_cases heq : e.1 = b
    · obtain ⟨id, v⟩ := e
      subst heq
      unfold ExecutionState.storeStepResult
      dsimp only
      split
      · exact hs
      · rw [h v List.mem_cons_self]
        exact s.stepResults.get?_insert_self id v
    · rw [get?_store_ne heq, hs]

theorem get?_stores_of_notMem {s : ExecutionState} {entries : List (String × Value)}
    (h : ∀ e ∈ entries, e.1 ≠ b) :
    (s.storeStepResults entries).stepResults.get? b = s.stepResults.get? b :=
  get?_stores_same rfl fun _ hin => absurd rfl (h _ hin)

theorem stepResults_setVariables (s : ExecutionState) (entries : List (String × Value)) :
    (s.setVariables entries).stepResults = s.stepResults := by
  unfold ExecutionState.setVariables
  induction entries generalizing s with
  | nil => rfl
  | cons e rest ih =>
    rw [List.foldl_cons, ih]
    rfl

theorem stepResults_merge (c task : ExecutionState) (takesFailure : Bool) (ids : List String)
    (vars : IndexMap String Value) :
    (mergeParallelBranchState c task takesFailure ids vars).stepResults =
      (c.storeStepResults (branchEntries ids task)).stepResults := by
  have hentries : (mergeBranchEntries c task ids).stepResults =
      (c.storeStepResults (branchEntries ids task)).stepResults := rfl
  cases takesFailure <;>
    simp [mergeParallelBranchState, ExecutionState.takeSignals, ExecutionState.takeFailure,
      stepResults_setVariables, hentries]

/-- A branch that has the result its fork had adds none. -/
theorem get?_merge_same {s c task : ExecutionState} {takesFailure : Bool}
    {vars : IndexMap String Value} (h : task.stepResults.get? b = s.stepResults.get? b) :
    (mergeParallelBranchState c task takesFailure s.stepResults.keys vars).stepResults.get? b =
      c.stepResults.get? b := by
  rw [stepResults_merge]
  refine get?_stores_of_notMem ?_
  rintro ⟨k, v⟩ he rfl
  obtain ⟨hmem, hnew⟩ := List.mem_filter.mp he
  rw [IndexMap.mem_entries_iff, h] at hmem
  have hkey : k ∈ s.stepResults.keys := (s.stepResults.mem_keys_iff k).mpr (by simp [hmem])
  simp [hkey] at hnew

theorem stepResults_runBody (body : StepBody) (params : Value) (s : ExecutionState) :
    (runBody body params s).2.stepResults = s.stepResults := by
  unfold runBody
  dsimp only
  split <;> exact stepResults_setVariables s _

theorem stepResults_addMetadata (s : ExecutionState) (id : String)
    (metadata : IndexMap String Value) : (addMetadata s id metadata).stepResults = s.stepResults := by
  unfold addMetadata
  split <;> rfl

theorem stepResults_bindVariable (s : ExecutionState) (step : StepDef) :
    (bindVariable s step).stepResults = s.stepResults := by
  unfold bindVariable
  split <;> rfl

theorem stepResults_finishError (step : StepDef) (s : ExecutionState) (e : StepError) :
    (finishError step s e).stepResults = s.stepResults := by
  cases e <;> rfl

/-- A leaf step stores a result under the id of the step its index names, or none. -/
theorem LeafEnd.get?_ne {host : Host} {idx : Nat} {s s' : ExecutionState} {ok : Bool}
    {step : StepDef} (h : LeafEnd host idx s ok s') (hat : s.action.steps[idx]? = some step) (hne : step.id ≠ b) :
    s'.stepResults.get? b = s.stepResults.get? b := by
  have hbody : ∀ {body : StepBody} {params : Value} {view : Option Value}
      {outcome : Except StepError StepOutput} {t : ExecutionState},
      runBody body params (s.entered idx view) = (outcome, t) → t.stepResults = s.stepResults := by
    intro body params view outcome t hran
    have hresults := stepResults_runBody body params (s.entered idx view)
    rw [hran] at hresults
    exact hresults
  cases h with
  | astray => rfl
  | uncredentialed => rfl
  | succeeded hat' _ hran =>
    cases hat.symm.trans hat'
    rw [stepResults_bindVariable, stepResults_addMetadata, get?_store_ne hne, hbody hran]
  | undeclared message hat' _ hran =>
    cases hat.symm.trans hat'
    rw [← hbody hran]
    exact get?_store_ne hne
  | failed hat' _ hran => rw [stepResults_finishError, hbody hran]

theorem result_ofHoldings (found : Option Value) :
    OfHoldings fun s => s.stepResults.get? b = found := by
  intro s t hs hsame
  rw [show t.stepResults = s.stepResults from congrArg Holdings.results hsame]
  exact hs

/-- A join takes over nothing new from a branch that has the result as it was. -/
theorem result_keptByMerge (found : Option Value) :
    KeptByMerge fun s => s.stepResults.get? b = found := by
  intro c task takesFailure ids vars hc htask
  rw [stepResults_merge]
  refine get?_stores_same hc fun v hin => ?_
  have hmem := (task.stepResults.mem_entries_iff b v).mp (List.mem_filter.mp hin).1
  exact htask.symm.trans hmem

section Run

variable {host : Host} {C : StepDef → Prop}

/-- No step of a kind has the id, and the kind contains what its steps splice: then no run of such a
step changes the result under the id. -/
theorem runStepTo_keeps_result (hclosed : ∀ step inner, C step → Splices step inner → C inner)
    (hne : ∀ step, C step → step.id ≠ b) (depth : Nat) :
    ∀ step idx s ok s', C step → s.action.steps[idx]? = some step →
      runStepTo host depth step idx s = .ok ok s' →
        s'.stepResults.get? b = s.stepResults.get? b := by
  induction depth with
  | zero => exact fun _ _ _ _ _ _ _ h => by cases h
  | succ depth ih =>
    intro step idx s ok s' hC hat hrun
    have hset : ∀ inner i, Respects SameSetting (runStepTo host depth inner i) :=
      sameSetting_preserved.runStepTo depth
    refine (runStepTo_end hrun).1.kept (J := fun t => t.stepResults.get? b = s.stepResults.get? b)
      hset (result_ofHoldings _) (result_keptByMerge _) rfl (fun _ inner i t ok t' hcall ht hran => ?_)
      (fun hkind _ before _ hbefore => ?_) (fun _ hleaf => hleaf.get?_ne hat (hne step hC))
      fun _ _ _ id hid t v ht => ?_
    · have hin := hclosed step inner hC hcall.splices
      exact (ih inner i t ok t' hin (hcall.located hset) hran).trans ht
    · have hbody : ∀ inner ∈ loopBody step, inner.id ≠ b := fun inner hin =>
        hne inner (hclosed step inner hC (.loop hkind hin))
      exact (get?_forget_ne hbody).trans hbefore
    · have hown : id = step.id := by
        rcases hid with rfl | ⟨own, hown, rfl⟩
        · rfl
        · cases hat.symm.trans hown
          rfl
      exact (get?_store_ne (hown ▸ hne step hC)).trans ht

end Run

end Avoids

/-! ### The join -/

section Join

variable {b : String} {v : Value}

theorem not_escaping_of_store {s : ExecutionState} {id : String}
    (h : ¬Escaping (s.storeStepResult id v)) : ¬Escaping s := fun hs => h (hs.store id v)

theorem get?_stores_of_mem {s : ExecutionState} {entries : List (String × Value)}
    (hnodup : (entries.map Prod.fst).Nodup) (hmem : (b, v) ∈ entries)
    (h : ¬Escaping (s.storeStepResults entries)) :
    (s.storeStepResults entries).stepResults.get? b = some v := by
  induction entries generalizing s with
  | nil => cases hmem
  | cons e rest ih =>
    rw [List.map_cons, List.nodup_cons] at hnodup
    have hrest : ¬Escaping ((s.storeStepResult e.1 e.2).storeStepResults rest) := h
    rcases List.mem_cons.mp hmem with rfl | hmem
    · have hfresh : ∀ e ∈ rest, e.1 ≠ b := fun e he heq =>
        hnodup.1 (List.mem_map.mpr ⟨e, he, heq⟩)
      have hstored : ¬Escaping (s.storeStepResult b v) := fun hs => hrest (hs.storeAll rest)
      have hkept := get?_stores_of_notMem (s := s.storeStepResult b v) hfresh
      refine Eq.trans hkept (get?_storeStepResult ?_)
      simpa [Escaping] using hstored
    · exact ih hnodup.2 hmem hrest

theorem nodup_branchEntries (ids : List String) (task : ExecutionState) :
    ((branchEntries ids task).map Prod.fst).Nodup :=
  (List.Sublist.map Prod.fst List.filter_sublist).nodup task.stepResults.nodup

/-- A result that was there when the branches were forked is not replaced. -/
theorem get?_merge_baseline {c task : ExecutionState} {takesFailure : Bool} {ids : List String}
    {vars : IndexMap String Value} (h : b ∈ ids) :
    (mergeParallelBranchState c task takesFailure ids vars).stepResults.get? b =
      c.stepResults.get? b := by
  rw [stepResults_merge]
  refine get?_stores_of_notMem ?_
  rintro ⟨k, w⟩ he rfl
  obtain ⟨-, hnew⟩ := List.mem_filter.mp he
  simp [h] at hnew

/-- A result under a new id is taken over, unless a store of the merge is refused. -/
theorem get?_merge_added {c task : ExecutionState} {takesFailure : Bool} {ids : List String}
    {vars : IndexMap String Value} (hids : b ∉ ids) (hget : task.stepResults.get? b = some v)
    (h : ¬Escaping (mergeParallelBranchState c task takesFailure ids vars)) :
    (mergeParallelBranchState c task takesFailure ids vars).stepResults.get? b = some v := by
  rw [stepResults_merge]
  refine get?_stores_of_mem (nodup_branchEntries ids task) ?_
    fun hs => h (merge_escaping c task takesFailure ids vars hs)
  exact List.mem_filter.mpr ⟨(task.stepResults.mem_entries_iff b v).mpr hget, by simpa using hids⟩

theorem joinBranch_escaping {ids : List String} {vars : IndexMap String Value} {join : BranchJoin}
    (outcome : Option BranchOutcome) (h : Escaping join.state) :
    Escaping (joinBranch ids vars join outcome).state := by
  cases outcome with
  | none => exact h
  | some branch => exact merge_escaping join.state branch.state _ ids vars (h.storeAll _)

theorem foldl_joinBranch_escaping {ids : List String} {vars : IndexMap String Value}
    {outcomes : List (Option BranchOutcome)} {join : BranchJoin} (h : Escaping join.state) :
    Escaping (outcomes.foldl (joinBranch ids vars) join).state := by
  induction outcomes generalizing join with
  | nil => exact h
  | cons outcome rest ih => exact ih (joinBranch_escaping outcome h)

/-- Branches that have no result under an id leave the join's. -/
theorem foldl_joinBranch_absent {s : ExecutionState} {vars : IndexMap String Value}
    {outcomes : List (Option BranchOutcome)} {join : BranchJoin}
    (hs : s.stepResults.get? b = none)
    (h : ∀ branch, some branch ∈ outcomes → branch.state.stepResults.get? b = none) :
    (outcomes.foldl (joinBranch s.stepResults.keys vars) join).state.stepResults.get? b =
      join.state.stepResults.get? b := by
  induction outcomes generalizing join with
  | nil => rfl
  | cons outcome rest ih =>
    rw [List.foldl_cons, ih fun branch hb => h branch (List.mem_cons_of_mem _ hb)]
    cases outcome with
    | none => rfl
    | some branch =>
      have habsent := h branch List.mem_cons_self
      exact get?_merge_same (s := s) (by rw [habsent, hs])

end Join

/-- No step of another branch has the id: two branches may not share one. -/
def OnlyInBranch (step : StepDef) (slot : Nat) (b : String) : Prop :=
  ∀ other steps, other ≠ slot → (branchSteps step)[other]? = some steps →
    ∀ inner, Nested steps inner → inner.id ≠ b

section Visible

variable {host : Host} {depth : Nat} {step : StepDef} {idx slot : Nat} {s s' : ExecutionState}
  {steps : List StepDef} {b : String} {v : Value}

/-- A branch changes no result but those of its own steps. -/
theorem runBranch_keeps_result (hne : ∀ inner, Nested steps inner → inner.id ≠ b)
    (herror : (runBranch host (runStepTo host depth) s slot steps).error = none) :
    (runBranch host (runStepTo host depth) s slot steps).state.stepResults.get? b =
      s.stepResults.get? b := by
  obtain ⟨ended, hended, -⟩ := runBranch_end herror
  have hset : ∀ inner i, Respects SameSetting (runStepTo host depth inner i) :=
    sameSetting_preserved.runStepTo depth
  refine hended.keeps (J := fun t => t.stepResults.get? b = s.stepResults.get? b) hset
    (spliced_splice (s.fork slot) steps) (fun t ht => ht)
    (fun inner hin i t ok t' hfound ht hran => ?_) rfl
  rw [runStepTo_keeps_result (C := Nested steps) (fun _ _ => Nested.splice) hne depth inner i t ok
    t' (.top hin) hfound hran, ht]

/-- Where the id had no result before, the join has the branch's. -/
theorem joinBranches_added (hslot : (branchSteps step)[slot]? = some steps)
    (honly : OnlyInBranch step slot b) (hs : s.stepResults.get? b = none)
    (hget : (runBranch host (runStepTo host depth) s slot steps).state.stepResults.get? b = some v)
    (herror : (joinBranches host (runStepTo host depth) s (branchSteps step)).error = none)
    (hescapes : ¬Escaping (joinBranches host (runStepTo host depth) s (branchSteps step)).state) :
    (joinBranches host (runStepTo host depth) s (branchSteps step)).state.stepResults.get? b =
      some v := by
  have hnonempty : steps.isEmpty = false := by
    cases steps with
    | nil =>
      have hnone : (runBranch host (runStepTo host depth) s slot []).state.stepResults.get? b =
        none := hs
      rw [hnone] at hget
      cases hget
    | cons => rfl
  unfold joinBranches at herror hescapes ⊢
  have hnone := (foldl_joinBranch_error herror).2
  -- every other branch has no result under the id
  have hothers : ∀ other branch, other ≠ slot →
      (branchOutcomes host (runStepTo host depth) s (branchSteps step))[other]? =
        some (some branch) → branch.state.stepResults.get? b = none := by
    intro other branch hne hother
    have hclean := hnone branch (List.mem_of_getElem? hother)
    unfold branchOutcomes at hother
    rw [List.getElem?_mapIdx] at hother
    cases hsteps : (branchSteps step)[other]? with
    | none => simp [hsteps] at hother
    | some steps' =>
      simp only [hsteps, Option.map_some, Option.some.injEq] at hother
      split at hother
      · cases hother
      · cases hother
        rw [runBranch_keeps_result (honly other steps' hne hsteps) hclean, hs]
  have hat : (branchOutcomes host (runStepTo host depth) s (branchSteps step))[slot]? =
      some (some (runBranch host (runStepTo host depth) s slot steps)) := by
    unfold branchOutcomes
    rw [List.getElem?_mapIdx, hslot]
    simpa using hnonempty
  generalize branchOutcomes host (runStepTo host depth) s (branchSteps step) = outcomes at *
  obtain ⟨hlt, hget'⟩ := List.getElem?_eq_some_iff.mp hat
  have hsplit : outcomes = outcomes.take slot ++ some (runBranch host (runStepTo host depth) s slot
      steps) :: outcomes.drop (slot + 1) := by
    rw [← hget', List.getElem_cons_drop, List.take_append_drop]
  have hbefore : ∀ branch, some branch ∈ outcomes.take slot →
      branch.state.stepResults.get? b = none := by
    intro branch hb
    obtain ⟨i, hi⟩ := List.getElem?_of_mem hb
    rw [List.getElem?_take] at hi
    split at hi
    · exact hothers i branch (by omega) hi
    · cases hi
  have hafter : ∀ branch, some branch ∈ outcomes.drop (slot + 1) →
      branch.state.stepResults.get? b = none := by
    intro branch hb
    obtain ⟨i, hi⟩ := List.getElem?_of_mem hb
    rw [List.getElem?_drop] at hi
    exact hothers _ branch (by omega) hi
  rw [hsplit, List.foldl_append, List.foldl_cons] at hescapes ⊢
  rw [foldl_joinBranch_absent hs hafter]
  refine get?_merge_added ?_ hget fun hmerge => hescapes (foldl_joinBranch_escaping hmerge)
  rw [IndexMap.mem_keys_iff, hs]
  simp

/-- Where the id had a result before, the join has that one. -/
theorem joinBranches_baseline {w : Value} {run : StepDef → Nat → Exec Bool}
    {branches : List (List StepDef)} (hs : s.stepResults.get? b = some w)
    (herror : (joinBranches host run s branches).error = none) :
    (joinBranches host run s branches).state.stepResults.get? b = some w := by
  refine joinBranches_keeps (P := fun join => join.state.stepResults.get? b = some w) hs
    (fun join hP => hP) (fun join slot steps _ _ hP => ?_) herror
  have hbase : b ∈ s.stepResults.keys := (s.stepResults.mem_keys_iff b).mpr (by simp [hs])
  rw [← hP]
  exact get?_merge_baseline hbase

/-- After a `parallel` step that succeeded, the result of a step of a branch is the one the branch
left under its id exactly where the id had no result when the step started, or had that very value
already (under the id of the `parallel` step itself stands that step's own result). -/
theorem parallel_result_iff (hkind : step.kind = .parallel)
    (hrun : runStepTo host (depth + 1) step idx s = .ok true s')
    (hslot : (branchSteps step)[slot]? = some steps) (honly : OnlyInBranch step slot b)
    (hget : (runBranch host (runStepTo host depth) s slot steps).state.stepResults.get? b =
      some v) :
    s'.stepResults.get? b = some v ↔
      if b = step.id then
        v = .array (joinBranches host (runStepTo host depth) s (branchSteps step)).results
      else s.stepResults.get? b = none ∨ s.stepResults.get? b = some v := by
  obtain ⟨hend, hviolation⟩ := runStepTo_end hrun
  have hescapes : ¬Escaping s' := by simp [Escaping, hviolation]
  cases hend with
  | parallel _ h =>
    generalize true = ok at h
    cases h with
    | empty hempty => simp [hempty] at hslot
    | joined hjoin hwidth herror =>
      by_cases hb : b = step.id
      · rw [if_pos hb, hb, get?_storeStepResult hviolation]
        simp [eq_comm]
      · rw [if_neg hb, get?_store_ne (Ne.symm hb)]
        cases hs : s.stepResults.get? b with
        | none =>
          rw [joinBranches_added hslot honly hs hget herror (not_escaping_of_store hescapes)]
          simp
        | some w =>
          rw [joinBranches_baseline hs herror]
          simp
  | _ => simp_all

end Visible

/-! ### A `parallel` step in a loop -/

/-- The step whose result the loops below collect: it leaves the item. -/
def itemStep : Value :=
  .object [("id", .string "b"), ("type", .string "let"),
    ("params", .object [("value", .string "\x7b\x7b$item\x7d\x7d")])]

/-- A loop over the items of the input that collects the result of `b`. -/
def collectingLoop (body : Value) : StepDef :=
  .new "loop" "for_each" (.object [
    ("path", .string "$input.items"), ("collect", .string "$steps.b.result"),
    ("steps", .array [body])])

/-- The body runs the step in a branch. -/
def branchLoop : StepDef :=
  collectingLoop (.object [("id", .string "fork"), ("type", .string "parallel"),
    ("params", .object [("branches", .array [.array [itemStep]])])])

def itemsState (step : StepDef) : ExecutionState :=
  .new "demo" (.ofSteps [step]) (.object [("items", .array [.string "one", .string "two"])])
    .null .null none ⟨1000000, 64⟩

/-- The second iteration of the loop collects the result of the first, where the same step run
directly shows its own. -/
theorem branch_result_stale :
    storedBy (quietHost Binary64.display) branchLoop (itemsState branchLoop) "loop" =
        some (.array [.string "one", .string "one"]) ∧
      storedBy (quietHost Binary64.display) (collectingLoop itemStep)
        (itemsState (collectingLoop itemStep)) "loop" =
          some (.array [.string "one", .string "two"]) := by
  decide +kernel

/-- The `parallel` step of the loop on its own. -/
def itemFork : StepDef :=
  .new "fork" "parallel" (.object [("branches", .array [.array [itemStep]])])

/-- The loop goes on to its next item. -/
def enterPass : Exec Unit := do
  let _ ← hostNextForeach
  clearResults [itemFork]

/-- The state in which the step starts in the first pass over the items. -/
def firstPass (items : List Value) : ExecutionState :=
  Program.finalState ((do
    let _ ← hostBeginForeach 0
    modify fun s : ExecutionState => s.spliceSteps [itemFork]
    enterPass) { itemsState branchLoop with input := .object [("items", .array items)] })

def secondPass (items : List Value) : ExecutionState :=
  Program.finalState ((do
    let _ ← runStep (quietHost Binary64.display) itemFork 1
    enterPass) (firstPass items))

/-- In the first pass it shows what its branch left, and in a second pass over the same item. -/
theorem parallel_result_first :
    (∃ s', runStep (quietHost Binary64.display) itemFork 1
        (firstPass [.string "one", .string "two"]) = .ok true s' ∧
      s'.stepResults.get? "b" = some (.string "one")) ∧
    ∃ s', runStep (quietHost Binary64.display) itemFork 1
        (secondPass [.string "one", .string "one"]) = .ok true s' ∧
      (secondPass [.string "one", .string "one"]).stepResults.get? "b" = some (.string "one") ∧
      s'.stepResults.get? "b" = some (.string "one") := by
  have hslot : (branchSteps itemFork)[0]? = some ((branchSteps itemFork).getD 0 []) := rfl
  have honly : OnlyInBranch itemFork 0 "b" := by
    rintro other steps hother hget
    have hone : (branchSteps itemFork).length = 1 := by decide
    have hlt := (List.getElem?_eq_some_iff.mp hget).1
    omega
  constructor
  case left =>
    obtain ⟨ok, s', hrun, rfl⟩ := exists_of_returnsWith
      (show returnsWith (fun ok _ => ok) (runStep (quietHost Binary64.display) itemFork 1
        (firstPass [.string "one", .string "two"])) = true by decide +kernel)
    exact ⟨s', hrun, (parallel_result_iff (by decide) hrun hslot honly (by decide +kernel)).mpr
      (Or.inl (by decide +kernel))⟩
  case right =>
    obtain ⟨ok, s', hrun, rfl⟩ := exists_of_returnsWith
      (show returnsWith (fun ok _ => ok) (runStep (quietHost Binary64.display) itemFork 1
        (secondPass [.string "one", .string "one"])) = true by decide +kernel)
    have hheld : (secondPass [.string "one", .string "one"]).stepResults.get? "b" =
        some (.string "one") := by decide +kernel
    exact ⟨s', hrun, hheld, (parallel_result_iff (by decide) hrun hslot honly
      (by decide +kernel)).mpr (Or.inr hheld)⟩

end Gwead
