import Gwead.BranchResults
import Gwead.Lib.Slots
import Gwead.StepCoverage

/-!
# The join of a `parallel` step

The branches of an accepted `parallel` step share no step id, and their outcomes are merged in the
order they are declared in, whatever order they finish in.  So the join has all that the branches
left, except where a result already stood under an id, or where two branches set one variable:
registration compares the ids of the branches with each other and with nothing else, and of the
variables only those that a `storeToVariable` names.
-/

namespace Gwead

open Program Registration

/-! ### Ids in the branches -/

section Ids

theorem mem_paramBodies {step : StepDef} {bodies : List (List Value)} {body : List Value}
    (h : stepBodies step = some bodies) (hbody : body ∈ bodies) :
    body ∈ paramBodies step.stepType step.params := by
  unfold stepBodies at h
  unfold paramBodies
  by_cases hifs : step.stepType = "ifs"
  · rw [if_pos hifs] at h
    cases h
    obtain ⟨branch, hbranch, hitems⟩ := List.mem_filterMap.mp hbody
    rw [if_neg (by simp [hifs]), if_pos hifs]
    exact List.mem_map.mpr ⟨branch, hbranch, by simp [arrayAt, hitems]⟩
  rw [if_neg hifs] at h
  by_cases htry : step.stepType = "try"
  · rw [if_pos htry] at h
    cases h
    obtain ⟨key, hkey, hitems⟩ := List.mem_filterMap.mp hbody
    rw [if_neg (by simp [htry]), if_neg hifs, if_pos htry]
    exact List.mem_map.mpr ⟨key, hkey, by simp [arrayAt, hitems]⟩
  rw [if_neg htry] at h
  by_cases hparallel : step.stepType = "parallel"
  · rw [if_pos hparallel] at h
    cases h
    obtain ⟨branch, hbranch, hitems⟩ := List.mem_filterMap.mp hbody
    rw [if_neg (by simp [hparallel]), if_neg hifs, if_neg htry, if_pos hparallel]
    exact List.mem_map.mpr ⟨branch, hbranch, by simp [hitems]⟩
  rw [if_neg hparallel] at h
  by_cases hloop : step.stepType = "for_each" ∨ step.stepType = "repeat"
  · rw [if_pos hloop] at h ⊢
    obtain ⟨items, hitems, rfl⟩ := Option.map_eq_some_iff.mp h
    rw [List.mem_singleton.mp hbody]
    simp [arrayAt, hitems]
  · rw [if_neg hloop] at h
    cases h

/-- A step without params has no bodies but empty ones. -/
theorem eq_nil_of_mem_paramBodies {stepType : String} {body : List Value}
    (h : body ∈ paramBodies stepType Value.emptyObject) : body = [] := by
  have harray : ∀ key, arrayAt Value.emptyObject key = [] := fun _ => rfl
  unfold paramBodies at h
  simp only [harray, List.map_nil] at h
  split at h
  · exact List.mem_singleton.mp h
  · split at h
    · cases h
    · split at h
      · simpa [harray] using h
      · split at h <;> cases h

/-- The walk over a branch's values collects the id of every step in it, however deep. -/
theorem id_mem_collect {steps : List StepDef} {inner : StepDef} (h : Nested steps inner) :
    ∀ {values : List Value}, steps = values.filterMap StepDef.fromInnerValue →
      ∃ v ∈ values, ∀ n, v.depth < n → inner.id ∈ collectStepFieldTo "id" n v := by
  induction h with
  | @top steps step hmem =>
    rintro values rfl
    obtain ⟨v, hv, hread⟩ := List.mem_filterMap.mp hmem
    obtain ⟨hid, htype, -⟩ := StepDef.fromInnerValue_some hread
    refine ⟨v, hv, fun n hn => ?_⟩
    cases n with
    | zero => exact absurd hn (Nat.not_lt_zero _)
    | succ n => simp [collectStepFieldTo, htype, hid]
  | @inner steps parent step bodies body hparent hbodies hbody _ ih =>
    rintro values rfl
    obtain ⟨v, hv, hread⟩ := List.mem_filterMap.mp hparent
    obtain ⟨-, htype, hparams⟩ := StepDef.fromInnerValue_some hread
    obtain ⟨w, hw, hcollected⟩ := ih rfl
    have hwdepth := depth_stepBodies hbodies hbody hw
    have hpdepth := depth_fromInnerValue hread
    have hin := mem_paramBodies hbodies hbody
    refine ⟨v, hv, fun n hn => ?_⟩
    cases n with
    | zero => exact absurd hn (Nat.not_lt_zero _)
    | succ n =>
      cases hget : v.get "params" with
      | none =>
        rw [hparams, hget] at hin
        rw [eq_nil_of_mem_paramBodies hin] at hw
        cases hw
      | some params =>
        rw [hparams, hget] at hin
        rw [collectStepFieldTo]
        simp only [htype, hget]
        refine List.mem_append_right _ (List.mem_flatMap.mpr ⟨body, hin, ?_⟩)
        exact List.mem_flatMap.mpr ⟨w, hw, hcollected n (by omega)⟩

/-- A value that was met in a branch comes up in that branch only. -/
theorem findCollision_met {entries seen : List (String × Nat)} {value : String} {b b' : Nat}
    (h : findCollision seen entries = none) (hseen : seen.lookup value = some b')
    (hb : (value, b) ∈ entries) : b = b' := by
  induction entries generalizing seen with
  | nil => cases hb
  | cons e rest ih =>
    obtain ⟨value', first⟩ := e
    rw [findCollision] at h
    cases hlookup : seen.lookup value' with
    | some prev =>
      simp only [hlookup] at h
      by_cases hsame : prev = first
      · rw [if_pos hsame] at h
        rcases List.mem_cons.mp hb with heq | hin
        · cases heq
          rw [hlookup] at hseen
          cases hseen
          exact hsame.symm
        · exact ih h hseen hin
      · rw [if_neg hsame] at h
        cases h
    | none =>
      simp only [hlookup] at h
      have hne : value ≠ value' := by
        rintro rfl
        rw [hlookup] at hseen
        cases hseen
      rcases List.mem_cons.mp hb with heq | hin
      · cases heq
        exact absurd rfl hne
      · have hbeq : (value == value') = false := by simpa using hne
        exact ih h (by rw [List.lookup_cons, hbeq]; exact hseen) hin

/-- Where no value collides, every value comes up in one branch. -/
theorem findCollision_none {entries seen : List (String × Nat)} {value : String} {b b' : Nat}
    (h : findCollision seen entries = none) (hb : (value, b) ∈ entries)
    (hb' : (value, b') ∈ entries) : b = b' := by
  induction entries generalizing seen with
  | nil => cases hb
  | cons e rest ih =>
    obtain ⟨value', first⟩ := e
    rw [findCollision] at h
    -- after the first entry its value has been met in its branch
    obtain ⟨seen', hrest, hmet⟩ : ∃ seen', findCollision seen' rest = none ∧
        seen'.lookup value' = some first := by
      cases hlookup : seen.lookup value' with
      | some prev =>
        simp only [hlookup] at h
        by_cases hsame : prev = first
        · rw [if_pos hsame] at h
          exact ⟨seen, h, hsame ▸ hlookup⟩
        · rw [if_neg hsame] at h
          cases h
      | none =>
        simp only [hlookup] at h
        exact ⟨_, h, by simp⟩
    rcases List.mem_cons.mp hb with heq | hin
    · rcases List.mem_cons.mp hb' with heq' | hin'
      · cases heq
        cases heq'
        rfl
      · cases heq
        exact (findCollision_met hrest hmet hin').symm
    · rcases List.mem_cons.mp hb' with heq' | hin'
      · cases heq'
        exact findCollision_met hrest hmet hin
      · exact ih hrest hin hin'

/-- The id of a step of a branch is among the ids that are compared. -/
theorem id_mem_branchFields {branches : List Value} {slot : Nat} {branch : Value}
    {inner : StepDef} (hslot : branches[slot]? = some branch)
    (hn : Nested (StepDef.bodySteps (some branch)) inner) :
    (inner.id, slot) ∈ branchFields "id" branches := by
  unfold StepDef.bodySteps at hn
  refine List.mem_flatMap.mpr ⟨(branch, slot), List.mk_mem_zipIdx_iff_getElem?.mpr hslot, ?_⟩
  cases hitems : branch.asArray with
  | none =>
    simp only [Option.bind_some, hitems] at hn
    cases hn <;> simp_all
  | some items =>
    simp only [Option.bind_some, hitems] at hn
    obtain ⟨v, hv, hid⟩ := id_mem_collect hn rfl
    simp only [Option.getD_some]
    refine List.mem_flatMap.mpr ⟨v, hv, List.mem_map.mpr ⟨inner.id, ?_, rfl⟩⟩
    exact hid _ (Nat.lt_succ_self _)

variable {setup : Setup} {k : Kernel} {ns : String} {source : PluginManifest} {p : Prepared}

/-- The branches of an accepted step share no id. -/
theorem Registration.Passed.onlyInBranch (hp : Passed setup k ns source p) {name : String}
    {entry : ActionRegistration} (hentry : (name, entry) ∈ p.planned) {step : StepDef}
    (hn : Nested entry.action.steps step) (hkind : step.kind = .parallel) {slot : Nat}
    {steps : List StepDef} (hslot : (branchSteps step)[slot]? = some steps) {inner : StepDef}
    (hinner : Nested steps inner) : OnlyInBranch step slot inner.id := by
  obtain ⟨⟨name', action⟩, haction, hplan⟩ := forall₂_mem_right hp.planned hentry
  obtain ⟨hname, heq, -⟩ := planAction_name hplan
  cases hname
  cases heq
  have hshaped := shaped_of_nested (fun _ hstep => lt_stepsDepth hstep) (hp.shapes _ haction) hn
  have htype : step.stepType = "parallel" := by
    unfold StepDef.kind at hkind
    grind
  have hwalk : walkParallel setup.describeStep name (fun _ => .ok ()) step = .ok () := by
    have hbodies := hshaped.bodies
    unfold walkBodies at hbodies
    simpa [htype] using hbodies
  unfold branchSteps at hslot
  unfold walkParallel at hwalk
  cases hget : step.params.get "branches" with
  | none => simp [hget] at hslot
  | some v =>
    cases v with
    | array branches =>
      simp only [hget] at hwalk
      simp only [hget, Option.bind_some, Value.asArray, Option.getD_some] at hslot
      rintro other others hother hget' inner' hinner' hid
      unfold branchSteps at hget'
      simp only [hget, Option.bind_some, Value.asArray, Option.getD_some] at hget'
      rw [List.getElem?_map] at hslot hget'
      obtain ⟨branch, hbranch, rfl⟩ := Option.map_eq_some_iff.mp hslot
      obtain ⟨branch', hbranch', rfl⟩ := Option.map_eq_some_iff.mp hget'
      have hhere := id_mem_branchFields hbranch hinner
      have hthere := id_mem_branchFields hbranch' hinner'
      rw [hid] at hthere
      have hcollision : findCollision [] (branchFields "id" branches) = none := by
        unfold checkBranchCollisions at hwalk
        cases hfind : findCollision [] (branchFields "id" branches) with
        | none => rfl
        | some collision => simp [hfind] at hwalk
      exact hother (findCollision_none hcollision hthere hhere)
    | _ => simp [hget, Value.asArray] at hslot

end Ids

/-! ### The join in an order of completion -/

section Order

variable (host : Host) (run : StepDef → Nat → Exec Bool)

/-- `run_parallel` when its tasks are collected in an order: each outcome goes into the slot of its
branch, and the slots are merged. -/
def runParallelIn (order : List (Nat × BranchOutcome)) (step : StepDef) : Exec Bool := fun s =>
  let branches := branchSteps step
  if branches.isEmpty then .ok true (s.storeStepResult step.id (.array []))
  else if s.limits.maxParallelBranches < branches.length then
    .error (.validation (tooManyBranches step branches.length s.limits.maxParallelBranches)) s
  else
    match host.branchJoin s with
    | some failure => .error (joinError "Parallel branch task" failure) s
    | none =>
      let join := (Slots.fill branches.length order).foldl (joinBranch s.stepResults.keys s.vars)
        ⟨{ s with clock := s.clock + 1 }, [], false, none⟩
      match join.error with
      | some e => .error e join.state
      | none => .ok (!join.anyFailed) (join.state.storeStepResult step.id (.array join.results))

/-- The tasks that are spawned: one for each branch that has steps. -/
def spawned (step : StepDef) (s : ExecutionState) : List (Nat × BranchOutcome) :=
  Slots.placed (branchOutcomes host run s (branchSteps step))

variable {host run}

theorem runParallelIn_eq {step : StepDef} {s : ExecutionState}
    {order : List (Nat × BranchOutcome)} (h : order.Perm (spawned host run step s)) :
    runParallelIn host order step s = runParallel host run step s := by
  have hlength : (branchOutcomes host run s (branchSteps step)).length =
      (branchSteps step).length := List.length_mapIdx
  have hfill := Slots.fill_of_perm h
  rw [hlength] at hfill
  unfold runParallelIn runParallel joinBranches
  dsimp only
  exact hfill ▸ rfl

end Order

/-! ### What the join has -/

section Join

variable {s : ExecutionState} {ids : List String} {vars : IndexMap String Value} {x : String}
  {v : Value}

theorem vars_merge (c task : ExecutionState) (takesFailure : Bool) (ids : List String)
    (vars : IndexMap String Value) :
    (mergeParallelBranchState c task takesFailure ids vars).vars =
      c.vars.extend (introduced vars task) := by
  have hstores : ∀ (entries : List (String × Value)) (t : ExecutionState),
      (t.storeStepResults entries).vars = t.vars := by
    intro entries
    induction entries with
    | nil => exact fun t => rfl
    | cons e rest ih =>
      intro t
      exact (ih (t.storeStepResult e.1 e.2)).trans (t.vars_storeStepResult e.1 e.2)
  have hentries : (mergeBranchEntries c task ids).vars = c.vars := hstores _ c
  have hset := (mergeBranchEntries c task ids).vars_setVariables (introduced vars task)
  rw [hentries] at hset
  cases takesFailure <;> exact hset

/-- What joining an outcome makes of a variable. -/
theorem get?_vars_joinBranch (join : BranchJoin) (outcome : Option BranchOutcome) :
    (joinBranch ids vars join outcome).state.vars.get? x =
      if vars.contains x then join.state.vars.get? x
      else (outcome.bind fun branch => branch.state.vars.get? x).or (join.state.vars.get? x) := by
  cases outcome with
  | none => simp [joinBranch]
  | some branch =>
    have hmerge := vars_merge join.state branch.state (!branch.ok && !join.anyFailed) ids vars
    simp only [joinBranch, Option.bind_some]
    rw [hmerge, get?_extend_introduced]

/-- A variable that was there before keeps its value. -/
theorem foldl_joinBranch_kept {outcomes : List (Option BranchOutcome)} {join : BranchJoin}
    (h : vars.contains x = true) :
    (outcomes.foldl (joinBranch ids vars) join).state.vars.get? x = join.state.vars.get? x := by
  induction outcomes generalizing join with
  | nil => rfl
  | cons outcome rest ih => rw [List.foldl_cons, ih, get?_vars_joinBranch, if_pos h]

/-- A new variable has the value that all branches agree on that have it. -/
theorem foldl_joinBranch_new {outcomes : List (Option BranchOutcome)} {join : BranchJoin}
    (h : vars.contains x = false)
    (hagree : ∀ branch, some branch ∈ outcomes → ∀ w, branch.state.vars.get? x = some w → w = v)
    (hthere : join.state.vars.get? x = some v ∨
      ∃ branch, some branch ∈ outcomes ∧ branch.state.vars.get? x = some v) :
    (outcomes.foldl (joinBranch ids vars) join).state.vars.get? x = some v := by
  induction outcomes generalizing join with
  | nil =>
    rcases hthere with hjoin | ⟨branch, hmem, -⟩
    · exact hjoin
    · cases hmem
  | cons outcome rest ih =>
    refine ih (fun branch hb => hagree branch (List.mem_cons_of_mem _ hb)) ?_
    rw [get?_vars_joinBranch, h]
    cases houtcome : outcome.bind fun branch => branch.state.vars.get? x with
    | some w =>
      obtain ⟨branch, rfl, hw⟩ := Option.bind_eq_some_iff.mp houtcome
      rw [hagree branch List.mem_cons_self w hw]
      exact .inl rfl
    | none =>
      rcases hthere with hjoin | ⟨branch, hmem, hv⟩
      · exact .inl hjoin
      · rcases List.mem_cons.mp hmem with rfl | hmem
        · rw [Option.bind_some, hv] at houtcome
          cases houtcome
        · exact .inr ⟨branch, hmem, hv⟩

/-- The results are those the branches left, in the order the branches are declared in. -/
theorem results_foldl_joinBranch {outcomes : List (Option BranchOutcome)} {join : BranchJoin} :
    (outcomes.foldl (joinBranch ids vars) join).results = join.results ++
      outcomes.map fun outcome => (outcome.bind BranchOutcome.last).getD .null := by
  induction outcomes generalizing join with
  | nil => simp
  | cons outcome rest ih =>
    rw [List.foldl_cons, ih]
    cases outcome <;> simp [joinBranch]

end Join

/-- What a branch leaves as its last result: the one of its last step, if it has stored any. -/
def lastResult (steps : List StepDef) (s : ExecutionState) : Value :=
  ((steps.getLast?).bind fun step => s.stepResults.get? step.id).getD .null

/-- Steps that all ran leave the result of the last of them. -/
theorem runSteps_last {host : Host} {run : StepDef → Nat → Exec Bool} {steps : List StepDef}
    {idx : Nat} {last r : Option Value} {s s' : ExecutionState}
    (h : runSteps host run steps idx last s = .ok (.completed, r) s') :
    r = (steps.getLast?).elim last fun step => s'.stepResults.get? step.id := by
  induction steps generalizing idx last s with
  | nil =>
    cases h
    rfl
  | cons inner rest ih =>
    obtain ⟨_, s₁, -, hcalled⟩ := bind_ok.mp h
    obtain ⟨ok, s₂, -, h⟩ := bind_ok.mp hcalled
    cases ok with
    | false =>
      simp only [Bool.false_eq_true, if_false] at h
      obtain ⟨_, s₃, -, hlast⟩ := bind_ok.mp h
      cases hlast
    | true =>
      obtain ⟨t, s₃, hget, hrest⟩ := bind_ok.mp h
      cases hget
      by_cases hsignal : s₂.returnSignal.isSome
      · simp only [hsignal, if_true] at hrest
        cases hrest
      · simp only [hsignal, if_false, Bool.false_eq_true] at hrest
        have hr := ih hrest
        cases rest with
        | nil =>
          cases hrest
          exact hr
        | cons next more =>
          rw [List.getLast?_cons_cons]
          rw [hr]
          cases hlast : (next :: more).getLast? with
          | none => simp at hlast
          | some final => rfl

/-! ### The join is complete -/

section Complete

variable (host : Host) (run : StepDef → Nat → Exec Bool) (step : StepDef) (s : ExecutionState)

/-- The last results of the declared branches. -/
def branchResults : List Value :=
  (branchSteps step).mapIdx fun slot steps =>
    lastResult steps (runBranch host run s slot steps).state

/-- The state after a `parallel` step has all that its branches left, and does not depend on the
order they finished in. -/
structure JoinComplete (s' : ExecutionState) : Prop where
  results : ∀ slot steps inner v, (branchSteps step)[slot]? = some steps → Nested steps inner →
    (runBranch host run s slot steps).state.stepResults.get? inner.id = some v →
      s'.stepResults.get? inner.id = some v
  own : s'.stepResults.get? step.id = some (.array (branchResults host run step s))
  introduced : ∀ slot steps x v, (branchSteps step)[slot]? = some steps → s.vars.get? x = none →
    (runBranch host run s slot steps).state.vars.get? x = some v → s'.vars.get? x = some v
  kept : ∀ x v, s.vars.get? x = some v → s'.vars.get? x = some v
  ordered : ∀ order, order.Perm (spawned host run step s) →
    runParallelIn host order step s = .ok true s'

/-- Nothing that the branches left hides anything else: no result stood under the id of a step of a
branch, and no two branches set one new variable (or what is hidden is the same value). -/
structure NothingHidden : Prop where
  results : ∀ slot steps inner v, (branchSteps step)[slot]? = some steps → Nested steps inner →
    (runBranch host run s slot steps).state.stepResults.get? inner.id = some v →
      if inner.id = step.id then v = .array (branchResults host run step s)
      else s.stepResults.get? inner.id = none ∨ s.stepResults.get? inner.id = some v
  agreed : ∀ x, s.vars.get? x = none → ∀ slot steps slot' steps' v v',
    (branchSteps step)[slot]? = some steps → (branchSteps step)[slot']? = some steps' →
      (runBranch host run s slot steps).state.vars.get? x = some v →
        (runBranch host run s slot' steps').state.vars.get? x = some v' → v = v'

end Complete

section Settled

variable {host : Host} {run : StepDef → Nat → Exec Bool} {step : StepDef} {s : ExecutionState}
  {branches : List (List StepDef)}

theorem mem_branchOutcomes {branch : BranchOutcome} :
    some branch ∈ branchOutcomes host run s branches ↔
      ∃ slot steps, branches[slot]? = some steps ∧ steps.isEmpty = false ∧
        branch = runBranch host run s slot steps := by
  unfold branchOutcomes
  rw [List.mem_mapIdx]
  constructor
  · rintro ⟨slot, hslot, houtcome⟩
    cases hempty : (branches[slot]).isEmpty with
    | true => simp [hempty] at houtcome
    | false =>
      simp only [hempty, Bool.false_eq_true, if_false, Option.some.injEq] at houtcome
      exact ⟨slot, branches[slot], List.getElem?_eq_getElem hslot, hempty, houtcome.symm⟩
  · rintro ⟨slot, steps, hslot, hempty, rfl⟩
    obtain ⟨hlt, rfl⟩ := List.getElem?_eq_some_iff.mp hslot
    exact ⟨slot, hlt, by simp [hempty]⟩

/-- A branch that has a variable of its own has steps. -/
theorem nonempty_of_introduced {slot : Nat} {steps : List StepDef} {x : String} {v : Value}
    (hs : s.vars.get? x = none) (hv : (runBranch host run s slot steps).state.vars.get? x = some v) :
    steps.isEmpty = false := by
  cases steps with
  | nil =>
    have hnone : (runBranch host run s slot []).state.vars.get? x = none := hs
    rw [hnone] at hv
    cases hv
  | cons => rfl

theorem foldl_joinBranch_settled {ids : List String} {vars : IndexMap String Value}
    {outcomes : List (Option BranchOutcome)} {join : BranchJoin}
    (hok : (outcomes.foldl (joinBranch ids vars) join).anyFailed = false)
    (hreturn : (outcomes.foldl (joinBranch ids vars) join).state.returnSignal = none) :
    (join.anyFailed = false ∧ join.state.returnSignal = none) ∧
      ∀ branch, some branch ∈ outcomes → branch.ok = true ∧ branch.state.returnSignal = none := by
  induction outcomes generalizing join with
  | nil => exact ⟨⟨hok, hreturn⟩, fun branch hb => by cases hb⟩
  | cons outcome rest ih =>
    obtain ⟨⟨hjoin, hsignal⟩, hrest⟩ := ih hok hreturn
    cases outcome with
    | none =>
      refine ⟨⟨hjoin, hsignal⟩, fun branch hb => hrest branch ?_⟩
      simpa using hb
    | some branch =>
      have hfailed : (join.anyFailed || !branch.ok) = false := hjoin
      have hmerged := (merge_moves join.state branch.state (!branch.ok && !join.anyFailed) ids
        vars).2
      have hor : join.state.returnSignal.or branch.state.returnSignal = none :=
        hmerged.symm.trans hsignal
      rw [Bool.or_eq_false_iff] at hfailed
      rw [Option.or_eq_none_iff] at hor
      refine ⟨⟨hfailed.1, hor.1⟩, fun b hb => ?_⟩
      rcases List.mem_cons.mp hb with hb | hb
      · cases hb
        exact ⟨by simpa using hfailed.2, hor.2⟩
      · exact hrest b hb

/-- Branches that succeeded are joined without a failure. -/
theorem foldl_joinBranch_good {ids : List String} {vars : IndexMap String Value}
    {outcomes : List (Option BranchOutcome)} {join : BranchJoin} (hok : join.anyFailed = false)
    (herror : join.error = none)
    (h : ∀ branch, some branch ∈ outcomes → branch.ok = true ∧ branch.error = none) :
    (outcomes.foldl (joinBranch ids vars) join).anyFailed = false ∧
      (outcomes.foldl (joinBranch ids vars) join).error = none := by
  induction outcomes generalizing join with
  | nil => exact ⟨hok, herror⟩
  | cons outcome rest ih =>
    have hrest := fun branch hb => h branch (List.mem_cons_of_mem outcome hb)
    cases outcome with
    | none => exact ih hok herror hrest
    | some branch =>
      obtain ⟨hgood, hnone⟩ := h branch List.mem_cons_self
      exact ih (by simp [joinBranch, hok, hgood]) (by simp [joinBranch, herror, hnone]) hrest

/-- A branch that ran to its end leaves its last result. -/
theorem runBranch_last {slot : Nat} {steps : List StepDef}
    (herror : (runBranch host run s slot steps).error = none)
    (hok : (runBranch host run s slot steps).ok = true)
    (hreturn : (runBranch host run s slot steps).state.returnSignal = none) :
    (runBranch host run s slot steps).last.getD .null =
      lastResult steps (runBranch host run s slot steps).state := by
  cases hran : runSteps host run steps s.action.steps.length none ((s.fork slot).spliceSteps steps)
    with
  | error e t => simp [runBranch, hran] at herror
  | ok result t =>
    obtain ⟨ended, last⟩ := result
    simp only [runBranch, hran] at hok hreturn ⊢
    cases ended with
    | completed =>
      have hlast := runSteps_last hran
      unfold lastResult
      rw [hlast]
      cases steps.getLast? <;> rfl
    | returned =>
      obtain ⟨inner, i, t', -, -, hsignal⟩ := runSteps_end hran
      rw [hreturn] at hsignal
      cases hsignal
    | failed => simp at hok

theorem results_joinBranches
    (h : ∀ branch, some branch ∈ branchOutcomes host run s (branchSteps step) →
      branch.error = none ∧ branch.ok = true ∧ branch.state.returnSignal = none) :
    (joinBranches host run s (branchSteps step)).results = branchResults host run step s := by
  unfold joinBranches
  rw [results_foldl_joinBranch, List.nil_append]
  unfold branchResults
  apply List.ext_getElem?
  intro slot
  rw [List.getElem?_map, List.getElem?_mapIdx]
  unfold branchOutcomes
  rw [List.getElem?_mapIdx]
  cases hslot : (branchSteps step)[slot]? with
  | none => rfl
  | some steps =>
    cases hempty : steps.isEmpty with
    | true =>
      rw [List.isEmpty_iff.mp hempty]
      rfl
    | false =>
      obtain ⟨herror, hok, hreturn⟩ := h _ (mem_branchOutcomes.mpr ⟨slot, steps, hslot, hempty, rfl⟩)
      simp only [Option.map_some, hempty, Bool.false_eq_true, if_false, Option.bind_some]
      rw [runBranch_last herror hok hreturn]

end Settled

section Main

variable {setup : Setup} {k : Kernel} {ns : String} {source : PluginManifest} {kernelOwned : Bool}
  {p : Prepared} {name : String} {entry : ActionRegistration} {host : Host} {depth : Nat}
  {step : StepDef} {idx : Nat} {s s' : ExecutionState}

theorem runStepTo_parallel (hkind : step.kind = .parallel) {ok : Bool}
    (h : runStepTo host (depth + 1) step idx s = .ok ok s') :
    runParallel host (runStepTo host depth) step s = .ok ok s' ∧ escapingViolation s' = none := by
  obtain ⟨ok', t, hdispatch, hraise⟩ := bind_ok.mp h
  unfold dispatchStep at hdispatch
  rw [hkind] at hdispatch
  unfold raiseEscaping at hraise
  split at hraise
  · cases hraise
  · rename_i hviolation
    cases hraise
    exact ⟨hdispatch, hviolation⟩

/-- When all branches succeed, so does the step, unless what they leave together is more than the
results may take: that ends the invocation. -/
theorem parallel_succeeds (hkind : step.kind = .parallel) (hjoin : host.branchJoin s = none)
    (hwidth : (branchSteps step).length ≤ s.limits.maxParallelBranches)
    (hall : ∀ branch,
      some branch ∈ branchOutcomes host (runStepTo host depth) s (branchSteps step) →
        branch.ok = true ∧ branch.error = none) :
    (∃ s', runStepTo host (depth + 1) step idx s = .ok true s') ∨
      ∃ e s', runStepTo host (depth + 1) step idx s = .error e s' ∧
        escapingViolation s' = some e := by
  have hran : ∃ t, runParallel host (runStepTo host depth) step s = .ok true t := by
    unfold runParallel
    dsimp only
    split
    · exact ⟨_, rfl⟩
    · obtain ⟨hgood, hnone⟩ := @foldl_joinBranch_good s.stepResults.keys s.vars _
        ⟨s.ticked, [], false, none⟩ rfl rfl hall
      rw [if_neg (Nat.not_lt_of_le hwidth), hjoin]
      change (joinBranches host (runStepTo host depth) s (branchSteps step)).anyFailed = false
        at hgood
      change (joinBranches host (runStepTo host depth) s (branchSteps step)).error = none at hnone
      dsimp only
      rw [hnone, hgood]
      exact ⟨_, rfl⟩
  obtain ⟨t, hran⟩ := hran
  have hdispatch : dispatchStep host (runStepTo host depth) step idx s = .ok true t := by
    unfold dispatchStep
    rw [hkind]
    exact hran
  cases hviolation : escapingViolation t with
  | none =>
    exact .inl ⟨t, bind_ok.mpr ⟨true, t, hdispatch, by simp [raiseEscaping, hviolation]⟩⟩
  | some e =>
    exact .inr ⟨e, t,
      bind_error.mpr (.inr ⟨true, t, hdispatch, by simp [raiseEscaping, hviolation]⟩), hviolation⟩

/-- A `parallel` step that succeeded without a `return` has joined branches that did. -/
theorem branches_settled {ok : Bool} (hok : ok = true)
    (hjoined : ParallelEnd host (runStepTo host depth) step s ok s') (hreturn : s'.returnSignal = none) :
    ∀ branch, some branch ∈ branchOutcomes host (runStepTo host depth) s (branchSteps step) →
      branch.error = none ∧ branch.ok = true ∧ branch.state.returnSignal = none := by
  cases hjoined with
  | empty hempty =>
    intro branch hb
    rw [hempty] at hb
    cases hb
  | joined hjoin hwidth herror =>
    have hfailed : (joinBranches host (runStepTo host depth) s (branchSteps step)).anyFailed =
        false := by simpa using hok
    have hsignal : (joinBranches host (runStepTo host depth) s
        (branchSteps step)).state.returnSignal = none :=
      ((Unmoved.store _ step.id _).signal).symm.trans hreturn
    obtain ⟨-, hsettled⟩ := foldl_joinBranch_settled hfailed hsignal
    exact fun branch hb => ⟨(foldl_joinBranch_error herror).2 branch hb, hsettled branch hb⟩

/-- The step's own result lists the last results of the branches. -/
theorem parallel_own {ok : Bool} (hok : ok = true)
    (hjoined : ParallelEnd host (runStepTo host depth) step s ok s')
    (hviolation : escapingViolation s' = none) (hreturn : s'.returnSignal = none) :
    s'.stepResults.get? step.id =
      some (.array (branchResults host (runStepTo host depth) step s)) := by
  have hsettled := branches_settled hok hjoined hreturn
  cases hjoined with
  | empty hempty =>
    unfold branchResults
    rw [get?_storeStepResult hviolation, hempty]
    rfl
  | joined hjoin hwidth herror =>
    rw [get?_storeStepResult hviolation, results_joinBranches hsettled]

/-- Where the branches that have a new variable agree on it, the join has it. -/
theorem parallel_vars_new {x : String} {v : Value} {slot : Nat} {steps : List StepDef}
    {ok : Bool} (hjoined : ParallelEnd host (runStepTo host depth) step s ok s')
    (hx : s.vars.get? x = none) (hslot : (branchSteps step)[slot]? = some steps)
    (hv : (runBranch host (runStepTo host depth) s slot steps).state.vars.get? x = some v)
    (hagree : ∀ slot' steps' w, (branchSteps step)[slot']? = some steps' →
      (runBranch host (runStepTo host depth) s slot' steps').state.vars.get? x = some w → w = v) :
    s'.vars.get? x = some v := by
  have hnew : s.vars.contains x = false := by simp [IndexMap.contains, hx]
  cases hjoined with
  | empty hempty => simp [hempty] at hslot
  | joined hjoin hwidth herror =>
    rw [ExecutionState.vars_storeStepResult]
    unfold joinBranches
    refine foldl_joinBranch_new hnew (fun branch hb w hw => ?_) (.inr ⟨_, ?_, hv⟩)
    · obtain ⟨slot', steps', hslot', -, rfl⟩ := mem_branchOutcomes.mp hb
      exact hagree slot' steps' w hslot' hw
    · exact mem_branchOutcomes.mpr ⟨slot, steps, hslot, nonempty_of_introduced hx hv, rfl⟩

/-- A variable that was there keeps its value. -/
theorem parallel_vars_kept {x : String} {v : Value} {ok : Bool}
    (hjoined : ParallelEnd host (runStepTo host depth) step s ok s')
    (hx : s.vars.get? x = some v) : s'.vars.get? x = some v := by
  have hold : s.vars.contains x = true := by simp [IndexMap.contains, hx]
  cases hjoined with
  | empty hempty => rw [ExecutionState.vars_storeStepResult, hx]
  | joined hjoin hwidth herror =>
    rw [ExecutionState.vars_storeStepResult]
    unfold joinBranches
    rw [foldl_joinBranch_kept hold, hx]

/-- When the branches of an accepted `parallel` step all succeed without a `return`, the join is
complete and independent of their order exactly if nothing that they left hides anything else. -/
theorem parallel_join_iff (hprepare : prepare setup k ns source kernelOwned = .ok p)
    (hentry : (name, entry) ∈ p.planned) (hnested : Nested entry.action.steps step)
    (hkind : step.kind = .parallel) (hrun : runStepTo host (depth + 1) step idx s = .ok true s')
    (hreturn : s'.returnSignal = none) :
    JoinComplete host (runStepTo host depth) step s s' ↔
      NothingHidden host (runStepTo host depth) step s := by
  have honly : ∀ {slot steps inner}, (branchSteps step)[slot]? = some steps →
      Nested steps inner → OnlyInBranch step slot inner.id := fun hslot hinner =>
    (prepare_ok hprepare).onlyInBranch hentry hnested hkind hslot hinner
  obtain ⟨hparallel, hviolation⟩ := runStepTo_parallel hkind hrun
  have hjoined := runParallel_end hparallel
  have hall := results_joinBranches (branches_settled rfl hjoined hreturn)
  have hresult : ∀ {slot steps inner v}, (branchSteps step)[slot]? = some steps →
      Nested steps inner → (runBranch host (runStepTo host depth) s slot
        steps).state.stepResults.get? inner.id = some v →
      (s'.stepResults.get? inner.id = some v ↔
        if inner.id = step.id then v = .array (branchResults host (runStepTo host depth) step s)
        else s.stepResults.get? inner.id = none ∨ s.stepResults.get? inner.id = some v) := by
    intro slot steps inner v hslot hinner hv
    rw [parallel_result_iff hkind hrun hslot (honly hslot hinner) hv, hall]
  constructor
  · intro h
    refine ⟨fun slot steps inner v hslot hinner hv =>
      (hresult hslot hinner hv).mp (h.results slot steps inner v hslot hinner hv), ?_⟩
    intro x hx slot steps slot' steps' v v' hslot hslot' hv hv'
    have hthere := h.introduced slot steps x v hslot hx hv
    rw [h.introduced slot' steps' x v' hslot' hx hv'] at hthere
    exact (Option.some.inj hthere).symm
  · intro h
    refine ⟨fun slot steps inner v hslot hinner hv =>
      (hresult hslot hinner hv).mpr (h.results slot steps inner v hslot hinner hv),
      parallel_own rfl hjoined hviolation hreturn, ?_, fun x v => parallel_vars_kept hjoined, ?_⟩
    · intro slot steps x v hslot hx hv
      refine parallel_vars_new hjoined hx hslot hv fun slot' steps' w hslot' hw => ?_
      exact h.agreed x hx slot' steps' slot steps w v hslot' hslot hw hv
    · intro order horder
      rw [runParallelIn_eq horder, hparallel]

end Main

/-! ### An id that is used outside the branches too -/

def labelLet (id text : String) : Value :=
  .object [("id", .string id), ("type", .string "let"),
    ("params", .object [("value", .string text)])]

/-- One branch, whose step has the id `b`. -/
def labelFork (b : String) : StepDef :=
  .new "fork" "parallel" (.object [("branches", .array [.array [labelLet b "new"]])])

/-- The body of the first step has run a step `a` when the branches start. -/
def forkSteps (b : String) : List StepDef :=
  [.new "first" "ifs" (.object [("ifs", .array [.object [
    ("then", .array [labelLet "a" "old"])]])]), labelFork b]

def forkManifest (b : String) : PluginManifest :=
  { plainManifest "labels" with
    actions := IndexMap.empty.insert "run" (plainAction (forkSteps b)) }

def forkSetup : Setup := textSetup [("kernel", plainManifest "kernel")] []

def forkEntry (b : String) : ActionRegistration :=
  ⟨plainAction (forkSteps b), ⟨[[0, 1]], [[], []], [[], []]⟩⟩

def forkHost : Host := quietHost Binary64.display

/-- The states that the `parallel` step is called in. -/
def forkCalls (b : String) : List ExecutionState :=
  (actionTrace forkHost (forkEntry b).action.toAction (forkEntry b).plan
    (.new "labels" (forkEntry b).action.toAction .null .null .null none ⟨1000000, 64⟩)).filterMap fun
      | .dispatched step 1 s => if step = labelFork b then some s else none
      | _ => none

theorem fork_accepted (b : String) (h : b = "a" ∨ b = "b") :
    ∃ k p, Kernel.boot forkSetup "kernel" = .ok k ∧
      prepare forkSetup k "" (forkManifest b) false = .ok p ∧ ("run", forkEntry b) ∈ p.planned := by
  rcases h with rfl | rfl
  · exact ⟨_, _, rfl, rfl, by decide⟩
  · exact ⟨_, _, rfl, rfl, by decide⟩

theorem fork_dispatched {b : String} {s : ExecutionState} (h : s ∈ forkCalls b) :
    ∃ s₀, .dispatched (labelFork b) 1 s ∈
      actionTrace forkHost (forkEntry b).action.toAction (forkEntry b).plan s₀ := by
  obtain ⟨e, he, hs⟩ := List.mem_filterMap.mp h
  split at hs
  · rename_i step t
    by_cases hstep : step = labelFork b
    · rw [if_pos hstep] at hs
      cases hs
      exact ⟨_, hstep ▸ he⟩
    · rw [if_neg hstep] at hs
      cases hs
  · cases hs

/-- The `parallel` step succeeds and leaves a result under `a`. -/
def forkLeaves (b : String) (v : Value) (s : ExecutionState) : Bool :=
  match runStep forkHost (labelFork b) 1 s with
  | .ok true s' => s'.returnSignal.isNone && decide (s'.stepResults.get? "a" = some v)
  | _ => false

theorem forkLeaves_ran {b : String} {v : Value} {s : ExecutionState} (h : forkLeaves b v s = true) :
    ∃ s', runStep forkHost (labelFork b) 1 s = .ok true s' ∧ s'.returnSignal = none ∧
      s'.stepResults.get? "a" = some v := by
  unfold forkLeaves at h
  split at h
  · rename_i s' hran
    rw [Bool.and_eq_true, decide_eq_true_eq, Option.isNone_iff_eq_none] at h
    exact ⟨s', hran, h⟩
  · cases h

/-- What the branch leaves under its step's id. -/
def branchLeaves (b : String) (s : ExecutionState) : Option Value :=
  (runBranch forkHost (runStepTo forkHost (labelFork b).params.depth) s 0
    ((branchSteps (labelFork b)).getD 0 [])).state.stepResults.get? b

/-- The step is called outside any loop; its branch leaves the new result, and what stands under `a`
in the end is the old one. -/
theorem fork_called (b : String) (h : b = "a" ∨ b = "b") : ∃ s ∈ forkCalls b,
    s.foreachStack = [] ∧ branchLeaves b s = some (.string "new") ∧
      forkLeaves b (.string "old") s = true := by
  have hcalls : ∀ b ∈ ["a", "b"], (forkCalls b).any (fun s => s.foreachStack.isEmpty &&
      (decide (branchLeaves b s = some (.string "new")) && forkLeaves b (.string "old") s)) =
        true := by decide +kernel
  obtain ⟨s, hs, hboth⟩ := List.any_eq_true.mp (hcalls b (by simpa using h))
  rw [Bool.and_eq_true, Bool.and_eq_true, List.isEmpty_iff, decide_eq_true_eq] at hboth
  exact ⟨s, hs, hboth⟩

/-- Where the branch's step is an `a` as well, the branch's own result is lost. -/
theorem branch_result_hidden : ¬∀ (setup : Setup) (k : Kernel) (ns : String)
    (source : PluginManifest) (kernelOwned : Bool) (p : Prepared),
    prepare setup k ns source kernelOwned = .ok p → ∀ name entry, (name, entry) ∈ p.planned →
      ∀ host step idx s₀ s s', .dispatched step idx s ∈
          actionTrace host entry.action.toAction entry.plan s₀ →
        step.kind = .parallel → s.foreachStack = [] → runStep host step idx s = .ok true s' →
          s'.returnSignal = none →
            JoinComplete host (runStepTo host step.params.depth) step s s' := by
  intro hall
  obtain ⟨k, p, -, hp, hplanned⟩ := fork_accepted "a" (.inl rfl)
  obtain ⟨s, hs, hstack, hnew, hleaves⟩ := fork_called "a" (.inl rfl)
  obtain ⟨s₀, hcalled⟩ := fork_dispatched hs
  obtain ⟨s', hran, hreturn, hold⟩ := forkLeaves_ran hleaves
  have hjoin := hall _ _ _ _ _ _ hp _ _ hplanned _ _ _ _ _ _ hcalled (by decide)
    hstack hran hreturn
  have hslot : (branchSteps (labelFork "a"))[0]? =
      some ((branchSteps (labelFork "a")).getD 0 []) := rfl
  have hinner : Nested ((branchSteps (labelFork "a")).getD 0 [])
      (.new "a" "let" (.object [("value", .string "new")])) := .top (by decide)
  have hkept := hjoin.results 0 _ _ _ hslot hinner hnew
  rw [show (StepDef.new "a" "let" (.object [("value", .string "new")])).id = "a" from rfl,
    hold] at hkept
  revert hkept
  decide

/-- With an id of its own the step's result is joined. -/
theorem branch_result_joined : ∃ s s', s ∈ forkCalls "b" ∧
    runStep forkHost (labelFork "b") 1 s = .ok true s' ∧
      (JoinComplete forkHost (runStepTo forkHost (labelFork "b").params.depth) (labelFork "b") s s' ↔
        NothingHidden forkHost (runStepTo forkHost (labelFork "b").params.depth) (labelFork "b")
          s) := by
  obtain ⟨k, p, -, hp, hplanned⟩ := fork_accepted "b" (.inr rfl)
  obtain ⟨s, hs, -, -, hleaves⟩ := fork_called "b" (.inr rfl)
  obtain ⟨s', hran, hreturn, -⟩ := forkLeaves_ran hleaves
  exact ⟨s, s', hs, hran, parallel_join_iff hp hplanned (.top (by decide)) (by decide) hran hreturn⟩

end Gwead
