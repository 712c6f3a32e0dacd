import Gwead.FailedLeaf
import Gwead.FrameRestored

/-!
# What an iteration finds of the one before

At the top of each iteration a loop clears what the steps of its body left.  It clears the steps the
body lists, and not those nested in them: what a step inside an `ifs`, a `try`, a `parallel` or an
inner loop left stays.  So an iteration starts clean where no such step stored anything in the
iterations before it.
-/

namespace Gwead

open Program

/-- No step written in a body, at any depth, has a result or metadata. -/
def Cleared (body : List StepDef) (s : ExecutionState) : Prop :=
  ∀ inner, Nested body inner →
    s.stepResults.get? inner.id = none ∧ s.stepMetadata.get? inner.id = none

/-- No step nested below the steps a body lists has left anything under an id of its own. -/
def NestedClear (body : List StepDef) (s : ExecutionState) : Prop :=
  ∀ inner, Nested body inner → (∀ own ∈ body, own.id ≠ inner.id) →
    s.stepResults.get? inner.id = none ∧ s.stepMetadata.get? inner.id = none

/-- Clearing removes what is under the ids of a list of steps. -/
theorem get?_forget (s : ExecutionState) (steps : List StepDef) (b : String) :
    (s.forget steps).stepResults.get? b =
        (if ∃ own ∈ steps, own.id = b then none else s.stepResults.get? b) ∧
      (s.forget steps).stepMetadata.get? b =
        if ∃ own ∈ steps, own.id = b then none else s.stepMetadata.get? b := by
  unfold ExecutionState.forget
  induction steps generalizing s with
  | nil => simp
  | cons step rest ih =>
    rw [List.foldl_cons, (ih _).1, (ih _).2]
    by_cases hrest : ∃ own ∈ rest, own.id = b
    · have hany : ∃ own ∈ step :: rest, own.id = b := by
        obtain ⟨own, hown, heq⟩ := hrest
        exact ⟨own, List.mem_cons_of_mem _ hown, heq⟩
      simp only [if_pos hrest, if_pos hany, and_self]
    · simp only [if_neg hrest]
      by_cases hstep : step.id = b
      · have hany : ∃ own ∈ step :: rest, own.id = b := ⟨step, List.mem_cons_self, hstep⟩
        rw [if_pos hany, if_pos hany]
        subst hstep
        exact ⟨s.stepResults.get?_shiftRemove_self _, s.stepMetadata.get?_shiftRemove_self _⟩
      · have hnone : ¬∃ own ∈ step :: rest, own.id = b := by
          rintro ⟨own, hown, heq⟩
          rcases List.mem_cons.mp hown with rfl | hown
          · exact hstep heq
          · exact hrest ⟨own, hown, heq⟩
        simp only [if_neg hnone]
        exact ⟨s.stepResults.get?_shiftRemove_ne (Ne.symm hstep),
          s.stepMetadata.get?_shiftRemove_ne (Ne.symm hstep)⟩

/-- After the clearing nothing is left of a body exactly where nothing of its nested steps was. -/
theorem cleared_forget_iff (body : List StepDef) (s : ExecutionState) :
    Cleared body (s.forget body) ↔ NestedClear body s := by
  refine forall_congr' fun inner => forall_congr' fun hnested => ?_
  rw [(get?_forget s body inner.id).1, (get?_forget s body inner.id).2]
  by_cases hown : ∃ own ∈ body, own.id = inner.id
  · simp only [if_pos hown, and_self, true_iff]
    obtain ⟨own, hmem, heq⟩ := hown
    exact fun hnone => (hnone own hmem heq).elim
  · have hall : ∀ own ∈ body, own.id ≠ inner.id := fun own hmem heq => hown ⟨own, hmem, heq⟩
    simp only [if_neg hown]
    exact ⟨fun h _ => h, fun h => h hall⟩

/-! ### Who stores a result -/

/-- A call stores a result under the id of its step: a leaf step's when its body answers, a
`parallel`'s when it ends without an error, and any other's but an `ifs`'s when it succeeds. -/
def Stores (host : Host) (step : StepDef) (idx : Nat) (s : ExecutionState) : Prop :=
  match step.kind with
  | .leaf => ∃ own body entered output, leafEntry host step idx s = some (own, body, entered) ∧
      (body entered own.params).outcome = .ok output
  | .ifs => False
  | .parallel => ∃ ok s', runStep host step idx s = .ok ok s'
  | _ => ∃ s', runStep host step idx s = .ok true s'

/-- Nothing is held under an id. -/
def Bare (b : String) (s : ExecutionState) : Prop :=
  s.stepResults.get? b = none ∧ s.stepMetadata.get? b = none

section Bare

variable {b : String} {s : ExecutionState}

theorem Bare.of_same {t : ExecutionState} (h : Bare b s) (hresults : t.stepResults = s.stepResults)
    (hmetadata : t.stepMetadata = s.stepMetadata) : Bare b t := by
  rw [Bare, hresults, hmetadata]
  exact h

theorem bare_ofHoldings (b : String) : OfHoldings (Bare b) := fun _ _ hs hsame =>
  hs.of_same (congrArg Holdings.results hsame) (congrArg Holdings.metadata hsame)

theorem Bare.store (h : Bare b s) {id : String} (hne : id ≠ b) (v : Value) :
    Bare b (s.storeStepResult id v) := by
  rw [Bare, get?_store_ne hne, (storeStepResult_rest s id v).1]
  exact h

theorem Bare.forget (h : Bare b s) (steps : List StepDef) : Bare b (s.forget steps) := by
  rw [Bare, (get?_forget s steps b).1, (get?_forget s steps b).2, h.1, h.2]
  simp

theorem Bare.addMetadata (h : Bare b s) {id : String} (hne : id ≠ b)
    (metadata : IndexMap String Value) : Bare b (addMetadata s id metadata) := by
  refine ⟨(stepResults_addMetadata s id metadata).symm ▸ h.1, ?_⟩
  unfold Gwead.addMetadata
  split
  · exact h.2
  · exact (s.stepMetadata.get?_insert_ne hne.symm _).trans h.2

theorem Bare.bindVariable (h : Bare b s) (step : StepDef) : Bare b (bindVariable s step) :=
  h.of_same (stepResults_bindVariable s step) (bindVariable_stepMetadata s step)

theorem stepMetadata_merge (c task : ExecutionState) (takesFailure : Bool) (ids : List String)
    (vars : IndexMap String Value) :
    (mergeParallelBranchState c task takesFailure ids vars).stepMetadata =
      (mergeBranchEntries c task ids).stepMetadata := by
  cases takesFailure <;> exact stepMetadata_setVariables _ _

theorem stepMetadata_stores (s : ExecutionState) (entries : List (String × Value)) :
    (s.storeStepResults entries).stepMetadata = s.stepMetadata := by
  unfold ExecutionState.storeStepResults
  induction entries generalizing s with
  | nil => rfl
  | cons e rest ih => rw [List.foldl_cons, ih, (storeStepResult_rest s e.1 e.2).1]

theorem bare_keptByMerge (b : String) : KeptByMerge (Bare b) := by
  intro c task takesFailure ids vars hc ht
  constructor
  · rw [stepResults_merge, get?_stores_of_notMem, hc.1]
    rintro ⟨k, v⟩ he rfl
    have hheld := (IndexMap.mem_entries_iff _ _ _).mp (List.mem_filter.mp he).1
    rw [ht.1] at hheld
    cases hheld
  · rw [stepMetadata_merge, mergeBranchEntries]
    dsimp only
    rw [stepMetadata_stores, IndexMap.get?_extend_of_notMem, hc.2]
    rintro ⟨k, v⟩ he rfl
    have hheld := (IndexMap.mem_entries_iff _ _ _).mp (List.mem_filter.mp he).1
    rw [ht.2] at hheld
    cases hheld

end Bare

section Run

variable {host : Host} {b : String} {step : StepDef} {idx : Nat} {s s' : ExecutionState} {ok : Bool}

theorem own_of_entry {own : StepDef} {body : StepBody} {entered : ExecutionState}
    (h : leafEntry host step idx s = some (own, body, entered)) :
    s.action.steps[idx]? = some own := by
  unfold leafEntry at h
  dsimp only at h
  split at h
  · rename_i hat
    split at h <;> cases h <;> exact hat
  · cases h

/-- A leaf step leaves an id bare that it does not store under. -/
theorem runLeaf_bare (hat : s.action.steps[idx]? = some step) (hkind : step.kind = .leaf)
    (hnone : step.id = b → ¬Stores host step idx s) (hs : Bare b s)
    (h : runLeaf host step idx s = .ok ok s') : Bare b s' := by
  cases hentry : leafEntry host step idx s with
  | none =>
    have houtputs := outputs_of_no_entry hentry
    rw [h, finalState_ok] at houtputs
    exact hs.of_same (congrArg Outputs.results houtputs) (congrArg Outputs.metadata houtputs)
  | some found =>
    obtain ⟨own, body, entered⟩ := found
    obtain rfl : step = own := Option.some.inj (hat.symm.trans (own_of_entry hentry))
    have hran := answered_of_entry hentry
    have hbare := hs.of_same (congrArg Books.results hran.books) hran.metadata
    rw [runLeaf_of_entry hentry] at h
    cases houtcome : (body entered step.params).outcome with
    | error e =>
      rw [houtcome] at h
      cases h
      cases e <;> exact hbare
    | ok output =>
      have hne : step.id ≠ b := fun hid => hnone hid (by
        rw [Stores, hkind]
        exact ⟨step, body, entered, output, hentry, houtcome⟩)
      have hstored := hbare.store hne output.value
      rw [houtcome] at h
      dsimp only [finishOutput] at h
      split at h
      · cases h
        exact hstored
      · cases h
        exact (hstored.addMetadata hne output.metadata).bindVariable step

/-- A call leaves an id bare when no call below it stores under the id. -/
theorem runStepTo_bare (depth : Nat) (hdepth : step.params.depth < depth) (hheld : Held step idx s)
    (hnone : ∀ pending last j u, Reaches host depth step idx s pending last j u → last.id = b →
      ¬Stores host last j u)
    (hs : Bare b s) (h : runStepTo host depth step idx s = .ok ok s') : Bare b s' := by
  induction depth generalizing step idx s ok s' with
  | zero => cases h
  | succ depth ih =>
    have hset := @Preserved.runStepTo host _ sameSetting_preserved depth
    have hself := hnone false step idx s .self
    have hinner : InnerKept host (runStepTo host depth) step idx s (Bare b) := by
      intro pending inner i t ok t' hmade ht hran
      have hlt := hmade.depth_lt
      refine ih (by omega) ?_ (fun below last j u hreach => ?_) ht hran
      · exact hmade.held hset (fun _ _ _ _ _ hfound hidle hran => runStepTo_frame host _ hfound hidle
          hran) hheld.found hheld.idle
      · exact hnone _ last j u (.inner hmade hreach)
    refine (runStepTo_end h).1.kept hset (bare_ofHoldings b) (bare_keptByMerge b) hs hinner
      (fun _ _ before _ ht => ht.forget (loopBody step)) (fun hkind _ => ?_)
      (fun hleaf hifs hends id hid t v ht => ?_)
    · have hran := (runStepTo_dispatched h).1
      rw [dispatchStep, hkind] at hran
      exact runLeaf_bare hheld.found hkind hself hs hran
    · have hown : id = step.id := by
        rcases hid with rfl | ⟨own, hat, rfl⟩
        · rfl
        · rw [Option.some.inj (hat.symm.trans hheld.found)]
      refine ht.store (fun hb => hself (hown ▸ hb) ?_) v
      have hrun : runStep host step idx s = .ok ok s' := by
        rw [runStep, runStepTo_eq host (Nat.lt_succ_self _) hdepth, h]
      unfold Stores
      cases hkind : step.kind with
      | leaf => exact absurd hkind hleaf
      | ifs => exact absurd hkind hifs
      | parallel => exact ⟨ok, s', hrun⟩
      | _ =>
        obtain rfl | hparallel := hends
        · exact ⟨s', hrun⟩
        · rw [hkind] at hparallel
          cases hparallel

/-- In iteration `k` of a loop a call stores a result under an id that no listed step of its body
has. -/
def NestedStores (host : Host) (step : StepDef) (idx : Nat) (s : ExecutionState) (k : Nat) : Prop :=
  ∃ inner i t pending last j u, IterationCall host (runStep host) step idx s k inner i t ∧
    Reaches host (inner.params.depth + 1) inner i t pending last j u ∧
    (∀ own ∈ loopBody step, own.id ≠ last.id) ∧ Stores host last j u

/-- If nothing is held of the nested steps when a loop begins, and none of them stores a result in
the iterations before, then an iteration starts with nothing left of any step of its body. -/
theorem iterations_cleared (hkind : step.kind = .forEach ∨ step.kind = .repetition)
    (hheld : Held step idx s) (hclear : NestedClear (loopBody step) s) {k : Nat}
    {before : ExecutionState} (hstarts : IterationStarts host (runStep host) step idx s k before)
    (hnone : ∀ k' < k, ¬NestedStores host step idx s k') :
    Cleared (loopBody step) (before.forget (loopBody step)) := by
  rw [cleared_forget_iff]
  intro inner hnested hall
  have hset : ∀ inner i, Respects SameSetting (runStep host inner i) := fun inner =>
    sameSetting_preserved.runStepTo (inner.params.depth + 1) inner
  refine hstarts.kept (J := Bare inner.id) (bare_ofHoldings inner.id) (hclear inner hnested hall)
    (fun _ _ _ _ ht => ht.forget (loopBody step)) (fun k' called i t ok t' hk hmade ht hran => ?_)
  have hcalled := (hmade.direct hkind).held hset
    (fun _ _ _ _ _ hfound hidle hran => runStepTo_frame host _ hfound hidle hran) hheld.found
    hheld.idle
  refine runStepTo_bare _ (Nat.lt_succ_self _) hcalled (fun pending last j u hreach hid hstores => ?_)
    ht hran
  exact hnone k' hk ⟨called, i, t, pending, last, j, u, hmade, hreach, hid ▸ hall, hstores⟩

end Run

/-! ### A body that stops early -/

/-- A list of steps does not get past a first one that never succeeds. -/
theorem StepsReach.of_failing {host : Host} {run : StepDef → Nat → Exec Bool} {first : StepDef}
    {later rest : List StepDef} {idx i : Nat} {s t : ExecutionState}
    (hfails : ∀ i t t', run first i t ≠ .ok true t')
    (h : StepsReach host run (first :: later) idx s rest i t) : rest = first :: later := by
  induction h with
  | start => rfl
  | next before _ hran _ ih =>
    obtain ⟨rfl, -⟩ := List.cons.inj ih
    exact (hfails _ _ _ hran).elim

def workStep : StepDef := .new "work" "throw_error" (.object [])

/-- A `try` that stops at its first step, and swallows the failure. -/
def stoppedBlocks : Value :=
  .object [("catch", .array []), ("try", .array [
    .object [("id", .string "work"), ("type", .string "throw_error")],
    .object [("id", .string "inner"), ("params", .object [("value", .string "late")]),
      ("type", .string "let")]])]

def stoppedGuard : StepDef := .new "guard" "try" stoppedBlocks

def stoppedLoop : StepDef :=
  .new "loop" "for_each" (.object [("path", .string "$input.items"), ("steps", .array [
    .object [("id", .string "guard"), ("params", stoppedBlocks), ("type", .string "try")]])])

theorem loopBody_stopped : loopBody stoppedLoop = [stoppedGuard] := by rfl

theorem work_stores_nothing {j : Nat} {u : ExecutionState} :
    ¬Stores (quietHost Binary64.display) workStep j u := by
  rintro ⟨own, body, entered, output, hentry, houtcome⟩
  have hbody : ((quietHost Binary64.display).resolveStepType workStep.stepType).bind
      (quietHost Binary64.display).bodies = some (stepThrowError Binary64.display) := rfl
  unfold leafEntry at hentry
  rw [hbody] at hentry
  dsimp only at hentry
  split at hentry
  · rename_i hfound _
    cases hfound
    split at hentry <;> cases hentry <;> cases houtcome
  · cases hentry

theorem work_fails {depth j : Nat} {u u' : ExecutionState} :
    runStepTo (quietHost Binary64.display) depth workStep j u ≠ .ok true u' := by
  intro h
  cases depth with
  | zero => cases h
  | succ depth =>
    have hleaf : runLeaf (quietHost Binary64.display) workStep j u = .ok true u' :=
      (runStepTo_dispatched h).1
    have hkey : (quietHost Binary64.display).resolveStepType workStep.stepType =
        some "throw_error" := rfl
    have hbody : (quietHost Binary64.display).bodies "throw_error" =
        some (stepThrowError Binary64.display) := rfl
    simp only [runLeaf, hkey, hbody, dispatchTraitStep] at hleaf
    cases hat : u.action.steps[j]? with
    | none => simp [hat] at hleaf
    | some own =>
      simp only [hat] at hleaf
      cases hleaf

/-- The `try` calls no step but the one that fails. -/
theorem guard_calls {depth idx i : Nat} {s t : ExecutionState} {pending : Bool} {inner : StepDef}
    (h : DirectCall (quietHost Binary64.display) (runStepTo (quietHost Binary64.display) depth)
      stoppedGuard idx s pending inner i t) : inner = workStep := by
  cases h with
  | tried _ hmade =>
    have hblock : ∃ later, StepDef.bodySteps (stoppedGuard.params.get "try") = workStep :: later :=
      ⟨_, rfl⟩
    obtain ⟨later, hblock⟩ := hblock
    rw [hblock] at hmade
    obtain ⟨hreached, -⟩ := hmade
    exact (List.cons.inj (hreached.of_failing fun _ _ _ => work_fails)).1
  | handler _ _ _ hcatch hmade =>
    have hnone : StepDef.bodySteps (stoppedGuard.params.get "catch") = [] := rfl
    rw [← hcatch, hnone] at hmade
    cases StepsCall.mem hmade
  | cleanup _ _ _ hmade =>
    have hnone : StepDef.bodySteps (stoppedGuard.params.get "finally") = [] := rfl
    rw [hnone] at hmade
    cases StepsCall.mem hmade
  | chosen hkind => cases hkind
  | pass hkind => rcases hkind with hkind | hkind <;> cases hkind
  | branch hkind => cases hkind

theorem stopped_stores_nothing (s : ExecutionState) (k : Nat) :
    ¬NestedStores (quietHost Binary64.display) stoppedLoop 0 s k := by
  rintro ⟨inner, i, t, pending, last, j, u, ⟨before, -, hmade⟩, hreach, hall, hstores⟩
  obtain rfl : inner = stoppedGuard := by simpa [loopBody_stopped] using hmade.mem
  cases hreach with
  | self => exact hall stoppedGuard (by rw [loopBody_stopped]; exact List.mem_cons_self) rfl
  | inner hcall hbelow =>
    obtain rfl := guard_calls hcall
    cases hbelow with
    | self => exact work_stores_nothing hstores
    | inner hcall => exact hcall.kind_ne rfl

/-- The first pass of the loop, and the start of the second. -/
theorem stopped_second : ∃ before, IterationStarts (quietHost Binary64.display)
    (runStep (quietHost Binary64.display)) stoppedLoop 0 (itemsState stoppedLoop) 2 before := by
  have hran : returnsWith (fun count s₁ => decide (0 < count) && s₁.loopLen == 2 &&
      returnsWith (fun more t₁ => more &&
        returnsWith (fun ok t' => ok && t'.returnSignal.isNone &&
            returnsWith (fun more _ => more) (hostNextForeach t'))
          (runStep (quietHost Binary64.display) stoppedGuard s₁.action.steps.length
            (t₁.forget (loopBody stoppedLoop)).ticked))
        (hostNextForeach (s₁.spliceSteps (loopBody stoppedLoop))))
      (beginOf (quietHost Binary64.display) stoppedLoop 0 (itemsState stoppedLoop)) = true := by
    decide +kernel
  obtain ⟨count, s₁, hbegin, hran⟩ := exists_of_returnsWith hran
  simp only [Bool.and_eq_true, decide_eq_true_eq, beq_iff_eq] at hran
  obtain ⟨⟨hcount, hlen⟩, hran⟩ := hran
  obtain ⟨more, t₁, hnext, hran⟩ := exists_of_returnsWith hran
  simp only [Bool.and_eq_true] at hran
  obtain ⟨rfl, hran⟩ := hran
  obtain ⟨ok, t', hguard, hran⟩ := exists_of_returnsWith hran
  simp only [Bool.and_eq_true, Option.isNone_iff_eq_none] at hran
  obtain ⟨⟨rfl, hgo⟩, hran⟩ := hran
  obtain ⟨more, before, hagain, rfl⟩ := exists_of_returnsWith hran
  have hbody : StepsEnd (quietHost Binary64.display) (runStep (quietHost Binary64.display))
      (loopBody stoppedLoop) s₁.action.steps.length (t₁.forget (loopBody stoppedLoop)) .completed
      t' := by
    refine ⟨s₁.action.steps.length + 1, ?_⟩
    rw [loopBody_stopped] at hguard ⊢
    exact .next .start rfl hguard hgo
  have hpass : LoopPass (quietHost Binary64.display) (runStep (quietHost Binary64.display))
      stoppedLoop (untilOf stoppedLoop) s₁ 1 ⟨[], 0⟩ t' := by
    unfold LoopPass
    rw [hlen]
    exact .next .start hnext hbody rfl rfl
  exact ⟨before, hbegin, hcount, hpass, hagain, by omega⟩

/-- In each iteration the `try` stops before `inner`, and the second one starts with nothing left of
its steps. -/
theorem iterations_cleared_stopped : ∃ before,
    IterationStarts (quietHost Binary64.display) (runStep (quietHost Binary64.display)) stoppedLoop 0
      (itemsState stoppedLoop) 2 before ∧
    Cleared (loopBody stoppedLoop) (before.forget (loopBody stoppedLoop)) := by
  obtain ⟨before, hstarts⟩ := stopped_second
  exact ⟨before, hstarts, iterations_cleared (Or.inl rfl) ⟨rfl, rfl, rfl⟩ (fun _ _ _ => ⟨rfl, rfl⟩)
    hstarts fun k' _ => stopped_stores_nothing (itemsState stoppedLoop) k'⟩

/-! ### A branch that is not taken again -/

/-- A loop whose body runs a step only for the first item. -/
def onceLoop : StepDef :=
  .new "loop" "for_each" (.object [
    ("path", .string "$input.items"), ("collect", .string "$steps.inner.result"),
    ("steps", .array [.object [("id", .string "choose"), ("type", .string "ifs"),
      ("params", .object [("ifs", .array [.object [
        ("test", .string "$item == 'one'"),
        ("then", .array [.object [("id", .string "inner"), ("type", .string "let"),
          ("params", .object [("value", .string "\x7b\x7b$item\x7d\x7d")])]])]])])]])])

/-- In the second iteration the step does not run, and its result reads as the first one's. -/
theorem untaken_branch_stale :
    storedBy (quietHost Binary64.display) onceLoop (itemsState onceLoop) "loop" =
      some (.array [.string "one", .string "one"]) := by
  decide +kernel

end Gwead
