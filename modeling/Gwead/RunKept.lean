import Gwead.RunCalls
import Gwead.RunObeys
import Gwead.StepCalls
import Gwead.TryResult

/-!
# What a run keeps

A property of the results a state holds, with their metadata and their account, and of whose execution
it is: if every call a step makes keeps it, so does the step.  What is left to show of the step are its
own stores, what it clears as a loop, and what it takes over from its branches.
-/

namespace Gwead

open Program

/-- The part of a state that only a store, a loop's clearing or a join may change. -/
structure Holdings where
  results : IndexMap String Value
  metadata : IndexMap String (IndexMap String Value)
  bytes : Nat
  limits : RuntimeLimits
  pluginName : String
  secrets : Value
  overrides : List (String × Nat)

def ExecutionState.holdings (s : ExecutionState) : Holdings :=
  ⟨s.stepResults, s.stepMetadata, s.stepResultsBytes, s.limits, s.pluginName, s.secrets,
    s.activeFanoutOverrides⟩

/-- A property of that part alone. -/
def OfHoldings (J : ExecutionState → Prop) : Prop :=
  ∀ ⦃s t : ExecutionState⦄, J s → t.holdings = s.holdings → J t

/-- A join that takes over what a branch left keeps the property. -/
def KeptByMerge (J : ExecutionState → Prop) : Prop :=
  ∀ c task takesFailure ids vars, J c → J task →
    J (mergeParallelBranchState c task takesFailure ids vars)

section Iterations

variable (host : Host) (run : StepDef → Nat → Exec Bool) (step : StepDef) (idx : Nat)
  (s : ExecutionState)

/-- Iteration `k` of a loop step is about to clear the results of its body, in a state. -/
inductive IterationStarts (k : Nat) (before : ExecutionState) : Prop
  | mk {count : Int} {m : Nat} {c : Collected} {s₁ t : ExecutionState}
      (hbegin : beginOf host step idx s = .ok count s₁) (hcount : 0 < count)
      (hpass : LoopPass host run step (untilOf step) s₁ (m + 1) c t)
      (hnext : hostNextForeach t = .ok true before) (hk : k + m = s₁.loopLen) :
      IterationStarts k before

/-- A call that the body of iteration `k` makes. -/
def IterationCall (k : Nat) (inner : StepDef) (i : Nat) (t : ExecutionState) : Prop :=
  ∃ before, IterationStarts host run step idx s k before ∧
    StepsCall host run (loopBody step) s.action.steps.length (before.forget (loopBody step)) inner
      i t

/-- What every call of the step comes to. -/
def InnerKept (J : ExecutionState → Prop) : Prop :=
  ∀ pending inner i t ok t', DirectCall host run step idx s pending inner i t → J t →
    run inner i t = .ok ok t' → J t'

/-- An id a step may store under when it is over: its own, or the one its index names. -/
def OwnId (id : String) : Prop :=
  id = step.id ∨ ∃ own, s.action.steps[idx]? = some own ∧ id = own.id

end Iterations

/-- The chosen body is the `then` of a branch, or there is none. -/
theorem chosen_mem {branches : List Value} {steps : List StepDef} {s s' : ExecutionState}
    (h : chooseBranch branches s = .ok steps s') :
    ∀ inner ∈ steps, ∃ branch ∈ branches, inner ∈ StepDef.bodySteps (branch.get "then") := by
  induction branches generalizing s with
  | nil =>
    cases h
    exact List.forall_mem_nil _
  | cons branch rest ih =>
    obtain ⟨matched, t, hmatched, hrest⟩ := bind_ok.mp h
    split at hrest
    · cases hrest
      exact fun inner hin => ⟨branch, List.mem_cons_self, hin⟩
    · intro inner hin
      obtain ⟨b, hb, hin⟩ := ih hrest inner hin
      exact ⟨b, List.mem_cons_of_mem _ hb, hin⟩

section Calls

variable {host : Host} {run : StepDef → Nat → Exec Bool} {step inner : StepDef} {idx i : Nat}
  {s t : ExecutionState}

/-- The steps a step calls are those it splices in. -/
theorem DirectCall.splices {pending : Bool} (h : DirectCall host run step idx s pending inner i t) :
    Splices step inner := by
  cases h with
  | tried hkind hmade => exact .guarded hkind (by decide) (StepsCall.mem hmade)
  | handler hkind _ _ hcatch hmade =>
    exact @Splices.guarded step inner "catch" hkind (by decide) (hcatch ▸ StepsCall.mem hmade)
  | cleanup hkind _ _ hmade => exact .guarded hkind (by decide) (StepsCall.mem hmade)
  | chosen hkind hbranches hchoose hmade =>
    obtain ⟨branch, hbranch, hin⟩ := chosen_mem hchoose inner (StepsCall.mem hmade)
    exact .chosen hkind hbranches hbranch hin
  | pass hkind _ _ _ _ hmade => exact .loop hkind hmade.mem
  | branch hkind hslot _ hmade => exact .parallel hkind (List.mem_of_getElem? hslot) hmade.mem

theorem DirectCall.depth_lt {pending : Bool}
    (h : DirectCall host run step idx s pending inner i t) :
    inner.params.depth < step.params.depth := by
  obtain ⟨bodies, hbodies, body, hbody, hin⟩ := h.splices.mem_body
  obtain ⟨v, hv, hparsed⟩ := List.mem_filterMap.mp hin
  exact (depth_fromInnerValue hparsed).trans_lt (depth_stepBodies hbodies hbody hv)

/-- Each step is called where it was spliced in. -/
theorem DirectCall.located (hset : ∀ inner i, Respects SameSetting (run inner i)) {pending : Bool}
    (h : DirectCall host run step idx s pending inner i t) : t.action.steps[i]? = some inner := by
  cases h with
  | tried hkind hmade => exact (StepsCall.located hset (spliced_splice s _) hmade).1
  | @handler _ _ _ s₁ _ hkind hblock hgo hcatch hmade =>
    exact (StepsCall.located hset (spliced_splice (s₁.handling step) _) hmade).1
  | @cleanup _ _ _ s₁ _ hkind hbefore hgo hmade =>
    exact (StepsCall.located hset (spliced_splice s₁ _) hmade).1
  | chosen hkind hbranches hchoose hmade =>
    exact (StepsCall.located hset (spliced_splice s _) hmade).1
  | @pass _ _ _ _ _ s₁ t t₁ _ hkind hbegin hcount hpass hnext hmade =>
    refine (hmade.located hset ((spliced_splice s₁ (loopBody step)).of_action ?_)).1
    rw [action_forget, action_hostNextForeach hnext, PassReach.action hset hpass]
  | @branch slot _ _ _ _ hkind hslot hwidth hmade =>
    exact (StepsCall.located hset (spliced_splice (s.fork slot) _) hmade).1

theorem action_beginOf {count : Int} (h : beginOf host step idx s = .ok count t)
    (hcount : 0 ≤ count) : t.action = s.action := by
  obtain ⟨-, -, rfl⟩ | ⟨items, rfl⟩ := beginOf_ok h hcount <;> rfl

/-- What an iteration calls, its loop calls. -/
theorem IterationCall.direct (hkind : step.kind = .forEach ∨ step.kind = .repetition) {k : Nat}
    (h : IterationCall host run step idx s k inner i t) :
    DirectCall host run step idx s false inner i t := by
  obtain ⟨before, ⟨hbegin, hcount, hpass, hnext, -⟩, hmade⟩ := h
  refine .pass hkind hbegin hcount hpass hnext ?_
  rwa [action_beginOf hbegin (Int.le_of_lt hcount)]

end Calls

section Constructs

variable {J : ExecutionState → Prop} {host : Host} {run : StepDef → Nat → Exec Bool}
  {steps : List StepDef} {idx : Nat} {step : StepDef} {s s' : ExecutionState} {ok : Bool}

section Lists

variable (hof : OfHoldings J) (hs : J s)
  (hcall : ∀ inner i t ok t', StepsCall host run steps idx s inner i t → J t →
    run inner i t = .ok ok t' → J t')
include hof hs hcall

theorem StepsReach.kept {rest : List StepDef} {i : Nat} {t : ExecutionState}
    (h : StepsReach host run steps idx s rest i t) : J t := by
  induction h with
  | start => exact hs
  | next before hpoll hran _ ih =>
    exact hcall _ _ _ _ _ (.mk before hpoll) (hof ih rfl) hran

theorem StepsCall.kept {inner : StepDef} {i : Nat} {t : ExecutionState}
    (h : StepsCall host run steps idx s inner i t) : J t := by
  cases h with
  | mk before hpoll => exact hof (before.kept hof hs hcall) rfl

theorem StepsEnd.kept {ended : BodyEnd} (h : StepsEnd host run steps idx s ended s') : J s' := by
  cases ended with
  | completed =>
    obtain ⟨i, hreach⟩ := h
    exact hreach.kept hof hs hcall
  | returned =>
    obtain ⟨inner, i, t, hmade, hran, -⟩ := h
    exact hcall inner i t true s' hmade (hmade.kept hof hs hcall) hran
  | failed =>
    obtain ⟨inner, i, t, hmade, hran, -⟩ := h
    exact hcall inner i t false s' hmade (hmade.kept hof hs hcall) hran

end Lists

section Blocks

variable (hof : OfHoldings J) (hs : J s)
  (hcall : ∀ inner i t ok t', BlockCall host run steps s inner i t → J t →
    run inner i t = .ok ok t' → J t')
include hof hs hcall

theorem BlockCall.kept {inner : StepDef} {i : Nat} {t : ExecutionState}
    (h : BlockCall host run steps s inner i t) : J t :=
  StepsCall.kept hof (show J (s.spliceSteps steps) from hof hs rfl) hcall h

theorem BlockEnd.kept {ended : BodyEnd} (h : BlockEnd host run steps s ended s') : J s' := by
  obtain ⟨t, hsteps, rfl⟩ := h
  have hstart : J (s.spliceSteps steps) := hof hs rfl
  exact hof (hsteps.kept hof hstart hcall) rfl

end Blocks

/-! ### `try`, `ifs` and `parallel` -/

theorem FinallyFrom.kept (hof : OfHoldings J) (hkind : step.kind = .guarded) (hs : J s)
    (hcall : InnerKept host run step idx s J) {pending : Bool}
    (h : FinallyFrom host run step s pending s') : J s' := by
  have htry := fun inner i t ok t' hmade => hcall false inner i t ok t' (.tried hkind hmade)
  cases h with
  | succeeded hblock hgo => exact hblock.kept hof hs htry
  | @failed t _ pending hblock hgo hcatch =>
    have ht : J t := hblock.kept hof hs htry
    cases hcatch with
    | unhandled => exact ht
    | swallowed => exact hof ht rfl
    | @handled body ended u hbody hhandlers =>
      have hstart : J (t.handling step) := hof ht rfl
      have hdone : J u := hhandlers.kept hof hstart fun inner i v ok v' hmade =>
        hcall false inner i v ok v' (.handler hkind hblock hgo hbody hmade)
      exact hof hdone rfl

theorem CleanupEnd.kept (hof : OfHoldings J) (hkind : step.kind = .guarded)
    (hcall : InnerKept host run step idx s J) {pending : Bool} {t : ExecutionState}
    (hbefore : FinallyFrom host run step s pending t) (ht : J t)
    (h : CleanupEnd host run step t s') : J s' := by
  cases h with
  | skipped hsignal => exact ht
  | ended hgo hok hblock =>
    exact hblock.kept hof ht fun inner i u ok u' hmade =>
      hcall pending inner i u ok u' (.cleanup hkind hbefore hgo hmade)

theorem TryEnd.kept (hof : OfHoldings J) (hkind : step.kind = .guarded) (hs : J s)
    (hcall : InnerKept host run step idx s J)
    (hstore : ok = true → ∀ t v, J t → J (t.storeStepResult step.id v))
    (h : TryEnd host run step s ok s') : J s' := by
  cases h with
  | returned hblock hsignal =>
    exact hblock.kept hof hs fun inner i t ok t' hmade =>
      hcall false inner i t ok t' (.tried hkind hmade)
  | @superseded pending t _ hbefore hgo hblock =>
    exact hblock.kept hof (hbefore.kept hof hkind hs hcall) fun inner i u ok u' hmade =>
      hcall pending inner i u ok u' (.cleanup hkind hbefore hgo hmade)
  | unrecovered hbefore hcleanup =>
    exact hcleanup.kept hof hkind hcall hbefore (hbefore.kept hof hkind hs hcall)
  | stored hbefore hcleanup =>
    exact hstore rfl _ _ (hcleanup.kept hof hkind hcall hbefore (hbefore.kept hof hkind hs hcall))

theorem IfsEnd.kept (hof : OfHoldings J) (hkind : step.kind = .ifs) (hs : J s)
    (hcall : InnerKept host run step idx s J) (h : IfsEnd host run step s ok s') : J s' := by
  cases h with
  | absent habsent => exact hs
  | chosen hbranches hchoose hblock =>
    exact hblock.kept hof hs fun inner i t ok t' hmade =>
      hcall false inner i t ok t' (.chosen hkind hbranches hchoose hmade)

theorem ParallelEnd.kept (hof : OfHoldings J) (hmerge : KeptByMerge J)
    (hkind : step.kind = .parallel) (hs : J s) (hcall : InnerKept host run step idx s J)
    (hstore : ∀ t v, J t → J (t.storeStepResult step.id v))
    (h : ParallelEnd host run step s ok s') : J s' := by
  cases h with
  | empty hempty => exact hstore _ _ hs
  | joined hjoin hwidth herror =>
    refine hstore _ _ ?_
    refine joinBranches_keeps (P := fun join => J join.state) (hof hs rfl)
      (fun _ h => h) (fun join slot steps hslot hnone hJ => ?_) herror
    obtain ⟨ended, hended, -⟩ := runBranch_end hnone
    have hforked : J ((s.fork slot).spliceSteps steps) := hof hs rfl
    exact hmerge _ _ _ _ _ hJ (hended.kept hof hforked fun inner i t ok t' hmade =>
      hcall false inner i t ok t' (.branch hkind hslot hwidth hmade))

/-! ### Loops -/

theorem keptByNext {more : Bool} (hof : OfHoldings J) (hs : J s)
    (h : hostNextForeach s = .ok more s') : J s' := by
  obtain ⟨-, -, rfl⟩ | ⟨frame, frame', outer, -, rfl⟩ := hostNextForeach_ok h
  · exact hs
  · exact hof hs rfl

theorem keptByBegin {count : Int} (hof : OfHoldings J) (hs : J s)
    (h : beginOf host step idx s = .ok count s') (hcount : 0 ≤ count) : J s' := by
  obtain ⟨-, -, rfl⟩ | ⟨items, rfl⟩ := beginOf_ok h hcount
  · exact hs
  · exact hof hs rfl

/-- The passes before one, each from its clearing on. -/
theorem PassReach.kept {offset : Nat} {untilExpr collectExpr : Option String} {n m : Nat}
    {acc c : Collected} {t : ExecutionState} (hof : OfHoldings J) (hs : J s)
    (h : PassReach host run steps offset untilExpr collectExpr n acc s m c t)
    (hpass : ∀ m' c t t₁, m ≤ m' →
      PassReach host run steps offset untilExpr collectExpr n acc s (m' + 1) c t →
      hostNextForeach t = .ok true t₁ →
        (J t₁ → J (t₁.forget steps)) ∧
          ∀ inner i u ok u', StepsCall host run steps offset (t₁.forget steps) inner i u → J u →
            run inner i u = .ok ok u' → J u') : J t := by
  induction h with
  | start => exact hs
  | @next m c c' t t₁ t' before hnext hbody _ _ ih =>
    obtain ⟨hclear, hcall⟩ := hpass m c t t₁ (Nat.le_refl m) before hnext
    have ht := ih fun m' c t t₁ hle => hpass m' c t t₁ (by omega)
    exact hbody.kept hof (hclear (keptByNext hof ht hnext)) hcall

/-- The passes left when a loop gets somewhere are some of those it began with. -/
theorem PassReach.left_le {offset : Nat} {untilExpr collectExpr : Option String} {n m : Nat}
    {acc c : Collected} {t : ExecutionState}
    (h : PassReach host run steps offset untilExpr collectExpr n acc s m c t) : m ≤ n := by
  induction h with
  | start => exact Nat.le_refl _
  | next _ _ _ _ _ ih => omega

/-- A pass that a loop reaches is one of its iterations. -/
theorem IterationStarts.of_pass {count : Int} {m : Nat} {c : Collected} {s₁ t t₁ : ExecutionState}
    (hbegin : beginOf host step idx s = .ok count s₁) (hcount : 0 < count)
    (hpass : LoopPass host run step (untilOf step) s₁ (m + 1) c t)
    (hnext : hostNextForeach t = .ok true t₁) :
    IterationStarts host run step idx s (s₁.loopLen - m) t₁ := by
  have hle : m + 1 ≤ s₁.loopLen := hpass.left_le
  exact ⟨hbegin, hcount, hpass, hnext, by omega⟩

/-- An iteration starts with what every iteration before it kept. -/
theorem IterationStarts.kept {k : Nat} {before : ExecutionState} (hof : OfHoldings J) (hs : J s)
    (h : IterationStarts host run step idx s k before)
    (hclear : ∀ k' before', k' < k → IterationStarts host run step idx s k' before' →
      J before' → J (before'.forget (loopBody step)))
    (hcall : ∀ k' inner i t ok t', k' < k → IterationCall host run step idx s k' inner i t → J t →
      run inner i t = .ok ok t' → J t') : J before := by
  obtain ⟨hbegin, hcount, hpass, hnext, hk⟩ := h
  rename_i count m c s₁ t
  have hstart : J (s₁.spliceSteps (loopBody step)) :=
    hof (keptByBegin hof hs hbegin (Int.le_of_lt hcount)) rfl
  refine keptByNext hof (PassReach.kept hof hstart hpass fun m' c' t' t₁ hm hpass' hnext' => ?_) hnext
  have hearlier : IterationStarts host run step idx s (s₁.loopLen - m') t₁ :=
    .of_pass hbegin hcount hpass' hnext'
  have hle : m' + 1 ≤ s₁.loopLen := hpass'.left_le
  refine ⟨hclear _ t₁ (by omega) hearlier, fun inner i u ok u' hmade => ?_⟩
  refine hcall _ inner i u ok u' (by omega) ⟨t₁, hearlier, ?_⟩
  rwa [← action_beginOf hbegin (Int.le_of_lt hcount)]

theorem PassesEnd.kept {offset : Nat} {untilExpr collectExpr : Option String} {n : Nat}
    {acc : Collected} (hof : OfHoldings J) (hs : J s)
    (h : PassesEnd host run steps offset untilExpr collectExpr n acc s ok s')
    (hpass : ∀ m c t t₁,
      PassReach host run steps offset untilExpr collectExpr n acc s (m + 1) c t →
      hostNextForeach t = .ok true t₁ →
        (J t₁ → J (t₁.forget steps)) ∧
          ∀ inner i u ok u', StepsCall host run steps offset (t₁.forget steps) inner i u → J u →
            run inner i u = .ok ok u' → J u') : J s' := by
  cases h with
  | exhausted before hnext =>
    exact keptByNext hof (before.kept hof hs fun m c t t₁ _ => hpass m c t t₁) hnext
  | @broken m c t t₁ _ ended before hnext hbody =>
    obtain ⟨hclear, hcall⟩ := hpass m c t t₁ before hnext
    have ht := before.kept hof hs fun m c t t₁ _ => hpass m c t t₁
    exact hbody.kept hof (hclear (keptByNext hof ht hnext)) hcall

theorem loopFinished_kept (hof : OfHoldings J) (hs : J s)
    (hstore : ∀ id, OwnId step idx s id → ∀ t v, J t → J (t.storeStepResult id v))
    (collected : Option (List Value)) : J (loopFinished step idx collected s) := by
  have hend : J (endForeach idx s) := by
    unfold endForeach
    split
    · exact hs
    · rename_i own hat
      split
      · exact hs
      · exact hstore own.id (Or.inr ⟨own, hat, rfl⟩) _ _ (hof hs rfl)
  cases collected with
  | none => exact hend
  | some values => exact hstore step.id (Or.inl rfl) _ _ hend

theorem LoopEnd.kept (hset : ∀ inner i, Respects SameSetting (run inner i)) (hof : OfHoldings J)
    (hkind : step.kind = .forEach ∨ step.kind = .repetition) (hs : J s)
    (hclear : ∀ k before, IterationStarts host run step idx s k before → J before →
      J (before.forget (loopBody step)))
    (hcall : InnerKept host run step idx s J)
    (hstore : ok = true → ∀ id, OwnId step idx s id → ∀ t v, J t → J (t.storeStepResult id v))
    (h : LoopEnd host run step idx (untilOf step) (beginOf host step) s ok s') : J s' := by
  have hpasses : ∀ {count : Int} {s₁ t : ExecutionState} {ok : Bool},
      beginOf host step idx s = .ok count s₁ → 0 < count →
        LoopPassesEnd host run step (untilOf step) s₁ ok t → J t := by
    intro count s₁ t ok hbegin hcount hended
    have hstart : J (s₁.spliceSteps (loopBody step)) :=
      hof (keptByBegin hof hs hbegin (Int.le_of_lt hcount)) rfl
    refine PassesEnd.kept hof hstart hended fun m c u u₁ hreach hnext => ?_
    exact ⟨hclear _ u₁ (.of_pass hbegin hcount hreach hnext), fun inner i v ok v' hmade =>
      hcall false inner i v ok v' (.pass hkind hbegin hcount hreach hnext hmade)⟩
  cases h with
  | failed hbegin hcount hended => exact hof (hpasses hbegin hcount hended) rfl
  | @ended count s₁ t collected hbegin hcount hended =>
    have hcut : J (t.truncateSteps s₁.action.steps.length) :=
      hof (hpasses hbegin hcount hended) rfl
    have haction : (t.truncateSteps s₁.action.steps.length).action = s.action :=
      (ExecutionState.truncate_splice (hended.action hset)).trans
        (action_beginOf hbegin (Int.le_of_lt hcount))
    exact loopFinished_kept hof hcut (fun id hid => hstore rfl id (by rwa [OwnId, ← haction])) _
  | empty collected hbegin =>
    have haction := action_beginOf hbegin (Int.le_refl 0)
    exact loopFinished_kept hof (keptByBegin hof hs hbegin (Int.le_refl 0))
      (fun id hid => hstore rfl id (by rwa [OwnId, ← haction])) _

/-! ### `run_step` -/

theorem StepEnd.kept (hset : ∀ inner i, Respects SameSetting (run inner i)) (hof : OfHoldings J)
    (hmerge : KeptByMerge J) (hs : J s) (hcall : InnerKept host run step idx s J)
    (hclear : step.kind = .forEach ∨ step.kind = .repetition → ∀ k before,
      IterationStarts host run step idx s k before → J before →
        J (before.forget (loopBody step)))
    (hleaf : step.kind = .leaf → LeafEnd host idx s ok s' → J s')
    (hstore : step.kind ≠ .leaf → step.kind ≠ .ifs → (ok = true ∨ step.kind = .parallel) →
      ∀ id, OwnId step idx s id → ∀ t v, J t → J (t.storeStepResult id v))
    (h : StepEnd host run step idx s ok s') : J s' := by
  cases h with
  | loop hkind h =>
    refine h.kept hset hof hkind hs (hclear hkind) hcall fun hok => ?_
    refine hstore ?_ ?_ (Or.inl hok) <;> rcases hkind with hkind | hkind <;> simp [hkind]
  | ifs hkind h => exact h.kept hof hkind hs hcall
  | returning value hkind =>
    have hstored := hstore (by simp [hkind]) (by simp [hkind]) (Or.inl rfl) step.id (Or.inl rfl) s
      value hs
    exact hof hstored rfl
  | guarded hkind h =>
    exact h.kept hof hkind hs hcall fun hok =>
      hstore (by simp [hkind]) (by simp [hkind]) (Or.inl hok) step.id (Or.inl rfl)
  | parallel hkind h =>
    exact h.kept hof hmerge hkind hs hcall
      (hstore (by simp [hkind]) (by simp [hkind]) (Or.inr hkind) step.id (Or.inl rfl))
  | leaf hkind h => exact hleaf hkind h

/-- A call that a step makes finds what the calls before it kept. -/
theorem DirectCall.kept (hof : OfHoldings J) (hs : J s) (hcall : InnerKept host run step idx s J)
    (hclear : step.kind = .forEach ∨ step.kind = .repetition → ∀ k before,
      IterationStarts host run step idx s k before → J before →
        J (before.forget (loopBody step)))
    {pending : Bool} {inner : StepDef} {i : Nat} {t : ExecutionState}
    (h : DirectCall host run step idx s pending inner i t) : J t := by
  cases h with
  | tried hkind hmade =>
    exact BlockCall.kept hof hs
      (fun inner i t ok t' hin => hcall false inner i t ok t' (.tried hkind hin)) hmade
  | @handler body inner i s₁ t hkind hblock hgo hcatch hmade =>
    have hfailed : J s₁ := hblock.kept hof hs fun inner i t ok t' hin =>
      hcall false inner i t ok t' (.tried hkind hin)
    have hstart : J (s₁.handling step) := hof hfailed rfl
    exact BlockCall.kept hof hstart
      (fun inner i t ok t' hin => hcall false inner i t ok t' (.handler hkind hblock hgo hcatch hin))
      hmade
  | cleanup hkind hbefore hgo hmade =>
    exact BlockCall.kept hof (hbefore.kept hof hkind hs hcall)
      (fun inner i t ok t' hin => hcall pending inner i t ok t' (.cleanup hkind hbefore hgo hin)) hmade
  | chosen hkind hbranches hchoose hmade =>
    exact BlockCall.kept hof hs
      (fun inner i t ok t' hin => hcall false inner i t ok t' (.chosen hkind hbranches hchoose hin))
      hmade
  | @pass count m c inner i s₁ t t₁ t₂ hkind hbegin hcount hpass hnext hmade =>
    have hmakes : ∀ m c t t₁, LoopPass host run step (untilOf step) s₁ (m + 1) c t →
        hostNextForeach t = .ok true t₁ → (J t₁ → J (t₁.forget (loopBody step))) ∧
          ∀ inner i u ok u', StepsCall host run (loopBody step) s₁.action.steps.length
            (t₁.forget (loopBody step)) inner i u → J u → run inner i u = .ok ok u' → J u' :=
      fun m c t t₁ hreach hnext => ⟨hclear hkind _ t₁ (.of_pass hbegin hcount hreach hnext),
        fun inner i u ok u' hmade =>
          hcall false inner i u ok u' (.pass hkind hbegin hcount hreach hnext hmade)⟩
    have hbegun : J (s₁.spliceSteps (loopBody step)) :=
      hof (keptByBegin hof hs hbegin (Int.le_of_lt hcount)) rfl
    have ht : J t := PassReach.kept hof hbegun hpass fun m c t t₁ _ => hmakes m c t t₁
    obtain ⟨hstart, hin⟩ := hmakes m c t t₁ hpass hnext
    exact hmade.kept hof (hstart (keptByNext hof ht hnext)) hin
  | @branch slot steps inner i t hkind hslot hwidth hmade =>
    have hforked : J ((s.fork slot).spliceSteps steps) := hof hs rfl
    exact StepsCall.kept hof hforked
      (fun inner i t ok t' hin => hcall false inner i t ok t' (.branch hkind hslot hwidth hin)) hmade

end Constructs

end Gwead
