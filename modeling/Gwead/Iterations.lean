import Gwead.FrameRestored
import Gwead.LoopResults
import Gwead.VariableBinding

/-!
# The iterations of a loop

A loop that ends well without a return ran its body once for each of its items, in order, up to the
iteration whose end made `until` hold, and `collect` has one value of each.  The number of items goes
through a 32-bit count first, and a loop whose count comes to zero runs its body for no item.
-/

namespace Gwead

open Program
open Wrap (asI32 asI32_eq_zero)

/-- The state the body of an iteration starts in and the one it completes in. -/
structure Iteration where
  before : ExecutionState
  after : ExecutionState

def StepKind.IsLoop (kind : StepKind) : Prop := kind = .forEach ∨ kind = .repetition

section Iterations

variable (host : Host) (run : StepDef → Nat → Exec Bool)

/-- The iterations a loop makes one after the other, once its items are on the stack. -/
inductive Iterates (body : List StepDef) (offset : Nat) (count : Int) (s : ExecutionState) :
    List Iteration → ExecutionState → Prop
  | start : Iterates body offset count s [] s
  | next {its : List Iteration} {t t₁ t' : ExecutionState}
      (earlier : Iterates body offset count s its t) (hcount : 0 < count)
      (hnext : hostNextForeach t = .ok true t₁)
      (hbody : StepsEnd host run body offset (t₁.forget body) .completed t') :
      Iterates body offset count s (its ++ [⟨t₁.forget body, t'⟩]) t'

/-- `until` holds at the end of an iteration. -/
def UntilHolds (untilExpr : Option String) (it : Iteration) : Prop :=
  untilHolds untilExpr it.after = .ok true it.after

/-- What `collect` comes to at the end of an iteration. -/
def Collects (text : String) (it : Iteration) (v : Value) : Prop :=
  it.after.evalDslExpression text "collect" = .ok v

def collectOf (step : StepDef) : Option String := (step.params.get "collect").bind Value.asStr

end Iterations

/-- A call of `run_step` makes another one through steps that are no loops. -/
inductive ReachesFlat (host : Host) : Nat → StepDef → Nat → ExecutionState → StepDef → Nat →
    ExecutionState → Prop
  | self {depth : Nat} {step : StepDef} {idx : Nat} {s : ExecutionState} :
      ReachesFlat host (depth + 1) step idx s step idx s
  | inner {depth : Nat} {step inner last : StepDef} {idx i j : Nat} {s t u : ExecutionState}
      {pending : Bool} (hkind : ¬step.kind.IsLoop)
      (hcall : DirectCall host (runStepTo host depth) step idx s pending inner i t)
      (hbelow : ReachesFlat host depth inner i t last j u) :
      ReachesFlat host (depth + 1) step idx s last j u

/-- A call sees the item of an iteration, as does every call it makes outside a loop of its own. -/
def SeesItem (host : Host) (depth : Nat) (item : Option Value) (inner : StepDef) (i : Nat)
    (t : ExecutionState) : Prop :=
  ∀ last j u, ReachesFlat host depth inner i t last j u → u.currentItem = item

/-- The loop over `items` that ran from a state: its iterations, each with its item at every step of
the body; where they stop; what they collected; and the loops around it as they were. -/
structure LoopRan (host : Host) (depth : Nat) (step : StepDef) (idx : Nat) (items : ForEachItems)
    (before after : ExecutionState) : Prop where
  ran : ∃ count its last,
    beginOf host step idx before = .ok count (before.pushLoop items) ∧
    Iterates host (runStepTo host depth) (loopBody step) before.action.steps.length count
      ((before.pushLoop items).spliceSteps (loopBody step)) its last ∧
    (∀ k it, its[k]? = some it → k < items.len ∧ it.before.currentItem = items.itemAt k ∧
      ∀ inner i t, StepsCall host (runStepTo host depth) (loopBody step) before.action.steps.length
        it.before inner i t → SeesItem host depth (items.itemAt k) inner i t) ∧
    (∀ k it, its[k]? = some it → UntilHolds (untilOf step) it → k + 1 = its.length) ∧
    (its.length = items.len ∨ ∃ it, its.getLast? = some it ∧ UntilHolds (untilOf step) it) ∧
    ∀ text, collectOf step = some text → ∃ values, List.Forall₂ (Collects text) its values ∧
      after.stepResults.get? step.id = some (.array values)
  restored : after.foreachStack = before.foreachStack

/-! ### Frames -/

/-- Outside loops, a call finds the loops its caller found. -/
theorem DirectCall.loops {host : Host} {run : StepDef → Nat → Exec Bool}
    (hset : ∀ inner i, Respects SameSetting (run inner i))
    (hcall : ∀ inner i t ok t', t.action.steps[i]? = some inner → Idle t → run inner i t = .ok ok t' →
      t'.frame = t.frame)
    {step inner : StepDef} {idx i : Nat} {s t : ExecutionState} {pending : Bool}
    (hkind : ¬step.kind.IsLoop) (hidle : Idle s)
    (h : DirectCall host run step idx s pending inner i t) : t.foreachStack = s.foreachStack := by
  have hblock : ∀ {steps : List StepDef} {s t : ExecutionState}, Idle s →
      BlockCall host run steps s inner i t → t.foreachStack = s.foreachStack := by
    intro steps s t hidle hmade
    have hframe := StepsCall.frame hset hcall (spliced_splice s steps) ⟨hidle.view, hidle.cursor⟩ hmade
    exact congrArg Frame.loops hframe
  cases h with
  | tried hguarded hmade => exact hblock hidle hmade
  | @handler body inner i s₁ t hguarded htried hgo hcatch hmade =>
    have hframe := htried.frame hset hcall hidle
    have hidle' := hidle.of_frame hframe
    have hhandling : Idle (s₁.handling step) := ⟨hidle'.view, hidle'.cursor⟩
    exact (hblock hhandling hmade).trans (congrArg Frame.loops hframe)
  | cleanup hguarded hbefore hgo hmade =>
    have hframe := hbefore.frame hset hcall hidle
    exact (hblock (hidle.of_frame hframe) hmade).trans (congrArg Frame.loops hframe)
  | chosen hifs hbranches hchoose hmade => exact hblock hidle hmade
  | pass hloop => exact absurd hloop hkind
  | @branch slot steps inner i t hparallel hslot hwidth hmade =>
    exact hblock (s := s.fork slot) ⟨hidle.view, hidle.cursor⟩ hmade

theorem seesItem_of_loops {host : Host} {depth : Nat} {inner : StepDef} {i : Nat}
    {t : ExecutionState} (hheld : Held inner i t) : SeesItem host depth t.currentItem inner i t := by
  intro last j u h
  induction h with
  | self => rfl
  | @inner depth step inner last idx i j s t u pending hkind hcall _ ih =>
    have hset := @Preserved.runStepTo host _ sameSetting_preserved depth
    have hframes : ∀ inner i t ok t', t.action.steps[i]? = some inner → Idle t →
        runStepTo host depth inner i t = .ok ok t' → t'.frame = t.frame :=
      fun _ _ _ _ _ hfound hidle hran => runStepTo_frame host depth hfound hidle hran
    have hloops := hcall.loops hset hframes hkind hheld.idle
    rw [ih (hcall.held hset hframes hheld.found hheld.idle), ExecutionState.currentItem, hloops]
    rfl

/-! ### Passes -/

/-- The innermost loop moves to the item its index names, if there is one. -/
theorem hostNextForeach_at {t : ExecutionState} {items : ForEachItems} {v : Option Value} {i : Nat}
    {current : Option Nat} {results : List Value} {outer : List ForEachState}
    (h : t.foreachStack = ⟨items, v, i, current, results⟩ :: outer) :
    hostNextForeach t =
      if i < items.len then
        .ok true { t with foreachStack := ⟨items, items.itemAt i, i + 1, some i, results⟩ :: outer }
      else .ok false { t with foreachStack := ⟨items, none, i, none, results⟩ :: outer } := by
  simp only [hostNextForeach, h]

/-- A loop over `items` so far: its iterations and what they collected, with its frame on top of the
loops around it. -/
structure LoopSoFar (host : Host) (depth : Nat) (body : List StepDef) (items : ForEachItems)
    (count : Int) (collectExpr : Option String) (s : ExecutionState) (its : List Iteration)
    (acc : Collected) (t : ExecutionState) : Prop where
  iterates : Iterates host (runStepTo host depth) body s.action.steps.length count
    ((s.pushLoop items).spliceSteps body) its t
  frame : ∃ v current results, t.frame = { ((s.pushLoop items).spliceSteps body).frame with
    loops := ⟨items, v, its.length, current, results⟩ :: s.foreachStack }
  seen : ∀ k it, its[k]? = some it → k < items.len ∧ it.before.currentItem = items.itemAt k ∧
    ∀ inner i t, StepsCall host (runStepTo host depth) body s.action.steps.length it.before inner i t →
      SeesItem host depth (items.itemAt k) inner i t
  collected : ∀ text, collectExpr = some text → List.Forall₂ (Collects text) its acc.values

section Passes

variable {host : Host} {depth : Nat} {body : List StepDef} {items : ForEachItems} {count : Int}
  {collectExpr : Option String} {s : ExecutionState} {its : List Iteration} {acc : Collected}
  {t : ExecutionState}

theorem collectValue_values {text : Option String} {acc acc' : Collected} {s s' : ExecutionState}
    (h : collectValue text acc s = .ok acc' s') (e : String) (htext : text = some e) :
    ∃ v, s.evalDslExpression e "collect" = .ok v ∧ acc'.values = acc.values ++ [v] := by
  subst htext
  simp only [collectValue] at h
  cases hvalue : s.evalDslExpression e "collect" with
  | error err =>
    simp only [hvalue] at h
    cases h
  | ok v =>
    simp only [hvalue] at h
    split at h
    · cases h
    · cases h
      exact ⟨v, rfl, rfl⟩

/-- The iteration about to be made is of the next item. -/
theorem LoopSoFar.started (h : LoopSoFar host depth body items count collectExpr s its acc t)
    {t₁ : ExecutionState} (hnext : hostNextForeach t = .ok true t₁) :
    its.length < items.len ∧ (t₁.forget body).currentItem = items.itemAt its.length := by
  obtain ⟨v, current, results, hframe⟩ := h.frame
  rw [hostNextForeach_at (congrArg Frame.loops hframe)] at hnext
  split at hnext
  · rename_i hlt
    refine ⟨hlt, ?_⟩
    have hloops : (t₁.forget body).foreachStack = t₁.foreachStack :=
      congrArg Frame.loops (t₁.frame_forget body)
    injection hnext with _ hstate
    rw [ExecutionState.currentItem, hloops, ← hstate]
    rfl
  · cases hnext

/-- One more iteration. -/
theorem LoopSoFar.next (hidle : Idle s)
    (h : LoopSoFar host depth body items count collectExpr s its acc t) (hcount : 0 < count)
    {t₁ t' : ExecutionState} (hnext : hostNextForeach t = .ok true t₁)
    (hbody : StepsEnd host (runStepTo host depth) body s.action.steps.length (t₁.forget body)
      .completed t')
    {acc' : Collected} (hcollect : collectValue collectExpr acc t' = .ok acc' t') :
    LoopSoFar host depth body items count collectExpr s (its ++ [⟨t₁.forget body, t'⟩]) acc' t' := by
  obtain ⟨hlt, hitem⟩ := h.started hnext
  obtain ⟨v, current, results, hframe⟩ := h.frame
  rw [hostNextForeach_at (congrArg Frame.loops hframe), if_pos hlt] at hnext
  obtain rfl : _ = t₁ := by
    injection hnext
  -- the frame in which the body runs, and so the one it leaves
  generalize hbefore : ExecutionState.forget _ body = before at hbody hitem ⊢
  have hstart : before.frame = { ((s.pushLoop items).spliceSteps body).frame with
      loops := ⟨items, items.itemAt its.length, its.length + 1, some its.length, results⟩ ::
        s.foreachStack } := by
    rw [← hbefore, ExecutionState.frame_forget]
    exact congrArg (fun f : Frame => { f with
      loops := ⟨items, items.itemAt its.length, its.length + 1, some its.length, results⟩ ::
        s.foreachStack }) hframe
  have hset := @Preserved.runStepTo host _ sameSetting_preserved depth
  have hframes : ∀ inner i t ok t', t.action.steps[i]? = some inner → Idle t →
      runStepTo host depth inner i t = .ok ok t' → t'.frame = t.frame :=
    fun _ _ _ _ _ hfound hidle hran => runStepTo_frame host depth hfound hidle hran
  have hsteps : before.action.steps = s.action.steps ++ body := congrArg Frame.steps hstart
  have hspliced : Spliced body s.action.steps.length before :=
    ⟨fun k => by rw [hsteps]; simp [List.getElem?_append_right]⟩
  have hidle' : Idle before := ⟨(congrArg Frame.view hstart).trans hidle.view,
    (congrArg Frame.cursor hstart).trans hidle.cursor⟩
  refine ⟨hbefore ▸ .next h.iterates hcount ?_ (hbefore ▸ hbody), ?_, fun k it hit => ?_,
    fun text htext => ?_⟩
  · rw [hostNextForeach_at (congrArg Frame.loops hframe), if_pos hlt]
  · refine ⟨items.itemAt its.length, some its.length, results, ?_⟩
    rw [hbody.frame hset hframes hspliced hidle', hstart, List.length_append]
    rfl
  · rcases Nat.lt_or_ge k its.length with hk | hk
    · rw [List.getElem?_append_left hk] at hit
      exact h.seen k it hit
    · rw [List.getElem?_append_right hk] at hit
      obtain ⟨hzero, rfl⟩ : k - its.length = 0 ∧ _ = it := by
        cases hj : k - its.length with
        | zero => simpa [hj] using hit
        | succ j => simp [hj] at hit
      obtain rfl : k = its.length := by omega
      refine ⟨hlt, hitem, fun inner i u hmade => ?_⟩
      have hloops := congrArg Frame.loops (hmade.frame hset hframes hspliced hidle')
      have hsame : u.currentItem = before.currentItem := by
        rw [ExecutionState.currentItem, ExecutionState.currentItem]
        exact congrArg (fun loops : List ForEachState => loops.head?.bind (·.currentValue)) hloops
      rw [← hitem, ← hsame]
      exact seesItem_of_loops (hmade.held hset hframes hspliced hidle')
  · obtain ⟨v, hv, hvalues⟩ := collectValue_values hcollect text htext
    rw [hvalues]
    exact List.rel_append (h.collected text htext) (.cons hv .nil)

/-- The passes of a loop that ends well without a return. -/
theorem runPasses_ran (hidle : Idle s) {untilExpr : Option String} {n : Nat}
    (h : LoopSoFar host depth body items count collectExpr s its acc t) (hcount : 0 < count)
    (hn : its.length + n = items.len) (hnot : ∀ it ∈ its, ¬UntilHolds untilExpr it)
    {acc' : Collected} {t' : ExecutionState}
    (hran : runPasses host (runStepTo host depth) body s.action.steps.length untilExpr collectExpr n
      acc t = .ok (true, acc') t') (hgo : t'.returnSignal = none) :
    ∃ its' last, LoopSoFar host depth body items count collectExpr s its' acc' last ∧
      (∀ k it, its'[k]? = some it → UntilHolds untilExpr it → k + 1 = its'.length) ∧
      (its'.length = items.len ∨ ∃ it, its'.getLast? = some it ∧ UntilHolds untilExpr it) := by
  have hnever : ∀ k it, its[k]? = some it → UntilHolds untilExpr it → k + 1 = its.length :=
    fun k it hit huntil => absurd huntil (hnot it (List.mem_of_getElem? hit))
  induction n generalizing its acc t with
  | zero =>
    obtain ⟨more, t₁, hnext, hlast⟩ := bind_ok.mp hran
    cases hlast
    exact ⟨its, t, h, hnever, Or.inl (by omega)⟩
  | succ n ih =>
    obtain ⟨more, t₁, hnext, hrest⟩ := bind_ok.mp hran
    cases more with
    | false =>
      -- there is an item left
      obtain ⟨v, current, results, hframe⟩ := h.frame
      rw [hostNextForeach_at (congrArg Frame.loops hframe), if_pos (by omega)] at hnext
      cases hnext
    | true =>
      simp only [if_true] at hrest
      obtain ⟨_, t₂, hclear, hsteps⟩ := bind_ok.mp hrest
      rw [clearResults_eq] at hclear
      cases hclear
      obtain ⟨⟨ended, r⟩, t₃, hbody, hafter⟩ := bind_ok.mp hsteps
      have hended := runSteps_end hbody
      cases ended with
      | failed => cases hafter
      | returned =>
        cases hafter
        obtain ⟨inner, i, u, -, -, hsignal⟩ := hended
        rw [hgo] at hsignal
        cases hsignal
      | completed =>
        obtain ⟨acc₂, t₄, hcollect, huntil⟩ := bind_ok.mp hafter
        cases collectValue_ok hcollect
        obtain ⟨stop, t₅, hholds, hlast⟩ := bind_ok.mp huntil
        cases untilHolds_ok hholds
        have hnext' := h.next hidle hcount hnext hended hcollect
        have hlength : ∀ it : Iteration, (its ++ [it]).length = its.length + 1 := by simp
        cases stop with
        | true =>
          cases hlast
          refine ⟨its ++ [⟨t₁.forget body, t'⟩], t', hnext', fun k it hit huntil => ?_,
            Or.inr ⟨⟨t₁.forget body, t'⟩, by simp, hholds⟩⟩
          rcases Nat.lt_or_ge k its.length with hk | hk
          · rw [List.getElem?_append_left hk] at hit
            exact absurd huntil (hnot it (List.mem_of_getElem? hit))
          · have hlt := (List.getElem?_eq_some_iff.mp hit).1
            rw [hlength] at hlt ⊢
            omega
        | false =>
          have hnone : ∀ it ∈ its ++ [(⟨t₁.forget body, t₃⟩ : Iteration)],
              ¬UntilHolds untilExpr it := by
            intro it hit
            rcases List.mem_append.mp hit with hit | hit
            · exact hnot it hit
            · cases List.mem_singleton.mp hit
              intro huntil
              rw [UntilHolds, hholds] at huntil
              cases huntil
          exact ih hnext' (by rw [hlength]; omega) hnone hlast
            fun k it hit huntil => absurd huntil (hnone it (List.mem_of_getElem? hit))

end Passes

/-! ### Whole loops -/

section Loops

variable {host : Host} {step : StepDef} {idx : Nat} {s s' : ExecutionState}

theorem returnSignal_loopFinished (collected : Option (List Value)) :
    (loopFinished step idx collected s).returnSignal = s.returnSignal := by
  have hend : (endForeach idx s).returnSignal = s.returnSignal := by
    unfold endForeach
    split
    · rfl
    · split
      · rfl
      · exact returnSignal_storeStepResult _ _ _
  unfold loopFinished
  cases collected with
  | none => exact hend
  | some values => exact (returnSignal_storeStepResult _ _ _).trans hend

/-- A loop that collects leaves what it collected as its result. -/
theorem finishIteration_stored {collectExpr : Option String} {ok : Bool} {acc : Collected}
    (h : finishIteration step idx collectExpr.isSome acc s = .ok ok s')
    (hraise : escapingViolation s' = none) :
    s'.returnSignal = s.returnSignal ∧ ∀ text, collectExpr = some text →
      s'.stepResults.get? step.id = some (.array acc.values) := by
  obtain ⟨_, t, hend, hrest⟩ := bind_ok.mp h
  rw [hostEndForeach_eq] at hend
  cases hend
  obtain ⟨_, u, hstore, hlast⟩ := bind_ok.mp hrest
  cases hlast
  cases collectExpr with
  | none =>
    cases hstore
    exact ⟨@returnSignal_loopFinished step idx s none, fun text htext => by cases htext⟩
  | some text =>
    cases hstore
    exact ⟨@returnSignal_loopFinished step idx s (some acc.values),
      fun _ _ => get?_storeStepResult hraise⟩

theorem pushLoop_inj {count count' : Int} {items items' : ForEachItems}
    (h : (EStateM.Result.ok count (s.pushLoop items) : EStateM.Result KernelError ExecutionState Int) =
      .ok count' (s.pushLoop items')) : items = items' := by
  injection h with _ hstate
  have hstack := congrArg ExecutionState.foreachStack hstate
  injection hstack with hframe
  injection hframe

/-- A loop counts its items in 32 bits. -/
theorem beginOf_count {count : Int} {items : ForEachItems}
    (h : beginOf host step idx s = .ok count (s.pushLoop items)) (hat : s.action.steps[idx]? = some step) :
    count = asI32 items.len := by
  unfold beginOf at h
  split at h
  · simp only [hostBeginRepeat, hat] at h
    split at h
    · injection h with hcount hstate
      have hstack := congrArg (fun t : ExecutionState => t.foreachStack.length) hstate
      simp [ExecutionState.pushLoop] at hstack
    · split at h
      · injection h with hcount hstate
        have hstack := congrArg (fun t : ExecutionState => t.foreachStack.length) hstate
        simp [ExecutionState.pushLoop] at hstack
      · rename_i n _ hfits
        obtain rfl := pushLoop_inj h
        injection h with hcount
        rw [← hcount, ForEachItems.len, Wrap.asI32_of_fits]
        unfold Wrap.FitsI32
        omega
  · simp only [hostBeginForeach, hat] at h
    obtain rfl := pushLoop_inj h
    injection h with hcount
    exact hcount.symm

theorem runIteration_ran {depth : Nat} {name : String} (hheld : Held step idx s)
    (huntil : (if name = "begin_repeat" then (step.params.get "until").bind Value.asStr else none) =
      untilOf step) {ok : Bool}
    (h : runIteration host (runStepTo host depth) step idx name (beginOf host step) s = .ok ok s')
    (hok : ok = true) (hgo : s'.returnSignal = none) (hraise : escapingViolation s' = none) :
    ∃ items count, beginOf host step idx s = .ok count (s.pushLoop items) ∧
      (s'.foreachStack = s.foreachStack →
        (LoopRan host depth step idx items s s' ↔ (count = 0 → items.len = 0))) := by
  obtain ⟨count, s₁, hbegin, hrest⟩ := bind_ok.mp h
  split at hrest
  · cases hrest
  · rename_i hcount
    obtain ⟨items, rfl⟩ := beginOf_pushes hheld.found hbegin (Int.not_lt.mp hcount)
    refine ⟨items, count, hbegin, fun hrestored => ?_⟩
    obtain ⟨passes, t, hlength, hloop⟩ := bind_ok.mp hrest
    cases hlength
    obtain ⟨⟨fine, acc⟩, t, hspliced, hlast⟩ := bind_ok.mp hloop
    have hstart : LoopSoFar host depth (loopBody step) items count (collectOf step) s [] ⟨[], 0⟩
        ((s.pushLoop items).spliceSteps (loopBody step)) :=
      ⟨.start, ⟨none, none, [], rfl⟩, fun k it hit => by simp at hit, fun _ _ => .nil⟩
    have hfine : fine = true := by
      cases fine with
      | true => rfl
      | false =>
        cases hlast
        cases hok
    subst hfine
    obtain ⟨hsignal, hstored⟩ := @finishIteration_stored _ _ _ _ (collectOf step) _ _ hlast hraise
    -- the iterations, and where they stop if any is made at all
    have hran : ∃ its last, LoopSoFar host depth (loopBody step) items count (collectOf step) s its
        acc last ∧ (∀ k it, its[k]? = some it → UntilHolds (untilOf step) it → k + 1 = its.length) ∧
        ((count = 0 → items.len = 0) → its.length = items.len ∨
          ∃ it, its.getLast? = some it ∧ UntilHolds (untilOf step) it) := by
      unfold withSpliced at hspliced
      dsimp only at hspliced
      by_cases hpos : 0 < count
      · simp only [hpos, if_true] at hspliced
        split at hspliced
        · rename_i heq
          cases hspliced
          rw [huntil] at heq
          have hgo' : ExecutionState.returnSignal _ = none := hsignal.symm.trans hgo
          obtain ⟨its, last, hits, hstop, hend⟩ := runPasses_ran hheld.idle hstart hpos
            (by simp [ExecutionState.pushLoop]) (fun it hit => by cases hit) heq hgo'
          exact ⟨its, last, hits, hstop, fun _ => hend⟩
        · cases hspliced
      · simp only [hpos, if_false] at hspliced
        cases hspliced
        have hzero : count = 0 := by omega
        refine ⟨[], _, hstart, fun k it hit => by simp at hit, fun hall => Or.inl ?_⟩
        rw [hall hzero]
        rfl
    obtain ⟨its, last, hits, hstop, hend⟩ := hran
    constructor
    · rintro ⟨⟨count', its', last', hbegin', hiterates, -, -, hfull, -⟩, -⟩ hzero
      rw [hbegin] at hbegin'
      injection hbegin' with hsame
      cases hiterates with
      | start =>
        rcases hfull with hfull | ⟨it, hit, -⟩
        · exact hfull.symm
        · cases hit
      | next _ hpos => omega
    · intro hall
      exact ⟨⟨count, its, last, hbegin, hits.iterates, hits.seen, hstop, hend hall,
        fun text htext => ⟨acc.values, hits.collected text htext, hstored text htext⟩⟩, hrestored⟩

/-- A loop that ends well without a return ran as it should, unless its items are some and their
count in 32 bits is zero. -/
theorem loop_ran_iff (hheld : Held step idx s) (hkind : step.kind.IsLoop)
    (hran : runStep host step idx s = .ok true s') (hgo : s'.returnSignal = none) :
    ∃ items count, beginOf host step idx s = .ok count (s.pushLoop items) ∧
      (LoopRan host step.params.depth step idx items s s' ↔ ¬(0 < items.len ∧ 2 ^ 32 ∣ items.len)) := by
  obtain ⟨hdispatch, hraise⟩ := runStep_ok hran
  have hframe := runStepTo_frame host _ hheld.found hheld.idle hran
  have hloop : ∃ name, (if name = "begin_repeat" then (step.params.get "until").bind Value.asStr
        else none) = untilOf step ∧
      runIteration host (runStepTo host step.params.depth) step idx name (beginOf host step) s =
        .ok true s' := by
    unfold dispatchStep at hdispatch
    rcases hkind with hkind | hkind
    · rw [hkind] at hdispatch
      refine ⟨"begin_foreach", by simp [untilOf, hkind], ?_⟩
      simpa [beginOf, hkind, runForeach] using hdispatch
    · rw [hkind] at hdispatch
      refine ⟨"begin_repeat", by simp [untilOf, hkind], ?_⟩
      simpa [beginOf, hkind, runRepeat] using hdispatch
  obtain ⟨name, huntil, hiteration⟩ := hloop
  obtain ⟨items, count, hbegin, hiff⟩ := runIteration_ran hheld huntil hiteration rfl hgo hraise
  refine ⟨items, count, hbegin, (hiff (congrArg Frame.loops hframe)).trans ?_⟩
  rw [beginOf_count hbegin hheld.found, asI32_eq_zero]
  constructor
  · rintro hnone ⟨hpos, hdvd⟩
    exact absurd (hnone hdvd) hpos.ne'
  · intro hnot hdvd
    by_contra hpos
    exact hnot ⟨Nat.pos_of_ne_zero hpos, hdvd⟩

end Loops

/-- In every run of an action, a loop that ends well without a return ran as it should exactly if its
items are none or their count in 32 bits is not zero. -/
theorem run_loop_semantics (host : Host) {action : Action} {plan : DagPlan}
    (hplan : buildPlan action = .ok plan) {start : ExecutionState} (haction : start.action = action)
    (hidle : Idle start) {pending : Bool} {step : StepDef} {idx : Nat} {before after : ExecutionState}
    (hcall : RunCalls host action plan start pending step idx before) (hkind : step.kind.IsLoop)
    (hran : runStep host step idx before = .ok true after) (hgo : after.returnSignal = none) :
    ∃ items count, beginOf host step idx before = .ok count (before.pushLoop items) ∧
      (LoopRan host step.params.depth step idx items before after ↔
        ¬(0 < items.len ∧ 2 ^ 32 ∣ items.len)) :=
  loop_ran_iff (hcall.held hplan haction hidle) hkind hran hgo

/-- The plan of an action of one step. -/
def onlyPlan : DagPlan := ⟨[[0]], [[]], [[]]⟩

/-- The step of such an action is called unless the run is cancelled first. -/
theorem onlyStep_called {host : Host} (action : Action) (start : ExecutionState)
    (hfired : host.cancelFired start = false) :
    RunCalls host action onlyPlan start false (action.stepAt 0) 0
      ((tickState start).setOverrides []) := by
  have hwaves : runWaves host action onlyPlan start =
      runSequentialStep host action onlyPlan 0 ⟨start, [], []⟩ := by
    rw [runWaves]
    exact (UntilStop.run_singleton _ _).trans (UntilStop.run_singleton _ _)
  have hd : (⟨0, false, (tickState start).setOverrides [], runStep host (action.stepAt 0) 0
      ((tickState start).setOverrides [])⟩ : Dispatch) ∈
        (runWaves host action onlyPlan start).1.dispatched := by
    rw [hwaves, dispatched_sequential 0 _ hfired]
    exact List.mem_singleton.mpr rfl
  exact .wave hd .self

/-- A loop over the input that collects its items. -/
def copyLoop : StepDef :=
  .new "loop" "for_each" (.object [("path", .string "$input"), ("collect", .string "$item"),
    ("steps", .array [.object [("id", .string "work"), ("type", .string "let")]])])

def copyAction : Action := Action.ofSteps [copyLoop]

def copyState (items : List Value) : ExecutionState :=
  .new "demo" copyAction (.array items) .null .null none ⟨1000000, 64⟩

def copyBefore (items : List Value) : ExecutionState := (tickState (copyState items)).setOverrides []

theorem copyLoop_called (items : List Value) :
    RunCalls (quietHost Binary64.display) copyAction onlyPlan (copyState items) false copyLoop 0
      (copyBefore items) :=
  onlyStep_called copyAction (copyState items) rfl

theorem copyLoop_begins (items : List Value) :
    hostBeginForeach 0 (copyBefore items) =
      .ok (asI32 items.length) ((copyBefore items).pushLoop (.values items)) := by
  have hpath : (copyBefore items).evalPath "$input" none = .array items := by
    have hparse : Dsl.parseReference "$input" = .ok ⟨.input, []⟩ := by decide +kernel
    simp only [ExecutionState.evalPath, hparse]
    rfl
  change EStateM.Result.ok (asI32 (foreachItems ((copyBefore items).evalPath "$input" none)).length)
    ((copyBefore items).pushLoop (.values (foreachItems ((copyBefore items).evalPath "$input" none)))) = _
  rw [hpath]
  rfl

/-- Over two items it runs its body for both. -/
theorem run_loop_semantics_copies : ∃ before after,
    RunCalls (quietHost Binary64.display) copyAction onlyPlan (copyState [.null, .bool true]) false
      copyLoop 0 before ∧
    runStep (quietHost Binary64.display) copyLoop 0 before = .ok true after ∧
    LoopRan (quietHost Binary64.display) copyLoop.params.depth copyLoop 0
      (.values [.null, .bool true]) before after := by
  have hplan : buildPlan copyAction = .ok onlyPlan := by decide +kernel
  have hkind : copyLoop.kind = .forEach := by decide +kernel
  have hends : returnsWith (fun ok after => ok && after.returnSignal.isNone)
      (runStep (quietHost Binary64.display) copyLoop 0 (copyBefore [.null, .bool true])) = true := by
    decide +kernel
  have hbegan : beginOf (quietHost Binary64.display) copyLoop 0 (copyBefore [.null, .bool true]) =
      .ok (asI32 2) ((copyBefore [.null, .bool true]).pushLoop (.values [.null, .bool true])) := by
    rw [beginOf, hkind]
    exact copyLoop_begins _
  obtain ⟨ok, after, hran, hquiet⟩ := exists_of_returnsWith hends
  simp only [Bool.and_eq_true, Option.isNone_iff_eq_none] at hquiet
  obtain ⟨rfl, hquiet⟩ := hquiet
  have hcall := copyLoop_called [.null, .bool true]
  obtain ⟨items, count, hbegin, hiff⟩ := run_loop_semantics (quietHost Binary64.display) hplan rfl
    ⟨rfl, rfl⟩ hcall (.inl hkind) hran hquiet
  obtain rfl := pushLoop_inj (hbegan.symm.trans hbegin)
  exact ⟨_, after, hcall, hran, hiff.mpr (by decide)⟩

/-- A loop over `2 ^ 32` items counts none, and runs its body for none of them. -/
theorem wrapped_loop_runs_none : ∃ before after items,
    RunCalls (quietHost Binary64.display) copyAction onlyPlan
      (copyState (List.replicate (2 ^ 32) .null)) false copyLoop 0 before ∧
    runStep (quietHost Binary64.display) copyLoop 0 before = .ok true after ∧
    after.returnSignal = none ∧
    beginOf (quietHost Binary64.display) copyLoop 0 before = .ok 0 (before.pushLoop items) ∧
    items.len = 2 ^ 32 ∧
    ¬LoopRan (quietHost Binary64.display) copyLoop.params.depth copyLoop 0 items before after := by
  have hlen : (List.replicate (2 ^ 32) Value.null).length = 2 ^ 32 := List.length_replicate
  generalize List.replicate (2 ^ 32) Value.null = items at hlen
  have hplan : buildPlan copyAction = .ok onlyPlan := by decide +kernel
  have hkind : copyLoop.kind = .forEach := by decide +kernel
  have hbegin := copyLoop_begins items
  rw [hlen, asI32_eq_zero.mpr dvd_rfl] at hbegin
  obtain ⟨after, hiteration, hsignal, hraise⟩ : ∃ after,
      runIteration (quietHost Binary64.display) (runStepTo (quietHost Binary64.display)
        copyLoop.params.depth) copyLoop 0 "begin_foreach" hostBeginForeach (copyBefore items) =
          .ok true after ∧ after.returnSignal = none ∧ escapingViolation after = none :=
    ⟨_, bind_ok.mpr ⟨0, _, hbegin, rfl⟩, rfl, rfl⟩
  have hran : runStep (quietHost Binary64.display) copyLoop 0 (copyBefore items) = .ok true after := by
    refine bind_ok.mpr ⟨true, after, ?_, ?_⟩
    · rw [dispatchStep, hkind]
      exact hiteration
    · rw [raiseEscaping, hraise]
  have hbegan : beginOf (quietHost Binary64.display) copyLoop 0 (copyBefore items) =
      .ok 0 ((copyBefore items).pushLoop (.values items)) := by
    rw [beginOf, hkind]
    exact hbegin
  have hheld := (copyLoop_called items).held hplan rfl ⟨rfl, rfl⟩
  refine ⟨copyBefore items, after, .values items, copyLoop_called items, hran, hsignal, hbegan, hlen, ?_⟩
  obtain ⟨items', count', hbegin', hiff⟩ := loop_ran_iff hheld (.inl hkind) hran hsignal
  obtain rfl := pushLoop_inj (hbegan.symm.trans hbegin')
  rw [hiff, ForEachItems.len, hlen]
  exact fun h => h ⟨Nat.two_pow_pos 32, dvd_rfl⟩

end Gwead
