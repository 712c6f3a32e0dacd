import Gwead.Iterations

/-!
# What a `for_each` iterates over

A path with a wildcard or a filter selects values, and a loop over it should run its body once for
each of them.  The loop sees the selection collapsed, though: a selection of one value looks like
that value, and a list, null or an empty object is then taken for the items themselves.
-/

namespace Gwead

open Program Dsl
open Wrap (asI32 asI32_of_fits)

/-- Segments that can select more than one value. -/
def Dsl.PathSegment.selectsMany : PathSegment → Bool
  | .wildcard => true
  | .filterEq _ _ => true
  | _ => false

/-- The selection of a reference, not collapsed. -/
def selection (r : Reference) (ctx : EvalContext) : List Value :=
  match resolveRoot r.root ctx with
  | none => []
  | some root => select r.path [root]

/-- The values a loop over a path is for: what a path that can select many selects, and the elements
of what any other path finds, if that is a list. -/
def elementsOf (r : Reference) (ctx : EvalContext) : Option (List Value) :=
  if r.path.any PathSegment.selectsMany then some (selection r ctx)
  else
    match evalReference r ctx with
    | .array items => some items
    | _ => none

/-- A value a loop does not take for its one item: a list, null or an empty object. -/
def Value.Unfolds (v : Value) : Prop := v.asArray.isSome ∨ v = .null ∨ v = .object []

theorem evalReference_selection (r : Reference) (ctx : EvalContext) :
    evalReference r ctx = collapse (selection r ctx) := by
  unfold evalReference selection
  cases resolveRoot r.root ctx with
  | none => rfl
  | some root => rfl

theorem not_mem_foreachItems {v : Value} (h : v.Unfolds) : v ∉ foreachItems v := by
  rcases h with h | rfl | rfl
  · cases v with
    | array items =>
      -- a list is no element of itself
      intro hin
      have hless := List.sizeOf_lt_of_mem (show Value.array items ∈ items from hin)
      simp only [Value.array.sizeOf_spec] at hless
      omega
    | _ => cases h
  · exact List.not_mem_nil
  · exact List.not_mem_nil

theorem foreachItems_single {v : Value} (h : ¬v.Unfolds) : foreachItems v = [v] := by
  cases v with
  | null => exact absurd (.inr (.inl rfl)) h
  | array items => exact absurd (.inl rfl) h
  | object fields =>
    cases fields with
    | nil => exact absurd (.inr (.inr rfl)) h
    | cons field rest => rfl
  | _ => rfl

/-- The items a loop takes from a selection are the values selected, unless that is one value the
loop does not take for an item. -/
theorem foreachItems_collapse {sel : List Value} (h : ∀ v, sel = [v] → ¬v.Unfolds) :
    foreachItems (collapse sel) = sel := by
  cases sel with
  | nil => rfl
  | cons v rest =>
    cases rest with
    | nil => exact foreachItems_single (h v rfl)
    | cons w rest => rfl

/-! ### The iterations of a loop -/

section Iterations

variable (host : Host) (run : StepDef → Nat → Exec Bool)

/-- A loop gets to an iteration, after so many others and with what they collected; the state is the
one its body starts in. -/
inductive IterationReached (step : StepDef) (idx : Nat) (s : ExecutionState) :
    Nat → Collected → ExecutionState → Prop
  | pass {count : Int} {m : Nat} {c : Collected} {s₁ t t₁ : ExecutionState}
      (hbegin : beginOf host step idx s = .ok count s₁) (hcount : 0 < count)
      (hpass : LoopPass host run step (untilOf step) s₁ (m + 1) c t)
      (hnext : hostNextForeach t = .ok true t₁) :
      IterationReached step idx s (s₁.loopLen - (m + 1)) c (t₁.forget (loopBody step))

/-- A loop is for one value after the other: each iteration it makes is of the next value, the first
one is made if there is a value at all, and one whose body completes is followed by the next. -/
structure OncePerElement (step : StepDef) (idx : Nat) (s : ExecutionState) (vs : List Value) :
    Prop where
  each : ∀ k c before, IterationReached host run step idx s k c before →
    k < vs.length ∧ before.currentItem = vs[k]?
  first : vs ≠ [] → ∃ c before, IterationReached host run step idx s 0 c before
  followed : ∀ k c before, IterationReached host run step idx s k c before → k + 1 < vs.length →
    ∀ c' t, StepsEnd host run (loopBody step) s.action.steps.length before .completed t →
      collectValue (collectOf step) c t = .ok c' t →
      ∃ before', IterationReached host run step idx s (k + 1) c' before'

end Iterations

section Reached

variable {host : Host} {depth : Nat} {step : StepDef} {idx : Nat} {s s₁ : ExecutionState}

/-- A `for_each` that gets to a pass has made the iterations before it. -/
theorem LoopPass.soFar (hheld : Held step idx s) {items : ForEachItems} {count : Int}
    (hcount : 0 < count) {untilExpr : Option String} {m : Nat} {c : Collected} {t : ExecutionState}
    (hpass : LoopPass host (runStepTo host depth) step untilExpr (s.pushLoop items) m c t) :
    ∃ its, LoopSoFar host depth (loopBody step) items count (collectOf step) s its c t ∧
      its.length + m = items.len := by
  unfold LoopPass at hpass
  generalize hn : (s.pushLoop items).loopLen = n at hpass
  generalize hacc : (⟨[], 0⟩ : Collected) = acc at hpass
  induction hpass with
  | start =>
    subst hacc
    exact ⟨[], ⟨.start, ⟨none, none, [], rfl⟩, fun k it hit => by simp at hit, fun _ _ => .nil⟩,
      (Nat.zero_add n).trans hn.symm⟩
  | @next m c c' t t₁ t' _ hnext hbody hcollect _ ih =>
    obtain ⟨its, hits, hlen⟩ := ih
    exact ⟨its ++ [⟨t₁.forget (loopBody step), t'⟩],
      hits.next hheld.idle hcount hnext hbody hcollect, by
        rw [List.length_append, List.length_singleton]
        omega⟩

/-- The items a `for_each` takes. -/
theorem beginOf_items (hkind : step.kind = .forEach) (hat : s.action.steps[idx]? = some step)
    {r : Reference}
    (hparse : parseReference (((step.params.get "path").bind Value.asStr).getD "$") = .ok r)
    {items : List Value}
    (hitems : foreachItems (evalReference r (s.structuralContext
      (s.getSourceResult ((step.params.get "source").bind Value.asStr)))) = items) :
    beginOf host step idx s = .ok (asI32 items.length) (s.pushLoop (.values items)) := by
  have hfor : beginOf host step = hostBeginForeach := by simp [beginOf, hkind]
  rw [hfor]
  simp only [hostBeginForeach, hat, ExecutionState.evalPath, hparse, hitems]

/-- An iteration that is made is of the item its index names, and the count is positive. -/
theorem IterationReached.item (hheld : Held step idx s) {items : List Value}
    (hbegin : beginOf host step idx s = .ok (asI32 items.length) (s.pushLoop (.values items)))
    {k : Nat} {c : Collected} {before : ExecutionState}
    (h : IterationReached host (runStepTo host depth) step idx s k c before) :
    0 < asI32 items.length ∧ k < items.length ∧ before.currentItem = items[k]? := by
  cases h with
  | @pass count m c s₁ t t₁ hbegin' hpos hpass hnext =>
    rw [hbegin] at hbegin'
    cases hbegin'
    obtain ⟨its, hits, hleft⟩ := hpass.soFar hheld hpos
    have hindex : (s.pushLoop (.values items)).loopLen - (m + 1) = its.length := by
      change items.length - (m + 1) = its.length
      exact Nat.sub_eq_of_eq_add hleft.symm
    rw [hindex]
    exact ⟨hpos, hits.started hnext⟩

/-- A loop that counts its items right is for them, one after the other. -/
theorem oncePerElement_items (hheld : Held step idx s) (hkind : step.kind = .forEach)
    {items : List Value}
    (hbegin : beginOf host step idx s = .ok (asI32 items.length) (s.pushLoop (.values items)))
    (hcount : items ≠ [] → 0 < asI32 items.length) :
    OncePerElement host (runStepTo host depth) step idx s items := by
  have hlen : (s.pushLoop (.values items)).loopLen = items.length := rfl
  have huntil : untilOf step = none := by simp [untilOf, hkind]
  constructor
  · intro k c before h
    exact (h.item hheld hbegin).2
  · intro hne
    obtain ⟨m, hm⟩ := Nat.exists_eq_succ_of_ne_zero (mt List.length_eq_zero_iff.mp hne)
    have hpass : LoopPass host (runStepTo host depth) step (untilOf step)
        (s.pushLoop (.values items)) (m + 1) ⟨[], 0⟩
        ((s.pushLoop (.values items)).spliceSteps (loopBody step)) := by
      unfold LoopPass
      rw [hlen, hm]
      exact .start
    have hreached := IterationReached.pass hbegin (hcount hne) hpass
      ((hostNextForeach_at rfl).trans (if_pos (by rw [ForEachItems.len]; omega)))
    rw [hlen, hm, Nat.sub_self] at hreached
    exact ⟨_, _, hreached⟩
  · intro k c before h hk c' t hbody hcollect
    cases h with
    | @pass count m c s₁ t₀ t₁ hbegin' hpos hpass hnext =>
      rw [hbegin] at hbegin'
      cases hbegin'
      obtain ⟨its, hits, hleft⟩ := hpass.soFar hheld hpos
      rw [ForEachItems.len] at hleft
      rw [hlen] at hk ⊢
      obtain ⟨m, rfl⟩ : ∃ m', m = m' + 1 := ⟨m - 1, by omega⟩
      have hpass' : LoopPass host (runStepTo host depth) step (untilOf step)
          (s.pushLoop (.values items)) (m + 1) c' t :=
        .next hpass hnext hbody hcollect (by rw [huntil]; rfl)
      -- the frame the body leaves still has an item to go to
      obtain ⟨v, current, results, hframe⟩ := (hits.next hheld.idle hpos hnext hbody hcollect).frame
      have hreached := IterationReached.pass hbegin hpos hpass'
        ((hostNextForeach_at (congrArg Frame.loops hframe)).trans
          (if_pos (by rw [ForEachItems.len, List.length_append, List.length_singleton]; omega)))
      rw [hlen] at hreached
      rw [show items.length - (m + 1 + 1) + 1 = items.length - (m + 1) by omega]
      exact ⟨_, hreached⟩

/-- A `for_each` runs its body once for each element its path stands for exactly if the path does not
select a single value that unfolds, and the number of elements is positive as an `i32` too. -/
theorem foreach_once_iff (hheld : Held step idx s) (hkind : step.kind = .forEach) {r : Reference}
    (hparse : parseReference (((step.params.get "path").bind Value.asStr).getD "$") = .ok r)
    {vs : List Value}
    (helements : elementsOf r (s.structuralContext
      (s.getSourceResult ((step.params.get "source").bind Value.asStr))) = some vs) :
    OncePerElement host (runStepTo host depth) step idx s vs ↔
      (∀ v, r.path.any PathSegment.selectsMany = true → vs = [v] → ¬v.Unfolds) ∧
        (vs ≠ [] → 0 < asI32 vs.length) := by
  have hbegin : beginOf host step idx s = .ok _ _ := beginOf_items hkind hheld.found hparse rfl
  generalize s.structuralContext _ = ctx at helements hbegin
  rw [evalReference_selection] at hbegin
  unfold elementsOf at helements
  have hitems : (∀ v, r.path.any PathSegment.selectsMany = true → vs = [v] → ¬v.Unfolds) →
      foreachItems (collapse (selection r ctx)) = vs := by
    intro hone
    split at helements
    · rename_i hmany
      cases helements
      exact foreachItems_collapse fun v => hone v hmany
    · split at helements
      · rename_i items hvalue
        cases helements
        rw [← evalReference_selection, hvalue]
        rfl
      · cases helements
  constructor
  · intro h
    have hone : ∀ v, r.path.any PathSegment.selectsMany = true → vs = [v] → ¬v.Unfolds := by
      intro v hmany hv hunfolds
      rw [if_pos hmany, hv] at helements
      injection helements with hselected
      -- the first iteration would be of an element of the value instead of the value
      obtain ⟨c, before, hfirst⟩ := h.first (by simp [hv])
      have hitem := (hfirst.item hheld hbegin).2.2
      rw [(h.each 0 c before hfirst).2, hv, hselected] at hitem
      exact not_mem_foreachItems hunfolds (List.mem_of_getElem? hitem.symm)
    refine ⟨hone, fun hne => ?_⟩
    rw [hitems hone] at hbegin
    obtain ⟨c, before, hfirst⟩ := h.first hne
    exact (hfirst.item hheld hbegin).1
  · rintro ⟨hone, hcount⟩
    rw [hitems hone] at hbegin
    exact oncePerElement_items hheld hkind hbegin hcount

end Reached

/-- A loop over the elements of a list in the input, which collects them. -/
def elementLoop : StepDef :=
  .new "loop" "for_each" (.object [("path", .string "$input.xs[*]"), ("collect", .string "$item"),
    ("steps", .array [.object [("id", .string "work"), ("type", .string "let")]])])

def elementAction : Action := Action.ofSteps [elementLoop]

def elementState (xs : List Value) : ExecutionState :=
  .new "demo" elementAction (.object [("xs", .array xs)]) .null .null none ⟨1000000, 64⟩

def elementBefore (xs : List Value) : ExecutionState :=
  (tickState (elementState xs)).setOverrides []

def elementPath : Reference := ⟨.input, [.field "xs", .wildcard]⟩

theorem elementLoop_held (xs : List Value) : Held elementLoop 0 (elementBefore xs) :=
  ⟨rfl, rfl, rfl⟩

theorem elementLoop_parsed :
    parseReference (((elementLoop.params.get "path").bind Value.asStr).getD "$") = .ok elementPath := by
  decide +kernel

theorem elementLoop_elements (xs : List Value) :
    elementsOf elementPath ((elementBefore xs).structuralContext ((elementBefore xs).getSourceResult
      ((elementLoop.params.get "source").bind Value.asStr))) = some xs := by
  have hroot : selection elementPath ((elementBefore xs).structuralContext
      ((elementBefore xs).getSourceResult ((elementLoop.params.get "source").bind Value.asStr))) =
        xs ++ [] := rfl
  have hmany : elementPath.path.any PathSegment.selectsMany = true := rfl
  rw [elementsOf, if_pos hmany, hroot, List.append_nil]

/-- Over a null and a flag the loop is for both. -/
theorem foreach_once_pair :
    OncePerElement (quietHost Binary64.display) (runStepTo (quietHost Binary64.display) 3) elementLoop 0
      (elementBefore [.null, .bool true]) [.null, .bool true] := by
  refine (foreach_once_iff (elementLoop_held _) (by decide +kernel) elementLoop_parsed
    (elementLoop_elements _)).mpr ⟨fun v _ hv => ?_, fun _ => ?_⟩
  · cases hv
  · rw [asI32_of_fits (by decide)]
    exact Int.natCast_pos.mpr (Nat.zero_lt_two)

/-- A loop over the elements of a list of one null runs its body for none. -/
theorem null_element_skipped : ∃ before after,
    RunCalls (quietHost Binary64.display) elementAction onlyPlan (elementState [.null]) false
      elementLoop 0 before ∧
    runStep (quietHost Binary64.display) elementLoop 0 before = .ok true after ∧
    after.stepResults.get? "loop" = some (.array []) ∧
    elementsOf elementPath (before.structuralContext (before.getSourceResult
      ((elementLoop.params.get "source").bind Value.asStr))) = some [.null] ∧
    ¬OncePerElement (quietHost Binary64.display)
      (runStepTo (quietHost Binary64.display) elementLoop.params.depth) elementLoop 0 before [.null] := by
  have hcall : RunCalls (quietHost Binary64.display) elementAction onlyPlan (elementState [.null])
      false elementLoop 0 (elementBefore [.null]) := onlyStep_called elementAction _ rfl
  have hends : returnsWith (fun ok after => ok && after.stepResults.get? "loop" == some (.array []))
      (runStep (quietHost Binary64.display) elementLoop 0 (elementBefore [.null])) = true := by
    decide +kernel
  obtain ⟨ok, after, hran, hresult⟩ := exists_of_returnsWith hends
  simp only [Bool.and_eq_true, beq_iff_eq] at hresult
  obtain ⟨rfl, hresult⟩ := hresult
  refine ⟨elementBefore [.null], after, hcall, hran, hresult, elementLoop_elements _, fun h => ?_⟩
  obtain ⟨c, before, hfirst⟩ := h.first (by simp)
  have hbegin : beginOf (quietHost Binary64.display) elementLoop 0 (elementBefore [.null]) =
      .ok (asI32 ([] : List Value).length) ((elementBefore [.null]).pushLoop (.values [])) :=
    beginOf_items (by decide +kernel) rfl elementLoop_parsed rfl
  exact absurd (hfirst.item (elementLoop_held _) hbegin).2.1 (Nat.not_lt_zero 0)

end Gwead
