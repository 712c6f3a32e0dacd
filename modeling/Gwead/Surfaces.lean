import Gwead.State

/-!
# The two reading surfaces

Templates read one flat object, the variables bag; structural expressions read the namespaces of
the state one by one.  The bag lays the kernel's namespaces over the input's own fields, so the
two agree on a reference exactly when nothing laid over the input, and nothing showing through
from it, is what the reference selects.
-/

namespace Gwead

open Dsl

namespace ExecutionState

/-- What the kernel binds in the variables bag under a key. -/
def kernelBinding (s : ExecutionState) (key : String) : Option Value :=
  if key = "trigger" then s.trigger
  else if key = "error" then s.errorStack.head?.map Value.string
  else if key = "item" then s.currentItem
  else if key = "steps" then some s.buildDslStepsView
  else if key = "vars" then some s.varsAsValue
  else if key = "secrets" then some s.secrets
  else if key = "config" then some s.config
  else none

/-- The value a reference has inside a template. -/
def templateValue (s : ExecutionState) (r : Reference) : Value :=
  evalReference r (buildDslContext s.resolutionContext)

/-- The value a reference has in a structural expression. -/
def structuralValue (s : ExecutionState) (implicitSource : Option Value) (r : Reference) : Value :=
  evalReference r (s.structuralContext implicitSource)

/-- When a rooted reference reads the same on both surfaces. -/
def SurfacesAgree (s : ExecutionState) : Root → List PathSegment → Prop
  | .input, [] => s.input = s.resolutionContext
  | .input, .field key :: rest => ∀ bound, s.kernelBinding key = some bound →
      collapse (select rest [bound]) = collapse (select rest (s.input.get key).toList)
  | .input, path => collapse (select path [s.input]) = .null
  | .trigger, path => s.trigger = none → ∀ v, s.input.get "trigger" = some v →
      collapse (select path [v]) = .null
  | .item, path => s.currentItem = none → ∀ v, s.input.get "item" = some v →
      collapse (select path [v]) = .null
  | _, _ => True

theorem evalPath_eq_structuralValue (s : ExecutionState) (implicitSource : Option Value)
    {path : String} {r : Reference} (h : Dsl.parseReference path = .ok r) :
    s.evalPath path implicitSource = s.structuralValue implicitSource r := by
  simp only [evalPath, h, structuralValue]

theorem evalDslExpression_eq_structuralValue (s : ExecutionState) (contextLabel : String)
    {text : String} {r : Reference} (h : Dsl.parseExpression text = .ok (.ref r)) :
    s.evalDslExpression text contextLabel = .ok (s.structuralValue none r) := by
  simp only [evalDslExpression, h, evalExpression, structuralValue]

theorem evalReference_eq (r : Reference) (ctx : EvalContext) :
    evalReference r ctx = collapse (select r.path (resolveRoot r.root ctx).toList) := by
  unfold evalReference
  cases resolveRoot r.root ctx with
  | none => simp [collapse]
  | some root => rfl

theorem effectiveResult_of_empty {s : ExecutionState} (h : s.activeFanoutOverrides.isEmpty = true)
    (id : String) (v : Value) : s.effectiveResult id v = v := by
  rw [List.isEmpty_iff] at h
  simp [effectiveResult, h]

/-- Both surfaces wrap the same results the same way. -/
theorem buildDslStepsView_eq (s : ExecutionState) :
    s.buildDslStepsView = .ofFields (s.stepResults.entries.map fun e =>
      (e.1, s.wrapStep e.1 (s.effectiveResult e.1 e.2))) := by
  simp only [buildDslStepsView, stepResultsViewWithOverrides]
  split
  · rename_i h
    simp [effectiveResult_of_empty h]
  · rw [Option.getD_some, List.map_map]
    rfl

theorem lookup_insertSome (key k : String) (v : Option Value) (bag : List (String × Value)) :
    (insertSome key v bag).lookup k = if k = key then v.or (bag.lookup k) else bag.lookup k := by
  cases v with
  | none => simp [insertSome]
  | some v =>
    rw [insertSome, AssocMap.lookup_insertSorted]
    by_cases h : k = key <;> simp [h]

/-- The bag shows the kernel's binding of a key, and the input's own field where there is none. -/
theorem resolutionContext_get (s : ExecutionState) (key : String) :
    s.resolutionContext.get key = (s.kernelBinding key).or (s.input.get key) := by
  have hin : (s.input.asObject.getD []).lookup key = s.input.get key := by
    cases s.input <;> rfl
  simp only [resolutionContext, Value.get_object, bagFields, lookup_insertSome,
    AssocMap.lookup_insertSorted, hin, ← buildDslStepsView_eq, kernelBinding, beq_iff_eq]
  split
  · rename_i h
    subst h
    simp
  · split
    · rename_i h
      subst h
      simp
    · split
      · rename_i h
        subst h
        simp
      · split <;> [skip; split <;> [skip; split <;> [skip; split]]] <;> simp

theorem templateValue_namespace (s : ExecutionState) (implicitSource : Option Value)
    (r : Reference) (h : r.root = .config ∨ r.root = .secrets ∨ r.root = .vars ∨
      ∃ id, r.root = .steps id) :
    s.templateValue r = s.structuralValue implicitSource r := by
  simp only [templateValue, structuralValue, evalReference_eq]
  rcases h with h | h | h | ⟨id, h⟩ <;>
    simp [h, resolveRoot, buildDslContext, structuralContext, resolutionContext_get, kernelBinding]

/-- A root the state may lack shows the input's field of its name inside a template. -/
theorem collapse_optional_root (own shown : Option Value) (path : List PathSegment) :
    collapse (select path (own.or shown).toList) = collapse (select path own.toList) ↔
      (own = none → ∀ v, shown = some v → collapse (select path [v]) = .null) := by
  cases own with
  | some v => simp
  | none =>
    cases shown with
    | none => simp
    | some w => simp [collapse]

/-- A segment that only arrays have selects nothing from the bag. -/
theorem collapse_bag_seg (s : ExecutionState) (seg : PathSegment) (rest : List PathSegment)
    (hbag : applyOne seg s.resolutionContext = [])
    (hagree : s.SurfacesAgree .input (seg :: rest) =
      (collapse (select (seg :: rest) [s.input]) = .null)) :
    collapse (select rest (applyOne seg s.resolutionContext)) =
      collapse (select rest (applyOne seg s.input)) ↔ s.SurfacesAgree .input (seg :: rest) := by
  rw [hbag, hagree, select_nil, select_cons, applySegment_singleton]
  exact eq_comm

/-- Templates and structural expressions agree on a rooted reference exactly when nothing the
kernel lays over the input changes what the reference selects. -/
theorem templateValue_eq_structuralValue_iff (s : ExecutionState) (implicitSource : Option Value)
    (r : Reference) (hr : r.root ≠ .implicit) :
    s.templateValue r = s.structuralValue implicitSource r ↔ s.SurfacesAgree r.root r.path := by
  obtain ⟨root, path⟩ := r
  cases root with
  | implicit => exact absurd rfl hr
  | config => simpa [SurfacesAgree] using s.templateValue_namespace implicitSource _ (Or.inl rfl)
  | secrets =>
    simpa [SurfacesAgree] using s.templateValue_namespace implicitSource _ (Or.inr (Or.inl rfl))
  | vars =>
    simpa [SurfacesAgree] using
      s.templateValue_namespace implicitSource _ (Or.inr (Or.inr (Or.inl rfl)))
  | steps id =>
    simpa [SurfacesAgree] using
      s.templateValue_namespace implicitSource ⟨.steps id, path⟩ (Or.inr (Or.inr (Or.inr ⟨id, rfl⟩)))
  | trigger =>
    simp only [templateValue, structuralValue, evalReference_eq, resolveRoot, buildDslContext,
      structuralContext, resolutionContext_get, kernelBinding, if_true, SurfacesAgree]
    exact collapse_optional_root _ _ path
  | item =>
    have hb : s.kernelBinding "item" = s.currentItem := by simp [kernelBinding]
    simp only [templateValue, structuralValue, evalReference_eq, resolveRoot, buildDslContext,
      structuralContext, resolutionContext_get, hb, SurfacesAgree]
    exact collapse_optional_root _ _ path
  | input =>
    simp only [templateValue, structuralValue, evalReference_eq, resolveRoot, buildDslContext,
      structuralContext, Option.toList_some]
    cases path with
    | nil => simp [SurfacesAgree, collapse, eq_comm]
    | cons seg rest =>
      rw [select_cons, select_cons, applySegment_singleton, applySegment_singleton]
      cases seg with
      | field key =>
        have hbag : applyOne (.field key) s.resolutionContext =
            ((s.kernelBinding key).or (s.input.get key)).toList := by
          rw [← resolutionContext_get]
          rfl
        have hin : applyOne (.field key) s.input = (s.input.get key).toList := by
          cases s.input <;> rfl
        rw [hbag, hin, SurfacesAgree]
        cases s.kernelBinding key with
        | none => simp
        | some bound => simp
      | index i => exact collapse_bag_seg s (.index i) rest rfl rfl
      | wildcard => exact collapse_bag_seg s .wildcard rest rfl rfl
      | filterEq field value => exact collapse_bag_seg s (.filterEq field value) rest rfl rfl

/-- A run whose input has a field named like a kernel namespace. -/
def collidingState : ExecutionState :=
  .new "demo" (.ofSteps [])
    (.object [("config", .string "mine"), ("other", .object [("name", .string "notes")])])
    (.object [("host", .string "kernel")]) .null none ⟨1000000, 64⟩

/-- `$input.config` is the plugin's configuration in a template and the caller's field in a
structural expression. -/
theorem input_config_reads_differ :
    collidingState.templateValue ⟨.input, [.field "config"]⟩ ≠
      collidingState.structuralValue none ⟨.input, [.field "config"]⟩ := by
  decide +kernel

/-- Beside it, a field of no such name is the caller's on both. -/
theorem input_other_reads_agree :
    collidingState.structuralValue none ⟨.input, [.field "other", .field "name"]⟩ =
        .string "notes" ∧
      collidingState.templateValue ⟨.input, [.field "other", .field "name"]⟩ =
        collidingState.structuralValue none ⟨.input, [.field "other", .field "name"]⟩ :=
  ⟨by decide +kernel, (collidingState.templateValue_eq_structuralValue_iff none
    ⟨.input, [.field "other", .field "name"]⟩ (by decide)).mpr
      (fun _ h => by simp [kernelBinding] at h)⟩

end ExecutionState

end Gwead
