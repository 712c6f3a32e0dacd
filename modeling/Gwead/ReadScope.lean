import Gwead.Edges

/-!
# What a step's parameters can read

Two states that differ only in results a step has no edge to resolve its parameters alike, as
long as the templates reach step results through contiguous `$steps.<id>` references or through
ids the planner knows of.
-/

namespace Gwead

open Dsl

/-- The states differ at most in the results and metadata of steps that are not visible. -/
structure AgreeOn (visible : String → Prop) (s s' : ExecutionState) : Prop where
  rest : s' = { s with stepResults := s'.stepResults, stepMetadata := s'.stepMetadata }
  results : ∀ id, visible id → s.stepResults.get? id = s'.stepResults.get? id
  metadata : ∀ id, visible id → s.stepMetadata.get? id = s'.stepMetadata.get? id

/-- The ids of the steps a step has an edge to, and of those its own bodies define. -/
def VisibleTo (action : Action) (plan : DagPlan) (i : Nat) (id : String) : Prop :=
  (∃ d ∈ plan.depsOf i, (action.steps.map (·.id))[d]? = some id) ∨
    ∃ step, action.steps[i]? = some step ∧ id ∈ collectInnerStepIds step.params

/-- Resolving a step's parameters reads no results but the visible ones. -/
def ReadsThroughEdges (floatText : Binary64 → String) (action : Action) (plan : DagPlan)
    (i : Nat) : Prop :=
  ∀ step, action.steps[i]? = some step → ∀ s s', AgreeOn (VisibleTo action plan i) s s' →
    resolveValue floatText step.params s.resolutionContext =
      resolveValue floatText step.params s'.resolutionContext

/-- The ids whose results a step may read: the planner's references and its own inner steps. -/
def Tracked (step : StepDef) (id : String) : Prop :=
  id ∈ extractStepDeps step ∨ id ∈ collectInnerStepIds step.params

/-- A path into the variables bag that stays clear of untracked step results. -/
def bagPathTracked (tracked : String → Prop) : List PathSegment → Prop
  | [] => False
  | [.field name] => name ≠ "steps"
  | .field name :: .field id :: _ => name = "steps" → tracked id
  | _ => True

/-- A template text in which nothing separates the tokens of a `$steps.<id>` reference, unless
the id is tracked anyway, and in which no `$` or `$input` reaches untracked step results. -/
def TextTracked (tracked : String → Prop) (text : List Char) : Prop :=
  ∀ e, Parser.runAll Parser.parseExpression text = .ok e →
    (∀ r ∈ e.refs, r.root = .input ∨ r.root = .implicit → bagPathTracked tracked r.path) ∧
      ∀ toks, tokenize text = .ok toks → ∀ p₀ p₁ p₂ p₃ id, stepsWindow p₀ p₁ p₂ p₃ id <:+: toks →
        (p₁ = p₀ + 1 ∧ p₂ = p₀ + 6 ∧ p₃ = p₀ + 7) ∨ tracked id

def StepTracked (step : StepDef) : Prop :=
  ∀ text ∈ paramTexts step.params, TextTracked (Tracked step) text

namespace ExecutionState

theorem buildDslStepsView_get (s : ExecutionState) (id : String) :
    s.buildDslStepsView.get id =
      (s.stepResults.get? id).map fun v => s.wrapStep id (s.effectiveResult id v) := by
  have hkeys : (s.stepResults.entries.map fun e =>
      (e.1, s.wrapStep e.1 (s.effectiveResult e.1 e.2))).map Prod.fst =
        s.stepResults.entries.map Prod.fst := by
    rw [List.map_map]
    rfl
  rw [buildDslStepsView_eq, Value.ofFields, Value.get_object,
    AssocMap.lookup_ofEntries _ _ (hkeys ▸ s.stepResults.nodup),
    AssocMap.lookup_map_values fun k v => s.wrapStep k (s.effectiveResult k v)]
  rfl

end ExecutionState

section Agreement

variable {visible : String → Prop} {s s' : ExecutionState}

theorem AgreeOn.bag_get (h : AgreeOn visible s s') {key : String} (hk : key ≠ "steps") :
    s.resolutionContext.get key = s'.resolutionContext.get key := by
  obtain ⟨R, M, rfl⟩ : ∃ R M, s' = { s with stepResults := R, stepMetadata := M } :=
    ⟨_, _, h.rest⟩
  rw [ExecutionState.resolutionContext_get, ExecutionState.resolutionContext_get]
  simp only [ExecutionState.kernelBinding, if_neg hk]
  rfl

theorem AgreeOn.view_get (h : AgreeOn visible s s') {id : String} (hv : visible id) :
    s.buildDslStepsView.get id = s'.buildDslStepsView.get id := by
  have hr := h.results id hv
  have hm := h.metadata id hv
  obtain ⟨R, M, rfl⟩ : ∃ R M, s' = { s with stepResults := R, stepMetadata := M } :=
    ⟨_, _, h.rest⟩
  rw [ExecutionState.buildDslStepsView_get, ExecutionState.buildDslStepsView_get, hr]
  simp only [ExecutionState.wrapStep, hm]
  rfl

theorem bag_steps (s : ExecutionState) :
    s.resolutionContext.get "steps" = some s.buildDslStepsView := by
  rw [ExecutionState.resolutionContext_get]
  simp [ExecutionState.kernelBinding]

/-- Following a tracked path into either bag gives the same selection. -/
theorem AgreeOn.select_bag (h : AgreeOn visible s s') {path : List PathSegment}
    (hp : bagPathTracked visible path) :
    select path [s.resolutionContext] = select path [s'.resolutionContext] := by
  have hfield : ∀ (t : ExecutionState) (name : String),
      applySegment (.field name) [t.resolutionContext] =
        (t.resolutionContext.get name).toList := fun t name => by
    rw [applySegment_singleton]
    rfl
  cases path with
  | nil => exact hp.elim
  | cons seg rest =>
    cases seg with
    | field name =>
      rw [select_cons, select_cons, hfield, hfield]
      by_cases hn : name = "steps"
      · subst hn
        rw [bag_steps, bag_steps, Option.toList_some, Option.toList_some]
        cases rest with
        | nil => exact absurd rfl hp
        | cons seg' rest' =>
          rw [select_cons, select_cons, applySegment_singleton, applySegment_singleton]
          cases seg' with
          | field id =>
            have hg := h.view_get (hp rfl)
            have happ : ∀ t : ExecutionState, applyOne (.field id) t.buildDslStepsView =
                (t.buildDslStepsView.get id).toList := fun t => rfl
            rw [happ, happ, hg]
          | index i => rfl
          | wildcard => rfl
          | filterEq f v => rfl
      · rw [h.bag_get hn]
    | index i => rfl
    | wildcard => rfl
    | filterEq f v => rfl

/-- A reference reads the same from both bags when it reaches visible results only. -/
theorem AgreeOn.evalReference_eq (h : AgreeOn visible s s') {r : Reference}
    (hbag : r.root = .input ∨ r.root = .implicit → bagPathTracked visible r.path)
    (hsteps : ∀ id, r.root = .steps id → visible id) :
    evalReference r (buildDslContext s.resolutionContext) =
      evalReference r (buildDslContext s'.resolutionContext) := by
  obtain ⟨root, path⟩ := r
  rw [ExecutionState.evalReference_eq, ExecutionState.evalReference_eq]
  cases root with
  | input => exact congrArg collapse (h.select_bag (hbag (Or.inl rfl)))
  | implicit => exact congrArg collapse (h.select_bag (hbag (Or.inr rfl)))
  | steps id =>
    have hv := h.view_get (hsteps id rfl)
    simp only [resolveRoot, buildDslContext, bag_steps, Option.bind_some, hv]
  | config => simp only [resolveRoot, buildDslContext, h.bag_get (show "config" ≠ "steps" by decide)]
  | secrets => simp only [resolveRoot, buildDslContext, h.bag_get (show "secrets" ≠ "steps" by decide)]
  | trigger => simp only [resolveRoot, buildDslContext, h.bag_get (show "trigger" ≠ "steps" by decide)]
  | vars => simp only [resolveRoot, buildDslContext, h.bag_get (show "vars" ≠ "steps" by decide)]
  | item => simp only [resolveRoot, buildDslContext, h.bag_get (show "item" ≠ "steps" by decide)]

end Agreement

theorem bagPathTracked.imp {p q : String → Prop} (hpq : ∀ id, p id → q id)
    {path : List PathSegment} (h : bagPathTracked p path) : bagPathTracked q path := by
  unfold bagPathTracked at h ⊢
  split
  · exact h
  · exact h
  · rename_i name id rest
    exact fun hn => hpq id (h hn)
  · trivial

/-- In a tracked text of the parameters every step reference has a tracked id: a contiguous
reference is one the planner's pattern finds. -/
theorem tracked_of_ref {step : StepDef} {text : List Char} (htext : text ∈ paramTexts step.params)
    (ht : TextTracked (Tracked step) text) {e : Expression}
    (he : Parser.runAll Parser.parseExpression text = .ok e) {r : Reference} (hr : r ∈ e.refs)
    {id : String} (hid : r.root = .steps id) : Tracked step id := by
  obtain ⟨toks, htoks⟩ : ∃ toks, tokenize text = .ok toks := by
    unfold Parser.runAll at he
    split at he
    · cases he
    · rename_i toks htoks
      exact ⟨toks, htoks⟩
  obtain ⟨p₀, p₁, p₂, p₃, hw⟩ := Parser.runAll_window htoks he hr hid
  rcases (ht e he).2 toks htoks p₀ p₁ p₂ p₃ id hw with ⟨rfl, rfl, rfl⟩ | htracked
  · have hscan := mem_scanValue_of_spelled (spelledIn_of_tight htoks hw) step.params htext
    by_cases hin : id ∈ collectInnerStepIds step.params
    · exact Or.inr hin
    · exact Or.inl ((mem_extractStepDeps step id).mpr (Or.inr ⟨hscan, hin⟩))
  · exact htracked

/-- Edges cover every read of a step whose templates are tracked. -/
theorem readsThroughEdges_of_tracked (floatText : Binary64 → String) {action : Action}
    {plan : DagPlan} (hplan : buildPlan action = .ok plan) {i : Nat}
    (htracked : ∀ step, action.steps[i]? = some step → StepTracked step) :
    ReadsThroughEdges floatText action plan i := by
  intro step hstep s s' hagree
  have hvalid := buildPlan_valid hplan
  have hvisible : ∀ id, Tracked step id → VisibleTo action plan i id := by
    intro id hid
    obtain ⟨hi, hget⟩ := List.getElem?_eq_some_iff.mp hstep
    rcases hid with hid | hid
    · obtain ⟨d, hd, hdid⟩ := hvalid.ref_mem_deps i hi id (by rwa [hget])
      exact Or.inl ⟨d, hd, hdid⟩
    · exact Or.inr ⟨step, hstep, hid⟩
  apply resolveValue_congr
  intro text htext e he
  have htt := htracked step hstep text htext
  apply evalExpression_congr
  intro r hr
  apply hagree.evalReference_eq
  · exact fun hroot => ((htt e he).1 r hr hroot).imp hvisible
  · exact fun id hid => hvisible id (tracked_of_ref htext htt he hr hid)

/-- The second step reads the first one's result through the given template. -/
def readerAction (template : String) : Action :=
  .ofSteps [.new "a" "let" (.object [("value", .ofNat 1)]),
    .new "b" "let" (.object [("value", .string template)])]

def readerState (template : String) (results : IndexMap String Value) : ExecutionState :=
  { ExecutionState.new "demo" (readerAction template) .null .null .null none ⟨1000000, 64⟩ with
    stepResults := results }

def spacedTemplate : String := "\x7b\x7b$ steps.a.result\x7d\x7d"

def tightTemplate : String := "\x7b\x7b$steps.a.result\x7d\x7d"

/-- A blank after the `$` hides the reference from the planner and not from the parser. -/
theorem spaced_reference_reads_without_edge :
    buildPlan (readerAction spacedTemplate) = .ok ⟨[[0, 1]], [[], []], [[], []]⟩ ∧
      ¬ReadsThroughEdges Binary64.display (readerAction spacedTemplate)
        ⟨[[0, 1]], [[], []], [[], []]⟩ 1 := by
  refine ⟨by decide +kernel, fun h => ?_⟩
  have hagree : AgreeOn (VisibleTo (readerAction spacedTemplate) ⟨[[0, 1]], [[], []], [[], []]⟩ 1)
      (readerState spacedTemplate .empty)
      (readerState spacedTemplate (IndexMap.empty.insert "a" (.ofNat 1))) := by
    refine ⟨rfl, fun id hid => ?_, fun _ _ => rfl⟩
    rcases hid with ⟨d, hd, -⟩ | ⟨step, hstep, hid⟩
    · cases hd
    · cases hstep
      have hnone : collectInnerStepIds (.object [("value", .string spacedTemplate)]) = [] := by
        decide +kernel
      rw [StepDef.new, hnone] at hid
      cases hid
  have hread := h _ rfl _ _ hagree
  exact absurd hread (by decide +kernel)

theorem tight_reference_reads_through_edge :
    ReadsThroughEdges Binary64.display (readerAction tightTemplate)
      ⟨[[0], [1]], [[], [0]], [[1], []]⟩ 1 := by
  refine readsThroughEdges_of_tracked Binary64.display (by decide +kernel) ?_
  intro step hstep text htext
  cases hstep
  have htexts : paramTexts (.object [("value", .string tightTemplate)]) =
      ["$steps.a.result".toList] := by decide +kernel
  rw [StepDef.new, htexts] at htext
  cases List.mem_singleton.mp htext
  have hparse : Parser.runAll Parser.parseExpression "$steps.a.result".toList =
      .ok (.ref ⟨.steps "a", [.field "result"]⟩) := by decide +kernel
  intro e he
  cases hparse.symm.trans he
  refine ⟨fun r hr hroot => ?_, fun toks htoks p₀ p₁ p₂ p₃ id hw => Or.inl ?_⟩
  · cases List.mem_singleton.mp hr
    simp at hroot
  · have hlex : tokenize "$steps.a.result".toList =
        .ok [⟨.dollar, 0⟩, ⟨.ident "steps", 1⟩, ⟨.dot, 6⟩, ⟨.ident "a", 7⟩, ⟨.dot, 8⟩,
          ⟨.ident "result", 9⟩, ⟨.eof, 15⟩] := by decide +kernel
    cases hlex.symm.trans htoks
    simp [stepsWindow, List.infix_cons_iff] at hw
    omega

end Gwead
