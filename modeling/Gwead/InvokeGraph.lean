import Gwead.Lib.DepthFirst
import Gwead.Registry

/-!
# The graph of invoke steps

Edges from an action to the actions its steps name, and the check that all registered edges
together have no cycle.  By-role invokes and unknown aliases give no edge.
-/

namespace Gwead

inductive InvokeCycleError where
  | cycle (nodes : List NodeRef)
  | malformedInnerStep (action stepType error : String)
  deriving DecidableEq

def formatCycle (nodes : List NodeRef) : String :=
  " → ".intercalate (nodes.map fun n => n.1 ++ "." ++ n.2)

def InvokeCycleError.display : InvokeCycleError → String
  | cycle nodes =>
    "invoke graph contains a structural cycle through by-plugin edges: " ++ formatCycle nodes
  | malformedInnerStep action stepType error =>
    "invoke edge collection: action '" ++ action ++ "' contains a malformed inner step in a `" ++
      stepType ++ "` body that failed to parse as StepDef: " ++ error

abbrev AliasResolver := String → Option NodeRef

/-- Run a fallible step over a list and join what each returns. -/
def collectAll {α β ε : Type} (f : α → Except ε (List β)) : List α → Except ε (List β)
  | [] => .ok []
  | a :: rest =>
    match f a with
    | .error e => .error e
    | .ok out =>
      match collectAll f rest with
      | .error e => .error e
      | .ok outs => .ok (out ++ outs)

/-- Read every entry of a body; `describe` is the reader's message for one it refuses. -/
def parseInner (describe : Value → String) : List Value → Except String (List StepDef)
  | [] => .ok []
  | v :: rest =>
    match StepDef.fromInnerValue v with
    | none => .error (describe v)
    | some step =>
      match parseInner describe rest with
      | .error e => .error e
      | .ok steps => .ok (step :: steps)

theorem mem_collectAll {α β ε : Type} {f : α → Except ε (List β)} {l : List α} {outs : List β}
    (h : collectAll f l = .ok outs) {b : β} :
    b ∈ outs ↔ ∃ a ∈ l, ∃ out, f a = .ok out ∧ b ∈ out := by
  induction l generalizing outs with
  | nil =>
    cases h
    simp
  | cons a rest ih =>
    rw [collectAll] at h
    cases ha : f a with
    | error e => simp [ha] at h
    | ok out =>
      simp only [ha] at h
      cases hrest : collectAll f rest with
      | error e => simp [hrest] at h
      | ok outs' =>
        simp only [hrest] at h
        cases h
        simp [ih hrest, ha]

theorem collectAll_ok {α β ε : Type} {f : α → Except ε (List β)} {l : List α} {outs : List β}
    (h : collectAll f l = .ok outs) : ∀ a ∈ l, ∃ out, f a = .ok out := by
  induction l generalizing outs with
  | nil => nofun
  | cons a rest ih =>
    rw [collectAll] at h
    cases ha : f a with
    | error e => simp [ha] at h
    | ok out =>
      simp only [ha] at h
      cases hrest : collectAll f rest with
      | error e => simp [hrest] at h
      | ok outs' =>
        intro b hb
        rcases List.mem_cons.mp hb with rfl | hb
        · exact ⟨out, ha⟩
        · exact ih hrest b hb

section Collect

variable (describe : Value → String) (plugin actionName : String) (aliases : AliasResolver)

def walkInnerArray (inner : List StepDef → Except InvokeCycleError (List InvokeEdge))
    (stepType : String) (body : List Value) : Except InvokeCycleError (List InvokeEdge) :=
  match parseInner describe body with
  | .error e => .error (.malformedInnerStep actionName stepType e)
  | .ok steps => inner steps

/-- The target of an `invoke` step whose `plugin` and `action` are strings. -/
def invokeTarget (params : Value) : Option NodeRef :=
  match (params.get "plugin").bind Value.asStr, (params.get "action").bind Value.asStr with
  | some targetPlugin, some targetAction => some (targetPlugin, targetAction)
  | _, _ => none

def edgeTo (target : NodeRef) : InvokeEdge := ⟨(plugin, actionName), target⟩

/-- The arrays a step's bodies are in, or none when the step has no bodies. -/
def stepBodies (step : StepDef) : Option (List (List Value)) :=
  if step.stepType = "ifs" then
    some ((arrayAt step.params "ifs").filterMap fun branch =>
      (branch.get "then").bind Value.asArray)
  else if step.stepType = "try" then
    some (["try", "catch", "finally"].filterMap fun key =>
      (step.params.get key).bind Value.asArray)
  else if step.stepType = "parallel" then
    some ((arrayAt step.params "branches").filterMap Value.asArray)
  else if step.stepType = "for_each" ∨ step.stepType = "repeat" then
    ((step.params.get "steps").bind Value.asArray).map fun body => [body]
  else none

def collectFromStep (inner : List StepDef → Except InvokeCycleError (List InvokeEdge))
    (step : StepDef) : Except InvokeCycleError (List InvokeEdge) :=
  if step.stepType = "invoke" then
    .ok ((invokeTarget step.params).map (edgeTo plugin actionName)).toList
  else
    match stepBodies step with
    | some bodies => collectAll (walkInnerArray describe actionName inner step.stepType) bodies
    | none => .ok ((aliases step.stepType).map (edgeTo plugin actionName)).toList

/-- Edges of steps whose bodies nest less than `n` deep. -/
def collectFromStepsTo : Nat → List StepDef → Except InvokeCycleError (List InvokeEdge)
  | 0, _ => .ok []
  | n + 1, steps =>
    collectAll (collectFromStep describe plugin actionName aliases (collectFromStepsTo n)) steps

/-- More than any body of the steps nests. -/
def stepsDepth (steps : List StepDef) : Nat :=
  steps.foldr (fun step m => max (step.params.depth + 1) m) 0

def collectEdges (steps : List StepDef) : Except InvokeCycleError (List InvokeEdge) :=
  collectFromStepsTo describe plugin actionName aliases (stepsDepth steps) steps

end Collect

/-! ### Steps at any depth -/

/-- A step of a list, or of a body of one of its steps, at any nesting depth. -/
inductive Nested : List StepDef → StepDef → Prop
  | top {steps : List StepDef} {step : StepDef} (h : step ∈ steps) : Nested steps step
  | inner {steps : List StepDef} {parent step : StepDef} {bodies : List (List Value)}
      {body : List Value} (hparent : parent ∈ steps) (hbodies : stepBodies parent = some bodies)
      (hbody : body ∈ bodies) (hn : Nested (body.filterMap StepDef.fromInnerValue) step) :
      Nested steps step

/-- The node a step gives an edge to. -/
def stepTarget (aliases : AliasResolver) (step : StepDef) : Option NodeRef :=
  if step.stepType = "invoke" then invokeTarget step.params
  else if (stepBodies step).isNone then aliases step.stepType
  else none

theorem depth_stepBodies {step : StepDef} {bodies : List (List Value)}
    (h : stepBodies step = some bodies) {body : List Value} (hbody : body ∈ bodies) {v : Value}
    (hv : v ∈ body) : v.depth < step.params.depth := by
  have harray : ∀ {w : Value} {key : String} {items : List Value},
      (w.get key).bind Value.asArray = some items → ∀ u ∈ items, u.depth < w.depth := by
    intro w key items hitems u hu
    obtain ⟨a, ha, hitems⟩ := Option.bind_eq_some_iff.mp hitems
    exact (Value.depth_mem hitems hu).trans (Value.depth_get ha)
  have harrayAt : ∀ {key : String}, ∀ u ∈ arrayAt step.params key,
      u.depth < step.params.depth := by
    intro key u hu
    rw [arrayAt] at hu
    cases hitems : (step.params.get key).bind Value.asArray with
    | none => simp [hitems] at hu
    | some items =>
      rw [hitems] at hu
      exact harray hitems u hu
  rw [stepBodies] at h
  split at h
  · cases h
    obtain ⟨branch, hbranch, hitems⟩ := List.mem_filterMap.mp hbody
    exact (harray hitems v hv).trans (harrayAt branch hbranch)
  · split at h
    · cases h
      obtain ⟨key, -, hitems⟩ := List.mem_filterMap.mp hbody
      exact harray hitems v hv
    · split at h
      · cases h
        obtain ⟨branch, hbranch, hitems⟩ := List.mem_filterMap.mp hbody
        exact (Value.depth_mem hitems hv).trans (harrayAt branch hbranch)
      · split at h
        · obtain ⟨items, hitems, rfl⟩ := Option.map_eq_some_iff.mp h
          rw [List.mem_singleton.mp hbody] at hv
          exact harray hitems v hv
        · cases h

theorem depth_fromInnerValue {v : Value} {step : StepDef}
    (h : StepDef.fromInnerValue v = some step) : step.params.depth ≤ v.depth := by
  obtain ⟨hid, -, hparams⟩ := StepDef.fromInnerValue_some h
  rw [hparams]
  cases hp : v.get "params" with
  | some params => exact (Value.depth_get hp).le
  | none =>
    obtain ⟨idText, hget, -⟩ := Option.bind_eq_some_iff.mp hid
    have hlt := Value.depth_get hget
    have hempty : Value.emptyObject.depth = 1 := rfl
    rw [Option.getD_none, hempty]
    omega

theorem parseInner_ok {describe : Value → String} {body : List Value} {steps : List StepDef}
    (h : parseInner describe body = .ok steps) : steps = body.filterMap StepDef.fromInnerValue := by
  induction body generalizing steps with
  | nil =>
    cases h
    rfl
  | cons v rest ih =>
    rw [parseInner] at h
    cases hv : StepDef.fromInnerValue v with
    | none => simp [hv] at h
    | some step =>
      simp only [hv] at h
      cases hrest : parseInner describe rest with
      | error e => simp [hrest] at h
      | ok steps' =>
        simp only [hrest] at h
        cases h
        rw [List.filterMap_cons, hv, ih hrest]

section Targets

variable {describe : Value → String} {plugin actionName : String} {aliases : AliasResolver}

theorem lt_stepsDepth {steps : List StepDef} {step : StepDef} (h : step ∈ steps) :
    step.params.depth < stepsDepth steps := by
  induction steps with
  | nil => cases h
  | cons s rest ih =>
    have hcons : stepsDepth (s :: rest) = max (s.params.depth + 1) (stepsDepth rest) := rfl
    rw [hcons]
    rcases List.mem_cons.mp h with rfl | h
    · omega
    · have hlt := ih h
      omega

/-- When a step's edges are collected, so are those of each of its bodies. -/
theorem collectFromStep_inner {inner : List StepDef → Except InvokeCycleError (List InvokeEdge)}
    {step : StepDef} {out : List InvokeEdge}
    (h : collectFromStep describe plugin actionName aliases inner step = .ok out)
    {bodies : List (List Value)} (hbodies : stepBodies step = some bodies) {body : List Value}
    (hbody : body ∈ bodies) :
    ∃ out', inner (body.filterMap StepDef.fromInnerValue) = .ok out' := by
  have hinvoke : step.stepType ≠ "invoke" := by
    intro heq
    simp [stepBodies, heq] at hbodies
  rw [collectFromStep, if_neg hinvoke] at h
  simp only [hbodies] at h
  obtain ⟨out', hout'⟩ := collectAll_ok h body hbody
  rw [walkInnerArray] at hout'
  cases hparse : parseInner describe body with
  | error err => simp [hparse] at hout'
  | ok steps =>
    simp only [hparse, parseInner_ok hparse] at hout'
    exact ⟨out', hout'⟩

/-- What one step adds: its own target, or what its bodies add. -/
theorem mem_collectFromStep {inner : List StepDef → Except InvokeCycleError (List InvokeEdge)}
    {step : StepDef} {out : List InvokeEdge}
    (h : collectFromStep describe plugin actionName aliases inner step = .ok out)
    {e : InvokeEdge} : e ∈ out ↔
      (∃ t, stepTarget aliases step = some t ∧ edgeTo plugin actionName t = e) ∨
        ∃ bodies, stepBodies step = some bodies ∧ ∃ body ∈ bodies, ∃ out',
          inner (body.filterMap StepDef.fromInnerValue) = .ok out' ∧ e ∈ out' := by
  rw [collectFromStep] at h
  by_cases hinvoke : step.stepType = "invoke"
  · rw [if_pos hinvoke] at h
    cases h
    have hnone : stepBodies step = none := by simp [stepBodies, hinvoke]
    simp [stepTarget, hinvoke, hnone]
  · rw [if_neg hinvoke] at h
    cases hbodies : stepBodies step with
    | none =>
      simp only [hbodies] at h
      cases h
      simp [stepTarget, hinvoke, hbodies]
    | some bodies =>
      simp only [hbodies] at h
      have htarget : stepTarget aliases step = none := by
        simp [stepTarget, hinvoke, hbodies]
      rw [mem_collectAll h, htarget]
      constructor
      · rintro ⟨body, hbody, out', hout', he⟩
        rw [walkInnerArray] at hout'
        cases hparse : parseInner describe body with
        | error err => simp [hparse] at hout'
        | ok steps =>
          simp only [hparse] at hout'
          rw [parseInner_ok hparse] at hout'
          exact Or.inr ⟨bodies, rfl, body, hbody, out', hout', he⟩
      · rintro (⟨t, ht, -⟩ | ⟨bodies', heq, body, hbody, out', hout', he⟩)
        · cases ht
        · cases heq
          refine ⟨body, hbody, out', ?_, he⟩
          obtain ⟨out'', hout''⟩ := collectAll_ok h body hbody
          rw [walkInnerArray] at hout'' ⊢
          cases hparse : parseInner describe body with
          | error err => simp [hparse] at hout''
          | ok steps =>
            simp only [hparse] at hout'' ⊢
            rw [parseInner_ok hparse] at hout'' ⊢
            exact hout'

/-- A step of a list is one of its members, or a step of a body of one. -/
theorem nested_iff {steps : List StepDef} {step : StepDef} :
    Nested steps step ↔ step ∈ steps ∨ ∃ parent ∈ steps, ∃ bodies,
      stepBodies parent = some bodies ∧ ∃ body ∈ bodies,
        Nested (body.filterMap StepDef.fromInnerValue) step := by
  constructor
  · rintro (h | ⟨hparent, hbodies, hbody, hn⟩)
    · exact Or.inl h
    · exact Or.inr ⟨_, hparent, _, hbodies, _, hbody, hn⟩
  · rintro (h | ⟨parent, hparent, bodies, hbodies, body, hbody, hn⟩)
    · exact .top h
    · exact .inner hparent hbodies hbody hn

theorem mem_collectFromStepsTo {n : Nat} {steps : List StepDef} {edges : List InvokeEdge}
    (hdepth : ∀ step ∈ steps, step.params.depth < n)
    (h : collectFromStepsTo describe plugin actionName aliases n steps = .ok edges)
    {e : InvokeEdge} : e ∈ edges ↔ ∃ step, Nested steps step ∧
      ∃ t, stepTarget aliases step = some t ∧ edgeTo plugin actionName t = e := by
  induction n generalizing steps edges with
  | zero =>
    cases h
    cases steps with
    | nil =>
      refine ⟨nofun, ?_⟩
      rintro ⟨step, hn, -⟩
      rcases nested_iff.mp hn with hmem | ⟨parent, hmem, -⟩
      · cases hmem
      · cases hmem
    | cons step rest => exact absurd (hdepth step List.mem_cons_self) (Nat.not_lt_zero _)
  | succ n ih =>
    have hinner : ∀ parent ∈ steps, ∀ bodies, stepBodies parent = some bodies →
        ∀ body ∈ bodies, ∀ step ∈ body.filterMap StepDef.fromInnerValue, step.params.depth < n := by
      intro parent hparent bodies hbodies body hbody step hstep
      obtain ⟨v, hv, hread⟩ := List.mem_filterMap.mp hstep
      have h₁ := depth_fromInnerValue hread
      have h₂ := depth_stepBodies hbodies hbody hv
      have h₃ := hdepth parent hparent
      omega
    rw [mem_collectAll h]
    constructor
    · rintro ⟨parent, hparent, out, hout, he⟩
      rcases (mem_collectFromStep hout).mp he with htarget | hbody
      · exact ⟨parent, .top hparent, htarget⟩
      · obtain ⟨bodies, hbodies, body, hbody, out', hout', he⟩ := hbody
        have hsteps := hinner parent hparent bodies hbodies body hbody
        obtain ⟨step, hn, htarget⟩ := (ih hsteps hout').mp he
        exact ⟨step, .inner hparent hbodies hbody hn, htarget⟩
    · rintro ⟨step, hn, htarget⟩
      rcases nested_iff.mp hn with hmem | ⟨parent, hparent, bodies, hbodies, body, hbody, hn⟩
      · obtain ⟨out, hout⟩ := collectAll_ok h step hmem
        exact ⟨step, hmem, out, hout, (mem_collectFromStep hout).mpr (Or.inl htarget)⟩
      · obtain ⟨out, hout⟩ := collectAll_ok h parent hparent
        obtain ⟨out', hout'⟩ := collectFromStep_inner hout hbodies hbody
        have hsteps := hinner parent hparent bodies hbodies body hbody
        have he := (ih hsteps hout').mpr ⟨step, hn, htarget⟩
        exact ⟨parent, hparent, out, hout,
          (mem_collectFromStep hout).mpr (Or.inr ⟨bodies, hbodies, body, hbody, out', hout', he⟩)⟩

/-- The edges collected from steps are the targets of the steps at any depth. -/
theorem mem_collectEdges {steps : List StepDef} {edges : List InvokeEdge}
    (h : collectEdges describe plugin actionName aliases steps = .ok edges) {e : InvokeEdge} :
    e ∈ edges ↔ ∃ step, Nested steps step ∧
      ∃ t, stepTarget aliases step = some t ∧ edgeTo plugin actionName t = e :=
  mem_collectFromStepsTo (fun _ hstep => lt_stepsDepth hstep) h

/-- Every collected edge starts at the action whose steps were walked. -/
theorem collectEdges_from {steps : List StepDef} {edges : List InvokeEdge}
    (h : collectEdges describe plugin actionName aliases steps = .ok edges) :
    ∀ e ∈ edges, e.from = (plugin, actionName) := by
  intro e he
  obtain ⟨_, -, t, -, rfl⟩ := (mem_collectEdges h).mp he
  rfl

end Targets

/-! ### Declared references -/

inductive DeclaredReferenceError where
  | unknownPlugin (action stepType plugin pluginKey : String)
  | unknownAction (action stepType plugin actionTarget pluginKey actionKey : String)
  deriving DecidableEq

def DeclaredReferenceError.display : DeclaredReferenceError → String
  | unknownPlugin action stepType plugin pluginKey =>
    "action '" ++ action ++ "' step type '" ++ stepType ++ "' references unknown plugin '" ++
      plugin ++ "' (from key '" ++ pluginKey ++ "')"
  | unknownAction action stepType plugin actionTarget pluginKey actionKey =>
    "action '" ++ action ++ "' step type '" ++ stepType ++ "' references unknown action '" ++
      plugin ++ "." ++ actionTarget ++ "' (plugin key '" ++ pluginKey ++ "', action key '" ++
      actionKey ++ "')"

def containsBraces : List Char → Bool
  | '{' :: '{' :: _ => true
  | _ :: cs => containsBraces cs
  | [] => false

def isTemplated (s : String) : Bool := containsBraces s.toList || s.toList.head? == some '$'

def literalReferenceTarget (params : Value) (reference : StepReference) : Option NodeRef :=
  match (params.get reference.plugin).bind Value.asStr,
      (params.get reference.action).bind Value.asStr with
  | some plugin, some action =>
    if isTemplated plugin || isTemplated action then none else some (plugin, action)
  | _, _ => none

section References

variable (plugin actionName : String) (defResolver : String → Option StepTypeDef)
  (pluginExists : String → Bool) (actionExists : String → String → Bool)

def collectReference (step : StepDef) (reference : StepReference) :
    Except DeclaredReferenceError (List InvokeEdge) :=
  match literalReferenceTarget step.params reference with
  | none => .ok []
  | some target =>
    if ¬ pluginExists target.1 then
      .error (.unknownPlugin actionName step.stepType target.1 reference.plugin)
    else if ¬ actionExists target.1 target.2 then
      .error (.unknownAction actionName step.stepType target.1 target.2 reference.plugin
        reference.action)
    else .ok [edgeTo plugin actionName target]

/-- Top-level steps only: the references of nested steps are not walked. -/
def collectDeclaredReferences (steps : List StepDef) :
    Except DeclaredReferenceError (List InvokeEdge) :=
  collectAll
    (fun step =>
      match defResolver step.stepType with
      | none => .ok []
      | some definition =>
        collectAll (collectReference plugin actionName pluginExists actionExists step)
          definition.references)
    steps

variable {plugin actionName defResolver pluginExists actionExists}

theorem mem_collectReference {step : StepDef} {reference : StepReference}
    {out : List InvokeEdge}
    (h : collectReference plugin actionName pluginExists actionExists step reference = .ok out)
    {e : InvokeEdge} : e ∈ out ↔
      ∃ t, literalReferenceTarget step.params reference = some t ∧ edgeTo plugin actionName t = e := by
  rw [collectReference] at h
  cases htarget : literalReferenceTarget step.params reference with
  | none =>
    simp only [htarget] at h
    cases h
    simp
  | some target =>
    simp only [htarget] at h
    split at h
    · cases h
    · split at h
      · cases h
      · cases h
        simp [eq_comm]

/-- The edges of declared references are the literal targets of the top-level steps. -/
theorem mem_collectDeclaredReferences {steps : List StepDef} {edges : List InvokeEdge}
    (h : collectDeclaredReferences plugin actionName defResolver pluginExists actionExists steps =
      .ok edges) {e : InvokeEdge} : e ∈ edges ↔ ∃ step ∈ steps, ∃ definition,
        defResolver step.stepType = some definition ∧ ∃ reference ∈ definition.references,
          ∃ t, literalReferenceTarget step.params reference = some t ∧
            edgeTo plugin actionName t = e := by
  rw [mem_collectAll h]
  constructor
  · rintro ⟨step, hstep, out, hout, he⟩
    cases hdef : defResolver step.stepType with
    | none =>
      simp only [hdef] at hout
      cases hout
      cases he
    | some definition =>
      simp only [hdef] at hout
      obtain ⟨reference, href, out', hout', he⟩ := (mem_collectAll hout).mp he
      exact ⟨step, hstep, definition, hdef, reference, href, (mem_collectReference hout').mp he⟩
  · rintro ⟨step, hstep, definition, hdef, reference, href, htarget⟩
    obtain ⟨out, hout⟩ := collectAll_ok h step hstep
    refine ⟨step, hstep, out, hout, ?_⟩
    simp only [hdef] at hout
    obtain ⟨out', hout'⟩ := collectAll_ok hout reference href
    exact (mem_collectAll hout).mpr
      ⟨reference, href, out', hout', (mem_collectReference hout').mpr htarget⟩

theorem collectDeclaredReferences_from {steps : List StepDef} {edges : List InvokeEdge}
    (h : collectDeclaredReferences plugin actionName defResolver pluginExists actionExists steps =
      .ok edges) : ∀ e ∈ edges, e.from = (plugin, actionName) := by
  intro e he
  obtain ⟨_, -, _, -, _, -, t, -, rfl⟩ := (mem_collectDeclaredReferences h).mp he
  rfl

end References

/-! ### Cycles -/

def successors (edges : List InvokeEdge) (node : NodeRef) : List NodeRef :=
  (edges.filter fun e => e.from == node).map InvokeEdge.to

/-- The nodes with edges out of them.  The source's order over them is its hash map's; any order
gives the same verdict. -/
def edgeSources (edges : List InvokeEdge) : List NodeRef := (edges.map InvokeEdge.from).dedup

def edgeNodes (edges : List InvokeEdge) : List NodeRef :=
  (edges.map InvokeEdge.from ++ edges.map InvokeEdge.to).dedup

/-- Whether existing and new edges together have a cycle. -/
def checkAcyclic (existing newEdges : List InvokeEdge) : Except InvokeCycleError Unit :=
  let edges := existing ++ newEdges
  match DepthFirst.findCycle (successors edges) (edgeNodes edges) (edgeSources edges) with
  | some nodes => .error (.cycle nodes)
  | none => .ok ()

def EdgeBetween (edges : List InvokeEdge) (a b : NodeRef) : Prop := ⟨a, b⟩ ∈ edges

def Acyclic (edges : List InvokeEdge) : Prop :=
  ∀ a, ¬ Relation.TransGen (EdgeBetween edges) a a

theorem mem_successors {edges : List InvokeEdge} {a b : NodeRef} :
    b ∈ successors edges a ↔ EdgeBetween edges a b := by
  simp only [successors, EdgeBetween, List.mem_map, List.mem_filter, beq_iff_eq]
  constructor
  · rintro ⟨e, ⟨he, rfl⟩, rfl⟩
    exact he
  · intro h
    exact ⟨⟨a, b⟩, ⟨h, rfl⟩, rfl⟩

theorem nodup_edgeNodes (edges : List InvokeEdge) : (edgeNodes edges).Nodup := List.nodup_dedup _

theorem successors_mem_edgeNodes {edges : List InvokeEdge} {n m : NodeRef}
    (h : m ∈ successors edges n) : m ∈ edgeNodes edges := by
  rw [edgeNodes, List.mem_dedup, List.mem_append]
  exact Or.inr (List.mem_map.mpr ⟨_, mem_successors.mp h, rfl⟩)

theorem edgeSources_mem_edgeNodes {edges : List InvokeEdge} {n : NodeRef}
    (h : n ∈ edgeSources edges) : n ∈ edgeNodes edges := by
  rw [edgeSources, List.mem_dedup] at h
  rw [edgeNodes, List.mem_dedup]
  exact List.mem_append_left _ h

theorem mem_edgeSources {edges : List InvokeEdge} {n : NodeRef} (h : successors edges n ≠ []) :
    n ∈ edgeSources edges := by
  obtain ⟨m, hm⟩ := List.exists_mem_of_ne_nil _ h
  rw [edgeSources, List.mem_dedup]
  exact List.mem_map.mpr ⟨_, mem_successors.mp hm, rfl⟩

theorem acyclic_nil : Acyclic [] := by
  intro a hcycle
  obtain ⟨b, hedge, -⟩ := Relation.TransGen.head'_iff.mp hcycle
  cases hedge

/-- Fewer edges have no more cycles. -/
theorem Acyclic.subset {edges edges' : List InvokeEdge} (h : Acyclic edges)
    (hsub : ∀ e ∈ edges', e ∈ edges) : Acyclic edges' := fun a hcycle =>
  h a (Relation.TransGen.mono (fun _ _ hxy => hsub _ hxy) _ _ hcycle)

end Gwead
