import Gwead.StepCalls
import Gwead.StepTypeResolution

/-!
# What registration has checked of the steps that run

The walks over shapes and over invoke edges see every step that is called in a run.  The walk over
declared references sees the top-level steps only, and looks a step type up by its written name.
-/

namespace Gwead

open Identity Registration

/-! ### The walk over shapes -/

section Shapes

variable {describe : Value → String} {actionName : String} {inner : List StepDef → Except String Unit}
  {step : StepDef}

theorem firstError_of_ok {α ε : Type} {check : α → Except ε Unit} {l : List α}
    (h : ∀ a ∈ l, check a = .ok ()) : firstError check l = .ok () := by
  induction l with
  | nil => rfl
  | cons a rest ih =>
    rw [firstError, h a List.mem_cons_self]
    exact ih fun b hb => h b (List.mem_cons_of_mem _ hb)

/-- A body has been read: every entry is a step, and the steps have been walked. -/
structure BodyWalked (inner : List StepDef → Except String Unit) (body : List Value) : Prop where
  entries : ∀ v ∈ body, (StepDef.fromInnerValue v).isSome
  walked : inner (body.filterMap StepDef.fromInnerValue) = .ok ()

theorem parseBodyFrom_ok {keyPath : String} {i : Nat} {items : List Value} {steps : List StepDef}
    (h : parseBodyFrom describe actionName step keyPath i items = .ok steps) :
    (∀ v ∈ items, (StepDef.fromInnerValue v).isSome) ∧
      steps = items.filterMap StepDef.fromInnerValue := by
  induction items generalizing i steps with
  | nil =>
    cases h
    simp
  | cons v rest ih =>
    rw [parseBodyFrom] at h
    cases hread : StepDef.fromInnerValue v with
    | none => simp [hread] at h
    | some parsed =>
      simp only [hread] at h
      cases hrest : parseBodyFrom describe actionName step keyPath (i + 1) rest with
      | error e => simp [hrest] at h
      | ok steps' =>
        simp only [hrest] at h
        cases h
        obtain ⟨hentries, rfl⟩ := ih hrest
        simp [hread]
        simpa using hentries

theorem walkBody_ok {keyPath : String} {body : Option Value}
    (h : walkBody describe actionName inner step keyPath body = .ok ()) :
    walkBody describe actionName (fun _ => .ok ()) step keyPath body = .ok () ∧
      ∀ items, body.bind Value.asArray = some items → BodyWalked inner items := by
  unfold walkBody at h ⊢
  cases harray : requireArray actionName step keyPath body with
  | error e => simp [harray] at h
  | ok read =>
    cases read with
    | none =>
      refine ⟨rfl, fun items hitems => ?_⟩
      cases body with
      | none => cases hitems
      | some v => cases v <;> simp [requireArray] at harray
    | some items =>
      simp only [harray] at h ⊢
      cases hparse : parseBodyFrom describe actionName step keyPath 0 items with
      | error e => simp [hparse] at h
      | ok steps =>
        simp only [hparse] at h
        refine ⟨rfl, fun items' hitems' => ?_⟩
        have hbody : body = some (.array items) := by
          cases body with
          | none => cases harray
          | some v => cases v <;> simp_all [requireArray]
        rw [hbody] at hitems'
        cases hitems'
        obtain ⟨hentries, rfl⟩ := parseBodyFrom_ok hparse
        exact ⟨hentries, h⟩

theorem walkIfsBranch_ok {lastIdx : Nat} {branch : Value × Nat}
    (h : walkIfsBranch describe actionName inner step lastIdx branch = .ok ()) :
    walkIfsBranch describe actionName (fun _ => .ok ()) step lastIdx branch = .ok () ∧
      ∀ items, (branch.1.get "then").bind Value.asArray = some items → BodyWalked inner items := by
  obtain ⟨v, i⟩ := branch
  cases v with
  | object fields =>
    simp only [walkIfsBranch] at h ⊢
    cases htest : checkTest actionName step lastIdx (.object fields) i with
    | error e => simp [htest] at h
    | ok _ =>
      simp only [htest] at h ⊢
      exact walkBody_ok h
  | _ => cases h

theorem walkBranch_ok {branch : Value × Nat}
    (h : walkBranch describe actionName inner step branch = .ok ()) :
    walkBranch describe actionName (fun _ => .ok ()) step branch = .ok () ∧
      ∀ items, branch.1.asArray = some items → BodyWalked inner items := by
  unfold walkBranch at h ⊢
  cases harray : branch.1.asArray with
  | none => simp [harray] at h
  | some items =>
    simp only [harray] at h ⊢
    cases hparse : parseBodyFrom describe actionName step
        ("branches[" ++ toString branch.2 ++ "]") 0 items with
    | error e =>
      rw [hparse] at h
      cases h
    | ok steps =>
      simp only [hparse] at h
      obtain ⟨hentries, rfl⟩ := parseBodyFrom_ok hparse
      refine ⟨rfl, fun items' hitems' => ?_⟩
      cases hitems'
      exact ⟨hentries, h⟩

/-- A check that every element passes, and what passing it says. -/
theorem firstError_map {α ε : Type} {check check' : α → Except ε Unit} {Q : α → Prop} {l : List α}
    (hcheck : ∀ a, check a = .ok () → check' a = .ok () ∧ Q a) (h : firstError check l = .ok ()) :
    firstError check' l = .ok () ∧ ∀ a ∈ l, Q a := by
  have hall := fun a ha => hcheck a (firstError_ok h a ha)
  exact ⟨firstError_of_ok fun a ha => (hall a ha).1, fun a ha => (hall a ha).2⟩

theorem walkIfs_ok (h : walkIfs describe actionName inner step = .ok ()) :
    walkIfs describe actionName (fun _ => .ok ()) step = .ok () ∧
      ∀ branch ∈ arrayAt step.params "ifs", ∀ items,
        (branch.get "then").bind Value.asArray = some items → BodyWalked inner items := by
  unfold walkIfs at h ⊢
  cases hifs : step.params.get "ifs" with
  | none => simp [hifs] at h
  | some v =>
    cases v with
    | array branches =>
      simp only [hifs] at h ⊢
      obtain ⟨htrivial, hbranches⟩ := firstError_map (fun branch => walkIfsBranch_ok) h
      refine ⟨htrivial, fun branch hbranch => ?_⟩
      have hmem : branch ∈ branches := by simpa [arrayAt, hifs, Value.asArray] using hbranch
      obtain ⟨i, hi, rfl⟩ := List.getElem_of_mem hmem
      exact hbranches _ (List.mk_mem_zipIdx_iff_getElem?.mpr (List.getElem?_eq_getElem hi))
    | _ => simp [hifs] at h

theorem walkParallel_ok (h : walkParallel describe actionName inner step = .ok ()) :
    walkParallel describe actionName (fun _ => .ok ()) step = .ok () ∧
      ∀ branch ∈ arrayAt step.params "branches", ∀ items,
        branch.asArray = some items → BodyWalked inner items := by
  unfold walkParallel at h ⊢
  cases hget : step.params.get "branches" with
  | none => simp [arrayAt, hget]
  | some v =>
    cases v with
    | array branches =>
      simp only [hget] at h ⊢
      cases hcollide : checkBranchCollisions actionName step branches with
      | error e => simp [hcollide] at h
      | ok _ =>
        simp only [hcollide] at h ⊢
        obtain ⟨htrivial, hbranches⟩ := firstError_map (fun branch => walkBranch_ok) h
        refine ⟨htrivial, fun branch hbranch => ?_⟩
        have hmem : branch ∈ branches := by simpa [arrayAt, hget, Value.asArray] using hbranch
        obtain ⟨i, hi, rfl⟩ := List.getElem_of_mem hmem
        exact hbranches _ (List.mk_mem_zipIdx_iff_getElem?.mpr (List.getElem?_eq_getElem hi))
    | _ => simp [hget] at h

/-- When the bodies of a step have been walked, each of them was read whole and walked. -/
theorem walkBodies_ok (h : walkBodies describe actionName inner step = .ok ()) :
    walkBodies describe actionName (fun _ => .ok ()) step = .ok () ∧
      ∀ bodies, stepBodies step = some bodies → ∀ body ∈ bodies, BodyWalked inner body := by
  unfold walkBodies at h ⊢
  by_cases hloop : step.stepType = "for_each" ∨ step.stepType = "repeat"
  · rw [if_pos hloop] at h ⊢
    obtain ⟨htrivial, hitems⟩ := walkBody_ok h
    refine ⟨htrivial, fun bodies hbodies body hbody => hitems body ?_⟩
    have hsteps : ((step.params.get "steps").bind Value.asArray).map (fun body => [body]) =
        some bodies := by
      rcases hloop with hloop | hloop <;> simpa [stepBodies, hloop] using hbodies
    obtain ⟨items, hget, rfl⟩ := Option.map_eq_some_iff.mp hsteps
    rw [hget, List.mem_singleton.mp hbody]
  rw [if_neg hloop] at h ⊢
  unfold stepBodies
  by_cases hifs : step.stepType = "ifs"
  · simp only [if_pos hifs] at h ⊢
    obtain ⟨htrivial, hbranches⟩ := walkIfs_ok h
    refine ⟨htrivial, fun bodies hbodies body hbody => ?_⟩
    cases hbodies
    obtain ⟨branch, hbranch, hitems⟩ := List.mem_filterMap.mp hbody
    exact hbranches branch hbranch body hitems
  simp only [if_neg hifs] at h ⊢
  by_cases htry : step.stepType = "try"
  · simp only [if_pos htry] at h ⊢
    obtain ⟨htrivial, hkeys⟩ := firstError_map (fun key => walkBody_ok) h
    refine ⟨htrivial, fun bodies hbodies body hbody => ?_⟩
    cases hbodies
    obtain ⟨key, hkey, hitems⟩ := List.mem_filterMap.mp hbody
    exact hkeys key hkey body hitems
  simp only [if_neg htry] at h ⊢
  by_cases hparallel : step.stepType = "parallel"
  · simp only [if_pos hparallel] at h ⊢
    obtain ⟨htrivial, hbranches⟩ := walkParallel_ok h
    refine ⟨htrivial, fun bodies hbodies body hbody => ?_⟩
    cases hbodies
    obtain ⟨branch, hbranch, hitems⟩ := List.mem_filterMap.mp hbody
    exact hbranches branch hbranch body hitems
  · simp [hparallel, hloop]

variable (describe actionName) in
/-- What the walk over shapes has checked of a step: its id, a literal invoke target, its script
language, and its bodies, every entry of which is a step. -/
structure Shaped (hasImpl : String → Bool) (supported : List String) (step : StepDef) : Prop where
  id : validateName .stepId step.id = .ok ()
  target : checkInvokeTarget actionName step = .ok ()
  script : checkScript actionName hasImpl supported step = .ok ()
  bodies : walkBodies describe actionName (fun _ => .ok ()) step = .ok ()
  entries : ∀ bodies, stepBodies step = some bodies → ∀ body ∈ bodies, ∀ v ∈ body,
    (StepDef.fromInnerValue v).isSome

variable {hasImpl : String → Bool} {supported : List String}

theorem walkStep_ok (h : walkStep describe actionName hasImpl supported inner step = .ok ()) :
    Shaped describe actionName hasImpl supported step ∧
      ∀ bodies, stepBodies step = some bodies → ∀ body ∈ bodies, BodyWalked inner body := by
  unfold walkStep at h
  cases hid : validateName .stepId step.id with
  | error e => simp [hid] at h
  | ok _ =>
    cases htarget : checkInvokeTarget actionName step with
    | error e => simp [hid, htarget] at h
    | ok _ =>
      cases hscript : checkScript actionName hasImpl supported step with
      | error e => simp [hid, htarget, hscript] at h
      | ok _ =>
        simp only [hid, htarget, hscript] at h
        obtain ⟨htrivial, hbodies⟩ := walkBodies_ok h
        exact ⟨⟨hid, htarget, hscript, htrivial, fun bodies hb body hbody =>
          (hbodies bodies hb body hbody).entries⟩, hbodies⟩

/-- The walk sees the steps of every body, however deep. -/
theorem shaped_of_nested {n : Nat} {steps : List StepDef}
    (hdepth : ∀ step ∈ steps, step.params.depth < n)
    (h : walkStepsTo describe actionName hasImpl supported n steps = .ok ()) {step : StepDef}
    (hn : Nested steps step) : Shaped describe actionName hasImpl supported step := by
  induction hn generalizing n with
  | top hmem =>
    cases n with
    | zero => exact absurd (hdepth _ hmem) (Nat.not_lt_zero _)
    | succ n => exact (walkStep_ok (firstError_ok h _ hmem)).1
  | @inner steps parent step bodies body hparent hbodies hbody _ ih =>
    cases n with
    | zero => exact absurd (hdepth _ hparent) (Nat.not_lt_zero _)
    | succ n =>
      refine ih (fun inner hin => ?_)
        ((walkStep_ok (firstError_ok h _ hparent)).2 bodies hbodies body hbody).walked
      obtain ⟨v, hv, hread⟩ := List.mem_filterMap.mp hin
      have hinner := depth_fromInnerValue hread
      have hbodyDepth := depth_stepBodies hbodies hbody hv
      have hparentDepth := hdepth parent hparent
      omega

end Shapes

/-! ### What registration has seen -/

section Coverage

variable (setup : Setup) (k : Kernel) (m : PluginManifest) (actionName : String)
  (steps : List StepDef)

/-- The definition a written step type denotes on the plugin's chain: its own, or the nearest. -/
def denotedDef (stepType : String) : Option StepTypeDef :=
  match m.stepTypeDefs.find? (·.name == stepType) with
  | some definition => some definition
  | none =>
    (ancestorNamespaces (namespaceOf m.name)).findSome? fun ns =>
      (k.registry.getStepTypeDef (keyIn ns stepType)).map Prod.snd

/-- A literal target of a reference that a step's definition declares. -/
def DeclaresTarget (defs : String → Option StepTypeDef) (step : StepDef) (t : NodeRef) : Prop :=
  ∃ definition, defs step.stepType = some definition ∧
    ∃ reference ∈ definition.references, literalReferenceTarget step.params reference = some t

/-- Registration has checked a step: its shape, its edges of `invoke` and alias, and each literal
reference its definition declares, which names an action there is and is an edge of the graph. -/
structure Validated (p : Prepared) (step : StepDef) : Prop where
  shaped : Shaped setup.describeStep actionName (languageHasImpl k.registry m.stepTypeImpls)
    (supportedLanguages k.registry m.stepTypeImpls) step
  invoked : ∀ t, stepTarget (aliasResolver k m) step = some t →
    edgeTo m.name actionName t ∈ p.newEdges
  referenced : ∀ t, DeclaresTarget (denotedDef k m) step t →
    pluginExists k m t.1 = true ∧ actionExists k m t.1 t.2 = true ∧
      ∃ declared, collectDeclaredReferences m.name actionName (defResolver k m) (pluginExists k m)
        (actionExists k m) steps = .ok declared ∧ edgeTo m.name actionName t ∈ declared ∧
          ∀ e ∈ declared, e ∈ p.newEdges

/-- The walk over declared references finds each literal reference of the step: at the top level,
by the written name of a type. -/
def ReferencesFound (step : StepDef) : Prop :=
  ∀ t, DeclaresTarget (denotedDef k m) step t →
    ∃ top ∈ steps, DeclaresTarget (defResolver k m) top t

end Coverage

section Registered

variable {setup : Setup} {k : Kernel} {ns : String} {source : PluginManifest} {p : Prepared}

theorem collectReference_known {plugin actionName : String} {pluginExists : String → Bool}
    {actionExists : String → String → Bool} {step : StepDef} {reference : StepReference}
    {out : List InvokeEdge} {t : NodeRef}
    (h : collectReference plugin actionName pluginExists actionExists step reference = .ok out)
    (ht : literalReferenceTarget step.params reference = some t) :
    pluginExists t.1 = true ∧ actionExists t.1 t.2 = true := by
  unfold collectReference at h
  simp only [ht] at h
  cases hplugin : pluginExists t.1 <;> cases haction : actionExists t.1 t.2 <;>
    simp [hplugin, haction] at h ⊢

/-- The references that the walk finds have been checked. -/
theorem collectDeclaredReferences_known {plugin actionName : String}
    {defs : String → Option StepTypeDef} {pluginExists : String → Bool}
    {actionExists : String → String → Bool} {steps : List StepDef} {edges : List InvokeEdge}
    (h : collectDeclaredReferences plugin actionName defs pluginExists actionExists steps =
      .ok edges) {top : StepDef} (htop : top ∈ steps) {t : NodeRef}
    (ht : DeclaresTarget defs top t) : pluginExists t.1 = true ∧ actionExists t.1 t.2 = true := by
  obtain ⟨definition, hdef, reference, href, htarget⟩ := ht
  obtain ⟨out, hout⟩ := collectAll_ok h top htop
  simp only [hdef] at hout
  obtain ⟨out', hout'⟩ := collectAll_ok hout reference href
  exact collectReference_known hout' htarget

/-- What the two walks over an accepted action's steps collected. -/
theorem Registration.Passed.collected (hp : Passed setup k ns source p) {name : String} {entry : ActionRegistration}
    (hentry : (name, entry) ∈ p.planned) :
    ∃ literal declared,
      collectEdges setup.describeStep p.manifest.name name (aliasResolver k p.manifest)
        entry.action.steps = .ok literal ∧
      collectDeclaredReferences p.manifest.name name (defResolver k p.manifest)
        (pluginExists k p.manifest) (actionExists k p.manifest) entry.action.steps = .ok declared ∧
      (∀ e ∈ literal, e ∈ p.newEdges) ∧ ∀ e ∈ declared, e ∈ p.newEdges := by
  obtain ⟨literal, declared, hliteral, hdeclared, hedges⟩ := collectNewEdges_parts hp.edges
  obtain ⟨out, hout⟩ := collectAll_ok hliteral _ hentry
  obtain ⟨out', hout'⟩ := collectAll_ok hdeclared _ hentry
  refine ⟨out, out', labelled_ok hout, labelled_ok hout', fun e he => ?_, fun e he => ?_⟩
  · rw [hedges]
    exact List.mem_append_left _ ((mem_collectAll hliteral).mpr ⟨_, hentry, out, hout, he⟩)
  · rw [hedges]
    exact List.mem_append_right _ ((mem_collectAll hdeclared).mpr ⟨_, hentry, out', hout', he⟩)

/-- A step written in an accepted action, at any depth, has been validated exactly if the walk over
declared references finds each of its references. -/
theorem Registration.Passed.validated_iff (hp : Passed setup k ns source p) {name : String}
    {entry : ActionRegistration} (hentry : (name, entry) ∈ p.planned) {step : StepDef}
    (hn : Nested entry.action.steps step) :
    Validated setup k p.manifest name entry.action.steps p step ↔
      ReferencesFound k p.manifest entry.action.steps step := by
  obtain ⟨literal, declared, hliteral, hdeclared, hmem, hmem'⟩ := hp.collected hentry
  constructor
  · intro h t ht
    obtain ⟨-, -, declared', hdeclared', hedge, -⟩ := h.referenced t ht
    obtain ⟨top, htop, definition, hdef, reference, href, t', ht', heq⟩ :=
      (mem_collectDeclaredReferences hdeclared').mp hedge
    cases heq
    exact ⟨top, htop, definition, hdef, reference, href, ht'⟩
  · intro hfound
    obtain ⟨⟨name', action⟩, haction, hplan⟩ := forall₂_mem_right hp.planned hentry
    obtain ⟨hname, heq, -⟩ := planAction_name hplan
    cases hname
    cases heq
    refine ⟨?_, fun t ht => hmem _ ((mem_collectEdges hliteral).mpr ⟨step, hn, t, ht, rfl⟩),
      fun t ht => ?_⟩
    · exact shaped_of_nested (fun _ hstep => lt_stepsDepth hstep) (hp.shapes _ haction) hn
    · obtain ⟨top, htop, hdeclares⟩ := hfound t ht
      obtain ⟨hplugin, hexists⟩ := collectDeclaredReferences_known hdeclared htop hdeclares
      obtain ⟨definition, hdef, reference, href, htarget⟩ := hdeclares
      exact ⟨hplugin, hexists, declared, hdeclared, (mem_collectDeclaredReferences hdeclared).mpr
        ⟨top, htop, definition, hdef, reference, href, t, htarget, rfl⟩, hmem'⟩

/-- Of every step that is called in a run of an accepted action, registration has checked all but
the declared references that its walk does not find. -/
theorem called_step_validated_iff {kernelOwned : Bool} {k' : Kernel}
    (hreg : Kernel.registerPluginInAs setup k ns source kernelOwned = .ok k') :
    ∃ p, prepare setup k ns source kernelOwned = .ok p ∧ k' = k.commit ns p ∧
      ∀ name entry, (name, entry) ∈ p.planned → ∀ host step,
        CallsStep host entry.action.toAction entry.plan step →
          (Validated setup k p.manifest name entry.action.steps p step ↔
            ReferencesFound k p.manifest entry.action.steps step) := by
  obtain ⟨p, hprepare, rfl⟩ := registerPluginInAs_ok hreg
  have hp := prepare_ok hprepare
  refine ⟨p, hprepare, rfl, fun name entry hentry host step hcall => ?_⟩
  obtain ⟨⟨name', action⟩, -, hplan⟩ := forall₂_mem_right hp.planned hentry
  obtain ⟨-, haction, hbuild⟩ := planAction_name hplan
  cases haction
  exact hp.validated_iff hentry (hcall.nested host (buildPlan_valid hbuild))

end Registered

/-! ### A nested reference to nowhere -/

def relayDef : StepTypeDef := ⟨"relay.call", false, none, [⟨"plugin", "action"⟩]⟩

def callParams (plugin action : String) : Value :=
  .object [("plugin", .string plugin), ("action", .string action)]

/-- One call at the top level, and one in a `try`. -/
def relayAction : ManifestAction :=
  plainAction [
    .new "direct" "relay.call" (callParams "relay" "done"),
    .new "guard" "try" (.object [("try", .array [.object [("id", .string "ask"),
      ("type", .string "relay.call"), ("params", callParams "ghost" "gone")]])])]

def relayManifest : PluginManifest :=
  { plainManifest "relay" with
    stepTypeDefs := [relayDef]
    actions := (IndexMap.empty.insert "run" relayAction).insert "done" (plainAction []) }

def relaySetup : Setup := textSetup [("kernel", plainManifest "kernel")] []

def relayPlan : DagPlan := ⟨[[0, 1]], [[], []], [[], []]⟩

def relayState : ExecutionState :=
  .new "relay" relayAction.toAction .null .null .null none ⟨1000000, 64⟩

/-- A host whose calls go through. -/
def relayHost : Host :=
  { quietHost Binary64.display with
    resolveStepType := some
    bodies := fun _ => some fun _ _ => bodyOk .null }

/-- The steps called in a run of the action. -/
def relayCalls : List StepDef :=
  (actionTrace relayHost relayAction.toAction relayPlan relayState).filterMap fun
    | .dispatched step _ _ => some step
    | _ => none

theorem relay_calls {step : StepDef} (h : step ∈ relayCalls) :
    CallsStep relayHost relayAction.toAction relayPlan step := by
  obtain ⟨e, he, hstep⟩ := List.mem_filterMap.mp h
  cases e with
  | dispatched called idx before =>
    cases hstep
    exact .wave he
  | _ => cases hstep

theorem relay_accepted : ∃ k p, Kernel.boot relaySetup "kernel" = .ok k ∧
    prepare relaySetup k "" relayManifest false = .ok p ∧ p.manifest = relayManifest ∧
    ("run", (⟨relayAction, relayPlan⟩ : ActionRegistration)) ∈ p.planned ∧
    pluginExists k p.manifest "ghost" = false :=
  ⟨_, _, rfl, rfl, rfl, by decide, by decide⟩

/-- The call in the `try` runs with a reference to a plugin that is not there. -/
theorem nested_reference_unchecked : ¬∀ (setup : Setup) (k : Kernel) (ns : String)
    (source : PluginManifest) (kernelOwned : Bool) (p : Prepared),
    prepare setup k ns source kernelOwned = .ok p → ∀ name entry, (name, entry) ∈ p.planned →
      ∀ host step, CallsStep host entry.action.toAction entry.plan step →
        Validated setup k p.manifest name entry.action.steps p step := by
  intro hall
  obtain ⟨k, p, -, hp, hmanifest, hplanned, hghost⟩ := relay_accepted
  have hcalled : .new "ask" "relay.call" (callParams "ghost" "gone") ∈ relayCalls := by
    decide +kernel
  have hvalid := hall _ k _ _ _ p hp _ _ hplanned relayHost _ (relay_calls hcalled)
  obtain ⟨hknown, -⟩ := hvalid.referenced ("ghost", "gone")
    (hmanifest ▸ ⟨relayDef, by rfl, ⟨"plugin", "action"⟩, List.mem_cons_self, by decide⟩)
  rw [hghost] at hknown
  cases hknown

/-- The call at the top level has been validated. -/
theorem called_step_validated_direct : ∃ k p, prepare relaySetup k "" relayManifest false = .ok p ∧
    Validated relaySetup k p.manifest "run" relayAction.steps p
      (.new "direct" "relay.call" (callParams "relay" "done")) := by
  obtain ⟨k, p, -, hp, hmanifest, hplanned, -⟩ := relay_accepted
  have hcalled : .new "direct" "relay.call" (callParams "relay" "done") ∈ relayCalls := by
    decide +kernel
  have hreg : Kernel.registerPluginInAs relaySetup k "" relayManifest false = .ok (k.commit "" p) := by
    rw [Kernel.registerPluginInAs, hp]
  obtain ⟨p', hp', -, hcalls⟩ := called_step_validated_iff hreg
  cases hp.symm.trans hp'
  refine ⟨k, p, hp, (hcalls _ _ hplanned relayHost _ (relay_calls hcalled)).mpr fun t ht => ?_⟩
  refine ⟨_, List.mem_cons_self, ?_⟩
  obtain ⟨definition, hdef, reference, href, htarget⟩ := ht
  rw [hmanifest] at hdef ⊢
  cases hdef
  exact ⟨relayDef, by rfl, reference, href, htarget⟩

end Gwead
