import Gwead.FailedLeaf
import Gwead.FanoutFrame
import Gwead.FrameRestored
import Gwead.Secrets

/-!
# Whose secrets a run shows

Every start pulls the secrets of the plugin it starts, and every state of the run has them.  While
the body of a foreign step type runs, and only then, the view of its owner lies over them; an
intrinsic is taken for foreign where the plugin holds a grant of its name.
-/

namespace Gwead

open Identity Program

/-! ### Starts and hosts that pull through a resolver -/

section Wiring

variable {ξ : Type}

def KernelView.withResolver (kernel : KernelView ξ) (resolver : Option (SecretResolver ξ)) :
    KernelView ξ :=
  { kernel with
    pullSecrets := fun plugin execCtx => (kernel.registry.pullSecrets resolver plugin execCtx).answer }

/-- The text of a failed pull. -/
def SecretPull.text (p : SecretPull ξ) : Except String Value :=
  match p.answer with
  | .ok v => .ok v
  | .error e => .error e.display

/-- The resolver that is asked at a moment of a run. -/
abbrev RunResolver (ξ : Type) := Option (ExecutionState → SecretResolver ξ)

def RunResolver.at (resolver : RunResolver ξ) (s : ExecutionState) : Option (SecretResolver ξ) :=
  resolver.map fun resolve => resolve s

/-- The dispatcher asks the resolver of the invocation, through the access of the execution. -/
def Host.withSecrets (host : Host) (access : StepTypeAccess) (resolver : RunResolver ξ)
    (execCtx : ξ) : Host :=
  { host with
    resolveStepType := access.resolve
    ownerSecrets := fun s stepType =>
      (access.pullBody (resolver.at s) s.pluginName execCtx stepType).map SecretPull.text }

/-- An execution the kernel starts, whichever way. -/
inductive Starts (kernel : KernelView ξ) (now : Nat) (s : Started ξ) : Prop
  | top (h : TopLevel kernel now s)
  | invoked {call : InvokedCall ξ} {cancel : Option CancelToken} {deadline : Option Nat}
      (h : kernel.executeActionInvoked now call cancel deadline = .ok s)
  | streaming {call : InvokedCall ξ} {cancel : Option CancelToken} {deadline : Option Nat}
      {producer : String}
      (h : kernel.executeActionInvokedStreaming now call cancel deadline = .ok (s, producer))

/-- What a start takes from the kernel. -/
structure Started.Founded (kernel : KernelView ξ) (s : Started ξ) : Prop where
  registered : ∃ action, kernel.registry.getAction s.plugin action = some s.registration
  secrets : kernel.pullSecrets s.plugin s.execCtx = .ok s.secrets
  access : s.context.stepTypeAccess = kernel.registry.stepTypeAccessFor s.plugin

variable {kernel : KernelView ξ} {now : Nat} {s : Started ξ}

theorem startTopLevel_founded {plugin action : String} {input config : Value} {execCtx : ξ}
    {drain : Bool} {cancel : CancelToken}
    (h : kernel.startTopLevel now plugin action input config execCtx drain cancel = .ok s) :
    s.Founded kernel := by
  simp only [KernelView.startTopLevel] at h
  cases haction : kernel.registry.getAction plugin action with
  | none => simp [haction] at h
  | some registration =>
    cases hpull : kernel.pullSecrets plugin execCtx with
    | error e => simp [haction, hpull] at h
    | ok secrets =>
      simp only [haction, hpull] at h
      cases h
      exact ⟨⟨action, haction⟩, hpull, rfl⟩

theorem executeActionEventDispatched_founded {plugin action : String} {trigger config : Value}
    {execCtx : ξ} {parentDepth : Nat}
    (h : kernel.executeActionEventDispatched now plugin action trigger config execCtx parentDepth =
      .ok s) : s.Founded kernel := by
  simp only [KernelView.executeActionEventDispatched] at h
  cases haction : kernel.registry.getAction plugin action with
  | none => simp [haction] at h
  | some registration =>
    cases hpull : kernel.pullSecrets plugin execCtx with
    | error e => simp [haction, hpull] at h
    | ok secrets =>
      simp only [haction, hpull] at h
      cases h
      exact ⟨⟨action, haction⟩, hpull, rfl⟩

/-- No execution starts without the secrets of its plugin. -/
theorem Starts.founded (h : Starts kernel now s) : s.Founded kernel := by
  cases h with
  | top h =>
    cases h with
    | run h => exact startTopLevel_founded h
    | dataflow h => exact startTopLevel_founded h
    | event h => exact executeActionEventDispatched_founded h
  | @invoked call cancel deadline h =>
    simp only [KernelView.executeActionInvoked] at h
    cases haction : kernel.registry.getAction call.plugin call.action with
    | none => simp [haction] at h
    | some registration =>
      cases hpull : kernel.pullSecrets call.plugin call.execCtx with
      | error e => simp [haction, hpull] at h
      | ok secrets =>
        simp only [haction, hpull] at h
        cases h
        exact ⟨⟨call.action, haction⟩, hpull, rfl⟩
  | @streaming call cancel deadline producer h =>
    simp only [KernelView.executeActionInvokedStreaming] at h
    cases haction : kernel.registry.getAction call.plugin call.action with
    | none => simp [haction] at h
    | some registration =>
      cases hproducer : KernelView.streamingProducer call registration with
      | error e => simp [haction, hproducer] at h
      | ok found =>
        cases hpull : kernel.pullSecrets call.plugin call.execCtx with
        | error e => simp [haction, hproducer, hpull] at h
        | ok secrets =>
          simp only [haction, hproducer, hpull] at h
          cases h
          exact ⟨⟨call.action, haction⟩, hpull, rfl⟩

/-- The state an execution runs from. -/
def Started.state (s : Started ξ) (limits : RuntimeLimits) : ExecutionState :=
  .new s.plugin s.registration.action.toAction s.input s.config s.secrets s.context.trigger limits

end Wiring

/-! ### What no call changes -/

/-- Whose execution a state is of, with its secrets. -/
def ExecutionState.owned (s : ExecutionState) : String × Value := (s.pluginName, s.secrets)

theorem SameSetting.owned {s t : ExecutionState} (h : SameSetting s t) : t.owned = s.owned :=
  Prod.ext h.pluginName h.secrets

theorem owned_forget (s : ExecutionState) (steps : List StepDef) :
    (s.forget steps).owned = s.owned := by
  unfold ExecutionState.forget
  induction steps generalizing s with
  | nil => rfl
  | cons step rest ih =>
    rw [List.foldl_cons, ih]
    rfl

theorem owned_ofHoldings (owner : String × Value) : OfHoldings fun s => s.owned = owner := by
  intro s t hs hsame
  rw [ExecutionState.owned, show t.pluginName = s.pluginName from congrArg Holdings.pluginName hsame,
    show t.secrets = s.secrets from congrArg Holdings.secrets hsame]
  exact hs

/-- A call that a step makes is made in the step's execution. -/
theorem DirectCall.owned {host : Host} {run : StepDef → Nat → Exec Bool} {step inner : StepDef}
    {idx i : Nat} {s t : ExecutionState} {pending : Bool}
    (hset : ∀ inner i, Respects SameSetting (run inner i))
    (h : DirectCall host run step idx s pending inner i t) : t.owned = s.owned :=
  h.kept (J := fun t => t.owned = s.owned) (owned_ofHoldings _) rfl
    (fun _ inner i _ _ _ _ ht hran => ((hset inner i).ok hran).owned.trans ht)
    fun _ _ before _ hbefore => (owned_forget before _).trans hbefore

theorem Reaches.owned {host : Host} {depth : Nat} {step last : StepDef} {idx j : Nat}
    {s u : ExecutionState} {pending : Bool} (h : Reaches host depth step idx s pending last j u) :
    u.owned = s.owned := by
  induction h with
  | self => rfl
  | @inner depth step inner last idx i j s t u pending below hcall _ ih =>
    exact ih.trans (hcall.owned (sameSetting_preserved.runStepTo depth))

theorem owned_mergeTaskState (c t : ExecutionState) (id : String) (baseline : IndexMap String Value) :
    (mergeTaskState c t id baseline).owned = c.owned :=
  (sameSetting_preserved.mergeTaskState c t id baseline).owned

section Runs

variable {host : Host} {action : Action} {plan : DagPlan} {start : ExecutionState}

theorem waveKeeps_owned : WaveKeeps host action fun s => s.owned = start.owned where
  tick _ h := h
  fork _ _ h := h
  overrides _ _ h := h
  ran idx _ _ _ h hran _ := ((runStep_sameSetting host _ idx).ok hran).owned.trans h
  merged c t id baseline hc _ _ := (owned_mergeTaskState c t id baseline).trans hc

theorem owned_mergedState (es : List PipelineEvent) :
    (mergedState action start es).owned = start.owned := by
  unfold mergedState
  generalize start.vars = baseline
  induction es generalizing start with
  | nil => rfl
  | cons e rest ih =>
    rw [List.foldl_cons, ih]
    cases e with
    | joined task result report => exact owned_mergeTaskState start _ _ _
    | _ => rfl

/-- Every step of a run is called in the execution that was started. -/
theorem RunCalls.owned (hplan : buildPlan action = .ok plan) {pending : Bool} {step : StepDef}
    {idx : Nat} {before : ExecutionState}
    (hcall : RunCalls host action plan start pending step idx before) :
    before.owned = start.owned := by
  have hvalid := buildPlan_valid hplan
  cases hcall with
  | wave hd h => exact h.owned.trans (waveKeeps_owned.recorded hvalid rfl _ hd).before
  | @dataflow listened token fanout es c i idx fork before pending step hrun hspawned h =>
    obtain ⟨pre, post, hes⟩ := List.append_of_mem hspawned
    obtain ⟨t, t', hpre, hstep, -⟩ := hrun.split hes
    have hscheduled := scheduled_of_run hvalid hpre
    have hmove := hstep.move host action plan
    have hfork : fork.owned = start.owned := by
      rw [(hscheduled.spawnedInTime hvalid hmove).fork_eq]
      exact owned_mergedState pre
    exact h.owned.trans hfork

end Runs

/-! ### Views -/

section Views

variable {ξ : Type}

/-- A step type whose body another plugin ships, by the definition the name resolves to.  The
kernel's own step types are nobody's property. -/
def ForeignBody (r : PluginRegistry) (plugin written owner : String) : Prop :=
  written ∉ reservedStepTypeNames ∧ owner ≠ plugin ∧ ∃ ns d, ResolvedDef r plugin written ns owner d

/-- A step type of the kernel whose definition the plugin has also been granted by name. -/
def GrantedIntrinsic (r : PluginRegistry) (plugin written : String) : Prop :=
  written ∈ reservedStepTypeNames ∧
    ∃ ns owner d, ResolvedDef r plugin written ns owner d ∧ owner ≠ plugin

/-- While a foreign body runs the view of its owner is in place, and while any other runs none is. -/
structure RightView (r : PluginRegistry) (resolver : Option (SecretResolver ξ)) (plugin : String)
    (execCtx : ξ) (written : String) (view : Option Value) : Prop where
  foreign : ∀ owner, ForeignBody r plugin written owner → ∃ m bag,
    r.getManifest owner = some m ∧ view = some bag ∧ BagOf resolver
      ⟨owner, plugin, m.declaredSecretKeys, m.overridableSecretKeys, execCtx⟩ bag
  own : (∀ owner, ¬ForeignBody r plugin written owner) → view = none

/-- An execution starts with what the resolver answered for its plugin. -/
structure StartConfined (r : PluginRegistry) (resolver : Option (SecretResolver ξ))
    (s : Started ξ) : Prop where
  bag : ∃ m, r.getManifest s.plugin = some m ∧ BagOf resolver
    ⟨s.plugin, s.plugin, m.declaredSecretKeys, m.overridableSecretKeys, s.execCtx⟩ s.secrets
  asked : ∀ req, (r.pullSecrets resolver s.plugin s.execCtx).asked = some req →
    isOnChain req.subject s.plugin = true ∧
      ∃ resolve answer, resolver = some resolve ∧ resolve req = .ok answer

/-- The state the dispatcher pulls in. -/
def ExecutionState.pulling (s : ExecutionState) (idx : Nat) : ExecutionState :=
  { s with currentStepIdx := some idx }

/-- A call has the secrets of its execution and no other's; what it asks stays on the chain, and
where the resolver fails no body is run and the step does not succeed. -/
structure CallConfined (host : Host) (asks : RunResolver ξ) (s : Started ξ) (step : StepDef)
    (idx : Nat) (before : ExecutionState) : Prop where
  own : before.secrets = s.secrets
  closed : before.bodySecrets = none
  asked : ∀ p req, s.context.stepTypeAccess.pullBody (asks.at (before.pulling idx)) s.plugin
    s.execCtx step.stepType = some p → p.asked = some req → isOnChain req.subject s.plugin = true
  failed : ∀ p req resolve e, s.context.stepTypeAccess.pullBody (asks.at (before.pulling idx))
    s.plugin s.execCtx step.stepType = some p → p.asked = some req →
      asks.at (before.pulling idx) = some resolve → resolve req = .error e → step.kind = .leaf →
        leafEntry host step idx before = none ∧ ∀ after, runStep host step idx before ≠ .ok true after

variable {r : PluginRegistry} {plugin written : String}

theorem ResolvedDef.bodyOwner (h : Tabled r) {ns owner : String} {d : StepTypeDef}
    (hdef : ResolvedDef r plugin written ns owner d) (howner : owner ≠ plugin) :
    ∃ m, r.getManifest owner = some m ∧ (r.stepTypeAccessFor plugin).bodyOwner written =
      some ⟨owner, m.declaredSecretKeys, m.overridableSecretKeys⟩ := by
  obtain ⟨m, hm, -⟩ := (h.defs _ owner d).mp hdef.2.offer.1
  exact ⟨m, hm, (bodyOwner_iff h).mpr ⟨ns, owner, d, m, hdef, howner, hm, rfl⟩⟩

/-- The view the access leads to is the right one, except over an intrinsic granted by name. -/
theorem rightView_iff (h : Tabled r) (resolver : Option (SecretResolver ξ)) (execCtx : ξ)
    {view : Option Value}
    (hview : match (r.stepTypeAccessFor plugin).pullBody resolver plugin execCtx written with
      | none => view = none
      | some p => ∃ bag, p.answer = .ok bag ∧ view = some bag) :
    RightView r resolver plugin execCtx written view ↔ ¬GrantedIntrinsic r plugin written := by
  cases howner : (r.stepTypeAccessFor plugin).bodyOwner written with
  | none =>
    have hnone : (r.stepTypeAccessFor plugin).pullBody resolver plugin execCtx written = none := by
      rw [StepTypeAccess.pullBody, howner, Option.map_none]
    rw [hnone] at hview
    have hnobody : ∀ ns owner d, ResolvedDef r plugin written ns owner d → owner ≠ plugin →
        False := by
      intro ns owner d hdef hne
      obtain ⟨m, -, hbody⟩ := hdef.bodyOwner h hne
      cases howner.symm.trans hbody
    refine iff_of_true ⟨?_, fun _ => hview⟩ ?_
    · rintro owner ⟨-, hne, ns, d, hdef⟩
      exact (hnobody ns owner d hdef hne).elim
    · rintro ⟨-, ns, owner, d, hdef, hne⟩
      exact hnobody ns owner d hdef hne
  | some b =>
    obtain ⟨p, hpull, honest⟩ := pullBody_honest howner resolver plugin execCtx
    rw [hpull] at hview
    obtain ⟨bag, hanswer, rfl⟩ := hview
    obtain ⟨ns, owner, d, m, hdef, hne, hm, rfl⟩ := (bodyOwner_iff h).mp howner
    by_cases hreserved : written ∈ reservedStepTypeNames
    · refine iff_of_false ?_ (not_not_intro ⟨hreserved, ns, owner, d, hdef, hne⟩)
      intro hright
      cases hright.own fun _ hforeign => hforeign.1 hreserved
    · refine iff_of_true ⟨?_, fun hnone => ?_⟩ fun hgranted => hreserved hgranted.1
      · rintro owner' ⟨-, hne', ns', d', hdef'⟩
        obtain ⟨m', -, howner'⟩ := hdef'.bodyOwner h hne'
        have hid : owner = owner' :=
          congrArg BodyOwner.identity (Option.some.inj (howner.symm.trans howner'))
        subst hid
        exact ⟨m, bag, hm, rfl, honest.bag bag hanswer⟩
      · exact (hnone owner ⟨hreserved, hne, ns, d, hdef⟩).elim

/-- The dispatch of a leaf step, by what the pull of its body's secrets comes to. -/
theorem leafEntry_eq (host : Host) (step : StepDef) (idx : Nat) (s : ExecutionState) :
    leafEntry host step idx s =
      match (host.resolveStepType step.stepType).bind host.bodies, s.action.steps[idx]? with
      | some body, some own =>
        match host.ownerSecrets (s.pulling idx) own.stepType with
        | some (.error _) => none
        | some (.ok view) =>
          some (own, body, ExecutionState.resetMarkers { s.pulling idx with bodySecrets := some view })
        | none => some (own, body, (s.pulling idx).resetMarkers)
      | _, _ => none := rfl

theorem dispatchTraitStep_uncredentialed {host : Host} {body : StepBody} {step : StepDef} {idx : Nat}
    {s : ExecutionState} {e : String} (hat : s.action.steps[idx]? = some step)
    (hpull : host.ownerSecrets (s.pulling idx) step.stepType = some (.error e)) :
    (dispatchTraitStep host body idx s).1 = false := by
  have hdispatch : dispatchTraitStep host body idx s =
      match host.ownerSecrets (s.pulling idx) step.stepType with
      | some (.error e) =>
        (false, { s.pulling idx with
          currentStepIdx := none
          lastError := some ("step '" ++ step.id ++ "' (" ++ step.stepType ++
            "): could not resolve the body owner's secrets: " ++ e) })
      | some (.ok view) =>
        dispatchWithSecrets host step body { s.pulling idx with bodySecrets := some view }
      | none => dispatchWithSecrets host step body (s.pulling idx) := by
    rw [dispatchTraitStep, hat]
    rfl
  rw [hdispatch, hpull]

/-- A leaf step whose dispatch answers no does not succeed. -/
theorem runStep_leaf_refused {host : Host} {step : StepDef} {idx : Nat} {s : ExecutionState}
    (hkind : step.kind = .leaf) (hrefused : ∀ body, (dispatchTraitStep host body idx s).1 = false)
    (after : ExecutionState) : runStep host step idx s ≠ .ok true after := by
  intro hran
  rw [runStep_eq, Program.bind_ok] at hran
  obtain ⟨ok, t, hleaf, hraised⟩ := hran
  have hok : ok = true := by
    unfold raiseEscaping at hraised
    split at hraised
    · cases hraised
    · cases hraised
      rfl
  simp only [dispatchStep, hkind, runLeaf] at hleaf
  split at hleaf
  · cases hleaf
  · split at hleaf
    · cases hleaf
    · rename_i body _
      have hanswer := hrefused body
      cases hdispatch : dispatchTraitStep host body idx s with
      | mk answered t' =>
        rw [hdispatch] at hleaf hanswer
        cases hleaf
        cases hok.symm.trans hanswer

/-- What the dispatch of a leaf step enters its body with. -/
theorem leafEntry_view {host : Host} {access : StepTypeAccess} {asks : RunResolver ξ} {execCtx : ξ}
    {step own : StepDef} {idx : Nat} {before entered : ExecutionState} {body : StepBody}
    (hclosed : before.bodySecrets = none)
    (hentry : leafEntry (host.withSecrets access asks execCtx) step idx before =
      some (own, body, entered)) :
    before.action.steps[idx]? = some own ∧ entered.secrets = before.secrets ∧
      match access.pullBody (asks.at (before.pulling idx)) before.pluginName execCtx own.stepType with
      | none => entered.bodySecrets = none
      | some p => ∃ bag, p.answer = .ok bag ∧ entered.bodySecrets = some bag := by
  rw [leafEntry_eq] at hentry
  split at hentry
  · rename_i imported found himport hat
    have hpull : (host.withSecrets access asks execCtx).ownerSecrets (before.pulling idx)
        found.stepType = (access.pullBody (asks.at (before.pulling idx)) before.pluginName execCtx
          found.stepType).map SecretPull.text := rfl
    rw [hpull] at hentry
    cases hp : access.pullBody (asks.at (before.pulling idx)) before.pluginName execCtx
        found.stepType with
    | none =>
      rw [hp] at hentry
      cases hentry
      rw [hp]
      exact ⟨hat, rfl, hclosed⟩
    | some p =>
      rw [hp, Option.map_some, SecretPull.text] at hentry
      cases hanswer : p.answer with
      | error e =>
        rw [hanswer] at hentry
        cases hentry
      | ok bag =>
        rw [hanswer] at hentry
        cases hentry
        rw [hp]
        exact ⟨hat, rfl, bag, hanswer, rfl⟩
  · cases hentry

/-- Where the owner's secrets cannot be had, no body is run and the step does not succeed. -/
theorem leaf_uncredentialed {host : Host} {access : StepTypeAccess} {asks : RunResolver ξ}
    {execCtx : ξ} {step : StepDef} {idx : Nat} {before : ExecutionState} {p : SecretPull ξ}
    {e : KernelError} (hat : before.action.steps[idx]? = some step) (hkind : step.kind = .leaf)
    (hp : access.pullBody (asks.at (before.pulling idx)) before.pluginName execCtx step.stepType =
      some p) (hanswer : p.answer = .error e) :
    leafEntry (host.withSecrets access asks execCtx) step idx before = none ∧
      ∀ after, runStep (host.withSecrets access asks execCtx) step idx before ≠ .ok true after := by
  have hpull : (host.withSecrets access asks execCtx).ownerSecrets (before.pulling idx)
      step.stepType = some (.error e.display) := by
    change (access.pullBody (asks.at (before.pulling idx)) before.pluginName execCtx
      step.stepType).map SecretPull.text = _
    rw [hp, Option.map_some, SecretPull.text, hanswer]
  constructor
  · rw [leafEntry_eq, hat]
    split
    · rename_i imported found himport hfound
      cases hfound
      rw [hpull]
    · rfl
  · exact runStep_leaf_refused hkind fun body => dispatchTraitStep_uncredentialed hat hpull

end Views

/-! ### Every run of every start -/

section Confined

variable {ξ : Type} {setup : Setup} {k : Kernel} {defs : List (String × (String × StepTypeDef))}
  {aliases : List (String × NodeRef)}

/-- Of every execution a reachable kernel starts, and every resolver: it starts with its plugin's
own secrets; each call of its run has them and no others; and the body of a step is shown the right
view exactly if the step is not an intrinsic that the plugin holds a grant of. -/
theorem secrets_confined_iff (hk : k.Reachable setup) (hdefs : defs.Perm k.registry.stepTypeDefs)
    (haliases : aliases.Perm k.registry.stepTypeAliases) {kernel : KernelView ξ}
    (hkernel : kernel.registry = k.registry.iterated defs aliases)
    (resolver : Option (SecretResolver ξ)) {now : Nat} {s : Started ξ}
    (hs : Starts (kernel.withResolver resolver) now s) :
    StartConfined kernel.registry resolver s ∧
      ∀ (host : Host) (asks : RunResolver ξ) limits pending step idx before,
        RunCalls (host.withSecrets s.context.stepTypeAccess asks s.execCtx)
          s.registration.action.toAction s.registration.plan (s.state limits) pending step idx
            before →
          CallConfined (host.withSecrets s.context.stepTypeAccess asks s.execCtx) asks s step idx
            before ∧
          ∀ own body entered,
            leafEntry (host.withSecrets s.context.stepTypeAccess asks s.execCtx) step idx before =
              some (own, body, entered) →
            entered.secrets = s.secrets ∧
              (RightView kernel.registry (asks.at (before.pulling idx)) s.plugin s.execCtx
                step.stepType entered.bodySecrets ↔
                  ¬GrantedIntrinsic kernel.registry s.plugin step.stepType) := by
  have htabled : Tabled kernel.registry := hkernel ▸ tabled_of_reachable hk hdefs haliases
  obtain ⟨regs, hmanaged⟩ := managed_of_reachable hk
  obtain ⟨⟨action, haction⟩, hsecrets, haccess⟩ := hs.founded
  have hregistered : k.registry.getAction s.plugin action = some s.registration := by
    change kernel.registry.getAction s.plugin action = _ at haction
    rw [hkernel] at haction
    exact haction
  obtain ⟨m, hm, -, hplan⟩ := (hmanaged.consistent.actions _ _ _).mp hregistered
  have hmanifest : kernel.registry.getManifest s.plugin = some m := by
    rw [hkernel]
    exact hm
  have honest := pullSecrets_honest hmanifest resolver s.execCtx
  change (kernel.registry.pullSecrets resolver s.plugin s.execCtx).answer = .ok s.secrets at hsecrets
  change s.context.stepTypeAccess = kernel.registry.stepTypeAccessFor s.plugin at haccess
  refine ⟨⟨⟨m, hmanifest, honest.bag _ hsecrets⟩, fun req hasked => ?_⟩, ?_⟩
  · obtain ⟨rfl, hchain⟩ := honest.asked req hasked
    refine ⟨hchain, ?_⟩
    cases resolver with
    | none => cases hasked
    | some resolve =>
      refine ⟨resolve, ?_⟩
      cases hanswer : resolve ⟨s.plugin, s.plugin, m.declaredSecretKeys, m.overridableSecretKeys,
          s.execCtx⟩ with
      | ok answer => exact ⟨answer, rfl, rfl⟩
      | error e => cases (honest.failed resolve e rfl hasked hanswer).symm.trans hsecrets
  · intro host asks limits pending step idx before hcall
    have hheld := hcall.held hplan rfl ⟨rfl, rfl⟩
    have howned := hcall.owned hplan
    have hplugin : before.pluginName = s.plugin := congrArg Prod.fst howned
    have hown : before.secrets = s.secrets := congrArg Prod.snd howned
    refine ⟨⟨hown, hheld.idle.view, fun p req hp hasked => ?_,
      fun p req resolve e hp hasked hresolve herror hkind => ?_⟩, fun own body entered hentry => ?_⟩
    · obtain ⟨owner, howner, -⟩ := Option.map_eq_some_iff.mp hp
      obtain ⟨p', hp', hhonest⟩ := pullBody_honest howner (asks.at (before.pulling idx)) s.plugin
        s.execCtx
      cases hp.symm.trans hp'
      obtain ⟨rfl, hchain⟩ := hhonest.asked req hasked
      exact hchain
    · obtain ⟨owner, howner, -⟩ := Option.map_eq_some_iff.mp hp
      obtain ⟨p', hp', hhonest⟩ := pullBody_honest howner (asks.at (before.pulling idx)) s.plugin
        s.execCtx
      cases hp.symm.trans hp'
      obtain ⟨rfl, -⟩ := hhonest.asked req hasked
      have hanswer := hhonest.failed resolve e hresolve hasked herror
      exact leaf_uncredentialed hheld.found hkind (by rw [hplugin]; exact hp) hanswer
    · obtain ⟨hat, hsame, hview⟩ := leafEntry_view hheld.idle.view hentry
      cases hat.symm.trans hheld.found
      rw [hplugin, haccess] at hview
      exact ⟨hsame.trans hown, rightView_iff htabled _ s.execCtx hview⟩

end Confined

/-! ### An app that keeps a secret -/

/-- It runs one step, with the permissions it is given. -/
def keeperManifest (stepType : String) (permissions : List String) : PluginManifest :=
  { plainManifest "app" with
    permissions := permissions
    usesSecrets := [⟨"apiKey", false⟩]
    actions := IndexMap.empty.insert "go" (plainAction [.new "echo" stepType .emptyObject]) }

/-- A vault that whoever likes may sign with keeps a secret too. -/
def keeperSetup : Setup :=
  textSetup [("kernel", { plainManifest "kernel" with stepTypeDefs := [⟨"let", false, none, []⟩] }),
    ("vault", { plainManifest "vault" with
      usesSecrets := [⟨"seal", false⟩]
      stepTypeDefs := [⟨"vault.sign", true, none, []⟩] }),
    ("granted", keeperManifest "let" ["step_type:let"]), ("plain", keeperManifest "let" []),
    ("signing", keeperManifest "vault.sign" [])] []

/-- It answers every request with all it has. -/
def keeperResolver : SecretResolver Unit := fun _ =>
  .ok (.object [("apiKey", .string "k"), ("seal", .string "s")])

/-- Signing has the body of `let`. -/
def signingHost : Host :=
  { quietHost Binary64.display with
    bodies := fun key => (quietHost Binary64.display).bodies (if key = "vault.sign" then "let" else key) }

def keeperHost (s : Started Unit) : Host :=
  signingHost.withSecrets s.context.stepTypeAccess (some fun _ => keeperResolver) ()

def keeperStart (text : String) (k₀ : Kernel) : Except KernelError (Started Unit) :=
  ((feedView (k₀.afterAll keeperSetup [.load "" "vault", .load "" text]).registry).withResolver
    (some keeperResolver)).run 0 "app" "go" .null .null () false none

/-- What the first step of the run has, and what its body is shown. -/
def keeperShown (text : String) : Option (String × Value × Option Value) :=
  match Kernel.boot keeperSetup "kernel" with
  | .error _ => none
  | .ok k₀ =>
    match keeperStart text k₀ with
    | .error _ => none
    | .ok s =>
      match (runWaves (keeperHost s) s.registration.action.toAction s.registration.plan
          (s.state ⟨1000000, 64⟩)).1.dispatched.head? with
      | none => none
      | some d =>
        (leafEntry (keeperHost s) (s.registration.action.toAction.stepAt d.idx) d.idx d.before).map
          fun e => ((s.registration.action.toAction.stepAt d.idx).stepType, s.secrets,
            e.2.2.bodySecrets)

/-- A step of a run of the app, with the state its body sees. -/
structure KeeperRun (written : String) (secrets : Value) (view : Option Value) (k : Kernel)
    (s : Started Unit) (step : StepDef) (idx : Nat) (before : ExecutionState) (own : StepDef)
    (body : StepBody) (entered : ExecutionState) : Prop where
  reachable : k.Reachable keeperSetup
  starts : Starts ((feedView k.registry).withResolver (some keeperResolver)) 0 s
  called : RunCalls (keeperHost s) s.registration.action.toAction s.registration.plan
    (s.state ⟨1000000, 64⟩) false step idx before
  stepType : step.stepType = written
  entry : leafEntry (keeperHost s) step idx before = some (own, body, entered)
  secrets : s.secrets = secrets
  shown : entered.bodySecrets = view

theorem keeper_run {text written : String} {secrets : Value} {view : Option Value}
    (h : keeperShown text = some (written, secrets, view)) :
    ∃ k s step idx before own body entered,
      KeeperRun written secrets view k s step idx before own body entered := by
  unfold keeperShown at h
  cases hboot : Kernel.boot keeperSetup "kernel" with
  | error e => simp [hboot] at h
  | ok k₀ =>
    cases hstart : keeperStart text k₀ with
    | error e => simp [hboot, hstart] at h
    | ok s =>
      simp only [hboot, hstart] at h
      split at h
      · cases h
      · rename_i d hd
        obtain ⟨⟨own, body, entered⟩, hentry, hshown⟩ := Option.map_eq_some_iff.mp h
        simp only [Prod.mk.injEq] at hshown
        obtain ⟨htype, hsecrets, hview⟩ := hshown
        exact ⟨_, s, _, d.idx, d.before, own, body, entered, Kernel.reachable_afterAll hboot _,
          .top (.run hstart), .wave (List.mem_of_head? hd) .self, htype, hentry, hsecrets, hview⟩

theorem notForeign_of_reserved {r : PluginRegistry} {plugin written : String}
    (h : written ∈ reservedStepTypeNames) (owner : String) : ¬ForeignBody r plugin written owner :=
  fun hforeign => hforeign.1 h

/-- With the grant, the body of `let` is shown the view of a plugin that declares no secrets. -/
theorem granted_intrinsic_view : ¬∀ (setup : Setup) (k : Kernel), k.Reachable setup →
    ∀ (kernel : KernelView Unit), kernel.registry = k.registry → ∀ resolver now s,
      Starts (kernel.withResolver resolver) now s →
        ∀ (host : Host) (asks : RunResolver Unit) limits pending step idx before,
          RunCalls (host.withSecrets s.context.stepTypeAccess asks s.execCtx)
            s.registration.action.toAction s.registration.plan (s.state limits) pending step idx
              before →
          ∀ own body entered,
            leafEntry (host.withSecrets s.context.stepTypeAccess asks s.execCtx) step idx before =
              some (own, body, entered) →
            RightView kernel.registry (asks.at (before.pulling idx)) s.plugin s.execCtx
              step.stepType entered.bodySecrets := by
  intro hall
  obtain ⟨k, s, step, idx, before, own, body, entered, h⟩ := keeper_run
    (show keeperShown "granted" = some ("let", .object [("apiKey", .string "k")], some .null) by
      decide +kernel)
  have hright := hall _ k h.reachable (feedView k.registry) rfl _ _ s h.starts signingHost
    (some fun _ => keeperResolver) ⟨1000000, 64⟩ false step idx before h.called own body entered
      h.entry
  have hreserved : step.stepType ∈ reservedStepTypeNames := h.stepType ▸ (by decide)
  cases (hright.own (notForeign_of_reserved hreserved)).symm.trans h.shown

/-- Without the grant it is shown the secrets of the app, and the body that signs is shown the
vault's. -/
theorem secrets_confined_keeper :
    (∃ (k : Kernel) (s : Started Unit) (step : StepDef) (idx : Nat) (before own body entered : _),
      KeeperRun "let" (.object [("apiKey", .string "k")]) none k s step idx before own body
          entered ∧
        StartConfined k.registry (some keeperResolver) s ∧ entered.secrets = s.secrets ∧
        ¬GrantedIntrinsic k.registry s.plugin step.stepType) ∧
    ∃ (k : Kernel) (s : Started Unit) (step : StepDef) (idx : Nat) (before own body entered : _),
      KeeperRun "vault.sign" (.object [("apiKey", .string "k")])
          (some (.object [("seal", .string "s")])) k s step idx before own body entered ∧
        entered.secrets = s.secrets ∧
        RightView k.registry (some keeperResolver) s.plugin () step.stepType
          entered.bodySecrets := by
  constructor
  case left =>
    obtain ⟨k, s, step, idx, before, own, body, entered, h⟩ := keeper_run
      (show keeperShown "plain" = some ("let", .object [("apiKey", .string "k")], none) by
        decide +kernel)
    obtain ⟨hstart, hcalls⟩ := secrets_confined_iff h.reachable (.refl _) (.refl _)
      (show (feedView k.registry).registry = _ from rfl) (some keeperResolver) h.starts
    obtain ⟨-, hbody⟩ := hcalls signingHost (some fun _ => keeperResolver) ⟨1000000, 64⟩ false step
      idx before h.called
    obtain ⟨hsecrets, hview⟩ := hbody own body entered h.entry
    refine ⟨k, s, step, idx, before, own, body, entered, h, hstart, hsecrets, hview.mp ⟨?_, ?_⟩⟩
    · intro owner hforeign
      exact (notForeign_of_reserved (h.stepType ▸ (by decide)) owner hforeign).elim
    · exact fun _ => h.shown
  case right =>
    obtain ⟨k, s, step, idx, before, own, body, entered, h⟩ := keeper_run
      (show keeperShown "signing" = some ("vault.sign", .object [("apiKey", .string "k")],
        some (.object [("seal", .string "s")])) by decide +kernel)
    obtain ⟨-, hcalls⟩ := secrets_confined_iff h.reachable (.refl _) (.refl _)
      (show (feedView k.registry).registry = _ from rfl) (some keeperResolver) h.starts
    obtain ⟨-, hbody⟩ := hcalls signingHost (some fun _ => keeperResolver) ⟨1000000, 64⟩ false step
      idx before h.called
    obtain ⟨hsecrets, hview⟩ := hbody own body entered h.entry
    refine ⟨k, s, step, idx, before, own, body, entered, h, hsecrets, hview.mpr ?_⟩
    rintro ⟨hreserved, -⟩
    rw [h.stepType] at hreserved
    exact absurd hreserved (by decide)

end Gwead
