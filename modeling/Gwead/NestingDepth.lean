import Gwead.Callee
import Gwead.DispatchAuthority

/-!
# The depth of nested executions

Calls and events count on depths of their own, each with a cap.  A call made while an event is
handled starts again with no events counted, so only the calls of that kind are unbounded.
-/

namespace Gwead

open Registration

section Nesting

variable {ξ : Type} {kernel : KernelView ξ} {ex ex' : Execution ξ}

/-- How a nested execution is started; `resets` marks a call made while an event is handled. -/
inductive Nesting where
  | call (resets : Bool)
  | event
  deriving DecidableEq

/-- A step of the execution that was started, whichever it is. -/
structure Started.Runs (s : Started ξ) (ex : Execution ξ) : Prop where
  plugin : ex.plugin = s.plugin
  config : ex.config = s.config
  execCtx : ex.execCtx = s.execCtx
  stepTypeAccess : ex.stepTypeAccess = s.context.stepTypeAccess.allowed
  invokeDepth : ex.invokeDepth = s.context.invokeDepth
  dispatchDepth : ex.dispatchDepth = s.context.dispatchDepth

/-- `ex'` is a step of an execution that a step or a guest of `ex` has started. -/
inductive Nests (kernel : KernelView ξ) (ex : Execution ξ) : Nesting → Execution ξ → Prop
  | inline {surface : Surface} {now : Nat} {call : InvokedCall ξ} {cancel : Option CancelToken}
      {deadline : Option Nat} {s : Started ξ} {ex' : Execution ξ}
      (hcall : surface.Calls kernel.floatText kernel.orchestrator kernel.registry ex call)
      (hstart : kernel.executeActionInvoked now call cancel deadline = .ok s)
      (hruns : s.Runs ex') : Nests kernel ex (.call (decide (0 < ex.dispatchDepth))) ex'
  | guest {op action : String} {wrapped : Bool} {target input : Value} {now : Nat}
      {call : InvokedCall ξ} {cancel : Option CancelToken} {deadline : Option Nat} {s : Started ξ}
      {ex' : Execution ξ} (hcall : kernel.guestInvoke op wrapped ex target action input = .ok call)
      (hstart : kernel.executeActionInvoked now call cancel deadline = .ok s)
      (hruns : s.Runs ex') : Nests kernel ex (.call (decide (0 < ex.dispatchDepth))) ex'
  | spawned {op action : String} {wrapped : Bool} {target input : Value} {now : Nat}
      {call : InvokedCall ξ} {cancel : Option CancelToken} {deadline : Option Nat} {s : Started ξ}
      {producer : String} {ex' : Execution ξ}
      (hcall : kernel.guestInvoke op wrapped ex target action input = .ok call)
      (hstart : kernel.executeActionInvokedStreaming now call cancel deadline = .ok (s, producer))
      (hruns : s.Runs ex') : Nests kernel ex (.call (decide (0 < ex.dispatchDepth))) ex'
  | event {now : Nat} {eventType : String} {payload config : Value} {execCtx : ξ}
      {subscriber : NodeRef} {s : Started ξ} {ex' : Execution ξ}
      (hmem : (subscriber, .ok s) ∈
        kernel.dispatchEvent now eventType payload config execCtx ex.dispatchDepth)
      (hruns : s.Runs ex') : Nests kernel ex .event ex'

/-! ### What a start does to the depths -/

theorem executeActionInvoked_depths {now : Nat} {call : InvokedCall ξ}
    {cancel : Option CancelToken} {deadline : Option Nat} {s : Started ξ}
    (h : kernel.executeActionInvoked now call cancel deadline = .ok s) :
    s.context.invokeDepth = call.parentDepth + 1 ∧ s.context.dispatchDepth = 0 := by
  simp only [KernelView.executeActionInvoked] at h
  split at h
  · cases h
  · split at h
    · cases h
    · cases h
      exact ⟨rfl, rfl⟩

theorem executeActionInvokedStreaming_depths {now : Nat} {call : InvokedCall ξ}
    {cancel : Option CancelToken} {deadline : Option Nat} {s : Started ξ} {producer : String}
    (h : kernel.executeActionInvokedStreaming now call cancel deadline = .ok (s, producer)) :
    s.context.invokeDepth = call.parentDepth + 1 ∧ s.context.dispatchDepth = 0 := by
  simp only [KernelView.executeActionInvokedStreaming] at h
  split at h
  · cases h
  · split at h
    · cases h
    · split at h
      · cases h
      · cases h
        exact ⟨rfl, rfl⟩

theorem executeActionEventDispatched_depths {now parentDepth : Nat} {plugin action : String}
    {trigger config : Value} {execCtx : ξ} {s : Started ξ}
    (h : kernel.executeActionEventDispatched now plugin action trigger config execCtx parentDepth =
      .ok s) :
    s.context.invokeDepth = 0 ∧ s.context.dispatchDepth = parentDepth + 1 := by
  simp only [KernelView.executeActionEventDispatched] at h
  split at h
  · cases h
  · split at h
    · cases h
    · cases h
      exact ⟨rfl, rfl⟩

theorem dispatchEvent_depths {now parentDepth : Nat} {eventType : String} {payload config : Value}
    {execCtx : ξ} {subscriber : NodeRef} {s : Started ξ}
    (h : (subscriber, .ok s) ∈
      kernel.dispatchEvent now eventType payload config execCtx parentDepth) :
    parentDepth < dispatchMaxDepth ∧ s.context.invokeDepth = 0 ∧
      s.context.dispatchDepth = parentDepth + 1 := by
  rw [KernelView.dispatchEvent] at h
  split at h
  · cases h
  · rename_i hdepth
    obtain ⟨subscriber', -, heq⟩ := List.mem_map.mp h
    have hstart := congrArg Prod.snd heq
    dsimp only at hstart
    split at hstart
    · cases hstart
    · exact ⟨by omega, executeActionEventDispatched_depths hstart⟩

theorem guestInvoke_depth {op action : String} {wrapped : Bool} {target input : Value}
    {call : InvokedCall ξ}
    (h : kernel.guestInvoke op wrapped ex target action input = .ok call) :
    ex.invokeDepth < invokeMaxDepth ∧ call.parentDepth = ex.invokeDepth := by
  simp only [KernelView.guestInvoke] at h
  split at h
  · cases h
  · split at h
    · cases h
    · split at h
      · cases h
      · rename_i hdepth
        split at h
        · cases h
        · split at h
          · cases h
          · split at h
            · cases h
            · cases h
            · split at h
              · cases h
              · cases h
                exact ⟨by omega, rfl⟩

theorem Surface.Calls.depth {surface : Surface} {call : InvokedCall ξ}
    (h : surface.Calls kernel.floatText kernel.orchestrator kernel.registry ex call) :
    ex.invokeDepth < invokeMaxDepth ∧ call.parentDepth = ex.invokeDepth := by
  cases surface with
  | invoke params =>
    obtain ⟨_, _, -, -, rfl, hdepth⟩ := stepInvoke_ok h
    exact ⟨hdepth, rfl⟩
  | aliasStep params =>
    obtain ⟨_, _, _, _, -, -, -, -, rfl, hdepth⟩ := stepAliasDispatch_ok h
    exact ⟨hdepth, rfl⟩
  | dispatchRole role action input hints =>
    obtain ⟨_, -, rfl, hdepth⟩ := dispatchRoleInner_ok h
    exact ⟨hdepth, rfl⟩

/-- A call counts on the one depth and clears the other; an event the other way round. -/
theorem Nests.depths {how : Nesting} (h : Nests kernel ex how ex') :
    match how with
    | .call resets => resets = decide (0 < ex.dispatchDepth) ∧ ex.invokeDepth < invokeMaxDepth ∧
        ex'.invokeDepth = ex.invokeDepth + 1 ∧ ex'.dispatchDepth = 0
    | .event => ex.dispatchDepth < dispatchMaxDepth ∧ ex'.invokeDepth = 0 ∧
        ex'.dispatchDepth = ex.dispatchDepth + 1 := by
  cases h with
  | inline hcall hstart hruns =>
    obtain ⟨hlt, hparent⟩ := hcall.depth
    obtain ⟨hinvoke, hdispatch⟩ := executeActionInvoked_depths hstart
    exact ⟨rfl, hlt, by rw [hruns.invokeDepth, hinvoke, hparent],
      by rw [hruns.dispatchDepth, hdispatch]⟩
  | guest hcall hstart hruns =>
    obtain ⟨hlt, hparent⟩ := guestInvoke_depth hcall
    obtain ⟨hinvoke, hdispatch⟩ := executeActionInvoked_depths hstart
    exact ⟨rfl, hlt, by rw [hruns.invokeDepth, hinvoke, hparent],
      by rw [hruns.dispatchDepth, hdispatch]⟩
  | spawned hcall hstart hruns =>
    obtain ⟨hlt, hparent⟩ := guestInvoke_depth hcall
    obtain ⟨hinvoke, hdispatch⟩ := executeActionInvokedStreaming_depths hstart
    exact ⟨rfl, hlt, by rw [hruns.invokeDepth, hinvoke, hparent],
      by rw [hruns.dispatchDepth, hdispatch]⟩
  | event hmem hruns =>
    obtain ⟨hlt, hinvoke, hdispatch⟩ := dispatchEvent_depths hmem
    exact ⟨hlt, by rw [hruns.invokeDepth, hinvoke], by rw [hruns.dispatchDepth, hdispatch]⟩

/-! ### Chains -/

/-- How many more executions can be nested without a call that resets. -/
def Execution.room (ex : Execution ξ) : Nat :=
  if ex.dispatchDepth = 0 then (invokeMaxDepth - ex.invokeDepth) + dispatchMaxDepth
  else dispatchMaxDepth - ex.dispatchDepth

theorem room_le (ex : Execution ξ) : ex.room ≤ invokeMaxDepth + dispatchMaxDepth := by
  rw [Execution.room]
  split <;> omega

def resets (hows : List Nesting) : Nat := hows.count (.call true)

/-- One nesting takes one from the room, unless it resets. -/
theorem Nests.room {how : Nesting} (h : Nests kernel ex how ex') :
    1 + ex'.room ≤ ex.room + (invokeMaxDepth + dispatchMaxDepth) * resets [how] := by
  have hdepths := h.depths
  cases how with
  | event =>
    obtain ⟨hlt, -, hdispatch⟩ := hdepths
    have hnone : resets [.event] = 0 := rfl
    rw [Execution.room, Execution.room, hnone, hdispatch, if_neg (Nat.succ_ne_zero _)]
    split <;> omega
  | call r =>
    obtain ⟨hr, hlt, hinvoke, hdispatch⟩ := hdepths
    simp only [Execution.room, hinvoke, hdispatch, if_true]
    by_cases hevent : 0 < ex.dispatchDepth
    · have hone : resets [.call r] = 1 := by simp [resets, hr, hevent]
      rw [hone]
      omega
    · have hnone : resets [.call r] = 0 := by simp [resets, hr, hevent]
      rw [hnone, if_pos (by omega)]
      omega

/-- A chain is at most so long for every call in it that resets, and once more. -/
theorem nested_length_le {hows : List Nesting} (h : Transition.Run (Nests kernel) ex hows ex') :
    hows.length ≤ (invokeMaxDepth + dispatchMaxDepth) * (resets hows + 1) := by
  have hroom : hows.length + ex'.room ≤
      ex.room + (invokeMaxDepth + dispatchMaxDepth) * resets hows := by
    induction h with
    | nil => simp [resets]
    | @snoc hows ex' ex'' how h hstep ih =>
      have hlast := hstep.room
      have hcount : resets (hows ++ [how]) = resets hows + resets [how] := by
        simp [resets, List.count_append]
      rw [hcount, Nat.mul_add, List.length_append, List.length_singleton]
      omega
  have hstart := room_le ex
  rw [Nat.mul_add]
  omega

/-- A chain in which no call is made while an event is handled is at most as long as the two caps
together allow. -/
theorem unreset_nesting_bounded {hows : List Nesting}
    (h : Transition.Run (Nests kernel) ex hows ex') (hnone : .call true ∉ hows) :
    hows.length ≤ invokeMaxDepth + dispatchMaxDepth := by
  have hle := nested_length_le h
  rwa [resets, List.count_eq_zero.mpr hnone, Nat.zero_add, Nat.mul_one] at hle

end Nesting

/-! ### A handler that calls the publisher -/

def relayParams : Value :=
  .object [("plugin", .string "notes"), ("action", .string "relay")]

def publishStep : StepDef := .new "publish" "notes.publish" .emptyObject

/-- `relay` publishes `tick` and runs a guest, and the handler of `tick` publishes it again and
invokes `relay`. -/
def tickingManifest : PluginManifest :=
  { plainManifest "notes" with
    actions := (IndexMap.empty.insert "relay"
      (plainAction [publishStep, .new "guest" "notes.guest" .emptyObject])).insert "handle"
        { plainAction [publishStep, .new "call" "invoke" relayParams] with
          subscribesTo := ["tick"] } }

def tickingSetup : Setup :=
  textSetup [("kernel", plainManifest "kernel"), ("notes", tickingManifest)] []

def tickingView (r : PluginRegistry) : KernelView Unit :=
  ⟨r, defaultOrchestrator, fun _ => "", ⟨60000, none⟩, fun _ _ => .ok .null⟩

def tickingExecution (r : PluginRegistry) (stepId stepType : String)
    (invokeDepth dispatchDepth : Nat) : Execution Unit :=
  ⟨"notes", .null, (), .emptyObject, (r.stepTypeAccessFor "notes").allowed, stepId, stepType,
    invokeDepth, dispatchDepth⟩

/-- The call of `relay` that a step makes. -/
def relayCall (parentDepth : Nat) : InvokedCall Unit :=
  ⟨"notes", "relay", .null, .null, (), parentDepth⟩

/-- Whatever its depth below the cap, a guest's invoke comes to the same call. -/
theorem guestInvoke_deeper {ξ : Type} {kernel : KernelView ξ} {ex : Execution ξ} {op action : String}
    {wrapped : Bool} {target input : Value} {call : InvokedCall ξ} {d : Nat}
    (hd : d < invokeMaxDepth)
    (h : kernel.guestInvoke op wrapped ex target action input = .ok call) :
    kernel.guestInvoke op wrapped { ex with invokeDepth := d } target action input =
      .ok { call with parentDepth := d } := by
  obtain ⟨hlt, -⟩ := guestInvoke_depth h
  revert h
  simp only [KernelView.guestInvoke, if_neg (Nat.not_le.mpr hd), if_neg (Nat.not_le.mpr hlt)]
  split
  · rintro ⟨⟩
  · split
    · rintro ⟨⟩
    · split
      · rintro ⟨⟩
      · split
        · rintro ⟨⟩
        · split
          · rintro ⟨⟩
          · rintro ⟨⟩
          · split
            · rintro ⟨⟩
            · rintro ⟨⟩
              rfl

/-- Below the cap an event starts the same handlers at every depth. -/
theorem dispatchEvent_deeper {ξ : Type} {kernel : KernelView ξ} {now e : Nat} {eventType : String}
    {payload config : Value} {execCtx : ξ} {subscriber : NodeRef} {s : Started ξ}
    (he : e < dispatchMaxDepth)
    (h : (subscriber, .ok s) ∈ kernel.dispatchEvent now eventType payload config execCtx 0) :
    (subscriber, .ok { s with context := { s.context with dispatchDepth := e + 1 } }) ∈
      kernel.dispatchEvent now eventType payload config execCtx e := by
  rw [KernelView.dispatchEvent, if_neg (Nat.not_le.mpr he)]
  rw [KernelView.dispatchEvent, if_neg (by decide)] at h
  obtain ⟨found, hfound, heq⟩ := List.mem_map.mp h
  obtain ⟨rfl, hstart⟩ := Prod.mk.injEq .. ▸ heq
  refine List.mem_map.mpr ⟨found, hfound, Prod.ext rfl ?_⟩
  dsimp only
  revert hstart
  split
  · rintro ⟨⟩
  · simp only [KernelView.executeActionEventDispatched]
    split
    · rintro ⟨⟩
    · split
      · rintro ⟨⟩
      · rintro ⟨⟩
        rfl

/-- An `invoke` step does not look at the depth of the events. -/
theorem stepInvoke_handling {ξ : Type} {floatText : Binary64 → String}
    {orchestrator : DispatchOrchestrator ξ} {r : Option PluginRegistry} (ex : Execution ξ)
    (params : Value) (e : Nat) :
    stepInvoke floatText orchestrator r { ex with dispatchDepth := e } params =
      stepInvoke floatText orchestrator r ex params := rfl

/-- What the kernel allows: a guest of `relay` to call it up to the one cap, the event up to the
other, and a call from a handler at any depth. -/
structure Ticks (r : PluginRegistry) : Prop where
  guest : ∀ d < invokeMaxDepth, ∀ stepId stepType, Nests (tickingView r)
    (tickingExecution r "guest" "notes.guest" d 0) (.call false)
    (tickingExecution r stepId stepType (d + 1) 0)
  event : ∀ e < dispatchMaxDepth, ∀ d stepId stepType, Nests (tickingView r)
    (tickingExecution r "publish" "notes.publish" d e) .event
    (tickingExecution r stepId stepType 0 (e + 1))
  call : ∀ e, 0 < e → ∀ stepId stepType, Nests (tickingView r)
    (tickingExecution r "call" "invoke" 0 e) (.call true) (tickingExecution r stepId stepType 1 0)

/-- What each of them comes to at the outermost depth. -/
theorem ticking_starts : ∃ k₀ k : Kernel, ∃ handler,
    Kernel.boot tickingSetup "kernel" = .ok k₀ ∧
    k = k₀.afterAll tickingSetup [.load "" "notes"] ∧
    (tickingView k.registry).guestInvoke "io.invoke" true
      (tickingExecution k.registry "guest" "notes.guest" 0 0)
      (.object [("plugin", .string "notes")]) "relay" .null = .ok (relayCall 0) ∧
    (∀ d, ∃ s, (tickingView k.registry).executeActionInvoked 0 (relayCall d) none none = .ok s ∧
      ∀ stepId stepType, s.Runs (tickingExecution k.registry stepId stepType (d + 1) 0)) ∧
    (tickingView k.registry).dispatchEvent 0 "tick" .null .null () 0 =
      [(("notes", "handle"), .ok handler)] ∧
    handler.Runs (tickingExecution k.registry "publish" "notes.publish" 0 1) ∧
    stepInvoke (fun _ => "") defaultOrchestrator (some k.registry)
      (tickingExecution k.registry "call" "invoke" 0 0) relayParams = .ok (relayCall 0) :=
  ⟨_, _, _, rfl, rfl, rfl, fun _ => ⟨_, rfl, fun _ _ => ⟨rfl, rfl, rfl, rfl, rfl, rfl⟩⟩, rfl,
    ⟨rfl, rfl, rfl, rfl, rfl, rfl⟩, rfl⟩

theorem ticking_ticks : ∃ k : Kernel, k.Reachable tickingSetup ∧ Ticks k.registry := by
  obtain ⟨k₀, k, handler, hboot, hk, hguest, hstart, hevent, hhandles, hcall⟩ := ticking_starts
  refine ⟨k, hk ▸ Kernel.reachable_afterAll hboot _, ?_, ?_, ?_⟩
  · intro d hd stepId stepType
    obtain ⟨s, hs, hruns⟩ := hstart d
    have hcalls : (tickingView k.registry).guestInvoke "io.invoke" true
        (tickingExecution k.registry "guest" "notes.guest" d 0)
        (.object [("plugin", .string "notes")]) "relay" .null = .ok (relayCall d) :=
      guestInvoke_deeper hd hguest
    exact Nests.guest hcalls hs (hruns stepId stepType)
  · intro e he d stepId stepType
    have hmem : (("notes", "handle"), Except.ok handler) ∈
        (tickingView k.registry).dispatchEvent 0 "tick" .null .null () 0 := by simp [hevent]
    exact .event (dispatchEvent_deeper he hmem) ⟨hhandles.plugin, hhandles.config,
      hhandles.execCtx, hhandles.stepTypeAccess, hhandles.invokeDepth, rfl⟩
  · intro e he stepId stepType
    have hcalls : (Surface.invoke relayParams).Calls (fun _ => "") defaultOrchestrator k.registry
        (tickingExecution k.registry "call" "invoke" 0 e) (relayCall 0) :=
      (stepInvoke_handling (tickingExecution k.registry "call" "invoke" 0 0) relayParams e).trans hcall
    obtain ⟨s, hs, hruns⟩ := hstart 0
    have hnests : Nests (tickingView k.registry) _ _ _ :=
      Nests.inline hcalls hs (hruns stepId stepType)
    have hresets : decide (0 < (tickingExecution k.registry "call" "invoke" 0 e).dispatchDepth) =
        true := decide_eq_true he
    rwa [hresets] at hnests

section Chains

variable {r : PluginRegistry}

/-- Calls, one in the other, down to any depth within the cap. -/
theorem Ticks.calls (h : Ticks r) {n : Nat} (hn : n < invokeMaxDepth) (stepId stepType : String) :
    Transition.Run (Nests (tickingView r)) (tickingExecution r "guest" "notes.guest" 0 0)
      (List.replicate (n + 1) (.call false)) (tickingExecution r stepId stepType (n + 1) 0) := by
  induction n generalizing stepId stepType with
  | zero => exact .single (h.guest 0 hn stepId stepType)
  | succ n ih =>
    rw [List.replicate_succ']
    exact .snoc (ih (by omega) "guest" "notes.guest") (h.guest (n + 1) hn stepId stepType)

/-- Events, one in the handler of the other, down to any depth within the cap. -/
theorem Ticks.events (h : Ticks r) {n : Nat} (hn : n < dispatchMaxDepth) (d : Nat)
    (stepId stepType : String) :
    Transition.Run (Nests (tickingView r)) (tickingExecution r "publish" "notes.publish" d 0)
      (List.replicate (n + 1) .event) (tickingExecution r stepId stepType 0 (n + 1)) := by
  induction n generalizing stepId stepType with
  | zero => exact .single (h.event 0 hn d stepId stepType)
  | succ n ih =>
    rw [List.replicate_succ']
    exact .snoc (ih (by omega) "publish" "notes.publish") (h.event (n + 1) hn 0 stepId stepType)

/-- Calls down to the one cap and, from there, events down to the other. -/
def fullChain : List Nesting :=
  List.replicate invokeMaxDepth (.call false) ++ List.replicate dispatchMaxDepth .event

theorem Ticks.full (h : Ticks r) :
    Transition.Run (Nests (tickingView r)) (tickingExecution r "guest" "notes.guest" 0 0) fullChain
      (tickingExecution r "call" "invoke" 0 dispatchMaxDepth) :=
  (h.calls (n := 15) (by decide) "publish" "notes.publish").trans
    (h.events (n := 15) (by decide) invokeMaxDepth "call" "invoke")

/-- The publisher starts the handler, and the handler the publisher. -/
theorem Ticks.round (h : Ticks r) (d : Nat) :
    Transition.Run (Nests (tickingView r)) (tickingExecution r "publish" "notes.publish" d 0)
      [.event, .call true] (tickingExecution r "publish" "notes.publish" 1 0) :=
  (Transition.Run.single (h.event 0 (by decide) d "call" "invoke")).trans
    (.single (h.call 1 (by decide) "publish" "notes.publish"))

end Chains

/-- A chain without a call from a handler reaches the sum of the two caps. -/
theorem full_nesting_bounded : ∃ k : Kernel, k.Reachable tickingSetup ∧ ∃ ex ex',
    Transition.Run (Nests (tickingView k.registry)) ex fullChain ex' ∧ .call true ∉ fullChain ∧
      invokeMaxDepth + dispatchMaxDepth ≤ fullChain.length ∧
        fullChain.length ≤ invokeMaxDepth + dispatchMaxDepth := by
  obtain ⟨k, hreach, hticks⟩ := ticking_ticks
  have hnone : .call true ∉ fullChain := by decide
  exact ⟨k, hreach, _, _, hticks.full, hnone, by decide,
    unreset_nesting_bounded hticks.full hnone⟩

/-- One call from a handler takes a chain past the sum of the caps, and the two kinds in turn give
chains of any length. -/
theorem alternating_nesting_unbounded : ∃ k : Kernel, k.Reachable tickingSetup ∧
    (∃ hows ex ex', Transition.Run (Nests (tickingView k.registry)) ex hows ex' ∧
      resets hows = 1 ∧ invokeMaxDepth + dispatchMaxDepth < hows.length) ∧
    ∀ bound, ∃ hows ex', bound < hows.length ∧
      Transition.Run (Nests (tickingView k.registry))
        (tickingExecution k.registry "publish" "notes.publish" 0 0) hows ex' := by
  obtain ⟨k, hreach, hticks⟩ := ticking_ticks
  have hpast := hticks.full.snoc (hticks.call dispatchMaxDepth (by decide) "publish" "notes.publish")
  refine ⟨k, hreach, ⟨_, _, _, hpast, by decide, by decide⟩, fun bound => ?_⟩
  have hchain : ∀ n, ∃ hows, n < hows.length ∧
      Transition.Run (Nests (tickingView k.registry))
        (tickingExecution k.registry "publish" "notes.publish" 0 0) hows
        (tickingExecution k.registry "publish" "notes.publish" 1 0) := by
    intro n
    induction n with
    | zero => exact ⟨[.event, .call true], by simp, hticks.round 0⟩
    | succ n ih =>
      obtain ⟨hows, hlong, hrun⟩ := ih
      refine ⟨hows ++ [.event, .call true], ?_, hrun.trans (hticks.round 1)⟩
      simp
      omega
  obtain ⟨hows, hlong, hrun⟩ := hchain bound
  exact ⟨hows, _, hlong, hrun⟩

end Gwead
