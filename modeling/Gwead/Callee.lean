import Gwead.Access
import Gwead.Dispatch

/-!
# What a callee is started with

A nested execution gets an invocation context of its own: its step types, its depths, its budget
and a child of its caller's token.  An event subscriber gets one too, but counts on another
depth.
-/

namespace Gwead

open Identity

def dispatchMaxDepth : Nat := 16

/-! ### Wallclock budgets -/

/-- In milliseconds; `maxTimeout` is the operator's ceiling. -/
structure WallclockLimits where
  defaultTimeout : Nat
  maxTimeout : Option Nat

structure WallclockCap where
  deadline : Nat
  timeoutMs : Nat

def WallclockCap.after (now timeout : Nat) : WallclockCap := ⟨now + timeout, timeout⟩

/-- A caller's deadline as the cap of a callee. -/
def WallclockCap.endingAt (now deadline : Nat) : WallclockCap := ⟨deadline, deadline - now⟩

def WallclockLimits.effectiveTimeout (limits : WallclockLimits) (action : ManifestAction) :
    Option Nat :=
  let requested :=
    match action.wallclockTimeoutMs with
    | some ms => some ms
    | none => if action.dataflow then none else some limits.defaultTimeout
  match requested, limits.maxTimeout with
  | asked, none => asked
  | none, some ceiling => some ceiling
  | some asked, some ceiling => some (min asked ceiling)

def WallclockLimits.cap (limits : WallclockLimits) (now : Nat) (action : ManifestAction) :
    Option WallclockCap :=
  (limits.effectiveTimeout action).map (WallclockCap.after now)

inductive CalleeWallclock where
  | own (cap : WallclockCap)
  | inherited (cap : WallclockCap)
  | uncapped

def CalleeWallclock.cap : CalleeWallclock → Option WallclockCap
  | .own cap => some cap
  | .inherited cap => some cap
  | .uncapped => none

def calleeWallclock (limits : WallclockLimits) (now : Nat) (action : ManifestAction)
    (callerDeadline : Option Nat) : CalleeWallclock :=
  match callerDeadline with
  | none =>
    match limits.cap now action with
    | some cap => .own cap
    | none => .uncapped
  | some deadline =>
    match action.wallclockTimeoutMs.map (WallclockCap.after now) with
    | some own =>
      if own.deadline ≤ deadline then .own own else .inherited (.endingAt now deadline)
    | none => .inherited (.endingAt now deadline)

/-! ### Invocation contexts -/

/-- A token is fresh or a child, which its parent's cancel reaches and not the other way. -/
inductive CancelToken where
  | fresh
  | child (parent : CancelToken)

structure InvocationContext where
  stepTypeAccess : StepTypeAccess
  invokeDepth : Nat
  dispatchDepth : Nat
  trigger : Option Value
  drainStreams : Bool
  deadline : Option Nat
  cancel : CancelToken

def calleeInvocation (r : PluginRegistry) (limits : WallclockLimits) (now : Nat)
    (plugin : String) (action : ManifestAction) (parentDepth : Nat)
    (parentCancel : Option CancelToken) (parentDeadline : Option Nat) :
    CalleeWallclock × InvocationContext :=
  let wallclock := calleeWallclock limits now action parentDeadline
  (wallclock,
    { stepTypeAccess := r.stepTypeAccessFor plugin
      invokeDepth := parentDepth + 1
      dispatchDepth := 0
      trigger := none
      drainStreams := false
      deadline := wallclock.cap.map WallclockCap.deadline
      cancel := .child (parentCancel.getD .fresh) })

/-- What the runtime is called with. -/
structure Started (ξ : Type) where
  plugin : String
  registration : ActionRegistration
  input : Value
  config : Value
  secrets : Value
  execCtx : ξ
  wallclock : Option WallclockCap
  context : InvocationContext

/-- The kernel as a nested start reads it; `pullSecrets` is the embedder's resolver. -/
structure KernelView (ξ : Type) where
  registry : PluginRegistry
  orchestrator : DispatchOrchestrator ξ
  floatText : Binary64 → String
  limits : WallclockLimits
  pullSecrets : String → ξ → Except KernelError Value

namespace KernelView

variable {ξ : Type} (kernel : KernelView ξ) (now : Nat)

def noAction (plugin action : String) : KernelError :=
  .notFound ("No action '" ++ action ++ "' on plugin '" ++ plugin ++ "'")

/-- The registration must be there and the secrets must come before the budget starts. -/
def executeActionInvoked (call : InvokedCall ξ) (parentCancel : Option CancelToken)
    (parentDeadline : Option Nat) : Except KernelError (Started ξ) :=
  match kernel.registry.getAction call.plugin call.action with
  | none => .error (noAction call.plugin call.action)
  | some registration =>
    match kernel.pullSecrets call.plugin call.execCtx with
    | .error e => .error e
    | .ok secrets =>
      let (wallclock, context) := calleeInvocation kernel.registry kernel.limits now call.plugin
        registration.action call.parentDepth parentCancel parentDeadline
      let armed :=
        match wallclock with
        | .own cap => some cap
        | .inherited _ => none
        | .uncapped => none
      .ok ⟨call.plugin, registration, call.input, call.config, secrets, call.execCtx, armed, context⟩

/-! ### Events -/

def executeActionEventDispatched (plugin action : String) (trigger config : Value) (execCtx : ξ)
    (parentDispatchDepth : Nat) : Except KernelError (Started ξ) :=
  match kernel.registry.getAction plugin action with
  | none => .error (noAction plugin action)
  | some registration =>
    match kernel.pullSecrets plugin execCtx with
    | .error e => .error e
    | .ok secrets =>
      let wallclock := kernel.limits.cap now registration.action
      .ok ⟨plugin, registration, .null, config, secrets, execCtx, wallclock,
        { stepTypeAccess := kernel.registry.stepTypeAccessFor plugin
          invokeDepth := 0
          dispatchDepth := parentDispatchDepth + 1
          trigger := some trigger
          drainStreams := true
          deadline := wallclock.map WallclockCap.deadline
          cancel := .fresh }⟩

/-- Start every subscriber of an event, with the identity it is reported under. -/
def dispatchEvent (eventType : String) (payload config : Value) (execCtx : ξ)
    (parentDispatchDepth : Nat) : List (NodeRef × Except KernelError (Started ξ)) :=
  if dispatchMaxDepth ≤ parentDispatchDepth then []
  else
    (kernel.registry.subscribersFor eventType).map fun subscriber =>
      (subscriber,
        match prepareDispatchViaOrchestrator kernel.orchestrator kernel.registry
            (.byPlugin subscriber.1 subscriber.2 payload .null) execCtx none config with
        | .error e => .error e
        | .ok plan => kernel.executeActionEventDispatched now plan.plugin plan.action payload
            plan.config execCtx parentDispatchDepth)

/-! ### Invokes of a guest -/

/-- The target of a guest's invoke: exactly one of `plugin` and `role`, and no foreign keys. -/
def guestTarget (op : String) (target : Value) : Except String (String ⊕ String) :=
  let named : Except String (String ⊕ String) :=
    match (target.get "plugin").bind Value.asStr, (target.get "role").bind Value.asStr with
    | some _, some _ =>
      .error (op ++ " target specifies both `plugin` and `role`; use exactly one")
    | none, none =>
      .error (op ++ " target must be \x7b\"plugin\": \"...\"\x7d or \x7b\"role\": \"...\"\x7d")
    | some plugin, none => .ok (.inl plugin)
    | none, some role => .ok (.inr role)
  let foreign :=
    match target with
    | .object fields =>
      (fields.map Prod.fst).find? fun key => key ≠ "plugin" ∧ key ≠ "role" ∧ key ≠ "hints"
    | _ => none
  match named, foreign with
  | .error e, _ => .error e
  | .ok _, some key =>
    .error (op ++ " target has unrecognised key '" ++ key ++
      "' (only 'plugin', 'role', and 'hints' are valid)")
  | .ok found, none => .ok found

/-- A guest's invoke up to its call; `io.invoke` and `io.invoke_streaming` differ in their name
only. -/
def guestInvoke (op : String) (wrapped : Bool) (ex : Execution ξ) (target : Value)
    (action : String) (input : Value) : Except String (InvokedCall ξ) :=
  let r := kernel.registry
  if ¬wrapped then .error (op ++ " requires a kernel constructed via Kernel::into_arc")
  else
    match guestTarget op target with
    | .error e => .error e
    | .ok found =>
      let hints := (target.get "hints").getD .null
      if invokeMaxDepth ≤ ex.invokeDepth then
        .error (op ++ " recursion cap (" ++ toString invokeMaxDepth ++ ") exceeded")
      else
        let request : Except String DispatchRequest :=
          match found with
          | .inl raw =>
            match r.resolvePluginReference ex.plugin raw with
            | .error e => .error (op ++ " target: " ++ e.display)
            | .ok plugin => .ok (.byPlugin plugin action input hints)
          | .inr role => .ok (.byRole role action input hints)
        match request with
        | .error e => .error e
        | .ok request =>
          match r.checkInvokeGrant ex.plugin request with
          | .error reason => .error (op ++ ": " ++ reason)
          | .ok () =>
            match prepareDispatchViaOrchestrator kernel.orchestrator r request ex.execCtx
                (some ex.plugin) ex.config, found with
            | .error (.notFound _), .inr role =>
              .error (op ++ " role '" ++ role ++ "' has no registered plugin")
            | .error e, _ => .error (op ++ " dispatch policy: " ++ e.display)
            | .ok plan, _ =>
              match r.authorizeResolvedDispatch ex.plugin request plan none with
              | .error reason => .error (op ++ ": " ++ reason)
              | .ok () => .ok (ex.call plan input)

/-! ### Streaming callees -/

/-- The single long-running step of an action, which no other step consumes.  `receiver` and `owner`
are the errors' words for the party that the output goes to. -/
def soleProducer (refusal : String → KernelError) (receiver owner : String)
    (registration : ActionRegistration) : Except KernelError String :=
  let action := registration.action
  let longRunning := (List.range action.steps.length).filter fun i =>
    (action.stepAt i).longRunning
  let consumed := longRunning.find? fun i => ¬(registration.plan.consumers.getD i []).isEmpty
  match consumed, longRunning.map fun i => (action.stepAt i).id with
  | some i, _ =>
    .error (refusal (" long-running step '" ++ (action.stepAt i).id ++
      "' has in-action consumer(s); the output must flow to the " ++ receiver ++
        ", not a sibling step"))
  | none, [one] => .ok one
  | none, [] =>
    .error (refusal
      " declares `dataflow: true` but has no `long_running` step — nothing to stream from")
  | none, many =>
    .error (refusal (" has " ++ toString many.length ++ " long-running steps (" ++
      ", ".intercalate many ++ "); exactly one is required so the " ++ owner ++
        " stream destination is unambiguous"))

def streamingError (plugin action rest : String) : KernelError :=
  .validation ("io.invoke_streaming: action " ++ plugin ++ "." ++ action ++ rest)

/-- The producer of a dataflow action that another plugin invokes for its stream. -/
def streamingProducer (call : InvokedCall ξ) (registration : ActionRegistration) :
    Except KernelError String :=
  if ¬registration.action.dataflow then
    .error (streamingError call.plugin call.action
      " is not declared `dataflow: true`; use io.invoke for non-streaming calls")
  else
    soleProducer (streamingError call.plugin call.action) "parent" "parent" registration

/-- A spawned callee, with the step that produces its stream; it arms its cap, whoever's it is. -/
def executeActionInvokedStreaming (call : InvokedCall ξ) (parentCancel : Option CancelToken)
    (parentDeadline : Option Nat) : Except KernelError (Started ξ × String) :=
  match kernel.registry.getAction call.plugin call.action with
  | none => .error (noAction call.plugin call.action)
  | some registration =>
    match streamingProducer call registration with
    | .error e => .error e
    | .ok producer =>
      match kernel.pullSecrets call.plugin call.execCtx with
      | .error e => .error e
      | .ok secrets =>
        let (wallclock, context) := calleeInvocation kernel.registry kernel.limits now call.plugin
          registration.action call.parentDepth parentCancel parentDeadline
        .ok (⟨call.plugin, registration, call.input, call.config, secrets, call.execCtx,
          wallclock.cap, context⟩, producer)

end KernelView

end Gwead
