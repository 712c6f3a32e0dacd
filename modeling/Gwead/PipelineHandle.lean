import Gwead.Callee
import Gwead.Dataflow
import Gwead.WallclockRace

/-!
# Handles of dataflow pipelines

A pipeline started through a handle is driven by a task of its own: the action is looked up, its
secrets are pulled, and the scheduler runs under the action's wallclock cap.  The caller follows it
on a bounded channel and is sent the result when the driver is done.
-/

namespace Gwead

open Transition

/-- What the scheduler tells of a pipeline, and step bodies of their progress. -/
inductive DataflowEvent where
  | stepStarted (stepId : String)
  | stepCompleted (stepId : String) (ok : Bool)
  | stepFailed (stepId error : String)
  | stepProgress (stepId : String) (payload : Value)
  | pipelineCompleted (ok : Bool)
  deriving DecidableEq

/-! ### The channel -/

/-- `detached` are the sends that wait for room, each on a task of its own. -/
structure EventChannel where
  capacity : Nat
  queue : List DataflowEvent
  detached : List DataflowEvent
  closed : Bool

namespace EventChannel

def new (capacity : Nat) : EventChannel := ⟨capacity, [], [], false⟩

/-- Whether an event would be put into the queue; nothing is put into that of a dropped receiver. -/
def hasRoom (c : EventChannel) : Bool := !c.closed && decide (c.queue.length < c.capacity)

/-- Best effort: a full channel drops the event. -/
def emitEvent (c : EventChannel) (e : DataflowEvent) : EventChannel :=
  if c.hasRoom then { c with queue := c.queue ++ [e] } else c

/-- A full channel gets the event when there is room again. -/
def emitTerminalEvent (c : EventChannel) (e : DataflowEvent) : EventChannel :=
  if c.hasRoom then { c with queue := c.queue ++ [e] }
  else if c.closed then c
  else { c with detached := c.detached ++ [e] }

end EventChannel

/-- What a step of the scheduler is shown as. -/
def PipelineEvent.shown (action : Action) : PipelineEvent → Option DataflowEvent
  | .spawned idx _ => some (.stepStarted (action.stepAt idx).id)
  | .joined task _ (some err) =>
    some (.stepFailed (action.stepAt task.idx).id err.display)
  | .joined task (.ok bodyOk _) none => some (.stepCompleted (action.stepAt task.idx).id bodyOk)
  | .joined task (.error _ _) none => some (.stepCompleted (action.stepAt task.idx).id false)
  | _ => none

/-! ### Requests -/

structure HandleRequest (ξ : Type) where
  plugin : String
  action : String
  input : Value
  config : Value
  execCtx : ξ
  withStreams : Bool
  limits : RuntimeLimits
  eventsCapacity : Nat

/-- Where a driver is.  From its terminator on, `ok` is what that said. -/
inductive Driver where
  | looking
  | pulling (registration : ActionRegistration)
  | provisioning (registration : ActionRegistration) (s : ExecutionState)
  | scheduling (registration : ActionRegistration) (c : Pipeline)
  | closing (outcome : Except KernelError ActionResult) (ok : Bool)
  | resolving (outcome : Except KernelError ActionResult) (ok : Bool)
  /-- The scheduler's future resolved, or was dropped (`none`). -/
  | judging (outcome : Option (Except KernelError ActionResult)) (ok : Bool)
  | refusing (e : KernelError)
  | sending (result : Except KernelError ActionResult) (ok : Bool)
  | done (result : Except KernelError ActionResult) (ok : Bool)

structure PipelineHandle where
  preAllocated : List String
  driver : Driver
  race : WallclockRace
  channel : EventChannel

namespace KernelView

variable {ξ : Type} (kernel : KernelView ξ) (request : HandleRequest ξ)

def notRegistered : KernelError :=
  .notFound ("Action " ++ request.plugin ++ "." ++ request.action ++ " not registered")

/-- What both terminals check of a request; `terminal` is the one that does.  A driver needs a kernel
that is shared. -/
def checkHandle (terminal ownsStreams : String) : Except KernelError ActionRegistration :=
  match kernel.registry.getAction request.plugin request.action with
  | none => .error (notRegistered request)
  | some registration =>
    if !registration.action.dataflow then
      .error (.validation ("Action " ++ request.plugin ++ "." ++ request.action ++
        " is not marked dataflow; use Kernel::execute(...).run() for single-shot calls"))
    else if request.withStreams then
      .error (.validation ("with_streams() is not compatible with " ++ terminal ++ "(); " ++
        ownsStreams))
    else .ok registration

def unshared : KernelError :=
  .execution ("Kernel::execute(...).into_*() requires a kernel constructed via Kernel::into_arc; " ++
    ".run() works without it for actions that don't invoke or dispatch_role other plugins")

/-- A driver that has just been spawned.  The token is a child of the caller's, which may be fired
already. -/
def spawnDriver (preAllocated : List String) (now : Nat) (cancelled : Bool) : PipelineHandle :=
  ⟨preAllocated, .looking, .start none now cancelled, .new request.eventsCapacity⟩

def intoDataflowHandle (shared : Bool) (now : Nat) (cancelled : Bool) :
    Except KernelError PipelineHandle := do
  let _ ← kernel.checkHandle request "into_dataflow_handle"
    "the dataflow pipeline owns its own stream registry"
  if shared then .ok (spawnDriver request [] now cancelled) else .error unshared

def handleError (rest : String) : KernelError :=
  .validation ("into_dataflow_streaming_handle: action " ++ request.plugin ++ "." ++
    request.action ++ rest)

/-- The producer of an action whose stream the caller of the handle reads. -/
def handleProducer (registration : ActionRegistration) : Except KernelError String :=
  soleProducer (handleError request) "caller" "caller's" registration

def intoDataflowStreamingHandle (shared : Bool) (now : Nat) (cancelled : Bool) :
    Except KernelError PipelineHandle := do
  let registration ← kernel.checkHandle request "into_dataflow_streaming_handle"
    "the terminal allocates its own registry to expose the producer's output"
  let producer ← handleProducer request registration
  if shared then .ok (spawnDriver request [producer] now cancelled) else .error unshared

end KernelView

/-! ### The driver and what goes on beside it -/

inductive HandleEvent where
  /-- The clock, the watchdog and whoever else holds the token. -/
  | beside (e : RaceEvent)
  | scheduled (e : PipelineEvent) (handed : Option DataflowEvent)
  | driven (handed : Option DataflowEvent)
  | progressed (stepId : String) (payload : Value)
  | received (e : DataflowEvent)
  | delivered (e : DataflowEvent)
  | dropped

def HandleEvent.handed : HandleEvent → Option DataflowEvent
  | .scheduled _ handed => handed
  | .driven handed => handed
  | _ => none

/-- What the step bodies send goes into the channel too. -/
def HandleEvent.told : HandleEvent → Option DataflowEvent
  | .progressed stepId payload => some (.stepProgress stepId payload)
  | e => e.handed

def HandleEvent.received? : HandleEvent → Option DataflowEvent
  | .received e => some e
  | _ => none

/-- The events the scheduler and its driver hand to the channel, in order. -/
def handedEvents (es : List HandleEvent) : List DataflowEvent := es.filterMap HandleEvent.handed

/-- The events anyone hands to the channel, in order. -/
def toldEvents (es : List HandleEvent) : List DataflowEvent := es.filterMap HandleEvent.told

/-- The events the caller has got. -/
def receivedEvents (es : List HandleEvent) : List DataflowEvent := es.filterMap HandleEvent.received?

def RaceEvent.isBeside : RaceEvent → Bool
  | .tick _ | .cancel | .wake | .check | .flag | .fire => true
  | _ => false

def RaceEvent.judges : RaceEvent → Bool
  | .abort | .load | .readToken | .readClock | .finish => true
  | _ => false

/-- The pipeline as the scheduler sees it when it looks at the token. -/
def Pipeline.withToken (c : Pipeline) (fired : Bool) : Pipeline := { c with cancelled := fired }

section Driver

variable {ξ : Type} (kernel : KernelView ξ) (host : Host) (request : HandleRequest ξ)

/-- One step of the driver, of its scheduler, or of what goes on beside them. -/
inductive HandleStep (h : PipelineHandle) : HandleEvent → PipelineHandle → Prop
  | beside {e : RaceEvent} {race : WallclockRace} (hbeside : e.isBeside = true)
      (hstep : h.race.Step e race) : HandleStep h (.beside e) { h with race := race }
  -- a shared kernel is not changed, so this is the registration that was checked
  | found {registration : ActionRegistration} (hat : h.driver = .looking)
      (hget : kernel.registry.getAction request.plugin request.action = some registration)
      (hdataflow : registration.action.dataflow = true) :
      HandleStep h (.driven none) { h with driver := .pulling registration }
  | vanished (hat : h.driver = .looking)
      (hget : kernel.registry.getAction request.plugin request.action = none) :
      HandleStep h (.driven none)
        { h with driver := .refusing (KernelView.notRegistered request) }
  -- the budget starts with the action, not with its preparations
  | pulled {registration : ActionRegistration} {secrets : Value}
      (hat : h.driver = .pulling registration)
      (hpull : kernel.pullSecrets request.plugin request.execCtx = .ok secrets) :
      HandleStep h (.driven none)
        { h with
          driver := .provisioning registration (.new request.plugin registration.action.toAction
            request.input request.config secrets none request.limits)
          race := { h.race with cap := kernel.limits.cap h.race.now registration.action } }
  | unpulled {registration : ActionRegistration} {e : KernelError}
      (hat : h.driver = .pulling registration)
      (hpull : kernel.pullSecrets request.plugin request.execCtx = .error e) :
      HandleStep h (.driven none) { h with driver := .refusing e }
  | refused {e : KernelError} (hat : h.driver = .refusing e) :
      HandleStep h (.driven (some (.pipelineCompleted false)))
        { h with
          driver := .sending (.error e) false
          channel := h.channel.emitTerminalEvent (.pipelineCompleted false) }
  | provisioned {registration : ActionRegistration} {s s' : ExecutionState}
      {fanout : List (Nat × List Nat)} (hat : h.driver = .provisioning registration s)
      (hprovision : provisionDataflowStreams host registration.action.toAction registration.plan
        h.preAllocated s = .ok (s', fanout)) :
      HandleStep h (.driven none)
        { h with driver := .scheduling registration (startPipeline registration.action.toAction
            registration.plan s' fanout h.race.fired.isSome) }
  | unprovisioned {registration : ActionRegistration} {s : ExecutionState} {e : KernelError}
      (hat : h.driver = .provisioning registration s)
      (hprovision : provisionDataflowStreams host registration.action.toAction registration.plan
        h.preAllocated s = .error e) :
      HandleStep h (.driven none) { h with driver := .closing (.error e) false }
  /-- The linker refuses an import. -/
  | unlinked {registration : ActionRegistration} {s : ExecutionState} (e : KernelError)
      (hat : h.driver = .provisioning registration s) :
      HandleStep h (.driven none) { h with driver := .closing (.error e) false }
  -- the scheduler fires the token it shares with the watchdog on the first error
  | scheduled {registration : ActionRegistration} {c c' : Pipeline} {e : PipelineEvent}
      (hat : h.driver = .scheduling registration c) (hown : e ≠ .fired)
      (hstep : PipelineStep host registration.action.toAction registration.plan true
        (c.withToken h.race.fired.isSome) e c') :
      HandleStep h (.scheduled e (e.shown registration.action.toAction))
        { h with
          driver := .scheduling registration c'
          race := if c'.cancelled then h.race.fireBy .other else h.race
          channel := (e.shown registration.action.toAction).elim h.channel h.channel.emitEvent }
  | ended {registration : ActionRegistration} {c : Pipeline}
      {outcome : Except KernelError ActionResult} (hat : h.driver = .scheduling registration c)
      (hended : c.phase = .ended outcome) :
      HandleStep h (.driven none)
        { h with driver := .closing outcome (outcome.isOk && !c.cancelled) }
  | terminated {outcome : Except KernelError ActionResult} {ok : Bool}
      (hat : h.driver = .closing outcome ok) :
      HandleStep h (.driven (some (.pipelineCompleted ok)))
        { h with
          driver := .resolving outcome ok
          channel := h.channel.emitTerminalEvent (.pipelineCompleted ok) }
  | resolved {outcome : Except KernelError ActionResult} {ok : Bool} {race : WallclockRace}
      (hat : h.driver = .resolving outcome ok) (hstep : h.race.Step (.resolve outcome) race) :
      HandleStep h (.driven none) { h with driver := .judging (some outcome) ok, race := race }
  -- the scheduler is suspended only where it waits for a task
  | abandoned {registration : ActionRegistration} {c : Pipeline} {race : WallclockRace}
      (hat : h.driver = .scheduling registration c) (hwaiting : c.phase = .waiting)
      (hrunning : c.running ≠ []) (hstep : h.race.Step .drop race) :
      HandleStep h (.driven none) { h with driver := .judging none false, race := race }
  | judged {outcome : Option (Except KernelError ActionResult)} {ok : Bool} {e : RaceEvent}
      {race : WallclockRace} (hat : h.driver = .judging outcome ok) (hjudges : e.judges = true)
      (hstep : h.race.Step e race) : HandleStep h (.driven none) { h with race := race }
  /-- A future that was dropped has not sent its terminator. -/
  | substituted {outcome : Option (Except KernelError ActionResult)} {ok : Bool}
      {o : WallclockOutcome} (hat : h.driver = .judging outcome ok)
      (hreturned : h.race.stage = .returned o) (habandoned : o.abandoned = true) :
      HandleStep h (.driven (some (.pipelineCompleted false)))
        { h with
          driver := .sending o.result false
          channel := h.channel.emitTerminalEvent (.pipelineCompleted false) }
  | completed {outcome : Option (Except KernelError ActionResult)} {ok : Bool}
      {o : WallclockOutcome} (hat : h.driver = .judging outcome ok)
      (hreturned : h.race.stage = .returned o) (habandoned : o.abandoned = false) :
      HandleStep h (.driven none) { h with driver := .sending o.result ok }
  | sent {result : Except KernelError ActionResult} {ok : Bool}
      (hat : h.driver = .sending result ok) :
      HandleStep h (.driven none) { h with driver := .done result ok }
  /-- A step body tells how far it is.  One whose task nobody joins, as the scheduler was dropped or
  has ended on another's panic, may still do so. -/
  | progressed (stepId : String) (payload : Value) : HandleStep h (.progressed stepId payload)
      { h with channel := h.channel.emitEvent (.stepProgress stepId payload) }
  | received {e : DataflowEvent} {rest : List DataflowEvent} (hopen : h.channel.closed = false)
      (hqueue : h.channel.queue = e :: rest) :
      HandleStep h (.received e) { h with channel := { h.channel with queue := rest } }
  | delivered {e : DataflowEvent} {before after : List DataflowEvent}
      (hroom : h.channel.hasRoom = true) (hdetached : h.channel.detached = before ++ e :: after) :
      HandleStep h (.delivered e)
        { h with channel := { h.channel with
            queue := h.channel.queue ++ [e]
            detached := before ++ after } }
  | dropped : HandleStep h .dropped
      { h with channel := { h.channel with closed := true, queue := [], detached := [] } }

end Driver

end Gwead
