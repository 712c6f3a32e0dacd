import Gwead.Callee
import Gwead.Consistency
import Gwead.Lib.Transition

/-!
# Deadlines down an invocation tree

A callee's budget is chosen against its caller's deadline.  A cap of its own is armed on its own
token; an inherited one is the caller's, and is armed again only where the callee is spawned.  An
inline callee is taken to end with its caller, and one that outlives it, as a step body makes it by
letting go of what `dispatch_role` returned, has no watchdog left.
-/

namespace Gwead

namespace KernelView

variable {ξ : Type} (kernel : KernelView ξ) (now : Nat)

/-! ### Top-level starts -/

/-- What the terminals of an execute request share.  The budget starts after the secrets came. -/
def startTopLevel (plugin action : String) (input config : Value) (execCtx : ξ)
    (drainStreams : Bool) (cancel : CancelToken) : Except KernelError (Started ξ) :=
  match kernel.registry.getAction plugin action with
  | none => .error (noAction plugin action)
  | some registration =>
    match kernel.pullSecrets plugin execCtx with
    | .error e => .error e
    | .ok secrets =>
      let wallclock := kernel.limits.cap now registration.action
      .ok ⟨plugin, registration, input, config, secrets, execCtx, wallclock,
        { stepTypeAccess := kernel.registry.stepTypeAccessFor plugin
          invokeDepth := 0
          dispatchDepth := 0
          trigger := none
          drainStreams := drainStreams
          deadline := wallclock.map WallclockCap.deadline
          cancel := cancel }⟩

/-- One token for each invocation: a child of the caller's, if there is one. -/
def run (plugin action : String) (input config : Value) (execCtx : ξ) (withStreams : Bool)
    (cancel : Option CancelToken) : Except KernelError (Started ξ) :=
  kernel.startTopLevel now plugin action input config execCtx (!withStreams)
    ((cancel.map CancelToken.child).getD .fresh)

/-- The driver task of the two dataflow handles. -/
def driveDataflow (plugin action : String) (input config : Value) (execCtx : ξ)
    (cancel : Option CancelToken) : Except KernelError (Started ξ) :=
  kernel.startTopLevel now plugin action input config execCtx true (.child (cancel.getD .fresh))

end KernelView

/-! ### The choice of a budget -/

section Budget

variable (limits : WallclockLimits) (now : Nat) (action : ManifestAction)

theorem effectiveTimeout_declared {ms : Nat} (h : action.wallclockTimeoutMs = some ms) :
    ∃ t, limits.effectiveTimeout action = some t ∧ t ≤ ms := by
  cases hmax : limits.maxTimeout with
  | none => exact ⟨ms, by simp [WallclockLimits.effectiveTimeout, h, hmax], Nat.le_refl ms⟩
  | some ceiling =>
    exact ⟨min ms ceiling, by simp [WallclockLimits.effectiveTimeout, h, hmax],
      Nat.min_le_left ms ceiling⟩

theorem effectiveTimeout_ceiling {ceiling : Nat} (h : limits.maxTimeout = some ceiling) :
    ∃ t, limits.effectiveTimeout action = some t ∧ t ≤ ceiling := by
  cases hms : action.wallclockTimeoutMs with
  | some ms =>
    exact ⟨min ms ceiling, by simp [WallclockLimits.effectiveTimeout, hms, h],
      Nat.min_le_right ms ceiling⟩
  | none =>
    cases hflow : action.dataflow with
    | true =>
      exact ⟨ceiling, by simp [WallclockLimits.effectiveTimeout, hms, hflow, h],
        Nat.le_refl ceiling⟩
    | false =>
      exact ⟨min limits.defaultTimeout ceiling,
        by simp [WallclockLimits.effectiveTimeout, hms, hflow, h],
        Nat.min_le_right limits.defaultTimeout ceiling⟩

theorem calleeWallclock_shrinks (d : Nat) :
    ∃ cap, (calleeWallclock limits now action (some d)).cap = some cap ∧ cap.deadline ≤ d := by
  simp only [calleeWallclock]
  split
  · split
    · exact ⟨_, rfl, ‹_›⟩
    · exact ⟨_, rfl, Nat.le_refl d⟩
  · exact ⟨_, rfl, Nat.le_refl d⟩

/-- A budget that has run out is the caller's. -/
theorem calleeWallclock_past {deadline : Option Nat} {cap : WallclockCap}
    (h : (calleeWallclock limits now action deadline).cap = some cap) (hpast : cap.deadline < now) :
    deadline = some cap.deadline := by
  cases deadline with
  | none =>
    cases heffective : limits.effectiveTimeout action with
    | none =>
      simp [calleeWallclock, WallclockLimits.cap, heffective, CalleeWallclock.cap] at h
    | some t =>
      simp only [calleeWallclock, WallclockLimits.cap, heffective, Option.map_some,
        CalleeWallclock.cap, Option.some.injEq] at h
      subst h
      simp [WallclockCap.after] at hpast
  | some d =>
    simp only [calleeWallclock] at h
    split at h
    · rename_i own hown
      split at h
      · obtain ⟨ms, -, rfl⟩ := Option.map_eq_some_iff.mp hown
        cases h
        simp [WallclockCap.after] at hpast
      · cases h
        rfl
    · cases h
      rfl

theorem calleeWallclock_declared {ms : Nat} (h : action.wallclockTimeoutMs = some ms)
    (deadline : Option Nat) : ∃ cap, (calleeWallclock limits now action deadline).cap = some cap ∧
      cap.deadline ≤ now + ms := by
  cases deadline with
  | none =>
    obtain ⟨t, ht, hle⟩ := effectiveTimeout_declared limits action h
    refine ⟨.after now t, ?_, Nat.add_le_add_left hle now⟩
    simp [calleeWallclock, WallclockLimits.cap, ht, CalleeWallclock.cap]
  | some d =>
    simp only [calleeWallclock, h, Option.map_some]
    split
    · exact ⟨_, rfl, Nat.le_refl _⟩
    · rename_i hlate
      simp only [WallclockCap.after] at hlate
      exact ⟨_, rfl, by simp [WallclockCap.endingAt]; omega⟩

end Budget

/-! ### What a start promises -/

section Started

variable {ξ : Type} {kernel : KernelView ξ} {now : Nat} {s : Started ξ}

def Started.deadline (s : Started ξ) : Option Nat := s.context.deadline

/-- What it arms ends at its deadline. -/
def Started.Armed (s : Started ξ) : Prop := s.wallclock.map WallclockCap.deadline = s.deadline

/-- It ends within what its action declares. -/
def Started.KeepsDeclared (s : Started ξ) (start : Nat) : Prop :=
  ∀ ms, s.registration.action.wallclockTimeoutMs = some ms →
    ∃ d, s.deadline = some d ∧ d ≤ start + ms

/-- It ends no later than its caller. -/
def Started.Within (s : Started ξ) (deadline : Option Nat) : Prop :=
  ∀ d, deadline = some d → ∃ d', s.deadline = some d' ∧ d' ≤ d

/-- What an execution at the top level is started with. -/
structure StartsTopLevel (kernel : KernelView ξ) (now : Nat) (s : Started ξ) : Prop where
  armed : s.Armed
  declared : s.KeepsDeclared now
  ceiling : ∀ m, kernel.limits.maxTimeout = some m → ∃ d, s.deadline = some d ∧ d ≤ now + m
  ahead : ∀ d, s.deadline = some d → now ≤ d

/-- What a callee is started with, under the token and the deadline of its caller. -/
structure StartsCallee (cancel : CancelToken) (deadline : Option Nat) (now : Nat)
    (s : Started ξ) : Prop where
  token : s.context.cancel = .child cancel
  declared : s.KeepsDeclared now
  within : s.Within deadline
  past : ∀ d, s.deadline = some d → d < now → deadline = some d

theorem startsTopLevel_of_cap (hcap : s.wallclock = kernel.limits.cap now s.registration.action)
    (harmed : s.Armed) : StartsTopLevel kernel now s := by
  have hdeadline {t : Nat}
      (ht : kernel.limits.effectiveTimeout s.registration.action = some t) :
      s.deadline = some (now + t) := by
    rw [← harmed, hcap]
    simp [WallclockLimits.cap, ht, WallclockCap.after]
  refine ⟨harmed, fun ms hms => ?_, fun m hm => ?_, fun d hd => ?_⟩
  · obtain ⟨t, ht, hle⟩ := effectiveTimeout_declared kernel.limits s.registration.action hms
    exact ⟨now + t, hdeadline ht, Nat.add_le_add_left hle now⟩
  · obtain ⟨t, ht, hle⟩ := effectiveTimeout_ceiling kernel.limits s.registration.action hm
    exact ⟨now + t, hdeadline ht, Nat.add_le_add_left hle now⟩
  · rw [← harmed, hcap, WallclockLimits.cap, Option.map_map] at hd
    obtain ⟨t, -, rfl⟩ := Option.map_eq_some_iff.mp hd
    exact Nat.le_add_right now t

theorem startTopLevel_starts {plugin action : String} {input config : Value} {execCtx : ξ}
    {drain : Bool} {cancel : CancelToken}
    (h : kernel.startTopLevel now plugin action input config execCtx drain cancel = .ok s) :
    StartsTopLevel kernel now s := by
  simp only [KernelView.startTopLevel] at h
  split at h
  · cases h
  · split at h
    · cases h
    · cases h
      exact startsTopLevel_of_cap rfl rfl

theorem executeActionEventDispatched_starts {plugin action : String} {trigger config : Value}
    {execCtx : ξ} {parentDepth : Nat}
    (h : kernel.executeActionEventDispatched now plugin action trigger config execCtx parentDepth =
      .ok s) : StartsTopLevel kernel now s := by
  simp only [KernelView.executeActionEventDispatched] at h
  split at h
  · cases h
  · split at h
    · cases h
    · cases h
      exact startsTopLevel_of_cap rfl rfl

/-- The root of an invocation tree. -/
inductive TopLevel (kernel : KernelView ξ) (now : Nat) (s : Started ξ) : Prop
  | run {plugin action : String} {input config : Value} {execCtx : ξ} {withStreams : Bool}
      {cancel : Option CancelToken}
      (h : kernel.run now plugin action input config execCtx withStreams cancel = .ok s)
  | dataflow {plugin action : String} {input config : Value} {execCtx : ξ}
      {cancel : Option CancelToken}
      (h : kernel.driveDataflow now plugin action input config execCtx cancel = .ok s)
  | event {plugin action : String} {trigger config : Value} {execCtx : ξ} {parentDepth : Nat}
      (h : kernel.executeActionEventDispatched now plugin action trigger config execCtx
        parentDepth = .ok s)

theorem TopLevel.starts (h : TopLevel kernel now s) : StartsTopLevel kernel now s := by
  cases h with
  | run h => exact startTopLevel_starts h
  | dataflow h => exact startTopLevel_starts h
  | event h => exact executeActionEventDispatched_starts h

/-- The context of a callee, whichever way it is run. -/
theorem calleeInvocation_starts {call : InvokedCall ξ} {registration : ActionRegistration}
    {secrets : Value} {armed : Option WallclockCap} {parentDepth : Nat} (cancel : CancelToken)
    (deadline : Option Nat) :
    StartsCallee cancel deadline now (⟨call.plugin, registration, call.input, call.config, secrets,
      call.execCtx, armed, (calleeInvocation kernel.registry kernel.limits now call.plugin
        registration.action parentDepth (some cancel) deadline).2⟩ : Started ξ) := by
  refine ⟨rfl, fun ms hms => ?_, fun d hd => ?_, fun d hd hpast => ?_⟩
  · obtain ⟨cap, hcap, hle⟩ :=
      calleeWallclock_declared kernel.limits now registration.action hms deadline
    exact ⟨cap.deadline, by simp [Started.deadline, calleeInvocation, hcap], hle⟩
  · subst hd
    obtain ⟨cap, hcap, hle⟩ := calleeWallclock_shrinks kernel.limits now registration.action d
    exact ⟨cap.deadline, by simp [Started.deadline, calleeInvocation, hcap], hle⟩
  · obtain ⟨cap, hcap, rfl⟩ := Option.map_eq_some_iff.mp hd
    exact calleeWallclock_past kernel.limits now registration.action hcap hpast

/-- An inline callee arms its cap, or arms nothing and ends exactly when its caller does. -/
theorem executeActionInvoked_starts {call : InvokedCall ξ} {cancel : CancelToken}
    {deadline : Option Nat}
    (h : kernel.executeActionInvoked now call (some cancel) deadline = .ok s) :
    StartsCallee cancel deadline now s ∧
      (s.Armed ∨ s.wallclock = none ∧ s.deadline = deadline) := by
  simp only [KernelView.executeActionInvoked] at h
  split at h
  · cases h
  · rename_i registration _
    split at h
    · cases h
    · cases h
      refine ⟨calleeInvocation_starts cancel deadline, ?_⟩
      cases deadline with
      | none =>
        left
        cases hcap : kernel.limits.cap now registration.action <;>
          simp [Started.Armed, Started.deadline, calleeInvocation, calleeWallclock, hcap,
            CalleeWallclock.cap]
      | some d =>
        cases hms : registration.action.wallclockTimeoutMs with
        | none =>
          right
          simp [Started.deadline, calleeInvocation, calleeWallclock, hms, CalleeWallclock.cap,
            WallclockCap.endingAt]
        | some ms =>
          by_cases hle : now + ms ≤ d
          · left
            simp [Started.Armed, Started.deadline, calleeInvocation, calleeWallclock, hms, hle,
              CalleeWallclock.cap, WallclockCap.after]
          · right
            simp [Started.deadline, calleeInvocation, calleeWallclock, hms, hle,
              CalleeWallclock.cap, WallclockCap.after, WallclockCap.endingAt]

/-- A spawned callee arms its cap, whoever's it is. -/
theorem executeActionInvokedStreaming_starts {call : InvokedCall ξ} {cancel : CancelToken}
    {deadline : Option Nat} {producer : String}
    (h : kernel.executeActionInvokedStreaming now call (some cancel) deadline =
      .ok (s, producer)) : StartsCallee cancel deadline now s ∧ s.Armed := by
  simp only [KernelView.executeActionInvokedStreaming] at h
  split at h
  · cases h
  · split at h
    · cases h
    · split at h
      · cases h
      · cases h
        exact ⟨calleeInvocation_starts cancel deadline, rfl⟩

end Started

/-! ### Trees of invocations -/

structure Invocation (ξ : Type) where
  caller : Option Nat
  spawned : Bool
  start : Nat
  started : Started ξ

/-- The watchdog that invocation `j` armed covers another: itself, or an inline callee that adopted
its caller's deadline, and so on down. -/
inductive Covers {ξ : Type} (invocations : List (Invocation ξ)) (j : Nat) : Nat → Prop
  | own {inv : Invocation ξ} {cap : WallclockCap} (hinv : invocations[j]? = some inv)
      (hcap : inv.started.wallclock = some cap) : Covers invocations j j
  | adopted {i p : Nat} {inv : Invocation ξ} (hinv : invocations[i]? = some inv)
      (hbare : inv.started.wallclock = none) (hp : inv.caller = some p)
      (h : Covers invocations j p) : Covers invocations j i

/-- All invocations so far, numbered as they were started; `fired` are the tokens that have been
cancelled in their own right. -/
structure InvocationTree (ξ : Type) where
  now : Nat
  invocations : List (Invocation ξ)
  running : List Nat
  fired : List Nat

namespace InvocationTree

variable {ξ : Type}

def rooted (now : Nat) (s : Started ξ) : InvocationTree ξ := ⟨now, [⟨none, false, now, s⟩], [0], []⟩

def begin (t : InvocationTree ξ) (inv : Invocation ξ) : InvocationTree ξ :=
  { t with
    invocations := t.invocations ++ [inv]
    running := t.invocations.length :: t.running }

def fire (t : InvocationTree ξ) (i : Nat) : InvocationTree ξ := { t with fired := i :: t.fired }

/-- Cancelling the token of `j` cancels that of `i`: the token of each on the way is a child of its
caller's. -/
inductive TokenReaches (t : InvocationTree ξ) (j : Nat) : Nat → Prop
  | self : TokenReaches t j j
  | child {i p : Nat} {inv caller : Invocation ξ} (hinv : t.invocations[i]? = some inv)
      (hp : inv.caller = some p) (hcaller : t.invocations[p]? = some caller)
      (htoken : inv.started.context.cancel = .child caller.started.context.cancel)
      (h : TokenReaches t j p) : TokenReaches t j i

def Cancelled (t : InvocationTree ξ) (i : Nat) : Prop := ∃ j ∈ t.fired, t.TokenReaches j i

/-- The watchdog that a running invocation has armed. -/
def Watches (t : InvocationTree ξ) (j : Nat) (cap : WallclockCap) : Prop :=
  j ∈ t.running ∧ ∃ w, t.invocations[j]? = some w ∧ w.started.wallclock = some cap

end InvocationTree

inductive TreeEvent where
  | inline (caller : Nat)
  | spawned (caller : Nat)
  | ended (i : Nat)
  | cancelled (i : Nat)
  | expired (i : Nat)
  | tick

/-- An invocation ends when its future resolves or is dropped, and its watchdog is aborted.  A callee
stays if it was spawned, or if a step body let go of its future; such a future may even start its
callee later.  The clock does not pass an armed deadline before the watchdog has found its token
cancelled or has fired it. -/
inductive TreeStep {ξ : Type} (kernel : KernelView ξ) (t : InvocationTree ξ) :
    TreeEvent → InvocationTree ξ → Prop
  | inline {p : Nat} {caller : Invocation ξ} {call : InvokedCall ξ} {s : Started ξ}
      (hcaller : t.invocations[p]? = some caller)
      (hstart : kernel.executeActionInvoked t.now call (some caller.started.context.cancel)
        caller.started.deadline = .ok s) :
      TreeStep kernel t (.inline p) (t.begin ⟨some p, false, t.now, s⟩)
  | spawned {p : Nat} {caller : Invocation ξ} {call : InvokedCall ξ} {s : Started ξ}
      {producer : String} (hcaller : t.invocations[p]? = some caller)
      (hstart : kernel.executeActionInvokedStreaming t.now call
        (some caller.started.context.cancel) caller.started.deadline = .ok (s, producer)) :
      TreeStep kernel t (.spawned p) (t.begin ⟨some p, true, t.now, s⟩)
  | ended {i : Nat} (hrunning : i ∈ t.running) :
      TreeStep kernel t (.ended i) { t with running := t.running.filter (· != i) }
  | cancelled (i : Nat) : TreeStep kernel t (.cancelled i) (t.fire i)
  | expired {i : Nat} {cap : WallclockCap} (harmed : t.Watches i cap) (hdue : cap.deadline ≤ t.now) :
      TreeStep kernel t (.expired i) (t.fire i)
  | tick {now : Nat} (hnow : t.now ≤ now)
      (hdue : ∀ i cap, t.Watches i cap → cap.deadline < now → t.Cancelled i) :
      TreeStep kernel t .tick { t with now := now }

/-- No invocation ends while its watchdog covers another one that runs, and none is started by a
caller whose watchdog is gone. -/
def Sheltered {ξ : Type} (t : InvocationTree ξ) : TreeEvent → Prop
  | .inline p | .spawned p => ∀ j, Covers t.invocations j p → j ∈ t.running
  | .ended j => ∀ i ∈ t.running, Covers t.invocations j i → i = j
  | _ => True

def ShelteredStep {ξ : Type} (kernel : KernelView ξ) (t : InvocationTree ξ) (e : TreeEvent)
    (t' : InvocationTree ξ) : Prop :=
  TreeStep kernel t e t' ∧ Sheltered t e

/-- The deadlines of a tree shrink, and keep what is declared and the operator's ceiling. -/
structure DeadlinesShrink {ξ : Type} (limits : WallclockLimits) (start : Nat)
    (t : InvocationTree ξ) : Prop where
  within : ∀ (i p : Nat) (inv caller : Invocation ξ), t.invocations[i]? = some inv →
    inv.caller = some p → t.invocations[p]? = some caller →
      inv.started.Within caller.started.deadline
  declared : ∀ (i : Nat) (inv : Invocation ξ), t.invocations[i]? = some inv →
    inv.started.KeepsDeclared inv.start
  ceiling : ∀ m, limits.maxTimeout = some m → ∀ (i : Nat) (inv : Invocation ξ),
    t.invocations[i]? = some inv → ∃ d, inv.started.deadline = some d ∧ d ≤ start + m

/-- Every invocation that runs under a deadline runs under a token that an armed watchdog fires by
then. -/
structure Enforced {ξ : Type} (t : InvocationTree ξ) : Prop where
  watched : ∀ i ∈ t.running, ∀ inv, t.invocations[i]? = some inv →
    ∀ d, inv.started.deadline = some d →
      ∃ j cap, t.Watches j cap ∧ cap.deadline ≤ d ∧ t.TokenReaches j i
  stopped : ∀ i ∈ t.running, ∀ inv, t.invocations[i]? = some inv →
    ∀ d, inv.started.deadline = some d → d < t.now → t.Cancelled i

/-! ### Tokens of a growing tree -/

namespace InvocationTree

variable {ξ : Type} {t t' : InvocationTree ξ} {i j : Nat} {inv inv' : Invocation ξ}

theorem begin_of_get (h : t.invocations[i]? = some inv') :
    (t.begin inv).invocations[i]? = some inv' := by
  obtain ⟨hlt, -⟩ := List.getElem?_eq_some_iff.mp h
  simp only [begin]
  rw [List.getElem?_append_left hlt, h]

theorem get_of_begin (h : (t.begin inv).invocations[i]? = some inv') :
    t.invocations[i]? = some inv' ∨ i = t.invocations.length ∧ inv' = inv := by
  simp only [begin, List.getElem?_append] at h
  split at h
  · exact .inl h
  · rename_i hge
    obtain ⟨hlt, rfl⟩ := List.getElem?_eq_some_iff.mp h
    rw [List.length_singleton] at hlt
    exact .inr ⟨by omega, by simp⟩

theorem begin_last : (t.begin inv).invocations[t.invocations.length]? = some inv := by
  simp [begin]

/-- Everything in `t` is in `t'`. -/
structure Extends (t' t : InvocationTree ξ) : Prop where
  get : ∀ (k : Nat) (x : Invocation ξ), t.invocations[k]? = some x → t'.invocations[k]? = some x
  fired : ∀ k ∈ t.fired, k ∈ t'.fired

theorem extends_begin (t : InvocationTree ξ) (inv : Invocation ξ) : (t.begin inv).Extends t :=
  ⟨fun _ _ h => begin_of_get h, fun _ h => h⟩

theorem extends_fire (t : InvocationTree ξ) (i : Nat) : (t.fire i).Extends t :=
  ⟨fun _ _ h => h, fun _ h => List.mem_cons_of_mem i h⟩

theorem extends_of_same (hinvocations : t'.invocations = t.invocations)
    (hfired : t'.fired = t.fired) : t'.Extends t :=
  ⟨fun _ _ h => by rwa [hinvocations], fun _ h => by rwa [hfired]⟩

theorem TokenReaches.mono (hext : t'.Extends t) (h : t.TokenReaches j i) : t'.TokenReaches j i := by
  induction h with
  | self => exact .self
  | child hinv hp hcaller htoken _ ih =>
    exact .child (hext.get _ _ hinv) hp (hext.get _ _ hcaller) htoken ih

theorem Cancelled.mono (hext : t'.Extends t) (h : t.Cancelled i) : t'.Cancelled i := by
  obtain ⟨j, hj, hreach⟩ := h
  exact ⟨j, hext.fired j hj, hreach.mono hext⟩

/-- The token of a callee goes with its caller's. -/
theorem Cancelled.callee {p : Nat} {caller : Invocation ξ} (hinv : t.invocations[i]? = some inv)
    (hp : inv.caller = some p) (hcaller : t.invocations[p]? = some caller)
    (htoken : inv.started.context.cancel = .child caller.started.context.cancel)
    (h : t.Cancelled p) : t.Cancelled i := by
  obtain ⟨j, hj, hreach⟩ := h
  exact ⟨j, hj, .child hinv hp hcaller htoken hreach⟩

end InvocationTree

/-! ### The invariant -/

section Kept

open InvocationTree

variable {ξ : Type} {kernel : KernelView ξ} {start : Nat} {t t' : InvocationTree ξ}

/-- How an invocation got its budget, and what enforces it. -/
inductive Placed (kernel : KernelView ξ) (start : Nat) (t : InvocationTree ξ) (i : Nat)
    (inv : Invocation ξ) : Prop
  | root (hcaller : inv.caller = none) (hstart : inv.start = start)
      (h : StartsTopLevel kernel start inv.started)
  | callee {p : Nat} {caller : Invocation ξ} (hp : inv.caller = some p) (hlt : p < i)
      (hcaller : t.invocations[p]? = some caller)
      (h : StartsCallee caller.started.context.cancel caller.started.deadline inv.start inv.started)
      (hcover : inv.started.Armed ∨ inv.started.wallclock = none ∧ inv.spawned = false ∧
        inv.started.deadline = caller.started.deadline)

def Kept (kernel : KernelView ξ) (start : Nat) (t : InvocationTree ξ) : Prop :=
  ∀ i inv, t.invocations[i]? = some inv → Placed kernel start t i inv

/-- Whatever runs has its watchdog armed, and none is overdue. -/
structure Guarded (t : InvocationTree ξ) : Prop where
  hosted : ∀ i ∈ t.running, ∀ j, Covers t.invocations j i → j ∈ t.running
  timely : ∀ j cap, t.Watches j cap → cap.deadline < t.now → t.Cancelled j

theorem Placed.mono {i : Nat} {inv : Invocation ξ} (hext : t'.Extends t)
    (h : Placed kernel start t i inv) : Placed kernel start t' i inv := by
  cases h with
  | root hcaller hstart h => exact .root hcaller hstart h
  | callee hp hlt hcaller h hcover => exact .callee hp hlt (hext.get _ _ hcaller) h hcover

theorem Started.Armed.cap {s : Started ξ} (h : s.Armed) {d : Nat} (hd : s.deadline = some d) :
    ∃ cap, s.wallclock = some cap ∧ cap.deadline = d :=
  Option.map_eq_some_iff.mp (h.trans hd)

/-- Up its callers, every invocation with a deadline finds the one that armed it. -/
theorem Kept.covered (h : Kept kernel start t) {i : Nat} {inv : Invocation ξ}
    (hinv : t.invocations[i]? = some inv) {d : Nat} (hd : inv.started.deadline = some d) :
    ∃ j w cap, t.invocations[j]? = some w ∧ w.started.wallclock = some cap ∧ cap.deadline ≤ d ∧
      Covers t.invocations j i ∧ t.TokenReaches j i := by
  induction i using Nat.strong_induction_on generalizing inv with
  | _ i ih =>
    have hown (harmed : inv.started.Armed) :
        ∃ j w cap, t.invocations[j]? = some w ∧ w.started.wallclock = some cap ∧
          cap.deadline ≤ d ∧ Covers t.invocations j i ∧ t.TokenReaches j i := by
      obtain ⟨cap, hcap, hend⟩ := harmed.cap hd
      exact ⟨i, inv, cap, hinv, hcap, hend.le, .own hinv hcap, .self⟩
    cases h i inv hinv with
    | root _ _ hstarts => exact hown hstarts.armed
    | @callee p caller hp hlt hcaller hstarts hcover =>
      rcases hcover with harmed | ⟨hbare, -, hsame⟩
      · exact hown harmed
      · obtain ⟨j, w, cap, hw, hcap, hend, hcovers, hreach⟩ := ih p hlt hcaller (hsame.symm.trans hd)
        exact ⟨j, w, cap, hw, hcap, hend, .adopted hinv hbare hp hcovers,
          .child hinv hp hcaller hstarts.token hreach⟩

theorem InvocationTree.Cancelled.below {i j : Nat} (h : t.Cancelled j)
    (hreach : t.TokenReaches j i) : t.Cancelled i := by
  obtain ⟨k, hk, hkj⟩ := h
  refine ⟨k, hk, ?_⟩
  induction hreach with
  | self => exact hkj
  | child hinv hp hcaller htoken _ ih => exact .child hinv hp hcaller htoken ih

/-- Where the one that armed it still runs, a deadline is enforced. -/
theorem Kept.watched (h : Kept kernel start t) {i : Nat}
    (hhosted : ∀ j, Covers t.invocations j i → j ∈ t.running) {inv : Invocation ξ}
    (hinv : t.invocations[i]? = some inv) {d : Nat} (hd : inv.started.deadline = some d) :
    ∃ j cap, t.Watches j cap ∧ cap.deadline ≤ d ∧ t.TokenReaches j i := by
  obtain ⟨j, w, cap, hw, hcap, hend, hcovers, hreach⟩ := h.covered hinv hd
  exact ⟨j, cap, ⟨hhosted j hcovers, w, hw, hcap⟩, hend, hreach⟩

theorem Kept.stopped (h : Kept kernel start t) (hguarded : Guarded t) {i : Nat}
    (hhosted : ∀ j, Covers t.invocations j i → j ∈ t.running) {inv : Invocation ξ}
    (hinv : t.invocations[i]? = some inv) {d : Nat} (hd : inv.started.deadline = some d)
    (hpast : d < t.now) : t.Cancelled i := by
  obtain ⟨j, cap, hwatch, hend, hreach⟩ := h.watched hhosted hinv hd
  exact (hguarded.timely j cap hwatch (Nat.lt_of_le_of_lt hend hpast)).below hreach

/-! ### Steps and runs -/

theorem kept_rooted {s : Started ξ} (h : StartsTopLevel kernel start s) :
    Kept kernel start (rooted start s) := by
  intro i inv hinv
  cases i with
  | zero =>
    cases hinv
    exact .root rfl rfl h
  | succ i => simp [rooted] at hinv

theorem guarded_rooted {s : Started ξ} (h : StartsTopLevel kernel start s) :
    Guarded (rooted start s) where
  hosted i hi j hcovers := by
    cases List.mem_singleton.mp hi
    cases hcovers with
    | own => exact hi
    | adopted hinv _ hp _ =>
      cases hinv
      cases hp
  timely j cap hwatch hlate := by
    obtain ⟨-, w, hw, hcap⟩ := hwatch
    cases j with
    | zero =>
      cases hw
      have hdeadline : s.deadline = some cap.deadline := by rw [← h.armed, hcap]; rfl
      exact absurd hlate (Nat.not_lt.mpr (h.ahead _ hdeadline))
    | succ j => simp [rooted] at hw

theorem lt_length_of_get {i : Nat} {inv : Invocation ξ} (h : t.invocations[i]? = some inv) :
    i < t.invocations.length := (List.getElem?_eq_some_iff.mp h).1

/-- A callee is placed under its caller. -/
theorem Kept.begin (h : Kept kernel start t) {p : Nat} {caller inv : Invocation ξ}
    (hcaller : t.invocations[p]? = some caller) (hp : inv.caller = some p)
    (hstarts : StartsCallee caller.started.context.cancel caller.started.deadline inv.start
      inv.started)
    (hcover : inv.started.Armed ∨ inv.started.wallclock = none ∧ inv.spawned = false ∧
      inv.started.deadline = caller.started.deadline) : Kept kernel start (t.begin inv) := by
  intro i x hx
  rcases get_of_begin hx with hold | ⟨rfl, rfl⟩
  · exact (h i x hold).mono (extends_begin t inv)
  · exact .callee hp (lt_length_of_get hcaller) (begin_of_get hcaller) hstarts hcover

/-- What covered the earlier invocations still does, and nothing else. -/
theorem Kept.covers_of_begin (h : Kept kernel start t) {inv : Invocation ξ} {i j : Nat}
    (hlt : i < t.invocations.length) (hcovers : Covers (t.begin inv).invocations j i) :
    Covers t.invocations j i := by
  induction hcovers with
  | own hinv hcap =>
    rcases get_of_begin hinv with hold | ⟨rfl, -⟩
    · exact .own hold hcap
    · exact absurd hlt (Nat.lt_irrefl _)
  | @adopted i p x hinv hbare hp _ ih =>
    rcases get_of_begin hinv with hold | ⟨rfl, -⟩
    · cases h i x hold with
      | root hnone => cases hnone.symm.trans hp
      | callee hp' hlt' =>
        cases hp'.symm.trans hp
        exact .adopted hold hbare hp (ih (hlt'.trans hlt))
    · exact absurd hlt (Nat.lt_irrefl _)

/-- A callee under a caller whose watchdog is armed is guarded. -/
theorem Guarded.begin (h : Guarded t) (hkept : Kept kernel start t) {p : Nat}
    {caller inv : Invocation ξ} (hhosted : ∀ j, Covers t.invocations j p → j ∈ t.running)
    (hcaller : t.invocations[p]? = some caller) (hp : inv.caller = some p)
    (hstart : inv.start = t.now)
    (hstarts : StartsCallee caller.started.context.cancel caller.started.deadline inv.start
      inv.started)
    (hcover : inv.started.Armed ∨ inv.started.wallclock = none ∧ inv.spawned = false ∧
      inv.started.deadline = caller.started.deadline) : Guarded (t.begin inv) := by
  have hext := extends_begin t inv
  have hlast : (t.begin inv).invocations[t.invocations.length]? = some inv := begin_last
  refine ⟨fun i hi j hcovers => ?_, fun j cap hwatch hlate => ?_⟩
  · by_cases hlt : i < t.invocations.length
    · rcases List.mem_cons.mp hi with rfl | hi
      · exact absurd hlt (Nat.lt_irrefl _)
      · exact List.mem_cons_of_mem _ (h.hosted i hi j (hkept.covers_of_begin hlt hcovers))
    · cases hcovers with
      | own => exact hi
      | @adopted _ q x hinv _ hq hcovers =>
        rcases get_of_begin hinv with hold | ⟨rfl, rfl⟩
        · exact absurd (lt_length_of_get hold) hlt
        · cases hp.symm.trans hq
          exact List.mem_cons_of_mem _
            (hhosted j (hkept.covers_of_begin (lt_length_of_get hcaller) hcovers))
  · obtain ⟨hj, w, hw, hcap⟩ := hwatch
    rcases get_of_begin hw with hold | ⟨rfl, rfl⟩
    · rcases List.mem_cons.mp hj with rfl | hj
      · exact absurd (lt_length_of_get hold) (Nat.lt_irrefl _)
      · exact (h.timely j cap ⟨hj, w, hold, hcap⟩ hlate).mono hext
    · -- the budget had run out before, so the caller's token is cancelled already
      rcases hcover with harmed | ⟨hnone, -⟩
      · have hdeadline : w.started.deadline = some cap.deadline := by rw [← harmed, hcap]; rfl
        have hspent := hstarts.past _ hdeadline (hstart ▸ hlate)
        have hstopped := (hkept.stopped h hhosted hcaller hspent hlate).mono hext
        exact hstopped.callee begin_last hp (hext.get _ _ hcaller) hstarts.token
      · rw [hnone] at hcap
        cases hcap

theorem TreeStep.kept {e : TreeEvent} (hstep : TreeStep kernel t e t')
    (h : Kept kernel start t) : Kept kernel start t' := by
  cases hstep with
  | inline hcaller hstart =>
    obtain ⟨hstarts, hcover⟩ := executeActionInvoked_starts hstart
    refine h.begin hcaller rfl hstarts (hcover.imp_right ?_)
    rintro ⟨hnone, hsame⟩
    exact ⟨hnone, rfl, hsame⟩
  | spawned hcaller hstart =>
    obtain ⟨hstarts, harmed⟩ := executeActionInvokedStreaming_starts hstart
    exact h.begin hcaller rfl hstarts (.inl harmed)
  | cancelled i => exact fun k inv hinv => (h k inv hinv).mono (extends_fire t i)
  | expired => exact fun k inv hinv => (h k inv hinv).mono (extends_fire t _)
  | ended | tick => exact fun k inv hinv => (h k inv hinv).mono (extends_of_same (t := t) rfl rfl)

theorem ShelteredStep.guarded {e : TreeEvent} (hstep : ShelteredStep kernel t e t')
    (hkept : Kept kernel start t) (h : Guarded t) : Guarded t' := by
  obtain ⟨hstep, hsheltered⟩ := hstep
  cases hstep with
  | inline hcaller hstart =>
    obtain ⟨hstarts, hcover⟩ := executeActionInvoked_starts hstart
    refine h.begin hkept hsheltered hcaller rfl rfl hstarts (hcover.imp_right ?_)
    rintro ⟨hnone, hsame⟩
    exact ⟨hnone, rfl, hsame⟩
  | spawned hcaller hstart =>
    obtain ⟨hstarts, harmed⟩ := executeActionInvokedStreaming_starts hstart
    exact h.begin hkept hsheltered hcaller rfl rfl hstarts (.inl harmed)
  | @ended i hrunning =>
    refine ⟨fun k hk j hcovers => ?_, fun j cap hwatch hlate => ?_⟩
    · obtain ⟨hruns, hne⟩ := List.mem_filter.mp hk
      refine List.mem_filter.mpr ⟨h.hosted k hruns j hcovers, bne_iff_ne.mpr ?_⟩
      rintro rfl
      exact bne_iff_ne.mp hne (hsheltered k hruns hcovers)
    · obtain ⟨hj, w, hw, hcap⟩ := hwatch
      exact (h.timely j cap ⟨List.mem_of_mem_filter hj, w, hw, hcap⟩ hlate).mono
        (extends_of_same (t := t) rfl rfl)
  | cancelled i =>
    exact ⟨h.hosted, fun j cap hwatch hlate => (h.timely j cap hwatch hlate).mono (extends_fire t i)⟩
  | expired =>
    exact ⟨h.hosted, fun j cap hwatch hlate => (h.timely j cap hwatch hlate).mono (extends_fire t _)⟩
  | tick hnow hdue =>
    exact ⟨h.hosted, fun j cap hwatch hlate =>
      (hdue j cap hwatch hlate).mono (extends_of_same (t := t) rfl rfl)⟩

theorem Kept.ceiling (h : Kept kernel start t) {m : Nat} (hm : kernel.limits.maxTimeout = some m)
    {i : Nat} {inv : Invocation ξ} (hinv : t.invocations[i]? = some inv) :
    ∃ d, inv.started.deadline = some d ∧ d ≤ start + m := by
  induction i using Nat.strong_induction_on generalizing inv with
  | _ i ih =>
    cases h i inv hinv with
    | root _ _ hstarts => exact hstarts.ceiling m hm
    | @callee p caller _ hlt hcaller hstarts _ =>
      obtain ⟨d, hd, hle⟩ := ih p hlt hcaller
      obtain ⟨d', hd', hle'⟩ := hstarts.within d hd
      exact ⟨d', hd', hle'.trans hle⟩

theorem Kept.shrink (h : Kept kernel start t) : DeadlinesShrink kernel.limits start t where
  within i p inv caller hinv hp hcaller := by
    cases h i inv hinv with
    | root hnone _ _ => cases hnone.symm.trans hp
    | callee hp' _ hcaller' hstarts _ =>
      cases hp'.symm.trans hp
      cases hcaller'.symm.trans hcaller
      exact hstarts.within
  declared i inv hinv := by
    cases h i inv hinv with
    | root _ hstart hstarts => exact hstart ▸ hstarts.declared
    | callee _ _ _ hstarts _ => exact hstarts.declared
  ceiling _ hm _ _ hinv := h.ceiling hm hinv

/-- The deadlines of every tree of invocations shrink, and each is enforced as long as no invocation
outlives the one whose watchdog covers it. -/
theorem deadlines_hold {s : Started ξ} (hroot : TopLevel kernel start s) :
    (∀ es t, Transition.Run (TreeStep kernel) (rooted start s) es t →
      DeadlinesShrink kernel.limits start t) ∧
    ∀ es t, Transition.Run (ShelteredStep kernel) (rooted start s) es t → Enforced t := by
  refine ⟨fun es t hrun => ?_, fun es t hrun => ?_⟩
  · have hkept : Kept kernel start t :=
      hrun.invariant (kept_rooted hroot.starts) fun _ _ _ _ hkept hstep => hstep.kept hkept
    exact hkept.shrink
  · have hboth : Kept kernel start t ∧ Guarded t := hrun.invariant
      (P := fun _ t => Kept kernel start t ∧ Guarded t)
      ⟨kept_rooted hroot.starts, guarded_rooted hroot.starts⟩
      fun _ _ _ _ h hstep => ⟨hstep.1.kept h.1, hstep.guarded h.1 h.2⟩
    obtain ⟨hkept, hguarded⟩ := hboth
    exact ⟨fun i hi _ hinv _ hd => hkept.watched (hguarded.hosted i hi) hinv hd,
      fun i hi _ hinv _ hd hpast => hkept.stopped hguarded (hguarded.hosted i hi) hinv hd hpast⟩

end Kept

/-! ### A feed that survives its caller -/

def feedManifest : PluginManifest :=
  { plainManifest "notes" with
    actions := (IndexMap.empty.insert "main" (plainAction [])).insert "feed"
      { plainAction [{ StepDef.new "lines" "feed.lines" .emptyObject with longRunning := true }] with
        dataflow := true } }

def feedSetup : Setup :=
  textSetup [("kernel", plainManifest "kernel"), ("notes", feedManifest)] []

def feedView (r : PluginRegistry) : KernelView Unit :=
  ⟨r, defaultOrchestrator, fun _ => "", ⟨60000, none⟩, fun _ _ => .ok .null⟩

/-- A caller and its callee, started at once. -/
def pairTree (s s' : Started Unit) (spawned : Bool) (now : Nat) (running fired : List Nat) :
    InvocationTree Unit :=
  ⟨now, [⟨none, false, 0, s⟩, ⟨some 0, spawned, 0, s'⟩], running, fired⟩

/-- The caller ends at once, and the feed it spawned is stopped at the deadline of both. -/
theorem deadlines_hold_feed : ∃ (k : Kernel) (s s' : Started Unit),
    k.Reachable feedSetup ∧ TopLevel (feedView k.registry) 0 s ∧
      DeadlinesShrink ⟨60000, none⟩ 0 (pairTree s s' true 60001 [1] [1]) ∧
      Enforced (pairTree s s' true 60001 [1] [1]) := by
  have hstarts : ∃ (k₀ k : Kernel) (s s' : Started Unit) (producer : String),
      Kernel.boot feedSetup "kernel" = .ok k₀ ∧ k = k₀.afterAll feedSetup [.load "" "notes"] ∧
      (feedView k.registry).run 0 "notes" "main" .null .null () false none = .ok s ∧
      (feedView k.registry).executeActionInvokedStreaming 0
        ⟨"notes", "feed", .null, .null, (), 0⟩ (some s.context.cancel) s.deadline =
          .ok (s', producer) ∧
      s.wallclock = some ⟨60000, 60000⟩ ∧ s'.wallclock = some ⟨60000, 60000⟩ :=
    ⟨_, _, _, _, _, rfl, rfl, rfl, rfl, rfl, rfl⟩
  obtain ⟨k₀, k, s, s', producer, hboot, hk, hrun, hfeed, hcap, hcap'⟩ := hstarts
  have hroot : TopLevel (feedView k.registry) 0 s := .run hrun
  have hspawn : ShelteredStep (feedView k.registry) (.rooted 0 s) (.spawned 0)
      (pairTree s s' true 0 [1, 0] []) := by
    refine ⟨.spawned rfl hfeed, fun j hcovers => ?_⟩
    cases hcovers with
    | own => exact List.mem_singleton.mpr rfl
    | adopted hinv hbare => exact absurd (hbare.symm.trans (by cases hinv; exact hcap)) (by simp)
  have hended : ShelteredStep (feedView k.registry) (pairTree s s' true 0 [1, 0] []) (.ended 0)
      (pairTree s s' true 0 [1] []) := by
    refine ⟨.ended (List.mem_cons_of_mem 1 List.mem_cons_self), fun i hi hcovers => ?_⟩
    rcases List.mem_cons.mp hi with rfl | hi
    · -- the feed has a watchdog of its own
      cases hcovers with
      | adopted hinv hbare => exact absurd (hbare.symm.trans (by cases hinv; exact hcap')) (by simp)
    · exact List.mem_singleton.mp hi
  have hwatch {now : Nat} {fired : List Nat} :
      (pairTree s s' true now [1] fired).Watches 1 ⟨60000, 60000⟩ :=
    ⟨List.mem_singleton.mpr rfl, _, rfl, hcap'⟩
  have hwait : ShelteredStep (feedView k.registry) (pairTree s s' true 0 [1] []) .tick
      (pairTree s s' true 60000 [1] []) := by
    refine ⟨.tick (Nat.zero_le _) fun i cap harmed hearly => ?_, trivial⟩
    obtain ⟨hi, w, hw, hsame⟩ := harmed
    cases List.mem_singleton.mp hi
    cases hw
    cases hcap'.symm.trans hsame
    exact absurd hearly (Nat.lt_irrefl _)
  have hexpired : ShelteredStep (feedView k.registry) (pairTree s s' true 60000 [1] []) (.expired 1)
      (pairTree s s' true 60000 [1] [1]) := ⟨.expired hwatch (Nat.le_refl _), trivial⟩
  have hpast : ShelteredStep (feedView k.registry) (pairTree s s' true 60000 [1] [1]) .tick
      (pairTree s s' true 60001 [1] [1]) := by
    refine ⟨.tick (Nat.le_succ _) fun i cap harmed _ => ⟨1, List.mem_singleton.mpr rfl, ?_⟩, trivial⟩
    cases List.mem_singleton.mp harmed.1
    exact .self
  have hsheltered := (((Transition.Run.single hspawn).trans (.single hended)).trans
    (.single hwait)).trans ((Transition.Run.single hexpired).trans (.single hpast))
  obtain ⟨hshrink, henforced⟩ := deadlines_hold hroot
  exact ⟨k, s, s', hk ▸ Kernel.reachable_afterAll hboot _, hroot,
    hshrink _ _ (hsheltered.mono fun _ _ _ hstep => hstep.1), henforced _ _ hsheltered⟩

/-- The caller lets go of an inline callee and ends: nothing stops the callee at its deadline. -/
theorem detached_callee_unwatched : ∃ (k : Kernel) (s s' : Started Unit) (es : List TreeEvent)
    (t : InvocationTree Unit), k.Reachable feedSetup ∧ TopLevel (feedView k.registry) 0 s ∧
      Transition.Run (TreeStep (feedView k.registry)) (.rooted 0 s) es t ∧
      1 ∈ t.running ∧ t.invocations[1]? = some ⟨some 0, false, 0, s'⟩ ∧
      s'.deadline = some 60000 ∧ 60000 < t.now ∧ (∀ j cap, ¬t.Watches j cap) ∧ ¬t.Cancelled 1 := by
  have hstarts : ∃ (k₀ k : Kernel) (s s' : Started Unit),
      Kernel.boot feedSetup "kernel" = .ok k₀ ∧ k = k₀.afterAll feedSetup [.load "" "notes"] ∧
      (feedView k.registry).run 0 "notes" "main" .null .null () false none = .ok s ∧
      (feedView k.registry).executeActionInvoked 0 ⟨"notes", "feed", .null, .null, (), 0⟩
        (some s.context.cancel) s.deadline = .ok s' ∧
      s'.wallclock = none ∧ s'.deadline = some 60000 :=
    ⟨_, _, _, _, rfl, rfl, rfl, rfl, rfl, rfl⟩
  obtain ⟨k₀, k, s, s', hboot, hk, hrun, hfeed, hbare, hdeadline⟩ := hstarts
  have hinline : TreeStep (feedView k.registry) (.rooted 0 s) (.inline 0)
      (pairTree s s' false 0 [1, 0] []) := .inline rfl hfeed
  have hended : TreeStep (feedView k.registry) (pairTree s s' false 0 [1, 0] []) (.ended 0)
      (pairTree s s' false 0 [1] []) := .ended (List.mem_cons_of_mem 1 List.mem_cons_self)
  have hunwatched : ∀ now j cap, ¬(pairTree s s' false now [1] []).Watches j cap := by
    rintro now j cap ⟨hj, w, hw, hcap⟩
    cases List.mem_singleton.mp hj
    cases hw
    cases hbare.symm.trans hcap
  have hpast : TreeStep (feedView k.registry) (pairTree s s' false 0 [1] []) .tick
      (pairTree s s' false 60001 [1] []) :=
    .tick (Nat.zero_le _) fun i cap harmed => absurd harmed (hunwatched 0 i cap)
  refine ⟨k, s, s', _, _, hk ▸ Kernel.reachable_afterAll hboot _, .run hrun,
    ((Transition.Run.single hinline).trans (.single hended)).trans (.single hpast),
    List.mem_singleton.mpr rfl, rfl, hdeadline, Nat.lt_succ_self _, hunwatched 60001, ?_⟩
  rintro ⟨j, hj, -⟩
  cases hj

end Gwead
