import Gwead.Lib.HandleTable
import Gwead.StreamingCallee

/-!
# A streaming invoke that is refused

The two ends of a callee's stream are put into two tables, and then the callee's secrets are
pulled.  A pull that fails leaves the caller's end where it is.
-/

namespace Gwead

def octetStream : String := "application/octet-stream"

def maxStreamHandle : Nat := 2 ^ 31 - 1

/-- What a handle names: a stream of the execution's own, or the caller's end of a callee's stream,
of which nobody holds the other end if the callee was never spawned. -/
inductive TableStream where
  | own (state : StreamState)
  | callee (contentType : String) (source : Option CalleeStream)

abbrev StreamRegistry := HandleTable TableStream

namespace StreamRegistry

def new : StreamRegistry := HandleTable.new 1

/-- The next handle is for `stream`; a counter that has reached its bound is a panic. -/
def register (r : StreamRegistry) (stream : TableStream) : Option (Nat × StreamRegistry) :=
  if r.next ≤ maxStreamHandle then some (r.next, r.mint stream) else none

end StreamRegistry

/-- A callee on its own task, with the table of its own that it produces into. -/
structure SpawnedCallee (ξ : Type) where
  started : Started ξ
  streams : StreamRegistry
  preAllocatedOutputs : List (String × Nat)

/-- What a streaming invoke leaves of the caller's table, the tasks it spawned and its result. -/
structure StreamingAttempt (ξ : Type) where
  streams : StreamRegistry
  spawned : List (SpawnedCallee ξ)
  result : Except KernelError Nat

/-- The arguments of a streaming invoke; the kernel and the instant may be others at the next. -/
structure StreamingRequest (ξ : Type) where
  kernel : KernelView ξ
  now : Nat
  call : InvokedCall ξ
  parentCancel : Option CancelToken
  parentDeadline : Option Nat

namespace StreamingRequest

variable {ξ : Type}

/-- A streaming invoke on the caller's table. -/
def attempt (request : StreamingRequest ξ) (parentStreams : StreamRegistry) :
    Option (StreamingAttempt ξ) :=
  let kernel := request.kernel
  let call := request.call
  match kernel.registry.getAction call.plugin call.action with
  | none => some ⟨parentStreams, [], .error (KernelView.noAction call.plugin call.action)⟩
  | some registration =>
    match KernelView.streamingProducer call registration with
    | .error e => some ⟨parentStreams, [], .error e⟩
    | .ok producer =>
      match StreamRegistry.new.register (.own (.register octetStream .writable)) with
      | none => none
      | some (writable, calleeStreams) =>
        match parentStreams.register
            (.callee octetStream (some (openCalleeStream call.plugin call.action))) with
        | none => none
        | some (readable, streams) =>
          match kernel.pullSecrets call.plugin call.execCtx with
          | .error e =>
            -- the callee's table and the kernel's own sender go, and the caller's end stays
            some ⟨streams.modify readable fun _ => .callee octetStream none, [], .error e⟩
          | .ok secrets =>
            let (wallclock, context) := calleeInvocation kernel.registry kernel.limits request.now
              call.plugin registration.action call.parentDepth request.parentCancel
              request.parentDeadline
            some ⟨streams, [⟨⟨call.plugin, registration, call.input, call.config, secrets,
              call.execCtx, wallclock.cap, context⟩, calleeStreams, [(producer, writable)]⟩],
              .ok readable⟩

/-- The action is there and has one long-running output, so the ends of its stream are made. -/
def Provisioned (request : StreamingRequest ξ) : Prop :=
  ∃ registration producer,
    request.kernel.registry.getAction request.call.plugin request.call.action =
      some registration ∧
    KernelView.streamingProducer request.call registration = .ok producer

/-- What one streaming invoke can do to the table. -/
inductive Attempts (request : StreamingRequest ξ) (t : StreamRegistry) :
    StreamingAttempt ξ → Prop
  | refused {e : KernelError} (hnot : ¬request.Provisioned) :
      Attempts request t ⟨t, [], .error e⟩
  | unanswered {e : KernelError} (hprovisioned : request.Provisioned) {stream left : TableStream} :
      Attempts request t ⟨(t.mint stream).modify t.next fun _ => left, [], .error e⟩
  | spawned {stream : TableStream} {callee : SpawnedCallee ξ} :
      Attempts request t ⟨t.mint stream, [callee], .ok t.next⟩

theorem register_some {t t' : StreamRegistry} {stream : TableStream} {handle : Nat}
    (h : t.register stream = some (handle, t')) : handle = t.next ∧ t' = t.mint stream := by
  rw [StreamRegistry.register] at h
  split at h
  · cases h
    exact ⟨rfl, rfl⟩
  · cases h

/-- The invoke either spawns a callee, or is refused before or after the ends are made. -/
theorem attempt_cases {request : StreamingRequest ξ} {t : StreamRegistry} {a : StreamingAttempt ξ}
    (h : request.attempt t = some a) : request.Attempts t a := by
  simp only [attempt] at h
  cases haction : request.kernel.registry.getAction request.call.plugin request.call.action with
  | none =>
    simp only [haction, Option.some.injEq] at h
    rw [← h]
    refine .refused ?_
    rintro ⟨registration, producer, hregistration, -⟩
    cases haction.symm.trans hregistration
  | some registration =>
    simp only [haction] at h
    cases hproducer : KernelView.streamingProducer request.call registration with
    | error e =>
      simp only [hproducer, Option.some.injEq] at h
      rw [← h]
      refine .refused ?_
      rintro ⟨registration', producer, hregistration, hproducer'⟩
      cases haction.symm.trans hregistration
      cases hproducer.symm.trans hproducer'
    | ok producer =>
      simp only [hproducer] at h
      cases hwritable : StreamRegistry.new.register (.own (.register octetStream .writable)) with
      | none =>
        simp only [hwritable] at h
        cases h
      | some own =>
        cases hreadable : t.register (.callee octetStream
            (some (openCalleeStream request.call.plugin request.call.action))) with
        | none =>
          simp only [hwritable, hreadable] at h
          cases h
        | some out =>
          obtain ⟨readable, t'⟩ := out
          obtain ⟨rfl, rfl⟩ := register_some hreadable
          cases hsecrets : request.kernel.pullSecrets request.call.plugin request.call.execCtx with
          | error e =>
            simp only [hwritable, hreadable, hsecrets, Option.some.injEq] at h
            rw [← h]
            exact .unanswered ⟨registration, producer, haction, hproducer⟩
          | ok secrets =>
            simp only [hwritable, hreadable, hsecrets, Option.some.injEq] at h
            rw [← h]
            exact .spawned

/-- The result is that of the preparation without tables, and what is spawned is what it starts. -/
theorem attempt_result {request : StreamingRequest ξ} {t : StreamRegistry} {a : StreamingAttempt ξ}
    (h : request.attempt t = some a) :
    match request.kernel.executeActionInvokedStreaming request.now request.call
      request.parentCancel request.parentDeadline with
    | .error e => a.result = .error e ∧ a.spawned = []
    | .ok (started, producer) => a.result = .ok t.next ∧
        ∃ callee, a.spawned = [callee] ∧ callee.started = started ∧
          callee.preAllocatedOutputs.map Prod.fst = [producer] := by
  simp only [attempt] at h
  rw [KernelView.executeActionInvokedStreaming]
  cases haction : request.kernel.registry.getAction request.call.plugin request.call.action with
  | none =>
    simp only [haction, Option.some.injEq] at h
    subst h
    exact ⟨rfl, rfl⟩
  | some registration =>
    simp only [haction] at h
    cases hproducer : KernelView.streamingProducer request.call registration with
    | error e =>
      simp only [hproducer, Option.some.injEq] at h
      subst h
      simp only [hproducer, and_self]
    | ok producer =>
      simp only [hproducer] at h
      cases hwritable : StreamRegistry.new.register (.own (.register octetStream .writable)) with
      | none =>
        simp only [hwritable] at h
        cases h
      | some own =>
        cases hreadable : t.register (.callee octetStream
            (some (openCalleeStream request.call.plugin request.call.action))) with
        | none =>
          simp only [hwritable, hreadable] at h
          cases h
        | some out =>
          obtain ⟨readable, t'⟩ := out
          obtain ⟨rfl, -⟩ := register_some hreadable
          cases hsecrets : request.kernel.pullSecrets request.call.plugin request.call.execCtx with
          | error e =>
            simp only [hwritable, hreadable, hsecrets, Option.some.injEq] at h
            subst h
            simp only [hproducer, and_self]
          | ok secrets =>
            simp only [hwritable, hreadable, hsecrets, Option.some.injEq] at h
            subst h
            simp only [hproducer, true_and]
            exact ⟨_, rfl, rfl, rfl⟩

end StreamingRequest

/-! ### A caller that is refused again and again -/

/-- The caller's table, and the callees that run for it. -/
structure StreamingCaller (ξ : Type) where
  streams : StreamRegistry
  tasks : List (SpawnedCallee ξ)

section Refusals

variable {ξ : Type} {c c' : StreamingCaller ξ} {requests : List (StreamingRequest ξ)}
  {request : StreamingRequest ξ}

/-- The caller invokes, and is answered with an error. -/
def RefusedStep (c : StreamingCaller ξ) (request : StreamingRequest ξ) (c' : StreamingCaller ξ) :
    Prop :=
  ∃ a e, request.attempt c.streams = some a ∧ a.result = .error e ∧
    c' = ⟨a.streams, c.tasks ++ a.spawned⟩

abbrev Refusals : StreamingCaller ξ → List (StreamingRequest ξ) → StreamingCaller ξ → Prop :=
  Transition.Run RefusedStep

/-- Every handle resolves as before, the table has not grown, and no callee has been left running. -/
structure LeftAlone (c c' : StreamingCaller ξ) : Prop where
  handles : ∀ handle, c'.streams.get handle = c.streams.get handle
  size : c'.streams.size = c.streams.size
  tasks : c'.tasks = c.tasks

/-- A refusal changes nothing, or it takes one entry of the table for good. -/
theorem refusedStep_cases (h : RefusedStep c request c') :
    c'.tasks = c.tasks ∧ (¬request.Provisioned ∧ c'.streams = c.streams ∨
      request.Provisioned ∧ c'.streams.size = c.streams.size + 1) := by
  obtain ⟨a, e, hattempt, hresult, rfl⟩ := h
  cases StreamingRequest.attempt_cases hattempt with
  | refused hnot => exact ⟨List.append_nil _, Or.inl ⟨hnot, rfl⟩⟩
  | unanswered hprovisioned =>
    exact ⟨List.append_nil _, Or.inr ⟨hprovisioned, by simp⟩⟩
  | spawned => cases hresult

/-- A run of refusals leaves no task, and the table is as it was or has grown. -/
theorem refusals_cases (hrun : Refusals c requests c') :
    c'.tasks = c.tasks ∧
      ((∀ r ∈ requests, ¬r.Provisioned) ∧ c'.streams = c.streams ∨
        (∃ r ∈ requests, r.Provisioned) ∧ c.streams.size < c'.streams.size) := by
  refine hrun.invariant (P := fun requests c' => c'.tasks = c.tasks ∧
    ((∀ r ∈ requests, ¬r.Provisioned) ∧ c'.streams = c.streams ∨
      (∃ r ∈ requests, r.Provisioned) ∧ c.streams.size < c'.streams.size)) ?_ ?_
  · exact ⟨rfl, Or.inl ⟨nofun, rfl⟩⟩
  · intro rs d r d' hd hstep
    obtain ⟨htasks, hcases⟩ := refusedStep_cases hstep
    refine ⟨htasks.trans hd.1, ?_⟩
    rcases hd.2 with ⟨hnone, hsame⟩ | ⟨⟨r', hr', hprovisioned⟩, hgrown⟩
    · rcases hcases with ⟨hnot, hkept⟩ | ⟨hprovisioned, hone⟩
      · refine Or.inl ⟨fun r' hr' => ?_, hkept.trans hsame⟩
        rcases List.mem_append.mp hr' with hr' | hr'
        · exact hnone r' hr'
        · rwa [List.mem_singleton.mp hr']
      · refine Or.inr ⟨⟨r, by simp, hprovisioned⟩, ?_⟩
        rw [hone, hsame]
        exact Nat.lt_succ_self _
    · refine Or.inr ⟨⟨r', List.mem_append_left _ hr', hprovisioned⟩, ?_⟩
      rcases hcases with ⟨-, hkept⟩ | ⟨-, hone⟩
      · rwa [hkept]
      · rw [hone]
        exact Nat.lt_succ_of_lt hgrown

/-- However often a caller is refused, its streams are left alone exactly when no refusal came after
the ends of a stream were made, that is from the resolver of the secrets. -/
theorem refused_streaming_iff (hrun : Refusals c requests c') :
    LeftAlone c c' ↔ ∀ r ∈ requests, ¬r.Provisioned := by
  obtain ⟨htasks, ⟨hnone, hsame⟩ | ⟨⟨r, hr, hprovisioned⟩, hgrown⟩⟩ := refusals_cases hrun
  · exact ⟨fun _ => hnone, fun _ => ⟨fun handle => by rw [hsame], by rw [hsame], htasks⟩⟩
  · constructor
    · intro halone
      rw [halone.size] at hgrown
      exact absurd hgrown (Nat.lt_irrefl _)
    · intro hnone
      exact absurd hprovisioned (hnone r hr)

end Refusals

/-- An invoke of `feed` by a caller in a kernel whose resolver does not answer. -/
def unansweredFeed (r : PluginRegistry) (action : String) : StreamingRequest Unit where
  kernel := { CalleeStream.feedView r with
    pullSecrets := fun _ _ => .error (.execution "secrets unavailable") }
  now := 0
  call := ⟨"feed", action, .null, .null, (), 0⟩
  parentCancel := none
  parentDeadline := none

/-- A caller that reads another plugin's stream. -/
def readingCaller : StreamingCaller Unit where
  streams := StreamRegistry.new.mint
    (.callee octetStream (some (openCalleeStream "notes" "lines")))
  tasks := []

/-- Asked twice for an action that is not there, the kernel leaves the caller its one stream. -/
theorem refused_streaming_unknown : ∃ k : Kernel, k.Reachable CalleeStream.feedSetup ∧ ∃ c,
    Refusals readingCaller [unansweredFeed k.registry "head",
      unansweredFeed k.registry "head"] c ∧ c.streams.size = 1 ∧ LeftAlone readingCaller c := by
  have hkernel : ∃ k₀ k : Kernel, Kernel.boot CalleeStream.feedSetup "kernel" = .ok k₀ ∧
      k = k₀.afterAll CalleeStream.feedSetup [.load "" "feed"] ∧
      k.registry.getAction "feed" "head" = none := ⟨_, _, rfl, rfl, by decide⟩
  obtain ⟨k₀, k, hboot, hk, haction⟩ := hkernel
  have hstep : RefusedStep readingCaller (unansweredFeed k.registry "head") readingCaller := by
    refine ⟨⟨readingCaller.streams, [], .error (KernelView.noAction "feed" "head")⟩, _, ?_, rfl,
      rfl⟩
    simp only [StreamingRequest.attempt, unansweredFeed, CalleeStream.feedView, haction]
  have hrun := (Transition.Run.single hstep).snoc hstep
  refine ⟨k, hk ▸ Kernel.reachable_afterAll hboot _, _, hrun, rfl,
    (refused_streaming_iff hrun).mpr ?_⟩
  intro r hr
  simp only [List.cons_append, List.nil_append, List.mem_cons, List.not_mem_nil, or_false,
    or_self] at hr
  rintro ⟨registration, -, hregistration, -⟩
  rw [hr] at hregistration
  simp only [unansweredFeed, CalleeStream.feedView] at hregistration
  rw [haction] at hregistration
  cases hregistration

/-- Refused by the resolver, the caller is left with a handle it has never been told of. -/
theorem refusal_takes_handle : ∃ k : Kernel, k.Reachable CalleeStream.feedSetup ∧ ∃ c,
    Refusals ⟨StreamRegistry.new, []⟩ [unansweredFeed k.registry "tail"] c ∧
      c.streams.size = 1 ∧ ¬LeftAlone ⟨StreamRegistry.new, []⟩ c := by
  have hkernel : ∃ k₀ k : Kernel, Kernel.boot CalleeStream.feedSetup "kernel" = .ok k₀ ∧
      k = k₀.afterAll CalleeStream.feedSetup [.load "" "feed"] ∧ ∃ a e,
        (unansweredFeed k.registry "tail").attempt StreamRegistry.new = some a ∧
          a.result = .error e ∧ a.streams.size = 1 := ⟨_, _, rfl, rfl, _, _, rfl, rfl, rfl⟩
  obtain ⟨k₀, k, hboot, hk, a, e, hattempt, hresult, hsize⟩ := hkernel
  refine ⟨k, hk ▸ Kernel.reachable_afterAll hboot _, ⟨a.streams, [] ++ a.spawned⟩,
    .single ⟨a, e, hattempt, hresult, rfl⟩, hsize, fun halone => ?_⟩
  have hempty := halone.size
  rw [hsize] at hempty
  cases hempty

end Gwead
