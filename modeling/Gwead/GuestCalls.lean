import Gwead.StreamingRefusals
import Gwead.WallclockRace

/-!
# The call results of a guest

A guest's invoke leaves its result in one slot or its error in another, and the guest fetches the
bytes by two imports more.  The imports that dispatch set and clear the two slots each on its own.
-/

namespace Gwead

/-! ### What a guest hands in -/

def utf8 (s : String) : Bytes := s.toUTF8.data.toList

/-- `n as usize` of an `i32`. -/
def asUsize (n : Int) : Nat := (n % 2 ^ 64).toNat

/-- The bytes of a guest's memory at a pointer. -/
def readGuest (memory : Bytes) (slice : Int × Int) : Option Bytes :=
  let start := asUsize slice.1
  let stop := start + asUsize slice.2
  if 2 ^ 64 ≤ stop ∨ memory.length < stop then none
  else some ((memory.drop start).take (asUsize slice.2))

/-- The texts of the decoders' errors, and the JSON that a value is written as. -/
structure GuestCodec where
  fromSlice : Bytes → Except String Value
  toVec : Value → Option Bytes
  utf8Error : Bytes → String

def GuestCodec.fromUtf8 (codec : GuestCodec) (bytes : Bytes) : Except String String :=
  match String.fromUTF8? ⟨bytes.toArray⟩ with
  | some s => .ok s
  | none => .error (codec.utf8Error bytes)

/-- The pointers and lengths a dispatching import is called with. -/
structure GuestCall where
  target : Int × Int
  action : Int × Int
  input : Int × Int

/-- What a dispatching import finds: the guest's memory, the kernel and the parent's context, and how
its callee would end, with whether the step's token has fired by then. -/
structure GuestMoment (ξ : Type) where
  memory : Option Bytes
  kernel : KernelView ξ
  wrapped : Bool
  now : Nat
  execution : Execution ξ
  cancel : CancelToken
  deadline : Option Nat
  streams : StreamRegistry
  run : Started ξ → Except KernelError ActionResult
  fired : Bool

/-- The three arguments out of the guest's memory. -/
def guestArguments {ξ : Type} (op : String) (codec : GuestCodec) (m : GuestMoment ξ)
    (call : GuestCall) : Except String (Value × String × Value) :=
  match m.memory with
  | none => .error "wasm linear memory not exported"
  | some memory =>
    match readGuest memory call.target, readGuest memory call.action,
        readGuest memory call.input with
    | some target, some action, some input =>
      match codec.fromSlice target with
      | .error e => .error (op ++ " target JSON: " ++ e)
      | .ok target =>
        match codec.fromUtf8 action with
        | .error e => .error (op ++ " action utf-8: " ++ e)
        | .ok action =>
          match codec.fromSlice input with
          | .error e => .error (op ++ " input JSON: " ++ e)
          | .ok input => .ok (target, action, input)
    | _, _, _ => .error (op ++ " OOB read")

/-! ### The slots -/

structure CallStash where
  callResult : Option Bytes
  callError : Option Bytes
  toldOfCancel : Bool

/-- What a dispatching import comes to. -/
inductive GuestOutcome where
  /-- An exit that only sets the error. -/
  | bailed (message : String)
  | answered (json : Bytes)
  | failed (message : String) (tells : Bool)
  | opened (handle : Nat)
  deriving DecidableEq

namespace GuestOutcome

def code : GuestOutcome → Int
  | bailed _ => 0
  | answered _ => 1
  | failed _ _ => 0
  | opened handle => handle

def stash (s : CallStash) : GuestOutcome → CallStash
  | bailed message => { s with callError := some (utf8 message) }
  | answered json => { s with callResult := some json, callError := none }
  | failed message tells =>
    ⟨none, some (utf8 message), s.toldOfCancel || tells⟩
  | opened _ => { s with callResult := none, callError := none }

/-- The bytes the guest is to fetch: the result, the error, or none for a stream. -/
def text : GuestOutcome → Option Bytes
  | bailed message => some (utf8 message)
  | answered json => some json
  | failed message _ => some (utf8 message)
  | opened _ => none

end GuestOutcome

section Imports

variable {ξ : Type} (codec : GuestCodec)

def hostInvoke (m : GuestMoment ξ) (call : GuestCall) : GuestOutcome :=
  match guestArguments "host_invoke" codec m call with
  | .error e => .bailed e
  | .ok (target, action, input) =>
    match m.kernel.guestInvoke "io.invoke" m.wrapped m.execution target action input with
    | .error e => .bailed e
    | .ok callee =>
      match (m.kernel.executeActionInvoked m.now callee (some m.cancel) m.deadline).bind m.run with
      | .ok result => .answered ((codec.toVec result.output).getD (utf8 "null"))
      | .error e =>
        .failed ("io.invoke → " ++ callee.plugin ++ "." ++ callee.action ++ " failed: " ++
          e.display) (m.fired && stoppedByCancellation e)

/-- A handle counter at its bound is a panic, and the import does not return. -/
def hostInvokeStreaming (m : GuestMoment ξ) (call : GuestCall) : Option GuestOutcome :=
  match guestArguments "host_invoke_streaming" codec m call with
  | .error e => some (.bailed e)
  | .ok (target, action, input) =>
    match m.kernel.guestInvoke "io.invoke_streaming" m.wrapped m.execution target action input with
    | .error e => some (.bailed e)
    | .ok callee =>
      let request : StreamingRequest ξ := ⟨m.kernel, m.now, callee, some m.cancel, m.deadline⟩
      (request.attempt m.streams).map fun attempt =>
        match attempt.result with
        | .ok handle => .opened handle
        | .error e =>
          .bailed ("io.invoke_streaming → " ++ callee.plugin ++ "." ++ callee.action ++
            " failed: " ++ e.display)

end Imports

def i32Max : Nat := 2 ^ 31 - 1

def hostCallResultSize (s : CallStash) : Int :=
  (min (((s.callResult.or s.callError).map List.length).getD 0) i32Max : Nat)

/-- `bytes` put into a memory. -/
def writeGuest (memory : Bytes) (start : Nat) (bytes : Bytes) : Bytes :=
  memory.take start ++ bytes ++ memory.drop (start + bytes.length)

/-- What a fetch returns, and what it makes of the memory and the slots. -/
structure GuestRead where
  code : Int
  memory : Option Bytes
  stash : CallStash

/-- The result is taken if there is one, else the error; it is gone even if the copy fails. -/
def CallStash.take (s : CallStash) : Option Bytes × CallStash :=
  match s.callResult with
  | some bytes => (some bytes, { s with callResult := none })
  | none => (s.callError, { s with callError := none })

def hostCallResultRead (memory : Option Bytes) (bufPtr maxLen : Int) (s : CallStash) : GuestRead :=
  match memory with
  | none => ⟨-1, none, s⟩
  | some memory =>
    match s.take with
    | (none, s) => ⟨0, some memory, s⟩
    | (some bytes, s) =>
      let copyLen := min bytes.length (asUsize maxLen)
      let start := asUsize bufPtr
      if 2 ^ 64 ≤ start + copyLen ∨ memory.length < start + copyLen then ⟨-1, some memory, s⟩
      else ⟨(min copyLen i32Max : Nat), some (writeGuest memory start (bytes.take copyLen)), s⟩

/-! ### One evaluation -/

/-- The imports of a guest that touch the slots. -/
inductive GuestImport (ξ : Type) where
  | invoke (m : GuestMoment ξ) (call : GuestCall)
  | invokeStreaming (m : GuestMoment ξ) (call : GuestCall)
  | callResultSize
  | callResultRead (memory : Option Bytes) (bufPtr maxLen : Int)

/-- The slots, and what the latest call is still to be asked for. -/
structure GuestSession where
  stash : CallStash
  owed : Option Bytes

def GuestSession.start : GuestSession := ⟨⟨none, none, false⟩, none⟩

section Session

variable {ξ : Type} (codec : GuestCodec)

/-- What a dispatching import comes to; the other imports do not dispatch. -/
def GuestImport.outcome : GuestImport ξ → Option GuestOutcome
  | invoke m call => some (hostInvoke codec m call)
  | invokeStreaming m call => hostInvokeStreaming codec m call
  | callResultSize => none
  | callResultRead .. => none

/-- One import of the guest that returns. -/
inductive ImportStep (g : GuestSession) : GuestImport ξ → GuestSession → Prop
  | dispatch {i : GuestImport ξ} {o : GuestOutcome} (ho : i.outcome codec = some o) :
      ImportStep g i ⟨o.stash g.stash, o.text⟩
  | size : ImportStep g .callResultSize g
  /-- Without a memory the slots are not looked at; else they are asked, and asked once. -/
  | read {memory : Option Bytes} {bufPtr maxLen : Int} :
      ImportStep g (.callResultRead memory bufPtr maxLen)
        ⟨(hostCallResultRead memory bufPtr maxLen g.stash).stash,
          if memory.isSome then none else g.owed⟩

/-- The guest can fetch what the latest call left for it, and never anything else. -/
structure BelongsToLatest (g : GuestSession) : Prop where
  size : hostCallResultSize g.stash = ((g.owed.getD []).length : Nat)
  read : ∀ (memory : Bytes) (bufPtr : Nat), bufPtr + (g.owed.getD []).length ≤ memory.length →
    memory.length < 2 ^ 64 → ∃ s, hostCallResultRead (some memory) bufPtr (hostCallResultSize g.stash)
      g.stash = ⟨((g.owed.getD []).length : Nat), some (writeGuest memory bufPtr (g.owed.getD [])), s⟩
  never : ∀ (memory : Bytes) (bufPtr maxLen : Int), ∃ n,
    (hostCallResultRead (some memory) bufPtr maxLen g.stash).memory = some memory ∨
      (hostCallResultRead (some memory) bufPtr maxLen g.stash).memory =
        some (writeGuest memory (asUsize bufPtr) ((g.owed.getD []).take n))

/-- The import does not bail out over a result that has not been fetched, and what it leaves is not
longer than an `i32` can say. -/
def OrderlyImport (g : GuestSession) (i : GuestImport ξ) : Prop :=
  ∀ o, i.outcome codec = some o →
    ((∃ message, o = .bailed message) → g.stash.callResult = none) ∧
      (o.text.getD []).length ≤ i32Max

/-- At most one slot is filled, with what the latest call left. -/
structure InStep (g : GuestSession) : Prop where
  one : g.stash.callResult = none ∨ g.stash.callError = none
  owed : g.stash.callResult.or g.stash.callError = g.owed
  fits : (g.owed.getD []).length ≤ i32Max

theorem take_fst (s : CallStash) : s.take.1 = s.callResult.or s.callError := by
  rw [CallStash.take]
  cases s.callResult <;> rfl

/-- After the only filled slot is taken, none is. -/
theorem take_snd {s : CallStash} (h : s.callResult = none ∨ s.callError = none) :
    s.take.2.callResult = none ∧ s.take.2.callError = none := by
  rw [CallStash.take]
  cases hresult : s.callResult with
  | none => exact ⟨rfl, rfl⟩
  | some bytes => exact ⟨rfl, h.resolve_left (by simp [hresult])⟩

theorem read_stash (memory : Bytes) (bufPtr maxLen : Int) (s : CallStash) :
    (hostCallResultRead (some memory) bufPtr maxLen s).stash = s.take.2 := by
  rw [hostCallResultRead]
  cases htake : s.take with
  | mk taken rest =>
    cases taken with
    | none => rfl
    | some bytes =>
      simp only
      split <;> rfl

theorem inStep_start : InStep GuestSession.start := ⟨Or.inl rfl, rfl, Nat.zero_le _⟩

/-- An orderly import keeps the slots in step with the latest call. -/
theorem InStep.step {g g' : GuestSession} {i : GuestImport ξ} (h : InStep g)
    (hstep : ImportStep codec g i g') (horderly : OrderlyImport codec g i) : InStep g' := by
  cases hstep with
  | @dispatch _ o ho =>
    obtain ⟨hbailed, hfits⟩ := horderly o ho
    cases o with
    | bailed message =>
      have hnone := hbailed ⟨message, rfl⟩
      exact ⟨Or.inl hnone, by simp [GuestOutcome.stash, GuestOutcome.text, hnone], hfits⟩
    | answered json => exact ⟨Or.inr rfl, rfl, hfits⟩
    | failed message tells => exact ⟨Or.inl rfl, rfl, hfits⟩
    | opened handle => exact ⟨Or.inl rfl, rfl, hfits⟩
  | size => exact h
  | @read memory bufPtr maxLen =>
    cases memory with
    | none => exact h
    | some memory =>
      obtain ⟨hresult, herror⟩ := take_snd h.one
      rw [← read_stash memory bufPtr maxLen] at hresult herror
      exact ⟨Or.inl hresult, by simp [hresult, herror], Nat.zero_le _⟩

theorem asUsize_natCast {n : Nat} (h : n < 2 ^ 64) : asUsize n = n := by
  rw [asUsize, Int.emod_eq_of_lt (by omega) (by omega)]
  exact Int.toNat_natCast n

theorem InStep.size_eq {g : GuestSession} (h : InStep g) :
    hostCallResultSize g.stash = ((g.owed.getD []).length : Nat) := by
  have hfits := h.fits
  rw [hostCallResultSize, h.owed]
  cases howed : g.owed with
  | none => simp
  | some bytes =>
    rw [howed, Option.getD_some] at hfits
    simp [Nat.min_eq_left hfits]

theorem InStep.belongs {g : GuestSession} (h : InStep g) : BelongsToLatest g := by
  have htake : g.stash.take.1 = g.owed := (take_fst g.stash).trans h.owed
  refine ⟨h.size_eq, ?_, ?_⟩
  · intro memory bufPtr hroom hmemory
    have hfits := h.fits
    refine ⟨g.stash.take.2, ?_⟩
    rw [h.size_eq, hostCallResultRead]
    cases hpair : g.stash.take with
    | mk taken rest =>
      rw [hpair] at htake
      rw [← htake] at hroom hfits ⊢
      cases taken with
      | none => simp [writeGuest]
      | some bytes =>
        simp only [Option.getD_some] at hroom hfits ⊢
        have hlen := @asUsize_natCast bytes.length (by omega)
        have hptr := @asUsize_natCast bufPtr (by omega)
        rw [hlen, hptr, Nat.min_self, if_neg (by omega), List.take_length,
          Nat.min_eq_left hfits]
  · intro memory bufPtr maxLen
    rw [hostCallResultRead]
    cases hpair : g.stash.take with
    | mk taken rest =>
      rw [hpair] at htake
      rw [← htake]
      cases taken with
      | none => exact ⟨0, Or.inl rfl⟩
      | some bytes =>
        refine ⟨min bytes.length (asUsize maxLen), ?_⟩
        simp only [Option.getD_some]
        split
        · exact Or.inl rfl
        · exact Or.inr rfl

/-- In every evaluation of a guest whose imports are all orderly, the guest can fetch what the latest
call left for it, in every state, and nothing of an earlier one. -/
theorem call_result_latest {imports : List (GuestImport ξ)} {g : GuestSession}
    (hrun : Transition.Run (fun g i g' => ImportStep codec g i g' ∧ OrderlyImport codec g i)
      GuestSession.start imports g) : BelongsToLatest g :=
  (hrun.invariant (P := fun _ g => InStep g) inStep_start
    fun _ _ _ _ h hstep => h.step codec hstep.1 hstep.2).belongs

end Session

/-! ### A guest of `feed` that invokes its own plugin -/

def feedTarget : Bytes := utf8 "\x7b\"plugin\":\"feed\"\x7d"

def feedCodec : GuestCodec where
  fromSlice bytes :=
    if bytes = feedTarget then .ok (.object [("plugin", .string "feed")])
    else if bytes = utf8 "\x7b\x7d" then .ok .emptyObject
    else .error "expected value at line 1 column 1"
  toVec
    | .null => some (utf8 "null")
    | _ => none
  utf8Error _ := "invalid utf-8 sequence of 1 bytes from index 0"

/-- The callee would return null. -/
def feedMoment (r : PluginRegistry) : GuestMoment Unit where
  memory := some (feedTarget ++ utf8 "tail\x7b\x7d")
  kernel := CalleeStream.feedView r
  wrapped := true
  now := 0
  execution := ⟨"feed", .null, (), .null, [], "drain", "script", 0, 0⟩
  cancel := .fresh
  deadline := none
  streams := StreamRegistry.new
  run := fun _ => .ok ⟨.null, .empty, .empty⟩
  fired := false

def tailCall : GuestCall := ⟨(0, 17), (17, 4), (21, 2)⟩

/-- The input runs past the end of the memory. -/
def overlongCall : GuestCall := ⟨(0, 17), (17, 4), (21, 200)⟩

/-- `feed` has no action of this name. -/
def missingCall : GuestCall := ⟨(0, 17), (17, 3), (21, 2)⟩

def missingText : String :=
  "io.invoke → feed.tai failed: Plugin/action not found: No action 'tai' on plugin 'feed'"

/-- After a call that returned null and one that failed, a guest can fetch the error. -/
theorem call_result_latest_null : ∃ k : Kernel, k.Reachable CalleeStream.feedSetup ∧ ∃ g,
    g.owed = some (utf8 missingText) ∧
    Transition.Run (fun g i g' => ImportStep feedCodec g i g' ∧ OrderlyImport feedCodec g i)
      GuestSession.start [.invoke (feedMoment k.registry) tailCall,
        .invoke (feedMoment k.registry) missingCall] g ∧ BelongsToLatest g := by
  have hkernel : ∃ k₀ k : Kernel, Kernel.boot CalleeStream.feedSetup "kernel" = .ok k₀ ∧
      k = k₀.afterAll CalleeStream.feedSetup [.load "" "feed"] ∧
      hostInvoke feedCodec (feedMoment k.registry) tailCall = .answered (utf8 "null") ∧
      hostInvoke feedCodec (feedMoment k.registry) missingCall = .failed missingText false :=
    ⟨_, _, rfl, rfl, by decide +kernel, by decide +kernel⟩
  obtain ⟨k₀, k, hboot, hk, hfirst, hsecond⟩ := hkernel
  have hfirst' : (GuestImport.invoke (feedMoment k.registry) tailCall).outcome feedCodec =
      some (.answered (utf8 "null")) := congrArg some hfirst
  have hsecond' : (GuestImport.invoke (feedMoment k.registry) missingCall).outcome feedCodec =
      some (.failed missingText false) := congrArg some hsecond
  have horderly : ∀ g, OrderlyImport feedCodec g (.invoke (feedMoment k.registry) tailCall) := by
    intro g o ho
    rw [← Option.some.inj (hfirst'.symm.trans ho)]
    exact ⟨nofun, by decide +kernel⟩
  have horderly' : ∀ g, OrderlyImport feedCodec g (.invoke (feedMoment k.registry) missingCall) := by
    intro g o ho
    rw [← Option.some.inj (hsecond'.symm.trans ho)]
    exact ⟨nofun, by decide +kernel⟩
  have hrun : Transition.Run
      (fun g i g' => ImportStep feedCodec g i g' ∧ OrderlyImport feedCodec g i)
      GuestSession.start ([.invoke (feedMoment k.registry) tailCall] ++
        [.invoke (feedMoment k.registry) missingCall])
      ⟨⟨none, some (utf8 missingText), false⟩, some (utf8 missingText)⟩ :=
    (Transition.Run.single ⟨.dispatch hfirst', horderly _⟩).snoc
      ⟨.dispatch hsecond', horderly' _⟩
  exact ⟨k, hk ▸ Kernel.reachable_afterAll hboot _, _, rfl, hrun, call_result_latest feedCodec hrun⟩

/-- After an invoke that fails on its pointers the guest fetches what the one before returned. -/
theorem stale_result_fetched : ∃ k : Kernel, k.Reachable CalleeStream.feedSetup ∧ ∃ g,
    Transition.Run (ImportStep feedCodec) GuestSession.start
      [.invoke (feedMoment k.registry) tailCall, .invoke (feedMoment k.registry) overlongCall] g ∧
    g.owed = some (utf8 "host_invoke OOB read") ∧ hostCallResultSize g.stash = 4 ∧
    (hostCallResultRead (some [0, 0, 0, 0]) 0 4 g.stash).memory = some (utf8 "null") ∧
    ¬BelongsToLatest g := by
  have hkernel : ∃ k₀ k : Kernel, Kernel.boot CalleeStream.feedSetup "kernel" = .ok k₀ ∧
      k = k₀.afterAll CalleeStream.feedSetup [.load "" "feed"] ∧
      hostInvoke feedCodec (feedMoment k.registry) tailCall = .answered (utf8 "null") ∧
      hostInvoke feedCodec (feedMoment k.registry) overlongCall = .bailed "host_invoke OOB read" :=
    ⟨_, _, rfl, rfl, by decide +kernel, by decide +kernel⟩
  obtain ⟨k₀, k, hboot, hk, hfirst, hsecond⟩ := hkernel
  have hfirst' : (GuestImport.invoke (feedMoment k.registry) tailCall).outcome feedCodec =
      some (.answered (utf8 "null")) := congrArg some hfirst
  have hsecond' : (GuestImport.invoke (feedMoment k.registry) overlongCall).outcome feedCodec =
      some (.bailed "host_invoke OOB read") := congrArg some hsecond
  have hrun : Transition.Run (ImportStep feedCodec) GuestSession.start
      ([.invoke (feedMoment k.registry) tailCall] ++
        [.invoke (feedMoment k.registry) overlongCall])
      ⟨⟨some (utf8 "null"), some (utf8 "host_invoke OOB read"), false⟩,
        some (utf8 "host_invoke OOB read")⟩ :=
    (Transition.Run.single (.dispatch hfirst')).snoc (.dispatch hsecond')
  refine ⟨k, hk ▸ Kernel.reachable_afterAll hboot _, _, hrun, rfl, by decide +kernel,
    by decide +kernel, fun hbelongs => ?_⟩
  have hsize := hbelongs.size
  exact absurd hsize (by decide +kernel)

end Gwead
