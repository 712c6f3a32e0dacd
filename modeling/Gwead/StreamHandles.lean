import Gwead.Fanout
import Gwead.Pipe
import Gwead.StreamingRefusals

/-!
# The handles of a stream registry

A registry over the streams there are.  A handle resolves to a stream that others may hold too:
reads that are under way, or a registry the stream came from or went to.  `take` removes a handle;
`close`, `take_readable` and the fan-outs leave it in the table and close the stream behind it.
-/

namespace Gwead

/-- A shared fan-out between its two phases: the source is taken and being drained. -/
structure Drain where
  contentType : String
  source : Source
  nBranches : Nat

/-- Every stream there is, the registry's table of references to them, and the shared fan-outs
that have not issued their branches yet. -/
structure RegistryState where
  heap : List Reads
  table : HandleTable Nat
  draining : List Drain

inductive RegistryOp where
  | registerReadable (contentType : String) (source : Source)
  | registerWritable (contentType : String) (channelCapacity : Nat)
  /-- A stream of another table, or of this one. -/
  | adopt (stream : Nat)
  | take (handle : Nat)
  | takeReadable (handle : Nat)
  | close (handle : Nat)
  | fanOutStreaming (producer nBranches channelCapacity : Nat)
  /-- The first phase of `fan_out_readable_shared`, up to the drain. -/
  | fanOutShared (producer nBranches : Nat)
  /-- Its second phase, once the source is drained. -/
  | drained (i : Nat)
  /-- A step of a read on a stream, the put-back among them. -/
  | read (stream reader : Nat) (choice : ReadChoice)

inductive RegistryOutcome where
  | quiet
  | handle (issued : Nat)
  | handles (issued : List Nat)
  | taken (stream : Nat)
  | source (contentType : String) (source : Source)
  | absent
  | refused (text : String)
  /-- The assertion on the handle counter, or on the capacity of a channel. -/
  | panicked (issued : List Nat)

namespace RegistryOutcome

def issued : RegistryOutcome → List Nat
  | handle issued => [issued]
  | handles issued => issued
  | panicked issued => issued
  | _ => []

/-- The call returns `None` or an error. -/
def Failed : RegistryOutcome → Prop
  | absent => True
  | refused _ => True
  | _ => False

end RegistryOutcome

namespace RegistryState

/-- `StreamRegistry::new`, in a world with some streams. -/
def new (heap : List Reads) : RegistryState := ⟨heap, .new 1, []⟩

def resolve (w : RegistryState) (handle : Nat) : Option (Nat × Reads) :=
  (w.table.get handle).bind fun stream => (w.heap[stream]?).map fun c => (stream, c)

def setStream (w : RegistryState) (stream : Nat) (c : Reads) : RegistryState :=
  { w with heap := w.heap.set stream c }

/-- `next_handle`, and the stream put under the handle; none where the counter panics. -/
def insert (w : RegistryState) (stream : Nat) : Option (Nat × RegistryState) :=
  if w.table.next ≤ maxStreamHandle then
    some (w.table.next, { w with table := w.table.mint stream })
  else none

def register (w : RegistryState) (state : StreamState) : Option (Nat × RegistryState) :=
  (w.insert w.heap.length).map fun (handle, w) =>
    (handle, { w with heap := w.heap ++ [⟨state, fun _ => .idle⟩] })

/-- A handle for each stream, one after the other, until the counter panics. -/
def registerAll : List StreamState → RegistryState → RegistryOutcome × RegistryState
  | [], w => (.handles [], w)
  | state :: rest, w =>
    match w.register state with
    | none => (.panicked [], w)
    | some (handle, w) =>
      match registerAll rest w with
      | (.handles issued, w) => (.handles (handle :: issued), w)
      | (outcome, w) => (.panicked (handle :: outcome.issued), w)

def branchOut (w : RegistryState) (d : Drain) : RegistryOutcome × RegistryState :=
  w.registerAll
    (List.replicate d.nBranches
      (.register d.contentType (.readable (.live d.source.upstream) none)))

def takeSource (w : RegistryState) (handle : Nat) : Option ((String × Source) × RegistryState) :=
  (w.resolve handle).bind fun (stream, c) =>
    (takeReadable c).map fun (taken, c) => (taken, w.setStream stream c)

def fanOutStreaming (w : RegistryState) (producer nBranches channelCapacity : Nat) :
    RegistryOutcome × RegistryState :=
  if nBranches = 0 then (.refused "fan_out_readable_streaming: n_branches must be > 0", w)
  else if channelCapacity = 0 then
    (.refused "fan_out_readable_streaming: channel_capacity must be > 0", w)
  else
    match w.takeSource producer with
    | none => (.refused "fan_out_readable_streaming: producer is not an open readable", w)
    | some ((contentType, source), w) => w.branchOut ⟨contentType, source, nBranches⟩

def fanOutShared (w : RegistryState) (producer nBranches : Nat) :
    RegistryOutcome × RegistryState :=
  if nBranches = 0 then (.refused "fan_out_readable_shared: n_branches must be > 0", w)
  else
    match w.takeSource producer with
    | none => (.refused "fan_out_readable_shared: producer is not an open readable", w)
    | some ((contentType, source), w) =>
      (.quiet, { w with draining := w.draining ++ [⟨contentType, source, nBranches⟩] })

def step (w : RegistryState) : RegistryOp → RegistryOutcome × RegistryState
  | .registerReadable contentType source =>
    match w.register (.register contentType (.readable source none)) with
    | none => (.panicked [], w)
    | some (handle, w) => (.handle handle, w)
  | .registerWritable contentType channelCapacity =>
    if channelCapacity = 0 then (.panicked [], w)
    else
      match w.register (.register contentType .writable) with
      | none => (.panicked [], w)
      | some (handle, w) => (.handle handle, w)
  | .adopt stream =>
    match w.heap[stream]? with
    | none => (.quiet, w)
    | some _ =>
      match w.insert stream with
      | none => (.panicked [], w)
      | some (handle, w) => (.handle handle, w)
  | .take handle =>
    match w.table.get handle with
    | none => (.absent, w)
    | some stream => (.taken stream, { w with table := w.table.remove handle })
  | .takeReadable handle =>
    match w.takeSource handle with
    | none => (.absent, w)
    | some ((contentType, source), w) => (.source contentType source, w)
  | .close handle =>
    match w.resolve handle with
    | none => (.quiet, w)
    | some (stream, c) =>
      (.quiet, w.setStream stream
        { c with stream := { c.stream with inner := Pipe.closedWritable c.stream.inner } })
  | .fanOutStreaming producer nBranches channelCapacity =>
    w.fanOutStreaming producer nBranches channelCapacity
  | .fanOutShared producer nBranches => w.fanOutShared producer nBranches
  | .drained i =>
    match w.draining[i]? with
    | none => (.quiet, w)
    | some d => branchOut { w with draining := w.draining.eraseIdx i } d
  | .read stream reader choice =>
    match (w.heap[stream]?).bind fun c => readStep c reader choice with
    | none => (.quiet, w)
    | some (_, c) => (.quiet, w.setStream stream c)

/-- The state after some operations. -/
def after (w : RegistryState) (ops : List RegistryOp) : RegistryState :=
  ops.foldl (fun w op => (w.step op).2) w

/-- The handles some operations issue, in their order. -/
def issued : RegistryState → List RegistryOp → List Nat
  | _, [] => []
  | w, op :: ops => (w.step op).1.issued ++ issued (w.step op).2 ops

end RegistryState

end Gwead
