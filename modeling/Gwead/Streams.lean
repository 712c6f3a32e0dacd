import Gwead.Lib.Gate
import Gwead.Lib.Transition
import Gwead.Lib.Wrap

/-!
# Readable streams

One stream of a registry and the reads on it.  A call of `read_async` passes the read gate, swaps
the source and the leftover out under the stream's lock, polls the source without it, and puts
both back under the lock again; between two of these sections anything else may happen.
-/

namespace Gwead

open Wrap (asI32)

abbrev Bytes := List UInt8

/-! ### Sources -/

/-- An item of a source. -/
inductive Item where
  | chunk (bytes : Bytes)
  | error (text : String)

/-- A source of chunks.  `empty` has ended from the start and never keeps a reader waiting; a live
source may, before any of its items and before its end. -/
inductive Source where
  | empty
  | live (items : List Item)

def Source.next : Source → Option Item × Source
  | .empty => (none, .empty)
  | .live [] => (none, .live [])
  | .live (item :: rest) => (some item, .live rest)

def Source.canWait : Source → Bool
  | .empty => false
  | .live _ => true

/-- A chunk in front of a source. -/
def Source.prepend (bytes : Bytes) : Source → Source
  | .empty => .live [.chunk bytes]
  | .live items => .live (.chunk bytes :: items)

/-! ### One stream -/

inductive StreamDirection where
  | readable (source : Source) (leftover : Option Bytes)
  | writable

structure StreamInner where
  direction : StreamDirection
  closed : Bool
  lastError : Option String

structure StreamState where
  contentType : String
  inner : StreamInner
  /-- The read that holds the gate. -/
  readGate : Option Nat

def StreamState.register (contentType : String) (direction : StreamDirection) : StreamState :=
  ⟨contentType, ⟨direction, false, none⟩, none⟩

def STREAM_EOF : Int := -1
def STREAM_DIRECTION_MISMATCH : Int := -3
def STREAM_CLOSED : Int := -4
def STREAM_IO_ERROR : Int := -5
def STREAM_CANCELLED : Int := -7

def streamReadCancelledText : String :=
  "read released by the step's cancellation token; the source was left as it was"

def emptyErrorText : String := "source failed without a message"

def maxLastErrorBytes : Nat := 4096

/-- The longest prefix of at most `budget` bytes that ends on a character boundary. -/
def cutAtBoundary : Nat → List Char → List Char
  | _, [] => []
  | budget, c :: cs => if c.utf8Size ≤ budget then c :: cutAtBoundary (budget - c.utf8Size) cs else []

def truncateText (s : String) (max : Nat) : String :=
  if s.utf8ByteSize ≤ max then s
  else
    let suffix := "… (" ++ s.utf8ByteSize.repr ++ " bytes total)"
    String.ofList (cutAtBoundary (max - suffix.utf8ByteSize) s.toList) ++ suffix

/-! ### One read -/

/-- What a read has when it stops pulling. -/
inductive Pull where
  | chunk (bytes : Bytes)
  | error (text : String)
  | eof
  | released

/-- Where a call of `read_async` stands. -/
inductive Reading where
  | idle
  /-- Waiting for the gate. -/
  | gated (size : Nat)
  /-- Behind the gate, before the swap-out. -/
  | entered (size : Nat)
  | pulling (size : Nat) (source : Source)
  /-- Before the put-back. -/
  | pulled (size : Nat) (source : Source) (pull : Pull)

/-- One poll of the source.  An empty chunk is skipped. -/
def pollSource (size : Nat) (source : Source) : Reading :=
  match source.next with
  | (some (.chunk bytes), rest) =>
    if bytes.isEmpty then .pulling size rest else .pulled size rest (.chunk bytes)
  | (some (.error text), rest) => .pulled size rest (.error text)
  | (none, rest) => .pulled size rest .eof

/-- The bytes copied into a buffer of `size` bytes. -/
def Pull.copied (size : Nat) : Pull → Bytes
  | .chunk bytes => bytes.take (min size bytes.length)
  | _ => []

def Pull.newLeftover (size : Nat) : Pull → Option Bytes
  | .chunk bytes =>
    let n := min size bytes.length
    if n < bytes.length then some (bytes.drop n) else none
  | _ => none

/-- What the read returns. -/
def Pull.code (size : Nat) : Pull → Int
  | .chunk bytes => asI32 (min size bytes.length)
  | .error _ => STREAM_IO_ERROR
  | .eof => STREAM_EOF
  | .released => STREAM_CANCELLED

/-- The text kept for `stream_last_error`. -/
def Pull.recorded : Pull → Option String
  | .error text => some (if text.isEmpty then emptyErrorText else truncateText text maxLastErrorBytes)
  | .released => some streamReadCancelledText
  | _ => none

/-- An exhausted source is replaced by the empty one, so that its end sticks. -/
def Pull.sourceBack (source : Source) : Pull → Source
  | .eof => .empty
  | _ => source

/-- What a swap-out leaves behind. -/
def StreamInner.stub (inner : StreamInner) : StreamInner :=
  { inner with direction := .readable .empty none }

def StreamInner.putBack (inner : StreamInner) (size : Nat) (source : Source) (pull : Pull) :
    StreamInner :=
  let inner := { inner with lastError := pull.recorded.or inner.lastError }
  match inner.closed, inner.direction with
  | false, .readable _ _ =>
    { inner with direction := .readable (pull.sourceBack source) (pull.newLeftover size) }
  | _, _ => inner

/-- Take the source, with what is left of the last chunk in front, and close the handle. -/
def StreamInner.takeReadable (inner : StreamInner) : Option (Source × StreamInner) :=
  match inner.closed, inner.direction with
  | false, .readable source leftover =>
    let full := match leftover with
      | some bytes => source.prepend bytes
      | none => source
    some (full, { inner.stub with closed := true })
  | _, _ => none

def StreamState.takeReadable (s : StreamState) : Option ((String × Source) × StreamState) :=
  s.inner.takeReadable.map fun (source, inner) => ((s.contentType, source), { s with inner := inner })

/-! ### Reads on one stream -/

/-- A stream and the calls of `read_async` on it. -/
structure Reads where
  stream : StreamState
  readers : Nat → Reading

inductive ReadChoice where
  | call (size : Nat)
  | lock
  | swap
  | poll
  /-- The token fires while the source has nothing ready. -/
  | release
  | putBack

/-- Why a read is refused before it touches the source. -/
inductive Refusal where
  | closed
  | directionMismatch

def Refusal.code : Refusal → Int
  | closed => STREAM_CLOSED
  | directionMismatch => STREAM_DIRECTION_MISMATCH

inductive ReadEvent where
  | quiet
  | refused (reader : Nat) (why : Refusal)
  /-- A read with a buffer of `size` bytes returns what `pull` brought. -/
  | returned (reader size : Nat) (pull : Pull)

def Reads.setReader (c : Reads) (r : Nat) (reading : Reading) : Reads :=
  { c with readers := Function.update c.readers r reading }

def Reads.setStream (c : Reads) (inner : StreamInner) (gate : Option Nat) : Reads :=
  { c with stream := { c.stream with inner := inner, readGate := gate } }

/-- The read gives up the gate and returns. -/
def Reads.leave (c : Reads) (r : Nat) (inner : StreamInner) (e : ReadEvent) : ReadEvent × Reads :=
  (e, (c.setStream inner none).setReader r .idle)

/-- Where a read goes on once it has swapped the source and the leftover out. -/
def Reading.swapped (size : Nat) (source : Source) : Option Bytes → Reading
  | some bytes => .pulled size source (.chunk bytes)
  | none => .pulling size source

def swapOut (c : Reads) (r size : Nat) : ReadEvent × Reads :=
  if c.stream.inner.closed then c.leave r c.stream.inner (.refused r .closed)
  else
    match c.stream.inner.direction with
    | .writable => c.leave r c.stream.inner (.refused r .directionMismatch)
    | .readable source leftover =>
      (.quiet, (c.setStream c.stream.inner.stub c.stream.readGate).setReader r
        (.swapped size source leftover))

/-- One step of the read `r`. -/
def readStep (c : Reads) (r : Nat) (choice : ReadChoice) : Option (ReadEvent × Reads) :=
  match choice, c.readers r with
  | .call size, .idle => some (.quiet, c.setReader r (.gated size))
  | .lock, .gated size =>
    if c.stream.readGate.isNone then
      some (.quiet, (c.setStream c.stream.inner (some r)).setReader r (.entered size))
    else none
  | .swap, .entered size => some (swapOut c r size)
  | .poll, .pulling size source => some (.quiet, c.setReader r (pollSource size source))
  | .release, .pulling size source =>
    if source.canWait then some (.quiet, c.setReader r (.pulled size source .released)) else none
  | .putBack, .pulled size source pull =>
    some (c.leave r (c.stream.inner.putBack size source pull) (.returned r size pull))
  | _, _ => none

def ReadStep (c : Reads) (e : ReadEvent) (c' : Reads) : Prop :=
  ∃ r choice, readStep c r choice = some (e, c')

abbrev ReadRun : Reads → List ReadEvent → Reads → Prop := Transition.Run ReadStep

/-- A fresh readable and nobody reading it. -/
def openReadable (contentType : String) (source : Source) : Reads :=
  ⟨.register contentType (.readable source none), fun _ => .idle⟩

/-- Let the reads make their steps in the order of the list. -/
def driveReads : List (Nat × ReadChoice) → Reads → Option (List ReadEvent × Reads) :=
  Transition.drive fun c (r, choice) => readStep c r choice

theorem driveReads_run {choices : List (Nat × ReadChoice)} {c c' : Reads} {es : List ReadEvent}
    (h : driveReads choices c = some (es, c')) : ReadRun c es c' :=
  Transition.drive_run (fun choice _ _ _ _ hstep => ⟨choice.1, choice.2, hstep⟩) h

end Gwead
