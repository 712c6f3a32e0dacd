import Gwead.GuestCalls
import Gwead.Lib.Footprint
import Gwead.Pipe

/-!
# The imports that touch a guest's memory

A guest passes pointers and lengths as `i32`s, and each import makes a range of them and indexes
the guest's memory with it.  An index out of range would be a panic of the host.
-/

namespace Gwead

open Wrap (asI32)

def STREAM_INVALID_HANDLE : Int := -2
def STREAM_OOB : Int := -6

/-- What the store of a guest holds for its imports, and whether its module exports a memory. -/
structure GuestStore where
  exported : Bool
  slots : CallStash
  /-- The bytes that the text of the result is decoded from. -/
  result : Option Bytes
  error : Option Bytes

abbrev HostFn (α : Type) := Footprint UInt8 GuestStore α

namespace HostFn

open Footprint

def exported : HostFn Bool := look GuestStore.exported

def setSlots (f : CallStash → CallStash) : HostFn Unit :=
  change fun store => { store with slots := f store.slots }

/-- The end of a range, unless the sum overflows or lies beyond the memory. -/
def rangeEnd (start len size : Nat) : Option Nat :=
  if start + len < 2 ^ 64 ∧ start + len ≤ size then some (start + len) else none

/-- `NonZeroU32::new(handle as u32)`. -/
def handleId (handle : Int32) : Option Nat :=
  let raw := (handle.toInt % 2 ^ 32).toNat
  if raw = 0 then none else some raw

def readGuestSlice (ptr len : Int32) : HostFn (Except String Bytes) := do
  if !(← exported) then return .error "script runtime module exports no memory"
  else if ptr.toInt < 0 ∨ len.toInt < 0 then
    return .error ("guest passed negative pointer or length: ptr=" ++ toString ptr.toInt ++
      " len=" ++ toString len.toInt)
  else
    let start := asUsize ptr.toInt
    let size ← size
    match rangeEnd start (asUsize len.toInt) size with
    | some stop => return .ok (← load start stop)
    | none =>
      return .error ("guest pointer range out of bounds: ptr=" ++ toString ptr.toInt ++ " len=" ++
        toString len.toInt ++ " memory=" ++ toString size)

/-- What an import answers: a code, nothing, or a trap of the guest. -/
inductive Answer where
  | code (n : Int)
  | returned
  | trapped (message : String)
  deriving DecidableEq

/-- Let the store keep the bytes of a slice. -/
def keepSlice (keep : Bytes → GuestStore → GuestStore) (ptr len : Int32) : HostFn Answer := do
  match ← readGuestSlice ptr len with
  | .error e => return .trapped e
  | .ok bytes =>
    change (keep bytes)
    return .returned

def hostSetResult : Int32 → Int32 → HostFn Answer :=
  keepSlice fun bytes store => { store with result := some bytes }

def hostSetError : Int32 → Int32 → HostFn Answer :=
  keepSlice fun bytes store => { store with error := some bytes }

/-- The stash is taken before the range is looked at. -/
def hostCallResultRead (bufPtr maxLen : Int32) : HostFn Int := do
  if !(← exported) then return -1
  else
    let slots ← look GuestStore.slots
    setSlots fun slots => slots.take.2
    match slots.take.1 with
    | none => return 0
    | some bytes =>
      let copyLen := min bytes.length (asUsize maxLen.toInt)
      let start := asUsize bufPtr.toInt
      match rangeEnd start copyLen (← size) with
      | none => return -1
      | some stop =>
        store start stop (← first bytes copyLen)
        return (min copyLen i32Max : Nat)

/-! ### Streams -/

/-- How a call of `read_async` ends. -/
inductive ReadEnd where
  | refused (why : Refusal)
  | pulled (pull : Pull)

/-- How a call of `write_async` ends. -/
inductive WriteEnd where
  | closed
  | directionMismatch
  | committed
  | cancelled

def WriteEnd.code (data : Bytes) : WriteEnd → Int
  | closed => STREAM_CLOSED
  | directionMismatch => STREAM_DIRECTION_MISMATCH
  | committed => asI32 data.length
  | cancelled => STREAM_CANCELLED

/-- The end of `read_async` on the buffer of `size` bytes at `start`. -/
def readAsync (start size : Nat) : ReadEnd → HostFn Int
  | .refused why => return why.code
  | .pulled (.chunk bytes) => do
    let n := min size bytes.length
    borrow start (start + n)
    store start (start + n) (← first bytes n)
    return asI32 n
  | .pulled pull => return pull.code size

def tellCancelled (n : Int) : HostFn Unit :=
  setSlots fun slots => { slots with toldOfCancel := slots.toldOfCancel || n == STREAM_CANCELLED }

/-- `streams` says which handles the registry has, and how a read with a buffer of some size will
end on each. -/
def streamRead (streams : Nat → Option (Nat → ReadEnd)) (handle bufPtr bufLen : Int32) :
    HostFn Int := do
  match handleId handle with
  | none => return STREAM_INVALID_HANDLE
  | some id =>
    if !(← exported) then return STREAM_IO_ERROR
    else
      let start := asUsize bufPtr.toInt
      match rangeEnd start (asUsize bufLen.toInt) (← size) with
      | none => return STREAM_OOB
      | some stop =>
        borrow start stop
        let n ← match streams id with
          | none => pure STREAM_INVALID_HANDLE
          | some read => readAsync start (stop - start) (read (stop - start))
        tellCancelled n
        return n

def streamWrite (streams : Nat → Option (Bytes → WriteEnd)) (handle bufPtr bufLen : Int32) :
    HostFn Int := do
  match handleId handle with
  | none => return STREAM_INVALID_HANDLE
  | some id =>
    if !(← exported) then return STREAM_IO_ERROR
    else
      let start := asUsize bufPtr.toInt
      match rangeEnd start (asUsize bufLen.toInt) (← size) with
      | none => return STREAM_OOB
      | some stop =>
        let data ← load start stop
        let n := match streams id with
          | none => STREAM_INVALID_HANDLE
          | some write => (write data).code data
        tellCancelled n
        return n

def writeGuestSlice (ptr : Int32) (payload : Bytes) (what : String) :
    HostFn (Except String Unit) := do
  if ptr.toInt < 0 then
    return .error ("guest alloc returned a negative " ++ what ++ " pointer (" ++
      toString ptr.toInt ++ ")")
  else
    let start := asUsize ptr.toInt
    let size ← size
    if 2 ^ 64 ≤ start + payload.length then
      return .error ("guest " ++ what ++ " pointer " ++ toString ptr.toInt ++ " + length overflows")
    else if size < start + payload.length then
      return .error ("guest alloc returned an out-of-bounds " ++ what ++ " pointer: " ++
        toString start ++ ".." ++ toString (start + payload.length) ++
        " exceeds linear memory of " ++ toString size ++ " bytes")
    else
      store start (start + payload.length) payload
      return .ok ()

/-- `texts` says which handles the registry has, and the text recorded on each. -/
def streamLastError (texts : Nat → Option (Option String)) (handle bufPtr bufLen : Int32) :
    HostFn Int := do
  match handleId handle with
  | none => return STREAM_INVALID_HANDLE
  | some id =>
    if !(← exported) then return STREAM_IO_ERROR
    else
      match rangeEnd (asUsize bufPtr.toInt) (asUsize bufLen.toInt) (← size) with
      | none => return STREAM_OOB
      | some _ =>
        let room := asUsize bufLen.toInt
        match texts id with
        | none => return STREAM_INVALID_HANDLE
        | some none => return 0
        | some (some text) =>
          let bytes := utf8 text
          match ← writeGuestSlice bufPtr (← first bytes (min bytes.length room))
            "stream_last_error" with
          | .error _ => return STREAM_OOB
          | .ok () => return (min bytes.length i32Max : Nat)

/-! ### Invokes -/

/-- The closure with which an invoke reads its arguments. -/
def readArgument (size : Nat) (ptr len : Int32) : HostFn (Option Bytes) := do
  let start := asUsize ptr.toInt
  match rangeEnd start (asUsize len.toInt) size with
  | none => return none
  | some stop => return some (← load start stop)

section Invoke

variable {ξ : Type} (codec : GuestCodec)

/-- What the bytes of the three arguments say. -/
def decodeArguments (op : String) (target action input : Bytes) :
    Except String (Value × String × Value) :=
  match codec.fromSlice target with
  | .error e => .error (op ++ " target JSON: " ++ e)
  | .ok target =>
    match codec.fromUtf8 action with
    | .error e => .error (op ++ " action utf-8: " ++ e)
    | .ok action =>
      match codec.fromSlice input with
      | .error e => .error (op ++ " input JSON: " ++ e)
      | .ok input => .ok (target, action, input)

/-- `host_invoke` once its arguments are read. -/
def dispatchInvoke (m : GuestMoment ξ) : Except String (Value × String × Value) → GuestOutcome
  | .error e => .bailed e
  | .ok (target, action, input) =>
    match m.kernel.guestInvoke "io.invoke" m.wrapped m.execution target action input with
    | .error e => .bailed e
    | .ok callee =>
      match (m.kernel.executeActionInvoked m.now callee (some m.cancel) m.deadline).bind m.run with
      | .ok result => .answered ((codec.toVec result.output).getD (utf8 "null"))
      | .error e =>
        .failed ("io.invoke → " ++ callee.plugin ++ "." ++ callee.action ++ " failed: " ++
          e.display) (m.fired && stoppedByCancellation e)

def finishInvoke (outcome : GuestOutcome) : HostFn Int := do
  setSlots fun slots => outcome.stash slots
  return outcome.code

def hostInvoke (m : GuestMoment ξ) (target action input : Int32 × Int32) : HostFn Int := do
  if !(← exported) then finishInvoke (.bailed "wasm linear memory not exported")
  else
    let size ← size
    let t ← readArgument size target.1 target.2
    let a ← readArgument size action.1 action.2
    let i ← readArgument size input.1 input.2
    match t, a, i with
    | some t, some a, some i =>
      finishInvoke (dispatchInvoke codec m (decodeArguments codec "host_invoke" t a i))
    | _, _, _ => finishInvoke (.bailed "host_invoke OOB read")

end Invoke

end HostFn

end Gwead
