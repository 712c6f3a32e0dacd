import Gwead.GuestFootprints

/-!
# What the imports do to a guest's memory

No import reaches outside of the buffers that the guest passed to it, but for one: a fetch with a
negative capacity is not limited by it.
-/

namespace Gwead

open Footprint

/-- A guest at one of its imports.  A slice has at most `isize::MAX` bytes. -/
structure Guest where
  state : WithMemory UInt8 GuestStore
  fits : state.memory.length < 2 ^ 63

/-- The imports that are given a buffer, with what their streams and their kernel will answer. -/
inductive BufferImport (ξ : Type) where
  | setResult (ptr len : Int32)
  | setError (ptr len : Int32)
  | callResultRead (bufPtr maxLen : Int32)
  | streamRead (streams : Nat → Option (Nat → HostFn.ReadEnd)) (handle bufPtr bufLen : Int32)
  | streamWrite (streams : Nat → Option (Bytes → HostFn.WriteEnd)) (handle bufPtr bufLen : Int32)
  | streamLastError (texts : Nat → Option (Option String)) (handle bufPtr bufLen : Int32)
  | invoke (m : GuestMoment ξ) (target action input : Int32 × Int32)

namespace BufferImport

variable {ξ : Type}

def run (codec : GuestCodec) : BufferImport ξ → HostFn HostFn.Answer
  | setResult ptr len => HostFn.hostSetResult ptr len
  | setError ptr len => HostFn.hostSetError ptr len
  | callResultRead bufPtr maxLen => .code <$> HostFn.hostCallResultRead bufPtr maxLen
  | streamRead streams handle bufPtr bufLen =>
    .code <$> HostFn.streamRead streams handle bufPtr bufLen
  | streamWrite streams handle bufPtr bufLen =>
    .code <$> HostFn.streamWrite streams handle bufPtr bufLen
  | streamLastError texts handle bufPtr bufLen =>
    .code <$> HostFn.streamLastError texts handle bufPtr bufLen
  | invoke m target action input => .code <$> HostFn.hostInvoke codec m target action input

/-- The pointers with their lengths or capacities. -/
def buffers : BufferImport ξ → List (Int32 × Int32)
  | setResult ptr len => [(ptr, len)]
  | setError ptr len => [(ptr, len)]
  | callResultRead bufPtr maxLen => [(bufPtr, maxLen)]
  | streamRead _ _ bufPtr bufLen => [(bufPtr, bufLen)]
  | streamWrite _ _ bufPtr bufLen => [(bufPtr, bufLen)]
  | streamLastError _ _ bufPtr bufLen => [(bufPtr, bufLen)]
  | invoke _ target action input => [target, action, input]

/-- How many bytes the import may write. -/
def capacity : BufferImport ξ → Int
  | callResultRead _ maxLen => maxLen.toInt
  | streamRead _ _ _ bufLen => bufLen.toInt
  | streamLastError _ _ _ bufLen => bufLen.toInt
  | _ => 0

/-- The import answers with the number of bytes it wrote. -/
def Counts : BufferImport ξ → Prop
  | callResultRead .. => True
  | streamRead .. => True
  | _ => False

end BufferImport

/-- The buffer is one, and the byte is in it. -/
def Holds (b : Int32 × Int32) (i : Nat) : Prop :=
  0 ≤ b.1.toInt ∧ 0 ≤ b.2.toInt ∧ b.1.toInt ≤ i ∧ (i : Int) < b.1.toInt + b.2.toInt

def Negative (b : Int32 × Int32) : Prop := b.1.toInt < 0 ∨ b.2.toInt < 0

/-- What is touched is in the buffers, and in a memory of `size` bytes. -/
def Inside (buffers : List (Int32 × Int32)) (size : Nat) (es : List Access) : Prop :=
  ∀ a ∈ es, ∀ i, a.Covers i → (∃ b ∈ buffers, Holds b i) ∧ i < size

section Properties

variable {ξ : Type} (codec : GuestCodec) (call : BufferImport ξ) (g : Guest)

/-- What an import shows is inside its buffers and its guest's memory, and no more is written than
there is room for, and as much as it says. -/
structure KeepsTo (answer : HostFn.Answer) (es : List Access) : Prop where
  inside : Inside call.buffers g.state.memory.length es
  capacity : (Access.writtenIn es : Int) ≤ max 0 call.capacity
  count : call.Counts → ∀ n, answer = .code n → (Access.writtenIn es : Int) = max 0 n

/-- The import returns, and what it shows is all it touches: no other byte is changed, and on a
memory that differs in other bytes only it does the same. -/
structure Touches (answer : HostFn.Answer) (s' : WithMemory UInt8 GuestStore) (es : List Access) :
    Prop where
  run : call.run codec g.state = (.ok answer s', es)
  length : s'.memory.length = g.state.memory.length
  frame : ∀ i, (∀ a ∈ es, ¬a.Changes i) → s'.memory[i]? = g.state.memory[i]?
  blind : ∀ memory : List UInt8, memory.length = g.state.memory.length →
    (∀ a ∈ es, ∀ i, a.Covers i → memory[i]? = g.state.memory[i]?) →
      Alike (call.run codec) g.state memory answer s' es

/-- With a negative pointer, length or capacity among the arguments no byte is touched. -/
def NegativeUntouched (es : List Access) : Prop :=
  (∃ b ∈ call.buffers, Negative b) → ∀ a ∈ es, ∀ i, ¬a.Covers i

def BuffersRespected : Prop := ∃ answer s' es, Touches codec call g answer s' es ∧
  KeepsTo call g answer es ∧ NegativeUntouched call es

/-- Each buffer is respected for itself, whatever the others are. -/
def EachRespected : Prop :=
  ∃ answer s' es, Touches codec call g answer s' es ∧ KeepsTo call g answer es

end Properties

/-- What a fetch makes of the stash, the pointer and the capacity. -/
inductive Fetched (g : Guest) (bufPtr maxLen : Int32) : Int → List Access → Prop
  | nothing {n : Int} (h : n ≤ 0)
      (hwhy : g.state.rest.exported = false ∨ ∀ bytes, g.state.rest.slots.take.1 = some bytes →
        g.state.memory.length < asUsize bufPtr.toInt + min bytes.length (asUsize maxLen.toInt)) :
      Fetched g bufPtr maxLen n []
  | copied {bytes : Bytes} {k : Nat} (hexported : g.state.rest.exported = true)
      (htake : g.state.rest.slots.take.1 = some bytes)
      (hk : k = min bytes.length (asUsize maxLen.toInt))
      (hroom : asUsize bufPtr.toInt + k ≤ g.state.memory.length) :
      Fetched g bufPtr maxLen (min k i32Max : Nat)
        [.write (asUsize bufPtr.toInt) (asUsize bufPtr.toInt + k)]

/-- A fetch with a negative capacity, of a stash that is not empty and fits into the memory. -/
structure UnlimitedFetch (g : Guest) (bufPtr maxLen : Int32) : Prop where
  negative : maxLen.toInt < 0
  pointer : 0 ≤ bufPtr.toInt
  exported : g.state.rest.exported = true
  stash : ∃ bytes, g.state.rest.slots.take.1 = some bytes ∧ bytes ≠ [] ∧
    bufPtr.toInt + bytes.length ≤ g.state.memory.length

def Readable (g : Guest) (b : Int32 × Int32) : Prop :=
  0 ≤ b.1.toInt ∧ 0 ≤ b.2.toInt ∧ b.1.toInt + b.2.toInt ≤ g.state.memory.length

instance (g : Guest) (b : Int32 × Int32) : Decidable (Readable g b) := by
  unfold Readable
  infer_instance

/-- An argument with a negative pointer or length, and another one that bytes are read for. -/
structure ReadBeside (g : Guest) (arguments : List (Int32 × Int32)) : Prop where
  exported : g.state.rest.exported = true
  negative : ∃ b ∈ arguments, Negative b
  beside : ∃ b ∈ arguments, Readable g b ∧ 0 < b.2.toInt

namespace BufferImport

variable {ξ : Type}

/-- The import is not a fetch that its capacity does not limit. -/
def Limited (g : Guest) : BufferImport ξ → Prop
  | callResultRead bufPtr maxLen => ¬UnlimitedFetch g bufPtr maxLen
  | _ => True

/-- The import is not an invoke that reads beside a negative argument. -/
def ReadsTogether (g : Guest) : BufferImport ξ → Prop
  | invoke _ target action input => ¬ReadBeside g [target, action, input]
  | _ => True

end BufferImport

/-! ### Ranges -/

theorem asUsize_toInt (n : Int32) : (0 ≤ n.toInt ∧ (asUsize n.toInt : Int) = n.toInt) ∨
    (n.toInt < 0 ∧ 2 ^ 63 ≤ asUsize n.toInt) := by
  have hlt := n.toInt_lt
  have hle := n.le_toInt
  unfold asUsize
  omega

theorem rangeEnd_some {start len size stop : Nat} (h : HostFn.rangeEnd start len size = some stop) :
    stop = start + len ∧ stop ≤ size := by
  rw [HostFn.rangeEnd] at h
  split at h
  · rename_i hrange
    cases h
    exact ⟨rfl, hrange.2⟩
  · cases h

/-- The range that an import makes of a pointer and a length is in the buffer. -/
theorem rangeEnd_buffer {g : Guest} {ptr len : Int32} {stop : Nat}
    (h : HostFn.rangeEnd (asUsize ptr.toInt) (asUsize len.toInt) g.state.memory.length =
      some stop) :
    0 ≤ ptr.toInt ∧ 0 ≤ len.toInt ∧ (asUsize ptr.toInt : Int) = ptr.toInt ∧
      (asUsize len.toInt : Int) = len.toInt ∧ (stop : Int) = ptr.toInt + len.toInt ∧
      asUsize ptr.toInt ≤ stop ∧ stop ≤ g.state.memory.length := by
  obtain ⟨rfl, hsize⟩ := rangeEnd_some h
  have hfits := g.fits
  rcases asUsize_toInt ptr with ⟨hptr, hptr'⟩ | ⟨hptr, hptr'⟩ <;>
    rcases asUsize_toInt len with ⟨hlen, hlen'⟩ | ⟨hlen, hlen'⟩ <;> omega

theorem inside_nil (buffers : List (Int32 × Int32)) (size : Nat) : Inside buffers size [] :=
  fun _ h => nomatch h

theorem inside_singleton {buffers : List (Int32 × Int32)} {b : Int32 × Int32} {size : Nat}
    {a : Access} (hb : b ∈ buffers) (hptr : 0 ≤ b.1.toInt) (hlen : 0 ≤ b.2.toInt)
    (hstart : (a.start : Int) = b.1.toInt) (hstop : (a.stop : Int) ≤ b.1.toInt + b.2.toInt)
    (hsize : a.stop ≤ size) : Inside buffers size [a] := by
  intro a' ha i ⟨hi, hi'⟩
  cases List.mem_singleton.mp ha
  exact ⟨⟨b, hb, hptr, hlen, by omega, by omega⟩, by omega⟩

/-- What is written fits into the one buffer, and is as much as the code says. -/
structure Fills (b : Int32 × Int32) (size : Nat) (n : Int) (es : List Access) : Prop where
  inside : Inside [b] size es
  capacity : (Access.writtenIn es : Int) ≤ max 0 b.2.toInt
  count : (Access.writtenIn es : Int) = max 0 n

theorem fills_nil {b : Int32 × Int32} {size : Nat} {n : Int} (h : n ≤ 0) : Fills b size n [] :=
  ⟨inside_nil _ _, le_max_left _ _, (max_eq_left h).symm⟩

theorem fills_write {b : Int32 × Int32} {size start k : Nat} (hptr : 0 ≤ b.1.toInt)
    (hstart : (start : Int) = b.1.toInt) (hk : (k : Int) ≤ b.2.toInt) (hsize : start + k ≤ size) :
    Fills b size k [.write start (start + k)] := by
  have hwritten : Access.writtenIn [.write start (start + k)] = k := by
    simp [Access.writtenIn, Access.written]
  refine ⟨inside_singleton (List.mem_singleton_self _) hptr (by omega) hstart ?_ hsize, ?_, ?_⟩
  · simp only [Access.stop]
    omega
  · rw [hwritten]
    exact hk.trans (le_max_right _ _)
  · rw [hwritten]
    exact (max_eq_right (Int.natCast_nonneg k)).symm

theorem fills_write_nothing (b : Int32 × Int32) (size start : Nat) :
    Fills b size 0 [.write start start] := by
  have hwritten : Access.writtenIn [.write start start] = 0 := by
    simp [Access.writtenIn, Access.written]
  refine ⟨fun a ha i hi => ?_, ?_, ?_⟩
  · cases List.mem_singleton.mp ha
    exact absurd hi.2 (Nat.not_lt.mpr hi.1)
  · rw [hwritten]
    exact le_max_left _ _
  · rw [hwritten]
    rfl

/-! ### What each import does -/

open Traced

section Imports

variable (g : Guest)

theorem ends_readGuestSlice (ptr len : Int32) :
    Ends (HostFn.readGuestSlice ptr len) g.state
      (fun _ _ es => Inside [(ptr, len)] g.state.memory.length es ∧ Access.writtenIn es = 0)
      fun _ _ _ => False := by
  rw [HostFn.readGuestSlice, HostFn.exported, ends_look_bind]
  split
  · exact ⟨inside_nil _ _, rfl⟩
  · split
    · exact ⟨inside_nil _ _, rfl⟩
    · rw [ends_size_bind]
      cases hrange : HostFn.rangeEnd (asUsize ptr.toInt) (asUsize len.toInt)
          g.state.memory.length with
      | none => exact ⟨inside_nil _ _, rfl⟩
      | some stop =>
        obtain ⟨hptr, hlen, hstart, -, hstop, hle, hsize⟩ := rangeEnd_buffer hrange
        simp only
        rw [ends_load_bind hle hsize]
        exact ⟨inside_singleton (List.mem_singleton_self _) hptr hlen hstart
          (by simp only [Access.stop]; omega) hsize, rfl⟩

theorem ends_keepSlice (keep : Bytes → GuestStore → GuestStore) (ptr len : Int32) :
    Ends (HostFn.keepSlice keep ptr len) g.state
      (fun _ _ es => Inside [(ptr, len)] g.state.memory.length es ∧ Access.writtenIn es = 0)
      fun _ _ _ => False := by
  rw [HostFn.keepSlice, ends_bind]
  refine (ends_readGuestSlice g ptr len).mono (fun slice s' es h => ?_) fun _ _ _ h => h
  cases slice with
  | error e =>
    rw [← List.append_nil es] at h
    exact h
  | ok bytes =>
    simp only
    rw [ends_change_bind]
    rw [← List.append_nil es] at h
    exact h

/-- The part of a read that fills the buffer writes to its beginning. -/
theorem ends_readAsync {s : WithMemory UInt8 GuestStore} {start size : Nat}
    (hroom : start + size ≤ s.memory.length) (e : HostFn.ReadEnd) :
    Ends (HostFn.readAsync start size e) s
      (fun n _ es => (n < 0 ∧ es = []) ∨ ∃ k, k ≤ size ∧ n = Wrap.asI32 k ∧
        es = [.write start (start + k)])
      fun _ _ _ => False := by
  cases e with
  | refused why => cases why <;> exact Or.inl ⟨by decide, rfl⟩
  | pulled pull =>
    cases pull with
    | chunk bytes =>
      have hk : min size bytes.length ≤ size := Nat.min_le_left _ _
      rw [HostFn.readAsync, ends_borrow_bind (by omega) (by omega),
        ends_first_bind (Nat.min_le_right _ _),
        ends_store_bind (by omega) (by omega) (by rw [List.length_take]; omega)]
      exact Or.inr ⟨_, hk, rfl, rfl⟩
    | error text => exact Or.inl ⟨(by decide : STREAM_IO_ERROR < 0), rfl⟩
    | eof => exact Or.inl ⟨(by decide : STREAM_EOF < 0), rfl⟩
    | released => exact Or.inl ⟨(by decide : STREAM_CANCELLED < 0), rfl⟩

theorem ends_streamRead (streams : Nat → Option (Nat → HostFn.ReadEnd))
    (handle bufPtr bufLen : Int32) :
    Ends (HostFn.streamRead streams handle bufPtr bufLen) g.state
      (fun n _ es => Fills (bufPtr, bufLen) g.state.memory.length n es) fun _ _ _ => False := by
  rw [HostFn.streamRead]
  cases hid : HostFn.handleId handle with
  | none => exact fills_nil (by decide)
  | some id =>
    simp only [HostFn.exported]
    rw [ends_look_bind]
    split
    · exact fills_nil (by decide)
    · rw [ends_size_bind]
      cases hrange : HostFn.rangeEnd (asUsize bufPtr.toInt) (asUsize bufLen.toInt)
          g.state.memory.length with
      | none => exact fills_nil (by decide)
      | some stop =>
        obtain ⟨hptr, hlen, hstart, -, hstop, hle, hsize⟩ := rangeEnd_buffer hrange
        have hlt := bufLen.toInt_lt
        simp only
        rw [ends_borrow_bind hle hsize]
        cases streams id with
        | none => exact fills_nil (by decide)
        | some read =>
          simp only
          rw [ends_bind]
          refine (ends_readAsync (by omega) _).mono (fun n _ es h => ?_) fun _ _ _ h => h
          rw [HostFn.tellCancelled, HostFn.setSlots, ends_change_bind]
          show Fills _ _ _ (es ++ [])
          rw [List.append_nil]
          rcases h with ⟨hn, rfl⟩ | ⟨k, hk, rfl, rfl⟩
          · exact fills_nil hn.le
          · rw [Wrap.asI32_of_fits (by unfold Wrap.FitsI32; omega)]
            exact fills_write hptr hstart (by simp only; omega) (by omega)

theorem ends_streamWrite (streams : Nat → Option (Bytes → HostFn.WriteEnd))
    (handle bufPtr bufLen : Int32) :
    Ends (HostFn.streamWrite streams handle bufPtr bufLen) g.state
      (fun _ _ es => Inside [(bufPtr, bufLen)] g.state.memory.length es ∧
        Access.writtenIn es = 0) fun _ _ _ => False := by
  rw [HostFn.streamWrite]
  cases hid : HostFn.handleId handle with
  | none => exact ⟨inside_nil _ _, rfl⟩
  | some id =>
    simp only [HostFn.exported]
    rw [ends_look_bind]
    split
    · exact ⟨inside_nil _ _, rfl⟩
    · rw [ends_size_bind]
      cases hrange : HostFn.rangeEnd (asUsize bufPtr.toInt) (asUsize bufLen.toInt)
          g.state.memory.length with
      | none => exact ⟨inside_nil _ _, rfl⟩
      | some stop =>
        obtain ⟨hptr, hlen, hstart, -, hstop, hle, hsize⟩ := rangeEnd_buffer hrange
        simp only
        rw [ends_load_bind hle hsize]
        exact ⟨inside_singleton (List.mem_singleton_self _) hptr hlen hstart
          (by simp only [Access.stop]; omega) hsize, rfl⟩

/-- Where the payload has room the helper's own checks pass. -/
theorem ends_writeGuestSlice {s : WithMemory UInt8 GuestStore} {ptr : Int32} {payload : Bytes}
    (what : String) (hptr : 0 ≤ ptr.toInt) (hsize : s.memory.length < 2 ^ 63)
    (hroom : asUsize ptr.toInt + payload.length ≤ s.memory.length) :
    Ends (HostFn.writeGuestSlice ptr payload what) s
      (fun answer _ es => answer = .ok () ∧
        es = [.write (asUsize ptr.toInt) (asUsize ptr.toInt + payload.length)])
      fun _ _ _ => False := by
  rw [HostFn.writeGuestSlice, if_neg (by omega), ends_size_bind]
  rw [if_neg (by omega), if_neg (by omega), ends_store_bind (by omega) hroom (by omega)]
  exact ⟨rfl, rfl⟩

theorem ends_streamLastError (texts : Nat → Option (Option String))
    (handle bufPtr bufLen : Int32) :
    Ends (HostFn.streamLastError texts handle bufPtr bufLen) g.state
      (fun _ _ es => ∃ n, Fills (bufPtr, bufLen) g.state.memory.length n es)
      fun _ _ _ => False := by
  rw [HostFn.streamLastError]
  cases hid : HostFn.handleId handle with
  | none => exact ⟨0, fills_nil (by decide)⟩
  | some id =>
    simp only [HostFn.exported]
    rw [ends_look_bind]
    split
    · exact ⟨0, fills_nil (by decide)⟩
    · rw [ends_size_bind]
      cases hrange : HostFn.rangeEnd (asUsize bufPtr.toInt) (asUsize bufLen.toInt)
          g.state.memory.length with
      | none => exact ⟨0, fills_nil (by decide)⟩
      | some stop =>
        obtain ⟨hptr, hlen, hstart, hlen', hstop, hle, hsize⟩ := rangeEnd_buffer hrange
        have hlt := bufPtr.toInt_lt
        simp only
        cases texts id with
        | none => exact ⟨0, fills_nil (by decide)⟩
        | some text =>
          cases text with
          | none => exact ⟨0, fills_nil (by decide)⟩
          | some text =>
            have hk := Nat.min_le_right (utf8 text).length (asUsize bufLen.toInt)
            have hhead := List.length_take_of_le (Nat.min_le_left (utf8 text).length
              (asUsize bufLen.toInt))
            simp only
            rw [ends_first_bind (Nat.min_le_left _ _), ends_bind]
            refine (ends_writeGuestSlice _ hptr g.fits (by rw [hhead]; omega)).mono
              (fun answer _ es h => ?_) fun _ _ _ h => h
            obtain ⟨rfl, rfl⟩ := h
            rw [hhead]
            exact ⟨_, fills_write hptr hstart (by simp only; omega) (by omega)⟩

theorem ends_hostCallResultRead (bufPtr maxLen : Int32) :
    Ends (HostFn.hostCallResultRead bufPtr maxLen) g.state
      (fun n _ es => Fetched g bufPtr maxLen n es) fun _ _ _ => False := by
  rw [HostFn.hostCallResultRead, HostFn.exported, ends_look_bind]
  cases hexported : g.state.rest.exported with
  | false => exact .nothing (by decide) (Or.inl hexported)
  | true =>
    rw [if_neg (by decide), ends_look_bind, HostFn.setSlots, ends_change_bind]
    cases htake : g.state.rest.slots.take.1 with
    | none => exact .nothing (by decide) (Or.inr fun bytes h => by cases htake.symm.trans h)
    | some bytes =>
      simp only
      rw [ends_size_bind]
      cases hrange : HostFn.rangeEnd (asUsize bufPtr.toInt)
          (min bytes.length (asUsize maxLen.toInt)) g.state.memory.length with
      | none =>
        refine .nothing (by decide) (Or.inr fun bytes' h => ?_)
        cases htake.symm.trans h
        have hfits := g.fits
        rw [HostFn.rangeEnd] at hrange
        split at hrange
        · cases hrange
        · omega
      | some stop =>
        obtain ⟨rfl, hsize⟩ := rangeEnd_some hrange
        simp only
        rw [ends_first_bind (Nat.min_le_left _ _)]
        refine (ends_store_bind (by omega) ?_ (by rw [List.length_take]; omega)).mpr ?_
        · exact hsize
        · exact .copied hexported htake rfl hsize

variable {g}

/-- A fetch keeps to the buffer exactly if its capacity limits it. -/
theorem Fetched.fills_iff {bufPtr maxLen : Int32} {n : Int} {es : List Access}
    (h : Fetched g bufPtr maxLen n es) :
    Fills (bufPtr, maxLen) g.state.memory.length n es ↔ ¬UnlimitedFetch g bufPtr maxLen := by
  have hfits := g.fits
  cases h with
  | nothing hn hwhy =>
    refine ⟨fun _ hfetch => ?_, fun _ => fills_nil hn⟩
    obtain ⟨bytes, htake, -, hroom⟩ := hfetch.stash
    rcases hwhy with hexported | hwhy
    · cases hexported.symm.trans hfetch.exported
    · have hlt := hwhy bytes htake
      rcases asUsize_toInt bufPtr with ⟨hptr, hptr'⟩ | ⟨hptr, hptr'⟩
      · omega
      · have hpointer := hfetch.pointer
        omega
  | copied hexported htake hk hroom =>
    rename_i bytes k
    rcases asUsize_toInt bufPtr with ⟨hptr, hptr'⟩ | ⟨hptr, hptr'⟩
    · rcases asUsize_toInt maxLen with ⟨hmax, hmax'⟩ | ⟨hmax, hmax'⟩
      · have hlt := maxLen.toInt_lt
        refine ⟨fun _ hfetch => ?_, fun _ => ?_⟩
        · have hnegative := hfetch.negative
          omega
        · rw [Nat.min_eq_left (by unfold i32Max; omega)]
          exact fills_write hptr hptr' (by simp only; omega) hroom
      · -- the capacity is taken for a huge one, and the whole stash is copied
        have hall : k = bytes.length := by omega
        constructor
        · intro hfills hfetch
          obtain ⟨bytes', htake', hbytes, -⟩ := hfetch.stash
          cases htake.symm.trans htake'
          have hpos := List.length_pos_of_ne_nil hbytes
          obtain ⟨⟨b, hb, -, hlen, -⟩, -⟩ := hfills.inside _ (List.mem_singleton_self _)
            (asUsize bufPtr.toInt) ⟨Nat.le_refl _, by simp only [Access.stop]; omega⟩
          cases List.mem_singleton.mp hb
          simp only at hlen
          omega
        · intro hlimited
          have hempty : bytes = [] := by
            by_contra hbytes
            exact hlimited ⟨hmax, hptr, hexported, bytes, htake, hbytes, by omega⟩
          rw [hempty, List.length_nil] at hall
          subst hall
          exact fills_write_nothing _ _ _
    · omega

/-- The range that is read for an argument. -/
def argumentRead (g : Guest) (b : Int32 × Int32) : List Access :=
  if Readable g b then [.read (asUsize b.1.toInt) (asUsize b.1.toInt + asUsize b.2.toInt)] else []

theorem readable_iff {b : Int32 × Int32} : Readable g b ↔
    asUsize b.1.toInt + asUsize b.2.toInt ≤ g.state.memory.length := by
  have hfits := g.fits
  have hptr := asUsize_toInt b.1
  have hlen := asUsize_toInt b.2
  unfold Readable
  omega

/-- An argument is read as if nothing could go wrong. -/
theorem ends_readArgument {s : WithMemory UInt8 GuestStore} (hs : s.memory = g.state.memory)
    (b : Int32 × Int32) :
    Ends (HostFn.readArgument g.state.memory.length b.1 b.2) s
      (fun a s' es => s' = s ∧ a = readGuest g.state.memory (b.1.toInt, b.2.toInt) ∧
        es = argumentRead g b) fun _ _ _ => False := by
  have hfits := g.fits
  rw [HostFn.readArgument, HostFn.rangeEnd, readGuest, argumentRead]
  by_cases hread : Readable g b
  · have hroom := readable_iff.mp hread
    rw [if_pos (by omega), if_pos hread, if_neg (by simp only; omega)]
    refine (ends_load_bind (Nat.le_add_right _ _) (hs ▸ hroom)).mpr ⟨rfl, ?_, rfl⟩
    rw [hs, List.drop_take, Nat.add_sub_cancel_left]
  · have hroom := mt readable_iff.mpr hread
    rw [if_neg (by omega), if_neg hread, if_pos (by simp only; omega)]
    exact ⟨rfl, rfl, rfl⟩

section Invoke

variable {ξ : Type} (codec : GuestCodec)

theorem hostInvoke_eq_dispatch (m : GuestMoment ξ) (call : GuestCall) :
    hostInvoke codec m call =
      HostFn.dispatchInvoke codec m (guestArguments "host_invoke" codec m call) := by
  rw [hostInvoke]
  cases guestArguments "host_invoke" codec m call <;> rfl

/-- The call of a guest with its arguments. -/
def argumentsOf (target action input : Int32 × Int32) : GuestCall :=
  ⟨(target.1.toInt, target.2.toInt), (action.1.toInt, action.2.toInt),
    (input.1.toInt, input.2.toInt)⟩

/-- The three reads, and then what their bytes say. -/
theorem guestArguments_read (op : String) (m : GuestMoment ξ) (memory : Bytes)
    (target action input : Int32 × Int32) :
    guestArguments op codec { m with memory := some memory } (argumentsOf target action input) =
      match readGuest memory (target.1.toInt, target.2.toInt),
        readGuest memory (action.1.toInt, action.2.toInt),
        readGuest memory (input.1.toInt, input.2.toInt) with
      | some t, some a, some i => HostFn.decodeArguments codec op t a i
      | _, _, _ => .error (op ++ " OOB read") := by
  rw [guestArguments]
  rfl

/-- What an invoke of the guest comes to. -/
def invokeOutcome (g : Guest) (m : GuestMoment ξ) (target action input : Int32 × Int32) :
    GuestOutcome :=
  hostInvoke codec { m with memory := if g.state.rest.exported then some g.state.memory else none }
    (argumentsOf target action input)

/-- The import comes to what its arguments come to, and reads each of them that it can. -/
theorem ends_hostInvoke (m : GuestMoment ξ) (target action input : Int32 × Int32) :
    Ends (HostFn.hostInvoke codec m target action input) g.state
      (fun n s' es => n = (invokeOutcome codec g m target action input).code ∧
        s'.rest.slots = (invokeOutcome codec g m target action input).stash g.state.rest.slots ∧
        es = if g.state.rest.exported then [target, action, input].flatMap (argumentRead g)
          else []) fun _ _ _ => False := by
  rw [HostFn.hostInvoke, HostFn.exported, ends_look_bind, invokeOutcome, hostInvoke_eq_dispatch]
  cases hexported : g.state.rest.exported with
  | false => exact ⟨rfl, rfl, rfl⟩
  | true =>
    rw [if_neg (by decide), ends_size_bind, ends_bind]
    refine (ends_readArgument rfl target).mono (fun t _ es h => ?_) fun _ _ _ h => h
    obtain ⟨rfl, rfl, rfl⟩ := h
    rw [ends_bind]
    refine (ends_readArgument rfl action).mono (fun a _ es h => ?_) fun _ _ _ h => h
    obtain ⟨rfl, rfl, rfl⟩ := h
    rw [ends_bind]
    refine (ends_readArgument rfl input).mono (fun i _ es h => ?_) fun _ _ _ h => h
    obtain ⟨rfl, rfl, rfl⟩ := h
    simp only [if_true]
    rw [guestArguments_read]
    have hranges : ∀ outcome : GuestOutcome,
        Ends (HostFn.finishInvoke outcome) g.state
          (fun n s' es => n = outcome.code ∧ s'.rest.slots = outcome.stash g.state.rest.slots ∧
            argumentRead g target ++ (argumentRead g action ++ (argumentRead g input ++ es)) =
              [target, action, input].flatMap (argumentRead g)) fun _ _ _ => False :=
      fun outcome => ⟨rfl, rfl, rfl⟩
    cases readGuest g.state.memory (target.1.toInt, target.2.toInt) with
    | none => exact hranges _
    | some t =>
      cases readGuest g.state.memory (action.1.toInt, action.2.toInt) with
      | none => exact hranges _
      | some a => cases readGuest g.state.memory (input.1.toInt, input.2.toInt) <;> exact hranges _

end Invoke

/-- What is read for an argument is in it. -/
theorem inside_argumentRead {b : Int32 × Int32} {arguments : List (Int32 × Int32)}
    (hb : b ∈ arguments) : Inside arguments g.state.memory.length (argumentRead g b) := by
  rw [argumentRead]
  by_cases hread : Readable g b
  · rw [if_pos hread]
    have hroom := readable_iff.mp hread
    have hfits := g.fits
    obtain ⟨hptr, hlen, -⟩ := hread
    have hptr' := asUsize_toInt b.1
    have hlen' := asUsize_toInt b.2
    exact inside_singleton hb hptr hlen (by simp only [Access.start]; omega)
      (by simp only [Access.stop]; omega) hroom
  · rw [if_neg hread]
    exact inside_nil _ _

/-- Bytes are read for an argument exactly if it is readable and not empty. -/
theorem argumentRead_covers {b : Int32 × Int32} :
    (∃ a ∈ argumentRead g b, ∃ i, a.Covers i) ↔ Readable g b ∧ 0 < b.2.toInt := by
  rw [argumentRead]
  by_cases hread : Readable g b
  · rw [if_pos hread]
    have hlen := hread.2.1
    have hlen' := asUsize_toInt b.2
    constructor
    · rintro ⟨a, ha, i, hi⟩
      cases List.mem_singleton.mp ha
      simp only [Access.Covers, Access.start, Access.stop] at hi
      exact ⟨hread, by omega⟩
    · rintro ⟨-, hpos⟩
      refine ⟨_, List.mem_singleton_self _, asUsize b.1.toInt, Nat.le_refl _, ?_⟩
      simp only [Access.stop]
      omega
  · rw [if_neg hread]
    simp [hread]

/-- An invoke with a negative argument touches no byte exactly if it reads for no other one. -/
theorem argumentReads_untouched {arguments : List (Int32 × Int32)} :
    ((∃ b ∈ arguments, Negative b) → ∀ a ∈ (if g.state.rest.exported then
        arguments.flatMap (argumentRead g) else []), ∀ i, ¬a.Covers i) ↔
      ¬ReadBeside g arguments := by
  cases hexported : g.state.rest.exported with
  | false =>
    refine ⟨fun _ h => ?_, fun _ _ a ha => nomatch ha⟩
    cases hexported.symm.trans h.exported
  | true =>
    rw [if_pos rfl]
    constructor
    · intro h hbeside
      obtain ⟨b, hb, hread⟩ := hbeside.beside
      obtain ⟨a, ha, i, hi⟩ := argumentRead_covers.mpr hread
      exact h hbeside.negative a (List.mem_flatMap.mpr ⟨b, hb, ha⟩) i hi
    · intro h hnegative a ha i hi
      obtain ⟨b, hb, ha⟩ := List.mem_flatMap.mp ha
      exact h ⟨hexported, hnegative, b, hb, argumentRead_covers.mp ⟨a, ha, i, hi⟩⟩

end Imports

/-! ### The stash and the streams behind the imports -/

/-- The fetch that counts its accesses is the one of the call results. -/
theorem hostCallResultRead_agrees (g : Guest) (bufPtr maxLen : Int32) :
    Ends (HostFn.hostCallResultRead bufPtr maxLen) g.state
      (fun n s' _ => hostCallResultRead
          (if g.state.rest.exported then some g.state.memory else none) bufPtr.toInt maxLen.toInt
            g.state.rest.slots =
        ⟨n, if g.state.rest.exported then some s'.memory else none, s'.rest.slots⟩)
      fun _ _ _ => False := by
  rw [HostFn.hostCallResultRead, HostFn.exported, ends_look_bind]
  cases hexported : g.state.rest.exported with
  | false => rfl
  | true =>
    rw [if_neg (by decide), ends_look_bind, HostFn.setSlots, ends_change_bind]
    simp only [if_true, hostCallResultRead]
    cases htake : g.state.rest.slots.take with
    | mk taken slots =>
      cases taken with
      | none => rfl
      | some bytes =>
        simp only
        rw [ends_size_bind, HostFn.rangeEnd]
        by_cases hroom : asUsize bufPtr.toInt + min bytes.length (asUsize maxLen.toInt) ≤
            g.state.memory.length
        · have hfits := g.fits
          have hlen := List.length_take_of_le (Nat.min_le_left bytes.length (asUsize maxLen.toInt))
          rw [if_pos ⟨by omega, hroom⟩, if_neg (by omega), writeGuest, hlen]
          simp only
          rw [ends_first_bind (Nat.min_le_left _ _)]
          refine (ends_store_bind (Nat.le_add_right _ _) ?_ (by rw [hlen]; omega)).mpr ?_
          · exact hroom
          · rfl
        · rw [if_neg fun h => hroom h.2, if_pos (Or.inr (by omega))]
          rfl

/-- What a read on a stream has copied out is what it writes, and its code is the code. -/
theorem readAsync_pulled {s : WithMemory UInt8 GuestStore} {start size : Nat}
    (hroom : start + size ≤ s.memory.length) (pull : Pull) :
    Ends (HostFn.readAsync start size (.pulled pull)) s
      (fun n s' _ => n = pull.code size ∧
        s' = { s with memory := writeGuest s.memory start (pull.copied size) })
      fun _ _ _ => False := by
  have hnothing : { s with memory := writeGuest s.memory start [] } = s := by
    simp [writeGuest]
  cases pull with
  | chunk bytes =>
    have hk := Nat.min_le_left size bytes.length
    have hlen := List.length_take_of_le (Nat.min_le_right size bytes.length)
    rw [HostFn.readAsync, ends_borrow_bind (by omega) (by omega),
      ends_first_bind (Nat.min_le_right _ _), ends_store_bind (by omega) (by omega)
        (by rw [hlen]; omega), Pull.copied, writeGuest, hlen]
    exact ⟨rfl, rfl⟩
  | error text => exact ⟨rfl, hnothing.symm⟩
  | eof => exact ⟨rfl, hnothing.symm⟩
  | released => exact ⟨rfl, hnothing.symm⟩

/-- The size of the buffer a read was called with. -/
def Reading.size? : Reading → Option Nat
  | .idle => none
  | .gated size => some size
  | .entered size => some size
  | .pulling size _ => some size
  | .pulled size _ _ => some size

/-- Whatever the other reads do, a read answers for the buffer it was called with. -/
theorem ReadStep.size {c c' : Reads} {e : ReadEvent} (h : ReadStep c e c') {r n : Nat}
    (hr : (c.readers r).size? = some n) :
    (c'.readers r).size? = some n ∨ (∃ why, e = .refused r why) ∨
      ∃ pull, e = .returned r n pull := by
  have hother : ∀ {r' reading}, (r' = r → reading.size? = some n) →
      (Function.update c.readers r' reading r).size? = some n := by
    intro r' reading hsame
    rw [Function.update_apply]
    split
    · rename_i heq
      exact hsame heq.symm
    · exact hr
  cases h.move with
  | call r' size hidle =>
    refine Or.inl (hother ?_)
    rintro rfl
    rw [hidle] at hr
    cases hr
  | lock r' size hgated _ =>
    refine Or.inl (hother ?_)
    rintro rfl
    rwa [hgated] at hr
  | refuse r' size why hentered _ =>
    by_cases heq : r' = r
    · exact Or.inr (Or.inl ⟨why, by rw [heq]⟩)
    · exact Or.inl (hother fun h => absurd h heq)
  | swap r' size source leftover hentered _ _ =>
    refine Or.inl (hother ?_)
    rintro rfl
    rw [hentered] at hr
    cases leftover <;> exact hr
  | poll r' size source hpulling =>
    refine Or.inl (hother ?_)
    rintro rfl
    rw [hpulling] at hr
    rw [pollSource]
    split
    · split <;> exact hr
    · exact hr
    · exact hr
  | release r' size source hpulling _ =>
    refine Or.inl (hother ?_)
    rintro rfl
    rwa [hpulling] at hr
  | putBack r' size source pull hpulled =>
    by_cases heq : r' = r
    · subst heq
      rw [hpulled] at hr
      cases hr
      exact Or.inr (Or.inr ⟨pull, rfl⟩)
    · exact Or.inl (hother fun h => absurd h heq)

/-! ### What the imports keep to -/

theorem sound_run {ξ : Type} (codec : GuestCodec) (call : BufferImport ξ) :
    Sound (call.run codec) := by
  cases call with
  | setResult ptr len => exact sound_keepSlice _ ptr len
  | setError ptr len => exact sound_keepSlice _ ptr len
  | callResultRead bufPtr maxLen =>
    exact Sound.bind (sound_hostCallResultRead bufPtr maxLen) fun _ => Sound.pure _
  | streamRead streams handle bufPtr bufLen =>
    exact Sound.bind (sound_streamRead streams handle bufPtr bufLen) fun _ => Sound.pure _
  | streamWrite streams handle bufPtr bufLen =>
    exact Sound.bind (sound_streamWrite streams handle bufPtr bufLen) fun _ => Sound.pure _
  | streamLastError texts handle bufPtr bufLen =>
    exact Sound.bind (sound_streamLastError texts handle bufPtr bufLen) fun _ => Sound.pure _
  | invoke m target action input =>
    exact Sound.bind (sound_hostInvoke codec m target action input) fun _ => Sound.pure _

theorem untouched_of_inside {b : Int32 × Int32} {size : Nat} {es : List Access}
    (h : Inside [b] size es) (hnegative : ∃ b' ∈ [b], Negative b') :
    ∀ a ∈ es, ∀ i, ¬a.Covers i := by
  intro a ha i hi
  obtain ⟨⟨b₁, hb₁, hptr, hlen, -⟩, -⟩ := h a ha i hi
  obtain ⟨b₂, hb₂, hnegative⟩ := hnegative
  cases List.mem_singleton.mp hb₁
  cases List.mem_singleton.mp hb₂
  rcases hnegative with hneg | hneg <;> omega

section Run

variable {ξ : Type} (codec : GuestCodec) (call : BufferImport ξ) (g : Guest)

/-- How an import ends: it keeps to its buffers exactly if it is not an unlimited fetch, and then
negative arguments keep it from all of them unless it is an invoke that reads beside one. -/
def ComesTo (answer : HostFn.Answer) (es : List Access) : Prop :=
  (KeepsTo call g answer es ↔ call.Limited g) ∧
    (call.Limited g → (NegativeUntouched call es ↔ call.ReadsTogether g))

variable {call g}

/-- An import with one buffer that writes nothing. -/
theorem comesTo_reader {b : Int32 × Int32} {answer : HostFn.Answer} {es : List Access}
    (hbuffers : call.buffers = [b]) (hcounts : ¬call.Counts) (hlimited : call.Limited g)
    (htogether : call.ReadsTogether g)
    (h : Inside [b] g.state.memory.length es ∧ Access.writtenIn es = 0) :
    ComesTo call g answer es := by
  obtain ⟨hinside, hwritten⟩ := h
  have hkept : KeepsTo call g answer es :=
    ⟨hbuffers ▸ hinside, by rw [hwritten]; exact le_max_left _ _, fun hc => absurd hc hcounts⟩
  have huntouched : NegativeUntouched call es := fun hnegative =>
    untouched_of_inside hinside (hbuffers ▸ hnegative)
  exact ⟨iff_of_true hkept hlimited, fun _ => iff_of_true huntouched htogether⟩

/-- An import with one buffer that it fills. -/
theorem comesTo_writer {b : Int32 × Int32} {n n' : Int} {es : List Access}
    (hbuffers : call.buffers = [b]) (hcapacity : call.capacity = b.2.toInt)
    (hcounts : call.Counts → n = n') (hlimited : call.Limited g)
    (htogether : call.ReadsTogether g) (h : Fills b g.state.memory.length n' es) :
    ComesTo call g (.code n) es := by
  have hkept : KeepsTo call g (.code n) es := by
    refine ⟨hbuffers ▸ h.inside, hcapacity ▸ h.capacity, fun hc n₁ hn => ?_⟩
    cases hn
    rw [hcounts hc]
    exact h.count
  have huntouched : NegativeUntouched call es := fun hnegative =>
    untouched_of_inside h.inside (hbuffers ▸ hnegative)
  exact ⟨iff_of_true hkept hlimited, fun _ => iff_of_true huntouched htogether⟩

theorem comesTo_callResultRead {bufPtr maxLen : Int32} {n : Int} {es : List Access}
    (h : Fetched g bufPtr maxLen n es) :
    ComesTo (.callResultRead bufPtr maxLen : BufferImport ξ) g (.code n) es := by
  have hiff := h.fills_iff
  by_cases hlimited : UnlimitedFetch g bufPtr maxLen
  · refine ⟨iff_of_false (fun hkept => ?_) (not_not.mpr hlimited), fun h => absurd hlimited h⟩
    exact absurd hlimited (hiff.mp ⟨hkept.inside, hkept.capacity, hkept.count trivial n rfl⟩)
  · exact comesTo_writer rfl rfl (fun _ => rfl) hlimited trivial (hiff.mpr hlimited)

theorem comesTo_invoke {m : GuestMoment ξ} {target action input : Int32 × Int32}
    {answer : HostFn.Answer} {es : List Access}
    (h : es = if g.state.rest.exported then [target, action, input].flatMap (argumentRead g)
      else []) : ComesTo (.invoke m target action input) g answer es := by
  have huntouched := @argumentReads_untouched g [target, action, input]
  rw [← h] at huntouched
  have hes : ∀ a ∈ es, ∃ b ∈ [target, action, input], a ∈ argumentRead g b := by
    intro a ha
    rw [h] at ha
    split at ha
    · exact List.mem_flatMap.mp ha
    · cases ha
  have hinside : Inside [target, action, input] g.state.memory.length es := by
    intro a ha
    obtain ⟨b, hb, ha⟩ := hes a ha
    exact inside_argumentRead hb a ha
  have hwritten : Access.writtenIn es = 0 := by
    apply List.sum_eq_zero
    intro k hk
    obtain ⟨a, ha, rfl⟩ := List.mem_map.mp hk
    obtain ⟨b, -, ha⟩ := hes a ha
    rw [argumentRead] at ha
    split at ha
    · cases List.mem_singleton.mp ha
      rfl
    · cases ha
  exact ⟨iff_of_true ⟨hinside, by rw [hwritten]; exact le_max_left _ _, nofun⟩ trivial,
    fun _ => huntouched⟩

theorem ends_run (call : BufferImport ξ) (g : Guest) :
    Ends (call.run codec) g.state (fun answer _ es => ComesTo call g answer es)
      fun _ _ _ => False := by
  cases call with
  | setResult ptr len =>
    exact (ends_keepSlice g _ ptr len).mono
      (fun _ _ _ h => comesTo_reader rfl id trivial trivial h) fun _ _ _ h => h
  | setError ptr len =>
    exact (ends_keepSlice g _ ptr len).mono
      (fun _ _ _ h => comesTo_reader rfl id trivial trivial h) fun _ _ _ h => h
  | callResultRead bufPtr maxLen =>
    exact ends_map.mpr ((ends_hostCallResultRead g bufPtr maxLen).mono
      (fun _ _ _ h => comesTo_callResultRead h) fun _ _ _ h => h)
  | streamRead streams handle bufPtr bufLen =>
    exact ends_map.mpr ((ends_streamRead g streams handle bufPtr bufLen).mono
      (fun _ _ _ h => comesTo_writer rfl rfl (fun _ => rfl) trivial trivial h) fun _ _ _ h => h)
  | streamWrite streams handle bufPtr bufLen =>
    exact ends_map.mpr ((ends_streamWrite g streams handle bufPtr bufLen).mono
      (fun _ _ _ h => comesTo_reader rfl id trivial trivial h) fun _ _ _ h => h)
  | streamLastError texts handle bufPtr bufLen =>
    refine ends_map.mpr ((ends_streamLastError g texts handle bufPtr bufLen).mono
      (fun _ _ _ h => ?_) fun _ _ _ h => h)
    obtain ⟨n', h⟩ := h
    exact comesTo_writer rfl rfl (fun hc => hc.elim) trivial trivial h
  | invoke m target action input =>
    exact ends_map.mpr ((ends_hostInvoke codec m target action input).mono
      (fun _ _ _ h => comesTo_invoke h.2.2) fun _ _ _ h => h)

/-- Every import returns, and it respects its buffers exactly if it is not a fetch that a negative
capacity does not limit, nor an invoke that reads its other arguments beside a negative one; the
second does not matter where each buffer is looked at for itself. -/
theorem guest_buffers_iff (call : BufferImport ξ) (g : Guest) :
    (∃ answer s' es, Touches codec call g answer s' es) ∧
      (BuffersRespected codec call g ↔ call.Limited g ∧ call.ReadsTogether g) ∧
      (EachRespected codec call g ↔ call.Limited g) := by
  have hends := ends_run codec call g
  have hsound := sound_run codec call
  rcases hrun : call.run codec g.state with ⟨⟨answer, s'⟩ | ⟨e, s'⟩, es⟩
  · have htouches : Touches codec call g answer s' es :=
      ⟨hrun, hsound.length _ _ _ _ hrun, hsound.frame _ _ _ _ hrun, hsound.blind _ _ _ _ hrun⟩
    obtain ⟨hkept, htogether⟩ := hends.ok hrun
    have honly : ∀ {answer' s'' es'}, Touches codec call g answer' s'' es' →
        answer' = answer ∧ es' = es := by
      intro answer' s'' es' h
      cases hrun.symm.trans h.run
      exact ⟨rfl, rfl⟩
    refine ⟨⟨answer, s', es, htouches⟩, ⟨?_, ?_⟩, ⟨?_, ?_⟩⟩
    · rintro ⟨answer', s'', es', h, hk, hu⟩
      obtain ⟨rfl, rfl⟩ := honly h
      have hlimited := hkept.mp hk
      exact ⟨hlimited, (htogether hlimited).mp hu⟩
    · rintro ⟨hlimited, hreads⟩
      exact ⟨answer, s', es, htouches, hkept.mpr hlimited, (htogether hlimited).mpr hreads⟩
    · rintro ⟨answer', s'', es', h, hk⟩
      obtain ⟨rfl, rfl⟩ := honly h
      exact hkept.mp hk
    · exact fun hlimited => ⟨answer, s', es, htouches, hkept.mpr hlimited⟩
  · exact (hends.error hrun).elim

end Run

/-- A guest with `null` to fetch and eight bytes of memory. -/
def nullGuest : Guest where
  state := ⟨[0, 0, 0, 0, 0, 0, 0, 0], true, ⟨some (utf8 "null"), none, false⟩, none, none⟩
  fits := by decide

/-- A fetch with the capacity -1 copies the whole stash. -/
theorem guest_buffers_not_respected :
    (HostFn.hostCallResultRead 0 (-1) nullGuest.state).2 = [.write 0 4] ∧
      ¬BuffersRespected feedCodec (.callResultRead 0 (-1) : BufferImport Unit) nullGuest := by
  have hends := ends_run feedCodec (.callResultRead 0 (-1) : BufferImport Unit) nullGuest
  have hfetch : UnlimitedFetch nullGuest 0 (-1) :=
    ⟨by decide, by decide, rfl, utf8 "null", rfl, by decide +kernel, by decide +kernel⟩
  refine ⟨by decide +kernel, ?_⟩
  rintro ⟨answer, s', es, htouches, hkept, -⟩
  exact (hends.ok htouches.run).1.mp hkept hfetch

end Gwead
