import Gwead.GuestMemory

/-!
# The footprints of a guest's imports

What an import shows of its guest's memory is all that it touches of it.
-/

namespace Gwead

open Footprint

theorem sound_keepSlice (keep : Bytes → GuestStore → GuestStore) (ptr len : Int32) :
    Sound (HostFn.keepSlice keep ptr len) := by
  apply Sound.bind
  · apply Sound.bind (Sound.look _)
    intro exported
    apply Sound.ite (Sound.pure _)
    apply Sound.ite (Sound.pure _)
    apply Sound.bind Sound.size
    intro size
    cases HostFn.rangeEnd (asUsize ptr.toInt) (asUsize len.toInt) size with
    | none => exact Sound.pure _
    | some stop => exact Sound.bind (Sound.load _ _) fun _ => Sound.pure _
  · intro slice
    cases slice with
    | error e => exact Sound.pure _
    | ok bytes => exact Sound.bind (Sound.change _) fun _ => Sound.pure _

theorem sound_hostCallResultRead (bufPtr maxLen : Int32) :
    Sound (HostFn.hostCallResultRead bufPtr maxLen) := by
  apply Sound.bind (Sound.look _)
  intro exported
  apply Sound.ite (Sound.pure _)
  apply Sound.bind (Sound.look _)
  intro slots
  apply Sound.bind (Sound.change _)
  intro _
  cases slots.take.1 with
  | none => exact Sound.pure _
  | some bytes =>
    apply Sound.bind Sound.size
    intro size
    cases HostFn.rangeEnd (asUsize bufPtr.toInt) (min bytes.length (asUsize maxLen.toInt)) size with
    | none => exact Sound.pure _
    | some stop =>
      exact Sound.bind (Sound.first _ _) fun _ =>
        Sound.bind (Sound.store _ _ _) fun _ => Sound.pure _

theorem sound_tellCancelled (n : Int) : Sound (HostFn.tellCancelled n) := by
  rw [HostFn.tellCancelled, HostFn.setSlots]
  exact Sound.change _

theorem sound_readAsync (start size : Nat) (e : HostFn.ReadEnd) :
    Sound (HostFn.readAsync start size e) := by
  cases e with
  | refused why => exact Sound.pure _
  | pulled pull =>
    cases pull with
    | chunk bytes =>
      exact Sound.bind (Sound.borrow _ _) fun _ => Sound.bind (Sound.first _ _) fun _ =>
        Sound.bind (Sound.store _ _ _) fun _ => Sound.pure _
    | error text => exact Sound.pure _
    | eof => exact Sound.pure _
    | released => exact Sound.pure _

theorem sound_streamRead (streams : Nat → Option (Nat → HostFn.ReadEnd))
    (handle bufPtr bufLen : Int32) : Sound (HostFn.streamRead streams handle bufPtr bufLen) := by
  rw [HostFn.streamRead]
  cases HostFn.handleId handle with
  | none => exact Sound.pure _
  | some id =>
    apply Sound.bind (Sound.look _)
    intro exported
    apply Sound.ite (Sound.pure _)
    apply Sound.bind Sound.size
    intro size
    cases HostFn.rangeEnd (asUsize bufPtr.toInt) (asUsize bufLen.toInt) size with
    | none => exact Sound.pure _
    | some stop =>
      apply Sound.bind (Sound.borrow _ _)
      intro _
      cases streams id with
      | none => exact Sound.bind (Sound.pure _) fun n =>
        Sound.bind (sound_tellCancelled n) fun _ => Sound.pure _
      | some read =>
        exact Sound.bind (sound_readAsync _ _ _) fun n =>
          Sound.bind (sound_tellCancelled n) fun _ => Sound.pure _

theorem sound_streamWrite (streams : Nat → Option (Bytes → HostFn.WriteEnd))
    (handle bufPtr bufLen : Int32) : Sound (HostFn.streamWrite streams handle bufPtr bufLen) := by
  rw [HostFn.streamWrite]
  cases HostFn.handleId handle with
  | none => exact Sound.pure _
  | some id =>
    apply Sound.bind (Sound.look _)
    intro exported
    apply Sound.ite (Sound.pure _)
    apply Sound.bind Sound.size
    intro size
    cases HostFn.rangeEnd (asUsize bufPtr.toInt) (asUsize bufLen.toInt) size with
    | none => exact Sound.pure _
    | some stop =>
      exact Sound.bind (Sound.load _ _) fun _ =>
        Sound.bind (sound_tellCancelled _) fun _ => Sound.pure _

theorem sound_streamLastError (texts : Nat → Option (Option String))
    (handle bufPtr bufLen : Int32) : Sound (HostFn.streamLastError texts handle bufPtr bufLen) := by
  rw [HostFn.streamLastError]
  cases HostFn.handleId handle with
  | none => exact Sound.pure _
  | some id =>
    apply Sound.bind (Sound.look _)
    intro exported
    apply Sound.ite (Sound.pure _)
    apply Sound.bind Sound.size
    intro size
    cases HostFn.rangeEnd (asUsize bufPtr.toInt) (asUsize bufLen.toInt) size with
    | none => exact Sound.pure _
    | some stop =>
      cases texts id with
      | none => exact Sound.pure _
      | some text =>
        cases text with
        | none => exact Sound.pure _
        | some text =>
          apply Sound.bind (Sound.first _ _)
          intro head
          apply Sound.bind
          · apply Sound.ite (Sound.pure _)
            apply Sound.bind Sound.size
            intro size
            apply Sound.ite (Sound.pure _)
            apply Sound.ite (Sound.pure _)
            exact Sound.bind (Sound.store _ _ _) fun _ => Sound.pure _
          · intro answer
            cases answer <;> exact Sound.pure _

theorem sound_readArgument (size : Nat) (ptr len : Int32) :
    Sound (HostFn.readArgument size ptr len) := by
  rw [HostFn.readArgument]
  cases HostFn.rangeEnd (asUsize ptr.toInt) (asUsize len.toInt) size with
  | none => exact Sound.pure _
  | some stop => exact Sound.bind (Sound.load _ _) fun _ => Sound.pure _

theorem sound_hostInvoke {ξ : Type} (codec : GuestCodec) (m : GuestMoment ξ)
    (target action input : Int32 × Int32) :
    Sound (HostFn.hostInvoke codec m target action input) := by
  have hfinish : ∀ outcome, Sound (HostFn.finishInvoke outcome) := fun outcome =>
    Sound.bind (Sound.change _) fun _ => Sound.pure _
  apply Sound.bind (Sound.look _)
  intro exported
  apply Sound.ite (hfinish _)
  apply Sound.bind Sound.size
  intro size
  apply Sound.bind (sound_readArgument _ _ _)
  intro t
  apply Sound.bind (sound_readArgument _ _ _)
  intro a
  apply Sound.bind (sound_readArgument _ _ _)
  intro i
  cases t with
  | none => exact hfinish _
  | some t =>
    cases a with
    | none => exact hfinish _
    | some a => cases i <;> exact hfinish _

end Gwead
