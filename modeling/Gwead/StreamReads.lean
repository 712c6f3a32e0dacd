import Gwead.Streams

/-!
# What the reads on a stream hand out

Nothing of a source is lost, duplicated or reordered between the sections of its reads: what the
reads have returned, what a read in flight holds and what the stream still has are the source.
-/

namespace Gwead

/-! ### Signals -/

/-- A byte, or the place of an error item. -/
abbrev Signal := Option UInt8

def Item.signals : Item → List Signal
  | .chunk bytes => bytes.map some
  | .error _ => [none]

def Source.items : Source → List Item
  | .empty => []
  | .live items => items

def Source.signals (source : Source) : List Signal := source.items.flatMap Item.signals

def StreamDirection.signals : StreamDirection → List Signal
  | .readable source leftover => (leftover.getD []).map some ++ source.signals
  | .writable => []

def Pull.signals : Pull → List Signal
  | .chunk bytes => bytes.map some
  | .error _ => [none]
  | _ => []

/-- What a read in flight holds. -/
def Reading.held : Reading → List Signal
  | .pulling _ source => source.signals
  | .pulled _ source pull => pull.signals ++ source.signals
  | _ => []

/-- What the read behind the gate holds. -/
def Reads.held (c : Reads) : List Signal :=
  match c.stream.readGate with
  | some r => (c.readers r).held
  | none => []

/-- What has not been returned yet. -/
def Reads.remaining (c : Reads) : List Signal := c.held ++ c.stream.inner.direction.signals

/-- What a read takes out of the stream for good. -/
def ReadEvent.yielded : ReadEvent → List Signal
  | .returned _ size (.chunk bytes) => (bytes.take size).map some
  | .returned _ _ (.error _) => [none]
  | _ => []

theorem signals_prepend (source : Source) (bytes : Bytes) :
    (source.prepend bytes).signals = bytes.map some ++ source.signals := by
  cases source with
  | empty => simp [Source.prepend, Source.signals, Source.items, Item.signals]
  | live items => rfl

/-! ### What one step can be -/

inductive ReadMove (c : Reads) : ReadEvent → Reads → Prop
  | call (r size : Nat) (hr : c.readers r = .idle) :
      ReadMove c .quiet (c.setReader r (.gated size))
  | lock (r size : Nat) (hr : c.readers r = .gated size) (hgate : c.stream.readGate = none) :
      ReadMove c .quiet ((c.setStream c.stream.inner (some r)).setReader r (.entered size))
  | refuse (r size : Nat) (why : Refusal) (hr : c.readers r = .entered size)
      (hwhy : c.stream.inner.closed = true ∨ c.stream.inner.direction = .writable) :
      ReadMove c (.refused r why) ((c.setStream c.stream.inner none).setReader r .idle)
  | swap (r size : Nat) (source : Source) (leftover : Option Bytes)
      (hr : c.readers r = .entered size) (hclosed : c.stream.inner.closed = false)
      (hdirection : c.stream.inner.direction = .readable source leftover) :
      ReadMove c .quiet ((c.setStream c.stream.inner.stub c.stream.readGate).setReader r
        (.swapped size source leftover))
  | poll (r size : Nat) (source : Source) (hr : c.readers r = .pulling size source) :
      ReadMove c .quiet (c.setReader r (pollSource size source))
  | release (r size : Nat) (source : Source) (hr : c.readers r = .pulling size source)
      (hwait : source.canWait = true) :
      ReadMove c .quiet (c.setReader r (.pulled size source .released))
  | putBack (r size : Nat) (source : Source) (pull : Pull)
      (hr : c.readers r = .pulled size source pull) :
      ReadMove c (.returned r size pull)
        ((c.setStream (c.stream.inner.putBack size source pull) none).setReader r .idle)

theorem ReadStep.move {c c' : Reads} {e : ReadEvent} (h : ReadStep c e c') : ReadMove c e c' := by
  obtain ⟨r, choice, h⟩ := h
  unfold readStep at h
  split at h
  · rename_i size hr
    cases h
    exact .call r size hr
  · rename_i size hr
    split at h
    · rename_i hgate
      cases h
      exact .lock r size hr (Option.isNone_iff_eq_none.mp hgate)
    · cases h
  · rename_i size hr
    unfold swapOut at h
    split at h
    · rename_i hclosed
      cases h
      exact .refuse r size _ hr (Or.inl hclosed)
    · rename_i hopen
      split at h
      · rename_i hdirection
        cases h
        exact .refuse r size _ hr (Or.inr hdirection)
      · rename_i source leftover hdirection
        cases h
        exact .swap r size source leftover hr (Bool.eq_false_iff.mpr hopen) hdirection
  · rename_i size source hr
    cases h
    exact .poll r size source hr
  · rename_i size source hr
    split at h
    · rename_i hwait
      cases h
      exact .release r size source hr hwait
    · cases h
  · rename_i size source pull hr
    cases h
    exact .putBack r size source pull hr
  · cases h

/-! ### The invariant of an open stream -/

/-- The phases behind the read gate. -/
def Reading.inside : Reading → Prop
  | .idle => False
  | .gated _ => False
  | _ => True

/-- The phases between the swap-out and the put-back. -/
def Reading.inFlight : Reading → Prop
  | .pulling _ _ => True
  | .pulled _ _ _ => True
  | _ => False

/-- A chunk at hand is not empty, and an end is the end of the source. -/
def Reading.genuine : Reading → Prop
  | .pulled _ _ (.chunk bytes) => bytes ≠ []
  | .pulled _ source .eof => source.signals = []
  | _ => True

/-- The gate is exclusive, the stream is an open readable, and while a read is in flight it is
the stub the swap-out left. -/
structure Reads.Sound (c : Reads) : Prop where
  gate : Gate.Exclusive Reading.inside c.stream.readGate c.readers
  closed : c.stream.inner.closed = false
  readable : ∃ source leftover, c.stream.inner.direction = .readable source leftover ∧
    leftover ≠ some []
  stub : ∀ r, (c.readers r).inFlight → c.stream.inner.direction = .readable .empty none
  genuine : ∀ r, (c.readers r).genuine

theorem Reading.inside_of_inFlight {reading : Reading} (h : reading.inFlight) :
    reading.inside := by
  cases reading with
  | pulling => trivial
  | pulled => trivial
  | _ => exact h.elim

theorem pollSource_inFlight (size : Nat) (source : Source) :
    (pollSource size source).inFlight := by
  unfold pollSource
  split
  · split <;> trivial
  · trivial
  · trivial

theorem pollSource_genuine (size : Nat) (source : Source) :
    (pollSource size source).genuine := by
  cases source with
  | empty => rfl
  | live items =>
    cases items with
    | nil => rfl
    | cons item rest =>
      cases item with
      | error text => trivial
      | chunk bytes =>
        cases bytes with
        | nil => trivial
        | cons b bs => exact List.cons_ne_nil b bs

/-- A poll moves the next item from the source into the read's hand, or skips an empty chunk. -/
theorem pollSource_held (size : Nat) (source : Source) :
    (pollSource size source).held = source.signals := by
  cases source with
  | empty => rfl
  | live items =>
    cases items with
    | nil => rfl
    | cons item rest =>
      cases item with
      | error text => rfl
      | chunk bytes =>
        cases bytes with
        | nil => rfl
        | cons b bs => rfl

theorem newLeftover_nonempty (size : Nat) (pull : Pull) : pull.newLeftover size ≠ some [] := by
  cases pull with
  | chunk bytes =>
    simp only [Pull.newLeftover]
    split
    · rename_i hlt
      intro he
      have hlength := congrArg List.length (Option.some.inj he)
      rw [List.length_drop, List.length_nil] at hlength
      omega
    · exact nofun
  | _ => exact nofun

/-- The put-back of an open stream. -/
theorem putBack_open {inner : StreamInner} {source' : Source} {leftover : Option Bytes}
    (hclosed : inner.closed = false) (hdirection : inner.direction = .readable source' leftover)
    (size : Nat) (source : Source) (pull : Pull) :
    (inner.putBack size source pull).closed = false ∧
      (inner.putBack size source pull).direction =
        .readable (pull.sourceBack source) (pull.newLeftover size) := by
  simp only [StreamInner.putBack, hclosed, hdirection, and_self]

section Steps

variable {c c' : Reads} {e : ReadEvent}

/-- A read that moves on its side of the gate. -/
theorem Reads.Sound.keep (h : c.Sound) {r : Nat} {reading : Reading}
    (hinside : reading.inside ↔ (c.readers r).inside)
    (hflight : reading.inFlight → (c.readers r).inFlight) (hgenuine : reading.genuine) :
    (c.setReader r reading).Sound where
  gate := h.gate.keep hinside
  closed := h.closed
  readable := h.readable
  stub q hq := by
    simp only [Reads.setReader, Function.update_apply] at hq
    split at hq
    · exact h.stub r (hflight hq)
    · exact h.stub q hq
  genuine q := by
    simp only [Reads.setReader, Function.update_apply]
    split
    · exact hgenuine
    · exact h.genuine q

/-- The stream and the gate change hands together with the one read behind the gate. -/
theorem Reads.Sound.handOver (h : c.Sound) {r : Nat} {reading : Reading} {inner : StreamInner}
    {gate : Option Nat}
    (hgate : Gate.Exclusive Reading.inside gate (Function.update c.readers r reading))
    (hr : (c.readers r).inside) (hclosed : inner.closed = false)
    (hreadable : ∃ source leftover, inner.direction = .readable source leftover ∧
      leftover ≠ some [])
    (hstub : reading.inFlight → inner.direction = .readable .empty none)
    (hgenuine : reading.genuine) :
    ((c.setStream inner gate).setReader r reading).Sound where
  gate := hgate
  closed := hclosed
  readable := hreadable
  stub q hq := by
    simp only [Reads.setReader, Reads.setStream, Function.update_apply] at hq
    split at hq
    · exact hstub hq
    · rename_i hne
      exact absurd (h.gate.unique hr (Reading.inside_of_inFlight hq)) hne
  genuine q := by
    simp only [Reads.setReader, Reads.setStream, Function.update_apply]
    split
    · exact hgenuine
    · exact h.genuine q

theorem ReadMove.sound (h : c.Sound) (hmove : ReadMove c e c') : c'.Sound := by
  have hinside : ∀ {r reading}, c.readers r = reading → reading.inside → (c.readers r).inside :=
    fun hr hin => hr ▸ hin
  cases hmove with
  | call r size hr =>
    exact h.keep (by rw [hr]; exact Iff.rfl) False.elim trivial
  | lock r size hr hgate =>
    obtain hgate' := h.gate
    rw [hgate] at hgate'
    refine ⟨hgate'.enter trivial, h.closed, h.readable, fun q hq => ?_, fun q => ?_⟩
    · simp only [Reads.setReader, Reads.setStream, Function.update_apply] at hq
      split at hq
      · exact hq.elim
      · exact h.stub q hq
    · simp only [Reads.setReader, Reads.setStream, Function.update_apply]
      split
      · trivial
      · exact h.genuine q
  | refuse r size why hr hwhy =>
    exact h.handOver (h.gate.leave (hinside hr trivial) id) (hinside hr trivial) h.closed h.readable
      False.elim trivial
  | swap r size source leftover hr hclosed hdirection =>
    refine h.handOver (h.gate.keep ?_) (hinside hr trivial) h.closed
      ⟨.empty, none, rfl, nofun⟩ (fun _ => rfl) ?_
    · rw [hr]
      cases leftover <;> exact Iff.rfl
    · obtain ⟨source', leftover', hreadable, hne⟩ := h.readable
      rw [hdirection] at hreadable
      cases hreadable
      cases leftover with
      | none => trivial
      | some bytes => exact fun he => hne (by rw [he])
  | poll r size source hr =>
    have hflight := pollSource_inFlight size source
    exact h.keep (iff_of_true (Reading.inside_of_inFlight hflight) (hinside hr trivial))
      (fun _ => by rw [hr]; trivial) (pollSource_genuine size source)
  | release r size source hr hwait =>
    exact h.keep (by rw [hr]; exact Iff.rfl) (fun _ => by rw [hr]; trivial) trivial
  | putBack r size source pull hr =>
    obtain ⟨source', leftover, hreadable, -⟩ := h.readable
    obtain ⟨hclosed, hdirection⟩ := putBack_open h.closed hreadable size source pull
    exact h.handOver (h.gate.leave (hinside hr trivial) id) (hinside hr trivial) hclosed
      ⟨_, _, hdirection, newLeftover_nonempty size pull⟩ False.elim trivial

theorem held_eq (h : Gate.Exclusive Reading.inside c.stream.readGate c.readers) {r : Nat}
    (hr : (c.readers r).inside) : c.held = (c.readers r).held := by
  rw [Reads.held, (h r).mp hr]

/-- What the read behind the gate holds after its own step. -/
theorem held_setReader (h : Gate.Exclusive Reading.inside c.stream.readGate c.readers) {r : Nat}
    (hr : (c.readers r).inside) (reading : Reading) (inner : StreamInner) :
    ((c.setStream inner c.stream.readGate).setReader r reading).held = reading.held := by
  simp only [Reads.held, Reads.setReader, Reads.setStream, (h r).mp hr, Function.update_self]

/-- A read in front of the gate changes nothing behind it. -/
theorem held_outside (h : Gate.Exclusive Reading.inside c.stream.readGate c.readers) {r : Nat}
    (hr : ¬(c.readers r).inside) (reading : Reading) : (c.setReader r reading).held = c.held := by
  simp only [Reads.held, Reads.setReader]
  cases hgate : c.stream.readGate with
  | none => rfl
  | some q =>
    have hq : q ≠ r := by
      rintro rfl
      exact hr ((h q).mpr hgate)
    simp only [Function.update_of_ne hq]

theorem held_lock (hgate : c.stream.readGate = none) (r size : Nat) (inner : StreamInner) :
    c.held = [] ∧ ((c.setStream inner (some r)).setReader r (.entered size)).held = [] := by
  constructor
  · rw [Reads.held, hgate]
  · simp only [Reads.held, Reads.setReader, Reads.setStream, Function.update_self, Reading.held]

theorem held_leave (c : Reads) (r : Nat) (inner : StreamInner) :
    ((c.setStream inner none).setReader r .idle).held = [] := rfl

/-- What a put-back leaves for the next read. -/
theorem Pull.signals_eq (size : Nat) {source : Source} {pull : Pull}
    (hgenuine : (Reading.pulled size source pull).genuine) (r : Nat) :
    pull.signals ++ source.signals = (ReadEvent.returned r size pull).yielded ++
      (((pull.newLeftover size).getD []).map some ++ (pull.sourceBack source).signals) := by
  cases pull with
  | chunk bytes =>
    have hrest : (Pull.chunk bytes).newLeftover size = none ∨
        (Pull.chunk bytes).newLeftover size = some (bytes.drop size) := by
      simp only [Pull.newLeftover]
      split
      · rename_i hlt
        exact Or.inr (by rw [Nat.min_eq_left (by omega)])
      · exact Or.inl rfl
    have hbytes : bytes.take size ++ ((Pull.chunk bytes).newLeftover size).getD [] = bytes := by
      rcases hrest with hrest | hrest
      · rw [hrest, Option.getD_none, List.append_nil]
        refine List.take_of_length_le ?_
        simp only [Pull.newLeftover] at hrest
        split at hrest
        · cases hrest
        · omega
      · rw [hrest, Option.getD_some, List.take_append_drop]
    calc bytes.map some ++ source.signals
        = (bytes.take size ++ ((Pull.chunk bytes).newLeftover size).getD []).map some ++
            source.signals := by rw [hbytes]
      _ = _ := by
        rw [List.map_append, List.append_assoc]
        rfl
  | error text => rfl
  | eof => exact hgenuine
  | released => rfl

/-- A step yields what the stream and its read have less afterwards. -/
theorem ReadMove.remaining (h : c.Sound) (hmove : ReadMove c e c') :
    c.remaining = e.yielded ++ c'.remaining := by
  have hinside : ∀ {r reading}, c.readers r = reading → reading.inside → (c.readers r).inside :=
    fun hr hin => hr ▸ hin
  cases hmove with
  | call r size hr =>
    have houtside : ¬(c.readers r).inside := by
      rw [hr]
      exact id
    rw [Reads.remaining, Reads.remaining, held_outside h.gate houtside]
    rfl
  | lock r size hr hgate =>
    obtain ⟨hheld, hheld'⟩ := held_lock hgate r size c.stream.inner
    rw [Reads.remaining, Reads.remaining, hheld, hheld']
    rfl
  | refuse r size why hr hwhy =>
    rw [Reads.remaining, Reads.remaining, held_eq h.gate (hinside hr trivial), hr, held_leave]
    rfl
  | swap r size source leftover hr hclosed hdirection =>
    rw [Reads.remaining, Reads.remaining, held_eq h.gate (hinside hr trivial), hr,
      held_setReader h.gate (hinside hr trivial), hdirection]
    cases leftover with
    | none => simp [Reading.held, Reading.swapped, StreamDirection.signals, ReadEvent.yielded,
        Reads.setReader, Reads.setStream, StreamInner.stub, Source.signals, Source.items]
    | some bytes => simp [Reading.held, Reading.swapped, StreamDirection.signals,
        ReadEvent.yielded, Reads.setReader, Reads.setStream, StreamInner.stub, Source.signals,
        Source.items, Pull.signals]
  | poll r size source hr =>
    have hheld := held_setReader h.gate (hinside hr trivial) (pollSource size source) c.stream.inner
    rw [pollSource_held] at hheld
    rw [Reads.remaining, Reads.remaining, held_eq h.gate (hinside hr trivial), hr]
    exact congrArg (· ++ c.stream.inner.direction.signals) hheld.symm
  | release r size source hr hwait =>
    have hheld := held_setReader h.gate (hinside hr trivial) (.pulled size source .released)
      c.stream.inner
    rw [Reads.remaining, Reads.remaining, held_eq h.gate (hinside hr trivial), hr]
    exact congrArg (· ++ c.stream.inner.direction.signals) hheld.symm
  | putBack r size source pull hr =>
    have hstub := h.stub r (by rw [hr]; trivial)
    obtain ⟨-, hdirection⟩ := putBack_open h.closed hstub size source pull
    have hgenuine := h.genuine r
    rw [hr] at hgenuine
    rw [Reads.remaining, Reads.remaining, held_eq h.gate (hinside hr trivial), hr, held_leave, hstub]
    simp only [Reads.setReader, Reads.setStream, hdirection]
    simpa [Reading.held, StreamDirection.signals, Source.signals, Source.items] using
      Pull.signals_eq size hgenuine r

end Steps

end Gwead
