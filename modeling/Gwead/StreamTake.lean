import Gwead.StreamDelivery

/-!
# Taking a readable

`take_readable` locks the stream but not its read gate, so it can run while a read is between its
swap-out and its put-back and holds the source.
-/

namespace Gwead

/-- Take the readable away from its reads. -/
def takeReadable (c : Reads) : Option ((String × Source) × Reads) :=
  c.stream.takeReadable.map fun (taken, stream) => (taken, { c with stream := stream })

def copiedOut (es : List ReadEvent) : Bytes := es.flatMap ReadEvent.copied

/-- What a read in flight holds beyond what it is about to return has no bytes. -/
def Reading.bringsAll : Reading → Prop
  | .pulling _ source => source.bytes = []
  | .pulled size source (.chunk bytes) => bytes.length ≤ size ∧ source.bytes = []
  | .pulled _ source _ => source.bytes = []
  | _ => True

/-- No read in flight keeps bytes from whoever takes the stream now. -/
def Reads.NothingHeldBack (c : Reads) : Prop := ∀ r, (c.readers r).bringsAll

def Reads.heldBytes (c : Reads) : Bytes := c.held.reduceOption

theorem reduceOption_map_some (bytes : Bytes) :
    (bytes.map some : List Signal).reduceOption = bytes := by
  rw [List.reduceOption, List.filterMap_map]
  exact List.filterMap_some

theorem reduceOption_yielded (e : ReadEvent) : e.yielded.reduceOption = e.copied := by
  cases e with
  | returned r size pull =>
    cases pull with
    | chunk bytes =>
      rw [ReadEvent.copied, Pull.copied_chunk]
      exact reduceOption_map_some _
    | _ => rfl
  | _ => rfl

theorem reduceOption_yielded_run (es : List ReadEvent) :
    (yielded es).reduceOption = copiedOut es := by
  induction es with
  | nil => rfl
  | cons e es ih =>
    rw [yielded, copiedOut, List.flatMap_cons, List.flatMap_cons, List.reduceOption_append,
      reduceOption_yielded]
    exact congrArg (e.copied ++ ·) ih

/-- The bytes in the callers' buffers, those in the hands of a read and those left in the stream
are the bytes of the source. -/
theorem reads_conserve_bytes {contentType : String} {source : Source} {es : List ReadEvent}
    {c : Reads} (hrun : ReadRun (openReadable contentType source) es c) :
    copiedOut es ++ (c.heldBytes ++ c.stream.inner.direction.signals.reduceOption) =
      source.bytes := by
  rw [Source.bytes, ← (reads_conserve hrun).2, List.reduceOption_append, reduceOption_yielded_run,
    Reads.remaining, List.reduceOption_append]
  rfl

section Steps

variable {c c' : Reads} {e : ReadEvent} {taken : String × Source}

/-- What is taken is what the stream had, and the handle is closed. -/
theorem takeReadable_some (h : takeReadable c = some (taken, c')) :
    taken.2.signals = c.stream.inner.direction.signals ∧ c'.stream.inner.closed = true ∧
      c'.stream.readGate = c.stream.readGate ∧ c'.readers = c.readers := by
  obtain ⟨⟨taken', stream⟩, hstream, h⟩ := Option.map_eq_some_iff.mp h
  cases h
  obtain ⟨⟨full, inner⟩, hinner, h⟩ := Option.map_eq_some_iff.mp hstream
  cases h
  unfold StreamInner.takeReadable at hinner
  split at hinner
  · rename_i source leftover _ hdirection
    cases hinner
    refine ⟨?_, rfl, rfl, rfl⟩
    rw [hdirection]
    cases leftover with
    | none => rfl
    | some bytes => exact signals_prepend source bytes
  · cases hinner

/-- A stream taken away from a read that has nothing to keep. -/
structure Reads.Overtaken (c : Reads) : Prop where
  gate : Gate.Exclusive Reading.inside c.stream.readGate c.readers
  closed : c.stream.inner.closed = true
  readers : ∀ r, (c.readers r).bringsAll

theorem Reads.Overtaken.keep (h : c.Overtaken) {r : Nat} {reading : Reading} {inner : StreamInner}
    {gate : Option Nat}
    (hgate : Gate.Exclusive Reading.inside gate (Function.update c.readers r reading))
    (hclosed : inner.closed = true) (hreading : reading.bringsAll) :
    ((c.setStream inner gate).setReader r reading).Overtaken where
  gate := hgate
  closed := hclosed
  readers q := by
    simp only [Reads.setReader, Reads.setStream, Function.update_apply]
    split
    · exact hreading
    · exact h.readers q

theorem putBack_closed {inner : StreamInner} (hclosed : inner.closed = true) (size : Nat)
    (source : Source) (pull : Pull) : (inner.putBack size source pull).closed = true := by
  simp only [StreamInner.putBack, hclosed]

theorem pollSource_bringsAll (size : Nat) {source : Source} (h : source.bytes = []) :
    (pollSource size source).bringsAll := by
  cases source with
  | empty => rfl
  | live items =>
    cases items with
    | nil => rfl
    | cons item rest =>
      cases item with
      | error text => exact h
      | chunk bytes =>
        cases bytes with
        | nil => exact h
        | cons b bs => cases h

/-- Once the stream is taken, a read returns what it holds and nothing else. -/
theorem ReadMove.overtaken (h : c.Overtaken) (hmove : ReadMove c e c') :
    c'.Overtaken ∧ c.heldBytes = e.copied ++ c'.heldBytes := by
  have hinside : ∀ {r reading}, c.readers r = reading → reading.inside → (c.readers r).inside :=
    fun hr hin => hr ▸ hin
  have hreader : ∀ {r reading}, c.readers r = reading → reading.bringsAll :=
    fun hr => hr ▸ h.readers _
  cases hmove with
  | call r size hr =>
    have houtside : ¬(c.readers r).inside := by
      rw [hr]
      exact id
    refine ⟨h.keep (h.gate.keep (iff_of_false id houtside)) h.closed trivial, ?_⟩
    rw [Reads.heldBytes, Reads.heldBytes, held_outside h.gate houtside]
    rfl
  | lock r size hr hgate =>
    obtain ⟨hheld, hheld'⟩ := held_lock hgate r size c.stream.inner
    have hgate' := h.gate
    rw [hgate] at hgate'
    refine ⟨h.keep (hgate'.enter trivial) h.closed trivial, ?_⟩
    rw [Reads.heldBytes, Reads.heldBytes, hheld, hheld']
    rfl
  | refuse r size why hr hwhy =>
    refine ⟨h.keep (h.gate.leave (hinside hr trivial) id) h.closed trivial, ?_⟩
    rw [Reads.heldBytes, Reads.heldBytes, held_eq h.gate (hinside hr trivial), hr, held_leave]
    rfl
  | swap r size source leftover hr hclosed hdirection =>
    rw [h.closed] at hclosed
    cases hclosed
  | poll r size source hr =>
    have hflight := pollSource_inFlight size source
    have hgate := h.gate.keep
      (iff_of_true (Reading.inside_of_inFlight hflight) (hinside hr trivial))
    have hheld := held_setReader h.gate (hinside hr trivial) (pollSource size source)
      c.stream.inner
    rw [pollSource_held] at hheld
    refine ⟨h.keep hgate h.closed (pollSource_bringsAll size (hreader hr)), ?_⟩
    rw [Reads.heldBytes, held_eq h.gate (hinside hr trivial), hr]
    exact congrArg List.reduceOption hheld.symm
  | release r size source hr hwait =>
    have hreleased : (Reading.pulled size source .released).inside := trivial
    have hgate := h.gate.keep (iff_of_true hreleased (hinside hr trivial))
    have hheld := held_setReader h.gate (hinside hr trivial) (.pulled size source .released)
      c.stream.inner
    have hend : source.bytes = [] := hreader hr
    refine ⟨h.keep hgate h.closed hend, ?_⟩
    rw [Reads.heldBytes, held_eq h.gate (hinside hr trivial), hr]
    exact congrArg List.reduceOption hheld.symm
  | putBack r size source pull hr =>
    refine ⟨h.keep (h.gate.leave (hinside hr trivial) id) (putBack_closed h.closed size source pull)
      trivial, ?_⟩
    rw [Reads.heldBytes, Reads.heldBytes, held_eq h.gate (hinside hr trivial), hr, held_leave]
    have hbrings := hreader hr
    cases pull with
    | chunk bytes =>
      have hend : source.signals.reduceOption = [] := hbrings.2
      rw [Reading.held, Pull.signals, List.reduceOption_append, reduceOption_map_some, hend,
        ReadEvent.copied, Pull.copied_chunk, List.take_of_length_le hbrings.1]
      rfl
    | _ => exact hbrings

theorem held_of_idle (h : ∀ r, ¬(c.readers r).inFlight) : c.held = [] := by
  unfold Reads.held
  split
  · rename_i r _
    have hr := h r
    revert hr
    cases c.readers r with
    | pulling => exact fun hr => (hr trivial).elim
    | pulled => exact fun hr => (hr trivial).elim
    | _ => exact fun _ => rfl
  · rfl

theorem putBack_step {r size : Nat} {source : Source} {pull : Pull}
    (hr : c.readers r = .pulled size source pull) :
    ReadStep c (.returned r size pull)
      ((c.setStream (c.stream.inner.putBack size source pull) none).setReader r .idle) :=
  ⟨r, .putBack, by simp only [readStep, hr, Reads.leave]⟩

/-- A read in flight at the take can return with as little as it has pulled so far. -/
theorem exists_return (hgate : Gate.Exclusive Reading.inside c.stream.readGate c.readers) {r : Nat}
    (hr : (c.readers r).inFlight) (hbrings : ¬(c.readers r).bringsAll) :
    ∃ es c', ReadRun c es c' ∧ (∀ q, ¬(c'.readers q).inFlight) ∧ copiedOut es ≠ c.heldBytes := by
  have hinside := Reading.inside_of_inFlight hr
  have hothers : ∀ q, ¬(Function.update c.readers r .idle q).inFlight := by
    intro q
    rw [Function.update_apply]
    split
    · exact id
    · rename_i hne
      exact fun hq => hne (hgate.unique hinside (Reading.inside_of_inFlight hq))
  have hheld : c.heldBytes = (c.readers r).held.reduceOption := by
    rw [Reads.heldBytes, held_eq hgate hinside]
  cases hreading : c.readers r with
  | pulling size source =>
    rw [hreading] at hbrings hheld
    cases source with
    | empty => exact absurd rfl hbrings
    | live items =>
      have hrelease : ReadStep c .quiet (c.setReader r (.pulled size (.live items) .released)) :=
        ⟨r, .release, by simp [readStep, hreading, Source.canWait]⟩
      have hputBack := putBack_step (c := c.setReader r (.pulled size (.live items) .released))
        (Function.update_self r _ c.readers)
      refine ⟨_, _, (Transition.Run.single hrelease).snoc hputBack, ?_, ?_⟩
      · intro q
        simp only [Reads.setReader, Reads.setStream, Function.update_idem]
        exact hothers q
      · rw [hheld]
        exact fun h => hbrings h.symm
  | pulled size source pull =>
    rw [hreading] at hbrings hheld
    refine ⟨_, _, .single (putBack_step hreading), hothers, ?_⟩
    rw [hheld]
    cases pull with
    | chunk bytes =>
      intro h
      have hlength : (copiedOut [.returned r size (.chunk bytes)]).length =
          bytes.length + source.bytes.length := by
        rw [h, Reading.held, Pull.signals, List.reduceOption_append, reduceOption_map_some,
          List.length_append]
        rfl
      have hcopied : (copiedOut [.returned r size (.chunk bytes)]).length =
          min size bytes.length := by
        simp [copiedOut, ReadEvent.copied, Pull.copied_chunk]
      refine hbrings ⟨by omega, List.length_eq_zero_iff.mp (by omega)⟩
    | _ => exact fun h => hbrings h.symm
  | _ => exact (hreading ▸ hr).elim

end Steps

/-- Whatever the reads do after the take, their bytes and those of the taken source are the
source's bytes, exactly when no read in flight keeps bytes back at the take. -/
theorem take_hands_over_rest_iff {contentType : String} {source : Source} {pre : List ReadEvent}
    {c c' : Reads} {taken : String × Source}
    (hrun : ReadRun (openReadable contentType source) pre c)
    (htake : takeReadable c = some (taken, c')) :
    (∀ post c'', ReadRun c' post c'' → (∀ r, ¬(c''.readers r).inFlight) →
      copiedOut (pre ++ post) ++ taken.2.bytes = source.bytes) ↔ c.NothingHeldBack := by
  obtain ⟨htaken, hclosed, hgate', hreaders⟩ := takeReadable_some htake
  have hsound := (reads_conserve hrun).1
  have hbytes := reads_conserve_bytes hrun
  have hheld : c'.heldBytes = c.heldBytes := by
    rw [Reads.heldBytes, Reads.heldBytes, Reads.held, Reads.held, hgate', hreaders]
  have hrest : taken.2.bytes = c.stream.inner.direction.signals.reduceOption := by
    rw [Source.bytes, htaken]
  have hexclusive : Gate.Exclusive Reading.inside c'.stream.readGate c'.readers := by
    rw [hgate', hreaders]
    exact hsound.gate
  have hwhole : ∀ post, copiedOut (pre ++ post) ++ taken.2.bytes = source.bytes ↔
      copiedOut post = c'.heldBytes := by
    intro post
    rw [hrest, ← hbytes, hheld, copiedOut, List.flatMap_append, List.append_assoc]
    constructor
    · intro h
      exact List.append_cancel_right (List.append_cancel_left h)
    · intro h
      rw [← h]
      rfl
  simp only [hwhole]
  constructor
  · intro hall r
    by_contra hnot
    rw [← hreaders] at hnot
    have hflight : (c'.readers r).inFlight := by
      revert hnot
      cases c'.readers r with
      | pulling => exact fun _ => trivial
      | pulled => exact fun _ => trivial
      | _ => exact fun hnot => (hnot trivial).elim
    obtain ⟨post, c'', hpost, hidle, hne⟩ := exists_return hexclusive hflight hnot
    exact hne (hall post c'' hpost hidle)
  · intro hnothing post c'' hpost hidle
    have hstart : c'.Overtaken := ⟨hexclusive, hclosed, fun r => by rw [hreaders]; exact hnothing r⟩
    have hkept := hpost.invariant (P := fun es d => d.Overtaken ∧
      copiedOut es ++ d.heldBytes = c'.heldBytes) ⟨hstart, rfl⟩ ?_
    · have hnone : c''.heldBytes = [] := by
        rw [Reads.heldBytes, held_of_idle hidle]
        rfl
      rw [← hkept.2, hnone, List.append_nil]
    · rintro es d e d' ⟨hd, hcopied⟩ hstep
      obtain ⟨hd', heq⟩ := hstep.move.overtaken hd
      refine ⟨hd', ?_⟩
      rw [← hcopied, heq, copiedOut, List.flatMap_append, List.flatMap_singleton,
        List.append_assoc]
      rfl

/-- A source of two chunks. -/
def shortSource : Source := .live [.chunk [1, 2], .chunk [3]]

/-- Whether the gate is free at the take, the bytes of the reads, and those of the taken source. -/
def observedTake (before after : List (Nat × ReadChoice)) : Option (Bool × Bytes × Bytes) :=
  (driveReads before (openReadable "text/plain" shortSource)).bind fun r =>
    (takeReadable r.2).bind fun taken =>
      (driveReads after taken.2).map fun r' =>
        (r.2.stream.readGate.isNone, copiedOut (r.1 ++ r'.1), taken.1.2.bytes)

theorem observedTake_some {before after : List (Nat × ReadChoice)} {free : Bool}
    {copied rest : Bytes} (h : observedTake before after = some (free, copied, rest)) :
    ∃ pre c taken c' post c'', ReadRun (openReadable "text/plain" shortSource) pre c ∧
      takeReadable c = some (taken, c') ∧ ReadRun c' post c'' ∧
      c.stream.readGate.isNone = free ∧ copiedOut (pre ++ post) = copied ∧
      taken.2.bytes = rest := by
  obtain ⟨⟨pre, c⟩, hpre, h⟩ := Option.bind_eq_some_iff.mp h
  obtain ⟨⟨taken, c'⟩, htake, h⟩ := Option.bind_eq_some_iff.mp h
  obtain ⟨⟨post, c''⟩, hpost, h⟩ := Option.map_eq_some_iff.mp h
  cases h
  exact ⟨pre, c, taken, c', post, c'', driveReads_run hpre, htake, driveReads_run hpost, rfl, rfl,
    rfl⟩

/-- The take finds the stub of a read that waits for its first chunk: the read brings that chunk,
and the rest of the source is gone. -/
theorem overtaken_read_loses_rest :
    ∃ pre c taken c' post c'', ReadRun (openReadable "text/plain" shortSource) pre c ∧
      takeReadable c = some (taken, c') ∧ ReadRun c' post c'' ∧
      copiedOut (pre ++ post) = [1, 2] ∧ taken.2.bytes = [] ∧ shortSource.bytes = [1, 2, 3] := by
  have hobserved : observedTake [(0, .call 8), (0, .lock), (0, .swap)] [(0, .poll), (0, .putBack)] =
      some (false, [1, 2], []) := by decide +kernel
  obtain ⟨pre, c, taken, c', post, c'', hpre, htake, hpost, -, hcopied, hbytes⟩ :=
    observedTake_some hobserved
  exact ⟨pre, c, taken, c', post, c'', hpre, htake, hpost, hcopied, hbytes, rfl⟩

theorem nothingHeldBack_of_free {c : Reads}
    (hgate : Gate.Exclusive Reading.inside c.stream.readGate c.readers)
    (hfree : c.stream.readGate.isNone = true) : c.NothingHeldBack := by
  intro r
  have houtside : ¬(c.readers r).inside := by
    rw [hgate r, Option.isNone_iff_eq_none.mp hfree]
    exact nofun
  revert houtside
  cases c.readers r with
  | pulling => exact fun h => (h trivial).elim
  | pulled => exact fun h => (h trivial).elim
  | _ => exact fun _ => trivial

/-- A take between two reads hands over everything after the first. -/
theorem undisturbed_take :
    ∃ pre c taken c', ReadRun (openReadable "text/plain" shortSource) pre c ∧
      takeReadable c = some (taken, c') ∧ copiedOut pre = [1] ∧ taken.2.bytes = [2, 3] ∧
      ∀ post c'', ReadRun c' post c'' → (∀ r, ¬(c''.readers r).inFlight) →
        copiedOut (pre ++ post) ++ taken.2.bytes = shortSource.bytes := by
  have hobserved : observedTake (wholeRead 0 1 1) [] = some (true, [1], [2, 3]) := by
    decide +kernel
  obtain ⟨pre, c, taken, c', post, c'', hpre, htake, hpost, hfree, hcopied, hbytes⟩ :=
    observedTake_some hobserved
  have hnothing := nothingHeldBack_of_free (reads_conserve hpre).1.gate hfree
  have hall := (take_hands_over_rest_iff hpre htake).mpr hnothing
  have hidle : ∀ r, ¬(c'.readers r).inFlight := by
    intro r
    obtain ⟨-, -, -, hreaders⟩ := takeReadable_some htake
    have houtside : ¬(c.readers r).inside := by
      rw [(reads_conserve hpre).1.gate r, Option.isNone_iff_eq_none.mp hfree]
      exact nofun
    rw [hreaders]
    exact fun hflight => houtside (Reading.inside_of_inFlight hflight)
  have hpre' : copiedOut pre = [1] := by
    have hwhole := hall [] c' .nil hidle
    rw [List.append_nil, hbytes] at hwhole
    exact List.append_cancel_right (hwhole.trans (show shortSource.bytes = [1] ++ [2, 3] from rfl))
  exact ⟨pre, c, taken, c', hpre, htake, hpre', hbytes, hall⟩

end Gwead
