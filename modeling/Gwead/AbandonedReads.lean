import Gwead.StreamTake

/-!
# Abandoned reads

The future of a read can be dropped wherever the read is suspended: at the gate, while the source
keeps it waiting, and at the yield after an empty chunk.  Between the swap-out and the put-back the
source lives only in that future.
-/

namespace Gwead

namespace Abandoned

/-! ### Dropping a read -/

inductive Event where
  | read (e : ReadEvent)
  /-- The future of a read is dropped in the phase `reading`. -/
  | dropped (reader : Nat) (reading : Reading)

inductive Choice where
  | read (reader : Nat) (choice : ReadChoice)
  | drop (reader : Nat)

/-- The phases in which a read is suspended.  An ended source keeps nobody waiting, and a read that
has a chunk runs to its end. -/
def suspended : Reading → Bool
  | .gated _ => true
  | .pulling _ source => source.canWait
  | _ => false

/-- The guard of the gate goes with the future that holds it. -/
def gateAfter (gate : Option Nat) : Reading → Option Nat
  | .gated _ => gate
  | _ => none

def dropRead (c : Reads) (r : Nat) : Option (Event × Reads) :=
  if suspended (c.readers r) then
    some (.dropped r (c.readers r), (c.setStream c.stream.inner
      (gateAfter c.stream.readGate (c.readers r))).setReader r .idle)
  else none

def step (c : Reads) : Choice → Option (Event × Reads)
  | .read r choice => (readStep c r choice).map fun (e, c') => (.read e, c')
  | .drop r => dropRead c r

def Step (c : Reads) (e : Event) (c' : Reads) : Prop := ∃ choice, step c choice = some (e, c')

abbrev Run : Reads → List Event → Reads → Prop := Transition.Run Step

def Event.read? : Event → Option ReadEvent
  | .read e => some e
  | .dropped _ _ => none

/-- The reads that return, in the order of their returns. -/
def readsOf (es : List Event) : List ReadEvent := es.filterMap Event.read?

/-- The count of a read fits its result, and a read that is dropped holds nothing of the source. -/
def Event.harmless : Event → Prop
  | .read e => e.fits
  | .dropped _ reading => reading.held = []

/-- The reads of a run go on where the ones before them have stopped: what they have not handed out
is still to come, and an end is the end of the source. -/
structure Continues (source : Source) (es : List Event) (c : Reads) : Prop where
  conserved : shown (readsOf es) ++ c.remaining = source.signals
  delivered : handedOut (readsOf es) <+: source.bytes
  eof : ∀ pre e post, es = pre ++ .read e :: post → e.code = some STREAM_EOF →
    shown (readsOf pre) = source.signals
  nonzero : ∀ r size pull, .returned r size pull ∈ readsOf es → 0 < size → pull.code size ≠ 0

/-! ### What one step can be -/

section Moves

variable {c c' : Reads} {e : Event}

inductive Move (c : Reads) : Event → Reads → Prop
  | read (e : ReadEvent) (c' : Reads) (h : ReadMove c e c') : Move c (.read e) c'
  | queue (r size : Nat) (hr : c.readers r = .gated size) :
      Move c (.dropped r (.gated size)) (c.setReader r .idle)
  | lose (r size : Nat) (source : Source) (hr : c.readers r = .pulling size source)
      (hwait : source.canWait = true) : Move c (.dropped r (.pulling size source))
        ((c.setStream c.stream.inner none).setReader r .idle)

theorem Step.move (h : Step c e c') : Move c e c' := by
  obtain ⟨choice, h⟩ := h
  cases choice with
  | read r choice =>
    obtain ⟨⟨e', reads⟩, hstep, h⟩ := Option.map_eq_some_iff.mp h
    cases h
    exact .read e' c' (ReadStep.move ⟨r, choice, hstep⟩)
  | drop r =>
    simp only [step, dropRead] at h
    split at h
    · rename_i hsuspended
      cases h
      revert hsuspended
      cases hr : c.readers r with
      | gated size => exact fun _ => .queue r size hr
      | pulling size source => exact fun hwait => .lose r size source hr hwait
      | _ => exact nofun
    · cases h

/-- What a step takes out of the stream for good. -/
def Event.taken : Event → List Signal
  | .read e => e.yielded
  | .dropped _ reading => reading.held

/-- What a step shows the callers of the reads. -/
def Event.shown : Event → List Signal
  | .read e => e.shown
  | .dropped _ _ => []

theorem Move.sound (h : c.Sound) (hmove : Move c e c') : c'.Sound := by
  cases hmove with
  | read e c' hread => exact hread.sound h
  | queue r size hr => exact h.keep (by rw [hr]; exact Iff.rfl) False.elim trivial
  | lose r size source hr hwait =>
    have hinside : (c.readers r).inside := by
      rw [hr]
      trivial
    exact h.handOver (h.gate.leave hinside id) hinside h.closed h.readable False.elim trivial

/-- A dropped read takes with it what it holds. -/
theorem Move.remaining (h : c.Sound) (hmove : Move c e c') :
    c.remaining = e.taken ++ c'.remaining := by
  cases hmove with
  | read e c' hread => exact hread.remaining h
  | queue r size hr =>
    have houtside : ¬(c.readers r).inside := by
      rw [hr]
      exact id
    rw [Reads.remaining, Reads.remaining, held_outside h.gate houtside]
    rfl
  | lose r size source hr hwait =>
    have hinside : (c.readers r).inside := by
      rw [hr]
      trivial
    have hstub := h.stub r (by rw [hr]; trivial)
    rw [Reads.remaining, Reads.remaining, held_eq h.gate hinside, hr, held_leave]
    rfl

/-- After a drop between the swap-out and the put-back, every later read returns `STREAM_EOF`. -/
theorem Move.drained (h : c.Sound) {r : Nat} {reading : Reading} (hflight : reading.inFlight)
    (hmove : Move c (.dropped r reading) c') : c'.Drained := by
  cases hmove with
  | queue r size hr => exact hflight.elim
  | lose r size source hr hwait =>
    have hinside : (c.readers r).inside := by
      rw [hr]
      trivial
    refine ⟨h.stub r (by rw [hr]; trivial), fun q => ?_⟩
    simp only [Reads.setReader, Reads.setStream, Function.update_apply]
    split
    · trivial
    · rename_i hne
      have houtside : ¬(c.readers q).inside := fun hq => hne (h.gate.unique hinside hq)
      revert houtside
      cases c.readers q with
      | pulling => exact fun hq => (hq trivial).elim
      | pulled => exact fun hq => (hq trivial).elim
      | _ => exact fun _ => trivial

end Moves

/-! ### Runs -/

section Runs

variable {contentType : String} {source : Source} {es : List Event} {c : Reads}

/-- Nothing is lost but what the dropped reads held. -/
theorem run_conserves (hrun : Run (openReadable contentType source) es c) :
    c.Sound ∧ es.flatMap Event.taken ++ c.remaining = source.signals := by
  refine hrun.invariant (P := fun es c =>
    c.Sound ∧ es.flatMap Event.taken ++ c.remaining = source.signals)
    ⟨sound_open contentType source, rfl⟩ ?_
  rintro es t e u ⟨hsound, hconserved⟩ hstep
  refine ⟨hstep.move.sound hsound, ?_⟩
  rw [hstep.move.remaining hsound] at hconserved
  rw [List.flatMap_append, List.flatMap_singleton, List.append_assoc]
  exact hconserved

theorem Event.shown_or_lt (e : Event) : e.shown = e.taken ∨ e.shown.length < e.taken.length := by
  cases e with
  | read e => exact e.shown_or_lt
  | dropped r reading =>
    cases hheld : reading.held with
    | nil => exact Or.inl hheld.symm
    | cons signal rest => exact Or.inr (by simp [shown, taken, hheld])

theorem Event.shown_eq_iff (e : Event) : e.shown = e.taken ↔ e.harmless := by
  cases e with
  | read e => exact e.shown_eq_iff
  | dropped r reading => exact eq_comm

theorem shown_readsOf (es : List Event) : shown (readsOf es) = es.flatMap Event.shown := by
  induction es with
  | nil => rfl
  | cons e es ih =>
    cases e with
    | read e =>
      rw [List.flatMap_cons, ← ih]
      rfl
    | dropped r reading =>
      rw [List.flatMap_cons, ← ih]
      rfl

/-- The reads of a run go on where the ones before them have stopped exactly when no read is
dropped while it holds bytes or an error of the source, and each count of copied bytes fits its
`i32` result. -/
theorem continues_iff (hrun : Run (openReadable contentType source) es c) :
    Continues source es c ↔ ∀ e ∈ es, e.harmless := by
  obtain ⟨-, hconserves⟩ := run_conserves hrun
  have hshown : ∀ es : List Event, shown (readsOf es) = es.flatMap Event.taken ↔
      ∀ e ∈ es, e.harmless := by
    intro es
    rw [shown_readsOf, flatMap_eq_flatMap_iff Event.shown_or_lt]
    exact forall₂_congr fun e _ => e.shown_eq_iff
  constructor
  · intro h
    rw [← hshown]
    exact List.append_cancel_right (h.conserved.trans hconserves.symm)
  · intro hall
    have hconserved : shown (readsOf es) ++ c.remaining = source.signals := by
      rw [(hshown es).mpr hall, hconserves]
    refine ⟨hconserved, ?_, fun pre e post hes hcode => ?_, fun r size pull hin hsize => ?_⟩
    · rw [Source.bytes, ← hconserved, List.reduceOption_append, reduceOption_shown_run]
      exact List.prefix_append _ _
    · obtain ⟨t, t', hpre, hstep, -⟩ := hrun.split hes
      obtain ⟨hsound, hconserves'⟩ := run_conserves hpre
      have hfits : e.fits := hall (.read e) (by simp [hes])
      have hpreHarmless : ∀ e ∈ pre, e.harmless := fun e he =>
        hall e (by rw [hes]; exact List.mem_append_left _ he)
      cases hstep.move with
      | read e c' hread =>
        rw [(hread.eof hsound hfits hcode).1, List.append_nil] at hconserves'
        exact ((hshown pre).mpr hpreHarmless).trans hconserves'
    · obtain ⟨e, he, hread⟩ := List.mem_filterMap.mp hin
      cases e with
      | dropped r reading => cases hread
      | read e =>
        cases hread
        obtain ⟨pre, post, hes⟩ := List.append_of_mem he
        obtain ⟨t, t', hpre, hstep, -⟩ := hrun.split hes
        cases hstep.move with
        | read e c' hread => exact hread.nonzero (run_conserves hpre).1 (hall _ he) hsize

end Runs

/-! ### Three bytes -/

def threeBytes : Source := .live [.chunk [1, 2, 3]]

/-- A read is dropped while the source keeps it waiting, and the next read on the handle returns
`STREAM_EOF` though none of the bytes has been handed out. -/
theorem dropped_read_ends_stream :
    ∃ es c, Run (openReadable "text/plain" threeBytes) es c ∧ (∀ e ∈ readsOf es, e.fits) ∧
      (readsOf es).filterMap ReadEvent.code = [STREAM_EOF] ∧ handedOut (readsOf es) = [] ∧
      ¬Continues threeBytes es c := by
  have hdropped : Run (openReadable "text/plain" threeBytes)
      ([.read .quiet] ++ [.read .quiet] ++ [.read .quiet] ++ [.dropped 0 (.pulling 8 threeBytes)]) _ :=
    (((Transition.Run.single ⟨.read 0 (.call 8), rfl⟩).snoc ⟨.read 0 .lock, rfl⟩).snoc
      ⟨.read 0 .swap, rfl⟩).snoc ⟨.drop 0, rfl⟩
  have hended : Run (openReadable "text/plain" threeBytes) _ _ :=
    ((((hdropped.snoc ⟨.read 1 (.call 8), rfl⟩).snoc ⟨.read 1 .lock, rfl⟩).snoc
      ⟨.read 1 .swap, rfl⟩).snoc ⟨.read 1 .poll, rfl⟩).snoc ⟨.read 1 .putBack, rfl⟩
  refine ⟨_, _, hended, by decide, by decide, by decide, fun h => ?_⟩
  exact absurd (h.eof _ _ [] rfl rfl) (by decide)

instance : DecidablePred Event.harmless
  | .read e => inferInstanceAs (Decidable e.fits)
  | .dropped _ reading => inferInstanceAs (Decidable (reading.held = []))

/-- One read is dropped at the gate, and another while it waits for the end of the source. -/
def sparedChoices : List Choice :=
  [.read 0 (.call 2), .read 0 .lock, .read 1 (.call 8), .read 0 .swap, .drop 1, .read 0 .poll,
    .read 0 .putBack] ++
    [.read 1 (.call 8), .read 1 .lock, .read 1 .swap, .read 1 .putBack] ++
    [.read 0 (.call 8), .read 0 .lock, .read 0 .swap, .drop 0] ++
    [.read 1 (.call 8), .read 1 .lock, .read 1 .swap, .read 1 .poll, .read 1 .putBack]

theorem spared_reads_continue :
    ∃ es c, Run (openReadable "text/plain" threeBytes) es c ∧
      handedOut (readsOf es) = [1, 2, 3] ∧
      (readsOf es).filterMap ReadEvent.code = [2, 1, STREAM_EOF] ∧ Continues threeBytes es c := by
  have hdriven : ((Transition.drive step sparedChoices (openReadable "text/plain" threeBytes)).map
      fun r => (handedOut (readsOf r.1), (readsOf r.1).filterMap ReadEvent.code,
        r.1.all fun e => decide e.harmless)) = some ([1, 2, 3], [2, 1, STREAM_EOF], true) := by
    decide +kernel
  obtain ⟨⟨es, c⟩, hdrive, h⟩ := Option.map_eq_some_iff.mp hdriven
  obtain ⟨hhanded, h⟩ := Prod.ext_iff.mp h
  obtain ⟨hcodes, hharmless⟩ := Prod.ext_iff.mp h
  have hrun : Run (openReadable "text/plain" threeBytes) es c :=
    Transition.drive_run (fun choice _ _ _ _ hstep => ⟨choice, hstep⟩) hdrive
  have hall : ∀ e ∈ es, e.harmless := fun e he =>
    of_decide_eq_true (List.all_eq_true.mp hharmless e he)
  exact ⟨es, c, hrun, hhanded, hcodes, (continues_iff hrun).mpr hall⟩

end Abandoned

end Gwead
