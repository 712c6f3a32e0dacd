import Mathlib.Data.Option.Basic
import Gwead.StreamTake

/-!
# A pipe

A writable whose receiver is wrapped as the source of a readable.  What is committed joins the
items of the source, wherever a read has taken it; the source waits while it has no item and a
sender is left.
-/

namespace Gwead

open Wrap

def STREAM_WRITE_CANCELLED_TEXT : String :=
  "write released by the step's cancellation token; nothing was committed"

/-! ### Items that arrive -/

def Source.push (item : Item) : Source → Source
  | .empty => .empty
  | .live items => .live (items ++ [item])

def StreamDirection.push (item : Item) : StreamDirection → StreamDirection
  | .readable source leftover => .readable (source.push item) leftover
  | .writable => .writable

def Reading.push (item : Item) : Reading → Reading
  | .pulling size source => .pulling size (source.push item)
  | .pulled size source pull => .pulled size (source.push item) pull
  | reading => reading

/-- The source is in one place, and what is not a live source stays as it is. -/
def Reads.push (c : Reads) (item : Item) : Reads where
  stream := { c.stream with
    inner := { c.stream.inner with direction := c.stream.inner.direction.push item } }
  readers r := (c.readers r).push item

/-- The items in the source of the stream, or of the read that holds it. -/
def Reading.queued : Reading → List Item
  | .pulling _ source => source.items
  | .pulled _ source _ => source.items
  | _ => []

def StreamDirection.queued : StreamDirection → List Item
  | .readable source _ => source.items
  | .writable => []

def Reads.queued (c : Reads) : List Item :=
  (match c.stream.readGate with
    | some r => (c.readers r).queued
    | none => []) ++ c.stream.inner.direction.queued

/-! ### The pipe -/

/-- Each write in flight has a sender of its own, and the kernel may have some. -/
structure Pipe where
  capacity : Nat
  writable : StreamInner
  lent : Nat
  writing : List Bytes
  reads : Reads

/-- `register_writable`, and its receiver registered as a readable. -/
def openPipe (contentType : String) (capacity : Nat) : Pipe :=
  ⟨capacity, ⟨.writable, false, none⟩, 0, [], openReadable contentType (.live [])⟩

namespace Pipe

inductive Choice where
  /-- `write_async` up to its send. -/
  | write (data : Bytes)
  | commit (i : Nat)
  /-- The token fires while the send waits. -/
  | cancel (i : Nat)
  /-- The future of the write is dropped. -/
  | abandon (i : Nat)
  | close
  | lend
  | giveBack
  | read (r : Nat) (choice : ReadChoice)

inductive Event where
  | quiet
  /-- Refused before a send: the handle is closed, or not a writable. -/
  | refused (data : Bytes) (code : Int)
  | committed (data : Bytes)
  | cancelled (data : Bytes)
  | read (e : ReadEvent)

/-- No sender is left. -/
def gone (p : Pipe) : Bool := p.writable.closed && p.lent == 0 && p.writing.isEmpty

/-- The handle's state after `close`. -/
def closedWritable (inner : StreamInner) : StreamInner :=
  { inner with closed := true, direction := .readable .empty none }

/-- A read that finds nothing in the channel. -/
def starved (p : Pipe) (r : Nat) : Bool :=
  match p.reads.readers r with
  | .pulling _ (.live []) => true
  | _ => false

/-- The source has an answer, or the step does not ask it. -/
def mayStep (p : Pipe) (r : Nat) : ReadChoice → Bool
  | .poll => !p.starved r || p.gone
  | _ => true

def writeCall (p : Pipe) (data : Bytes) : Event × Pipe :=
  if p.writable.closed then (.refused data STREAM_CLOSED, p)
  else
    match p.writable.direction with
    | .readable _ _ => (.refused data STREAM_DIRECTION_MISMATCH, p)
    | .writable => (.quiet, { p with writing := p.writing ++ [data] })

def step (p : Pipe) : Choice → Option (Event × Pipe)
  | .write data => some (p.writeCall data)
  | .commit i =>
    match p.writing[i]? with
    | none => none
    | some data =>
      if p.reads.queued.length < p.capacity then
        some (.committed data,
          { p with writing := p.writing.eraseIdx i, reads := p.reads.push (.chunk data) })
      else none
  | .cancel i =>
    match p.writing[i]? with
    | none => none
    | some data => some (.cancelled data,
        { p with
          writing := p.writing.eraseIdx i
          writable := { p.writable with lastError := some STREAM_WRITE_CANCELLED_TEXT } })
  | .abandon i => some (.quiet, { p with writing := p.writing.eraseIdx i })
  | .close => some (.quiet, { p with writable := closedWritable p.writable })
  | .lend =>
    match p.writable.closed, p.writable.direction with
    | false, .writable => some (.quiet, { p with lent := p.lent + 1 })
    | _, _ => none
  | .giveBack => some (.quiet, { p with lent := p.lent - 1 })
  | .read r choice =>
    if p.mayStep r choice then
      (readStep p.reads r choice).map fun (e, reads) => (.read e, { p with reads := reads })
    else none

def Step (p : Pipe) (e : Event) (p' : Pipe) : Prop := ∃ choice, p.step choice = some (e, p')

/-! ### What a run shows -/

/-- A write that returns: its data and its code. -/
def Event.wrote : Event → Option (Bytes × Int)
  | .refused data code => some (data, code)
  | .committed data => some (data, asI32 data.length)
  | .cancelled data => some (data, STREAM_CANCELLED)
  | _ => none

def Event.read? : Event → Option ReadEvent
  | .read e => some e
  | _ => none

def readsOf (es : List Event) : List ReadEvent := es.filterMap Event.read?

def writesOf (es : List Event) : List (Bytes × Int) := es.filterMap Event.wrote

/-- The data of the writes that return a count, in the order of their commits. -/
def accepted (es : List Event) : Bytes :=
  ((writesOf es).filter fun w => 0 ≤ w.2).flatMap Prod.fst

/-- The reads hand out a beginning of what the writes that return a count have written, what is not
handed out is still in the pipe, and an end means that no sender and no byte is left. -/
structure Delivers (es : List Event) (p : Pipe) : Prop where
  delivered : handedOut (readsOf es) <+: accepted es
  conserved : (handedOut (readsOf es)).map some ++ p.reads.remaining = (accepted es).map some
  eof : (∃ e ∈ readsOf es, e.code = some STREAM_EOF) →
    p.gone = true ∧ handedOut (readsOf es) = accepted es

/-! ### What one step can be -/

section Moves

variable {p p' : Pipe} {e : Event}

inductive Move (p : Pipe) : Event → Pipe → Prop
  | refuse (data : Bytes) (code : Int) (hclosed : code < 0) : Move p (.refused data code) p
  | write (data : Bytes) (hopen : p.writable.closed = false) :
      Move p .quiet { p with writing := p.writing ++ [data] }
  | commit (i : Nat) (data : Bytes) (hi : p.writing[i]? = some data) :
      Move p (.committed data)
        { p with writing := p.writing.eraseIdx i, reads := p.reads.push (.chunk data) }
  | cancel (i : Nat) (data : Bytes) (writable : StreamInner)
      (hclosed : writable.closed = p.writable.closed) :
      Move p (.cancelled data)
        { p with writing := p.writing.eraseIdx i, writable := writable }
  | abandon (i : Nat) : Move p .quiet { p with writing := p.writing.eraseIdx i }
  | close : Move p .quiet { p with writable := closedWritable p.writable }
  | lend (hopen : p.writable.closed = false) : Move p .quiet { p with lent := p.lent + 1 }
  | giveBack : Move p .quiet { p with lent := p.lent - 1 }
  | read (r : Nat) (choice : ReadChoice) (e : ReadEvent) (reads : Reads)
      (hstep : readStep p.reads r choice = some (e, reads))
      (hready : ∀ size, choice = .poll → p.reads.readers r = .pulling size (.live []) →
        p.gone = true) : Move p (.read e) { p with reads := reads }

theorem Step.move (h : p.Step e p') : Move p e p' := by
  obtain ⟨choice, h⟩ := h
  cases choice with
  | write data =>
    simp only [step, writeCall, Option.some.injEq] at h
    split at h
    · cases h
      exact .refuse data _ (by decide)
    · rename_i hopen
      split at h
      · cases h
        exact .refuse data _ (by decide)
      · cases h
        exact .write data (Bool.eq_false_iff.mpr hopen)
  | commit i =>
    simp only [step] at h
    split at h
    · cases h
    · rename_i data hi
      split at h
      · cases h
        exact .commit i data hi
      · cases h
  | cancel i =>
    simp only [step] at h
    split at h
    · cases h
    · rename_i data hi
      cases h
      exact .cancel i data _ rfl
  | abandon i =>
    cases h
    exact .abandon i
  | close =>
    cases h
    exact .close
  | lend =>
    simp only [step] at h
    split at h
    · rename_i hopen _
      cases h
      exact .lend hopen
    · cases h
  | giveBack =>
    cases h
    exact .giveBack
  | read r choice =>
    simp only [step] at h
    split at h
    · rename_i hready
      obtain ⟨⟨e, reads⟩, hstep, h⟩ := Option.map_eq_some_iff.mp h
      cases h
      refine .read r choice e reads hstep fun size hpoll hr => ?_
      subst hpoll
      simpa [mayStep, starved, hr] using hready
    · cases h

/-- Senders do not come back. -/
theorem Move.gone (hmove : Move p e p') (h : p.gone = true) : p'.gone = true := by
  simp only [Pipe.gone, Bool.and_eq_true, beq_iff_eq, List.isEmpty_iff] at h ⊢
  obtain ⟨⟨hclosed, hlent⟩, hwriting⟩ := h
  cases hmove with
  | refuse data code _ => exact ⟨⟨hclosed, hlent⟩, hwriting⟩
  | write data hopen =>
    rw [hclosed] at hopen
    cases hopen
  | commit i data hi =>
    rw [hwriting] at hi
    cases hi
  | cancel i data writable hsame => exact ⟨⟨hsame.trans hclosed, hlent⟩, by simp [hwriting]⟩
  | abandon i => exact ⟨⟨hclosed, hlent⟩, by simp [hwriting]⟩
  | close => exact ⟨⟨rfl, hlent⟩, hwriting⟩
  | lend hopen =>
    rw [hclosed] at hopen
    cases hopen
  | giveBack => exact ⟨⟨hclosed, by simp [hlent]⟩, hwriting⟩
  | read r choice e reads hstep hready => exact ⟨⟨hclosed, hlent⟩, hwriting⟩

theorem Move.not_gone_of_commit {i : Nat} {data : Bytes} (hi : p.writing[i]? = some data) :
    p.gone = false := by
  rw [Bool.eq_false_iff]
  intro h
  simp only [Pipe.gone, Bool.and_eq_true, List.isEmpty_iff] at h
  rw [h.2] at hi
  cases hi

end Moves

end Pipe

/-! ### Where the live source is -/

section Live

variable {c c' : Reads} {e : ReadEvent} {item : Item}

/-- The source is live, and no read has seen its end. -/
inductive Reads.Live (c : Reads) : Prop
  | stored (items : List Item) (leftover : Option Bytes)
      (h : c.stream.inner.direction = .readable (.live items) leftover)
  | pulling (r size : Nat) (items : List Item) (h : c.readers r = .pulling size (.live items))
  | pulled (r size : Nat) (items : List Item) (pull : Pull)
      (h : c.readers r = .pulled size (.live items) pull) (hpull : pull ≠ .eof)

/-- A live source is with the one read in flight, if there is one. -/
theorem Reads.Live.inFlight (h : c.Live) (hsound : c.Sound) {r : Nat}
    (hr : (c.readers r).inFlight) :
    (∃ size items, c.readers r = .pulling size (.live items)) ∨
      ∃ size items pull, c.readers r = .pulled size (.live items) pull ∧ pull ≠ .eof := by
  have hsame {q : Nat} (hq : (c.readers q).inFlight) : q = r :=
    hsound.gate.unique (Reading.inside_of_inFlight hr) (Reading.inside_of_inFlight hq)
  cases h with
  | stored items leftover h =>
    rw [hsound.stub r hr] at h
    cases h
  | pulling q size items h =>
    cases hsame (by rw [h]; trivial)
    exact .inl ⟨size, items, h⟩
  | pulled q size items pull h hpull =>
    cases hsame (by rw [h]; trivial)
    exact .inr ⟨size, items, pull, h, hpull⟩

/-- Without a read in flight the source is in the stream. -/
theorem Reads.Live.direction (h : c.Live) (hidle : ∀ r, ¬(c.readers r).inFlight) :
    ∃ items leftover, c.stream.inner.direction = .readable (.live items) leftover := by
  cases h with
  | stored items leftover h => exact ⟨items, leftover, h⟩
  | pulling r size items h => exact absurd (by rw [h]; trivial) (hidle r)
  | pulled r size items pull h _ => exact absurd (by rw [h]; trivial) (hidle r)

/-- A read that has not taken the source moves. -/
theorem Reads.Live.keep (h : c.Live) {r : Nat} (hr : ¬(c.readers r).inFlight) {inner : StreamInner}
    (hinner : inner.direction = c.stream.inner.direction) (gate : Option Nat)
    (reading : Reading) : ((c.setStream inner gate).setReader r reading).Live := by
  have hother {q : Nat} (hq : (c.readers q).inFlight) :
      ((c.setStream inner gate).setReader r reading).readers q = c.readers q := by
    refine Function.update_of_ne ?_ _ _
    rintro rfl
    exact hr hq
  cases h with
  | stored items leftover h => exact .stored items leftover (hinner.trans h)
  | pulling q size items h => exact .pulling q size items ((hother (by rw [h]; trivial)).trans h)
  | pulled q size items pull h hpull =>
    exact .pulled q size items pull ((hother (by rw [h]; trivial)).trans h) hpull

theorem live_pollSource (c : Reads) (r size : Nat) {items : List Item} (hne : items ≠ []) :
    (c.setReader r (pollSource size (.live items))).Live := by
  have hself (reading : Reading) : (c.setReader r reading).readers r = reading := by
    simp [Reads.setReader]
  cases items with
  | nil => exact absurd rfl hne
  | cons item rest =>
    cases item with
    | error text => exact .pulled r size rest (.error text) (hself _) (by rintro ⟨⟩)
    | chunk bytes =>
      cases bytes with
      | nil => exact .pulling r size rest (hself _)
      | cons b bs => exact .pulled r size rest (.chunk (b :: bs)) (hself _) (by rintro ⟨⟩)

/-- While its reads do not see the end of a live source, it stays live. -/
theorem Reads.Live.step (h : c.Live) (hsound : c.Sound) {r : Nat} {choice : ReadChoice}
    (hstep : readStep c r choice = some (e, c'))
    (hready : ∀ size, choice = .poll → c.readers r ≠ .pulling size (.live [])) :
    c'.Live ∧ ∀ q size, e ≠ .returned q size .eof := by
  have hself (c : Reads) (reading : Reading) : (c.setReader r reading).readers r = reading := by
    simp [Reads.setReader]
  unfold readStep at hstep
  split at hstep
  · rename_i size hr
    cases hstep
    exact ⟨h.keep (by rw [hr]; exact id) rfl c.stream.readGate (.gated size), by rintro _ _ ⟨⟩⟩
  · rename_i size hr
    split at hstep
    · cases hstep
      exact ⟨h.keep (by rw [hr]; exact id) rfl (some r) (.entered size), by rintro _ _ ⟨⟩⟩
    · cases hstep
  · rename_i size hr
    have hnot : ¬(c.readers r).inFlight := by
      rw [hr]
      exact id
    unfold swapOut at hstep
    split at hstep
    · cases hstep
      exact ⟨h.keep hnot rfl none .idle, by rintro _ _ ⟨⟩⟩
    · split at hstep
      · cases hstep
        exact ⟨h.keep hnot rfl none .idle, by rintro _ _ ⟨⟩⟩
      · rename_i source leftover hdirection
        cases hstep
        have hidle (q : Nat) : ¬(c.readers q).inFlight := by
          intro hq
          have hinside : (c.readers r).inside := by
            rw [hr]
            trivial
          cases hsound.gate.unique hinside (Reading.inside_of_inFlight hq)
          exact hnot hq
        obtain ⟨items, leftover', hlive⟩ := h.direction hidle
        cases hdirection.symm.trans hlive
        refine ⟨?_, by rintro _ _ ⟨⟩⟩
        cases leftover with
        | none => exact .pulling r size items (hself _ _)
        | some bytes => exact .pulled r size items (.chunk bytes) (hself _ _) (by rintro ⟨⟩)
  · rename_i size source hr
    cases hstep
    rcases h.inFlight hsound (by rw [hr]; trivial) with ⟨_, items, h'⟩ | ⟨_, _, _, h', -⟩
    · cases hr.symm.trans h'
      refine ⟨live_pollSource c r size ?_, by rintro _ _ ⟨⟩⟩
      rintro rfl
      exact hready size rfl hr
    · cases hr.symm.trans h'
  · rename_i size source hr
    split at hstep
    · cases hstep
      rcases h.inFlight hsound (by rw [hr]; trivial) with ⟨_, items, h'⟩ | ⟨_, _, _, h', -⟩
      · cases hr.symm.trans h'
        exact ⟨.pulled r size items .released (hself _ _) (by rintro ⟨⟩), by rintro _ _ ⟨⟩⟩
      · cases hr.symm.trans h'
    · cases hstep
  · rename_i size source pull hr
    cases hstep
    have hflight : (c.readers r).inFlight := by
      rw [hr]
      trivial
    rcases h.inFlight hsound hflight with ⟨_, _, h'⟩ | ⟨_, items, _, h', hpull⟩
    · cases hr.symm.trans h'
    · cases hr.symm.trans h'
      obtain ⟨-, hdirection⟩ := putBack_open hsound.closed (hsound.stub r hflight) size
        (.live items) pull
      have hback : pull.sourceBack (.live items) = .live items := by
        cases pull with
        | eof => exact absurd rfl hpull
        | _ => rfl
      rw [hback] at hdirection
      refine ⟨.stored items _ hdirection, fun q size' he => hpull ?_⟩
      cases he
      rfl
  · cases hstep

/-! ### An item that arrives -/

theorem Reading.inside_push (reading : Reading) (item : Item) :
    (reading.push item).inside ↔ reading.inside := by
  cases reading <;> exact Iff.rfl

theorem Reading.inFlight_push (reading : Reading) (item : Item) :
    (reading.push item).inFlight ↔ reading.inFlight := by
  cases reading <;> exact Iff.rfl

theorem signals_push {source : Source} {items : List Item} (h : source = .live items)
    (item : Item) : (source.push item).signals = source.signals ++ item.signals := by
  subst h
  simp [Source.push, Source.signals, Source.items]

theorem Reads.Live.push (h : c.Live) (item : Item) : (c.push item).Live := by
  cases h with
  | stored items leftover h =>
    exact .stored (items ++ [item]) leftover (by simp [Reads.push, h, StreamDirection.push, Source.push])
  | pulling r size items h =>
    exact .pulling r size (items ++ [item]) (by simp [Reads.push, h, Reading.push, Source.push])
  | pulled r size items pull h hpull =>
    exact .pulled r size (items ++ [item]) pull
      (by simp [Reads.push, h, Reading.push, Source.push]) hpull

/-- A read that has seen the end does not see items arrive. -/
theorem Reads.Sound.push (h : c.Sound) (hlive : c.Live) (item : Item) : (c.push item).Sound where
  gate r := (Reading.inside_push _ item).trans (h.gate r)
  closed := h.closed
  readable := by
    obtain ⟨source, leftover, hdirection, hne⟩ := h.readable
    exact ⟨source.push item, leftover, by simp [Reads.push, hdirection, StreamDirection.push], hne⟩
  stub r hr := by
    have hstub := h.stub r ((Reading.inFlight_push _ item).mp hr)
    simp [Reads.push, hstub, StreamDirection.push, Source.push]
  genuine r := by
    have hgenuine := h.genuine r
    cases hr : c.readers r with
    | pulled size source pull =>
      rcases hlive.inFlight h (by rw [hr]; trivial) with ⟨_, _, h'⟩ | ⟨_, items, _, h', hpull⟩
      · cases hr.symm.trans h'
      · cases hr.symm.trans h'
        rw [hr] at hgenuine
        cases pull with
        | eof => exact absurd rfl hpull
        | chunk bytes => simpa [Reads.push, hr, Reading.push, Reading.genuine] using hgenuine
        | _ => simp [Reads.push, hr, Reading.push, Reading.genuine]
    | _ => simp [Reads.push, hr, Reading.push, Reading.genuine]

/-- What arrives comes after everything that is there. -/
theorem remaining_push (hsound : c.Sound) (hlive : c.Live) (item : Item) :
    (c.push item).remaining = c.remaining ++ item.signals := by
  have hpushed := hsound.push hlive item
  by_cases hflight : ∃ r, (c.readers r).inFlight
  · obtain ⟨r, hr⟩ := hflight
    have hr' : ((c.push item).readers r).inFlight := (Reading.inFlight_push _ item).mpr hr
    have hheld : ((c.readers r).push item).held = (c.readers r).held ++ item.signals := by
      rcases hlive.inFlight hsound hr with ⟨size, items, h⟩ | ⟨size, items, pull, h, -⟩
      · rw [h]
        exact signals_push rfl item
      · rw [h]
        simp [Reading.push, Reading.held, signals_push rfl item]
    rw [Reads.remaining, Reads.remaining,
      held_eq hpushed.gate (Reading.inside_of_inFlight hr'),
      held_eq hsound.gate (Reading.inside_of_inFlight hr), hsound.stub r hr, hpushed.stub r hr']
    simpa [StreamDirection.signals, Source.signals, Source.items, Reads.push] using hheld
  · have hidle (r : Nat) : ¬(c.readers r).inFlight := fun hr => hflight ⟨r, hr⟩
    have hidle' (r : Nat) : ¬((c.push item).readers r).inFlight := fun hr =>
      hidle r ((Reading.inFlight_push _ item).mp hr)
    obtain ⟨items, leftover, hdirection⟩ := hlive.direction hidle
    rw [Reads.remaining, Reads.remaining, held_of_idle hidle, held_of_idle hidle']
    simp [Reads.push, hdirection, StreamDirection.push, StreamDirection.signals,
      signals_push rfl item]

/-! ### Short chunks -/

/-- Every chunk is short enough for an `i32`. -/
def Item.short : Item → Prop
  | .chunk bytes => FitsI32 bytes.length
  | .error _ => True

def Source.short (source : Source) : Prop := ∀ item ∈ source.items, item.short

def Pull.short : Pull → Prop
  | .chunk bytes => FitsI32 bytes.length
  | _ => True

def Reading.short : Reading → Prop
  | .pulling _ source => source.short
  | .pulled _ source pull => source.short ∧ pull.short
  | _ => True

structure Reads.Short (c : Reads) : Prop where
  stored : ∀ source leftover, c.stream.inner.direction = .readable source leftover →
    source.short ∧ ∀ bytes, leftover = some bytes → FitsI32 bytes.length
  readers : ∀ r, (c.readers r).short

theorem FitsI32.mono {m n : Nat} (h : FitsI32 n) (hle : m ≤ n) : FitsI32 m :=
  Nat.lt_of_le_of_lt hle h

theorem Source.short_push {source : Source} (h : source.short) {item : Item} (hitem : item.short) :
    (source.push item).short := by
  cases source with
  | empty => exact h
  | live items =>
    intro x hx
    rcases List.mem_append.mp hx with hold | hnew
    · exact h x hold
    · exact List.mem_singleton.mp hnew ▸ hitem

theorem Reads.Short.push (h : c.Short) {item : Item} (hitem : item.short) : (c.push item).Short where
  stored source leftover hdirection := by
    cases hd : c.stream.inner.direction with
    | writable => simp [Reads.push, hd, StreamDirection.push] at hdirection
    | readable source' leftover' =>
      simp only [Reads.push, hd, StreamDirection.push, StreamDirection.readable.injEq] at hdirection
      obtain ⟨rfl, rfl⟩ := hdirection
      obtain ⟨hsource, hleftover⟩ := h.stored source' leftover' hd
      exact ⟨Source.short_push hsource hitem, hleftover⟩
  readers r := by
    have hr := h.readers r
    cases hreader : c.readers r with
    | pulling size source =>
      rw [hreader] at hr
      simpa [Reads.push, hreader, Reading.push, Reading.short] using Source.short_push hr hitem
    | pulled size source pull =>
      rw [hreader] at hr
      simpa [Reads.push, hreader, Reading.push, Reading.short] using
        And.intro (Source.short_push hr.1 hitem) hr.2
    | _ => simp [Reads.push, hreader, Reading.push, Reading.short]

theorem Reads.Short.set (h : c.Short) {r : Nat} {reading : Reading} {inner : StreamInner}
    (gate : Option Nat)
    (hstored : ∀ source leftover, inner.direction = .readable source leftover →
      source.short ∧ ∀ bytes, leftover = some bytes → FitsI32 bytes.length)
    (hreading : reading.short) : ((c.setStream inner gate).setReader r reading).Short where
  stored := hstored
  readers q := by
    simp only [Reads.setReader, Reads.setStream, Function.update_apply]
    split
    · exact hreading
    · exact h.readers q

theorem short_pollSource (size : Nat) {source : Source} (h : source.short) :
    (pollSource size source).short := by
  cases source with
  | empty => exact ⟨h, trivial⟩
  | live items =>
    cases items with
    | nil => exact ⟨h, trivial⟩
    | cons item rest =>
      have hrest : (Source.live rest).short := fun x hx => h x (List.mem_cons_of_mem item hx)
      have hhead : item.short := h item List.mem_cons_self
      cases item with
      | error text => exact ⟨hrest, trivial⟩
      | chunk bytes =>
        cases bytes with
        | nil => exact hrest
        | cons b bs => exact ⟨hrest, hhead⟩

theorem short_putBack {inner : StreamInner} (h : ∀ source leftover,
      inner.direction = .readable source leftover →
        source.short ∧ ∀ bytes, leftover = some bytes → FitsI32 bytes.length)
    {source : Source} {pull : Pull} (hsource : source.short) (hpull : pull.short) (size : Nat) :
    ∀ source' leftover, (inner.putBack size source pull).direction = .readable source' leftover →
      source'.short ∧ ∀ bytes, leftover = some bytes → FitsI32 bytes.length := by
  intro source' leftover hback
  simp only [StreamInner.putBack] at hback
  split at hback
  · cases hback
    refine ⟨?_, fun rest hrest => ?_⟩
    · cases pull with
      | eof =>
        intro item hitem
        cases hitem
      | _ => exact hsource
    · cases pull with
      | chunk bytes =>
        simp only [Pull.newLeftover] at hrest
        split at hrest
        · cases hrest
          exact FitsI32.mono hpull (by rw [List.length_drop]; omega)
        · cases hrest
      | _ => cases hrest
  · exact h source' leftover hback

/-- Short chunks stay short, and every count of one fits. -/
theorem ReadMove.short (h : c.Short) (hmove : ReadMove c e c') : c'.Short ∧ e.fits := by
  have hempty : Source.empty.short := nofun
  cases hmove with
  | call r size hr => exact ⟨h.set c.stream.readGate h.stored trivial, trivial⟩
  | lock r size hr hgate => exact ⟨h.set (some r) h.stored trivial, trivial⟩
  | refuse r size why hr hwhy => exact ⟨h.set none h.stored trivial, trivial⟩
  | swap r size source leftover hr hclosed hdirection =>
    obtain ⟨hsource, hleftover⟩ := h.stored source leftover hdirection
    refine ⟨h.set c.stream.readGate ?_ ?_, trivial⟩
    · intro source' leftover' hstub
      cases hstub
      exact ⟨hempty, nofun⟩
    · cases leftover with
      | none => exact hsource
      | some bytes => exact ⟨hsource, hleftover bytes rfl⟩
  | poll r size source hr =>
    have hread := h.readers r
    rw [hr] at hread
    exact ⟨h.set c.stream.readGate h.stored (short_pollSource size hread), trivial⟩
  | release r size source hr hwait =>
    have hread := h.readers r
    rw [hr] at hread
    exact ⟨h.set c.stream.readGate h.stored ⟨hread, trivial⟩, trivial⟩
  | putBack r size source pull hr =>
    have hread := h.readers r
    rw [hr] at hread
    obtain ⟨hsource, hpull⟩ := hread
    refine ⟨h.set none (short_putBack h.stored hsource hpull size) trivial, ?_⟩
    cases pull with
    | chunk bytes => exact FitsI32.mono hpull (Nat.min_le_right size bytes.length)
    | _ => trivial

end Live

/-! ### Delivery -/

namespace Pipe

section Delivery

variable {p p' : Pipe} {e : Event} {es : List Event}

theorem readsOf_concat (es : List Event) (e : Event) :
    readsOf (es ++ [e]) = readsOf es ++ e.read?.toList := by
  cases he : e.read? <;> simp [readsOf, List.filterMap_append, he]

theorem accepted_concat (es : List Event) (e : Event) : accepted (es ++ [e]) =
    accepted es ++ (e.wrote.toList.filter fun w => 0 ≤ w.2).flatMap Prod.fst := by
  cases he : e.wrote <;> simp [accepted, writesOf, List.filterMap_append, he]

theorem returned_of_eof {e : ReadEvent} (hfits : e.fits) (hcode : e.code = some STREAM_EOF) :
    ∃ r size, e = .returned r size .eof := by
  cases e with
  | quiet => cases hcode
  | refused r why => cases why <;> cases hcode
  | returned r size pull =>
    cases pull with
    | chunk bytes => exact absurd (Option.some.inj hcode) (code_chunk_ne hfits (by decide))
    | eof => exact ⟨r, size, rfl⟩
    | _ => cases hcode

/-- What is accepted and not yet yielded is in the pipe; the source is live while a sender is left,
and an end comes after everything. -/
structure Kept (es : List Event) (p : Pipe) : Prop where
  sound : p.reads.Sound
  live : p.gone = false → p.reads.Live
  short : p.reads.Short
  conserved : yielded (readsOf es) ++ p.reads.remaining = (accepted es).map some
  fits : ∀ e ∈ readsOf es, e.fits
  ended : (∃ e ∈ readsOf es, e.code = some STREAM_EOF) → p.gone = true ∧ p.reads.remaining = []

theorem kept_open (contentType : String) (capacity : Nat) :
    Kept [] (openPipe contentType capacity) where
  sound := sound_open contentType (.live [])
  live _ := .stored [] none rfl
  short := by
    refine ⟨fun source leftover h => ?_, fun r => trivial⟩
    cases h
    exact ⟨nofun, nofun⟩
  conserved := rfl
  fits := nofun
  ended h := by
    obtain ⟨e, he, -⟩ := h
    cases he

/-- A step that leaves the reads alone and accepts nothing. -/
theorem Kept.quiet (h : Kept es p) (hreads : p'.reads = p.reads)
    (hgone : p.gone = true → p'.gone = true) (hread : e.read? = none)
    (haccepted : accepted (es ++ [e]) = accepted es) : Kept (es ++ [e]) p' := by
  have hsame : readsOf (es ++ [e]) = readsOf es := by simp [readsOf_concat, hread]
  refine ⟨hreads ▸ h.sound, fun hleft => ?_, hreads ▸ h.short, ?_, hsame ▸ h.fits, fun hend => ?_⟩
  · rw [hreads]
    refine h.live (Bool.eq_false_iff.mpr fun hgone' => ?_)
    rw [hgone hgone'] at hleft
    cases hleft
  · rw [hsame, haccepted, hreads, h.conserved]
  · rw [hsame] at hend
    obtain ⟨hgone', hremaining⟩ := h.ended hend
    exact ⟨hgone hgone', hreads ▸ hremaining⟩

theorem Kept.commit (h : Kept es p) {i : Nat} {data : Bytes} (hi : p.writing[i]? = some data)
    (hfits : FitsI32 data.length) : Kept (es ++ [.committed data])
      { p with writing := p.writing.eraseIdx i, reads := p.reads.push (.chunk data) } := by
  have hleft := Move.not_gone_of_commit hi
  have hlive := h.live hleft
  have hsame : readsOf (es ++ [.committed data]) = readsOf es := by simp [readsOf_concat, Event.read?]
  have hcount : 0 ≤ asI32 data.length := by
    rw [asI32_of_fits hfits]
    exact Int.natCast_nonneg data.length
  refine ⟨h.sound.push hlive _, fun _ => hlive.push _, h.short.push hfits, ?_, hsame ▸ h.fits,
    fun hend => ?_⟩
  · rw [hsame, remaining_push h.sound hlive, ← List.append_assoc, h.conserved, accepted_concat]
    simp [Event.wrote, hcount, Item.signals]
  · rw [hsame] at hend
    rw [(h.ended hend).1] at hleft
    cases hleft

theorem Kept.read (h : Kept es p) {r : Nat} {choice : ReadChoice} {e : ReadEvent} {reads : Reads}
    (hstep : readStep p.reads r choice = some (e, reads))
    (hready : ∀ size, choice = .poll → p.reads.readers r = .pulling size (.live []) →
      p.gone = true) : Kept (es ++ [.read e]) { p with reads := reads } := by
  have hmove : ReadMove p.reads e reads := ReadStep.move ⟨r, choice, hstep⟩
  have hreads : readsOf (es ++ [.read e]) = readsOf es ++ [e] := by
    simp [readsOf_concat, Event.read?]
  have haccepted : accepted (es ++ [.read e]) = accepted es := by
    simp [accepted_concat, Event.wrote]
  have hremaining := hmove.remaining h.sound
  obtain ⟨hshort, hfits⟩ := hmove.short h.short
  have hlive (hleft : p.gone = false) :=
    (h.live hleft).step h.sound hstep fun size hpoll hr => by
      rw [hready size hpoll hr] at hleft
      cases hleft
  refine ⟨hmove.sound h.sound, fun hleft => (hlive hleft).1, hshort, ?_, ?_, ?_⟩
  · rw [hreads, haccepted, ← h.conserved, hremaining, yielded, List.flatMap_append,
      List.flatMap_singleton, List.append_assoc]
    rfl
  · intro x hx
    rw [hreads] at hx
    rcases List.mem_append.mp hx with hold | hnew
    · exact h.fits x hold
    · exact List.mem_singleton.mp hnew ▸ hfits
  · rintro ⟨x, hx, hcode⟩
    rw [hreads] at hx
    rcases List.mem_append.mp hx with hold | hnew
    · obtain ⟨hgone, hnone⟩ := h.ended ⟨x, hold, hcode⟩
      rw [hnone] at hremaining
      exact ⟨hgone, (List.append_eq_nil_iff.mp hremaining.symm).2⟩
    · cases List.mem_singleton.mp hnew
      obtain ⟨hnone, -⟩ := hmove.eof h.sound hfits hcode
      rw [hnone] at hremaining
      refine ⟨?_, (List.append_eq_nil_iff.mp hremaining.symm).2⟩
      by_contra hleft
      obtain ⟨q, size, he⟩ := returned_of_eof hfits hcode
      exact (hlive (Bool.eq_false_iff.mpr hleft)).2 q size he

theorem Move.kept (hmove : Move p e p') (h : Kept es p)
    (hfits : ∀ data, e = .committed data → FitsI32 data.length) : Kept (es ++ [e]) p' := by
  have hgone := hmove.gone
  cases hmove with
  | refuse data code hcode =>
    exact h.quiet rfl hgone rfl (by simp [accepted_concat, Event.wrote, hcode])
  | write data hopen => exact h.quiet rfl hgone rfl (by simp [accepted_concat, Event.wrote])
  | commit i data hi => exact h.commit hi (hfits data rfl)
  | cancel i data writable hclosed =>
    have hcode : STREAM_CANCELLED < 0 := by decide
    exact h.quiet rfl hgone rfl (by simp [accepted_concat, Event.wrote, hcode])
  | abandon i => exact h.quiet rfl hgone rfl (by simp [accepted_concat, Event.wrote])
  | close => exact h.quiet rfl hgone rfl (by simp [accepted_concat, Event.wrote])
  | lend hopen => exact h.quiet rfl hgone rfl (by simp [accepted_concat, Event.wrote])
  | giveBack => exact h.quiet rfl hgone rfl (by simp [accepted_concat, Event.wrote])
  | read r choice e reads hstep hready => exact h.read hstep hready

/-- What the reads hand out is what they yield, and no errors are among it. -/
theorem Kept.handed (h : Kept es p) :
    (handedOut (readsOf es)).map some = yielded (readsOf es) := by
  have hshown := (shown_eq_yielded_iff (readsOf es)).mpr h.fits
  obtain ⟨front, back, -, hfront, -⟩ := List.map_eq_append_iff.mp h.conserved.symm
  have hbytes : handedOut (readsOf es) = front := by
    rw [← reduceOption_shown_run, hshown, ← hfront, reduceOption_map_some]
  rw [hbytes, hfront]

theorem Kept.delivers (h : Kept es p) : Delivers es p := by
  have hconserved := h.conserved
  rw [← h.handed] at hconserved
  refine ⟨?_, hconserved, fun hend => ?_⟩
  · obtain ⟨front, back, haccepted, hfront, -⟩ := List.map_eq_append_iff.mp hconserved.symm
    have hhanded := List.map_injective_iff.mpr (Option.some_injective UInt8) hfront
    rw [haccepted, hhanded]
    exact List.prefix_append _ _
  · obtain ⟨hgone, hnone⟩ := h.ended hend
    rw [hnone, List.append_nil] at hconserved
    exact ⟨hgone, List.map_injective_iff.mpr (Option.some_injective UInt8) hconserved⟩

end Delivery

/-- Where every write that is committed has fewer than 2^31 bytes, the reads hand out what the
writes that return a count have written. -/
theorem pipe_delivers {contentType : String} {capacity : Nat} {es : List Event} {p : Pipe}
    (hrun : Transition.Run Step (openPipe contentType capacity) es p)
    (hfits : ∀ data, .committed data ∈ es → FitsI32 data.length) : Delivers es p := by
  have hkept : (∀ data, .committed data ∈ es → FitsI32 data.length) → Kept es p :=
    hrun.invariant (P := fun es p =>
      (∀ data, .committed data ∈ es → FitsI32 data.length) → Kept es p)
      (fun _ => kept_open contentType capacity) fun es p e p' ih hstep hall =>
        hstep.move.kept (ih fun data hin => hall data (List.mem_append_left _ hin))
          fun data he => hall data (he ▸ List.mem_append_right _ (List.mem_singleton.mpr rfl))
  exact (hkept hfits).delivers

/-! ### A write of 2 GiB -/

/-- One write, and one read of a byte of it. -/
theorem run_write_read {data : Bytes} (hne : data ≠ []) :
    ∃ p, Transition.Run Step (openPipe "application/octet-stream" 16)
      ([.quiet, .committed data, .read .quiet, .read .quiet, .read .quiet, .read .quiet] ++
        [.read (.returned 0 1 (.chunk data))]) p := by
  have hpoll : pollSource 1 (.live [.chunk data]) = .pulled 1 (.live []) (.chunk data) := by
    simp [pollSource, Source.next, hne]
  have hmid : ∃ p, Transition.Run Step (openPipe "application/octet-stream" 16)
      ([.quiet] ++ [.committed data] ++ [.read .quiet] ++ [.read .quiet] ++ [.read .quiet]) p ∧
        p.reads.readers 0 = .pulling 1 (.live [.chunk data]) :=
    ⟨_, ((((Transition.Run.single ⟨.write data, rfl⟩).snoc ⟨.commit 0, rfl⟩).snoc
      ⟨.read 0 (.call 1), rfl⟩).snoc ⟨.read 0 .lock, rfl⟩).snoc ⟨.read 0 .swap, rfl⟩, rfl⟩
  obtain ⟨p, hrun, hr⟩ := hmid
  have hpolled : Step p (.read .quiet)
      { p with reads := p.reads.setReader 0 (.pulled 1 (.live []) (.chunk data)) } :=
    ⟨.read 0 .poll, by simp [step, mayStep, starved, readStep, hr, hpoll]⟩
  exact ⟨_, (hrun.snoc hpolled).snoc ⟨.read 0 .putBack, rfl⟩⟩

/-- Data of 2 GiB. -/
def hugeData : Bytes := List.replicate 2147483648 0

theorem hugeData_length : hugeData.length = 2147483648 := List.length_replicate

theorem hugeData_head : ∃ rest, hugeData = 0 :: rest := ⟨List.replicate 2147483647 0, List.replicate_succ⟩

attribute [irreducible] hugeData

/-- The write is committed and returns a negative number, and a byte of it is read. -/
theorem huge_write_delivered : ¬∀ (contentType : String) (capacity : Nat) (es : List Event)
    (p : Pipe), 0 < capacity → Transition.Run Step (openPipe contentType capacity) es p →
      Delivers es p := by
  intro hall
  obtain ⟨rest, hhead⟩ := hugeData_head
  have hne : hugeData ≠ [] := by
    rw [hhead]
    exact List.cons_ne_nil 0 rest
  obtain ⟨p, hrun⟩ := run_write_read hne
  have hcode : ¬0 ≤ asI32 hugeData.length := by
    rw [hugeData_length, asI32_eq]
    decide
  have hdelivered := (hall _ 16 _ p (by decide) hrun).delivered
  have haccepted : accepted ([.quiet, .committed hugeData, .read .quiet, .read .quiet,
      .read .quiet, .read .quiet] ++ [.read (.returned 0 1 (.chunk hugeData))]) = [] := by
    simp [accepted, writesOf, Event.wrote, hcode]
  have hfits : FitsI32 (min 1 hugeData.length) :=
    FitsI32.mono (show FitsI32 1 by decide) (Nat.min_le_left 1 _)
  have hhanded : (ReadEvent.returned 0 1 (.chunk hugeData)).handed = [0] := by
    rw [handed_chunk_of_fits hfits, hhead]
    rfl
  rw [haccepted, List.prefix_nil] at hdelivered
  have hin : ReadEvent.returned 0 1 (.chunk hugeData) ∈
      readsOf ([.quiet, .committed hugeData, .read .quiet, .read .quiet, .read .quiet,
        .read .quiet] ++ [.read (.returned 0 1 (.chunk hugeData))]) := by
    simp [readsOf, Event.read?]
  have hnothing := List.flatMap_eq_nil_iff.mp hdelivered _ hin
  rw [hhanded] at hnothing
  cases hnothing

/-- Two writes are parked while the handle is closed; the second is committed first, and the reader
then sees the end. -/
def closingChoices : List Choice :=
  [.write [1, 2], .write [3], .write [4], .commit 1, .close, .write [5], .cancel 1] ++
    [.read 0 (.call 8), .read 0 .lock, .read 0 .swap, .read 0 .poll, .read 0 .putBack, .commit 0] ++
    [.read 0 (.call 8), .read 0 .lock, .read 0 .swap, .read 0 .poll, .read 0 .putBack] ++
    [.read 0 (.call 8), .read 0 .lock, .read 0 .swap, .read 0 .poll, .read 0 .putBack]

theorem pipe_delivers_closing : ∃ es p,
    Transition.Run Step (openPipe "application/octet-stream" 1) es p ∧
      writesOf es = [([3], 1), ([5], STREAM_CLOSED), ([4], STREAM_CANCELLED), ([1, 2], 2)] ∧
      (readsOf es).filterMap ReadEvent.code = [1, 2, STREAM_EOF] ∧ Delivers es p := by
  have hdriven : ((Transition.drive step closingChoices
      (openPipe "application/octet-stream" 1)).map fun r =>
        (writesOf r.1, (readsOf r.1).filterMap ReadEvent.code)) =
      some ([([3], 1), ([5], STREAM_CLOSED), ([4], STREAM_CANCELLED), ([1, 2], 2)],
        [1, 2, STREAM_EOF]) := by
    decide +kernel
  obtain ⟨⟨es, p⟩, hdrive, h⟩ := Option.map_eq_some_iff.mp hdriven
  obtain ⟨hwrites, hcodes⟩ := Prod.ext_iff.mp h
  have hrun : Transition.Run Step (openPipe "application/octet-stream" 1) es p :=
    Transition.drive_run (fun choice _ _ _ _ hstep => ⟨choice, hstep⟩) hdrive
  refine ⟨es, p, hrun, hwrites, hcodes, pipe_delivers hrun fun data hin => ?_⟩
  have hwrote : (data, asI32 data.length) ∈ writesOf es :=
    List.mem_filterMap.mpr ⟨_, hin, rfl⟩
  change writesOf es = _ at hwrites
  rw [hwrites] at hwrote
  simp only [List.mem_cons, Prod.mk.injEq, List.not_mem_nil, or_false] at hwrote
  rcases hwrote with ⟨rfl, -⟩ | ⟨rfl, -⟩ | ⟨rfl, -⟩ | ⟨rfl, -⟩ <;> decide

end Pipe

end Gwead
