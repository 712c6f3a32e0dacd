import Mathlib.Data.List.ReduceOption
import Gwead.StreamReads

/-!
# Byte-exact delivery

What the callers of the reads see, in the order in which the reads return: codes, and as many of
the bytes in their buffers as the codes announce.
-/

namespace Gwead

open Wrap

/-! ### What the callers see -/

def ReadEvent.code : ReadEvent → Option Int
  | .quiet => none
  | .refused _ why => some why.code
  | .returned _ size pull => some (pull.code size)

/-- The bytes a read has put into its buffer. -/
def ReadEvent.copied : ReadEvent → Bytes
  | .returned _ size pull => pull.copied size
  | _ => []

/-- The bytes a read hands out: of those in the buffer, as many as its code announces. -/
def ReadEvent.handed (e : ReadEvent) : Bytes := e.copied.take (e.code.getD 0).toNat

def ReadEvent.shown (e : ReadEvent) : List Signal :=
  if e.code = some STREAM_IO_ERROR then [none] else e.handed.map some

def handedOut (es : List ReadEvent) : Bytes := es.flatMap ReadEvent.handed

/-- The bytes handed out and the errors reported, in the order of the returns. -/
def shown (es : List ReadEvent) : List Signal := es.flatMap ReadEvent.shown

def yielded (es : List ReadEvent) : List Signal := es.flatMap ReadEvent.yielded

def Source.bytes (source : Source) : Bytes := source.signals.reduceOption

/-- The number of bytes a read copies fits its `i32` result. -/
def ReadEvent.fits : ReadEvent → Prop
  | .returned _ size (.chunk bytes) => FitsI32 (min size bytes.length)
  | _ => True

instance : DecidablePred ReadEvent.fits
  | .quiet => isTrue trivial
  | .refused _ _ => isTrue trivial
  | .returned _ size (.chunk bytes) => inferInstanceAs (Decidable (FitsI32 (min size bytes.length)))
  | .returned _ _ (.error _) => isTrue trivial
  | .returned _ _ .eof => isTrue trivial
  | .returned _ _ .released => isTrue trivial

theorem Pull.code_chunk_of_fits {size : Nat} {bytes : Bytes} (h : FitsI32 (min size bytes.length)) :
    (Pull.chunk bytes).code size = (min size bytes.length : Nat) := asI32_of_fits h

theorem Pull.copied_chunk (size : Nat) (bytes : Bytes) :
    (Pull.chunk bytes).copied size = bytes.take size := by
  simp only [Pull.copied]
  rw [List.take_eq_take_iff]
  omega

theorem handed_returned (r size : Nat) (pull : Pull) : (ReadEvent.returned r size pull).handed =
    (pull.copied size).take (pull.code size).toNat := rfl

theorem handed_chunk_of_fits {r size : Nat} {bytes : Bytes}
    (h : FitsI32 (min size bytes.length)) :
    (ReadEvent.returned r size (.chunk bytes)).handed = bytes.take size := by
  rw [handed_returned, Pull.code_chunk_of_fits h, Int.toNat_natCast, Pull.copied_chunk, List.take_take,
    List.take_eq_take_iff]
  omega

theorem code_chunk_ne {size : Nat} {bytes : Bytes} (h : FitsI32 (min size bytes.length)) {code : Int}
    (hcode : code < 0) : (Pull.chunk bytes).code size ≠ code := by
  rw [Pull.code_chunk_of_fits h]
  omega

theorem ReadEvent.shown_of_fits {e : ReadEvent} (h : e.fits) : e.shown = e.yielded := by
  cases e with
  | quiet => rfl
  | refused r why => cases why <;> rfl
  | returned r size pull =>
    cases pull with
    | chunk bytes =>
      have hne : (ReadEvent.returned r size (.chunk bytes)).code ≠ some STREAM_IO_ERROR :=
        fun he => code_chunk_ne h (by decide) (Option.some.inj he)
      rw [shown, if_neg hne, handed_chunk_of_fits h]
      rfl
    | error text => rfl
    | eof => rfl
    | released => rfl

/-- A count that does not fit announces less than was copied. -/
theorem ReadEvent.shown_length_lt {e : ReadEvent} (h : ¬e.fits) :
    e.shown.length < e.yielded.length := by
  cases e with
  | quiet => exact absurd trivial h
  | refused r why => exact absurd trivial h
  | returned r size pull =>
    cases pull with
    | chunk bytes =>
      obtain ⟨hpos, hcode⟩ := asI32_lt h
      have hyielded : (ReadEvent.returned r size (.chunk bytes)).yielded.length =
          min size bytes.length := by
        simp [yielded]
      have hhanded : (ReadEvent.returned r size (.chunk bytes)).handed.length <
          min size bytes.length := by
        rw [handed_returned, Pull.code, List.length_take]
        omega
      rw [hyielded, shown]
      split
      · rw [List.length_singleton]
        omega
      · rwa [List.length_map]
    | _ => exact absurd trivial h

/-- Two ways to lay out a list agree on the whole exactly when they agree on each element, if an
element on which they differ is laid out shorter by the first. -/
theorem flatMap_eq_flatMap_iff {α β : Type} {f g : α → List β}
    (hshorter : ∀ a, f a = g a ∨ (f a).length < (g a).length) (l : List α) :
    l.flatMap f = l.flatMap g ↔ ∀ a ∈ l, f a = g a := by
  have hle : ∀ l : List α, (l.flatMap f).length ≤ (l.flatMap g).length := by
    intro l
    induction l with
    | nil => exact Nat.le_refl 0
    | cons a l ih =>
      simp only [List.flatMap_cons, List.length_append]
      rcases hshorter a with ha | ha
      · rw [ha]
        omega
      · omega
  induction l with
  | nil => simp
  | cons a l ih =>
    simp only [List.flatMap_cons, List.forall_mem_cons]
    rcases hshorter a with ha | ha
    · rw [ha, List.append_cancel_left_eq]
      exact ih.trans (and_iff_right rfl).symm
    · refine iff_of_false (fun he => ?_) fun he => absurd (congrArg List.length he.1) (by omega)
      have hlength := congrArg List.length he
      have hrest := hle l
      simp only [List.length_append] at hlength
      omega

theorem ReadEvent.shown_or_lt (e : ReadEvent) :
    e.shown = e.yielded ∨ e.shown.length < e.yielded.length := by
  by_cases h : e.fits
  · exact Or.inl (ReadEvent.shown_of_fits h)
  · exact Or.inr (ReadEvent.shown_length_lt h)

theorem ReadEvent.shown_eq_iff (e : ReadEvent) : e.shown = e.yielded ↔ e.fits := by
  refine ⟨fun he => ?_, ReadEvent.shown_of_fits⟩
  by_contra hnot
  have hlt := ReadEvent.shown_length_lt hnot
  rw [he] at hlt
  exact Nat.lt_irrefl _ hlt

/-- The callers see what was taken out of the stream exactly when every count fits. -/
theorem shown_eq_yielded_iff (es : List ReadEvent) :
    shown es = yielded es ↔ ∀ e ∈ es, e.fits := by
  rw [shown, yielded, flatMap_eq_flatMap_iff ReadEvent.shown_or_lt]
  exact forall₂_congr fun e _ => e.shown_eq_iff

/-! ### Runs -/

theorem sound_open (contentType : String) (source : Source) :
    (openReadable contentType source).Sound where
  gate := Gate.exclusive_start fun _ => id
  closed := rfl
  readable := ⟨source, none, rfl, nofun⟩
  stub _ h := h.elim
  genuine _ := trivial

/-- Nothing is lost, duplicated or reordered between the stream and what its reads yield. -/
theorem reads_conserve {contentType : String} {source : Source} {es : List ReadEvent} {c : Reads}
    (hrun : ReadRun (openReadable contentType source) es c) :
    c.Sound ∧ yielded es ++ c.remaining = source.signals := by
  refine hrun.invariant (P := fun es c => c.Sound ∧ yielded es ++ c.remaining = source.signals)
    ⟨sound_open contentType source, rfl⟩ ?_
  rintro es t e u ⟨hsound, hconserved⟩ hstep
  refine ⟨hstep.move.sound hsound, ?_⟩
  rw [hstep.move.remaining hsound] at hconserved
  rw [yielded, List.flatMap_append, List.flatMap_singleton, List.append_assoc]
  exact hconserved

/-- A phase in which a read of an ended stream can be. -/
def Reading.drained : Reading → Prop
  | .pulling _ source => source = .empty
  | .pulled _ _ pull => pull = .eof
  | _ => True

/-- The stream has ended for good. -/
structure Reads.Drained (c : Reads) : Prop where
  direction : c.stream.inner.direction = .readable .empty none
  readers : ∀ r, (c.readers r).drained

section Steps

variable {c c' : Reads} {e : ReadEvent}

/-- A read of an ended stream that goes on. -/
theorem Reads.Drained.keep (h : c.Drained) {r : Nat} {reading : Reading} {gate : Option Nat}
    {inner : StreamInner} (hinner : inner.direction = .readable .empty none)
    (hreading : reading.drained) :
    ((c.setStream inner gate).setReader r reading).Drained where
  direction := hinner
  readers q := by
    simp only [Reads.setReader, Reads.setStream, Function.update_apply]
    split
    · exact hreading
    · exact h.readers q

/-- The end sticks: every later read returns `STREAM_EOF`. -/
theorem ReadMove.drained (hsound : c.Sound) (h : c.Drained) (hmove : ReadMove c e c') :
    c'.Drained ∧ ∀ code, e.code = some code → code = STREAM_EOF := by
  have hreader : ∀ {r reading}, c.readers r = reading → reading.drained :=
    fun hr => hr ▸ h.readers _
  cases hmove with
  | call r size hr => exact ⟨h.keep h.direction trivial, nofun⟩
  | lock r size hr hgate => exact ⟨h.keep h.direction trivial, nofun⟩
  | refuse r size why hr hwhy =>
    rcases hwhy with hclosed | hwritable
    · rw [hsound.closed] at hclosed
      cases hclosed
    · rw [h.direction] at hwritable
      cases hwritable
  | swap r size source leftover hr hclosed hdirection =>
    rw [h.direction] at hdirection
    cases hdirection
    exact ⟨h.keep rfl rfl, nofun⟩
  | poll r size source hr =>
    cases hreader hr
    exact ⟨h.keep h.direction rfl, nofun⟩
  | release r size source hr hwait =>
    cases hreader hr
    cases hwait
  | putBack r size source pull hr =>
    cases hreader hr
    obtain ⟨-, hdirection⟩ := putBack_open hsound.closed h.direction size source .eof
    exact ⟨h.keep hdirection trivial, fun code hcode => (Option.some.inj hcode).symm⟩

/-- A read that returns `STREAM_EOF` has seen the end of the source. -/
theorem ReadMove.eof (hsound : c.Sound) (hfits : e.fits) (hcode : e.code = some STREAM_EOF)
    (hmove : ReadMove c e c') : c.remaining = [] ∧ c'.Drained := by
  cases hmove with
  | refuse r size why hr hwhy => cases why <;> cases hcode
  | putBack r size source pull hr =>
    cases pull with
    | chunk bytes => exact absurd (Option.some.inj hcode) (code_chunk_ne hfits (by decide))
    | error text => cases hcode
    | released => cases hcode
    | eof =>
      have hstub := hsound.stub r (by rw [hr]; trivial)
      have hend := hsound.genuine r
      rw [hr] at hend
      obtain ⟨-, hdirection⟩ := putBack_open hsound.closed hstub size source .eof
      have hinside : (c.readers r).inside := by
        rw [hr]
        trivial
      have hothers : ∀ q, q ≠ r → ¬(c.readers q).inFlight := fun q hq hflight =>
        hq (hsound.gate.unique hinside (Reading.inside_of_inFlight hflight))
      refine ⟨?_, hdirection, fun q => ?_⟩
      · rw [Reads.remaining, held_eq hsound.gate hinside, hr, hstub]
        exact (List.append_nil _).trans hend
      · simp only [Reads.setReader, Reads.setStream, Function.update_apply]
        split
        · trivial
        · rename_i hne
          cases hq : c.readers q with
          | pulling => exact absurd (by rw [hq]; trivial) (hothers q hne)
          | pulled => exact absurd (by rw [hq]; trivial) (hothers q hne)
          | _ => trivial
  | _ => cases hcode

/-- A read with room in its buffer never returns zero. -/
theorem ReadMove.nonzero (hsound : c.Sound) {r size : Nat} {pull : Pull}
    (hmove : ReadMove c (.returned r size pull) c')
    (hfits : (ReadEvent.returned r size pull).fits) (hsize : 0 < size) : pull.code size ≠ 0 := by
  cases hmove with
  | putBack r size source pull hr =>
    cases pull with
    | chunk bytes =>
      have hgenuine := hsound.genuine r
      rw [hr] at hgenuine
      have hlength : 0 < bytes.length := List.length_pos_iff.mpr hgenuine
      rw [Pull.code_chunk_of_fits hfits]
      omega
    | _ => exact (nomatch ·)

theorem ReadEvent.copied_of_cancelled (hfits : e.fits) (hcode : e.code = some STREAM_CANCELLED) :
    e.copied = [] := by
  cases e with
  | returned r size pull =>
    cases pull with
    | chunk bytes => exact absurd (Option.some.inj hcode) (code_chunk_ne hfits (by decide))
    | _ => rfl
  | _ => rfl

end Steps

/-! ### Delivery -/

theorem reduceOption_shown (e : ReadEvent) : e.shown.reduceOption = e.handed := by
  unfold ReadEvent.shown
  split
  · rename_i hcode
    rw [ReadEvent.handed, hcode]
    rfl
  · rw [List.reduceOption, List.filterMap_map]
    exact List.filterMap_some

theorem reduceOption_shown_run (es : List ReadEvent) :
    (shown es).reduceOption = handedOut es := by
  induction es with
  | nil => rfl
  | cons e es ih =>
    rw [shown, handedOut, List.flatMap_cons, List.flatMap_cons, List.reduceOption_append,
      reduceOption_shown]
    exact congrArg (e.handed ++ ·) ih

/-- What the callers of the reads of a run may rely on. -/
structure ByteExact (source : Source) (es : List ReadEvent) (c : Reads) : Prop where
  conserved : shown es ++ c.remaining = source.signals
  delivered : handedOut es <+: source.bytes
  eof : ∀ pre e post, es = pre ++ e :: post → e.code = some STREAM_EOF →
    shown pre = source.signals ∧ ∀ e' ∈ post, ∀ code, e'.code = some code → code = STREAM_EOF
  nonzero : ∀ r size pull, .returned r size pull ∈ es → 0 < size → pull.code size ≠ 0
  cancelled : ∀ e ∈ es, e.code = some STREAM_CANCELLED → e.copied = []

/-- The reads of a run deliver the source byte for byte exactly when each count of copied bytes
fits its `i32` result. -/
theorem byteExact_iff {contentType : String} {source : Source} {es : List ReadEvent} {c : Reads}
    (hrun : ReadRun (openReadable contentType source) es c) :
    ByteExact source es c ↔ ∀ e ∈ es, e.fits := by
  obtain ⟨-, hconserves⟩ := reads_conserve hrun
  constructor
  · intro h
    rw [← shown_eq_yielded_iff]
    exact List.append_cancel_right (h.conserved.trans hconserves.symm)
  · intro hfits
    have hshown := (shown_eq_yielded_iff es).mpr hfits
    have hconserved : shown es ++ c.remaining = source.signals := by rw [hshown, hconserves]
    refine ⟨hconserved, ?_, fun pre e post hes hcode => ?_, fun r size pull hin hsize => ?_,
      fun e hin hcode => ReadEvent.copied_of_cancelled (hfits e hin) hcode⟩
    · rw [Source.bytes, ← hconserved, List.reduceOption_append, reduceOption_shown_run]
      exact List.prefix_append _ _
    · subst hes
      obtain ⟨t, t', hpre, hstep, hpost⟩ := hrun.split rfl
      obtain ⟨hsound, hconserves'⟩ := reads_conserve hpre
      have hpreFits : ∀ e ∈ pre, e.fits := fun e he => hfits e (List.mem_append_left _ he)
      obtain ⟨hend, hdrained⟩ := hstep.move.eof hsound (hfits e (by simp)) hcode
      rw [hend, List.append_nil] at hconserves'
      refine ⟨((shown_eq_yielded_iff pre).mpr hpreFits).trans hconserves', ?_⟩
      have hlater := hpost.invariant (P := fun es c => c.Sound ∧ c.Drained ∧
        ∀ e' ∈ es, ∀ code, e'.code = some code → code = STREAM_EOF)
        ⟨hstep.move.sound hsound, hdrained, nofun⟩ ?_
      · exact hlater.2.2
      · rintro es s e' u ⟨hs, hd, hall⟩ hnext
        obtain ⟨hd', hcode'⟩ := hnext.move.drained hs hd
        refine ⟨hnext.move.sound hs, hd', fun e'' hin => ?_⟩
        rcases List.mem_append.mp hin with hin | hin
        · exact hall e'' hin
        · rw [List.mem_singleton.mp hin]
          exact hcode'
    · obtain ⟨pre, post, rfl⟩ := List.append_of_mem hin
      obtain ⟨t, t', hpre, hstep, -⟩ := hrun.split rfl
      exact hstep.move.nonzero (reads_conserve hpre).1 (hfits _ hin) hsize

/-- One read of a source that has one chunk. -/
theorem run_one_read (contentType : String) (size : Nat) {bytes : Bytes} (hne : bytes ≠ []) :
    ∃ c, ReadRun (openReadable contentType (.live [.chunk bytes]))
      ([.quiet, .quiet, .quiet, .quiet] ++ [.returned 0 size (.chunk bytes)]) c := by
  have hpoll : pollSource size (.live [.chunk bytes]) = .pulled size (.live []) (.chunk bytes) := by
    simp [pollSource, Source.next, hne]
  have hrun : ReadRun (openReadable contentType (.live [.chunk bytes])) _ _ :=
    (((Transition.Run.single ⟨0, .call size, rfl⟩).snoc ⟨0, .lock, rfl⟩).snoc
      ⟨0, .swap, rfl⟩).snoc ⟨0, .poll, rfl⟩
  rw [hpoll] at hrun
  exact ⟨_, hrun.snoc ⟨0, .putBack, rfl⟩⟩

/-- A chunk of 4 GiB. -/
def hugeChunk : Bytes := List.replicate 4294967296 0

theorem hugeChunk_length : hugeChunk.length = 4294967296 := List.length_replicate

attribute [irreducible] hugeChunk

/-- Read into a buffer of 4 GiB, all of the chunk is copied and the code is 0. -/
theorem huge_read_returns_zero :
    ∃ es c, ReadRun (openReadable "application/octet-stream" (.live [.chunk hugeChunk])) es c ∧
      (∃ pull, .returned 0 4294967296 pull ∈ es ∧ pull.code 4294967296 = 0) ∧
      handedOut es = [] ∧ c.remaining = [] ∧
      ¬ByteExact (.live [.chunk hugeChunk]) es c := by
  have hne : hugeChunk ≠ [] := by
    intro h
    have hlength := hugeChunk_length
    rw [h] at hlength
    cases hlength
  have hcode : (Pull.chunk hugeChunk).code 4294967296 = 0 := by
    rw [Pull.code, hugeChunk_length, asI32_eq]
    rfl
  obtain ⟨c, hrun⟩ := run_one_read "application/octet-stream" 4294967296 hne
  have hremaining : c.remaining = [] := by
    have hconserves := (reads_conserve hrun).2
    have hyielded : yielded ([.quiet, .quiet, .quiet, .quiet] ++
        [.returned 0 4294967296 (.chunk hugeChunk)]) = hugeChunk.map some := by
      simp [yielded, ReadEvent.yielded, List.take_of_length_le, hugeChunk_length]
    rw [hyielded] at hconserves
    simpa [Source.signals, Source.items, Item.signals] using hconserves
  have hin : ReadEvent.returned 0 4294967296 (.chunk hugeChunk) ∈
      [.quiet, .quiet, .quiet, .quiet] ++ [.returned 0 4294967296 (.chunk hugeChunk)] := by simp
  refine ⟨_, c, hrun, ⟨_, hin, hcode⟩, ?_, hremaining, fun h => ?_⟩
  · have hhanded : (ReadEvent.returned 0 4294967296 (.chunk hugeChunk)).handed = [] := by
      rw [handed_returned, hcode]
      rfl
    rw [handedOut, List.flatMap_append, List.flatMap_singleton, hhanded]
    rfl
  · exact h.nonzero 0 4294967296 _ hin (by decide) hcode

/-- A chunk, an empty one, an error and another chunk. -/
def mixedSource : Source := .live [.chunk [1, 2, 3], .chunk [], .error "reset", .chunk [4]]

/-- A whole read of one reader that polls the source `polls` times. -/
def wholeRead (r size polls : Nat) : List (Nat × ReadChoice) :=
  [(r, .call size), (r, .lock), (r, .swap)] ++ List.replicate polls (r, .poll) ++ [(r, .putBack)]

/-- Two readers share the handle; the second waits at the gate during the first read. -/
def sharedReads : List (Nat × ReadChoice) :=
  [(1, .call 8), (0, .call 2), (0, .lock), (0, .swap), (0, .poll), (0, .putBack), (1, .lock),
    (1, .swap), (1, .putBack)] ++ wholeRead 0 4 2 ++ wholeRead 1 4 1 ++ wholeRead 0 4 1 ++
      wholeRead 1 0 1

theorem sharedReads_exact :
    ∃ es c, ReadRun (openReadable "text/plain" mixedSource) es c ∧
      handedOut es = [1, 2, 3, 4] ∧
      es.filterMap ReadEvent.code = [2, 1, STREAM_IO_ERROR, 1, STREAM_EOF, STREAM_EOF] ∧
      ByteExact mixedSource es c := by
  have hdriven : ((driveReads sharedReads (openReadable "text/plain" mixedSource)).map fun r =>
      (handedOut r.1, r.1.filterMap ReadEvent.code, r.1.all fun e => decide e.fits)) =
        some ([1, 2, 3, 4], [2, 1, STREAM_IO_ERROR, 1, STREAM_EOF, STREAM_EOF], true) := by
    decide +kernel
  obtain ⟨⟨es, c⟩, hdrive, h⟩ := Option.map_eq_some_iff.mp hdriven
  obtain ⟨hhanded, h⟩ := Prod.ext_iff.mp h
  obtain ⟨hcodes, hfits⟩ := Prod.ext_iff.mp h
  have hrun := driveReads_run hdrive
  have hall : ∀ e ∈ es, e.fits := fun e he => of_decide_eq_true (List.all_eq_true.mp hfits e he)
  exact ⟨es, c, hrun, hhanded, hcodes, (byteExact_iff hrun).mpr hall⟩

end Gwead
