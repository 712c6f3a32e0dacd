import Gwead.Callee
import Gwead.Consistency
import Gwead.Streams
import Gwead.Waves

/-!
# The stream of a spawned callee

The callee writes into one end of a channel and the caller reads the other.  A supervisor joins
the callee, records its failure beside the channel and then drops a sender it has held since the
start, so the end of the channel means that the outcome is known.
-/

namespace Gwead

def STREAM_FANOUT_CAPACITY : Nat := 16

/-- How the callee's task was joined. -/
abbrev Joined := Except JoinError (Except KernelError ActionResult)

/-- What the stream carries after its last chunk: nothing for a success or a cancel. -/
def spawnedCalleeFailure (plugin action : String) (joined : Joined) : Option String :=
  let result :=
    match joined with
    | .ok result => result
    | .error failure => .error (joinError "background action" failure)
  match result with
  | .ok _ => none
  | .error (.cancelled _) => none
  | .error e => some (plugin ++ "." ++ action ++ " failed: " ++ e.display)

/-- Where the supervisor stands; it holds its sender until it is done. -/
inductive Supervisor where
  | joining
  | joined (how : Joined)
  | recorded (how : Joined)
  | done (how : Joined)

/-- Where the source in the caller's table stands. -/
inductive Consumer where
  | idle
  | waiting
  /-- The channel is exhausted and the outcome not yet taken. -/
  | exhausted
  | ended
  /-- The caller has dropped the source. -/
  | gone
  deriving DecidableEq

/-- `sink` says whether the callee's table has a sender; each write in flight has one too. -/
structure CalleeStream where
  plugin : String
  action : String
  queue : List Item
  sink : Bool
  writing : List Item
  supervisor : Supervisor
  outcome : Option String
  consumer : Consumer

def openCalleeStream (plugin action : String) : CalleeStream :=
  ⟨plugin, action, [], true, [], .joining, none, .idle⟩

/-- The stream of a callee that could be spawned. -/
def KernelView.openStreaming {ξ : Type} (kernel : KernelView ξ) (now : Nat) (call : InvokedCall ξ)
    (parentCancel : Option CancelToken) (parentDeadline : Option Nat) :
    Except KernelError CalleeStream :=
  match kernel.executeActionInvokedStreaming now call parentCancel parentDeadline with
  | .error e => .error e
  | .ok (started, _) => .ok (openCalleeStream started.plugin call.action)

namespace CalleeStream

inductive Choice where
  /-- A write clones the sender. -/
  | write (item : Item)
  /-- A write in flight commits its item. -/
  | commit (i : Nat)
  /-- A write in flight is released, or dropped. -/
  | release (i : Nat)
  /-- The producer closes its handle, or the callee's table is dropped. -/
  | close
  | join (how : Joined)
  | record
  | drop
  | pull
  | poll
  | settle
  | abandon

inductive Event where
  | quiet
  | sent (item : Item)
  | joined (how : Joined)
  /-- A pull yields an item, or the end of the stream. -/
  | yielded (item : Option Item)

/-- No sender is left: neither the callee's, nor one of a write, nor the supervisor's. -/
def closed (c : CalleeStream) : Bool :=
  !c.sink && c.writing.isEmpty &&
    match c.supervisor with
    | .done _ => true
    | _ => false

/-- One step of the producer, the supervisor or the consumer. -/
def step (c : CalleeStream) : Choice → Option (Event × CalleeStream)
  | .write item => if c.sink then some (.quiet, { c with writing := c.writing ++ [item] }) else none
  | .commit i =>
    match c.writing[i]? with
    | none => none
    | some item =>
      if c.queue.length < STREAM_FANOUT_CAPACITY ∧ c.consumer ≠ .gone then
        some (.sent item,
          { c with writing := c.writing.eraseIdx i, queue := c.queue ++ [item] })
      else none
  | .release i => some (.quiet, { c with writing := c.writing.eraseIdx i })
  | .close => some (.quiet, { c with sink := false })
  | .join how =>
    match c.supervisor with
    | .joining => some (.joined how, { c with supervisor := .joined how })
    | _ => none
  | .record =>
    match c.supervisor with
    | .joined how =>
      some (.quiet, { c with
        supervisor := .recorded how
        outcome := (spawnedCalleeFailure c.plugin c.action how).or c.outcome })
    | _ => none
  | .drop =>
    match c.supervisor with
    | .recorded how => some (.quiet, { c with supervisor := .done how })
    | _ => none
  | .pull =>
    match c.consumer with
    | .idle => some (.quiet, { c with consumer := .waiting })
    | .ended => some (.yielded none, c)
    | _ => none
  | .poll =>
    match c.consumer, c.queue with
    | .waiting, item :: rest =>
      some (.yielded (some item), { c with queue := rest, consumer := .idle })
    | .waiting, [] => if c.closed then some (.quiet, { c with consumer := .exhausted }) else none
    | _, _ => none
  | .settle =>
    match c.consumer, c.outcome with
    | .exhausted, some text =>
      some (.yielded (some (.error text)), { c with outcome := none, consumer := .idle })
    | .exhausted, none => some (.yielded none, { c with consumer := .ended })
    | _, _ => none
  | .abandon => some (.quiet, { c with consumer := .gone, queue := [] })

def Step (c : CalleeStream) (e : Event) (c' : CalleeStream) : Prop :=
  ∃ choice, c.step choice = some (e, c')

abbrev CalleeRun : CalleeStream → List Event → CalleeStream → Prop := Transition.Run Step

/-! ### What a run shows -/

def Event.sent? : Event → Option Item
  | .sent item => some item
  | _ => none

def Event.yielded? : Event → Option (Option Item)
  | .yielded item => some item
  | _ => none

def Event.joined? : Event → Option Joined
  | .joined how => some how
  | _ => none

def sentItems (es : List Event) : List Item := es.filterMap Event.sent?

/-- What the pulls yield, with `none` for the end. -/
def yields (es : List Event) : List (Option Item) := es.filterMap Event.yielded?

/-- How the callee has ended, if it has. -/
def ending (es : List Event) : Option Joined := (es.filterMap Event.joined?).head?

/-- The error item a callee owes its stream. -/
def owed (plugin action : String) (how : Joined) : List Item :=
  ((spawnedCalleeFailure plugin action how).map Item.error).toList

/-- The callee has ended in success or in a cancel. -/
def EndsQuietly (how : Joined) : Prop :=
  (∃ result, how = .ok (.ok result)) ∨ ∃ atStep, how = .ok (.error (.cancelled atStep))

/-- The pulls yield a beginning of what was sent and the error owed, then the end for ever; and
the end only when all of it was yielded and the callee has ended. -/
structure Delivers (plugin action : String) (es : List Event) : Prop where
  shape : ∃ items ends, yields es = items.map some ++ List.replicate ends none ∧
    items <+: sentItems es ++ ((ending es).map (owed plugin action)).getD [] ∧
    (0 < ends → ∃ how, ending es = some how ∧ items = sentItems es ++ owed plugin action how)

/-! ### Bookkeeping of events -/

section Events

variable {es : List Event} {e : Event}

@[simp] theorem sentItems_concat : sentItems (es ++ [e]) = sentItems es ++ e.sent?.toList := by
  cases he : e.sent? <;> simp [sentItems, List.filterMap_append, he]

@[simp] theorem yields_concat : yields (es ++ [e]) = yields es ++ e.yielded?.toList := by
  cases he : e.yielded? <;> simp [yields, List.filterMap_append, he]

@[simp] theorem ending_concat : ending (es ++ [e]) = (ending es).or e.joined? := by
  cases he : e.joined? <;> simp [ending, List.filterMap_append, he, List.head?_append]

end Events

/-! ### One step -/

section Steps

variable {plugin action : String} {es : List Event} {c c' : CalleeStream} {e : Event}
  {choice : Choice}

theorem closed_iff : c.closed = true ↔
    c.sink = false ∧ c.writing = [] ∧ ∃ how, c.supervisor = .done how := by
  rw [closed]
  cases c.supervisor <;> simp

/-- What the supervisor knows, and what it has recorded. -/
structure Supervised (es : List Event) (c : CalleeStream) : Prop where
  joining : c.supervisor = .joining → ending es = none ∧ c.outcome = none
  joined : ∀ how, c.supervisor = .joined how → ending es = some how ∧ c.outcome = none
  recorded : ∀ how, c.supervisor = .recorded how →
    ending es = some how ∧ c.outcome = spawnedCalleeFailure c.plugin c.action how
  done : ∀ how, c.supervisor = .done how → ending es = some how

/-- Where the items are: with the consumer or in the channel; then, when no sender is left, the
outcome is settled; or the consumer is gone. -/
inductive Account (es : List Event) (c : CalleeStream) : Prop
  | «open» (received : List Item) (hyields : yields es = received.map some)
      (hqueue : received ++ c.queue = sentItems es)
      (hdone : ∀ how, c.supervisor = .done how →
        c.outcome = spawnedCalleeFailure c.plugin c.action how)
      (hexhausted : c.consumer = .exhausted → c.closed = true ∧ c.queue = [])
      (hended : c.consumer ≠ .ended) (hgone : c.consumer ≠ .gone)
  | settled (how : Joined) (ends : Nat) (hclosed : c.closed = true)
      (hdone : c.supervisor = .done how) (hqueue : c.queue = []) (houtcome : c.outcome = none)
      (hyields : yields es =
        (sentItems es ++ owed c.plugin c.action how).map some ++ List.replicate ends none)
      (hends : 0 < ends → c.consumer = .ended) (hgone : c.consumer ≠ .gone)
  | gone (hgone : c.consumer = .gone) (hdelivers : Delivers c.plugin c.action es)

structure Tracked (plugin action : String) (es : List Event) (c : CalleeStream) : Prop where
  plugin : c.plugin = plugin
  action : c.action = action
  supervised : Supervised es c
  account : Account es c

/-- The steps that can be made, one after the other. -/
inductive Move (c : CalleeStream) : Event → CalleeStream → Prop
  | write (item : Item) (hsink : c.sink = true) :
      Move c .quiet { c with writing := c.writing ++ [item] }
  | commit (i : Nat) (item : Item) (hi : c.writing[i]? = some item) (hgone : c.consumer ≠ .gone) :
      Move c (.sent item) { c with writing := c.writing.eraseIdx i, queue := c.queue ++ [item] }
  | release (i : Nat) : Move c .quiet { c with writing := c.writing.eraseIdx i }
  | close : Move c .quiet { c with sink := false }
  | join (how : Joined) (h : c.supervisor = .joining) :
      Move c (.joined how) { c with supervisor := .joined how }
  | record (how : Joined) (h : c.supervisor = .joined how) : Move c .quiet { c with
      supervisor := .recorded how
      outcome := (spawnedCalleeFailure c.plugin c.action how).or c.outcome }
  | drop (how : Joined) (h : c.supervisor = .recorded how) :
      Move c .quiet { c with supervisor := .done how }
  | pull (h : c.consumer = .idle) : Move c .quiet { c with consumer := .waiting }
  | again (h : c.consumer = .ended) : Move c (.yielded none) c
  | receive (item : Item) (rest : List Item) (h : c.consumer = .waiting)
      (hqueue : c.queue = item :: rest) :
      Move c (.yielded (some item)) { c with queue := rest, consumer := .idle }
  | exhaust (h : c.consumer = .waiting) (hqueue : c.queue = []) (hclosed : c.closed = true) :
      Move c .quiet { c with consumer := .exhausted }
  | report (text : String) (h : c.consumer = .exhausted) (houtcome : c.outcome = some text) :
      Move c (.yielded (some (.error text))) { c with outcome := none, consumer := .idle }
  | finish (h : c.consumer = .exhausted) (houtcome : c.outcome = none) :
      Move c (.yielded none) { c with consumer := .ended }
  | abandon : Move c .quiet { c with consumer := .gone, queue := [] }

theorem step_move (h : c.step choice = some (e, c')) : Move c e c' := by
  cases choice with
  | write item =>
    simp only [step] at h
    split at h
    · rename_i hsink
      cases h
      exact .write item hsink
    · cases h
  | commit i =>
    simp only [step] at h
    split at h
    · cases h
    · rename_i item hi
      split at h
      · rename_i hroom
        cases h
        exact .commit i item hi hroom.2
      · cases h
  | release i =>
    cases h
    exact .release i
  | close =>
    cases h
    exact .close
  | join how =>
    simp only [step] at h
    split at h
    · rename_i hjoining
      cases h
      exact .join how hjoining
    · cases h
  | record =>
    simp only [step] at h
    split at h
    · rename_i how hjoined
      cases h
      exact .record how hjoined
    · cases h
  | drop =>
    simp only [step] at h
    split at h
    · rename_i how hrecorded
      cases h
      exact .drop how hrecorded
    · cases h
  | pull =>
    simp only [step] at h
    split at h
    · rename_i hidle
      cases h
      exact .pull hidle
    · rename_i hended
      cases h
      exact .again hended
    · cases h
  | poll =>
    simp only [step] at h
    split at h
    · rename_i item rest hwaiting hqueue
      cases h
      exact .receive item rest hwaiting hqueue
    · rename_i hwaiting hqueue
      split at h
      · rename_i hclosed
        cases h
        exact .exhaust hwaiting hqueue hclosed
      · cases h
    · cases h
  | settle =>
    simp only [step] at h
    split at h
    · rename_i text hexhausted houtcome
      cases h
      exact .report text hexhausted houtcome
    · rename_i hexhausted houtcome
      cases h
      exact .finish hexhausted houtcome
    · cases h
  | abandon =>
    cases h
    exact .abandon

theorem Account.exhausted (ha : Account es c) (h : c.consumer = .exhausted) :
    ∃ how, c.supervisor = .done how := by
  cases ha with
  | «open» received hyields hqueue hdone hexhausted hended hgone =>
    exact (closed_iff.mp (hexhausted h).1).2.2
  | settled how ends hclosed hdone hqueue houtcome hyields hends hgone => exact ⟨how, hdone⟩
  | gone hgone hdelivers => exact nomatch h.symm.trans hgone

theorem Supervised.move (hs : Supervised es c) (ha : Account es c) (h : Move c e c') :
    Supervised (es ++ [e]) c' := by
  cases h with
  | join how hjoining =>
    obtain ⟨hending, houtcome⟩ := hs.joining hjoining
    constructor <;> simp [hending, houtcome, Event.joined?]
  | record how hjoined =>
    obtain ⟨hending, houtcome⟩ := hs.joined how hjoined
    constructor <;> simp [hending, houtcome, Event.joined?]
  | drop how hrecorded =>
    obtain ⟨hending, -⟩ := hs.recorded how hrecorded
    constructor <;> simp [hending, Event.joined?]
  | report text hexhausted houtcome =>
    -- the outcome is only taken when the supervisor is done with it
    obtain ⟨how, hdone⟩ := ha.exhausted hexhausted
    constructor <;> simp [hdone, hs.done how hdone, Event.joined?]
  | _ =>
    exact ⟨by simpa [Event.joined?] using hs.joining, by simpa [Event.joined?] using hs.joined,
      by simpa [Event.joined?] using hs.recorded, by simpa [Event.joined?] using hs.done⟩

theorem Account.delivers (hs : Supervised es c) (ha : Account es c) :
    Delivers c.plugin c.action es := by
  cases ha with
  | «open» received hyields hqueue hdone hexhausted hended hgone =>
    refine ⟨received, 0, by simp [hyields], ?_, fun h => absurd h (Nat.lt_irrefl 0)⟩
    have hsent : received <+: sentItems es := ⟨c.queue, hqueue⟩
    exact hsent.trans (List.prefix_append _ _)
  | settled how ends hclosed hdone hqueue houtcome hyields hends hgone =>
    refine ⟨_, ends, hyields, ?_, fun _ => ⟨how, hs.done how hdone, rfl⟩⟩
    simp [hs.done how hdone]
  | gone hgone hdelivers => exact hdelivers

/-- A step that shows nothing of the stream keeps what was delivered. -/
theorem Delivers.quiet (h : Delivers plugin action es) (hsent : e.sent? = none)
    (hyielded : e.yielded? = none) (hjoined : e.joined? = none ∨ ending es = none) :
    Delivers plugin action (es ++ [e]) := by
  obtain ⟨items, ends, hshape, hitems, hends⟩ := h.shape
  refine ⟨items, ends, by simpa [hyielded] using hshape, ?_, fun h => ?_⟩
  · rw [sentItems_concat, hsent, Option.toList_none, List.append_nil]
    rcases hjoined with hjoined | hnone
    · simpa [hjoined] using hitems
    · refine List.IsPrefix.trans ?_ (List.prefix_append _ _)
      simpa [hnone] using hitems
  · obtain ⟨how, hending, heq⟩ := hends h
    exact ⟨how, by simp [hending], by simpa [hsent] using heq⟩

/-- After the consumer has gone, nothing is sent or yielded. -/
theorem account_gone (hs : Supervised es c) (hgone : c.consumer = .gone)
    (hdelivers : Delivers c.plugin c.action es) (h : Move c e c') : Account (es ++ [e]) c' := by
  cases h with
  | commit i item hi hne => exact absurd hgone hne
  | join how hjoining =>
    exact .gone hgone (hdelivers.quiet rfl rfl (Or.inr (hs.joining hjoining).1))
  | pull hidle => exact nomatch hgone.symm.trans hidle
  | again hended => exact nomatch hgone.symm.trans hended
  | receive item rest hwaiting hqueue => exact nomatch hgone.symm.trans hwaiting
  | exhaust hwaiting hqueue hclosed => exact nomatch hgone.symm.trans hwaiting
  | report text hexhausted houtcome => exact nomatch hgone.symm.trans hexhausted
  | finish hexhausted houtcome => exact nomatch hgone.symm.trans hexhausted
  | abandon => exact .gone rfl (hdelivers.quiet rfl rfl (Or.inl rfl))
  | _ => exact .gone hgone (hdelivers.quiet rfl rfl (Or.inl rfl))

/-- Once the outcome is settled the pulls can only yield the end. -/
theorem account_settled {how : Joined} {ends : Nat} (hs : Supervised es c)
    (hclosed : c.closed = true) (hdone : c.supervisor = .done how) (hqueue : c.queue = [])
    (houtcome : c.outcome = none)
    (hyields : yields es =
      (sentItems es ++ owed c.plugin c.action how).map some ++ List.replicate ends none)
    (hends : 0 < ends → c.consumer = .ended) (hgone : c.consumer ≠ .gone) (h : Move c e c') :
    Account (es ++ [e]) c' := by
  obtain ⟨hsink, hwriting, -⟩ := closed_iff.mp hclosed
  have hnone : ∀ {consumer}, c.consumer = consumer → consumer ≠ .ended → ends = 0 := by
    intro consumer hconsumer hne
    by_contra hpos
    exact hne (hconsumer.symm.trans (hends (Nat.pos_of_ne_zero hpos)))
  have hstill : ∀ e : Event, e.sent? = none → e.yielded? = none → yields (es ++ [e]) =
      (sentItems (es ++ [e]) ++ owed c.plugin c.action how).map some ++
        List.replicate ends none := by
    intro e hsent hyielded
    rw [yields_concat, sentItems_concat, hsent, hyielded, Option.toList_none, List.append_nil,
      Option.toList_none, List.append_nil, hyields]
  have hmore : yields (es ++ [.yielded none]) =
      (sentItems (es ++ [.yielded none]) ++ owed c.plugin c.action how).map some ++
        List.replicate (ends + 1) none := by
    rw [yields_concat, sentItems_concat, hyields, List.replicate_succ']
    simp [Event.yielded?, Event.sent?]
  cases h with
  | write item hthere => exact nomatch hsink.symm.trans hthere
  | commit i item hi hne => simp [hwriting] at hi
  | release i =>
    exact .settled how ends (closed_iff.mpr ⟨hsink, by simp [hwriting], how, hdone⟩) hdone hqueue
      houtcome (hstill _ rfl rfl) hends hgone
  | close =>
    exact .settled how ends (closed_iff.mpr ⟨rfl, hwriting, how, hdone⟩) hdone hqueue houtcome
      (hstill _ rfl rfl) hends hgone
  | join how' hjoining => exact nomatch hdone.symm.trans hjoining
  | record how' hjoined => exact nomatch hdone.symm.trans hjoined
  | drop how' hrecorded => exact nomatch hdone.symm.trans hrecorded
  | pull hidle =>
    refine .settled how ends hclosed hdone hqueue houtcome (hstill _ rfl rfl) (fun hpos => ?_) nofun
    exact absurd (hnone hidle nofun) (Nat.pos_iff_ne_zero.mp hpos)
  | again hended =>
    exact .settled how (ends + 1) hclosed hdone hqueue houtcome hmore (fun _ => hended) hgone
  | receive item rest hwaiting hthere => exact nomatch hqueue.symm.trans hthere
  | exhaust hwaiting _ _ =>
    refine .settled how ends hclosed hdone hqueue houtcome (hstill _ rfl rfl) (fun hpos => ?_) nofun
    exact absurd (hnone hwaiting nofun) (Nat.pos_iff_ne_zero.mp hpos)
  | report text hexhausted hthere => exact nomatch houtcome.symm.trans hthere
  | finish hexhausted _ =>
    exact .settled how (ends + 1) hclosed hdone hqueue houtcome hmore (fun _ => rfl) nofun
  | abandon =>
    have ha : Account es c :=
      .settled how ends hclosed hdone hqueue houtcome hyields hends hgone
    exact .gone rfl ((ha.delivers hs).quiet rfl rfl (Or.inl rfl))

/-- As long as the outcome is not settled, the items not yet yielded are in the channel. -/
theorem account_open {received : List Item} (hs : Supervised es c)
    (hyields : yields es = received.map some) (hqueue : received ++ c.queue = sentItems es)
    (hdone : ∀ how, c.supervisor = .done how →
      c.outcome = spawnedCalleeFailure c.plugin c.action how)
    (hexhausted : c.consumer = .exhausted → c.closed = true ∧ c.queue = [])
    (hended : c.consumer ≠ .ended) (hgone : c.consumer ≠ .gone) (h : Move c e c') :
    Account (es ++ [e]) c' := by
  have hstill : ∀ e : Event, e.yielded? = none → yields (es ++ [e]) = received.map some := by
    intro e hyielded
    rw [yields_concat, hyielded, Option.toList_none, List.append_nil, hyields]
  have hsame : ∀ e : Event, e.sent? = none → received ++ c.queue = sentItems (es ++ [e]) := by
    intro e hsent
    rw [sentItems_concat, hsent, Option.toList_none, List.append_nil, hqueue]
  have hnotDone : ∀ {supervisor}, c.supervisor = supervisor → (∀ how, supervisor ≠ .done how) →
      c.consumer ≠ .exhausted := by
    intro supervisor hsupervisor hne hcons
    obtain ⟨how, hthere⟩ := (closed_iff.mp (hexhausted hcons).1).2.2
    exact hne how (hsupervisor.symm.trans hthere)
  cases h with
  | write item hsink =>
    refine .open received (hstill _ rfl) (hsame _ rfl) hdone (fun h => ?_) hended hgone
    exact nomatch (closed_iff.mp (hexhausted h).1).1.symm.trans hsink
  | commit i item hi _ =>
    refine .open received (hstill _ rfl) ?_ hdone (fun h => ?_) hended hgone
    · rw [sentItems_concat, ← hqueue, List.append_assoc]
      rfl
    · simp [(closed_iff.mp (hexhausted h).1).2.1] at hi
  | release i =>
    refine .open received (hstill _ rfl) (hsame _ rfl) hdone (fun h => ?_) hended hgone
    obtain ⟨hclosed, hempty⟩ := hexhausted h
    obtain ⟨hsink, hwriting, hthere⟩ := closed_iff.mp hclosed
    exact ⟨closed_iff.mpr ⟨hsink, by simp [hwriting], hthere⟩, hempty⟩
  | close =>
    refine .open received (hstill _ rfl) (hsame _ rfl) hdone (fun h => ?_) hended hgone
    obtain ⟨hclosed, hempty⟩ := hexhausted h
    obtain ⟨-, hwriting, hthere⟩ := closed_iff.mp hclosed
    exact ⟨closed_iff.mpr ⟨rfl, hwriting, hthere⟩, hempty⟩
  | join how hjoining =>
    exact .open received (hstill _ rfl) (hsame _ rfl) nofun
      (fun h => absurd h (hnotDone hjoining nofun)) hended hgone
  | record how hjoined =>
    exact .open received (hstill _ rfl) (hsame _ rfl) nofun
      (fun h => absurd h (hnotDone hjoined nofun)) hended hgone
  | drop how hrecorded =>
    refine .open received (hstill _ rfl) (hsame _ rfl) (fun how' heq => ?_)
      (fun h => absurd h (hnotDone hrecorded nofun)) hended hgone
    cases heq
    exact (hs.recorded how hrecorded).2
  | pull hidle => exact .open received (hstill _ rfl) (hsame _ rfl) hdone nofun nofun nofun
  | again hthere => exact absurd hthere hended
  | receive item rest hwaiting hthere =>
    refine .open (received ++ [item]) ?_ ?_ hdone nofun nofun nofun
    · rw [yields_concat, hyields]
      simp [Event.yielded?]
    · rw [sentItems_concat, ← hqueue, hthere]
      simp [Event.sent?]
  | exhaust hwaiting hempty hclosed =>
    exact .open received (hstill _ rfl) (hsame _ rfl) hdone (fun _ => ⟨hclosed, hempty⟩) nofun nofun
  | report text hcons houtcome =>
    -- nothing is left in the channel, so the error comes after all that was sent
    obtain ⟨hclosed, hempty⟩ := hexhausted hcons
    obtain ⟨-, -, how, hthere⟩ := closed_iff.mp hclosed
    have howed : owed c.plugin c.action how = [.error text] := by
      rw [owed, ← hdone how hthere, houtcome]
      rfl
    refine .settled how 0 hclosed hthere hempty rfl ?_ nofun nofun
    rw [yields_concat, sentItems_concat, hyields, howed, ← hqueue, hempty]
    simp [Event.yielded?, Event.sent?]
  | finish hcons houtcome =>
    obtain ⟨hclosed, hempty⟩ := hexhausted hcons
    obtain ⟨-, -, how, hthere⟩ := closed_iff.mp hclosed
    have howed : owed c.plugin c.action how = [] := by
      rw [owed, ← hdone how hthere, houtcome]
      rfl
    refine .settled how 1 hclosed hthere hempty houtcome ?_ (fun _ => rfl) nofun
    rw [yields_concat, sentItems_concat, hyields, howed, ← hqueue, hempty]
    simp [Event.yielded?, Event.sent?]
  | abandon =>
    have ha : Account es c := .open received hyields hqueue hdone hexhausted hended hgone
    exact .gone rfl ((ha.delivers hs).quiet rfl rfl (Or.inl rfl))

theorem Tracked.move (ht : Tracked plugin action es c) (h : Move c e c') :
    Tracked plugin action (es ++ [e]) c' := by
  obtain ⟨hplugin, haction, hs, ha⟩ := ht
  have hnames : c'.plugin = c.plugin ∧ c'.action = c.action := by
    cases h <;> exact ⟨rfl, rfl⟩
  refine ⟨hnames.1.trans hplugin, hnames.2.trans haction, hs.move ha h, ?_⟩
  cases ha with
  | «open» received hyields hqueue hdone hexhausted hended hgone =>
    exact account_open hs hyields hqueue hdone hexhausted hended hgone h
  | settled how ends hclosed hdone hqueue houtcome hyields hends hgone =>
    exact account_settled hs hclosed hdone hqueue houtcome hyields hends hgone h
  | gone hgone hdelivers => exact account_gone hs hgone hdelivers h

theorem tracked_run (h : CalleeRun (openCalleeStream plugin action) es c) :
    Tracked plugin action es c := by
  refine h.invariant (P := Tracked plugin action) ?_ ?_
  · refine ⟨rfl, rfl, ⟨fun _ => ⟨rfl, rfl⟩, nofun, nofun, nofun⟩, ?_⟩
    exact .open [] rfl rfl nofun nofun nofun nofun
  · intro es c e c' ht hstep
    obtain ⟨choice, hchoice⟩ := hstep
    exact ht.move (step_move hchoice)

/-! ### Every pull is answered -/

/-- A step of the consumer. -/
def Consumes (c : CalleeStream) (e : Event) (c' : CalleeStream) : Prop :=
  ∃ choice, (choice = .pull ∨ choice = .poll ∨ choice = .settle) ∧ c.step choice = some (e, c')

/-- What the consumer has before it. -/
def ahead (c : CalleeStream) : Nat :=
  3 * (c.queue.length + if c.outcome.isSome then 1 else 0) +
    match c.consumer with
    | .idle => 3
    | .waiting => 2
    | .exhausted => 1
    | _ => 0

/-- When no sender is left, a consumer that is there can go on. -/
theorem consumes_of_closed (hclosed : c.closed = true) (hgone : c.consumer ≠ .gone) :
    ∃ e c', Consumes c e c' ∧ (e = .yielded none ∨
      (c'.closed = true ∧ c'.consumer ≠ .gone ∧ c'.ahead < c.ahead)) := by
  cases hconsumer : c.consumer with
  | idle =>
    refine ⟨.quiet, { c with consumer := .waiting }, ⟨.pull, by simp, by simp [step, hconsumer]⟩,
      Or.inr ⟨hclosed, nofun, ?_⟩⟩
    simp [ahead, hconsumer]
  | waiting =>
    cases hqueue : c.queue with
    | nil =>
      refine ⟨.quiet, { c with consumer := .exhausted },
        ⟨.poll, by simp, by simp [step, hconsumer, hqueue, hclosed]⟩, Or.inr ⟨hclosed, nofun, ?_⟩⟩
      simp [ahead, hconsumer]
    | cons item rest =>
      refine ⟨.yielded (some item), { c with queue := rest, consumer := .idle },
        ⟨.poll, by simp, by simp [step, hconsumer, hqueue]⟩, Or.inr ⟨hclosed, nofun, ?_⟩⟩
      simp [ahead, hconsumer, hqueue]
      omega
  | exhausted =>
    cases houtcome : c.outcome with
    | none =>
      exact ⟨.yielded none, { c with consumer := .ended },
        ⟨.settle, by simp, by simp [step, hconsumer, houtcome]⟩, Or.inl rfl⟩
    | some text =>
      refine ⟨.yielded (some (.error text)), { c with outcome := none, consumer := .idle },
        ⟨.settle, by simp, by simp [step, hconsumer, houtcome]⟩, Or.inr ⟨hclosed, nofun, ?_⟩⟩
      simp [ahead, hconsumer, houtcome]
      omega
  | ended => exact ⟨.yielded none, c, ⟨.pull, by simp, by simp [step, hconsumer]⟩, Or.inl rfl⟩
  | gone => exact absurd hconsumer hgone

theorem reaches_end (hclosed : c.closed = true) (hgone : c.consumer ≠ .gone) :
    ∃ es' c', Transition.Run Consumes c es' c' ∧ .yielded none ∈ es' := by
  induction hn : c.ahead using Nat.strongRecOn generalizing c with
  | ind n ih =>
    obtain ⟨e, c₁, hstep, rfl | ⟨hclosed₁, hgone₁, hless⟩⟩ := consumes_of_closed hclosed hgone
    · exact ⟨[.yielded none], c₁, .single hstep, List.mem_singleton_self _⟩
    · obtain ⟨es', c', hrun, hend⟩ := ih c₁.ahead (hn ▸ hless) hclosed₁ hgone₁ rfl
      exact ⟨[e] ++ es', c', (Transition.Run.single hstep).trans hrun, List.mem_append_right _ hend⟩

end Steps

/-- One error is owed exactly for an end that is neither a success nor a cancel. -/
theorem owed_cases (plugin action : String) (how : Joined) :
    (owed plugin action how = [] ∧ EndsQuietly how) ∨
      (∃ text, owed plugin action how = [.error text]) ∧ ¬EndsQuietly how := by
  rcases how with failure | (e | result)
  · cases failure with
    | panicked text => exact Or.inr ⟨⟨_, rfl⟩, by simp [EndsQuietly]⟩
    | cancelled text => exact Or.inr ⟨⟨_, rfl⟩, by simp [EndsQuietly]⟩
  · cases e with
    | cancelled atStep => exact Or.inl ⟨rfl, Or.inr ⟨atStep, rfl⟩⟩
    | _ => exact Or.inr ⟨⟨_, rfl⟩, by simp [EndsQuietly]⟩
  · exact Or.inl ⟨rfl, Or.inl ⟨result, rfl⟩⟩

/-- In every run of the producer, the supervisor and the consumer of a spawned callee, the stream
delivers the items and the outcome; and when no sender is left, the pulls reach the end. -/
theorem streaming_callee_delivers {ξ : Type} {kernel : KernelView ξ} {now : Nat}
    {call : InvokedCall ξ} {cancel : Option CancelToken} {deadline : Option Nat}
    {c₀ c : CalleeStream} {es : List Event}
    (hopen : kernel.openStreaming now call cancel deadline = .ok c₀) (hrun : CalleeRun c₀ es c) :
    Delivers c₀.plugin c₀.action es ∧
      (∀ how, (owed c₀.plugin c₀.action how = [] ∧ EndsQuietly how) ∨
        (∃ text, owed c₀.plugin c₀.action how = [.error text]) ∧ ¬EndsQuietly how) ∧
      (c.closed = true → c.consumer ≠ .gone →
        ∃ es' c', Transition.Run Consumes c es' c' ∧ .yielded none ∈ es') := by
  rw [KernelView.openStreaming] at hopen
  split at hopen
  · cases hopen
  · cases hopen
    have htracked := tracked_run hrun
    have hdelivers := htracked.account.delivers htracked.supervised
    rw [htracked.plugin, htracked.action] at hdelivers
    exact ⟨hdelivers, owed_cases _ _, reaches_end⟩

/-! ### A producer that fails after its close -/

def feedManifest : PluginManifest :=
  { plainManifest "feed" with
    actions := IndexMap.empty.insert "tail"
      { plainAction [{ StepDef.new "lines" "feed.lines" .emptyObject with longRunning := true }] with
        dataflow := true } }

def feedSetup : Setup :=
  textSetup [("kernel", plainManifest "kernel"), ("feed", feedManifest)] []

def feedView (r : PluginRegistry) : KernelView Unit :=
  ⟨r, defaultOrchestrator, fun _ => "", ⟨60000, none⟩, fun _ _ => .ok .null⟩

/-- The handle is closed and read to its last item before the callee fails. -/
def failingFeed : List Choice :=
  [.write (.chunk [1]), .commit 0, .close, .pull, .poll, .pull,
    .join (.ok (.error (.execution "lost"))), .record, .drop, .poll, .settle, .pull, .poll, .settle,
    .pull]

/-- The failure comes after the item, and the end after the failure. -/
theorem streaming_callee_delivers_feed : ∃ k : Kernel, k.Reachable feedSetup ∧ ∃ c₀ c es,
    (feedView k.registry).openStreaming 0 ⟨"feed", "tail", .null, .null, (), 0⟩ none none = .ok c₀ ∧
    CalleeRun c₀ es c ∧ Delivers c₀.plugin c₀.action es ∧ yields es =
      [some (.chunk [1]), some (.error "feed.tail failed: Execution error: lost"), none, none] := by
  have hrun : ∃ k₀ k : Kernel, ∃ c₀ c es, Kernel.boot feedSetup "kernel" = .ok k₀ ∧
      k = k₀.afterAll feedSetup [.load "" "feed"] ∧
      (feedView k.registry).openStreaming 0 ⟨"feed", "tail", .null, .null, (), 0⟩ none none =
        .ok c₀ ∧
      Transition.drive step failingFeed c₀ = some (es, c) ∧ yields es =
        [some (.chunk [1]), some (.error "feed.tail failed: Execution error: lost"), none, none] :=
    ⟨_, _, _, _, _, rfl, rfl, rfl, rfl, rfl⟩
  obtain ⟨k₀, k, c₀, c, es, hboot, hk, hopen, hdrive, hyields⟩ := hrun
  have hrun : CalleeRun c₀ es c :=
    Transition.drive_run (fun choice _ _ _ _ hstep => ⟨choice, hstep⟩) hdrive
  exact ⟨k, hk ▸ Kernel.reachable_afterAll hboot _, c₀, c, es, hopen, hrun,
    (streaming_callee_delivers hopen hrun).1, hyields⟩

end CalleeStream

end Gwead
