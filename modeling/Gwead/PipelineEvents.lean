import Gwead.PipelineTerminator

/-!
# What the caller of a pipeline gets to see

The events of the scheduler go through a bounded channel, and so does what the step bodies tell of
their progress.  A full channel loses events of steps and never the terminator.  What the caller
gets is in the order it was told in, but for the terminator: it may wait for room, and the progress
of a step that nobody joins may overtake it or come after it.
-/

namespace Gwead

open Transition

/-! ### The channel -/

def DataflowEvent.isProgress : DataflowEvent → Bool
  | .stepProgress _ _ => true
  | _ => false

def HandleEvent.isDelivery : HandleEvent → Bool
  | .received _ | .delivered _ => true
  | _ => false

/-- What one step of a handle can do to its channel. -/
inductive ChannelMove (c : EventChannel) : HandleEvent → EventChannel → Prop
  | idle {e : HandleEvent} (htold : e.told = none) (hdelivery : e.isDelivery = false) :
      ChannelMove c e c
  | lost {e : HandleEvent} {d : DataflowEvent} (htold : e.told = some d)
      (hreceived : e.received? = none) (hwhy : c.closed = true ∨ d.isTerminator = false) :
      ChannelMove c e c
  | queued {e : HandleEvent} {d : DataflowEvent} (htold : e.told = some d)
      (hreceived : e.received? = none) (hroom : c.hasRoom = true) :
      ChannelMove c e { c with queue := c.queue ++ [d] }
  | parked {e : HandleEvent} {d : DataflowEvent} (htold : e.told = some d)
      (hreceived : e.received? = none) (hterminator : d.isTerminator = true)
      (hopen : c.closed = false) : ChannelMove c e { c with detached := c.detached ++ [d] }
  | received {d : DataflowEvent} {rest : List DataflowEvent} (hopen : c.closed = false)
      (hqueue : c.queue = d :: rest) : ChannelMove c (.received d) { c with queue := rest }
  | delivered {d : DataflowEvent} {before after : List DataflowEvent} (hroom : c.hasRoom = true)
      (hdetached : c.detached = before ++ d :: after) :
      ChannelMove c (.delivered d)
        { c with queue := c.queue ++ [d], detached := before ++ after }
  | dropped : ChannelMove c .dropped { c with closed := true, queue := [], detached := [] }

theorem emitEvent_move {c : EventChannel} {d : DataflowEvent} {e : HandleEvent}
    (htold : e.told = some d) (hreceived : e.received? = none) (hd : d.isTerminator = false) :
    ChannelMove c e (c.emitEvent d) := by
  unfold EventChannel.emitEvent
  split
  · rename_i hroom
    exact .queued htold hreceived hroom
  · exact .lost htold hreceived (.inr hd)

theorem emitTerminalEvent_move {c : EventChannel} {d : DataflowEvent} {e : HandleEvent}
    (htold : e.told = some d) (hreceived : e.received? = none) (hd : d.isTerminator = true) :
    ChannelMove c e (c.emitTerminalEvent d) := by
  unfold EventChannel.emitTerminalEvent
  split
  · rename_i hroom
    exact .queued htold hreceived hroom
  · split
    · rename_i hclosed
      exact .lost htold hreceived (.inl hclosed)
    · rename_i hopen
      exact .parked htold hreceived hd (Bool.eq_false_iff.mpr hopen)

/-! ### What was told -/

section Told

variable {es : List HandleEvent} {e : HandleEvent} {d : DataflowEvent}

theorem toldEvents_snoc (es : List HandleEvent) (e : HandleEvent) :
    toldEvents (es ++ [e]) = toldEvents es ++ e.told.toList := by
  rw [toldEvents, List.filterMap_append]
  cases hd : e.told <;> simp [toldEvents, hd]

theorem toldEvents_same (h : e.told = none) : toldEvents (es ++ [e]) = toldEvents es := by
  rw [toldEvents_snoc, h, Option.toList_none, List.append_nil]

theorem toldEvents_some (h : e.told = some d) : toldEvents (es ++ [e]) = toldEvents es ++ [d] := by
  rw [toldEvents_snoc, h, Option.toList_some]

/-- What is not progress is the scheduler's, or its driver's. -/
theorem handed_of_told (h : e.told = some d) (hd : d.isProgress = false) : e.handed = some d := by
  cases e with
  | progressed stepId payload =>
    cases h
    cases hd
  | _ => exact h

theorem told_of_handed (h : e.handed = some d) : e.told = some d := by
  cases e with
  | progressed stepId payload => cases h
  | _ => exact h

theorem told_sublist (es : List HandleEvent) :
    ((toldEvents es).filter (!·.isProgress)).Sublist (handedEvents es) := by
  induction es with
  | nil => exact .slnil
  | cons e rest ih =>
    cases htold : e.told with
    | none =>
      have hhanded : e.handed = none := by
        cases hd : e.handed with
        | none => rfl
        | some d => rw [told_of_handed hd] at htold; cases htold
      simpa [toldEvents, handedEvents, htold, hhanded] using ih
    | some d =>
      cases hd : d.isProgress with
      | true =>
        have hrest : (handedEvents rest).Sublist (handedEvents (e :: rest)) :=
          (List.sublist_cons_self e rest).filterMap HandleEvent.handed
        simpa [toldEvents, htold, hd] using ih.trans hrest
      | false =>
        simpa [toldEvents, handedEvents, htold, handed_of_told htold hd, hd] using ih

theorem mem_told_terminator {ok : Bool} :
    .pipelineCompleted ok ∈ toldEvents es ↔ .pipelineCompleted ok ∈ handedEvents es := by
  rw [toldEvents, handedEvents, List.mem_filterMap, List.mem_filterMap]
  constructor
  · rintro ⟨e, he, h⟩
    exact ⟨e, he, handed_of_told h rfl⟩
  · rintro ⟨e, he, h⟩
    exact ⟨e, he, told_of_handed h⟩

theorem countP_told (es : List HandleEvent) :
    (toldEvents es).countP DataflowEvent.isTerminator ≤
      (handedEvents es).countP DataflowEvent.isTerminator := by
  have hsame : (toldEvents es).countP DataflowEvent.isTerminator =
      ((toldEvents es).filter (!·.isProgress)).countP DataflowEvent.isTerminator := by
    rw [List.countP_filter]
    refine List.countP_congr fun d _ => ?_
    cases d <;> simp [DataflowEvent.isTerminator, DataflowEvent.isProgress]
  rw [hsame]
  exact (told_sublist es).countP_le

end Told

section Steps

variable {ξ : Type} {kernel : KernelView ξ} {host : Host} {request : HandleRequest ξ}
  {es : List HandleEvent} {h h' : PipelineHandle} {e : HandleEvent}

theorem HandleStep.channelMove (hstep : HandleStep kernel host request h e h') :
    ChannelMove h.channel e h'.channel := by
  cases hstep with
  | refused | terminated | substituted => exact emitTerminalEvent_move rfl rfl rfl
  | @scheduled registration c c' e hat hown hstep =>
    dsimp only
    cases hshown : e.shown registration.action.toAction with
    | none => exact .idle rfl rfl
    | some d => exact emitEvent_move rfl rfl (shown_isTerminator hshown)
  | progressed stepId payload => exact emitEvent_move rfl rfl rfl
  | received hopen hqueue => exact .received hopen hqueue
  | delivered hroom hdetached => exact .delivered hroom hdetached
  | dropped => exact .dropped
  | _ => exact .idle rfl rfl

/-- What is on its way to the caller. -/
def EventChannel.pending (c : EventChannel) : List DataflowEvent := c.queue ++ c.detached

/-- A kind of events of which none overtakes another: either no terminator is of the kind, which may
wait for room, or no progress. -/
def InTurn (p : DataflowEvent → Bool) : Prop :=
  (∀ d, d.isTerminator = true → p d = false) ∨ ∀ d, d.isProgress = true → p d = false

/-- What has been received and what is pending. -/
def seenEvents (es : List HandleEvent) (c : EventChannel) : List DataflowEvent :=
  receivedEvents es ++ c.pending

/-- What has been received and what is pending was told, each kind in its order; and a terminator
that was told is among it, and is its last if it is the last that was told, unless the receiver was
dropped. -/
structure Channelled (capacity : Nat) (es : List HandleEvent) (c : EventChannel) : Prop where
  inOrder : ∀ p, InTurn p → ((seenEvents es c).filter p).Sublist ((toldEvents es).filter p)
  parked : c.detached.length ≤ (toldEvents es).countP DataflowEvent.isTerminator
  waits : ∀ d ∈ c.detached, d.isTerminator = true
  kept : c.closed = false → ∀ ok, .pipelineCompleted ok ∈ toldEvents es →
    .pipelineCompleted ok ∈ seenEvents es c
  last : c.closed = false → ∀ ok, (toldEvents es).getLast? = some (.pipelineCompleted ok) →
    (seenEvents es c).getLast? = some (.pipelineCompleted ok)
  capacity_eq : c.capacity = capacity
  bounded : c.queue.length ≤ capacity

theorem receivedEvents_snoc (es : List HandleEvent) (e : HandleEvent) :
    receivedEvents (es ++ [e]) = receivedEvents es ++ e.received?.toList := by
  rw [receivedEvents, List.filterMap_append]
  cases hd : e.received? <;> simp [receivedEvents, hd]

theorem EventChannel.room {c : EventChannel} (h : c.hasRoom = true) :
    c.closed = false ∧ c.queue.length < c.capacity := by
  simpa [hasRoom] using h

theorem receivedEvents_same (h : e.received? = none) :
    receivedEvents (es ++ [e]) = receivedEvents es := by
  rw [receivedEvents_snoc, h, Option.toList_none, List.append_nil]

theorem handedEvents_same (h : e.handed = none) : handedEvents (es ++ [e]) = handedEvents es := by
  rw [handedEvents_snoc, h, Option.toList_none, List.append_nil]

theorem handedEvents_some {d : DataflowEvent} (h : e.handed = some d) :
    handedEvents (es ++ [e]) = handedEvents es ++ [d] := by
  rw [handedEvents_snoc, h, Option.toList_some]

/-- A step of the handle's that tells nothing. -/
theorem Channelled.silent {capacity : Nat} {c c' : EventChannel} (hc : Channelled capacity es c)
    (htold : e.told = none) (hsub : (seenEvents (es ++ [e]) c').Sublist (seenEvents es c))
    (hdetached : c'.detached.Sublist c.detached)
    (hkept : c'.closed = false → c.closed = false ∧ seenEvents (es ++ [e]) c' = seenEvents es c)
    (hcapacity : c'.capacity = c.capacity) (hbounded : c'.queue.length ≤ c.capacity) :
    Channelled capacity (es ++ [e]) c' where
  inOrder p hp := by
    rw [toldEvents_same htold]
    exact (hsub.filter p).trans (hc.inOrder p hp)
  parked := by
    rw [toldEvents_same htold]
    exact hdetached.length_le.trans hc.parked
  waits d hd := hc.waits d (hdetached.subset hd)
  kept hopen ok hin := by
    rw [toldEvents_same htold] at hin
    rw [(hkept hopen).2]
    exact hc.kept (hkept hopen).1 ok hin
  last hopen ok hlast := by
    rw [toldEvents_same htold] at hlast
    rw [(hkept hopen).2]
    exact hc.last (hkept hopen).1 ok hlast
  capacity_eq := hcapacity.trans hc.capacity_eq
  bounded := hc.capacity_eq ▸ hbounded

/-- An event that is told and comes after everything that is pending. -/
theorem Channelled.joins {capacity : Nat} {c c' : EventChannel} {d : DataflowEvent}
    (hc : Channelled capacity es c) (htold : e.told = some d)
    (hseen : seenEvents (es ++ [e]) c' = seenEvents es c ++ [d])
    (hdetached : c'.detached = c.detached ∨ d.isTerminator = true ∧ c'.detached = c.detached ++ [d])
    (hclosed : c'.closed = c.closed) (hcapacity : c'.capacity = c.capacity)
    (hbounded : c'.queue.length ≤ c.capacity) : Channelled capacity (es ++ [e]) c' where
  inOrder p hp := by
    rw [hseen, toldEvents_some htold, List.filter_append, List.filter_append]
    exact (hc.inOrder p hp).append_right _
  parked := by
    rw [toldEvents_some htold, List.countP_append, List.countP_singleton]
    have hparked := hc.parked
    rcases hdetached with hsame | ⟨hterminator, hadded⟩
    · rw [hsame]
      omega
    · rw [hadded, if_pos hterminator, List.length_append, List.length_singleton]
      omega
  waits x hx := by
    rcases hdetached with hsame | ⟨hterminator, hadded⟩
    · exact hc.waits x (hsame ▸ hx)
    · rw [hadded] at hx
      rcases List.mem_append.mp hx with hx | hx
      · exact hc.waits x hx
      · rwa [List.mem_singleton.mp hx]
  kept hopen ok hin := by
    rw [toldEvents_some htold] at hin
    rw [hseen]
    rcases List.mem_append.mp hin with hin | hin
    · exact List.mem_append_left _ (hc.kept (hclosed ▸ hopen) ok hin)
    · exact List.mem_append_right _ hin
  last hopen ok hlast := by
    rw [toldEvents_some htold, List.getLast?_concat] at hlast
    rw [hseen, List.getLast?_concat, hlast]
  capacity_eq := hcapacity.trans hc.capacity_eq
  bounded := hc.capacity_eq ▸ hbounded

/-- Progress that finds room may overtake a terminator that waits for it. -/
theorem Channelled.overtakes {capacity : Nat} {c : EventChannel} {d : DataflowEvent}
    (hc : Channelled capacity es c) (htold : e.told = some d) (hreceived : e.received? = none)
    (hd : d.isProgress = true) (hroom : c.queue.length < c.capacity) :
    Channelled capacity (es ++ [e]) { c with queue := c.queue ++ [d] } := by
  have hterminator : d.isTerminator = false := by
    cases d with
    | pipelineCompleted ok => cases hd
    | _ => rfl
  have hseen : seenEvents (es ++ [e]) { c with queue := c.queue ++ [d] } =
      receivedEvents es ++ c.queue ++ [d] ++ c.detached := by
    rw [seenEvents, receivedEvents_same hreceived, EventChannel.pending]
    simp
  have hbefore : seenEvents es c = receivedEvents es ++ c.queue ++ c.detached := by
    rw [seenEvents, EventChannel.pending, List.append_assoc]
  refine ⟨fun p hp => ?_, ?_, hc.waits, fun hopen ok hin => ?_, fun _ ok hlast => ?_,
    hc.capacity_eq, ?_⟩
  · have horder := hc.inOrder p hp
    rw [hbefore] at horder
    rw [hseen, toldEvents_some htold]
    simp only [List.filter_append] at horder ⊢
    rcases hp with hnone | hnone
    · have hwaits : c.detached.filter p = [] :=
        List.filter_eq_nil_iff.mpr fun x hx => by simp [hnone x (hc.waits x hx)]
      rw [hwaits, List.append_nil] at horder ⊢
      exact horder.append_right _
    · have hdrop : [d].filter p = [] := by simp [hnone d hd]
      rw [hdrop, List.append_nil, List.append_nil]
      exact horder
  · rw [toldEvents_some htold, List.countP_append]
    exact hc.parked.trans (Nat.le_add_right _ _)
  · rw [toldEvents_some htold] at hin
    rcases List.mem_append.mp hin with hin | hin
    · have hmem := hc.kept hopen ok hin
      rw [hbefore] at hmem
      rw [hseen]
      simp only [List.mem_append] at hmem ⊢
      tauto
    · rw [← List.mem_singleton.mp hin] at hd
      cases hd
  · rw [toldEvents_some htold, List.getLast?_concat] at hlast
    cases hlast
    cases hd
  · rw [List.length_append, List.length_singleton, ← hc.capacity_eq]
    exact hroom

theorem seenEvents_same {c : EventChannel} (hreceived : e.received? = none) :
    seenEvents (es ++ [e]) c = seenEvents es c := by
  rw [seenEvents, receivedEvents_same hreceived, seenEvents]

/-- What is told to nobody, or is no terminator and finds no room, is lost. -/
theorem Channelled.loses {capacity : Nat} {c : EventChannel} {d : DataflowEvent}
    (hc : Channelled capacity es c) (htold : e.told = some d) (hreceived : e.received? = none)
    (hwhy : c.closed = true ∨ d.isTerminator = false) : Channelled capacity (es ++ [e]) c := by
  have hnot : c.closed = false → ∀ ok, d ≠ .pipelineCompleted ok := by
    rintro hopen ok rfl
    rcases hwhy with hclosed | hother
    · exact absurd (hopen.symm.trans hclosed) Bool.false_ne_true
    · cases hother
  refine ⟨fun p hp => ?_, ?_, hc.waits, fun hopen ok hin => ?_, fun hopen ok hlast => ?_,
    hc.capacity_eq, hc.bounded⟩
  · rw [seenEvents_same hreceived, toldEvents_some htold, List.filter_append]
    exact (hc.inOrder p hp).trans (List.sublist_append_left _ _)
  · rw [toldEvents_some htold, List.countP_append]
    exact hc.parked.trans (Nat.le_add_right _ _)
  · rw [toldEvents_some htold] at hin
    rw [seenEvents_same hreceived]
    rcases List.mem_append.mp hin with hin | hin
    · exact hc.kept hopen ok hin
    · exact absurd (List.mem_singleton.mp hin).symm (hnot hopen ok)
  · rw [toldEvents_some htold, List.getLast?_concat] at hlast
    exact absurd (Option.some.inj hlast) (hnot hopen ok)

/-- An event of the scheduler's that finds room finds nothing waiting before it. -/
theorem Channelled.queues {capacity : Nat} {c : EventChannel} {d : DataflowEvent}
    (hc : Channelled capacity es c) (htold : e.told = some d) (hreceived : e.received? = none)
    (hfirst : (toldEvents es).countP DataflowEvent.isTerminator = 0)
    (hroom : c.queue.length < c.capacity) :
    Channelled capacity (es ++ [e]) { c with queue := c.queue ++ [d] } := by
  have hnone : c.detached = [] :=
    List.eq_nil_of_length_eq_zero (Nat.le_zero.mp (hfirst ▸ hc.parked))
  refine hc.joins htold ?_ (.inl rfl) rfl rfl ?_
  · rw [seenEvents, seenEvents, receivedEvents_same hreceived, EventChannel.pending,
      EventChannel.pending, hnone]
    simp
  · rw [List.length_append, List.length_singleton]
    exact hroom

/-- The one send that waits goes in behind everything. -/
theorem Channelled.delivers {capacity : Nat} {c : EventChannel} {d : DataflowEvent}
    {before after : List DataflowEvent} (hc : Channelled capacity es c)
    (honce : (toldEvents es).countP DataflowEvent.isTerminator ≤ 1) (hroom : c.hasRoom = true)
    (hdetached : c.detached = before ++ d :: after) :
    Channelled capacity (es ++ [.delivered d])
      { c with queue := c.queue ++ [d], detached := before ++ after } := by
  -- only one send can wait, so it overtakes none
  have hone := hc.parked.trans honce
  rw [hdetached, List.length_append, List.length_cons] at hone
  have hbefore : before = [] := List.eq_nil_of_length_eq_zero (by omega)
  have hafter : after = [] := List.eq_nil_of_length_eq_zero (by omega)
  subst hbefore hafter
  have hsame : seenEvents (es ++ [.delivered d])
      { c with queue := c.queue ++ [d], detached := [] ++ [] } = seenEvents es c := by
    rw [seenEvents, seenEvents, receivedEvents_same rfl, EventChannel.pending,
      EventChannel.pending, hdetached]
    simp
  obtain ⟨hopen, hlt⟩ := EventChannel.room hroom
  refine hc.silent rfl (hsame ▸ .refl _) (List.nil_sublist _) (fun _ => ⟨hopen, hsame⟩) rfl ?_
  rw [List.length_append, List.length_singleton]
  exact hlt

theorem Channelled.move {capacity : Nat} {c c' : EventChannel} (hc : Channelled capacity es c)
    (hfirst : e.handed.isSome → (toldEvents es).countP DataflowEvent.isTerminator = 0)
    (honce : (toldEvents es).countP DataflowEvent.isTerminator ≤ 1)
    (hmove : ChannelMove c e c') : Channelled capacity (es ++ [e]) c' := by
  have hbounded := hc.capacity_eq ▸ hc.bounded
  cases hmove with
  | idle htold hdelivery =>
    have hreceived : e.received? = none := by
      cases e with
      | received d => cases hdelivery
      | _ => rfl
    have hsame := @seenEvents_same es e c hreceived
    exact hc.silent htold (by rw [hsame]) (.refl _) (fun hopen => ⟨hopen, hsame⟩) rfl hbounded
  | lost htold hreceived hwhy => exact hc.loses htold hreceived hwhy
  | @queued _ d htold hreceived hroom =>
    have hlt := (EventChannel.room hroom).2
    cases hd : d.isProgress with
    | true => exact hc.overtakes htold hreceived hd hlt
    | false => exact hc.queues htold hreceived (hfirst (by rw [handed_of_told htold hd]; rfl)) hlt
  | @parked _ d htold hreceived hterminator hopen =>
    refine hc.joins htold ?_ (.inr ⟨hterminator, rfl⟩) rfl rfl hbounded
    rw [seenEvents, seenEvents, receivedEvents_same hreceived, EventChannel.pending,
      EventChannel.pending]
    simp
  | @received d rest hopen hqueue =>
    have hsame : seenEvents (es ++ [.received d]) { c with queue := rest } = seenEvents es c := by
      rw [seenEvents, seenEvents, receivedEvents_snoc, EventChannel.pending, EventChannel.pending,
        hqueue]
      simp [HandleEvent.received?]
    refine hc.silent rfl (hsame ▸ .refl _) (.refl _) (fun _ => ⟨hopen, hsame⟩) rfl ?_
    rw [hqueue] at hbounded
    exact (Nat.le_succ _).trans hbounded
  | delivered hroom hdetached => exact hc.delivers honce hroom hdetached
  | dropped =>
    refine hc.silent rfl ?_ (List.nil_sublist _) ?_ rfl (Nat.zero_le _)
    · rw [seenEvents, seenEvents, receivedEvents_same rfl]
      exact List.Sublist.append_left (List.nil_sublist _) _
    · rintro ⟨⟩

theorem Told.first (ht : Told (es ++ [e]) h') (hsome : e.handed.isSome) :
    (handedEvents es).countP DataflowEvent.isTerminator = 0 := by
  obtain ⟨d, hd⟩ := Option.isSome_iff_exists.mp hsome
  rw [List.countP_eq_zero]
  intro x hx hterminator
  cases x with
  | pipelineCompleted ok =>
    obtain ⟨before, after, hes⟩ := List.append_of_mem hx
    have htwo : handedEvents (es ++ [e]) = before ++ .pipelineCompleted ok :: (after ++ [d]) := by
      rw [handedEvents_some hd, hes, List.append_assoc, List.cons_append]
    exact absurd (ht.last htwo) (by simp)
  | _ => cases hterminator

theorem channelled_of_run {preAllocated : List String} {now : Nat} {cancelled : Bool}
    (hrun : Run (HandleStep kernel host request)
      (KernelView.spawnDriver request preAllocated now cancelled) es h) :
    Channelled request.eventsCapacity es h.channel := by
  induction hrun with
  | nil =>
    exact ⟨fun _ _ => .slnil, Nat.zero_le _, fun _ hd => absurd hd List.not_mem_nil,
      fun _ _ hin => absurd hin List.not_mem_nil, fun _ _ hlast => (by cases hlast), rfl,
      Nat.zero_le _⟩
  | @snoc es t u e hrun hstep ih =>
    have htold := told_of_run hrun
    refine ih.move (fun hsome => ?_) ((countP_told es).trans htold.atMostOnce) hstep.channelMove
    exact Nat.le_zero.mp ((countP_told es).trans_eq ((htold.step hstep).first hsome))

/-! ### An attentive receiver -/

/-- How many steps the pending events are away from the receiver. -/
def EventChannel.ahead (c : EventChannel) : Nat := c.queue.length + 2 * c.detached.length

theorem ChannelMove.ahead {c c' : EventChannel} (hmove : ChannelMove c e c')
    (hdelivery : e.isDelivery = true) : c'.ahead + 1 = c.ahead := by
  have htold : e.told = none := by
    cases e with
    | scheduled _ _ | driven _ | progressed _ _ => cases hdelivery
    | _ => rfl
  cases hmove with
  | received hopen hqueue =>
    simp only [EventChannel.ahead, hqueue, List.length_cons]
    omega
  | delivered hroom hdetached =>
    simp only [EventChannel.ahead, hdetached, List.length_append, List.length_cons, List.length_nil]
    omega
  | idle _ hnot => exact absurd (hnot.symm.trans hdelivery) Bool.false_ne_true
  | lost hsome | queued hsome | parked hsome =>
    rw [htold] at hsome
    cases hsome
  | dropped => cases hdelivery

/-- A step that brings an event nearer to the receiver. -/
def DeliveryStep (kernel : KernelView ξ) (host : Host) (request : HandleRequest ξ)
    (h : PipelineHandle) (e : HandleEvent) (h' : PipelineHandle) : Prop :=
  e.isDelivery = true ∧ HandleStep kernel host request h e h'

/-- While something is pending there is such a step. -/
theorem delivery_goes_on (hopen : h.channel.closed = false) (hcapacity : 0 < h.channel.capacity)
    (hpending : h.channel.pending ≠ []) :
    ∃ e h', DeliveryStep kernel host request h e h' := by
  cases hqueue : h.channel.queue with
  | cons d rest => exact ⟨_, _, rfl, .received hopen hqueue⟩
  | nil =>
    cases hdetached : h.channel.detached with
    | nil => exact absurd (by rw [EventChannel.pending, hqueue, hdetached]; rfl) hpending
    | cons d rest =>
      have hroom : h.channel.hasRoom = true := by
        rw [EventChannel.hasRoom, hopen, hqueue]
        simpa using hcapacity
      exact ⟨_, _, rfl, .delivered hroom (hdetached.trans (List.nil_append _).symm)⟩

theorem DeliveryStep.keeps (hstep : DeliveryStep kernel host request h e h') :
    h'.channel.closed = h.channel.closed ∧ h'.channel.capacity = h.channel.capacity := by
  have hmove := hstep.2.channelMove
  generalize h'.channel = c' at hmove
  cases hmove with
  | dropped => cases hstep.1
  | _ => exact ⟨rfl, rfl⟩

/-- After any run the receiver is still there, and there is a channel between. -/
def Attended (_ : List HandleEvent) (h : PipelineHandle) : Prop :=
  h.channel.closed = false ∧ 0 < h.channel.capacity

/-- After any run, how many deliveries are left. -/
def deliveriesLeft (_ : List HandleEvent) (h : PipelineHandle) : Nat := h.channel.ahead

/-- A receiver that is still there gets everything that is pending. -/
theorem receives_pending (hattended : Attended [] h) :
    ∃ es' h', Run (DeliveryStep kernel host request) h es' h' ∧ h'.channel.pending = [] := by
  have hkeep : ∀ es t e u, Attended es t → DeliveryStep kernel host request t e u →
      Attended (es ++ [e]) u := by
    rintro es t e u ⟨hopen, hroom⟩ hstep
    obtain ⟨hclosed, hcap⟩ := hstep.keeps
    exact ⟨hclosed.trans hopen, hcap ▸ hroom⟩
  have hdown : ∀ es t e u, Attended es t → DeliveryStep kernel host request t e u →
      deliveriesLeft (es ++ [e]) u + (if e.isDelivery then 1 else 0) ≤ deliveriesLeft es t := by
    intro es t e u _ hstep
    rw [hstep.1, if_pos rfl]
    exact (hstep.2.channelMove.ahead hstep.1).le
  have hprogress : ∀ es t, Attended es t → ¬t.channel.pending = [] →
      ∃ e u, e.isDelivery = true ∧ DeliveryStep kernel host request t e u := by
    intro es t ht hpending
    obtain ⟨e, u, hstep⟩ := delivery_goes_on ht.1 ht.2 hpending
    exact ⟨e, u, hstep.1, hstep⟩
  obtain ⟨es', h', hrun, -, hempty⟩ := Run.reaches_end hkeep hdown hprogress [] hattended
  exact ⟨es', h', hrun, hempty⟩

/-- Deliveries tell nothing and leave the receiver there. -/
theorem receives_only {es' : List HandleEvent} (hopen : h.channel.closed = false)
    (hrun : Run (DeliveryStep kernel host request) h es' h') :
    h'.channel.closed = false ∧ handedEvents (es ++ es') = handedEvents es ∧
      toldEvents (es ++ es') = toldEvents es := by
  induction hrun with
  | nil => exact ⟨hopen, by rw [List.append_nil], by rw [List.append_nil]⟩
  | @snoc es' t u e hrun hstep ih =>
    obtain ⟨hclosed, hhanded, htold⟩ := ih
    have hquiet : e.handed = none ∧ e.told = none := by
      cases e with
      | scheduled _ _ | driven _ | progressed _ _ => cases hstep.1
      | _ => exact ⟨rfl, rfl⟩
    refine ⟨hstep.keeps.1.trans hclosed, ?_, ?_⟩
    · rw [← List.append_assoc, handedEvents_same hquiet.1, hhanded]
    · rw [← List.append_assoc, toldEvents_same hquiet.2, htold]

/-- A terminator that was told is the last thing the scheduler told. -/
theorem Told.ends (ht : Told es h) {ok : Bool} (hmem : .pipelineCompleted ok ∈ handedEvents es) :
    ∃ before, before.countP DataflowEvent.isTerminator = 0 ∧
      handedEvents es = before ++ [.pipelineCompleted ok] := by
  obtain ⟨before, hbefore, hevents⟩ := ht.events
  refine ⟨before, hbefore, ?_⟩
  rw [hevents] at hmem ⊢
  rcases List.mem_append.mp hmem with hin | hin
  · exact absurd hin (not_mem_of_countP hbefore ok)
  · cases hsaid : h.driver.said with
    | none =>
      rw [hsaid] at hin
      cases hin
    | some ok' =>
      rw [hsaid] at hin
      cases List.mem_singleton.mp hin
      rfl

end Steps

/-- What the caller of a pipeline can rely on, wherever a run has brought it. -/
structure EventsDelivered {ξ : Type} (kernel : KernelView ξ) (host : Host)
    (request : HandleRequest ξ) (es : List HandleEvent) (h : PipelineHandle) : Prop where
  /-- Nothing of the scheduler's is received that it did not tell, nothing twice, and nothing out of
  order. -/
  scheduled : ((receivedEvents es).filter (!·.isProgress)).Sublist (handedEvents es)
  /-- The events of the steps and their progress keep their order too. -/
  inOrder : ((receivedEvents es).filter (!·.isTerminator)).Sublist
    ((toldEvents es).filter (!·.isTerminator))
  bounded : h.channel.queue.length ≤ request.eventsCapacity
  /-- A receiver that goes on receiving gets the terminator, and nothing of the scheduler's after
  it; nor anything else, if nothing was told after it. -/
  comes : h.channel.closed = false → ∀ ok, .pipelineCompleted ok ∈ handedEvents es →
    ∃ es' h', Run (DeliveryStep kernel host request) h es' h' ∧
      ((receivedEvents (es ++ es')).filter (!·.isProgress)).getLast? =
        some (.pipelineCompleted ok) ∧
      ((toldEvents es).getLast? = some (.pipelineCompleted ok) →
        (receivedEvents (es ++ es')).getLast? = some (.pipelineCompleted ok))

theorem Channelled.scheduled {capacity : Nat} {es : List HandleEvent} {c : EventChannel}
    (hc : Channelled capacity es c) :
    ((seenEvents es c).filter (!·.isProgress)).Sublist (handedEvents es) :=
  (hc.inOrder _ (.inr fun d hd => by simp [hd])).trans (told_sublist es)

/-- What is taken from a list with one terminator at its end ends with it, if it has it. -/
theorem getLast?_of_sublist {before l : List DataflowEvent} {d : DataflowEvent}
    (hsub : l.Sublist (before ++ [d])) (hmem : d ∈ l) (hnot : d ∉ before) :
    l.getLast? = some d := by
  obtain ⟨front, back, rfl, hfront, hback⟩ := List.sublist_append_iff.mp hsub
  rcases List.sublist_singleton.mp hback with rfl | rfl
  · rw [List.append_nil] at hmem
    exact absurd (hfront.subset hmem) hnot
  · rw [List.getLast?_concat]

/-- However full the channel is and however late its receiver, the caller gets the events of a
pipeline in the order they were told in, and the terminator as the last of the scheduler's. -/
theorem events_delivered {ξ : Type} {opened kernel : KernelView ξ} {host : Host}
    {request : HandleRequest ξ} {shared : Bool} {now : Nat} {cancelled : Bool}
    {h₀ h : PipelineHandle} {es : List HandleEvent} (hcapacity : 0 < request.eventsCapacity)
    (hopen : opened.intoDataflowHandle request shared now cancelled = .ok h₀ ∨
      opened.intoDataflowStreamingHandle request shared now cancelled = .ok h₀)
    (hrun : Run (HandleStep kernel host request) h₀ es h) :
    EventsDelivered kernel host request es h := by
  obtain ⟨preAllocated, rfl⟩ := handle_spawned hopen
  have hchannel := channelled_of_run hrun
  have hreceived : (receivedEvents es).Sublist (seenEvents es h.channel) :=
    List.sublist_append_left _ _
  refine ⟨(hreceived.filter _).trans hchannel.scheduled,
    (hreceived.filter _).trans (hchannel.inOrder _ (.inl fun d hd => by simp [hd])),
    hchannel.bounded, fun hclosed ok hhanded => ?_⟩
  have hattended : Attended [] h := ⟨hclosed, hchannel.capacity_eq ▸ hcapacity⟩
  obtain ⟨es', h', hreceive, hempty⟩ : ∃ es' h', Run (DeliveryStep kernel host request) h es' h' ∧
      h'.channel.pending = [] := receives_pending hattended
  have hchannel' := channelled_of_run (hrun.trans (hreceive.mono fun _ _ _ hstep => hstep.2))
  obtain ⟨hclosed', hhanded', htold'⟩ : h'.channel.closed = false ∧
      handedEvents (es ++ es') = handedEvents es ∧ toldEvents (es ++ es') = toldEvents es :=
    receives_only hclosed hreceive
  have hall : seenEvents (es ++ es') h'.channel = receivedEvents (es ++ es') := by
    rw [seenEvents, hempty, List.append_nil]
  refine ⟨es', h', hreceive, ?_, fun hlast => ?_⟩
  · obtain ⟨before, hbefore, hevents⟩ := (told_of_run hrun).ends hhanded
    have hsub := hchannel'.scheduled
    have hmem := hchannel'.kept hclosed' ok (mem_told_terminator.mpr (hhanded' ▸ hhanded))
    rw [hall] at hsub hmem
    rw [hhanded', hevents] at hsub
    have hkept : .pipelineCompleted ok ∈ (receivedEvents (es ++ es')).filter (!·.isProgress) :=
      List.mem_filter.mpr ⟨hmem, rfl⟩
    exact getLast?_of_sublist hsub hkept (not_mem_of_countP hbefore ok)
  · rw [← hall]
    exact hchannel'.last hclosed' ok (htold' ▸ hlast)

/-- The scheduler of the one-step pipeline has just said that all is well. -/
theorem events_delivered_copy : ∃ (k : Kernel) (h₀ : PipelineHandle) (es : List HandleEvent)
    (h : PipelineHandle), k.Reachable copySetup ∧
    Run (HandleStep (copyView k.registry) (quietHost Binary64.display) copyRequest) h₀ es h ∧
    .pipelineCompleted true ∈ handedEvents es ∧
    EventsDelivered (copyView k.registry) (quietHost Binary64.display) copyRequest es h := by
  obtain ⟨k, h₀, es, h, hreachable, hopen, hrun, ⟨v, hdriver⟩, -⟩ := copy_ended
  have hclosing : Run (HandleStep (copyView k.registry) (quietHost Binary64.display) copyRequest)
      h₀ es h := hrun.mono fun _ _ _ hstep => hstep.2
  have htold := hclosing.snoc (.terminated hdriver)
  exact ⟨k, h₀, _, _, hreachable, htold, mem_handedEvents (by simp),
    events_delivered (by decide) (.inl hopen) htold⟩

end Gwead
