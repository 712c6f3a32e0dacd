import Gwead.StreamHandles

/-!
# Handles over whole runs

What one operation does to the table and to the streams, and from it what no run can undo: a spent
number stays spent, a removed handle stays removed and a closed stream stays closed.
-/

namespace Gwead

/-! ### A closed stream -/

def Reads.Closed (c : Reads) : Prop := c.stream.inner.closed = true

theorem readStep_closed {c c' : Reads} {e : ReadEvent} {reader : Nat} {choice : ReadChoice}
    (h : readStep c reader choice = some (e, c')) (hclosed : c.Closed) : c'.Closed := by
  have hmove := ReadStep.move ⟨reader, choice, h⟩
  cases hmove with
  | swap r size source leftover hr hopen hdirection =>
    rw [Reads.Closed, hopen] at hclosed
    cases hclosed
  | putBack r size source pull hr => exact putBack_closed hclosed size source pull
  | _ => exact hclosed

theorem takeReadable_closed {c : Reads} (h : c.Closed) : takeReadable c = none := by
  have hinner : c.stream.inner.takeReadable = none := by
    unfold StreamInner.takeReadable
    split
    · rename_i hopen _
      rw [Reads.Closed, hopen] at h
      cases h
    · rfl
  rw [takeReadable, StreamState.takeReadable, hinner]
  rfl

theorem swapOut_closed {c : Reads} (h : c.Closed) (reader size : Nat) :
    swapOut c reader size = c.leave reader c.stream.inner (.refused reader .closed) := by
  have hinner : c.stream.inner.closed = true := h
  rw [swapOut, if_pos hinner]

namespace RegistryState

/-! ### What one operation does -/

/-- From `w` to `w'` some handles are issued: the next numbers, within the bound.  The handles
there were name what they named or nothing, and no stream is gone or reopened. -/
structure Moves (w w' : RegistryState) (issued : List Nat) : Prop where
  issued_eq : issued = List.range' w.table.next issued.length
  next_eq : w'.table.next = w.table.next + issued.length
  bounded : ∀ handle ∈ issued, handle ≤ maxStreamHandle
  old : ∀ handle < w.table.next,
    w'.table.get handle = w.table.get handle ∨ w'.table.get handle = none
  streams : ∀ (stream : Nat) (c : Reads), w.heap[stream]? = some c →
    ∃ c', w'.heap[stream]? = some c' ∧ (c.Closed → c'.Closed)

theorem Moves.refl (w : RegistryState) : Moves w w [] :=
  ⟨rfl, rfl, nofun, fun _ _ => Or.inl rfl, fun _ c h => ⟨c, h, id⟩⟩

theorem Moves.trans {w w' w'' : RegistryState} {issued issued' : List Nat}
    (h : Moves w w' issued) (h' : Moves w' w'' issued') : Moves w w'' (issued ++ issued') where
  issued_eq := by
    have hnext := h.next_eq
    have hlater := h'.issued_eq
    rw [hnext] at hlater
    rw [List.length_append, ← List.range'_append_1, ← h.issued_eq, ← hlater]
  next_eq := by
    rw [h'.next_eq, h.next_eq, List.length_append, Nat.add_assoc]
  bounded handle hmem := (List.mem_append.mp hmem).elim (h.bounded handle) (h'.bounded handle)
  old handle hlt := by
    have hlt' : handle < w'.table.next := by
      rw [h.next_eq]
      omega
    obtain heq | hnone := h'.old handle hlt'
    · rw [heq]
      exact h.old handle hlt
    · exact Or.inr hnone
  streams stream c hc := by
    obtain ⟨c', hc', hclosed⟩ := h.streams stream c hc
    obtain ⟨c'', hc'', hclosed'⟩ := h'.streams stream c' hc'
    exact ⟨c'', hc'', hclosed' ∘ hclosed⟩

/-- A change of one stream that does not reopen it. -/
theorem Moves.setStream {w : RegistryState} {stream : Nat} {c c' : Reads}
    (hc : w.heap[stream]? = some c) (hclosed : c.Closed → c'.Closed) :
    Moves w (w.setStream stream c') [] where
  issued_eq := rfl
  next_eq := rfl
  bounded := nofun
  old _ _ := Or.inl rfl
  streams stream' d hd := by
    by_cases hs : stream = stream'
    · subst hs
      cases hc.symm.trans hd
      obtain ⟨hlt, -⟩ := List.getElem?_eq_some_iff.mp hc
      exact ⟨c', List.getElem?_set_self hlt, hclosed⟩
    · exact ⟨d, by rw [RegistryState.setStream, List.getElem?_set_ne hs]; exact hd, id⟩

theorem Moves.insert {w w' : RegistryState} {stream handle : Nat}
    (h : w.insert stream = some (handle, w')) : Moves w w' [handle] := by
  unfold RegistryState.insert at h
  split at h
  · rename_i hbound
    cases h
    constructor
    · rfl
    · rfl
    · intro handle hmem
      rwa [List.mem_singleton.mp hmem]
    · intro handle hlt
      left
      rw [HandleTable.get_mint, if_neg (by omega)]
    · exact fun stream c hc => ⟨c, hc, id⟩
  · cases h

theorem Moves.register {w w' : RegistryState} {state : StreamState} {handle : Nat}
    (h : w.register state = some (handle, w')) : Moves w w' [handle] := by
  obtain ⟨⟨handle', w₁⟩, hinsert, h⟩ := Option.map_eq_some_iff.mp h
  cases h
  have hmoves := Moves.insert hinsert
  refine ⟨hmoves.issued_eq, hmoves.next_eq, hmoves.bounded, hmoves.old, fun stream c hc => ?_⟩
  obtain ⟨c', hc', hclosed⟩ := hmoves.streams stream c hc
  obtain ⟨hlt, -⟩ := List.getElem?_eq_some_iff.mp hc'
  exact ⟨c', by rw [List.getElem?_append_left hlt]; exact hc', hclosed⟩

theorem Moves.registerAll (states : List StreamState) (w : RegistryState) :
    Moves w (registerAll states w).2 (registerAll states w).1.issued := by
  induction states generalizing w with
  | nil => exact .refl w
  | cons state rest ih =>
    rw [RegistryState.registerAll]
    cases hreg : w.register state with
    | none => exact .refl w
    | some p =>
      obtain ⟨handle, w'⟩ := p
      have hmoves := (Moves.register hreg).trans (ih w')
      cases hrest : RegistryState.registerAll rest w' with
      | mk outcome w'' =>
        rw [hrest] at hmoves
        cases outcome <;> simpa [hrest, RegistryOutcome.issued] using hmoves

theorem Moves.branchOut (w : RegistryState) (d : Drain) :
    Moves w (w.branchOut d).2 (w.branchOut d).1.issued := Moves.registerAll _ w

/-- If the handle still resolves, the stream behind it is closed. -/
def Shut (w : RegistryState) (handle : Nat) : Prop :=
  ∀ stream, w.table.get handle = some stream → ∃ c, w.heap[stream]? = some c ∧ c.Closed

/-- What is shut is shut after every move. -/
theorem Moves.shut {w w' : RegistryState} {issued : List Nat} (h : Moves w w' issued)
    {handle : Nat} (hlt : handle < w.table.next) (hshut : w.Shut handle) : w'.Shut handle := by
  intro stream hget
  obtain heq | hnone := h.old handle hlt
  · obtain ⟨c, hc, hclosed⟩ := hshut stream (heq ▸ hget)
    obtain ⟨c', hc', hstays⟩ := h.streams stream c hc
    exact ⟨c', hc', hstays hclosed⟩
  · rw [hnone] at hget
    cases hget

/-- What does not resolve does not resolve after any move. -/
theorem Moves.removed {w w' : RegistryState} {issued : List Nat} (h : Moves w w' issued)
    {handle : Nat} (hlt : handle < w.table.next) (hnone : w.table.get handle = none) :
    w'.table.get handle = none := by
  obtain heq | hgone := h.old handle hlt
  · rw [heq, hnone]
  · exact hgone

theorem Moves.next_le {w w' : RegistryState} {issued : List Nat} (h : Moves w w' issued) :
    w.table.next ≤ w'.table.next := by
  rw [h.next_eq]
  exact Nat.le_add_right _ _

theorem resolve_some {w : RegistryState} {handle stream : Nat} {c : Reads}
    (h : w.resolve handle = some (stream, c)) :
    w.table.get handle = some stream ∧ w.heap[stream]? = some c := by
  obtain ⟨stream', hget, h⟩ := Option.bind_eq_some_iff.mp h
  obtain ⟨c', hc, h⟩ := Option.map_eq_some_iff.mp h
  cases h
  exact ⟨hget, hc⟩

/-- Closing the stream behind a handle shuts the handle. -/
theorem shut_setStream {w : RegistryState} {handle stream : Nat} {c c' : Reads}
    (h : w.resolve handle = some (stream, c)) (hclosed : c'.Closed) :
    (w.setStream stream c').Shut handle := by
  obtain ⟨hget, hc⟩ := resolve_some h
  obtain ⟨hlt, -⟩ := List.getElem?_eq_some_iff.mp hc
  intro stream' hget'
  cases hget.symm.trans hget'
  exact ⟨c', List.getElem?_set_self hlt, hclosed⟩

theorem takeSource_some {w w' : RegistryState} {handle : Nat} {taken : String × Source}
    (h : w.takeSource handle = some (taken, w')) :
    Moves w w' [] ∧ w'.Shut handle ∧ handle < w.table.next := by
  obtain ⟨⟨stream, c⟩, hresolve, h⟩ := Option.bind_eq_some_iff.mp h
  obtain ⟨⟨taken', c'⟩, htake, h⟩ := Option.map_eq_some_iff.mp h
  cases h
  have hclosed : c'.Closed := (takeReadable_some htake).2.1
  obtain ⟨hget, hc⟩ := resolve_some hresolve
  exact ⟨.setStream hc fun _ => hclosed, shut_setStream hresolve hclosed, HandleTable.get_lt hget⟩

theorem fanOutStreaming_cases (w : RegistryState) (producer nBranches channelCapacity : Nat) :
    (∃ text, w.fanOutStreaming producer nBranches channelCapacity = (.refused text, w)) ∨
      ∃ taken w', w.takeSource producer = some (taken, w') ∧
        w.fanOutStreaming producer nBranches channelCapacity =
          w'.branchOut ⟨taken.1, taken.2, nBranches⟩ := by
  rw [fanOutStreaming]
  split
  · exact Or.inl ⟨_, rfl⟩
  · split
    · exact Or.inl ⟨_, rfl⟩
    · cases htake : w.takeSource producer with
      | none => exact Or.inl ⟨_, rfl⟩
      | some p => exact Or.inr ⟨p.1, p.2, rfl, rfl⟩

theorem fanOutShared_cases (w : RegistryState) (producer nBranches : Nat) :
    (∃ text, w.fanOutShared producer nBranches = (.refused text, w)) ∨
      ∃ taken w', w.takeSource producer = some (taken, w') ∧
        w.fanOutShared producer nBranches =
          (.quiet, { w' with draining := w'.draining ++ [⟨taken.1, taken.2, nBranches⟩] }) := by
  rw [fanOutShared]
  split
  · exact Or.inl ⟨_, rfl⟩
  · cases htake : w.takeSource producer with
    | none => exact Or.inl ⟨_, rfl⟩
    | some p => exact Or.inr ⟨p.1, p.2, rfl, rfl⟩

/-- Issuing handles may panic, but returns no error. -/
theorem registerAll_not_failed (states : List StreamState) (w : RegistryState) :
    ¬ (registerAll states w).1.Failed := by
  cases states with
  | nil => exact id
  | cons state rest =>
    rw [registerAll]
    split
    · exact id
    · split <;> exact id

theorem Moves.take (w : RegistryState) (handle : Nat) :
    Moves w { w with table := w.table.remove handle } [] where
  issued_eq := rfl
  next_eq := rfl
  bounded := nofun
  old handle' _ := by
    rw [HandleTable.get_remove]
    by_cases h : handle' = handle
    · exact Or.inr (if_pos h)
    · exact Or.inl (if_neg h)
  streams _ c hc := ⟨c, hc, id⟩

/-- A change of the fan-outs in progress moves nothing else. -/
theorem Moves.draining {w w' : RegistryState} {issued : List Nat} (h : Moves w w' issued)
    (draining : List Drain) : Moves w { w' with draining } issued :=
  ⟨h.issued_eq, h.next_eq, h.bounded, h.old, h.streams⟩

theorem step_moves (w : RegistryState) (op : RegistryOp) :
    Moves w (w.step op).2 (w.step op).1.issued := by
  cases op with
  | registerReadable contentType source =>
    rw [step]
    cases hreg : w.register (.register contentType (.readable source none)) with
    | none => exact .refl w
    | some p => exact .register hreg
  | registerWritable contentType channelCapacity =>
    rw [step]
    split
    · exact .refl w
    · cases hreg : w.register (.register contentType .writable) with
      | none => exact .refl w
      | some p => exact .register hreg
  | adopt stream =>
    rw [step]
    cases w.heap[stream]? with
    | none => exact .refl w
    | some c =>
      cases hins : w.insert stream with
      | none => exact .refl w
      | some p => exact .insert hins
  | take handle =>
    rw [step]
    cases w.table.get handle with
    | none => exact .refl w
    | some stream => exact .take w handle
  | takeReadable handle =>
    rw [step]
    cases htake : w.takeSource handle with
    | none => exact .refl w
    | some p => exact (takeSource_some htake).1
  | close handle =>
    rw [step]
    cases hresolve : w.resolve handle with
    | none => exact .refl w
    | some p => exact .setStream (resolve_some hresolve).2 fun _ => rfl
  | fanOutStreaming producer nBranches channelCapacity =>
    rw [step]
    obtain ⟨text, h⟩ | ⟨taken, w', htake, h⟩ :=
      w.fanOutStreaming_cases producer nBranches channelCapacity
    · rw [h]
      exact .refl w
    · rw [h]
      exact (takeSource_some htake).1.trans (.branchOut w' _)
  | fanOutShared producer nBranches =>
    rw [step]
    obtain ⟨text, h⟩ | ⟨taken, w', htake, h⟩ := w.fanOutShared_cases producer nBranches
    · rw [h]
      exact .refl w
    · rw [h]
      exact (takeSource_some htake).1.draining _
  | drained i =>
    rw [step]
    cases w.draining[i]? with
    | none => exact .refl w
    | some d => exact ((Moves.refl w).draining _).trans (.branchOut _ d)
  | read stream reader choice =>
    rw [step]
    cases hread : (w.heap[stream]?).bind fun c => readStep c reader choice with
    | none => exact .refl w
    | some p =>
      obtain ⟨c, hc, hstep⟩ := Option.bind_eq_some_iff.mp hread
      exact .setStream hc (readStep_closed hstep)

/-! ### Runs -/

theorem after_moves (w : RegistryState) (ops : List RegistryOp) :
    Moves w (w.after ops) (w.issued ops) := by
  induction ops generalizing w with
  | nil => exact .refl w
  | cons op ops ih => exact (step_moves w op).trans (ih _)

theorem after_append (w : RegistryState) (ops ops' : List RegistryOp) :
    w.after (ops ++ ops') = (w.after ops).after ops' := List.foldl_append

theorem after_cons (w : RegistryState) (op : RegistryOp) (ops : List RegistryOp) :
    w.after (op :: ops) = (w.step op).2.after ops := rfl

/-- The operation closes the stream behind the handle, or takes its source. -/
def Closes (w : RegistryState) (op : RegistryOp) (handle : Nat) : Prop :=
  match op with
  | .close handle' => handle' = handle ∧ w.resolve handle ≠ none
  | .takeReadable handle' => handle' = handle ∧ ¬ (w.step op).1.Failed
  | .fanOutStreaming producer _ _ => producer = handle ∧ ¬ (w.step op).1.Failed
  | .fanOutShared producer _ => producer = handle ∧ ¬ (w.step op).1.Failed
  | _ => False

/-- The operation removes the handle. -/
def Removes (w : RegistryState) (op : RegistryOp) (handle : Nat) : Prop :=
  op = .take handle ∧ ¬ (w.step op).1.Failed

theorem shut_of_closes {w : RegistryState} {op : RegistryOp} {handle : Nat}
    (h : w.Closes op handle) : (w.step op).2.Shut handle ∧ handle < w.table.next := by
  cases op with
  | close handle' =>
    obtain ⟨rfl, hsome⟩ := h
    cases hresolve : w.resolve handle' with
    | none => exact absurd hresolve hsome
    | some p =>
      rw [step, hresolve]
      exact ⟨shut_setStream hresolve rfl, HandleTable.get_lt (resolve_some hresolve).1⟩
  | takeReadable handle' =>
    obtain ⟨rfl, hok⟩ := h
    rw [step] at hok ⊢
    cases htake : w.takeSource handle' with
    | none =>
      rw [htake] at hok
      exact absurd trivial hok
    | some p => exact (takeSource_some htake).2
  | fanOutStreaming producer nBranches channelCapacity =>
    obtain ⟨rfl, hok⟩ := h
    rw [step] at hok ⊢
    obtain ⟨text, h⟩ | ⟨taken, w', htake, h⟩ :=
      w.fanOutStreaming_cases producer nBranches channelCapacity
    · rw [h] at hok
      exact absurd trivial hok
    · rw [h]
      obtain ⟨hmoves, hshut, hlt⟩ := takeSource_some htake
      have hlt' : producer < w'.table.next := Nat.lt_of_lt_of_le hlt hmoves.next_le
      exact ⟨(Moves.branchOut w' _).shut hlt' hshut, hlt⟩
  | fanOutShared producer nBranches =>
    obtain ⟨rfl, hok⟩ := h
    rw [step] at hok ⊢
    obtain ⟨text, h⟩ | ⟨taken, w', htake, h⟩ := w.fanOutShared_cases producer nBranches
    · rw [h] at hok
      exact absurd trivial hok
    · rw [h]
      exact (takeSource_some htake).2
  | _ => exact h.elim

theorem gone_of_removes {w : RegistryState} {op : RegistryOp} {handle : Nat}
    (h : w.Removes op handle) :
    (w.step op).2.table.get handle = none ∧ handle < w.table.next := by
  obtain ⟨rfl, hok⟩ := h
  rw [step] at hok ⊢
  cases hget : w.table.get handle with
  | none =>
    rw [hget] at hok
    exact absurd trivial hok
  | some stream => exact ⟨by simp, HandleTable.get_lt hget⟩

/-- A call that fails leaves everything as it was. -/
theorem step_failed {w : RegistryState} {op : RegistryOp} (h : (w.step op).1.Failed) :
    (w.step op).2 = w := by
  cases op with
  | registerReadable contentType source =>
    rw [step] at h
    split at h <;> exact h.elim
  | registerWritable contentType channelCapacity =>
    rw [step] at h
    split at h
    · exact h.elim
    · split at h <;> exact h.elim
  | adopt stream =>
    rw [step] at h
    split at h
    · exact h.elim
    · split at h <;> exact h.elim
  | take handle =>
    rw [step] at h ⊢
    cases hget : w.table.get handle with
    | none => rfl
    | some stream =>
      rw [hget] at h
      exact h.elim
  | takeReadable handle =>
    rw [step] at h ⊢
    cases htake : w.takeSource handle with
    | none => rfl
    | some p =>
      rw [htake] at h
      exact h.elim
  | close handle =>
    rw [step] at h
    split at h <;> exact h.elim
  | fanOutStreaming producer nBranches channelCapacity =>
    rw [step] at h ⊢
    obtain ⟨text, heq⟩ | ⟨taken, w', -, heq⟩ :=
      w.fanOutStreaming_cases producer nBranches channelCapacity
    · rw [heq]
    · rw [heq] at h
      exact absurd h (registerAll_not_failed _ _)
  | fanOutShared producer nBranches =>
    rw [step] at h ⊢
    obtain ⟨text, heq⟩ | ⟨taken, w', -, heq⟩ := w.fanOutShared_cases producer nBranches
    · rw [heq]
    · rw [heq] at h
      exact h.elim
  | drained i =>
    rw [step] at h
    split at h
    · exact h.elim
    · exact absurd h (registerAll_not_failed _ _)
  | read stream reader choice =>
    rw [step] at h
    split at h <;> exact h.elim

/-- Nothing can be had through the handle: if it resolves at all, the source cannot be taken, a
read is refused as closed and so is a write. -/
def Unusable (w : RegistryState) (handle : Nat) : Prop :=
  ∀ stream, w.table.get handle = some stream → ∃ c, w.heap[stream]? = some c ∧
    c.stream.inner.closed = true ∧ takeReadable c = none ∧
    (∀ reader size, swapOut c reader size = c.leave reader c.stream.inner (.refused reader .closed)) ∧
    ∀ (p : Pipe) (data : Bytes), p.writable = c.stream.inner →
      p.writeCall data = (.refused data STREAM_CLOSED, p)

theorem unusable_of_shut {w : RegistryState} {handle : Nat} (h : w.Shut handle) :
    w.Unusable handle := by
  intro stream hget
  obtain ⟨c, hc, hclosed⟩ := h stream hget
  refine ⟨c, hc, hclosed, takeReadable_closed hclosed, swapOut_closed hclosed, fun p data hp => ?_⟩
  have hwritable : p.writable.closed = true := by
    rw [hp]
    exact hclosed
  rw [Pipe.writeCall, if_pos hwritable]

/-- The promises about the handles of a registry, for one run. -/
structure NeverConfused (heap : List Reads) (ops : List RegistryOp) : Prop where
  /-- No number is issued twice. -/
  unique : ((new heap).issued ops).Nodup
  bounds : ∀ handle ∈ (new heap).issued ops, 1 ≤ handle ∧ handle ≤ maxStreamHandle
  removed : ∀ before op later handle, ops = before ++ op :: later →
    Removes ((new heap).after before) op handle →
      ((new heap).after ops).table.get handle = none
  closed : ∀ before op later handle, ops = before ++ op :: later →
    Closes ((new heap).after before) op handle → Unusable ((new heap).after ops) handle
  failed : ∀ before op later, ops = before ++ op :: later →
    (((new heap).after before).step op).1.Failed →
      (((new heap).after before).step op).2 = (new heap).after before

/-- Over any streams and any sequence of operations, the reads among them, no handle is ever
confused with another or comes back. -/
theorem handles_never_confused (heap : List Reads) (ops : List RegistryOp) :
    NeverConfused heap ops := by
  have hmoves := after_moves (new heap) ops
  have hissued : (new heap).issued ops = List.range' 1 ((new heap).issued ops).length :=
    hmoves.issued_eq
  constructor
  · rw [hissued]
    exact List.nodup_range'
  · intro handle hmem
    refine ⟨?_, hmoves.bounded handle hmem⟩
    rw [hissued] at hmem
    exact (List.mem_range'_1.mp hmem).1
  · rintro before op later handle rfl hremoves
    obtain ⟨hnone, hlt⟩ := gone_of_removes hremoves
    have hstep := step_moves ((new heap).after before) op
    rw [after_append, after_cons]
    exact (after_moves _ later).removed (Nat.lt_of_lt_of_le hlt hstep.next_le) hnone
  · rintro before op later handle rfl hcloses
    obtain ⟨hshut, hlt⟩ := shut_of_closes hcloses
    have hstep := step_moves ((new heap).after before) op
    rw [after_append, after_cons]
    exact unusable_of_shut
      ((after_moves _ later).shut (Nat.lt_of_lt_of_le hlt hstep.next_le) hshut)
  · rintro before op later - hfailed
    exact step_failed hfailed

end RegistryState

end Gwead
