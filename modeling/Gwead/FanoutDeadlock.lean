import Gwead.Fanout
import Gwead.StreamingCallee

/-!
# Fan-out under the wave loop

With parallel waves a stream with several consumers is split by a forwarder that waits for all of
them.  Whether they read at the same time depends on the waves: a consumer that is not dispatched
yet does not read, and the loop does not dispatch it before the consumers of the wave under way
have ended.
-/

namespace Gwead

open Broadcast (upTo)

/-- The wave loop and the fan-outs beside it. -/
structure WaveFanouts (plan : DagPlan) where
  next : Nat
  /-- Of the wave under way, if it is sequential. -/
  undispatched : List Nat
  running : List Nat
  /-- Steps that have ended and whose fan-out is not decided. -/
  ended : List Nat
  dispatched : List Nat
  fanouts : (p : Nat) → Option (Broadcast.State Item (plan.consumersAt p).length)

namespace WaveFanouts

def start (plan : DagPlan) : WaveFanouts plan := ⟨0, [], [], [], [], fun _ => none⟩

inductive Choice where
  | beginWave
  | dispatch
  | finish (i : Nat)
  /-- `maybe_install_fanout` of the next step that has ended; the stream it produced, if any. -/
  | install (stream : Option Source)
  | pull (p : Nat)
  | commit (p b : Nat)
  | refuse (p b : Nat)
  | join (p : Nat)
  | read (p b : Nat)
  | drop (p b : Nat)

inductive Event where
  | quiet
  | installed (p : Nat) (stream : Source)

section Steps

variable (action : Action) {plan : DagPlan}

/-- The loop waits for nothing. -/
def settled (w : WaveFanouts plan) : Bool := w.running.isEmpty && w.ended.isEmpty

/-- A branch has been read to its end, or was given up. -/
def atEnd {n : Nat} (f : Broadcast.State Item n) (b : Fin n) : Bool :=
  (f.branches b).dropped ||
    ((f.branches b).queue.isEmpty && match f.forwarder with
      | .done => true
      | _ => false)

/-- A consumer ends when it has read its branches to their ends. -/
def readToEnd (w : WaveFanouts plan) (i : Nat) : Bool :=
  (List.range plan.deps.length).all fun p =>
    match w.fanouts p with
    | none => true
    | some f => (List.finRange (plan.consumersAt p).length).all fun b =>
        (plan.consumersAt p).get b != i || atEnd f b

/-- One step of the broadcast of `p`. -/
def broadcast (w : WaveFanouts plan) (p : Nat)
    (choice : Broadcast.Choice (plan.consumersAt p).length) : Option (Event × WaveFanouts plan) :=
  match w.fanouts p with
  | none => none
  | some f =>
    (Broadcast.step Item.isError STREAM_FANOUT_CAPACITY f choice).map fun (_, f') =>
      (.quiet, { w with fanouts := Function.update w.fanouts p (some f') })

/-- A step of the branch `b` of `p`, if there is one. -/
def onBranch (w : WaveFanouts plan) (p b : Nat) (allowed : Nat → Bool)
    (choice : Fin (plan.consumersAt p).length → Broadcast.Choice (plan.consumersAt p).length) :
    Option (Event × WaveFanouts plan) :=
  if h : b < (plan.consumersAt p).length then
    if allowed ((plan.consumersAt p).get ⟨b, h⟩) then w.broadcast p (choice ⟨b, h⟩) else none
  else none

def step (w : WaveFanouts plan) : Choice → Option (Event × WaveFanouts plan)
  | .beginWave =>
    let wave := plan.waves.getD w.next []
    if w.settled ∧ w.undispatched = [] ∧ w.next < plan.waves.length then
      some (.quiet,
        if parallelizes action wave then
          { w with next := w.next + 1, running := wave, dispatched := w.dispatched ++ wave }
        else { w with next := w.next + 1, undispatched := wave })
    else none
  | .dispatch =>
    match w.undispatched with
    | [] => none
    | i :: rest =>
      if w.settled then
        some (.quiet,
          { w with undispatched := rest, running := [i], dispatched := w.dispatched ++ [i] })
      else none
  | .finish i =>
    if i ∈ w.running ∧ w.readToEnd i then
      some (.quiet, { w with running := w.running.erase i, ended := w.ended ++ [i] })
    else none
  | .install stream =>
    match w.ended, w.running with
    | p :: rest, [] =>
      let w := { w with ended := rest }
      match stream with
      | none => some (.quiet, w)
      | some source =>
        if 2 ≤ (plan.consumersAt p).length ∧ action.parallelWaves then
          some (.installed p source, { w with
            fanouts := Function.update w.fanouts p (some (Broadcast.start _ source.items)) })
        else some (.quiet, w)
    | _, _ => none
  | .pull p => w.broadcast p .pull
  | .commit p b => w.onBranch p b (fun _ => true) .commit
  | .refuse p b => w.onBranch p b (fun _ => true) .refuse
  | .join p => w.broadcast p .join
  | .read p b => w.onBranch p b (w.running.contains ·) .read
  | .drop p b => w.onBranch p b (w.running.contains ·) .drop

def Step (w : WaveFanouts plan) (e : Event) (w' : WaveFanouts plan) : Prop :=
  ∃ choice, step action w choice = some (e, w')

end Steps

/-! ### Deadlock -/

variable {plan : DagPlan}

/-- The forwarder waits for room in the channel of a branch. -/
structure Blocked {n : Nat} (f : Broadcast.State Item n) (b : Fin n) : Prop where
  sending : ∃ item rest, f.forwarder = .sending item rest
  waiting : (f.branches b).send = .waiting
  live : (f.branches b).dropped = false
  full : STREAM_FANOUT_CAPACITY ≤ (f.branches b).queue.length

/-- The loop waits for a consumer, and the forwarder for one that is not dispatched. -/
def Deadlocked (w : WaveFanouts plan) : Prop :=
  ∃ (p : Nat) (f : Broadcast.State Item (plan.consumersAt p).length)
    (b : Fin (plan.consumersAt p).length), w.fanouts p = some f ∧
      (∃ c ∈ plan.consumersAt p, c ∈ w.running) ∧ (plan.consumersAt p).get b ∉ w.dispatched ∧
        Blocked f b

/-- All consumers of `p` are dispatched at once. -/
def Together (action : Action) (plan : DagPlan) (p : Nat) : Prop :=
  ∃ k, parallelizes action (plan.waves.getD k []) = true ∧
    ∀ c ∈ plan.consumersAt p, c ∈ plan.waves.getD k []

/-! ### What one step can be -/

section Moves

variable {action : Action} {w w' : WaveFanouts plan} {e : Event} {es : List Event}

inductive Move (action : Action) (w : WaveFanouts plan) : Event → WaveFanouts plan → Prop
  | parallel (hwave : parallelizes action (plan.waves.getD w.next []) = true)
      (hnone : w.undispatched = []) :
      Move action w .quiet { w with
        next := w.next + 1
        running := plan.waves.getD w.next []
        dispatched := w.dispatched ++ plan.waves.getD w.next [] }
  | sequential (hwave : parallelizes action (plan.waves.getD w.next []) = false)
      (hnone : w.undispatched = []) :
      Move action w .quiet
        { w with next := w.next + 1, undispatched := plan.waves.getD w.next [] }
  | dispatch (i : Nat) (rest : List Nat) (h : w.undispatched = i :: rest) :
      Move action w .quiet
        { w with undispatched := rest, running := [i], dispatched := w.dispatched ++ [i] }
  | finish (i : Nat) :
      Move action w .quiet { w with running := w.running.erase i, ended := w.ended ++ [i] }
  | skip (ended : List Nat) : Move action w .quiet { w with ended := ended }
  | install (p : Nat) (ended : List Nat) (source : Source) :
      Move action w (.installed p source) { w with
        ended := ended
        fanouts := Function.update w.fanouts p (some (Broadcast.start _ source.items)) }
  | broadcast (p : Nat) (f f' : Broadcast.State Item (plan.consumersAt p).length)
      (be : Broadcast.Event Item (plan.consumersAt p).length) (hf : w.fanouts p = some f)
      (hstep : Broadcast.Step Item.isError STREAM_FANOUT_CAPACITY f be f')
      (hread : ∀ b item, be = .yielded b item → (plan.consumersAt p).get b ∈ w.running) :
      Move action w .quiet { w with fanouts := Function.update w.fanouts p (some f') }

/-- Only a read yields anything. -/
theorem yielded_of_read {n : Nat} {f f' : Broadcast.State Item n}
    {choice : Broadcast.Choice n} {b : Fin n} {item : Option Item}
    (h : Broadcast.step Item.isError STREAM_FANOUT_CAPACITY f choice =
      some (.yielded b item, f')) : choice = .read b := by
  cases choice with
  | read b' =>
    simp only [Broadcast.step] at h
    split at h
    · cases h
    · split at h <;> cases h <;> rfl
  | pull =>
    simp only [Broadcast.step] at h
    split at h <;> cases h
  | commit b' =>
    simp only [Broadcast.step] at h
    split at h
    · split at h <;> cases h
    · cases h
  | refuse b' =>
    simp only [Broadcast.step] at h
    split at h
    · split at h <;> cases h
    · cases h
  | join =>
    simp only [Broadcast.step] at h
    split at h
    · split at h <;> cases h
    · cases h
  | drop b' => cases h

theorem move_of_broadcast {p : Nat} {choice : Broadcast.Choice (plan.consumersAt p).length}
    (h : w.broadcast p choice = some (e, w'))
    (hread : ∀ b, choice = .read b → (plan.consumersAt p).get b ∈ w.running) :
    Move action w e w' := by
  simp only [broadcast] at h
  split at h
  · cases h
  · rename_i f hf
    obtain ⟨⟨be, f'⟩, hstep, h⟩ := Option.map_eq_some_iff.mp h
    cases h
    refine .broadcast p f f' be hf ⟨choice, hstep⟩ fun b item hbe => ?_
    subst hbe
    exact hread b (yielded_of_read hstep)

theorem move_of_onBranch {p b : Nat} {allowed : Nat → Bool}
    {choice : Fin (plan.consumersAt p).length → Broadcast.Choice (plan.consumersAt p).length}
    (h : w.onBranch p b allowed choice = some (e, w'))
    (hread : ∀ b b', choice b = .read b' → b = b' ∧
      ∀ i, allowed i = true → i ∈ w.running) : Move action w e w' := by
  simp only [onBranch] at h
  split at h
  · rename_i hb
    split at h
    · rename_i hallowed
      refine move_of_broadcast h fun b' hb' => ?_
      obtain ⟨rfl, hrunning⟩ := hread _ _ hb'
      exact hrunning _ hallowed
    · cases h
  · cases h

theorem Step.move (h : Step action w e w') : Move action w e w' := by
  obtain ⟨choice, h⟩ := h
  cases choice with
  | beginWave =>
    simp only [step] at h
    split at h
    · rename_i hready
      split at h
      · rename_i hwave
        cases h
        exact .parallel hwave hready.2.1
      · rename_i hwave
        cases h
        exact .sequential (Bool.eq_false_iff.mpr hwave) hready.2.1
    · cases h
  | dispatch =>
    simp only [step] at h
    split at h
    · cases h
    · rename_i i rest hnext
      split at h
      · cases h
        exact .dispatch i rest hnext
      · cases h
  | finish i =>
    simp only [step] at h
    split at h
    · cases h
      exact .finish i
    · cases h
  | install stream =>
    simp only [step] at h
    split at h
    · rename_i p rest _ _
      split at h
      · cases h
        exact .skip rest
      · rename_i source
        split at h
        · cases h
          exact .install p rest source
        · cases h
          exact .skip rest
    · cases h
  | pull p => exact move_of_broadcast h nofun
  | commit p b =>
    simp only [step] at h
    exact move_of_onBranch h fun _ _ h' => by cases h'
  | refuse p b =>
    simp only [step] at h
    exact move_of_onBranch h fun _ _ h' => by cases h'
  | join p => exact move_of_broadcast h nofun
  | read p b =>
    simp only [step] at h
    refine move_of_onBranch h fun b b' h' => ?_
    cases h'
    exact ⟨rfl, fun i hi => List.contains_iff_mem.mp hi⟩
  | drop p b =>
    simp only [step] at h
    exact move_of_onBranch h fun _ _ h' => by cases h'

end Moves

/-! ### The invariant -/

section Invariant

variable {action : Action} {w w' : WaveFanouts plan} {e : Event} {es : List Event}

/-- Which steps the loop has dispatched. -/
structure Looped (action : Action) (w : WaveFanouts plan) : Prop where
  dispatched : ∀ i ∈ w.dispatched, ∃ k < w.next, i ∈ plan.waves.getD k []
  begun : ∀ k < w.next, ∀ i ∈ plan.waves.getD k [], i ∈ w.dispatched ∨ i ∈ w.undispatched
  waiting : ∀ i ∈ w.undispatched, ∃ k < w.next,
    i ∈ plan.waves.getD k [] ∧ parallelizes action (plan.waves.getD k []) = false
  running : ∀ i ∈ w.running, i ∈ w.dispatched

/-- Each fan-out is a run of its broadcast, in which who is not dispatched has read nothing. -/
def Fanned (es : List Event) (w : WaveFanouts plan) : Prop :=
  ∀ p f, w.fanouts p = some f → ∃ source bes, .installed p source ∈ es ∧
    Transition.Run (Broadcast.Step Item.isError STREAM_FANOUT_CAPACITY)
      (Broadcast.start _ source.items) bes f ∧
    ∀ b, (plan.consumersAt p).get b ∉ w.dispatched → Broadcast.yields b bes = []

theorem looped_start (action : Action) (plan : DagPlan) : Looped action (start plan) :=
  ⟨nofun, nofun, nofun, nofun⟩

theorem Move.looped (hmove : Move action w e w') (h : Looped action w) : Looped action w' := by
  cases hmove with
  | parallel hwave hnone =>
    refine ⟨fun i hi => ?_, fun k hk i hi => ?_, fun i hi => ?_, fun i hi => ?_⟩
    · rcases List.mem_append.mp hi with hold | hnew
      · obtain ⟨k, hk, hmem⟩ := h.dispatched i hold
        exact ⟨k, Nat.lt_succ_of_lt hk, hmem⟩
      · exact ⟨w.next, Nat.lt_succ_self _, hnew⟩
    · rcases Nat.lt_succ_iff_lt_or_eq.mp hk with hk | rfl
      · exact (h.begun k hk i hi).imp_left (List.mem_append_left _)
      · exact .inl (List.mem_append_right _ hi)
    · rw [hnone] at hi
      cases hi
    · exact List.mem_append_right _ hi
  | sequential hwave hnone =>
    refine ⟨fun i hi => ?_, fun k hk i hi => ?_, fun i hi => ?_, h.running⟩
    · obtain ⟨k, hk, hmem⟩ := h.dispatched i hi
      exact ⟨k, Nat.lt_succ_of_lt hk, hmem⟩
    · rcases Nat.lt_succ_iff_lt_or_eq.mp hk with hk | rfl
      · rcases h.begun k hk i hi with hdone | hwaiting
        · exact .inl hdone
        · rw [hnone] at hwaiting
          cases hwaiting
      · exact .inr hi
    · exact ⟨w.next, Nat.lt_succ_self _, hi, hwave⟩
  | dispatch i rest hnext =>
    have hmem := List.mem_cons_self (a := i) (l := rest)
    rw [← hnext] at hmem
    refine ⟨fun j hj => ?_, fun k hk j hj => ?_, fun j hj => ?_, fun j hj => ?_⟩
    · rcases List.mem_append.mp hj with hold | hnew
      · exact h.dispatched j hold
      · cases List.mem_singleton.mp hnew
        obtain ⟨k, hk, hin, -⟩ := h.waiting i hmem
        exact ⟨k, hk, hin⟩
    · rcases h.begun k hk j hj with hdone | hwaiting
      · exact .inl (List.mem_append_left _ hdone)
      · rw [hnext] at hwaiting
        rcases List.mem_cons.mp hwaiting with rfl | hrest
        · exact .inl (List.mem_append_right _ (List.mem_singleton.mpr rfl))
        · exact .inr hrest
    · exact h.waiting j (hnext ▸ List.mem_cons_of_mem i hj)
    · exact List.mem_append_right _ hj
  | finish i => exact ⟨h.dispatched, h.begun, h.waiting, fun j hj => h.running j (List.mem_of_mem_erase hj)⟩
  | skip ended => exact ⟨h.dispatched, h.begun, h.waiting, h.running⟩
  | install p ended source => exact ⟨h.dispatched, h.begun, h.waiting, h.running⟩
  | broadcast p f f' be hf hstep hread => exact ⟨h.dispatched, h.begun, h.waiting, h.running⟩

/-- More events and more dispatched steps do not matter. -/
theorem Fanned.grow (h : Fanned es w) (e : Event) (hfanouts : w'.fanouts = w.fanouts)
    (hdispatched : ∀ i ∈ w.dispatched, i ∈ w'.dispatched) : Fanned (es ++ [e]) w' := by
  intro p f hf
  rw [hfanouts] at hf
  obtain ⟨source, bes, hinstalled, hrun, hunread⟩ := h p f hf
  exact ⟨source, bes, List.mem_append_left _ hinstalled, hrun,
    fun b hb => hunread b fun hold => hb (hdispatched _ hold)⟩

theorem Move.fanned (hmove : Move action w e w') (hl : Looped action w) (h : Fanned es w) :
    Fanned (es ++ [e]) w' := by
  cases hmove with
  | parallel hwave hnone => exact h.grow _ rfl fun i hi => List.mem_append_left _ hi
  | sequential hwave hnone => exact h.grow _ rfl fun i hi => hi
  | dispatch i rest hnext => exact h.grow _ rfl fun i hi => List.mem_append_left _ hi
  | finish i => exact h.grow _ rfl fun i hi => hi
  | skip ended => exact h.grow _ rfl fun i hi => hi
  | install p ended source =>
    intro q f hf
    by_cases hq : q = p
    · subst hq
      simp only [Function.update_self, Option.some.injEq] at hf
      subst hf
      exact ⟨source, [], List.mem_append_right _ (List.mem_singleton.mpr rfl), .nil, fun _ _ => rfl⟩
    · simp only [Function.update_of_ne hq] at hf
      obtain ⟨source', bes, hinstalled, hrun, hunread⟩ := h q f hf
      exact ⟨source', bes, List.mem_append_left _ hinstalled, hrun, hunread⟩
  | broadcast p f f' be hf hstep hread =>
    intro q g hg
    by_cases hq : q = p
    · subst hq
      simp only [Function.update_self, Option.some.injEq] at hg
      subst hg
      obtain ⟨source, bes, hinstalled, hrun, hunread⟩ := h q f hf
      refine ⟨source, bes ++ [be], List.mem_append_left _ hinstalled, .snoc hrun hstep,
        fun b hb => ?_⟩
      cases be with
      | quiet => rw [Broadcast.yields_quiet, hunread b hb]
      | yielded b' item =>
        have hne : b' ≠ b := by
          rintro rfl
          exact hb (hl.running _ (hread b' item rfl))
        rw [Broadcast.yields_other hne, hunread b hb]
    · simp only [Function.update_of_ne hq] at hg
      obtain ⟨source, bes, hinstalled, hrun, hunread⟩ := h q g hg
      exact ⟨source, bes, List.mem_append_left _ hinstalled, hrun, hunread⟩

/-- A forwarder blocked on a branch that was never read has more to send than the channel holds. -/
theorem capacity_lt_of_blocked {n : Nat} {items : List Item}
    {bes : List (Broadcast.Event Item n)} {f : Broadcast.State Item n} {b : Fin n}
    (hrun : Transition.Run (Broadcast.Step Item.isError STREAM_FANOUT_CAPACITY)
      (Broadcast.start n items) bes f) (hunread : Broadcast.yields b bes = [])
    (hblocked : Blocked f b) : STREAM_FANOUT_CAPACITY < (upTo Item.isError items).length := by
  obtain ⟨sent, ha⟩ := Broadcast.run_account hrun
  obtain ⟨item, rest, hf⟩ := hblocked.sending
  obtain ⟨got, hgiven⟩ := ha.open (by rw [hf]; rintro ⟨⟩) b
  rw [hf, hblocked.waiting, Broadcast.Forwarder.sentTo] at hgiven
  · have hgot := hgiven.yields
    rw [hunread] at hgot
    have hnil : got = [] := by simpa using hgot.symm
    have hqueue := hgiven.live hblocked.live
    rw [hnil, List.nil_append] at hqueue
    have htotal := congrArg List.length ha.total
    have hhead : [item] <+: upTo Item.isError (item :: rest) := Broadcast.head_upTo item rest
    have hnext := hhead.length_le
    have hfull := hblocked.full
    rw [hf, Broadcast.Forwarder.rest, List.length_append] at htotal
    rw [hqueue] at hfull
    rw [List.length_singleton] at hnext
    omega
  · rintro _ _ - ⟨⟩

/-- Consumers of one parallel wave are dispatched at once. -/
theorem Looped.together (hl : Looped action w) {steps : List StepDef} (hvalid : plan.Valid steps)
    {p : Nat} (h : Together action plan p) :
    (∀ c ∈ plan.consumersAt p, c ∈ w.dispatched) ∨ ∀ c ∈ plan.consumersAt p, c ∉ w.dispatched := by
  obtain ⟨k, hparallel, hin⟩ := h
  have hlevel {j c : Nat} (hc : c ∈ plan.waves.getD j []) : plan.level c = j := by
    rw [hvalid.waves_eq] at hc
    simpa using (List.mem_filter.mp hc).2
  by_cases hk : k < w.next
  · left
    intro c hc
    rcases hl.begun k hk c (hin c hc) with hdone | hwaiting
    · exact hdone
    · obtain ⟨j, -, hj, hsequential⟩ := hl.waiting c hwaiting
      rw [← hlevel hj, hlevel (hin c hc), hparallel] at hsequential
      cases hsequential
  · right
    intro c hc hdone
    obtain ⟨j, hj, hmem⟩ := hl.dispatched c hdone
    exact hk (hlevel (hin c hc) ▸ hlevel hmem ▸ hj)

end Invariant

/-- Where every stream that is split fits the channels, or has all its consumers in one parallel
wave, no run deadlocks. -/
theorem no_fanout_deadlock {action : Action} {plan : DagPlan} (hplan : buildPlan action = .ok plan)
    {es : List Event} {w : WaveFanouts plan}
    (hrun : Transition.Run (Step action) (start plan) es w)
    (hsafe : ∀ p source, .installed p source ∈ es →
      source.upstream.length ≤ STREAM_FANOUT_CAPACITY ∨ Together action plan p) :
    ¬w.Deadlocked := by
  have hinvariant : Looped action w ∧ Fanned es w :=
    hrun.invariant (P := fun es w => Looped action w ∧ Fanned es w)
      ⟨looped_start action plan, nofun⟩ fun _ _ _ _ h hstep =>
        ⟨hstep.move.looped h.1, hstep.move.fanned h.1 h.2⟩
  obtain ⟨hl, hfanned⟩ := hinvariant
  rintro ⟨p, f, b, hf, ⟨c, hc, hrunning⟩, hb, hblocked⟩
  obtain ⟨source, bes, hinstalled, hbroadcast, hunread⟩ := hfanned p f hf
  rcases hsafe p source hinstalled with hshort | htogether
  · have hlong := capacity_lt_of_blocked hbroadcast (hunread b hb) hblocked
    exact absurd hshort (Nat.not_le.mpr hlong)
  · rcases hl.together (buildPlan_valid hplan) htogether with hall | hnone
    · exact hb (hall _ (List.get_mem _ b))
    · exact hnone c hc (hl.running c hrunning)

/-! ### Consumers in two waves -/

/-- `Blocked` by computation. -/
def deadlockedAt (w : WaveFanouts plan) (p b : Nat) : Bool :=
  if h : b < (plan.consumersAt p).length then
    match w.fanouts p with
    | none => false
    | some f =>
      let br := f.branches ⟨b, h⟩
      (match f.forwarder with
        | .sending _ _ => true
        | _ => false) && br.send == .waiting && !br.dropped &&
          decide (STREAM_FANOUT_CAPACITY ≤ br.queue.length) &&
          (plan.consumersAt p).any (w.running.contains ·) &&
          !w.dispatched.contains ((plan.consumersAt p).get ⟨b, h⟩)
  else false

theorem deadlocked_of_check {w : WaveFanouts plan} {p b : Nat} (h : w.deadlockedAt p b = true) :
    w.Deadlocked := by
  simp only [deadlockedAt] at h
  split at h
  · rename_i hb
    split at h
    · cases h
    · rename_i f hf
      simp only [Bool.and_eq_true, beq_iff_eq, Bool.not_eq_true', decide_eq_true_eq,
        List.any_eq_true, List.contains_iff_mem] at h
      obtain ⟨⟨⟨⟨⟨hsending, hwaiting⟩, hlive⟩, hfull⟩, hrunning⟩, hundispatched⟩ := h
      refine ⟨p, f, ⟨b, hb⟩, hf, hrunning, ?_, ?_, hwaiting, hlive, hfull⟩
      · intro hdone
        rw [List.contains_iff_mem.mpr hdone] at hundispatched
        cases hundispatched
      · cases hforwarder : f.forwarder with
        | sending item rest => exact ⟨item, rest, rfl⟩
        | pulling rest => simp [hforwarder] at hsending
        | done => simp [hforwarder] at hsending
  · cases h

end WaveFanouts

open WaveFanouts Registration

def readSteps (refs : List String) : Value :=
  .object (refs.map fun id => (id, .string ("\x7b\x7b$steps." ++ id ++ "\x7d\x7d")))

/-- `count` reads the lines too, but after `index` has. -/
def linesAction : ManifestAction :=
  { plainAction [.new "lines" "feed.lines" .emptyObject,
      .new "index" "feed.index" (readSteps ["lines"]),
      .new "count" "feed.count" (readSteps ["index", "lines"])] with
    parallelWaves := true }

def linesManifest : PluginManifest :=
  { plainManifest "notes" with actions := IndexMap.empty.insert "run" linesAction }

def linesSetup : Setup := textSetup [("kernel", plainManifest "kernel")] []

def linesPlan : DagPlan := ⟨[[0], [1], [2]], [[], [0], [1, 0]], [[1, 2], [2], []]⟩

theorem lines_accepted : ∃ k p, Kernel.boot linesSetup "kernel" = .ok k ∧
    prepare linesSetup k "" linesManifest false = .ok p ∧
    ("run", (⟨linesAction, linesPlan⟩ : ActionRegistration)) ∈ p.planned :=
  ⟨_, _, rfl, rfl, by decide⟩

/-- Seventeen chunks. -/
def manyLines : Source := .live (List.replicate 17 (.chunk [10]))

def forwardLine : List WaveFanouts.Choice :=
  [.pull 0, .commit 0 0, .commit 0 1, .join 0, .read 0 0]

/-- `index` reads and the forwarder fills the channel of `count`. -/
def linesSchedule : List WaveFanouts.Choice :=
  [.beginWave, .dispatch, .finish 0, .install (some manyLines), .beginWave, .dispatch] ++
    (List.replicate 16 forwardLine).flatten ++ [.pull 0, .commit 0 0, .read 0 0]

def driveLoop (action : Action) (plan : DagPlan) (schedule : List WaveFanouts.Choice) :
    Option (List WaveFanouts.Event × WaveFanouts plan) :=
  Transition.drive (fun w choice => WaveFanouts.step action w choice) schedule (.start plan)

theorem driveLoop_run {action : Action} {plan : DagPlan} {schedule : List WaveFanouts.Choice}
    {es : List WaveFanouts.Event} {w : WaveFanouts plan}
    (h : driveLoop action plan schedule = some (es, w)) :
    Transition.Run (WaveFanouts.Step action) (.start plan) es w :=
  Transition.drive_run (fun choice _ _ _ _ hstep => ⟨choice, hstep⟩) h

theorem lines_deadlock : ((driveLoop linesAction.toAction linesPlan linesSchedule).map
    fun r => r.2.deadlockedAt 0 1) = some true := by
  decide +kernel

/-- The loop waits for `index`, and the forwarder for `count`. -/
theorem fanout_deadlock : ¬∀ (setup : Setup) (k : Kernel) (ns : String) (source : PluginManifest)
    (kernelOwned : Bool) (p : Prepared), prepare setup k ns source kernelOwned = .ok p →
      ∀ name entry, (name, entry) ∈ p.planned → entry.action.dataflow = false →
        entry.action.parallelWaves = true → ∀ (es : List WaveFanouts.Event)
          (w : WaveFanouts entry.plan),
          Transition.Run (WaveFanouts.Step entry.action.toAction) (.start entry.plan) es w →
            ¬w.Deadlocked := by
  intro hall
  obtain ⟨k, p, -, hprepare, hplanned⟩ := lines_accepted
  obtain ⟨⟨es, w⟩, hdrive, hcheck⟩ := Option.map_eq_some_iff.mp lines_deadlock
  exact hall _ k _ _ _ p hprepare _ _ hplanned rfl rfl es w (driveLoop_run hdrive)
    (deadlocked_of_check hcheck)

/-- Both read the lines in one wave. -/
def pairAction : Action :=
  { Action.ofSteps [.new "lines" "feed.lines" .emptyObject,
      .new "index" "feed.index" (readSteps ["lines"]),
      .new "count" "feed.count" (readSteps ["lines"])] with
    parallelWaves := true }

def pairPlan : DagPlan := ⟨[[0], [1, 2]], [[], [0], [0]], [[1, 2], [], []]⟩

theorem pair_together : Together pairAction pairPlan 0 := ⟨1, by decide⟩

theorem no_fanout_deadlock_pair : ∃ (es : List WaveFanouts.Event) (w : WaveFanouts pairPlan),
    Transition.Run (WaveFanouts.Step pairAction) (.start pairPlan) es w ∧
      .installed 0 manyLines ∈ es ∧ w.running = [1, 2] ∧ ¬w.Deadlocked := by
  have hdrive : ∃ (es : List WaveFanouts.Event) (w : WaveFanouts pairPlan),
      driveLoop pairAction pairPlan
        [.beginWave, .dispatch, .finish 0, .install (some manyLines), .beginWave] = some (es, w) ∧
      es = [.quiet, .quiet, .quiet, .installed 0 manyLines, .quiet] ∧ w.running = [1, 2] :=
    ⟨_, _, rfl, rfl, rfl⟩
  obtain ⟨es, w, hdrive, hes, hrunning⟩ := hdrive
  have hrun := driveLoop_run hdrive
  refine ⟨es, w, hrun, by simp [hes], hrunning, no_fanout_deadlock (by rfl) hrun ?_⟩
  intro p source hinstalled
  rw [hes] at hinstalled
  simp only [List.mem_cons, reduceCtorEq, WaveFanouts.Event.installed.injEq, List.not_mem_nil,
    false_or, or_false] at hinstalled
  obtain ⟨rfl, -⟩ := hinstalled
  exact .inr pair_together

end Gwead
