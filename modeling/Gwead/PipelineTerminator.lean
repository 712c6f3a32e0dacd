import Gwead.Consistency
import Gwead.DataflowSafety
import Gwead.PipelineHandle

/-!
# The terminator of a dataflow pipeline

Whatever way a pipeline ends, its handle is sent one terminator, and the scheduler tells nothing
after it.  The terminator is sent before the wrapper has judged the outcome, so it is truthful only
if the watchdog does not take the deadline in between.
-/

namespace Gwead

open Registration Transition

/-! ### What a terminator promises -/

def DataflowEvent.isTerminator : DataflowEvent → Bool
  | .pipelineCompleted _ => true
  | _ => false

/-- One terminator, nothing of the scheduler after it, and none too rosy. -/
structure OneTruthfulTerminator (es : List HandleEvent) (h : PipelineHandle) : Prop where
  atMostOnce : (handedEvents es).countP DataflowEvent.isTerminator ≤ 1
  once : ∀ result ok, h.driver = .done result ok →
    (handedEvents es).countP DataflowEvent.isTerminator = 1
  last : ∀ before ok after, handedEvents es = before ++ .pipelineCompleted ok :: after → after = []
  truthful : .pipelineCompleted true ∈ handedEvents es →
    ∀ result ok, h.driver = .done result ok → ∃ v, result = .ok v

/-! ### The watchdog comes between -/

/-- The flag has not been read yet. -/
def TimeoutStage.flagUnread : TimeoutStage → Bool
  | .waiting | .ended _ | .aborted _ => true
  | _ => false

namespace PipelineHandle

/-- The scheduler has seen the token unfired for the last time, and the wrapper has not read the flag
yet. -/
def Promises (h : PipelineHandle) : Prop :=
  match h.driver with
  | .scheduling _ c => (∃ v, c.phase = .ended (.ok v)) ∧ c.cancelled = false
  | .closing _ ok | .resolving _ ok => ok = true
  | .judging _ ok => ok = true ∧ h.race.stage.flagUnread = true
  | _ => False

/-- The scheduler is about to look at the token for the last time, and the watchdog has set its flag
but not fired the token yet. -/
def LooksAmiss (h : PipelineHandle) : Prop :=
  ∃ registration c, h.driver = .scheduling registration c ∧ c.phase = .waiting ∧ c.running = [] ∧
    c.firstError = none ∧ h.race.expired = true ∧ h.race.fired = none

/-- The watchdog does not take the deadline between the scheduler's last look at the token and the
wrapper's look at the flag. -/
def Undisturbed (h : PipelineHandle) : HandleEvent → Prop
  | .beside .flag => ¬h.Promises
  | .scheduled _ _ => ¬h.LooksAmiss
  | _ => True

end PipelineHandle

section Driver

variable {ξ : Type} (kernel : KernelView ξ) (host : Host) (request : HandleRequest ξ)

def UndisturbedStep (h : PipelineHandle) (e : HandleEvent) (h' : PipelineHandle) : Prop :=
  h.Undisturbed e ∧ HandleStep kernel host request h e h'

end Driver

/-! ### The wrapper keeps the outcome -/

namespace WallclockRace

variable {s t : WallclockRace} {e : RaceEvent}

/-- The wrapper judges the outcome it was given, and knows whether there was one. -/
def Concerns (s : WallclockRace) (outcome : Option (Except KernelError ActionResult)) : Prop :=
  match s.stage with
  | .waiting => False
  | .ended o | .aborted o | .loaded o _ | .unclocked o | .judged o _ _ => o = outcome
  | .returned w => w.abandoned = outcome.isNone

/-- The flag is read as unset of a future that resolved with `v`. -/
def Spared (s : WallclockRace) (v : ActionResult) : Prop :=
  match s.stage with
  | .waiting => False
  | .ended o | .aborted o => o = some (.ok v) ∧ s.expired = false
  | .loaded o expired | .judged o expired _ => o = some (.ok v) ∧ expired = false
  | .unclocked o => o = some (.ok v)
  | .returned w => w.result = .ok v

theorem Step.beside_stage (hstep : s.Step e t) (he : e.isBeside = true) : t.stage = s.stage := by
  cases hstep <;> first | rfl | cases he

theorem Step.beside_expired (hstep : s.Step e t) (he : e.isBeside = true) (hflag : e ≠ .flag) :
    t.expired = s.expired := by
  cases hstep with
  | flag => exact absurd rfl hflag
  | tick | cancel | wake | check | fire => rfl
  | _ => cases he

theorem Concerns.of_stage {outcome : Option (Except KernelError ActionResult)}
    (h : s.Concerns outcome) (hstage : t.stage = s.stage) : t.Concerns outcome := by
  unfold Concerns at h ⊢
  rwa [hstage]

theorem Concerns.abandoned {outcome : Option (Except KernelError ActionResult)}
    {o : WallclockOutcome} (h : s.Concerns outcome) (hreturned : s.stage = .returned o) :
    outcome.isNone = o.abandoned := by
  unfold Concerns at h
  rw [hreturned] at h
  exact h.symm

theorem Step.concerns_judged {outcome : Option (Except KernelError ActionResult)}
    (h : s.Concerns outcome) (hstep : s.Step e t) (he : e.judges = true) : t.Concerns outcome := by
  unfold Concerns at h
  cases hstep with
  | abort hat | load hat | readClock hcap hat =>
    rw [hat] at h
    exact h
  | @readToken outcome' expired hat =>
    rw [hat] at h
    unfold Concerns afterToken
    cases expired with
    | true => exact h
    | false =>
      cases s.fired with
      | none => exact h
      | some f => exact h
  | abandon hcap hat =>
    rw [hat] at h
    subst h
    rfl
  | finish hcap hat =>
    rw [hat] at h
    subst h
    rfl
  | _ => cases he

theorem Spared.beside {v : ActionResult} (h : s.Spared v) (hstage : t.stage = s.stage)
    (hexpired : s.stage.flagUnread = true → t.expired = s.expired) : t.Spared v := by
  unfold Spared at h ⊢
  rw [hstage]
  cases hs : s.stage with
  | ended o | aborted o =>
    rw [hs] at h hexpired
    exact ⟨h.1, (hexpired rfl).trans h.2⟩
  | _ =>
    rw [hs] at h
    exact h

theorem Step.spared_judged {v : ActionResult} (h : s.Spared v) (hstep : s.Step e t)
    (he : e.judges = true) : t.Spared v := by
  unfold Spared at h
  cases hstep with
  | abort hat | load hat =>
    rw [hat] at h
    exact h
  | readClock hcap hat =>
    rw [hat] at h
    exact ⟨h, rfl⟩
  | @readToken outcome expired hat =>
    rw [hat] at h
    obtain ⟨rfl, rfl⟩ := h
    unfold Spared afterToken
    cases s.fired with
    | none => rfl
    | some f => exact ⟨rfl, rfl⟩
  | abandon hcap hat =>
    rw [hat] at h
    cases h.1
  | finish hcap hat =>
    rw [hat] at h
    obtain ⟨hv, rfl⟩ := h
    cases hv
    rfl
  | _ => cases he

/-- A future that resolves is judged by what it resolved to. -/
theorem Step.resolve_concerns {r : Except KernelError ActionResult}
    (hstep : s.Step (.resolve r) t) : t.Concerns (some r) := by
  cases hstep <;> rfl

theorem Step.resolve_spared {v : ActionResult} (hstep : s.Step (.resolve (.ok v)) t)
    (hexpired : s.expired = false) : t.Spared v := by
  cases hstep with
  | await => rfl
  | resolve => exact ⟨rfl, hexpired⟩

theorem Step.drop_concerns (hstep : s.Step .drop t) : t.Concerns none := by
  cases hstep
  rfl

end WallclockRace

/-! ### One terminator -/

theorem handedEvents_snoc (es : List HandleEvent) (e : HandleEvent) :
    handedEvents (es ++ [e]) = handedEvents es ++ e.handed.toList := by
  rw [handedEvents, List.filterMap_append]
  cases hd : e.handed <;> simp [handedEvents, hd]

/-- What a driver's terminator has said, if it has been sent. -/
def Driver.said : Driver → Option Bool
  | .resolving _ ok | .judging (some _) ok | .sending _ ok | .done _ ok => some ok
  | _ => none

/-- The scheduler's future has neither resolved nor been dropped. -/
def Driver.unresolved : Driver → Bool
  | .judging _ _ | .sending _ _ | .done _ _ => false
  | _ => true

/-- Where the wrapper is while the driver is where it is. -/
structure PipelineHandle.InStep (h : PipelineHandle) : Prop where
  waiting : h.driver.unresolved = true → h.race.stage = .waiting
  judging : ∀ outcome ok, h.driver = .judging outcome ok → h.race.Concerns outcome

/-- What has been told so far: no terminator but that of the driver, and nothing after it. -/
structure Told (es : List HandleEvent) (h : PipelineHandle) : Prop where
  inStep : h.InStep
  events : ∃ before, before.countP DataflowEvent.isTerminator = 0 ∧
    handedEvents es = before ++ (h.driver.said.map .pipelineCompleted).toList

section Steps

variable {ξ : Type} {kernel : KernelView ξ} {host : Host} {request : HandleRequest ξ}
  {es : List HandleEvent} {h h' : PipelineHandle} {e : HandleEvent}

/-- Nothing is told. -/
theorem Told.silent (ht : Told es h) (hhanded : e.handed = none)
    (hsaid : h'.driver.said = h.driver.said) (hin : h'.InStep) : Told (es ++ [e]) h' := by
  obtain ⟨before, hbefore, hevents⟩ := ht.events
  refine ⟨hin, before, hbefore, ?_⟩
  rw [handedEvents_snoc, hhanded, hevents, hsaid, Option.toList_none, List.append_nil]

/-- The scheduler tells what one of its steps is shown as. -/
theorem Told.shown (ht : Told es h) (hsaid : h.driver.said = none)
    (hhanded : ∀ d, e.handed = some d → d.isTerminator = false) (hsaid' : h'.driver.said = none)
    (hin : h'.InStep) : Told (es ++ [e]) h' := by
  obtain ⟨before, hbefore, hevents⟩ := ht.events
  refine ⟨hin, before ++ e.handed.toList, ?_, ?_⟩
  · rw [List.countP_append, hbefore, Nat.zero_add, List.countP_eq_zero]
    intro d hd
    rw [hhanded d (Option.mem_toList.mp hd)]
    exact Bool.false_ne_true
  · rw [handedEvents_snoc, hevents, hsaid, hsaid']
    simp

/-- The terminator is told. -/
theorem Told.terminated {ok : Bool} (ht : Told es h) (hsaid : h.driver.said = none)
    (hhanded : e.handed = some (.pipelineCompleted ok)) (hsaid' : h'.driver.said = some ok)
    (hin : h'.InStep) : Told (es ++ [e]) h' := by
  obtain ⟨before, hbefore, hevents⟩ := ht.events
  refine ⟨hin, before, hbefore, ?_⟩
  rw [handedEvents_snoc, hhanded, hevents, hsaid, hsaid']
  simp

theorem shown_isTerminator {action : Action} {e : PipelineEvent} {d : DataflowEvent}
    (h : e.shown action = some d) : d.isTerminator = false := by
  unfold PipelineEvent.shown at h
  split at h
  · cases h
    rfl
  · cases h
    rfl
  · cases h
    rfl
  · cases h
    rfl
  · cases h

/-- What goes on beside the driver leaves the wrapper where it is. -/
theorem PipelineHandle.InStep.beside {re : RaceEvent} {race : WallclockRace} (hin : h.InStep)
    (hbeside : re.isBeside = true) (hstep : h.race.Step re race) :
    InStep { h with race := race } where
  waiting hat := (hstep.beside_stage hbeside).trans (hin.waiting hat)
  judging outcome ok hat := (hin.judging outcome ok hat).of_stage (hstep.beside_stage hbeside)

/-- A driver that goes on before its future is over leaves the wrapper waiting. -/
theorem PipelineHandle.InStep.moved (hin : h.InStep) (hbefore : h.driver.unresolved = true)
    (hafter : h'.driver.unresolved = true) (hrace : h'.race.stage = h.race.stage) : h'.InStep where
  waiting _ := hrace.trans (hin.waiting hbefore)
  judging outcome ok hat := by
    rw [hat] at hafter
    cases hafter

theorem Told.step (ht : Told es h) (hstep : HandleStep kernel host request h e h') :
    Told (es ++ [e]) h' := by
  have hin := ht.inStep
  cases hstep with
  | beside hbeside hstep => exact ht.silent rfl rfl (hin.beside hbeside hstep)
  | found hat | vanished hat | pulled hat | unpulled hat | provisioned hat
  | unprovisioned hat | unlinked e hat | ended hat =>
    exact ht.silent rfl (by rw [hat]; rfl) (hin.moved (by rw [hat]; rfl) rfl rfl)
  | refused hat =>
    exact ht.terminated (by rw [hat]; rfl) rfl rfl ⟨nofun, nofun⟩
  | @scheduled registration c c' e hat hown hstep =>
    refine ht.shown (by rw [hat]; rfl) (fun d hd => shown_isTerminator hd) rfl
      (hin.moved (by rw [hat]; rfl) rfl ?_)
    dsimp only
    split <;> rfl
  | terminated hat =>
    exact ht.terminated (by rw [hat]; rfl) rfl rfl (hin.moved (by rw [hat]; rfl) rfl rfl)
  | resolved hat hstep =>
    refine ht.silent rfl (by rw [hat]; rfl) ⟨nofun, ?_⟩
    rintro _ _ ⟨⟩
    exact hstep.resolve_concerns
  | abandoned hat hwaiting hrunning hstep =>
    refine ht.silent rfl (by rw [hat]; rfl) ⟨nofun, ?_⟩
    rintro _ _ ⟨⟩
    exact hstep.drop_concerns
  | judged hat hjudges hstep =>
    refine ht.silent rfl rfl ⟨fun hun => ?_, fun outcome ok hat => ?_⟩
    · rw [hat] at hun
      cases hun
    · exact hstep.concerns_judged (hin.judging outcome ok hat) hjudges
  | @substituted outcome ok o hat hreturned habandoned =>
    have hnone : outcome = none := by
      rw [← Option.isNone_iff_eq_none, (hin.judging outcome ok hat).abandoned hreturned, habandoned]
    refine ht.terminated ?_ rfl rfl ⟨nofun, nofun⟩
    rw [hat, hnone]
    rfl
  | @completed outcome ok o hat hreturned habandoned =>
    have hsome := ((hin.judging outcome ok hat).abandoned hreturned).trans habandoned
    refine ht.silent rfl ?_ ⟨nofun, nofun⟩
    rw [hat]
    cases outcome with
    | none => cases hsome
    | some r => rfl
  | sent hat => exact ht.silent rfl (by rw [hat]; rfl) ⟨nofun, nofun⟩
  | progressed | received | delivered | dropped =>
    exact ht.silent rfl rfl ⟨hin.waiting, hin.judging⟩

end Steps

/-! ### A truthful one -/

namespace PipelineHandle

/-- What a terminator that says `ok: true` can count on. -/
def Truthful (h : PipelineHandle) : Prop :=
  match h.driver with
  | .scheduling _ c => (∃ v, c.phase = .ended (.ok v)) → c.cancelled = false →
      h.race.expired = false
  | .closing outcome ok | .resolving outcome ok =>
    ok = true → (∃ v, outcome = .ok v) ∧ h.race.expired = false
  | .judging _ ok => ok = true → ∃ v, h.race.Spared v
  | .sending result ok | .done result ok => ok = true → ∃ v, result = .ok v
  | _ => True

end PipelineHandle

section Steps

variable {ξ : Type} {kernel : KernelView ξ} {host : Host} {request : HandleRequest ξ}
  {es : List HandleEvent} {h h' : PipelineHandle} {e : HandleEvent}

/-- A scheduler that ends well has just looked at the token, with nothing left to wait for. -/
theorem ends_well {action : Action} {plan : DagPlan} {listened : Bool} {c c' : Pipeline}
    {e : PipelineEvent} (hmove : Move host action plan listened c e c') (hown : e ≠ .fired)
    {v : ActionResult} (hended : c'.phase = .ended (.ok v)) :
    c.phase = .waiting ∧ c.running = [] ∧ c.firstError = none ∧ c'.cancelled = c.cancelled := by
  cases hmove with
  | fire => exact absurd rfl hown
  | finish hphase hrunning =>
    refine ⟨hphase, hrunning, ?_, rfl⟩
    cases herror : c.firstError with
    | none => rfl
    | some err =>
      have hfailed : finishPipeline host action c = .error err := by rw [finishPipeline, herror]
      rw [hfailed] at hended
      cases hended
  | join task hphase htask report c' hjoin =>
    cases hjoin
    cases hended
  | _ => cases hended

/-- What goes on beside the driver sets no flag that a terminator counts on. -/
theorem PipelineHandle.Truthful.beside {re : RaceEvent} {race : WallclockRace} (ht : h.Truthful)
    (hundisturbed : h.Undisturbed (.beside re)) (hbeside : re.isBeside = true)
    (hstep : h.race.Step re race) : Truthful { h with race := race } := by
  have hstage := hstep.beside_stage hbeside
  have hexpired : h.Promises → race.expired = h.race.expired := by
    intro hpromises
    apply hstep.beside_expired hbeside
    rintro rfl
    exact hundisturbed hpromises
  unfold Promises at hexpired
  unfold Truthful at ht ⊢
  dsimp only
  cases hat : h.driver with
  | scheduling registration c =>
    rw [hat] at ht hexpired
    exact fun hended htoken => (hexpired ⟨hended, htoken⟩).trans (ht hended htoken)
  | closing outcome ok | resolving outcome ok =>
    rw [hat] at ht hexpired
    exact fun hok => ⟨(ht hok).1, (hexpired hok).trans (ht hok).2⟩
  | judging outcome ok =>
    rw [hat] at ht hexpired
    intro hok
    obtain ⟨v, hspared⟩ := ht hok
    exact ⟨v, hspared.beside hstage fun hunread => hexpired ⟨hok, hunread⟩⟩
  | sending result ok | done result ok =>
    rw [hat] at ht
    exact ht
  | _ => trivial

theorem PipelineHandle.Truthful.step (ht : h.Truthful) (hundisturbed : h.Undisturbed e)
    (hstep : HandleStep kernel host request h e h') : h'.Truthful := by
  cases hstep with
  | beside hbeside hstep => exact ht.beside hundisturbed hbeside hstep
  | found | vanished | pulled | unpulled => trivial
  | refused | unprovisioned | unlinked | abandoned => exact nofun
  | provisioned hat => exact fun hended => nomatch hended
  | @scheduled registration c c' e hat hown hstep =>
    rintro ⟨v, hended⟩ htoken
    obtain ⟨hphase, hrunning, herror, hsame⟩ :=
      ends_well (hstep.move host registration.action.toAction registration.plan) hown hended
    have hunfired : h.race.fired = none := by
      rw [hsame] at htoken
      exact Option.isNone_iff_eq_none.mp (Option.isSome_eq_false_iff.mp htoken)
    dsimp only
    rw [htoken, if_neg Bool.false_ne_true]
    cases hexpired : h.race.expired with
    | false => rfl
    | true =>
      exact absurd ⟨registration, c, hat, hphase, hrunning, herror, hexpired, hunfired⟩ hundisturbed
  | @ended registration c outcome hat hended =>
    unfold Truthful at ht
    rw [hat] at ht
    intro hok
    obtain ⟨hisOk, htoken⟩ := Bool.and_eq_true_iff.mp hok
    cases outcome with
    | error err => cases hisOk
    | ok v => exact ⟨⟨v, rfl⟩, ht ⟨v, hended⟩ (by simpa using htoken)⟩
  | terminated hat =>
    unfold Truthful at ht
    rw [hat] at ht
    exact ht
  | resolved hat hstep =>
    unfold Truthful at ht
    rw [hat] at ht
    intro hok
    obtain ⟨⟨v, rfl⟩, hexpired⟩ := ht hok
    exact ⟨v, hstep.resolve_spared hexpired⟩
  | judged hat hjudges hstep =>
    unfold Truthful at ht ⊢
    dsimp only
    rw [hat] at ht ⊢
    intro hok
    obtain ⟨v, hspared⟩ := ht hok
    exact ⟨v, hstep.spared_judged hspared hjudges⟩
  | substituted => exact nofun
  | completed hat hreturned =>
    unfold Truthful at ht
    rw [hat] at ht
    intro hok
    obtain ⟨v, hspared⟩ := ht hok
    unfold WallclockRace.Spared at hspared
    rw [hreturned] at hspared
    exact ⟨v, hspared⟩
  | sent hat =>
    unfold Truthful at ht
    rw [hat] at ht
    exact ht
  | progressed | received | delivered | dropped => exact ht

theorem told_of_run {preAllocated : List String} {now : Nat} {cancelled : Bool}
    (hrun : Run (HandleStep kernel host request)
      (KernelView.spawnDriver request preAllocated now cancelled) es h) : Told es h := by
  refine hrun.invariant (P := Told)
    ⟨⟨fun _ => rfl, by rintro _ _ ⟨⟩⟩, [], rfl, rfl⟩ ?_
  exact fun _ _ _ _ ht hstep => ht.step hstep

theorem truthful_of_run {preAllocated : List String} {now : Nat} {cancelled : Bool}
    (hrun : Run (UndisturbedStep kernel host request)
      (KernelView.spawnDriver request preAllocated now cancelled) es h) : h.Truthful := by
  refine hrun.invariant (P := fun _ h => h.Truthful) trivial ?_
  intro _ _ _ _ ht hstep
  exact ht.step hstep.1 hstep.2

/-- What has been told of a driver that is done. -/
theorem Told.done (ht : Told es h) {result : Except KernelError ActionResult} {ok : Bool}
    (hdone : h.driver = .done result ok) :
    ∃ before, before.countP DataflowEvent.isTerminator = 0 ∧
      handedEvents es = before ++ [.pipelineCompleted ok] := by
  obtain ⟨before, hbefore, hevents⟩ := ht.events
  rw [hdone] at hevents
  exact ⟨before, hbefore, hevents⟩

theorem not_mem_of_countP {l : List DataflowEvent} (h : l.countP DataflowEvent.isTerminator = 0)
    (ok : Bool) : .pipelineCompleted ok ∉ l :=
  fun hmem => List.countP_eq_zero.mp h _ hmem rfl

theorem Told.atMostOnce (ht : Told es h) :
    (handedEvents es).countP DataflowEvent.isTerminator ≤ 1 := by
  obtain ⟨before, hbefore, hevents⟩ := ht.events
  rw [hevents, List.countP_append, hbefore, Nat.zero_add]
  exact List.countP_le_length.trans (Option.length_toList_le)

theorem Told.last (ht : Told es h) {before after : List DataflowEvent} {ok : Bool}
    (hes : handedEvents es = before ++ .pipelineCompleted ok :: after) : after = [] := by
  rcases List.eq_nil_or_concat after with hnil | ⟨rest, d, rfl⟩
  · exact hnil
  · exfalso
    have honce := ht.atMostOnce
    obtain ⟨before', hbefore', hevents⟩ := ht.events
    rw [List.concat_eq_append] at hes
    cases hsaid : h.driver.said with
    | none =>
      rw [hsaid, hes, Option.map_none, Option.toList_none, List.append_nil] at hevents
      refine not_mem_of_countP hbefore' ok ?_
      rw [← hevents]
      simp
    | some ok' =>
      -- the last event is the terminator, and the one before it is another
      rw [hsaid] at hevents
      have hlast : before ++ .pipelineCompleted ok :: rest ++ [d] =
          before' ++ [.pipelineCompleted ok'] := by
        rw [List.append_assoc, List.cons_append, ← hes, hevents]
        rfl
      obtain ⟨hinit, hd⟩ := List.append_inj' hlast rfl
      refine not_mem_of_countP hbefore' ok ?_
      rw [← hinit]
      simp

end Steps

/-- Either terminal spawns a driver. -/
theorem handle_spawned {ξ : Type} {kernel : KernelView ξ} {request : HandleRequest ξ}
    {shared : Bool} {now : Nat} {cancelled : Bool} {h : PipelineHandle}
    (hopen : kernel.intoDataflowHandle request shared now cancelled = .ok h ∨
      kernel.intoDataflowStreamingHandle request shared now cancelled = .ok h) :
    ∃ preAllocated, h = KernelView.spawnDriver request preAllocated now cancelled := by
  rcases hopen with hopen | hopen
  · obtain ⟨_, -, hopen⟩ := bind_ok hopen
    split at hopen
    · cases hopen
      exact ⟨_, rfl⟩
    · cases hopen
  · obtain ⟨_, -, hopen⟩ := bind_ok hopen
    obtain ⟨producer, -, hopen⟩ := bind_ok hopen
    split at hopen
    · cases hopen
      exact ⟨_, rfl⟩
    · cases hopen

/-- However a pipeline ends and whatever runs beside it, its handle is sent one terminator after
everything else the scheduler tells; and unless the watchdog comes between, one that says `ok: true`
comes with a result. -/
theorem one_truthful_terminator {ξ : Type} {opened kernel : KernelView ξ} {host : Host}
    {request : HandleRequest ξ} {shared : Bool} {now : Nat} {cancelled : Bool}
    {h₀ h : PipelineHandle} {es : List HandleEvent}
    (hopen : opened.intoDataflowHandle request shared now cancelled = .ok h₀ ∨
      opened.intoDataflowStreamingHandle request shared now cancelled = .ok h₀)
    (hrun : Run (UndisturbedStep kernel host request) h₀ es h) : OneTruthfulTerminator es h := by
  obtain ⟨preAllocated, rfl⟩ := handle_spawned hopen
  have htold := told_of_run (hrun.mono fun _ _ _ hstep => hstep.2)
  have htruthful := truthful_of_run hrun
  refine ⟨htold.atMostOnce, fun result ok hdone => ?_, fun before ok after hes => htold.last hes,
    fun hmem result ok hdone => ?_⟩
  · obtain ⟨before, hbefore, hevents⟩ := htold.done hdone
    rw [hevents, List.countP_append, hbefore]
    rfl
  · obtain ⟨before, hbefore, hevents⟩ := htold.done hdone
    rw [hevents] at hmem
    unfold PipelineHandle.Truthful at htruthful
    rw [hdone] at htruthful
    rcases List.mem_append.mp hmem with hmem | hmem
    · exact absurd hmem (not_mem_of_countP hbefore true)
    · cases List.mem_singleton.mp hmem
      exact htruthful rfl

/-- The watchdog does not come between in a step of the driver. -/
theorem UndisturbedStep.driven {ξ : Type} {kernel : KernelView ξ} {host : Host}
    {request : HandleRequest ξ} {h h' : PipelineHandle} {handed : Option DataflowEvent}
    (hstep : HandleStep kernel host request h (.driven handed) h') :
    UndisturbedStep kernel host request h (.driven handed) h' := ⟨trivial, hstep⟩

/-! ### A pipeline that is done in time -/

theorem Move.cancelled {host : Host} {action : Action} {plan : DagPlan} {listened : Bool}
    {c c' : Pipeline} {e : PipelineEvent} (hmove : Move host action plan listened c e c')
    (hcancelled : c.cancelled = true) : c'.cancelled = true := by
  cases hmove with
  | join task hphase htask report c' hjoin =>
    cases hjoin
    exact Bool.or_eq_true_iff.mpr (.inl hcancelled)
  | fire => rfl
  | _ => exact hcancelled

/-- While nobody fires the token, the handle's scheduler does what the pipeline's does. -/
theorem handle_of_run {ξ : Type} {kernel : KernelView ξ} {host : Host} {request : HandleRequest ξ}
    {registration : ActionRegistration} {h₀ h : PipelineHandle} {c c' : Pipeline}
    {es₀ : List HandleEvent} {es : List PipelineEvent}
    (hreached : Run (UndisturbedStep kernel host request) h₀ es₀ h)
    (hrun : PipelineRun host registration.action.toAction registration.plan true c es c')
    (hat : h.driver = .scheduling registration c) (hunfired : h.race.fired = none)
    (hunexpired : h.race.expired = false) (hquiet : .fired ∉ es) (hend : c'.cancelled = false) :
    ∃ es' channel, Run (UndisturbedStep kernel host request) h₀ es'
      { h with driver := .scheduling registration c', channel := channel } := by
  induction hrun with
  | nil => exact ⟨es₀, h.channel, by rw [← hat]; exact hreached⟩
  | @snoc es t u e hrun hstep ih =>
    have ht : t.cancelled = false := by
      refine Bool.eq_false_iff.mpr fun hcancelled => ?_
      have hmove := hstep.move host registration.action.toAction registration.plan
      exact Bool.eq_false_iff.mp hend (hmove.cancelled hcancelled)
    have htoken : t.withToken h.race.fired.isSome = t := by
      rw [hunfired, Option.isSome_none, ← ht]
      rfl
    obtain ⟨es', channel, hbefore⟩ :=
      ih (fun hin => hquiet (List.mem_append_left _ hin)) ht
    have hown : e ≠ .fired := by
      rintro rfl
      exact hquiet (by simp)
    have hscheduled : HandleStep kernel host request
        { h with driver := .scheduling registration t, channel := channel } _ _ :=
      .scheduled rfl hown (by rw [htoken]; exact hstep)
    rw [hend, if_neg Bool.false_ne_true] at hscheduled
    refine ⟨_, _, hbefore.snoc ⟨?_, hscheduled⟩⟩
    rintro ⟨_, _, -, -, -, -, hexpired, -⟩
    exact Bool.false_ne_true (hunexpired.symm.trans hexpired)

theorem mem_handedEvents {es : List HandleEvent} {d : DataflowEvent}
    (h : .driven (some d) ∈ es) : d ∈ handedEvents es :=
  List.mem_filterMap.mpr ⟨_, h, rfl⟩

/-- One long-running `let`, which must be done in ten milliseconds. -/
def copyManifest : PluginManifest :=
  { plainManifest "notes" with
    permissions := ["step_type:let"]
    actions := IndexMap.empty.insert "copy"
      { plainAction [{ StepDef.new "a" "let" .emptyObject with longRunning := true }] with
        dataflow := true
        wallclockTimeoutMs := some 10 } }

def copySetup : Setup :=
  textSetup [("kernel", { plainManifest "kernel" with stepTypeDefs := [⟨"let", false, none, []⟩] }),
    ("notes", copyManifest)] []

def copyView (r : PluginRegistry) : KernelView Unit :=
  ⟨r, defaultOrchestrator, fun _ => "", ⟨60000, none⟩, fun _ _ => .ok .null⟩

def copyRequest : HandleRequest Unit :=
  ⟨"notes", "copy", .null, .null, (), false, ⟨1000000, 64⟩, 64⟩

/-- The step is spawned and joined, and nothing is left. -/
def copyChoices : List Choice := [.advance, .advance, .join 0, .advance, .advance]

/-- The pipeline has ended well before its deadline, and has not told so yet. -/
structure CopyEnded (k : Kernel) (h₀ : PipelineHandle) (es : List HandleEvent)
    (h : PipelineHandle) : Prop where
  reachable : k.Reachable copySetup
  opened : (copyView k.registry).intoDataflowHandle copyRequest true 0 false = .ok h₀
  run : Run (UndisturbedStep (copyView k.registry) (quietHost Binary64.display) copyRequest) h₀ es h
  driver : ∃ v, h.driver = .closing (.ok v) true
  race : h.race = .start (some ⟨10, 10⟩) 0 false

theorem copy_ended : ∃ k h₀ es h, CopyEnded k h₀ es h := by
  have hdriven : ∃ k₀ k registration h₀ s fanout es c v,
      Kernel.boot copySetup "kernel" = .ok k₀ ∧ k = k₀.afterAll copySetup [.load "" "notes"] ∧
      k.registry.getAction "notes" "copy" = some registration ∧
      registration.action.dataflow = true ∧
      (copyView k.registry).intoDataflowHandle copyRequest true 0 false = .ok h₀ ∧
      h₀ = KernelView.spawnDriver copyRequest [] 0 false ∧
      (copyView k.registry).limits.cap 0 registration.action = some ⟨10, 10⟩ ∧
      provisionDataflowStreams (quietHost Binary64.display) registration.action.toAction
        registration.plan [] (.new "notes" registration.action.toAction .null .null .null none
          ⟨1000000, 64⟩) = .ok (s, fanout) ∧
      drive (quietHost Binary64.display) registration.action.toAction registration.plan true
        copyChoices (startPipeline registration.action.toAction registration.plan s fanout false) =
          some (es, c) ∧
      c.phase = .ended (.ok v) ∧ c.cancelled = false ∧ es.all (fun e => !e.isFired) = true :=
    ⟨_, _, _, _, _, _, _, _, _, rfl, rfl, rfl, rfl, rfl, rfl, rfl, rfl, rfl, rfl, rfl, rfl⟩
  obtain ⟨k₀, k, registration, h₀, s, fanout, es, c, v, hboot, hk, hget, hdataflow, hopen,
    hspawned, hcap, hprovision, hdrive, hended, htoken, hquiet⟩ := hdriven
  subst hspawned
  have hfound : Run (UndisturbedStep (copyView k.registry) (quietHost Binary64.display) copyRequest)
      (KernelView.spawnDriver copyRequest [] 0 false) _ _ :=
    Run.single (.driven (.found rfl hget hdataflow))
  have hpulled := hfound.snoc (.driven (.pulled rfl rfl))
  have hprovisioned := hpulled.snoc (.driven (.provisioned rfl hprovision))
  have hunfired : .fired ∉ es := by
    intro hin
    simpa [PipelineEvent.isFired] using List.all_eq_true.mp hquiet _ hin
  obtain ⟨es', channel, hscheduled⟩ :=
    handle_of_run hprovisioned (drive_run _ _ _ hdrive) rfl rfl rfl hunfired htoken
  have hclosing := hscheduled.snoc (.driven (.ended rfl hended))
  rw [htoken] at hclosing
  refine ⟨k, _, _, _, hk ▸ Kernel.reachable_afterAll hboot _, hopen, hclosing, ⟨v, rfl⟩, ?_⟩
  exact congrArg (fun cap => WallclockRace.start cap 0 false) hcap

/-- The scheduler has told the caller that all is well when the watchdog takes the deadline: the
result is the deadline's. -/
theorem rosy_terminator : ∃ (k : Kernel) (h₀ : PipelineHandle) (es : List HandleEvent)
    (h : PipelineHandle), k.Reachable copySetup ∧
    (copyView k.registry).intoDataflowHandle copyRequest true 0 false = .ok h₀ ∧
    Run (HandleStep (copyView k.registry) (quietHost Binary64.display) copyRequest) h₀ es h ∧
    .pipelineCompleted true ∈ handedEvents es ∧
    h.driver = .done (.error (.executionTimeout 10)) true ∧ ¬OneTruthfulTerminator es h := by
  obtain ⟨k, h₀, es, h, hreachable, hopen, hrun, ⟨v, hdriver⟩, hrace⟩ := copy_ended
  have hclosing : Run (HandleStep (copyView k.registry) (quietHost Binary64.display) copyRequest) h₀
      es h := hrun.mono fun _ _ _ hstep => hstep.2
  have htold := hclosing.snoc (.terminated hdriver)
  obtain ⟨preAllocated, driver, race, channel⟩ := h
  cases hrace
  have hflagged := (((htold.snoc (.beside rfl (.tick 10))).snoc
    (.beside rfl (.wake rfl rfl (Nat.le_refl 10)))).snoc (.beside rfl (.check rfl))).snoc
      (.beside rfl (.flag rfl))
  have hresolved := hflagged.snoc (.resolved rfl (.resolve rfl rfl))
  have hloaded := (hresolved.snoc (.judged rfl rfl (.abort rfl))).snoc (.judged rfl rfl (.load rfl))
  have hfinished := (hloaded.snoc (.judged rfl rfl (.readToken rfl))).snoc
    (.judged rfl rfl (.finish rfl rfl))
  have hdone := (hfinished.snoc (.completed rfl rfl rfl)).snoc (.sent rfl)
  refine ⟨k, h₀, _, _, hreachable, hopen, hdone, ?told, rfl, fun h => ?rosy⟩
  case told => exact mem_handedEvents (by simp)
  case rosy =>
    refine absurd (h.truthful ?_ _ _ rfl) (by rintro ⟨w, ⟨⟩⟩)
    exact mem_handedEvents (by simp)

/-- The watchdog is not up yet when the flag is read. -/
theorem one_truthful_terminator_copy : ∃ (k : Kernel) (h₀ : PipelineHandle)
    (es : List HandleEvent) (h : PipelineHandle) (v : ActionResult), k.Reachable copySetup ∧
    (copyView k.registry).intoDataflowHandle copyRequest true 0 false = .ok h₀ ∧
    Run (UndisturbedStep (copyView k.registry) (quietHost Binary64.display) copyRequest) h₀ es h ∧
    h.driver = .done (.ok v) true ∧ OneTruthfulTerminator es h := by
  obtain ⟨k, h₀, es, h, hreachable, hopen, hrun, ⟨v, hdriver⟩, hrace⟩ := copy_ended
  have htold := hrun.snoc (.driven (.terminated hdriver))
  obtain ⟨preAllocated, driver, race, channel⟩ := h
  cases hrace
  have hresolved := htold.snoc (.driven (.resolved rfl (.resolve rfl rfl)))
  have hloaded := (hresolved.snoc (.driven (.judged rfl rfl (.abort rfl)))).snoc
    (.driven (.judged rfl rfl (.load rfl)))
  have hclocked := (hloaded.snoc (.driven (.judged rfl rfl (.readToken rfl)))).snoc
    (.driven (.judged rfl rfl (.readClock rfl rfl)))
  have hfinished := hclocked.snoc (.driven (.judged rfl rfl (.finish rfl rfl)))
  have hdone := (hfinished.snoc (.driven (.completed rfl rfl rfl))).snoc (.driven (.sent rfl))
  exact ⟨k, h₀, _, _, v, hreachable, hopen, hdone, rfl, one_truthful_terminator (.inl hopen) hdone⟩

end Gwead
