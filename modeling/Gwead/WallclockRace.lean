import Gwead.Callee
import Gwead.Lib.Transition
import Gwead.Waves

/-!
# The race for an action's deadline

An action under a wallclock cap runs beside a watchdog, which fires its token at the deadline, and
beside whoever else holds the token.  Afterwards the outcome is attributed to the deadline or to the
action from a flag the watchdog sets, the token and the clock, each looked at in a step of its own.
-/

namespace Gwead

open Transition

/-- The shape a cancellation takes on its way out of an action. -/
def stoppedByCancellation : KernelError → Bool
  | .cancelled _ => true
  | .executionTimeout _ => true
  | .calleeFailed _ _ _ source => stoppedByCancellation source
  | _ => false

/-- How long the backstop waits past the deadline, in milliseconds as instants are. -/
def wallclockDropGrace : Nat := 100

structure WallclockOutcome where
  result : Except KernelError ActionResult
  abandoned : Bool

/-- Who was the first to fire the token. -/
inductive Firer where
  | watchdog
  | backstop
  | other
  deriving DecidableEq

/-- Where the watchdog is: it wakes at the deadline, looks at the token, and if that is not fired sets
the flag and fires it. -/
inductive Watchdog where
  | sleeping
  | awake
  | checked
  | flagged
  | done
  | aborted
  deriving DecidableEq

/-- Where `run_with_wallclock_timeout` is.  `none` stands for a future that was dropped. -/
inductive TimeoutStage where
  | waiting
  | ended (outcome : Option (Except KernelError ActionResult))
  | aborted (outcome : Option (Except KernelError ActionResult))
  | loaded (outcome : Option (Except KernelError ActionResult)) (expired : Bool)
  | unclocked (outcome : Option (Except KernelError ActionResult))
  | judged (outcome : Option (Except KernelError ActionResult)) (expired deadlineReached : Bool)
  | returned (outcome : WallclockOutcome)

/-- How the future ended, when, and who had fired the token by then. -/
structure Ending where
  outcome : Option (Except KernelError ActionResult)
  instant : Nat
  fired : Option Firer

structure WallclockRace where
  cap : Option WallclockCap
  now : Nat
  watchdog : Watchdog
  expired : Bool
  fired : Option Firer
  stage : TimeoutStage
  ending : Option Ending

inductive RaceEvent where
  | tick (ms : Nat)
  | cancel
  | wake
  | check
  | flag
  | fire
  | resolve (result : Except KernelError ActionResult)
  | drop
  | abort
  | load
  | readToken
  | readClock
  | finish

namespace WallclockRace

/-- The token may be fired from the start. -/
def start (cap : Option WallclockCap) (now : Nat) (cancelled : Bool) : WallclockRace :=
  ⟨cap, now, .sleeping, false, if cancelled then some .other else none, .waiting, none⟩

/-- Firing a fired token does nothing. -/
def fireBy (s : WallclockRace) (who : Firer) : WallclockRace :=
  { s with fired := s.fired.or (some who) }

/-- The future is over. -/
def endWith (s : WallclockRace) (outcome : Option (Except KernelError ActionResult)) :
    WallclockRace :=
  { s with stage := .ended outcome, ending := some ⟨outcome, s.now, s.fired⟩ }

/-- What is reported of a future that resolved.  A failure that only coincided with the deadline is
reported itself. -/
def report (timeoutMs : Nat) (expired deadlineReached : Bool) :
    Except KernelError ActionResult → Except KernelError ActionResult
  | .ok v => if expired then .error (.executionTimeout timeoutMs) else .ok v
  | .error e =>
    if deadlineReached && stoppedByCancellation e then .error (.executionTimeout timeoutMs)
    else .error e

/-- The stage after the flag was read: the token is looked at only if the flag is not set, and the
clock only if the token is not fired either. -/
def afterToken (fired : Option Firer) (outcome : Option (Except KernelError ActionResult))
    (expired : Bool) : TimeoutStage :=
  if expired then .judged outcome expired true
  else if fired.isSome then .judged outcome expired false
  else .unclocked outcome

/-- The race takes one step. -/
inductive Step (s : WallclockRace) : RaceEvent → WallclockRace → Prop
  | tick (ms : Nat) : Step s (.tick ms) { s with now := s.now + ms }
  | cancel : Step s .cancel (s.fireBy .other)
  | wake {cap : WallclockCap} (hcap : s.cap = some cap) (hat : s.watchdog = .sleeping)
      (hdue : cap.deadline ≤ s.now) : Step s .wake { s with watchdog := .awake }
  -- a token somebody else fired first is their cancel
  | check (hat : s.watchdog = .awake) :
      Step s .check { s with watchdog := if s.fired.isSome then .done else .checked }
  | flag (hat : s.watchdog = .checked) :
      Step s .flag { s with watchdog := .flagged, expired := true }
  | fire (hat : s.watchdog = .flagged) :
      Step s .fire ({ s with watchdog := .done }.fireBy .watchdog)
  | await {r : Except KernelError ActionResult} (hcap : s.cap = none) (hat : s.stage = .waiting) :
      Step s (.resolve r) { s.endWith (some r) with stage := .returned ⟨r, false⟩ }
  | resolve {cap : WallclockCap} {r : Except KernelError ActionResult} (hcap : s.cap = some cap)
      (hat : s.stage = .waiting) : Step s (.resolve r) (s.endWith (some r))
  | drop {cap : WallclockCap} (hcap : s.cap = some cap) (hat : s.stage = .waiting)
      (hdue : cap.deadline + wallclockDropGrace ≤ s.now) : Step s .drop (s.endWith none)
  -- a watchdog that is awake has nothing more to wait for and runs on
  | abort {outcome : Option (Except KernelError ActionResult)} (hat : s.stage = .ended outcome) :
      Step s .abort { s with
        stage := .aborted outcome
        watchdog := if s.watchdog = .sleeping then .aborted else s.watchdog }
  | load {outcome : Option (Except KernelError ActionResult)} (hat : s.stage = .aborted outcome) :
      Step s .load { s with stage := .loaded outcome s.expired }
  | readToken {outcome : Option (Except KernelError ActionResult)} {expired : Bool}
      (hat : s.stage = .loaded outcome expired) :
      Step s .readToken { s with stage := afterToken s.fired outcome expired }
  | readClock {cap : WallclockCap} {outcome : Option (Except KernelError ActionResult)}
      (hcap : s.cap = some cap) (hat : s.stage = .unclocked outcome) :
      Step s .readClock { s with stage := .judged outcome false (decide (cap.deadline ≤ s.now)) }
  | abandon {cap : WallclockCap} {expired deadlineReached : Bool} (hcap : s.cap = some cap)
      (hat : s.stage = .judged none expired deadlineReached) :
      Step s .finish ({ s with
        stage := .returned ⟨.error (.executionTimeout cap.timeoutMs), true⟩ }.fireBy .backstop)
  | finish {cap : WallclockCap} {r : Except KernelError ActionResult}
      {expired deadlineReached : Bool} (hcap : s.cap = some cap)
      (hat : s.stage = .judged (some r) expired deadlineReached) :
      Step s .finish { s with
        stage := .returned ⟨report cap.timeoutMs expired deadlineReached r, false⟩ }

end WallclockRace

/-- Before the deadline, if there is one. -/
def Early (cap : Option WallclockCap) (instant : Nat) : Prop :=
  ∀ c, cap = some c → instant < c.deadline

/-- The outcome is attributed truthfully, given how the future ended: it is called abandoned exactly
if the future was dropped; what somebody else cancelled is reported as it is; what the watchdog
stopped is reported as the deadline, unless it failed by itself; and what resolved before the deadline
is reported as it is. -/
structure Attributed (cap : Option WallclockCap) (ending : Ending) (o : WallclockOutcome) : Prop where
  abandoned : o.abandoned = true ↔ ending.outcome = none
  theirs : ∀ r, ending.outcome = some r → ending.fired = some .other → o.result = r
  ours : ∀ r, ending.outcome = some r → ending.fired = some .watchdog →
    (∀ e, r = .error e → stoppedByCancellation e = true) →
    ∃ c, cap = some c ∧ o.result = .error (.executionTimeout c.timeoutMs)
  failures : ∀ e, ending.outcome = some (.error e) → stoppedByCancellation e = false →
    o.result = .error e
  early : ∀ r, ending.outcome = some r → Early cap ending.instant → o.result = r

namespace WallclockRace

/-- A flag that is set makes the deadline of this. -/
def Overruled : Except KernelError ActionResult → Prop
  | .ok _ => True
  | .error e => stoppedByCancellation e = true

/-- The clock has a say in the report of this. -/
def Timed : Except KernelError ActionResult → Prop
  | .ok _ => False
  | .error e => stoppedByCancellation e = true

/-- The future is over, and the flag has not been read yet. -/
def Unread (s : WallclockRace) : Prop :=
  match s.stage with
  | .ended _ | .aborted _ => True
  | _ => False

/-- Nobody else is the first to fire the token between the watchdog's look at it and the watchdog's own
cancel, while the future runs.  For a future that resolved before the deadline, the flag is not set
before it is read and the clock is not read past the deadline, where they have a say. -/
def Orderly (s : WallclockRace) : RaceEvent → Prop
  | .cancel => s.stage = .waiting → s.fired = none → s.watchdog ≠ .checked ∧ s.watchdog ≠ .flagged
  | .flag => s.Unread → ∀ ending r, s.ending = some ending → ending.outcome = some r → Overruled r →
      ¬Early s.cap ending.instant
  | .readClock => ∀ ending r, s.ending = some ending → ending.outcome = some r → Timed r →
      Early s.cap ending.instant → Early s.cap s.now
  | _ => True

/-- Steps of an orderly race. -/
def OrderlyStep (s : WallclockRace) (e : RaceEvent) (t : WallclockRace) : Prop :=
  s.Orderly e ∧ s.Step e t

/-! ### The watchdog, its flag and the token -/

/-- Only a watchdog past the deadline is up, sets the flag and then fires the token. -/
structure Watched (s : WallclockRace) : Prop where
  asleep : Early s.cap s.now → s.watchdog = .sleeping ∨ s.watchdog = .aborted
  flagged : s.expired = true → s.watchdog = .flagged ∨ s.watchdog = .done
  set : s.watchdog = .flagged → s.expired = true
  done : s.watchdog = .done → s.fired.isSome
  ours : s.fired = some .watchdog → s.expired = true

variable {s t : WallclockRace}

theorem Early.mono {cap : Option WallclockCap} {i j : Nat} (hle : i ≤ j) (h : Early cap j) :
    Early cap i :=
  fun c hc => Nat.lt_of_le_of_lt hle (h c hc)

theorem fireBy_of_some {who f : Firer} (h : s.fired = some f) : (s.fireBy who).fired = some f := by
  simp [fireBy, h]

theorem fireBy_fired (who : Firer) : (s.fireBy who).fired.isSome := by
  cases hf : s.fired <;> simp [fireBy, hf]

theorem of_fireBy {who f : Firer} (h : (s.fireBy who).fired = some f) (hwho : who ≠ f) :
    s.fired = some f := by
  cases hf : s.fired with
  | none => exact absurd (by simpa [fireBy, hf] using h) hwho
  | some f' => exact (fireBy_of_some hf).symm.trans h

/-- A watchdog that is up woke at the deadline. -/
theorem Watched.late (h : s.Watched) (hsleeping : s.watchdog ≠ .sleeping)
    (haborted : s.watchdog ≠ .aborted) : ¬Early s.cap s.now :=
  fun hearly => (h.asleep hearly).elim hsleeping haborted

/-- Only the watchdog sets the flag. -/
theorem Watched.unexpired (h : s.Watched) (hflagged : s.watchdog ≠ .flagged)
    (hdone : s.watchdog ≠ .done) : s.expired = false := by
  cases hexpired : s.expired with
  | false => rfl
  | true => exact ((h.flagged hexpired).elim hflagged hdone).elim

theorem Watched.unexpired_early (h : s.Watched) (hearly : Early s.cap s.now) :
    s.expired = false := by
  rcases h.asleep hearly with hat | hat
  · exact h.unexpired (by simp [hat]) (by simp [hat])
  · exact h.unexpired (by simp [hat]) (by simp [hat])

/-- What `run_with_wallclock_timeout` does on its own leaves all this. -/
theorem Watched.staged (h : s.Watched) (stage : TimeoutStage) (ending : Option Ending) :
    Watched { s with stage := stage, ending := ending } :=
  ⟨h.asleep, h.flagged, h.set, h.done, h.ours⟩

/-- Somebody other than the watchdog fires the token. -/
theorem Watched.fireBy (h : s.Watched) {who : Firer} (hwho : who ≠ .watchdog) :
    (s.fireBy who).Watched :=
  ⟨h.asleep, h.flagged, h.set, fun _ => fireBy_fired who, fun hours => h.ours (of_fireBy hours hwho)⟩

theorem Watched.wake (h : s.Watched) {cap : WallclockCap} (hcap : s.cap = some cap)
    (hat : s.watchdog = .sleeping) (hdue : cap.deadline ≤ s.now) :
    Watched { s with watchdog := .awake } := by
  have hunexpired := h.unexpired (by simp [hat]) (by simp [hat])
  refine ⟨fun hearly => ?_, fun hexpired => ?_, nofun, nofun, h.ours⟩
  · exact absurd (hearly _ hcap) (Nat.not_lt.mpr hdue)
  · exact absurd (hunexpired.symm.trans hexpired) nofun

theorem Watched.check (h : s.Watched) (hat : s.watchdog = .awake) :
    Watched { s with watchdog := if s.fired.isSome then .done else .checked } := by
  have hlate := h.late (by simp [hat]) (by simp [hat])
  have hunexpired := h.unexpired (by simp [hat]) (by simp [hat])
  refine ⟨fun hearly => absurd hearly hlate, fun hexpired => ?_, fun hflagged => ?_,
    fun hdone => ?_, h.ours⟩
  · exact absurd (hunexpired.symm.trans hexpired) nofun
  · cases hf : s.fired <;> simp [hf] at hflagged
  · cases hf : s.fired <;> simp [hf] at hdone ⊢

theorem Watched.flag (h : s.Watched) (hat : s.watchdog = .checked) :
    Watched { s with watchdog := .flagged, expired := true } :=
  ⟨fun hearly => absurd hearly (h.late (by simp [hat]) (by simp [hat])), fun _ => .inl rfl,
    fun _ => rfl, nofun, fun _ => rfl⟩

theorem Watched.fire (h : s.Watched) (hat : s.watchdog = .flagged) :
    Watched ({ s with watchdog := .done }.fireBy .watchdog) :=
  ⟨fun hearly => absurd hearly (h.late (by simp [hat]) (by simp [hat])), fun _ => .inr rfl, nofun,
    fun _ => fireBy_fired .watchdog, fun _ => h.set hat⟩

/-- A watchdog that is asleep is stopped, and no other. -/
theorem Watched.abort (h : s.Watched) :
    Watched { s with watchdog := if s.watchdog = .sleeping then .aborted else s.watchdog } := by
  by_cases hsleeping : s.watchdog = .sleeping
  · have hunexpired := h.unexpired (by simp [hsleeping]) (by simp [hsleeping])
    simp only [if_pos hsleeping]
    exact ⟨fun _ => .inr rfl, fun hexpired => absurd (hunexpired.symm.trans hexpired) nofun, nofun,
      nofun, h.ours⟩
  · simp only [if_neg hsleeping]
    exact h

theorem Step.watched {e : RaceEvent} (h : s.Watched) (hstep : s.Step e t) : t.Watched := by
  cases hstep with
  | tick ms =>
    exact ⟨fun hearly => h.asleep (Early.mono (Nat.le_add_right _ _) hearly), h.flagged, h.set,
      h.done, h.ours⟩
  | cancel => exact h.fireBy nofun
  | wake hcap hat hdue => exact h.wake hcap hat hdue
  | check hat => exact h.check hat
  | flag hat => exact h.flag hat
  | fire hat => exact h.fire hat
  | await => exact h.staged _ _
  | resolve => exact h.staged _ _
  | drop => exact h.staged _ _
  | abort => exact h.abort.staged _ _
  | load => exact h.staged _ _
  | readToken => exact h.staged _ _
  | readClock => exact h.staged _ _
  | abandon => exact (h.staged _ _).fireBy nofun
  | finish => exact h.staged _ _

/-! ### What is known at each stage -/

/-- The watchdog has not taken the token for its own and will not. -/
structure Theirs (s : WallclockRace) : Prop where
  fired : s.fired = some .other
  unexpired : s.expired = false
  unchecked : s.watchdog ≠ .checked
  unflagged : s.watchdog ≠ .flagged

/-- What the flag and the token still have to say of a future that has ended. -/
structure Looks (s : WallclockRace) (ending : Ending) : Prop where
  early : ∀ r, ending.outcome = some r → Overruled r → Early s.cap ending.instant →
    s.expired = false
  theirs : ending.fired = some .other → s.Theirs
  ours : ending.fired = some .watchdog → s.expired = true
  fired : ending.fired.isSome → s.fired.isSome

/-- What a look has said of it, where that matters. -/
structure Told (cap : Option WallclockCap) (minds : Except KernelError ActionResult → Prop)
    (ending : Ending) (said : Bool) : Prop where
  early : ∀ r, ending.outcome = some r → minds r → Early cap ending.instant → said = false
  theirs : ending.fired = some .other → said = false
  ours : ending.fired = some .watchdog → said = true

def StageKept (s : WallclockRace) : Prop :=
  match s.stage with
  | .waiting => s.fired = some .other → s.Theirs
  | .ended outcome | .aborted outcome =>
    ∃ ending, s.ending = some ending ∧ ending.outcome = outcome ∧ s.Looks ending
  | .loaded outcome expired =>
    ∃ ending, s.ending = some ending ∧ ending.outcome = outcome ∧
      (ending.fired.isSome → s.fired.isSome) ∧ Told s.cap Overruled ending expired
  | .unclocked outcome =>
    ∃ ending, s.ending = some ending ∧ ending.outcome = outcome ∧ ending.fired = none
  | .judged outcome expired deadlineReached =>
    ∃ ending, s.ending = some ending ∧ ending.outcome = outcome ∧
      Told s.cap Overruled ending expired ∧ Told s.cap Timed ending deadlineReached
  | .returned o => ∃ ending, s.ending = some ending ∧ Attributed s.cap ending o

theorem Timed.overruled {r : Except KernelError ActionResult} (h : Timed r) : Overruled r := by
  cases r with
  | ok v => exact h.elim
  | error e => exact h

theorem Told.timed {cap : Option WallclockCap} {ending : Ending} {said : Bool}
    (h : Told cap Overruled ending said) : Told cap Timed ending said :=
  ⟨fun r hr hminds => h.early r hr hminds.overruled, h.theirs, h.ours⟩

/-- The flag says of a future what was known of it. -/
theorem Looks.told {ending : Ending} (h : s.Looks ending) :
    Told s.cap Overruled ending s.expired :=
  ⟨h.early, fun hother => (h.theirs hother).unexpired, h.ours⟩

theorem Theirs.of_watchdog (h : s.Theirs) (hfired : t.fired = s.fired)
    (hexpired : t.expired = s.expired) (hunchecked : t.watchdog ≠ .checked)
    (hunflagged : t.watchdog ≠ .flagged) : t.Theirs :=
  ⟨hfired.trans h.fired, hexpired.trans h.unexpired, hunchecked, hunflagged⟩

theorem Theirs.fireBy (h : s.Theirs) (who : Firer) : (s.fireBy who).Theirs :=
  ⟨fireBy_of_some h.fired, h.unexpired, h.unchecked, h.unflagged⟩

/-- What goes on beside `run_with_wallclock_timeout` keeps what is known at its stage. -/
theorem StageKept.background (h : s.StageKept) (hcap : t.cap = s.cap) (hstage : t.stage = s.stage)
    (hending : t.ending = s.ending) (hfired : s.fired.isSome → t.fired.isSome)
    (hwait : s.stage = .waiting → (s.fired = some .other → s.Theirs) →
      t.fired = some .other → t.Theirs)
    (hlooks : s.Unread → ∀ ending, s.ending = some ending → s.Looks ending → t.Looks ending) :
    t.StageKept := by
  unfold StageKept at h ⊢
  rw [hstage]
  cases hs : s.stage with
  | waiting =>
    rw [hs] at h
    exact hwait hs h
  | ended outcome | aborted outcome =>
    rw [hs] at h
    obtain ⟨ending, hend, houtcome, hl⟩ := h
    exact ⟨ending, hending.trans hend, houtcome, hlooks (by simp [Unread, hs]) ending hend hl⟩
  | loaded outcome expired =>
    rw [hs] at h
    obtain ⟨ending, hend, houtcome, hstill, htold⟩ := h
    exact ⟨ending, hending.trans hend, houtcome, fun hf => hfired (hstill hf), hcap ▸ htold⟩
  | unclocked outcome =>
    rw [hs] at h
    obtain ⟨ending, hend, hrest⟩ := h
    exact ⟨ending, hending.trans hend, hrest⟩
  | judged outcome expired deadlineReached =>
    rw [hs] at h
    obtain ⟨ending, hend, hrest⟩ := h
    exact ⟨ending, hending.trans hend, hcap ▸ hrest⟩
  | returned o =>
    rw [hs] at h
    obtain ⟨ending, hend, hattributed⟩ := h
    exact ⟨ending, hending.trans hend, hcap ▸ hattributed⟩

/-- So does a step that changes neither flag nor token, and does not let the watchdog take a token
that is not its own. -/
theorem StageKept.unmoved (h : s.StageKept) (hcap : t.cap = s.cap) (hstage : t.stage = s.stage)
    (hending : t.ending = s.ending) (hfired : t.fired = s.fired) (hexpired : t.expired = s.expired)
    (hkeeps : s.Theirs → t.watchdog ≠ .checked ∧ t.watchdog ≠ .flagged) : t.StageKept := by
  have htheirs : s.Theirs → t.Theirs := fun ht =>
    ht.of_watchdog hfired hexpired (hkeeps ht).1 (hkeeps ht).2
  refine h.background hcap hstage hending (fun hf => hfired ▸ hf)
    (fun _ hwait hother => htheirs (hwait (hfired ▸ hother))) fun _ ending _ hl => ?_
  exact ⟨fun r hr hover hearly => hexpired.trans (hl.early r hr hover (hcap ▸ hearly)),
    fun hother => htheirs (hl.theirs hother), fun hours => hexpired.trans (hl.ours hours),
    fun hf => hfired ▸ hl.fired hf⟩

theorem StageKept.check (h : s.StageKept) :
    StageKept { s with watchdog := if s.fired.isSome then .done else .checked } := by
  refine h.unmoved rfl rfl rfl rfl rfl fun htheirs => ?_
  simp [htheirs.fired]

theorem StageKept.cancel (h : s.StageKept) (hw : s.Watched) (horderly : s.Orderly .cancel) :
    (s.fireBy .other).StageKept := by
  refine h.background rfl rfl rfl (fun _ => fireBy_fired .other) (fun hwaiting hwait hother => ?_) ?_
  · cases hf : s.fired with
    | none =>
      -- nobody had fired it: the watchdog has neither looked at it nor set the flag
      obtain ⟨hunchecked, hunflagged⟩ := horderly hwaiting hf
      exact ⟨hother, hw.unexpired hunflagged fun hdone => by simpa [hf] using hw.done hdone,
        hunchecked, hunflagged⟩
    | some f =>
      rw [fireBy_of_some hf] at hother
      exact (hwait (hf.trans hother)).fireBy .other
  · intro _ ending _ hl
    exact ⟨hl.early, fun hother => (hl.theirs hother).fireBy .other, hl.ours,
      fun _ => fireBy_fired .other⟩

theorem StageKept.flag (h : s.StageKept) (hat : s.watchdog = .checked) (horderly : s.Orderly .flag) :
    StageKept { s with watchdog := .flagged, expired := true } := by
  refine h.background rfl rfl rfl id
    (fun _ hwait hother => absurd hat (hwait hother).unchecked) fun hunread ending hend hl => ?_
  exact ⟨fun r hr hover hearly => absurd hearly (horderly hunread ending r hend hr hover),
    fun hother => absurd hat (hl.theirs hother).unchecked, fun _ => rfl, hl.fired⟩

theorem StageKept.fire (h : s.StageKept) (hw : s.Watched) (hat : s.watchdog = .flagged) :
    StageKept ({ s with watchdog := .done }.fireBy .watchdog) := by
  refine h.background rfl rfl rfl (fun _ => fireBy_fired .watchdog) (fun _ hwait hother => ?_) ?_
  · exact absurd hat (hwait (of_fireBy hother nofun)).unflagged
  · intro _ ending _ hl
    exact ⟨hl.early, fun hother => absurd hat (hl.theirs hother).unflagged, fun _ => hw.set hat,
      fun _ => fireBy_fired .watchdog⟩

/-- Without a cap nothing is looked at. -/
theorem attributed_await (hw : s.Watched) (hcap : s.cap = none)
    (r : Except KernelError ActionResult) :
    Attributed s.cap ⟨some r, s.now, s.fired⟩ ⟨r, false⟩ := by
  have hearly : Early s.cap s.now := fun c hc => by
    rw [hcap] at hc
    cases hc
  refine ⟨⟨nofun, nofun⟩, ?_, ?_, ?_, ?_⟩
  · rintro r' hr -
    exact Option.some.inj hr
  · rintro r' - hwatchdog
    -- without a cap the watchdog never wakes
    exact absurd ((hw.unexpired_early hearly).symm.trans (hw.ours hwatchdog)) nofun
  · rintro e hr -
    exact Option.some.inj hr
  · rintro r' hr -
    exact Option.some.inj hr

/-- A future that ends has been looked at by nobody. -/
theorem StageKept.endWith (h : s.StageKept) (hw : s.Watched) (hat : s.stage = .waiting)
    (outcome : Option (Except KernelError ActionResult)) : (s.endWith outcome).StageKept := by
  rw [StageKept, hat] at h
  refine ⟨_, rfl, rfl, fun _ _ _ hearly => hw.unexpired_early hearly, fun hother => ?_, hw.ours, id⟩
  exact ⟨(h hother).fired, (h hother).unexpired, (h hother).unchecked, (h hother).unflagged⟩

theorem StageKept.abort (h : s.StageKept) {outcome : Option (Except KernelError ActionResult)}
    (hat : s.stage = .ended outcome) : StageKept { s with
      stage := .aborted outcome
      watchdog := if s.watchdog = .sleeping then .aborted else s.watchdog } := by
  rw [StageKept, hat] at h
  obtain ⟨ending, hend, houtcome, hl⟩ := h
  refine ⟨ending, hend, houtcome, hl.early, fun hother => ?_, hl.ours, hl.fired⟩
  have htheirs := hl.theirs hother
  by_cases hsleeping : s.watchdog = .sleeping
  · exact htheirs.of_watchdog rfl rfl (by simp [hsleeping]) (by simp [hsleeping])
  · exact htheirs.of_watchdog rfl rfl (by simp [hsleeping, htheirs.unchecked])
      (by simp [hsleeping, htheirs.unflagged])

theorem StageKept.load (h : s.StageKept) {outcome : Option (Except KernelError ActionResult)}
    (hat : s.stage = .aborted outcome) :
    StageKept { s with stage := .loaded outcome s.expired } := by
  rw [StageKept, hat] at h
  obtain ⟨ending, hend, houtcome, hl⟩ := h
  exact ⟨ending, hend, houtcome, hl.fired, hl.told⟩

theorem StageKept.readToken (h : s.StageKept) {outcome : Option (Except KernelError ActionResult)}
    {expired : Bool} (hat : s.stage = .loaded outcome expired) :
    StageKept { s with stage := afterToken s.fired outcome expired } := by
  rw [StageKept, hat] at h
  obtain ⟨ending, hend, houtcome, hstill, htold⟩ := h
  unfold StageKept afterToken
  cases expired with
  | true => exact ⟨ending, hend, houtcome, htold, htold.timed⟩
  | false =>
    cases hf : s.fired with
    | some f => exact ⟨ending, hend, houtcome, htold, htold.timed⟩
    | none =>
      -- who had fired it by the end has fired it still
      refine ⟨ending, hend, houtcome, Option.not_isSome_iff_eq_none.mp fun hfired => ?_⟩
      have hsome := hstill hfired
      rw [hf] at hsome
      cases hsome

theorem StageKept.readClock (h : s.StageKept) {cap : WallclockCap}
    {outcome : Option (Except KernelError ActionResult)} (hcap : s.cap = some cap)
    (hat : s.stage = .unclocked outcome) (horderly : s.Orderly .readClock) :
    StageKept { s with stage := .judged outcome false (decide (cap.deadline ≤ s.now)) } := by
  rw [StageKept, hat] at h
  obtain ⟨ending, hend, houtcome, hnone⟩ := h
  have hnobody : ∀ f, ending.fired ≠ some f := fun f hf => by
    rw [hnone] at hf
    cases hf
  refine ⟨ending, hend, houtcome, ⟨fun _ _ _ _ => rfl, fun _ => rfl, fun hours => ?_⟩,
    fun r hr htimed hearly => ?_, fun hother => ?_, fun hours => ?_⟩
  · exact absurd hours (hnobody _)
  · have hnow := horderly ending r hend hr htimed hearly
    exact decide_eq_false (Nat.not_le.mpr (hnow _ hcap))
  · exact absurd hother (hnobody _)
  · exact absurd hours (hnobody _)

/-- The report of a future that resolved is attributed truthfully if the looks were. -/
theorem attributed_report {c : WallclockCap} {r : Except KernelError ActionResult}
    {ending : Ending} {expired deadlineReached : Bool} (houtcome : ending.outcome = some r)
    (hflag : Told (some c) Overruled ending expired)
    (hdeadline : Told (some c) Timed ending deadlineReached) :
    Attributed (some c) ending ⟨report c.timeoutMs expired deadlineReached r, false⟩ := by
  have hown : ∀ r' : Except KernelError ActionResult, report c.timeoutMs false false r' = r' := by
    intro r'
    cases r' <;> rfl
  refine ⟨⟨nofun, fun hnone => ?_⟩, ?_, ?_, ?_, ?_⟩
  · cases houtcome.symm.trans hnone
  · rintro r' hr hother
    cases houtcome.symm.trans hr
    rw [hflag.theirs hother, hdeadline.theirs hother]
    exact hown r
  · rintro r' hr hwatchdog hshape
    cases houtcome.symm.trans hr
    rw [hflag.ours hwatchdog, hdeadline.ours hwatchdog]
    refine ⟨c, rfl, ?_⟩
    cases r with
    | ok v => rfl
    | error e => simp [report, hshape e rfl]
  · rintro e hr hshape
    cases houtcome.symm.trans hr
    simp [report, hshape]
  · rintro r' hr hearly
    cases houtcome.symm.trans hr
    cases r with
    | ok v => simp [report, hflag.early _ houtcome trivial hearly]
    | error e =>
      cases hshape : stoppedByCancellation e with
      | false => simp [report, hshape]
      | true => simp [report, hdeadline.early _ houtcome hshape hearly]

theorem StageKept.abandon (h : s.StageKept) {timeoutMs : Nat} {expired deadlineReached : Bool}
    (hat : s.stage = .judged none expired deadlineReached) : StageKept ({ s with
      stage := .returned ⟨.error (.executionTimeout timeoutMs), true⟩ }.fireBy .backstop) := by
  rw [StageKept, hat] at h
  obtain ⟨ending, hend, houtcome, -, -⟩ := h
  have hdropped : ∀ r, ending.outcome ≠ some r := fun r hr => by
    rw [houtcome] at hr
    cases hr
  exact ⟨ending, hend, ⟨fun _ => houtcome, fun _ => rfl⟩, fun r hr => absurd hr (hdropped r),
    fun r hr => absurd hr (hdropped r), fun e hr => absurd hr (hdropped _),
    fun r hr => absurd hr (hdropped r)⟩

theorem StageKept.finish (h : s.StageKept) {cap : WallclockCap}
    {r : Except KernelError ActionResult} {expired deadlineReached : Bool} (hcap : s.cap = some cap)
    (hat : s.stage = .judged (some r) expired deadlineReached) : StageKept { s with
      stage := .returned ⟨report cap.timeoutMs expired deadlineReached r, false⟩ } := by
  rw [StageKept, hat] at h
  obtain ⟨ending, hend, houtcome, hflag, hdeadline⟩ := h
  rw [hcap] at hflag hdeadline
  exact ⟨ending, hend, hcap ▸ attributed_report houtcome hflag hdeadline⟩

/-! ### Runs -/

structure Kept (cap : Option WallclockCap) (s : WallclockRace) : Prop where
  cap_eq : s.cap = cap
  watched : s.Watched
  stage : s.StageKept

theorem kept_start (cap : Option WallclockCap) (now : Nat) (cancelled : Bool) :
    Kept cap (start cap now cancelled) := by
  refine ⟨rfl, ⟨fun _ => .inl rfl, nofun, nofun, nofun, fun h => ?_⟩, fun h => ?_⟩
  · cases cancelled <;> cases h
  · exact ⟨h, rfl, nofun, nofun⟩

theorem Step.cap_eq {e : RaceEvent} (h : s.Step e t) : t.cap = s.cap := by
  cases h <;> rfl

theorem Step.stageKept {e : RaceEvent} (h : s.StageKept) (hw : s.Watched) (horderly : s.Orderly e)
    (hstep : s.Step e t) : t.StageKept := by
  cases hstep with
  | tick ms => exact h.unmoved rfl rfl rfl rfl rfl fun ht => ⟨ht.unchecked, ht.unflagged⟩
  | cancel => exact h.cancel hw horderly
  | wake => exact h.unmoved rfl rfl rfl rfl rfl fun _ => ⟨nofun, nofun⟩
  | check => exact h.check
  | flag hat => exact h.flag hat horderly
  | fire hat => exact h.fire hw hat
  | await hcap hat => exact ⟨_, rfl, attributed_await hw hcap _⟩
  | resolve _ hat => exact h.endWith hw hat _
  | drop _ hat => exact h.endWith hw hat _
  | abort hat => exact h.abort hat
  | load hat => exact h.load hat
  | readToken hat => exact h.readToken hat
  | readClock hcap hat => exact h.readClock hcap hat horderly
  | abandon _ hat => exact h.abandon hat
  | finish hcap hat => exact h.finish hcap hat

theorem kept_of_run {cap : Option WallclockCap} {now : Nat} {cancelled : Bool} {es : List RaceEvent}
    (h : Run OrderlyStep (start cap now cancelled) es s) : Kept cap s := by
  refine Run.invariant (P := fun _ s => Kept cap s) (kept_start cap now cancelled) ?_ h
  intro _ _ _ _ hkept hstep
  exact ⟨hstep.2.cap_eq.trans hkept.cap_eq, hstep.2.watched hkept.watched,
    hstep.2.stageKept hkept.stage hkept.watched hstep.1⟩

end WallclockRace

open WallclockRace

theorem orderly_step {e : RaceEvent} {s t : WallclockRace} (h : s.Step e t) (hcancel : e ≠ .cancel)
    (hflag : e ≠ .flag) (hclock : e ≠ .readClock) : OrderlyStep s e t := by
  refine ⟨?_, h⟩
  cases e with
  | cancel => exact absurd rfl hcancel
  | flag => exact absurd rfl hflag
  | readClock => exact absurd rfl hclock
  | _ => trivial

theorem orderly_flag {s : WallclockRace} (hrunning : ¬s.Unread) (hat : s.watchdog = .checked) :
    OrderlyStep s .flag { s with watchdog := .flagged, expired := true } :=
  ⟨fun hunread => absurd hunread hrunning, .flag hat⟩

/-- In every orderly race the outcome is attributed truthfully. -/
theorem wallclock_attributed {cap : Option WallclockCap} {now : Nat} {cancelled : Bool}
    {es : List RaceEvent} {s : WallclockRace}
    (hrun : Run OrderlyStep (start cap now cancelled) es s) {o : WallclockOutcome}
    (hreturned : s.stage = .returned o) :
    ∃ ending, s.ending = some ending ∧ Attributed cap ending o := by
  have hkept := kept_of_run hrun
  have hstage := hkept.stage
  rw [StageKept, hreturned, hkept.cap_eq] at hstage
  exact hstage

/-- An action that the watchdog cancels in time reports its deadline. -/
theorem wallclock_attributed_deadline : ∃ es s o ending,
    Run OrderlyStep (start (some ⟨10, 10⟩) 0 false) es s ∧ s.stage = .returned o ∧
      s.ending = some ending ∧ Attributed (some ⟨10, 10⟩) ending o ∧
      ending.fired = some .watchdog ∧ ending.outcome = some (.error (.cancelled "work")) := by
  have hrun : ∃ es s, Run OrderlyStep (start (some ⟨10, 10⟩) 0 false) es s ∧
      s.stage = .returned ⟨.error (.executionTimeout 10), false⟩ ∧
      s.ending = some ⟨some (.error (.cancelled "work")), 10, some .watchdog⟩ := by
    have hchecked := ((Run.single (orderly_step
      (@Step.tick (start (some ⟨10, 10⟩) 0 false) 10) nofun nofun nofun)).snoc
        (orderly_step (.wake rfl rfl (Nat.le_refl 10)) nofun nofun nofun)).snoc
          (orderly_step (.check rfl) nofun nofun nofun)
    have hflagged := hchecked.snoc (orderly_flag id rfl)
    have hended := (hflagged.snoc (orderly_step (.fire rfl) nofun nofun nofun)).snoc (orderly_step
      (@Step.resolve _ _ (.error (.cancelled "work")) rfl rfl) nofun nofun nofun)
    have hloaded := (hended.snoc (orderly_step (.abort rfl) nofun nofun nofun)).snoc
      (orderly_step (.load rfl) nofun nofun nofun)
    have hjudged := hloaded.snoc (orderly_step (.readToken rfl) nofun nofun nofun)
    exact ⟨_, _, hjudged.snoc (orderly_step (.finish rfl rfl) nofun nofun nofun), rfl, rfl⟩
  obtain ⟨es, s, hrun, hreturned, hending⟩ := hrun
  obtain ⟨ending, hend, hattributed⟩ := wallclock_attributed hrun hreturned
  obtain rfl := Option.some.inj (hending.symm.trans hend)
  exact ⟨es, s, _, _, hrun, hreturned, hending, hattributed, rfl, rfl⟩

/-- A cancel that comes after the watchdog looked at the token is taken for the deadline. -/
theorem cancel_taken_for_deadline : ∃ es s o ending,
    Run Step (start (some ⟨10, 10⟩) 0 false) es s ∧ s.stage = .returned o ∧
      s.ending = some ending ∧ ending.fired = some .other ∧
      ending.outcome = some (.error (.cancelled "work")) ∧
      o.result = .error (.executionTimeout 10) ∧ ¬Attributed (some ⟨10, 10⟩) ending o := by
  have hfired : Run Step (start (some ⟨10, 10⟩) 0 false) _ _ :=
    (((Run.nil.snoc (.tick 10)).snoc (.wake rfl rfl (Nat.le_refl 10))).snoc (.check rfl)).snoc .cancel
  have hended := (hfired.snoc (.flag rfl)).snoc (e := .resolve (.error (.cancelled "work")))
    (.resolve rfl rfl)
  have hjudged := ((hended.snoc (.abort rfl)).snoc (.load rfl)).snoc (.readToken rfl)
  refine ⟨_, _, _, _, hjudged.snoc (.finish rfl rfl), rfl, rfl, rfl, rfl, rfl, fun h => ?_⟩
  exact absurd (h.theirs _ rfl rfl) nofun

/-- A future that resolves in time and is looked at too late is taken for the deadline as well. -/
theorem early_taken_for_deadline : ∃ es s o ending,
    Run Step (start (some ⟨10, 10⟩) 0 false) es s ∧ s.stage = .returned o ∧
      s.ending = some ending ∧ ending.instant < 10 ∧
      o.result = .error (.executionTimeout 10) ∧ ¬Attributed (some ⟨10, 10⟩) ending o := by
  have hended : Run Step (start (some ⟨10, 10⟩) 0 false) _ _ :=
    (Run.nil.snoc (e := .resolve (.ok ⟨.null, .empty, .empty⟩)) (.resolve rfl rfl)).snoc (.tick 10)
  have hflagged := ((hended.snoc (.wake rfl rfl (Nat.le_refl 10))).snoc (.check rfl)).snoc (.flag rfl)
  have hjudged := ((hflagged.snoc (.abort rfl)).snoc (.load rfl)).snoc (.readToken rfl)
  refine ⟨_, _, _, _, hjudged.snoc (.finish rfl rfl), rfl, rfl, Nat.zero_lt_succ 9, rfl, fun h => ?_⟩
  exact absurd (h.early _ rfl fun c hc => by cases hc; exact Nat.zero_lt_succ 9) nofun

end Gwead
