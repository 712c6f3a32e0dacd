import Mathlib.Data.List.Infix
import Mathlib.Logic.Function.Basic
import Gwead.Lib.Transition

/-!
# Broadcasting over bounded channels

One forwarder takes items from a source and sends each to all branches, and takes the next when
every branch has accepted or refused it.  A branch refuses when its reader is gone.  The item that
is `last` ends the broadcast, and so does an item that everybody refuses.
-/

namespace Broadcast

variable {α : Type} {n : Nat}

/-- Where a branch stands with the item that is being sent. -/
inductive Send where
  | waiting
  | accepted
  | refused
  deriving DecidableEq

structure Branch (α : Type) where
  queue : List α
  send : Send
  dropped : Bool

inductive Forwarder (α : Type) where
  | pulling (rest : List α)
  | sending (item : α) (rest : List α)
  | done

structure State (α : Type) (n : Nat) where
  forwarder : Forwarder α
  branches : Fin n → Branch α

def start (n : Nat) (items : List α) : State α n := ⟨.pulling items, fun _ => ⟨[], .accepted, false⟩⟩

inductive Choice (n : Nat) where
  | pull
  | commit (b : Fin n)
  | refuse (b : Fin n)
  | join
  | read (b : Fin n)
  | drop (b : Fin n)

inductive Event (α : Type) (n : Nat) where
  | quiet
  /-- A read of a branch yields an item, or the end. -/
  | yielded (b : Fin n) (item : Option α)

def State.setBranch (s : State α n) (b : Fin n) (br : Branch α) : State α n :=
  { s with branches := Function.update s.branches b br }

/-- Offer an item to every branch. -/
def State.offer (s : State α n) (item : α) (rest : List α) : State α n :=
  ⟨.sending item rest, fun b => { s.branches b with send := .waiting }⟩

section Step

variable (last : α → Bool) (capacity : Nat)

/-- What the forwarder does once every send has ended. -/
def afterSends (s : State α n) (item : α) (rest : List α) : Forwarder α :=
  if last item ∨ ∀ b, (s.branches b).send = .refused then .done else .pulling rest

def step (s : State α n) : Choice n → Option (Event α n × State α n)
  | .pull =>
    match s.forwarder with
    | .pulling [] => some (.quiet, { s with forwarder := .done })
    | .pulling (item :: rest) => some (.quiet, s.offer item rest)
    | _ => none
  | .commit b =>
    let br := s.branches b
    match s.forwarder, br.send with
    | .sending item _, .waiting =>
      if br.dropped = false ∧ br.queue.length < capacity then
        some (.quiet, s.setBranch b { br with queue := br.queue ++ [item], send := .accepted })
      else none
    | _, _ => none
  | .refuse b =>
    let br := s.branches b
    match s.forwarder, br.send with
    | .sending _ _, .waiting =>
      if br.dropped then some (.quiet, s.setBranch b { br with send := .refused }) else none
    | _, _ => none
  | .join =>
    match s.forwarder with
    | .sending item rest =>
      if ∀ b, (s.branches b).send ≠ .waiting then
        some (.quiet, { s with forwarder := afterSends last s item rest })
      else none
    | _ => none
  | .read b =>
    let br := s.branches b
    if br.dropped then none
    else
      match br.queue, s.forwarder with
      | item :: queue, _ => some (.yielded b (some item), s.setBranch b { br with queue := queue })
      | [], .done => some (.yielded b none, s)
      | [], _ => none
  | .drop b => some (.quiet, s.setBranch b { s.branches b with queue := [], dropped := true })

def Step (s : State α n) (e : Event α n) (s' : State α n) : Prop :=
  ∃ choice, step last capacity s choice = some (e, s')

end Step

/-! ### What a run shows -/

/-- The items up to the first that is last. -/
def upTo (last : α → Bool) : List α → List α
  | [] => []
  | x :: rest => if last x then [x] else x :: upTo last rest

def Event.yieldOf (b : Fin n) : Event α n → Option (Option α)
  | .quiet => none
  | .yielded b' item => if b' = b then some item else none

/-- What the reads of a branch have yielded, with `none` for the end. -/
def yields (b : Fin n) (es : List (Event α n)) : List (Option α) := es.filterMap (Event.yieldOf b)

@[simp] theorem yields_append (b : Fin n) (es es' : List (Event α n)) :
    yields b (es ++ es') = yields b es ++ yields b es' := List.filterMap_append

theorem yields_quiet (b : Fin n) (es : List (Event α n)) :
    yields b (es ++ [.quiet]) = yields b es := by
  simp [yields, Event.yieldOf]

theorem yields_self (b : Fin n) (es : List (Event α n)) (item : Option α) :
    yields b (es ++ [.yielded b item]) = yields b es ++ [item] := by
  simp [yields, Event.yieldOf]

theorem yields_other {b b' : Fin n} (h : b' ≠ b) (es : List (Event α n)) (item : Option α) :
    yields b (es ++ [.yielded b' item]) = yields b es := by
  simp [yields, Event.yieldOf, h]

/-! ### What one step can be -/

section Moves

variable {last : α → Bool} {capacity : Nat} {s s' : State α n} {e : Event α n}

inductive Move (last : α → Bool) (capacity : Nat) (s : State α n) :
    Event α n → State α n → Prop
  | exhaust (h : s.forwarder = .pulling []) :
      Move last capacity s .quiet { s with forwarder := .done }
  | offer (item : α) (rest : List α) (h : s.forwarder = .pulling (item :: rest)) :
      Move last capacity s .quiet (s.offer item rest)
  | commit (b : Fin n) (item : α) (rest : List α) (h : s.forwarder = .sending item rest)
      (hsend : (s.branches b).send = .waiting) (hlive : (s.branches b).dropped = false)
      (hroom : (s.branches b).queue.length < capacity) :
      Move last capacity s .quiet (s.setBranch b
        { s.branches b with queue := (s.branches b).queue ++ [item], send := .accepted })
  | refuse (b : Fin n) (item : α) (rest : List α) (h : s.forwarder = .sending item rest)
      (hsend : (s.branches b).send = .waiting) (hdropped : (s.branches b).dropped = true) :
      Move last capacity s .quiet (s.setBranch b { s.branches b with send := .refused })
  | join (item : α) (rest : List α) (h : s.forwarder = .sending item rest)
      (hall : ∀ b, (s.branches b).send ≠ .waiting) :
      Move last capacity s .quiet { s with forwarder := afterSends last s item rest }
  | read (b : Fin n) (item : α) (queue : List α) (hlive : (s.branches b).dropped = false)
      (hqueue : (s.branches b).queue = item :: queue) :
      Move last capacity s (.yielded b (some item))
        (s.setBranch b { s.branches b with queue := queue })
  | finish (b : Fin n) (hlive : (s.branches b).dropped = false)
      (hqueue : (s.branches b).queue = []) (h : s.forwarder = .done) :
      Move last capacity s (.yielded b none) s
  | drop (b : Fin n) :
      Move last capacity s .quiet (s.setBranch b { s.branches b with queue := [], dropped := true })

theorem Step.move (h : Step last capacity s e s') : Move last capacity s e s' := by
  obtain ⟨choice, h⟩ := h
  cases choice with
  | pull =>
    simp only [step] at h
    split at h
    · rename_i hf
      cases h
      exact .exhaust hf
    · rename_i item rest hf
      cases h
      exact .offer item rest hf
    · cases h
  | commit b =>
    simp only [step] at h
    split at h
    · rename_i item rest hf hsend
      split at h
      · rename_i hok
        cases h
        exact .commit b item rest hf hsend hok.1 hok.2
      · cases h
    · cases h
  | refuse b =>
    simp only [step] at h
    split at h
    · rename_i item rest hf hsend
      split at h
      · rename_i hdropped
        cases h
        exact .refuse b item rest hf hsend hdropped
      · cases h
    · cases h
  | join =>
    simp only [step] at h
    split at h
    · rename_i item rest hf
      split at h
      · rename_i hall
        cases h
        exact .join item rest hf hall
      · cases h
    · cases h
  | read b =>
    simp only [step] at h
    split at h
    · cases h
    · rename_i hlive
      split at h
      · rename_i item queue hqueue
        cases h
        exact .read b item queue (Bool.eq_false_iff.mpr hlive) hqueue
      · rename_i hqueue hf
        cases h
        exact .finish b (Bool.eq_false_iff.mpr hlive) hqueue hf
      · cases h
  | drop b =>
    cases h
    exact .drop b

end Moves

/-! ### What a branch has been given -/

section Given

variable {es : List (Event α n)} {b b' : Fin n} {br : Branch α} {xs xs' items : List α} {ends : Nat}

/-- Of the items `xs` that were sent to a branch, its reads have yielded `items`. -/
structure Given (es : List (Event α n)) (b : Fin n) (br : Branch α) (xs items : List α)
    (ends : Nat) : Prop where
  yields : yields b es = items.map some ++ List.replicate ends none
  live : br.dropped = false → items ++ br.queue = xs
  gone : br.dropped = true → br.queue = [] ∧ items <+: xs
  ended : 0 < ends → items = xs

theorem Given.within (h : Given es b br xs items ends) : items <+: xs := by
  cases hdropped : br.dropped with
  | false => exact h.live hdropped ▸ List.prefix_append items br.queue
  | true => exact (h.gone hdropped).2

theorem Given.quiet (h : Given es b br xs items ends) :
    Given (es ++ [.quiet]) b br xs items ends := { h with yields := yields_quiet b es ▸ h.yields }

theorem Given.other (h : Given es b br xs items ends) (hb : b' ≠ b) (item : Option α) :
    Given (es ++ [.yielded b' item]) b br xs items ends :=
  { h with yields := yields_other hb es item ▸ h.yields }

theorem Given.withSend (h : Given es b br xs items ends) (send : Send) :
    Given es b { br with send := send } xs items ends := ⟨h.yields, h.live, h.gone, h.ended⟩

theorem Given.read (h : Given es b br xs items ends) (hlive : br.dropped = false) {item : α}
    {queue : List α} (hqueue : br.queue = item :: queue) :
    Given (es ++ [.yielded b (some item)]) b { br with queue := queue } xs (items ++ [item]) 0 := by
  have hxs := h.live hlive
  rw [hqueue] at hxs
  have hends : ends = 0 := by
    rcases Nat.eq_zero_or_pos ends with hzero | hpos
    · exact hzero
    · rw [h.ended hpos] at hxs
      simp at hxs
  refine ⟨?_, fun _ => ?_, fun hgone => ?_, fun hpos => absurd hpos (Nat.lt_irrefl 0)⟩
  · rw [yields_self, h.yields, hends]
    simp
  · rw [← hxs]
    simp
  · rw [hlive] at hgone
    cases hgone

theorem Given.finish (h : Given es b br xs items ends) (hlive : br.dropped = false)
    (hqueue : br.queue = []) : Given (es ++ [.yielded b none]) b br xs items (ends + 1) := by
  refine ⟨?_, h.live, h.gone, fun _ => ?_⟩
  · rw [yields_self, h.yields, List.append_assoc, List.replicate_succ']
  · rw [← h.live hlive, hqueue, List.append_nil]

theorem Given.drop (h : Given es b br xs items ends) :
    Given es b { br with queue := [], dropped := true } xs items ends :=
  ⟨h.yields, nofun, fun _ => ⟨rfl, h.within⟩, h.ended⟩

theorem Given.accept (h : Given es b br xs items 0) (hlive : br.dropped = false) (item : α) :
    Given es b { br with queue := br.queue ++ [item], send := .accepted } (xs ++ [item]) items 0 := by
  refine ⟨h.yields, fun _ => ?_, fun hgone => ?_, fun hpos => absurd hpos (Nat.lt_irrefl 0)⟩
  · rw [← h.live hlive, List.append_assoc]
  · rw [hlive] at hgone
    cases hgone

/-- More may be sent past a branch that is gone. -/
theorem Given.pass (h : Given es b br xs items 0) (hgone : br.dropped = true) (hxs : xs <+: xs') :
    Given es b br xs' items 0 := by
  refine ⟨h.yields, fun hlive => ?_, fun _ => ?_, fun hpos => absurd hpos (Nat.lt_irrefl 0)⟩
  · rw [hgone] at hlive
    cases hlive
  · exact ⟨(h.gone hgone).1, (h.gone hgone).2.trans hxs⟩

end Given

/-! ### The account of a run -/

section Account

variable {last : α → Bool} {capacity : Nat} {items sent : List α} {es : List (Event α n)}
  {s s' : State α n} {e : Event α n}

/-- What the forwarder has still to send. -/
def Forwarder.rest (last : α → Bool) : Forwarder α → List α
  | .pulling rest => upTo last rest
  | .sending item rest => upTo last (item :: rest)
  | .done => []

/-- What a branch has been sent when the items `sent` have gone to everybody. -/
def Forwarder.sentTo (sent : List α) : Forwarder α → Send → List α
  | .sending item _, .accepted => sent ++ [item]
  | _, _ => sent

structure Account (last : α → Bool) (items sent : List α) (es : List (Event α n))
    (s : State α n) : Prop where
  total : upTo last items = sent ++ s.forwarder.rest last
  given : ∀ b, ∃ got ends, Given es b (s.branches b)
    (s.forwarder.sentTo sent (s.branches b).send) got ends ∧ (0 < ends → s.forwarder = .done)
  refused : ∀ b, (s.branches b).send = .refused → (s.branches b).dropped = true

theorem account_start (n : Nat) (items : List α) :
    Account last items [] [] (start n items) where
  total := rfl
  given _ := ⟨[], 0, ⟨rfl, fun _ => rfl, nofun, fun _ => rfl⟩, fun h => absurd h (Nat.lt_irrefl 0)⟩
  refused _ h := nomatch h

/-- Before the broadcast is over nobody has seen its end. -/
theorem Account.open (h : Account last items sent es s) (hf : s.forwarder ≠ .done) (b : Fin n) :
    ∃ got, Given es b (s.branches b) (s.forwarder.sentTo sent (s.branches b).send) got 0 := by
  obtain ⟨got, ends, hgiven, hends⟩ := h.given b
  rcases Nat.eq_zero_or_pos ends with rfl | hpos
  · exact ⟨got, hgiven⟩
  · exact absurd (hends hpos) hf

/-- One branch changes, and what it was sent is what the forwarder has for it. -/
theorem Account.setBranch (h : Account last items sent es s) {b : Fin n} {br : Branch α}
    {got : List α} {ends : Nat}
    (hother : ∀ b' ≠ b, ∀ {got ends xs}, Given es b' (s.branches b') xs got ends →
      Given (es ++ [e]) b' (s.branches b') xs got ends)
    (hgiven : Given (es ++ [e]) b br (s.forwarder.sentTo sent br.send) got ends)
    (hends : 0 < ends → s.forwarder = .done)
    (hrefused : br.send = .refused → br.dropped = true) :
    Account last items sent (es ++ [e]) (s.setBranch b br) where
  total := h.total
  given b' := by
    by_cases hb : b' = b
    · subst hb
      simp only [State.setBranch, Function.update_self]
      exact ⟨got, ends, hgiven, hends⟩
    · simp only [State.setBranch, Function.update_of_ne hb]
      obtain ⟨got', ends', hgiven', hends'⟩ := h.given b'
      exact ⟨got', ends', hother b' hb hgiven', hends'⟩
  refused b' hsend := by
    by_cases hb : b' = b
    · subst hb
      simp only [State.setBranch, Function.update_self] at hsend ⊢
      exact hrefused hsend
    · simp only [State.setBranch, Function.update_of_ne hb] at hsend ⊢
      exact h.refused b' hsend

/-- Every send of the item has ended: who has not accepted it is gone. -/
theorem Account.joined (h : Account last items sent es s) {item : α} {rest : List α}
    (hf : s.forwarder = .sending item rest) (hall : ∀ b, (s.branches b).send ≠ .waiting)
    (b : Fin n) : ∃ got, Given es b (s.branches b) (sent ++ [item]) got 0 := by
  obtain ⟨got, hgiven⟩ := h.open (by rw [hf]; nofun) b
  rw [hf] at hgiven
  cases hsend : (s.branches b).send with
  | waiting => exact absurd hsend (hall b)
  | accepted =>
    rw [hsend] at hgiven
    exact ⟨got, hgiven⟩
  | refused =>
    rw [hsend] at hgiven
    exact ⟨got, hgiven.pass (h.refused b hsend) (List.prefix_append sent [item])⟩

theorem Account.join (h : Account last items sent es s) {item : α} {rest : List α}
    (hf : s.forwarder = .sending item rest) (hall : ∀ b, (s.branches b).send ≠ .waiting) :
    ∃ sent', Account last items sent' (es ++ [.quiet])
      { s with forwarder := afterSends last s item rest } := by
  have htotal := h.total
  rw [hf, Forwarder.rest, upTo] at htotal
  by_cases hlast : last item = true
  · rw [if_pos hlast] at htotal
    refine ⟨sent ++ [item], ?_, fun b => ?_, h.refused⟩
    · simp [afterSends, hlast, Forwarder.rest, htotal]
    · obtain ⟨got, hgiven⟩ := h.joined hf hall b
      simp only [afterSends, hlast, true_or, if_true, Forwarder.sentTo]
      exact ⟨got, 0, hgiven.quiet, fun hpos => absurd hpos (Nat.lt_irrefl 0)⟩
  · rw [if_neg hlast] at htotal
    by_cases hrefused : ∀ b, (s.branches b).send = .refused
    · -- nobody is left, and what was not sent is missing to nobody
      refine ⟨upTo last items, ?_, fun b => ?_, h.refused⟩
      · simp [afterSends, hrefused, Forwarder.rest]
      · obtain ⟨got, hgiven⟩ := h.joined hf hall b
        have hgone := h.refused b (hrefused b)
        have hprefix : sent ++ [item] <+: upTo last items :=
          ⟨upTo last rest, by rw [htotal]; simp⟩
        have hdone : afterSends last s item rest = .done := if_pos (.inr hrefused)
        rw [hdone]
        exact ⟨got, 0, (hgiven.pass hgone hprefix).quiet, fun hpos => absurd hpos (Nat.lt_irrefl 0)⟩
    · have hmore : afterSends last s item rest = .pulling rest :=
        if_neg (not_or.mpr ⟨hlast, hrefused⟩)
      refine ⟨sent ++ [item], ?_, fun b => ?_, h.refused⟩
      · simp [hmore, Forwarder.rest, htotal]
      · obtain ⟨got, hgiven⟩ := h.joined hf hall b
        rw [hmore]
        exact ⟨got, 0, hgiven.quiet, fun hpos => absurd hpos (Nat.lt_irrefl 0)⟩

theorem Move.account (hmove : Move last capacity s e s') (h : Account last items sent es s) :
    ∃ sent', Account last items sent' (es ++ [e]) s' := by
  cases hmove with
  | exhaust hf =>
    refine ⟨sent, ?_, fun b => ?_, h.refused⟩
    · rw [h.total, hf]
      rfl
    · obtain ⟨got, hgiven⟩ := h.open (by rw [hf]; nofun) b
      rw [hf] at hgiven
      exact ⟨got, 0, hgiven.quiet, fun hpos => absurd hpos (Nat.lt_irrefl 0)⟩
  | offer item rest hf =>
    refine ⟨sent, ?_, fun b => ?_, fun _ hsend => nomatch hsend⟩
    · rw [h.total, hf]
      rfl
    · obtain ⟨got, hgiven⟩ := h.open (by rw [hf]; nofun) b
      rw [hf] at hgiven
      exact ⟨got, 0, (hgiven.withSend .waiting).quiet, fun hpos => absurd hpos (Nat.lt_irrefl 0)⟩
  | commit b item rest hf hsend hlive hroom =>
    obtain ⟨got, hgiven⟩ := h.open (by rw [hf]; nofun) b
    rw [hf, hsend] at hgiven
    have haccepted : Given (es ++ [.quiet]) b
        { s.branches b with queue := (s.branches b).queue ++ [item], send := .accepted }
        (s.forwarder.sentTo sent .accepted) got 0 := by
      rw [hf]
      exact (hgiven.accept hlive item).quiet
    exact ⟨sent, h.setBranch (fun _ _ => Given.quiet) haccepted
      (fun hpos => absurd hpos (Nat.lt_irrefl 0)) nofun⟩
  | refuse b item rest hf hsend hdropped =>
    obtain ⟨got, hgiven⟩ := h.open (by rw [hf]; nofun) b
    rw [hf, hsend] at hgiven
    have hrefused : Given (es ++ [.quiet]) b { s.branches b with send := .refused }
        (s.forwarder.sentTo sent .refused) got 0 := by
      rw [hf]
      exact (hgiven.withSend .refused).quiet
    exact ⟨sent, h.setBranch (fun _ _ => Given.quiet) hrefused
      (fun hpos => absurd hpos (Nat.lt_irrefl 0)) fun _ => hdropped⟩
  | join item rest hf hall => exact h.join hf hall
  | read b item queue hlive hqueue =>
    obtain ⟨got, ends, hgiven, hends⟩ := h.given b
    exact ⟨sent, h.setBranch (fun b' hb _ _ _ hg => hg.other (Ne.symm hb) _)
      (hgiven.read hlive hqueue) (fun hpos => absurd hpos (Nat.lt_irrefl 0)) (h.refused b)⟩
  | finish b hlive hqueue hf =>
    obtain ⟨got, ends, hgiven, hends⟩ := h.given b
    have hsame : s.setBranch b (s.branches b) = s := by
      simp [State.setBranch]
    refine ⟨sent, ?_⟩
    rw [← hsame]
    exact h.setBranch (fun b' hb _ _ _ hg => hg.other (Ne.symm hb) _) (hgiven.finish hlive hqueue)
      (fun _ => hf) (h.refused b)
  | drop b =>
    obtain ⟨got, ends, hgiven, hends⟩ := h.given b
    exact ⟨sent, h.setBranch (fun _ _ => Given.quiet) hgiven.drop.quiet hends fun _ => rfl⟩

theorem run_account (h : Transition.Run (Step last capacity) (start n items) es s) :
    ∃ sent, Account last items sent es s :=
  h.invariant (P := fun es s => ∃ sent, Account last items sent es s) ⟨[], account_start n items⟩
    fun _ _ _ _ ⟨_, ha⟩ hstep => hstep.move.account ha

/-! ### Capacity -/

theorem Move.bounded (hmove : Move last capacity s e s')
    (h : ∀ b, (s.branches b).queue.length ≤ capacity) (b : Fin n) :
    (s'.branches b).queue.length ≤ capacity := by
  have hset (b' : Fin n) (br : Branch α) (hbr : br.queue.length ≤ capacity) :
      ((s.setBranch b' br).branches b).queue.length ≤ capacity := by
    by_cases hb : b = b'
    · subst hb
      simpa only [State.setBranch, Function.update_self] using hbr
    · simpa only [State.setBranch, Function.update_of_ne hb] using h b
  cases hmove with
  | exhaust _ => exact h b
  | offer _ _ _ => exact h b
  | commit b' item _ _ _ _ hroom => exact hset b' _ (by simpa using Nat.succ_le_of_lt hroom)
  | refuse b' _ _ _ _ _ => exact hset b' _ (h b')
  | join _ _ _ _ => exact h b
  | read b' item queue _ hqueue =>
    have hlength := h b'
    rw [hqueue, List.length_cons] at hlength
    exact hset b' _ (Nat.le_of_succ_le hlength)
  | finish _ _ _ _ => exact h b
  | drop b' => exact hset b' _ (Nat.zero_le capacity)

/-! ### Exactness -/

/-- Each branch yields a beginning of the items, and all of them before the end; nobody is held up
once the forwarder is done, and no channel holds more than its capacity. -/
structure Exact (last : α → Bool) (capacity : Nat) (total : List α) (es : List (Event α n))
    (s : State α n) : Prop where
  shape : ∀ b, ∃ got ends, yields b es = got.map some ++ List.replicate ends none ∧
    got <+: total ∧ (0 < ends → got = total)
  complete : s.forwarder = .done → ∀ b, (s.branches b).dropped = false →
    ∃ es' s' ends, Transition.Run (Step last capacity) s es' s' ∧
      yields b (es ++ es') = total.map some ++ List.replicate (ends + 1) none
  bounded : ∀ b, (s.branches b).queue.length ≤ capacity

theorem read_ready {b : Fin n} (hf : s.forwarder = .done) (hlive : (s.branches b).dropped = false) :
    ∃ e s', Step last capacity s e s' ∧ s'.forwarder = .done ∧ (s'.branches b).dropped = false ∧
      (s'.branches b).queue = (s.branches b).queue.tail ∧
      yields b [e] = [(s.branches b).queue.head?] := by
  cases hqueue : (s.branches b).queue with
  | nil =>
    refine ⟨.yielded b none, s, ⟨.read b, ?_⟩, hf, hlive, by simp [hqueue], by simp [yields, Event.yieldOf]⟩
    simp [step, hlive, hqueue, hf]
  | cons item queue =>
    refine ⟨.yielded b (some item), s.setBranch b { s.branches b with queue := queue },
      ⟨.read b, ?_⟩, hf, ?_, ?_, by simp [yields, Event.yieldOf]⟩
    · simp [step, hlive, hqueue]
    · simpa [State.setBranch] using hlive
    · simp [State.setBranch]

/-- When the forwarder is done, the reads of a branch empty its channel and see the end. -/
theorem drain (b : Fin n) (queue : List α) {s : State α n} (hf : s.forwarder = .done)
    (hlive : (s.branches b).dropped = false) (hqueue : (s.branches b).queue = queue) :
    ∃ es' s', Transition.Run (Step last capacity) s es' s' ∧
      yields b es' = queue.map some ++ [none] := by
  induction queue generalizing s with
  | nil =>
    obtain ⟨e, s', hstep, -, -, -, hyield⟩ := read_ready hf hlive
    rw [hqueue] at hyield
    exact ⟨[e], s', .single hstep, hyield⟩
  | cons item queue ih =>
    obtain ⟨e, s', hstep, hf', hlive', hqueue', hyield⟩ := read_ready hf hlive
    rw [hqueue] at hqueue' hyield
    obtain ⟨es', s'', hrun, hyields⟩ := ih hf' hlive' hqueue'
    refine ⟨[e] ++ es', s'', (Transition.Run.single hstep).trans hrun, ?_⟩
    rw [yields_append, hyield, hyields]
    rfl

theorem head_upTo (item : α) (rest : List α) : [item] <+: upTo last (item :: rest) := by
  rw [upTo]
  split
  · exact List.prefix_refl [item]
  · exact ⟨upTo last rest, rfl⟩

/-- Nobody is sent more than there is to send. -/
theorem Account.sentTo_prefix (h : Account last items sent es s) (send : Send) :
    s.forwarder.sentTo sent send <+: upTo last items := by
  rw [h.total]
  cases s.forwarder with
  | pulling rest => exact List.prefix_append sent _
  | done => exact List.prefix_append sent _
  | sending item rest =>
    cases send with
    | accepted => exact (List.prefix_append_right_inj sent).mpr (head_upTo item rest)
    | waiting => exact List.prefix_append sent _
    | refused => exact List.prefix_append sent _

/-- A branch that is still there when the forwarder is done has all items, read or in its channel. -/
theorem Account.all (h : Account last items sent es s) (hf : s.forwarder = .done) (b : Fin n) :
    ∃ got ends, Given es b (s.branches b) (upTo last items) got ends := by
  obtain ⟨got, ends, hgiven, -⟩ := h.given b
  have htotal := h.total
  rw [hf, Forwarder.rest, List.append_nil] at htotal
  rw [hf, Forwarder.sentTo, ← htotal] at hgiven
  · exact ⟨got, ends, hgiven⟩
  · nofun

/-- Every run is an exact broadcast. -/
theorem exact_run (h : Transition.Run (Step last capacity) (start n items) es s) :
    Exact last capacity (upTo last items) es s := by
  obtain ⟨sent, ha⟩ := run_account h
  refine ⟨fun b => ?_, fun hf b hlive => ?_, ?_⟩
  · obtain ⟨got, ends, hgiven, hends⟩ := ha.given b
    refine ⟨got, ends, hgiven.yields, ?_, fun hpos => ?_⟩
    · exact hgiven.within.trans (ha.sentTo_prefix _)
    · have htotal := ha.total
      rw [hends hpos, Forwarder.rest, List.append_nil] at htotal
      rw [hgiven.ended hpos, hends hpos, htotal]
      rfl
  · obtain ⟨got, ends, hgiven⟩ := ha.all hf b
    obtain ⟨es', s', hrun, hyields⟩ := drain b _ hf hlive rfl
    refine ⟨es', s', ends, hrun, ?_⟩
    have hgot := hgiven.live hlive
    rw [yields_append, hgiven.yields, hyields, ← hgot]
    rcases Nat.eq_zero_or_pos ends with rfl | hpos
    · simp
    · have hempty : (s.branches b).queue = [] := by
        rw [hgiven.ended hpos] at hgot
        exact List.append_cancel_left (hgot.trans (List.append_nil _).symm)
      simp [hempty, List.replicate_succ']
  · exact h.invariant (P := fun _ s => ∀ b, (s.branches b).queue.length ≤ capacity)
      (fun b => Nat.zero_le capacity) fun _ _ _ _ hb hstep => hstep.move.bounded hb

end Account

end Broadcast
