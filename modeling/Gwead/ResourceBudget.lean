import Gwead.Lib.StepContract
import Mathlib.Algebra.BigOperators.Group.List.Basic

/-!
# The store-wide wasm budget

One running total for all memories of a store and one for all its tables.  The engine asks before
it grows an object, and grows it afterwards or fails to; the budget is told nothing of a failure.
-/

namespace Gwead

/-- The greatest `usize`. -/
def usizeMax : Nat := 2 ^ 64 - 1

def checkedSub (a b : Nat) : Option Nat := if b ≤ a then some (a - b) else none

def checkedAdd (a b : Nat) : Option Nat := if a + b ≤ usizeMax then some (a + b) else none

/-- What a budget counts: memories in bytes, tables in elements. -/
inductive Resource where
  | memory
  | table
  deriving DecidableEq

structure ResourceBudget where
  maxMemoryBytes : UInt64
  maxTableElements : UInt64
  committedMemoryBytes : Nat
  committedTableElements : Nat
  memoryDenied : Bool

namespace ResourceBudget

def new (maxMemoryBytes maxTableElements : UInt64) : ResourceBudget :=
  { maxMemoryBytes, maxTableElements, committedMemoryBytes := 0, committedTableElements := 0,
    memoryDenied := false }

def cap (b : ResourceBudget) : Resource → Nat
  | .memory => b.maxMemoryBytes.toNat
  | .table => b.maxTableElements.toNat

def committed (b : ResourceBudget) : Resource → Nat
  | .memory => b.committedMemoryBytes
  | .table => b.committedTableElements

def charge (b : ResourceBudget) (total : Nat) : Resource → ResourceBudget
  | .memory => { b with committedMemoryBytes := total }
  | .table => { b with committedTableElements := total }

/-- Only a refused memory is remembered. -/
def deny (b : ResourceBudget) : Resource → ResourceBudget
  | .memory => { b with memoryDenied := true }
  | .table => b

/-- The total with one object's contribution replaced; none where the accounting has drifted. -/
def newTotal (committed current desired : Nat) : Option Nat :=
  (checkedSub committed current).bind fun rest => checkedAdd rest desired

def growing (b : ResourceBudget) (r : Resource) (current desired : Nat) : Bool × ResourceBudget :=
  match newTotal (b.committed r) current desired with
  | none => (false, b)
  | some total => if b.cap r < total then (false, b.deny r) else (true, b.charge total r)

def memoryGrowing (b : ResourceBudget) (current desired : Nat) : Bool × ResourceBudget :=
  b.growing .memory current desired

def tableGrowing (b : ResourceBudget) (current desired : Nat) : Bool × ResourceBudget :=
  b.growing .table current desired

@[simp] theorem committed_charge (b : ResourceBudget) (total : Nat) (r : Resource) :
    (b.charge total r).committed r = total := by
  cases r <;> rfl

theorem committed_charge_other (b : ResourceBudget) (total : Nat) {r r' : Resource} (h : r' ≠ r) :
    (b.charge total r).committed r' = b.committed r' := by
  cases r <;> cases r'
  · exact absurd rfl h
  · rfl
  · rfl
  · exact absurd rfl h

@[simp] theorem cap_charge (b : ResourceBudget) (total : Nat) (r r' : Resource) :
    (b.charge total r).cap r' = b.cap r' := by
  cases r <;> cases r' <;> rfl

@[simp] theorem committed_deny (b : ResourceBudget) (r r' : Resource) :
    (b.deny r).committed r' = b.committed r' := by
  cases r <;> cases r' <;> rfl

@[simp] theorem cap_deny (b : ResourceBudget) (r r' : Resource) :
    (b.deny r).cap r' = b.cap r' := by
  cases r <;> cases r' <;> rfl

theorem cap_le (b : ResourceBudget) (r : Resource) : b.cap r ≤ usizeMax := by
  cases r
  · exact Nat.le_sub_one_of_lt b.maxMemoryBytes.toNat_lt
  · exact Nat.le_sub_one_of_lt b.maxTableElements.toNat_lt

theorem newTotal_eq {committed current desired : Nat} (h : current ≤ committed) :
    newTotal committed current desired =
      if committed - current + desired ≤ usizeMax then some (committed - current + desired)
      else none := by
  simp [newTotal, checkedSub, checkedAdd, h]

/-- A callback that stays within `usize` grants exactly what fits under the cap. -/
theorem growing_of_newTotal {b : ResourceBudget} {r : Resource} {current desired total : Nat}
    (h : newTotal (b.committed r) current desired = some total) :
    b.growing r current desired =
      if b.cap r < total then (false, b.deny r) else (true, b.charge total r) := by
  simp only [growing, h]

end ResourceBudget

/-! ### The engine around it -/

/-- What the engine is asked for, and whether it fails once the budget has granted it. -/
inductive GrowthRequest where
  | create (r : Resource) (initial : Nat) (fails : Bool)
  | grow (r : Resource) (object : Nat) (delta : Nat) (fails : Bool)

namespace GrowthRequest

def resource : GrowthRequest → Resource
  | create r .. => r
  | grow r .. => r

def fails : GrowthRequest → Bool
  | create _ _ fails => fails
  | grow _ _ _ fails => fails

/-- The size asked for, which the engine saturates. -/
def desired (current : Nat) : GrowthRequest → Nat
  | create _ initial _ => min initial usizeMax
  | grow _ _ delta _ => min (current + delta) usizeMax

end GrowthRequest

/-- The sizes of a store's objects and its budget. -/
structure Store where
  sizes : Resource → List Nat
  budget : ResourceBudget

namespace Store

def new (maxMemoryBytes maxTableElements : UInt64) : Store where
  sizes _ := []
  budget := ResourceBudget.new maxMemoryBytes maxTableElements

def total (s : Store) (r : Resource) : Nat := (s.sizes r).sum

/-- The present size of the object a request is about; there is no request about an object that is
not there. -/
def current (s : Store) : GrowthRequest → Option Nat
  | .create .. => some 0
  | .grow r object _ _ => (s.sizes r)[object]?

/-- The sizes after a growth that has succeeded. -/
def grown (s : Store) (size : Nat) : GrowthRequest → List Nat
  | .create r .. => s.sizes r ++ [size]
  | .grow r object _ _ => (s.sizes r).set object size

def step (s : Store) (e : GrowthRequest) : Store :=
  match s.current e with
  | none => s
  | some current =>
    let (granted, budget) := s.budget.growing e.resource current (e.desired current)
    let sizes := if granted && !e.fails then
        Function.update s.sizes e.resource (s.grown (e.desired current) e)
      else s.sizes
    { sizes, budget }

/-- The real total if a request were met. -/
def asked (s : Store) (current : Nat) (e : GrowthRequest) : Nat :=
  s.total e.resource - current + e.desired current

/-- The accounts are the real totals, and under the caps. -/
def Exact (s : Store) : Prop :=
  ∀ r, s.budget.committed r = s.total r ∧ s.total r ≤ s.budget.cap r

/-- What the budget promises for one request: the accounts stay exact, what is not had costs
nothing, a refusal means the cap, and the accounting has not drifted. -/
structure Met (s : Store) (e : GrowthRequest) : Prop where
  accounts : Exact (s.step e)
  free : ∀ current, s.current e = some current →
    ((s.budget.growing e.resource current (e.desired current)).1 = false ∨ e.fails = true) →
      ∀ r, (s.step e).budget.committed r = s.budget.committed r
  refused : ∀ current, s.current e = some current →
    (s.budget.growing e.resource current (e.desired current)).1 = false →
      s.budget.cap e.resource < s.asked current e
  undrifted : ∀ current, s.current e = some current →
    ResourceBudget.newTotal (s.budget.committed e.resource) current (e.desired current) ≠ none

/-- The request stays within `usize`, and does not fail for more than there was once the cap
admits it. -/
def Harmless (s : Store) (e : GrowthRequest) : Prop :=
  ∀ current, s.current e = some current → s.asked current e ≤ usizeMax ∧
    (e.fails = true → current < e.desired current → s.budget.cap e.resource < s.asked current e)

/-! ### One request -/

/-- Replacing one size moves the total by the difference. -/
theorem sum_set {sizes : List Nat} {i a b : Nat} (h : sizes[i]? = some a) :
    (sizes.set i b).sum + a = sizes.sum + b := by
  induction sizes generalizing i with
  | nil => simp at h
  | cons size sizes ih =>
    cases i with
    | zero =>
      cases h
      simp only [List.set_cons_zero, List.sum_cons]
      omega
    | succ i =>
      have htail := ih h
      simp only [List.set_cons_succ, List.sum_cons]
      omega

variable {s : Store} {e : GrowthRequest} {current : Nat}

theorem sum_grown (h : s.current e = some current) (size : Nat) :
    (s.grown size e).sum + current = s.total e.resource + size := by
  cases e with
  | create r initial fails =>
    cases h
    simp [grown, total, GrowthRequest.resource]
  | grow r object delta fails => exact sum_set h

theorem current_le_total (h : s.current e = some current) : current ≤ s.total e.resource := by
  have hsum := sum_grown h 0
  omega

/-- No request makes an object smaller. -/
theorem current_le_desired (hexact : s.Exact) (h : s.current e = some current) :
    current ≤ e.desired current := by
  have hle := current_le_total h
  have hcap := Nat.le_trans (hexact e.resource).2 (s.budget.cap_le e.resource)
  cases e with
  | create r initial fails =>
    cases h
    exact Nat.zero_le _
  | grow r object delta fails =>
    simp only [GrowthRequest.desired]
    omega

theorem newTotal_exact (hexact : s.Exact) (h : s.current e = some current) :
    ResourceBudget.newTotal (s.budget.committed e.resource) current (e.desired current) =
      if s.asked current e ≤ usizeMax then some (s.asked current e) else none := by
  rw [(hexact e.resource).1, ResourceBudget.newTotal_eq (current_le_total h)]
  rfl

theorem step_some (h : s.current e = some current) : s.step e =
    { sizes := if (s.budget.growing e.resource current (e.desired current)).1 && !e.fails then
        Function.update s.sizes e.resource (s.grown (e.desired current) e)
      else s.sizes
      budget := (s.budget.growing e.resource current (e.desired current)).2 } := by
  rw [step, h]

/-- The promise for a request about an object that is there. -/
theorem Met.of_some (h : s.current e = some current) (hexact : Exact (s.step e))
    (hfree : ((s.budget.growing e.resource current (e.desired current)).1 = false ∨
      e.fails = true) → ∀ r, (s.step e).budget.committed r = s.budget.committed r)
    (hrefused : (s.budget.growing e.resource current (e.desired current)).1 = false →
      s.budget.cap e.resource < s.asked current e)
    (hundrifted : ResourceBudget.newTotal (s.budget.committed e.resource) current
      (e.desired current) ≠ none) : s.Met e := by
  constructor
  · exact hexact
  all_goals
    intro current' h'
    cases h.symm.trans h'
    assumption

theorem Met.of_none (h : s.current e = none) (hexact : s.Exact) : s.Met e := by
  constructor
  · rwa [step, h]
  all_goals
    intro current h'
    cases h.symm.trans h'

/-- A harmless request that the cap refuses changes no account. -/
theorem met_of_refused (hexact : s.Exact) (h : s.current e = some current)
    (hfits : s.asked current e ≤ usizeMax) (hcap : s.budget.cap e.resource < s.asked current e) :
    s.Met e := by
  have hnew := newTotal_exact hexact h
  rw [if_pos hfits] at hnew
  have hgrowing := ResourceBudget.growing_of_newTotal hnew
  rw [if_pos hcap] at hgrowing
  have hstep : s.step e = { s with budget := s.budget.deny e.resource } := by
    rw [step_some h, hgrowing]
    rfl
  refine .of_some h ?_ (fun _ r => ?_) (fun _ => hcap) (by rw [hnew]; simp)
  · intro r
    rw [hstep]
    simpa [total] using hexact r
  · rw [hstep]
    simp

/-- A harmless request that the cap admits and that fails has asked for no more than there was. -/
theorem met_of_failed (hexact : s.Exact) (h : s.current e = some current)
    (hfits : s.asked current e ≤ usizeMax) (hcap : ¬ s.budget.cap e.resource < s.asked current e)
    (hfails : e.fails = true) (hsame : e.desired current = current) : s.Met e := by
  have hnew := newTotal_exact hexact h
  rw [if_pos hfits] at hnew
  have hgrowing := ResourceBudget.growing_of_newTotal hnew
  rw [if_neg hcap] at hgrowing
  have hle := current_le_total h
  have hasked : s.asked current e = s.budget.committed e.resource := by
    rw [asked, hsame, (hexact e.resource).1]
    omega
  have hstep : s.step e =
      { s with budget := s.budget.charge (s.budget.committed e.resource) e.resource } := by
    rw [step_some h, hgrowing, hfails, hasked]
    rfl
  have hkept : ∀ r, (s.step e).budget.committed r = s.budget.committed r := by
    intro r
    rw [hstep]
    by_cases hr : r = e.resource
    · subst hr
      simp
    · exact ResourceBudget.committed_charge_other _ _ hr
  refine .of_some h ?_ (fun _ => hkept) (fun hdenied => ?_) (by rw [hnew]; simp)
  · intro r
    rw [hkept r, hstep]
    simpa [total] using hexact r
  · rw [hgrowing] at hdenied
    cases hdenied

/-- A request that the cap admits and that succeeds is charged what it has grown by. -/
theorem met_of_grown (hexact : s.Exact) (h : s.current e = some current)
    (hfits : s.asked current e ≤ usizeMax) (hcap : ¬ s.budget.cap e.resource < s.asked current e)
    (hfails : e.fails = false) : s.Met e := by
  have hnew := newTotal_exact hexact h
  rw [if_pos hfits] at hnew
  have hgrowing := ResourceBudget.growing_of_newTotal hnew
  rw [if_neg hcap] at hgrowing
  have hle := current_le_total h
  have hsum : (s.grown (e.desired current) e).sum = s.asked current e := by
    have hsum := sum_grown h (e.desired current)
    rw [asked]
    omega
  have hstep : s.step e =
      ⟨Function.update s.sizes e.resource (s.grown (e.desired current) e),
        s.budget.charge (s.asked current e) e.resource⟩ := by
    rw [step_some h, hgrowing, hfails]
    rfl
  refine .of_some h ?_ ?_ (fun hdenied => ?_) (by rw [hnew]; simp)
  · intro r
    rw [hstep]
    by_cases hr : r = e.resource
    · subst hr
      simpa [total, hsum] using Nat.le_of_not_lt hcap
    · simpa [total, Function.update_of_ne hr, ResourceBudget.committed_charge_other _ _ hr]
        using hexact r
  · rw [hgrowing, hfails]
    rintro (hdenied | hdenied) <;> cases hdenied
  · rw [hgrowing] at hdenied
    cases hdenied

/-- With exact accounts a request is met as promised exactly where it is harmless. -/
theorem met_iff (hexact : s.Exact) : s.Met e ↔ s.Harmless e := by
  constructor
  · intro hmet current h
    have hnew := newTotal_exact hexact h
    have hfits : s.asked current e ≤ usizeMax := by
      by_contra hover
      rw [if_neg hover] at hnew
      exact hmet.undrifted current h hnew
    refine ⟨hfits, fun hfails hmore => ?_⟩
    by_contra hcap
    -- the budget grants and charges the total that is not reached
    rw [if_pos hfits] at hnew
    have hfree := hmet.free current h (Or.inr hfails) e.resource
    rw [step_some h, ResourceBudget.growing_of_newTotal hnew, if_neg hcap] at hfree
    rw [ResourceBudget.committed_charge, (hexact e.resource).1, asked] at hfree
    have hle := current_le_total h
    omega
  · intro hharmless
    cases h : s.current e with
    | none => exact .of_none h hexact
    | some current =>
      obtain ⟨hfits, hlate⟩ := hharmless current h
      by_cases hcap : s.budget.cap e.resource < s.asked current e
      · exact met_of_refused hexact h hfits hcap
      · cases hfails : e.fails with
        | false => exact met_of_grown hexact h hfits hcap hfails
        | true =>
          have hsame : e.desired current ≤ current :=
            Nat.le_of_not_lt fun hmore => hcap (hlate hfails hmore)
          have hmore := current_le_desired hexact h
          exact met_of_failed hexact h hfits hcap hfails (Nat.le_antisymm hsame hmore)

end Store

/-! ### Whole runs -/

theorem Store.exact_new (maxMemoryBytes maxTableElements : UInt64) :
    (Store.new maxMemoryBytes maxTableElements).Exact := by
  intro r
  cases r <;> exact ⟨rfl, Nat.zero_le _⟩

/-- The state of a fresh store after some requests. -/
def Store.after (maxMemoryBytes maxTableElements : UInt64) (requests : List GrowthRequest) : Store :=
  requests.foldl Store.step (Store.new maxMemoryBytes maxTableElements)

/-- In every run of a store its budget keeps its promise at every request exactly where every
request, in the state it meets, stays within `usize` and does not fail after the cap has admitted
it. -/
theorem budget_exact_iff (maxMemoryBytes maxTableElements : UInt64)
    (requests : List GrowthRequest) :
    (∀ before e after, requests = before ++ e :: after →
      (Store.after maxMemoryBytes maxTableElements before).Met e) ↔
    ∀ before e after, requests = before ++ e :: after →
      (Store.after maxMemoryBytes maxTableElements before).Harmless e := by
  simp only [Store.after]
  rw [← StepContract.along_iff, ← StepContract.along_iff]
  exact StepContract.along_congr Store.Exact (fun _ _ => Store.met_iff)
    (fun _ _ _ => Store.Met.accounts) (Store.exact_new maxMemoryBytes maxTableElements)

/-- A memory of one page, declared with one page at most, asked for a second page: the budget of
two pages grants it, the engine refuses it, and no second memory fits any more. -/
theorem budget_not_exact :
    ¬ (∀ (maxMemoryBytes maxTableElements : UInt64) (before : List GrowthRequest)
      (e : GrowthRequest), (Store.after maxMemoryBytes maxTableElements before).Met e) ∧
    ∃ s, s = Store.after 131072 65536 [.create .memory 65536 false, .grow .memory 0 65536 true] ∧
      s.total .memory = 65536 ∧ s.budget.committed .memory = 131072 ∧
        (s.budget.memoryGrowing 0 65536).1 = false := by
  refine ⟨fun h => ?_, _, rfl, by decide +kernel⟩
  have hmet := h 131072 65536 [.create .memory 65536 false] (.grow .memory 0 65536 true)
  exact absurd (hmet.accounts .memory).1 (by decide +kernel)

end Gwead
