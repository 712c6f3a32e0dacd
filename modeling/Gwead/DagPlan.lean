import Gwead.Dag

/-!
# What an accepted plan is

Every fact the schedulers use about a plan, collected in one structure that `buildPlan`
establishes.
-/

namespace Gwead

theorem firstDuplicate_none {seen : List String} {steps : List StepDef}
    (h : firstDuplicate seen steps = none) :
    (steps.map (·.id)).Nodup ∧ ∀ s ∈ steps, s.id ∉ seen := by
  induction steps generalizing seen with
  | nil => simp
  | cons step rest ih =>
    rw [firstDuplicate] at h
    split at h
    · cases h
    · rename_i hc
      obtain ⟨hn, hs⟩ := ih h
      have hnot : step.id ∉ seen := fun hm => hc (List.contains_iff_mem.mpr hm)
      constructor
      · rw [List.map_cons, List.nodup_cons]
        refine ⟨?_, hn⟩
        intro hm
        obtain ⟨s, hsr, he⟩ := List.mem_map.mp hm
        exact hs s hsr (he ▸ List.mem_cons_self)
      · intro s hm
        rcases List.mem_cons.mp hm with rfl | hm
        · exact hnot
        · exact fun hin => hs s hm (List.mem_cons_of_mem _ hin)

/-- What resolving a list of references yields, and what it has checked. -/
theorem resolveRefs_ok {ids : List String} {i : Nat} {stepId : String} {refs : List String}
    {acc out : List Nat} (h : resolveRefs ids i stepId refs acc = .ok out) :
    (∀ r ∈ refs, r ≠ stepId ∧ ∃ t ≤ i, ids.idxOf? r = some t) ∧
      (∀ t, t ∈ out ↔ t ∈ acc ∨ ∃ r ∈ refs, ids.idxOf? r = some t) ∧
        (acc.Nodup → out.Nodup) := by
  induction refs generalizing acc with
  | nil =>
    cases h
    simp
  | cons r refs ih =>
    rw [resolveRefs] at h
    split at h
    · cases h
    · rename_i hne
      split at h
      · cases h
      · rename_i target hidx
        split at h
        · cases h
        · rename_i hle
          obtain ⟨hrefs, hmem, hnodup⟩ := ih h
          refine ⟨?_, ?_, ?_⟩
          · intro r' hr'
            rcases List.mem_cons.mp hr' with rfl | hr'
            · exact ⟨hne, target, by omega, hidx⟩
            · exact hrefs r' hr'
          · intro t
            rw [hmem t]
            have hacc : t ∈ (if acc.contains target then acc else acc ++ [target]) ↔
                t ∈ acc ∨ t = target := by
              split
              · rename_i hc
                have := List.contains_iff_mem.mp hc
                constructor
                · exact Or.inl
                · rintro (h | rfl) <;> assumption
              · simp
            rw [hacc]
            constructor
            · rintro ((h | rfl) | ⟨r', hr', ht⟩)
              · exact Or.inl h
              · exact Or.inr ⟨r, List.mem_cons_self, hidx⟩
              · exact Or.inr ⟨r', List.mem_cons_of_mem r hr', ht⟩
            · rintro (h | ⟨r', hr', ht⟩)
              · exact Or.inl (Or.inl h)
              · rcases List.mem_cons.mp hr' with rfl | hr'
                · rw [hidx] at ht
                  cases ht
                  exact Or.inl (Or.inr rfl)
                · exact Or.inr ⟨r', hr', ht⟩
          · intro hacc
            apply hnodup
            split
            · exact hacc
            · rename_i hc
              refine List.nodup_append.mpr ⟨hacc, List.nodup_singleton _, ?_⟩
              intro a ha b hb
              rw [List.mem_singleton] at hb
              subst hb
              rintro rfl
              exact hc (List.contains_iff_mem.mpr ha)

theorem planSteps_ok {ids : List String} {i : Nat} {steps : List StepDef} {deps : List (List Nat)}
    (h : planSteps ids i steps = .ok deps) :
    deps.length = steps.length ∧
      ∀ k (hk : k < steps.length), planStep ids (i + k) steps[k] = .ok (deps.getD k []) := by
  induction steps generalizing i deps with
  | nil =>
    cases h
    simp
  | cons step rest ih =>
    rw [planSteps] at h
    split at h
    · cases h
    · rename_i ds hds
      split at h
      · cases h
      · rename_i dss hdss
        cases h
        obtain ⟨hlen, hall⟩ := ih hdss
        refine ⟨by simp [hlen], ?_⟩
        intro k hk
        cases k with
        | zero => simpa using hds
        | succ k =>
          have := hall k (by simpa using hk)
          rw [Nat.add_assoc, Nat.add_comm 1 k] at this
          simpa using this

/-- The dependency function of a plan. -/
def DagPlan.depsOf (plan : DagPlan) (i : Nat) : List Nat := plan.deps.getD i []

/-- The level of a step: the length of the longest dependency chain that ends in it. -/
def DagPlan.level (plan : DagPlan) (i : Nat) : Nat := Layering.level plan.depsOf i

/-- What holds of every plan that `buildPlan` returns for `steps`. -/
structure DagPlan.Valid (plan : DagPlan) (steps : List StepDef) : Prop where
  nodup_ids : (steps.map (·.id)).Nodup
  length_deps : plan.deps.length = steps.length
  rooted : ∀ step ∈ steps, containsUnrootedStepsTemplate step.params = false
  deps_lt : Layering.Backward plan.depsOf steps.length
  deps_nodup : ∀ i, (plan.depsOf i).Nodup
  ref_mem_deps : ∀ i (hi : i < steps.length), ∀ r ∈ extractStepDeps steps[i],
    ∃ d ∈ plan.depsOf i, (steps.map (·.id))[d]? = some r
  deps_ref : ∀ i (hi : i < steps.length), ∀ d ∈ plan.depsOf i,
    ∃ r ∈ extractStepDeps steps[i], (steps.map (·.id))[d]? = some r
  waves_eq : ∀ k, plan.waves.getD k [] =
    (List.range steps.length).filter fun i => plan.level i == k
  level_lt : ∀ i < steps.length, plan.level i < plan.waves.length
  consumers_eq : ∀ i < steps.length, plan.consumers.getD i [] =
    (List.range steps.length).filter fun j => (plan.depsOf j).contains i

/-- `waves` lists the levels from `k` on, and no step has a level past the last of them. -/
def LevelsFrom (deps : Nat → List Nat) (n k : Nat) (waves : List (List Nat)) : Prop :=
  (∀ j, waves.getD j [] = (List.range n).filter fun i => Layering.level deps i == k + j) ∧
    ∀ i < n, Layering.level deps i < k + waves.length

theorem levelsFrom_nil {deps : Nat → List Nat} {n k : Nat}
    (h : ∀ i < n, Layering.level deps i < k) : LevelsFrom deps n k [] := by
  refine ⟨fun j => ?_, fun i hi => by simpa using h i hi⟩
  rw [List.getD_nil, eq_comm, List.filter_eq_nil_iff]
  intro i hi
  have := h i (List.mem_range.mp hi)
  simp only [beq_iff_eq]
  omega

theorem levelsFrom_cons {deps : Nat → List Nat} {n k : Nat} {wave : List Nat}
    {waves : List (List Nat)}
    (hw : wave = (List.range n).filter fun i => Layering.level deps i == k)
    (h : LevelsFrom deps n (k + 1) waves) : LevelsFrom deps n k (wave :: waves) := by
  refine ⟨fun j => ?_, fun i hi => ?_⟩
  · cases j with
    | zero => simpa using hw
    | succ j =>
      have hj := h.1 j
      rw [Nat.add_assoc, Nat.add_comm 1 j] at hj
      simpa using hj
  · have hi' := h.2 i hi
    rw [List.length_cons]
    omega

/-- The waves from level `k` on, once every step below it is scheduled. -/
theorem layerFrom_ok {deps : List (List Nat)} {ids : List String} {rounds k : Nat}
    {scheduled : List Nat} {waves : List (List Nat)}
    (hb : Layering.Backward (fun i => deps.getD i []) deps.length)
    (hd : Layering.Drained (fun i => deps.getD i []) deps.length k scheduled)
    (hn : scheduled.Nodup) (hr : deps.length ≤ scheduled.length + rounds)
    (h : layerFrom deps ids rounds scheduled = .ok waves) :
    LevelsFrom (fun i => deps.getD i []) deps.length k waves := by
  induction rounds generalizing k scheduled waves with
  | zero =>
    cases h
    exact levelsFrom_nil fun i hi => Layering.level_lt_of_full _ hd hn (by omega) hi
  | succ rounds ih =>
    rw [layerFrom] at h
    split at h
    · rename_i hlen
      cases h
      exact levelsFrom_nil fun i hi => Layering.level_lt_of_full _ hd hn (by omega) hi
    · dsimp only at h
      split at h
      · cases h
      · rename_i hne
        split at h
        · cases h
        · rename_i ws hws
          cases h
          have hpos := List.length_pos_iff.mpr fun he => hne (List.isEmpty_iff.mpr he)
          have hrest := ih (Layering.drained_append _ hb hd) (Layering.nodup_append_round _ hb hd hn)
            (by rw [List.length_append]; omega) hws
          exact levelsFrom_cons (Layering.round_eq _ hb hd) hrest

/-- Layering never fails: a round with a step left to schedule is not empty. -/
theorem layerFrom_succeeds {deps : List (List Nat)} {ids : List String} {rounds k : Nat}
    {scheduled : List Nat}
    (hb : Layering.Backward (fun i => deps.getD i []) deps.length)
    (hd : Layering.Drained (fun i => deps.getD i []) deps.length k scheduled)
    (hn : scheduled.Nodup) :
    ∃ waves, layerFrom deps ids rounds scheduled = .ok waves := by
  induction rounds generalizing k scheduled with
  | zero => exact ⟨[], rfl⟩
  | succ rounds ih =>
    rw [layerFrom]
    split
    · exact ⟨[], rfl⟩
    · rename_i hlen
      obtain ⟨ws, hws⟩ := ih (Layering.drained_append _ hb hd) (Layering.nodup_append_round _ hb hd hn)
      have hne : Layering.round (fun i => deps.getD i []) deps.length scheduled ≠ [] := by
        obtain ⟨i, hi, hnot⟩ : ∃ i < deps.length, i ∉ scheduled := by
          by_contra hall
          push Not at hall
          have hsub : List.range deps.length ⊆ scheduled := fun i hi =>
            hall i (List.mem_range.mp hi)
          have h₁ := (List.nodup_range.subperm hsub).length_le
          have hsub' : scheduled ⊆ List.range deps.length := fun i hi =>
            List.mem_range.mpr ((hd i).mp hi).1
          have h₂ := (hn.subperm hsub').length_le
          rw [List.length_range] at h₁ h₂
          omega
        exact Layering.round_ne_nil _ hb hd hi hnot
      have hemp : (Layering.round (fun i => deps.getD i []) deps.length scheduled).isEmpty = false := by
        rw [Bool.eq_false_iff]
        exact fun he => hne (List.isEmpty_iff.mp he)
      exact ⟨_, by simp only [hemp, Bool.false_eq_true, if_false, hws]; rfl⟩

theorem mem_foldl_pushUnique (ids : List String) (out : List String) (x : String) :
    x ∈ ids.foldl pushUnique out ↔ x ∈ out ∨ x ∈ ids := by
  induction ids generalizing out with
  | nil => simp
  | cons id ids ih =>
    rw [List.foldl_cons, ih, pushUnique]
    split
    · rename_i hc
      have hm := List.contains_iff_mem.mp hc
      constructor
      · rintro (h | h)
        · exact Or.inl h
        · exact Or.inr (List.mem_cons_of_mem _ h)
      · rintro (h | h)
        · exact Or.inl h
        · rcases List.mem_cons.mp h with rfl | h
          · exact Or.inl hm
          · exact Or.inr h
    · rw [List.mem_append, List.mem_singleton, List.mem_cons, or_assoc]

/-- A step depends on what it declares and on every id its strings mention that none of its own
bodies defines. -/
theorem mem_extractStepDeps (step : StepDef) (x : String) :
    x ∈ extractStepDeps step ↔
      x ∈ step.dependsOn ∨ x ∈ scanValue step.params ∧ x ∉ collectInnerStepIds step.params := by
  simp only [extractStepDeps, mem_foldl_pushUnique, List.mem_filter, List.not_mem_nil, false_or,
    Bool.not_eq_true', ← Bool.not_eq_true, List.contains_iff_mem]

theorem planStep_ok {ids : List String} {i : Nat} {step : StepDef} {out : List Nat}
    (h : planStep ids i step = .ok out) :
    containsUnrootedStepsTemplate step.params = false ∧
      resolveRefs ids i step.id (extractStepDeps step) [] = .ok out := by
  rw [planStep] at h
  split at h
  · cases h
  · rename_i hc
    exact ⟨by simpa using hc, h⟩

section Resolved

variable {steps : List StepDef} {deps : List (List Nat)}
  (h : planSteps (steps.map (·.id)) 0 steps = .ok deps)
include h

/-- The dependencies of a step are what its references resolve to. -/
theorem planSteps_resolved (i : Nat) (hi : i < steps.length) :
    resolveRefs (steps.map (·.id)) i steps[i].id (extractStepDeps steps[i]) [] =
      .ok (deps.getD i []) := by
  simpa using (planStep_ok ((planSteps_ok h).2 i hi)).2

omit h in
theorem getElem?_of_idxOf? {ids : List String} {r : String} {d : Nat} (h : ids.idxOf? r = some d) :
    ids[d]? = some r := by
  obtain ⟨hd, he, -⟩ := List.idxOf?_eq_some_iff.mp h
  rw [List.getElem?_eq_getElem hd, he]

theorem planSteps_backward : Layering.Backward (fun i => deps.getD i []) steps.length := by
  intro i hi d hd
  obtain ⟨hrefs, hmem, -⟩ := resolveRefs_ok (planSteps_resolved h i hi)
  rcases (hmem d).mp hd with hnil | ⟨r, hr, hrd⟩
  · cases hnil
  · obtain ⟨hne, t, hti, hrt⟩ := hrefs r hr
    rw [hrd] at hrt
    cases hrt
    refine lt_of_le_of_ne hti ?_
    rintro rfl
    have hid := getElem?_of_idxOf? hrd
    rw [List.getElem?_map, List.getElem?_eq_getElem hi] at hid
    exact hne (Option.some.inj hid).symm

end Resolved

/-- An accepted action has a valid plan. -/
theorem buildPlan_valid {action : Action} {plan : DagPlan} (h : buildPlan action = .ok plan) :
    plan.Valid action.steps := by
  simp only [buildPlan] at h
  split at h
  · cases h
  · rename_i hdup
    split at h
    · cases h
    · rename_i deps hdeps
      split at h
      · cases h
      · rename_i waves hwaves
        cases h
        obtain ⟨hnodup, -⟩ := firstDuplicate_none hdup
        obtain ⟨hlen, hstep⟩ := planSteps_ok hdeps
        have hres := planSteps_resolved hdeps
        have hlt := planSteps_backward hdeps
        have hlevels : LevelsFrom (fun i => deps.getD i []) deps.length 0 waves := by
          refine layerFrom_ok (by rwa [hlen]) ?_ List.nodup_nil (by simp) hwaves
          intro i
          simp
        refine ⟨hnodup, hlen, ?_, hlt, ?_, ?_, ?_, ?_, ?_, ?_⟩
        · intro step hs
          obtain ⟨i, hi, rfl⟩ := List.getElem_of_mem hs
          exact (planStep_ok (hstep i hi)).1
        · intro i
          by_cases hi : i < action.steps.length
          · exact (resolveRefs_ok (hres i hi)).2.2 List.nodup_nil
          · simp only [DagPlan.depsOf]
            rw [List.getD_eq_default _ _ (by omega)]
            exact List.nodup_nil
        · intro i hi r hr
          obtain ⟨hrefs, hmem, -⟩ := resolveRefs_ok (hres i hi)
          obtain ⟨-, t, -, hrt⟩ := hrefs r hr
          exact ⟨t, (hmem t).mpr (Or.inr ⟨r, hr, hrt⟩), getElem?_of_idxOf? hrt⟩
        · intro i hi d hd
          obtain ⟨-, hmem, -⟩ := resolveRefs_ok (hres i hi)
          rcases (hmem d).mp hd with hnil | ⟨r, hr, hrd⟩
          · cases hnil
          · exact ⟨r, hr, getElem?_of_idxOf? hrd⟩
        · intro k
          have := hlevels.1 k
          rw [hlen, Nat.zero_add] at this
          exact this
        · intro i hi
          have := hlevels.2 i (by omega)
          rwa [Nat.zero_add] at this
        · intro i hi
          rw [List.getD_eq_getElem _ _ (by simpa [hlen] using hi)]
          simp [consumersOf, hlen, DagPlan.depsOf]

end Gwead
