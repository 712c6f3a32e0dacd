import Gwead.Edges
import Gwead.WriterOrder

/-!
# What a plan is for

The references of a step, the ids its bodies define and the conditions on a list of steps, said
without the planner; an action is planned exactly when its steps meet them, and the plan then lists
the steps by the longest chain of references that leads to each.
-/

namespace Gwead

open Dsl

/-! ### The strings of a value -/

/-- A string somewhere in a value; keys do not count. -/
inductive StringIn : Value → String → Prop
  | here (s : String) : StringIn (.string s) s
  | item {items : List Value} {v : Value} {s : String} (hv : v ∈ items) (h : StringIn v s) :
      StringIn (.array items) s
  | field {fields : List (String × Value)} {k : String} {v : Value} {s : String}
      (hv : (k, v) ∈ fields) (h : StringIn v s) : StringIn (.object fields) s

section Strings

variable {s id : String}

theorem stringIn_array {items : List Value} :
    StringIn (.array items) s ↔ ∃ v ∈ items, StringIn v s := by
  constructor
  · rintro (_ | ⟨hv, h⟩ | _)
    exact ⟨_, hv, h⟩
  · rintro ⟨v, hv, h⟩
    exact .item hv h

theorem stringIn_object {fields : List (String × Value)} :
    StringIn (.object fields) s ↔ ∃ e ∈ fields, StringIn e.2 s := by
  constructor
  · rintro (_ | _ | ⟨hv, h⟩)
    exact ⟨_, hv, h⟩
  · rintro ⟨e, he, h⟩
    exact .field he h

theorem stringIn_string {t : String} : StringIn (.string t) s ↔ t = s := by
  constructor
  · rintro (_ | _ | _)
    rfl
  · rintro rfl
    exact .here t

mutual

/-- The scan finds what the scan of one of the strings finds. -/
theorem mem_scanValue_iff (v : Value) :
    id ∈ scanValue v ↔ ∃ s, StringIn v s ∧ id ∈ scanString s := by
  cases v with
  | string t => simp [scanValue, stringIn_string]
  | array items => simpa [scanValue, stringIn_array] using mem_scanItems_iff items
  | object fields => simpa [scanValue, stringIn_object] using mem_scanFields_iff fields
  | _ =>
    refine ⟨fun h => absurd h List.not_mem_nil, ?_⟩
    rintro ⟨s, h, -⟩
    cases h

theorem mem_scanItems_iff (items : List Value) :
    id ∈ scanItems items ↔ ∃ s, (∃ v ∈ items, StringIn v s) ∧ id ∈ scanString s := by
  cases items with
  | nil => simp [scanItems]
  | cons v rest =>
    rw [scanItems, List.mem_append, mem_scanValue_iff v, mem_scanItems_iff rest]
    simp only [List.exists_mem_cons_iff, or_and_right, exists_or]

theorem mem_scanFields_iff (fields : List (String × Value)) :
    id ∈ scanFields fields ↔ ∃ s, (∃ e ∈ fields, StringIn e.2 s) ∧ id ∈ scanString s := by
  cases fields with
  | nil => simp [scanFields]
  | cons e rest =>
    obtain ⟨k, v⟩ := e
    rw [scanFields, List.mem_append, mem_scanValue_iff v, mem_scanFields_iff rest]
    simp only [List.exists_mem_cons_iff, or_and_right, exists_or]

end

mutual

theorem anyString_iff {p : String → Bool} (v : Value) :
    anyString p v = true ↔ ∃ s, StringIn v s ∧ p s = true := by
  cases v with
  | string t => simp [anyString, stringIn_string]
  | array items => simpa [anyString, stringIn_array] using anyStringItems_iff items
  | object fields => simpa [anyString, stringIn_object] using anyStringFields_iff fields
  | _ =>
    refine ⟨fun h => absurd h Bool.false_ne_true, ?_⟩
    rintro ⟨s, h, -⟩
    cases h

theorem anyStringItems_iff {p : String → Bool} (items : List Value) :
    anyStringItems p items = true ↔ ∃ s, (∃ v ∈ items, StringIn v s) ∧ p s = true := by
  cases items with
  | nil => simp [anyStringItems]
  | cons v rest =>
    rw [anyStringItems, Bool.or_eq_true, anyString_iff v, anyStringItems_iff rest]
    simp only [List.exists_mem_cons_iff, or_and_right, exists_or]

theorem anyStringFields_iff {p : String → Bool} (fields : List (String × Value)) :
    anyStringFields p fields = true ↔ ∃ s, (∃ e ∈ fields, StringIn e.2 s) ∧ p s = true := by
  cases fields with
  | nil => simp [anyStringFields]
  | cons e rest =>
    obtain ⟨k, v⟩ := e
    rw [anyStringFields, Bool.or_eq_true, anyString_iff v, anyStringFields_iff rest]
    simp only [List.exists_mem_cons_iff, or_and_right, exists_or]

end

end Strings

/-! ### References and unrooted templates -/

/-- A match takes the whole identifier after the dot. -/
theorem stepsRefAt_exact {cs id : List Char} (h : stepsRefAt cs = some id) :
    (∃ c rest, id = c :: rest ∧ isIdentStart c = true) ∧ ∃ post, cs = dollarSteps ++ (id ++ post) ∧
      (∀ c ∈ post.head?, isIdentChar c = false) ∧ ∀ c ∈ id, isIdentChar c = true := by
  obtain ⟨-, -, hall⟩ := stepsRefAt_some h
  unfold stepsRefAt at h
  split at h
  · rename_i c rest hp
    split at h
    · rename_i hstart
      cases h
      refine ⟨⟨c, _, rfl, hstart⟩, rest.dropWhile isIdentChar, ?_, fun d hd => ?_, hall⟩
      · rw [afterPrefix_some hp, List.cons_append, List.takeWhile_append_dropWhile]
      · have hnot := List.head?_dropWhile_not isIdentChar rest
        rw [Option.mem_def] at hd
        rw [hd] at hnot
        exact hnot
    · cases h
  · cases h

theorem mem_captureStepsRefs {id : String} (cs : List Char) (skip : Nat)
    (h : id ∈ captureStepsRefs skip cs) : SpelledIn cs id := by
  induction cs generalizing skip with
  | nil => cases skip <;> cases h
  | cons c cs ih =>
    have hlater : ∀ skip, id ∈ captureStepsRefs skip cs → SpelledIn (c :: cs) id := by
      intro skip h
      obtain ⟨pre, post, hcs, hrest⟩ := ih skip h
      exact ⟨c :: pre, post, by rw [hcs]; rfl, hrest⟩
    cases skip with
    | succ skip => exact hlater skip h
    | zero =>
      rw [captureStepsRefs] at h
      cases hmatch : stepsRefAt (c :: cs) with
      | none =>
        rw [hmatch] at h
        exact hlater 0 h
      | some id' =>
        rw [hmatch] at h
        rcases List.mem_cons.mp h with rfl | h
        · obtain ⟨hstart, post, hcs, hend, hall⟩ := stepsRefAt_exact hmatch
          refine ⟨[], post, ?_, hend, ?_, ?_⟩
          · rw [String.toList_ofList]
            exact hcs
          · rw [String.toList_ofList]
            exact hstart
          · rw [String.toList_ofList]
            exact hall
        · exact hlater _ h

/-- Scanning a string finds exactly the references spelled in it. -/
theorem mem_scanString_iff {s id : String} : id ∈ scanString s ↔ SpelledIn s.toList id :=
  ⟨mem_captureStepsRefs s.toList 0, mem_scanString_of_spelled⟩

/-- A template that opens with `steps.` and not with `$steps.`. -/
def UnrootedIn (cs : List Char) : Prop :=
  ∃ pre gap post, cs = pre ++ ('{' :: '{' :: (gap ++ ('s' :: 't' :: 'e' :: 'p' :: 's' :: '.' :: post))) ∧
    ∀ c ∈ gap, isWhiteSpace c = true

theorem matchesSomewhere_iff {p : List Char → Bool} {cs : List Char} :
    matchesSomewhere p cs = true ↔ ∃ pre post, cs = pre ++ post ∧ p post = true := by
  induction cs with
  | nil =>
    refine ⟨fun h => ⟨[], [], rfl, h⟩, ?_⟩
    rintro ⟨pre, post, hcs, h⟩
    obtain ⟨rfl, rfl⟩ := List.append_eq_nil_iff.mp hcs.symm
    exact h
  | cons c cs ih =>
    rw [matchesSomewhere, Bool.or_eq_true, ih]
    constructor
    · rintro (h | ⟨pre, post, rfl, h⟩)
      · exact ⟨[], c :: cs, rfl, h⟩
      · exact ⟨c :: pre, post, rfl, h⟩
    · rintro ⟨pre, post, hcs, h⟩
      cases pre with
      | nil =>
        obtain rfl : c :: cs = post := hcs
        exact .inl h
      | cons d pre =>
        obtain ⟨-, rfl⟩ := List.cons.inj hcs
        exact .inr ⟨pre, post, rfl, h⟩

theorem unrootedAt_iff {cs : List Char} : unrootedAt cs = true ↔ ∃ gap post,
    cs = '{' :: '{' :: (gap ++ ('s' :: 't' :: 'e' :: 'p' :: 's' :: '.' :: post)) ∧
      ∀ c ∈ gap, isWhiteSpace c = true := by
  constructor
  · intro h
    unfold unrootedAt at h
    split at h
    · rename_i rest
      obtain ⟨post, hpost⟩ := Option.isSome_iff_exists.mp h
      refine ⟨rest.takeWhile isWhiteSpace, post, ?_, fun c hc => List.mem_takeWhile_imp hc⟩
      have hdrop := afterPrefix_some hpost
      rw [List.cons_inj_right, List.cons_inj_right]
      exact (List.takeWhile_append_dropWhile.symm).trans (congrArg _ hdrop)
    · cases h
  · rintro ⟨gap, post, rfl, hgap⟩
    have hdrop : (gap ++ ('s' :: 't' :: 'e' :: 'p' :: 's' :: '.' :: post)).dropWhile isWhiteSpace =
        's' :: 't' :: 'e' :: 'p' :: 's' :: '.' :: post := by
      rw [List.dropWhile_append_of_pos hgap, List.dropWhile_cons_of_neg (by decide)]
    simp only [unrootedAt, hdrop]
    rfl

theorem containsUnrootedStepsTemplate_iff {v : Value} : containsUnrootedStepsTemplate v = true ↔
    ∃ s, StringIn v s ∧ UnrootedIn s.toList := by
  rw [containsUnrootedStepsTemplate, anyString_iff]
  refine exists_congr fun s => and_congr_right fun _ => ?_
  rw [matchesSomewhere_iff]
  constructor
  · rintro ⟨pre, post, hs, h⟩
    obtain ⟨gap, tail, rfl, hgap⟩ := unrootedAt_iff.mp h
    exact ⟨pre, gap, tail, hs, hgap⟩
  · rintro ⟨pre, gap, tail, hs, hgap⟩
    exact ⟨pre, _, hs, unrootedAt_iff.mpr ⟨gap, tail, rfl, hgap⟩⟩

/-! ### Bodies -/

/-- A step definition that stands in a body of parameters. -/
inductive BodyStep (params item : Value) : Prop
  | body {key : String} {items : List Value} (hkey : key ∈ innerBodyKeys)
      (h : params.get key = some (.array items)) (hitem : item ∈ items) : BodyStep params item
  | branch {branches items : List Value} (h : params.get "branches" = some (.array branches))
      (hbranch : .array items ∈ branches) (hitem : item ∈ items) : BodyStep params item

/-- An id of a step that stands in a body of parameters, at any depth. -/
inductive DefinedInside : Value → String → Prop
  | chosen {params branch : Value} {branches : List Value} {id : String}
      (h : params.get "ifs" = some (.array branches)) (hbranch : branch ∈ branches)
      (hin : DefinedInside branch id) : DefinedInside params id
  | own {params item : Value} {id : String} (h : BodyStep params item)
      (hid : item.get "id" = some (.string id)) : DefinedInside params id
  | deeper {params item inner : Value} {id : String} (h : BodyStep params item)
      (hparams : item.get "params" = some inner) (hin : DefinedInside inner id) :
      DefinedInside params id

section Bodies

variable {params item : Value} {id : String}

theorem mem_stepIdsInArray {inner : Value → List String} {v : Value} :
    id ∈ stepIdsInArray inner v ↔ ∃ items, v = .array items ∧ ∃ item ∈ items,
      item.get "id" = some (.string id) ∨
        ∃ deeper, item.get "params" = some deeper ∧ id ∈ inner deeper := by
  have hid : ∀ item : Value, id ∈ ((item.get "id").bind Value.asStr).toList ↔
      item.get "id" = some (.string id) := by
    intro item
    cases item.get "id" with
    | none => simp
    | some w => cases w <;> simp [Value.asStr, eq_comm]
  unfold stepIdsInArray
  cases v with
  | array items =>
    simp only [Value.asArray, List.mem_flatMap, List.mem_append, hid, Value.array.injEq,
      exists_eq_left']
    refine exists_congr fun item => and_congr_right fun _ => or_congr_right ?_
    cases item.get "params" <;> simp
  | _ => simp [Value.asArray]

theorem mem_innerStepIdsTo_succ {n : Nat} : id ∈ innerStepIdsTo (n + 1) params ↔
    (∃ branches, params.get "ifs" = some (.array branches) ∧
      ∃ branch ∈ branches, id ∈ innerStepIdsTo n branch) ∨
      ∃ item, BodyStep params item ∧ (item.get "id" = some (.string id) ∨
        ∃ inner, item.get "params" = some inner ∧ id ∈ innerStepIdsTo n inner) := by
  rw [innerStepIdsTo, List.mem_append, List.mem_append, List.mem_flatMap, List.mem_flatMap,
    List.mem_flatMap]
  constructor
  · rintro (⟨branch, hbranch, hin⟩ | ⟨v, hv, hin⟩ | ⟨key, hkey, hin⟩)
    · obtain ⟨branches, hget, hbranch⟩ := mem_arrayAt.mp hbranch
      exact .inl ⟨branches, hget, branch, hbranch, hin⟩
    · obtain ⟨branches, hget, hbranch⟩ := mem_arrayAt.mp hv
      obtain ⟨items, rfl, item, hitem, hin⟩ := mem_stepIdsInArray.mp hin
      exact .inr ⟨item, .branch hget hbranch hitem, hin⟩
    · cases hget : params.get key with
      | none => simp [hget] at hin
      | some v =>
        rw [hget] at hin
        obtain ⟨items, rfl, item, hitem, hin⟩ := mem_stepIdsInArray.mp hin
        exact .inr ⟨item, .body hkey hget hitem, hin⟩
  · rintro (⟨branches, hget, branch, hbranch, hin⟩ | ⟨item, hbody, hin⟩)
    · exact .inl ⟨branch, mem_arrayAt.mpr ⟨branches, hget, hbranch⟩, hin⟩
    · cases hbody with
      | body hkey hget hitem =>
        refine .inr (.inr ⟨_, hkey, ?_⟩)
        rw [hget]
        exact mem_stepIdsInArray.mpr ⟨_, rfl, item, hitem, hin⟩
      | branch hget hbranch hitem =>
        exact .inr (.inl ⟨_, mem_arrayAt.mpr ⟨_, hget, hbranch⟩,
          mem_stepIdsInArray.mpr ⟨_, rfl, item, hitem, hin⟩⟩)

theorem BodyStep.depth (h : BodyStep params item) : item.depth < params.depth := by
  cases h with
  | body hkey hget hitem => exact (Value.depth_mem rfl hitem).trans (Value.depth_get hget)
  | branch hget hbranch hitem =>
    exact (Value.depth_mem rfl hitem).trans ((Value.depth_mem rfl hbranch).trans (Value.depth_get hget))

/-- The planner collects exactly the ids defined inside. -/
theorem mem_collectInnerStepIds : id ∈ collectInnerStepIds params ↔ DefinedInside params id := by
  constructor
  · intro h
    unfold collectInnerStepIds at h
    generalize params.depth = n at h
    induction n generalizing params with
    | zero => cases h
    | succ n ih =>
      rcases mem_innerStepIdsTo_succ.mp h with ⟨branches, hget, branch, hbranch, hin⟩ |
        ⟨item, hbody, hid | ⟨inner, hparams, hin⟩⟩
      · exact .chosen hget hbranch (ih hin)
      · exact .own hbody hid
      · exact .deeper hbody hparams (ih hin)
  · intro h
    have hcollect : ∀ n, params.depth ≤ n → id ∈ innerStepIdsTo n params := by
      induction h with
      | chosen hget hbranch _ ih =>
        intro n hn
        have hlt := (Value.depth_mem rfl hbranch).trans (Value.depth_get hget)
        obtain ⟨m, rfl⟩ := Nat.exists_eq_add_of_lt ((Nat.zero_le _).trans_lt (hlt.trans_le hn))
        rw [Nat.zero_add]
        exact mem_innerStepIdsTo_succ.mpr (.inl ⟨_, hget, _, hbranch, ih m (by omega)⟩)
      | own hbody hid =>
        intro n hn
        obtain ⟨m, rfl⟩ := Nat.exists_eq_add_of_lt ((Nat.zero_le _).trans_lt (hbody.depth.trans_le hn))
        rw [Nat.zero_add]
        exact mem_innerStepIdsTo_succ.mpr (.inr ⟨_, hbody, .inl hid⟩)
      | deeper hbody hparams _ ih =>
        intro n hn
        have hlt := (Value.depth_get hparams).trans hbody.depth
        obtain ⟨m, rfl⟩ := Nat.exists_eq_add_of_lt ((Nat.zero_le _).trans_lt (hlt.trans_le hn))
        rw [Nat.zero_add]
        exact mem_innerStepIdsTo_succ.mpr (.inr ⟨_, hbody, .inr ⟨_, hparams, ih m (by omega)⟩⟩)
    exact hcollect params.depth le_rfl

end Bodies

/-! ### Steps that can be planned -/

/-- A parameter of the step mentions `$steps.id`. -/
def Mentions (step : StepDef) (id : String) : Prop :=
  ∃ s, StringIn step.params s ∧ SpelledIn s.toList id

/-- The step needs the result of the step `id` that stands beside it. -/
def Needs (step : StepDef) (id : String) : Prop :=
  id ∈ step.dependsOn ∨ Mentions step id ∧ ¬DefinedInside step.params id

theorem mem_extractStepDeps_iff {step : StepDef} {id : String} :
    id ∈ extractStepDeps step ↔ Needs step id := by
  rw [mem_extractStepDeps, mem_scanValue_iff, mem_collectInnerStepIds]
  simp only [mem_scanString_iff]
  rfl

/-- The id is that of a step that stands earlier. -/
def Earlier (steps : List StepDef) (i : Nat) (id : String) : Prop :=
  ∃ j < i, (steps.map (·.id))[j]? = some id

/-- The ids are distinct, no template lacks its `$`, and every reference is to a step of the step's
own bodies or to an earlier one. -/
structure Plannable (steps : List StepDef) : Prop where
  nodup : (steps.map (·.id)).Nodup
  rooted : ∀ step ∈ steps, ∀ s, StringIn step.params s → ¬UnrootedIn s.toList
  declared : ∀ i step, steps[i]? = some step → ∀ id ∈ step.dependsOn, Earlier steps i id
  referred : ∀ i step, steps[i]? = some step → ∀ id, Mentions step id →
    DefinedInside step.params id ∨ Earlier steps i id

theorem Plannable.needs {steps : List StepDef} (h : Plannable steps) {i : Nat} {step : StepDef}
    (hstep : steps[i]? = some step) {id : String} (hneeds : Needs step id) : Earlier steps i id := by
  rcases hneeds with hin | ⟨hmentions, houter⟩
  · exact h.declared i step hstep id hin
  · exact (h.referred i step hstep id hmentions).resolve_left houter

section Plannable

variable {steps : List StepDef}

theorem firstDuplicate_of_nodup {seen : List String} (h : (steps.map (·.id)).Nodup)
    (hfresh : ∀ step ∈ steps, step.id ∉ seen) : firstDuplicate seen steps = none := by
  induction steps generalizing seen with
  | nil => rfl
  | cons step rest ih =>
    rw [List.map_cons, List.nodup_cons] at h
    have hnot : seen.contains step.id = false := by
      simpa using hfresh step List.mem_cons_self
    rw [firstDuplicate, hnot, if_neg Bool.false_ne_true]
    refine ih h.2 fun s hs hin => ?_
    rcases List.mem_cons.mp hin with heq | hin
    · exact h.1 (List.mem_map.mpr ⟨s, hs, heq⟩)
    · exact hfresh s (List.mem_cons_of_mem _ hs) hin

theorem resolveRefs_succeeds {ids : List String} {i : Nat} {stepId : String} {refs : List String}
    {acc : List Nat} (h : ∀ r ∈ refs, r ≠ stepId ∧ ∃ t ≤ i, ids.idxOf? r = some t) :
    ∃ out, resolveRefs ids i stepId refs acc = .ok out := by
  induction refs generalizing acc with
  | nil => exact ⟨acc, rfl⟩
  | cons r rest ih =>
    obtain ⟨⟨hne, t, hle, hidx⟩, hrest⟩ := List.forall_mem_cons.mp h
    rw [resolveRefs, if_neg hne, hidx]
    dsimp only
    rw [if_neg (by omega)]
    exact ih hrest

/-- An error of a reference is never a cycle. -/
theorem resolveRefs_not_cycle {ids : List String} {i : Nat} {stepId cyclic : String}
    {refs : List String} {acc : List Nat} :
    resolveRefs ids i stepId refs acc ≠ .error (.cycle cyclic) := by
  induction refs generalizing acc with
  | nil => rintro ⟨⟩
  | cons r rest ih =>
    rw [resolveRefs]
    split
    · rintro ⟨⟩
    · split
      · rintro ⟨⟩
      · split
        · rintro ⟨⟩
        · exact ih

theorem planSteps_succeeds {ids : List String} {i : Nat}
    (h : ∀ k step, steps[k]? = some step → ∃ ds, planStep ids (i + k) step = .ok ds) :
    ∃ deps, planSteps ids i steps = .ok deps := by
  induction steps generalizing i with
  | nil => exact ⟨[], rfl⟩
  | cons step rest ih =>
    obtain ⟨ds, hds⟩ := h 0 step rfl
    obtain ⟨dss, hdss⟩ := ih (i := i + 1) fun k s hk => by
      have hone := h (k + 1) s hk
      rwa [Nat.add_comm k 1, ← Nat.add_assoc] at hone
    rw [Nat.add_zero] at hds
    exact ⟨ds :: dss, by rw [planSteps, hds, hdss]⟩

theorem planSteps_not_cycle {ids : List String} {i : Nat} {cyclic : String} :
    planSteps ids i steps ≠ .error (.cycle cyclic) := by
  induction steps generalizing i with
  | nil => rintro ⟨⟩
  | cons step rest ih =>
    rw [planSteps]
    cases hstep : planStep ids i step with
    | error e =>
      rintro ⟨⟩
      unfold planStep at hstep
      split at hstep
      · cases hstep
      · exact resolveRefs_not_cycle hstep
    | ok ds =>
      cases hrest : planSteps ids (i + 1) rest with
      | error e =>
        rintro ⟨⟩
        exact ih hrest
      | ok dss => rintro ⟨⟩

/-- Every step of a list that can be planned resolves its references. -/
theorem Plannable.planSteps (h : Plannable steps) :
    ∃ deps, Gwead.planSteps (steps.map (·.id)) 0 steps = .ok deps := by
  refine planSteps_succeeds fun i step hstep => ?_
  rw [Nat.zero_add]
  have hid : (steps.map (·.id))[i]? = some step.id := by
    rw [List.getElem?_map, hstep]
    rfl
  have hrooted : containsUnrootedStepsTemplate step.params = false := by
    rw [← Bool.not_eq_true, containsUnrootedStepsTemplate_iff]
    rintro ⟨s, hs, hunrooted⟩
    exact h.rooted step (List.mem_of_getElem? hstep) s hs hunrooted
  rw [planStep, hrooted, if_neg Bool.false_ne_true]
  refine resolveRefs_succeeds fun r hr => ?_
  obtain ⟨j, hj, hget⟩ := h.needs hstep (mem_extractStepDeps_iff.mp hr)
  obtain ⟨hjlt, hrj⟩ := List.getElem?_eq_some_iff.mp hget
  obtain ⟨hilt, hidi⟩ := List.getElem?_eq_some_iff.mp hid
  have hinj : ∀ k (hk : k < (steps.map (·.id)).length), (steps.map (·.id))[k] = r → k = j :=
    fun k hk heq => h.nodup.getElem_inj_iff.mp (heq.trans hrj.symm)
  refine ⟨fun heq => ?_, j, hj.le, List.idxOf?_eq_some_iff.mpr ⟨hjlt, hrj, fun k hk heq => ?_⟩⟩
  · have hij := hinj i hilt (hidi.trans heq.symm)
    omega
  · have hkj := hinj k (hk.trans hjlt) heq
    omega

theorem layerIntoWaves_succeeds {deps : List (List Nat)} {ids : List String}
    (hb : Layering.Backward (fun i => deps.getD i []) deps.length) :
    ∃ waves, layerIntoWaves deps ids = .ok waves :=
  layerFrom_succeeds (k := 0) hb (fun i => by simp) List.nodup_nil

/-- Every round of the layering schedules a step. -/
theorem layerFrom_nonempty {deps : List (List Nat)} {ids : List String} {rounds : Nat}
    {scheduled : List Nat} {waves : List (List Nat)}
    (h : layerFrom deps ids rounds scheduled = .ok waves) : ∀ wave ∈ waves, wave ≠ [] := by
  induction rounds generalizing scheduled waves with
  | zero =>
    cases h
    exact List.forall_mem_nil _
  | succ rounds ih =>
    rw [layerFrom] at h
    split at h
    · cases h
      exact List.forall_mem_nil _
    · dsimp only at h
      split at h
      · cases h
      · rename_i hne
        split at h
        · cases h
        · rename_i ws hws
          cases h
          exact List.forall_mem_cons.mpr ⟨fun he => hne (List.isEmpty_iff.mpr he), ih hws⟩

end Plannable

/-- The plan for a list of steps: the dependencies of a step are the steps it needs; every step is
in one wave, at the length of the longest chain of dependencies that ends in it; the steps of a wave
are in declaration order; and the consumers of a step are the steps that depend on it. -/
structure PlanOf (steps : List StepDef) (plan : DagPlan) : Prop where
  length_deps : plan.deps.length = steps.length
  deps : ∀ i step (ds : List Nat), steps[i]? = some step → plan.deps[i]? = some ds → ds.Nodup ∧
    ∀ j, j ∈ ds ↔ j < i ∧ ∃ id, (steps.map (·.id))[j]? = some id ∧ Needs step id
  once : plan.waves.flatten.Nodup
  all : ∀ i, i ∈ plan.waves.flatten ↔ i < steps.length
  level : ∀ k (wave : List Nat), plan.waves[k]? = some wave → ∀ i ∈ wave,
    IsGreatest {n | Layering.Chain plan.depsOf n i} k
  declared : ∀ wave ∈ plan.waves, wave.Pairwise (· < ·)
  nonempty : ∀ wave ∈ plan.waves, wave ≠ []
  length_consumers : plan.consumers.length = steps.length
  consumers : ∀ i (cs : List Nat), plan.consumers[i]? = some cs → cs.Nodup ∧
    ∀ j, j ∈ cs ↔ j < steps.length ∧ i ∈ plan.depsOf j

section Built

variable {action : Action} {plan : DagPlan}

theorem buildPlan_layers (h : buildPlan action = .ok plan) :
    layerIntoWaves plan.deps (action.steps.map (·.id)) = .ok plan.waves ∧
      plan.consumers = (List.range plan.deps.length).map (consumersOf plan.deps) := by
  simp only [buildPlan] at h
  split at h
  · cases h
  · split at h
    · cases h
    · split at h
      · cases h
      · rename_i hwaves
        cases h
        exact ⟨hwaves, rfl⟩

/-- An action that is planned meets the conditions. -/
theorem plannable_of_buildPlan (h : buildPlan action = .ok plan) : Plannable action.steps := by
  have hvalid := buildPlan_valid h
  have hneeds : ∀ i step, action.steps[i]? = some step → ∀ id, Needs step id →
      Earlier action.steps i id := by
    intro i step hstep id hneeds
    obtain ⟨hi, rfl⟩ := List.getElem?_eq_some_iff.mp hstep
    obtain ⟨j, hj, hget⟩ := hvalid.ref_mem_deps i hi id (mem_extractStepDeps_iff.mpr hneeds)
    exact ⟨j, hvalid.deps_lt i hi j hj, hget⟩
  refine ⟨hvalid.nodup_ids, fun step hstep s hs hunrooted => ?_, fun i step hstep id hid => ?_,
    fun i step hstep id hmentions => ?_⟩
  · have hrooted := hvalid.rooted step hstep
    rw [← Bool.not_eq_true, containsUnrootedStepsTemplate_iff] at hrooted
    exact hrooted ⟨s, hs, hunrooted⟩
  · exact hneeds i step hstep id (.inl hid)
  · by_cases hin : DefinedInside step.params id
    · exact .inl hin
    · exact .inr (hneeds i step hstep id (.inr ⟨hmentions, hin⟩))

theorem planOf_buildPlan (h : buildPlan action = .ok plan) : PlanOf action.steps plan := by
  have hvalid := buildPlan_valid h
  obtain ⟨hlayers, hconsumers⟩ := buildPlan_layers h
  have hwave : ∀ k (wave : List Nat), plan.waves[k]? = some wave → ∀ i,
      i ∈ wave ↔ i < action.steps.length ∧ plan.level i = k := by
    intro k wave hk i
    obtain ⟨hlt, rfl⟩ := List.getElem?_eq_some_iff.mp hk
    exact hvalid.mem_wave_iff hlt
  have hnodup : plan.waves.flatten.Nodup := by
    refine hvalid.pairwise_flatten.imp ?_
    rintro i j hbefore rfl
    rcases hbefore with hlt | ⟨-, hlt⟩ <;> exact lt_irrefl _ hlt
  refine ⟨hvalid.length_deps, fun i step ds hstep hds => ?_, hnodup, fun i => ⟨fun hin => ?_,
    hvalid.mem_flatten⟩, fun k wave hk i hi => ?_, fun wave hin => ?_, layerFrom_nonempty hlayers, ?_,
    fun i cs hcs => ?_⟩
  · obtain ⟨hi, rfl⟩ := List.getElem?_eq_some_iff.mp hstep
    have hdeps : plan.depsOf i = ds := by
      rw [DagPlan.depsOf, List.getD_eq_getElem?_getD, hds]
      rfl
    refine ⟨hdeps ▸ hvalid.deps_nodup i, fun j => ⟨fun hj => ?_, ?_⟩⟩
    · rw [← hdeps] at hj
      obtain ⟨id, hid, hget⟩ := hvalid.deps_ref i hi j hj
      exact ⟨hvalid.deps_lt i hi j hj, id, hget, mem_extractStepDeps_iff.mp hid⟩
    · rintro ⟨-, id, hget, hneeds⟩
      obtain ⟨d, hd, hget'⟩ := hvalid.ref_mem_deps i hi id (mem_extractStepDeps_iff.mpr hneeds)
      obtain ⟨hjlt, -⟩ := List.getElem?_eq_some_iff.mp hget
      have hjd : j = d := (List.getElem?_inj hjlt hvalid.nodup_ids).mp (hget.trans hget'.symm)
      rwa [← hdeps, hjd]
  · obtain ⟨wave, hin, hi⟩ := List.mem_flatten.mp hin
    obtain ⟨k, hk⟩ := List.getElem?_of_mem hin
    exact ((hwave k wave hk i).mp hi).1
  · obtain ⟨hlt, hlevel⟩ := (hwave k wave hk i).mp hi
    rw [← hlevel]
    exact Layering.level_isGreatest plan.depsOf hvalid.deps_lt hlt
  · obtain ⟨k, hk, rfl⟩ := List.getElem_of_mem hin
    rw [hvalid.getElem_wave hk]
    exact List.pairwise_lt_range.filter _
  · rw [hconsumers, List.length_map, List.length_range, hvalid.length_deps]
  · obtain ⟨hi, rfl⟩ := List.getElem?_eq_some_iff.mp hcs
    rw [hconsumers, List.length_map, List.length_range, hvalid.length_deps] at hi
    have hcs' := hvalid.consumers_eq i hi
    rw [List.getD_eq_getElem?_getD, hcs, Option.getD_some] at hcs'
    rw [hcs']
    refine ⟨List.nodup_range.filter _, fun j => ?_⟩
    rw [List.mem_filter, List.mem_range, List.contains_iff_mem]

/-- Planning succeeds exactly on the actions whose steps meet the conditions, what it returns is the
plan for them, and it never reports a cycle. -/
theorem build_plan_correct (action : Action) :
    ((∃ plan, buildPlan action = .ok plan) ↔ Plannable action.steps) ∧
      (∀ plan, buildPlan action = .ok plan → PlanOf action.steps plan) ∧
        ∀ ids, buildPlan action ≠ .error (.cycle ids) := by
  have hlayers : ∀ deps, planSteps (action.steps.map (·.id)) 0 action.steps = .ok deps →
      ∃ waves, layerIntoWaves deps (action.steps.map (·.id)) = .ok waves := by
    intro deps hdeps
    have hbackward := planSteps_backward hdeps
    rw [← (planSteps_ok hdeps).1] at hbackward
    exact layerIntoWaves_succeeds hbackward
  refine ⟨⟨fun ⟨plan, h⟩ => plannable_of_buildPlan h, fun h => ?_⟩, fun plan => planOf_buildPlan,
    fun ids h => ?_⟩
  · obtain ⟨deps, hdeps⟩ := h.planSteps
    obtain ⟨waves, hwaves⟩ := hlayers deps hdeps
    have hfresh : firstDuplicate [] action.steps = none :=
      firstDuplicate_of_nodup h.nodup fun _ _ => List.not_mem_nil
    exact ⟨_, by simp only [buildPlan, hfresh, hdeps, hwaves]; rfl⟩
  · unfold buildPlan at h
    split at h
    · cases h
    · dsimp only at h
      split at h
      · rename_i e herror
        cases h
        exact planSteps_not_cycle herror
      · rename_i deps hdeps
        obtain ⟨waves, hwaves⟩ := hlayers deps hdeps
        rw [hwaves] at h
        cases h

end Built

end Gwead
