import Gwead.Fanout
import Gwead.ReadScope
import Gwead.StreamingRefusals
import Gwead.WriterOrder

/-!
# Reading a fanned-out result

A producer's readable is split into branches with handles of their own, and a consumer is shown its
branch through an override on its state.  What the override changes is what the reading surfaces
show of the producer's result; the result itself stays where it is.
-/

namespace Gwead

open Dsl

/-! ### The handles of the branches -/

section Handles

abbrev StreamTable := HandleTable StreamState

/-- A handle for each stream, one after the other; past its bound the counter panics. -/
def registerStreams : List StreamState → StreamTable → Option (List Nat × StreamTable)
  | [], table => some ([], table)
  | stream :: rest, table =>
    if table.next ≤ maxStreamHandle then
      (registerStreams rest (table.mint stream)).map fun registered =>
        (table.next :: registered.1, registered.2)
    else none

/-- Whether the waves run in parallel decides the variant, and with it the texts.  Either way a
branch yields the items up to the first error. -/
def fanOutReadable (parallelWaves : Bool) (table : StreamTable) (producer nBranches : Nat) :
    Except String (Option (List Nat × StreamTable)) :=
  let variant := if parallelWaves then "fan_out_readable_streaming" else "fan_out_readable_shared"
  if nBranches = 0 then .error (variant ++ ": n_branches must be > 0")
  else
    match (table.get producer).bind StreamState.takeReadable with
    | none => .error (variant ++ ": producer is not an open readable")
    | some ((contentType, source), taken) =>
      let branch := StreamState.register contentType (.readable (.live source.upstream) none)
      .ok (registerStreams (List.replicate nBranches branch) (table.modify producer fun _ => taken))

def StreamState.isOpenReadable (stream : StreamState) : Bool :=
  match stream.inner.direction with
  | .readable _ _ => !stream.inner.closed
  | .writable => false

/-- A host that asks a table of streams, the one there is at the moment. -/
def Host.onStreams (host : Host) (streams : ExecutionState → StreamTable) : Host :=
  { host with
    readableOpen := fun s handle => ((streams s).get handle).any StreamState.isOpenReadable
    fanOut := fun s handle nBranches =>
      match fanOutReadable s.action.parallelWaves (streams s) handle nBranches with
      | .error e => .error e
      | .ok none => .error "stream id counter exceeded MAX_STREAM_HANDLE"
      | .ok (some (branches, _)) => .ok branches }

theorem registerStreams_handles {streams : List StreamState} {table table' : StreamTable}
    {handles : List Nat} (h : registerStreams streams table = some (handles, table')) :
    handles = List.range' table.next streams.length ∧ ∀ b ∈ handles, b ≤ maxStreamHandle := by
  induction streams generalizing table handles with
  | nil =>
    cases h
    exact ⟨rfl, List.forall_mem_nil _⟩
  | cons stream rest ih =>
    rw [registerStreams] at h
    split at h
    · rename_i hnext
      obtain ⟨⟨handles', table''⟩, hrest, hpair⟩ := Option.map_eq_some_iff.mp h
      cases hpair
      obtain ⟨hrange, hbound⟩ := ih hrest
      refine ⟨?_, List.forall_mem_cons.mpr ⟨hnext, hbound⟩⟩
      rw [hrange]
      rfl
    · cases h

/-- The handles that a producer's readable was split into. -/
structure Branches (handle n : Nat) (branches : List Nat) : Prop where
  length : branches.length = n
  nodup : branches.Nodup
  fresh : handle ∉ branches
  bounded : ∀ b ∈ branches, b ≤ maxStreamHandle

/-- A split gives out new handles, as many as there are branches. -/
theorem fanOut_branches {host : Host} {streams : ExecutionState → StreamTable}
    {s : ExecutionState} {handle n : Nat} {branches : List Nat}
    (h : (host.onStreams streams).fanOut s handle n = .ok branches) :
    Branches handle n branches := by
  have hsplit : ∃ table', fanOutReadable s.action.parallelWaves (streams s) handle n =
      .ok (some (branches, table')) := by
    simp only [Host.onStreams] at h
    cases hran : fanOutReadable s.action.parallelWaves (streams s) handle n with
    | error e => simp [hran] at h
    | ok registered =>
      cases registered with
      | none => simp [hran] at h
      | some registered =>
        simp only [hran, Except.ok.injEq] at h
        exact ⟨registered.2, by rw [← h]⟩
  obtain ⟨table', hran⟩ := hsplit
  unfold fanOutReadable at hran
  dsimp only at hran
  split at hran
  · cases hran
  · cases htaken : ((streams s).get handle).bind StreamState.takeReadable with
    | none => simp [htaken] at hran
    | some taken =>
      simp only [htaken, Except.ok.injEq] at hran
      obtain ⟨hhandles, hbound⟩ := registerStreams_handles hran
      rw [List.length_replicate] at hhandles
      -- the handle is in use, so below the counter
      obtain ⟨stream, hstream, -⟩ := Option.bind_eq_some_iff.mp htaken
      have hbelow : handle < (streams s).next := (streams s).below handle
        (AssocMap.lookup_isSome_iff_mem_keys.mp (by
          unfold HandleTable.get at hstream
          simp [hstream]))
      subst hhandles
      refine ⟨List.length_range', List.nodup_range', fun hmem => ?_, hbound⟩
      obtain ⟨hle, -⟩ := List.mem_range'_1.mp hmem
      exact Nat.lt_irrefl _ (hbelow.trans_le hle)

end Handles

/-! ### The surfaces -/

/-- A step's result as a step body asks for it. -/
def ExecutionState.effectiveStepResult (s : ExecutionState) (stepId : String) : Option Value :=
  match s.activeFanoutOverrides.lookup stepId with
  | some branch => some (.ofNat branch)
  | none => s.stepResults.get? stepId

/-- A step's result reads as `v`: in a template, in a structural expression and from a body. -/
structure ReadsAs (s : ExecutionState) (id : String) (v : Value) : Prop where
  template : ∀ path, s.templateValue ⟨.steps id, .field "result" :: path⟩ = collapse (select path [v])
  structural : ∀ source path,
    s.structuralValue source ⟨.steps id, .field "result" :: path⟩ = collapse (select path [v])
  body : s.effectiveStepResult id = some v

section Reads

variable {s : ExecutionState} {id : String} {v w stored : Value}

/-- A stored result reads as the override, if there is one. -/
theorem readsAs_effectiveResult (h : s.stepResults.get? id = some stored) :
    ReadsAs s id (s.effectiveResult id stored) := by
  have hview : s.buildDslStepsView.get id = some (s.wrapStep id (s.effectiveResult id stored)) := by
    rw [ExecutionState.buildDslStepsView_get, h]
    rfl
  have hwrap : (s.wrapStep id (s.effectiveResult id stored)).get "result" =
      some (s.effectiveResult id stored) := by
    rw [ExecutionState.wrapStep, Value.get_object, AssocMap.lookup_insertSorted, beq_self_eq_true,
      if_pos rfl]
  have hstructural : ∀ source path,
      s.structuralValue source ⟨.steps id, .field "result" :: path⟩ =
        collapse (select path [s.effectiveResult id stored]) := by
    intro source path
    have hfield : applyOne (.field "result") (s.wrapStep id (s.effectiveResult id stored)) =
        [s.effectiveResult id stored] := by
      have happ : applyOne (.field "result") (s.wrapStep id (s.effectiveResult id stored)) =
        ((s.wrapStep id (s.effectiveResult id stored)).get "result").toList := rfl
      rw [happ, hwrap]
      rfl
    simp only [ExecutionState.structuralValue, ExecutionState.evalReference_eq, resolveRoot,
      ExecutionState.structuralContext, Option.bind_some, hview, Option.toList_some, select_cons,
      applySegment_singleton, hfield]
  refine ⟨fun path => ?_, hstructural, ?_⟩
  · rw [s.templateValue_namespace none _ (.inr (.inr (.inr ⟨id, rfl⟩)))]
    exact hstructural none path
  · unfold ExecutionState.effectiveStepResult ExecutionState.effectiveResult
    cases s.activeFanoutOverrides.lookup id with
    | some branch => rfl
    | none => exact h

/-- A result reads as one value only. -/
theorem ReadsAs.unique (h : ReadsAs s id v) (h' : ReadsAs s id w) : v = w :=
  Option.some.inj (h.body.symm.trans h'.body)

theorem readsAs_override {branch : Nat} (h : s.stepResults.get? id = some stored)
    (hoverride : s.activeFanoutOverrides.lookup id = some branch) :
    ReadsAs s id (.ofNat branch) := by
  have hreads := readsAs_effectiveResult h
  simpa [ExecutionState.effectiveResult, hoverride] using hreads

theorem readsAs_stored (h : s.stepResults.get? id = some stored)
    (hoverride : s.activeFanoutOverrides.lookup id = none) : ReadsAs s id stored := by
  have hreads := readsAs_effectiveResult h
  simpa [ExecutionState.effectiveResult, hoverride] using hreads

end Reads

/-! ### The overrides of a step -/

section Overrides

variable {action : Action} {plan : DagPlan} {fanout : List (Nat × List Nat)} {p idx : Nat}

theorem mem_consumersAt (hvalid : plan.Valid action.steps) (hp : p < action.steps.length) :
    idx ∈ plan.consumersAt p ↔ idx < action.steps.length ∧ p ∈ plan.depsOf idx := by
  unfold DagPlan.consumersAt
  rw [hvalid.consumers_eq p hp, List.mem_filter, List.mem_range, List.contains_iff_mem]

theorem nodup_consumersAt (hvalid : plan.Valid action.steps) (hp : p < action.steps.length) :
    (plan.consumersAt p).Nodup := by
  unfold DagPlan.consumersAt
  rw [hvalid.consumers_eq p hp]
  exact List.nodup_range.filter _

/-- Steps of one id are one step. -/
theorem stepAt_inj (hvalid : plan.Valid action.steps) {i j : Nat} (hi : i < action.steps.length)
    (hj : j < action.steps.length) (h : (action.stepAt i).id = (action.stepAt j).id) : i = j := by
  have hid : ∀ {k : Nat}, k < action.steps.length →
      (action.steps.map (·.id))[k]? = some (action.stepAt k).id := by
    intro k hk
    rw [List.getElem?_map, Action.stepAt, List.getD_eq_getElem _ _ hk, List.getElem?_eq_getElem hk]
    rfl
  refine (List.getElem?_inj (by simpa using hi) hvalid.nodup_ids).mp ?_
  rw [hid hi, hid hj, h]

/-- Of a list of entries under keys that tell their origins apart, a key finds the entry of its
origin. -/
theorem lookup_filterMap {key : Nat → String} {entry : Nat → Option Nat} {l : List Nat}
    (hkey : ∀ i ∈ l, key i = key p → i = p) :
    (l.filterMap fun i => (entry i).map fun b => (key i, b)).lookup (key p) =
      if p ∈ l then entry p else none := by
  induction l with
  | nil => rfl
  | cons i rest ih =>
    have hrest := ih fun j hj => hkey j (List.mem_cons_of_mem _ hj)
    by_cases hip : i = p
    · subst hip
      rw [if_pos List.mem_cons_self]
      cases hentry : entry i with
      | some b => simp [hentry]
      | none =>
        rw [List.filterMap_cons_none (by simp [hentry]), hrest, hentry, ite_self]
    · have hne : key p ≠ key i := fun heq => hip (hkey i List.mem_cons_self heq.symm)
      have hmem : p ∈ i :: rest ↔ p ∈ rest := by simp [Ne.symm hip]
      simp only [hmem]
      cases hentry : entry i with
      | some b =>
        rw [List.filterMap_cons_some (by simp [hentry]; rfl), List.lookup_cons,
          beq_eq_false_iff_ne.mpr hne]
        exact hrest
      | none => rw [List.filterMap_cons_none (by simp [hentry]), hrest]

/-- What a step sees in place of a producer's result: of its branches, the one at the place the step
has among the consumers. -/
theorem lookup_fanoutOverrides (hvalid : plan.Valid action.steps) (hp : p < action.steps.length)
    (hidx : idx < action.steps.length) :
    (fanoutOverrides plan action fanout idx).lookup (action.stepAt p).id =
      (fanout.lookup p).bind fun branches =>
        ((plan.consumersAt p).idxOf? idx).bind fun pos => branches[pos]? := by
  have hentries : fanoutOverrides plan action fanout idx = (plan.depsOf idx).filterMap fun dep =>
      ((fanout.lookup dep).bind fun branches =>
        ((plan.consumersAt dep).idxOf? idx).bind fun pos => branches[pos]?).map fun branch =>
          ((action.stepAt dep).id, branch) := by
    unfold fanoutOverrides
    refine List.filterMap_congr fun dep _ => ?_
    cases fanout.lookup dep with
    | none => rfl
    | some branches => cases (plan.consumersAt dep).idxOf? idx <;> rfl
  have hkeys : ∀ dep ∈ plan.depsOf idx, (action.stepAt dep).id = (action.stepAt p).id → dep = p :=
    fun dep hdep => stepAt_inj hvalid ((hvalid.deps_lt idx hidx dep hdep).trans hidx) hp
  rw [hentries, @lookup_filterMap p (fun i => (action.stepAt i).id) _ _ hkeys]
  split
  · rfl
  · rename_i hnot
    have hother : idx ∉ plan.consumersAt p := fun hmem =>
      hnot ((mem_consumersAt hvalid hp).mp hmem).2
    rw [List.idxOf?_eq_none_iff.mpr hother]
    cases fanout.lookup p <;> rfl

end Overrides

end Gwead
