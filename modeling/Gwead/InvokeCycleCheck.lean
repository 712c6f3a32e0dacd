import Gwead.InvokeGraph
import Gwead.Lib.CycleSearch

/-!
# The verdict of the cycle check

The check with the order of the hash map's keys, the lookup it expects to succeed and the rounds of
its loops left open.  None of them matters.
-/

namespace Gwead

open DepthFirst

/-- `check_acyclic` when the keys of the adjacency map come in the order `starts`, with so many
rounds of the loop for each of them: none where the loop has not ended or a gray node is not found on
the stack. -/
def checkAcyclicIn (starts : List NodeRef) (rounds : Nat) (existing newEdges : List InvokeEdge) :
    Option (Except InvokeCycleError Unit) :=
  (searchAll (successors (existing ++ newEdges)) rounds [] starts).map fun
    | some nodes => .error (.cycle nodes)
    | none => .ok ()

section Verdict

variable {existing newEdges : List InvokeEdge}

/-- The rounds that are always enough. -/
def enoughRounds (edges : List InvokeEdge) : Nat := iterations (successors edges) (edgeNodes edges)

/-- A closed walk in the relation of successors is one along edges. -/
theorem closedWalk_edges {edges : List InvokeEdge} {path : List NodeRef}
    (h : ClosedWalk (Edge (successors edges)) path) : ClosedWalk (EdgeBetween edges) path :=
  ⟨h.length, h.edges.imp fun _ _ hedge => mem_successors.mp hedge, h.closed⟩

/-- In whatever order, the search finds nothing exactly when there is no cycle. -/
theorem searchFrom_none_iff {edges : List InvokeEdge} {starts : List NodeRef}
    (hstarts : starts.Perm (edgeSources edges)) :
    searchFrom (successors edges) (enoughRounds edges) [] starts = none ↔ Acyclic edges := by
  have hinside : ∀ s ∈ starts, s ∈ edgeNodes edges := fun s hs =>
    edgeSources_mem_edgeNodes (hstarts.mem_iff.mp hs)
  constructor
  · intro hnone a hcycle
    refine acyclic_of_searchFrom (nodup_edgeNodes _) (fun _ _ _ => successors_mem_edgeNodes) hinside
      (fun _ hn => hstarts.mem_iff.mpr (mem_edgeSources hn)) le_rfl hnone a ?_
    exact Relation.TransGen.mono (fun x y hxy => mem_successors.mpr hxy) _ _ hcycle
  · intro hacyclic
    cases hfound : searchFrom (successors edges) (enoughRounds edges) [] starts with
    | none => rfl
    | some path =>
      have hwalk := (searchAll_outcome (nodup_edgeNodes edges)
        (fun _ _ _ => successors_mem_edgeNodes) (Nat.lt_succ_self _) le_rfl hinside
          explored_nothing).2 path hfound
      obtain ⟨a, hcycle⟩ := (closedWalk_edges hwalk).cycle
      exact absurd hcycle (hacyclic a)

/-- Registration lets through exactly the edges that close no cycle. -/
theorem checkAcyclic_ok_iff :
    checkAcyclic existing newEdges = .ok () ↔ Acyclic (existing ++ newEdges) := by
  rw [← searchFrom_none_iff (List.Perm.refl _), checkAcyclic, findCycle, ← enoughRounds]
  cases searchFrom (successors (existing ++ newEdges)) (enoughRounds (existing ++ newEdges)) []
    (edgeSources (existing ++ newEdges)) with
  | none => simp
  | some nodes => simp

/-- In every order of the nodes with edges the check ends, accepts exactly the graphs without a
cycle, and reports a closed walk along edges where it refuses one. -/
theorem check_acyclic_correct (existing newEdges : List InvokeEdge) {starts : List NodeRef}
    (hstarts : starts.Perm (edgeSources (existing ++ newEdges))) :
    ∃ verdict, (∀ rounds > enoughRounds (existing ++ newEdges),
        checkAcyclicIn starts rounds existing newEdges = some verdict) ∧
      (verdict = .ok () ↔ Acyclic (existing ++ newEdges)) ∧
      ∀ e, verdict = .error e →
        ∃ path, e = .cycle path ∧ ClosedWalk (EdgeBetween (existing ++ newEdges)) path := by
  have hinside : ∀ s ∈ starts, s ∈ edgeNodes (existing ++ newEdges) := fun s hs =>
    edgeSources_mem_edgeNodes (hstarts.mem_iff.mp hs)
  have hsearch := fun rounds (hrounds : enoughRounds (existing ++ newEdges) < rounds) =>
    searchAll_outcome (nodup_edgeNodes (existing ++ newEdges))
      (fun _ _ _ => successors_mem_edgeNodes) hrounds le_rfl hinside explored_nothing
  cases hfound : searchFrom (successors (existing ++ newEdges))
      (enoughRounds (existing ++ newEdges)) [] starts with
  | none =>
    have hacyclic := (searchFrom_none_iff hstarts).mp hfound
    refine ⟨.ok (), fun rounds hrounds => ?_, iff_of_true rfl hacyclic, nofun⟩
    rw [checkAcyclicIn, (hsearch rounds hrounds).1, ← enoughRounds, hfound]
    rfl
  | some path =>
    have hcyclic : ¬Acyclic (existing ++ newEdges) := by
      rw [← searchFrom_none_iff hstarts, hfound]
      exact Option.some_ne_none path
    refine ⟨.error (.cycle path), fun rounds hrounds => ?_, iff_of_false nofun hcyclic,
      fun e he => ⟨path, (Except.error.inj he).symm, ?_⟩⟩
    · rw [checkAcyclicIn, (hsearch rounds hrounds).1, ← enoughRounds, hfound]
      rfl
    · exact closedWalk_edges ((hsearch _ (Nat.lt_succ_self _)).2 path hfound)

/-- Two actions that invoke each other, with the keys in the other order. -/
theorem check_acyclic_mutual : ∃ verdict,
    checkAcyclicIn [("b", "run"), ("a", "run")] 10 [⟨("a", "run"), ("b", "run")⟩]
      [⟨("b", "run"), ("a", "run")⟩] = some verdict ∧ verdict ≠ .ok () := by
  obtain ⟨verdict, hreturns, haccepts, -⟩ := @check_acyclic_correct
    [⟨("a", "run"), ("b", "run")⟩] [⟨("b", "run"), ("a", "run")⟩] [("b", "run"), ("a", "run")]
    (by decide)
  refine ⟨verdict, hreturns 10 (by decide), fun hok => ?_⟩
  have hedge : ∀ x y : NodeRef, (⟨x, y⟩ : InvokeEdge) ∈ [⟨("a", "run"), ("b", "run")⟩,
      ⟨("b", "run"), ("a", "run")⟩] → EdgeBetween ([⟨("a", "run"), ("b", "run")⟩] ++
        [⟨("b", "run"), ("a", "run")⟩]) x y := fun _ _ h => h
  exact haccepts.mp hok ("a", "run") (.head (hedge _ ("b", "run") (by simp))
    (.single (hedge _ _ (by simp))))

end Verdict

end Gwead
