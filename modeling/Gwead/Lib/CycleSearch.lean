import Gwead.Lib.DepthFirst
import Mathlib.Data.List.Chain

/-!
# The cycle a depth-first search reports

The search with what it leaves out when it is known to be right: a gray node that is not on the
stack, and rounds that run out.  Neither happens, and a cycle that is reported is a closed walk.
-/

namespace DepthFirst

variable {α : Type} [DecidableEq α]

/-- `lost` is a gray node that is not on the stack, `running` a loop that has not ended. -/
inductive Outcome (α : Type) where
  | cycle (nodes : List α)
  | done (colors : Colors α)
  | lost
  | running

/-- The part of the stack, bottom first, from a node on, and back to it. -/
def closeCycle (stack : List α) (m : α) : Option (List α) :=
  (stack.idxOf? m).map fun i => stack.drop i ++ [m]

/-- So many rounds of the loop. -/
def explore (succ : α → List α) : Nat → Colors α → List (α × Nat) → Outcome α
  | 0, _, _ => .running
  | _ + 1, color, [] => .done color
  | rounds + 1, color, (node, next) :: rest =>
    match (succ node)[next]? with
    | none => explore succ rounds (AssocMap.put node .black color) rest
    | some m =>
      match color.lookup m with
      | none => explore succ rounds (AssocMap.put m .gray color) ((m, 0) :: (node, next + 1) :: rest)
      | some .gray =>
        match closeCycle (node :: rest.map Prod.fst).reverse m with
        | some nodes => .cycle nodes
        | none => .lost
      | some .black => explore succ rounds color ((node, next + 1) :: rest)

/-- Search from each start that has not been coloured: the cycle found, if any. -/
def searchAll (succ : α → List α) (rounds : Nat) : Colors α → List α → Option (Option (List α))
  | _, [] => some none
  | color, s :: rest =>
    if (color.lookup s).isSome then searchAll succ rounds color rest
    else
      match explore succ rounds (AssocMap.put s .gray color) [(s, 0)] with
      | .cycle nodes => some (some nodes)
      | .done color' => searchAll succ rounds color' rest
      | .lost => none
      | .running => none

/-- Consecutive nodes are joined by edges, and the last is the first. -/
structure ClosedWalk (r : α → α → Prop) (path : List α) : Prop where
  length : 2 ≤ path.length
  edges : path.IsChain r
  closed : path.getLast? = path.head?

omit [DecidableEq α] in
theorem transGen_getLast {r : α → α → Prop} {a b : α} {rest : List α}
    (h : (a :: b :: rest).IsChain r) : Relation.TransGen r a ((b :: rest).getLast (by simp)) := by
  induction rest generalizing a b with
  | nil => exact .single (List.isChain_pair.mp h)
  | cons c rest ih =>
    obtain ⟨hab, hrest⟩ := List.isChain_cons_cons.mp h
    have hlast : (b :: c :: rest).getLast (by simp) = (c :: rest).getLast (by simp) :=
      List.getLast_cons (by simp)
    rw [hlast]
    exact .head hab (ih hrest)

omit [DecidableEq α] in
/-- A closed walk is a cycle of the relation. -/
theorem ClosedWalk.cycle {r : α → α → Prop} {path : List α} (h : ClosedWalk r path) :
    ∃ a, Relation.TransGen r a a := by
  obtain ⟨hlength, hedges, hclosed⟩ := h
  match path with
  | [] => simp at hlength
  | [a] => simp at hlength
  | a :: b :: rest =>
    have hlast : (b :: rest).getLast (by simp) = a := by
      rw [List.getLast?_eq_some_getLast (by simp), List.head?_cons, Option.some_inj,
        List.getLast_cons (by simp)] at hclosed
      exact hclosed
    have hwalk := transGen_getLast hedges
    rw [hlast] at hwalk
    exact ⟨a, hwalk⟩

/-- Every entry of a stack, top first, is a successor of the one below it. -/
def Linked (succ : α → List α) (stack : List (α × Nat)) : Prop :=
  (stack.map Prod.fst).IsChain fun above below => Edge succ below above

section Outcome

variable {succ : α → List α} {nodes : List α}

omit [DecidableEq α] in
theorem linked_push {node m : α} {i j : Nat} {rest : List (α × Nat)}
    (h : Linked succ ((node, i) :: rest)) (hm : m ∈ succ node) :
    Linked succ ((m, 0) :: (node, j) :: rest) := by
  unfold Linked at h ⊢
  rw [List.map_cons, List.map_cons, List.isChain_cons_cons]
  exact ⟨hm, h⟩

/-- An edge from the top of the stack to a node on it closes a walk. -/
theorem closeCycle_spec {top m : α} {below : List α}
    (hchain : (top :: below).IsChain fun above under => Edge succ under above)
    (hm : m ∈ top :: below) (hedge : m ∈ succ top) :
    ∃ path, closeCycle (top :: below).reverse m = some path ∧ ClosedWalk (Edge succ) path := by
  have hstack : (top :: below).reverse.IsChain (Edge succ) := List.isChain_reverse.mpr hchain
  have htop : (top :: below).reverse.getLast? = some top := by simp
  have hmem : m ∈ (top :: below).reverse := List.mem_reverse.mpr hm
  generalize (top :: below).reverse = stack at hstack htop hmem ⊢
  cases hidx : stack.idxOf? m with
  | none => exact absurd hmem (List.idxOf?_eq_none_iff.mp hidx)
  | some i =>
    obtain ⟨hi, hget, -⟩ := List.idxOf?_eq_some_iff.mp hidx
    have hdrop : stack.drop i = m :: stack.drop (i + 1) := by
      rw [List.drop_eq_getElem_cons hi, hget]
    have hlast : (stack.drop i).getLast? = some top := by
      rw [List.getLast?_drop, if_neg (Nat.not_le.mpr hi), htop]
    refine ⟨stack.drop i ++ [m], by rw [closeCycle, hidx]; rfl, ?_, ?_, ?_⟩
    · rw [hdrop]
      simp
    · refine List.isChain_append.mpr ⟨hstack.drop i, .singleton m, fun x hx y hy => ?_⟩
      obtain rfl : x = top := by simpa [hlast, eq_comm] using hx
      obtain rfl : y = m := by simpa [eq_comm] using hy
      exact hedge
    · rw [hdrop, List.getLast?_append]
      rfl

/-- Where the nodes on the stack are distinct, the part of it from a node on is the part above that
node, turned over. -/
theorem closeCycle_eq {stack : List α} (hdistinct : stack.Nodup) {m : α} (hm : m ∈ stack) :
    closeCycle stack.reverse m = some (m :: ((stack.takeWhile (· != m)).reverse ++ [m])) := by
  obtain ⟨above, below, rfl⟩ := List.append_of_mem hm
  obtain ⟨-, hbelow, hcross⟩ := List.nodup_append.mp hdistinct
  have habove : ∀ x ∈ above, x ≠ m := fun x hx heq => hcross x hx m List.mem_cons_self heq
  have hfresh : m ∉ below := (List.nodup_cons.mp hbelow).1
  have htake : (above ++ m :: below).takeWhile (· != m) = above := by
    rw [List.takeWhile_append_of_pos fun x hx => by simpa using habove x hx]
    simp
  have hreverse : (above ++ m :: below).reverse = below.reverse ++ m :: above.reverse := by simp
  have hidx : (below.reverse ++ m :: above.reverse).idxOf? m = some below.length := by
    refine List.idxOf?_eq_some_iff.mpr ⟨by simp, by simp, fun j hj heq => ?_⟩
    rw [List.getElem_append_left (by simpa using hj)] at heq
    exact hfresh (List.mem_reverse.mp (heq ▸ List.getElem_mem _))
  rw [htake, closeCycle, hreverse, hidx, Option.map_some, List.drop_left' (by simp)]
  rfl

variable (hnodup : nodes.Nodup) (hclosed : ∀ n ∈ nodes, ∀ m ∈ succ n, m ∈ nodes)
include hnodup hclosed

/-- The loop ends, with a closed walk or with nothing left to explore: the lookup on the stack does
not fail. -/
theorem explore_outcome {rounds fuel : Nat} {color : Colors α} {stack : List (α × Nat)}
    (h : Explored succ nodes color stack) (hlinked : Linked succ stack)
    (hrounds : remaining succ nodes color stack < rounds)
    (hfuel : remaining succ nodes color stack ≤ fuel) :
    (∃ path, explore succ rounds color stack = .cycle path ∧ loop succ fuel color stack = .cycle path ∧
      ClosedWalk (Edge succ) path) ∨
      ∃ color', explore succ rounds color stack = .done color' ∧
        loop succ fuel color stack = .done color' := by
  induction rounds generalizing fuel color stack with
  | zero => omega
  | succ rounds ih =>
    cases stack with
    | nil =>
      refine .inr ⟨color, rfl, ?_⟩
      cases fuel <;> rfl
    | cons e rest =>
      obtain ⟨node, next⟩ := e
      have hgray : color.lookup node = some .gray := (h.gray node).mpr (by simp)
      have hunfold : ∀ i, remaining succ nodes color ((node, i) :: rest) =
          remaining succ nodes color rest + ((succ node).length - i + 1) := by
        intro i
        simp only [remaining, List.map_cons, List.sum_cons]
        omega
      rw [hunfold] at hrounds hfuel
      obtain ⟨fuel, rfl⟩ : ∃ k, fuel = k + 1 := ⟨fuel - 1, by omega⟩
      rw [explore, loop]
      cases hget : (succ node)[next]? with
      | none =>
        have hend := List.getElem?_eq_none_iff.mp hget
        have hrecolor : remaining succ nodes (AssocMap.put node .black color) rest =
            remaining succ nodes color rest := remaining_recolor succ (by rw [hgray]; rfl) rest
        exact ih (explored_finish h hend) hlinked.tail (by omega) (by omega)
      | some m =>
        have hlt : next < (succ node).length := (List.getElem?_eq_some_iff.mp hget).1
        have hedge : m ∈ succ node := List.mem_of_getElem? hget
        have hm : m ∈ nodes := hclosed node (h.inside node (by simp)) m hedge
        have hadvance := hunfold (next + 1)
        cases hcolor : color.lookup m with
        | none =>
          simp only [hcolor]
          have hpush := remaining_push succ hnodup hm hcolor .gray ((node, next + 1) :: rest)
          exact ih (explored_push h hget hm hcolor) (linked_push hlinked hedge) (by omega) (by omega)
        | some c =>
          cases c with
          | gray =>
            have hon := (h.gray m).mp hcolor
            obtain ⟨path, hpath, hwalk⟩ := closeCycle_spec hlinked hon hedge
            have hloop := hpath.symm.trans (closeCycle_eq h.distinct hon)
            simp only [hcolor]
            refine .inl ⟨path, ?_, ?_, hwalk⟩
            · rw [hpath]
            · rw [Option.some.inj hloop]
              rfl
          | black =>
            simp only [hcolor]
            exact ih (explored_skip h hget hcolor) hlinked (by omega) (by omega)

/-- The search ends, and what it finds is a closed walk. -/
theorem searchAll_outcome {rounds fuel : Nat} (hrounds : iterations succ nodes < rounds)
    (hfuel : iterations succ nodes ≤ fuel) {color : Colors α} {starts : List α}
    (hstarts : ∀ s ∈ starts, s ∈ nodes) (h : Explored succ nodes color []) :
    searchAll succ rounds color starts = some (searchFrom succ fuel color starts) ∧
      ∀ path, searchFrom succ fuel color starts = some path → ClosedWalk (Edge succ) path := by
  induction starts generalizing color with
  | nil => exact ⟨rfl, nofun⟩
  | cons s rest ih =>
    obtain ⟨hs, hrest⟩ := List.forall_mem_cons.mp hstarts
    rw [searchAll, searchFrom]
    by_cases hseen : (color.lookup s).isSome = true
    · rw [if_pos hseen, if_pos hseen]
      exact ih hrest h
    · rw [if_neg hseen, if_neg hseen]
      have hcolor : color.lookup s = none := Option.not_isSome_iff_eq_none.mp hseen
      have hstart := explored_start h hs hcolor
      have hbound : remaining succ nodes (AssocMap.put s .gray color) [(s, 0)] ≤
          iterations succ nodes := remaining_start hnodup hs hcolor
      rcases explore_outcome hnodup hclosed hstart (.singleton s) (hbound.trans_lt hrounds)
        (hbound.trans hfuel) with ⟨path, hpath, hloop, hwalk⟩ | ⟨color', hdone, hloop⟩
      · rw [hpath, hloop]
        refine ⟨rfl, fun p hp => ?_⟩
        obtain rfl := Option.some.inj hp
        exact hwalk
      · rw [hdone, hloop]
        obtain ⟨hex, -⟩ := loop_done hnodup hclosed hstart (hbound.trans hfuel) hloop
        exact ih hrest hex

end Outcome

end DepthFirst
