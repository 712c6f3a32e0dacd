import Gwead.Lib.AssocMap
import Mathlib.Algebra.Order.BigOperators.Group.List
import Mathlib.Algebra.Order.Group.Nat
import Mathlib.Data.List.Dedup
import Mathlib.Logic.Relation

/-!
# Depth-first search for a cycle

An iterative search with two colours: a node is gray while it is on the stack and black once all
its successors have been explored.  The black nodes, last finished first, are a topological
order, so a search that finds no gray successor proves the graph acyclic.
-/

namespace DepthFirst

variable {α : Type} [DecidableEq α]

inductive Color where
  | gray | black
  deriving DecidableEq

abbrev Colors (α : Type) := List (α × Color)

inductive Verdict (α : Type) where
  | cycle (nodes : List α)
  | done (colors : Colors α)

/-- Explore until the stack, top first, is empty.  An entry of it is a node and the index of its
next successor. -/
def loop (succ : α → List α) : Nat → Colors α → List (α × Nat) → Verdict α
  | 0, color, _ => .done color
  | _ + 1, color, [] => .done color
  | fuel + 1, color, (node, next) :: rest =>
    match (succ node)[next]? with
    | none => loop succ fuel (AssocMap.put node .black color) rest
    | some m =>
      match color.lookup m with
      | none => loop succ fuel (AssocMap.put m .gray color) ((m, 0) :: (node, next + 1) :: rest)
      | some .gray =>
        .cycle (m :: (((node :: rest.map Prod.fst).takeWhile (· != m)).reverse ++ [m]))
      | some .black => loop succ fuel color ((node, next + 1) :: rest)

/-- Search from each start that has not been coloured. -/
def searchFrom (succ : α → List α) (fuel : Nat) : Colors α → List α → Option (List α)
  | _, [] => none
  | color, s :: rest =>
    if (color.lookup s).isSome then searchFrom succ fuel color rest
    else
      match loop succ fuel (AssocMap.put s .gray color) [(s, 0)] with
      | .cycle c => some c
      | .done color' => searchFrom succ fuel color' rest

def weight (succ : α → List α) (n : α) : Nat := (succ n).length + 1

/-- The number of iterations that suffices: one for each node and one for each edge. -/
def iterations (succ : α → List α) (nodes : List α) : Nat := (nodes.map (weight succ)).sum

def findCycle (succ : α → List α) (nodes starts : List α) : Option (List α) :=
  searchFrom succ (iterations succ nodes) [] starts

/-! ### Topological orders -/

/-- Every node's successors come after it in the list. -/
inductive Topo (succ : α → List α) : List α → Prop
  | nil : Topo succ []
  | cons {n : α} {order : List α} : (∀ m ∈ succ n, m ∈ order) → Topo succ order →
      Topo succ (n :: order)

def Edge (succ : α → List α) (a b : α) : Prop := b ∈ succ a

omit [DecidableEq α] in
theorem Topo.succ_mem {succ : α → List α} {order : List α} (h : Topo succ order) {a b : α}
    (ha : a ∈ order) (hab : Edge succ a b) : b ∈ order := by
  induction h with
  | nil => cases ha
  | cons hsucc _ ih =>
    rcases List.mem_cons.mp ha with rfl | ha
    · exact List.mem_cons_of_mem _ (hsucc b hab)
    · exact List.mem_cons_of_mem _ (ih ha)

omit [DecidableEq α] in
theorem Topo.closed {succ : α → List α} {order : List α} (h : Topo succ order) {a b : α}
    (ha : a ∈ order) (hab : Relation.TransGen (Edge succ) a b) : b ∈ order := by
  induction hab with
  | single hab => exact h.succ_mem ha hab
  | tail _ hbc ih => exact h.succ_mem ih hbc

omit [DecidableEq α] in
theorem Topo.acyclic {succ : α → List α} {order : List α} (h : Topo succ order) {a : α}
    (ha : a ∈ order) : ¬ Relation.TransGen (Edge succ) a a := by
  induction h generalizing a with
  | nil => cases ha
  | @cons n rest hsucc hrest ih =>
    by_cases hmem : a ∈ rest
    · exact ih hmem
    · intro hcycle
      have han : a = n := (List.mem_cons.mp ha).resolve_right hmem
      subst han
      -- the first edge of the cycle leads into the rest, which is closed
      obtain ⟨b, hab, hba⟩ := Relation.TransGen.head'_iff.mp hcycle
      have hb : b ∈ rest := hsucc b hab
      rcases Relation.ReflTransGen.cases_head hba with rfl | ⟨c, hbc, hca⟩
      · exact hmem hb
      · exact hmem (hrest.closed hb (Relation.TransGen.head'_iff.mpr ⟨c, hbc, hca⟩))

/-! ### The invariant of the search -/

/-- What is already explored of each entry below the top: black, or the entry above it. -/
def Pending (succ : α → List α) (black : α → Prop) : α → List (α × Nat) → Prop
  | _, [] => True
  | child, (u, i) :: rest =>
    (∀ m ∈ (succ u).take i, black m ∨ m = child) ∧ Pending succ black u rest

def Progress (succ : α → List α) (black : α → Prop) : List (α × Nat) → Prop
  | [] => True
  | (u, i) :: rest => (∀ m ∈ (succ u).take i, black m) ∧ Pending succ black u rest

structure Explored (succ : α → List α) (nodes : List α) (color : Colors α)
    (stack : List (α × Nat)) : Prop where
  order : ∃ order, Topo succ order ∧ ∀ n, color.lookup n = some .black ↔ n ∈ order
  gray : ∀ n, color.lookup n = some .gray ↔ n ∈ stack.map Prod.fst
  distinct : (stack.map Prod.fst).Nodup
  progress : Progress succ (fun n => color.lookup n = some .black) stack
  inside : ∀ n ∈ stack.map Prod.fst, n ∈ nodes

omit [DecidableEq α] in
theorem Pending.mono {succ : α → List α} {black black' : α → Prop}
    (hle : ∀ n, black n → black' n) {child : α} {stack : List (α × Nat)}
    (h : Pending succ black child stack) : Pending succ black' child stack := by
  induction stack generalizing child with
  | nil => trivial
  | cons e rest ih => exact ⟨fun m hm => (h.1 m hm).imp_left (hle m), ih h.2⟩

omit [DecidableEq α] in
/-- When the top is done, it counts as explored for the entry below it. -/
theorem Pending.pop {succ : α → List α} {black black' : α → Prop}
    (hle : ∀ n, black n → black' n) {child : α} (hchild : black' child)
    {stack : List (α × Nat)} (h : Pending succ black child stack) :
    Progress succ black' stack := by
  cases stack with
  | nil => trivial
  | cons e rest =>
    refine ⟨?_, h.2.mono hle⟩
    intro m hm
    rcases h.1 m hm with hb | rfl
    · exact hle m hb
    · exact hchild

/-! ### The iterations that are left -/

/-- One for each uncoloured node and each edge out of it, and for each entry of the stack one
more than the successors it has left. -/
def remaining (succ : α → List α) (nodes : List α) (color : Colors α) (stack : List (α × Nat)) :
    Nat :=
  iterations succ (nodes.filter fun n => (color.lookup n).isNone) +
    (stack.map fun e => (succ e.1).length - e.2 + 1).sum

omit [DecidableEq α] in
theorem iterations_filter_and_ne [DecidableEq α] (succ : α → List α) (p : α → Bool) {m : α}
    (hp : p m = true) {nodes : List α} (hn : nodes.Nodup) (hm : m ∈ nodes) :
    iterations succ (nodes.filter p) =
      iterations succ (nodes.filter fun n => p n && n != m) + weight succ m := by
  induction nodes with
  | nil => cases hm
  | cons a rest ih =>
    rw [List.nodup_cons] at hn
    by_cases ham : a = m
    · subst ham
      have hrest : (rest.filter fun n => p n && n != a) = rest.filter p := by
        apply List.filter_congr
        intro n hmem
        have hne : n ≠ a := fun h => hn.1 (h ▸ hmem)
        simp [hne]
      simp [iterations, hp, hrest, Nat.add_comm]
    · have hmem : m ∈ rest := (List.mem_cons.mp hm).resolve_left (Ne.symm ham)
      have := ih hn.2 hmem
      simp only [iterations] at this ⊢
      by_cases hpa : p a = true
      · simp [hpa, ham, this, Nat.add_assoc]
      · simp [hpa, this]

theorem remaining_push (succ : α → List α) {nodes : List α} (hn : nodes.Nodup)
    {color : Colors α} {m : α} (hm : m ∈ nodes) (hcolor : color.lookup m = none)
    (c : Color) (stack : List (α × Nat)) :
    remaining succ nodes (AssocMap.put m c color) ((m, 0) :: stack) =
      remaining succ nodes color stack := by
  have hfilter : (nodes.filter fun n => ((AssocMap.put m c color).lookup n).isNone) =
      nodes.filter fun n => (color.lookup n).isNone && n != m := by
    apply List.filter_congr
    intro n _
    by_cases hnm : n = m
    · simp [AssocMap.lookup_put, hnm]
    · simp [AssocMap.lookup_put, hnm]
  have hsplit := iterations_filter_and_ne succ (fun n => (color.lookup n).isNone)
    (by simp [hcolor]) hn hm
  simp only [remaining, hfilter, hsplit, List.map_cons, List.sum_cons, weight]
  omega

theorem remaining_recolor (succ : α → List α) {nodes : List α} {color : Colors α} {m : α}
    {c : Color} (hcolor : (color.lookup m).isSome) (stack : List (α × Nat)) :
    remaining succ nodes (AssocMap.put m c color) stack = remaining succ nodes color stack := by
  have hfilter : (nodes.filter fun n => ((AssocMap.put m c color).lookup n).isNone) =
      nodes.filter fun n => (color.lookup n).isNone := by
    apply List.filter_congr
    intro n _
    by_cases hnm : n = m
    · subst hnm
      simpa [AssocMap.lookup_put] using hcolor
    · simp [AssocMap.lookup_put, hnm]
  rw [remaining, hfilter, remaining]

/-! ### Soundness -/

section Soundness

variable {succ : α → List α} {nodes : List α}

theorem explored_start {color : Colors α} (h : Explored succ nodes color []) {s : α}
    (hs : s ∈ nodes) (hcolor : color.lookup s = none) :
    Explored succ nodes (AssocMap.put s .gray color) [(s, 0)] := by
  obtain ⟨order, htopo, hblack⟩ := h.order
  have hnotin : s ∉ order := by
    rw [← hblack, hcolor]
    exact nofun
  refine ⟨⟨order, htopo, ?_⟩, ?_, by simp, ⟨by simp, trivial⟩, by simpa using hs⟩
  · intro n
    rw [AssocMap.lookup_put, ← hblack]
    by_cases hn : n = s
    · subst hn
      simp [hcolor]
    · simp [hn]
  · intro n
    have hgray := h.gray n
    rw [AssocMap.lookup_put]
    by_cases hn : n = s
    · simp [hn]
    · simpa [hn] using hgray

theorem explored_finish {color : Colors α} {node : α} {next : Nat} {rest : List (α × Nat)}
    (h : Explored succ nodes color ((node, next) :: rest)) (hend : (succ node).length ≤ next) :
    Explored succ nodes (AssocMap.put node .black color) rest := by
  obtain ⟨order, htopo, hblack⟩ := h.order
  have hnodup := List.nodup_cons.mp h.distinct
  have hsucc : ∀ m ∈ succ node, m ∈ order := by
    intro m hm
    rw [← hblack]
    exact h.progress.1 m (by rwa [List.take_of_length_le hend])
  have hlookup : ∀ n, (AssocMap.put node .black color).lookup n = some .black ↔
      n ∈ node :: order := by
    intro n
    rw [AssocMap.lookup_put, List.mem_cons, ← hblack]
    by_cases hn : n = node <;> simp [hn]
  refine ⟨⟨node :: order, htopo.cons hsucc, hlookup⟩, ?_, hnodup.2, ?_, ?_⟩
  · intro n
    rw [AssocMap.lookup_put]
    by_cases hn : n = node
    · subst hn
      simpa using hnodup.1
    · have hgray := h.gray n
      simpa [hn] using hgray
  · apply h.progress.2.pop
    · intro n hn
      rw [hlookup]
      exact List.mem_cons_of_mem _ ((hblack n).mp hn)
    · exact (hlookup node).mpr List.mem_cons_self
  · intro n hn
    exact h.inside n (List.mem_cons_of_mem _ hn)

omit [DecidableEq α] in
theorem mem_take_succ_of_get {l : List α} {i : Nat} {m x : α} (hget : l[i]? = some m)
    (hx : x ∈ l.take (i + 1)) : x ∈ l.take i ∨ x = m := by
  rw [List.take_add_one, hget] at hx
  simpa using hx

theorem explored_push {color : Colors α} {node m : α} {next : Nat} {rest : List (α × Nat)}
    (h : Explored succ nodes color ((node, next) :: rest)) (hget : (succ node)[next]? = some m)
    (hm : m ∈ nodes) (hcolor : color.lookup m = none) :
    Explored succ nodes (AssocMap.put m .gray color) ((m, 0) :: (node, next + 1) :: rest) := by
  obtain ⟨order, htopo, hblack⟩ := h.order
  have hkeep : ∀ n, (AssocMap.put m .gray color).lookup n = some .black ↔
      color.lookup n = some .black := by
    intro n
    rw [AssocMap.lookup_put]
    by_cases hn : n = m
    · subst hn
      simp [hcolor]
    · simp [hn]
  have hnew : m ∉ ((node, next) :: rest).map Prod.fst := by
    rw [← h.gray, hcolor]
    exact nofun
  refine ⟨⟨order, htopo, fun n => (hkeep n).trans (hblack n)⟩, ?_, ?_, ⟨by simp, ?_, ?_⟩, ?_⟩
  · intro n
    have hgray := h.gray n
    rw [AssocMap.lookup_put]
    by_cases hn : n = m
    · simp [hn]
    · simpa [hn] using hgray
  · exact List.nodup_cons.mpr ⟨hnew, h.distinct⟩
  · intro x hx
    rcases mem_take_succ_of_get hget hx with hx | rfl
    · exact Or.inl ((hkeep x).mpr (h.progress.1 x hx))
    · exact Or.inr rfl
  · exact h.progress.2.mono fun n hn => (hkeep n).mpr hn
  · intro n hn
    rcases List.mem_cons.mp hn with rfl | hn
    · exact hm
    · exact h.inside n hn

theorem explored_skip {color : Colors α} {node m : α} {next : Nat} {rest : List (α × Nat)}
    (h : Explored succ nodes color ((node, next) :: rest)) (hget : (succ node)[next]? = some m)
    (hcolor : color.lookup m = some .black) :
    Explored succ nodes color ((node, next + 1) :: rest) := by
  refine ⟨h.order, h.gray, h.distinct, ⟨?_, h.progress.2⟩, h.inside⟩
  intro x hx
  rcases mem_take_succ_of_get hget hx with hx | rfl
  · exact h.progress.1 x hx
  · exact hcolor

theorem lookup_put_isSome {color : Colors α} {n m : α} {c : Color}
    (h : (color.lookup n).isSome) : ((AssocMap.put m c color).lookup n).isSome := by
  rw [AssocMap.lookup_put]
  split
  · rfl
  · exact h

/-- A loop with fuel for what is left ends with an empty stack, and uncolours no node. -/
theorem loop_done (hnodup : nodes.Nodup) (hclosed : ∀ n ∈ nodes, ∀ m ∈ succ n, m ∈ nodes)
    {fuel : Nat} {color color' : Colors α} {stack : List (α × Nat)}
    (h : Explored succ nodes color stack) (hfuel : remaining succ nodes color stack ≤ fuel)
    (hdone : loop succ fuel color stack = .done color') :
    Explored succ nodes color' [] ∧ ∀ n, (color.lookup n).isSome → (color'.lookup n).isSome := by
  induction fuel generalizing color stack with
  | zero =>
    cases stack with
    | nil =>
      cases hdone
      exact ⟨h, fun n hn => hn⟩
    | cons e rest =>
      simp only [remaining, List.map_cons, List.sum_cons] at hfuel
      omega
  | succ fuel ih =>
    cases stack with
    | nil =>
      cases hdone
      exact ⟨h, fun n hn => hn⟩
    | cons e rest =>
      obtain ⟨node, next⟩ := e
      have hgray : (color.lookup node).isSome := by
        rw [(h.gray node).mpr (by simp)]
        rfl
      have hunfold : remaining succ nodes color ((node, next) :: rest) =
          remaining succ nodes color rest + ((succ node).length - next + 1) := by
        simp only [remaining, List.map_cons, List.sum_cons]
        omega
      rw [loop] at hdone
      cases hget : (succ node)[next]? with
      | none =>
        rw [hget] at hdone
        have hend := List.getElem?_eq_none_iff.mp hget
        have hle : remaining succ nodes (AssocMap.put node .black color) rest ≤ fuel := by
          rw [remaining_recolor succ hgray]
          omega
        obtain ⟨hex, hmono⟩ := ih (explored_finish h hend) hle hdone
        exact ⟨hex, fun n hn => hmono n (lookup_put_isSome hn)⟩
      | some m =>
        simp only [hget] at hdone
        have hlt : next < (succ node).length := (List.getElem?_eq_some_iff.mp hget).1
        have hm : m ∈ nodes :=
          hclosed node (h.inside node (by simp)) m (List.mem_of_getElem? hget)
        have hadvance : remaining succ nodes color ((node, next + 1) :: rest) ≤ fuel := by
          have hnext : remaining succ nodes color ((node, next + 1) :: rest) =
              remaining succ nodes color rest + ((succ node).length - (next + 1) + 1) := by
            simp only [remaining, List.map_cons, List.sum_cons]
            omega
          omega
        cases hcolor : color.lookup m with
        | none =>
          simp only [hcolor] at hdone
          have hle : remaining succ nodes (AssocMap.put m .gray color)
              ((m, 0) :: (node, next + 1) :: rest) ≤ fuel := by
            rw [remaining_push succ hnodup hm hcolor]
            exact hadvance
          obtain ⟨hex, hmono⟩ := ih (explored_push h hget hm hcolor) hle hdone
          exact ⟨hex, fun n hn => hmono n (lookup_put_isSome hn)⟩
        | some c =>
          cases c with
          | gray => simp [hcolor] at hdone
          | black =>
            simp only [hcolor] at hdone
            exact ih (explored_skip h hget hcolor) hadvance hdone

theorem remaining_start (hnodup : nodes.Nodup) {color : Colors α} {s : α} (hs : s ∈ nodes)
    (hcolor : color.lookup s = none) :
    remaining succ nodes (AssocMap.put s .gray color) [(s, 0)] ≤ iterations succ nodes := by
  rw [remaining_push succ hnodup hs hcolor]
  have hsub : List.Sublist ((nodes.filter fun n => (color.lookup n).isNone).map (weight succ))
      (nodes.map (weight succ)) := List.filter_sublist.map _
  simpa [remaining, iterations] using hsub.sum_le_sum (fun _ _ => Nat.zero_le _)

theorem searchFrom_none (hnodup : nodes.Nodup)
    (hclosed : ∀ n ∈ nodes, ∀ m ∈ succ n, m ∈ nodes) {fuel : Nat}
    (hfuel : iterations succ nodes ≤ fuel) {color : Colors α} {starts : List α}
    (hstarts : ∀ s ∈ starts, s ∈ nodes) (h : Explored succ nodes color [])
    (hnone : searchFrom succ fuel color starts = none) :
    ∃ color', Explored succ nodes color' [] ∧
      (∀ n, (color.lookup n).isSome → (color'.lookup n).isSome) ∧
        ∀ s ∈ starts, (color'.lookup s).isSome := by
  induction starts generalizing color with
  | nil => exact ⟨color, h, fun n hn => hn, by simp⟩
  | cons s rest ih =>
    have hrest : ∀ s ∈ rest, s ∈ nodes := fun t ht => hstarts t (List.mem_cons_of_mem _ ht)
    rw [searchFrom] at hnone
    by_cases hseen : (color.lookup s).isSome = true
    · rw [if_pos hseen] at hnone
      obtain ⟨color', hex, hmono, hall⟩ := ih hrest h hnone
      refine ⟨color', hex, hmono, ?_⟩
      intro t ht
      rcases List.mem_cons.mp ht with rfl | ht
      · exact hmono t hseen
      · exact hall t ht
    · rw [if_neg hseen] at hnone
      have hcolor : color.lookup s = none := Option.not_isSome_iff_eq_none.mp hseen
      have hs : s ∈ nodes := hstarts s List.mem_cons_self
      cases hloop : loop succ fuel (AssocMap.put s .gray color) [(s, 0)] with
      | cycle c => simp [hloop] at hnone
      | done color₁ =>
        simp only [hloop] at hnone
        obtain ⟨hex₁, hmono₁⟩ := loop_done hnodup hclosed (explored_start h hs hcolor)
          ((remaining_start hnodup hs hcolor).trans hfuel) hloop
        obtain ⟨color', hex, hmono, hall⟩ := ih hrest hex₁ hnone
        refine ⟨color', hex, fun n hn => hmono n (hmono₁ n (lookup_put_isSome hn)), ?_⟩
        intro t ht
        rcases List.mem_cons.mp ht with rfl | ht
        · exact hmono t (hmono₁ t (by simp [AssocMap.lookup_put_self]))
        · exact hall t ht

theorem explored_nothing : Explored succ nodes ([] : Colors α) [] :=
  ⟨⟨[], .nil, by simp⟩, by simp, by simp, trivial, by simp⟩

/-- A search that finds no cycle from the nodes with successors shows that there is none. -/
theorem acyclic_of_searchFrom {starts : List α} (hnodup : nodes.Nodup)
    (hclosed : ∀ n ∈ nodes, ∀ m ∈ succ n, m ∈ nodes) (hstarts : ∀ s ∈ starts, s ∈ nodes)
    (hsources : ∀ n, succ n ≠ [] → n ∈ starts) {fuel : Nat} (hfuel : iterations succ nodes ≤ fuel)
    (hnone : searchFrom succ fuel [] starts = none) (a : α) :
    ¬ Relation.TransGen (Edge succ) a a := by
  obtain ⟨color, hex, -, hall⟩ :=
    searchFrom_none hnodup hclosed hfuel hstarts explored_nothing hnone
  intro hcycle
  obtain ⟨b, hab, -⟩ := Relation.TransGen.head'_iff.mp hcycle
  have ha : a ∈ starts := hsources a (List.ne_nil_of_mem hab)
  obtain ⟨order, htopo, hblack⟩ := hex.order
  -- no entry is left on the stack, so a coloured node is black
  have hgray : color.lookup a ≠ some .gray := fun h => by simpa using (hex.gray a).mp h
  have hcolor : color.lookup a = some .black := by
    obtain ⟨c, hc⟩ := Option.isSome_iff_exists.mp (hall a ha)
    cases c with
    | gray => exact absurd hc hgray
    | black => exact hc
  exact htopo.acyclic ((hblack a).mp hcolor) hcycle

end Soundness

end DepthFirst
