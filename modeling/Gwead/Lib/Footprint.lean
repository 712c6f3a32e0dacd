import Mathlib.Data.List.Basic
import Gwead.Lib.Traced

/-!
# Programs that touch a memory

A program over a memory and the rest of its state that shows the ranges it reads and writes; an
index out of range ends it.  `Sound` says that what it shows is all it touches: nothing else of the
memory is changed, and nothing else of it has an influence.
-/

inductive Access where
  | read (start stop : Nat)
  | write (start stop : Nat)
  deriving DecidableEq

namespace Access

def start : Access → Nat
  | read start _ => start
  | write start _ => start

def stop : Access → Nat
  | read _ stop => stop
  | write _ stop => stop

def Covers (a : Access) (i : Nat) : Prop := a.start ≤ i ∧ i < a.stop

def Changes (i : Nat) : Access → Prop
  | read _ _ => False
  | write start stop => start ≤ i ∧ i < stop

/-- How many bytes are written. -/
def written : Access → Nat
  | read _ _ => 0
  | write start stop => stop - start

/-- How many bytes are written in all. -/
def writtenIn (es : List Access) : Nat := (es.map written).sum

end Access

structure WithMemory (β ρ : Type) where
  memory : List β
  rest : ρ

/-- The error is a panic. -/
abbrev Footprint (β ρ α : Type) := Traced Access Unit (WithMemory β ρ) α

namespace Footprint

variable {β ρ α γ : Type}

def size : Footprint β ρ Nat := Traced.lift fun s => .ok s.memory.length s

def look (f : ρ → α) : Footprint β ρ α := Traced.lift fun s => .ok (f s.rest) s

def change (f : ρ → ρ) : Footprint β ρ Unit :=
  Traced.lift fun s => .ok () { s with rest := f s.rest }

/-- `bytes[..n]` of a list that is not the memory. -/
def first (bytes : List β) (n : Nat) : Footprint β ρ (List β) :=
  Traced.lift fun s => if n ≤ bytes.length then .ok (bytes.take n) s else .error () s

/-- `memory[start..stop]`, before anything of it is touched. -/
def borrow (start stop : Nat) : Footprint β ρ Unit :=
  Traced.lift fun s => if start ≤ stop ∧ stop ≤ s.memory.length then .ok () s else .error () s

def load (start stop : Nat) : Footprint β ρ (List β) := fun s =>
  if start ≤ stop ∧ stop ≤ s.memory.length then
    (.ok ((s.memory.take stop).drop start) s, [.read start stop])
  else (.error () s, [])

/-- `bytes` copied over `memory[start..stop]`. -/
def store (start stop : Nat) (bytes : List β) : Footprint β ρ Unit := fun s =>
  if start ≤ stop ∧ stop ≤ s.memory.length ∧ bytes.length = stop - start then
    (.ok () { s with memory := s.memory.take start ++ bytes ++ s.memory.drop stop },
      [.write start stop])
  else (.error () s, [])

/-! ### How a program ends -/

section Ends

open Traced

variable {s : WithMemory β ρ} {post : γ → WithMemory β ρ → List Access → Prop}
  {fail : Unit → WithMemory β ρ → List Access → Prop} {start stop n : Nat} {bytes : List β}

theorem ends_size_bind {f : Nat → Footprint β ρ γ} :
    Ends (size >>= f) s post fail ↔ Ends (f s.memory.length) s post fail :=
  ends_lift_bind

theorem ends_look_bind {g : ρ → α} {f : α → Footprint β ρ γ} :
    Ends (look g >>= f) s post fail ↔ Ends (f (g s.rest)) s post fail :=
  ends_lift_bind

theorem ends_change_bind {g : ρ → ρ} {f : Unit → Footprint β ρ γ} :
    Ends (change g >>= f) s post fail ↔ Ends (f ()) { s with rest := g s.rest } post fail :=
  ends_lift_bind

theorem ends_first_bind {f : List β → Footprint β ρ γ} (h : n ≤ bytes.length) :
    Ends (first bytes n >>= f) s post fail ↔ Ends (f (bytes.take n)) s post fail := by
  have hrun : (first bytes n >>= f) s = f (bytes.take n) s := lift_bind_ok (if_pos h)
  simp only [Ends, hrun]

theorem ends_borrow_bind {f : Unit → Footprint β ρ γ} (h : start ≤ stop)
    (hstop : stop ≤ s.memory.length) :
    Ends (borrow start stop >>= f) s post fail ↔ Ends (f ()) s post fail := by
  have hrun : (borrow start stop >>= f) s = f () s := lift_bind_ok (if_pos ⟨h, hstop⟩)
  simp only [Ends, hrun]

theorem ends_load_bind {f : List β → Footprint β ρ γ} (h : start ≤ stop)
    (hstop : stop ≤ s.memory.length) :
    Ends (load start stop >>= f) s post fail ↔
      Ends (f ((s.memory.take stop).drop start)) s
        (fun b s' es => post b s' (.read start stop :: es))
        fun e s' es => fail e s' (.read start stop :: es) := by
  rw [ends_bind, Ends, load, if_pos ⟨h, hstop⟩]
  rfl

theorem ends_store_bind {f : Unit → Footprint β ρ γ} (h : start ≤ stop)
    (hstop : stop ≤ s.memory.length) (hbytes : bytes.length = stop - start) :
    Ends (store start stop bytes >>= f) s post fail ↔
      Ends (f ()) { s with memory := s.memory.take start ++ bytes ++ s.memory.drop stop }
        (fun b s' es => post b s' (.write start stop :: es))
        fun e s' es => fail e s' (.write start stop :: es) := by
  rw [ends_bind, Ends, store, if_pos ⟨h, hstop, hbytes⟩]
  rfl

end Ends

/-! ### What is shown is all that is touched -/

/-- The program answers alike on two memories, shows the same and leaves equal what was equal. -/
def Alike (x : Footprint β ρ α) (s : WithMemory β ρ) (memory : List β) (a : α)
    (s' : WithMemory β ρ) (es : List Access) : Prop :=
  ∃ memory' : List β, x { s with memory := memory } = (.ok a { s' with memory := memory' }, es) ∧
    memory'.length = memory.length ∧
    ∀ i : Nat, memory[i]? = s.memory[i]? → memory'[i]? = s'.memory[i]?

structure Sound (x : Footprint β ρ α) : Prop where
  length : ∀ s a s' es, x s = (.ok a s', es) → s'.memory.length = s.memory.length
  frame : ∀ s a s' es, x s = (.ok a s', es) →
    ∀ i, (∀ e ∈ es, ¬e.Changes i) → s'.memory[i]? = s.memory[i]?
  blind : ∀ s a s' es, x s = (.ok a s', es) → ∀ memory : List β,
    memory.length = s.memory.length →
    (∀ e ∈ es, ∀ i, e.Covers i → memory[i]? = s.memory[i]?) → Alike x s memory a s' es

namespace Sound

variable {x : Footprint β ρ α} {f : α → Footprint β ρ γ}

/-- A program that leaves the memory alone and looks at its size at most. -/
theorem lift {y : EStateM Unit (WithMemory β ρ) α}
    (h : ∀ s a s', y s = .ok a s' → s'.memory = s.memory ∧ ∀ memory : List β,
      memory.length = s.memory.length →
        y { s with memory := memory } = .ok a { s' with memory := memory }) :
    Sound (Traced.lift y : Footprint β ρ α) := by
  have hrun : ∀ {s a s' es}, (Traced.lift y : Footprint β ρ α) s = (.ok a s', es) →
      y s = .ok a s' ∧ es = [] := by
    intro s a s' es hs
    rw [Traced.lift, Traced.observe, Prod.mk.injEq] at hs
    exact ⟨hs.1, hs.2.symm⟩
  refine ⟨fun s a s' es hs => ?_, fun s a s' es hs i _ => ?_, fun s a s' es hs memory hlen _ => ?_⟩
  · rw [(h s a s' (hrun hs).1).1]
  · rw [(h s a s' (hrun hs).1).1]
  · obtain ⟨hy, rfl⟩ := hrun hs
    obtain ⟨hsame, hother⟩ := h s a s' hy
    refine ⟨memory, ?_, rfl, fun i hi => ?_⟩
    · rw [Traced.lift, Traced.observe, hother memory hlen]
    · rw [hi, hsame]

theorem pure (a : α) : Sound (Pure.pure a : Footprint β ρ α) :=
  lift (y := Pure.pure a) fun _ _ _ h => by
    cases h
    exact ⟨rfl, fun _ _ => rfl⟩

theorem size : Sound (Footprint.size : Footprint β ρ Nat) :=
  lift fun _ _ _ h => by
    cases h
    exact ⟨rfl, fun _ hlen => by rw [hlen]⟩

theorem look (g : ρ → α) : Sound (Footprint.look g : Footprint β ρ α) :=
  lift fun _ _ _ h => by
    cases h
    exact ⟨rfl, fun _ _ => rfl⟩

theorem change (g : ρ → ρ) : Sound (Footprint.change g : Footprint β ρ Unit) :=
  lift fun _ _ _ h => by
    cases h
    exact ⟨rfl, fun _ _ => rfl⟩

theorem first (bytes : List β) (n : Nat) :
    Sound (Footprint.first bytes n : Footprint β ρ (List β)) :=
  lift fun s a s' h => by
    by_cases hn : n ≤ bytes.length
    · rw [if_pos hn] at h
      cases h
      exact ⟨rfl, fun _ _ => if_pos hn⟩
    · rw [if_neg hn] at h
      cases h

theorem borrow (start stop : Nat) : Sound (Footprint.borrow start stop : Footprint β ρ Unit) :=
  lift fun s a s' h => by
    by_cases hrange : start ≤ stop ∧ stop ≤ s.memory.length
    · rw [if_pos hrange] at h
      cases h
      exact ⟨rfl, fun memory hlen => if_pos ⟨hrange.1, hlen.symm ▸ hrange.2⟩⟩
    · rw [if_neg hrange] at h
      cases h

theorem load (start stop : Nat) : Sound (Footprint.load start stop : Footprint β ρ (List β)) := by
  have hrun : ∀ {s a s' es}, (Footprint.load start stop : Footprint β ρ (List β)) s =
      (.ok a s', es) → (start ≤ stop ∧ stop ≤ s.memory.length) ∧
        a = (s.memory.take stop).drop start ∧ s' = s ∧ es = [.read start stop] := by
    intro s a s' es hs
    rw [Footprint.load] at hs
    split at hs
    · rename_i hrange
      cases hs
      exact ⟨hrange, rfl, rfl, rfl⟩
    · cases hs
  refine ⟨fun s a s' es hs => ?_, fun s a s' es hs i _ => ?_,
    fun s a s' es hs memory hlen hread => ?_⟩
  · rw [(hrun hs).2.2.1]
  · rw [(hrun hs).2.2.1]
  · obtain ⟨hrange, rfl, rfl, rfl⟩ := hrun hs
    have hsame : (memory.take stop).drop start = (s'.memory.take stop).drop start := by
      apply List.ext_getElem?
      intro i
      rw [List.getElem?_drop, List.getElem?_drop, List.getElem?_take, List.getElem?_take]
      by_cases hi : start + i < stop
      · rw [if_pos hi, if_pos hi]
        exact hread _ (List.mem_singleton_self _) _ ⟨Nat.le_add_right _ _, hi⟩
      · rw [if_neg hi, if_neg hi]
    refine ⟨memory, ?_, rfl, fun i hi => hi⟩
    rw [Footprint.load, if_pos ⟨hrange.1, hlen.symm ▸ hrange.2⟩, hsame]

/-- Outside of the range a store changes nothing, inside of it the memory has no say. -/
theorem getElem?_stored {memory bytes : List β} {start stop : Nat} (h : start ≤ stop)
    (hstop : stop ≤ memory.length) (hbytes : bytes.length = stop - start) (i : Nat) :
    (memory.take start ++ bytes ++ memory.drop stop)[i]? =
      if start ≤ i ∧ i < stop then bytes[i - start]? else memory[i]? := by
  have hlen : (memory.take start).length = start := by
    rw [List.length_take]
    omega
  rw [List.append_assoc]
  by_cases hi : i < start
  · rw [List.getElem?_append_left (by omega), List.getElem?_take, if_pos hi, if_neg (by omega)]
  · rw [List.getElem?_append_right (by omega), hlen]
    by_cases hin : i < stop
    · rw [List.getElem?_append_left (by omega), if_pos (by omega)]
    · rw [List.getElem?_append_right (by omega), List.getElem?_drop, if_neg (by omega)]
      congr 1
      omega

theorem store (start stop : Nat) (bytes : List β) :
    Sound (Footprint.store start stop bytes : Footprint β ρ Unit) := by
  have hrun : ∀ {s a s' es}, (Footprint.store start stop bytes : Footprint β ρ Unit) s =
      (.ok a s', es) → (start ≤ stop ∧ stop ≤ s.memory.length ∧ bytes.length = stop - start) ∧
        s' = { s with memory := s.memory.take start ++ bytes ++ s.memory.drop stop } ∧
        es = [.write start stop] := by
    intro s a s' es hs
    rw [Footprint.store] at hs
    split at hs
    · rename_i hrange
      cases hs
      exact ⟨hrange, rfl, rfl⟩
    · cases hs
  have hlength : ∀ {memory : List β}, start ≤ stop → stop ≤ memory.length →
      bytes.length = stop - start →
        (memory.take start ++ bytes ++ memory.drop stop).length = memory.length := by
    intro memory h hstop hbytes
    simp only [List.length_append, List.length_take, List.length_drop]
    omega
  refine ⟨fun s a s' es hs => ?_, fun s a s' es hs i hi => ?_, fun s a s' es hs memory hlen _ => ?_⟩
  · obtain ⟨⟨h, hstop, hbytes⟩, rfl, -⟩ := hrun hs
    exact hlength h hstop hbytes
  · obtain ⟨⟨h, hstop, hbytes⟩, rfl, rfl⟩ := hrun hs
    have hout : ¬(start ≤ i ∧ i < stop) := hi _ (List.mem_singleton_self _)
    rw [getElem?_stored h hstop hbytes, if_neg hout]
  · obtain ⟨⟨h, hstop, hbytes⟩, rfl, rfl⟩ := hrun hs
    have hstop' : stop ≤ memory.length := hlen.symm ▸ hstop
    refine ⟨memory.take start ++ bytes ++ memory.drop stop, ?_, hlength h hstop' hbytes,
      fun i hi => ?_⟩
    · rw [Footprint.store, if_pos ⟨h, hstop', hbytes⟩]
    · rw [getElem?_stored h hstop' hbytes, getElem?_stored h hstop hbytes, hi]

theorem bind (hx : Sound x) (hf : ∀ a, Sound (f a)) : Sound (x >>= f) := by
  have hrun : ∀ {s b s'' es}, (x >>= f) s = (.ok b s'', es) → ∃ a s' es₁ es₂,
      x s = (.ok a s', es₁) ∧ f a s' = (.ok b s'', es₂) ∧ es = es₁ ++ es₂ := by
    intro s b s'' es hs
    simp only [Bind.bind, Traced.bind] at hs
    rcases hxs : x s with ⟨⟨a, s'⟩ | ⟨e, s'⟩, es₁⟩
    · rw [hxs] at hs
      simp only [Prod.mk.injEq] at hs
      exact ⟨a, s', es₁, (f a s').2, rfl, Prod.ext hs.1 rfl, hs.2.symm⟩
    · rw [hxs] at hs
      cases hs
  refine ⟨fun s b s'' es hs => ?_, fun s b s'' es hs i hi => ?_,
    fun s b s'' es hs memory hlen hread => ?_⟩
  · obtain ⟨a, s', es₁, es₂, hxs, hfs, rfl⟩ := hrun hs
    rw [(hf a).length _ _ _ _ hfs, hx.length _ _ _ _ hxs]
  · obtain ⟨a, s', es₁, es₂, hxs, hfs, rfl⟩ := hrun hs
    rw [(hf a).frame _ _ _ _ hfs i fun e he => hi e (List.mem_append_right _ he),
      hx.frame _ _ _ _ hxs i fun e he => hi e (List.mem_append_left _ he)]
  · obtain ⟨a, s', es₁, es₂, hxs, hfs, rfl⟩ := hrun hs
    obtain ⟨memory', hx', hlen', hkeep⟩ := hx.blind _ _ _ _ hxs memory hlen fun e he =>
      hread e (List.mem_append_left _ he)
    have hlength : memory'.length = s'.memory.length := by
      rw [hlen', hlen, hx.length _ _ _ _ hxs]
    obtain ⟨memory'', hf', hlen'', hkeep'⟩ := (hf a).blind _ _ _ _ hfs memory' hlength
      fun e he i hi => hkeep i (hread e (List.mem_append_right _ he) i hi)
    refine ⟨memory'', ?_, hlen''.trans hlen', fun i hi => hkeep' i (hkeep i hi)⟩
    rw [Traced.bind_ok hx', hf']

theorem ite {p : Prop} [Decidable p] {x y : Footprint β ρ α} (hx : Sound x) (hy : Sound y) :
    Sound (if p then x else y) := by
  split
  · exact hx
  · exact hy

end Sound

end Footprint
