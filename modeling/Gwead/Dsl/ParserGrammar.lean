import Gwead.Dsl.ParserSpec

/-!
# The parser against the published grammar

What the two entry points accept, as derivations of the published productions, and the condition
under which the indices taken through binary64 are the numbers written.
-/

namespace Gwead.Dsl

namespace Parser

/-- A parser run over a whole source returns the value of the one phrase the source spells. -/
theorem runAll_ok {α β : Type} {level : Nat} {phrase : List Lexeme → β → Prop}
    {value : β → Option α} {ops : β → Nat} {p : Parser α} (hsound : Sound phrase value ops p)
    (hcomplete : Complete level phrase value ops p)
    (hchain : ∀ ls b, phrase ls b → ls.IsChain Apart) {src : List Char} {a : α} :
    runAll p src = .ok a ↔
      ∃ ls b, Spelled ls src ∧ phrase ls b ∧ ops b ≤ maxExprOps ∧ value b = some a := by
  constructor
  · intro h
    unfold runAll at h
    split at h
    · cases h
    · rename_i tokens htokens
      obtain ⟨ls, hspelled, hkinds⟩ := tokenizeFrom_sound (Nat.lt_succ_self _) htokens
      have hat : At ls 0 ⟨tokens, 0⟩ := ⟨hkinds, rfl⟩
      split at h
      · cases h
      · rename_i a' s' hrun
        cases h
        obtain ⟨_, s₁, hp, hrun⟩ := bind_ok.mp hrun
        obtain ⟨_, s₂, heof, hrun⟩ := bind_ok.mp hrun
        cases pure_ok.mp hrun
        obtain ⟨used, rest, b, rfl, hphrase, hvalue, hrest, hle⟩ := hsound _ _ _ _ _ hat hp
        obtain ⟨start, hpeek⟩ := peek_at hrest
        rw [expectEof, bind_run hpeek] at heof
        have hnil : rest = [] := by
          cases rest with
          | nil => rfl
          | cons l rest => simp [nextKind, l.kind_ne_eof] at heof
        subst hnil
        rw [List.append_nil] at hspelled
        have hops := hle (Nat.zero_le _)
        rw [Nat.zero_add] at hops
        exact ⟨used, b, hspelled, hphrase, hops, hvalue⟩
  · rintro ⟨ls, b, hspelled, hphrase, hops, hvalue⟩
    obtain ⟨tokens, htokens, hkinds⟩ :=
      tokenizeFrom_complete (Nat.lt_succ_self _) (hchain _ _ hphrase) hspelled 0
    have hat : At (ls ++ []) 0 ⟨tokens, 0⟩ := ⟨by rw [List.append_nil]; exact hkinds, rfl⟩
    obtain ⟨s', hp, hrest⟩ :=
      hcomplete _ _ _ _ _ _ hphrase hvalue (by simp [Stops]) hat (by omega)
    obtain ⟨start, hpeek⟩ := peek_at hrest
    have heof : expectEof s' = .ok ((), s') := by
      rw [expectEof, bind_run hpeek]
      rfl
    have hrun : (do let a ← p; expectEof; pure a : Parser α) ⟨tokens, 0⟩ = .ok (a, s') := by
      rw [bind_run hp, bind_run heof]
      rfl
    have htok : tokenize src = .ok tokens := htokens
    rw [runAll, htok]
    simp only [hrun]

end Parser

/-- What `parse_reference` accepts. -/
theorem parseReference_ok {src : String} {r : Reference} : parseReference src = .ok r ↔
    ∃ w, WritesReference src w ∧ w.read Numeral.indexThroughF64 = some r := by
  rw [parseReference, Parser.runAll_ok Parser.parseReference_sound Parser.parseReference_complete
    fun ls b h => h.spaced.chain]
  constructor
  · rintro ⟨ls, w, hspelled, hphrase, -, hread⟩
    exact ⟨w, ⟨ls, hspelled, hphrase⟩, hread⟩
  · rintro ⟨w, ⟨ls, hspelled, hphrase⟩, hread⟩
    exact ⟨ls, w, hspelled, hphrase, Nat.zero_le _, hread⟩

/-- What `parse_expression` accepts. -/
theorem parseExpression_ok {src : String} {e : Expression} : parseExpression src = .ok e ↔
    ∃ w, WritesExpression maxExprDepth src w ∧ w.ops ≤ maxExprOps ∧
      w.read Numeral.indexThroughF64 = some e := by
  rw [parseExpression,
    Parser.runAll_ok Parser.parseExpression_sound Parser.parseExpression_complete
      fun ls b h => h.isChain]
  constructor
  · rintro ⟨ls, w, hspelled, hphrase, hops, hread⟩
    exact ⟨w, ⟨ls, hspelled, hphrase⟩, hops, hread⟩
  · rintro ⟨w, ⟨ls, hspelled, hphrase⟩, hops, hread⟩
    exact ⟨ls, w, hspelled, hphrase, hops, hread⟩

/-! ### Readings of the numbers -/

namespace Written

variable {reading reading' : Numeral → Option Nat}

theorem Segment.read_none {seg : Segment} :
    seg.read reading = none ↔ ∃ n ∈ seg.numerals, reading n = none := by
  cases seg <;> simp [Segment.read, Segment.numerals]

theorem readPath_none {path : List Segment} :
    readPath reading path = none ↔ ∃ n ∈ path.flatMap Segment.numerals, reading n = none := by
  induction path with
  | nil => simp [readPath]
  | cons seg path ih =>
    have hseg : seg.read reading = none ↔ _ := Segment.read_none
    simp only [List.flatMap_cons, List.mem_append]
    cases hread : seg.read reading with
    | none =>
      obtain ⟨n, hn, hnone⟩ := hseg.mp hread
      exact ⟨fun _ => ⟨n, Or.inl hn, hnone⟩, fun _ => by simp [readPath, hread]⟩
    | some s =>
      have hsome : ¬∃ n ∈ seg.numerals, reading n = none := by
        rw [← hseg, hread]
        simp
      simp only [readPath, hread, Option.bind_some, Option.map_eq_none_iff, ih]
      constructor
      · rintro ⟨n, hn, hnone⟩
        exact ⟨n, Or.inr hn, hnone⟩
      · rintro ⟨n, hn | hn, hnone⟩
        · exact (hsome ⟨n, hn, hnone⟩).elim
        · exact ⟨n, hn, hnone⟩

/-- A reference has no value exactly where one of its numbers has none. -/
theorem Reference.read_none {r : Reference} :
    r.read reading = none ↔ ∃ n ∈ r.numerals, reading n = none := by
  rw [Reference.read, Option.map_eq_none_iff]
  exact readPath_none

theorem Expression.read_none {e : Expression} :
    e.read reading = none ↔ ∃ n ∈ e.numerals, reading n = none := by
  induction e with
  | ref r => simpa [Expression.read, Expression.numerals] using Reference.read_none
  | not e ih => simpa [Expression.read, Expression.numerals] using ih
  | binary op l r ihl ihr =>
    simp only [Expression.read, Expression.numerals, List.mem_append]
    cases hl : l.read reading with
    | none =>
      obtain ⟨n, hn, hnone⟩ := ihl.mp hl
      exact ⟨fun _ => ⟨n, Or.inl hn, hnone⟩, fun _ => rfl⟩
    | some a =>
      have hsome : ¬∃ n ∈ l.numerals, reading n = none := by
        rw [← ihl, hl]
        simp
      simp only [Option.bind_some, Option.map_eq_none_iff, ihr]
      constructor
      · rintro ⟨n, hn, hnone⟩
        exact ⟨n, Or.inr hn, hnone⟩
      · rintro ⟨n, hn | hn, hnone⟩
        · exact (hsome ⟨n, hn, hnone⟩).elim
        · exact ⟨n, hn, hnone⟩
  | _ => simp [Expression.read, Expression.numerals]

theorem Segment.read_eq {seg : Segment} {s : PathSegment} (h : seg.read reading = some s)
    (h' : seg.read reading' = some s) : ∀ n ∈ seg.numerals, reading n = reading' n := by
  cases seg <;> simp_all [Segment.read, Segment.numerals]
  obtain ⟨k, hk, rfl⟩ := h
  obtain ⟨k', hk', heq⟩ := h'
  cases heq
  rw [hk, hk']

theorem readPath_eq {path : List Segment} {segs : List PathSegment}
    (h : readPath reading path = some segs) (h' : readPath reading' path = some segs) :
    ∀ n ∈ path.flatMap Segment.numerals, reading n = reading' n := by
  induction path generalizing segs with
  | nil => simp
  | cons seg path ih =>
    obtain ⟨s, hs, hrest⟩ := Option.bind_eq_some_iff.mp h
    obtain ⟨tail, htail, rfl⟩ := Option.map_eq_some_iff.mp hrest
    obtain ⟨s', hs', hrest'⟩ := Option.bind_eq_some_iff.mp h'
    obtain ⟨tail', htail', heq⟩ := Option.map_eq_some_iff.mp hrest'
    cases heq
    intro n hn
    rw [List.flatMap_cons, List.mem_append] at hn
    obtain hn | hn := hn
    · exact Segment.read_eq hs hs' n hn
    · exact ih htail htail' n hn

/-- Two readings that give a reference one value agree on its numbers. -/
theorem Reference.read_eq {r : Reference} {v : Dsl.Reference} (h : r.read reading = some v)
    (h' : r.read reading' = some v) : ∀ n ∈ r.numerals, reading n = reading' n := by
  obtain ⟨path, hpath, rfl⟩ := Option.map_eq_some_iff.mp h
  obtain ⟨path', hpath', heq⟩ := Option.map_eq_some_iff.mp h'
  cases heq
  exact readPath_eq hpath hpath'

theorem Expression.read_eq {e : Expression} {v : Dsl.Expression} (h : e.read reading = some v)
    (h' : e.read reading' = some v) : ∀ n ∈ e.numerals, reading n = reading' n := by
  induction e generalizing v with
  | ref r =>
    obtain ⟨x, hx, rfl⟩ := Option.map_eq_some_iff.mp h
    obtain ⟨x', hx', heq⟩ := Option.map_eq_some_iff.mp h'
    cases heq
    exact Reference.read_eq hx hx'
  | not e ih =>
    obtain ⟨x, hx, rfl⟩ := Option.map_eq_some_iff.mp h
    obtain ⟨x', hx', heq⟩ := Option.map_eq_some_iff.mp h'
    cases heq
    exact ih hx hx'
  | binary op l r ihl ihr =>
    obtain ⟨a, ha, hrest⟩ := Option.bind_eq_some_iff.mp h
    obtain ⟨b, hb, rfl⟩ := Option.map_eq_some_iff.mp hrest
    obtain ⟨a', ha', hrest'⟩ := Option.bind_eq_some_iff.mp h'
    obtain ⟨b', hb', heq⟩ := Option.map_eq_some_iff.mp hrest'
    cases heq
    intro n hn
    rw [Expression.numerals, List.mem_append] at hn
    obtain hn | hn := hn
    · exact ihl ha ha' n hn
    · exact ihr hb hb' n hn
  | _ => simp [Expression.numerals]

theorem readPath_congr {path : List Segment}
    (h : ∀ n ∈ path.flatMap Segment.numerals, reading n = reading' n) :
    readPath reading path = readPath reading' path := by
  induction path with
  | nil => rfl
  | cons seg path ih =>
    rw [List.flatMap_cons] at h
    have hseg : seg.read reading = seg.read reading' := by
      cases seg <;> simp_all [Segment.read, Segment.numerals]
    have hrest := ih fun n hn => h n (List.mem_append_right _ hn)
    simp only [readPath, hseg, hrest]

theorem Reference.read_congr {r : Reference} (h : ∀ n ∈ r.numerals, reading n = reading' n) :
    r.read reading = r.read reading' := by
  rw [Reference.read, Reference.read, readPath_congr h]

theorem Expression.read_congr {e : Expression} (h : ∀ n ∈ e.numerals, reading n = reading' n) :
    e.read reading = e.read reading' := by
  induction e with
  | ref r => simp only [Expression.read, Reference.read_congr h]
  | not e ih => simp only [Expression.read, ih h]
  | binary op l r ihl ihr =>
    have hl := ihl fun n hn => h n (List.mem_append_left _ hn)
    have hr := ihr fun n hn => h n (List.mem_append_right _ hn)
    simp only [Expression.read, hl, hr]
  | _ => rfl

end Written

/-! ### The published contract -/

/-- A source is parsed as the grammar says, with every index the number written. -/
structure GrammarMet (src : String) : Prop where
  reference : ∀ r, parseReference src = .ok r ↔
    ∃ w, WritesReference src w ∧ w.read Numeral.index = some r
  expression : ∀ e, parseExpression src = .ok e ↔
    ∃ w, WritesExpression maxExprDepth src w ∧ w.ops ≤ maxExprOps ∧
      w.read Numeral.index = some e
  unique : ∀ depth depth' w w', WritesExpression depth src w → WritesExpression depth' src w' →
    w = w'

/-- Binary64 keeps the numbers in brackets: each is the same index afterwards, unless one is no
index before and one is none after, so that the source is refused on either reading. -/
def IndicesKept (ns : List Numeral) : Prop :=
  (∀ n ∈ ns, n.index = n.indexThroughF64) ∨
    (∃ n ∈ ns, n.index = none) ∧ ∃ n ∈ ns, n.indexThroughF64 = none

/-- The parser meets the grammar on exactly the sources whose bracketed numbers binary64 keeps. -/
theorem grammarMet_iff (src : String) : GrammarMet src ↔
    (∀ w, WritesReference src w → IndicesKept w.numerals) ∧
      ∀ w, WritesExpression maxExprDepth src w → w.ops ≤ maxExprOps →
        IndicesKept w.numerals := by
  constructor
  · intro h
    constructor
    · intro w hw
      -- the parser returns what the grammar gives
      have hread : ∀ r, w.read Numeral.indexThroughF64 = some r ↔ w.read Numeral.index = some r := by
        intro r
        have hboth := (@parseReference_ok src r).symm.trans (h.reference r)
        constructor
        · intro hr
          obtain ⟨w', hw', hr'⟩ := hboth.mp ⟨w, hw, hr⟩
          rwa [hw'.unique hw] at hr'
        · intro hr
          obtain ⟨w', hw', hr'⟩ := hboth.mpr ⟨w, hw, hr⟩
          rwa [hw'.unique hw] at hr'
      have heq := Option.ext hread
      cases hr : w.read Numeral.index with
      | none => exact Or.inr ⟨Written.Reference.read_none.mp hr,
          Written.Reference.read_none.mp (heq.trans hr)⟩
      | some r => exact Or.inl (Written.Reference.read_eq hr (heq.trans hr))
    · intro w hw hops
      have hread : ∀ e, w.read Numeral.indexThroughF64 = some e ↔ w.read Numeral.index = some e := by
        intro e
        have hboth := (@parseExpression_ok src e).symm.trans (h.expression e)
        constructor
        · intro he
          obtain ⟨w', hw', -, he'⟩ := hboth.mp ⟨w, hw, hops, he⟩
          rwa [hw'.unique hw] at he'
        · intro he
          obtain ⟨w', hw', -, he'⟩ := hboth.mpr ⟨w, hw, hops, he⟩
          rwa [hw'.unique hw] at he'
      have heq := Option.ext hread
      cases he : w.read Numeral.index with
      | none => exact Or.inr ⟨Written.Expression.read_none.mp he,
          Written.Expression.read_none.mp (heq.trans he)⟩
      | some e => exact Or.inl (Written.Expression.read_eq he (heq.trans he))
  · rintro ⟨hreference, hexpression⟩
    refine ⟨fun r => ?_, fun e => ?_, fun depth depth' w w' hw hw' => hw.unique hw'⟩
    · rw [parseReference_ok]
      refine exists_congr fun w => and_congr_right fun hw => ?_
      obtain hkept | ⟨hindex, hf64⟩ := hreference w hw
      · rw [Written.Reference.read_congr hkept]
      · rw [Written.Reference.read_none.mpr hindex, Written.Reference.read_none.mpr hf64]
    · rw [parseExpression_ok]
      refine exists_congr fun w => and_congr_right fun hw => and_congr_right fun hops => ?_
      obtain hkept | ⟨hindex, hf64⟩ := hexpression w hw hops
      · rw [Written.Expression.read_congr hkept]
      · rw [Written.Expression.read_none.mpr hindex, Written.Expression.read_none.mpr hf64]

/-- The numeral `9007199254740993`. -/
def beyondF64 : Numeral where
  neg := false
  whole := "9007199254740993".toList
  frac := []
  nonempty := by decide
  whole_digits := List.all_eq_true.mp (by decide +kernel)
  frac_digits := by simp

/-- `[9007199254740993]` is read as the index before it. -/
theorem not_grammarMet_large_index : ¬GrammarMet "$[9007199254740993]" := by
  intro h
  have hparse : parseReference "$[9007199254740993]" =
      .ok ⟨.implicit, [.index 9007199254740992]⟩ := by decide +kernel
  obtain ⟨w, hw, hread⟩ := (h.reference _).mp hparse
  have noBlank : ∀ c ∈ ([] : List Char), isSpace c := by simp
  have hwritten : WritesReference "$[9007199254740993]" ⟨.implicit, [.index beyondF64]⟩ :=
    ⟨[sym .dollar, sym .lBracket, .numeral beyondF64, sym .rBracket],
      .cons noBlank <| .cons noBlank <| .cons noBlank <| .cons noBlank <| .nil noBlank,
      .implicit (.cons (.index _) .nil)⟩
  rw [hw.unique hwritten] at hread
  revert hread
  decide +kernel

end Gwead.Dsl
