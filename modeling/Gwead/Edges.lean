import Gwead.DagPlan
import Gwead.Dsl.StepsRefs
import Gwead.Lib.Ascii
import Gwead.Surfaces

/-!
# Dependency edges and template reads

The planner finds the references of a step with a pattern over raw strings; the resolver reads
them with the lexer, parser and evaluator.  The two agree on every reference written without a
gap between its tokens.
-/

namespace Gwead

open Dsl

/-- The texts between the braces that resolving a string parses. -/
def templateTexts (cs : List Char) : List (List Char) :=
  let bodies := (templateBodies 0 cs).map trim
  match singleTemplateExpression cs with
  | none => bodies
  | some expr =>
    if expr = ['v', 'a', 'l', 'u', 'e'] then []
    else
      match Parser.runAll Parser.parseExpression expr with
      | .error _ => bodies
      | .ok _ => [expr]

mutual

/-- The template texts of every string of a value. -/
def paramTexts : Value → List (List Char)
  | .string s => templateTexts s.toList
  | .array items => paramTextsItems items
  | .object fields => paramTextsFields fields
  | _ => []

def paramTextsItems : List Value → List (List Char)
  | [] => []
  | v :: rest => paramTexts v ++ paramTextsItems rest

def paramTextsFields : List (String × Value) → List (List Char)
  | [] => []
  | (_, v) :: rest => paramTexts v ++ paramTextsFields rest

end

/-! ### The pattern finds every contiguous reference -/

theorem afterPrefix_append (p cs : List Char) : afterPrefix p (p ++ cs) = some cs := by
  induction p with
  | nil => rfl
  | cons c p ih => simpa [afterPrefix] using ih

theorem afterPrefix_some {p cs rest : List Char} (h : afterPrefix p cs = some rest) :
    cs = p ++ rest := by
  induction p generalizing cs with
  | nil => simpa [afterPrefix] using h
  | cons c p ih =>
    cases cs with
    | nil => simp [afterPrefix] at h
    | cons d cs =>
      rw [afterPrefix] at h
      split at h
      · rename_i hcd
        rw [hcd, ih h]
        rfl
      · cases h

theorem isIdentChar_of_start {c : Char} (h : isIdentStart c = true) : isIdentChar c = true := by
  simp only [isIdentStart, Bool.or_eq_true] at h
  simp only [isIdentChar, Char.isAlphanum, Bool.or_eq_true]
  rcases h with h | h
  · exact Or.inl (Or.inl (Or.inl h))
  · exact Or.inl (Or.inr h)

/-- A match at the head and the text it covers. -/
theorem stepsRefAt_some {cs id : List Char} (h : stepsRefAt cs = some id) :
    ∃ post, cs = dollarSteps ++ (id ++ post) ∧ ∀ c ∈ id, isIdentChar c = true := by
  unfold stepsRefAt at h
  split at h
  · rename_i c rest hp
    split at h
    · rename_i hstart
      cases h
      refine ⟨rest.dropWhile isIdentChar, ?_, ?_⟩
      · rw [afterPrefix_some hp, List.cons_append, List.takeWhile_append_dropWhile]
      · intro d hd
        rcases List.mem_cons.mp hd with rfl | hd
        · exact isIdentChar_of_start hstart
        · exact List.mem_takeWhile_imp hd
    · cases h
  · cases h

theorem stepsRefAt_spelled {id : String} {post : List Char}
    (hend : ∀ c ∈ post.head?, isIdentChar c = false)
    (hstart : ∃ c cs, id.toList = c :: cs ∧ isIdentStart c = true)
    (hall : ∀ c ∈ id.toList, isIdentChar c = true) :
    stepsRefAt (dollarSteps ++ (id.toList ++ post)) = some id.toList := by
  obtain ⟨c, cs, hid, hc⟩ := hstart
  have hpost : post.takeWhile isIdentChar = [] := by
    cases post with
    | nil => rfl
    | cons d post => simp [hend d rfl]
  have htail : ∀ d ∈ cs, isIdentChar d = true := fun d hd =>
    hall d (hid ▸ List.mem_cons_of_mem c hd)
  unfold stepsRefAt
  rw [afterPrefix_append, hid]
  simp only [List.cons_append, hc, if_true]
  rw [List.takeWhile_append_of_pos htail, hpost, List.append_nil]

/-- While a match is being skipped, the next reference has not begun: a match contains no
further `$`. -/
theorem captureStepsRefs_spelled {id : String} {post : List Char}
    (hend : ∀ c ∈ post.head?, isIdentChar c = false)
    (hstart : ∃ c cs, id.toList = c :: cs ∧ isIdentStart c = true)
    (hall : ∀ c ∈ id.toList, isIdentChar c = true) (pre : List Char) (skip : Nat)
    (hskip : ∀ c ∈ (pre ++ (dollarSteps ++ (id.toList ++ post))).take skip, c ≠ '$') :
    id ∈ captureStepsRefs skip (pre ++ (dollarSteps ++ (id.toList ++ post))) := by
  induction pre generalizing skip with
  | nil =>
    cases skip with
    | zero =>
      have hmatch := stepsRefAt_spelled hend hstart hall
      have hcons : dollarSteps ++ (id.toList ++ post) =
          '$' :: (['s', 't', 'e', 'p', 's', '.'] ++ (id.toList ++ post)) := rfl
      rw [List.nil_append, hcons]
      rw [hcons] at hmatch
      rw [captureStepsRefs, hmatch]
      simp
    | succ skip => exact absurd rfl (hskip '$' (by simp [dollarSteps]))
  | cons c pre ih =>
    cases skip with
    | zero =>
      rw [List.cons_append, captureStepsRefs]
      split
      · rename_i id' hm
        refine List.mem_cons_of_mem _ (ih _ ?_)
        obtain ⟨post', heq, hall'⟩ := stepsRefAt_some hm
        have htail : pre ++ (dollarSteps ++ (id.toList ++ post)) =
            ['s', 't', 'e', 'p', 's', '.'] ++ (id' ++ post') := (List.cons.inj heq).2
        intro d hd
        rw [htail, ← List.append_assoc, List.take_append_of_le_length (by simp)] at hd
        rcases List.mem_append.mp (List.mem_of_mem_take hd) with hd | hd
        · rintro rfl
          simp at hd
        · rintro rfl
          have := hall' '$' hd
          revert this
          decide
      · exact ih 0 (by simp)
    | succ skip =>
      rw [List.cons_append, captureStepsRefs]
      refine ih skip fun d hd => hskip d ?_
      rw [List.cons_append, List.take_succ_cons]
      exact List.mem_cons_of_mem c hd

theorem mem_scanString_of_spelled {s id : String} (h : SpelledIn s.toList id) :
    id ∈ scanString s := by
  obtain ⟨pre, post, hs, hend, hstart, hall⟩ := h
  rw [scanString, hs]
  exact captureStepsRefs_spelled hend hstart hall pre 0 (by simp)

/-! ### A template text is a part of its string -/

/-- `text` occurs in `cs` with no identifier character right after it. -/
def EndsInside (text cs : List Char) : Prop :=
  ∃ pre post, cs = pre ++ (text ++ post) ∧ ∀ c ∈ post.head?, isIdentChar c = false

theorem EndsInside.trans {a b c : List Char} (hab : EndsInside a b) (hbc : EndsInside b c) :
    EndsInside a c := by
  obtain ⟨p₁, q₁, rfl, h₁⟩ := hab
  obtain ⟨p₂, q₂, rfl, h₂⟩ := hbc
  refine ⟨p₂ ++ p₁, q₁ ++ q₂, by simp, ?_⟩
  intro x hx
  cases q₁ with
  | nil => exact h₂ x hx
  | cons y q₁ => exact h₁ x hx

theorem spelledIn_inside {text cs : List Char} {id : String} (h : SpelledIn text id)
    (hin : EndsInside text cs) : SpelledIn cs id := by
  obtain ⟨pre, post, rfl, hend, hstart, hall⟩ := h
  obtain ⟨p, q, rfl, hq⟩ := hin
  refine ⟨p ++ pre, post ++ q, by simp, ?_, hstart, hall⟩
  intro x hx
  cases post with
  | nil => exact hq x hx
  | cons y post => exact hend x hx

theorem not_identChar_of_whiteSpace {c : Char} (h : isWhiteSpace c = true) :
    isIdentChar c = false := by
  rw [Bool.eq_false_iff]
  intro hc
  simp only [isIdentChar, Bool.or_eq_true, Ascii.isAlphanum_iff, beq_iff_eq] at hc
  obtain (hc | rfl) | rfl := hc
  · simp only [isWhiteSpace, Bool.or_eq_true, Bool.and_eq_true, decide_eq_true_eq,
      beq_iff_eq] at h
    omega
  · cases h
  · cases h

/-- Trimming cuts white space only. -/
theorem trim_inside (cs : List Char) : EndsInside (trim cs) cs := by
  refine ⟨cs.takeWhile isWhiteSpace, (cs.dropWhile isWhiteSpace).rtakeWhile isWhiteSpace, ?_, ?_⟩
  · rw [trim, List.rdropWhile_append_rtakeWhile, List.takeWhile_append_dropWhile]
  · intro c hc
    have hmem : c ∈ (cs.dropWhile isWhiteSpace).rtakeWhile isWhiteSpace := List.mem_of_mem_head? hc
    exact not_identChar_of_whiteSpace (List.mem_rtakeWhile_imp hmem)

theorem lazyBody_some {cs body : List Char} (h : lazyBody cs = some body) :
    ∃ post, cs = body ++ '}' :: post := by
  induction cs generalizing body with
  | nil => cases h
  | cons c cs ih =>
    rw [lazyBody] at h
    split at h
    · rename_i hc
      cases h
      exact ⟨cs, by rw [hc.1]; rfl⟩
    · split at h
      · cases h
      · obtain ⟨body', hb, rfl⟩ := Option.map_eq_some_iff.mp h
        obtain ⟨post, rfl⟩ := ih hb
        exact ⟨post, rfl⟩

theorem templateAt_inside {cs body : List Char} (h : templateAt cs = some body) :
    EndsInside body cs := by
  unfold templateAt at h
  split at h
  · rename_i c cs
    split at h
    · cases h
    · obtain ⟨body', hb, rfl⟩ := Option.map_eq_some_iff.mp h
      obtain ⟨post, rfl⟩ := lazyBody_some hb
      refine ⟨['{', '{'], '}' :: post, rfl, ?_⟩
      intro d hd
      cases hd
      decide
  · cases h

theorem templateBodies_inside {body : List Char} (cs : List Char) (skip : Nat)
    (h : body ∈ templateBodies skip cs) : EndsInside body cs := by
  have hcons : ∀ (c : Char) (rest : List Char), EndsInside body rest → EndsInside body (c :: rest) :=
    fun c rest ⟨pre, post, he, hp⟩ => ⟨c :: pre, post, by rw [he]; rfl, hp⟩
  induction cs generalizing skip with
  | nil => cases skip <;> cases h
  | cons c cs ih =>
    cases skip with
    | succ skip => exact hcons c cs (ih skip h)
    | zero =>
      rw [templateBodies] at h
      split at h
      · rename_i body' hb
        rcases List.mem_cons.mp h with rfl | h
        · exact templateAt_inside hb
        · exact hcons c cs (ih _ h)
      · exact hcons c cs (ih 0 h)

theorem stripPrefixPair_some {c : Char} {cs rest : List Char} (h : stripPrefixPair c cs = some rest) :
    cs = c :: c :: rest := by
  unfold stripPrefixPair at h
  split at h
  · split at h
    · rename_i hc
      simp only [Bool.and_eq_true, beq_iff_eq] at hc
      obtain ⟨rfl, rfl⟩ := hc
      cases h
      rfl
    · cases h
  · cases h

theorem singleTemplateExpression_inside {cs expr : List Char}
    (h : singleTemplateExpression cs = some expr) : EndsInside expr cs := by
  unfold singleTemplateExpression at h
  split at h
  · cases h
  · rename_i afterOpen hopen
    split at h
    · cases h
    · rename_i innerReversed hclose
      dsimp only at h
      split at h
      · cases h
      · cases h
        have htrim := stripPrefixPair_some hopen
        have hafter := congrArg List.reverse (stripPrefixPair_some hclose)
        simp only [List.reverse_reverse, List.reverse_cons, List.append_assoc] at hafter
        refine (trim_inside innerReversed.reverse).trans (EndsInside.trans ?_ (trim_inside cs))
        refine ⟨['{', '{'], ['}', '}'], by rw [htrim, hafter]; rfl, ?_⟩
        intro d hd
        cases hd
        decide

theorem templateTexts_inside {text cs : List Char} (h : text ∈ templateTexts cs) :
    EndsInside text cs := by
  have hbodies : text ∈ (templateBodies 0 cs).map trim → EndsInside text cs := by
    intro hm
    obtain ⟨body, hb, rfl⟩ := List.mem_map.mp hm
    exact (trim_inside body).trans (templateBodies_inside cs 0 hb)
  simp only [templateTexts] at h
  split at h
  · exact hbodies h
  · rename_i expr he
    split at h
    · cases h
    · split at h
      · exact hbodies h
      · rw [List.mem_singleton] at h
        subst h
        exact singleTemplateExpression_inside he

mutual

/-- A contiguous reference in a template is found by scanning the parameters. -/
theorem mem_scanValue_of_spelled {text : List Char} {id : String} (hs : SpelledIn text id)
    (v : Value) (h : text ∈ paramTexts v) : id ∈ scanValue v := by
  cases v with
  | string s => exact mem_scanString_of_spelled (spelledIn_inside hs (templateTexts_inside h))
  | array items => exact mem_scanItems_of_spelled hs items h
  | object fields => exact mem_scanFields_of_spelled hs fields h
  | _ => simp [paramTexts] at h

theorem mem_scanItems_of_spelled {text : List Char} {id : String} (hs : SpelledIn text id)
    (items : List Value) (h : text ∈ paramTextsItems items) : id ∈ scanItems items := by
  cases items with
  | nil => cases h
  | cons v rest =>
    rcases List.mem_append.mp h with h | h
    · exact List.mem_append_left _ (mem_scanValue_of_spelled hs v h)
    · exact List.mem_append_right _ (mem_scanItems_of_spelled hs rest h)

theorem mem_scanFields_of_spelled {text : List Char} {id : String} (hs : SpelledIn text id)
    (fields : List (String × Value)) (h : text ∈ paramTextsFields fields) :
    id ∈ scanFields fields := by
  cases fields with
  | nil => cases h
  | cons e rest =>
    obtain ⟨k, v⟩ := e
    rcases List.mem_append.mp h with h | h
    · exact List.mem_append_left _ (mem_scanValue_of_spelled hs v h)
    · exact List.mem_append_right _ (mem_scanFields_of_spelled hs rest h)

end

/-! ### What resolution reads -/

theorem replaceTemplates_congr {f g : List Char → List Char} (cs : List Char) (skip : Nat)
    (h : ∀ body ∈ templateBodies skip cs, f body = g body) :
    replaceTemplates f skip cs = replaceTemplates g skip cs := by
  induction cs generalizing skip with
  | nil => cases skip <;> rfl
  | cons c cs ih =>
    cases skip with
    | succ skip => exact ih skip h
    | zero =>
      rw [templateBodies] at h
      rw [replaceTemplates, replaceTemplates]
      split
      · rename_i body hb
        rw [hb] at h
        rw [h body List.mem_cons_self, ih _ fun b hm => h b (List.mem_cons_of_mem _ hm)]
      · rename_i hb
        rw [hb] at h
        rw [ih 0 h]

section Resolution

variable (floatText : Binary64 → String)

/-- Both bags give every expression of the texts the same value. -/
def SameReads (texts : List (List Char)) (bag bag' : Value) : Prop :=
  ∀ text ∈ texts, ∀ e, Parser.runAll Parser.parseExpression text = .ok e →
    evalExpression e (buildDslContext bag) = evalExpression e (buildDslContext bag')

theorem resolve_congr {s : String} {bag bag' : Value}
    (h : SameReads ((templateBodies 0 s.toList).map trim) bag bag') :
    resolve floatText s bag = resolve floatText s bag' := by
  refine congrArg String.ofList (replaceTemplates_congr _ _ fun body hb => ?_)
  unfold resolveExpressionToString
  split
  · rfl
  · split
    · rename_i parsed hp
      rw [h (trim body) (List.mem_map_of_mem hb) parsed hp]
    · rfl

theorem resolveStringAsValue_congr {s : String} {bag bag' : Value}
    (h : SameReads (templateTexts s.toList) bag bag') :
    resolveStringAsValue floatText s bag = resolveStringAsValue floatText s bag' := by
  simp only [templateTexts] at h
  unfold resolveStringAsValue
  split
  · rename_i hs
    rw [hs] at h
    rw [resolve_congr floatText h]
  · rename_i expr hs
    simp only [hs] at h
    split
    · rfl
    · rename_i hv
      rw [if_neg hv] at h
      split
      · rename_i e hp
        rw [hp] at h
        rw [resolve_congr floatText h]
      · rename_i parsed hp
        rw [hp] at h
        rw [h expr List.mem_cons_self parsed hp]

mutual

theorem resolveValue_congr {bag bag' : Value} (v : Value) (h : SameReads (paramTexts v) bag bag') :
    resolveValue floatText v bag = resolveValue floatText v bag' := by
  cases v with
  | string s => exact resolveStringAsValue_congr floatText h
  | array items => exact congrArg Value.array (resolveItems_congr items h)
  | object fields => exact congrArg Value.object (resolveFields_congr fields h)
  | _ => rfl

theorem resolveItems_congr {bag bag' : Value} (items : List Value)
    (h : SameReads (paramTextsItems items) bag bag') :
    resolveItems floatText items bag = resolveItems floatText items bag' := by
  cases items with
  | nil => rfl
  | cons v rest =>
    rw [resolveItems, resolveItems,
      resolveValue_congr v fun t ht => h t (List.mem_append_left _ ht),
      resolveItems_congr rest fun t ht => h t (List.mem_append_right _ ht)]

theorem resolveFields_congr {bag bag' : Value} (fields : List (String × Value))
    (h : SameReads (paramTextsFields fields) bag bag') :
    resolveFields floatText fields bag = resolveFields floatText fields bag' := by
  cases fields with
  | nil => rfl
  | cons e rest =>
    obtain ⟨k, v⟩ := e
    rw [resolveFields, resolveFields,
      resolveValue_congr v fun t ht => h t (List.mem_append_left _ ht),
      resolveFields_congr rest fun t ht => h t (List.mem_append_right _ ht)]

end

end Resolution

end Gwead
