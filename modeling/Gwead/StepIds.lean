import Gwead.Edges
import Gwead.Identity
import Gwead.PlanSpec
import Gwead.Dsl.ParserGrammar

/-!
# Step ids and references to them

Three definitions of an identifier, compared on every text: what registration accepts as a step
id, what a `$steps` reference can name and what the planner's pattern captures.
-/

namespace Gwead

open Dsl Identity

/-- The reference to a step, with no path. -/
def stepsSource (id : String) : String := "$steps." ++ id

theorem toList_stepsSource (id : String) :
    (stepsSource id).toList = dollarSteps ++ id.toList := by
  rw [stepsSource, String.toList_append]
  rfl

/-! ### Registration -/

theorem nameChar_first {c : Char} (h : c.isDigit = false) : nameChar true c = isIdentStart c := by
  simp [nameChar, isIdentStart, Char.isAlphanum, h]

theorem nameChar_later (c : Char) : nameChar false c = isIdentChar c := by
  simp [nameChar, isIdentChar]

theorem invalidChar?_eq_none {c : Char} {cs : List Char} : invalidChar? (c :: cs) = none ↔
    nameChar true c = true ∧ ∀ d ∈ cs, nameChar false d = true := by
  rw [invalidChar?]
  cases hc : nameChar true c with
  | true => simp
  | false => simp

theorem isIdentChar_separator : isIdentChar namespaceSeparator = false := by decide

/-- Registration accepts exactly the words. -/
theorem validateName_stepId_ok {id : String} (hlen : id.utf8ByteSize ≤ maxNameLen) :
    validateName .stepId id = .ok () ↔ IsWord id.toList := by
  rw [isWord_iff, validateName]
  cases hid : id.toList with
  | nil =>
    have hempty : id = "" := String.toList_injective hid
    simp [hempty]
  | cons c cs =>
    have hne : id ≠ "" := by
      rintro rfl
      cases hid
    rw [if_neg hne, if_neg (by omega)]
    constructor
    · intro h
      split at h
      · cases h
      · split at h
        · cases h
        · rename_i hdigit
          have hdigit : c.isDigit = false := by simpa using hdigit
          cases hinvalid : invalidChar? (c :: cs) with
          | some d => simp [hinvalid] at h
          | none =>
            obtain ⟨hfirst, hlater⟩ := invalidChar?_eq_none.mp hinvalid
            rw [nameChar_first hdigit] at hfirst
            refine ⟨⟨c, rfl, hfirst⟩, List.forall_mem_cons.mpr ⟨?_, fun d hd => ?_⟩⟩
            · exact Dsl.isIdentChar_of_start hfirst
            · rw [← nameChar_later]
              exact hlater d hd
    · rintro ⟨⟨_, hc, hstart⟩, hall⟩
      cases hc
      have hplain : ¬ ((c :: cs).contains namespaceSeparator) = true := by
        intro h
        have hsep := hall _ (List.contains_iff_mem.mp h)
        rw [isIdentChar_separator] at hsep
        cases hsep
      have hdigit : c.isDigit = false := (isIdentStart_plain hstart).1
      have hinvalid : invalidChar? (c :: cs) = none := by
        refine invalidChar?_eq_none.mpr ⟨(nameChar_first hdigit).trans hstart, fun d hd => ?_⟩
        rw [nameChar_later]
        exact hall d (List.mem_cons_of_mem _ hd)
      rw [if_neg hplain]
      simp [hdigit, hinvalid]

/-! ### The planner's pattern -/

/-- The pattern captures the whole id exactly where the id is a word. -/
theorem stepsRefAt_stepsSource {id : String} :
    stepsRefAt (stepsSource id).toList = some id.toList ↔ IsWord id.toList := by
  rw [isWord_iff, toList_stepsSource]
  constructor
  · intro h
    obtain ⟨⟨c, cs, hid, hstart⟩, -, -, -, hall⟩ := stepsRefAt_exact h
    exact ⟨⟨c, by rw [hid]; rfl, hstart⟩, hall⟩
  · rintro ⟨⟨c, hc, hstart⟩, hall⟩
    have hmatch := @stepsRefAt_spelled id [] (by simp) ?_ hall
    · rwa [List.append_nil] at hmatch
    · cases hid : id.toList with
      | nil => rw [hid] at hc; cases hc
      | cons d cs =>
        rw [hid] at hc
        cases hc
        exact ⟨c, cs, rfl, hstart⟩

/-! ### The parser -/

/-- A word that is not reserved. -/
def IsIdent (id : String) : Prop := IsWord id.toList ∧ id ∉ reservedWords

theorem isIdent_of_ident {l : Lexeme} {id : String} (h : Ident l id) : IsIdent id := by
  cases h with
  | mk free =>
    rename_i cs shape
    exact ⟨by rwa [String.toList_ofList], free⟩

theorem isIdent_of_reference {ls : List Lexeme} {r : Written.Reference} {id : String}
    (h : IsReference ls r) (hroot : r.root = .steps id) : IsIdent id := by
  cases h with
  | implicit hpath => cases hroot
  | rooted hrootName hpath =>
    cases hrootName with
    | steps hid =>
      cases hroot
      exact isIdent_of_ident hid
    | _ => cases hroot

section Levels

variable {operators : Operators} {operand : List Lexeme → Written.Expression → Prop}

/-- A round of operators ends in a reference only where there was none. -/
theorem Rounds.of_ref {left e : Written.Expression} {ls : List Lexeme} {r : Written.Reference}
    (h : Rounds operators operand left ls e) (he : e = .ref r) : left = .ref r := by
  induction h with
  | done => exact he
  | more listed hop hright tail ih => cases ih he

theorem IsBinary.of_ref {unary : List Lexeme → Written.Expression → Prop} {r : Written.Reference}
    {P : Prop} (hunary : ∀ ls, unary ls (.ref r) → P) : ∀ ls, IsBinary unary ls (.ref r) → P := by
  refine List.foldlRecOn (motive := fun operand : List Lexeme → Written.Expression → Prop =>
    ∀ ls, operand ls (.ref r) → P) precedence _ hunary fun operand hoperand operators _ => ?_
  rintro _ ⟨hfirst, tail⟩
  rw [Rounds.of_ref tail rfl] at hfirst
  exact hoperand _ hfirst

/-- An operand is a phrase of every level. -/
theorem IsBinary.of_unary {unary : List Lexeme → Written.Expression → Prop} {ls : List Lexeme}
    {e : Written.Expression} (h : unary ls e) : IsBinary unary ls e := by
  refine List.foldlRecOn (motive := fun operand : List Lexeme → Written.Expression → Prop =>
    operand ls e) precedence _ h fun operand hoperand operators _ => ?_
  have hlevel : IsLevel operators operand (ls ++ []) e := .mk hoperand .done
  rwa [List.append_nil] at hlevel

end Levels

theorem IsUnary.reference {depth : Nat} {r : Written.Reference} :
    ∀ ls, IsUnary depth ls (.ref r) → ∃ used, IsReference used r := by
  induction depth with
  | zero =>
    rintro ls (_ | _ | _ | _ | _ | href)
    exact ⟨_, href⟩
  | succ depth ih =>
    rintro ls (hleaf | ⟨inner, e', -, -, he⟩ | ⟨inner, h, -⟩)
    · cases hleaf with
      | reference href => exact ⟨_, href⟩
    · cases he
    · exact IsBinary.of_ref ih _ h

/-- The reference to a word that is not reserved, as terminals. -/
theorem spelled_stepsSource {id : String} (h : IsWord id.toList) :
    Spelled [sym .dollar, quoted "steps", sym .dot, .word id.toList h] (stepsSource id).toList := by
  have hword : Spelled [.word id.toList h] ([] ++ (id.toList ++ [])) := .cons (by simp) (.nil (by simp))
  have hdot : Spelled [sym .dot, .word id.toList h] ([] ++ (['.'] ++ _)) := .cons (by simp) hword
  have hsteps : Spelled [quoted "steps", sym .dot, .word id.toList h]
      ([] ++ (['s', 't', 'e', 'p', 's'] ++ _)) := .cons (by simp) hdot
  have hdollar : Spelled [sym .dollar, quoted "steps", sym .dot, .word id.toList h]
      ([] ++ (['$'] ++ _)) := .cons (by simp) hsteps
  rw [toList_stepsSource]
  simpa [dollarSteps] using hdollar

theorem isReference_steps {id : String} (h : IsIdent id) :
    IsReference [sym .dollar, quoted "steps", sym .dot, .word id.toList h.1] ⟨.steps id, []⟩ := by
  have hident : Ident (.word id.toList h.1) (String.ofList id.toList) :=
    .mk (by rw [String.ofList_toList]; exact h.2)
  rw [String.ofList_toList] at hident
  exact .rooted (.steps hident) .nil

theorem parseReference_stepsSource {id : String} :
    parseReference (stepsSource id) = .ok ⟨.steps id, []⟩ ↔ IsIdent id := by
  rw [parseReference_ok]
  constructor
  · rintro ⟨w, ⟨ls, -, href⟩, hread⟩
    obtain ⟨path, -, heq⟩ := Option.map_eq_some_iff.mp hread
    exact isIdent_of_reference href (congrArg Dsl.Reference.root heq)
  · intro h
    exact ⟨⟨.steps id, []⟩, ⟨_, spelled_stepsSource h.1, isReference_steps h⟩, rfl⟩

theorem parseExpression_stepsSource {id : String} :
    parseExpression (stepsSource id) = .ok (.ref ⟨.steps id, []⟩) ↔ IsIdent id := by
  rw [parseExpression_ok]
  constructor
  · rintro ⟨w, ⟨ls, -, hphrase⟩, -, hread⟩
    cases w with
    | ref r =>
      obtain ⟨r', hr', heq⟩ := Option.map_eq_some_iff.mp hread
      cases heq
      obtain ⟨path, -, heq⟩ := Option.map_eq_some_iff.mp hr'
      obtain ⟨used, href⟩ := IsBinary.of_ref IsUnary.reference ls hphrase
      exact isIdent_of_reference href (congrArg Dsl.Reference.root heq)
    | not e => cases hn : e.read Numeral.indexThroughF64 <;> simp [Written.Expression.read, hn] at hread
    | binary op l r =>
      obtain ⟨a, -, hread⟩ := Option.bind_eq_some_iff.mp hread
      obtain ⟨b, -, heq⟩ := Option.map_eq_some_iff.mp hread
      cases heq
    | _ => cases hread
  · intro h
    have hleaf : IsUnary maxExprDepth _ (.ref ⟨.steps id, []⟩) :=
      Or.inl (.reference (isReference_steps h))
    exact ⟨.ref ⟨.steps id, []⟩, ⟨_, spelled_stepsSource h.1, IsBinary.of_unary hleaf⟩,
      Nat.zero_le _, rfl⟩

/-! ### Agreement -/

/-- Registration, the reference parser, the expression parser and the planner's pattern take the
same view of an id. -/
structure Referable (id : String) : Prop where
  reference : validateName .stepId id = .ok () ↔
    parseReference (stepsSource id) = .ok ⟨.steps id, []⟩
  expression : validateName .stepId id = .ok () ↔
    parseExpression (stepsSource id) = .ok (.ref ⟨.steps id, []⟩)
  captured : validateName .stepId id = .ok () ↔
    stepsRefAt (stepsSource id).toList = some id.toList

/-- The views differ exactly on the reserved words. -/
theorem stepId_referable_iff {id : String} (hlen : id.utf8ByteSize ≤ maxNameLen) :
    Referable id ↔ id ∉ reservedWords := by
  have hreserved : ∀ w ∈ reservedWords, IsWord w.toList := by decide
  constructor
  · intro h hmem
    have hword := (validateName_stepId_ok hlen).mpr (hreserved id hmem)
    exact (parseReference_stepsSource.mp (h.reference.mp hword)).2 hmem
  · intro hfree
    have hident : IsIdent id ↔ IsWord id.toList := ⟨fun h => h.1, fun h => ⟨h, hfree⟩⟩
    constructor
    · rw [parseReference_stepsSource, validateName_stepId_ok hlen, hident]
    · rw [parseExpression_stepsSource, validateName_stepId_ok hlen, hident]
    · rw [stepsRefAt_stepsSource, validateName_stepId_ok hlen]

theorem stepId_referable_fetch : Referable "fetch-2" ∧ ¬ Referable "true" := by
  constructor
  · exact (stepId_referable_iff (by decide +kernel)).mpr (by decide)
  · exact fun h => (stepId_referable_iff (by decide +kernel)).mp h (by decide)

/-- Registration accepts the id `true` and the pattern captures it, and no reference names it. -/
theorem stepId_not_referable :
    ¬ (∀ id : String, id.utf8ByteSize ≤ maxNameLen → Referable id) ∧
      validateName .stepId "true" = .ok () ∧ (parseReference "$steps.true").isOk = false ∧
      scanString "$steps.true" = ["true"] := by
  refine ⟨fun h => ?_, by decide +kernel, by decide +kernel, by decide +kernel⟩
  have hagree := (h "true" (by decide +kernel)).reference
  have hnone : (parseReference (stepsSource "true")).isOk = false := by decide +kernel
  rw [hagree.mp (by decide +kernel)] at hnone
  cases hnone

end Gwead
