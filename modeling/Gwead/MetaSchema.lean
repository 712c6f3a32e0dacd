import Gwead.NameGrammar

/-!
# The string formats of the meta-schema

A manifest given as JSON is held to the published meta-schema before it is read.  A string format
there is a regular expression, with conditionals on further ones for a permission.
-/

namespace Gwead

open Identity

namespace MetaSchema

/-- Every pattern of the meta-schema is anchored at its start; `toEnd` is a `$` after it. -/
structure Pattern where
  body : Regex Char
  toEnd : Bool

/-- A pattern is searched for, so without `$` it leaves the rest of the text free. -/
def Pattern.found (pattern : Pattern) (s : String) : Bool :=
  if pattern.toEnd then pattern.body.accepts s.toList
  else (Regex.seq pattern.body .anything).accepts s.toList

structure Conditional where
  whenever : Pattern
  required : Pattern

structure StringSchema where
  pattern : Pattern
  allOf : List Conditional

def StringSchema.accepts (schema : StringSchema) (s : String) : Bool :=
  schema.pattern.found s &&
    schema.allOf.all fun c => !c.whenever.found s || c.required.found s

def text (s : String) : Regex Char := .literal s.toList

/-! ### Names -/

/-- `[A-Za-z0-9_][A-Za-z0-9_-]{0,127}` -/
def name : Regex Char :=
  .seq (.chars fun c => c.isAlphanum || c == '_')
    (.upTo (.chars fun c => c.isAlphanum || c == '_' || c == '-') 127)

def stepId : Pattern where
  body := .seq (.chars fun c => c.isAlpha || c == '_')
    (.upTo (.chars fun c => c.isAlphanum || c == '_' || c == '-') 127)
  toEnd := true

def identifier : Pattern where
  body := name
  toEnd := true

/-- `<name>(\.<name>)?` -/
def dottedName : Regex Char := .seq name (.opt (.seq (text ".") name))

def stepTypeName : Pattern where
  body := dottedName
  toEnd := true

/-! ### Permissions -/

/-- A dot of a pattern is any character but the four that end a line. -/
def notLineEnd (c : Char) : Bool :=
  !(c == '\n' || c == '\r' || c == '\u2028' || c == '\u2029')

/-- `[^*?\[]` -/
def notGlob : Regex Char := .chars fun c => !(c == '*' || c == '?' || c == '[')

def word (words : List String) : Regex Char := .oneOf (words.map text)

def startsWith (s : String) : Pattern where
  body := text s
  toEnd := false

/-- `^network:egress:(\*|\*\.[^*?\[]+|[^*?\[]+)$` -/
def network : Pattern where
  body := .seq (text "network:egress:")
    (.oneOf [text "*", .seq (text "*.") (.plus notGlob), .plus notGlob])
  toEnd := true

/-- `^blobs:(read|write|delete|list|stat|watch):(\*|[^*?\[]+/\*|[^*?\[]+)$` -/
def blobs : Pattern where
  body := .seq (text "blobs:") (.seq (word ["read", "write", "delete", "list", "stat", "watch"])
    (.seq (text ":") (.oneOf [text "*", .seq (.plus notGlob) (text "/*"), .plus notGlob])))
  toEnd := true

/-- `^step_type:<name>(\.<name>)?$` -/
def stepType : Pattern where
  body := .seq (text "step_type:") dottedName
  toEnd := true

/-- `^invoke:(plugin|role):(\*|<name>)$` -/
def invoke : Pattern where
  body := .seq (text "invoke:") (.seq (word ["plugin", "role"])
    (.seq (text ":") (.alt (text "*") name)))
  toEnd := true

/-- `^provide:step_type:<name>(\.<name>)?(:<name>)?$` -/
def provide : Pattern where
  body := .seq (text "provide:step_type:") (.seq dottedName (.opt (.seq (text ":") name)))
  toEnd := true

/-- `^bind:native_impl:<name>(\.<name>)*$` -/
def bind : Pattern where
  body := .seq (text "bind:native_impl:") (.seq name (.star (.seq (text ".") name)))
  toEnd := true

/-- `^[^.:]+:` -/
def dotFreeCategory : Pattern where
  body := .seq (.plus (.chars fun c => !(c == '.' || c == ':'))) (text ":")
  toEnd := false

def kernelCategory : Pattern where
  body := .seq (word ["network", "blobs", "step_type", "invoke", "provide", "bind"]) (text ":")
  toEnd := false

def permission : StringSchema where
  pattern :=
    { body := .seq (.plus (.chars notLineEnd)) (.seq (text ":") (.plus (.chars notLineEnd)))
      toEnd := true }
  allOf :=
    [{ whenever := startsWith "network:", required := network },
     { whenever := startsWith "blobs:", required := blobs },
     { whenever := startsWith "step_type:", required := stepType },
     { whenever := startsWith "invoke:", required := invoke },
     { whenever := startsWith "provide:", required := provide },
     { whenever := startsWith "bind:", required := bind },
     { whenever := dotFreeCategory, required := kernelCategory }]

/-! ### What a pattern matches -/

theorem Pattern.found_toEnd {pattern : Pattern} (hend : pattern.toEnd = true) {s : String} :
    pattern.found s = true ↔ s.toList ∈ pattern.body.lang := by
  rw [found, if_pos hend, Regex.accepts_iff]

theorem Pattern.found_start {pattern : Pattern} (hend : pattern.toEnd = false) {s : String} :
    pattern.found s = true ↔ ∃ a ∈ pattern.body.lang, a <+: s.toList := by
  rw [found, if_neg (by simp [hend]), Regex.accepts_iff, Regex.mem_seq_anything]

theorem mem_text {s : String} {w : List Char} : w ∈ (text s).lang ↔ w = s.toList :=
  Regex.mem_literal

theorem mem_word {words : List String} {w : List Char} :
    w ∈ (word words).lang ↔ ∃ s ∈ words, w = s.toList := by
  rw [word, Regex.mem_oneOf]
  constructor
  · rintro ⟨r, hr, hw⟩
    obtain ⟨s, hs, rfl⟩ := List.mem_map.mp hr
    exact ⟨s, hs, mem_text.mp hw⟩
  · rintro ⟨s, hs, hw⟩
    exact ⟨text s, List.mem_map_of_mem hs, mem_text.mpr hw⟩

/-- One character of a class, then at most 127 of a name's later ones. -/
theorem mem_nameFrom {start : Char → Bool} (hstart : ∀ c, start c = true → nameChar true c = true)
    {w : List Char} :
    w ∈ (Regex.seq (.chars start)
      (.upTo (.chars fun c => c.isAlphanum || c == '_' || c == '-') 127)).lang ↔
      IsName w ∧ ∃ c ∈ w.head?, start c = true := by
  have hpart : ∀ c : Char, (c.isAlphanum || c == '_' || c == '-') = nameChar false c := fun c => by
    simp [nameChar]
  simp only [hpart]
  rw [Regex.mem_seq]
  constructor
  · rintro ⟨_, ⟨c, hc, rfl⟩, b, hb, rfl⟩
    obtain ⟨hlen, hall⟩ := Regex.mem_upTo_chars.mp hb
    refine ⟨⟨⟨c, rfl, hstart c hc⟩, ?_, Nat.succ_le_succ hlen⟩, c, rfl, hc⟩
    exact List.forall_mem_cons.mpr ⟨nameChar_false_of_true (hstart c hc), hall⟩
  · rintro ⟨hname, c, hhead, hc⟩
    cases w with
    | nil => cases hhead
    | cons d w =>
      cases hhead
      have hall := (List.forall_mem_cons.mp hname.later).2
      exact ⟨[c], ⟨c, hc, rfl⟩, w,
        Regex.mem_upTo_chars.mpr ⟨Nat.le_of_succ_le_succ hname.length, hall⟩, rfl⟩

theorem mem_name {w : List Char} : w ∈ name.lang ↔ IsName w := by
  have hfirst : ∀ c : Char, (c.isAlphanum || c == '_') = nameChar true c := fun c => by
    simp [nameChar]
  rw [name, mem_nameFrom fun c hc => (hfirst c).symm.trans hc]
  simp only [hfirst]
  exact and_iff_left_of_imp IsName.first

theorem mem_dottedName {w : List Char} : w ∈ dottedName.lang ↔ IsStepTypeName w := by
  rw [dottedName, Regex.mem_seq, IsStepTypeName]
  constructor
  · rintro ⟨a, ha, b, hb, rfl⟩
    rcases Regex.mem_opt.mp hb with hb | rfl
    · obtain ⟨rest, hrest, rfl⟩ := Regex.mem_literal_seq.mp hb
      exact Or.inr ⟨a, rest, mem_name.mp ha, mem_name.mp hrest, rfl⟩
    · exact Or.inl (by rwa [List.append_nil, ← mem_name])
  · rintro (h | ⟨a, b, ha, hb, rfl⟩)
    · exact ⟨w, mem_name.mpr h, [], Regex.mem_opt.mpr (Or.inr rfl), List.append_nil w⟩
    · refine ⟨a, mem_name.mpr ha, stepTypeSeparator :: b, Regex.mem_opt.mpr (Or.inl ?_), rfl⟩
      exact Regex.mem_literal_seq.mpr ⟨b, mem_name.mpr hb, rfl⟩

end MetaSchema

open MetaSchema

/-- A letter of the ASCII alphabet or an underscore is a name's first character, digits aside. -/
theorem nameChar_true_iff {c : Char} :
    (c.isAlpha || c == '_') = true ↔ nameChar true c = true ∧ c.isDigit = false := by
  constructor
  · intro h
    refine ⟨?_, ?_⟩
    · rcases Bool.or_eq_true _ _ |>.mp h with h | h
      · simp [nameChar, Char.isAlphanum, h]
      · simp [nameChar, h]
    · by_contra hdigit
      rw [Bool.not_eq_false] at hdigit
      rcases Bool.or_eq_true _ _ |>.mp h with h | h
      · rw [Ascii.isAlpha_iff] at h
        rw [Ascii.isDigit_iff] at hdigit
        omega
      · rw [beq_iff_eq.mp h] at hdigit
        cases hdigit
  · rintro ⟨h, hdigit⟩
    simpa [nameChar, Char.isAlphanum, hdigit] using h

/-- The meta-schema's formats of names accept what the validators of names accept. -/
structure NameFormatsAgree : Prop where
  identifier : ∀ kind ≠ NameKind.stepId, ∀ s : String,
    identifier.found s = true ↔ validateName kind s = .ok ()
  stepId : ∀ s : String, stepId.found s = true ↔ validateName .stepId s = .ok ()
  stepTypeName : ∀ s : String,
    stepTypeName.found s = true ↔ validateStepTypeReference s = .ok ()

theorem nameFormats_agree : NameFormatsAgree where
  identifier kind hkind s := by
    rw [Pattern.found_toEnd rfl, validateName_iff_isName hkind]
    exact mem_name
  stepId s := by
    have hstart : ∀ c : Char, (c.isAlpha || c == '_') = true → nameChar true c = true := fun c hc =>
      (nameChar_true_iff.mp hc).1
    rw [Pattern.found_toEnd rfl, validateName_iff]
    refine (mem_nameFrom hstart).trans (and_congr_right fun hname => ?_)
    obtain ⟨c, hc, hfirst⟩ := hname.first
    constructor
    · rintro ⟨d, hd, hdstart⟩ _ e he
      rw [Option.mem_unique he hd]
      exact (nameChar_true_iff.mp hdstart).2
    · intro h
      exact ⟨c, hc, nameChar_true_iff.mpr ⟨hfirst, h rfl c hc⟩⟩
  stepTypeName s := by
    rw [Pattern.found_toEnd rfl, validateStepTypeReference_iff]
    exact mem_dottedName

end Gwead
