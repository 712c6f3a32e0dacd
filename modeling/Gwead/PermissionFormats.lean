import Gwead.MetaSchema
import Gwead.PermissionGrammar

/-!
# Permissions in the meta-schema

Which texts the meta-schema takes for a permission, told in the parser's own terms: the permission
each of them is the text of.
-/

namespace Gwead

open Identity

namespace MetaSchema

/-- A host as the meta-schema describes it: a colon may stand in it. -/
def HostForm : HostPattern → Prop
  | .any => True
  | .suffix s => s ≠ "" ∧ GlobFree s
  | .exact s => s ≠ "" ∧ GlobFree s

/-- A path as the meta-schema describes it: what stands before `/*` is not empty. -/
def PathForm : PathPattern → Prop
  | .any => True
  | .prefixed s => s ≠ "" ∧ GlobFree s
  | .exact s => s ≠ "" ∧ GlobFree s

def PermissionForm : Permission → Prop
  | .networkEgress host => HostForm host
  | .blobs _ path => PathForm path
  | p => p.WellFormed

/-! ### The texts of the patterns -/

theorem globFree_iff {s : String} : GlobFree s ↔
    ∀ c ∈ s.toList, (!(c == '*' || c == '?' || c == '[')) = true := by
  simp [GlobFree, Permission.globChars, and_assoc]

theorem mem_plus_notGlob {w : List Char} : w ∈ (Regex.plus notGlob).lang ↔
    String.ofList w ≠ "" ∧ GlobFree (String.ofList w) := by
  rw [notGlob, Regex.mem_plus_chars, globFree_iff, String.toList_ofList]
  simp [← String.toList_inj]

theorem exists_toList {P : List Char → Prop} : (∃ cs, P cs) ↔ ∃ s : String, P s.toList :=
  ⟨fun ⟨cs, h⟩ => ⟨String.ofList cs, by rwa [String.toList_ofList]⟩, fun ⟨s, h⟩ => ⟨s.toList, h⟩⟩

theorem mem_host {w : List Char} :
    w ∈ (Regex.oneOf [text "*", .seq (text "*.") (.plus notGlob), .plus notGlob]).lang ↔
      ∃ host : HostPattern, HostForm host ∧ host.text.toList = w := by
  simp only [Regex.mem_oneOf, List.mem_cons, List.not_mem_nil, or_false]
  constructor
  · rintro ⟨r, rfl | rfl | rfl, hw⟩
    · exact ⟨.any, trivial, (mem_text.mp hw).symm⟩
    · obtain ⟨x, hx, rfl⟩ := Regex.mem_literal_seq.mp hw
      exact ⟨.suffix (String.ofList x), mem_plus_notGlob.mp hx, by simp [HostPattern.text]⟩
    · exact ⟨.exact (String.ofList w), mem_plus_notGlob.mp hw, by simp [HostPattern.text]⟩
  · rintro ⟨host, hform, rfl⟩
    cases host with
    | any => exact ⟨_, Or.inl rfl, mem_text.mpr rfl⟩
    | suffix x =>
      refine ⟨_, Or.inr (Or.inl rfl), Regex.mem_literal_seq.mpr ⟨x.toList, ?_, ?_⟩⟩
      · rw [mem_plus_notGlob, String.ofList_toList]
        exact hform
      · simp [HostPattern.text]
    | exact x =>
      refine ⟨_, Or.inr (Or.inr rfl), ?_⟩
      rw [mem_plus_notGlob, String.ofList_toList]
      exact hform

theorem mem_path {w : List Char} :
    w ∈ (Regex.oneOf [text "*", .seq (.plus notGlob) (text "/*"), .plus notGlob]).lang ↔
      ∃ path : PathPattern, PathForm path ∧ path.text.toList = w := by
  simp only [Regex.mem_oneOf, List.mem_cons, List.not_mem_nil, or_false]
  constructor
  · rintro ⟨r, rfl | rfl | rfl, hw⟩
    · exact ⟨.any, trivial, (mem_text.mp hw).symm⟩
    · obtain ⟨x, hx, y, hy, rfl⟩ := Regex.mem_seq.mp hw
      refine ⟨.prefixed (String.ofList x), mem_plus_notGlob.mp hx, ?_⟩
      simp [PathPattern.text, mem_text.mp hy]
    · exact ⟨.exact (String.ofList w), mem_plus_notGlob.mp hw, by simp [PathPattern.text]⟩
  · rintro ⟨path, hform, rfl⟩
    cases path with
    | any => exact ⟨_, Or.inl rfl, mem_text.mpr rfl⟩
    | prefixed x =>
      refine ⟨_, Or.inr (Or.inl rfl), Regex.mem_seq.mpr ⟨x.toList, ?_, "/*".toList, ?_, ?_⟩⟩
      · rw [mem_plus_notGlob, String.ofList_toList]
        exact hform
      · exact mem_text.mpr rfl
      · simp [PathPattern.text]
    | exact x =>
      refine ⟨_, Or.inr (Or.inr rfl), ?_⟩
      rw [mem_plus_notGlob, String.ofList_toList]
      exact hform

theorem mem_network {w : List Char} : w ∈ network.body.lang ↔
    ∃ host, HostForm host ∧ (Permission.networkEgress host).text.toList = w := by
  refine Regex.mem_literal_seq.trans ?_
  constructor
  · rintro ⟨rest, hrest, rfl⟩
    obtain ⟨host, hform, rfl⟩ := mem_host.mp hrest
    exact ⟨host, hform, by simp [Permission.text, Permission.category, Permission.rest]⟩
  · rintro ⟨host, hform, rfl⟩
    refine ⟨host.text.toList, mem_host.mpr ⟨host, hform, rfl⟩, ?_⟩
    simp [Permission.text, Permission.category, Permission.rest]

theorem mem_blobs {w : List Char} : w ∈ blobs.body.lang ↔
    ∃ op path, PathForm path ∧ (Permission.blobs op path).text.toList = w := by
  refine Regex.mem_literal_seq.trans ?_
  constructor
  · rintro ⟨rest, hrest, rfl⟩
    obtain ⟨a, ha, b, hb, rfl⟩ := Regex.mem_seq.mp hrest
    obtain ⟨c, hc, rfl⟩ := Regex.mem_literal_seq.mp hb
    obtain ⟨path, hform, rfl⟩ := mem_path.mp hc
    obtain ⟨o, ho, rfl⟩ := mem_word.mp ha
    have hop : ∃ op : BlobOp, op.display = o := by
      simp only [List.mem_cons, List.not_mem_nil, or_false] at ho
      rcases ho with rfl | rfl | rfl | rfl | rfl | rfl
      · exact ⟨.read, rfl⟩
      · exact ⟨.write, rfl⟩
      · exact ⟨.delete, rfl⟩
      · exact ⟨.list, rfl⟩
      · exact ⟨.stat, rfl⟩
      · exact ⟨.watch, rfl⟩
    obtain ⟨op, rfl⟩ := hop
    exact ⟨op, path, hform, by simp [Permission.text, Permission.category, Permission.rest]⟩
  · rintro ⟨op, path, hform, rfl⟩
    refine ⟨op.display.toList ++ (":".toList ++ path.text.toList), ?_, ?_⟩
    · refine Regex.mem_seq.mpr ⟨op.display.toList, ?_, _, ?_, rfl⟩
      · exact mem_word.mpr ⟨op.display, by cases op <;> decide, rfl⟩
      · exact Regex.mem_literal_seq.mpr ⟨_, mem_path.mpr ⟨path, hform, rfl⟩, rfl⟩
    · simp [Permission.text, Permission.category, Permission.rest]

theorem mem_stepType {w : List Char} : w ∈ stepType.body.lang ↔
    ∃ name, (Permission.stepType name).WellFormed ∧
      (Permission.stepType name).text.toList = w := by
  refine Regex.mem_literal_seq.trans (exists_toList.trans (exists_congr fun name => ?_))
  rw [mem_dottedName]
  simp [Permission.WellFormed, Permission.text, Permission.category, Permission.rest]

theorem mem_invoke {w : List Char} : w ∈ invoke.body.lang ↔
    ∃ pattern : NamePattern, pattern.WellFormed ∧
      ((Permission.invokePlugin pattern).text.toList = w ∨
        (Permission.invokeRole pattern).text.toList = w) := by
  refine Regex.mem_literal_seq.trans ?_
  have hname : ∀ x : List Char, x ∈ (Regex.alt (text "*") name).lang ↔
      ∃ pattern : NamePattern, pattern.WellFormed ∧ pattern.text.toList = x := by
    intro x
    rw [Regex.mem_alt, mem_text, mem_name]
    constructor
    · rintro (rfl | hx)
      · exact ⟨.any, trivial, rfl⟩
      · refine ⟨.exact (String.ofList x), ?_, String.toList_ofList⟩
        rw [NamePattern.WellFormed, String.toList_ofList]
        exact hx
    · rintro ⟨pattern, hwf, rfl⟩
      cases pattern with
      | any => exact Or.inl rfl
      | exact x => exact Or.inr hwf
  constructor
  · rintro ⟨rest, hrest, rfl⟩
    obtain ⟨a, ha, b, hb, rfl⟩ := Regex.mem_seq.mp hrest
    obtain ⟨c, hc, rfl⟩ := Regex.mem_literal_seq.mp hb
    obtain ⟨pattern, hwf, rfl⟩ := (hname c).mp hc
    obtain ⟨kind, hkind, rfl⟩ := mem_word.mp ha
    simp only [List.mem_cons, List.not_mem_nil, or_false] at hkind
    rcases hkind with rfl | rfl
    · exact ⟨pattern, hwf,
        Or.inl (by simp [Permission.text, Permission.category, Permission.rest])⟩
    · exact ⟨pattern, hwf,
        Or.inr (by simp [Permission.text, Permission.category, Permission.rest])⟩
  · rintro ⟨pattern, hwf, hw⟩
    have htail : ":".toList ++ pattern.text.toList ∈
        (Regex.seq (text ":") (.alt (text "*") name)).lang :=
      Regex.mem_literal_seq.mpr ⟨_, (hname _).mpr ⟨pattern, hwf, rfl⟩, rfl⟩
    rcases hw with rfl | rfl
    · refine ⟨"plugin".toList ++ (":".toList ++ pattern.text.toList), ?_, ?_⟩
      · exact Regex.mem_seq.mpr ⟨_, mem_word.mpr ⟨"plugin", by decide, rfl⟩, _, htail, rfl⟩
      · simp [Permission.text, Permission.category, Permission.rest]
    · refine ⟨"role".toList ++ (":".toList ++ pattern.text.toList), ?_, ?_⟩
      · exact Regex.mem_seq.mpr ⟨_, mem_word.mpr ⟨"role", by decide, rfl⟩, _, htail, rfl⟩
      · simp [Permission.text, Permission.category, Permission.rest]

theorem mem_provide {w : List Char} : w ∈ provide.body.lang ↔
    ∃ ty selector, (Permission.provideStepType ty selector).WellFormed ∧
      (Permission.provideStepType ty selector).text.toList = w := by
  refine Regex.mem_literal_seq.trans ?_
  constructor
  · rintro ⟨rest, hrest, rfl⟩
    obtain ⟨a, ha, b, hb, rfl⟩ := Regex.mem_seq.mp hrest
    have ha := mem_dottedName.mp ha
    rcases Regex.mem_opt.mp hb with hb | rfl
    · obtain ⟨sel, hsel, rfl⟩ := Regex.mem_literal_seq.mp hb
      refine ⟨String.ofList a, some (String.ofList sel), ⟨?_, fun x hx => ?_⟩, ?_⟩
      · rwa [String.toList_ofList]
      · cases hx
        rw [String.toList_ofList]
        exact mem_name.mp hsel
      · simp [Permission.text, Permission.category, Permission.rest, selectorText]
    · refine ⟨String.ofList a, none, ⟨?_, fun x hx => by cases hx⟩, ?_⟩
      · rwa [String.toList_ofList]
      · simp [Permission.text, Permission.category, Permission.rest, selectorText]
  · rintro ⟨ty, selector, ⟨hty, hsel⟩, rfl⟩
    refine ⟨ty.toList ++ (selectorText selector).toList, Regex.mem_seq.mpr
      ⟨ty.toList, mem_dottedName.mpr hty, (selectorText selector).toList, ?_, rfl⟩, ?_⟩
    · cases selector with
      | none => exact Regex.mem_opt.mpr (Or.inr rfl)
      | some sel =>
        refine Regex.mem_opt.mpr (Or.inl (Regex.mem_literal_seq.mpr
          ⟨sel.toList, mem_name.mpr (hsel sel rfl), ?_⟩))
        simp [selectorText]
    · simp [Permission.text, Permission.category, Permission.rest]

theorem splitAll_rounds {r : Regex Char} (hdot : ∀ a ∈ r.lang, '.' ∉ a)
    {rounds : List (List Char)} (hrounds : ∀ y ∈ rounds, y ∈ (Regex.seq (text ".") r).lang)
    {a : List Char} (ha : a ∈ r.lang) :
    ∀ part ∈ splitAll '.' (a ++ rounds.flatten), part ∈ r.lang := by
  induction rounds generalizing a with
  | nil =>
    rw [List.flatten_nil, List.append_nil, splitAll_eq_splitOn,
      List.splitOn_eq_singleton (hdot a ha)]
    simpa using ha
  | cons y rounds ih =>
    obtain ⟨hy, hrest⟩ := List.forall_mem_cons.mp hrounds
    obtain ⟨b, hb, rfl⟩ := Regex.mem_literal_seq.mp hy
    have hshape : a ++ ((".".toList ++ b) :: rounds).flatten = a ++ '.' :: (b ++ rounds.flatten) := by
      simp
    rw [hshape, splitAll_eq_splitOn, List.splitOn_append_cons_self_of_not_mem (hdot a ha),
      ← splitAll_eq_splitOn]
    exact List.forall_mem_cons.mpr ⟨ha, ih hrest hb⟩

/-- The dotted words over a language without dots are those whose parts are all in it. -/
theorem mem_dotted {r : Regex Char} (hdot : ∀ a ∈ r.lang, '.' ∉ a) {w : List Char} :
    w ∈ (Regex.seq r (.star (.seq (text ".") r))).lang ↔
      ∀ part ∈ splitAll '.' w, part ∈ r.lang := by
  constructor
  · intro h
    obtain ⟨a, ha, b, hb, rfl⟩ := Regex.mem_seq.mp h
    obtain ⟨rounds, rfl, hrounds⟩ := Language.mem_kstar.mp (Regex.mem_star.mp hb)
    exact splitAll_rounds hdot hrounds ha
  · induction hlen : w.length using Nat.strong_induction_on generalizing w with
    | _ n ih =>
      intro hparts
      cases hsplit : splitOnce '.' w with
      | none =>
        rw [splitAll_eq_splitOn, List.splitOn_eq_singleton (splitOnce_eq_none.mp hsplit)] at hparts
        exact Regex.mem_seq.mpr ⟨w, hparts w (by simp), [], Regex.nil_mem_star, List.append_nil w⟩
      | some parts =>
        obtain ⟨a, b⟩ := parts
        obtain ⟨hnot, rfl⟩ := splitOnce_iff.mp hsplit
        rw [splitAll_eq_splitOn, List.splitOn_append_cons_self_of_not_mem hnot,
          ← splitAll_eq_splitOn] at hparts
        obtain ⟨ha, hb⟩ := List.forall_mem_cons.mp hparts
        have hlt : b.length < n := by
          simp only [List.length_append, List.length_cons] at hlen
          omega
        obtain ⟨c, hc, d, hd, rfl⟩ := Regex.mem_seq.mp (ih b.length hlt rfl hb)
        refine Regex.mem_seq.mpr ⟨a, ha, ('.' :: c) ++ d, ?_, by simp⟩
        exact Regex.append_mem_star (Regex.mem_literal_seq.mpr ⟨c, hc, rfl⟩) hd

theorem mem_bind {w : List Char} : w ∈ bind.body.lang ↔
    ∃ implRef, (Permission.bindNativeImpl implRef).WellFormed ∧
      (Permission.bindNativeImpl implRef).text.toList = w := by
  refine Regex.mem_literal_seq.trans (exists_toList.trans (exists_congr fun implRef => ?_))
  rw [mem_dotted fun a ha => (mem_name.mp ha).not_mem (by decide)]
  simp [Permission.WellFormed, IsImplRef, mem_name, Permission.text, Permission.category,
    Permission.rest]

/-! ### The conditionals -/

theorem startsWith_colon {k c v : List Char} (hk : ':' ∉ k) (hc : ':' ∉ c) :
    (k ++ [':']) <+: (c ++ ':' :: v) ↔ k = c := by
  constructor
  · rintro ⟨r, hr⟩
    have hfirst : splitOnce ':' (c ++ ':' :: v) = some (k, r) :=
      splitOnce_iff.mpr ⟨hk, by rw [← hr, List.append_assoc]; rfl⟩
    rw [splitOnce_iff.mpr ⟨hc, rfl⟩, Option.some.injEq, Prod.mk.injEq] at hfirst
    exact hfirst.1.symm
  · rintro rfl
    exact ⟨v, by rw [List.append_assoc]; rfl⟩

section Category

variable {s category : String} {v : List Char}

theorem found_startsWith (hs : s.toList = category.toList ++ ':' :: v)
    (hcolon : ':' ∉ category.toList) {k : String} (hk : ':' ∉ k.toList) :
    (startsWith (k ++ ":")).found s = true ↔ k = category := by
  rw [Pattern.found_start rfl]
  have htext : (k ++ ":").toList = k.toList ++ [':'] := by simp
  constructor
  · rintro ⟨a, ha, hprefix⟩
    rw [mem_text.mp ha, htext, hs, startsWith_colon hk hcolon] at hprefix
    exact String.toList_inj.mp hprefix
  · rintro rfl
    refine ⟨_, mem_text.mpr rfl, ?_⟩
    rw [htext, hs, startsWith_colon hk hcolon]

theorem found_dotFreeCategory (hs : s.toList = category.toList ++ ':' :: v)
    (hcolon : ':' ∉ category.toList) :
    dotFreeCategory.found s = true ↔ category ≠ "" ∧ '.' ∉ category.toList := by
  have hclass : ∀ c : Char, (!(c == '.' || c == ':')) = true ↔ c ≠ '.' ∧ c ≠ ':' := by simp
  rw [Pattern.found_start rfl]
  constructor
  · rintro ⟨a, ha, hprefix⟩
    obtain ⟨k, hk, b, hb, rfl⟩ := Regex.mem_seq.mp ha
    obtain ⟨hne, hall⟩ := Regex.mem_plus_chars.mp hk
    have hkcolon : ':' ∉ k := fun hmem => ((hclass _).mp (hall _ hmem)).2 rfl
    rw [mem_text.mp hb, hs] at hprefix
    rw [(startsWith_colon hkcolon hcolon).mp hprefix] at hne hall
    refine ⟨?_, fun hmem => ((hclass _).mp (hall _ hmem)).1 rfl⟩
    rintro rfl
    exact hne rfl
  · rintro ⟨hne, hdot⟩
    refine ⟨category.toList ++ [':'], Regex.mem_seq.mpr ⟨category.toList, ?_, [':'], ?_, rfl⟩, ?_⟩
    · refine Regex.mem_plus_chars.mpr ⟨by simpa using hne, fun c hc => (hclass c).mpr ⟨?_, ?_⟩⟩
      · rintro rfl
        exact hdot hc
      · rintro rfl
        exact hcolon hc
    · exact mem_text.mpr rfl
    · rw [hs, startsWith_colon hcolon hcolon]

theorem found_kernelCategory (hs : s.toList = category.toList ++ ':' :: v)
    (hcolon : ':' ∉ category.toList) :
    kernelCategory.found s = true ↔ category ∈ Permission.kernelCategories := by
  have hcolons : ∀ k ∈ Permission.kernelCategories, ':' ∉ k.toList := by decide
  rw [Pattern.found_start rfl]
  constructor
  · rintro ⟨a, ha, hprefix⟩
    obtain ⟨x, hx, b, hb, rfl⟩ := Regex.mem_seq.mp ha
    obtain ⟨k, hk, rfl⟩ := mem_word.mp hx
    have hk : k ∈ Permission.kernelCategories := by
      simp only [Permission.kernelCategories, List.mem_cons, List.not_mem_nil, or_false] at hk ⊢
      tauto
    rw [mem_text.mp hb, hs] at hprefix
    rwa [← String.toList_inj.mp ((startsWith_colon (hcolons k hk) hcolon).mp hprefix)]
  · intro hmem
    refine ⟨category.toList ++ [':'], Regex.mem_seq.mpr ⟨category.toList, ?_, [':'], ?_, rfl⟩, ?_⟩
    · refine mem_word.mpr ⟨category, ?_, rfl⟩
      simp only [Permission.kernelCategories, List.mem_cons, List.not_mem_nil, or_false] at hmem ⊢
      tauto
    · exact mem_text.mpr rfl
    · rw [hs, startsWith_colon hcolon hcolon]

end Category

/-- A text of one line. -/
def OneLine (cs : List Char) : Prop := ∀ c ∈ cs, notLineEnd c = true

instance (cs : List Char) : Decidable (OneLine cs) :=
  inferInstanceAs (Decidable (∀ c ∈ cs, notLineEnd c = true))

theorem mem_permission {w : List Char} : w ∈ permission.pattern.body.lang ↔
    OneLine w ∧ ∃ a b, a ≠ [] ∧ b ≠ [] ∧ w = a ++ ':' :: b := by
  refine Regex.mem_seq.trans ?_
  constructor
  · rintro ⟨a, ha, x, hx, rfl⟩
    obtain ⟨b, hb, rfl⟩ := Regex.mem_literal_seq.mp hx
    obtain ⟨hane, haline⟩ := Regex.mem_plus_chars.mp ha
    obtain ⟨hbne, hbline⟩ := Regex.mem_plus_chars.mp hb
    refine ⟨?_, a, b, hane, hbne, rfl⟩
    intro c hc
    rcases List.mem_append.mp hc with hc | hc
    · exact haline c hc
    · rcases List.mem_cons.mp hc with rfl | hc
      · decide
      · exact hbline c hc
  · rintro ⟨hline, a, b, hane, hbne, rfl⟩
    refine ⟨a, Regex.mem_plus_chars.mpr ⟨hane, fun c hc => hline c (by simp [hc])⟩, ':' :: b, ?_, rfl⟩
    exact Regex.mem_literal_seq.mpr
      ⟨b, Regex.mem_plus_chars.mpr ⟨hbne, fun c hc => hline c (by simp [hc])⟩, rfl⟩

theorem Conditional.holds_iff {c : Conditional} {s : String} :
    (!c.whenever.found s || c.required.found s) = true ↔
      (c.whenever.found s = true → c.required.found s = true) := by
  cases c.whenever.found s <;> simp

/-- What the conditionals ask of a text depends on what stands before its first colon. -/
theorem accepts_split {s category : String} {v : List Char}
    (hs : s.toList = category.toList ++ ':' :: v) (hcolon : ':' ∉ category.toList) :
    permission.accepts s = true ↔ s.toList ∈ permission.pattern.body.lang ∧
      (category = "network" → s.toList ∈ network.body.lang) ∧
      (category = "blobs" → s.toList ∈ blobs.body.lang) ∧
      (category = "step_type" → s.toList ∈ stepType.body.lang) ∧
      (category = "invoke" → s.toList ∈ invoke.body.lang) ∧
      (category = "provide" → s.toList ∈ provide.body.lang) ∧
      (category = "bind" → s.toList ∈ bind.body.lang) ∧
      (category ≠ "" ∧ '.' ∉ category.toList → category ∈ Permission.kernelCategories) := by
  have hstart : ∀ k start : String, k ++ ":" = start → ':' ∉ k.toList →
      ((startsWith start).found s = true ↔ category = k) := by
    rintro k _ rfl hk
    exact (found_startsWith hs hcolon hk).trans eq_comm
  rw [StringSchema.accepts, Bool.and_eq_true, Pattern.found_toEnd rfl, List.all_eq_true,
    permission]
  simp only [List.forall_mem_cons, Conditional.holds_iff]
  rw [hstart "network" "network:" (by decide) (by decide),
    hstart "blobs" "blobs:" (by decide) (by decide),
    hstart "step_type" "step_type:" (by decide) (by decide),
    hstart "invoke" "invoke:" (by decide) (by decide),
    hstart "provide" "provide:" (by decide) (by decide),
    hstart "bind" "bind:" (by decide) (by decide),
    found_dotFreeCategory hs hcolon, found_kernelCategory hs hcolon,
    @Pattern.found_toEnd network rfl s, @Pattern.found_toEnd blobs rfl s,
    @Pattern.found_toEnd stepType rfl s, @Pattern.found_toEnd invoke rfl s,
    @Pattern.found_toEnd provide rfl s, @Pattern.found_toEnd bind rfl s]
  simp only [List.not_mem_nil, false_imp_iff, implies_true, and_true]

/-- Two ways to read the same text around a colon: the first colon, or a later one. -/
theorem colon_split {c v a b : List Char} (hc : ':' ∉ c) (h : c ++ ':' :: v = a ++ ':' :: b) :
    (a = c ∧ b = v) ∨ ∃ a', a = c ++ ':' :: a' ∧ v = a' ++ ':' :: b := by
  have hfirst : splitOnce ':' (a ++ ':' :: b) = some (c, v) :=
    splitOnce_iff.mpr ⟨hc, h.symm⟩
  cases hsplit : splitOnce ':' a with
  | none =>
    rw [splitOnce_iff.mpr ⟨splitOnce_eq_none.mp hsplit, rfl⟩, Option.some.injEq, Prod.mk.injEq]
      at hfirst
    exact Or.inl hfirst
  | some parts =>
    obtain ⟨c', a'⟩ := parts
    obtain ⟨hnot, rfl⟩ := splitOnce_iff.mp hsplit
    have hagain : splitOnce ':' (c' ++ ':' :: a' ++ ':' :: b) = some (c', a' ++ ':' :: b) :=
      splitOnce_iff.mpr ⟨hnot, by simp⟩
    rw [hagain, Option.some.injEq, Prod.mk.injEq] at hfirst
    obtain ⟨rfl, rfl⟩ := hfirst
    exact Or.inr ⟨a', rfl, rfl⟩

theorem PermissionForm.rest_ne {p : Permission} (h : PermissionForm p) : p.rest ≠ "" := by
  cases p with
  | networkEgress host =>
    cases host with
    | any => decide
    | suffix x => exact append_ne_empty_right (append_ne_empty_left (by decide))
    | exact x => exact append_ne_empty_left (by decide)
  | blobs op path => exact append_ne_empty_left (append_ne_empty_right (by decide))
  | _ => exact Permission.WellFormed.rest_ne h

theorem PermissionForm.category_noColon {p : Permission} (h : PermissionForm p) :
    ':' ∉ p.category.toList := by
  rcases Permission.category_mem p with hmem | ⟨kind, value, rfl⟩
  · have hcolons : ∀ category ∈ Permission.kernelCategories, ':' ∉ category.toList := by decide
    exact hcolons _ hmem
  · exact h.1

/-- A text the meta-schema takes for a permission is one line, and the text of a permission; or
it starts with a colon and has a second one before its last character. -/
theorem permission_accepts_iff {s : String} : permission.accepts s = true ↔
    OneLine s.toList ∧ ((∃ p, PermissionForm p ∧ p.text = s) ∨
      ∃ a b, b ≠ [] ∧ s.toList = ':' :: (a ++ ':' :: b)) := by
  constructor
  · intro h
    have hbase : s.toList ∈ permission.pattern.body.lang := by
      rw [StringSchema.accepts, Bool.and_eq_true, Pattern.found_toEnd rfl] at h
      exact h.1
    obtain ⟨hline, a, b, hane, hbne, hab⟩ := mem_permission.mp hbase
    refine ⟨hline, ?_⟩
    cases hsplit : splitOnce ':' s.toList with
    | none => exact absurd (by simp [hab]) (splitOnce_eq_none.mp hsplit)
    | some parts =>
      obtain ⟨c, v⟩ := parts
      obtain ⟨hnot, hs⟩ := splitOnce_iff.mp hsplit
      obtain ⟨category, rfl⟩ : ∃ category : String, c = category.toList :=
        ⟨String.ofList c, String.toList_ofList.symm⟩
      obtain ⟨-, hnetwork, hblobs, hstepType, hinvoke, hprovide, hbind, hdotFree⟩ :=
        (accepts_split hs hnot).mp h
      have hv : (a = category.toList ∧ b = v) ∨
          ∃ a', a = category.toList ++ ':' :: a' ∧ v = a' ++ ':' :: b :=
        colon_split hnot (hs.symm.trans hab)
      have hvne : v ≠ [] := by
        rcases hv with ⟨-, rfl⟩ | ⟨a', -, rfl⟩
        · exact hbne
        · simp
      by_cases hempty : category = ""
      · subst hempty
        rcases hv with ⟨ha, -⟩ | ⟨a', -, rfl⟩
        · exact absurd ha hane
        · exact Or.inr ⟨a', b, hbne, hs⟩
      · refine Or.inl ?_
        by_cases hdot : '.' ∈ category.toList
        · refine ⟨.appDefined category (String.ofList v), ⟨hnot, hdot, ?_⟩, ?_⟩
          · simpa [← String.toList_inj] using hvne
          · rw [← String.toList_inj, toList_text, hs]
            simp [Permission.category, Permission.rest]
        · have hkernel := hdotFree ⟨hempty, hdot⟩
          simp only [Permission.kernelCategories, List.mem_cons, List.not_mem_nil,
            or_false] at hkernel
          rcases hkernel with hk | hk | hk | hk | hk | hk
          · obtain ⟨host, hform, htext⟩ := mem_network.mp (hnetwork hk)
            exact ⟨.networkEgress host, hform, String.toList_inj.mp htext⟩
          · obtain ⟨op, path, hform, htext⟩ := mem_blobs.mp (hblobs hk)
            exact ⟨.blobs op path, hform, String.toList_inj.mp htext⟩
          · obtain ⟨name, hform, htext⟩ := mem_stepType.mp (hstepType hk)
            exact ⟨.stepType name, hform, String.toList_inj.mp htext⟩
          · obtain ⟨ty, selector, hform, htext⟩ := mem_provide.mp (hprovide hk)
            exact ⟨.provideStepType ty selector, hform, String.toList_inj.mp htext⟩
          · obtain ⟨implRef, hform, htext⟩ := mem_bind.mp (hbind hk)
            exact ⟨.bindNativeImpl implRef, hform, String.toList_inj.mp htext⟩
          · obtain ⟨pattern, hform, htext | htext⟩ := mem_invoke.mp (hinvoke hk)
            · exact ⟨.invokePlugin pattern, hform, String.toList_inj.mp htext⟩
            · exact ⟨.invokeRole pattern, hform, String.toList_inj.mp htext⟩
  · rintro ⟨hline, ⟨p, hform, rfl⟩ | ⟨a, b, hbne, hs⟩⟩
    · have hcolon := hform.category_noColon
      have hrest : p.rest.toList ≠ [] := by simpa using hform.rest_ne
      refine (accepts_split (toList_text p) hcolon).mpr ⟨?_, ?_⟩
      · refine mem_permission.mpr ⟨hline, p.category.toList, p.rest.toList, ?_, hrest, toList_text p⟩
        rcases Permission.category_mem p with hmem | ⟨kind, value, rfl⟩
        · have hne : ∀ category ∈ Permission.kernelCategories, category.toList ≠ [] := by decide
          exact hne _ hmem
        · exact List.ne_nil_of_mem hform.2.1
      · cases p with
        | networkEgress host =>
          simp only [Permission.category, Permission.kernelCategories]
          exact ⟨fun _ => mem_network.mpr ⟨host, hform, rfl⟩, by simp⟩
        | blobs op path =>
          simp only [Permission.category, Permission.kernelCategories]
          exact ⟨by simp, fun _ => mem_blobs.mpr ⟨op, path, hform, rfl⟩, by simp⟩
        | stepType name =>
          simp only [Permission.category, Permission.kernelCategories]
          exact ⟨by simp, by simp, fun _ => mem_stepType.mpr ⟨name, hform, rfl⟩, by simp⟩
        | invokePlugin pattern =>
          simp only [Permission.category, Permission.kernelCategories]
          exact ⟨by simp, by simp, by simp,
            fun _ => mem_invoke.mpr ⟨pattern, hform, Or.inl rfl⟩, by simp⟩
        | invokeRole pattern =>
          simp only [Permission.category, Permission.kernelCategories]
          exact ⟨by simp, by simp, by simp,
            fun _ => mem_invoke.mpr ⟨pattern, hform, Or.inr rfl⟩, by simp⟩
        | provideStepType ty selector =>
          simp only [Permission.category, Permission.kernelCategories]
          exact ⟨by simp, by simp, by simp, by simp,
            fun _ => mem_provide.mpr ⟨ty, selector, hform, rfl⟩, by simp⟩
        | bindNativeImpl implRef =>
          simp only [Permission.category, Permission.kernelCategories]
          exact ⟨by simp, by simp, by simp, by simp, by simp,
            fun _ => mem_bind.mpr ⟨implRef, hform, rfl⟩, by simp⟩
        | appDefined kind value =>
          have hkind := Permission.not_mem_kernelCategories hform.2.1
          simp only [Permission.kernelCategories, List.mem_cons, List.not_mem_nil, or_false,
            not_or] at hkind
          obtain ⟨h1, h2, h3, h4, h5, h6⟩ := hkind
          exact ⟨fun h => absurd h h1, fun h => absurd h h2, fun h => absurd h h3,
            fun h => absurd h h6, fun h => absurd h h4, fun h => absurd h h5,
            fun h => absurd hform.2.1 h.2⟩
    · have hs' : s.toList = "".toList ++ ':' :: (a ++ ':' :: b) := hs
      refine (accepts_split hs' (by decide)).mpr ⟨?_, ?_⟩
      · exact mem_permission.mpr ⟨hline, ':' :: a, b, by simp, hbne, hs⟩
      · simp

end MetaSchema

end Gwead
