import Gwead.Deadlines
import Gwead.StepTypeResolution

/-!
# Pulling secrets

Secrets come from the embedder's resolver alone.  It is asked for a subject on the chain of the
plugin that executes, and of its answer only the keys the subject declares are kept.
-/

namespace Gwead

open Identity

/-- Whose secrets are wanted, inside whose execution. -/
structure SecretRequest (ξ : Type) where
  subject : String
  executingPlugin : String
  declaredKeys : List String
  overridableKeys : List String
  execCtx : ξ

inductive SecretError where
  | unavailable (subject reason : String)

def SecretError.display : SecretError → String
  | unavailable subject reason => "secret resolution failed for '" ++ subject ++ "': " ++ reason

abbrev SecretResolver (ξ : Type) := SecretRequest ξ → Except SecretError Value

/-- The containment rule of dispatch. -/
def subjectIsOnChain (subject executingPlugin : String) : Bool := isOnChain subject executingPlugin

/-- Keep the declared keys of an object; no other value has any. -/
def intersectDeclared (secrets : Value) (declared : List String) : Value :=
  match secrets with
  | .object fields => .ofFields (declared.filterMap fun k => (fields.lookup k).map fun v => (k, v))
  | _ => .null

/-- What a pull asked the resolver, if it asked at all, and what came of it. -/
structure SecretPull (ξ : Type) where
  asked : Option (SecretRequest ξ)
  answer : Except KernelError Value

section Pulls

variable {ξ : Type}

def pull (resolve : SecretResolver ξ) (subject executingPlugin : String)
    (declared overridable : List String) (execCtx : ξ) : SecretPull ξ :=
  if declared.isEmpty then ⟨none, .ok .null⟩
  else if ¬subjectIsOnChain subject executingPlugin then
    ⟨none, .error (.execution ("secret resolution for '" ++ subject ++ "' refused: not on the " ++
      "executing plugin '" ++ executingPlugin ++ "' chain"))⟩
  else
    let request : SecretRequest ξ := ⟨subject, executingPlugin, declared, overridable, execCtx⟩
    ⟨some request,
      match resolve request with
      | .error e => .error (.execution e.display)
      | .ok answer => .ok (intersectDeclared answer declared)⟩

/-- The secrets of an execution about to start; without a resolver there are none. -/
def PluginRegistry.pullSecrets (r : PluginRegistry) (resolver : Option (SecretResolver ξ))
    (plugin : String) (execCtx : ξ) : SecretPull ξ :=
  match resolver with
  | none => ⟨none, .ok .null⟩
  | some resolve =>
    let (declared, overridable) :=
      match r.getManifest plugin with
      | some m => (m.declaredSecretKeys, m.overridableSecretKeys)
      | none => ([], [])
    pull resolve plugin plugin declared overridable execCtx

/-- The secrets a body shipped by another plugin runs with. -/
def StepTypeAccess.pullBody (access : StepTypeAccess) (resolver : Option (SecretResolver ξ))
    (plugin : String) (execCtx : ξ) (stepType : String) : Option (SecretPull ξ) :=
  (access.bodyOwner stepType).map fun owner =>
    match resolver with
    | none => ⟨none, .ok .null⟩
    | some resolve =>
      pull resolve owner.identity plugin owner.declaredKeys owner.overridableKeys execCtx

end Pulls

/-! ### What is kept of an answer -/

theorem AssocMap.lookup_ofEntries_reverse {κ α : Type} [LinearOrder κ] (entries : List (κ × α))
    (k : κ) : (AssocMap.ofEntries entries).lookup k = entries.reverse.lookup k := by
  induction entries using List.reverseRecOn with
  | nil => rfl
  | append_singleton entries e ih =>
    have hlast : AssocMap.ofEntries (entries ++ [e]) =
        AssocMap.insertSorted e.1 e.2 (AssocMap.ofEntries entries) := by
      simp [AssocMap.ofEntries]
    obtain ⟨key, v⟩ := e
    rw [hlast, AssocMap.lookup_insertSorted, ih, List.reverse_append, List.reverse_singleton,
      List.singleton_append, List.lookup_cons]
    cases k == key <;> rfl

theorem lookup_filterMap_keyed {κ α : Type} [DecidableEq κ] (keys : List κ) (g : κ → Option α)
    (k : κ) : (keys.filterMap fun key => (g key).map fun v => (key, v)).lookup k =
      if k ∈ keys then g k else none := by
  induction keys with
  | nil => rfl
  | cons key rest ih =>
    by_cases hk : k = key
    · subst hk
      cases hg : g k with
      | none => simp [hg, ih]
      | some v => simp [hg]
    · cases hg : g key with
      | none => simp [hg, ih, hk]
      | some v => simp [hg, ih, hk, List.lookup_cons, beq_eq_false_iff_ne.mpr hk]

/-- Of an answer the declared keys are kept, with their values. -/
theorem get_intersectDeclared (answer : Value) (declared : List String) (key : String) :
    (intersectDeclared answer declared).get key =
      if key ∈ declared then answer.get key else none := by
  cases answer with
  | object fields =>
    have hget : (intersectDeclared (.object fields) declared).get key =
        (AssocMap.ofEntries (declared.filterMap fun k =>
          (fields.lookup k).map fun v => (k, v))).lookup key := rfl
    rw [hget, AssocMap.lookup_ofEntries_reverse, ← List.filterMap_reverse, lookup_filterMap_keyed]
    simp only [List.mem_reverse]
    rfl
  | _ => simp [intersectDeclared, Value.get]

/-! ### What a pull promises -/

section Promises

variable {ξ : Type}

/-- A bag has, of each key its subject declares, what the resolver answered, and no other key. -/
def BagOf (resolver : Option (SecretResolver ξ)) (request : SecretRequest ξ) (bag : Value) : Prop :=
  ∀ key v, bag.get key = some v ↔ key ∈ request.declaredKeys ∧
    ∃ resolve answer, resolver = some resolve ∧ resolve request = .ok answer ∧
      answer.get key = some v

/-- A pull asks for nothing but its subject's secrets, and only along the chain; where the resolver
cannot answer there is no bag. -/
structure SecretPull.Honest (p : SecretPull ξ) (resolver : Option (SecretResolver ξ))
    (request : SecretRequest ξ) : Prop where
  asked : ∀ req, p.asked = some req → req = request ∧
    isOnChain request.subject request.executingPlugin = true
  failed : ∀ resolve e, resolver = some resolve → p.asked = some request →
    resolve request = .error e → p.answer = .error (.execution e.display)
  bag : ∀ v, p.answer = .ok v → BagOf resolver request v

theorem get_null (key : String) : Value.null.get key = none := rfl

theorem honest_unasked (resolver : Option (SecretResolver ξ)) (request : SecretRequest ξ)
    (h : resolver = none ∨ request.declaredKeys = []) :
    SecretPull.Honest ⟨none, .ok .null⟩ resolver request := by
  refine ⟨nofun, nofun, ?_⟩
  rintro v ⟨⟩ key v
  rw [get_null]
  refine ⟨nofun, ?_⟩
  rintro ⟨hmem, resolve, answer, hresolver, -⟩
  rcases h with h | h
  · cases h.symm.trans hresolver
  · rw [h] at hmem
    cases hmem

theorem pull_honest (resolve : SecretResolver ξ) (request : SecretRequest ξ) :
    (pull resolve request.subject request.executingPlugin request.declaredKeys
      request.overridableKeys request.execCtx).Honest (some resolve) request := by
  unfold pull
  split
  · rename_i hempty
    exact honest_unasked _ _ (Or.inr (List.isEmpty_iff.mp hempty))
  · split
    · exact ⟨nofun, nofun, nofun⟩
    · rename_i hchain
      have hon : isOnChain request.subject request.executingPlugin = true := by
        simpa [subjectIsOnChain] using hchain
      refine ⟨?_, ?_, ?_⟩
      · rintro req ⟨⟩
        exact ⟨rfl, hon⟩
      · rintro resolve' e ⟨⟩ - herror
        simp only [herror]
      · intro v hanswer
        dsimp only at hanswer
        cases hresolve : resolve request with
        | error e =>
          rw [hresolve] at hanswer
          cases hanswer
        | ok answer =>
          rw [hresolve] at hanswer
          cases hanswer
          intro key v
          rw [get_intersectDeclared, Option.ite_none_right_eq_some]
          refine and_congr_right fun _ => ?_
          constructor
          · exact fun hget => ⟨resolve, answer, rfl, hresolve, hget⟩
          · rintro ⟨resolve', answer', ⟨⟩, hsame, hget⟩
            cases hresolve.symm.trans hsame
            exact hget

/-- A plugin's own secrets are pulled for its manifest's keys. -/
theorem pullSecrets_honest {r : PluginRegistry} {plugin : String} {m : PluginManifest}
    (hm : r.getManifest plugin = some m) (resolver : Option (SecretResolver ξ)) (execCtx : ξ) :
    (r.pullSecrets resolver plugin execCtx).Honest resolver
      ⟨plugin, plugin, m.declaredSecretKeys, m.overridableSecretKeys, execCtx⟩ := by
  unfold PluginRegistry.pullSecrets
  cases resolver with
  | none => exact honest_unasked _ _ (Or.inl rfl)
  | some resolve =>
    simp only [hm]
    exact pull_honest resolve
      ⟨plugin, plugin, m.declaredSecretKeys, m.overridableSecretKeys, execCtx⟩

/-- A body's secrets are pulled for the keys its owner declares. -/
theorem pullBody_honest {access : StepTypeAccess} {stepType : String} {owner : BodyOwner}
    (howner : access.bodyOwner stepType = some owner) (resolver : Option (SecretResolver ξ))
    (plugin : String) (execCtx : ξ) :
    ∃ p, access.pullBody resolver plugin execCtx stepType = some p ∧ p.Honest resolver
      ⟨owner.identity, plugin, owner.declaredKeys, owner.overridableKeys, execCtx⟩ := by
  unfold StepTypeAccess.pullBody
  rw [howner]
  refine ⟨_, rfl, ?_⟩
  cases resolver with
  | none => exact honest_unasked _ _ (Or.inl rfl)
  | some resolve =>
    exact pull_honest resolve
      ⟨owner.identity, plugin, owner.declaredKeys, owner.overridableKeys, execCtx⟩

end Promises

/-! ### Whose body a written step type runs -/

section Bodies

variable {r : PluginRegistry} {plugin written : String}

/-- The definition at the first level of the chain with a registration the plugin may use. -/
def ResolvedDef (r : PluginRegistry) (plugin written ns owner : String) (d : StepTypeDef) : Prop :=
  (∃ nearer farther, ancestorNamespaces (namespaceOf plugin) = nearer ++ ns :: farther ∧
    ∀ closer ∈ nearer, ¬UsableIn r plugin written closer) ∧ ReachesDef r plugin written ns owner d

theorem ResolvedDef.offered (h : Tabled r) {ns owner : String} {d : StepTypeDef}
    (hdef : ResolvedDef r plugin written ns owner d) :
    reached written (r.stepTypeAccessFor plugin) = offerIn r plugin written ns ∧
      (offerIn r plugin written ns).isSome := by
  obtain ⟨⟨nearer, farther, hchain, hcloser⟩, hreach⟩ := hdef
  have hnothing : nearer.findSome? (offerIn r plugin written) = none :=
    List.findSome?_eq_none_iff.mpr fun ns' hns' => offerIn_none h (hcloser ns' hns')
  have hsome := (offerIn_isSome h).mpr (hreach.usableIn h)
  refine ⟨?_, hsome⟩
  obtain ⟨found, hfound⟩ := Option.isSome_iff_exists.mp hsome
  rw [(reached_access r plugin written).2, hchain, List.findSome?_append, hnothing, Option.none_or,
    List.findSome?_cons, hfound]

/-- A body has a foreign owner exactly if the definition the name resolves to is another plugin's. -/
theorem bodyOwner_iff (h : Tabled r) {b : BodyOwner} :
    (r.stepTypeAccessFor plugin).bodyOwner written = some b ↔
      ∃ ns owner d m, ResolvedDef r plugin written ns owner d ∧ owner ≠ plugin ∧
        r.getManifest owner = some m ∧
          b = ⟨owner, m.declaredSecretKeys, m.overridableSecretKeys⟩ := by
  have hattached := (reached_access r plugin written).1
  constructor
  · intro hb
    have hallowed : (r.stepTypeAccessFor plugin).allowed.lookup written ≠ none := by
      intro hnone
      cases (hattached hnone).symm.trans hb
    obtain ⟨key, hkey⟩ := Option.ne_none_iff_exists'.mp hallowed
    have hreached : reached written (r.stepTypeAccessFor plugin) = some (key, some b) := by
      rw [reached, hkey, Option.map_some]
      exact congrArg (fun o => some (key, o)) hb
    rw [(reached_access r plugin written).2] at hreached
    obtain ⟨nearer, ns, farther, hchain, hoffer, hcloser⟩ := List.findSome?_eq_some_iff.mp hreached
    obtain ⟨owner, d, m, hreach, howner, hm, hb⟩ := ((offerIn_some h hoffer).2 b).mp rfl
    refine ⟨ns, owner, d, m, ⟨⟨nearer, farther, hchain, fun closer hin huse => ?_⟩, hreach⟩, howner,
      hm, hb⟩
    have hsome := (offerIn_isSome h).mpr huse
    rw [hcloser closer hin] at hsome
    cases hsome
  · rintro ⟨ns, owner, d, m, hdef, howner, hm, rfl⟩
    obtain ⟨hreached, hsome⟩ := hdef.offered h
    obtain ⟨⟨key, body⟩, hoffer⟩ := Option.isSome_iff_exists.mp hsome
    have hbody := ((offerIn_some h hoffer).2 _).mpr ⟨owner, d, m, hdef.2, howner, hm, rfl⟩
    rw [hoffer, hbody] at hreached
    obtain ⟨found, -, heq⟩ := Option.map_eq_some_iff.mp hreached
    exact (Prod.mk.inj heq).2

end Bodies

end Gwead
