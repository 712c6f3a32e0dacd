import Gwead.Identity
import Gwead.Manifest

/-!
# SPI definitions

The contracts registered under qualified role names, and the check of a manifest against the
contracts its roles resolve to.
-/

namespace Gwead

open Identity

abbrev SpiRegistry := List (String × SpiDefinition)

namespace SpiRegistry

def get (spi : SpiRegistry) (role : String) : Option SpiDefinition := spi.lookup role

/-- Register the definition a text holds: the same one again is accepted, another is not. -/
def register (readSpi : String → Except String SpiDefinition) (spi : SpiRegistry)
    (role json : String) : Except KernelError SpiRegistry :=
  match readSpi json with
  | .error e =>
    .error (.runtime ("Failed to parse SPI definition \"" ++ role ++ "\": " ++ e))
  | .ok definition =>
    match spi.get role with
    | none => .ok (AssocMap.put role definition spi)
    | some existing =>
      if existing.eqv definition then .ok spi
      else
        .error (.validation ("SPI role \"" ++ role ++ "\" is already registered with a different " ++
          "definition — conflicting redefinition rejected; unload/reload the existing definition " ++
          "to change the contract"))

/-- The nearest definition of a role on the chain of a namespace, with its key. -/
def resolve (spi : SpiRegistry) (ns role : String) : Option (String × SpiDefinition) :=
  ((ancestorNamespaces ns).map fun n => qualify n role).findSome? fun key =>
    (spi.get key).map fun definition => (key, definition)

def unregister (spi : SpiRegistry) (role : String) : SpiRegistry := AssocMap.without role spi

/-- A key a role resolves to is that role in a namespace of the chain, and is registered. -/
theorem resolve_some {spi : SpiRegistry} {ns role key : String} {definition : SpiDefinition}
    (h : spi.resolve ns role = some (key, definition)) :
    (∃ n ∈ ancestorNamespaces ns, key = qualify n role) ∧ spi.get key = some definition := by
  rw [resolve] at h
  obtain ⟨k, hmem, hk⟩ := List.exists_of_findSome?_eq_some h
  obtain ⟨n, hn, rfl⟩ := List.mem_map.mp hmem
  obtain ⟨d, hd, heq⟩ := Option.map_eq_some_iff.mp hk
  cases heq
  exact ⟨⟨n, hn, rfl⟩, hd⟩

/-- A registration leaves a definition under its own key and keeps every other key. -/
theorem register_ok {readSpi : String → Except String SpiDefinition} {spi spi' : SpiRegistry}
    {role json : String} (h : spi.register readSpi role json = .ok spi') :
    (spi'.get role).isSome ∧ ∀ key, (spi.get key).isSome → (spi'.get key).isSome := by
  rw [register] at h
  cases hread : readSpi json with
  | error e => simp [hread] at h
  | ok definition =>
    simp only [hread] at h
    cases hget : spi.get role with
    | none =>
      simp only [hget] at h
      cases h
      refine ⟨by simp [get, AssocMap.lookup_put_self], fun key hkey => ?_⟩
      rw [get, AssocMap.lookup_put]
      split
      · rfl
      · exact hkey
    | some existing =>
      simp only [hget] at h
      split at h
      · cases h
        exact ⟨by rw [hget]; rfl, fun _ hkey => hkey⟩
      · cases h

/-- A readable definition can be registered under a free key. -/
theorem register_free {readSpi : String → Except String SpiDefinition} {spi : SpiRegistry}
    {role json : String} {definition : SpiDefinition} (hread : readSpi json = .ok definition)
    (hfree : spi.get role = none) :
    spi.register readSpi role json = .ok (AssocMap.put role definition spi) := by
  simp only [register, hread, hfree]

end SpiRegistry

inductive ValidationError where
  | missingAction (role action : String)
  deriving DecidableEq

def ValidationError.display : ValidationError → String
  | missingAction role action =>
    "Role '" ++ role ++ "' requires action '" ++ action ++ "' but plugin doesn't provide it"

/-- The actions a contract requires and the manifest lacks. -/
def checkRequiredActions (manifest : PluginManifest) (role : String) (spi : SpiDefinition) :
    List ValidationError :=
  spi.actions.entries.filterMap fun e =>
    if e.2.optional || manifest.actions.contains e.1 then none
    else some (.missingAction role e.1)

/-- The errors of a manifest; a role that no contract defines only warns. -/
def validateManifest (manifest : PluginManifest) (ns : String) (spi : SpiRegistry) :
    List ValidationError :=
  manifest.roles.flatMap fun role =>
    match spi.resolve ns role with
    | some (_, definition) => checkRequiredActions manifest role definition
    | none => []

end Gwead
