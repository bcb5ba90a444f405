import PluginScript.CallRule.Pass
import PluginScript.Global

/-! # Registries

A registry holds the globals that scripts may use, in the order of registration. It accepts a
global if its name and its indexers are words and neither its name nor its owner is registered
already; otherwise it says which of these failed first. An accepted registry is a source of call
rules, and tells which plugins a script depends on: those whose global's name occurs in it, be it
in a longer name, a string or a comment.
-/

namespace PluginScript

/-- Why a global cannot be registered. -/
inductive Rejection where
  /-- The name of the global is not a word. -/
  | invalidName (name : Text) (owner : PluginId)
  /-- An indexer of the global is not a word. -/
  | invalidIndexer (method name : Text)
  /-- Another global has the name. -/
  | nameTaken (name : Text)
  /-- The plugin provides another global. -/
  | ownerTaken (owner : PluginId)
deriving DecidableEq, Repr

/-- The wording of a rejection. -/
def Rejection.message : Rejection → Text
  | invalidName name owner =>
    "invalid global name '".toList ++ name ++ "' for ".toList ++ owner.name
  | invalidIndexer method name =>
    "invalid indexer method '".toList ++ method ++ "' on ".toList ++ name
  | nameTaken name => "global '".toList ++ name ++ "' is already registered".toList
  | ownerTaken owner => "plugin ".toList ++ owner.name ++ " already provides a global".toList

/-- The globals available to scripts, in the order of registration. -/
structure Registry where
  globals : List Global
deriving DecidableEq, Repr

namespace Registry

/-- The registry without globals. -/
def empty : Registry := ⟨[]⟩

/-- The registered global of a name. -/
def get? (registry : Registry) (name : Text) : Option Global :=
  registry.globals.find? fun global => global.name == name

/-- The registered global of a plugin. -/
def getByOwner? (registry : Registry) (owner : PluginId) : Option Global :=
  registry.globals.find? fun global => global.owner == owner

/-- How many globals are registered. -/
def size (registry : Registry) : Nat :=
  registry.globals.length

/-- The first reason why a global cannot be registered. -/
def rejection? (registry : Registry) (global : Global) : Option Rejection :=
  if !Text.isWord global.name then
    some (.invalidName global.name global.owner)
  else
    match global.indexers.find? fun method => !Text.isWord method with
    | some method => some (.invalidIndexer method global.name)
    | none =>
      if (registry.get? global.name).isSome then some (.nameTaken global.name)
      else if (registry.getByOwner? global.owner).isSome then some (.ownerTaken global.owner)
      else none

/-- Registers a global behind the ones that are there. -/
def register (registry : Registry) (global : Global) : Except Rejection Registry :=
  match registry.rejection? global with
  | some cause => .error cause
  | none => .ok ⟨registry.globals ++ [global]⟩

/-- Registers globals one by one, up to the first that is rejected. -/
def registerAll (registry : Registry) (globals : List Global) : Except Rejection Registry :=
  globals.foldlM register registry

/-- The registry of a list of globals. -/
def ofGlobals (globals : List Global) : Except Rejection Registry :=
  empty.registerAll globals

/-- The call rules of all globals, in the order of registration. -/
def callRules (registry : Registry) : List CallRule :=
  registry.globals.flatMap Global.callRules

/-- The globals that a script mentions, in the order of registration. -/
def mentioned (registry : Registry) (script : Text) : List Global :=
  registry.globals.filter fun global => Text.occursIn global.name script

/-- The plugins that a script depends on, in the order of registration. -/
def dependencies (registry : Registry) (script : Text) : List PluginId :=
  (registry.mentioned script).map Global.owner

/-- Marks the calls of all indexers in a script. -/
def prepare (registry : Registry) (script : Text) : Text :=
  CallRule.prepare registry.callRules script

end Registry

end PluginScript
