import PluginScript.CallRule
import PluginScript.Plugin

/-! # Globals

A plugin shows itself to scripts as one global. Some methods of it are indexers: a call of one has
to carry the method's name, so each of them gives a call rule. A global holds each indexer once, in
the order of first declaration.
-/

namespace PluginScript

/-- The global that a plugin provides to scripts. -/
structure Global where
  name : Text
  owner : PluginId
  indexers : List Text
deriving DecidableEq, Repr

namespace Global

/-- Whether a method is an indexer of the global. -/
def hasIndexer (global : Global) (method : Text) : Bool :=
  global.indexers.contains method

/-- Declares one more indexer, unless the global has it. -/
def addIndexer (global : Global) (method : Text) : Global :=
  if global.hasIndexer method then global
  else { global with indexers := global.indexers ++ [method] }

/-- Declares indexers one by one. -/
def addIndexers (global : Global) (methods : List Text) : Global :=
  methods.foldl addIndexer global

/-- The global of a plugin with the given methods as indexers. -/
def declare (name : Text) (owner : PluginId) (methods : List Text) : Global :=
  addIndexers ⟨name, owner, []⟩ methods

/-- The rules for the calls of the global's indexers, in the order of their declaration. -/
def callRules (global : Global) : List CallRule :=
  global.indexers.map fun method => ⟨global.name, method⟩

end Global

end PluginScript
