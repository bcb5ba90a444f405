import PluginScript.Global

/-! # Declarations of globals

A global is declared step by step: it begins with its name and its owner, and each step declares one
indexer or several. There may be any number of steps, in any order, and they may repeat what was
declared before.
-/

namespace PluginScript

namespace Declaration

/-- One step of a declaration. -/
inductive Step where
  | indexer (method : Text)
  | indexers (methods : List Text)
deriving DecidableEq, Repr

/-- The methods that a step declares. -/
def Step.methods : Step → List Text
  | indexer method => [method]
  | indexers methods => methods

/-- The global after one more step. -/
def Step.apply (global : Global) : Step → Global
  | indexer method => global.addIndexer method
  | indexers methods => global.addIndexers methods

end Declaration

/-- How a global is declared. -/
structure Declaration where
  name : Text
  owner : PluginId
  steps : List Declaration.Step
deriving DecidableEq, Repr

namespace Declaration

/-- The methods that are declared, in their order, each as often as it is declared. -/
def methods (declaration : Declaration) : List Text :=
  declaration.steps.flatMap Step.methods

/-- The global that is declared. -/
def global (declaration : Declaration) : Global :=
  declaration.steps.foldl Step.apply ⟨declaration.name, declaration.owner, []⟩

end Declaration

end PluginScript
