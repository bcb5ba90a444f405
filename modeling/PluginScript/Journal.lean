import PluginScript.CallRule.Notes
import PluginScript.Completion
import PluginScript.Logged
import PluginScript.Table

/-! # Journaled operations

Operations of the library with the log events that they emit. A journaled operation has the value
of the plain one; what it adds is the list of events, in the order in which they happen.
-/

namespace PluginScript.Journal

/-- Registers a global. A rejection leaves no event. -/
def register (registry : Registry) (global : Global) : Logged (Except Rejection Registry) :=
  match registry.register global with
  | .ok extended =>
    ⟨.ok extended, [.registered global.name global.owner.name global.indexers.length]⟩
  | .error cause => .silent (.error cause)

/-- Registers globals one by one, up to the first that is rejected. -/
def registerAll (registry : Registry) : List Global → Logged (Except Rejection Registry)
  | [] => .silent (.ok registry)
  | global :: rest => do
    match ← register registry global with
    | .ok extended => registerAll extended rest
    | .error cause => return .error cause

/-- The registry of a list of globals. -/
def ofGlobals (globals : List Global) : Logged (Except Rejection Registry) :=
  registerAll .empty globals

@[simp] theorem value_register (registry : Registry) (global : Global) :
    (register registry global).value = registry.register global := by
  rw [register]
  split <;> (rename_i outcome; exact outcome.symm)

@[simp] theorem value_registerAll (registry : Registry) (globals : List Global) :
    (registerAll registry globals).value = registry.registerAll globals := by
  induction globals generalizing registry with
  | nil => rfl
  | cons global rest ih =>
    simp only [registerAll, Logged.value_bind, value_register, Registry.registerAll,
      List.foldlM_cons]
    cases registry.register global with
    | ok extended => exact ih extended
    | error cause => rfl

/-- The events of a table that was read, if it was. -/
def tableEvents : Except Failure Table → List Event
  | .ok table => [.tableRead table.entries.length]
  | .error _ => []

/-- The table that a text describes. -/
def parseTable (text : Text) : Logged (Except Failure Table) :=
  let outcome := Table.parse text
  ⟨outcome, tableEvents outcome⟩

/-- The table in a file. -/
def loadTable (reader : Reader) (path : Text) : Logged (Except Failure Table) :=
  let outcome := Table.load reader path
  ⟨outcome, tableEvents outcome⟩

/-- The registry of a table's enabled entries. -/
def tableRegistry (table : Table) : Logged (Except Rejection Registry) :=
  ofGlobals table.enabledGlobals

/-- The plugins that a script depends on, each found with an event of its own. -/
def dependencies (registry : Registry) (script : Text) : Logged (List PluginId) :=
  ⟨registry.dependencies script,
    (registry.mentioned script).map fun global => .dependsOn global.name global.owner.name⟩

/-- Marks the calls by every rule in a script. -/
def prepare (rules : List CallRule) (script : Text) : Logged Text :=
  ⟨CallRule.prepare rules script, CallRule.prepareNotes rules script⟩

/-- The event of a chain of tokens that was found. A cursor that is no position leaves none. -/
def chainEvents (script : Text) (cursor : Nat) : List Event :=
  match Completion.chain script cursor, Completion.expressionStart? script cursor with
  | .ok found, some start => [.tokenized cursor start found.tokens.length]
  | _, _ => []

/-- The chain of tokens in front of a cursor. -/
def chain (script : Text) (cursor : Nat) :
    Logged (Except Completion.InvalidCursor Completion.Chain) :=
  ⟨Completion.chain script cursor, chainEvents script cursor⟩

end PluginScript.Journal
