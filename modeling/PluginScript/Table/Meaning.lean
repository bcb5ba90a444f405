import PluginScript.Table
import PluginScript.Table.Layout

/-! # What plugin tables say

What a text says as a plugin table, without the way in which it is read. A text lays out sections
(`LaysOut`): the owner of each is the word in its header, and the names and methods are what stands
between quotes in its lines. A section is about its lines of each kind, taken together: it declares
an entry (`Section.Declares`) or has a flaw (`Section.Flaw`). So it does not matter how lines of
different kinds are mixed (`Section.Rearranged`).
-/

namespace PluginScript.Table

/-- The text is a way to write the sections. -/
def LaysOut (text : Text) (declared : List Section) : Prop :=
  ∃ tokens ∈ Layout.tableOf declared, Token.lex? text = some tokens

namespace Line

/-- The name in a global line. -/
def global? : Line → Option Text
  | global name => some name
  | _ => none

/-- The methods in an indexers line. -/
def methods? : Line → Option (List Text)
  | indexers methods => some methods
  | _ => none

/-- The value in an enabled line. -/
def enabled? : Line → Option Bool
  | enabled value => some value
  | _ => none

end Line

namespace Section

/-- The names in the global lines of a section. -/
def names (declared : Section) : List Text :=
  declared.lines.filterMap Line.global?

/-- The lists in the indexers lines of a section. -/
def methodLists (declared : Section) : List (List Text) :=
  declared.lines.filterMap Line.methods?

/-- The values in the enabled lines of a section. -/
def switches (declared : Section) : List Bool :=
  declared.lines.filterMap Line.enabled?

/-- The entry that a section with one global line declares: it has the methods of all indexers lines
where they come first, and the last word on being enabled. -/
structure Declares (declared : Section) (entry : Entry) : Prop where
  owner : entry.global.owner = declared.owner
  name : declared.names = [entry.global.name]
  indexers : entry.global.indexers = declared.methodLists.flatten.eraseDups
  enabled : entry.enabled = declared.switches.getLast?.getD true

/-- What is wrong with a section that has not just one global line. -/
inductive Flaw (declared : Section) : Failure → Prop where
  | missing (none : declared.names = []) : Flaw declared (.missingGlobal declared.owner)
  | repeated (several : 1 < declared.names.length) : Flaw declared (.repeatedGlobal declared.owner)

/-- A section with the same lines in another order. Several indexers lines stay in order among
themselves, and several enabled lines do. -/
structure Rearranged (declared other : Section) : Prop where
  owner : other.owner = declared.owner
  lines : other.lines.Perm declared.lines
  methodLists : 1 < declared.methodLists.length → other.methodLists = declared.methodLists
  switches : 1 < declared.switches.length → other.switches = declared.switches

end Section

end PluginScript.Table
