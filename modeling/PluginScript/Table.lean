import PluginScript.Table.Section

/-! # Plugin tables

A plugin table lists globals with their owners and indexers, each enabled or not. It is written as
a text of sections, one for each entry, and makes a registry of its enabled entries.
-/

namespace PluginScript

/-- The entries of a plugin table, in the order of their sections. -/
structure Table where
  entries : List Table.Entry
deriving DecidableEq, Repr

namespace Table

/-- The sections that a text consists of. -/
def sections (text : Text) : Except Failure (List Section) :=
  match Peg.parse Grammar.table text with
  | .ok nodes => .ok (Section.ofNodes nodes)
  | .error mismatch => .error (.malformedTable mismatch)

/-- The table of a list of sections. The first section that declares no entry fails. -/
def ofSections (declared : List Section) : Except Failure Table := do
  return ⟨← declared.mapM Section.entry⟩

/-- The table that a text describes. -/
def parse (text : Text) : Except Failure Table := do
  ofSections (← sections text)

/-- The table in a file. -/
def load (reader : Reader) (path : Text) : Except Failure Table :=
  match reader.readText path with
  | .error cause => .error (.unreadable path cause)
  | .ok text => parse text

/-- The globals of the enabled entries. -/
def enabledGlobals (table : Table) : List Global :=
  (table.entries.filter Entry.enabled).map Entry.global

/-- The registry of the enabled entries. -/
def registry (table : Table) : Except Rejection Registry :=
  Registry.ofGlobals table.enabledGlobals

end Table

end PluginScript
