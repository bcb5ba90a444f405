import PluginScript.CallRule

/-! # Log events

What the library reports while it works, as data: each kind of event with the facts it carries.
The wording of an event, its level and the names of its fields are functions of that data.
-/

namespace PluginScript

/-- How much an event matters. -/
inductive Level where
  | trace
  | debug
  | warn
deriving DecidableEq, Repr

/-- One thing that happened, with what is known about it. Offsets and lengths are in bytes. -/
inductive Event where
  /-- A global was accepted by a registry. -/
  | registered (global owner : Text) (indexers : Nat)
  /-- A plugin table was read. -/
  | tableRead (entries : Nat)
  /-- A script mentions a global. -/
  | dependsOn (global owner : Text)
  /-- All globals were looked for in a script. -/
  | scanned (plugins : Nat)
  /-- A call is about to be marked. -/
  | marking (rule : CallRule) (offset : Nat)
  /-- A pass stopped at a call that never closes. -/
  | unclosed (rule : CallRule) (offset : Nat)
  /-- A script was prepared for the engine. -/
  | prepared (before after : Nat)
  /-- The expression in front of a cursor was split. -/
  | tokenized (offset start tokens : Nat)
deriving DecidableEq, Repr

namespace Event

def level : Event → Level
  | marking .. | tokenized .. => .trace
  | registered .. | tableRead .. | dependsOn .. | scanned .. | prepared .. => .debug
  | unclosed .. => .warn

/-- The wording of an event. -/
def message : Event → String
  | registered .. => "registered plugin global"
  | tableRead .. => "parsed plugin table"
  | dependsOn .. => "script depends on plugin"
  | scanned .. => "scanned script dependencies"
  | marking .. => "rewriting indexer call"
  | unclosed .. => "unbalanced indexer call, rest of script left unchanged for this method"
  | prepared .. => "prepared script"
  | tokenized .. => "tokenized expression"

/-- The value of a field. -/
inductive Field where
  | count (n : Nat)
  | text (t : Text)
deriving DecidableEq, Repr

/-- The fields of an event by name. -/
def fields : Event → List (String × Field)
  | registered global owner indexers =>
    [("global", .text global), ("owner", .text owner), ("indexers", .count indexers)]
  | tableRead entries => [("entries", .count entries)]
  | dependsOn global owner => [("global", .text global), ("owner", .text owner)]
  | scanned plugins => [("plugins", .count plugins)]
  | marking rule offset | unclosed rule offset =>
    [("global", .text rule.global), ("method", .text rule.method), ("offset", .count offset)]
  | prepared before after => [("before", .count before), ("after", .count after)]
  | tokenized offset start tokens =>
    [("offset", .count offset), ("start", .count start), ("tokens", .count tokens)]

end Event

end PluginScript
