import PluginScript.Failure

/-! # Sections of a plugin table

A section of a table, read off the nodes that the grammar yields: the plugin it belongs to and its
lines in order. A section declares one entry of the table. Its lines are taken one after the
other: a second global is a failure at once, indexers add up, and the last word on being enabled
counts; a section without a global fails at its end.
-/

namespace PluginScript.Table

/-- One line of a section. -/
inductive Line where
  | global (name : Text)
  | indexers (methods : List Text)
  | enabled (value : Bool)
deriving DecidableEq, Repr

/-- A section: the plugin of its header, and its lines. -/
structure Section where
  owner : PluginId
  lines : List Line
deriving DecidableEq, Repr

/-- The text of the first node inside a node. -/
def firstText (node : Peg.Node Rule) : Text :=
  match node.children with
  | [] => []
  | child :: _ => child.text

/-- The line that a node stands for, if it stands for one. -/
def Line.ofNode? (node : Peg.Node Rule) : Option Line :=
  match node.rule with
  | .globalLine => (node.children.head?).map fun string => .global (firstText string)
  | .indexersLine => some (.indexers (node.children.map firstText))
  | .enabledLine => some (.enabled (firstText node == "true".toList))
  | _ => none

/-- The section that a node stands for. -/
def Section.ofNode (node : Peg.Node Rule) : Section where
  owner :=
    match node.children.find? fun child => child.rule == .header with
    | some header => ⟨firstText header⟩
    | none => ⟨[]⟩
  lines := node.children.filterMap Line.ofNode?

/-- The sections inside the nodes of a table. -/
def Section.ofNodes (nodes : List (Peg.Node Rule)) : List Section :=
  let inside := nodes.flatMap Peg.Node.children
  (inside.filter fun node => node.rule == .block).map Section.ofNode

/-- A global, and whether its plugin is switched on. -/
structure Entry where
  global : Global
  enabled : Bool
deriving DecidableEq, Repr

/-- What the lines of a section have said so far. -/
structure Draft where
  name : Option Text
  methods : List Text
  enabled : Bool
deriving DecidableEq, Repr

/-- The draft before the first line. A plugin is enabled unless a line says otherwise. -/
def Draft.initial : Draft := ⟨none, [], true⟩

/-- Takes one more line. -/
def Draft.add (owner : PluginId) (draft : Draft) : Line → Except Failure Draft
  | .global name =>
    match draft.name with
    | some _ => .error (.repeatedGlobal owner)
    | none => .ok { draft with name := some name }
  | .indexers methods => .ok { draft with methods := draft.methods ++ methods }
  | .enabled value => .ok { draft with enabled := value }

/-- The entry that a finished draft makes. -/
def Draft.finish (owner : PluginId) (draft : Draft) : Except Failure Entry :=
  match draft.name with
  | none => .error (.missingGlobal owner)
  | some name => .ok ⟨.declare name owner draft.methods, draft.enabled⟩

/-- The entry that a section declares. -/
def Section.entry (declared : Section) : Except Failure Entry := do
  let draft ← declared.lines.foldlM (Draft.add declared.owner) .initial
  draft.finish declared.owner

end PluginScript.Table
