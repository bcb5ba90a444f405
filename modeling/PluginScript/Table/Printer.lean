import PluginScript.Table
import PluginScript.Table.Token

/-! # Printing plugin tables

The plain way to write a table down: each entry is a section with its header and its three lines,
the global, the indexers and whether it is enabled. Nothing is escaped, so a text can be written as
a string only if it has neither quotes nor line breaks, and an owner only if it is a word
(`Entry.Writable`).
-/

namespace PluginScript.Table

/-- A text between quotes. -/
def quote (content : Text) : Text :=
  '"' :: (content ++ ['"'])

/-- A keyword and what it is set to. -/
def assign (keyword value : Text) : Text :=
  keyword ++ [' ', '=', ' '] ++ value

/-- A list of strings. -/
def printMethods (methods : List Text) : Text :=
  ['['] ++ List.intercalate [',', ' '] (methods.map quote) ++ [']']

/-- A line of a section, without its line break. -/
def Line.print : Line → Text
  | .global name => assign "global".toList (quote name)
  | .indexers methods => assign "indexers".toList (printMethods methods)
  | .enabled value => assign "enabled".toList (if value then "true".toList else "false".toList)

/-- A section, each of its lines with a line break behind it. -/
def Section.print (declared : Section) : Text :=
  "[plugins.".toList ++ declared.owner.name ++ [']', '\n'] ++
    declared.lines.flatMap fun line => line.print ++ ['\n']

/-- The section that says all there is to say about an entry. -/
def Entry.toSection (entry : Entry) : Section :=
  ⟨entry.global.owner,
    [.global entry.global.name, .indexers entry.global.indexers, .enabled entry.enabled]⟩

/-- The text of a list of sections. -/
def printSections (declared : List Section) : Text :=
  declared.flatMap Section.print

/-- The text of a table. -/
def print (table : Table) : Text :=
  printSections (table.entries.map Entry.toSection)

example :
    print ⟨[⟨⟨"pad".toList, ⟨"PadPlugin".toList⟩, ["down".toList, "up".toList]⟩, false⟩]⟩ =
      ("[plugins.PadPlugin]\nglobal = \"pad\"\nindexers = [\"down\", \"up\"]\n" ++
        "enabled = false\n").toList := by
  decide

/-- The strings of a line. -/
def Line.strings : Line → List Text
  | .global name => [name]
  | .indexers methods => methods
  | .enabled _ => []

/-- A section that can be written down: its owner is a word, and its strings have neither quotes nor
line breaks. -/
structure Section.Writable (declared : Section) : Prop where
  owner : declared.owner.name.isWord = true
  strings : ∀ line ∈ declared.lines, ∀ content ∈ line.strings,
    content.all Token.isContent = true

/-- An entry that can be written down and has each indexer once. -/
structure Entry.Writable (entry : Entry) : Prop where
  owner : entry.global.owner.name.isWord = true
  name : entry.global.name.all Token.isContent = true
  indexers : ∀ method ∈ entry.global.indexers, method.all Token.isContent = true
  distinct : entry.global.indexers.Nodup

end PluginScript.Table
