import PluginScript.Peg

/-! # The grammar of plugin tables

A plugin table is a text of sections. A section is a header `[plugins.OWNER]` and lines of three
kinds: `global = "NAME"`, `indexers = ["METHOD", …]` and `enabled = true` or `false`. Between the
parts of a line, blanks and comments may stand; a comment begins with `#` and ends in front of the
next line break. The characters of a string are taken as they are.
-/

namespace PluginScript.Table

/-- The named parts of a table, in the order in which reports list them. -/
inductive Rule where
  | endOfInput
  | blank
  | comment
  | table
  | block
  | header
  | entry
  | globalLine
  | indexersLine
  | enabledLine
  | word
  | boolean
  | quoted
  | content
deriving DecidableEq, Repr

namespace Rule

/-- All rules, in their order. -/
def all : List Rule :=
  [endOfInput, blank, comment, table, block, header, entry, globalLine, indexersLine,
    enabledLine, word, boolean, quoted, content]

/-- The name of a rule in reports. -/
def label : Rule → Text
  | endOfInput => "EOI".toList
  | blank => "WHITESPACE".toList
  | comment => "COMMENT".toList
  | table => "table".toList
  | block => "section".toList
  | header => "header".toList
  | entry => "entry".toList
  | globalLine => "global".toList
  | indexersLine => "indexers".toList
  | enabledLine => "enabled".toList
  | word => "ident".toList
  | boolean => "boolean".toList
  | quoted => "string".toList
  | content => "chars".toList

/-- The rule of a name. -/
def ofLabel? (name : Text) : Option Rule :=
  all.find? fun rule => rule.label == name

end Rule

namespace Grammar

open Peg

/-- The end of the text. -/
def endOfInput : Peg Rule := rule .endOfInput ending

/-- One blank: a space or a tab. -/
def blank : Peg Rule := char fun c => c == ' ' || c == '\t'

/-- One line break. -/
def newline : Peg Rule :=
  choices [literal ['\n'], literal ['\r', '\n'], literal ['\r']]

/-- A comment, up to the end of its line. -/
def comment : Peg Rule :=
  sequence [literal ['#'], star (sequence [absent newline, any])]

/-- What may stand between the parts of a line: blanks and comments. -/
def gap : Peg Rule :=
  sequence [star blank, star (sequence [comment, star blank])]

/-- A word, as in the owner of a section. -/
def word : Peg Rule := rule .word (plus (char Text.isWordChar))

/-- A truth value. -/
def boolean : Peg Rule :=
  rule .boolean (choices [literal "true".toList, literal "false".toList])

/-- The characters of a string. -/
def content : Peg Rule :=
  rule .content (star (sequence [absent (choices [literal ['"'], newline]), any]))

/-- A string, with its quotes. -/
def quoted : Peg Rule :=
  rule .quoted (sequence [literal ['"'], content, literal ['"']])

/-- The line that names a global. -/
def globalLine : Peg Rule :=
  rule .globalLine (spaced gap [literal "global".toList, literal ['='], quoted])

/-- A line that declares indexers. The list of strings may be empty, and may end in a comma. -/
def indexersLine : Peg Rule :=
  let more := starSpaced gap (spaced gap [literal [','], quoted])
  let methods := spaced gap [quoted, more, optional (literal [','])]
  rule .indexersLine
    (spaced gap [literal "indexers".toList, literal ['='], literal ['['], optional methods,
      literal [']']])

/-- A line that switches a plugin on or off. -/
def enabledLine : Peg Rule :=
  rule .enabledLine (spaced gap [literal "enabled".toList, literal ['='], boolean])

/-- A line of a section. -/
def entry : Peg Rule := choices [globalLine, indexersLine, enabledLine]

/-- The header of a section. -/
def header : Peg Rule :=
  rule .header
    (spaced gap [literal ['['], literal "plugins".toList, literal ['.'], word, literal [']']])

/-- A section: its header, and the lines below it. -/
def block : Peg Rule :=
  rule .block
    (spaced gap [header, starSpaced gap (spaced gap [plusSpaced gap newline, entry])])

/-- A table: sections, with line breaks before, between and behind them. -/
def table : Peg Rule :=
  let breaks := starSpaced gap newline
  rule .table
    (spaced gap [beginning, breaks, starSpaced gap (spaced gap [block, breaks]), endOfInput])

/-- The expression of a rule. Blanks, comments and entries leave no node of their own. -/
def expression : Rule → Peg Rule
  | .endOfInput => endOfInput
  | .blank => blank
  | .comment => comment
  | .table => table
  | .block => block
  | .header => header
  | .entry => entry
  | .globalLine => globalLine
  | .indexersLine => indexersLine
  | .enabledLine => enabledLine
  | .word => word
  | .boolean => boolean
  | .quoted => quoted
  | .content => content

end Grammar

end PluginScript.Table
