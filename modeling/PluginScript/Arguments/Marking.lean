import PluginScript.Arguments
import PluginScript.Text.Blank

/-! # Marked argument lists

The script engine cannot see by which method name a call was made, so a call carries that name as
its last argument, in quotes: such a list is marked. `isMarked` recognises both kinds of quotes;
`mark` appends the name in double quotes and turns the double quotes that were there into single
ones, so that the appended literal is the only one in double quotes.

Both functions take a closed argument list, that is a text from `(` to its `)`.
-/

namespace PluginScript.Arguments

/-- What stands in front of `method` in quotes of the given kind, if the text ends with that. -/
def dropQuoted? (quote : Char) (method text : Text) : Option Text :=
  ([quote] ++ method ++ [quote]).isSuffixOf? text

/-- Whether the last argument of a closed list is the name of the method in quotes. -/
def isMarked (list method : Text) : Bool :=
  let inner := Text.trimEnd list.dropLast
  match (dropQuoted? '"' method inner).or (dropQuoted? '\'' method inner) with
  | none => false
  | some before =>
    match (Text.trimEnd before).getLast? with
    | some last => last == ',' || last == '('
    | none => false

/-- A text with single quotes in place of double ones. -/
def singleQuoted (text : Text) : Text :=
  text.map fun c => if c = '"' then '\'' else c

/-- A closed list with the name of the method appended as its last argument. A list of blanks
alone holds nothing but the name afterwards. -/
def mark (list method : Text) : Text :=
  let inner := list.dropLast
  if (inner.drop 1).all Text.isBlank then
    ['(', '"'] ++ method ++ ['"', ')']
  else
    singleQuoted inner ++ [',', ' ', '"'] ++ method ++ ['"', ')']

end PluginScript.Arguments
