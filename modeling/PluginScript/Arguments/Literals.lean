import PluginScript.Arguments
import PluginScript.Text.Blank

/-! # String literals and arguments of a list

Neither the scan for the end of an argument list nor the mark of a list looks at string literals.
What a list passes to a call depends on them, though, so this module says how they are read: from
left to right, a quote outside of all strings opens a string, and the next quote of the same kind
closes it. No character takes that meaning from a quote.

A `QuoteReader` knows the contents of the strings that it has passed, in their order, and the string
it stands in. The arguments of a list are the pieces between those of its commas that stand outside
of all strings and in no inner parentheses; parentheses count wherever they stand, as in the scan.
-/

namespace PluginScript.Arguments

/-- The two kinds of quotes. -/
inductive Quote where
  | single
  | double
deriving DecidableEq, Repr

namespace Quote

def char : Quote → Char
  | single => '\''
  | double => '"'

/-- The quote that a character is. -/
def ofChar? (c : Char) : Option Quote :=
  if c = '\'' then some single else if c = '"' then some double else none

end Quote

/-- What the reader of a text knows. -/
structure QuoteReader where
  /-- The contents of the closed strings. -/
  literals : List Text
  /-- The string that the reader stands in: the quote that closes it, and its content so far. -/
  current : Option (Quote × Text)
deriving DecidableEq, Repr

namespace QuoteReader

/-- Reads one character. -/
def next (reader : QuoteReader) (c : Char) : QuoteReader :=
  match reader.current with
  | none => ⟨reader.literals, (Quote.ofChar? c).map fun quote => (quote, [])⟩
  | some (quote, content) =>
    if c = quote.char then ⟨reader.literals ++ [content], none⟩
    else ⟨reader.literals, some (quote, content ++ [c])⟩

/-- Reads a text. -/
def feed (reader : QuoteReader) (text : Text) : QuoteReader :=
  text.foldl next reader

/-- What is known of a whole text. -/
def ofText (text : Text) : QuoteReader :=
  feed ⟨[], none⟩ text

end QuoteReader

/-- The arguments that begin with `piece` and go on with a text, for a reader at a depth. -/
def argumentsFrom (reader : QuoteReader) (depth : Int) (piece : Text) : Text → List Text
  | [] => [piece]
  | c :: rest =>
    let reached := depth + (Bracket.ofChar c).weight
    if c = ',' ∧ reader.current = none ∧ depth = 1 then
      piece :: argumentsFrom (reader.next c) reached [] rest
    else argumentsFrom (reader.next c) reached (piece ++ [c]) rest

/-- The arguments of a list, with the blanks around them. -/
def arguments (list : Text) : List Text :=
  argumentsFrom ⟨[], none⟩ 1 [] (list.drop 1).dropLast

end PluginScript.Arguments
