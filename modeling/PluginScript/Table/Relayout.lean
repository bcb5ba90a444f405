import PluginScript.Table
import PluginScript.Table.Token
import Mathlib.Data.List.DropRight

/-! # The layout of plugin tables

Two ways to say that texts differ in their layout only. Their tokens are the same once line breaks
are tidied up: no more than one in a row, and none at either end (`Token.tidy`). Or one text comes
about from the other by changes at its line breaks (`Relaid`). What parsing them comes to is
compared up to the report about a text that is no table, which tells a place in that text (`Alike`).
-/

namespace PluginScript.Table

open Peg.Mismatch (isBreak)

namespace Token

/-- Collapses each run of line breaks to one. -/
def collapse : List Token → List Token
  | [] => []
  | token :: rest =>
    if token = newline ∧ rest.head? = some newline then collapse rest else token :: collapse rest

/-- Whether a token is a line break. -/
def isNewline (token : Token) : Bool :=
  token == newline

/-- The tokens with no more than one line break in a row, and with none at the ends. -/
def tidy (tokens : List Token) : List Token :=
  ((collapse tokens).dropWhile isNewline).rdropWhile isNewline

end Token

/-- The ways to write a line break. -/
def lineBreaks : List Text :=
  [['\n'], ['\r', '\n'], ['\r']]

/-- One change of the layout of a text at one of its line breaks. -/
inductive Relaid : Text → Text → Prop where
  /-- A comment is added at the end of a line. -/
  | comment (front comment rest : Text) (within : comment.all (fun c => !isBreak c) = true)
      (lineEnd : ∀ c ∈ rest.head?, isBreak c = true) :
      Relaid (front ++ rest) (front ++ '#' :: (comment ++ rest))
  /-- A line break is doubled. -/
  | double (front lineBreak rest : Text) (known : lineBreak ∈ lineBreaks) :
      Relaid (front ++ (lineBreak ++ rest)) (front ++ (lineBreak ++ (lineBreak ++ rest)))
  /-- A line break is written with a carriage return. -/
  | carriage (front rest : Text) :
      Relaid (front ++ '\n' :: rest) (front ++ '\r' :: '\n' :: rest)

/-- The text with a carriage return in front of each line feed. -/
def withCarriages (text : Text) : Text :=
  text.flatMap fun c => if c = '\n' then ['\r', '\n'] else [c]

/-- Outcomes of parsing that say the same: the same entries in the same order, the same complaint
about what the table registers, or that the text is no table. -/
inductive Alike : Except Failure Table → Except Failure Table → Prop where
  | entries (table : Table) : Alike (.ok table) (.ok table)
  | registration {first second : Failure} (category : first.category = .registration)
      (category' : second.category = .registration) (message : first.message = second.message) :
      Alike (.error first) (.error second)
  | config {first second : Failure} (category : first.category = .config)
      (category' : second.category = .config) : Alike (.error first) (.error second)

end PluginScript.Table
