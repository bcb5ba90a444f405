import PluginScript.Completion

/-! # Expressions and their tokens

What a chain of tokens says about a script, without the way in which it is found: which part of the
script the expression in front of a cursor is, how the tokens and the dots and colons between them
make up that part, and where the last token stands. An edit replaces the last token by a word; what
stands behind the cursor stays behind the word.
-/

namespace PluginScript

/-- A text with a word in place of what stands between two byte offsets, if both are character
boundaries. -/
def Text.replace? (text : Text) (start stop : Nat) (word : Text) : Option Text := do
  let front ← text.slice? 0 start
  let behind ← text.slice? stop text.byteLength
  return front ++ word ++ behind

namespace Completion

/-- The characters that no expression holds: parentheses, spaces and line ends. -/
def bounds : List Char := ['(', ')', ' ', '\r', '\n']

/-- Whether a character divides an expression into tokens. -/
def isDivider (c : Char) : Bool := c == '.' || c == ':'

/-- The pieces of a text between its dots and colons. -/
def pieces (text : Text) : List Text :=
  text.splitOnP isDivider

/-- Tokens with one divider behind each of them but the last. -/
def interleave (tokens : List Text) (dividers : Text) : Text :=
  (List.zipWith (· ++ ·) tokens (dividers.map (fun c => [c]) ++ [[]])).flatten

/-- The expression in front of a cursor stands between a byte offset and the cursor, and reaches
back to the last bound or to the beginning of the script. -/
structure IsExpression (script : Text) (start cursor : Nat) (expression : Text) : Prop where
  ordered : start ≤ cursor
  boundary : script.isBoundary start = true
  between : script.slice? start cursor = some expression
  unbounded : ∀ c ∈ expression, c ∉ bounds
  bounded : start = 0 ∨ ∃ front, ∃ c ∈ bounds, script.slice? 0 start = some (front ++ [c])

/-- The tokens of an expression are what stands between its dividers. -/
structure AreTokens (tokens : List Text) (expression : Text) : Prop where
  nonempty : tokens ≠ []
  undivided : ∀ token ∈ tokens, ∀ c ∈ token, isDivider c = false
  count : (expression.filter isDivider).length + 1 = tokens.length
  interleaved : interleave tokens (expression.filter isDivider) = expression

/-- The last token of a chain stands right in front of the cursor, in the expression. -/
structure EndsAt (script : Text) (start cursor : Nat) (found : Chain) : Prop where
  stop : found.stop = cursor
  ordered : start ≤ found.lastStart
  last : script.slice? found.lastStart cursor = some found.last

end Completion

end PluginScript
