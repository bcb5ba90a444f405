import PluginScript.Text

/-! # Completion

An editor that completes a name asks for the expression in front of the cursor. The expression
begins behind the last parenthesis, space or line end before the cursor and is a chain of tokens
with dots or colons between them, as in `keyboard.getDown`. The last token, which is empty right
behind a dot or colon, is what a completion replaces.

A cursor is a byte offset, and has to lie on a character boundary of the script.
-/

namespace PluginScript.Completion

/-- The characters between expressions. -/
def isExpressionDelimiter (c : Char) : Bool :=
  ['(', ')', ' ', '\r', '\n'].contains c

/-- The characters between the tokens of an expression. -/
def isTokenDelimiter (c : Char) : Bool :=
  ['.', ':'].contains c

/-- The expression at the end of a text. -/
def lastExpression (text : Text) : Text :=
  (text.reverse.takeWhile fun c => !isExpressionDelimiter c).reverse

/-- The byte offset at which the expression in front of the cursor begins, if the cursor is a
position in the script. -/
def expressionStart? (script : Text) (cursor : Nat) : Option Nat :=
  (script.splitAtByte? cursor).map fun parts =>
    cursor - Text.byteLength (lastExpression parts.1)

/-- The tokens of an expression, and where its last token lies, in bytes. -/
structure Chain where
  tokens : List Text
  lastStart : Nat
  lastLength : Nat
deriving DecidableEq, Repr

namespace Chain

/-- The last token. -/
def last (chain : Chain) : Text :=
  chain.tokens.getLast?.getD []

/-- The end of the last token. -/
def stop (chain : Chain) : Nat :=
  chain.lastStart + chain.lastLength

/-- The chain of an expression that ends at a byte offset. -/
def ofExpression (expression : Text) (cursor : Nat) : Chain :=
  let tokens := expression.splitOnP isTokenDelimiter
  let length := Text.byteLength (tokens.getLast?.getD [])
  ⟨tokens, cursor - length, length⟩

end Chain

/-- A cursor that is no position in a script of the given size. -/
structure InvalidCursor where
  cursor : Nat
  size : Nat
deriving DecidableEq, Repr

/-- The wording of the complaint about an invalid cursor. -/
def InvalidCursor.message (invalid : InvalidCursor) : Text :=
  "cursor offset ".toList ++ Text.ofNat invalid.cursor ++
    " is not a valid position in a script of ".toList ++ Text.ofNat invalid.size ++
    " bytes".toList

/-- The chain of tokens in front of the cursor. -/
def chain (script : Text) (cursor : Nat) : Except InvalidCursor Chain :=
  match script.splitAtByte? cursor with
  | some (before, _) => .ok (.ofExpression (lastExpression before) cursor)
  | none => .error ⟨cursor, script.byteLength⟩

end PluginScript.Completion
