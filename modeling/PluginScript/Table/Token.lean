import PluginScript.Peg.Mismatch
import Mathlib.Tactic.SplitIfs

/-! # Tokens of plugin tables

A text read from left to right, token by token. What stands between two tokens, blanks and
comments, is dropped; each token reaches as far as it can. A text that holds anything else, or a
string without its closing quote, has no tokens.
-/

namespace PluginScript.Table

open Peg.Mismatch (isBreak)

/-- A token of a plugin table. -/
inductive Token where
  /-- A bracket, a dot, an equals sign or a comma. -/
  | mark (c : Char)
  /-- A text of word characters. -/
  | word (text : Text)
  /-- A string, by the text between its quotes. -/
  | quoted (content : Text)
  /-- A line break, in any of its spellings. -/
  | newline
deriving DecidableEq, Repr

namespace Token

/-- The blanks of a line. -/
def isSpace (c : Char) : Bool :=
  c == ' ' || c == '\t'

/-- The characters that are tokens by themselves. -/
def isMark (c : Char) : Bool :=
  ['[', ']', '.', '=', ','].contains c

/-- The characters that may stand between two quotes. -/
def isContent (c : Char) : Bool :=
  c != '"' && !isBreak c

/-- A text without the blanks and the comment at its front. A comment ends in front of a line break
or where the text ends, so that there is no more to drop behind it. -/
def skipGap (text : Text) : Text :=
  let rest := text.dropWhile isSpace
  if rest.head? = some '#' then rest.dropWhile fun c => !isBreak c else rest

/-- The token that a text begins with, and the text behind it. -/
def next? : Text → Option (Token × Text)
  | [] => none
  | c :: rest =>
    if isMark c then some (mark c, rest)
    else if Text.isWordChar c then
      some (word (c :: rest.takeWhile Text.isWordChar), rest.dropWhile Text.isWordChar)
    else if c = '"' then
      let behind := rest.dropWhile isContent
      if behind.head? = some '"' then some (quoted (rest.takeWhile isContent), behind.tail)
      else none
    else if c = '\n' then some (newline, rest)
    else if c = '\r' then some (newline, if rest.head? = some '\n' then rest.tail else rest)
    else none

theorem length_skipGap_le (text : Text) : (skipGap text).length ≤ text.length := by
  have blanks := (List.dropWhile_sublist isSpace (l := text)).length_le
  rw [skipGap]
  split
  · exact Nat.le_trans (List.dropWhile_sublist _).length_le blanks
  · exact blanks

/-- A token is not empty. -/
theorem length_lt_of_next? {text later : Text} {token : Token}
    (found : next? text = some (token, later)) : later.length < text.length := by
  cases text with
  | nil => cases found
  | cons c rest =>
    rw [List.length_cons, Nat.lt_succ_iff]
    rw [next?] at found
    split_ifs at found with marked wordly opening feed carriage followed
    · cases found
      exact Nat.le_refl _
    · cases found
      exact (List.dropWhile_sublist _).length_le
    · dsimp only at found
      split at found
      · cases found
        exact Nat.le_trans (List.tail_sublist _).length_le (List.dropWhile_sublist _).length_le
      · cases found
    · cases found
      exact Nat.le_refl _
    · cases found
      exact (List.tail_sublist _).length_le
    · cases found
      exact Nat.le_refl _

/-- The tokens of a text, if it consists of tokens. -/
def lex? (text : Text) : Option (List Token) :=
  if (skipGap text).isEmpty then some []
  else
    match found : next? (skipGap text) with
    | none => none
    | some (token, later) =>
      have := Nat.lt_of_lt_of_le (length_lt_of_next? found) (length_skipGap_le text)
      (lex? later).map fun tokens => token :: tokens
termination_by text.length

theorem lex?_of_skipGap_eq_nil {text : Text} (bare : skipGap text = []) : lex? text = some [] := by
  rw [lex?, if_pos (by rw [bare]; rfl)]

theorem lex?_of_next? {text later : Text} {token : Token}
    (found : next? (skipGap text) = some (token, later)) :
    lex? text = (lex? later).map fun tokens => token :: tokens := by
  have filled : (skipGap text).isEmpty ≠ true := by
    intro empty
    rw [List.isEmpty_iff.mp empty] at found
    cases found
  rw [lex?, if_neg filled]
  split
  · rename_i failed
    cases failed.symm.trans found
  · rename_i same
    cases same.symm.trans found
    rfl

/-- A text without tokens does not begin with one. -/
theorem lex?_of_next?_eq_none {text : Text} (filled : skipGap text ≠ [])
    (failed : next? (skipGap text) = none) : lex? text = none := by
  rw [lex?, if_neg (by simpa using filled)]
  split
  · rfl
  · rename_i same
    cases same.symm.trans failed

example : lex? "a = \"#\" # x\r\n".toList =
    some [word "a".toList, mark '=', quoted "#".toList, newline] := by cbv

end Token

end PluginScript.Table
