import PluginScript.Command

/-! # Reading what the command has printed

Whoever runs the command reads its output without knowing what went into it: an output is a sequence
of lines, a line of tokens is cut at single spaces, a line about a place is read by the numbers in it,
and a line of a list of plugins is the name of one. Nothing is escaped on the way out, and nothing is
unescaped here.
-/

namespace PluginScript.Command

/-- The lines of an output that consists of whole lines. -/
def lines? (output : Text) : Option (List Text) :=
  match (output.splitOn '\n').reverse with
  | [] :: rows => some rows.reverse
  | _ => none

/-- The numbers in a text, from its front to its end. -/
def numbers (text : Text) : List Nat :=
  ((text.splitOnP fun c => !c.isDigit).filter fun digits => !digits.isEmpty).map
    fun digits => Nat.ofDigitChars 10 digits 0

/-- The chain of tokens that an output tells: its tokens on one line, and the place of the last of
them on another one. -/
def readChain? (output : Text) : Option Completion.Chain :=
  match lines? output with
  | some [tokens, place] =>
    match numbers place with
    | [start, length] => some ⟨tokens.splitOn ' ', start, length⟩
    | _ => none
  | _ => none

/-- The plugins that an output lists, one on each line. -/
def readPlugins? (output : Text) : Option (List PluginId) :=
  (lines? output).map fun rows => rows.map PluginId.mk

example : readChain? "a  b\nat 3 (length 0)\n".toList =
    some ⟨["a".toList, [], "b".toList], 3, 0⟩ := by decide +kernel

end PluginScript.Command
