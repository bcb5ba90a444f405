import PluginScript.Arguments

/-! # Matching parentheses

The scan for the end of an argument list counts. What it looks for can be said without counting: the
brackets of a list are a group of the grammar of balanced brackets, which begins at the opening
parenthesis, and the last byte of the list is the closing parenthesis of that group.

The last byte has to be named. Other bytes may stand anywhere between the brackets of a group, so
the brackets alone do not tell a list from the same list with a few blanks behind it.
-/

namespace PluginScript.Arguments

namespace Bracket

/-- The sequences in which every bracket has its partner: the empty one, and a pair of brackets
around such a sequence with another one behind. -/
inductive Balanced : List Bracket → Prop where
  | nil : Balanced []
  | group {inner rest : List Bracket} (inside : Balanced inner) (behind : Balanced rest) :
      Balanced (opening :: (inner ++ closing :: rest))

/-- A pair of brackets around a balanced sequence. -/
def IsGroup (found : List Bracket) : Prop :=
  ∃ inner, Balanced inner ∧ found = opening :: (inner ++ [closing])

end Bracket

/-- The brackets among some symbols, in their order. -/
def brackets {α : Type} (bracket : α → Bracket) (symbols : List α) : List Bracket :=
  (symbols.map bracket).filter fun found => found != .other

/-- The parentheses between two byte offsets of a script are a group. -/
def FormsGroup (script : Text) (start stop : Nat) : Prop :=
  stop ≤ script.byteLength ∧
    Bracket.IsGroup (brackets Bracket.ofByte (script.encode.extract start stop))

/-- The parentheses between two byte offsets of a script are a group that ends with the last byte
in front of `stop`. -/
def IsMatched (script : Text) (start stop : Nat) : Prop :=
  script.encode[stop - 1]? = some 0x29 ∧ FormsGroup script start stop

end PluginScript.Arguments
