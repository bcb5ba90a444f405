import PluginScript.CallRule.Pass
import PluginScript.Event

/-! # What the passes report

Beside the text that a pass writes there are the notes it takes: one for every call it marks, after
the notes of the calls inside its list, and one for the unclosed call at which it stops. The offset
in a note is the position of the pattern in the text that the pass works on; inside an argument
list that is the list, from its opening parenthesis on.
-/

namespace PluginScript.CallRule

/-- The note on a call, which is taken if its list is about to be marked. -/
def ownNotes (rule : CallRule) (offset : Nat) (list : Text) : List Event :=
  if Arguments.isMarked list rule.method then [] else [.marking rule offset]

/-- The notes of a pass over a text that begins at the given offset. -/
def notesFrom (rule : CallRule) (offset : Nat) (text : Text) : List Event :=
  match _reading : rule.read text with
  | .finished => []
  | .plain c rest => notesFrom rule (offset + c.utf8Size) rest
  | .mention rest => notesFrom rule (offset + Text.byteLength rule.pattern) rest
  | .unclosed _ => [.unclosed rule offset]
  | .call blanks list rest =>
    let inner := if rule.occursInside list then notesFrom rule 0 list else []
    let width := Text.byteLength (rule.pattern ++ blanks ++ list)
    inner ++ rule.ownNotes offset list ++ notesFrom rule (offset + width) rest
termination_by text.length
decreasing_by
  · exact length_rest_of_read_plain ‹_›
  · exact length_rest_of_read_mention ‹_›
  · exact length_list_of_read_call ‹_›
  · exact length_rest_of_read_call ‹_›

section Readings

variable {rule : CallRule} {text rest blanks list : Text} {c : Char} {offset : Nat}

end Readings

/-- The notes of a pass over a whole text. -/
def notes (rule : CallRule) (text : Text) : List Event :=
  rule.notesFrom 0 text

/-- The notes of all passes that prepare a script, each over the text that its pass reads. -/
def prepareNotes : List CallRule → Text → List Event
  | [], _ => []
  | rule :: rules, script => rule.notes script ++ prepareNotes rules (rule.pass script)

end PluginScript.CallRule
