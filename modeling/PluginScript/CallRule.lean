import PluginScript.Arguments
import PluginScript.Text.Blank

/-! # Call rules

A call rule names one method of one global. Its pattern `global:method` is searched for as plain
text, with no word boundary on its left. `read` tells what stands at the front of a text as the
rule sees it; everything that a rule does to a text, and everything it reports, is a recursion over
these readings, and each reading accounts for the whole text (`Reading.text_read`).
-/

namespace PluginScript

/-- A method of a global whose calls have to carry the method's name. -/
structure CallRule where
  global : Text
  method : Text
deriving DecidableEq, Repr

namespace CallRule

/-- The text that a call by this rule begins with. -/
def pattern (rule : CallRule) : Text :=
  rule.global ++ ':' :: rule.method

/-- A pattern is never empty, also when both names are. -/
theorem length_pattern_pos (rule : CallRule) : 0 < rule.pattern.length := by
  simp only [pattern, List.length_append, List.length_cons]
  omega

/-- What stands at the front of a text, as a rule reads it. -/
inductive Reading where
  /-- The text is at its end. -/
  | finished
  /-- A character at which the pattern does not begin. -/
  | plain (c : Char) (rest : Text)
  /-- The pattern, with no argument list behind it. -/
  | mention (rest : Text)
  /-- The pattern, and behind it an argument list that never closes. -/
  | unclosed (rest : Text)
  /-- The pattern, blanks, a closed argument list, and what follows it. -/
  | call (blanks list rest : Text)
deriving DecidableEq, Repr

/-- Reads the front of a text. An argument list follows the pattern when `(` does, possibly behind
blanks; a longer name that only begins with the pattern is thus no call. -/
def read (rule : CallRule) : Text → Reading
  | [] => .finished
  | c :: tail =>
    match rule.pattern.isPrefixOf? (c :: tail) with
    | none => .plain c tail
    | some rest =>
      let body := rest.dropWhile Text.isBlank
      if body.head? == some '(' then
        match Arguments.split? body with
        | none => .unclosed rest
        | some (list, behind) => .call (rest.takeWhile Text.isBlank) list behind
      else .mention rest

/-- The text that a reading was made of. -/
def Reading.text (rule : CallRule) : Reading → Text
  | finished => []
  | plain c rest => c :: rest
  | mention rest => rule.pattern ++ rest
  | unclosed rest => rule.pattern ++ rest
  | call blanks list rest => rule.pattern ++ blanks ++ list ++ rest

/-- A reading accounts for the whole text. -/
theorem Reading.text_read (rule : CallRule) (text : Text) :
    (rule.read text).text rule = text := by
  cases text with
  | nil => rfl
  | cons c tail =>
    simp only [read]
    split
    · rfl
    · rename_i rest begins
      have whole := Text.eq_append_of_isPrefixOf? begins
      split
      · split
        · exact whole.symm
        · rename_i list behind cut
          have parts : rest.takeWhile Text.isBlank ++ (list ++ behind) = rest := by
            rw [← Arguments.append_of_split? cut, List.takeWhile_append_dropWhile]
          rw [Reading.text, List.append_assoc, List.append_assoc, parts, whole]
      · exact whole.symm

theorem length_rest_of_read_plain {rule : CallRule} {text rest : Text} {c : Char}
    (reading : rule.read text = .plain c rest) : rest.length < text.length := by
  have whole := Reading.text_read rule text
  rw [reading] at whole
  rw [← whole, Reading.text, List.length_cons]
  omega

theorem length_rest_of_read_mention {rule : CallRule} {text rest : Text}
    (reading : rule.read text = .mention rest) : rest.length < text.length := by
  have whole := Reading.text_read rule text
  have positive := rule.length_pattern_pos
  rw [reading] at whole
  rw [← whole, Reading.text, List.length_append]
  omega

theorem length_list_of_read_call {rule : CallRule} {text blanks list rest : Text}
    (reading : rule.read text = .call blanks list rest) : list.length < text.length := by
  have whole := Reading.text_read rule text
  have positive := rule.length_pattern_pos
  rw [reading] at whole
  rw [← whole, Reading.text]
  simp only [List.length_append]
  omega

theorem length_rest_of_read_call {rule : CallRule} {text blanks list rest : Text}
    (reading : rule.read text = .call blanks list rest) : rest.length < text.length := by
  have whole := Reading.text_read rule text
  have positive := rule.length_pattern_pos
  rw [reading] at whole
  rw [← whole, Reading.text]
  simp only [List.length_append]
  omega

/-- Whether a call by the rule may stand inside a list, behind its opening parenthesis. -/
def occursInside (rule : CallRule) (list : Text) : Bool :=
  Text.occursIn rule.pattern (list.drop 1)

end CallRule

end PluginScript
