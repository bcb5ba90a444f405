import PluginScript.Arguments.Marking
import PluginScript.CallRule

/-! # Marking the calls of a script

A pass of a rule goes over a text from left to right and marks the argument list of every call by
that rule, calls inside argument lists first. A list that carries the method's name already is left
as it is, apart from the calls inside it. At the first unclosed list the pass stops and leaves the
rest alone. Text that a pass has written is not read again by it.

Preparing a script runs the passes of its rules one after the other, each on the output of the one
before.
-/

namespace PluginScript.CallRule

/-- The list of a call as a pass leaves it, where `inner` is the list with the calls inside it
marked. Whether the list is marked already is read off the list as it was. -/
def settle (rule : CallRule) (list inner : Text) : Text :=
  if Arguments.isMarked list rule.method then inner else Arguments.mark inner rule.method

/-- Marks the calls by one rule in a text. -/
def pass (rule : CallRule) (text : Text) : Text :=
  match _reading : rule.read text with
  | .finished => []
  | .plain c rest => c :: pass rule rest
  | .mention rest => rule.pattern ++ pass rule rest
  | .unclosed rest => rule.pattern ++ rest
  | .call blanks list rest =>
    let inner := if rule.occursInside list then pass rule list else list
    rule.pattern ++ blanks ++ rule.settle list inner ++ pass rule rest
termination_by text.length
decreasing_by
  · exact length_rest_of_read_plain ‹_›
  · exact length_rest_of_read_mention ‹_›
  · exact length_list_of_read_call ‹_›
  · exact length_rest_of_read_call ‹_›

section Readings

variable {rule : CallRule} {text rest blanks list : Text} {c : Char}

@[simp] theorem pass_nil : rule.pass [] = [] := by
  rw [pass]
  rfl

theorem pass_of_read_plain (reading : rule.read text = .plain c rest) :
    rule.pass text = c :: rule.pass rest := by
  rw [pass]
  split <;> simp_all

theorem pass_of_read_mention (reading : rule.read text = .mention rest) :
    rule.pass text = rule.pattern ++ rule.pass rest := by
  rw [pass]
  split <;> simp_all

/-- A text that begins with an unclosed call is left alone. -/
theorem pass_of_read_unclosed (reading : rule.read text = .unclosed rest) :
    rule.pass text = text := by
  have whole := Reading.text_read rule text
  rw [pass]
  split <;> simp_all [Reading.text]

theorem pass_of_read_call (reading : rule.read text = .call blanks list rest) :
    rule.pass text =
      rule.pattern ++ blanks ++
        rule.settle list (if rule.occursInside list then rule.pass list else list) ++
          rule.pass rest := by
  rw [pass]
  split <;> simp_all

end Readings

/-- Marks the calls by every rule, in the order of the rules. -/
def prepare (rules : List CallRule) (script : Text) : Text :=
  rules.foldl (fun text rule => rule.pass text) script

@[simp] theorem prepare_nil (script : Text) : prepare [] script = script := rfl

@[simp] theorem prepare_cons (rule : CallRule) (rules : List CallRule) (script : Text) :
    prepare (rule :: rules) script = prepare rules (rule.pass script) := rfl

theorem prepare_append (first second : List CallRule) (script : Text) :
    prepare (first ++ second) script = prepare second (prepare first script) :=
  List.foldl_append

end PluginScript.CallRule
