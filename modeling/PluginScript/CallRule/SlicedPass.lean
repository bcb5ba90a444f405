import PluginScript.CallRule.Pass

/-! # Passes by slices

A pass as a loop over byte offsets: a cursor goes from one occurrence of the pattern to the next,
and what is written is put together from slices of the script. A slice may fail, since its ends have
to be in order, within the text and on character boundaries, and so may the whole pass. It is not
assumed to come to an end either: a pass is given a number of rounds, and if it needs more, it has
no result, just as one that fails. The rounds of a nested pass are taken from those that are left.

`prepare?` is shown elsewhere to have a result for all rules and all scripts as soon as there are
enough rounds, and to have the one of `CallRule.prepare`.
-/

namespace PluginScript

namespace Text

/-- The byte offset at which `needle` occurs first in a text. -/
def find? (needle : Text) : Text → Option Nat
  | [] => if needle.isEmpty then some 0 else none
  | c :: rest =>
    if needle.isPrefixOf (c :: rest) then some 0
    else (find? needle rest).map fun offset => c.utf8Size + offset

/-- The text from a byte offset on. -/
def sliceFrom? (text : Text) (start : Nat) : Option Text :=
  text.slice? start text.byteLength

/-- The text without its last byte. -/
def sliceInit? (text : Text) : Option Text :=
  if text.byteLength = 0 then none else text.slice? 0 (text.byteLength - 1)

end Text

namespace Sliced

/-- Whether a list is marked, read off the list without its last byte. -/
def isMarked? (list method : Text) : Option Bool := do
  let inner ← list.sliceInit?
  return Arguments.isMarked (inner ++ [')']) method

/-- Marks a list between its first and its last byte. -/
def mark? (list method : Text) : Option Text := do
  let inner ← list.sliceInit?
  let arguments ← inner.sliceFrom? 1
  if arguments.all Text.isBlank then
    return ['(', '"'] ++ method ++ ['"', ')']
  else
    return Arguments.singleQuoted inner ++ [',', ' ', '"'] ++ method ++ ['"', ')']

/-- The list of a call as a pass leaves it, where `inner` is the list with the calls inside it
marked. -/
def settle? (rule : CallRule) (list inner : Text) : Option Text := do
  let marked ← isMarked? list rule.method
  if marked then return inner else mark? inner rule.method

/-- The offset of the parenthesis that opens a list behind an occurrence that ends at a given
offset, if one does. -/
def opening? (script : Text) (stop : Nat) : Option (Option Nat) := do
  let behind ← script.sliceFrom? stop
  if behind.head?.any Text.isWordChar then return none
  let skipped := behind.byteLength - Text.byteLength (behind.dropWhile Text.isBlank)
  let body ← behind.sliceFrom? skipped
  return if body.head? = some '(' then some (stop + skipped) else none

/-- What stands behind an occurrence of a pattern. -/
inductive Behind where
  /-- No argument list. -/
  | mention
  /-- A list without its closing parenthesis, as all of the script that is left. -/
  | unclosed (left : Text)
  /-- Blanks and a list, with the offset at which the list ends. -/
  | call (blanks list : Text) (stop : Nat)

/-- What stands behind an occurrence that ends at a given offset. -/
def behind? (script : Text) (stop : Nat) : Option Behind := do
  match ← opening? script stop with
  | none => return .mention
  | some opening =>
    let span := Arguments.span script opening
    if span.closed then
      let blanks ← script.slice? stop opening
      let list ← script.slice? span.start span.stop
      return .call blanks list span.stop
    else
      let left ← script.sliceFrom? stop
      return .unclosed left

/-- The pass of a rule over a script from a cursor on, behind what has been written. -/
def passFrom? (rule : CallRule) (rounds : Nat) (script : Text) (cursor : Nat) (written : Text) :
    Option Text :=
  match rounds with
  | 0 => none
  | rounds + 1 => do
    let ahead ← script.sliceFrom? cursor
    match Text.find? rule.pattern ahead with
    | none => return written ++ ahead
    | some found =>
      let stop := cursor + found + Text.byteLength rule.pattern
      let copied ← script.slice? cursor stop
      match ← behind? script stop with
      | .mention => passFrom? rule rounds script stop (written ++ copied)
      | .unclosed left => return written ++ copied ++ left
      | .call blanks list next =>
        let inside ← list.sliceFrom? 1
        let inner ← (if Text.occursIn rule.pattern inside then passFrom? rule rounds list 0 []
          else some list)
        let settled ← settle? rule list inner
        passFrom? rule rounds script next (written ++ copied ++ blanks ++ settled)

/-- The passes of all rules, each over what the one before has written. A pass is only run if the
pattern of its rule occurs. -/
def prepare? (rules : List CallRule) (rounds : Nat) (script : Text) : Option Text :=
  rules.foldlM (fun text rule =>
    if Text.occursIn rule.pattern text then passFrom? rule rounds text 0 [] else some text) script

end Sliced

end PluginScript
