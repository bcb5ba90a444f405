import PluginScript.CallRule.Notes
import PluginScript.Proofs.OutlinePass
import Mathlib.Data.List.DropRight

/-! # Notes on outlines

The notes of a pass of a named rule are a walk over the outline of the text, like the pass itself
(`notes_text`). The walk carries the text since the beginning of the list that offsets count from:
of the list of the innermost call around it, or else of the whole text.
-/

namespace PluginScript

open Arguments (Bracket)

namespace CallRule

variable {rule : CallRule}

/-- The offset of a call, given the text in front of its list: the bytes in front of the blanks and
the pattern at the end of that text. -/
def callOffset (rule : CallRule) (before : Text) : Nat :=
  Text.byteLength ((Text.trimEnd before).rdrop rule.pattern.length)

end CallRule

namespace Outline

/-- The notes of a pass over an outline. It stands behind `since`, the text since the beginning of
the list that offsets count from, and behind `before`, the text since the last parenthesis. -/
def notes (rule : CallRule) (since before : Text) : Outline → List Event
  | nil => []
  | char c rest =>
    if c = '(' ∧ rule.announces before = true then [.unclosed rule (rule.callOffset since)]
    else rest.notes rule (since ++ [c]) (extend before c)
  | group inner rest =>
    inner.notes rule (if rule.announces before then ['('] else since ++ ['(']) [] ++
      ((if marks rule before inner then [.marking rule (rule.callOffset since)] else []) ++
        rest.notes rule (since ++ inner.list) [])

section Notes

variable {rule : CallRule} {since before : Text} {inner rest : Outline}

theorem notes_group : (group inner rest).notes rule since before =
    inner.notes rule (if rule.announces before then ['('] else since ++ ['(']) [] ++
      ((if marks rule before inner then [.marking rule (rule.callOffset since)] else []) ++
        rest.notes rule (since ++ inner.list) []) := rfl

section Calls

variable (named : rule.Named)
include named

end Calls

end Notes

end Outline

end PluginScript
