import PluginScript.Peg

/-! # Failed attempts

A parse that fails is explained by the rules that failed at the furthest position where any rule
did. The bookkeeping follows the order in which the matcher tries things: a rule that fails at
the position of the record replaces what was recorded inside it since it was entered, except that
one single failure inside it stands for it; a rule that fails further on starts a new record;
one that fails earlier leaves no trace. Nothing is taken back when the matcher backtracks, and a
negative lookahead records nothing. Only rules fail; literals and characters do not.

Matching does not depend on the record, which is why it is a function of its own.
-/

namespace PluginScript.Peg

variable {ρ : Type}

/-- The rules that failed at the furthest position so far. -/
structure Attempts (ρ : Type) where
  position : Nat
  rules : List ρ

namespace Attempts

/-- The record before anything was tried. -/
def initial : Attempts ρ := ⟨0, []⟩

/-- How many failures are recorded at an offset. -/
def countAt (attempts : Attempts ρ) (offset : Nat) : Nat :=
  if attempts.position = offset then attempts.rules.length else 0

/-- Records that a rule has failed at an offset, where `before` failures were on record when the
rule was entered. -/
def fail (attempts : Attempts ρ) (name : ρ) (offset before : Nat) : Attempts ρ :=
  if attempts.countAt offset = before + 1 then attempts
  else if offset < attempts.position then attempts
  else if offset = attempts.position then ⟨offset, attempts.rules.take before ++ [name]⟩
  else ⟨offset, [name]⟩

end Attempts

/-- The record after the rounds of a repetition, the failing one included. -/
def attemptsOfRounds (step : Cursor → Option (Match ρ))
    (record : Cursor → Attempts ρ → Attempts ρ) (cursor : Cursor) (attempts : Attempts ρ) :
    Attempts ρ :=
  match step cursor with
  | none => record cursor attempts
  | some (_, next) =>
    if next.left < cursor.left then
      attemptsOfRounds step record next (record cursor attempts)
    else record cursor attempts
termination_by cursor.left

/-- The record after an expression was tried at a position. -/
def attempts : Peg ρ → Cursor → Attempts ρ → Attempts ρ
  | empty, _, before => before
  | beginning, _, before => before
  | ending, _, before => before
  | char _, _, before => before
  | literal _, _, before => before
  | seq first second, cursor, before =>
    let between := attempts first cursor before
    match match? first cursor with
    | none => between
    | some (_, next) => attempts second next between
  | choice first second, cursor, before =>
    let between := attempts first cursor before
    match match? first cursor with
    | some _ => between
    | none => attempts second cursor between
  | star body, cursor, before => attemptsOfRounds (match? body) (attempts body) cursor before
  | absent _, _, before => before
  | rule name body, cursor, before =>
    let inside := attempts body cursor before
    match match? body cursor with
    | some _ => inside
    | none => inside.fail name cursor.offset (before.countAt cursor.offset)

/-- A text that an expression does not match, and the rules that failed furthest on. -/
structure Mismatch (ρ : Type) where
  text : Text
  position : Nat
  expected : List ρ

/-- Matches an expression at the front of a text, which it need not use up. -/
def parse (expression : Peg ρ) (text : Text) : Except (Mismatch ρ) (List (Node ρ)) :=
  match match? expression (.before 0 text) with
  | some (nodes, _) => .ok nodes
  | none =>
    let record := attempts expression (.before 0 text) .initial
    .error ⟨text, record.position, record.rules⟩

end PluginScript.Peg
