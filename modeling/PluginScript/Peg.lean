import PluginScript.Peg.Cursor

/-! # Parsing expressions

A parsing expression describes how to read a text from a position: choices are ordered, the first
alternative that matches is taken, and a repetition takes as many rounds as it can and never gives
one back. Matching is one structural recursion over the expression (`match?`); a repetition ends
when a round fails, and a round that reads nothing would end it too. What a match yields is a list
of nodes, one for each named rule inside it that is not inside another one.
-/

namespace PluginScript

/-- A parsing expression whose named parts are called by rules of type `ρ`. -/
inductive Peg (ρ : Type) where
  /-- Reads nothing. -/
  | empty
  /-- Reads nothing, at the beginning of the text. -/
  | beginning
  /-- Reads nothing, at the end of the text. -/
  | ending
  /-- Reads one character of a class. -/
  | char (accepts : Char → Bool)
  /-- Reads a given text. -/
  | literal (text : Text)
  /-- Reads one expression, then the other. -/
  | seq (first second : Peg ρ)
  /-- Reads the first expression that matches. -/
  | choice (first second : Peg ρ)
  /-- Reads an expression as often as it matches. -/
  | star (body : Peg ρ)
  /-- Reads nothing, where an expression does not match. -/
  | absent (body : Peg ρ)
  /-- Reads an expression and names what was read. -/
  | rule (name : ρ) (body : Peg ρ)

namespace Peg

variable {ρ : Type}

/-- A part of the text that a rule has read, with the parts that rules inside it have read. -/
structure Node (ρ : Type) where
  rule : ρ
  start : Nat
  text : Text
  children : List (Node ρ)

/-- The byte offset behind a node. -/
def Node.stop (node : Node ρ) : Nat :=
  node.start + node.text.byteLength

/-- What a match yields: nodes, and the position it ends at. -/
abbrev Match (ρ : Type) := List (Node ρ) × Cursor

/-- Repeats a step until it fails or reads nothing. -/
def rounds (step : Cursor → Option (Match ρ)) (cursor : Cursor) : Match ρ :=
  match step cursor with
  | none => ([], cursor)
  | some (nodes, next) =>
    if next.left < cursor.left then
      let more := rounds step next
      (nodes ++ more.1, more.2)
    else ([], cursor)
termination_by cursor.left

theorem rounds_of_none {step : Cursor → Option (Match ρ)} {cursor : Cursor}
    (failed : step cursor = none) : rounds step cursor = ([], cursor) := by
  rw [rounds, failed]

theorem rounds_of_some {step : Cursor → Option (Match ρ)} {cursor next : Cursor}
    {nodes : List (Node ρ)} (matched : step cursor = some (nodes, next))
    (progress : next.left < cursor.left) :
    rounds step cursor = (nodes ++ (rounds step next).1, (rounds step next).2) := by
  rw [rounds, matched]
  simp only [progress, if_true]

theorem rounds_of_stuck {step : Cursor → Option (Match ρ)} {cursor next : Cursor}
    {nodes : List (Node ρ)} (matched : step cursor = some (nodes, next))
    (stuck : ¬ next.left < cursor.left) : rounds step cursor = ([], cursor) := by
  rw [rounds, matched]
  simp only [stuck, if_false]

/-- Matches an expression at a position. -/
def match? : Peg ρ → Cursor → Option (Match ρ)
  | empty, cursor => some ([], cursor)
  | beginning, cursor => if cursor.offset = 0 then some ([], cursor) else none
  | ending, cursor => if cursor.rest.isEmpty then some ([], cursor) else none
  | char accepts, cursor =>
    cursor.next?.bind fun found => if accepts found.1 then some ([], found.2) else none
  | literal text, cursor => (cursor.skip? text).map fun later => ([], later)
  | seq first second, cursor =>
    (match? first cursor).bind fun front =>
      (match? second front.2).map fun back => (front.1 ++ back.1, back.2)
  | choice first second, cursor =>
    match match? first cursor with
    | some found => some found
    | none => match? second cursor
  | star body, cursor => some (rounds (match? body) cursor)
  | absent body, cursor => if (match? body cursor).isSome then none else some ([], cursor)
  | rule name body, cursor =>
    (match? body cursor).map fun found =>
      ([⟨name, cursor.offset, cursor.readUntil found.2, found.1⟩], found.2)

section Match

variable (first second body : Peg ρ) (cursor : Cursor)

theorem match?_empty : match? (empty : Peg ρ) cursor = some ([], cursor) := rfl

theorem match?_beginning : match? (beginning : Peg ρ) cursor =
    if cursor.offset = 0 then some ([], cursor) else none := rfl

theorem match?_ending : match? (ending : Peg ρ) cursor =
    if cursor.rest.isEmpty then some ([], cursor) else none := rfl

theorem match?_char (accepts : Char → Bool) : match? (char accepts : Peg ρ) cursor =
    cursor.next?.bind fun found => if accepts found.1 then some ([], found.2) else none := rfl

theorem match?_literal (text : Text) : match? (literal text : Peg ρ) cursor =
    (cursor.skip? text).map fun later => ([], later) := rfl

theorem match?_seq : match? (seq first second) cursor =
    (match? first cursor).bind fun front =>
      (match? second front.2).map fun back => (front.1 ++ back.1, back.2) := rfl

theorem match?_choice : match? (choice first second) cursor =
    (match? first cursor).or (match? second cursor) := by
  change (match match? first cursor with
    | some found => some found
    | none => match? second cursor) = _
  cases match? first cursor <;> rfl

theorem match?_star : match? (star body) cursor = some (rounds (match? body) cursor) := rfl

theorem match?_absent : match? (absent body) cursor =
    if (match? body cursor).isSome then none else some ([], cursor) := rfl

theorem match?_rule (name : ρ) : match? (rule name body) cursor =
    (match? body cursor).map fun found =>
      ([⟨name, cursor.offset, cursor.readUntil found.2, found.1⟩], found.2) := rfl

end Match

/-- Reads one character, whichever it is. -/
def any : Peg ρ := char fun _ => true

/-- Reads an expression if it matches. -/
def optional (body : Peg ρ) : Peg ρ := choice body empty

/-- Reads an expression once or more often. -/
def plus (body : Peg ρ) : Peg ρ := seq body (star body)

/-- Reads the first expression of a list that matches. -/
def choices : List (Peg ρ) → Peg ρ
  | [] => absent empty
  | [last] => last
  | first :: rest => choice first (choices rest)

/-- Reads the expressions of a list one after the other. -/
def sequence : List (Peg ρ) → Peg ρ
  | [] => empty
  | [last] => last
  | first :: rest => seq first (sequence rest)

/-- Reads the expressions of a list one after the other, with a gap between each two. -/
def spaced (gap : Peg ρ) : List (Peg ρ) → Peg ρ
  | [] => empty
  | [last] => last
  | first :: rest => seq first (seq gap (spaced gap rest))

/-- Reads an expression as often as it matches, with a gap between each two rounds. A gap that no
round follows is not read. -/
def starSpaced (gap body : Peg ρ) : Peg ρ :=
  optional (seq body (star (seq gap body)))

/-- Reads an expression once or more often, with a gap behind the first round and between the
others. -/
def plusSpaced (gap body : Peg ρ) : Peg ρ :=
  spaced gap [body, starSpaced gap body]

end Peg

end PluginScript
