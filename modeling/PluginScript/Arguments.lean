import PluginScript.Text

/-! # Argument lists

An argument list ends at the parenthesis that brings the depth back to zero after the list was
opened. Parentheses count wherever they stand, so one inside a string literal or a comment counts
too, and one that closes before anything was opened lowers the depth below zero. A list that never
comes back to zero is unclosed.

The scan is the same over characters (`split?`, which cuts a text) and over bytes (`span`, which
answers in byte offsets and starts at any offset, also inside a character or behind the end).
-/

namespace PluginScript.Arguments

/-- What a symbol is to the nesting of parentheses. -/
inductive Bracket where
  | opening
  | closing
  | other
deriving DecidableEq, Repr

namespace Bracket

/-- How far a bracket moves the depth. -/
def weight : Bracket → Int
  | opening => 1
  | closing => -1
  | other => 0

/-- The bracket that a character is. -/
def ofChar (c : Char) : Bracket :=
  if c = '(' then opening else if c = ')' then closing else other

/-- The bracket that a byte is. -/
def ofByte (byte : UInt8) : Bracket :=
  if byte = 0x28 then opening else if byte = 0x29 then closing else other

end Bracket

variable {α : Type}

/-- Cuts a sequence after the first symbol at which the depth is zero and something has been
opened, from a given depth on. There is no cut in an unclosed sequence. -/
def splitFrom? (bracket : α → Bracket) (depth : Int) (opened : Bool) :
    List α → Option (List α × List α)
  | [] => none
  | symbol :: rest =>
    let reached := depth + (bracket symbol).weight
    let nowOpened := opened || bracket symbol == .opening
    if nowOpened && reached == 0 then some ([symbol], rest)
    else
      (splitFrom? bracket reached nowOpened rest).map fun parts => (symbol :: parts.1, parts.2)

/-- A cut loses nothing. -/
theorem append_of_splitFrom? {bracket : α → Bracket} {depth : Int} {opened : Bool}
    {symbols list rest : List α}
    (cut : splitFrom? bracket depth opened symbols = some (list, rest)) :
    symbols = list ++ rest := by
  induction symbols generalizing depth opened list with
  | nil => simp [splitFrom?] at cut
  | cons symbol symbols ih =>
    simp only [splitFrom?] at cut
    split at cut
    · simp only [Option.some.injEq, Prod.mk.injEq] at cut
      obtain ⟨rfl, rfl⟩ := cut
      rfl
    · simp only [Option.map_eq_some_iff, Prod.exists, Prod.mk.injEq] at cut
      obtain ⟨front, back, tail, rfl, rfl⟩ := cut
      rw [ih tail, List.cons_append]

/-- The argument list at the front of a text, with its parentheses, and what follows it. -/
def split? (text : Text) : Option (Text × Text) :=
  splitFrom? Bracket.ofChar 0 false text

theorem append_of_split? {text list rest : Text} (cut : split? text = some (list, rest)) :
    text = list ++ rest :=
  append_of_splitFrom? cut

/-- Where an argument list lies in a script, in bytes. -/
structure Span where
  start : Nat
  /-- One past the closing parenthesis, or the end of the script for an unclosed list. -/
  stop : Nat
  closed : Bool
deriving DecidableEq, Repr

/-- The extent of the argument list that a scan from a byte offset finds. -/
def span (script : Text) (start : Nat) : Span :=
  match splitFrom? Bracket.ofByte 0 false (script.encode.drop start) with
  | some (list, _) => ⟨start, start + list.length, true⟩
  | none => ⟨start, script.byteLength, false⟩

/-- The text of the argument list that a scan from a byte offset finds, if the offset is a
position in the script. An unclosed list runs to the end of the script. -/
def text? (script : Text) (start : Nat) : Option Text :=
  let found := span script start
  script.slice? found.start found.stop

end PluginScript.Arguments
