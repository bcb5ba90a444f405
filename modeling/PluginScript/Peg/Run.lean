import PluginScript.Peg

/-! # Runs of parsing expressions

Matching is a function here, and so it comes to an end on every text; its repetitions stop for that
end when a round reads nothing. A matcher that simply does what an expression says has no such test:
it starts the next round as long as the last one matched. `Runs` relates an expression and a position
to what such a matcher answers, in finitely many steps; a repetition whose body matches without
reading anything has no run at all.

Whether runs exist can be seen from the expression: it is enough that all that is repeated reads
something whenever it matches (`progressive`, by way of `consumes`).
-/

namespace PluginScript.Peg

variable {ρ : Type}

/-- Matching an expression at a position comes to an end with an outcome. -/
inductive Runs : Peg ρ → Cursor → Option (Match ρ) → Prop where
  | empty {cursor : Cursor} : Runs empty cursor (some ([], cursor))
  | beginning {cursor : Cursor} (front : cursor.offset = 0) :
      Runs beginning cursor (some ([], cursor))
  | beginningFails {cursor : Cursor} (behind : cursor.offset ≠ 0) : Runs beginning cursor none
  | ending {cursor : Cursor} (ended : cursor.rest = []) : Runs ending cursor (some ([], cursor))
  | endingFails {cursor : Cursor} (going : cursor.rest ≠ []) : Runs ending cursor none
  | char {accepts : Char → Bool} {cursor next : Cursor} {c : Char}
      (read : cursor.next? = some (c, next)) (accepted : accepts c = true) :
      Runs (char accepts) cursor (some ([], next))
  | charFails {accepts : Char → Bool} {cursor : Cursor}
      (refused : ∀ c next, cursor.next? = some (c, next) → accepts c = false) :
      Runs (char accepts) cursor none
  | literal {text : Text} {cursor next : Cursor} (read : cursor.skip? text = some next) :
      Runs (literal text) cursor (some ([], next))
  | literalFails {text : Text} {cursor : Cursor} (missed : cursor.skip? text = none) :
      Runs (literal text) cursor none
  | seq {first second : Peg ρ} {cursor between next : Cursor} {front back : List (Node ρ)}
      (here : Runs first cursor (some (front, between)))
      (there : Runs second between (some (back, next))) :
      Runs (seq first second) cursor (some (front ++ back, next))
  | seqFails {first second : Peg ρ} {cursor : Cursor} (failed : Runs first cursor none) :
      Runs (seq first second) cursor none
  | seqFailsBehind {first second : Peg ρ} {cursor between : Cursor} {front : List (Node ρ)}
      (here : Runs first cursor (some (front, between))) (failed : Runs second between none) :
      Runs (seq first second) cursor none
  | choice {first second : Peg ρ} {cursor : Cursor} {found : Match ρ}
      (here : Runs first cursor (some found)) : Runs (choice first second) cursor (some found)
  | choiceOther {first second : Peg ρ} {cursor : Cursor} {outcome : Option (Match ρ)}
      (failed : Runs first cursor none) (other : Runs second cursor outcome) :
      Runs (choice first second) cursor outcome
  | starStops {body : Peg ρ} {cursor : Cursor} (failed : Runs body cursor none) :
      Runs (star body) cursor (some ([], cursor))
  | starGoesOn {body : Peg ρ} {cursor next last : Cursor} {nodes others : List (Node ρ)}
      (round : Runs body cursor (some (nodes, next)))
      (more : Runs (star body) next (some (others, last))) :
      Runs (star body) cursor (some (nodes ++ others, last))
  | absent {body : Peg ρ} {cursor : Cursor} (failed : Runs body cursor none) :
      Runs (absent body) cursor (some ([], cursor))
  | absentFails {body : Peg ρ} {cursor : Cursor} {found : Match ρ}
      (present : Runs body cursor (some found)) : Runs (absent body) cursor none
  | rule {name : ρ} {body : Peg ρ} {cursor next : Cursor} {inside : List (Node ρ)}
      (read : Runs body cursor (some (inside, next))) :
      Runs (rule name body) cursor
        (some ([⟨name, cursor.offset, cursor.readUntil next, inside⟩], next))
  | ruleFails {name : ρ} {body : Peg ρ} {cursor : Cursor} (failed : Runs body cursor none) :
      Runs (rule name body) cursor none

/-- A number of successful rounds of a repetition, one behind the other. -/
inductive Rounds (body : Peg ρ) : Nat → Cursor → Cursor → Prop where
  | none {cursor : Cursor} : Rounds body 0 cursor cursor
  | more {count : Nat} {start next stop : Cursor} {nodes : List (Node ρ)}
      (round : Runs body start (some (nodes, next))) (others : Rounds body count next stop) :
      Rounds body (count + 1) start stop

/-- An expression and all the expressions inside it. -/
def parts : Peg ρ → List (Peg ρ)
  | empty => [empty]
  | beginning => [beginning]
  | ending => [ending]
  | char accepts => [char accepts]
  | literal text => [literal text]
  | seq first second => seq first second :: (first.parts ++ second.parts)
  | choice first second => choice first second :: (first.parts ++ second.parts)
  | star body => star body :: body.parts
  | absent body => absent body :: body.parts
  | rule name body => rule name body :: body.parts

theorem mem_parts_self (expression : Peg ρ) : expression ∈ expression.parts := by
  cases expression <;> exact List.mem_cons_self

/-- An expression repeats a body somewhere inside it, with gaps between the rounds or without. -/
def Repeats (gap expression body : Peg ρ) : Prop :=
  star body ∈ expression.parts ∨ starSpaced gap body ∈ expression.parts

/-- Whether it can be seen from an expression that it reads something whenever it matches. -/
def consumes : Peg ρ → Bool
  | empty | beginning | ending | star _ | absent _ => false
  | char _ => true
  | literal text => !text.isEmpty
  | seq first second => first.consumes || second.consumes
  | choice first second => first.consumes && second.consumes
  | rule _ body => body.consumes

/-- Whether all that an expression repeats reads something in each round. -/
def progressive : Peg ρ → Bool
  | empty | beginning | ending | char _ | literal _ => true
  | seq first second | choice first second => first.progressive && second.progressive
  | star body => body.consumes && body.progressive
  | absent body | rule _ body => body.progressive

end PluginScript.Peg
