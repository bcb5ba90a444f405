import PluginScript.Peg.Run
import Mathlib.Tactic.Common

/-! # What an expression leaves of a text

Matching moves a cursor, but what it does depends only on the text behind the cursor. So the lemmas
here speak of the text that a match leaves: a given text is taken off the front, a repeated class of
characters is dropped, and what any match leaves is an end of the text it started with.
-/

namespace PluginScript.Peg

variable {ρ : Type}

namespace Cursor

private theorem rest_of_next? {cursor later : Cursor} {c : Char}
    (read : cursor.next? = some (c, later)) : cursor.rest = c :: later.rest := by
  rw [eq_before cursor] at read ⊢
  cases text : cursor.rest with
  | nil =>
    rw [text, next?_nil] at read
    cases read
  | cons d rest =>
    rw [text, next?_cons] at read
    cases read
    rfl

private theorem next?_of_rest {cursor : Cursor} {c : Char} {rest : Text}
    (begins : cursor.rest = c :: rest) :
    ∃ later, cursor.next? = some (c, later) ∧ later.rest = rest := by
  rw [eq_before cursor, begins]
  exact ⟨_, next?_cons _ _ _, rfl⟩

private theorem next?_of_rest_nil {cursor : Cursor} (ended : cursor.rest = []) :
    cursor.next? = none := by
  rw [eq_before cursor, ended, next?_nil]

private theorem rest_of_skip? {cursor later : Cursor} {text : Text}
    (read : cursor.skip? text = some later) : cursor.rest = text ++ later.rest := by
  rw [skip?] at read
  split at read
  · cases read
  · rename_i rest found
    cases read
    exact Text.eq_append_of_isPrefixOf? found

private theorem skip?_of_rest {cursor : Cursor} {text rest : Text}
    (begins : cursor.rest = text ++ rest) :
    ∃ later, cursor.skip? text = some later ∧ later.rest = rest := by
  rw [eq_before cursor, begins]
  exact ⟨_, skip?_append _ _ _, rfl⟩

theorem readUntil_of_rest {cursor later : Cursor} {read : Text}
    (split : cursor.rest = read ++ later.rest) : cursor.readUntil later = read := by
  have cut : cursor.rest.splitAtByte? (cursor.left - later.left) = some (read, later.rest) := by
    rw [Text.splitAtByte?_eq_some_iff, cursor.left_eq, later.left_eq, split, Text.byteLength_append,
      Nat.add_sub_cancel]
    exact ⟨rfl, rfl⟩
  rw [readUntil, cut]

theorem readUntil_of_dropWhile {cursor later : Cursor} {accepts : Char → Bool}
    (left : later.rest = cursor.rest.dropWhile accepts) :
    cursor.readUntil later = cursor.rest.takeWhile accepts :=
  readUntil_of_rest (by rw [left, List.takeWhile_append_dropWhile])

/-- A cursor further on in the same text has less left. -/
theorem left_lt_of_suffix {cursor later : Cursor} (suffix : later.rest <:+ cursor.rest)
    (moved : later.rest ≠ cursor.rest) : later.left < cursor.left := by
  obtain ⟨read, split⟩ := suffix
  have some : read ≠ [] := by
    rintro rfl
    exact moved split
  have positive := Text.byteLength_pos some
  rw [cursor.left_eq, later.left_eq, ← split, Text.byteLength_append]
  omega

end Cursor

section Matches

variable {first second body : Peg ρ} {cursor next : Cursor} {nodes : List (Node ρ)}

theorem match?_literal_eq_some {text : Text}
    (found : match? (.literal text : Peg ρ) cursor = some (nodes, next)) :
    nodes = [] ∧ cursor.rest = text ++ next.rest := by
  rw [match?_literal, Option.map_eq_some_iff] at found
  obtain ⟨later, read, same⟩ := found
  cases same
  exact ⟨rfl, Cursor.rest_of_skip? read⟩

variable (ρ) in
theorem match?_literal_of_rest (text : Text) {rest : Text} (begins : cursor.rest = text ++ rest) :
    ∃ next, match? (.literal text : Peg ρ) cursor = some ([], next) ∧ next.rest = rest := by
  obtain ⟨next, read, left⟩ := Cursor.skip?_of_rest begins
  exact ⟨next, by rw [match?_literal, read]; rfl, left⟩

theorem match?_literal_eq_none {text : Text} (other : ¬ text <+: cursor.rest) :
    match? (.literal text : Peg ρ) cursor = none := by
  cases found : match? (.literal text : Peg ρ) cursor with
  | none => rfl
  | some result =>
    obtain ⟨nodes', next'⟩ := result
    exact absurd ⟨next'.rest, (match?_literal_eq_some found).2.symm⟩ other

theorem match?_seq_eq_some (found : match? (.seq first second) cursor = some (nodes, next)) :
    ∃ front between back, match? first cursor = some (front, between) ∧
      match? second between = some (back, next) ∧ nodes = front ++ back := by
  rw [match?_seq, Option.bind_eq_some_iff] at found
  obtain ⟨⟨front, between⟩, here, found⟩ := found
  obtain ⟨⟨back, last⟩, there, same⟩ := Option.map_eq_some_iff.mp found
  cases same
  exact ⟨front, between, back, here, there, rfl⟩

theorem match?_seq_of_some {between : Cursor} {front back : List (Node ρ)}
    (here : match? first cursor = some (front, between))
    (there : match? second between = some (back, next)) :
    match? (.seq first second) cursor = some (front ++ back, next) := by
  rw [match?_seq, here, Option.bind_some, there]
  rfl

theorem match?_seq_eq_none (failed : match? first cursor = none) :
    match? (.seq first second) cursor = none := by
  rw [match?_seq, failed]
  rfl

theorem match?_seq_eq_none_of_second {between : Cursor} {front : List (Node ρ)}
    (here : match? first cursor = some (front, between)) (failed : match? second between = none) :
    match? (.seq first second) cursor = none := by
  rw [match?_seq, here, Option.bind_some, failed]
  rfl

theorem match?_choice_of_none (failed : match? first cursor = none) :
    match? (.choice first second) cursor = match? second cursor := by
  rw [match?_choice, failed, Option.none_or]

theorem match?_choice_of_some (found : match? first cursor = some (nodes, next)) :
    match? (.choice first second) cursor = some (nodes, next) := by
  rw [match?_choice, found, Option.some_or]

theorem match?_choice_eq_some (found : match? (.choice first second) cursor = some (nodes, next)) :
    match? first cursor = some (nodes, next) ∨
      match? first cursor = none ∧ match? second cursor = some (nodes, next) := by
  cases tried : match? first cursor with
  | none => exact .inr ⟨rfl, (match?_choice_of_none tried).symm.trans found⟩
  | some result =>
    obtain ⟨nodes', next'⟩ := result
    exact .inl ((match?_choice_of_some tried).symm.trans found)

theorem isSome_match?_choice :
    (match? (.choice first second) cursor).isSome =
      ((match? first cursor).isSome || (match? second cursor).isSome) := by
  rw [match?_choice, Option.isSome_or]

theorem isSome_match?_literal_singleton {c d : Char} {rest : Text}
    (begins : cursor.rest = d :: rest) :
    (match? (.literal [c] : Peg ρ) cursor).isSome = (d == c) := by
  rw [Bool.eq_iff_iff, Option.isSome_iff_exists, beq_iff_eq]
  constructor
  · rintro ⟨⟨nodes, next⟩, found⟩
    have split := (match?_literal_eq_some found).2
    rw [begins] at split
    exact (List.cons.inj split).1
  · rintro rfl
    obtain ⟨next, found, -⟩ := match?_literal_of_rest ρ [d] begins
    exact ⟨_, found⟩

theorem match?_rule_eq_some {name : ρ}
    (found : match? (.rule name body) cursor = some (nodes, next)) :
    ∃ inside, match? body cursor = some (inside, next) ∧
      nodes = [⟨name, cursor.offset, cursor.readUntil next, inside⟩] := by
  rw [match?_rule, Option.map_eq_some_iff] at found
  obtain ⟨⟨inside, last⟩, found, same⟩ := found
  cases same
  exact ⟨inside, found, rfl⟩

theorem match?_rule_of_some {name : ρ} {inside : List (Node ρ)}
    (found : match? body cursor = some (inside, next)) :
    match? (.rule name body) cursor =
      some ([⟨name, cursor.offset, cursor.readUntil next, inside⟩], next) := by
  rw [match?_rule, found]
  rfl

end Matches

/-! ## How far a match reads -/

/-- Reading a text moves one cursor to another. -/
structure Cursor.Moves (start : Cursor) (read : Text) (stop : Cursor) : Prop where
  rest : start.rest = read ++ stop.rest
  offset : stop.offset = start.offset + read.byteLength

namespace Cursor.Moves

variable {start between stop : Cursor} {first second read : Text}

theorem refl (cursor : Cursor) : cursor.Moves [] cursor :=
  ⟨rfl, rfl⟩

theorem trans (here : start.Moves first between) (there : between.Moves second stop) :
    start.Moves (first ++ second) stop where
  rest := by rw [here.rest, there.rest, List.append_assoc]
  offset := by rw [there.offset, here.offset, Text.byteLength_append, Nat.add_assoc]

theorem left (moves : start.Moves read stop) : start.left = read.byteLength + stop.left := by
  rw [start.left_eq, stop.left_eq, moves.rest, Text.byteLength_append]

end Cursor.Moves

private theorem Cursor.moves_of_next? {cursor later : Cursor} {c : Char}
    (read : cursor.next? = some (c, later)) : cursor.Moves [c] later := by
  have rest := rest_of_next? read
  rw [eq_before cursor, rest, next?_cons, Option.some.injEq, Prod.mk.injEq] at read
  exact ⟨rest, (congrArg offset read.2).symm.trans (by simp [before])⟩

private theorem Cursor.moves_of_skip? {cursor later : Cursor} {text : Text}
    (read : cursor.skip? text = some later) : cursor.Moves text later := by
  have rest := rest_of_skip? read
  rw [eq_before cursor, rest, skip?_append, Option.some.injEq] at read
  exact ⟨rest, (congrArg offset read).symm⟩

/-- Rounds of a step move a cursor, if one step does. -/
private theorem exists_moves_rounds {step : Cursor → Option (Match ρ)}
    (moves : ∀ {cursor next nodes}, step cursor = some (nodes, next) →
      ∃ read, cursor.Moves read next) (cursor : Cursor) :
    ∃ read, cursor.Moves read (rounds step cursor).2 := by
  induction cursor using rounds.induct step with
  | case1 cursor failed =>
    rw [rounds_of_none failed]
    exact ⟨[], .refl cursor⟩
  | case2 cursor nodes next matched progress ih =>
    rw [rounds_of_some matched progress]
    obtain ⟨first, here⟩ := moves matched
    obtain ⟨others, there⟩ := ih
    exact ⟨first ++ others, here.trans there⟩
  | case3 cursor nodes next matched stuck =>
    rw [rounds_of_stuck matched stuck]
    exact ⟨[], .refl cursor⟩

/-- A match of an expression reads a part of the text, and something at least if the expression
consumes. -/
def Advances (expression : Peg ρ) : Prop :=
  ∀ {cursor next : Cursor} {nodes : List (Node ρ)},
    match? expression cursor = some (nodes, next) →
      ∃ read, cursor.Moves read next ∧ (expression.consumes = true → read ≠ [])

section Advances

variable {first second body : Peg ρ}

/-- An expression advances that stays where it is. -/
private theorem advances_of_stays {expression : Peg ρ} (idle : expression.consumes = false)
    (stays : ∀ {cursor next : Cursor} {nodes : List (Node ρ)},
      match? expression cursor = some (nodes, next) → next = cursor) : expression.Advances := by
  intro cursor next nodes found
  rw [stays found, idle]
  exact ⟨[], .refl cursor, nofun⟩

private theorem advances_empty : Advances (empty : Peg ρ) :=
  advances_of_stays rfl fun found => by
    rw [match?_empty] at found
    cases found
    rfl

private theorem advances_beginning : Advances (beginning : Peg ρ) :=
  advances_of_stays rfl fun found => by
    rw [match?_beginning] at found
    split_ifs at found
    cases found
    rfl

private theorem advances_ending : Advances (ending : Peg ρ) :=
  advances_of_stays rfl fun found => by
    rw [match?_ending] at found
    split_ifs at found
    cases found
    rfl

private theorem advances_absent : Advances (absent body) :=
  advances_of_stays rfl fun found => by
    rw [match?_absent] at found
    split_ifs at found
    cases found
    rfl

private theorem advances_char (accepts : Char → Bool) : Advances (char accepts : Peg ρ) := by
  intro cursor next nodes found
  rw [match?_char, Option.bind_eq_some_iff] at found
  obtain ⟨⟨c, later⟩, read, found⟩ := found
  split_ifs at found
  cases found
  exact ⟨[c], Cursor.moves_of_next? read, fun _ => List.cons_ne_nil c []⟩

private theorem advances_literal (text : Text) : Advances (literal text : Peg ρ) := by
  intro cursor next nodes found
  rw [match?_literal, Option.map_eq_some_iff] at found
  obtain ⟨later, read, same⟩ := found
  cases same
  exact ⟨text, Cursor.moves_of_skip? read, by simp [consumes]⟩

private theorem Advances.seq (here : first.Advances) (there : second.Advances) :
    Advances (seq first second) := by
  intro cursor next nodes found
  obtain ⟨front, between, back, found, found', -⟩ := match?_seq_eq_some found
  obtain ⟨read, moves, some⟩ := here found
  obtain ⟨others, moves', some'⟩ := there found'
  refine ⟨read ++ others, moves.trans moves', fun strict => ?_⟩
  rw [Ne, List.append_eq_nil_iff, not_and_or]
  exact (Bool.or_eq_true_iff.mp strict).imp some some'

private theorem Advances.choice (here : first.Advances) (there : second.Advances) :
    Advances (choice first second) := by
  intro cursor next nodes found
  rcases match?_choice_eq_some found with found | ⟨-, found⟩
  · obtain ⟨read, moves, some⟩ := here found
    exact ⟨read, moves, fun strict => some (Bool.and_eq_true_iff.mp strict).1⟩
  · obtain ⟨read, moves, some⟩ := there found
    exact ⟨read, moves, fun strict => some (Bool.and_eq_true_iff.mp strict).2⟩

private theorem Advances.star (inside : body.Advances) : Advances (star body) := by
  intro cursor next nodes found
  rw [match?_star, Option.some.injEq] at found
  obtain ⟨read, moves⟩ := exists_moves_rounds
    (fun round => (inside round).imp fun _ moved => moved.1) cursor
  rw [found] at moves
  exact ⟨read, moves, nofun⟩

private theorem Advances.rule (inside : body.Advances) (name : ρ) : Advances (rule name body) := by
  intro cursor next nodes found
  obtain ⟨inner, found, -⟩ := match?_rule_eq_some found
  exact inside found

theorem advances (expression : Peg ρ) : expression.Advances := by
  induction expression with
  | empty => exact advances_empty
  | beginning => exact advances_beginning
  | ending => exact advances_ending
  | char accepts => exact advances_char accepts
  | literal text => exact advances_literal text
  | seq first second here there => exact here.seq there
  | choice first second here there => exact here.choice there
  | star body inside => exact inside.star
  | absent body => exact advances_absent
  | rule name body inside => exact inside.rule name

end Advances

/-- What a match leaves is an end of the text. -/
theorem match?_suffix {expression : Peg ρ} {cursor next : Cursor} {nodes : List (Node ρ)}
    (found : match? expression cursor = some (nodes, next)) : next.rest <:+ cursor.rest := by
  obtain ⟨read, moves, -⟩ := advances _ found
  exact ⟨read, moves.rest.symm⟩

/-- A match of an expression that consumes leaves less than there was. -/
theorem left_lt_of_consumes {expression : Peg ρ} {cursor next : Cursor} {nodes : List (Node ρ)}
    (consumes : expression.consumes = true)
    (found : match? expression cursor = some (nodes, next)) : next.left < cursor.left := by
  obtain ⟨read, moves, some⟩ := advances _ found
  have positive := Text.byteLength_pos (some consumes)
  rw [moves.left]
  omega

section Classes

variable {accepts : Char → Bool}

variable (ρ) in
theorem match?_char_of_rest {cursor : Cursor} {c : Char} {rest : Text}
    (begins : cursor.rest = c :: rest) (accepted : accepts c = true) :
    ∃ next, match? (.char accepts : Peg ρ) cursor = some ([], next) ∧ next.rest = rest := by
  obtain ⟨next, read, left⟩ := Cursor.next?_of_rest begins
  refine ⟨next, ?_, left⟩
  rw [match?_char, read, Option.bind_some, if_pos accepted]

theorem match?_char_eq_none {cursor : Cursor}
    (refused : ∀ c ∈ cursor.rest.head?, accepts c = false) :
    match? (.char accepts : Peg ρ) cursor = none := by
  rw [match?_char]
  cases text : cursor.rest with
  | nil => rw [Cursor.next?_of_rest_nil text]; rfl
  | cons c rest =>
    obtain ⟨next, read, -⟩ := Cursor.next?_of_rest text
    have : accepts c = false := refused c (by rw [text]; rfl)
    rw [read, Option.bind_some, if_neg (by rw [this]; decide)]

variable (ρ) in
/-- Repeating a class of characters drops all of them at the front. -/
private theorem rounds_char (accepts : Char → Bool) (cursor : Cursor) :
    ∃ next, rounds (match? (.char accepts : Peg ρ)) cursor = ([], next) ∧
      next.rest = cursor.rest.dropWhile accepts := by
  obtain ⟨text, same⟩ : ∃ text, cursor.rest = text := ⟨_, rfl⟩
  induction text generalizing cursor with
  | nil =>
    refine ⟨cursor, rounds_of_none ?_, by rw [same]; rfl⟩
    exact match?_char_eq_none (by rw [same]; simp)
  | cons c text ih =>
    rw [same]
    by_cases accepted : accepts c = true
    · obtain ⟨between, found, left⟩ := match?_char_of_rest ρ same accepted
      obtain ⟨next, others, rest⟩ := ih between left
      have progress : between.left < cursor.left := by
        apply Cursor.left_lt_of_suffix (match?_suffix found)
        rw [left, same]
        exact (List.cons_ne_self c text).symm
      refine ⟨next, ?_, by rw [List.dropWhile_cons_of_pos accepted, rest, left]⟩
      rw [rounds_of_some found progress, others]
      rfl
    · refine ⟨cursor, rounds_of_none ?_, by rw [List.dropWhile_cons_of_neg accepted, same]⟩
      exact match?_char_eq_none (by rw [same]; simpa using accepted)

/-- Repeating an expression that reads one character of a class. -/
theorem match?_star_of_reads_class {body : Peg ρ}
    (reads : ∀ cursor, match? body cursor = match? (.char accepts) cursor) (cursor : Cursor) :
    ∃ next, match? (.star body) cursor = some ([], next) ∧
      next.rest = cursor.rest.dropWhile accepts := by
  obtain ⟨next, dropped, rest⟩ := rounds_char ρ accepts cursor
  exact ⟨next, by rw [match?_star, funext reads, dropped], rest⟩

/-- Any character, where an expression does not match, is a character of a class, if the class tells
where it matches. -/
theorem match?_unless {body : Peg ρ}
    (tells : ∀ cursor c rest, cursor.rest = c :: rest →
      (match? body cursor).isSome = !accepts c) (cursor : Cursor) :
    match? (.seq (.absent body) any) cursor = match? (.char accepts) cursor := by
  cases text : cursor.rest with
  | nil =>
    have ended := Cursor.next?_of_rest_nil text
    rw [match?_char_eq_none (by rw [text]; simp), match?_seq, match?_absent]
    split
    · rfl
    · rw [Option.bind_some, any, match?_char, ended]
      rfl
  | cons c rest =>
    obtain ⟨next, read, -⟩ := Cursor.next?_of_rest text
    have told := tells cursor c rest text
    cases accepted : accepts c with
    | true =>
      rw [accepted, Bool.not_true, Option.isSome_eq_false_iff, Option.isNone_iff_eq_none] at told
      simp only [match?_seq, match?_absent, match?_char, any, told, read, accepted,
        Option.isSome_none, Bool.false_eq_true, if_false, if_true, Option.bind_some,
        Option.map_some, List.append_nil]
    | false =>
      rw [accepted, Bool.not_false] at told
      simp only [match?_seq, match?_absent, match?_char, told, read, accepted, if_true,
        Option.bind_none, Option.bind_some, Bool.false_eq_true, if_false]

end Classes

end PluginScript.Peg
