import PluginScript.Proofs.Boundaries
import PluginScript.Proofs.PegMatching
import Mathlib.Data.List.Basic

/-! # Matching comes to an end

A progressive expression has a run from every position, and the run comes to what the matching
function says (`runs_iff_match?`): the test by which the function ends a repetition is never what
ends it. A round of a repetition leaves fewer bytes than there were, so there are at most as many
rounds as bytes (`count_add_left_le_of_rounds`), and that is the measure by which a run of a
repetition is put together from its rounds.
-/

namespace PluginScript.Peg

variable {ρ : Type} {expression first second body : Peg ρ} {cursor next : Cursor}

/-! ## Progressive expressions -/

/-- What is inside a progressive expression is progressive. -/
theorem progressive_of_mem_parts (progressive : expression.progressive = true) :
    ∀ part ∈ expression.parts, part.progressive = true := by
  induction expression with
  | empty | beginning | ending | char accepts | literal text =>
    rw [parts, List.forall_mem_singleton]
    exact progressive
  | seq first second first_ih second_ih | choice first second first_ih second_ih =>
    rw [parts, List.forall_mem_cons, List.forall_mem_append]
    obtain ⟨here, there⟩ := Bool.and_eq_true_iff.mp progressive
    exact ⟨progressive, first_ih here, second_ih there⟩
  | star body ih =>
    rw [parts, List.forall_mem_cons]
    exact ⟨progressive, ih (Bool.and_eq_true_iff.mp progressive).2⟩
  | absent body ih | rule name body ih =>
    rw [parts, List.forall_mem_cons]
    exact ⟨progressive, ih progressive⟩

/-- What a progressive expression repeats reads something in each round. -/
theorem consumes_of_repeats {gap : Peg ρ} (idle : gap.consumes = false)
    (progressive : expression.progressive = true) (repeats : Repeats gap expression body) :
    body.consumes = true ∧ body.progressive = true := by
  rcases repeats with member | member
  · exact Bool.and_eq_true_iff.mp (progressive_of_mem_parts progressive _ member)
  · have inside := progressive_of_mem_parts progressive _ member
    obtain ⟨rounds, -⟩ := Bool.and_eq_true_iff.mp inside
    obtain ⟨steady, others⟩ := Bool.and_eq_true_iff.mp rounds
    obtain ⟨reads, -⟩ := Bool.and_eq_true_iff.mp others
    rw [consumes, idle, Bool.false_or] at reads
    exact ⟨reads, steady⟩

/-! ## Runs and the matching function -/

/-- A match stops at a boundary of the text, and not in front of where it began. -/
theorem isBoundary_of_match? {before after : Text} {nodes : List (Node ρ)}
    (found : match? expression (.before before.byteLength after) = some (nodes, next)) :
    Text.isBoundary (before ++ after) next.offset = true ∧ before.byteLength ≤ next.offset := by
  obtain ⟨read, moves, -⟩ := advances _ found
  have offset : next.offset = before.byteLength + read.byteLength := moves.offset
  have rest : after = read ++ next.rest := moves.rest
  refine ⟨Text.isBoundary_iff.mpr ⟨before ++ read, next.rest, ?_, ?_⟩, by omega⟩
  · rw [rest, List.append_assoc]
  · rw [Text.byteLength_append, offset]

section Operators

private theorem runs_beginning (cursor : Cursor) :
    Runs (beginning : Peg ρ) cursor (match? beginning cursor) := by
  rw [match?_beginning]
  split_ifs with front
  · exact .beginning front
  · exact .beginningFails front

private theorem runs_ending (cursor : Cursor) :
    Runs (ending : Peg ρ) cursor (match? ending cursor) := by
  rw [match?_ending]
  split_ifs with ended
  · exact .ending (List.isEmpty_iff.mp ended)
  · exact .endingFails fun none => ended (List.isEmpty_iff.mpr none)

private theorem runs_char (accepts : Char → Bool) (cursor : Cursor) :
    Runs (char accepts : Peg ρ) cursor (match? (char accepts) cursor) := by
  rw [match?_char]
  cases read : cursor.next? with
  | none =>
    exact .charFails fun c next there => by cases read.symm.trans there
  | some found =>
    obtain ⟨c, next⟩ := found
    rw [Option.bind_some]
    split_ifs with accepted
    · exact .char read accepted
    · refine .charFails fun d other there => ?_
      cases read.symm.trans there
      exact Bool.eq_false_iff.mpr accepted

private theorem runs_literal (text : Text) (cursor : Cursor) :
    Runs (literal text : Peg ρ) cursor (match? (literal text) cursor) := by
  rw [match?_literal]
  cases read : cursor.skip? text with
  | none => exact .literalFails read
  | some next => exact .literal read

private theorem runs_seq (here : ∀ cursor, Runs first cursor (match? first cursor))
    (there : ∀ cursor, Runs second cursor (match? second cursor)) (cursor : Cursor) :
    Runs (seq first second) cursor (match? (seq first second) cursor) := by
  have front := here cursor
  cases found : match? first cursor with
  | none =>
    rw [match?_seq_eq_none found]
    exact .seqFails (found ▸ front)
  | some result =>
    obtain ⟨nodes, between⟩ := result
    have back := there between
    cases found' : match? second between with
    | none =>
      rw [match?_seq_eq_none_of_second found found']
      exact .seqFailsBehind (found ▸ front) (found' ▸ back)
    | some result' =>
      rw [match?_seq_of_some found found']
      exact .seq (found ▸ front) (found' ▸ back)

private theorem runs_choice (here : ∀ cursor, Runs first cursor (match? first cursor))
    (there : ∀ cursor, Runs second cursor (match? second cursor)) (cursor : Cursor) :
    Runs (choice first second) cursor (match? (choice first second) cursor) := by
  have front := here cursor
  cases found : match? first cursor with
  | none =>
    rw [match?_choice_of_none found]
    exact .choiceOther (found ▸ front) (there cursor)
  | some result =>
    rw [match?_choice_of_some found]
    exact .choice (found ▸ front)

variable (inside : ∀ cursor, Runs body cursor (match? body cursor)) (cursor : Cursor)

include inside

/-- The run of a repetition has as many rounds as the function takes: where the body consumes, the
function never stops for want of progress. -/
private theorem runs_star (consumes : body.consumes = true) :
    Runs (star body) cursor (match? (star body) cursor) := by
  rw [match?_star]
  induction cursor using rounds.induct (match? body) with
  | case1 cursor failed =>
    rw [rounds_of_none failed]
    exact .starStops (failed ▸ inside cursor)
  | case2 cursor nodes next matched progress ih =>
    rw [rounds_of_some matched progress]
    exact .starGoesOn (matched ▸ inside cursor) ih
  | case3 cursor nodes next matched stuck =>
    exact absurd (left_lt_of_consumes consumes matched) stuck

private theorem runs_absent : Runs (absent body) cursor (match? (absent body) cursor) := by
  have tried := inside cursor
  rw [match?_absent]
  cases found : match? body cursor with
  | none => exact .absent (found ▸ tried)
  | some result => exact .absentFails (found ▸ tried)

private theorem runs_rule (name : ρ) :
    Runs (rule name body) cursor (match? (rule name body) cursor) := by
  have tried := inside cursor
  rw [match?_rule]
  cases found : match? body cursor with
  | none => exact .ruleFails (found ▸ tried)
  | some result => exact .rule (found ▸ tried)

end Operators

/-- A progressive expression has a run from every position. -/
theorem runs_match? (progressive : expression.progressive = true) (cursor : Cursor) :
    Runs expression cursor (match? expression cursor) := by
  induction expression generalizing cursor with
  | empty => exact .empty
  | beginning => exact runs_beginning cursor
  | ending => exact runs_ending cursor
  | char accepts => exact runs_char accepts cursor
  | literal text => exact runs_literal text cursor
  | seq first second first_ih second_ih =>
    obtain ⟨here, there⟩ := Bool.and_eq_true_iff.mp progressive
    exact runs_seq (first_ih here) (second_ih there) cursor
  | choice first second first_ih second_ih =>
    obtain ⟨here, there⟩ := Bool.and_eq_true_iff.mp progressive
    exact runs_choice (first_ih here) (second_ih there) cursor
  | star body ih =>
    obtain ⟨consumes, inside⟩ := Bool.and_eq_true_iff.mp progressive
    exact runs_star (ih inside) cursor consumes
  | absent body ih => exact runs_absent (ih progressive) cursor
  | rule name body ih => exact runs_rule (ih progressive) cursor name

/-- A run of a progressive expression comes to what the matching function says. -/
theorem match?_of_runs {outcome : Option (Match ρ)} (run : Runs expression cursor outcome)
    (progressive : expression.progressive = true) : match? expression cursor = outcome := by
  induction run with
  | empty => rfl
  | beginning front => rw [match?_beginning, if_pos front]
  | beginningFails behind => rw [match?_beginning, if_neg behind]
  | ending ended => rw [match?_ending, ended]; rfl
  | endingFails going => rw [match?_ending, if_neg (by simpa using going)]
  | char read accepted => rw [match?_char, read, Option.bind_some, if_pos accepted]
  | @charFails accepts cursor refused =>
    rw [match?_char]
    cases read : cursor.next? with
    | none => rfl
    | some found => rw [Option.bind_some, if_neg (by rw [refused _ _ read]; decide)]
  | literal read => rw [match?_literal, read]; rfl
  | literalFails missed => rw [match?_literal, missed]; rfl
  | seq _ _ here_ih there_ih =>
    obtain ⟨here, there⟩ := Bool.and_eq_true_iff.mp progressive
    exact match?_seq_of_some (here_ih here) (there_ih there)
  | seqFails _ ih => exact match?_seq_eq_none (ih (Bool.and_eq_true_iff.mp progressive).1)
  | seqFailsBehind _ _ here_ih failed_ih =>
    obtain ⟨here, there⟩ := Bool.and_eq_true_iff.mp progressive
    exact match?_seq_eq_none_of_second (here_ih here) (failed_ih there)
  | choice _ ih => exact match?_choice_of_some (ih (Bool.and_eq_true_iff.mp progressive).1)
  | choiceOther _ _ failed_ih other_ih =>
    obtain ⟨here, there⟩ := Bool.and_eq_true_iff.mp progressive
    exact (match?_choice_of_none (failed_ih here)).trans (other_ih there)
  | starStops _ ih =>
    have failed := ih (Bool.and_eq_true_iff.mp progressive).2
    rw [match?_star, rounds_of_none failed]
  | starGoesOn _ _ round_ih more_ih =>
    obtain ⟨consumes, inside⟩ := Bool.and_eq_true_iff.mp progressive
    have matched := round_ih inside
    have others := more_ih progressive
    rw [match?_star, Option.some.injEq] at others
    rw [match?_star, rounds_of_some matched (left_lt_of_consumes consumes matched), others]
  | absent _ ih => rw [match?_absent, ih progressive]; rfl
  | absentFails _ ih => rw [match?_absent, ih progressive]; rfl
  | rule _ ih => exact match?_rule_of_some (ih progressive)
  | ruleFails _ ih => rw [match?_rule, ih progressive]; rfl

theorem runs_iff_match? (progressive : expression.progressive = true)
    {outcome : Option (Match ρ)} :
    Runs expression cursor outcome ↔ match? expression cursor = outcome := by
  constructor
  · exact fun run => match?_of_runs run progressive
  · rintro rfl
    exact runs_match? progressive cursor

/-! ## Rounds -/

/-- Each round of a repetition takes at least one byte. -/
theorem count_add_left_le_of_rounds (consumes : body.consumes = true)
    (progressive : body.progressive = true) {count : Nat} {start stop : Cursor}
    (rounds : Rounds body count start stop) : count + stop.left ≤ start.left := by
  induction rounds with
  | none => omega
  | more round others ih =>
    have shorter := left_lt_of_consumes consumes (match?_of_runs round progressive)
    omega

end PluginScript.Peg
