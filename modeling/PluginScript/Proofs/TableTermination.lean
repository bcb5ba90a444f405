import PluginScript.Proofs.PegRuns
import PluginScript.Table.Grammar

/-! # Reading a table comes to an end

The grammar of tables repeats in many places, one repetition inside another, and blanks and comments
may stand between any two rounds. All these repetitions read something in each round, and this can
be seen from the expressions alone (`Grammar.progressive_of_within`). So every expression of the
grammar has a run from every position, also on a text that is no table, and it stops between the
position it began at and the end of the text (`Grammar.runs_of_within`).
-/

namespace PluginScript.Table.Grammar

open Peg

/-- An expression of the grammar: part of a rule, or of what may stand between the parts of a
line. -/
def Within (expression : Peg Rule) : Prop :=
  expression ∈ gap.parts ∨ ∃ rule, expression ∈ (Grammar.expression rule).parts

private theorem consumes_gap : gap.consumes = false := rfl

/-- All that the grammar repeats reads something in each round. -/
theorem progressive_of_within {expression : Peg Rule} (within : Within expression) :
    expression.progressive = true := by
  rcases within with member | ⟨rule, member⟩
  · exact progressive_of_mem_parts rfl _ member
  · have progressive : (Grammar.expression rule).progressive = true := by cases rule <;> rfl
    exact progressive_of_mem_parts progressive _ member

/-- Each expression of the grammar has one run from each position of a text. If it matches, it
stops at a boundary between the position and the end of the text. Whatever it repeats reads at
least one byte in each round, and so there are no more rounds than bytes. -/
theorem runs_of_within {expression : Peg Rule} (within : Within expression) (before after : Text) :
    (∃! outcome, Runs expression (.before before.byteLength after) outcome) ∧
    Runs expression (.before before.byteLength after)
      (match? expression (.before before.byteLength after)) ∧
    (∀ nodes next, Runs expression (.before before.byteLength after) (some (nodes, next)) →
      Text.isBoundary (before ++ after) next.offset = true ∧ before.byteLength ≤ next.offset ∧
        next.offset ≤ Text.byteLength (before ++ after)) ∧
    ∀ body, Repeats gap expression body →
      (∀ start nodes next, Runs body start (some (nodes, next)) → start.offset < next.offset) ∧
      ∀ count start stop, Rounds body count start stop → count + stop.left ≤ start.left := by
  have progressive := progressive_of_within within
  have run := runs_match? progressive (.before before.byteLength after)
  refine ⟨⟨_, run, fun outcome other => (match?_of_runs other progressive).symm⟩, run, ?_, ?_⟩
  · intro nodes next other
    obtain ⟨boundary, behind⟩ := isBoundary_of_match? (match?_of_runs other progressive)
    exact ⟨boundary, behind, Text.le_byteLength_of_isBoundary boundary⟩
  · intro body repeats
    obtain ⟨consumes, steady⟩ := consumes_of_repeats consumes_gap progressive repeats
    refine ⟨?_, fun count start stop => count_add_left_le_of_rounds consumes steady⟩
    intro start nodes next round
    obtain ⟨read, moves, some⟩ := advances _ (match?_of_runs round steady)
    have positive := Text.byteLength_pos (some consumes)
    rw [moves.offset]
    omega

/-- A list of indexers that begins with a comma: the run of the table ends, without a table, and
so do the rounds over its line breaks. -/
theorem runs_of_within_stray_comma :
    Within table ∧ Repeats gap table newline ∧
      Runs table (.before 0 "[plugins.A]\nindexers = [,]".toList) none ∧
      ∀ count start stop, Rounds newline count start stop → count + stop.left ≤ start.left := by
  have within : Within table := .inr ⟨.table, mem_parts_self table⟩
  have repeats : Repeats gap table newline :=
    .inr (by simp [table, parts, spaced, mem_parts_self])
  have failed : match? table (.before 0 "[plugins.A]\nindexers = [,]".toList) = none := by
    rw [← Option.isNone_iff_eq_none]
    decide +kernel
  obtain ⟨-, run, -, bounded⟩ :=
    runs_of_within within [] "[plugins.A]\nindexers = [,]".toList
  exact ⟨within, repeats, failed ▸ run, (bounded newline repeats).2⟩

end PluginScript.Table.Grammar
