import PluginScript.Proofs.PegMatching
import PluginScript.Proofs.Tokens
import PluginScript.Table.Grammar

/-! # Gaps and line breaks

The grammar and the tokens agree on what is not part of a line: the expression of a gap drops what
stands between two tokens, and the expression of a line break matches where that is the next token.
-/

namespace PluginScript.Table

open Peg Token Grammar
open Peg.Mismatch (isBreak)

private theorem match?_blanks (cursor : Cursor) :
    ∃ next, match? (.star blank) cursor = some ([], next) ∧
      next.rest = cursor.rest.dropWhile isSpace :=
  match?_star_of_reads_class (fun _ => rfl) cursor

theorem next?_of_match?_newline {cursor next : Cursor} {nodes : List (Node Rule)}
    (found : match? newline cursor = some (nodes, next)) :
    nodes = [] ∧ next? cursor.rest = some (.newline, next.rest) := by
  rcases match?_choice_eq_some found with found | ⟨-, found⟩
  · obtain ⟨rfl, split⟩ := match?_literal_eq_some found
    exact ⟨rfl, next?_newline_iff.mpr (.inl split)⟩
  · rcases match?_choice_eq_some found with found | ⟨missed, found⟩
    · obtain ⟨rfl, split⟩ := match?_literal_eq_some found
      exact ⟨rfl, next?_newline_iff.mpr (.inr (.inl split))⟩
    · obtain ⟨rfl, split⟩ := match?_literal_eq_some found
      refine ⟨rfl, next?_newline_iff.mpr (.inr (.inr ⟨split, ?_⟩))⟩
      -- With a line feed behind it, the other spelling would have been taken.
      intro feed
      obtain ⟨rest, left⟩ := List.head?_eq_some_iff.mp feed
      rw [left] at split
      obtain ⟨later, taken, -⟩ := match?_literal_of_rest Rule ['\r', '\n'] split
      cases missed.symm.trans taken

theorem match?_newline_of_next? {cursor : Cursor} {later : Text}
    (first : next? cursor.rest = some (.newline, later)) :
    ∃ next, match? newline cursor = some ([], next) ∧ next.rest = later := by
  rcases next?_newline_iff.mp first with split | split | ⟨split, unfollowed⟩
  · obtain ⟨next, found, left⟩ := match?_literal_of_rest Rule ['\n'] split
    exact ⟨next, match?_choice_of_some found, left⟩
  · have missed : match? (.literal ['\n'] : Peg Rule) cursor = none :=
      match?_literal_eq_none (by rw [split]; simp)
    obtain ⟨next, found, left⟩ := match?_literal_of_rest Rule ['\r', '\n'] split
    exact ⟨next, (match?_choice_of_none missed).trans (match?_choice_of_some found), left⟩
  · have missed : match? (.literal ['\n'] : Peg Rule) cursor = none :=
      match?_literal_eq_none (by rw [split]; simp)
    have missed' : match? (.literal ['\r', '\n'] : Peg Rule) cursor = none := by
      apply match?_literal_eq_none
      rw [split]
      rintro ⟨rest, same⟩
      cases same
      exact unfollowed rfl
    obtain ⟨next, found, left⟩ := match?_literal_of_rest Rule ['\r'] split
    exact ⟨next, (match?_choice_of_none missed).trans ((match?_choice_of_none missed').trans found),
      left⟩

/-- A line break matches where a character that breaks lines comes next. -/
theorem isSome_match?_newline (cursor : Cursor) (c : Char) (rest : Text)
    (begins : cursor.rest = c :: rest) : (match? newline cursor).isSome = isBreak c := by
  rw [Bool.eq_iff_iff, Option.isSome_iff_exists, isBreak, Bool.or_eq_true, beq_iff_eq, beq_iff_eq]
  constructor
  · rintro ⟨⟨nodes, next⟩, found⟩
    obtain ⟨-, first⟩ := next?_of_match?_newline found
    rw [begins] at first
    rcases next?_newline_iff.mp first with split | split | ⟨split, -⟩
    · exact .inr (List.cons.inj split).1
    · exact .inl (List.cons.inj split).1
    · exact .inl (List.cons.inj split).1
  · intro breaks
    have first : ∃ later, next? cursor.rest = some (.newline, later) := by
      rw [begins]
      rcases breaks with rfl | rfl
      · exact ⟨_, rfl⟩
      · exact ⟨_, rfl⟩
    obtain ⟨later, first⟩ := first
    obtain ⟨next, found, -⟩ := match?_newline_of_next? first
    exact ⟨_, found⟩

/-- A comment reaches up to the end of its line. -/
private theorem match?_comment {cursor : Cursor} {rest : Text}
    (begins : cursor.rest = '#' :: rest) :
    ∃ next, match? comment cursor = some ([], next) ∧
      next.rest = rest.dropWhile fun c => !isBreak c := by
  obtain ⟨between, sign, behind⟩ := match?_literal_of_rest Rule ['#'] begins
  have reads : ∀ cursor, match? (.seq (.absent newline) any) cursor =
      match? (.char fun c => !isBreak c) cursor := by
    apply match?_unless
    intro cursor c rest begins
    rw [Bool.not_not, isSome_match?_newline cursor c rest begins]
  obtain ⟨next, dropped, left⟩ := match?_star_of_reads_class reads between
  rw [behind] at left
  exact ⟨next, match?_seq_of_some sign dropped, left⟩

private theorem rounds_comment_of_clear {cursor : Cursor}
    (clear : ∀ c ∈ cursor.rest.head?, c ≠ '#') :
    rounds (match? (.seq comment (.star blank))) cursor = ([], cursor) := by
  apply rounds_of_none
  apply match?_seq_eq_none
  apply match?_seq_eq_none
  apply match?_literal_eq_none
  rintro ⟨rest, begins⟩
  rw [← begins] at clear
  exact clear '#' rfl rfl

/-- A gap moves the cursor behind it and leaves no nodes. -/
theorem match?_gap (cursor : Cursor) :
    ∃ bare : Cursor, bare.rest = skipGap cursor.rest ∧
      ∀ expression, match? (.seq gap expression) cursor = match? expression bare := by
  suffices reached :
      ∃ bare, match? gap cursor = some ([], bare) ∧ bare.rest = skipGap cursor.rest by
    obtain ⟨bare, found, skipped⟩ := reached
    refine ⟨bare, skipped, fun expression => ?_⟩
    rw [match?_seq, found, Option.bind_some]
    simp only [List.nil_append, Option.map_id']
  obtain ⟨between, blanks, behind⟩ := match?_blanks cursor
  have clear := head?_skipGap cursor.rest
  rw [skipGap, ← behind] at clear ⊢
  split_ifs at clear ⊢ with commented
  · obtain ⟨rest, begins⟩ := List.head?_eq_some_iff.mp commented
    obtain ⟨middle, passed, left⟩ := match?_comment begins
    obtain ⟨bare, blanks', left'⟩ := match?_blanks middle
    rw [begins, List.dropWhile_cons_of_pos (by decide), ← left] at clear ⊢
    -- The blanks behind a comment are none, since its line ends there.
    have none : middle.rest.dropWhile isSpace = middle.rest := by
      cases ended : middle.rest with
      | nil => rfl
      | cons c later =>
        rw [ended] at clear
        exact List.dropWhile_cons_of_neg (by rw [(clear c rfl).1]; decide)
    rw [none] at left'
    rw [← left'] at clear ⊢
    have round := match?_seq_of_some passed blanks'
    have progress : bare.left < between.left := by
      apply Cursor.left_lt_of_suffix (match?_suffix round)
      intro stuck
      rw [stuck, begins] at clear
      exact (clear '#' rfl).2 rfl
    have run : rounds (match? (.seq comment (.star blank))) between = ([], bare) := by
      rw [rounds_of_some round progress, rounds_comment_of_clear fun c first => (clear c first).2]
      rfl
    exact ⟨bare, match?_seq_of_some blanks (congrArg some run), rfl⟩
  · have run := rounds_comment_of_clear fun c first => (clear c first).2
    exact ⟨between, match?_seq_of_some blanks (congrArg some run), rfl⟩

theorem match?_seq_gap_eq_some {first second : Peg Rule} {cursor next : Cursor}
    {nodes : List (Node Rule)}
    (found : match? (.seq first (.seq gap second)) cursor = some (nodes, next)) :
    ∃ left middle bare right, match? first cursor = some (left, middle) ∧
      bare.rest = skipGap middle.rest ∧ match? second bare = some (right, next) ∧
        nodes = left ++ right := by
  obtain ⟨left, middle, right, here, there, split⟩ := match?_seq_eq_some found
  obtain ⟨bare, skipped, same⟩ := match?_gap middle
  exact ⟨left, middle, bare, right, here, skipped, (same second).symm.trans there, split⟩

end PluginScript.Table
