import PluginScript.Proofs.Reading

/-! # Expressions that read one token

The smallest parts of the grammar: marks, keywords, line breaks, words, truth values and strings.
Each of them reads one token. A keyword is a literal without a boundary behind it, so it reads a
whole word only where no word comes behind it.
-/

namespace PluginScript.Table

open Peg Token
open scoped Computability

/-- No word comes first. -/
def Wordless (tokens : List Token) : Prop :=
  ∀ word, tokens.head? ≠ some (.word word)

/-- No line break comes first. -/
def Unbroken (tokens : List Token) : Prop :=
  tokens.head? ≠ some newline

/-- Whatever comes. -/
def Anything (_ : List Token) : Prop :=
  True

section Token

variable {α : Type} {expression : Peg Rule} {follow : List Token → Prop} {token : α → Token}
  {tells : List (Node Rule) → α → Prop}

/-- An expression that matches where the text begins with a token. -/
theorem Reads.ofToken
    (sound : ∀ {cursor next nodes more}, match? expression cursor = some (nodes, next) →
      lex? next.rest = some more → follow more →
        ∃ value, next? cursor.rest = some (token value, next.rest) ∧ tells nodes value)
    (complete : ∀ {cursor value later}, next? cursor.rest = some (token value, later) →
      ∃ nodes next, match? expression cursor = some (nodes, next) ∧ next.rest = later ∧
        tells nodes value) :
    Reads expression follow (fun value => {[token value]}) tells where
  sound := by
    intro cursor next nodes more found rest follows
    obtain ⟨value, first, told⟩ := sound found rest follows
    exact ⟨value, [token value], rfl, lex?_of_begins first rest, told⟩
  complete := by
    rintro cursor value tokens more rfl bare read follows
    obtain ⟨later, first, rest⟩ := next?_of_lex? bare read
    obtain ⟨nodes, next, found, rfl, told⟩ := complete first
    exact ⟨nodes, next, found, rest, told⟩

/-- An expression that matches only where the text begins with other tokens. -/
theorem Refuses.ofToken {tokens : List Token}
    (starts : ∀ {cursor next nodes}, match? expression cursor = some (nodes, next) →
      ∃ token later, next? cursor.rest = some (token, later) ∧ tokens.head? ≠ some token) :
    Refuses expression tokens := by
  intro cursor bare read
  cases found : match? expression cursor with
  | none => rfl
  | some result =>
    obtain ⟨nodes, next⟩ := result
    obtain ⟨token, later, first, other⟩ := starts found
    exact absurd (head?_of_lex? first read) other

end Token

theorem reads_mark {c : Char} (marked : isMark c = true) :
    Reads (.literal [c]) Anything (fun _ => {[mark c]}) Silent := by
  apply Reads.ofToken
  · intro cursor next nodes more found _ _
    obtain ⟨rfl, split⟩ := match?_literal_eq_some found
    exact ⟨(), next?_mark_iff.mpr ⟨marked, split⟩, rfl⟩
  · intro cursor value later first
    obtain ⟨next, found, left⟩ := match?_literal_of_rest Rule [c] (next?_mark_iff.mp first).2
    exact ⟨[], next, found, left, rfl⟩

theorem refuses_mark {c : Char} (marked : isMark c = true) {tokens : List Token}
    (other : tokens.head? ≠ some (mark c)) : Refuses (.literal [c]) tokens := by
  apply Refuses.ofToken
  intro cursor next nodes found
  have split := (match?_literal_eq_some found).2
  exact ⟨mark c, next.rest, next?_mark_iff.mpr ⟨marked, split⟩, other⟩

theorem reads_keyword {keyword : Text} (isWord : keyword.isWord = true) :
    Reads (.literal keyword) Wordless (fun _ => {[.word keyword]}) Silent := by
  apply Reads.ofToken
  · intro cursor next nodes more found rest wordless
    obtain ⟨rfl, split⟩ := match?_literal_eq_some found
    refine ⟨(), next?_word_iff.mpr ⟨isWord, split, ?_⟩, rfl⟩
    exact isWordChar_head?_of_lex? rest wordless
  · intro cursor value later first
    obtain ⟨-, split, -⟩ := next?_word_iff.mp first
    obtain ⟨next, found, left⟩ := match?_literal_of_rest Rule keyword split
    exact ⟨[], next, found, left, rfl⟩

theorem refuses_keyword {keyword : Text} (isWord : keyword.isWord = true) {tokens : List Token}
    (other : ∀ first, tokens.head? = some (.word first) → ¬ keyword <+: first) :
    Refuses (.literal keyword) tokens := by
  apply Refuses.ofToken
  intro cursor next nodes found
  rw [(match?_literal_eq_some found).2]
  exact ⟨_, _, next?_word_append isWord next.rest, fun same =>
    other _ same (List.prefix_append keyword _)⟩

theorem reads_newline : Reads Grammar.newline Anything (fun _ => {[newline]}) Silent := by
  apply Reads.ofToken
  · intro cursor next nodes more found _ _
    obtain ⟨rfl, first⟩ := next?_of_match?_newline found
    exact ⟨(), first, rfl⟩
  · intro cursor value later first
    obtain ⟨next, found, left⟩ := match?_newline_of_next? first
    exact ⟨[], next, found, left, rfl⟩

theorem refuses_newline {tokens : List Token} (unbroken : Unbroken tokens) :
    Refuses Grammar.newline tokens := by
  apply Refuses.ofToken
  intro cursor next nodes found
  exact ⟨newline, next.rest, (next?_of_match?_newline found).2, unbroken⟩

private theorem match?_word {cursor : Cursor} {c : Char} {rest : Text}
    (begins : cursor.rest = c :: rest)
    (wordly : Text.isWordChar c = true) :
    ∃ node next, match? Grammar.word cursor = some ([node], next) ∧
      node.text = c :: rest.takeWhile Text.isWordChar ∧
        next.rest = rest.dropWhile Text.isWordChar := by
  obtain ⟨between, here, left⟩ := match?_char_of_rest Rule begins wordly
  have letters : ∀ cursor, match? (.char Text.isWordChar : Peg Rule) cursor =
      match? (.char Text.isWordChar) cursor := fun _ => rfl
  obtain ⟨next, others, left'⟩ := match?_star_of_reads_class letters between
  rw [left] at left'
  refine ⟨_, next, match?_rule_of_some (match?_seq_of_some here others), ?_, left'⟩
  apply Cursor.readUntil_of_rest
  rw [begins, left', List.cons_append, List.takeWhile_append_dropWhile]

private theorem match?_word_eq_none {cursor : Cursor}
    (other : ∀ c ∈ cursor.rest.head?, Text.isWordChar c = false) :
    match? Grammar.word cursor = none := by
  have failed : match? (.seq (.char Text.isWordChar) (.star (.char Text.isWordChar)) : Peg Rule)
      cursor = none := match?_seq_eq_none (match?_char_eq_none other)
  rw [Grammar.word, match?_rule, plus, failed]
  rfl

theorem reads_word :
    Reads Grammar.word Anything (fun owner => {[word owner]})
      (One fun node owner => node.text = owner) := by
  apply Reads.ofToken
  · intro cursor next nodes more found _ _
    cases begins : cursor.rest with
    | nil =>
      rw [match?_word_eq_none (by rw [begins]; simp)] at found
      cases found
    | cons c rest =>
      by_cases wordly : Text.isWordChar c = true
      · obtain ⟨node, later, found', text, left⟩ := match?_word begins wordly
        cases found.symm.trans found'
        refine ⟨node.text, ?_, node, rfl, rfl⟩
        rw [text, left]
        exact next?_of_isWordChar wordly rest
      · rw [match?_word_eq_none (by rw [begins]; simpa using wordly)] at found
        cases found
  · intro cursor owner later first
    obtain ⟨isWord, split, -⟩ := next?_word_iff.mp first
    cases owner with
    | nil => cases isWord
    | cons c owner =>
      have wordly : Text.isWordChar c = true := by
        rw [Text.isWord, List.all_cons, Bool.and_eq_true, Bool.and_eq_true] at isWord
        exact isWord.2.1
      obtain ⟨node, next, found, text, left⟩ := match?_word split wordly
      rw [split, List.cons_append, next?_of_isWordChar wordly] at first
      simp only [Option.some.injEq, Prod.mk.injEq, Token.word.injEq] at first
      exact ⟨[node], next, found, left.trans first.2, node, rfl, text.trans first.1⟩

/-- The keyword of a truth value. -/
def truth (value : Bool) : Text :=
  if value then "true".toList else "false".toList

theorem isWord_truth (value : Bool) : (truth value).isWord = true := by
  cases value <;> decide

private theorem match?_boolean_of_rest {cursor : Cursor} {value : Bool} {rest : Text}
    (begins : cursor.rest = truth value ++ rest) :
    ∃ node next, match? Grammar.boolean cursor = some ([node], next) ∧
      node.text = truth value ∧ next.rest = rest := by
  obtain ⟨next, found, left⟩ := match?_literal_of_rest Rule (truth value) begins
  have chosen : match? (choices [.literal "true".toList, .literal "false".toList]) cursor =
      some (([] : List (Node Rule)), next) := by
    cases value with
    | true => exact match?_choice_of_some found
    | false =>
      have missed : match? (.literal "true".toList : Peg Rule) cursor = none :=
        match?_literal_eq_none (by rw [begins]; simp [truth])
      exact (match?_choice_of_none missed).trans found
  exact ⟨_, next, match?_rule_of_some chosen, Cursor.readUntil_of_rest (left ▸ begins), left⟩

theorem reads_boolean :
    Reads Grammar.boolean Wordless (fun value => {[word (truth value)]})
      (One fun node value => node.text = truth value) := by
  apply Reads.ofToken
  · intro cursor next nodes more found rest wordless
    have begins : ∃ value, cursor.rest = truth value ++ next.rest := by
      obtain ⟨inside, matched, -⟩ := match?_rule_eq_some found
      rcases match?_choice_eq_some matched with matched | ⟨-, matched⟩
      · exact ⟨true, (match?_literal_eq_some matched).2⟩
      · exact ⟨false, (match?_literal_eq_some matched).2⟩
    obtain ⟨value, begins⟩ := begins
    obtain ⟨node, later, found', text, left⟩ := match?_boolean_of_rest begins
    cases found.symm.trans found'
    refine ⟨value, next?_word_iff.mpr ⟨isWord_truth value, begins, ?_⟩, node, rfl, text⟩
    exact isWordChar_head?_of_lex? rest wordless
  · intro cursor value later first
    obtain ⟨-, begins, -⟩ := next?_word_iff.mp first
    obtain ⟨node, next, found, text, left⟩ := match?_boolean_of_rest begins
    exact ⟨[node], next, found, left, node, rfl, text⟩

private theorem match?_content (cursor : Cursor) :
    ∃ node next, match? Grammar.content cursor = some ([node], next) ∧
      node.text = cursor.rest.takeWhile isContent ∧
      next.rest = cursor.rest.dropWhile isContent := by
  have reads : ∀ cursor,
      match? (.seq (.absent (.choice (.literal ['"']) Grammar.newline)) any) cursor =
        match? (.char isContent) cursor := by
    apply match?_unless
    intro cursor c rest begins
    rw [isSome_match?_choice, isSome_match?_literal_singleton begins,
      isSome_match?_newline cursor c rest begins, isContent, Bool.not_and, Bool.not_not, bne,
      Bool.not_not]
  obtain ⟨next, found, left⟩ := match?_star_of_reads_class reads cursor
  exact ⟨_, next, match?_rule_of_some found, Cursor.readUntil_of_dropWhile left, left⟩

private theorem match?_quoted_of_rest {cursor : Cursor} {content rest : Text}
    (all : content.all isContent = true) (begins : cursor.rest = '"' :: (content ++ '"' :: rest)) :
    ∃ node next, match? Grammar.quoted cursor = some ([node], next) ∧ firstText node = content ∧
      next.rest = rest := by
  obtain ⟨inner, opened, left⟩ := match?_literal_of_rest Rule ['"'] begins
  obtain ⟨node, outer, filled, text, left'⟩ := match?_content inner
  have inside := List.all_eq_true.mp all
  change inner.rest = content ++ '"' :: rest at left
  rw [left, List.takeWhile_append_of_pos inside, List.takeWhile_cons_of_neg (by decide),
    List.append_nil] at text
  rw [left, List.dropWhile_append_of_pos inside, List.dropWhile_cons_of_neg (by decide)] at left'
  obtain ⟨next, closed, left''⟩ := match?_literal_of_rest Rule ['"'] left'
  have found := match?_seq_of_some opened (match?_seq_of_some filled closed)
  exact ⟨_, next, match?_rule_of_some found, text, left''⟩

private theorem begins_of_match?_quoted {cursor next : Cursor} {nodes : List (Node Rule)}
    (found : match? Grammar.quoted cursor = some (nodes, next)) :
    ∃ content, content.all isContent = true ∧
      cursor.rest = '"' :: (content ++ '"' :: next.rest) := by
  obtain ⟨inside, found, -⟩ := match?_rule_eq_some found
  obtain ⟨_, inner, _, opened, found, -⟩ := match?_seq_eq_some found
  obtain ⟨_, outer, _, filled, closed, -⟩ := match?_seq_eq_some found
  obtain ⟨node, outer', filled', -, left⟩ := match?_content inner
  cases filled.symm.trans filled'
  have split := (match?_literal_eq_some closed).2
  refine ⟨inner.rest.takeWhile isContent, List.all_takeWhile, ?_⟩
  rw [(match?_literal_eq_some opened).2]
  conv_lhs =>
    rw [← List.takeWhile_append_dropWhile (p := isContent) (l := inner.rest), ← left, split]
  rfl

theorem reads_quoted :
    Reads Grammar.quoted Anything (fun content => {[quoted content]})
      (One fun node content => firstText node = content) := by
  apply Reads.ofToken
  · intro cursor next nodes more found _ _
    obtain ⟨content, all, begins⟩ := begins_of_match?_quoted found
    obtain ⟨node, later, found', text, left⟩ := match?_quoted_of_rest all begins
    cases found.symm.trans found'
    exact ⟨content, next?_quoted_iff.mpr ⟨all, begins⟩, node, rfl, text⟩
  · intro cursor content later first
    obtain ⟨all, begins⟩ := next?_quoted_iff.mp first
    obtain ⟨node, next, found, text, left⟩ := match?_quoted_of_rest all begins
    exact ⟨[node], next, found, left, node, rfl, text⟩

theorem refuses_quoted {tokens : List Token}
    (other : ∀ content, tokens.head? ≠ some (quoted content)) :
    Refuses Grammar.quoted tokens := by
  apply Refuses.ofToken
  intro cursor next nodes found
  obtain ⟨content, all, begins⟩ := begins_of_match?_quoted found
  exact ⟨quoted content, next.rest, next?_quoted_iff.mpr ⟨all, begins⟩, other content⟩

end PluginScript.Table
