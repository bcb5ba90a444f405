import PluginScript.Table.Token
import Mathlib.Data.List.TakeWhile
import Mathlib.Tactic.Common

/-! # Reading tokens

How a text has to begin for a certain token to come first, and what the tokens of a text are in
terms of its first token: a text that begins with a token has that token and the tokens of the
rest. Gaps do not count.
-/

namespace PluginScript.Table.Token

open Peg.Mismatch (isBreak)

/-- Behind a gap there is neither a blank nor a comment. -/
theorem head?_skipGap (text : Text) :
    ∀ c ∈ (skipGap text).head?, isSpace c = false ∧ c ≠ '#' := by
  intro c first
  rw [skipGap] at first
  have behindBlanks := List.head?_dropWhile_not isSpace text
  generalize text.dropWhile isSpace = rest at first behindBlanks
  split_ifs at first with comment
  · have atBreak := List.head?_dropWhile_not (fun c => !isBreak c) rest
    rw [first] at atBreak
    simp only [isBreak, Bool.not_eq_false', Bool.or_eq_true, beq_iff_eq] at atBreak
    rcases atBreak with rfl | rfl <;> decide
  · rw [first] at behindBlanks comment
    exact ⟨behindBlanks, fun same => comment (congrArg some same)⟩

theorem skipGap_of_head? {text : Text} (bare : ∀ c ∈ text.head?, isSpace c = false ∧ c ≠ '#') :
    skipGap text = text := by
  cases text with
  | nil => rfl
  | cons c rest =>
    obtain ⟨noSpace, noComment⟩ := bare c rfl
    rw [skipGap, List.dropWhile_cons_of_neg (by rw [noSpace]; decide)]
    exact if_neg fun same => noComment (Option.some.inj same)

theorem skipGap_cons_of_isSpace {c : Char} (blank : isSpace c = true) (rest : Text) :
    skipGap (c :: rest) = skipGap rest := by
  rw [skipGap, List.dropWhile_cons_of_pos blank, skipGap]

theorem skipGap_comment (rest : Text) :
    skipGap ('#' :: rest) = rest.dropWhile fun c => !isBreak c := by
  rw [skipGap, List.dropWhile_cons_of_neg (by decide), if_pos List.head?_cons,
    List.dropWhile_cons_of_pos (by decide)]

@[simp] theorem skipGap_skipGap (text : Text) : skipGap (skipGap text) = skipGap text :=
  skipGap_of_head? (head?_skipGap text)

private theorem isWordChar_of_isMark {c : Char} (marked : isMark c = true) :
    Text.isWordChar c = false := by
  simp only [isMark, List.contains_eq_mem, List.mem_cons, List.not_mem_nil, or_false,
    decide_eq_true_eq] at marked
  rcases marked with rfl | rfl | rfl | rfl | rfl <;> decide

theorem next?_of_isWordChar {c : Char} (wordly : Text.isWordChar c = true) (rest : Text) :
    next? (c :: rest) =
      some (.word (c :: rest.takeWhile Text.isWordChar), rest.dropWhile Text.isWordChar) := by
  have unmarked : isMark c ≠ true := by
    intro marked
    rw [isWordChar_of_isMark marked] at wordly
    cases wordly
  rw [next?, if_neg unmarked, if_pos wordly]

theorem next?_mark_iff {text later : Text} {c : Char} :
    next? text = some (mark c, later) ↔ isMark c = true ∧ text = c :: later := by
  constructor
  · intro found
    cases text with
    | nil => cases found
    | cons d rest =>
      simp only [next?] at found
      split_ifs at found with marked
      all_goals cases found
      exact ⟨marked, rfl⟩
  · rintro ⟨marked, rfl⟩
    rw [next?, if_pos marked]

theorem next?_word_iff {text later word : Text} :
    next? text = some (.word word, later) ↔
      Text.isWord word = true ∧ text = word ++ later ∧
        ∀ c ∈ later.head?, Text.isWordChar c = false := by
  constructor
  · intro found
    cases text with
    | nil => cases found
    | cons c rest =>
      simp only [next?] at found
      split_ifs at found with marked wordly
      all_goals cases found
      refine ⟨?_, ?_, ?_⟩
      · simp only [Text.isWord, List.isEmpty_cons, Bool.not_false, Bool.true_and, List.all_cons,
          wordly, List.all_takeWhile]
      · rw [List.cons_append, List.takeWhile_append_dropWhile]
      · intro d first
        have stops := List.head?_dropWhile_not Text.isWordChar rest
        rw [first] at stops
        exact stops
  · rintro ⟨isWord, rfl, stops⟩
    cases word with
    | nil => cases isWord
    | cons c rest =>
      simp only [Text.isWord, List.isEmpty_cons, Bool.not_false, Bool.true_and, List.all_cons,
        Bool.and_eq_true, List.all_eq_true] at isWord
      obtain ⟨wordly, all⟩ := isWord
      have ended :
          later.takeWhile Text.isWordChar = [] ∧ later.dropWhile Text.isWordChar = later := by
        cases later with
        | nil => exact ⟨rfl, rfl⟩
        | cons d later =>
          have : ¬ Text.isWordChar d = true := by rw [stops d rfl]; decide
          exact ⟨List.takeWhile_cons_of_neg this, List.dropWhile_cons_of_neg this⟩
      rw [List.cons_append, next?_of_isWordChar wordly, List.takeWhile_append_of_pos all,
        List.dropWhile_append_of_pos all, ended.1, ended.2, List.append_nil]

theorem next?_quoted_iff {text later content : Text} :
    next? text = some (quoted content, later) ↔
      content.all isContent = true ∧ text = '"' :: (content ++ '"' :: later) := by
  constructor
  · intro found
    cases text with
    | nil => cases found
    | cons c rest =>
      simp only [next?] at found
      split_ifs at found with marked wordly opening closing
      all_goals cases found
      refine ⟨List.all_takeWhile, ?_⟩
      have split := List.takeWhile_append_dropWhile (p := isContent) (l := rest)
      rw [opening]
      congr 1
      conv_lhs => rw [← split]
      congr 1
      generalize rest.dropWhile isContent = behind at closing
      cases behind with
      | nil => cases closing
      | cons d behind =>
        cases Option.some.inj closing
        rfl
  · rintro ⟨all, rfl⟩
    have inside := List.all_eq_true.mp all
    rw [next?, if_neg (by decide), if_neg (by decide), if_pos rfl,
      List.takeWhile_append_of_pos inside, List.dropWhile_append_of_pos inside,
      List.takeWhile_cons_of_neg (by decide), List.dropWhile_cons_of_neg (by decide),
      List.append_nil]
    rfl

theorem next?_newline_iff {text later : Text} :
    next? text = some (newline, later) ↔
      text = '\n' :: later ∨ text = '\r' :: '\n' :: later ∨
        text = '\r' :: later ∧ later.head? ≠ some '\n' := by
  constructor
  · intro found
    cases text with
    | nil => cases found
    | cons c rest =>
      simp only [next?] at found
      split_ifs at found with marked wordly opening closing feed carriage followed
      all_goals cases found
      · exact .inl (by rw [feed])
      · refine .inr (.inl ?_)
        obtain ⟨tail, rfl⟩ := List.head?_eq_some_iff.mp followed
        rw [carriage, List.tail_cons]
      · exact .inr (.inr ⟨by rw [carriage], followed⟩)
  · rintro (rfl | rfl | ⟨rfl, unfollowed⟩)
    · rfl
    · rfl
    · rw [next?, if_neg (by decide), if_neg (by decide), if_neg (by decide), if_neg (by decide),
        if_pos rfl, if_neg unfollowed]

/-- A text that begins with a token does not begin with a gap. -/
theorem skipGap_of_next? {text later : Text} {token : Token}
    (found : next? text = some (token, later)) : skipGap text = text := by
  apply skipGap_of_head?
  cases text with
  | nil => cases found
  | cons c rest =>
    intro d first
    cases Option.some.inj first
    -- Neither a blank nor the sign of a comment begins any token.
    by_contra gap
    have sign : c = ' ' ∨ c = '\t' ∨ c = '#' := by
      by_contra none
      apply gap
      simp_all [isSpace]
    rcases sign with rfl | rfl | rfl <;> cases found

theorem lex?_skipGap (text : Text) : lex? (skipGap text) = lex? text := by
  by_cases bare : skipGap text = []
  · rw [lex?_of_skipGap_eq_nil bare, bare]
    exact lex?_of_skipGap_eq_nil rfl
  · cases found : next? (skipGap text) with
    | none =>
      rw [lex?_of_next?_eq_none bare found]
      exact lex?_of_next?_eq_none (by rwa [skipGap_skipGap]) (by rwa [skipGap_skipGap])
    | some result =>
      rw [lex?_of_next? found]
      exact lex?_of_next? (by rwa [skipGap_skipGap])

theorem lex?_eq_nil_iff {text : Text} : lex? text = some [] ↔ skipGap text = [] := by
  refine ⟨fun bare => ?_, lex?_of_skipGap_eq_nil⟩
  by_contra filled
  cases found : next? (skipGap text) with
  | none => cases bare.symm.trans (lex?_of_next?_eq_none filled found)
  | some result =>
    rw [lex?_of_next? found, Option.map_eq_some_iff] at bare
    obtain ⟨tokens, -, same⟩ := bare
    cases same

theorem lex?_nil : lex? [] = some [] :=
  lex?_of_skipGap_eq_nil rfl

theorem lex?_eq_cons_iff {text : Text} {token : Token} {tokens : List Token} :
    lex? text = some (token :: tokens) ↔
      ∃ later, next? (skipGap text) = some (token, later) ∧ lex? later = some tokens := by
  constructor
  · intro read
    have filled : skipGap text ≠ [] := by
      intro bare
      rw [lex?_of_skipGap_eq_nil bare] at read
      cases read
    cases found : next? (skipGap text) with
    | none => cases read.symm.trans (lex?_of_next?_eq_none filled found)
    | some result =>
      rw [lex?_of_next? found, Option.map_eq_some_iff] at read
      obtain ⟨others, later, same⟩ := read
      cases same
      exact ⟨result.2, rfl, later⟩
  · rintro ⟨later, found, rest⟩
    rw [lex?_of_next? found, rest]
    rfl

/-- Where no gap comes first, a text has a first token if it begins with it. -/
theorem next?_of_lex? {text : Text} {token : Token} {tokens : List Token}
    (bare : skipGap text = text) (read : lex? text = some (token :: tokens)) :
    ∃ later, next? text = some (token, later) ∧ lex? later = some tokens := by
  rw [← bare]
  exact lex?_eq_cons_iff.mp read

/-- A text that begins with a token has that token and the tokens of the rest. -/
theorem lex?_of_begins {text later : Text} {token : Token} {tokens : List Token}
    (found : next? text = some (token, later)) (rest : lex? later = some tokens) :
    lex? text = some (token :: tokens) :=
  lex?_eq_cons_iff.mpr ⟨later, by rw [skipGap_of_next? found, found], rest⟩

theorem head?_of_lex? {text later : Text} {token : Token} {tokens : List Token}
    (found : next? text = some (token, later)) (read : lex? text = some tokens) :
    tokens.head? = some token := by
  rw [← skipGap_of_next? found] at found
  rw [lex?_of_next? found, Option.map_eq_some_iff] at read
  obtain ⟨others, -, rfl⟩ := read
  rfl

/-- A word at the front of a text is the beginning of the first token. -/
theorem next?_word_append {front : Text} (isWord : Text.isWord front = true) (rest : Text) :
    next? (front ++ rest) = some (.word (front ++ rest.takeWhile Text.isWordChar),
      rest.dropWhile Text.isWordChar) := by
  cases front with
  | nil => cases isWord
  | cons c front =>
    rw [Text.isWord, List.all_cons, Bool.and_eq_true, Bool.and_eq_true, List.all_eq_true] at isWord
    obtain ⟨-, wordly, all⟩ := isWord
    rw [List.cons_append, next?_of_isWordChar wordly, List.takeWhile_append_of_pos all,
      List.dropWhile_append_of_pos all, List.cons_append]

/-- A text whose first token is not a word does not begin with a word character. -/
theorem isWordChar_head?_of_lex? {text : Text} {tokens : List Token}
    (read : lex? text = some tokens)
    (wordless : ∀ word, tokens.head? ≠ some (.word word)) :
    ∀ c ∈ text.head?, Text.isWordChar c = false := by
  intro c first
  obtain ⟨rest, rfl⟩ := List.head?_eq_some_iff.mp first
  by_contra wordly
  rw [Bool.not_eq_false] at wordly
  exact wordless _ (head?_of_lex? (next?_of_isWordChar wordly rest) read)

end PluginScript.Table.Token
