import PluginScript.Proofs.LineBreaks
import PluginScript.Proofs.TableMeaning
import Mathlib.Logic.Relation

/-! # Changes of the layout

Texts that differ in their layout only are parsed alike. It is enough to show that their tokens are
spaced alike. For tokens that are the same once tidied up, this holds by definition. For a change at
a line break, the text is cut there: the tokens of a text are those of what stands in front of a cut
and those of what stands behind it, up to a line break that the cut tears in two
(`lex?_append`, `exists_lex?_of_append`).
-/

namespace PluginScript.Table

open Token Layout
open Peg.Mismatch (isBreak)

/-! ## Tokens that are spaced alike -/

/-- Tokens with the same spacing, whatever stands in front of them. -/
def SpacedAlike (first second : List Token) : Prop :=
  ∀ broken, spacing broken first = spacing broken second

namespace SpacedAlike

variable {first second third : List Token}

theorem refl (tokens : List Token) : SpacedAlike tokens tokens :=
  fun _ => rfl

theorem symm (alike : SpacedAlike first second) : SpacedAlike second first :=
  fun broken => (alike broken).symm

theorem trans (here : SpacedAlike first second) (there : SpacedAlike second third) :
    SpacedAlike first third :=
  fun broken => (here broken).trans (there broken)

theorem cons (token : Token) (alike : SpacedAlike first second) :
    SpacedAlike (token :: first) (token :: second) := by
  intro broken
  simp only [spacing, alike true, alike false]

theorem append_left (front : List Token) (alike : SpacedAlike first second) :
    SpacedAlike (front ++ first) (front ++ second) := by
  induction front with
  | nil => exact alike
  | cons token front ih => exact ih.cons token

/-- Two line breaks in a row are spaced like one. -/
private theorem newline_cons (tokens : List Token) :
    SpacedAlike (newline :: newline :: tokens) (newline :: tokens) :=
  fun broken => by simp only [spacing_newline]

end SpacedAlike

/-- Texts whose tokens have the same spacing are parsed alike. -/
private theorem alike_of_spacing {first second : Text} {tokens tokens' : List Token}
    (read : lex? first = some tokens) (read' : lex? second = some tokens')
    (spaced : spacing true tokens = spacing true tokens') :
    Alike (parse first) (parse second) := by
  have same (declared : List Section) :
      sections first = .ok declared ↔ sections second = .ok declared := by
    simp only [sections_eq_ok_iff, read, read', Option.some.injEq]
    constructor
    · rintro ⟨_, member, rfl⟩
      exact ⟨_, mem_tableOf_of_spacing spaced.symm member, rfl⟩
    · rintro ⟨_, member, rfl⟩
      exact ⟨_, mem_tableOf_of_spacing spaced member, rfl⟩
  have malformed {text : Text} {failure : Failure} (failed : sections text = .error failure) :
      parse text = .error failure ∧ failure.category = .config := by
    refine ⟨by rw [parse, failed]; rfl, ?_⟩
    rw [sections] at failed
    split at failed
    · cases failed
    · cases failed
      rfl
  cases here : sections first with
  | ok declared =>
    have there := (same declared).mp here
    have parsed (text : Text) (split : sections text = .ok declared) :
        parse text = ofSections declared := by
      rw [parse, split]
      rfl
    rw [parsed first here, parsed second there]
    cases made : ofSections declared with
    | ok table => exact .entries table
    | error failure =>
      exact .registration (category_of_ofSections made) (category_of_ofSections made) rfl
  | error failure =>
    cases there : sections second with
    | ok declared => cases here.symm.trans ((same declared).mpr there)
    | error failure' =>
      rw [(malformed here).1, (malformed there).1]
      exact .config (malformed here).2 (malformed there).2

/-! ## Where a text may be cut -/

/-- What may stand where a line is broken off: nothing, or a line break first. -/
def AtBreak (rest : Text) : Prop :=
  ∀ c ∈ rest.head?, isBreak c = true

/-- What may stand where the content of a line ends: nothing, or a line break or a comment first. -/
def AtLineEnd (rest : Text) : Prop :=
  ∀ c ∈ rest.head?, isBreak c = true ∨ c = '#'

theorem AtBreak.atLineEnd {rest : Text} (ending : AtBreak rest) : AtLineEnd rest :=
  fun c first => .inl (ending c first)

private theorem isBreak_iff {c : Char} : isBreak c = true ↔ c = '\n' ∨ c = '\r' := by
  rw [isBreak, Bool.or_eq_true, beq_iff_eq, beq_iff_eq, or_comm]

theorem AtLineEnd.isWordChar {rest : Text} (ending : AtLineEnd rest) :
    ∀ c ∈ rest.head?, Text.isWordChar c = false := by
  intro c first
  rcases ending c first with breaks | rfl
  · rcases isBreak_iff.mp breaks with rfl | rfl <;> decide
  · decide

/-- A comment is dropped up to the end of its line. -/
theorem AtLineEnd.dropWhile {rest : Text} (ending : AtLineEnd rest) :
    rest.dropWhile (fun c => !isBreak c) = skipGap rest := by
  cases rest with
  | nil => rfl
  | cons c rest =>
    rcases ending c rfl with breaks | rfl
    · rw [List.dropWhile_cons_of_neg (by rw [breaks]; decide), skipGap_of_head?]
      rintro _ ⟨⟩
      rcases isBreak_iff.mp breaks with rfl | rfl <;> decide
    · rw [List.dropWhile_cons_of_pos (by decide), skipGap_comment]

private theorem skipGap_append {rest : Text} (ending : AtLineEnd rest) (front : Text) :
    skipGap (front ++ rest) =
      if skipGap front = [] then skipGap rest else skipGap front ++ rest := by
  induction front with
  | nil => rfl
  | cons c front ih =>
    rw [List.cons_append]
    by_cases blank : isSpace c = true
    · rw [skipGap_cons_of_isSpace blank, skipGap_cons_of_isSpace blank, ih]
    · by_cases comment : c = '#'
      · subst comment
        rw [skipGap_comment, skipGap_comment, List.dropWhile_append, ending.dropWhile]
        simp only [List.isEmpty_iff]
      · have bare (more : Text) : skipGap (c :: more) = c :: more := by
          apply skipGap_of_head?
          rintro _ ⟨⟩
          exact ⟨Bool.not_eq_true _ ▸ blank, comment⟩
        rw [bare, bare, if_neg (List.cons_ne_nil c front), List.cons_append]

/-! ## The first token and a cut behind it -/

/-- The first token of a text stays the first one where more follows at the end of a line, save that
a carriage return and a line feed make one line break. -/
private theorem next?_append {text later rest : Text} {token : Token} (ending : AtLineEnd rest)
    (found : next? text = some (token, later)) :
    next? (text ++ rest) = some (token, later ++ rest) ∨
      text = ['\r'] ∧ rest.head? = some '\n' := by
  cases token with
  | mark c =>
    obtain ⟨marked, rfl⟩ := next?_mark_iff.mp found
    exact .inl (next?_mark_iff.mpr ⟨marked, rfl⟩)
  | word word =>
    obtain ⟨isWord, rfl, stops⟩ := next?_word_iff.mp found
    refine .inl (next?_word_iff.mpr ⟨isWord, List.append_assoc _ _ _, ?_⟩)
    cases later with
    | nil => exact ending.isWordChar
    | cons c later => exact stops
  | quoted content =>
    obtain ⟨all, rfl⟩ := next?_quoted_iff.mp found
    refine .inl (next?_quoted_iff.mpr ⟨all, ?_⟩)
    rw [List.cons_append, List.append_assoc, List.cons_append]
  | newline =>
    rcases next?_newline_iff.mp found with rfl | rfl | ⟨rfl, unfollowed⟩
    · exact .inl (next?_newline_iff.mpr (.inl rfl))
    · exact .inl (next?_newline_iff.mpr (.inr (.inl rfl)))
    · cases later with
      | nil =>
        by_cases followed : rest.head? = some '\n'
        · exact .inr ⟨rfl, followed⟩
        · exact .inl (next?_newline_iff.mpr (.inr (.inr ⟨rfl, followed⟩)))
      | cons c later => exact .inl (next?_newline_iff.mpr (.inr (.inr ⟨rfl, unfollowed⟩)))

/-- A string is closed in front of a place where a line is broken off. -/
private theorem exists_eq_append_quote {front rest content later : Text} (ending : AtBreak rest)
    (all : content.all isContent = true) (split : front ++ rest = content ++ '"' :: later) :
    ∃ behind, front = content ++ '"' :: behind := by
  rcases List.append_eq_append_iff.mp split with
    ⟨middle, inside, behind⟩ | ⟨middle, inside, behind⟩
  · -- Otherwise the cut would stand inside the string, or in front of its closing quote.
    exfalso
    cases middle with
    | nil => cases ending '"' (by rw [behind]; rfl)
    | cons c middle =>
      have held := List.all_eq_true.mp all c (by rw [inside]; simp)
      rw [isContent, ending c (by rw [behind]; rfl), Bool.not_true, Bool.and_false] at held
      cases held
  · cases middle with
    | nil => cases ending '"' (by rw [← List.nil_append rest, ← behind]; rfl)
    | cons c middle =>
      cases behind
      exact ⟨middle, inside⟩

/-- No token goes on behind a place where a line is broken off. -/
private theorem exists_next?_of_append {text rest : Text} {result : Token × Text}
    (filled : text ≠ [])
    (ending : AtBreak rest) (found : next? (text ++ rest) = some result) :
    ∃ token later, next? text = some (token, later) := by
  obtain ⟨token, later⟩ := result
  obtain ⟨c, front, rfl⟩ := List.exists_cons_of_ne_nil filled
  cases token with
  | mark d =>
    obtain ⟨marked, split⟩ := next?_mark_iff.mp found
    cases split
    exact ⟨_, _, next?_mark_iff.mpr ⟨marked, rfl⟩⟩
  | word word =>
    obtain ⟨isWord, split, -⟩ := next?_word_iff.mp found
    cases word with
    | nil => cases isWord
    | cons d word =>
      rw [Text.isWord, List.all_cons, Bool.and_eq_true, Bool.and_eq_true] at isWord
      obtain ⟨rfl, -⟩ := List.cons.inj split
      exact ⟨_, _, next?_of_isWordChar isWord.2.1 front⟩
  | quoted content =>
    obtain ⟨all, split⟩ := next?_quoted_iff.mp found
    rw [List.cons_append, List.cons.injEq] at split
    obtain ⟨rfl, split⟩ := split
    obtain ⟨behind, rfl⟩ := exists_eq_append_quote ending all split
    exact ⟨_, _, next?_quoted_iff.mpr ⟨all, rfl⟩⟩
  | newline =>
    have opening : c = '\n' ∨ c = '\r' := by
      rcases next?_newline_iff.mp found with split | split | ⟨split, -⟩
      · exact .inl (List.cons.inj split).1
      · exact .inr (List.cons.inj split).1
      · exact .inr (List.cons.inj split).1
    rcases opening with rfl | rfl
    · exact ⟨newline, front, rfl⟩
    · exact ⟨newline, _, rfl⟩

/-! ## The tokens of a text that is cut -/

theorem lex?_feed {rest : Text} {tokens : List Token} (read : lex? rest = some tokens) :
    lex? ('\n' :: rest) = some (newline :: tokens) :=
  lex?_of_begins (next?_newline_iff.mpr (.inl rfl)) read

/-- A line feed that comes first is a line break. -/
private theorem exists_lex?_of_feed {text : Text} {tokens : List Token}
    (feed : text.head? = some '\n')
    (read : lex? text = some tokens) :
    ∃ rest behind, text = '\n' :: rest ∧ tokens = newline :: behind ∧ lex? rest = some behind := by
  obtain ⟨rest, rfl⟩ := List.head?_eq_some_iff.mp feed
  have found : next? ('\n' :: rest) = some (newline, rest) := rfl
  rw [lex?_of_next? (by rwa [skipGap_of_next? found]), Option.map_eq_some_iff] at read
  obtain ⟨behind, read, rfl⟩ := read
  exact ⟨rest, behind, rfl, rfl, read⟩

/-- Behind a carriage return at the end of a line. -/
private theorem later_of_carriage {token : Token} {later : Text}
    (found : next? ['\r'] = some (token, later)) : token = newline ∧ later = [] := by
  cases found
  exact ⟨rfl, rfl⟩

/-- A text without tokens in front of the end of a line does not matter. -/
private theorem lex?_append_of_bare {front rest : Text} (ending : AtLineEnd rest)
    (bare : skipGap front = []) : lex? (front ++ rest) = lex? rest := by
  rw [← lex?_skipGap, skipGap_append ending, if_pos bare, lex?_skipGap]

/-- The tokens on both sides of a cut are, up to a line break that is cut in two, those of the whole
text. -/
theorem lex?_append {front rest : Text} {before behind : List Token} (ending : AtLineEnd rest)
    (read : lex? front = some before) (readRest : lex? rest = some behind) :
    ∃ tokens, lex? (front ++ rest) = some tokens ∧ SpacedAlike tokens (before ++ behind) := by
  induction before generalizing front with
  | nil =>
    rw [lex?_append_of_bare ending (lex?_eq_nil_iff.mp read)]
    exact ⟨behind, readRest, .refl behind⟩
  | cons token before ih =>
    obtain ⟨later, found, readLater⟩ := lex?_eq_cons_iff.mp read
    have filled : skipGap front ≠ [] := by
      intro bare
      rw [bare] at found
      cases found
    have skipped := skipGap_append ending front
    rw [if_neg filled] at skipped
    rcases next?_append ending found with whole | ⟨carriage, feed⟩
    · obtain ⟨tokens, readMore, alike⟩ := ih readLater
      have found' := skipped.symm ▸ whole
      exact ⟨token :: tokens, lex?_eq_cons_iff.mpr ⟨later ++ rest, found', readMore⟩,
        alike.cons token⟩
    · -- A carriage return in front of the cut and a line feed behind it are one line break.
      rw [carriage] at found skipped
      obtain ⟨rfl, rfl⟩ := later_of_carriage found
      cases readLater.symm.trans lex?_nil
      obtain ⟨rest, behind, rfl, rfl, readBehind⟩ := exists_lex?_of_feed feed readRest
      refine ⟨newline :: behind, ?_, (SpacedAlike.newline_cons behind).symm⟩
      rw [← lex?_skipGap, skipped]
      exact lex?_of_begins (next?_newline_iff.mpr (.inr (.inl rfl))) readBehind

/-- Where a line is broken off, both sides have tokens if the whole text has. -/
private theorem exists_lex?_of_append {front rest : Text} {tokens : List Token}
    (ending : AtBreak rest)
    (read : lex? (front ++ rest) = some tokens) :
    ∃ before behind, lex? front = some before ∧ lex? rest = some behind := by
  induction tokens generalizing front with
  | nil =>
    have bare : skipGap front = [] := by
      by_contra filled
      rw [lex?_eq_nil_iff, skipGap_append ending.atLineEnd, if_neg filled] at read
      exact filled (List.append_eq_nil_iff.mp read).1
    rw [lex?_append_of_bare ending.atLineEnd bare] at read
    exact ⟨[], [], lex?_eq_nil_iff.mpr bare, read⟩
  | cons token tokens ih =>
    by_cases bare : skipGap front = []
    · rw [lex?_append_of_bare ending.atLineEnd bare] at read
      exact ⟨[], token :: tokens, lex?_eq_nil_iff.mpr bare, read⟩
    · obtain ⟨later, found, readLater⟩ := lex?_eq_cons_iff.mp read
      rw [skipGap_append ending.atLineEnd, if_neg bare] at found
      obtain ⟨first, behindFirst, here⟩ := exists_next?_of_append bare ending found
      rcases next?_append ending.atLineEnd here with whole | ⟨carriage, feed⟩
      · cases found.symm.trans whole
        obtain ⟨before, behind, readFront, readRest⟩ := ih readLater
        exact ⟨token :: before, behind, lex?_eq_cons_iff.mpr ⟨behindFirst, here, readFront⟩,
          readRest⟩
      · obtain ⟨rest, rfl⟩ := List.head?_eq_some_iff.mp feed
        rw [carriage] at found here
        cases found
        refine ⟨[newline], newline :: tokens, ?_, lex?_feed readLater⟩
        rw [← lex?_skipGap, carriage]
        exact lex?_of_begins rfl lex?_nil

/-! ## One change, and many -/

/-- What stands behind a cut may be replaced by a text whose tokens are spaced alike. -/
private theorem lex?_replace {front old new : Text} {tokens : List Token} (atBreak : AtBreak old)
    (ending : AtLineEnd new) (read : lex? (front ++ old) = some tokens)
    (replaced : ∀ behind, lex? old = some behind →
      ∃ behind', lex? new = some behind' ∧ SpacedAlike behind' behind) :
    ∃ tokens', lex? (front ++ new) = some tokens' ∧ SpacedAlike tokens' tokens := by
  obtain ⟨before, behind, readFront, readOld⟩ := exists_lex?_of_append atBreak read
  obtain ⟨behind', readNew, alike⟩ := replaced behind readOld
  obtain ⟨whole, readWhole, alikeWhole⟩ := lex?_append atBreak.atLineEnd readFront readOld
  cases read.symm.trans readWhole
  obtain ⟨tokens', read', alike'⟩ := lex?_append ending readFront readNew
  exact ⟨tokens', read', (alike'.trans (alike.append_left before)).trans alikeWhole.symm⟩

private theorem atBreak_lineBreak {lineBreak : Text} (known : lineBreak ∈ lineBreaks)
    (rest : Text) :
    AtBreak (lineBreak ++ rest) := by
  simp only [lineBreaks, List.mem_cons, List.not_mem_nil, or_false] at known
  rcases known with rfl | rfl | rfl <;> rintro _ ⟨⟩ <;> rfl

private theorem lex?_lineBreak {lineBreak : Text} (known : lineBreak ∈ lineBreaks) :
    lex? lineBreak = some [newline] := by
  simp only [lineBreaks, List.mem_cons, List.not_mem_nil, or_false] at known
  rcases known with rfl | rfl | rfl <;> exact lex?_of_begins rfl lex?_nil

private theorem exists_next?_lineBreak {lineBreak : Text} (known : lineBreak ∈ lineBreaks)
    (rest : Text) :
    ∃ later, next? (lineBreak ++ rest) = some (newline, later) := by
  simp only [lineBreaks, List.mem_cons, List.not_mem_nil, or_false] at known
  rcases known with rfl | rfl | rfl <;> exact ⟨_, rfl⟩

/-- A change of the layout keeps the tokens but for the number of line breaks. -/
private theorem exists_lex?_of_relaid {before after : Text} {tokens : List Token}
    (relaid : Relaid before after) (read : lex? before = some tokens) :
    ∃ tokens', lex? after = some tokens' ∧ SpacedAlike tokens' tokens := by
  cases relaid with
  | comment front comment rest within lineEnd =>
    refine lex?_replace lineEnd (by rintro _ ⟨⟩; exact .inr rfl) read fun behind readRest => ?_
    have bare : skipGap ('#' :: comment) = [] := by
      rw [skipGap_comment]
      exact List.dropWhile_eq_nil_iff.mpr (List.all_eq_true.mp within)
    refine ⟨behind, ?_, .refl behind⟩
    rw [← List.cons_append, lex?_append_of_bare (AtBreak.atLineEnd lineEnd) bare, readRest]
  | double front lineBreak rest known =>
    have atBreak := atBreak_lineBreak known
    refine lex?_replace (atBreak rest) (atBreak (lineBreak ++ rest)).atLineEnd read
      fun behind readRest => ?_
    obtain ⟨tokens', read', alike⟩ :=
      lex?_append (atBreak rest).atLineEnd (lex?_lineBreak known) readRest
    obtain ⟨later, found⟩ := exists_next?_lineBreak known rest
    obtain ⟨others, rfl⟩ := List.head?_eq_some_iff.mp (head?_of_lex? found readRest)
    exact ⟨tokens', read', alike.trans (SpacedAlike.newline_cons others)⟩
  | carriage front rest =>
    refine lex?_replace (by rintro _ ⟨⟩; rfl) (by rintro _ ⟨⟩; exact .inl rfl) read
      fun behind readRest => ?_
    obtain ⟨_, others, ⟨⟩, rfl, readOthers⟩ := exists_lex?_of_feed rfl readRest
    exact ⟨newline :: others,
      lex?_of_begins (next?_newline_iff.mpr (.inr (.inl rfl))) readOthers, .refl _⟩

theorem exists_lex?_of_relaidAll {before after : Text} {tokens : List Token}
    (relaid : Relation.ReflTransGen Relaid before after) (read : lex? before = some tokens) :
    ∃ tokens', lex? after = some tokens' ∧ SpacedAlike tokens' tokens := by
  induction relaid with
  | refl => exact ⟨tokens, read, .refl tokens⟩
  | tail _ step ih =>
    obtain ⟨between, readBetween, alike⟩ := ih
    obtain ⟨tokens', read', alike'⟩ := exists_lex?_of_relaid step readBetween
    exact ⟨tokens', read', alike'.trans alike⟩

/-- A change of the layout is one also behind more text. -/
theorem Relaid.cons (c : Char) {before after : Text} (relaid : Relaid before after) :
    Relaid (c :: before) (c :: after) := by
  cases relaid with
  | comment front comment rest within lineEnd =>
    exact .comment (c :: front) comment rest within lineEnd
  | double front lineBreak rest known => exact .double (c :: front) lineBreak rest known
  | carriage front rest => exact .carriage (c :: front) rest

theorem relaidAll_withCarriages (text : Text) :
    Relation.ReflTransGen Relaid text (withCarriages text) := by
  induction text with
  | nil => exact .refl
  | cons c text ih =>
    have behind := ih.lift (c :: ·) fun _ _ step => step.cons c
    rw [withCarriages, List.flatMap_cons, ← withCarriages]
    split_ifs with feed
    · subst feed
      exact behind.tail (.carriage [] (withCarriages text))
    · exact behind

/-- Texts that differ in their layout only are parsed alike: texts with the same tokens once line
breaks are tidied up, a text and what changes at its line breaks make of it, and so a text with line
feeds and the one with carriage returns in front of them. -/
theorem parse_alike :
    (∀ first second tokens tokens', lex? first = some tokens → lex? second = some tokens' →
        tidy tokens = tidy tokens' → Alike (parse first) (parse second)) ∧
      (∀ before after tokens, lex? before = some tokens →
        Relation.ReflTransGen Relaid before after → Alike (parse before) (parse after)) ∧
      ∀ text tokens, lex? text = some tokens →
        Alike (parse text) (parse (withCarriages text)) := by
  have changed (before after : Text) (tokens : List Token) (read : lex? before = some tokens)
      (relaid : Relation.ReflTransGen Relaid before after) :
      Alike (parse before) (parse after) := by
    obtain ⟨tokens', read', alike⟩ := exists_lex?_of_relaidAll relaid read
    exact alike_of_spacing read read' (alike true).symm
  refine ⟨?_, changed, ?_⟩
  · intro first second tokens tokens' read read' same
    exact alike_of_spacing read read' (by rw [← spacing_tidy tokens, same, spacing_tidy])
  · intro text tokens read
    exact changed text (withCarriages text) tokens read (relaidAll_withCarriages text)

/-- A small table, the same one with comments and carriage returns, and a comment added to it. -/
theorem parse_alike_commented :
    lex? "[plugins.a]\nglobal = \"#x\"".toList =
        some [mark '[', word "plugins".toList, mark '.', word "a".toList, mark ']', newline,
          word "global".toList, mark '=', quoted "#x".toList] ∧
      Alike (parse "[plugins.a]\nglobal = \"#x\"".toList)
        (parse "# top\r\n[plugins.a] # a\r\rglobal=\"#x\"\n".toList) ∧
      Alike (parse "[plugins.a]\nglobal = \"#x\"".toList)
        (parse "[plugins.a]#a\nglobal = \"#x\"".toList) ∧
      Alike (parse "[plugins.a]\nglobal = \"#x\"".toList)
        (parse "[plugins.a]\r\nglobal = \"#x\"".toList) := by
  have read : lex? "[plugins.a]\nglobal = \"#x\"".toList =
      some [mark '[', word "plugins".toList, mark '.', word "a".toList, mark ']', newline,
        word "global".toList, mark '=', quoted "#x".toList] := by decide +kernel
  refine ⟨read, parse_alike.1 _ _ _ [newline, mark '[', word "plugins".toList, mark '.',
      word "a".toList, mark ']', newline, newline, word "global".toList, mark '=',
      quoted "#x".toList, newline] read (by decide +kernel) (by decide), ?_, parse_alike.2.2 _ _ read⟩
  exact parse_alike.2.1 _ _ _ read
    (.single (.comment "[plugins.a]".toList ['a'] "\nglobal = \"#x\"".toList rfl
      (by rintro _ ⟨⟩; rfl)))

end PluginScript.Table
