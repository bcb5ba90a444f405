import PluginScript.Proofs.SectionEntries
import PluginScript.Proofs.TableLanguage

/-! # Printed tables are read back

The text of a table is made of spelt tokens (`Spells`), and these tokens are a layout of its
sections, so that the sections are read back whatever stands in their strings: signs of comments,
brackets, keywords and blanks are characters like any others there. Conversely, whatever was read
can be written down: words and strings are made of the characters that they may hold. A table is
therefore read back from its text exactly if its entries can be written down
(`parse_print_iff`).
-/

namespace PluginScript.Table

open Token Layout
open scoped Computability

/-! ## Spelt tokens -/

namespace Token

/-- A text that reads as certain tokens, whatever comes behind it. -/
def Spells (text : Text) (tokens : List Token) : Prop :=
  ∀ rest, lex? (text ++ rest) = (lex? rest).map fun more => tokens ++ more

private theorem spells_of_next? {text : Text} {token : Token}
    (found : ∀ rest, next? (text ++ rest) = some (token, rest)) : Spells text [token] := by
  intro rest
  rw [lex?_of_next? (by rw [skipGap_of_next? (found rest), found rest])]
  rfl

private theorem spells_mark {c : Char} (marked : isMark c = true) : Spells [c] [mark c] :=
  spells_of_next? fun _ => next?_mark_iff.mpr ⟨marked, rfl⟩

private theorem spells_feed : Spells ['\n'] [newline] :=
  spells_of_next? fun _ => next?_newline_iff.mpr (.inl rfl)

private theorem spells_quote {content : Text} (all : content.all isContent = true) :
    Spells (quote content) [quoted content] := by
  apply spells_of_next?
  intro rest
  refine next?_quoted_iff.mpr ⟨all, ?_⟩
  rw [quote, List.cons_append, List.append_assoc, List.singleton_append]

private theorem spells_space : Spells [' '] [] := by
  intro rest
  have dropped : skipGap (' ' :: rest) = skipGap rest := skipGap_cons_of_isSpace rfl rest
  simp only [List.singleton_append, List.nil_append, Option.map_id']
  rw [← lex?_skipGap, dropped, lex?_skipGap]

namespace Spells

variable {first second : Text} {front back : List Token}

theorem nil : Spells [] [] := by
  intro rest
  simp only [List.nil_append, Option.map_id']

theorem append (here : Spells first front) (there : Spells second back) :
    Spells (first ++ second) (front ++ back) := by
  intro rest
  rw [List.append_assoc, here, there, Option.map_map]
  simp only [Function.comp_def, List.append_assoc]

/-- Behind a word, something else has to follow. -/
private theorem word_append {word : Text} (isWord : word.isWord = true) {c : Char}
    (other : Text.isWordChar c = false) (there : Spells (c :: second) back) :
    Spells (word ++ c :: second) (.word word :: back) := by
  intro rest
  have found : next? (word ++ (c :: second ++ rest)) = some (.word word, c :: second ++ rest) :=
    next?_word_iff.mpr ⟨isWord, rfl, by rintro _ ⟨⟩; exact other⟩
  rw [List.append_assoc, lex?_of_next? (by rw [skipGap_of_next? found, found]), there,
    Option.map_map]
  rfl

theorem flatMap {α : Type} {values : List α} {texts : α → Text} {spelt : α → List Token}
    (each : ∀ value ∈ values, Spells (texts value) (spelt value)) :
    Spells (values.flatMap texts) (values.flatMap spelt) := by
  induction values with
  | nil => exact nil
  | cons value values ih =>
    rw [List.forall_mem_cons] at each
    rw [List.flatMap_cons, List.flatMap_cons]
    exact each.1.append (ih each.2)

end Spells

end Token

/-! ## Printed sections -/

theorem intercalate_cons {α : Type} (separator first : List α) (others : List (List α)) :
    List.intercalate separator (first :: others) =
      first ++ others.flatMap fun other => separator ++ other := by
  induction others generalizing first with
  | nil => rw [List.intercalate_singleton, List.flatMap_nil, List.append_nil]
  | cons other others ih =>
    rw [List.intercalate_cons_cons, ih, List.flatMap_cons]
    simp only [List.append_assoc]

/-- The tokens of a list of strings, without its brackets. -/
def methodTokens : List Text → List Token
  | [] => []
  | first :: others => quoted first :: others.flatMap fun method => [mark ',', quoted method]

/-- The tokens of a line. -/
def Line.tokens : Line → List Token
  | .global name => [word "global".toList, mark '=', quoted name]
  | .indexers methods =>
    [word "indexers".toList, mark '=', mark '['] ++ methodTokens methods ++ [mark ']']
  | .enabled value => [word "enabled".toList, mark '=', word (truth value)]

/-- The tokens of a section. -/
def Section.tokens (declared : Section) : List Token :=
  [mark '[', word "plugins".toList, mark '.', word declared.owner.name, mark ']', newline] ++
    declared.lines.flatMap fun line => line.tokens ++ [newline]

private theorem spells_assign {keyword value : Text} (isWord : keyword.isWord = true)
    {tokens : List Token} (spelt : Spells value tokens) :
    Spells (assign keyword value) (word keyword :: mark '=' :: tokens) := by
  have equals := (spells_space.append (spells_mark (by decide : isMark '=' = true))).append
    (spells_space.append spelt)
  have whole := equals.word_append isWord (by decide)
  rwa [assign, List.append_assoc]

private theorem spells_printMethods {methods : List Text}
    (all : ∀ method ∈ methods, method.all isContent = true) :
    Spells (printMethods methods) ([mark '['] ++ methodTokens methods ++ [mark ']']) := by
  refine ((spells_mark (by decide)).append ?_).append (spells_mark (by decide))
  cases methods with
  | nil => exact Spells.nil
  | cons first others =>
    rw [List.forall_mem_cons] at all
    rw [List.map_cons, intercalate_cons, List.flatMap_map]
    refine (spells_quote all.1).append (Spells.flatMap fun method member => ?_)
    have separator := (spells_mark (by decide : isMark ',' = true)).append spells_space
    exact separator.append (spells_quote (all.2 method member))

/-- A line that can be written down spells its tokens, with the line break behind it. -/
private theorem spells_line {line : Line}
    (strings : ∀ content ∈ line.strings, content.all isContent = true) :
    Spells (line.print ++ ['\n']) (line.tokens ++ [newline]) := by
  cases line with
  | global name =>
    have value := spells_quote (strings name List.mem_cons_self)
    exact (spells_assign (by decide) value).append spells_feed
  | indexers methods =>
    have value := spells_printMethods strings
    exact (spells_assign (by decide) value).append spells_feed
  | enabled value =>
    have truth := spells_feed.word_append (isWord_truth value) (by decide)
    rw [Line.print, assign, List.append_assoc]
    exact spells_assign (by decide) truth

private theorem spells_section {declared : Section} (writable : declared.Writable) :
    Spells declared.print declared.tokens := by
  have closing := (spells_mark (by decide : isMark ']' = true)).append spells_feed
  have owner := closing.word_append writable.owner (by decide)
  have dot := (spells_mark (by decide : isMark '.' = true)).append owner
  have plugins := dot.word_append (by decide : Text.isWord "plugins".toList = true) (by decide)
  have header := (spells_mark (by decide : isMark '[' = true)).append plugins
  have lines := Spells.flatMap fun line member => spells_line (writable.strings line member)
  exact header.append lines

/-! ## The layout that is printed -/

private theorem flatMap_mem_prod {α : Type} {values : List α} {spelt : α → List Token}
    {layouts : α → Language Token} (each : ∀ value, spelt value ∈ layouts value) :
    values.flatMap spelt ∈ (values.map layouts).prod := by
  induction values with
  | nil => exact Language.nil_mem_one
  | cons value values ih => exact Language.append_mem_mul (each value) ih

private theorem methodTokens_mem (methods : List Text) :
    methodTokens methods ∈ methodsOf methods := by
  cases methods with
  | nil => exact Language.nil_mem_one
  | cons first others =>
    have further : (others.flatMap fun method => [mark ',', quoted method]) ∈
        (others.map fun method => ({[mark ',', quoted method]} : Language Token)).prod :=
      flatMap_mem_prod fun _ => rfl
    have ending : [] ∈ (1 + {[mark ',']} : Language Token) := .inl Language.nil_mem_one
    have whole := Language.append_mem_mul
      (Language.append_mem_mul (mem_singleton_self [quoted first]) further) ending
    rwa [List.append_nil] at whole

private theorem tokens_mem_lineOf (line : Line) : line.tokens ∈ lineOf line := by
  match line with
  | .global _ => rfl
  | .indexers methods =>
    exact Language.append_mem_mul
      (Language.append_mem_mul (mem_singleton_self _) (methodTokens_mem methods))
      (mem_singleton_self _)
  | .enabled true => rfl
  | .enabled false => rfl

/-- Line breaks behind the lines, and one behind the header, are as good as line breaks in front of
the lines, and one behind all of them. -/
private theorem newline_cons_flatMap (lines : List Line) :
    (newline :: lines.flatMap fun line => line.tokens ++ [newline]) =
      (lines.flatMap fun line => newline :: line.tokens) ++ [newline] := by
  induction lines with
  | nil => rfl
  | cons line lines ih =>
    rw [List.flatMap_cons, List.flatMap_cons, List.append_assoc, List.singleton_append, ih]
    simp only [List.cons_append, List.append_assoc]

private theorem tokens_mem_blockOf (declared : Section) :
    declared.tokens ∈ blockOf declared * breaks := by
  have lines : (declared.lines.flatMap fun line => newline :: line.tokens) ∈
      linesOf declared.lines :=
    flatMap_mem_prod fun line => Language.append_mem_mul newline_mem_break (tokens_mem_lineOf line)
  have whole := Language.append_mem_mul
    (Language.append_mem_mul (mem_singleton_self _ : _ ∈ headerOf declared.owner) lines)
    newline_mem_breaks
  rw [List.append_assoc, ← newline_cons_flatMap] at whole
  exact whole

/-- Sections that can be written down are read back from their text. -/
theorem sections_printSections {declared : List Section}
    (writable : ∀ one ∈ declared, one.Writable) :
    sections (printSections declared) = .ok declared := by
  have spelt := Spells.flatMap fun one member => spells_section (writable one member)
  have layout : (declared.flatMap Section.tokens) ∈ tableOf declared :=
    Language.append_mem_mul nil_mem_breaks (flatMap_mem_prod tokens_mem_blockOf)
  have read := spelt []
  rw [List.append_nil, lex?_nil, Option.map_some, List.append_nil] at read
  exact sections_eq_ok_iff.mpr ⟨_, layout, read⟩

/-! ## What is read can be written down -/

/-- A token that some text spells. -/
def Token.Sound : Token → Prop
  | .word text => text.isWord = true
  | .quoted content => content.all isContent = true
  | .mark _ | .newline => True

private theorem sound_of_lex? {text : Text} {tokens : List Token} (read : lex? text = some tokens) :
    ∀ token ∈ tokens, token.Sound := by
  induction tokens generalizing text with
  | nil => exact fun _ member => (List.not_mem_nil member).elim
  | cons token tokens ih =>
    obtain ⟨later, found, read⟩ := lex?_eq_cons_iff.mp read
    rw [List.forall_mem_cons]
    refine ⟨?_, ih read⟩
    cases token with
    | word text => exact (next?_word_iff.mp found).1
    | quoted content => exact (next?_quoted_iff.mp found).1
    | mark c => trivial
    | newline => trivial

private theorem quoted_mem_of_mem_methodsOf {methods : List Text} {tokens : List Token}
    (layout : tokens ∈ methodsOf methods) : ∀ method ∈ methods, quoted method ∈ tokens := by
  cases methods with
  | nil => exact fun _ member => (List.not_mem_nil member).elim
  | cons first others =>
    obtain ⟨_, ⟨_, rfl, further, spelt, rfl⟩, ending, -, rfl⟩ := layout
    rw [List.forall_mem_cons]
    refine ⟨List.mem_cons_self, fun method member => ?_⟩
    refine List.mem_append_left _ (List.mem_cons_of_mem _ ?_)
    induction others generalizing further with
    | nil => cases member
    | cons other others ih =>
      obtain ⟨_, rfl, back, spelt, rfl⟩ := spelt
      rcases List.mem_cons.mp member with rfl | member
      · exact List.mem_cons_of_mem _ List.mem_cons_self
      · exact List.mem_append_right [mark ',', quoted other] (ih back spelt member)

private theorem quoted_mem_of_mem_lineOf {line : Line} {tokens : List Token}
    (layout : tokens ∈ lineOf line) :
    ∀ content ∈ line.strings, quoted content ∈ tokens := by
  cases line with
  | global name =>
    cases layout
    intro content member
    rw [List.mem_singleton.mp member]
    exact .tail _ (.tail _ (.head _))
  | indexers methods =>
    obtain ⟨_, ⟨_, rfl, spelt, methods, rfl⟩, _, rfl, rfl⟩ := layout
    intro content member
    have found := quoted_mem_of_mem_methodsOf methods content member
    exact List.mem_append_left _ (List.mem_append_right _ found)
  | enabled value => exact fun _ member => (List.not_mem_nil member).elim

private theorem writable_of_mem_blockOf {declared : Section} {tokens : List Token}
    (layout : tokens ∈ blockOf declared) (sound : ∀ token ∈ tokens, token.Sound) :
    declared.Writable := by
  obtain ⟨_, rfl, spelt, layout, rfl⟩ := layout
  refine ⟨sound _ (.tail _ (.tail _ (.tail _ (.head _)))), ?_⟩
  replace sound token member := sound token (List.mem_append_right _ member)
  obtain ⟨owner, lines⟩ := declared
  change spelt ∈ linesOf lines at layout
  induction lines generalizing spelt with
  | nil => exact fun _ member => (List.not_mem_nil member).elim
  | cons line lines ih =>
    obtain ⟨_, ⟨_, ⟨_, rfl, _, _, rfl⟩, here, layout, rfl⟩, later, layouts, rfl⟩ := layout
    rw [List.forall_mem_cons]
    refine ⟨fun content member => ?_, ih later (fun token member => ?_) layouts⟩
    · have found := quoted_mem_of_mem_lineOf layout content member
      exact sound (quoted content) (List.mem_append_left _ (List.mem_append_right _ found))
    · exact sound token (List.mem_append_right _ member)

theorem writable_of_mem_tableOf {declared : List Section} {tokens : List Token}
    (layout : tokens ∈ tableOf declared) (sound : ∀ token ∈ tokens, token.Sound) :
    ∀ one ∈ declared, one.Writable := by
  obtain ⟨_, -, spelt, layout, rfl⟩ := layout
  replace sound token member := sound token (List.mem_append_right _ member)
  induction declared generalizing spelt with
  | nil => exact fun _ member => (List.not_mem_nil member).elim
  | cons one declared ih =>
    obtain ⟨_, ⟨here, block, _, -, rfl⟩, later, blocks, rfl⟩ := layout
    rw [List.forall_mem_cons]
    refine ⟨writable_of_mem_blockOf block fun token member => ?_,
      ih later blocks fun token member => ?_⟩
    · exact sound token (List.mem_append_left _ (List.mem_append_left _ member))
    · exact sound token (List.mem_append_right _ member)

/-- The sections that are read off a text can be written down. -/
theorem writable_of_sections {text : Text} {declared : List Section}
    (read : sections text = .ok declared) : ∀ one ∈ declared, one.Writable := by
  obtain ⟨tokens, layout, spelt⟩ := sections_eq_ok_iff.mp read
  exact writable_of_mem_tableOf layout (sound_of_lex? spelt)

/-- The entries that are read off a text can be written down. -/
theorem writable_of_parse {text : Text} {table : Table} (read : parse text = .ok table) :
    ∀ entry ∈ table.entries, entry.Writable := by
  obtain ⟨declared, found, made⟩ := bind_eq_ok read
  exact writable_of_ofSections (writable_of_sections found) made

private theorem writable_toSection {entry : Entry} (writable : entry.Writable) :
    entry.toSection.Writable := by
  refine ⟨writable.owner, ?_⟩
  simp only [Entry.toSection, List.forall_mem_cons, Line.strings]
  exact ⟨⟨writable.name, nofun⟩, writable.indexers, nofun, nofun⟩

/-- A table is read back from its text, with the same entries in the same order, if and only if its
owners are words, its strings have neither quotes nor line breaks, and no entry has an indexer
twice. -/
theorem parse_print_iff (table : Table) :
    parse table.print = .ok table ↔ ∀ entry ∈ table.entries, entry.Writable := by
  refine ⟨writable_of_parse, fun writable => ?_⟩
  have read : sections table.print = .ok (table.entries.map Entry.toSection) := by
    apply sections_printSections
    rw [List.forall_mem_map]
    exact fun entry member => writable_toSection (writable entry member)
  have made : ofSections (table.entries.map Entry.toSection) = .ok table := by
    rw [ofSections_eq_ok_iff, List.forall₂_map_left_iff, List.forall₂_same]
    exact fun entry member => entry_toSection (writable entry member).distinct
  rw [parse, read]
  exact made

end PluginScript.Table
