import PluginScript.Arguments.Literals
import PluginScript.Proofs.ListEnds
import PluginScript.Proofs.Marking

/-! # String literals of a marked list

Marking a list turns all its double quotes, wherever they stand. Where no string holds a quote of
the other kind, a reader of the turned list goes along with a reader of the list and finds the same
strings, now all in single quotes (`singleQuoted_feed`). Where a string does hold one, its content
does not survive, since what a reader finds between single quotes holds no quote at all
(`sound_feed`). So the call keeps its literals exactly if none of them holds a quote
(`ofText_mark_iff`), and an apostrophe in a double-quoted string leaves a list that passes another
string and does not even close its last one (`ofText_mark_apostrophe`).
-/

namespace PluginScript.Arguments

/-- A text without quotes. -/
def Unquoted (text : Text) : Prop :=
  ∀ quote : Quote, quote.char ∉ text

private theorem unquoted_iff {text : Text} : Unquoted text ↔ '\'' ∉ text ∧ '"' ∉ text := by
  refine ⟨fun unquoted => ⟨unquoted .single, unquoted .double⟩, fun absent quote => ?_⟩
  cases quote
  · exact absent.1
  · exact absent.2

instance (text : Text) : Decidable (Unquoted text) :=
  decidable_of_iff _ unquoted_iff.symm

theorem unquoted_nil : Unquoted [] := fun _ => List.not_mem_nil

theorem unquoted_append {first second : Text} :
    Unquoted (first ++ second) ↔ Unquoted first ∧ Unquoted second := by
  simp only [Unquoted, List.mem_append, not_or, forall_and]

theorem unquoted_of_word {word : Text} (isWord : word.all Text.isWordChar = true) :
    Unquoted word := by
  intro quote member
  have isWordChar := List.all_eq_true.mp isWord _ member
  cases quote <;> exact absurd isWordChar (by decide)

theorem unquoted_of_blank {blanks : Text} (blank : blanks.all Text.isBlank = true) :
    Unquoted blanks := by
  intro quote member
  have isBlank := List.all_eq_true.mp blank _ member
  cases quote <;> exact absurd isBlank (by decide)

namespace Quote

theorem exists_char_eq_iff {c : Char} : (∃ quote : Quote, quote.char = c) ↔ c = '"' ∨ c = '\'' := by
  constructor
  · rintro ⟨_ | _, rfl⟩
    · exact .inr rfl
    · exact .inl rfl
  · rintro (rfl | rfl)
    · exact ⟨.double, rfl⟩
    · exact ⟨.single, rfl⟩

theorem isBlank_char (quote : Quote) : Text.isBlank quote.char = false := by
  cases quote <;> decide

theorem char_injective : Function.Injective char := by
  intro first second same
  cases first <;> cases second <;> first | rfl | exact absurd same (by decide)

private theorem ofChar?_char (quote : Quote) : ofChar? quote.char = some quote := by
  cases quote <;> rfl

/-- A character is no quote exactly if it stands for neither. -/
private theorem ofChar?_eq_none_iff {c : Char} : ofChar? c = none ↔ Unquoted [c] := by
  simp only [Unquoted, List.mem_singleton]
  unfold ofChar?
  constructor
  · intro other quote same
    subst same
    cases quote <;> contradiction
  · intro other
    have notSingle : c ≠ '\'' := Ne.symm (other .single)
    have notDouble : c ≠ '"' := Ne.symm (other .double)
    rw [if_neg notSingle, if_neg notDouble]

end Quote

namespace QuoteReader

variable {reader : QuoteReader} {literals : List Text} {quote : Quote} {content text : Text}
  {c : Char}

@[simp] theorem feed_nil : reader.feed [] = reader := rfl

@[simp] theorem feed_cons : reader.feed (c :: text) = (reader.next c).feed text := rfl

private theorem feed_singleton : reader.feed [c] = reader.next c := rfl

theorem feed_append (reader : QuoteReader) (first second : Text) :
    reader.feed (first ++ second) = (reader.feed first).feed second :=
  List.foldl_append

theorem next_opening : next ⟨literals, none⟩ quote.char = ⟨literals, some (quote, [])⟩ := by
  rw [next, Quote.ofChar?_char]
  rfl

theorem next_closing :
    next ⟨literals, some (quote, content)⟩ quote.char = ⟨literals ++ [content], none⟩ :=
  if_pos rfl

private theorem next_inside (other : c ≠ quote.char) :
    next ⟨literals, some (quote, content)⟩ c = ⟨literals, some (quote, content ++ [c])⟩ :=
  if_neg other

/-- Outside of all strings nothing but a quote makes a difference. -/
theorem feed_outside (unquoted : Unquoted text) :
    feed ⟨literals, none⟩ text = ⟨literals, none⟩ := by
  induction text with
  | nil => rfl
  | cons c text ih =>
    obtain ⟨here, behind⟩ := unquoted_append.mp (show Unquoted ([c] ++ text) from unquoted)
    rw [feed_cons, next, Quote.ofChar?_eq_none_iff.mpr here]
    exact ih behind

/-- A string goes on up to its quote. -/
theorem feed_inside (absent : quote.char ∉ text) :
    feed ⟨literals, some (quote, content)⟩ text = ⟨literals, some (quote, content ++ text)⟩ := by
  induction text generalizing content with
  | nil => rw [feed_nil, List.append_nil]
  | cons c text ih =>
    rw [List.mem_cons, not_or] at absent
    rw [feed_cons, next_inside (Ne.symm absent.1), ih absent.2, List.append_assoc,
      List.singleton_append]

/-- A quoted text is a string. -/
private theorem feed_quoted (quote : Quote) (absent : quote.char ∉ text) (rest : Text) :
    feed ⟨literals, none⟩ (quote.char :: (text ++ quote.char :: rest)) =
      feed ⟨literals ++ [text], none⟩ rest := by
  rw [feed_cons, next_opening, feed_append, feed_inside absent, feed_cons, List.nil_append,
    next_closing]

/-! ## Strings without quotes -/

/-- No string that the reader has passed, and not the one it stands in, holds a quote. -/
structure Plain (reader : QuoteReader) : Prop where
  literals : ∀ literal ∈ reader.literals, Unquoted literal
  current : ∀ string ∈ reader.current, Unquoted string.2

theorem plain_iff {current : Option (Quote × Text)} :
    Plain ⟨literals, current⟩ ↔
      (∀ literal ∈ literals, Unquoted literal) ∧ ∀ string ∈ current, Unquoted string.2 :=
  ⟨fun plain => ⟨plain.literals, plain.current⟩, fun parts => ⟨parts.1, parts.2⟩⟩

private theorem plain_outside :
    Plain ⟨literals, none⟩ ↔ ∀ literal ∈ literals, Unquoted literal := by
  rw [plain_iff, and_iff_left]
  exact fun _ member => (Option.not_mem_none _ member).elim

private theorem plain_inside : Plain ⟨literals, some (quote, content)⟩ ↔
    (∀ literal ∈ literals, Unquoted literal) ∧ Unquoted content := by
  rw [plain_iff]
  simp only [Option.mem_some_iff, forall_eq']

/-- Strings only grow, so a quote in one of them stays. -/
private theorem plain_of_next (plain : (reader.next c).Plain) : reader.Plain := by
  obtain ⟨literals, current⟩ := reader
  rcases current with _ | ⟨quote, content⟩
  · exact plain_outside.mpr plain.literals
  · by_cases closing : c = quote.char
    · subst closing
      rw [next_closing, plain_outside, List.forall_mem_append, List.forall_mem_singleton] at plain
      exact plain_inside.mpr plain
    · rw [next_inside closing, plain_inside, unquoted_append] at plain
      exact plain_inside.mpr ⟨plain.1, plain.2.1⟩

private theorem plain_of_feed (plain : (reader.feed text).Plain) : reader.Plain := by
  induction text generalizing reader with
  | nil => exact plain
  | cons c text ih => exact plain_of_next (ih plain)

/-! ## Turned quotes -/

/-- A reader that has found the same strings in single quotes. -/
def singleQuoted (reader : QuoteReader) : QuoteReader :=
  ⟨reader.literals, reader.current.map fun string => (.single, string.2)⟩

/-- While no string holds a quote, turning the quotes turns the string that a reader stands in. -/
private theorem singleQuoted_next (plain : (reader.next c).Plain) :
    (reader.next c).singleQuoted = reader.singleQuoted.next (singleQuote c) := by
  obtain ⟨literals, current⟩ := reader
  rcases current with _ | ⟨quote, content⟩
  · by_cases isQuote : Unquoted [c]
    · have notDouble : c ≠ '"' := fun double => isQuote .double (double ▸ List.mem_singleton_self _)
      rw [singleQuote_of_ne notDouble]
      simp only [next, singleQuoted, Option.map_none, Quote.ofChar?_eq_none_iff.mpr isQuote]
    · simp only [Unquoted, List.mem_singleton, not_forall, not_not] at isQuote
      obtain ⟨quote, rfl⟩ := isQuote
      have turned : singleQuote quote.char = Quote.single.char := by cases quote <;> decide
      rw [turned, next_opening]
      exact next_opening.symm
  · by_cases closing : c = quote.char
    · subst closing
      have turned : singleQuote quote.char = Quote.single.char := by cases quote <;> decide
      rw [turned, next_closing]
      exact next_closing.symm
    · rw [next_inside closing, plain_inside, unquoted_append] at plain
      have here := plain.2.2
      simp only [Unquoted, List.mem_singleton] at here
      rw [next_inside closing, singleQuote_of_ne (Ne.symm (here .double))]
      exact (next_inside (Ne.symm (here .single))).symm

private theorem singleQuoted_feed (plain : (reader.feed text).Plain) :
    (reader.feed text).singleQuoted = reader.singleQuoted.feed (Arguments.singleQuoted text) := by
  induction text generalizing reader with
  | nil => rfl
  | cons c text ih =>
    rw [feed_cons, ih plain, singleQuoted_next (plain_of_feed plain), singleQuoted_cons, feed_cons]

/-- What a reader finds where there are no double quotes. -/
structure Sound (reader : QuoteReader) : Prop where
  plain : reader.Plain
  single : ∀ string ∈ reader.current, string.1 = Quote.single

private theorem sound_outside :
    Sound ⟨literals, none⟩ ↔ ∀ literal ∈ literals, Unquoted literal := by
  rw [← plain_outside]
  exact ⟨Sound.plain, fun plain => ⟨plain, fun _ member => (Option.not_mem_none _ member).elim⟩⟩

private theorem sound_inside : Sound ⟨literals, some (.single, content)⟩ ↔
    (∀ literal ∈ literals, Unquoted literal) ∧ Unquoted content := by
  rw [← plain_inside]
  refine ⟨Sound.plain, fun plain => ⟨plain, ?_⟩⟩
  simp only [Option.mem_some_iff, forall_eq']

/-- Where there are no double quotes, no quote stands in a string. -/
private theorem sound_next (sound : reader.Sound) (notDouble : c ≠ '"') :
    (reader.next c).Sound := by
  obtain ⟨literals, current⟩ := reader
  have kind : c = Quote.single.char ∨ Unquoted [c] := by
    by_cases isSingle : c = Quote.single.char
    · exact .inl isSingle
    · refine .inr fun quote member => ?_
      rw [List.mem_singleton] at member
      cases quote
      · exact isSingle member.symm
      · exact notDouble member.symm
  rcases current with _ | ⟨quote, content⟩
  · rw [sound_outside] at sound
    rcases kind with rfl | unquoted
    · rw [next_opening]
      exact sound_inside.mpr ⟨sound, unquoted_nil⟩
    · rw [← feed_singleton, feed_outside unquoted]
      exact sound_outside.mpr sound
  · cases sound.single _ rfl
    rw [sound_inside] at sound
    rcases kind with rfl | unquoted
    · rw [next_closing, sound_outside, List.forall_mem_append, List.forall_mem_singleton]
      exact sound
    · rw [← feed_singleton, feed_inside (unquoted .single), sound_inside, unquoted_append]
      exact ⟨sound.1, sound.2, unquoted⟩

private theorem sound_feed (sound : reader.Sound) (noDouble : '"' ∉ text) :
    (reader.feed text).Sound := by
  induction text generalizing reader with
  | nil => exact sound
  | cons c text ih =>
    rw [List.mem_cons, not_or] at noDouble
    exact ih (sound_next sound (Ne.symm noDouble.1)) noDouble.2

end QuoteReader

/-! ## Marked lists -/

private theorem not_mem_singleQuoted (text : Text) : '"' ∉ singleQuoted text := by
  intro member
  obtain ⟨c, -, turned⟩ := List.mem_map.mp member
  exact singleQuote_ne c turned

theorem QuoteReader.ofText_append (first second : Text) :
    QuoteReader.ofText (first ++ second) = (QuoteReader.ofText first).feed second :=
  QuoteReader.feed_append _ first second

/-- The closing parenthesis of a list belongs to no string if all strings of the list are closed. -/
theorem QuoteReader.ofText_of_paired {front : Text}
    (paired : (QuoteReader.ofText (front ++ [')'])).current = none) :
    QuoteReader.ofText front = QuoteReader.ofText (front ++ [')']) := by
  have unquoted : Unquoted [')'] := by decide
  rw [QuoteReader.ofText_append] at paired ⊢
  generalize QuoteReader.ofText front = reader at paired ⊢
  obtain ⟨literals, _ | ⟨quote, content⟩⟩ := reader
  · rw [QuoteReader.feed_outside unquoted]
  · rw [QuoteReader.feed_inside (unquoted quote)] at paired
    contradiction

section Mark

variable {separator method : Text} (unquoted : Unquoted separator)
  (word : method.all Text.isWordChar = true)
include unquoted word

/-- What marking writes behind the strings of a list is one string more. -/
private theorem QuoteReader.feed_mark (literals : List Text) :
    feed ⟨literals, none⟩ (separator ++ '"' :: (method ++ ['"', ')'])) =
      ⟨literals ++ [method], none⟩ := by
  have closing : Unquoted [')'] := by decide
  rw [feed_append, feed_outside unquoted]
  exact (feed_quoted .double (unquoted_of_word word .double) _).trans (feed_outside closing)

/-- A string in single quotes does not end in what marking writes. -/
private theorem QuoteReader.current_feed_mark (literals : List Text) (content : Text) :
    (feed ⟨literals, some (.single, content)⟩
      (separator ++ '"' :: (method ++ ['"', ')']))).current ≠ none := by
  have absent : Quote.single.char ∉ separator ++ '"' :: (method ++ ['"', ')']) := by
    simp only [List.mem_append, List.mem_cons, List.not_mem_nil, or_false, not_or]
    exact ⟨unquoted .single, by decide, unquoted_of_word word .single, by decide, by decide⟩
  rw [feed_inside absent]
  exact Option.some_ne_none _

/-- When the quotes of a text are turned, its strings and the method behind them are read exactly
if no string holds a quote. -/
private theorem QuoteReader.feed_mark_singleQuoted_iff {front : Text}
    (paired : (ofText front).current = none) :
    (ofText (Arguments.singleQuoted front)).feed (separator ++ '"' :: (method ++ ['"', ')'])) =
        ⟨(ofText front).literals ++ [method], none⟩ ↔
      ∀ literal ∈ (ofText front).literals, Unquoted literal := by
  constructor
  · intro same
    have sound : (ofText (Arguments.singleQuoted front)).Sound :=
      sound_feed (sound_outside.mpr (List.forall_mem_nil _)) (not_mem_singleQuoted front)
    generalize ofText (Arguments.singleQuoted front) = reader at same sound
    obtain ⟨literals, _ | ⟨quote, content⟩⟩ := reader
    · rw [feed_mark unquoted word, QuoteReader.mk.injEq, List.append_left_inj] at same
      rw [← same.1]
      exact sound_outside.mp sound
    · cases sound.single _ rfl
      exact (current_feed_mark unquoted word literals content (congrArg current same)).elim
  · intro plain
    have whole : ofText front = ⟨(ofText front).literals, none⟩ := by rw [← paired]
    have turned : (ofText front).singleQuoted = ofText (Arguments.singleQuoted front) := by
      apply singleQuoted_feed
      change (ofText front).Plain
      rw [whole]
      exact plain_outside.mpr plain
    rw [← turned, whole]
    exact feed_mark unquoted word _

end Mark

/-- A marked list passes the literals that it passed before, followed by the method, exactly if
none of them holds a quote. -/
theorem ofText_mark_iff {text list rest method : Text} (opens : text.head? = some '(')
    (cut : split? text = some (list, rest)) (paired : (QuoteReader.ofText list).current = none)
    (word : method.all Text.isWordChar = true) :
    QuoteReader.ofText (mark list method) = ⟨(QuoteReader.ofText list).literals ++ [method], none⟩ ↔
      ∀ literal ∈ (QuoteReader.ofText list).literals, Unquoted literal := by
  obtain ⟨inner, rfl⟩ := enclosed_of_split? opens cut
  rw [← List.cons_append] at paired ⊢
  have front := QuoteReader.ofText_of_paired paired
  rw [← front] at paired ⊢
  rw [mark, List.dropLast_concat]
  simp only [List.drop_one, List.tail_cons]
  split_ifs with blank
  · -- A list of blanks passes no literals before, and the method alone afterwards.
    have opening : Unquoted ['('] := by decide
    have unquoted : Unquoted (['('] ++ inner) :=
      unquoted_append.mpr ⟨opening, unquoted_of_blank blank⟩
    have nothing : QuoteReader.ofText ('(' :: inner) = ⟨[], none⟩ :=
      QuoteReader.feed_outside unquoted
    have marked := QuoteReader.feed_mark opening word []
    rw [nothing]
    refine iff_of_true ?_ (List.forall_mem_nil _)
    simpa only [QuoteReader.ofText, List.cons_append, List.nil_append, List.append_assoc]
      using marked
  · have separator : Unquoted [',', ' '] := by decide
    have marked := QuoteReader.feed_mark_singleQuoted_iff separator word paired
    rw [← QuoteReader.ofText_append] at marked
    simpa only [List.cons_append, List.nil_append, List.append_assoc] using marked

/-- Brackets and commas in strings, and two kinds of quotes. -/
theorem ofText_mark_two_kinds :
    split? "('a, (', \")\" .. x ) y".toList = some ("('a, (', \")\" .. x )".toList, " y".toList) ∧
      QuoteReader.ofText (mark "('a, (', \")\" .. x )".toList "say".toList) =
        ⟨["a, (".toList, ")".toList, "say".toList], none⟩ := by
  have cut : split? "('a, (', \")\" .. x ) y".toList =
      some ("('a, (', \")\" .. x )".toList, " y".toList) := by decide +kernel
  exact ⟨cut, (ofText_mark_iff (by decide) cut (by decide +kernel) (by decide)).mpr
    (by decide +kernel)⟩

/-- An apostrophe in a double-quoted string: the string ends at it, and what follows opens a string
that nothing closes. -/
theorem ofText_mark_apostrophe :
    split? "(\"it's\")".toList = some ("(\"it's\")".toList, []) ∧
      QuoteReader.ofText "(\"it's\")".toList = ⟨["it's".toList], none⟩ ∧
        QuoteReader.ofText (mark "(\"it's\")".toList "say".toList) =
          ⟨["it".toList], some (.single, ", \"say\")".toList)⟩ := by
  decide +kernel

end PluginScript.Arguments
