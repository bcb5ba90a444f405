import PluginScript.Arguments.Marking
import Mathlib.Data.List.DropRight
import Mathlib.Tactic.Common

/-! # The mark of an argument list

A closed list is marked with a method if a comma or its opening parenthesis, blanks, the quoted
method, blanks and the closing parenthesis stand at its end (`isMarked_iff`). So only the text
behind the last inner parenthesis matters (`isMarked_append`), a list is marked with one method
at most (`method_eq_of_isMarked`), `mark` leaves a marked list (`isMarked_mark`), and single quotes
in place of double ones keep a mark (`isMarked_singleQuoted`). They may create one, out of two
different quotes around a method, but not in a text with a single kind of quotes
(`isMarked_of_singleQuoted`).
-/

namespace PluginScript

namespace Text

theorem ne_of_isWordChar {c d : Char} (word : isWordChar c = true)
    (other : isWordChar d = false) : c ≠ d := by
  rintro rfl
  rw [word] at other
  contradiction

/-- No character of words is blank. -/
theorem isBlank_of_isWordChar {c : Char} (word : isWordChar c = true) : isBlank c = false := by
  have range : (48 ≤ c.toNat ∧ c.toNat ≤ 57) ∨ (65 ≤ c.toNat ∧ c.toNat ≤ 90) ∨
      c.toNat = 95 ∨ (97 ≤ c.toNat ∧ c.toNat ≤ 122) := by
    delta isWordChar Char.isAlphanum Char.isAlpha Char.isUpper Char.isLower Char.isDigit at word
    simp only [Bool.or_eq_true, Bool.and_eq_true, decide_eq_true_eq, beq_iff_eq,
      UInt32.le_iff_toNat_le, ge_iff_le] at word
    rcases word with ((upper | lower) | digit) | rfl
    · exact .inr (.inl upper)
    · exact .inr (.inr (.inr lower))
    · exact .inl digit
    · decide
  simp only [isBlank, blankRanges, List.any_cons, List.any_nil, Bool.or_false,
    Bool.or_eq_false_iff, Bool.and_eq_false_iff, decide_eq_false_iff_not]
  omega

theorem isWordChar_of_mem {word : Text} (isWord : word.isWord = true) {c : Char}
    (member : c ∈ word) : isWordChar c = true :=
  List.all_eq_true.mp (Bool.and_eq_true_iff.mp isWord).2 c member

/-- A word holds no characters but those of words. -/
theorem not_mem_of_isWord {word : Text} (isWord : word.isWord = true) {c : Char}
    (other : isWordChar c = false) : c ∉ word :=
  fun member => ne_of_isWordChar (isWordChar_of_mem isWord member) other rfl

theorem dropWhile_isBlank_append {blanks : Text} (blank : blanks.all isBlank = true) {c : Char}
    (solid : isBlank c = false) (rest : Text) :
    (blanks ++ c :: rest).dropWhile isBlank = c :: rest := by
  rw [List.dropWhile_append_of_pos (List.all_eq_true.mp blank)]
  exact List.dropWhile_cons_of_neg (Bool.eq_false_iff.mp solid)

/-- Blanks at the end of a text do not count for its trimmed form. -/
theorem trimEnd_append {blanks : Text} (blank : blanks.all isBlank = true) (text : Text) :
    trimEnd (text ++ blanks) = trimEnd text := by
  unfold trimEnd
  rw [List.reverse_append, List.dropWhile_append_of_pos]
  intro c member
  exact List.all_eq_true.mp blank c (List.mem_reverse.mp member)

theorem trimEnd_concat {c : Char} (solid : isBlank c = false) (text : Text) :
    trimEnd (text ++ [c]) = text ++ [c] :=
  List.rdropWhile_concat_neg isBlank text c (by rw [solid]; exact Bool.false_ne_true)

/-- A text is its trimmed form with blanks behind. -/
theorem exists_eq_trimEnd_append (text : Text) :
    ∃ blanks, text = trimEnd text ++ blanks ∧ blanks.all isBlank = true := by
  refine ⟨text.rtakeWhile isBlank, List.rdropWhile_append_rtakeWhile.symm, ?_⟩
  exact List.all_eq_true.mpr fun c member => List.mem_rtakeWhile_imp member

end Text

namespace Arguments

/-- Both kinds of quotes are recognised around the method at the end of a text. -/
private theorem dropQuoted?_or_eq_some_iff {method text before : Text} :
    (dropQuoted? '"' method text).or (dropQuoted? '\'' method text) = some before ↔
      ∃ quote, (quote = '"' ∨ quote = '\'') ∧ before ++ ([quote] ++ method ++ [quote]) = text := by
  simp only [Option.or_eq_some_iff, dropQuoted?, List.isSuffixOf?_eq_some_iff_append_eq]
  constructor
  · rintro (double | ⟨-, single⟩)
    · exact ⟨'"', .inl rfl, double⟩
    · exact ⟨'\'', .inr rfl, single⟩
  · rintro ⟨quote, rfl | rfl, ending⟩
    · exact .inl ending
    · refine .inr ⟨?_, ending⟩
      -- A text that ends in a single quote does not end in a double one.
      apply Option.eq_none_iff_forall_ne_some.mpr
      intro other found
      have same := congrArg List.getLast? (List.isSuffixOf?_eq_some_iff_append_eq.mp found)
      rw [← ending] at same
      simp only [← List.append_assoc, List.getLast?_concat] at same
      exact absurd (Option.some.inj same) (by decide)

/-- A list is marked if its last argument is the method in quotes. -/
theorem isMarked_iff {inner method : Text} {last : Char} :
    isMarked (inner ++ [last]) method = true ↔
      ∃ front separator gap quote blanks,
        inner = front ++ separator :: (gap ++ quote :: (method ++ quote :: blanks)) ∧
          (separator = ',' ∨ separator = '(') ∧ gap.all Text.isBlank = true ∧
            (quote = '"' ∨ quote = '\'') ∧ blanks.all Text.isBlank = true := by
  unfold isMarked
  simp only [List.dropLast_concat]
  constructor
  · intro marked
    obtain ⟨blanks, whole, blank⟩ := Text.exists_eq_trimEnd_append inner
    split at marked
    · contradiction
    · rename_i before found
      obtain ⟨gap, parts, gapBlank⟩ := Text.exists_eq_trimEnd_append before
      obtain ⟨quote, kind, ending⟩ := dropQuoted?_or_eq_some_iff.mp found
      split at marked
      · rename_i separator isLast
        obtain ⟨front, trimmed⟩ := List.getLast?_eq_some_iff.mp isLast
        refine ⟨front, separator, gap, quote, blanks, ?_, ?_, gapBlank, kind, blank⟩
        · rw [whole, ← ending, parts, trimmed]
          simp only [List.append_assoc, List.cons_append, List.nil_append]
        · simpa only [Bool.or_eq_true, beq_iff_eq] using marked
      · contradiction
  · rintro ⟨front, separator, gap, quote, blanks, rfl, isSeparator, gapBlank, kind, blank⟩
    have quoteSolid : Text.isBlank quote = false := by rcases kind with rfl | rfl <;> decide
    have separatorSolid : Text.isBlank separator = false := by
      rcases isSeparator with rfl | rfl <;> decide
    have trimmed : Text.trimEnd
        (front ++ separator :: (gap ++ quote :: (method ++ quote :: blanks))) =
          front ++ [separator] ++ gap ++ ([quote] ++ method ++ [quote]) := by
      have parts : front ++ separator :: (gap ++ quote :: (method ++ quote :: blanks)) =
          front ++ [separator] ++ gap ++ ([quote] ++ method) ++ [quote] ++ blanks := by
        simp only [List.append_assoc, List.cons_append, List.nil_append]
      rw [parts, Text.trimEnd_append blank, Text.trimEnd_concat quoteSolid, List.append_assoc]
    rw [trimmed, dropQuoted?_or_eq_some_iff.mpr ⟨quote, kind, rfl⟩]
    simp only [Text.trimEnd_append gapBlank, Text.trimEnd_concat separatorSolid,
      List.getLast?_concat, Bool.or_eq_true, beq_iff_eq]
    exact isSeparator

section Words

variable {method : Text} (word : method.isWord = true)
include word

/-- Neither the quoted method nor the blanks around it hold a character such as a parenthesis. -/
theorem not_mem_quoted {c quote : Char} {gap blanks : Text}
    (other : Text.isWordChar c = false) (solid : Text.isBlank c = false) (notQuote : c ≠ quote)
    (gapBlank : gap.all Text.isBlank = true) (blank : blanks.all Text.isBlank = true) :
    c ∉ gap ++ quote :: (method ++ quote :: blanks) := by
  have notBlank {text : Text} (allBlank : text.all Text.isBlank = true) : c ∉ text := by
    intro member
    rw [List.all_eq_true.mp allBlank c member] at solid
    contradiction
  have notWord : c ∉ method := Text.not_mem_of_isWord word other
  simp only [List.mem_append, List.mem_cons, not_or]
  exact ⟨notBlank gapBlank, notQuote, notWord, notQuote, notBlank blank⟩

/-- Whether a list is marked is told by the text from any of its inner parentheses on. -/
theorem isMarked_append {parenthesis last : Char} (front rest : Text)
    (kind : parenthesis = '(' ∨ parenthesis = ')') :
    isMarked (front ++ parenthesis :: rest ++ [last]) method =
      isMarked (parenthesis :: rest ++ [last]) method := by
  rw [Bool.eq_iff_iff, isMarked_iff, isMarked_iff]
  constructor
  · rintro ⟨before, separator, gap, quote, blanks, whole, isSeparator, gapBlank, isQuote, blank⟩
    have outside : parenthesis ∉ gap ++ quote :: (method ++ quote :: blanks) := by
      apply not_mem_quoted word _ _ _ gapBlank blank
      · rcases kind with rfl | rfl <;> decide
      · rcases kind with rfl | rfl <;> decide
      · rcases kind with rfl | rfl <;> rcases isQuote with rfl | rfl <;> decide
    -- The parenthesis stands in front of the quoted method, so the separator is behind it or is it.
    rw [List.append_cons before] at whole
    rcases List.append_eq_append_iff.mp whole with ⟨part, same, tail⟩ | ⟨part, -, tail⟩
    · rcases List.eq_nil_or_concat part with rfl | ⟨part, final, rfl⟩
      · rw [List.nil_append] at tail
        exact (outside (tail ▸ List.mem_cons_self)).elim
      · rw [List.concat_eq_append, ← List.append_assoc] at same
        obtain ⟨-, final_eq⟩ := List.append_inj' same rfl
        cases final_eq
        refine ⟨part, separator, gap, quote, blanks, ?_, isSeparator, gapBlank, isQuote, blank⟩
        rw [tail, List.concat_eq_append, List.append_assoc, List.singleton_append]
    · exact (outside (tail ▸ List.mem_append_right _ List.mem_cons_self)).elim
  · rintro ⟨before, separator, gap, quote, blanks, whole, facts⟩
    refine ⟨front ++ before, separator, gap, quote, blanks, ?_, facts⟩
    rw [whole, List.append_assoc]

/-- The method that a list is marked with can be read off its end. -/
private theorem takeWhile_reverse_of_marked {front gap blanks : Text} {separator quote : Char}
    (isQuote : quote = '"' ∨ quote = '\'') (blank : blanks.all Text.isBlank = true) :
    ((((front ++ separator :: (gap ++ quote :: (method ++ quote :: blanks))).reverse.dropWhile
      Text.isBlank).drop 1).takeWhile Text.isWordChar).reverse = method := by
  have quoteSolid : ¬ Text.isBlank quote = true := by rcases isQuote with rfl | rfl <;> decide
  have quoteOther : ¬ Text.isWordChar quote = true := by rcases isQuote with rfl | rfl <;> decide
  have reversed : (front ++ separator :: (gap ++ quote :: (method ++ quote :: blanks))).reverse =
      blanks.reverse ++
        quote :: (method.reverse ++ quote :: (front ++ separator :: gap).reverse) := by
    simp only [List.reverse_append, List.reverse_cons, List.append_assoc, List.cons_append,
      List.nil_append]
  rw [reversed, List.dropWhile_append_of_pos, List.dropWhile_cons_of_neg quoteSolid,
    List.drop_one, List.tail_cons, List.takeWhile_append_of_pos,
    List.takeWhile_cons_of_neg quoteOther, List.append_nil, List.reverse_reverse]
  · intro c member
    exact Text.isWordChar_of_mem word (List.mem_reverse.mp member)
  · intro c member
    exact List.all_eq_true.mp blank c (List.mem_reverse.mp member)

/-- A list is marked with one method at most. -/
theorem method_eq_of_isMarked {inner other : Text} {last : Char} (otherWord : other.isWord = true)
    (marked : isMarked (inner ++ [last]) method = true)
    (otherMarked : isMarked (inner ++ [last]) other = true) : method = other := by
  obtain ⟨front, separator, gap, quote, blanks, whole, -, -, isQuote, blank⟩ :=
    isMarked_iff.mp marked
  obtain ⟨front', separator', gap', quote', blanks', whole', -, -, isQuote', blank'⟩ :=
    isMarked_iff.mp otherMarked
  rw [← takeWhile_reverse_of_marked word isQuote blank, ← whole, whole',
    takeWhile_reverse_of_marked otherWord isQuote' blank']

end Words

/-- Marking leaves a marked list. -/
theorem isMarked_mark (list method : Text) : isMarked (mark list method) method = true := by
  unfold mark
  dsimp only
  split_ifs with blank
  · have shape : ['(', '"'] ++ method ++ ['"', ')'] =
        ([] ++ '(' :: ([] ++ '"' :: (method ++ '"' :: []))) ++ [')'] := by
      simp only [List.cons_append, List.nil_append, List.append_assoc]
    rw [shape]
    exact isMarked_iff.mpr ⟨[], '(', [], '"', [], rfl, .inr rfl, rfl, .inl rfl, rfl⟩
  · have shape : singleQuoted list.dropLast ++ [',', ' ', '"'] ++ method ++ ['"', ')'] =
        (singleQuoted list.dropLast ++ ',' :: ([' '] ++ '"' :: (method ++ '"' :: []))) ++
          [')'] := by
      simp only [List.cons_append, List.nil_append, List.append_assoc]
    rw [shape]
    exact isMarked_iff.mpr
      ⟨singleQuoted list.dropLast, ',', [' '], '"', [], rfl, .inl rfl, rfl, .inl rfl, rfl⟩

/-! ## Single quotes in place of double ones -/

/-- The single quote in place of a double one. -/
def singleQuote (c : Char) : Char :=
  if c = '"' then '\'' else c

theorem singleQuoted_eq_map (text : Text) : singleQuoted text = text.map singleQuote := rfl

@[simp] theorem singleQuoted_cons (c : Char) (rest : Text) :
    singleQuoted (c :: rest) = singleQuote c :: singleQuoted rest := rfl

@[simp] theorem singleQuoted_append (first second : Text) :
    singleQuoted (first ++ second) = singleQuoted first ++ singleQuoted second :=
  List.map_append

theorem singleQuote_of_ne {c : Char} (single : c ≠ '"') : singleQuote c = c :=
  if_neg single

theorem singleQuote_ne (c : Char) : singleQuote c ≠ '"' := by
  unfold singleQuote
  split_ifs with double
  · decide
  · exact double

/-- What a character that is no quote was, it is. -/
theorem eq_of_singleQuote_eq {c d : Char} (notSingle : d ≠ '\'') (same : singleQuote c = d) :
    c = d := by
  unfold singleQuote at same
  split_ifs at same
  · exact (notSingle same.symm).elim
  · exact same

@[simp] theorem singleQuote_singleQuote (c : Char) : singleQuote (singleQuote c) = singleQuote c :=
  singleQuote_of_ne (singleQuote_ne c)

@[simp] theorem singleQuoted_singleQuoted (text : Text) :
    singleQuoted (singleQuoted text) = singleQuoted text := by
  simp only [singleQuoted_eq_map, List.map_map]
  exact List.map_congr_left fun c _ => singleQuote_singleQuote c

theorem singleQuoted_eq_self {text : Text} (single : '"' ∉ text) : singleQuoted text = text := by
  rw [singleQuoted_eq_map]
  refine (List.map_congr_left fun c member => ?_).trans (List.map_id' text)
  exact singleQuote_of_ne fun double => single (double ▸ member)

theorem singleQuoted_of_isWord {word : Text} (isWord : word.isWord = true) :
    singleQuoted word = word :=
  singleQuoted_eq_self (Text.not_mem_of_isWord isWord (by decide))

/-- What a text without single quotes was, it is. -/
private theorem eq_of_singleQuoted_eq {text target : Text} (noSingle : '\'' ∉ target)
    (same : singleQuoted text = target) : text = target := by
  have kept : singleQuoted text = text := by
    rw [singleQuoted_eq_map]
    refine (List.map_congr_left fun c member => ?_).trans (List.map_id' text)
    refine (eq_of_singleQuote_eq ?_ (rfl : singleQuote c = singleQuote c)).symm
    intro single
    exact noSingle (same ▸ single ▸ List.mem_map_of_mem member)
  rw [← same, kept]

private theorem isBlank_singleQuote (c : Char) : Text.isBlank (singleQuote c) = Text.isBlank c := by
  unfold singleQuote
  split_ifs with double
  · subst double
    decide
  · rfl

theorem all_isBlank_singleQuoted (text : Text) :
    (singleQuoted text).all Text.isBlank = text.all Text.isBlank := by
  rw [singleQuoted_eq_map, List.all_map]
  congr 1
  exact funext isBlank_singleQuote

/-- Single quotes in place of double ones keep a mark. -/
theorem isMarked_singleQuoted {inner method : Text} {last : Char} (word : method.isWord = true)
    (marked : isMarked (inner ++ [last]) method = true) :
    isMarked (singleQuoted inner ++ [last]) method = true := by
  obtain ⟨front, separator, gap, quote, blanks, rfl, isSeparator, gapBlank, isQuote, blank⟩ :=
    isMarked_iff.mp marked
  have sameMethod := singleQuoted_of_isWord word
  have sameSeparator : singleQuote separator = separator := by
    rcases isSeparator with rfl | rfl <;> decide
  refine isMarked_iff.mpr ⟨singleQuoted front, separator, singleQuoted gap, '\'',
    singleQuoted blanks, ?_, isSeparator, ?_, .inr rfl, ?_⟩
  · have single : singleQuote quote = '\'' := by rcases isQuote with rfl | rfl <;> decide
    simp only [singleQuoted_append, singleQuoted_cons, sameMethod, sameSeparator, single]
  · rw [all_isBlank_singleQuoted, gapBlank]
  · rw [all_isBlank_singleQuoted, blank]

/-- Where all quotes are double, single quotes in their place create no mark. -/
theorem isMarked_of_singleQuoted {inner method : Text} {last : Char} (word : method.isWord = true)
    (noSingle : '\'' ∉ inner) (marked : isMarked (singleQuoted inner ++ [last]) method = true) :
    isMarked (inner ++ [last]) method = true := by
  obtain ⟨front, separator, gap, quote, blanks, whole, isSeparator, gapBlank, isQuote, blank⟩ :=
    isMarked_iff.mp marked
  obtain ⟨front, afterFront, rfl, -, whole⟩ := List.map_eq_append_iff.mp whole
  obtain ⟨comma, afterComma, rfl, isComma, whole⟩ := List.map_eq_cons_iff.mp whole
  obtain ⟨space, afterSpace, rfl, isGap, whole⟩ := List.map_eq_append_iff.mp whole
  obtain ⟨opening, afterOpening, rfl, isOpening, whole⟩ := List.map_eq_cons_iff.mp whole
  obtain ⟨name, afterName, rfl, isName, whole⟩ := List.map_eq_append_iff.mp whole
  obtain ⟨closing, ending, rfl, isClosing, isEnding⟩ := List.map_eq_cons_iff.mp whole
  simp only [List.mem_append, List.mem_cons, not_or] at noSingle
  obtain ⟨-, -, -, openingDouble, -, closingDouble, -⟩ := noSingle
  have single : quote = '\'' := isQuote.resolve_left fun double =>
    singleQuote_ne opening (isOpening.trans double)
  have double {c : Char} (other : '\'' ≠ c) (same : singleQuote c = quote) : c = '"' := by
    by_contra notDouble
    rw [singleQuote_of_ne notDouble, single] at same
    exact other same.symm
  have sameComma : comma = separator := by
    apply eq_of_singleQuote_eq _ isComma
    rcases isSeparator with rfl | rfl <;> decide
  have sameName : name = method :=
    eq_of_singleQuoted_eq (Text.not_mem_of_isWord word (by decide)) isName
  refine isMarked_iff.mpr ⟨front, separator, space, '"', ending, ?_, isSeparator, ?_, .inl rfl, ?_⟩
  · rw [sameComma, sameName, double openingDouble isOpening, double closingDouble isClosing]
  · rw [← all_isBlank_singleQuoted, show singleQuoted space = gap from isGap, gapBlank]
  · rw [← all_isBlank_singleQuoted, show singleQuoted ending = blanks from isEnding, blank]

end Arguments

end PluginScript
