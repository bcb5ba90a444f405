import PluginScript.Proofs.Literals

/-! # The last argument of a list

Whether a list is marked is decided by a look at its end: the quoted method, and in front of it a
comma or an opening parenthesis. That agrees with reading the list as an engine does. If all strings
of the list are closed, then the quotes around the method are those of one string
(`current_eq_none_of_quoted`), so the comma stands outside of all strings. Since no parenthesis
stands behind it, it stands at the depth of the list; and for the same reason an opening parenthesis
in that place is the one that opens the list (`level_of_split?`). So a list is marked exactly if its
last argument is the method in quotes (`isMarked_iff_getLast?_arguments`).
-/

namespace PluginScript

namespace Text

private theorem exists_eq_trim_append (text : Text) :
    ∃ front back, text = front ++ (trim text ++ back) ∧ front.all isBlank = true ∧
      back.all isBlank = true := by
  obtain ⟨back, whole, blank⟩ := exists_eq_trimEnd_append (text.dropWhile isBlank)
  refine ⟨text.takeWhile isBlank, back, ?_, List.all_takeWhile, blank⟩
  rw [trim, ← whole, List.takeWhile_append_dropWhile]

/-- Blanks around a text that does not begin and end with one do not count for its trimmed form. -/
private theorem trim_append {first last : Char} {front middle back : Text}
    (frontBlank : front.all isBlank = true) (backBlank : back.all isBlank = true)
    (firstSolid : isBlank first = false) (lastSolid : isBlank last = false) :
    trim (front ++ first :: (middle ++ last :: back)) = first :: (middle ++ [last]) := by
  have parts : first :: (middle ++ last :: back) = first :: middle ++ [last] ++ back := by
    simp only [List.cons_append, List.append_assoc, List.nil_append]
  rw [trim, dropWhile_isBlank_append frontBlank firstSolid, parts, trimEnd_append backBlank,
    trimEnd_concat lastSolid, List.cons_append]

end Text

namespace Arguments

/-! ## The depth in a list -/

/-- The depth behind a text that begins at a depth. -/
def level (depth : Int) : Text → Int
  | [] => depth
  | c :: rest => level (depth + (Bracket.ofChar c).weight) rest

private theorem level_append (depth : Int) (first second : Text) :
    level depth (first ++ second) = level (level depth first) second := by
  induction first generalizing depth with
  | nil => rfl
  | cons c first ih => exact ih _

private theorem level_of_not_mem {text : Text} (noOpening : '(' ∉ text) (noClosing : ')' ∉ text)
    (depth : Int) : level depth text = depth := by
  induction text with
  | nil => rfl
  | cons c text ih =>
    rw [List.mem_cons, not_or] at noOpening noClosing
    have here : Bracket.ofChar c = .other := by
      unfold Bracket.ofChar
      rw [if_neg (Ne.symm noOpening.1), if_neg (Ne.symm noClosing.1)]
    have same : depth + Bracket.other.weight = depth := Int.add_zero depth
    rw [level, here, same, ih noOpening.2 noClosing.2]

/-- A scan that is inside a list stays there up to the last character of the list. -/
private theorem level_of_splitFrom? {depth : Int} (inside : 0 < depth) {text list rest : Text}
    (cut : splitFrom? Bracket.ofChar depth true text = some (list, rest)) :
    level depth list = 0 ∧
      ∀ front c behind, list = front ++ c :: behind → 0 < level depth front := by
  induction text generalizing depth list with
  | nil => cases cut
  | cons d text ih =>
    rcases splitFrom?_cons_cases inside cut with ⟨ended, rfl, -⟩ | ⟨tail, deeper, rfl, found⟩
    · refine ⟨ended, fun front c behind whole => ?_⟩
      obtain ⟨rfl, -, -⟩ := List.append_eq_singleton_iff.mp whole.symm |>.resolve_right (by simp)
      exact inside
    · obtain ⟨closed, above⟩ := ih deeper found
      refine ⟨closed, fun before c behind whole => ?_⟩
      rcases before with _ | ⟨e, before⟩
      · exact inside
      · rw [List.cons_append, List.cons.injEq] at whole
        obtain ⟨rfl, whole⟩ := whole
        exact above before c behind whole

/-- The depth in a list comes back to zero at its end, and not before. -/
private theorem level_of_split? {text inner rest : Text}
    (cut : split? text = some ('(' :: (inner ++ [')']), rest)) :
    level 1 inner = 1 ∧ ∀ front c behind, inner = front ++ c :: behind → 0 < level 1 front := by
  rw [append_of_split? cut] at cut
  change (splitFrom? Bracket.ofChar 1 true (inner ++ [')'] ++ rest)).map
    (fun parts => ('(' :: parts.1, parts.2)) = _ at cut
  obtain ⟨⟨list, back⟩, found, same⟩ := Option.map_eq_some_iff.mp cut
  rw [Prod.mk.injEq, List.cons.injEq] at same
  obtain ⟨⟨-, rfl⟩, -⟩ := same
  obtain ⟨closed, above⟩ := level_of_splitFrom? Int.one_pos found
  rw [level_append] at closed
  change level 1 inner + -1 = 0 at closed
  refine ⟨by omega, fun front c behind whole => above front c (behind ++ [')']) ?_⟩
  rw [whole, List.append_assoc, List.cons_append]

/-! ## Pieces between commas -/

section Pieces

variable {reader : QuoteReader} {depth : Int} {piece : Text}

private theorem argumentsFrom_ne_nil (text : Text) :
    argumentsFrom reader depth piece text ≠ [] := by
  induction text generalizing reader depth piece with
  | nil => exact List.cons_ne_nil _ _
  | cons c text ih =>
    rw [argumentsFrom]
    split_ifs
    · exact List.cons_ne_nil _ _
    · exact ih

/-- Where there is no comma, there is one argument. -/
private theorem argumentsFrom_of_not_mem {text : Text} (noComma : ',' ∉ text) :
    argumentsFrom reader depth piece text = [piece ++ text] := by
  induction text generalizing reader depth piece with
  | nil => rw [argumentsFrom, List.append_nil]
  | cons c text ih =>
    rw [List.mem_cons, not_or] at noComma
    rw [argumentsFrom, if_neg fun comma => noComma.1 comma.1.symm, ih noComma.2, List.append_assoc,
      List.singleton_append]

/-- The last argument stands behind the last comma that divides arguments. -/
private theorem getLast?_argumentsFrom {front last : Text}
    (outside : (reader.feed front).current = none)
    (shallow : level depth front = 1) (noComma : ',' ∉ last) :
    (argumentsFrom reader depth piece (front ++ ',' :: last)).getLast? = some last := by
  induction front generalizing reader depth piece with
  | nil =>
    rw [List.nil_append, argumentsFrom, if_pos ⟨rfl, outside, shallow⟩,
      argumentsFrom_of_not_mem noComma]
    rfl
  | cons c front ih =>
    rw [List.cons_append, argumentsFrom]
    split_ifs
    · rw [List.getLast?_cons, ih outside shallow, Option.getD_some]
    · exact ih outside shallow

/-- The last argument is the end of the text, from its beginning or from a comma on. -/
private theorem exists_of_getLast?_argumentsFrom {text last : Text}
    (isLast : (argumentsFrom reader depth piece text).getLast? = some last) :
    last = piece ++ text ∨ ∃ front, text = front ++ ',' :: last := by
  induction text generalizing reader depth piece with
  | nil =>
    rw [argumentsFrom, List.getLast?_singleton, Option.some.injEq] at isLast
    exact .inl (by rw [← isLast, List.append_nil])
  | cons c text ih =>
    rw [argumentsFrom] at isLast
    split_ifs at isLast with comma
    · obtain ⟨rfl, -, -⟩ := comma
      rw [List.getLast?_cons_of_ne_nil (argumentsFrom_ne_nil text)] at isLast
      rcases ih isLast with rfl | ⟨front, rfl⟩
      · exact .inr ⟨[], rfl⟩
      · exact .inr ⟨',' :: front, rfl⟩
    · rcases ih isLast with rfl | ⟨front, rfl⟩
      · exact .inl (by rw [List.append_assoc, List.singleton_append])
      · exact .inr ⟨c :: front, rfl⟩

end Pieces

/-! ## The quotes around the method -/

namespace QuoteReader

variable {reader : QuoteReader}

/-- A reader that is outside of all strings was so in front of a text without quotes. -/
private theorem current_eq_none_of_feed {text : Text} (unquoted : Unquoted text)
    (outside : (reader.feed text).current = none) : reader.current = none := by
  obtain ⟨literals, _ | ⟨quote, content⟩⟩ := reader
  · rfl
  · rw [feed_inside (unquoted quote)] at outside
    contradiction

/-- A reader that is outside of all strings behind a quoted text and blanks was so in front of the
quotes: otherwise the first quote would close a string and the second one open another. -/
private theorem current_eq_none_of_quoted {quote : Quote} {content blanks : Text}
    (unquoted : Unquoted content) (blank : blanks.all Text.isBlank = true)
    (outside : (reader.feed (quote.char :: (content ++ quote.char :: blanks))).current = none) :
    reader.current = none := by
  have blankUnquoted := unquoted_of_blank blank
  obtain ⟨literals, _ | ⟨other, begun⟩⟩ := reader
  · rfl
  · by_cases same : other = quote
    · subst same
      rw [feed_cons, next_closing, feed_append, feed_outside unquoted, feed_cons, next_opening,
        feed_inside (blankUnquoted other)] at outside
      contradiction
    · have distinct : other.char ≠ quote.char := fun alike => same (Quote.char_injective alike)
      have absent : other.char ∉ quote.char :: (content ++ quote.char :: blanks) := by
        simp only [List.mem_cons, List.mem_append, not_or]
        exact ⟨distinct, unquoted other, distinct, blankUnquoted other⟩
      rw [feed_inside absent] at outside
      contradiction

end QuoteReader

/-! ## Marked lists -/

theorem arguments_eq (inner : Text) :
    arguments ('(' :: (inner ++ [')'])) = argumentsFrom ⟨[], none⟩ 1 [] inner := by
  rw [arguments, List.drop_one, List.tail_cons, List.dropLast_concat]

/-- A list whose last argument is the method in quotes is marked. -/
theorem isMarked_of_getLast?_arguments {inner method : Text} {quote : Quote}
    (isLast : (arguments ('(' :: (inner ++ [')']))).getLast?.map Text.trim =
      some (quote.char :: (method ++ [quote.char]))) :
    isMarked ('(' :: (inner ++ [')'])) method = true := by
  obtain ⟨last, isLast, trimmed⟩ := Option.map_eq_some_iff.mp isLast
  obtain ⟨gap, blanks, parts, gapBlank, blank⟩ := Text.exists_eq_trim_append last
  rw [trimmed, List.cons_append, List.append_assoc, List.singleton_append] at parts
  have isQuote := Quote.exists_char_eq_iff.mp ⟨quote, rfl⟩
  rw [arguments_eq] at isLast
  rw [← List.cons_append, isMarked_iff]
  rcases exists_of_getLast?_argumentsFrom isLast with whole | ⟨front, whole⟩
  · rw [List.nil_append] at whole
    exact ⟨[], '(', gap, quote.char, blanks, by rw [← parts, whole]; rfl, .inr rfl, gapBlank,
      isQuote, blank⟩
  · exact ⟨'(' :: front, ',', gap, quote.char, blanks, by rw [← parts, whole]; rfl, .inl rfl,
      gapBlank, isQuote, blank⟩

section Closed

variable {text inner rest : Text} (cut : split? text = some ('(' :: (inner ++ [')']), rest))
  (paired : (QuoteReader.ofText ('(' :: (inner ++ [')']))).current = none)
include cut

/-- No parenthesis but the first one of a list stands in front of a text without parentheses that
goes on to the end of the list. -/
private theorem eq_nil_of_opening {front last : Text}
    (noOpening : '(' ∉ last) (noClosing : ')' ∉ last)
    (whole : '(' :: inner = front ++ '(' :: last) : front = [] := by
  rcases front with _ | ⟨c, front⟩
  · rfl
  · rw [List.cons_append, List.cons.injEq] at whole
    obtain ⟨-, behind⟩ := whole
    obtain ⟨closed, above⟩ := level_of_split? cut
    have outer := above front '(' last behind
    rw [behind, level_append, level, level_of_not_mem noOpening noClosing] at closed
    change level 1 front + 1 = 1 at closed
    omega

/-- A comma stands at the depth of the list if no parenthesis is behind it. -/
private theorem level_of_comma {front last : Text} (noOpening : '(' ∉ last) (noClosing : ')' ∉ last)
    (whole : inner = front ++ ',' :: last) : level 1 front = 1 := by
  obtain ⟨closed, -⟩ := level_of_split? cut
  rw [whole, level_append, level, level_of_not_mem noOpening noClosing] at closed
  exact (Int.add_zero _).symm.trans closed

include paired

/-- The quoted method at the end of a list, behind a comma or the parenthesis that opens the list,
is its last argument. -/
private theorem getLast?_arguments_of_whole {method front gap blanks : Text} {separator : Char}
    {quote : Quote} (word : method.isWord = true)
    (whole : '(' :: inner =
      front ++ separator :: (gap ++ quote.char :: (method ++ quote.char :: blanks)))
    (isSeparator : separator = ',' ∨ separator = '(') (gapBlank : gap.all Text.isBlank = true)
    (blank : blanks.all Text.isBlank = true) :
    (arguments ('(' :: (inner ++ [')']))).getLast? =
      some (gap ++ quote.char :: (method ++ quote.char :: blanks)) := by
  have absent {c : Char} (other : Text.isWordChar c = false) (solid : Text.isBlank c = false)
      (notQuote : c ≠ quote.char) : c ∉ gap ++ quote.char :: (method ++ quote.char :: blanks) :=
    not_mem_quoted word other solid notQuote gapBlank blank
  have noComma := absent (c := ',') (by decide) (by decide) (by cases quote <;> decide)
  have noOpening := absent (c := '(') (by decide) (by decide) (by cases quote <;> decide)
  have noClosing := absent (c := ')') (by decide) (by decide) (by cases quote <;> decide)
  rw [arguments_eq]
  rcases isSeparator with rfl | rfl
  · rcases front with _ | ⟨c, front⟩
    · exact absurd (List.cons.inj whole).1 (by decide)
    · rw [List.cons_append, List.cons.injEq] at whole
      obtain ⟨-, behind⟩ := whole
      have outside : (QuoteReader.feed ⟨[], none⟩ front).current = none := by
        have comma : Unquoted [','] := by decide
        have unquoted : Unquoted ([','] ++ gap) :=
          unquoted_append.mpr ⟨comma, unquoted_of_blank gapBlank⟩
        rw [← List.cons_append, ← QuoteReader.ofText_of_paired paired] at paired
        change (QuoteReader.feed ⟨[], none⟩ inner).current = none at paired
        rw [behind, ← List.singleton_append, ← List.append_assoc [','], QuoteReader.feed_append,
          QuoteReader.feed_append] at paired
        have methodUnquoted : Unquoted method := unquoted_of_word (Bool.and_eq_true_iff.mp word).2
        exact QuoteReader.current_eq_none_of_feed unquoted
          (QuoteReader.current_eq_none_of_quoted methodUnquoted blank paired)
      rw [behind]
      exact getLast?_argumentsFrom outside (level_of_comma cut noOpening noClosing behind) noComma
  · obtain rfl := eq_nil_of_opening cut noOpening noClosing whole
    rw [(List.cons.inj whole).2, argumentsFrom_of_not_mem noComma]
    rfl

end Closed

/-- A closed list without open strings is marked exactly if its last argument is the method in
quotes of either kind. -/
theorem isMarked_iff_getLast?_arguments {text list rest method : Text}
    (opens : text.head? = some '(') (cut : split? text = some (list, rest))
    (paired : (QuoteReader.ofText list).current = none) (word : method.isWord = true) :
    isMarked list method = true ↔
      ∃ quote : Quote, (arguments list).getLast?.map Text.trim =
        some (quote.char :: (method ++ [quote.char])) := by
  obtain ⟨inner, rfl⟩ := enclosed_of_split? opens cut
  constructor
  · intro marked
    rw [← List.cons_append, isMarked_iff] at marked
    obtain ⟨front, separator, gap, c, blanks, whole, isSeparator, gapBlank, isQuote, blank⟩ :=
      marked
    obtain ⟨quote, rfl⟩ := Quote.exists_char_eq_iff.mpr isQuote
    refine ⟨quote, ?_⟩
    rw [getLast?_arguments_of_whole cut paired word whole isSeparator gapBlank blank,
      Option.map_some, Text.trim_append gapBlank blank quote.isBlank_char quote.isBlank_char]
  · rintro ⟨quote, isLast⟩
    exact isMarked_of_getLast?_arguments isLast

/-- Parentheses and a comma in strings, and the method in single quotes with blanks around it. -/
theorem isMarked_behind_strings :
    split? "(\"a, (\", f('),'), 'say'  ) y".toList =
        some ("(\"a, (\", f('),'), 'say'  )".toList, " y".toList) ∧
      isMarked "(\"a, (\", f('),'), 'say'  )".toList "say".toList = true := by
  have cut : split? "(\"a, (\", f('),'), 'say'  ) y".toList =
      some ("(\"a, (\", f('),'), 'say'  )".toList, " y".toList) := by decide +kernel
  exact ⟨cut, (isMarked_iff_getLast?_arguments (by decide) cut (by decide +kernel) (by decide)).mpr
    ⟨.single, by decide +kernel⟩⟩

end Arguments

end PluginScript
