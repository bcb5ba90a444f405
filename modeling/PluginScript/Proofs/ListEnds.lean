import PluginScript.CallRule.Pass
import PluginScript.Proofs.ArgumentScan

/-! # The ends of argument lists

A closed argument list is enclosed: it begins with its opening and ends with its closing
parenthesis (`enclosed_of_split?`). Marking a list takes both off and puts them back, also when the
list was passed over before. That is safe for every rule, since a pass changes neither the first nor
the last character of a text (`head?_pass`, `getLast?_pass`), whatever characters the names of its
rule hold and wherever in a list its pattern matches.
-/

namespace PluginScript

namespace Arguments

/-- A text between an opening and a closing parenthesis. -/
def Enclosed (list : Text) : Prop :=
  ∃ inner, list = '(' :: (inner ++ [')'])

theorem enclosed_iff {list : Text} :
    Enclosed list ↔ list.head? = some '(' ∧ list.getLast? = some ')' := by
  constructor
  · rintro ⟨inner, rfl⟩
    rw [← List.cons_append]
    exact ⟨rfl, List.getLast?_concat⟩
  · rintro ⟨first, last⟩
    obtain ⟨front, rfl⟩ := List.getLast?_eq_some_iff.mp last
    cases front with
    | nil => exact absurd first (by decide)
    | cons c inner =>
      cases Option.some.inj first
      exact ⟨inner, rfl⟩

theorem ofChar_eq_closing_iff {c : Char} : Bracket.ofChar c = .closing ↔ c = ')' := by
  unfold Bracket.ofChar
  split_ifs <;> simp_all

/-- The list that begins at an opening parenthesis ends at a closing one. -/
theorem enclosed_of_split? {text list rest : Text} (opens : text.head? = some '(')
    (cut : split? text = some (list, rest)) : Enclosed list := by
  cases text with
  | nil => cases opens
  | cons c text =>
    cases Option.some.inj opens
    change (splitFrom? Bracket.ofChar 1 true text).map
      (fun parts => ('(' :: parts.1, parts.2)) = _ at cut
    obtain ⟨⟨front, back⟩, found, same⟩ := Option.map_eq_some_iff.mp cut
    cases same
    obtain ⟨final, last, closing⟩ :=
      Option.map_eq_some_iff.mp (getLast?_of_splitFrom? Int.one_pos found)
    rw [enclosed_iff, List.getLast?_cons, last]
    exact ⟨rfl, congrArg some (ofChar_eq_closing_iff.mp closing)⟩

private theorem enclosed_mark {list : Text} (enclosed : Enclosed list) (method : Text) :
    Enclosed (mark list method) := by
  obtain ⟨inner, rfl⟩ := enclosed
  rw [mark, ← List.cons_append, List.dropLast_concat]
  split_ifs
  · exact ⟨'"' :: (method ++ ['"']), by simp only [List.cons_append, List.nil_append,
      List.append_assoc]⟩
  · refine ⟨singleQuoted inner ++ [',', ' ', '"'] ++ method ++ ['"'], ?_⟩
    change '(' :: singleQuoted inner ++ _ ++ _ ++ _ = _
    simp only [List.cons_append, List.nil_append, List.append_assoc]

end Arguments

namespace CallRule

variable {rule : CallRule} {text blanks list rest : Text}

/-- A reading of a call says what stands in front of its list, and that the list is the one that
the scan finds. -/
theorem of_read_call (reading : rule.read text = .call blanks list rest) :
    text = rule.pattern ++ (blanks ++ (list ++ rest)) ∧ blanks.all Text.isBlank = true ∧
      Arguments.split? (list ++ rest) = some (list, rest) ∧ Arguments.Enclosed list := by
  have whole := Reading.text_read rule text
  rw [reading, Reading.text, List.append_assoc, List.append_assoc] at whole
  refine ⟨whole.symm, ?_⟩
  cases text with
  | nil => cases reading
  | cons c tail =>
    simp only [read] at reading
    split at reading
    · cases reading
    · rename_i behind found
      split at reading
      · rename_i opens
        split at reading
        · cases reading
        · rename_i cut
          cases reading
          have body := Arguments.append_of_split? cut
          exact ⟨List.all_takeWhile, body ▸ cut,
            Arguments.enclosed_of_split? (beq_iff_eq.mp opens) cut⟩
      · cases reading

/-- A pass leaves the first character of a text. -/
private theorem head?_pass (rule : CallRule) (text : Text) :
    (rule.pass text).head? = text.head? := by
  have whole := Reading.text_read rule text
  obtain ⟨c, front, pattern⟩ := List.exists_cons_of_length_pos rule.length_pattern_pos
  cases reading : rule.read text with
  | finished =>
    rw [reading] at whole
    rw [← whole, Reading.text, pass_nil]
  | plain d rest =>
    rw [pass_of_read_plain reading, ← whole, reading]
    rfl
  | mention rest =>
    rw [pass_of_read_mention reading, ← whole, reading, Reading.text, pattern]
    rfl
  | unclosed rest => rw [pass_of_read_unclosed reading]
  | call blanks list rest =>
    rw [pass_of_read_call reading, ← whole, reading, Reading.text, pattern]
    rfl

private theorem enclosed_settle (rule : CallRule) (list : Text) {inner : Text}
    (enclosed : Arguments.Enclosed inner) : Arguments.Enclosed (rule.settle list inner) := by
  unfold settle
  split_ifs
  · exact enclosed
  · exact Arguments.enclosed_mark enclosed rule.method

/-- A pass leaves the last character of a text. -/
theorem getLast?_pass (rule : CallRule) (text : Text) :
    (rule.pass text).getLast? = text.getLast? := by
  induction text using pass.induct rule with
  | case1 text reading =>
    have whole := Reading.text_read rule text
    rw [reading] at whole
    rw [← whole, Reading.text, pass_nil]
  | case2 text c rest reading ih =>
    have whole := Reading.text_read rule text
    rw [pass_of_read_plain reading, ← whole, reading, Reading.text, List.getLast?_cons, ih,
      List.getLast?_cons]
  | case3 text rest reading ih =>
    have whole := Reading.text_read rule text
    rw [pass_of_read_mention reading, ← whole, reading, Reading.text, List.getLast?_append, ih,
      List.getLast?_append]
  | case4 text rest reading => rw [pass_of_read_unclosed reading]
  | case5 text blanks list rest reading ihList ihRest =>
    obtain ⟨whole, -, -, enclosed⟩ := of_read_call reading
    have settled : Arguments.Enclosed (rule.settle list
        (if rule.occursInside list then rule.pass list else list)) := by
      apply enclosed_settle
      split_ifs
      · rw [Arguments.enclosed_iff, head?_pass, ihList]
        exact Arguments.enclosed_iff.mp enclosed
      · exact enclosed
    rw [pass_of_read_call reading, whole]
    simp only [List.getLast?_append, ihRest, (Arguments.enclosed_iff.mp enclosed).2,
      (Arguments.enclosed_iff.mp settled).2, Option.or_assoc, Option.some_or]

/-- A pass over an argument list leaves it between its parentheses. -/
theorem enclosed_pass (rule : CallRule) {list : Text} (enclosed : Arguments.Enclosed list) :
    Arguments.Enclosed (rule.pass list) := by
  rw [Arguments.enclosed_iff, head?_pass, getLast?_pass]
  exact Arguments.enclosed_iff.mp enclosed

/-- A list stands between its parentheses after the calls inside it are marked. -/
theorem enclosed_inner (rule : CallRule) {list : Text} (enclosed : Arguments.Enclosed list) :
    Arguments.Enclosed (if rule.occursInside list then rule.pass list else list) := by
  split_ifs
  · exact enclosed_pass rule enclosed
  · exact enclosed

end CallRule

end PluginScript
