import PluginScript.Proofs.MatchingParenthesis
import PluginScript.Proofs.Boundaries

/-! # The bounds of a span

The scan for the end of an argument list starts at any byte offset, be it inside a character or far
behind the end of the script, whereas text can only be cut between characters. The end that it
answers with is a boundary all the same: the last byte it reads is a parenthesis, and a byte that
looks like a parenthesis is a character of its own (`exists_char_of_ofByte_ne_other`). So the text of
a list is missing only for the sake of where the scan started.
-/

namespace PluginScript.Arguments

/-- The last symbol that a scan reads is a bracket. -/
private theorem exists_getLast?_of_splitFrom? {α : Type} {bracket : α → Bracket} {depth : Int}
    {opened : Bool} (unfinished : opened = true → depth ≠ 0) {symbols list rest : List α}
    (cut : splitFrom? bracket depth opened symbols = some (list, rest)) :
    ∃ last, list.getLast? = some last ∧ bracket last ≠ .other := by
  induction symbols generalizing depth opened list with
  | nil => cases cut
  | cons symbol symbols ih =>
    simp only [splitFrom?] at cut
    split_ifs at cut with ended
    · cases cut
      refine ⟨symbol, rfl, fun other => ?_⟩
      -- a symbol that is no bracket moves nothing, so the scan would have ended in front of it
      have level : depth + Bracket.weight .other = depth := Int.add_zero depth
      simp only [other, level, Bool.and_eq_true, Bool.or_eq_true, beq_iff_eq, reduceCtorEq,
        or_false] at ended
      exact unfinished ended.1 ended.2
    · obtain ⟨⟨front, back⟩, found, same⟩ := Option.map_eq_some_iff.mp cut
      cases same
      obtain ⟨last, final, isBracket⟩ := ih (unfinished_of_not_ended ended) found
      exact ⟨last, by rw [List.getLast?_cons, final, Option.getD_some], isBracket⟩

/-- A byte that looks like a parenthesis is a character of its own. -/
private theorem exists_char_of_ofByte_ne_other {text : Text} {offset : Nat} {byte : UInt8}
    (here : text.encode[offset]? = some byte) (isBracket : Bracket.ofByte byte ≠ .other) :
    ∃ (before : Text) (c : Char) (after : Text),
      text = before ++ c :: after ∧ before.byteLength = offset ∧ c.utf8Size = 1 := by
  induction text generalizing offset with
  | nil => cases here
  | cons d text ih =>
    have size := String.length_utf8EncodeChar d
    rw [Text.encode_cons] at here
    by_cases inside : offset < d.utf8Size
    · rw [List.getElem?_append_left (by omega)] at here
      rcases ofByte_utf8EncodeChar d with ⟨first, single, -⟩ | ⟨-, others⟩
      · rw [single, List.length_singleton] at size
        exact ⟨[], d, text, rfl, by rw [Text.byteLength_nil]; omega, size.symm⟩
      · exact absurd (others byte (List.mem_of_getElem? here)) isBracket
    · rw [List.getElem?_append_right (by omega), size] at here
      obtain ⟨before, c, after, rfl, found, one⟩ := ih here
      exact ⟨d :: before, c, after, rfl, by rw [Text.byteLength_cons]; omega, one⟩

private theorem isBoundary_succ_of_ofByte_ne_other {text : Text} {offset : Nat} {byte : UInt8}
    (here : text.encode[offset]? = some byte) (isBracket : Bracket.ofByte byte ≠ .other) :
    text.isBoundary (offset + 1) = true := by
  obtain ⟨before, c, after, rfl, rfl, one⟩ := exists_char_of_ofByte_ne_other here isBracket
  refine Text.isBoundary_iff.mpr ⟨before ++ [c], after, by simp, ?_⟩
  rw [Text.byteLength_append, Text.byteLength_cons, Text.byteLength_nil, one]

/-- A list that is closed ends on a boundary behind the start of the scan. -/
private theorem isBoundary_of_span_closed {script : Text} {start stop : Nat}
    (closed : span script start = ⟨start, stop, true⟩) :
    start < stop ∧ script.isBoundary stop = true := by
  obtain ⟨list, rest, cut, rfl⟩ := span_eq_closed_iff.mp closed
  obtain ⟨byte, last, isBracket⟩ :=
    exists_getLast?_of_splitFrom? (absurd · Bool.false_ne_true) cut
  have positive := List.length_pos_of_mem (List.mem_of_getLast? last)
  have here : script.encode[start + (list.length - 1)]? = some byte := by
    rw [← List.getElem?_drop, append_of_splitFrom? cut, List.getElem?_append_left (by omega),
      ← List.getLast?_eq_getElem?, last]
  have boundary := isBoundary_succ_of_ofByte_ne_other here isBracket
  rw [Nat.add_assoc, Nat.sub_add_cancel positive] at boundary
  exact ⟨by omega, boundary⟩

theorem start_span (script : Text) (start : Nat) : (span script start).start = start := by
  rcases span_cases script start with ⟨stop, closed⟩ | unclosed
  · rw [closed]
  · rw [unclosed]

theorem isBoundary_stop_span (script : Text) (start : Nat) :
    script.isBoundary (span script start).stop = true := by
  rcases span_cases script start with ⟨stop, closed⟩ | unclosed
  · rw [closed]
    exact (isBoundary_of_span_closed closed).2
  · rw [unclosed]
    exact Text.isBoundary_iff.mpr ⟨script, [], (List.append_nil script).symm, rfl⟩

/-- The end of a closed list lies behind the start of the scan. -/
theorem lt_stop_span {script : Text} {start : Nat}
    (ended : (span script start).closed = true) : start < (span script start).stop := by
  rcases span_cases script start with ⟨stop, closed⟩ | unclosed
  · rw [closed]
    exact (isBoundary_of_span_closed closed).1
  · rw [unclosed] at ended
    cases ended

/-- The end of a span lies in front of its start only for a start behind the end of the script. -/
theorem le_stop_span {script : Text} {start : Nat} (inside : start ≤ script.byteLength) :
    start ≤ (span script start).stop := by
  rcases span_cases script start with ⟨stop, closed⟩ | unclosed
  · rw [closed]
    exact Nat.le_of_lt (isBoundary_of_span_closed closed).1
  · rwa [unclosed]

/-! ## The text of a list -/

theorem text?_eq_some_iff {script found : Text} {start : Nat} :
    text? script start = some found ↔
      ∃ before after, script = before ++ found ++ after ∧ before.byteLength = start ∧
        start + found.byteLength = (span script start).stop := by
  rw [text?, start_span]
  exact Text.slice?_eq_some_iff

/-- There is a text of a list exactly if the scan starts on a boundary. -/
theorem exists_text?_eq_some_iff {script : Text} {start : Nat} :
    (∃ found, text? script start = some found) ↔ script.isBoundary start = true := by
  constructor
  · rintro ⟨found, there⟩
    obtain ⟨before, after, rfl, rfl, -⟩ := text?_eq_some_iff.mp there
    exact Text.isBoundary_iff.mpr ⟨before, found ++ after, List.append_assoc _ _ _, rfl⟩
  · intro boundary
    have ordered := le_stop_span (Text.le_byteLength_of_isBoundary boundary)
    rw [text?, start_span]
    exact Text.exists_slice?_of_isBoundary ordered boundary (isBoundary_stop_span script start)

theorem text?_eq_none_iff {script : Text} {start : Nat} :
    text? script start = none ↔ script.byteLength < start ∨ script.InsideChar start := by
  rw [← Text.isBoundary_eq_false_iff, ← Bool.not_eq_true, ← exists_text?_eq_some_iff,
    Option.eq_none_iff_forall_ne_some]
  exact not_exists.symm

/-- What a scan from any byte offset answers: the offset itself, and an end between two characters
of the script, which lies behind the offset if the list is closed. There is a text of the list
unless the offset is behind the end of the script or inside a character, and it is the part of the
script from the offset to the end that was found. -/
theorem span_bounds (script : Text) (start : Nat) :
    (span script start).start = start ∧
      script.isBoundary (span script start).stop = true ∧
      (span script start).stop ≤ script.byteLength ∧
      ((span script start).closed = true → start < (span script start).stop) ∧
      (text? script start = none ↔ script.byteLength < start ∨ script.InsideChar start) ∧
      ∀ found, text? script start = some found ↔
        ∃ before after, script = before ++ found ++ after ∧ before.byteLength = start ∧
          start + found.byteLength = (span script start).stop := by
  have boundary := isBoundary_stop_span script start
  exact ⟨start_span script start, boundary, Text.le_byteLength_of_isBoundary boundary,
    lt_stop_span, text?_eq_none_iff, fun _ => text?_eq_some_iff⟩

/-- A scan that starts inside a character. -/
example : span "é)(".toList 1 = ⟨1, 4, true⟩ ∧ text? "é)(".toList 1 = none := by decide

end PluginScript.Arguments
