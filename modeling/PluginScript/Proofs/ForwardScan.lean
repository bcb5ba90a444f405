import PluginScript.Proofs.MatchingParenthesis

/-! # The scan in front of a list

A scan may begin in front of the list that it looks for. Text without parentheses in front of the
list changes nothing. A closing parenthesis does: it takes the depth below zero, and the scan
brings the depth back to zero too early or not at all. Scans of the same symbols from different
depths never end at the same place (`length_ne_of_splitFrom?`), so the two scans, from the front and
from the first opening parenthesis, agree exactly if no closing parenthesis stands in between or
none of them ends (`span_agree_iff`).
-/

namespace PluginScript.Arguments

section Symbols

variable {α : Type} {bracket : α → Bracket} {depth : Int} {opened : Bool}

/-- In front of the first opening bracket a scan only counts the closing ones. -/
private theorem splitFrom?_append_of_unopened {front : List α}
    (unopened : ∀ symbol ∈ front, bracket symbol ≠ .opening) (depth : Int) (rest : List α) :
    splitFrom? bracket depth false (front ++ rest) =
      (splitFrom? bracket (depth - (front.map bracket).count .closing) false rest).map
        fun parts => (front ++ parts.1, parts.2) := by
  induction front generalizing depth with
  | nil => simp
  | cons symbol front ih =>
    have here := unopened symbol List.mem_cons_self
    have closed : (false || bracket symbol == .opening) = false := by simpa using here
    have level : depth + (bracket symbol).weight - (front.map bracket).count .closing =
        depth - ((symbol :: front).map bracket).count .closing := by
      rw [List.map_cons, List.count_cons]
      cases kind : bracket symbol with
      | opening => exact absurd kind here
      | closing =>
        change depth + -1 - _ = _
        simp only [beq_self_eq_true, if_true]
        omega
      | other =>
        change depth + 0 - _ = _
        simp
    rw [List.cons_append, splitFrom?]
    simp only [closed, Bool.false_and, Bool.false_eq_true, if_false]
    rw [ih fun later member => unopened later (List.mem_cons_of_mem _ member), level,
      Option.map_map]
    rfl

/-- Scans of the same symbols from different depths do not end at the same place. -/
private theorem length_ne_of_splitFrom? {otherDepth : Int} (differ : depth ≠ otherDepth)
    {symbols list rest otherList otherRest : List α}
    (cut : splitFrom? bracket depth opened symbols = some (list, rest))
    (otherCut : splitFrom? bracket otherDepth opened symbols = some (otherList, otherRest)) :
    list.length ≠ otherList.length := by
  induction symbols generalizing depth otherDepth opened list otherList with
  | nil => cases cut
  | cons symbol symbols ih =>
    have longer {reached : Int} {nowOpened : Bool} {whole behind : List α}
        (going : (splitFrom? bracket reached nowOpened symbols).map
          (fun parts => (symbol :: parts.1, parts.2)) = some (whole, behind)) :
        whole.length ≠ 1 := by
      obtain ⟨⟨tail, back⟩, found, same⟩ := Option.map_eq_some_iff.mp going
      cases same
      simpa using ne_nil_of_splitFrom? found
    simp only [splitFrom?, Bool.and_eq_true, beq_iff_eq] at cut otherCut
    split_ifs at cut otherCut with ended otherEnded otherEnded
    · omega
    · cases cut
      exact (longer otherCut).symm
    · cases otherCut
      exact longer cut
    · obtain ⟨⟨front, back⟩, found, same⟩ := Option.map_eq_some_iff.mp cut
      obtain ⟨⟨otherFront, otherBack⟩, otherFound, otherSame⟩ := Option.map_eq_some_iff.mp otherCut
      cases same
      cases otherSame
      have shorter := ih (by omega) found otherFound
      simp only [List.length_cons]
      omega

end Symbols

/-- The closing parentheses in front of the first opening one are counted against its list. -/
private theorem splitFrom?_drop {bytes : List UInt8} {start first : Nat} (ordered : start ≤ first)
    (earliest : 0x28 ∉ bytes.extract start first) :
    splitFrom? Bracket.ofByte 0 false (bytes.drop start) =
      (splitFrom? Bracket.ofByte (-((bytes.extract start first).map Bracket.ofByte).count .closing)
        false (bytes.drop first)).map
          fun parts => (bytes.extract start first ++ parts.1, parts.2) := by
  have unopened : ∀ byte ∈ bytes.extract start first, Bracket.ofByte byte ≠ .opening := by
    intro byte member opening
    exact earliest (ofByte_eq_opening_iff.mp opening ▸ member)
  rw [drop_eq_extract_append ordered, splitFrom?_append_of_unopened unopened, Int.zero_sub]

private theorem count_closing_eq_zero_iff {bytes : List UInt8} :
    (bytes.map Bracket.ofByte).count .closing = 0 ↔ 0x29 ∉ bytes := by
  rw [List.count_eq_zero, List.mem_map]
  simp only [ofByte_eq_closing_iff, exists_eq_right]

/-- The span from a place in front of the first opening parenthesis, by a scan from there with the
depth that the text in front leaves. -/
private theorem span_of_earliest {script : Text} {start first : Nat} (ordered : start ≤ first)
    (opens : script.encode[first]? = some 0x28)
    (earliest : 0x28 ∉ script.encode.extract start first) :
    span script start =
      match splitFrom? Bracket.ofByte
        (-((script.encode.extract start first).map Bracket.ofByte).count .closing) false
        (script.encode.drop first) with
      | some (list, _) => ⟨start, first + list.length, true⟩
      | none => ⟨start, script.byteLength, false⟩ := by
  have bound := (List.getElem?_eq_some_iff.mp opens).1
  have size : start + (script.encode.extract start first).length = first := by
    rw [length_extract (Nat.le_of_lt bound), Nat.add_sub_of_le ordered]
  rw [span, splitFrom?_drop ordered earliest]
  cases splitFrom? Bracket.ofByte _ false (script.encode.drop first) with
  | none => rfl
  | some parts =>
    rw [Option.map_some]
    simp only [List.length_append, ← Nat.add_assoc, size]

/-- From a place in front of the first opening parenthesis the scan reports what it reports from
that parenthesis exactly if no closing parenthesis stands in between or both scans run to the end of
the script. -/
theorem span_agree_iff {script : Text} {start first : Nat} (ordered : start ≤ first)
    (opens : script.encode[first]? = some 0x28)
    (earliest : 0x28 ∉ script.encode.extract start first) :
    (span script start).stop = (span script first).stop ∧
        (span script start).closed = (span script first).closed ↔
      0x29 ∉ script.encode.extract start first ∨
        (span script start).closed = false ∧ (span script first).closed = false := by
  rw [span_of_earliest ordered opens earliest, span, ← count_closing_eq_zero_iff]
  generalize ((script.encode.extract start first).map Bracket.ofByte).count .closing = passed
  by_cases none : passed = 0
  · have level : -(passed : Int) = 0 := by omega
    rw [level]
    cases splitFrom? Bracket.ofByte 0 false (script.encode.drop first) <;> simp [none]
  · have apart := @length_ne_of_splitFrom? _ Bracket.ofByte (-passed) false 0 (by omega)
      (script.encode.drop first)
    cases cut : splitFrom? Bracket.ofByte (-passed) false (script.encode.drop first) <;>
      cases otherCut : splitFrom? Bracket.ofByte 0 false (script.encode.drop first)
    · simp
    · simp [none]
    · simp [none]
    · simpa [none] using apart cut otherCut

/-- A scan may begin in front of its list: it reports what it reports from the first opening
parenthesis exactly if no closing parenthesis stands in between or both scans run to the end of the
script, and a list that it reports closed ends with the partner of that parenthesis exactly if no
closing one stands in between. -/
theorem span_forward_iff {script : Text} {start first : Nat} (ordered : start ≤ first)
    (opens : script.encode[first]? = some 0x28)
    (earliest : 0x28 ∉ script.encode.extract start first) :
    ((span script start).stop = (span script first).stop ∧
          (span script start).closed = (span script first).closed ↔
        0x29 ∉ script.encode.extract start first ∨
          (span script start).closed = false ∧ (span script first).closed = false) ∧
      ∀ stop, span script start = ⟨start, stop, true⟩ →
        (IsMatched script first stop ↔ 0x29 ∉ script.encode.extract start first) := by
  have agree := span_agree_iff ordered opens earliest
  refine ⟨agree, fun stop closed => ?_⟩
  rw [← span_eq_iff_isMatched opens]
  constructor
  · intro firstClosed
    rw [closed, firstClosed] at agree
    simpa using agree
  · intro unclosing
    obtain ⟨sameStop, sameClosed⟩ := agree.mpr (.inl unclosing)
    rw [closed] at sameStop sameClosed
    rcases span_cases script first with ⟨other, firstClosed⟩ | unclosed
    · rw [firstClosed] at sameStop ⊢
      exact congrArg (Span.mk first · true) sameStop.symm
    · rw [unclosed] at sameClosed
      cases sameClosed

theorem span_forward_word :
    (Text.encode "é (y) z".toList)[3]? = some 0x28 ∧
      0x28 ∉ (Text.encode "é (y) z".toList).extract 0 3 ∧
      (span "é (y) z".toList 0).stop = (span "é (y) z".toList 3).stop ∧
      (span "é (y) z".toList 0).closed = (span "é (y) z".toList 3).closed ∧
      IsMatched "é (y) z".toList 3 6 := by
  have opens : (Text.encode "é (y) z".toList)[3]? = some 0x28 := by decide
  have earliest : 0x28 ∉ (Text.encode "é (y) z".toList).extract 0 3 := by decide
  obtain ⟨agree, matched⟩ := span_forward_iff (Nat.zero_le 3) opens earliest
  obtain ⟨stop, closed⟩ := agree.mpr (.inl (by decide))
  exact ⟨opens, earliest, stop, closed, (matched 6 (by decide)).mpr (by decide)⟩

/-- A closing parenthesis in front lets the scan end at the opening one. -/
theorem span_forward_closing :
    Text.isBoundary ")()".toList 0 = true ∧ (Text.encode ")()".toList)[1]? = some 0x28 ∧
      0x28 ∉ (Text.encode ")()".toList).extract 0 1 ∧
      span ")()".toList 0 = ⟨0, 2, true⟩ ∧ span ")()".toList 1 = ⟨1, 3, true⟩ := by
  decide

end PluginScript.Arguments
