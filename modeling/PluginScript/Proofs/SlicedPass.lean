import PluginScript.CallRule.SlicedPass
import PluginScript.Proofs.ArgumentScan
import PluginScript.Proofs.Boundaries
import PluginScript.Proofs.ListEnds
import PluginScript.Proofs.OutlinePass

/-! # No slice of a pass fails

The offsets that a pass computes are the lengths of what it has gone over: of the text in front of
an occurrence, of the pattern, of the blanks behind it, and of the argument list. So each of its
slices is a part of a decomposition of the script, and the pass by slices is the pass
(`passFrom?_append`). Each round goes over a pattern, so that there are no more of them than the
script has characters, and no pass goes on for ever. For the slices of an argument list it matters
that a pass leaves a list between its parentheses, which it does for every rule.

Nothing is assumed about the names of the rules: they may be empty, hold parentheses, quotes and
blanks, or make patterns that overlap themselves.
-/

namespace PluginScript

namespace Text

theorem sliceFrom?_append (before after : Text) :
    sliceFrom? (before ++ after) before.byteLength = some after := by
  have whole := slice?_append before after []
  rwa [List.append_nil, ← byteLength_append] at whole

theorem sliceInit?_concat {last : Char} (single : last.utf8Size = 1) (inner : Text) :
    sliceInit? (inner ++ [last]) = some inner := by
  have size : byteLength (inner ++ [last]) = inner.byteLength + 1 := by
    rw [byteLength_append, byteLength_cons, byteLength_nil, single]
  have front := slice?_append [] inner [last]
  rw [sliceInit?, size, if_neg (Nat.succ_ne_zero _), Nat.add_sub_cancel]
  rwa [byteLength_nil, Nat.zero_add] at front

/-- What stands in front of an opening parenthesis behind blanks. -/
private theorem exists_blanks_append {behind : Text}
    (opens : (behind.dropWhile isBlank).head? = some '(') :
    ∃ blanks rest, behind = blanks ++ '(' :: rest ∧ blanks.all isBlank = true := by
  obtain ⟨rest, body⟩ := List.head?_eq_some_iff.mp opens
  refine ⟨behind.takeWhile isBlank, rest, ?_, List.all_takeWhile⟩
  rw [← body, List.takeWhile_append_dropWhile]

end Text

namespace Sliced

variable {list method : Text}

private theorem isMarked?_of_enclosed (enclosed : Arguments.Enclosed list) (method : Text) :
    isMarked? list method = some (Arguments.isMarked list method) := by
  obtain ⟨inner, rfl⟩ := enclosed
  rw [isMarked?, ← List.cons_append, Text.sliceInit?_concat (by decide)]
  rfl

private theorem mark?_of_enclosed (enclosed : Arguments.Enclosed list) (method : Text) :
    mark? list method = some (Arguments.mark list method) := by
  obtain ⟨inner, rfl⟩ := enclosed
  have behind : Text.sliceFrom? ('(' :: inner) 1 = some inner := Text.sliceFrom?_append ['('] inner
  rw [mark?, Arguments.mark, ← List.cons_append, Text.sliceInit?_concat (by decide),
    List.dropLast_concat]
  simp only [Option.bind_eq_bind, Option.bind_some, behind, List.drop_one, List.tail_cons]
  split_ifs <;> rfl

private theorem sliceFrom?_one (enclosed : Arguments.Enclosed list) :
    list.sliceFrom? 1 = some (list.drop 1) := by
  obtain ⟨inner, rfl⟩ := enclosed
  exact Text.sliceFrom?_append ['('] _

private theorem settle?_of_enclosed {rule : CallRule} {inner : Text}
    (enclosed : Arguments.Enclosed list)
    (innerEnclosed : Arguments.Enclosed inner) :
    settle? rule list inner = some (rule.settle list inner) := by
  rw [settle?, isMarked?_of_enclosed enclosed, CallRule.settle]
  simp only [Option.bind_eq_bind, Option.bind_some]
  split_ifs
  · rfl
  · exact mark?_of_enclosed innerEnclosed rule.method

/-- Where a list opens behind a part of a script. -/
private theorem opening?_append (before behind : Text) :
    opening? (before ++ behind) before.byteLength =
      some (if (behind.dropWhile Text.isBlank).head? = some '(' then
        some (before.byteLength + Text.byteLength (behind.takeWhile Text.isBlank)) else none) := by
  rw [opening?, Text.sliceFrom?_append]
  simp only [Option.bind_eq_bind, Option.bind_some]
  split_ifs with word opens opens
  · -- A longer name goes on with a character that is neither blank nor a parenthesis.
    cases behind with
    | nil => cases opens
    | cons c rest =>
      have solid : ¬ Text.isBlank c = true := by
        rw [Text.isBlank_of_isWordChar word]
        exact Bool.false_ne_true
      rw [List.dropWhile_cons_of_neg solid, List.head?_cons, Option.some.injEq] at opens
      rw [opens] at word
      exact absurd word (by decide : ¬ Text.isWordChar '(' = true)
  · rfl
  all_goals
    have parts := List.takeWhile_append_dropWhile (p := Text.isBlank) (l := behind)
    have skipped : behind.byteLength - Text.byteLength (behind.dropWhile Text.isBlank) =
        Text.byteLength (behind.takeWhile Text.isBlank) := by
      have size := congrArg Text.byteLength parts
      rw [Text.byteLength_append] at size
      omega
    have body := Text.sliceFrom?_append (behind.takeWhile Text.isBlank)
      (behind.dropWhile Text.isBlank)
    rw [parts] at body
    rw [skipped, body, Option.bind_some]
  · rw [if_pos opens]
    rfl
  · rw [if_neg opens]
    rfl

private theorem opening?_mention {behind : Text}
    (mention : (behind.dropWhile Text.isBlank).head? ≠ some '(') (before : Text) :
    opening? (before ++ behind) before.byteLength = some none := by
  rw [opening?_append, if_neg mention]

private theorem opening?_blanks {blanks : Text} (blank : blanks.all Text.isBlank = true)
    (before rest : Text) :
    opening? (before ++ (blanks ++ '(' :: rest)) before.byteLength =
      some (some (Text.byteLength (before ++ blanks))) := by
  have front : (blanks ++ '(' :: rest).takeWhile Text.isBlank = blanks := by
    rw [List.takeWhile_append_of_pos (List.all_eq_true.mp blank),
      List.takeWhile_cons_of_neg (by decide), List.append_nil]
  rw [opening?_append, Text.dropWhile_isBlank_append blank (by decide), front,
    Text.byteLength_append]
  rfl

/-- A pass changes nothing in front of the first occurrence of the pattern. -/
private theorem find?_cases (rule : CallRule) (text : Text) :
    (Text.find? rule.pattern text = none ∧ rule.pass text = text) ∨
      ∃ front behind, text = front ++ (rule.pattern ++ behind) ∧
        Text.find? rule.pattern text = some front.byteLength ∧
          rule.pass text = front ++ rule.pass (rule.pattern ++ behind) := by
  induction text with
  | nil =>
    have nonempty : rule.pattern.isEmpty = false := by
      rw [List.isEmpty_eq_false_iff, ← List.length_pos_iff]
      exact rule.length_pattern_pos
    refine .inl ⟨?_, CallRule.pass_nil⟩
    rw [Text.find?, nonempty]
    rfl
  | cons c rest ih =>
    have begins := List.isSome_isPrefixOf?_eq_isPrefixOf rule.pattern (c :: rest)
    cases found : rule.pattern.isPrefixOf? (c :: rest) with
    | some behind =>
      rw [found] at begins
      have whole := Text.eq_append_of_isPrefixOf? found
      refine .inr ⟨[], behind, whole, ?_, congrArg rule.pass whole⟩
      rw [Text.find?, ← begins]
      rfl
    | none =>
      rw [found] at begins
      have passed := CallRule.pass_of_read_plain (CallRule.read_cons found)
      rw [Text.find?, ← begins, passed]
      rcases ih with ⟨missing, same⟩ | ⟨front, behind, whole, offset, behindPassed⟩
      · refine .inl ⟨?_, by rw [same]⟩
        rw [missing]
        rfl
      · refine .inr ⟨c :: front, behind, by rw [whole]; rfl, ?_, by rw [behindPassed]; rfl⟩
        rw [offset]
        rfl

section Behind

variable {blanks behind rest list after : Text}

private theorem behind?_mention (mention : (behind.dropWhile Text.isBlank).head? ≠ some '(')
    (start : Text) : behind? (start ++ behind) start.byteLength = some .mention := by
  rw [behind?, opening?_mention mention]
  rfl

private theorem behind?_unclosed (blank : blanks.all Text.isBlank = true)
    (cut : Arguments.split? ('(' :: rest) = none) (start : Text) :
    behind? (start ++ (blanks ++ '(' :: rest)) start.byteLength =
      some (.unclosed (blanks ++ '(' :: rest)) := by
  have scan := Arguments.span_append (start ++ blanks) ('(' :: rest)
  rw [List.append_assoc, cut] at scan
  rw [behind?, opening?_blanks blank]
  simp only [Option.bind_eq_bind, Option.bind_some, scan, Bool.false_eq_true, if_false,
    Text.sliceFrom?_append]
  rfl

private theorem behind?_call (blank : blanks.all Text.isBlank = true)
    (cut : Arguments.split? ('(' :: rest) = some (list, after)) (start : Text) :
    behind? (start ++ (blanks ++ '(' :: rest)) start.byteLength =
      some (.call blanks list (Text.byteLength (start ++ (blanks ++ list)))) := by
  have scan := Arguments.span_append (start ++ blanks) ('(' :: rest)
  rw [List.append_assoc, cut] at scan
  have skipped := Text.slice?_append start blanks ('(' :: rest)
  have sliced := Text.slice?_append (start ++ blanks) list after
  rw [← Text.byteLength_append] at skipped
  rw [← Arguments.append_of_split? cut, List.append_assoc] at sliced
  rw [behind?, opening?_blanks blank]
  simp only [Option.bind_eq_bind, Option.bind_some, scan, if_true, skipped, sliced]
  rw [← Text.byteLength_append, List.append_assoc]
  rfl

end Behind

section Rounds

variable {rule : CallRule} {rounds : Nat}
  (agrees : ∀ {rest : Text}, rest.length < rounds → ∀ before written,
    passFrom? rule rounds (before ++ rest) before.byteLength written =
      some (written ++ rule.pass rest))
include agrees

/-- The pass over a list that follows an occurrence. -/
private theorem passList?_eq {list : Text} (enough : list.length < rounds) :
    (if Text.occursIn rule.pattern (list.drop 1) then passFrom? rule rounds list 0 []
      else some list) = some (if rule.occursInside list then rule.pass list else list) := by
  rw [CallRule.occursInside]
  split_ifs
  · exact agrees enough [] []
  · rfl

/-- One round more goes over the first occurrence of the pattern and what stands behind it. -/
private theorem passFrom?_succ_append {front behind : Text}
    (found : Text.find? rule.pattern (front ++ (rule.pattern ++ behind)) = some front.byteLength)
    (enough : behind.length < rounds) (before written : Text) :
    passFrom? rule (rounds + 1) (before ++ (front ++ (rule.pattern ++ behind))) before.byteLength
        written =
      some (written ++ (front ++ rule.pass (rule.pattern ++ behind))) := by
  -- The cursor moves behind the occurrence.
  have copied := Text.slice?_append before (front ++ rule.pattern) behind
  have stop : before.byteLength + front.byteLength + rule.pattern.byteLength =
      Text.byteLength (before ++ (front ++ rule.pattern)) := by
    simp only [Text.byteLength_append, Nat.add_assoc]
  have script : before ++ (front ++ (rule.pattern ++ behind)) =
      before ++ (front ++ rule.pattern) ++ behind := by
    simp only [List.append_assoc]
  rw [← Text.byteLength_append, ← List.append_assoc before] at copied
  rw [passFrom?, Text.sliceFrom?_append]
  simp only [Option.bind_eq_bind, Option.bind_some, found]
  rw [script, stop, copied, Option.bind_some]
  generalize before ++ (front ++ rule.pattern) = start
  by_cases opens : (behind.dropWhile Text.isBlank).head? = some '('
  · obtain ⟨blanks, rest, rfl, blank⟩ := Text.exists_blanks_append opens
    cases cut : Arguments.split? ('(' :: rest) with
    | none =>
      rw [CallRule.pass_of_read_unclosed (CallRule.read_unclosed blank cut),
        behind?_unclosed blank cut, Option.bind_some]
      simp only [List.append_assoc]
      rfl
    | some parts =>
      obtain ⟨list, after⟩ := parts
      have enclosed : Arguments.Enclosed list := Arguments.enclosed_of_split? rfl cut
      have whole : '(' :: rest = list ++ after := Arguments.append_of_split? cut
      rw [whole, List.length_append, List.length_append] at enough
      have further := @agrees after (by omega) (start ++ (blanks ++ list))
      rw [CallRule.pass_of_read_call (CallRule.read_call blank cut), behind?_call blank cut,
        Option.bind_some, whole]
      simp only [sliceFrom?_one enclosed, passList?_eq agrees (show list.length < rounds by omega),
        settle?_of_enclosed enclosed (CallRule.enclosed_inner rule enclosed), Option.bind_some]
      rw [← List.append_assoc blanks, ← List.append_assoc start, further]
      simp only [List.append_assoc]
  · rw [CallRule.pass_of_read_mention (CallRule.read_mention opens), behind?_mention opens,
      Option.bind_some]
    dsimp only
    rw [agrees enough]
    simp only [List.append_assoc]

end Rounds

/-- A pass by slices over the rest of a script needs no more rounds than there are characters left,
and one to find nothing more; then it has a result, and it is the pass. -/
theorem passFrom?_append {rule : CallRule} {rounds : Nat} {rest : Text}
    (enough : rest.length < rounds) (before written : Text) :
    passFrom? rule rounds (before ++ rest) before.byteLength written =
      some (written ++ rule.pass rest) := by
  induction rounds generalizing rest before written with
  | zero => exact absurd enough (Nat.not_lt_zero _)
  | succ rounds ih =>
    rcases find?_cases rule rest with ⟨missing, same⟩ | ⟨front, behind, rfl, found, passed⟩
    · rw [passFrom?, Text.sliceFrom?_append, same]
      simp only [Option.bind_eq_bind, Option.bind_some, missing]
      rfl
    · have positive := rule.length_pattern_pos
      rw [List.length_append, List.length_append] at enough
      rw [passed, passFrom?_succ_append ih found (by omega)]

/-- For all rules, whatever their names are, and all scripts, the passes by slices come to an end,
none of their slices fails, and what they write is the prepared script. -/
theorem prepare?_eq_some (rules : List CallRule) (script : Text) :
    ∃ enough, ∀ rounds ≥ enough,
      prepare? rules rounds script = some (CallRule.prepare rules script) := by
  induction rules generalizing script with
  | nil => exact ⟨0, fun rounds _ => rfl⟩
  | cons rule rules ih =>
    obtain ⟨later, ends⟩ := ih (rule.pass script)
    refine ⟨max (script.length + 1) later, fun rounds enough => ?_⟩
    have passed : (if Text.occursIn rule.pattern script then passFrom? rule rounds script 0 []
        else some script) = some (rule.pass script) := by
      split_ifs with occurs
      · exact passFrom?_append (Nat.le_trans (Nat.le_max_left _ _) enough) [] []
      · rw [CallRule.pass_of_not_occurs (Bool.eq_false_iff.mpr occurs)]
    rw [CallRule.prepare_cons, ← ends rounds (Nat.le_trans (Nat.le_max_right _ _) enough), prepare?,
      List.foldlM_cons, passed]
    rfl

end Sliced

end PluginScript
