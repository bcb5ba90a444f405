import PluginScript.Completion.Expression
import PluginScript.Proofs.Boundaries
import Mathlib.Data.List.DropRight

/-! # Chains of tokens

What stands in front of a cursor is cut twice: behind the last character that no expression holds,
and behind the last dot or colon of the expression. The three parts (`Cut`) tell all that there is
to know about the chain of tokens (`Cut.chain_eq`): the tokens are the pieces of the second and
third part, and the last token is the third part.
-/

namespace PluginScript.Completion

theorem isExpressionDelimiter_iff {c : Char} : isExpressionDelimiter c = true ↔ c ∈ bounds :=
  List.contains_iff_mem

private theorem isTokenDelimiter_eq : isTokenDelimiter = isDivider := by
  funext c
  rw [Bool.eq_iff_iff, isTokenDelimiter, isDivider]
  simp

/-! ## Pieces of a text -/

/-- A piece of a text consists of characters of the text, and no divider is among them. -/
theorem mem_of_mem_pieces {text piece : Text} (member : piece ∈ pieces text) :
    ∀ c ∈ piece, c ∈ text ∧ isDivider c = false := by
  induction text generalizing piece with
  | nil =>
    rw [pieces, List.splitOnP_nil, List.mem_singleton] at member
    simp [member]
  | cons d text ih =>
    obtain ⟨first, others, whole⟩ :=
      List.exists_cons_of_ne_nil (List.splitOnP_ne_nil isDivider text)
    rw [pieces, whole] at ih
    have behind {part : Text} (there : part ∈ first :: others) :
        ∀ c ∈ part, c ∈ d :: text ∧ isDivider c = false :=
      fun c inside => (ih there c inside).imp_left (List.mem_cons_of_mem d)
    rw [pieces, List.splitOnP_cons_eq_if_modifyHead, whole] at member
    split_ifs at member with divider
    · rcases List.mem_cons.mp member with rfl | member
      · simp
      · exact behind member
    · rw [List.modifyHead_cons] at member
      rcases List.mem_cons.mp member with rfl | member
      · rw [List.forall_mem_cons]
        exact ⟨⟨List.mem_cons_self, by simpa using divider⟩, behind List.mem_cons_self⟩
      · exact behind (List.mem_cons_of_mem _ member)

private theorem length_pieces (text : Text) :
    (pieces text).length = (text.filter isDivider).length + 1 := by
  induction text with
  | nil => rfl
  | cons c text ih =>
    rw [pieces] at ih ⊢
    rw [List.splitOnP_cons_eq_if_modifyHead]
    split_ifs with divider
    · rw [List.length_cons, ih, List.filter_cons_of_pos divider, List.length_cons]
    · rw [List.length_modifyHead, ih, List.filter_cons_of_neg divider]

/-- The pieces of a text are its tokens. -/
theorem areTokens_pieces (text : Text) : AreTokens (pieces text) text where
  nonempty := List.splitOnP_ne_nil _ _
  undivided _ member c inside := (mem_of_mem_pieces member c inside).2
  count := (length_pieces text).symm
  interleaved := List.splitOnP_spec text

/-! ## The text in front of a cursor -/

/-- What stands in front of a cursor in three parts: what is not of the expression, the tokens of
the expression but the last with their dividers, and the last token. -/
structure Cut (outside front last : Text) : Prop where
  unbounded : ∀ c ∈ front ++ last, c ∉ bounds
  bounded : ∀ c, outside.getLast? = some c → c ∈ bounds
  undivided : ∀ c ∈ last, isDivider c = false
  divided : ∀ c, front.getLast? = some c → isDivider c = true

/-- A text has a longest end whose characters all lack a property. -/
theorem exists_longest_end (p : Char → Bool) (text : Text) :
    ∃ front back, text = front ++ back ∧ (∀ c ∈ back, p c = false) ∧
      ∀ c, front.getLast? = some c → p c = true := by
  refine ⟨text.rdropWhile (!p ·), text.rtakeWhile (!p ·), List.rdropWhile_append_rtakeWhile.symm,
    fun c member => by simpa using List.mem_rtakeWhile_imp member, fun c last => ?_⟩
  have nonempty := List.ne_nil_of_mem (List.mem_of_getLast? last)
  have stopped := List.rdropWhile_last_not (!p ·) text nonempty
  rw [List.getLast?_eq_some_getLast nonempty, Option.some.injEq] at last
  simpa [last] using stopped

theorem exists_cut (before : Text) :
    ∃ outside front last, before = outside ++ (front ++ last) ∧ Cut outside front last := by
  obtain ⟨outside, expression, rfl, inner, outer⟩ := exists_longest_end isExpressionDelimiter before
  obtain ⟨front, last, rfl, undivided, divided⟩ := exists_longest_end isDivider expression
  refine ⟨outside, front, last, rfl, ?_, ?_, undivided, divided⟩
  · intro c member
    rw [← isExpressionDelimiter_iff, inner c member]
    exact Bool.false_ne_true
  · intro c final
    exact isExpressionDelimiter_iff.mp (outer c final)

namespace Cut

variable {outside front last : Text}

/-- The expression is what stands behind the first part. -/
private theorem lastExpression_eq (cut : Cut outside front last) :
    lastExpression (outside ++ (front ++ last)) = front ++ last := by
  have inner : ∀ c ∈ (front ++ last).reverse, (!isExpressionDelimiter c) = true := by
    intro c member
    rw [Bool.not_eq_true', ← Bool.not_eq_true, isExpressionDelimiter_iff]
    exact cut.unbounded c (List.mem_reverse.mp member)
  have outer : outside.reverse.takeWhile (fun c => !isExpressionDelimiter c) = [] := by
    cases reversed : outside.reverse with
    | nil => rfl
    | cons c rest =>
      have final : outside.getLast? = some c := by
        rw [← List.head?_reverse, reversed, List.head?_cons]
      apply List.takeWhile_cons_of_neg
      rw [isExpressionDelimiter_iff.mpr (cut.bounded c final)]
      exact Bool.false_ne_true
  rw [lastExpression, List.reverse_append, List.takeWhile_append_of_pos inner, outer,
    List.append_nil, List.reverse_reverse]

/-- The pieces of a text that begins with the second part are the tokens but the last, and the
pieces of what follows. -/
private theorem exists_pieces_append (cut : Cut outside front last) :
    ∃ tokens, ∀ word, pieces (front ++ word) = tokens ++ pieces word := by
  rcases List.eq_nil_or_concat front with rfl | ⟨rest, c, rfl⟩
  · exact ⟨[], fun word => rfl⟩
  · refine ⟨pieces rest, fun word => ?_⟩
    have divider := cut.divided c (by rw [List.concat_eq_append, List.getLast?_concat])
    rw [List.concat_eq_append, List.append_assoc, List.singleton_append, pieces,
      List.splitOnP_append_cons rest word divider]
    rfl

private theorem pieces_last (cut : Cut outside front last) : pieces last = [last] :=
  List.splitOnP_eq_singleton cut.undivided

/-- The last token is the third part. -/
theorem getLast?_pieces (cut : Cut outside front last) :
    (pieces (front ++ last)).getLast? = some last := by
  obtain ⟨tokens, spelled⟩ := cut.exists_pieces_append
  rw [spelled, cut.pieces_last, List.getLast?_concat]

/-- The tokens of a text that begins with the second part. -/
theorem pieces_append (cut : Cut outside front last) (word : Text) :
    pieces (front ++ word) = (pieces (front ++ last)).dropLast ++ pieces word := by
  obtain ⟨tokens, spelled⟩ := cut.exists_pieces_append
  rw [spelled word, spelled last, cut.pieces_last, List.dropLast_concat]

/-- The expression begins behind the first part. -/
theorem expressionStart?_eq (cut : Cut outside front last) (after : Text) :
    expressionStart? (outside ++ (front ++ last) ++ after)
        (Text.byteLength (outside ++ (front ++ last))) = some outside.byteLength := by
  rw [expressionStart?, Text.splitAtByte?_append, Option.map_some, cut.lastExpression_eq,
    Text.byteLength_append, Nat.add_sub_cancel]

/-- The chain of tokens in front of a cursor. -/
theorem chain_eq (cut : Cut outside front last) (after : Text) :
    chain (outside ++ (front ++ last) ++ after) (Text.byteLength (outside ++ (front ++ last))) =
      .ok ⟨pieces (front ++ last), Text.byteLength (outside ++ front), last.byteLength⟩ := by
  have size : Text.byteLength (outside ++ (front ++ last)) - last.byteLength =
      Text.byteLength (outside ++ front) := by
    rw [← List.append_assoc, Text.byteLength_append, Nat.add_sub_cancel]
  have final := cut.getLast?_pieces
  rw [pieces] at final
  rw [chain, Text.splitAtByte?_append]
  dsimp only
  rw [cut.lastExpression_eq, Chain.ofExpression, isTokenDelimiter_eq, final, Option.getD_some, size,
    pieces]

theorem isExpression (cut : Cut outside front last) (after : Text) :
    IsExpression (outside ++ (front ++ last) ++ after) outside.byteLength
      (Text.byteLength (outside ++ (front ++ last))) (front ++ last) where
  ordered := by
    rw [Text.byteLength_append]
    exact Nat.le_add_right _ _
  boundary :=
    Text.isBoundary_iff.mpr ⟨outside, front ++ last ++ after, List.append_assoc _ _ _, rfl⟩
  between := by
    rw [Text.byteLength_append, List.append_assoc]
    exact Text.slice?_append outside (front ++ last) after
  unbounded := cut.unbounded
  bounded := by
    rcases List.eq_nil_or_concat outside with rfl | ⟨rest, c, rfl⟩
    · exact .inl rfl
    · have bound : c ∈ bounds := cut.bounded c (by rw [List.concat_eq_append, List.getLast?_concat])
      have whole := Text.slice?_append [] (rest.concat c) (front ++ last ++ after)
      rw [Text.byteLength_nil, Nat.zero_add, List.nil_append, ← List.append_assoc] at whole
      rw [List.concat_eq_append] at whole ⊢
      exact .inr ⟨rest, c, bound, whole⟩

theorem endsAt (cut : Cut outside front last) (after : Text) :
    EndsAt (outside ++ (front ++ last) ++ after) outside.byteLength
      (Text.byteLength (outside ++ (front ++ last)))
      ⟨pieces (front ++ last), Text.byteLength (outside ++ front), last.byteLength⟩ where
  stop := by rw [Chain.stop, ← Text.byteLength_append, List.append_assoc]
  ordered := by
    rw [Text.byteLength_append]
    exact Nat.le_add_right _ _
  last := by
    have sliced := Text.slice?_append (outside ++ front) last after
    rw [← Text.byteLength_append] at sliced
    rw [Chain.last, cut.getLast?_pieces, Option.getD_some]
    simpa only [List.append_assoc] using sliced

end Cut

/-- The tokens of a chain are the pieces of a text that holds neither parentheses nor spaces nor line
ends. -/
theorem exists_tokens_eq_pieces {script : Text} {cursor : Nat} {found : Chain}
    (ok : chain script cursor = .ok found) :
    ∃ expression, (∀ c ∈ expression, c ∉ bounds) ∧ found.tokens = pieces expression := by
  rw [chain] at ok
  split at ok
  · rename_i before after split
    cases ok
    refine ⟨lastExpression before, fun c member => ?_, ?_⟩
    case refine_2 => rw [Chain.ofExpression, isTokenDelimiter_eq, pieces]
    rw [lastExpression, List.mem_reverse] at member
    have inner := List.mem_takeWhile_imp member
    rw [← isExpressionDelimiter_iff]
    simpa using inner
  · cases ok

/-- There is a chain of tokens at each position of a script. Its tokens make up the expression in
front of the position, and its last token stands right there. -/
theorem exists_chain_of_isBoundary {script : Text} {cursor : Nat}
    (boundary : script.isBoundary cursor = true) :
    ∃ start expression found, expressionStart? script cursor = some start ∧
      chain script cursor = .ok found ∧ IsExpression script start cursor expression ∧
      AreTokens found.tokens expression ∧ EndsAt script start cursor found := by
  obtain ⟨before, after, rfl, rfl⟩ := Text.isBoundary_iff.mp boundary
  obtain ⟨outside, front, last, rfl, cut⟩ := exists_cut before
  exact ⟨outside.byteLength, front ++ last, _, cut.expressionStart?_eq after, cut.chain_eq after,
    cut.isExpression after, areTokens_pieces _, cut.endsAt after⟩

/-- The chain of tokens in front of a cursor is exact: there is one at each position of a script and
only there, its tokens and the dividers between them make up the expression in front of the cursor,
and its last token stands right in front of the cursor. -/
theorem chain_exact (script : Text) (cursor : Nat) :
    (cursor ≤ script.byteLength ∧ script.isBoundary cursor = true ∧
        ∃ start expression found, expressionStart? script cursor = some start ∧
          chain script cursor = .ok found ∧ IsExpression script start cursor expression ∧
          AreTokens found.tokens expression ∧ EndsAt script start cursor found) ∨
      (script.isBoundary cursor = false ∧
        ∃ invalid, chain script cursor = .error invalid ∧
          invalid.message = "cursor offset ".toList ++ Text.ofNat cursor ++
            " is not a valid position in a script of ".toList ++
              Text.ofNat script.byteLength ++ " bytes".toList) := by
  by_cases boundary : script.isBoundary cursor = true
  · exact .inl ⟨Text.le_byteLength_of_isBoundary boundary, boundary,
      exists_chain_of_isBoundary boundary⟩
  · rw [Bool.not_eq_true] at boundary
    have invalid := boundary
    rw [Text.isBoundary_eq_isSome, Option.isSome_eq_false_iff,
      Option.isNone_iff_eq_none] at invalid
    refine .inr ⟨boundary, ⟨cursor, script.byteLength⟩, ?_, rfl⟩
    rw [chain, invalid]

/-- The cursor stands behind a dot and a character of two bytes. -/
example : chain "f(é.ü".toList 7 = .ok ⟨["é".toList, "ü".toList], 5, 2⟩ := by decide +kernel

end PluginScript.Completion
