import PluginScript.Arguments
import Mathlib.Tactic.Common

/-! # The scan over characters and over bytes

A scan for the end of an argument list passes over symbols that are no parentheses
(`splitFrom?_append_of_other`). Inside a list the depth stays above zero up to the last symbol,
which closes the list (`splitFrom?_cons_cases`, `getLast?_of_splitFrom?`).

In UTF-8 a parenthesis is one byte, and no byte of any other character looks like one, so that the
scan over the bytes of a text cuts it where the scan over its characters does (`splitFrom?_encode`),
and the offsets in a span are character boundaries (`span_append`).
-/

namespace PluginScript.Arguments

theorem Bracket.neg_one_le_weight (kind : Bracket) : -1 ≤ kind.weight := by
  cases kind <;> decide

private theorem Bracket.eq_closing_of_weight_neg {kind : Bracket} (down : kind.weight < 0) :
    kind = .closing := by
  cases kind with
  | opening => exact absurd down (by decide)
  | closing => rfl
  | other => exact absurd down (by decide)

section Symbols

variable {α : Type} {bracket : α → Bracket} {depth : Int} {opened : Bool}

/-- A scan that has not come to its end passes over symbols that are no parentheses. -/
theorem splitFrom?_append_of_other (unfinished : opened = true → depth ≠ 0) {front : List α}
    (other : ∀ symbol ∈ front, bracket symbol = .other) (rest : List α) :
    splitFrom? bracket depth opened (front ++ rest) =
      (splitFrom? bracket depth opened rest).map fun parts => (front ++ parts.1, parts.2) := by
  induction front with
  | nil => exact Option.map_id'.symm
  | cons symbol front ih =>
    have here := other symbol List.mem_cons_self
    have level : depth + Bracket.weight .other = depth := Int.add_zero depth
    have still : (opened || Bracket.other == .opening) = opened := Bool.or_false opened
    have notYet : (opened && depth == 0) = false := by
      cases opened
      · rfl
      · rw [Bool.true_and, beq_eq_false_iff_ne]
        exact unfinished rfl
    rw [List.cons_append, splitFrom?]
    simp only [here, level, still, notYet, Bool.false_eq_true, if_false]
    rw [ih fun later member => other later (List.mem_cons_of_mem _ member), Option.map_map]
    rfl

/-- A scan that goes on behind a symbol has not come to its end. -/
theorem unfinished_of_not_ended {symbol : α}
    (going : ¬ ((opened || bracket symbol == .opening) &&
      depth + (bracket symbol).weight == 0) = true) :
    (opened || bracket symbol == .opening) = true → depth + (bracket symbol).weight ≠ 0 := by
  intro nowOpened reached
  rw [nowOpened, reached] at going
  exact going rfl

/-- A scan that is inside a list ends with the symbol that brings the depth back to zero. -/
theorem splitFrom?_cons_of_eq_zero {symbol : α} (ended : depth + (bracket symbol).weight = 0)
    (rest : List α) :
    splitFrom? bracket depth true (symbol :: rest) = some ([symbol], rest) := by
  simp only [splitFrom?, Bool.true_or, Bool.true_and, beq_iff_eq, if_pos ended]

/-- A scan that is inside a list goes on behind every other symbol. -/
theorem splitFrom?_cons_of_ne_zero {symbol : α} (going : depth + (bracket symbol).weight ≠ 0)
    (rest : List α) :
    splitFrom? bracket depth true (symbol :: rest) =
      (splitFrom? bracket (depth + (bracket symbol).weight) true rest).map
        fun parts => (symbol :: parts.1, parts.2) := by
  simp only [splitFrom?, Bool.true_or, Bool.true_and, beq_iff_eq, if_neg going]

/-- A scan that is inside a list ends with the first symbol, or goes on inside the list. -/
theorem splitFrom?_cons_cases (inside : 0 < depth) {symbol : α} {symbols list rest : List α}
    (cut : splitFrom? bracket depth true (symbol :: symbols) = some (list, rest)) :
    (depth + (bracket symbol).weight = 0 ∧ list = [symbol] ∧ rest = symbols) ∨
      ∃ tail, 0 < depth + (bracket symbol).weight ∧ list = symbol :: tail ∧
        splitFrom? bracket (depth + (bracket symbol).weight) true symbols = some (tail, rest) := by
  by_cases ended : depth + (bracket symbol).weight = 0
  · rw [splitFrom?_cons_of_eq_zero ended] at cut
    cases cut
    exact .inl ⟨ended, rfl, rfl⟩
  · have least := (bracket symbol).neg_one_le_weight
    rw [splitFrom?_cons_of_ne_zero ended] at cut
    obtain ⟨⟨tail, back⟩, found, same⟩ := Option.map_eq_some_iff.mp cut
    cases same
    exact .inr ⟨tail, by omega, rfl, found⟩

/-- A scan that is inside a list ends with a closing bracket. -/
theorem getLast?_of_splitFrom? (inside : 0 < depth) {symbols list rest : List α}
    (cut : splitFrom? bracket depth true symbols = some (list, rest)) :
    list.getLast?.map bracket = some .closing := by
  induction symbols generalizing depth list with
  | nil => cases cut
  | cons symbol symbols ih =>
    rcases splitFrom?_cons_cases inside cut with ⟨ended, rfl, -⟩ | ⟨tail, deeper, rfl, found⟩
    · have closing : bracket symbol = .closing := Bracket.eq_closing_of_weight_neg (by omega)
      exact congrArg some closing
    · obtain ⟨final, last, closing⟩ := Option.map_eq_some_iff.mp (ih deeper found)
      rw [List.getLast?_cons, last]
      exact congrArg some closing

/-- What follows a list does not move the cut. -/
theorem splitFrom?_append {symbols list rest : List α}
    (cut : splitFrom? bracket depth opened symbols = some (list, rest)) (more : List α) :
    splitFrom? bracket depth opened (symbols ++ more) = some (list, rest ++ more) := by
  induction symbols generalizing depth opened list with
  | nil => cases cut
  | cons symbol symbols ih =>
    rw [List.cons_append]
    simp only [splitFrom?] at cut ⊢
    split_ifs at cut ⊢
    · cases cut
      rfl
    · obtain ⟨⟨front, back⟩, found, same⟩ := Option.map_eq_some_iff.mp cut
      cases same
      rw [ih found, Option.map_some]

end Symbols

/-! ## Bytes -/

private theorem ofByte_eq_other_of_le {byte : UInt8} (high : 128 ≤ byte.toNat) :
    Bracket.ofByte byte = .other := by
  unfold Bracket.ofByte
  split_ifs with opening closing
  · subst opening
    exact absurd high (by decide)
  · subst closing
    exact absurd high (by decide)
  · rfl

/-- The bytes of a character are one byte that is the same parenthesis as the character, or none of
them is a parenthesis and neither is the character. -/
theorem ofByte_utf8EncodeChar (c : Char) :
    (∃ byte, String.utf8EncodeChar c = [byte] ∧ Bracket.ofByte byte = Bracket.ofChar c) ∨
      Bracket.ofChar c = .other ∧
        ∀ byte ∈ String.utf8EncodeChar c, Bracket.ofByte byte = .other := by
  by_cases single : c.val.toNat ≤ 127
  · have same (byte : UInt8) (d : Char) (here : byte.toNat = d.val.toNat) :
        UInt8.ofNat c.val.toNat = byte ↔ c = d := by
      rw [← UInt8.toNat_inj, here, UInt8.toNat_ofNat', Nat.mod_eq_of_lt (by omega),
        UInt32.toNat_inj, Char.ext_iff]
    refine .inl ⟨UInt8.ofNat c.val.toNat, ?_, ?_⟩
    · rw [String.utf8EncodeChar]
      exact if_pos single
    · unfold Bracket.ofByte Bracket.ofChar
      simp only [same 0x28 '(' rfl, same 0x29 ')' rfl]
  · refine .inr ⟨?_, ?_⟩
    · unfold Bracket.ofChar
      rw [if_neg, if_neg]
      · rintro rfl
        exact single (by decide)
      · rintro rfl
        exact single (by decide)
    · intro byte member
      apply ofByte_eq_other_of_le
      simp only [String.utf8EncodeChar, if_neg single] at member
      split_ifs at member <;>
        simp only [List.mem_cons, List.not_mem_nil, or_false] at member <;>
        rcases member with rfl | rfl | rfl | rfl <;> simp only [UInt8.toNat_ofNat'] <;> omega

/-- The scan cuts the bytes of a text where it cuts the text. -/
theorem splitFrom?_encode {depth : Int} {opened : Bool} (unfinished : opened = true → depth ≠ 0)
    (text : Text) :
    splitFrom? Bracket.ofByte depth opened text.encode =
      (splitFrom? Bracket.ofChar depth opened text).map
        fun parts => (Text.encode parts.1, Text.encode parts.2) := by
  induction text generalizing depth opened with
  | nil => rfl
  | cons c text ih =>
    rcases ofByte_utf8EncodeChar c with ⟨byte, single, same⟩ | ⟨other, others⟩
    · rw [Text.encode_cons, single, List.singleton_append, splitFrom?, splitFrom?, same]
      split_ifs with ended
      · have alone : Text.encode [c] = [byte] := by
          rw [Text.encode, List.flatMap_singleton, single]
        rw [Option.map_some, alone]
      · have front (list : Text) : Text.encode (c :: list) = byte :: Text.encode list := by
          rw [Text.encode_cons, single, List.singleton_append]
        rw [ih (unfinished_of_not_ended ended), Option.map_map, Option.map_map]
        simp only [Function.comp_def, front]
    · have alone : ∀ d ∈ [c], Bracket.ofChar d = .other := by simpa using other
      have passed := splitFrom?_append_of_other unfinished alone text
      rw [Text.encode_cons, splitFrom?_append_of_other unfinished others, ih unfinished,
        ← List.singleton_append, passed, Option.map_map, Option.map_map]
      simp only [Function.comp_def, List.singleton_append, Text.encode_cons]

/-- The span of the list behind a part of a script, which the scan over characters cuts off. -/
theorem span_append (before body : Text) :
    span (before ++ body) before.byteLength =
      match split? body with
      | some (list, _) => ⟨before.byteLength, before.byteLength + list.byteLength, true⟩
      | none => ⟨before.byteLength, Text.byteLength (before ++ body), false⟩ := by
  have start : before.byteLength = before.encode.length := before.length_encode.symm
  rw [span, Text.encode_append, start, List.drop_left,
    splitFrom?_encode (absurd · Bool.false_ne_true), split?]
  cases splitFrom? Bracket.ofChar 0 false body with
  | none => rfl
  | some parts =>
    rw [Option.map_some]
    simp only [Text.length_encode]

end PluginScript.Arguments
