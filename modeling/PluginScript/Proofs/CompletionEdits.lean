import PluginScript.Proofs.TokenChains

/-! # Edits that complete a token

An editor puts a word in the place of the last token. The parts of the text in front of the cursor
that the expression begins with stay, and the word is cut behind its own last dot or colon
(`Cut.replace`), so the chain of tokens behind the edit is the chain in front of it with the pieces
of the word for the last token.
-/

namespace PluginScript

/-- What is replaced is the part between the lengths of two parts of a text. -/
theorem Text.replace?_append (before middle after word : Text) :
    replace? (before ++ (middle ++ after)) before.byteLength
      (before.byteLength + middle.byteLength) word = some (before ++ word ++ after) := by
  have front := slice?_append [] before (middle ++ after)
  rw [byteLength_nil, Nat.zero_add, List.nil_append] at front
  have behind := slice?_append (before ++ middle) after []
  rw [List.append_nil, ← byteLength_append, byteLength_append before middle,
    List.append_assoc] at behind
  rw [replace?, front, behind]
  rfl

namespace Completion

/-- A word in the place of the last token is cut where the word alone is. -/
theorem Cut.replace {outside front last wordFront wordLast : Text} (cut : Cut outside front last)
    (word : Cut [] wordFront wordLast) : Cut outside (front ++ wordFront) wordLast where
  unbounded := by
    intro c member
    rw [List.append_assoc, List.mem_append] at member
    rcases member with inFront | inWord
    · exact cut.unbounded c (List.mem_append_left _ inFront)
    · exact word.unbounded c inWord
  bounded := cut.bounded
  undivided := word.undivided
  divided := by
    intro c final
    rw [List.getLast?_append, Option.or_eq_some_iff] at final
    rcases final with inWord | ⟨-, inFront⟩
    · exact word.divided c inWord
    · exact cut.divided c inFront

/-- Words without bounds are all expression. -/
private theorem exists_cut_of_unbounded {word : Text} (unbounded : ∀ c ∈ word, c ∉ bounds) :
    ∃ front last, word = front ++ last ∧ Cut [] front last := by
  obtain ⟨front, last, rfl, undivided, divided⟩ := exists_longest_end isDivider word
  exact ⟨front, last, rfl, unbounded, nofun, undivided, divided⟩

/-- Completing the last token of a chain by a word leaves a script with a chain of tokens behind the
word: the expression begins where it did, the pieces of the word stand in the place of the last
token, and the last of them is the last token and ends behind the word. -/
theorem chain_replace_last {script word : Text} {cursor : Nat}
    (valid : script.isBoundary cursor = true) (unbounded : ∀ c ∈ word, c ∉ bounds) :
    ∃ start found completed, expressionStart? script cursor = some start ∧
      chain script cursor = .ok found ∧
      script.replace? found.lastStart found.stop word = some completed ∧
      completed.isBoundary (found.lastStart + word.byteLength) = true ∧
      expressionStart? completed (found.lastStart + word.byteLength) = some start ∧
      ∃ next piece, chain completed (found.lastStart + word.byteLength) = .ok next ∧
        next.tokens = found.tokens.dropLast ++ pieces word ∧
        (pieces word).getLast? = some piece ∧ next.lastLength = piece.byteLength ∧
        next.stop = found.lastStart + word.byteLength := by
  obtain ⟨before, after, rfl, rfl⟩ := Text.isBoundary_iff.mp valid
  obtain ⟨outside, front, last, rfl, cut⟩ := exists_cut before
  obtain ⟨wordFront, wordLast, rfl, wordCut⟩ := exists_cut_of_unbounded unbounded
  have next := cut.replace wordCut
  have stop : Text.byteLength (outside ++ front) + Text.byteLength (wordFront ++ wordLast) =
      Text.byteLength (outside ++ (front ++ wordFront ++ wordLast)) := by
    rw [← Text.byteLength_append]
    simp only [List.append_assoc]
  have replaced := Text.replace?_append (outside ++ front) last after (wordFront ++ wordLast)
  have spelled : pieces (front ++ wordFront ++ wordLast) =
      (pieces (front ++ last)).dropLast ++ pieces (wordFront ++ wordLast) := by
    rw [List.append_assoc, cut.pieces_append]
  refine ⟨outside.byteLength, _, outside ++ (front ++ wordFront ++ wordLast) ++ after,
    cut.expressionStart?_eq after, cut.chain_eq after, ?_, ?_⟩
  · rw [Chain.stop]
    simpa only [List.append_assoc] using replaced
  · dsimp only
    rw [stop]
    refine ⟨Text.isBoundary_iff.mpr ⟨_, after, rfl, rfl⟩, next.expressionStart?_eq after, _,
      wordLast, next.chain_eq after, spelled, wordCut.getLast?_pieces, rfl, ?_⟩
    rw [Chain.stop, ← Text.byteLength_append]
    simp only [List.append_assoc]

/-- Behind a dot the last token is empty, and a word that holds a divider takes its place. -/
theorem chain_replace_last_empty :
    Text.isBoundary "f(é.)".toList 5 = true ∧ (∀ c ∈ "b:ü".toList, c ∉ bounds) ∧
      chain "f(é.)".toList 5 = .ok ⟨["é".toList, []], 5, 0⟩ ∧
      ∃ completed next, Text.replace? "f(é.)".toList 5 5 "b:ü".toList = some completed ∧
        expressionStart? completed 9 = some 2 ∧ chain completed 9 = .ok next ∧
        next.tokens = ["é".toList, "b".toList, "ü".toList] ∧ next.stop = 9 := by
  have valid : Text.isBoundary "f(é.)".toList 5 = true := by decide
  have unbounded : ∀ c ∈ "b:ü".toList, c ∉ bounds := by simp [bounds]
  have isChain : chain "f(é.)".toList 5 = .ok ⟨["é".toList, []], 5, 0⟩ := by decide +kernel
  have begins : expressionStart? "f(é.)".toList 5 = some 2 := by decide +kernel
  obtain ⟨start, found, completed, isStart, isFound, replaced, -, nextStart, next, piece, isNext,
    tokens, -, -, stop⟩ := chain_replace_last valid unbounded
  cases isChain.symm.trans isFound
  cases begins.symm.trans isStart
  exact ⟨valid, unbounded, isChain, completed, next, replaced, nextStart, isNext,
    tokens.trans (by decide +kernel), stop⟩

end Completion

end PluginScript
