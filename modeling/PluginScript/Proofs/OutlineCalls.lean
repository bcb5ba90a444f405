import PluginScript.Proofs.CallSearch
import PluginScript.Proofs.Outline

/-! # Calls in an outline

Since the pattern of a named rule holds no parenthesis, a search of a text is a walk over its
outline that forgets what it has read at every parenthesis. `induction_on_calls` is the induction
along that walk: an outline is empty, begins with a character or a group at which the pattern does
not begin, or begins with the pattern and goes on with no call, an unclosed call, or a call.

A walk over an outline carries the text since the last parenthesis. Where that text is cut by a
part that takes no part in any announced call, the walk does not notice (`AnnounceAlike`).
-/

namespace PluginScript

open Arguments (Bracket)

namespace CallRule

/-- The pattern of a named rule holds no parenthesis. -/
theorem Named.ofChar_eq_other {rule : CallRule} (named : rule.Named) :
    ∀ c ∈ rule.pattern, Bracket.ofChar c = .other := by
  intro c member
  apply Outline.ofChar_eq_other_iff.mpr
  constructor
  · rintro rfl
    exact named.not_mem_pattern (by decide) (by decide) member
  · rintro rfl
    exact named.not_mem_pattern (by decide) (by decide) member

end CallRule

namespace Outline

/-- No blank is a parenthesis. -/
theorem ofChar_eq_other_of_blank {blanks : Text} (blank : blanks.all Text.isBlank = true) :
    ∀ c ∈ blanks, Bracket.ofChar c = .other := by
  intro c member
  have isBlank := List.all_eq_true.mp blank c member
  apply ofChar_eq_other_iff.mpr
  constructor
  · rintro rfl
    exact absurd isBlank (by decide)
  · rintro rfl
    exact absurd isBlank (by decide)

/-- An outline begins with the characters that its text begins with. -/
private theorem exists_eq_spell_append {outline : Outline} {word rest : Text}
    (plain : ∀ c ∈ word, Bracket.ofChar c = .other) (whole : outline.text = word ++ rest) :
    ∃ behind, outline = spell word ++ behind ∧ behind.text = rest := by
  induction word generalizing outline with
  | nil => exact ⟨outline, rfl, whole⟩
  | cons c word ih =>
    cases outline with
    | nil => contradiction
    | char d tail =>
      rw [text_char, List.cons_append, List.cons.injEq] at whole
      obtain ⟨rfl, whole⟩ := whole
      have plainWord : ∀ e ∈ word, Bracket.ofChar e = .other :=
        fun e member => plain e (List.mem_cons_of_mem _ member)
      obtain ⟨behind, rfl, same⟩ := ih plainWord whole
      exact ⟨behind, rfl, same⟩
    | group inner tail =>
      rw [text_group, List.cons_append, List.cons.injEq] at whole
      have notOpening := (ofChar_eq_other_iff.mp (plain c List.mem_cons_self)).1
      exact (notOpening whole.1.symm).elim

/-- An outline whose first character behind blanks is an opening parenthesis. -/
private theorem exists_blanks_of_opening {outline : Outline}
    (opens : (outline.text.dropWhile Text.isBlank).head? = some '(') :
    ∃ blanks behind, outline = spell blanks ++ behind ∧ blanks.all Text.isBlank = true ∧
      behind.text.head? = some '(' := by
  have blank : (outline.text.takeWhile Text.isBlank).all Text.isBlank = true :=
    List.all_takeWhile
  obtain ⟨behind, same, text⟩ := exists_eq_spell_append (ofChar_eq_other_of_blank blank)
    List.takeWhile_append_dropWhile.symm
  exact ⟨_, behind, same, blank, text ▸ opens⟩

/-! ## The text since the last parenthesis -/

/-- The text since the last parenthesis, one character further. -/
def extend (before : Text) (c : Char) : Text :=
  if Bracket.ofChar c = .other then before ++ [c] else []

theorem extend_of_other {c : Char} (plain : Bracket.ofChar c = .other) (before : Text) :
    extend before c = before ++ [c] :=
  if_pos plain

/-- Behind either text the same calls are announced in an outline. -/
def AnnounceAlike (rule : CallRule) (first second : Text) (outline : Outline) : Prop :=
  ∀ front rest, outline.text = front ++ '(' :: rest →
    rule.announces (first ++ front) = rule.announces (second ++ front)

namespace AnnounceAlike

variable {rule : CallRule} {first second : Text} {c : Char} {inner rest : Outline}

theorem of_opening (alike : AnnounceAlike rule first second (char '(' rest)) :
    rule.announces first = rule.announces second := by
  simpa only [List.append_nil] using alike [] rest.text rfl

theorem of_group (alike : AnnounceAlike rule first second (group inner rest)) :
    rule.announces first = rule.announces second := by
  simpa only [List.append_nil] using alike [] (inner.text ++ ')' :: rest.text) rfl

theorem extend (alike : AnnounceAlike rule first second (char c rest)) :
    AnnounceAlike rule (extend first c) (extend second c) rest := by
  unfold Outline.extend
  split_ifs
  · intro front behind whole
    rw [List.append_assoc, List.append_assoc]
    exact alike (c :: front) behind (by rw [text_char, whole, List.cons_append])
  · intro front behind _
    rfl

/-- A character at which the pattern does not begin takes no part in a call. -/
theorem of_absent (absent : rule.pattern.isPrefixOf? (c :: rest.text) = none) :
    AnnounceAlike rule (Outline.extend [] c) [] rest := by
  unfold Outline.extend
  split_ifs
  · intro front behind whole
    rw [whole, ← List.cons_append] at absent
    exact CallRule.announces_cons (CallRule.isPrefixOf?_eq_none_of_append absent)
  · intro front behind _
    rfl

/-- A pattern takes no part in a call if no parenthesis follows it. -/
theorem of_mention (mention : (rest.text.dropWhile Text.isBlank).head? ≠ some '(') :
    AnnounceAlike rule rule.pattern [] rest := by
  intro front behind whole
  have solid : front.all Text.isBlank = false := by
    by_contra blank
    rw [Bool.not_eq_false] at blank
    rw [whole, Text.dropWhile_isBlank_append blank (by decide)] at mention
    exact mention rfl
  rw [CallRule.announces_pattern_append, solid, Bool.false_or, List.nil_append]

end AnnounceAlike

/-- What stands behind a pattern: no list, a list that is not closed, or a list that is. -/
private theorem behind_cases {behind : Outline} (canonical : behind.Canonical) :
    (behind.text.dropWhile Text.isBlank).head? ≠ some '(' ∨
      (∃ blanks rest, behind = spell blanks ++ char '(' rest ∧
        blanks.all Text.isBlank = true ∧ rest.Open) ∨
      ∃ blanks inner rest, behind = spell blanks ++ group inner rest ∧
        blanks.all Text.isBlank = true ∧ inner.Balanced ∧ rest.Canonical := by
  by_cases opens : (behind.text.dropWhile Text.isBlank).head? = some '('
  · obtain ⟨blanks, tail, rfl, blank, opening⟩ := exists_blanks_of_opening opens
    have tailCanonical := canonical.of_append
    cases tail with
    | nil => contradiction
    | char c rest =>
      cases Option.some.inj opening
      exact .inr (.inl ⟨blanks, rest, rfl, blank, tailCanonical.1 rfl⟩)
    | group inner rest =>
      exact .inr (.inr ⟨blanks, inner, rest, rfl, blank, tailCanonical⟩)
  · exact .inl opens

/-- Induction along the search for the calls of a rule. -/
@[elab_as_elim] theorem induction_on_calls {rule : CallRule} (named : rule.Named)
    {motive : Outline → Prop} (nil : motive nil)
    (char : ∀ c rest, rule.pattern.isPrefixOf? (c :: rest.text) = none →
      (c = '(' → rest.Open) → motive rest → motive (char c rest))
    (group : ∀ inner rest, inner.Balanced → motive (inner ++ Outline.char ')' rest) →
      motive (group inner rest))
    (mention : ∀ rest, (rest.text.dropWhile Text.isBlank).head? ≠ some '(' → motive rest →
      motive (spell rule.pattern ++ rest))
    (unclosed : ∀ blanks rest, blanks.all Text.isBlank = true → rest.Open →
      motive (spell blanks ++ Outline.char '(' rest) →
      motive (spell rule.pattern ++ (spell blanks ++ Outline.char '(' rest)))
    (call : ∀ blanks inner rest, blanks.all Text.isBlank = true → inner.Balanced →
      motive (Outline.group inner .nil) → motive rest →
      motive (spell blanks ++ Outline.group inner rest) →
      motive (spell rule.pattern ++ (spell blanks ++ Outline.group inner rest)))
    (outline : Outline) (canonical : outline.Canonical) : motive outline := by
  induction size : outline.text.length using Nat.strong_induction_on generalizing outline with
  | _ size ih =>
    subst size
    have shorter (smaller : Outline) (small : smaller.Canonical)
        (less : smaller.text.length < outline.text.length) : motive smaller :=
      ih _ less smaller small rfl
    cases outline with
    | nil => exact nil
    | group inner rest =>
      refine group inner rest canonical.1 (shorter _ (canonical.1.append_closing canonical.2) ?_)
      simp only [text_append, text_char, text_group, List.length_append, List.length_cons]
      omega
    | char c rest =>
      cases found : rule.pattern.isPrefixOf? (c :: rest.text) with
      | none =>
        refine char c rest found canonical.1 (shorter rest canonical.2 ?_)
        rw [text_char, List.length_cons]
        exact Nat.lt_succ_self _
      | some behind =>
        have whole : (Outline.char c rest).text = rule.pattern ++ behind :=
          Text.eq_append_of_isPrefixOf? found
        obtain ⟨behind, same, rfl⟩ := exists_eq_spell_append named.ofChar_eq_other whole
        have positive := rule.length_pattern_pos
        rw [same] at canonical shorter ⊢
        simp only [text_append, text_spell, List.length_append] at shorter
        have behindCanonical := canonical.of_append
        have onBehind := shorter behind behindCanonical (by omega)
        rcases behind_cases behindCanonical with mentioned | ⟨blanks, rest, rfl, blank, isOpen⟩ |
          ⟨blanks, inner, rest, rfl, blank, balanced, restCanonical⟩
        · exact mention behind mentioned onBehind
        · exact unclosed blanks rest blank isOpen onBehind
        · simp only [text_append, text_spell, text_group, List.length_append,
            List.length_cons] at shorter
          refine call blanks inner rest blank balanced (shorter _ ⟨balanced, trivial⟩ ?_)
            (shorter rest restCanonical (by omega)) onBehind
          simp only [text_group, text_nil, List.length_append, List.length_cons, List.length_nil]
          omega

end Outline

end PluginScript
