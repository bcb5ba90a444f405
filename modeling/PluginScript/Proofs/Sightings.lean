import PluginScript.Proofs.ArgumentScan
import PluginScript.Proofs.OutlinePass
import PluginScript.Proofs.SingleEdits
import Mathlib.Data.List.Infix

/-! # What a pass leaves of other calls

Every occurrence of a pattern in a text is sighted: it is a mere mention of the method, or a call
whose argument list is closed or not. Unlike the search for call sites this looks at every position
of the text, so that occurrences may overlap. What is sighted depends on no more than the character
behind the blanks that follow an occurrence and on the parentheses behind it (`sighting?_read`).

Passes neither create nor destroy nor change what there is to sight, for the patterns of their own
rules and for all others: the text behind any front can be exchanged for one that begins a pattern
as little, opens a list as much and has the same parentheses (`Alike`), and such is every edit that
a pass makes.
-/

namespace PluginScript

open Arguments (Bracket)

namespace Text

/-- The parentheses of a text, in their order. -/
def parentheses (text : Text) : Text :=
  text.filter fun c => c == '(' || c == ')'

theorem parentheses_append (first second : Text) :
    parentheses (first ++ second) = parentheses first ++ parentheses second :=
  List.filter_append first second

private theorem parentheses_cons_of_ne {c : Char} (notOpening : c ≠ '(') (notClosing : c ≠ ')')
    (rest : Text) : parentheses (c :: rest) = parentheses rest := by
  rw [parentheses, List.filter_cons_of_neg (by simp [notOpening, notClosing])]
  rfl

private theorem parentheses_append_of_other {front : Text}
    (other : ∀ c ∈ front, Bracket.ofChar c = .other) (rest : Text) :
    parentheses (front ++ rest) = parentheses rest := by
  induction front with
  | nil => rfl
  | cons c front ih =>
    have here := Outline.ofChar_eq_other_iff.mp (other c List.mem_cons_self)
    rw [List.cons_append, parentheses_cons_of_ne here.1 here.2,
      ih fun d member => other d (List.mem_cons_of_mem _ member)]

/-- Blanks at the front of a text hold no parenthesis. -/
private theorem parentheses_dropWhile_isBlank (text : Text) :
    parentheses (text.dropWhile isBlank) = parentheses text := by
  have blank : (text.takeWhile isBlank).all isBlank = true := List.all_takeWhile
  conv_rhs => rw [← List.takeWhile_append_dropWhile (p := isBlank) (l := text)]
  rw [parentheses_append_of_other (Outline.ofChar_eq_other_of_blank blank)]

end Text

namespace Arguments

/-- Whether a scan comes to an end is told by the parentheses of the text. -/
private theorem isSome_splitFrom?_parentheses {depth : Int} {opened : Bool}
    (unfinished : opened = true → depth ≠ 0) (text : Text) :
    (splitFrom? Bracket.ofChar depth opened text).isSome =
      (splitFrom? Bracket.ofChar depth opened text.parentheses).isSome := by
  induction text generalizing depth opened with
  | nil => rfl
  | cons c text ih =>
    by_cases other : Bracket.ofChar c = .other
    · have here := Outline.ofChar_eq_other_iff.mp other
      rw [Text.parentheses_cons_of_ne here.1 here.2, ← List.singleton_append,
        splitFrom?_append_of_other unfinished (by simpa using other), Option.isSome_map]
      exact ih unfinished
    · have kept : Text.parentheses (c :: text) = c :: Text.parentheses text := by
        rw [Outline.ofChar_eq_other_iff, not_and_or, not_not, not_not] at other
        rw [Text.parentheses, List.filter_cons_of_pos (by simpa using other)]
        rfl
      rw [kept, splitFrom?, splitFrom?]
      split_ifs with ended
      · rfl
      · rw [Option.isSome_map, Option.isSome_map]
        exact ih (unfinished_of_not_ended ended)

/-- Whether a list is closed is told by the parentheses of the text. -/
private theorem isSome_split?_parentheses (text : Text) :
    (split? text).isSome = (split? text.parentheses).isSome :=
  isSome_splitFrom?_parentheses (absurd · Bool.false_ne_true) text

end Arguments

/-- What an occurrence of a pattern is. -/
inductive Sighting where
  /-- No argument list follows. -/
  | mention
  /-- A call with a list that never closes. -/
  | unclosed
  /-- A call with a closed list. -/
  | closed
deriving DecidableEq, Repr

namespace CallRule

/-- What a reading sights at the front of its text, if the pattern is there. -/
def Reading.sighting? : Reading → Option Sighting
  | finished => none
  | plain .. => none
  | mention .. => some .mention
  | unclosed .. => some .unclosed
  | call .. => some .closed

/-- What there is to sight in a text at all occurrences of the pattern, from left to right.
Occurrences may overlap. -/
def sightings (rule : CallRule) (text : Text) : List Sighting :=
  text.tails.filterMap fun tail => (rule.read tail).sighting?

end CallRule

namespace Sighting

/-- Whether an opening parenthesis is the first character of a text behind its blanks. -/
def opens (behind : Text) : Bool :=
  (behind.dropWhile Text.isBlank).head? == some '('

/-- What an occurrence is with the given text behind it. -/
def before (behind : Text) : Sighting :=
  if opens behind then
    if (Arguments.split? (Text.parentheses behind)).isSome then .closed else .unclosed
  else .mention

end Sighting

namespace CallRule

/-- There is something to sight exactly at the occurrences of the pattern. -/
private theorem sighting?_read (rule : CallRule) (text : Text) :
    (rule.read text).sighting? = (rule.pattern.isPrefixOf? text).map Sighting.before := by
  cases text with
  | nil =>
    obtain ⟨c, front, pattern⟩ := List.exists_cons_of_length_pos rule.length_pattern_pos
    rw [pattern]
    rfl
  | cons c tail =>
    cases found : rule.pattern.isPrefixOf? (c :: tail) with
    | none =>
      rw [read_cons found]
      rfl
    | some behind =>
      have closed : (Arguments.split? (behind.dropWhile Text.isBlank)).isSome =
          (Arguments.split? (Text.parentheses behind)).isSome := by
        rw [Arguments.isSome_split?_parentheses, Text.parentheses_dropWhile_isBlank]
      simp only [read, found, Option.map_some, Sighting.before, Sighting.opens, ← closed]
      split_ifs with opening isClosed
      · obtain ⟨parts, cut⟩ := Option.isSome_iff_exists.mp isClosed
        rw [cut]
        rfl
      · rw [Option.not_isSome_iff_eq_none.mp isClosed]
        rfl
      · rfl

theorem sightings_cons (rule : CallRule) (c : Char) (rest : Text) :
    rule.sightings (c :: rest) =
      ((rule.pattern.isPrefixOf? (c :: rest)).map Sighting.before).toList ++
        rule.sightings rest := by
  rw [sightings, List.tails_cons, List.filterMap_cons, sighting?_read]
  cases rule.pattern.isPrefixOf? (c :: rest) <;> rfl

/-- Nothing is sighted at characters that the pattern does not hold. -/
private theorem sightings_append_of_foreign {rule : CallRule} {front : Text}
    (foreign : ∀ c ∈ front, c ∉ rule.pattern) (rest : Text) :
    rule.sightings (front ++ rest) = rule.sightings rest := by
  induction front with
  | nil => rfl
  | cons c front ih =>
    rw [List.cons_append, sightings_cons,
      isPrefixOf?_cons_eq_none (foreign c List.mem_cons_self),
      ih fun d member => foreign d (List.mem_cons_of_mem _ member)]
    rfl

private theorem sightings_cons_of_foreign {rule : CallRule} {c : Char} (foreign : c ∉ rule.pattern)
    (rest : Text) : rule.sightings (c :: rest) = rule.sightings rest := by
  have none : ∀ d ∈ [c], d ∉ rule.pattern := by simpa using foreign
  exact sightings_append_of_foreign none rest

/-- Nothing is sighted at a word that no colon follows. -/
private theorem sightings_append_cons_of_isWord {rule : CallRule} {word : Text} {c : Char}
    (isWord : word.all Text.isWordChar = true) (foreign : c ∉ rule.pattern) (rest : Text) :
    rule.sightings (word ++ c :: rest) = rule.sightings rest := by
  induction word with
  | nil => exact sightings_cons_of_foreign foreign rest
  | cons d word ih =>
    have absent : rule.pattern.isPrefixOf? (d :: word) = none := by
      apply Option.eq_none_iff_forall_ne_some.mpr
      intro behind found
      -- The pattern holds a colon, and the word holds none.
      have colon : ':' ∈ d :: word := by
        rw [Text.eq_append_of_isPrefixOf? found]
        exact List.mem_append_left _ (List.mem_append_right _ List.mem_cons_self)
      exact Bool.false_ne_true (List.all_eq_true.mp isWord _ colon)
    rw [List.all_cons, Bool.and_eq_true] at isWord
    rw [List.cons_append, sightings_cons, ← List.cons_append, isPrefixOf?_append_cons foreign,
      absent, ih isWord.2]
    rfl

/-! ## Exchanging the end of a text -/

/-- A text over whose first character the pattern does not reach. -/
def Bounds (rule : CallRule) (text : Text) : Prop :=
  ∃ c rest, text = c :: rest ∧ c ∉ rule.pattern

/-- Two texts that make no difference to what a rule sights in front of them and in them. -/
structure Alike (rule : CallRule) (first second : Text) : Prop where
  firstBounds : rule.Bounds first
  secondBounds : rule.Bounds second
  opens : Sighting.opens first = Sighting.opens second
  parentheses : Text.parentheses first = Text.parentheses second
  sightings : rule.sightings first = rule.sightings second

namespace Alike

variable {rule : CallRule} {first second : Text}

private theorem before_append (alike : Alike rule first second) (front : Text) :
    Sighting.before (front ++ first) = Sighting.before (front ++ second) := by
  have opens : Sighting.opens (front ++ first) = Sighting.opens (front ++ second) := by
    unfold Sighting.opens
    rw [List.dropWhile_append, List.dropWhile_append]
    split_ifs with blank
    · exact alike.opens
    · rw [List.isEmpty_iff] at blank
      obtain ⟨c, rest, solid⟩ := List.exists_cons_of_ne_nil blank
      rw [solid]
      rfl
  rw [Sighting.before, Sighting.before, opens, Text.parentheses_append, Text.parentheses_append,
    alike.parentheses]

theorem isPrefixOf?_append (alike : Alike rule first second) (front : Text) :
    (rule.pattern.isPrefixOf? (front ++ first)).map Sighting.before =
      (rule.pattern.isPrefixOf? (front ++ second)).map Sighting.before := by
  obtain ⟨c, rest, rfl, foreign⟩ := alike.firstBounds
  obtain ⟨d, rest', rfl, foreign'⟩ := alike.secondBounds
  rw [isPrefixOf?_append_cons foreign, isPrefixOf?_append_cons foreign', Option.map_map,
    Option.map_map]
  congr 1
  exact funext alike.before_append

/-- Behind any front the same is sighted. -/
private theorem sightings_append (alike : Alike rule first second) (front : Text) :
    rule.sightings (front ++ first) = rule.sightings (front ++ second) := by
  induction front with
  | nil => exact alike.sightings
  | cons c front ih =>
    have here := alike.isPrefixOf?_append (c :: front)
    rw [List.cons_append, List.cons_append] at here ⊢
    rw [sightings_cons, sightings_cons, here, ih]

end Alike

end CallRule

/-! ## Edits -/

private theorem parentheses_quoted {word : Text} (isWord : word.isWord = true) (rest : Text) :
    Text.parentheses ('"' :: (word ++ '"' :: rest)) = Text.parentheses rest := by
  have other := Outline.ofChar_eq_other_of_mem_literal isWord
  have literal := Text.parentheses_append_of_other (fun c member =>
    other c (List.mem_cons_of_mem _ (List.mem_cons_of_mem _ member))) rest
  simpa only [List.cons_append, List.append_assoc, List.nil_append] using literal

/-- An edit leaves the parentheses. -/
theorem Edit.parentheses {before after : Text} (edit : Edit before after) :
    Text.parentheses after = Text.parentheses before := by
  cases edit with
  | turn front rest =>
    rw [Text.parentheses_append, Text.parentheses_append]
    rfl
  | @mark front word rest isWord known =>
    rw [Text.parentheses_append, Text.parentheses_append,
      Text.parentheses_cons_of_ne (by decide) (by decide),
      Text.parentheses_cons_of_ne (by decide) (by decide), parentheses_quoted isWord]
  | @fill front word blanks rest isWord known blank =>
    have opening : ∀ text, Text.parentheses ('(' :: text) = '(' :: Text.parentheses text :=
      fun _ => rfl
    rw [Text.parentheses_append, Text.parentheses_append, opening, opening,
      parentheses_quoted isWord,
      Text.parentheses_append_of_other (Outline.ofChar_eq_other_of_blank blank)]

namespace CallRule

variable {rule : CallRule} (named : rule.Named)
include named

private theorem sightings_quoted {word : Text} (isWord : word.isWord = true) (rest : Text) :
    rule.sightings ('"' :: (word ++ '"' :: rest)) = rule.sightings rest := by
  have double : '"' ∉ rule.pattern := named.not_mem_pattern (by decide) (by decide)
  rw [sightings_cons_of_foreign double,
    sightings_append_cons_of_isWord (Bool.and_eq_true_iff.mp isWord).2 double]

/-- An edit exchanges the end of a text for one that is alike. -/
private theorem exists_alike_of_edit {before after : Text} (edit : Edit before after) :
    ∃ front first second, before = front ++ first ∧ after = front ++ second ∧
      Alike rule first second := by
  have foreign {c : Char} (other : Text.isWordChar c = false) (notColon : c ≠ ':') :
      c ∉ rule.pattern := named.not_mem_pattern other notColon
  have parentheses := edit.parentheses
  cases edit with
  | turn front rest =>
    refine ⟨front, _, _, rfl, rfl, ⟨_, _, rfl, foreign (by decide) (by decide)⟩,
      ⟨_, _, rfl, foreign (by decide) (by decide)⟩, rfl, rfl, ?_⟩
    rw [sightings_cons_of_foreign (foreign (by decide) (by decide)),
      sightings_cons_of_foreign (foreign (by decide) (by decide))]
  | @mark front word rest isWord known =>
    rw [Text.parentheses_append, Text.parentheses_append] at parentheses
    refine ⟨front, _, _, rfl, rfl, ⟨_, _, rfl, foreign (by decide) (by decide)⟩,
      ⟨_, _, rfl, foreign (by decide) (by decide)⟩, rfl,
      (List.append_cancel_left parentheses).symm, ?_⟩
    rw [sightings_cons_of_foreign (foreign (by decide) (by decide)) (' ' :: _),
      sightings_cons_of_foreign (foreign (by decide) (by decide)) ('"' :: _),
      sightings_quoted named isWord]
  | @fill front word blanks rest isWord known blank =>
    rw [Text.parentheses_append, Text.parentheses_append] at parentheses
    refine ⟨front, _, _, rfl, rfl, ⟨_, _, rfl, foreign (by decide) (by decide)⟩,
      ⟨_, _, rfl, foreign (by decide) (by decide)⟩, rfl,
      (List.append_cancel_left parentheses).symm, ?_⟩
    have opening : '(' ∉ rule.pattern := foreign (by decide) (by decide)
    have blanksForeign : ∀ c ∈ blanks, c ∉ rule.pattern := fun c member =>
      named.not_mem_pattern_of_isBlank (List.all_eq_true.mp blank c member)
    rw [sightings_cons_of_foreign opening, sightings_cons_of_foreign opening,
      sightings_quoted named isWord, sightings_append_of_foreign blanksForeign]

/-- An edit leaves what there is to sight. -/
private theorem sightings_of_edit {before after : Text} (edit : Edit before after) :
    rule.sightings after = rule.sightings before := by
  obtain ⟨front, first, second, rfl, rfl, alike⟩ := exists_alike_of_edit named edit
  exact (alike.sightings_append front).symm

end CallRule

namespace CallRule

/-- A prepared script has the parentheses of its source, and every rule, be it one of those that
have been applied or not, sights the same in both: as many occurrences of its pattern, and in the
same order mentions, unclosed calls and closed calls. -/
theorem sightings_prepare {rules : List CallRule} (named : ∀ rule ∈ rules, rule.Named)
    (script : Text) :
    Text.parentheses (prepare rules script) = Text.parentheses script ∧
      ∀ rule : CallRule, rule.Named →
        rule.sightings (prepare rules script) = rule.sightings script := by
  have edits := edits_prepare named script
  constructor
  · exact edits.keep fun _ _ edit => edit.parentheses
  · intro rule ruleNamed
    exact edits.keep fun _ _ edit => sightings_of_edit ruleNamed edit

/-- The rule of `bar:foo` is none of those that are applied, and sights a mention, a closed call and
an unclosed one. -/
theorem sightings_prepare_other :
    Text.parentheses (prepare [⟨"foo".toList, "bar".toList⟩, ⟨"foo".toList, "baz".toList⟩]
        "foo:baz( foo:bar:foo, bar:foo(\"b\")) foo:bar( ) bar:foo(".toList) = "(())()(".toList ∧
      sightings ⟨"bar".toList, "foo".toList⟩
        (prepare [⟨"foo".toList, "bar".toList⟩, ⟨"foo".toList, "baz".toList⟩]
          "foo:baz( foo:bar:foo, bar:foo(\"b\")) foo:bar( ) bar:foo(".toList) =
        [.mention, .closed, .unclosed] := by
  have named : ∀ rule ∈ [(⟨"foo".toList, "bar".toList⟩ : CallRule), ⟨"foo".toList, "baz".toList⟩],
      rule.Named := by decide
  have kept := sightings_prepare named
    "foo:baz( foo:bar:foo, bar:foo(\"b\")) foo:bar( ) bar:foo(".toList
  rw [kept.1, kept.2 ⟨"bar".toList, "foo".toList⟩ (by decide)]
  decide +kernel

end CallRule

end PluginScript
