import PluginScript.CallRule.Pass
import PluginScript.Proofs.OutlineCalls

/-! # Passes over outlines

A pass of a named rule is a walk over the outline of the text: it keeps the tree, marks the groups
that belong to calls, and stops at a loose parenthesis that belongs to one (`ofText_pass`). Unlike
the pass over the text it takes every rule along the same tree, whatever lists the rule marks, so
that the passes of several rules can be compared group by group.
-/

namespace PluginScript

open Arguments (Bracket)

namespace CallRule

variable {rule : CallRule}

theorem read_cons {c : Char} {tail : Text}
    (absent : rule.pattern.isPrefixOf? (c :: tail) = none) :
    rule.read (c :: tail) = .plain c tail := by
  simp only [read, absent]

theorem exists_pattern_append_eq_cons (rule : CallRule) (behind : Text) :
    ∃ c tail, rule.pattern ++ behind = c :: tail := by
  apply List.exists_cons_of_length_pos
  have positive := rule.length_pattern_pos
  rw [List.length_append]
  omega

theorem read_mention {behind : Text}
    (mention : (behind.dropWhile Text.isBlank).head? ≠ some '(') :
    rule.read (rule.pattern ++ behind) = .mention behind := by
  have found := Text.isPrefixOf?_append rule.pattern behind
  obtain ⟨c, tail, whole⟩ := rule.exists_pattern_append_eq_cons behind
  rw [whole] at found ⊢
  simp only [read, found, beq_iff_eq, if_neg mention]

theorem read_unclosed {blanks rest : Text} (blank : blanks.all Text.isBlank = true)
    (unclosed : Arguments.split? ('(' :: rest) = none) :
    rule.read (rule.pattern ++ (blanks ++ '(' :: rest)) = .unclosed (blanks ++ '(' :: rest) := by
  have body := Text.dropWhile_isBlank_append blank (by decide : Text.isBlank '(' = false) rest
  have found := Text.isPrefixOf?_append rule.pattern (blanks ++ '(' :: rest)
  obtain ⟨c, tail, whole⟩ := rule.exists_pattern_append_eq_cons (blanks ++ '(' :: rest)
  rw [whole] at found ⊢
  simp only [read, found, body, List.head?_cons, beq_self_eq_true, if_true, unclosed]

theorem read_call {blanks rest list after : Text} (blank : blanks.all Text.isBlank = true)
    (closed : Arguments.split? ('(' :: rest) = some (list, after)) :
    rule.read (rule.pattern ++ (blanks ++ '(' :: rest)) = .call blanks list after := by
  have body := Text.dropWhile_isBlank_append blank (by decide : Text.isBlank '(' = false) rest
  have found := Text.isPrefixOf?_append rule.pattern (blanks ++ '(' :: rest)
  have front : (blanks ++ '(' :: rest).takeWhile Text.isBlank = blanks := by
    rw [List.takeWhile_append_of_pos (List.all_eq_true.mp blank),
      List.takeWhile_cons_of_neg (by decide), List.append_nil]
  obtain ⟨c, tail, whole⟩ := rule.exists_pattern_append_eq_cons (blanks ++ '(' :: rest)
  rw [whole] at found ⊢
  simp only [read, found, body, List.head?_cons, beq_self_eq_true, if_true, closed, front]

theorem read_of_not_occurs {c : Char} {rest : Text}
    (absent : Text.occursIn rule.pattern (c :: rest) = false) :
    rule.read (c :: rest) = .plain c rest := by
  rw [Text.occursIn, Bool.or_eq_false_iff] at absent
  apply read_cons
  rw [← Option.isNone_iff_eq_none, ← Option.not_isSome, List.isSome_isPrefixOf?_eq_isPrefixOf,
    absent.1]
  rfl

/-- A pass leaves a text alone in which the pattern does not occur. -/
theorem pass_of_not_occurs {text : Text} (absent : Text.occursIn rule.pattern text = false) :
    rule.pass text = text := by
  induction text with
  | nil => exact pass_nil
  | cons c rest ih =>
    have behind : Text.occursIn rule.pattern rest = false := by
      rw [Text.occursIn, Bool.or_eq_false_iff] at absent
      exact absent.2
    rw [pass_of_read_plain (read_of_not_occurs absent), ih behind]

/-- Looking for the pattern inside a list first only spares a pass that changes nothing. -/
private theorem ite_occursInside (named : rule.Named) (rest : Text) :
    (if rule.occursInside ('(' :: rest) then rule.pass ('(' :: rest) else '(' :: rest) =
      rule.pass ('(' :: rest) := by
  split_ifs with inside
  · rfl
  · rw [occursInside, List.drop_one, List.tail_cons, Bool.not_eq_true] at inside
    rw [pass_of_read_plain (read_cons (named.isPrefixOf?_opening rest)), pass_of_not_occurs inside]

end CallRule

namespace Outline

/-! ## Marking a group -/

/-- The outline with single quotes in place of double ones. -/
def singleQuoted : Outline → Outline
  | nil => nil
  | char c rest => char (Arguments.singleQuote c) rest.singleQuoted
  | group inner rest => group inner.singleQuoted rest.singleQuoted

/-- What stands between the parentheses of a list with the name of the method appended. -/
def mark (inner : Outline) (method : Text) : Outline :=
  if inner.text.all Text.isBlank then spell ('"' :: (method ++ ['"']))
  else inner.singleQuoted ++ spell (',' :: ' ' :: '"' :: (method ++ ['"']))

@[simp] theorem text_singleQuoted (outline : Outline) :
    outline.singleQuoted.text = Arguments.singleQuoted outline.text := by
  induction outline with
  | nil => rfl
  | char c rest ih => rw [singleQuoted, text_char, ih]; rfl
  | group inner rest ihInner ih =>
    rw [singleQuoted, text_group, ihInner, ih, text_group, Arguments.singleQuoted_cons,
      Arguments.singleQuoted_append]
    rfl

/-- Marking the outline of a list is marking the list. -/
theorem list_mark (inner : Outline) (method : Text) :
    (inner.mark method).list = Arguments.mark inner.list method := by
  rw [list_eq_concat inner, Arguments.mark, List.dropLast_concat]
  simp only [List.drop_one, List.tail_cons]
  unfold mark
  split_ifs
  · simp only [list_eq, text_spell, List.cons_append, List.nil_append, List.append_assoc]
  · simp only [list_eq, text_append, text_singleQuoted, text_spell, List.cons_append,
      List.nil_append, List.append_assoc, Arguments.singleQuoted_cons]
    rfl

/-! ## The pass -/

/-- Whether a rule marks the list around `inner`, which stands behind `before`. -/
def marks (rule : CallRule) (before : Text) (inner : Outline) : Bool :=
  rule.announces before && !Arguments.isMarked inner.list rule.method

/-- Marks the calls by one rule in an outline that stands behind `before`, the text since the last
parenthesis. -/
def pass (rule : CallRule) (before : Text) : Outline → Outline
  | nil => nil
  | char c rest =>
    if c = '(' ∧ rule.announces before = true then char c rest
    else char c (rest.pass rule (extend before c))
  | group inner rest =>
    let passed := inner.pass rule []
    group (if marks rule before inner then passed.mark rule.method else passed) (rest.pass rule [])

/-- What a pass leaves between the parentheses of a list that stands behind `before`. -/
def passList (rule : CallRule) (before : Text) (inner : Outline) : Outline :=
  if marks rule before inner then (inner.pass rule []).mark rule.method else inner.pass rule []

section Pass

variable {rule : CallRule} {before : Text} {inner rest : Outline}

theorem pass_unclosed (announced : rule.announces before = true) :
    (char '(' rest).pass rule before = char '(' rest := by
  rw [pass, if_pos ⟨rfl, announced⟩]

theorem pass_char {c : Char} (silent : c = '(' → rule.announces before = false) :
    (char c rest).pass rule before = char c (rest.pass rule (extend before c)) := by
  rw [pass, if_neg]
  rintro ⟨opening, announced⟩
  rw [silent opening] at announced
  contradiction

theorem pass_group : (group inner rest).pass rule before =
    group (inner.passList rule before) (rest.pass rule []) := rfl

theorem passList_of_marks (marked : marks rule before inner = true) :
    inner.passList rule before = (inner.pass rule []).mark rule.method :=
  if_pos marked

theorem passList_of_not_marks (idle : marks rule before inner = false) :
    inner.passList rule before = inner.pass rule [] :=
  if_neg (Bool.eq_false_iff.mp idle)

/-- Nothing announces a call directly behind a parenthesis. -/
theorem marks_nil : marks rule [] inner = false := by
  rw [marks, rule.announces_nil, Bool.false_and]

private theorem pass_congr {first second : Text} {outline : Outline}
    (alike : AnnounceAlike rule first second outline) :
    outline.pass rule first = outline.pass rule second := by
  induction outline generalizing first second with
  | nil => rfl
  | char c rest ih =>
    by_cases opening : c = '('
    · subst opening
      simp only [pass, alike.of_opening, ih alike.extend]
    · rw [pass_char (absurd · opening), pass_char (absurd · opening), ih alike.extend]
  | group inner rest =>
    rw [pass_group, pass_group, passList, passList, marks, marks, alike.of_group]

private theorem pass_spell_append {word : Text} (plain : ∀ c ∈ word, Bracket.ofChar c = .other) :
    (spell word ++ rest).pass rule before = spell word ++ rest.pass rule (before ++ word) := by
  induction word generalizing before with
  | nil => rw [List.append_nil]; rfl
  | cons c word ih =>
    have here := plain c List.mem_cons_self
    rw [spell_cons, char_append, pass_char (absurd · (ofChar_eq_other_iff.mp here).1),
      extend_of_other here, ih fun d member => plain d (List.mem_cons_of_mem _ member),
      List.append_assoc]
    rfl

private theorem pass_append_closing (balanced : inner.Balanced) :
    (inner ++ char ')' rest).pass rule before =
      inner.pass rule before ++ char ')' (rest.pass rule []) := by
  induction inner generalizing before with
  | nil => exact pass_char (absurd · (by decide))
  | char c front ih =>
    have here := (ofChar_eq_other_iff.mp balanced.1).1
    rw [char_append, pass_char (absurd · here), pass_char (absurd · here), ih balanced.2]
    rfl
  | group inner front _ ih =>
    rw [group_append, pass_group, pass_group, ih balanced.2]
    rfl

theorem pass_spell {word : Text} (plain : ∀ c ∈ word, Bracket.ofChar c = .other) :
    (spell word).pass rule before = spell word := by
  induction word generalizing before with
  | nil => rfl
  | cons c word ih =>
    have here := plain c List.mem_cons_self
    rw [spell_cons, pass_char (absurd · (ofChar_eq_other_iff.mp here).1),
      ih fun d member => plain d (List.mem_cons_of_mem _ member)]

/-- A pass does nothing to a word at the end. -/
theorem pass_append_spell {word : Text} (plain : ∀ c ∈ word, Bracket.ofChar c = .other)
    (outline : Outline) :
    (outline ++ spell word).pass rule before = outline.pass rule before ++ spell word := by
  induction outline generalizing before with
  | nil => exact pass_spell plain
  | char c front ih =>
    rw [char_append, pass, pass]
    split_ifs
    · rfl
    · rw [ih, char_append]
  | group inner front _ ih => rw [group_append, pass_group, pass_group, ih, group_append]

/-- A pass keeps a text of blanks, and no other text becomes one. -/
theorem all_isBlank_pass (outline : Outline) :
    (outline.pass rule before).text.all Text.isBlank = outline.text.all Text.isBlank := by
  induction outline generalizing before with
  | nil => rfl
  | char c rest ih =>
    rw [pass]
    split_ifs
    · rfl
    · rw [text_char, text_char, List.all_cons, List.all_cons, ih]
  | group inner rest =>
    have solid : Text.isBlank '(' = false := by decide
    rw [pass_group, text_group, text_group, List.all_cons, List.all_cons, solid, Bool.false_and,
      Bool.false_and]

/-- The list of a call is settled by the pass over it. -/
private theorem list_passList (announced : rule.announces before = true) {inner : Outline}
    (listed : (inner.pass rule []).list = rule.pass inner.list) :
    (inner.passList rule before).list = rule.settle inner.list (rule.pass inner.list) := by
  rw [passList, marks, announced, Bool.true_and, CallRule.settle]
  cases Arguments.isMarked inner.list rule.method
  · rw [Bool.not_false, if_pos rfl, if_neg Bool.false_ne_true, list_mark, listed]
  · exact listed

end Pass

/-- A pass over a text is the pass over its outline. -/
theorem text_pass {rule : CallRule} (named : rule.Named) {outline : Outline}
    (canonical : outline.Canonical) : (outline.pass rule []).text = rule.pass outline.text := by
  refine induction_on_calls named ?nil ?char ?group ?mention ?unclosed ?call outline canonical
  case nil => exact CallRule.pass_nil.symm
  case char =>
    intro c rest absent isOpen ih
    rw [pass_char fun _ => rule.announces_nil, pass_congr (.of_absent absent), text_char, ih,
      text_char, CallRule.pass_of_read_plain (CallRule.read_cons absent)]
  case group =>
    intro inner rest balanced ih
    have absent := named.isPrefixOf?_opening (inner.text ++ ')' :: rest.text)
    rw [pass_append_closing balanced] at ih
    simp only [text_append, text_char] at ih
    rw [pass_group, passList_of_not_marks marks_nil, text_group, text_group, ih,
      CallRule.pass_of_read_plain (CallRule.read_cons absent)]
  case mention =>
    intro rest mention ih
    rw [pass_spell_append named.ofChar_eq_other, List.nil_append,
      pass_congr (.of_mention mention), text_append, text_spell, ih, text_append, text_spell,
      CallRule.pass_of_read_mention (CallRule.read_mention mention)]
  case unclosed =>
    intro blanks rest blank isOpen _
    have announced := rule.announces_pattern_blanks blank
    have reading : rule.read (rule.pattern ++ (blanks ++ '(' :: rest.text)) = _ :=
      CallRule.read_unclosed blank (split?_char isOpen)
    rw [pass_spell_append named.ofChar_eq_other, List.nil_append,
      pass_spell_append (ofChar_eq_other_of_blank blank), pass_unclosed announced]
    simp only [text_append, text_spell, text_char]
    exact (CallRule.pass_of_read_unclosed reading).symm
  case call =>
    intro blanks inner rest blank balanced ihList ihRest _
    have reading : rule.read (rule.pattern ++ (blanks ++ (group inner rest).text)) = _ :=
      CallRule.read_call blank (split?_group balanced rest)
    have listed : (inner.pass rule []).list = rule.pass inner.list := by
      rw [pass_group, passList_of_not_marks marks_nil] at ihList
      exact ihList
    rw [pass_spell_append named.ofChar_eq_other, List.nil_append,
      pass_spell_append (ofChar_eq_other_of_blank blank), pass_group]
    simp only [text_append, text_spell, text_group_eq _ (rest.pass rule []), ihRest,
      list_passList (rule.announces_pattern_blanks blank) listed]
    rw [CallRule.pass_of_read_call reading, list_eq, CallRule.ite_occursInside named]
    simp only [List.append_assoc]

/-! ## A pass keeps an outline canonical -/

theorem ofChar_singleQuote (c : Char) :
    Bracket.ofChar (Arguments.singleQuote c) = Bracket.ofChar c := by
  unfold Arguments.singleQuote
  split_ifs with double
  · subst double
    rfl
  · rfl

theorem Balanced.singleQuoted {outline : Outline} (balanced : outline.Balanced) :
    outline.singleQuoted.Balanced := by
  induction outline with
  | nil => trivial
  | char c rest ih => exact ⟨(ofChar_singleQuote c).trans balanced.1, ih balanced.2⟩
  | group inner rest ihInner ih => exact ⟨ihInner balanced.1, ih balanced.2⟩

theorem Balanced.append {first second : Outline} (balanced : first.Balanced)
    (behind : second.Balanced) : (first ++ second).Balanced := by
  induction first with
  | nil => exact behind
  | char c rest ih => exact ⟨balanced.1, ih balanced.2⟩
  | group inner rest _ ih => exact ⟨balanced.1, ih balanced.2⟩

private theorem balanced_spell {word : Text} (plain : ∀ c ∈ word, Bracket.ofChar c = .other) :
    (spell word).Balanced := by
  induction word with
  | nil => trivial
  | cons c rest ih =>
    exact ⟨plain c List.mem_cons_self, ih fun d member => plain d (List.mem_cons_of_mem _ member)⟩

/-- What marking writes holds no parenthesis. -/
theorem ofChar_eq_other_of_mem_literal {method : Text} (word : method.isWord = true) :
    ∀ c ∈ ',' :: ' ' :: '"' :: (method ++ ['"']), Bracket.ofChar c = .other := by
  intro c member
  simp only [List.mem_cons, List.mem_append, List.not_mem_nil, or_false] at member
  rcases member with rfl | rfl | rfl | member | rfl
  · rfl
  · rfl
  · rfl
  · have isWord := Text.isWordChar_of_mem word member
    apply ofChar_eq_other_iff.mpr
    constructor
    · exact Text.ne_of_isWordChar isWord (by decide)
    · exact Text.ne_of_isWordChar isWord (by decide)
  · rfl

theorem Balanced.mark {inner : Outline} (balanced : inner.Balanced) {method : Text}
    (word : method.isWord = true) : (inner.mark method).Balanced := by
  have plain := ofChar_eq_other_of_mem_literal word
  unfold Outline.mark
  split_ifs
  · exact balanced_spell fun c member =>
      plain c (List.mem_cons_of_mem _ (List.mem_cons_of_mem _ member))
  · exact balanced.singleQuoted.append (balanced_spell plain)

section Named

variable {rule : CallRule} (named : rule.Named) {outline inner : Outline} {before : Text}
include named

theorem Balanced.pass (balanced : outline.Balanced) : (outline.pass rule before).Balanced := by
  induction outline generalizing before with
  | nil => trivial
  | char c rest ih =>
    rw [pass_char (absurd · (ofChar_eq_other_iff.mp balanced.1).1)]
    exact ⟨balanced.1, ih balanced.2⟩
  | group inner rest ihInner ih =>
    constructor
    · split_ifs
      · exact (ihInner balanced.1).mark named.method
      · exact ihInner balanced.1
    · exact ih balanced.2

theorem Balanced.passList (balanced : inner.Balanced) : (inner.passList rule before).Balanced := by
  unfold Outline.passList
  split_ifs
  · exact (balanced.pass named).mark named.method
  · exact balanced.pass named

theorem Open.pass (isOpen : outline.Open) : (outline.pass rule before).Open := by
  induction outline generalizing before with
  | nil => trivial
  | char c rest ih =>
    rw [Outline.pass]
    split_ifs
    · exact isOpen
    · exact ⟨isOpen.1, ih isOpen.2⟩
  | group inner rest _ ih => exact ⟨isOpen.1.passList named, ih isOpen.2⟩

theorem Canonical.pass (canonical : outline.Canonical) :
    (outline.pass rule before).Canonical := by
  induction outline generalizing before with
  | nil => trivial
  | char c rest ih =>
    rw [Outline.pass]
    split_ifs
    · exact canonical
    · exact ⟨fun opening => (canonical.1 opening).pass named, ih canonical.2⟩
  | group inner rest _ ih => exact ⟨canonical.1.passList named, ih canonical.2⟩

/-- The outline of what a pass leaves is the pass over the outline. -/
theorem ofText_pass (text : Text) : ofText (rule.pass text) = (ofText text).pass rule [] := by
  have canonical := canonical_ofText text
  have whole := text_pass named canonical
  rw [text_ofText] at whole
  rw [← whole, (canonical.pass named).ofText_text]

end Named

/-- The outline of a prepared script is the outline of the script after all passes. -/
theorem ofText_prepare {rules : List CallRule} (named : ∀ rule ∈ rules, rule.Named)
    (script : Text) : ofText (CallRule.prepare rules script) =
      rules.foldl (fun outline rule => outline.pass rule []) (ofText script) := by
  induction rules generalizing script with
  | nil => rfl
  | cons rule rules ih =>
    rw [CallRule.prepare_cons, ih fun other member => named other (List.mem_cons_of_mem _ member),
      ofText_pass (named rule List.mem_cons_self), List.foldl_cons]

end Outline

end PluginScript
