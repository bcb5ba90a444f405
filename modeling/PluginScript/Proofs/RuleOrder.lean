import PluginScript.Proofs.Settled

/-! # The order of the rules

The order of the rules shows in a prepared script in nothing but the kind of its quotes, if the
script has quotes of one kind only (`singleQuoted_prepare_of_perm`). With both kinds it may show in
more: a list like `(1, 'bar")` is not marked, but becomes so when a list around it turns its quotes.

So an outline is of one kind if turning its quotes marks no list of it (`OneKind`). A pass leaves
such an outline of one kind, and what it makes of it depends on the quotes only in the quotes
(`singleQuoted_pass`). Then two passes commute group by group (`singleQuoted_pass_pass`): if both
rules would append to a list they have the same method, and the later one finds it there.
-/

namespace PluginScript.Outline

open Arguments (Bracket)

/-! ## Outlines with one kind of quotes -/

@[simp] theorem singleQuoted_singleQuoted (outline : Outline) :
    outline.singleQuoted.singleQuoted = outline.singleQuoted := by
  induction outline with
  | nil => rfl
  | char c rest ih => rw [singleQuoted, singleQuoted, Arguments.singleQuote_singleQuote, ih]
  | group inner rest ihInner ih => rw [singleQuoted, singleQuoted, ihInner, ih]

theorem singleQuoted_append (first second : Outline) :
    (first ++ second).singleQuoted = first.singleQuoted ++ second.singleQuoted := by
  induction first with
  | nil => rfl
  | char c rest ih => rw [char_append, singleQuoted, ih, singleQuoted, char_append]
  | group inner rest _ ih => rw [group_append, singleQuoted, ih, singleQuoted, group_append]

theorem singleQuoted_eq_self {outline : Outline} (single : '"' ∉ outline.text) :
    outline.singleQuoted = outline := by
  induction outline with
  | nil => rfl
  | char c rest ih =>
    rw [text_char, List.mem_cons, not_or] at single
    rw [singleQuoted, Arguments.singleQuote_of_ne (Ne.symm single.1), ih single.2]
  | group inner rest ihInner ih =>
    simp only [text_group, List.mem_cons, List.mem_append, not_or] at single
    rw [singleQuoted, ihInner single.2.1, ih single.2.2.2]

/-- Single quotes in place of double ones mark no list of the outline. -/
def OneKind : Outline → Prop
  | nil => True
  | char _ rest => rest.OneKind
  | group inner rest =>
    (∀ method : Text, method.isWord = true →
      Arguments.isMarked inner.singleQuoted.list method = true →
      Arguments.isMarked inner.list method = true) ∧ inner.OneKind ∧ rest.OneKind

private theorem oneKind_singleQuoted (outline : Outline) : outline.singleQuoted.OneKind := by
  induction outline with
  | nil => trivial
  | char c rest ih => exact ih
  | group inner rest ihInner ih =>
    refine ⟨?_, ihInner, ih⟩
    intro method _ marked
    rwa [singleQuoted_singleQuoted] at marked

/-- A text with one kind of quotes has an outline of one kind. -/
private theorem oneKind_of_not_mem {outline : Outline}
    (oneKind : '"' ∉ outline.text ∨ '\'' ∉ outline.text) : outline.OneKind := by
  rcases oneKind with single | double
  · rw [← singleQuoted_eq_self single]
    exact oneKind_singleQuoted outline
  · induction outline with
    | nil => trivial
    | char c rest ih =>
      rw [text_char, List.mem_cons, not_or] at double
      exact ih double.2
    | group inner rest ihInner ih =>
      simp only [text_group, List.mem_cons, List.mem_append, not_or] at double
      refine ⟨?_, ihInner double.2.1, ih double.2.2.2⟩
      intro method word marked
      have noSingle : '\'' ∉ '(' :: inner.text := by
        rw [List.mem_cons, not_or]
        exact ⟨by decide, double.2.1⟩
      have opening : '(' :: Arguments.singleQuoted inner.text =
          Arguments.singleQuoted ('(' :: inner.text) := rfl
      rw [list_eq_concat] at marked ⊢
      rw [text_singleQuoted, opening] at marked
      exact Arguments.isMarked_of_singleQuoted word noSingle marked

private theorem oneKind_spell (word : Text) : (spell word).OneKind := by
  induction word with
  | nil => trivial
  | cons c word ih => exact ih

theorem OneKind.append_spell {outline : Outline} (oneKind : outline.OneKind) (word : Text) :
    (outline ++ spell word).OneKind := by
  induction outline with
  | nil => exact oneKind_spell word
  | char c rest ih => exact ih oneKind
  | group inner rest _ ih => exact ⟨oneKind.1, oneKind.2.1, ih oneKind.2.2⟩

private theorem oneKind_mark (inner : Outline) (method : Text) : (inner.mark method).OneKind := by
  unfold mark
  split_ifs
  · exact oneKind_spell _
  · exact (oneKind_singleQuoted inner).append_spell _

private theorem ending_singleQuoted (front : Text) (outline : Outline) :
    outline.singleQuoted.ending (Arguments.singleQuoted front) =
      Arguments.singleQuoted (outline.ending front) := by
  induction outline generalizing front with
  | nil => rfl
  | char c rest ih =>
    rw [singleQuoted, ending, ending, ← ih, Arguments.singleQuoted_append]
    rfl
  | group inner rest _ ih => exact ih [')']

/-- Whether turning the quotes marks a list is told by its ending, so no pass changes it. -/
private theorem isMarked_list_singleQuoted_pass {method : Text} (word : method.isWord = true)
    (rule : CallRule) (inner : Outline) :
    Arguments.isMarked (inner.pass rule []).singleQuoted.list method =
      Arguments.isMarked inner.singleQuoted.list method := by
  have opening : ['('] = Arguments.singleQuoted ['('] := rfl
  rw [isMarked_list word, isMarked_list word inner.singleQuoted, opening, ending_singleQuoted,
    ending_singleQuoted, ending_pass]

/-- A pass leaves an outline of one kind of one kind. -/
theorem OneKind.pass {rule : CallRule} (named : rule.Named) {outline : Outline} {before : Text}
    (oneKind : outline.OneKind) : (outline.pass rule before).OneKind := by
  induction outline generalizing before with
  | nil => trivial
  | char c rest ih =>
    rw [Outline.pass]
    split_ifs
    · exact oneKind
    · exact ih oneKind
  | group inner rest ihInner ih =>
    obtain ⟨kind, innerKind, restKind⟩ := oneKind
    rw [pass_group]
    cases marks : marks rule before inner
    · rw [passList_of_not_marks marks]
      refine ⟨?_, ihInner innerKind, ih restKind⟩
      intro method word marked
      rw [isMarked_list_singleQuoted_pass word] at marked
      rw [isMarked_list_pass word]
      exact kind method word marked
    · rw [passList_of_marks marks]
      refine ⟨?_, oneKind_mark _ _, ih restKind⟩
      intro method word marked
      -- The list carries one method already, and a list carries one method at most.
      have own := isMarked_list_mark (inner.pass rule []) rule.method
      have turned := isMarked_list_singleQuoted named.method own
      rw [list_eq_concat] at marked turned
      rw [Arguments.method_eq_of_isMarked word named.method marked turned]
      exact own

/-! ## Passes up to the kind of quotes -/

/-- Marking depends on the quotes in a list only in the quotes. -/
private theorem singleQuoted_mark (inner : Outline) (method : Text) :
    (inner.mark method).singleQuoted = (inner.singleQuoted.mark method).singleQuoted := by
  unfold mark
  rw [text_singleQuoted, Arguments.all_isBlank_singleQuoted]
  split_ifs
  · rfl
  · rw [singleQuoted_singleQuoted]

private theorem singleQuoted_mark_congr {first second : Outline}
    (same : first.singleQuoted = second.singleQuoted) (method : Text) :
    (first.mark method).singleQuoted = (second.mark method).singleQuoted := by
  rw [singleQuoted_mark, same, ← singleQuoted_mark]

section Named

variable {rule other : CallRule} (named : rule.Named) {outline inner : Outline} {before : Text}
include named

/-- What a pass makes of an outline of one kind depends on the quotes only in the quotes. -/
theorem singleQuoted_pass (oneKind : outline.OneKind) :
    (outline.pass rule before).singleQuoted =
      (outline.singleQuoted.pass rule (Arguments.singleQuoted before)).singleQuoted := by
  have announces := CallRule.announces_singleQuoted named
  induction outline generalizing before with
  | nil => rfl
  | char c rest ih =>
    have stops : (Arguments.singleQuote c = '(' ∧
        rule.announces (Arguments.singleQuoted before) = true) ↔
          (c = '(' ∧ rule.announces before = true) := by
      rw [announces]
      refine and_congr_left fun _ => ⟨Arguments.eq_of_singleQuote_eq (by decide), ?_⟩
      rintro rfl
      rfl
    rw [singleQuoted, pass, pass]
    by_cases unclosed : c = '(' ∧ rule.announces before = true
    · rw [if_pos unclosed, if_pos (stops.mpr unclosed), singleQuoted, singleQuoted,
        singleQuoted_singleQuoted, Arguments.singleQuote_singleQuote]
    · rw [if_neg unclosed, if_neg (unclosed ∘ stops.mp), singleQuoted, singleQuoted,
        extend_singleQuoted, Arguments.singleQuote_singleQuote, ih oneKind]
  | group inner rest ihInner ih =>
    obtain ⟨kind, innerKind, restKind⟩ := oneKind
    have same : marks rule (Arguments.singleQuoted before) inner.singleQuoted =
        marks rule before inner := by
      rw [marks, marks, announces]
      congr 2
      exact Bool.eq_iff_iff.mpr
        ⟨kind rule.method named.method, isMarked_list_singleQuoted named.method⟩
    have innerSame : (inner.pass rule []).singleQuoted =
        (inner.singleQuoted.pass rule []).singleQuoted := ihInner innerKind
    have restSame : (rest.pass rule []).singleQuoted =
        (rest.singleQuoted.pass rule []).singleQuoted := ih restKind
    rw [singleQuoted, pass_group, pass_group, passList, passList, same, singleQuoted, singleQuoted,
      restSame]
    split_ifs
    · rw [singleQuoted_mark_congr innerSame]
    · rw [innerSame]

/-- A pass over what stands in a list and the mark of the list do not meet. -/
private theorem singleQuoted_pass_mark (oneKind : inner.OneKind) {method : Text}
    (word : method.isWord = true) :
    ((inner.mark method).pass rule []).singleQuoted =
      ((inner.pass rule []).mark method).singleQuoted := by
  have plain := ofChar_eq_other_of_mem_literal word
  rw [mark, mark, all_isBlank_pass]
  split_ifs
  · rw [pass_spell fun c member =>
      plain c (List.mem_cons_of_mem _ (List.mem_cons_of_mem _ member))]
  · have turned : (inner.pass rule []).singleQuoted =
        (inner.singleQuoted.pass rule []).singleQuoted := singleQuoted_pass named oneKind
    rw [pass_append_spell plain, singleQuoted_append, singleQuoted_append,
      singleQuoted_singleQuoted, turned]

/-! ## Two passes -/

/-- Where one rule has marked a list, no rule marks it again. -/
private theorem marks_mark (otherNamed : other.Named) (marked : marks rule before inner = true)
    (settled : Outline) : marks other before (settled.mark rule.method) = false := by
  rw [marks, Bool.and_eq_true] at marked
  rw [marks]
  cases announced : other.announces before
  · rfl
  · rw [CallRule.method_eq_of_announces named otherNamed marked.1 announced, isMarked_list_mark]
    rfl

omit named in
private theorem marks_pass (otherNamed : other.Named) :
    marks other before (inner.pass rule []) = marks other before inner := by
  rw [marks, marks, isMarked_list_pass otherNamed.method]

/-- What two passes leave between the parentheses of a list, which is marked if either rule marks
it. -/
private theorem singleQuoted_passList_passList (otherNamed : other.Named)
    (oneKind : inner.OneKind) :
    ((inner.passList rule before).passList other before).singleQuoted =
      (if marks rule before inner then ((inner.pass rule []).pass other []).mark rule.method
        else if marks other before inner then
          ((inner.pass rule []).pass other []).mark other.method
        else (inner.pass rule []).pass other []).singleQuoted := by
  cases marked : marks rule before inner
  · rw [passList_of_not_marks marked, if_neg Bool.false_ne_true, passList, marks_pass otherNamed]
  · rw [passList_of_marks marked, if_pos rfl,
      passList_of_not_marks (marks_mark named otherNamed marked _)]
    exact singleQuoted_pass_mark otherNamed (oneKind.pass named) named.method

/-- Two passes commute, up to the kind of the quotes. -/
theorem singleQuoted_pass_pass (otherNamed : other.Named) (oneKind : outline.OneKind) :
    ((outline.pass rule before).pass other before).singleQuoted =
      ((outline.pass other before).pass rule before).singleQuoted := by
  induction outline generalizing before with
  | nil => rfl
  | char c rest ih =>
    by_cases first : c = '(' ∧ rule.announces before = true
    · obtain ⟨rfl, announced⟩ := first
      rw [pass_unclosed announced, pass]
      split_ifs
      · rw [pass_unclosed announced]
      · rw [pass_unclosed announced]
    · have silent (opening : c = '(') : rule.announces before = false :=
        Bool.eq_false_iff.mpr fun announced => first ⟨opening, announced⟩
      rw [pass_char silent]
      by_cases second : c = '(' ∧ other.announces before = true
      · obtain ⟨rfl, announced⟩ := second
        rw [pass_unclosed announced, pass_unclosed announced, pass_char silent]
      · have otherSilent (opening : c = '(') : other.announces before = false :=
          Bool.eq_false_iff.mpr fun announced => second ⟨opening, announced⟩
        rw [pass_char otherSilent, pass_char otherSilent, pass_char silent, singleQuoted,
          singleQuoted, ih oneKind]
  | group inner rest ihInner ih =>
    obtain ⟨-, innerKind, restKind⟩ := oneKind
    have innerSame : ((inner.pass rule []).pass other []).singleQuoted =
        ((inner.pass other []).pass rule []).singleQuoted := ihInner innerKind
    rw [pass_group, pass_group, pass_group, pass_group, singleQuoted, singleQuoted, ih restKind,
      singleQuoted_passList_passList named otherNamed innerKind,
      singleQuoted_passList_passList otherNamed named innerKind]
    congr 1
    cases marked : marks rule before inner <;> cases otherMarked : marks other before inner
    · exact innerSame
    · exact singleQuoted_mark_congr innerSame _
    · exact singleQuoted_mark_congr innerSame _
    · rw [marks, Bool.and_eq_true] at marked otherMarked
      rw [if_pos rfl, if_pos rfl,
        CallRule.method_eq_of_announces named otherNamed marked.1 otherMarked.1]
      exact singleQuoted_mark_congr innerSame _

end Named

/-- The order of the passes shows in nothing but the kind of the quotes. -/
theorem singleQuoted_foldl_pass_of_perm {first second : List CallRule} (perm : first.Perm second)
    (named : ∀ rule ∈ first, rule.Named) {outline other : Outline} (oneKind : outline.OneKind)
    (otherKind : other.OneKind) (same : outline.singleQuoted = other.singleQuoted) :
    (first.foldl (fun outline rule => outline.pass rule []) outline).singleQuoted =
      (second.foldl (fun outline rule => outline.pass rule []) other).singleQuoted := by
  induction perm using List.Perm.recOnSwap' generalizing outline other with
  | nil => exact same
  | cons rule perm ih =>
    have ruleNamed := named rule List.mem_cons_self
    refine ih (fun other member => named other (List.mem_cons_of_mem _ member))
      (oneKind.pass ruleNamed) (otherKind.pass ruleNamed) ?_
    rw [singleQuoted_pass ruleNamed oneKind, singleQuoted_pass ruleNamed otherKind, same]
  | swap' rule next _ ih =>
    have nextNamed := named next List.mem_cons_self
    have ruleNamed := named rule (List.mem_cons_of_mem _ List.mem_cons_self)
    refine ih (fun other member => named other ?_) ((oneKind.pass nextNamed).pass ruleNamed)
      ((otherKind.pass ruleNamed).pass nextNamed) ?_
    · exact List.mem_cons_of_mem _ (List.mem_cons_of_mem _ member)
    · rw [singleQuoted_pass_pass nextNamed ruleNamed oneKind,
        singleQuoted_pass nextNamed (oneKind.pass ruleNamed),
        singleQuoted_pass nextNamed (otherKind.pass ruleNamed),
        singleQuoted_pass ruleNamed oneKind, singleQuoted_pass ruleNamed otherKind, same]
  | trans perm _ ih ihBehind =>
    have behindNamed rule (member : rule ∈ _) := named rule (perm.mem_iff.mpr member)
    exact (ih named oneKind oneKind rfl).trans (ihBehind behindNamed oneKind otherKind same)

end PluginScript.Outline

namespace PluginScript.CallRule

/-- The order of the rules shows in a prepared script in nothing but the kind of its quotes, if the
script has quotes of one kind only. -/
theorem singleQuoted_prepare_of_perm {first second : List CallRule} (perm : first.Perm second)
    (named : ∀ rule ∈ first, rule.Named) {script : Text} (oneKind : '"' ∉ script ∨ '\'' ∉ script) :
    Arguments.singleQuoted (prepare first script) =
      Arguments.singleQuoted (prepare second script) := by
  have secondNamed rule (member : rule ∈ second) := named rule (perm.mem_iff.mpr member)
  have kind : (Outline.ofText script).OneKind :=
    Outline.oneKind_of_not_mem (by rwa [Outline.text_ofText])
  have same := Outline.singleQuoted_foldl_pass_of_perm perm named kind kind rfl
  rw [← Outline.ofText_prepare named, ← Outline.ofText_prepare secondNamed] at same
  rw [← Outline.text_ofText (prepare first script), ← Outline.text_ofText (prepare second script),
    ← Outline.text_singleQuoted, ← Outline.text_singleQuoted, same]

/-- Of three rules two share a call, and the third encloses it. -/
theorem singleQuoted_prepare_reversed :
    Arguments.singleQuoted (prepare [⟨"foo".toList, "bar".toList⟩, ⟨"xfoo".toList, "bar".toList⟩,
        ⟨"foo".toList, "baz".toList⟩] "foo:baz(xfoo:bar( ), foo:bar(1, \"bar\"))".toList) =
      Arguments.singleQuoted (prepare [⟨"foo".toList, "baz".toList⟩, ⟨"xfoo".toList, "bar".toList⟩,
        ⟨"foo".toList, "bar".toList⟩] "foo:baz(xfoo:bar( ), foo:bar(1, \"bar\"))".toList) :=
  singleQuoted_prepare_of_perm (List.reverse_perm _).symm (by decide) (.inr (by decide))

/-- With both kinds of quotes the order may show in more. -/
example :
    Arguments.singleQuoted (prepare [⟨"foo".toList, "bar".toList⟩, ⟨"foo".toList, "baz".toList⟩]
        "foo:baz(foo:bar('bar\"))".toList) ≠
      Arguments.singleQuoted (prepare [⟨"foo".toList, "baz".toList⟩, ⟨"foo".toList, "bar".toList⟩]
        "foo:baz(foo:bar('bar\"))".toList) := by
  decide +kernel

end PluginScript.CallRule
