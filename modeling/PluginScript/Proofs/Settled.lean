import PluginScript.Proofs.OutlinePass

/-! # Settled outlines

An outline is settled for a rule if every group of a call by the rule is marked, up to the first
unclosed call. A pass leaves its outline settled (`settled_pass_self`), the passes of other rules
keep it so (`settled_pass`), and on a settled outline a pass has nothing to do
(`pass_eq_self_of_settled`).

The mark of a group is safe from other passes for three reasons: they write inside a list only in
front of an inner closing parenthesis, behind which the mark stands (`ending_pass`); quotes change
for a list as a whole; and a rule that would append to the same list has the same method, so it
finds the list marked.
-/

namespace PluginScript.Outline

open Arguments (Bracket)

/-! ## The end of a list -/

/-- The text behind the last inner parenthesis, together with that parenthesis; `front` is what
the text in front of the outline adds. -/
def ending (front : Text) : Outline → Text
  | nil => front
  | char c rest => rest.ending (front ++ [c])
  | group _ rest => rest.ending [')']

/-- A text that begins with a parenthesis ends in its ending, which begins with one. -/
private theorem exists_eq_append_ending (outline : Outline) {parenthesis : Char} (front : Text)
    (kind : parenthesis = '(' ∨ parenthesis = ')') :
    ∃ before last rest, parenthesis :: front ++ outline.text = before ++ last :: rest ∧
      outline.ending (parenthesis :: front) = last :: rest ∧ (last = '(' ∨ last = ')') := by
  induction outline generalizing parenthesis front with
  | nil => exact ⟨[], parenthesis, front, List.append_nil _, rfl, kind⟩
  | char c outline ih =>
    obtain ⟨before, last, rest, whole, isEnding, isLast⟩ := ih (front ++ [c]) kind
    refine ⟨before, last, rest, ?_, isEnding, isLast⟩
    rw [← whole, text_char, List.cons_append, List.cons_append, List.append_assoc]
    rfl
  | group inner outline _ ih =>
    obtain ⟨before, last, rest, whole, isEnding, isLast⟩ := ih [] (.inr rfl)
    refine ⟨parenthesis :: front ++ '(' :: inner.text ++ before, last, rest, ?_, isEnding, isLast⟩
    rw [List.append_assoc _ before, ← whole]
    simp only [text_group, List.cons_append, List.append_assoc, List.nil_append]

/-- Whether a list is marked is told by its ending. -/
theorem isMarked_list {method : Text} (word : method.isWord = true) (inner : Outline) :
    Arguments.isMarked inner.list method =
      Arguments.isMarked (inner.ending ['('] ++ [')']) method := by
  obtain ⟨before, last, rest, whole, isEnding, isLast⟩ :=
    inner.exists_eq_append_ending [] (.inl rfl)
  have parts : inner.list = before ++ last :: rest ++ [')'] := by
    rw [← whole, list_eq]
    rfl
  rw [parts, isEnding, Arguments.isMarked_append word before rest isLast]

/-- A pass writes nothing behind the last inner parenthesis. -/
theorem ending_pass (rule : CallRule) (before front : Text) (outline : Outline) :
    (outline.pass rule before).ending front = outline.ending front := by
  induction outline generalizing before front with
  | nil => rfl
  | char c rest ih =>
    rw [pass]
    split_ifs
    · rfl
    · apply ih
  | group inner rest _ ih => apply ih

/-- A pass over what stands between the parentheses of a list leaves the list as marked as it
was. -/
theorem isMarked_list_pass {method : Text} (word : method.isWord = true) (rule : CallRule)
    (before : Text) (inner : Outline) :
    Arguments.isMarked (inner.pass rule before).list method =
      Arguments.isMarked inner.list method := by
  rw [isMarked_list word, ending_pass, isMarked_list word]

/-- Single quotes in place of double ones keep the mark of a list. -/
theorem isMarked_list_singleQuoted {method : Text} (word : method.isWord = true) {inner : Outline}
    (marked : Arguments.isMarked inner.list method = true) :
    Arguments.isMarked inner.singleQuoted.list method = true := by
  have opening : '(' :: Arguments.singleQuoted inner.text =
      Arguments.singleQuoted ('(' :: inner.text) := rfl
  rw [list_eq_concat] at marked ⊢
  rw [text_singleQuoted, opening]
  exact Arguments.isMarked_singleQuoted word marked

/-- A marked list is marked. -/
theorem isMarked_list_mark (inner : Outline) (method : Text) :
    Arguments.isMarked (inner.mark method).list method = true := by
  rw [list_mark]
  apply Arguments.isMarked_mark

/-! ## Settled outlines -/

/-- Every group of a call by the rule is marked, up to the first unclosed call. -/
def Settled (rule : CallRule) (before : Text) : Outline → Prop
  | nil => True
  | char c rest =>
    (c = '(' ∧ rule.announces before = true) ∨ rest.Settled rule (extend before c)
  | group inner rest =>
    (rule.announces before = true → Arguments.isMarked inner.list rule.method = true) ∧
      inner.Settled rule [] ∧ rest.Settled rule []

theorem extend_singleQuoted (before : Text) (c : Char) :
    extend (Arguments.singleQuoted before) (Arguments.singleQuote c) =
      Arguments.singleQuoted (extend before c) := by
  unfold extend
  rw [ofChar_singleQuote]
  split_ifs
  · rw [Arguments.singleQuoted_append]
    rfl
  · rfl

private theorem settled_spell (rule : CallRule) (before word : Text) :
    (spell word).Settled rule before := by
  induction word generalizing before with
  | nil => trivial
  | cons c word ih => exact .inr (ih _)

section Named

variable {rule : CallRule} (named : rule.Named) {outline : Outline} {before : Text}

theorem Settled.append_spell (settled : outline.Settled rule before) (word : Text) :
    (outline ++ spell word).Settled rule before := by
  induction outline generalizing before with
  | nil => exact settled_spell rule before word
  | char c rest ih => exact settled.imp id ih
  | group inner rest _ ih => exact ⟨settled.1, settled.2.1, ih settled.2.2⟩

include named

theorem Settled.singleQuoted (settled : outline.Settled rule before) :
    outline.singleQuoted.Settled rule (Arguments.singleQuoted before) := by
  induction outline generalizing before with
  | nil => trivial
  | char c rest ih =>
    rcases settled with ⟨rfl, announced⟩ | settled
    · exact .inl ⟨rfl, (CallRule.announces_singleQuoted named before).trans announced⟩
    · apply Or.inr
      rw [extend_singleQuoted]
      exact ih settled
  | group inner rest ihInner ih =>
    refine ⟨?_, ihInner settled.2.1, ih settled.2.2⟩
    intro announced
    rw [CallRule.announces_singleQuoted named] at announced
    exact isMarked_list_singleQuoted named.method (settled.1 announced)

/-- Marking a list leaves the calls inside it settled. -/
theorem Settled.mark (settled : outline.Settled rule []) (method : Text) :
    (outline.mark method).Settled rule [] := by
  unfold Outline.mark
  split_ifs
  · exact settled_spell rule [] _
  · exact (settled.singleQuoted named).append_spell _

/-- What a pass writes into a list leaves the calls inside it settled. -/
theorem Settled.passList {other : CallRule} {inner : Outline}
    (settled : (inner.pass other []).Settled rule []) :
    (inner.passList other before).Settled rule [] := by
  unfold Outline.passList
  split_ifs
  · exact settled.mark named other.method
  · exact settled

/-- A pass leaves a marked list of a call marked. -/
private theorem isMarked_passList {other : CallRule} (otherNamed : other.Named) {inner : Outline}
    (announced : rule.announces before = true)
    (marked : Arguments.isMarked inner.list rule.method = true) :
    Arguments.isMarked (inner.passList other before).list rule.method = true := by
  cases marks : Outline.marks other before inner
  · rw [passList_of_not_marks marks, isMarked_list_pass named.method, marked]
  · -- The other rule sees the call as well, so it has the method that is there already.
    rw [Outline.marks, Bool.and_eq_true] at marks
    have same := CallRule.method_eq_of_announces named otherNamed announced marks.1
    rw [← same, marked] at marks
    exact absurd marks.2 Bool.false_ne_true

/-- A pass leaves the list of a call by its rule marked. -/
private theorem isMarked_passList_self {inner : Outline}
    (announced : rule.announces before = true) :
    Arguments.isMarked (inner.passList rule before).list rule.method = true := by
  cases marks : Outline.marks rule before inner
  · rw [passList_of_not_marks marks, isMarked_list_pass named.method]
    rw [Outline.marks, announced, Bool.true_and, Bool.not_eq_false'] at marks
    exact marks
  · rw [passList_of_marks marks]
    apply isMarked_list_mark

/-- No pass undoes what the pass of another rule has done. -/
theorem settled_pass {other : CallRule} (otherNamed : other.Named)
    (settled : outline.Settled rule before) : (outline.pass other before).Settled rule before := by
  induction outline generalizing before with
  | nil => trivial
  | char c rest ih =>
    rw [pass]
    split_ifs
    · exact settled
    · exact settled.imp id ih
  | group inner rest ihInner ih =>
    obtain ⟨marked, innerSettled, restSettled⟩ := settled
    refine ⟨?_, (ihInner innerSettled).passList named, ih restSettled⟩
    intro announced
    exact isMarked_passList named otherNamed announced (marked announced)

/-- A pass serves all calls by its rule. -/
theorem settled_pass_self (outline : Outline) (before : Text) :
    (outline.pass rule before).Settled rule before := by
  induction outline generalizing before with
  | nil => trivial
  | char c rest ih =>
    rw [pass]
    split_ifs with unclosed
    · exact .inl unclosed
    · exact .inr (ih _)
  | group inner rest ihInner ih =>
    refine ⟨?_, (ihInner []).passList named, ih []⟩
    intro announced
    exact isMarked_passList_self named announced

omit named in
/-- A pass leaves a settled outline alone. -/
theorem pass_eq_self_of_settled (settled : outline.Settled rule before) :
    outline.pass rule before = outline := by
  induction outline generalizing before with
  | nil => rfl
  | char c rest ih =>
    rw [pass]
    split_ifs with unclosed
    · rfl
    · rw [ih (settled.resolve_left unclosed)]
  | group inner rest ihInner ih =>
    obtain ⟨marked, innerSettled, restSettled⟩ := settled
    have idle : marks rule before inner = false := by
      rw [marks]
      cases announced : rule.announces before
      · rfl
      · rw [marked announced]
        rfl
    rw [pass_group, passList_of_not_marks idle, ihInner innerSettled, ih restSettled]

end Named

/-- After all passes every one of their rules is settled. -/
theorem settled_foldl_pass {rules : List CallRule} (named : ∀ rule ∈ rules, rule.Named)
    {rule : CallRule} (ruleNamed : rule.Named) {outline : Outline}
    (served : rule ∈ rules ∨ outline.Settled rule []) :
    (rules.foldl (fun outline rule => outline.pass rule []) outline).Settled rule [] := by
  induction rules generalizing outline with
  | nil => exact served.resolve_left List.not_mem_nil
  | cons first rules ih =>
    have firstNamed := named first List.mem_cons_self
    apply ih fun other member => named other (List.mem_cons_of_mem _ member)
    rcases served with member | settled
    · rcases List.mem_cons.mp member with rfl | member
      · exact .inr (settled_pass_self ruleNamed outline [])
      · exact .inl member
    · exact .inr (settled_pass ruleNamed firstNamed settled)

end PluginScript.Outline

namespace PluginScript.CallRule

/-- A prepared script is settled for each of its rules. -/
theorem settled_prepare {rules : List CallRule} (named : ∀ rule ∈ rules, rule.Named)
    {rule : CallRule} (member : rule ∈ rules) (script : Text) :
    (Outline.ofText (prepare rules script)).Settled rule [] := by
  rw [Outline.ofText_prepare named]
  exact Outline.settled_foldl_pass named (named rule member) (.inl member)

end PluginScript.CallRule
