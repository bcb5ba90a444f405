import PluginScript.Proofs.Settled

/-! # Call sites

The call sites of a rule in a text are the occurrences of its pattern that one search over the
whole text finds, those inside argument lists included, and that an argument list follows. The
sites in front of the first unclosed one are the sites that a pass reaches. Positions count
characters from the beginning of the text.

In the outline of the text these are the groups and the loose parentheses that the text in front
of them announces (`sites_text`), so an outline is settled exactly if the lists of all sites that a
pass reaches are marked (`settled_iff`). Hence every site that the pass of a rule would reach in a
prepared script is marked, whatever the passes of later rules have done
(`isMarked_of_mem_reached_prepare`).
-/

namespace PluginScript

open Arguments (Bracket)

/-- A call site in a text. -/
structure CallSite where
  /-- The position of the opening parenthesis. -/
  opening : Nat
  /-- The argument list with its parentheses, or the rest of the text if the list is unclosed. -/
  list : Text
  closed : Bool
deriving DecidableEq, Repr

/-- The call site behind an occurrence of a pattern in a text of the given size. An occurrence that
a longer name goes on with is none. -/
def CallSite.behind? (size : Nat) (behind : Text) : Option CallSite :=
  if behind.head?.any Text.isWordChar then none
  else
    let body := behind.dropWhile Text.isBlank
    if body.head? = some '(' then
      match Arguments.split? body with
      | some (list, _) => some ⟨size - body.length, list, true⟩
      | none => some ⟨size - body.length, body, false⟩
    else none

namespace CallRule

/-- The call sites of a rule in a text, from left to right. -/
def sites (rule : CallRule) (text : Text) : List CallSite :=
  (rule.search text).filterMap (CallSite.behind? text.length)

/-- The call sites in front of the first unclosed one. -/
def reached (rule : CallRule) (text : Text) : List CallSite :=
  (rule.sites text).takeWhile CallSite.closed

end CallRule

namespace CallSite

theorem behind?_of_mention {behind : Text}
    (mention : (behind.dropWhile Text.isBlank).head? ≠ some '(') (size : Nat) :
    behind? size behind = none := by
  unfold behind?
  dsimp only
  rw [if_neg mention, ite_self]

/-- Behind blanks and an opening parenthesis there is a site. -/
private theorem behind?_of_opening {blanks rest : Text} (blank : blanks.all Text.isBlank = true)
    (size : Nat) :
    behind? size (blanks ++ '(' :: rest) =
      match Arguments.split? ('(' :: rest) with
      | some (list, _) => some ⟨size - ('(' :: rest).length, list, true⟩
      | none => some ⟨size - ('(' :: rest).length, '(' :: rest, false⟩ := by
  have solid : (blanks ++ '(' :: rest).head?.any Text.isWordChar = false := by
    cases blanks with
    | nil => rfl
    | cons c blanks =>
      rw [List.all_cons, Bool.and_eq_true] at blank
      by_contra word
      rw [Bool.not_eq_false] at word
      rw [Text.isBlank_of_isWordChar word] at blank
      exact Bool.false_ne_true blank.1
  have body := Text.dropWhile_isBlank_append blank (by decide : Text.isBlank '(' = false) rest
  unfold behind?
  dsimp only
  rw [solid, if_neg Bool.false_ne_true, body, List.head?_cons, if_pos rfl]

/-- Behind blanks and a loose opening parenthesis there is an unclosed site. -/
private theorem behind?_char {blanks : Text} (blank : blanks.all Text.isBlank = true)
    {rest : Outline}
    (isOpen : rest.Open) (size : Nat) :
    behind? size (blanks ++ (Outline.char '(' rest).text) =
      some ⟨size - ('(' :: rest.text).length, '(' :: rest.text, false⟩ := by
  have unclosed := Outline.split?_char isOpen
  rw [Outline.text_char] at unclosed ⊢
  rw [behind?_of_opening blank, unclosed]

/-- Behind blanks and a group there is a closed site. -/
private theorem behind?_group {blanks : Text} (blank : blanks.all Text.isBlank = true)
    {inner : Outline}
    (balanced : inner.Balanced) (rest : Outline) (size : Nat) :
    behind? size (blanks ++ (Outline.group inner rest).text) =
      some ⟨size - (Outline.group inner rest).text.length, inner.list, true⟩ := by
  have closed := Outline.split?_group balanced rest
  rw [Outline.text_group] at closed ⊢
  rw [behind?_of_opening blank, closed]

end CallSite

namespace Outline

/-- The call sites in an outline that begins at a position, behind the text `before` since the last
parenthesis. -/
def sites (rule : CallRule) (position : Nat) (before : Text) : Outline → List CallSite
  | nil => []
  | char c rest =>
    (if c = '(' ∧ rule.announces before = true then [⟨position, '(' :: rest.text, false⟩]
      else []) ++ rest.sites rule (position + 1) (extend before c)
  | group inner rest =>
    (if rule.announces before then [⟨position, inner.list, true⟩] else []) ++
      (inner.sites rule (position + 1) [] ++
        rest.sites rule (position + inner.list.length) [])

/-- The sites that a pass reaches in an outline that begins at a position, behind the text `before`
since the last parenthesis. -/
def reached (rule : CallRule) (position : Nat) (before : Text) : Outline → List CallSite
  | nil => []
  | char c rest =>
    if c = '(' ∧ rule.announces before = true then []
    else rest.reached rule (position + 1) (extend before c)
  | group inner rest =>
    (if rule.announces before then [⟨position, inner.list, true⟩] else []) ++
      (inner.reached rule (position + 1) [] ++
        rest.reached rule (position + inner.list.length) [])

theorem reached_group {rule : CallRule} {position : Nat} {before : Text} {inner rest : Outline} :
    (group inner rest).reached rule position before =
      (if rule.announces before then [⟨position, inner.list, true⟩] else []) ++
        (inner.reached rule (position + 1) [] ++
          rest.reached rule (position + inner.list.length) []) := rfl

section Sites

variable {rule : CallRule} {position : Nat} {before : Text} {inner rest : Outline}

theorem sites_char {c : Char} (silent : c = '(' → rule.announces before = false) :
    (char c rest).sites rule position before =
      rest.sites rule (position + 1) (extend before c) := by
  rw [sites, if_neg, List.nil_append]
  rintro ⟨opening, announced⟩
  rw [silent opening] at announced
  contradiction

private theorem sites_unclosed (announced : rule.announces before = true) :
    (char '(' rest).sites rule position before =
      ⟨position, '(' :: rest.text, false⟩ :: rest.sites rule (position + 1) [] := by
  rw [sites, if_pos ⟨rfl, announced⟩]
  rfl

theorem sites_group : (group inner rest).sites rule position before =
    (if rule.announces before then [⟨position, inner.list, true⟩] else []) ++
      (inner.sites rule (position + 1) [] ++
        rest.sites rule (position + inner.list.length) []) := rfl

private theorem sites_congr {first second : Text} {outline : Outline}
    (alike : AnnounceAlike rule first second outline) :
    outline.sites rule position first = outline.sites rule position second := by
  induction outline generalizing position first second with
  | nil => rfl
  | char c rest ih =>
    by_cases opening : c = '('
    · subst opening
      simp only [sites, alike.of_opening, ih alike.extend]
    · rw [sites_char (absurd · opening), sites_char (absurd · opening), ih alike.extend]
  | group inner rest => rw [sites_group, sites_group, alike.of_group]

private theorem sites_spell_append {word : Text} (plain : ∀ c ∈ word, Bracket.ofChar c = .other) :
    (spell word ++ rest).sites rule position before =
      rest.sites rule (position + word.length) (before ++ word) := by
  induction word generalizing position before with
  | nil => rw [List.append_nil]; rfl
  | cons c word ih =>
    have here := plain c List.mem_cons_self
    rw [spell_cons, char_append, sites_char (absurd · (ofChar_eq_other_iff.mp here).1),
      extend_of_other here, ih fun d member => plain d (List.mem_cons_of_mem _ member),
      List.append_assoc, List.length_cons, Nat.add_assoc, Nat.add_comm 1]
    rfl

private theorem sites_append_closing (balanced : inner.Balanced) :
    (inner ++ char ')' rest).sites rule position before =
      inner.sites rule position before ++
        rest.sites rule (position + inner.text.length + 1) [] := by
  induction inner generalizing position before with
  | nil => exact sites_char (absurd · (by decide))
  | char c front ih =>
    have here := (ofChar_eq_other_iff.mp balanced.1).1
    rw [char_append, sites_char (absurd · here), sites_char (absurd · here), ih balanced.2,
      text_char, List.length_cons, Nat.add_assoc position 1, Nat.add_comm 1]
  | group inner front _ ih =>
    rw [group_append, sites_group, sites_group, ih balanced.2, text_group_eq,
      List.length_append, Nat.add_assoc position]
    simp only [List.append_assoc]

/-- The sites of a list come first, and then those behind it. -/
theorem sites_group_append : (group inner rest).sites rule position before =
    (group inner nil).sites rule position before ++
      rest.sites rule (position + inner.list.length) [] := by
  have behind : nil.sites rule (position + inner.list.length) [] = [] := rfl
  rw [sites_group, sites_group, behind, List.append_nil, List.append_assoc]

theorem reached_group_append : (group inner rest).reached rule position before =
    (group inner nil).reached rule position before ++
      rest.reached rule (position + inner.list.length) [] := by
  have behind : nil.reached rule (position + inner.list.length) [] = [] := rfl
  rw [reached_group, reached_group, behind, List.append_nil, List.append_assoc]

/-- Between the parentheses of a closed pair no site is unclosed. -/
theorem Balanced.closed_of_mem_sites {outline : Outline} (balanced : outline.Balanced) :
    ∀ site ∈ outline.sites rule position before, site.closed = true := by
  induction outline generalizing position before with
  | nil => exact fun _ member => (List.not_mem_nil member).elim
  | char c rest ih =>
    rw [sites_char (absurd · (ofChar_eq_other_iff.mp balanced.1).1)]
    exact ih balanced.2
  | group inner rest ihInner ih =>
    rw [sites_group, List.forall_mem_append, List.forall_mem_append]
    refine ⟨?_, ihInner balanced.1, ih balanced.2⟩
    split_ifs
    · exact List.forall_mem_singleton.mpr rfl
    · exact fun _ member => (List.not_mem_nil member).elim

/-- Between the parentheses of a closed pair a pass reaches all sites. -/
theorem Balanced.reached_eq {outline : Outline} (balanced : outline.Balanced) :
    outline.reached rule position before = outline.sites rule position before := by
  induction outline generalizing position before with
  | nil => rfl
  | char c rest ih =>
    have here := (ofChar_eq_other_iff.mp balanced.1).1
    rw [sites_char (absurd · here), reached, if_neg (here ·.1), ih balanced.2]
  | group inner rest ihInner ih =>
    rw [reached_group, sites_group, ihInner balanced.1, ih balanced.2]

/-- A pass reaches the sites in front of the first unclosed one. -/
theorem Canonical.reached_eq_takeWhile {outline : Outline} (canonical : outline.Canonical) :
    outline.reached rule position before =
      (outline.sites rule position before).takeWhile CallSite.closed := by
  induction outline generalizing position before with
  | nil => rfl
  | char c rest ih =>
    rw [reached, sites]
    split_ifs
    · rfl
    · exact ih canonical.2
  | group inner rest _ ih =>
    have paired : (group inner nil).Balanced := ⟨canonical.1, trivial⟩
    rw [reached_group_append, sites_group_append,
      List.takeWhile_append_of_pos paired.closed_of_mem_sites, paired.reached_eq, ih canonical.2]

/-- Where a list follows the pattern, its site comes first. -/
private theorem sites_pattern_append (named : rule.Named) {blanks : Text}
    (blank : blanks.all Text.isBlank = true) {site : CallSite}
    (own : rest.sites rule (position + rule.pattern.length + blanks.length)
        (rule.pattern ++ blanks) =
      site :: rest.sites rule (position + rule.pattern.length + blanks.length) blanks)
    (found : CallSite.behind? (position + rule.pattern.length + (blanks ++ rest.text).length)
      (blanks ++ rest.text) = some site)
    (behind : (rule.search (spell blanks ++ rest).text).filterMap (CallSite.behind?
        (position + rule.pattern.length + (spell blanks ++ rest).text.length)) =
      (spell blanks ++ rest).sites rule (position + rule.pattern.length) []) :
    (rule.search (spell rule.pattern ++ (spell blanks ++ rest)).text).filterMap
        (CallSite.behind?
          (position + (spell rule.pattern ++ (spell blanks ++ rest)).text.length)) =
      (spell rule.pattern ++ (spell blanks ++ rest)).sites rule position [] := by
  rw [sites_spell_append (ofChar_eq_other_of_blank blank), List.nil_append] at behind
  simp only [text_append, text_spell] at behind ⊢
  rw [sites_spell_append named.ofChar_eq_other, List.nil_append,
    sites_spell_append (ofChar_eq_other_of_blank blank), own, ← behind,
    CallRule.search_pattern_append, List.length_append, ← Nat.add_assoc,
    List.filterMap_cons_some found]

/-- A list that no call has is read through, the parentheses one by one. -/
private theorem sites_text_group (named : rule.Named) {inner : Outline} (balanced : inner.Balanced)
    (behind : (rule.search (inner ++ char ')' rest).text).filterMap
        (CallSite.behind? (position + 1 + (inner ++ char ')' rest).text.length)) =
      (inner ++ char ')' rest).sites rule (position + 1) []) :
    (rule.search (group inner rest).text).filterMap
        (CallSite.behind? (position + (group inner rest).text.length)) =
      (group inner rest).sites rule position [] := by
  have absent := named.isPrefixOf?_opening (inner.text ++ ')' :: rest.text)
  have size : position + (group inner rest).text.length =
      position + 1 + (inner ++ char ')' rest).text.length := by
    simp only [text_group, text_append, text_char, List.length_cons]
    omega
  have stop : position + inner.list.length = position + 1 + inner.text.length + 1 := by
    simp only [list_eq, List.length_cons, List.length_append, List.length_nil]
    omega
  rw [size, text_group, CallRule.search_cons absent, sites_group, rule.announces_nil,
    if_neg Bool.false_ne_true, List.nil_append, stop, ← sites_append_closing balanced, ← behind,
    text_append, text_char]

/-- A mention has no site. -/
private theorem sites_text_mention (named : rule.Named)
    (mention : (rest.text.dropWhile Text.isBlank).head? ≠ some '(')
    (behind : (rule.search rest.text).filterMap
        (CallSite.behind? (position + rule.pattern.length + rest.text.length)) =
      rest.sites rule (position + rule.pattern.length) []) :
    (rule.search (spell rule.pattern ++ rest).text).filterMap
        (CallSite.behind? (position + (spell rule.pattern ++ rest).text.length)) =
      (spell rule.pattern ++ rest).sites rule position [] := by
  have size : position + (spell rule.pattern ++ rest).text.length =
      position + rule.pattern.length + rest.text.length := by
    rw [text_append, text_spell, List.length_append, Nat.add_assoc]
  rw [size, text_append, text_spell, CallRule.search_pattern_append,
    List.filterMap_cons_none (CallSite.behind?_of_mention mention _), behind,
    sites_spell_append named.ofChar_eq_other, List.nil_append, sites_congr (.of_mention mention)]

end Sites

/-- The call sites in a text are those in its outline. -/
private theorem sites_text {rule : CallRule} (named : rule.Named) {outline : Outline}
    (canonical : outline.Canonical) (position : Nat) :
    (rule.search outline.text).filterMap (CallSite.behind? (position + outline.text.length)) =
      outline.sites rule position [] := by
  refine induction_on_calls named ?nil ?char ?group ?mention ?unclosed ?call outline canonical
    position
  case nil => exact fun _ => by rw [text_nil, CallRule.search_nil]; rfl
  case char =>
    intro c rest absent isOpen ih position
    rw [text_char, CallRule.search_cons absent, sites_char fun _ => rule.announces_nil,
      sites_congr (.of_absent absent), ← ih, List.length_cons, Nat.add_assoc, Nat.add_comm 1]
  case group =>
    intro inner rest balanced ih position
    exact sites_text_group named balanced (ih (position + 1))
  case mention =>
    intro rest mention ih position
    exact sites_text_mention named mention (ih _)
  case unclosed =>
    intro blanks rest blank isOpen ih position
    apply sites_pattern_append named blank ?own ?found (ih _)
    case own =>
      have silent := CallRule.announces_of_blank named blank
      rw [sites_unclosed (rule.announces_pattern_blanks blank), sites_char fun _ => silent]
      rfl
    case found =>
      rw [CallSite.behind?_char blank isOpen, List.length_append, ← Nat.add_assoc, text_char,
        Nat.add_sub_cancel]
  case call =>
    intro blanks inner rest blank balanced _ _ ih position
    apply sites_pattern_append named blank ?own ?found (ih _)
    case own =>
      rw [sites_group, sites_group, rule.announces_pattern_blanks blank, if_pos rfl,
        CallRule.announces_of_blank named blank, if_neg Bool.false_ne_true]
      rfl
    case found =>
      rw [CallSite.behind?_group blank balanced, List.length_append, ← Nat.add_assoc,
        Nat.add_sub_cancel]

/-- An outline is settled exactly if the lists of all sites that a pass reaches are marked. -/
theorem settled_iff {rule : CallRule} {outline : Outline} {before : Text} (position : Nat) :
    outline.Settled rule before ↔
      ∀ site ∈ outline.reached rule position before,
        Arguments.isMarked site.list rule.method = true := by
  induction outline generalizing position before with
  | nil => exact iff_of_true trivial fun _ member => (List.not_mem_nil member).elim
  | char c rest ih =>
    rw [reached, Settled]
    split_ifs with unclosed
    · exact iff_of_true (.inl unclosed) fun _ member => (List.not_mem_nil member).elim
    · rw [or_iff_right unclosed]
      apply ih
  | group inner rest ihInner ih =>
    rw [reached_group, Settled, List.forall_mem_append, List.forall_mem_append, ← ihInner, ← ih]
    apply and_congr_left
    intro _
    split_ifs with announced
    · rw [List.forall_mem_singleton]
      exact ⟨fun marked => marked announced, fun marked _ => marked⟩
    · exact iff_of_true (absurd · announced) fun _ member => (List.not_mem_nil member).elim

end Outline

namespace CallRule

theorem sites_eq {rule : CallRule} (named : rule.Named) (text : Text) :
    rule.sites text = (Outline.ofText text).sites rule 0 [] := by
  have sites := Outline.sites_text named (Outline.canonical_ofText text) 0
  rw [Outline.text_ofText, Nat.zero_add] at sites
  exact sites

theorem reached_eq {rule : CallRule} (named : rule.Named) (text : Text) :
    rule.reached text = (Outline.ofText text).reached rule 0 [] := by
  rw [reached, sites_eq named, (Outline.canonical_ofText text).reached_eq_takeWhile]

/-- In a prepared script every call site in front of the first unclosed one is marked, for each of
the rules. -/
theorem isMarked_of_mem_reached_prepare {rules : List CallRule}
    (named : ∀ rule ∈ rules, rule.Named) {rule : CallRule} (member : rule ∈ rules) (script : Text)
    (site : CallSite) (reached : site ∈ rule.reached (prepare rules script)) :
    Arguments.isMarked site.list rule.method = true := by
  rw [reached_eq (named rule member)] at reached
  exact (Outline.settled_iff 0).mp (settled_prepare named member script) site reached

/-- The later pass of `foo:baz` has turned the quotes that the pass of `foo:bar` wrote. -/
theorem isMarked_of_mem_reached_prepare_nested :
    (⟨18, "('b', 'bar')".toList, true⟩ : CallSite) ∈ reached ⟨"foo".toList, "bar".toList⟩
        (prepare [⟨"foo".toList, "bar".toList⟩, ⟨"foo".toList, "baz".toList⟩]
          "foo:baz(1, foo:bar(\"b\")) foo:bar(foo:baz(".toList) ∧
      Arguments.isMarked "('b', 'bar')".toList "bar".toList = true := by
  have reached : (⟨18, "('b', 'bar')".toList, true⟩ : CallSite) ∈
      reached ⟨"foo".toList, "bar".toList⟩
        (prepare [⟨"foo".toList, "bar".toList⟩, ⟨"foo".toList, "baz".toList⟩]
          "foo:baz(1, foo:bar(\"b\")) foo:bar(foo:baz(".toList) := by
    decide +kernel
  exact ⟨reached, isMarked_of_mem_reached_prepare (by decide) (by decide) _ _ reached⟩

end CallRule

end PluginScript
