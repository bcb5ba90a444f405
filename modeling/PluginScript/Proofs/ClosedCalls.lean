import PluginScript.Proofs.CallSites
import PluginScript.Proofs.ListEnds

/-! # Scripts that close their calls

A pass stops at the first unclosed call, so what it does to a text can depend on everything in front
of that text. If the text in front closes all calls that it begins, it does not: such a script and
whatever follows it are prepared each for itself (`prepare_append_script`).

A text closes its calls for a rule if no loose parenthesis of its outline is announced
(`Outline.AllClosed`, `closed_sites_iff`). Passes move no loose parenthesis, so a script goes on
closing its calls whatever is prepared in it (`closed_sites_prepare_iff`). What remains is that no
occurrence of a pattern and no gap between a pattern and its list reaches over the seam, which the
last character of the first text rules out (`Text.Sealed`); no pass changes that character either.
-/

namespace PluginScript

open Arguments (Bracket)

/-! ## Closed calls in an outline -/

namespace Outline

/-- No call is unclosed in an outline that stands behind `before`, the text since the last
parenthesis. -/
def AllClosed (rule : CallRule) (before : Text) : Outline → Prop
  | nil => True
  | char c rest =>
    (c = '(' → rule.announces before = false) ∧ rest.AllClosed rule (extend before c)
  | group _ rest => rest.AllClosed rule []

section AllClosed

variable {rule : CallRule} {before : Text} {inner rest : Outline}

private theorem allClosed_char {c : Char} (silent : c = '(' → rule.announces before = false) :
    (char c rest).AllClosed rule before ↔ rest.AllClosed rule (extend before c) :=
  and_iff_right silent

private theorem allClosed_congr {first second : Text} {outline : Outline}
    (alike : AnnounceAlike rule first second outline) :
    outline.AllClosed rule first ↔ outline.AllClosed rule second := by
  induction outline generalizing first second with
  | nil => exact Iff.rfl
  | char c rest ih =>
    by_cases opening : c = '('
    · subst opening
      rw [AllClosed, AllClosed, alike.of_opening, ih alike.extend]
    · rw [allClosed_char (absurd · opening), allClosed_char (absurd · opening), ih alike.extend]
  | group inner rest => exact Iff.rfl

private theorem allClosed_spell_append {word : Text}
    (plain : ∀ c ∈ word, Bracket.ofChar c = .other) :
    (spell word ++ rest).AllClosed rule before ↔ rest.AllClosed rule (before ++ word) := by
  induction word generalizing before with
  | nil => rw [List.append_nil]; rfl
  | cons c word ih =>
    have here := plain c List.mem_cons_self
    rw [spell_cons, char_append, allClosed_char (absurd · (ofChar_eq_other_iff.mp here).1),
      extend_of_other here, ih fun d member => plain d (List.mem_cons_of_mem _ member),
      List.append_assoc]
    rfl

private theorem allClosed_append_closing (balanced : inner.Balanced) :
    (inner ++ char ')' rest).AllClosed rule before ↔ rest.AllClosed rule [] := by
  induction inner generalizing before with
  | nil => exact allClosed_char (absurd · (by decide))
  | char c front ih =>
    have here := (ofChar_eq_other_iff.mp balanced.1).1
    rw [char_append, allClosed_char (absurd · here), ih balanced.2]
  | group inner front _ ih => exact ih balanced.2

/-- An outline that begins with an unclosed call has one. -/
private theorem not_allClosed_unclosed (named : rule.Named) {blanks : Text}
    (blank : blanks.all Text.isBlank = true) :
    ¬ (spell rule.pattern ++ (spell blanks ++ char '(' rest)).AllClosed rule [] := by
  rw [allClosed_spell_append named.ofChar_eq_other,
    allClosed_spell_append (ofChar_eq_other_of_blank blank), List.nil_append, AllClosed,
    rule.announces_pattern_blanks blank]
  exact fun closed => Bool.false_ne_true (closed.1 rfl).symm

/-- A pass of any rule leaves the calls of an outline as closed as they are. -/
theorem allClosed_pass_iff {outline : Outline} (other : CallRule) (otherBefore : Text) :
    (outline.pass other otherBefore).AllClosed rule before ↔ outline.AllClosed rule before := by
  induction outline generalizing before otherBefore with
  | nil => exact Iff.rfl
  | char c rest ih =>
    rw [Outline.pass]
    split_ifs
    · exact Iff.rfl
    · rw [AllClosed, AllClosed, ih]
  | group inner rest _ ih => exact ih []

end AllClosed

/-- No call is unclosed in a canonical outline exactly if all its sites are closed. -/
theorem Canonical.allClosed_iff {rule : CallRule} {before : Text} {outline : Outline}
    (canonical : outline.Canonical) (position : Nat) :
    outline.AllClosed rule before ↔
      ∀ site ∈ outline.sites rule position before, site.closed = true := by
  induction outline generalizing position before with
  | nil => exact iff_of_true trivial fun _ member => (List.not_mem_nil member).elim
  | char c rest ih =>
    rw [AllClosed, sites, List.forall_mem_append, ← ih canonical.2]
    apply and_congr_left
    intro _
    split_ifs with unclosed
    · rw [List.forall_mem_singleton, unclosed.2]
      exact iff_of_false (fun silent => Bool.false_ne_true (silent unclosed.1).symm)
        Bool.false_ne_true
    · rw [not_and, Bool.not_eq_true] at unclosed
      exact iff_of_true unclosed fun _ member => (List.not_mem_nil member).elim
  | group inner rest _ ih =>
    have paired : (group inner nil).Balanced := ⟨canonical.1, trivial⟩
    rw [AllClosed, sites_group_append, List.forall_mem_append, ← ih canonical.2,
      and_iff_right paired.closed_of_mem_sites]

end Outline

namespace CallRule

/-- The call sites of a text are closed exactly if its outline has no unclosed call. -/
theorem closed_sites_iff {rule : CallRule} (named : rule.Named) (text : Text) :
    (∀ site ∈ rule.sites text, site.closed = true) ↔
      (Outline.ofText text).AllClosed rule [] := by
  rw [sites_eq named, (Outline.canonical_ofText text).allClosed_iff 0]

/-- A pass of any rule leaves the call sites of a text as closed as they are. -/
theorem closed_sites_pass_iff {rule other : CallRule} (named : rule.Named)
    (otherNamed : other.Named) (text : Text) :
    (∀ site ∈ rule.sites (other.pass text), site.closed = true) ↔
      ∀ site ∈ rule.sites text, site.closed = true := by
  rw [closed_sites_iff named, closed_sites_iff named, Outline.ofText_pass otherNamed,
    Outline.allClosed_pass_iff]

/-- Preparing a script leaves its call sites as closed as they are. -/
theorem closed_sites_prepare_iff {rules : List CallRule} (named : ∀ rule ∈ rules, rule.Named)
    {rule : CallRule} (ruleNamed : rule.Named) (script : Text) :
    (∀ site ∈ rule.sites (prepare rules script), site.closed = true) ↔
      ∀ site ∈ rule.sites script, site.closed = true := by
  induction rules generalizing script with
  | nil => exact Iff.rfl
  | cons first rules ih =>
    obtain ⟨firstNamed, restNamed⟩ := List.forall_mem_cons.mp named
    rw [prepare_cons, ih restNamed, closed_sites_pass_iff ruleNamed firstNamed]

end CallRule

/-! ## The seam between two texts -/

namespace Text

/-- A text whose last character is part of no name, no pattern and no gap in front of a list. -/
def Sealed (text : Text) : Prop :=
  ∀ c ∈ text.getLast?, isWordChar c = false ∧ c ≠ ':' ∧ isBlank c = false

instance (text : Text) : Decidable text.Sealed :=
  decidable_of_iff
    (text.getLast?.all (fun c => !isWordChar c && c != ':' && !isBlank c) = true)
    (by simp only [Sealed, Option.all_eq_true, Bool.and_eq_true, Bool.not_eq_true', bne_iff_ne,
      Option.mem_def, and_assoc])

theorem Sealed.of_append {front rest : Text} (isSealed : Sealed (front ++ rest)) :
    rest.Sealed := by
  intro c last
  apply isSealed
  rw [Option.mem_def] at last
  rw [List.getLast?_append, last]
  rfl

theorem Sealed.of_cons {c : Char} {rest : Text} (isSealed : Sealed (c :: rest)) : rest.Sealed :=
  of_append (show Sealed ([c] ++ rest) from isSealed)

/-- A text that is not blank decides by itself whether a list follows. -/
private theorem head?_dropWhile_isBlank_append {text : Text} (solid : text.all isBlank = false)
    (second : Text) :
    ((text ++ second).dropWhile isBlank).head? = (text.dropWhile isBlank).head? := by
  have nonempty : text.dropWhile isBlank ≠ [] := by
    rw [Ne, List.dropWhile_eq_nil_iff, ← List.all_eq_true, solid]
    exact Bool.false_ne_true
  obtain ⟨c, tail, body⟩ := List.exists_cons_of_ne_nil nonempty
  rw [List.dropWhile_append, body]
  rfl

end Text

namespace CallRule

section Seam

variable {rule : CallRule} (named : rule.Named)
include named

/-- A sealed text that does not begin with the pattern does not do so with more text behind it. -/
private theorem Named.isPrefixOf?_append_eq_none {text : Text} (solid : text ≠ [])
    (isSealed : text.Sealed) (absent : rule.pattern.isPrefixOf? text = none) (second : Text) :
    rule.pattern.isPrefixOf? (text ++ second) = none := by
  obtain ⟨front, last, rfl⟩ := List.eq_nil_or_concat' text |>.resolve_left solid
  obtain ⟨noWord, notColon, -⟩ := isSealed last List.getLast?_concat
  have foreign : last ∉ rule.pattern := named.not_mem_pattern noWord notColon
  rw [List.append_assoc, List.singleton_append, isPrefixOf?_append_cons foreign,
    isPrefixOf?_eq_none_of_append absent, Option.map_none]

/-- Behind the pattern a sealed text goes on, and not with blanks alone. -/
private theorem Named.not_all_isBlank {behind : Text} (isSealed : (rule.pattern ++ behind).Sealed) :
    behind.all Text.isBlank = false := by
  by_contra blank
  rw [Bool.not_eq_false] at blank
  have solid : rule.pattern ++ behind ≠ [] := by
    obtain ⟨c, tail, whole⟩ := rule.exists_pattern_append_eq_cons behind
    rw [whole]
    exact List.cons_ne_nil c tail
  obtain ⟨noWord, notColon, notBlank⟩ := isSealed _ (List.getLast?_eq_some_getLast solid)
  rcases List.mem_append.mp (List.getLast_mem solid) with inPattern | inBehind
  · exact named.not_mem_pattern noWord notColon inPattern
  · rw [List.all_eq_true.mp blank _ inBehind] at notBlank
    contradiction

/-- Behind a mention in a sealed text a pass goes on the same way, whatever follows the text. -/
private theorem pass_mention_append {rest second : Text}
    (mention : (rest.dropWhile Text.isBlank).head? ≠ some '(')
    (isSealed : (rule.pattern ++ rest).Sealed)
    (behind : rule.pass (rest ++ second) = rule.pass rest ++ rule.pass second) :
    rule.pass (rule.pattern ++ rest ++ second) =
      rule.pass (rule.pattern ++ rest) ++ rule.pass second := by
  have solid := named.not_all_isBlank isSealed
  have mentionBefore : ((rest ++ second).dropWhile Text.isBlank).head? ≠ some '(' := by
    rwa [Text.head?_dropWhile_isBlank_append solid]
  rw [pass_of_read_mention (read_mention mention), List.append_assoc,
    pass_of_read_mention (read_mention mentionBefore), behind, List.append_assoc]

omit named in
/-- A pass finds the end of a list that closes within a text, whatever follows the text. -/
private theorem pass_call_append {blanks second : Text} {inner rest : Outline}
    (blank : blanks.all Text.isBlank = true) (balanced : inner.Balanced)
    (behind : rule.pass (rest.text ++ second) = rule.pass rest.text ++ rule.pass second) :
    rule.pass (rule.pattern ++ (blanks ++ (Outline.group inner rest).text) ++ second) =
      rule.pass (rule.pattern ++ (blanks ++ (Outline.group inner rest).text)) ++
        rule.pass second := by
  have reading (behind : Outline) :
      rule.read (rule.pattern ++ (blanks ++ (Outline.group inner behind).text)) =
        .call blanks inner.list behind.text :=
    read_call blank (Outline.split?_group balanced behind)
  have longer : (Outline.group inner rest).text ++ second =
      (Outline.group inner (rest ++ Outline.ofText second)).text := by
    rw [Outline.text_group_eq, Outline.text_group_eq, Outline.text_append, Outline.text_ofText,
      List.append_assoc]
  rw [List.append_assoc, List.append_assoc, longer, pass_of_read_call (reading rest),
    pass_of_read_call (reading _), Outline.text_append, Outline.text_ofText, behind]
  simp only [List.append_assoc]

/-- A pass over a sealed text that closes its calls goes on behind it as over a text of its own. -/
private theorem pass_text_append {outline : Outline} (canonical : outline.Canonical)
    (closed : outline.AllClosed rule []) (isSealed : outline.text.Sealed) (second : Text) :
    rule.pass (outline.text ++ second) = rule.pass outline.text ++ rule.pass second := by
  refine Outline.induction_on_calls named ?nil ?char ?group ?mention ?unclosed ?call outline
    canonical closed isSealed
  case nil => exact fun _ _ => by rw [Outline.text_nil, pass_nil, List.nil_append, List.nil_append]
  case char =>
    intro c rest absent _ ih closed isSealed
    rw [Outline.allClosed_char fun _ => rule.announces_nil,
      Outline.allClosed_congr (.of_absent absent)] at closed
    have absentBefore : rule.pattern.isPrefixOf? (c :: (rest.text ++ second)) = none :=
      named.isPrefixOf?_append_eq_none (List.cons_ne_nil c rest.text) isSealed absent second
    rw [Outline.text_char, pass_of_read_plain (read_cons absent), List.cons_append,
      List.cons_append, pass_of_read_plain (read_cons absentBefore), ih closed isSealed.of_cons]
  case group =>
    intro inner rest balanced ih closed isSealed
    have text : (inner ++ Outline.char ')' rest).text = inner.text ++ ')' :: rest.text := by
      rw [Outline.text_append, Outline.text_char]
    rw [Outline.allClosed_append_closing balanced, text] at ih
    rw [Outline.text_group] at isSealed ⊢
    rw [pass_of_read_plain (read_cons (named.isPrefixOf?_opening _)), List.cons_append,
      List.cons_append, pass_of_read_plain (read_cons (named.isPrefixOf?_opening _)),
      ih closed isSealed.of_cons]
  case mention =>
    intro rest mention ih closed isSealed
    rw [Outline.allClosed_spell_append named.ofChar_eq_other, List.nil_append,
      Outline.allClosed_congr (.of_mention mention)] at closed
    rw [Outline.text_append, Outline.text_spell] at isSealed ⊢
    exact pass_mention_append named mention isSealed (ih closed isSealed.of_append)
  case unclosed =>
    intro blanks rest blank _ _ closed
    exact absurd closed (Outline.not_allClosed_unclosed named blank)
  case call =>
    intro blanks inner rest blank balanced _ ih _ closed isSealed
    rw [Outline.allClosed_spell_append named.ofChar_eq_other,
      Outline.allClosed_spell_append (Outline.ofChar_eq_other_of_blank blank)] at closed
    simp only [Outline.text_append, Outline.text_spell] at isSealed ⊢
    refine pass_call_append blank balanced (ih closed ?_)
    rw [Outline.text_group_eq] at isSealed
    exact isSealed.of_append.of_append.of_append

end Seam

/-- A script that closes its calls and whatever follows it are prepared each for itself, if no
name, pattern or gap can go on behind the script. -/
theorem prepare_append_script {rules : List CallRule} (named : ∀ rule ∈ rules, rule.Named)
    {first : Text} (closed : ∀ rule ∈ rules, ∀ site ∈ rule.sites first, site.closed = true)
    (isSealed : first.Sealed) (second : Text) :
    prepare rules (first ++ second) = prepare rules first ++ prepare rules second := by
  induction rules generalizing first second with
  | nil => rfl
  | cons rule rules ih =>
    obtain ⟨ruleNamed, restNamed⟩ := List.forall_mem_cons.mp named
    obtain ⟨ruleClosed, restClosed⟩ := List.forall_mem_cons.mp closed
    rw [closed_sites_iff ruleNamed] at ruleClosed
    have pass := pass_text_append ruleNamed (Outline.canonical_ofText first) ruleClosed
      (by rwa [Outline.text_ofText]) second
    rw [Outline.text_ofText] at pass
    have passClosed : ∀ other ∈ rules, ∀ site ∈ other.sites (rule.pass first),
        site.closed = true :=
      fun other member => (closed_sites_pass_iff (restNamed other member) ruleNamed first).mpr
        (restClosed other member)
    have passSealed : (rule.pass first).Sealed := by
      rwa [Text.Sealed, getLast?_pass]
    rw [prepare_cons, prepare_cons, prepare_cons, pass, ih restNamed passClosed passSealed]

/-- The first script holds a call inside a call; the second ends in an unclosed one, at which the
passes stop. -/
theorem prepare_append_script_unclosed :
    (∀ rule ∈ [⟨"foo".toList, "bar".toList⟩, ⟨"foo".toList, "baz".toList⟩],
        ∀ site ∈ sites rule "foo:baz (1, foo:bar())".toList, site.closed = true) ∧
      Text.Sealed "foo:baz (1, foo:bar())".toList ∧
      prepare [⟨"foo".toList, "bar".toList⟩, ⟨"foo".toList, "baz".toList⟩]
          ("foo:baz (1, foo:bar())".toList ++ "foo:bar(2) foo:bar(foo:baz(3)".toList) =
        prepare [⟨"foo".toList, "bar".toList⟩, ⟨"foo".toList, "baz".toList⟩]
            "foo:baz (1, foo:bar())".toList ++
          prepare [⟨"foo".toList, "bar".toList⟩, ⟨"foo".toList, "baz".toList⟩]
            "foo:bar(2) foo:bar(foo:baz(3)".toList := by
  have closed : ∀ rule ∈ [⟨"foo".toList, "bar".toList⟩, ⟨"foo".toList, "baz".toList⟩],
      ∀ site ∈ sites rule "foo:baz (1, foo:bar())".toList, site.closed = true := by
    decide +kernel
  have isSealed : Text.Sealed "foo:baz (1, foo:bar())".toList := by
    decide +kernel
  exact ⟨closed, isSealed, prepare_append_script (by decide) closed isSealed _⟩

end CallRule

end PluginScript
