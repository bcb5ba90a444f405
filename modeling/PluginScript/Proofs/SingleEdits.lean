import PluginScript.Proofs.CallSearch
import PluginScript.Proofs.ListEnds
import Mathlib.Logic.Relation

/-! # A pass as a run of single edits

Whatever the passes of named rules do to a script, they do it by edits of three kinds: a double
quote becomes a single one, a literal is put in front of a closing parenthesis, and a literal takes
the place of the blanks in an argument list (`edits_pass`, `edits_prepare`). The word in a literal
stands somewhere in front of it already, as the method of the call.

What a single edit keeps, every prepared script has in common with its source.
-/

namespace PluginScript

open Relation (ReflTransGen)

/-- One edit of a text. -/
inductive Edit : Text → Text → Prop where
  /-- A double quote becomes a single one. -/
  | turn (front rest : Text) : Edit (front ++ '"' :: rest) (front ++ '\'' :: rest)
  /-- A quoted word comes behind the last argument of a list. -/
  | mark {front word : Text} (rest : Text) (isWord : word.isWord = true) (known : word <:+: front) :
      Edit (front ++ ')' :: rest)
        (front ++ ',' :: ' ' :: '"' :: (word ++ '"' :: ')' :: rest))
  /-- A quoted word comes in place of the blanks in a list. -/
  | fill {front word blanks : Text} (rest : Text) (isWord : word.isWord = true)
      (known : word <:+: front) (blank : blanks.all Text.isBlank = true) :
      Edit (front ++ '(' :: (blanks ++ ')' :: rest))
        (front ++ '(' :: '"' :: (word ++ '"' :: ')' :: rest))

/-- Edits one after the other. -/
abbrev Edits : Text → Text → Prop := ReflTransGen Edit

/-- An edit of a part of a text is an edit of the text. -/
theorem Edit.within {before after : Text} (edit : Edit before after) (front rest : Text) :
    Edit (front ++ before ++ rest) (front ++ after ++ rest) := by
  have further {word first : Text} (known : word <:+: first) : word <:+: front ++ first :=
    known.trans (List.suffix_append front first).isInfix
  cases edit with
  | turn first behind =>
    simpa only [List.append_assoc, List.cons_append] using turn (front ++ first) (behind ++ rest)
  | mark behind isWord known =>
    simpa only [List.append_assoc, List.cons_append] using
      mark (behind ++ rest) isWord (further known)
  | fill behind isWord known blank =>
    simpa only [List.append_assoc, List.cons_append] using
      fill (behind ++ rest) isWord (further known) blank

namespace Edits

variable {before after : Text}

theorem within (edits : Edits before after) (front rest : Text) :
    Edits (front ++ before ++ rest) (front ++ after ++ rest) :=
  edits.lift (fun text => front ++ text ++ rest) fun _ _ edit => edit.within front rest

theorem append_left (edits : Edits before after) (front : Text) :
    Edits (front ++ before) (front ++ after) := by
  simpa only [List.append_nil] using edits.within front []

theorem append_right (edits : Edits before after) (rest : Text) :
    Edits (before ++ rest) (after ++ rest) :=
  edits.within [] rest

/-- What every edit keeps, edits one after the other keep. -/
theorem keep {α : Sort*} {view : Text → α}
    (keeps : ∀ before after, Edit before after → view after = view before)
    (edits : Edits before after) : view after = view before := by
  induction edits with
  | refl => rfl
  | tail _ edit ih => rw [keeps _ _ edit, ih]

end Edits

/-- Quotes are turned one by one. -/
private theorem edits_singleQuoted (text : Text) : Edits text (Arguments.singleQuoted text) := by
  induction text with
  | nil => exact .refl
  | cons c rest ih =>
    have behind : Edits (c :: rest) (c :: Arguments.singleQuoted rest) := ih.append_left [c]
    rw [Arguments.singleQuoted_cons]
    by_cases double : c = '"'
    · subst double
      exact behind.tail (.turn [] _)
    · rwa [Arguments.singleQuote_of_ne double]

/-- A list is marked by edits, if the method stands in front of it. -/
private theorem edits_mark {front list method : Text} (word : method.isWord = true)
    (known : method <:+: front) (enclosed : Arguments.Enclosed list) (rest : Text) :
    Edits (front ++ (list ++ rest)) (front ++ (Arguments.mark list method ++ rest)) := by
  obtain ⟨inner, rfl⟩ := enclosed
  rw [Arguments.mark, ← List.cons_append, List.dropLast_concat]
  simp only [List.drop_one, List.tail_cons]
  split_ifs with blank
  · simpa only [List.append_assoc, List.cons_append, List.nil_append] using
      ReflTransGen.single (Edit.fill rest word known blank)
  · have turned := (edits_singleQuoted ('(' :: inner)).within front (')' :: rest)
    have known' : method <:+: front ++ Arguments.singleQuoted ('(' :: inner) :=
      known.trans (List.prefix_append front _).isInfix
    simpa only [List.append_assoc, List.cons_append, List.nil_append] using
      turned.tail (.mark rest word known')

namespace CallRule

/-- A pass makes its changes by single edits. -/
theorem edits_pass {rule : CallRule} (named : rule.Named) (text : Text) :
    Edits text (rule.pass text) := by
  induction text using pass.induct rule with
  | case1 text reading =>
    have whole := Reading.text_read rule text
    rw [reading] at whole
    rw [← whole, Reading.text, pass_nil]
  | case2 text c rest reading ih =>
    have whole := Reading.text_read rule text
    rw [pass_of_read_plain reading, ← whole, reading, Reading.text]
    exact ih.append_left [c]
  | case3 text rest reading ih =>
    have whole := Reading.text_read rule text
    rw [pass_of_read_mention reading, ← whole, reading, Reading.text]
    exact ih.append_left rule.pattern
  | case4 text rest reading => rw [pass_of_read_unclosed reading]
  | case5 text blanks list rest reading ihList ihRest =>
    obtain ⟨whole, -, -, enclosed⟩ := of_read_call reading
    have known : rule.method <:+: rule.pattern ++ blanks :=
      (List.suffix_append_of_suffix (List.suffix_cons _ _)).isInfix.trans
        (List.prefix_append _ _).isInfix
    rw [pass_of_read_call reading, whole, ← List.append_assoc]
    -- First the calls inside the list, then the list itself, then the rest of the text.
    have inside : Edits list (if rule.occursInside list then rule.pass list else list) := by
      split_ifs
      · exact ihList
      · exact .refl
    have innerEnclosed := enclosed_inner rule enclosed
    generalize (if rule.occursInside list then rule.pass list else list) = inner at *
    have settled : Edits (rule.pattern ++ blanks ++ (inner ++ rest))
        (rule.pattern ++ blanks ++ (rule.settle list inner ++ rest)) := by
      unfold settle
      split_ifs
      · exact .refl
      · exact edits_mark named.method known innerEnclosed rest
    have behind := ihRest.append_left (rule.pattern ++ blanks ++ rule.settle list inner)
    simp only [List.append_assoc] at settled behind ⊢
    exact (((inside.append_right rest).append_left blanks).append_left rule.pattern).trans
      (settled.trans behind)

/-- A script is prepared by single edits. -/
theorem edits_prepare {rules : List CallRule} (named : ∀ rule ∈ rules, rule.Named)
    (script : Text) : Edits script (prepare rules script) := by
  induction rules generalizing script with
  | nil => exact .refl
  | cons rule rules ih =>
    rw [prepare_cons]
    exact (edits_pass (named rule List.mem_cons_self) script).trans
      (ih (fun other member => named other (List.mem_cons_of_mem _ member)) _)

end CallRule

end PluginScript
