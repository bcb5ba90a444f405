import PluginScript.Proofs.OutlinePass
import PluginScript.Proofs.RegistryRuns
import PluginScript.Proofs.SingleEdits

/-! # Preparing a script and its dependencies

A word occurs in a text if it does on either side of a character that is no word character
(`infix_append_cons_iff`). The edits of a pass are made at such characters, and the only words that
they write stand in the text already, so a script and what it is prepared to mention the same
globals (`occursIn_prepare`).

A rule of a global that is not mentioned has therefore nothing to do, at whatever point its pass is
run: the dependencies of a script are all that its preparation needs to know of a registry
(`dependencies_prepare`).
-/

namespace PluginScript

namespace Text

/-- A word does not reach over a character that is none of its own. -/
private theorem infix_append_cons_iff {name : Text} (isWord : name.isWord = true) {c : Char}
    (other : isWordChar c = false) (first second : Text) :
    name <:+: first ++ c :: second ↔ name <:+: first ∨ name <:+: second := by
  have foreign : c ∉ name := not_mem_of_isWord isWord other
  have begins (front : Text) : name <+: front ++ c :: second ↔ name <+: front := by
    rw [← List.isPrefixOf_iff_prefix, ← List.isPrefixOf_iff_prefix,
      ← List.isSome_isPrefixOf?_eq_isPrefixOf, ← List.isSome_isPrefixOf?_eq_isPrefixOf,
      CallRule.isPrefixOf?_append_cons foreign, Option.isSome_map]
  induction first with
  | nil =>
    rw [List.nil_append, List.infix_cons_iff, List.infix_nil, ← List.nil_append (c :: second),
      begins, List.prefix_nil]
  | cons d first ih =>
    rw [List.cons_append, List.infix_cons_iff, List.infix_cons_iff, or_assoc,
      ← List.cons_append, begins]
    exact or_congr_right ih

section Edits

variable {name : Text} (isWord : name.isWord = true)
include isWord

private theorem not_infix_nil : ¬ name <:+: [] := by
  rw [List.infix_nil]
  rintro rfl
  exact Bool.false_ne_true isWord

private theorem infix_cons_iff_of_other {c : Char} (other : isWordChar c = false) (rest : Text) :
    name <:+: c :: rest ↔ name <:+: rest := by
  rw [← List.nil_append (c :: rest), infix_append_cons_iff isWord other,
    or_iff_right (not_infix_nil isWord)]

private theorem infix_quoted_iff (word rest : Text) :
    name <:+: '"' :: (word ++ '"' :: rest) ↔ name <:+: word ∨ name <:+: rest := by
  rw [infix_cons_iff_of_other isWord (by decide), infix_append_cons_iff isWord (by decide)]

/-- A word does not stand among blanks. -/
private theorem not_infix_of_blank {blanks : Text} (blank : blanks.all isBlank = true) :
    ¬ name <:+: blanks := by
  intro found
  obtain ⟨c, rest, rfl⟩ := List.exists_cons_of_ne_nil (fun empty : name = [] =>
    not_infix_nil isWord (empty ▸ List.infix_rfl))
  have solid := isBlank_of_isWordChar (isWordChar_of_mem isWord List.mem_cons_self)
  rw [List.all_eq_true.mp blank c (found.subset List.mem_cons_self)] at solid
  exact Bool.false_ne_true solid.symm

/-- An edit brings no word into a text and takes none away. -/
private theorem infix_iff_of_edit {before after : Text} (edit : Edit before after) :
    name <:+: after ↔ name <:+: before := by
  cases edit with
  | turn front rest =>
    rw [infix_append_cons_iff isWord (by decide), infix_append_cons_iff isWord (by decide)]
  | @mark front word rest _ known =>
    have stands : name <:+: word → name <:+: front := fun found => found.trans known
    rw [infix_append_cons_iff isWord (by decide), infix_append_cons_iff isWord (by decide),
      infix_cons_iff_of_other isWord (by decide), infix_quoted_iff isWord,
      infix_cons_iff_of_other isWord (by decide)]
    tauto
  | @fill front word blanks rest _ known blank =>
    have stands : name <:+: word → name <:+: front := fun found => found.trans known
    rw [infix_append_cons_iff isWord (by decide), infix_append_cons_iff isWord (by decide),
      infix_quoted_iff isWord, infix_cons_iff_of_other isWord (by decide),
      infix_append_cons_iff isWord (by decide), or_iff_right (not_infix_of_blank isWord blank)]
    tauto

end Edits

end Text

namespace CallRule

/-- A prepared script holds the words that its source holds. -/
theorem occursIn_prepare {rules : List CallRule} (named : ∀ rule ∈ rules, rule.Named)
    {name : Text} (isWord : name.isWord = true) (script : Text) :
    Text.occursIn name (prepare rules script) = Text.occursIn name script :=
  (edits_prepare named script).keep fun _ _ edit => by
    rw [Bool.eq_iff_iff, Text.occursIn_iff, Text.occursIn_iff, Text.infix_iff_of_edit isWord edit]

/-- A rule has nothing to do where its global is not mentioned. -/
theorem pass_of_global_not_occurs {rule : CallRule} {text : Text}
    (absent : Text.occursIn rule.global text = false) : rule.pass text = text := by
  apply pass_of_not_occurs
  rw [Bool.eq_false_iff, ne_eq, Text.occursIn_iff] at absent ⊢
  exact fun found => absent ((List.prefix_append rule.global _).isInfix.trans found)

/-- Rules of globals that are not mentioned have nothing to do. -/
theorem prepare_of_global_not_occurs {rules : List CallRule} {text : Text}
    (absent : ∀ rule ∈ rules, Text.occursIn rule.global text = false) :
    prepare rules text = text := by
  induction rules with
  | nil => rfl
  | cons rule rules ih =>
    rw [prepare_cons, pass_of_global_not_occurs (absent rule List.mem_cons_self)]
    exact ih fun other member => absent other (List.mem_cons_of_mem _ member)

/-- Globals that a script does not mention can be left out before it is prepared. -/
private theorem prepare_flatMap_filter {globals : List Global} {script : Text}
    {keep : Global → Bool}
    (named : ∀ rule ∈ globals.flatMap Global.callRules, rule.Named)
    (word : ∀ global ∈ globals, global.name.isWord = true)
    (absent : ∀ global ∈ globals, keep global = false →
      Text.occursIn global.name script = false) :
    prepare (globals.flatMap Global.callRules) script =
      prepare ((globals.filter keep).flatMap Global.callRules) script := by
  induction globals generalizing script with
  | nil => rfl
  | cons global globals ih =>
    rw [List.flatMap_cons, prepare_append]
    have later : ∀ rule ∈ globals.flatMap Global.callRules, rule.Named := fun rule member =>
      named rule (List.mem_append_right _ member)
    have here : ∀ rule ∈ global.callRules, rule.Named := fun rule member =>
      named rule (List.mem_append_left _ member)
    have same {other : Global} (member : other ∈ globals) :
        Text.occursIn other.name (prepare global.callRules script) =
          Text.occursIn other.name script :=
      occursIn_prepare here (word other (List.mem_cons_of_mem _ member)) script
    have behind := @ih (prepare global.callRules script) later
      (fun other member => word other (List.mem_cons_of_mem _ member))
      (fun other member left => same member ▸ absent other (List.mem_cons_of_mem _ member) left)
    rw [behind]
    cases kept : keep global
    · have idle : prepare global.callRules script = script := by
        apply prepare_of_global_not_occurs
        intro rule member
        obtain ⟨method, -, rfl⟩ := List.mem_map.mp member
        exact absent global List.mem_cons_self kept
      rw [idle, List.filter_cons_of_neg (Bool.eq_false_iff.mp kept)]
    · rw [List.filter_cons_of_pos kept, List.flatMap_cons, prepare_append]

end CallRule

namespace Registry

/-- A registered global is mentioned exactly if its plugin is a dependency. -/
theorem Valid.mem_dependencies_iff {registry : Registry} (valid : registry.Valid)
    {global : Global} (member : global ∈ registry.globals) (script : Text) :
    global.owner ∈ registry.dependencies script ↔ Text.occursIn global.name script = true := by
  rw [dependencies, List.mem_map]
  constructor
  · rintro ⟨other, mentioned, same⟩
    obtain ⟨otherMember, occurs⟩ := List.mem_filter.mp mentioned
    rwa [← valid.eq_of_owner_eq otherMember member same]
  · exact fun occurs => ⟨global, List.mem_filter.mpr ⟨member, occurs⟩, rfl⟩

private theorem Valid.not_occursIn {registry : Registry} (valid : registry.Valid) {global : Global}
    (member : global ∈ registry.globals) {script : Text}
    (independent : global.owner ∉ registry.dependencies script) :
    Text.occursIn global.name script = false := by
  rwa [valid.mem_dependencies_iff member, Bool.not_eq_true] at independent

/-- A script depends on the same plugins before and after it is prepared, in the same order. The
rules of the plugins that it does not depend on change nothing when their passes are run, so that
it can be prepared without them; a script without dependencies is left as it is. -/
theorem dependencies_prepare (globals : List Global) (script : Text) :
    (afterAttempts globals).dependencies ((afterAttempts globals).prepare script) =
        (afterAttempts globals).dependencies script ∧
      (afterAttempts globals).prepare script =
        CallRule.prepare (((afterAttempts globals).globals.filter fun global =>
          global.owner ∈ (afterAttempts globals).dependencies script).flatMap Global.callRules)
          script ∧
      (∀ global ∈ (afterAttempts globals).globals,
        global.owner ∉ (afterAttempts globals).dependencies script →
          ∀ first rule second, rule ∈ global.callRules →
            (afterAttempts globals).callRules = first ++ rule :: second →
              rule.pass (CallRule.prepare first script) = CallRule.prepare first script) ∧
      ((afterAttempts globals).dependencies script = [] →
        (afterAttempts globals).prepare script = script) := by
  have valid := valid_afterAttempts globals
  have named := named_callRules_afterAttempts globals
  generalize afterAttempts globals = registry at valid named ⊢
  have reduced : registry.prepare script =
      CallRule.prepare ((registry.globals.filter fun global =>
        global.owner ∈ registry.dependencies script).flatMap Global.callRules) script := by
    apply CallRule.prepare_flatMap_filter named valid.word
    intro global member independent
    exact valid.not_occursIn member (of_decide_eq_false independent)
  refine ⟨?same, reduced, ?idle, ?none⟩
  case same =>
    rw [dependencies, dependencies, mentioned, mentioned]
    congr 1
    apply List.filter_congr
    intro global member
    exact CallRule.occursIn_prepare named (valid.word global member) script
  case idle =>
    intro global member independent first rule second declared split
    obtain ⟨method, -, rfl⟩ := List.mem_map.mp declared
    have firstNamed : ∀ rule ∈ first, rule.Named := fun rule member =>
      named rule (split ▸ List.mem_append_left _ member)
    apply CallRule.pass_of_global_not_occurs
    rw [CallRule.occursIn_prepare firstNamed (valid.word global member)]
    exact valid.not_occursIn member independent
  case none =>
    intro independent
    have nothing : (registry.globals.filter fun global =>
        global.owner ∈ registry.dependencies script) = [] := by
      rw [independent]
      exact List.filter_eq_nil_iff.mpr fun global _ => by
        simp only [List.not_mem_nil, decide_false, Bool.false_eq_true, not_false_eq_true]
    rw [reduced, nothing, List.flatMap_nil, CallRule.prepare_nil]

end Registry

end PluginScript
