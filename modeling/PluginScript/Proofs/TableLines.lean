import PluginScript.Proofs.Terminals

/-! # The lines of a section

Each of the three kinds of lines reads its own tokens, and its node stands for the line that they
spell. Which kind it is shows in the first word.
-/

namespace PluginScript.Table

open Peg Token Layout
open scoped Computability

private theorem reads_globalLine :
    Reads Grammar.globalLine Anything (fun name => lineOf (.global name))
      (One fun node name => Line.ofNode? node = some (.global name)) := by
  have value := ((reads_mark (by decide : isMark '=' = true)).after_silent reads_quoted
    fun _ _ _ _ _ => trivial).relayout fun _ => singleton_mul_singleton _ _
  have line := ((reads_keyword (by decide : Text.isWord "global".toList = true)).after_silent value
    (by rintro name _ rfl more - word same; cases same)).relayout
      fun _ => singleton_mul_singleton _ _
  apply (line.rule .globalLine).imp
  rintro nodes name ⟨node, rfl, isGlobal, child, inside, text⟩
  refine ⟨node, rfl, ?_⟩
  simp only [Line.ofNode?, isGlobal, inside, List.head?_cons, Option.map_some, text]

private theorem reads_enabledLine :
    Reads Grammar.enabledLine Wordless (fun value => lineOf (.enabled value))
      (One fun node value => Line.ofNode? node = some (.enabled value)) := by
  have value := ((reads_mark (by decide : isMark '=' = true)).after_silent reads_boolean
    fun _ _ _ _ _ => trivial).relayout fun _ => singleton_mul_singleton _ _
  have line := ((reads_keyword (by decide : Text.isWord "enabled".toList = true)).after_silent value
    (by rintro value _ rfl more - word same; cases same)).relayout fun _ =>
      singleton_mul_singleton _ _
  apply ((line.rule .enabledLine).relayout fun value => by cases value <;> rfl).imp
  rintro nodes value ⟨node, rfl, isEnabled, child, inside, text⟩
  refine ⟨node, rfl, ?_⟩
  have same : (truth value == "true".toList) = value := by cases value <;> decide
  simp only [Line.ofNode?, isEnabled, firstText, inside, text, same]

/-- The list of strings ends here. -/
def Closing (tokens : List Token) : Prop :=
  tokens.head? = some (mark ']')

/-- The list of strings ends here, or behind one more comma. -/
def EndsList (tokens : List Token) : Prop :=
  Closing tokens ∨ ∃ rest, tokens = mark ',' :: rest ∧ Closing rest

private theorem refuses_comma {tokens : List Token} (closing : Closing tokens) :
    Refuses (.literal [',']) tokens :=
  refuses_mark (by decide) (by rw [closing]; simp)

private theorem refuses_quoted_of_closing {tokens : List Token} (closing : Closing tokens) :
    Refuses Grammar.quoted tokens :=
  refuses_quoted (by rw [closing]; simp)

private theorem reads_comma :
    Reads (.optional (.literal [','])) Closing (fun _ => 1 + {[mark ',']}) Silent := by
  have comma : Reads (.literal [',']) Closing (fun _ => {[mark ',']}) Silent :=
    (reads_mark (by decide)).weaken fun _ _ => trivial
  apply (comma.optional fun _ => refuses_comma).map fun _ => ()
  · rintro ⟨⟩ tokens
    constructor
    · rintro (member | member)
      · exact ⟨none, rfl, member⟩
      · exact ⟨some (), rfl, member⟩
    · rintro ⟨_ | _, -, member⟩
      · exact .inl member
      · exact .inr member
  · rintro nodes (_ | _) told
    · exact told
    · exact told

/-- A string of a list that is not the first. -/
private theorem reads_further :
    Reads (.seq (.literal [',']) (.seq Grammar.gap Grammar.quoted)) Anything
      (fun method => {[mark ',', quoted method]})
      (One fun node method => firstText node = method) := by
  exact ((reads_mark (by decide)).after_silent reads_quoted fun _ _ _ _ _ => trivial).relayout
    fun _ => singleton_mul_singleton _ _

private theorem refuses_further {tokens : List Token} (ends : EndsList tokens) :
    Refuses (.seq (.literal [',']) (.seq Grammar.gap Grammar.quoted)) tokens := by
  rcases ends with closing | ⟨rest, rfl, closing⟩
  · exact (refuses_comma closing).seq
  · have comma := reads_mark (by decide : isMark ',' = true)
    exact Refuses.seq_of_second comma () rfl trivial (refuses_quoted_of_closing closing)

private theorem reads_others :
    Reads (.starSpaced Grammar.gap (.seq (.literal [',']) (.seq Grammar.gap Grammar.quoted)))
      EndsList
      (fun methods : List Text => (methods.map fun method => {[mark ',', quoted method]}).prod)
      (fun nodes methods => nodes.map firstText = methods) := by
  have others : Reads _ EndsList _ _ := reads_further.starSpaced (fun _ _ => trivial)
    (fun _ _ _ _ => trivial) (by rintro method empty; cases empty) fun _ => refuses_further
  apply others.imp
  intro nodes methods told
  rw [told.map_eq, List.map_id']

/-- The strings of a list that has some. -/
private theorem reads_strings :
    Reads
      (.spaced Grammar.gap [Grammar.quoted,
        .starSpaced Grammar.gap (.spaced Grammar.gap [.literal [','], Grammar.quoted]),
        .optional (.literal [','])])
      Closing (fun methods : Text × List Text => methodsOf (methods.1 :: methods.2))
      (fun nodes methods => nodes.map firstText = methods.1 :: methods.2) := by
  have behind := reads_others.before_silent reads_comma (by
    rintro tokens (member | member) more closing
    · cases (Language.mem_one tokens).mp member
      exact .inl closing
    · cases member
      exact .inr ⟨more, rfl, closing⟩)
  have strings := reads_quoted.seq behind fun _ _ _ _ _ => trivial
  apply (strings.relayout fun methods => (mul_assoc _ _ _).symm).imp
  rintro nodes methods ⟨left, right, rfl, ⟨node, rfl, text⟩, texts⟩
  rw [List.singleton_append, List.map_cons, text, texts]

/-- What stands between the brackets of a line. -/
private theorem reads_methods :
    Reads
      (.optional (.spaced Grammar.gap [Grammar.quoted,
        .starSpaced Grammar.gap (.spaced Grammar.gap [.literal [','], Grammar.quoted]),
        .optional (.literal [','])]))
      Closing methodsOf (fun nodes methods => nodes.map firstText = methods) := by
  have methods := reads_strings.optional fun _ closing => (refuses_quoted_of_closing closing).seq
  apply methods.map fun value => value.elim [] fun strings => strings.1 :: strings.2
  · intro methods tokens
    constructor
    · intro member
      cases methods with
      | nil => exact ⟨none, rfl, member⟩
      | cons first rest => exact ⟨some (first, rest), rfl, member⟩
    · rintro ⟨_ | strings, rfl, member⟩
      · exact member
      · exact member
  · rintro nodes (_ | strings) told
    · rw [told]
      rfl
    · exact told

private theorem reads_indexersLine :
    Reads Grammar.indexersLine Anything (fun methods => lineOf (.indexers methods))
      (One fun node methods => Line.ofNode? node = some (.indexers methods)) := by
  have closed := reads_methods.before_silent (reads_mark (by decide : isMark ']' = true))
    (by rintro _ rfl more -; rfl)
  have list := (reads_mark (by decide : isMark '[' = true)).after_silent closed
    fun _ _ _ _ _ => trivial
  have value := (reads_mark (by decide : isMark '=' = true)).after_silent list
    fun _ _ _ _ _ => trivial
  have line := (reads_keyword (by decide : Text.isWord "indexers".toList = true)).after_silent value
    (by
      rintro methods _ ⟨_, rfl, _, -, rfl⟩ more - word same
      cases same)
  have layout (methods : List Text) :
      ({[word "indexers".toList]} * ({[mark '=']} * ({[mark '[']} *
        (methodsOf methods * {[mark ']']}))) : Language Token) = lineOf (.indexers methods) := by
    rw [← mul_assoc, ← mul_assoc, ← mul_assoc, singleton_mul_singleton, singleton_mul_singleton]
    rfl
  apply ((line.rule .indexersLine).relayout layout).imp
  rintro nodes methods ⟨node, rfl, isIndexers, texts⟩
  refine ⟨node, rfl, ?_⟩
  simp only [Line.ofNode?, isIndexers, texts]

/-- The first word of a line. -/
def Line.keyword : Line → Text
  | .global _ => "global".toList
  | .indexers _ => "indexers".toList
  | .enabled _ => "enabled".toList

theorem head?_of_mem_lineOf {line : Line} {tokens : List Token} (member : tokens ∈ lineOf line)
    (more : List Token) : (tokens ++ more).head? = some (word line.keyword) := by
  match line with
  | .global _ | .enabled true | .enabled false =>
    cases member
    rfl
  | .indexers _ =>
    obtain ⟨_, ⟨_, rfl, _, -, rfl⟩, _, -, rfl⟩ := member
    rfl

/-- A line is not read where another word than its own comes first. -/
private theorem refuses_line {name : Rule} {behind : Peg Rule} (keyword : Text)
    (isWord : keyword.isWord = true) {tokens : List Token}
    (other : ∀ first, tokens.head? = some (word first) → ¬ keyword <+: first) :
    Refuses (.rule name (.seq (.literal keyword) behind)) tokens :=
  (refuses_keyword isWord other).seq.rule name

theorem reads_entry :
    Reads Grammar.entry Wordless lineOf (One fun node line => Line.ofNode? node = some line) := by
  have switches := (reads_indexersLine.weaken fun _ _ => trivial).choice reads_enabledLine (by
    intro value tokens member more _
    apply refuses_line "indexers".toList (by decide)
    rw [head?_of_mem_lineOf member]
    rintro first ⟨⟩
    exact (by decide : ¬ "indexers".toList <+: "enabled".toList))
  have entry := (reads_globalLine.weaken fun _ _ => trivial).choice switches (by
    intro value tokens member more _
    apply refuses_line "global".toList (by decide)
    rcases value with methods | value
    · change tokens ∈ lineOf (.indexers methods) at member
      rw [head?_of_mem_lineOf member]
      rintro first ⟨⟩
      exact (by decide : ¬ "global".toList <+: "indexers".toList)
    · change tokens ∈ lineOf (.enabled value) at member
      rw [head?_of_mem_lineOf member]
      rintro first ⟨⟩
      exact (by decide : ¬ "global".toList <+: "enabled".toList))
  apply entry.map (Sum.elim .global (Sum.elim .indexers .enabled))
  · intro line tokens
    constructor
    · intro member
      cases line with
      | global name => exact ⟨.inl name, rfl, member⟩
      | indexers methods => exact ⟨.inr (.inl methods), rfl, member⟩
      | enabled value => exact ⟨.inr (.inr value), rfl, member⟩
    · rintro ⟨name | methods | value, rfl, member⟩ <;> exact member
  · rintro nodes (name | methods | value) told <;> exact told

theorem refuses_entry {tokens : List Token} (wordless : Wordless tokens) :
    Refuses Grammar.entry tokens := by
  apply Refuses.choice
  · exact refuses_line "global".toList (by decide) fun first same => absurd same (wordless first)
  · apply Refuses.choice
    · exact refuses_line "indexers".toList (by decide)
        fun first same => absurd same (wordless first)
    · exact refuses_line "enabled".toList (by decide)
        fun first same => absurd same (wordless first)

end PluginScript.Table
