import PluginScript.Proofs.Gaps
import PluginScript.Table.Layout

/-! # Expressions that read layouts

An expression of the grammar reads the layouts of values (`Reads`) if it matches where, and only
where, the tokens of the text begin with a layout of some value, and if its nodes say which value
that is. What comes behind the layout matters, since matching is greedy and a keyword ends where it
ends; so the tokens behind are subject to a condition. Each way to build an expression from smaller
ones has its lemma. Ordered choice and repetition also need to know where an expression does not
match (`Refuses`).
-/

namespace PluginScript.Table

open Peg Token Grammar
open scoped Computability

variable {α β γ : Type}

/-- An expression that matches exactly the layouts of values, where the tokens behind fulfil a
condition, and whose nodes say the value. -/
structure Reads (expression : Peg Rule) (follow : List Token → Prop)
    (layouts : α → Language Token) (tells : List (Node Rule) → α → Prop) : Prop where
  sound : ∀ {cursor next nodes more}, match? expression cursor = some (nodes, next) →
    lex? next.rest = some more → follow more →
      ∃ value, ∃ tokens ∈ layouts value,
        lex? cursor.rest = some (tokens ++ more) ∧ tells nodes value
  complete : ∀ {cursor value tokens more}, tokens ∈ layouts value →
    skipGap cursor.rest = cursor.rest → lex? cursor.rest = some (tokens ++ more) → follow more →
      ∃ nodes next, match? expression cursor = some (nodes, next) ∧
        lex? next.rest = some more ∧ tells nodes value

/-- An expression that does not match where certain tokens are to come. -/
def Refuses (expression : Peg Rule) (tokens : List Token) : Prop :=
  ∀ cursor : Cursor, skipGap cursor.rest = cursor.rest → lex? cursor.rest = some tokens →
    match? expression cursor = none

/-- Nodes that say nothing. -/
def Silent (nodes : List (Node Rule)) (_ : Unit) : Prop :=
  nodes = []

/-- A value that one node says by itself. -/
def One (tells : Node Rule → α → Prop) (nodes : List (Node Rule)) (value : α) : Prop :=
  ∃ node, nodes = [node] ∧ tells node value

/-- Values that nodes say one after the other. -/
def TellsAll (tells : List (Node Rule) → α → Prop) (nodes : List (Node Rule)) (values : List α) :
    Prop :=
  ∃ parts, nodes = parts.flatten ∧ List.Forall₂ tells parts values

theorem TellsAll.cons {tells : List (Node Rule) → α → Prop} {front back : List (Node Rule)}
    {value : α} {values : List α} (here : tells front value) (later : TellsAll tells back values) :
    TellsAll tells (front ++ back) (value :: values) := by
  obtain ⟨parts, rfl, all⟩ := later
  exact ⟨front :: parts, rfl, .cons here all⟩

theorem TellsAll.eq_nil {nodes : List (Node Rule)} {values : List Unit}
    (told : TellsAll Silent nodes values) : nodes = [] := by
  obtain ⟨parts, rfl, all⟩ := told
  induction all with
  | nil => rfl
  | cons here _ ih =>
    cases here
    exact ih

/-- Where each node says one value, the nodes say the values in their order. -/
theorem TellsAll.map_eq {view : Node Rule → β} {value : α → β} {nodes : List (Node Rule)}
    {values : List α} (told : TellsAll (One fun node one => view node = value one) nodes values) :
    nodes.map view = values.map value := by
  obtain ⟨parts, rfl, all⟩ := told
  induction all with
  | nil => rfl
  | cons here _ ih =>
    obtain ⟨node, rfl, same⟩ := here
    rw [List.flatten_cons, List.singleton_append, List.map_cons, List.map_cons, same, ih]

namespace Reads

variable {first second body expression : Peg Rule} {follow follow' : List Token → Prop}
  {layouts : α → Language Token} {tells : List (Node Rule) → α → Prop}
  {layouts' : β → Language Token} {tells' : List (Node Rule) → β → Prop}

/-- The same expression, with other values for its layouts. -/
theorem map (reads : Reads expression follow layouts tells) (value : α → β)
    (spelled : ∀ {later tokens}, tokens ∈ layouts' later ↔
      ∃ earlier, value earlier = later ∧ tokens ∈ layouts earlier)
    (said : ∀ {nodes earlier}, tells nodes earlier → tells' nodes (value earlier)) :
    Reads expression follow layouts' tells' where
  sound := by
    intro cursor next nodes more found rest follows
    obtain ⟨earlier, tokens, member, read, told⟩ := reads.sound found rest follows
    exact ⟨value earlier, tokens, spelled.mpr ⟨earlier, rfl, member⟩, read, said told⟩
  complete := by
    intro cursor later tokens more member bare read follows
    obtain ⟨earlier, rfl, spelt⟩ := spelled.mp member
    obtain ⟨nodes, next, found, rest, told⟩ := reads.complete spelt bare read follows
    exact ⟨nodes, next, found, rest, said told⟩

/-- The same expression, with less told by its nodes. -/
theorem imp {tells' : List (Node Rule) → α → Prop} (reads : Reads expression follow layouts tells)
    (said : ∀ {nodes value}, tells nodes value → tells' nodes value) :
    Reads expression follow layouts tells' := by
  apply reads.map id
  · intro value tokens
    exact ⟨fun member => ⟨value, rfl, member⟩, fun ⟨_, same, member⟩ => same ▸ member⟩
  · exact said

/-- The same expression, with its layouts in another form. -/
theorem relayout {layouts' : α → Language Token} (reads : Reads expression follow layouts tells)
    (same : ∀ value, layouts value = layouts' value) : Reads expression follow layouts' tells :=
  funext same ▸ reads

/-- The same expression, where more is known of the tokens behind. -/
theorem weaken (reads : Reads expression follow layouts tells)
    (stronger : ∀ more, follow' more → follow more) : Reads expression follow' layouts tells where
  sound found rest follows := reads.sound found rest (stronger _ follows)
  complete member bare read follows := reads.complete member bare read (stronger _ follows)

/-- Two expressions with a gap between them. -/
theorem seq (front : Reads first follow layouts tells) (back : Reads second follow' layouts' tells')
    (between : ∀ value, ∀ tokens ∈ layouts' value, ∀ more, follow' more → follow (tokens ++ more)) :
    Reads (.seq first (.seq gap second)) follow'
      (fun values : α × β => layouts values.1 * layouts' values.2)
      (fun nodes values => ∃ left right, nodes = left ++ right ∧
        tells left values.1 ∧ tells' right values.2) where
  sound := by
    intro cursor next nodes more found rest follows
    obtain ⟨left, middle, bare, right, here, skipped, there, rfl⟩ := match?_seq_gap_eq_some found
    obtain ⟨later, behind, member', read, told'⟩ := back.sound there rest follows
    rw [skipped, lex?_skipGap] at read
    obtain ⟨value, tokens, member, read, told⟩ :=
      front.sound here read (between later behind member' more follows)
    refine ⟨(value, later), tokens ++ behind, Language.append_mem_mul member member', ?_, ?_⟩
    · rw [read, List.append_assoc]
    · exact ⟨left, right, rfl, told, told'⟩
  complete := by
    rintro cursor ⟨value, later⟩ _ more both bare read follows
    obtain ⟨tokens, member, behind, member', rfl⟩ := Language.mem_mul.mp both
    rw [List.append_assoc] at read
    obtain ⟨left, middle, here, read, told⟩ :=
      front.complete member bare read (between later behind member' more follows)
    obtain ⟨start, skipped, same⟩ := match?_gap middle
    rw [← lex?_skipGap, ← skipped] at read
    have clear : skipGap start.rest = start.rest := by rw [skipped, skipGap_skipGap]
    obtain ⟨right, next, there, rest, told'⟩ := back.complete member' clear read follows
    rw [← same] at there
    exact ⟨left ++ right, next, match?_seq_of_some here there, rest, left, right, rfl, told, told'⟩

/-- An expression whose first part has nothing to say. -/
theorem after_silent {opening : Language Token}
    (front : Reads first follow (fun _ => opening) Silent)
    (back : Reads second follow' layouts' tells')
    (between : ∀ value, ∀ tokens ∈ layouts' value, ∀ more, follow' more → follow (tokens ++ more)) :
    Reads (.seq first (.seq gap second)) follow' (fun value => opening * layouts' value)
      tells' := by
  apply (front.seq back between).map Prod.snd
  · intro value tokens
    exact ⟨fun member => ⟨((), value), rfl, member⟩, fun ⟨_, same, member⟩ => same ▸ member⟩
  · rintro nodes ⟨_, value⟩ ⟨left, right, split, none, told⟩
    rw [none, List.nil_append] at split
    exact split ▸ told

/-- An expression whose last part has nothing to say. -/
theorem before_silent {closing : Language Token} (front : Reads first follow layouts tells)
    (back : Reads second follow' (fun _ => closing) Silent)
    (between : ∀ tokens ∈ closing, ∀ more, follow' more → follow (tokens ++ more)) :
    Reads (.seq first (.seq gap second)) follow' (fun value => layouts value * closing) tells := by
  apply (front.seq back fun _ => between).map Prod.fst
  · intro value tokens
    exact ⟨fun member => ⟨(value, ()), rfl, member⟩, fun ⟨_, same, member⟩ => same ▸ member⟩
  · rintro nodes ⟨value, _⟩ ⟨left, right, split, told, none⟩
    rw [none, List.append_nil] at split
    exact split ▸ told

/-- A rule leaves one node, with what its expression leaves inside. -/
theorem rule (name : Rule) (reads : Reads body follow layouts tells) :
    Reads (.rule name body) follow layouts
      (One fun node value => node.rule = name ∧ tells node.children value) where
  sound := by
    intro cursor next nodes more found rest follows
    obtain ⟨inside, matched, rfl⟩ := match?_rule_eq_some found
    obtain ⟨value, tokens, member, read, told⟩ := reads.sound matched rest follows
    exact ⟨value, tokens, member, read, _, rfl, rfl, told⟩
  complete := by
    intro cursor value tokens more member bare read follows
    obtain ⟨inside, next, found, rest, told⟩ := reads.complete member bare read follows
    exact ⟨_, next, match?_rule_of_some found, rest, _, rfl, rfl, told⟩

/-- A choice between two expressions, where the first does not match what is left to the second. -/
theorem choice (front : Reads first follow layouts tells)
    (back : Reads second follow layouts' tells')
    (apart : ∀ value, ∀ tokens ∈ layouts' value, ∀ more, follow more →
      Refuses first (tokens ++ more)) :
    Reads (.choice first second) follow (Sum.elim layouts layouts')
      (fun nodes => Sum.elim (tells nodes) (tells' nodes)) where
  sound := by
    intro cursor next nodes more found rest follows
    rcases match?_choice_eq_some found with found | ⟨-, found⟩
    · obtain ⟨value, here⟩ := front.sound found rest follows
      exact ⟨.inl value, here⟩
    · obtain ⟨value, here⟩ := back.sound found rest follows
      exact ⟨.inr value, here⟩
  complete := by
    rintro cursor (value | value) tokens more member bare read follows
    · obtain ⟨nodes, next, found, here⟩ := front.complete member bare read follows
      exact ⟨nodes, next, match?_choice_of_some found, here⟩
    · obtain ⟨nodes, next, found, here⟩ := back.complete member bare read follows
      have failed := apart value tokens member more follows cursor bare read
      exact ⟨nodes, next, (match?_choice_of_none failed).trans found, here⟩

/-- The empty expression reads no tokens. -/
theorem empty : Reads .empty follow (fun _ => 1) Silent where
  sound := by
    intro cursor next nodes more found rest follows
    rw [match?_empty] at found
    cases found
    exact ⟨(), [], Language.nil_mem_one, rest, rfl⟩
  complete := by
    intro cursor value tokens more member bare read follows
    cases (Language.mem_one _).mp member
    exact ⟨[], cursor, match?_empty cursor, read, rfl⟩

/-- An expression that may be left out, where it does not match what comes behind. -/
theorem optional (reads : Reads body follow layouts tells)
    (refuses : ∀ more, follow more → Refuses body more) :
    Reads (.optional body) follow (fun value : Option α => value.elim 1 layouts)
      (fun nodes value => value.elim (nodes = []) (tells nodes)) := by
  have choice := reads.choice empty fun _ tokens member more follows => by
    cases (Language.mem_one tokens).mp member
    exact refuses more follows
  apply choice.map (Sum.elim some fun _ => none)
  · intro value tokens
    cases value with
    | none => exact ⟨fun member => ⟨.inr (), rfl, member⟩, fun | ⟨.inr (), _, member⟩ => member⟩
    | some value =>
      exact ⟨fun member => ⟨.inl value, rfl, member⟩, fun | ⟨.inl _, rfl, member⟩ => member⟩
  · rintro nodes (value | value) told
    · exact told
    · exact told

section Star

variable (reads : Reads body follow layouts tells)
  (ends : ∀ more, follow' more → follow more)
  (begins : ∀ value, ∀ tokens ∈ layouts value, ∀ more, follow (tokens ++ more))

include ends begins in
/-- Behind a round come more rounds, or what comes behind all of them. -/
private theorem follow_rounds {values : List α} {tokens more : List Token}
    (member : tokens ∈ (values.map layouts).prod) (follows : follow' more) :
    follow (tokens ++ more) := by
  cases values with
  | nil =>
    rw [(Language.mem_one _).mp member, List.nil_append]
    exact ends more follows
  | cons value values =>
    obtain ⟨front, here, back, -, rfl⟩ := Language.mem_mul.mp member
    rw [List.append_assoc]
    exact begins value front here _

include reads ends begins in
private theorem rounds_sound {cursor : Cursor} {more : List Token}
    (rest : lex? (rounds (match? (.seq gap body)) cursor).2.rest = some more)
    (follows : follow' more) :
    ∃ values, ∃ tokens ∈ (values.map layouts).prod, lex? cursor.rest = some (tokens ++ more) ∧
      TellsAll tells (rounds (match? (.seq gap body)) cursor).1 values := by
  induction cursor using rounds.induct (match? (.seq gap body)) with
  | case1 cursor failed =>
    rw [rounds_of_none failed] at rest ⊢
    exact ⟨[], [], Language.nil_mem_one, rest, [], rfl, .nil⟩
  | case2 cursor nodes next matched progress ih =>
    rw [rounds_of_some matched progress] at rest ⊢
    obtain ⟨values, behind, member', read, told'⟩ := ih rest
    obtain ⟨bare, skipped, same⟩ := match?_gap cursor
    obtain ⟨value, tokens, member, read, told⟩ := reads.sound ((same body).symm.trans matched) read
      (follow_rounds ends begins member' follows)
    refine ⟨value :: values, tokens ++ behind, Language.append_mem_mul member member', ?_,
      told'.cons told⟩
    rw [← lex?_skipGap, ← skipped, read, List.append_assoc]
  | case3 cursor nodes next matched stuck =>
    rw [rounds_of_stuck matched stuck] at rest ⊢
    exact ⟨[], [], Language.nil_mem_one, rest, [], rfl, .nil⟩

variable (filled : ∀ value, [] ∉ layouts value) (refuses : ∀ more, follow' more → Refuses body more)

include reads ends begins filled refuses in
private theorem rounds_complete {cursor : Cursor} {values : List α} {tokens more : List Token}
    (member : tokens ∈ (values.map layouts).prod) (read : lex? cursor.rest = some (tokens ++ more))
    (follows : follow' more) :
    lex? (rounds (match? (.seq gap body)) cursor).2.rest = some more ∧
      TellsAll tells (rounds (match? (.seq gap body)) cursor).1 values := by
  obtain ⟨bare, skipped, same⟩ := match?_gap cursor
  have start : lex? bare.rest = some (tokens ++ more) := by rw [skipped, lex?_skipGap, read]
  have clear : skipGap bare.rest = bare.rest := by rw [skipped, skipGap_skipGap]
  induction values generalizing cursor tokens bare with
  | nil =>
    rw [(Language.mem_one _).mp member, List.nil_append] at read start
    rw [rounds_of_none ((same body).trans (refuses more follows bare clear start))]
    exact ⟨read, [], rfl, .nil⟩
  | cons value values ih =>
    obtain ⟨front, here, back, later, rfl⟩ := Language.mem_mul.mp member
    rw [List.append_assoc] at read start
    obtain ⟨nodes, next, found, rest, told⟩ := reads.complete here clear start
      (follow_rounds ends begins later follows)
    have progress : next.left < cursor.left := by
      apply Cursor.left_lt_of_suffix
      · exact match?_suffix ((same body).trans found)
      · intro stuck
        rw [stuck, read] at rest
        have short := congrArg List.length (Option.some.inj rest)
        have := List.length_pos_of_ne_nil fun empty => filled value (empty ▸ here)
        rw [List.length_append] at short
        omega
    rw [rounds_of_some ((same body).trans found) progress]
    obtain ⟨bare', skipped', same'⟩ := match?_gap next
    obtain ⟨rest, told'⟩ := ih later rest bare' skipped' same'
      (by rw [skipped', lex?_skipGap, rest]) (by rw [skipped', skipGap_skipGap])
    exact ⟨rest, told'.cons told⟩

include reads ends begins filled refuses in
/-- A repetition with gaps between its rounds. -/
theorem starSpaced :
    Reads (Peg.starSpaced gap body) follow' (fun values => (values.map layouts).prod)
      (TellsAll tells) where
  sound := by
    intro cursor next nodes more found rest follows
    cases tried : match? (.seq body (.star (.seq gap body))) cursor with
    | none =>
      rw [Peg.starSpaced, Peg.optional, match?_choice_of_none tried] at found
      cases found
      exact ⟨[], [], Language.nil_mem_one, rest, [], rfl, .nil⟩
    | some result =>
      obtain ⟨nodes', next'⟩ := result
      rw [Peg.starSpaced, Peg.optional, match?_choice_of_some tried] at found
      cases found
      obtain ⟨left, middle, right, here, there, rfl⟩ := match?_seq_eq_some tried
      have ran := Option.some.inj there
      obtain ⟨values, behind, member', read, told'⟩ :=
        rounds_sound reads ends begins (by rw [ran]; exact rest) follows
      rw [ran] at told'
      obtain ⟨value, tokens, member, read, told⟩ := reads.sound here read
        (follow_rounds ends begins member' follows)
      refine ⟨value :: values, tokens ++ behind, Language.append_mem_mul member member', ?_,
        told'.cons told⟩
      rw [read, List.append_assoc]
  complete := by
    intro cursor values tokens more member bare read follows
    cases values with
    | nil =>
      rw [(Language.mem_one _).mp member, List.nil_append] at read
      have failed : match? (.seq body (.star (.seq gap body))) cursor = none :=
        match?_seq_eq_none (refuses more follows cursor bare read)
      refine ⟨[], cursor, ?_, read, [], rfl, .nil⟩
      rw [Peg.starSpaced, Peg.optional, match?_choice_of_none failed]
      rfl
    | cons value values =>
      obtain ⟨front, here, back, later, rfl⟩ := Language.mem_mul.mp member
      rw [List.append_assoc] at read
      obtain ⟨left, middle, found, rest, told⟩ := reads.complete here bare read
        (follow_rounds ends begins later follows)
      obtain ⟨rest, told'⟩ := rounds_complete reads ends begins filled refuses later rest follows
      refine ⟨_, _, ?_, rest, told'.cons told⟩
      rw [Peg.starSpaced, Peg.optional]
      exact match?_choice_of_some (match?_seq_of_some found rfl)

end Star

end Reads

namespace Refuses

variable {first second body : Peg Rule} {tokens : List Token}

theorem seq (refuses : Refuses first tokens) : Refuses (.seq first second) tokens :=
  fun cursor bare read => match?_seq_eq_none (refuses cursor bare read)

/-- What follows a first part may be wrong, too. -/
theorem seq_of_second {follow : List Token → Prop} {layouts : α → Language Token}
    {tells : List (Node Rule) → α → Prop} {more : List Token}
    (front : Reads first follow layouts tells) (value : α) (member : tokens ∈ layouts value)
    (follows : follow more) (refuses : Refuses second more) :
    Refuses (.seq first (.seq gap second)) (tokens ++ more) := by
  intro cursor bare read
  obtain ⟨nodes, next, found, rest, -⟩ := front.complete member bare read follows
  obtain ⟨start, skipped, same⟩ := match?_gap next
  apply match?_seq_eq_none_of_second found
  rw [same]
  exact refuses start (by rw [skipped, skipGap_skipGap]) (by rw [skipped, lex?_skipGap, rest])

theorem rule (name : Rule) (refuses : Refuses body tokens) : Refuses (.rule name body) tokens := by
  intro cursor bare read
  rw [match?_rule, refuses cursor bare read]
  rfl

theorem choice (here : Refuses first tokens) (there : Refuses second tokens) :
    Refuses (.choice first second) tokens :=
  fun cursor bare read =>
    (match?_choice_of_none (here cursor bare read)).trans (there cursor bare read)

end Refuses

end PluginScript.Table
