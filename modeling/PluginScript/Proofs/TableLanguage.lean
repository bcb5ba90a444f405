import PluginScript.Proofs.TableLines
import PluginScript.Table

/-! # The language of the table grammar

The grammar accepts a text if and only if its tokens are those of a table, and the sections it reads
off the text are the ones that the tokens spell. So nothing depends on how the grammar matches: on
the order of its choices, on repetitions that give nothing back, on gaps that are kept where nothing
follows them, and on keywords without a boundary.
-/

namespace PluginScript.Table

open Peg Token Layout
open scoped Computability

/-- Neither a line break nor a word comes first. -/
def EndsSection (tokens : List Token) : Prop :=
  Unbroken tokens ∧ Wordless tokens

/-- Behind line breaks, if there are some, there is no line. -/
def EndsLines (tokens : List Token) : Prop :=
  ∃ front ∈ breaks, ∃ rest, tokens = front ++ rest ∧ EndsSection rest

theorem mem_breaks_iff {tokens : List Token} :
    tokens ∈ breaks ↔ tokens = [] ∨ tokens ∈ {[newline]} * breaks := by
  conv_lhs => rw [breaks, ← Language.one_add_self_mul_kstar_eq_kstar, Language.mem_add]
  rw [Language.mem_one, breaks]

theorem mem_singleton_self (tokens : List Token) : tokens ∈ ({tokens} : Language Token) :=
  rfl

theorem nil_mem_breaks : [] ∈ breaks :=
  Language.nil_mem_kstar _

theorem newline_mem_break : [newline] ∈ {[newline]} * breaks :=
  Language.append_mem_mul (mem_singleton_self [newline]) nil_mem_breaks

theorem newline_mem_breaks : [newline] ∈ breaks :=
  mem_breaks_iff.mpr (.inr newline_mem_break)

theorem newline_cons_mem_breaks {tokens : List Token} (member : tokens ∈ breaks) :
    newline :: tokens ∈ breaks :=
  mem_breaks_iff.mpr (.inr (Language.append_mem_mul (mem_singleton_self [newline]) member))

private theorem reads_breaks :
    Reads (.starSpaced Grammar.gap Grammar.newline) Unbroken (fun _ => breaks) Silent := by
  have all : Reads _ Unbroken _ _ := reads_newline.starSpaced (fun _ _ => trivial)
    (fun _ _ _ _ => trivial) (by rintro value empty; cases empty) fun _ => refuses_newline
  apply all.map fun _ => ()
  · rintro ⟨⟩ tokens
    have all : breaks = ⨆ values : List Unit, (values.map fun _ => {[newline]}).prod := by
      rw [iSup_prod_map, iSup_const, breaks]
    rw [all, Language.mem_iSup]
    exact ⟨fun ⟨values, member⟩ => ⟨values, rfl, member⟩,
      fun ⟨values, _, member⟩ => ⟨values, member⟩⟩
  · rintro nodes values told
    exact told.eq_nil

/-- At least one line break. -/
private theorem reads_breaks_plus :
    Reads (.plusSpaced Grammar.gap Grammar.newline) Unbroken (fun _ => {[newline]} * breaks)
      Silent :=
  reads_newline.after_silent reads_breaks fun _ _ _ _ _ => trivial

/-- A line with the line breaks in front of it. -/
private theorem reads_round :
    Reads (.spaced Grammar.gap [.plusSpaced Grammar.gap Grammar.newline, Grammar.entry]) Wordless
      (fun line => {[newline]} * breaks * lineOf line)
      (One fun node line => Line.ofNode? node = some line) := by
  apply reads_breaks_plus.after_silent reads_entry
  intro line tokens member more _
  rw [Unbroken, head?_of_mem_lineOf member]
  exact fun same => nomatch same

private theorem refuses_round {tokens : List Token} (ends : EndsLines tokens) :
    Refuses (.spaced Grammar.gap [.plusSpaced Grammar.gap Grammar.newline, Grammar.entry])
      tokens := by
  obtain ⟨front, member, rest, rfl, unbroken, wordless⟩ := ends
  rcases mem_breaks_iff.mp member with rfl | some
  · exact (refuses_newline unbroken).seq.seq
  · exact Refuses.seq_of_second reads_breaks_plus () some unbroken (refuses_entry wordless)

theorem EndsLines.wordless {tokens : List Token} (ends : EndsLines tokens) : Wordless tokens := by
  obtain ⟨front, member, rest, rfl, -, wordless⟩ := ends
  rcases mem_breaks_iff.mp member with rfl | ⟨_, rfl, _, -, rfl⟩
  · exact wordless
  · exact fun word same => nomatch same

private theorem reads_lines :
    Reads
      (.starSpaced Grammar.gap
        (.spaced Grammar.gap [.plusSpaced Grammar.gap Grammar.newline, Grammar.entry]))
      EndsLines linesOf (fun nodes lines => nodes.map Line.ofNode? = lines.map some) := by
  have all : Reads _ EndsLines _ _ := reads_round.starSpaced
    (fun _ => EndsLines.wordless)
    (by
      rintro line _ ⟨_, ⟨_, rfl, _, -, rfl⟩, _, -, rfl⟩ more word same
      cases same)
    (by rintro line ⟨_, ⟨_, rfl, _, -, rfl⟩, _, -, same⟩; cases same)
    fun _ => refuses_round
  exact all.imp TellsAll.map_eq

private theorem reads_header :
    Reads Grammar.header Anything headerOf
      (One fun node owner => node.rule = .header ∧ firstText node = owner.name) := by
  have closed := (reads_word.before_silent (reads_mark (by decide : isMark ']' = true))
    fun _ _ _ _ => trivial).relayout fun _ => singleton_mul_singleton _ _
  have named := ((reads_mark (by decide : isMark '.' = true)).after_silent closed
    fun _ _ _ _ _ => trivial).relayout fun _ => singleton_mul_singleton _ _
  have plugins := ((reads_keyword (by decide : Text.isWord "plugins".toList = true)).after_silent
    named (by rintro owner _ rfl more - word same; cases same)).relayout fun _ =>
      singleton_mul_singleton _ _
  have header := ((reads_mark (by decide : isMark '[' = true)).after_silent plugins
    fun _ _ _ _ _ => trivial).relayout fun _ => singleton_mul_singleton _ _
  apply (header.rule .header).map PluginId.mk
  · intro owner tokens
    exact ⟨fun member => ⟨owner.name, rfl, member⟩, fun ⟨_, same, member⟩ => same ▸ member⟩
  · rintro nodes owner ⟨node, rfl, isHeader, child, inside, text⟩
    refine ⟨node, rfl, isHeader, ?_⟩
    simp only [firstText, inside, text]

private theorem reads_block :
    Reads Grammar.block EndsLines blockOf
      (One fun node declared => (node.rule, Section.ofNode node) = (.block, declared)) := by
  have block := reads_header.seq reads_lines fun _ _ _ _ _ => trivial
  apply (block.rule .block).map fun declared => ⟨declared.1, declared.2⟩
  · intro declared tokens
    exact ⟨fun member => ⟨(declared.owner, declared.lines), rfl, member⟩,
      fun ⟨_, same, member⟩ => same ▸ member⟩
  · rintro nodes ⟨owner, lines⟩ ⟨node, rfl, isBlock, left, right, inside, ⟨header, rfl, told⟩, all⟩
    refine ⟨node, rfl, ?_⟩
    obtain ⟨isHeader, text⟩ := told
    have noLine : Line.ofNode? header = none := by simp only [Line.ofNode?, isHeader]
    have read : right.filterMap Line.ofNode? = lines := by
      have direct := congrArg (List.filterMap id) all
      rwa [List.filterMap_map, List.filterMap_map, Function.id_comp, Function.id_comp,
        List.filterMap_some] at direct
    rw [isBlock, Section.ofNode, inside, List.singleton_append,
      List.find?_cons_of_pos (by rw [isHeader]; rfl), List.filterMap_cons_none noLine, read]
    dsimp only
    rw [text]

/-- A section with the line breaks behind it. -/
private theorem reads_part :
    Reads
      (.spaced Grammar.gap [Grammar.block, .starSpaced Grammar.gap Grammar.newline])
      EndsSection (fun declared => blockOf declared * breaks)
      (One fun node declared => (node.rule, Section.ofNode node) = (.block, declared)) :=
  reads_block.before_silent (reads_breaks.weaken fun _ ends => ends.1)
    fun front member rest ends => ⟨front, member, rest, rfl, ends⟩

theorem head?_of_mem_part {declared : Section} {tokens : List Token}
    (member : tokens ∈ blockOf declared * breaks) (more : List Token) :
    (tokens ++ more).head? = some (mark '[') := by
  obtain ⟨_, ⟨_, rfl, _, -, rfl⟩, _, -, rfl⟩ := member
  rfl

/-- The end of the text. -/
def Ended (tokens : List Token) : Prop :=
  tokens = []

private theorem refuses_part {tokens : List Token} (ended : Ended tokens) :
    Refuses (.spaced Grammar.gap [Grammar.block, .starSpaced Grammar.gap Grammar.newline])
      tokens := by
  have opening : Refuses (.literal ['[']) tokens :=
    refuses_mark (by decide) (by rw [ended]; exact fun same => nomatch same)
  exact ((opening.seq.rule _).seq.rule _).seq

private theorem reads_parts :
    Reads
      (.starSpaced Grammar.gap
        (.spaced Grammar.gap [Grammar.block, .starSpaced Grammar.gap Grammar.newline]))
      Ended (fun declared : List Section => (declared.map fun one => blockOf one * breaks).prod)
      (fun nodes declared =>
        nodes.map (fun node => (node.rule, Section.ofNode node)) =
          declared.map fun one => (.block, one)) := by
  have all : Reads _ Ended _ _ := reads_part.starSpaced
    (by
      rintro _ rfl
      exact ⟨nofun, nofun⟩)
    (by
      intro one tokens member more
      rw [EndsSection, Unbroken, Wordless, head?_of_mem_part member]
      exact ⟨nofun, nofun⟩)
    (by
      intro one member
      have first := head?_of_mem_part member []
      cases first)
    fun _ => refuses_part
  exact all.imp TellsAll.map_eq

private theorem rest_of_match?_endOfInput {cursor next : Cursor} {nodes : List (Node Rule)}
    (found : match? Grammar.endOfInput cursor = some (nodes, next)) :
    cursor.rest = [] ∧ next = cursor ∧ ∃ node, nodes = [node] ∧ node.rule = .endOfInput := by
  obtain ⟨inside, matched, rfl⟩ := match?_rule_eq_some found
  rw [match?_ending] at matched
  split at matched
  · rename_i ended
    cases matched
    exact ⟨List.isEmpty_iff.mp ended, rfl, _, rfl, rfl⟩
  · cases matched

private theorem reads_end :
    Reads Grammar.endOfInput Ended (fun _ : Unit => 1)
      (One fun node _ => node.rule = .endOfInput) where
  sound := by
    intro cursor next nodes more found rest _
    obtain ⟨-, rfl, told⟩ := rest_of_match?_endOfInput found
    exact ⟨(), [], Language.nil_mem_one, rest, told⟩
  complete := by
    rintro cursor value tokens _ member bare read rfl
    cases (Language.mem_one tokens).mp member
    rw [List.append_nil, lex?_eq_nil_iff, bare] at read
    have ended : match? (.ending : Peg Rule) cursor = some ([], cursor) := by
      rw [match?_ending, read]
      rfl
    exact ⟨_, cursor, match?_rule_of_some ended, lex?_eq_nil_iff.mpr (bare.trans read), _, rfl, rfl⟩

/-- The sections that nodes stand for. -/
def sectionsOf (nodes : List (Node Rule)) : List Section :=
  (nodes.filter fun node => node.rule == .block).map Section.ofNode

private theorem sectionsOf_eq {nodes : List (Node Rule)} {declared : List Section}
    (all : nodes.map (fun node => (node.rule, Section.ofNode node)) =
      declared.map fun one => (.block, one)) : sectionsOf nodes = declared := by
  have pairs : sectionsOf nodes =
      ((nodes.map fun node => (node.rule, Section.ofNode node)).filter
        fun pair => pair.1 == .block).map Prod.snd := by
    rw [List.filter_map, List.map_map]
    rfl
  rw [pairs, all, List.filter_map, List.map_map]
  simp [Function.comp_def]

/-- What a table holds behind the gap at its front. -/
def tableContent : Peg Rule :=
  .spaced Grammar.gap [.starSpaced Grammar.gap Grammar.newline,
    .starSpaced Grammar.gap
      (.spaced Grammar.gap [Grammar.block, .starSpaced Grammar.gap Grammar.newline]),
    Grammar.endOfInput]

theorem reads_tableContent :
    Reads tableContent Ended tableOf (fun nodes declared => sectionsOf nodes = declared) := by
  have closed := reads_parts.seq reads_end (by
    intro _ tokens member more ended
    cases (Language.mem_one tokens).mp member
    exact ended)
  have content := reads_breaks.after_silent closed (by
    rintro ⟨declared, _⟩ _ ⟨parts, member, _, none, rfl⟩ more rfl
    cases (Language.mem_one _).mp none
    cases declared with
    | nil =>
      cases (Language.mem_one parts).mp member
      exact nofun
    | cons one others =>
      obtain ⟨front, here, back, -, rfl⟩ := Language.mem_mul.mp member
      rw [Unbroken, List.append_assoc, List.append_assoc, head?_of_mem_part here]
      exact nofun)
  apply content.map Prod.fst
  · intro declared tokens
    simp only [tableOf, mul_one]
    exact ⟨fun member => ⟨(declared, ()), rfl, member⟩, fun ⟨_, same, member⟩ => same ▸ member⟩
  · rintro nodes ⟨declared, _⟩ ⟨left, right, rfl, all, node, rfl, isEnd⟩
    rw [sectionsOf, List.filter_append, List.map_append]
    change sectionsOf left ++ sectionsOf [node] = declared
    rw [sectionsOf_eq all, sectionsOf, List.filter_cons_of_neg (by rw [isEnd]; decide)]
    exact List.append_nil declared

private theorem rest_of_match?_tableContent {cursor next : Cursor} {nodes : List (Node Rule)}
    (found : match? tableContent cursor = some (nodes, next)) : next.rest = [] := by
  obtain ⟨_, _, _, _, -, -, behind, -⟩ := match?_seq_gap_eq_some found
  obtain ⟨_, _, _, _, -, -, ending, -⟩ := match?_seq_gap_eq_some behind
  obtain ⟨ended, rfl, -⟩ := rest_of_match?_endOfInput ending
  exact ended

/-- A match of the grammar uses up the text, and the text has the tokens of the sections read. -/
theorem match?_table_sound {text : Text} {next : Cursor} {nodes : List (Node Rule)}
    (found : match? Grammar.table (.before 0 text) = some (nodes, next)) :
    next.rest = [] ∧ ∃ tokens ∈ tableOf (Section.ofNodes nodes), lex? text = some tokens := by
  obtain ⟨inside, matched, rfl⟩ := match?_rule_eq_some found
  obtain ⟨left, middle, bare, right, start, skipped, content, rfl⟩ := match?_seq_gap_eq_some matched
  cases start
  have ended := rest_of_match?_tableContent content
  have nothing : lex? next.rest = some [] := by rw [ended]; exact lex?_eq_nil_iff.mpr rfl
  obtain ⟨declared, tokens, member, read, told⟩ := reads_tableContent.sound content nothing rfl
  rw [skipped, lex?_skipGap, List.append_nil] at read
  refine ⟨ended, tokens, ?_, read⟩
  rw [Section.ofNodes, List.flatMap_singleton]
  change tokens ∈ tableOf (sectionsOf right)
  rwa [told]

/-- A text with the tokens of a table is matched, and its sections are read. -/
theorem match?_table_complete {text : Text} {tokens : List Token} {declared : List Section}
    (member : tokens ∈ tableOf declared) (read : lex? text = some tokens) :
    ∃ nodes next, match? Grammar.table (.before 0 text) = some (nodes, next) ∧
      Section.ofNodes nodes = declared := by
  obtain ⟨bare, skipped, same⟩ := match?_gap (.before 0 text)
  have clear : skipGap bare.rest = bare.rest := by rw [skipped, skipGap_skipGap]
  have start : lex? bare.rest = some (tokens ++ []) := by
    rw [skipped, lex?_skipGap, List.append_nil]
    exact read
  obtain ⟨nodes, next, found, -, told⟩ := reads_tableContent.complete member clear start rfl
  rw [← same] at found
  have front : match? (.beginning : Peg Rule) (.before 0 text) = some ([], .before 0 text) := rfl
  refine ⟨_, next, match?_rule_of_some (match?_seq_of_some front found), ?_⟩
  rw [Section.ofNodes, List.flatMap_singleton]
  exact told

/-- The sections of a text are those whose layout its tokens are. -/
theorem sections_eq_ok_iff {text : Text} {declared : List Section} :
    sections text = .ok declared ↔ ∃ tokens ∈ tableOf declared, lex? text = some tokens := by
  constructor
  · intro read
    rw [sections, Peg.parse] at read
    cases found : match? Grammar.table (.before 0 text) with
    | none => simp [found] at read
    | some result =>
      obtain ⟨nodes, next⟩ := result
      rw [found] at read
      cases read
      exact (match?_table_sound found).2
  · rintro ⟨tokens, member, read⟩
    obtain ⟨nodes, next, found, rfl⟩ := match?_table_complete member read
    rw [sections, Peg.parse, found]

/-- The grammar matches a whole text if and only if the text has tokens and they are in the token
language of tables, and this is also when there are sections to read. -/
theorem match?_table_iff (text : Text) :
    ((∃ nodes next, match? Grammar.table (.before 0 text) = some (nodes, next) ∧ next.rest = []) ↔
        ∃ tokens, lex? text = some tokens ∧ tokens ∈ Layout.table) ∧
      ((∃ declared, sections text = .ok declared) ↔
        ∃ tokens, lex? text = some tokens ∧ tokens ∈ Layout.table) := by
  have language : (∃ tokens, lex? text = some tokens ∧ tokens ∈ Layout.table) ↔
      ∃ declared, ∃ tokens ∈ tableOf declared, lex? text = some tokens := by
    simp only [table_eq_iSup, Language.mem_iSup]
    exact ⟨fun ⟨tokens, read, declared, member⟩ => ⟨declared, tokens, member, read⟩,
      fun ⟨declared, tokens, member, read⟩ => ⟨tokens, read, declared, member⟩⟩
  rw [language]
  constructor
  · constructor
    · rintro ⟨nodes, next, found, -⟩
      exact ⟨_, (match?_table_sound found).2⟩
    · rintro ⟨declared, tokens, member, read⟩
      obtain ⟨nodes, next, found, -⟩ := match?_table_complete member read
      exact ⟨nodes, next, found, (match?_table_sound found).1⟩
  · exact exists_congr fun declared => sections_eq_ok_iff

end PluginScript.Table
