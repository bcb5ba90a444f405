import PluginScript.Proofs.TableLanguage
import PluginScript.Table.Relayout

/-! # Line breaks in a table

Where line breaks stand in the layout of a table, any number of them may stand. What matters of the
line breaks is therefore in front of which tokens some of them stand (`spacing`): a list of tokens
with the spacing of a layout can be cut into the same parts as the layout (`Loose`), and is a layout
of the same sections (`mem_tableOf_of_spacing`). At the start of a table it does not even matter
whether there are line breaks, and tidying up keeps the rest.
-/

namespace PluginScript.Table

open Token Layout
open scoped Computability

namespace Token

/-- The tokens that are no line breaks, each with whether line breaks stand in front of it. -/
def spacing : Bool → List Token → List (Bool × Token)
  | _, [] => []
  | broken, token :: rest =>
    if token = newline then spacing true rest else (broken, token) :: spacing false rest

theorem spacing_newline (broken : Bool) (rest : List Token) :
    spacing broken (newline :: rest) = spacing true rest :=
  if_pos rfl

theorem spacing_cons {token : Token} (solid : token ≠ newline) (broken : Bool)
    (rest : List Token) :
    spacing broken (token :: rest) = (broken, token) :: spacing false rest :=
  if_neg solid

private theorem spacing_collapse (broken : Bool) (tokens : List Token) :
    spacing broken (collapse tokens) = spacing broken tokens := by
  induction tokens generalizing broken with
  | nil => rfl
  | cons token rest ih =>
    rw [collapse]
    split_ifs with doubled
    · obtain ⟨rfl, next⟩ := doubled
      obtain ⟨others, rfl⟩ := List.head?_eq_some_iff.mp next
      rw [ih, spacing_newline, spacing_newline, spacing_newline]
    · simp only [spacing, ih]

private theorem spacing_dropWhile (tokens : List Token) :
    spacing true (tokens.dropWhile isNewline) = spacing true tokens := by
  induction tokens with
  | nil => rfl
  | cons token rest ih =>
    by_cases breaks : isNewline token = true
    · rw [List.dropWhile_cons_of_pos breaks, ih, eq_of_beq breaks, spacing_newline]
    · rw [List.dropWhile_cons_of_neg breaks]

/-- Line breaks in front are seen from the first token behind them. -/
private theorem spacing_breaks_append {front : List Token}
    (breaks : ∀ token ∈ front, token = newline)
    (broken : Bool) (rest : List Token) :
    spacing broken (front ++ rest) = spacing (broken || !front.isEmpty) rest := by
  induction front generalizing broken with
  | nil => exact congrArg (spacing · rest) (Bool.or_false broken).symm
  | cons token front ih =>
    rw [List.forall_mem_cons] at breaks
    rw [breaks.1, List.cons_append, spacing_newline, ih breaks.2, Bool.true_or, List.isEmpty_cons,
      Bool.not_false, Bool.or_true]

private theorem spacing_append_breaks (broken : Bool) (tokens : List Token) {ending : List Token}
    (breaks : ∀ token ∈ ending, token = newline) :
    spacing broken (tokens ++ ending) = spacing broken tokens := by
  induction tokens generalizing broken with
  | nil =>
    have bare := spacing_breaks_append breaks broken []
    rwa [List.append_nil] at bare
  | cons token rest ih => simp only [List.cons_append, spacing, ih]

theorem spacing_tidy (tokens : List Token) : spacing true (tidy tokens) = spacing true tokens := by
  have trailing (front : List Token) :
      spacing true (front.rdropWhile isNewline) = spacing true front := by
    conv_rhs => rw [← List.rdropWhile_append_rtakeWhile (p := isNewline) (l := front)]
    rw [spacing_append_breaks]
    intro token member
    have breaks : isNewline token = true := List.mem_rtakeWhile_imp member
    exact eq_of_beq breaks
  rw [tidy, trailing, spacing_dropWhile, spacing_collapse]

end Token

private theorem forall_eq_newline_of_mem_breaks {tokens : List Token} (member : tokens ∈ breaks) :
    ∀ token ∈ tokens, token = newline := by
  obtain ⟨parts, rfl, all⟩ := Language.mem_kstar.mp member
  intro token inside
  obtain ⟨part, partMember, inside⟩ := List.mem_flatten.mp inside
  rw [all part partMember] at inside
  exact List.mem_singleton.mp inside

/-- Where nothing but line breaks is left. -/
private theorem mem_breaks_of_spacing {broken : Bool} {tokens : List Token}
    (bare : spacing broken tokens = []) : tokens ∈ breaks := by
  induction tokens generalizing broken with
  | nil => exact nil_mem_breaks
  | cons token rest ih =>
    by_cases same : token = newline
    · subst same
      exact newline_cons_mem_breaks (ih bare)
    · rw [spacing_cons same] at bare
      cases bare

/-- The first token that is no line break, and the line breaks in front of it. -/
private theorem exists_of_spacing {broken breaksBefore : Bool} {tokens : List Token} {token : Token}
    {more : List (Bool × Token)} (spaced : spacing broken tokens = (breaksBefore, token) :: more) :
    ∃ front ∈ breaks, ∃ rest, tokens = front ++ token :: rest ∧ spacing false rest = more ∧
      breaksBefore = (broken || !front.isEmpty) := by
  induction tokens generalizing broken with
  | nil => cases spaced
  | cons first rest ih =>
    by_cases same : first = newline
    · subst same
      obtain ⟨front, member, rest, rfl, behind, before⟩ := ih spaced
      refine ⟨newline :: front, newline_cons_mem_breaks member, rest, rfl, behind, ?_⟩
      rw [before, List.isEmpty_cons, Bool.not_false, Bool.or_true, Bool.true_or]
    · rw [spacing_cons same] at spaced
      cases spaced
      exact ⟨[], nil_mem_breaks, rest, rfl, rfl, (Bool.or_false breaksBefore).symm⟩

/-! ## Layouts without line breaks -/

/-- Layouts that hold no line break. -/
def Solid (layouts : Language Token) : Prop :=
  ∀ front ∈ layouts, newline ∉ front

namespace Solid

variable {first second : Language Token}

theorem singleton {tokens : List Token} (solid : newline ∉ tokens) : Solid {tokens} := by
  rintro _ rfl
  exact solid

theorem one : Solid 1 := by
  intro front member
  cases (Language.mem_one front).mp member
  exact List.not_mem_nil

theorem add (here : Solid first) (there : Solid second) : Solid (first + second) :=
  fun front member => member.elim (here front) (there front)

theorem mul (here : Solid first) (there : Solid second) : Solid (first * second) := by
  rintro _ ⟨front, member, back, member', rfl⟩
  exact List.mem_append.not.mpr (not_or.mpr ⟨here front member, there back member'⟩)

theorem prod {α : Type} {layouts : α → Language Token} (each : ∀ value, Solid (layouts value))
    (values : List α) : Solid (values.map layouts).prod := by
  induction values with
  | nil => exact one
  | cons value values ih => exact (each value).mul ih

end Solid

private theorem solid_methodsOf (methods : List Text) : Solid (methodsOf methods) := by
  cases methods with
  | nil => exact Solid.one
  | cons first rest =>
    have further : Solid (rest.map fun method => {[mark ',', quoted method]}).prod :=
      Solid.prod (fun method => Solid.singleton (by simp)) rest
    exact ((Solid.singleton (by simp)).mul further).mul (Solid.one.add (Solid.singleton (by simp)))

private theorem solid_lineOf (line : Line) : Solid (lineOf line) := by
  match line with
  | .global name => exact Solid.singleton (by simp)
  | .indexers methods =>
    exact ((Solid.singleton (by simp)).mul (solid_methodsOf methods)).mul
      (Solid.singleton (by simp))
  | .enabled true => exact Solid.singleton (by simp)
  | .enabled false => exact Solid.singleton (by simp)

/-! ## Loose layouts -/

/-- Layouts that go along with changes in the number of line breaks: where the tokens of a layout
are spaced alike, there is a layout in front of the same rest. -/
def Loose (layouts : Language Token) : Prop :=
  ∀ front ∈ layouts, ∀ rest tokens, spacing false tokens = spacing false (front ++ rest) →
    ∃ front' ∈ layouts, ∃ rest', tokens = front' ++ rest' ∧
      spacing false rest' = spacing false rest

/-- Tokens without line breaks are found again as they are. -/
private theorem exists_append_of_spacing {front : List Token} (solid : newline ∉ front)
    {rest tokens : List Token} (spaced : spacing false tokens = spacing false (front ++ rest)) :
    ∃ rest', tokens = front ++ rest' ∧ spacing false rest' = spacing false rest := by
  induction front generalizing tokens with
  | nil => exact ⟨tokens, rfl, spaced⟩
  | cons token front ih =>
    rw [List.mem_cons, not_or] at solid
    rw [List.cons_append, spacing_cons (Ne.symm solid.1)] at spaced
    obtain ⟨none, member, behind, rfl, spaced, before⟩ := exists_of_spacing spaced
    have empty : none = [] := by simpa using before
    obtain ⟨rest', rfl, same⟩ := ih solid.2 spaced
    exact ⟨rest', by rw [empty]; rfl, same⟩

private theorem loose_of_solid {layouts : Language Token} (solid : Solid layouts) :
    Loose layouts := by
  intro front member rest tokens spaced
  obtain ⟨rest', split, same⟩ := exists_append_of_spacing (solid front member) spaced
  exact ⟨front, member, rest', split, same⟩

private theorem loose_breaks : Loose breaks := by
  intro front member rest tokens spaced
  rw [spacing_breaks_append (forall_eq_newline_of_mem_breaks member)] at spaced
  cases rest with
  | nil => exact ⟨[], nil_mem_breaks, tokens, rfl, spaced⟩
  | cons token rest =>
    by_cases same : token = newline
    · subst same
      exact ⟨[], nil_mem_breaks, tokens, rfl, spaced⟩
    · rw [spacing_cons same] at spaced
      obtain ⟨front', member', rest', rfl, behind, -⟩ := exists_of_spacing spaced
      exact ⟨front', member', token :: rest', rfl, by
        rw [spacing_cons same, spacing_cons same, behind]⟩

/-- Line breaks that have to be there stay there, since something comes behind them. -/
private theorem loose_break_mul {layouts : Language Token} (solid : Solid layouts)
    (filled : [] ∉ layouts) : Loose ({[newline]} * breaks * layouts) := by
  rintro _ ⟨front, some, spelt, member, rfl⟩ rest tokens spaced
  cases spelt with
  | nil => exact absurd member filled
  | cons token spelt =>
    have here := solid _ member
    rw [List.mem_cons, not_or] at here
    obtain ⟨_, rfl, others, more, rfl⟩ := some
    have before := forall_eq_newline_of_mem_breaks (newline_cons_mem_breaks more)
    dsimp only at spaced
    rw [List.append_assoc, List.singleton_append, spacing_breaks_append before, List.cons_append,
      spacing_cons (Ne.symm here.1)] at spaced
    obtain ⟨front', run, behind, rfl, spaced, filled'⟩ := exists_of_spacing spaced
    obtain ⟨rest', rfl, same⟩ := exists_append_of_spacing here.2 spaced
    have some' : front' ∈ {[newline]} * breaks := by
      rcases mem_breaks_iff.mp run with rfl | some'
      · cases filled'
      · exact some'
    exact ⟨front' ++ token :: spelt, Language.append_mem_mul some' member, rest', by
      rw [List.append_assoc, List.cons_append], same⟩

namespace Loose

variable {first second : Language Token}

theorem one : Loose 1 := by
  intro front member rest tokens spaced
  cases (Language.mem_one front).mp member
  exact ⟨[], Language.nil_mem_one, tokens, rfl, spaced⟩

theorem mul (here : Loose first) (there : Loose second) : Loose (first * second) := by
  rintro _ ⟨front, member, back, member', rfl⟩ rest tokens spaced
  obtain ⟨front', member, behind, rfl, between⟩ :=
    here front member (back ++ rest) tokens (by rwa [← List.append_assoc])
  obtain ⟨back', member', rest', rfl, same⟩ := there back member' rest behind between
  exact ⟨front' ++ back', Language.append_mem_mul member member', rest',
    (List.append_assoc _ _ _).symm, same⟩

theorem prod {α : Type} {layouts : α → Language Token} (each : ∀ value, Loose (layouts value))
    (values : List α) : Loose (values.map layouts).prod := by
  induction values with
  | nil => exact one
  | cons value values ih => exact (each value).mul ih

end Loose

/-! ## Layouts of sections -/

private theorem loose_linesOf (lines : List Line) : Loose (linesOf lines) := by
  refine Loose.prod (fun line => loose_break_mul (solid_lineOf line) fun empty => ?_) lines
  have first := head?_of_mem_lineOf empty []
  cases first

private theorem loose_blockOf (declared : Section) : Loose (blockOf declared) :=
  (loose_of_solid (Solid.singleton (by simp))).mul (loose_linesOf declared.lines)

private theorem loose_parts (declared : List Section) :
    Loose (declared.map fun one => blockOf one * breaks).prod :=
  Loose.prod (fun one => (loose_blockOf one).mul loose_breaks) declared

/-- Line breaks behind a table belong to it. -/
theorem tableOf_mul_breaks (declared : List Section) :
    tableOf declared * breaks = tableOf declared := by
  have twice : breaks * breaks = breaks := kstar_mul_kstar _
  cases declared using List.reverseRecOn with
  | nil => rw [tableOf, List.map_nil, List.prod_nil, mul_one, twice]
  | append_singleton others last =>
    simp only [tableOf, List.map_append, List.map_singleton, List.prod_append, List.prod_singleton,
      mul_assoc, twice]

/-- A list of tokens that is spaced like a table is a table with the same sections. -/
theorem mem_tableOf_of_spacing {declared : List Section} {first second : List Token}
    (spaced : spacing true second = spacing true first) (member : first ∈ tableOf declared) :
    second ∈ tableOf declared := by
  obtain ⟨start, before, parts, here, rfl⟩ := Language.mem_mul.mp member
  rw [spacing_breaks_append (forall_eq_newline_of_mem_breaks before), Bool.true_or] at spaced
  rw [← tableOf_mul_breaks]
  cases parts with
  | nil =>
    have empty := Language.append_mem_mul nil_mem_breaks here
    exact Language.append_mem_mul empty (mem_breaks_of_spacing spaced)
  | cons token parts =>
    have solid : token ≠ newline := by
      cases declared with
      | nil => cases (Language.mem_one _).mp here
      | cons one others =>
        obtain ⟨front, inFront, back, -, split⟩ := Language.mem_mul.mp here
        have head := head?_of_mem_part inFront back
        rw [split] at head
        cases head
        exact nofun
    rw [spacing_cons solid] at spaced
    obtain ⟨start', before', behind, rfl, same, -⟩ := exists_of_spacing spaced
    obtain ⟨parts', here', rest, split, bare⟩ :=
      loose_parts declared (token :: parts) here [] (token :: behind) (by
        rw [List.append_nil, spacing_cons solid, spacing_cons solid, same])
    rw [split, ← List.append_assoc]
    exact Language.append_mem_mul (Language.append_mem_mul before' here')
      (mem_breaks_of_spacing bare)

end PluginScript.Table
