import PluginScript.Proofs.ArgumentScan

/-! # Outlines

The outline of a text is the tree of its closed pairs of parentheses. A parenthesis that has no
partner stands in the outline as a plain character. Inside a closed pair there are no such loose
parentheses, and none that closes follows one that opens; an outline with these properties is
canonical, and every text has exactly one canonical outline (`text_ofText`, `canonical_ofText`,
`ofText_text`).

The groups of a canonical outline are the argument lists that the scan finds (`split?_group`), and
its loose opening parentheses are those from which the scan finds no end (`split?_char`).
-/

namespace PluginScript

open Arguments (Bracket)

/-- The closed pairs of parentheses in a text, as a tree. -/
inductive Outline where
  | nil
  /-- A character, which may be a parenthesis without a partner. -/
  | char (c : Char) (rest : Outline)
  /-- A closed pair of parentheses around `inner`, and what follows it. -/
  | group (inner rest : Outline)
deriving DecidableEq, Repr

namespace Outline

/-- The text that an outline describes. -/
def text : Outline → Text
  | nil => []
  | char c rest => c :: rest.text
  | group inner rest => '(' :: (inner.text ++ ')' :: rest.text)

@[simp] theorem text_nil : nil.text = [] := rfl

@[simp] theorem text_char (c : Char) (rest : Outline) : (char c rest).text = c :: rest.text := rfl

@[simp] theorem text_group (inner rest : Outline) :
    (group inner rest).text = '(' :: (inner.text ++ ')' :: rest.text) := rfl

/-- One outline behind another. -/
def append : Outline → Outline → Outline
  | nil, second => second
  | char c rest, second => char c (rest.append second)
  | group inner rest, second => group inner (rest.append second)

instance : Append Outline := ⟨append⟩

@[simp] theorem nil_append (second : Outline) : nil ++ second = second := rfl

@[simp] theorem char_append (c : Char) (rest second : Outline) :
    char c rest ++ second = char c (rest ++ second) := rfl

@[simp] theorem group_append (inner rest second : Outline) :
    group inner rest ++ second = group inner (rest ++ second) := rfl

@[simp] theorem text_append (first second : Outline) :
    (first ++ second).text = first.text ++ second.text := by
  induction first with
  | nil => rfl
  | char c rest ih => simp only [char_append, text_char, ih, List.cons_append]
  | group inner rest _ ih =>
    simp only [group_append, text_group, ih, List.cons_append, List.append_assoc]

/-- The outline of a text without parentheses: its characters one by one. -/
def spell : Text → Outline
  | [] => nil
  | c :: rest => char c (spell rest)

@[simp] theorem spell_nil : spell [] = nil := rfl

@[simp] theorem spell_cons (c : Char) (rest : Text) : spell (c :: rest) = char c (spell rest) := rfl

@[simp] theorem text_spell (word : Text) : (spell word).text = word := by
  induction word with
  | nil => rfl
  | cons c rest ih => rw [spell_cons, text_char, ih]

/-- The argument list with an outline between its parentheses. -/
def list (inner : Outline) : Text :=
  (group inner nil).text

theorem list_eq (inner : Outline) : inner.list = '(' :: (inner.text ++ [')']) := rfl

theorem list_eq_concat (inner : Outline) : inner.list = '(' :: inner.text ++ [')'] := rfl

theorem length_list (inner : Outline) : inner.list.length = inner.text.length + 2 := by
  rw [list_eq, List.length_cons, List.length_append]
  rfl

theorem text_group_eq (inner rest : Outline) :
    (group inner rest).text = inner.list ++ rest.text := by
  simp only [text_group, list_eq, List.cons_append, List.append_assoc, List.nil_append]

/-! ## Canonical outlines -/

/-- Every parenthesis has its partner. -/
def Balanced : Outline → Prop
  | nil => True
  | char c rest => Bracket.ofChar c = .other ∧ rest.Balanced
  | group inner rest => inner.Balanced ∧ rest.Balanced

/-- Every closing parenthesis has its partner. -/
def Open : Outline → Prop
  | nil => True
  | char c rest => c ≠ ')' ∧ rest.Open
  | group inner rest => inner.Balanced ∧ rest.Open

/-- Every parenthesis that could have a partner has it. -/
def Canonical : Outline → Prop
  | nil => True
  | char c rest => (c = '(' → rest.Open) ∧ rest.Canonical
  | group inner rest => inner.Balanced ∧ rest.Canonical

/-- A character is no parenthesis exactly if it differs from both. -/
theorem ofChar_eq_other_iff {c : Char} : Bracket.ofChar c = .other ↔ c ≠ '(' ∧ c ≠ ')' := by
  unfold Bracket.ofChar
  split_ifs <;> simp_all

theorem Balanced.canonical {outline : Outline} (balanced : outline.Balanced) :
    outline.Canonical := by
  induction outline with
  | nil => trivial
  | char c rest ih =>
    exact ⟨fun opening => ((ofChar_eq_other_iff.mp balanced.1).1 opening).elim, ih balanced.2⟩
  | group inner rest _ ih => exact ⟨balanced.1, ih balanced.2⟩

/-- A closing parenthesis behind closed pairs leaves an outline canonical. -/
theorem Balanced.append_closing {first rest : Outline} (balanced : first.Balanced)
    (canonical : rest.Canonical) : (first ++ char ')' rest).Canonical := by
  induction first with
  | nil => exact ⟨fun other => absurd other (by decide), canonical⟩
  | char c front ih =>
    obtain ⟨here, behind⟩ := balanced
    exact ⟨fun opening => ((ofChar_eq_other_iff.mp here).1 opening).elim, ih behind⟩
  | group inner front _ ih => exact ⟨balanced.1, ih balanced.2⟩

/-- What follows the front of a canonical outline is canonical. -/
theorem Canonical.of_append {first second : Outline} (canonical : (first ++ second).Canonical) :
    second.Canonical := by
  induction first with
  | nil => exact canonical
  | char c rest ih => exact ih canonical.2
  | group inner rest _ ih => exact ih canonical.2

/-! ## The outline of a text -/

/-- Cuts an outline at its first loose closing parenthesis. -/
def cut? : Outline → Option (Outline × Outline)
  | nil => none
  | char c rest =>
    if c = ')' then some (nil, rest)
    else rest.cut?.map fun parts => (char c parts.1, parts.2)
  | group inner rest => rest.cut?.map fun parts => (group inner parts.1, parts.2)

theorem cut?_char (c : Char) (rest : Outline) : (char c rest).cut? =
    if c = ')' then some (nil, rest)
    else rest.cut?.map fun parts => (char c parts.1, parts.2) := rfl

theorem cut?_group (inner rest : Outline) : (group inner rest).cut? =
    rest.cut?.map fun parts => (group inner parts.1, parts.2) := rfl

/-- The outline of a text, read from its end: an opening parenthesis finds its partner in the
first closing one that is still loose behind it. -/
def ofText : Text → Outline
  | [] => nil
  | c :: rest =>
    if c = '(' then
      match (ofText rest).cut? with
      | some (inner, behind) => group inner behind
      | none => char c (ofText rest)
    else char c (ofText rest)

theorem ofText_cons (c : Char) (rest : Text) : ofText (c :: rest) =
    if c = '(' then
      match (ofText rest).cut? with
      | some (inner, behind) => group inner behind
      | none => char c (ofText rest)
    else char c (ofText rest) := rfl

private theorem text_of_cut? {outline inner behind : Outline}
    (cut : outline.cut? = some (inner, behind)) :
    outline.text = inner.text ++ ')' :: behind.text := by
  induction outline generalizing inner with
  | nil => cases cut
  | char c rest ih =>
    rw [cut?_char] at cut
    split_ifs at cut with closing
    · cases cut
      rw [closing]
      rfl
    · obtain ⟨⟨front, back⟩, found, same⟩ := Option.map_eq_some_iff.mp cut
      cases same
      simp only [text_char, ih found, List.cons_append]
  | group inner rest _ ih =>
    obtain ⟨⟨front, back⟩, found, same⟩ := Option.map_eq_some_iff.mp cut
    cases same
    simp only [text_group, ih found, List.cons_append, List.append_assoc]

/-- The outline of a text describes the text. -/
@[simp] theorem text_ofText (text : Text) : (ofText text).text = text := by
  induction text with
  | nil => rfl
  | cons c rest ih =>
    rw [ofText_cons]
    split_ifs with opening
    · split
      · rename_i inner behind cut
        rw [text_group, ← text_of_cut? cut, ih, opening]
      · rw [text_char, ih]
    · rw [text_char, ih]

private theorem Open.cut?_eq_none {outline : Outline} (isOpen : outline.Open) :
    outline.cut? = none := by
  induction outline with
  | nil => rfl
  | char c rest ih => rw [cut?_char, if_neg isOpen.1, ih isOpen.2, Option.map_none]
  | group inner rest _ ih => rw [cut?_group, ih isOpen.2, Option.map_none]

private theorem Canonical.open_of_cut? {outline : Outline} (canonical : outline.Canonical)
    (uncut : outline.cut? = none) : outline.Open := by
  induction outline with
  | nil => trivial
  | char c rest ih =>
    rw [cut?_char] at uncut
    split_ifs at uncut with closing
    exact ⟨closing, ih canonical.2 (Option.map_eq_none_iff.mp uncut)⟩
  | group inner rest _ ih =>
    exact ⟨canonical.1, ih canonical.2 (Option.map_eq_none_iff.mp uncut)⟩

/-- In a canonical outline only closed pairs stand in front of the first loose closing
parenthesis. -/
private theorem Canonical.balanced_of_cut? {outline inner behind : Outline}
    (canonical : outline.Canonical) (cut : outline.cut? = some (inner, behind)) :
    inner.Balanced ∧ behind.Canonical := by
  induction outline generalizing inner with
  | nil => cases cut
  | char c rest ih =>
    rw [cut?_char] at cut
    split_ifs at cut with closing
    · cases cut
      exact ⟨trivial, canonical.2⟩
    · obtain ⟨⟨front, back⟩, found, same⟩ := Option.map_eq_some_iff.mp cut
      cases same
      obtain ⟨balanced, behind_canonical⟩ := ih canonical.2 found
      refine ⟨⟨ofChar_eq_other_iff.mpr ⟨?_, closing⟩, balanced⟩, behind_canonical⟩
      intro opening
      rw [(canonical.1 opening).cut?_eq_none] at found
      contradiction
  | group inner rest _ ih =>
    obtain ⟨⟨front, back⟩, found, same⟩ := Option.map_eq_some_iff.mp cut
    cases same
    obtain ⟨balanced, behind_canonical⟩ := ih canonical.2 found
    exact ⟨⟨canonical.1, balanced⟩, behind_canonical⟩

theorem canonical_ofText (text : Text) : (ofText text).Canonical := by
  induction text with
  | nil => trivial
  | cons c rest ih =>
    rw [ofText_cons]
    split_ifs with opening
    · split
      · rename_i inner behind cut
        exact ih.balanced_of_cut? cut
      · rename_i uncut
        exact ⟨fun _ => ih.open_of_cut? uncut, ih⟩
    · exact ⟨fun other => (opening other).elim, ih⟩

private theorem Balanced.cut?_append {inner : Outline} (balanced : inner.Balanced)
    (behind : Outline) :
    (inner ++ char ')' behind).cut? = some (inner, behind) := by
  induction inner with
  | nil => rfl
  | char c rest ih =>
    rw [char_append, cut?_char, if_neg (ofChar_eq_other_iff.mp balanced.1).2, ih balanced.2]
    rfl
  | group inner rest _ ih =>
    rw [group_append, cut?_group, ih balanced.2]
    rfl

theorem Balanced.ofText_append {front : Outline} (balanced : front.Balanced) (rest : Text) :
    ofText (front.text ++ rest) = front ++ ofText rest := by
  induction front generalizing rest with
  | nil => rfl
  | char c front ih =>
    rw [text_char, List.cons_append, ofText_cons, if_neg (ofChar_eq_other_iff.mp balanced.1).1,
      ih balanced.2, char_append]
  | group inner front ihInner ih =>
    have behind : ofText (')' :: (front.text ++ rest)) = char ')' (front ++ ofText rest) := by
      rw [ofText_cons, if_neg (by decide), ih balanced.2]
    rw [text_group, List.cons_append, List.append_assoc, List.cons_append, ofText_cons, if_pos rfl,
      ihInner balanced.1, behind, balanced.1.cut?_append]
    rfl

/-- A canonical outline is the outline of its text. -/
theorem Canonical.ofText_text {outline : Outline} (canonical : outline.Canonical) :
    ofText outline.text = outline := by
  induction outline with
  | nil => rfl
  | char c rest ih =>
    simp only [text_char, ofText_cons, ih canonical.2]
    split_ifs with opening
    · rw [(canonical.1 opening).cut?_eq_none]
    · rfl
  | group inner rest _ ih =>
    have behind : ofText (')' :: rest.text) = char ')' rest := by
      rw [ofText_cons, if_neg (by decide), ih canonical.2]
    rw [text_group, ofText_cons, if_pos rfl, canonical.1.ofText_append, behind,
      canonical.1.cut?_append]

/-! ## Outlines and the scan for an argument list -/

/-- A scan that is inside a list goes on behind closed pairs at the depth it had. -/
theorem Balanced.splitFrom?_append {front : Outline} (balanced : front.Balanced) {depth : Int}
    (inside : 0 < depth) (rest : Text) :
    Arguments.splitFrom? Bracket.ofChar depth true (front.text ++ rest) =
      (Arguments.splitFrom? Bracket.ofChar depth true rest).map
        fun parts => (front.text ++ parts.1, parts.2) := by
  induction front generalizing depth rest with
  | nil => simp only [text_nil, List.nil_append, Option.map_id']
  | char c front ih =>
    have level : depth + (Bracket.ofChar c).weight = depth := by
      rw [balanced.1]
      exact Int.add_zero depth
    rw [text_char, List.cons_append, Arguments.splitFrom?_cons_of_ne_zero (by omega), level,
      ih balanced.2 inside, Option.map_map]
    rfl
  | group inner front ihInner ih =>
    have down : depth + (Bracket.ofChar '(').weight = depth + 1 := rfl
    have up : depth + 1 + (Bracket.ofChar ')').weight = depth := by
      change depth + 1 + -1 = depth
      omega
    rw [text_group, List.cons_append, List.append_assoc, List.cons_append,
      Arguments.splitFrom?_cons_of_ne_zero (by omega), down, ihInner balanced.1 (by omega),
      Arguments.splitFrom?_cons_of_ne_zero (by omega), up, ih balanced.2 inside]
    simp only [Option.map_map, Function.comp_def, List.cons_append, List.append_assoc]

/-- A scan that is inside a list never ends where every closing parenthesis has its partner. -/
private theorem Open.splitFrom?_eq_none {outline : Outline} (isOpen : outline.Open) {depth : Int}
    (inside : 0 < depth) :
    Arguments.splitFrom? Bracket.ofChar depth true outline.text = none := by
  induction outline generalizing depth with
  | nil => rfl
  | char c rest ih =>
    have upward : 0 ≤ (Bracket.ofChar c).weight := by
      unfold Bracket.ofChar
      rw [if_neg isOpen.1]
      split_ifs <;> decide
    rw [text_char, Arguments.splitFrom?_cons_of_ne_zero (by omega), ih isOpen.2 (by omega),
      Option.map_none]
  | group inner rest _ ih =>
    have paired : (group inner nil).Balanced := ⟨isOpen.1, trivial⟩
    have parts : (group inner rest).text = (group inner nil).text ++ rest.text := by
      rw [← text_append]
      rfl
    rw [parts, paired.splitFrom?_append inside, ih isOpen.2 inside, Option.map_none]

/-- The scan finds the list that a group describes. -/
theorem split?_group {inner : Outline} (balanced : inner.Balanced) (rest : Outline) :
    Arguments.split? (group inner rest).text = some (inner.list, rest.text) := by
  have scan := balanced.splitFrom?_append Int.one_pos (')' :: rest.text)
  have last : Arguments.splitFrom? Bracket.ofChar 1 true (')' :: rest.text) =
      some ([')'], rest.text) := rfl
  rw [last] at scan
  change (Arguments.splitFrom? Bracket.ofChar 1 true (inner.text ++ ')' :: rest.text)).map
    (fun parts => ('(' :: parts.1, parts.2)) = _
  rw [scan]
  rfl

/-- The scan finds no end of a list that opens with a loose parenthesis. -/
theorem split?_char {rest : Outline} (isOpen : rest.Open) :
    Arguments.split? (char '(' rest).text = none := by
  change (Arguments.splitFrom? Bracket.ofChar 1 true rest.text).map
    (fun parts => ('(' :: parts.1, parts.2)) = _
  rw [isOpen.splitFrom?_eq_none (by decide), Option.map_none]

end Outline

end PluginScript
