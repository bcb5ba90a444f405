import PluginScript.Proofs.CallSites

/-! # A pass as simultaneous edits

A pass is described without its recursion by what it leaves of each character of the text. It edits
the call sites in front of the first unclosed one whose lists are not marked. At the closing
parenthesis of an edited site it inserts the quoted method, behind a comma unless the list is
blank; of a blank list nothing else remains between the parentheses. A double quote inside the
list of an edited site becomes a single one, be it a quote of the text or of an inserted literal; a
literal lies inside the lists that enclose its site, but not inside the list that it is inserted
in.

`pass_eq_flatMap_editAt` says that a pass is these edits, made at once. Its proof goes along the
outline: around a stretch of the text there are sites that only turn its quotes (`Frame`), and the
sites that the pass reaches within the stretch do the rest. Preparing a script is making the edits
of its rules, one rule after the other (`editsTo_iff`).
-/

namespace PluginScript

namespace CallSite

/-- The position of the closing parenthesis of a closed site. -/
def closing (site : CallSite) : Nat :=
  site.opening + (site.list.length - 1)

/-- Whether a position lies between the parentheses of a site. -/
def Encloses (site : CallSite) (position : Nat) : Prop :=
  site.opening < position ∧ position < site.closing

/-- Whether there are only blanks between the parentheses of a site. -/
def IsBlank (site : CallSite) : Prop :=
  (site.list.dropLast.drop 1).all Text.isBlank = true

instance (site : CallSite) (position : Nat) : Decidable (site.Encloses position) :=
  inferInstanceAs (Decidable (_ ∧ _))

instance (site : CallSite) : Decidable site.IsBlank :=
  inferInstanceAs (Decidable (_ = _))

end CallSite

namespace CallRule

/-- The call sites that a pass edits: those it reaches whose lists are not marked. -/
def edited (rule : CallRule) (text : Text) : List CallSite :=
  (rule.reached text).filter fun site => !Arguments.isMarked site.list rule.method

/-- What the edits at some sites leave of the character at a position. -/
def editAt (edits : List CallSite) (method : Text) (position : Nat) (c : Char) : Text :=
  let quote := if ∃ site ∈ edits, site.Encloses position then '\'' else '"'
  if ∃ site ∈ edits, site.IsBlank ∧ site.Encloses position then []
  else if c = '"' then [quote]
  else if ∃ site ∈ edits, site.closing = position then
    (if ∃ site ∈ edits, site.IsBlank ∧ site.closing = position then [] else [',', ' ']) ++
      quote :: (method ++ [quote, c])
  else [c]

/-- A text that begins at a position after the edits at some sites. -/
def editFrom (edits : List CallSite) (method : Text) (position : Nat) (text : Text) : Text :=
  (text.zipIdx position).flatMap fun (c, position) => editAt edits method position c

variable {edits : List CallSite} {method : Text} {position : Nat} {quoted : Bool}

theorem editFrom_cons (c : Char) (text : Text) :
    editFrom edits method position (c :: text) =
      editAt edits method position c ++ editFrom edits method (position + 1) text := by
  rw [editFrom, List.zipIdx_cons, List.flatMap_cons]
  rfl

theorem editFrom_append (first second : Text) :
    editFrom edits method position (first ++ second) =
      editFrom edits method position first ++
        editFrom edits method (position + first.length) second := by
  rw [editFrom, List.zipIdx_append, List.flatMap_append, Nat.add_comm position]
  rfl

/-- A text, with single quotes in place of double ones if it lies inside an edited list. -/
def quoteIf (quoted : Bool) (text : Text) : Text :=
  if quoted then Arguments.singleQuoted text else text

theorem quoteIf_append (quoted : Bool) (first second : Text) :
    quoteIf quoted (first ++ second) = quoteIf quoted first ++ quoteIf quoted second := by
  unfold quoteIf
  split_ifs
  · apply Arguments.singleQuoted_append
  · rfl

theorem quoteIf_cons (quoted : Bool) (c : Char) (text : Text) :
    quoteIf quoted (c :: text) = quoteIf quoted [c] ++ quoteIf quoted text :=
  quoteIf_append quoted [c] text

theorem quoteIf_singleQuoted (quoted : Bool) (text : Text) :
    quoteIf quoted (Arguments.singleQuoted text) = Arguments.singleQuoted text := by
  unfold quoteIf
  split_ifs
  · apply Arguments.singleQuoted_singleQuoted
  · rfl

/-! ## Sites around a stretch of the text -/

/-- All that some sites do to the positions from `start` to `stop` is to turn quotes, if the stretch
lies inside one of their lists. -/
structure Frame (others : List CallSite) (quoted : Bool) (start stop : Nat) : Prop where
  encloses : ∀ position, start ≤ position → position < stop →
    ((∃ site ∈ others, site.Encloses position) ↔ quoted = true)
  filled : ∀ position, start ≤ position → position < stop →
    ¬ ∃ site ∈ others, site.IsBlank ∧ site.Encloses position
  silent : ∀ position, start ≤ position → position < stop →
    ¬ ∃ site ∈ others, site.closing = position

namespace Frame

variable {others more : List CallSite} {start stop : Nat}

/-- Without other sites nothing is turned. -/
theorem nil (start stop : Nat) : Frame [] false start stop := by
  constructor
  case encloses =>
    intro position _ _
    exact iff_of_false (fun ⟨_, member, _⟩ => List.not_mem_nil member) Bool.false_ne_true
  case filled =>
    rintro position _ _ ⟨_, member, _⟩
    exact List.not_mem_nil member
  case silent =>
    rintro position _ _ ⟨_, member, _⟩
    exact List.not_mem_nil member

theorem mono (frame : Frame others quoted start stop) {start' stop' : Nat} (low : start ≤ start')
    (high : stop' ≤ stop) : Frame others quoted start' stop' where
  encloses position lower upper := frame.encloses position (by omega) (by omega)
  filled position lower upper := frame.filled position (by omega) (by omega)
  silent position lower upper := frame.silent position (by omega) (by omega)

/-- Sites whose lists end in front of a stretch or open behind it do nothing to it. -/
theorem apart (frame : Frame others quoted start stop)
    (members : ∀ site, site ∈ edits ↔ site ∈ others ∨ site ∈ more)
    (away : ∀ site ∈ more, site.closing < start ∨
      (stop ≤ site.opening + 1 ∧ stop ≤ site.closing)) :
    Frame edits quoted start stop := by
  constructor
  case encloses =>
    intro position lower upper
    rw [← frame.encloses position lower upper]
    constructor
    · rintro ⟨site, member, low, high⟩
      rcases (members site).mp member with other | new
      · exact ⟨site, other, low, high⟩
      · have := away site new
        omega
    · rintro ⟨site, member, encloses⟩
      exact ⟨site, (members site).mpr (.inl member), encloses⟩
  case filled =>
    rintro position lower upper ⟨site, member, blank, low, high⟩
    rcases (members site).mp member with other | new
    · exact frame.filled position lower upper ⟨site, other, blank, low, high⟩
    · have := away site new
      omega
  case silent =>
    rintro position lower upper ⟨site, member, closing⟩
    rcases (members site).mp member with other | new
    · exact frame.silent position lower upper ⟨site, other, closing⟩
    · have := away site new
      omega

/-- A list that is not blank turns the quotes of a stretch that it encloses. -/
theorem cons_around (frame : Frame others quoted start stop) {site : CallSite}
    (filled : ¬ site.IsBlank) (low : site.opening < start) (high : stop ≤ site.closing) :
    Frame (site :: others) true start stop := by
  constructor
  case encloses =>
    intro position lower upper
    exact iff_of_true ⟨site, List.mem_cons_self, by omega, by omega⟩ rfl
  case filled =>
    rintro position lower upper ⟨other, member, blank, encloses⟩
    rcases List.mem_cons.mp member with rfl | old
    · exact filled blank
    · exact frame.filled position lower upper ⟨other, old, blank, encloses⟩
  case silent =>
    rintro position lower upper ⟨other, member, closing⟩
    rcases List.mem_cons.mp member with rfl | old
    · omega
    · exact frame.silent position lower upper ⟨other, old, closing⟩

end Frame

theorem editAt_of_frame (frame : Frame edits quoted position (position + 1)) (c : Char) :
    editAt edits method position c = quoteIf quoted [c] := by
  have here := Nat.lt_succ_self position
  have encloses := frame.encloses position (Nat.le_refl _) here
  simp only [editAt, frame.filled position (Nat.le_refl _) here,
    frame.silent position (Nat.le_refl _) here, if_false, encloses, quoteIf,
    Arguments.singleQuoted_cons, Arguments.singleQuote]
  by_cases double : c = '"' <;> cases quoted <;> simp [double, Arguments.singleQuoted]

/-- Without a site of its own a stretch is left as it is, up to the quotes. -/
theorem editFrom_of_frame {text : Text}
    (frame : Frame edits quoted position (position + text.length)) :
    editFrom edits method position text = quoteIf quoted text := by
  induction text generalizing position with
  | nil => cases quoted <;> rfl
  | cons c rest ih =>
    rw [List.length_cons] at frame
    rw [editFrom_cons, quoteIf_cons, editAt_of_frame (frame.mono (Nat.le_refl _) (by omega)),
      ih (frame.mono (by omega) (by omega))]

/-- Nothing remains of what stands in a blank list. -/
private theorem editFrom_of_blank {site : CallSite} (member : site ∈ edits) (blank : site.IsBlank)
    {text : Text} (low : site.opening < position) (high : position + text.length ≤ site.closing) :
    editFrom edits method position text = [] := by
  induction text generalizing position with
  | nil => rfl
  | cons c rest ih =>
    rw [List.length_cons] at high
    have here : ∃ site ∈ edits, site.IsBlank ∧ site.Encloses position :=
      ⟨site, member, blank, low, by omega⟩
    rw [editFrom_cons, ih (by omega) (by omega), editAt, if_pos here]
    rfl

/-- At the closing parenthesis of a site the literal goes in. -/
private theorem editAt_closing {site : CallSite} {others : List CallSite}
    (members : ∀ other, other ∈ edits ↔ other = site ∨ other ∈ others)
    (frame : Frame others quoted site.closing (site.closing + 1)) (word : method.isWord = true) :
    editAt edits method site.closing ')' = quoteIf quoted
      ((if site.IsBlank then [] else [',', ' ']) ++ '"' :: (method ++ ['"', ')'])) := by
  have here := Nat.lt_succ_self site.closing
  have encloses : (∃ other ∈ edits, other.Encloses site.closing) ↔ quoted = true := by
    rw [← frame.encloses _ (Nat.le_refl _) here]
    simp [members, CallSite.Encloses]
  have filled : ¬ ∃ other ∈ edits, other.IsBlank ∧ other.Encloses site.closing := by
    have := frame.filled _ (Nat.le_refl _) here
    simpa [members, CallSite.Encloses] using this
  have closes : ∃ other ∈ edits, other.closing = site.closing :=
    ⟨site, (members site).mpr (.inl rfl), rfl⟩
  have blank : (∃ other ∈ edits, other.IsBlank ∧ other.closing = site.closing) ↔ site.IsBlank := by
    have silent := frame.silent _ (Nat.le_refl _) here
    constructor
    · rintro ⟨other, member, blank, closing⟩
      rcases (members other).mp member with rfl | apart
      · exact blank
      · exact (silent ⟨other, apart, closing⟩).elim
    · exact fun blank => ⟨site, (members site).mpr (.inl rfl), blank, rfl⟩
  rw [editAt, if_neg filled, if_neg (by decide), if_pos closes]
  simp only [encloses, blank]
  cases quoted
  · rfl
  · have separator : Arguments.singleQuoted (if site.IsBlank then [] else [',', ' ']) =
        if site.IsBlank then [] else [',', ' '] := by
      split_ifs <;> rfl
    rw [if_pos rfl, quoteIf, if_pos rfl, Arguments.singleQuoted_append, separator,
      Arguments.singleQuoted_cons, Arguments.singleQuoted_append,
      Arguments.singleQuoted_of_isWord word]
    rfl

end CallRule

namespace Outline

open CallRule

/-- The sites that a pass edits in an outline that begins at a position, behind the text `before`
since the last parenthesis. -/
def edited (rule : CallRule) (position : Nat) (before : Text) (outline : Outline) :
    List CallSite :=
  (outline.reached rule position before).filter fun site =>
    !Arguments.isMarked site.list rule.method

section Edited

variable {rule : CallRule} {position : Nat} {before : Text} {inner rest outline : Outline}

theorem edited_list : (group inner nil).edited rule position before =
    (if marks rule before inner then [⟨position, inner.list, true⟩] else []) ++
      inner.edited rule (position + 1) [] := by
  have behind : nil.reached rule (position + inner.list.length) [] = [] := rfl
  rw [edited, reached_group, behind, List.append_nil, List.filter_append, marks]
  congr 1
  cases rule.announces before <;> cases marked : Arguments.isMarked inner.list rule.method <;>
    simp [marked]

theorem edited_group : (group inner rest).edited rule position before =
    (group inner nil).edited rule position before ++
      rest.edited rule (position + inner.list.length) [] := by
  rw [edited, reached_group_append, List.filter_append, edited, edited]

/-- A pass reaches lists between the first and the last character of an outline. -/
theorem bounds_of_mem_reached {site : CallSite}
    (member : site ∈ outline.reached rule position before) :
    position ≤ site.opening ∧ site.opening < site.closing ∧
      site.closing < position + outline.text.length := by
  induction outline generalizing position before with
  | nil => exact (List.not_mem_nil member).elim
  | char c rest ih =>
    rw [reached] at member
    split_ifs at member
    · exact (List.not_mem_nil member).elim
    · have := ih member
      rw [text_char, List.length_cons]
      omega
  | group inner rest ihInner ih =>
    have size := inner.length_list
    rw [text_group_eq, List.length_append]
    rw [reached_group, List.mem_append, List.mem_append] at member
    rcases member with own | inside | behind
    · split_ifs at own
      · rw [List.mem_singleton.mp own, CallSite.closing]
        dsimp only
        omega
      · exact (List.not_mem_nil own).elim
    · have := ihInner inside
      omega
    · have := ih behind
      omega

theorem bounds_of_mem_edited {site : CallSite}
    (member : site ∈ outline.edited rule position before) :
    position ≤ site.opening ∧ site.opening < site.closing ∧
      site.closing < position + outline.text.length :=
  bounds_of_mem_reached (List.mem_filter.mp member).1

end Edited

/-- The edits of a pass within a text, whatever surrounds it, leave what the pass leaves. -/
def PassEdits (rule : CallRule) (before : Text) (outline : Outline) : Prop :=
  ∀ (edits others : List CallSite) (quoted : Bool) (position : Nat),
    (∀ site, site ∈ edits ↔ site ∈ others ∨ site ∈ outline.edited rule position before) →
    Frame others quoted position (position + outline.text.length) →
    editFrom edits rule.method position outline.text =
      quoteIf quoted (outline.pass rule before).text

section PassEdits

variable {rule : CallRule} {before : Text} {inner rest : Outline} {edits others : List CallSite}
  {quoted : Bool} {position : Nat}

theorem PassEdits.char {c : Char} (ih : rest.PassEdits rule (extend before c)) :
    (char c rest).PassEdits rule before := by
  intro edits others quoted position members frame
  rw [text_char, List.length_cons] at frame
  rw [edited, reached] at members
  rw [pass]
  split_ifs at members ⊢
  · rw [List.filter_nil] at members
    exact editFrom_of_frame (frame.apart members fun _ member => (List.not_mem_nil member).elim)
  · have here : Frame edits quoted position (position + 1) := by
      refine (frame.mono (Nat.le_refl _) (by omega)).apart members ?_
      intro site member
      have := bounds_of_mem_edited member
      omega
    rw [text_char, text_char, editFrom_cons, quoteIf_cons, editAt_of_frame here,
      ih edits others quoted (position + 1) members (frame.mono (by omega) (by omega))]

/-- A list that is not marked keeps its parentheses. -/
private theorem PassEdits.editFrom_list (ih : inner.PassEdits rule [])
    (members : ∀ site, site ∈ edits ↔
      site ∈ others ∨ site ∈ inner.edited rule (position + 1) [])
    (frame : Frame others quoted position (position + inner.list.length)) :
    editFrom edits rule.method position inner.list = quoteIf quoted (inner.pass rule []).list := by
  rw [length_list] at frame
  have opening : Frame edits quoted position (position + 1) := by
    refine (frame.mono (Nat.le_refl _) (by omega)).apart members ?_
    intro site member
    have := bounds_of_mem_edited member
    omega
  have closing : Frame edits quoted (position + 1 + inner.text.length)
      (position + 1 + inner.text.length + 1) := by
    refine (frame.mono (by omega) (by omega)).apart members ?_
    intro site member
    have := bounds_of_mem_edited member
    omega
  have inside := ih edits others quoted (position + 1) members (frame.mono (by omega) (by omega))
  rw [list_eq, list_eq, quoteIf_cons, quoteIf_append, editFrom_cons, editFrom_append,
    editAt_of_frame opening, inside, editFrom_of_frame closing]

section Marked

variable {site : CallSite} (own : site = ⟨position, inner.list, true⟩)
include own

private theorem closing_of_own : site.closing = position + 1 + inner.text.length := by
  rw [own, CallSite.closing, length_list]
  dsimp only
  omega

private theorem isBlank_of_own : site.IsBlank ↔ inner.text.all Text.isBlank = true := by
  rw [own, CallSite.IsBlank, list_eq_concat, List.dropLast_concat]
  rfl

variable (members : ∀ other, other ∈ edits ↔
    other = site ∨ other ∈ others ∨ other ∈ inner.edited rule (position + 1) [])
  (frame : Frame others quoted position (position + inner.list.length))
include members frame

private theorem editAt_opening_of_own :
    editAt edits rule.method position '(' = quoteIf quoted ['('] := by
  rw [length_list] at frame
  have opens : site.opening = position := by rw [own]
  have closes := closing_of_own own
  have members' (other : CallSite) : other ∈ edits ↔
      other ∈ others ∨ other ∈ site :: inner.edited rule (position + 1) [] := by
    rw [members, List.mem_cons, or_left_comm]
  apply editAt_of_frame
  refine (frame.mono (Nat.le_refl _) (by omega)).apart members' ?_
  refine List.forall_mem_cons.mpr ⟨by omega, fun other member => ?_⟩
  have := bounds_of_mem_edited member
  omega

/-- Nothing remains inside a blank list, and another one is edited with the quotes turned. -/
private theorem editFrom_inside_of_own (ih : inner.PassEdits rule []) :
    editFrom edits rule.method (position + 1) inner.text =
      if inner.text.all Text.isBlank = true then []
      else quoteIf true (inner.pass rule []).text := by
  rw [length_list] at frame
  have opens : site.opening = position := by rw [own]
  have closes := closing_of_own own
  split_ifs with empty
  · exact editFrom_of_blank ((members site).mpr (.inl rfl)) ((isBlank_of_own own).mpr empty)
      (by omega) (Nat.le_of_eq closes.symm)
  · have around : Frame (site :: others) true (position + 1) (position + 1 + inner.text.length) :=
      (frame.mono (by omega) (by omega)).cons_around
        (fun blank => empty ((isBlank_of_own own).mp blank)) (by omega)
        (Nat.le_of_eq closes.symm)
    exact ih edits (site :: others) true (position + 1)
      (fun other => by rw [members, List.mem_cons, or_assoc]) around

/-- The literal goes in at the closing parenthesis, behind a comma unless the list is blank. -/
private theorem editFrom_closing_of_own (named : rule.Named) :
    editFrom edits rule.method (position + 1 + inner.text.length) [')'] = quoteIf quoted
      ((if inner.text.all Text.isBlank = true then [] else [',', ' ']) ++
        '"' :: (rule.method ++ ['"', ')'])) := by
  rw [length_list] at frame
  have closes := closing_of_own own
  have closing : Frame (others ++ inner.edited rule (position + 1) []) quoted site.closing
      (site.closing + 1) := by
    refine (frame.mono (by omega) (by omega)).apart (fun _ => List.mem_append) ?_
    intro other member
    have := bounds_of_mem_edited member
    omega
  have literal := editAt_closing (fun other => (members other).trans (by rw [List.mem_append]))
    closing named.method
  simp only [isBlank_of_own own] at literal
  rw [editFrom_cons, ← closes, literal]
  exact List.append_nil _

end Marked

/-- A marked list keeps its parentheses too, with the literal in front of the second one. -/
private theorem PassEdits.editFrom_list_of_marks (named : rule.Named) (ih : inner.PassEdits rule [])
    {site : CallSite} (own : site = ⟨position, inner.list, true⟩)
    (members : ∀ other, other ∈ edits ↔
      other = site ∨ other ∈ others ∨ other ∈ inner.edited rule (position + 1) [])
    (frame : Frame others quoted position (position + inner.list.length)) :
    editFrom edits rule.method position inner.list =
      quoteIf quoted ((inner.pass rule []).mark rule.method).list := by
  rw [list_eq, list_eq, quoteIf_cons, editFrom_cons, editFrom_append,
    editAt_opening_of_own own members frame, editFrom_inside_of_own own members frame ih,
    editFrom_closing_of_own own members frame named, mark, all_isBlank_pass]
  split_ifs
  · rw [text_spell]
    simp only [List.nil_append, List.cons_append, List.append_assoc]
  · rw [text_append, text_singleQuoted, text_spell, List.append_assoc,
      quoteIf_append quoted (Arguments.singleQuoted _), quoteIf_singleQuoted]
    simp only [List.nil_append, List.cons_append, List.append_assoc]
    rfl

end PassEdits

/-- What a pass leaves of a stretch of a text: its own edits, inside the frame of the others. -/
theorem passEdits {rule : CallRule} (named : rule.Named) {before : Text} (outline : Outline) :
    outline.PassEdits rule before := by
  induction outline generalizing before with
  | nil => exact fun _ _ quoted _ _ _ => by cases quoted <;> rfl
  | char c rest ih => exact ih.char
  | group inner rest ihInner ih =>
    intro edits others quoted position members frame
    rw [text_group_eq, List.length_append, ← Nat.add_assoc] at frame
    have sites (site : CallSite) : site ∈ edits ↔ site ∈ others ∨
        site ∈ (group inner nil).edited rule position before ∨
          site ∈ rest.edited rule (position + inner.list.length) [] := by
      rw [members, edited_group, List.mem_append]
    have listFrame : Frame (others ++ rest.edited rule (position + inner.list.length) []) quoted
        position (position + inner.list.length) := by
      refine (frame.mono (by omega) (by omega)).apart (fun _ => List.mem_append) ?_
      intro site member
      have := bounds_of_mem_edited member
      omega
    have restFrame : Frame (others ++ (group inner nil).edited rule position before) quoted
        (position + inner.list.length) (position + inner.list.length + rest.text.length) := by
      refine (frame.mono (by omega) (by omega)).apart (fun _ => List.mem_append) ?_
      intro site member
      have := bounds_of_mem_edited member
      rw [text_group_eq, text_nil, List.append_nil] at this
      omega
    have list : editFrom edits rule.method position inner.list =
        quoteIf quoted (inner.passList rule before).list := by
      simp only [edited_list, List.mem_append] at sites
      unfold passList
      split_ifs at sites ⊢
      · apply ihInner.editFrom_list_of_marks named rfl _ listFrame
        intro site
        rw [sites, List.mem_singleton, List.mem_append]
        tauto
      · apply ihInner.editFrom_list _ listFrame
        intro site
        rw [sites, List.mem_append]
        tauto
    have behind : editFrom edits rule.method (position + inner.list.length) rest.text =
        quoteIf quoted (rest.pass rule []).text := by
      apply ih edits _ quoted _ _ restFrame
      intro site
      rw [sites, List.mem_append, or_assoc]
    rw [text_group_eq, editFrom_append, list, behind, pass_group, text_group_eq, quoteIf_append]

end Outline

namespace CallRule

theorem edited_eq {rule : CallRule} (named : rule.Named) (text : Text) :
    rule.edited text = (Outline.ofText text).edited rule 0 [] := by
  rw [edited, reached_eq named, Outline.edited]

/-- The edits at the sites that a pass edits leave what the pass leaves. -/
theorem editFrom_edited {rule : CallRule} (named : rule.Named) (text : Text) :
    editFrom (rule.edited text) rule.method 0 text = rule.pass text := by
  have members (site : CallSite) :
      site ∈ rule.edited text ↔ site ∈ [] ∨ site ∈ (Outline.ofText text).edited rule 0 [] := by
    rw [edited_eq named, or_iff_right List.not_mem_nil]
  have edits := Outline.passEdits named (Outline.ofText text) (rule.edited text) [] false 0 members
    (Frame.nil _ _)
  have passed := Outline.text_pass named (Outline.canonical_ofText text)
  rw [Outline.text_ofText] at passed edits
  rw [← passed]
  exact edits

/-- A pass leaves of every character what the edits at the call sites in front of the first unclosed
one leave of it, made at once. -/
theorem pass_eq_flatMap_editAt {rule : CallRule} (named : rule.Named) (text : Text) :
    rule.pass text = text.zipIdx.flatMap fun (c, position) =>
      editAt (rule.edited text) rule.method position c :=
  (editFrom_edited named text).symm

/-- A list in a list, a list of blanks, a marked list and an unclosed one. -/
theorem flatMap_editAt_nested :
    CallRule.Named ⟨"foo".toList, "bar".toList⟩ ∧
      ("foo:bar(\"a\", foo:bar( )) foo:bar(\"bar\") foo:bar(2".toList.zipIdx.flatMap
        fun (c, position) =>
          editAt (edited ⟨"foo".toList, "bar".toList⟩
              "foo:bar(\"a\", foo:bar( )) foo:bar(\"bar\") foo:bar(2".toList)
            "bar".toList position c) =
        "foo:bar('a', foo:bar('bar'), \"bar\") foo:bar(\"bar\") foo:bar(2".toList := by
  have named : CallRule.Named ⟨"foo".toList, "bar".toList⟩ := by decide
  refine ⟨named, (pass_eq_flatMap_editAt named _).symm.trans ?_⟩
  decide +kernel

/-! ## One rule after the other -/

/-- What rules make of a script: the edits of each rule are made in what the rules in front of it
have left. -/
inductive EditsTo : List CallRule → Text → Text → Prop where
  | nil (script : Text) : EditsTo [] script script
  | cons {rule : CallRule} {rules : List CallRule} {script output : Text}
      (others : EditsTo rules (editFrom (rule.edited script) rule.method 0 script) output) :
      EditsTo (rule :: rules) script output

/-- Preparing a script is making the edits of its rules. -/
theorem editsTo_iff {rules : List CallRule} (named : ∀ rule ∈ rules, rule.Named)
    {script output : Text} : EditsTo rules script output ↔ output = prepare rules script := by
  induction rules generalizing script with
  | nil =>
    constructor
    · intro edits
      cases edits
      rfl
    · rintro rfl
      exact .nil _
  | cons rule rules ih =>
    obtain ⟨ruleNamed, restNamed⟩ := List.forall_mem_cons.mp named
    rw [prepare_cons, ← ih restNamed, ← editFrom_edited ruleNamed]
    constructor
    · intro edits
      cases edits with
      | cons others => exact others
    · exact .cons

end CallRule

end PluginScript
