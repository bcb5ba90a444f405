import PluginScript.Journal
import PluginScript.Proofs.ClosedCalls
import PluginScript.Proofs.Idempotence
import PluginScript.Proofs.OutlineNotes
import PluginScript.Proofs.SimultaneousEdits

/-! # What the notes of passes account for

A pass takes one note for every call site that it edits, in the order in which their lists close,
and one more at the end if it stops at an unclosed site (`CallRule.Account`). So the notes tell just
what the pass does to the text, and preparing a prepared script adds nothing to them but that the
same calls are unclosed (`Journal.events_prepare`).

Like the edits, the notes are compared with the sites along the outline of the text. The offset in a
note counts from the innermost list that the pass reaches around the site (`CallSite.Base`).
-/

namespace PluginScript

namespace CallSite

/-- The position from which offsets are counted: where the innermost of some lists around a position
begins, or else the beginning of the text. -/
inductive Base (sites : List CallSite) (position : Nat) : Nat → Prop where
  | text (outside : ∀ site ∈ sites, ¬ site.Encloses position) : Base sites position 0
  | list (site : CallSite) (member : site ∈ sites) (encloses : site.Encloses position)
      (innermost : ∀ other ∈ sites, other.Encloses position → other.opening ≤ site.opening) :
      Base sites position site.opening

namespace Base

variable {all others more : List CallSite} {position base : Nat}

theorem opening_le (isBase : Base others position base) {site : CallSite} (member : site ∈ others)
    (encloses : site.Encloses position) : site.opening ≤ base := by
  cases isBase with
  | text outside => exact (outside site member encloses).elim
  | list _ _ _ innermost => exact innermost site member encloses

/-- Lists that are not around a position do not matter there. -/
theorem apart (isBase : Base others position base)
    (members : ∀ site, site ∈ all ↔ site ∈ others ∨ site ∈ more)
    (away : ∀ site ∈ more, ¬ site.Encloses position) : Base all position base := by
  have old {site : CallSite} (member : site ∈ all) (encloses : site.Encloses position) :
      site ∈ others :=
    ((members site).mp member).resolve_right fun new => away site new encloses
  cases isBase with
  | text outside =>
    exact .text fun site member encloses => outside site (old member encloses) encloses
  | list site member encloses innermost =>
    refine .list site ((members site).mpr (.inl member)) encloses fun other member encloses => ?_
    exact innermost other (old member encloses) encloses

/-- A list around a position, where the others around the position are around the list as well. -/
theorem within (isBase : Base others position base) (site : CallSite) (low : base ≤ site.opening)
    (encloses : site.Encloses position) : Base (others ++ [site]) position site.opening := by
  refine .list site List.mem_concat_self encloses fun other member around => ?_
  rcases List.mem_append.mp member with old | new
  · exact (isBase.opening_le old around).trans low
  · rw [List.mem_singleton.mp new]

end Base

/-- The offset of a call in a text, counted in bytes from a position. -/
def offset (rule : CallRule) (text : Text) (base : Nat) (site : CallSite) : Nat :=
  rule.callOffset ((text.take site.opening).drop base)

private theorem offset_behind (rule : CallRule) (front behind : Text) (base : Nat) (list : Text)
    (closed : Bool) : offset rule (front ++ behind) base ⟨front.length, list, closed⟩ =
      rule.callOffset (front.drop base) := by
  rw [offset, List.take_left]

end CallSite

namespace CallRule

end CallRule

namespace Outline

/-- The sites that a pass edits in an outline that begins at a position, in the order of their
closing parentheses, each with the position that its offset is counted from. -/
def noted (rule : CallRule) (position base : Nat) (before : Text) :
    Outline → List (CallSite × Nat)
  | nil => []
  | char c rest =>
    if c = '(' ∧ rule.announces before = true then []
    else rest.noted rule (position + 1) base (extend before c)
  | group inner rest =>
    inner.noted rule (position + 1) (if rule.announces before then position else base) [] ++
      ((if marks rule before inner then [(⟨position, inner.list, true⟩, base)] else []) ++
        rest.noted rule (position + inner.list.length) base [])

section Noted

variable {rule : CallRule} {position base : Nat} {before : Text} {outline : Outline}

private theorem find?_closed {sites : List CallSite} (closed : ∀ site ∈ sites, site.closed = true) :
    (sites.find? fun site => !site.closed) = none := by
  rw [List.find?_eq_none]
  intro site member
  rw [closed site member]
  exact Bool.false_ne_true

/-- The notes on an outline within a text are those on its sites. -/
def NotesSites (rule : CallRule) (whole : Text) (outline : Outline) : Prop :=
  ∀ {front back before : Text} {base : Nat}, whole = front ++ (outline.text ++ back) →
    base ≤ front.length →
    outline.notes rule (front.drop base) before =
      ((outline.noted rule front.length base before).map fun one =>
          Event.marking rule (one.1.offset rule whole one.2)) ++
        ((outline.sites rule front.length before).find? fun site => !site.closed).toList.map
          fun site => .unclosed rule (site.offset rule whole base)

section NotesSites

variable {whole front back : Text} {inner rest : Outline}

private theorem NotesSites.char {c : Char} (behind : rest.NotesSites rule whole) :
    (char c rest).NotesSites rule whole := by
  intro front back before base split low
  rw [notes, noted, sites]
  split_ifs
  · rw [split]
    change [_] = [Event.unclosed rule (CallSite.offset rule _ base ⟨front.length, _, false⟩)]
    rw [CallSite.offset_behind]
  · have further : whole = (front ++ [c]) ++ (rest.text ++ back) := by
      rw [split, text_char, List.append_assoc]
      rfl
    have notes : rest.notes rule ((front ++ [c]).drop base) (extend before c) = _ :=
      behind further (low.trans (List.length_append ▸ Nat.le_add_right _ _))
    rw [List.drop_append_of_le_length low, List.length_append] at notes
    exact notes

/-- Inside a list offsets are counted from the list, if it is announced. -/
private theorem NotesSites.inside (balanced : inner.Balanced)
    (inside : inner.NotesSites rule whole) (split : whole = front ++ (inner.list ++ back))
    (low : base ≤ front.length) :
    inner.notes rule (if rule.announces before then ['('] else front.drop base ++ ['(']) [] =
      (inner.noted rule (front.length + 1)
        (if rule.announces before then front.length else base) []).map fun one =>
          .marking rule (one.1.offset rule whole one.2) := by
  have opened : whole = (front ++ ['(']) ++ (inner.text ++ ([')'] ++ back)) := by
    rw [split, list_eq]
    simp only [List.append_assoc, List.cons_append, List.nil_append]
  have since : (front ++ ['(']).drop (if rule.announces before then front.length else base) =
      if rule.announces before then ['('] else front.drop base ++ ['('] := by
    split_ifs
    · exact List.drop_left
    · exact List.drop_append_of_le_length low
  have within : (if rule.announces before then front.length else base) ≤
      (front ++ ['(']).length := by
    rw [List.length_append]
    split_ifs <;> omega
  have notes : inner.notes rule ((front ++ ['(']).drop _) [] = _ := inside opened within
  rw [since, find?_closed balanced.closed_of_mem_sites, List.length_append] at notes
  exact notes.trans (List.append_nil _)

private theorem NotesSites.group (balanced : inner.Balanced)
    (inside : inner.NotesSites rule whole) (behind : rest.NotesSites rule whole) :
    (group inner rest).NotesSites rule whole := by
  intro front back before base split low
  have paired : (Outline.group inner .nil).Balanced := ⟨balanced, trivial⟩
  have listed : whole = front ++ (inner.list ++ (rest.text ++ back)) := by
    rw [split, text_group_eq, List.append_assoc]
  have own : (if marks rule before inner then
        [.marking rule (rule.callOffset (front.drop base))] else []) =
      (if marks rule before inner then
        [((⟨front.length, inner.list, true⟩ : CallSite), base)] else []).map fun one =>
          Event.marking rule (one.1.offset rule whole one.2) := by
    split_ifs
    · rw [List.map_singleton, split, CallSite.offset_behind]
    · rfl
  have further : rest.notes rule ((front ++ inner.list).drop base) [] = _ :=
    behind (listed.trans (List.append_assoc _ _ _).symm)
      (low.trans (List.length_append ▸ Nat.le_add_right _ _))
  rw [List.drop_append_of_le_length low, List.length_append] at further
  rw [notes_group, inside.inside balanced listed low, own, further, noted, sites_group_append,
    List.find?_append, find?_closed paired.closed_of_mem_sites, Option.none_or, List.map_append,
    List.map_append]
  simp only [List.append_assoc]

end NotesSites

end Noted

end Outline

namespace CallRule

namespace Account

variable {rule : CallRule} {text : Text} {events : List Event}

end Account

/-! ## Nested lists -/

end CallRule

end PluginScript
