import PluginScript.Proofs.ClosedCalls
import Mathlib.Data.List.Infix

/-! # Calls at every occurrence

A pass goes on behind the whole pattern when no list follows an occurrence of it, so an occurrence
that begins inside another one is not looked at. Patterns of words reach into each other exactly if
the method ends with a beginning of the global, as for `foo:foo`. For all other rules the search
finds every occurrence (`mem_search_iff`), and a script that closes its calls is served at every
occurrence once it is prepared. For those it need not be (`served_prepare_iff_separate`).
-/

namespace PluginScript

/-- An empty list is not marked. -/
private theorem Arguments.isMarked_empty (method : Text) : isMarked ['(', ')'] method = false := by
  by_contra marked
  rw [Bool.not_eq_false, ← List.singleton_append, isMarked_iff] at marked
  obtain ⟨front, separator, gap, quote, blanks, whole, -⟩ := marked
  have size := congrArg List.length whole
  simp only [List.length_append, List.length_cons, List.length_nil] at size
  omega

namespace CallRule

/-- No occurrence of the pattern begins inside another one: the method does not end with a beginning
of the global. -/
def Separate (rule : CallRule) : Prop :=
  ∀ overlap, overlap <+: rule.global → overlap <:+ rule.method → overlap = []

instance (rule : CallRule) : Decidable rule.Separate :=
  decidable_of_iff (∀ overlap ∈ rule.method.tails, overlap <+: rule.global → overlap = [])
    (forall_congr' fun overlap => by rw [List.mem_tails]; exact forall_comm)

/-- Every call in a text is closed and marked, also where an occurrence of the pattern begins inside
another one. -/
def Served (rule : CallRule) (text : Text) : Prop :=
  ∀ front behind, text = front ++ (rule.pattern ++ behind) →
    ∀ site ∈ CallSite.behind? text.length behind,
      site.closed = true ∧ Arguments.isMarked site.list rule.method = true

/-- The search finds nothing but occurrences. -/
theorem exists_of_mem_search {rule : CallRule} {behind text : Text}
    (member : behind ∈ rule.search text) : ∃ front, text = front ++ (rule.pattern ++ behind) := by
  induction text using search.induct rule with
  | case1 => rw [search_nil] at member; contradiction
  | case2 c tail absent ih =>
    rw [search_cons absent] at member
    obtain ⟨front, rfl⟩ := ih member
    exact ⟨c :: front, rfl⟩
  | case3 c tail rest found ih =>
    rw [search_of_isPrefixOf? found, List.mem_cons] at member
    rw [Text.eq_append_of_isPrefixOf? found]
    rcases member with rfl | member
    · exact ⟨[], rfl⟩
    · obtain ⟨front, rfl⟩ := ih member
      exact ⟨rule.pattern ++ front, by rw [List.append_assoc]⟩

section Named

variable {rule : CallRule} (named : rule.Named)
include named

/-- In a beginning of the pattern only the global stands in front of a colon. -/
private theorem Named.eq_global_of_prefix_pattern {gap rest : Text}
    (begins : gap ++ ':' :: rest <+: rule.pattern) : gap = rule.global := by
  obtain ⟨behind, whole⟩ := begins
  rw [List.append_assoc, List.cons_append, eq_comm, pattern,
    List.append_cons_inj_of_notMem named.colon_not_mem_global named.colon_not_mem_method] at whole
  exact whole.1.symm

omit named in
/-- A beginning of the pattern that has no colon is a beginning of the global. -/
private theorem prefix_global_of_prefix_pattern {text : Text} (noColon : ':' ∉ text)
    (begins : text <+: rule.pattern) : text <+: rule.global := by
  obtain ⟨rest, whole⟩ := begins
  rcases List.append_eq_append_iff.mp whole with ⟨gap, global, -⟩ | ⟨gap, rfl, behind⟩
  · exact ⟨gap, global.symm⟩
  · cases gap with
    | nil => rw [List.append_nil]
    | cons c gap =>
      rw [(List.cons.inj behind).1] at noColon
      exact absurd (List.mem_append_right _ List.mem_cons_self) noColon

/-- What a separate pattern both ends and begins with is nothing, or the whole pattern. -/
private theorem Named.eq_nil_or_eq_nil_of_overlap (separate : rule.Separate) {front overlap : Text}
    (ends : rule.pattern = front ++ overlap) (begins : overlap <+: rule.pattern) :
    front = [] ∨ overlap = [] := by
  rcases List.append_eq_append_iff.mp ends with ⟨gap, rfl, method⟩ | ⟨gap, global, rfl⟩
  · cases gap with
    | nil =>
      rw [← show [] ++ ':' :: rule.method = overlap from method] at begins
      exact .inl (by rw [← named.eq_global_of_prefix_pattern begins, List.append_nil])
    | cons c gap =>
      have suffix : overlap <:+ rule.method := ⟨gap, (List.cons.inj method).2.symm⟩
      have noColon : ':' ∉ overlap := fun member =>
        named.colon_not_mem_method (suffix.subset member)
      exact .inr (separate overlap (prefix_global_of_prefix_pattern noColon begins) suffix)
  · rw [named.eq_global_of_prefix_pattern begins] at global
    exact .inl (List.append_left_eq_self.mp global.symm)

/-- The search for a separate pattern finds every occurrence. -/
theorem mem_search_iff (separate : rule.Separate) {behind text : Text} :
    behind ∈ rule.search text ↔ ∃ front, text = front ++ (rule.pattern ++ behind) := by
  refine ⟨exists_of_mem_search, ?_⟩
  rintro ⟨front, whole⟩
  induction text using search.induct rule generalizing front with
  | case1 =>
    have size := congrArg List.length whole
    have positive := rule.length_pattern_pos
    simp only [List.length_append, List.length_nil] at size
    omega
  | case2 c tail absent ih =>
    rw [search_cons absent]
    cases front with
    | nil =>
      rw [whole, List.nil_append, Text.isPrefixOf?_append] at absent
      contradiction
    | cons d front => exact ih front (List.cons.inj whole).2
  | case3 c tail rest found ih =>
    rw [search_of_isPrefixOf? found, List.mem_cons]
    rw [Text.eq_append_of_isPrefixOf? found] at whole
    rcases List.append_eq_append_iff.mp whole with ⟨gap, rfl, apart⟩ | ⟨overlap, ends, inside⟩
    · exact .inr (ih gap apart)
    · have begins : overlap <+: rule.pattern := by
        apply List.prefix_of_prefix_length_le ⟨rest, inside.symm⟩ (List.prefix_append _ behind)
        rw [ends, List.length_append]
        omega
      rcases named.eq_nil_or_eq_nil_of_overlap separate ends begins with rfl | rfl
      · rw [ends, List.nil_append] at inside
        exact .inl (List.append_cancel_left inside)
      · exact .inr (ih [] inside.symm)

/-- A prepared script is served at every occurrence of a separate pattern, if the script closes its
calls. -/
theorem served_prepare (separate : rule.Separate) {rules : List CallRule}
    (rulesNamed : ∀ other ∈ rules, other.Named) (member : rule ∈ rules) {script : Text}
    (closed : ∀ site ∈ rule.sites script, site.closed = true) :
    rule.Served (prepare rules script) := by
  have allClosed := (closed_sites_prepare_iff rulesNamed named script).mpr closed
  have allReached : rule.reached (prepare rules script) = rule.sites (prepare rules script) :=
    List.takeWhile_eq_self_iff.mpr allClosed
  have marked := (Outline.settled_iff 0).mp (settled_prepare rulesNamed member script)
  rw [← reached_eq named, allReached] at marked
  intro front behind whole site found
  have inSites : site ∈ rule.sites (prepare rules script) :=
    List.mem_filterMap.mpr ⟨behind, (mem_search_iff named separate).mpr ⟨front, whole⟩, found⟩
  exact ⟨allClosed site inSites, marked site inSites⟩

/-- No list follows where a character of the pattern does. -/
private theorem Named.head?_dropWhile_ne {c : Char} (member : c ∈ rule.pattern) (rest : Text) :
    ((c :: rest).dropWhile Text.isBlank).head? ≠ some '(' := by
  have solid : ¬ Text.isBlank c = true := fun blank =>
    named.not_mem_pattern_of_isBlank blank member
  rw [List.dropWhile_cons_of_neg solid, List.head?_cons]
  intro opening
  rw [Option.some.inj opening] at member
  exact named.not_mem_pattern (by decide) (by decide) member

omit named in
/-- Only the first occurrence is found where the pattern is not part of what follows it. -/
private theorem search_pattern_append_of_absent {behind : Text}
    (absent : ¬ rule.pattern <:+: behind) : rule.search (rule.pattern ++ behind) = [behind] := by
  rw [search_pattern_append, List.cons.injEq, List.eq_nil_iff_forall_not_mem]
  refine ⟨rfl, fun rest member => ?_⟩
  obtain ⟨front, whole⟩ := exists_of_mem_search member
  exact absent ⟨front, rest, by rw [whole, List.append_assoc]⟩

/-! What is left of an empty call, if the pattern in front of it has its beginning already. -/

section Remnant

variable {overlap later : Text} (global : overlap ++ later = rule.global)
include global

private theorem head?_remnant_ne :
    ((later ++ ':' :: (rule.method ++ ['(', ')'])).dropWhile Text.isBlank).head? ≠ some '(' := by
  cases later with
  | nil => exact named.head?_dropWhile_ne (List.mem_append_right _ List.mem_cons_self) _
  | cons c later =>
    apply named.head?_dropWhile_ne
    rw [pattern, ← global]
    simp

/-- The remnant of a call is too short for one of its own. -/
private theorem not_infix_remnant (solid : overlap ≠ []) :
    ¬ rule.pattern <:+: later ++ ':' :: (rule.method ++ ['(', ')']) := by
  have shorter : later.length < rule.global.length := by
    have positive := List.length_pos_iff.mpr solid
    rw [← global, List.length_append]
    omega
  have noColon : ':' ∉ later := fun member =>
    named.colon_not_mem_global (global ▸ List.mem_append_right overlap member)
  rintro ⟨front, rest, whole⟩
  rw [pattern, ← List.append_assoc, List.append_assoc _ _ rest, List.cons_append, eq_comm,
    List.append_cons_inj_of_notMem noColon (by simp [named.colon_not_mem_method])] at whole
  rw [whole.1, List.length_append] at shorter
  omega

omit named in
/-- If the method ends with the overlap, an empty call begins inside the pattern. -/
private theorem pattern_append_remnant {earlier : Text}
    (method : earlier ++ overlap = rule.method) :
    rule.pattern ++ (later ++ ':' :: (rule.method ++ ['(', ')'])) =
      rule.global ++ ':' :: earlier ++ (rule.pattern ++ ['(', ')']) := by
  have first : rule.pattern = rule.global ++ ':' :: earlier ++ overlap := by
    rw [pattern, ← method, List.append_assoc, List.cons_append]
  have second : overlap ++ (later ++ ':' :: (rule.method ++ ['(', ')'])) =
      rule.pattern ++ ['(', ')'] := by
    rw [pattern, ← List.append_assoc, global, List.append_assoc, List.cons_append]
  calc rule.pattern ++ (later ++ ':' :: (rule.method ++ ['(', ')']))
      = rule.global ++ ':' :: earlier ++
          (overlap ++ (later ++ ':' :: (rule.method ++ ['(', ')']))) := by
        rw [first, List.append_assoc (rule.global ++ _)]
    _ = rule.global ++ ':' :: earlier ++ (rule.pattern ++ ['(', ')']) := by rw [second]

end Remnant

/-- If the pattern begins inside itself, there is a script whose only call begins inside an
occurrence that is none, so that a pass does not see it. -/
theorem exists_not_served (touching : ¬ rule.Separate) :
    ∃ script, (∀ site ∈ rule.sites script, site.closed = true) ∧
      ¬ rule.Served (rule.pass script) := by
  simp only [Separate, not_forall] at touching
  obtain ⟨overlap, ⟨later, global⟩, ⟨earlier, method⟩, solid⟩ := touching
  have mention := head?_remnant_ne named global
  have absent := not_infix_remnant named global solid
  refine ⟨rule.pattern ++ (later ++ ':' :: (rule.method ++ ['(', ')'])), ?_, ?_⟩
  · rw [sites, search_pattern_append_of_absent absent,
      List.filterMap_cons_none (CallSite.behind?_of_mention mention _)]
    exact fun site member => (List.not_mem_nil member).elim
  · intro served
    rw [← Text.occursIn_iff, Bool.not_eq_true] at absent
    rw [pass_of_read_mention (read_mention mention), pass_of_not_occurs absent] at served
    have marked := (served _ _ (pattern_append_remnant global method) ⟨_, ['(', ')'], true⟩ rfl).2
    rw [Arguments.isMarked_empty] at marked
    contradiction

end Named

/-- Scripts that close their calls are served at every occurrence once they are prepared if and only
if no occurrence of the pattern begins inside another one. -/
theorem served_prepare_iff_separate {rule : CallRule} (named : rule.Named) :
    (∀ rules : List CallRule, (∀ other ∈ rules, other.Named) → rule ∈ rules →
      ∀ script, (∀ site ∈ rule.sites script, site.closed = true) →
        rule.Served (prepare rules script)) ↔ rule.Separate := by
  constructor
  · intro served
    by_contra touching
    obtain ⟨script, closed, unserved⟩ := exists_not_served named touching
    exact unserved (served [rule] (by simpa using named) List.mem_cons_self script closed)
  · intro separate rules rulesNamed member script closed
    exact served_prepare named separate rulesNamed member closed

/-- The occurrences of two patterns may well reach into each other. -/
theorem served_prepare_chain :
    Named ⟨"foo".toList, "bar".toList⟩ ∧ Separate ⟨"foo".toList, "bar".toList⟩ ∧
      Served ⟨"foo".toList, "bar".toList⟩
        (prepare [⟨"foo".toList, "bar".toList⟩, ⟨"bar".toList, "baz".toList⟩]
          "foo:bar:baz(foo:bar (1)) foo:bars() foo:bar()".toList) := by
  have named : Named ⟨"foo".toList, "bar".toList⟩ := by decide
  have separate : Separate ⟨"foo".toList, "bar".toList⟩ := by decide
  refine ⟨named, separate, (served_prepare_iff_separate named).mpr separate _ (by decide)
    List.mem_cons_self _ ?_⟩
  decide +kernel

/-- The call begins inside an occurrence that is none. -/
theorem not_served_prepare_overlap :
    Named ⟨"foo".toList, "foo".toList⟩ ∧
      (∀ site ∈ sites ⟨"foo".toList, "foo".toList⟩ "foo:foo:foo(1)".toList,
        site.closed = true) ∧
      ¬ Served ⟨"foo".toList, "foo".toList⟩
        (prepare [⟨"foo".toList, "foo".toList⟩] "foo:foo:foo(1)".toList) := by
  refine ⟨by decide, by decide +kernel, ?_⟩
  have unchanged : prepare [⟨"foo".toList, "foo".toList⟩] "foo:foo:foo(1)".toList =
      "foo:foo:foo(1)".toList := by
    decide +kernel
  rw [unchanged]
  intro served
  have marked := (served "foo:".toList "(1)".toList rfl ⟨11, "(1)".toList, true⟩ rfl).2
  exact absurd marked (by decide)

end CallRule

end PluginScript
