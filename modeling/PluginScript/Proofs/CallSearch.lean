import PluginScript.CallRule
import PluginScript.Proofs.Marking

/-! # The search for a pattern

A search for the pattern of a rule goes over a text from left to right and on behind every
occurrence that it finds, so the occurrences it finds do not overlap. `search` lists what stands
behind each of them.

A rule is named if its names are words. Its pattern then holds word characters and one colon, so
quotes, blanks and parentheses bound the search, and whether an opening parenthesis belongs to a
call is told by the text in front of it, back to the parenthesis before: that text `announces` a
call if the search finds an occurrence in it with nothing but blanks behind. Rules that see a call
at the same parenthesis have the same method (`method_eq_of_announces`).
-/

namespace PluginScript.CallRule

/-- A rule whose names are words. -/
structure Named (rule : CallRule) : Prop where
  global : rule.global.isWord = true
  method : rule.method.isWord = true

instance (rule : CallRule) : Decidable rule.Named :=
  decidable_of_iff (rule.global.isWord = true ∧ rule.method.isWord = true)
    ⟨fun words => ⟨words.1, words.2⟩, fun named => ⟨named.global, named.method⟩⟩

/-- The pattern of a named rule holds no characters but those of words and the colon. -/
theorem Named.not_mem_pattern {rule : CallRule} (named : rule.Named) {c : Char}
    (other : Text.isWordChar c = false) (notColon : c ≠ ':') : c ∉ rule.pattern := by
  intro member
  rcases List.mem_append.mp member with inGlobal | behind
  · exact Text.not_mem_of_isWord named.global other inGlobal
  · rcases List.mem_cons.mp behind with colon | inMethod
    · exact notColon colon
    · exact Text.not_mem_of_isWord named.method other inMethod

/-- The pattern of a named rule holds no blanks. -/
theorem Named.not_mem_pattern_of_isBlank {rule : CallRule} (named : rule.Named) {c : Char}
    (blank : Text.isBlank c = true) : c ∉ rule.pattern := by
  apply named.not_mem_pattern
  · by_contra word
    rw [Bool.not_eq_false] at word
    rw [Text.isBlank_of_isWordChar word] at blank
    exact Bool.false_ne_true blank
  · rintro rfl
    exact absurd blank (by decide)

theorem Named.colon_not_mem_global {rule : CallRule} (named : rule.Named) : ':' ∉ rule.global :=
  Text.not_mem_of_isWord named.global (by decide)

theorem Named.colon_not_mem_method {rule : CallRule} (named : rule.Named) : ':' ∉ rule.method :=
  Text.not_mem_of_isWord named.method (by decide)

/-- The pattern of a named rule is the pattern of no other rule, since its one colon tells where the
global ends. -/
theorem Named.eq_of_pattern_eq {rule other : CallRule} (named : rule.Named)
    (same : other.pattern = rule.pattern) : other = rule := by
  rw [eq_comm, pattern, pattern,
    List.append_cons_inj_of_notMem named.colon_not_mem_global named.colon_not_mem_method] at same
  obtain ⟨global, method⟩ := other
  obtain ⟨rfl, -, rfl⟩ := same
  rfl

/-! ## Where a pattern begins -/

/-- A pattern does not begin where a character stands that it does not hold. -/
theorem isPrefixOf?_cons_eq_none {rule : CallRule} {c : Char} (foreign : c ∉ rule.pattern)
    (rest : Text) : rule.pattern.isPrefixOf? (c :: rest) = none := by
  apply Option.eq_none_iff_forall_ne_some.mpr
  intro behind found
  have whole := Text.eq_append_of_isPrefixOf? found
  cases pattern : rule.pattern with
  | nil => exact absurd (congrArg List.length pattern) rule.length_pattern_pos.ne'
  | cons d front =>
    rw [pattern, List.cons_append, List.cons.injEq] at whole
    rw [pattern] at foreign
    exact foreign (whole.1 ▸ List.mem_cons_self)

/-- No call begins with a parenthesis. -/
theorem Named.isPrefixOf?_opening {rule : CallRule} (named : rule.Named) (rest : Text) :
    rule.pattern.isPrefixOf? ('(' :: rest) = none :=
  isPrefixOf?_cons_eq_none (named.not_mem_pattern (by decide) (by decide)) rest

/-- A pattern does not reach over a character that it does not hold. -/
theorem isPrefixOf?_append_cons {pattern : Text} {c : Char} (foreign : c ∉ pattern)
    (front rest : Text) :
    pattern.isPrefixOf? (front ++ c :: rest) =
      (pattern.isPrefixOf? front).map fun behind => behind ++ c :: rest := by
  induction pattern generalizing front with
  | nil => cases front <;> rfl
  | cons d pattern ih =>
    rw [List.mem_cons, not_or] at foreign
    cases front with
    | nil =>
      change (if d == c then pattern.isPrefixOf? rest else none) = none
      rw [if_neg (by simpa using Ne.symm foreign.1)]
    | cons e front =>
      change (if d == e then pattern.isPrefixOf? (front ++ c :: rest) else none) =
        (if d == e then pattern.isPrefixOf? front else none).map _
      rw [ih foreign.2]
      split <;> rfl

/-- Where a pattern does not begin in a text, it does not in the front of the text. -/
theorem isPrefixOf?_eq_none_of_append {pattern front rest : Text}
    (absent : pattern.isPrefixOf? (front ++ rest) = none) : pattern.isPrefixOf? front = none := by
  apply Option.eq_none_iff_forall_ne_some.mpr
  intro behind found
  rw [Text.eq_append_of_isPrefixOf? found, List.append_assoc, Text.isPrefixOf?_append] at absent
  contradiction

/-- Quotes of either kind bound a pattern that holds none. -/
private theorem isPrefixOf?_singleQuoted {pattern : Text} (noDouble : '"' ∉ pattern)
    (noSingle : '\'' ∉ pattern) (text : Text) :
    pattern.isPrefixOf? (Arguments.singleQuoted text) =
      (pattern.isPrefixOf? text).map Arguments.singleQuoted := by
  induction pattern generalizing text with
  | nil => rfl
  | cons c pattern ih =>
    rw [List.mem_cons, not_or] at noDouble noSingle
    cases text with
    | nil => rfl
    | cons d text =>
      change (if c == Arguments.singleQuote d then
          pattern.isPrefixOf? (Arguments.singleQuoted text) else none) =
        (if c == d then pattern.isPrefixOf? text else none).map Arguments.singleQuoted
      by_cases double : d = '"'
      · subst double
        rw [if_neg (by simpa [Arguments.singleQuote] using Ne.symm noSingle.1),
          if_neg (by simpa using Ne.symm noDouble.1), Option.map_none]
      · rw [Arguments.singleQuote_of_ne double, ih noDouble.2 noSingle.2]
        split <;> rfl

/-! ## The search -/

/-- What stands behind each occurrence of the pattern that a search from left to right finds. -/
def search (rule : CallRule) (text : Text) : List Text :=
  match text with
  | [] => []
  | c :: tail =>
    match _found : rule.pattern.isPrefixOf? (c :: tail) with
    | none => search rule tail
    | some behind => behind :: search rule behind
termination_by text.length
decreasing_by
  · exact Nat.lt_succ_self _
  · have whole := congrArg List.length (Text.eq_append_of_isPrefixOf? ‹_›)
    have positive := rule.length_pattern_pos
    rw [List.length_append] at whole
    omega

@[simp] theorem search_nil (rule : CallRule) : rule.search [] = [] := by
  rw [search]

theorem search_cons {rule : CallRule} {c : Char} {tail : Text}
    (absent : rule.pattern.isPrefixOf? (c :: tail) = none) :
    rule.search (c :: tail) = rule.search tail := by
  rw [search]
  split <;> simp_all

theorem search_of_isPrefixOf? {rule : CallRule} {text behind : Text}
    (found : rule.pattern.isPrefixOf? text = some behind) :
    rule.search text = behind :: rule.search behind := by
  cases text with
  | nil =>
    have whole := congrArg List.length (Text.eq_append_of_isPrefixOf? found)
    have positive := rule.length_pattern_pos
    rw [List.length_append, List.length_nil] at whole
    omega
  | cons c tail =>
    rw [search]
    split <;> simp_all

theorem search_pattern_append (rule : CallRule) (behind : Text) :
    rule.search (rule.pattern ++ behind) = behind :: rule.search behind :=
  search_of_isPrefixOf? (Text.isPrefixOf?_append rule.pattern behind)

private theorem search_singleQuoted {rule : CallRule} (named : rule.Named) (text : Text) :
    rule.search (Arguments.singleQuoted text) =
      (rule.search text).map Arguments.singleQuoted := by
  have noDouble : '"' ∉ rule.pattern := named.not_mem_pattern (by decide) (by decide)
  have noSingle : '\'' ∉ rule.pattern := named.not_mem_pattern (by decide) (by decide)
  have begins := isPrefixOf?_singleQuoted noDouble noSingle
  induction text using search.induct rule with
  | case1 => rw [search_nil]; exact search_nil rule
  | case2 c tail absent ih =>
    have absent' := begins (c :: tail)
    rw [absent, Option.map_none, Arguments.singleQuoted_cons] at absent'
    rw [search_cons absent, Arguments.singleQuoted_cons, search_cons absent', ih]
  | case3 c tail behind found ih =>
    have found' := begins (c :: tail)
    rw [found, Option.map_some] at found'
    rw [search_of_isPrefixOf? found, search_of_isPrefixOf? found', ih, List.map_cons]

/-! ## Announced calls -/

/-- Whether an opening parenthesis behind a text begins the argument list of a call: the search
finds an occurrence in the text with nothing but blanks behind. -/
def announces (rule : CallRule) (before : Text) : Bool :=
  (rule.search before).any fun behind => behind.all Text.isBlank

@[simp] theorem announces_nil (rule : CallRule) : rule.announces [] = false := by
  rw [announces, search_nil, List.any_nil]

theorem announces_cons {rule : CallRule} {c : Char} {before : Text}
    (absent : rule.pattern.isPrefixOf? (c :: before) = none) :
    rule.announces (c :: before) = rule.announces before := by
  rw [announces, search_cons absent, announces]

theorem announces_pattern_append (rule : CallRule) (before : Text) :
    rule.announces (rule.pattern ++ before) =
      (before.all Text.isBlank || rule.announces before) := by
  rw [announces, search_pattern_append, List.any_cons, announces]

/-- The pattern with blanks behind announces a call. -/
theorem announces_pattern_blanks (rule : CallRule) {blanks : Text}
    (blank : blanks.all Text.isBlank = true) : rule.announces (rule.pattern ++ blanks) = true := by
  rw [announces_pattern_append, blank, Bool.true_or]

/-- Blanks alone announce nothing. -/
theorem announces_of_blank {rule : CallRule} (named : rule.Named) {blanks : Text}
    (blank : blanks.all Text.isBlank = true) : rule.announces blanks = false := by
  induction blanks with
  | nil => exact rule.announces_nil
  | cons c blanks ih =>
    rw [List.all_cons, Bool.and_eq_true] at blank
    have foreign := named.not_mem_pattern_of_isBlank blank.1
    rw [announces_cons (isPrefixOf?_cons_eq_none foreign blanks), ih blank.2]

theorem announces_singleQuoted {rule : CallRule} (named : rule.Named) (before : Text) :
    rule.announces (Arguments.singleQuoted before) = rule.announces before := by
  rw [announces, search_singleQuoted named, List.any_map, announces]
  exact congrArg _ (funext fun behind => Arguments.all_isBlank_singleQuoted behind)

/-- A text that announces a call ends in the pattern and blanks. -/
private theorem exists_of_announces {rule : CallRule} {before : Text}
    (announced : rule.announces before) :
    ∃ front blanks, before = front ++ (rule.pattern ++ blanks) ∧
      blanks.all Text.isBlank = true := by
  induction before using search.induct rule with
  | case1 => rw [announces_nil] at announced; contradiction
  | case2 c tail absent ih =>
    rw [announces_cons absent] at announced
    obtain ⟨front, blanks, rfl, blank⟩ := ih announced
    exact ⟨c :: front, blanks, rfl, blank⟩
  | case3 c tail behind found ih =>
    have whole := Text.eq_append_of_isPrefixOf? found
    rw [whole, announces_pattern_append, Bool.or_eq_true] at announced
    rw [whole]
    rcases announced with blank | announced
    · exact ⟨[], behind, rfl, blank⟩
    · obtain ⟨front, blanks, rfl, blank⟩ := ih announced
      exact ⟨rule.pattern ++ front, blanks, by rw [List.append_assoc], blank⟩

/-- The method of an announced call can be read off the text that announces it. -/
private theorem takeWhile_reverse_of_announces {rule : CallRule} (named : rule.Named)
    {before : Text} (announced : rule.announces before) :
    ((before.reverse.dropWhile Text.isBlank).takeWhile Text.isWordChar).reverse = rule.method := by
  obtain ⟨front, blanks, rfl, blank⟩ := exists_of_announces announced
  have word {c : Char} (member : c ∈ rule.method.reverse) : Text.isWordChar c = true :=
    Text.isWordChar_of_mem named.method (List.mem_reverse.mp member)
  have reversed : (front ++ (rule.pattern ++ blanks)).reverse =
      blanks.reverse ++ (rule.method.reverse ++ ':' :: (front ++ rule.global).reverse) := by
    simp only [pattern, List.reverse_append, List.reverse_cons, List.append_assoc,
      List.cons_append, List.nil_append]
  have solid : (rule.method.reverse ++ ':' :: (front ++ rule.global).reverse).dropWhile
      Text.isBlank = rule.method.reverse ++ ':' :: (front ++ rule.global).reverse := by
    cases reverse : rule.method.reverse with
    | nil => exact List.dropWhile_cons_of_neg (by decide)
    | cons c rest =>
      apply List.dropWhile_cons_of_neg
      rw [Text.isBlank_of_isWordChar (word (reverse ▸ List.mem_cons_self))]
      exact Bool.false_ne_true
  rw [reversed, List.dropWhile_append_of_pos, solid, List.takeWhile_append_of_pos fun _ => word,
    List.takeWhile_cons_of_neg (by decide), List.append_nil, List.reverse_reverse]
  intro c member
  exact List.all_eq_true.mp blank c (List.mem_reverse.mp member)

/-- Rules that see a call at the same parenthesis have the same method. -/
theorem method_eq_of_announces {rule other : CallRule} (named : rule.Named)
    (otherNamed : other.Named) {before : Text} (announced : rule.announces before)
    (otherAnnounced : other.announces before) : rule.method = other.method := by
  rw [← takeWhile_reverse_of_announces named announced,
    takeWhile_reverse_of_announces otherNamed otherAnnounced]

end PluginScript.CallRule
