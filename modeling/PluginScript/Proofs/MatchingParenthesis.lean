import PluginScript.Arguments.Matching
import PluginScript.Proofs.ArgumentScan

/-! # The matching parenthesis

The scan for the end of a list counts, and the grammar of balanced brackets nests. In the middle of
a list the scan is inside some lists, as many as its depth says, and what it still passes has to
close them all: a balanced sequence and a closing bracket for each of them (`Bracket.Closes`). One
symbol changes that number as it changes the depth, so the scan ends exactly where a sequence that
closes all lists ends (`closes_of_splitFrom?`, `splitFrom?_of_closes`), and from an opening bracket
exactly at the end of its group (`splitFrom?_eq_some_iff`).

A list inside a list begins deeper and so comes to its end earlier (`exists_splitFrom?_of_inside`).
-/

namespace PluginScript.Arguments

namespace Bracket

/-- The sequences that close a number of groups which are open in front of them: a balanced sequence
and a closing bracket for each. -/
inductive Closes : Nat → List Bracket → Prop where
  | nil : Closes 0 []
  | group {level : Nat} {inner rest : List Bracket} (inside : Balanced inner)
      (behind : Closes level rest) : Closes (level + 1) (inner ++ closing :: rest)

private theorem closes_zero_iff {found : List Bracket} : Closes 0 found ↔ found = [] := by
  constructor
  · rintro ⟨⟩
    rfl
  · rintro rfl
    exact .nil

private theorem not_closes_nil {level : Nat} : ¬ Closes (level + 1) [] := by
  intro closes
  generalize whole : ([] : List Bracket) = found at closes
  cases closes with
  | group inside behind => exact absurd whole.symm (by simp)

/-- An opening bracket is one more group to close. -/
private theorem closes_opening_iff {level : Nat} {found : List Bracket} :
    Closes (level + 1) (opening :: found) ↔ Closes (level + 2) found := by
  constructor
  · intro closes
    generalize whole : opening :: found = all at closes
    cases closes with
    | group inside behind =>
      cases inside with
      | nil => cases whole
      | @group inner middle inside between =>
        rw [List.cons_append, List.cons.injEq, List.append_assoc, List.cons_append] at whole
        exact whole.2 ▸ .group inside (.group between behind)
  · intro closes
    cases closes with
    | @group _ inner rest inside behind =>
      cases behind with
      | @group _ middle rest between behind =>
        have whole := Closes.group (.group inside between) behind
        rwa [List.cons_append, List.append_assoc, List.cons_append] at whole

/-- A closing bracket is one group less to close. -/
private theorem closes_closing_iff {level : Nat} {found : List Bracket} :
    Closes (level + 1) (closing :: found) ↔ Closes level found := by
  constructor
  · intro closes
    generalize whole : closing :: found = all at closes
    cases closes with
    | group inside behind =>
      cases inside with
      | nil =>
        cases whole
        exact behind
      | group => cases whole
  · exact fun closes => .group .nil closes

private theorem isGroup_opening_iff {found : List Bracket} :
    IsGroup (opening :: found) ↔ Closes 1 found := by
  constructor
  · rintro ⟨inner, inside, whole⟩
    rw [List.cons.injEq] at whole
    exact whole.2 ▸ .group inside .nil
  · intro closes
    cases closes with
    | @group _ inner rest inside behind =>
      rw [closes_zero_iff.mp behind]
      exact ⟨inner, inside, rfl⟩

end Bracket

section Symbols

variable {α : Type} {bracket : α → Bracket} {symbol : α} {symbols list rest : List α}

private theorem brackets_cons_of_other (other : bracket symbol = .other) (symbols : List α) :
    brackets bracket (symbol :: symbols) = brackets bracket symbols := by
  rw [brackets, List.map_cons, List.filter_cons_of_neg (by simp [other]), brackets]

private theorem brackets_cons_of_ne (notOther : bracket symbol ≠ .other) (symbols : List α) :
    brackets bracket (symbol :: symbols) = bracket symbol :: brackets bracket symbols := by
  rw [brackets, List.map_cons, List.filter_cons_of_pos (by simpa using notOther), brackets]

private theorem brackets_ne_nil (last : list.getLast?.map bracket = some .closing) :
    brackets bracket list ≠ [] := by
  obtain ⟨symbol, final, closing⟩ := Option.map_eq_some_iff.mp last
  apply List.ne_nil_of_mem (a := .closing)
  rw [brackets, List.mem_filter]
  exact ⟨List.mem_map.mpr ⟨symbol, List.mem_of_getLast? final, closing⟩, rfl⟩

/-! ## One symbol of a scan

The depth of a scan that is inside a list is the number of lists it is inside of. -/

private theorem splitFrom?_of_opening (kind : bracket symbol = .opening) (level : Nat)
    (rest : List α) :
    splitFrom? bracket (level + 1 : Nat) true (symbol :: rest) =
      (splitFrom? bracket (level + 2 : Nat) true rest).map
        fun parts => (symbol :: parts.1, parts.2) := by
  have deeper : ((level + 1 : Nat) : Int) + (bracket symbol).weight = (level + 2 : Nat) := by
    rw [kind]
    rfl
  rw [splitFrom?_cons_of_ne_zero (by omega), deeper]

private theorem splitFrom?_of_closing (kind : bracket symbol = .closing) (level : Nat)
    (rest : List α) :
    splitFrom? bracket (level + 2 : Nat) true (symbol :: rest) =
      (splitFrom? bracket (level + 1 : Nat) true rest).map
        fun parts => (symbol :: parts.1, parts.2) := by
  have higher : ((level + 2 : Nat) : Int) + (bracket symbol).weight = (level + 1 : Nat) := by
    rw [kind]
    change ((level + 2 : Nat) : Int) + -1 = (level + 1 : Nat)
    omega
  rw [splitFrom?_cons_of_ne_zero (by omega), higher]

private theorem splitFrom?_of_last_closing (kind : bracket symbol = .closing) (rest : List α) :
    splitFrom? bracket (0 + 1 : Nat) true (symbol :: rest) = some ([symbol], rest) :=
  splitFrom?_cons_of_eq_zero (by rw [kind]; rfl) rest

private theorem splitFrom?_of_other (kind : bracket symbol = .other) (level : Nat) (rest : List α) :
    splitFrom? bracket (level + 1 : Nat) true (symbol :: rest) =
      (splitFrom? bracket (level + 1 : Nat) true rest).map
        fun parts => (symbol :: parts.1, parts.2) := by
  have same : ((level + 1 : Nat) : Int) + (bracket symbol).weight = (level + 1 : Nat) := by
    rw [kind]
    exact Int.add_zero _
  rw [splitFrom?_cons_of_ne_zero (by omega), same]

private theorem closes_cons_opening_iff (kind : bracket symbol = .opening) {level : Nat} :
    Bracket.Closes (level + 1) (brackets bracket (symbol :: list)) ↔
      Bracket.Closes (level + 2) (brackets bracket list) := by
  rw [brackets_cons_of_ne (by rw [kind]; decide), kind, Bracket.closes_opening_iff]

private theorem closes_cons_closing_iff (kind : bracket symbol = .closing) {level : Nat} :
    Bracket.Closes (level + 1) (brackets bracket (symbol :: list)) ↔
      Bracket.Closes level (brackets bracket list) := by
  rw [brackets_cons_of_ne (by rw [kind]; decide), kind, Bracket.closes_closing_iff]

/-! ## The scan and the grammar -/

/-- What a scan passes that is inside some lists closes all of them. -/
private theorem closes_of_splitFrom? {level : Nat}
    (cut : splitFrom? bracket (level + 1 : Nat) true symbols = some (list, rest)) :
    Bracket.Closes (level + 1) (brackets bracket list) := by
  induction symbols generalizing level list with
  | nil => cases cut
  | cons symbol symbols ih =>
    cases kind : bracket symbol with
    | opening =>
      rw [splitFrom?_of_opening kind] at cut
      obtain ⟨⟨front, back⟩, found, same⟩ := Option.map_eq_some_iff.mp cut
      cases same
      exact (closes_cons_opening_iff kind).mpr (ih found)
    | closing =>
      cases level with
      | zero =>
        rw [splitFrom?_of_last_closing kind] at cut
        cases cut
        exact (closes_cons_closing_iff kind).mpr .nil
      | succ level =>
        rw [splitFrom?_of_closing kind] at cut
        obtain ⟨⟨front, back⟩, found, same⟩ := Option.map_eq_some_iff.mp cut
        cases same
        exact (closes_cons_closing_iff kind).mpr (ih found)
    | other =>
      rw [splitFrom?_of_other kind] at cut
      obtain ⟨⟨front, back⟩, found, same⟩ := Option.map_eq_some_iff.mp cut
      cases same
      rw [brackets_cons_of_other kind]
      exact ih found

/-- A scan that is inside some lists finds the closing bracket of the outermost one. -/
private theorem splitFrom?_of_closes {level : Nat}
    (last : list.getLast?.map bracket = some .closing)
    (closes : Bracket.Closes (level + 1) (brackets bracket list)) (rest : List α) :
    splitFrom? bracket (level + 1 : Nat) true (list ++ rest) = some (list, rest) := by
  induction list generalizing level with
  | nil => cases last
  | cons symbol list ih =>
    rw [List.cons_append]
    by_cases alone : list = []
    · subst alone
      have kind : bracket symbol = .closing := Option.some.inj last
      cases level with
      | zero => rw [splitFrom?_of_last_closing kind, List.nil_append]
      | succ level =>
        exact absurd ((closes_cons_closing_iff kind).mp closes) Bracket.not_closes_nil
    · have last' : list.getLast?.map bracket = some .closing := by
        rwa [List.getLast?_cons_of_ne_nil alone] at last
      cases kind : bracket symbol with
      | opening =>
        rw [splitFrom?_of_opening kind, ih last' ((closes_cons_opening_iff kind).mp closes),
          Option.map_some]
      | closing =>
        have fewer := (closes_cons_closing_iff kind).mp closes
        cases level with
        | zero => exact absurd (Bracket.closes_zero_iff.mp fewer) (brackets_ne_nil last')
        | succ level => rw [splitFrom?_of_closing kind, ih last' fewer, Option.map_some]
      | other =>
        rw [brackets_cons_of_other kind] at closes
        rw [splitFrom?_of_other kind, ih last' closes, Option.map_some]

/-- A scan that begins at an opening bracket is inside one list behind it. -/
private theorem splitFrom?_of_first (kind : bracket symbol = .opening) (rest : List α) :
    splitFrom? bracket 0 false (symbol :: rest) =
      (splitFrom? bracket 1 true rest).map fun parts => (symbol :: parts.1, parts.2) := by
  have deeper : 0 + Bracket.opening.weight = 1 := rfl
  simp only [splitFrom?, kind, deeper]
  rfl

/-- A scan that begins at an opening bracket cuts off the group of that bracket. -/
theorem splitFrom?_eq_some_iff (kind : bracket symbol = .opening) :
    splitFrom? bracket 0 false (symbol :: symbols) = some (list, rest) ↔
      symbol :: symbols = list ++ rest ∧ list.getLast?.map bracket = some .closing ∧
        Bracket.IsGroup (brackets bracket list) := by
  constructor
  · intro cut
    refine ⟨append_of_splitFrom? cut, ?_⟩
    rw [splitFrom?_of_first kind] at cut
    obtain ⟨⟨front, back⟩, found, same⟩ := Option.map_eq_some_iff.mp cut
    cases same
    change splitFrom? bracket (0 + 1 : Nat) true symbols = some (front, back) at found
    obtain ⟨final, last, closing⟩ :=
      Option.map_eq_some_iff.mp (getLast?_of_splitFrom? Int.one_pos found)
    rw [brackets_cons_of_ne (by rw [kind]; decide), kind, Bracket.isGroup_opening_iff,
      List.getLast?_cons, last]
    exact ⟨congrArg some closing, closes_of_splitFrom? found⟩
  · rintro ⟨whole, last, isGroup⟩
    cases list with
    | nil => cases last
    | cons first list =>
      rw [List.cons_append, List.cons.injEq] at whole
      obtain ⟨rfl, rfl⟩ := whole
      rw [brackets_cons_of_ne (by rw [kind]; decide), kind, Bracket.isGroup_opening_iff] at isGroup
      have nonempty : list ≠ [] := by
        rintro rfl
        rw [List.getLast?_singleton, Option.map_some, kind] at last
        cases last
      rw [List.getLast?_cons_of_ne_nil nonempty] at last
      rw [splitFrom?_of_first kind]
      change (splitFrom? bracket (0 + 1 : Nat) true (list ++ rest)).map _ = _
      rw [splitFrom?_of_closes last isGroup, Option.map_some]

/-! ## Lists in a list -/

theorem ne_nil_of_splitFrom? {depth : Int} {opened : Bool}
    (cut : splitFrom? bracket depth opened symbols = some (list, rest)) : list ≠ [] := by
  cases symbols with
  | nil => cases cut
  | cons symbol symbols =>
    simp only [splitFrom?] at cut
    split_ifs at cut
    · cases cut
      exact List.cons_ne_nil _ _
    · obtain ⟨parts, -, same⟩ := Option.map_eq_some_iff.mp cut
      cases same
      exact List.cons_ne_nil _ _

/-- A scan that has less to close comes to its end earlier. -/
private theorem exists_splitFrom?_of_deeper {depth extra : Int} (inside : 0 < depth)
    (deeper : 0 < extra)
    (cut : splitFrom? bracket (depth + extra) true symbols = some (list, rest)) :
    ∃ inner behind, splitFrom? bracket depth true symbols = some (inner, behind) ∧
      inner.length < list.length := by
  induction symbols generalizing depth list with
  | nil => cases cut
  | cons symbol symbols ih =>
    have least := (bracket symbol).neg_one_le_weight
    rcases splitFrom?_cons_cases (by omega) cut with ⟨tooEarly, -, -⟩ | ⟨tail, -, rfl, found⟩
    · omega
    · by_cases ended : depth + (bracket symbol).weight = 0
      · rw [splitFrom?_cons_of_eq_zero ended]
        have positive := List.length_pos_iff.mpr (ne_nil_of_splitFrom? found)
        exact ⟨[symbol], symbols, rfl, Nat.succ_lt_succ positive⟩
      · rw [Int.add_right_comm] at found
        obtain ⟨inner, behind, found', shorter⟩ := ih (by omega) found
        rw [splitFrom?_cons_of_ne_zero ended, found']
        exact ⟨symbol :: inner, behind, rfl, Nat.succ_lt_succ shorter⟩

/-- A scan that passes an opening bracket inside a list passes the end of its group as well. -/
private theorem exists_splitFrom?_of_inside {depth : Int} (inside : 0 < depth) {front : List α}
    (kind : bracket symbol = .opening)
    (cut : splitFrom? bracket depth true (front ++ symbol :: symbols) = some (list, rest))
    (within : front.length < list.length) :
    ∃ inner behind, splitFrom? bracket 0 false (symbol :: symbols) = some (inner, behind) ∧
      front.length + inner.length < list.length := by
  induction front generalizing depth list with
  | nil =>
    have down : (bracket symbol).weight = 1 := by
      rw [kind]
      rfl
    rw [List.nil_append] at cut
    rcases splitFrom?_cons_cases inside cut with ⟨tooEarly, -, -⟩ | ⟨tail, -, rfl, found⟩
    · omega
    · rw [down, Int.add_comm] at found
      obtain ⟨inner, behind, found', shorter⟩ :=
        exists_splitFrom?_of_deeper Int.one_pos inside found
      rw [splitFrom?_of_first kind, found']
      refine ⟨symbol :: inner, behind, rfl, ?_⟩
      simp only [List.length_nil, List.length_cons]
      omega
  | cons passed front ih =>
    rw [List.cons_append] at cut
    rcases splitFrom?_cons_cases inside cut with ⟨-, rfl, -⟩ | ⟨tail, deeper, rfl, found⟩
    · simp at within
    · simp only [List.length_cons] at within ⊢
      obtain ⟨inner, behind, found', shorter⟩ := ih deeper found (by omega)
      exact ⟨inner, behind, found', by omega⟩

end Symbols

/-! ## Parts of the bytes of a script -/

theorem ofByte_eq_opening_iff {byte : UInt8} : Bracket.ofByte byte = .opening ↔ byte = 0x28 := by
  unfold Bracket.ofByte
  split_ifs <;> simp_all

theorem ofByte_eq_closing_iff {byte : UInt8} : Bracket.ofByte byte = .closing ↔ byte = 0x29 := by
  unfold Bracket.ofByte
  split_ifs with opening
  · simp [opening]
  · simp_all
  · simp_all

private theorem drop_eq_cons {bytes : List UInt8} {start : Nat} {byte : UInt8}
    (here : bytes[start]? = some byte) : bytes.drop start = byte :: bytes.drop (start + 1) := by
  obtain ⟨bound, same⟩ := List.getElem?_eq_some_iff.mp here
  rw [List.drop_eq_getElem_cons bound, same]

theorem drop_eq_extract_append {bytes : List UInt8} {start stop : Nat} (ordered : start ≤ stop) :
    bytes.drop start = bytes.extract start stop ++ bytes.drop stop := by
  rw [List.extract_eq_take_drop]
  nth_rewrite 1 [← List.take_append_drop (stop - start) (bytes.drop start)]
  rw [List.drop_drop, Nat.add_sub_of_le ordered]

theorem length_extract {bytes : List UInt8} {start stop : Nat} (bound : stop ≤ bytes.length) :
    (bytes.extract start stop).length = stop - start := by
  rw [List.extract_eq_take_drop, List.length_take, List.length_drop]
  omega

private theorem getLast?_extract {bytes : List UInt8} {start stop : Nat} (ordered : start < stop)
    (bound : stop ≤ bytes.length) : (bytes.extract start stop).getLast? = bytes[stop - 1]? := by
  rw [List.getLast?_eq_getElem?, length_extract bound, List.extract_eq_take_drop,
    List.getElem?_take_of_lt (by omega), List.getElem?_drop]
  congr 1
  omega

/-! ## Spans -/

theorem span_eq_closed_iff {script : Text} {start stop : Nat} :
    span script start = ⟨start, stop, true⟩ ↔
      ∃ list rest, splitFrom? Bracket.ofByte 0 false (script.encode.drop start) =
        some (list, rest) ∧ start + list.length = stop := by
  rw [span]
  cases splitFrom? Bracket.ofByte 0 false (script.encode.drop start) with
  | none => simp
  | some parts => simp [Prod.ext_iff]

/-- From an opening parenthesis the scan finds its partner, and nothing else. -/
theorem span_eq_iff_isMatched {script : Text} {start stop : Nat}
    (opens : script.encode[start]? = some 0x28) :
    span script start = ⟨start, stop, true⟩ ↔ IsMatched script start stop := by
  have first : Bracket.ofByte 0x28 = .opening := rfl
  have front := drop_eq_cons opens
  have size := script.length_encode
  rw [span_eq_closed_iff, front]
  simp only [splitFrom?_eq_some_iff first]
  rw [← front]
  constructor
  · rintro ⟨list, rest, ⟨whole, last, isGroup⟩, rfl⟩
    have same : script.encode.extract start (start + list.length) = list := by
      rw [List.extract_eq_take_drop, whole, Nat.add_sub_cancel_left, List.take_left]
    have bound : start + list.length ≤ script.encode.length := by
      have length := congrArg List.length whole
      rw [List.length_drop, List.length_append] at length
      have := (List.getElem?_eq_some_iff.mp opens).1
      omega
    obtain ⟨final, here, closing⟩ := Option.map_eq_some_iff.mp last
    have positive := List.length_pos_of_mem (List.mem_of_getLast? here)
    have ordered : start < start + list.length := by omega
    rw [IsMatched, FormsGroup, ← getLast?_extract ordered bound, same, ← size]
    exact ⟨here.trans (congrArg some (ofByte_eq_closing_iff.mp closing)), bound, isGroup⟩
  · rintro ⟨final, bound, isGroup⟩
    rw [← size] at bound
    have ordered : start < stop := by
      by_contra reversed
      rw [List.extract_eq_take_drop, Nat.sub_eq_zero_of_le (by omega), List.take_zero] at isGroup
      obtain ⟨inner, -, empty⟩ := isGroup
      cases empty
    refine ⟨script.encode.extract start stop, script.encode.drop stop,
      ⟨drop_eq_extract_append (Nat.le_of_lt ordered), ?_, isGroup⟩, ?_⟩
    · rw [getLast?_extract ordered bound, final]
      rfl
    · rw [length_extract bound, Nat.add_sub_of_le (Nat.le_of_lt ordered)]

/-- A scan that finds no end answers with the end of the script. -/
theorem span_cases (script : Text) (start : Nat) :
    (∃ stop, span script start = ⟨start, stop, true⟩) ∨
      span script start = ⟨start, script.byteLength, false⟩ := by
  rw [span]
  cases splitFrom? Bracket.ofByte 0 false (script.encode.drop start) with
  | none => exact .inr rfl
  | some parts => exact .inl ⟨_, rfl⟩

/-- What is appended to a script does not move the end of a closed list. -/
private theorem span_append_of_closed {script : Text} {start stop : Nat}
    (closed : span script start = ⟨start, stop, true⟩) (more : Text) :
    span (script ++ more) start = ⟨start, stop, true⟩ := by
  obtain ⟨list, rest, cut, size⟩ := span_eq_closed_iff.mp closed
  have bound : start ≤ script.encode.length := by
    by_contra behind
    rw [List.drop_of_length_le (by omega)] at cut
    cases cut
  refine span_eq_closed_iff.mpr ⟨list, rest ++ more.encode, ?_, size⟩
  rw [Text.encode_append, List.drop_append_of_le_length bound, splitFrom?_append cut]

/-- A list that opens inside a closed list is closed inside it. -/
private theorem exists_span_of_inside {script : Text} {start stop inner : Nat}
    (opens : script.encode[start]? = some 0x28) (closed : span script start = ⟨start, stop, true⟩)
    (behind : start < inner) (within : inner < stop)
    (innerOpens : script.encode[inner]? = some 0x28) :
    ∃ innerStop < stop, span script inner = ⟨inner, innerStop, true⟩ := by
  have first : Bracket.ofByte 0x28 = .opening := rfl
  obtain ⟨list, rest, cut, rfl⟩ := span_eq_closed_iff.mp closed
  rw [drop_eq_cons opens, splitFrom?_of_first first] at cut
  obtain ⟨⟨tail, back⟩, found, same⟩ := Option.map_eq_some_iff.mp cut
  cases same
  have ordered : start + 1 ≤ inner := behind
  have size : (script.encode.extract (start + 1) inner).length = inner - (start + 1) :=
    length_extract (Nat.le_of_lt (List.getElem?_eq_some_iff.mp innerOpens).1)
  simp only [List.length_cons] at within ⊢
  rw [drop_eq_extract_append ordered, drop_eq_cons innerOpens] at found
  obtain ⟨innerList, after, innerCut, shorter⟩ :=
    exists_splitFrom?_of_inside Int.one_pos first found (by omega)
  refine ⟨inner + innerList.length, by omega, span_eq_closed_iff.mpr ⟨innerList, after, ?_, rfl⟩⟩
  rw [drop_eq_cons innerOpens, innerCut]

/-- The scan from an opening parenthesis finds exactly the closing parenthesis that matches it,
which is one if it exists and stays where it is whatever follows; if there is none, the list is
unclosed and runs to the end of the script. All lists that open inside a closed list are closed
inside it. -/
theorem span_matching_parenthesis {script : Text} {start : Nat}
    (opens : script.encode[start]? = some 0x28) :
    (∀ stop, span script start = ⟨start, stop, true⟩ ↔ IsMatched script start stop) ∧
      (∀ stop other, IsMatched script start stop → IsMatched script start other → stop = other) ∧
      (∀ stop more, IsMatched script start stop →
        span (script ++ more) start = ⟨start, stop, true⟩) ∧
      ((¬ ∃ stop, IsMatched script start stop) →
        span script start = ⟨start, script.byteLength, false⟩) ∧
      ∀ stop inner, IsMatched script start stop → start < inner → inner < stop →
        script.encode[inner]? = some 0x28 →
          ∃ innerStop < stop, span script inner = ⟨inner, innerStop, true⟩ := by
  have found {stop : Nat} : span script start = ⟨start, stop, true⟩ ↔ IsMatched script start stop :=
    span_eq_iff_isMatched opens
  refine ⟨fun _ => found, ?_, ?_, ?_, ?_⟩
  · intro stop other matched otherMatched
    have same := (found.mpr matched).symm.trans (found.mpr otherMatched)
    rw [Span.mk.injEq] at same
    exact same.2.1
  · intro stop more matched
    exact span_append_of_closed (found.mpr matched) more
  · intro unmatched
    rcases span_cases script start with ⟨stop, closed⟩ | unclosed
    · exact absurd ⟨stop, found.mp closed⟩ unmatched
    · exact unclosed
  · intro stop inner matched behind within innerOpens
    exact exists_span_of_inside opens (found.mpr matched) behind within innerOpens

theorem span_matching_parenthesis_nested :
    (Text.encode "((a)é) (".toList)[0]? = some 0x28 ∧
      span "((a)é) (".toList 0 = ⟨0, 7, true⟩ ∧
      ∃ innerStop < 7, span "((a)é) (".toList 1 = ⟨1, innerStop, true⟩ := by
  have opens : (Text.encode "((a)é) (".toList)[0]? = some 0x28 := by decide
  have matched : IsMatched "((a)é) (".toList 0 7 :=
    ⟨by decide, by decide, [.opening, .closing], .group .nil .nil, by decide⟩
  obtain ⟨found, -, -, -, inside⟩ := span_matching_parenthesis opens
  exact ⟨opens, (found 7).mpr matched, inside 7 1 matched (by decide) (by decide) (by decide)⟩

/-- Without the last byte the brackets do not tell where a list ends: a blank behind it changes
nothing among them. -/
theorem not_span_iff_formsGroup :
    (Text.encode "() ".toList)[0]? = some 0x28 ∧
      ¬ (span "() ".toList 0 = ⟨0, 3, true⟩ ↔ FormsGroup "() ".toList 0 3) := by
  refine ⟨by decide, fun same => ?_⟩
  have formed : FormsGroup "() ".toList 0 3 := ⟨by decide, [], .nil, by decide⟩
  exact absurd (same.mpr formed) (by decide)

end PluginScript.Arguments
