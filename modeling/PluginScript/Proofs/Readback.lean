import PluginScript.Command.Readback
import PluginScript.Proofs.Acceptance
import PluginScript.Proofs.CommandRuns
import PluginScript.Proofs.Registration
import PluginScript.Proofs.TableRoundTrip
import PluginScript.Proofs.TokenChains

/-! # What the command prints can be read back

The command prints tokens with spaces between them and plugins on lines of their own, and escapes
nothing. Its output can be read back all the same, because the characters that separate cannot occur
in what they separate: an expression reaches back to the last space or line end, so no token holds
one (`not_mem_of_mem_tokens`), and the owner of a registered global was a word in the header of its
section (`isWord_of_mem_dependencies`). That the output is a sequence of lines is one fact for both
(`lines?_flatMap_line`).
-/

namespace PluginScript.Command

/-! ## Lines -/

private theorem splitOn_flatMap_line {rows : List Text} (unbroken : ∀ row ∈ rows, '\n' ∉ row) :
    (rows.flatMap line).splitOn '\n' = rows ++ [[]] := by
  induction rows with
  | nil => rfl
  | cons row rows ih =>
    rw [List.forall_mem_cons] at unbroken
    rw [List.flatMap_cons, line, List.append_assoc, List.singleton_append,
      List.splitOn_append_cons_self_of_not_mem unbroken.1, ih unbroken.2, List.cons_append]

/-- Lines that hold no line end are read back as they were printed. -/
private theorem lines?_flatMap_line {rows : List Text} (unbroken : ∀ row ∈ rows, '\n' ∉ row) :
    lines? (rows.flatMap line) = some rows := by
  rw [lines?, splitOn_flatMap_line unbroken, List.reverse_append]
  exact congrArg some (List.reverse_reverse rows)

/-! ## Numbers -/

private theorem numbers_append_cons {c : Char} (bare : c.isDigit = false) (front rest : Text) :
    numbers (front ++ c :: rest) = numbers front ++ numbers rest := by
  have separates : (!c.isDigit) = true := by rw [bare]; rfl
  rw [numbers, List.splitOnP_append_cons front rest separates, List.filter_append, List.map_append]
  rfl

/-- Words without digits in front of a text add no number. -/
private theorem numbers_append_of_bare {words : Text}
    (bare : words.all (fun c => !c.isDigit) = true)
    (rest : Text) : numbers (words ++ rest) = numbers rest := by
  induction words with
  | nil => rfl
  | cons c words ih =>
    rw [List.all_cons, Bool.and_eq_true, Bool.not_eq_true'] at bare
    exact (numbers_append_cons bare.1 [] (words ++ rest)).trans (ih bare.2)

private theorem isDigit_of_mem_ofNat {n : Nat} {c : Char} (member : c ∈ Text.ofNat n) :
    c.isDigit = true :=
  Nat.isDigit_of_mem_toDigits (by decide) (by decide) member

private theorem numbers_ofNat (n : Nat) : numbers (Text.ofNat n) = [n] := by
  have whole : (Text.ofNat n).splitOnP (fun c => !c.isDigit) = [Text.ofNat n] :=
    List.splitOnP_eq_singleton fun c member => by rw [isDigit_of_mem_ofNat member]; rfl
  have present : (Text.ofNat n).isEmpty = false :=
    List.isEmpty_eq_false_iff.mpr Nat.toDigits_ne_nil
  have value : Nat.ofDigitChars 10 (Text.ofNat n) 0 = n := Nat.ofDigitChars_ten_toDigits
  simp only [numbers, whole, List.filter, present, Bool.not_false, List.map_cons, List.map_nil,
    value]

/-- A number ends where words without digits begin. -/
private theorem numbers_ofNat_append (n : Nat) {words : Text} (present : words ≠ [])
    (bare : words.all (fun c => !c.isDigit) = true) (rest : Text) :
    numbers (Text.ofNat n ++ (words ++ rest)) = n :: numbers rest := by
  obtain ⟨c, words, rfl⟩ := List.exists_cons_of_ne_nil present
  rw [List.all_cons, Bool.and_eq_true, Bool.not_eq_true'] at bare
  rw [List.cons_append, numbers_append_cons bare.1, numbers_ofNat, numbers_append_of_bare bare.2,
    List.singleton_append]

/-- Two numbers among words without digits. -/
private theorem numbers_between {front middle back : Text}
    (bareFront : front.all (fun c => !c.isDigit) = true)
    (bareMiddle : middle.all (fun c => !c.isDigit) = true) (middlePresent : middle ≠ [])
    (bareBack : back.all (fun c => !c.isDigit) = true) (backPresent : back ≠ [])
    (first second : Nat) :
    numbers (front ++ Text.ofNat first ++ middle ++ Text.ofNat second ++ back) =
      [first, second] := by
  have last := numbers_ofNat_append second backPresent bareBack []
  rw [List.append_nil] at last
  rw [List.append_assoc, List.append_assoc, List.append_assoc, numbers_append_of_bare bareFront,
    numbers_ofNat_append first middlePresent bareMiddle, last]
  rfl

private theorem numbers_spanLine (chain : Completion.Chain) :
    numbers (spanLine chain) = [chain.lastStart, chain.lastLength] :=
  numbers_between (by decide) (by decide) (by decide) (by decide) (by decide) _ _

/-! ## Tokens -/

/-- No token holds a character that bounds expressions. -/
private theorem not_mem_of_mem_tokens {script token : Text} {cursor : Nat}
    {chain : Completion.Chain}
    (found : Completion.chain script cursor = .ok chain) (member : token ∈ chain.tokens) {c : Char}
    (bound : c ∈ Completion.bounds) : c ∉ token := by
  obtain ⟨expression, unbounded, tokens⟩ := Completion.exists_tokens_eq_pieces found
  rw [tokens] at member
  intro inside
  exact unbounded c (Completion.mem_of_mem_pieces member c inside).1 bound

private theorem tokens_ne_nil {script : Text} {cursor : Nat} {chain : Completion.Chain}
    (found : Completion.chain script cursor = .ok chain) : chain.tokens ≠ [] := by
  obtain ⟨expression, -, tokens⟩ := Completion.exists_tokens_eq_pieces found
  rw [tokens]
  exact (Completion.areTokens_pieces expression).nonempty

private theorem newline_not_mem_tokenLine {chain : Completion.Chain}
    (unbroken : ∀ token ∈ chain.tokens, '\n' ∉ token) : '\n' ∉ tokenLine chain := by
  rw [tokenLine]
  cases tokens : chain.tokens with
  | nil => exact List.not_mem_nil
  | cons first others =>
    rw [tokens, List.forall_mem_cons] at unbroken
    rw [Table.intercalate_cons, List.mem_append, List.mem_flatMap]
    rintro (inside | ⟨token, member, inside⟩)
    · exact unbroken.1 inside
    · rcases List.mem_cons.mp inside with space | inside
      · exact absurd space (by decide)
      · exact unbroken.2 token member inside

private theorem not_mem_between {front middle back : Text} {c : Char} (bare : c.isDigit = false)
    (noFront : c ∉ front) (noMiddle : c ∉ middle) (noBack : c ∉ back) (first second : Nat) :
    c ∉ front ++ Text.ofNat first ++ middle ++ Text.ofNat second ++ back := by
  have noDigit (n : Nat) : c ∉ Text.ofNat n := by
    intro member
    rw [isDigit_of_mem_ofNat member] at bare
    cases bare
  simp [noFront, noMiddle, noBack, noDigit]

private theorem newline_not_mem_spanLine (chain : Completion.Chain) : '\n' ∉ spanLine chain :=
  not_mem_between (by decide) (by decide) (by decide) (by decide) _ _

/-- The chain of tokens that is printed is read back. -/
theorem readChain?_of_chain {script : Text} {cursor : Nat} {chain : Completion.Chain}
    (found : Completion.chain script cursor = .ok chain) :
    readChain? (line (tokenLine chain) ++ line (spanLine chain)) = some chain := by
  have unbroken : ∀ token ∈ chain.tokens, '\n' ∉ token :=
    fun token member => not_mem_of_mem_tokens found member (by decide)
  have unspaced : ∀ token ∈ chain.tokens, ' ' ∉ token :=
    fun token member => not_mem_of_mem_tokens found member (by decide)
  have rows : line (tokenLine chain) ++ line (spanLine chain) =
      [tokenLine chain, spanLine chain].flatMap line := by simp
  have read : lines? ([tokenLine chain, spanLine chain].flatMap line) =
      some [tokenLine chain, spanLine chain] := by
    apply lines?_flatMap_line
    simp only [List.forall_mem_cons]
    exact ⟨newline_not_mem_tokenLine unbroken, newline_not_mem_spanLine chain, nofun⟩
  have cut : (tokenLine chain).splitOn ' ' = chain.tokens :=
    List.splitOn_intercalate ' ' unspaced (tokens_ne_nil found)
  rw [readChain?, rows, read]
  simp only [numbers_spanLine, cut]

/-! ## Plugins -/

/-- The plugins that a run can list are words: each was written in the header of a section. -/
private theorem isWord_of_mem_dependencies {reader : Reader} {options : Options}
    {registry : Registry}
    {script : Text} (serves : Serves reader options registry script) :
    ∀ plugin ∈ registry.dependencies script, plugin.name.isWord = true := by
  obtain ⟨text, table, -, parsed, made⟩ := serves.registered
  obtain ⟨globals, -⟩ := Registry.ofGlobals_eq_ok_iff.mp made
  intro plugin member
  obtain ⟨global, stored, rfl, -⟩ := Registry.mem_dependencies_iff.mp member
  rw [globals] at stored
  obtain ⟨entry, there, rfl⟩ := List.mem_map.mp stored
  exact (Table.writable_of_parse parsed entry (List.mem_of_mem_filter there)).owner

private theorem nodup_dependencies_of_serves {reader : Reader} {options : Options}
    {registry : Registry}
    {script : Text} (serves : Serves reader options registry script) :
    (registry.dependencies script).Nodup := by
  obtain ⟨text, table, -, -, made⟩ := serves.registered
  obtain ⟨globals, acceptable⟩ := Registry.ofGlobals_eq_ok_iff.mp made
  have owners := acceptable.owners
  rw [← globals] at owners
  exact owners.sublist (Registry.dependencies_sublist registry script)

private theorem newline_not_mem_of_isWord {word : Text} (isWord : word.isWord = true) :
    '\n' ∉ word :=
  Text.not_mem_of_isWord isWord (by decide)

/-- The plugins that are listed are read back, if they are words. -/
theorem readPlugins?_of_isWord {plugins : List PluginId}
    (words : ∀ plugin ∈ plugins, plugin.name.isWord = true) :
    readPlugins? (plugins.flatMap fun plugin => line plugin.name) = some plugins := by
  have unbroken : ∀ row ∈ plugins.map PluginId.name, '\n' ∉ row := by
    rw [List.forall_mem_map]
    exact fun plugin member => newline_not_mem_of_isWord (words plugin member)
  have read := lines?_flatMap_line unbroken
  rw [List.flatMap_map] at read
  rw [readPlugins?, read, Option.map_some, List.map_map]
  exact congrArg some (List.map_id plugins)

/-! ## Runs -/

/-- What a run prints can be read back. Either it cannot serve, and prints nothing, or it prints its
answer: the chain of tokens in front of the cursor, whose tokens hold neither spaces nor line ends
and are read off the first line, and the place of the last one off the second; or the plugins that
the script depends on, which are words, one on each line and none of them twice. -/
theorem run_readable (reader : Reader) {arguments : List (List UInt8)} {texts : List Text}
    {options : Options} (encoded : arguments = texts.map Text.encode)
    (quiet : ¬ AsksForHelp texts) (said : Options.ofArguments? texts = some options) :
    ((∀ registry script, ¬ Serves reader options registry script) ∧
        (run reader arguments).code = 1 ∧ (run reader arguments).output = []) ∨
      ∃ registry script, Serves reader options registry script ∧
        (run reader arguments).code = 0 ∧
        (∀ cursor, options.mode = .tokens cursor →
          ∃ chain, Completion.chain script cursor = .ok chain ∧
            readChain? (run reader arguments).output = some chain ∧
            ∀ token ∈ chain.tokens, ' ' ∉ token ∧ '\n' ∉ token) ∧
        (options.mode = .dependencies →
          readPlugins? (run reader arguments).output = some (registry.dependencies script) ∧
            (registry.dependencies script).Nodup ∧
            ∀ plugin ∈ registry.dependencies script,
              plugin.name.isWord = true ∧ '\n' ∉ plugin.name) := by
  rw [encoded, run_map_encode]
  rcases runOnTexts_cases reader texts with ⟨help, -⟩ |
    ⟨-, options', registry, script, output, said', serves, prints, ran⟩ |
    ⟨-, lacks, errors, ran⟩
  case inl => exact absurd help quiet
  case inr.inl =>
    cases said.symm.trans said'
    rw [ran]
    refine .inr ⟨registry, script, serves, rfl, ?tokens, ?dependencies⟩
    case tokens =>
      intro cursor asked
      rw [asked] at prints
      cases prints with
      | @tokens _ _ _ chain found =>
        exact ⟨chain, found, readChain?_of_chain found, fun token member =>
          ⟨not_mem_of_mem_tokens found member (by decide),
            not_mem_of_mem_tokens found member (by decide)⟩⟩
    case dependencies =>
      intro asked
      rw [asked] at prints
      have words := isWord_of_mem_dependencies serves
      obtain rfl := prints.eq_of_dependencies
      exact ⟨readPlugins?_of_isWord words, nodup_dependencies_of_serves serves,
        fun plugin member => ⟨words plugin member, newline_not_mem_of_isWord (words plugin member)⟩⟩
  case inr.inr =>
    rw [ran]
    exact .inl ⟨fun registry script => lacks options registry script said, rfl, rfl⟩

/-- A table of one plugin, and in every other file a script. -/
def padReader : Reader := fun path =>
  if path = "t".toList then .ok (Text.encode "[plugins.Pad]\nglobal = \"pad\"".toList)
  else .ok (Text.encode "x = pad:".toList)

/-- The tokens in front of a cursor that stands right behind a colon. -/
theorem run_readable_behind_colon :
    ¬ AsksForHelp (["-p", "t", "s", "-t", "8"].map String.toList) ∧
      Options.ofArguments? (["-p", "t", "s", "-t", "8"].map String.toList) =
        some ⟨"t".toList, "s".toList, .tokens 8⟩ ∧
      ∃ chain, readChain? (run padReader
            (["-p", "t", "s", "-t", "8"].map fun word => Text.encode word.toList)).output =
          some chain ∧
        chain = ⟨["pad".toList, []], 8, 0⟩ ∧ ∀ token ∈ chain.tokens, ' ' ∉ token ∧ '\n' ∉ token := by
  have quiet : ¬ AsksForHelp (["-p", "t", "s", "-t", "8"].map String.toList) :=
    any_iff_asksForHelp.not.mp (by decide)
  have said : Options.ofArguments? (["-p", "t", "s", "-t", "8"].map String.toList) =
      some ⟨"t".toList, "s".toList, .tokens 8⟩ := by decide
  refine ⟨quiet, said, ?_⟩
  rcases run_readable padReader rfl quiet said with ⟨-, code, -⟩ | ⟨registry, script, -, -, tokens, -⟩
  · exact absurd code (by decide +kernel)
  · obtain ⟨chain, -, read, unbroken⟩ := tokens 8 rfl
    refine ⟨chain, read, Option.some.inj (read.symm.trans ?_), unbroken⟩
    decide +kernel

end PluginScript.Command
