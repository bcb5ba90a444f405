import PluginScript.Command
import PluginScript.Proofs.Acceptance
import PluginScript.Proofs.SimultaneousEdits
import PluginScript.Proofs.TokenChains

/-! # Runs of the command

A run of the command on texts ends in one of two ways, with an answer or with a complaint, and a
complaint comes before anything is printed (`perform_cases`). What a run needs for an answer is
listed by `Serves`, and what the answer is by `Prints`, which speaks of the script and not of the
functions that look into it. The check on the cursor crashes no run: it lets exactly those cursors
through for which there is a chain of tokens (`isOutside_eq_false_iff`), although it looks at bytes
and the chain is found by cutting the script at characters. So the only crash is the one on an
argument that is no text, in front of all the rest (`run_outcome`, `run_outcome_no_text`).
-/

namespace PluginScript

theorem Reader.readText_eq_ok_iff {reader : Reader} {path text : Text} :
    reader.readText path = .ok text ↔ reader path = .ok text.encode := by
  rw [Reader.readText]
  cases reader path with
  | error cause => exact ⟨nofun, nofun⟩
  | ok bytes =>
    rw [Except.ok.injEq, ← Text.decode?_eq_some_iff]
    dsimp only
    cases Text.decode? bytes with
    | none => exact ⟨nofun, nofun⟩
    | some decoded => rw [Except.ok.injEq, Option.some.injEq]

namespace Command

/-! ## What a run needs, and what it prints -/

/-- Help is asked for somewhere among the arguments. -/
def AsksForHelp (arguments : List Text) : Prop :=
  "-h".toList ∈ arguments ∨ "--help".toList ∈ arguments

/-- All that an answer needs is there: a file with a table whose enabled entries make the registry,
a file with the script, and, where tokens are asked for, a cursor that is a position in the
script. -/
structure Serves (reader : Reader) (options : Options) (registry : Registry) (script : Text) :
    Prop where
  registered : ∃ text table, reader options.plugins = .ok (Text.encode text) ∧
    Table.parse text = .ok table ∧ Registry.ofGlobals table.enabledGlobals = .ok registry
  readable : reader options.script = .ok script.encode
  positioned : ∀ cursor, options.mode = .tokens cursor → cursor ≤ script.byteLength ∧
    ∃ before after, script = before ++ after ∧ before.byteLength = cursor

/-- What is printed about a script: what the edits of all rules leave of it, rule by rule; the owners
of the globals whose names occur in it, line by line; or the tokens of the expression in front of the
cursor and the place of the last one. -/
inductive Prints (registry : Registry) (script : Text) : Mode → Text → Prop where
  | prepare {rules : List CallRule} {output : Text}
      (declared : rules = registry.globals.flatMap fun global =>
        global.indexers.map fun method => ⟨global.name, method⟩)
      (edits : CallRule.EditsTo rules script output) : Prints registry script .prepare output
  | dependencies {mentioned : Global → Bool}
      (occurs : ∀ global, mentioned global = true ↔ global.name <:+: script) :
      Prints registry script .dependencies
        ((registry.globals.filter mentioned).flatMap fun global => line global.owner.name)
  | tokens {cursor start : Nat} {expression : Text} {chain : Completion.Chain}
      (found : Completion.chain script cursor = .ok chain)
      (isExpression : Completion.IsExpression script start cursor expression)
      (areTokens : Completion.AreTokens chain.tokens expression)
      (endsAt : Completion.EndsAt script start cursor chain) :
      Prints registry script (.tokens cursor) (line (tokenLine chain) ++ line (spanLine chain))

/-- The plugins that are printed are those that the script depends on. -/
theorem Prints.eq_of_dependencies {registry : Registry} {script output : Text}
    (prints : Prints registry script .dependencies output) :
    output = (registry.dependencies script).flatMap fun plugin => line plugin.name := by
  cases prints with
  | dependencies occurs =>
    rw [Registry.dependencies, Registry.mentioned, List.flatMap_map]
    congr 1
    apply List.filter_congr
    intro global _
    rw [Bool.eq_iff_iff, occurs, Text.occursIn_iff]

/-! ## The check on the cursor -/

private theorem isOutside_eq_false_iff_isBoundary {script : Text} {cursor : Nat} :
    isOutside script cursor = false ↔ script.isBoundary cursor = true := by
  rw [isOutside, Bool.or_eq_false_iff, Bool.not_eq_false', decide_eq_false_iff_not, Nat.not_lt]
  exact and_iff_right_of_imp Text.le_byteLength_of_isBoundary

private theorem run_orStop_bind {ε α β : Type} (stop : ε → Stop) (outcome : Except ε α)
    (next : α → Step β)
    (printed : Text) :
    (orStop stop outcome >>= next).run printed =
      match outcome with
      | .ok value => (next value).run printed
      | .error failure => .error (stop failure) printed := by
  cases outcome <;> rfl

private theorem run_forM_printLine (plugins : List PluginId) (printed : Text) :
    (plugins.forM fun plugin => printLine plugin.name).run printed =
      .ok () (printed ++ plugins.flatMap fun plugin => line plugin.name) := by
  induction plugins generalizing printed with
  | nil => exact congrArg (EStateM.Result.ok ()) (List.append_nil printed).symm
  | cons plugin plugins ih =>
    rw [List.flatMap_cons, ← List.append_assoc]
    exact ih (printed ++ line plugin.name)

/-- Where the cursor is a position in the script, if there is a cursor, an answer is printed. -/
private theorem run_answer_of_inside {registry : Registry}
    (named : ∀ rule ∈ registry.callRules, rule.Named) {script : Text} {mode : Mode}
    (inside : ∀ cursor, mode = .tokens cursor → isOutside script cursor = false) :
    ∃ output, Prints registry script mode output ∧
      (answer registry script mode).run [] = .ok () output := by
  cases mode with
  | prepare => exact ⟨_, .prepare rfl ((CallRule.editsTo_iff named).mpr rfl), rfl⟩
  | dependencies =>
    refine ⟨_, .dependencies fun global => Text.occursIn_iff, ?_⟩
    rw [answer, run_forM_printLine, Registry.dependencies, Registry.mentioned, List.flatMap_map]
    rfl
  | tokens cursor =>
    have boundary := isOutside_eq_false_iff_isBoundary.mp (inside cursor rfl)
    obtain ⟨start, expression, chain, -, found, isExpression, areTokens, endsAt⟩ :=
      Completion.exists_chain_of_isBoundary boundary
    refine ⟨_, .tokens found isExpression areTokens endsAt, ?_⟩
    rw [answer, if_neg (by rw [inside cursor rfl]; exact Bool.false_ne_true), found]
    rfl

/-- Any other cursor is complained about before anything is printed. -/
private theorem run_answer_of_outside (registry : Registry) {script : Text} {cursor : Nat}
    (outside : isOutside script cursor = true) :
    (answer registry script (.tokens cursor)).run [] =
      .error (.complaint (outsideComplaint script cursor)) [] := by
  rw [answer, if_pos outside]
  rfl

theorem loadRegistry_eq_ok_iff {reader : Reader} {path : Text} {registry : Registry} :
    loadRegistry reader path = .ok registry ↔
      ∃ text table, reader path = .ok (Text.encode text) ∧ Table.parse text = .ok table ∧
        Registry.ofGlobals table.enabledGlobals = .ok registry := by
  simp only [← Reader.readText_eq_ok_iff]
  rw [loadRegistry, Table.load]
  cases reader.readText path with
  | error cause => simp
  | ok text =>
    simp only [Except.ok.injEq, exists_and_left, exists_eq_left']
    cases Table.parse text with
    | error failure => simp
    | ok table =>
      simp only [Except.ok.injEq, exists_eq_left', Table.registry]
      cases Registry.ofGlobals table.enabledGlobals <;> simp

private theorem named_callRules_loadRegistry {reader : Reader} {path : Text} {registry : Registry}
    (loaded : loadRegistry reader path = .ok registry) :
    ∀ rule ∈ registry.callRules, rule.Named := by
  obtain ⟨text, table, -, -, made⟩ := loadRegistry_eq_ok_iff.mp loaded
  exact Registry.named_callRules_ofGlobals made

theorem serves_iff {reader : Reader} {options : Options} {registry : Registry} {script : Text} :
    Serves reader options registry script ↔
      loadRegistry reader options.plugins = .ok registry ∧
        reader.readText options.script = .ok script ∧
        ∀ cursor, options.mode = .tokens cursor → isOutside script cursor = false := by
  simp only [loadRegistry_eq_ok_iff, Reader.readText_eq_ok_iff, isOutside_eq_false_iff_isBoundary]
  constructor
  · intro serves
    exact ⟨serves.registered, serves.readable, fun cursor asked =>
      Text.isBoundary_iff.mpr (serves.positioned cursor asked).2⟩
  · rintro ⟨registered, readable, inside⟩
    exact ⟨registered, readable, fun cursor asked =>
      ⟨Text.le_byteLength_of_isBoundary (inside cursor asked),
        Text.isBoundary_iff.mp (inside cursor asked)⟩⟩

/-- A run either has all that it needs and prints its answer, or lacks something and complains with
nothing printed. -/
private theorem perform_cases (reader : Reader) (options : Options) :
    (∃ registry script output, Serves reader options registry script ∧
        Prints registry script options.mode output ∧
        (perform reader options).run [] = .ok () output) ∨
      (∀ registry script, ¬ Serves reader options registry script) ∧
        ∃ words, (perform reader options).run [] = .error (.complaint words) [] := by
  simp only [serves_iff, perform, run_orStop_bind]
  cases loaded : loadRegistry reader options.plugins with
  | error failure => exact .inr ⟨by simp, _, rfl⟩
  | ok registry =>
    cases reader.readText options.script with
    | error cause => exact .inr ⟨by simp, _, rfl⟩
    | ok script =>
      by_cases inside : ∀ cursor, options.mode = .tokens cursor → isOutside script cursor = false
      · obtain ⟨output, prints, ran⟩ :=
          run_answer_of_inside (named_callRules_loadRegistry loaded) inside
        exact .inl ⟨registry, script, output, ⟨rfl, rfl, inside⟩, prints, ran⟩
      · refine .inr ⟨?_, ?_⟩
        · rintro _ _ ⟨⟨⟩, ⟨⟩, inside'⟩
          exact inside inside'
        · simp only [not_forall, Bool.not_eq_false] at inside
          obtain ⟨cursor, asked, outside⟩ := inside
          rw [asked]
          exact ⟨_, run_answer_of_outside registry outside⟩

/-- There is one registry and one script that a run can use. -/
theorem Serves.unique {reader : Reader} {options : Options} {registry registry' : Registry}
    {script script' : Text} (serves : Serves reader options registry script)
    (serves' : Serves reader options registry' script') :
    registry = registry' ∧ script = script' := by
  rw [serves_iff] at serves serves'
  exact ⟨Except.ok.inj (serves.1.symm.trans serves'.1),
    Except.ok.inj (serves.2.1.symm.trans serves'.2.1)⟩

/-! ## Ends of a run -/

theorem any_iff_asksForHelp {arguments : List Text} :
    (arguments.any fun argument => argument == "-h".toList || argument == "--help".toList) = true ↔
      AsksForHelp arguments := by
  simp only [List.any_eq_true, Bool.or_eq_true, beq_iff_eq, and_or_left, exists_or,
    exists_eq_right, AsksForHelp]

/-- All the ways in which a run on texts can end. -/
theorem runOnTexts_cases (reader : Reader) (texts : List Text) :
    (AsksForHelp texts ∧ runOnTexts reader texts = ⟨0, [], usage⟩) ∨
      (¬ AsksForHelp texts ∧ ∃ options registry script output,
        Options.ofArguments? texts = some options ∧ Serves reader options registry script ∧
          Prints registry script options.mode output ∧
            runOnTexts reader texts = ⟨0, output, []⟩) ∨
      ¬ AsksForHelp texts ∧
        (∀ options registry script, Options.ofArguments? texts = some options →
          ¬ Serves reader options registry script) ∧
        ∃ errors, runOnTexts reader texts = ⟨1, [], errors⟩ := by
  rw [runOnTexts, Request.ofArguments]
  by_cases help : AsksForHelp texts
  · rw [if_pos (any_iff_asksForHelp.mpr help)]
    exact .inl ⟨help, rfl⟩
  · rw [if_neg (any_iff_asksForHelp.not.mpr help)]
    cases Options.ofArguments? texts with
    | none => exact .inr (.inr ⟨help, nofun, _, rfl⟩)
    | some options =>
      dsimp only
      rcases perform_cases reader options with
        ⟨registry, script, output, serves, prints, ran⟩ | ⟨lacks, words, ran⟩
      · rw [ran]
        exact .inr (.inl ⟨help, options, registry, script, output, rfl, serves, prints, rfl⟩)
      · rw [ran]
        refine .inr (.inr ⟨help, ?_, _, rfl⟩)
        rintro _ registry script ⟨⟩
        exact lacks registry script

theorem run_map_encode (reader : Reader) (texts : List Text) :
    run reader (texts.map Text.encode) = runOnTexts reader texts := by
  rw [run, Text.decodeAll?_eq_some_iff.mpr rfl]

/-- A cursor inside a character. -/
example :
    runOnTexts (fun path => if path = "t".toList then .ok [] else .ok (Text.encode "é".toList))
    ["-p".toList, "t".toList, "s".toList, "-t".toList, "1".toList] =
      ⟨1, [], line "Error: offset 1 is outside the script (2 bytes)".toList⟩ := by decide +kernel

end Command

end PluginScript
