import PluginScript.Completion
import PluginScript.Table

/-! # The command

The command reads a plugin table and a script, and prints the prepared script, the plugins that
the script needs, or the tokens in front of a cursor. Its arguments may come in any order, and the
last of several flags of a kind counts. What it does is a function of its arguments and of a
reader of files: the text on each output, and the exit code.

The system hands arguments over as bytes. They are taken for texts before anything else is looked
at, and an argument that is no text is a crash, even beside a request for help.
-/

namespace PluginScript.Command

/-- What the command is asked for. -/
inductive Mode where
  | prepare
  | dependencies
  | tokens (cursor : Nat)
deriving DecidableEq, Repr

/-- The arguments of a run. -/
structure Options where
  plugins : Text
  script : Text
  mode : Mode
deriving DecidableEq, Repr

/-- What the arguments ask for. -/
inductive Request where
  | help
  | misuse
  | run (options : Options)
deriving DecidableEq, Repr

/-- A cursor in decimal digits, with an optional plus sign in front, that fits in 64 bits. -/
def cursor? (text : Text) : Option Nat :=
  let digits := (['+'].isPrefixOf? text).getD text
  if digits.isEmpty || !digits.all Char.isDigit then none
  else
    let value := Nat.ofDigitChars 10 digits 0
    if value < UInt64.size then some value else none

/-- What the arguments have said so far. -/
structure Draft where
  plugins : Option Text
  script : Option Text
  mode : Mode
deriving DecidableEq, Repr

/-- The draft before the first argument. -/
def Draft.initial : Draft := ⟨none, none, .prepare⟩

/-- Takes the arguments one by one. A flag that lacks its value and a second script are misuse. -/
def Draft.extend? (draft : Draft) : List Text → Option Draft
  | [] => some draft
  | argument :: rest =>
    if argument == "-p".toList || argument == "--plugins".toList then
      match rest with
      | [] => none
      | value :: rest => extend? { draft with plugins := some value } rest
    else if argument == "-d".toList || argument == "--deps".toList then
      extend? { draft with mode := .dependencies } rest
    else if argument == "-t".toList || argument == "--tokens".toList then
      match rest with
      | [] => none
      | value :: rest =>
        match cursor? value with
        | none => none
        | some cursor => extend? { draft with mode := .tokens cursor } rest
    else
      match draft.script with
      | none => extend? { draft with script := some argument } rest
      | some _ => none

/-- The options of a draft that names both files. -/
def Draft.options? (draft : Draft) : Option Options :=
  match draft.plugins, draft.script with
  | some plugins, some script => some ⟨plugins, script, draft.mode⟩
  | _, _ => none

/-- The options that the arguments say. -/
def Options.ofArguments? (arguments : List Text) : Option Options :=
  (Draft.initial.extend? arguments).bind Draft.options?

/-- What the arguments ask for. A request for help counts wherever it stands. -/
def Request.ofArguments (arguments : List Text) : Request :=
  if arguments.any fun argument => argument == "-h".toList || argument == "--help".toList then
    .help
  else
    match Options.ofArguments? arguments with
    | some options => .run options
    | none => .misuse

/-- What a run of the command leaves behind. -/
structure Outcome where
  code : Nat
  output : Text
  errors : Text
deriving DecidableEq, Repr

/-- A text with a line end. -/
def line (text : Text) : Text := text ++ ['\n']

/-- How the command is used. -/
def usage : Text :=
  [ "scriptprep - script preprocessing for plugin globals",
    "",
    "Usage:",
    "  scriptprep --plugins <table> <script>                    Print the prepared script",
    "  scriptprep --plugins <table> --deps <script>             List plugins the script uses",
    "  scriptprep --plugins <table> --tokens <offset> <script>  Completion tokens at offset",
    "",
    "Set RUST_LOG=debug to trace what gets rewritten." ].flatMap fun row => line row.toList

/-- Why a run stops before its end. -/
inductive Stop where
  /-- There is something to complain about. -/
  | complaint (words : Text)
  /-- An assertion fails. -/
  | crash (words : Text)
deriving DecidableEq, Repr

/-- A part of a run. It may print, and it may stop the run; what is printed stays printed. -/
abbrev Step := EStateM Stop Text

/-- Prints a text. -/
def print (text : Text) : Step Unit :=
  modify (· ++ text)

/-- Prints a text with a line end. -/
def printLine (text : Text) : Step Unit :=
  print (line text)

/-- The value of an outcome, or a stop for its failure. -/
def orStop {ε α : Type} (stop : ε → Stop) : Except ε α → Step α
  | .ok value => pure value
  | .error failure => throw (stop failure)

/-- The line with the tokens of a chain. -/
def tokenLine (chain : Completion.Chain) : Text :=
  List.intercalate [' '] chain.tokens

/-- The line about the last token of a chain. -/
def spanLine (chain : Completion.Chain) : Text :=
  "last token at ".toList ++ Text.ofNat chain.lastStart ++ " (length ".toList ++
    Text.ofNat chain.lastLength ++ ")".toList

/-- Whether a cursor is no position in a script. -/
def isOutside (script : Text) (cursor : Nat) : Bool :=
  decide (script.byteLength < cursor) || !script.isBoundary cursor

/-- The complaint about a cursor that is no position in a script. -/
def outsideComplaint (script : Text) (cursor : Nat) : Text :=
  "offset ".toList ++ Text.ofNat cursor ++ " is outside the script (".toList ++
    Text.ofNat script.byteLength ++ " bytes)".toList

/-- Prints what is asked for about a script. The chain of tokens is only asked for where there is
one: for any other cursor, asking for it is a crash. -/
def answer (registry : Registry) (script : Text) : Mode → Step Unit
  | .prepare => print (registry.prepare script)
  | .dependencies => (registry.dependencies script).forM fun plugin => printLine plugin.name
  | .tokens cursor => do
    if isOutside script cursor then
      throw (.complaint (outsideComplaint script cursor))
    let chain ← orStop (fun invalid => .crash invalid.message) (Completion.chain script cursor)
    printLine (tokenLine chain)
    printLine (spanLine chain)

/-- The registry of the table in a file. -/
def loadRegistry (reader : Reader) (path : Text) : Except Failure Registry :=
  match Table.load reader path with
  | .error failure => .error failure
  | .ok table =>
    match table.registry with
    | .error cause => .error (.rejected cause)
    | .ok registry => .ok registry

/-- The complaint about a script that cannot be read. -/
def scriptComplaint (path : Text) (cause : ReadError) : Text :=
  "failed to read '".toList ++ path ++ "': ".toList ++ cause.message

/-- Does what the options say. The table is read before the script. -/
def perform (reader : Reader) (options : Options) : Step Unit := do
  let registry ← orStop (fun failure => .complaint failure.message)
    (loadRegistry reader options.plugins)
  let script ← orStop (fun cause => .complaint (scriptComplaint options.script cause))
    (reader.readText options.script)
  answer registry script options.mode

/-- Runs the command on arguments that are texts. -/
def runOnTexts (reader : Reader) (arguments : List Text) : Outcome :=
  match Request.ofArguments arguments with
  | .help => ⟨0, [], usage⟩
  | .misuse => ⟨1, [], usage⟩
  | .run options =>
    match (perform reader options).run [] with
    | .ok () output => ⟨0, output, []⟩
    | .error (.complaint words) output => ⟨1, output, line ("Error: ".toList ++ words)⟩
    | .error (.crash words) output => ⟨101, output, line words⟩

/-- What is said about an argument that is no text, without the argument. -/
def undecodable : Text := "called `Result::unwrap()` on an `Err` value".toList

/-- Runs the command on the arguments that the system hands over. -/
def run (reader : Reader) (arguments : List (List UInt8)) : Outcome :=
  match Text.decodeAll? arguments with
  | none => ⟨101, [], line undecodable⟩
  | some texts => runOnTexts reader texts

/-- The files that a run of the command may read. -/
def paths (arguments : List (List UInt8)) : List Text :=
  match (Text.decodeAll? arguments).map Request.ofArguments with
  | some (.run options) => [options.plugins, options.script]
  | _ => []

end PluginScript.Command
