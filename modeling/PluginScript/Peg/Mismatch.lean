import PluginScript.Peg.Attempts

/-! # Reports of mismatches

A mismatch is reported with its line and column, the line itself, a mark below the place, and the
rules that would have been welcome there. Lines end with a line feed, which belongs to them, and
columns count characters. If the place is a line end, the line ends of the line are shown as
visible symbols; otherwise they are left out.
-/

namespace PluginScript.Peg.Mismatch

variable {ρ : Type}

/-- A line break made visible. -/
def visibleBreak (c : Char) : Char :=
  if c = '\r' then '\u240D' else if c = '\n' then '\u240A' else c

def isBreak (c : Char) : Bool :=
  c == '\r' || c == '\n'

/-- Where a mismatch is in its text, and how its line is shown. -/
structure Place where
  line : Nat
  column : Nat
  shown : Text
deriving DecidableEq, Repr

/-- The place between a text and what follows it. -/
def Place.between (before after : Text) : Place :=
  let lineStart := (before.reverse.takeWhile fun c => c != '\n').reverse
  let lineRest := after.takeWhile fun c => c != '\n'
  let whole := lineStart ++ lineRest ++ (after.drop lineRest.length).take 1
  let atBreak := (after.take 1).any isBreak
  { line := before.count '\n' + 1
    column := lineStart.length + 1
    shown := if atBreak then whole.map visibleBreak else whole.filter fun c => !isBreak c }

/-- The place of a mismatch. -/
def place (mismatch : Mismatch ρ) : Place :=
  match mismatch.text.splitAtByte? mismatch.position with
  | some (before, after) => .between before after
  | none => .between mismatch.text []

/-- A list of names in words. -/
def enumerate : List Text → Text
  | [] => []
  | [name] => name
  | [first, second] => first ++ " or ".toList ++ second
  | names =>
    (names.dropLast.flatMap fun name => name ++ ", ".toList) ++ "or ".toList ++
      names.getLast?.getD []

/-- What a report says about the expected rules, in the order of the list of all rules. -/
def summary [BEq ρ] (rules : List ρ) (label : ρ → Text) (mismatch : Mismatch ρ) : Text :=
  match rules.filter fun rule => mismatch.expected.contains rule with
  | [] => "unknown parsing error".toList
  | expected => "expected ".toList ++ enumerate (expected.map label)

/-- The report of a mismatch. -/
def report [BEq ρ] (rules : List ρ) (label : ρ → Text) (mismatch : Mismatch ρ) : Text :=
  let place := mismatch.place
  let line := Text.ofNat place.line
  let margin := line.map fun _ => ' '
  let underline := (place.shown.take (place.column - 1)).map fun c => if c = '\t' then c else ' '
  let rows : List Text := [
    margin ++ "--> ".toList ++ line ++ ":".toList ++ Text.ofNat place.column,
    margin ++ " |".toList,
    line ++ " | ".toList ++ place.shown,
    margin ++ " | ".toList ++ underline ++ "^---".toList,
    margin ++ " |".toList,
    margin ++ " = ".toList ++ summary rules label mismatch]
  List.intercalate ['\n'] rows

end PluginScript.Peg.Mismatch
