import PluginScript.Text

/-! # Reading files

The library reads files through a reader: a function from paths to bytes that may fail. A text file
is one whose bytes are well-formed UTF-8.
-/

namespace PluginScript

/-- Why a file cannot be read as text. -/
inductive ReadError where
  /-- The path leads nowhere. -/
  | notFound
  /-- The path leads to a directory. -/
  | isDirectory
  /-- The path leads through something that is no directory. -/
  | notDirectory
  /-- The bytes are not well-formed UTF-8. -/
  | notText
  /-- Anything else, in the words of the system. -/
  | other (words : Text)
deriving DecidableEq, Repr

/-- The wording of a read error. -/
def ReadError.message : ReadError → Text
  | notFound => "No such file or directory (os error 2)".toList
  | isDirectory => "Is a directory (os error 21)".toList
  | notDirectory => "Not a directory (os error 20)".toList
  | notText => "stream did not contain valid UTF-8".toList
  | other words => words

/-- How files are read. -/
abbrev Reader := Text → Except ReadError (List UInt8)

/-- The text of a file. -/
def Reader.readText (reader : Reader) (path : Text) : Except ReadError Text :=
  match reader path with
  | .error cause => .error cause
  | .ok bytes =>
    match Text.decode? bytes with
    | some text => .ok text
    | none => .error .notText

end PluginScript
