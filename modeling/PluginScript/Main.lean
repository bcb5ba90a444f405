import PluginScript.Command

/-! # The program

Reads the files that the command needs, runs it on them, and prints what it leaves behind. The
arguments come here as strings, and are handed on as the bytes that encode them.
-/

namespace PluginScript.Command

/-- The number of a system error, which may have been handed over with its sign turned. -/
def systemNumber (code : UInt32) : Nat :=
  min code.toNat (UInt32.size - code.toNat)

/-- What the library knows of a system error. -/
def readErrorOf : IO.Error → ReadError
  | .noFileOrDirectory .. => .notFound
  | .inappropriateType _ code _ =>
    if systemNumber code = 21 then .isDirectory else .notDirectory
  | error => .other (toString error).toList

/-- Reads one file. -/
def readFile (path : Text) : IO (Except ReadError (List UInt8)) := do
  try
    return .ok (← IO.FS.readBinFile (String.ofList path)).toList
  catch error =>
    return .error (readErrorOf error)

/-- A reader of the given files, from what was read of them. -/
def readerOf (contents : List (Text × Except ReadError (List UInt8))) : Reader := fun path =>
  (contents.lookup path).getD (.error .notFound)

end PluginScript.Command

open PluginScript in
/-- Runs the command on the arguments of the program. -/
def main (arguments : List String) : IO UInt32 := do
  let arguments := arguments.map fun argument => Text.encode argument.toList
  let contents ← (Command.paths arguments).mapM fun path =>
    return (path, ← Command.readFile path)
  let outcome := Command.run (Command.readerOf contents) arguments
  IO.print (String.ofList outcome.output)
  IO.eprint (String.ofList outcome.errors)
  return outcome.code.toUInt32
