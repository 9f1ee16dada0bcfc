import MiniPascal.CommandLine.Run

/-!
# The compiler as a program

The command line on the files, streams and clock of the system.
-/

namespace MiniPascal.CommandLine

/-- A time in seconds with three decimals, rounded. -/
def secondsText (nanoseconds : Nat) : String :=
  let milliseconds := (nanoseconds + 500000) / 1000000
  toString (milliseconds / 1000) ++ "." ++ Assembly.zeroPadded 3 (milliseconds % 1000)

/-- A piece of output as the terminal shows it. -/
def Piece.shown : Piece → String
  | text shown => shown
  | elapsed nanoseconds => secondsText nanoseconds ++ "s"
  | elapsedCell nanoseconds =>
    let seconds := secondsText nanoseconds
    String.ofList (List.replicate (9 - seconds.length) ' ') ++ seconds ++ " |"

/-- The file error behind an error of the system. The number of the error comes as it is from a
read or a write, and negated from an opening, so either sign counts. -/
def fileErrorOf : IO.Error → FileError
  | .noFileOrDirectory .. => .missing
  | .inappropriateType _ code reason =>
    if code = 20 || code = 0 - 20 then .notDirectory
    else if code = 21 || code = 0 - 21 then .isDirectory
    else .other reason
  | .invalidArgument _ code reason =>
    if code = 36 || code = 0 - 36 then .nameTooLong else .other reason
  | error => .other (toString error)

/-- An action of the system with its file error, if it has one. -/
def attempted {α : Type} (action : IO α) : IO (Except FileError α) := do
  try
    return .ok (← action)
  catch error =>
    return .error (fileErrorOf error)

instance : Host IO where
  readFile path := attempted (IO.FS.readBinFile path)
  writeFile path content := attempted (IO.FS.writeBinFile path content)
  print pieces := pieces.forM fun piece => IO.print piece.shown
  complain line := IO.eprintln line
  clock := IO.monoNanosNow

end MiniPascal.CommandLine

open MiniPascal.CommandLine in
/-- Runs the compiler on the arguments of the command line. -/
def main (arguments : List String) : IO UInt32 := do
  match Options.ofArguments? arguments with
  | some options => return (← run options).toUInt32
  | none => do
    IO.eprintln "error: one input path is needed, and each option at most once"
    return usageStatus.toUInt32
