import MiniPascal.Files.FileSystem

/-!
# Hosts

What a run of the compiler needs around it: files, two streams for text, and a
clock.  A recorded host keeps all of it as a value, with a clock that stands
still, so that a whole run is a function.
-/

namespace MiniPascal.CommandLine

/-- A piece of the standard output. -/
inductive Piece
  | text (text : String)
  /-- An elapsed time in running text, in nanoseconds. -/
  | elapsed (nanoseconds : Nat)
  /-- An elapsed time at the end of a table row, in nanoseconds. -/
  | elapsedCell (nanoseconds : Nat)
  deriving DecidableEq, Repr

/-- The surroundings of a run. -/
class Host (m : Type → Type) where
  readFile : String → m (Except FileError ByteArray)
  writeFile : String → ByteArray → m (Except FileError Unit)
  /-- Prints pieces on the standard output. -/
  print : List Piece → m Unit
  /-- Prints a line on the standard error. -/
  complain : String → m Unit
  /-- The time since some fixed moment, in nanoseconds. -/
  clock : m Nat

/-- What can fail on its own account runs on the same host. -/
instance {ε : Type} {m : Type → Type} [Monad m] [Host m] : Host (ExceptT ε m) where
  readFile path := ExceptT.lift (Host.readFile path)
  writeFile path content := ExceptT.lift (Host.writeFile path content)
  print pieces := ExceptT.lift (Host.print pieces)
  complain line := ExceptT.lift (Host.complain line)
  clock := ExceptT.lift Host.clock

/-- A host as a value: its files, and what was printed so far. -/
structure Recorded where
  files : FileSystem
  output : List Piece
  complaints : List String

instance : Host (StateM Recorded) where
  readFile path := return (← get).files.read path
  writeFile path content := do
    match (← get).files.write path content with
    | .ok files =>
      modify fun host => { host with files }
      return .ok ()
    | .error error => return .error error
  print pieces := modify fun host => { host with output := host.output ++ pieces }
  complain line := modify fun host => { host with complaints := host.complaints ++ [line] }
  clock := return 0

end MiniPascal.CommandLine
