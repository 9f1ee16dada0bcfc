/-!
# Diagnostics

Everything the compiler can refuse, each as a cause with what its message
needs.  The wording is in one place, `Diagnostic.message`; `Diagnostic.line?`
is the line the message points at.
-/

namespace MiniPascal

/-- Why a compilation, or a step of it, failed. -/
inductive Diagnostic
  /-- The input file was refused or could not be opened. -/
  | fileRead (reason : String)
  /-- The output file could not be written. -/
  | fileWrite (reason : String)
  /-- An opened file could not be read as text. -/
  | io (reason : String)
  /-- A character that begins no token. -/
  | illegalCharacter (character : Char) (line : Nat)
  /-- A comment that is never closed; the line is that of its opening. -/
  | unterminatedComment (line : Nat)
  /-- A text string that meets the end of its line first. -/
  | unterminatedString (line : Nat)
  /-- A digit run beyond the 32-bit range. -/
  | invalidNumber (digits : String) (line : Nat)
  /-- A token where the grammar wants another. -/
  | unexpectedToken (expected found : String) (line : Nat)
  /-- A name declared a second time in one block. -/
  | duplicateDeclaration (name : String) (line : Nat)
  /-- A name that no visible block declares. -/
  | undefinedSymbol (name : String) (line : Nat)
  /-- An assignment to something that holds no word. -/
  | notAssignable (name kind : String) (line : Nat)
  /-- A call of something that is no routine. -/
  | notARoutine (name kind : String) (line : Nat)
  /-- A function where a procedure is wanted, or the reverse. -/
  | routineKindMismatch (name expected found : String) (line : Nat)
  /-- A procedure used as a value. -/
  | procedureAsValue (name : String) (line : Nat)
  /-- Another name that is no value, used as one. -/
  | notAValue (name kind : String) (line : Nat)
  /-- A name used as a type that is none. -/
  | notAType (name kind : String) (line : Nat)
  /-- A name used as a constant that is none. -/
  | notAConstant (name kind : String) (line : Nat)
  /-- A call with the wrong number of arguments. -/
  | argumentCountMismatch (name : String) (expected found : Nat) (line : Nat)
  /-- More nested frames than a display holds. -/
  | nestingTooDeep (name : String) (level : Nat) (line : Nat)
  /-- A second attempt to fix the level or the storage of a declaration. -/
  | layoutAlreadyAssigned (name : String) (line : Nat)
  /-- Code could not be generated for a tree. -/
  | codeGeneration (reason : String) (line : Option Nat)
  /-- A step of the compiler was misused. -/
  | misuse (stage reason : String)
  /-- An id that stands for no entry of the tree. -/
  | danglingId (id : Nat)
  deriving DecidableEq, Repr

namespace Diagnostic

private def scannerMessage (line : Nat) (reason : String) : String :=
  "Scanner error on line " ++ toString line ++ ": " ++ reason

private def programMessage (line : Nat) (reason : String) : String :=
  "Error at line " ++ toString line ++ ": " ++ reason

def message : Diagnostic → String
  | fileRead reason => "File read error: " ++ reason
  | fileWrite reason => "File write error: " ++ reason
  | io reason => "I/O error: " ++ reason
  | illegalCharacter character line =>
    scannerMessage line ("Illegal character: '" ++ character.toString ++ "'!")
  | unterminatedComment line => scannerMessage line "No end for comment!"
  | unterminatedString line => scannerMessage line "Text string without end!"
  | invalidNumber digits line => scannerMessage line ("Invalid number '" ++ digits ++ "'")
  | unexpectedToken expected found line =>
    programMessage line ("Expected a " ++ expected ++ " but found a " ++ found ++ "!")
  | duplicateDeclaration name line =>
    programMessage line (name ++ " declared twice in same block!")
  | undefinedSymbol name line => programMessage line ("Name " ++ name ++ " is unknown!")
  | notAssignable name kind line =>
    programMessage line (kind ++ " " ++ name ++ " can not be assigned to!")
  | notARoutine name kind line =>
    programMessage line (kind ++ " " ++ name ++ " can not be called!")
  | routineKindMismatch name expected found line =>
    programMessage line (name ++ " is a " ++ found ++ ", expected a " ++ expected ++ "!")
  | procedureAsValue name line =>
    programMessage line ("Procedure " ++ name ++ " can not be used as a value!")
  | notAValue name kind line =>
    programMessage line (kind ++ " " ++ name ++ " can not be used as a value!")
  | notAType name kind line =>
    programMessage line (name ++ " is a " ++ kind ++ ", not a type!")
  | notAConstant name kind line =>
    programMessage line (name ++ " is a " ++ kind ++ ", not a constant!")
  | argumentCountMismatch name expected found line =>
    programMessage line (name ++ " expects " ++ toString expected ++
      " argument(s) but was given " ++ toString found ++ "!")
  | nestingTooDeep name level line =>
    programMessage line
      (name ++ " is nested too deeply (frame level " ++ toString level ++ ")!")
  | layoutAlreadyAssigned name line =>
    programMessage line ("storage for " ++ name ++ " was already laid out!")
  | codeGeneration reason (some line) =>
    "Code generation error at line " ++ toString line ++ ": " ++ reason
  | codeGeneration reason none => "Code generation error: " ++ reason
  | misuse stage reason => "Compilation error in " ++ stage ++ ": " ++ reason
  | danglingId id => "No entry has the id " ++ toString id

/-- The line the diagnostic points at, if it has one. -/
def line? : Diagnostic → Option Nat
  | illegalCharacter _ line | unterminatedComment line | unterminatedString line
  | invalidNumber _ line | unexpectedToken _ _ line | duplicateDeclaration _ line
  | undefinedSymbol _ line | notAssignable _ _ line | notARoutine _ _ line
  | routineKindMismatch _ _ _ line | procedureAsValue _ line | notAValue _ _ line
  | notAType _ _ line | notAConstant _ _ line | argumentCountMismatch _ _ _ line
  | nestingTooDeep _ _ line | layoutAlreadyAssigned _ line => some line
  | codeGeneration _ line => line
  | fileRead _ | fileWrite _ | io _ | misuse _ _ | danglingId _ => none

end Diagnostic

end MiniPascal
