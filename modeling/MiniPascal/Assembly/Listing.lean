import MiniPascal.Text.Blank

/-!
# Listings

An assembly text before it is set in columns: directives, labels and
instructions with their comments.  Rendering puts opcodes and operands in
columns and gives a label a line of its own when it does not fit the margin.
-/

namespace MiniPascal.Assembly

open MiniPascal.Text

inductive ListingLine
  | directive (text : String)
  | label (text : String)
  | instruction (label? : Option String) (opcode operands comment : String)
  deriving DecidableEq, Repr

namespace ListingLine

/-- The width of the margin, where a short label may stand. -/
def marginWidth : Nat := 8

def opcodeWidth : Nat := 7

def operandWidth : Nat := 23

/-- The margin in front of an instruction.  A label with its colon fits if it
has fewer bytes than the margin. -/
def margin : Option String → List Char
  | none => List.replicate marginWidth ' '
  | some name =>
    if name.utf8ByteSize < marginWidth then
      padRight marginWidth (name.toList ++ [':'])
    else
      name.toList ++ [':', '\n'] ++ List.replicate marginWidth ' '

/-- The comment at the end of a line, set off from the operands. -/
def commentColumn (comment : String) : List Char :=
  if comment.isEmpty then [] else ' ' :: '#' :: ' ' :: comment.toList

/-- The columns of an instruction, without blanks at the end. -/
def columns (opcode operands comment : String) : List Char :=
  trimEnd (padRight opcodeWidth opcode.toList ++ [' '] ++
    padRight operandWidth operands.toList ++ commentColumn comment)

/-- The line as text, with the line feed that ends it. -/
def render : ListingLine → List Char
  | directive text => text.toList ++ ['\n']
  | label text => text.toList ++ [':', '\n']
  | instruction label? opcode operands comment =>
    margin label? ++ columns opcode operands comment ++ ['\n']

/-- The label on the line, alone or in front of an instruction. -/
def label? : ListingLine → Option String
  | label text => some text
  | instruction label? _ _ _ => label?
  | directive _ => none

/-- The opcode and operands of an instruction. -/
def instruction? : ListingLine → Option (String × String)
  | instruction _ opcode operands _ => some (opcode, operands)
  | _ => none

end ListingLine

/-- A listing: its lines in order. -/
structure Listing where
  lines : List ListingLine
  deriving DecidableEq, Repr

namespace Listing

def empty : Listing where
  lines := []

def append (listing : Listing) (lines : List ListingLine) : Listing where
  lines := listing.lines ++ lines

/-- The opcode and operands of every instruction, in order. -/
def instructions (listing : Listing) : List (String × String) :=
  listing.lines.filterMap ListingLine.instruction?

def instructionCount (listing : Listing) : Nat :=
  listing.instructions.length

def count (listing : Listing) (opcode operands : String) : Nat :=
  listing.instructions.count (opcode, operands)

def labels (listing : Listing) : List String :=
  listing.lines.filterMap ListingLine.label?

def render (listing : Listing) : String :=
  String.ofList (listing.lines.flatMap ListingLine.render)

@[simp]
theorem instructions_append (listing : Listing) (lines : List ListingLine) :
    (listing.append lines).instructions =
      listing.instructions ++ lines.filterMap ListingLine.instruction? := by
  simp [append, instructions]

@[simp]
theorem labels_append (listing : Listing) (lines : List ListingLine) :
    (listing.append lines).labels =
      listing.labels ++ lines.filterMap ListingLine.label? := by
  simp [append, labels]

end Listing

end MiniPascal.Assembly
