import MiniPascal.Assembly.Instruction
import MiniPascal.Diagnostic
import MiniPascal.Expr

/-!
# Emitting code

An emission writes lines of code and draws label numbers from a counter.  It
may stop at a fault; what was written before stays written, and the numbers
drawn stay drawn.
-/

namespace MiniPascal.Code

open MiniPascal.Assembly

/-- Why no code can be written for a piece of a tree. -/
inductive Fault
  /-- The tree was never checked. -/
  | unchecked
  /-- A use of a name was never bound. -/
  | unresolved (name : String) (line : Nat)
  /-- A declaration has no place at run time. -/
  | noStorage (kind name : String) (line : Nat)
  /-- A routine is called that has no label yet. -/
  | noLabel (name : String) (line : Nat)
  /-- A declaration stands for no constant. -/
  | noValue (kind name : String) (line : Nat)
  /-- A constant whose definition leads back to itself. -/
  | cyclicConstant (name : String) (line : Nat)
  /-- A declaration stands where a routine should. -/
  | notARoutine (name : String) (line : Nat)
  /-- A routine whose code is wanted has none. -/
  | noBody (name : String) (line : Nat)
  /-- Something is called that is no routine. -/
  | notCallable (name : String) (line : Nat)
  /-- Something is used as a value that is none. -/
  | notAValue (kind name : String) (line : Nat)
  /-- A number stands for nothing in the tree. -/
  | danglingId (id : Nat)
  deriving DecidableEq, Repr

def Fault.diagnostic : Fault → Diagnostic
  | unchecked => .codeGeneration "The syntax tree has not been checked" none
  | unresolved name line => .codeGeneration ("Name " ++ name ++ " was never resolved") (some line)
  | noStorage kind name line =>
    .codeGeneration (kind ++ " " ++ name ++ " has no storage") (some line)
  | noLabel name line => .codeGeneration ("No label allocated for " ++ name) (some line)
  | noValue kind name line =>
    .codeGeneration (kind ++ " " ++ name ++ " has no constant value") (some line)
  | cyclicConstant name line =>
    .codeGeneration ("constant " ++ name ++ " is defined by itself") (some line)
  | notARoutine name line => .codeGeneration (name ++ " is not a routine") (some line)
  | noBody name line => .codeGeneration (name ++ " has no body") (some line)
  | notCallable name line => .codeGeneration (name ++ " can not be called") (some line)
  | notAValue kind name line =>
    .codeGeneration (kind ++ " " ++ name ++ " is not a value") (some line)
  | danglingId id => .danglingId id

/-- What an emission did: the lines it wrote, the label counter after it, and
its result. -/
structure Emission (α : Type) where
  lines : List Line
  counter : Nat
  result : Except Fault α

/-- An emission, from the label counter before it. -/
def Emit (α : Type) : Type :=
  Nat → Emission α

namespace Emit

variable {α β : Type}

def run (emit : Emit α) (counter : Nat) : Emission α :=
  emit counter

/-- One emission after another.  A fault in the first leaves the second out. -/
def andThen (first : Emit α) (second : α → Emit β) : Emit β := fun counter =>
  match first counter with
  | { lines, counter, result := .ok value } =>
    let rest := second value counter
    { rest with lines := lines ++ rest.lines }
  | { lines, counter, result := .error fault } => { lines, counter, result := .error fault }

instance : Monad Emit where
  pure value := fun counter => { lines := [], counter, result := .ok value }
  bind := andThen

def stop (fault : Fault) : Emit α := fun counter =>
  { lines := [], counter, result := .error fault }

/-- Goes on with a value, or stops at the fault of its computation. -/
def ofExcept (value : Except Fault α) : Emit α := fun counter =>
  { lines := [], counter, result := value }

def freshNumber : Emit Nat := fun counter =>
  { lines := [], counter := counter + 1, result := .ok (counter + 1) }

/-- A fresh label for a branch or a datum. -/
def freshLabel : Emit Label := do
  return .numbered (← freshNumber)

def line (line : Line) : Emit Unit := fun counter =>
  { lines := [line], counter, result := .ok () }

def commented (instruction : Instruction) (comment : String) : Emit Unit :=
  line (.instruction none instruction comment)

def instruction (instruction : Instruction) : Emit Unit :=
  commented instruction ""

def labelled (label : Label) (instruction : Instruction) (comment : String) : Emit Unit :=
  line (.instruction (some label) instruction comment)

def label (label : Label) : Emit Unit :=
  line (.label label)

def directive (directive : Directive) : Emit Unit :=
  line (.directive directive)

@[simp]
theorem run_pure (value : α) (counter : Nat) :
    (pure value : Emit α).run counter = { lines := [], counter, result := .ok value } := rfl

@[simp]
theorem run_stop (fault : Fault) (counter : Nat) :
    (stop fault : Emit α).run counter = { lines := [], counter, result := .error fault } := rfl

@[simp]
theorem run_line (text : Line) (counter : Nat) :
    (line text).run counter = { lines := [text], counter, result := .ok () } := rfl

@[simp]
theorem run_freshNumber (counter : Nat) :
    freshNumber.run counter =
      { lines := [], counter := counter + 1, result := .ok (counter + 1) } := rfl

end Emit

end MiniPascal.Code
