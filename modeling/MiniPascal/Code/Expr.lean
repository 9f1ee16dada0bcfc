import MiniPascal.Code.Value

/-!
# Code of expressions

The code of an expression leaves its value in `eax`.  The left operand of an
operation waits on the stack while the right one is computed.  A routine takes
its arguments from the stack, the first on top; the library's routine is one
call of a run-time function for each argument, chosen by what the argument is.
-/

namespace MiniPascal

open MiniPascal.Assembly
open MiniPascal.Code

namespace Layout

/-- The display word that holds the frame pointer. -/
def base (layout : Layout) : Operand :=
  .memory (Frame.displayOffset layout.frameLevel) .ebp

/-- The word itself, with the frame pointer in `edx`. -/
def slot (layout : Layout) : Operand :=
  .memory layout.offset .edx

end Layout

namespace Code

def writeChar : Label := .global "write_char"

def writeInt : Label := .global "write_int"

def writeString : Label := .global "write_string"

/-- The labels of routines, latest first. -/
abbrev RoutineLabels := List (DeclId × Label)

/-- What code is written against: the program, and the labels of its routines. -/
structure Env where
  tree : Tree
  labels : RoutineLabels

open Emit

def storage (decl : Decl) : Except Fault Layout :=
  match decl.layout? with
  | some layout => .ok layout
  | none => .error (.noStorage decl.kindName decl.name decl.line)

def load (decl : Decl) : Emit Unit := do
  let layout ← ofExcept (storage decl)
  instruction (.move layout.base .edx)
  commented (.move layout.slot .eax) decl.name

def store (decl : Decl) : Emit Unit := do
  let layout ← ofExcept (storage decl)
  instruction (.move layout.base .edx)
  commented (.move .eax layout.slot) (decl.name ++ " :=")

/-- The operation on `eax` and `ecx`, with the result in `eax`. -/
def operation : BinaryOp → Emit Unit
  | .add => commented (.arith .add .ecx .eax) "+"
  | .subtract => commented (.arith .subtract .ecx .eax) "-"
  | .or => commented (.arith .or .ecx .eax) "or"
  | .multiply => commented (.arith .multiply .ecx .eax) "*"
  | .divide => do
    instruction .signExtend
    commented (.divide .ecx) "/"
  | .modulo => do
    instruction .signExtend
    instruction (.divide .ecx)
    commented (.move .edx .eax) "mod"
  | .and => commented (.arith .and .ecx .eax) "and"

/-- Calls the routine at a label, whose arguments are on the stack, and takes
them off again. -/
def callAt (label : Label) (args : Nat) : Emit Unit := do
  instruction (.call label)
  if args = 0 then
    return
  else
    commented (.arith .add (.immediate (Frame.wordSize * args)) .esp) "Pop parameters"

/-- Calls a routine, given the code that puts its arguments on the stack and
the code that writes them. -/
def call (env : Env) (id : DeclId) (args : Nat) (pushed written : Emit Unit) :
    Emit Unit := do
  let decl ← ofExcept (env.tree.declared id)
  match decl.kind.routine? with
  | none => stop (.notCallable decl.name decl.line)
  | some routine =>
    if routine.isBuiltin then
      written
    else do
      pushed
      match env.labels.lookup id with
      | some label => callAt label args
      | none => stop (.noLabel decl.name decl.line)

/-- Puts a text in the data section and its address in `eax`. -/
def textAddress (text : String) : Emit Unit := do
  let label ← freshLabel
  directive .dataSection
  line (.datum label text)
  directive (.align 2)
  directive .textSection
  commented (.loadAddress label .eax) "Addr(text)"

/-- Gives the word in `eax` to a run-time function. -/
def writeWith (function : Label) : Emit Unit := do
  instruction (.push .eax)
  instruction (.call function)
  commented (.arith .add (.immediate Frame.wordSize) .esp) "Pop parameter"

/-- The value of a name, given the code of its index. -/
def nameValue (env : Env) (ref : NameRef) (index : Emit Unit) : Emit Unit := do
  let id ← ofExcept ref.resolved
  let decl ← ofExcept (env.tree.declared id)
  match decl.kind with
  | .variableOf _ | .parameter _ => do
    index
    load decl
  | .constant _ | .enumLiteral _ => do
    let value ← ofExcept (env.tree.declValue decl)
    commented (.move (.immediate value) .eax) decl.name
  | .routine routine =>
    if routine.isFunction then call env id 0 (pure ()) (pure ())
    else stop (.notAValue decl.kindName decl.name ref.line)
  | .type _ => stop (.notAValue decl.kindName decl.name ref.line)

mutual

def expr (env : Env) : Expr → Emit Unit
  | .literal value _ => instruction (.move (.immediate value.value) .eax)
  | .name ref => nameValue env ref (pure ())
  | .element ref index => nameValue env ref (expr env index)
  | .call ref args => do
    let id ← ofExcept ref.resolved
    call env id args.length (pushAll env args) (writeAll env args)
  | .group inner _ => expr env inner
  | .negation operand _ => do
    expr env operand
    commented (.arith .xor (.immediate 1) .eax) "not"
  | .signed .plus operand _ => expr env operand
  | .signed .minus operand _ => do
    expr env operand
    commented (.negate .eax) "- (prefix)"
  | .binary op left right => do
    expr env left
    instruction (.push .eax)
    expr env right
    instruction (.move .eax .ecx)
    instruction (.pop .eax)
    operation op
  | .comparison relation left right => do
    expr env left
    instruction (.push .eax)
    expr env right
    instruction (.pop .ecx)
    instruction (.compare .eax .ecx)
    instruction (.move (.immediate 0) .eax)
    commented (.storeCondition relation (.register .al)) "Test"

/-- Computes arguments from the last to the first and pushes them. -/
def pushAll (env : Env) : List Expr → Emit Unit
  | [] => return
  | arg :: others => do
    pushAll env others
    expr env arg
    instruction (.push .eax)

/-- Writes arguments from the first to the last.  A bare text is written as a
text and a bare character as a character; all else is a number. -/
def writeAll (env : Env) : List Expr → Emit Unit
  | [] => return
  | arg :: others => do
    match env.tree.argumentLiteral? arg with
    | some (.text text) => do
      textAddress text
      writeWith writeString
    | some (.char _) => do
      expr env arg
      writeWith writeChar
    | _ => do
      expr env arg
      writeWith writeInt
    writeAll env others

end

end Code

end MiniPascal
