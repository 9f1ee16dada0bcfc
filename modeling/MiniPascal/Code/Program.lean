import MiniPascal.Code.Statement

/-!
# Code of programs

The routines of a block come before the code that contains them, nested ones
first, and all of them have their labels before any of their code is written,
so routines of one block can call each other in any order.  A body that owns a
frame makes it and takes it down; the others run in the frame of their caller.
-/

namespace MiniPascal.Code

open MiniPascal.Assembly
open Emit

def labelStem (kind : DeclKind) : String :=
  match kind.routine? with
  | some routine => if routine.isFunction then Label.functionStem else Label.procedureStem
  | none => Label.procedureStem

def blockOf (tree : Tree) (id : BlockId) : Except Fault Block :=
  match tree.blocks[id]? with
  | some block => .ok block
  | none => .error (.danglingId id)

def labelRoutines (tree : Tree) (labels : RoutineLabels) : List DeclId → Emit RoutineLabels
  | [] => return labels
  | id :: others => do
    let decl ← ofExcept (tree.declared id)
    let number ← freshNumber
    labelRoutines tree ((id, .unit (labelStem decl.kind) decl.name number) :: labels) others

/-- The code of a body that owns a frame. -/
def framedBody (env : Env) (name : String) (isFunction : Bool) (label : Label)
    (body : Block) : Emit Unit := do
  labelled label (.enter (Frame.size body.frameBytes) body.frameLevel) ("Start of " ++ name)
  statements env body.statements
  if isFunction then
    commented (.move (.memory Frame.resultOffset .ebp) .eax) "Fetch return value"
  instruction .leave
  commented .ret ("End of " ++ name)

/-- The code of a body that runs in the frame of its caller. -/
def inlineBody (env : Env) (decl : Decl) (isFunction : Bool) (label : Label)
    (body : Block) : Emit Unit := do
  Emit.label label
  statements env body.statements
  if isFunction then
    let layout ← ofExcept (storage decl)
    instruction (.move layout.base .edx)
    commented (.move layout.slot .eax) "Fetch return value"
  commented .ret ("End of " ++ decl.name)

/-- The code of a routine after that of the routines inside it, given the code
of the routines of a block.  The labels drawn are added to those given. -/
def routine (inside : BlockId → RoutineLabels → Emit RoutineLabels) (tree : Tree)
    (id : DeclId) (labels : RoutineLabels) : Emit RoutineLabels := do
  let decl ← ofExcept (tree.declared id)
  match decl.kind.routine? with
  | none => stop (.notARoutine decl.name decl.line)
  | some routine =>
    match routine.body with
    | none => stop (.noBody decl.name decl.line)
    | some bodyId => do
      let labels ← inside bodyId labels
      match labels.lookup id with
      | none => stop (.noLabel decl.name decl.line)
      | some label => do
        let body ← ofExcept (blockOf tree bodyId)
        if body.ownsFrame bodyId then
          framedBody { tree, labels } decl.name routine.isFunction label body
        else
          inlineBody { tree, labels } decl routine.isFunction label body
        return labels

def routines (inside : BlockId → RoutineLabels → Emit RoutineLabels) (tree : Tree) :
    List DeclId → RoutineLabels → Emit RoutineLabels
  | [], labels => return labels
  | id :: others, labels => do
    let labels ← routine inside tree id labels
    routines inside tree others labels

/-- The code of the routines of a block, at most a given number of blocks deep. -/
def blockRoutines (tree : Tree) : Nat → BlockId → RoutineLabels → Emit RoutineLabels
  | 0, id, _ => stop (.danglingId id)
  | depth + 1, id, labels => do
    let ids := (← ofExcept (blockOf tree id)).routines
    let labels ← labelRoutines tree labels ids
    routines (blockRoutines tree depth) tree ids labels

/-- The directives that name the run-time functions and the entry points, and
the entry that calls the program. -/
def entry (program : Label) : Emit Unit := do
  directive (.external writeChar.text)
  directive (.external writeInt.text)
  directive (.external writeString.text)
  directive (.global "_main")
  directive (.global "main")
  label (.global "_main")
  labelled (.global "main") (.call program) "Start program"
  commented (.move (.immediate 0) .eax) "Set status 0 and"
  commented .ret "terminate the program"

/-- The code of a checked tree under a name. -/
def program (tree : Tree) (name : String) : Emit Unit := do
  if tree.checked then
    let label := .unit Label.programStem name (← freshNumber)
    entry label
    let labels ← blockRoutines tree (tree.blocks.size + 1) tree.body []
    let body ← ofExcept (blockOf tree tree.body)
    framedBody { tree, labels } name false label body
  else
    stop .unchecked

end MiniPascal.Code
