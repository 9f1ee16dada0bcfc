import MiniPascal.Diagnostic
import MiniPascal.Frame
import MiniPascal.Statement

/-!
# Program trees

A numbered program: its blocks and its declarations lie in two arrays and
refer to each other by number.  Block zero is the library's.  The later stages
only annotate a tree: they bind uses of names, fill the tables of blocks, and
fix levels and storage, each of which can be fixed once.
-/

namespace MiniPascal

/-- Where a word lives at run time: the level of its frame, and the offset from
that frame's pointer. -/
structure Layout where
  frameLevel : Nat
  offset : Int
  deriving DecidableEq, Repr

/-- A routine.  A result type makes it a function; only the library's routine
has no body. -/
structure Routine where
  result : Option NameRef
  params : List DeclId
  body : Option BlockId
  deriving DecidableEq, Repr

inductive RoutineClass
  | procedure | function
  deriving DecidableEq, Repr

def RoutineClass.name : RoutineClass → String
  | procedure => "procedure"
  | function => "function"

namespace Routine

/-- Whether the routine returns a value. -/
def isFunction (routine : Routine) : Bool :=
  routine.result.isSome

def routineClass (routine : Routine) : RoutineClass :=
  if routine.isFunction then .function else .procedure

/-- A routine without parameters runs in the frame of its caller. -/
def isInline (routine : Routine) : Bool :=
  routine.params.isEmpty

/-- Whether the routine is the library's. -/
def isBuiltin (routine : Routine) : Bool :=
  routine.body.isNone

end Routine

/-- What a declaration declares. -/
inductive DeclKind
  | constant (value : Constant)
  | type (type : TypeExpr DeclId)
  | variableOf (type : TypeExpr DeclId)
  | parameter (type : NameRef)
  | enumLiteral (code : Int)
  | routine (routine : Routine)
  deriving DecidableEq, Repr

namespace DeclKind

def name : DeclKind → String
  | constant _ => "constant"
  | type _ => "type"
  | variableOf _ => "variable"
  | parameter _ => "parameter"
  | enumLiteral _ => "enumeration literal"
  | routine r => r.routineClass.name

def routine? : DeclKind → Option Routine
  | routine r => some r
  | _ => none

theorem routine?_eq_some_iff {kind : DeclKind} {heading : Routine} :
    kind.routine? = some heading ↔ kind = .routine heading := by
  cases kind <;> simp [routine?]

end DeclKind

/-- A declaration.  The level of its block and its storage are fixed by the
checker, once. -/
structure Decl where
  name : String
  line : Nat
  kind : DeclKind
  level? : Option Nat
  layout? : Option Layout
  deriving DecidableEq, Repr

namespace Decl

/-- A declaration that is not yet annotated. -/
def bare (name : String) (line : Nat) (kind : DeclKind) : Decl :=
  { name, line, kind, level? := none, layout? := none }

abbrev kindName (decl : Decl) : String :=
  decl.kind.name

def assignLevel (level : Nat) (decl : Decl) : Except Diagnostic Decl :=
  match decl.level? with
  | some _ => .error (.layoutAlreadyAssigned decl.name decl.line)
  | none => .ok { decl with level? := some level }

def assignLayout (layout : Layout) (decl : Decl) : Except Diagnostic Decl :=
  match decl.layout? with
  | some _ => .error (.layoutAlreadyAssigned decl.name decl.line)
  | none => .ok { decl with layout? := some layout }

end Decl

/-- A declaration part of a block. -/
inductive DeclPart
  | constants (decls : List DeclId)
  | types (decls : List DeclId)
  | vars (decls : List DeclId)
  | routine (decl : DeclId)
  deriving DecidableEq, Repr

namespace DeclPart

def decls : DeclPart → List DeclId
  | constants decls | types decls | vars decls => decls
  | routine decl => [decl]

def routine? : DeclPart → Option DeclId
  | routine decl => some decl
  | _ => none

end DeclPart

/-- A block.  The fields from the table on are annotations. -/
structure Block where
  line : Nat
  parts : List DeclPart
  statements : List Statement
  enclosing? : Option BlockId
  table : List (String × DeclId)
  level : Nat
  frameLevel : Nat
  /-- The block in whose frame the variables of this one lie. -/
  frameOwner? : Option BlockId
  /-- The bytes of the block's own variables. -/
  localBytes : Int
  /-- The bytes of the block's frame, if it owns one. -/
  frameBytes : Int
  deriving Repr

namespace Block

def bare (enclosing? : Option BlockId) (line : Nat) : Block where
  line
  parts := []
  statements := []
  enclosing?
  table := []
  level := 0
  frameLevel := 0
  frameOwner? := none
  localBytes := 0
  frameBytes := 0

def declarations (block : Block) : List DeclId :=
  block.parts.flatMap DeclPart.decls

def routines (block : Block) : List DeclId :=
  block.parts.filterMap DeclPart.routine?

/-- Whether the block, whose number is given, has a frame of its own. -/
def ownsFrame (block : Block) (id : BlockId) : Bool :=
  block.frameOwner? == some id

end Block

def libraryLine : Nat := 0

def libraryBlock : BlockId := 0

/-- A numbered program. -/
structure Tree where
  name : String
  line : Nat
  /-- The program's own block. -/
  body : BlockId
  checked : Bool
  blocks : Array Block
  decls : Array Decl
  deriving Repr

namespace Tree

def addDecl (decl : Decl) (tree : Tree) : DeclId × Tree :=
  (tree.decls.size, { tree with decls := tree.decls.push decl })

def modifyBlock (id : BlockId) (change : Block → Block) (tree : Tree) : Tree :=
  { tree with blocks := tree.blocks.modify id change }

def modifyDecl (id : DeclId) (change : Decl → Decl) (tree : Tree) : Tree :=
  { tree with decls := tree.decls.modify id change }

def block (tree : Tree) (id : BlockId) : Except Diagnostic Block :=
  match tree.blocks[id]? with
  | some block => .ok block
  | none => .error (.danglingId id)

def decl (tree : Tree) (id : DeclId) : Except Diagnostic Decl :=
  match tree.decls[id]? with
  | some decl => .ok decl
  | none => .error (.danglingId id)

def assignLevel (id : DeclId) (level : Nat) (tree : Tree) : Except Diagnostic Tree := do
  let decl ← (← tree.decl id).assignLevel level
  return tree.modifyDecl id fun _ => decl

def assignLayout (id : DeclId) (layout : Layout) (tree : Tree) : Except Diagnostic Tree := do
  let decl ← (← tree.decl id).assignLayout layout
  return tree.modifyDecl id fun _ => decl

/-- Enters a declaration in the table of a block, where its name may stand once. -/
def declare (block : BlockId) (id : DeclId) (tree : Tree) : Except Diagnostic Tree := do
  let decl ← tree.decl id
  let target ← tree.block block
  if (target.table.lookup decl.name).isSome then
    throw (.duplicateDeclaration decl.name decl.line)
  return tree.modifyBlock block fun block =>
    { block with table := (decl.name, id) :: block.table }

/-! ### Visibility -/

/-- The block and those around it, from the inside out, at most a given number
of them. -/
def chainWithin (tree : Tree) : Nat → BlockId → List BlockId
  | 0, _ => []
  | depth + 1, id =>
    id :: match tree.blocks[id]?.bind Block.enclosing? with
      | some outer => chainWithin tree depth outer
      | none => []

/-- The block and all those around it, from the inside out to the library. -/
def chain (tree : Tree) (id : BlockId) : List BlockId :=
  tree.chainWithin (tree.blocks.size + 1) id

/-- The declaration a name stands for in a block: that of the nearest block
around it whose table has the name. -/
def lookup (tree : Tree) (id : BlockId) (name : String) : Option DeclId :=
  (tree.chain id).findSome? fun outer =>
    tree.blocks[outer]?.bind fun block => block.table.lookup name

/-- Whether the first block is the second or lies inside it. -/
def isWithin (tree : Tree) (inner outer : BlockId) : Bool :=
  (tree.chain inner).contains outer

end Tree

end MiniPascal
