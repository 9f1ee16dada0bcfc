import MiniPascal.Binding
import MiniPascal.Scope

/-!
# Checking a tree

A tree is checked block by block, from the outside in.  In each block the
parameters come first, then the declarations in source order, each seeing only
what was declared before it; then the bodies of its routines, which see all of
them; then its statements.  Checking only annotates, and what was annotated
before a failure stays.
-/

namespace MiniPascal

/-! ### The library -/

namespace Library

private def typeNamed (type : BuiltinType) : Decl :=
  .bare type.name libraryLine (.type (.builtin type))

/-- What every program can use: the simple types, the truth values, the line
end and the procedure that writes its arguments. -/
def decls : List Decl :=
  [typeNamed .boolean,
   typeNamed .char,
   .bare "eol" libraryLine (.constant (.literal (.char '\n') libraryLine)),
   .bare "false" libraryLine (.enumLiteral 0),
   typeNamed .integer,
   .bare "true" libraryLine (.enumLiteral 1),
   .bare "write" libraryLine (.routine { result := none, params := [], body := none })]

end Library

/-- The state of a check. -/
structure Checking where
  tree : Tree
  /-- The open blocks.  Their bytes are counted exactly; counters of 32 bits agree with these
  up to 536870903 words in a frame. -/
  scope : Scope Int
  log : Log

/-- A step of a check.  A failure keeps the state reached. -/
abbrev Check := EStateM Diagnostic Checking

namespace Check

def onTree (step : Tree → Except Diagnostic Tree) : Check Unit := do
  match step (← get).tree with
  | .ok tree => modify fun checking => { checking with tree }
  | .error diagnostic => throw diagnostic

def ask {α : Type} (query : Tree → Except Diagnostic α) : Check α := do
  match query (← get).tree with
  | .ok answer => return answer
  | .error diagnostic => throw diagnostic

/-- Binds the names that a traversal visits, in a block.  The result and the
first failure are both given, for the caller to keep. -/
def bind {α : Type} (block : BlockId)
    (traversal : (NameUse → NameRef → StateM Binding NameRef) → StateM Binding α) :
    Check (α × Option Diagnostic) := do
  let checking ← get
  let (result, binding) :=
    (traversal (Binding.visit checking.tree block)).run { log := checking.log, failure? := none }
  set { checking with log := binding.log }
  return (result, binding.failure?)

/-- Binds the names that a traversal visits, all of which must be bound. -/
def bindAll {α : Type} (block : BlockId)
    (traversal : (NameUse → NameRef → StateM Binding NameRef) → StateM Binding α) :
    Check α := do
  match ← bind block traversal with
  | (result, none) => return result
  | (_, some diagnostic) => throw diagnostic

def bindParam (block : BlockId) (param : DeclId) : Check Unit := do
  match (← ask (·.decl param)).kind with
  | .parameter ref =>
    let ref ← bindAll block fun visit => visit .typeName ref
    onTree fun tree => .ok (tree.modifyDecl param fun decl => { decl with kind := .parameter ref })
  | _ => return

/-- Binds the names in a declaration, and gives its kind with them bound. -/
def bindKind (block : BlockId) : DeclKind → Check DeclKind
  | .constant value => return .constant (← bindAll block value.traverse)
  | .type type => return .type (← bindAll block type.traverse)
  | .variableOf type => return .variableOf (← bindAll block type.traverse)
  | .routine routine => do
    let result ← match routine.result with
      | some ref => some <$> bindAll block fun visit => visit .typeName ref
      | none => pure none
    routine.params.forM (bindParam block)
    return .routine { routine with result }
  | .parameter ref => return .parameter ref
  | .enumLiteral code => return .enumLiteral code

def allocate : Check Layout := do
  let checking ← get
  let (offset, scope) := checking.scope.allocate
  set { checking with scope }
  return { frameLevel := scope.current.frameLevel, offset }

/-- The storage of a declaration.  A variable has a word of the frame, and so
has the result of a function without parameters; the result of another function
lies in the function's own frame. -/
def layoutOf : DeclKind → Check (Option Layout)
  | .variableOf _ => some <$> allocate
  | .routine routine =>
    if routine.isFunction then
      if routine.isInline then
        some <$> allocate
      else do
        let frameLevel := (← get).scope.current.frameLevel + 1
        return some { frameLevel, offset := Frame.resultOffset }
    else
      return none
  | _ => return none

def literalsOf : DeclKind → List DeclId
  | .type type | .variableOf type => type.literals
  | _ => []

def enter (block : BlockId) (level : Nat) (id : DeclId) : Check Unit := do
  onTree (·.assignLevel id level)
  onTree (·.declare block id)

/-- Checks one declaration of a block.  Its names are bound before its own name
is visible. -/
def declare (block : BlockId) (id : DeclId) : Check Unit := do
  let level := (← get).scope.current.level
  let kind ← bindKind block (← ask (·.decl id)).kind
  let layout? ← layoutOf kind
  onTree fun tree => .ok (tree.modifyDecl id fun decl => { decl with kind })
  onTree (·.assignLevel id level)
  match layout? with
  | some layout => onTree (·.assignLayout id layout)
  | none => pure ()
  onTree (·.declare block id)
  (literalsOf kind).forM (enter block level)

/-- Enters the parameters of a routine in its body, with their storage. -/
def declareParams (block : BlockId) (level frameLevel : Nat) : Nat → List DeclId → Check Unit
  | _, [] => return
  | index, param :: others => do
    onTree (·.assignLevel param level)
    onTree (·.assignLayout param { frameLevel, offset := Frame.paramOffset index })
    onTree (·.declare block param)
    declareParams block level frameLevel (index + 1) others

def statements (block : BlockId) : Check Unit := do
  let statements := (← ask (·.block block)).statements
  let (statements, failure?) ← bind block fun visit => Statement.traverseAll visit statements
  onTree fun tree => .ok (tree.modifyBlock block fun block => { block with statements })
  match failure? with
  | some diagnostic => throw diagnostic
  | none => return

/-- Goes into a block and annotates it with its place. -/
def enterBlock (block : BlockId) (owner : String) (ownsFrame : Bool) : Check (ScopeLevel Int) := do
  modify fun checking => { checking with scope := checking.scope.push block ownsFrame }
  let current := (← get).scope.current
  let line := (← ask (·.block block)).line
  if current.frameLevel > Frame.maxLevel then
    throw (.nestingTooDeep owner current.frameLevel line)
  onTree fun tree => .ok (tree.modifyBlock block fun block =>
    { block with
      level := current.level
      frameLevel := current.frameLevel
      frameOwner? := some current.frameOwner })
  return current

/-- Leaves a block and annotates it with its storage. -/
def leaveBlock (block : BlockId) (ownsFrame : Bool) : Check Unit := do
  match (← get).scope.pop? with
  | none => throw Scope.emptyPop
  | some (summary, scope) =>
    modify fun checking => { checking with scope }
    onTree fun tree => .ok (tree.modifyBlock block fun block =>
      { block with
        localBytes := summary.ownBytes
        frameBytes := if ownsFrame then summary.frameBytes else block.frameBytes })

/-- Checks a block with the given owner and parameters, and the blocks inside
it down to the given depth. -/
def block : Nat → BlockId → String → List DeclId → Bool → Check Unit
  | 0, id, _, _, _ => throw (.danglingId id)
  | depth + 1, id, owner, params, ownsFrame => do
    let current ← enterBlock id owner ownsFrame
    declareParams id current.level current.frameLevel 0 params
    (← ask (·.block id)).declarations.forM (declare id)
    (← ask (·.block id)).routines.forM fun routineId => do
      let decl ← ask (·.decl routineId)
      match decl.kind.routine? with
      | some { body := some body, params, .. } =>
        block depth body decl.name params (!params.isEmpty)
      | _ => return
    statements id
    leaveBlock id ownsFrame

def declareLibrary (decl : Decl) : Check Unit := do
  let (id, tree) := (← get).tree.addDecl decl
  modify fun checking => { checking with tree }
  enter libraryBlock 0 id

/-- Checks a whole program.  The depth of its blocks is bounded by their number. -/
def program : Check Unit := do
  Library.decls.forM declareLibrary
  let tree := (← get).tree
  block (tree.blocks.size + 1) tree.body tree.name [] true
  modify fun checking => { checking with tree := { checking.tree with checked := true } }

end Check

/-- The outcome of checking a tree: success or the first diagnostic, the tree
as far as it was annotated, and the log. -/
structure Checked where
  result : Except Diagnostic Unit
  tree : Tree
  log : Log

/-- Checks a tree.  A tree that has been checked is left as it is. -/
def Tree.check (tree : Tree) (log : Log) : Checked :=
  if tree.checked then
    { result := .ok ()
      tree
      log := log.note "Tree is already checked; layout left unchanged" }
  else
    match Check.program.run { tree, scope := .library, log } with
    | .ok () checking => { result := .ok (), tree := checking.tree, log := checking.log }
    | .error diagnostic checking =>
      { result := .error diagnostic, tree := checking.tree, log := checking.log }

end MiniPascal
