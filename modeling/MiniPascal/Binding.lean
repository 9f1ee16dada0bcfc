import MiniPascal.Log
import MiniPascal.Tree

/-!
# Binding names

Every use of a name in a program is bound to the nearest visible declaration of
that name, and the place of the use restricts what kind of declaration it may
be.  A traversal visits the uses of a type, an expression or a statement in the
order of the text; binding is one traversal, which stops changing anything at
the first use that fails.
-/

namespace MiniPascal

/-- What a name is used as. -/
inductive NameUse
  | typeName
  | constant
  | target
  | value
  /-- A call of a routine of the class, with a number of arguments. -/
  | call (routineClass : RoutineClass) (args : Nat)
  deriving DecidableEq, Repr

namespace NameUse

/-- Whether a block may assign to what is declared: a variable, a parameter, or
the result of a function that the block lies in. -/
def isAssignable (tree : Tree) (block : BlockId) : DeclKind → Bool
  | .variableOf _ | .parameter _ => true
  | .routine routine =>
    match routine.body with
    | some body => routine.isFunction && tree.isWithin block body
    | none => false
  | _ => false

/-- What speaks against calling a declaration. -/
def callObjection? (ref : NameRef) (decl : Decl) (routineClass : RoutineClass) (args : Nat) :
    Option Diagnostic :=
  match decl.kind.routine? with
  | none => some (.notARoutine ref.name decl.kindName ref.line)
  | some routine =>
    if routine.routineClass ≠ routineClass then
      some (.routineKindMismatch ref.name routineClass.name routine.routineClass.name ref.line)
    else if routine.isBuiltin = false ∧ routine.params.length ≠ args then
      some (.argumentCountMismatch ref.name routine.params.length args ref.line)
    else none

def valueObjection? (ref : NameRef) (decl : Decl) : Option Diagnostic :=
  match decl.kind with
  | .variableOf _ | .parameter _ | .constant _ | .enumLiteral _ => none
  | .type _ => some (.notAValue ref.name decl.kindName ref.line)
  | .routine routine =>
    match routine.routineClass with
    | .procedure => some (.procedureAsValue ref.name ref.line)
    | .function =>
      if routine.params.isEmpty then none
      else some (.argumentCountMismatch ref.name routine.params.length 0 ref.line)

/-- What speaks against using a declaration in this way inside a block. -/
def objection? (tree : Tree) (block : BlockId) (ref : NameRef) (decl : Decl) :
    NameUse → Option Diagnostic
  | typeName =>
    match decl.kind with
    | .type _ => none
    | _ => some (.notAType ref.name decl.kindName ref.line)
  | constant =>
    match decl.kind with
    | .constant _ | .enumLiteral _ => none
    | _ => some (.notAConstant ref.name decl.kindName ref.line)
  | target =>
    if isAssignable tree block decl.kind then none
    else some (.notAssignable ref.name decl.kindName ref.line)
  | value => valueObjection? ref decl
  | call routineClass args => callObjection? ref decl routineClass args

end NameUse

/-! ### Traversals -/

section Traversal

variable {m : Type → Type} [Monad m] (visit : NameUse → NameRef → m NameRef)

def Constant.traverse : Constant → m Constant
  | .literal value line => return .literal value line
  | .named ref => return .named (← visit .constant ref)

def TypeExpr.traverse {Lit : Type} : TypeExpr Lit → m (TypeExpr Lit)
  | .named ref => return .named (← visit .typeName ref)
  | .array index element line => do
    let index ← index.traverse
    return .array index (← element.traverse) line
  | .enumeration literals line => return .enumeration literals line
  | .range low high line => do
    let low ← low.traverse visit
    return .range low (← high.traverse visit) line
  | .builtin type => return .builtin type

mutual

/-- Visits the names of an expression in source order. -/
def Expr.traverse : Expr → m Expr
  | .literal value line => return .literal value line
  | .name ref => return .name (← visit .value ref)
  | .element ref index => do
    let ref ← visit .value ref
    return .element ref (← index.traverse)
  | .call ref args => do
    let ref ← visit (.call .function args.length) ref
    return .call ref (← Expr.traverseAll args)
  | .group inner line => return .group (← inner.traverse) line
  | .negation operand line => return .negation (← operand.traverse) line
  | .signed sign operand line => return .signed sign (← operand.traverse) line
  | .binary op left right => do
    let left ← left.traverse
    return .binary op left (← right.traverse)
  | .comparison relation left right => do
    let left ← left.traverse
    return .comparison relation left (← right.traverse)

def Expr.traverseAll : List Expr → m (List Expr)
  | [] => return []
  | expr :: others => do
    let expr ← expr.traverse
    return expr :: (← Expr.traverseAll others)

end

mutual

def Statement.traverse : Statement → m Statement
  | .assign target index value => do
    let target ← visit .target target
    let index ← match index with
      | some index => some <$> index.traverse visit
      | none => pure none
    return .assign target index (← value.traverse visit)
  | .compound body line => return .compound (← Statement.traverseAll body) line
  | .ifThen condition consequence line => do
    let condition ← condition.traverse visit
    return .ifThen condition (← consequence.traverse) line
  | .ifElse condition consequence alternative line => do
    let condition ← condition.traverse visit
    let consequence ← consequence.traverse
    return .ifElse condition consequence (← alternative.traverse) line
  | .whileDo condition body line => do
    let condition ← condition.traverse visit
    return .whileDo condition (← body.traverse) line
  | .call ref args => do
    let ref ← visit (.call .procedure args.length) ref
    return .call ref (← Expr.traverseAll visit args)
  | .empty line => return .empty line

def Statement.traverseAll : List Statement → m (List Statement)
  | [] => return []
  | statement :: others => do
    let statement ← statement.traverse
    return statement :: (← Statement.traverseAll others)

end

end Traversal

/-! ### Binding -/

/-- The state of a binding traversal: the log, and the first failure. -/
structure Binding where
  log : Log
  failure? : Option Diagnostic

/-- Binds one use of a name in a block, unless an earlier one failed.  A name
that is found is bound even if its use is refused. -/
def Binding.visit (tree : Tree) (block : BlockId) (use : NameUse) (ref : NameRef) :
    StateM Binding NameRef := fun binding =>
  match binding.failure? with
  | some _ => (ref, binding)
  | none =>
    match tree.lookup block ref.name with
    | none => (ref, { binding with failure? := some (.undefinedSymbol ref.name ref.line) })
    | some id =>
      match tree.decls[id]? with
      | none => (ref, { binding with failure? := some (.danglingId id) })
      | some decl =>
        ({ ref with decl? := some id },
         { log := binding.log.noteBinding ref.name ref.line decl.line
           failure? := use.objection? tree block ref decl })

end MiniPascal
