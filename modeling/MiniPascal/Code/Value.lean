import MiniPascal.Code.Emit
import MiniPascal.Tree

/-!
# Values known to the compiler

The number a constant stands for, and the literal it is finally defined by.
Named constants are followed to their definitions; in a checked program each
step leads to an earlier declaration, so the number of declarations bounds the
number of steps.
-/

namespace MiniPascal

open MiniPascal.Code

def NameRef.resolved (ref : NameRef) : Except Fault DeclId :=
  match ref.decl? with
  | some id => .ok id
  | none => .error (.unresolved ref.name ref.line)

namespace Tree

def declared (tree : Tree) (id : DeclId) : Except Fault Decl :=
  match tree.decls[id]? with
  | some decl => .ok decl
  | none => .error (.danglingId id)

/-- The number a declaration stands for, when that of a constant is known. -/
def valueBy (constantValue : Constant → Except Fault Int) (decl : Decl) : Except Fault Int :=
  match decl.kind with
  | .constant value => constantValue value
  | .enumLiteral code => .ok code
  | _ => .error (.noValue decl.kindName decl.name decl.line)

/-- The number a constant stands for, following at most a given number of names. -/
def constantValueWithin (tree : Tree) : Nat → Constant → Except Fault Int
  | _, .literal value _ => .ok value.value
  | 0, .named ref => .error (.cyclicConstant ref.name ref.line)
  | depth + 1, .named ref => do
    valueBy (constantValueWithin tree depth) (← tree.declared (← ref.resolved))

def constantValue (tree : Tree) (constant : Constant) : Except Fault Int :=
  tree.constantValueWithin (tree.decls.size + 1) constant

def declValue (tree : Tree) (decl : Decl) : Except Fault Int :=
  valueBy tree.constantValue decl

/-- The literal a constant is finally defined by, following at most a given
number of names; there is none behind an enumeration literal. -/
def literalWithin (tree : Tree) : Nat → Constant → Option Literal
  | _, .literal value _ => some value
  | 0, .named _ => none
  | depth + 1, .named ref => do
    match (← tree.decls[← ref.decl?]?).kind with
    | .constant value => literalWithin tree depth value
    | _ => none

/-- The literal a constant is finally defined by. -/
def literal? (tree : Tree) (constant : Constant) : Option Literal :=
  tree.literalWithin (tree.decls.size + 1) constant

/-- The literal that an argument is, or is a name for. -/
def argumentLiteral? (tree : Tree) : Expr → Option Literal
  | .literal value _ => some value
  | .name ref => do
    match (← tree.decls[← ref.decl?]?).kind with
    | .constant value => tree.literal? value
    | _ => none
  | _ => none

end Tree

end MiniPascal
