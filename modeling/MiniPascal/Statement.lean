import MiniPascal.Expr

/-!
# Types and statements

A type mentions names, constants and, where it enumerates, its literals.  What
stands for an enumeration literal is a parameter: the parser sees an
identifier, a numbered program has a declaration.
-/

namespace MiniPascal

/-- The types every program knows. -/
inductive BuiltinType
  | integer | char | boolean
  deriving DecidableEq, Repr

def BuiltinType.name : BuiltinType → String
  | integer => "integer"
  | char => "char"
  | boolean => "boolean"

/-- A type, over what stands for an enumeration literal. -/
inductive TypeExpr (Lit : Type)
  | named (ref : NameRef)
  | array (index element : TypeExpr Lit) (line : Nat)
  | enumeration (literals : List Lit) (line : Nat)
  | range (low high : Constant) (line : Nat)
  | builtin (type : BuiltinType)
  deriving DecidableEq, Repr

namespace TypeExpr

variable {Lit : Type}

/-- The enumeration literals anywhere inside the type, in source order. -/
def literals : TypeExpr Lit → List Lit
  | enumeration literals _ => literals
  | array index element _ => index.literals ++ element.literals
  | named _ | range .. | builtin _ => []

end TypeExpr

/-- A statement.  An assignment and a call begin with a name and keep no line
besides that of the name. -/
inductive Statement
  | assign (target : NameRef) (index : Option Expr) (value : Expr)
  | compound (body : List Statement) (line : Nat)
  | ifThen (condition : Expr) (consequence : Statement) (line : Nat)
  | ifElse (condition : Expr) (consequence alternative : Statement) (line : Nat)
  | whileDo (condition : Expr) (body : Statement) (line : Nat)
  | call (ref : NameRef) (args : List Expr)
  | empty (line : Nat)
  deriving Repr

/-- The line of the first token, or of the token after an empty statement. -/
def Statement.line : Statement → Nat
  | assign target _ _ => target.line
  | compound _ line => line
  | ifThen _ _ line => line
  | ifElse _ _ _ line => line
  | whileDo _ _ line => line
  | call ref _ => ref.line
  | empty line => line

end MiniPascal
