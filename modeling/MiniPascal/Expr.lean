import MiniPascal.Operator

/-!
# Names, constants and expressions

An expression is a tree of operations over literals and uses of names.  A use
of a name keeps its line and, once the program is checked, the declaration it
is bound to.  Parentheses are nodes, so no text is lost; the levels of the
grammar (comparison, sum, product, factor) are recovered from the operators.
-/

namespace MiniPascal

abbrev BlockId := Nat

abbrev DeclId := Nat

/-- A use of a name, and the declaration it is bound to once that is known. -/
structure NameRef where
  name : String
  line : Nat
  decl? : Option DeclId
  deriving DecidableEq, Repr

namespace NameRef

def unbound (name : String) (line : Nat) : NameRef :=
  { name, line, decl? := none }

end NameRef

/-- A value written in the program. -/
inductive Literal
  | number (value : Int)
  | char (value : Char)
  | text (value : String)
  deriving DecidableEq, Repr

namespace Literal

/-- A text string of one character is a character. -/
def ofText (value : String) : Literal :=
  match value.toList with
  | [c] => char c
  | _ => text value

/-- The sum of the character codes, which stands for a text used as a number. -/
def codeSum (value : String) : Nat :=
  value.toList.foldr (fun c sum => c.toNat + sum) 0

/-- The number a literal counts as. -/
def value : Literal → Int
  | number value => value
  | char value => value.toNat
  | text value => codeSum value

end Literal

/-- A constant: a literal, or the name of another constant. -/
inductive Constant
  | literal (value : Literal) (line : Nat)
  | named (ref : NameRef)
  deriving DecidableEq, Repr

def Constant.line : Constant → Nat
  | literal _ line => line
  | named ref => ref.line

/-- An expression over literals and uses of names.

A literal, a name, a parenthesis, `not` and a sign keep a line.  An operation
and a comparison keep none: they begin with their left operand, and so do the
expression, the sum and the product around it, so `startLine` finds the line of
each of them where the tree has it already. -/
inductive Expr
  | literal (value : Literal) (line : Nat)
  /-- A bare name: a variable, a constant or a call without arguments. -/
  | name (ref : NameRef)
  /-- A name with an index in brackets. -/
  | element (ref : NameRef) (index : Expr)
  | call (ref : NameRef) (args : List Expr)
  /-- An expression in parentheses; the line is that of the opening one. -/
  | group (inner : Expr) (line : Nat)
  /-- A factor after `not`, whose line it keeps. -/
  | negation (operand : Expr) (line : Nat)
  /-- A term after a sign, whose line it keeps. -/
  | signed (sign : Sign) (operand : Expr) (line : Nat)
  | binary (op : BinaryOp) (left right : Expr)
  | comparison (relation : Relation) (left right : Expr)
  deriving Repr

namespace Expr

/-- The line of the first token, which no operation keeps a second time. -/
def startLine : Expr → Nat
  | literal _ line => line
  | name ref => ref.line
  | element ref _ => ref.line
  | call ref _ => ref.line
  | group _ line => line
  | negation _ line => line
  | signed _ _ line => line
  | binary _ left _ => left.startLine
  | comparison _ left _ => left.startLine

/-- The line of a factor, which for one in parentheses is that of its inside. -/
def factorLine : Expr → Nat
  | group inner _ => inner.startLine
  | expr => expr.startLine

/-- The operands that the operations of one level join, in source order: the
first one, and the others with their operations. -/
def operands (additive : Bool) : Expr → Expr × List (BinaryOp × Expr)
  | binary op left right =>
    if op.isAdditive = additive then
      ((left.operands additive).1, (left.operands additive).2 ++ [(op, right)])
    else
      (binary op left right, [])
  | expr => (expr, [])

/-- Joins operands by operations, from the left. -/
def join (first : Expr) (others : List (BinaryOp × Expr)) : Expr :=
  others.foldl (fun left (op, right) => binary op left right) first

/-- Joining the operands of one level gives the expression back. -/
@[simp]
theorem join_operands (additive : Bool) (expr : Expr) :
    join (expr.operands additive).1 (expr.operands additive).2 = expr := by
  fun_induction operands additive expr with
  | case1 op left right level ih => simpa [join] using ih
  | case2 => rfl
  | case3 => rfl

/-- Whether the expression is a single factor, with no operator outside it. -/
def isFactor : Expr → Bool
  | signed .. | binary .. | comparison .. => false
  | _ => true

end Expr

end MiniPascal
