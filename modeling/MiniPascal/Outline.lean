import MiniPascal.Statement

/-!
# Outlines

The outline of a program is what its text says and no more: blocks nest inside
the routines that own them, and declarations stand where they were written.
Numbering an outline gives the tree that the later stages annotate.
-/

namespace MiniPascal

/-- A name being declared, with its line. -/
structure Ident where
  name : String
  line : Nat
  deriving DecidableEq, Repr

namespace Outline

/-- What a routine declaration says before its body.  The line is that of the
keyword; a heading with a result type is a function's. -/
structure Heading where
  name : String
  line : Nat
  params : List (Ident × NameRef)
  result : Option NameRef
  deriving DecidableEq, Repr

mutual

/-- A block: its declaration parts and its statements.  The line is that of
its first token. -/
inductive Block
  | mk (line : Nat) (parts : List Part) (statements : List Statement)

/-- A declaration part: one section, or one routine. -/
inductive Part
  | constants (decls : List (Ident × Constant))
  | types (decls : List (Ident × TypeExpr Ident))
  | vars (decls : List (Ident × TypeExpr Ident))
  | routine (heading : Heading) (body : Block)

end

end Outline

/-- A whole program; the line is that of its first token. -/
structure Outline where
  name : String
  line : Nat
  body : Outline.Block

end MiniPascal
