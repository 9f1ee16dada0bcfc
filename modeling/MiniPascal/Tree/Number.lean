import MiniPascal.Outline
import MiniPascal.Tree

/-!
# Numbering an outline

A block is numbered when its text begins, before the blocks inside it; a
declaration when its text ends, after the parameters, enumeration literals and
nested declarations inside it.  Hence an enclosing block has a smaller number
than the blocks in it, and a routine a larger one than all it contains.
-/

namespace MiniPascal

/-- The blocks and declarations numbered so far. -/
structure Arena where
  blocks : Array Block
  decls : Array Decl

namespace Arena

/-- The arena of a program of which nothing is numbered but the library's block. -/
def initial : Arena where
  blocks := #[.bare none libraryLine]
  decls := #[]

def addDecl (decl : Decl) : StateM Arena DeclId := fun arena =>
  (arena.decls.size, { arena with decls := arena.decls.push decl })

def addBlock (block : Block) : StateM Arena BlockId := fun arena =>
  (arena.blocks.size, { arena with blocks := arena.blocks.push block })

end Arena

namespace Outline

/-- Numbers enumeration literals, whose codes count on from the given one. -/
def numberLiterals (code : Nat) : List Ident → StateM Arena (List DeclId)
  | [] => return []
  | ident :: others => do
    let id ← Arena.addDecl (.bare ident.name ident.line (.enumLiteral code))
    return id :: (← numberLiterals (code + 1) others)

def numberType : TypeExpr Ident → StateM Arena (TypeExpr DeclId)
  | .named ref => return .named ref
  | .array index element line => do
    let index ← numberType index
    return .array index (← numberType element) line
  | .enumeration literals line => return .enumeration (← numberLiterals 0 literals) line
  | .range low high line => return .range low high line
  | .builtin type => return .builtin type

/-- Numbers the declarations of a section with nothing inside them. -/
def numberAll {α : Type} (kind : α → DeclKind) : List (Ident × α) → StateM Arena (List DeclId)
  | [] => return []
  | (ident, content) :: others => do
    let id ← Arena.addDecl (.bare ident.name ident.line (kind content))
    return id :: (← numberAll kind others)

/-- Numbers the declarations of a section of types or variables. -/
def numberTyped (kind : TypeExpr DeclId → DeclKind) :
    List (Ident × TypeExpr Ident) → StateM Arena (List DeclId)
  | [] => return []
  | (ident, type) :: others => do
    let type ← numberType type
    let id ← Arena.addDecl (.bare ident.name ident.line (kind type))
    return id :: (← numberTyped kind others)

mutual

def numberBlock (enclosing : BlockId) : Block → StateM Arena BlockId
  | .mk line parts statements => do
    let id ← Arena.addBlock (.bare (some enclosing) line)
    let parts ← numberParts id parts
    modify fun arena =>
      { arena with blocks := arena.blocks.modify id fun block =>
          { block with parts, statements } }
    return id

def numberParts (block : BlockId) : List Part → StateM Arena (List DeclPart)
  | [] => return []
  | part :: others => do
    let part ← numberPart block part
    return part :: (← numberParts block others)

def numberPart (block : BlockId) : Part → StateM Arena DeclPart
  | .constants decls => return .constants (← numberAll .constant decls)
  | .types decls => return .types (← numberTyped .type decls)
  | .vars decls => return .vars (← numberTyped .variableOf decls)
  | .routine heading body => do
    let params ← numberAll .parameter heading.params
    let body ← numberBlock block body
    let routine := { result := heading.result, params, body := some body }
    return .routine (← Arena.addDecl (.bare heading.name heading.line (.routine routine)))

end

end Outline

/-- The tree of an outline, without annotations. -/
def Tree.ofOutline (outline : Outline) : Tree :=
  let (body, arena) := (Outline.numberBlock libraryBlock outline.body).run Arena.initial
  { name := outline.name
    line := outline.line
    body
    checked := false
    blocks := arena.blocks
    decls := arena.decls }

end MiniPascal
