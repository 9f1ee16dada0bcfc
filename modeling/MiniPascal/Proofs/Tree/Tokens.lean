import MiniPascal.Tree.Number

/-!
# Programs as tokens

An outline and a tree are flattened to the tokens of their text, in the order of the
text.  In a tree the declarations and blocks are found by their numbers, so flattening it
follows the numbers into the two arrays.
-/

namespace MiniPascal

/-! ### Constants and expressions -/

/-- The token of a literal.  A character is written as a text. -/
def Literal.token : Literal → Token
  | .number value => .number value
  | .char value => .text (String.singleton value)
  | .text value => .text value

def Constant.token : Constant → Token
  | .literal value _ => value.token
  | .named ref => .name ref.name

def separatedTokens (mark : Symbol) : List (List Token) → List Token
  | [] => []
  | first :: others => first ++ others.flatMap (.symbol mark :: ·)

mutual

def Expr.tokens : Expr → List Token
  | .literal value _ => [value.token]
  | .name ref => [.name ref.name]
  | .element ref index =>
    .name ref.name :: .symbol .leftBracket :: (index.tokens ++ [.symbol .rightBracket])
  | .call ref args => .name ref.name :: Expr.tokensOfArguments args
  | .group inner _ => .symbol .leftParen :: (inner.tokens ++ [.symbol .rightParen])
  | .negation operand _ => .keyword .not :: operand.tokens
  | .signed sign operand _ => .symbol sign.symbol :: operand.tokens
  | .binary op left right => left.tokens ++ op.token :: right.tokens
  | .comparison relation left right => left.tokens ++ .symbol relation.symbol :: right.tokens

def Expr.tokensOfArguments : List Expr → List Token
  | [] => []
  | first :: others =>
    .symbol .leftParen :: (first.tokens ++ Expr.tokensAfter others ++ [.symbol .rightParen])

def Expr.tokensAfter : List Expr → List Token
  | [] => []
  | first :: others => .symbol .comma :: (first.tokens ++ Expr.tokensAfter others)

end

def Expr.tokensIn? : Option Expr → List Token
  | some index => .symbol .leftBracket :: (index.tokens ++ [.symbol .rightBracket])
  | none => []

theorem Expr.tokensAfter_eq (exprs : List Expr) :
    Expr.tokensAfter exprs = (exprs.map Expr.tokens).flatMap (.symbol .comma :: ·) := by
  induction exprs with
  | nil => rfl
  | cons first others ih => rw [tokensAfter, ih, List.map_cons, List.flatMap_cons]; rfl

theorem Expr.tokensOfArguments_cons (first : Expr) (others : List Expr) :
    Expr.tokensOfArguments (first :: others) = .symbol .leftParen ::
      (separatedTokens .comma ((first :: others).map Expr.tokens) ++ [.symbol .rightParen]) := by
  rw [tokensOfArguments, tokensAfter_eq]
  rfl

/-! ### Types and statements -/

/-- The tokens of a type, given the names of its enumeration literals. -/
def TypeExpr.tokens {Lit : Type} (name : Lit → String) : TypeExpr Lit → List Token
  | .named ref => [.name ref.name]
  | .array index element _ =>
    .keyword .array :: .symbol .leftBracket :: (index.tokens name ++
      .symbol .rightBracket :: .keyword .of :: element.tokens name)
  | .enumeration literals _ =>
    .symbol .leftParen ::
      (separatedTokens .comma (literals.map fun literal => [.name (name literal)]) ++
        [.symbol .rightParen])
  | .range low high _ => [low.token, .symbol .range, high.token]
  | .builtin type => [.name type.name]

mutual

def Statement.tokens : Statement → List Token
  | .assign target index value =>
    .name target.name :: (Expr.tokensIn? index ++ .symbol .assign :: value.tokens)
  | .compound body _ => .keyword .begin_ :: (Statement.tokensAll body ++ [.keyword .end_])
  | .ifThen condition consequence _ =>
    .keyword .if_ :: (condition.tokens ++ .keyword .then_ :: consequence.tokens)
  | .ifElse condition consequence alternative _ =>
    .keyword .if_ :: (condition.tokens ++ .keyword .then_ :: (consequence.tokens ++
      .keyword .else_ :: alternative.tokens))
  | .whileDo condition body _ =>
    .keyword .while_ :: (condition.tokens ++ .keyword .do_ :: body.tokens)
  | .call ref args => .name ref.name :: Expr.tokensOfArguments args
  | .empty _ => []

def Statement.tokensAll : List Statement → List Token
  | [] => []
  | first :: others => first.tokens ++ Statement.tokensAfter others

def Statement.tokensAfter : List Statement → List Token
  | [] => []
  | first :: others => .symbol .semicolon :: (first.tokens ++ Statement.tokensAfter others)

end

theorem Statement.tokensAfter_eq (statements : List Statement) :
    Statement.tokensAfter statements =
      (statements.map Statement.tokens).flatMap (.symbol .semicolon :: ·) := by
  induction statements with
  | nil => rfl
  | cons first others ih => rw [tokensAfter, ih, List.map_cons, List.flatMap_cons]; rfl

theorem Statement.tokensAll_eq (statements : List Statement) :
    Statement.tokensAll statements =
      separatedTokens .semicolon (statements.map Statement.tokens) := by
  cases statements with
  | nil => rfl
  | cons first others => rw [tokensAll, tokensAfter_eq]; rfl

/-! ### Declarations -/

def declarationTokens (name : String) (mark : Symbol) (content : List Token) : List Token :=
  .name name :: .symbol mark :: (content ++ [.symbol .semicolon])

def parameterTokens (name : String) (type : NameRef) : List Token :=
  [.name name, .symbol .colon, .name type.name]

def parametersTokens : List (List Token) → List Token
  | [] => []
  | first :: others =>
    .symbol .leftParen :: (separatedTokens .semicolon (first :: others) ++ [.symbol .rightParen])

/-- The tokens of a routine with parameters and a body.  A result makes it a function. -/
def routineTokens (name : String) (params : List (List Token)) (result : Option NameRef)
    (body : List Token) : List Token :=
  match result with
  | none =>
    .keyword .procedure :: .name name :: (parametersTokens params ++
      .symbol .semicolon :: (body ++ [.symbol .semicolon]))
  | some type =>
    .keyword .function :: .name name :: (parametersTokens params ++
      .symbol .colon :: .name type.name :: .symbol .semicolon :: (body ++ [.symbol .semicolon]))

def blockTokens (parts : List Token) (statements : List Statement) : List Token :=
  parts ++ .keyword .begin_ :: (Statement.tokensAll statements ++ [.keyword .end_])

def programTokens (name : String) (body : List Token) : List Token :=
  .keyword .program :: .name name :: .symbol .semicolon :: (body ++ [.symbol .dot])

/-! ### Outlines -/

namespace Outline

def constantTokens (decl : Ident × Constant) : List Token :=
  declarationTokens decl.1.name .equal [decl.2.token]

/-- The tokens of the declaration of a type, or of a variable with its type. -/
def typedTokens (mark : Symbol) (decl : Ident × TypeExpr Ident) : List Token :=
  declarationTokens decl.1.name mark (decl.2.tokens Ident.name)

def paramTokens (param : Ident × NameRef) : List Token :=
  parameterTokens param.1.name param.2

mutual

def Block.tokens : Block → List Token
  | .mk _ parts statements => blockTokens (partsTokens parts) statements

def partsTokens : List Part → List Token
  | [] => []
  | first :: others => first.tokens ++ partsTokens others

def Part.tokens : Part → List Token
  | .constants decls => .keyword .const :: decls.flatMap constantTokens
  | .types decls => .keyword .type :: decls.flatMap (typedTokens .equal)
  | .vars decls => .keyword .var :: decls.flatMap (typedTokens .colon)
  | .routine heading body =>
    routineTokens heading.name (heading.params.map paramTokens) heading.result body.tokens

end

def tokens (outline : Outline) : List Token :=
  programTokens outline.name outline.body.tokens

end Outline

/-! ### Trees -/

namespace Tree

def nameOf (tree : Tree) (id : DeclId) : String :=
  (tree.decls[id]?.map Decl.name).getD ""

/-- The tokens of a declaration in a section, or of a parameter. -/
def declTokens (tree : Tree) (id : DeclId) : List Token :=
  match tree.decls[id]? with
  | some { name, kind := .constant value, .. } => declarationTokens name .equal [value.token]
  | some { name, kind := .type type, .. } =>
    declarationTokens name .equal (type.tokens tree.nameOf)
  | some { name, kind := .variableOf type, .. } =>
    declarationTokens name .colon (type.tokens tree.nameOf)
  | some { name, kind := .parameter type, .. } => parameterTokens name type
  | _ => []

/-- The tokens of a declaration part, given those of the bodies of routines. -/
def partTokens (tree : Tree) (body : BlockId → List Token) : DeclPart → List Token
  | .constants decls => .keyword .const :: decls.flatMap tree.declTokens
  | .types decls => .keyword .type :: decls.flatMap tree.declTokens
  | .vars decls => .keyword .var :: decls.flatMap tree.declTokens
  | .routine id =>
    match tree.decls[id]? with
    | some { name, kind := .routine { result, params, body := some bodyId }, .. } =>
      routineTokens name (params.map tree.declTokens) result (body bodyId)
    | _ => []

/-- The tokens of a block, with at most the given number of blocks inside each other. -/
def tokensWithin (tree : Tree) : Nat → BlockId → List Token
  | 0, _ => []
  | depth + 1, id =>
    match tree.blocks[id]? with
    | some block =>
      blockTokens (block.parts.flatMap (tree.partTokens (tree.tokensWithin depth))) block.statements
    | none => []

def tokens (tree : Tree) : List Token :=
  programTokens tree.name (tree.tokensWithin tree.blocks.size tree.body)

end Tree

end MiniPascal
