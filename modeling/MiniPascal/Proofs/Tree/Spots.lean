import MiniPascal.Proofs.Tree.Tokens

/-!
# Tokens and the nodes that begin with them

A program is flattened once more, now with every node beside its first token.  A node
stands with the line that it reports, as the tree has it.  The levels of expressions are
nodes too: an expression that is no comparison is a sum with the same first token, and a
sum without signs and sums in it is a term.
-/

namespace MiniPascal

/-! ### Nodes and spots -/

/-- The kinds of nodes that report a line. -/
inductive NodeKind
  | program | block | declaration | parameter | enumLiteral
  | arrayType | enumType | rangeType | constant | reference | statement
  | expression | simpleExpr | term | factor
  /-- A factor in parentheses. -/
  | group
  deriving DecidableEq, Repr

/-- How many tokens after its first one the token stands whose line a node reports.  A
factor in parentheses reports the line of its inside. -/
def NodeKind.delay : NodeKind → Nat
  | group => 1
  | _ => 0

theorem NodeKind.delay_eq_zero {kind : NodeKind} (h : kind ≠ .group) : kind.delay = 0 := by
  cases kind <;> first | rfl | exact absurd rfl h

/-- A node of a tree with the line that it reports. -/
structure NodeLine where
  kind : NodeKind
  line : Nat
  deriving DecidableEq, Repr

/-- A token with the nodes that begin with it, the outermost first. -/
structure Spot where
  token : Token
  nodes : List NodeLine
  deriving DecidableEq, Repr

/-- A token that no node begins with. -/
def Spot.bare (token : Token) : Spot :=
  ⟨token, []⟩

/-- The spots of a node, given those of its pieces.  It begins with the first token, if it
has any. -/
def nodeAt (kind : NodeKind) (line : Nat) : List Spot → List Spot
  | [] => []
  | first :: others => { first with nodes := ⟨kind, line⟩ :: first.nodes } :: others

@[simp]
theorem map_token_nodeAt (kind : NodeKind) (line : Nat) (spots : List Spot) :
    (nodeAt kind line spots).map Spot.token = spots.map Spot.token := by
  cases spots <;> rfl

@[simp]
theorem token_bare (token : Token) : (Spot.bare token).token = token := rfl

def separatedSpots (mark : Symbol) : List (List Spot) → List Spot
  | [] => []
  | first :: others => first ++ others.flatMap (.bare (.symbol mark) :: ·)

theorem map_token_separatedSpots (mark : Symbol) (pieces : List (List Spot)) :
    (separatedSpots mark pieces).map Spot.token =
      separatedTokens mark (pieces.map (List.map Spot.token)) := by
  cases pieces with
  | nil => rfl
  | cons first others =>
      rw [separatedSpots, List.map_cons, separatedTokens, List.map_append, List.map_flatMap,
        List.flatMap_map]
      rfl

/-! ### Constants and expressions -/

def NameRef.spots (ref : NameRef) : List Spot :=
  nodeAt .reference ref.line [.bare (.name ref.name)]

def Constant.spots : Constant → List Spot
  | .literal value line => nodeAt .constant line [.bare value.token]
  | .named ref => nodeAt .constant ref.line ref.spots

namespace Expr

/-- Whether the expression is a single term, with no sign, sum or comparison outside it. -/
def isTerm : Expr → Bool
  | signed .. | comparison .. => false
  | binary op _ _ => !op.isAdditive
  | _ => true

/-- Whether the expression is a sum, with no comparison outside it. -/
def isSum : Expr → Bool
  | comparison .. => false
  | _ => true

def withTerm (expr : Expr) (spots : List Spot) : List Spot :=
  if expr.isTerm then nodeAt .term expr.startLine spots else spots

def withSum (expr : Expr) (spots : List Spot) : List Spot :=
  if expr.isSum then nodeAt .simpleExpr expr.startLine (expr.withTerm spots) else spots

/-- The spots with the nodes of the whole expression. -/
def withExpression (expr : Expr) (spots : List Spot) : List Spot :=
  nodeAt .expression expr.startLine (expr.withSum spots)

mutual

/-- The spots of what an expression consists of, with the node of a factor but without
those of a term, a sum or a whole expression. -/
def spots : Expr → List Spot
  | literal value line =>
    nodeAt .factor (factorLine (literal value line)) (Constant.literal value line).spots
  | name ref => nodeAt .factor (factorLine (name ref)) ref.spots
  | element ref index =>
    nodeAt .factor (factorLine (element ref index)) (ref.spots ++
      .bare (.symbol .leftBracket) ::
        (index.withExpression index.spots ++ [.bare (.symbol .rightBracket)]))
  | call ref args =>
    nodeAt .factor (factorLine (call ref args)) (ref.spots ++ spotsOfArguments args)
  | group inner line =>
    nodeAt .group (factorLine (group inner line)) (.bare (.symbol .leftParen) ::
      (inner.withExpression inner.spots ++ [.bare (.symbol .rightParen)]))
  | negation operand line =>
    nodeAt .factor (factorLine (negation operand line)) (.bare (.keyword .not) :: operand.spots)
  | signed sign operand _ => .bare (.symbol sign.symbol) :: operand.withTerm operand.spots
  | binary op left right =>
    if op.isAdditive then
      left.withTerm left.spots ++ .bare op.token :: right.withTerm right.spots
    else
      left.spots ++ .bare op.token :: right.spots
  | comparison relation left right =>
    left.withSum left.spots ++ .bare (.symbol relation.symbol) :: right.withSum right.spots

def spotsOfArguments : List Expr → List Spot
  | [] => []
  | first :: others =>
    .bare (.symbol .leftParen) :: (first.withExpression first.spots ++ spotsAfter others ++
      [.bare (.symbol .rightParen)])

def spotsAfter : List Expr → List Spot
  | [] => []
  | first :: others =>
    .bare (.symbol .comma) :: (first.withExpression first.spots ++ spotsAfter others)

end

def allSpots (expr : Expr) : List Spot :=
  expr.withExpression expr.spots

def spotsIn? : Option Expr → List Spot
  | some index =>
    .bare (.symbol .leftBracket) :: (index.allSpots ++ [.bare (.symbol .rightBracket)])
  | none => []

theorem spotsAfter_eq (exprs : List Expr) :
    spotsAfter exprs = (exprs.map allSpots).flatMap (.bare (.symbol .comma) :: ·) := by
  induction exprs with
  | nil => rfl
  | cons first others ih => rw [spotsAfter, ih, List.map_cons, List.flatMap_cons]; rfl

theorem spotsOfArguments_cons (first : Expr) (others : List Expr) :
    spotsOfArguments (first :: others) = .bare (.symbol .leftParen) ::
      (separatedSpots .comma ((first :: others).map allSpots) ++
        [.bare (.symbol .rightParen)]) := by
  rw [spotsOfArguments, spotsAfter_eq]
  rfl

/-! ### Operands -/

/-- Factors that are joined stand in their order, each after its operation. -/
theorem spots_join_factors {first : Expr} {others : List (BinaryOp × Expr)}
    (hops : ∀ operand ∈ others, operand.1.isAdditive = false) :
    (join first others).spots =
      first.spots ++ others.flatMap fun operand => .bare operand.1.token :: operand.2.spots := by
  induction others generalizing first with
  | nil => exact (List.append_nil _).symm
  | cons operand others ih =>
      obtain ⟨hop, hops⟩ := List.forall_mem_cons.mp hops
      change (join (.binary operand.1 first operand.2) others).spots = _
      rw [ih hops, spots, hop, if_neg Bool.false_ne_true, List.flatMap_cons, List.append_assoc,
        List.cons_append]

/-- Terms that are joined stand in their order, each after its operation. -/
theorem spots_join_terms {first : Expr} {others : List (BinaryOp × Expr)}
    (hops : ∀ operand ∈ others, operand.1.isAdditive = true) :
    (join first others).withTerm (join first others).spots =
      first.withTerm first.spots ++ others.flatMap fun operand =>
        .bare operand.1.token :: operand.2.withTerm operand.2.spots := by
  induction others generalizing first with
  | nil => exact (List.append_nil _).symm
  | cons operand others ih =>
      obtain ⟨hop, hops⟩ := List.forall_mem_cons.mp hops
      have hsum : (Expr.binary operand.1 first operand.2).withTerm
          (Expr.binary operand.1 first operand.2).spots = first.withTerm first.spots ++
            .bare operand.1.token :: operand.2.withTerm operand.2.spots := by
        rw [withTerm, isTerm, spots, hop, if_neg (by decide), if_pos rfl]
      change (join (.binary operand.1 first operand.2) others).withTerm
        (join (.binary operand.1 first operand.2) others).spots = _
      rw [ih hops, hsum, List.flatMap_cons, List.append_assoc, List.cons_append]

theorem startLine_join (first : Expr) (others : List (BinaryOp × Expr)) :
    (join first others).startLine = first.startLine := by
  induction others generalizing first with
  | nil => rfl
  | cons operand others ih => exact ih _

theorem isTerm_join_factors {first : Expr} {others : List (BinaryOp × Expr)}
    (hfirst : first.isTerm = true) (hops : ∀ operand ∈ others, operand.1.isAdditive = false) :
    (join first others).isTerm = true := by
  induction others generalizing first with
  | nil => exact hfirst
  | cons operand others ih =>
      obtain ⟨hop, hops⟩ := List.forall_mem_cons.mp hops
      apply ih _ hops
      rw [isTerm, hop]
      rfl

theorem isSum_join {first : Expr} {others : List (BinaryOp × Expr)}
    (hfirst : first.isSum = true) : (join first others).isSum = true := by
  induction others generalizing first with
  | nil => exact hfirst
  | cons operand others ih => exact ih rfl

theorem isTerm_of_isFactor {expr : Expr} (h : expr.isFactor = true) : expr.isTerm = true := by
  cases expr <;> first | rfl | cases h

theorem isSum_of_isTerm {expr : Expr} (h : expr.isTerm = true) : expr.isSum = true := by
  cases expr <;> first | rfl | cases h

/-! ### Tokens of spots -/

@[simp]
theorem map_token_withTerm (expr : Expr) (spots : List Spot) :
    (expr.withTerm spots).map Spot.token = spots.map Spot.token := by
  rw [withTerm]
  split
  · exact map_token_nodeAt _ _ _
  · rfl

@[simp]
theorem map_token_withSum (expr : Expr) (spots : List Spot) :
    (expr.withSum spots).map Spot.token = spots.map Spot.token := by
  rw [withSum]
  split
  · rw [map_token_nodeAt, map_token_withTerm]
  · rfl

@[simp]
theorem map_token_withExpression (expr : Expr) (spots : List Spot) :
    (expr.withExpression spots).map Spot.token = spots.map Spot.token := by
  rw [withExpression, map_token_nodeAt, map_token_withSum]

end Expr

@[simp]
theorem NameRef.map_token_spots (ref : NameRef) :
    ref.spots.map Spot.token = [.name ref.name] := rfl

@[simp]
theorem Constant.map_token_spots (value : Constant) :
    value.spots.map Spot.token = [value.token] := by
  cases value <;> rfl

namespace Expr

mutual

theorem map_token_spots (expr : Expr) : expr.spots.map Spot.token = expr.tokens := by
  cases expr with
  | literal | name => rfl
  | element ref index =>
      rw [spots, tokens, ← index.map_token_spots]
      simp
  | call ref args =>
      rw [spots, tokens, ← map_token_spotsOfArguments args]
      simp
  | group inner line =>
      rw [spots, tokens, ← inner.map_token_spots]
      simp
  | negation operand line =>
      rw [spots, tokens, ← operand.map_token_spots]
      simp
  | signed sign operand line =>
      rw [spots, tokens, ← operand.map_token_spots]
      simp
  | binary op left right =>
      rw [spots, tokens, ← left.map_token_spots, ← right.map_token_spots]
      split <;> simp
  | comparison relation left right =>
      rw [spots, tokens, ← left.map_token_spots, ← right.map_token_spots]
      simp

theorem map_token_spotsOfArguments (args : List Expr) :
    (spotsOfArguments args).map Spot.token = tokensOfArguments args := by
  cases args with
  | nil => rfl
  | cons first others =>
      rw [spotsOfArguments, tokensOfArguments, ← first.map_token_spots,
        ← map_token_spotsAfter others]
      simp

theorem map_token_spotsAfter (exprs : List Expr) :
    (spotsAfter exprs).map Spot.token = tokensAfter exprs := by
  cases exprs with
  | nil => rfl
  | cons first others =>
      rw [spotsAfter, tokensAfter, ← first.map_token_spots, ← map_token_spotsAfter others]
      simp

end

@[simp]
theorem map_token_allSpots (expr : Expr) : expr.allSpots.map Spot.token = expr.tokens := by
  rw [allSpots, map_token_withExpression, expr.map_token_spots]

theorem map_token_spotsIn? (index : Option Expr) :
    (spotsIn? index).map Spot.token = tokensIn? index := by
  cases index with
  | none => rfl
  | some index => simp [spotsIn?, tokensIn?]

end Expr

/-! ### Types and statements -/

def TypeExpr.spots {Lit : Type} (literal : Lit → List Spot) : TypeExpr Lit → List Spot
  | .named ref => ref.spots
  | .array index element line =>
    nodeAt .arrayType line (.bare (.keyword .array) :: .bare (.symbol .leftBracket) ::
      (index.spots literal ++ .bare (.symbol .rightBracket) :: .bare (.keyword .of) ::
        element.spots literal))
  | .enumeration literals line =>
    nodeAt .enumType line (.bare (.symbol .leftParen) ::
      (separatedSpots .comma (literals.map literal) ++ [.bare (.symbol .rightParen)]))
  | .range low high line =>
    nodeAt .rangeType line (low.spots ++ .bare (.symbol .range) :: high.spots)
  | .builtin type => [.bare (.name type.name)]

theorem TypeExpr.map_token_spots {Lit : Type} {literal : Lit → List Spot} {name : Lit → String}
    (h : ∀ lit, (literal lit).map Spot.token = [.name (name lit)]) (type : TypeExpr Lit) :
    (type.spots literal).map Spot.token = type.tokens name := by
  induction type with
  | named | builtin => rfl
  | array index element line ihIndex ihElement =>
      rw [spots, tokens, ← ihIndex, ← ihElement]
      simp
  | enumeration literals line =>
      have hpieces : (literals.map literal).map (List.map Spot.token) =
          literals.map fun lit => [.name (name lit)] := by
        rw [List.map_map]
        exact List.map_congr_left fun lit _ => h lit
      rw [spots, tokens, ← hpieces, ← map_token_separatedSpots]
      simp
  | range low high line =>
      rw [spots, tokens]
      simp

namespace Statement

mutual

def spots : Statement → List Spot
  | assign target index value =>
    nodeAt .statement (line (assign target index value)) (target.spots ++ (Expr.spotsIn? index ++
      .bare (.symbol .assign) :: value.allSpots))
  | compound body first =>
    nodeAt .statement (line (compound body first)) (.bare (.keyword .begin_) ::
      (spotsAll body ++ [.bare (.keyword .end_)]))
  | ifThen condition consequence first =>
    nodeAt .statement (line (ifThen condition consequence first)) (.bare (.keyword .if_) ::
      (condition.allSpots ++ .bare (.keyword .then_) :: consequence.spots))
  | ifElse condition consequence alternative first =>
    nodeAt .statement (line (ifElse condition consequence alternative first))
      (.bare (.keyword .if_) :: (condition.allSpots ++ .bare (.keyword .then_) ::
        (consequence.spots ++ .bare (.keyword .else_) :: alternative.spots)))
  | whileDo condition body first =>
    nodeAt .statement (line (whileDo condition body first)) (.bare (.keyword .while_) ::
      (condition.allSpots ++ .bare (.keyword .do_) :: body.spots))
  | call ref args =>
    nodeAt .statement (line (call ref args)) (ref.spots ++ Expr.spotsOfArguments args)
  | empty _ => []

def spotsAll : List Statement → List Spot
  | [] => []
  | first :: others => first.spots ++ spotsAfter others

def spotsAfter : List Statement → List Spot
  | [] => []
  | first :: others => .bare (.symbol .semicolon) :: (first.spots ++ spotsAfter others)

end

theorem spotsAfter_eq (statements : List Statement) :
    spotsAfter statements = (statements.map spots).flatMap (.bare (.symbol .semicolon) :: ·) := by
  induction statements with
  | nil => rfl
  | cons first others ih => rw [spotsAfter, ih, List.map_cons, List.flatMap_cons]; rfl

theorem spotsAll_eq (statements : List Statement) :
    spotsAll statements = separatedSpots .semicolon (statements.map spots) := by
  cases statements with
  | nil => rfl
  | cons first others => rw [spotsAll, spotsAfter_eq]; rfl

mutual

theorem map_token_spots (statement : Statement) :
    statement.spots.map Spot.token = statement.tokens := by
  cases statement with
  | assign target index value =>
      rw [spots, tokens, ← Expr.map_token_spotsIn? index]
      simp
  | compound body first =>
      rw [spots, tokens, ← map_token_spotsAll body]
      simp
  | ifThen condition consequence first =>
      rw [spots, tokens, ← consequence.map_token_spots]
      simp
  | ifElse condition consequence alternative first =>
      rw [spots, tokens, ← consequence.map_token_spots, ← alternative.map_token_spots]
      simp
  | whileDo condition body first =>
      rw [spots, tokens, ← body.map_token_spots]
      simp
  | call ref args =>
      rw [spots, tokens, ← Expr.map_token_spotsOfArguments args]
      simp
  | empty => rfl

theorem map_token_spotsAll (statements : List Statement) :
    (spotsAll statements).map Spot.token = tokensAll statements := by
  cases statements with
  | nil => rfl
  | cons first others =>
      rw [spotsAll, tokensAll, ← first.map_token_spots, ← map_token_spotsAfter others]
      simp

theorem map_token_spotsAfter (statements : List Statement) :
    (spotsAfter statements).map Spot.token = tokensAfter statements := by
  cases statements with
  | nil => rfl
  | cons first others =>
      rw [spotsAfter, tokensAfter, ← first.map_token_spots, ← map_token_spotsAfter others]
      simp

end

end Statement

/-! ### Declarations -/

def declarationSpots (name : String) (line : Nat) (mark : Symbol) (content : List Spot) :
    List Spot :=
  nodeAt .declaration line (.bare (.name name) :: .bare (.symbol mark) ::
    (content ++ [.bare (.symbol .semicolon)]))

def parameterSpots (name : String) (line : Nat) (type : NameRef) : List Spot :=
  nodeAt .parameter line (.bare (.name name) :: .bare (.symbol .colon) :: type.spots)

def literalSpots (name : String) (line : Nat) : List Spot :=
  nodeAt .enumLiteral line [.bare (.name name)]

def parametersSpots : List (List Spot) → List Spot
  | [] => []
  | first :: others =>
    .bare (.symbol .leftParen) :: (separatedSpots .semicolon (first :: others) ++
      [.bare (.symbol .rightParen)])

/-- The spots of a routine with parameters and a body.  A result makes it a function. -/
def routineSpots (name : String) (line : Nat) (params : List (List Spot))
    (result : Option NameRef) (body : List Spot) : List Spot :=
  match result with
  | none =>
    nodeAt .declaration line (.bare (.keyword .procedure) :: .bare (.name name) ::
      (parametersSpots params ++ .bare (.symbol .semicolon) ::
        (body ++ [.bare (.symbol .semicolon)])))
  | some type =>
    nodeAt .declaration line (.bare (.keyword .function) :: .bare (.name name) ::
      (parametersSpots params ++ .bare (.symbol .colon) :: (type.spots ++
        .bare (.symbol .semicolon) :: (body ++ [.bare (.symbol .semicolon)]))))

def blockSpots (line : Nat) (parts : List Spot) (statements : List Statement) : List Spot :=
  nodeAt .block line (parts ++ .bare (.keyword .begin_) ::
    (Statement.spotsAll statements ++ [.bare (.keyword .end_)]))

def programSpots (name : String) (line : Nat) (body : List Spot) : List Spot :=
  nodeAt .program line (.bare (.keyword .program) :: .bare (.name name) ::
    .bare (.symbol .semicolon) :: (body ++ [.bare (.symbol .dot)]))

section

variable {name : String} {line : Nat} {mark : Symbol} {content body parts : List Spot}
  {pieces : List (List Spot)}

@[simp]
theorem map_token_declarationSpots : (declarationSpots name line mark content).map Spot.token =
    declarationTokens name mark (content.map Spot.token) := by
  simp [declarationSpots, declarationTokens]

@[simp]
theorem map_token_parameterSpots {type : NameRef} :
    (parameterSpots name line type).map Spot.token = parameterTokens name type := by
  simp [parameterSpots, parameterTokens]

theorem map_token_parametersSpots : (parametersSpots pieces).map Spot.token =
    parametersTokens (pieces.map (List.map Spot.token)) := by
  cases pieces with
  | nil => rfl
  | cons first others =>
      simp [parametersSpots, parametersTokens, map_token_separatedSpots]

theorem map_token_routineSpots {result : Option NameRef} :
    (routineSpots name line pieces result body).map Spot.token =
      routineTokens name (pieces.map (List.map Spot.token)) result (body.map Spot.token) := by
  cases result <;> simp [routineSpots, routineTokens, map_token_parametersSpots]

theorem map_token_blockSpots {statements : List Statement} :
    (blockSpots line parts statements).map Spot.token =
      blockTokens (parts.map Spot.token) statements := by
  simp [blockSpots, blockTokens, Statement.map_token_spotsAll]

theorem map_token_programSpots : (programSpots name line body).map Spot.token =
    programTokens name (body.map Spot.token) := by
  simp [programSpots, programTokens]

end

/-! ### Outlines -/

namespace Outline

def identSpots (ident : Ident) : List Spot :=
  literalSpots ident.name ident.line

def constantSpots (decl : Ident × Constant) : List Spot :=
  declarationSpots decl.1.name decl.1.line .equal decl.2.spots

/-- The spots of the declaration of a type, or of a variable with its type. -/
def typedSpots (mark : Symbol) (decl : Ident × TypeExpr Ident) : List Spot :=
  declarationSpots decl.1.name decl.1.line mark (decl.2.spots identSpots)

def paramSpots (param : Ident × NameRef) : List Spot :=
  parameterSpots param.1.name param.1.line param.2

mutual

def Block.spots : Block → List Spot
  | .mk line parts statements => blockSpots line (partsSpots parts) statements

def partsSpots : List Part → List Spot
  | [] => []
  | first :: others => first.spots ++ partsSpots others

def Part.spots : Part → List Spot
  | .constants decls => .bare (.keyword .const) :: decls.flatMap constantSpots
  | .types decls => .bare (.keyword .type) :: decls.flatMap (typedSpots .equal)
  | .vars decls => .bare (.keyword .var) :: decls.flatMap (typedSpots .colon)
  | .routine heading body =>
    routineSpots heading.name heading.line (heading.params.map paramSpots) heading.result body.spots

end

theorem partsSpots_eq (parts : List Part) : partsSpots parts = parts.flatMap Part.spots := by
  induction parts with
  | nil => rfl
  | cons first others ih => rw [partsSpots, ih, List.flatMap_cons]

def spots (outline : Outline) : List Spot :=
  programSpots outline.name outline.line outline.body.spots

theorem map_token_constantSpots (decl : Ident × Constant) :
    (constantSpots decl).map Spot.token = constantTokens decl := by
  rw [constantSpots, map_token_declarationSpots, Constant.map_token_spots]
  rfl

theorem map_token_typedSpots (mark : Symbol) (decl : Ident × TypeExpr Ident) :
    (typedSpots mark decl).map Spot.token = typedTokens mark decl := by
  rw [typedSpots, map_token_declarationSpots, TypeExpr.map_token_spots fun _ => rfl]
  rfl

private theorem map_token_flatMap {α : Type} {spots : α → List Spot} {tokens : α → List Token}
    (h : ∀ item, (spots item).map Spot.token = tokens item) (items : List α) :
    (items.flatMap spots).map Spot.token = items.flatMap tokens := by
  rw [List.map_flatMap, funext h]

mutual

theorem Block.map_token_spots (block : Block) : block.spots.map Spot.token = block.tokens := by
  cases block with
  | mk line parts statements =>
      rw [Block.spots, Block.tokens, map_token_blockSpots, map_token_partsSpots parts]

theorem map_token_partsSpots (parts : List Part) :
    (partsSpots parts).map Spot.token = partsTokens parts := by
  cases parts with
  | nil => rfl
  | cons part others =>
      rw [partsSpots, partsTokens, List.map_append, part.map_token_spots,
        map_token_partsSpots others]

theorem Part.map_token_spots (part : Part) : part.spots.map Spot.token = part.tokens := by
  cases part with
  | constants decls =>
      rw [Part.spots, Part.tokens, List.map_cons,
        map_token_flatMap map_token_constantSpots]
      rfl
  | types decls =>
      rw [Part.spots, Part.tokens, List.map_cons, map_token_flatMap (map_token_typedSpots _)]
      rfl
  | vars decls =>
      rw [Part.spots, Part.tokens, List.map_cons, map_token_flatMap (map_token_typedSpots _)]
      rfl
  | routine heading body =>
      have hparams : (heading.params.map paramSpots).map (List.map Spot.token) =
          heading.params.map paramTokens := by
        rw [List.map_map]
        exact List.map_congr_left fun _ _ => map_token_parameterSpots
      rw [Part.spots, Part.tokens, map_token_routineSpots, hparams, body.map_token_spots]

end

/-- The tokens of the spots of an outline are its tokens. -/
theorem map_token_spots (outline : Outline) :
    outline.spots.map Spot.token = outline.tokens := by
  rw [spots, map_token_programSpots, outline.body.map_token_spots]
  rfl

end Outline

/-! ### Trees -/

namespace Tree

def literalSpots (tree : Tree) (id : DeclId) : List Spot :=
  MiniPascal.literalSpots (tree.nameOf id) ((tree.decls[id]?.map Decl.line).getD 0)

/-- The spots of a declaration in a section, or of a parameter. -/
def declSpots (tree : Tree) (id : DeclId) : List Spot :=
  match tree.decls[id]? with
  | some { name, line, kind := .constant value, .. } =>
    declarationSpots name line .equal value.spots
  | some { name, line, kind := .type type, .. } =>
    declarationSpots name line .equal (type.spots tree.literalSpots)
  | some { name, line, kind := .variableOf type, .. } =>
    declarationSpots name line .colon (type.spots tree.literalSpots)
  | some { name, line, kind := .parameter type, .. } => parameterSpots name line type
  | _ => []

/-- The spots of a declaration part, given those of the bodies of routines. -/
def partSpots (tree : Tree) (body : BlockId → List Spot) : DeclPart → List Spot
  | .constants decls => .bare (.keyword .const) :: decls.flatMap tree.declSpots
  | .types decls => .bare (.keyword .type) :: decls.flatMap tree.declSpots
  | .vars decls => .bare (.keyword .var) :: decls.flatMap tree.declSpots
  | .routine id =>
    match tree.decls[id]? with
    | some { name, line, kind := .routine { result, params, body := some bodyId }, .. } =>
      routineSpots name line (params.map tree.declSpots) result (body bodyId)
    | _ => []

/-- The spots of a block, with at most the given number of blocks inside each other. -/
def spotsWithin (tree : Tree) : Nat → BlockId → List Spot
  | 0, _ => []
  | depth + 1, id =>
    match tree.blocks[id]? with
    | some block =>
      blockSpots block.line (block.parts.flatMap (tree.partSpots (tree.spotsWithin depth)))
        block.statements
    | none => []

/-- The tokens of a program with the nodes that begin with them. -/
def spots (tree : Tree) : List Spot :=
  programSpots tree.name tree.line (tree.spotsWithin tree.blocks.size tree.body)

theorem map_token_literalSpots (tree : Tree) (id : DeclId) :
    (tree.literalSpots id).map Spot.token = [.name (tree.nameOf id)] := rfl

theorem map_token_declSpots (tree : Tree) (id : DeclId) :
    (tree.declSpots id).map Spot.token = tree.declTokens id := by
  unfold declSpots declTokens
  cases tree.decls[id]? with
  | none => rfl
  | some decl =>
      obtain ⟨name, line, kind, level?, layout?⟩ := decl
      cases kind with
      | constant value =>
          exact map_token_declarationSpots.trans
            (congrArg (declarationTokens name .equal) value.map_token_spots)
      | type content =>
          exact map_token_declarationSpots.trans (congrArg (declarationTokens name .equal)
            (content.map_token_spots tree.map_token_literalSpots))
      | variableOf content =>
          exact map_token_declarationSpots.trans (congrArg (declarationTokens name .colon)
            (content.map_token_spots tree.map_token_literalSpots))
      | parameter type => exact map_token_parameterSpots
      | enumLiteral | routine => rfl

theorem map_token_partSpots (tree : Tree) {bodySpots : BlockId → List Spot}
    {bodyTokens : BlockId → List Token}
    (hbody : ∀ id, (bodySpots id).map Spot.token = bodyTokens id) (part : DeclPart) :
    (tree.partSpots bodySpots part).map Spot.token = tree.partTokens bodyTokens part := by
  have hdecls : ∀ ids : List DeclId,
      (ids.flatMap tree.declSpots).map Spot.token = ids.flatMap tree.declTokens := by
    intro ids
    rw [List.map_flatMap, funext tree.map_token_declSpots]
  cases part with
  | constants ids => exact congrArg (_ :: ·) (hdecls ids)
  | types ids => exact congrArg (_ :: ·) (hdecls ids)
  | vars ids => exact congrArg (_ :: ·) (hdecls ids)
  | routine id =>
      rw [partSpots, partTokens]
      cases tree.decls[id]? with
      | none => rfl
      | some decl =>
          obtain ⟨name, line, kind, level?, layout?⟩ := decl
          cases kind with
          | routine heading =>
              obtain ⟨result, params, _ | bodyId⟩ := heading
              · rfl
              · have hparams : (params.map tree.declSpots).map (List.map Spot.token) =
                    params.map tree.declTokens := by
                  rw [List.map_map]
                  exact List.map_congr_left fun id _ => tree.map_token_declSpots id
                have hroutine := @map_token_routineSpots name line (bodySpots bodyId)
                  (params.map tree.declSpots) result
                rw [hparams, hbody] at hroutine
                exact hroutine
          | _ => rfl

theorem map_token_spotsWithin (tree : Tree) (depth : Nat) (id : BlockId) :
    (tree.spotsWithin depth id).map Spot.token = tree.tokensWithin depth id := by
  induction depth generalizing id with
  | zero => rfl
  | succ depth ih =>
      rw [spotsWithin, tokensWithin]
      cases tree.blocks[id]? with
      | none => rfl
      | some block =>
          have hparts : (block.parts.flatMap (tree.partSpots (tree.spotsWithin depth))).map
              Spot.token = block.parts.flatMap (tree.partTokens (tree.tokensWithin depth)) := by
            rw [List.map_flatMap, funext (tree.map_token_partSpots ih)]
          exact map_token_blockSpots.trans (congrArg (blockTokens · block.statements) hparts)

/-- The tokens of the spots of a tree are its tokens. -/
theorem map_token_spots (tree : Tree) : tree.spots.map Spot.token = tree.tokens := by
  rw [spots, map_token_programSpots, tree.map_token_spotsWithin]
  rfl

end Tree

end MiniPascal
