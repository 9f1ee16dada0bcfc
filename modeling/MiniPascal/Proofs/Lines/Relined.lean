import MiniPascal.Code.Emit
import MiniPascal.Outline
import MiniPascal.Tree

/-!
# Other lines

Everything that is read from a text, and every diagnostic, keeps the lines it came
from.  `relined` puts other lines in the place of these and leaves all else as it is,
so two things that are alike but for their lines become one when all lines are made
the same.  What stands for an enumeration literal is relined by a function of its own,
since an identifier has a line and the number of a declaration has none.
-/

namespace MiniPascal

section Relining

variable (f : Nat → Nat)

def NameRef.relined (ref : NameRef) : NameRef :=
  { ref with line := f ref.line }

def Ident.relined (ident : Ident) : Ident :=
  { ident with line := f ident.line }

def Constant.relined : Constant → Constant
  | .literal value line => .literal value (f line)
  | .named ref => .named (ref.relined f)

def TypeExpr.relined {Lit : Type} (literal : Lit → Lit) : TypeExpr Lit → TypeExpr Lit
  | .named ref => .named (ref.relined f)
  | .array index element line =>
    .array (index.relined literal) (element.relined literal) (f line)
  | .enumeration literals line => .enumeration (literals.map literal) (f line)
  | .range low high line => .range (low.relined f) (high.relined f) (f line)
  | .builtin type => .builtin type

mutual

def Expr.relined : Expr → Expr
  | .literal value line => .literal value (f line)
  | .name ref => .name (ref.relined f)
  | .element ref index => .element (ref.relined f) index.relined
  | .call ref args => .call (ref.relined f) (Expr.relinedAll args)
  | .group inner line => .group inner.relined (f line)
  | .negation operand line => .negation operand.relined (f line)
  | .signed sign operand line => .signed sign operand.relined (f line)
  | .binary op left right => .binary op left.relined right.relined
  | .comparison relation left right => .comparison relation left.relined right.relined

def Expr.relinedAll : List Expr → List Expr
  | [] => []
  | expr :: others => expr.relined :: Expr.relinedAll others

end

mutual

def Statement.relined : Statement → Statement
  | .assign target index value =>
    .assign (target.relined f) (index.map (Expr.relined f)) (value.relined f)
  | .compound body line => .compound (Statement.relinedAll body) (f line)
  | .ifThen condition consequence line =>
    .ifThen (condition.relined f) consequence.relined (f line)
  | .ifElse condition consequence alternative line =>
    .ifElse (condition.relined f) consequence.relined alternative.relined (f line)
  | .whileDo condition body line => .whileDo (condition.relined f) body.relined (f line)
  | .call ref args => .call (ref.relined f) (Expr.relinedAll f args)
  | .empty line => .empty (f line)

def Statement.relinedAll : List Statement → List Statement
  | [] => []
  | statement :: others => statement.relined :: Statement.relinedAll others

end

namespace Outline

def Heading.relined (heading : Heading) : Heading where
  name := heading.name
  line := f heading.line
  params := heading.params.map (Prod.map (Ident.relined f) (NameRef.relined f))
  result := heading.result.map (NameRef.relined f)

mutual

def Block.relined : Block → Block
  | .mk line parts statements =>
    .mk (f line) (Part.relinedAll parts) (Statement.relinedAll f statements)

def Part.relined : Part → Part
  | .constants decls => .constants (decls.map (Prod.map (Ident.relined f) (Constant.relined f)))
  | .types decls =>
    .types (decls.map (Prod.map (Ident.relined f) (TypeExpr.relined f (Ident.relined f))))
  | .vars decls =>
    .vars (decls.map (Prod.map (Ident.relined f) (TypeExpr.relined f (Ident.relined f))))
  | .routine heading body => .routine (heading.relined f) body.relined

def Part.relinedAll : List Part → List Part
  | [] => []
  | part :: others => part.relined :: Part.relinedAll others

end

def relined (outline : Outline) : Outline where
  name := outline.name
  line := f outline.line
  body := outline.body.relined f

end Outline

def Routine.relined (routine : Routine) : Routine :=
  { routine with result := routine.result.map (NameRef.relined f) }

def DeclKind.relined : DeclKind → DeclKind
  | .constant value => .constant (value.relined f)
  | .type content => .type (content.relined f id)
  | .variableOf content => .variableOf (content.relined f id)
  | .parameter ref => .parameter (ref.relined f)
  | .enumLiteral code => .enumLiteral code
  | .routine heading => .routine (heading.relined f)

def Decl.relined (decl : Decl) : Decl :=
  { decl with line := f decl.line, kind := decl.kind.relined f }

def Block.relined (block : Block) : Block :=
  { block with line := f block.line, statements := Statement.relinedAll f block.statements }

def Tree.relined (tree : Tree) : Tree :=
  { tree with
    line := f tree.line
    blocks := tree.blocks.map (Block.relined f)
    decls := tree.decls.map (Decl.relined f) }

/-- The diagnostic at another line. -/
def Diagnostic.relined : Diagnostic → Diagnostic
  | illegalCharacter character line => illegalCharacter character (f line)
  | unterminatedComment line => unterminatedComment (f line)
  | unterminatedString line => unterminatedString (f line)
  | invalidNumber digits line => invalidNumber digits (f line)
  | unexpectedToken expected found line => unexpectedToken expected found (f line)
  | duplicateDeclaration name line => duplicateDeclaration name (f line)
  | undefinedSymbol name line => undefinedSymbol name (f line)
  | notAssignable name kind line => notAssignable name kind (f line)
  | notARoutine name kind line => notARoutine name kind (f line)
  | routineKindMismatch name expected found line =>
    routineKindMismatch name expected found (f line)
  | procedureAsValue name line => procedureAsValue name (f line)
  | notAValue name kind line => notAValue name kind (f line)
  | notAType name kind line => notAType name kind (f line)
  | notAConstant name kind line => notAConstant name kind (f line)
  | argumentCountMismatch name expected found line =>
    argumentCountMismatch name expected found (f line)
  | nestingTooDeep name level line => nestingTooDeep name level (f line)
  | layoutAlreadyAssigned name line => layoutAlreadyAssigned name (f line)
  | codeGeneration reason line => codeGeneration reason (line.map f)
  | fileRead reason => fileRead reason
  | fileWrite reason => fileWrite reason
  | io reason => io reason
  | misuse stage reason => misuse stage reason
  | danglingId id => danglingId id

def Code.Fault.relined : Code.Fault → Code.Fault
  | unchecked => unchecked
  | unresolved name line => unresolved name (f line)
  | noStorage kind name line => noStorage kind name (f line)
  | noLabel name line => noLabel name (f line)
  | noValue kind name line => noValue kind name (f line)
  | cyclicConstant name line => cyclicConstant name (f line)
  | notARoutine name line => notARoutine name (f line)
  | noBody name line => noBody name (f line)
  | notCallable name line => notCallable name (f line)
  | notAValue kind name line => notAValue kind name (f line)
  | danglingId id => danglingId id

end Relining

/-! ### Forgetting the lines -/

abbrev NameRef.unlined : NameRef → NameRef :=
  NameRef.relined fun _ => 0

abbrev Ident.unlined : Ident → Ident :=
  Ident.relined fun _ => 0

abbrev Constant.unlined : Constant → Constant :=
  Constant.relined fun _ => 0

abbrev TypeExpr.unlined : TypeExpr Ident → TypeExpr Ident :=
  TypeExpr.relined (fun _ => 0) Ident.unlined

abbrev Expr.unlined : Expr → Expr :=
  Expr.relined fun _ => 0

abbrev Statement.unlined : Statement → Statement :=
  Statement.relined fun _ => 0

abbrev Outline.Part.unlined : Outline.Part → Outline.Part :=
  Outline.Part.relined fun _ => 0

abbrev Outline.Block.unlined : Outline.Block → Outline.Block :=
  Outline.Block.relined fun _ => 0

abbrev Outline.unlined : Outline → Outline :=
  Outline.relined fun _ => 0

abbrev Tree.unlined : Tree → Tree :=
  Tree.relined fun _ => 0

/-- The diagnostic with its line forgotten: its kind and the other fields are left. -/
abbrev Diagnostic.unlined : Diagnostic → Diagnostic :=
  Diagnostic.relined fun _ => 0

variable {f : Nat → Nat}

/-! ### Reading something with other lines -/

@[simp]
theorem NameRef.name_relined (ref : NameRef) : (ref.relined f).name = ref.name := rfl

@[simp]
theorem NameRef.decl?_relined (ref : NameRef) : (ref.relined f).decl? = ref.decl? := rfl

theorem Expr.relinedAll_eq_map (exprs : List Expr) :
    Expr.relinedAll f exprs = exprs.map (Expr.relined f) := by
  induction exprs with
  | nil => rfl
  | cons expr others ih => rw [relinedAll, ih, List.map_cons]

@[simp]
theorem Expr.length_relinedAll (exprs : List Expr) :
    (Expr.relinedAll f exprs).length = exprs.length := by
  rw [relinedAll_eq_map, List.length_map]

theorem Statement.relinedAll_eq_map (statements : List Statement) :
    Statement.relinedAll f statements = statements.map (Statement.relined f) := by
  induction statements with
  | nil => rfl
  | cons statement others ih => rw [relinedAll, ih, List.map_cons]

theorem Outline.Part.relinedAll_eq_map (parts : List Outline.Part) :
    Outline.Part.relinedAll f parts = parts.map (Outline.Part.relined f) := by
  induction parts with
  | nil => rfl
  | cons part others ih => rw [relinedAll, ih, List.map_cons]

/-- Operands joined and relined are relined and joined. -/
theorem Expr.relined_join (first : Expr) (others : List (BinaryOp × Expr)) :
    (Expr.join first others).relined f =
      Expr.join (first.relined f) (others.map (Prod.map id (Expr.relined f))) := by
  unfold join
  induction others generalizing first with
  | nil => rfl
  | cons operand others ih =>
      simp only [List.map_cons, List.foldl_cons]
      exact ih (.binary operand.1 first operand.2)

theorem TypeExpr.literals_relined {Lit : Type} {literal : Lit → Lit} (type : TypeExpr Lit) :
    (type.relined f literal).literals = type.literals.map literal := by
  induction type with
  | named | range | builtin | enumeration => rfl
  | array index element line ihIndex ihElement =>
      simp only [relined, literals, ihIndex, ihElement, List.map_append]

@[simp]
theorem DeclKind.name_relined (kind : DeclKind) : (kind.relined f).name = kind.name := by
  cases kind with
  | routine heading =>
      obtain ⟨result, params, body⟩ := heading
      cases result <;> rfl
  | constant | type | variableOf | parameter | enumLiteral => rfl

@[simp]
theorem Routine.body_relined (routine : Routine) : (routine.relined f).body = routine.body := rfl

@[simp]
theorem Routine.isFunction_relined (routine : Routine) :
    (routine.relined f).isFunction = routine.isFunction :=
  Option.isSome_map

@[simp]
theorem Routine.routineClass_relined (routine : Routine) :
    (routine.relined f).routineClass = routine.routineClass := by
  unfold routineClass
  rw [isFunction_relined]

@[simp]
theorem DeclKind.routine?_relined (kind : DeclKind) :
    (kind.relined f).routine? = kind.routine?.map (Routine.relined f) := by
  cases kind <;> rfl

@[simp]
theorem Tree.getElem?_blocks_relined (tree : Tree) (id : BlockId) :
    (tree.relined f).blocks[id]? = tree.blocks[id]?.map (Block.relined f) := by
  simp [relined]

@[simp]
theorem Tree.getElem?_decls_relined (tree : Tree) (id : DeclId) :
    (tree.relined f).decls[id]? = tree.decls[id]?.map (Decl.relined f) := by
  simp [relined]

@[simp]
theorem Tree.size_blocks_relined (tree : Tree) :
    (tree.relined f).blocks.size = tree.blocks.size := by
  simp [relined]

@[simp]
theorem Tree.size_decls_relined (tree : Tree) : (tree.relined f).decls.size = tree.decls.size := by
  simp [relined]

/-- Changing an entry commutes with a view that the changes respect. -/
theorem modify_map {α β : Type} {view : α → β} {change : α → α} {change' : β → β}
    (h : ∀ entry, change' (view entry) = view (change entry)) (entries : Array α) (id : Nat) :
    (entries.map view).modify id change' = (entries.modify id change).map view := by
  apply Array.ext_getElem?
  intro index
  rw [Array.getElem?_modify, Array.getElem?_map, Array.getElem?_map, Array.getElem?_modify]
  split
  · cases entries[index]? with
    | none => rfl
    | some entry => exact congrArg some (h entry)
  · rfl

/-- The diagnostic of a fault is at the line of the fault. -/
theorem Code.Fault.diagnostic_relined (fault : Code.Fault) :
    (fault.relined f).diagnostic = fault.diagnostic.relined f := by
  cases fault <;> rfl

/-! ### Keeping the lines -/

@[simp]
theorem NameRef.relined_id (ref : NameRef) : ref.relined id = ref := rfl

@[simp]
theorem Constant.relined_id (value : Constant) : value.relined id = value := by
  cases value <;> rfl

@[simp]
theorem TypeExpr.relined_id {Lit : Type} (type : TypeExpr Lit) : type.relined id id = type := by
  induction type with
  | named | builtin => rfl
  | array index element line ihIndex ihElement => rw [relined, ihIndex, ihElement, id]
  | enumeration literals line => rw [relined, List.map_id, id]
  | range low high line => rw [relined, low.relined_id, high.relined_id, id]

mutual

@[simp]
theorem Expr.relined_id : ∀ expr : Expr, expr.relined id = expr
  | .literal .. | .name _ => rfl
  | .element _ index => by rw [relined, index.relined_id, NameRef.relined_id]
  | .call _ args => by rw [relined, Expr.relinedAll_id args, NameRef.relined_id]
  | .group inner _ => by rw [relined, inner.relined_id, id]
  | .negation operand _ => by rw [relined, operand.relined_id, id]
  | .signed _ operand _ => by rw [relined, operand.relined_id, id]
  | .binary _ left right => by rw [relined, left.relined_id, right.relined_id]
  | .comparison _ left right => by rw [relined, left.relined_id, right.relined_id]

theorem Expr.relinedAll_id : ∀ exprs : List Expr, Expr.relinedAll id exprs = exprs
  | [] => rfl
  | expr :: others => by rw [Expr.relinedAll, expr.relined_id, Expr.relinedAll_id others]

end

mutual

@[simp]
theorem Statement.relined_id : ∀ statement : Statement, statement.relined id = statement
  | .assign target index value => by
      have hindex : index.map (Expr.relined id) = index := by
        cases index with
        | none => rfl
        | some index => exact congrArg some index.relined_id
      rw [relined, hindex, value.relined_id, target.relined_id]
  | .compound body _ => by rw [relined, Statement.relinedAll_id body, id]
  | .ifThen condition consequence _ => by
      rw [relined, condition.relined_id, consequence.relined_id, id]
  | .ifElse condition consequence alternative _ => by
      rw [relined, condition.relined_id, consequence.relined_id, alternative.relined_id, id]
  | .whileDo condition body _ => by rw [relined, condition.relined_id, body.relined_id, id]
  | .call ref args => by rw [relined, Expr.relinedAll_id args, ref.relined_id]
  | .empty _ => rfl

theorem Statement.relinedAll_id : ∀ statements : List Statement,
    Statement.relinedAll id statements = statements
  | [] => rfl
  | statement :: others => by
      rw [Statement.relinedAll, statement.relined_id, Statement.relinedAll_id others]

end

@[simp]
theorem DeclKind.relined_id (kind : DeclKind) : kind.relined id = kind := by
  cases kind with
  | parameter | enumLiteral => rfl
  | constant value => rw [relined, value.relined_id]
  | type content => rw [relined, content.relined_id]
  | variableOf content => rw [relined, content.relined_id]
  | routine heading =>
      obtain ⟨result, params, body⟩ := heading
      cases result <;> rfl

@[simp]
theorem Decl.relined_id (decl : Decl) : decl.relined id = decl := by
  rw [relined, decl.kind.relined_id, id]

@[simp]
theorem Block.relined_id (block : Block) : block.relined id = block := by
  rw [relined, Statement.relinedAll_id, id]

@[simp]
theorem Tree.relined_id (tree : Tree) : tree.relined id = tree := by
  have hblocks : tree.blocks.map (Block.relined id) = tree.blocks :=
    Array.map_id'' Block.relined_id tree.blocks
  have hdecls : tree.decls.map (Decl.relined id) = tree.decls :=
    Array.map_id'' Decl.relined_id tree.decls
  rw [relined, hblocks, hdecls, id]

@[simp]
theorem Diagnostic.relined_id (diagnostic : Diagnostic) : diagnostic.relined id = diagnostic := by
  cases diagnostic with
  | codeGeneration reason line => cases line <;> rfl
  | _ => rfl

end MiniPascal
