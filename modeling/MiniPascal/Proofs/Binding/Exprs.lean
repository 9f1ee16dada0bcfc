import MiniPascal.Proofs.Binding.Uses
import MiniPascal.Tree

/-!
# Expressions of statements

The expressions of a piece of a program, and the names in them that have an index.  The
names that an expression uses are used by what it is part of.
-/

namespace MiniPascal

/-- Whether a word is declared that can have a value of its own: a variable or a
parameter. -/
def DeclKind.isWord : DeclKind → Bool
  | .variableOf _ | .parameter _ => true
  | _ => false

def Tree.isWord (tree : Tree) (ref : NameRef) : Bool :=
  (ref.decl?.bind (tree.decls[·]?)).any (·.kind.isWord)

mutual

def Expr.indexed : Expr → List NameRef
  | .literal .. | .name _ => []
  | .element ref index => ref :: index.indexed
  | .call _ args => Expr.indexedAll args
  | .group inner _ => inner.indexed
  | .negation operand _ => operand.indexed
  | .signed _ operand _ => operand.indexed
  | .binary _ left right => left.indexed ++ right.indexed
  | .comparison _ left right => left.indexed ++ right.indexed

def Expr.indexedAll : List Expr → List NameRef
  | [] => []
  | expr :: others => expr.indexed ++ Expr.indexedAll others

end

mutual

def Expr.parts : Expr → List Expr
  | .literal value line => [.literal value line]
  | .name ref => [.name ref]
  | .element ref index => .element ref index :: index.parts
  | .call ref args => .call ref args :: Expr.partsAll args
  | .group inner line => .group inner line :: inner.parts
  | .negation operand line => .negation operand line :: operand.parts
  | .signed sign operand line => .signed sign operand line :: operand.parts
  | .binary op left right => .binary op left right :: (left.parts ++ right.parts)
  | .comparison relation left right =>
    .comparison relation left right :: (left.parts ++ right.parts)

def Expr.partsAll : List Expr → List Expr
  | [] => []
  | expr :: others => expr.parts ++ Expr.partsAll others

end

mutual

/-- The expressions of a statement, those of the statements in it included. -/
def Statement.exprs : Statement → List Expr
  | .assign _ index value => value :: index.toList
  | .compound body _ => Statement.exprsAll body
  | .ifThen condition consequence _ => condition :: consequence.exprs
  | .ifElse condition consequence alternative _ =>
    condition :: (consequence.exprs ++ alternative.exprs)
  | .whileDo condition body _ => condition :: body.exprs
  | .call _ args => args
  | .empty _ => []

def Statement.exprsAll : List Statement → List Expr
  | [] => []
  | statement :: others => statement.exprs ++ Statement.exprsAll others

end

/-- The expression stands in the statements of a block, on its own or inside another one. -/
def Tree.HasExpr (tree : Tree) (block : BlockId) (expr : Expr) : Prop :=
  ∃ body, tree.blocks[block]? = some body ∧
    ∃ outer ∈ Statement.exprsAll body.statements, expr ∈ outer.parts

/-! ### Calls -/

/-- What is called, and with which arguments. -/
abbrev Call := NameRef × List Expr

mutual

/-- The calls in an expression.  A name without arguments is one if it stands for a
function. -/
def Expr.calls : Expr → List Call
  | .literal .. => []
  | .name ref => [(ref, [])]
  | .element ref index => (ref, []) :: index.calls
  | .call ref args => (ref, args) :: Expr.callsAll args
  | .group inner _ => inner.calls
  | .negation operand _ => operand.calls
  | .signed _ operand _ => operand.calls
  | .binary _ left right => left.calls ++ right.calls
  | .comparison _ left right => left.calls ++ right.calls

def Expr.callsAll : List Expr → List Call
  | [] => []
  | expr :: others => expr.calls ++ Expr.callsAll others

end

def Expr.callsIn? : Option Expr → List Call
  | some index => index.calls
  | none => []

mutual

def Statement.calls : Statement → List Call
  | .assign _ index value => Expr.callsIn? index ++ value.calls
  | .compound body _ => Statement.callsAll body
  | .ifThen condition consequence _ => condition.calls ++ consequence.calls
  | .ifElse condition consequence alternative _ =>
    condition.calls ++ consequence.calls ++ alternative.calls
  | .whileDo condition body _ => condition.calls ++ body.calls
  | .call ref args => (ref, args) :: Expr.callsAll args
  | .empty _ => []

def Statement.callsAll : List Statement → List Call
  | [] => []
  | statement :: others => statement.calls ++ Statement.callsAll others

end

/-- The call stands in the statements of a block. -/
def Tree.HasCall (tree : Tree) (block : BlockId) (call : Call) : Prop :=
  ∃ body, tree.blocks[block]? = some body ∧ call ∈ Statement.callsAll body.statements

theorem Tree.isWord_eq {tree : Tree} {ref : NameRef} {id : DeclId} {decl : Decl}
    (hid : ref.decl? = some id) (hdecl : tree.decls[id]? = some decl) :
    tree.isWord ref = decl.kind.isWord := by
  rw [isWord, hid, Option.bind_some, hdecl, Option.any_some]

theorem Expr.mem_parts (expr : Expr) : expr ∈ expr.parts := by
  cases expr <;> exact List.mem_cons_self

/-! ### Uses of parts -/

section Uses

variable {inner : Expr}

mutual

/-- What a part of an expression uses is used by the expression. -/
theorem Expr.uses_subset_of_mem_parts (expr : Expr) (h : inner ∈ expr.parts) :
    inner.uses ⊆ expr.uses := by
  cases expr with
  | literal | name =>
      obtain rfl := List.mem_singleton.mp h
      exact List.Subset.refl _
  | element ref index =>
      rcases List.mem_cons.mp h with rfl | h
      · exact List.Subset.refl _
      · exact List.subset_cons_of_subset _ (index.uses_subset_of_mem_parts h)
  | call ref args =>
      rcases List.mem_cons.mp h with rfl | h
      · exact List.Subset.refl _
      · exact List.subset_cons_of_subset _ (Expr.uses_subset_of_mem_partsAll args h)
  | group operand line | negation operand line | signed _ operand line =>
      rcases List.mem_cons.mp h with rfl | h
      · exact List.Subset.refl _
      · exact operand.uses_subset_of_mem_parts h
  | binary _ left right | comparison _ left right =>
      rcases List.mem_cons.mp h with rfl | h
      · exact List.Subset.refl _
      · rcases List.mem_append.mp h with h | h
        · exact List.subset_append_of_subset_left _ (left.uses_subset_of_mem_parts h)
        · exact List.subset_append_of_subset_right _ (right.uses_subset_of_mem_parts h)

theorem Expr.uses_subset_of_mem_partsAll (exprs : List Expr) (h : inner ∈ Expr.partsAll exprs) :
    inner.uses ⊆ Expr.usesAll exprs := by
  cases exprs with
  | nil => cases h
  | cons expr others =>
      rcases List.mem_append.mp h with h | h
      · exact List.subset_append_of_subset_left _ (expr.uses_subset_of_mem_parts h)
      · exact List.subset_append_of_subset_right _ (Expr.uses_subset_of_mem_partsAll others h)

end

theorem Expr.uses_subset_usesAll {exprs : List Expr} (h : inner ∈ exprs) :
    inner.uses ⊆ Expr.usesAll exprs := by
  induction exprs with
  | nil => cases h
  | cons expr others ih =>
      rcases List.mem_cons.mp h with rfl | h
      · exact List.subset_append_left _ _
      · exact List.subset_append_of_subset_right _ (ih h)

mutual

/-- What an expression of a statement uses is used by the statement. -/
theorem Statement.uses_subset_of_mem_exprs (statement : Statement) (h : inner ∈ statement.exprs) :
    inner.uses ⊆ statement.uses := by
  cases statement with
  | assign target index value =>
      apply List.subset_cons_of_subset
      rcases List.mem_cons.mp h with rfl | h
      · exact List.subset_append_right _ _
      · cases index with
        | none => cases h
        | some index =>
            obtain rfl := List.mem_singleton.mp h
            exact List.subset_append_left _ _
  | compound body line => exact Statement.uses_subset_of_mem_exprsAll body h
  | ifThen condition consequence line =>
      rcases List.mem_cons.mp h with rfl | h
      · exact List.subset_append_left _ _
      · exact List.subset_append_of_subset_right _ (consequence.uses_subset_of_mem_exprs h)
  | ifElse condition consequence alternative line =>
      rcases List.mem_cons.mp h with rfl | h
      · exact List.subset_append_of_subset_left _ (List.subset_append_left _ _)
      · rcases List.mem_append.mp h with h | h
        · exact List.subset_append_of_subset_left _
            (List.subset_append_of_subset_right _ (consequence.uses_subset_of_mem_exprs h))
        · exact List.subset_append_of_subset_right _ (alternative.uses_subset_of_mem_exprs h)
  | whileDo condition body line =>
      rcases List.mem_cons.mp h with rfl | h
      · exact List.subset_append_left _ _
      · exact List.subset_append_of_subset_right _ (body.uses_subset_of_mem_exprs h)
  | call ref args => exact List.subset_cons_of_subset _ (Expr.uses_subset_usesAll h)
  | empty => cases h

theorem Statement.uses_subset_of_mem_exprsAll (statements : List Statement)
    (h : inner ∈ Statement.exprsAll statements) : inner.uses ⊆ Statement.usesAll statements := by
  cases statements with
  | nil => cases h
  | cons statement others =>
      rcases List.mem_append.mp h with h | h
      · exact List.subset_append_of_subset_left _ (statement.uses_subset_of_mem_exprs h)
      · exact List.subset_append_of_subset_right _ (Statement.uses_subset_of_mem_exprsAll others h)

end

end Uses

end MiniPascal
