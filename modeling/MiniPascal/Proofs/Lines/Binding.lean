import MiniPascal.Proofs.Lines.Relined
import MiniPascal.Proofs.Tree.Lookup

/-!
# Binding does not look at lines

What a name stands for, and what speaks against its use, do not depend on lines, but
the diagnostic tells the line of the use.  A traversal of something with other lines
that is begun after the same failure, whatever was logged, therefore binds the same
names and ends with the same failure, at the other line.
-/

namespace MiniPascal

variable {f : Nat → Nat}

/-! ### The tree -/

namespace Tree

theorem enclosing?_relined (tree : Tree) (id : BlockId) :
    (tree.relined f).enclosing? id = tree.enclosing? id := by
  unfold enclosing?
  rw [getElem?_blocks_relined, Option.bind_map]
  rfl

theorem tableAt_relined (tree : Tree) (id : BlockId) :
    (tree.relined f).tableAt id = tree.tableAt id := by
  unfold tableAt
  rw [getElem?_blocks_relined, Option.map_map]
  rfl

theorem chain_relined (tree : Tree) (id : BlockId) : (tree.relined f).chain id = tree.chain id :=
  chain_congr tree.size_blocks_relined tree.enclosing?_relined id

@[simp]
theorem lookup_relined (tree : Tree) (id : BlockId) (name : String) :
    (tree.relined f).lookup id name = tree.lookup id name := by
  rw [lookup_eq_findSome?, lookup_eq_findSome?, chain_relined]
  simp only [tableAt_relined]

@[simp]
theorem isWithin_relined (tree : Tree) (inner outer : BlockId) :
    (tree.relined f).isWithin inner outer = tree.isWithin inner outer := by
  rw [isWithin, isWithin, chain_relined]

end Tree

namespace NameUse

theorem isAssignable_relined (tree : Tree) (block : BlockId) (kind : DeclKind) :
    isAssignable (tree.relined f) block (kind.relined f) = isAssignable tree block kind := by
  cases kind with
  | routine heading =>
      obtain ⟨result, params, body⟩ := heading
      cases body with
      | none => rfl
      | some body =>
          cases result with
          | none => rfl
          | some type => exact tree.isWithin_relined block body
  | constant | type | variableOf | parameter | enumLiteral => rfl

theorem valueObjection?_relined (ref : NameRef) (decl : Decl) :
    valueObjection? (ref.relined f) (decl.relined f) =
      (valueObjection? ref decl).map (Diagnostic.relined f) := by
  obtain ⟨name, line, kind, level?, layout?⟩ := decl
  cases kind with
  | routine heading =>
      obtain ⟨result, params, body⟩ := heading
      cases result with
      | none => rfl
      | some type => cases params <;> rfl
  | constant | type | variableOf | parameter | enumLiteral => rfl

theorem callObjection?_relined (ref : NameRef) (decl : Decl) (routineClass : RoutineClass)
    (args : Nat) :
    callObjection? (ref.relined f) (decl.relined f) routineClass args =
      (callObjection? ref decl routineClass args).map (Diagnostic.relined f) := by
  obtain ⟨name, line, kind, level?, layout?⟩ := decl
  cases kind with
  | routine heading =>
      simp only [callObjection?, Decl.relined, DeclKind.relined, DeclKind.routine?,
        Routine.routineClass_relined, apply_ite (Option.map (Diagnostic.relined f))]
      rfl
  | constant | type | variableOf | parameter | enumLiteral => rfl

/-- What speaks against a use is the same, at the line of the use. -/
theorem objection?_relined (tree : Tree) (block : BlockId) (ref : NameRef) (decl : Decl)
    (use : NameUse) :
    use.objection? (tree.relined f) block (ref.relined f) (decl.relined f) =
      (use.objection? tree block ref decl).map (Diagnostic.relined f) := by
  cases use with
  | value => exact valueObjection?_relined ref decl
  | call routineClass args => exact callObjection?_relined ref decl routineClass args
  | typeName | constant =>
      obtain ⟨name, line, kind, level?, layout?⟩ := decl
      cases kind with
      | routine heading =>
          obtain ⟨result, params, body⟩ := heading
          cases result <;> rfl
      | _ => rfl
  | target =>
      change (if isAssignable (tree.relined f) block (decl.kind.relined f) then none
        else some (Diagnostic.notAssignable ref.name (decl.kind.relined f).name (f ref.line))) = _
      rw [isAssignable_relined, DeclKind.name_relined, objection?, apply_ite (Option.map _)]
      rfl

end NameUse

/-! ### Traversals -/

namespace Binding

/-- After the same failure, whatever was logged; the second one at another line. -/
def Follows (f : Nat → Nat) (binding binding' : Binding) : Prop :=
  binding'.failure? = binding.failure?.map (Diagnostic.relined f)

/-- From where the same went wrong, the second step ends where the same went wrong as
in the first, with the view of its result. -/
def Echoes (f : Nat → Nat) {α β : Type} (view : α → β) (step : StateM Binding α)
    (step' : StateM Binding β) : Prop :=
  ∀ binding binding' : Binding, binding.Follows f binding' →
    (step'.run binding').1 = view (step.run binding).1 ∧
      (step.run binding).2.Follows f (step'.run binding').2

variable {α α' β β' : Type} {view : α → α'} {view' : β → β'}

theorem echoes_pure {value : α} {value' : α'} (h : value' = view value) :
    Echoes f view (pure value) (pure value') :=
  fun _ _ follows => ⟨h, follows⟩

theorem echoes_bind {first : StateM Binding α} {first' : StateM Binding α'}
    {next : α → StateM Binding β} {next' : α' → StateM Binding β'}
    (h : Echoes f view first first')
    (hnext : ∀ value, Echoes f view' (next value) (next' (view value))) :
    Echoes f view' (first >>= next) (first' >>= next') := by
  intro binding binding' follows
  obtain ⟨hvalue, hstate⟩ := h binding binding' follows
  have hrest := hnext (first.run binding).1 _ _ hstate
  rw [← hvalue] at hrest
  exact hrest

/-- A step and what is done to its result. -/
theorem echoes_map {first : StateM Binding α} {first' : StateM Binding α'} {change : α → β}
    {change' : α' → β'} (h : Echoes f view first first')
    (hchange : ∀ value, change' (view value) = view' (change value)) :
    Echoes f view' (change <$> first) (change' <$> first') := by
  intro binding binding' follows
  obtain ⟨hvalue, hstate⟩ := h binding binding' follows
  exact ⟨(congrArg change' hvalue).trans (hchange _), hstate⟩

theorem echoes_visit (tree : Tree) (block : BlockId) (use : NameUse) (ref : NameRef) :
    Echoes f (NameRef.relined f) (visit tree block use ref)
      (visit (tree.relined f) block use (ref.relined f)) := by
  intro binding binding' follows
  unfold Follows at follows
  unfold Follows visit StateT.run
  cases hfailure : binding.failure? with
  | some diagnostic =>
      rw [hfailure, Option.map_some] at follows
      simp only [follows, hfailure, Option.map_some, and_self]
  | none =>
      rw [hfailure, Option.map_none] at follows
      simp only [follows, hfailure, Tree.lookup_relined, NameRef.name_relined]
      cases tree.lookup block ref.name with
      | none => exact ⟨rfl, rfl⟩
      | some id =>
          simp only [Tree.getElem?_decls_relined]
          cases tree.decls[id]? with
          | none => exact ⟨rfl, rfl⟩
          | some decl => exact ⟨rfl, NameUse.objection?_relined tree block ref decl use⟩

/-- Visiting the uses of something, and those of the same at other lines. -/
def VisitsEcho (f : Nat → Nat) (visit visit' : NameUse → NameRef → StateM Binding NameRef) : Prop :=
  ∀ use ref, Echoes f (NameRef.relined f) (visit use ref) (visit' use (ref.relined f))

variable {visit visit' : NameUse → NameRef → StateM Binding NameRef}

theorem echoes_constant (hvisit : VisitsEcho f visit visit') (value : Constant) :
    Echoes f (Constant.relined f) (value.traverse visit) ((value.relined f).traverse visit') := by
  cases value with
  | literal => exact echoes_pure rfl
  | named ref => exact echoes_bind (hvisit .constant ref) fun _ => echoes_pure rfl

theorem echoes_type (hvisit : VisitsEcho f visit visit') {Lit : Type} {literal : Lit → Lit}
    (type : TypeExpr Lit) :
    Echoes f (TypeExpr.relined f literal) (type.traverse visit)
      ((type.relined f literal).traverse visit') := by
  induction type with
  | enumeration | builtin => exact echoes_pure rfl
  | named ref => exact echoes_bind (hvisit .typeName ref) fun _ => echoes_pure rfl
  | array index element line ihIndex ihElement =>
      exact echoes_bind ihIndex fun _ => echoes_bind ihElement fun _ => echoes_pure rfl
  | range low high line =>
      exact echoes_bind (echoes_constant hvisit low) fun _ =>
        echoes_bind (echoes_constant hvisit high) fun _ => echoes_pure rfl

mutual

theorem echoes_expr (hvisit : VisitsEcho f visit visit') : ∀ expr : Expr,
    Echoes f (Expr.relined f) (expr.traverse visit) ((expr.relined f).traverse visit')
  | .literal .. => echoes_pure rfl
  | .name ref => echoes_bind (hvisit .value ref) fun _ => echoes_pure rfl
  | .element ref index =>
      echoes_bind (hvisit .value ref) fun _ =>
        echoes_bind (echoes_expr hvisit index) fun _ => echoes_pure rfl
  | .call ref args => by
      rw [Expr.relined, Expr.traverse, Expr.traverse, Expr.length_relinedAll]
      exact echoes_bind (hvisit _ ref) fun _ =>
        echoes_bind (echoes_exprs hvisit args) fun _ => echoes_pure rfl
  | .group inner _ => echoes_bind (echoes_expr hvisit inner) fun _ => echoes_pure rfl
  | .negation operand _ => echoes_bind (echoes_expr hvisit operand) fun _ => echoes_pure rfl
  | .signed _ operand _ => echoes_bind (echoes_expr hvisit operand) fun _ => echoes_pure rfl
  | .binary _ left right =>
      echoes_bind (echoes_expr hvisit left) fun _ =>
        echoes_bind (echoes_expr hvisit right) fun _ => echoes_pure rfl
  | .comparison _ left right =>
      echoes_bind (echoes_expr hvisit left) fun _ =>
        echoes_bind (echoes_expr hvisit right) fun _ => echoes_pure rfl

theorem echoes_exprs (hvisit : VisitsEcho f visit visit') : ∀ exprs : List Expr,
    Echoes f (Expr.relinedAll f) (Expr.traverseAll visit exprs)
      (Expr.traverseAll visit' (Expr.relinedAll f exprs))
  | [] => echoes_pure rfl
  | expr :: others =>
      echoes_bind (echoes_expr hvisit expr) fun _ =>
        echoes_bind (echoes_exprs hvisit others) fun _ => echoes_pure rfl

end

mutual

theorem echoes_statement (hvisit : VisitsEcho f visit visit') : ∀ statement : Statement,
    Echoes f (Statement.relined f) (statement.traverse visit)
      ((statement.relined f).traverse visit')
  | .assign target index value => by
      have hvalue (target : NameRef) (index : Option Expr) :
          Echoes f (Statement.relined f)
            (value.traverse visit >>= fun value => pure (.assign target index value))
            ((value.relined f).traverse visit' >>= fun value =>
              pure (.assign (target.relined f) (index.map (Expr.relined f)) value)) :=
        echoes_bind (echoes_expr hvisit value) fun _ => echoes_pure rfl
      refine echoes_bind (hvisit .target target) fun target => ?_
      cases index with
      | none =>
          have hindex : Echoes f (Option.map (Expr.relined f)) (pure none) (pure none) :=
            echoes_pure rfl
          exact echoes_bind hindex fun _ => hvalue target _
      | some index =>
          have hindex : Echoes f (Option.map (Expr.relined f)) (some <$> index.traverse visit)
              (some <$> (index.relined f).traverse visit') :=
            echoes_map (echoes_expr hvisit index) fun _ => rfl
          exact echoes_bind hindex fun _ => hvalue target _
  | .compound body _ => echoes_bind (echoes_statements hvisit body) fun _ => echoes_pure rfl
  | .ifThen condition consequence _ =>
      echoes_bind (echoes_expr hvisit condition) fun _ =>
        echoes_bind (echoes_statement hvisit consequence) fun _ => echoes_pure rfl
  | .ifElse condition consequence alternative _ =>
      echoes_bind (echoes_expr hvisit condition) fun _ =>
        echoes_bind (echoes_statement hvisit consequence) fun _ =>
          echoes_bind (echoes_statement hvisit alternative) fun _ => echoes_pure rfl
  | .whileDo condition body _ =>
      echoes_bind (echoes_expr hvisit condition) fun _ =>
        echoes_bind (echoes_statement hvisit body) fun _ => echoes_pure rfl
  | .call ref args => by
      rw [Statement.relined, Statement.traverse, Statement.traverse, Expr.length_relinedAll]
      exact echoes_bind (hvisit _ ref) fun _ =>
        echoes_bind (echoes_exprs hvisit args) fun _ => echoes_pure rfl
  | .empty _ => echoes_pure rfl

theorem echoes_statements (hvisit : VisitsEcho f visit visit') : ∀ statements : List Statement,
    Echoes f (Statement.relinedAll f) (Statement.traverseAll visit statements)
      (Statement.traverseAll visit' (Statement.relinedAll f statements))
  | [] => echoes_pure rfl
  | statement :: others =>
      echoes_bind (echoes_statement hvisit statement) fun _ =>
        echoes_bind (echoes_statements hvisit others) fun _ => echoes_pure rfl

end

end Binding

end MiniPascal
