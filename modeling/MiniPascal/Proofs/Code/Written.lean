import MiniPascal.Code.Statement
import MiniPascal.Proofs.Binding.Bound
import MiniPascal.Proofs.Code.Emission
import MiniPascal.Proofs.Code.Settled

/-!
# Code is written for checked statements

When everything declared is settled and the routines that are visible in a block
have labels, the code of every expression and every statement whose names are
bound in that block can be written.
-/

namespace MiniPascal.Code

open MiniPascal.Assembly
open Emit

theorem resolved_eq_ok {ref : NameRef} {id : DeclId} (h : ref.decl? = some id) :
    ref.resolved = .ok id := by
  rw [NameRef.resolved, h]

theorem declared_eq_ok {tree : Tree} {id : DeclId} {decl : Decl}
    (h : tree.decls[id]? = some decl) : tree.declared id = .ok decl := by
  rw [Tree.declared, h]

theorem storage_eq_ok {decl : Decl} {layout : Layout} (h : decl.layout? = some layout) :
    storage decl = .ok layout := by
  rw [storage, h]

/-- The routine that is declared, unless it is the library's, has a label. -/
def Labelled (tree : Tree) (labels : RoutineLabels) (id : DeclId) : Prop :=
  ∀ decl heading, tree.decls[id]? = some decl → decl.kind = .routine heading →
    heading.isBuiltin = false → ∃ label, labels.lookup id = some label

/-- Code that uses names so can be written. -/
structure Env.Serves (env : Env) (names : String → Option DeclId) : Prop where
  settled : ∀ id < env.tree.decls.size, env.tree.Settled id
  labelled : ∀ name id, names name = some id → Labelled env.tree env.labels id

namespace Env.Serves

variable {env : Env} {names : String → Option DeclId} {block : BlockId} {ref : NameRef}

theorem exists_settled (serves : env.Serves names) {id : DeclId} {decl : Decl}
    (hdecl : env.tree.decls[id]? = some decl) :
    match decl.kind with
    | .variableOf _ | .parameter _ => ∃ layout, decl.layout? = some layout
    | .constant _ | .enumLiteral _ => ∃ value, env.tree.declValue decl = .ok value
    | .routine heading => heading.isFunction = true → ∃ layout, decl.layout? = some layout
    | .type _ => True := by
  obtain ⟨decl', hdecl', h⟩ := serves.settled id (Array.getElem?_eq_some_iff.mp hdecl).1
  obtain rfl := Option.some.inj (hdecl.symm.trans hdecl')
  cases hkind : decl.kind with
  | constant | enumLiteral =>
      rw [hkind] at h
      obtain ⟨path, value, literal?, hdenotes⟩ := h
      exact ⟨value, hdenotes.declValue_eq hdecl⟩
  | type | variableOf | parameter | routine =>
      rw [hkind] at h
      exact h

/-! ### Expressions -/

theorem succeeds_load {decl : Decl} {layout : Layout} (h : decl.layout? = some layout) :
    (load decl).Succeeds fun _ => True :=
  succeeds_ofExcept_bind (storage_eq_ok h)
    (succeeds_then (succeeds_instruction _) (succeeds_commented _ _))

theorem succeeds_store {decl : Decl} {layout : Layout} (h : decl.layout? = some layout) :
    (store decl).Succeeds fun _ => True :=
  succeeds_ofExcept_bind (storage_eq_ok h)
    (succeeds_then (succeeds_instruction _) (succeeds_commented _ _))

theorem succeeds_callAt (label : Label) (args : Nat) :
    (callAt label args).Succeeds fun _ => True := by
  refine succeeds_then (succeeds_instruction _) ?_
  split
  · exact succeeds_pure trivial
  · exact succeeds_commented _ _

theorem succeeds_textAddress (text : String) : (textAddress text).Succeeds fun _ => True := by
  refine succeeds_bind succeeds_freshLabel fun label _ => ?_
  refine succeeds_then (succeeds_directive _) ?_
  refine succeeds_then (succeeds_line _) ?_
  refine succeeds_then (succeeds_directive _) ?_
  refine succeeds_then (succeeds_directive _) ?_
  exact succeeds_commented _ _

theorem succeeds_writeWith (function : Label) : (writeWith function).Succeeds fun _ => True := by
  refine succeeds_then (succeeds_instruction _) ?_
  refine succeeds_then (succeeds_instruction _) ?_
  exact succeeds_commented _ _

theorem succeeds_operation (op : BinaryOp) : (operation op).Succeeds fun _ => True := by
  cases op with
  | add | subtract | or | multiply | and => exact succeeds_commented _ _
  | divide => exact succeeds_then (succeeds_instruction _) (succeeds_commented _ _)
  | modulo =>
      refine succeeds_then (succeeds_instruction _) ?_
      exact succeeds_then (succeeds_instruction _) (succeeds_commented _ _)

/-- A call can be written when its routine is visible and its arguments can be
handed over. -/
theorem succeeds_call (serves : env.Serves names) {id : DeclId} {decl : Decl} {heading : Routine}
    (hname : names ref.name = some id) (hdecl : env.tree.decls[id]? = some decl)
    (hkind : decl.kind = .routine heading) {args : Nat} {pushed written : Emit Unit}
    (hpushed : pushed.Succeeds fun _ => True) (hwritten : written.Succeeds fun _ => True) :
    (call env id args pushed written).Succeeds fun _ => True := by
  refine succeeds_ofExcept_bind (declared_eq_ok hdecl) ?_
  rw [hkind]
  simp only [DeclKind.routine?]
  split
  · exact hwritten
  · next hbuiltin =>
      refine succeeds_then hpushed ?_
      obtain ⟨label, hlabel⟩ := serves.labelled ref.name id hname decl heading hdecl hkind
        (Bool.eq_false_iff.mpr hbuiltin)
      rw [hlabel]
      exact succeeds_callAt _ _

theorem exists_routine_of_call {tree : Tree} {decl : Decl} {routineClass : RoutineClass}
    {args : Nat}
    (h : (NameUse.call routineClass args).objection? tree block ref decl = none) :
    ∃ heading, decl.kind = .routine heading := by
  change NameUse.callObjection? ref decl routineClass args = none at h
  unfold NameUse.callObjection? at h
  cases hkind : decl.kind with
  | routine heading => exact ⟨heading, rfl⟩
  | constant | type | variableOf | parameter | enumLiteral =>
      rw [hkind] at h
      cases h

theorem succeeds_boundCall (serves : env.Serves names) {routineClass : RoutineClass} {count : Nat}
    (bound : env.tree.Bound names block (.call routineClass count, ref)) {args : Nat}
    {pushed written : Emit Unit} (hpushed : pushed.Succeeds fun _ => True)
    (hwritten : written.Succeeds fun _ => True) :
    Succeeds (ofExcept ref.resolved >>= fun id => call env id args pushed written)
      fun _ => True := by
  obtain ⟨id, decl, hid, hname, hdecl, hobjection⟩ := bound
  obtain ⟨heading, hkind⟩ := exists_routine_of_call hobjection
  refine succeeds_ofExcept_bind (resolved_eq_ok hid) ?_
  exact serves.succeeds_call hname hdecl hkind hpushed hwritten

theorem succeeds_nameValue (serves : env.Serves names)
    (bound : env.tree.Bound names block (.value, ref)) {index : Emit Unit}
    (hindex : index.Succeeds fun _ => True) :
    (nameValue env ref index).Succeeds fun _ => True := by
  obtain ⟨id, decl, hid, hname, hdecl, hobjection⟩ := bound
  change NameUse.valueObjection? ref decl = none at hobjection
  unfold NameUse.valueObjection? at hobjection
  have hsettled := serves.exists_settled hdecl
  refine succeeds_ofExcept_bind (resolved_eq_ok hid) ?_
  refine succeeds_ofExcept_bind (declared_eq_ok hdecl) ?_
  cases hkind : decl.kind with
  | variableOf | parameter =>
      rw [hkind] at hsettled
      obtain ⟨layout, hlayout⟩ := hsettled
      exact succeeds_then hindex (succeeds_load hlayout)
  | constant | enumLiteral =>
      rw [hkind] at hsettled
      obtain ⟨value, hvalue⟩ := hsettled
      exact succeeds_ofExcept_bind hvalue (succeeds_commented _ _)
  | type =>
      rw [hkind] at hobjection
      cases hobjection
  | routine heading =>
      simp only [hkind, Routine.routineClass] at hobjection
      by_cases hfunction : heading.isFunction = true
      · simp only [if_pos hfunction]
        exact serves.succeeds_call hname hdecl hkind (succeeds_pure trivial) (succeeds_pure trivial)
      · rw [if_neg hfunction] at hobjection
        cases hobjection

mutual

theorem succeeds_expr (serves : env.Serves names) (expr : Expr)
    (bound : ∀ use ∈ expr.uses, env.tree.Bound names block use) :
    (Code.expr env expr).Succeeds fun _ => True := by
  cases expr with
  | literal value line =>
      rw [Code.expr]
      exact succeeds_instruction _
  | name ref =>
      rw [Code.expr]
      exact serves.succeeds_nameValue (bound _ List.mem_cons_self) (succeeds_pure trivial)
  | element ref index =>
      rw [Code.expr]
      obtain ⟨href, hindex⟩ := List.forall_mem_cons.mp bound
      exact serves.succeeds_nameValue href (serves.succeeds_expr index hindex)
  | call ref args =>
      rw [Code.expr]
      obtain ⟨href, hargs⟩ := List.forall_mem_cons.mp bound
      exact serves.succeeds_boundCall href (serves.succeeds_pushAll args hargs)
        (serves.succeeds_writeAll args hargs)
  | group inner line =>
      rw [Code.expr]
      exact serves.succeeds_expr inner bound
  | negation operand line =>
      rw [Code.expr]
      exact succeeds_then (serves.succeeds_expr operand bound) (succeeds_commented _ _)
  | signed sign operand line =>
      have hoperand := serves.succeeds_expr operand bound
      cases sign with
      | plus =>
          rw [Code.expr]
          exact hoperand
      | minus =>
          rw [Code.expr]
          exact succeeds_then hoperand (succeeds_commented _ _)
  | binary op left right =>
      rw [Code.expr]
      obtain ⟨hleft, hright⟩ := List.forall_mem_append.mp bound
      refine succeeds_then (serves.succeeds_expr left hleft) ?_
      refine succeeds_then (succeeds_instruction _) ?_
      refine succeeds_then (serves.succeeds_expr right hright) ?_
      refine succeeds_then (succeeds_instruction _) ?_
      exact succeeds_then (succeeds_instruction _) (succeeds_operation op)
  | comparison relation left right =>
      rw [Code.expr]
      obtain ⟨hleft, hright⟩ := List.forall_mem_append.mp bound
      refine succeeds_then (serves.succeeds_expr left hleft) ?_
      refine succeeds_then (succeeds_instruction _) ?_
      refine succeeds_then (serves.succeeds_expr right hright) ?_
      refine succeeds_then (succeeds_instruction _) ?_
      refine succeeds_then (succeeds_instruction _) ?_
      exact succeeds_then (succeeds_instruction _) (succeeds_commented _ _)

theorem succeeds_pushAll (serves : env.Serves names) (args : List Expr)
    (bound : ∀ use ∈ Expr.usesAll args, env.tree.Bound names block use) :
    (pushAll env args).Succeeds fun _ => True := by
  cases args with
  | nil =>
      rw [pushAll]
      exact succeeds_pure trivial
  | cons arg others =>
      rw [pushAll]
      obtain ⟨harg, hothers⟩ := List.forall_mem_append.mp bound
      refine succeeds_then (serves.succeeds_pushAll others hothers) ?_
      exact succeeds_then (serves.succeeds_expr arg harg) (succeeds_instruction _)

theorem succeeds_writeAll (serves : env.Serves names) (args : List Expr)
    (bound : ∀ use ∈ Expr.usesAll args, env.tree.Bound names block use) :
    (writeAll env args).Succeeds fun _ => True := by
  cases args with
  | nil =>
      rw [writeAll]
      exact succeeds_pure trivial
  | cons arg others =>
      rw [writeAll]
      obtain ⟨harg, hothers⟩ := List.forall_mem_append.mp bound
      have hothers := serves.succeeds_writeAll others hothers
      split
      · exact succeeds_then (succeeds_textAddress _) (succeeds_then (succeeds_writeWith _) hothers)
      · exact succeeds_then (serves.succeeds_expr arg harg)
          (succeeds_then (succeeds_writeWith _) hothers)
      · exact succeeds_then (serves.succeeds_expr arg harg)
          (succeeds_then (succeeds_writeWith _) hothers)

end

/-! ### Statements -/

/-- What may be assigned to has a word. -/
theorem exists_layout_of_target (serves : env.Serves names) {id : DeclId} {decl : Decl}
    (hdecl : env.tree.decls[id]? = some decl)
    (hobjection : NameUse.target.objection? env.tree block ref decl = none) :
    ∃ layout, decl.layout? = some layout := by
  have hsettled := serves.exists_settled hdecl
  have hassignable : NameUse.isAssignable env.tree block decl.kind = true := by
    simp only [NameUse.objection?] at hobjection
    split at hobjection
    · assumption
    · cases hobjection
  unfold NameUse.isAssignable at hassignable
  cases hkind : decl.kind with
  | variableOf | parameter =>
      rw [hkind] at hsettled
      exact hsettled
  | routine heading =>
      rw [hkind] at hsettled hassignable
      simp only at hassignable
      split at hassignable
      · exact hsettled (Bool.and_eq_true_iff.mp hassignable).1
      · cases hassignable
  | constant | type | enumLiteral =>
      rw [hkind] at hassignable
      cases hassignable

theorem succeeds_branchIfZero (target : Label) :
    (branchIfZero target).Succeeds fun _ => True :=
  succeeds_then (succeeds_instruction _) (succeeds_instruction _)

theorem succeeds_assign (serves : env.Serves names) (target : NameRef) (index : Option Expr)
    (value : Expr)
    (bound : ∀ use ∈ (Statement.assign target index value).uses, env.tree.Bound names block use) :
    (Code.statement env (.assign target index value)).Succeeds fun _ => True := by
  obtain ⟨⟨id, decl, hid, -, hdecl, hobjection⟩, hoperands⟩ := List.forall_mem_cons.mp bound
  obtain ⟨hindex, hvalue⟩ := List.forall_mem_append.mp hoperands
  obtain ⟨layout, hlayout⟩ := serves.exists_layout_of_target hdecl hobjection
  have hstored : Succeeds (ofExcept target.resolved >>= fun id =>
      ofExcept (env.tree.declared id) >>= store) fun _ => True :=
    succeeds_ofExcept_bind (resolved_eq_ok hid)
      (succeeds_ofExcept_bind (declared_eq_ok hdecl) (succeeds_store hlayout))
  rw [Code.statement]
  refine succeeds_then (serves.succeeds_expr value hvalue) ?_
  cases index with
  | none => exact hstored
  | some index =>
      refine succeeds_then (succeeds_instruction _) ?_
      refine succeeds_then (serves.succeeds_expr index hindex) ?_
      exact succeeds_then (succeeds_instruction _) hstored

mutual

theorem succeeds_statement (serves : env.Serves names) (statement : Statement)
    (bound : ∀ use ∈ statement.uses, env.tree.Bound names block use) :
    (Code.statement env statement).Succeeds fun _ => True := by
  cases statement with
  | assign target index value => exact serves.succeeds_assign target index value bound
  | compound body line =>
      rw [Code.statement]
      exact serves.succeeds_statements body bound
  | ifThen condition consequence line =>
      rw [Code.statement]
      obtain ⟨hcondition, hconsequence⟩ := List.forall_mem_append.mp bound
      refine succeeds_bind succeeds_freshLabel fun done _ => ?_
      refine succeeds_then (serves.succeeds_expr condition hcondition) ?_
      refine succeeds_then (succeeds_branchIfZero done) ?_
      refine succeeds_then (serves.succeeds_statement consequence hconsequence) ?_
      exact succeeds_label done
  | ifElse condition consequence alternative line =>
      rw [Code.statement]
      obtain ⟨hfront, halternative⟩ := List.forall_mem_append.mp bound
      obtain ⟨hcondition, hconsequence⟩ := List.forall_mem_append.mp hfront
      refine succeeds_bind succeeds_freshLabel fun otherwise _ => ?_
      refine succeeds_bind succeeds_freshLabel fun done _ => ?_
      refine succeeds_then (serves.succeeds_expr condition hcondition) ?_
      refine succeeds_then (succeeds_branchIfZero otherwise) ?_
      refine succeeds_then (serves.succeeds_statement consequence hconsequence) ?_
      refine succeeds_then (succeeds_instruction _) ?_
      refine succeeds_then (succeeds_label otherwise) ?_
      refine succeeds_then (serves.succeeds_statement alternative halternative) ?_
      exact succeeds_label done
  | whileDo condition body line =>
      rw [Code.statement]
      obtain ⟨hcondition, hbody⟩ := List.forall_mem_append.mp bound
      refine succeeds_bind succeeds_freshLabel fun top _ => ?_
      refine succeeds_bind succeeds_freshLabel fun done _ => ?_
      refine succeeds_then (succeeds_label top) ?_
      refine succeeds_then (serves.succeeds_expr condition hcondition) ?_
      refine succeeds_then (succeeds_branchIfZero done) ?_
      refine succeeds_then (serves.succeeds_statement body hbody) ?_
      exact succeeds_then (succeeds_instruction _) (succeeds_label done)
  | call ref args =>
      rw [Code.statement]
      obtain ⟨href, hargs⟩ := List.forall_mem_cons.mp bound
      exact serves.succeeds_boundCall href (serves.succeeds_pushAll args hargs)
        (serves.succeeds_writeAll args hargs)
  | empty line =>
      rw [Code.statement]
      exact succeeds_pure trivial

theorem succeeds_statements (serves : env.Serves names) (statements : List Statement)
    (bound : ∀ use ∈ Statement.usesAll statements, env.tree.Bound names block use) :
    (Code.statements env statements).Succeeds fun _ => True := by
  cases statements with
  | nil =>
      rw [Code.statements]
      exact succeeds_pure trivial
  | cons first others =>
      rw [Code.statements]
      obtain ⟨hfirst, hothers⟩ := List.forall_mem_append.mp bound
      exact succeeds_then (serves.succeeds_statement first hfirst)
        (serves.succeeds_statements others hothers)

end

end Env.Serves

end MiniPascal.Code
