import MiniPascal.Proofs.Binding.Bound
import MiniPascal.Proofs.Spelled.Relation

/-!
# Binding what is spelled out

What is spelled out uses the same names but for those that were replaced.  If all uses of a
piece of a program can be bound, so can those of the piece spelled out, and they are bound
to the same declarations: what comes out is what comes out of the piece itself, spelled out.
-/

namespace MiniPascal

/-- What a name stands for does not depend on the declaration that a use of it carries. -/
def IgnoresBinding (stands : NameRef → Literal → Prop) : Prop :=
  ∀ ref id? value, stands ref value → stands { ref with decl? := id? } value

/-- In a tree and the tree spelled out, names are bound alike. -/
theorem Tree.Spelled.visit_eq {stands : BlockId → NameRef → Literal → Prop} {tree tree' : Tree}
    (h : tree.Spelled stands tree') (block : BlockId) :
    Binding.visit tree' block = Binding.visit tree block := by
  have hassignable : NameUse.isAssignable tree' block = NameUse.isAssignable tree block := by
    funext kind
    unfold NameUse.isAssignable
    simp only [h.isWithin_eq]
  have hobjection (use : NameUse) (ref : NameRef) (decl : Decl) :
      use.objection? tree' block ref decl = use.objection? tree block ref decl := by
    cases use with
    | target => simp only [NameUse.objection?, hassignable]
    | typeName | constant | value | call => rfl
  funext use ref binding
  unfold Binding.visit
  simp only [h.lookup_eq, h.decls_eq, hobjection]

namespace Binding

variable {tree : Tree} {block : BlockId}

/-! ### Two traversals that succeed together -/

/-- If the uses can be bound, then two traversals both succeed, whatever was logged before
them, and their results are related. -/
def Passes (tree : Tree) (block : BlockId) (uses : List Use) {α β : Type} (related : α → β → Prop)
    (step : StateM Binding α) (step' : StateM Binding β) : Prop :=
  tree.AllBindable (tree.lookup block) block uses → ∀ log log' : Log,
    ∃ value value' final final', step.run { log, failure? := none } = (value, ⟨final, none⟩) ∧
      step'.run { log := log', failure? := none } = (value', ⟨final', none⟩) ∧ related value value'

variable {α α' β β' : Type} {related : α → α' → Prop} {related' : β → β' → Prop}
variable {uses uses' : List Use}

theorem passes_pure {value : α} {value' : α'} (h : related value value') :
    Passes tree block [] related (pure value) (pure value') :=
  fun _ log log' => ⟨value, value', log, log', rfl, rfl, h⟩

theorem passes_bind {first : StateM Binding α} {first' : StateM Binding α'}
    {next : α → StateM Binding β} {next' : α' → StateM Binding β'}
    (h : Passes tree block uses related first first')
    (hnext : ∀ value value', related value value' →
      Passes tree block uses' related' (next value) (next' value')) :
    Passes tree block (uses ++ uses') related' (first >>= next) (first' >>= next') := by
  intro bindable log log'
  obtain ⟨hbindable, hbindable'⟩ := List.forall_mem_append.mp bindable
  obtain ⟨value, value', middle, middle', hfirst, hfirst', hrelated⟩ := h hbindable log log'
  obtain ⟨result, result', final, final', hrest, hrest', hresults⟩ :=
    hnext value value' hrelated hbindable' middle middle'
  refine ⟨result, result', final, final', ?_, ?_, hresults⟩
  · change (next (first.run _).1).run (first.run _).2 = _
    rw [hfirst]
    exact hrest
  · change (next' (first'.run _).1).run (first'.run _).2 = _
    rw [hfirst']
    exact hrest'

/-- The last traversal of several, and what is made of its result. -/
theorem passes_last {first : StateM Binding α} {first' : StateM Binding α'} {change : α → β}
    {change' : α' → β'} (h : Passes tree block uses related first first')
    (hchange : ∀ value value', related value value' → related' (change value) (change' value')) :
    Passes tree block uses related' (first >>= fun value => pure (change value))
      (first' >>= fun value => pure (change' value)) := by
  have hbind : Passes tree block (uses ++ []) related' (first >>= fun value => pure (change value))
      (first' >>= fun value => pure (change' value)) :=
    passes_bind h fun value value' hvalue => passes_pure (hchange value value' hvalue)
  rwa [List.append_nil] at hbind

/-- A use that can be bound gets the declaration that its name stands for. -/
theorem exists_visit {use : NameUse} {ref : NameRef}
    (h : tree.Bindable (tree.lookup block) block (use, ref)) :
    ∃ id, ∀ log : Log, ∃ final, (visit tree block use ref).run { log, failure? := none } =
      ({ ref with decl? := some id }, ⟨final, none⟩) := by
  obtain ⟨id, decl, hname, hdecl, hobjection⟩ := h
  refine ⟨id, fun log => ⟨log.noteBinding ref.name ref.line decl.line, ?_⟩⟩
  simp only [visit, StateT.run, hname, hdecl, hobjection]

theorem passes_visit (use : NameUse) (ref : NameRef) :
    Passes tree block [(use, ref)] Eq (visit tree block use ref) (visit tree block use ref) := by
  intro bindable log log'
  obtain ⟨id, hvisit⟩ := exists_visit (bindable _ List.mem_cons_self)
  obtain ⟨final, hrun⟩ := hvisit log
  obtain ⟨final', hrun'⟩ := hvisit log'
  exact ⟨_, _, final, final', hrun, hrun', rfl⟩

theorem passes_constant (value : Constant) :
    Passes tree block value.uses Eq (value.traverse (visit tree block))
      (value.traverse (visit tree block)) := by
  cases value with
  | literal value line => exact passes_pure rfl
  | named ref => exact passes_last (passes_visit .constant ref) fun _ _ => congrArg Constant.named

theorem passes_type {Lit : Type} (type : TypeExpr Lit) :
    Passes tree block type.uses Eq (type.traverse (visit tree block))
      (type.traverse (visit tree block)) := by
  induction type with
  | enumeration | builtin => exact passes_pure rfl
  | named ref => exact passes_last (passes_visit .typeName ref) fun _ _ => congrArg TypeExpr.named
  | array index element line ihIndex ihElement =>
      exact passes_bind ihIndex fun _ _ hindex =>
        passes_last ihElement fun _ _ helement =>
          congrArg₂ (TypeExpr.array · · line) hindex helement
  | range low high line =>
      exact passes_bind (passes_constant low) fun _ _ hlow =>
        passes_last (passes_constant high) fun _ _ hhigh =>
          congrArg₂ (TypeExpr.range · · line) hlow hhigh

/-! ### Expressions and statements -/

section Spelled

variable {stands : NameRef → Literal → Prop}

/-- A name is bound, or its literal stands where it stood. -/
theorem passes_spelledName (ignores : IgnoresBinding stands) {ref : NameRef} {value : Literal}
    (line : Nat) (h : stands ref value) :
    Passes tree block [(.value, ref)] (Expr.Spelled stands)
      (visit tree block .value ref >>= fun ref => pure (Expr.name ref))
      (pure (Expr.literal value line)) := by
  intro bindable log log'
  obtain ⟨id, hvisit⟩ := exists_visit (bindable _ List.mem_cons_self)
  obtain ⟨final, hrun⟩ := hvisit log
  have hname := congrArg (fun result : NameRef × Binding => (Expr.name result.1, result.2)) hrun
  exact ⟨_, _, final, log', hname, rfl, .constant line (ignores ref (some id) value h)⟩

mutual

theorem passes_expr (ignores : IgnoresBinding stands) : ∀ {expr expr' : Expr},
    expr.Spelled stands expr' →
    Passes tree block expr.uses (Expr.Spelled stands) (expr.traverse (visit tree block))
      (expr'.traverse (visit tree block))
  | .literal .., _, .literal value line => passes_pure (.literal value line)
  | .name ref, _, .name _ =>
      passes_last (passes_visit .value ref) fun ref _ href => href ▸ .name ref
  | .name _, _, .constant line h => passes_spelledName ignores line h
  | .element .., _, .element ref hindex =>
      passes_bind (passes_visit .value ref) fun ref _ href =>
        passes_last (passes_expr ignores hindex) fun _ _ h => href ▸ .element ref h
  | .call .., _, .call ref hargs => by
      rw [Expr.traverse, Expr.traverse, hargs.length_eq]
      exact passes_bind (passes_visit _ ref) fun ref _ href =>
        passes_last (passes_exprs ignores hargs) fun _ _ h => href ▸ .call ref h
  | .group .., _, .group line hinner =>
      passes_last (passes_expr ignores hinner) fun _ _ => .group line
  | .negation .., _, .negation line hoperand =>
      passes_last (passes_expr ignores hoperand) fun _ _ => .negation line
  | .signed .., _, .signed sign line hoperand =>
      passes_last (passes_expr ignores hoperand) fun _ _ => .signed sign line
  | .binary .., _, .binary op hleft hright =>
      passes_bind (passes_expr ignores hleft) fun _ _ h =>
        passes_last (passes_expr ignores hright) fun _ _ => .binary op h
  | .comparison .., _, .comparison relation hleft hright =>
      passes_bind (passes_expr ignores hleft) fun _ _ h =>
        passes_last (passes_expr ignores hright) fun _ _ => .comparison relation h

theorem passes_exprs (ignores : IgnoresBinding stands) : ∀ {exprs exprs' : List Expr},
    Expr.SpelledAll stands exprs exprs' →
    Passes tree block (Expr.usesAll exprs) (Expr.SpelledAll stands)
      (Expr.traverseAll (visit tree block) exprs) (Expr.traverseAll (visit tree block) exprs')
  | [], _, .nil => passes_pure .nil
  | _ :: _, _, .cons hexpr hothers =>
      passes_bind (passes_expr ignores hexpr) fun _ _ h =>
        passes_last (passes_exprs ignores hothers) fun _ _ => .cons h

end

mutual

theorem passes_statement (ignores : IgnoresBinding stands) : ∀ {statement statement' : Statement},
    statement.Spelled stands statement' →
    Passes tree block statement.uses (Statement.Spelled stands)
      (statement.traverse (visit tree block)) (statement'.traverse (visit tree block))
  | .assign .., _, .assign target hindex hvalue => by
      refine passes_bind (passes_visit .target target) fun target _ htarget => ?_
      subst htarget
      cases hindex with
      | none =>
          have hnone : Passes tree block [] (Option.Rel (Expr.Spelled stands))
              (pure none) (pure none) := passes_pure .none
          exact passes_bind hnone fun _ _ h =>
            passes_last (passes_expr ignores hvalue) fun _ _ => .assign target h
      | some hindex =>
          exact passes_bind (passes_last (passes_expr ignores hindex) fun _ _ => .some) fun _ _ h =>
            passes_last (passes_expr ignores hvalue) fun _ _ => .assign target h
  | .compound .., _, .compound line hbody =>
      passes_last (passes_statements ignores hbody) fun _ _ => .compound line
  | .ifThen .., _, .ifThen line hcondition hconsequence =>
      passes_bind (passes_expr ignores hcondition) fun _ _ h =>
        passes_last (passes_statement ignores hconsequence) fun _ _ => .ifThen line h
  | .ifElse .., _, .ifElse line hcondition hconsequence halternative => by
      rw [Statement.uses, List.append_assoc]
      exact passes_bind (passes_expr ignores hcondition) fun _ _ h =>
        passes_bind (passes_statement ignores hconsequence) fun _ _ h' =>
          passes_last (passes_statement ignores halternative) fun _ _ => .ifElse line h h'
  | .whileDo .., _, .whileDo line hcondition hbody =>
      passes_bind (passes_expr ignores hcondition) fun _ _ h =>
        passes_last (passes_statement ignores hbody) fun _ _ => .whileDo line h
  | .call .., _, .call ref hargs => by
      rw [Statement.traverse, Statement.traverse, hargs.length_eq]
      exact passes_bind (passes_visit _ ref) fun ref _ href =>
        passes_last (passes_exprs ignores hargs) fun _ _ h => href ▸ .call ref h
  | .empty _, _, .empty line => passes_pure (.empty line)

theorem passes_statements (ignores : IgnoresBinding stands) :
    ∀ {statements statements' : List Statement},
    Statement.SpelledAll stands statements statements' →
    Passes tree block (Statement.usesAll statements) (Statement.SpelledAll stands)
      (Statement.traverseAll (visit tree block) statements)
      (Statement.traverseAll (visit tree block) statements')
  | [], _, .nil => passes_pure .nil
  | _ :: _, _, .cons hstatement hothers =>
      passes_bind (passes_statement ignores hstatement) fun _ _ h =>
        passes_last (passes_statements ignores hothers) fun _ _ => .cons h

end

end Spelled

end Binding

end MiniPascal
