import MiniPascal.Code.Program
import MiniPascal.Proofs.Code.Chains
import MiniPascal.Proofs.Code.Emission
import MiniPascal.Proofs.Spelled.Relation

/-!
# Code of what is spelled out

A name of a constant and the literal it stands for are loaded by the same instruction; only
the comment tells which of the two was written.  An argument that is written is looked at
through its name, so the same run-time function is called for both and the same text is
laid down.  All else in the code depends on declarations, which stay as they are.
-/

namespace MiniPascal

open MiniPascal.Assembly

def Assembly.Line.uncommented : Line → Line
  | .instruction place? done _ => .instruction place? done ""
  | line => line

namespace Code

def Emission.uncommented {α : Type} (emission : Emission α) : Emission α :=
  { emission with lines := emission.lines.map Line.uncommented }

namespace Emit

variable {α β : Type}

/-- Two emissions do the same but for comments, from every label counter. -/
def SameCode (emit emit' : Emit α) : Prop :=
  ∀ counter, (emit'.run counter).uncommented = (emit.run counter).uncommented

theorem SameCode.exists_emits {emit emit' : Emit α} (h : SameCode emit emit') {counter final : Nat}
    {lines : List Line} {value : α} (hemits : emit.Emits counter lines final value) :
    ∃ lines', emit'.Emits counter lines' final value ∧
      lines'.map Line.uncommented = lines.map Line.uncommented := by
  have hsame := h counter
  change (emit' counter).uncommented = (emit counter).uncommented at hsame
  change emit counter = _ at hemits
  rw [hemits] at hsame
  unfold Emits
  generalize emit' counter = emission at hsame ⊢
  obtain ⟨lines', final', result⟩ := emission
  obtain ⟨hlines, hfinal, hresult⟩ := Emission.mk.inj hsame
  change final' = final at hfinal
  change result = .ok value at hresult
  subst hfinal hresult
  exact ⟨lines', rfl, hlines⟩

theorem sameCode_refl (emit : Emit α) : SameCode emit emit := fun _ => rfl

theorem sameCode_bind {first first' : Emit α} {next next' : α → Emit β} (h : SameCode first first')
    (hnext : ∀ value, SameCode (next value) (next' value)) :
    SameCode (first >>= next) (first' >>= next') := by
  intro counter
  have hfirst := h counter
  change (andThen first' next' counter).uncommented = (andThen first next counter).uncommented
  change (first' counter).uncommented = (first counter).uncommented at hfirst
  unfold andThen
  generalize first counter = emission at hfirst ⊢
  generalize first' counter = emission' at hfirst ⊢
  obtain ⟨lines, middle, result⟩ := emission
  obtain ⟨lines', middle', result'⟩ := emission'
  obtain ⟨hlines, hmiddle, hresult⟩ := Emission.mk.inj hfirst
  change middle' = middle at hmiddle
  change result' = result at hresult
  subst hmiddle hresult
  cases result' with
  | error fault => exact congrArg (Emission.mk · middle' (.error fault)) hlines
  | ok value =>
      obtain ⟨hrest, hfinal, hresult⟩ := Emission.mk.inj (hnext value middle')
      change Emission.mk (List.map _ (lines' ++ _)) _ _ = Emission.mk (List.map _ (lines ++ _)) _ _
      rw [List.map_append, List.map_append]
      exact congr (congrArg₂ Emission.mk (congrArg₂ List.append hlines hrest) hfinal) hresult

/-- A first part whose value does not matter. -/
theorem sameCode_then {first first' : Emit Unit} {next next' : Emit β} (h : SameCode first first')
    (hnext : SameCode next next') :
    SameCode (first >>= fun _ => next) (first' >>= fun _ => next') :=
  sameCode_bind h fun _ => hnext

/-- A computation whose value is known. -/
theorem sameCode_ofExcept_bind {given : Except Fault α} {value : α} {next : α → Emit β}
    {emit : Emit β} (hgiven : given = .ok value) (h : SameCode (next value) emit) :
    SameCode (ofExcept given >>= next) emit := by
  subst hgiven
  exact h

/-- The same part on both sides, and what is made of its value. -/
theorem sameCode_after (first : Emit α) {next next' : α → Emit β}
    (hnext : ∀ value, SameCode (next value) (next' value)) :
    SameCode (first >>= next) (first >>= next') :=
  sameCode_bind (sameCode_refl first) hnext

end Emit

end Code

/-! ### Values -/

namespace Tree.Spelled

variable {stands : BlockId → NameRef → Literal → Prop} {tree tree' : Tree}

theorem declared_eq (h : tree.Spelled stands tree') (id : DeclId) :
    tree'.declared id = tree.declared id := by
  rw [declared, h.decls_eq, declared]

theorem constantValueWithin_eq (h : tree.Spelled stands tree') (depth : Nat) :
    tree'.constantValueWithin depth = tree.constantValueWithin depth := by
  induction depth with
  | zero =>
      funext constant
      cases constant <;> rfl
  | succ depth ih =>
      funext constant
      cases constant with
      | literal => rfl
      | named ref => simp only [constantValueWithin, ih, h.declared_eq]

theorem declValue_eq (h : tree.Spelled stands tree') (decl : Decl) :
    tree'.declValue decl = tree.declValue decl := by
  have hvalue : tree'.constantValue = tree.constantValue := by
    funext constant
    rw [constantValue, h.constantValueWithin_eq, h.decls_eq, constantValue]
  rw [declValue, hvalue, declValue]

theorem literalWithin_eq (h : tree.Spelled stands tree') (depth : Nat) :
    tree'.literalWithin depth = tree.literalWithin depth := by
  induction depth with
  | zero =>
      funext constant
      cases constant <;> rfl
  | succ depth ih =>
      funext constant
      cases constant with
      | literal => rfl
      | named ref => simp only [literalWithin, ih, h.decls_eq]

theorem argumentLiteral?_eq (h : tree.Spelled stands tree') (arg : Expr) :
    tree'.argumentLiteral? arg = tree.argumentLiteral? arg := by
  have hliteral : tree'.literal? = tree.literal? := by
    funext constant
    rw [literal?, h.literalWithin_eq, h.decls_eq, literal?]
  cases arg with
  | name ref => simp only [argumentLiteral?, h.decls_eq, hliteral]
  | literal | element | call | group | negation | signed | binary | comparison => rfl

end Tree.Spelled

/-- A name that an argument can be written by is bound to a constant. -/
theorem Tree.exists_of_argumentLiteral? {tree : Tree} {ref : NameRef} {value : Literal}
    (h : tree.argumentLiteral? (.name ref) = some value) :
    ∃ id decl constant, ref.decl? = some id ∧ tree.decls[id]? = some decl ∧
      decl.kind = .constant constant ∧ tree.literal? constant = some value := by
  simp only [argumentLiteral?, Option.bind_eq_bind, Option.bind_eq_some_iff] at h
  obtain ⟨id, hid, decl, hdecl, hvalue⟩ := h
  cases hkind : decl.kind with
  | constant constant =>
      rw [hkind] at hvalue
      exact ⟨id, decl, constant, hid, hdecl, hkind, hvalue⟩
  | type | variableOf | parameter | enumLiteral | routine =>
      rw [hkind] at hvalue
      cases hvalue

/-- A name stands for a literal if an argument that is the name is written as the literal. -/
def Tree.WrittenAs (tree : Tree) (ref : NameRef) (value : Literal) : Prop :=
  tree.argumentLiteral? (.name ref) = some value

namespace Code

open Emit

/-! ### Expressions -/

section Expressions

variable {tree tree' : Tree} {stands : BlockId → NameRef → Literal → Prop}

theorem sameCode_call (h : tree.Spelled stands tree') (labels : RoutineLabels) (id : DeclId)
    (args : Nat) {pushed pushed' written written' : Emit Unit}
    (hpushed : SameCode pushed pushed') (hwritten : SameCode written written') :
    SameCode (call ⟨tree, labels⟩ id args pushed written)
      (call ⟨tree', labels⟩ id args pushed' written') := by
  unfold call
  rw [h.declared_eq]
  refine sameCode_after _ fun decl => ?_
  cases decl.kind.routine? with
  | none => exact sameCode_refl _
  | some heading =>
      dsimp only
      split
      · exact hwritten
      · exact sameCode_then hpushed (sameCode_refl _)

theorem sameCode_nameValue (h : tree.Spelled stands tree') (labels : RoutineLabels)
    (ref : NameRef) {index index' : Emit Unit}
    (hindex : SameCode index index') :
    SameCode (nameValue ⟨tree, labels⟩ ref index) (nameValue ⟨tree', labels⟩ ref index') := by
  refine sameCode_after _ fun id => ?_
  rw [h.declared_eq]
  refine sameCode_after _ fun decl => ?_
  cases decl.kind with
  | variableOf | parameter => exact sameCode_then hindex (sameCode_refl _)
  | constant | enumLiteral =>
      dsimp only
      rw [h.declValue_eq]
      exact sameCode_refl _
  | type => exact sameCode_refl _
  | routine heading =>
      dsimp only
      split
      · exact sameCode_call h labels id 0 (sameCode_refl _) (sameCode_refl _)
      · exact sameCode_refl _

/-- A constant is loaded as its literal is, with its name as the comment. -/
theorem sameCode_constant (settled : ∀ id < tree.decls.size, tree.Settled id)
    (labels : RoutineLabels) {ref : NameRef} {value : Literal} (hvalue : tree.WrittenAs ref value) :
    SameCode (nameValue ⟨tree, labels⟩ ref (pure ()))
      (instruction (.move (.immediate value.value) .eax)) := by
  obtain ⟨id, decl, constant, hid, hdecl, hkind, -⟩ := Tree.exists_of_argumentLiteral? hvalue
  obtain ⟨decl', hdecl', hsettled⟩ := settled id (Array.getElem?_eq_some_iff.mp hdecl).1
  obtain rfl := Option.some.inj (hdecl'.symm.trans hdecl)
  rw [hkind] at hsettled
  obtain ⟨path, number, literal?, hdenotes⟩ := hsettled
  obtain rfl : literal? = some value := (hdenotes.argumentLiteral?_eq hid).symm.trans hvalue
  obtain rfl := hdenotes.value_eq
  have hnumber := hdenotes.declValue_eq hdecl
  have hresolved : ref.resolved = .ok id := by
    rw [NameRef.resolved, hid]
  have hdeclared : tree.declared id = .ok decl' := by
    rw [Tree.declared, hdecl]
  refine sameCode_ofExcept_bind hresolved (sameCode_ofExcept_bind hdeclared ?_)
  rw [hkind]
  exact sameCode_ofExcept_bind hnumber fun _ => rfl

/-- A name and its literal are written alike. -/
theorem argumentLiteral?_of_spelled {arg arg' : Expr} (harg : arg.Spelled tree.WrittenAs arg') :
    tree.argumentLiteral? arg' = tree.argumentLiteral? arg := by
  cases harg with
  | constant line hvalue => exact hvalue.symm
  | literal | name | element | call | group | negation | signed | binary | comparison => rfl

mutual

theorem sameCode_expr (h : tree.Spelled stands tree')
    (settled : ∀ id < tree.decls.size, tree.Settled id) (labels : RoutineLabels) :
    ∀ {e e' : Expr}, e.Spelled tree.WrittenAs e' →
    SameCode (expr ⟨tree, labels⟩ e) (expr ⟨tree', labels⟩ e')
  | .literal .., _, .literal .. => sameCode_refl _
  | .name _, _, .name ref => sameCode_nameValue h labels ref (sameCode_refl _)
  | .name _, _, .constant _ hvalue => sameCode_constant settled labels hvalue
  | .element .., _, .element ref hindex =>
      sameCode_nameValue h labels ref (sameCode_expr h settled labels hindex)
  | .call .., _, .call ref hargs => by
      rw [expr, expr, hargs.length_eq]
      exact sameCode_after _ fun id =>
        sameCode_call h labels id _ (sameCode_pushAll h settled labels hargs)
          (sameCode_writeAll h settled labels hargs)
  | .group .., _, .group _ hinner => by
      rw [expr, expr]
      exact sameCode_expr h settled labels hinner
  | .negation .., _, .negation _ hoperand =>
      sameCode_then (sameCode_expr h settled labels hoperand) (sameCode_refl _)
  | .signed .plus .., _, .signed _ _ hoperand => by
      rw [expr, expr]
      exact sameCode_expr h settled labels hoperand
  | .signed .minus .., _, .signed _ _ hoperand =>
      sameCode_then (sameCode_expr h settled labels hoperand) (sameCode_refl _)
  | .binary .., _, .binary _ hleft hright =>
      sameCode_then (sameCode_expr h settled labels hleft) <| sameCode_then (sameCode_refl _) <|
        sameCode_then (sameCode_expr h settled labels hright) (sameCode_refl _)
  | .comparison .., _, .comparison _ hleft hright =>
      sameCode_then (sameCode_expr h settled labels hleft) <| sameCode_then (sameCode_refl _) <|
        sameCode_then (sameCode_expr h settled labels hright) (sameCode_refl _)

theorem sameCode_pushAll (h : tree.Spelled stands tree')
    (settled : ∀ id < tree.decls.size, tree.Settled id) (labels : RoutineLabels) :
    ∀ {args args' : List Expr}, Expr.SpelledAll tree.WrittenAs args args' →
    SameCode (pushAll ⟨tree, labels⟩ args) (pushAll ⟨tree', labels⟩ args')
  | [], _, .nil => sameCode_refl _
  | _ :: _, _, .cons harg hothers =>
      sameCode_then (sameCode_pushAll h settled labels hothers) <|
        sameCode_then (sameCode_expr h settled labels harg) (sameCode_refl _)

theorem sameCode_writeAll (h : tree.Spelled stands tree')
    (settled : ∀ id < tree.decls.size, tree.Settled id) (labels : RoutineLabels) :
    ∀ {args args' : List Expr}, Expr.SpelledAll tree.WrittenAs args args' →
    SameCode (writeAll ⟨tree, labels⟩ args) (writeAll ⟨tree', labels⟩ args')
  | [], _, .nil => sameCode_refl _
  | arg :: _, _, .cons harg hothers => by
      have hexpr := sameCode_expr h settled labels harg
      have hrest := sameCode_writeAll h settled labels hothers
      rw [writeAll, writeAll, h.argumentLiteral?_eq, argumentLiteral?_of_spelled harg]
      cases tree.argumentLiteral? arg with
      | none => exact sameCode_then hexpr (sameCode_then (sameCode_refl _) hrest)
      | some literal =>
          cases literal with
          | text value =>
              exact sameCode_then (sameCode_refl _) (sameCode_then (sameCode_refl _) hrest)
          | number | char => exact sameCode_then hexpr (sameCode_then (sameCode_refl _) hrest)

end

/-! ### Statements -/

mutual

theorem sameCode_statement (h : tree.Spelled stands tree')
    (settled : ∀ id < tree.decls.size, tree.Settled id) (labels : RoutineLabels) :
    ∀ {st st' : Statement}, st.Spelled tree.WrittenAs st' →
    SameCode (statement ⟨tree, labels⟩ st) (statement ⟨tree', labels⟩ st')
  | .assign .., _, .assign target hindex hvalue => by
      have hstore : SameCode
          (ofExcept target.resolved >>= fun id => ofExcept (tree.declared id) >>= store)
          (ofExcept target.resolved >>= fun id => ofExcept (tree'.declared id) >>= store) :=
        sameCode_after _ fun id => by
          rw [h.declared_eq]
          exact sameCode_refl _
      refine sameCode_then (sameCode_expr h settled labels hvalue) ?_
      cases hindex with
      | none => exact hstore
      | some hindex =>
          exact sameCode_then (sameCode_refl _) <|
            sameCode_then (sameCode_expr h settled labels hindex) <|
              sameCode_then (sameCode_refl _) hstore
  | .compound .., _, .compound _ hbody => sameCode_statements h settled labels hbody
  | .ifThen .., _, .ifThen _ hcondition hconsequence =>
      sameCode_after _ fun _ => sameCode_then (sameCode_expr h settled labels hcondition) <|
        sameCode_then (sameCode_refl _) <|
          sameCode_then (sameCode_statement h settled labels hconsequence) (sameCode_refl _)
  | .ifElse .., _, .ifElse _ hcondition hconsequence halternative =>
      sameCode_after _ fun _ => sameCode_after _ fun _ =>
        sameCode_then (sameCode_expr h settled labels hcondition) <|
          sameCode_then (sameCode_refl _) <|
            sameCode_then (sameCode_statement h settled labels hconsequence) <|
              sameCode_then (sameCode_refl _) <| sameCode_then (sameCode_refl _) <|
                sameCode_then (sameCode_statement h settled labels halternative) (sameCode_refl _)
  | .whileDo .., _, .whileDo _ hcondition hbody =>
      sameCode_after _ fun _ => sameCode_after _ fun _ => sameCode_then (sameCode_refl _) <|
        sameCode_then (sameCode_expr h settled labels hcondition) <|
          sameCode_then (sameCode_refl _) <|
            sameCode_then (sameCode_statement h settled labels hbody) (sameCode_refl _)
  | .call .., _, .call ref hargs => by
      rw [statement, statement, hargs.length_eq]
      exact sameCode_after _ fun id => sameCode_call h labels id _
        (sameCode_pushAll h settled labels hargs) (sameCode_writeAll h settled labels hargs)
  | .empty _, _, .empty _ => sameCode_refl _

theorem sameCode_statements (h : tree.Spelled stands tree')
    (settled : ∀ id < tree.decls.size, tree.Settled id) (labels : RoutineLabels) :
    ∀ {body body' : List Statement},
    Statement.SpelledAll tree.WrittenAs body body' →
    SameCode (statements ⟨tree, labels⟩ body) (statements ⟨tree', labels⟩ body')
  | [], _, .nil => sameCode_refl _
  | _ :: _, _, .cons hstatement hothers =>
      sameCode_then (sameCode_statement h settled labels hstatement)
        (sameCode_statements h settled labels hothers)

end

end Expressions

/-! ### Routines -/

section Routines

variable {tree tree' : Tree} (h : tree.Spelled (fun _ => tree.WrittenAs) tree')
variable (settled : ∀ id < tree.decls.size, tree.Settled id)

theorem sameCode_blockOf {stands : BlockId → NameRef → Literal → Prop} {α : Type}
    {next next' : Block → Emit α} (h : tree.Spelled stands tree') (id : BlockId)
    (hnext : ∀ block block', block.Spelled (stands id) block' →
      SameCode (next block) (next' block')) :
    SameCode (ofExcept (blockOf tree id) >>= next) (ofExcept (blockOf tree' id) >>= next') := by
  unfold blockOf
  rcases h.block_cases id with ⟨hnone, hnone'⟩ | ⟨block, block', hfound, hfound', hspelled⟩
  · rw [hnone, hnone']
    exact fun _ => rfl
  · rw [hfound, hfound']
    exact hnext block block' hspelled

include h settled

theorem sameCode_framedBody (labels : RoutineLabels) (name : String) (isFunction : Bool)
    (label : Label) {body body' : Block} (hbody : body.Spelled tree.WrittenAs body') :
    SameCode (framedBody ⟨tree, labels⟩ name isFunction label body)
      (framedBody ⟨tree', labels⟩ name isFunction label body') := by
  obtain ⟨hstatements⟩ := hbody
  exact sameCode_then (sameCode_refl _) <|
    sameCode_then (sameCode_statements h settled labels hstatements) (sameCode_refl _)

theorem sameCode_inlineBody (labels : RoutineLabels) (decl : Decl) (isFunction : Bool)
    (label : Label) {body body' : Block} (hbody : body.Spelled tree.WrittenAs body') :
    SameCode (inlineBody ⟨tree, labels⟩ decl isFunction label body)
      (inlineBody ⟨tree', labels⟩ decl isFunction label body') := by
  obtain ⟨hstatements⟩ := hbody
  exact sameCode_then (sameCode_refl _) <|
    sameCode_then (sameCode_statements h settled labels hstatements) (sameCode_refl _)

theorem sameCode_routine {inside inside' : BlockId → RoutineLabels → Emit RoutineLabels}
    (hinside : ∀ body labels, SameCode (inside body labels) (inside' body labels)) (id : DeclId)
    (labels : RoutineLabels) :
    SameCode (routine inside tree id labels) (routine inside' tree' id labels) := by
  unfold routine
  rw [h.declared_eq]
  refine sameCode_after _ fun decl => ?_
  cases decl.kind.routine? with
  | none => exact sameCode_refl _
  | some heading =>
      dsimp only
      cases heading.body with
      | none => exact sameCode_refl _
      | some bodyId =>
          refine sameCode_bind (hinside bodyId labels) fun labels => ?_
          cases labels.lookup id with
          | none => exact sameCode_refl _
          | some label =>
              refine sameCode_blockOf h bodyId fun body body' hbody => ?_
              have howner : body'.ownsFrame bodyId = body.ownsFrame bodyId := by
                cases hbody
                rfl
              rw [howner]
              split
              · exact sameCode_then (sameCode_framedBody h settled labels _ _ label hbody)
                  (sameCode_refl _)
              · exact sameCode_then (sameCode_inlineBody h settled labels decl _ label hbody)
                  (sameCode_refl _)

theorem sameCode_routines {inside inside' : BlockId → RoutineLabels → Emit RoutineLabels}
    (hinside : ∀ body labels, SameCode (inside body labels) (inside' body labels))
    (ids : List DeclId) (labels : RoutineLabels) :
    SameCode (routines inside tree ids labels) (routines inside' tree' ids labels) := by
  induction ids generalizing labels with
  | nil => exact sameCode_refl _
  | cons first others ih => exact sameCode_bind (sameCode_routine h settled hinside first labels) ih

omit settled in
theorem sameCode_labelRoutines (labels : RoutineLabels) (ids : List DeclId) :
    SameCode (labelRoutines tree labels ids) (labelRoutines tree' labels ids) := by
  induction ids generalizing labels with
  | nil => exact sameCode_refl _
  | cons first others ih =>
      unfold labelRoutines
      rw [h.declared_eq]
      exact sameCode_after _ fun decl => sameCode_after _ fun number => ih _

theorem sameCode_blockRoutines (depth : Nat) (id : BlockId) (labels : RoutineLabels) :
    SameCode (blockRoutines tree depth id labels) (blockRoutines tree' depth id labels) := by
  induction depth generalizing id labels with
  | zero => exact sameCode_refl _
  | succ depth ih =>
      refine sameCode_blockOf h id fun block block' hblock => ?_
      obtain ⟨-⟩ := hblock
      exact sameCode_bind (sameCode_labelRoutines h labels _) fun labels =>
        sameCode_routines h settled ih _ labels

/-- **A checked tree has the same code spelled out**, but for comments. -/
theorem sameCode_program (name : String) : SameCode (program tree name) (program tree' name) := by
  unfold program
  rw [h.checked_eq]
  split
  · refine sameCode_after _ fun number => sameCode_then (sameCode_refl _) ?_
    rw [h.size_blocks_eq, h.body_eq]
    refine sameCode_bind (sameCode_blockRoutines h settled _ _ []) fun labels => ?_
    exact sameCode_blockOf h tree.body fun body body' hbody =>
      sameCode_framedBody h settled labels name false _ hbody
  · exact sameCode_refl _

end Routines

end Code

end MiniPascal
