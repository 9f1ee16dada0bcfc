import MiniPascal.Code.Program
import MiniPascal.Proofs.Lines.Check

/-!
# Code for another counter and other lines

The code of a tree is the same wherever the counter of labels begins, but for the
numbers of the labels, all of which are as much larger as the counter is; and it is
the same whatever the lines of the tree are.  A fault is the same but for its line.
-/

namespace MiniPascal

namespace Assembly

def Label.renumbered (change : Nat → Nat) : Label → Label
  | .numbered number => .numbered (change number)
  | .unit stem name number => .unit stem name (change number)
  | .global name => .global name

def Instruction.renumbered (change : Nat → Nat) : Instruction → Instruction
  | .jump target => .jump (target.renumbered change)
  | .jumpIfEqual target => .jumpIfEqual (target.renumbered change)
  | .call target => .call (target.renumbered change)
  | .loadAddress source target => .loadAddress (source.renumbered change) target
  | instruction => instruction

def Line.renumbered (change : Nat → Nat) : Line → Line
  | .directive text => .directive text
  | .label place => .label (place.renumbered change)
  | .instruction place? done comment =>
    .instruction (place?.map (Label.renumbered change)) (done.renumbered change) comment
  | .datum place text => .datum (place.renumbered change) text

section Renumbering

variable {change change' : Nat → Nat}

theorem Label.renumbered_renumbered (label : Label) :
    (label.renumbered change).renumbered change' = label.renumbered (change' ∘ change) := by
  cases label <;> rfl

theorem Instruction.renumbered_renumbered (instruction : Instruction) :
    (instruction.renumbered change).renumbered change' =
      instruction.renumbered (change' ∘ change) := by
  cases instruction with
  | jump target | jumpIfEqual target | call target | loadAddress target =>
      simp only [renumbered, Label.renumbered_renumbered]
  | _ => rfl

theorem Line.renumbered_renumbered (line : Line) :
    (line.renumbered change).renumbered change' = line.renumbered (change' ∘ change) := by
  cases line with
  | directive => rfl
  | label place | datum place => simp only [renumbered, Label.renumbered_renumbered]
  | instruction place? done comment =>
      simp only [renumbered, Instruction.renumbered_renumbered, Option.map_map]
      congr 2
      funext label
      exact label.renumbered_renumbered

theorem Label.renumbered_id (label : Label) : label.renumbered id = label := by
  cases label <;> rfl

theorem Instruction.renumbered_id (instruction : Instruction) :
    instruction.renumbered id = instruction := by
  cases instruction with
  | jump target | jumpIfEqual target | call target | loadAddress target =>
      simp only [renumbered, Label.renumbered_id]
  | _ => rfl

theorem Line.renumbered_id (line : Line) : line.renumbered id = line := by
  cases line with
  | directive => rfl
  | label place | datum place => simp only [renumbered, Label.renumbered_id]
  | instruction place? done comment =>
      cases place? <;> simp only [renumbered, Option.map_none, Option.map_some,
        Label.renumbered_id, Instruction.renumbered_id]

end Renumbering

end Assembly

open Assembly

variable {f : Nat → Nat} {k : Nat}

namespace Code

/-- The emission with the numbers of its labels increased, and with other lines. -/
def Emission.moved (k : Nat) (f : Nat → Nat) {α β : Type} (view : α → β) (emission : Emission α) :
    Emission β where
  lines := emission.lines.map (Line.renumbered (· + k))
  counter := emission.counter + k
  result := (emission.result.map view).mapError (Fault.relined f)

def Env.moved (k : Nat) (f : Nat → Nat) (env : Env) : Env where
  tree := env.tree.relined f
  labels := env.labels.map (Prod.map id (Label.renumbered (· + k)))

namespace Emit

/-- From a counter that is larger, the second emission writes what the first writes,
with numbers that are as much larger; it stops at the same fault, at another line. -/
def Echoes (k : Nat) (f : Nat → Nat) {α β : Type} (view : α → β) (emit : Emit α)
    (emit' : Emit β) : Prop :=
  ∀ counter, emit'.run (counter + k) = (emit.run counter).moved k f view

variable {α α' β β' : Type} {view : α → α'} {view' : β → β'}

theorem echoes_pure {value : α} {value' : α'} (h : value' = view value) :
    Echoes k f view (pure value) (pure value') := by
  subst h
  exact fun _ => rfl

theorem echoes_stop {fault fault' : Fault} (h : fault' = fault.relined f) :
    Echoes k f view (stop fault) (stop fault') := by
  subst h
  exact fun _ => rfl

theorem echoes_bind {first : Emit α} {first' : Emit α'} {next : α → Emit β}
    {next' : α' → Emit β'} (h : Echoes k f view first first')
    (hnext : ∀ value, Echoes k f view' (next value) (next' (view value))) :
    Echoes k f view' (first >>= next) (first' >>= next') := by
  intro counter
  have hfirst := h counter
  change andThen first' next' (counter + k) = (andThen first next counter).moved k f view'
  change first' (counter + k) = (first counter).moved k f view at hfirst
  unfold andThen
  rw [hfirst]
  obtain ⟨lines, middle, result⟩ := first counter
  cases result with
  | error fault => rfl
  | ok value =>
      have hrest := hnext value middle
      change next' (view value) (middle + k) = (next value middle).moved k f view' at hrest
      change Emission.mk (_ ++ (next' (view value) (middle + k)).lines) _ _ =
        Emission.mk (List.map _ (lines ++ _)) _ _
      rw [hrest, List.map_append]
      rfl

/-- A first part whose value does not matter. -/
theorem echoes_then {first first' : Emit Unit} {next : Emit β} {next' : Emit β'}
    (h : Echoes k f id first first') (hnext : Echoes k f view' next next') :
    Echoes k f view' (first >>= fun _ => next) (first' >>= fun _ => next') :=
  echoes_bind h fun _ => hnext

theorem echoes_ofExcept {outcome : Except Fault α} {outcome' : Except Fault α'}
    (h : outcome' = (outcome.map view).mapError (Fault.relined f)) :
    Echoes k f view (ofExcept outcome) (ofExcept outcome') := by
  subst h
  exact fun _ => rfl

theorem echoes_freshNumber : Echoes k f (· + k) freshNumber freshNumber := by
  intro counter
  change Emission.mk [] (counter + k + 1) (.ok (counter + k + 1)) =
    Emission.mk [] (counter + 1 + k) (.ok (counter + 1 + k))
  rw [Nat.add_right_comm]

theorem echoes_freshLabel : Echoes k f (Label.renumbered (· + k)) freshLabel freshLabel :=
  echoes_bind echoes_freshNumber fun _ => echoes_pure rfl

theorem echoes_line {text text' : Line} (h : text' = text.renumbered (· + k)) :
    Echoes k f id (line text) (line text') := by
  subst h
  exact fun _ => rfl

theorem echoes_commented {instruction instruction' : Instruction} {comment : String}
    (h : instruction' = instruction.renumbered (· + k)) :
    Echoes k f id (commented instruction comment) (commented instruction' comment) := by
  subst h
  exact echoes_line rfl

theorem echoes_instruction {done done' : Instruction} (h : done' = done.renumbered (· + k)) :
    Echoes k f id (instruction done) (instruction done') :=
  echoes_commented h

end Emit

end Code

/-! ### Values -/

theorem NameRef.resolved_relined (ref : NameRef) :
    (ref.relined f).resolved = (ref.resolved.map id).mapError (Code.Fault.relined f) := by
  unfold resolved
  rw [decl?_relined]
  cases ref.decl? <;> rfl

namespace Tree

theorem declared_relined (tree : Tree) (id : DeclId) :
    (tree.relined f).declared id =
      ((tree.declared id).map (Decl.relined f)).mapError (Code.Fault.relined f) := by
  unfold declared
  rw [getElem?_decls_relined]
  cases tree.decls[id]? <;> rfl

theorem valueBy_relined {value value' : Constant → Except Code.Fault Int}
    (h : ∀ constant, value' (constant.relined f) =
      ((value constant).map id).mapError (Code.Fault.relined f)) (decl : Decl) :
    valueBy value' (decl.relined f) =
      ((valueBy value decl).map id).mapError (Code.Fault.relined f) := by
  obtain ⟨name, line, kind, level?, layout?⟩ := decl
  cases kind with
  | constant constant => exact h constant
  | routine heading =>
      obtain ⟨result, params, body⟩ := heading
      cases result <;> rfl
  | type | variableOf | parameter | enumLiteral => rfl

theorem constantValueWithin_relined (tree : Tree) (depth : Nat) (constant : Constant) :
    (tree.relined f).constantValueWithin depth (constant.relined f) =
      ((tree.constantValueWithin depth constant).map id).mapError (Code.Fault.relined f) := by
  induction depth generalizing constant with
  | zero => cases constant <;> rfl
  | succ depth ih =>
      cases constant with
      | literal => rfl
      | named ref =>
          simp only [Constant.relined, constantValueWithin]
          rw [ref.resolved_relined]
          cases ref.resolved with
          | error fault => rfl
          | ok decl =>
              change (tree.relined f).declared decl >>= _ =
                Except.mapError _ (Except.map _ (tree.declared decl >>= _))
              rw [declared_relined]
              cases tree.declared decl with
              | error fault => rfl
              | ok found => exact valueBy_relined ih found

theorem declValue_relined (tree : Tree) (decl : Decl) :
    (tree.relined f).declValue (decl.relined f) =
      ((tree.declValue decl).map id).mapError (Code.Fault.relined f) := by
  refine valueBy_relined (fun constant => ?_) decl
  rw [constantValue, size_decls_relined, constantValueWithin_relined, constantValue]

theorem literalWithin_relined (tree : Tree) (depth : Nat) (constant : Constant) :
    (tree.relined f).literalWithin depth (constant.relined f) =
      tree.literalWithin depth constant := by
  induction depth generalizing constant with
  | zero => cases constant <;> rfl
  | succ depth ih =>
      cases constant with
      | literal => rfl
      | named ref =>
          simp only [Constant.relined, literalWithin, NameRef.decl?_relined, getElem?_decls_relined]
          cases ref.decl? with
          | none => rfl
          | some decl =>
              change (Option.map (Decl.relined f) tree.decls[decl]?).bind _ =
                tree.decls[decl]?.bind _
              cases tree.decls[decl]? with
              | none => rfl
              | some found =>
                  obtain ⟨name, line, kind, level?, layout?⟩ := found
                  cases kind with
                  | constant value => exact ih value
                  | _ => rfl

theorem argumentLiteral?_relined (tree : Tree) (arg : Expr) :
    (tree.relined f).argumentLiteral? (arg.relined f) = tree.argumentLiteral? arg := by
  cases arg with
  | name ref =>
      simp only [Expr.relined, argumentLiteral?, NameRef.decl?_relined, getElem?_decls_relined]
      cases ref.decl? with
      | none => rfl
      | some decl =>
          change (Option.map (Decl.relined f) tree.decls[decl]?).bind _ = tree.decls[decl]?.bind _
          cases tree.decls[decl]? with
          | none => rfl
          | some found =>
              obtain ⟨name, line, kind, level?, layout?⟩ := found
              cases kind with
              | constant value =>
                  change (tree.relined f).literal? (value.relined f) = tree.literal? value
                  rw [literal?, size_decls_relined, literalWithin_relined, literal?]
              | _ => rfl
  | _ => rfl

end Tree

namespace Code

open Emit

/-! ### Expressions -/

theorem storage_relined (decl : Decl) :
    storage (decl.relined f) = ((storage decl).map id).mapError (Fault.relined f) := by
  obtain ⟨name, line, kind, level?, layout?⟩ := decl
  cases layout? with
  | some layout => rfl
  | none =>
      exact congrArg (fun kind => Except.error (Fault.noStorage kind name (f line)))
        kind.name_relined

theorem echoes_load (decl : Decl) : Echoes k f id (load decl) (load (decl.relined f)) :=
  echoes_bind (echoes_ofExcept (storage_relined decl)) fun _ =>
    echoes_then (echoes_instruction rfl) (echoes_commented rfl)

theorem echoes_store (decl : Decl) : Echoes k f id (store decl) (store (decl.relined f)) :=
  echoes_bind (echoes_ofExcept (storage_relined decl)) fun _ =>
    echoes_then (echoes_instruction rfl) (echoes_commented rfl)

theorem echoes_operation (op : BinaryOp) : Echoes k f id (operation op) (operation op) := by
  cases op with
  | divide => exact echoes_then (echoes_instruction rfl) (echoes_commented rfl)
  | modulo =>
      exact echoes_then (echoes_instruction rfl)
        (echoes_then (echoes_instruction rfl) (echoes_commented rfl))
  | add | subtract | or | multiply | and => exact echoes_commented rfl

theorem echoes_callAt (label : Label) (args : Nat) :
    Echoes k f id (callAt label args) (callAt (label.renumbered (· + k)) args) := by
  refine echoes_then (echoes_instruction rfl) ?_
  split
  · exact echoes_pure rfl
  · exact echoes_commented rfl

theorem lookup_moved (labels : RoutineLabels) (decl : DeclId) :
    (labels.map (Prod.map id (Label.renumbered (· + k)))).lookup decl =
      (labels.lookup decl).map (Label.renumbered (· + k)) := by
  induction labels with
  | nil => rfl
  | cons entry others ih =>
      obtain ⟨first, label⟩ := entry
      simp only [List.map_cons, Prod.map_apply, id, List.lookup_cons]
      cases decl == first with
      | true => rfl
      | false => exact ih

theorem echoes_call {env : Env} {pushed pushed' written written' : Emit Unit} (decl : DeclId)
    (args : Nat) (hpushed : Echoes k f id pushed pushed')
    (hwritten : Echoes k f id written written') :
    Echoes k f id (call env decl args pushed written)
      (call (env.moved k f) decl args pushed' written') := by
  refine echoes_bind (echoes_ofExcept (env.tree.declared_relined decl)) fun found => ?_
  simp only [Decl.relined, DeclKind.routine?_relined]
  cases found.kind.routine? with
  | none => exact echoes_stop rfl
  | some heading =>
      change Echoes k f id (if heading.isBuiltin then _ else _) (if heading.isBuiltin then _ else _)
      split
      · exact hwritten
      · refine echoes_then hpushed ?_
        have hlabel : (env.moved k f).labels.lookup decl =
            (env.labels.lookup decl).map (Label.renumbered (· + k)) := lookup_moved env.labels decl
        rw [hlabel]
        cases env.labels.lookup decl with
        | none => exact echoes_stop rfl
        | some label => exact echoes_callAt label args

theorem echoes_textAddress (text : String) :
    Echoes k f id (textAddress text) (textAddress text) :=
  echoes_bind echoes_freshLabel fun _ =>
    echoes_then (echoes_line rfl) <| echoes_then (echoes_line rfl) <|
      echoes_then (echoes_line rfl) <| echoes_then (echoes_line rfl) (echoes_commented rfl)

theorem echoes_writeWith (name : String) :
    Echoes k f id (writeWith (.global name)) (writeWith (.global name)) :=
  echoes_then (echoes_instruction rfl)
    (echoes_then (echoes_instruction rfl) (echoes_commented rfl))

theorem echoes_nameValue {env : Env} (ref : NameRef) {index index' : Emit Unit}
    (hindex : Echoes k f id index index') :
    Echoes k f id (nameValue env ref index) (nameValue (env.moved k f) (ref.relined f) index') := by
  refine echoes_bind (echoes_ofExcept ref.resolved_relined) fun decl => ?_
  refine echoes_bind (echoes_ofExcept (env.tree.declared_relined decl)) fun found => ?_
  have hvalue : Echoes k f id
      (ofExcept (env.tree.declValue found) >>= fun value =>
        commented (.move (.immediate value) .eax) found.name)
      (ofExcept ((env.tree.relined f).declValue (found.relined f)) >>= fun value =>
        commented (.move (.immediate value) .eax) found.name) :=
    echoes_bind (echoes_ofExcept (env.tree.declValue_relined found)) fun _ => echoes_commented rfl
  obtain ⟨name, line, kind, level?, layout?⟩ := found
  cases kind with
  | variableOf | parameter => exact echoes_then hindex (echoes_load _)
  | constant | enumLiteral => exact hvalue
  | type => exact echoes_stop rfl
  | routine heading =>
      simp only [Decl.relined, DeclKind.relined, Routine.isFunction_relined]
      split
      · exact echoes_call decl 0 (echoes_pure rfl) (echoes_pure rfl)
      · refine echoes_stop (congrArg (fun kind => Fault.notAValue kind name (f ref.line)) ?_)
        exact (DeclKind.routine heading).name_relined

mutual

theorem echoes_expr (env : Env) : ∀ e : Expr,
    Echoes k f id (expr env e) (expr (env.moved k f) (e.relined f))
  | .literal .. => echoes_instruction rfl
  | .name ref => echoes_nameValue ref (echoes_pure rfl)
  | .element ref index => echoes_nameValue ref (echoes_expr env index)
  | .call ref args => by
      simp only [Expr.relined, expr, Expr.length_relinedAll]
      exact echoes_bind (echoes_ofExcept ref.resolved_relined) fun decl =>
        echoes_call decl args.length (echoes_pushAll env args) (echoes_writeAll env args)
  | .group inner _ => echoes_expr env inner
  | .negation operand _ => echoes_then (echoes_expr env operand) (echoes_commented rfl)
  | .signed .plus operand _ => echoes_expr env operand
  | .signed .minus operand _ => echoes_then (echoes_expr env operand) (echoes_commented rfl)
  | .binary op left right =>
      echoes_then (echoes_expr env left) <| echoes_then (echoes_instruction rfl) <|
        echoes_then (echoes_expr env right) <| echoes_then (echoes_instruction rfl) <|
          echoes_then (echoes_instruction rfl) (echoes_operation op)
  | .comparison _ left right =>
      echoes_then (echoes_expr env left) <| echoes_then (echoes_instruction rfl) <|
        echoes_then (echoes_expr env right) <| echoes_then (echoes_instruction rfl) <|
          echoes_then (echoes_instruction rfl) <| echoes_then (echoes_instruction rfl)
            (echoes_commented rfl)

theorem echoes_pushAll (env : Env) : ∀ args : List Expr,
    Echoes k f id (pushAll env args) (pushAll (env.moved k f) (Expr.relinedAll f args))
  | [] => echoes_pure rfl
  | arg :: others =>
      echoes_then (echoes_pushAll env others) <|
        echoes_then (echoes_expr env arg) (echoes_instruction rfl)

theorem echoes_writeAll (env : Env) : ∀ args : List Expr,
    Echoes k f id (writeAll env args) (writeAll (env.moved k f) (Expr.relinedAll f args))
  | [] => echoes_pure rfl
  | arg :: others => by
      have harg : Echoes k f id (expr env arg) (expr (env.moved k f) (arg.relined f)) :=
        echoes_expr env arg
      have hothers : Echoes k f id (writeAll env others)
          (writeAll (env.moved k f) (Expr.relinedAll f others)) := echoes_writeAll env others
      have hliteral : (env.moved k f).tree.argumentLiteral? (arg.relined f) =
          env.tree.argumentLiteral? arg := env.tree.argumentLiteral?_relined arg
      rw [Expr.relinedAll, writeAll, writeAll, hliteral]
      cases env.tree.argumentLiteral? arg with
      | none => exact echoes_then harg (echoes_then (echoes_writeWith _) hothers)
      | some literal =>
          cases literal with
          | text text =>
              exact echoes_then (echoes_textAddress text) (echoes_then (echoes_writeWith _) hothers)
          | number | char => exact echoes_then harg (echoes_then (echoes_writeWith _) hothers)

end

/-! ### Statements -/

theorem echoes_branchIfZero (target : Label) :
    Echoes k f id (branchIfZero target) (branchIfZero (target.renumbered (· + k))) :=
  echoes_then (echoes_instruction rfl) (echoes_instruction rfl)

theorem echoes_label (place : Label) :
    Echoes k f id (label place) (label (place.renumbered (· + k))) :=
  echoes_line rfl

mutual

theorem echoes_statement (env : Env) : ∀ st : Statement,
    Echoes k f id (statement env st) (statement (env.moved k f) (st.relined f))
  | .assign target index value => by
      have htarget : Echoes k f id
          (ofExcept target.resolved >>= fun decl =>
            ofExcept (env.tree.declared decl) >>= fun found => store found)
          (ofExcept (target.relined f).resolved >>= fun decl =>
            ofExcept ((env.tree.relined f).declared decl) >>= fun found => store found) :=
        echoes_bind (echoes_ofExcept target.resolved_relined) fun decl =>
          echoes_bind (echoes_ofExcept (env.tree.declared_relined decl)) fun found =>
            echoes_store found
      refine echoes_then (echoes_expr env value) ?_
      cases index with
      | none => exact htarget
      | some index =>
          exact echoes_then (echoes_instruction rfl) <| echoes_then (echoes_expr env index) <|
            echoes_then (echoes_instruction rfl) htarget
  | .compound body _ => echoes_statements env body
  | .ifThen condition consequence _ =>
      echoes_bind echoes_freshLabel fun done =>
        echoes_then (echoes_expr env condition) <| echoes_then (echoes_branchIfZero done) <|
          echoes_then (echoes_statement env consequence) (echoes_label done)
  | .ifElse condition consequence alternative _ =>
      echoes_bind echoes_freshLabel fun otherwise => echoes_bind echoes_freshLabel fun done =>
        echoes_then (echoes_expr env condition) <| echoes_then (echoes_branchIfZero otherwise) <|
          echoes_then (echoes_statement env consequence) <| echoes_then (echoes_instruction rfl) <|
            echoes_then (echoes_label otherwise) <|
              echoes_then (echoes_statement env alternative) (echoes_label done)
  | .whileDo condition body _ =>
      echoes_bind echoes_freshLabel fun top => echoes_bind echoes_freshLabel fun done =>
        echoes_then (echoes_label top) <| echoes_then (echoes_expr env condition) <|
          echoes_then (echoes_branchIfZero done) <| echoes_then (echoes_statement env body) <|
            echoes_then (echoes_instruction rfl) (echoes_label done)
  | .call ref args => by
      simp only [Statement.relined, statement, Expr.length_relinedAll]
      exact echoes_bind (echoes_ofExcept ref.resolved_relined) fun decl =>
        echoes_call decl args.length (echoes_pushAll env args) (echoes_writeAll env args)
  | .empty _ => echoes_pure rfl

theorem echoes_statements (env : Env) : ∀ body : List Statement,
    Echoes k f id (statements env body) (statements (env.moved k f) (Statement.relinedAll f body))
  | [] => echoes_pure rfl
  | first :: others => echoes_then (echoes_statement env first) (echoes_statements env others)

end

/-! ### Routines -/

theorem blockOf_relined (tree : Tree) (id : BlockId) :
    blockOf (tree.relined f) id =
      ((blockOf tree id).map (Block.relined f)).mapError (Fault.relined f) := by
  unfold blockOf
  rw [Tree.getElem?_blocks_relined]
  cases tree.blocks[id]? <;> rfl

theorem labelStem_relined (kind : DeclKind) : labelStem (kind.relined f) = labelStem kind := by
  unfold labelStem
  rw [DeclKind.routine?_relined]
  cases kind.routine? with
  | none => rfl
  | some heading => simp only [Option.map_some, Routine.isFunction_relined]

def RoutineLabels.moved (k : Nat) (labels : RoutineLabels) : RoutineLabels :=
  labels.map (Prod.map id (Label.renumbered (· + k)))

theorem echoes_labelRoutines (tree : Tree) (ids : List DeclId) (labels : RoutineLabels) :
    Echoes k f (RoutineLabels.moved k) (labelRoutines tree labels ids)
      (labelRoutines (tree.relined f) (labels.moved k) ids) := by
  induction ids generalizing labels with
  | nil => exact echoes_pure rfl
  | cons first others ih =>
      refine echoes_bind (echoes_ofExcept (tree.declared_relined first)) fun decl => ?_
      refine echoes_bind echoes_freshNumber fun number => ?_
      rw [Decl.relined, labelStem_relined]
      exact ih ((first, .unit (labelStem decl.kind) decl.name number) :: labels)

theorem echoes_framedBody (env : Env) (name : String) (isFunction : Bool) (label : Label)
    (body : Block) :
    Echoes k f id (framedBody env name isFunction label body)
      (framedBody (env.moved k f) name isFunction (label.renumbered (· + k)) (body.relined f)) := by
  refine echoes_then (echoes_line rfl) ?_
  refine echoes_then (echoes_statements env body.statements) ?_
  cases isFunction with
  | true =>
      exact echoes_then (echoes_commented rfl) <| echoes_then (echoes_instruction rfl)
        (echoes_commented rfl)
  | false => exact echoes_then (echoes_instruction rfl) (echoes_commented rfl)

theorem echoes_inlineBody (env : Env) (decl : Decl) (isFunction : Bool) (label : Label)
    (body : Block) :
    Echoes k f id (inlineBody env decl isFunction label body)
      (inlineBody (env.moved k f) (decl.relined f) isFunction (label.renumbered (· + k))
        (body.relined f)) := by
  refine echoes_then (echoes_line rfl) ?_
  refine echoes_then (echoes_statements env body.statements) ?_
  cases isFunction with
  | true =>
      exact echoes_bind (echoes_ofExcept (storage_relined decl)) fun _ =>
        echoes_then (echoes_instruction rfl) <| echoes_then (echoes_commented rfl)
          (echoes_commented rfl)
  | false => exact echoes_commented rfl

section Routines

variable {inside inside' : BlockId → RoutineLabels → Emit RoutineLabels}
variable (hinside : ∀ body labels, Echoes k f (RoutineLabels.moved k) (inside body labels)
  (inside' body (labels.moved k)))

include hinside

theorem echoes_routine (tree : Tree) (decl : DeclId) (labels : RoutineLabels) :
    Echoes k f (RoutineLabels.moved k) (routine inside tree decl labels)
      (routine inside' (tree.relined f) decl (labels.moved k)) := by
  refine echoes_bind (echoes_ofExcept (tree.declared_relined decl)) fun found => ?_
  simp only [Decl.relined, DeclKind.routine?_relined]
  cases found.kind.routine? with
  | none => exact echoes_stop rfl
  | some heading =>
      simp only [Option.map_some, Routine.body_relined, Routine.isFunction_relined]
      cases heading.body with
      | none => exact echoes_stop rfl
      | some body =>
          refine echoes_bind (hinside body labels) fun labels => ?_
          rw [RoutineLabels.moved, lookup_moved]
          cases labels.lookup decl with
          | none => exact echoes_stop rfl
          | some label =>
              refine echoes_bind (echoes_ofExcept (blockOf_relined tree body)) fun block => ?_
              change Echoes k f _ (if block.ownsFrame body then _ else _)
                (if block.ownsFrame body then _ else _)
              split
              · exact echoes_then (echoes_framedBody ⟨tree, labels⟩ _ _ label block)
                  (echoes_pure rfl)
              · exact echoes_then (echoes_inlineBody ⟨tree, labels⟩ found _ label block)
                  (echoes_pure rfl)

theorem echoes_routines (tree : Tree) (ids : List DeclId) (labels : RoutineLabels) :
    Echoes k f (RoutineLabels.moved k) (routines inside tree ids labels)
      (routines inside' (tree.relined f) ids (labels.moved k)) := by
  induction ids generalizing labels with
  | nil => exact echoes_pure rfl
  | cons first others ih => exact echoes_bind (echoes_routine hinside tree first labels) ih

end Routines

theorem echoes_blockRoutines (tree : Tree) (depth : Nat) (body : BlockId)
    (labels : RoutineLabels) :
    Echoes k f (RoutineLabels.moved k) (blockRoutines tree depth body labels)
      (blockRoutines (tree.relined f) depth body (labels.moved k)) := by
  induction depth generalizing body labels with
  | zero => exact echoes_stop rfl
  | succ depth ih =>
      refine echoes_bind (echoes_ofExcept (blockOf_relined tree body)) fun block => ?_
      refine echoes_bind (echoes_labelRoutines tree block.routines labels) fun labels => ?_
      exact echoes_routines ih tree block.routines labels

/-! ### Programs -/

theorem echoes_entry (label : Label) :
    Echoes k f id (entry label) (entry (label.renumbered (· + k))) :=
  echoes_then (echoes_line rfl) <| echoes_then (echoes_line rfl) <|
    echoes_then (echoes_line rfl) <| echoes_then (echoes_line rfl) <|
      echoes_then (echoes_line rfl) <| echoes_then (echoes_line rfl) <|
        echoes_then (echoes_line rfl) <| echoes_then (echoes_commented rfl) (echoes_commented rfl)

/-- The code of a program with other lines, begun at a larger counter, is the code of
the program with larger numbers in its labels. -/
theorem echoes_program (tree : Tree) (name : String) :
    Echoes k f id (program tree name) (program (tree.relined f) name) := by
  unfold program
  change Echoes k f id (if tree.checked then _ else _) (if tree.checked then _ else _)
  split
  · refine echoes_bind echoes_freshNumber fun number => ?_
    refine echoes_then (echoes_entry (.unit Label.programStem name number)) ?_
    have hroutines := echoes_blockRoutines (k := k) (f := f) tree (tree.blocks.size + 1)
      tree.body []
    rw [Tree.size_blocks_relined]
    refine echoes_bind hroutines fun labels => ?_
    refine echoes_bind (echoes_ofExcept (blockOf_relined tree tree.body)) fun body => ?_
    exact echoes_framedBody ⟨tree, labels⟩ name false (.unit Label.programStem name number) body
  · exact echoes_stop rfl

end Code

end MiniPascal
