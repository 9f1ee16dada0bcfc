import MiniPascal.Check
import MiniPascal.Proofs.Lines.Binding

/-!
# Checking does not look at lines

A check of a tree with other lines takes the same steps: it binds the same names,
hands out the same storage and ends in the same way, at other lines.  The logs have no
part in this, so a check with another log comes to the same end as well.  The library
is on line zero, which must stay.
-/

namespace MiniPascal

variable {f : Nat → Nat}

/-! ### Steps on the tree -/

def Except.relined {α β : Type} (f : Nat → Nat) (view : α → β) (outcome : Except Diagnostic α) :
    Except Diagnostic β :=
  (outcome.map view).mapError (Diagnostic.relined f)

namespace Tree

theorem block_relined (tree : Tree) (id : BlockId) :
    (tree.relined f).block id = Except.relined f (Block.relined f) (tree.block id) := by
  unfold block
  rw [getElem?_blocks_relined]
  cases tree.blocks[id]? <;> rfl

theorem decl_relined (tree : Tree) (id : DeclId) :
    (tree.relined f).decl id = Except.relined f (Decl.relined f) (tree.decl id) := by
  unfold decl
  rw [getElem?_decls_relined]
  cases tree.decls[id]? <;> rfl

theorem modifyBlock_relined {tree : Tree} {id : BlockId} {change change' : Block → Block}
    (h : ∀ block, change' (block.relined f) = (change block).relined f) :
    (tree.relined f).modifyBlock id change' = (tree.modifyBlock id change).relined f := by
  simp only [modifyBlock, relined, modify_map h]

theorem modifyDecl_relined {tree : Tree} {id : DeclId} {change change' : Decl → Decl}
    (h : ∀ decl, change' (decl.relined f) = (change decl).relined f) :
    (tree.relined f).modifyDecl id change' = (tree.modifyDecl id change).relined f := by
  simp only [modifyDecl, relined, modify_map h]

theorem assignLevel_relined (id : DeclId) (level : Nat) (tree : Tree) :
    (tree.relined f).assignLevel id level =
      Except.relined f (Tree.relined f) (tree.assignLevel id level) := by
  unfold assignLevel
  rw [decl_relined]
  cases tree.decl id with
  | error diagnostic => rfl
  | ok decl =>
      obtain ⟨name, line, kind, level?, layout?⟩ := decl
      cases level? with
      | some fixed => rfl
      | none => exact congrArg Except.ok (modifyDecl_relined fun _ => rfl)

theorem assignLayout_relined (id : DeclId) (layout : Layout) (tree : Tree) :
    (tree.relined f).assignLayout id layout =
      Except.relined f (Tree.relined f) (tree.assignLayout id layout) := by
  unfold assignLayout
  rw [decl_relined]
  cases tree.decl id with
  | error diagnostic => rfl
  | ok decl =>
      obtain ⟨name, line, kind, level?, layout?⟩ := decl
      cases layout? with
      | some fixed => rfl
      | none => exact congrArg Except.ok (modifyDecl_relined fun _ => rfl)

theorem declare_relined (block : BlockId) (id : DeclId) (tree : Tree) :
    (tree.relined f).declare block id =
      Except.relined f (Tree.relined f) (tree.declare block id) := by
  unfold declare
  rw [decl_relined, block_relined]
  cases tree.decl id with
  | error diagnostic => rfl
  | ok decl =>
      cases tree.block block with
      | error diagnostic => rfl
      | ok target =>
          change (if (target.table.lookup decl.name).isSome then _ else _) =
            Except.relined f _ (if (target.table.lookup decl.name).isSome then _ else _)
          split
          · rfl
          · exact congrArg Except.ok (modifyBlock_relined fun _ => rfl)

theorem addDecl_relined {decl : Decl} (h : decl.relined f = decl) (tree : Tree) :
    (tree.relined f).addDecl decl = Prod.map id (Tree.relined f) (tree.addDecl decl) := by
  simp only [Tree.addDecl, Tree.relined, Array.size_map, Array.map_push, h, Prod.map, id]

end Tree

namespace Check

/-- The second state of a check has the tree of the first with other lines, and the
same scope; its log is any. -/
structure Follows (f : Nat → Nat) (state state' : Checking) : Prop where
  tree : state'.tree = state.tree.relined f
  scope : state'.scope = state.scope

/-- The second outcome of a step is that of the first with other lines. -/
inductive EndsAlike (f : Nat → Nat) {α β : Type} (view : α → β) :
    EStateM.Result Diagnostic Checking α → EStateM.Result Diagnostic Checking β → Prop
  | ok {value state state'} (follows : Follows f state state') :
    EndsAlike f view (.ok value state) (.ok (view value) state')
  | error {diagnostic state state'} (follows : Follows f state state') :
    EndsAlike f view (.error diagnostic state) (.error (diagnostic.relined f) state')

/-- From states that differ in lines and logs, two steps end alike. -/
def Echoes (f : Nat → Nat) {α β : Type} (view : α → β) (step : Check α) (step' : Check β) : Prop :=
  ∀ state state', Follows f state state' → EndsAlike f view (step.run state) (step'.run state')

variable {α α' β β' : Type} {view : α → α'} {view' : β → β'}

theorem echoes_pure {value : α} {value' : α'} (h : value' = view value) :
    Echoes f view (pure value) (pure value') := by
  subst h
  exact fun _ _ => .ok

theorem echoes_throw {diagnostic diagnostic' : Diagnostic}
    (h : diagnostic' = diagnostic.relined f) :
    Echoes f view (throw diagnostic) (throw diagnostic') := by
  subst h
  exact fun _ _ => .error

theorem echoes_bind {first : Check α} {first' : Check α'} {next : α → Check β}
    {next' : α' → Check β'} (h : Echoes f view first first')
    (hnext : ∀ value, Echoes f view' (next value) (next' (view value))) :
    Echoes f view' (first >>= next) (first' >>= next') := by
  intro state state' follows
  have hfirst := h state state' follows
  change EndsAlike f view' (EStateM.bind first next state) (EStateM.bind first' next' state')
  unfold EStateM.bind
  change EndsAlike f view (first state) (first' state') at hfirst
  revert hfirst
  cases first state with
  | ok value middle =>
      intro hfirst
      generalize first' state' = outcome at hfirst
      cases hfirst with
      | ok follows => exact hnext value _ _ follows
  | error diagnostic middle =>
      intro hfirst
      generalize first' state' = outcome at hfirst
      cases hfirst with
      | error follows => exact .error follows

/-- What follows a refusal has no part in it. -/
theorem echoes_throw_bind {diagnostic diagnostic' : Diagnostic} {next : α → Check β}
    {next' : α' → Check β'} (h : diagnostic' = diagnostic.relined f) :
    Echoes f view' (throw diagnostic >>= next) (throw diagnostic' >>= next') := by
  subst h
  exact fun _ _ => .error

/-- A step and what is done to its result. -/
theorem echoes_map {first : Check α} {first' : Check α'} {change : α → β} {change' : α' → β'}
    (h : Echoes f view first first')
    (hchange : ∀ value, change' (view value) = view' (change value)) :
    Echoes f view' (change <$> first) (change' <$> first') := by
  rw [map_eq_pure_bind, map_eq_pure_bind]
  exact echoes_bind h fun value => echoes_pure (hchange value)

/-- Steps that begin by looking at the state. -/
theorem echoes_get_bind {next : Checking → Check β} {next' : Checking → Check β'}
    (h : ∀ state state', Follows f state state' → Echoes f view' (next state) (next' state')) :
    Echoes f view' (get >>= next) (get >>= next') :=
  fun state state' follows => h state state' follows state state' follows

/-- Steps that put another scope in the place of the one they found. -/
theorem echoes_modify {change change' : Checking → Checking}
    (h : ∀ state state', Follows f state state' → Follows f (change state) (change' state')) :
    Echoes f id (modify change) (modify change') :=
  fun state state' follows => .ok (h state state' follows)

theorem echoes_onTree {step step' : Tree → Except Diagnostic Tree}
    (h : ∀ tree, step' (tree.relined f) = Except.relined f (Tree.relined f) (step tree)) :
    Echoes f id (onTree step) (onTree step') := by
  unfold onTree
  refine echoes_get_bind fun state state' follows => ?_
  rw [follows.tree, h]
  cases step state.tree with
  | error diagnostic => exact echoes_throw rfl
  | ok tree => exact echoes_modify fun _ _ follows => ⟨rfl, follows.scope⟩

theorem echoes_ask {query : Tree → Except Diagnostic α} {query' : Tree → Except Diagnostic α'}
    (h : ∀ tree, query' (tree.relined f) = Except.relined f view (query tree)) :
    Echoes f view (ask query) (ask query') := by
  unfold ask
  refine echoes_get_bind fun state state' follows => ?_
  rw [follows.tree, h]
  cases query state.tree with
  | error diagnostic => exact echoes_throw rfl
  | ok answer => exact echoes_pure rfl

/-- A step for each item, in order. -/
theorem echoes_forM {step step' : α → Check PUnit} (items : List α)
    (h : ∀ item ∈ items, Echoes f id (step item) (step' item)) :
    Echoes f id (items.forM step) (items.forM step') := by
  induction items with
  | nil => exact echoes_pure rfl
  | cons item items ih =>
      obtain ⟨hitem, hitems⟩ := List.forall_mem_cons.mp h
      exact echoes_bind hitem fun _ => ih hitems

/-! ### Binding -/

/-- A traversal that is given a visit gives the view of what it gives otherwise. -/
def TraversalEchoes (f : Nat → Nat) (view : α → α')
    (traversal : (NameUse → NameRef → StateM Binding NameRef) → StateM Binding α)
    (traversal' : (NameUse → NameRef → StateM Binding NameRef) → StateM Binding α') : Prop :=
  ∀ visit visit', Binding.VisitsEcho f visit visit' →
    Binding.Echoes f view (traversal visit) (traversal' visit')

section Bind

variable {traversal : (NameUse → NameRef → StateM Binding NameRef) → StateM Binding α}
variable {traversal' : (NameUse → NameRef → StateM Binding NameRef) → StateM Binding α'}

theorem echoes_bindNames (block : BlockId) (h : TraversalEchoes f view traversal traversal') :
    Echoes f (Prod.map view (Option.map (Diagnostic.relined f))) (Check.bind block traversal)
      (Check.bind block traversal') := by
  unfold Check.bind
  refine echoes_get_bind fun state state' follows => ?_
  have hends := h _ _ (Binding.echoes_visit state.tree block)
    { log := state.log, failure? := none } { log := state'.log, failure? := none } rfl
  rw [follows.tree]
  generalize (traversal (Binding.visit state.tree block)).run _ = ends at hends ⊢
  generalize (traversal' (Binding.visit (state.tree.relined f) block)).run _ = ends' at hends ⊢
  obtain ⟨result, binding⟩ := ends
  obtain ⟨result', binding'⟩ := ends'
  obtain ⟨rfl, hfailure⟩ := hends
  exact echoes_bind (echoes_modify fun _ _ _ => ⟨rfl, follows.scope⟩) fun _ =>
    echoes_pure (Prod.ext rfl hfailure)

theorem echoes_bindAll (block : BlockId) (h : TraversalEchoes f view traversal traversal') :
    Echoes f view (bindAll block traversal) (bindAll block traversal') := by
  refine echoes_bind (echoes_bindNames block h) fun (result, failure?) => ?_
  cases failure? with
  | none => exact echoes_pure rfl
  | some diagnostic => exact echoes_throw rfl

end Bind

/-- Binding the name of a type. -/
theorem echoes_bindTypeName (block : BlockId) (ref : NameRef) :
    Echoes f (NameRef.relined f) (bindAll block fun visit => visit .typeName ref)
      (bindAll block fun visit => visit .typeName (ref.relined f)) :=
  echoes_bindAll block fun _ _ hvisit => hvisit .typeName ref

theorem echoes_bindParam (block : BlockId) (param : DeclId) :
    Echoes f id (bindParam block param) (bindParam block param) := by
  refine echoes_bind (echoes_ask fun tree => tree.decl_relined param) fun decl => ?_
  obtain ⟨name, line, kind, level?, layout?⟩ := decl
  cases kind with
  | parameter ref =>
      exact echoes_bind (echoes_bindTypeName block ref) fun ref =>
        echoes_onTree fun tree => congrArg Except.ok (Tree.modifyDecl_relined fun _ => rfl)
  | constant | type | variableOf | enumLiteral | routine => exact echoes_pure rfl

theorem echoes_bindKind (block : BlockId) (kind : DeclKind) :
    Echoes f (DeclKind.relined f) (bindKind block kind) (bindKind block (kind.relined f)) := by
  cases kind with
  | parameter | enumLiteral => exact echoes_pure rfl
  | constant value =>
      exact echoes_bind (echoes_bindAll block fun _ _ hvisit =>
        Binding.echoes_constant hvisit value) fun _ => echoes_pure rfl
  | type content =>
      exact echoes_bind (echoes_bindAll block fun _ _ hvisit =>
        Binding.echoes_type hvisit content) fun _ => echoes_pure rfl
  | variableOf content =>
      exact echoes_bind (echoes_bindAll block fun _ _ hvisit =>
        Binding.echoes_type hvisit content) fun _ => echoes_pure rfl
  | routine heading =>
      obtain ⟨result, params, body⟩ := heading
      have hparams (result : Option NameRef) :
          Echoes f (DeclKind.relined f)
            (params.forM (bindParam block) >>= fun _ =>
              pure (DeclKind.routine { result, params, body }))
            (params.forM (bindParam block) >>= fun _ =>
              pure (DeclKind.routine { result := result.map (NameRef.relined f), params, body })) :=
        echoes_bind (echoes_forM params fun param _ => echoes_bindParam block param) fun _ =>
          echoes_pure rfl
      cases result with
      | none =>
          have hresult : Echoes f (Option.map (NameRef.relined f)) (pure none) (pure none) :=
            echoes_pure rfl
          exact echoes_bind hresult hparams
      | some ref =>
          have hresult : Echoes f (Option.map (NameRef.relined f))
              (some <$> bindAll block fun visit => visit .typeName ref)
              (some <$> bindAll block fun visit => visit .typeName (ref.relined f)) :=
            echoes_map (echoes_bindTypeName block ref) fun _ => rfl
          exact echoes_bind hresult hparams

/-! ### Declarations -/

theorem echoes_allocate : Echoes f id allocate allocate := by
  refine echoes_get_bind fun state state' follows => ?_
  rw [follows.scope]
  exact echoes_bind (echoes_modify fun _ _ _ => ⟨follows.tree, rfl⟩) fun _ => echoes_pure rfl

theorem echoes_layoutOf (kind : DeclKind) :
    Echoes f id (layoutOf kind) (layoutOf (kind.relined f)) := by
  have hallocate : Echoes f id (some <$> allocate) (some <$> allocate) :=
    echoes_map echoes_allocate fun _ => rfl
  cases kind with
  | variableOf => exact hallocate
  | routine heading =>
      simp only [DeclKind.relined, layoutOf, Routine.isFunction_relined]
      split
      · change Echoes f id (if heading.isInline then _ else _) (if heading.isInline then _ else _)
        split
        · exact hallocate
        · refine echoes_get_bind fun state state' follows => ?_
          rw [follows.scope]
          exact echoes_pure rfl
      · exact echoes_pure rfl
  | constant | type | parameter | enumLiteral => exact echoes_pure rfl

theorem literalsOf_relined (kind : DeclKind) :
    literalsOf (kind.relined f) = literalsOf kind := by
  cases kind with
  | type content | variableOf content =>
      exact (TypeExpr.literals_relined content).trans (List.map_id _)
  | constant | parameter | enumLiteral | routine => rfl

theorem echoes_enter (block : BlockId) (level : Nat) (decl : DeclId) :
    Echoes f id (enter block level decl) (enter block level decl) :=
  echoes_bind (echoes_onTree fun tree => tree.assignLevel_relined decl level) fun _ =>
    echoes_onTree fun tree => tree.declare_relined block decl

theorem echoes_declare (block : BlockId) (decl : DeclId) :
    Echoes f id (declare block decl) (declare block decl) := by
  refine echoes_get_bind fun state state' follows => ?_
  rw [follows.scope]
  refine echoes_bind (echoes_ask fun tree => tree.decl_relined decl) fun found => ?_
  refine echoes_bind (echoes_bindKind block found.kind) fun kind => ?_
  have hlast : Echoes f id
      (do onTree (·.declare block decl)
          (literalsOf kind).forM (enter block state.scope.current.level))
      (do onTree (·.declare block decl)
          (literalsOf (kind.relined f)).forM (enter block state.scope.current.level)) := by
    rw [literalsOf_relined]
    exact echoes_bind (echoes_onTree fun tree => tree.declare_relined block decl) fun _ =>
      echoes_forM _ fun literal _ => echoes_enter block _ literal
  refine echoes_bind (echoes_layoutOf kind) fun layout? => ?_
  refine echoes_bind (echoes_onTree fun tree =>
    congrArg Except.ok (Tree.modifyDecl_relined fun _ => rfl)) fun _ => ?_
  refine echoes_bind (echoes_onTree fun tree => tree.assignLevel_relined decl _) fun _ => ?_
  cases layout? with
  | none => exact hlast
  | some layout =>
      exact echoes_bind (echoes_onTree fun tree => tree.assignLayout_relined decl layout) fun _ =>
        hlast

theorem echoes_declareParams (block : BlockId) (level frameLevel index : Nat)
    (params : List DeclId) :
    Echoes f id (declareParams block level frameLevel index params)
      (declareParams block level frameLevel index params) := by
  induction params generalizing index with
  | nil => exact echoes_pure rfl
  | cons param others ih =>
      exact echoes_bind (echoes_onTree fun tree => tree.assignLevel_relined param level) fun _ =>
        echoes_bind (echoes_onTree fun tree => tree.assignLayout_relined param _) fun _ =>
          echoes_bind (echoes_onTree fun tree => tree.declare_relined block param) fun _ =>
            ih (index + 1)

/-! ### Blocks -/

theorem echoes_statements (block : BlockId) :
    Echoes f id (statements block) (statements block) := by
  refine echoes_bind (echoes_ask fun tree => tree.block_relined block) fun found => ?_
  have hbind := echoes_bindNames (f := f) block fun visit visit' hvisit =>
    Binding.echoes_statements hvisit found.statements
  refine echoes_bind hbind fun (statements, failure?) => ?_
  refine echoes_bind (echoes_onTree fun tree =>
    congrArg Except.ok (Tree.modifyBlock_relined fun _ => rfl)) fun _ => ?_
  cases failure? with
  | none => exact echoes_pure rfl
  | some diagnostic => exact echoes_throw rfl

theorem echoes_enterBlock (block : BlockId) (owner : String) (ownsFrame : Bool) :
    Echoes f id (enterBlock block owner ownsFrame) (enterBlock block owner ownsFrame) := by
  have hpush : Echoes f id
      (modify fun checking => { checking with scope := checking.scope.push block ownsFrame })
      (modify fun checking => { checking with scope := checking.scope.push block ownsFrame }) :=
    echoes_modify fun _ _ follows =>
      ⟨follows.tree, congrArg (Scope.push block ownsFrame) follows.scope⟩
  refine echoes_bind hpush fun _ => echoes_get_bind fun state state' follows => ?_
  rw [follows.scope]
  refine echoes_bind (echoes_ask fun tree => tree.block_relined block) fun found => ?_
  split
  · exact echoes_throw_bind rfl
  · exact echoes_bind (echoes_onTree fun tree =>
      congrArg Except.ok (Tree.modifyBlock_relined fun _ => rfl)) fun _ => echoes_pure rfl

theorem echoes_leaveBlock (block : BlockId) (ownsFrame : Bool) :
    Echoes f id (leaveBlock block ownsFrame) (leaveBlock block ownsFrame) := by
  refine echoes_get_bind fun state state' follows => ?_
  rw [follows.scope]
  cases state.scope.pop? with
  | none => exact echoes_throw rfl
  | some popped =>
      exact echoes_bind (echoes_modify fun _ _ follows => ⟨follows.tree, rfl⟩) fun _ =>
        echoes_onTree fun tree => congrArg Except.ok (Tree.modifyBlock_relined fun _ => rfl)

/-- A block and the blocks inside it. -/
theorem echoes_block (depth : Nat) (body : BlockId) (owner : String) (params : List DeclId)
    (ownsFrame : Bool) :
    Echoes f id (block depth body owner params ownsFrame)
      (block depth body owner params ownsFrame) := by
  induction depth generalizing body owner params ownsFrame with
  | zero => exact echoes_throw rfl
  | succ depth ih =>
      refine echoes_bind (echoes_enterBlock body owner ownsFrame) fun current => ?_
      refine echoes_bind (echoes_declareParams body _ _ 0 params) fun _ => ?_
      refine echoes_bind (echoes_ask fun tree => tree.block_relined body) fun found => ?_
      refine echoes_bind (echoes_forM _ fun decl _ => echoes_declare body decl) fun _ => ?_
      refine echoes_bind (echoes_ask fun tree => tree.block_relined body) fun found => ?_
      refine echoes_bind (echoes_forM _ fun routine _ => ?_) fun _ =>
        echoes_bind (echoes_statements body) fun _ => echoes_leaveBlock body ownsFrame
      refine echoes_bind (echoes_ask fun tree => tree.decl_relined routine) fun decl => ?_
      simp only [Decl.relined, DeclKind.routine?_relined]
      cases decl.kind.routine? with
      | none => exact echoes_pure rfl
      | some heading =>
          obtain ⟨result, params, inner⟩ := heading
          cases inner with
          | none => exact echoes_pure rfl
          | some inner => exact ih inner decl.name params (!params.isEmpty)

/-! ### Programs -/

/-- The library is on line zero. -/
theorem relined_of_mem_library (hf : f libraryLine = libraryLine) {decl : Decl}
    (h : decl ∈ Library.decls) : decl.relined f = decl := by
  have hline : decl.line = libraryLine ∧ decl.kind.relined f = decl.kind := by
    revert decl
    simp only [Library.decls, List.forall_mem_cons, List.not_mem_nil, false_implies, implies_true]
    refine ⟨⟨rfl, rfl⟩, ⟨rfl, rfl⟩, ⟨rfl, ?_⟩, ⟨rfl, rfl⟩, ⟨rfl, rfl⟩, ⟨rfl, rfl⟩, ⟨rfl, rfl⟩,
      trivial⟩
    exact congrArg (fun line => DeclKind.constant (.literal (.char '\n') line)) hf
  obtain ⟨name, line, kind, level?, layout?⟩ := decl
  obtain ⟨rfl, hkind⟩ := hline
  simp only [Decl.relined, hf, hkind]

theorem echoes_declareLibrary {decl : Decl} (h : decl.relined f = decl) :
    Echoes f id (declareLibrary decl) (declareLibrary decl) := by
  refine echoes_get_bind fun state state' follows => ?_
  rw [follows.tree, Tree.addDecl_relined h]
  exact echoes_bind (echoes_modify fun _ _ follows => ⟨rfl, follows.scope⟩) fun _ =>
    echoes_enter libraryBlock 0 _

theorem echoes_program (hf : f libraryLine = libraryLine) : Echoes f id program program := by
  refine echoes_bind (echoes_forM _ fun decl hdecl =>
    echoes_declareLibrary (relined_of_mem_library hf hdecl)) fun _ => ?_
  refine echoes_get_bind fun state state' follows => ?_
  have hblock : Echoes f id
      (block (state.tree.blocks.size + 1) state.tree.body state.tree.name [] true)
      (block ((state.tree.relined f).blocks.size + 1) state.tree.body state.tree.name [] true) := by
    rw [Tree.size_blocks_relined]
    exact echoes_block _ _ _ _ _
  rw [follows.tree]
  exact echoes_bind hblock fun _ =>
    echoes_modify fun _ _ follows =>
      ⟨congrArg (fun tree : Tree => { tree with checked := true }) follows.tree, follows.scope⟩

end Check

/-- Checking a tree with other lines, whatever was logged before, ends as checking the
tree does, at the other lines. -/
theorem Tree.check_relined (hf : f libraryLine = libraryLine) (tree : Tree) (log log' : Log) :
    ((tree.relined f).check log').result = Except.relined f id (tree.check log).result ∧
      ((tree.relined f).check log').tree = (tree.check log).tree.relined f := by
  unfold Tree.check
  change ((if tree.checked then _ else _) : Checked).result =
      Except.relined f id (if tree.checked then _ else _ : Checked).result ∧
    (if tree.checked then _ else _ : Checked).tree =
      (if tree.checked then _ else _ : Checked).tree.relined f
  split
  · exact ⟨rfl, rfl⟩
  · have hends := Check.echoes_program hf { tree, scope := .library, log }
      { tree := tree.relined f, scope := .library, log := log' } ⟨rfl, rfl⟩
    revert hends
    generalize Check.program.run { tree, scope := .library, log } = outcome
    generalize Check.program.run
      { tree := tree.relined f, scope := .library, log := log' } = outcome'
    intro hends
    cases hends with
    | ok follows => exact ⟨rfl, follows.tree⟩
    | error follows => exact ⟨rfl, follows.tree⟩

end MiniPascal
