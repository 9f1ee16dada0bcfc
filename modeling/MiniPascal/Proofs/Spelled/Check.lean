import MiniPascal.Proofs.Check.Nearest
import MiniPascal.Proofs.Spelled.Binding

/-!
# Checking what is spelled out

Apart from the binding of statements a check does not look at statements, and there are no
more uses of names in a tree that is spelled out than in the tree itself.  A check of the
tree that succeeds is therefore followed, step by step, by a check of the tree spelled
out, which makes the same annotations and keeps what was spelled out so.
-/

namespace MiniPascal

variable {stands : BlockId → NameRef → Literal → Prop}

/-! ### Steps on the tree -/

namespace Tree.Spelled

variable {tree tree' after : Tree}

theorem modifyDecl (h : tree.Spelled stands tree') (id : DeclId) (change : Decl → Decl) :
    (tree.modifyDecl id change).Spelled stands (tree'.modifyDecl id change) := by
  obtain ⟨hblocks⟩ := h
  exact .intro hblocks

theorem addDecl (h : tree.Spelled stands tree') (decl : Decl) :
    (tree'.addDecl decl).1 = (tree.addDecl decl).1 ∧
      (tree.addDecl decl).2.Spelled stands (tree'.addDecl decl).2 := by
  obtain ⟨hblocks⟩ := h
  exact ⟨rfl, .intro hblocks⟩

theorem setChecked (h : tree.Spelled stands tree') :
    Tree.Spelled stands { tree with checked := true } { tree' with checked := true } := by
  obtain ⟨hblocks⟩ := h
  exact .intro hblocks

theorem modifyBlock (h : tree.Spelled stands tree') (id : BlockId) {change change' : Block → Block}
    (hchange : ∀ block block', block.Spelled (stands id) block' →
      (change block).Spelled (stands id) (change' block')) :
    (tree.modifyBlock id change).Spelled stands (tree'.modifyBlock id change') := by
  have hcases := h.block_cases
  obtain @⟨blocks', -⟩ := h
  refine .intro fun other => ?_
  change Option.Rel _ (tree.blocks.modify id change)[other]? (blocks'.modify id change')[other]?
  rw [Array.getElem?_modify, Array.getElem?_modify]
  rcases hcases other with ⟨hnone, hnone'⟩ | ⟨block, block', hfound, hfound', hspelled⟩
  · change blocks'[other]? = none at hnone'
    rw [hnone, hnone']
    split <;> exact .none
  · change blocks'[other]? = some block' at hfound'
    rw [hfound, hfound']
    split
    · next hother => exact .some (hother ▸ hchange block block' (hother ▸ hspelled))
    · exact .some hspelled

theorem decl_eq (h : tree.Spelled stands tree') (id : DeclId) : tree'.decl id = tree.decl id := by
  rw [Tree.decl, h.decls_eq, Tree.decl]

/-- What is fixed of a declaration in a tree is fixed of it in the tree spelled out. -/
theorem of_assign (h : tree.Spelled stands tree') {id : DeclId}
    {assign : Decl → Except Diagnostic Decl}
    (hafter :
      (do let decl ← assign (← tree.decl id); return tree.modifyDecl id fun _ => decl) =
        .ok after) :
    ∃ after',
      (do let decl ← assign (← tree'.decl id); return tree'.modifyDecl id fun _ => decl) =
        .ok after' ∧ after.Spelled stands after' := by
  obtain ⟨decl, assigned, hdecl, hassign, rfl⟩ := Tree.exists_of_assign_eq_ok hafter
  refine ⟨tree'.modifyDecl id fun _ => assigned, ?_, h.modifyDecl id _⟩
  rw [h.decl_eq, hdecl]
  change (assign decl >>= fun decl => pure (tree'.modifyDecl id fun _ => decl)) = _
  rw [hassign]
  rfl

theorem of_assignLevel (h : tree.Spelled stands tree') {id : DeclId} {level : Nat}
    (hafter : tree.assignLevel id level = .ok after) :
    ∃ after', tree'.assignLevel id level = .ok after' ∧ after.Spelled stands after' :=
  h.of_assign hafter

theorem of_assignLayout (h : tree.Spelled stands tree') {id : DeclId} {layout : Layout}
    (hafter : tree.assignLayout id layout = .ok after) :
    ∃ after', tree'.assignLayout id layout = .ok after' ∧ after.Spelled stands after' :=
  h.of_assign hafter

theorem of_block (h : tree.Spelled stands tree') {id : BlockId} {block : Block}
    (hblock : tree.block id = .ok block) :
    ∃ block', tree'.block id = .ok block' ∧ block.Spelled (stands id) block' := by
  unfold Tree.block at hblock ⊢
  rcases h.block_cases id with ⟨hnone, -⟩ | ⟨found, found', hfound, hfound', hspelled⟩
  · rw [hnone] at hblock
    cases hblock
  · rw [hfound] at hblock
    obtain rfl := Except.ok.inj hblock
    rw [hfound']
    exact ⟨found', rfl, hspelled⟩

theorem of_declare (h : tree.Spelled stands tree') {block : BlockId} {id : DeclId}
    (hafter : tree.declare block id = .ok after) :
    ∃ after', tree'.declare block id = .ok after' ∧ after.Spelled stands after' := by
  obtain ⟨decl, found, hdecl, hfound, hfresh, rfl⟩ := Tree.exists_of_declare_eq_ok hafter
  obtain ⟨found', hfound', ⟨-⟩⟩ := h.exists_block hfound
  have hdecl' : tree'.decls[id]? = some decl := by rw [h.decls_eq, hdecl]
  have hdeclared := Tree.declare_eq hdecl' hfound'
  rw [if_neg hfresh] at hdeclared
  refine ⟨_, hdeclared, h.modifyBlock block fun _ _ hblock => ?_⟩
  obtain ⟨hstatements⟩ := hblock
  exact .intro hstatements

end Tree.Spelled

namespace Check

/-- The second state of a check has the tree of the first spelled out, and the same scope;
its log is any. -/
structure Spells (stands : BlockId → NameRef → Literal → Prop) (state state' : Checking) :
    Prop where
  tree : state.tree.Spelled stands state'.tree
  scope : state'.scope = state.scope

/-- Where the first step succeeds, the second succeeds with a result that is related to
that of the first, and leaves a state that spells out that of the first. -/
def Mirrors (stands : BlockId → NameRef → Literal → Prop) {α β : Type} (related : α → β → Prop)
    (step : Check α) (step' : Check β) : Prop :=
  ∀ ⦃state state'⦄, Spells stands state state' → ∀ ⦃value final⦄, step.run state = .ok value final →
    ∃ value' final', step'.run state' = .ok value' final' ∧ related value value' ∧
      Spells stands final final'

variable {α α' β β' : Type} {related : α → α' → Prop} {related' : β → β' → Prop}

theorem mirrors_pure {value : α} {value' : α'} (h : related value value') :
    Mirrors stands related (pure value) (pure value') := by
  intro state state' spells result final hrun
  cases hrun
  exact ⟨value', state', rfl, h, spells⟩

theorem mirrors_throw {diagnostic : Diagnostic} {step' : Check α'} :
    Mirrors stands related (throw diagnostic) step' := by
  intro state state' spells value final hrun
  cases hrun

theorem mirrors_bind {first : Check α} {first' : Check α'} {next : α → Check β}
    {next' : α' → Check β'} (h : Mirrors stands related first first')
    (hnext : ∀ value value', related value value' →
      Mirrors stands related' (next value) (next' value')) :
    Mirrors stands related' (first >>= next) (first' >>= next') := by
  intro state state' spells result final hrun
  obtain ⟨value, middle, hfirst, hrest⟩ := exists_of_run_bind_eq_ok hrun
  obtain ⟨value', middle', hfirst', hvalue, hmiddle⟩ := h spells hfirst
  obtain ⟨result', final', hrest', hresult, hfinal⟩ := hnext value value' hvalue hmiddle hrest
  refine ⟨result', final', ?_, hresult, hfinal⟩
  change EStateM.bind first' next' state' = _
  change first' state' = _ at hfirst'
  unfold EStateM.bind
  rw [hfirst']
  exact hrest'

/-- A first step whose result is the same in both. -/
theorem mirrors_then {first first' : Check α} {next : α → Check β} {next' : α → Check β'}
    (h : Mirrors stands Eq first first')
    (hnext : ∀ value, Mirrors stands related' (next value) (next' value)) :
    Mirrors stands related' (first >>= next) (first' >>= next') :=
  mirrors_bind h fun value _ hvalue => hvalue ▸ hnext value

/-- A step and what is done to its result. -/
theorem mirrors_map {first first' : Check α} {change : α → β} (h : Mirrors stands Eq first first') :
    Mirrors stands Eq (change <$> first) (change <$> first') := by
  rw [map_eq_pure_bind, map_eq_pure_bind]
  exact mirrors_then h fun _ => mirrors_pure rfl

/-- Steps that begin by looking at the state. -/
theorem mirrors_get_bind {next : Checking → Check β} {next' : Checking → Check β'}
    (h : ∀ state state', Spells stands state state' →
      Mirrors stands related' (next state) (next' state')) :
    Mirrors stands related' (get >>= next) (get >>= next') :=
  fun state state' spells => h state state' spells spells

theorem mirrors_modify {change change' : Checking → Checking}
    (h : ∀ state state', Spells stands state state' →
      Spells stands (change state) (change' state')) :
    Mirrors stands Eq (modify change) (modify change') := by
  intro state state' spells value final hrun
  cases hrun
  exact ⟨(), change' state', rfl, rfl, h state state' spells⟩

theorem mirrors_onTree {step step' : Tree → Except Diagnostic Tree}
    (h : ∀ tree tree' after, tree.Spelled stands tree' → step tree = .ok after →
      ∃ after', step' tree' = .ok after' ∧ after.Spelled stands after') :
    Mirrors stands Eq (onTree step) (onTree step') := by
  unfold onTree
  refine mirrors_get_bind fun state state' spells => ?_
  cases hstep : step state.tree with
  | error diagnostic => exact mirrors_throw
  | ok after =>
      obtain ⟨after', hstep', hafter⟩ := h _ _ _ spells.tree hstep
      rw [hstep']
      exact mirrors_modify fun _ _ spells => ⟨hafter, spells.scope⟩

theorem mirrors_ask {query : Tree → Except Diagnostic α} {query' : Tree → Except Diagnostic α'}
    (h : ∀ tree tree' answer, tree.Spelled stands tree' → query tree = .ok answer →
      ∃ answer', query' tree' = .ok answer' ∧ related answer answer') :
    Mirrors stands related (ask query) (ask query') := by
  unfold ask
  refine mirrors_get_bind fun state state' spells => ?_
  cases hquery : query state.tree with
  | error diagnostic => exact mirrors_throw
  | ok answer =>
      obtain ⟨answer', hquery', hanswer⟩ := h _ _ _ spells.tree hquery
      rw [hquery']
      exact mirrors_pure hanswer

/-- A step for each item, in order. -/
theorem mirrors_forM {step step' : α → Check PUnit} (items : List α)
    (h : ∀ item, Mirrors stands Eq (step item) (step' item)) :
    Mirrors stands Eq (items.forM step) (items.forM step') := by
  induction items with
  | nil => exact mirrors_pure rfl
  | cons item items ih => exact mirrors_then (h item) fun _ => ih

theorem mirrors_askDecl (id : DeclId) : Mirrors stands Eq (ask (·.decl id)) (ask (·.decl id)) :=
  mirrors_ask fun _ _ decl h hdecl => ⟨decl, (h.decl_eq id).trans hdecl, rfl⟩

theorem mirrors_askBlock (id : BlockId) :
    Mirrors stands (Block.Spelled (stands id)) (ask (·.block id)) (ask (·.block id)) :=
  mirrors_ask fun _ _ _ h hblock => h.of_block hblock

theorem mirrors_modifyDecl (id : DeclId) (change : Decl → Decl) :
    Mirrors stands Eq (onTree fun tree => .ok (tree.modifyDecl id change))
      (onTree fun tree => .ok (tree.modifyDecl id change)) :=
  mirrors_onTree fun tree tree' after h hafter => by
    cases hafter
    exact ⟨_, rfl, h.modifyDecl id change⟩

theorem mirrors_modifyBlock (id : BlockId) {change change' : Block → Block}
    (hchange : ∀ block block', block.Spelled (stands id) block' →
      (change block).Spelled (stands id) (change' block')) :
    Mirrors stands Eq (onTree fun tree => .ok (tree.modifyBlock id change))
      (onTree fun tree => .ok (tree.modifyBlock id change')) :=
  mirrors_onTree fun tree tree' after h hafter => by
    cases hafter
    exact ⟨_, rfl, h.modifyBlock id hchange⟩

theorem mirrors_assignLevel (id : DeclId) (level : Nat) :
    Mirrors stands Eq (onTree (·.assignLevel id level)) (onTree (·.assignLevel id level)) :=
  mirrors_onTree fun _ _ _ h hafter => h.of_assignLevel hafter

theorem mirrors_assignLayout (id : DeclId) (layout : Layout) :
    Mirrors stands Eq (onTree (·.assignLayout id layout)) (onTree (·.assignLayout id layout)) :=
  mirrors_onTree fun _ _ _ h hafter => h.of_assignLayout hafter

theorem mirrors_enterTable (block : BlockId) (id : DeclId) :
    Mirrors stands Eq (onTree (·.declare block id)) (onTree (·.declare block id)) :=
  mirrors_onTree fun _ _ _ h hafter => h.of_declare hafter

/-! ### Binding -/

section Bind

variable {traversal : (NameUse → NameRef → StateM Binding NameRef) → StateM Binding α}
variable {traversal' : (NameUse → NameRef → StateM Binding NameRef) → StateM Binding α'}

/-- Two traversals that succeed together, the first of which only succeeds where its uses
can be bound. -/
structure BindsAlike (block : BlockId) (related : α → α' → Prop)
    (traversal : (NameUse → NameRef → StateM Binding NameRef) → StateM Binding α)
    (traversal' : (NameUse → NameRef → StateM Binding NameRef) → StateM Binding α')
    (uses : List Use) : Prop where
  bindable : ∀ (tree : Tree) (log : Log),
    ((traversal (Binding.visit tree block)).run { log, failure? := none }).2.failure? = none →
      tree.AllBindable (tree.lookup block) block uses
  passes : ∀ tree : Tree, Binding.Passes tree block uses related
    (traversal (Binding.visit tree block)) (traversal' (Binding.visit tree block))

/-- Binding gives back what it made of the names even after a failure; the two only have to
do with each other if there was none. -/
theorem mirrors_bindNames {block : BlockId} {uses : List Use}
    (h : BindsAlike block related traversal traversal' uses) :
    Mirrors stands
      (fun result result' => result.2 = none → result'.2 = none ∧ related result.1 result'.1)
      (Check.bind block traversal) (Check.bind block traversal') := by
  intro state state' spells result final hrun
  have hvisit := spells.tree.visit_eq block
  cases hrun
  refine ⟨_, _, rfl, fun hnone => ?_, ⟨spells.tree, spells.scope⟩⟩
  obtain ⟨value, value', middle, middle', hfirst, hsecond, hrelated⟩ :=
    h.passes state.tree (h.bindable state.tree state.log hnone) state.log state'.log
  change traversal _ _ = _ at hfirst
  change traversal' _ _ = _ at hsecond
  rw [hvisit, hfirst, hsecond]
  exact ⟨rfl, hrelated⟩

theorem mirrors_bindAll {block : BlockId} {uses : List Use}
    (h : BindsAlike block related traversal traversal' uses) :
    Mirrors stands related (bindAll block traversal) (bindAll block traversal') := by
  refine mirrors_bind (mirrors_bindNames h)
    fun (result, failure?) (result', failure?') hresult => ?_
  cases failure? with
  | some diagnostic => exact mirrors_throw
  | none =>
      obtain ⟨rfl, hrelated⟩ := hresult rfl
      exact mirrors_pure hrelated

end Bind

variable {block : BlockId}

theorem bindsAlike_typeName (block : BlockId) (ref : NameRef) :
    BindsAlike block Eq (fun visit => visit .typeName ref) (fun visit => visit .typeName ref)
      [(.typeName, ref)] where
  bindable _ _ hnone := List.forall_mem_singleton.mpr (Binding.bindable_of_visit hnone)
  passes _ := Binding.passes_visit .typeName ref

theorem bindsAlike_constant (block : BlockId) (value : Constant) :
    BindsAlike block Eq value.traverse value.traverse value.uses where
  bindable tree _ hnone :=
    Binding.allBindable_of_visited
      (value.visited_traverse (Binding.keepsUses_visit tree block) _) hnone
  passes _ := Binding.passes_constant value

theorem bindsAlike_type (block : BlockId) (type : TypeExpr DeclId) :
    BindsAlike block Eq type.traverse type.traverse type.uses where
  bindable tree _ hnone :=
    Binding.allBindable_of_visited
      (type.visited_traverse (Binding.keepsUses_visit tree block) _) hnone
  passes _ := Binding.passes_type type

theorem bindsAlike_statements (ignores : IgnoresBinding (stands block))
    {statements statements' : List Statement}
    (h : Statement.SpelledAll (stands block) statements statements') :
    BindsAlike block (Statement.SpelledAll (stands block))
      (fun visit => Statement.traverseAll visit statements)
      (fun visit => Statement.traverseAll visit statements') (Statement.usesAll statements) where
  bindable tree _ hnone :=
    Binding.allBindable_of_visited
      (Statement.visited_traverseAll (Binding.keepsUses_visit tree block) statements _) hnone
  passes _ := Binding.passes_statements ignores h

theorem mirrors_bindParam (block : BlockId) (param : DeclId) :
    Mirrors stands Eq (bindParam block param) (bindParam block param) := by
  refine mirrors_then (mirrors_askDecl param) fun decl => ?_
  cases decl.kind with
  | parameter ref =>
      exact mirrors_then (mirrors_bindAll (bindsAlike_typeName block ref)) fun _ =>
        mirrors_modifyDecl param _
  | constant | type | variableOf | enumLiteral | routine => exact mirrors_pure rfl

theorem mirrors_bindKind (block : BlockId) (kind : DeclKind) :
    Mirrors stands Eq (bindKind block kind) (bindKind block kind) := by
  cases kind with
  | parameter | enumLiteral => exact mirrors_pure rfl
  | constant value =>
      exact mirrors_then (mirrors_bindAll (bindsAlike_constant block value)) fun _ =>
        mirrors_pure rfl
  | type content =>
      exact mirrors_then (mirrors_bindAll (bindsAlike_type block content)) fun _ =>
        mirrors_pure rfl
  | variableOf content =>
      exact mirrors_then (mirrors_bindAll (bindsAlike_type block content)) fun _ =>
        mirrors_pure rfl
  | routine heading =>
      obtain ⟨result, params, body⟩ := heading
      have hparams (result : Option NameRef) :
          Mirrors stands Eq
            (params.forM (bindParam block) >>= fun _ =>
              pure (DeclKind.routine { result, params, body }))
            (params.forM (bindParam block) >>= fun _ =>
              pure (DeclKind.routine { result, params, body })) :=
        mirrors_then (mirrors_forM params (mirrors_bindParam block)) fun _ => mirrors_pure rfl
      cases result with
      | none =>
          have hnone : Mirrors stands Eq (pure none : Check (Option NameRef)) (pure none) :=
            mirrors_pure rfl
          exact mirrors_then hnone hparams
      | some ref =>
          exact mirrors_then (mirrors_map (mirrors_bindAll (bindsAlike_typeName block ref))) hparams

/-! ### Declarations -/

theorem mirrors_allocate : Mirrors stands Eq allocate allocate := by
  refine mirrors_get_bind fun state state' spells => ?_
  rw [spells.scope]
  exact mirrors_then (mirrors_modify fun _ _ _ => ⟨spells.tree, rfl⟩) fun _ => mirrors_pure rfl

theorem mirrors_layoutOf (kind : DeclKind) : Mirrors stands Eq (layoutOf kind) (layoutOf kind) := by
  cases kind with
  | variableOf => exact mirrors_map mirrors_allocate
  | routine heading =>
      unfold layoutOf
      dsimp only
      split
      · split
        · exact mirrors_map mirrors_allocate
        · refine mirrors_get_bind fun state state' spells => ?_
          rw [spells.scope]
          exact mirrors_pure rfl
      · exact mirrors_pure rfl
  | constant | type | parameter | enumLiteral => exact mirrors_pure rfl

theorem mirrors_enter (block : BlockId) (level : Nat) (id : DeclId) :
    Mirrors stands Eq (enter block level id) (enter block level id) :=
  mirrors_then (mirrors_assignLevel id level) fun _ => mirrors_enterTable block id

theorem mirrors_declare (block : BlockId) (id : DeclId) :
    Mirrors stands Eq (declare block id) (declare block id) := by
  refine mirrors_get_bind fun state state' spells => ?_
  rw [spells.scope]
  refine mirrors_then (mirrors_askDecl id) fun decl => ?_
  refine mirrors_then (mirrors_bindKind block decl.kind) fun kind => ?_
  refine mirrors_then (mirrors_layoutOf kind) fun layout? => ?_
  refine mirrors_then (mirrors_modifyDecl id _) fun _ => ?_
  refine mirrors_then (mirrors_assignLevel id _) fun _ => ?_
  have hlast : Mirrors stands Eq
      (do onTree (·.declare block id)
          (literalsOf kind).forM (enter block state.scope.current.level))
      (do onTree (·.declare block id)
          (literalsOf kind).forM (enter block state.scope.current.level)) :=
    mirrors_then (mirrors_enterTable block id) fun _ => mirrors_forM _ (mirrors_enter block _)
  cases layout? with
  | none => exact hlast
  | some layout => exact mirrors_then (mirrors_assignLayout id layout) fun _ => hlast

theorem mirrors_declareParams (block : BlockId) (level frameLevel index : Nat)
    (params : List DeclId) :
    Mirrors stands Eq (declareParams block level frameLevel index params)
      (declareParams block level frameLevel index params) := by
  induction params generalizing index with
  | nil => exact mirrors_pure rfl
  | cons param others ih =>
      exact mirrors_then (mirrors_assignLevel param level) fun _ =>
        mirrors_then (mirrors_assignLayout param _) fun _ =>
          mirrors_then (mirrors_enterTable block param) fun _ => ih (index + 1)

/-! ### Blocks -/

/-- The statements that are bound take the place of those that were spelled out. -/
theorem mirrors_statements (ignores : IgnoresBinding (stands block)) :
    Mirrors stands Eq (statements block) (statements block) := by
  refine mirrors_bind (mirrors_askBlock block) fun found found' hfound => ?_
  obtain ⟨hstatements⟩ := hfound
  refine mirrors_bind (mirrors_bindNames (bindsAlike_statements ignores hstatements))
    fun (result, failure?) (result', failure?') hresult => ?_
  cases failure? with
  | some diagnostic =>
      intro state state' spells value final hrun
      obtain ⟨_, middle, -, hthrow⟩ := exists_of_run_bind_eq_ok hrun
      cases hthrow
  | none =>
      obtain ⟨rfl, hbound⟩ := hresult rfl
      refine mirrors_then (mirrors_modifyBlock block fun _ _ hblock => ?_) fun _ => mirrors_pure rfl
      cases hblock
      exact .intro hbound

theorem mirrors_enterBlock (block : BlockId) (owner : String) (ownsFrame : Bool) :
    Mirrors stands Eq (enterBlock block owner ownsFrame) (enterBlock block owner ownsFrame) := by
  refine mirrors_then (mirrors_modify fun _ _ spells =>
    ⟨spells.tree, congrArg (Scope.push block ownsFrame) spells.scope⟩) fun _ => ?_
  refine mirrors_get_bind fun state state' spells => ?_
  rw [spells.scope]
  refine mirrors_bind (mirrors_askBlock block) fun found found' hfound => ?_
  obtain ⟨-⟩ := hfound
  dsimp only
  split
  · intro state state' spells value final hrun
    cases hrun
  · refine mirrors_then (mirrors_modifyBlock block fun _ _ hblock => ?_) fun _ => mirrors_pure rfl
    obtain ⟨hstatements⟩ := hblock
    exact .intro hstatements

theorem mirrors_leaveBlock (block : BlockId) (ownsFrame : Bool) :
    Mirrors stands Eq (leaveBlock block ownsFrame) (leaveBlock block ownsFrame) := by
  refine mirrors_get_bind fun state state' spells => ?_
  rw [spells.scope]
  cases state.scope.pop? with
  | none => exact mirrors_throw
  | some popped =>
      refine mirrors_then (mirrors_modify fun _ _ spells => ⟨spells.tree, rfl⟩) fun _ =>
        mirrors_modifyBlock block fun _ _ hblock => ?_
      obtain ⟨hstatements⟩ := hblock
      exact .intro hstatements

/-- A block and the blocks inside it. -/
theorem mirrors_block (ignores : ∀ block, IgnoresBinding (stands block)) (depth : Nat)
    (body : BlockId) (owner : String) (params : List DeclId) (ownsFrame : Bool) :
    Mirrors stands Eq (Check.block depth body owner params ownsFrame)
      (Check.block depth body owner params ownsFrame) := by
  induction depth generalizing body owner params ownsFrame with
  | zero => exact mirrors_throw
  | succ depth ih =>
      refine mirrors_then (mirrors_enterBlock body owner ownsFrame) fun current => ?_
      refine mirrors_then (mirrors_declareParams body _ _ 0 params) fun _ => ?_
      refine mirrors_bind (mirrors_askBlock body) fun found found' hfound => ?_
      obtain ⟨-⟩ := hfound
      refine mirrors_then (mirrors_forM _ (mirrors_declare body)) fun _ => ?_
      refine mirrors_bind (mirrors_askBlock body) fun found found' hfound => ?_
      obtain ⟨-⟩ := hfound
      refine mirrors_then (mirrors_forM _ fun routine => ?_) fun _ =>
        mirrors_then (mirrors_statements (ignores body)) fun _ => mirrors_leaveBlock body ownsFrame
      refine mirrors_then (mirrors_askDecl routine) fun decl => ?_
      split
      · exact ih _ _ _ _
      · exact mirrors_pure rfl

/-! ### Programs -/

theorem mirrors_declareLibrary (decl : Decl) :
    Mirrors stands Eq (declareLibrary decl) (declareLibrary decl) := by
  refine mirrors_get_bind fun state state' spells => ?_
  obtain ⟨hid, htree⟩ := spells.tree.addDecl decl
  have henter : Mirrors stands Eq (enter libraryBlock 0 (state.tree.addDecl decl).1)
      (enter libraryBlock 0 (state'.tree.addDecl decl).1) := by
    rw [hid]
    exact mirrors_enter libraryBlock 0 _
  exact mirrors_then (mirrors_modify fun _ _ spells => ⟨htree, spells.scope⟩) fun _ => henter

theorem mirrors_program (ignores : ∀ block, IgnoresBinding (stands block)) :
    Mirrors stands Eq program program := by
  refine mirrors_then (mirrors_forM _ mirrors_declareLibrary) fun _ => ?_
  refine mirrors_get_bind fun state state' spells => ?_
  have hblock : Mirrors stands Eq
      (block (state.tree.blocks.size + 1) state.tree.body state.tree.name [] true)
      (block (state'.tree.blocks.size + 1) state'.tree.body state'.tree.name [] true) := by
    rw [spells.tree.size_blocks_eq, spells.tree.body_eq, spells.tree.name_eq]
    exact mirrors_block ignores _ _ _ _ _
  exact mirrors_then hblock fun _ =>
    mirrors_modify fun _ _ spells => ⟨spells.tree.setChecked, spells.scope⟩

end Check

/-- **A tree that is accepted is accepted spelled out**, whatever is in the log, and the
checked tree is the one that is spelled out in the same way. -/
theorem Tree.Spelled.check {tree tree' : Tree} (ignores : ∀ block, IgnoresBinding (stands block))
    (h : tree.Spelled stands tree') {log : Log} (accepted : (tree.check log).result = .ok ())
    (log' : Log) :
    (tree'.check log').result = .ok () ∧
      (tree.check log).tree.Spelled stands (tree'.check log').tree := by
  unfold Tree.check at accepted ⊢
  rw [h.checked_eq]
  split at accepted
  · next hdone =>
      rw [if_pos hdone, if_pos hdone]
      exact ⟨rfl, h⟩
  · next hdone =>
      rw [if_neg hdone, if_neg hdone]
      cases hrun : Check.program.run { tree, scope := .library, log } with
      | error diagnostic final =>
          rw [hrun] at accepted
          cases accepted
      | ok done final =>
          have spells : Check.Spells stands { tree, scope := .library, log }
              { tree := tree', scope := .library, log := log' } := ⟨h, rfl⟩
          obtain ⟨_, final', hrun', -, hfinal⟩ := Check.mirrors_program ignores spells hrun
          rw [hrun']
          exact ⟨rfl, hfinal.tree⟩

end MiniPascal
