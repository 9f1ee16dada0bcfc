import MiniPascal.Proofs.Check.Program

/-!
# Checking again

No step of a check takes a name out of a table or says that the tree is checked, and a
failing step keeps the state it reached.  The first thing a check does is to declare the
library, so the names of the library stay however the check ends.  A check that begins
with one of them already there fails.
-/

namespace MiniPascal

namespace Tree

def HasName (tree : Tree) (id : BlockId) (name : String) : Prop :=
  ((tree.tableAt id).lookup name).isSome = true

/-- A later state of a tree has the names of the earlier one, and is checked if that one is. -/
structure Outgrown (before after : Tree) : Prop where
  checked_eq : after.checked = before.checked
  hasName : ∀ id name, before.HasName id name → after.HasName id name

namespace Outgrown

theorem refl (tree : Tree) : tree.Outgrown tree :=
  ⟨rfl, fun _ _ h => h⟩

theorem trans {before middle after : Tree} (first : before.Outgrown middle)
    (second : middle.Outgrown after) : before.Outgrown after :=
  ⟨second.checked_eq.trans first.checked_eq,
    fun id name h => second.hasName id name (first.hasName id name h)⟩

/-- Declarations do not matter. -/
theorem modifyDecl (tree : Tree) (id : DeclId) (change : Decl → Decl) :
    tree.Outgrown (tree.modifyDecl id change) :=
  ⟨rfl, fun _ _ h => h⟩

theorem addDecl (tree : Tree) (decl : Decl) : tree.Outgrown (tree.addDecl decl).2 :=
  ⟨rfl, fun _ _ h => h⟩

theorem modifyBlock (tree : Tree) (id : BlockId) {change : Block → Block}
    (hchange : ∀ block name, (block.table.lookup name).isSome = true →
      ((change block).table.lookup name).isSome = true) :
    tree.Outgrown (tree.modifyBlock id change) := by
  refine ⟨rfl, fun other name h => ?_⟩
  unfold HasName tableAt at *
  rw [getElem?_blocks_modifyBlock]
  by_cases hother : id = other
  · rw [if_pos hother]
    cases hblock : tree.blocks[other]? with
    | none =>
        rw [hblock] at h
        exact h
    | some block =>
        rw [hblock] at h
        exact hchange block name h
  · rw [if_neg hother]
    exact h

theorem of_assignLevel {tree after : Tree} {id : DeclId} {level : Nat}
    (h : tree.assignLevel id level = .ok after) : tree.Outgrown after := by
  obtain ⟨-, assigned, -, -, rfl⟩ := exists_of_assign_eq_ok h
  exact modifyDecl tree id _

theorem of_assignLayout {tree after : Tree} {id : DeclId} {layout : Layout}
    (h : tree.assignLayout id layout = .ok after) : tree.Outgrown after := by
  obtain ⟨-, assigned, -, -, rfl⟩ := exists_of_assign_eq_ok h
  exact modifyDecl tree id _

end Outgrown

/-- A name can be declared in a block that does not have it yet, and then it is there
along with those that were. -/
theorem exists_of_declare {tree after : Tree} {block : BlockId} {id : DeclId}
    (h : tree.declare block id = .ok after) :
    ∃ decl, tree.decls[id]? = some decl ∧ ¬tree.HasName block decl.name ∧
      tree.Outgrown after := by
  obtain ⟨decl, target, hdecl, htarget, hfresh, rfl⟩ := exists_of_declare_eq_ok h
  refine ⟨decl, hdecl, ?_, ?_⟩
  · rw [HasName, tableAt, htarget]
    exact hfresh
  · refine Outgrown.modifyBlock tree block fun block name hname => ?_
    rw [List.lookup_cons]
    split
    · rfl
    · exact hname

end Tree

namespace Check

variable {α β : Type}

/-- However the step ends, the tree has outgrown what it was. -/
def Grows (step : Check α) : Prop :=
  ∀ start, step.Ends start (fun _ final => start.tree.Outgrown final.tree)
    (fun _ final => start.tree.Outgrown final.tree)

/-! ### Steps in a row -/

theorem grows_pure (value : α) : Grows (pure value) := fun start =>
  ends_pure (.refl start.tree)

theorem grows_throw (diagnostic : Diagnostic) : Grows (throw diagnostic : Check α) := fun start =>
  ends_throw (.refl start.tree)

theorem grows_bind {first : Check α} {next : α → Check β} (hfirst : first.Grows)
    (hnext : ∀ value, (next value).Grows) : Grows (first >>= next) := by
  intro start
  refine ends_bind ((hfirst start).mono fun value middle hmiddle => ?_)
  exact ((hnext value middle).mono fun _ _ hfinal => hmiddle.trans hfinal).mono_failed
    fun _ _ hfinal => hmiddle.trans hfinal

theorem grows_map {first : Check α} (change : α → β) (hfirst : first.Grows) :
    Grows (change <$> first) := fun start =>
  ends_map (hfirst start)

theorem grows_get : Grows (get : Check Checking) := fun start =>
  ends_get (.refl start.tree)

/-- A change of the scope or the log. -/
theorem grows_modify {change : Checking → Checking}
    (h : ∀ state : Checking, (change state).tree = state.tree) : Grows (modify change) :=
  fun start => ends_modify ((h start).symm ▸ .refl start.tree)

theorem grows_onTree {step : Tree → Except Diagnostic Tree}
    (h : ∀ tree after, step tree = .ok after → tree.Outgrown after) : Grows (onTree step) :=
  fun start => ends_onTree_cases (fun tree htree => h start.tree tree htree)
    fun _ _ => .refl start.tree

theorem grows_ask (query : Tree → Except Diagnostic α) : Grows (ask query) := by
  refine grows_bind grows_get fun state => ?_
  split
  · exact grows_pure _
  · exact grows_throw _

theorem grows_forM (items : List α) {step : α → Check PUnit} (hstep : ∀ item, (step item).Grows) :
    Grows (items.forM step) := by
  induction items with
  | nil => exact grows_pure _
  | cons item items ih => exact grows_bind (hstep item) fun _ => ih

theorem grows_modifyDecl (id : DeclId) (change : Decl → Decl) :
    Grows (onTree fun tree => .ok (tree.modifyDecl id change)) :=
  grows_onTree fun tree _ h => by
    cases h
    exact .modifyDecl tree id change

/-- A change of a block that does not concern its table. -/
theorem grows_modifyBlock (id : BlockId) {change : Block → Block}
    (hchange : ∀ block, (change block).table = block.table) :
    Grows (onTree fun tree => .ok (tree.modifyBlock id change)) :=
  grows_onTree fun tree _ h => by
    cases h
    exact .modifyBlock tree id fun block name hname => (hchange block).symm ▸ hname

theorem grows_assignLevel (id : DeclId) (level : Nat) : Grows (onTree (·.assignLevel id level)) :=
  grows_onTree fun _ _ => .of_assignLevel

theorem grows_assignLayout (id : DeclId) (layout : Layout) :
    Grows (onTree (·.assignLayout id layout)) :=
  grows_onTree fun _ _ => .of_assignLayout

theorem grows_enterTable (block : BlockId) (id : DeclId) : Grows (onTree (·.declare block id)) :=
  grows_onTree fun _ _ h => (Tree.exists_of_declare h).choose_spec.2.2

/-! ### Names and declarations -/

theorem grows_bindNames (block : BlockId)
    (traversal : (NameUse → NameRef → StateM Binding NameRef) → StateM Binding α) :
    Grows (Check.bind block traversal) := fun start =>
  .refl start.tree

theorem grows_bindAll (block : BlockId)
    (traversal : (NameUse → NameRef → StateM Binding NameRef) → StateM Binding α) :
    Grows (bindAll block traversal) := by
  refine grows_bind (grows_bindNames block traversal) fun (result, failure?) => ?_
  cases failure? with
  | none => exact grows_pure result
  | some diagnostic => exact grows_throw diagnostic

theorem grows_bindParam (block : BlockId) (param : DeclId) : Grows (bindParam block param) := by
  refine grows_bind (grows_ask _) fun decl => ?_
  split
  · exact grows_bind (grows_bindAll block _) fun _ => grows_modifyDecl param _
  · exact grows_pure _

theorem grows_bindKind (block : BlockId) (kind : DeclKind) : Grows (bindKind block kind) := by
  cases kind with
  | parameter | enumLiteral => exact grows_pure _
  | constant | type | variableOf => exact grows_bind (grows_bindAll block _) fun _ => grows_pure _
  | routine heading =>
      have hrest (result : Option NameRef) : Grows (heading.params.forM (bindParam block) >>=
          fun _ => pure (DeclKind.routine { heading with result })) :=
        grows_bind (grows_forM _ (grows_bindParam block)) fun _ => grows_pure _
      rw [bindKind]
      cases heading.result with
      | none => exact grows_bind (grows_pure _) hrest
      | some ref => exact grows_bind (grows_map _ (grows_bindAll block _)) hrest

theorem grows_allocate : Grows allocate := fun start =>
  .refl start.tree

theorem grows_layoutOf (kind : DeclKind) : Grows (layoutOf kind) := by
  cases kind with
  | variableOf => exact grows_map _ grows_allocate
  | routine heading =>
      rw [layoutOf]
      split
      · split
        · exact grows_map _ grows_allocate
        · exact grows_bind grows_get fun _ => grows_pure _
      · exact grows_pure _
  | constant | type | parameter | enumLiteral => exact grows_pure _

theorem grows_enter (block : BlockId) (level : Nat) (id : DeclId) : Grows (enter block level id) :=
  grows_bind (grows_assignLevel id level) fun _ => grows_enterTable block id

theorem grows_declare (block : BlockId) (id : DeclId) : Grows (declare block id) := by
  refine grows_bind grows_get fun state => ?_
  refine grows_bind (grows_ask _) fun decl => ?_
  refine grows_bind (grows_bindKind block decl.kind) fun kind => ?_
  refine grows_bind (grows_layoutOf kind) fun layout? => ?_
  refine grows_bind (grows_modifyDecl id _) fun _ => ?_
  refine grows_bind (grows_assignLevel id _) fun _ => ?_
  have hlast : Grows (do
      onTree (·.declare block id)
      (literalsOf kind).forM (enter block state.scope.current.level)) :=
    grows_bind (grows_enterTable block id) fun _ => grows_forM _ (grows_enter block _)
  cases layout? with
  | none => exact hlast
  | some layout => exact grows_bind (grows_assignLayout id layout) fun _ => hlast

theorem grows_declareParams (block : BlockId) (level frameLevel index : Nat)
    (params : List DeclId) : Grows (declareParams block level frameLevel index params) := by
  induction params generalizing index with
  | nil => exact grows_pure _
  | cons param others ih =>
      exact grows_bind (grows_assignLevel param level) fun _ =>
        grows_bind (grows_assignLayout param _) fun _ =>
          grows_bind (grows_enterTable block param) fun _ => ih (index + 1)

/-! ### Blocks -/

theorem grows_statements (block : BlockId) : Grows (statements block) := by
  refine grows_bind (grows_ask _) fun found => ?_
  refine grows_bind (grows_bindNames block _) fun (statements, failure?) => ?_
  refine grows_bind (grows_modifyBlock block fun _ => rfl) fun _ => ?_
  cases failure? with
  | none => exact grows_pure _
  | some diagnostic => exact grows_throw diagnostic

theorem grows_enterBlock (block : BlockId) (owner : String) (ownsFrame : Bool) :
    Grows (enterBlock block owner ownsFrame) := by
  refine grows_bind (grows_modify fun _ => rfl) fun _ => ?_
  refine grows_bind grows_get fun state => grows_bind (grows_ask _) fun found => ?_
  have hannotate : Grows (do
      onTree fun tree => .ok (tree.modifyBlock block fun block =>
        { block with
          level := state.scope.current.level
          frameLevel := state.scope.current.frameLevel
          frameOwner? := some state.scope.current.frameOwner })
      return state.scope.current) :=
    grows_bind (grows_modifyBlock block fun _ => rfl) fun _ => grows_pure _
  split
  · exact grows_bind (grows_throw _) fun _ => hannotate
  · exact hannotate

theorem grows_leaveBlock (block : BlockId) (ownsFrame : Bool) :
    Grows (leaveBlock block ownsFrame) := by
  refine grows_bind grows_get fun state => ?_
  split
  · exact grows_throw _
  · exact grows_bind (grows_modify fun _ => rfl) fun _ =>
      grows_modifyBlock block fun _ => rfl

theorem grows_block (depth : Nat) (body : BlockId) (owner : String) (params : List DeclId)
    (ownsFrame : Bool) : Grows (block depth body owner params ownsFrame) := by
  induction depth generalizing body owner params ownsFrame with
  | zero => exact grows_throw _
  | succ depth ih =>
      refine grows_bind (grows_enterBlock body owner ownsFrame) fun current => ?_
      refine grows_bind (grows_declareParams body _ _ 0 params) fun _ => ?_
      refine grows_bind (grows_ask _) fun found => ?_
      refine grows_bind (grows_forM _ (grows_declare body)) fun _ => ?_
      refine grows_bind (grows_ask _) fun found => ?_
      refine grows_bind (grows_forM _ fun routine => ?_) fun _ =>
        grows_bind (grows_statements body) fun _ => grows_leaveBlock body ownsFrame
      refine grows_bind (grows_ask _) fun decl => ?_
      split
      · exact ih _ _ _ _
      · exact grows_pure _

/-! ### Programs -/

theorem grows_declareLibrary (decl : Decl) : Grows (declareLibrary decl) := by
  intro start
  have hadded := Tree.Outgrown.addDecl start.tree decl
  refine ends_bind (ends_get (ends_bind (ends_modify ?_)))
  refine ((grows_enter libraryBlock 0 start.tree.decls.size _).mono ?_).mono_failed ?_
  · intro _ final hfinal
    exact hadded.trans hfinal
  · intro _ final hfinal
    exact hadded.trans hfinal

/-- A declaration of the library whose name is there already is refused. -/
theorem ends_declareLibrary_again {decl : Decl} (hlevel : decl.level? = none) {start : Checking}
    (hname : start.tree.HasName libraryBlock decl.name) :
    Ends (declareLibrary decl) start (fun _ _ => False)
      (fun _ final => start.tree.Outgrown final.tree) := by
  have hadded : (start.tree.addDecl decl).2.decls[start.tree.decls.size]? = some decl :=
    Array.getElem?_push_size
  have hassign := Tree.assignLevel_eq_ok hadded hlevel 0
  have houtgrown : start.tree.Outgrown ((start.tree.addDecl decl).2.setDecl start.tree.decls.size
      { decl with level? := some 0 }) :=
    (Tree.Outgrown.addDecl start.tree decl).trans (.of_assignLevel hassign)
  refine ends_bind (ends_get (ends_bind (ends_modify (ends_bind (ends_onTree hassign ?_)))))
  refine ends_onTree_cases (fun after hdeclare => ?_) fun _ _ => houtgrown
  obtain ⟨found, hfound, hfresh, -⟩ := Tree.exists_of_declare hdeclare
  obtain rfl := Option.some.inj
    ((Tree.getElem?_decls_setDecl hadded { decl with level? := some 0 }).symm.trans hfound)
  exact hfresh (houtgrown.hasName _ _ hname)

end Check

/-- No check of the tree succeeds any more: the tree is not checked, and the library was
declared in it before. -/
structure Tree.Spent (tree : Tree) : Prop where
  checked_eq : tree.checked = false
  hasName : tree.HasName libraryBlock BuiltinType.boolean.name

namespace Tree.Spent

theorem outgrown {tree after : Tree} (spent : tree.Spent) (h : tree.Outgrown after) :
    after.Spent :=
  ⟨h.checked_eq.trans spent.checked_eq, h.hasName _ _ spent.hasName⟩

/-- A check of such a tree fails, and no later one can succeed either. -/
theorem ends_program {start : Checking} (spent : start.tree.Spent) :
    Check.program.Ends start (fun _ _ => False) (fun _ final => final.tree.Spent) := by
  obtain ⟨first, others, hdecls, hname, hlevel⟩ : ∃ first others,
      Library.decls = first :: others ∧ first.name = BuiltinType.boolean.name ∧
        first.level? = none :=
    ⟨_, _, rfl, rfl, rfl⟩
  have hfirst := Check.ends_declareLibrary_again hlevel (hname ▸ spent.hasName)
  unfold Check.program
  rw [hdecls]
  refine Check.ends_bind (Check.ends_bind ?_)
  exact (hfirst.mono fun _ _ => False.elim).mono_failed fun _ _ => spent.outgrown

theorem check {tree : Tree} (spent : tree.Spent) (log : Log) :
    (∃ diagnostic, (tree.check log).result = .error diagnostic) ∧ (tree.check log).tree.Spent := by
  have hends := @ends_program { tree, scope := .library, log } spent
  unfold Check.Ends at hends
  unfold Tree.check
  rw [if_neg (Bool.eq_false_iff.mp spent.checked_eq)]
  cases hrun : Check.program.run { tree, scope := .library, log } with
  | ok done final =>
      rw [hrun] at hends
      exact hends.elim
  | error diagnostic final =>
      rw [hrun] at hends
      exact ⟨⟨diagnostic, rfl⟩, hends⟩

end Tree.Spent

namespace Check

variable {outline : Outline} {skeleton : Skeleton}

/-- A check of the tree of an outline fails with the library declared, if it fails. -/
theorem ends_program_spent (h : Outline.HasSkeleton outline skeleton) {start : Checking}
    (htree : start.tree = Tree.ofOutline outline) :
    program.Ends start (fun _ _ => True) (fun _ final => final.tree.Spent) := by
  have hlibrary := (@ends_library _ _ start h htree (fun _ _ => False)).and
    (grows_forM Library.decls grows_declareLibrary start)
  refine ends_bind ((hlibrary.mono ?_).mono_failed fun _ _ hfinal => hfinal.1.elim)
  rintro _ opened ⟨⟨-, library⟩, hgrown⟩
  have spent : opened.tree.Spent := by
    constructor
    case checked_eq =>
      rw [hgrown.checked_eq, htree]
      rfl
    case hasName =>
      rw [Tree.HasName, Tree.tableAt, library.library_eq]
      rfl
  refine ends_bind (ends_get (ends_bind ?_))
  have hblock := grows_block (opened.tree.blocks.size + 1) opened.tree.body opened.tree.name []
    true opened
  exact (hblock.mono fun _ _ _ => ends_modify trivial).mono_failed fun _ _ => spent.outgrown

end Check

/-- A check of the tree of an outline that fails leaves a tree that no check succeeds on. -/
theorem Tree.spent_of_check {outline : Outline} {log : Log} {diagnostic : Diagnostic}
    (h : ((Tree.ofOutline outline).check log).result = .error diagnostic) :
    ((Tree.ofOutline outline).check log).tree.Spent := by
  obtain ⟨skeleton, hskeleton⟩ := Outline.exists_skeleton outline
  have hends := Check.ends_program_spent hskeleton
    (show (Checking.mk (.ofOutline outline) .library log).tree = .ofOutline outline from rfl)
  have hunchecked : ¬(Tree.ofOutline outline).checked = true := Bool.false_ne_true
  unfold Check.Ends at hends
  rw [Tree.check, if_neg hunchecked] at h ⊢
  cases hrun : Check.program.run { tree := .ofOutline outline, scope := .library, log } with
  | ok done final =>
      rw [hrun] at h
      cases h
  | error found final =>
      rw [hrun] at hends
      exact hends

end MiniPascal
