import MiniPascal.Proofs.Binding.Uses
import MiniPascal.Tree

/-!
# Trees without their annotations

A tree with everything taken off that checking writes into it: bindings, levels,
storage and tables.  What is left is the program as it was numbered.  A change of
one entry keeps it if the entry itself keeps it.
-/

namespace MiniPascal

/-! ### Forms of statements -/

namespace Statement

variable {statement : Statement} {line : Nat}

theorem erased_assign (target : NameRef) (index : Option Expr) (source : Expr) :
    (assign target index source).erased =
      .assign target.erased (index.map Expr.erased) source.erased := by
  cases index <;> rfl

theorem eq_assign_of_erased {target : NameRef} {index : Option Expr} {source : Expr}
    (h : statement.erased = .assign target index source) :
    ∃ target' index' source', statement = .assign target' index' source' ∧
      target'.erased = target ∧ index'.map Expr.erased = index ∧ source'.erased = source := by
  cases statement with
  | assign target' index' source' =>
      rw [erased_assign] at h
      exact ⟨target', index', source', rfl, assign.inj h⟩
  | compound | ifThen | ifElse | whileDo | call | empty => cases h

theorem eq_compound_of_erased {body : List Statement} (h : statement.erased = .compound body line) :
    ∃ body', statement = .compound body' line ∧ erasedAll body' = body := by
  cases statement with
  | compound body' =>
      obtain ⟨hbody, rfl⟩ := compound.inj h
      exact ⟨body', rfl, hbody⟩
  | assign => cases (erased_assign ..).symm.trans h
  | ifThen | ifElse | whileDo | call | empty => cases h

theorem eq_ifThen_of_erased {condition : Expr} {consequence : Statement}
    (h : statement.erased = .ifThen condition consequence line) :
    ∃ condition' consequence', statement = .ifThen condition' consequence' line ∧
      condition'.erased = condition ∧ consequence'.erased = consequence := by
  cases statement with
  | ifThen condition' consequence' =>
      obtain ⟨hcondition, hconsequence, rfl⟩ := ifThen.inj h
      exact ⟨condition', consequence', rfl, hcondition, hconsequence⟩
  | assign => cases (erased_assign ..).symm.trans h
  | compound | ifElse | whileDo | call | empty => cases h

theorem eq_ifElse_of_erased {condition : Expr} {consequence alternative : Statement}
    (h : statement.erased = .ifElse condition consequence alternative line) :
    ∃ condition' consequence' alternative',
      statement = .ifElse condition' consequence' alternative' line ∧
        condition'.erased = condition ∧ consequence'.erased = consequence ∧
        alternative'.erased = alternative := by
  cases statement with
  | ifElse condition' consequence' alternative' =>
      obtain ⟨hcondition, hconsequence, halternative, rfl⟩ := ifElse.inj h
      exact ⟨condition', consequence', alternative', rfl, hcondition, hconsequence, halternative⟩
  | assign => cases (erased_assign ..).symm.trans h
  | compound | ifThen | whileDo | call | empty => cases h

theorem eq_whileDo_of_erased {condition : Expr} {body : Statement}
    (h : statement.erased = .whileDo condition body line) :
    ∃ condition' body', statement = .whileDo condition' body' line ∧
      condition'.erased = condition ∧ body'.erased = body := by
  cases statement with
  | whileDo condition' body' =>
      obtain ⟨hcondition, hbody, rfl⟩ := whileDo.inj h
      exact ⟨condition', body', rfl, hcondition, hbody⟩
  | assign => cases (erased_assign ..).symm.trans h
  | compound | ifThen | ifElse | call | empty => cases h

theorem eq_call_of_erased {ref : NameRef} {args : List Expr}
    (h : statement.erased = .call ref args) :
    ∃ ref' args', statement = .call ref' args' ∧ ref'.erased = ref ∧
      Expr.erasedAll args' = args := by
  cases statement with
  | call ref' args' => exact ⟨ref', args', rfl, call.inj h⟩
  | assign => cases (erased_assign ..).symm.trans h
  | compound | ifThen | ifElse | whileDo | empty => cases h

theorem eq_empty_of_erased (h : statement.erased = .empty line) : statement = .empty line := by
  cases statement with
  | empty => exact h
  | assign => cases (erased_assign ..).symm.trans h
  | compound | ifThen | ifElse | whileDo | call => cases h

theorem eq_nil_of_erasedAll {body : List Statement} (h : erasedAll body = []) : body = [] := by
  cases body with
  | nil => rfl
  | cons => cases h

theorem eq_cons_of_erasedAll {body others : List Statement} {first : Statement}
    (h : erasedAll body = first :: others) :
    ∃ first' others', body = first' :: others' ∧ first'.erased = first ∧
      erasedAll others' = others := by
  cases body with
  | nil => cases h
  | cons first' others' => exact ⟨first', others', rfl, List.cons.inj h⟩

end Statement

/-! ### Trees -/

def Decl.erased (decl : Decl) : Decl :=
  .bare decl.name decl.line decl.kind.erased

def Block.erased (block : Block) : Block :=
  { Block.bare block.enclosing? block.line with
    parts := block.parts
    statements := Statement.erasedAll block.statements }

/-- The tree without what checking adds. -/
def Tree.erased (tree : Tree) : Tree :=
  { tree with
    checked := false
    blocks := tree.blocks.map Block.erased
    decls := tree.decls.map Decl.erased }

namespace DeclKind

/-- Erasing leaves the class of a declaration. -/
theorem routine?_erased (kind : DeclKind) :
    kind.erased.routine? = kind.routine?.map fun routine =>
      { routine with result := routine.result.map NameRef.erased } := by
  cases kind <;> rfl

end DeclKind

namespace Tree

variable {tree : Tree}

@[simp]
theorem getElem?_blocks_erased (tree : Tree) (id : BlockId) :
    tree.erased.blocks[id]? = tree.blocks[id]?.map Block.erased := by
  simp [erased]

@[simp]
theorem getElem?_decls_erased (tree : Tree) (id : DeclId) :
    tree.erased.decls[id]? = tree.decls[id]?.map Decl.erased := by
  simp [erased]

theorem size_blocks_of_erased_eq {other : Tree} (h : other.erased = tree.erased) :
    other.blocks.size = tree.blocks.size := by
  have := congrArg (fun t : Tree => t.blocks.size) h
  simpa [erased] using this

theorem size_decls_of_erased_eq {other : Tree} (h : other.erased = tree.erased) :
    other.decls.size = tree.decls.size := by
  have := congrArg (fun t : Tree => t.decls.size) h
  simpa [erased] using this

theorem block_of_erased_eq {other : Tree} (h : other.erased = tree.erased) (id : BlockId) :
    other.blocks[id]?.map Block.erased = tree.blocks[id]?.map Block.erased := by
  rw [← getElem?_blocks_erased, ← getElem?_blocks_erased, h]

theorem decl_of_erased_eq {other : Tree} (h : other.erased = tree.erased) (id : DeclId) :
    other.decls[id]?.map Decl.erased = tree.decls[id]?.map Decl.erased := by
  rw [← getElem?_decls_erased, ← getElem?_decls_erased, h]

private theorem map_modify_of_keeps {α β : Type} {entries : Array α} {view : α → β} {id : Nat}
    {change : α → α}
    (keeps : ∀ entry, entries[id]? = some entry → view (change entry) = view entry) :
    (entries.modify id change).map view = entries.map view := by
  apply Array.ext_getElem?
  intro index
  rw [Array.getElem?_map, Array.getElem?_map, Array.getElem?_modify]
  by_cases hid : id = index
  · subst hid
    rw [if_pos rfl]
    cases found : entries[id]? with
    | none => rfl
    | some entry => simp [keeps entry found]
  · rw [if_neg hid]

theorem erased_modifyBlock {id : BlockId} {change : Block → Block}
    (keeps : ∀ block, tree.blocks[id]? = some block → (change block).erased = block.erased) :
    (tree.modifyBlock id change).erased = tree.erased := by
  simp only [modifyBlock, erased]
  rw [map_modify_of_keeps keeps]

theorem erased_modifyDecl {id : DeclId} {change : Decl → Decl}
    (keeps : ∀ decl, tree.decls[id]? = some decl → (change decl).erased = decl.erased) :
    (tree.modifyDecl id change).erased = tree.erased := by
  simp only [modifyDecl, erased]
  rw [map_modify_of_keeps keeps]

/-! ### Reading after a change -/

@[simp]
theorem blocks_modifyDecl (tree : Tree) (id : DeclId) (change : Decl → Decl) :
    (tree.modifyDecl id change).blocks = tree.blocks := rfl

@[simp]
theorem decls_modifyBlock (tree : Tree) (id : BlockId) (change : Block → Block) :
    (tree.modifyBlock id change).decls = tree.decls := rfl

theorem getElem?_blocks_modifyBlock (tree : Tree) (id other : BlockId) (change : Block → Block) :
    (tree.modifyBlock id change).blocks[other]? =
      if id = other then tree.blocks[other]?.map change else tree.blocks[other]? := by
  simp [modifyBlock, Array.getElem?_modify]

theorem getElem?_blocks_modifyBlock_self {id : BlockId} {block : Block} {change : Block → Block}
    (h : tree.blocks[id]? = some block) :
    (tree.modifyBlock id change).blocks[id]? = some (change block) := by
  rw [getElem?_blocks_modifyBlock, if_pos rfl, h, Option.map_some]

theorem getElem?_decls_modifyDecl (tree : Tree) (id other : DeclId) (change : Decl → Decl) :
    (tree.modifyDecl id change).decls[other]? =
      if id = other then tree.decls[other]?.map change else tree.decls[other]? := by
  simp [modifyDecl, Array.getElem?_modify]

end Tree

end MiniPascal
