import MiniPascal.Proofs.Tree.Walks

/-!
# References

A program uses names in passages: what a declaration declares, and the statements of a
block.  The references of a tree are met block by block, from the outside in: the passages
of the declarations first, each with its parameters, then those of the bodies of the routines,
and the statements of the block last.  So each passage of a numbered program is met once.
-/

namespace MiniPascal

/-- A part of a program that uses names. -/
inductive Passage
  | decl (id : DeclId)
  | statements (block : BlockId)
  deriving DecidableEq

namespace Tree

def routinesOf (tree : Tree) (block : BlockId) : List DeclId :=
  (tree.blocks[block]?.map Block.routines).getD []

def parametersOf (tree : Tree) (id : DeclId) : List DeclId :=
  ((tree.kind? id).map DeclKind.params).getD []

def statementsOf (tree : Tree) (block : BlockId) : List Statement :=
  (tree.blocks[block]?.map Block.statements).getD []

/-- The uses of names in a passage, in source order. -/
def usesIn (tree : Tree) : Passage → List Use
  | .decl id => tree.usesAt id
  | .statements block => Statement.usesAll (tree.statementsOf block)

/-- A declaration and the parameters it brings with it. -/
def passagesOf (tree : Tree) (id : DeclId) : List Passage :=
  .decl id :: (tree.parametersOf id).map .decl

/-- The passages of a block, with at most the given number of blocks inside each other. -/
def passagesWithin (tree : Tree) : Nat → BlockId → List Passage
  | 0, _ => []
  | depth + 1, block =>
    (tree.declarationsOf block).flatMap tree.passagesOf ++
      (tree.routinesOf block).flatMap (fun routine =>
        (tree.bodyOf? routine).toList.flatMap (tree.passagesWithin depth)) ++
      [.statements block]

def passages (tree : Tree) : List Passage :=
  tree.passagesWithin (tree.blocks.size + 1) tree.body

/-- The uses of names in a program: in each block those in its declarations, a result type
before the types of the parameters, then those in the bodies of its routines, and those in its
statements. -/
def references (tree : Tree) : List Use :=
  tree.passages.flatMap tree.usesIn

/-! ### Passages do not depend on annotations -/

section Erased

variable (tree : Tree)

theorem kind?_erased (id : DeclId) : tree.erased.kind? id = (tree.kind? id).map .erased := by
  rw [kind?, kind?, getElem?_decls_erased]
  cases tree.decls[id]? <;> rfl

theorem declarationsOf_erased (block : BlockId) :
    tree.erased.declarationsOf block = tree.declarationsOf block := by
  rw [declarationsOf, declarationsOf, getElem?_blocks_erased]
  cases tree.blocks[block]? <;> rfl

theorem routinesOf_erased (block : BlockId) :
    tree.erased.routinesOf block = tree.routinesOf block := by
  rw [routinesOf, routinesOf, getElem?_blocks_erased]
  cases tree.blocks[block]? <;> rfl

theorem parametersOf_erased (id : DeclId) :
    tree.erased.parametersOf id = tree.parametersOf id := by
  rw [parametersOf, parametersOf, kind?_erased, Option.map_map]
  congr 2
  funext kind
  exact kind.params_erased

theorem bodyOf?_erased (id : DeclId) : tree.erased.bodyOf? id = tree.bodyOf? id := by
  rw [bodyOf?, bodyOf?, getElem?_decls_erased]
  cases tree.decls[id]? with
  | none => rfl
  | some decl =>
      change decl.kind.erased.routine?.bind _ = decl.kind.routine?.bind _
      rw [DeclKind.routine?_erased]
      cases decl.kind.routine? <;> rfl

theorem passagesOf_erased : tree.erased.passagesOf = tree.passagesOf := by
  funext id
  rw [passagesOf, passagesOf, parametersOf_erased]

theorem passagesWithin_erased (depth : Nat) :
    tree.erased.passagesWithin depth = tree.passagesWithin depth := by
  induction depth with
  | zero => rfl
  | succ depth ih =>
      funext block
      simp only [passagesWithin, passagesOf_erased, declarationsOf_erased, routinesOf_erased,
        bodyOf?_erased, ih]

end Erased

theorem passagesWithin_of_erased_eq {tree other : Tree} (h : other.erased = tree.erased)
    (depth : Nat) : other.passagesWithin depth = tree.passagesWithin depth := by
  rw [← passagesWithin_erased, h, passagesWithin_erased]

theorem passages_of_erased_eq {tree other : Tree} (h : other.erased = tree.erased) :
    other.passages = tree.passages := by
  have hbody : other.erased.body = tree.erased.body := congrArg Tree.body h
  change other.body = tree.body at hbody
  rw [passages, passages, size_blocks_of_erased_eq h, passagesWithin_of_erased_eq h, hbody]

end Tree

end MiniPascal
