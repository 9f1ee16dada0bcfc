import MiniPascal.Check
import MiniPascal.Proofs.Tree.Erasure
import Mathlib.Data.List.Forall2

/-!
# Skeletons of trees

The blocks of a tree refer to each other by number.  Its skeleton is the same
program as nested blocks, each with the numbers of all that is declared in it,
so that what happens block by block can be followed by recursion.  A tree holds
a skeleton when its entries, without annotations, are those of the skeleton.
-/

namespace MiniPascal

/-- Whether what is declared takes a word of the frame it is declared in. -/
def DeclKind.takesWord : DeclKind → Bool
  | .variableOf _ => true
  | .routine heading => heading.isFunction && heading.isInline
  | _ => false

/-- A declaration, not yet annotated, with its number. -/
structure Numbered where
  id : DeclId
  decl : Decl

/-- A declaration of a part of a block, with the enumeration literals it brings
with it. -/
structure DeclEntry where
  declared : Numbered
  literals : List Numbered

/-- Everything an entry declares, in the order in which it becomes visible. -/
def DeclEntry.all (entry : DeclEntry) : List Numbered :=
  entry.declared :: entry.literals

/-- A block with its number and all that is declared in it. -/
structure Node where
  id : BlockId
  /-- The routine whose body the block is; the program's block has none. -/
  routine? : Option DeclId
  params : List Numbered
  entries : List DeclEntry
  /-- The block as it was numbered. -/
  block : Block

namespace Node

/-- Bodies of routines with parameters own a frame, and so does the program. -/
def ownsFrame (node : Node) : Bool :=
  node.routine?.isNone || !node.params.isEmpty

def declared (node : Node) : List Numbered :=
  node.params ++ node.entries.flatMap DeclEntry.all

/-- The block's own declarations that take a word of its frame. -/
def words (node : Node) : List Numbered :=
  (node.entries.map DeclEntry.declared).filter (·.decl.kind.takesWord)

end Node

/-- A block with the bodies of its routines inside it, in order. -/
inductive Skeleton
  | mk (root : Node) (inner : List Skeleton)

namespace Skeleton

def root : Skeleton → Node
  | mk root _ => root

def inner : Skeleton → List Skeleton
  | mk _ inner => inner

abbrev id (skeleton : Skeleton) : BlockId :=
  skeleton.root.id

mutual

def nodes : Skeleton → List Node
  | mk root inner => root :: nodesAll inner

def nodesAll : List Skeleton → List Node
  | [] => []
  | first :: others => first.nodes ++ nodesAll others

end

theorem nodesAll_eq_flatMap (skeletons : List Skeleton) :
    nodesAll skeletons = skeletons.flatMap nodes := by
  induction skeletons with
  | nil => rfl
  | cons first others ih => rw [nodesAll, ih, List.flatMap_cons]

theorem nodes_eq (skeleton : Skeleton) :
    skeleton.nodes = skeleton.root :: nodesAll skeleton.inner := by
  cases skeleton
  rfl

theorem root_mem_nodes (skeleton : Skeleton) : skeleton.root ∈ skeleton.nodes := by
  rw [nodes_eq]
  exact List.mem_cons_self

def blockIds (skeleton : Skeleton) : List BlockId :=
  skeleton.nodes.map Node.id

theorem id_mem_blockIds (skeleton : Skeleton) : skeleton.id ∈ skeleton.blockIds :=
  List.mem_map_of_mem skeleton.root_mem_nodes

def declared (skeleton : Skeleton) : List Numbered :=
  skeleton.nodes.flatMap Node.declared

def declIds (skeleton : Skeleton) : List DeclId :=
  skeleton.declared.map Numbered.id

mutual

/-- The declarations whose words lie in the frame of the outermost block, in the
order in which they get them.  Bodies without a frame of their own are part of
it, the others are not. -/
def frameWords : Skeleton → List Numbered
  | mk root inner => root.words ++ frameWordsAll inner

/-- The words that bodies take in the frame around them. -/
def frameWordsAll : List Skeleton → List Numbered
  | [] => []
  | first :: others =>
    (if first.root.ownsFrame then [] else first.frameWords) ++ frameWordsAll others

end

end Skeleton

/-! ### Well-formed skeletons -/

theorem exists_of_forall₂_right {α β : Type} {R : α → β → Prop} {left : List α} {right : List β}
    (h : List.Forall₂ R left right) {y : β} (hy : y ∈ right) : ∃ x ∈ left, R x y := by
  induction h with
  | nil => exact absurd hy List.not_mem_nil
  | @cons x y' left right hxy _ ih =>
      rcases List.mem_cons.mp hy with rfl | hy
      · exact ⟨x, List.mem_cons_self, hxy⟩
      · obtain ⟨x, hx, hxy⟩ := ih hy
        exact ⟨x, List.mem_cons_of_mem _ hx, hxy⟩

theorem exists_of_forall₂_left {α β : Type} {R : α → β → Prop} {left : List α} {right : List β}
    (h : List.Forall₂ R left right) {x : α} (hx : x ∈ left) : ∃ y ∈ right, R x y :=
  exists_of_forall₂_right h.flip hx

/-- The block fits what is declared in it: nothing is annotated yet, the parts
name the entries, and the literals are those of their types. -/
structure Node.WellFormed (node : Node) : Prop where
  block_bare : node.block = { Block.bare node.block.enclosing? node.block.line with
    parts := node.block.parts, statements := node.block.statements }
  decl_bare : ∀ x ∈ node.declared, x.decl = .bare x.decl.name x.decl.line x.decl.kind
  declarations_eq : node.block.declarations = node.entries.map (·.declared.id)
  params_kind : ∀ x ∈ node.params, ∃ ref, x.decl.kind = .parameter ref
  literals_eq : ∀ entry ∈ node.entries,
    Check.literalsOf entry.declared.decl.kind = entry.literals.map Numbered.id
  literals_kind : ∀ entry ∈ node.entries, ∀ x ∈ entry.literals,
    ∃ code, x.decl.kind = .enumLiteral code
  entry_kind : ∀ entry ∈ node.entries, ∀ code, entry.declared.decl.kind ≠ .enumLiteral code
  entry_kind' : ∀ entry ∈ node.entries, ∀ ref, entry.declared.decl.kind ≠ .parameter ref

/-- A body belongs to a routine among the entries of a block, given by its number. -/
def Skeleton.BodyOf (block : BlockId) (entries : List DeclEntry) (body : Skeleton)
    (routine : DeclId) : Prop :=
  body.root.routine? = some routine ∧ body.root.block.enclosing? = some block ∧
    block < body.id ∧
    ∃ entry ∈ entries, entry.declared.id = routine ∧
      ∃ result, entry.declared.decl.kind =
        .routine { result, params := body.root.params.map Numbered.id, body := some body.id }

/-- Every block fits its declarations, and the blocks inside a block are the
bodies of its routines, in order. -/
inductive Skeleton.WellFormed : Skeleton → Prop
  | mk {root : Node} {inner : List Skeleton} (root_wellFormed : root.WellFormed)
      (bodies : List.Forall₂ (Skeleton.BodyOf root.id root.entries) inner root.block.routines)
      (routines : ∀ entry ∈ root.entries, ∀ heading,
        entry.declared.decl.kind = .routine heading →
          entry.declared.id ∈ root.block.routines)
      (inner_wellFormed : ∀ body ∈ inner, body.WellFormed) :
      Skeleton.WellFormed (.mk root inner)

theorem Skeleton.WellFormed.node {skeleton : Skeleton} (h : skeleton.WellFormed) :
    skeleton.root.WellFormed := by
  cases h
  assumption

namespace Skeleton

/-- What is inside a body of a block is inside the block. -/
theorem nodes_subset_of_mem_inner {skeleton body : Skeleton} (h : body ∈ skeleton.inner) :
    body.nodes ⊆ skeleton.nodes := by
  intro node hnode
  rw [nodes_eq skeleton, nodesAll_eq_flatMap]
  exact List.mem_cons_of_mem _ (List.mem_flatMap.mpr ⟨body, h, hnode⟩)

theorem declared_eq (skeleton : Skeleton) :
    skeleton.declared = skeleton.root.declared ++ skeleton.inner.flatMap declared := by
  rw [declared, nodes_eq, List.flatMap_cons, nodesAll_eq_flatMap, List.flatMap_assoc]
  rfl

theorem blockIds_eq (skeleton : Skeleton) :
    skeleton.blockIds = skeleton.id :: skeleton.inner.flatMap blockIds := by
  rw [blockIds, nodes_eq, List.map_cons, nodesAll_eq_flatMap, List.map_flatMap]
  rfl

theorem declIds_eq (skeleton : Skeleton) :
    skeleton.declIds = skeleton.root.declared.map Numbered.id ++
      skeleton.inner.flatMap declIds := by
  rw [declIds, declared_eq, List.map_append, List.map_flatMap]
  rfl

theorem nodes_mk (root : Node) (inner : List Skeleton) :
    (mk root inner).nodes = root :: inner.flatMap nodes := by
  rw [nodes, nodesAll_eq_flatMap]

theorem blockIds_mk (root : Node) (inner : List Skeleton) :
    (mk root inner).blockIds = root.id :: inner.flatMap blockIds :=
  blockIds_eq _

theorem declared_subset_of_mem_inner {skeleton body : Skeleton} (h : body ∈ skeleton.inner) :
    body.declared ⊆ skeleton.declared := by
  intro x hx
  rw [declared_eq skeleton]
  exact List.mem_append_right _ (List.mem_flatMap.mpr ⟨body, h, hx⟩)

end Skeleton

end MiniPascal
