import MiniPascal.Proofs.Binding.Uses
import MiniPascal.Proofs.Tree.Erasure

/-!
# The blocks around a block

When every block has a larger number than the one around it, following the
blocks outwards ends at one with nothing around it, and the number of blocks
bounds the way there.  What a name stands for is then what the block's own table
says, or else what the name stands for in the block around it.
-/

namespace MiniPascal

namespace Tree

/-- The block around the block with the given number. -/
def enclosing? (tree : Tree) (id : BlockId) : Option BlockId :=
  tree.blocks[id]?.bind Block.enclosing?

/-- The table of the block with the given number; none is an empty one. -/
def tableAt (tree : Tree) (id : BlockId) : List (String × DeclId) :=
  (tree.blocks[id]?.map Block.table).getD []

/-- Every block has a larger number than the block around it. -/
def Descends (tree : Tree) : Prop :=
  ∀ id outer, tree.enclosing? id = some outer → outer < id

def lookupAround (tree : Tree) (id : BlockId) (name : String) : Option DeclId :=
  (tree.enclosing? id).bind fun outer => tree.lookup outer name

variable {tree other : Tree}

theorem lookup_eq_findSome? (tree : Tree) (id : BlockId) (name : String) :
    tree.lookup id name = (tree.chain id).findSome? fun outer =>
      (tree.tableAt outer).lookup name := by
  unfold lookup
  congr 1
  funext outer
  cases hblock : tree.blocks[outer]? with
  | none => simp [tableAt, hblock]
  | some block => simp [tableAt, hblock]

/-! ### The chain -/

theorem chainWithin_succ (tree : Tree) (depth : Nat) (id : BlockId) :
    tree.chainWithin (depth + 1) id =
      id :: ((tree.enclosing? id).map (tree.chainWithin depth)).getD [] := by
  have henclosing : tree.blocks[id]?.bind Block.enclosing? = tree.enclosing? id := rfl
  rw [chainWithin, henclosing]
  cases tree.enclosing? id <;> rfl

/-- Once there is room for all blocks up to the given one, more does not matter. -/
theorem chainWithin_of_lt (descends : tree.Descends) {id : BlockId} {depth depth' : Nat}
    (hdepth : id < depth) (hdepth' : id < depth') :
    tree.chainWithin depth id = tree.chainWithin depth' id := by
  induction id using Nat.strongRecOn generalizing depth depth' with
  | _ id ih =>
      obtain ⟨depth, rfl⟩ := Nat.exists_eq_succ_of_ne_zero (Nat.ne_zero_of_lt hdepth)
      obtain ⟨depth', rfl⟩ := Nat.exists_eq_succ_of_ne_zero (Nat.ne_zero_of_lt hdepth')
      rw [chainWithin_succ, chainWithin_succ]
      cases houter : tree.enclosing? id with
      | none => rfl
      | some outer =>
          have hlt := descends id outer houter
          simp only [Option.map_some, Option.getD_some]
          exact congrArg (id :: ·) (ih outer hlt (Nat.lt_of_lt_of_le hlt (Nat.le_of_lt_succ hdepth))
            (Nat.lt_of_lt_of_le hlt (Nat.le_of_lt_succ hdepth')))

theorem lt_size_of_enclosing? {id outer : BlockId} (h : tree.enclosing? id = some outer) :
    id < tree.blocks.size := by
  unfold enclosing? at h
  obtain ⟨block, hblock, -⟩ := Option.bind_eq_some_iff.mp h
  exact (Array.getElem?_eq_some_iff.mp hblock).1

/-- A block comes first, and then the blocks around it. -/
theorem chain_eq (descends : tree.Descends) (id : BlockId) :
    tree.chain id = id :: ((tree.enclosing? id).map tree.chain).getD [] := by
  rw [chain, chainWithin_succ]
  cases houter : tree.enclosing? id with
  | none => rfl
  | some outer =>
      have hlt := descends id outer houter
      have hsize := lt_size_of_enclosing? houter
      simp only [Option.map_some, Option.getD_some]
      have houter : outer < tree.blocks.size := Nat.lt_trans hlt hsize
      rw [chain, chainWithin_of_lt descends houter (Nat.lt_succ_of_lt houter)]

theorem le_of_mem_chain (descends : tree.Descends) {id outer : BlockId}
    (h : outer ∈ tree.chain id) : outer ≤ id := by
  induction id using Nat.strongRecOn with
  | _ id ih =>
      rw [chain_eq descends] at h
      rcases List.mem_cons.mp h with rfl | h
      · exact Nat.le_refl _
      · cases henclosing : tree.enclosing? id with
        | none =>
            rw [henclosing] at h
            exact absurd h List.not_mem_nil
        | some next =>
            rw [henclosing] at h
            have hlt := descends id next henclosing
            exact Nat.le_of_lt (Nat.lt_of_le_of_lt (ih next hlt h) hlt)

/-- A name stands for what the block's table says, or else for what it stands
for around the block. -/
theorem lookup_eq (descends : tree.Descends) (id : BlockId) (name : String) :
    tree.lookup id name =
      ((tree.tableAt id).lookup name).or (tree.lookupAround id name) := by
  rw [lookup_eq_findSome?, chain_eq descends, List.findSome?_cons]
  cases (tree.tableAt id).lookup name with
  | some found => rfl
  | none =>
      rw [Option.none_or, lookupAround]
      cases tree.enclosing? id with
      | none => rfl
      | some outer => exact (lookup_eq_findSome? tree outer name).symm

/-! ### Trees that differ in annotations alone -/

theorem enclosing?_of_erased_eq (h : other.erased = tree.erased) (id : BlockId) :
    other.enclosing? id = tree.enclosing? id := by
  have hblock := congrArg (Option.bind · Block.enclosing?) (block_of_erased_eq h id)
  simp only [Option.bind_map] at hblock
  exact hblock

theorem chainWithin_congr (h : ∀ id, other.enclosing? id = tree.enclosing? id) (depth : Nat)
    (id : BlockId) : other.chainWithin depth id = tree.chainWithin depth id := by
  induction depth generalizing id with
  | zero => rfl
  | succ depth ih =>
      rw [chainWithin_succ, chainWithin_succ, h]
      cases tree.enclosing? id with
      | none => rfl
      | some outer => simp only [Option.map_some, Option.getD_some, ih outer]

/-- Only how the blocks enclose each other matters for the way outwards. -/
theorem chain_congr (hsize : other.blocks.size = tree.blocks.size)
    (h : ∀ id, other.enclosing? id = tree.enclosing? id) (id : BlockId) :
    other.chain id = tree.chain id := by
  rw [chain, chain, hsize, chainWithin_congr h]

theorem chain_of_erased_eq (h : other.erased = tree.erased) (id : BlockId) :
    other.chain id = tree.chain id :=
  chain_congr (size_blocks_of_erased_eq h) (enclosing?_of_erased_eq h) id

theorem Descends.of_erased_eq (descends : tree.Descends) (h : other.erased = tree.erased) :
    other.Descends := by
  intro id outer houter
  rw [enclosing?_of_erased_eq h] at houter
  exact descends id outer houter

private theorem findSome?_congr {α β : Type} {items : List α} {f g : α → Option β}
    (h : ∀ item ∈ items, f item = g item) : items.findSome? f = items.findSome? g := by
  induction items with
  | nil => rfl
  | cons item items ih =>
      obtain ⟨hitem, hitems⟩ := List.forall_mem_cons.mp h
      rw [List.findSome?_cons, List.findSome?_cons, hitem, ih hitems]

/-- Names mean the same as long as no table on the way outwards changed. -/
theorem lookup_congr (descends : tree.Descends) (h : other.erased = tree.erased) {id : BlockId}
    (htables : ∀ outer ≤ id, other.tableAt outer = tree.tableAt outer) :
    other.lookup id = tree.lookup id := by
  funext name
  rw [lookup_eq_findSome?, lookup_eq_findSome?, chain_of_erased_eq h]
  refine findSome?_congr fun outer houter => ?_
  rw [htables outer (le_of_mem_chain descends houter)]

theorem isWithin_of_erased_eq (h : other.erased = tree.erased) (inner outer : BlockId) :
    other.isWithin inner outer = tree.isWithin inner outer := by
  rw [isWithin, isWithin, chain_of_erased_eq h]

end Tree

end MiniPascal
