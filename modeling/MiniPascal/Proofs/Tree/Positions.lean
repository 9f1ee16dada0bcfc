import MiniPascal.Proofs.Tree.Numbering
import Mathlib.Data.List.Count

/-!
# Positions of declarations

A declaration stands in a part of a block, in the parameters of a routine or in an
enumeration.  While a program is numbered some declarations have their number but not yet
their position: those of a part, until the block is filled in, and parameters and literals,
until what they belong to is added.  In between each declaration has one position or is
still pending, and in the end nothing is pending.
-/

namespace MiniPascal

/-- The declarations that stand inside a declaration: the parameters of a routine and the
literals of a type. -/
def DeclKind.inside : DeclKind → List DeclId
  | .type content => content.literals
  | .variableOf content => content.literals
  | .routine heading => heading.params
  | .constant _ | .parameter _ | .enumLiteral _ => []

/-- The numbers up to a middle one, and those from it on. -/
theorem range'_split {low middle high : Nat} (hlow : low ≤ middle) (hhigh : middle ≤ high) :
    List.range' low (middle - low) ++ List.range' middle (high - middle) =
      List.range' low (high - low) := by
  obtain ⟨first, rfl⟩ := Nat.exists_eq_add_of_le hlow
  obtain ⟨second, rfl⟩ := Nat.exists_eq_add_of_le hhigh
  rw [Nat.add_sub_cancel_left, Nat.add_sub_cancel_left, List.range'_append_1, Nat.add_assoc,
    Nat.add_sub_cancel_left]

/-- What stands in the parts of some blocks and inside some declarations, a declaration once
for each position it has. -/
def positionsIn (blocks : Array Block) (decls : Array Decl) : List DeclId :=
  blocks.toList.flatMap Block.declarations ++ decls.toList.flatMap fun decl => decl.kind.inside

/-- The declaring positions of a tree. -/
def Tree.positions (tree : Tree) : List DeclId :=
  positionsIn tree.blocks tree.decls

namespace Arena

def positions (arena : Arena) : List DeclId :=
  positionsIn arena.blocks arena.decls

/-- Between two arenas, each new declaration got one position or is still pending. -/
structure Places (before after : Arena) (pending : List DeclId) : Prop where
  decls_size : before.decls.size ≤ after.decls.size
  perm : (after.positions ++ pending).Perm (before.positions ++
    List.range' before.decls.size (after.decls.size - before.decls.size))

namespace Places

variable {before middle after : Arena} {pending pending' : List DeclId}

theorem refl (arena : Arena) : Places arena arena [] where
  decls_size := Nat.le_refl _
  perm := by rw [Nat.sub_self, List.range'_zero]

/-- What is pending after the first steps is still pending after the others. -/
theorem trans (first : Places before middle pending) (second : Places middle after pending') :
    Places before after (pending ++ pending') where
  decls_size := Nat.le_trans first.decls_size second.decls_size
  perm := by
    rw [← range'_split first.decls_size second.decls_size, List.perm_iff_count]
    intro id
    have hfirst := first.perm.count_eq id
    have hsecond := second.perm.count_eq id
    simp only [List.count_append] at hfirst hsecond ⊢
    omega

/-- What stands inside a declaration gets its position when the declaration is added, which
is then pending itself. -/
theorem addDecl {decl : Decl} (places : Places before after (decl.kind.inside ++ pending)) :
    Places before (Arena.addDecl decl after).2 (after.decls.size :: pending) where
  decls_size := by
    have := places.decls_size
    simp only [Arena.addDecl, Array.size_push]
    omega
  perm := by
    have hrange : List.range' before.decls.size (after.decls.size + 1 - before.decls.size) =
        List.range' before.decls.size (after.decls.size - before.decls.size) ++
          [after.decls.size] := by
      rw [← range'_split places.decls_size (Nat.le_add_right after.decls.size 1),
        Nat.add_sub_cancel_left]
      rfl
    rw [List.perm_iff_count]
    intro id
    have hplaces := places.perm.count_eq id
    simp only [Arena.addDecl, positions, positionsIn, Array.size_push, hrange, Array.toList_push,
      List.flatMap_append, List.flatMap_singleton, List.count_append, List.count_cons,
      List.count_nil] at hplaces ⊢
    omega

/-- A declaration with nothing inside it. -/
theorem addPlain (arena : Arena) (decl : Decl) (h : decl.kind.inside = []) :
    Places arena (Arena.addDecl decl arena).2 [arena.decls.size] := by
  apply addDecl
  rw [h]
  exact refl arena

/-- A block that is only begun has no declarations. -/
theorem addBlock {enclosing? : Option BlockId} {line : Nat}
    (places : Places (Arena.addBlock (.bare enclosing? line) before).2 after pending) :
    Places before after pending where
  decls_size := places.decls_size
  perm := by
    refine places.perm.trans (.of_eq ?_)
    simp [Arena.addBlock, positions, positionsIn, Block.declarations, Block.bare]

/-- The declarations of a block's parts get their positions when the block is filled in. -/
theorem fill {id : BlockId} {block : Block} {parts : List DeclPart} {statements : List Statement}
    (hblock : after.blocks[id]? = some block) (hparts : block.parts = [])
    (places : Places before after (parts.flatMap DeclPart.decls)) :
    Places before { after with blocks := after.blocks.modify id fun block =>
      { block with parts, statements } } [] where
  decls_size := places.decls_size
  perm := by
    rw [List.append_nil]
    refine List.Perm.trans ?_ places.perm
    obtain ⟨hlt, hget⟩ := List.getElem?_eq_some_iff.mp ((Array.getElem?_toList ..).trans hblock)
    have hold : block.declarations = [] := by rw [Block.declarations, hparts, List.flatMap_nil]
    have hsplit : after.blocks.toList.flatMap Block.declarations =
        (after.blocks.toList.take id).flatMap Block.declarations ++
          (after.blocks.toList.drop (id + 1)).flatMap Block.declarations := by
      conv_lhs => rw [← List.take_append_drop id after.blocks.toList, List.drop_eq_getElem_cons hlt,
        hget, List.flatMap_append, List.flatMap_cons, hold, List.nil_append]
    rw [List.perm_iff_count]
    intro other
    simp only [positions, positionsIn, Array.toList_modify, hsplit,
      List.modify_eq_take_cons_drop hlt, List.flatMap_append, List.flatMap_cons, List.count_append]
    simp only [Block.declarations]
    omega

end Places

end Arena

/-! ### Numbering an outline -/

namespace Outline

open Arena (Places)

theorem numberLiterals_places (code : Nat) (idents : List Ident) (before : Arena) :
    before.Places (numberLiterals code idents before).2 (numberLiterals code idents before).1 := by
  induction idents generalizing code before with
  | nil => exact .refl before
  | cons ident others ih =>
      have first := Places.addPlain before (.bare ident.name ident.line (.enumLiteral code)) rfl
      exact first.trans (ih (code + 1) _)

/-- The literals of a type are pending until the type is declared. -/
theorem numberType_places (type : TypeExpr Ident) (before : Arena) :
    before.Places (numberType type before).2 (numberType type before).1.literals := by
  induction type generalizing before with
  | named | range | builtin => exact .refl before
  | array index element line ihIndex ihElement => exact (ihIndex before).trans (ihElement _)
  | enumeration idents line => exact numberLiterals_places 0 idents before

theorem numberAll_places {α : Type} (kind : α → DeclKind)
    (hkind : ∀ content, (kind content).inside = []) (decls : List (Ident × α)) (before : Arena) :
    before.Places (numberAll kind decls before).2 (numberAll kind decls before).1 := by
  induction decls generalizing before with
  | nil => exact .refl before
  | cons source others ih =>
      have first := Places.addPlain before (.bare source.1.name source.1.line (kind source.2))
        (hkind source.2)
      exact first.trans (ih _)

theorem numberTyped_places {kind : TypeExpr DeclId → DeclKind}
    (hkind : ∀ type, (kind type).inside = type.literals) (decls : List (Ident × TypeExpr Ident))
    (before : Arena) :
    before.Places (numberTyped kind decls before).2 (numberTyped kind decls before).1 := by
  induction decls generalizing before with
  | nil => exact .refl before
  | cons source others ih =>
      obtain ⟨ident, type⟩ := source
      have hinside : before.Places (numberType type before).2
          ((Decl.bare ident.name ident.line
            (kind (numberType type before).1)).kind.inside ++ []) := by
        rw [List.append_nil]
        exact hkind _ ▸ numberType_places type before
      exact hinside.addDecl.trans (ih _)

mutual

theorem numberBlock_places (enclosing : BlockId) (outline : Block) (before : Arena) :
    before.Places (numberBlock enclosing outline before).2 [] := by
  cases outline with
  | mk line parts statements =>
      obtain ⟨_, _, _, fills⟩ := numberParts_fills before.blocks.size parts
        (Arena.addBlock (.bare (some enclosing) line) before).2 (by simp [Arena.addBlock])
      have hadded : (Arena.addBlock (.bare (some enclosing) line) before).2.blocks.size =
          before.blocks.size + 1 := Array.size_push _
      have hlt : before.blocks.size <
          (Arena.addBlock (.bare (some enclosing) line) before).2.blocks.size :=
        hadded ▸ Nat.lt_succ_self _
      have hplaced := fills.blocks_kept before.blocks.size hlt
      have hbare : (Arena.addBlock (.bare (some enclosing) line) before).2.blocks[
          before.blocks.size]? = some (.bare (some enclosing) line) := Array.getElem?_push_size
      exact Places.fill (hplaced.trans hbare) rfl (numberParts_places _ parts _ hlt).addBlock

theorem numberParts_places (block : BlockId) (parts : List Part) (before : Arena)
    (hblock : block < before.blocks.size) :
    before.Places (numberParts block parts before).2
      ((numberParts block parts before).1.flatMap DeclPart.decls) := by
  cases parts with
  | nil => exact .refl before
  | cons part others =>
      obtain ⟨_, _, _, fills⟩ := numberPart_fills block part before hblock
      have first := numberPart_places block part before
      exact first.trans (numberParts_places block others _
        (Nat.lt_of_lt_of_le hblock fills.blocks_size))

theorem numberPart_places (block : BlockId) (part : Part) (before : Arena) :
    before.Places (numberPart block part before).2 (numberPart block part before).1.decls := by
  cases part with
  | constants decls => exact numberAll_places .constant (fun _ => rfl) decls before
  | types decls => exact numberTyped_places (fun _ => rfl) decls before
  | vars decls => exact numberTyped_places (fun _ => rfl) decls before
  | routine heading body =>
      have params := numberAll_places .parameter (fun _ => rfl) heading.params before
      exact (params.trans (numberBlock_places block body _)).addDecl

end

/-- Each declaration of a numbered program has exactly one position. -/
theorem positions_ofOutline (outline : Outline) : (Tree.ofOutline outline).positions.Perm
    (List.range (Tree.ofOutline outline).decls.size) := by
  have hplaces := (numberBlock_places libraryBlock outline.body Arena.initial).perm
  rw [List.append_nil] at hplaces
  refine hplaces.trans (.of_eq ?_)
  rw [List.range_eq_range']
  rfl

end Outline

end MiniPascal
