import MiniPascal.Proofs.Tree.Numbering
import MiniPascal.Proofs.Tree.Spots

/-!
# Flattening the tree of an outline

Numbering puts the parts of an outline at places of their own and leaves numbers in their
stead.  Following the numbers finds the parts again, so the tree of an outline has the
tokens of the outline, and the same nodes begin with them.
-/

namespace MiniPascal

/-! ### What a tree holds -/

/-- At the places filled between two arenas, the tree has what the second one has. -/
structure Tree.Agrees (tree : Tree) (before after : Arena) : Prop where
  blocks : ∀ id, before.blocks.size ≤ id → id < after.blocks.size →
    tree.blocks[id]? = after.blocks[id]?
  decls : ∀ id, before.decls.size ≤ id → id < after.decls.size →
    tree.decls[id]? = after.decls[id]?

namespace Tree.Agrees

variable {tree : Tree} {before middle after : Arena} {declared declared' : List Numbered}
variable {blocks blocks' : List (BlockId × Block)}

theorem first (h : tree.Agrees before after) (second : middle.Fills after declared blocks) :
    tree.Agrees before middle where
  blocks id hlow hhigh := by
    rw [h.blocks id hlow (Nat.lt_of_lt_of_le hhigh second.blocks_size), second.blocks_kept id hhigh]
  decls id hlow hhigh := by
    rw [h.decls id hlow (Nat.lt_of_lt_of_le hhigh second.decls_size), second.decls_kept id hhigh]

theorem second (h : tree.Agrees before after) (first : before.Fills middle declared blocks) :
    tree.Agrees middle after where
  blocks id hlow hhigh := h.blocks id (Nat.le_trans first.blocks_size hlow) hhigh
  decls id hlow hhigh := h.decls id (Nat.le_trans first.decls_size hlow) hhigh

theorem decl {added : Decl} (h : tree.Agrees before (Arena.addDecl added before).2) :
    tree.decls[before.decls.size]? = some added := by
  rw [h.decls _ (Nat.le_refl _) (by simp [Arena.addDecl])]
  exact Array.getElem?_push_size

/-- A block that is filled in after what is inside it. -/
theorem block {bare filled : Block} {change : Block → Block}
    (inside : (Arena.addBlock bare before).2.Fills after declared blocks)
    (hchange : change bare = filled)
    (h : tree.Agrees before
      { after with blocks := after.blocks.modify before.blocks.size change }) :
    tree.blocks[before.blocks.size]? = some filled ∧
      tree.Agrees (Arena.addBlock bare before).2 after := by
  have hadded : (Arena.addBlock bare before).2.blocks.size = before.blocks.size + 1 :=
    Array.size_push bare
  have hsize := inside.blocks_size
  constructor
  · have hplaced : after.blocks[before.blocks.size]? = some bare := by
      rw [inside.blocks_kept _ (by omega)]
      exact Array.getElem?_push_size
    rw [h.blocks _ (Nat.le_refl _) (by rw [Array.size_modify]; omega), Array.getElem?_modify,
      if_pos rfl, hplaced, Option.map_some, hchange]
  · constructor
    case blocks =>
      intro id hlow hhigh
      rw [h.blocks id (by omega) (by rw [Array.size_modify]; exact hhigh), Array.getElem?_modify,
        if_neg (by omega)]
    case decls => exact h.decls

end Tree.Agrees

/-! ### Declarations -/

namespace Outline

variable {tree : Tree} {id : DeclId} {ident : Ident}

theorem declSpots_constant {value : Constant}
    (h : tree.decls[id]? = some (.bare ident.name ident.line (.constant value))) :
    tree.declSpots id = constantSpots (ident, value) := by
  rw [Tree.declSpots, h]
  rfl

theorem declSpots_type {type : TypeExpr DeclId}
    (h : tree.decls[id]? = some (.bare ident.name ident.line (.type type))) :
    tree.declSpots id = declarationSpots ident.name ident.line .equal
      (type.spots tree.literalSpots) := by
  rw [Tree.declSpots, h]
  rfl

theorem declSpots_variable {type : TypeExpr DeclId}
    (h : tree.decls[id]? = some (.bare ident.name ident.line (.variableOf type))) :
    tree.declSpots id = declarationSpots ident.name ident.line .colon
      (type.spots tree.literalSpots) := by
  rw [Tree.declSpots, h]
  rfl

theorem declSpots_parameter {type : NameRef}
    (h : tree.decls[id]? = some (.bare ident.name ident.line (.parameter type))) :
    tree.declSpots id = paramSpots (ident, type) := by
  rw [Tree.declSpots, h]
  rfl

private theorem flatMap_of_map {α β : Type} {ids : List α} {sources : List β}
    {printId : α → List Spot} {print : β → List Spot}
    (h : ids.map printId = sources.map print) : ids.flatMap printId = sources.flatMap print := by
  rw [List.flatMap_def, h, ← List.flatMap_def]

theorem numberLiterals_spots (code : Nat) (idents : List Ident) (before : Arena)
    (h : tree.Agrees before (numberLiterals code idents before).2) :
    (numberLiterals code idents before).1.map tree.literalSpots = idents.map identSpots := by
  induction idents generalizing code before with
  | nil => rfl
  | cons ident others ih =>
      obtain ⟨_, _, _, fills⟩ := numberLiterals_fills (code + 1) others
        (Arena.addDecl (.bare ident.name ident.line (.enumLiteral code)) before).2
      have hliteral : tree.literalSpots before.decls.size = identSpots ident := by
        rw [Tree.literalSpots, Tree.nameOf, (h.first fills).decl]
        rfl
      have hothers := ih (code + 1) _ (h.second (.addDecl before _))
      change tree.literalSpots before.decls.size :: _ = _
      rw [hliteral, List.map_cons]
      exact congrArg _ hothers

theorem numberType_spots (type : TypeExpr Ident) (before : Arena)
    (h : tree.Agrees before (numberType type before).2) :
    (numberType type before).1.spots tree.literalSpots = type.spots identSpots := by
  induction type generalizing before with
  | named => rfl
  | array index element line ihIndex ihElement =>
      obtain ⟨_, _, _, _, fillsIndex⟩ := numberType_fills index before
      obtain ⟨_, _, _, _, fillsElement⟩ := numberType_fills element (numberType index before).2
      have hindex := ihIndex before (h.first fillsElement)
      have helement := ihElement (numberType index before).2 (h.second fillsIndex)
      rw [TypeExpr.spots, ← hindex, ← helement]
      rfl
  | enumeration idents line =>
      have hliterals := numberLiterals_spots 0 idents before h
      rw [TypeExpr.spots, ← hliterals]
      rfl
  | range => rfl
  | builtin => rfl

/-- What the numbers of a section's declarations stand for. -/
theorem numberAll_spots {α : Type} {kind : α → DeclKind} {print : Ident × α → List Spot}
    (hprint : ∀ {id ident content},
      tree.decls[id]? = some (.bare ident.name ident.line (kind content)) →
        tree.declSpots id = print (ident, content))
    (decls : List (Ident × α)) (before : Arena)
    (h : tree.Agrees before (numberAll kind decls before).2) :
    (numberAll kind decls before).1.map tree.declSpots = decls.map print := by
  induction decls generalizing before with
  | nil => rfl
  | cons source others ih =>
      obtain ⟨ident, content⟩ := source
      obtain ⟨_, _, _, fills⟩ := numberAll_fills kind others
        (Arena.addDecl (.bare ident.name ident.line (kind content)) before).2
      have hfirst := hprint (h.first fills).decl
      have hothers := ih _ (h.second (.addDecl before _))
      change tree.declSpots before.decls.size :: _ = _
      rw [hfirst, List.map_cons]
      exact congrArg _ hothers

theorem numberTyped_spots {kind : TypeExpr DeclId → DeclKind} {mark : Symbol}
    (hprint : ∀ {id : DeclId} {ident : Ident} {type},
      tree.decls[id]? = some (.bare ident.name ident.line (kind type)) →
        tree.declSpots id = declarationSpots ident.name ident.line mark
          (type.spots tree.literalSpots))
    (decls : List (Ident × TypeExpr Ident)) (before : Arena)
    (h : tree.Agrees before (numberTyped kind decls before).2) :
    (numberTyped kind decls before).1.map tree.declSpots = decls.map (typedSpots mark) := by
  induction decls generalizing before with
  | nil => rfl
  | cons source others ih =>
      obtain ⟨ident, type⟩ := source
      obtain ⟨_, _, _, _, fillsType⟩ := numberType_fills type before
      obtain ⟨_, _, _, fills⟩ := numberTyped_fills kind others (Arena.addDecl
        (.bare ident.name ident.line (kind (numberType type before).1))
        (numberType type before).2).2
      have own := h.second fillsType
      have hfirst := hprint (own.first fills).decl
      have htype := numberType_spots type before
        ((h.first fills).first (Arena.Fills.addDecl _ _))
      have hothers := ih _ (own.second (Arena.Fills.addDecl _ _))
      change tree.declSpots (numberType type before).2.decls.size :: _ = _
      rw [hfirst, htype, List.map_cons]
      exact congrArg _ hothers

/-! ### Blocks -/

/-- A block that was numbered is found at its number, and what is inside it after it. -/
theorem numberBlock_agrees {enclosing : BlockId} {line : Nat} {parts : List Part}
    {statements : List Statement} {before : Arena}
    (h : tree.Agrees before (numberBlock enclosing (.mk line parts statements) before).2) :
    ∃ opened, opened = (Arena.addBlock (.bare (some enclosing) line) before).2 ∧
      opened.blocks.size = before.blocks.size + 1 ∧
      tree.blocks[before.blocks.size]? = some { MiniPascal.Block.bare (some enclosing) line with
        parts := (numberParts before.blocks.size parts opened).1, statements } ∧
      tree.Agrees opened (numberParts before.blocks.size parts opened).2 ∧
      opened.blocks.size ≤ (numberParts before.blocks.size parts opened).2.blocks.size ∧
      (numberBlock enclosing (.mk line parts statements) before).2.blocks.size =
        (numberParts before.blocks.size parts opened).2.blocks.size := by
  have hsize : (Arena.addBlock (.bare (some enclosing) line) before).2.blocks.size =
      before.blocks.size + 1 := Array.size_push _
  obtain ⟨_, _, _, fills⟩ := numberParts_fills before.blocks.size parts
    (Arena.addBlock (.bare (some enclosing) line) before).2 (hsize ▸ Nat.lt_succ_self _)
  obtain ⟨hplaced, hinside⟩ := Tree.Agrees.block fills rfl h
  exact ⟨_, rfl, hsize, hplaced, hinside, fills.blocks_size, Array.size_modify⟩

/-- The first of several parts that were numbered, and the others after it. -/
theorem numberParts_agrees {block : BlockId} {part : Part} {others : List Part} {before : Arena}
    (hblock : block < before.blocks.size)
    (h : tree.Agrees before (numberParts block (part :: others) before).2) :
    ∃ middle, middle = (numberPart block part before).2 ∧
      before.blocks.size ≤ middle.blocks.size ∧
      middle.blocks.size ≤ (numberParts block others middle).2.blocks.size ∧
      tree.Agrees before middle ∧ tree.Agrees middle (numberParts block others middle).2 := by
  obtain ⟨_, _, _, first⟩ := numberPart_fills block part before hblock
  obtain ⟨_, _, _, second⟩ := numberParts_fills block others (numberPart block part before).2
    (Nat.lt_of_lt_of_le hblock first.blocks_size)
  exact ⟨_, rfl, first.blocks_size, second.blocks_size, h.first second, h.second first⟩

mutual

/-- The spots of a block are found at its number.  The blocks inside it have larger
numbers, so their nesting is within any bound that fits all of them. -/
theorem numberBlock_spots (enclosing : BlockId) (outline : Block) (before : Arena) (depth : Nat)
    (h : tree.Agrees before (numberBlock enclosing outline before).2)
    (hdepth : (numberBlock enclosing outline before).2.blocks.size ≤ depth + before.blocks.size) :
    tree.spotsWithin depth (numberBlock enclosing outline before).1 = outline.spots := by
  cases outline with
  | mk line parts statements =>
      obtain ⟨opened, rfl, hsize, hplaced, hinside, hgrown, hblocks⟩ := numberBlock_agrees h
      rw [hblocks] at hdepth
      obtain ⟨depth, rfl⟩ : ∃ inner, depth = inner + 1 := ⟨depth - 1, by omega⟩
      have hparts := numberParts_spots before.blocks.size parts _ depth
        (hsize ▸ Nat.lt_succ_self _) hinside (by omega)
      change tree.spotsWithin (depth + 1) before.blocks.size = _
      rw [Tree.spotsWithin, hplaced, Block.spots, ← hparts]
      rfl

theorem numberParts_spots (block : BlockId) (parts : List Part) (before : Arena) (depth : Nat)
    (hblock : block < before.blocks.size)
    (h : tree.Agrees before (numberParts block parts before).2)
    (hdepth : (numberParts block parts before).2.blocks.size ≤ depth + before.blocks.size) :
    (numberParts block parts before).1.flatMap (tree.partSpots (tree.spotsWithin depth)) =
      partsSpots parts := by
  cases parts with
  | nil => rfl
  | cons part others =>
      obtain ⟨middle, rfl, hfirst, hsecond, agrees, agrees'⟩ := numberParts_agrees hblock h
      change (numberParts block others (numberPart block part before).2).2.blocks.size ≤
        depth + before.blocks.size at hdepth
      have hpart := numberPart_spots block part before depth agrees (by omega)
      have hothers := numberParts_spots block others _ depth (Nat.lt_of_lt_of_le hblock hfirst)
        agrees' (by omega)
      rw [partsSpots, ← hpart, ← hothers]
      rfl

theorem numberPart_spots (block : BlockId) (part : Part) (before : Arena) (depth : Nat)
    (h : tree.Agrees before (numberPart block part before).2)
    (hdepth : (numberPart block part before).2.blocks.size ≤ depth + before.blocks.size) :
    tree.partSpots (tree.spotsWithin depth) (numberPart block part before).1 = part.spots := by
  cases part with
  | constants decls =>
      have hdecls := numberAll_spots declSpots_constant decls before h
      exact congrArg (.bare (.keyword .const) :: ·) (flatMap_of_map hdecls)
  | types decls =>
      have hdecls := numberTyped_spots declSpots_type decls before h
      exact congrArg (.bare (.keyword .type) :: ·) (flatMap_of_map hdecls)
  | vars decls =>
      have hdecls := numberTyped_spots declSpots_variable decls before h
      exact congrArg (.bare (.keyword .var) :: ·) (flatMap_of_map hdecls)
  | routine heading body =>
      obtain ⟨_, _, _, fillsParams⟩ := numberAll_fills .parameter heading.params before
      obtain ⟨_, _, _, hbody⟩ := numberBlock_fills block body
        (numberAll .parameter heading.params before).2
      have hsizeParams := fillsParams.blocks_size
      have inside := h.first (Arena.Fills.addDecl _ _)
      have hparams := numberAll_spots declSpots_parameter heading.params before
        (inside.first hbody.fills)
      have hblockSpots := numberBlock_spots block body _ depth (inside.second fillsParams)
        (Nat.le_trans hdepth (by omega))
      have hdecl := (h.second (fillsParams.trans hbody.fills)).decl
      rw [Part.spots, ← hparams, ← hblockSpots]
      change tree.partSpots _ (.routine _) = _
      rw [Tree.partSpots, hdecl]
      rfl

end

theorem agrees_ofOutline (outline : Outline) : (Tree.ofOutline outline).Agrees Arena.initial
    (numberBlock libraryBlock outline.body Arena.initial).2 :=
  ⟨fun _ _ _ => rfl, fun _ _ _ => rfl⟩

/-- Numbering keeps the tokens and the nodes that begin with them. -/
theorem spots_ofOutline (outline : Outline) : (Tree.ofOutline outline).spots = outline.spots := by
  have hbody : (Tree.ofOutline outline).spotsWithin (Tree.ofOutline outline).blocks.size
      (Tree.ofOutline outline).body = outline.body.spots :=
    numberBlock_spots libraryBlock outline.body Arena.initial _ (agrees_ofOutline outline)
      (Nat.le_add_right _ _)
  rw [Tree.spots, hbody]
  rfl

/-- Numbering keeps the tokens. -/
theorem tokens_ofOutline (outline : Outline) :
    (Tree.ofOutline outline).tokens = outline.tokens := by
  rw [← Tree.map_token_spots, spots_ofOutline, outline.map_token_spots]

/-! ### Statements -/

mutual

/-- The lists of statements of a block and of the blocks in it. -/
def Block.bodies : Block → List (List Statement)
  | .mk _ parts statements => statements :: partsBodies parts

def partsBodies : List Part → List (List Statement)
  | [] => []
  | first :: others => first.bodies ++ partsBodies others

def Part.bodies : Part → List (List Statement)
  | .constants _ | .types _ | .vars _ => []
  | .routine _ body => body.bodies

end

theorem partsBodies_eq (parts : List Part) : partsBodies parts = parts.flatMap Part.bodies := by
  induction parts with
  | nil => rfl
  | cons first others ih => rw [partsBodies, ih, List.flatMap_cons]

private theorem no_blocks {before after : Arena} {declared : List Numbered}
    (fills : before.Fills after declared []) {id : BlockId} (hlow : before.blocks.size ≤ id)
    (hhigh : id < after.blocks.size) : False :=
  List.not_mem_nil (fills.blocks_all id hlow hhigh)

mutual

/-- Every block that was put in the tree has the statements of one in the outline. -/
theorem numberBlock_bodies (enclosing : BlockId) (outline : Block) (before : Arena)
    (h : tree.Agrees before (numberBlock enclosing outline before).2) (id : BlockId)
    (hlow : before.blocks.size ≤ id)
    (hhigh : id < (numberBlock enclosing outline before).2.blocks.size) :
    ∃ block, tree.blocks[id]? = some block ∧ block.statements ∈ outline.bodies := by
  cases outline with
  | mk line parts statements =>
      obtain ⟨opened, -, hsize, hplaced, hinside, -, hblocks⟩ := numberBlock_agrees h
      by_cases hid : id = before.blocks.size
      · exact ⟨_, hid ▸ hplaced, List.mem_cons_self⟩
      · obtain ⟨block, hfound, hmem⟩ := numberParts_bodies before.blocks.size parts opened
          (hsize ▸ Nat.lt_succ_self _) hinside id
          (hsize ▸ Nat.lt_of_le_of_ne hlow (Ne.symm hid)) (hblocks ▸ hhigh)
        exact ⟨block, hfound, List.mem_cons_of_mem _ hmem⟩

theorem numberParts_bodies (block : BlockId) (parts : List Part) (before : Arena)
    (hblock : block < before.blocks.size)
    (h : tree.Agrees before (numberParts block parts before).2) (id : BlockId)
    (hlow : before.blocks.size ≤ id)
    (hhigh : id < (numberParts block parts before).2.blocks.size) :
    ∃ block, tree.blocks[id]? = some block ∧ block.statements ∈ partsBodies parts := by
  cases parts with
  | nil => exact absurd hhigh (Nat.not_lt.mpr hlow)
  | cons part others =>
      obtain ⟨middle, rfl, hfirst, -, agrees, agrees'⟩ := numberParts_agrees hblock h
      by_cases hid : id < (numberPart block part before).2.blocks.size
      · obtain ⟨found, hfound, hmem⟩ := numberPart_bodies block part before agrees id hlow hid
        exact ⟨found, hfound, List.mem_append_left _ hmem⟩
      · obtain ⟨found, hfound, hmem⟩ := numberParts_bodies block others _
          (Nat.lt_of_lt_of_le hblock hfirst) agrees' id (Nat.not_lt.mp hid) hhigh
        exact ⟨found, hfound, List.mem_append_right _ hmem⟩

theorem numberPart_bodies (block : BlockId) (part : Part) (before : Arena)
    (h : tree.Agrees before (numberPart block part before).2) (id : BlockId)
    (hlow : before.blocks.size ≤ id)
    (hhigh : id < (numberPart block part before).2.blocks.size) :
    ∃ block, tree.blocks[id]? = some block ∧ block.statements ∈ part.bodies := by
  cases part with
  | constants decls =>
      obtain ⟨_, _, _, fills⟩ := numberAll_fills .constant decls before
      exact (no_blocks fills hlow hhigh).elim
  | types decls =>
      obtain ⟨_, _, _, fills⟩ := numberTyped_fills .type decls before
      exact (no_blocks fills hlow hhigh).elim
  | vars decls =>
      obtain ⟨_, _, _, fills⟩ := numberTyped_fills .variableOf decls before
      exact (no_blocks fills hlow hhigh).elim
  | routine heading body =>
      obtain ⟨_, _, _, fillsParams⟩ := numberAll_fills .parameter heading.params before
      have inside := (h.first (Arena.Fills.addDecl _ _)).second fillsParams
      by_cases hid : (numberAll .parameter heading.params before).2.blocks.size ≤ id
      · exact numberBlock_bodies block body _ inside id hid hhigh
      · exact (no_blocks fillsParams hlow (Nat.not_le.mp hid)).elim

end

/-- Apart from the library's, the blocks of the tree are those of the outline. -/
theorem statements_mem_bodies {outline : Outline} {id : BlockId} {block : MiniPascal.Block}
    (h : (Tree.ofOutline outline).blocks[id]? = some block) (hid : id ≠ libraryBlock) :
    block.statements ∈ outline.body.bodies := by
  obtain ⟨found, hfound, hmem⟩ := numberBlock_bodies libraryBlock outline.body Arena.initial
    (agrees_ofOutline outline) id (Nat.one_le_iff_ne_zero.mpr hid)
    (Array.getElem?_eq_some_iff.mp h).1
  cases h.symm.trans hfound
  exact hmem

end Outline

end MiniPascal
