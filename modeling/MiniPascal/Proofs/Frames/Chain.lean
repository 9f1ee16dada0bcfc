import MiniPascal.Proofs.Check.Nesting
import MiniPascal.Proofs.Frames.Exact
import Mathlib.Data.List.Pairwise

/-!
# Frames along the chain of blocks

The blocks around a block own the frames of all levels from one up to that of the block,
one each.  A name leads to one of these blocks, and as far as the level of that block
reaches, both lie in the same frames.
-/

namespace MiniPascal

namespace Tree

def frameLevel (tree : Tree) (id : BlockId) : Nat :=
  (tree.blocks[id]?.map Block.frameLevel).getD 0

def isFramed (tree : Tree) (id : BlockId) : Bool :=
  tree.blocks[id]?.any fun block => block.ownsFrame id

/-- The block that owns the frame of a level, among a block and those around it. -/
def frameAt (tree : Tree) (id : BlockId) (level : Nat) : Option BlockId :=
  (tree.chain id).find? fun outer => tree.isFramed outer && tree.frameLevel outer == level

theorem frameAt_eq {tree : Tree} (descends : tree.Descends) {id outer : BlockId}
    (houter : tree.enclosing? id = some outer) (level : Nat) :
    tree.frameAt id level =
      if tree.isFramed id && tree.frameLevel id == level then some id
      else tree.frameAt outer level := by
  rw [frameAt, chain_eq descends, houter, List.find?_cons]
  cases tree.isFramed id && tree.frameLevel id == level <;> rfl

end Tree

namespace CheckedProgram

variable {outline : Outline} {skeleton body : Skeleton} {tree : Tree} {site : Site}

theorem frameLevel_library (program : CheckedProgram outline skeleton tree) :
    tree.frameLevel libraryBlock = 0 := by
  rw [Tree.frameLevel, program.library_eq]
  rfl

theorem enclosing?_top (program : CheckedProgram outline skeleton tree) :
    tree.enclosing? skeleton.id = some libraryBlock := by
  rw [program.enclosing?_eq .top, Tree.enclosing?,
    program.hasSkeleton.block _ skeleton.root_mem_nodes]
  exact program.hasSkeleton.root_enclosing

theorem chain_library (program : CheckedProgram outline skeleton tree) :
    tree.chain libraryBlock = [libraryBlock] := by
  rw [Tree.chain_eq program.descends, Tree.enclosing?, program.library_eq]
  rfl

theorem frameLevel_eq (program : CheckedProgram outline skeleton tree)
    (occurs : Occurs outline skeleton site body) :
    tree.frameLevel body.id = (site.entered body.root).frameLevel := by
  obtain ⟨statements, hblock, -⟩ := (occurs.checked program.checked).node.block
  rw [Tree.frameLevel, hblock]
  rfl

theorem isFramed_eq (program : CheckedProgram outline skeleton tree)
    (occurs : Occurs outline skeleton site body) :
    tree.isFramed body.id = body.root.ownsFrame := by
  obtain ⟨statements, hblock, -⟩ := (occurs.checked program.checked).node.block
  rw [Tree.isFramed, hblock, Option.any_some]
  exact program.ownsFrame_eq occurs hblock

/-- The block around a block, and how its frame level is related to that of the block. -/
theorem exists_enclosing? (program : CheckedProgram outline skeleton tree)
    (occurs : Occurs outline skeleton site body) :
    ∃ outer, tree.enclosing? body.id = some outer ∧
      tree.frameLevel outer = site.level.frameLevel ∧
      tree.frameLevel body.id =
        if body.root.ownsFrame then tree.frameLevel outer + 1 else tree.frameLevel outer := by
  have hlevel := program.frameLevel_eq occurs
  suffices houter : ∃ outer, tree.enclosing? body.id = some outer ∧
      tree.frameLevel outer = site.level.frameLevel by
    obtain ⟨outer, henclosing, hframe⟩ := houter
    exact ⟨outer, henclosing, hframe, by rw [hlevel, hframe]; rfl⟩
  cases occurs with
  | top =>
      exact ⟨libraryBlock, program.enclosing?_top, program.frameLevel_library⟩
  | @body around root before after body outer =>
      refine ⟨root.id, program.enclosing?_body outer, ?_⟩
      have hroot := program.frameLevel_eq outer
      rw [Site.level_resumedAll]
      exact hroot

/-- A block with a frame of its own is one level further inside than the block around it. -/
theorem frameLevel_of_enclosing? (program : CheckedProgram outline skeleton tree)
    {inner outer : BlockId} (henclosing : tree.enclosing? inner = some outer) :
    tree.frameLevel inner =
      if tree.isFramed inner then tree.frameLevel outer + 1 else tree.frameLevel outer := by
  have hlibrary : inner ≠ libraryBlock := by
    rintro rfl
    rw [Tree.enclosing?, program.library_eq] at henclosing
    cases henclosing
  obtain ⟨site, body, occurs, rfl, -⟩ := program.exists_occurs
    (program.mem_blockIds hlibrary (Tree.lt_size_of_enclosing? henclosing))
  obtain ⟨found, hfound, -, hlevel⟩ := program.exists_enclosing? occurs
  obtain rfl := Option.some.inj (hfound.symm.trans henclosing)
  rw [program.isFramed_eq occurs]
  exact hlevel

/-- The frame of a block's level is that in which its words lie. -/
theorem frameAt_frameLevel (program : CheckedProgram outline skeleton tree)
    (occurs : Occurs outline skeleton site body) :
    tree.frameAt body.id (tree.frameLevel body.id) =
      some (site.entered body.root).frameOwner := by
  induction occurs with
  | top =>
      obtain ⟨outer, henclosing, -⟩ := program.exists_enclosing? .top
      have howns : skeleton.root.ownsFrame = true := by
        rw [Node.ownsFrame, program.hasSkeleton.program]
        rfl
      rw [Tree.frameAt_eq program.descends henclosing, program.isFramed_eq .top, howns,
        beq_self_eq_true, Site.frameOwner_entered, howns]
      rfl
  | @body around root before after body outer ih =>
      have henclosing := program.enclosing?_body outer
      obtain ⟨found, hfound, -, hlevel⟩ := program.exists_enclosing? (.body outer)
      obtain rfl := Option.some.inj (henclosing.symm.trans hfound)
      rw [Tree.frameAt_eq program.descends henclosing, program.isFramed_eq (.body outer),
        beq_self_eq_true, Site.frameOwner_entered, Site.frameOwner_resumedAll]
      cases howns : body.root.ownsFrame with
      | true => rfl
      | false =>
          rw [howns] at hlevel
          rw [hlevel]
          exact ih

theorem isFramed_program (program : CheckedProgram outline skeleton tree) :
    tree.isFramed tree.body = true := by
  rw [program.body_eq, program.isFramed_eq .top, Node.ownsFrame, program.hasSkeleton.program]
  rfl

/-- The program's own block has the frame of level one. -/
theorem frameLevel_program (program : CheckedProgram outline skeleton tree) :
    tree.frameLevel tree.body = 1 := by
  have henclosing := program.enclosing?_top
  have hframed := program.isFramed_program
  rw [program.body_eq] at hframed ⊢
  rw [program.frameLevel_of_enclosing? henclosing, hframed, if_pos rfl, program.frameLevel_library]

/-- What a name can lead to lies in the same frames, as far as its level reaches. -/
theorem frameAt_of_mem_chain (program : CheckedProgram outline skeleton tree)
    (occurs : Occurs outline skeleton site body) {outer : BlockId}
    (h : outer ∈ tree.chain body.id) : tree.frameLevel outer ≤ tree.frameLevel body.id ∧
      ∀ level, 1 ≤ level → level ≤ tree.frameLevel outer →
        tree.frameAt body.id level = tree.frameAt outer level := by
  induction occurs with
  | top =>
      rw [Tree.chain_eq program.descends, program.enclosing?_top] at h
      rcases List.mem_cons.mp h with rfl | h
      · exact ⟨Nat.le_refl _, fun _ _ _ => rfl⟩
      · rw [Option.map_some, Option.getD_some, program.chain_library, List.mem_singleton] at h
        rw [h, program.frameLevel_library]
        exact ⟨Nat.zero_le _, fun level hpos hhigh => by omega⟩
  | @body around root before after body within ih =>
      have henclosing := program.enclosing?_body within
      obtain ⟨found, hfound, -, hlevel⟩ := program.exists_enclosing? (.body within)
      obtain rfl := Option.some.inj (henclosing.symm.trans hfound)
      rw [Tree.chain_eq program.descends, henclosing] at h
      rcases List.mem_cons.mp h with rfl | h
      · exact ⟨Nat.le_refl _, fun _ _ _ => rfl⟩
      · obtain ⟨hle, hsame⟩ := ih h
        change tree.frameLevel outer ≤ tree.frameLevel root.id at hle
        constructor
        · rw [hlevel]
          split <;> omega
        · intro level hpos hhigh
          rw [Tree.frameAt_eq program.descends henclosing, program.isFramed_eq (.body within),
            ← hsame level hpos hhigh]
          apply if_neg
          rw [Bool.and_eq_true, beq_iff_eq]
          rintro ⟨howns, heq⟩
          rw [howns, if_pos rfl] at hlevel
          omega

/-! ### What names lead to -/

/-- What is declared is declared in one block only. -/
theorem root_eq_of_declared (program : CheckedProgram outline skeleton tree)
    {site' : Site} {body' : Skeleton} (occurs : Occurs outline skeleton site body)
    (occurs' : Occurs outline skeleton site' body') {x y : Numbered}
    (hx : x ∈ body.root.declared) (hy : y ∈ body'.root.declared) (hid : x.id = y.id) :
    body.root = body'.root := by
  have hnodup := program.hasSkeleton.declIds_nodup
  rw [Skeleton.declIds, Skeleton.declared, List.map_flatMap, List.nodup_flatMap] at hnodup
  by_contra hne
  have : Std.Symm (Function.onFun List.Disjoint fun node : Node => node.declared.map Numbered.id) :=
    ⟨fun _ _ h _ hleft hright => h hright hleft⟩
  have hdisjoint := hnodup.2.forall (Outline.HasSkeleton.root_mem_nodes occurs)
    (Outline.HasSkeleton.root_mem_nodes occurs') hne
  exact hdisjoint (List.mem_map_of_mem hx) (hid ▸ List.mem_map_of_mem hy)

/-- A name that is used in the statements of a block leads to the library or to what is
declared in a block around it. -/
theorem exists_declaring (program : CheckedProgram outline skeleton tree) {id : BlockId}
    {block : Block} (hblock : tree.blocks[id]? = some block) {use : Use}
    (huse : use ∈ Statement.usesAll block.statements) {found : DeclId}
    (hfound : use.2.decl? = some found) :
    (∃ x ∈ Library.numbered (Tree.ofOutline outline).decls.size, x.id = found) ∨
      ∃ site body, Occurs outline skeleton site body ∧ body.id ∈ tree.chain id ∧
        ∃ x ∈ body.root.declared, x.id = found := by
  obtain ⟨found', hfound', hlookup⟩ := program.decl?_eq_lookup hblock huse
  obtain rfl := Option.some.inj (hfound.symm.trans hfound')
  rw [Tree.lookup_eq_findSome?] at hlookup
  obtain ⟨outer, houter, htable⟩ := List.exists_of_findSome?_eq_some hlookup
  by_cases hlibrary : outer = libraryBlock
  · rw [hlibrary, Tree.tableAt, program.library_eq] at htable
    obtain ⟨x, hx, -, hid⟩ := exists_of_lookup_tableOf htable
    exact .inl ⟨x, hx, hid⟩
  · have hsize : outer < tree.blocks.size := by
      by_contra hge
      rw [Tree.tableAt, Array.getElem?_eq_none (Nat.not_lt.mp hge)] at htable
      cases htable
    obtain ⟨site, body, occurs, rfl, hchecked⟩ :=
      program.exists_occurs (program.mem_blockIds hlibrary hsize)
    obtain ⟨statements, hbody, -⟩ := hchecked.node.block
    rw [Tree.tableAt, hbody] at htable
    obtain ⟨x, hx, -, hid⟩ := exists_of_lookup_tableOf htable
    exact .inr ⟨site, body, occurs, houter, x, hx, hid⟩

/-- The library has no bodies. -/
theorem bodyOf?_library (program : CheckedProgram outline skeleton tree) {x : Numbered}
    (hx : x ∈ Library.numbered (Tree.ofOutline outline).decls.size) : tree.bodyOf? x.id = none := by
  have hmem : x.decl ∈ Library.decls := by
    rw [← Library.map_decl_numberFrom (Tree.ofOutline outline).decls.size Library.decls]
    exact List.mem_map_of_mem hx
  rw [Tree.bodyOf?, program.declared x hx]
  exact Library.body_eq_none x.decl hmem

/-- A routine that is used in the statements of a block has its body in a block around it. -/
theorem exists_enclosing?_of_use (program : CheckedProgram outline skeleton tree) {id : BlockId}
    {block : Block} (hblock : tree.blocks[id]? = some block) {use : Use}
    (huse : use ∈ Statement.usesAll block.statements) {found : DeclId}
    (hfound : use.2.decl? = some found) {inner : BlockId}
    (hinner : tree.bodyOf? found = some inner) :
    ∃ outer ∈ tree.chain id, tree.enclosing? inner = some outer := by
  obtain ⟨decl, hdecl, hbody⟩ := Option.bind_eq_some_iff.mp hinner
  obtain ⟨heading, hheading, hbody⟩ := Option.bind_eq_some_iff.mp hbody
  rw [DeclKind.routine?_eq_some_iff] at hheading
  obtain ⟨around, root, before, body, after, routine, -, rfl⟩ :=
    program.exists_routine hdecl hheading hbody
  obtain ⟨-, -, -, entry, hentry, hentryId, -⟩ := routine.bodyOf
  have hdeclared : entry.declared ∈ root.declared := List.mem_append_right _
    (List.mem_flatMap.mpr ⟨entry, hentry, List.mem_cons_self⟩)
  rcases program.exists_declaring hblock huse hfound with
    ⟨x, hx, hid⟩ | ⟨site, outer, occurs, houter, x, hx, hid⟩
  · rw [← hid, program.bodyOf?_library hx] at hinner
    cases hinner
  · have hroot := program.root_eq_of_declared routine.occurs occurs hdeclared hx
      (hentryId.trans hid.symm)
    refine ⟨outer.id, houter, ?_⟩
    rw [program.enclosing?_body routine.occurs]
    exact congrArg (fun node : Node => some node.id) hroot

end CheckedProgram

end MiniPascal
