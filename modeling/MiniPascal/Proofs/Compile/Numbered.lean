import MiniPascal.Proofs.Check.Accepts
import MiniPascal.Proofs.Compile.Parsed
import MiniPascal.Proofs.Tree.Walks
import Mathlib.Logic.Relation

/-!
# The blocks and declarations of a parsed program

The tree of a program that parses has each block and each declaration at one place, and
the numbers say where: a block comes before those inside it, a declaration after those
inside it.  So every way through the tree, outwards or inwards, ends and comes to nothing
twice.
-/

namespace MiniPascal

/-- A tree in the order in which it was numbered. -/
structure Tree.Orderly (tree : Tree) : Prop where
  /-- The library's block is empty and in no other. -/
  library : tree.blocks[libraryBlock]? = some (.bare none libraryLine)
  /-- The program's block is in the library's, and the body of no routine. -/
  program : tree.body ≠ libraryBlock ∧ tree.enclosing? tree.body = some libraryBlock ∧
    ∀ routine, tree.bodyOf? routine ≠ some tree.body
  /-- Every other block is in one with a smaller number, and the body of one routine of it. -/
  enclosed : ∀ id < tree.blocks.size, id ≠ libraryBlock → id ≠ tree.body →
    ∃ outer block routine, tree.enclosing? id = some outer ∧ outer < id ∧
      tree.blocks[outer]? = some block ∧ routine ∈ block.routines ∧
      ∀ other, tree.bodyOf? other = some id ↔ other = routine
  /-- Every declaration has exactly one position. -/
  positions : tree.positions.Perm (List.range tree.decls.size)
  /-- What a declaration holds, at any depth, has a smaller number. -/
  above : ∀ outer inner, Relation.TransGen tree.Holds outer inner → inner < outer
  /-- The literals of an enumeration are numbered from zero on. -/
  coded : ∀ id kind, tree.kind? id = some kind → tree.Coded kind.enumerations
  /-- Nothing is annotated. -/
  bare : tree.erased = tree
  /-- The way outwards ends at the library. -/
  outwards : ∀ id < tree.blocks.size,
    (tree.chain id).Pairwise (· > ·) ∧ (tree.chain id).getLast? = some libraryBlock
  /-- The way inwards comes to all blocks but the library's, and to all declarations, in
  their order. -/
  inwards : ∀ depth, tree.blocks.size ≤ depth →
    (tree.walkWithin depth tree.body).filterMap Visit.block? =
        List.range' 1 (tree.blocks.size - 1) ∧
      (tree.walkWithin depth tree.body).filterMap Visit.decl? = List.range tree.decls.size

/-! ### Ways outwards and inwards -/

namespace Tree

variable {tree : Tree}

theorem pairwise_chain (descends : tree.Descends) (id : BlockId) :
    (tree.chain id).Pairwise (· > ·) := by
  induction id using Nat.strongRecOn with
  | _ id ih =>
      rw [chain_eq descends]
      cases houter : tree.enclosing? id with
      | none => exact List.pairwise_singleton _ _
      | some outer =>
          have hlt := descends id outer houter
          refine List.pairwise_cons.mpr ⟨fun other hother => ?_, ih outer hlt⟩
          exact Nat.lt_of_le_of_lt (le_of_mem_chain descends hother) hlt

/-- When only the library's block is in no other, every way outwards ends there. -/
theorem getLast?_chain (descends : tree.Descends)
    (hinside : ∀ id < tree.blocks.size, id ≠ libraryBlock →
      ∃ outer, tree.enclosing? id = some outer)
    (hlibrary : tree.enclosing? libraryBlock = none) {id : BlockId} (hid : id < tree.blocks.size) :
    (tree.chain id).getLast? = some libraryBlock := by
  induction id using Nat.strongRecOn with
  | _ id ih =>
      rw [chain_eq descends]
      by_cases hlast : id = libraryBlock
      · rw [hlast, hlibrary]
        rfl
      · obtain ⟨outer, houter⟩ := hinside id hid hlast
        have hlt := descends id outer houter
        rw [houter, Option.map_some, Option.getD_some, List.getLast?_cons,
          ih outer hlt (Nat.lt_trans hlt hid)]
        rfl

/-- Where all declarations are as numbering leaves them, none holds a later one. -/
theorem lt_of_holds (hfits : ∀ id < tree.decls.size, ∃ decl, tree.Fits id decl)
    {outer inner : DeclId} (h : tree.Holds outer inner) : inner < outer := by
  by_cases hid : outer < tree.decls.size
  · obtain ⟨decl, fits⟩ := hfits outer hid
    exact fits.above inner h
  · have hnone : tree.decls[outer]? = none := Array.getElem?_eq_none (Nat.not_lt.mp hid)
    cases h with
    | inside hmem =>
        rw [insideOf, kind?, hnone] at hmem
        exact absurd hmem List.not_mem_nil
    | body hbody =>
        rw [bodyOf?, hnone] at hbody
        cases hbody

end Tree

/-! ### Blocks and their routines -/

namespace Outline.HasSkeleton

variable {outline : Outline} {skeleton : Skeleton}

theorem enclosing?_eq (h : HasSkeleton outline skeleton) {node : Node}
    (hnode : node ∈ skeleton.nodes) :
    (Tree.ofOutline outline).enclosing? node.id = node.block.enclosing? := by
  rw [Tree.enclosing?, h.block node hnode]
  rfl

/-- A routine's body is the block that names the routine. -/
theorem exists_node_of_bodyOf? (h : HasSkeleton outline skeleton) {routine : DeclId}
    {body : BlockId} (hbody : (Tree.ofOutline outline).bodyOf? routine = some body) :
    ∃ node ∈ skeleton.nodes, node.id = body ∧ node.routine? = some routine := by
  obtain ⟨decl, hdecl, hsome⟩ := Option.bind_eq_some_iff.mp hbody
  obtain ⟨heading, hheading, hbodyId⟩ := Option.bind_eq_some_iff.mp hsome
  obtain ⟨x, hx, rfl⟩ := List.mem_map.mp
    (h.decl_mem routine (Array.getElem?_eq_some_iff.mp hdecl).1)
  rw [h.decl x hx, Option.some.injEq] at hdecl
  subst hdecl
  obtain ⟨around, root, before, inside, after, occurs, -, hid⟩ :=
    CheckedProgram.exists_routine_of_declared h hx (DeclKind.routine?_eq_some_iff.mp hheading)
      hbodyId
  exact ⟨inside.root, root_mem_nodes (.body occurs.occurs), hid, occurs.bodyOf.1⟩

/-- The program's block is the body of no routine. -/
theorem bodyOf?_ne_body (h : HasSkeleton outline skeleton) (routine : DeclId) :
    (Tree.ofOutline outline).bodyOf? routine ≠ some (Tree.ofOutline outline).body := by
  intro hbody
  obtain ⟨node, hnode, hid, hroutine⟩ := h.exists_node_of_bodyOf? hbody
  rw [← h.id_eq] at hid
  obtain rfl := h.node_eq hnode skeleton.root_mem_nodes hid
  exact absurd (h.program.symm.trans hroutine) nofun

/-- Every block but the program's is the body of exactly one routine, which its enclosing
block declares. -/
theorem exists_routine_of_block (h : HasSkeleton outline skeleton) {id : BlockId}
    (hid : id < (Tree.ofOutline outline).blocks.size) (hlibrary : id ≠ libraryBlock)
    (hbody : id ≠ (Tree.ofOutline outline).body) :
    ∃ outer block routine, (Tree.ofOutline outline).enclosing? id = some outer ∧ outer < id ∧
      (Tree.ofOutline outline).blocks[outer]? = some block ∧ routine ∈ block.routines ∧
      ∀ other, (Tree.ofOutline outline).bodyOf? other = some id ↔ other = routine := by
  obtain ⟨node, hnode, rfl⟩ := List.mem_map.mp ((h.block_mem id hid).resolve_left hlibrary)
  obtain ⟨site, found, occurs, rfl⟩ := Skeleton.exists_occurs
    (Library.site (Tree.ofOutline outline).decls.size) skeleton node hnode
  cases occurs with
  | top => exact absurd h.id_eq hbody
  | @body around root before after _ outer =>
      have hroot : root ∈ skeleton.nodes := root_mem_nodes outer
      have hbodies : (before ++ found :: after).Forall₂ (Skeleton.BodyOf root.id root.entries)
          root.block.routines := by
        cases outer.wellFormed h.wellFormed
        assumption
      obtain ⟨routine, hroutine, hnames, henclosing, hlt, entry, hentry, hentryId, result, hkind⟩ :=
        exists_of_forall₂_left hbodies (List.mem_append_right before List.mem_cons_self)
      refine ⟨root.id, root.block, routine, (h.enclosing?_eq hnode).trans henclosing, hlt,
        h.block root hroot, hroutine, ?_⟩
      have hdeclared : entry.declared ∈ skeleton.declared :=
        List.mem_flatMap.mpr ⟨root, hroot, List.mem_append_right _
          (List.mem_flatMap.mpr ⟨entry, hentry, List.mem_cons_self⟩)⟩
      intro other
      constructor
      · intro hother
        obtain ⟨node, hmem, hid, hnamesOther⟩ := h.exists_node_of_bodyOf? hother
        obtain rfl := h.node_eq hmem hnode hid
        exact Option.some.inj (hnamesOther.symm.trans hnames)
      · rintro rfl
        rw [← hentryId, Tree.bodyOf?_eq (h.decl entry.declared hdeclared), hkind]
        rfl

/-- No block is annotated, when the outline binds no names. -/
theorem erased_block_eq (h : HasSkeleton outline skeleton) (hunbound : outline.body.Unbound)
    {id : BlockId} {block : MiniPascal.Block}
    (hblock : (Tree.ofOutline outline).blocks[id]? = some block) : block.erased = block := by
  by_cases hlibrary : id = libraryBlock
  · rw [hlibrary, h.library] at hblock
    obtain rfl := Option.some.inj hblock
    rfl
  · have hstatements := hunbound.bodies _ (statements_mem_bodies hblock hlibrary)
    obtain ⟨node, hnode, rfl⟩ := List.mem_map.mp ((h.block_mem id
      (Array.getElem?_eq_some_iff.mp hblock).1).resolve_left hlibrary)
    obtain rfl := Option.some.inj ((h.block node hnode).symm.trans hblock)
    obtain ⟨_, found, occurs, rfl⟩ := Skeleton.exists_occurs
      (Library.site (Tree.ofOutline outline).decls.size) skeleton node hnode
    have hbare := (occurs.wellFormed h.wellFormed).node.block_bare
    calc
      found.root.block.erased
        = { MiniPascal.Block.bare found.root.block.enclosing? found.root.block.line with
            parts := found.root.block.parts
            statements := found.root.block.statements } := by
          rw [MiniPascal.Block.erased, hstatements]
      _ = found.root.block := hbare.symm

/-- Nothing in the tree of such an outline is annotated. -/
theorem erased_eq_self (h : HasSkeleton outline skeleton) (hunbound : outline.body.Unbound)
    (hfits : ∀ id < (Tree.ofOutline outline).decls.size,
      ∃ decl, (Tree.ofOutline outline).Fits id decl) :
    (Tree.ofOutline outline).erased = Tree.ofOutline outline := by
  have hblocks : (Tree.ofOutline outline).erased.blocks = (Tree.ofOutline outline).blocks := by
    apply Array.ext_getElem?
    intro id
    rw [Tree.getElem?_blocks_erased]
    cases hblock : (Tree.ofOutline outline).blocks[id]? with
    | none => rfl
    | some block => exact congrArg some (h.erased_block_eq hunbound hblock)
  have hdecls : (Tree.ofOutline outline).erased.decls = (Tree.ofOutline outline).decls := by
    apply Array.ext_getElem?
    intro id
    rw [Tree.getElem?_decls_erased]
    by_cases hid : id < (Tree.ofOutline outline).decls.size
    · obtain ⟨decl, fits⟩ := hfits id hid
      rw [fits.decl_eq, Option.map_some, fits.erased_eq]
    · rw [Array.getElem?_eq_none (Nat.not_lt.mp hid)]
      rfl
  calc
    (Tree.ofOutline outline).erased
      = { (Tree.ofOutline outline) with
          checked := false
          blocks := (Tree.ofOutline outline).erased.blocks
          decls := (Tree.ofOutline outline).erased.decls } := rfl
    _ = Tree.ofOutline outline := by rw [hblocks, hdecls]; rfl

end Outline.HasSkeleton

/-! ### Parsed programs -/

/-- An outline that binds no names has an orderly tree. -/
theorem Outline.orderly_ofOutline (outline : Outline) (hunbound : outline.body.Unbound) :
    (Tree.ofOutline outline).Orderly := by
  obtain ⟨skeleton, h⟩ := outline.exists_skeleton
  have hfits : ∀ id < (Tree.ofOutline outline).decls.size,
      ∃ decl, (Tree.ofOutline outline).Fits id decl := fun id hid =>
    (outline.spans_ofOutline hunbound (Nat.le_refl _)).fits id (Nat.zero_le id) hid
  have hprogram : (Tree.ofOutline outline).enclosing? (Tree.ofOutline outline).body =
      some libraryBlock := by
    rw [← h.id_eq, h.enclosing?_eq skeleton.root_mem_nodes, h.root_enclosing]
  constructor
  case library => exact h.library
  case program =>
    refine ⟨?_, hprogram, h.bodyOf?_ne_body⟩
    rw [← h.id_eq]
    exact Nat.ne_of_gt (h.libraryBlock_lt _ skeleton.id_mem_blockIds)
  case enclosed => exact fun id hid hlibrary hbody => h.exists_routine_of_block hid hlibrary hbody
  case positions => exact outline.positions_ofOutline
  case above =>
    intro outer inner hholds
    induction hholds with
    | single hholds => exact Tree.lt_of_holds hfits hholds
    | tail _ hholds ih => exact Nat.lt_trans (Tree.lt_of_holds hfits hholds) ih
  case coded =>
    intro id kind hkind
    obtain ⟨decl, hdecl, rfl⟩ := Option.map_eq_some_iff.mp hkind
    obtain ⟨found, fits⟩ := hfits id (Array.getElem?_eq_some_iff.mp hdecl).1
    obtain rfl := Option.some.inj (fits.decl_eq.symm.trans hdecl)
    exact fits.coded
  case bare => exact h.erased_eq_self hunbound hfits
  case outwards =>
    intro id hid
    refine ⟨Tree.pairwise_chain h.descends id, Tree.getLast?_chain h.descends ?_ ?_ hid⟩
    · intro id hid hlibrary
      by_cases hbody : id = (Tree.ofOutline outline).body
      · exact ⟨libraryBlock, hbody ▸ hprogram⟩
      · obtain ⟨outer, _, _, houter, -⟩ := h.exists_routine_of_block hid hlibrary hbody
        exact ⟨outer, houter⟩
    · rw [Tree.enclosing?, h.library]
      rfl
  case inwards =>
    intro depth hdepth
    have spans := outline.spans_ofOutline hunbound hdepth
    refine ⟨spans.blocks, spans.decls.trans ?_⟩
    rw [List.range_eq_range']
    rfl

/-- **Parsing builds an orderly tree.**  Each block and each declaration of a program that
parses has one place, and none is annotated. -/
theorem orderly_of_parse {tokens : List Located} {context final : Context} {tree : Tree}
    (h : (Compilation.parse tokens).run context = .ok tree final) : tree.Orderly := by
  obtain ⟨outline, hparse, rfl⟩ := Compilation.exists_outline_of_parse h
  exact outline.orderly_ofOutline (Outline.unbound_of_parse hparse)

/-- Routines inside each other, with parameters, and an array over two enumerations. -/
theorem orderly_of_parse_routines :
    ∃ tokens tree final, Compilation.scan "program p; type t = array [(red, green)] of (on, off);
        function f(x: integer): integer;
          procedure g; var y: t; begin f := x end;
        begin g end;
        begin write(f(3)) end." = .ok tokens ∧
      (Compilation.parse tokens).run (.fresh false false) = .ok tree final ∧ tree.Orderly := by
  have hok : Compilation.passes (fun tokens => Compilation.endsWith (fun _ _ => true)
        ((Compilation.parse tokens).run (.fresh false false)))
        (Compilation.scan "program p; type t = array [(red, green)] of (on, off);
        function f(x: integer): integer;
          procedure g; var y: t; begin f := x end;
        begin g end;
        begin write(f(3)) end.") = true := by
    decide +kernel
  obtain ⟨tokens, hscan, htokens⟩ := Compilation.exists_of_passes hok
  obtain ⟨tree, final, hparse, -⟩ := Compilation.exists_of_endsWith htokens
  exact ⟨tokens, tree, final, hscan, hparse, orderly_of_parse hparse⟩

end MiniPascal
