import MiniPascal.Proofs.Frames.Storage
import Mathlib.Algebra.Ring.Int.Defs

/-!
# Frames are exactly large enough

In a checked tree the words of every frame lie at consecutive offsets, each used
once, all parameters lie in order above the return address, and none of them meets
the header of the frame, the saved frame pointer, the return address, or what is
below the frame.
-/

namespace MiniPascal

/-- A word at the offset stays clear of what else a frame holds: the display words
of its levels, its result, the saved frame pointer and the return address.  Nor is
it below a frame with this many bytes of words. -/
structure Frame.Clear (frameLevel : Nat) (frameBytes offset : Int) : Prop where
  display : ∀ level : Nat, 1 ≤ level → level ≤ frameLevel →
    Frame.Apart offset (Frame.displayOffset level)
  result : Frame.Apart offset Frame.resultOffset
  framePointer : Frame.Apart offset 0
  returnAddress : Frame.Apart offset Frame.wordSize
  inside : -(Frame.size frameBytes) ≤ offset

namespace Tree

/-- The bytes of a block's own words. -/
def localBytes (tree : Tree) (id : BlockId) : Int :=
  (tree.blocks[id]?.map Block.localBytes).getD 0

/-- The declaration is a parameter of the routine whose body is the block, with
so many parameters before it. -/
def IsParam (tree : Tree) (body : BlockId) (index : Nat) (param : DeclId) : Prop :=
  ∃ (routine : DeclId) (decl : Decl) (heading : Routine),
    tree.decls[routine]? = some decl ∧ decl.kind = .routine heading ∧
    heading.body = some body ∧ heading.params[index]? = some param

/-- The frame of a block is laid out exactly. -/
structure FrameExact (tree : Tree) (owner : BlockId) (frame : Block) : Prop where
  owner_eq : frame.frameOwner? = some owner
  frameLevel_pos : 1 ≤ frame.frameLevel
  frameLevel_le : frame.frameLevel ≤ 7
  words : ((tree.frameWords owner).map tree.layout?).Perm
    (Frame.wordsBelow frame.frameLevel (-36) (tree.frameWords owner).length)
  words_nodup : ((tree.frameWords owner).map tree.layout?).Nodup
  frameBytes_eq : frame.frameBytes = 4 * ((tree.frameWords owner).length : Int)
  frameBytes_eq_sum : frame.frameBytes = ((tree.frameBlocks owner).map tree.localBytes).sum
  localBytes_eq : ∀ id ∈ tree.frameBlocks owner,
    tree.localBytes id = 4 * ((tree.ownWords id).length : Int)
  params : ∀ index param, tree.IsParam owner index param →
    tree.layout? param = some { frameLevel := frame.frameLevel, offset := 8 + 4 * (index : Int) }
  clear : ∀ id layout, id ∈ tree.frameWords owner ∨ (∃ index, tree.IsParam owner index id) →
    tree.layout? id = some layout →
    Frame.Clear frame.frameLevel frame.frameBytes layout.offset

end Tree

/-! ### Offsets -/

namespace Frame

theorem clear_of_word {frameLevel count index : Nat} (hlevel : frameLevel ≤ 7)
    (hindex : index < count) :
    Clear frameLevel (4 * (count : Int)) (-36 - wordSize * (index : Int)) where
  display level hlow hhigh := by
    left
    simp only [wordSize, displayOffset]
    omega
  result := by
    left
    simp only [wordSize, resultOffset]
    omega
  framePointer := by
    left
    simp only [wordSize]
    omega
  returnAddress := by
    left
    simp only [wordSize]
    omega
  inside := by
    simp only [wordSize, size, headerBytes]
    omega

theorem clear_of_param {frameLevel count : Nat} (index : Nat) :
    Clear frameLevel (4 * (count : Int)) (8 + 4 * (index : Int)) where
  display level hlow _ := by
    right
    simp only [wordSize, displayOffset]
    omega
  result := by
    right
    simp only [wordSize, resultOffset]
    omega
  framePointer := by
    right
    simp only [wordSize]
    omega
  returnAddress := by
    right
    simp only [wordSize]
    omega
  inside := by
    simp only [size, headerBytes]
    omega

end Frame

namespace CheckedProgram

variable {outline : Outline} {skeleton body : Skeleton} {tree : Tree} {site : Site}

theorem nodup_blockIds (program : CheckedProgram outline skeleton tree) :
    skeleton.blockIds.Nodup :=
  program.hasSkeleton.blockIds_nodup

theorem libraryBlock_notMem (program : CheckedProgram outline skeleton tree) :
    libraryBlock ∉ skeleton.blockIds := fun hmem =>
  Nat.lt_irrefl _ (program.hasSkeleton.libraryBlock_lt _ hmem)

/-- All blocks of a tree are the library's and those of the skeleton. -/
theorem range_perm (program : CheckedProgram outline skeleton tree) :
    (List.range tree.blocks.size).Perm (libraryBlock :: skeleton.blockIds) := by
  have hnodup : (libraryBlock :: skeleton.blockIds).Nodup :=
    List.nodup_cons.mpr ⟨program.libraryBlock_notMem, program.nodup_blockIds⟩
  refine (List.perm_ext_iff_of_nodup List.nodup_range hnodup).mpr fun id => ?_
  rw [List.mem_range, List.mem_cons]
  constructor
  · intro hid
    by_cases hlibrary : id = libraryBlock
    · exact .inl hlibrary
    · exact .inr (program.mem_blockIds hlibrary hid)
  · rintro (rfl | hid)
    · exact (Array.getElem?_eq_some_iff.mp program.library_eq).1
    · obtain ⟨site, body, occurs, rfl, hchecked⟩ := program.exists_occurs hid
      obtain ⟨statements, hblock, -⟩ := hchecked.node.block
      exact (Array.getElem?_eq_some_iff.mp hblock).1

theorem frameOwner?_library (program : CheckedProgram outline skeleton tree) :
    tree.frameOwner? libraryBlock = none := by
  rw [Tree.frameOwner?, program.library_eq]
  rfl

/-- The words of a frame, in some order, are those in the blocks of the skeleton. -/
theorem frameWords_perm_ownedIn (program : CheckedProgram outline skeleton tree)
    (owner : BlockId) :
    (tree.frameWords owner).Perm (Skeleton.ownedIn tree owner skeleton.nodes) := by
  have hperm := program.range_perm.filter fun id => tree.frameOwner? id == some owner
  have hlibrary : (tree.frameOwner? libraryBlock == some owner) = false := by
    rw [program.frameOwner?_library]
    rfl
  rw [List.filter_cons_of_neg (by rw [hlibrary]; exact Bool.false_ne_true)] at hperm
  refine (hperm.flatMap_right tree.ownWords).trans (.of_eq ?_)
  rw [Skeleton.blockIds, List.filter_map, List.flatMap_map]
  rfl

/-- The bytes of a block are those of its variables and functions without parameters. -/
theorem localBytes_eq (program : CheckedProgram outline skeleton tree) {id : BlockId}
    (hid : id ∈ skeleton.blockIds) :
    tree.localBytes id = 4 * ((tree.ownWords id).length : Int) := by
  obtain ⟨site, body, occurs, rfl, hchecked⟩ := program.exists_occurs hid
  have hnode := hchecked.node
  have hwellFormed := occurs.wellFormed program.hasSkeleton.wellFormed
  have hroot : body.root.WellFormed := by
    cases hwellFormed
    assumption
  have herased : ∀ x ∈ body.root.declared,
      tree.decls[x.id]?.map Decl.erased = some x.decl.erased := by
    intro x hx
    refine program.erased_eq x (occurs.declared_sublist.subset ?_)
    rw [Skeleton.declared_eq]
    exact List.mem_append_left _ hx
  rw [Skeleton.NodeChecked.ownWords_eq hnode hroot herased, List.length_map]
  obtain ⟨statements, hblock, -⟩ := hnode.block
  rw [Tree.localBytes, hblock]
  rfl

private theorem sum_localBytes {ids : List BlockId}
    (h : ∀ id ∈ ids, tree.localBytes id = 4 * ((tree.ownWords id).length : Int)) :
    (ids.map tree.localBytes).sum = 4 * ((ids.flatMap tree.ownWords).length : Int) := by
  induction ids with
  | nil => rfl
  | cons id ids ih =>
      obtain ⟨hid, hids⟩ := List.forall_mem_cons.mp h
      rw [List.map_cons, List.sum_cons, List.flatMap_cons, List.length_append, hid, ih hids]
      omega

/-- A block that owns a frame occurs in the skeleton and owns one there. -/
theorem exists_frame (program : CheckedProgram outline skeleton tree) {owner : BlockId}
    (howns : tree.OwnsFrame owner) :
    ∃ site body, Occurs outline skeleton site body ∧ body.id = owner ∧
      body.root.ownsFrame = true := by
  rcases howns with rfl | ⟨routine, decl, heading, hdecl, hkind, hbody, hparams⟩
  · refine ⟨_, skeleton, .top, program.body_eq.symm, ?_⟩
    rw [Node.ownsFrame, program.hasSkeleton.program]
    rfl
  · obtain ⟨around, root, before, body, after, found, hheading, hid⟩ :=
      program.exists_routine hdecl hkind hbody
    refine ⟨_, body, .body found.occurs, hid, ?_⟩
    rw [hheading] at hparams
    have hnotEmpty : body.root.params.isEmpty = false := by
      cases hlist : body.root.params with
      | nil => exact absurd (by rw [hlist]; rfl) hparams
      | cons => rfl
    rw [Node.ownsFrame, hnotEmpty, Bool.not_false, Bool.or_true]

/-- A checked block owns its frame if it is the program's or has parameters. -/
theorem ownsFrame_eq (program : CheckedProgram outline skeleton tree)
    (occurs : Occurs outline skeleton site body) {block : Block}
    (hblock : tree.blocks[body.id]? = some block) :
    block.ownsFrame body.id = body.root.ownsFrame := by
  obtain ⟨statements, hfound, -⟩ := (occurs.checked program.checked).node.block
  have howner : block.frameOwner? = some (site.entered body.root).frameOwner := by
    rw [Option.some.inj (hblock.symm.trans hfound)]
    rfl
  have houter := occurs.frameOwner_notMem program.nodup_blockIds program.libraryBlock_notMem
  rw [Block.ownsFrame, howner, Site.frameOwner_entered]
  cases body.root.ownsFrame with
  | true => exact beq_self_eq_true _
  | false =>
      apply beq_false_of_ne
      intro heq
      have hmem : site.level.frameOwner = body.id := Option.some.inj heq
      rw [hmem] at houter
      exact houter body.id_mem_blockIds

/-- The body of a routine without parameters shares the frame around it. -/
theorem ownsFrame_body (program : CheckedProgram outline skeleton tree) {id : DeclId}
    {decl : Decl} {heading : Routine} {bodyId : BlockId} {block : Block}
    (hdecl : tree.decls[id]? = some decl) (hkind : decl.kind = .routine heading)
    (hbody : heading.body = some bodyId) (hblock : tree.blocks[bodyId]? = some block) :
    block.ownsFrame bodyId = !heading.params.isEmpty := by
  obtain ⟨around, root, before, body, after, found, hheading, rfl⟩ :=
    program.exists_routine hdecl hkind hbody
  rw [program.ownsFrame_eq (.body found.occurs) hblock, Node.ownsFrame, found.bodyOf.1, hheading,
    List.isEmpty_map]
  rfl

/-- Parameters of the routine of a body have words above its frame pointer. -/
theorem layout?_param (program : CheckedProgram outline skeleton tree) {owner : BlockId}
    {frame : Block} (hframe : tree.blocks[owner]? = some frame) {index : Nat} {param : DeclId}
    (hparam : tree.IsParam owner index param) :
    tree.layout? param =
      some { frameLevel := frame.frameLevel, offset := 8 + 4 * (index : Int) } := by
  obtain ⟨routine, decl, heading, hdecl, hkind, hbody, hindex⟩ := hparam
  obtain ⟨around, root, before, body, after, found, hheading, rfl⟩ :=
    program.exists_routine hdecl hkind hbody
  have hnode := ((Skeleton.Occurs.body found.occurs).checked program.checked).node
  obtain ⟨statements, hblock, -⟩ := hnode.block
  rw [hframe] at hblock
  rw [hheading, List.getElem?_map, Option.map_eq_some_iff] at hindex
  obtain ⟨x, hx, rfl⟩ := hindex
  rw [(hnode.params index x hx).layout?_eq, Option.some.inj hblock]
  rfl

/-- The words of a frame are declared inside the block that owns it. -/
theorem frameWords_perm (program : CheckedProgram outline skeleton tree)
    (occurs : Occurs outline skeleton site body) (howns : body.root.ownsFrame = true) :
    (tree.frameWords body.id).Perm (body.frameWords.map Numbered.id) := by
  have hentered : (site.entered body.root).frameOwner = body.id := by
    rw [Site.frameOwner_entered, howns]
    rfl
  have hsite : (Library.site (Tree.ofOutline outline).decls.size).level.frameOwner ∉
      skeleton.blockIds := program.libraryBlock_notMem
  have hinside := occurs.ownedIn_eq program.checked program.nodup_blockIds hsite
    body.id_mem_blockIds
  have howned := Skeleton.ownedIn_frameOwner site body (occurs.checked program.checked)
    (occurs.wellFormed program.hasSkeleton.wellFormed)
    (occurs.blockIds_sublist.nodup program.nodup_blockIds)
    (occurs.frameOwner_notMem program.nodup_blockIds hsite)
    fun x hx => program.erased_eq x (occurs.declared_sublist.subset hx)
  rw [hentered] at howned
  rw [← howned, ← hinside]
  exact program.frameWords_perm_ownedIn body.id

/-- They lie below one another, from the first one below the header of the frame. -/
theorem layouts_perm (program : CheckedProgram outline skeleton tree)
    (occurs : Occurs outline skeleton site body) (howns : body.root.ownsFrame = true) :
    ((tree.frameWords body.id).map tree.layout?).Perm
      (Frame.wordsBelow (site.entered body.root).frameLevel (-36)
        (tree.frameWords body.id).length) := by
  have hwords := program.frameWords_perm occurs howns
  have hoffset : (site.entered body.root).nextOffset = -36 := if_pos howns
  have hordered := Skeleton.map_layout?_frameWords site body (occurs.checked program.checked)
  rw [hoffset, ← List.length_map Numbered.id, ← hwords.length_eq] at hordered
  rw [← hordered]
  refine (hwords.map tree.layout?).trans (.of_eq ?_)
  rw [List.map_map]
  rfl

theorem localBytes_frameBlocks (program : CheckedProgram outline skeleton tree)
    (owner : BlockId) : ∀ id ∈ tree.frameBlocks owner,
      tree.localBytes id = 4 * ((tree.ownWords id).length : Int) := by
  intro id hid
  obtain ⟨hrange, howner⟩ := List.mem_filter.mp hid
  refine program.localBytes_eq (program.mem_blockIds ?_ (List.mem_range.mp hrange))
  rintro rfl
  rw [program.frameOwner?_library] at howner
  cases howner

theorem frameExact (program : CheckedProgram outline skeleton tree)
    (occurs : Occurs outline skeleton site body) (howns : body.root.ownsFrame = true) :
    ∃ frame, tree.blocks[body.id]? = some frame ∧ tree.FrameExact body.id frame := by
  have hnode := (occurs.checked program.checked).node
  obtain ⟨statements, hblock, -⟩ := hnode.block
  have hlayouts := program.layouts_perm occurs howns
  have hblocks := program.localBytes_frameBlocks body.id
  have hbytes : (if body.root.ownsFrame then Frame.wordSize * (body.frameWords.length : Int)
      else 0) = 4 * ((tree.frameWords body.id).length : Int) := by
    rw [howns, if_pos rfl, (program.frameWords_perm occurs howns).length_eq, List.length_map]
    rfl
  refine ⟨_, hblock, ?_⟩
  constructor
  case owner_eq =>
    change some (site.entered body.root).frameOwner = some body.id
    rw [Site.frameOwner_entered, howns]
    rfl
  case frameLevel_pos =>
    have hlevel : (site.entered body.root).frameLevel = site.level.frameLevel + 1 := if_pos howns
    change 1 ≤ (site.entered body.root).frameLevel
    rw [hlevel]
    exact Nat.succ_le_succ (Nat.zero_le _)
  case frameLevel_le => exact hnode.frameLevel_le
  case words => exact hlayouts
  case words_nodup => exact hlayouts.nodup_iff.mpr (Frame.wordsBelow_nodup _ _ _)
  case frameBytes_eq => exact hbytes
  case frameBytes_eq_sum => exact hbytes.trans (sum_localBytes hblocks).symm
  case localBytes_eq => exact hblocks
  case params => exact fun index param hparam => program.layout?_param hblock hparam
  case clear =>
    intro id layout hid hlayout
    change Frame.Clear (site.entered body.root).frameLevel (if body.root.ownsFrame then _ else _) _
    rw [hbytes]
    rcases hid with hword | ⟨index, hparam⟩
    · have hmem := hlayouts.mem_iff.mp (List.mem_map.mpr ⟨id, hword, hlayout⟩)
      obtain ⟨index, hindex, heq⟩ := List.mem_map.mp hmem
      obtain rfl := Option.some.inj heq
      exact Frame.clear_of_word hnode.frameLevel_le (List.mem_range.mp hindex)
    · have hoffset := program.layout?_param hblock hparam
      rw [hlayout] at hoffset
      obtain rfl := Option.some.inj hoffset
      exact Frame.clear_of_param index

end CheckedProgram

/-- **Frames are laid out exactly.**  In every tree that tokens parse and check to,
the words of each frame lie without gap or overlap under its header, its bytes are
those of the blocks that share it, and its parameters lie above the return address. -/
theorem frame_exact {tokens : List Located} {context final : Context} {tree : Tree}
    (h : (Compilation.checkTokens tokens).run context = .ok tree final) {owner : BlockId}
    (howns : tree.OwnsFrame owner) :
    ∃ frame, tree.blocks[owner]? = some frame ∧ tree.FrameExact owner frame := by
  obtain ⟨outline, skeleton, -, -, program⟩ := Compilation.exists_checkedProgram h
  obtain ⟨site, body, occurs, rfl, hbody⟩ := program.exists_frame howns
  exact program.frameExact occurs hbody

/-- A body without parameters inside one with a parameter: the outer body's frame
holds the words of both. -/
theorem frame_exact_nested :
    ∃ tokens tree final frame,
      Compilation.scan "program p; procedure q(x: integer); var b: integer;
        procedure r; var c: integer; begin c := x end; begin r; b := x end;
        begin q(1) end." = .ok tokens ∧
      (Compilation.checkTokens tokens).run (.fresh false false) = .ok tree final ∧
      tree.blocks[2]? = some frame ∧ tree.FrameExact 2 frame := by
  have hok : Compilation.checksWith (fun tree => (tree.decls[4]?.bind (·.kind.routine?)).any
        fun heading => heading.body == some 2 && !heading.params.isEmpty)
        "program p; procedure q(x: integer); var b: integer;
        procedure r; var c: integer; begin c := x end; begin r; b := x end;
        begin q(1) end." = true := by
    decide +kernel
  obtain ⟨tokens, tree, final, hscan, hcheck, hrouting⟩ := Compilation.exists_of_checksWith hok
  obtain ⟨heading, hheading, hbody⟩ := (Option.any_eq_true _ _).mp hrouting
  obtain ⟨decl, hdecl, hkind⟩ := Option.bind_eq_some_iff.mp hheading
  rw [Bool.and_eq_true, beq_iff_eq, Bool.not_eq_true', List.isEmpty_eq_false_iff] at hbody
  have hroutine : decl.kind = .routine heading := by
    generalize decl.kind = kind at hkind
    cases kind <;> cases hkind
    rfl
  obtain ⟨frame, hframe, hexact⟩ := frame_exact hcheck
    (.inr ⟨4, decl, heading, hdecl, hroutine, hbody.1, hbody.2⟩)
  exact ⟨tokens, tree, final, frame, hscan, hcheck, hframe, hexact⟩

end MiniPascal
