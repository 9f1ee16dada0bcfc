import MiniPascal.Proofs.Frames.Slots

/-!
# Declarations and the tables that hold them

The tables of a checked tree together hold every declaration once, each under its own name
and at the level of its block.  The table of a block holds what the program declares there:
the parameters of its routine, the declarations of its parts, and the enumeration literals
in their types.  Levels and frames of blocks follow from the blocks around them.
-/

namespace MiniPascal

/-- The literal is one of an enumeration that stands somewhere in the type. -/
inductive TypeExpr.Contains {Lit : Type} (literal : Lit) : TypeExpr Lit → Prop
  | enumeration {literals : List Lit} {line : Nat} (h : literal ∈ literals) :
      Contains literal (.enumeration literals line)
  | index {index element : TypeExpr Lit} {line : Nat} (h : Contains literal index) :
      Contains literal (.array index element line)
  | element {index element : TypeExpr Lit} {line : Nat} (h : Contains literal element) :
      Contains literal (.array index element line)

theorem TypeExpr.mem_literals_of_contains {Lit : Type} {literal : Lit} {type : TypeExpr Lit}
    (h : type.Contains literal) : literal ∈ type.literals := by
  induction h with
  | enumeration h => exact h
  | index _ ih => exact List.mem_append_left _ ih
  | element _ ih => exact List.mem_append_right _ ih

/-- Variables, parameters and the program's functions have storage. -/
def DeclKind.isStored : DeclKind → Bool
  | .variableOf _ | .parameter _ => true
  | .routine heading => heading.isFunction && !heading.isBuiltin
  | _ => false

theorem DeclKind.isStored_erased (kind : DeclKind) : kind.erased.isStored = kind.isStored := by
  cases kind with
  | routine heading =>
      change ((heading.result.map NameRef.erased).isSome && !heading.isBuiltin) = _
      rw [Option.isSome_map]
      rfl
  | constant | type | variableOf | parameter | enumLiteral => rfl

namespace Tree

/-- The declarations entered in the table of a block. -/
def entriesOf (tree : Tree) (id : BlockId) : List DeclId :=
  (tree.tableAt id).map Prod.snd

/-- What the program declares in a block is in its table, and its level and frame are
those that the blocks around it make. -/
structure BlockAccounted (tree : Tree) (id : BlockId) (block : Block) : Prop where
  /-- Parameters, declarations of the parts and their literals, each once. -/
  entries : (tree.entriesOf id).Perm (tree.declaredIn id)
  params : ∀ (routine : DeclId) (decl : Decl) (heading : Routine),
    tree.decls[routine]? = some decl → decl.kind = .routine heading → heading.body = some id →
    tree.paramsOf id = heading.params
  literals : ∀ declared ∈ block.declarations, ∀ (decl : Decl) (type : TypeExpr DeclId),
    tree.decls[declared]? = some decl → decl.kind = .type type ∨ decl.kind = .variableOf type →
    ∀ literal, type.Contains literal → literal ∈ tree.entriesOf id
  level : ∃ outer around, block.enclosing? = some outer ∧ tree.blocks[outer]? = some around ∧
    block.level = around.level + 1
  frameLevel : block.frameLevel = ((tree.chain id).filter tree.hasFrame).length
  frameOwner : block.frameOwner? = (tree.chain id).find? tree.hasFrame

/-- Every declaration is accounted for. -/
structure Accounted (tree : Tree) : Prop where
  /-- The entries of all tables are all declarations, each once. -/
  entries : ((List.range tree.blocks.size).flatMap tree.entriesOf).Perm
    (List.range tree.decls.size)
  entry : ∀ (id : BlockId) (block : Block), tree.blocks[id]? = some block →
    ∀ name declared, (name, declared) ∈ block.table →
      ∃ decl, tree.decls[declared]? = some decl ∧ decl.name = name ∧
        decl.level? = some block.level
  storage : ∀ (id : DeclId) (decl : Decl), tree.decls[id]? = some decl →
    decl.layout?.isSome = decl.kind.isStored
  blocks : ∀ (id : BlockId) (block : Block), tree.blocks[id]? = some block → id ≠ libraryBlock →
    tree.BlockAccounted id block

end Tree

/-! ### Tables -/

theorem map_snd_tableOf_perm (declared : List Numbered) :
    ((tableOf declared).map Prod.snd).Perm (declared.map Numbered.id) := by
  rw [tableOf, List.map_reverse, List.map_map]
  exact List.reverse_perm _

theorem exists_of_mem_tableOf {declared : List Numbered} {name : String} {id : DeclId}
    (h : (name, id) ∈ tableOf declared) : ∃ x ∈ declared, x.decl.name = name ∧ x.id = id := by
  rw [tableOf, List.mem_reverse] at h
  obtain ⟨x, hx, heq⟩ := List.mem_map.mp h
  obtain ⟨hname, hid⟩ := Prod.mk.inj heq
  exact ⟨x, hx, hname, hid⟩

namespace Library

/-- Nothing in the library has storage. -/
theorem isStored_eq_false : ∀ decl ∈ decls, decl.kind.isStored = false ∧ decl.layout? = none := by
  decide

theorem nodup_ids (first : DeclId) (decls : List Decl) :
    ((numberFrom first decls).map Numbered.id).Nodup := by
  induction decls generalizing first with
  | nil => exact List.nodup_nil
  | cons decl others ih =>
      rw [numberFrom, List.map_cons, List.nodup_cons]
      refine ⟨fun hmem => ?_, ih (first + 1)⟩
      obtain ⟨x, hx, hid⟩ := List.mem_map.mp hmem
      have hlow := (id_lt_of_mem_numberFrom hx).1
      rw [hid] at hlow
      exact Nat.not_succ_le_self first hlow

end Library

/-! ### What is declared in a block -/

section Node

variable {tree : Tree} {level : ScopeLevel Int}

/-- A declaration whose routines have bodies gets storage if it is of a kind that has some. -/
theorem ScopeLevel.isSome_layoutFor (level : ScopeLevel Int) {kind : DeclKind}
    (hparameter : ∀ ref, kind ≠ .parameter ref)
    (hbody : ∀ heading, kind = .routine heading → heading.isBuiltin = false) :
    (level.layoutFor kind).isSome = kind.isStored := by
  cases kind with
  | parameter ref => exact absurd rfl (hparameter ref)
  | routine heading =>
      rw [DeclKind.isStored, hbody heading rfl, Bool.not_false, Bool.and_true]
      unfold layoutFor
      split
      · next htaken => exact (Bool.and_eq_true_iff.mp htaken).1.symm
      · cases hfunction : heading.isFunction <;> simp [hfunction]
  | constant | type | variableOf | enumLiteral => rfl

end Node

namespace CheckedProgram

variable {outline : Outline} {skeleton body : Skeleton} {tree : Tree} {site : Site}

theorem tableAt_eq (program : CheckedProgram outline skeleton tree)
    (occurs : Occurs outline skeleton site body) :
    tree.tableAt body.id = tableOf body.root.declared := by
  obtain ⟨statements, hblock, -⟩ := (occurs.checked program.checked).node.block
  rw [Tree.tableAt, hblock]
  rfl

theorem tableAt_library (program : CheckedProgram outline skeleton tree) :
    tree.tableAt libraryBlock = tableOf (Library.numbered (Tree.ofOutline outline).decls.size) := by
  rw [Tree.tableAt, program.library_eq]
  rfl

/-- But for annotations a declaration is what it was when it was numbered. -/
theorem exists_decl (program : CheckedProgram outline skeleton tree) {x : Numbered}
    (hx : x ∈ skeleton.declared) :
    ∃ decl, tree.decls[x.id]? = some decl ∧ decl.erased = x.decl.erased :=
  Option.map_eq_some_iff.mp (program.erased_eq x hx)

/-- What is declared in a block has its level, and storage if its kind has some. -/
theorem exists_laidOut (program : CheckedProgram outline skeleton tree)
    (occurs : Occurs outline skeleton site body) {x : Numbered} (hx : x ∈ body.root.declared) :
    ∃ layout?, tree.LaidOut x.id (site.entered body.root).level layout? ∧
      layout?.isSome = x.decl.kind.isStored := by
  have hnode := (occurs.checked program.checked).node
  have hwellFormed := occurs.wellFormed program.hasSkeleton.wellFormed
  have hnodup : (body.root.declared.map Numbered.id).Nodup := by
    have := occurs.declIds_sublist.nodup program.hasSkeleton.declIds_nodup
    rw [Skeleton.declIds_eq] at this
    exact (List.nodup_append'.mp this).1
  rcases List.mem_append.mp hx with hparam | hentries
  · obtain ⟨index, hindex⟩ := List.mem_iff_getElem?.mp hparam
    obtain ⟨ref, hkind⟩ := hwellFormed.node.params_kind x hparam
    exact ⟨_, hnode.params index x hindex, by rw [hkind]; rfl⟩
  · obtain ⟨entry, hentry, hall⟩ := List.mem_flatMap.mp hentries
    obtain ⟨before, after, heq⟩ := List.append_of_mem hentry
    have hchecked := hnode.entries before entry after heq
    rcases List.mem_cons.mp hall with rfl | hliteral
    · refine ⟨_, hchecked.laidOut, ScopeLevel.isSome_layoutFor _
        (hwellFormed.node.entry_kind' entry hentry) fun heading hkind => ?_⟩
      obtain ⟨root, inner⟩ := body
      obtain ⟨inside, -, -, -, hbody⟩ := hwellFormed.exists_body hnodup hentry hkind
      rw [Routine.isBuiltin, hbody, Option.isNone_some]
    · obtain ⟨code, hkind⟩ := hwellFormed.node.literals_kind entry hentry x hliteral
      exact ⟨none, hchecked.literals x hliteral, by rw [hkind]; rfl⟩

/-! ### Declarations of a block -/

/-- What a declaration brings with it is the same in the checked tree. -/
theorem declares_eq (program : CheckedProgram outline skeleton tree) {node : Node}
    (hnode : node ∈ skeleton.nodes) (wellFormed : node.WellFormed) {entry : DeclEntry}
    (hentry : entry ∈ node.entries) :
    tree.declares entry.declared.id = entry.all.map Numbered.id := by
  obtain ⟨decl, hdecl, herased⟩ :=
    program.exists_decl (Outline.HasSkeleton.entry_mem hnode hentry)
  have hkind : decl.kind.erased = entry.declared.decl.kind.erased := congrArg Decl.kind herased
  rw [Tree.declares, hdecl, Option.map_some, Option.getD_some, ← DeclKind.literalsOf_erased,
    hkind, DeclKind.literalsOf_erased, wellFormed.literals_eq entry hentry]
  rfl

theorem declarations_eq (program : CheckedProgram outline skeleton tree)
    (occurs : Occurs outline skeleton site body) {block : Block}
    (hblock : tree.blocks[body.id]? = some block) :
    block.declarations = body.root.entries.map (·.declared.id) := by
  obtain ⟨statements, hfound, -⟩ := (occurs.checked program.checked).node.block
  rw [Option.some.inj (hblock.symm.trans hfound),
    ← (occurs.wellFormed program.hasSkeleton.wellFormed).node.declarations_eq]
  rfl

/-- Everything declared in a block, in the order in which it becomes visible. -/
theorem declaredIn_eq (program : CheckedProgram outline skeleton tree)
    (occurs : Occurs outline skeleton site body) :
    tree.declaredIn body.id = body.root.declared.map Numbered.id := by
  have hnode := Outline.HasSkeleton.root_mem_nodes occurs
  have wellFormed := (occurs.wellFormed program.hasSkeleton.wellFormed).node
  obtain ⟨statements, hblock, -⟩ := (occurs.checked program.checked).node.block
  have hentries : (body.root.entries.map (·.declared.id)).flatMap tree.declares =
      (body.root.entries.flatMap DeclEntry.all).map Numbered.id := by
    rw [List.flatMap_map, List.map_flatMap]
    exact List.flatMap_congr fun entry hentry => program.declares_eq hnode wellFormed hentry
  rw [Tree.declaredIn, program.paramsOf_eq occurs, Tree.declarationsOf, hblock, Option.map_some,
    Option.getD_some, program.declarations_eq occurs hblock, hentries, Node.declared,
    List.map_append]

/-! ### Frames and levels along the chain -/

/-- The body of the program is that of no routine, and every other block is one's. -/
theorem hasFrame_eq (program : CheckedProgram outline skeleton tree)
    (occurs : Occurs outline skeleton site body) :
    tree.hasFrame body.id = body.root.ownsFrame := by
  have hbody : (body.id == tree.body) = body.root.routine?.isNone := by
    rw [program.hasSkeleton.routine?_isNone occurs, program.body_eq, program.hasSkeleton.id_eq]
  rw [Tree.hasFrame, program.paramsOf_eq occurs, hbody, List.isEmpty_map, Node.ownsFrame]

theorem hasFrame_library (program : CheckedProgram outline skeleton tree) :
    tree.hasFrame libraryBlock = false := by
  have hbody : libraryBlock ≠ tree.body := by
    rw [program.body_eq]
    exact Nat.ne_of_lt (program.hasSkeleton.libraryBlock_lt _ skeleton.id_mem_blockIds)
  have hparams : tree.paramsOf libraryBlock = [] := by
    unfold Tree.paramsOf
    cases hfind : tree.decls.toList.findSome? fun decl =>
        decl.kind.routine?.bind fun routine =>
          if routine.body = some libraryBlock then some routine.params else none with
    | none => rfl
    | some params =>
        obtain ⟨decl, hdecl, hsome⟩ := List.exists_of_findSome?_eq_some hfind
        obtain ⟨id, hid, rfl⟩ := Array.mem_iff_getElem.mp (Array.mem_toList_iff.mp hdecl)
        obtain ⟨heading, hheading, hparams⟩ := Option.bind_eq_some_iff.mp hsome
        split at hparams
        · next hbody =>
            obtain ⟨around, root, before, found, after, routine, -, hid⟩ :=
              program.exists_routine (Array.getElem?_eq_getElem hid)
                (DeclKind.routine?_eq_some_iff.mp hheading) hbody
            have hmem := (Skeleton.Occurs.body routine.occurs).blockIds_sublist.subset
              found.id_mem_blockIds
            exact absurd (hid ▸ hmem) program.libraryBlock_notMem
        · cases hparams
  rw [Tree.hasFrame, beq_false_of_ne hbody, hparams]
  rfl

/-- A block is entered at the level that the frames around it make, and the nearest of them
is its own. -/
theorem frames_eq (program : CheckedProgram outline skeleton tree)
    (occurs : Occurs outline skeleton site body) :
    (site.entered body.root).frameLevel = ((tree.chain body.id).filter tree.hasFrame).length ∧
      some (site.entered body.root).frameOwner = (tree.chain body.id).find? tree.hasFrame := by
  induction occurs with
  | top =>
      have hframe : tree.hasFrame skeleton.id = true := by
        rw [program.hasFrame_eq .top, Node.ownsFrame, program.hasSkeleton.program]
        rfl
      have howns := program.hasFrame_eq .top
      rw [hframe] at howns
      rw [Tree.chain_eq program.descends, program.enclosing?_top, Option.map_some,
        Option.getD_some, program.chain_library, List.filter_cons_of_pos hframe,
        List.find?_cons_of_pos hframe, Site.frameOwner_entered, ← howns]
      refine ⟨?_, rfl⟩
      rw [List.filter_cons_of_neg (by rw [program.hasFrame_library]; exact Bool.false_ne_true)]
      exact if_pos howns.symm
  | @body around root before after body outer ih =>
      obtain ⟨hlevel, howner⟩ := ih
      have hframe := program.hasFrame_eq (.body outer)
      have hentered : ((around.inside root).resumedAll before).level.frameLevel =
          (around.entered root).frameLevel := by
        rw [Site.level_resumedAll]
        rfl
      rw [Tree.chain_eq program.descends, program.enclosing?_body outer, Option.map_some,
        Option.getD_some, Site.frameOwner_entered, Site.frameOwner_resumedAll]
      change (if body.root.ownsFrame then _ + 1 else _) = _ ∧ _
      rw [hentered]
      cases howns : body.root.ownsFrame with
      | true =>
          rw [howns] at hframe
          rw [List.filter_cons_of_pos hframe, List.find?_cons_of_pos hframe, List.length_cons]
          exact ⟨congrArg (· + 1) hlevel, rfl⟩
      | false =>
          rw [howns] at hframe
          have hnot : ¬tree.hasFrame body.id = true := Bool.eq_false_iff.mp hframe
          rw [List.filter_cons_of_neg hnot, List.find?_cons_of_neg hnot]
          exact ⟨hlevel, howner⟩

/-- The level of a block counts the blocks around it. -/
theorem exists_level (program : CheckedProgram outline skeleton tree)
    (occurs : Occurs outline skeleton site body) :
    ∃ outer around, tree.enclosing? body.id = some outer ∧ tree.blocks[outer]? = some around ∧
      (site.entered body.root).level = around.level + 1 := by
  cases occurs with
  | top => exact ⟨libraryBlock, _, program.enclosing?_top, program.library_eq, rfl⟩
  | @body around root before after body outer =>
      obtain ⟨statements, hblock, -⟩ := (outer.checked program.checked).node.block
      refine ⟨root.id, _, program.enclosing?_body outer, hblock, ?_⟩
      change _ + 1 = (around.entered root).level + 1
      rw [Site.level_resumedAll]
      rfl

/-! ### All declarations -/

/-- All tables together hold every declaration once. -/
theorem entries_perm (program : CheckedProgram outline skeleton tree) :
    ((List.range tree.blocks.size).flatMap tree.entriesOf).Perm (List.range tree.decls.size) := by
  have hlibrary : (tree.entriesOf libraryBlock).Perm
      ((Library.numbered (Tree.ofOutline outline).decls.size).map Numbered.id) := by
    rw [Tree.entriesOf, program.tableAt_library]
    exact map_snd_tableOf_perm _
  have hnodes : (skeleton.blockIds.flatMap tree.entriesOf).Perm skeleton.declIds := by
    rw [Skeleton.blockIds, Skeleton.declIds, Skeleton.declared, List.flatMap_map, List.map_flatMap]
    apply List.Perm.flatMap_left
    intro node hnode
    obtain ⟨site, body, occurs, rfl⟩ := Skeleton.exists_occurs
      (Library.site (Tree.ofOutline outline).decls.size) skeleton node hnode
    have htable := program.tableAt_eq occurs
    rw [Tree.entriesOf, htable]
    exact map_snd_tableOf_perm _
  have hall : ((List.range tree.blocks.size).flatMap tree.entriesOf).Perm
      ((Library.numbered (Tree.ofOutline outline).decls.size).map Numbered.id ++
        skeleton.declIds) := by
    refine (program.range_perm.flatMap_right tree.entriesOf).trans ?_
    rw [List.flatMap_cons]
    exact hlibrary.append hnodes
  have hlow : ∀ x ∈ skeleton.declared, x.id < (Tree.ofOutline outline).decls.size := fun x hx =>
    (Array.getElem?_eq_some_iff.mp (program.hasSkeleton.decl x hx)).1
  have hnodup : ((Library.numbered (Tree.ofOutline outline).decls.size).map Numbered.id ++
      skeleton.declIds).Nodup := by
    rw [List.nodup_append']
    refine ⟨Library.nodup_ids _ _, program.hasSkeleton.declIds_nodup, ?_⟩
    intro id hid hmem
    obtain ⟨x, hx, rfl⟩ := List.mem_map.mp hid
    obtain ⟨y, hy, heq⟩ := List.mem_map.mp hmem
    exact absurd (heq ▸ hlow y hy) (Nat.not_lt.mpr (Library.id_lt_of_mem_numberFrom hx).1)
  refine hall.trans ((List.perm_ext_iff_of_nodup hnodup List.nodup_range).mpr fun id => ?_)
  rw [List.mem_append, List.mem_range]
  constructor
  · rintro (hid | hid)
    · obtain ⟨x, hx, rfl⟩ := List.mem_map.mp hid
      exact (Array.getElem?_eq_some_iff.mp (program.declared x hx)).1
    · obtain ⟨x, hx, rfl⟩ := List.mem_map.mp hid
      obtain ⟨decl, hdecl, -⟩ := program.exists_decl hx
      exact (Array.getElem?_eq_some_iff.mp hdecl).1
  · intro hid
    rcases program.decl_cases hid with ⟨x, hx, rfl⟩ | ⟨x, hx, rfl⟩
    · exact .inl (List.mem_map_of_mem hx)
    · exact .inr (List.mem_map_of_mem hx)

theorem mem_decls_of_numbered (outline : Outline) {x : Numbered}
    (hx : x ∈ Library.numbered (Tree.ofOutline outline).decls.size) : x.decl ∈ Library.decls := by
  rw [← Library.map_decl_numberFrom (Tree.ofOutline outline).decls.size Library.decls]
  exact List.mem_map_of_mem hx

/-- Every entry of a table bears the name of its declaration, which is at its level. -/
theorem exists_decl_of_entry (program : CheckedProgram outline skeleton tree) {id : BlockId}
    {block : Block} (hblock : tree.blocks[id]? = some block) {name : String} {declared : DeclId}
    (hentry : (name, declared) ∈ block.table) :
    ∃ decl, tree.decls[declared]? = some decl ∧ decl.name = name ∧
      decl.level? = some block.level := by
  have hsize := (Array.getElem?_eq_some_iff.mp hblock).1
  by_cases hlibrary : id = libraryBlock
  · subst hlibrary
    obtain rfl := Option.some.inj (hblock.symm.trans program.library_eq)
    obtain ⟨x, hx, rfl, rfl⟩ := exists_of_mem_tableOf hentry
    exact ⟨_, program.declared x hx, rfl, rfl⟩
  · obtain ⟨site, body, occurs, rfl, hchecked⟩ :=
      program.exists_occurs (program.mem_blockIds hlibrary hsize)
    obtain ⟨statements, hfound, -⟩ := hchecked.node.block
    obtain rfl := Option.some.inj (hblock.symm.trans hfound)
    obtain ⟨x, hx, rfl, rfl⟩ := exists_of_mem_tableOf hentry
    obtain ⟨layout?, ⟨decl, hdecl, hlevel, -⟩, -⟩ := program.exists_laidOut occurs hx
    obtain ⟨decl', hdecl', herased⟩ := program.exists_decl (Outline.HasSkeleton.declared_mem
      (Outline.HasSkeleton.root_mem_nodes occurs) hx)
    obtain rfl := Option.some.inj (hdecl.symm.trans hdecl')
    have hname : decl.erased.name = x.decl.erased.name := congrArg Decl.name herased
    exact ⟨decl, hdecl, hname, hlevel⟩

/-- A declaration has storage if its kind has some. -/
theorem isSome_layout? (program : CheckedProgram outline skeleton tree) {id : DeclId} {decl : Decl}
    (hdecl : tree.decls[id]? = some decl) : decl.layout?.isSome = decl.kind.isStored := by
  rcases program.decl_cases (Array.getElem?_eq_some_iff.mp hdecl).1 with
    ⟨x, hx, rfl⟩ | ⟨x, hx, rfl⟩
  · obtain rfl := Option.some.inj (hdecl.symm.trans (program.declared x hx))
    obtain ⟨hkind, hlayout⟩ := Library.isStored_eq_false _ (mem_decls_of_numbered outline hx)
    change x.decl.layout?.isSome = x.decl.kind.isStored
    rw [hkind, hlayout, Option.isSome_none]
  · obtain ⟨decl', hdecl', herased⟩ := program.exists_decl hx
    obtain rfl := Option.some.inj (hdecl.symm.trans hdecl')
    have hkind : decl.kind.erased = x.decl.kind.erased := congrArg Decl.kind herased
    obtain ⟨node, hnode, hmem⟩ := List.mem_flatMap.mp hx
    obtain ⟨site, body, occurs, rfl⟩ := Skeleton.exists_occurs
      (Library.site (Tree.ofOutline outline).decls.size) skeleton node hnode
    obtain ⟨layout?, ⟨found, hfound, -, rfl⟩, hstored⟩ := program.exists_laidOut occurs hmem
    obtain rfl := Option.some.inj (hdecl.symm.trans hfound)
    rw [hstored, ← DeclKind.isStored_erased, ← hkind, DeclKind.isStored_erased]

/-- A block is accounted for. -/
theorem blockAccounted (program : CheckedProgram outline skeleton tree)
    (occurs : Occurs outline skeleton site body) {block : Block}
    (hblock : tree.blocks[body.id]? = some block) : tree.BlockAccounted body.id block := by
  have hentries : (tree.entriesOf body.id).Perm (tree.declaredIn body.id) := by
    rw [Tree.entriesOf, program.tableAt_eq occurs, program.declaredIn_eq occurs]
    exact map_snd_tableOf_perm _
  obtain ⟨statements, hfound, -⟩ := (occurs.checked program.checked).node.block
  have hsame := Option.some.inj (hblock.symm.trans hfound)
  obtain ⟨hframeLevel, hframeOwner⟩ := program.frames_eq occurs
  constructor
  case entries => exact hentries
  case params =>
    intro routine decl heading hdecl hkind hbody
    obtain ⟨around, root, before, inner, after, found, hparams, hid⟩ :=
      program.exists_routine hdecl hkind hbody
    rw [hparams, ← hid, program.paramsOf_eq (.body found.occurs)]
  case literals =>
    intro declared hdeclared decl type hdecl hkind literal hliteral
    have hmem := TypeExpr.mem_literals_of_contains hliteral
    apply hentries.mem_iff.mpr
    rw [Tree.declaredIn, Tree.declarationsOf, hblock]
    refine List.mem_append_right _ (List.mem_flatMap.mpr ⟨declared, hdeclared, ?_⟩)
    rw [Tree.declares, hdecl]
    apply List.mem_cons_of_mem
    rcases hkind with hkind | hkind
    · rw [Option.map_some, Option.getD_some, hkind]
      exact hmem
    · rw [Option.map_some, Option.getD_some, hkind]
      exact hmem
  case level =>
    obtain ⟨outer, around, henclosing, haround, hlevel⟩ := program.exists_level occurs
    rw [Tree.enclosing?, hblock, Option.bind_some] at henclosing
    refine ⟨outer, around, henclosing, haround, ?_⟩
    rw [hsame]
    exact hlevel
  case frameLevel =>
    rw [← hframeLevel, hsame]
    rfl
  case frameOwner =>
    rw [← hframeOwner, hsame]
    rfl

end CheckedProgram

/-- **Every declaration is accounted for.**  In a tree that tokens parse and check to, the
entries of all tables are the declarations, each once; every block holds what is declared in
it, at its level; and just the variables, parameters and functions of the program have
storage. -/
theorem checkTokens_accounted {tokens : List Located} {context final : Context} {tree : Tree}
    (accepted : (Compilation.checkTokens tokens).run context = .ok tree final) :
    tree.Accounted := by
  obtain ⟨outline, skeleton, -, -, program⟩ := Compilation.exists_checkedProgram accepted
  constructor
  case entries => exact program.entries_perm
  case entry => exact fun id block hblock name declared => program.exists_decl_of_entry hblock
  case storage => exact fun id decl => program.isSome_layout?
  case blocks =>
    intro id block hblock hlibrary
    obtain ⟨site, body, occurs, rfl, -⟩ := program.exists_occurs
      (program.mem_blockIds hlibrary (Array.getElem?_eq_some_iff.mp hblock).1)
    exact program.blockAccounted occurs hblock

/-- Literals inside arrays of arrays, and a body without a frame inside one that has one. -/
theorem checkTokens_accounted_nested :
    ∃ tokens tree final,
      Compilation.scan "program p; type t = array [(a, b)] of array [1..2] of (c, d); var v: t;
        function f(x: integer): integer; procedure g; begin f := x end; begin g end;
        begin v[a] := f(1) end." = .ok tokens ∧
      (Compilation.checkTokens tokens).run (.fresh false false) = .ok tree final ∧
      tree.Accounted := by
  have hok : Compilation.checksWith (fun _ => true)
        "program p; type t = array [(a, b)] of array [1..2] of (c, d); var v: t;
        function f(x: integer): integer; procedure g; begin f := x end; begin g end;
        begin v[a] := f(1) end." = true := by
    decide +kernel
  obtain ⟨tokens, tree, final, hscan, hcheck, -⟩ := Compilation.exists_of_checksWith hok
  exact ⟨tokens, tree, final, hscan, hcheck, checkTokens_accounted hcheck⟩

end MiniPascal
