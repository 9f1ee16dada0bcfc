import MiniPascal.Proofs.Frames.Accounted

/-!
# The words of declarations

Every variable, parameter and function of a program has one word, in the frame of the block
that declares it or, if it is a function with parameters, in that of its body.  No two have
the same one.  The frames of the blocks around a block hold the words of all that its
statements name.
-/

namespace MiniPascal

namespace Tree

/-- The block whose frame holds the word of a declaration: its body if it is a function with
parameters, and else the block that declares it. -/
inductive HeldBy (tree : Tree) (id : DeclId) : BlockId → Prop
  | declaring {decl : Decl} {block : BlockId} (hdecl : tree.decls[id]? = some decl)
      (hshared : ∀ heading, decl.kind = .routine heading → heading.params = [])
      (hdeclared : id ∈ tree.entriesOf block) : HeldBy tree id block
  | result {decl : Decl} {heading : Routine} {body : BlockId} (hdecl : tree.decls[id]? = some decl)
      (hkind : decl.kind = .routine heading) (hparams : heading.params ≠ [])
      (hbody : heading.body = some body) : HeldBy tree id body

/-- The word of a declaration is at the place of its layout in the frame of a block, in
which the words of the holder lie. -/
structure HasWord (tree : Tree) (id : DeclId) (layout : Layout) (holder owner : BlockId) :
    Prop where
  heldBy : tree.HeldBy id holder
  layout_eq : tree.layout? id = some layout
  frameLevel_eq : layout.frameLevel = tree.frameLevel holder
  owner_eq : tree.frameOwner? holder = some owner

/-- The display of a block's code has the frame with the word of a declaration, which is
held by a block around it. -/
structure Reaches (tree : Tree) (block : BlockId) (id : DeclId) (layout : Layout) : Prop where
  level_pos : 1 ≤ layout.frameLevel
  level_le : layout.frameLevel ≤ tree.frameLevel block
  held : ∃ holder owner, tree.HasWord id layout holder owner ∧ holder ∈ tree.chain block ∧
    tree.frameAt block layout.frameLevel = some owner

/-- What an offset from the frame pointer of a block's frame leads to: a variable or the
result of a function without parameters, a parameter, or the result of the block's function. -/
inductive WordAt (tree : Tree) (owner : BlockId) (offset : Int) (id : DeclId) : Prop
  | own {frameLevel : Nat} (hword : id ∈ tree.frameWords owner)
      (hlayout : tree.layout? id = some { frameLevel, offset })
  | param {index : Nat} (hparam : (tree.paramsOf owner)[index]? = some id)
      (hoffset : offset = Frame.paramOffset index)
  | result (hbody : tree.bodyOf? id = some owner) (hoffset : offset = Frame.resultOffset)

end Tree

namespace CheckedProgram

variable {outline : Outline} {skeleton body : Skeleton} {tree : Tree} {site : Site}

/-! ### Words are distinct -/

/-- The words in a frame lie under its header. -/
theorem exists_wordIndex (program : CheckedProgram outline skeleton tree)
    (occurs : Occurs outline skeleton site body) (howns : body.root.ownsFrame = true) {id : DeclId}
    {layout : Layout} (hword : id ∈ tree.frameWords body.id)
    (hlayout : tree.layout? id = some layout) :
    ∃ index : Nat, layout =
      { frameLevel := tree.frameLevel body.id
        offset := -36 - Frame.wordSize * (index : Int) } := by
  obtain ⟨frame, hframe, exact_⟩ := program.frameExact occurs howns
  have hmem := exact_.words.mem_iff.mp (List.mem_map.mpr ⟨id, hword, hlayout⟩)
  obtain ⟨index, -, heq⟩ := List.mem_map.mp hmem
  refine ⟨index, ?_⟩
  rw [Tree.frameLevel, hframe]
  exact (Option.some.inj heq).symm

/-- A block is the body of one routine only. -/
theorem eq_of_bodyOf? (program : CheckedProgram outline skeleton tree) {id id' : DeclId}
    {inner : BlockId} (h : tree.bodyOf? id = some inner) (h' : tree.bodyOf? id' = some inner) :
    id = id' := by
  have hroutine : ∀ {id : DeclId}, tree.bodyOf? id = some inner →
      ∃ node ∈ skeleton.nodes, node.id = inner ∧ node.routine? = some id := by
    intro id h
    obtain ⟨decl, hdecl, hbody⟩ := Option.bind_eq_some_iff.mp h
    obtain ⟨heading, hheading, hbody⟩ := Option.bind_eq_some_iff.mp hbody
    obtain ⟨around, root, before, found, after, routine, -, hid⟩ :=
      program.exists_routine hdecl (DeclKind.routine?_eq_some_iff.mp hheading) hbody
    exact ⟨found.root, Outline.HasSkeleton.root_mem_nodes (.body routine.occurs), hid,
      routine.bodyOf.1⟩
  obtain ⟨node, hnode, hid, hfound⟩ := hroutine h
  obtain ⟨node', hnode', hid', hfound'⟩ := hroutine h'
  obtain rfl := program.hasSkeleton.node_eq hnode hnode' (hid.trans hid'.symm)
  exact Option.some.inj (hfound.symm.trans hfound')

/-- An offset leads to one declaration only. -/
theorem eq_of_wordAt (program : CheckedProgram outline skeleton tree)
    (occurs : Occurs outline skeleton site body) (howns : body.root.ownsFrame = true)
    {offset : Int} {id id' : DeclId} (h : tree.WordAt body.id offset id)
    (h' : tree.WordAt body.id offset id') : id = id' := by
  have hbelow : ∀ {id : DeclId} {layout : Layout}, id ∈ tree.frameWords body.id →
      tree.layout? id = some layout → layout.offset < Frame.resultOffset := by
    intro id layout hword hlayout
    obtain ⟨index, rfl⟩ := program.exists_wordIndex occurs howns hword hlayout
    simp only [Frame.wordSize, Frame.resultOffset]
    omega
  have habove : ∀ index : Nat, Frame.resultOffset < Frame.paramOffset index := by
    intro index
    simp only [Frame.resultOffset, Frame.paramOffset, Frame.firstParamOffset, Frame.wordSize]
    omega
  cases h with
  | own hword hlayout =>
      have hlow := hbelow hword hlayout
      cases h' with
      | own hword' hlayout' =>
          obtain ⟨frame, hframe, exact_⟩ := program.frameExact occurs howns
          obtain ⟨index, heq⟩ := program.exists_wordIndex occurs howns hword hlayout
          obtain ⟨index', heq'⟩ := program.exists_wordIndex occurs howns hword' hlayout'
          obtain ⟨rfl, -⟩ := Layout.mk.inj heq
          obtain ⟨rfl, -⟩ := Layout.mk.inj heq'
          exact List.inj_on_of_nodup_map exact_.words_nodup hword hword'
            (hlayout.trans hlayout'.symm)
      | @param index _ hoffset =>
          have hhigh := habove index
          rw [← hoffset] at hhigh
          exact absurd hlow (Int.not_lt.mpr (Int.le_of_lt hhigh))
      | result _ hoffset => exact absurd hoffset (Int.ne_of_lt hlow)
  | @param index hparam hoffset =>
      have hhigh := habove index
      rw [← hoffset] at hhigh
      cases h' with
      | own hword' hlayout' =>
          exact absurd (hbelow hword' hlayout') (Int.not_lt.mpr (Int.le_of_lt hhigh))
      | @param index' hparam' hoffset' =>
          have hindex : index = index' := by
            have heq := hoffset.symm.trans hoffset'
            simp only [Frame.paramOffset, Frame.wordSize] at heq
            omega
          rw [hindex] at hparam
          exact Option.some.inj (hparam.symm.trans hparam')
      | result _ hoffset' => exact absurd hoffset' (Int.ne_of_gt hhigh)
  | result hbody hoffset =>
      cases h' with
      | own hword' hlayout' => exact absurd hoffset (Int.ne_of_lt (hbelow hword' hlayout'))
      | @param index _ hoffset' =>
          exact absurd (hoffset.symm.trans hoffset') (Int.ne_of_lt (habove index))
      | result hbody' _ => exact program.eq_of_bodyOf? hbody hbody'

/-! ### Where words lie -/

/-- A declaration is entered in one table only. -/
theorem eq_of_entry (program : CheckedProgram outline skeleton tree) {id : DeclId}
    {block block' : BlockId} (h : id ∈ tree.entriesOf block) (h' : id ∈ tree.entriesOf block') :
    block = block' := by
  have hsize : ∀ {block : BlockId}, id ∈ tree.entriesOf block → block < tree.blocks.size := by
    intro block h
    by_contra hge
    rw [Tree.entriesOf, Tree.tableAt, Array.getElem?_eq_none (Nat.not_lt.mp hge)] at h
    exact absurd h List.not_mem_nil
  have hnodup := program.entries_perm.nodup_iff.mpr List.nodup_range
  by_contra hne
  have : Std.Symm (Function.onFun List.Disjoint tree.entriesOf) :=
    ⟨fun _ _ h _ hleft hright => h hright hleft⟩
  have hdisjoint := (List.nodup_flatMap.mp hnodup).2.forall (List.mem_range.mpr (hsize h))
    (List.mem_range.mpr (hsize h')) hne
  exact hdisjoint h h'

/-- One block holds the word of a declaration. -/
theorem holder_unique (program : CheckedProgram outline skeleton tree) {id : DeclId}
    {holder holder' : BlockId} (h : tree.HeldBy id holder) (h' : tree.HeldBy id holder') :
    holder = holder' := by
  cases h with
  | declaring hdecl hshared hdeclared =>
      cases h' with
      | declaring _ _ hdeclared' => exact program.eq_of_entry hdeclared hdeclared'
      | result hdecl' hkind' hparams' _ =>
          obtain rfl := Option.some.inj (hdecl.symm.trans hdecl')
          exact absurd (hshared _ hkind') hparams'
  | result hdecl hkind hparams hbody =>
      cases h' with
      | declaring hdecl' hshared' _ =>
          obtain rfl := Option.some.inj (hdecl.symm.trans hdecl')
          exact absurd (hshared' _ hkind) hparams
      | result hdecl' hkind' _ hbody' =>
          obtain rfl := Option.some.inj (hdecl.symm.trans hdecl')
          obtain rfl := DeclKind.routine.inj (hkind.symm.trans hkind')
          exact Option.some.inj (hbody.symm.trans hbody')

theorem kind_erased_eq (program : CheckedProgram outline skeleton tree)
    (occurs : Occurs outline skeleton site body) {x : Numbered} (hx : x ∈ body.root.declared)
    {decl : Decl} (hdecl : tree.decls[x.id]? = some decl) :
    decl.kind.erased = x.decl.kind.erased := by
  have herased := program.erased_eq x (occurs.declared_sublist.subset (by
    rw [Skeleton.declared_eq]
    exact List.mem_append_left _ hx))
  rw [hdecl, Option.map_some, Option.some.injEq] at herased
  exact congrArg Decl.kind herased

/-- The word of a declaration of a block, if it is at the level of the block's frame. -/
theorem hasWord_declaring (program : CheckedProgram outline skeleton tree)
    (occurs : Occurs outline skeleton site body) {x : Numbered} (hx : x ∈ body.root.declared)
    {decl : Decl} (hdecl : tree.decls[x.id]? = some decl) {layout : Layout}
    (hlayout : decl.layout? = some layout)
    (hshared : ∀ heading, decl.kind = .routine heading → heading.params = [])
    (hlevel : layout.frameLevel = (site.entered body.root).frameLevel) :
    tree.HasWord x.id layout body.id (site.entered body.root).frameOwner where
  heldBy := by
    apply Tree.HeldBy.declaring hdecl hshared
    rw [Tree.entriesOf, program.tableAt_eq occurs]
    exact (map_snd_tableOf_perm _).mem_iff.mpr (List.mem_map_of_mem hx)
  layout_eq := by rw [Tree.layout?, hdecl, Option.bind_some, hlayout]
  frameLevel_eq := hlevel.trans (program.frameLevel_eq occurs).symm
  owner_eq := Skeleton.NodeChecked.frameOwner?_eq (occurs.checked program.checked).node

/-- The word of a function with parameters, in the frame that its body makes. -/
theorem exists_hasWord_result (program : CheckedProgram outline skeleton tree)
    (occurs : Occurs outline skeleton site body) {x : Numbered} (hx : x ∈ body.root.declared)
    {decl : Decl} (hdecl : tree.decls[x.id]? = some decl) {heading : Routine}
    (hkind : decl.kind = .routine heading) (hframed : heading.isInline = false) {level : Nat}
    (hlevel : level = (site.entered body.root).frameLevel + 1)
    (hlayout : decl.layout? = some { frameLevel := level, offset := Frame.resultOffset }) :
    ∃ inner, tree.HasWord x.id { frameLevel := level, offset := Frame.resultOffset } inner inner ∧
      heading.params ≠ [] ∧ heading.body = some inner := by
  have hstored := program.isSome_layout? hdecl
  rw [hlayout, hkind, DeclKind.isStored, Option.isSome_some] at hstored
  obtain ⟨inner, hbody⟩ : ∃ inner, heading.body = some inner := by
    apply Option.ne_none_iff_exists'.mp
    intro hnone
    rw [Routine.isBuiltin, hnone, Option.isNone_none, Bool.not_true, Bool.and_false] at hstored
    cases hstored
  have hparams : heading.params ≠ [] := by
    intro hnil
    rw [Routine.isInline, hnil] at hframed
    cases hframed
  obtain ⟨site', inner, innerOccurs, rfl, howns, hinner⟩ :=
    program.exists_framedBody occurs hx hdecl hkind hframed hbody
  have howner : tree.frameOwner? inner.id = some (site'.entered inner.root).frameOwner :=
    Skeleton.NodeChecked.frameOwner?_eq (innerOccurs.checked program.checked).node
  rw [Site.frameOwner_entered, howns] at howner
  rw [program.frameLevel_eq occurs, ← hlevel] at hinner
  refine ⟨inner.id, ?_, hparams, hbody⟩
  exact
    { heldBy := .result hdecl hkind hparams hbody
      layout_eq := by rw [Tree.layout?, hdecl, Option.bind_some, hlayout]
      frameLevel_eq := hinner.symm
      owner_eq := howner }

/-- What is declared in a block has its word in the frame of the block, or it is a function
with a frame of its own. -/
theorem exists_hasWord (program : CheckedProgram outline skeleton tree)
    (occurs : Occurs outline skeleton site body) {x : Numbered} (hx : x ∈ body.root.declared)
    {decl : Decl} (hdecl : tree.decls[x.id]? = some decl) {layout : Layout}
    (hlayout : decl.layout? = some layout) :
    ∃ holder owner, tree.HasWord x.id layout holder owner ∧
      tree.WordAt owner layout.offset x.id ∧ (holder = body.id ∨
        ∃ heading, decl.kind = .routine heading ∧ heading.params ≠ [] ∧
          heading.body = some holder) := by
  have hfound : tree.layout? x.id = some layout := by
    rw [Tree.layout?, hdecl, Option.bind_some, hlayout]
  have hnode := (occurs.checked program.checked).node
  have hkind := program.kind_erased_eq occurs hx hdecl
  rcases List.mem_append.mp hx with hparam | hentries
  · obtain ⟨index, hindex⟩ := List.getElem?_of_mem hparam
    have hplaced := (hnode.params index x hindex).layout?_eq
    rw [hfound] at hplaced
    obtain rfl := Option.some.inj hplaced
    have hshared : ∀ heading, decl.kind = .routine heading → heading.params = [] := by
      intro heading hheading
      obtain ⟨ref, href⟩ :=
        (occurs.wellFormed program.hasSkeleton.wellFormed).node.params_kind x hparam
      rw [href, hheading] at hkind
      cases hkind
    refine ⟨body.id, _, program.hasWord_declaring occurs hx hdecl hlayout hshared rfl, ?_, .inl rfl⟩
    rw [Site.frameOwner_entered, ownsFrame_of_params hparam]
    refine @Tree.WordAt.param tree _ _ _ index ?_ rfl
    change (tree.paramsOf body.id)[index]? = some x.id
    rw [program.paramsOf_eq occurs, List.getElem?_map, hindex, Option.map_some]
  · obtain ⟨entry, hmem, hall⟩ := List.mem_flatMap.mp hentries
    obtain ⟨before, after, hsplit⟩ := List.append_of_mem hmem
    have hchecked := hnode.entries before entry after hsplit
    rcases List.mem_cons.mp hall with rfl | hliteral
    · have hplaced := hfound.symm.trans hchecked.laidOut.layout?_eq
      rcases ScopeLevel.layoutFor_cases hplaced.symm with
        ⟨htaken, hlevel⟩ | ⟨rfl, heading, hrouting, hframed⟩
      · have hword : entry.declared ∈ body.root.words :=
          List.mem_filter.mpr ⟨List.mem_map_of_mem hmem, htaken⟩
        have hshared : ∀ heading, decl.kind = .routine heading → heading.params = [] := by
          intro heading hheading
          rw [← DeclKind.takesWord_erased, ← hkind, DeclKind.takesWord_erased, hheading,
            DeclKind.takesWord, Bool.and_eq_true] at htaken
          exact List.isEmpty_iff.mp htaken.2
        exact ⟨body.id, _, program.hasWord_declaring occurs hx hdecl hlayout hshared hlevel,
          .own (program.mem_frameWords occurs hword) hfound, .inl rfl⟩
      · rw [hrouting] at hkind
        obtain ⟨result, hrouting⟩ := DeclKind.eq_routine_of_erased_eq hkind
        obtain ⟨inner, hhas, hparams, hbody⟩ :=
          program.exists_hasWord_result occurs hx hdecl hrouting hframed rfl hlayout
        have hbodyOf : tree.bodyOf? entry.declared.id = some inner := by
          rw [Tree.bodyOf?, hdecl, Option.bind_some, hrouting]
          exact hbody
        exact ⟨inner, inner, hhas, .result hbodyOf rfl, .inr ⟨_, hrouting, hparams, hbody⟩⟩
    · have hnone := (hchecked.literals x hliteral).layout?_eq
      rw [hfound] at hnone
      cases hnone

/-- A block whose words lie in a frame is one of the program. -/
theorem exists_holder (program : CheckedProgram outline skeleton tree) {holder owner : BlockId}
    (howner : tree.frameOwner? holder = some owner) :
    ∃ site body, Occurs outline skeleton site body ∧ body.id = holder ∧
      (site.entered body.root).frameOwner = owner := by
  have hlibrary : holder ≠ libraryBlock := by
    rintro rfl
    rw [program.frameOwner?_library] at howner
    cases howner
  obtain ⟨block, hblock, -⟩ := Option.bind_eq_some_iff.mp howner
  obtain ⟨site, body, occurs, rfl, checked⟩ := program.exists_occurs
    (program.mem_blockIds hlibrary (Array.getElem?_eq_some_iff.mp hblock).1)
  have hfound : tree.frameOwner? body.id = some (site.entered body.root).frameOwner :=
    Skeleton.NodeChecked.frameOwner?_eq checked.node
  exact ⟨site, body, occurs, rfl, Option.some.inj (hfound.symm.trans howner)⟩

/-- Every declaration with storage has a word. -/
theorem exists_word (program : CheckedProgram outline skeleton tree) {id : DeclId}
    {layout : Layout} (hlayout : tree.layout? id = some layout) :
    ∃ holder owner, tree.HasWord id layout holder owner ∧ tree.WordAt owner layout.offset id := by
  obtain ⟨decl, hdecl, hstored⟩ := Option.bind_eq_some_iff.mp hlayout
  rcases program.decl_cases (Array.getElem?_eq_some_iff.mp hdecl).1 with
    ⟨x, hx, rfl⟩ | ⟨x, hx, rfl⟩
  · cases (program.layout?_library hx).symm.trans hlayout
  · obtain ⟨node, hnode, hmem⟩ := List.mem_flatMap.mp hx
    obtain ⟨site, body, occurs, rfl⟩ := Skeleton.exists_occurs
      (Library.site (Tree.ofOutline outline).decls.size) skeleton node hnode
    obtain ⟨holder, owner, hhas, hword, -⟩ := program.exists_hasWord occurs hmem hdecl hstored
    exact ⟨holder, owner, hhas, hword⟩

/-- Where the layout of a declaration leads to in the frame that has its word. -/
theorem wordAt_of_hasWord (program : CheckedProgram outline skeleton tree) {id : DeclId}
    {layout : Layout} {holder owner : BlockId} (h : tree.HasWord id layout holder owner) :
    tree.WordAt owner layout.offset id := by
  obtain ⟨holder', owner', h', hword⟩ := program.exists_word h.layout_eq
  obtain rfl := program.holder_unique h.heldBy h'.heldBy
  obtain rfl := Option.some.inj (h.owner_eq.symm.trans h'.owner_eq)
  exact hword

/-- Two declarations never have the same word. -/
theorem eq_of_hasWord (program : CheckedProgram outline skeleton tree) {id id' : DeclId}
    {layout layout' : Layout} {holder holder' owner : BlockId}
    (h : tree.HasWord id layout holder owner) (h' : tree.HasWord id' layout' holder' owner)
    (hoffset : layout.offset = layout'.offset) : id = id' := by
  have hword := program.wordAt_of_hasWord h
  have hword' := program.wordAt_of_hasWord h'
  rw [← hoffset] at hword'
  obtain ⟨site, body, occurs, -, rfl⟩ := program.exists_holder h.owner_eq
  obtain ⟨site', body', occurs', howner, howns⟩ :=
    exists_frameOwner occurs program.hasSkeleton.program
  rw [← howner] at hword hword'
  exact program.eq_of_wordAt occurs' howns hword hword'

/-! ### Words in reach -/

/-- The frame of the block that holds a word is among those around every block inside. -/
theorem reaches_of_mem_chain (program : CheckedProgram outline skeleton tree) {block : BlockId}
    (hblock : block ∈ skeleton.blockIds) {id : DeclId} {layout : Layout} {holder owner : BlockId}
    (h : tree.HasWord id layout holder owner) (hchain : holder ∈ tree.chain block) :
    tree.Reaches block id layout := by
  obtain ⟨site, inside, within, rfl, -⟩ := program.exists_occurs hblock
  obtain ⟨site', body, occurs, rfl, rfl⟩ := program.exists_holder h.owner_eq
  obtain ⟨hle, hsame⟩ := program.frameAt_of_mem_chain within hchain
  have hpos := program.one_le_frameLevel occurs
  have hframe := hsame _ hpos (Nat.le_refl _)
  rw [program.frameAt_frameLevel occurs] at hframe
  rw [← h.frameLevel_eq] at hle hpos hframe
  exact ⟨hpos, hle, body.id, _, h, hchain, hframe⟩

/-- A block reaches the words of all that its statements read or assign to. -/
theorem reaches_of_use (program : CheckedProgram outline skeleton tree) {id : BlockId}
    {block : Block} (hblock : tree.blocks[id]? = some block) {use : Use}
    (huse : use ∈ Statement.usesAll block.statements) (haccess : use.1 = .value ∨ use.1 = .target)
    {found : DeclId} (hfound : use.2.decl? = some found) {decl : Decl}
    (hdecl : tree.decls[found]? = some decl) {layout : Layout}
    (hlayout : decl.layout? = some layout) : tree.Reaches id found layout := by
  have hlibrary : id ≠ libraryBlock := by
    rintro rfl
    obtain rfl := Option.some.inj (program.library_eq.symm.trans hblock)
    exact absurd huse List.not_mem_nil
  have hid : id ∈ skeleton.blockIds :=
    program.mem_blockIds hlibrary (Array.getElem?_eq_some_iff.mp hblock).1
  rcases program.exists_declaring hblock huse hfound with
    ⟨x, hx, rfl⟩ | ⟨site, body, occurs, hchain, x, hx, rfl⟩
  · have hnone := program.layout?_library hx
    rw [Tree.layout?, hdecl, Option.bind_some, hlayout] at hnone
    cases hnone
  · obtain ⟨holder, owner, hhas, -, hholder⟩ := program.exists_hasWord occurs hx hdecl hlayout
    apply program.reaches_of_mem_chain hid hhas
    rcases hholder with rfl | ⟨heading, hkind, hparams, hbody⟩
    · exact hchain
    · -- only its own body and the blocks inside name such a function without calling it
      obtain ⟨found', decl', hfound', hdecl', hallows⟩ := program.exists_allows hblock huse
      obtain rfl := Option.some.inj (hfound'.symm.trans hfound)
      obtain rfl := Option.some.inj (hdecl'.symm.trans hdecl)
      obtain ⟨name, ref⟩ := use
      rw [hkind] at hallows
      rcases haccess with rfl | rfl
      · cases hallows with
        | readFunction _ noParams => exact absurd noParams hparams
      · cases hallows with
        | assignResult _ hasBody isWithin =>
            obtain rfl := Option.some.inj (hbody.symm.trans hasBody)
            exact List.contains_iff_mem.mp isWithin

/-- The body of a function without parameters reaches the word of its result. -/
theorem reaches_of_result (program : CheckedProgram outline skeleton tree) {id : DeclId}
    {decl : Decl} (hdecl : tree.decls[id]? = some decl) {heading : Routine}
    (hkind : decl.kind = .routine heading) (hparams : heading.params = []) {block : BlockId}
    (hbody : heading.body = some block) {layout : Layout} (hlayout : decl.layout? = some layout) :
    tree.Reaches block id layout := by
  obtain ⟨around, root, before, inner, after, routine, -, rfl⟩ :=
    program.exists_routine hdecl hkind hbody
  obtain ⟨-, -, -, entry, hentry, rfl, -⟩ := routine.bodyOf
  have hdeclared : entry.declared ∈ root.declared := List.mem_append_right _
    (List.mem_flatMap.mpr ⟨entry, hentry, List.mem_cons_self⟩)
  obtain ⟨holder, owner, hhas, -, hholder⟩ :=
    program.exists_hasWord routine.occurs hdeclared hdecl hlayout
  have hblock : inner.id ∈ skeleton.blockIds :=
    (Skeleton.Occurs.body routine.occurs).blockIds_sublist.subset inner.id_mem_blockIds
  apply program.reaches_of_mem_chain hblock hhas
  rcases hholder with rfl | ⟨heading', hkind', hsome, -⟩
  · rw [Tree.chain_eq program.descends, program.enclosing?_body routine.occurs, Option.map_some,
      Option.getD_some, Tree.chain_eq program.descends]
    exact List.mem_cons_of_mem _ List.mem_cons_self
  · obtain rfl := DeclKind.routine.inj (hkind.symm.trans hkind')
    exact absurd hparams hsome

/-- Only the body of a function and the blocks inside store to the word of its result. -/
theorem isWithin_of_target (program : CheckedProgram outline skeleton tree) {id : BlockId}
    {block : Block} (hblock : tree.blocks[id]? = some block) {ref : NameRef}
    (huse : (.target, ref) ∈ Statement.usesAll block.statements) {found : DeclId}
    (hfound : ref.decl? = some found) {decl : Decl} (hdecl : tree.decls[found]? = some decl)
    {layout : Layout} (hlayout : decl.layout? = some layout) {function : DeclId} {inner : BlockId}
    (hinner : tree.bodyOf? function = some inner) {layout' : Layout} {holder owner : BlockId}
    (hhas : tree.HasWord function layout' holder owner)
    (hframe : tree.frameAt id layout.frameLevel = some owner)
    (hoffset : layout.offset = layout'.offset) : tree.isWithin id inner = true := by
  obtain ⟨-, -, holder', owner', hhas', -, hframe'⟩ :=
    program.reaches_of_use hblock huse (.inr rfl) hfound hdecl hlayout
  obtain rfl := Option.some.inj (hframe'.symm.trans hframe)
  obtain rfl := program.eq_of_hasWord hhas' hhas hoffset
  obtain ⟨found', decl', hfound', hdecl', hallows⟩ := program.exists_allows hblock huse
  obtain rfl := Option.some.inj (hfound'.symm.trans hfound)
  obtain rfl := Option.some.inj (hdecl'.symm.trans hdecl)
  rw [Tree.bodyOf?, hdecl, Option.bind_some] at hinner
  obtain ⟨heading, hheading, hbody⟩ := Option.bind_eq_some_iff.mp hinner
  rw [DeclKind.routine?_eq_some_iff.mp hheading] at hallows
  cases hallows with
  | assignResult _ hasBody isWithin =>
      obtain rfl := Option.some.inj (hbody.symm.trans hasBody)
      exact isWithin

end CheckedProgram

end MiniPascal
