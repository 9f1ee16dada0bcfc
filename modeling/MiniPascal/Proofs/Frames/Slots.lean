import MiniPascal.Proofs.Check.WellFormed
import MiniPascal.Proofs.Frames.Chain

/-!
# Slots

The words that code stores are the variables and the result of a frame and its
parameters.  A block that may assign to a name has the frame of that name among the
frames of the blocks around it.
-/

namespace MiniPascal

/-- The offset from the frame pointer of a block's frame is that of a word which code may
store: its result, a variable in the frame, or a parameter. -/
inductive Tree.Slot (tree : Tree) (owner : BlockId) (offset : Int) : Prop
  | inside {frame : Block} (hframe : tree.blocks[owner]? = some frame)
      (hlow : -(Frame.size frame.frameBytes) ≤ offset) (hhigh : offset ≤ Frame.resultOffset)
  | param {index : Nat} (hparam : index < (tree.paramsOf owner).length)
      (hoffset : offset = Frame.paramOffset index)

def Tree.frameSize (tree : Tree) (block : BlockId) : Nat :=
  ((tree.blocks[block]?.map fun frame => Frame.size frame.frameBytes).getD 0).toNat

/-- The code of a block may store where the layout says: at a slot of the frame of that level
around the block. -/
def Tree.StoresTo (tree : Tree) (block : BlockId) (layout : Layout) : Prop :=
  1 ≤ layout.frameLevel ∧ layout.frameLevel ≤ tree.frameLevel block ∧
    ∃ owner, tree.frameAt block layout.frameLevel = some owner ∧ tree.Slot owner layout.offset

def Tree.Sees (tree : Tree) (block body : BlockId) : Prop :=
  ∃ outer ∈ tree.chain block, tree.enclosing? body = some outer

/-- The arguments that a use of a routine's name passes, if the name may be one. -/
def NameUse.args? : NameUse → Option Nat
  | .value => some 0
  | .call _ args => some args
  | .typeName | .constant | .target => none

/-- What the code of a block relies on for a use of a name: it stores to slots, and calls
what it sees with as many arguments as there are parameters. -/
structure Tree.Serves (tree : Tree) (block : BlockId) (use : Use) : Prop where
  target : use.1 = .target → ∀ found layout, use.2.decl? = some found →
    tree.layout? found = some layout → tree.StoresTo block layout
  call : ∀ args, use.1.args? = some args → ∀ found body, use.2.decl? = some found →
    tree.bodyOf? found = some body →
      tree.Sees block body ∧ (tree.paramsOf body).length = args

/-- Storage is a word of the current frame, or the result word of a function's own frame. -/
theorem ScopeLevel.layoutFor_cases {level : ScopeLevel Int} {kind : DeclKind} {layout : Layout}
    (h : level.layoutFor kind = some layout) :
    (kind.takesWord = true ∧ layout.frameLevel = level.frameLevel) ∨
    (layout = { frameLevel := level.frameLevel + 1, offset := Frame.resultOffset } ∧
      ∃ heading, kind = .routine heading ∧ heading.isInline = false) := by
  by_cases htaken : kind.takesWord = true
  · rw [layoutFor_of_takesWord htaken] at h
    exact .inl ⟨htaken, by rw [← Option.some.inj h]⟩
  · unfold layoutFor at h
    rw [if_neg htaken] at h
    cases kind with
    | routine heading =>
        by_cases hfunction : heading.isFunction = true
        · simp only [if_pos hfunction, Option.some.injEq] at h
          rw [DeclKind.takesWord, hfunction, Bool.true_and, Bool.not_eq_true] at htaken
          exact .inr ⟨h.symm, heading, rfl, htaken⟩
        · simp only [if_neg hfunction] at h
          cases h
    | constant | type | variableOf | parameter | enumLiteral => cases h

theorem ownsFrame_of_params {node : Node} {x : Numbered} (h : x ∈ node.params) :
    node.ownsFrame = true := by
  have hnotEmpty : node.params.isEmpty = false := by
    cases hparams : node.params with
    | nil =>
        rw [hparams] at h
        exact absurd h List.not_mem_nil
    | cons => rfl
  rw [Node.ownsFrame, hnotEmpty, Bool.not_false, Bool.or_true]

namespace CheckedProgram

variable {outline : Outline} {skeleton body : Skeleton} {tree : Tree} {site : Site}

/-- The block in whose frame the words of a block lie is one around it. -/
theorem exists_frameOwner (occurs : Occurs outline skeleton site body)
    (hprogram : skeleton.root.routine? = none) :
    ∃ site' owner, Occurs outline skeleton site' owner ∧
      owner.id = (site.entered body.root).frameOwner ∧ owner.root.ownsFrame = true := by
  induction occurs with
  | top =>
      have howns : skeleton.root.ownsFrame = true := by
        rw [Node.ownsFrame, hprogram]
        rfl
      refine ⟨_, skeleton, .top, ?_, howns⟩
      rw [Site.frameOwner_entered, howns]
      rfl
  | @body around root before after body outer ih =>
      rw [Site.frameOwner_entered, Site.frameOwner_resumedAll]
      cases howns : body.root.ownsFrame with
      | true => exact ⟨_, body, .body outer, rfl, howns⟩
      | false => exact ih

theorem one_le_frameLevel (program : CheckedProgram outline skeleton tree)
    (occurs : Occurs outline skeleton site body) : 1 ≤ tree.frameLevel body.id := by
  induction occurs with
  | top =>
      obtain ⟨outer, henclosing, -, hlevel⟩ := program.exists_enclosing? .top
      have howns : skeleton.root.ownsFrame = true := by
        rw [Node.ownsFrame, program.hasSkeleton.program]
        rfl
      rw [howns, if_pos rfl] at hlevel
      omega
  | @body around root before after body outer ih =>
      obtain ⟨found, hfound, -, hlevel⟩ := program.exists_enclosing? (.body outer)
      obtain rfl := Option.some.inj ((program.enclosing?_body outer).symm.trans hfound)
      change 1 ≤ tree.frameLevel root.id at ih
      split at hlevel <;> omega

/-- The parameters of a body are those of its routine. -/
theorem paramsOf_eq (program : CheckedProgram outline skeleton tree)
    (occurs : Occurs outline skeleton site body) :
    tree.paramsOf body.id = body.root.params.map Numbered.id := by
  unfold Tree.paramsOf
  cases hfind : tree.decls.toList.findSome? fun decl =>
      decl.kind.routine?.bind fun routine =>
        if routine.body = some body.id then some routine.params else none with
  | none =>
      rcases program.bodyOf?_eq occurs with rfl | ⟨id, -, hbodyOf⟩
      · rw [program.hasSkeleton.params_eq, Option.getD_none, List.map_nil]
      · obtain ⟨decl, hdecl, hbody⟩ := Option.bind_eq_some_iff.mp hbodyOf
        obtain ⟨heading, hheading, hbody⟩ := Option.bind_eq_some_iff.mp hbody
        have hnone := List.findSome?_eq_none_iff.mp hfind decl
          (Array.mem_toList_iff.mpr (Array.mem_of_getElem? hdecl))
        rw [hheading, Option.bind_some, if_pos hbody] at hnone
        cases hnone
  | some params =>
      obtain ⟨decl, hdecl, hsome⟩ := List.exists_of_findSome?_eq_some hfind
      obtain ⟨id, hid, rfl⟩ := Array.mem_iff_getElem.mp (Array.mem_toList_iff.mp hdecl)
      obtain ⟨heading, hheading, hparams⟩ := Option.bind_eq_some_iff.mp hsome
      split at hparams
      · next hbody =>
          obtain ⟨around, root, before, found, after, routine, hfound, hid⟩ :=
            program.exists_routine (Array.getElem?_eq_getElem hid)
              (DeclKind.routine?_eq_some_iff.mp hheading) hbody
          have hroot : found.root = body.root := program.hasSkeleton.node_eq
            (Outline.HasSkeleton.root_mem_nodes (.body routine.occurs))
            (Outline.HasSkeleton.root_mem_nodes occurs) hid
          rw [Option.getD_some, ← Option.some.inj hparams, hfound, hroot]
      · cases hparams

theorem paramsOf_program (program : CheckedProgram outline skeleton tree) :
    tree.paramsOf tree.body = [] := by
  rw [program.body_eq]
  rw [program.paramsOf_eq .top, program.hasSkeleton.params_eq, List.map_nil]

/-- A block with parameters has a frame of its own. -/
theorem isFramed_of_params (program : CheckedProgram outline skeleton tree) {id : BlockId}
    (hid : id ∈ skeleton.blockIds) (hparams : tree.paramsOf id ≠ []) : tree.isFramed id = true := by
  obtain ⟨site, body, occurs, rfl, -⟩ := program.exists_occurs hid
  rw [program.paramsOf_eq occurs, ne_eq, List.map_eq_nil_iff] at hparams
  obtain ⟨x, hx⟩ := List.exists_mem_of_ne_nil _ hparams
  rw [program.isFramed_eq occurs]
  exact ownsFrame_of_params hx

/-- The parameters of a body have words above the pointer of its frame. -/
theorem layout?_paramsOf (program : CheckedProgram outline skeleton tree)
    (occurs : Occurs outline skeleton site body) {index : Nat} {param : DeclId}
    (hparam : (tree.paramsOf body.id)[index]? = some param) :
    tree.layout? param =
      some { frameLevel := tree.frameLevel body.id, offset := Frame.paramOffset index } := by
  rw [program.paramsOf_eq occurs, List.getElem?_map, Option.map_eq_some_iff] at hparam
  obtain ⟨x, hx, rfl⟩ := hparam
  rw [program.frameLevel_eq occurs]
  exact ((occurs.checked program.checked).node.params index x hx).layout?_eq

/-- What a block makes its frame with: a level that a display can have, and the room that
the frame takes. -/
theorem frameLevel_le (program : CheckedProgram outline skeleton tree)
    (occurs : Occurs outline skeleton site body) : tree.frameLevel body.id ≤ Frame.maxLevel := by
  rw [program.frameLevel_eq occurs]
  exact (occurs.checked program.checked).node.frameLevel_le

theorem size_eq_frameSize (program : CheckedProgram outline skeleton tree)
    (occurs : Occurs outline skeleton site body) (hframed : tree.isFramed body.id = true)
    {frame : Block} (hframe : tree.blocks[body.id]? = some frame) :
    Frame.size frame.frameBytes = tree.frameSize body.id := by
  rw [program.isFramed_eq occurs] at hframed
  obtain ⟨found, hfound, exact_⟩ := program.frameExact occurs hframed
  obtain rfl := Option.some.inj (hfound.symm.trans hframe)
  have hbytes := exact_.frameBytes_eq
  rw [Tree.frameSize, hfound, Option.map_some, Option.getD_some, Frame.size, Frame.headerBytes]
  omega

/-- A word of a block is one of the frame in which the words of the block lie. -/
theorem mem_frameWords (program : CheckedProgram outline skeleton tree)
    (occurs : Occurs outline skeleton site body) {x : Numbered} (hx : x ∈ body.root.words) :
    x.id ∈ tree.frameWords (site.entered body.root).frameOwner := by
  have hnode := (occurs.checked program.checked).node
  have herased : ∀ x ∈ body.root.declared, tree.decls[x.id]?.map Decl.erased = some x.decl.erased :=
    fun x hx => program.erased_eq x (occurs.declared_sublist.subset (by
      rw [Skeleton.declared_eq]
      exact List.mem_append_left _ hx))
  apply List.mem_flatMap.mpr
  obtain ⟨statements, hblock, -⟩ := hnode.block
  refine ⟨body.id, List.mem_filter.mpr ⟨List.mem_range.mpr
    (Array.getElem?_eq_some_iff.mp hblock).1, ?_⟩, ?_⟩
  · have hfound : tree.frameOwner? body.id = some (site.entered body.root).frameOwner :=
      Skeleton.NodeChecked.frameOwner?_eq hnode
    rw [hfound]
    exact beq_self_eq_true _
  · have hwords : tree.ownWords body.id = body.root.words.map Numbered.id :=
      Skeleton.NodeChecked.ownWords_eq hnode
        (occurs.wellFormed program.hasSkeleton.wellFormed).node herased
    rw [hwords]
    exact List.mem_map_of_mem hx

/-- A word of a block is a slot of the frame in which the words of the block lie. -/
theorem slot_of_word (program : CheckedProgram outline skeleton tree)
    (occurs : Occurs outline skeleton site body) {x : Numbered} (hx : x ∈ body.root.words)
    {layout : Layout} (hlayout : tree.layout? x.id = some layout) :
    tree.Slot (site.entered body.root).frameOwner layout.offset := by
  obtain ⟨site', owner, occurs', howner, howns⟩ :=
    exists_frameOwner occurs program.hasSkeleton.program
  obtain ⟨frame, hframe, exact_⟩ := program.frameExact occurs' howns
  have hword := program.mem_frameWords occurs hx
  rw [← howner] at hword ⊢
  have hmem := exact_.words.mem_iff.mp (List.mem_map.mpr ⟨x.id, hword, hlayout⟩)
  obtain ⟨index, hindex, heq⟩ := List.mem_map.mp hmem
  obtain rfl := Option.some.inj heq
  rw [List.mem_range] at hindex
  have hbytes := exact_.frameBytes_eq
  apply Tree.Slot.inside hframe
  · simp only [Frame.size, Frame.headerBytes, Frame.wordSize]
    omega
  · simp only [Frame.resultOffset, Frame.wordSize]
    omega

/-- What is declared in a block has its word in the frame of the block, if it has one and
is no function with a frame of its own. -/
theorem layout?_cases (program : CheckedProgram outline skeleton tree)
    (occurs : Occurs outline skeleton site body) {x : Numbered} (hx : x ∈ body.root.declared)
    {layout : Layout} (hlayout : tree.layout? x.id = some layout) :
    (layout.frameLevel = tree.frameLevel body.id ∧
      tree.Slot (site.entered body.root).frameOwner layout.offset) ∨
    (layout = { frameLevel := tree.frameLevel body.id + 1, offset := Frame.resultOffset } ∧
      ∃ heading, x.decl.kind = .routine heading ∧ heading.isInline = false) := by
  have hnode := (occurs.checked program.checked).node
  rw [program.frameLevel_eq occurs]
  rcases List.mem_append.mp hx with hparam | hentries
  · obtain ⟨index, hindex⟩ := List.getElem?_of_mem hparam
    have hword := (hnode.params index x hindex).layout?_eq
    rw [hlayout] at hword
    obtain rfl := Option.some.inj hword
    rw [Site.frameOwner_entered, ownsFrame_of_params hparam]
    apply Or.inl
    apply And.intro rfl
    apply @Tree.Slot.param tree _ _ index _ rfl
    change index < (tree.paramsOf body.id).length
    rw [program.paramsOf_eq occurs, List.length_map]
    exact (List.getElem?_eq_some_iff.mp hindex).1
  · obtain ⟨entry, hentry, hmem⟩ := List.mem_flatMap.mp hentries
    obtain ⟨before, after, hsplit⟩ := List.append_of_mem hentry
    have hchecked := hnode.entries before entry after hsplit
    rcases List.mem_cons.mp hmem with rfl | hliteral
    · have hword := hlayout.symm.trans hchecked.laidOut.layout?_eq
      rcases ScopeLevel.layoutFor_cases hword.symm with ⟨htaken, hlevel⟩ | hresult
      · have hmem : entry.declared ∈ body.root.words :=
          List.mem_filter.mpr ⟨List.mem_map_of_mem hentry, htaken⟩
        exact .inl ⟨hlevel, program.slot_of_word occurs hmem hlayout⟩
      · exact .inr hresult
    · have hnone := (hchecked.literals x hliteral).layout?_eq
      rw [hlayout] at hnone
      cases hnone

theorem layout?_library (program : CheckedProgram outline skeleton tree) {x : Numbered}
    (hx : x ∈ Library.numbered (Tree.ofOutline outline).decls.size) : tree.layout? x.id = none := by
  have hmem : x.decl ∈ Library.decls := by
    rw [← Library.map_decl_numberFrom (Tree.ofOutline outline).decls.size Library.decls]
    exact List.mem_map_of_mem hx
  have hnone : ∀ decl ∈ Library.decls, decl.layout? = none := by decide
  rw [Tree.layout?, program.declared x hx]
  exact hnone x.decl hmem

/-- The body of a routine with parameters that is declared in a block makes a frame of the
next level. -/
theorem exists_framedBody (program : CheckedProgram outline skeleton tree)
    (occurs : Occurs outline skeleton site body) {x : Numbered} (hx : x ∈ body.root.declared)
    {decl : Decl} (hdecl : tree.decls[x.id]? = some decl) {heading : Routine}
    (hkind : decl.kind = .routine heading) (hframed : heading.isInline = false)
    {bodyId : BlockId} (hbody : heading.body = some bodyId) :
    ∃ site' inner, Occurs outline skeleton site' inner ∧ inner.id = bodyId ∧
      inner.root.ownsFrame = true ∧ tree.frameLevel inner.id = tree.frameLevel body.id + 1 := by
  obtain ⟨around, root, before, inner, after, routine, hparams, hid⟩ :=
    program.exists_routine hdecl hkind hbody
  obtain ⟨-, -, -, entry, hentry, hentryId, -⟩ := routine.bodyOf
  have hdeclared : entry.declared ∈ root.declared := List.mem_append_right _
    (List.mem_flatMap.mpr ⟨entry, hentry, List.mem_cons_self⟩)
  have hroot : root = body.root :=
    program.root_eq_of_declared routine.occurs occurs hdeclared hx hentryId
  have howns : inner.root.ownsFrame = true := by
    rw [Routine.isInline, hparams, List.isEmpty_map] at hframed
    rw [Node.ownsFrame, hframed, Bool.not_false, Bool.or_true]
  have henclosing := program.enclosing?_body routine.occurs
  obtain ⟨outer, houter, -, hlevel⟩ := program.exists_enclosing? (.body routine.occurs)
  obtain rfl := Option.some.inj (henclosing.symm.trans houter)
  rw [howns, if_pos rfl, hroot] at hlevel
  exact ⟨_, inner, .body routine.occurs, hid, howns, hlevel⟩

/-- The result of a function with parameters lies in the frame of its body, which is around
the blocks that may assign to it. -/
theorem slot_of_result (program : CheckedProgram outline skeleton tree)
    {within : Site} {inside : Skeleton} (withinOccurs : Occurs outline skeleton within inside)
    (occurs : Occurs outline skeleton site body) {x : Numbered} (hx : x ∈ body.root.declared)
    {heading : Routine} (hkind : x.decl.kind = .routine heading)
    (hframed : heading.isInline = false) {decl : Decl} (hdecl : tree.decls[x.id]? = some decl)
    (hallows : NameUse.target.Allows tree inside.id decl.kind) :
    tree.frameLevel body.id + 1 ≤ tree.frameLevel inside.id ∧
      ∃ owner, tree.frameAt inside.id (tree.frameLevel body.id + 1) = some owner ∧
        tree.Slot owner Frame.resultOffset := by
  have hmem : x ∈ skeleton.declared := occurs.declared_sublist.subset (by
    rw [Skeleton.declared_eq]
    exact List.mem_append_left _ hx)
  have herased := program.erased_eq x hmem
  rw [hdecl, Option.map_some, Option.some.injEq] at herased
  have hkindErased : decl.kind.erased = (DeclKind.routine heading).erased := by
    rw [← hkind]
    exact congrArg Decl.kind herased
  obtain ⟨result, hrouting⟩ := DeclKind.eq_routine_of_erased_eq hkindErased
  rw [hrouting] at hallows
  cases hallows with
  | assignResult isFunction hasBody isWithin =>
      obtain ⟨site', inner, innerOccurs, rfl, howns, hlevel⟩ :=
        program.exists_framedBody occurs hx hdecl hrouting hframed hasBody
      rw [← hlevel]
      have hchain : inner.id ∈ tree.chain inside.id := List.contains_iff_mem.mp isWithin
      obtain ⟨hle, hsame⟩ := program.frameAt_of_mem_chain withinOccurs hchain
      have hpos : 1 ≤ tree.frameLevel inner.id := program.one_le_frameLevel innerOccurs
      refine ⟨hle, inner.id, ?_, ?_⟩
      · rw [hsame _ hpos (Nat.le_refl _), program.frameAt_frameLevel innerOccurs,
          Site.frameOwner_entered, howns]
        rfl
      · obtain ⟨frame, hframe, exact_⟩ := program.frameExact innerOccurs howns
        have hbytes := exact_.frameBytes_eq
        apply Tree.Slot.inside hframe _ (Int.le_refl _)
        simp only [Frame.size, Frame.headerBytes, Frame.resultOffset]
        omega

/-- What a name that is used in the statements of a block leads to may be used so. -/
theorem exists_allows (program : CheckedProgram outline skeleton tree) {id : BlockId}
    {block : Block} (hblock : tree.blocks[id]? = some block) {use : Use}
    (huse : use ∈ Statement.usesAll block.statements) :
    ∃ found decl, use.2.decl? = some found ∧ tree.decls[found]? = some decl ∧
      use.1.Allows tree id decl.kind := by
  have hlibrary : id ≠ libraryBlock := by
    rintro rfl
    obtain rfl := Option.some.inj (program.library_eq.symm.trans hblock)
    exact absurd huse List.not_mem_nil
  obtain ⟨site, body, occurs, rfl, checked⟩ := program.exists_occurs
    (program.mem_blockIds hlibrary (Array.getElem?_eq_some_iff.mp hblock).1)
  obtain ⟨statements, hfound, -, hbound⟩ := checked.node.block
  obtain rfl := Option.some.inj (hfound.symm.trans hblock)
  obtain ⟨found, decl, hdecl?, -, hdecl, hobjection⟩ := hbound use huse
  exact ⟨found, decl, hdecl?, hdecl, NameUse.objection?_eq_none_iff.mp hobjection⟩

/-- A block that assigns to a name stores to a slot of a frame of a block around it. -/
theorem storesTo_of_target (program : CheckedProgram outline skeleton tree) {id : BlockId}
    {block : Block} (hblock : tree.blocks[id]? = some block) {ref : NameRef}
    (huse : (.target, ref) ∈ Statement.usesAll block.statements) {found : DeclId}
    (hfound : ref.decl? = some found) {layout : Layout}
    (hlayout : tree.layout? found = some layout) : tree.StoresTo id layout := by
  have hlibrary : id ≠ libraryBlock := by
    rintro rfl
    obtain rfl := Option.some.inj (program.library_eq.symm.trans hblock)
    exact absurd huse List.not_mem_nil
  obtain ⟨site, inside, within, rfl, -⟩ := program.exists_occurs
    (program.mem_blockIds hlibrary (Array.getElem?_eq_some_iff.mp hblock).1)
  rcases program.exists_declaring hblock huse hfound with
    ⟨x, hx, rfl⟩ | ⟨site', body, occurs, hchain, x, hx, rfl⟩
  · rw [program.layout?_library hx] at hlayout
    cases hlayout
  · obtain ⟨hle, hsame⟩ := program.frameAt_of_mem_chain within hchain
    have hpos : 1 ≤ tree.frameLevel body.id := program.one_le_frameLevel occurs
    rcases program.layout?_cases occurs hx hlayout with
      ⟨hlevel, hslot⟩ | ⟨rfl, heading, hkind, hframed⟩
    · rw [Tree.StoresTo, hlevel]
      refine ⟨hpos, hle, _, ?_, hslot⟩
      rw [hsame _ hpos (Nat.le_refl _)]
      exact program.frameAt_frameLevel occurs
    · obtain ⟨found, decl, hdecl?, hdecl, hallows⟩ := program.exists_allows hblock huse
      obtain rfl := Option.some.inj (hdecl?.symm.trans hfound)
      obtain ⟨hle, hslot⟩ := program.slot_of_result within occurs hx hkind hframed hdecl hallows
      exact ⟨Nat.le_add_left 1 _, hle, hslot⟩

/-- A body without a frame of its own that is seen from a block lies in frames around the
block. -/
theorem frameAt_of_shared (program : CheckedProgram outline skeleton tree) {block inner : BlockId}
    (hblock : block ∈ skeleton.blockIds) (hsees : tree.Sees block inner)
    (hshared : tree.isFramed inner = false) :
    tree.frameLevel inner ≤ tree.frameLevel block ∧
      ∀ level, 1 ≤ level → level ≤ tree.frameLevel inner →
        tree.frameAt inner level = tree.frameAt block level := by
  obtain ⟨outer, hchain, henclosing⟩ := hsees
  obtain ⟨site, body, occurs, rfl, -⟩ := program.exists_occurs hblock
  obtain ⟨hle, hsame⟩ := program.frameAt_of_mem_chain occurs hchain
  have hlevel := program.frameLevel_of_enclosing? henclosing
  rw [hshared] at hlevel
  change tree.frameLevel inner = tree.frameLevel outer at hlevel
  rw [hlevel]
  refine ⟨hle, fun level hpos hhigh => ?_⟩
  rw [Tree.frameAt_eq program.descends henclosing, hshared, hsame level hpos hhigh]
  rfl

/-- A block with a frame of its own owns the frame of its level. -/
theorem frameAt_self (program : CheckedProgram outline skeleton tree) {block : BlockId}
    (hblock : block ∈ skeleton.blockIds) (hframed : tree.isFramed block = true) :
    tree.frameAt block (tree.frameLevel block) = some block := by
  obtain ⟨site, body, occurs, rfl, -⟩ := program.exists_occurs hblock
  have hself := program.frameAt_frameLevel occurs
  rw [program.isFramed_eq occurs] at hframed
  rw [Site.frameOwner_entered, hframed] at hself
  exact hself

/-- A body with a frame of its own that is seen from a block has all other frames around it
in common with the block. -/
theorem frameAt_of_framed (program : CheckedProgram outline skeleton tree) {block inner : BlockId}
    (hblock : block ∈ skeleton.blockIds) (hsees : tree.Sees block inner)
    (hframed : tree.isFramed inner = true) :
    tree.frameLevel inner ≤ tree.frameLevel block + 1 ∧
      ∀ level, 1 ≤ level → level < tree.frameLevel inner →
        tree.frameAt inner level = tree.frameAt block level := by
  obtain ⟨outer, hchain, henclosing⟩ := hsees
  obtain ⟨site, body, occurs, rfl, -⟩ := program.exists_occurs hblock
  obtain ⟨hle, hsame⟩ := program.frameAt_of_mem_chain occurs hchain
  have hlevel := program.frameLevel_of_enclosing? henclosing
  rw [hframed, if_pos rfl] at hlevel
  refine ⟨hlevel ▸ Nat.succ_le_succ hle, fun level hpos hhigh => ?_⟩
  have hne : (tree.frameLevel inner == level) = false := beq_false_of_ne (Nat.ne_of_gt hhigh)
  rw [Tree.frameAt_eq program.descends henclosing, hframed, hne, hsame level hpos (by omega)]
  rfl

/-- The uses of names in the statements of a block are what its code relies on. -/
theorem serves (program : CheckedProgram outline skeleton tree) {id : BlockId}
    {block : Block} (hblock : tree.blocks[id]? = some block) {use : Use}
    (huse : use ∈ Statement.usesAll block.statements) : tree.Serves id use where
  target htarget found layout hfound hlayout := by
    obtain ⟨name, ref⟩ := use
    obtain rfl : name = .target := htarget
    exact program.storesTo_of_target hblock huse hfound hlayout
  call args hargs found body hfound hbodyOf := by
    refine ⟨program.exists_enclosing?_of_use hblock huse hfound hbodyOf, ?_⟩
    obtain ⟨found', decl, hdecl?, hdecl, hallows⟩ := program.exists_allows hblock huse
    obtain rfl := Option.some.inj (hdecl?.symm.trans hfound)
    rw [Tree.bodyOf?, hdecl, Option.bind_some] at hbodyOf
    obtain ⟨heading, hheading, hbody⟩ := Option.bind_eq_some_iff.mp hbodyOf
    have hkind := DeclKind.routine?_eq_some_iff.mp hheading
    obtain ⟨around, root, before, inner, after, routine, hparams, rfl⟩ :=
      program.exists_routine hdecl hkind hbody
    have hcount : (tree.paramsOf inner.id).length = heading.params.length := by
      rw [program.paramsOf_eq (.body routine.occurs), hparams]
    rw [hcount]
    rw [hkind] at hallows
    obtain ⟨name, ref⟩ := use
    cases hallows with
    | readFunction isFunction noParams =>
        obtain rfl := Option.some.inj hargs
        rw [noParams]
        rfl
    | call count => exact count.trans (Option.some.inj hargs)
    | callBuiltin builtin =>
        rw [Routine.isBuiltin, hbody] at builtin
        cases builtin
    | assignResult => cases hargs

end CheckedProgram

end MiniPascal
