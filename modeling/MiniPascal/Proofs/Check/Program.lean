import MiniPascal.Proofs.Check.Block
import MiniPascal.Proofs.Tree.Numbering
import Mathlib.Data.List.Perm.Subperm

/-!
# Checking programs

The tree of an outline is checked inside the library.  Its check ends with every
block of its skeleton checked, or with a diagnostic for the author of the program.
-/

namespace MiniPascal

/-! ### The library -/

namespace Library

def numberFrom (first : DeclId) : List Decl → List Numbered
  | [] => []
  | decl :: others => ⟨first, decl⟩ :: numberFrom (first + 1) others

/-- The declarations of the library, numbered after those of a program. -/
def numbered (first : DeclId) : List Numbered :=
  numberFrom first decls

theorem map_decl_numberFrom (first : DeclId) (decls : List Decl) :
    (numberFrom first decls).map Numbered.decl = decls := by
  induction decls generalizing first with
  | nil => rfl
  | cons decl others ih => rw [numberFrom, List.map_cons, ih]

theorem length_numberFrom (first : DeclId) (decls : List Decl) :
    (numberFrom first decls).length = decls.length := by
  rw [← List.length_map Numbered.decl, map_decl_numberFrom]

theorem id_lt_of_mem_numberFrom {first : DeclId} {decls : List Decl} {x : Numbered}
    (h : x ∈ numberFrom first decls) : first ≤ x.id ∧ x.id < first + decls.length := by
  induction decls generalizing first with
  | nil => cases h
  | cons decl others ih =>
      rw [List.length_cons]
      rcases List.mem_cons.mp h with rfl | h
      · exact ⟨Nat.le_refl _, Nat.lt_add_of_pos_right (Nat.succ_pos _)⟩
      · obtain ⟨hlow, hhigh⟩ := ih h
        exact ⟨Nat.le_of_succ_le hlow,
          Nat.lt_of_lt_of_eq hhigh (Nat.add_right_comm first 1 others.length)⟩

theorem exists_of_id {first : DeclId} {decls : List Decl} {id : DeclId} (hlow : first ≤ id)
    (hhigh : id < first + decls.length) : ∃ x ∈ numberFrom first decls, x.id = id := by
  induction decls generalizing first with
  | nil => exact absurd hhigh (Nat.not_lt.mpr hlow)
  | cons decl others ih =>
      rcases Nat.eq_or_lt_of_le hlow with rfl | hlow
      · exact ⟨_, List.mem_cons_self, rfl⟩
      · obtain ⟨x, hx, hid⟩ := @ih (first + 1) hlow
          (Nat.lt_of_lt_of_eq hhigh (Nat.add_right_comm first others.length 1))
        exact ⟨x, List.mem_cons_of_mem _ hx, hid⟩

/-- No routine of the library has a body. -/
theorem body_eq_none : ∀ decl ∈ decls, decl.kind.routine?.bind Routine.body = none := by
  decide

/-- Nothing in the library mentions another declaration. -/
theorem mentions_nothing : ∀ decl ∈ decls,
    decl.kind.params ++ Check.literalsOf decl.kind = [] := by
  decide

def names (first : DeclId) : String → Option DeclId :=
  namesIn (numbered first) fun _ => none

def site (first : DeclId) : Site where
  level := Scope.library.current
  names := names first

end Library

namespace Check

/-- Some declarations of the library were added to a tree. -/
structure LibraryDeclared (before : Tree) (done : List Numbered) (tree : Tree) : Prop where
  name_eq : tree.name = before.name
  line_eq : tree.line = before.line
  body_eq : tree.body = before.body
  block_eq : ∀ id ≠ libraryBlock, tree.blocks[id]? = before.blocks[id]?
  library_eq : tree.blocks[libraryBlock]? =
    some { Block.bare none libraryLine with table := tableOf done }
  blocks_size : tree.blocks.size = before.blocks.size
  decls_size : tree.decls.size = before.decls.size + done.length
  decl_eq : ∀ id < before.decls.size, tree.decls[id]? = before.decls[id]?
  declared : ∀ x ∈ done, x.id < tree.decls.size ∧
    tree.decls[x.id]? = some { x.decl with level? := some 0 }

variable {state : Checking} {before : Tree} {done : List Numbered}

theorem ends_declareLibrary (h : LibraryDeclared before done state.tree) {decl : Decl}
    (hlevel : decl.level? = none) (hname : decl.name ∉ done.map (·.decl.name))
    {failed : Diagnostic → Checking → Prop} :
    Ends (declareLibrary decl) state
      (fun _ final => final.scope = state.scope ∧ final.tree.checked = state.tree.checked ∧
        LibraryDeclared before (done ++ [⟨state.tree.decls.size, decl⟩]) final.tree)
      failed := by
  have hadded : (state.tree.addDecl decl).2.decls[state.tree.decls.size]? = some decl :=
    Array.getElem?_push_size
  have hleveled := Tree.getElem?_decls_setDecl hadded { decl with level? := some 0 }
  refine ends_bind (ends_get (ends_bind (ends_modify (ends_bind (ends_onTree
    (Tree.assignLevel_eq_ok hadded hlevel 0) ?_)))))
  have hstep := Tree.declare_eq hleveled h.library_eq
  have hfresh : ¬((tableOf done).lookup decl.name).isSome := by
    rw [lookup_tableOf_eq_none_iff.mpr hname]
    exact Bool.false_ne_true
  refine ends_onTree (hstep.trans (if_neg hfresh)) ⟨rfl, rfl, ?_⟩
  have hold : ∀ id < state.tree.decls.size, ((state.tree.addDecl decl).2.setDecl
      state.tree.decls.size { decl with level? := some 0 }).decls[id]? = state.tree.decls[id]? := by
    intro id hid
    rw [Tree.setDecl, Tree.getElem?_decls_modifyDecl, if_neg (Nat.ne_of_gt hid), Tree.addDecl,
      Array.getElem?_push_lt hid, Array.getElem?_eq_getElem hid]
  constructor
  case name_eq => exact h.name_eq
  case line_eq => exact h.line_eq
  case body_eq => exact h.body_eq
  case block_eq =>
    intro id hid
    rw [Tree.getElem?_blocks_modifyBlock, if_neg (Ne.symm hid)]
    exact h.block_eq id hid
  case library_eq =>
    refine (Tree.getElem?_blocks_modifyBlock_self h.library_eq).trans ?_
    rw [tableOf_append_singleton]
  case blocks_size =>
    refine Eq.trans ?_ h.blocks_size
    exact Array.size_modify
  case decls_size =>
    have hsize : ((state.tree.decls.push decl).modify state.tree.decls.size
        fun _ => { decl with level? := some 0 }).size = state.tree.decls.size + 1 := by
      rw [Array.size_modify, Array.size_push]
    rw [List.length_append, List.length_singleton, ← Nat.add_assoc, ← h.decls_size]
    exact hsize
  case decl_eq =>
    intro id hid
    have hlt : id < state.tree.decls.size := by
      rw [h.decls_size]
      omega
    exact (hold id hlt).trans (h.decl_eq id hid)
  case declared =>
    have hsize : state.tree.decls.size < ((state.tree.addDecl decl).2.setDecl
        state.tree.decls.size { decl with level? := some 0 }).decls.size := by
      simp [Tree.setDecl, Tree.modifyDecl, Tree.addDecl]
    intro x hx
    rcases List.mem_append.mp hx with hx | hx
    · obtain ⟨hlt, hfound⟩ := h.declared x hx
      exact ⟨Nat.lt_trans hlt hsize, (hold x.id hlt).trans hfound⟩
    · obtain rfl := List.mem_singleton.mp hx
      exact ⟨hsize, hleveled⟩

theorem ends_declareLibraryAll (h : LibraryDeclared before done state.tree) {decls : List Decl}
    (hlevels : ∀ decl ∈ decls, decl.level? = none)
    (hnames : (done.map (·.decl.name) ++ decls.map Decl.name).Nodup)
    {failed : Diagnostic → Checking → Prop} :
    Ends (decls.forM declareLibrary) state
      (fun _ final => final.scope = state.scope ∧ final.tree.checked = state.tree.checked ∧
        LibraryDeclared before
          (done ++ Library.numberFrom (before.decls.size + done.length) decls) final.tree)
      failed := by
  induction decls generalizing state done with
  | nil =>
      rw [Library.numberFrom, List.append_nil]
      exact ends_pure ⟨rfl, rfl, h⟩
  | cons decl decls ih =>
      obtain ⟨hlevel, hlevels⟩ := List.forall_mem_cons.mp hlevels
      have hname : decl.name ∉ done.map (·.decl.name) := fun hmem =>
        (List.nodup_append'.mp hnames).2.2 hmem List.mem_cons_self
      refine ends_bind ((ends_declareLibrary h hlevel hname).mono ?_)
      rintro _ middle ⟨hscope, hchecked, hmiddle⟩
      rw [h.decls_size] at hmiddle
      refine (ih hmiddle hlevels ?_).mono ?_
      · rw [List.map_append, List.append_assoc]
        exact hnames
      · rintro _ final ⟨hscope', hchecked', hfinal⟩
        refine ⟨hscope'.trans hscope, hchecked'.trans hchecked, ?_⟩
        rw [List.append_assoc, List.length_append] at hfinal
        exact hfinal

end Check

/-! ### The program -/

namespace Skeleton

/-- Every block but the outermost lies in another one. -/
theorem WellFormed.enclosing_of_mem {skeleton : Skeleton} (wellFormed : skeleton.WellFormed) :
    ∀ node ∈ skeleton.nodes, node = skeleton.root ∨
      ∃ outer ∈ skeleton.blockIds, node.block.enclosing? = some outer ∧ outer < node.id := by
  induction wellFormed with
  | @mk root inner _ bodies _ _ ih =>
      intro node hnode
      rw [nodes_eq] at hnode
      rcases List.mem_cons.mp hnode with rfl | hnode
      · exact .inl rfl
      · refine .inr ?_
        rw [nodesAll_eq_flatMap] at hnode
        obtain ⟨body, hbody, hnode⟩ := List.mem_flatMap.mp hnode
        rcases ih body hbody node hnode with rfl | ⟨outer, houter, hrest⟩
        · obtain ⟨routine, -, hrelated⟩ := exists_of_forall₂_left bodies hbody
          exact ⟨root.id, List.mem_cons_self, hrelated.2.1, hrelated.2.2.1⟩
        · refine ⟨outer, ?_, hrest⟩
          rw [blockIds_eq]
          exact List.mem_cons_of_mem _ (List.mem_flatMap.mpr ⟨body, hbody, houter⟩)

/-- Nothing that is declared is annotated yet. -/
theorem WellFormed.decl_bare {skeleton : Skeleton} (wellFormed : skeleton.WellFormed) :
    ∀ x ∈ skeleton.declared, x.decl = .bare x.decl.name x.decl.line x.decl.kind := by
  induction wellFormed with
  | @mk root inner root_wellFormed _ _ _ ih =>
      intro x hx
      rw [declared_eq] at hx
      rcases List.mem_append.mp hx with hx | hx
      · exact root_wellFormed.decl_bare x hx
      · obtain ⟨body, hbody, hx⟩ := List.mem_flatMap.mp hx
        exact ih body hbody x hx

end Skeleton

namespace Outline.HasSkeleton

variable {outline : Outline} {skeleton : Skeleton}

theorem root_enclosing (h : HasSkeleton outline skeleton) :
    skeleton.root.block.enclosing? = some libraryBlock :=
  congrArg MiniPascal.Block.enclosing? h.block_eq

theorem descends (h : HasSkeleton outline skeleton) : (Tree.ofOutline outline).Descends := by
  intro id outer houter
  have hlt := Tree.lt_size_of_enclosing? houter
  rw [Tree.enclosing?] at houter
  rcases h.block_mem id hlt with rfl | hid
  · rw [h.library] at houter
    cases houter
  · have hlibrary := h.libraryBlock_lt id hid
    obtain ⟨node, hnode, rfl⟩ := List.mem_map.mp hid
    rw [h.block node hnode, Option.bind_some] at houter
    rcases h.wellFormed.enclosing_of_mem node hnode with rfl | ⟨found, -, hfound, hless⟩
    · rw [h.root_enclosing] at houter
      obtain rfl := Option.some.inj houter
      exact hlibrary
    · rw [hfound] at houter
      obtain rfl := Option.some.inj houter
      exact hless

/-- The number of blocks bounds how deep they are nested. -/
theorem length_nodes_le (h : HasSkeleton outline skeleton) :
    skeleton.nodes.length ≤ (Tree.ofOutline outline).blocks.size := by
  have hsubset : skeleton.blockIds ⊆ List.range (Tree.ofOutline outline).blocks.size := by
    intro id hid
    obtain ⟨node, hnode, rfl⟩ := List.mem_map.mp hid
    exact List.mem_range.mpr (Array.getElem?_eq_some_iff.mp (h.block node hnode)).1
  have hle := (List.Nodup.subperm h.blockIds_nodup hsubset).length_le
  rwa [Skeleton.blockIds, List.length_map, List.length_range] at hle

end Outline.HasSkeleton

/-- The tree is what a check of an outline's tree ends well with. -/
structure CheckedProgram (outline : Outline) (skeleton : Skeleton) (tree : Tree) : Prop where
  hasSkeleton : Outline.HasSkeleton outline skeleton
  checked_eq : tree.checked = true
  name_eq : tree.name = outline.name
  body_eq : tree.body = skeleton.id
  descends : tree.Descends
  decls_size : tree.decls.size = (Tree.ofOutline outline).decls.size + Library.decls.length
  blocks_size : tree.blocks.size = (Tree.ofOutline outline).blocks.size
  library_eq : tree.blocks[libraryBlock]? = some { Block.bare none libraryLine with
    table := tableOf (Library.numbered (Tree.ofOutline outline).decls.size) }
  declared : ∀ x ∈ Library.numbered (Tree.ofOutline outline).decls.size,
    tree.decls[x.id]? = some { x.decl with level? := some 0 }
  erased_eq : ∀ x ∈ skeleton.declared, tree.decls[x.id]?.map Decl.erased = some x.decl.erased
  checked : skeleton.Checked tree (Library.site (Tree.ofOutline outline).decls.size)

namespace Check

variable {outline : Outline} {skeleton : Skeleton} {state : Checking}

/-- The blocks enclose each other as before. -/
theorem LibraryDeclared.enclosing?_eq (h : Outline.HasSkeleton outline skeleton)
    {declared : List Numbered} {tree : Tree}
    (library : LibraryDeclared (Tree.ofOutline outline) declared tree) (id : BlockId) :
    tree.enclosing? id = (Tree.ofOutline outline).enclosing? id := by
  rw [Tree.enclosing?, Tree.enclosing?]
  by_cases hid : id = libraryBlock
  · subst hid
    rw [library.library_eq, h.library]
    rfl
  · rw [library.block_eq id hid]

/-- With the library declared, the program can be checked. -/
theorem LibraryDeclared.ready (h : Outline.HasSkeleton outline skeleton)
    (library : LibraryDeclared (Tree.ofOutline outline)
      (Library.numbered (Tree.ofOutline outline).decls.size) state.tree)
    (hscope : state.scope = .library) :
    ReadyAll state (Library.site (Tree.ofOutline outline).decls.size) libraryBlock [skeleton] := by
  have hne : ∀ node ∈ skeleton.nodes, node.id ≠ libraryBlock := fun node hnode =>
    Nat.ne_of_gt (h.libraryBlock_lt _ (List.mem_map_of_mem hnode))
  have hblock : ∀ node ∈ skeleton.nodes, state.tree.blocks[node.id]? = some node.block :=
    fun node hnode => (library.block_eq node.id (hne node hnode)).trans (h.block node hnode)
  have hdescends : state.tree.Descends := by
    intro id outer houter
    exact h.descends id outer (library.enclosing?_eq h id ▸ houter)
  constructor
  case level_eq => rw [hscope]; rfl
  case names_eq =>
    funext name
    have haround : state.tree.lookupAround libraryBlock name = none := by
      rw [Tree.lookupAround, Tree.enclosing?, library.library_eq]
      rfl
    have htable : state.tree.tableAt libraryBlock =
        tableOf (Library.numbered (Tree.ofOutline outline).decls.size) := by
      rw [Tree.tableAt, library.library_eq]
      rfl
    rw [Tree.lookup_eq hdescends, haround, htable]
    rfl
  case enclosing_eq =>
    intro body hbody
    obtain rfl := List.mem_singleton.mp hbody
    rw [Tree.enclosing?, hblock _ (Skeleton.root_mem_nodes _)]
    exact h.root_enclosing
  case descends => exact hdescends
  case inRange =>
    intro name id hname
    rcases Option.or_eq_some_iff.mp hname with hfound | ⟨-, hnone⟩
    · obtain ⟨x, hx, -, rfl⟩ := exists_of_lookup_tableOf hfound
      exact (library.declared x hx).1
    · cases hnone
  case block_eq =>
    rw [List.flatMap_singleton]
    exact hblock
  case awaits =>
    rw [List.flatMap_singleton]
    intro x hx
    have hfound := h.decl x hx
    have hbare := h.wellFormed.decl_bare x hx
    refine ⟨x.decl, ?_, rfl, congrArg Decl.level? hbare, congrArg Decl.layout? hbare⟩
    rw [library.decl_eq _ (Array.getElem?_eq_some_iff.mp hfound).1, hfound]
  case declIds_nodup =>
    rw [List.flatMap_singleton]
    exact h.declIds_nodup
  case blockIds_nodup =>
    rw [List.flatMap_singleton]
    exact h.blockIds_nodup
  case wellFormed =>
    intro body hbody
    obtain rfl := List.mem_singleton.mp hbody
    exact h.wellFormed

/-- With all its blocks checked inside the library, the program is checked. -/
theorem checkedProgram_of_finished {opened final : Checking}
    (h : Outline.HasSkeleton outline skeleton)
    (library : LibraryDeclared (Tree.ofOutline outline)
      (Library.numbered (Tree.ofOutline outline).decls.size) opened.tree)
    (hdescends : opened.tree.Descends)
    (finished : FinishedAll opened (Library.site (Tree.ofOutline outline).decls.size) [skeleton]
      final) :
    CheckedProgram outline skeleton { final.tree with checked := true } := by
  have advances := finished.advances
  rw [List.flatMap_singleton, List.flatMap_singleton] at advances
  have hsize : ∀ x ∈ skeleton.declared, x.id < (Tree.ofOutline outline).decls.size := fun x hx =>
    (Array.getElem?_eq_some_iff.mp (h.decl x hx)).1
  have hlength : (Library.numbered (Tree.ofOutline outline).decls.size).length =
      Library.decls.length := Library.length_numberFrom _ _
  constructor
  case hasSkeleton => exact h
  case checked_eq => rfl
  case name_eq => exact (congrArg Tree.name advances.erased_eq).trans library.name_eq
  case body_eq =>
    exact ((congrArg Tree.body advances.erased_eq).trans library.body_eq).trans h.id_eq.symm
  case descends => exact hdescends.of_erased_eq advances.erased_eq
  case decls_size =>
    rw [← hlength, ← library.decls_size]
    exact Tree.size_decls_of_erased_eq advances.erased_eq
  case blocks_size =>
    rw [← library.blocks_size]
    exact Tree.size_blocks_of_erased_eq advances.erased_eq
  case library_eq =>
    refine (advances.block libraryBlock fun hmem => ?_).trans library.library_eq
    exact absurd (h.libraryBlock_lt _ hmem) (Nat.lt_irrefl _)
  case declared =>
    intro x hx
    have hlow := (Library.id_lt_of_mem_numberFrom hx).1
    have hnot : x.id ∉ skeleton.declIds := by
      intro hmem
      obtain ⟨y, hy, heq⟩ := List.mem_map.mp hmem
      exact absurd (heq ▸ hsize y hy) (Nat.not_lt.mpr hlow)
    exact (advances.decl_eq hnot hnot).trans (library.declared x hx).2
  case erased_eq =>
    intro x hx
    refine (Tree.decl_of_erased_eq advances.erased_eq x.id).trans ?_
    rw [library.decl_eq _ (hsize x hx), h.decl x hx, Option.map_some]
  case checked =>
    exact (Tree.Advances.mark final.tree).checked _ skeleton (fun _ _ => List.not_mem_nil)
      (fun _ _ => List.not_mem_nil) (fun _ _ => List.not_mem_nil) finished.checked.1

/-- But for annotations, the tree is that of the outline with the library added. -/
def Underway (outline : Outline) (tree : Tree) : Prop :=
  ∃ opened, LibraryDeclared (Tree.ofOutline outline)
    (Library.numbered (Tree.ofOutline outline).decls.size) opened ∧ tree.erased = opened.erased

/-- The library is declared before the program is checked. -/
theorem ends_library (h : Outline.HasSkeleton outline skeleton)
    (htree : state.tree = Tree.ofOutline outline) {failed : Diagnostic → Checking → Prop} :
    Ends (Library.decls.forM declareLibrary) state
      (fun _ opened => opened.scope = state.scope ∧ LibraryDeclared (Tree.ofOutline outline)
        (Library.numbered (Tree.ofOutline outline).decls.size) opened.tree)
      failed := by
  have hnone : LibraryDeclared (Tree.ofOutline outline) [] state.tree := by
    rw [htree]
    exact ⟨rfl, rfl, rfl, fun _ _ => rfl, h.library, rfl, rfl, fun _ _ => rfl,
      fun _ hx => absurd hx List.not_mem_nil⟩
  have hlevels : ∀ decl ∈ Library.decls, decl.level? = none := by
    decide
  have hnames : (([] : List Numbered).map (·.decl.name) ++ Library.decls.map Decl.name).Nodup := by
    decide
  exact (ends_declareLibraryAll hnone hlevels hnames).mono fun _ _ done => ⟨done.1, done.2.2⟩

/-- The program is checked as the block that its skeleton begins with. -/
theorem LibraryDeclared.block_eq_block {opened : Tree} (h : Outline.HasSkeleton outline skeleton)
    (library : LibraryDeclared (Tree.ofOutline outline)
      (Library.numbered (Tree.ofOutline outline).decls.size) opened) :
    opened.body = skeleton.id ∧ skeleton.root.params.map Numbered.id = [] ∧
      skeleton.root.ownsFrame = true ∧ skeleton.nodes.length ≤ opened.blocks.size + 1 := by
  refine ⟨library.body_eq.trans h.id_eq.symm, ?_, ?_, ?_⟩
  · rw [h.params_eq]
    rfl
  · rw [Node.ownsFrame, h.program]
    rfl
  · exact Nat.le_succ_of_le (library.blocks_size ▸ h.length_nodes_le)

/-- A check of a program ends well, with everything checked, or it is refused since
the program does not meet the demands; either way it only annotates. -/
theorem ends_program (h : Outline.HasSkeleton outline skeleton)
    (htree : state.tree = Tree.ofOutline outline) (hscope : state.scope = .library) :
    Ends program state
      (fun _ final => Underway outline final.tree ∧ CheckedProgram outline skeleton final.tree)
      (fun diagnostic final => Underway outline final.tree ∧ diagnostic.isUserLevel = true ∧
        ¬skeleton.Legal final.tree (Library.site (Tree.ofOutline outline).decls.size)) := by
  refine ends_bind ((ends_library h htree).mono ?_)
  rintro _ opened ⟨hscope', library⟩
  have ready := library.ready h (hscope'.trans hscope)
  obtain ⟨hbody, hparams, howns, hdepth⟩ := library.block_eq_block h
  have hends := ends_block h.wellFormed (opened.tree.blocks.size + 1) opened
    (Library.site (Tree.ofOutline outline).decls.size) libraryBlock opened.tree.name hdepth ready
  rw [hparams, howns, ← hbody] at hends
  refine ends_bind (ends_get (ends_bind ((hends.mono ?_).mono_failed ?_)))
  · intro _ final finished
    exact ends_modify ⟨⟨opened.tree, library, finished.advances.erased_eq⟩,
      checkedProgram_of_finished h library ready.descends finished⟩
  · intro diagnostic final refused
    have herased := refused.2.1
    exact ⟨⟨opened.tree, library, herased⟩, refused.1,
      fun legal => refused.2.2 (legal.of_erased_eq herased.symm)⟩

end Check

/-- A check of the tree of an outline ends well, with everything checked, or with
a diagnostic for the author of the program, which does not meet the demands; either way
it only annotates. -/
theorem Tree.check_outcome {outline : Outline} {skeleton : Skeleton}
    (h : Outline.HasSkeleton outline skeleton) (log : Log) :
    Check.Underway outline ((Tree.ofOutline outline).check log).tree ∧
    match ((Tree.ofOutline outline).check log).result with
    | .ok () => CheckedProgram outline skeleton ((Tree.ofOutline outline).check log).tree
    | .error diagnostic => diagnostic.isUserLevel = true ∧
        ¬skeleton.Legal ((Tree.ofOutline outline).check log).tree
          (Library.site (Tree.ofOutline outline).decls.size) := by
  have hends := @Check.ends_program outline skeleton
    { tree := .ofOutline outline, scope := .library, log } h rfl rfl
  unfold Check.Ends at hends
  have hunchecked : ¬(Tree.ofOutline outline).checked = true := Bool.false_ne_true
  rw [Tree.check, if_neg hunchecked]
  cases hrun : Check.program.run { tree := .ofOutline outline, scope := .library, log } with
  | ok _ final =>
      rw [hrun] at hends
      exact hends
  | error diagnostic final =>
      rw [hrun] at hends
      exact hends

end MiniPascal
