import MiniPascal.Proofs.Check.Erased
import MiniPascal.Proofs.Check.Occurs
import MiniPascal.Proofs.Check.Recording
import MiniPascal.Proofs.Tree.Passages

/-!
# References of a checked program

A tree under check holds the skeleton of its outline, and the library uses no names.  So its
passages are distinct, and its references are all the uses of names there are.  A check that
ends well adds one line for each of them.
-/

namespace MiniPascal

namespace Library

theorem uses_eq_nil : ∀ decl ∈ decls, decl.kind.uses = [] := by
  decide

theorem line_eq : ∀ decl ∈ decls, decl.line = libraryLine := by
  decide

end Library

namespace Skeleton.HeldBy

variable {tree : Tree} {skeleton : Skeleton}

theorem of_occurs (held : skeleton.HeldBy tree) {site around : Site} {body : Skeleton}
    (occurs : Skeleton.Occurs site skeleton around body) : body.HeldBy tree where
  block node hnode := held.block node (occurs.nodes_sublist.subset hnode)
  kind x hx := by
    obtain ⟨node, hnode, hx⟩ := List.mem_flatMap.mp hx
    exact held.kind x (List.mem_flatMap.mpr ⟨node, occurs.nodes_sublist.subset hnode, hx⟩)

theorem isParameter_iff (held : skeleton.HeldBy tree) {x : Numbered} (hx : x ∈ skeleton.declared) :
    tree.IsParameter x.id ↔ ∃ ref, x.decl.kind = .parameter ref := by
  obtain ⟨kind, hkind, herased⟩ := Option.map_eq_some_iff.mp (held.kind x hx)
  obtain ⟨decl, hdecl, rfl⟩ := Option.map_eq_some_iff.mp hkind
  constructor
  · rintro ⟨found, ref, hfound, href⟩
    obtain rfl := Option.some.inj (hdecl.symm.trans hfound)
    rw [href] at herased
    exact DeclKind.eq_parameter_of_erased_eq herased.symm
  · rintro ⟨ref, href⟩
    rw [href] at herased
    obtain ⟨ref', hparameter⟩ := DeclKind.eq_parameter_of_erased_eq herased
    exact ⟨decl, ref', hdecl, hparameter⟩

/-- What a block declares is no parameter, and its routines have parameters. -/
theorem parametersApart (held : skeleton.HeldBy tree) (wellFormed : skeleton.WellFormed)
    (hnodup : skeleton.declIds.Nodup) :
    ∀ id ∈ tree.declarationsOf skeleton.id, ¬tree.IsParameter id ∧
      ∀ param ∈ tree.parametersOf id, tree.IsParameter param := by
  obtain ⟨root, inner⟩ := skeleton
  have hdeclarations : tree.declarationsOf root.id = root.entries.map (·.declared.id) :=
    held.declarationsOf_eq (Skeleton.root_mem_nodes _) wellFormed.node
  have hparams := Skeleton.flatMap_parametersOf wellFormed held
    (Skeleton.nodup_entries hnodup)
  intro id hid
  change id ∈ tree.declarationsOf root.id at hid
  rw [hdeclarations] at hid
  constructor
  · obtain ⟨entry, hentry, rfl⟩ := List.mem_map.mp hid
    rw [held.isParameter_iff (Skeleton.declared_mem_of_entry hentry)]
    rintro ⟨ref, href⟩
    exact wellFormed.node.entry_kind' entry hentry ref href
  · intro param hparam
    have hmem := hparams.mem_iff.mp (List.mem_flatMap.mpr ⟨id, hid, hparam⟩)
    obtain ⟨body, hbody, hparam⟩ := List.mem_flatMap.mp hmem
    obtain ⟨x, hx, rfl⟩ := List.mem_map.mp hparam
    have hbodyHeld := held.of_mem_inner hbody
    cases wellFormed with
    | mk _ _ _ inner_wellFormed =>
        refine (hbodyHeld.isParameter_iff ?_).mpr
          ((inner_wellFormed body hbody).node.params_kind x hx)
        rw [Skeleton.declared_eq]
        exact List.mem_append_left _ (List.mem_append_left _ hx)

end Skeleton.HeldBy

namespace Outline.HasSkeleton

variable {outline : Outline} {skeleton : Skeleton}

/-- What is declared neither by itself nor as a parameter is a literal. -/
theorem exists_code (h : HasSkeleton outline skeleton) {x : Numbered}
    (hx : x ∈ skeleton.declared) (hid : x.id ∉ skeleton.ownIds) :
    ∃ code, x.decl.kind = .enumLiteral code := by
  obtain ⟨node, hnode, hmem⟩ := List.mem_flatMap.mp hx
  obtain ⟨_, body, occurs, rfl⟩ := Skeleton.exists_occurs
    (Library.site (Tree.ofOutline outline).decls.size) skeleton node hnode
  have hown : x ∉ body.root.params ++ body.root.entries.map DeclEntry.declared := fun hmem =>
    hid (List.mem_flatMap.mpr ⟨body.root, hnode, List.mem_map_of_mem hmem⟩)
  rw [List.mem_append, not_or] at hown
  obtain ⟨entry, hentry, hxEntry⟩ :=
    List.mem_flatMap.mp ((List.mem_append.mp hmem).resolve_left hown.1)
  rcases List.mem_cons.mp hxEntry with rfl | hliteral
  · exact absurd (List.mem_map_of_mem hentry) hown.2
  · exact (occurs.wellFormed h.wellFormed).node.literals_kind entry hentry x hliteral

end Outline.HasSkeleton

namespace Check.Underway

variable {outline : Outline} {skeleton : Skeleton} {tree : Tree}

theorem erased_eq (h : Outline.HasSkeleton outline skeleton) (underway : Underway outline tree) :
    tree.erased = { (Tree.ofOutline outline).erased with
      decls := (Tree.ofOutline outline).erased.decls ++ Library.decls.toArray } := by
  obtain ⟨opened, library, herased⟩ := underway
  rw [herased, library.erased_eq h]

theorem erased_block (h : Outline.HasSkeleton outline skeleton) (underway : Underway outline tree)
    (id : BlockId) :
    tree.blocks[id]?.map Block.erased = (Tree.ofOutline outline).blocks[id]?.map Block.erased := by
  rw [← Tree.getElem?_blocks_erased, ← Tree.getElem?_blocks_erased, underway.erased_eq h]

/-- The program's declarations come first, and then the library's. -/
theorem erased_decl (h : Outline.HasSkeleton outline skeleton) (underway : Underway outline tree)
    (id : DeclId) :
    tree.decls[id]?.map Decl.erased =
      if id < (Tree.ofOutline outline).decls.size then
        (Tree.ofOutline outline).decls[id]?.map Decl.erased
      else Library.decls[id - (Tree.ofOutline outline).decls.size]? := by
  have hsize : (Tree.ofOutline outline).erased.decls.size = (Tree.ofOutline outline).decls.size :=
    Array.size_map
  rw [← Tree.getElem?_decls_erased, underway.erased_eq h]
  change ((Tree.ofOutline outline).erased.decls ++ Library.decls.toArray)[id]? = _
  rw [Array.getElem?_append, hsize]
  split
  · exact Tree.getElem?_decls_erased ..
  · exact List.getElem?_toArray ..

theorem blocks_size (underway : Underway outline tree) :
    tree.blocks.size = (Tree.ofOutline outline).blocks.size := by
  obtain ⟨opened, library, herased⟩ := underway
  rw [Tree.size_blocks_of_erased_eq herased, library.blocks_size]

theorem heldBy (h : Outline.HasSkeleton outline skeleton) (underway : Underway outline tree) :
    skeleton.HeldBy tree where
  block node hnode := by
    rw [underway.erased_block h, h.block node hnode]
    rfl
  kind x hx := by
    have hdecl := h.decl x hx
    have hsame := underway.erased_decl h x.id
    rw [if_pos (Array.getElem?_eq_some_iff.mp hdecl).1, hdecl] at hsame
    obtain ⟨decl, hfound, herased⟩ := Option.map_eq_some_iff.mp hsame
    rw [Tree.kind?_eq hfound]
    exact congrArg (some ∘ Decl.kind) herased

/-- The parameters of a program's routines are parameters, and what its blocks declare is
not. -/
theorem parametersApart (h : Outline.HasSkeleton outline skeleton)
    (underway : Underway outline tree) : tree.ParametersApart := by
  intro block id hid
  have held := underway.heldBy h
  obtain ⟨found, hfound, hmem⟩ : ∃ found, tree.blocks[block]? = some found ∧
      id ∈ found.declarations := by
    cases hfound : tree.blocks[block]? with
    | none =>
        rw [Tree.declarationsOf, hfound] at hid
        cases hid
    | some found => exact ⟨found, rfl, Tree.declarationsOf_eq hfound ▸ hid⟩
  have hlt := (Array.getElem?_eq_some_iff.mp hfound).1
  rw [underway.blocks_size] at hlt
  rcases h.block_mem block hlt with rfl | hblock
  · have hlibrary := underway.erased_block h libraryBlock
    rw [hfound, h.library] at hlibrary
    have hparts : found.erased.parts = [] :=
      congrArg Block.parts (Option.some.inj hlibrary)
    change found.parts = [] at hparts
    rw [Block.declarations, hparts] at hmem
    cases hmem
  · obtain ⟨node, hnode, rfl⟩ := List.mem_map.mp hblock
    obtain ⟨site, body, occurs, rfl⟩ := Skeleton.exists_occurs
      (Library.site (Tree.ofOutline outline).decls.size) skeleton node hnode
    exact (held.of_occurs occurs).parametersApart (occurs.wellFormed h.wellFormed)
      (occurs.declIds_sublist.nodup h.declIds_nodup) id hid

/-- The passages are those of all that is declared but literals, and those of all blocks. -/
theorem perm_passages (h : Outline.HasSkeleton outline skeleton)
    (underway : Underway outline tree) :
    tree.passages.Perm
      (skeleton.ownIds.map Passage.decl ++ skeleton.blockIds.map Passage.statements) := by
  have hbody : tree.body = skeleton.id := by
    have hsame := congrArg Tree.body (underway.erased_eq h)
    exact hsame.trans h.id_eq.symm
  have hdepth : skeleton.nodes.length ≤ tree.blocks.size + 1 := by
    rw [underway.blocks_size]
    exact Nat.le_succ_of_le h.length_nodes_le
  have hperm := Skeleton.perm_passagesWithin h.wellFormed (underway.heldBy h) h.declIds_nodup hdepth
  rw [h.params_eq] at hperm
  rw [Tree.passages, hbody]
  exact hperm

theorem nodup_passages (h : Outline.HasSkeleton outline skeleton)
    (underway : Underway outline tree) : tree.passages.Nodup := by
  rw [(underway.perm_passages h).nodup_iff, List.nodup_append']
  have hown := skeleton.ownIds_sublist.nodup h.declIds_nodup
  refine ⟨hown.map fun _ _ => Passage.decl.inj,
    h.blockIds_nodup.map fun _ _ => Passage.statements.inj, ?_⟩
  intro passage hdecl hstatements
  obtain ⟨id, -, rfl⟩ := List.mem_map.mp hdecl
  obtain ⟨block, -, hne⟩ := List.mem_map.mp hstatements
  cases hne

/-- Literals and the library use no names. -/
theorem usesAt_eq_nil (h : Outline.HasSkeleton outline skeleton)
    (underway : Underway outline tree) {id : DeclId} (hid : id ∉ skeleton.ownIds) :
    tree.usesAt id = [] := by
  cases hdecl : tree.decls[id]? with
  | none => rw [Tree.usesAt, hdecl]; rfl
  | some decl =>
      have hsame := underway.erased_decl h id
      rw [hdecl] at hsame
      have huses : decl.kind.uses.map Use.erased = [] := by
        rw [← DeclKind.uses_erased]
        split at hsame
        · next hlt =>
            obtain ⟨x, hx, rfl⟩ := List.mem_map.mp (h.decl_mem id hlt)
            obtain ⟨code, hkind⟩ := h.exists_code hx hid
            rw [h.decl x hx] at hsame
            have hkinds : decl.kind.erased = x.decl.kind.erased :=
              congrArg Decl.kind (Option.some.inj hsame)
            rw [hkinds, hkind]
            rfl
        · exact Library.uses_eq_nil decl.erased (List.mem_of_getElem? hsame.symm)
      rw [Tree.usesAt, hdecl]
      exact List.map_eq_nil_iff.mp huses

/-- The references of a program are all the uses of names in its declarations and blocks. -/
theorem perm_references (h : Outline.HasSkeleton outline skeleton)
    (underway : Underway outline tree) :
    tree.references.Perm ((List.range tree.decls.size).flatMap tree.usesAt ++
      (List.range tree.blocks.size).flatMap fun block =>
        Statement.usesAll (tree.statementsOf block)) := by
  have hpassages := (underway.perm_passages h).flatMap_right tree.usesIn
  rw [List.flatMap_append, List.flatMap_map, List.flatMap_map] at hpassages
  refine hpassages.trans (.symm (.append ?_ ?_))
  · refine flatMap_perm_of_subset List.nodup_range
      (skeleton.ownIds_sublist.nodup h.declIds_nodup) ?_ fun id _ hid =>
        underway.usesAt_eq_nil h hid
    intro id hid
    obtain ⟨x, hx, rfl⟩ := List.mem_map.mp (skeleton.ownIds_sublist.subset hid)
    obtain ⟨kind, hkind, -⟩ := Option.map_eq_some_iff.mp ((underway.heldBy h).kind x hx)
    obtain ⟨decl, hdecl, -⟩ := Option.map_eq_some_iff.mp hkind
    exact List.mem_range.mpr (Array.getElem?_eq_some_iff.mp hdecl).1
  · refine flatMap_perm_of_subset List.nodup_range h.blockIds_nodup ?_ fun id hlt hid => ?_
    · intro id hid
      obtain ⟨node, hnode, rfl⟩ := List.mem_map.mp hid
      obtain ⟨block, hblock, -⟩ := Option.map_eq_some_iff.mp ((underway.heldBy h).block node hnode)
      exact List.mem_range.mpr (Array.getElem?_eq_some_iff.mp hblock).1
    · rw [List.mem_range, underway.blocks_size] at hlt
      obtain rfl := (h.block_mem id hlt).resolve_right hid
      have hsame := underway.erased_block h libraryBlock
      rw [h.library] at hsame
      obtain ⟨block, hblock, herased⟩ := Option.map_eq_some_iff.mp hsame
      have hstatements : Statement.erasedAll block.statements = [] :=
        congrArg Block.statements herased
      have huses : (Statement.usesAll block.statements).map Use.erased = [] := by
        rw [← Statement.usesAll_erased, hstatements]
        rfl
      rw [Tree.statementsOf, hblock]
      exact List.map_eq_nil_iff.mp huses

end Check.Underway

/-! ### A whole check -/

namespace Check

variable {outline : Outline} {skeleton : Skeleton} {start : Checking}

/-- Declaring the library adds no lines. -/
theorem ends_library_log (decls : List Decl) (start : Checking) :
    Ends (decls.forM declareLibrary) start (fun _ final => final.log = start.log) anyFailure := by
  induction decls generalizing start with
  | nil => exact ends_pure rfl
  | cons decl others ih =>
      refine ends_bind (ends_bind (ends_get (ends_bind (ends_modify ?_))))
      refine (silent_enter libraryBlock 0 start.tree.decls.size _).mono fun _ middle hmiddle => ?_
      exact (ih middle).mono fun _ final hfinal => hfinal.trans hmiddle.log_eq

/-- A check that ends well adds the lines on all references, in order. -/
theorem ends_program_notes (h : Outline.HasSkeleton outline skeleton)
    (htree : start.tree = Tree.ofOutline outline) (hswitch : start.log.binding = true) :
    Ends program start
      (fun _ final => ∃ lines, final.log = start.log.append lines ∧
        final.tree.references.map (final.tree.noteBy Decl.unlined) = lines.map some)
      anyFailure := by
  have hlibrary := (@ends_library outline skeleton start h htree anyFailure).and
    (ends_library_log Library.decls start)
  refine ends_bind ((hlibrary.mono ?_).mono_failed fun _ _ _ => trivial)
  rintro _ opened ⟨⟨-, library⟩, hlog⟩
  have underway : Underway outline opened.tree := ⟨opened.tree, library, rfl⟩
  have hrecorded := recorded_block (opened.tree.blocks.size + 1) opened.tree.body
    opened.tree.name [] true (underway.parametersApart h) (underway.nodup_passages h)
    (by rw [hlog, hswitch])
  refine ends_bind (ends_get (ends_bind (hrecorded.mono fun _ final hfinal => ?_)))
  obtain ⟨lines, hlines, hnotes⟩ := hfinal.notes
  refine ends_modify ⟨lines, hlines.trans (by rw [hlog]), ?_⟩
  have hpassages : ({ final.tree with checked := true } : Tree).passages = opened.tree.passages :=
    Tree.passages_of_erased_eq hfinal.erased_eq
  have hreferences : ({ final.tree with checked := true } : Tree).references =
      opened.tree.passages.flatMap final.tree.usesIn := by
    rw [Tree.references, hpassages]
    exact List.flatMap_congr fun passage _ => by cases passage <;> rfl
  exact (congrArg (List.map (final.tree.noteBy Decl.unlined)) hreferences).trans hnotes

end Check

/-- The lines that a check adds are those on the references, in order. -/
theorem Tree.exists_notes_of_check {outline : Outline} {log : Log}
    (hswitch : log.binding = true)
    (hresult : ((Tree.ofOutline outline).check log).result = .ok ()) :
    ∃ lines, ((Tree.ofOutline outline).check log).log = log.append lines ∧
      ((Tree.ofOutline outline).check log).tree.references.map
        (((Tree.ofOutline outline).check log).tree.noteBy Decl.unlined) = lines.map some := by
  obtain ⟨skeleton, h⟩ := outline.exists_skeleton
  have hends := @Check.ends_program_notes outline skeleton
    { tree := .ofOutline outline, scope := .library, log } h rfl hswitch
  unfold Check.Ends at hends
  have hunchecked : ¬(Tree.ofOutline outline).checked = true := Bool.false_ne_true
  rw [Tree.check, if_neg hunchecked] at hresult ⊢
  cases hrun : Check.program.run { tree := .ofOutline outline, scope := .library, log } with
  | ok _ final =>
      rw [hrun] at hends
      exact hends
  | error diagnostic final =>
      rw [hrun] at hresult
      cases hresult

end MiniPascal
