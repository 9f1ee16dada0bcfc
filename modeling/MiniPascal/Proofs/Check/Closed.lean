import MiniPascal.Proofs.Check.Occurs

/-!
# References stay in range

The numbers that blocks and declarations of a tree are referred to by are those of
entries of the tree: after numbering, and then throughout a check, whether it ends
well or not, since a check adds nothing but the library and annotations.
-/

namespace MiniPascal

/-- Every block and every declaration that the tree refers to is there. -/
structure Tree.Closed (tree : Tree) : Prop where
  body_lt : tree.body < tree.blocks.size
  enclosing_lt : ∀ (id outer : BlockId), tree.enclosing? id = some outer → outer < tree.blocks.size
  declarations_lt : ∀ (id : BlockId) (block : Block), tree.blocks[id]? = some block →
    ∀ member ∈ block.declarations, member < tree.decls.size
  routineBody_lt : ∀ (id : DeclId) (decl : Decl) (body : BlockId), tree.decls[id]? = some decl →
    decl.kind.routine?.bind Routine.body = some body → body < tree.blocks.size
  members_lt : ∀ (id : DeclId) (decl : Decl), tree.decls[id]? = some decl →
    ∀ member ∈ decl.kind.params ++ Check.literalsOf decl.kind, member < tree.decls.size

/-- Annotations do not matter. -/
theorem Tree.Closed.of_erased_eq {tree other : Tree} (closed : tree.Closed)
    (h : other.erased = tree.erased) : other.Closed := by
  have hblocks := Tree.size_blocks_of_erased_eq h
  have hdecls := Tree.size_decls_of_erased_eq h
  have hdecl : ∀ (id : DeclId) (decl : Decl), other.decls[id]? = some decl →
      ∃ decl', tree.decls[id]? = some decl' ∧ decl'.kind.erased = decl.kind.erased := by
    intro id decl hfound
    have hsame := Tree.decl_of_erased_eq h id
    rw [hfound, Option.map_some] at hsame
    obtain ⟨decl', hdecl', heq⟩ := Option.map_eq_some_iff.mp hsame.symm
    exact ⟨decl', hdecl', congrArg Decl.kind heq⟩
  constructor
  case body_lt =>
    have hbody : other.erased.body = tree.erased.body := congrArg (fun t : Tree => t.body) h
    change other.body = tree.body at hbody
    rw [hbody, hblocks]
    exact closed.body_lt
  case enclosing_lt =>
    intro id outer houter
    rw [Tree.enclosing?_of_erased_eq h] at houter
    rw [hblocks]
    exact closed.enclosing_lt id outer houter
  case declarations_lt =>
    intro id block hblock member hmember
    have hsame := Tree.block_of_erased_eq h id
    rw [hblock, Option.map_some] at hsame
    obtain ⟨block', hblock', heq⟩ := Option.map_eq_some_iff.mp hsame.symm
    have hparts : block'.erased.parts = block.erased.parts := congrArg Block.parts heq
    change block'.parts = block.parts at hparts
    rw [Block.declarations, ← hparts] at hmember
    rw [hdecls]
    exact closed.declarations_lt id block' hblock' member hmember
  case routineBody_lt =>
    intro id decl body hfound hbody
    obtain ⟨decl', hdecl', heq⟩ := hdecl id decl hfound
    have hbodies := congrArg (fun kind : DeclKind => kind.routine?.bind Routine.body) heq
    simp only [DeclKind.routine?_erased, Option.bind_map] at hbodies
    rw [hblocks]
    exact closed.routineBody_lt id decl' body hdecl' (hbodies.trans hbody)
  case members_lt =>
    intro id decl hfound member hmember
    obtain ⟨decl', hdecl', heq⟩ := hdecl id decl hfound
    have hmembers : decl'.kind.params ++ Check.literalsOf decl'.kind =
        decl.kind.params ++ Check.literalsOf decl.kind := by
      rw [← DeclKind.params_erased, ← DeclKind.literalsOf_erased, heq, DeclKind.params_erased,
        DeclKind.literalsOf_erased]
    rw [hdecls]
    exact closed.members_lt id decl' hdecl' member (hmembers ▸ hmember)

/-! ### Numbered outlines -/

namespace Outline.HasSkeleton

variable {outline : Outline} {skeleton : Skeleton}

theorem lt_blocks_size (h : HasSkeleton outline skeleton) {id : BlockId}
    (hid : id ∈ skeleton.blockIds) : id < (Tree.ofOutline outline).blocks.size := by
  obtain ⟨node, hnode, rfl⟩ := List.mem_map.mp hid
  exact (Array.getElem?_eq_some_iff.mp (h.block node hnode)).1

theorem lt_decls_size (h : HasSkeleton outline skeleton) {x : Numbered}
    (hx : x ∈ skeleton.declared) : x.id < (Tree.ofOutline outline).decls.size :=
  (Array.getElem?_eq_some_iff.mp (h.decl x hx)).1

/-- A block of the skeleton with the bodies inside it, which are in the skeleton too. -/
theorem exists_block (h : HasSkeleton outline skeleton) {node : Node}
    (hnode : node ∈ skeleton.nodes) :
    ∃ inner, (Skeleton.mk node inner).WellFormed ∧ (Skeleton.mk node inner).declIds.Nodup ∧
      (Skeleton.mk node inner).blockIds ⊆ skeleton.blockIds ∧
      (Skeleton.mk node inner).declared ⊆ skeleton.declared := by
  obtain ⟨_, ⟨root, inner⟩, occurs, rfl⟩ := Skeleton.exists_occurs
    (Library.site (Tree.ofOutline outline).decls.size) skeleton node hnode
  exact ⟨inner, occurs.wellFormed h.wellFormed, occurs.declIds_sublist.nodup h.declIds_nodup,
    occurs.blockIds_sublist.subset, occurs.declared_sublist.subset⟩

/-- What has neither a body nor parameters nor literals mentions nothing. -/
theorem exists_mentioned_of_none {kind : DeclKind} (hroutine : kind.routine? = none)
    (hparams : kind.params = []) (hliterals : Check.literalsOf kind = []) :
    (∀ body, kind.routine?.bind Routine.body = some body → body ∈ skeleton.blockIds) ∧
      ∀ member ∈ kind.params ++ Check.literalsOf kind,
        ∃ y ∈ skeleton.declared, y.id = member := by
  refine ⟨fun body hbody => ?_, fun member hmember => ?_⟩
  · rw [hroutine] at hbody
    cases hbody
  · rw [hparams, hliterals] at hmember
    cases hmember

/-- What is declared in a block mentions blocks and declarations of the skeleton. -/
theorem exists_mentioned (h : HasSkeleton outline skeleton) {x : Numbered}
    (hx : x ∈ skeleton.declared) :
    (∀ body, x.decl.kind.routine?.bind Routine.body = some body → body ∈ skeleton.blockIds) ∧
      ∀ member ∈ x.decl.kind.params ++ Check.literalsOf x.decl.kind,
        ∃ y ∈ skeleton.declared, y.id = member := by
  obtain ⟨node, hnode, hxNode⟩ := List.mem_flatMap.mp hx
  obtain ⟨inner, wellFormed, nodup, hblocks, hdeclared⟩ := h.exists_block hnode
  have hroot : node.WellFormed := by
    cases wellFormed
    assumption
  have hown : node.declared ⊆ skeleton.declared := by
    intro y hy
    refine hdeclared ?_
    rw [Skeleton.declared_eq]
    exact List.mem_append_left _ hy
  rcases List.mem_append.mp hxNode with hparam | hentries
  · obtain ⟨ref, href⟩ := hroot.params_kind x hparam
    rw [href]
    exact exists_mentioned_of_none rfl rfl rfl
  · obtain ⟨entry, hentry, hxEntry⟩ := List.mem_flatMap.mp hentries
    rcases List.mem_cons.mp hxEntry with rfl | hliteral
    · have hliterals : ∀ member ∈ Check.literalsOf entry.declared.decl.kind,
          ∃ y ∈ skeleton.declared, y.id = member := by
        intro member hmember
        rw [hroot.literals_eq entry hentry] at hmember
        obtain ⟨y, hy, rfl⟩ := List.mem_map.mp hmember
        refine ⟨y, hown (List.mem_append_right _ ?_), rfl⟩
        exact List.mem_flatMap.mpr ⟨entry, hentry, List.mem_cons_of_mem _ hy⟩
      cases hkind : entry.declared.decl.kind with
      | routine heading =>
          have hnodup : (node.declared.map Numbered.id).Nodup := by
            rw [Skeleton.declIds_eq] at nodup
            exact (List.nodup_append'.mp nodup).1
          obtain ⟨body, hbody, -, hparams, hbodyId⟩ := wellFormed.exists_body hnodup hentry hkind
          have hinner : body.root ∈ (Skeleton.mk node inner).nodes :=
            @Skeleton.nodes_subset_of_mem_inner (.mk node inner) body hbody _ body.root_mem_nodes
          refine ⟨fun found hfound => ?_, fun member hmember => ?_⟩
          · obtain rfl := Option.some.inj (hbodyId.symm.trans hfound)
            exact hblocks (List.mem_map_of_mem hinner)
          · change member ∈ heading.params ++ [] at hmember
            rw [List.append_nil, hparams] at hmember
            obtain ⟨y, hy, rfl⟩ := List.mem_map.mp hmember
            refine ⟨y, hdeclared ?_, rfl⟩
            exact List.mem_flatMap.mpr ⟨body.root, hinner, List.mem_append_left _ hy⟩
      | constant | parameter | enumLiteral => exact exists_mentioned_of_none rfl rfl rfl
      | type | variableOf =>
          rw [hkind] at hliterals
          refine ⟨fun body hbody => ?_, hliterals⟩
          cases hbody
    · obtain ⟨code, hcode⟩ := hroot.literals_kind entry hentry x hliteral
      rw [hcode]
      exact exists_mentioned_of_none rfl rfl rfl

/-- The tree of an outline refers to nothing that is not there. -/
theorem closed (h : HasSkeleton outline skeleton) : (Tree.ofOutline outline).Closed := by
  have hdecl : ∀ id decl, (Tree.ofOutline outline).decls[id]? = some decl →
      ∃ x ∈ skeleton.declared, x.id = id ∧ x.decl = decl := by
    intro id decl hfound
    obtain ⟨x, hx, rfl⟩ := List.mem_map.mp (h.decl_mem id (Array.getElem?_eq_some_iff.mp hfound).1)
    exact ⟨x, hx, rfl, Option.some.inj ((h.decl x hx).symm.trans hfound)⟩
  constructor
  case body_lt =>
    rw [← h.id_eq]
    exact h.lt_blocks_size skeleton.id_mem_blockIds
  case enclosing_lt =>
    intro id outer houter
    exact Nat.lt_trans (h.descends id outer houter) (Tree.lt_size_of_enclosing? houter)
  case declarations_lt =>
    intro id block hblock member hmember
    rcases h.block_mem id (Array.getElem?_eq_some_iff.mp hblock).1 with rfl | hid
    · rw [h.library] at hblock
      obtain rfl := Option.some.inj hblock
      cases hmember
    · obtain ⟨node, hnode, rfl⟩ := List.mem_map.mp hid
      obtain rfl := Option.some.inj ((h.block node hnode).symm.trans hblock)
      obtain ⟨inner, wellFormed, -, -, hdeclared⟩ := h.exists_block hnode
      have hroot : node.WellFormed := by
        cases wellFormed
        assumption
      rw [hroot.declarations_eq] at hmember
      obtain ⟨entry, hentry, rfl⟩ := List.mem_map.mp hmember
      refine h.lt_decls_size (hdeclared ?_)
      rw [Skeleton.declared_eq]
      refine List.mem_append_left _ (List.mem_append_right _ ?_)
      exact List.mem_flatMap.mpr ⟨entry, hentry, List.mem_cons_self⟩
  case routineBody_lt =>
    intro id decl body hfound hbody
    obtain ⟨x, hx, rfl, rfl⟩ := hdecl id decl hfound
    exact h.lt_blocks_size ((h.exists_mentioned hx).1 body hbody)
  case members_lt =>
    intro id decl hfound member hmember
    obtain ⟨x, hx, rfl, rfl⟩ := hdecl id decl hfound
    obtain ⟨y, hy, rfl⟩ := (h.exists_mentioned hx).2 member hmember
    exact h.lt_decls_size hy

end Outline.HasSkeleton

/-! ### While a check goes on -/

namespace Check

variable {outline : Outline} {skeleton : Skeleton} {tree : Tree}

/-- The library mentions nothing. -/
theorem LibraryDeclared.closed (h : Outline.HasSkeleton outline skeleton)
    (library : LibraryDeclared (Tree.ofOutline outline)
      (Library.numbered (Tree.ofOutline outline).decls.size) tree) : tree.Closed := by
  have closed := h.closed
  have hsize : (Tree.ofOutline outline).decls.size ≤ tree.decls.size := by
    rw [library.decls_size]
    exact Nat.le_add_right _ _
  have hkind : ∀ (id : DeclId) (decl : Decl), tree.decls[id]? = some decl →
      (Tree.ofOutline outline).decls[id]? = some decl ∨
        decl.kind.routine?.bind Routine.body = none ∧
          decl.kind.params ++ literalsOf decl.kind = [] := by
    intro id decl hfound
    rcases Nat.lt_or_ge id (Tree.ofOutline outline).decls.size with hlt | hge
    · exact .inl (library.decl_eq id hlt ▸ hfound)
    · have hid := (Array.getElem?_eq_some_iff.mp hfound).1
      rw [library.decls_size, Library.numbered, Library.length_numberFrom] at hid
      obtain ⟨x, hx, rfl⟩ := Library.exists_of_id hge hid
      obtain rfl := Option.some.inj ((library.declared x hx).2.symm.trans hfound)
      have hmem : x.decl ∈ Library.decls := by
        rw [← Library.map_decl_numberFrom (Tree.ofOutline outline).decls.size Library.decls]
        exact List.mem_map_of_mem hx
      exact .inr ⟨Library.body_eq_none x.decl hmem, Library.mentions_nothing x.decl hmem⟩
  constructor
  case body_lt =>
    rw [library.body_eq, library.blocks_size]
    exact closed.body_lt
  case enclosing_lt =>
    intro id outer houter
    rw [library.blocks_size]
    refine closed.enclosing_lt id outer ?_
    rw [← houter, Tree.enclosing?, Tree.enclosing?]
    by_cases hid : id = libraryBlock
    · subst hid
      rw [library.library_eq, h.library]
      rfl
    · rw [library.block_eq id hid]
  case declarations_lt =>
    intro id block hblock member hmember
    refine Nat.lt_of_lt_of_le ?_ hsize
    by_cases hid : id = libraryBlock
    · subst hid
      rw [library.library_eq] at hblock
      obtain rfl := Option.some.inj hblock
      cases hmember
    · rw [library.block_eq id hid] at hblock
      exact closed.declarations_lt id block hblock member hmember
  case routineBody_lt =>
    intro id decl body hfound hbody
    rw [library.blocks_size]
    rcases hkind id decl hfound with hold | ⟨hnone, -⟩
    · exact closed.routineBody_lt id decl body hold hbody
    · cases hnone.symm.trans hbody
  case members_lt =>
    intro id decl hfound member hmember
    rcases hkind id decl hfound with hold | ⟨-, hnone⟩
    · exact Nat.lt_of_lt_of_le (closed.members_lt id decl hold member hmember) hsize
    · rw [hnone] at hmember
      cases hmember

/-- A check refers to nothing that is not there, however far it got. -/
theorem Underway.closed (h : Outline.HasSkeleton outline skeleton)
    (underway : Underway outline tree) : tree.Closed := by
  obtain ⟨opened, library, herased⟩ := underway
  exact (library.closed h).of_erased_eq herased

end Check

end MiniPascal
