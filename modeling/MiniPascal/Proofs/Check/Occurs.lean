import MiniPascal.Proofs.Check.Program

/-!
# Blocks of a checked program, with their sites

Every block of a checked program occurs in the skeleton at a site of its own, and
is checked there.  A block occurs inside another one after the bodies before it,
whose words in the frame around them are already handed out.
-/

namespace MiniPascal

namespace Site

theorem level_resumedAll (site : Site) (bodies : List Skeleton) :
    (site.resumedAll bodies).level =
      site.level.resumed (Skeleton.frameWordsAll bodies).length := by
  induction bodies generalizing site with
  | nil => simp [Skeleton.frameWordsAll]
  | cons first others ih =>
      rw [resumedAll_cons, ih, Skeleton.length_frameWordsAll_cons, ← ScopeLevel.resumed_resumed]
      rfl

end Site

namespace Skeleton

theorem checkedAll_append {tree : Tree} {site : Site} {before after : List Skeleton} :
    CheckedAll tree site (before ++ after) ↔
      CheckedAll tree site before ∧ CheckedAll tree (site.resumedAll before) after := by
  induction before generalizing site with
  | nil => simp [CheckedAll]
  | cons first others ih => simp [CheckedAll, ih, and_assoc]

namespace Occurs

variable {tree : Tree} {site around : Site} {top skeleton : Skeleton}

/-- What occurs in a checked block is checked. -/
theorem checked (occurs : Occurs site top around skeleton) (h : top.Checked tree site) :
    skeleton.Checked tree around := by
  induction occurs with
  | top => exact h
  | body _ ih => exact (checkedAll_append.mp ih.2).2.1

theorem wellFormed (occurs : Occurs site top around skeleton) (h : top.WellFormed) :
    skeleton.WellFormed := by
  induction occurs with
  | top => exact h
  | body _ ih =>
      cases ih with
      | mk _ _ _ inner_wellFormed =>
          exact inner_wellFormed _ (List.mem_append_right _ List.mem_cons_self)

theorem nodes_sublist (occurs : Occurs site top around skeleton) :
    skeleton.nodes.Sublist top.nodes := by
  induction occurs with
  | top => exact List.Sublist.refl _
  | @body _ root before after body _ ih =>
      refine List.Sublist.trans ?_ ih
      rw [nodes_eq (.mk root _), nodesAll_eq_flatMap]
      exact (List.sublist_flatten_of_mem (List.mem_map_of_mem
        (List.mem_append_right before List.mem_cons_self))).trans (List.sublist_cons_self _ _)

theorem blockIds_sublist (occurs : Occurs site top around skeleton) :
    skeleton.blockIds.Sublist top.blockIds :=
  occurs.nodes_sublist.map _

theorem declared_sublist (occurs : Occurs site top around skeleton) :
    skeleton.declared.Sublist top.declared := by
  induction occurs with
  | top => exact List.Sublist.refl _
  | @body _ root before after body _ ih =>
      refine List.Sublist.trans ?_ ih
      rw [declared_eq (.mk root _)]
      exact (List.sublist_flatten_of_mem (List.mem_map_of_mem
        (List.mem_append_right before List.mem_cons_self))).trans (List.sublist_append_right _ _)

theorem declIds_sublist (occurs : Occurs site top around skeleton) :
    skeleton.declIds.Sublist top.declIds :=
  occurs.declared_sublist.map _

/-- Bodies of a block that occurs occur themselves. -/
theorem exists_body {root : Node} {inner : List Skeleton} {body : Skeleton}
    (occurs : Occurs site top around (.mk root inner)) (h : body ∈ inner) :
    ∃ before after, inner = before ++ body :: after ∧
      Occurs site top ((around.inside root).resumedAll before) body := by
  obtain ⟨before, after, rfl⟩ := List.append_of_mem h
  exact ⟨before, after, rfl, .body occurs⟩

end Occurs

mutual

/-- Every block of a skeleton occurs in it. -/
theorem exists_occurs (site : Site) (top : Skeleton) :
    ∀ node ∈ top.nodes, ∃ around skeleton, Occurs site top around skeleton ∧
      skeleton.root = node := by
  cases top with
  | mk root inner =>
      intro node hnode
      rcases List.mem_cons.mp hnode with rfl | hnode
      · exact ⟨site, _, .top, rfl⟩
      · obtain ⟨before, body, after, around, skeleton, rfl, occurs, hroot⟩ :=
          exists_occursAll (site.inside root) inner node hnode
        exact ⟨around, skeleton, (Occurs.body .top).trans occurs, hroot⟩

theorem exists_occursAll (site : Site) (bodies : List Skeleton) :
    ∀ node ∈ nodesAll bodies, ∃ before body after around skeleton,
      bodies = before ++ body :: after ∧ Occurs (site.resumedAll before) body around skeleton ∧
      skeleton.root = node := by
  cases bodies with
  | nil => exact fun _ h => absurd h List.not_mem_nil
  | cons first others =>
      intro node hnode
      rcases List.mem_append.mp hnode with hnode | hnode
      · obtain ⟨around, skeleton, occurs, hroot⟩ := exists_occurs site first node hnode
        exact ⟨[], first, others, around, skeleton, rfl, occurs, hroot⟩
      · obtain ⟨before, body, after, around, skeleton, rfl, occurs, hroot⟩ :=
          exists_occursAll (site.resumed first) others node hnode
        exact ⟨first :: before, body, after, around, skeleton, rfl, occurs, hroot⟩

end

end Skeleton

/-! ### Blocks of a checked program -/

namespace CheckedProgram

variable {outline : Outline} {skeleton body : Skeleton} {tree : Tree} {site : Site}

/-- A block occurs at a site in a checked program. -/
abbrev Occurs (outline : Outline) (skeleton : Skeleton) (site : Site) (body : Skeleton) : Prop :=
  Skeleton.Occurs (Library.site (Tree.ofOutline outline).decls.size) skeleton site body

/-- Every block but the library's occurs at a site, where it is checked. -/
theorem exists_occurs (program : CheckedProgram outline skeleton tree) {id : BlockId}
    (hid : id ∈ skeleton.blockIds) :
    ∃ site body, Occurs outline skeleton site body ∧ body.id = id ∧ body.Checked tree site := by
  obtain ⟨node, hnode, rfl⟩ := List.mem_map.mp hid
  obtain ⟨site, body, occurs, rfl⟩ := Skeleton.exists_occurs
    (Library.site (Tree.ofOutline outline).decls.size) skeleton node hnode
  exact ⟨site, body, occurs, rfl, occurs.checked program.checked⟩

theorem mem_blockIds (program : CheckedProgram outline skeleton tree) {id : BlockId}
    (hlibrary : id ≠ libraryBlock) (hid : id < tree.blocks.size) : id ∈ skeleton.blockIds :=
  (program.hasSkeleton.block_mem id (program.blocks_size ▸ hid)).resolve_left hlibrary

/-- What is declared is declared in the library or in some block. -/
theorem decl_cases (program : CheckedProgram outline skeleton tree) {id : DeclId}
    (hid : id < tree.decls.size) :
    (∃ x ∈ Library.numbered (Tree.ofOutline outline).decls.size, x.id = id) ∨
      ∃ x ∈ skeleton.declared, x.id = id := by
  rw [program.decls_size] at hid
  rcases Nat.lt_or_ge id (Tree.ofOutline outline).decls.size with hlt | hge
  · obtain ⟨x, hx, hid⟩ := List.mem_map.mp (program.hasSkeleton.decl_mem id hlt)
    exact .inr ⟨x, hx, hid⟩
  · exact .inl (Library.exists_of_id hge hid)

/-- The body of a routine is inside the block that declares the routine. -/
structure RoutineOccurs (outline : Outline) (skeleton : Skeleton) (routine : DeclId)
    (around : Site) (root : Node) (before : List Skeleton) (body : Skeleton)
    (after : List Skeleton) : Prop where
  occurs : Occurs outline skeleton around (.mk root (before ++ body :: after))
  bodyOf : Skeleton.BodyOf root.id root.entries body routine

/-- A routine of the program has its body inside the block that declares the routine. -/
theorem exists_routine_of_declared (h : Outline.HasSkeleton outline skeleton) {x : Numbered}
    (hx : x ∈ skeleton.declared) {heading : Routine} {bodyId : BlockId}
    (hkind : x.decl.kind = .routine heading) (hbody : heading.body = some bodyId) :
    ∃ around root before body after,
      RoutineOccurs outline skeleton x.id around root before body after ∧
      heading.params = body.root.params.map Numbered.id ∧ body.id = bodyId := by
  obtain ⟨node, hnode, hxNode⟩ := List.mem_flatMap.mp hx
  obtain ⟨around, found, occurs, rfl⟩ := Skeleton.exists_occurs
    (Library.site (Tree.ofOutline outline).decls.size) skeleton node hnode
  have hwellFormed := occurs.wellFormed h.wellFormed
  obtain ⟨root, inner⟩ := found
  have hnodup : (root.declared.map Numbered.id).Nodup := by
    have := occurs.declIds_sublist.nodup h.declIds_nodup
    rw [Skeleton.declIds_eq] at this
    exact (List.nodup_append'.mp this).1
  rcases List.mem_append.mp hxNode with hparam | hentries
  · obtain ⟨ref, href⟩ := hwellFormed.node.params_kind x hparam
    rw [hkind] at href
    cases href
  · obtain ⟨entry, hentry, hxEntry⟩ := List.mem_flatMap.mp hentries
    rcases List.mem_cons.mp hxEntry with rfl | hliteral
    · obtain ⟨body, hbodyMem, hbodyOf, hparams, hbodyId⟩ :=
        hwellFormed.exists_body hnodup hentry hkind
      obtain ⟨before, after, rfl, -⟩ := occurs.exists_body hbodyMem
      refine ⟨around, root, before, body, after, ⟨occurs, hbodyOf⟩, hparams, ?_⟩
      exact Option.some.inj (hbodyId.symm.trans hbody)
    · obtain ⟨code, hcode⟩ := hwellFormed.node.literals_kind entry hentry x hliteral
      rw [hkind] at hcode
      cases hcode

/-- Every routine with a body has it inside the block that declares the routine. -/
theorem exists_routine (program : CheckedProgram outline skeleton tree) {id : DeclId}
    {decl : Decl} {heading : Routine} {bodyId : BlockId} (hdecl : tree.decls[id]? = some decl)
    (hkind : decl.kind = .routine heading) (hbody : heading.body = some bodyId) :
    ∃ around root before body after,
      RoutineOccurs outline skeleton id around root before body after ∧
      heading.params = body.root.params.map Numbered.id ∧ body.id = bodyId := by
  rcases program.decl_cases (Array.getElem?_eq_some_iff.mp hdecl).1 with
    ⟨x, hx, rfl⟩ | ⟨x, hx, rfl⟩
  · rw [program.declared x hx] at hdecl
    obtain rfl := Option.some.inj hdecl
    have hmem : x.decl ∈ Library.decls := by
      rw [← Library.map_decl_numberFrom (Tree.ofOutline outline).decls.size Library.decls]
      exact List.mem_map_of_mem hx
    have hnone := Library.body_eq_none x.decl hmem
    change x.decl.kind = _ at hkind
    rw [hkind, DeclKind.routine?, Option.bind_some, hbody] at hnone
    cases hnone
  · have herased := program.erased_eq x hx
    rw [hdecl, Option.map_some, Option.some.injEq] at herased
    have hkindErased : x.decl.kind.erased = (DeclKind.routine heading).erased := by
      rw [← hkind]
      exact (congrArg Decl.kind herased).symm
    obtain ⟨result, hrouting⟩ := DeclKind.eq_routine_of_erased_eq hkindErased
    have found := exists_routine_of_declared program.hasSkeleton hx hrouting hbody
    exact found

end CheckedProgram

end MiniPascal
