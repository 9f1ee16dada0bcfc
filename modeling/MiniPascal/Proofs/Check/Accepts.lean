import MiniPascal.Proofs.Check.Occurs
import MiniPascal.Proofs.Check.WellFormed

/-!
# The check accepts the well-formed programs

What the check demands block by block, with the names that stand for something when it
comes to a use, is what makes the program well-formed.  The names seen by a block are
followed along the blocks around it: each has entered all its declarations when a body
inside it is checked.
-/

namespace MiniPascal

/-! ### Looking up in a table -/

/-- In a table of different names a name stands for the declaration that has it. -/
theorem lookup_tableOf {declared : List Numbered} (nodup : (declared.map (·.decl.name)).Nodup)
    (name : String) :
    (tableOf declared).lookup name = (declared.find? (·.decl.name == name)).map Numbered.id := by
  cases hfind : declared.find? (·.decl.name == name) with
  | none =>
      rw [Option.map_none, lookup_tableOf_eq_none_iff]
      intro hmem
      obtain ⟨x, hx, hname⟩ := List.mem_map.mp hmem
      exact List.find?_eq_none.mp hfind x hx (beq_iff_eq.mpr hname)
  | some x =>
      have hx := List.mem_of_find?_eq_some hfind
      have hname : x.decl.name = name := beq_iff_eq.mp (List.find?_some hfind :)
      cases hlookup : (tableOf declared).lookup name with
      | none =>
          refine absurd ?_ (lookup_tableOf_eq_none_iff.mp hlookup)
          rw [← hname]
          exact List.mem_map_of_mem hx
      | some id =>
          obtain ⟨y, hy, hnameY, rfl⟩ := exists_of_lookup_tableOf hlookup
          rw [List.inj_on_of_nodup_map nodup hy hx (hnameY.trans hname.symm), Option.map_some]

/-! ### The program behind a skeleton -/

namespace Outline.HasSkeleton

variable {outline : Outline} {skeleton body : Skeleton} {site : Site}

theorem root_mem_nodes (occurs : CheckedProgram.Occurs outline skeleton site body) :
    body.root ∈ skeleton.nodes :=
  occurs.nodes_sublist.subset (Skeleton.root_mem_nodes body)

theorem declared_mem {node : Node} (hnode : node ∈ skeleton.nodes) {x : Numbered}
    (hx : x ∈ node.declared) : x ∈ skeleton.declared :=
  List.mem_flatMap.mpr ⟨node, hnode, hx⟩

theorem entry_mem {node : Node} (hnode : node ∈ skeleton.nodes) {entry : DeclEntry}
    (hentry : entry ∈ node.entries) : entry.declared ∈ skeleton.declared :=
  declared_mem hnode (List.mem_append_right _
    (List.mem_flatMap.mpr ⟨entry, hentry, List.mem_cons_self⟩))

/-- Blocks with the same number are the same. -/
theorem node_eq (h : HasSkeleton outline skeleton) {node other : Node}
    (hnode : node ∈ skeleton.nodes) (hother : other ∈ skeleton.nodes) (hid : node.id = other.id) :
    node = other :=
  List.inj_on_of_nodup_map h.blockIds_nodup hnode hother hid

/-- A declaration of the program is declared in its skeleton. -/
theorem exists_declared (h : HasSkeleton outline skeleton) {decl : Decl}
    (hdecl : decl ∈ (Tree.ofOutline outline).decls.toList) :
    ∃ x ∈ skeleton.declared, x.decl = decl := by
  obtain ⟨id, hid, heq⟩ := Array.mem_iff_getElem.mp (Array.mem_toList_iff.mp hdecl)
  obtain ⟨x, hx, rfl⟩ := List.mem_map.mp (h.decl_mem id hid)
  refine ⟨x, hx, Option.some.inj ((h.decl x hx).symm.trans ?_)⟩
  rw [Array.getElem?_eq_getElem hid, heq]

/-- A block is the program's, or the body of a routine in another block. -/
theorem occurs_cases (h : HasSkeleton outline skeleton)
    (occurs : CheckedProgram.Occurs outline skeleton site body) :
    body = skeleton ∨ ∃ root ∈ skeleton.nodes, ∃ routine,
      Skeleton.BodyOf root.id root.entries body routine := by
  cases occurs with
  | top => exact .inl rfl
  | @body around root before after body outer =>
      have hbodies : (before ++ body :: after).Forall₂ (Skeleton.BodyOf root.id root.entries)
          root.block.routines := by
        cases outer.wellFormed h.wellFormed
        assumption
      obtain ⟨routine, -, hrelated⟩ := exists_of_forall₂_left hbodies
        (List.mem_append_right before List.mem_cons_self)
      exact .inr ⟨root, root_mem_nodes outer, routine, hrelated⟩

/-- The body of the program is that of no routine, and every other block is one's. -/
theorem routine?_isNone (h : HasSkeleton outline skeleton)
    (occurs : CheckedProgram.Occurs outline skeleton site body) :
    body.root.routine?.isNone = (body.id == (Tree.ofOutline outline).body) := by
  rw [← h.id_eq]
  rcases h.occurs_cases occurs with rfl | ⟨root, hroot, routine, hrelated⟩
  · rw [h.program, BEq.rfl, Option.isNone_none]
  · have hlt : skeleton.id < body.id := Nat.lt_of_le_of_lt
      (h.wellFormed.id_le root.id (List.mem_map_of_mem hroot)) hrelated.2.2.1
    rw [hrelated.1, beq_false_of_ne (Nat.ne_of_gt hlt), Option.isNone_some]

/-- A routine whose body has the number of a block has the parameters of the block. -/
theorem params_of_body (h : HasSkeleton outline skeleton) {x : Numbered}
    (hx : x ∈ skeleton.declared) {heading : Routine} (hkind : x.decl.kind = .routine heading)
    {bodyId : BlockId} (hbody : heading.body = some bodyId) :
    ∃ node ∈ skeleton.nodes, node.id = bodyId ∧ heading.params = node.params.map Numbered.id := by
  obtain ⟨around, root, before, body, after, hroutine, hparams, hid⟩ :=
    CheckedProgram.exists_routine_of_declared h hx hkind hbody
  exact ⟨body.root, root_mem_nodes (.body hroutine.occurs), hid, hparams⟩

/-- The parameters of the routine whose body a block is. -/
theorem paramsOf_eq (h : HasSkeleton outline skeleton)
    (occurs : CheckedProgram.Occurs outline skeleton site body) :
    (Tree.ofOutline outline).paramsOf body.id = body.root.params.map Numbered.id := by
  unfold Tree.paramsOf
  cases hfind : (Tree.ofOutline outline).decls.toList.findSome? fun decl =>
      decl.kind.routine?.bind fun routine =>
        if routine.body = some body.id then some routine.params else none with
  | none =>
      rcases h.occurs_cases occurs with rfl | ⟨root, hroot, routine, hrelated⟩
      · rw [h.params_eq, Option.getD_none, List.map_nil]
      · obtain ⟨-, -, -, entry, hentry, -, result, hkind⟩ := hrelated
        have hnone := List.findSome?_eq_none_iff.mp hfind entry.declared.decl
          (Array.mem_toList_iff.mpr (Array.mem_of_getElem? (h.decl _ (entry_mem hroot hentry))))
        rw [hkind, DeclKind.routine?, Option.bind_some, if_pos rfl] at hnone
        cases hnone
  | some params =>
      obtain ⟨decl, hdecl, hsome⟩ := List.exists_of_findSome?_eq_some hfind
      obtain ⟨x, hx, rfl⟩ := h.exists_declared hdecl
      obtain ⟨heading, hheading, hparams⟩ := Option.bind_eq_some_iff.mp hsome
      split at hparams
      · next hbody =>
          obtain ⟨node, hnode, hid, hnodeParams⟩ :=
            h.params_of_body hx (DeclKind.routine?_eq_some_iff.mp hheading) hbody
          obtain rfl := h.node_eq hnode (root_mem_nodes occurs) hid
          rw [Option.getD_some, ← hnodeParams]
          exact (Option.some.inj hparams).symm
      · cases hparams

/-- No routine has the library's block as its body. -/
theorem paramsOf_library (h : HasSkeleton outline skeleton) :
    (Tree.ofOutline outline).paramsOf libraryBlock = [] := by
  unfold Tree.paramsOf
  cases hfind : (Tree.ofOutline outline).decls.toList.findSome? fun decl =>
      decl.kind.routine?.bind fun routine =>
        if routine.body = some libraryBlock then some routine.params else none with
  | none => rfl
  | some params =>
      obtain ⟨decl, hdecl, hsome⟩ := List.exists_of_findSome?_eq_some hfind
      obtain ⟨x, hx, rfl⟩ := h.exists_declared hdecl
      obtain ⟨heading, hheading, hparams⟩ := Option.bind_eq_some_iff.mp hsome
      split at hparams
      · next hbody =>
          obtain ⟨node, hnode, hid, -⟩ :=
            h.params_of_body hx (DeclKind.routine?_eq_some_iff.mp hheading) hbody
          exact absurd (h.libraryBlock_lt _ (List.mem_map_of_mem hnode)) (hid ▸ Nat.lt_irrefl _)
      · cases hparams

/-- Entries declare what their declarations do. -/
theorem flatMap_declares (h : HasSkeleton outline skeleton) {node : Node}
    (hnode : node ∈ skeleton.nodes) (wellFormed : node.WellFormed) {entries : List DeclEntry}
    (hentries : entries ⊆ node.entries) :
    (entries.map (·.declared.id)).flatMap (Tree.ofOutline outline).declares =
      (entries.flatMap DeclEntry.all).map Numbered.id := by
  induction entries with
  | nil => rfl
  | cons entry entries ih =>
      have hentry := hentries List.mem_cons_self
      have hfirst : (Tree.ofOutline outline).declares entry.declared.id =
          entry.all.map Numbered.id := by
        rw [Tree.declares, h.decl _ (entry_mem hnode hentry), Option.map_some, Option.getD_some,
          wellFormed.literals_eq entry hentry]
        rfl
      rw [List.map_cons, List.flatMap_cons, List.flatMap_cons, List.map_append, hfirst,
        ih (List.subset_of_cons_subset hentries)]

theorem declarationsOf_eq (h : HasSkeleton outline skeleton) {node : Node}
    (hnode : node ∈ skeleton.nodes) (wellFormed : node.WellFormed) :
    (Tree.ofOutline outline).declarationsOf node.id = node.entries.map (·.declared.id) := by
  rw [Tree.declarationsOf, h.block node hnode, Option.map_some, Option.getD_some,
    wellFormed.declarations_eq]

/-- Everything declared in a block. -/
theorem declaredIn_eq (h : HasSkeleton outline skeleton)
    (occurs : CheckedProgram.Occurs outline skeleton site body) :
    (Tree.ofOutline outline).declaredIn body.id = body.root.declared.map Numbered.id := by
  have hnode := root_mem_nodes occurs
  have wellFormed := (occurs.wellFormed h.wellFormed).node
  rw [Tree.declaredIn, h.paramsOf_eq occurs, h.declarationsOf_eq hnode wellFormed,
    h.flatMap_declares hnode wellFormed (List.Subset.refl _), Node.declared, List.map_append]

theorem declaredIn_library (h : HasSkeleton outline skeleton) :
    (Tree.ofOutline outline).declaredIn libraryBlock = [] := by
  rw [Tree.declaredIn, h.paramsOf_library, Tree.declarationsOf, h.library]
  rfl

/-- The declarations with some numbers of the program. -/
theorem filterMap_decls (h : HasSkeleton outline skeleton) {declared : List Numbered}
    (hdeclared : declared ⊆ skeleton.declared) :
    (declared.map Numbered.id).filterMap ((Tree.ofOutline outline).decls[·]?) =
      declared.map Numbered.decl := by
  induction declared with
  | nil => rfl
  | cons x declared ih =>
      rw [List.map_cons, List.map_cons,
        List.filterMap_cons_some (h.decl x (hdeclared List.mem_cons_self)),
        ih (List.subset_of_cons_subset hdeclared)]

theorem named_eq (h : HasSkeleton outline skeleton) {declared : List Numbered}
    (hdeclared : declared ⊆ skeleton.declared) (name : String) :
    (Tree.ofOutline outline).named (declared.map Numbered.id) name =
      (declared.find? (·.decl.name == name)).map Numbered.decl := by
  rw [Tree.named, h.filterMap_decls hdeclared, List.find?_map]
  rfl

/-! ### What names stand for -/

/-- The names of the library. -/
theorem meaning_library (h : HasSkeleton outline skeleton) (name : String) :
    (Tree.ofOutline outline).meaning libraryBlock name =
      Library.decls.find? (·.name == name) := by
  have henclosing : (Tree.ofOutline outline).enclosing? libraryBlock = none := by
    rw [Tree.enclosing?, h.library]
    rfl
  rw [Tree.meaning, Tree.chain_eq h.descends, henclosing, Option.map_none, Option.getD_none,
    List.findSome?_singleton, h.declaredIn_library]
  rfl

/-- What a block sees are its declarations and what the block around it sees. -/
theorem meaning_eq (h : HasSkeleton outline skeleton) {block outer : BlockId}
    (houter : (Tree.ofOutline outline).enclosing? block = some outer) (name : String) :
    (Tree.ofOutline outline).meaning block name =
      (Tree.ofOutline outline).meaningAfter block
        ((Tree.ofOutline outline).declaredIn block) name := by
  rw [Tree.meaning, Tree.meaningAfter, Tree.chain_eq h.descends, houter, Option.map_some,
    Option.getD_some, Option.bind_some, List.findSome?_cons, Tree.meaning]
  cases (Tree.ofOutline outline).named ((Tree.ofOutline outline).declaredIn block) name with
  | none => rw [Option.none_or]
  | some decl => rfl

/-- The block around the program is that of the library. -/
theorem enclosing?_top (h : HasSkeleton outline skeleton) :
    (Tree.ofOutline outline).enclosing? skeleton.id = some libraryBlock := by
  rw [Tree.enclosing?, h.block _ (Skeleton.root_mem_nodes skeleton), Option.bind_some,
    h.root_enclosing]

/-- The block around the body of a routine is the one that declares the routine. -/
theorem enclosing?_body (h : HasSkeleton outline skeleton) {root : Node}
    {before after : List Skeleton}
    (outer : CheckedProgram.Occurs outline skeleton site (.mk root (before ++ body :: after))) :
    (Tree.ofOutline outline).enclosing? body.id = some root.id := by
  have hbodies : (before ++ body :: after).Forall₂ (Skeleton.BodyOf root.id root.entries)
      root.block.routines := by
    cases outer.wellFormed h.wellFormed
    assumption
  obtain ⟨routine, -, hrelated⟩ := exists_of_forall₂_left hbodies
    (List.mem_append_right before List.mem_cons_self)
  rw [Tree.enclosing?, h.block _ (root_mem_nodes (.body outer)), Option.bind_some, hrelated.2.1]

/-! ### Frames -/

theorem hasFrame_eq (h : HasSkeleton outline skeleton)
    (occurs : CheckedProgram.Occurs outline skeleton site body) :
    (Tree.ofOutline outline).hasFrame body.id = body.root.ownsFrame := by
  rw [Tree.hasFrame, h.paramsOf_eq occurs, ← h.routine?_isNone occurs, List.isEmpty_map,
    Node.ownsFrame]

theorem frameDepth_library (h : HasSkeleton outline skeleton) :
    (Tree.ofOutline outline).frameDepth libraryBlock = 0 := by
  have henclosing : (Tree.ofOutline outline).enclosing? libraryBlock = none := by
    rw [Tree.enclosing?, h.library]
    rfl
  have hbody : libraryBlock ≠ (Tree.ofOutline outline).body := by
    rw [← h.id_eq]
    exact Nat.ne_of_lt (h.libraryBlock_lt _ skeleton.id_mem_blockIds)
  have hframe : (Tree.ofOutline outline).hasFrame libraryBlock = false := by
    rw [Tree.hasFrame, h.paramsOf_library, beq_false_of_ne hbody]
    rfl
  rw [Tree.frameDepth, Tree.chain_eq h.descends, henclosing, Option.map_none, Option.getD_none,
    List.filter_singleton, hframe]
  rfl

theorem frameDepth_eq (h : HasSkeleton outline skeleton) {block outer : BlockId}
    (houter : (Tree.ofOutline outline).enclosing? block = some outer) :
    (Tree.ofOutline outline).frameDepth block =
      (Tree.ofOutline outline).frameDepth outer +
        if (Tree.ofOutline outline).hasFrame block then 1 else 0 := by
  rw [Tree.frameDepth, Tree.chain_eq h.descends, houter, Option.map_some, Option.getD_some,
    List.filter_cons, Tree.frameDepth]
  split
  · rw [List.length_cons]
  · rw [Nat.add_zero]

/-- A block is entered at the level that the frames around it make. -/
theorem frameLevel_entered (h : HasSkeleton outline skeleton)
    (occurs : CheckedProgram.Occurs outline skeleton site body) :
    (site.entered body.root).frameLevel = (Tree.ofOutline outline).frameDepth body.id := by
  have step : ∀ {site body outer}, CheckedProgram.Occurs outline skeleton site body →
      (Tree.ofOutline outline).enclosing? body.id = some outer →
      site.level.frameLevel = (Tree.ofOutline outline).frameDepth outer →
      (site.entered body.root).frameLevel = (Tree.ofOutline outline).frameDepth body.id := by
    intro site body outer occurs houter hlevel
    rw [h.frameDepth_eq houter, h.hasFrame_eq occurs, ← hlevel]
    change (if body.root.ownsFrame then site.level.frameLevel + 1 else site.level.frameLevel) = _
    split <;> rfl
  induction occurs with
  | top => exact step .top h.enclosing?_top h.frameDepth_library.symm
  | @body around root before after body outer ih =>
      refine step (.body outer) (h.enclosing?_body outer) ?_
      rw [Site.level_resumedAll]
      exact ih

end Outline.HasSkeleton

/-! ### Names and their meaning -/

/-- The numbers that names stand for in a tree are those of such declarations, but for
annotations. -/
def Tree.Means (tree : Tree) (names : String → Option DeclId) (meaning : String → Option Decl) :
    Prop :=
  ∀ name, ((names name).bind (tree.decls[·]?)).map Decl.erased = (meaning name).map Decl.erased

theorem NameUse.Allows.of_isWithin_eq {tree other : Tree} {block : BlockId} {use : NameUse}
    {kind : DeclKind} (h : ∀ body, other.isWithin block body = tree.isWithin block body)
    (allows : use.Allows tree block kind) : use.Allows other block kind := by
  cases allows with
  | type => exact .type
  | constant => exact .constant
  | literal => exact .literal
  | assignVariable => exact .assignVariable
  | assignParameter => exact .assignParameter
  | assignResult isFunction hasBody within =>
      exact .assignResult isFunction hasBody ((h _).trans within)
  | readVariable => exact .readVariable
  | readParameter => exact .readParameter
  | readConstant => exact .readConstant
  | readLiteral => exact .readLiteral
  | readFunction isFunction noParams => exact .readFunction isFunction noParams
  | call count => exact .call count
  | callBuiltin builtin => exact .callBuiltin builtin

/-- Which uses of a declaration are allowed does not depend on its annotations. -/
theorem NameUse.allows_of_erased_eq {tree : Tree} {block : BlockId} {use : NameUse}
    {decl other : Decl} (h : decl.erased = other.erased) :
    use.Allows tree block decl.kind ↔ use.Allows tree block other.kind := by
  have hiff : ∀ decl : Decl, use.Allows tree block decl.kind ↔
      use.objection? tree block (.unbound "" 0) decl = none :=
    fun _ => NameUse.objection?_eq_none_iff.symm
  rw [hiff, hiff, ← NameUse.objection?_erased, h, NameUse.objection?_erased]

/-- A use can be bound if it is correct for what the names mean. -/
theorem Tree.bindable_iff_correct {tree other : Tree} {names : String → Option DeclId}
    {meaning : String → Option Decl} {block : BlockId}
    (means : tree.Means names meaning)
    (within : ∀ body, tree.isWithin block body = other.isWithin block body) (use : Use) :
    tree.Bindable names block use ↔ other.Correct meaning block use := by
  have hmeans := means use.2.name
  constructor
  · rintro ⟨id, decl, hname, hdecl, hobjection⟩
    rw [hname, Option.bind_some, hdecl, Option.map_some] at hmeans
    obtain ⟨found, hfound, herased⟩ := Option.map_eq_some_iff.mp hmeans.symm
    refine ⟨found, hfound, (NameUse.allows_of_erased_eq herased).mpr ?_⟩
    exact (NameUse.objection?_eq_none_iff.mp hobjection).of_isWithin_eq fun body =>
      (within body).symm
  · rintro ⟨found, hfound, allows⟩
    rw [hfound, Option.map_some] at hmeans
    obtain ⟨decl, hbind, herased⟩ := Option.map_eq_some_iff.mp hmeans
    obtain ⟨id, hname, hdecl⟩ := Option.bind_eq_some_iff.mp hbind
    refine ⟨id, decl, hname, hdecl, NameUse.objection?_eq_none_iff.mpr ?_⟩
    exact ((NameUse.allows_of_erased_eq herased).mpr allows).of_isWithin_eq within

namespace Check.LibraryDeclared

variable {outline : Outline} {skeleton body : Skeleton} {site : Site} {opened : Tree}

/-- The names of the library mean its declarations. -/
theorem means_library (h : Outline.HasSkeleton outline skeleton)
    (library : LibraryDeclared (Tree.ofOutline outline)
      (Library.numbered (Tree.ofOutline outline).decls.size) opened) :
    opened.Means (Library.names (Tree.ofOutline outline).decls.size)
      ((Tree.ofOutline outline).meaning libraryBlock) := by
  intro name
  have hdecls := Library.map_decl_numberFrom (Tree.ofOutline outline).decls.size Library.decls
  have hnodup :
      ((Library.numbered (Tree.ofOutline outline).decls.size).map (·.decl.name)).Nodup := by
    change ((Library.numberFrom _ Library.decls).map (Decl.name ∘ Numbered.decl)).Nodup
    rw [← List.map_map, hdecls]
    decide
  rw [h.meaning_library, Library.names, namesIn, Option.or_none, lookup_tableOf hnodup]
  have hfind : Library.decls.find? (·.name == name) =
      ((Library.numbered (Tree.ofOutline outline).decls.size).find?
        (·.decl.name == name)).map Numbered.decl := by
    rw [← hdecls, List.find?_map]
    rfl
  rw [hfind]
  cases hx : (Library.numbered (Tree.ofOutline outline).decls.size).find?
      (·.decl.name == name) with
  | none => rfl
  | some x =>
      have hmem := List.mem_of_find?_eq_some hx
      rw [Option.map_some, Option.bind_some, (library.declared x hmem).2]
      rfl

/-- Names in a block mean what is declared there, or else what they mean around it. -/
theorem means_namesIn (h : Outline.HasSkeleton outline skeleton)
    (library : LibraryDeclared (Tree.ofOutline outline)
      (Library.numbered (Tree.ofOutline outline).decls.size) opened)
    {declared : List Numbered} (hdeclared : declared ⊆ skeleton.declared)
    (nodup : (declared.map (·.decl.name)).Nodup) {around : String → Option DeclId}
    {block outer : BlockId} (houter : (Tree.ofOutline outline).enclosing? block = some outer)
    (means : opened.Means around ((Tree.ofOutline outline).meaning outer)) :
    opened.Means (namesIn declared around)
      ((Tree.ofOutline outline).meaningAfter block (declared.map Numbered.id)) := by
  intro name
  rw [Tree.meaningAfter, houter, Option.bind_some, h.named_eq hdeclared, namesIn,
    lookup_tableOf nodup]
  cases hx : declared.find? (·.decl.name == name) with
  | none => exact means name
  | some x =>
      have hfound := h.decl x (hdeclared (List.mem_of_find?_eq_some hx))
      have hopened : opened.decls[x.id]? = some x.decl :=
        (library.decl_eq _ (Array.getElem?_eq_some_iff.mp hfound).1).trans hfound
      rw [Option.map_some, Option.some_or, Option.bind_some, hopened]
      rfl

/-- Where a block is checked, names mean what they mean in the block around it. -/
theorem exists_means (h : Outline.HasSkeleton outline skeleton)
    (library : LibraryDeclared (Tree.ofOutline outline)
      (Library.numbered (Tree.ofOutline outline).decls.size) opened)
    (distinct : ∀ node ∈ skeleton.nodes, (node.declared.map (·.decl.name)).Nodup)
    (occurs : CheckedProgram.Occurs outline skeleton site body) :
    ∃ outer, (Tree.ofOutline outline).enclosing? body.id = some outer ∧
      opened.Means site.names ((Tree.ofOutline outline).meaning outer) := by
  induction occurs with
  | top => exact ⟨libraryBlock, h.enclosing?_top, library.means_library h⟩
  | @body around root before after body occurs ih =>
      obtain ⟨outer, houter, means⟩ := ih
      refine ⟨root.id, h.enclosing?_body occurs, ?_⟩
      have hnode : root ∈ skeleton.nodes := Outline.HasSkeleton.root_mem_nodes occurs
      have inner := library.means_namesIn h
        (fun x hx => Outline.HasSkeleton.declared_mem hnode hx) (distinct root hnode) houter means
      rw [Site.names_resumedAll]
      intro name
      have hmeaning := h.meaning_eq houter name
      rw [h.declaredIn_eq occurs] at hmeaning
      exact (inner name).trans (congrArg (Option.map Decl.erased) hmeaning.symm)

end Check.LibraryDeclared

/-! ### Correct blocks -/

namespace Outline.HasSkeleton

variable {outline : Outline} {skeleton body : Skeleton} {site : Site} {opened : Tree}

/-- The parameters of a declared routine are declarations of the program. -/
theorem params_lt (h : HasSkeleton outline skeleton)
    (occurs : CheckedProgram.Occurs outline skeleton site body) {entry : DeclEntry}
    (hentry : entry ∈ body.root.entries) {param : DeclId}
    (hparam : param ∈ entry.declared.decl.kind.params) :
    param < (Tree.ofOutline outline).decls.size := by
  obtain ⟨root, inner⟩ := body
  have hnodup : (root.declared.map Numbered.id).Nodup := by
    have := occurs.declIds_sublist.nodup h.declIds_nodup
    rw [Skeleton.declIds_eq] at this
    exact (List.nodup_append'.mp this).1
  cases hkind : entry.declared.decl.kind with
  | routine heading =>
      obtain ⟨found, hfound, -, hparams, -⟩ :=
        (occurs.wellFormed h.wellFormed).exists_body hnodup hentry hkind
      rw [hkind, DeclKind.params, hparams] at hparam
      obtain ⟨x, hx, rfl⟩ := List.mem_map.mp hparam
      obtain ⟨before, after, rfl, inside⟩ := occurs.exists_body hfound
      have hmem := declared_mem (root_mem_nodes inside) (List.mem_append_left _ hx)
      exact (Array.getElem?_eq_some_iff.mp (h.decl x hmem)).1
  | constant | type | variableOf | parameter | enumLiteral =>
      rw [hkind] at hparam
      cases hparam

/-- With the library declared, the uses in a declaration are what they were. -/
theorem usesOf_eq (h : HasSkeleton outline skeleton)
    (library : Check.LibraryDeclared (Tree.ofOutline outline)
      (Library.numbered (Tree.ofOutline outline).decls.size) opened)
    (occurs : CheckedProgram.Occurs outline skeleton site body) {entry : DeclEntry}
    (hentry : entry ∈ body.root.entries) :
    opened.usesOf entry.declared.decl.kind =
      (Tree.ofOutline outline).usesOf entry.declared.decl.kind := by
  rw [Tree.usesOf, Tree.usesOf, List.flatMap_congr fun param hparam => ?_]
  rw [Tree.usesAt, Tree.usesAt, library.decl_eq param (h.params_lt occurs hentry hparam)]

theorem namesOf_eq (h : HasSkeleton outline skeleton)
    (occurs : CheckedProgram.Occurs outline skeleton site body) :
    (Tree.ofOutline outline).namesOf ((Tree.ofOutline outline).declaredIn body.id) =
      body.root.declared.map (·.decl.name) := by
  rw [Tree.namesOf, h.declaredIn_eq occurs,
    h.filterMap_decls fun x hx => declared_mem (root_mem_nodes occurs) hx, List.map_map]
  rfl

/-- The names that an entry sees mean what they mean after the declarations before it. -/
theorem means_before (h : HasSkeleton outline skeleton)
    (library : Check.LibraryDeclared (Tree.ofOutline outline)
      (Library.numbered (Tree.ofOutline outline).decls.size) opened)
    (distinct : ∀ node ∈ skeleton.nodes, (node.declared.map (·.decl.name)).Nodup)
    (occurs : CheckedProgram.Occurs outline skeleton site body) {before after : List DeclEntry}
    {entry : DeclEntry} (hsplit : body.root.entries = before ++ entry :: after) :
    opened.Means (namesIn (body.root.params ++ before.flatMap DeclEntry.all) site.names)
      ((Tree.ofOutline outline).meaningAfter body.id ((Tree.ofOutline outline).paramsOf body.id ++
        (before.map (·.declared.id)).flatMap (Tree.ofOutline outline).declares)) := by
  have hnode := root_mem_nodes occurs
  have wellFormed := (occurs.wellFormed h.wellFormed).node
  obtain ⟨outer, houter, means⟩ := library.exists_means h distinct occurs
  have hbefore : before ⊆ body.root.entries := by
    rw [hsplit]
    exact List.subset_append_left _ _
  have hsublist : (body.root.params ++ before.flatMap DeclEntry.all).Sublist
      body.root.declared := by
    rw [Node.declared, hsplit, List.flatMap_append, ← List.append_assoc]
    exact List.sublist_append_left _ _
  rw [h.paramsOf_eq occurs, h.flatMap_declares hnode wellFormed hbefore, ← List.map_append]
  exact library.means_namesIn h (fun x hx => declared_mem hnode (hsublist.subset hx))
    ((distinct body.root hnode).sublist (hsublist.map _)) houter means

/-- The names that statements see mean what they mean in their block. -/
theorem means_inside (h : HasSkeleton outline skeleton)
    (library : Check.LibraryDeclared (Tree.ofOutline outline)
      (Library.numbered (Tree.ofOutline outline).decls.size) opened)
    (distinct : ∀ node ∈ skeleton.nodes, (node.declared.map (·.decl.name)).Nodup)
    (occurs : CheckedProgram.Occurs outline skeleton site body) :
    opened.Means (site.inside body.root).names ((Tree.ofOutline outline).meaning body.id) := by
  have hnode := root_mem_nodes occurs
  obtain ⟨outer, houter, means⟩ := library.exists_means h distinct occurs
  have inner := library.means_namesIn h (fun x hx => declared_mem hnode hx)
    (distinct body.root hnode) houter means
  intro name
  rw [h.meaning_eq houter, h.declaredIn_eq occurs]
  exact inner name

/-- The demands on a block are that it is correct. -/
theorem nodeLegal_iff_blockCorrect (h : HasSkeleton outline skeleton)
    (library : Check.LibraryDeclared (Tree.ofOutline outline)
      (Library.numbered (Tree.ofOutline outline).decls.size) opened)
    (distinct : ∀ node ∈ skeleton.nodes, (node.declared.map (·.decl.name)).Nodup)
    (occurs : CheckedProgram.Occurs outline skeleton site body) :
    NodeLegal opened site body.root ↔
      (Tree.ofOutline outline).BlockCorrect body.id body.root.block := by
  have hnode := root_mem_nodes occurs
  have wellFormed := (occurs.wellFormed h.wellFormed).node
  have within : ∀ other, opened.isWithin body.id other =
      (Tree.ofOutline outline).isWithin body.id other := by
    intro other
    rw [Tree.isWithin, Tree.isWithin,
      Tree.chain_congr library.blocks_size (library.enclosing?_eq h)]
  have hinside := h.means_inside library distinct occurs
  constructor
  · intro legal
    constructor
    case distinct =>
      rw [h.namesOf_eq occurs]
      exact legal.names_nodup
    case declarations =>
      intro before declared after hsplit decl hdecl use huse
      rw [wellFormed.declarations_eq] at hsplit
      obtain ⟨before, rest, hentries, rfl, hrest⟩ := List.map_eq_append_iff.mp hsplit
      obtain ⟨entry, after, rfl, rfl, rfl⟩ := List.map_eq_cons_iff.mp hrest
      have hentry : entry ∈ body.root.entries := by
        rw [hentries]
        exact List.mem_append_right _ List.mem_cons_self
      obtain rfl := Option.some.inj ((h.decl _ (entry_mem hnode hentry)).symm.trans hdecl)
      rw [← h.usesOf_eq library occurs hentry] at huse
      exact (Tree.bindable_iff_correct (h.means_before library distinct occurs hentries) within
        use).mp (legal.entries before entry after hentries use huse)
    case statements =>
      exact fun use huse => (Tree.bindable_iff_correct hinside within use).mp
        (legal.statements use huse)
    case nesting =>
      rw [← h.frameLevel_entered occurs]
      exact legal.frameLevel_le
  · intro correct
    constructor
    case frameLevel_le =>
      rw [h.frameLevel_entered occurs]
      exact correct.nesting
    case names_nodup => exact distinct body.root hnode
    case entries =>
      intro before entry after hentries use huse
      have hentry : entry ∈ body.root.entries := by
        rw [hentries]
        exact List.mem_append_right _ List.mem_cons_self
      rw [h.usesOf_eq library occurs hentry] at huse
      refine (Tree.bindable_iff_correct (h.means_before library distinct occurs hentries) within
        use).mpr (correct.declarations _ _ (after.map (·.declared.id)) ?_ _
          (h.decl _ (entry_mem hnode hentry)) use huse)
      rw [wellFormed.declarations_eq, hentries, List.map_append, List.map_cons]
    case statements =>
      exact fun use huse => (Tree.bindable_iff_correct hinside within use).mpr
        (correct.statements use huse)

/-- Nothing is wrong with the block of the library. -/
theorem blockCorrect_library (h : HasSkeleton outline skeleton) :
    (Tree.ofOutline outline).BlockCorrect libraryBlock (.bare none libraryLine) where
  distinct := by
    rw [h.declaredIn_library]
    exact List.nodup_nil
  declarations before declared after hsplit := by
    have hnil : before ++ declared :: after = [] := hsplit.symm
    exact absurd hnil (List.append_ne_nil_of_right_ne_nil _ (List.cons_ne_nil _ _))
  statements _ huse := absurd huse List.not_mem_nil
  nesting := by
    rw [h.frameDepth_library]
    exact Nat.zero_le _

/-- The demands on the program are that it is well-formed. -/
theorem legal_iff_wellFormed (h : HasSkeleton outline skeleton)
    (library : Check.LibraryDeclared (Tree.ofOutline outline)
      (Library.numbered (Tree.ofOutline outline).decls.size) opened) :
    skeleton.Legal opened (Library.site (Tree.ofOutline outline).decls.size) ↔
      (Tree.ofOutline outline).WellFormed := by
  have hoccurs := Skeleton.exists_occurs (Library.site (Tree.ofOutline outline).decls.size) skeleton
  constructor
  · intro legal
    have distinct : ∀ node ∈ skeleton.nodes, (node.declared.map (·.decl.name)).Nodup := by
      intro node hnode
      obtain ⟨site, body, occurs, rfl⟩ := hoccurs node hnode
      exact (legal site body occurs).names_nodup
    intro id block hblock
    rcases h.block_mem id (Array.getElem?_eq_some_iff.mp hblock).1 with rfl | hid
    · obtain rfl := Option.some.inj (h.library.symm.trans hblock)
      exact h.blockCorrect_library
    · obtain ⟨node, hnode, rfl⟩ := List.mem_map.mp hid
      obtain ⟨site, body, occurs, rfl⟩ := hoccurs node hnode
      obtain rfl := Option.some.inj ((h.block _ hnode).symm.trans hblock)
      exact (h.nodeLegal_iff_blockCorrect library distinct occurs).mp (legal site body occurs)
  · intro wellFormed
    have correct : ∀ node ∈ skeleton.nodes,
        (Tree.ofOutline outline).BlockCorrect node.id node.block := fun node hnode =>
      wellFormed node.id node.block (h.block node hnode)
    have distinct : ∀ node ∈ skeleton.nodes, (node.declared.map (·.decl.name)).Nodup := by
      intro node hnode
      obtain ⟨site, body, occurs, rfl⟩ := hoccurs node hnode
      rw [← h.namesOf_eq occurs]
      exact (correct body.root hnode).distinct
    intro site body occurs
    exact (h.nodeLegal_iff_blockCorrect library distinct occurs).mpr
      (correct body.root (root_mem_nodes occurs))

end Outline.HasSkeleton

/-- A program checks exactly if it is well-formed. -/
theorem Tree.check_eq_ok_iff (outline : Outline) (log : Log) :
    ((Tree.ofOutline outline).check log).result = .ok () ↔
      (Tree.ofOutline outline).WellFormed := by
  obtain ⟨skeleton, h⟩ := Outline.exists_skeleton outline
  obtain ⟨⟨opened, library, herased⟩, houtcome⟩ := Tree.check_outcome h log
  rw [← h.legal_iff_wellFormed library]
  cases hresult : ((Tree.ofOutline outline).check log).result with
  | ok done =>
      rw [hresult] at houtcome
      have legal : skeleton.Legal ((Tree.ofOutline outline).check log).tree
          (Library.site (Tree.ofOutline outline).decls.size) :=
        fun site body occurs => (occurs.checked houtcome.checked).node.legal
      exact ⟨fun _ => legal.of_erased_eq herased.symm, fun _ => rfl⟩
  | error diagnostic =>
      rw [hresult] at houtcome
      have illegal : ¬skeleton.Legal opened (Library.site (Tree.ofOutline outline).decls.size) :=
        fun legal => houtcome.2 (legal.of_erased_eq herased)
      exact ⟨fun hok => absurd hok (by simp), fun legal => absurd legal illegal⟩

end MiniPascal
