import MiniPascal.Proofs.Check.Accepts

/-!
# Names are bound to the nearest declaration

While the bodies inside a block and then its statements are checked, the tables of the
block and of all blocks around it are complete.  So what a name stands for when a
statement is bound is what it stands for in the end: the declaration of that name in the
first block that has one, from the inside out.
-/

namespace MiniPascal

namespace Check

/-! ### When statements are bound -/

/-- In a check of a block, from its start on, the statements of a block inside it are
bound in some state: its own after the bodies of its routines, those of a body when the
body is checked in its turn. -/
inductive BindsStatements : Nat → BlockId → String → List DeclId → Bool → Checking →
    BlockId → Checking → Prop
  | own {depth : Nat} {id : BlockId} {owner : String} {params : List DeclId} {ownsFrame : Bool}
      {start opened state : Checking} {found : Block}
      (opens : (opening id owner params ownsFrame).run start = .ok () opened)
      (block_eq : opened.tree.blocks[id]? = some found)
      (bodies : (found.routines.forM (body depth)).run opened = .ok () state) :
      BindsStatements (depth + 1) id owner params ownsFrame start id state
  | inner {depth : Nat} {id inside bodyId : BlockId} {owner : String} {params : List DeclId}
      {ownsFrame : Bool} {start opened reached state : Checking} {found : Block}
      {before after : List DeclId} {routine : DeclId} {decl : Decl} {heading : Routine}
      (opens : (opening id owner params ownsFrame).run start = .ok () opened)
      (block_eq : opened.tree.blocks[id]? = some found)
      (routines_eq : found.routines = before ++ routine :: after)
      (bodies : (before.forM (body depth)).run opened = .ok () reached)
      (decl_eq : reached.tree.decls[routine]? = some decl) (kind_eq : decl.kind = .routine heading)
      (body_eq : heading.body = some bodyId)
      (binds : BindsStatements depth bodyId decl.name heading.params (!heading.params.isEmpty)
        reached inside state) :
      BindsStatements (depth + 1) id owner params ownsFrame start inside state

def ProgramBindsStatements (start : Checking) (inside : BlockId) (state : Checking) : Prop :=
  ∃ opened, (Library.decls.forM declareLibrary).run start = .ok () opened ∧
    BindsStatements (opened.tree.blocks.size + 1) opened.tree.body opened.tree.name [] true opened
      inside state

theorem Ends.of_run_eq_ok {α : Type} {step : Check α} {start final : Checking} {value : α}
    {done : α → Checking → Prop} {failed : Diagnostic → Checking → Prop}
    (h : step.Ends start done failed) (hrun : step.run start = .ok value final) :
    done value final := by
  unfold Ends at h
  rwa [hrun] at h

theorem exists_of_run_bind_eq_ok {α β : Type} {first : Check α} {next : α → Check β}
    {start final : Checking} {result : β} (h : (first >>= next).run start = .ok result final) :
    ∃ value middle, first.run start = .ok value middle ∧
      (next value).run middle = .ok result final := by
  change EStateM.bind first next start = _ at h
  unfold EStateM.bind at h
  split at h
  · next value middle hfirst => exact ⟨value, middle, hfirst, h⟩
  · cases h

/-- The library is declared when its declarations are done. -/
theorem libraryDeclared_of_run {outline : Outline} {skeleton : Skeleton} {log : Log}
    {opened : Checking} (h : Outline.HasSkeleton outline skeleton)
    (hrun : (Library.decls.forM declareLibrary).run
      { tree := .ofOutline outline, scope := .library, log } = .ok () opened) :
    opened.scope = .library ∧ LibraryDeclared (Tree.ofOutline outline)
      (Library.numbered (Tree.ofOutline outline).decls.size) opened.tree := by
  have hends := @ends_library outline skeleton
    { tree := .ofOutline outline, scope := .library, log } h rfl fun _ _ => True
  exact hends.of_run_eq_ok hrun

/-- What a block declares is there, without its annotations. -/
def Held (node : Node) (state : Checking) : Prop :=
  ∀ entry ∈ node.entries, state.tree.decls[entry.declared.id]?.map Decl.erased =
    some entry.declared.decl.erased

/-- After some of several bodies the others can be checked. -/
theorem ReadyAll.after {node : Node} {depth : Nat} {before rest : List Skeleton}
    {routines : List DeclId} {state middle : Checking} {site : Site}
    (hends : ∀ body ∈ before, BlockEnds body ∧ body.nodes.length ≤ depth)
    (related : before.Forall₂ (Skeleton.BodyOf node.id node.entries) routines)
    (held : Held node state) (ready : ReadyAll state site node.id (before ++ rest))
    (hrun : (routines.forM (body depth)).run state = .ok () middle) :
    ReadyAll middle (site.resumedAll before) node.id rest ∧ Held node middle := by
  induction related generalizing state site with
  | nil =>
      obtain rfl : state = middle := (EStateM.Result.ok.inj hrun).2
      exact ⟨ready, held⟩
  | @cons first routine before routines hfirst related ih =>
      obtain ⟨⟨hend, hdepth⟩, hothers⟩ := List.forall_mem_cons.mp hends
      obtain ⟨_, reached, hreached, hrest⟩ := exists_of_run_bind_eq_ok hrun
      have finished := (ends_body hend hdepth hfirst held ready.head).of_run_eq_ok hreached
      have herased := finished.advances.erased_eq
      exact ih hothers (fun entry hentry => (Tree.decl_of_erased_eq herased _).trans
        (held entry hentry)) (ready.tail finished) hrest

/-- When the statements of a block are bound, names stand in it for what they stand for
at its site with everything in it declared. -/
theorem BindsStatements.exists_occurs {skeleton : Skeleton} (wellFormed : skeleton.WellFormed)
    {depth : Nat} {start state : Checking} {site : Site} {outer inside : BlockId} {owner : String}
    (hdepth : skeleton.nodes.length ≤ depth) (ready : ReadyAll start site outer [skeleton])
    (binds : BindsStatements depth skeleton.id owner (skeleton.root.params.map Numbered.id)
      skeleton.root.ownsFrame start inside state) :
    ∃ around body, Skeleton.Occurs site skeleton around body ∧ body.id = inside ∧
      state.tree.lookup inside = (around.inside body.root).names := by
  induction wellFormed generalizing depth start site outer owner with
  | @mk root inner root_wellFormed hbodies routines inner_wellFormed ih =>
      have begins := ready.begins
      have hinner : ∀ depth, (Skeleton.mk root inner).nodes.length ≤ depth + 1 →
          ∀ body ∈ inner, BlockEnds body ∧ body.nodes.length ≤ depth := by
        intro depth hdepth body hbody
        have hless : body.nodes.length < (Skeleton.mk root inner).nodes.length :=
          Skeleton.length_nodes_lt hbody
        exact ⟨ends_block (inner_wellFormed body hbody), by omega⟩
      cases binds with
      | own opens block_eq bodies =>
          have opened := (ends_opening begins owner).of_run_eq_ok opens
          obtain rfl := Option.some.inj (opened.progress.block_eq.symm.trans block_eq)
          have finished := (ends_bodies (hinner _ hdepth) hbodies (opened.held begins)
            (ready.inside opened.progress)).of_run_eq_ok bodies
          exact ⟨site, _, .top, rfl, finished.lookup_eq ready opened.progress⟩
      | inner opens block_eq routines_eq bodies decl_eq kind_eq body_eq binds =>
          have opened := (ends_opening begins owner).of_run_eq_ok opens
          obtain rfl := Option.some.inj (opened.progress.block_eq.symm.trans block_eq)
          rename_i found before after routine decl heading
          have hroutines : root.block.routines = before ++ routine :: after := routines_eq
          rw [hroutines] at hbodies
          have hbefore := List.forall₂_take_append _ _ _ hbodies
          obtain ⟨body, rest, hrelated, -, hdrop⟩ :=
            List.forall₂_cons_right_iff.mp (List.forall₂_drop_append _ _ _ hbodies)
          have hsplit : inner = inner.take before.length ++ body :: rest := by
            rw [← hdrop, List.take_append_drop]
          have hready := ready.inside opened.progress
          rw [hsplit] at hready
          have hmem : body ∈ inner := by
            rw [hsplit]
            exact List.mem_append_right _ List.mem_cons_self
          obtain ⟨hnext, hheld⟩ := hready.after (fun found hfound => hinner _ hdepth found
            (List.mem_of_mem_take hfound)) hbefore (opened.held begins) bodies
          obtain ⟨decl', heading', hdecl', hkind', hbody', hparams, howns⟩ :=
            exists_heading hrelated hheld
          obtain rfl := Option.some.inj (hdecl'.symm.trans decl_eq)
          obtain rfl := DeclKind.routine.inj (hkind'.symm.trans kind_eq)
          obtain rfl := Option.some.inj (hbody'.symm.trans body_eq)
          rw [howns, hparams] at binds
          obtain ⟨around, found, occurs, hid, hnames⟩ :=
            ih body hmem (hinner _ hdepth body hmem).2 hnext.head binds
          refine ⟨around, found, Skeleton.Occurs.trans ?_ occurs, hid, hnames⟩
          have htop : Skeleton.Occurs site (.mk root inner) site
              (.mk root (inner.take before.length ++ body :: rest)) := by
            rw [← hsplit]
            exact .top
          exact .body htop

/-! ### Every block has its statements bound -/

theorem exists_of_run_ask_bind_eq_ok {α β : Type} {query : Tree → Except Diagnostic α}
    {next : α → Check β} {start final : Checking} {result : β} {answer : α}
    (hquery : query start.tree = .ok answer)
    (h : (ask query >>= next).run start = .ok result final) :
    (next answer).run start = .ok result final := by
  obtain ⟨value, middle, hask, hnext⟩ := exists_of_run_bind_eq_ok h
  have hends : Ends (ask query) start (fun value state => value = answer ∧ state = start)
      fun _ _ => True := ends_ask hquery ⟨rfl, rfl⟩
  obtain ⟨rfl, rfl⟩ := hends.of_run_eq_ok hask
  exact hnext

/-- When a block is checked, the statements of all blocks in it are bound. -/
theorem exists_bindsStatements {skeleton : Skeleton} (wellFormed : skeleton.WellFormed)
    {depth : Nat} {start final : Checking} {site : Site} {outer : BlockId} {owner : String}
    (hdepth : skeleton.nodes.length ≤ depth) (ready : ReadyAll start site outer [skeleton])
    (hrun : (block depth skeleton.id owner (skeleton.root.params.map Numbered.id)
      skeleton.root.ownsFrame).run start = .ok () final) :
    ∀ inside ∈ skeleton.blockIds, ∃ state, BindsStatements depth skeleton.id owner
      (skeleton.root.params.map Numbered.id) skeleton.root.ownsFrame start inside state := by
  induction wellFormed generalizing depth start final site outer owner with
  | @mk root inner root_wellFormed hbodies routines inner_wellFormed ih =>
      have begins := ready.begins
      obtain ⟨depth, rfl⟩ : ∃ less, depth = less + 1 :=
        Nat.exists_eq_succ_of_ne_zero
          (Nat.ne_zero_of_lt (Nat.lt_of_lt_of_le (Nat.succ_pos _) hdepth))
      have hinner : ∀ body ∈ inner, BlockEnds body ∧ body.nodes.length ≤ depth := by
        intro body hbody
        have hless : body.nodes.length < (Skeleton.mk root inner).nodes.length :=
          Skeleton.length_nodes_lt hbody
        exact ⟨ends_block (inner_wellFormed body hbody), by omega⟩
      rw [block_succ] at hrun
      obtain ⟨_, opened, hopens, hrest⟩ := exists_of_run_bind_eq_ok hrun
      have hopened := (ends_opening begins owner).of_run_eq_ok hopens
      have hbodiesRun := exists_of_run_ask_bind_eq_ok
        (Tree.block_eq_ok hopened.progress.block_eq) hrest
      obtain ⟨_, nested, hnested, -⟩ := exists_of_run_bind_eq_ok hbodiesRun
      intro inside hinside
      rw [Skeleton.blockIds_eq] at hinside
      rcases List.mem_cons.mp hinside with rfl | hinside
      · exact ⟨nested, .own hopens hopened.progress.block_eq hnested⟩
      · obtain ⟨body, hbody, hmem⟩ := List.mem_flatMap.mp hinside
        obtain ⟨before, after, rfl⟩ := List.append_of_mem hbody
        have hready := ready.inside hopened.progress
        have hbefore := List.forall₂_take_append _ _ _ hbodies.flip
        obtain ⟨routine, rest, hrelated, -, hdrop⟩ :=
          List.forall₂_cons_right_iff.mp (List.forall₂_drop_append _ _ _ hbodies.flip)
        have hroutines : root.block.routines =
            root.block.routines.take before.length ++ routine :: rest := by
          rw [← hdrop, List.take_append_drop]
        change (root.block.routines.forM (Check.body depth)).run opened = _ at hnested
        rw [hroutines, List.forM_eq_forM, List.forM_append] at hnested
        obtain ⟨_, reached, hreached, htail⟩ := exists_of_run_bind_eq_ok hnested
        obtain ⟨_, last, hbodyRun, -⟩ := exists_of_run_bind_eq_ok htail
        obtain ⟨hnext, hheld⟩ := hready.after (fun found hfound =>
          hinner found (List.mem_append_left _ hfound)) hbefore.flip (hopened.held begins) hreached
        obtain ⟨decl, heading, hdecl, hkind, hheading, hparams, howns⟩ :=
          exists_heading hrelated hheld
        have hblockRun := exists_of_run_ask_bind_eq_ok (Tree.decl_eq_ok hdecl) hbodyRun
        obtain ⟨result, params, body?⟩ := heading
        cases hheading
        rw [hkind] at hblockRun
        change (block depth body.id decl.name params (!params.isEmpty)).run reached = _ at hblockRun
        change (!params.isEmpty) = _ at howns
        change params = _ at hparams
        rw [howns, hparams] at hblockRun
        obtain ⟨state, binds⟩ := ih body hbody (hinner body hbody).2 hnext.head hblockRun inside
          hmem
        rw [← hparams, ← howns] at binds
        exact ⟨state, .inner hopens hopened.progress.block_eq hroutines hreached hdecl hkind rfl
          binds⟩

end Check

/-! ### What names stand for in the end -/

namespace CheckedProgram

variable {outline : Outline} {skeleton body : Skeleton} {tree : Tree} {site : Site}

theorem enclosing?_eq (program : CheckedProgram outline skeleton tree)
    (occurs : Occurs outline skeleton site body) :
    tree.enclosing? body.id = (Tree.ofOutline outline).enclosing? body.id := by
  obtain ⟨statements, hblock, -⟩ := (occurs.checked program.checked).node.block
  rw [Tree.enclosing?, Tree.enclosing?, hblock,
    program.hasSkeleton.block _ (Outline.HasSkeleton.root_mem_nodes occurs)]
  rfl

theorem lookup_library (program : CheckedProgram outline skeleton tree) :
    tree.lookup libraryBlock = Library.names (Tree.ofOutline outline).decls.size := by
  funext name
  have haround : tree.lookupAround libraryBlock name = none := by
    rw [Tree.lookupAround, Tree.enclosing?, program.library_eq]
    rfl
  have htable : tree.tableAt libraryBlock =
      tableOf (Library.numbered (Tree.ofOutline outline).decls.size) := by
    rw [Tree.tableAt, program.library_eq]
    rfl
  rw [Tree.lookup_eq program.descends, haround, htable]
  rfl

/-- In a checked program names stand in a block for what is declared there, or else for
what they stand for at the site of the block. -/
theorem lookup_eq (program : CheckedProgram outline skeleton tree)
    (occurs : Occurs outline skeleton site body) :
    tree.lookup body.id = (site.inside body.root).names := by
  have step : ∀ {site body outer}, Occurs outline skeleton site body →
      tree.enclosing? body.id = some outer → tree.lookup outer = site.names →
      tree.lookup body.id = (site.inside body.root).names := by
    intro site body outer occurs houter hnames
    obtain ⟨statements, hblock, -⟩ := (occurs.checked program.checked).node.block
    have htable : tree.tableAt body.id = tableOf body.root.declared := by
      rw [Tree.tableAt, hblock]
      rfl
    funext name
    rw [Tree.lookup_eq program.descends, htable, Tree.lookupAround, houter, Option.bind_some,
      hnames]
    rfl
  induction occurs with
  | top =>
      refine step .top ?_ program.lookup_library
      rw [program.enclosing?_eq .top]
      exact program.hasSkeleton.enclosing?_top
  | @body around root before after body outer ih =>
      have henclosing := program.enclosing?_eq (.body outer)
      rw [program.hasSkeleton.enclosing?_body outer] at henclosing
      refine step (.body outer) henclosing ?_
      rw [Site.names_resumedAll]
      exact ih

/-- The names of every block mean what they mean in the program as it is written. -/
theorem means (program : CheckedProgram outline skeleton tree)
    (underway : Check.Underway outline tree) {id : BlockId} (hid : id < tree.blocks.size) :
    tree.Means (tree.lookup id) ((Tree.ofOutline outline).meaning id) := by
  obtain ⟨opened, library, herased⟩ := underway
  have hopened : ∀ {names meaning}, opened.Means names meaning → tree.Means names meaning := by
    intro names meaning means name
    rw [← means name, Option.map_bind, Option.map_bind]
    congr 1
    funext id
    exact Tree.decl_of_erased_eq herased id
  by_cases hlibrary : id = libraryBlock
  · subst hlibrary
    rw [program.lookup_library]
    exact hopened (library.means_library program.hasSkeleton)
  · obtain ⟨node, hnode, rfl⟩ := List.mem_map.mp (program.mem_blockIds hlibrary hid)
    obtain ⟨site, body, occurs, rfl⟩ := Skeleton.exists_occurs
      (Library.site (Tree.ofOutline outline).decls.size) skeleton node hnode
    rw [program.lookup_eq occurs]
    refine hopened (program.hasSkeleton.means_inside library (fun node hnode => ?_) occurs)
    obtain ⟨site, body, occurs, rfl⟩ := Skeleton.exists_occurs
      (Library.site (Tree.ofOutline outline).decls.size) skeleton node hnode
    exact (occurs.checked program.checked).node.names_nodup

/-- Every use of a name in a declaration carries a binding. -/
theorem isResolved (program : CheckedProgram outline skeleton tree) {id : DeclId} {decl : Decl}
    (hdecl : tree.decls[id]? = some decl) : decl.kind.IsResolved := by
  have h := program.hasSkeleton
  rcases program.decl_cases (Array.getElem?_eq_some_iff.mp hdecl).1 with
    ⟨x, hx, rfl⟩ | ⟨x, hx, rfl⟩
  · obtain rfl := Option.some.inj ((program.declared x hx).symm.trans hdecl)
    have hmem : x.decl ∈ Library.decls := by
      rw [← Library.map_decl_numberFrom (Tree.ofOutline outline).decls.size Library.decls]
      exact List.mem_map_of_mem hx
    have hnone : ∀ decl ∈ Library.decls, decl.kind.uses = [] := by
      decide
    intro use huse
    change use ∈ x.decl.kind.uses at huse
    rw [hnone x.decl hmem] at huse
    exact absurd huse List.not_mem_nil
  · obtain ⟨node, hnode, hxNode⟩ := List.mem_flatMap.mp hx
    obtain ⟨site, body, occurs, rfl⟩ := Skeleton.exists_occurs
      (Library.site (Tree.ofOutline outline).decls.size) skeleton node hnode
    have wellFormed := (occurs.wellFormed h.wellFormed).node
    have checked := (occurs.checked program.checked).node
    rcases List.mem_append.mp hxNode with hparam | hentries
    · -- a parameter was bound with its routine, in the block around its own
      rcases h.occurs_cases occurs with rfl | ⟨root, hroot, routine, hrelated⟩
      · rw [h.params_eq] at hparam
        exact absurd hparam List.not_mem_nil
      · obtain ⟨-, -, -, entry, hentry, -, result, hkind⟩ := hrelated
        obtain ⟨around, found, outer, rfl⟩ := Skeleton.exists_occurs
          (Library.site (Tree.ofOutline outline).decls.size) skeleton root hroot
        obtain ⟨before, after, hsplit⟩ := List.append_of_mem hentry
        have hchecked := (outer.checked program.checked).node.entries before entry after hsplit
        have hmem : x.id ∈ entry.declared.decl.kind.params := by
          rw [hkind]
          exact List.mem_map_of_mem hparam
        obtain ⟨found, hfound, hresolved⟩ := hchecked.params x.id hmem
        obtain rfl := Option.some.inj (hfound.symm.trans hdecl)
        exact hresolved
    · obtain ⟨entry, hentry, hxEntry⟩ := List.mem_flatMap.mp hentries
      rcases List.mem_cons.mp hxEntry with rfl | hliteral
      · obtain ⟨before, after, hsplit⟩ := List.append_of_mem hentry
        obtain ⟨found, hfound, hbound⟩ := (checked.entries before entry after hsplit).bound
        obtain rfl := Option.some.inj (hfound.symm.trans hdecl)
        exact Check.isResolved_of_bound hbound
      · obtain ⟨code, hcode⟩ := wellFormed.literals_kind entry hentry x hliteral
        have herased := program.erased_eq x hx
        rw [hdecl, Option.map_some] at herased
        have hkind : decl.kind.erased = x.decl.kind.erased :=
          congrArg Decl.kind (Option.some.inj herased)
        rw [hcode] at hkind
        intro use huse
        cases hfound : decl.kind with
        | enumLiteral =>
            rw [hfound] at huse
            exact absurd huse List.not_mem_nil
        | constant | type | variableOf | parameter | routine =>
            rw [hfound] at hkind
            cases hkind

/-- Every use of a name in a statement is bound to what the name stands for in its block. -/
theorem decl?_eq_lookup (program : CheckedProgram outline skeleton tree) {id : BlockId}
    {block : Block} (hblock : tree.blocks[id]? = some block) {use : Use}
    (huse : use ∈ Statement.usesAll block.statements) :
    ∃ found, use.2.decl? = some found ∧ tree.lookup id use.2.name = some found := by
  by_cases hlibrary : id = libraryBlock
  · subst hlibrary
    obtain rfl := Option.some.inj (program.library_eq.symm.trans hblock)
    exact absurd huse List.not_mem_nil
  · have hid := program.mem_blockIds hlibrary (Array.getElem?_eq_some_iff.mp hblock).1
    obtain ⟨site, body, occurs, rfl, checked⟩ := program.exists_occurs hid
    obtain ⟨statements, hfound, -, hbound⟩ := checked.node.block
    obtain rfl := Option.some.inj (hfound.symm.trans hblock)
    obtain ⟨found, -, hdecl?, hname, -⟩ := hbound use huse
    exact ⟨found, hdecl?, by rw [program.lookup_eq occurs, hname]⟩

/-- When a statement of the program is bound, its names stand for what they stand for in
the end. -/
theorem lookup_of_bindsStatements (program : CheckedProgram outline skeleton tree) {log : Log}
    {inside : BlockId} {state : Checking}
    (binds : Check.ProgramBindsStatements
      { tree := .ofOutline outline, scope := .library, log } inside state) :
    state.tree.lookup inside = tree.lookup inside := by
  have h := program.hasSkeleton
  obtain ⟨opened, hopened, binds⟩ := binds
  obtain ⟨hscope, library⟩ := Check.libraryDeclared_of_run h hopened
  obtain ⟨hbody, hparams, howns, hdepth⟩ := library.block_eq_block h
  rw [hbody, ← hparams, ← howns] at binds
  obtain ⟨around, body, occurs, rfl, hnames⟩ :=
    binds.exists_occurs h.wellFormed hdepth (library.ready h hscope)
  rw [hnames, program.lookup_eq occurs]

/-- When a program is checked, the statements of all its blocks are bound. -/
theorem exists_bindsStatements (h : Outline.HasSkeleton outline skeleton) {log : Log}
    (hresult : ((Tree.ofOutline outline).check log).result = .ok ()) {id : BlockId}
    (hid : id ∈ skeleton.blockIds) :
    ∃ state, Check.ProgramBindsStatements
      { tree := .ofOutline outline, scope := .library, log } id state := by
  have hunchecked : ¬(Tree.ofOutline outline).checked = true := Bool.false_ne_true
  rw [Tree.check, if_neg hunchecked] at hresult
  cases hrun : Check.program.run { tree := .ofOutline outline, scope := .library, log } with
  | error diagnostic final =>
      rw [hrun] at hresult
      cases hresult
  | ok _ final =>
      obtain ⟨_, opened, hopened, hrest⟩ := Check.exists_of_run_bind_eq_ok hrun
      obtain ⟨hscope, library⟩ := Check.libraryDeclared_of_run h hopened
      obtain ⟨hbody, hparams, howns, hdepth⟩ := library.block_eq_block h
      obtain ⟨_, checked, hblock, -⟩ := Check.exists_of_run_bind_eq_ok
        (show (Check.block _ _ _ _ _ >>= _).run opened = _ from hrest)
      rw [hbody, ← hparams, ← howns] at hblock
      obtain ⟨state, binds⟩ := Check.exists_bindsStatements h.wellFormed hdepth
        (library.ready h hscope) hblock id hid
      refine ⟨state, opened, hopened, ?_⟩
      rw [hbody, ← hparams, ← howns]
      exact binds

end CheckedProgram

end MiniPascal
