import MiniPascal.Proofs.Check.Declare

/-!
# Checking a block and all inside it

Checking a block ends with the block and all blocks inside it checked at their
sites, and gives back the scope with the words that the block took in a frame
around it; or it ends with a refusal.  The proof follows the skeleton: a block's
own declarations first, then the bodies inside it, then its statements.
-/

namespace MiniPascal

/-! ### Entering and leaving -/

/-- A routine without its bindings is still that routine. -/
theorem DeclKind.eq_routine_of_erased_eq {kind : DeclKind} {heading : Routine}
    (h : kind.erased = (DeclKind.routine heading).erased) :
    ∃ result, kind = .routine { heading with result } := by
  cases kind with
  | routine found =>
      obtain ⟨-, hparams, hbody⟩ := Routine.mk.inj (DeclKind.routine.inj h)
      refine ⟨found.result, ?_⟩
      rw [← hparams, ← hbody]
  | constant | type | variableOf | parameter | enumLiteral => cases h

namespace Node.WellFormed

variable {node : Node}

theorem table_eq (h : node.WellFormed) : node.block.table = [] :=
  congrArg Block.table h.block_bare

theorem frameBytes_eq (h : node.WellFormed) : node.block.frameBytes = 0 :=
  congrArg Block.frameBytes h.block_bare

end Node.WellFormed

namespace Skeleton

theorem length_frameWordsAll_cons (first : Skeleton) (others : List Skeleton) :
    (frameWordsAll (first :: others)).length =
      first.sharedWords + (frameWordsAll others).length := by
  rw [frameWordsAll, List.length_append, sharedWords]
  split <;> rfl

theorem length_frameWords (root : Node) (inner : List Skeleton) :
    (mk root inner).frameWords.length = root.words.length + (frameWordsAll inner).length := by
  rw [frameWords, List.length_append]

/-- A body has fewer blocks than the block it is in. -/
theorem length_nodes_lt {root : Node} {inner : List Skeleton} {body : Skeleton}
    (h : body ∈ inner) : body.nodes.length < (mk root inner).nodes.length := by
  rw [nodes, List.length_cons, nodesAll_eq_flatMap]
  exact Nat.lt_succ_of_le (List.sublist_flatten_of_mem (List.mem_map_of_mem h)).length_le

/-- The blocks inside a block have larger numbers. -/
theorem WellFormed.id_le {skeleton : Skeleton} (wellFormed : skeleton.WellFormed) :
    ∀ id ∈ skeleton.blockIds, skeleton.id ≤ id := by
  induction wellFormed with
  | @mk root inner _ bodies _ _ ih =>
      intro id hid
      rw [blockIds_eq] at hid
      rcases List.mem_cons.mp hid with rfl | hid
      · exact Nat.le_refl _
      · obtain ⟨body, hbody, hid⟩ := List.mem_flatMap.mp hid
        obtain ⟨routine, -, hrelated⟩ := exists_of_forall₂_left bodies hbody
        exact Nat.le_trans (Nat.le_of_lt hrelated.2.2.1) (ih body hbody id hid)

/-- Every routine of a block has its body inside the block. -/
theorem WellFormed.exists_body {root : Node} {inner : List Skeleton}
    (wellFormed : (Skeleton.mk root inner).WellFormed)
    (nodup : (root.declared.map Numbered.id).Nodup)
    {entry : DeclEntry} (hentry : entry ∈ root.entries) {heading : Routine}
    (hkind : entry.declared.decl.kind = .routine heading) :
    ∃ body ∈ inner, BodyOf root.id root.entries body entry.declared.id ∧
      heading.params = body.root.params.map Numbered.id ∧ heading.body = some body.id := by
  cases wellFormed with
  | mk root_wellFormed bodies routines inner_wellFormed =>
      obtain ⟨body, hbody, hrelated⟩ :=
        exists_of_forall₂_right bodies (routines entry hentry heading hkind)
      refine ⟨body, hbody, hrelated, ?_⟩
      obtain ⟨-, -, -, other, hother, hid, result, hresult⟩ := hrelated
      have hmem : ∀ entry ∈ root.entries, entry.declared ∈ root.declared := fun entry hentry =>
        List.mem_append_right _ (List.mem_flatMap.mpr ⟨entry, hentry, List.mem_cons_self⟩)
      have hsame := List.inj_on_of_nodup_map nodup (hmem other hother) (hmem entry hentry) hid
      rw [hsame, hkind] at hresult
      obtain rfl := DeclKind.routine.inj hresult
      exact ⟨rfl, rfl⟩

end Skeleton

namespace Check

section Ends

variable {start state : Checking} {site : Site} {node : Node} {inside : List DeclId}

/-- A block is entered at its site, unless its frames are nested too deeply. -/
theorem ends_enterBlock (begins : Begins start site node inside) (owner : String) :
    Ends (enterBlock node.id owner node.ownsFrame) start
      (fun current final => current = site.entered node ∧
        (site.entered node).frameLevel ≤ Frame.maxLevel ∧
        Progress start site node inside (site.entered node) [] node.declared final)
      (Refused start.tree ((site.entered node).frameLevel ≤ Frame.maxLevel)) := by
  have hcurrent : (start.scope.push node.id node.ownsFrame).current = site.entered node := by
    rw [Site.entered, begins.level_eq]
    rfl
  refine ends_bind (ends_modify (ends_bind (ends_get ?_)))
  rw [hcurrent]
  refine ends_bind (ends_ask (Tree.block_eq_ok begins.block_eq) ?_)
  split
  · next hdeep => exact ends_throw ⟨rfl, rfl, Nat.not_le_of_gt hdeep⟩
  next hshallow =>
  refine ends_bind (ends_onTree rfl ?_)
  refine ends_pure ⟨rfl, Nat.le_of_not_lt hshallow, ?_⟩
  constructor
  case split => rfl
  case advances =>
    refine Tree.Advances.mono (Tree.Advances.modifyBlock start.tree node.id ?_)
      (List.Subset.refl _) (List.nil_subset _) (List.nil_subset _)
    exact fun _ _ => rfl
  case scope_eq =>
    rw [← hcurrent]
    rfl
  case block_eq =>
    have htable : node.block.table = tableOf [] := begins.wellFormed.table_eq
    rw [Tree.getElem?_blocks_modifyBlock, if_pos rfl, begins.block_eq, Option.map_some,
      Node.blockAt, htable]
  case names_nodup => exact List.nodup_nil

/-- The statements of a block are bound where everything around them is declared. -/
theorem ends_statements {names : String → Option DeclId} {block : Block} {id : BlockId}
    (hblock : state.tree.blocks[id]? = some block) (hnames : state.tree.lookup id = names)
    (inRange : InRange state.tree names) :
    Ends (statements id) state
      (fun _ final => final.scope = state.scope ∧ ∃ statements,
        final.tree = state.tree.modifyBlock id (fun block => { block with statements }) ∧
        state.tree.Advances final.tree [id] [] [] ∧
        Statement.erasedAll statements = Statement.erasedAll block.statements ∧
        ∀ use ∈ Statement.usesAll statements, state.tree.Bound names id use)
      (Refused state.tree
        (state.tree.AllBindable names id (Statement.usesAll block.statements))) := by
  have keeps := Binding.keepsUses_visit state.tree id
  refine ends_bind (ends_ask (Tree.block_eq_ok hblock) (ends_bind ?_))
  rw [← hnames] at inRange ⊢
  refine (ends_bindNames inRange (Statement.visited_traverseAll keeps block.statements _)).mono ?_
  rintro ⟨statements, failure?⟩ middle ⟨htree, hscope, herased, houtcome⟩
  refine ends_bind (ends_onTree rfl ?_)
  have advances : state.tree.Advances
      (state.tree.modifyBlock id fun block => { block with statements }) [id] [] [] := by
    refine Tree.Advances.modifyBlock state.tree id fun found hfound => ?_
    rw [hblock] at hfound
    obtain rfl := Option.some.inj hfound
    simp only [Block.erased]
    rw [herased]
  cases failure? with
  | none =>
      rw [htree]
      exact ends_pure ⟨hscope, statements, rfl, advances, herased, houtcome⟩
  | some diagnostic =>
      rw [htree]
      exact ends_throw ⟨houtcome.1, advances.erased_eq, houtcome.2⟩

/-- Leaving a block hands the next offset back if the block has no frame of its own. -/
theorem ends_leaveBlock {current around : ScopeLevel Int}
    {outer : List (ScopeLevel Int)} {id : BlockId}
    (hscope : state.scope = { current, outer := around :: outer }) (ownsFrame : Bool)
    {failed : Diagnostic → Checking → Prop} :
    Ends (leaveBlock id ownsFrame) state
      (fun _ final => final.scope = {
          current := if current.ownsFrame then around
            else { around with nextOffset := current.nextOffset }
          outer } ∧
        final.tree = state.tree.modifyBlock id fun block => { block with
          localBytes := current.ownBytes
          frameBytes := if ownsFrame then Frame.firstLocalOffset - current.nextOffset
            else block.frameBytes })
      failed := by
  refine ends_bind (ends_get ?_)
  rw [hscope]
  exact ends_bind (ends_modify (ends_onTree rfl ⟨rfl, rfl⟩))

end Ends

/-! ### Bodies one after another -/

/-- Blocks can be checked inside a block: everything in them is still to be
checked, and the names around them are those of their site. -/
structure ReadyAll (state : Checking) (site : Site) (outer : BlockId) (bodies : List Skeleton) :
    Prop where
  level_eq : site.level = state.scope.current
  names_eq : state.tree.lookup outer = site.names
  enclosing_eq : ∀ body ∈ bodies, state.tree.enclosing? body.id = some outer
  descends : state.tree.Descends
  inRange : InRange state.tree site.names
  block_eq : ∀ node ∈ bodies.flatMap Skeleton.nodes, state.tree.blocks[node.id]? = some node.block
  awaits : ∀ x ∈ bodies.flatMap Skeleton.declared, state.tree.Awaits x
  declIds_nodup : (bodies.flatMap Skeleton.declIds).Nodup
  blockIds_nodup : (bodies.flatMap Skeleton.blockIds).Nodup
  wellFormed : ∀ body ∈ bodies, body.WellFormed

/-- Blocks were checked one after another, and nothing else was touched. -/
structure FinishedAll (start : Checking) (site : Site) (bodies : List Skeleton)
    (final : Checking) : Prop where
  advances : start.tree.Advances final.tree (bodies.flatMap Skeleton.blockIds)
    (bodies.flatMap Skeleton.declIds) (bodies.flatMap Skeleton.declIds)
  scope_eq : final.scope = { start.scope with
    current := start.scope.current.resumed (Skeleton.frameWordsAll bodies).length }
  checked : Skeleton.CheckedAll final.tree site bodies

section Bodies

variable {start state middle final : Checking} {site : Site} {outer : BlockId}
variable {first : Skeleton} {others : List Skeleton}

theorem ReadyAll.head (ready : ReadyAll state site outer (first :: others)) :
    ReadyAll state site outer [first] where
  level_eq := ready.level_eq
  names_eq := ready.names_eq
  enclosing_eq body hbody :=
    ready.enclosing_eq body (List.mem_singleton.mp hbody ▸ List.mem_cons_self)
  descends := ready.descends
  inRange := ready.inRange
  block_eq node hnode := by
    rw [List.flatMap_singleton] at hnode
    exact ready.block_eq node (List.mem_append_left _ hnode)
  awaits x hx := by
    rw [List.flatMap_singleton] at hx
    exact ready.awaits x (List.mem_append_left _ hx)
  declIds_nodup := by
    rw [List.flatMap_singleton]
    exact (List.nodup_append'.mp ready.declIds_nodup).1
  blockIds_nodup := by
    rw [List.flatMap_singleton]
    exact (List.nodup_append'.mp ready.blockIds_nodup).1
  wellFormed body hbody :=
    ready.wellFormed body (List.mem_singleton.mp hbody ▸ List.mem_cons_self)

/-- The block around the bodies has a smaller number than all of them. -/
theorem ReadyAll.outer_lt (ready : ReadyAll state site outer (first :: others)) :
    ∀ id ∈ first.blockIds, outer < id := by
  intro id hid
  have hlt := ready.descends first.id outer (ready.enclosing_eq first List.mem_cons_self)
  exact Nat.lt_of_lt_of_le hlt ((ready.wellFormed first List.mem_cons_self).id_le id hid)

/-- After the first of several bodies the others can still be checked. -/
theorem ReadyAll.tail (ready : ReadyAll state site outer (first :: others))
    (finished : FinishedAll state site [first] middle) :
    ReadyAll middle (site.resumed first) outer others := by
  have advances := finished.advances
  rw [List.flatMap_singleton, List.flatMap_singleton] at advances
  have hblocks := List.nodup_append'.mp ready.blockIds_nodup
  have hdecls := List.nodup_append'.mp ready.declIds_nodup
  constructor
  case level_eq =>
    rw [finished.scope_eq, Skeleton.length_frameWordsAll_cons]
    exact congrArg (ScopeLevel.resumed first.sharedWords) ready.level_eq
  case names_eq =>
    rw [advances.lookup_eq ready.descends ready.outer_lt]
    exact ready.names_eq
  case enclosing_eq =>
    intro body hbody
    rw [Tree.enclosing?_of_erased_eq advances.erased_eq]
    exact ready.enclosing_eq body (List.mem_cons_of_mem _ hbody)
  case descends => exact ready.descends.of_erased_eq advances.erased_eq
  case inRange => exact ready.inRange.of_erased_eq advances.erased_eq
  case block_eq =>
    intro node hnode
    obtain ⟨body, hbody, hnode'⟩ := List.mem_flatMap.mp hnode
    rw [advances.block node.id fun hmem => hblocks.2.2 hmem
      (List.mem_flatMap.mpr ⟨body, hbody, List.mem_map_of_mem hnode'⟩)]
    exact ready.block_eq node (List.mem_append_right _ hnode)
  case awaits =>
    intro x hx
    obtain ⟨body, hbody, hx'⟩ := List.mem_flatMap.mp hx
    refine advances.awaits (fun hmem => hdecls.2.2 hmem
      (List.mem_flatMap.mpr ⟨body, hbody, List.mem_map_of_mem hx'⟩)) ?_
    exact ready.awaits x (List.mem_append_right _ hx)
  case declIds_nodup => exact hdecls.2.1
  case blockIds_nodup => exact hblocks.2.1
  case wellFormed =>
    exact fun body hbody => ready.wellFormed body (List.mem_cons_of_mem _ hbody)

theorem FinishedAll.cons (ready : ReadyAll state site outer (first :: others))
    (finished : FinishedAll state site [first] middle)
    (rest : FinishedAll middle (site.resumed first) others final) :
    FinishedAll state site (first :: others) final := by
  have advances := finished.advances
  rw [List.flatMap_singleton, List.flatMap_singleton] at advances
  have hblocks := List.nodup_append'.mp ready.blockIds_nodup
  have hdecls := List.nodup_append'.mp ready.declIds_nodup
  constructor
  case advances =>
    rw [List.flatMap_cons, List.flatMap_cons]
    exact (advances.mono (List.subset_append_left _ _) (List.subset_append_left _ _)
      (List.subset_append_left _ _)).trans (rest.advances.mono (List.subset_append_right _ _)
        (List.subset_append_right _ _) (List.subset_append_right _ _))
  case scope_eq =>
    rw [rest.scope_eq, finished.scope_eq, Skeleton.length_frameWordsAll_cons,
      Skeleton.length_frameWordsAll_cons]
    simp only [ScopeLevel.resumed_resumed]
    rfl
  case checked =>
    refine ⟨?_, rest.checked⟩
    exact rest.advances.checked site first
      (fun id hid hmem => hblocks.2.2 hid hmem)
      (fun id hid hmem => hdecls.2.2 hid hmem) (fun id hid hmem => hdecls.2.2 hid hmem)
      finished.checked.1

theorem FinishedAll.nil (state : Checking) (site : Site) : FinishedAll state site [] state where
  advances := .refl _
  scope_eq := by
    simp [Skeleton.frameWordsAll]
  checked := trivial

end Bodies

/-! ### Whole blocks -/

section Whole

variable {start : Checking} {site : Site} {outer : BlockId} {root : Node} {inner : List Skeleton}

theorem ReadyAll.begins (ready : ReadyAll start site outer [.mk root inner]) :
    Begins start site root (inner.flatMap Skeleton.declIds) := by
  have hdecls := ready.declIds_nodup
  rw [List.flatMap_singleton, Skeleton.declIds_eq] at hdecls
  obtain ⟨hroot, -, hdisjoint⟩ := List.nodup_append'.mp hdecls
  have hwellFormed := ready.wellFormed _ (List.mem_singleton_self _)
  have hmem : ∀ x ∈ (Skeleton.mk root inner).declared,
      x ∈ [Skeleton.mk root inner].flatMap Skeleton.declared := fun x hx => by
    rwa [List.flatMap_singleton]
  constructor
  case level_eq => exact ready.level_eq
  case names_eq =>
    funext name
    have henclosing : start.tree.enclosing? root.id = some outer :=
      ready.enclosing_eq _ (List.mem_singleton_self _)
    rw [Tree.lookupAround, henclosing, Option.bind_some, ready.names_eq]
  case descends => exact ready.descends
  case inRange => exact ready.inRange
  case block_eq =>
    refine ready.block_eq root ?_
    rw [List.flatMap_singleton]
    exact Skeleton.root_mem_nodes _
  case awaits =>
    intro x hx
    refine ready.awaits x (hmem x ?_)
    rw [Skeleton.declared_eq]
    exact List.mem_append_left _ hx
  case ids_nodup => exact hroot
  case wellFormed => cases hwellFormed; assumption
  case params =>
    intro entry hentry id hid
    cases hkind : entry.declared.decl.kind with
    | routine heading =>
        obtain ⟨body, hbody, -, hparams, -⟩ := hwellFormed.exists_body hroot hentry hkind
        rw [hkind, DeclKind.params, hparams] at hid
        obtain ⟨x, hx, rfl⟩ := List.mem_map.mp hid
        have hinside : x ∈ body.declared := by
          rw [Skeleton.declared_eq]
          exact List.mem_append_left _ (List.mem_append_left _ hx)
        obtain ⟨ref, href⟩ : ∃ ref, x.decl.kind = .parameter ref := by
          cases hwellFormed with
          | mk _ _ _ inner_wellFormed => exact (inner_wellFormed body hbody).node.params_kind x hx
        refine ⟨(ready.awaits x (hmem x ?_)).isParameter href, ?_⟩
        · exact Skeleton.declared_subset_of_mem_inner hbody hinside
        · exact List.mem_flatMap.mpr ⟨body, hbody, List.mem_map_of_mem hinside⟩
    | _ =>
        rw [hkind] at hid
        exact absurd hid List.not_mem_nil
  case notMem_inside => exact fun x hx hmem => hdisjoint (List.mem_map_of_mem hx) hmem

/-- With its own declarations checked, a block is ready for the bodies inside it. -/
theorem ReadyAll.inside (ready : ReadyAll start site outer [.mk root inner]) {state : Checking}
    (progress : Progress start site root (inner.flatMap Skeleton.declIds)
      ((site.entered root).allocated root.words.length) root.declared [] state) :
    ReadyAll state (site.inside root) root.id inner := by
  have begins := ready.begins
  have hdecls := ready.declIds_nodup
  rw [List.flatMap_singleton, Skeleton.declIds_eq] at hdecls
  obtain ⟨-, hinner, hdisjoint⟩ := List.nodup_append'.mp hdecls
  have hblocks := ready.blockIds_nodup
  rw [List.flatMap_singleton, Skeleton.blockIds_eq] at hblocks
  obtain ⟨hroot, hblocksInner⟩ := List.nodup_cons.mp hblocks
  have hkept : ∀ body ∈ inner, ∀ node ∈ body.nodes,
      state.tree.blocks[node.id]? = some node.block := by
    intro body hbody node hnode
    have hne : node.id ∉ [root.id] := by
      rw [List.mem_singleton]
      intro heq
      exact hroot (List.mem_flatMap.mpr ⟨body, hbody, List.mem_map.mpr ⟨node, hnode, heq⟩⟩)
    rw [progress.advances.block node.id hne]
    refine ready.block_eq node ?_
    rw [List.flatMap_singleton]
    exact Skeleton.nodes_subset_of_mem_inner hbody hnode
  have hbodies : inner.Forall₂ (Skeleton.BodyOf root.id root.entries) root.block.routines := by
    cases ready.wellFormed _ (List.mem_singleton_self _)
    assumption
  constructor
  case level_eq => rw [progress.scope_eq]; rfl
  case names_eq => exact progress.lookup_eq begins
  case enclosing_eq =>
    intro body hbody
    obtain ⟨routine, -, hrelated⟩ := exists_of_forall₂_left hbodies hbody
    rw [Tree.enclosing?, hkept body hbody body.root (Skeleton.root_mem_nodes body)]
    exact hrelated.2.1
  case descends => exact progress.descends begins
  case inRange => exact progress.inRange begins
  case block_eq =>
    intro node hnode
    obtain ⟨body, hbody, hnode⟩ := List.mem_flatMap.mp hnode
    exact hkept body hbody node hnode
  case awaits =>
    intro x hx
    obtain ⟨body, hbody, hxBody⟩ := List.mem_flatMap.mp hx
    refine progress.advances.awaits (fun hmem => hdisjoint hmem ?_) (ready.awaits x ?_)
    · exact List.mem_flatMap.mpr ⟨body, hbody, List.mem_map_of_mem hxBody⟩
    · rw [List.flatMap_singleton]
      exact Skeleton.declared_subset_of_mem_inner hbody hxBody
  case declIds_nodup => exact hinner
  case blockIds_nodup => exact hblocksInner
  case wellFormed => cases ready.wellFormed _ (List.mem_singleton_self _); assumption

/-- The storage of a block whose bodies are checked, as its frame has it. -/
def finishedLevel (site : Site) (root : Node) (inner : List Skeleton) : ScopeLevel Int :=
  ((site.entered root).allocated root.words.length).resumed (Skeleton.frameWordsAll inner).length

theorem ownBytes_finishedLevel (site : Site) (root : Node) (inner : List Skeleton) :
    (finishedLevel site root inner).ownBytes = Frame.wordSize * root.words.length :=
  Int.zero_add _

/-- A block with a frame of its own has handed out the words of its frame. -/
theorem frameBytes_finishedLevel (site : Site) (inner : List Skeleton)
    (howns : root.ownsFrame = true) :
    Frame.firstLocalOffset - (finishedLevel site root inner).nextOffset =
      Frame.wordSize * (Skeleton.mk root inner).frameWords.length := by
  have hfirst : (site.entered root).nextOffset = Frame.firstLocalOffset := if_pos howns
  rw [Skeleton.length_frameWords, finishedLevel, ScopeLevel.resumed, ScopeLevel.allocated]
  simp only [hfirst, Int.natCast_add, Int.mul_add]
  omega

theorem frameBytes_eq_of_finished (site : Site) (inner : List Skeleton)
    (wellFormed : root.WellFormed) :
    (if root.ownsFrame then Frame.firstLocalOffset - (finishedLevel site root inner).nextOffset
      else root.block.frameBytes) =
      if root.ownsFrame then Frame.wordSize * (Skeleton.mk root inner).frameWords.length
        else 0 := by
  cases howns : root.ownsFrame with
  | true => exact frameBytes_finishedLevel site inner howns
  | false => exact wellFormed.frameBytes_eq

/-- A block without one hands them back to the block around it. -/
theorem resume_finishedLevel (site : Site) (root : Node) (inner : List Skeleton) :
    (if (finishedLevel site root inner).ownsFrame then site.level
      else { site.level with nextOffset := (finishedLevel site root inner).nextOffset }) =
      site.level.resumed (Skeleton.mk root inner).sharedWords := by
  rw [Skeleton.sharedWords]
  change (if root.ownsFrame then _ else _) = site.level.resumed (if root.ownsFrame then _ else _)
  cases howns : root.ownsFrame with
  | true => exact (ScopeLevel.resumed_zero _).symm
  | false =>
      have hfirst : (site.entered root).nextOffset = site.level.nextOffset := by
        simp [Site.entered, Scope.push, howns]
      simp only [Bool.false_eq_true, if_false, Skeleton.length_frameWords, finishedLevel,
        ScopeLevel.resumed, ScopeLevel.allocated, hfirst, Int.natCast_add, Int.mul_add, Int.sub_sub]

/-- Opening a block ends with everything that it declares itself checked. -/
structure Opened (start : Checking) (site : Site) (node : Node) (inside : List DeclId)
    (final : Checking) : Prop where
  frameLevel_le : (site.entered node).frameLevel ≤ Frame.maxLevel
  progress : Progress start site node inside ((site.entered node).allocated node.words.length)
    node.declared [] final
  params : ParamsChecked final.tree (site.entered node) node.params
  entries : EntriesChecked final.tree (site.entered node) site.names node.params node.entries

/-- A block is checked once its own declarations, the bodies inside it and its statements are. -/
theorem Opened.nodeChecked {declared nested final : Checking}
    (begins : Begins start site root (inner.flatMap Skeleton.declIds))
    (opened : Opened start site root (inner.flatMap Skeleton.declIds) declared)
    (bodies : FinishedAll declared (site.inside root) inner nested)
    (advances : nested.tree.Advances final.tree [root.id] [] [])
    (hblock : BlockChecked final.tree (site.entered root) (site.inside root).names root
      (Skeleton.mk root inner).frameWords.length) :
    NodeChecked final.tree site root (Skeleton.mk root inner).frameWords.length where
  block := hblock
  frameLevel_le := opened.frameLevel_le
  names_nodup := opened.progress.names_nodup
  params := by
    refine advances.paramsChecked (fun _ _ => List.not_mem_nil) ?_
    exact bodies.advances.paramsChecked
      (fun x hx => begins.notMem_inside x (List.mem_append_left _ hx)) opened.params
  entries := by
    refine advances.entriesChecked (fun _ _ => List.not_mem_nil)
      (fun _ _ => List.not_mem_nil) ?_
    refine bodies.advances.entriesChecked
      (fun x hx => begins.notMem_inside x (List.mem_append_right _ hx)) (fun entry hentry => ?_)
      opened.entries
    exact begins.notMem_inside _ (List.mem_append_right _
      (List.mem_flatMap.mpr ⟨entry, hentry, List.mem_cons_self⟩))

/-- Everything in a block is checked: its declarations, the bodies inside it, and
its statements at last. -/
theorem FinishedAll.single (ready : ReadyAll start site outer [.mk root inner])
    {declared nested : Checking} {final : Checking} {statements : List Statement}
    (opened : Opened start site root (inner.flatMap Skeleton.declIds) declared)
    (bodies : FinishedAll declared (site.inside root) inner nested)
    (herased : Statement.erasedAll statements = Statement.erasedAll root.block.statements)
    (huses : ∀ use ∈ Statement.usesAll statements,
      nested.tree.Bound (site.inside root).names root.id use)
    (hblock : final.tree.blocks[root.id]? = some
      { root.blockAt (site.entered root) (tableOf root.declared) with
        statements
        localBytes := Frame.wordSize * root.words.length
        frameBytes := if root.ownsFrame then
          Frame.wordSize * (Skeleton.mk root inner).frameWords.length else 0 })
    (advances : nested.tree.Advances final.tree [root.id] [] [])
    (hscope : final.scope = { start.scope with
      current := start.scope.current.resumed (Skeleton.mk root inner).sharedWords }) :
    FinishedAll start site [.mk root inner] final := by
  have hblocks := ready.blockIds_nodup
  rw [List.flatMap_singleton, Skeleton.blockIds_eq] at hblocks
  have hroot := (List.nodup_cons.mp hblocks).1
  have hsubset : inner.flatMap Skeleton.declIds ⊆ (Skeleton.mk root inner).declIds := by
    rw [Skeleton.declIds_eq]
    exact List.subset_append_right _ _
  have hown : root.declared.map Numbered.id ⊆ (Skeleton.mk root inner).declIds := by
    rw [Skeleton.declIds_eq]
    exact List.subset_append_left _ _
  have hfirst : [root.id] ⊆ (Skeleton.mk root inner).blockIds :=
    List.cons_subset.mpr ⟨List.mem_cons_self, List.nil_subset _⟩
  have hinner : inner.flatMap Skeleton.blockIds ⊆ (Skeleton.mk root inner).blockIds := by
    rw [Skeleton.blockIds_eq]
    exact List.subset_cons_self _ _
  constructor
  case advances =>
    have hopened := opened.progress.advances.mono hfirst hown
      (List.append_subset.mpr ⟨hown, hsubset⟩)
    rw [List.flatMap_singleton, List.flatMap_singleton]
    exact (hopened.trans (bodies.advances.mono hinner hsubset hsubset)).trans
      (advances.mono hfirst (List.nil_subset _) (List.nil_subset _))
  case scope_eq =>
    rw [hscope, Skeleton.length_frameWordsAll_cons]
    rfl
  case checked =>
    refine ⟨⟨opened.nodeChecked ready.begins bodies advances ⟨statements, hblock, herased, ?_⟩,
      ?_⟩, trivial⟩
    · exact fun use huse => (huses use huse).of_erased_eq advances.erased_eq
    · refine advances.checkedAll _ inner ?_ (fun _ _ => List.not_mem_nil)
        (fun _ _ => List.not_mem_nil) bodies.checked
      intro id hid hmem
      obtain rfl := List.mem_singleton.mp hmem
      exact hroot hid

end Whole

/-- Whether checking a block and all inside it ends well or is refused. -/
def BlockEnds (skeleton : Skeleton) : Prop :=
  ∀ depth start site outer owner, skeleton.nodes.length ≤ depth →
    ReadyAll start site outer [skeleton] →
    Ends (block depth skeleton.id owner (skeleton.root.params.map Numbered.id)
        skeleton.root.ownsFrame) start
      (fun _ final => FinishedAll start site [skeleton] final)
      (Refused start.tree (skeleton.Legal start.tree site))

/-- A block is opened: it is entered, and everything that it declares itself is checked. -/
def opening (id : BlockId) (owner : String) (params : List DeclId) (ownsFrame : Bool) :
    Check Unit := do
  let current ← enterBlock id owner ownsFrame
  declareParams id current.level current.frameLevel 0 params
  (← ask (·.block id)).declarations.forM (declare id)

/-- The body of a routine is checked. -/
def body (depth : Nat) (routine : DeclId) : Check Unit := do
  let decl ← ask (·.decl routine)
  match decl.kind.routine? with
  | some { body := some body, params, .. } =>
    block depth body decl.name params (!params.isEmpty)
  | _ => return

/-- A block is checked in four steps. -/
theorem block_succ (depth : Nat) (id : BlockId) (owner : String) (params : List DeclId)
    (ownsFrame : Bool) :
    block (depth + 1) id owner params ownsFrame = (do
      opening id owner params ownsFrame
      let found ← ask (·.block id)
      found.routines.forM (body depth)
      statements id
      leaveBlock id ownsFrame) := by
  simp only [block, opening, bind_assoc]
  rfl

theorem ends_opening {start : Checking} {site : Site} {node : Node} {inside : List DeclId}
    (begins : Begins start site node inside) (owner : String) :
    Ends (opening node.id owner (node.params.map Numbered.id) node.ownsFrame) start
      (fun _ final => Opened start site node inside final)
      (Refused start.tree (NodeLegal start.tree site node)) := by
  refine ends_bind (((ends_enterBlock begins owner).mono ?_).refused rfl NodeLegal.frameLevel_le)
  rintro _ entered ⟨rfl, hshallow, hentered⟩
  have hnone : ParamsChecked entered.tree (site.entered node) [] := by
    intro index x hx
    cases hx
  refine ends_bind (((hentered.ends_declareParams begins node.params hnone).mono ?_).refused rfl
    NodeLegal.names_nodup)
  rintro _ opened ⟨hopened, hparams⟩
  rw [List.nil_append] at hopened hparams
  refine ends_bind (ends_ask (Tree.block_eq_ok hopened.block_eq) ?_)
  have hdeclarations : (node.blockAt (site.entered node) (tableOf node.params)).declarations =
      node.entries.map (·.declared.id) := begins.wellFormed.declarations_eq
  rw [hdeclarations]
  have hnoEntries : EntriesChecked opened.tree (site.entered node) site.names node.params [] := by
    intro before entry after heq
    exact absurd heq.symm (List.append_ne_nil_of_right_ne_nil before (List.cons_ne_nil entry after))
  have hstart : Progress start site node inside
      ((site.entered node).allocated (wordsOf []).length)
      (node.params ++ [].flatMap DeclEntry.all) (node.entries.flatMap DeclEntry.all) opened := by
    have hzero : (site.entered node).allocated (wordsOf []).length = site.entered node :=
      ScopeLevel.allocated_zero _
    rw [hzero, List.flatMap_nil, List.append_nil]
    exact hopened
  refine ((hstart.ends_declareEntries begins rfl hparams hnoEntries).mono ?_).refused rfl
    fun legal => ⟨legal.names_nodup, legal.entries⟩
  rintro _ declared ⟨hdeclared, hparams, hentries⟩
  exact ⟨hshallow, hdeclared, hparams, hentries⟩

/-- What a block declares is there without its annotations while the block is checked. -/
theorem Opened.held {start state : Checking} {site : Site} {node : Node} {inside : List DeclId}
    (begins : Begins start site node inside) (opened : Opened start site node inside state) :
    ∀ entry ∈ node.entries, state.tree.decls[entry.declared.id]?.map Decl.erased =
      some entry.declared.decl.erased := by
  intro entry hentry
  obtain ⟨decl, hdecl, herased, -⟩ := begins.awaits entry.declared (List.mem_append_right _
    (List.mem_flatMap.mpr ⟨entry, hentry, List.mem_cons_self⟩))
  rw [Tree.decl_of_erased_eq opened.progress.advances.erased_eq, hdecl, Option.map_some, herased]

/-- Checking the body of a routine is checking the block that belongs to it. -/
theorem exists_heading {node : Node} {skeleton : Skeleton} {routine : DeclId} {state : Checking}
    (related : Skeleton.BodyOf node.id node.entries skeleton routine)
    (held : ∀ entry ∈ node.entries, state.tree.decls[entry.declared.id]?.map Decl.erased =
      some entry.declared.decl.erased) :
    ∃ decl heading, state.tree.decls[routine]? = some decl ∧ decl.kind = .routine heading ∧
      heading.body = some skeleton.id ∧ heading.params = skeleton.root.params.map Numbered.id ∧
      (!heading.params.isEmpty) = skeleton.root.ownsFrame := by
  obtain ⟨hroutine, -, -, entry, hentry, rfl, result, hkind⟩ := related
  obtain ⟨decl, hdecl, herased⟩ := Option.map_eq_some_iff.mp (held entry hentry)
  have herasedKind : decl.kind.erased = entry.declared.decl.kind.erased :=
    congrArg Decl.kind herased
  rw [hkind] at herasedKind
  obtain ⟨result', hkind'⟩ := DeclKind.eq_routine_of_erased_eq herasedKind
  refine ⟨decl, _, hdecl, hkind', rfl, rfl, ?_⟩
  rw [Node.ownsFrame, hroutine, List.isEmpty_map]
  rfl

theorem ends_body {node : Node} {skeleton : Skeleton} {depth : Nat} {routine : DeclId}
    {state : Checking} {site : Site} (hends : BlockEnds skeleton)
    (hdepth : skeleton.nodes.length ≤ depth)
    (related : Skeleton.BodyOf node.id node.entries skeleton routine)
    (held : ∀ entry ∈ node.entries, state.tree.decls[entry.declared.id]?.map Decl.erased =
      some entry.declared.decl.erased)
    (ready : ReadyAll state site node.id [skeleton]) :
    Ends (body depth routine) state (fun _ final => FinishedAll state site [skeleton] final)
      (Refused state.tree (skeleton.Legal state.tree site)) := by
  obtain ⟨decl, ⟨result, params, body?⟩, hdecl, hkind, rfl, rfl, howns⟩ :=
    exists_heading related held
  refine ends_bind (ends_ask (Tree.decl_eq_ok hdecl) ?_)
  rw [hkind]
  change Ends (block depth skeleton.id decl.name (skeleton.root.params.map Numbered.id)
    (!(skeleton.root.params.map Numbered.id).isEmpty)) state _ _
  rw [howns]
  exact hends depth state site node.id decl.name hdepth ready

/-- A round for each routine checks all bodies. -/
theorem ends_bodies {node : Node} {depth : Nat} {state : Checking} {site : Site}
    {bodies : List Skeleton} {routines : List DeclId}
    (hends : ∀ body ∈ bodies, BlockEnds body ∧ body.nodes.length ≤ depth)
    (related : List.Forall₂ (Skeleton.BodyOf node.id node.entries) bodies routines)
    (held : ∀ entry ∈ node.entries, state.tree.decls[entry.declared.id]?.map Decl.erased =
      some entry.declared.decl.erased)
    (ready : ReadyAll state site node.id bodies) :
    Ends (routines.forM (body depth)) state (fun _ final => FinishedAll state site bodies final)
      (Refused state.tree (Skeleton.LegalAll state.tree site bodies)) := by
  induction related generalizing state site with
  | nil => exact ends_pure (.nil state site)
  | @cons skeleton routine bodies routines hbody related ih =>
      obtain ⟨⟨hend, hdepth⟩, hothers⟩ := List.forall_mem_cons.mp hends
      refine ends_bind (((ends_body hend hdepth hbody held ready.head).mono ?_).refused rfl
        Skeleton.LegalAll.head)
      intro _ middle finished
      have erased_eq := finished.advances.erased_eq
      have tail := @ih middle (site.resumed skeleton) hothers
        (fun entry hentry => (Tree.decl_of_erased_eq erased_eq _).trans (held entry hentry))
        (ready.tail finished)
      exact (tail.mono fun _ final rest => .cons ready finished rest).refused erased_eq
        fun legal => legal.tail.of_erased_eq erased_eq

/-- Statements of a block see everything that the block declares. -/
theorem FinishedAll.lookup_eq {start opened nested : Checking} {site : Site} {outer : BlockId}
    {root : Node} {inner : List Skeleton} (ready : ReadyAll start site outer [.mk root inner])
    (progress : Progress start site root (inner.flatMap Skeleton.declIds)
      ((site.entered root).allocated root.words.length) root.declared [] opened)
    (finished : FinishedAll opened (site.inside root) inner nested) :
    nested.tree.lookup root.id = (site.inside root).names := by
  have hready := ready.inside progress
  refine (finished.advances.lookup_eq hready.descends ?_).trans hready.names_eq
  intro id hid
  obtain ⟨body, hbody, hid⟩ := List.mem_flatMap.mp hid
  have hlt := hready.descends body.id root.id (hready.enclosing_eq body hbody)
  exact Nat.lt_of_lt_of_le hlt ((hready.wellFormed body hbody).id_le id hid)

theorem ends_block {skeleton : Skeleton} (wellFormed : skeleton.WellFormed) :
    BlockEnds skeleton := by
  induction wellFormed with
  | @mk root inner root_wellFormed hbodies routines inner_wellFormed ih =>
      intro depth start site outer owner hdepth ready
      have begins := ready.begins
      obtain ⟨depth, rfl⟩ : ∃ less, depth = less + 1 :=
        Nat.exists_eq_succ_of_ne_zero
          (Nat.ne_zero_of_lt (Nat.lt_of_lt_of_le (Nat.succ_pos _) hdepth))
      rw [block_succ]
      refine ends_bind (((ends_opening begins owner).mono ?_).refused rfl
        fun legal => legal.node)
      intro _ declared opened
      have progress := opened.progress
      have herased := progress.advances.erased_eq
      refine ends_bind (ends_ask (Tree.block_eq_ok progress.block_eq) ?_)
      have hends : ∀ body ∈ inner, BlockEnds body ∧ body.nodes.length ≤ depth := by
        intro body hbody
        have hless : body.nodes.length < (Skeleton.mk root inner).nodes.length :=
          Skeleton.length_nodes_lt hbody
        exact ⟨ih body hbody, by omega⟩
      refine ends_bind (((ends_bodies hends hbodies (opened.held begins)
        (ready.inside progress)).mono ?_).refused herased
          fun legal => legal.inner.of_erased_eq herased)
      intro _ nested finished
      have hblocks := ready.blockIds_nodup
      rw [List.flatMap_singleton, Skeleton.blockIds_eq] at hblocks
      have hkept := (finished.advances.block root.id (List.nodup_cons.mp hblocks).1).trans
        progress.block_eq
      have hnames := finished.lookup_eq ready progress
      have hrange := (ready.inside progress).inRange.of_erased_eq finished.advances.erased_eq
      have herasedNested := finished.advances.erased_eq.trans herased
      refine ends_bind (((ends_statements hkept hnames hrange).mono ?_).refused herasedNested
        fun legal => legal.node.statements.of_erased_eq herasedNested rfl)
      rintro _ bound ⟨hscope, statements, htree, hadvances, herased, huses⟩
      rw [finished.scope_eq, progress.scope_eq] at hscope
      refine (ends_leaveBlock hscope root.ownsFrame).mono ?_
      rintro _ final ⟨hfinalScope, hfinalTree⟩
      refine .single ready opened finished herased huses ?_ ?_ ?_
      · have hbound : bound.tree.blocks[root.id]? = some
            { root.blockAt (site.entered root) (tableOf root.declared) with statements } := by
          rw [htree]
          exact Tree.getElem?_blocks_modifyBlock_self hkept
        rw [hfinalTree]
        refine (Tree.getElem?_blocks_modifyBlock_self hbound).trans ?_
        exact congrArg₂ (fun localBytes frameBytes => some
          { root.blockAt (site.entered root) (tableOf root.declared) with
            statements, localBytes, frameBytes })
          (ownBytes_finishedLevel site root inner)
          (frameBytes_eq_of_finished site inner root_wellFormed)
      · have hleft : bound.tree.Advances final.tree [root.id] [] [] := by
          rw [hfinalTree]
          exact Tree.Advances.modifyBlock _ _ fun _ _ => rfl
        exact hadvances.trans hleft
      · have hresume := resume_finishedLevel site root inner
        rw [ready.level_eq] at hresume
        rw [hfinalScope, ← hresume]
        rfl

end Check

end MiniPascal
