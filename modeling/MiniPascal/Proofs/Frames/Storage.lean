import MiniPascal.Proofs.Check.Occurs
import MiniPascal.Proofs.Compile.Stages
import Mathlib.Data.List.Induction

/-!
# The storage of frames

The words of a frame are those of all blocks that share it: of the block that
owns it and, at any depth, of bodies of routines without parameters.  In a checked
tree they lie one below the other under the header of the frame, without gap or
overlap, and the frame is exactly large enough for them.
-/

namespace MiniPascal

/-! ### Words of a frame -/

namespace Frame

/-- Words of a frame one below the other, from the given offset down. -/
def wordsBelow (frameLevel : Nat) (first : Int) (count : Nat) : List (Option Layout) :=
  (List.range count).map fun index : Nat =>
    some { frameLevel, offset := first - wordSize * index }

theorem wordsBelow_add (frameLevel : Nat) (first : Int) (count count' : Nat) :
    wordsBelow frameLevel first (count + count') =
      wordsBelow frameLevel first count ++
        wordsBelow frameLevel (first - wordSize * (count : Int)) count' := by
  rw [wordsBelow, List.range_add, List.map_append, List.map_map]
  congr 1
  refine List.map_congr_left fun index _ => ?_
  simp only [Function.comp_apply, Int.natCast_add, Int.mul_add, Int.sub_sub]

theorem wordsBelow_nodup (frameLevel : Nat) (first : Int) (count : Nat) :
    (wordsBelow frameLevel first count).Nodup := by
  refine List.Nodup.map (fun index index' heq => ?_) List.nodup_range
  have hoffset := (Layout.mk.inj (Option.some.inj heq)).2
  simp only [wordSize] at hoffset
  omega

/-- Words at two offsets do not overlap. -/
def Apart (offset offset' : Int) : Prop :=
  offset + wordSize ≤ offset' ∨ offset' + wordSize ≤ offset

end Frame

namespace Tree

/-- The block in whose frame the words of a block lie. -/
def frameOwner? (tree : Tree) (id : BlockId) : Option BlockId :=
  tree.blocks[id]?.bind Block.frameOwner?

def layout? (tree : Tree) (id : DeclId) : Option Layout :=
  tree.decls[id]?.bind Decl.layout?

def ownWords (tree : Tree) (id : BlockId) : List DeclId :=
  ((tree.blocks[id]?.map Block.declarations).getD []).filter fun id =>
    (tree.decls[id]?.map fun decl => decl.kind.takesWord).getD false

/-- The blocks whose words lie in the frame of a block. -/
def frameBlocks (tree : Tree) (owner : BlockId) : List BlockId :=
  (List.range tree.blocks.size).filter fun id => tree.frameOwner? id == some owner

def frameWords (tree : Tree) (owner : BlockId) : List DeclId :=
  (tree.frameBlocks owner).flatMap tree.ownWords

/-- The block is the program's, or the body of a routine with parameters. -/
def OwnsFrame (tree : Tree) (id : BlockId) : Prop :=
  id = tree.body ∨ ∃ (routine : DeclId) (decl : Decl) (heading : Routine),
    tree.decls[routine]? = some decl ∧ decl.kind = .routine heading ∧
    heading.body = some id ∧ heading.params ≠ []

end Tree

/-! ### Storage in order -/

section Ordered

variable {tree : Tree}

theorem Tree.LaidOut.layout?_eq {id : DeclId} {level : Nat} {layout? : Option Layout}
    (h : tree.LaidOut id level layout?) : tree.layout? id = layout? := by
  obtain ⟨decl, hdecl, -, hlayout⟩ := h
  rw [Tree.layout?, hdecl, Option.bind_some, hlayout]

/-- The words of a block's own declarations lie one below the other. -/
theorem EntriesChecked.map_layout? {level : ScopeLevel Int} {around : String → Option DeclId}
    {params : List Numbered} {entries : List DeclEntry}
    (h : EntriesChecked tree level around params entries) :
    (wordsOf entries).map (fun x => tree.layout? x.id) =
      Frame.wordsBelow level.frameLevel level.nextOffset (wordsOf entries).length := by
  induction entries using List.reverseRecOn with
  | nil => rfl
  | append_singleton entries entry ih =>
      have hentry := (h entries entry [] rfl).laidOut.layout?_eq
      rw [wordsOf_append_singleton, Frame.wordsBelow_add, ← ih h.of_append, wordsOf,
        List.map_append, List.filter_append, List.map_append]
      congr 1
      cases htaken : entry.declared.decl.kind.takesWord with
      | false => simp [htaken, Frame.wordsBelow]
      | true =>
          rw [ScopeLevel.layoutFor_of_takesWord htaken] at hentry
          simp [htaken, hentry, Frame.wordsBelow, ScopeLevel.allocated]

namespace Skeleton

mutual

/-- The words of a frame lie one below the other, in whichever blocks they are declared. -/
theorem map_layout?_frameWords (site : Site) (skeleton : Skeleton)
    (h : skeleton.Checked tree site) :
    skeleton.frameWords.map (fun x => tree.layout? x.id) =
      Frame.wordsBelow (site.entered skeleton.root).frameLevel
        (site.entered skeleton.root).nextOffset skeleton.frameWords.length := by
  cases skeleton with
  | mk root inner =>
      have hown := h.1.entries.map_layout?
      have hinside := map_layout?_frameWordsAll (site.inside root) inner h.2
      rw [length_frameWords, Frame.wordsBelow_add, frameWords, List.map_append]
      exact congrArg₂ (· ++ ·) hown hinside

theorem map_layout?_frameWordsAll (site : Site) (bodies : List Skeleton)
    (h : CheckedAll tree site bodies) :
    (frameWordsAll bodies).map (fun x => tree.layout? x.id) =
      Frame.wordsBelow site.level.frameLevel site.level.nextOffset
        (frameWordsAll bodies).length := by
  cases bodies with
  | nil => rfl
  | cons first others =>
      have hothers := map_layout?_frameWordsAll (site.resumed first) others h.2
      rw [length_frameWordsAll_cons, Frame.wordsBelow_add, frameWordsAll, List.map_append]
      refine congrArg₂ (· ++ ·) ?_ hothers
      cases howns : first.root.ownsFrame with
      | true =>
          rw [if_pos rfl, sharedWords, howns]
          rfl
      | false =>
          have hfirst := map_layout?_frameWords site first h.1
          rw [sharedWords, howns]
          have hlevel : (site.entered first.root).frameLevel = site.level.frameLevel := by
            simp [Site.entered, Scope.push, howns]
          have hoffset : (site.entered first.root).nextOffset = site.level.nextOffset := by
            simp [Site.entered, Scope.push, howns]
          rw [hlevel, hoffset] at hfirst
          exact hfirst

end

end Skeleton

end Ordered

/-! ### Owners of frames -/

namespace Site

/-- A block with a frame of its own owns it, another one leaves it to its owner. -/
theorem frameOwner_entered (site : Site) (node : Node) :
    (site.entered node).frameOwner =
      if node.ownsFrame then node.id else site.level.frameOwner := rfl

@[simp]
theorem frameOwner_resumedAll (site : Site) (root : Node) (bodies : List Skeleton) :
    ((site.inside root).resumedAll bodies).level.frameOwner = (site.entered root).frameOwner := by
  rw [level_resumedAll]
  rfl

end Site

namespace Skeleton

section Owners

variable {tree : Tree} {site around : Site} {top skeleton : Skeleton}

theorem Occurs.frameOwner_cases (occurs : Occurs site top around skeleton) :
    (around.entered skeleton.root).frameOwner = (site.entered top.root).frameOwner ∨
      (around.entered skeleton.root).frameOwner ∈ top.blockIds := by
  induction occurs with
  | top => exact .inl rfl
  | @body _ root before after body outer ih =>
      rw [Site.frameOwner_entered, Site.frameOwner_resumedAll]
      cases body.root.ownsFrame with
      | true =>
          rw [if_pos rfl]
          exact .inr ((Occurs.body outer).blockIds_sublist.subset body.id_mem_blockIds)
      | false => exact ih

/-- A frame around a block is not owned by a block inside it. -/
theorem Occurs.frameOwner_notMem (occurs : Occurs site top around skeleton)
    (nodup : top.blockIds.Nodup) (hsite : site.level.frameOwner ∉ top.blockIds) :
    around.level.frameOwner ∉ skeleton.blockIds := by
  induction occurs with
  | top => exact hsite
  | @body around root before after body outer ih =>
      have hroot := outer.blockIds_sublist.nodup nodup
      rw [blockIds_eq] at hroot ih
      have hsubset : body.blockIds ⊆ (before ++ body :: after).flatMap blockIds := fun id hid =>
        List.mem_flatMap.mpr ⟨body, List.mem_append_right _ List.mem_cons_self, hid⟩
      rw [Site.frameOwner_resumedAll, Site.frameOwner_entered]
      cases root.ownsFrame with
      | true => exact fun hmem => (List.nodup_cons.mp hroot).1 (hsubset hmem)
      | false => exact fun hmem => ih (List.mem_cons_of_mem _ (hsubset hmem))

theorem NodeChecked.frameOwner?_eq {node : Node} {frameWords : Nat}
    (h : NodeChecked tree site node frameWords) :
    tree.frameOwner? node.id = some (site.entered node).frameOwner := by
  obtain ⟨statements, hblock, -⟩ := h.block
  rw [Tree.frameOwner?, hblock]
  rfl

/-- Frames inside a block are owned by blocks inside it, but for that of the
block itself. -/
theorem frameOwner?_of_mem_nodes (h : skeleton.Checked tree site) :
    ∀ node ∈ skeleton.nodes, ∃ owner, tree.frameOwner? node.id = some owner ∧
      (owner = (site.entered skeleton.root).frameOwner ∨ owner ∈ skeleton.blockIds) := by
  intro node hnode
  obtain ⟨around, found, occurs, rfl⟩ := exists_occurs site skeleton node hnode
  exact ⟨_, NodeChecked.frameOwner?_eq (occurs.checked h).node, occurs.frameOwner_cases⟩

theorem frameOwner?_of_mem_nodesAll {bodies : List Skeleton} (h : CheckedAll tree site bodies) :
    ∀ node ∈ nodesAll bodies, ∃ owner, tree.frameOwner? node.id = some owner ∧
      (owner = site.level.frameOwner ∨ owner ∈ bodies.flatMap blockIds) := by
  induction bodies generalizing site with
  | nil => exact fun _ hnode => absurd hnode List.not_mem_nil
  | cons first others ih =>
      intro node hnode
      rw [List.flatMap_cons]
      rcases List.mem_append.mp hnode with hnode | hnode
      · obtain ⟨owner, howner, hcases⟩ := frameOwner?_of_mem_nodes h.1 node hnode
        refine ⟨owner, howner, ?_⟩
        rw [Site.frameOwner_entered] at hcases
        rcases hcases with heq | hmem
        · cases howns : first.root.ownsFrame with
          | true =>
              rw [howns, if_pos rfl] at heq
              exact .inr (List.mem_append_left _ (heq ▸ first.id_mem_blockIds))
          | false =>
              rw [howns] at heq
              exact .inl heq
        · exact .inr (List.mem_append_left _ hmem)
      · obtain ⟨owner, howner, hcases⟩ := ih h.2 node hnode
        exact ⟨owner, howner, hcases.imp_right (List.mem_append_right _)⟩

/-! ### The words of a frame, block by block -/

/-- The words in some blocks that lie in the frame of an owner. -/
def ownedIn (tree : Tree) (owner : BlockId) (nodes : List Node) : List DeclId :=
  (nodes.filter fun node => tree.frameOwner? node.id == some owner).flatMap fun node =>
    tree.ownWords node.id

theorem ownedIn_append (tree : Tree) (owner : BlockId) (nodes nodes' : List Node) :
    ownedIn tree owner (nodes ++ nodes') =
      ownedIn tree owner nodes ++ ownedIn tree owner nodes' := by
  rw [ownedIn, List.filter_append, List.flatMap_append]
  rfl

theorem ownedIn_cons (tree : Tree) (owner : BlockId) (node : Node) (nodes : List Node) :
    ownedIn tree owner (node :: nodes) = ownedIn tree owner [node] ++ ownedIn tree owner nodes :=
  ownedIn_append tree owner [node] nodes

theorem ownedIn_eq_nil {owner : BlockId} {nodes : List Node}
    (h : ∀ node ∈ nodes, ∃ other, tree.frameOwner? node.id = some other ∧ other ≠ owner) :
    ownedIn tree owner nodes = [] := by
  rw [ownedIn, List.filter_eq_nil_iff.mpr, List.flatMap_nil]
  intro node hnode heq
  obtain ⟨other, hother, hne⟩ := h node hnode
  rw [hother, beq_iff_eq] at heq
  exact hne (Option.some.inj heq)

theorem ownedIn_singleton {owner : BlockId} {node : Node}
    (h : tree.frameOwner? node.id = some owner) :
    ownedIn tree owner [node] = tree.ownWords node.id := by
  simp [ownedIn, h]

/-- The words of bodies that are owned neither by the frame around them nor by
one of them are none. -/
theorem ownedIn_nodesAll_eq_nil {bodies : List Skeleton} (h : CheckedAll tree site bodies)
    {owner : BlockId} (hsite : owner ≠ site.level.frameOwner)
    (hbodies : owner ∉ bodies.flatMap blockIds) :
    ownedIn tree owner (nodesAll bodies) = [] := by
  refine ownedIn_eq_nil fun node hnode => ?_
  obtain ⟨other, hother, hcases⟩ := frameOwner?_of_mem_nodesAll h node hnode
  refine ⟨other, hother, ?_⟩
  rintro rfl
  exact hcases.elim hsite hbodies

/-- What a frame inside a block owns, a block inside that block declares. -/
theorem Occurs.ownedIn_eq (occurs : Occurs site top around skeleton) (h : top.Checked tree site)
    (nodup : top.blockIds.Nodup) (hsite : site.level.frameOwner ∉ top.blockIds)
    {owner : BlockId} (hmem : owner ∈ skeleton.blockIds) :
    ownedIn tree owner top.nodes = ownedIn tree owner skeleton.nodes := by
  induction occurs with
  | top => rfl
  | @body around root before after body outer ih =>
      have hroot := outer.blockIds_sublist.nodup nodup
      rw [blockIds_mk, List.flatMap_append, List.flatMap_cons] at hroot
      obtain ⟨-, hrest, hdisjoint⟩ := List.nodup_append'.mp (List.nodup_cons.mp hroot).2
      obtain ⟨-, -, hdisjoint'⟩ := List.nodup_append'.mp hrest
      have hnotBefore : owner ∉ before.flatMap blockIds := fun hleft =>
        hdisjoint hleft (List.mem_append_left _ hmem)
      have hnotAfter : owner ∉ after.flatMap blockIds := hdisjoint' hmem
      have hmemRoot : owner ∈ (mk root (before ++ body :: after)).blockIds := by
        rw [blockIds_mk]
        exact List.mem_cons_of_mem _
          (List.mem_flatMap.mpr ⟨body, List.mem_append_right _ List.mem_cons_self, hmem⟩)
      -- the frame around the body belongs to the root or to a block around it
      have hentered : owner ≠ (around.entered root).frameOwner := by
        rintro rfl
        have hnot := (Occurs.body outer).frameOwner_notMem nodup hsite
        rw [Site.frameOwner_resumedAll] at hnot
        exact hnot hmem
      have hchecked := outer.checked h
      have hnode := NodeChecked.frameOwner?_eq hchecked.1
      obtain ⟨hbefore, hafter⟩ := checkedAll_append.mp hchecked.2
      have hnoneRoot : ownedIn tree owner [root] = [] := by
        refine ownedIn_eq_nil fun node hmemNode => ?_
        obtain rfl := List.mem_singleton.mp hmemNode
        exact ⟨_, hnode, hentered.symm⟩
      have hnoneBefore := ownedIn_nodesAll_eq_nil hbefore hentered hnotBefore
      have hnoneAfter : ownedIn tree owner (nodesAll after) = [] := by
        refine ownedIn_nodesAll_eq_nil hafter.2 ?_ hnotAfter
        have hlevel := Site.frameOwner_resumedAll around root (before ++ [body])
        rw [Site.resumedAll, List.foldl_append] at hlevel
        exact fun heq => hentered (heq.trans hlevel)
      rw [nodesAll_eq_flatMap] at hnoneBefore hnoneAfter
      rw [ih hmemRoot, nodes_mk, ownedIn_cons, List.flatMap_append, List.flatMap_cons,
        ownedIn_append, ownedIn_append, hnoneRoot, hnoneBefore, hnoneAfter, List.nil_append,
        List.nil_append, List.append_nil]

/-- The own words of a checked block are those of its node. -/
theorem NodeChecked.ownWords_eq {node : Node} {frameWords : Nat}
    (h : NodeChecked tree site node frameWords) (wellFormed : node.WellFormed)
    (herased : ∀ x ∈ node.declared, tree.decls[x.id]?.map Decl.erased = some x.decl.erased) :
    tree.ownWords node.id = node.words.map Numbered.id := by
  obtain ⟨statements, hblock, -⟩ := h.block
  have htaken : ∀ entry ∈ node.entries,
      ((tree.decls[entry.declared.id]?.map fun decl => decl.kind.takesWord).getD false) =
        entry.declared.decl.kind.takesWord := by
    intro entry hentry
    obtain ⟨decl, hdecl, hsame⟩ := Option.map_eq_some_iff.mp (herased entry.declared
      (List.mem_append_right _ (List.mem_flatMap.mpr ⟨entry, hentry, List.mem_cons_self⟩)))
    have hkind : decl.kind.erased = entry.declared.decl.kind.erased := congrArg Decl.kind hsame
    rw [hdecl, Option.map_some, Option.getD_some, ← DeclKind.takesWord_erased, hkind,
      DeclKind.takesWord_erased]
  have hdeclarations : (tree.blocks[node.id]?.map Block.declarations).getD [] =
      node.entries.map (·.declared.id) := by
    rw [hblock]
    exact wellFormed.declarations_eq
  rw [Tree.ownWords, hdeclarations, List.filter_map, Node.words, List.filter_map, List.map_map]
  refine congrArg (List.map _) (List.filter_congr fun entry hentry => ?_)
  exact htaken entry hentry

mutual

/-- The words that the blocks inside a block have in its frame are its frame words. -/
theorem ownedIn_frameOwner (site : Site) (skeleton : Skeleton) (h : skeleton.Checked tree site)
    (wellFormed : skeleton.WellFormed) (nodup : skeleton.blockIds.Nodup)
    (hsite : site.level.frameOwner ∉ skeleton.blockIds)
    (herased : ∀ x ∈ skeleton.declared, tree.decls[x.id]?.map Decl.erased = some x.decl.erased) :
    ownedIn tree (site.entered skeleton.root).frameOwner skeleton.nodes =
      skeleton.frameWords.map Numbered.id := by
  cases skeleton with
  | mk root inner =>
      rw [blockIds_mk] at nodup hsite
      rw [declared_eq] at herased
      obtain ⟨hroot, hinner⟩ := List.nodup_cons.mp nodup
      obtain ⟨herasedRoot, herasedInner⟩ := List.forall_mem_append.mp herased
      obtain ⟨root_wellFormed, inner_wellFormed⟩ :
          root.WellFormed ∧ ∀ body ∈ inner, body.WellFormed := by
        cases wellFormed
        exact ⟨‹_›, ‹_›⟩
      have hsiteInner : (site.inside root).level.frameOwner ∉ inner.flatMap blockIds := by
        change (site.entered root).frameOwner ∉ _
        rw [Site.frameOwner_entered]
        cases root.ownsFrame with
        | true => exact hroot
        | false => exact fun hmem => hsite (List.mem_cons_of_mem _ hmem)
      have hwords := NodeChecked.ownWords_eq h.1 root_wellFormed herasedRoot
      have hinside := ownedIn_frameOwnerAll (site.inside root) inner h.2 inner_wellFormed hinner
        hsiteInner herasedInner
      rw [nodes, ownedIn_cons, frameWords, List.map_append]
      refine congrArg₂ (· ++ ·) ?_ hinside
      exact (ownedIn_singleton (NodeChecked.frameOwner?_eq h.1)).trans hwords

theorem ownedIn_frameOwnerAll (site : Site) (bodies : List Skeleton)
    (h : CheckedAll tree site bodies) (wellFormed : ∀ body ∈ bodies, body.WellFormed)
    (nodup : (bodies.flatMap blockIds).Nodup)
    (hsite : site.level.frameOwner ∉ bodies.flatMap blockIds)
    (herased : ∀ x ∈ bodies.flatMap declared,
      tree.decls[x.id]?.map Decl.erased = some x.decl.erased) :
    ownedIn tree site.level.frameOwner (nodesAll bodies) =
      (frameWordsAll bodies).map Numbered.id := by
  cases bodies with
  | nil => rfl
  | cons first others =>
      rw [List.flatMap_cons] at nodup hsite herased
      obtain ⟨hfirst, hothers, -⟩ := List.nodup_append'.mp nodup
      obtain ⟨herasedFirst, herasedOthers⟩ := List.forall_mem_append.mp herased
      obtain ⟨wellFormedFirst, wellFormedOthers⟩ := List.forall_mem_cons.mp wellFormed
      have hsiteFirst : site.level.frameOwner ∉ first.blockIds := fun hmem =>
        hsite (List.mem_append_left _ hmem)
      have hrest := ownedIn_frameOwnerAll (site.resumed first) others h.2 wellFormedOthers hothers
        (fun hmem => hsite (List.mem_append_right _ hmem)) herasedOthers
      rw [nodesAll, ownedIn_append, frameWordsAll, List.map_append]
      refine congrArg₂ (· ++ ·) ?_ hrest
      cases howns : first.root.ownsFrame with
      | true =>
          rw [if_pos rfl]
          refine ownedIn_eq_nil fun node hnode => ?_
          obtain ⟨owner, howner, hcases⟩ := frameOwner?_of_mem_nodes h.1 node hnode
          refine ⟨owner, howner, ?_⟩
          rw [Site.frameOwner_entered, howns, if_pos rfl] at hcases
          rintro rfl
          rcases hcases with heq | hmem
          · exact hsiteFirst (heq ▸ first.id_mem_blockIds)
          · exact hsiteFirst hmem
      | false =>
          have hwhole := ownedIn_frameOwner site first h.1 wellFormedFirst hfirst hsiteFirst
            herasedFirst
          rw [Site.frameOwner_entered, howns] at hwhole
          exact hwhole

end

end Owners

end Skeleton

end MiniPascal
