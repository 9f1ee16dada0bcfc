import MiniPascal.Proofs.Check.Nearest

/-!
# Routines inside routines

The bodies of a program's routines lie inside each other as its blocks do.  Listing
them from the inside out meets every routine once, and each after all those inside it.
-/

namespace MiniPascal

def Tree.bodyOf? (tree : Tree) (id : DeclId) : Option BlockId :=
  tree.decls[id]?.bind fun decl => decl.kind.routine?.bind Routine.body

/-- The first routine lies inside the second one, or is the second one. -/
def Tree.LiesIn (tree : Tree) (inner outer : DeclId) : Prop :=
  ∃ body body', tree.bodyOf? inner = some body ∧ tree.bodyOf? outer = some body' ∧
    tree.isWithin body body' = true

namespace Skeleton

mutual

/-- The routines inside a block, each after those inside it. -/
def codeOrder : Skeleton → List DeclId
  | mk _ inner => codeOrderAll inner

def codeOrderAll : List Skeleton → List DeclId
  | [] => []
  | first :: others => first.codeOrder ++ (first.root.routine?.toList ++ codeOrderAll others)

end

mutual

/-- The routines are those whose bodies lie inside the block. -/
theorem codeOrder_perm (skeleton : Skeleton) :
    skeleton.codeOrder.Perm ((nodesAll skeleton.inner).filterMap Node.routine?) := by
  cases skeleton with
  | mk root inner => exact codeOrderAll_perm inner

theorem codeOrderAll_perm (bodies : List Skeleton) :
    (codeOrderAll bodies).Perm ((nodesAll bodies).filterMap Node.routine?) := by
  cases bodies with
  | nil => exact List.Perm.nil
  | cons first others =>
      have hroot : (first.nodes.filterMap Node.routine?) =
          first.root.routine?.toList ++ (nodesAll first.inner).filterMap Node.routine? := by
        rw [nodes_eq]
        cases h : first.root.routine? with
        | none => exact List.filterMap_cons_none h
        | some id => exact List.filterMap_cons_some h
      rw [codeOrderAll, nodesAll, List.filterMap_append, hroot, ← List.append_assoc]
      have hfirst : (first.codeOrder ++ first.root.routine?.toList).Perm
          (first.root.routine?.toList ++ (nodesAll first.inner).filterMap Node.routine?) :=
        List.perm_append_comm.trans ((codeOrder_perm first).append_left _)
      exact hfirst.append (codeOrderAll_perm others)

end

/-- The blocks inside a block have larger numbers. -/
theorem WellFormed.id_lt {skeleton : Skeleton} (wellFormed : skeleton.WellFormed) {node : Node}
    (hnode : node ∈ nodesAll skeleton.inner) : skeleton.id < node.id := by
  cases wellFormed with
  | @mk root inner _ bodies _ inner_wellFormed =>
      rw [nodesAll_eq_flatMap] at hnode
      obtain ⟨body, hbody, hnode⟩ := List.mem_flatMap.mp hnode
      obtain ⟨routine, -, hrelated⟩ := exists_of_forall₂_left bodies hbody
      exact Nat.lt_of_lt_of_le hrelated.2.2.1
        ((inner_wellFormed body hbody).id_le node.id (List.mem_map_of_mem hnode))

theorem mem_codeOrder_iff {skeleton : Skeleton} {id : DeclId} :
    id ∈ skeleton.codeOrder ↔ ∃ node ∈ nodesAll skeleton.inner, node.routine? = some id := by
  rw [skeleton.codeOrder_perm.mem_iff, List.mem_filterMap]

end Skeleton

namespace CheckedProgram

variable {outline : Outline} {skeleton body : Skeleton} {tree : Tree} {site : Site}

/-- A block is the program's, or the body of a routine. -/
theorem bodyOf?_eq (program : CheckedProgram outline skeleton tree)
    (occurs : Occurs outline skeleton site body) :
    body = skeleton ∨ ∃ id, body.root.routine? = some id ∧ tree.bodyOf? id = some body.id := by
  rcases program.hasSkeleton.occurs_cases occurs with rfl | ⟨root, hroot, routine, hrelated⟩
  · exact .inl rfl
  · obtain ⟨hroutine, -, -, entry, hentry, rfl, result, hkind⟩ := hrelated
    obtain ⟨decl, hdecl, herased⟩ := Option.map_eq_some_iff.mp
      (program.erased_eq _ (Outline.HasSkeleton.entry_mem hroot hentry))
    have hkindErased := congrArg Decl.kind herased
    change decl.kind.erased = entry.declared.decl.kind.erased at hkindErased
    rw [hkind] at hkindErased
    obtain ⟨result', hrouting⟩ := DeclKind.eq_routine_of_erased_eq hkindErased
    refine .inr ⟨entry.declared.id, hroutine, ?_⟩
    rw [Tree.bodyOf?, hdecl, Option.bind_some, hrouting]
    rfl

theorem bodyOf?_of_mem_inner (program : CheckedProgram outline skeleton tree)
    (occurs : Occurs outline skeleton site body) {node : Node}
    (hnode : node ∈ Skeleton.nodesAll body.inner) :
    ∃ id, node.routine? = some id ∧ tree.bodyOf? id = some node.id := by
  have hwellFormed := program.hasSkeleton.wellFormed
  have hlt := (occurs.wellFormed hwellFormed).id_lt hnode
  have hle := hwellFormed.id_le body.id (occurs.blockIds_sublist.subset body.id_mem_blockIds)
  have hmem : node ∈ body.nodes := by
    rw [Skeleton.nodes_eq]
    exact List.mem_cons_of_mem _ hnode
  obtain ⟨around, found, inside, rfl⟩ := Skeleton.exists_occurs site body node hmem
  rcases program.bodyOf?_eq (occurs.trans inside) with rfl | hroutine
  · exact absurd (Nat.lt_of_le_of_lt hle hlt) (Nat.lt_irrefl _)
  · exact hroutine

/-! ### The blocks around a block -/

/-- A block has the block that declares its routine around it. -/
theorem enclosing?_body (program : CheckedProgram outline skeleton tree) {root : Node}
    {before after : List Skeleton}
    (outer : Occurs outline skeleton site (.mk root (before ++ body :: after))) :
    tree.enclosing? body.id = some root.id := by
  rw [program.enclosing?_eq (.body outer)]
  exact program.hasSkeleton.enclosing?_body outer

/-- Around what lies in a block, there are blocks inside it and those around it. -/
theorem mem_chain_cases (program : CheckedProgram outline skeleton tree)
    (occurs : Occurs outline skeleton site body) {inner outer around : BlockId}
    (hinner : inner ∈ body.blockIds) (haround : tree.enclosing? body.id = some around)
    (h : outer ∈ tree.chain inner) : outer ∈ body.blockIds ∨ outer ≤ around := by
  obtain ⟨node, hnode, rfl⟩ := List.mem_map.mp hinner
  obtain ⟨site', found, inside, rfl⟩ := Skeleton.exists_occurs site body node hnode
  clear hinner hnode
  induction inside generalizing outer with
  | top =>
      rw [Tree.chain_eq program.descends, haround] at h
      rcases List.mem_cons.mp h with rfl | h
      · exact .inl body.id_mem_blockIds
      · exact .inr (Tree.le_of_mem_chain program.descends h)
  | @body around' root before after found inside ih =>
      have hroot := program.enclosing?_body (occurs.trans inside)
      rw [Tree.chain_eq program.descends, hroot] at h
      rcases List.mem_cons.mp h with rfl | h
      · exact .inl ((Skeleton.Occurs.body inside).blockIds_sublist.subset found.id_mem_blockIds)
      · exact ih h

/-! ### Order -/

/-- Blocks in different bodies of one block do not lie inside each other. -/
theorem notMem_chain_of_bodies (program : CheckedProgram outline skeleton tree) {root : Node}
    {before others : List Skeleton} {first : Skeleton}
    (occurs : Occurs outline skeleton site (.mk root (before ++ first :: others)))
    {node node' : Node} (hnode : node ∈ first.nodes) (hnode' : node' ∈ Skeleton.nodesAll others) :
    node.id ∉ tree.chain node'.id := by
  intro hchain
  have hinside : node ∈ Skeleton.nodesAll (before ++ first :: others) := by
    rw [Skeleton.nodesAll_eq_flatMap]
    exact List.mem_flatMap.mpr ⟨first, List.mem_append_right before List.mem_cons_self, hnode⟩
  have hlt := (occurs.wellFormed program.hasSkeleton.wellFormed).id_lt hinside
  rw [Skeleton.nodesAll_eq_flatMap] at hnode'
  obtain ⟨second, hsecond, hmem⟩ := List.mem_flatMap.mp hnode'
  have hdisjoint : (before ++ first :: others).Pairwise
      (fun body body' => List.Disjoint body.blockIds body'.blockIds) := by
    have hnodup := occurs.blockIds_sublist.nodup program.hasSkeleton.blockIds_nodup
    rw [Skeleton.blockIds_mk, List.nodup_cons, List.nodup_flatMap] at hnodup
    exact hnodup.2.2
  have hapart := (List.pairwise_cons.mp (List.pairwise_append.mp hdisjoint).2.1).1 second hsecond
  obtain ⟨middle, after, rfl⟩ := List.append_of_mem hsecond
  rw [← List.cons_append, ← List.append_assoc] at occurs
  rcases program.mem_chain_cases (.body occurs) (List.mem_map_of_mem hmem)
    (program.enclosing?_body occurs) hchain with hinner | hle
  · exact hapart (List.mem_map_of_mem hnode) hinner
  · exact absurd hlt (Nat.not_lt.mpr hle)

/-- A routine whose body is not among the blocks around another one's body does not
contain it. -/
theorem not_liesIn {inner outer : DeclId} {body body' : BlockId}
    (hinner : tree.bodyOf? inner = some body) (houter : tree.bodyOf? outer = some body')
    (h : body' ∉ tree.chain body) : ¬tree.LiesIn inner outer := by
  rintro ⟨found, found', hfound, hfound', hwithin⟩
  obtain rfl := Option.some.inj (hinner.symm.trans hfound)
  obtain rfl := Option.some.inj (houter.symm.trans hfound')
  exact h (List.contains_iff_mem.mp hwithin)

mutual

/-- No routine comes before one that lies inside it. -/
theorem pairwise_codeOrder (program : CheckedProgram outline skeleton tree) (body : Skeleton)
    {site : Site} (occurs : Occurs outline skeleton site body) :
    body.codeOrder.Pairwise fun first later => ¬tree.LiesIn later first := by
  cases body with
  | mk root inner => exact pairwise_codeOrderAll program inner [] occurs

theorem pairwise_codeOrderAll (program : CheckedProgram outline skeleton tree)
    (bodies before : List Skeleton) {site : Site} {root : Node}
    (occurs : Occurs outline skeleton site (.mk root (before ++ bodies))) :
    (Skeleton.codeOrderAll bodies).Pairwise fun first later => ¬tree.LiesIn later first := by
  cases bodies with
  | nil => exact List.Pairwise.nil
  | cons first others =>
      have hbody : ∀ node ∈ Skeleton.nodesAll (first :: others), ∀ id, node.routine? = some id →
          tree.bodyOf? id = some node.id := by
        intro node hnode id hid
        have hinside : node ∈ Skeleton.nodesAll (before ++ first :: others) := by
          rw [Skeleton.nodesAll_eq_flatMap] at hnode ⊢
          rw [List.flatMap_append]
          exact List.mem_append_right _ hnode
        obtain ⟨found, hfound, hbodyOf⟩ := program.bodyOf?_of_mem_inner occurs hinside
        rwa [Option.some.inj (hid.symm.trans hfound)]
      have hothers : Occurs outline skeleton site (.mk root ((before ++ [first]) ++ others)) := by
        rw [List.append_assoc]
        exact occurs
      have hlater : ∀ node ∈ first.nodes, ∀ id, node.routine? = some id →
          ∀ later ∈ Skeleton.codeOrderAll others, ¬tree.LiesIn later id := by
        intro node hnode id hid later hmem
        obtain ⟨node', hnode', hid'⟩ :=
          List.mem_filterMap.mp ((Skeleton.codeOrderAll_perm others).mem_iff.mp hmem)
        exact not_liesIn (hbody node' (List.mem_append_right _ hnode') later hid')
          (hbody node (List.mem_append_left _ hnode) id hid)
          (program.notMem_chain_of_bodies occurs hnode hnode')
      rw [Skeleton.codeOrderAll, List.pairwise_append]
      refine ⟨pairwise_codeOrder program first (.body occurs), ?_, ?_⟩
      · rw [List.pairwise_append]
        refine ⟨?_, pairwise_codeOrderAll program others (before ++ [first]) hothers, ?_⟩
        · cases first.root.routine? with
          | none => exact List.Pairwise.nil
          | some id => exact List.pairwise_singleton _ _
        · intro id hid
          exact hlater first.root first.root_mem_nodes id (Option.mem_toList.mp hid)
      · intro id hid later hmem
        obtain ⟨node, hnode, hnodeId⟩ := Skeleton.mem_codeOrder_iff.mp hid
        have hnodes : node ∈ first.nodes := by
          rw [Skeleton.nodes_eq]
          exact List.mem_cons_of_mem _ hnode
        rcases List.mem_append.mp hmem with hroot | hmem
        · -- the routine itself comes right after those inside it
          have hlt := ((Skeleton.Occurs.body occurs).wellFormed
            program.hasSkeleton.wellFormed).id_lt hnode
          apply not_liesIn (hbody first.root (List.mem_append_left _ first.root_mem_nodes) later
            (Option.mem_toList.mp hroot)) (hbody node (List.mem_append_left _ hnodes) id hnodeId)
          exact fun hchain => absurd hlt
            (Nat.not_lt.mpr (Tree.le_of_mem_chain program.descends hchain))
        · exact hlater node hnodes id hnodeId later hmem

end

/-! ### The routines of a program -/

/-- Every routine with a body comes once. -/
theorem nodup_codeOrder (program : CheckedProgram outline skeleton tree) :
    skeleton.codeOrder.Nodup := by
  rw [skeleton.codeOrder_perm.nodup_iff]
  have hblocks := program.hasSkeleton.blockIds_nodup
  rw [Skeleton.blockIds, Skeleton.nodes_eq, List.map_cons, List.nodup_cons, List.Nodup,
    List.pairwise_map] at hblocks
  apply List.pairwise_filterMap.mpr
  apply hblocks.2.imp_of_mem
  intro node node' hnode hnode' hne id hid id' hid' heq
  obtain ⟨found, hfound, hbody⟩ := program.bodyOf?_of_mem_inner .top hnode
  obtain ⟨found', hfound', hbody'⟩ := program.bodyOf?_of_mem_inner .top hnode'
  obtain rfl := Option.some.inj (hid.symm.trans hfound)
  obtain rfl := Option.some.inj (hid'.symm.trans hfound')
  rw [heq] at hbody
  exact hne (Option.some.inj (hbody.symm.trans hbody'))

/-- The routines with bodies are those in the order. -/
theorem mem_codeOrder_iff (program : CheckedProgram outline skeleton tree) {id : DeclId} :
    id ∈ skeleton.codeOrder ↔ (tree.bodyOf? id).isSome = true := by
  constructor
  · intro hid
    obtain ⟨node, hnode, hnodeId⟩ := Skeleton.mem_codeOrder_iff.mp hid
    obtain ⟨found, hfound, hbody⟩ := program.bodyOf?_of_mem_inner .top hnode
    rw [Option.some.inj (hnodeId.symm.trans hfound), hbody]
    rfl
  · intro hsome
    obtain ⟨bodyId, hbody⟩ := Option.isSome_iff_exists.mp hsome
    obtain ⟨decl, hdecl, hbody⟩ := Option.bind_eq_some_iff.mp hbody
    obtain ⟨heading, hheading, hbody⟩ := Option.bind_eq_some_iff.mp hbody
    obtain ⟨around, root, before, body, after, hroutine, -, -⟩ :=
      program.exists_routine hdecl (DeclKind.routine?_eq_some_iff.mp hheading) hbody
    apply Skeleton.mem_codeOrder_iff.mpr
    refine ⟨body.root, ?_, hroutine.bodyOf.1⟩
    have hnodes := (Skeleton.Occurs.body hroutine.occurs).nodes_sublist.subset body.root_mem_nodes
    rw [Skeleton.nodes_eq] at hnodes
    rcases List.mem_cons.mp hnodes with heq | hnode
    · have hnone := program.hasSkeleton.program
      rw [← heq, hroutine.bodyOf.1] at hnone
      cases hnone
    · exact hnode

end CheckedProgram

end MiniPascal
