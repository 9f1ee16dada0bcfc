import MiniPascal.Proofs.Check.Block
import MiniPascal.Proofs.Tree.References
import Mathlib.Data.List.Flatten

/-!
# The passages of a skeleton

Every block of a skeleton has one passage for its statements and one for each of its own
declarations, and the passages of its parameters come with the declaration of its routine.  So
the references of a tree that holds the skeleton are met once each, and literals, which use no
names, are the only declarations without a passage.
-/

namespace MiniPascal

theorem flatMap_eq_of_forall₂ {α β γ : Type} {R : α → β → Prop} {left : List α} {right : List β}
    {f : α → List γ} {g : β → List γ} (h : left.Forall₂ R right)
    (hsame : ∀ x y, R x y → f x = g y) : left.flatMap f = right.flatMap g := by
  induction h with
  | nil => rfl
  | cons hfirst _ ih => rw [List.flatMap_cons, List.flatMap_cons, hsame _ _ hfirst, ih]

/-- What gives nothing can be left out, and the order does not matter. -/
theorem flatMap_perm_of_subset {α β : Type} [DecidableEq α] {whole part : List α} {f : α → List β}
    (hwhole : whole.Nodup) (hpart : part.Nodup) (hsubset : part ⊆ whole)
    (hnil : ∀ x ∈ whole, x ∉ part → f x = []) : (whole.flatMap f).Perm (part.flatMap f) := by
  have hsplit := List.filter_append_perm (· ∈ part) whole
  have hinside : (whole.filter (· ∈ part)).Perm part := by
    refine (List.perm_ext_iff_of_nodup (hwhole.filter _) hpart).mpr fun x => ?_
    rw [List.mem_filter, decide_eq_true_iff]
    exact ⟨And.right, fun hx => ⟨hsubset hx, hx⟩⟩
  have houtside : (whole.filter fun x => !decide (x ∈ part)).flatMap f = [] := by
    refine List.flatMap_eq_nil_iff.mpr fun x hx => ?_
    obtain ⟨hwhole, hnot⟩ := List.mem_filter.mp hx
    exact hnil x hwhole (of_decide_eq_false (Bool.not_eq_eq_eq_not.mp hnot))
  have hperm := (hsplit.symm.flatMap_right f).trans (.of_eq List.flatMap_append)
  rw [houtside, List.append_nil] at hperm
  exact hperm.trans (hinside.flatMap_right f)

/-- The numbers of the parameters and the declarations of a block. -/
def Node.ownIds (node : Node) : List DeclId :=
  (node.params ++ node.entries.map DeclEntry.declared).map Numbered.id

theorem Node.ownIds_eq (node : Node) :
    node.ownIds = node.params.map Numbered.id ++ node.entries.map (·.declared.id) := by
  rw [Node.ownIds, List.map_append, List.map_map]
  rfl

theorem Node.ownIds_sublist (node : Node) :
    node.ownIds.Sublist (node.declared.map Numbered.id) := by
  refine List.Sublist.map _ (.append (.refl _) ?_)
  rw [List.map_eq_flatMap]
  exact List.Sublist.flatMap_right _ fun entry _ => .cons_cons _ (List.nil_sublist _)

namespace Skeleton

def ownIds (skeleton : Skeleton) : List DeclId :=
  skeleton.nodes.flatMap Node.ownIds

theorem ownIds_mk (root : Node) (inner : List Skeleton) :
    (mk root inner).ownIds = root.ownIds ++ inner.flatMap ownIds := by
  rw [ownIds, nodes_mk, List.flatMap_cons, List.flatMap_assoc]
  rfl

theorem ownIds_sublist (skeleton : Skeleton) : skeleton.ownIds.Sublist skeleton.declIds := by
  rw [declIds, declared, List.map_flatMap]
  exact List.Sublist.flatMap_right _ fun node _ => node.ownIds_sublist

/-- Without annotations, the blocks and the declarations of a skeleton are in the tree. -/
structure HeldBy (skeleton : Skeleton) (tree : Tree) : Prop where
  block : ∀ node ∈ skeleton.nodes,
    tree.blocks[node.id]?.map Block.erased = some node.block.erased
  kind : ∀ x ∈ skeleton.declared, (tree.kind? x.id).map .erased = some x.decl.kind.erased

theorem declared_mem_of_entry {root : Node} {inner : List Skeleton} {entry : DeclEntry}
    (hentry : entry ∈ root.entries) : entry.declared ∈ (mk root inner).declared := by
  rw [declared_eq]
  exact List.mem_append_left _ (List.mem_append_right _
    (List.mem_flatMap.mpr ⟨entry, hentry, List.mem_cons_self⟩))

theorem nodup_entries {root : Node} {inner : List Skeleton}
    (hnodup : (mk root inner).declIds.Nodup) : (root.entries.map (·.declared.id)).Nodup := by
  rw [declIds_eq] at hnodup
  have hown := root.ownIds_sublist.nodup (List.nodup_append'.mp hnodup).1
  rw [Node.ownIds_eq] at hown
  exact (List.nodup_append'.mp hown).2.1

namespace HeldBy

variable {tree : Tree} {root : Node} {inner : List Skeleton} {skeleton : Skeleton}

theorem of_mem_inner {body : Skeleton} (held : skeleton.HeldBy tree)
    (hbody : body ∈ skeleton.inner) : body.HeldBy tree where
  block node hnode := held.block node (nodes_subset_of_mem_inner hbody hnode)
  kind x hx := held.kind x (declared_subset_of_mem_inner hbody hx)

theorem declarationsOf_eq (held : skeleton.HeldBy tree) {node : Node}
    (hnode : node ∈ skeleton.nodes) (wellFormed : node.WellFormed) :
    tree.declarationsOf node.id = node.entries.map (·.declared.id) := by
  obtain ⟨found, hfound, herased⟩ := Option.map_eq_some_iff.mp (held.block node hnode)
  have hparts : found.erased.parts = node.block.erased.parts := congrArg Block.parts herased
  change found.parts = node.block.parts at hparts
  rw [Tree.declarationsOf_eq hfound, Block.declarations, hparts]
  exact wellFormed.declarations_eq

theorem routinesOf_eq (held : skeleton.HeldBy tree) {node : Node} (hnode : node ∈ skeleton.nodes) :
    tree.routinesOf node.id = node.block.routines := by
  obtain ⟨found, hfound, herased⟩ := Option.map_eq_some_iff.mp (held.block node hnode)
  have hparts : found.erased.parts = node.block.erased.parts := congrArg Block.parts herased
  change found.parts = node.block.parts at hparts
  rw [Tree.routinesOf, hfound, Option.map_some, Option.getD_some, Block.routines, hparts]
  rfl

/-- The routine of a body has the parameters of the body. -/
theorem of_bodyOf (held : (Skeleton.mk root inner).HeldBy tree) {body : Skeleton} {routine : DeclId}
    (related : BodyOf root.id root.entries body routine) :
    tree.bodyOf? routine = some body.id ∧
      tree.parametersOf routine = body.root.params.map Numbered.id := by
  obtain ⟨-, -, -, entry, hentry, rfl, result, hkind⟩ := related
  have hmem : entry.declared ∈ (Skeleton.mk root inner).declared := declared_mem_of_entry hentry
  have hsame := held.kind entry.declared hmem
  rw [hkind] at hsame
  obtain ⟨found, hfound, herased⟩ := Option.map_eq_some_iff.mp hsame
  obtain ⟨result', rfl⟩ := DeclKind.eq_routine_of_erased_eq herased
  obtain ⟨decl, hdecl, hdeclKind⟩ := Option.map_eq_some_iff.mp hfound
  constructor
  · rw [Tree.bodyOf?_eq hdecl, hdeclKind]
    rfl
  · rw [Tree.parametersOf, hfound]
    rfl

/-- A declaration of a block that is no routine has no parameters. -/
theorem parametersOf_eq_nil (held : (Skeleton.mk root inner).HeldBy tree)
    (wellFormed : (Skeleton.mk root inner).WellFormed) {entry : DeclEntry}
    (hentry : entry ∈ root.entries) (hid : entry.declared.id ∉ root.block.routines) :
    tree.parametersOf entry.declared.id = [] := by
  have hmem : entry.declared ∈ (Skeleton.mk root inner).declared := declared_mem_of_entry hentry
  obtain ⟨found, hfound, herased⟩ := Option.map_eq_some_iff.mp (held.kind entry.declared hmem)
  have hparams : found.params = entry.declared.decl.kind.params := by
    rw [← DeclKind.params_erased, herased, DeclKind.params_erased]
  rw [Tree.parametersOf, hfound, Option.map_some, Option.getD_some, hparams]
  cases hkind : entry.declared.decl.kind with
  | routine heading =>
      cases wellFormed with
      | mk _ _ routines _ => exact absurd (routines entry hentry heading hkind) hid
  | constant | type | variableOf | parameter | enumLiteral => rfl

end HeldBy

theorem routines_sublist_declarations (block : Block) :
    block.routines.Sublist block.declarations := by
  rw [Block.routines, Block.declarations, List.filterMap_eq_flatMap_toList]
  refine List.Sublist.flatMap_right _ fun part _ => ?_
  cases part with
  | routine id => exact .refl _
  | constants | types | vars => exact List.nil_sublist _

section Block

variable {tree : Tree} {root : Node} {inner : List Skeleton}

theorem WellFormed.bodies (wellFormed : (Skeleton.mk root inner).WellFormed) :
    List.Forall₂ (BodyOf root.id root.entries) inner root.block.routines := by
  cases wellFormed
  assumption

/-- The parameters of a block's declarations are those of the bodies inside it. -/
theorem flatMap_parametersOf (wellFormed : (mk root inner).WellFormed)
    (held : (mk root inner).HeldBy tree) (hnodup : (root.entries.map (·.declared.id)).Nodup) :
    ((root.entries.map (·.declared.id)).flatMap tree.parametersOf).Perm
      (inner.flatMap fun body => body.root.params.map Numbered.id) := by
  have hentries : root.block.declarations = root.entries.map (·.declared.id) :=
    wellFormed.node.declarations_eq
  have hsublist := routines_sublist_declarations root.block
  rw [hentries] at hsublist
  rw [flatMap_eq_of_forall₂ wellFormed.bodies fun body routine related =>
    (held.of_bodyOf related).2.symm]
  refine flatMap_perm_of_subset hnodup (hsublist.nodup hnodup) hsublist.subset fun id hid hnot => ?_
  obtain ⟨entry, hentry, rfl⟩ := List.mem_map.mp hid
  exact held.parametersOf_eq_nil wellFormed hentry hnot

/-- The passages of a block's declarations. -/
theorem perm_passagesOf (wellFormed : (mk root inner).WellFormed)
    (held : (mk root inner).HeldBy tree) (hnodup : (root.entries.map (·.declared.id)).Nodup) :
    ((tree.declarationsOf root.id).flatMap tree.passagesOf).Perm
      (root.entries.map (Passage.decl ·.declared.id) ++
        inner.flatMap fun body => body.root.params.map (Passage.decl ·.id)) := by
  have hdeclarations : tree.declarationsOf root.id = root.entries.map (·.declared.id) :=
    held.declarationsOf_eq (root_mem_nodes _) wellFormed.node
  have hparams := (flatMap_parametersOf wellFormed held hnodup).map Passage.decl
  rw [List.map_flatMap, List.map_flatMap] at hparams
  simp only [List.map_map] at hparams
  rw [hdeclarations]
  refine (List.map_append_flatMap_perm _ Passage.decl _).symm.trans ?_
  rw [List.map_map]
  exact hparams.append_left _

/-- The passages of the bodies of a block's routines. -/
theorem flatMap_passagesWithin (wellFormed : (mk root inner).WellFormed)
    (held : (mk root inner).HeldBy tree) (depth : Nat) :
    ((tree.routinesOf root.id).flatMap fun routine =>
        (tree.bodyOf? routine).toList.flatMap (tree.passagesWithin depth)) =
      inner.flatMap fun body => tree.passagesWithin depth body.id := by
  have hroutines : tree.routinesOf root.id = root.block.routines :=
    held.routinesOf_eq (root_mem_nodes _)
  rw [hroutines]
  refine (flatMap_eq_of_forall₂ wellFormed.bodies fun body routine related => ?_).symm
  rw [(held.of_bodyOf related).1, Option.toList_some, List.flatMap_singleton]

end Block

/-- The passages of a block, and those of its parameters, are those of all that is declared in
it but literals, and those of its statements. -/
theorem perm_passagesWithin {tree : Tree} {skeleton : Skeleton} (wellFormed : skeleton.WellFormed)
    (held : skeleton.HeldBy tree) (hnodup : skeleton.declIds.Nodup) {depth : Nat}
    (hdepth : skeleton.nodes.length ≤ depth) :
    (skeleton.root.params.map (Passage.decl ·.id) ++ tree.passagesWithin depth skeleton.id).Perm
      (skeleton.ownIds.map Passage.decl ++ skeleton.blockIds.map Passage.statements) := by
  induction wellFormed generalizing depth with
  | @mk root inner root_wellFormed hbodies routines inner_wellFormed ih =>
      obtain ⟨depth, rfl⟩ : ∃ less, depth = less + 1 :=
        Nat.exists_eq_succ_of_ne_zero
          (Nat.ne_zero_of_lt (Nat.lt_of_lt_of_le (Nat.succ_pos _) hdepth))
      have wellFormed : (mk root inner).WellFormed :=
        .mk root_wellFormed hbodies routines inner_wellFormed
      have hdeclarations := perm_passagesOf wellFormed held (nodup_entries hnodup)
      rw [declIds_eq] at hnodup
      obtain ⟨-, hothers, -⟩ := List.nodup_append'.mp hnodup
      have hinner : (inner.flatMap fun body =>
          body.root.params.map (Passage.decl ·.id) ++ tree.passagesWithin depth body.id).Perm
            (inner.flatMap fun body =>
              body.ownIds.map Passage.decl ++ body.blockIds.map Passage.statements) := by
        refine .flatMap_left _ fun body hbody => ?_
        have hlt : body.nodes.length < (mk root inner).nodes.length := length_nodes_lt hbody
        exact ih body hbody (held.of_mem_inner hbody)
          ((List.nodup_flatMap.mp hothers).1 body hbody) (by omega)
      -- both sides have the same passages, those of the bodies in two groups each
      have hparts := (List.flatMap_append_perm ..).trans
        (hinner.trans (List.flatMap_append_perm ..).symm)
      change (root.params.map (Passage.decl ·.id) ++ tree.passagesWithin (depth + 1) root.id).Perm _
      rw [ownIds_mk, blockIds_mk, Tree.passagesWithin, flatMap_passagesWithin wellFormed held,
        Node.ownIds_eq,
        List.perm_iff_count]
      intro passage
      have hdeclared := hdeclarations.count_eq passage
      have hwithin := hparts.count_eq passage
      simp only [List.map_append, List.map_map, List.map_flatMap, List.map_cons, List.count_append,
        List.count_cons, List.count_nil, Function.comp_def] at hdeclared hwithin ⊢
      omega

end Skeleton

end MiniPascal
