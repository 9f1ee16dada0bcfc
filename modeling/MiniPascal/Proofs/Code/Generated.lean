import MiniPascal.Code.Program
import MiniPascal.Proofs.Code.Written

/-!
# Code is generated for checked programs

The routines of a block get their labels before any of their code is written, and
no label is ever taken away.  So wherever code is written, every routine that is
visible there has its label, and the code of a checked program can be generated
from end to end.
-/

namespace MiniPascal.Code

open MiniPascal.Assembly
open Emit

/-! ### Labels -/

/-- Every routine that has a label in the first list has one in the second. -/
def RoutineLabels.Extends (labels labels' : RoutineLabels) : Prop :=
  ∀ id label, labels.lookup id = some label → ∃ label', labels'.lookup id = some label'

/-- The routines that names stand for have labels. -/
def RoutineLabels.Cover (labels : RoutineLabels) (tree : Tree)
    (names : String → Option DeclId) : Prop :=
  ∀ name id, names name = some id → Labelled tree labels id

namespace RoutineLabels

variable {tree : Tree} {labels labels' labels'' : RoutineLabels}

theorem Extends.refl (labels : RoutineLabels) : labels.Extends labels :=
  fun _ label h => ⟨label, h⟩

theorem Extends.trans (first : labels.Extends labels') (second : labels'.Extends labels'') :
    labels.Extends labels'' := by
  intro id label h
  obtain ⟨label', h'⟩ := first id label h
  exact second id label' h'

theorem lookup_cons_self (id : DeclId) (label : Label) (labels : RoutineLabels) :
    ((id, label) :: labels).lookup id = some label := by
  rw [List.lookup_cons, beq_self_eq_true]

theorem extends_cons (id : DeclId) (label : Label) (labels : RoutineLabels) :
    labels.Extends ((id, label) :: labels) := by
  intro other found h
  rw [List.lookup_cons]
  cases hother : other == id with
  | true => exact ⟨label, rfl⟩
  | false => exact ⟨found, h⟩

theorem Cover.extends {names : String → Option DeclId} (h : labels.Cover tree names)
    (hextends : labels.Extends labels') : labels'.Cover tree names := by
  intro name id hname decl heading hdecl hkind hbuiltin
  obtain ⟨label, hlabel⟩ := h name id hname decl heading hdecl hkind hbuiltin
  exact hextends id label hlabel

/-- With labels for its own routines, a block has labels for all it can see. -/
theorem Cover.namesIn {node : Node} {around : String → Option DeclId}
    (h : labels.Cover tree around) (wellFormed : node.WellFormed)
    (herased : ∀ x ∈ node.declared, tree.decls[x.id]?.map Decl.erased = some x.decl.erased)
    (hroutines : ∀ entry ∈ node.entries, ∀ heading, entry.declared.decl.kind = .routine heading →
      ∃ label, labels.lookup entry.declared.id = some label) :
    labels.Cover tree (namesIn node.declared around) := by
  intro name id hname
  rcases Option.or_eq_some_iff.mp hname with hfound | ⟨-, houter⟩
  · obtain ⟨x, hx, -, rfl⟩ := exists_of_lookup_tableOf hfound
    intro decl heading hdecl hkind _
    have hsame := herased x hx
    rw [hdecl, Option.map_some, Option.some.injEq] at hsame
    have hkindErased : x.decl.kind.erased = (DeclKind.routine heading).erased := by
      rw [← hkind]
      exact (congrArg Decl.kind hsame).symm
    obtain ⟨result, hrouting⟩ := DeclKind.eq_routine_of_erased_eq hkindErased
    rcases List.mem_append.mp hx with hparam | hentries
    · obtain ⟨ref, href⟩ := wellFormed.params_kind x hparam
      cases hrouting.symm.trans href
    · obtain ⟨entry, hentry, hxEntry⟩ := List.mem_flatMap.mp hentries
      rcases List.mem_cons.mp hxEntry with rfl | hliteral
      · exact hroutines entry hentry _ hrouting
      · obtain ⟨code, hcode⟩ := wellFormed.literals_kind entry hentry x hliteral
        cases hrouting.symm.trans hcode
  · exact h name id houter

end RoutineLabels

/-- All of some declarations can get labels. -/
theorem succeeds_labelRoutines {tree : Tree} (ids : List DeclId) (labels : RoutineLabels)
    (declared : ∀ id ∈ ids, ∃ decl, tree.decls[id]? = some decl) :
    (labelRoutines tree labels ids).Succeeds fun labels' =>
      labels.Extends labels' ∧ ∀ id ∈ ids, ∃ label, labels'.lookup id = some label := by
  induction ids generalizing labels with
  | nil => exact succeeds_pure ⟨.refl labels, fun _ h => absurd h List.not_mem_nil⟩
  | cons id ids ih =>
      obtain ⟨⟨decl, hdecl⟩, hothers⟩ := List.forall_mem_cons.mp declared
      refine succeeds_ofExcept_bind (declared_eq_ok hdecl) ?_
      refine succeeds_bind succeeds_freshNumber fun number _ => ?_
      refine (ih _ hothers).mono ?_
      rintro labels' ⟨hextends, hlabelled⟩
      refine ⟨(RoutineLabels.extends_cons id _ labels).trans hextends, ?_⟩
      refine List.forall_mem_cons.mpr ⟨?_, hlabelled⟩
      exact hextends id _ (RoutineLabels.lookup_cons_self id _ labels)

/-! ### Bodies -/

theorem blockOf_eq_ok {tree : Tree} {id : BlockId} {block : Block}
    (h : tree.blocks[id]? = some block) : blockOf tree id = .ok block := by
  rw [blockOf, h]

section Bodies

variable {tree : Tree} {labels : RoutineLabels} {names : String → Option DeclId}
variable {block : BlockId} {body : Block}

/-- A checked block has the routines it was numbered with, and its names are bound. -/
theorem exists_block {site : Site} {node : Node} {frameWords : Nat}
    (checked : NodeChecked tree site node frameWords) :
    ∃ block, tree.blocks[node.id]? = some block ∧ block.routines = node.block.routines ∧
      ∀ use ∈ Statement.usesAll block.statements,
        tree.Bound (site.inside node).names node.id use := by
  obtain ⟨statements, hblock, -, hbound⟩ := checked.block
  exact ⟨_, hblock, rfl, hbound⟩

theorem succeeds_framedBody (serves : Env.Serves { tree, labels } names)
    (bound : ∀ use ∈ Statement.usesAll body.statements, tree.Bound names block use)
    (name : String) (isFunction : Bool) (label : Label) :
    (framedBody { tree, labels } name isFunction label body).Succeeds fun _ => True := by
  refine succeeds_then (succeeds_labelled _ _ _) ?_
  refine succeeds_then (serves.succeeds_statements body.statements bound) ?_
  split
  · refine succeeds_then (succeeds_commented _ _) ?_
    exact succeeds_then (succeeds_instruction _) (succeeds_commented _ _)
  · exact succeeds_then (succeeds_instruction _) (succeeds_commented _ _)

theorem succeeds_inlineBody (serves : Env.Serves { tree, labels } names)
    (bound : ∀ use ∈ Statement.usesAll body.statements, tree.Bound names block use)
    {decl : Decl} {isFunction : Bool}
    (hlayout : isFunction = true → ∃ layout, decl.layout? = some layout) (label : Label) :
    (inlineBody { tree, labels } decl isFunction label body).Succeeds fun _ => True := by
  refine succeeds_then (succeeds_label _) ?_
  refine succeeds_then (serves.succeeds_statements body.statements bound) ?_
  split
  · next hfunction =>
      obtain ⟨layout, hlayout⟩ := hlayout hfunction
      refine succeeds_ofExcept_bind (storage_eq_ok hlayout) ?_
      refine succeeds_then (succeeds_instruction _) ?_
      exact succeeds_then (succeeds_commented _ _) (succeeds_commented _ _)
  · exact succeeds_commented _ _

end Bodies

/-! ### Blocks -/

/-- The code of the routines of a block can be written, whatever labels there
are already, as long as they cover what is visible around the block. -/
def WritesRoutines (tree : Tree) (write : BlockId → RoutineLabels → Emit RoutineLabels)
    (site : Site) (skeleton : Skeleton) : Prop :=
  ∀ labels : RoutineLabels, labels.Cover tree site.names →
    (write skeleton.id labels).Succeeds fun labels' =>
      labels.Extends labels' ∧ labels'.Cover tree (site.inside skeleton.root).names

section Blocks

variable {tree : Tree} {site : Site} {write : BlockId → RoutineLabels → Emit RoutineLabels}

/-- The statements of a checked block can be written with labels for all that is
visible in it. -/
theorem succeeds_routine {outer : BlockId} {entries : List DeclEntry} {body : Skeleton}
    {id : DeclId} (settled : ∀ id < tree.decls.size, tree.Settled id)
    (herased : ∀ entry ∈ entries,
      tree.decls[entry.declared.id]?.map Decl.erased = some entry.declared.decl.erased)
    (bodyOf : Skeleton.BodyOf outer entries body id) (checked : body.Checked tree site)
    (writes : WritesRoutines tree write site body) {labels : RoutineLabels} {label : Label}
    (hcover : labels.Cover tree site.names) (hlabel : labels.lookup id = some label) :
    (Code.routine write tree id labels).Succeeds fun labels' => labels.Extends labels' := by
  obtain ⟨-, -, -, entry, hentry, rfl, result, hkind⟩ := bodyOf
  obtain ⟨decl, hdecl, heq⟩ := Option.map_eq_some_iff.mp (herased entry hentry)
  have hkindErased := congrArg Decl.kind heq.symm
  change entry.declared.decl.kind.erased = decl.kind.erased at hkindErased
  rw [hkind] at hkindErased
  obtain ⟨result', hrouting⟩ := DeclKind.eq_routine_of_erased_eq hkindErased.symm
  obtain ⟨block, hblock, -, hbound⟩ := exists_block checked.node
  obtain ⟨decl', hdecl', hsettled⟩ := settled _ (Array.getElem?_eq_some_iff.mp hdecl).1
  obtain rfl := Option.some.inj (hdecl.symm.trans hdecl')
  rw [hrouting] at hsettled
  refine succeeds_ofExcept_bind (declared_eq_ok hdecl) ?_
  rw [hrouting]
  simp only [DeclKind.routine?]
  refine succeeds_bind (writes labels hcover) ?_
  rintro labels' ⟨hextends, hcover'⟩
  obtain ⟨label', hlabel'⟩ := hextends _ label hlabel
  have serves : Env.Serves { tree, labels := labels' } (site.inside body.root).names :=
    ⟨settled, hcover'⟩
  rw [hlabel']
  refine succeeds_ofExcept_bind (blockOf_eq_ok hblock) ?_
  split
  · refine succeeds_then (succeeds_framedBody serves hbound _ _ _) ?_
    exact succeeds_pure hextends
  · refine succeeds_then (succeeds_inlineBody serves hbound hsettled _) ?_
    exact succeeds_pure hextends

/-- The bodies of a block's routines can be written one after another, since
they all see the same names. -/
theorem succeeds_routines {outer : BlockId} {entries : List DeclEntry} {bodies : List Skeleton}
    {ids : List DeclId} (settled : ∀ id < tree.decls.size, tree.Settled id)
    (herased : ∀ entry ∈ entries,
      tree.decls[entry.declared.id]?.map Decl.erased = some entry.declared.decl.erased)
    (bodiesOf : List.Forall₂ (Skeleton.BodyOf outer entries) bodies ids)
    (checked : Skeleton.CheckedAll tree site bodies)
    (writes : ∀ body ∈ bodies, ∀ around : Site, around.names = site.names →
      body.Checked tree around → WritesRoutines tree write around body)
    {labels : RoutineLabels} (hcover : labels.Cover tree site.names)
    (hlabels : ∀ id ∈ ids, ∃ label, labels.lookup id = some label) :
    (routines write tree ids labels).Succeeds fun labels' => labels.Extends labels' := by
  induction bodiesOf generalizing site labels with
  | nil => exact succeeds_pure (.refl labels)
  | @cons body id bodies ids bodyOf _ ih =>
      obtain ⟨⟨label, hlabel⟩, hothers⟩ := List.forall_mem_cons.mp hlabels
      obtain ⟨hwrite, hwrites⟩ := List.forall_mem_cons.mp writes
      refine succeeds_bind (succeeds_routine settled herased bodyOf checked.1
        (hwrite site rfl checked.1) hcover hlabel) ?_
      intro labels' hextends
      refine (ih checked.2 hwrites (hcover.extends hextends) ?_).mono fun _ => hextends.trans
      intro id hid
      obtain ⟨label, hlabel⟩ := hothers id hid
      exact hextends id label hlabel

/-- The routines in a block can be written, at any depth that leaves room for all
the blocks inside it. -/
theorem writes_blockRoutines (settled : ∀ id < tree.decls.size, tree.Settled id)
    {skeleton : Skeleton} (wellFormed : skeleton.WellFormed) (checked : skeleton.Checked tree site)
    (herased : ∀ x ∈ skeleton.declared, tree.decls[x.id]?.map Decl.erased = some x.decl.erased)
    {depth : Nat} (hdepth : skeleton.nodes.length ≤ depth) :
    WritesRoutines tree (blockRoutines tree depth) site skeleton := by
  induction depth generalizing skeleton site with
  | zero =>
      rw [Skeleton.nodes_eq] at hdepth
      exact absurd hdepth (Nat.not_succ_le_zero _)
  | succ depth ih =>
      intro labels hcover
      cases wellFormed with
      | @mk root inner root_wellFormed bodies routines inner_wellFormed =>
          have hroot : ∀ x ∈ root.declared,
              tree.decls[x.id]?.map Decl.erased = some x.decl.erased := by
            intro x hx
            refine herased x ?_
            rw [Skeleton.declared_eq]
            exact List.mem_append_left _ hx
          have hentries : ∀ entry ∈ root.entries, tree.decls[entry.declared.id]?.map Decl.erased =
              some entry.declared.decl.erased := fun entry hentry => hroot entry.declared
            (List.mem_append_right _ (List.mem_flatMap.mpr ⟨entry, hentry, List.mem_cons_self⟩))
          have hdeclared : ∀ id ∈ root.block.routines, ∃ decl, tree.decls[id]? = some decl := by
            intro id hid
            obtain ⟨body, -, -, -, -, entry, hentry, rfl, -⟩ := exists_of_forall₂_right bodies hid
            obtain ⟨decl, hdecl, -⟩ := Option.map_eq_some_iff.mp (hentries entry hentry)
            exact ⟨decl, hdecl⟩
          obtain ⟨block, hblock, hroutines, -⟩ := exists_block checked.1
          refine succeeds_ofExcept_bind (blockOf_eq_ok hblock) ?_
          rw [hroutines]
          refine succeeds_bind (succeeds_labelRoutines root.block.routines labels hdeclared) ?_
          rintro labels' ⟨hextends, hlabelled⟩
          have hinside : labels'.Cover tree (site.inside root).names := by
            refine (hcover.extends hextends).namesIn root_wellFormed hroot fun entry hentry heading
              hkind => hlabelled _ (routines entry hentry heading hkind)
          refine (succeeds_routines settled hentries bodies checked.2 ?_ hinside hlabelled).mono ?_
          · intro body hbody around hnames hchecked
            refine ih (inner_wellFormed body hbody) hchecked (fun x hx => herased x ?_) ?_
            · exact @Skeleton.declared_subset_of_mem_inner (.mk root inner) body hbody x hx
            · exact Nat.le_of_lt_succ (Nat.lt_of_lt_of_le (Skeleton.length_nodes_lt hbody) hdepth)
          · intro labels'' hextends'
            exact ⟨hextends.trans hextends', hinside.extends hextends'⟩

end Blocks

/-! ### Programs -/

theorem succeeds_entry (label : Label) : (entry label).Succeeds fun _ => True := by
  refine succeeds_then (succeeds_directive _) ?_
  refine succeeds_then (succeeds_directive _) ?_
  refine succeeds_then (succeeds_directive _) ?_
  refine succeeds_then (succeeds_directive _) ?_
  refine succeeds_then (succeeds_directive _) ?_
  refine succeeds_then (succeeds_label _) ?_
  refine succeeds_then (succeeds_labelled _ _ _) ?_
  exact succeeds_then (succeeds_commented _ _) (succeeds_commented _ _)

/-- Before any label is drawn, the library is covered: its routine has no body. -/
theorem cover_library {outline : Outline} {skeleton : Skeleton} {tree : Tree}
    (program : CheckedProgram outline skeleton tree) :
    RoutineLabels.Cover [] tree (Library.site (Tree.ofOutline outline).decls.size).names := by
  intro name id hname decl heading hdecl hkind hbuiltin
  rcases Option.or_eq_some_iff.mp hname with hfound | ⟨-, hnone⟩
  · obtain ⟨x, hx, -, rfl⟩ := exists_of_lookup_tableOf hfound
    rw [program.declared x hx] at hdecl
    obtain rfl := Option.some.inj hdecl
    have hmem : x.decl ∈ Library.decls := by
      rw [← Library.map_decl_numberFrom (Tree.ofOutline outline).decls.size Library.decls]
      exact List.mem_map_of_mem hx
    have hbody := Library.body_eq_none x.decl hmem
    change x.decl.kind = _ at hkind
    rw [hkind] at hbody
    change heading.body = none at hbody
    rw [Routine.isBuiltin, hbody] at hbuiltin
    cases hbuiltin
  · cases hnone

/-- **The code of a checked program can be written**, under every name and from
every label counter. -/
theorem succeeds_program {outline : Outline} {skeleton : Skeleton} {tree : Tree}
    (program : CheckedProgram outline skeleton tree) (name : String) :
    (Code.program tree name).Succeeds fun _ => True := by
  have settled : ∀ id < tree.decls.size, tree.Settled id := fun _ => program.settled
  have hdepth : skeleton.nodes.length ≤ tree.blocks.size + 1 := by
    rw [program.blocks_size]
    exact Nat.le_succ_of_le program.hasSkeleton.length_nodes_le
  have writes := writes_blockRoutines settled program.hasSkeleton.wellFormed program.checked
    program.erased_eq hdepth [] (cover_library program)
  obtain ⟨block, hblock, -, hbound⟩ := exists_block program.checked.node
  rw [Code.program, if_pos program.checked_eq, program.body_eq]
  refine succeeds_bind succeeds_freshNumber fun number _ => ?_
  refine succeeds_then (succeeds_entry _) ?_
  refine succeeds_bind writes ?_
  rintro labels ⟨-, hcover⟩
  refine succeeds_ofExcept_bind (blockOf_eq_ok hblock) ?_
  exact succeeds_framedBody ⟨settled, hcover⟩ hbound _ _ _

end MiniPascal.Code
