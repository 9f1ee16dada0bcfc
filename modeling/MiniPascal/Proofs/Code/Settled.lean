import MiniPascal.Proofs.Check.Occurs
import MiniPascal.Proofs.Code.Constants
import Mathlib.Data.List.Induction

/-!
# What code needs of declarations

Code can be written for the use of a declaration when a variable, a parameter or
a function has its word and a constant stands for a number.  In a checked program
this holds of all that is declared: of an entry because it holds of what was
visible before it, which is all that the entry can mention.
-/

namespace MiniPascal

/-- A declaration has what code needs of it. -/
def Tree.Settled (tree : Tree) (id : DeclId) : Prop :=
  ∃ decl, tree.decls[id]? = some decl ∧
    match decl.kind with
    | .variableOf _ | .parameter _ => ∃ layout, decl.layout? = some layout
    | .constant _ | .enumLiteral _ => ∃ path value literal?, tree.Denotes path id value literal?
    | .routine heading => heading.isFunction = true → ∃ layout, decl.layout? = some layout
    | .type _ => True

def Tree.SettledNames (tree : Tree) (names : String → Option DeclId) : Prop :=
  ∀ name id, names name = some id → tree.Settled id

namespace ScopeLevel

theorem exists_layoutFor {level : ScopeLevel Int} {heading : Routine}
    (h : heading.isFunction = true) :
    ∃ layout, level.layoutFor (.routine heading) = some layout := by
  unfold layoutFor
  split
  · exact ⟨_, rfl⟩
  · exact ⟨_, if_pos h⟩

end ScopeLevel

namespace Library

/-- The library declares types, literals, and a procedure: nothing that needs
storage, and no constant that is named after another one. -/
theorem plain : ∀ decl ∈ decls, (match decl.kind with
    | .type _ | .enumLiteral _ | .constant (.literal ..) => true
    | .routine heading => !heading.isFunction
    | .variableOf _ | .parameter _ | .constant (.named _) => false) = true := by
  decide

end Library

section Entries

variable {tree : Tree} {level : ScopeLevel Int} {names around : String → Option DeclId}

theorem Tree.settled_of_enumLiteral {x : Numbered} {code : Int}
    (herased : tree.decls[x.id]?.map Decl.erased = some x.decl.erased)
    (hkind : x.decl.kind = .enumLiteral code) : tree.Settled x.id := by
  obtain ⟨decl, hdecl, heq⟩ := Option.map_eq_some_iff.mp herased
  have hsame : decl.kind.erased = x.decl.kind.erased := congrArg Decl.kind heq
  rw [hkind] at hsame
  refine ⟨decl, hdecl, ?_⟩
  cases hkindOf : decl.kind with
  | enumLiteral found => exact ⟨_, _, _, .enumLiteral hdecl hkindOf⟩
  | constant | type | variableOf | parameter | routine =>
      rw [hkindOf] at hsame
      cases hsame

theorem Tree.settled_of_parameter {x : Numbered} {ref : NameRef} {layout : Layout}
    (herased : tree.decls[x.id]?.map Decl.erased = some x.decl.erased)
    (hkind : x.decl.kind = .parameter ref)
    (hlaidOut : tree.LaidOut x.id level.level (some layout)) :
    tree.Settled x.id := by
  obtain ⟨decl, hdecl, -, hlayout⟩ := hlaidOut
  rw [hdecl, Option.map_some, Option.some.injEq] at herased
  have hsame : decl.kind.erased = x.decl.kind.erased := congrArg Decl.kind herased
  rw [hkind] at hsame
  refine ⟨decl, hdecl, ?_⟩
  cases hkindOf : decl.kind with
  | parameter found => exact ⟨layout, hlayout⟩
  | constant | type | variableOf | enumLiteral | routine =>
      rw [hkindOf] at hsame
      cases hsame

/-- A constant that is bound to a settled declaration is settled itself. -/
theorem Tree.settled_of_named {id : DeclId} {decl : Decl} {ref : NameRef} {block : BlockId}
    (hnames : tree.SettledNames names) (hdecl : tree.decls[id]? = some decl)
    (hkind : decl.kind = .constant (.named ref)) (bound : tree.Bound names block (.constant, ref)) :
    ∃ path value literal?, tree.Denotes path id value literal? := by
  obtain ⟨next, target, hbound, hname, htarget, hobjection⟩ := bound
  obtain ⟨target', htarget', hsettled⟩ := hnames ref.name next hname
  obtain rfl := Option.some.inj (htarget.symm.trans htarget')
  simp only [NameUse.objection?] at hobjection
  cases hkindOf : target.kind with
  | constant content =>
      rw [hkindOf] at hsettled
      obtain ⟨path, value, literal?, hdenotes⟩ := hsettled
      exact ⟨_, value, literal?, .named hdecl hkind hbound hdenotes⟩
  | enumLiteral code =>
      rw [hkindOf] at hsettled
      obtain ⟨path, value, literal?, hdenotes⟩ := hsettled
      exact ⟨_, value, literal?, .named hdecl hkind hbound hdenotes⟩
  | type | variableOf | parameter | routine =>
      rw [hkindOf] at hobjection
      cases hobjection

/-- An entry is settled when all that it can mention is. -/
theorem EntryChecked.settled {entry : DeclEntry} (h : EntryChecked tree level names entry)
    (hnames : tree.SettledNames names)
    (herased : ∀ x ∈ entry.all, tree.decls[x.id]?.map Decl.erased = some x.decl.erased)
    (hliterals : ∀ x ∈ entry.literals, ∃ code, x.decl.kind = .enumLiteral code)
    (hparameter : ∀ ref, entry.declared.decl.kind ≠ .parameter ref) :
    ∀ x ∈ entry.all, tree.Settled x.id := by
  intro x hx
  rcases List.mem_cons.mp hx with rfl | hliteral
  · obtain ⟨decl, hdecl, -, hlayout⟩ := h.laidOut
    obtain ⟨decl', hdecl', hbound⟩ := h.bound
    obtain rfl := Option.some.inj (hdecl.symm.trans hdecl')
    have hsame := herased entry.declared List.mem_cons_self
    rw [hdecl, Option.map_some, Option.some.injEq] at hsame
    have hkindEq : decl.kind.erased = entry.declared.decl.kind.erased := congrArg Decl.kind hsame
    rw [← DeclKind.layoutFor_erased, ← hkindEq, DeclKind.layoutFor_erased] at hlayout
    refine ⟨decl, hdecl, ?_⟩
    cases hkind : decl.kind with
    | type => exact trivial
    | enumLiteral code => exact ⟨_, _, _, .enumLiteral hdecl hkind⟩
    | variableOf content =>
        rw [hkind] at hlayout
        exact ⟨_, hlayout⟩
    | routine heading =>
        intro hfunction
        rw [hkind] at hlayout
        obtain ⟨layout, heq⟩ := ScopeLevel.exists_layoutFor hfunction
        exact ⟨layout, hlayout.trans heq⟩
    | parameter ref =>
        rw [hkind] at hkindEq
        cases hentry : entry.declared.decl.kind with
        | parameter ref => exact absurd hentry (hparameter ref)
        | constant | type | variableOf | enumLiteral | routine =>
            rw [hentry] at hkindEq
            cases hkindEq
    | constant content =>
        rw [hkind] at hbound
        cases content with
        | literal value line => exact ⟨_, _, _, .literal hdecl hkind⟩
        | named ref =>
            exact Tree.settled_of_named hnames hdecl hkind (hbound _ List.mem_cons_self)
  · obtain ⟨code, hcode⟩ := hliterals x hliteral
    exact Tree.settled_of_enumLiteral (herased x hx) hcode

theorem Tree.SettledNames.namesIn {declared : List Numbered} (haround : tree.SettledNames around)
    (h : ∀ x ∈ declared, tree.Settled x.id) : tree.SettledNames (namesIn declared around) := by
  intro name id hname
  rcases Option.or_eq_some_iff.mp hname with hfound | ⟨-, houter⟩
  · obtain ⟨x, hx, -, rfl⟩ := exists_of_lookup_tableOf hfound
    exact h x hx
  · exact haround name id houter

end Entries

section Blocks

variable {tree : Tree} {site around : Site} {top skeleton : Skeleton} {node : Node}

/-- Everything declared in a block is settled when all that is declared around it is. -/
theorem NodeChecked.settled {frameWords : Nat} (h : NodeChecked tree site node frameWords)
    (wellFormed : node.WellFormed) (hnames : tree.SettledNames site.names)
    (herased : ∀ x ∈ node.declared, tree.decls[x.id]?.map Decl.erased = some x.decl.erased) :
    ∀ x ∈ node.declared, tree.Settled x.id := by
  have hparams : ∀ x ∈ node.params, tree.Settled x.id := by
    intro x hx
    obtain ⟨index, hindex⟩ := List.mem_iff_getElem?.mp hx
    obtain ⟨ref, href⟩ := wellFormed.params_kind x hx
    exact Tree.settled_of_parameter (herased x (List.mem_append_left _ hx)) href
      (h.params index x hindex)
  have hentries : ∀ before after, node.entries = before ++ after →
      ∀ x ∈ before.flatMap DeclEntry.all, tree.Settled x.id := by
    intro before
    induction before using List.reverseRecOn with
    | nil => exact fun _ _ _ hx => absurd hx List.not_mem_nil
    | append_singleton before entry ih =>
        intro after heq x hx
        rw [List.append_assoc, List.singleton_append] at heq
        rw [List.flatMap_append, List.mem_append, List.flatMap_singleton] at hx
        have hbefore := ih _ heq
        rcases hx with hx | hx
        · exact hbefore x hx
        · have hentry : entry ∈ node.entries := by
            rw [heq]
            exact List.mem_append_right _ List.mem_cons_self
          have hvisible := hnames.namesIn (List.forall_mem_append.mpr ⟨hparams, hbefore⟩)
          refine (h.entries before entry after heq).settled hvisible ?_
            (wellFormed.literals_kind entry hentry) (wellFormed.entry_kind' entry hentry) x hx
          intro y hy
          exact herased y (List.mem_append_right _ (List.mem_flatMap.mpr ⟨entry, hentry, hy⟩))
  exact List.forall_mem_append.mpr ⟨hparams, hentries node.entries [] (List.append_nil _).symm⟩

/-- What is visible around a block is settled, however deep the block lies. -/
theorem Skeleton.Occurs.settledNames (occurs : Occurs site top around skeleton)
    (h : top.Checked tree site) (wellFormed : top.WellFormed)
    (herased : ∀ x ∈ top.declared, tree.decls[x.id]?.map Decl.erased = some x.decl.erased)
    (hnames : tree.SettledNames site.names) : tree.SettledNames around.names := by
  induction occurs with
  | top => exact hnames
  | @body around root before after body outer ih =>
      rw [Site.names_resumedAll]
      have hroot : root.WellFormed := by
        cases outer.wellFormed wellFormed
        assumption
      refine ih.namesIn ((outer.checked h).1.settled hroot ih fun x hx => ?_)
      refine herased x (outer.declared_sublist.subset ?_)
      rw [declared_eq]
      exact List.mem_append_left _ hx

end Blocks

namespace CheckedProgram

variable {outline : Outline} {skeleton body : Skeleton} {tree : Tree} {site : Site}

/-- What the library declares is settled; its only routine is a procedure. -/
theorem settled_library (program : CheckedProgram outline skeleton tree) :
    ∀ x ∈ Library.numbered (Tree.ofOutline outline).decls.size, tree.Settled x.id := by
  intro x hx
  have hdecl := program.declared x hx
  have hmem : x.decl ∈ Library.decls := by
    rw [← Library.map_decl_numberFrom (Tree.ofOutline outline).decls.size Library.decls]
    exact List.mem_map_of_mem hx
  refine ⟨_, hdecl, ?_⟩
  have hplain := Library.plain x.decl hmem
  cases hkind : x.decl.kind with
  | type => exact trivial
  | enumLiteral code => exact ⟨_, _, _, .enumLiteral hdecl hkind⟩
  | constant content =>
      cases content with
      | literal value line => exact ⟨_, _, _, .literal hdecl hkind⟩
      | named ref => rw [hkind] at hplain; cases hplain
  | routine heading =>
      intro hfunction
      rw [hkind] at hplain
      change (!heading.isFunction) = true at hplain
      rw [hfunction] at hplain
      cases hplain
  | variableOf | parameter => rw [hkind] at hplain; cases hplain

theorem settledNames (program : CheckedProgram outline skeleton tree)
    (occurs : Occurs outline skeleton site body) : tree.SettledNames site.names := by
  refine Skeleton.Occurs.settledNames occurs program.checked program.hasSkeleton.wellFormed
    program.erased_eq ?_
  exact Tree.SettledNames.namesIn (fun _ _ hnone => by cases hnone) program.settled_library

/-- **Everything declared is settled.**  Code finds the storage of all variables,
parameters and functions and the numbers of all constants. -/
theorem settled (program : CheckedProgram outline skeleton tree) {id : DeclId}
    (hid : id < tree.decls.size) : tree.Settled id := by
  rcases program.decl_cases hid with ⟨x, hx, rfl⟩ | ⟨x, hx, rfl⟩
  · exact program.settled_library x hx
  · obtain ⟨node, hnode, hxNode⟩ := List.mem_flatMap.mp hx
    obtain ⟨around, found, occurs, rfl⟩ := Skeleton.exists_occurs
      (Library.site (Tree.ofOutline outline).decls.size) skeleton node hnode
    have hroot : found.root.WellFormed := by
      cases occurs.wellFormed program.hasSkeleton.wellFormed
      assumption
    refine (occurs.checked program.checked).node.settled hroot (program.settledNames occurs)
      ?_ x hxNode
    intro y hy
    refine program.erased_eq y (occurs.declared_sublist.subset ?_)
    rw [Skeleton.declared_eq]
    exact List.mem_append_left _ hy

end CheckedProgram

end MiniPascal
