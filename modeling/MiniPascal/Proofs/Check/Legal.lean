import MiniPascal.Proofs.Check.Site

/-!
# What a check demands

The demands on a program, block by block: frames are not nested too deeply, the
names declared in a block differ, and every use of a name can be bound where the
check comes to it.  They speak of the program alone, whatever is annotated.
-/

namespace MiniPascal

/-- The names in some entries can be bound, each where those before it are declared. -/
def EntriesLegal (tree : Tree) (block : BlockId) (around : String → Option DeclId)
    (params : List Numbered) (entries : List DeclEntry) : Prop :=
  ∀ before entry after, entries = before ++ entry :: after →
    tree.AllBindable (namesIn (params ++ before.flatMap DeclEntry.all) around) block
      (tree.usesOf entry.declared.decl.kind)

/-- The demands on a block at a site. -/
structure NodeLegal (tree : Tree) (site : Site) (node : Node) : Prop where
  frameLevel_le : (site.entered node).frameLevel ≤ Frame.maxLevel
  names_nodup : (node.declared.map (·.decl.name)).Nodup
  entries : EntriesLegal tree node.id site.names node.params node.entries
  statements : tree.AllBindable (site.inside node).names node.id
    (Statement.usesAll node.block.statements)

/-- The demands on a block and all blocks inside it. -/
def Skeleton.Legal (tree : Tree) (site : Site) (skeleton : Skeleton) : Prop :=
  ∀ around body, Occurs site skeleton around body → NodeLegal tree around body.root

def Skeleton.LegalAll (tree : Tree) (site : Site) (bodies : List Skeleton) : Prop :=
  ∀ before body after, bodies = before ++ body :: after →
    body.Legal tree (site.resumedAll before)

section Annotated

variable {tree other : Tree} {site : Site}

theorem EntriesLegal.of_erased_eq (h : other.erased = tree.erased) {block : BlockId}
    {around : String → Option DeclId} {params : List Numbered} {entries : List DeclEntry}
    (legal : EntriesLegal tree block around params entries) :
    EntriesLegal other block around params entries := by
  intro before entry after heq
  exact (legal before entry after heq).of_erased_eq h (Tree.map_erased_usesOf h rfl)

theorem NodeLegal.of_erased_eq (h : other.erased = tree.erased) {node : Node}
    (legal : NodeLegal tree site node) : NodeLegal other site node where
  frameLevel_le := legal.frameLevel_le
  names_nodup := legal.names_nodup
  entries := legal.entries.of_erased_eq h
  statements := legal.statements.of_erased_eq h rfl

namespace Skeleton

theorem Legal.of_erased_eq (h : other.erased = tree.erased) {skeleton : Skeleton}
    (legal : skeleton.Legal tree site) : skeleton.Legal other site :=
  fun around body occurs => (legal around body occurs).of_erased_eq h

theorem LegalAll.of_erased_eq (h : other.erased = tree.erased) {bodies : List Skeleton}
    (legal : LegalAll tree site bodies) : LegalAll other site bodies :=
  fun before body after heq => (legal before body after heq).of_erased_eq h

/-- The demands on a block contain those on the block alone. -/
theorem Legal.node {skeleton : Skeleton} (legal : skeleton.Legal tree site) :
    NodeLegal tree site skeleton.root :=
  legal site skeleton .top

/-- They contain those on the bodies inside it. -/
theorem Legal.inner {root : Node} {inner : List Skeleton}
    (legal : (mk root inner).Legal tree site) :
    LegalAll tree (site.inside root) inner := by
  rintro before body after rfl around found occurs
  exact legal around found ((Occurs.body .top).trans occurs)

theorem LegalAll.head {first : Skeleton} {others : List Skeleton}
    (legal : LegalAll tree site (first :: others)) : first.Legal tree site :=
  legal [] first others rfl

theorem LegalAll.tail {first : Skeleton} {others : List Skeleton}
    (legal : LegalAll tree site (first :: others)) : LegalAll tree (site.resumed first) others := by
  rintro before body after rfl
  exact legal (first :: before) body after rfl

end Skeleton

/-- Where a block is checked, it meets the demands. -/
theorem NodeChecked.legal {node : Node} {frameWords : Nat}
    (checked : NodeChecked tree site node frameWords) : NodeLegal tree site node where
  frameLevel_le := checked.frameLevel_le
  names_nodup := checked.names_nodup
  entries before entry after heq := (checked.entries before entry after heq).bindable
  statements := by
    obtain ⟨statements, -, herased, huses⟩ := checked.block
    have hsame : (Statement.usesAll node.block.statements).map Use.erased =
        (Statement.usesAll statements).map Use.erased := by
      rw [← Statement.usesAll_erased, ← Statement.usesAll_erased, herased]
    have bindable : tree.AllBindable (site.inside node).names node.id
        (Statement.usesAll statements) := fun use huse => (huses use huse).bindable
    exact bindable.of_erased_eq rfl hsame

end Annotated

end MiniPascal
