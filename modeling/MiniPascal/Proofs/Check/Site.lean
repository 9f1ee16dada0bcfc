import MiniPascal.Proofs.Binding.Bound
import MiniPascal.Proofs.Tree.Skeleton

/-!
# Checked skeletons

What a checked tree says of every block of its skeleton: the site of the block
among the frames, its table, the storage of everything declared in it, and that
each name is bound to what it stood for where it is used.  All of it follows from
the skeleton and the site where its outermost block is checked.
-/

namespace MiniPascal

/-! ### What names stand for -/

def tableOf (declared : List Numbered) : List (String × DeclId) :=
  (declared.map fun x => (x.decl.name, x.id)).reverse

/-- What names stand for in a block with these declarations so far. -/
def namesIn (declared : List Numbered) (around : String → Option DeclId) (name : String) :
    Option DeclId :=
  ((tableOf declared).lookup name).or (around name)

theorem tableOf_append_singleton (declared : List Numbered) (x : Numbered) :
    tableOf (declared ++ [x]) = (x.decl.name, x.id) :: tableOf declared := by
  simp [tableOf]

/-- What is declared later on is found first. -/
theorem namesIn_append (declared declared' : List Numbered) (around : String → Option DeclId) :
    namesIn (declared ++ declared') around = namesIn declared' (namesIn declared around) := by
  funext name
  rw [namesIn, namesIn, namesIn, tableOf, List.map_append, List.reverse_append, List.lookup_append,
    Option.or_assoc]
  rfl

private theorem lookup_eq_none_iff {table : List (String × DeclId)} {name : String} :
    table.lookup name = none ↔ name ∉ table.map Prod.fst := by
  induction table with
  | nil => simp
  | cons entry table ih =>
      obtain ⟨key, id⟩ := entry
      by_cases hkey : name = key
      · subst hkey
        simp
      · have hbeq : (name == key) = false := beq_false_of_ne hkey
        simp [List.lookup_cons, hbeq, ih, hkey]

/-- A name is missing from a table if nothing of that name was entered. -/
theorem lookup_tableOf_eq_none_iff {declared : List Numbered} {name : String} :
    (tableOf declared).lookup name = none ↔ name ∉ declared.map (·.decl.name) := by
  rw [lookup_eq_none_iff, tableOf]
  simp

/-- What a table says is the number of something that was entered in it. -/
theorem exists_of_lookup_tableOf {declared : List Numbered} {name : String} {id : DeclId}
    (h : (tableOf declared).lookup name = some id) :
    ∃ x ∈ declared, x.decl.name = name ∧ x.id = id := by
  have hmem : (name, id) ∈ tableOf declared := by
    generalize tableOf declared = table at h
    induction table with
    | nil => cases h
    | cons entry table ih =>
        obtain ⟨key, found⟩ := entry
        rw [List.lookup_cons] at h
        split at h
        · next heq =>
            obtain rfl := eq_of_beq heq
            obtain rfl := Option.some.inj h
            exact List.mem_cons_self
        · exact List.mem_cons_of_mem _ (ih h)
  rw [tableOf, List.mem_reverse, List.mem_map] at hmem
  obtain ⟨x, hx, heq⟩ := hmem
  exact ⟨x, hx, congrArg Prod.fst heq, congrArg Prod.snd heq⟩

/-! ### Sites -/

namespace ScopeLevel

/-- The block after some words were handed out to it. -/
def allocated (words : Nat) (level : ScopeLevel Int) : ScopeLevel Int :=
  { level with
    nextOffset := level.nextOffset - Frame.wordSize * words
    ownBytes := level.ownBytes + Frame.wordSize * words }

/-- The block after some words of its frame were handed out to bodies inside it. -/
def resumed (words : Nat) (level : ScopeLevel Int) : ScopeLevel Int :=
  { level with nextOffset := level.nextOffset - Frame.wordSize * words }

@[simp]
theorem allocated_zero (level : ScopeLevel Int) : level.allocated 0 = level := by
  simp [allocated]

@[simp]
theorem resumed_zero (level : ScopeLevel Int) : level.resumed 0 = level := by
  simp [resumed]

theorem allocated_allocated (words words' : Nat) (level : ScopeLevel Int) :
    (level.allocated words).allocated words' = level.allocated (words + words') := by
  simp only [allocated, Int.natCast_add, Int.mul_add, Int.sub_sub, Int.add_assoc]

theorem resumed_resumed (words words' : Nat) (level : ScopeLevel Int) :
    (level.resumed words).resumed words' = level.resumed (words + words') := by
  simp only [resumed, Int.natCast_add, Int.mul_add, Int.sub_sub]

/-- The storage of a declaration that is the next one in the block. -/
def layoutFor (level : ScopeLevel Int) (kind : DeclKind) : Option Layout :=
  if kind.takesWord then
    some { frameLevel := level.frameLevel, offset := level.nextOffset }
  else match kind with
    | .routine heading =>
      if heading.isFunction then
        some { frameLevel := level.frameLevel + 1, offset := Frame.resultOffset }
      else none
    | _ => none

theorem layoutFor_of_takesWord {level : ScopeLevel Int} {kind : DeclKind}
    (h : kind.takesWord = true) : level.layoutFor kind =
      some { frameLevel := level.frameLevel, offset := level.nextOffset } :=
  if_pos h

end ScopeLevel

/-- Where a block is checked: the block around it, with the storage handed out
so far, and what names stand for there. -/
structure Site where
  level : ScopeLevel Int
  names : String → Option DeclId

/-- The entries whose own declarations take a word of the frame. -/
def wordsOf (entries : List DeclEntry) : List Numbered :=
  (entries.map DeclEntry.declared).filter (·.decl.kind.takesWord)

theorem wordsOf_append_singleton (entries : List DeclEntry) (entry : DeclEntry) :
    (wordsOf (entries ++ [entry])).length =
      (wordsOf entries).length + if entry.declared.decl.kind.takesWord then 1 else 0 := by
  rw [wordsOf, wordsOf, List.map_append, List.filter_append, List.length_append]
  cases htaken : entry.declared.decl.kind.takesWord <;> simp [htaken]

/-- The words that a body takes in the frame around it. -/
def Skeleton.sharedWords (body : Skeleton) : Nat :=
  if body.root.ownsFrame then 0 else body.frameWords.length

namespace Site

def entered (site : Site) (node : Node) : ScopeLevel Int :=
  (Scope.push node.id node.ownsFrame { current := site.level, outer := [] }).current

/-- The site of the first body inside a block, where everything is declared. -/
def inside (site : Site) (node : Node) : Site where
  level := (site.entered node).allocated node.words.length
  names := namesIn node.declared site.names

def resumed (site : Site) (body : Skeleton) : Site :=
  { site with level := site.level.resumed body.sharedWords }

end Site

/-! ### Checked blocks -/

/-- The block, annotated with its site and a table. -/
def Node.blockAt (node : Node) (level : ScopeLevel Int) (table : List (String × DeclId)) : Block :=
  { node.block with
    level := level.level
    frameLevel := level.frameLevel
    frameOwner? := some level.frameOwner
    table }

/-- Level and storage of a declaration are fixed. -/
def Tree.LaidOut (tree : Tree) (id : DeclId) (level : Nat) (layout? : Option Layout) : Prop :=
  ∃ decl, tree.decls[id]? = some decl ∧ decl.level? = some level ∧ decl.layout? = layout?

/-- The names in a declaration are bound to what they stand for. -/
def Tree.KindBound (tree : Tree) (names : String → Option DeclId) (block : BlockId)
    (id : DeclId) : Prop :=
  ∃ decl, tree.decls[id]? = some decl ∧ ∀ use ∈ decl.kind.uses, tree.Bound names block use

/-- Every use of a name in what is declared carries a binding. -/
def DeclKind.IsResolved (kind : DeclKind) : Prop :=
  ∀ use ∈ kind.uses, use.2.decl?.isSome = true

def Tree.ResolvedAt (tree : Tree) (id : DeclId) : Prop :=
  ∃ decl, tree.decls[id]? = some decl ∧ decl.kind.IsResolved

/-- An entry is checked in a block, where names stand for what was declared
before it. -/
structure EntryChecked (tree : Tree) (level : ScopeLevel Int) (names : String → Option DeclId)
    (entry : DeclEntry) : Prop where
  bound : tree.KindBound names level.block entry.declared.id
  params : ∀ param ∈ entry.declared.decl.kind.params, tree.ResolvedAt param
  bindable : tree.AllBindable names level.block (tree.usesOf entry.declared.decl.kind)
  laidOut : tree.LaidOut entry.declared.id level.level (level.layoutFor entry.declared.decl.kind)
  literals : ∀ x ∈ entry.literals, tree.LaidOut x.id level.level none

/-- Some entries are checked, each where those before it are declared. -/
def EntriesChecked (tree : Tree) (level : ScopeLevel Int) (around : String → Option DeclId)
    (params : List Numbered) (entries : List DeclEntry) : Prop :=
  ∀ before entry after, entries = before ++ entry :: after →
    EntryChecked tree (level.allocated (wordsOf before).length)
      (namesIn (params ++ before.flatMap DeclEntry.all) around) entry

/-- Parameters have their words above the frame pointer, in order. -/
def ParamsChecked (tree : Tree) (level : ScopeLevel Int) (params : List Numbered) : Prop :=
  ∀ (index : Nat) (x : Numbered), params[index]? = some x →
    tree.LaidOut x.id level.level
      (some { frameLevel := level.frameLevel, offset := Frame.paramOffset index })

/-- The statements of a block are checked, and its storage is known. -/
def BlockChecked (tree : Tree) (level : ScopeLevel Int) (names : String → Option DeclId)
    (node : Node) (frameWords : Nat) : Prop :=
  ∃ statements, tree.blocks[node.id]? = some { node.blockAt level (tableOf node.declared) with
      statements
      localBytes := Frame.wordSize * node.words.length
      frameBytes := if node.ownsFrame then Frame.wordSize * frameWords else 0 } ∧
    Statement.erasedAll statements = Statement.erasedAll node.block.statements ∧
    ∀ use ∈ Statement.usesAll statements, tree.Bound names node.id use

/-- A block is checked at a site. -/
structure NodeChecked (tree : Tree) (site : Site) (node : Node) (frameWords : Nat) : Prop where
  block : BlockChecked tree (site.entered node) (site.inside node).names node frameWords
  frameLevel_le : (site.entered node).frameLevel ≤ Frame.maxLevel
  names_nodup : (node.declared.map (·.decl.name)).Nodup
  params : ParamsChecked tree (site.entered node) node.params
  entries : EntriesChecked tree (site.entered node) site.names node.params node.entries

theorem ParamsChecked.append_singleton {tree : Tree} {level : ScopeLevel Int}
    {params : List Numbered} {x : Numbered} (h : ParamsChecked tree level params)
    (hx : tree.LaidOut x.id level.level
      (some { frameLevel := level.frameLevel, offset := Frame.paramOffset params.length })) :
    ParamsChecked tree level (params ++ [x]) := by
  intro index y hy
  rcases Nat.lt_or_ge index params.length with hlt | hge
  · rw [List.getElem?_append_left hlt] at hy
    exact h index y hy
  · rw [List.getElem?_append_right hge, List.getElem?_singleton] at hy
    split at hy
    · next hindex =>
        obtain rfl := Option.some.inj hy
        have heq : index = params.length := Nat.le_antisymm (Nat.sub_eq_zero_iff_le.mp hindex) hge
        rw [heq]
        exact hx
    · cases hy

theorem EntriesChecked.of_append {tree : Tree} {level : ScopeLevel Int}
    {around : String → Option DeclId} {params : List Numbered} {entries after : List DeclEntry}
    (h : EntriesChecked tree level around params (entries ++ after)) :
    EntriesChecked tree level around params entries := by
  intro before entry rest heq
  refine h before entry (rest ++ after) ?_
  rw [heq, List.append_assoc, List.cons_append]

theorem EntriesChecked.append_singleton {tree : Tree} {level : ScopeLevel Int}
    {around : String → Option DeclId} {params : List Numbered} {entries : List DeclEntry}
    {entry : DeclEntry} (h : EntriesChecked tree level around params entries)
    (hentry : EntryChecked tree (level.allocated (wordsOf entries).length)
      (namesIn (params ++ entries.flatMap DeclEntry.all) around) entry) :
    EntriesChecked tree level around params (entries ++ [entry]) := by
  intro before found after heq
  rcases List.eq_nil_or_concat after with rfl | ⟨after, last, rfl⟩
  · obtain ⟨rfl, hlast⟩ := List.append_inj' heq rfl
    obtain rfl := List.singleton_inj.mp hlast
    exact hentry
  · rw [List.concat_eq_append, ← List.cons_append, ← List.append_assoc] at heq
    exact h before found after (List.append_inj' heq rfl).1

namespace Skeleton

mutual

/-- A block and all blocks inside it are checked. -/
def Checked (tree : Tree) (site : Site) : Skeleton → Prop
  | mk root inner =>
    NodeChecked tree site root (mk root inner).frameWords.length ∧
      CheckedAll tree (site.inside root) inner

def CheckedAll (tree : Tree) (site : Site) : List Skeleton → Prop
  | [] => True
  | first :: others => first.Checked tree site ∧ CheckedAll tree (site.resumed first) others

end

theorem Checked.node {tree : Tree} {site : Site} {skeleton : Skeleton}
    (h : skeleton.Checked tree site) :
    NodeChecked tree site skeleton.root skeleton.frameWords.length := by
  cases skeleton
  exact h.1

end Skeleton

/-! ### Where blocks occur -/

/-- The site of what follows some bodies. -/
def Site.resumedAll (site : Site) (bodies : List Skeleton) : Site :=
  bodies.foldl Site.resumed site

namespace Site

@[simp]
theorem resumedAll_nil (site : Site) : site.resumedAll [] = site := rfl

@[simp]
theorem resumedAll_cons (site : Site) (first : Skeleton) (others : List Skeleton) :
    site.resumedAll (first :: others) = (site.resumed first).resumedAll others := rfl

theorem names_resumedAll (site : Site) (bodies : List Skeleton) :
    (site.resumedAll bodies).names = site.names := by
  induction bodies generalizing site with
  | nil => rfl
  | cons first others ih => rw [resumedAll_cons, ih]; rfl

end Site

namespace Skeleton

/-- A block occurs at a site inside a block that is checked at another one. -/
inductive Occurs (site : Site) (top : Skeleton) : Site → Skeleton → Prop
  | top : Occurs site top site top
  | body {around : Site} {root : Node} {before after : List Skeleton} {body : Skeleton}
      (outer : Occurs site top around (.mk root (before ++ body :: after))) :
      Occurs site top ((around.inside root).resumedAll before) body

theorem Occurs.trans {site around inside : Site} {top skeleton inner : Skeleton}
    (occurs : Occurs site top around skeleton) (h : Occurs around skeleton inside inner) :
    Occurs site top inside inner := by
  induction h with
  | top => exact occurs
  | body _ ih => exact .body ih

end Skeleton

end MiniPascal
