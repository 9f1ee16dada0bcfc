import MiniPascal.Proofs.Check.Nesting
import MiniPascal.Proofs.Grammar.Unbound
import MiniPascal.Proofs.Tree.Flatten
import MiniPascal.Proofs.Tree.Positions

/-!
# Walking through a numbered program

A walk enters a block before the bodies inside it and leaves a declaration after what is
inside it, its parameters or literals and the body of a routine.  Numbering goes the same
way, so the walk meets the blocks and the declarations in the order of their numbers.
-/

namespace MiniPascal

/-! ### What is inside what -/

/-- The enumerations anywhere inside a type, each with its literals, in source order. -/
def TypeExpr.enumerations {Lit : Type} : TypeExpr Lit → List (List Lit)
  | .enumeration literals _ => [literals]
  | .array index element _ => index.enumerations ++ element.enumerations
  | .named _ | .range .. | .builtin _ => []

namespace DeclKind

def enumerations : DeclKind → List (List DeclId)
  | type content => content.enumerations
  | variableOf content => content.enumerations
  | constant _ | parameter _ | enumLiteral _ | routine _ => []

def body? (kind : DeclKind) : Option BlockId :=
  kind.routine?.bind Routine.body

/-- Nothing is declared inside, and no name is bound. -/
structure Plain (kind : DeclKind) : Prop where
  inside_eq : kind.inside = []
  body?_eq : kind.body? = none
  enumerations_eq : kind.enumerations = []
  erased_eq : kind.erased = kind

end DeclKind

namespace Tree

def kind? (tree : Tree) (id : DeclId) : Option DeclKind :=
  tree.decls[id]?.map Decl.kind

/-- The parameters or the literals of the declaration with the given number. -/
def insideOf (tree : Tree) (id : DeclId) : List DeclId :=
  ((tree.kind? id).map DeclKind.inside).getD []

/-- A declaration holds its parameters or literals, and a routine what its body declares. -/
inductive Holds (tree : Tree) : DeclId → DeclId → Prop
  | inside {outer inner : DeclId} (h : inner ∈ tree.insideOf outer) : Holds tree outer inner
  | body {outer inner : DeclId} {body : BlockId} (hbody : tree.bodyOf? outer = some body)
      (h : inner ∈ tree.declarationsOf body) : Holds tree outer inner

/-- The enumerations number their literals from zero on. -/
def Coded (tree : Tree) (enumerations : List (List DeclId)) : Prop :=
  ∀ literals ∈ enumerations,
    literals.map tree.kind? = (List.range literals.length).map fun code => some (.enumLiteral code)

/-- A declaration as numbering leaves it: not annotated, after all that it holds, and with
its enumerations numbered. -/
structure Fits (tree : Tree) (id : DeclId) (decl : Decl) : Prop where
  decl_eq : tree.decls[id]? = some decl
  erased_eq : decl.erased = decl
  above : ∀ inner, tree.Holds id inner → inner < id
  coded : tree.Coded decl.kind.enumerations

end Tree

/-! ### Walks -/

/-- What a walk comes to: a block, or the end of a declaration. -/
inductive Visit
  | block (id : BlockId)
  | decl (id : DeclId)
  deriving DecidableEq, Repr

namespace Visit

def block? : Visit → Option BlockId
  | block id => some id
  | decl _ => none

def decl? : Visit → Option DeclId
  | block _ => none
  | decl id => some id

end Visit

namespace Tree

/-- A walk through a declaration, given the walks through blocks. -/
def visitsOf (tree : Tree) (inner : BlockId → List Visit) (id : DeclId) : List Visit :=
  (tree.insideOf id).map .decl ++ (tree.bodyOf? id).toList.flatMap inner ++ [.decl id]

/-- A walk through a block, with at most the given number of blocks inside each other. -/
def walkWithin (tree : Tree) : Nat → BlockId → List Visit
  | 0, _ => []
  | depth + 1, id =>
    .block id :: (tree.declarationsOf id).flatMap (tree.visitsOf (tree.walkWithin depth))

/-- Between two arenas a walk comes to all that is new, in the order of the numbers, and
the declarations among it are as numbering leaves them. -/
structure Spans (tree : Tree) (before after : Arena) (walk : List Visit) : Prop where
  blocks_size : before.blocks.size ≤ after.blocks.size
  decls_size : before.decls.size ≤ after.decls.size
  blocks : walk.filterMap Visit.block? =
    List.range' before.blocks.size (after.blocks.size - before.blocks.size)
  decls : walk.filterMap Visit.decl? =
    List.range' before.decls.size (after.decls.size - before.decls.size)
  fits : ∀ id, before.decls.size ≤ id → id < after.decls.size → ∃ decl, tree.Fits id decl

namespace Spans

variable {tree : Tree} {before middle after : Arena} {walk walk' : List Visit}

theorem refl (arena : Arena) : tree.Spans arena arena [] where
  blocks_size := Nat.le_refl _
  decls_size := Nat.le_refl _
  blocks := by rw [Nat.sub_self]; rfl
  decls := by rw [Nat.sub_self]; rfl
  fits _ hlow hhigh := absurd hhigh (Nat.not_lt.mpr hlow)

theorem trans (first : tree.Spans before middle walk) (second : tree.Spans middle after walk') :
    tree.Spans before after (walk ++ walk') where
  blocks_size := Nat.le_trans first.blocks_size second.blocks_size
  decls_size := Nat.le_trans first.decls_size second.decls_size
  blocks := by
    rw [List.filterMap_append, first.blocks, second.blocks,
      range'_split first.blocks_size second.blocks_size]
  decls := by
    rw [List.filterMap_append, first.decls, second.decls,
      range'_split first.decls_size second.decls_size]
  fits id hlow hhigh := by
    by_cases hid : id < middle.decls.size
    · exact first.fits id hlow hid
    · exact second.fits id (Nat.not_lt.mp hid) hhigh

theorem addDecl {decl : Decl} (h : tree.Fits before.decls.size decl) :
    tree.Spans before (Arena.addDecl decl before).2 [.decl before.decls.size] where
  blocks_size := Nat.le_refl _
  decls_size := by simp [Arena.addDecl]
  blocks := by
    change [] = List.range' before.blocks.size (before.blocks.size - before.blocks.size)
    rw [Nat.sub_self, List.range'_zero]
  decls := by
    change [before.decls.size] = _
    simp [Arena.addDecl]
  fits id hlow hhigh := by
    have hid : id = before.decls.size := by
      simp only [Arena.addDecl, Array.size_push] at hhigh
      omega
    exact ⟨decl, hid ▸ h⟩

/-- A block is met before all that is inside it. -/
theorem block {bare : Block} {change : Block → Block}
    (inside : tree.Spans (Arena.addBlock bare before).2 after walk) :
    tree.Spans before { after with blocks := after.blocks.modify before.blocks.size change }
      (.block before.blocks.size :: walk) := by
  have hsize : (Arena.addBlock bare before).2.blocks.size = before.blocks.size + 1 :=
    Array.size_push bare
  have hblocks := inside.blocks_size
  rw [hsize] at hblocks
  constructor
  case blocks_size =>
    rw [Array.size_modify]
    omega
  case decls_size => exact inside.decls_size
  case blocks =>
    have hinside := inside.blocks
    rw [hsize] at hinside
    rw [Array.size_modify, ← range'_split (Nat.le_add_right before.blocks.size 1) hblocks,
      Nat.add_sub_cancel_left, ← hinside]
    rfl
  case decls => exact inside.decls
  case fits => exact inside.fits

end Spans

/-! ### Declarations as numbering leaves them -/

variable {tree : Tree} {id : DeclId} {decl : Decl}

theorem kind?_eq (h : tree.decls[id]? = some decl) : tree.kind? id = some decl.kind := by
  rw [kind?, h, Option.map_some]

theorem insideOf_eq (h : tree.decls[id]? = some decl) : tree.insideOf id = decl.kind.inside := by
  rw [insideOf, kind?_eq h]
  rfl

theorem bodyOf?_eq (h : tree.decls[id]? = some decl) : tree.bodyOf? id = decl.kind.body? := by
  rw [bodyOf?, h]
  rfl

theorem declarationsOf_eq {id : BlockId} {block : Block} (h : tree.blocks[id]? = some block) :
    tree.declarationsOf id = block.declarations := by
  rw [declarationsOf, h]
  rfl

/-- A declaration without a body comes after what is inside it. -/
theorem fits_of_body?_eq_none {name : String} {line : Nat} {kind : DeclKind}
    (h : tree.decls[id]? = some (.bare name line kind)) (herased : kind.erased = kind)
    (hbody : kind.body? = none) (hinside : ∀ inner ∈ kind.inside, inner < id)
    (hcoded : tree.Coded kind.enumerations) : tree.Fits id (.bare name line kind) where
  decl_eq := h
  erased_eq := congrArg (Decl.bare name line) herased
  above inner hholds := by
    cases hholds with
    | inside hmem =>
        rw [insideOf_eq h] at hmem
        exact hinside inner hmem
    | body hsome =>
        rw [bodyOf?_eq h] at hsome
        exact absurd (hbody.symm.trans hsome) nofun
  coded := hcoded

theorem fits_plain {name : String} {line : Nat} {kind : DeclKind} (plain : kind.Plain)
    (h : tree.decls[id]? = some (.bare name line kind)) :
    tree.Fits id (.bare name line kind) := by
  apply fits_of_body?_eq_none h plain.erased_eq plain.body?_eq
  · rw [plain.inside_eq]
    exact fun _ hmem => absurd hmem List.not_mem_nil
  · rw [plain.enumerations_eq]
    exact fun _ hmem => absurd hmem List.not_mem_nil

/-- A walk through a declaration with nothing inside it comes to the declaration alone. -/
theorem visitsOf_plain {name : String} {line : Nat} {kind : DeclKind} (plain : kind.Plain)
    (h : tree.decls[id]? = some (.bare name line kind)) (inner : BlockId → List Visit) :
    tree.visitsOf inner id = [.decl id] := by
  rw [visitsOf, insideOf_eq h, bodyOf?_eq h]
  change kind.inside.map _ ++ kind.body?.toList.flatMap inner ++ _ = _
  rw [plain.inside_eq, plain.body?_eq]
  rfl

end Tree

/-! ### Numbering -/

namespace Outline

variable {tree : Tree}

private theorem plain_constant {value : Constant} (h : value.erased = value) :
    (DeclKind.constant value).Plain :=
  ⟨rfl, rfl, rfl, congrArg DeclKind.constant h⟩

private theorem plain_parameter {ref : NameRef} (h : ref.erased = ref) :
    (DeclKind.parameter ref).Plain :=
  ⟨rfl, rfl, rfl, congrArg DeclKind.parameter h⟩

private theorem plain_enumLiteral (code : Int) : (DeclKind.enumLiteral code).Plain :=
  ⟨rfl, rfl, rfl, rfl⟩

/-- Literals have consecutive codes. -/
theorem numberLiterals_spans (code : Nat) (idents : List Ident) (before : Arena)
    (h : tree.Agrees before (numberLiterals code idents before).2) :
    tree.Spans before (numberLiterals code idents before).2
        ((numberLiterals code idents before).1.map .decl) ∧
      (numberLiterals code idents before).1.map tree.kind? =
        (List.range' code (numberLiterals code idents before).1.length).map
          fun code => some (.enumLiteral code) := by
  induction idents generalizing code before with
  | nil => exact ⟨.refl before, rfl⟩
  | cons ident others ih =>
      obtain ⟨_, _, _, fills⟩ := numberLiterals_fills (code + 1) others
        (Arena.addDecl (.bare ident.name ident.line (.enumLiteral code)) before).2
      have hdecl := (h.first fills).decl
      obtain ⟨spans, hcodes⟩ := ih (code + 1) _ (h.second (.addDecl before _))
      constructor
      · exact (Tree.Spans.addDecl (Tree.fits_plain (plain_enumLiteral code) hdecl)).trans spans
      · change tree.kind? before.decls.size :: List.map tree.kind? _ = _
        rw [Tree.kind?_eq hdecl, hcodes]
        rfl

/-- The literals of a type are numbered enumeration by enumeration. -/
theorem numberType_spans (type : TypeExpr Ident) (before : Arena)
    (h : tree.Agrees before (numberType type before).2) :
    tree.Spans before (numberType type before).2 ((numberType type before).1.literals.map .decl) ∧
      tree.Coded (numberType type before).1.enumerations := by
  induction type generalizing before with
  | named | range | builtin => exact ⟨.refl before, fun _ hmem => absurd hmem List.not_mem_nil⟩
  | array index element line ihIndex ihElement =>
      obtain ⟨_, _, _, _, fillsIndex⟩ := numberType_fills index before
      obtain ⟨_, _, _, _, fillsElement⟩ := numberType_fills element (numberType index before).2
      obtain ⟨spansIndex, codedIndex⟩ := ihIndex before (h.first fillsElement)
      obtain ⟨spansElement, codedElement⟩ := ihElement _ (h.second fillsIndex)
      constructor
      · have hliterals : (numberType (.array index element line) before).1.literals =
            (numberType index before).1.literals ++
              (numberType element (numberType index before).2).1.literals := rfl
        rw [hliterals, List.map_append]
        exact spansIndex.trans spansElement
      · intro literals hmem
        exact (List.mem_append.mp hmem).elim (codedIndex literals) (codedElement literals)
  | enumeration idents line =>
      obtain ⟨spans, hcodes⟩ := numberLiterals_spans 0 idents before h
      refine ⟨spans, ?_⟩
      intro literals hmem
      rw [List.mem_singleton.mp hmem, List.range_eq_range']
      exact hcodes

theorem numberType_erased {type : TypeExpr Ident} (h : type.erased = type) (before : Arena) :
    (numberType type before).1.erased = (numberType type before).1 := by
  induction type generalizing before with
  | named ref => exact congrArg TypeExpr.named (TypeExpr.named.inj h)
  | array index element line ihIndex ihElement =>
      obtain ⟨hindex, helement, -⟩ := TypeExpr.array.inj h
      exact congrArg₂ (TypeExpr.array · · line) (ihIndex hindex before) (ihElement helement _)
  | enumeration => rfl
  | range low high line =>
      obtain ⟨hlow, hhigh, -⟩ := TypeExpr.range.inj h
      exact congrArg₂ (TypeExpr.range · · line) hlow hhigh
  | builtin => rfl

theorem numberAll_spans {α : Type} {kind : α → DeclKind} (inner : BlockId → List Visit)
    (decls : List (Ident × α)) (hplain : ∀ decl ∈ decls, (kind decl.2).Plain) (before : Arena)
    (h : tree.Agrees before (numberAll kind decls before).2) :
    tree.Spans before (numberAll kind decls before).2
        ((numberAll kind decls before).1.flatMap (tree.visitsOf inner)) ∧
      (numberAll kind decls before).1.flatMap (tree.visitsOf inner) =
        (numberAll kind decls before).1.map .decl := by
  induction decls generalizing before with
  | nil => exact ⟨.refl before, rfl⟩
  | cons source others ih =>
      obtain ⟨ident, content⟩ := source
      obtain ⟨hfirst, hothers⟩ := List.forall_mem_cons.mp hplain
      obtain ⟨_, _, _, fills⟩ := numberAll_fills kind others
        (Arena.addDecl (.bare ident.name ident.line (kind content)) before).2
      have hdecl := (h.first fills).decl
      have hvisits := Tree.visitsOf_plain hfirst hdecl inner
      obtain ⟨spans, hwalk⟩ := ih hothers _ (h.second (.addDecl before _))
      have hids : (numberAll kind ((ident, content) :: others) before).1 =
          before.decls.size :: (numberAll kind others
            (Arena.addDecl (.bare ident.name ident.line (kind content)) before).2).1 := rfl
      rw [hids, List.flatMap_cons, hvisits, List.map_cons]
      exact ⟨(Tree.Spans.addDecl (Tree.fits_plain hfirst hdecl)).trans spans,
        congrArg (_ :: ·) hwalk⟩

/-- A type or a variable is numbered after the literals of its type. -/
theorem numberTyped_spans (kind : TypeExpr DeclId → DeclKind) (inner : BlockId → List Visit)
    (hinside : ∀ type, (kind type).inside = type.literals)
    (hbody : ∀ type, (kind type).body? = none)
    (henumerations : ∀ type, (kind type).enumerations = type.enumerations)
    (herased : ∀ type, type.erased = type → (kind type).erased = kind type)
    (decls : List (Ident × TypeExpr Ident)) (hunbound : ∀ decl ∈ decls, decl.2.erased = decl.2)
    (before : Arena) (h : tree.Agrees before (numberTyped kind decls before).2) :
    tree.Spans before (numberTyped kind decls before).2
      ((numberTyped kind decls before).1.flatMap (tree.visitsOf inner)) := by
  induction decls generalizing before with
  | nil => exact .refl before
  | cons source others ih =>
      obtain ⟨ident, type⟩ := source
      obtain ⟨hfirst, hothers⟩ := List.forall_mem_cons.mp hunbound
      obtain ⟨literals, hliterals, _, _, fillsType⟩ := numberType_fills type before
      obtain ⟨_, _, _, fills⟩ := numberTyped_fills kind others (Arena.addDecl
        (.bare ident.name ident.line (kind (numberType type before).1))
        (numberType type before).2).2
      have own := h.second fillsType
      have hdecl := (own.first fills).decl
      obtain ⟨spansType, coded⟩ := numberType_spans type before
        ((h.first fills).first (Arena.Fills.addDecl _ _))
      have spans := ih hothers _ (own.second (Arena.Fills.addDecl _ _))
      have hids : (numberTyped kind ((ident, type) :: others) before).1 =
          (numberType type before).2.decls.size :: (numberTyped kind others (Arena.addDecl
            (.bare ident.name ident.line (kind (numberType type before).1))
            (numberType type before).2).2).1 := rfl
      have hmembers : tree.insideOf (numberType type before).2.decls.size =
          (numberType type before).1.literals :=
        (Tree.insideOf_eq hdecl).trans (hinside _)
      have hnone : tree.bodyOf? (numberType type before).2.decls.size = none :=
        (Tree.bodyOf?_eq hdecl).trans (hbody _)
      have hbelow : ∀ literal ∈ (numberType type before).1.literals,
          literal < (numberType type before).2.decls.size := by
        rw [hliterals]
        intro literal hmem
        obtain ⟨x, hx, rfl⟩ := List.mem_map.mp hmem
        exact (Array.getElem?_eq_some_iff.mp (fillsType.decls_new x hx).2).1
      have fits := Tree.fits_of_body?_eq_none hdecl (herased _ (numberType_erased hfirst before))
        (hbody _) ((hinside _).symm ▸ hbelow) ((henumerations _).symm ▸ coded)
      rw [hids, List.flatMap_cons, Tree.visitsOf, hmembers, hnone, Option.toList_none,
        List.flatMap_nil, List.append_nil]
      exact (spansType.trans (.addDecl fits)).trans spans

/-- A routine comes after its parameters and after what its body declares. -/
theorem fits_routine {id : DeclId} {heading : Heading} {params : List DeclId} {body : BlockId}
    {block : MiniPascal.Block} (hresult : heading.result.map NameRef.erased = heading.result)
    (hdecl : tree.decls[id]? = some (heading.decl params body))
    (hblock : tree.blocks[body]? = some block) (hparams : ∀ param ∈ params, param < id)
    (hdeclarations : ∀ inner ∈ block.declarations, inner < id) :
    tree.Fits id (heading.decl params body) where
  decl_eq := hdecl
  erased_eq := congrArg (fun result => Decl.bare heading.name heading.line
    (.routine { result, params := _, body := _ })) hresult
  above inner hholds := by
    cases hholds with
    | inside hmem =>
        rw [Tree.insideOf_eq hdecl] at hmem
        exact hparams inner hmem
    | body hsome hmem =>
        rw [Tree.bodyOf?_eq hdecl] at hsome
        obtain rfl := Option.some.inj hsome
        rw [Tree.declarationsOf_eq hblock] at hmem
        exact hdeclarations inner hmem
  coded _ hmem := absurd hmem List.not_mem_nil

/-- A numbered block is where its number says. -/
theorem NumbersBlock.placed {enclosing id : BlockId} {outline : Block} {before after : Arena}
    {entries : List DeclEntry} {block : MiniPascal.Block} {inner : List Skeleton}
    (hbody : NumbersBlock enclosing outline before after id entries block inner)
    (h : tree.Agrees before after) : tree.blocks[id]? = some block := by
  obtain ⟨hlow, hfound⟩ := hbody.fills.blocks_new _ List.mem_cons_self
  rw [h.blocks _ hlow (Array.getElem?_eq_some_iff.mp hfound).1]
  exact hfound

/-- What a numbered block declares is in the arena after it. -/
theorem NumbersBlock.declarations_lt {enclosing id : BlockId} {outline : Block}
    {before after : Arena} {entries : List DeclEntry} {block : MiniPascal.Block}
    {inner : List Skeleton}
    (hbody : NumbersBlock enclosing outline before after id entries block inner) :
    ∀ decl ∈ block.declarations, decl < after.decls.size := by
  rw [MiniPascal.Block.declarations, hbody.parts.declarations_eq]
  intro decl hmem
  obtain ⟨entry, hentry, rfl⟩ := List.mem_map.mp hmem
  have hdeclared : entry.declared ∈ declaredIn entries inner :=
    List.mem_append_left _ (List.mem_flatMap.mpr ⟨entry, hentry, List.mem_cons_self⟩)
  exact (Array.getElem?_eq_some_iff.mp (hbody.fills.decls_new _ hdeclared).2).1

mutual

theorem numberBlock_spans (enclosing : BlockId) (outline : Block) (hunbound : outline.Unbound)
    (before : Arena) (depth : Nat)
    (h : tree.Agrees before (numberBlock enclosing outline before).2)
    (hdepth : (numberBlock enclosing outline before).2.blocks.size ≤ depth + before.blocks.size) :
    tree.Spans before (numberBlock enclosing outline before).2
      (tree.walkWithin depth (numberBlock enclosing outline before).1) := by
  cases outline with
  | mk line parts statements =>
      obtain ⟨opened, rfl, hsize, hplaced, hinside, hgrown, hblocks⟩ := numberBlock_agrees h
      rw [hblocks] at hdepth
      obtain ⟨depth, rfl⟩ : ∃ inner, depth = inner + 1 := ⟨depth - 1, by omega⟩
      have spans := numberParts_spans before.blocks.size parts hunbound.1 _ depth
        (hsize ▸ Nat.lt_succ_self _) hinside (by omega)
      change tree.Spans before _ (tree.walkWithin (depth + 1) before.blocks.size)
      rw [Tree.walkWithin, Tree.declarationsOf_eq hplaced]
      exact spans.block

theorem numberParts_spans (block : BlockId) (parts : List Part) (hunbound : PartsUnbound parts)
    (before : Arena) (depth : Nat) (hblock : block < before.blocks.size)
    (h : tree.Agrees before (numberParts block parts before).2)
    (hdepth : (numberParts block parts before).2.blocks.size ≤ depth + before.blocks.size) :
    tree.Spans before (numberParts block parts before).2
      (((numberParts block parts before).1.flatMap DeclPart.decls).flatMap
        (tree.visitsOf (tree.walkWithin depth))) := by
  cases parts with
  | nil => exact .refl before
  | cons part others =>
      obtain ⟨middle, rfl, hfirst, hsecond, agrees, agrees'⟩ := numberParts_agrees hblock h
      change (numberParts block others (numberPart block part before).2).2.blocks.size ≤
        depth + before.blocks.size at hdepth
      have first := numberPart_spans block part hunbound.1 before depth agrees (by omega)
      have second := numberParts_spans block others hunbound.2 _ depth
        (Nat.lt_of_lt_of_le hblock hfirst) agrees' (by omega)
      have hparts : (numberParts block (part :: others) before).1 =
          (numberPart block part before).1 ::
            (numberParts block others (numberPart block part before).2).1 := rfl
      rw [hparts, List.flatMap_cons, List.flatMap_append]
      exact first.trans second

theorem numberPart_spans (block : BlockId) (part : Part) (hunbound : part.Unbound)
    (before : Arena) (depth : Nat) (h : tree.Agrees before (numberPart block part before).2)
    (hdepth : (numberPart block part before).2.blocks.size ≤ depth + before.blocks.size) :
    tree.Spans before (numberPart block part before).2
      ((numberPart block part before).1.decls.flatMap
        (tree.visitsOf (tree.walkWithin depth))) := by
  cases part with
  | constants decls =>
      exact (numberAll_spans (tree.walkWithin depth) decls
        (fun decl hdecl => plain_constant (hunbound decl hdecl)) before h).1
  | types decls =>
      exact numberTyped_spans .type (tree.walkWithin depth) (fun _ => rfl) (fun _ => rfl)
        (fun _ => rfl) (fun _ h => congrArg DeclKind.type h) decls hunbound before h
  | vars decls =>
      exact numberTyped_spans .variableOf (tree.walkWithin depth) (fun _ => rfl) (fun _ => rfl)
        (fun _ => rfl) (fun _ h => congrArg DeclKind.variableOf h) decls hunbound before h
  | routine heading body =>
      obtain ⟨hparamsUnbound, hresult, hbodyUnbound⟩ := hunbound
      obtain ⟨params, hparamIds, _, fillsParams⟩ := numberAll_fills .parameter heading.params before
      obtain ⟨entries, blockInside, inside, hbody⟩ := numberBlock_fills block body
        (numberAll .parameter heading.params before).2
      have hsizeParams := fillsParams.blocks_size
      have hagrees := h.first (Arena.Fills.addDecl _ _)
      obtain ⟨spansParams, hvisits⟩ := numberAll_spans (tree.walkWithin depth)
        heading.params (fun param hparam => plain_parameter (hparamsUnbound param hparam)) before
        (hagrees.first hbody.fills)
      have spansBody := numberBlock_spans block body hbodyUnbound _ depth
        (hagrees.second fillsParams) (Nat.le_trans hdepth (by omega))
      have hdecl := (h.second (fillsParams.trans hbody.fills)).decl
      have hplaced := hbody.placed (hagrees.second fillsParams)
      obtain ⟨middle, hmiddle⟩ : ∃ middle, numberBlock block body
          (numberAll .parameter heading.params before).2 = middle := ⟨_, rfl⟩
      rw [hmiddle] at hbody spansBody hdecl hplaced
      have hafter : numberPart block (.routine heading body) before =
          (.routine middle.2.decls.size, (Arena.addDecl (heading.decl
            (numberAll .parameter heading.params before).1 middle.1) middle.2).2) := by
        rw [← hmiddle]
        rfl
      have hmembers : tree.insideOf middle.2.decls.size =
          (numberAll .parameter heading.params before).1 := Tree.insideOf_eq hdecl
      have hsome : tree.bodyOf? middle.2.decls.size = some middle.1 := Tree.bodyOf?_eq hdecl
      -- parameters and body are numbered before the routine itself
      have hparams : ∀ param ∈ (numberAll .parameter heading.params before).1,
          param < middle.2.decls.size := by
        rw [hparamIds]
        intro param hmem
        obtain ⟨x, hx, rfl⟩ := List.mem_map.mp hmem
        have hfound := (fillsParams.decls_new x hx).2
        exact Nat.lt_of_lt_of_le (Array.getElem?_eq_some_iff.mp hfound).1 hbody.fills.decls_size
      have fits := fits_routine hresult hdecl hplaced hparams hbody.declarations_lt
      rw [hafter, DeclPart.decls, List.flatMap_singleton, Tree.visitsOf, hmembers, hsome,
        Option.toList_some, List.flatMap_singleton, ← hvisits]
      exact (spansParams.trans spansBody).trans (.addDecl fits)

end

/-- A walk through the body of a program comes to all blocks but the library's and to all
declarations, in the order of their numbers. -/
theorem spans_ofOutline (outline : Outline) (hunbound : outline.body.Unbound) {depth : Nat}
    (hdepth : (Tree.ofOutline outline).blocks.size ≤ depth) :
    (Tree.ofOutline outline).Spans Arena.initial
      (numberBlock libraryBlock outline.body Arena.initial).2
      ((Tree.ofOutline outline).walkWithin depth (Tree.ofOutline outline).body) :=
  numberBlock_spans libraryBlock outline.body hunbound Arena.initial depth
    (agrees_ofOutline outline) (Nat.le_add_right_of_le hdepth)

end Outline

end MiniPascal
