import MiniPascal.Proofs.Tree.Skeleton
import MiniPascal.Tree.Number
import Mathlib.Data.List.Nodup
import Mathlib.Data.List.Perm.Basic

/-!
# Numbering gives a skeleton

Numbering an outline puts every block and every declaration at a place of its
own in the arena, where it stays.  The tree of an outline therefore holds a
well-formed skeleton whose numbers are all different, and nothing in it is
annotated yet.
-/

namespace MiniPascal

/-! ### Places in the arena -/

/-- Between two arenas, blocks and declarations were put at new places, each at
one of its own, and what was there before stayed. -/
structure Arena.Fills (before after : Arena) (declared : List Numbered)
    (blocks : List (BlockId × Block)) : Prop where
  blocks_size : before.blocks.size ≤ after.blocks.size
  decls_size : before.decls.size ≤ after.decls.size
  blocks_kept : ∀ id < before.blocks.size, after.blocks[id]? = before.blocks[id]?
  decls_kept : ∀ id < before.decls.size, after.decls[id]? = before.decls[id]?
  decls_new : ∀ x ∈ declared, before.decls.size ≤ x.id ∧ after.decls[x.id]? = some x.decl
  decls_nodup : (declared.map Numbered.id).Nodup
  decls_all : ∀ id, before.decls.size ≤ id → id < after.decls.size →
    id ∈ declared.map Numbered.id
  blocks_new : ∀ x ∈ blocks, before.blocks.size ≤ x.1 ∧ after.blocks[x.1]? = some x.2
  blocks_nodup : (blocks.map Prod.fst).Nodup
  blocks_all : ∀ id, before.blocks.size ≤ id → id < after.blocks.size → id ∈ blocks.map Prod.fst

namespace Arena.Fills

variable {before middle after : Arena} {declared declared' : List Numbered}
variable {blocks blocks' : List (BlockId × Block)}

theorem refl (arena : Arena) : Fills arena arena [] [] where
  blocks_size := Nat.le_refl _
  decls_size := Nat.le_refl _
  blocks_kept _ _ := rfl
  decls_kept _ _ := rfl
  decls_new _ h := absurd h List.not_mem_nil
  decls_nodup := List.nodup_nil
  decls_all _ hlow hhigh := absurd hhigh (Nat.not_lt.mpr hlow)
  blocks_new _ h := absurd h List.not_mem_nil
  blocks_nodup := List.nodup_nil
  blocks_all _ hlow hhigh := absurd hhigh (Nat.not_lt.mpr hlow)

private theorem id_lt_size {α : Type} {entries : Array α} {id : Nat} {entry : α}
    (h : entries[id]? = some entry) : id < entries.size :=
  (Array.getElem?_eq_some_iff.mp h).1

/-- What is put at new places first keeps clear of what follows. -/
theorem trans (first : Fills before middle declared blocks)
    (second : Fills middle after declared' blocks') :
    Fills before after (declared ++ declared') (blocks ++ blocks') where
  blocks_size := Nat.le_trans first.blocks_size second.blocks_size
  decls_size := Nat.le_trans first.decls_size second.decls_size
  blocks_kept id hid := by
    rw [second.blocks_kept id (Nat.lt_of_lt_of_le hid first.blocks_size), first.blocks_kept id hid]
  decls_kept id hid := by
    rw [second.decls_kept id (Nat.lt_of_lt_of_le hid first.decls_size), first.decls_kept id hid]
  decls_new x hx := by
    rcases List.mem_append.mp hx with hx | hx
    · obtain ⟨hlow, hfound⟩ := first.decls_new x hx
      exact ⟨hlow, by rw [second.decls_kept _ (id_lt_size hfound), hfound]⟩
    · obtain ⟨hlow, hfound⟩ := second.decls_new x hx
      exact ⟨Nat.le_trans first.decls_size hlow, hfound⟩
  decls_nodup := by
    rw [List.map_append, List.nodup_append']
    refine ⟨first.decls_nodup, second.decls_nodup, ?_⟩
    intro id hfirst hsecond
    obtain ⟨x, hx, rfl⟩ := List.mem_map.mp hfirst
    obtain ⟨y, hy, heq⟩ := List.mem_map.mp hsecond
    have hlow := (second.decls_new y hy).1
    rw [heq] at hlow
    exact absurd (id_lt_size (first.decls_new x hx).2) (Nat.not_lt.mpr hlow)
  decls_all id hlow hhigh := by
    rw [List.map_append, List.mem_append]
    by_cases hid : id < middle.decls.size
    · exact .inl (first.decls_all id hlow hid)
    · exact .inr (second.decls_all id (Nat.not_lt.mp hid) hhigh)
  blocks_new x hx := by
    rcases List.mem_append.mp hx with hx | hx
    · obtain ⟨hlow, hfound⟩ := first.blocks_new x hx
      exact ⟨hlow, by rw [second.blocks_kept _ (id_lt_size hfound), hfound]⟩
    · obtain ⟨hlow, hfound⟩ := second.blocks_new x hx
      exact ⟨Nat.le_trans first.blocks_size hlow, hfound⟩
  blocks_nodup := by
    rw [List.map_append, List.nodup_append']
    refine ⟨first.blocks_nodup, second.blocks_nodup, ?_⟩
    intro id hfirst hsecond
    obtain ⟨x, hx, rfl⟩ := List.mem_map.mp hfirst
    obtain ⟨y, hy, heq⟩ := List.mem_map.mp hsecond
    have hlow := (second.blocks_new y hy).1
    rw [heq] at hlow
    exact absurd (id_lt_size (first.blocks_new x hx).2) (Nat.not_lt.mpr hlow)
  blocks_all id hlow hhigh := by
    rw [List.map_append, List.mem_append]
    by_cases hid : id < middle.blocks.size
    · exact .inl (first.blocks_all id hlow hid)
    · exact .inr (second.blocks_all id (Nat.not_lt.mp hid) hhigh)

/-- The order of the lists does not matter. -/
theorem perm (fills : Fills before after declared blocks) (hdeclared : declared.Perm declared')
    (hblocks : blocks.Perm blocks') : Fills before after declared' blocks' where
  blocks_size := fills.blocks_size
  decls_size := fills.decls_size
  blocks_kept := fills.blocks_kept
  decls_kept := fills.decls_kept
  decls_new x hx := fills.decls_new x (hdeclared.mem_iff.mpr hx)
  decls_nodup := (hdeclared.map _).nodup_iff.mp fills.decls_nodup
  decls_all id hlow hhigh := (hdeclared.map _).mem_iff.mp (fills.decls_all id hlow hhigh)
  blocks_new x hx := fills.blocks_new x (hblocks.mem_iff.mpr hx)
  blocks_nodup := (hblocks.map _).nodup_iff.mp fills.blocks_nodup
  blocks_all id hlow hhigh := (hblocks.map _).mem_iff.mp (fills.blocks_all id hlow hhigh)

theorem addDecl (arena : Arena) (decl : Decl) :
    Fills arena (Arena.addDecl decl arena).2 [⟨arena.decls.size, decl⟩] [] where
  blocks_size := Nat.le_refl _
  decls_size := by simp [Arena.addDecl]
  blocks_kept _ _ := rfl
  decls_kept id hid := by
    simp only [Arena.addDecl]
    rw [Array.getElem?_push_lt hid, Array.getElem?_eq_getElem hid]
  decls_new x hx := by
    rw [List.mem_singleton] at hx
    subst hx
    exact ⟨Nat.le_refl _, Array.getElem?_push_size⟩
  decls_nodup := List.nodup_singleton _
  decls_all id hlow hhigh := by
    have heq : id = arena.decls.size := by
      simp only [Arena.addDecl, Array.size_push] at hhigh
      omega
    exact List.mem_singleton.mpr heq
  blocks_new _ h := absurd h List.not_mem_nil
  blocks_nodup := List.nodup_nil
  blocks_all _ hlow hhigh := absurd hhigh (Nat.not_lt.mpr hlow)

/-- A block is put in place before what is inside it, and filled in afterwards. -/
theorem block (arena : Arena) (bare filled : Block) {change : Block → Block}
    (hchange : change bare = filled)
    (inside : Fills (Arena.addBlock bare arena).2 after declared blocks) :
    Fills arena { after with blocks := after.blocks.modify arena.blocks.size change } declared
      ((arena.blocks.size, filled) :: blocks) := by
  have hsize : (Arena.addBlock bare arena).2.blocks.size = arena.blocks.size + 1 := by
    simp [Arena.addBlock]
  have hplaced : after.blocks[arena.blocks.size]? = some bare := by
    rw [inside.blocks_kept _ (by omega)]
    simp [Arena.addBlock]
  have hfresh : ∀ x ∈ blocks, arena.blocks.size + 1 ≤ x.1 := by
    intro x hx
    rw [← hsize]
    exact (inside.blocks_new x hx).1
  constructor
  case blocks_size =>
    have := inside.blocks_size
    simp only [Array.size_modify]
    omega
  case decls_size => exact inside.decls_size
  case blocks_kept =>
    intro id hid
    rw [Array.getElem?_modify, if_neg (by omega), inside.blocks_kept id (by omega)]
    simp only [Arena.addBlock]
    rw [Array.getElem?_push_lt hid, Array.getElem?_eq_getElem hid]
  case decls_kept => exact inside.decls_kept
  case decls_new => exact inside.decls_new
  case decls_nodup => exact inside.decls_nodup
  case decls_all => exact inside.decls_all
  case blocks_new =>
    intro x hx
    rcases List.mem_cons.mp hx with rfl | hx
    · refine ⟨Nat.le_refl _, ?_⟩
      rw [Array.getElem?_modify, if_pos rfl, hplaced, Option.map_some, hchange]
    · have hlow := hfresh x hx
      refine ⟨by omega, ?_⟩
      rw [Array.getElem?_modify, if_neg (by omega)]
      exact (inside.blocks_new x hx).2
  case blocks_nodup =>
    rw [List.map_cons, List.nodup_cons]
    refine ⟨?_, inside.blocks_nodup⟩
    intro hmem
    obtain ⟨x, hx, heq⟩ := List.mem_map.mp hmem
    have hlow := hfresh x hx
    rw [heq] at hlow
    omega
  case blocks_all =>
    intro id hlow hhigh
    rw [Array.size_modify] at hhigh
    rw [List.map_cons, List.mem_cons]
    by_cases hid : id = arena.blocks.size
    · exact .inl hid
    · exact .inr (inside.blocks_all id (by omega) hhigh)

end Arena.Fills

/-! ### Declarations -/

/-- The declarations of the enumeration literals anywhere inside a type. -/
def TypeExpr.literalDecls : TypeExpr Ident → List Decl
  | .enumeration literals _ =>
    literals.zipIdx.map fun (ident, code) => .bare ident.name ident.line (.enumLiteral code)
  | .array index element _ => index.literalDecls ++ element.literalDecls
  | .named _ | .range .. | .builtin _ => []

/-- An entry is that of a type or of a variable with its type. -/
def DeclEntry.Typed (kind : TypeExpr DeclId → DeclKind) (source : Ident × TypeExpr Ident)
    (entry : DeclEntry) : Prop :=
  ∃ type, entry.declared.decl = .bare source.1.name source.1.line (kind type) ∧
    type.literals = entry.literals.map Numbered.id ∧ type.uses = source.2.uses ∧
    entry.literals.map Numbered.decl = source.2.literalDecls

theorem TypeExpr.literalDecls_kind (type : TypeExpr Ident) :
    ∀ decl ∈ type.literalDecls, ∃ code, decl.kind = .enumLiteral code ∧
      decl = .bare decl.name decl.line decl.kind := by
  intro decl hdecl
  induction type with
  | enumeration literals line =>
      obtain ⟨⟨ident, code⟩, -, rfl⟩ := List.mem_map.mp hdecl
      exact ⟨code, rfl, rfl⟩
  | array index element line ihIndex ihElement =>
      exact (List.mem_append.mp hdecl).elim ihIndex ihElement
  | named | range | builtin => exact absurd hdecl List.not_mem_nil

/-- An entry as numbering leaves it: without annotations, with literals where its type
enumerates, and neither a literal nor a parameter itself. -/
structure DeclEntry.Fresh (entry : DeclEntry) : Prop where
  literals_eq : Check.literalsOf entry.declared.decl.kind = entry.literals.map Numbered.id
  literals_kind : ∀ x ∈ entry.literals, ∃ code, x.decl.kind = .enumLiteral code
  bare : ∀ x ∈ entry.all, x.decl = .bare x.decl.name x.decl.line x.decl.kind
  ne_literal : ∀ code, entry.declared.decl.kind ≠ .enumLiteral code
  ne_parameter : ∀ ref, entry.declared.decl.kind ≠ .parameter ref

/-- A typed entry has the literals of its type. -/
theorem DeclEntry.Typed.fresh {kind : TypeExpr DeclId → DeclKind}
    {source : Ident × TypeExpr Ident} {entry : DeclEntry} (h : DeclEntry.Typed kind source entry)
    (hliterals : ∀ type, Check.literalsOf (kind type) = type.literals)
    (hliteral : ∀ type code, kind type ≠ .enumLiteral code)
    (hparameter : ∀ type ref, kind type ≠ .parameter ref) : entry.Fresh := by
  obtain ⟨type, hdecl, hids, -, hdecls⟩ := h
  have hinside : ∀ x ∈ entry.literals, ∃ code, x.decl.kind = .enumLiteral code ∧
      x.decl = .bare x.decl.name x.decl.line x.decl.kind := fun x hx =>
    source.2.literalDecls_kind x.decl (hdecls ▸ List.mem_map_of_mem hx)
  have hkind : entry.declared.decl.kind = kind type := congrArg Decl.kind hdecl
  constructor
  case literals_eq => rw [hkind, hliterals type, hids]
  case literals_kind => exact fun x hx => (hinside x hx).imp fun _ h => h.1
  case bare =>
    rw [DeclEntry.all, List.forall_mem_cons, hdecl]
    exact ⟨rfl, fun x hx => (hinside x hx).elim fun _ h => h.2⟩
  case ne_literal => exact fun code => hkind ▸ hliteral type code
  case ne_parameter => exact fun ref => hkind ▸ hparameter type ref

namespace Outline

def Block.line : Block → Nat
  | .mk line _ _ => line

def Block.parts : Block → List Part
  | .mk _ parts _ => parts

def Block.statements : Block → List Statement
  | .mk _ _ statements => statements

/-- The declaration of a routine with numbered parameters and a numbered body. -/
def Heading.decl (heading : Heading) (params : List DeclId) (body : BlockId) : Decl :=
  .bare heading.name heading.line (.routine { result := heading.result, params, body })

/-- The entries of a declaration part. -/
def Part.Numbers : Part → List DeclEntry → Prop
  | .constants decls, entries =>
    List.Forall₂ (fun source entry => entry.literals = [] ∧
      entry.declared.decl = .bare source.1.name source.1.line (.constant source.2)) decls entries
  | .types decls, entries => List.Forall₂ (DeclEntry.Typed .type) decls entries
  | .vars decls, entries => List.Forall₂ (DeclEntry.Typed .variableOf) decls entries
  | .routine heading _, entries =>
    ∃ id params body, entries = [⟨⟨id, heading.decl params body⟩, []⟩]

theorem numberLiterals_fills (code : Nat) (idents : List Ident) (before : Arena) :
    ∃ literals : List Numbered,
      (numberLiterals code idents before).1 = literals.map Numbered.id ∧
      literals.map Numbered.decl = (idents.zipIdx code).map (fun (ident, code) =>
        Decl.bare ident.name ident.line (.enumLiteral code)) ∧
      before.Fills (numberLiterals code idents before).2 literals [] := by
  induction idents generalizing code before with
  | nil => exact ⟨[], rfl, rfl, .refl before⟩
  | cons ident others ih =>
      have first := Arena.Fills.addDecl before
        (.bare ident.name ident.line (.enumLiteral code))
      obtain ⟨literals, hids, hdecls, fills⟩ := ih (code + 1)
        (Arena.addDecl (.bare ident.name ident.line (.enumLiteral code)) before).2
      refine ⟨⟨before.decls.size, _⟩ :: literals, ?_, ?_, first.trans fills⟩
      · exact congrArg (before.decls.size :: ·) hids
      · exact congrArg (_ :: ·) hdecls

theorem numberType_fills (type : TypeExpr Ident) (before : Arena) :
    ∃ literals : List Numbered,
      (numberType type before).1.literals = literals.map Numbered.id ∧
      (numberType type before).1.uses = type.uses ∧
      literals.map Numbered.decl = type.literalDecls ∧
      before.Fills (numberType type before).2 literals [] := by
  induction type generalizing before with
  | named => exact ⟨[], rfl, rfl, rfl, .refl before⟩
  | array index element line ihIndex ihElement =>
      obtain ⟨first, hfirst, husesFirst, hdeclsFirst, fillsFirst⟩ := ihIndex before
      obtain ⟨second, hsecond, husesSecond, hdeclsSecond, fillsSecond⟩ :=
        ihElement (numberType index before).2
      refine ⟨first ++ second, ?_, ?_, ?_, fillsFirst.trans fillsSecond⟩
      · rw [List.map_append, ← hfirst, ← hsecond]
        rfl
      · rw [TypeExpr.uses, ← husesFirst, ← husesSecond]
        rfl
      · rw [List.map_append, hdeclsFirst, hdeclsSecond]
        rfl
  | enumeration idents line =>
      obtain ⟨literals, hids, hdecls, fills⟩ := numberLiterals_fills 0 idents before
      exact ⟨literals, hids, rfl, hdecls, fills⟩
  | range => exact ⟨[], rfl, rfl, rfl, .refl before⟩
  | builtin => exact ⟨[], rfl, rfl, rfl, .refl before⟩

theorem numberAll_fills {α : Type} (kind : α → DeclKind) (decls : List (Ident × α))
    (before : Arena) :
    ∃ numbered : List Numbered,
      (numberAll kind decls before).1 = numbered.map Numbered.id ∧
      List.Forall₂ (fun source (x : Numbered) =>
        x.decl = .bare source.1.name source.1.line (kind source.2)) decls numbered ∧
      before.Fills (numberAll kind decls before).2 numbered [] := by
  induction decls generalizing before with
  | nil => exact ⟨[], rfl, .nil, .refl before⟩
  | cons source others ih =>
      obtain ⟨ident, content⟩ := source
      have first := Arena.Fills.addDecl before (.bare ident.name ident.line (kind content))
      obtain ⟨numbered, hids, hdecls, fills⟩ := ih
        (Arena.addDecl (.bare ident.name ident.line (kind content)) before).2
      exact ⟨⟨before.decls.size, _⟩ :: numbered, congrArg (before.decls.size :: ·) hids,
        .cons rfl hdecls, first.trans fills⟩

theorem numberTyped_fills (kind : TypeExpr DeclId → DeclKind)
    (decls : List (Ident × TypeExpr Ident)) (before : Arena) :
    ∃ entries : List DeclEntry,
      (numberTyped kind decls before).1 = entries.map (·.declared.id) ∧
      List.Forall₂ (DeclEntry.Typed kind) decls entries ∧
      before.Fills (numberTyped kind decls before).2 (entries.flatMap DeclEntry.all) [] := by
  induction decls generalizing before with
  | nil => exact ⟨[], rfl, .nil, .refl before⟩
  | cons source others ih =>
      obtain ⟨ident, type⟩ := source
      obtain ⟨literals, hliterals, huses, hdecls, fillsType⟩ := numberType_fills type before
      have own := Arena.Fills.addDecl (numberType type before).2
        (.bare ident.name ident.line (kind (numberType type before).1))
      obtain ⟨entries, hids, htyped, fills⟩ := ih (Arena.addDecl
        (.bare ident.name ident.line (kind (numberType type before).1))
        (numberType type before).2).2
      refine ⟨⟨⟨(numberType type before).2.decls.size, _⟩, literals⟩ :: entries,
        congrArg (_ :: ·) hids, .cons ⟨_, rfl, hliterals, huses, hdecls⟩ htyped, ?_⟩
      -- the literals are numbered before the declaration they belong to
      exact ((fillsType.trans own).trans fills).perm
        ((List.perm_append_comm).append_right _) (.refl _)

/-! ### Blocks -/

/-- What numbering declaration parts of a block gave: their entries, and the
bodies of their routines. -/
structure NumbersParts (block : BlockId) (parts : List Part) (declParts : List DeclPart)
    (entries : List DeclEntry) (inner : List Skeleton) : Prop where
  groups : ∃ groups, List.Forall₂ Part.Numbers parts groups ∧ entries = groups.flatten
  declarations_eq : declParts.flatMap DeclPart.decls = entries.map (·.declared.id)
  bodies : List.Forall₂ (Skeleton.BodyOf block entries) inner
    (declParts.filterMap DeclPart.routine?)
  routines : ∀ entry ∈ entries, ∀ heading, entry.declared.decl.kind = .routine heading →
    entry.declared.id ∈ declParts.filterMap DeclPart.routine?
  inner_wellFormed : ∀ body ∈ inner, body.WellFormed

def placesOf (skeletons : List Skeleton) : List (BlockId × MiniPascal.Block) :=
  (Skeleton.nodesAll skeletons).map fun node => (node.id, node.block)

/-- All that the entries declare and all that is declared in the bodies. -/
def declaredIn (entries : List DeclEntry) (inner : List Skeleton) : List Numbered :=
  entries.flatMap DeclEntry.all ++ inner.flatMap Skeleton.declared

private theorem bodyOf_mono {block : BlockId} {entries entries' : List DeclEntry}
    (hsubset : entries ⊆ entries') {body : Skeleton} {routine : DeclId}
    (h : Skeleton.BodyOf block entries body routine) :
    Skeleton.BodyOf block entries' body routine := by
  obtain ⟨hroutine, henclosing, hlt, entry, hentry, hrest⟩ := h
  exact ⟨hroutine, henclosing, hlt, entry, hsubset hentry, hrest⟩

theorem NumbersParts.nil (block : BlockId) : NumbersParts block [] [] [] [] where
  groups := ⟨[], .nil, rfl⟩
  declarations_eq := rfl
  bodies := .nil
  routines _ h := absurd h List.not_mem_nil
  inner_wellFormed _ h := absurd h List.not_mem_nil

theorem NumbersParts.append {block : BlockId} {parts parts' : List Part}
    {declParts declParts' : List DeclPart} {entries entries' : List DeclEntry}
    {inner inner' : List Skeleton} (first : NumbersParts block parts declParts entries inner)
    (second : NumbersParts block parts' declParts' entries' inner') :
    NumbersParts block (parts ++ parts') (declParts ++ declParts') (entries ++ entries')
      (inner ++ inner') where
  groups := by
    obtain ⟨groups, hgroups, hentries⟩ := first.groups
    obtain ⟨groups', hgroups', hentries'⟩ := second.groups
    exact ⟨groups ++ groups', List.rel_append hgroups hgroups', by
      rw [hentries, hentries', List.flatten_append]⟩
  declarations_eq := by
    rw [List.flatMap_append, List.map_append, first.declarations_eq, second.declarations_eq]
  bodies := by
    rw [List.filterMap_append]
    exact List.rel_append
      (first.bodies.imp fun _ _ h => bodyOf_mono (List.subset_append_left _ _) h)
      (second.bodies.imp fun _ _ h => bodyOf_mono (List.subset_append_right _ _) h)
  routines entry hentry heading hkind := by
    rw [List.filterMap_append, List.mem_append]
    exact (List.mem_append.mp hentry).imp (first.routines entry · heading hkind)
      (second.routines entry · heading hkind)
  inner_wellFormed body hbody := (List.mem_append.mp hbody).elim
    (first.inner_wellFormed body) (second.inner_wellFormed body)

private theorem declaredIn_append_perm (entries entries' : List DeclEntry)
    (inner inner' : List Skeleton) :
    (declaredIn entries inner ++ declaredIn entries' inner').Perm
      (declaredIn (entries ++ entries') (inner ++ inner')) := by
  simp only [declaredIn, List.flatMap_append, List.append_assoc]
  refine List.Perm.append_left _ ?_
  rw [← List.append_assoc, ← List.append_assoc]
  exact List.perm_append_comm.append_right _

/-- A part without routines has nothing inside it. -/
private theorem numbersParts_of_simple {block : BlockId} {part : Part} {declPart : DeclPart}
    {entries : List DeclEntry} (hpart : part.Numbers entries)
    (hdecls : declPart.decls = entries.map (·.declared.id)) (hroutine : declPart.routine? = none)
    (hkinds : ∀ entry ∈ entries, ∀ heading, entry.declared.decl.kind ≠ .routine heading) :
    NumbersParts block [part] [declPart] entries [] where
  groups := ⟨[entries], .cons hpart .nil, by simp⟩
  declarations_eq := by simpa using hdecls
  bodies := by simp [hroutine]
  routines entry hentry heading hkind := absurd hkind (hkinds entry hentry heading)
  inner_wellFormed _ h := absurd h List.not_mem_nil

theorem Part.Numbers.fresh {part : Part} {entries : List DeclEntry} (h : part.Numbers entries) :
    ∀ entry ∈ entries, entry.Fresh := by
  intro entry hentry
  cases part with
  | constants decls =>
      obtain ⟨source, -, hliterals, hdecl⟩ := exists_of_forall₂_right h hentry
      have hkind := congrArg Decl.kind hdecl
      constructor
      case literals_eq =>
        rw [hkind, hliterals]
        rfl
      case literals_kind =>
        rw [hliterals]
        exact fun _ hx => absurd hx List.not_mem_nil
      case bare =>
        rw [DeclEntry.all, hliterals, List.forall_mem_singleton, hdecl]
        rfl
      case ne_literal =>
        rw [hkind]
        exact fun _ => nofun
      case ne_parameter =>
        rw [hkind]
        exact fun _ => nofun
  | types decls =>
      obtain ⟨source, -, typed⟩ := exists_of_forall₂_right h hentry
      exact typed.fresh (fun _ => rfl) (fun _ _ => nofun) (fun _ _ => nofun)
  | vars decls =>
      obtain ⟨source, -, typed⟩ := exists_of_forall₂_right h hentry
      exact typed.fresh (fun _ => rfl) (fun _ _ => nofun) (fun _ _ => nofun)
  | routine heading body =>
      obtain ⟨id, params, bodyId, rfl⟩ := h
      rw [List.mem_singleton] at hentry
      subst hentry
      exact ⟨rfl, fun _ hx => absurd hx List.not_mem_nil,
        fun _ hx => List.mem_singleton.mp hx ▸ rfl, fun _ => nofun, fun _ => nofun⟩

theorem NumbersParts.fresh {id : BlockId} {parts : List Part} {declParts : List DeclPart}
    {entries : List DeclEntry} {inner : List Skeleton}
    (h : NumbersParts id parts declParts entries inner) : ∀ entry ∈ entries, entry.Fresh := by
  intro entry hentry
  obtain ⟨groups, hgroups, rfl⟩ := h.groups
  obtain ⟨group, hgroup, hmem⟩ := List.mem_flatten.mp hentry
  obtain ⟨part, -, hpart⟩ := exists_of_forall₂_right hgroups hgroup
  exact hpart.fresh entry hmem

/-- A block whose parts were numbered fits its entries, whatever routine it is
the body of. -/
theorem NumbersParts.wellFormed {id : BlockId} {parts : List Part} {block : MiniPascal.Block}
    {entries : List DeclEntry} {inner : List Skeleton}
    (h : NumbersParts id parts block.parts entries inner)
    (hblock : block = { MiniPascal.Block.bare block.enclosing? block.line with
      parts := block.parts, statements := block.statements })
    (routine? : Option DeclId) (params : List Numbered)
    (hparams : ∀ x ∈ params, ∃ name line ref, x.decl = .bare name line (.parameter ref)) :
    Skeleton.WellFormed (.mk { id, routine?, params, entries, block } inner) := by
  refine .mk ?_ h.bodies h.routines h.inner_wellFormed
  constructor
  case block_bare => exact hblock
  case decl_bare =>
    intro x hx
    rcases List.mem_append.mp hx with hx | hx
    · obtain ⟨name, line, ref, hdecl⟩ := hparams x hx
      rw [hdecl]
      rfl
    · obtain ⟨entry, hentry, hx⟩ := List.mem_flatMap.mp hx
      exact (h.fresh entry hentry).bare x hx
  case declarations_eq => exact h.declarations_eq
  case params_kind =>
    intro x hx
    obtain ⟨name, line, ref, hdecl⟩ := hparams x hx
    exact ⟨ref, by rw [hdecl]; rfl⟩
  case literals_eq => exact fun entry hentry => (h.fresh entry hentry).literals_eq
  case literals_kind => exact fun entry hentry => (h.fresh entry hentry).literals_kind
  case entry_kind => exact fun entry hentry => (h.fresh entry hentry).ne_literal
  case entry_kind' => exact fun entry hentry => (h.fresh entry hentry).ne_parameter

/-- What numbering a block gave: its place, its entries and the bodies inside it. -/
structure NumbersBlock (enclosing : BlockId) (outline : Block) (before after : Arena)
    (id : BlockId) (entries : List DeclEntry) (block : MiniPascal.Block) (inner : List Skeleton) :
    Prop where
  id_eq : id = before.blocks.size
  parts : NumbersParts id outline.parts block.parts entries inner
  block_eq : block = { MiniPascal.Block.bare (some enclosing) outline.line with
    parts := block.parts, statements := outline.statements }
  fills : before.Fills after (declaredIn entries inner) ((id, block) :: placesOf inner)

theorem NumbersBlock.block_bare {enclosing id : BlockId} {outline : Block}
    {before after : Arena} {entries : List DeclEntry} {block : MiniPascal.Block}
    {inner : List Skeleton}
    (h : NumbersBlock enclosing outline before after id entries block inner) :
    block = { MiniPascal.Block.bare block.enclosing? block.line with
      parts := block.parts, statements := block.statements } := by
  rw [h.block_eq]
  rfl

/-! ### Declaration parts -/

theorem numberConstants_fills (block : BlockId) (decls : List (Ident × Constant))
    (before : Arena) :
    ∃ entries inner,
      NumbersParts block [.constants decls] [(numberPart block (.constants decls) before).1]
        entries inner ∧
      before.Fills (numberPart block (.constants decls) before).2 (declaredIn entries inner)
        (placesOf inner) := by
  obtain ⟨numbered, hids, hdecls, fills⟩ := numberAll_fills .constant decls before
  refine ⟨numbered.map (⟨·, []⟩), [], numbersParts_of_simple ?_ ?_ rfl ?_, ?_⟩
  · exact List.forall₂_map_right_iff.mpr (hdecls.imp fun _ _ h => ⟨rfl, h⟩)
  · rw [List.map_map]
    exact hids
  · intro entry hentry heading
    obtain ⟨x, hx, rfl⟩ := List.mem_map.mp hentry
    obtain ⟨source, -, hdecl⟩ := exists_of_forall₂_right hdecls hx
    rw [hdecl]
    nofun
  · refine fills.perm (.of_eq ?_) (.refl _)
    simp [declaredIn, List.flatMap_map, DeclEntry.all]

/-- The parts of types and of variables are numbered alike. -/
theorem numberTypedPart_fills (block : BlockId) {part : Part} {declPart : DeclPart}
    (kind : TypeExpr DeclId → DeclKind) (hkind : ∀ type heading, kind type ≠ .routine heading)
    {decls : List (Ident × TypeExpr Ident)} {before : Arena}
    (hpart : ∀ entries, List.Forall₂ (DeclEntry.Typed kind) decls entries → part.Numbers entries)
    (hdecls : declPart.decls = (numberTyped kind decls before).1)
    (hroutine : declPart.routine? = none) :
    ∃ entries inner, NumbersParts block [part] [declPart] entries inner ∧
      before.Fills (numberTyped kind decls before).2 (declaredIn entries inner)
        (placesOf inner) := by
  obtain ⟨entries, hids, htyped, fills⟩ := numberTyped_fills kind decls before
  refine ⟨entries, [], numbersParts_of_simple (hpart entries htyped) (hdecls.trans hids) hroutine
    ?_, fills.perm (.of_eq (List.append_nil _).symm) (.refl _)⟩
  intro entry hentry heading
  obtain ⟨source, -, type, hdecl, -⟩ := exists_of_forall₂_right htyped hentry
  rw [hdecl]
  exact hkind type heading

/-- A routine whose body was numbered is a part with that body inside. -/
theorem NumbersBlock.numbersParts {block body id : BlockId} {heading : Heading}
    {outline : Block} {before after : Arena} {params : List Numbered} {entries : List DeclEntry}
    {inside : MiniPascal.Block} {inner : List Skeleton}
    (hbody : NumbersBlock block outline before after body entries inside inner)
    (hblock : block < before.blocks.size)
    (hparams : ∀ x ∈ params, ∃ name line ref, x.decl = .bare name line (.parameter ref)) :
    NumbersParts block [.routine heading outline] [.routine id]
      [⟨⟨id, heading.decl (params.map Numbered.id) body⟩, []⟩]
      [.mk ⟨body, some id, params, entries, inside⟩ inner] where
  groups := ⟨[_], .cons ⟨_, _, _, rfl⟩ .nil, rfl⟩
  declarations_eq := rfl
  bodies := by
    refine .cons ⟨rfl, ?_, ?_, _, List.mem_singleton_self _, rfl, _, rfl⟩ .nil
    · exact congrArg MiniPascal.Block.enclosing? hbody.block_eq
    · change block < body
      rw [hbody.id_eq]
      exact hblock
  routines entry hentry _ _ := by
    rw [List.mem_singleton] at hentry
    subst hentry
    exact List.mem_singleton_self _
  inner_wellFormed skeleton hskeleton := by
    rw [List.mem_singleton] at hskeleton
    subst hskeleton
    exact hbody.parts.wellFormed hbody.block_bare _ params hparams

theorem numberRoutine_fills {block : BlockId} {heading : Heading} {body : Block} {before : Arena}
    (hblock : block < before.blocks.size) {entries : List DeclEntry}
    {inside : MiniPascal.Block} {inner : List Skeleton}
    (hbody : NumbersBlock block body (numberAll .parameter heading.params before).2
      (numberBlock block body (numberAll .parameter heading.params before).2).2
      (numberBlock block body (numberAll .parameter heading.params before).2).1
      entries inside inner) :
    ∃ entries inner,
      NumbersParts block [.routine heading body]
        [(numberPart block (.routine heading body) before).1] entries inner ∧
      before.Fills (numberPart block (.routine heading body) before).2
        (declaredIn entries inner) (placesOf inner) := by
  obtain ⟨params, hids, hparams, fillsParams⟩ := numberAll_fills .parameter heading.params before
  obtain ⟨middle, hmiddle⟩ : ∃ middle, numberBlock block body
      (numberAll .parameter heading.params before).2 = middle := ⟨_, rfl⟩
  have hafter : numberPart block (.routine heading body) before =
      (.routine middle.2.decls.size,
        (Arena.addDecl (heading.decl (params.map Numbered.id) middle.1) middle.2).2) := by
    rw [← hids, ← hmiddle]
    rfl
  have hparamsBare : ∀ x ∈ params, ∃ name line ref,
      x.decl = .bare name line (.parameter ref) := by
    intro x hx
    obtain ⟨source, -, hdecl⟩ := exists_of_forall₂_right hparams hx
    exact ⟨_, _, _, hdecl⟩
  rw [hmiddle] at hbody
  rw [hafter]
  refine ⟨_, _, hbody.numbersParts (Nat.lt_of_lt_of_le hblock fillsParams.blocks_size)
    hparamsBare, ?_⟩
  -- the parameters come first, then the body, and the routine itself last
  refine ((fillsParams.trans hbody.fills).trans (Arena.Fills.addDecl middle.2 _)).perm ?_ ?_
  · simp only [declaredIn, List.flatMap_singleton, Skeleton.declared_eq, DeclEntry.all,
      Node.declared, Skeleton.root, Skeleton.inner, List.append_assoc]
    simpa only [List.append_assoc, List.singleton_append] using List.perm_append_singleton _
      (params ++ (entries.flatMap DeclEntry.all ++ inner.flatMap Skeleton.declared))
  · simp [placesOf, Skeleton.nodesAll, Skeleton.nodes]

mutual

theorem numberBlock_fills (enclosing : BlockId) (outline : Block) (before : Arena) :
    ∃ entries block inner, NumbersBlock enclosing outline before
      (numberBlock enclosing outline before).2 (numberBlock enclosing outline before).1
      entries block inner := by
  cases outline with
  | mk line parts statements =>
      obtain ⟨entries, inner, hparts, fills⟩ := numberParts_fills before.blocks.size parts
        (Arena.addBlock (.bare (some enclosing) line) before).2 (by simp [Arena.addBlock])
      refine ⟨entries, { MiniPascal.Block.bare (some enclosing) line with
        parts := _, statements }, inner, rfl, hparts, rfl, ?_⟩
      exact Arena.Fills.block before (.bare (some enclosing) line) _ rfl fills

theorem numberParts_fills (block : BlockId) (parts : List Part) (before : Arena)
    (hblock : block < before.blocks.size) :
    ∃ entries inner, NumbersParts block parts (numberParts block parts before).1 entries inner ∧
      before.Fills (numberParts block parts before).2 (declaredIn entries inner)
        (placesOf inner) := by
  cases parts with
  | nil => exact ⟨[], [], .nil block, .refl before⟩
  | cons part others =>
      obtain ⟨entries, inner, hpart, fills⟩ := numberPart_fills block part before hblock
      obtain ⟨entries', inner', hothers, fills'⟩ := numberParts_fills block others
        (numberPart block part before).2 (Nat.lt_of_lt_of_le hblock fills.blocks_size)
      refine ⟨entries ++ entries', inner ++ inner', hpart.append hothers, ?_⟩
      refine (fills.trans fills').perm (declaredIn_append_perm _ _ _ _) ?_
      rw [placesOf, placesOf, placesOf, Skeleton.nodesAll_eq_flatMap, Skeleton.nodesAll_eq_flatMap,
        Skeleton.nodesAll_eq_flatMap, List.flatMap_append, List.map_append]

theorem numberPart_fills (block : BlockId) (part : Part) (before : Arena)
    (hblock : block < before.blocks.size) :
    ∃ entries inner,
      NumbersParts block [part] [(numberPart block part before).1] entries inner ∧
      before.Fills (numberPart block part before).2 (declaredIn entries inner)
        (placesOf inner) := by
  cases part with
  | constants decls => exact numberConstants_fills block decls before
  | types decls =>
      exact numberTypedPart_fills block .type (fun _ _ => nofun) (fun _ h => h) rfl rfl
  | vars decls =>
      exact numberTypedPart_fills block .variableOf (fun _ _ => nofun) (fun _ h => h) rfl rfl
  | routine heading body =>
      obtain ⟨entries, inside, inner, hbody⟩ := numberBlock_fills block body
        (numberAll .parameter heading.params before).2
      exact numberRoutine_fills hblock hbody

end

/-! ### The tree of an outline -/

/-- The skeleton is that of the tree of an outline: its numbers are all different,
and the tree holds exactly what the skeleton says. -/
structure HasSkeleton (outline : Outline) (skeleton : Skeleton) : Prop where
  wellFormed : skeleton.WellFormed
  declIds_nodup : skeleton.declIds.Nodup
  blockIds_nodup : skeleton.blockIds.Nodup
  id_eq : skeleton.id = (Tree.ofOutline outline).body
  program : skeleton.root.routine? = none
  params_eq : skeleton.root.params = []
  groups : ∃ groups, List.Forall₂ Part.Numbers outline.body.parts groups ∧
    skeleton.root.entries = groups.flatten
  block_eq : skeleton.root.block =
    { MiniPascal.Block.bare (some libraryBlock) outline.body.line with
    parts := skeleton.root.block.parts, statements := outline.body.statements }
  libraryBlock_lt : ∀ id ∈ skeleton.blockIds, libraryBlock < id
  library : (Tree.ofOutline outline).blocks[libraryBlock]? = some (.bare none libraryLine)
  block : ∀ node ∈ skeleton.nodes, (Tree.ofOutline outline).blocks[node.id]? = some node.block
  decl : ∀ x ∈ skeleton.declared, (Tree.ofOutline outline).decls[x.id]? = some x.decl
  block_mem : ∀ id < (Tree.ofOutline outline).blocks.size,
    id = libraryBlock ∨ id ∈ skeleton.blockIds
  decl_mem : ∀ id < (Tree.ofOutline outline).decls.size, id ∈ skeleton.declIds

/-- Every outline has a skeleton. -/
theorem exists_skeleton (outline : Outline) : ∃ skeleton, HasSkeleton outline skeleton := by
  obtain ⟨entries, block, inner, h⟩ := numberBlock_fills libraryBlock outline.body Arena.initial
  have hplaces : (⟨(numberBlock libraryBlock outline.body Arena.initial).1, block⟩ ::
      placesOf inner) = (Skeleton.mk ⟨_, none, [], entries, block⟩ inner).nodes.map
        fun node => (node.id, node.block) := rfl
  have hdeclared : declaredIn entries inner = (Skeleton.mk
      ⟨(numberBlock libraryBlock outline.body Arena.initial).1, none, [], entries, block⟩
      inner).declared := by
    rw [Skeleton.declared_eq]
    rfl
  have fills := h.fills
  rw [hplaces, hdeclared] at fills
  refine ⟨.mk ⟨(numberBlock libraryBlock outline.body Arena.initial).1, none, [], entries, block⟩
    inner, ?_⟩
  constructor
  case wellFormed =>
    exact h.parts.wellFormed h.block_bare none [] (fun _ hx => absurd hx List.not_mem_nil)
  case declIds_nodup => exact fills.decls_nodup
  case blockIds_nodup =>
    have := fills.blocks_nodup
    rwa [List.map_map] at this
  case id_eq => rfl
  case program => rfl
  case params_eq => rfl
  case groups => exact h.parts.groups
  case block_eq => exact h.block_eq
  case libraryBlock_lt =>
    intro id hid
    obtain ⟨node, hnode, rfl⟩ := List.mem_map.mp hid
    exact (fills.blocks_new _ (List.mem_map_of_mem hnode)).1
  case library => exact fills.blocks_kept libraryBlock (by decide)
  case block =>
    intro node hnode
    exact (fills.blocks_new _ (List.mem_map_of_mem hnode)).2
  case decl => exact fun x hx => (fills.decls_new x hx).2
  case block_mem =>
    intro id hid
    by_cases hlibrary : id = libraryBlock
    · exact .inl hlibrary
    · have hmem := fills.blocks_all id (Nat.pos_of_ne_zero hlibrary) hid
      rw [List.map_map] at hmem
      exact .inr hmem
  case decl_mem => exact fun id hid => fills.decls_all id (Nat.zero_le id) hid

end Outline

end MiniPascal
