import MiniPascal.Proofs.Lines.Check
import MiniPascal.Tree.Number

/-!
# Numbering with other lines

Numbers are given by the places of things in an outline, not by their lines.  So the tree
of an outline with other lines is the tree of the outline, with those lines.
-/

namespace MiniPascal

variable {f : Nat → Nat}

def Arena.relined (f : Nat → Nat) (arena : Arena) : Arena where
  blocks := arena.blocks.map (Block.relined f)
  decls := arena.decls.map (Decl.relined f)

/-- On an arena with other lines the second step does what the first one does, with those
lines. -/
def Arena.Echoes (f : Nat → Nat) {α β : Type} (view : α → β) (step : StateM Arena α)
    (step' : StateM Arena β) : Prop :=
  ∀ arena : Arena,
    step'.run (arena.relined f) = Prod.map view (Arena.relined f) (step.run arena)

namespace Arena

variable {α α' β β' : Type} {view : α → α'} {view' : β → β'}

theorem echoes_pure {value : α} {value' : α'} (h : value' = view value) :
    Echoes f view (pure value) (pure value') := by
  subst h
  exact fun _ => rfl

theorem echoes_bind {first : StateM Arena α} {first' : StateM Arena α'}
    {next : α → StateM Arena β} {next' : α' → StateM Arena β'} (h : Echoes f view first first')
    (hnext : ∀ value, Echoes f view' (next value) (next' (view value))) :
    Echoes f view' (first >>= next) (first' >>= next') := by
  intro arena
  change (fun outcome : α' × Arena => (next' outcome.1).run outcome.2)
    (first'.run (arena.relined f)) = _
  rw [h arena]
  exact hnext (first.run arena).1 (first.run arena).2

theorem echoes_addDecl {decl decl' : Decl} (h : decl' = decl.relined f) :
    Echoes f id (addDecl decl) (addDecl decl') := by
  subst h
  intro arena
  change ((arena.decls.map (Decl.relined f)).size, Arena.mk _ _) = Prod.mk _ (Arena.mk _ _)
  rw [Array.size_map, Array.map_push]
  rfl

theorem echoes_addBlock {block block' : Block} (h : block' = block.relined f) :
    Echoes f id (addBlock block) (addBlock block') := by
  subst h
  intro arena
  change ((arena.blocks.map (Block.relined f)).size, Arena.mk _ _) = Prod.mk _ (Arena.mk _ _)
  rw [Array.size_map, Array.map_push]
  rfl

theorem echoes_modifyBlock {id : BlockId} {change change' : Block → Block}
    (h : ∀ block, change' (block.relined f) = (change block).relined f) :
    Echoes f (fun done => done)
      (modify fun arena => { arena with blocks := arena.blocks.modify id change })
      (modify fun arena => { arena with blocks := arena.blocks.modify id change' }) := by
  intro arena
  change (PUnit.unit, Arena.mk ((arena.blocks.map (Block.relined f)).modify id change') _) =
    (PUnit.unit, Arena.mk _ _)
  rw [modify_map h]
  rfl

end Arena

namespace Outline

open Arena

theorem echoes_numberLiterals (code : Nat) (idents : List Ident) :
    Echoes f id (numberLiterals code idents)
      (numberLiterals code (idents.map (Ident.relined f))) := by
  induction idents generalizing code with
  | nil => exact echoes_pure rfl
  | cons ident others ih =>
      refine echoes_bind (echoes_addDecl rfl) fun decl => ?_
      exact echoes_bind (ih (code + 1)) fun decls => echoes_pure rfl

theorem echoes_numberType (type : TypeExpr Ident) :
    Echoes f (TypeExpr.relined f id) (numberType type)
      (numberType (type.relined f (Ident.relined f))) := by
  induction type with
  | named | range | builtin => exact echoes_pure rfl
  | array index element line ihIndex ihElement =>
      exact echoes_bind ihIndex fun index => echoes_bind ihElement fun element => echoes_pure rfl
  | enumeration literals line =>
      refine echoes_bind (echoes_numberLiterals 0 literals) fun decls => echoes_pure ?_
      rw [TypeExpr.relined, List.map_id, id]

theorem echoes_numberAll {α : Type} {kind : α → DeclKind} {view : α → α}
    (hkind : ∀ content, kind (view content) = (kind content).relined f) (decls : List (Ident × α)) :
    Echoes f id (numberAll kind decls)
      (numberAll kind (decls.map (Prod.map (Ident.relined f) view))) := by
  induction decls with
  | nil => exact echoes_pure rfl
  | cons first others ih =>
      have hdecl : Decl.bare first.1.name (f first.1.line) (kind (view first.2)) =
          (Decl.bare first.1.name first.1.line (kind first.2)).relined f :=
        congrArg (Decl.bare _ _) (hkind first.2)
      refine echoes_bind (echoes_addDecl hdecl) fun decl => ?_
      exact echoes_bind ih fun decls => echoes_pure rfl

theorem echoes_numberTyped {kind : TypeExpr DeclId → DeclKind}
    (hkind : ∀ content, kind (content.relined f id) = (kind content).relined f)
    (decls : List (Ident × TypeExpr Ident)) :
    Echoes f id (numberTyped kind decls) (numberTyped kind
      (decls.map (Prod.map (Ident.relined f) (TypeExpr.relined f (Ident.relined f))))) := by
  induction decls with
  | nil => exact echoes_pure rfl
  | cons first others ih =>
      refine echoes_bind (echoes_numberType first.2) fun type => ?_
      have hdecl : Decl.bare first.1.name (f first.1.line) (kind (type.relined f id)) =
          (Decl.bare first.1.name first.1.line (kind type)).relined f :=
        congrArg (Decl.bare _ _) (hkind type)
      refine echoes_bind (echoes_addDecl hdecl) fun decl => ?_
      exact echoes_bind ih fun decls => echoes_pure rfl

mutual

theorem echoes_numberBlock (enclosing : BlockId) (block : Block) :
    Echoes f id (numberBlock enclosing block) (numberBlock enclosing (block.relined f)) := by
  cases block with
  | mk line parts statements =>
      refine echoes_bind (echoes_addBlock rfl) fun body => ?_
      refine echoes_bind (echoes_numberParts body parts) fun decls => ?_
      exact echoes_bind (echoes_modifyBlock fun _ => rfl) fun _ => echoes_pure rfl

theorem echoes_numberParts (block : BlockId) (parts : List Part) :
    Echoes f id (numberParts block parts) (numberParts block (Part.relinedAll f parts)) := by
  cases parts with
  | nil => exact echoes_pure rfl
  | cons part others =>
      refine echoes_bind (echoes_numberPart block part) fun first => ?_
      exact echoes_bind (echoes_numberParts block others) fun rest => echoes_pure rfl

theorem echoes_numberPart (block : BlockId) (part : Part) :
    Echoes f id (numberPart block part) (numberPart block (part.relined f)) := by
  cases part with
  | constants decls =>
      have hkind (value : Constant) :
          DeclKind.constant (value.relined f) = (DeclKind.constant value).relined f := rfl
      exact echoes_bind (echoes_numberAll hkind decls) fun _ => echoes_pure rfl
  | types decls =>
      exact echoes_bind (echoes_numberTyped (fun _ => rfl) decls) fun _ => echoes_pure rfl
  | vars decls =>
      exact echoes_bind (echoes_numberTyped (fun _ => rfl) decls) fun _ => echoes_pure rfl
  | routine heading body =>
      have hkind (type : NameRef) :
          DeclKind.parameter (type.relined f) = (DeclKind.parameter type).relined f := rfl
      refine echoes_bind (echoes_numberAll hkind heading.params) fun params => ?_
      refine echoes_bind (echoes_numberBlock block body) fun body => ?_
      exact echoes_bind (echoes_addDecl rfl) fun decl => echoes_pure rfl

end

end Outline

/-- The tree of an outline with other lines has those lines. -/
theorem Tree.ofOutline_relined (hf : f libraryLine = libraryLine) (outline : Outline) :
    ofOutline (outline.relined f) = (ofOutline outline).relined f := by
  have hlibrary : (Block.bare none libraryLine).relined f = .bare none libraryLine :=
    congrArg (Block.bare none) hf
  have hinitial : Arena.initial.relined f = Arena.initial := by
    simp only [Arena.relined, Arena.initial, List.map_toArray, List.map_cons, List.map_nil,
      hlibrary]
  have hnumber := Outline.echoes_numberBlock (f := f) libraryBlock outline.body Arena.initial
  rw [hinitial] at hnumber
  unfold ofOutline
  change (fun numbered : BlockId × Arena => Tree.mk _ _ numbered.1 _ numbered.2.blocks
    numbered.2.decls) ((Outline.numberBlock libraryBlock (outline.body.relined f)).run
      Arena.initial) = _
  rw [hnumber]
  rfl

end MiniPascal
