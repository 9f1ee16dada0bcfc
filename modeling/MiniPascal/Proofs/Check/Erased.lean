import MiniPascal.Proofs.Check.Program
import MiniPascal.Proofs.Tree.Declared
import MiniPascal.Proofs.Tree.Origins

/-!
# Trees under check without their annotations

However far a check got, the tree without annotations is the one that was numbered, with
the declarations of the library behind those of the program.  So its statements stand in
the text, and what it declares comes from the text or from the library.
-/

namespace MiniPascal

/-- The declarations of the library, numbered from the given place on, are found there in
their order. -/
theorem Library.getElem?_numberFrom (first : DeclId) (decls : List Decl) (index : Nat) :
    (numberFrom first decls)[index]? = decls[index]?.map fun decl => ⟨first + index, decl⟩ := by
  induction decls generalizing first index with
  | nil => rfl
  | cons decl others ih =>
      cases index with
      | zero => rfl
      | succ index =>
          rw [numberFrom, List.getElem?_cons_succ, List.getElem?_cons_succ, ih,
            Nat.add_right_comm, Nat.add_assoc]

namespace Check.LibraryDeclared

variable {outline : Outline} {skeleton : Skeleton} {opened : Tree}

/-- Without annotations, the library's block is as it was numbered. -/
theorem erased_block (h : Outline.HasSkeleton outline skeleton)
    (library : LibraryDeclared (Tree.ofOutline outline)
      (Library.numbered (Tree.ofOutline outline).decls.size) opened) (id : BlockId) :
    opened.blocks[id]?.map Block.erased =
      (Tree.ofOutline outline).blocks[id]?.map Block.erased := by
  by_cases hid : id = libraryBlock
  · rw [hid, library.library_eq, h.library]
    rfl
  · rw [library.block_eq id hid]

/-- Without annotations, the declarations are those of the program and then those of the
library. -/
theorem erased_decl (library : LibraryDeclared (Tree.ofOutline outline)
      (Library.numbered (Tree.ofOutline outline).decls.size) opened) (id : DeclId) :
    opened.decls[id]?.map Decl.erased =
      ((Tree.ofOutline outline).erased.decls ++ Library.decls.toArray)[id]? := by
  have hsize : (Tree.ofOutline outline).erased.decls.size = (Tree.ofOutline outline).decls.size :=
    Array.size_map
  by_cases hid : id < (Tree.ofOutline outline).decls.size
  · rw [library.decl_eq id hid, Array.getElem?_append_left (hsize ▸ hid),
      Tree.getElem?_decls_erased]
  · obtain ⟨index, rfl⟩ := Nat.exists_eq_add_of_le (Nat.not_lt.mp hid)
    have hplace : ((Tree.ofOutline outline).erased.decls ++ Library.decls.toArray)[
        (Tree.ofOutline outline).decls.size + index]? = Library.decls[index]? := by
      rw [Array.getElem?_append_right (hsize ▸ Nat.le_add_right _ _), hsize,
        Nat.add_sub_cancel_left, List.getElem?_toArray]
    rw [hplace]
    cases hindex : Library.decls[index]? with
    | none =>
        have hlength : opened.decls.size ≤ (Tree.ofOutline outline).decls.size + index := by
          rw [library.decls_size, Library.numbered, Library.length_numberFrom]
          exact Nat.add_le_add_left (List.getElem?_eq_none_iff.mp hindex) _
        rw [Array.getElem?_eq_none hlength]
        rfl
    | some decl =>
        have hnumbered := Library.getElem?_numberFrom (Tree.ofOutline outline).decls.size
          Library.decls index
        rw [hindex, Option.map_some] at hnumbered
        have hdeclared := (library.declared _ (List.mem_of_getElem? hnumbered)).2
        have hbare : ∀ decl ∈ Library.decls, decl.erased = decl := by decide
        rw [hdeclared, Option.map_some]
        exact congrArg some (hbare decl (List.mem_of_getElem? hindex))

/-- Declaring the library adds its declarations, and all else is annotation. -/
theorem erased_eq (h : Outline.HasSkeleton outline skeleton)
    (library : LibraryDeclared (Tree.ofOutline outline)
      (Library.numbered (Tree.ofOutline outline).decls.size) opened) :
    opened.erased = { (Tree.ofOutline outline).erased with
      decls := (Tree.ofOutline outline).erased.decls ++ Library.decls.toArray } := by
  have hblocks : opened.erased.blocks = (Tree.ofOutline outline).erased.blocks := by
    apply Array.ext_getElem?
    intro id
    rw [Tree.getElem?_blocks_erased, Tree.getElem?_blocks_erased, library.erased_block h id]
  have hdecls : opened.erased.decls =
      (Tree.ofOutline outline).erased.decls ++ Library.decls.toArray := by
    apply Array.ext_getElem?
    intro id
    rw [Tree.getElem?_decls_erased, library.erased_decl id]
  calc
    opened.erased = { (Tree.ofOutline outline).erased with
        blocks := opened.erased.blocks, decls := opened.erased.decls } := by
      unfold Tree.erased
      rw [library.name_eq, library.line_eq, library.body_eq]
    _ = { (Tree.ofOutline outline).erased with
        decls := (Tree.ofOutline outline).erased.decls ++ Library.decls.toArray } := by
      rw [hblocks, hdecls]

end Check.LibraryDeclared

namespace Check.Underway

variable {outline : Outline} {skeleton : Skeleton} {tree : Tree}

/-- The statements of a tree under check are those that were parsed. -/
theorem exists_parsed (underway : Underway outline tree)
    (h : Outline.HasSkeleton outline skeleton) {id : BlockId} {block : Block}
    (hblock : tree.blocks[id]? = some block) :
    ∃ parsed, (Tree.ofOutline outline).blocks[id]? = some parsed ∧
      Statement.erasedAll block.statements = Statement.erasedAll parsed.statements := by
  obtain ⟨opened, library, herased⟩ := underway
  have hsame := Tree.block_of_erased_eq herased id
  rw [library.erased_block h id, hblock, Option.map_some] at hsame
  obtain ⟨parsed, hparsed, heq⟩ := Option.map_eq_some_iff.mp hsame.symm
  have hstatements : Statement.erasedAll parsed.statements = Statement.erasedAll block.statements :=
    congrArg Block.statements heq
  exact ⟨parsed, hparsed, hstatements.symm⟩

/-- The statements of a tree under check stand in the text. -/
theorem tokens_sublist (underway : Underway outline tree)
    (h : Outline.HasSkeleton outline skeleton) {id : BlockId} {block : Block}
    (hblock : tree.blocks[id]? = some block) :
    (Statement.tokensAll block.statements).Sublist outline.tokens := by
  obtain ⟨parsed, hparsed, hstatements⟩ := underway.exists_parsed h hblock
  rw [← Statement.tokensAll_erased, hstatements, Statement.tokensAll_erased]
  exact (Outline.ofOutline_comesFrom outline).statements parsed (Array.mem_of_getElem? hparsed)

/-- Without annotations, a declaration of a tree under check is one that was parsed or one of
the library. -/
theorem exists_parsed_decl (underway : Underway outline tree) {id : DeclId} {decl : Decl}
    (hdecl : tree.decls[id]? = some decl) :
    (∃ parsed ∈ (Tree.ofOutline outline).decls, parsed.erased = decl.erased) ∨
      decl.erased ∈ Library.decls := by
  obtain ⟨opened, library, herased⟩ := underway
  have hsame := Tree.decl_of_erased_eq herased id
  rw [library.erased_decl id, hdecl, Option.map_some] at hsame
  rcases Array.mem_append.mp (Array.mem_of_getElem? hsame.symm) with hown | hlibrary
  · obtain ⟨parsed, hparsed, heq⟩ := Array.mem_map.mp hown
    exact .inl ⟨parsed, hparsed, heq⟩
  · exact .inr (List.mem_toArray.mp hlibrary)

/-- What a tree under check declares comes from the text or from the library. -/
theorem comesFrom (underway : Underway outline tree) {id : DeclId} {decl : Decl}
    (hdecl : tree.decls[id]? = some decl) :
    decl.kind.ComesFrom outline.tokens ∨
      ∃ known ∈ Library.decls, decl.kind.erased = known.kind := by
  rcases underway.exists_parsed_decl hdecl with ⟨parsed, hparsed, heq⟩ | hlibrary
  · have hkind : parsed.kind.erased = decl.kind.erased := congrArg Decl.kind heq
    rw [← DeclKind.comesFrom_erased, ← hkind, DeclKind.comesFrom_erased]
    exact .inl ((Outline.ofOutline_comesFrom outline).kind parsed hparsed)
  · exact .inr ⟨decl.erased, hlibrary, rfl⟩

/-- What a tree under check declares is called and stands as its text says, or is the
library's. -/
theorem declared (underway : Underway outline tree) {named : String → Prop} {lined : Nat → Prop}
    (htold : Tells named lined outline.spots) {id : DeclId} {decl : Decl}
    (hdecl : tree.decls[id]? = some decl) :
    (named decl.name ∧ lined decl.line) ∨ decl.erased ∈ Library.decls := by
  rcases underway.exists_parsed_decl hdecl with ⟨parsed, hparsed, heq⟩ | hlibrary
  · have hname : parsed.erased.name = decl.erased.name := congrArg Decl.name heq
    have hline : parsed.erased.line = decl.erased.line := congrArg Decl.line heq
    change parsed.name = decl.name at hname
    change parsed.line = decl.line at hline
    rw [← hname, ← hline]
    exact .inl (Outline.ofOutline_declared htold parsed hparsed)
  · exact .inr hlibrary

end Check.Underway

end MiniPascal
