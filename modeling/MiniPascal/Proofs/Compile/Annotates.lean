import MiniPascal.Proofs.Check.Erased
import MiniPascal.Proofs.Compile.Parsed

/-!
# Checking only annotates

A check writes into a tree what erasing takes off again, and it appends the declarations
of the library.  This holds however the check ends: wherever it is refused, the statements
that were being bound are back in their block, with the bindings made so far.
-/

namespace MiniPascal

/-- **Checking only annotates.**  Whether the check of a tree that was parsed succeeds or is
refused, and wherever, the tree it leaves is the one from before up to annotations, with
the declarations of the library behind those of the program.  So every block has its
parts and all of its statements. -/
theorem check_annotates {tokens : List Located} {context final : Context} {tree : Tree}
    (hparse : (Compilation.parse tokens).run context = .ok tree final) (context' : Context) :
    (Compilation.checkIn tree context').tree.erased =
      { tree.erased with decls := tree.erased.decls ++ Library.decls.toArray } ∧
    ∀ (id : BlockId) (block : Block), tree.blocks[id]? = some block →
      ∃ annotated, (Compilation.checkIn tree context').tree.blocks[id]? = some annotated ∧
        annotated.parts = block.parts ∧
        Statement.erasedAll annotated.statements = Statement.erasedAll block.statements := by
  obtain ⟨outline, -, rfl⟩ := Compilation.exists_outline_of_parse hparse
  obtain ⟨skeleton, hskeleton⟩ := Outline.exists_skeleton outline
  obtain ⟨opened, library, hopened⟩ := (Tree.check_outcome hskeleton context'.log).1
  have herased : (Compilation.checkIn (.ofOutline outline) context').tree.erased =
      { (Tree.ofOutline outline).erased with
        decls := (Tree.ofOutline outline).erased.decls ++ Library.decls.toArray } :=
    hopened.trans (library.erased_eq hskeleton)
  refine ⟨herased, fun id block hblock => ?_⟩
  have hsame := congrArg (fun tree : Tree => tree.blocks[id]?) herased
  simp only [Tree.getElem?_blocks_erased, hblock, Option.map_some] at hsame
  obtain ⟨annotated, hannotated, heq⟩ := Option.map_eq_some_iff.mp hsame
  have hparts : annotated.erased.parts = block.erased.parts := by rw [heq]
  have hstatements : annotated.erased.statements = block.erased.statements := by rw [heq]
  exact ⟨annotated, hannotated, hparts, hstatements⟩

/-- A check that is refused inside a loop of a routine keeps the whole program. -/
theorem check_annotates_refused :
    ∃ tokens tree final diagnostic,
      Compilation.scan "program p; const a = 1; type t = (on, off); var n: t;
        procedure q(x: integer); begin n := on; while x > a do begin x := x - 1; y := x;
        n := off end end;
        begin q(a); write(n) end." = .ok tokens ∧
      (Compilation.parse tokens).run (.fresh false false) = .ok tree final ∧
      (Compilation.checkIn tree final).result = .error diagnostic ∧
      (Compilation.checkIn tree final).tree.erased =
        { tree.erased with decls := tree.erased.decls ++ Library.decls.toArray } ∧
      ∀ (id : BlockId) (block : Block), tree.blocks[id]? = some block →
        ∃ annotated, (Compilation.checkIn tree final).tree.blocks[id]? = some annotated ∧
          annotated.parts = block.parts ∧
          Statement.erasedAll annotated.statements = Statement.erasedAll block.statements := by
  have hrefused : Compilation.passes (fun tokens => Compilation.endsWith
      (fun tree final =>
        !Compilation.passes (fun _ => true) (Compilation.checkIn tree final).result)
        ((Compilation.parse tokens).run (.fresh false false)))
      (Compilation.scan "program p; const a = 1; type t = (on, off); var n: t;
        procedure q(x: integer); begin n := on; while x > a do begin x := x - 1; y := x;
        n := off end end;
        begin q(a); write(n) end.") = true := by
    decide +kernel
  obtain ⟨tokens, hscan, htokens⟩ := Compilation.exists_of_passes hrefused
  obtain ⟨tree, final, hparse, htest⟩ := Compilation.exists_of_endsWith htokens
  cases hresult : (Compilation.checkIn tree final).result with
  | ok done =>
      rw [hresult] at htest
      cases htest
  | error diagnostic =>
      exact ⟨tokens, tree, final, diagnostic, hscan, hparse, hresult, check_annotates hparse final⟩

end MiniPascal
