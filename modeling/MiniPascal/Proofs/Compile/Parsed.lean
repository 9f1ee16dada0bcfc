import MiniPascal.Proofs.Compile.Stages
import MiniPascal.Proofs.Grammar.Dangling

/-!
# Parsed programs

The tree of a program that parses is the program: flattened, it is the list of tokens it
was read from, and its statements are nested the way the elses ask for.
-/

namespace MiniPascal

namespace Compilation

theorem exists_outline_of_parse {tokens : List Located} {context final : Context} {tree : Tree}
    (h : (parse tokens).run context = .ok tree final) :
    ∃ outline, (Outline.parse tokens).result = .ok outline ∧ tree = Tree.ofOutline outline := by
  change parse tokens context = _ at h
  unfold parse at h
  cases hparse : (Outline.parse tokens).result with
  | ok outline =>
      simp only [hparse] at h
      cases h
      exact ⟨outline, rfl, rfl⟩
  | error error =>
      simp only [hparse] at h
      cases h

end Compilation

namespace Outline

/-- The statements of an outline that parses have their elses with the nearest
conditionals. -/
theorem allSettled_of_parse {tokens : List Located} {outline : Outline}
    (h : (parse tokens).result = .ok outline) : AllSettled outline.body.bodies := by
  obtain ⟨final, hrun⟩ := parse_result_eq_ok_iff.mp h
  exact givesAt_program _ _ _ rfl hrun

end Outline

/-- **A tree has the tokens it was read from.**  A program that parses has a tree with
exactly the tokens before the end of the file, in which every `else` belongs to the nearest
conditional that can take it. -/
theorem parse_faithful {tokens : List Located} {context final : Context} {tree : Tree}
    (h : (Compilation.parse tokens).run context = .ok tree final) :
    tree.tokens = (Outline.beforeEnd tokens).map Located.token ∧
      ∀ (id : BlockId) (block : Block), tree.blocks[id]? = some block →
        Statement.AllElsesNearest block.statements := by
  obtain ⟨outline, hparse, rfl⟩ := Compilation.exists_outline_of_parse h
  constructor
  · calc
      (Tree.ofOutline outline).tokens = outline.tokens := outline.tokens_ofOutline
      _ = (Outline.beforeEnd tokens).map Located.token := Outline.tokens_of_parse hparse
  · intro id block hblock
    by_cases hid : id = libraryBlock
    · obtain ⟨_, hskeleton⟩ := outline.exists_skeleton
      rw [hid, hskeleton.library] at hblock
      cases hblock
      exact trivial
    · exact Outline.allSettled_of_parse hparse _ (Outline.statements_mem_bodies hblock hid)

/-- A program with a type, a function and an `else` that two conditionals could take. -/
theorem parse_faithful_conditionals :
    ∃ tokens tree final, Compilation.scan "program p; type t = array [1..2] of (on, off);
        function f(x: integer): integer; begin if x > 0 then if x = 1 then f := +x
        else f := (x) end;
        begin write(f(3) div (-1)) end." = .ok tokens ∧
      (Compilation.parse tokens).run (.fresh false false) = .ok tree final ∧
      tree.tokens = (Outline.beforeEnd tokens).map Located.token ∧
      ∀ (id : BlockId) (block : Block), tree.blocks[id]? = some block →
        Statement.AllElsesNearest block.statements := by
  have hok : Compilation.passes (fun tokens => Compilation.endsWith (fun _ _ => true)
        ((Compilation.parse tokens).run (.fresh false false)))
        (Compilation.scan "program p; type t = array [1..2] of (on, off);
        function f(x: integer): integer; begin if x > 0 then if x = 1 then f := +x
        else f := (x) end;
        begin write(f(3) div (-1)) end.") = true := by
    decide +kernel
  obtain ⟨tokens, hscan, htokens⟩ := Compilation.exists_of_passes hok
  obtain ⟨tree, final, hparse, -⟩ := Compilation.exists_of_endsWith htokens
  exact ⟨tokens, tree, final, hscan, hparse, parse_faithful hparse⟩

end MiniPascal
